import ShadowImpl.Generics.Scope

/-!
# Methods

Every method is a scope of its own: its directive comes from its own markers and from nothing else.
-/

namespace ShadowImpl

/-- Whether an attribute is the given marker. -/
def Attribute.isThe {σ : Type} (marker : Marker) (a : Attribute σ) : Bool :=
  a.isMarker marker.name

namespace Method

variable {m : Type → Type} [Monad m] [Engine m]

/-- Follows one attribute: a method marker adds its arguments, if it has any. The text of the
arguments is looked up in `s`. -/
def followM (s : Source) (d : Directive) (a : Attribute Location) : m Directive :=
  if a.isThe .method then
    match a.content.map Meta.form with
    | some .value => Engine.settle (.error ⟨.markerWithValue .method, some a.place⟩)
    | some (.list _ group) => do
      return d.merge (← Directive.parseM { s with region := some (Directive.interior group) })
    | _ => return d
  else return d

/-- What all markers of a method ask for. -/
def directiveM (s : Source) (method : Method Location) : m Directive :=
  method.attrs.foldlM (followM s) {}

/-- The method under its directive, without its markers. -/
def expand {σ : Type} (m : Method σ) (d : Directive) : Method σ :=
  { m with
    attrs := m.attrs.filter fun a => !a.isThe .method
    generics := m.generics.expand d }

/-- The method under its directive, with each of its predicates projected from its record. -/
def expandChecked {σ : Type} (m : Method σ) (d : Directive) : Except Abort (Method σ) := do
  let projected ← m.generics.normalize.projectChecked d
  return { m.expand d with generics := projected.augment d }

@[inherit_doc followM] def follow (s : Source) (d : Directive) (a : Attribute Location) :
    Except Fault Directive :=
  followM s d a

@[inherit_doc directiveM] def directive (s : Source) (m : Method Location) :
    Except Fault Directive :=
  directiveM s m

@[simp] theorem directiveM_plain (s : Source) (m : Method Location) :
    (m.directiveM s : Except Fault _) = m.directive s := rfl

end Method

/-- Refuses a method marker on an item that is no method. -/
def VerbatimItem.check (v : VerbatimItem Location) : Except Fault Unit :=
  if v.attrs.any (Attribute.isThe .method) then .error ⟨.markedItem v.kind, some v.place⟩
  else .ok ()

section Items

variable {m : Type → Type} [Monad m] [Engine m]

/-- The item of a generated block. -/
def Item.expandM (s : Source) : Item Location → m (Item Location)
  | verbatim v => do
    Engine.settle v.check
    return verbatim v
  | method m => do
    let d ← m.directiveM s
    return method (← Engine.confirm (m.expand d) (m.expandChecked d))

/-- A method that stands alone; any other item is refused. -/
def Source.methodM (s : Source) : m (Method Location) := do
  match ← s.itemM with
  | .method m => return m
  | .verbatim v => Engine.settle (.error ⟨.notMethod v.kind, some v.place⟩)

end Items

@[inherit_doc Item.expandM] def Item.expand (s : Source) (i : Item Location) :
    Except Fault (Item Location) :=
  i.expandM s

@[simp] theorem Item.expandM_plain (s : Source) (i : Item Location) :
    (i.expandM s : Except Fault _) = i.expand s := rfl

namespace Item

@[simp] theorem expand_verbatim (s : Source) (v : VerbatimItem Location) :
    (verbatim v).expand s = do
      v.check
      return verbatim v := rfl

@[simp] theorem expand_method (s : Source) (m : Method Location) :
    (method m).expand s = do return method (m.expand (← m.directive s)) := rfl

end Item

@[inherit_doc Source.methodM] def Source.method (s : Source) : Except Fault (Method Location) :=
  s.methodM

end ShadowImpl
