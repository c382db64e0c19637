import ShadowImpl.Projection

/-!
# Root positions

Where a projected parameter is replaced, said without the recursion that replaces it. A predicate is
viewed as a tree of parts, each part standing in a role in the part around it. A root position is a
place that is reached without entering the path of a path type, the trait after `as` or the path
after a qualified self. Projection replaces what stands in those positions and nothing else.
-/

namespace ShadowImpl

/-- What a part is, with all of it that is not a part itself. -/
inductive Label where
  | pathTy
  | qualifiedTy
  | refTy (lifetime : Option Lifetime) (mutable : Bool)
  | ptrTy (mutable : Bool)
  | tupleTy
  | parenTy
  | sliceTy
  | arrayTy (length : String)
  | neverTy
  | implTy
  | dynTy
  | fnPtrTy (lifetimes : List Lifetime) (isUnsafe : Bool) (abi : Option String)
  | fnArg (name : Option String)
  | path (rooted : Bool)
  | segment (ident : String)
  | angleArgs (turbofish : Bool)
  | parenArgs
  | tyArg
  | lifetimeArg (lifetime : Lifetime)
  | binding (ident : String)
  | constraint (ident : String)
  | constArg (text : String)
  | traitBound (maybe : Bool) (lifetimes : List Lifetime)
  | lifetimeBound (lifetime : Lifetime)
  | tyPredicate (lifetimes : List Lifetime)
  | lifetimePredicate (lifetime : Lifetime) (bounds : List Lifetime)
deriving DecidableEq, Repr

/-- The role of a part in the part around it. -/
inductive Role where
  /-- The subject of a predicate. -/
  | subject
  /-- A bound of a predicate, of an `impl` or `dyn` type or of an associated constraint. -/
  | bound
  /-- The element of a reference, pointer, slice, array or parenthesised type. -/
  | elem
  /-- An element of a tuple. -/
  | member
  /-- The type inside a qualified self. -/
  | qself
  /-- A parameter of a function pointer, and its type. -/
  | input
  /-- What a function pointer or `Fn` sugar returns. -/
  | output
  /-- The path of a trait bound. -/
  | trait
  /-- A segment of a path, and the arguments of a segment. -/
  | segment
  | args
  /-- An argument, and the type of a type argument or of an associated binding. -/
  | arg
  | argTy
  /-- The path of a path type. -/
  | ownPath
  /-- The trait after `as`. -/
  | asTrait
  /-- The path after a qualified self. -/
  | afterSelf
deriving DecidableEq, Repr

/-- Whether a root position may lie behind a role. -/
def Role.leadsToRoots : Role → Bool
  | ownPath | asTrait | afterSelf => false
  | _ => true

/-- The roles that lead to a part, from the whole predicate on. -/
abbrev Address := List Role

/-- Whether all parts with this address stand in root position. -/
def Address.isRoot (a : Address) : Bool :=
  a.all Role.leadsToRoots

mutual

/-- A part with the parts in it. -/
inductive Part where
  | node (label : Label) (children : List Child)

/-- A part and its role. -/
structure Child where
  role : Role
  part : Part

end

namespace Part

mutual

/-- Replaces parts from the outside in. `f` is asked with the address of each part; a part for which
it has no answer stays, and its own parts are looked at. -/
def replace (f : Address → Part → Option Part) (a : Address) : Part → Part
  | node label children =>
    match f a (node label children) with
    | some part => part
    | none => node label (replaceEach f a children)

def replaceEach (f : Address → Part → Option Part) (a : Address) : List Child → List Child
  | [] => []
  | ⟨role, part⟩ :: children => ⟨role, part.replace f (a ++ [role])⟩ :: replaceEach f a children

end

/-- The part that is a path type of the given names, with nothing else to it. -/
def ofNames (names : List String) : Part :=
  node .pathTy [⟨.ownPath,
    node (.path false) (names.map fun n => ⟨.segment, node (.segment n) []⟩)⟩]

/-- The name that a part consists of, if it is an unqualified path type with one segment, no
arguments and no leading `::`. -/
def name? : Part → Option String
  | node .pathTy [⟨.ownPath, node (.path false) [⟨.segment, node (.segment n) []⟩]⟩] => some n
  | _ => none

/-- What replaces a part: `T::Shadowed` for a name `T` in root position that is projected. -/
def shadow? (projected : List String) (a : Address) (part : Part) : Option Part :=
  match part.name? with
  | some n => if a.isRoot && projected.contains n then some (ofNames [n, "Shadowed"]) else none
  | none => none

/-- Replaces exactly the projected names in root position. -/
def projectRoots (projected : List String) (part : Part) : Part :=
  part.replace (shadow? projected) []

end Part

/-! ## The view -/

mutual

/-- The tree of parts of a type. -/
def Ty.view : Ty → Part
  | .path path => .node .pathTy [⟨.ownPath, path.view⟩]
  | .qualified self asTrait path =>
    .node .qualifiedTy (⟨.qself, self.view⟩ :: viewAsTrait asTrait ++ [⟨.afterSelf, path.view⟩])
  | .ref lifetime mutable elem => .node (.refTy lifetime mutable) [⟨.elem, elem.view⟩]
  | .ptr mutable elem => .node (.ptrTy mutable) [⟨.elem, elem.view⟩]
  | .tuple elems => .node .tupleTy (viewTys .member elems)
  | .paren elem => .node .parenTy [⟨.elem, elem.view⟩]
  | .slice elem => .node .sliceTy [⟨.elem, elem.view⟩]
  | .array elem length => .node (.arrayTy length) [⟨.elem, elem.view⟩]
  | .never => .node .neverTy []
  | .implTrait bounds => .node .implTy (viewBounds bounds)
  | .dynTrait bounds => .node .dynTy (viewBounds bounds)
  | .fnPtr lifetimes isUnsafe abi inputs output =>
    .node (.fnPtrTy lifetimes isUnsafe abi) (viewFnArgs inputs ++ viewOutput output)

def viewTys (role : Role) : List Ty → List Child
  | [] => []
  | ty :: tys => ⟨role, ty.view⟩ :: viewTys role tys

def viewOutput : Option Ty → List Child
  | none => []
  | some ty => [⟨.output, ty.view⟩]

def viewAsTrait : Option Path → List Child
  | none => []
  | some path => [⟨.asTrait, path.view⟩]

def viewFnArgs : List FnArg → List Child
  | [] => []
  | ⟨name, ty⟩ :: args => ⟨.input, .node (.fnArg name) [⟨.input, ty.view⟩]⟩ :: viewFnArgs args

def Path.view : Path → Part
  | ⟨segments, rooted⟩ => .node (.path rooted) (viewSegments segments)

def viewSegments : List Segment → List Child
  | [] => []
  | ⟨ident, args⟩ :: segments =>
    ⟨.segment, .node (.segment ident) (viewArgs args)⟩ :: viewSegments segments

def viewArgs : Option PathArgs → List Child
  | none => []
  | some args => [⟨.args, args.view⟩]

def PathArgs.view : PathArgs → Part
  | .angle args turbofish => .node (.angleArgs turbofish) (viewGenericArgs args)
  | .paren inputs output => .node .parenArgs (viewTys .input inputs ++ viewOutput output)

def viewGenericArgs : List GenericArg → List Child
  | [] => []
  | arg :: args => ⟨.arg, arg.view⟩ :: viewGenericArgs args

def GenericArg.view : GenericArg → Part
  | .ty ty => .node .tyArg [⟨.argTy, ty.view⟩]
  | .lifetime lifetime => .node (.lifetimeArg lifetime) []
  | .binding ident ty => .node (.binding ident) [⟨.argTy, ty.view⟩]
  | .constraint ident bounds => .node (.constraint ident) (viewBounds bounds)
  | .const text => .node (.constArg text) []

def Bound.view : Bound → Part
  | .trait path maybe lifetimes => .node (.traitBound maybe lifetimes) [⟨.trait, path.view⟩]
  | .lifetime lifetime => .node (.lifetimeBound lifetime) []

def viewBounds : List Bound → List Child
  | [] => []
  | bound :: bounds => ⟨.bound, bound.view⟩ :: viewBounds bounds

end

/-- The tree of parts of a predicate. -/
def Predicate.view : Predicate → Part
  | type subject bounds lifetimes =>
    .node (.tyPredicate lifetimes) (⟨.subject, subject.view⟩ :: viewBounds bounds)
  | lifetime l bounds => .node (.lifetimePredicate l bounds) []

/-! ## Replacing in the view -/

namespace Part

/-- At an address that is no root position nothing is replaced. -/
theorem shadow?_of_not_isRoot (projected : List String) {a : Address} (h : a.isRoot = false)
    (part : Part) : shadow? projected a part = none := by
  unfold shadow?
  split <;> simp [h]

/-- A root position does not lie behind a position that is none. -/
theorem isRoot_append_of_not_isRoot {a : Address} (h : a.isRoot = false) (role : Role) :
    Address.isRoot (a ++ [role]) = false := by
  simp only [Address.isRoot, List.all_append] at h ⊢
  simp [h]

mutual

/-- Below such an address nothing is replaced either, as roots lie only on the way from roots. -/
theorem replace_of_not_isRoot (projected : List String) {a : Address} (h : a.isRoot = false)
    (part : Part) : part.replace (shadow? projected) a = part := by
  cases part with
  | node label children =>
    rw [replace, shadow?_of_not_isRoot projected h, replaceEach_of_not_isRoot projected h children]

theorem replaceEach_of_not_isRoot (projected : List String) {a : Address} (h : a.isRoot = false)
    (children : List Child) : replaceEach (shadow? projected) a children = children := by
  match children with
  | [] => rw [replaceEach]
  | ⟨role, part⟩ :: children =>
    rw [replaceEach, replace_of_not_isRoot projected (isRoot_append_of_not_isRoot h role) part,
      replaceEach_of_not_isRoot projected h children]

end

/-- The trait after `as` is never looked into. -/
theorem replaceEach_viewAsTrait (projected : List String) (a : Address) (asTrait : Option Path) :
    replaceEach (shadow? projected) a (viewAsTrait asTrait) = viewAsTrait asTrait := by
  have h : (a ++ [Role.asTrait] : Address).isRoot = false := by
    simp [Address.isRoot, Role.leadsToRoots]
  cases asTrait with
  | none => rw [viewAsTrait, replaceEach]
  | some path => rw [viewAsTrait, replaceEach, replace_of_not_isRoot projected h, replaceEach]

/-- A step that leads to roots leads from a root position to another one. -/
theorem isRoot_append {a : Address} (h : a.isRoot = true) {role : Role}
    (hrole : role.leadsToRoots = true) : Address.isRoot (a ++ [role]) = true := by
  simp only [Address.isRoot, List.all_append, Bool.and_eq_true] at h ⊢
  simp [h, hrole]

/-- Only a path type can be a name. -/
theorem name?_of_label_ne {label : Label} (h : label ≠ .pathTy) (children : List Child) :
    (node label children).name? = none := by
  unfold name?
  split
  · rename_i heq
    simp only [node.injEq] at heq
    exact absurd heq.1 h
  · rfl

/-- A part that is no path type keeps its label, and its parts are looked at. -/
theorem replace_node (projected : List String) (a : Address) {label : Label} (h : label ≠ .pathTy)
    (children : List Child) :
    (node label children).replace (shadow? projected) a =
      node label (replaceEach (shadow? projected) a children) := by
  rw [replace, shadow?, name?_of_label_ne h]

theorem replaceEach_append (f : Address → Part → Option Part) (a : Address)
    (children more : List Child) :
    replaceEach f a (children ++ more) = replaceEach f a children ++ replaceEach f a more := by
  induction children with
  | nil => rw [replaceEach]; rfl
  | cons child children ih =>
    obtain ⟨role, part⟩ := child
    rw [List.cons_append, replaceEach, replaceEach, ih, List.cons_append]

/-- The view of a path type is a name exactly if the path is one. -/
theorem name?_view_path (path : Path) : (Ty.path path).view.name? = path.ident? := by
  obtain ⟨segments, rooted⟩ := path
  match segments, rooted with
  | [⟨ident, none⟩], false => rfl
  | [⟨ident, none⟩], true => rfl
  | [⟨ident, some args⟩], false => rfl
  | [⟨ident, some args⟩], true => rfl
  | [], false => rfl
  | [], true => rfl
  | ⟨ident, none⟩ :: ⟨ident', args'⟩ :: segments, false => rfl
  | ⟨ident, some args⟩ :: ⟨ident', args'⟩ :: segments, false => rfl
  | ⟨ident, none⟩ :: ⟨ident', args'⟩ :: segments, true => rfl
  | ⟨ident, some args⟩ :: ⟨ident', args'⟩ :: segments, true => rfl

/-- What a name is projected onto is a path of two segments. -/
theorem view_shadowed (ident : String) : (Ty.shadowed ident).view = ofNames [ident, "Shadowed"] :=
  rfl

end Part

open ShadowImpl.Part

mutual

/-- In root position, replacing in the view of a type is projecting the type. -/
theorem Ty.replace_view (projected : List String) {a : Address} (h : a.isRoot = true) (ty : Ty) :
    ty.view.replace (shadow? projected) a = (ty.project projected).view := by
  cases ty with
  | path path =>
    have hname := name?_view_path path
    have hown : (a ++ [Role.ownPath] : Address).isRoot = false := by
      simp [Address.isRoot, Role.leadsToRoots]
    rw [Ty.project]
    simp only [Ty.view] at hname ⊢
    rw [Part.replace, shadow?, hname]
    -- The name of a path decides, and only in root position.
    cases path.ident? with
    | none => simp [replaceEach, replace_of_not_isRoot projected hown, Ty.view]
    | some ident =>
      by_cases hp : projected.contains ident = true
      · simp only [h, hp, Bool.and_self, if_true, view_shadowed]
      · simp only [hp, Bool.and_false, Bool.false_eq_true, if_false, replaceEach,
          replace_of_not_isRoot projected hown, Ty.view]
  | qualified self asTrait path =>
    have hown : (a ++ [Role.afterSelf] : Address).isRoot = false := by
      simp [Address.isRoot, Role.leadsToRoots]
    rw [Ty.project, Ty.view, Ty.view, replace_node projected a (by simp), List.cons_append,
      replaceEach, replaceEach_append, replaceEach_viewAsTrait projected a asTrait, replaceEach,
      replaceEach, replace_of_not_isRoot projected hown,
      Ty.replace_view projected (isRoot_append h rfl) self]
    rfl
  | ref lifetime mutable elem | ptr mutable elem | paren elem | slice elem | array elem length =>
    rw [Ty.project, Ty.view, Ty.view, replace_node projected a (by simp), replaceEach, replaceEach,
      Ty.replace_view projected (isRoot_append h rfl) elem]
  | tuple elems =>
    rw [Ty.project, Ty.view, Ty.view, replace_node projected a (by simp),
      replaceEach_viewTys projected h rfl elems]
  | never => rw [Ty.project, Ty.view, replace_node projected a (by simp), replaceEach]
  | implTrait bounds | dynTrait bounds =>
    rw [Ty.project, Ty.view, Ty.view, replace_node projected a (by simp),
      replaceEach_viewBounds projected h bounds]
  | fnPtr lifetimes isUnsafe abi inputs output =>
    rw [Ty.project, Ty.view, Ty.view, replace_node projected a (by simp), replaceEach_append,
      replaceEach_viewFnArgs projected h inputs, replaceEach_viewOutput projected h output]

theorem replaceEach_viewTys (projected : List String) {a : Address} (h : a.isRoot = true)
    {role : Role} (hrole : role.leadsToRoots = true) (tys : List Ty) :
    replaceEach (shadow? projected) a (viewTys role tys) =
      viewTys role (projectTys projected tys) := by
  match tys with
  | [] => rw [projectTys, viewTys, replaceEach]
  | ty :: tys =>
    rw [projectTys, viewTys, viewTys, replaceEach,
      Ty.replace_view projected (isRoot_append h hrole) ty,
      replaceEach_viewTys projected h hrole tys]

theorem replaceEach_viewOutput (projected : List String) {a : Address} (h : a.isRoot = true)
    (output : Option Ty) :
    replaceEach (shadow? projected) a (viewOutput output) =
      viewOutput (projectOutput projected output) := by
  match output with
  | none => rw [projectOutput, viewOutput, replaceEach]
  | some ty =>
    rw [projectOutput, viewOutput, viewOutput, replaceEach, replaceEach,
      Ty.replace_view projected (isRoot_append h rfl) ty]

theorem replaceEach_viewFnArgs (projected : List String) {a : Address} (h : a.isRoot = true)
    (args : List FnArg) :
    replaceEach (shadow? projected) a (viewFnArgs args) =
      viewFnArgs (projectFnArgs projected args) := by
  match args with
  | [] => rw [projectFnArgs, viewFnArgs, replaceEach]
  | ⟨name, ty⟩ :: args =>
    rw [projectFnArgs, viewFnArgs, viewFnArgs, replaceEach, replace_node projected _ (by simp),
      replaceEach, replaceEach,
      Ty.replace_view projected (isRoot_append (isRoot_append h rfl) rfl) ty,
      replaceEach_viewFnArgs projected h args]

theorem replaceEach_viewSegments (projected : List String) {a : Address} (h : a.isRoot = true)
    (segments : List Segment) :
    replaceEach (shadow? projected) a (viewSegments segments) =
      viewSegments (projectSegments projected segments) := by
  match segments with
  | [] => rw [projectSegments, viewSegments, replaceEach]
  | ⟨ident, args⟩ :: segments =>
    rw [projectSegments, viewSegments, viewSegments, replaceEach,
      replace_node projected _ (by simp),
      replaceEach_viewArgs projected (isRoot_append h rfl) args,
      replaceEach_viewSegments projected h segments]

theorem replaceEach_viewArgs (projected : List String) {a : Address} (h : a.isRoot = true)
    (args : Option PathArgs) :
    replaceEach (shadow? projected) a (viewArgs args) = viewArgs (projectArgs projected args) := by
  match args with
  | none => rw [projectArgs, viewArgs, replaceEach]
  | some args =>
    rw [projectArgs, viewArgs, viewArgs, replaceEach, replaceEach,
      PathArgs.replace_view projected (isRoot_append h rfl) args]

/-- Arguments: their types are root positions, and so are those in their parts. -/
theorem PathArgs.replace_view (projected : List String) {a : Address} (h : a.isRoot = true)
    (args : PathArgs) :
    args.view.replace (shadow? projected) a = (args.project projected).view := by
  cases args with
  | angle args turbofish =>
    rw [PathArgs.project, PathArgs.view, PathArgs.view, replace_node projected a (by simp),
      replaceEach_viewGenericArgs projected h args]
  | paren inputs output =>
    rw [PathArgs.project, PathArgs.view, PathArgs.view, replace_node projected a (by simp),
      replaceEach_append, replaceEach_viewTys projected h rfl inputs,
      replaceEach_viewOutput projected h output]

theorem replaceEach_viewGenericArgs (projected : List String) {a : Address} (h : a.isRoot = true)
    (args : List GenericArg) :
    replaceEach (shadow? projected) a (viewGenericArgs args) =
      viewGenericArgs (projectGenericArgs projected args) := by
  match args with
  | [] => rw [projectGenericArgs, viewGenericArgs, replaceEach]
  | arg :: args =>
    rw [projectGenericArgs, viewGenericArgs, viewGenericArgs, replaceEach,
      GenericArg.replace_view projected (isRoot_append h rfl) arg,
      replaceEach_viewGenericArgs projected h args]

/-- An argument of a path, by its form. -/
theorem GenericArg.replace_view (projected : List String) {a : Address} (h : a.isRoot = true)
    (arg : GenericArg) :
    arg.view.replace (shadow? projected) a = (arg.project projected).view := by
  cases arg with
  | ty ty | binding ident ty =>
    rw [GenericArg.project, GenericArg.view, GenericArg.view, replace_node projected a (by simp),
      replaceEach, replaceEach, Ty.replace_view projected (isRoot_append h rfl) ty]
  | lifetime lifetime | const text =>
    rw [GenericArg.project, GenericArg.view, replace_node projected a (by simp), replaceEach]
  | constraint ident bounds =>
    rw [GenericArg.project, GenericArg.view, GenericArg.view, replace_node projected a (by simp),
      replaceEach_viewBounds projected h bounds]

/-- A bound holds root positions only in the arguments of its path. -/
theorem Bound.replace_view (projected : List String) {a : Address} (h : a.isRoot = true)
    (bound : Bound) :
    bound.view.replace (shadow? projected) a = (bound.project projected).view := by
  match bound with
  | .trait ⟨segments, rooted⟩ maybe lifetimes =>
    rw [Bound.project, Bound.view, Bound.view, replace_node projected a (by simp), replaceEach,
      replaceEach, Path.view, Path.view, replace_node projected _ (by simp),
      replaceEach_viewSegments projected (isRoot_append h rfl) segments]
  | .lifetime lifetime =>
    rw [Bound.project, Bound.view, replace_node projected a (by simp), replaceEach]

theorem replaceEach_viewBounds (projected : List String) {a : Address} (h : a.isRoot = true)
    (bounds : List Bound) :
    replaceEach (shadow? projected) a (viewBounds bounds) =
      viewBounds (projectBounds projected bounds) := by
  match bounds with
  | [] => rw [projectBounds, viewBounds, replaceEach]
  | bound :: bounds =>
    rw [projectBounds, viewBounds, viewBounds, replaceEach,
      Bound.replace_view projected (isRoot_append h rfl) bound,
      replaceEach_viewBounds projected h bounds]

end

/-! ## The view shows everything -/

/-- A list of parts in one role and a list of parts in other roles are told apart. -/
theorem append_inj_of_role {role : Role} {xs xs' ys ys' : List Child}
    (hxs : ∀ c ∈ xs, c.role = role) (hxs' : ∀ c ∈ xs', c.role = role)
    (hys : ∀ c ∈ ys, c.role ≠ role) (hys' : ∀ c ∈ ys', c.role ≠ role)
    (h : xs ++ ys = xs' ++ ys') : xs = xs' ∧ ys = ys' := by
  have key : ∀ {us vs : List Child}, (∀ c ∈ us, c.role = role) → (∀ c ∈ vs, c.role ≠ role) →
      (us ++ vs).filter (·.role = role) = us := by
    intro us vs hus hvs
    rw [List.filter_append, List.filter_eq_self.mpr (by simpa using hus),
      List.filter_eq_nil_iff.mpr (by simpa using hvs), List.append_nil]
  have hx : xs = xs' := by rw [← key hxs hys, h, key hxs' hys']
  subst hx
  exact ⟨rfl, List.append_cancel_left h⟩

/-- The roles tell the parts of a node apart where two lists of them stand one behind the other. -/
theorem role_of_mem_viewTys {role : Role} {tys : List Ty} :
    ∀ c ∈ viewTys role tys, c.role = role := by
  induction tys with
  | nil => simp [viewTys]
  | cons ty tys ih => simpa [viewTys] using ih

theorem role_of_mem_viewFnArgs {args : List FnArg} : ∀ c ∈ viewFnArgs args, c.role = .input := by
  induction args with
  | nil => simp [viewFnArgs]
  | cons arg args ih =>
    obtain ⟨name, ty⟩ := arg
    simpa [viewFnArgs] using ih

theorem role_of_mem_viewOutput {output : Option Ty} : ∀ c ∈ viewOutput output, c.role ≠ .input := by
  cases output <;> simp [viewOutput]

mutual

/-- The view forgets nothing: types with the same view are equal. The other kinds of nodes follow
along. -/
theorem Ty.view_inj (t u : Ty) (h : t.view = u.view) : t = u := by
  cases t with
  | path p =>
    cases u <;> simp only [Ty.view, node.injEq, reduceCtorEq, false_and] at h
    simp only [List.cons.injEq, Child.mk.injEq, true_and, and_true] at h
    rw [Path.view_inj p _ h]
  | qualified self asTrait p =>
    cases u <;> simp only [Ty.view, node.injEq, reduceCtorEq, false_and] at h
    simp only [List.cons_append, List.cons.injEq, Child.mk.injEq, true_and] at h
    obtain ⟨hself, hrest⟩ := h
    -- The path is the last child, so the trait is what stands before it.
    obtain ⟨has, hp⟩ := List.append_inj' hrest rfl
    simp only [List.cons.injEq, Child.mk.injEq, true_and, and_true] at hp
    rw [Ty.view_inj self _ hself, viewAsTrait_inj asTrait _ has, Path.view_inj p _ hp]
  | ref lifetime mutable elem =>
    cases u <;> simp only [Ty.view, node.injEq, reduceCtorEq, false_and] at h
    simp only [Label.refTy.injEq, List.cons.injEq, Child.mk.injEq, true_and, and_true] at h
    rw [h.1.1, h.1.2, Ty.view_inj elem _ h.2]
  | ptr mutable elem =>
    cases u <;> simp only [Ty.view, node.injEq, reduceCtorEq, false_and] at h
    simp only [Label.ptrTy.injEq, List.cons.injEq, Child.mk.injEq, true_and, and_true] at h
    rw [h.1, Ty.view_inj elem _ h.2]
  | array elem length =>
    cases u <;> simp only [Ty.view, node.injEq, reduceCtorEq, false_and] at h
    simp only [Label.arrayTy.injEq, List.cons.injEq, Child.mk.injEq, true_and, and_true] at h
    rw [h.1, Ty.view_inj elem _ h.2]
  | paren elem | slice elem =>
    cases u <;> simp only [Ty.view, node.injEq, reduceCtorEq, false_and] at h
    simp only [List.cons.injEq, Child.mk.injEq, true_and, and_true] at h
    rw [Ty.view_inj elem _ h]
  | tuple elems =>
    cases u <;> simp only [Ty.view, node.injEq, reduceCtorEq, false_and] at h
    rw [viewTys_inj .member elems _ h.2]
  | never =>
    cases u <;> simp only [Ty.view, node.injEq, reduceCtorEq, false_and] at h
    rfl
  | implTrait bounds | dynTrait bounds =>
    cases u <;> simp only [Ty.view, node.injEq, reduceCtorEq, false_and] at h
    rw [viewBounds_inj bounds _ h.2]
  | fnPtr lifetimes isUnsafe abi inputs output =>
    cases u <;> simp only [Ty.view, node.injEq, reduceCtorEq, false_and] at h
    simp only [Label.fnPtrTy.injEq] at h
    obtain ⟨hin, hout⟩ := append_inj_of_role role_of_mem_viewFnArgs role_of_mem_viewFnArgs
      role_of_mem_viewOutput role_of_mem_viewOutput h.2
    rw [h.1.1, h.1.2.1, h.1.2.2, viewFnArgs_inj inputs _ hin, viewOutput_inj output _ hout]
termination_by sizeOf t

theorem viewTys_inj (role : Role) (ts us : List Ty) (h : viewTys role ts = viewTys role us) :
    ts = us := by
  match ts, us with
  | [], [] => rfl
  | [], _ :: _ | _ :: _, [] => simp [viewTys] at h
  | t :: ts, u :: us =>
    simp only [viewTys, List.cons.injEq, Child.mk.injEq, true_and] at h
    rw [Ty.view_inj t u h.1, viewTys_inj role ts us h.2]
termination_by sizeOf ts

theorem viewOutput_inj (o q : Option Ty) (h : viewOutput o = viewOutput q) : o = q := by
  match o, q with
  | none, none => rfl
  | none, some _ | some _, none => simp [viewOutput] at h
  | some t, some u =>
    simp only [viewOutput, List.cons.injEq, Child.mk.injEq, true_and, and_true] at h
    rw [Ty.view_inj t u h]
termination_by sizeOf o

theorem viewAsTrait_inj (o q : Option Path) (h : viewAsTrait o = viewAsTrait q) : o = q := by
  match o, q with
  | none, none => rfl
  | none, some _ | some _, none => simp [viewAsTrait] at h
  | some p, some r =>
    simp only [viewAsTrait, List.cons.injEq, Child.mk.injEq, true_and, and_true] at h
    rw [Path.view_inj p r h]
termination_by sizeOf o

theorem viewFnArgs_inj (as bs : List FnArg) (h : viewFnArgs as = viewFnArgs bs) : as = bs := by
  match as, bs with
  | [], [] => rfl
  | [], ⟨_, _⟩ :: _ | ⟨_, _⟩ :: _, [] => simp [viewFnArgs] at h
  | ⟨name, ty⟩ :: as, ⟨name', ty'⟩ :: bs =>
    simp only [viewFnArgs, List.cons.injEq, Child.mk.injEq, true_and, and_true, node.injEq,
      Label.fnArg.injEq] at h
    rw [h.1.1, Ty.view_inj ty ty' h.1.2, viewFnArgs_inj as bs h.2]
termination_by sizeOf as

theorem Path.view_inj (p q : Path) (h : p.view = q.view) : p = q := by
  match p, q with
  | ⟨segments, rooted⟩, ⟨segments', rooted'⟩ =>
    simp only [Path.view, node.injEq, Label.path.injEq] at h
    rw [h.1, viewSegments_inj segments segments' h.2]
termination_by sizeOf p

theorem viewSegments_inj (ss rs : List Segment) (h : viewSegments ss = viewSegments rs) :
    ss = rs := by
  match ss, rs with
  | [], [] => rfl
  | [], ⟨_, _⟩ :: _ | ⟨_, _⟩ :: _, [] => simp [viewSegments] at h
  | ⟨ident, args⟩ :: ss, ⟨ident', args'⟩ :: rs =>
    simp only [viewSegments, List.cons.injEq, Child.mk.injEq, true_and, node.injEq,
      Label.segment.injEq] at h
    rw [h.1.1, viewArgs_inj args args' h.1.2, viewSegments_inj ss rs h.2]
termination_by sizeOf ss

theorem viewArgs_inj (o q : Option PathArgs) (h : viewArgs o = viewArgs q) : o = q := by
  match o, q with
  | none, none => rfl
  | none, some _ | some _, none => simp [viewArgs] at h
  | some p, some r =>
    simp only [viewArgs, List.cons.injEq, Child.mk.injEq, true_and, and_true] at h
    rw [PathArgs.view_inj p r h]
termination_by sizeOf o

theorem PathArgs.view_inj (p q : PathArgs) (h : p.view = q.view) : p = q := by
  match p, q with
  | .angle args turbofish, .angle args' turbofish' =>
    simp only [PathArgs.view, node.injEq, Label.angleArgs.injEq] at h
    rw [h.1, viewGenericArgs_inj args args' h.2]
  | .angle _ _, .paren _ _ | .paren _ _, .angle _ _ => simp [PathArgs.view] at h
  | .paren inputs output, .paren inputs' output' =>
    simp only [PathArgs.view, node.injEq, true_and] at h
    obtain ⟨hin, hout⟩ := append_inj_of_role role_of_mem_viewTys role_of_mem_viewTys
      role_of_mem_viewOutput role_of_mem_viewOutput h
    rw [viewTys_inj .input inputs inputs' hin, viewOutput_inj output output' hout]
termination_by sizeOf p

theorem viewGenericArgs_inj (as bs : List GenericArg)
    (h : viewGenericArgs as = viewGenericArgs bs) : as = bs := by
  match as, bs with
  | [], [] => rfl
  | [], _ :: _ | _ :: _, [] => simp [viewGenericArgs] at h
  | a :: as, b :: bs =>
    simp only [viewGenericArgs, List.cons.injEq, Child.mk.injEq, true_and] at h
    rw [GenericArg.view_inj a b h.1, viewGenericArgs_inj as bs h.2]
termination_by sizeOf as

theorem GenericArg.view_inj (a b : GenericArg) (h : a.view = b.view) : a = b := by
  cases a with
  | ty t =>
    cases b <;> simp only [GenericArg.view, node.injEq, reduceCtorEq, false_and] at h
    simp only [List.cons.injEq, Child.mk.injEq, true_and, and_true] at h
    rw [Ty.view_inj t _ h]
  | lifetime lifetime =>
    cases b <;> simp only [GenericArg.view, node.injEq, reduceCtorEq, false_and] at h
    simp only [Label.lifetimeArg.injEq, and_true] at h
    rw [h]
  | binding ident t =>
    cases b <;> simp only [GenericArg.view, node.injEq, reduceCtorEq, false_and] at h
    simp only [Label.binding.injEq, List.cons.injEq, Child.mk.injEq, true_and, and_true] at h
    rw [h.1, Ty.view_inj t _ h.2]
  | constraint ident bounds =>
    cases b <;> simp only [GenericArg.view, node.injEq, reduceCtorEq, false_and] at h
    simp only [Label.constraint.injEq] at h
    rw [h.1, viewBounds_inj bounds _ h.2]
  | const text =>
    cases b <;> simp only [GenericArg.view, node.injEq, reduceCtorEq, false_and] at h
    simp only [Label.constArg.injEq, and_true] at h
    rw [h]
termination_by sizeOf a

theorem Bound.view_inj (a b : Bound) (h : a.view = b.view) : a = b := by
  match a, b with
  | .trait path maybe lifetimes, .trait path' maybe' lifetimes' =>
    simp only [Bound.view, node.injEq, Label.traitBound.injEq, List.cons.injEq, Child.mk.injEq,
      true_and, and_true] at h
    rw [h.1.1, h.1.2, Path.view_inj path path' h.2]
  | .trait _ _ _, .lifetime _ | .lifetime _, .trait _ _ _ => simp [Bound.view] at h
  | .lifetime l, .lifetime l' =>
    simp only [Bound.view, node.injEq, Label.lifetimeBound.injEq, and_true] at h
    rw [h]
termination_by sizeOf a

theorem viewBounds_inj (bs cs : List Bound) (h : viewBounds bs = viewBounds cs) : bs = cs := by
  match bs, cs with
  | [], [] => rfl
  | [], _ :: _ | _ :: _, [] => simp [viewBounds] at h
  | b :: bs, c :: cs =>
    simp only [viewBounds, List.cons.injEq, Child.mk.injEq, true_and] at h
    rw [Bound.view_inj b c h.1, viewBounds_inj bs cs h.2]
termination_by sizeOf bs

end

/-- Predicates that look alike are equal. -/
theorem Predicate.view_inj {p q : Predicate} (h : p.view = q.view) : p = q := by
  match p, q with
  | .type subject bounds lifetimes, .type subject' bounds' lifetimes' =>
    simp only [Predicate.view, node.injEq, Label.tyPredicate.injEq, List.cons.injEq,
      Child.mk.injEq, true_and] at h
    rw [h.1, Ty.view_inj subject subject' h.2.1, viewBounds_inj bounds bounds' h.2.2]
  | .type _ _ _, .lifetime _ _ | .lifetime _ _, .type _ _ _ => simp [Predicate.view] at h
  | .lifetime l bounds, .lifetime l' bounds' =>
    simp only [Predicate.view, node.injEq, Label.lifetimePredicate.injEq, and_true] at h
    rw [h.1, h.2]

/-! ## Projection replaces the root positions -/

/-- Replacing the projected names in root position of the view is projecting the predicate. -/
theorem Predicate.projectRoots_view (projected : List String) (p : Predicate) :
    p.view.projectRoots projected = (p.project projected).view := by
  have hroot : Address.isRoot ([] ++ [Role.subject]) = true := rfl
  cases p with
  | type subject bounds lifetimes =>
    rw [Predicate.view, projectRoots, replace_node projected [] (by simp), replaceEach,
      Ty.replace_view projected hroot subject, replaceEach_viewBounds projected rfl bounds]
    rfl
  | lifetime l bounds =>
    rw [Predicate.view, projectRoots, replace_node projected [] (by simp), replaceEach]
    rfl

/-- Projecting a predicate changes exactly its root positions: a predicate is the projection of `p`
if and only if it differs from `p` in having `T::Shadowed` at every root position that holds a
projected name `T`, and in nothing else. -/
theorem Predicate.project_eq_iff_view (projected : List String) (p q : Predicate) :
    p.project projected = q ↔ q.view = p.view.projectRoots projected := by
  rw [Predicate.projectRoots_view]
  constructor
  · rintro rfl
    rfl
  · intro h
    exact (Predicate.view_inj h).symm

end ShadowImpl
