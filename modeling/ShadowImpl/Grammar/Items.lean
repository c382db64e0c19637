import ShadowImpl.Grammar.Attributes
import ShadowImpl.Grammar.Generics

/-!
# Reading items and impl blocks
-/

namespace ShadowImpl.Grammar

open Reading

/-- The rest of an associated constant or type after its name. -/
def verbatimRest (kind : ItemKind) (attrs : List (Attribute Extent)) (first n : Nat) :
    Reading (Item Extent) := do
  trees [.comma] n
  let _ ← token .semi Expected.afterItem
  return .verbatim ⟨kind, attrs, ← textFrom first, ⟨first, ← mark⟩⟩

/-- The path of a macro call, up to its bang. -/
def macroPath : Nat → Reading Unit
  | 0 => refuse
  | n + 1 => do
    let _ ← token .ident Expected.afterMacroName
    if ← optional .pathSep Expected.name then macroPath n
    else
      let _ ← token .bang Expected.group

/-- A macro call. -/
def macroCall (attrs : List (Attribute Extent)) (n : Nat) : Reading (Item Extent) := do
  let first ← mark
  macroPath n
  group n
  let _ ← optional .semi Expected.afterItem
  return .verbatim ⟨.macroCall, attrs, ← textFrom first, ⟨first, ← mark⟩⟩

/-- The qualifiers of a method. -/
def qualifiers : Nat → Reading Unit
  | 0 => refuse
  | n + 1 => do
    match ← peek with
    | .kwConst | .kwAsync | .kwUnsafe =>
      let _ ← shift Expected.qualifier
      qualifiers n
    | .kwExtern =>
      let _ ← shift (.string :: Expected.qualifier)
      -- The name of the ABI may be left out.
      let _ ← optional .string Expected.qualifier
      qualifiers n
    | _ => return ()

/-- A parameter list in parentheses, as text. -/
def paramText (n : Nat) : Reading String := do
  if (← peek) = .lpar then
    let first ← mark
    group n
    textFrom first
  else refuse

/-- An arrow and a type as text, if they stand next. -/
def returnText (n : Nat) : Reading (Option String) := do
  if (← peek) = .arrow then
    let first ← mark
    let _ ← shift Expected.type
    let _ ← ty n
    return some (← textFrom first)
  else return none

/-- A block or a semicolon, as text. -/
def methodBody (n : Nat) : Reading String := do
  match ← peek with
  | .semi => shift Expected.afterItem
  | .lbrace =>
    let first ← mark
    group n
    textFrom first
  | _ => refuse

/-- A method from its qualifiers on; it began with token number `first`. -/
def method (attrs : List (Attribute Extent)) (first n : Nat) : Reading (Item Extent) := do
  qualifiers n
  let _ ← token .kwFn Expected.name
  let name ← token .ident Expected.afterMethodName
  -- Everything up to the name is kept as it is written.
  let head ← textFrom first
  let params ← params n
  let paramText ← paramText n
  let ret ← returnText n
  let clause ← whereClause n
  let body ← methodBody n
  return .method ⟨name, attrs, head, ⟨params, clause⟩, paramText, ret, body, ⟨first, ← mark⟩⟩

/-- A constant, or a method that starts with `const`. -/
def constOrMethod (attrs : List (Attribute Extent)) (first n : Nat) : Reading (Item Extent) := do
  let _ ← token .kwConst (.ident :: Expected.qualifier)
  if (← peek) = .ident then
    let _ ← shift Expected.anything
    verbatimRest .const attrs first n
  else method attrs first n

/-- An item after its visibility; it began with token number `first`. -/
def member (attrs : List (Attribute Extent)) (first n : Nat) : Reading (Item Extent) := do
  match ← peek with
  | .kwType =>
    let _ ← shift Expected.name
    let _ ← token .ident Expected.anything
    verbatimRest .type attrs first n
  | .kwConst => constOrMethod attrs first n
  | _ => method attrs first n

/-- One item, after its attributes. -/
def item (attrs : List (Attribute Extent)) (n : Nat) : Reading (Item Extent) := do
  match ← peek with
  | .ident => macroCall attrs n
  | .kwPub =>
    let first ← mark
    let _ ← shift Expected.afterPub
    if (← peek) = .lpar then group n
    member attrs first n
  | _ => member attrs (← mark) n

/-- The items up to the end of a body. The attributes of the first one have been read. -/
def items : List (Attribute Extent) → Nat → Reading (List (Item Extent))
  | _, 0 => refuse
  | attrs, n + 1 => do
    if attrs.isEmpty && (← peek) = .rbrace then
      let _ ← shift []
      return []
    else
      let i ← item attrs n
      return i :: (← items (← attributes n) n)

/-- The type after `for`, with its place, if it stands next. -/
def forTy (n : Nat) : Reading (Option (Ty × Extent)) := do
  if ← optional .kwFor Expected.type then
    let first ← mark
    let type ← ty n
    return some (type, ⟨first, ← mark⟩)
  else return none

/-- An impl block. -/
def implBlock (n : Nat) : Reading (ImplBlock Extent) := do
  let first ← mark
  let attrs ← attributes n
  let isUnsafe ← optional .kwUnsafe [.kwImpl]
  let _ ← token .kwImpl Expected.type
  let params ← params n
  let headerFirst ← mark
  let header ← bareTy n
  let headerText ← textFrom headerFirst
  let headerPlace : Extent := ⟨headerFirst, ← mark⟩
  let self ← forTy n
  let clause ← whereClause n
  let _ ← token .lbrace Expected.body
  let (innerAttrs, outerAttrs) ← bodyAttributes n
  let items ← items outerAttrs n
  let text ← textFrom first
  let place : Extent := ⟨first, ← mark⟩
  -- A type after `for` makes the one before it the trait, which is kept as text.
  match self with
  | none =>
    return ⟨attrs, isUnsafe, ⟨params, clause⟩, none, header, headerPlace, innerAttrs, items, text,
      place⟩
  | some (selfTy, selfPlace) =>
    return ⟨attrs, isUnsafe, ⟨params, clause⟩, some headerText, selfTy, selfPlace, innerAttrs,
      items, text, place⟩

end ShadowImpl.Grammar
