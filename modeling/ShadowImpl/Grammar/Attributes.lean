import ShadowImpl.Grammar.Trees
import ShadowImpl.Syntax.Unit
import ShadowImpl.Text.Blank

/-!
# Reading attributes
-/

namespace ShadowImpl

/-- A place in a token sequence: from token number `first` up to token number `last`, which is not
part of it. -/
structure Extent where
  first : Nat
  last : Nat
deriving DecidableEq, Repr

namespace Grammar

open Reading

/-- The names of a path after its first `::`, if it has one. -/
def metaNames : Nat → Reading Unit
  | 0 => refuse
  | n + 1 => do
    match ← peek with
    | .ident | .kwUnsafe =>
      let _ ← shift Expected.afterMetaName
      if ← optional .pathSep Expected.metaName then metaNames n
    | _ => refuse

/-- The path of a meta item, without its blanks. -/
def metaPath (n : Nat) : Reading String := do
  let first ← mark
  let _ ← optional .pathSep Expected.metaName
  metaNames n
  return String.ofList (Text.squeeze (← textFrom first).toList)

/-- The text without its first and its last character. -/
def inside (text : String) : String :=
  String.ofList (text.toList.tail.dropLast)

/-- What follows the path of a meta item. -/
def metaForm (n : Nat) : Reading (MetaForm Extent) := do
  match ← peek with
  | .lpar | .lsqb | .lbrace =>
    let first ← mark
    group n
    return .list (inside (← textFrom first)) ⟨first, ← mark⟩
  | .eq =>
    let _ ← shift Expected.anything
    someTrees [] n
    return .value
  | _ => return .word

/-- One meta item. -/
def metaItem (n : Nat) : Reading (Meta Extent) := do
  let first ← mark
  let path ← metaPath n
  let form ← metaForm n
  return ⟨path, form, ⟨first, ← mark⟩⟩

/-- An attribute from its opening bracket on; it began with token number `first`. -/
def bracketed (style : AttrStyle) (after : Expectation) (first n : Nat) :
    Reading (Attribute Extent) := do
  let _ ← token .lsqb Expected.metaItem
  let content ← metaItem n
  let _ ← token .rsqb after
  return ⟨style, some content, ← textFrom first, ⟨first, ← mark⟩⟩

/-- A documentation comment. -/
def docAttribute (style : AttrStyle) (after : Expectation) : Reading (Attribute Extent) := do
  let first ← mark
  let text ← shift after
  return ⟨style, none, text, ⟨first, ← mark⟩⟩

/-- The attributes in front of a block or of an item. -/
def attributes : Nat → Reading (List (Attribute Extent))
  | 0 => refuse
  | n + 1 => do
    match ← peek with
    | .docComment =>
      let a ← docAttribute .doc Expected.afterAttribute
      return a :: (← attributes n)
    | .hash =>
      let first ← mark
      let _ ← shift [.lsqb]
      let a ← bracketed .outer Expected.afterAttribute first n
      return a :: (← attributes n)
    | _ => return []

/-- The inner attributes at the start of a body, and the attributes of the item after them. -/
def bodyAttributes : Nat → Reading (List (Attribute Extent) × List (Attribute Extent))
  | 0 => refuse
  | n + 1 => do
    match ← peek with
    | .innerDoc =>
      let a ← docAttribute .inner Expected.body
      let (inner, outer) ← bodyAttributes n
      return (a :: inner, outer)
    | .hash =>
      let first ← mark
      let _ ← shift [.bang, .lsqb]
      if ← optional .bang [.lsqb] then
        let a ← bracketed .inner Expected.body first n
        let (inner, outer) ← bodyAttributes n
        return (a :: inner, outer)
      else
        let a ← bracketed .outer Expected.afterAttribute first n
        return ([], a :: (← attributes n))
    | _ => return ([], ← attributes n)

end Grammar
end ShadowImpl
