import ShadowImpl.Grammar.Trees
import ShadowImpl.Syntax.Types
import ShadowImpl.Text.Blank

/-!
# Reading types

Each reading takes a number that bounds how deep it may go; every one of them takes a token before
it comes back to itself, so a number that grows with the text is never used up. A `+` and a `::` are
always taken by the innermost bound list and path that can have them.
-/

namespace ShadowImpl.Grammar

open Reading

/-- A binder `for<'a, 'b>`. -/
def binder (n : Nat) : Reading (List Lifetime) := do
  let _ ← token .kwFor [.lt]
  let _ ← token .lt Expected.binderItem
  commaList .gt Expected.binderItem Expected.afterBinder
    (do return ⟨← token .lifetime Expected.afterArg⟩) n

/-- A literal, a negated number or a block, kept as text. -/
def constText (n : Nat) : Reading String := do
  let first ← mark
  match ← peek with
  | .number | .char | .string =>
    let _ ← shift Expected.afterArg
    textFrom first
  | .minus =>
    let _ ← shift [.number]
    let _ ← token .number Expected.afterArg
    textFrom first
  | .lbrace =>
    group n
    textFrom first
  | _ => refuse

mutual

/-- Any type. -/
def ty : Nat → Reading Ty
  | 0 => refuse
  | n + 1 => do
    if (← peek) = .lt then qualifiedTy n else bareTy n

/-- A type without a qualified self. -/
def bareTy : Nat → Reading Ty
  | 0 => refuse
  | n + 1 => do
    match ← peek with
    | .kwFor =>
      let lifetimes ← binder n
      fnPtr lifetimes n
    | .kwUnsafe | .kwExtern | .kwFn => fnPtr [] n
    | _ => plainTy n

/-- A type that is neither a function pointer nor has a qualified self. -/
def plainTy : Nat → Reading Ty
  | 0 => refuse
  | n + 1 => do
    match ← peek with
    | .ident | .pathSep => return .path (← path n)
    | .amp => refTy n
    | .star => ptrTy n
    | .lpar => parenTy n
    | .lsqb => bracketTy n
    | .bang =>
      let _ ← shift Expected.afterType
      return .never
    | .kwImpl =>
      let _ ← shift Expected.bound
      return .implTrait (← bounds n)
    | .kwDyn =>
      let _ ← shift Expected.bound
      return .dynTrait (← bounds n)
    | _ => refuse

/-- `<T as Trait>::Out` -/
def qualifiedTy : Nat → Reading Ty
  | 0 => refuse
  | n + 1 => do
    let _ ← token .lt Expected.type
    let self ← ty n
    let asTrait ← asPath n
    let _ ← token .gt [.pathSep]
    let _ ← token .pathSep Expected.name
    return .qualified self asTrait ⟨← segments n, false⟩

/-- The trait after `as`, if there is one. -/
def asPath : Nat → Reading (Option Path)
  | 0 => refuse
  | n + 1 => do
    if ← optional .kwAs Expected.path then return some (← path n) else return none

/-- `&'a mut T` -/
def refTy : Nat → Reading Ty
  | 0 => refuse
  | n + 1 => do
    let _ ← token .amp Expected.referent
    if (← peek) = .lifetime then
      let lifetime ← shift Expected.mutOrType
      let mutable ← optional .kwMut Expected.type
      return .ref (some ⟨lifetime⟩) mutable (← ty n)
    else
      let mutable ← optional .kwMut Expected.type
      return .ref none mutable (← ty n)

/-- `*const T` or `*mut T` -/
def ptrTy : Nat → Reading Ty
  | 0 => refuse
  | n + 1 => do
    let _ ← token .star Expected.pointerKind
    if ← optional .kwMut Expected.type then return .ptr true (← ty n)
    let _ ← token .kwConst Expected.type
    return .ptr false (← ty n)

/-- The unit type, a type in parentheses or a tuple. -/
def parenTy : Nat → Reading Ty
  | 0 => refuse
  | n + 1 => do
    let _ ← token .lpar Expected.typeOrClose
    if ← optional .rpar Expected.afterType then return .tuple []
    -- Whether this is a tuple shows behind the first type.
    let head ← ty n
    if ← optional .comma Expected.typeOrClose then return .tuple (head :: (← types n))
    let _ ← token .rpar Expected.afterType
    return .paren head

/-- Types up to a closing parenthesis. -/
def types : Nat → Reading (List Ty)
  | 0 => refuse
  | n + 1 => commaList .rpar Expected.typeOrClose Expected.afterType (ty n) n

/-- A slice or an array. -/
def bracketTy : Nat → Reading Ty
  | 0 => refuse
  | n + 1 => do
    let _ ← token .lsqb Expected.type
    let elem ← ty n
    if ← optional .rsqb Expected.afterType then return .slice elem
    let _ ← token .semi Expected.anything
    -- The length is kept as it is written.
    let first ← mark
    someTrees [.comma, .semi] n
    let length ← textFrom first
    let _ ← token .rsqb Expected.afterType
    return .array elem (String.ofList (Text.trim length.toList))

/-- `unsafe extern "C" fn(A) -> B`, after its binder. -/
def fnPtr (lifetimes : List Lifetime) : Nat → Reading Ty
  | 0 => refuse
  | n + 1 => do
    let isUnsafe ← optional .kwUnsafe [.kwExtern, .kwFn]
    let abi ← fnAbi
    let _ ← token .kwFn [.lpar]
    let _ ← token .lpar Expected.typeOrClose
    let inputs ← commaList .rpar Expected.typeOrClose Expected.afterType (fnArg n) n
    return .fnPtr lifetimes isUnsafe abi inputs (← returnTy n)
where
  /-- `extern` and the name of the ABI. -/
  fnAbi : Reading (Option String) := do
    if ← optional .kwExtern [.kwFn, .string] then
      if (← peek) = .string then return some (← shift [.kwFn]) else return some ""
    else return none

/-- A parameter of a function pointer. -/
def fnArg : Nat → Reading FnArg
  | 0 => refuse
  | n + 1 => do
    if (← peek) = .ident then
      -- The name is a label if a colon follows, and the start of a path if not.
      let name ← shift Expected.afterLabel
      if ← optional .colon Expected.type then return ⟨some name, ← ty n⟩
      else return ⟨none, .path ⟨← segmentsFrom name n, false⟩⟩
    else return ⟨none, ← ty n⟩

/-- The type after an arrow, if there is one. -/
def returnTy : Nat → Reading (Option Ty)
  | 0 => refuse
  | n + 1 => do
    if ← optional .arrow Expected.type then return some (← ty n) else return none

/-- A path. -/
def path : Nat → Reading Path
  | 0 => refuse
  | n + 1 => do
    let rooted ← optional .pathSep Expected.name
    return ⟨← segments n, rooted⟩

/-- The segments of a path. -/
def segments : Nat → Reading (List Segment)
  | 0 => refuse
  | n + 1 => do
    let name ← token .ident Expected.afterType
    segmentsFrom name n

/-- The segments of a path whose first name has been taken. -/
def segmentsFrom (name : String) : Nat → Reading (List Segment)
  | 0 => refuse
  | n + 1 => do
    let args ← segmentArgs n
    moreSegments ⟨name, args⟩ n

/-- What follows the segment `last`. A turbofish replaces the arguments of that segment. -/
def moreSegments (last : Segment) : Nat → Reading (List Segment)
  | 0 => refuse
  | n + 1 => do
    if ← optional .pathSep Expected.pathPiece then
      if (← peek) = .lt then
        -- Arguments that stood right after the name are lost here.
        let args ← angleArgs n
        moreSegments ⟨last.ident, some (.angle args true)⟩ n
      else
        return last :: (← segments n)
    else return [last]

/-- The arguments right after a name. -/
def segmentArgs : Nat → Reading (Option PathArgs)
  | 0 => refuse
  | n + 1 => do
    match ← peek with
    | .lt => return some (.angle (← angleArgs n) false)
    | .lpar =>
      let _ ← shift Expected.typeOrClose
      let inputs ← types n
      return some (.paren inputs (← returnTy n))
    | _ => return none

/-- Generic arguments in angle brackets. -/
def angleArgs : Nat → Reading (List GenericArg)
  | 0 => refuse
  | n + 1 => do
    let _ ← token .lt Expected.genericArg
    commaList .gt Expected.genericArg Expected.afterType (genericArg n) n

/-- One generic argument. -/
def genericArg : Nat → Reading GenericArg
  | 0 => refuse
  | n + 1 => do
    match ← peek with
    | .lifetime => return .lifetime ⟨← shift Expected.afterArg⟩
    | .ident =>
      -- What the name stands for shows in the token after it.
      let name ← shift Expected.afterLabel
      match ← peek with
      | .eq =>
        let _ ← shift Expected.type
        return .binding name (← ty n)
      | .colon =>
        let _ ← shift Expected.bound
        return .constraint name (← bounds n)
      | _ => return .ty (.path ⟨← segmentsFrom name n, false⟩)
    | .number | .char | .string | .minus | .lbrace => return .const (← constText n)
    | _ => return .ty (← ty n)

/-- Bounds, at least one. -/
def bounds : Nat → Reading (List Bound)
  | 0 => refuse
  | n + 1 => plusList Expected.bound (bound n) n

/-- One bound. -/
def bound : Nat → Reading Bound
  | 0 => refuse
  | n + 1 => do
    match ← peek with
    | .lifetime => return .lifetime ⟨← shift Expected.afterType⟩
    | .qmark =>
      let _ ← shift Expected.relaxed
      traitBound true n
    | _ => traitBound false n

/-- A trait under its binder. -/
def traitBound (maybe : Bool) : Nat → Reading Bound
  | 0 => refuse
  | n + 1 => do
    if (← peek) = .kwFor then
      let lifetimes ← binder n
      return .trait (← path n) maybe lifetimes
    else return .trait (← path n) maybe []

end

end ShadowImpl.Grammar
