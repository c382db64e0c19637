import ShadowImpl.Grammar.Types
import ShadowImpl.Syntax.Generics

/-!
# Reading generic parameters and where clauses
-/

namespace ShadowImpl.Grammar

open Reading

/-- Bounds, or none if no bound stands next. -/
def boundsOrNone (n : Nat) : Reading (List Bound) := do
  if Expected.bound.contains (← peek) then bounds n else return []

/-- Lifetimes with plus signs between them, or none. -/
def lifetimesOrNone (n : Nat) : Reading (List Lifetime) := do
  if (← peek) = .lifetime then
    plusList [.lifetime] (do return ⟨← token .lifetime Expected.afterLifetime⟩) n
  else return []

/-- `T: Clone = u8` -/
def typeParam (n : Nat) : Reading GenericParam := do
  let name ← token .ident Expected.afterTypeParam
  let bounds ← if ← optional .colon Expected.paramBound then boundsOrNone n else pure []
  if ← optional .eq Expected.type then
    return .type name bounds (some (← ty n))
  else return .type name bounds none

/-- `'a: 'b + 'c` -/
def lifetimeParam (n : Nat) : Reading GenericParam := do
  let name ← token .lifetime Expected.afterLifetimeParam
  if ← optional .colon Expected.paramLifetime then
    return .lifetime ⟨name⟩ (← lifetimesOrNone n)
  else return .lifetime ⟨name⟩ []

/-- `const N: usize = 3` -/
def constParam (n : Nat) : Reading GenericParam := do
  let _ ← token .kwConst Expected.name
  let name ← token .ident [.colon]
  let _ ← token .colon Expected.type
  let type ← ty n
  if ← optional .eq Expected.constDefault then
    match ← peek with
    | .ident | .pathSep => return .const name type (some (.ty (.path (← path n))))
    | _ => return .const name type (some (.const (← constText n)))
  else return .const name type none

/-- One generic parameter. -/
def param (n : Nat) : Reading GenericParam := do
  match ← peek with
  | .kwConst => constParam n
  | .lifetime => lifetimeParam n
  | _ => typeParam n

/-- A parameter list in angle brackets, empty if none stands next. -/
def params (n : Nat) : Reading (List GenericParam) := do
  if ← optional .lt Expected.param then
    commaList .gt Expected.param Expected.afterParams (param n) n
  else return []

/-- The subject of a predicate, with its binder. A binder in front of a function pointer belongs to
the pointer. -/
def subject (n : Nat) : Reading (Ty × List Lifetime) := do
  if (← peek) = .kwFor then
    let lifetimes ← binder n
    match ← peek with
    | .kwUnsafe | .kwExtern | .kwFn => return (← fnPtr lifetimes n, [])
    | .lt => return (← qualifiedTy n, lifetimes)
    | _ => return (← plainTy n, lifetimes)
  else return (← ty n, [])

/-- One predicate. -/
def predicate (n : Nat) : Reading Predicate := do
  if (← peek) = .lifetime then
    let lifetime ← shift [.colon]
    let _ ← token .colon Expected.predicateLifetime
    return .lifetime ⟨lifetime⟩ (← lifetimesOrNone n)
  else
    let (subject, lifetimes) ← subject n
    let _ ← token .colon Expected.predicateBound
    return .type subject (← boundsOrNone n) lifetimes

/-- Predicates as far as they go. -/
def predicates (afterComma : Expectation) (n : Nat) : Reading (List Predicate) :=
  openList Expected.predicate.contains afterComma (predicate n) n

/-- A where clause, if one stands next. -/
def whereClause (n : Nat) : Reading (Option (List Predicate)) := do
  if ← optional .kwWhere Expected.clausePredicate then
    return some (← predicates Expected.clausePredicate n)
  else return none

end ShadowImpl.Grammar
