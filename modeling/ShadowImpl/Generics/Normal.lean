import ShadowImpl.Syntax.Generics

/-!
# Normal generics

In normal generics no type or lifetime parameter has bounds of its own: all of them are predicates
of the where clause.
-/

namespace ShadowImpl

namespace GenericParam

/-- The bounds of a parameter as a predicate, if it has any. -/
def inlinePredicate? : GenericParam → Option Predicate
  | type ident bounds _ => if bounds.isEmpty then none else some (.type (.ofIdent ident) bounds [])
  | lifetime l bounds => if bounds.isEmpty then none else some (.lifetime l bounds)
  | const _ _ _ => none

/-- The parameter without its bounds. -/
def withoutBounds : GenericParam → GenericParam
  | type ident _ default => type ident [] default
  | lifetime l _ => lifetime l []
  | const ident ty default => const ident ty default

end GenericParam

namespace Generics

/-- The predicates that stand for the bounds of the parameters, in parameter order. -/
def inlinePredicates (g : Generics) : List Predicate :=
  g.params.filterMap GenericParam.inlinePredicate?

/-- Whether no parameter has bounds. -/
def isNormal (g : Generics) : Bool :=
  g.inlinePredicates.isEmpty

/-- Moves the bounds of the parameters to the end of the where clause. -/
def normalize (g : Generics) : Generics :=
  if g.isNormal then g
  else ⟨g.params.map GenericParam.withoutBounds, some (g.predicates ++ g.inlinePredicates)⟩

end Generics
end ShadowImpl
