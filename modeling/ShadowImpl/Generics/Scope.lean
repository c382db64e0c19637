import ShadowImpl.Directive
import ShadowImpl.Generics.Normal
import ShadowImpl.Syntax.Record

/-!
# The generics of a scope

A scope is a block or a method with a directive of its own. Its generics are made normal, projected
and given the predicates that the directive adds.
-/

namespace ShadowImpl.Generics

/-- Whether projecting leaves the generics as they are without looking at a predicate. -/
def keepsUnder (g : Generics) (d : Directive) : Bool :=
  g.clause.isNone || d.projected.isEmpty

/-- Projects the predicates of the where clause. -/
def project (g : Generics) (d : Directive) : Generics :=
  if g.keepsUnder d then g
  else { g with clause := some (g.predicates.map (Predicate.project d.projected)) }

/-- Projects the predicates of the where clause, each from its record. -/
def projectChecked (g : Generics) (d : Directive) : Except Abort Generics := do
  if g.keepsUnder d then return g
  let predicates ← g.predicates.mapM (Predicate.projectChecked d.projected)
  return { g with clause := some predicates }

/-- Adds what the directive adds. A where clause without predicates is dropped. -/
def augment (g : Generics) (d : Directive) : Generics :=
  let predicates := g.predicates ++ d.additions
  { g with clause := if predicates.isEmpty then none else some predicates }

/-- The generics of a scope under its directive. -/
def expand (g : Generics) (d : Directive) : Generics :=
  (g.normalize.project d).augment d

end ShadowImpl.Generics
