import ShadowImpl.Syntax.Types

/-!
# Generic parameters and where clauses
-/

namespace ShadowImpl

/-- A predicate of a where clause. -/
inductive Predicate where
  /-- `for<'a> T: Trait<'a> + 'b` -/
  | type (subject : Ty) (bounds : List Bound) (lifetimes : List Lifetime)
  | lifetime (lifetime : Lifetime) (bounds : List Lifetime)
deriving BEq, Repr

/-- A generic parameter. -/
inductive GenericParam where
  | type (ident : String) (bounds : List Bound) (default : Option Ty)
  | lifetime (lifetime : Lifetime) (bounds : List Lifetime)
  | const (ident : String) (ty : Ty) (default : Option GenericArg)
deriving BEq, Repr

/-- A parameter list and a where clause. No where clause and an empty one are told apart. -/
structure Generics where
  params : List GenericParam := []
  clause : Option (List Predicate) := none
deriving BEq, Repr

namespace Generics

/-- The predicates of the where clause, none if there is no clause. -/
def predicates (g : Generics) : List Predicate :=
  g.clause.getD []

/-- The names of the type parameters. -/
def typeParams (g : Generics) : List String :=
  g.params.filterMap fun
    | .type ident _ _ => some ident
    | _ => none

end Generics
end ShadowImpl
