import ShadowImpl.Syntax.Generics

/-!
# Projection

A projected parameter `T` stands for its shadow `T::Shadowed` in every root position of a predicate.
Root positions are the subject and, from there, the parts of compound types, the self of a qualified
path, and the arguments of the traits in bounds. The arguments of a plain path type are no root
positions, so `Vec<T>` stays as it is.
-/

namespace ShadowImpl

/-- The type `T::Shadowed`. -/
def Ty.shadowed (ident : String) : Ty :=
  .path ⟨[⟨ident, none⟩, ⟨"Shadowed", none⟩], false⟩

mutual

/-- Projects the root positions of a type. -/
def Ty.project (projected : List String) : Ty → Ty
  | .path path =>
    match path.ident? with
    | some ident => if projected.contains ident then .shadowed ident else .path path
    | none => .path path
  | .qualified self asTrait path => .qualified (self.project projected) asTrait path
  | .ref lifetime mutable elem => .ref lifetime mutable (elem.project projected)
  | .ptr mutable elem => .ptr mutable (elem.project projected)
  | .tuple elems => .tuple (projectTys projected elems)
  | .paren elem => .paren (elem.project projected)
  | .slice elem => .slice (elem.project projected)
  | .array elem length => .array (elem.project projected) length
  | .never => .never
  | .implTrait bounds => .implTrait (projectBounds projected bounds)
  | .dynTrait bounds => .dynTrait (projectBounds projected bounds)
  | .fnPtr lifetimes isUnsafe abi inputs output =>
    .fnPtr lifetimes isUnsafe abi (projectFnArgs projected inputs) (projectOutput projected output)

def projectTys (projected : List String) : List Ty → List Ty
  | [] => []
  | ty :: tys => ty.project projected :: projectTys projected tys

def projectOutput (projected : List String) : Option Ty → Option Ty
  | none => none
  | some ty => some (ty.project projected)

def projectFnArgs (projected : List String) : List FnArg → List FnArg
  | [] => []
  | ⟨name, ty⟩ :: args => ⟨name, ty.project projected⟩ :: projectFnArgs projected args

/-- Projects the arguments of a path, as far as they are root positions under a bound. -/
def projectSegments (projected : List String) : List Segment → List Segment
  | [] => []
  | ⟨ident, args⟩ :: segments =>
    ⟨ident, projectArgs projected args⟩ :: projectSegments projected segments

def projectArgs (projected : List String) : Option PathArgs → Option PathArgs
  | none => none
  | some args => some (args.project projected)

def PathArgs.project (projected : List String) : PathArgs → PathArgs
  | .angle args turbofish => .angle (projectGenericArgs projected args) turbofish
  | .paren inputs output => .paren (projectTys projected inputs) (projectOutput projected output)

def projectGenericArgs (projected : List String) : List GenericArg → List GenericArg
  | [] => []
  | arg :: args => arg.project projected :: projectGenericArgs projected args

/-- Projects an argument of a trait. -/
def GenericArg.project (projected : List String) : GenericArg → GenericArg
  | .ty ty => .ty (ty.project projected)
  | .lifetime lifetime => .lifetime lifetime
  | .binding ident ty => .binding ident (ty.project projected)
  | .constraint ident bounds => .constraint ident (projectBounds projected bounds)
  | .const text => .const text

/-- Projects the arguments of a trait. The trait itself is never projected. -/
def Bound.project (projected : List String) : Bound → Bound
  | .trait ⟨segments, rooted⟩ maybe lifetimes =>
    .trait ⟨projectSegments projected segments, rooted⟩ maybe lifetimes
  | .lifetime lifetime => .lifetime lifetime

def projectBounds (projected : List String) : List Bound → List Bound
  | [] => []
  | bound :: bounds => bound.project projected :: projectBounds projected bounds

end

/-- Projects a predicate. Predicates on lifetimes never change. -/
def Predicate.project (projected : List String) : Predicate → Predicate
  | type subject bounds lifetimes =>
    type (subject.project projected) (projectBounds projected bounds) lifetimes
  | lifetime l bounds => lifetime l bounds

end ShadowImpl
