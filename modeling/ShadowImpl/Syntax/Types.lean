/-!
# Types, paths and bounds

The part of the type language that an impl block can hold. A type carries no place in a text, so two
types are equal when they are written alike up to layout. Array lengths, constant arguments and ABI
names are kept as they are written.
-/

namespace ShadowImpl

/-- A lifetime; its name starts with the apostrophe. -/
structure Lifetime where
  name : String
deriving DecidableEq, Repr

mutual

/-- A type. -/
inductive Ty where
  | path (path : Path)
  /-- A path with a qualified self: `<T>::Out` or `<T as Trait>::Out`. -/
  | qualified (self : Ty) (asTrait : Option Path) (path : Path)
  | ref (lifetime : Option Lifetime) (mutable : Bool) (elem : Ty)
  | ptr (mutable : Bool) (elem : Ty)
  /-- A tuple; without elements it is the unit type. -/
  | tuple (elems : List Ty)
  | paren (elem : Ty)
  | slice (elem : Ty)
  | array (elem : Ty) (length : String)
  | never
  | implTrait (bounds : List Bound)
  | dynTrait (bounds : List Bound)
  /-- A function pointer. An empty `abi` is a bare `extern`. -/
  | fnPtr (lifetimes : List Lifetime) (isUnsafe : Bool) (abi : Option String) (inputs : List FnArg)
      (output : Option Ty)

/-- A parameter of a function pointer, which may be named. -/
structure FnArg where
  name : Option String
  ty : Ty

/-- A path. `rooted` says that it starts with `::`. -/
structure Path where
  segments : List Segment
  rooted : Bool

/-- A part of a path, with its generic arguments. -/
structure Segment where
  ident : String
  args : Option PathArgs

/-- The two forms of arguments that a segment can have. -/
inductive PathArgs where
  /-- `<T, 'a, Item = U>`; a turbofish has `::` in front. -/
  | angle (args : List GenericArg) (turbofish : Bool)
  /-- `(A, B) -> C` -/
  | paren (inputs : List Ty) (output : Option Ty)

/-- An argument between angle brackets. -/
inductive GenericArg where
  | ty (ty : Ty)
  | lifetime (lifetime : Lifetime)
  /-- `Item = T` -/
  | binding (ident : String) (ty : Ty)
  /-- `Item: Clone` -/
  | constraint (ident : String) (bounds : List Bound)
  | const (text : String)

/-- What a type or a parameter is bounded by. -/
inductive Bound where
  /-- A trait, relaxed by `?` if `maybe`, under a `for<...>` binder. -/
  | trait (path : Path) (maybe : Bool) (lifetimes : List Lifetime)
  | lifetime (lifetime : Lifetime)

end

deriving instance BEq, Repr for Ty, FnArg, Path, Segment, PathArgs, GenericArg, Bound

namespace Path

/-- The path of a single name. -/
def ofIdent (ident : String) : Path :=
  ⟨[⟨ident, none⟩], false⟩

/-- The name that a path consists of, if it has one segment, no arguments and no leading `::`. -/
def ident? : Path → Option String
  | ⟨[⟨ident, none⟩], false⟩ => some ident
  | _ => none

/-- Whether the path is just the name `ident`. -/
def isIdent (p : Path) (ident : String) : Bool :=
  p.ident? == some ident

end Path

/-- The type that is a single name. -/
def Ty.ofIdent (ident : String) : Ty :=
  .path (.ofIdent ident)

end ShadowImpl
