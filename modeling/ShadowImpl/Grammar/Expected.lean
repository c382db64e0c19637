import ShadowImpl.Token.Terminal

/-!
# What is expected where

After each token the grammar says what may come next, and the scanner tries nothing else. The lists
here name those places. Some of them hold more than a single use allows, because a place is known by
the token just read and not by all that came before it: after a complete type, for one, stands
whatever can follow a type anywhere.
-/

namespace ShadowImpl.Expected

open Terminal

/-- Any token, as inside brackets whose content is not looked into. -/
def anything : Expectation :=
  [docComment, rawString, innerDoc, string, char, number, ident, lifetime, punct] ++ keywords ++
    symbols

/-! ## Types -/

/-- The start of a type. -/
def type : Expectation :=
  [amp, bang, kwDyn, kwExtern, kwFn, kwFor, ident, kwImpl, lt, lpar, lsqb, pathSep, star, kwUnsafe]

/-- A type, or the end of a list of types. -/
def typeOrClose : Expectation :=
  rpar :: type

/-- After `&`. -/
def referent : Expectation :=
  lifetime :: kwMut :: type

/-- After the lifetime of a reference. -/
def mutOrType : Expectation :=
  kwMut :: type

/-- After `*`. -/
def pointerKind : Expectation :=
  [kwConst, kwMut]

/-- After a complete type, path segment or bound. -/
def afterType : Expectation :=
  [kwAs, colon, comma, eq, kwFor, lbrace, gt, pathSep, plus, rpar, rsqb, semi, kwWhere, lt, lpar,
    arrow]

/-- After a name that may label what follows or start a path. -/
def afterLabel : Expectation :=
  [colon, comma, eq, lt, lpar, gt, pathSep, rpar]

/-- A name and nothing else. -/
def name : Expectation :=
  [ident]

/-- The start of a path. -/
def path : Expectation :=
  [ident, pathSep]

/-- After a `::` inside a path. -/
def pathPiece : Expectation :=
  [ident, lt]

/-- A generic argument, or the end of the arguments. -/
def genericArg : Expectation :=
  type ++ [char, lbrace, lifetime, minus, gt, number, string]

/-- After a lifetime or a literal among generic arguments. -/
def afterArg : Expectation :=
  [comma, gt]

/-- A bound. -/
def bound : Expectation :=
  [kwFor, ident, lifetime, pathSep, qmark]

/-- After the `?` of a bound. -/
def relaxed : Expectation :=
  [kwFor, ident, pathSep]

/-- A lifetime of a binder, or its end. -/
def binderItem : Expectation :=
  [lifetime, gt]

/-- After a binder. -/
def afterBinder : Expectation :=
  [amp, bang, kwDyn, kwExtern, kwFn, ident, kwImpl, lt, lpar, lsqb, pathSep, star, kwUnsafe]

/-! ## Generics -/

/-- A generic parameter, or the end of the list. -/
def param : Expectation :=
  [kwConst, ident, lifetime, gt]

/-- After the name of a type parameter. -/
def afterTypeParam : Expectation :=
  [colon, comma, eq, gt]

/-- After the colon of a type parameter. -/
def paramBound : Expectation :=
  [comma, eq, kwFor, ident, lifetime, gt, pathSep, qmark]

/-- After the name of a lifetime parameter. -/
def afterLifetimeParam : Expectation :=
  [colon, comma, gt]

/-- After the colon of a lifetime parameter. -/
def paramLifetime : Expectation :=
  [comma, lifetime, gt]

/-- The default of a constant parameter. -/
def constDefault : Expectation :=
  [char, ident, lbrace, minus, number, pathSep, string]

/-- After a parameter list. -/
def afterParams : Expectation :=
  [amp, bang, kwDyn, kwExtern, kwFn, kwFor, ident, kwImpl, lpar, lsqb, pathSep, star, kwUnsafe]

/-- After a lifetime among bounds. -/
def afterLifetime : Expectation :=
  [comma, lbrace, gt, plus, semi]

/-- A predicate. -/
def predicate : Expectation :=
  lifetime :: type

/-- A predicate of a where clause, or its end. -/
def clausePredicate : Expectation :=
  lbrace :: semi :: predicate

/-- After the colon of a predicate on a lifetime. -/
def predicateLifetime : Expectation :=
  [comma, lbrace, lifetime, semi]

/-- After the colon of a predicate on a type. -/
def predicateBound : Expectation :=
  [comma, kwFor, ident, lbrace, lifetime, pathSep, qmark, semi]

/-! ## Attributes -/

/-- The start of a meta item. -/
def metaItem : Expectation :=
  [ident, pathSep, kwUnsafe]

/-- After a `::` inside the path of a meta item. -/
def metaName : Expectation :=
  [ident, kwUnsafe]

/-- After a name in the path of a meta item. -/
def afterMetaName : Expectation :=
  [comma, eq, lbrace, lpar, lsqb, pathSep, rsqb]

/-- After an attribute in front of a block or an item. -/
def afterAttribute : Expectation :=
  [kwAsync, kwConst, docComment, kwExtern, kwFn, hash, ident, kwImpl, kwPub, kwType, kwUnsafe]

/-! ## Items and blocks -/

/-- The start of an impl block. -/
def block : Expectation :=
  [docComment, hash, kwImpl, kwUnsafe]

/-- The start of an item that stands alone. -/
def item : Expectation :=
  [kwAsync, kwConst, docComment, kwExtern, kwFn, hash, ident, kwPub, kwType, kwUnsafe]

/-- After an item that ends in a semicolon. -/
def afterItem : Expectation :=
  rbrace :: item

/-- The start of a block's body, and after an inner attribute. -/
def body : Expectation :=
  innerDoc :: afterItem

/-- After `pub`. -/
def afterPub : Expectation :=
  [kwAsync, kwConst, kwExtern, kwFn, lpar, kwType, kwUnsafe]

/-- After a qualifier of a method. -/
def qualifier : Expectation :=
  [kwAsync, kwConst, kwExtern, kwFn, kwUnsafe]

/-- After the name of a method. -/
def afterMethodName : Expectation :=
  [lt, lpar]

/-- After a name in the path of a macro call. -/
def afterMacroName : Expectation :=
  [bang, pathSep]

/-- An opening bracket. -/
def group : Expectation :=
  [lbrace, lpar, lsqb]

end ShadowImpl.Expected
