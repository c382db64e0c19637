import ShadowImpl.Syntax.Generics

/-!
# Attributes, items and impl blocks

Generics are structured; everything that an expansion carries over unchanged is kept as source text.
The type `σ` of places is left open: the grammar counts tokens, and a finished tree has locations.
-/

namespace ShadowImpl

/-- The three forms of a meta item. -/
inductive MetaForm (σ : Type) where
  /-- `name` -/
  | word
  /-- `name(...)`, also with other brackets. `args` is the text between the brackets and `group` the
  place of the whole bracketed group. -/
  | list (args : String) (group : σ)
  /-- `name = value` -/
  | value
deriving BEq, Repr

/-- What stands inside an attribute, or between the commas of a marker's arguments. The path is kept
without its blanks. -/
structure Meta (σ : Type) where
  path : String
  form : MetaForm σ
  place : σ
deriving BEq, Repr

/-- Whether an attribute stands before what it belongs to, inside of it, or is a documentation
comment. -/
inductive AttrStyle where
  | outer
  | inner
  | doc
deriving DecidableEq, Repr

/-- An attribute or a documentation comment, which has no meta item. -/
structure Attribute (σ : Type) where
  style : AttrStyle
  content : Option (Meta σ)
  text : String
  place : σ
deriving BEq, Repr

/-- A method. `head` runs from the visibility to the name, `ret` is the arrow and the type, and
`body` is a block or a semicolon. -/
structure Method (σ : Type) where
  name : String
  attrs : List (Attribute σ)
  head : String
  generics : Generics
  params : String
  ret : Option String
  body : String
  place : σ
deriving BEq, Repr

/-- The kinds of item that are carried over as text. -/
inductive ItemKind where
  | const
  | type
  | macroCall
deriving DecidableEq, Repr

/-- How a kind is called in messages. -/
def ItemKind.name : ItemKind → String
  | const => "const"
  | type => "type"
  | macroCall => "macro"

/-- An item that is carried over as text. -/
structure VerbatimItem (σ : Type) where
  kind : ItemKind
  attrs : List (Attribute σ)
  text : String
  place : σ
deriving BEq, Repr

/-- An item of an impl block. -/
inductive Item (σ : Type) where
  | method (method : Method σ)
  | verbatim (item : VerbatimItem σ)
deriving BEq, Repr

/-- An impl block. `traitRef` is the text of the trait if there is one. -/
structure ImplBlock (σ : Type) where
  attrs : List (Attribute σ)
  isUnsafe : Bool
  generics : Generics
  traitRef : Option String
  selfTy : Ty
  selfPlace : σ
  innerAttrs : List (Attribute σ)
  items : List (Item σ)
  text : String
  place : σ
deriving BEq, Repr

/-! ## Changing the places -/

variable {σ τ : Type}

def MetaForm.map (f : σ → τ) : MetaForm σ → MetaForm τ
  | word => word
  | list args group => list args (f group)
  | value => value

def Meta.map (f : σ → τ) (m : Meta σ) : Meta τ :=
  ⟨m.path, m.form.map f, f m.place⟩

def Attribute.map (f : σ → τ) (a : Attribute σ) : Attribute τ :=
  ⟨a.style, a.content.map (Meta.map f), a.text, f a.place⟩

def Method.map (f : σ → τ) (m : Method σ) : Method τ :=
  ⟨m.name, m.attrs.map (Attribute.map f), m.head, m.generics, m.params, m.ret, m.body, f m.place⟩

def VerbatimItem.map (f : σ → τ) (v : VerbatimItem σ) : VerbatimItem τ :=
  ⟨v.kind, v.attrs.map (Attribute.map f), v.text, f v.place⟩

def Item.map (f : σ → τ) : Item σ → Item τ
  | method m => method (m.map f)
  | verbatim v => verbatim (v.map f)

def ImplBlock.map (f : σ → τ) (b : ImplBlock σ) : ImplBlock τ :=
  ⟨b.attrs.map (Attribute.map f), b.isUnsafe, b.generics, b.traitRef, b.selfTy, f b.selfPlace,
    b.innerAttrs.map (Attribute.map f), b.items.map (Item.map f), b.text, f b.place⟩

/-! ## Parts -/

/-- The attributes of an item. -/
def Item.attrs : Item σ → List (Attribute σ)
  | method m => m.attrs
  | verbatim v => v.attrs

/-- The methods of a block, in order. -/
def ImplBlock.methods (b : ImplBlock σ) : List (Method σ) :=
  b.items.filterMap fun
    | .method m => some m
    | .verbatim _ => none

/-- The path of an attribute; a documentation comment counts as `doc`. -/
def Attribute.path (a : Attribute σ) : String :=
  (a.content.map Meta.path).getD "doc"

/-- Whether an attribute is the marker `name`, alone or at the end of a path. -/
def Attribute.isMarker (name : String) (a : Attribute σ) : Bool :=
  match a.content with
  | none => false
  | some m => m.path == name || ("::" ++ name).toList.isSuffixOf m.path.toList

end ShadowImpl
