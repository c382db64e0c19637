import Mathlib.Data.List.Forall2
import ShadowImpl.Grammar.Attributes

/-!
# Trees that differ in their places

Two attributes, items or blocks are related when they are the same except for their places, and the
places are related by `S`. Of a block its attributes, its place and its text are left out: a block
can be the same behind other attributes.
-/

namespace ShadowImpl

/-- Two extents whose ends are related. -/
structure Extent.Related (N : Nat → Nat → Prop) (x y : Extent) : Prop where
  first : N x.first y.first
  last : N x.last y.last

variable {σ τ σ' τ' : Type}

/-- Forms of a meta item with related places of their lists. -/
inductive MetaForm.Related (S : σ → τ → Prop) : MetaForm σ → MetaForm τ → Prop where
  | word : Related S .word .word
  | list {args : String} {g : σ} {g' : τ} (h : S g g') : Related S (.list args g) (.list args g')
  | value : Related S .value .value

/-- Meta items that differ in their places only. -/
structure Meta.Related (S : σ → τ → Prop) (m : Meta σ) (m' : Meta τ) : Prop where
  path : m.path = m'.path
  form : m.form.Related S m'.form
  place : S m.place m'.place

/-- Attributes that differ in their places only. -/
structure Attribute.Related (S : σ → τ → Prop) (a : Attribute σ) (a' : Attribute τ) : Prop where
  style : a.style = a'.style
  content : Option.Rel (Meta.Related S) a.content a'.content
  text : a.text = a'.text
  place : S a.place a'.place

/-- Methods that differ in their places only. -/
structure Method.Related (S : σ → τ → Prop) (m : Method σ) (m' : Method τ) : Prop where
  name : m.name = m'.name
  attrs : List.Forall₂ (Attribute.Related S) m.attrs m'.attrs
  head : m.head = m'.head
  generics : m.generics = m'.generics
  params : m.params = m'.params
  ret : m.ret = m'.ret
  body : m.body = m'.body
  place : S m.place m'.place

/-- Items that are kept as they are written and differ in their places only. -/
structure VerbatimItem.Related (S : σ → τ → Prop) (v : VerbatimItem σ) (v' : VerbatimItem τ) :
    Prop where
  kind : v.kind = v'.kind
  attrs : List.Forall₂ (Attribute.Related S) v.attrs v'.attrs
  text : v.text = v'.text
  place : S v.place v'.place

/-- Items of one kind that differ in their places only. -/
inductive Item.Related (S : σ → τ → Prop) : Item σ → Item τ → Prop where
  | method {m : Method σ} {m' : Method τ} (h : m.Related S m') : Related S (.method m) (.method m')
  | verbatim {v : VerbatimItem σ} {v' : VerbatimItem τ} (h : v.Related S v') :
      Related S (.verbatim v) (.verbatim v')

/-- Blocks with related items, be they behind the same attributes or others. -/
structure ImplBlock.Related (S : σ → τ → Prop) (b : ImplBlock σ) (b' : ImplBlock τ) : Prop where
  isUnsafe : b.isUnsafe = b'.isUnsafe
  generics : b.generics = b'.generics
  traitRef : b.traitRef = b'.traitRef
  selfTy : b.selfTy = b'.selfTy
  selfPlace : S b.selfPlace b'.selfPlace
  innerAttrs : List.Forall₂ (Attribute.Related S) b.innerAttrs b'.innerAttrs
  items : List.Forall₂ (Item.Related S) b.items b'.items

/-! ## Changing the places -/

section Map

variable {S : σ → τ → Prop} {S' : σ' → τ' → Prop} {f : σ → σ'} {g : τ → τ'}
  (hS : ∀ x y, S x y → S' (f x) (g y))

include hS

/-- Places that are related by `S` are mapped to places that are related by `S'`; so are the meta
items they belong to. -/
theorem Meta.Related.map {m : Meta σ} {m' : Meta τ} (h : m.Related S m') :
    (m.map f).Related S' (m'.map g) := by
  refine ⟨h.path, ?_, hS _ _ h.place⟩
  rcases m with ⟨_, form, _⟩
  rcases m' with ⟨_, form', _⟩
  cases h.form with
  | word => exact .word
  | list hg => exact .list (hS _ _ hg)
  | value => exact .value

theorem Attribute.Related.map {a : Attribute σ} {a' : Attribute τ} (h : a.Related S a') :
    (a.map f).Related S' (a'.map g) := by
  refine ⟨h.style, ?_, h.text, hS _ _ h.place⟩
  rcases a with ⟨_, content, _, _⟩
  rcases a' with ⟨_, content', _, _⟩
  cases h.content with
  | none => exact .none
  | some hm => exact .some (Meta.Related.map hS hm)

theorem Attribute.forall₂_map {as : List (Attribute σ)} {bs : List (Attribute τ)}
    (h : List.Forall₂ (Attribute.Related S) as bs) :
    List.Forall₂ (Attribute.Related S') (as.map (Attribute.map f)) (bs.map (Attribute.map g)) := by
  rw [List.forall₂_map_left_iff, List.forall₂_map_right_iff]
  exact h.imp fun _ _ => Attribute.Related.map hS

theorem Item.Related.map {i : Item σ} {i' : Item τ} (h : i.Related S i') :
    (i.map f).Related S' (i'.map g) := by
  cases h with
  | method h =>
    exact .method ⟨h.name, Attribute.forall₂_map hS h.attrs, h.head, h.generics, h.params, h.ret,
      h.body, hS _ _ h.place⟩
  | verbatim h => exact .verbatim ⟨h.kind, Attribute.forall₂_map hS h.attrs, h.text, hS _ _ h.place⟩

theorem ImplBlock.Related.map {b : ImplBlock σ} {b' : ImplBlock τ} (h : b.Related S b') :
    (b.map f).Related S' (b'.map g) where
  isUnsafe := h.isUnsafe
  generics := h.generics
  traitRef := h.traitRef
  selfTy := h.selfTy
  selfPlace := hS _ _ h.selfPlace
  innerAttrs := Attribute.forall₂_map hS h.innerAttrs
  items := by
    rw [ImplBlock.map, List.forall₂_map_left_iff, ImplBlock.map, List.forall₂_map_right_iff]
    exact h.items.imp fun _ _ => Item.Related.map hS

end Map

/-! ## Leaving the places out -/

/-- An attribute without its places. -/
def Attribute.unplaced (a : Attribute σ) : Attribute Unit :=
  a.map fun _ => ()

/-- An item without its places. -/
def Item.unplaced (i : Item σ) : Item Unit :=
  i.map fun _ => ()

/-- A block without its places and without the text that it was read from. -/
def ImplBlock.unplaced (b : ImplBlock σ) : ImplBlock Unit :=
  { b.map (fun _ => ()) with text := "" }

variable {S : σ → τ → Prop}

/-- Without their places related attributes are equal. -/
theorem Attribute.Related.unplaced_eq {a : Attribute σ} {a' : Attribute τ} (h : a.Related S a') :
    a.unplaced = a'.unplaced := by
  rcases a with ⟨style, content, text, place⟩
  rcases a' with ⟨style', content', text', place'⟩
  obtain rfl : style = style' := h.style
  obtain rfl : text = text' := h.text
  cases h.content with
  | none => rfl
  | @some m m' hm =>
    rcases m with ⟨path, form, _⟩
    rcases m' with ⟨path', form', _⟩
    obtain rfl : path = path' := hm.path
    cases hm.form with
    | word | value | list => rfl

theorem Attribute.map_unplaced_eq {as : List (Attribute σ)} {bs : List (Attribute τ)}
    (h : List.Forall₂ (Attribute.Related S) as bs) : as.map unplaced = bs.map unplaced := by
  have hmap : List.Forall₂ Eq (as.map unplaced) (bs.map unplaced) := by
    rw [List.forall₂_map_left_iff, List.forall₂_map_right_iff]
    exact h.imp fun _ _ => Attribute.Related.unplaced_eq
  rwa [List.forall₂_eq_eq_eq] at hmap

/-- Without their places related items are equal. -/
theorem Item.Related.unplaced_eq {i : Item σ} {i' : Item τ} (h : i.Related S i') :
    i.unplaced = i'.unplaced := by
  cases h with
  | @method m m' h =>
    rcases m with ⟨name, attrs, head, generics, params, ret, body, place⟩
    rcases m' with ⟨name', attrs', head', generics', params', ret', body', place'⟩
    obtain ⟨rfl, hattrs, rfl, rfl, rfl, rfl, rfl, -⟩ := h
    exact congrArg (fun as => Item.method ⟨name, as, head, generics, params, ret, body, ()⟩)
      (Attribute.map_unplaced_eq hattrs)
  | @verbatim v v' h =>
    rcases v with ⟨kind, attrs, text, place⟩
    rcases v' with ⟨kind', attrs', text', place'⟩
    obtain ⟨rfl, hattrs, rfl, -⟩ := h
    exact congrArg (fun as => Item.verbatim ⟨kind, as, text, ()⟩) (Attribute.map_unplaced_eq hattrs)

/-- Related blocks differ in their places, texts and attributes. -/
theorem ImplBlock.Related.unplaced_eq {b : ImplBlock σ} {b' : ImplBlock τ} (h : b.Related S b') :
    b.unplaced = { b'.unplaced with attrs := b.attrs.map Attribute.unplaced } := by
  rcases b with ⟨attrs, isUnsafe, generics, traitRef, selfTy, selfPlace, inner, items, text, place⟩
  rcases b' with ⟨attrs', isUnsafe', generics', traitRef', selfTy', selfPlace',
    inner', items', text', place'⟩
  obtain ⟨rfl, rfl, rfl, rfl, -, hinner, hitems⟩ := h
  have hmap : List.Forall₂ Eq (items.map Item.unplaced) (items'.map Item.unplaced) := by
    rw [List.forall₂_map_left_iff, List.forall₂_map_right_iff]
    exact hitems.imp fun _ _ => Item.Related.unplaced_eq
  rw [List.forall₂_eq_eq_eq] at hmap
  exact congrArg₂ (fun inner items => ImplBlock.mk (attrs.map Attribute.unplaced) isUnsafe generics
    traitRef selfTy () inner items "" ()) (Attribute.map_unplaced_eq hinner) hmap

end ShadowImpl
