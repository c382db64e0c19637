import ShadowImpl.Proofs.Stages

/-!
# What an expansion leaves alone

A block that carries its marker is expanded into one that has all of its parts but the markers, in
the same order: only the self type, the generics and the attributes of methods change. The text that
is generated shows every part that is kept as source text.
-/

namespace ShadowImpl

variable {σ : Type}

/-! ## Pieces of a text -/

/-- The pieces stand in the text one after the other, without sharing a character. -/
inductive Text.Shows : List String → String → Prop where
  | nil (text : String) : Shows [] text
  | cons {piece text : String} {pieces : List String} (gap : String) (h : Shows pieces text) :
      Shows (piece :: pieces) (gap ++ piece ++ text)

namespace Text.Shows

variable {pieces pieces' : List String} {text text' : String}

/-- A text shows itself. -/
theorem self (text : String) : Shows [text] text := by
  have h : Shows [text] ("" ++ text ++ "") := cons "" (nil "")
  simpa using h

theorem behind (gap : String) (h : Shows pieces text) : Shows pieces (gap ++ text) := by
  cases h with
  | nil => exact nil _
  | cons gap' h =>
    rw [← String.append_assoc, ← String.append_assoc]
    exact cons (gap ++ gap') h

theorem append (h : Shows pieces text) (h' : Shows pieces' text') :
    Shows (pieces ++ pieces') (text ++ text') := by
  induction h with
  | nil => exact h'.behind _
  | cons gap _ ih =>
    rw [List.cons_append, String.append_assoc]
    exact cons gap ih

theorem before (h : Shows pieces text) (gap : String) : Shows pieces (text ++ gap) := by
  simpa using h.append (nil gap)

/-- What is put together from parts shows what the parts show. -/
theorem join (sep : String) {shown : List (List String)} {parts : List String}
    (h : List.Forall₂ Shows shown parts) : Shows shown.flatten (Text.join sep parts) := by
  induction h with
  | nil => exact nil _
  | @cons _ _ _ parts hpart hparts ih =>
    rw [List.flatten_cons]
    cases parts with
    | nil =>
      cases hparts
      simpa [Text.join] using hpart
    | cons part' parts => exact (hpart.before sep).append ih

end Text.Shows

/-! ## Rendered blocks -/

/-- The texts of attributes. -/
def Attribute.texts (attrs : List (Attribute σ)) : List String :=
  attrs.map Attribute.text

/-- The parts of an item that are kept as source text. -/
def Item.slices : Item σ → List String
  | method m => Attribute.texts m.attrs ++ [m.head, m.params] ++ m.ret.toList ++ [m.body]
  | verbatim v => Attribute.texts v.attrs ++ [v.text]

/-- The parts of a block that are kept as source text. -/
def ImplBlock.slices (b : ImplBlock σ) : List String :=
  Attribute.texts b.attrs ++ b.traitRef.toList ++ Attribute.texts b.innerAttrs ++
    b.items.flatMap Item.slices

open Text (Shows)

theorem Attribute.shows_renderEach (indent : String) (attrs : List (Attribute σ)) :
    List.Forall₂ Shows (attrs.map fun a => [a.text]) (renderEach indent attrs) := by
  rw [renderEach, List.forall₂_map_left_iff, List.forall₂_map_right_iff, List.forall₂_same]
  exact fun a _ => (Shows.self a.text).behind indent

/-- Attributes on lines of their own, in front of other lines. -/
theorem Attribute.shows_join (indent : String) (attrs : List (Attribute σ))
    {shown : List (List String)} {lines : List String} (h : List.Forall₂ Shows shown lines) :
    Shows (texts attrs ++ shown.flatten) (Text.join "\n" (renderEach indent attrs ++ lines)) := by
  have hall := Shows.join "\n" (List.rel_append (shows_renderEach indent attrs) h)
  rwa [List.flatten_append, ← List.flatMap_def, ← List.map_eq_flatMap] at hall

namespace Method

theorem shows_signature (m : Method σ) (indent : String) :
    Shows ([m.head, m.params] ++ m.ret.toList) (m.signature indent) := by
  have hhead : Shows [m.head] (indent ++ m.head ++ m.generics.printParams) :=
    ((Shows.self m.head).behind indent).before _
  refine (hhead.append (Shows.self m.params)).append ?_
  cases m.ret with
  | none => exact .nil _
  | some ret =>
    by_cases hret : ret = ""
    · simpa [hret] using Shows.self ""
    · simpa [hret] using (Shows.self ret).behind " "

theorem shows_ending (m : Method σ) (indent : String) : Shows [m.body] (m.ending indent) := by
  rw [ending]
  split
  · rename_i hbody
    rw [hbody]
    exact (Shows.self ";").behind _
  · split
    · exact (Shows.self m.body).behind " "
    · exact (Shows.self m.body).behind _

end Method

/-- An item shows its slices. -/
theorem Item.shows_render (indent : String) (i : Item σ) : Shows i.slices (i.render indent) := by
  cases i with
  | method m =>
    have hline := (m.shows_signature indent).append (m.shows_ending indent)
    simpa [slices, render, Method.render] using
      Attribute.shows_join indent m.attrs (.cons hline .nil)
  | verbatim v =>
    have hline := (Shows.self v.text).behind indent
    simpa [slices, render] using Attribute.shows_join indent v.attrs (.cons hline .nil)

namespace ImplBlock

theorem shows_header (b : ImplBlock σ) : Shows b.traitRef.toList b.header := by
  rw [header]
  refine Shows.before (Shows.before (Shows.behind _ ?_) _) _
  cases b.traitRef with
  | none => exact .nil _
  | some trait => exact (Shows.self trait).before " for "

theorem shows_parts (b : ImplBlock σ) :
    Shows (Attribute.texts b.innerAttrs ++ b.items.flatMap Item.slices)
      (Text.join "\n\n" b.parts) := by
  have hitems : List.Forall₂ Shows (b.items.map Item.slices)
      (b.items.map (Item.render indentation)) := by
    rw [List.forall₂_map_left_iff, List.forall₂_map_right_iff, List.forall₂_same]
    exact fun i _ => i.shows_render indentation
  rw [parts, List.flatMap_def]
  split
  · rename_i hempty
    rw [List.isEmpty_iff.mp hempty]
    exact Shows.join "\n\n" hitems
  · have hinner : Shows (Attribute.texts b.innerAttrs)
        (Text.join "\n" (Attribute.renderEach indentation b.innerAttrs)) := by
      simpa using Attribute.shows_join indentation b.innerAttrs .nil
    exact Shows.join "\n\n" (.cons hinner hitems)

/-- A block shows its slices. -/
theorem shows_render (b : ImplBlock σ) : Shows b.slices b.render := by
  have hbody := b.shows_parts
  rw [slices, render, List.append_assoc, List.append_assoc]
  split
  · rename_i hempty
    -- without parts the header is all there is
    rw [List.isEmpty_iff.mp hempty] at hbody
    have hline := (b.shows_header.append hbody).before "\x7d"
    simpa [Text.join] using Attribute.shows_join "" b.attrs (.cons hline .nil)
  · simpa using Attribute.shows_join "" b.attrs
      (.cons b.shows_header (.cons hbody (.cons (.nil "\x7d") .nil)))

end ImplBlock

/-! ## The frame of an expansion -/

/-- A method and what is made of it: everything but the generics and the markers is kept. -/
structure Method.Kept (m m' : Method Location) : Prop where
  name : m'.name = m.name
  head : m'.head = m.head
  params : m'.params = m.params
  ret : m'.ret = m.ret
  body : m'.body = m.body
  place : m'.place = m.place
  attrs : m'.attrs = m.attrs.filter fun a => !a.isThe .method
  unmarked : ∀ a ∈ m'.attrs, a.isThe .method = false

/-- An item and what is made of it. One that is no method is kept as it is. -/
inductive Item.Kept : Item Location → Item Location → Prop where
  | method {m m' : Method Location} (h : m.Kept m') : Kept (.method m) (.method m')
  | verbatim (v : VerbatimItem Location) : Kept (.verbatim v) (.verbatim v)

/-- A block and what is made of it: everything but the self type, the generics, the marker and what
belongs to the methods is kept. -/
structure ImplBlock.Kept (b b' : ImplBlock Location) : Prop where
  attrs : ∃ as marker bs, b.attrs = as ++ marker :: bs ∧ marker.isThe .block = true ∧
    b'.attrs = as ++ bs ∧ ∀ a ∈ as ++ bs, a.isThe .block = false
  isUnsafe : b'.isUnsafe = b.isUnsafe
  traitRef : b'.traitRef = b.traitRef
  innerAttrs : b'.innerAttrs = b.innerAttrs
  place : b'.place = b.place
  selfPlace : b'.selfPlace = b.selfPlace
  text : b'.text = b.text
  items : List.Forall₂ Item.Kept b.items b'.items

theorem Method.kept_expand (m : Method Location) (d : Directive) : m.Kept (m.expand d) where
  name := rfl
  head := rfl
  params := rfl
  ret := rfl
  body := rfl
  place := rfl
  attrs := rfl
  unmarked := by simp [Method.expand]

theorem Item.kept_of_expand {s : Source} {i j : Item Location} (h : i.expand s = .ok j) :
    i.Kept j := by
  rcases Item.expand_eq_ok h with ⟨v, rfl, rfl, -⟩ | ⟨m, d, rfl, -, rfl⟩
  · exact .verbatim v
  · exact .method (m.kept_expand d)

/-- The marker that is taken from a block is the only one. -/
theorem Expansion.exists_of_takeMarker {b b' : ImplBlock Location} {marker : Attribute Location}
    (h : takeMarker b = .ok (b', marker)) :
    ∃ as bs, b.attrs = as ++ marker :: bs ∧ marker.isThe .block = true ∧
      b' = { b with attrs := as ++ bs } ∧ ∀ a ∈ as ++ bs, a.isThe .block = false := by
  rw [takeMarker] at h
  split at h
  · simp at h
  · rename_i only honly
    obtain ⟨rfl, rfl⟩ := Prod.mk.inj (Except.ok.inj h)
    obtain ⟨as, bs, hattrs, hrest⟩ := exists_of_filter_eq_singleton honly
    have hmarker : only ∈ b.attrs.filter (Attribute.isThe .block) := by simp [honly]
    refine ⟨as, bs, hattrs, (List.mem_filter.mp hmarker).2, by rw [hrest], fun a ha => ?_⟩
    rw [← hrest] at ha
    simpa using (List.mem_filter.mp ha).2
  · simp at h

/-- The frame of an expansion: the block that is generated for a text is the block that the text
spells, but for its one marker, the self type, the generics and the markers of its methods; and the
generated text shows in order all that is kept as source text. -/
theorem ofSource_keeps (text file : String) (e : Expansion)
    (h : (Expansion.ofSource text file).result = .ok e) :
    ∃ b, Source.implBlock ⟨file, text, none⟩ = .ok b ∧ b.Kept e.block ∧
      Shows e.block.slices e.generated := by
  obtain ⟨b, t, d, hb, ht, hmade⟩ := Request.exists_made (r := .source text file) h
  obtain ⟨⟨b', marker⟩, hmarker, ht⟩ := bind_eq_ok_iff.mp ht
  obtain ⟨args, -, ht⟩ := bind_eq_ok_iff.mp ht
  obtain ⟨rfl, -⟩ := Prod.mk.inj (Except.ok.inj ht)
  obtain ⟨as, bs, hattrs, hthe, rfl, hrest⟩ := Expansion.exists_of_takeMarker hmarker
  have hitems : List.Forall₂ Item.Kept b.items e.block.items :=
    hmade.items.imp fun _ _ => Item.kept_of_expand
  refine ⟨b, hb, ⟨⟨as, marker, bs, hattrs, hthe, ?_, hrest⟩, ?_, ?_, ?_, ?_, ?_, ?_, hitems⟩, ?_⟩
  iterate 7 rw [hmade.block, Task.generated]
  rw [hmade.generated]
  exact e.block.shows_render

/-- A block with a marker between other attributes, and a method with one. -/
theorem ofSource_keeps_neighbours :
    ∃ (e : Expansion) (b : ImplBlock Location), (Expansion.ofSource
        "/// d\n#[shadow_impl] #[a] impl A for X \x7b #![i] #[shadow_method] #[b] fn f() -> u8; \x7d"
        "<input>").result = .ok e ∧
      b.Kept e.block ∧ Shows e.block.slices e.generated := by
  obtain ⟨e, he⟩ := exists_of_isOk (x := (Expansion.ofSource
    "/// d\n#[shadow_impl] #[a] impl A for X \x7b #![i] #[shadow_method] #[b] fn f() -> u8; \x7d"
    "<input>").result) (by decide +kernel)
  obtain ⟨b, -, hkept, hshows⟩ := ofSource_keeps _ _ e he
  exact ⟨e, b, he, hkept, hshows⟩

end ShadowImpl
