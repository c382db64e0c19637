import ShadowImpl.Proofs.Cutouts
import ShadowImpl.Proofs.Trailers

/-!
# Lists of arguments one behind the other

Every list of arguments of a marker is found between brackets, in front of the lists
that come after it.
-/

namespace ShadowImpl

open Lexeme Recogniser

variable {α : Type} {x y : List Char} {vs : List String} {s s' : Scan} {n : Nat}

/-- The text of a list of arguments. -/
def MetaForm.arguments : MetaForm α → List String
  | .list args _ => [args]
  | .word | .value => []

@[simp] theorem MetaForm.arguments_map {β : Type} (f : α → β) (form : MetaForm α) :
    (form.map f).arguments = form.arguments := by
  cases form <;> rfl

/-- The texts stand one behind the other, each between brackets. -/
inductive InTurn : List String → List Char → Prop where
  | nil (y : List Char) : InTurn [] y
  | cons {v : String} {vs : List String} {x u : List Char} (h : Enclosed v.toList u)
      (hvs : InTurn vs u) : InTurn (v :: vs) (x ++ (v.toList ++ u))

/-- What stands in turn in a text does behind another one. -/
theorem InTurn.behind (h : InTurn vs y) (x : List Char) : InTurn vs (x ++ y) := by
  cases h with
  | nil => exact .nil _
  | cons h hvs =>
    rw [← List.append_assoc]
    exact .cons h hvs

/-- Some of the texts stand in turn if all do. -/
theorem InTurn.sublist {ws : List String} (hws : ws.Sublist vs) (h : InTurn vs y) :
    InTurn ws y := by
  induction hws generalizing y with
  | slnil => exact .nil y
  | cons v _ ih =>
    cases h with
    | @cons _ _ x u _ hvs =>
      rw [← List.append_assoc]
      exact (ih hvs).behind _
  | cons_cons v _ ih =>
    cases h with
    | cons hv hvs => exact .cons hv (ih hvs)

/-- Of two texts, the second one stands behind the first one and its bracket. -/
theorem InTurn.exists_enclosed {v w : String} (h : InTurn [v, w] y) :
    ∃ u, Enclosed v.toList u ∧ w.toList <:+: u := by
  cases h with
  | cons hv hvs =>
    cases hvs with
    | @cons _ _ x u _ _ => exact ⟨_, hv, x, u, by simp⟩

namespace Grammar

open Reading

/-- A list of arguments is made of the text between its brackets. -/
theorem list_split {f : MetaForm Extent}
    (h : (do
      let first ← mark
      group n
      return MetaForm.list (inside (← textFrom first)) (Extent.mk first (← mark))).run s =
        .ok (f, s')) : ∃ (v : String) (x c : List Char), f.arguments = [v] ∧
      s.rest = x ++ (v.toList ++ (c ++ s'.rest)) ∧ Enclosed v.toList (c ++ s'.rest) := by
  rw [run_mark_bind] at h
  obtain ⟨⟨⟩, s₁, hgroup, h⟩ := run_bind_eq_ok.mp h
  rw [run_textFrom_bind, run_mark_bind, run_pure] at h
  obtain ⟨rfl, rfl⟩ : _ = f ∧ s₁ = s' := by simpa using h
  obtain ⟨-, o, r, bs, c, hnext, htakes, hscan, hclose, -⟩ := group_tokens hgroup
  obtain ⟨ho, hc⟩ := bracket_of_closer hclose
  obtain ⟨z, -, hlast⟩ := hscan.of_append
  -- A bracket is one character, so what `inside` cuts off are the two brackets.
  have hlo : o.text.length = 1 := length_of_bracket hnext ho
  have hlc : c.text.length = 1 := by
    cases hlast with
    | cons hlast _ => exact length_of_bracket (s := ⟨[], z, Expected.anything⟩) hlast hc
  obtain ⟨a, ha⟩ := List.length_eq_one_iff.mp hlo
  obtain ⟨b, hb⟩ := List.length_eq_one_iff.mp hlc
  have hargs : (inside (String.ofList (s₁.textFrom s.taken.length))).toList =
      Token.spelled bs ++ c.gap := by
    rw [Scan.textFrom_of_takes htakes]
    simp [inside, ha, hb]
  have hr : r = Token.spelled bs ++ c.gap ++ (c.text ++ s₁.rest) := by
    rw [hscan.spelled]
    simp
  refine ⟨_, o.gap ++ o.text, c.text, rfl, ?_, bs, c, s₁.rest, ?_, hargs⟩
  · rw [(Next.of_eq_token hnext).1, hr, hargs]
  · rw [hargs, ← hr]
    exact hscan

theorem list_inTurn {f : MetaForm Extent}
    (h : (do
      let first ← mark
      group n
      return MetaForm.list (inside (← textFrom first)) (Extent.mk first (← mark))).run s =
        .ok (f, s')) (hvs : InTurn vs s'.rest) : InTurn (f.arguments ++ vs) s.rest := by
  obtain ⟨v, x, c, hv, hrest, henclosed⟩ := list_split h
  rw [hv, hrest]
  exact .cons henclosed (hvs.behind c)

/-- Arguments in brackets stand in front of all that follows the brackets. -/
theorem metaForm_inTurn {f : MetaForm Extent} (h : (metaForm n).run s = .ok (f, s'))
    (hvs : InTurn vs s'.rest) : InTurn (f.arguments ++ vs) s.rest := by
  obtain ⟨new, hnew, -⟩ := takes_of_run (metaForm n) s
  have hrest := (hnew _ _ h).2
  rw [metaForm, run_peek_bind] at h
  split at h
  · exact list_inTurn h hvs
  · exact list_inTurn h hvs
  · exact list_inTurn h hvs
  · obtain ⟨t, r, -, h⟩ := run_shift_bind_eq_ok.mp h
    obtain ⟨⟨⟩, s₁, -, h⟩ := run_bind_eq_ok.mp h
    obtain ⟨rfl, -⟩ : _ = f ∧ _ := by simpa using h
    rw [hrest]
    exact hvs.behind _
  · obtain ⟨rfl, -⟩ : _ = f ∧ _ := by simpa using h
    rw [hrest]
    exact hvs.behind _

theorem metaItem_inTurn {m : Meta Extent} (h : (metaItem n).run s = .ok (m, s'))
    (hvs : InTurn vs s'.rest) : InTurn (m.form.arguments ++ vs) s.rest := by
  rw [metaItem, run_mark_bind] at h
  obtain ⟨path, s₁, hpath, h⟩ := run_bind_eq_ok.mp h
  obtain ⟨form, s₂, hform, h⟩ := run_bind_eq_ok.mp h
  rw [run_mark_bind, run_pure] at h
  obtain ⟨rfl, rfl⟩ : _ = m ∧ s₂ = s' := by simpa using h
  obtain ⟨new, hnew, -⟩ := takes_of_run (metaPath n) s
  rw [(hnew _ _ hpath).2]
  exact (metaForm_inTurn hform hvs).behind _

/-- The arguments of meta items stand one behind the other. -/
theorem metaItems_inTurn {starts : Terminal → Bool} {after : Expectation} {k : Nat}
    {ms : List (Meta Extent)} (h : (openList starts after (metaItem k) n).run s = .ok (ms, s')) :
    InTurn (ms.flatMap fun m => m.form.arguments) s.rest := by
  refine openList_induction (P := fun s ms => InTurn (ms.flatMap fun m => m.form.arguments) s.rest)
    (fun _ => .nil _) ?_ ?_ h
  · exact fun hm _ => metaItem_inTurn hm (.nil _)
  · intro s s₁ t r m ms n hm hnext _ _ hms
    refine metaItem_inTurn hm ?_
    rw [(Next.of_eq_token hnext).1]
    exact hms.behind _

end Grammar

/-- The lists of arguments of a source stand in its text one behind the other. -/
theorem Source.metas_inTurn {src : Source} {ms : List (Meta Location)} (h : src.metas = .ok ms) :
    InTurn (ms.flatMap fun m => m.form.arguments) src.chars := by
  obtain ⟨ms₀, s', hrun, -, rfl⟩ := exists_run h
  have hturn := Grammar.metaItems_inTurn hrun
  simp only [List.flatMap_map, Meta.map, MetaForm.arguments_map]
  exact hturn

/-! ## Attributes -/

/-- The texts of the lists of arguments of an attribute: there is one at most. -/
def Attribute.arguments (a : Attribute α) : List String :=
  a.content.toList.flatMap fun m => m.form.arguments

@[simp] theorem Attribute.arguments_map {β : Type} (f : α → β) (a : Attribute α) :
    (a.map f).arguments = a.arguments := by
  rcases a with ⟨style, content, text, place⟩
  cases content <;> simp [arguments, Attribute.map, Meta.map]

/-- The lists of arguments of these attributes stand one behind the other in some text. -/
def ArgumentsInTurn (as : List (Attribute α)) : Prop :=
  ∃ y, InTurn (as.flatMap Attribute.arguments) y

theorem argumentsInTurn_map {β : Type} (f : α → β) (as : List (Attribute α)) :
    ArgumentsInTurn (as.map (Attribute.map f)) ↔ ArgumentsInTurn as := by
  simp [ArgumentsInTurn, List.flatMap_map]

namespace Grammar

open Reading

variable {as : List (Attribute Extent)}

theorem bracketed_inTurn {style : AttrStyle} {after : Expectation} {first : Nat}
    {a : Attribute Extent} (h : (bracketed style after first n).run s = .ok (a, s'))
    (hvs : InTurn vs s'.rest) : InTurn (a.arguments ++ vs) s.rest := by
  rw [bracketed] at h
  obtain ⟨t, r, hnext, -, h⟩ := run_token_bind_eq_ok.mp h
  obtain ⟨m, s₁, hm, h⟩ := run_bind_eq_ok.mp h
  obtain ⟨t', r', hnext', -, h⟩ := run_token_bind_eq_ok.mp h
  rw [run_textFrom_bind, run_mark_bind, run_pure] at h
  obtain ⟨rfl, rfl⟩ : _ = a ∧ _ = s' := by simpa using h
  rw [(Next.of_eq_token hnext).1]
  have hitem : InTurn (m.form.arguments ++ vs) r := by
    refine metaItem_inTurn hm ?_
    rw [(Next.of_eq_token hnext').1]
    exact hvs.behind _
  rw [Attribute.arguments, Option.toList_some, List.flatMap_singleton]
  exact hitem.behind _

/-- Documentation has no arguments. -/
theorem docAttribute_arguments {style : AttrStyle} {after : Expectation} {a : Attribute Extent}
    (h : (docAttribute style after).run s = .ok (a, s')) : a.arguments = [] := by
  rw [docAttribute, run_mark_bind] at h
  obtain ⟨t, r, -, h⟩ := run_shift_bind_eq_ok.mp h
  rw [run_mark_bind, run_pure] at h
  obtain ⟨rfl, -⟩ : _ = a ∧ _ := by simpa using h
  rfl

/-- The arguments of attributes stand one behind the other. -/
theorem attributes_inTurn (h : (attributes n).run s = .ok (as, s')) :
    InTurn (as.flatMap Attribute.arguments) s.rest := by
  induction n generalizing s as with
  | zero => simp [attributes] at h
  | succ n ih =>
    rw [attributes, run_peek_bind] at h
    split at h
    · obtain ⟨a, s₁, ha, h⟩ := run_bind_eq_ok.mp h
      obtain ⟨as', s₂, has, h⟩ := run_bind_eq_ok.mp h
      obtain ⟨rfl, rfl⟩ : _ = as ∧ s₂ = s' := by simpa using h
      obtain ⟨new, hnew, -⟩ := takes_of_run (docAttribute .doc Expected.afterAttribute) s
      rw [List.flatMap_cons, docAttribute_arguments ha, (hnew _ _ ha).2]
      exact (ih has).behind _
    · rw [run_mark_bind] at h
      obtain ⟨t, r, hnext, h⟩ := run_shift_bind_eq_ok.mp h
      obtain ⟨a, s₁, ha, h⟩ := run_bind_eq_ok.mp h
      obtain ⟨as', s₂, has, h⟩ := run_bind_eq_ok.mp h
      obtain ⟨rfl, rfl⟩ : _ = as ∧ s₂ = s' := by simpa using h
      rw [List.flatMap_cons, (Next.of_eq_token hnext).1]
      exact (bracketed_inTurn ha (ih has)).behind _
    · obtain ⟨rfl, -⟩ : as = [] ∧ s = s' := by simpa using h
      exact .nil _

/-- The attributes of the body itself come first; the others belong to its first item. -/
theorem bodyAttributes_inTurn {as : List (Attribute Extent) × List (Attribute Extent)}
    (h : (bodyAttributes n).run s = .ok (as, s')) : ArgumentsInTurn as.2 := by
  induction n generalizing s as with
  | zero => simp [bodyAttributes] at h
  | succ n ih =>
    rw [bodyAttributes, run_peek_bind] at h
    split at h
    · obtain ⟨a, s₁, -, h⟩ := run_bind_eq_ok.mp h
      obtain ⟨as', s₂, has, h⟩ := run_bind_eq_ok.mp h
      obtain ⟨rfl, rfl⟩ : _ = as ∧ s₂ = s' := by simpa using h
      exact (ih has :)
    · rw [run_mark_bind] at h
      obtain ⟨t, r, -, h⟩ := run_shift_bind_eq_ok.mp h
      rcases run_optional_bind_eq_ok.mp h with ⟨t', r', -, -, h⟩ | ⟨-, h⟩
      · obtain ⟨a, s₁, -, h⟩ := run_bind_eq_ok.mp h
        obtain ⟨as', s₂, has, h⟩ := run_bind_eq_ok.mp h
        obtain ⟨rfl, rfl⟩ : _ = as ∧ s₂ = s' := by simpa using h
        exact (ih has :)
      · obtain ⟨a, s₁, ha, h⟩ := run_bind_eq_ok.mp h
        obtain ⟨as', s₂, has, h⟩ := run_bind_eq_ok.mp h
        obtain ⟨rfl, rfl⟩ : _ = as ∧ s₂ = s' := by simpa using h
        exact ⟨_, bracketed_inTurn ha (attributes_inTurn has)⟩
    · obtain ⟨as', s₂, has, h⟩ := run_bind_eq_ok.mp h
      obtain ⟨rfl, rfl⟩ : _ = as ∧ s₂ = s' := by simpa using h
      exact ⟨_, attributes_inTurn has⟩

/-- So do those of the attributes of each item, -/
theorem items_inTurn {is : List (Item Extent)} (h : (items as n).run s = .ok (is, s'))
    (has : ArgumentsInTurn as) : ∀ i ∈ is, ArgumentsInTurn i.attrs := by
  induction n generalizing s as is with
  | zero => simp [items] at h
  | succ n ih =>
    rw [items, run_peek_bind] at h
    split at h
    · obtain ⟨t, r, -, h⟩ := run_shift_bind_eq_ok.mp h
      obtain ⟨rfl, -⟩ : is = [] ∧ _ := by simpa using h
      simp
    · obtain ⟨i, s₁, hi, h⟩ := run_bind_eq_ok.mp h
      obtain ⟨as', s₂, has', h⟩ := run_bind_eq_ok.mp h
      obtain ⟨is', s₃, his, h⟩ := run_bind_eq_ok.mp h
      obtain ⟨rfl, rfl⟩ : _ = is ∧ s₃ = s' := by simpa using h
      rw [List.forall_mem_cons, (item_attrs as n).of_run hi]
      exact ⟨has, ih his ⟨_, attributes_inTurn has'⟩⟩

end Grammar

/-- The lists of arguments of an item's attributes stand one behind the other. -/
theorem Source.inTurn_of_implBlock {src : Source} {b : ImplBlock Location}
    (h : src.implBlock = .ok b) : ∀ i ∈ b.items, ArgumentsInTurn i.attrs := by
  obtain ⟨b₀, s', hrun, -, rfl⟩ := exists_run h
  rw [Grammar.implBlock_eq, Reading.run_mark_bind] at hrun
  obtain ⟨attrs, s₁, -, hblock⟩ := Reading.run_bind_eq_ok.mp hrun
  obtain ⟨as, s₂, s₃, has, his⟩ := Grammar.exists_items_of_blockAfter hblock
  intro i hi
  obtain ⟨i₀, hi₀, rfl⟩ := List.mem_map.mp hi
  rw [Item.attrs_map, argumentsInTurn_map]
  exact Grammar.items_inTurn his (Grammar.bodyAttributes_inTurn has) i₀ hi₀

/-- also where the item stands alone. -/
theorem Source.inTurn_of_item {src : Source} {i : Item Location} (h : src.item = .ok i) :
    ArgumentsInTurn i.attrs := by
  obtain ⟨i₀, s', hrun, -, rfl⟩ := exists_run h
  obtain ⟨attrs, s₁, hattrs, hitem⟩ := Reading.run_bind_eq_ok.mp hrun
  rw [Item.attrs_map, argumentsInTurn_map, (Grammar.item_attrs _ _).of_run hitem]
  exact ⟨_, Grammar.attributes_inTurn hattrs⟩

end ShadowImpl
