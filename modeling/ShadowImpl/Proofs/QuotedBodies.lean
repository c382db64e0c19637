import ShadowImpl.Proofs.QuotedItems
import ShadowImpl.Render

/-!
# Quoted bodies

The body of a generated block has the inner attributes and the items of the block that it is made
from, with empty lines between them. What is expected behind an item is expected where the next
one starts, in both.
-/

namespace ShadowImpl

open Filter Lexeme Recogniser Reading Grammar

variable {σ : Type} {s s' s₁ : Scan} {n : Nat} {as : List (Attribute Extent)}
  {e e' : Expectation} {g x z : List Char} {i : Item σ} {is : List (Item σ)} {indent : String}

/-! ## Printed items -/

theorem join_renderEach (indent : String) (as : List (Attribute σ)) (x : String) :
    (Text.join "\n" (Attribute.renderEach indent as ++ [indent ++ x])).toList =
      indent.toList ++ (attributeLines indent.toList as ++ x.toList) := by
  induction as with
  | nil => simp [Attribute.renderEach, attributeLines, Text.join]
  | cons a as ih =>
    obtain ⟨y, ys, hys⟩ : ∃ y ys, Attribute.renderEach indent as ++ [indent ++ x] = y :: ys :=
      List.exists_cons_of_ne_nil (by simp)
    have hcons : Attribute.renderEach indent (a :: as) ++ [indent ++ x] =
        (indent ++ a.text) :: y :: ys := by
      rw [← hys]
      rfl
    rw [hys] at ih
    rw [hcons, join_cons_cons, ih]
    simp [attributeLines]

/-- The text of an item behind its attributes. -/
def Item.chars (indent : String) : Item σ → List Char
  | method m => m.chars indent
  | verbatim v => v.text.toList

theorem Item.render_verbatim (v : VerbatimItem σ) : ((Item.verbatim v).render indent).toList =
    indent.toList ++ (attributeLines indent.toList v.attrs ++ v.text.toList) :=
  join_renderEach indent v.attrs v.text

theorem Method.Quoted.render_eq {m : Method σ} (h : m.Quoted e') :
    ((Item.method m).render indent).toList = indent.toList ++
    (attributeLines indent.toList m.attrs ++ m.chars indent) := by
  have htext : m.signature indent ++ m.ending indent = indent ++ String.ofList
      (m.chars indent) := by
    apply String.toList_injective
    rw [Method.signature, Method.chars]
    cases hret : m.ret with
    | none => simp [Method.retChars]
    | some w => simp [Method.retChars, (h.ret w hret).1]
  rw [Item.render, Method.render, htext, join_renderEach, String.toList_ofList]

/-! ## Items that are read again -/

/-- What can be expected where an item may start or the body may end. -/
def bodyPlaces : List Expectation :=
  [Expected.body, Expected.afterItem, Expected.anything]

theorem finds_body :
    ∀ e ∈ bodyPlaces, finds e .rbrace = true ∧ .docComment ∈ e ∧ finds e .hash = true := by
  decide

/-- Items, the first of which is read where `e` is expected, and each of which is read in print. -/
inductive ItemsRead (indent : String) : Expectation → List (Item σ) → Prop where
  | nil {e : Expectation} (he : e ∈ bodyPlaces) : ItemsRead indent e []
  | cons {e e' : Expectation} {i : Item σ} {is : List (Item σ)} (he : e ∈ bodyPlaces)
      (hattrs : ∀ a ∈ i.attrs, a.OuterRead)
      (hrender : (i.render indent).toList =
        indent.toList ++ (attributeLines indent.toList i.attrs ++ i.chars indent))
      (hi : i.ReadFrom (i.chars indent) (afterAttributes e i.attrs) e')
      (his : ItemsRead indent e' is) : ItemsRead indent e (i :: is)

/-- The items behind an empty line each, and the end of the body. -/
def itemsTail (indent : String) (is : List (Item σ)) : List Char :=
  is.flatMap (fun i => '\n' :: '\n' :: (i.render indent).toList) ++ ['\n', '\x7d']

theorem Item.unplaced_withAttrs (i : Item σ) (attrs : List (Attribute σ)) :
    (i.withAttrs attrs).unplaced = i.unplaced.withAttrs (attrs.map Attribute.unplaced) := by
  cases i <;> rfl

/-- An item that was read without its attributes. -/
theorem Item.unplaced_eq_withAttrs {j : Item Extent} (hj : (i.withAttrs []).unplaced = j.unplaced)
    (has : i.attrs.map Attribute.unplaced = as.map Attribute.unplaced) :
    i.unplaced = (j.withAttrs as).unplaced := by
  rw [unplaced_withAttrs, ← hj, unplaced_withAttrs, withAttrs_withAttrs, ← has]
  cases i <;> rfl

namespace Grammar

theorem items_nil (hs : s.next = .token ⟨.rbrace, g, z⟩ x) :
    (items [] (n + 1)).run s = .ok ([], ⟨⟨.rbrace, g, z⟩ :: s.taken, x, []⟩) := by
  have hkind : s.next.kind = .rbrace := by rw [hs, Next.kind]
  rw [items, run_peek_bind, hkind]
  exact run_shift_bind_eq_ok.mpr ⟨_, _, hs, rfl⟩

/-- An item with others behind it, once its attributes have been read. -/
theorem items_readsAs
    (hi : ∀ᶠ n in atTop, (item [] n).ReadsAs (fun j => (i.withAttrs []).unplaced = j.unplaced)
      e x e' z) (hkind : (Next.of e x).kind ∈ itemStarts)
    (his : ∀ᶠ n in atTop,
      (itemsLeft n).ReadsAs (fun js => is.map Item.unplaced = js.map Item.unplaced)
      e' z [] []) : ∀ᶠ n in atTop, ∀ as : List (Attribute Extent),
        i.attrs.map Attribute.unplaced = as.map Attribute.unplaced → (items as n).ReadsAs
          (fun js => (i :: is).map Item.unplaced = js.map Item.unplaced) e x [] [] := by
  refine eventually_of_succ ?_
  filter_upwards [hi, his] with n hi his as has taken
  obtain ⟨j, taken₁, hj, hrun⟩ := hi taken
  obtain ⟨js, taken₂, hjs, hrun'⟩ := his taken₁
  obtain ⟨left, s₂, hleft, hrun'⟩ := run_bind_eq_ok.mp hrun'
  have hitem : (item as n).run ⟨taken, x, e⟩ = .ok (j.withAttrs as, ⟨taken₁, z, e'⟩) := by
    rw [item_withAttrs, run_bind_of_ok hrun]
    rfl
  have hne : (Scan.mk taken x e).next.kind ≠ .rbrace :=
    ne_of_mem_of_not_mem hkind (by decide)
  refine ⟨j.withAttrs as :: js, taken₂, ?_,
    items_cons_iff.mpr ⟨by simp [hne], _, left, s₂, hitem, hleft, hrun'⟩⟩
  change _ :: _ = _ :: _
  rw [hjs, Item.unplaced_eq_withAttrs hj has]

/-- The same with the text that stands behind the item. -/
theorem items_cons_readsAs (hg : IsLayout g) (hindent : IsLayout indent.toList)
    (hi : i.ReadFrom (i.chars indent) (afterAttributes e i.attrs) e')
    (hkind : (Next.of e' (itemsTail indent is)).kind ≠ .semi)
    (his : ∀ᶠ n in atTop,
      (itemsLeft n).ReadsAs (fun js => is.map Item.unplaced = js.map Item.unplaced)
      e' (itemsTail indent is) [] []) :
    (Next.of (afterAttributes e i.attrs)
      (lineGap g indent.toList i.attrs ++ (i.chars indent ++ itemsTail indent is))).kind ∈
        itemStarts ∧
    ∀ᶠ n in atTop, ∀ as : List (Attribute Extent),
      i.attrs.map Attribute.unplaced = as.map Attribute.unplaced → (items as n).ReadsAs
        (fun js => (i :: is).map Item.unplaced = js.map Item.unplaced) (afterAttributes e i.attrs)
        (lineGap g indent.toList i.attrs ++ (i.chars indent ++ itemsTail indent is)) [] [] := by
  have hline : (itemsTail indent is).head? = some '\n' := by
    cases is <;> rfl
  obtain ⟨hstarts, hreads⟩ := hi _ rfl _ (isLayout_lineGap hg hindent i.attrs) _ ⟨hline, hkind⟩
  exact ⟨hstarts, items_readsAs hreads hstarts his⟩

theorem itemsLeft_readsAs (h : ItemsRead indent e is) (hindent : IsLayout indent.toList) :
    (Next.of e (itemsTail indent is)).kind ≠ .semi ∧ ∀ᶠ n in atTop,
      (itemsLeft n).ReadsAs (fun js => is.map Item.unplaced = js.map Item.unplaced) e
        (itemsTail indent is) [] [] := by
  induction h with
  | @nil e he =>
    have hbrace : Next.of e ('\n' :: ['\x7d']) = .token ⟨.rbrace, ['\n'], ['\x7d']⟩ [] :=
      of_symbol (κ := .rbrace) (g := ['\n']) (z := []) (finds_body e he).1
        (isLayout_line isLayout_nil)
    have htail : itemsTail indent ([] : List (Item σ)) = '\n' :: ['\x7d'] := rfl
    rw [htail]
    refine ⟨by rw [hbrace]; decide, eventually_of_succ (.of_forall fun n taken => ?_)⟩
    refine ⟨[], _, rfl, run_bind_eq_ok.mpr ⟨[], _, attributes_nil_iff.mpr ⟨?_, rfl⟩,
      items_nil hbrace⟩⟩
    rw [Scan.next, hbrace]
    decide
  | @cons e e' i is he hattrs hrender hi _ ih =>
    have hgap : IsLayout ('\n' :: '\n' :: indent.toList) := isLayout_line (isLayout_line hindent)
    obtain ⟨hstarts, hitems⟩ := items_cons_readsAs hgap hindent hi ih.1 ih.2
    -- The item begins with its attributes, or with something else than one.
    have hnot : ∀ κ ∈ itemStarts, κ ∉ [Terminal.docComment, .hash] ∧ κ ≠ .semi := by decide
    obtain ⟨hkind, hreads⟩ := attributes_readsAs (e := e) hattrs
      (fun _ => (finds_body e he).2) hgap hindent (hnot _ hstarts).1
    have htext : itemsTail indent (i :: is) = '\n' :: '\n' :: indent.toList ++
        (attributeLines indent.toList i.attrs ++ (i.chars indent ++ itemsTail indent is)) := by
      simp [itemsTail, hrender]
    rw [htext]
    refine ⟨?_, ?_⟩
    · by_cases hnil : i.attrs = []
      · rw [hnil] at hstarts ⊢
        exact (hnot _ hstarts).2
      · exact ne_of_mem_of_not_mem (hkind hnil) (by decide)
    · filter_upwards [hreads, hitems] with n hreads hitems
      exact hreads.bind fun as has => hitems as has

/-- Items in print, from the first one on. -/
def itemsFrom (g : List Char) (indent : String) : List (Item σ) → List Char
  | [] => g ++ ['\x7d']
  | i :: is => g ++ ((i.render indent).toList ++ itemsTail indent is)

theorem itemsTail_eq_itemsFrom (indent : String) (is : List (Item σ)) :
    itemsTail indent is = itemsFrom (if is.isEmpty then ['\n'] else ['\n', '\n']) indent is := by
  cases is with
  | nil => rfl
  | cons i is => simp [itemsTail, itemsFrom]

/-- The attributes of the first item. -/
def firstAttrs (is : List (Item σ)) : List (Attribute σ) :=
  (is.head?.map Item.attrs).getD []

/-- The items at the start of a body. -/
theorem itemsFrom_readsAs (h : ItemsRead indent Expected.body is) (hg : IsLayout g)
    (hindent : IsLayout indent.toList) : ∃ e y, (∀ᶠ n in atTop, (bodyAttributes n).ReadsAs
        (fun p => p.1 = [] ∧ (firstAttrs is).map Attribute.unplaced = p.2.map Attribute.unplaced)
        Expected.body (itemsFrom g indent is) e y) ∧
      ∀ᶠ n in atTop, ∀ as : List (Attribute Extent),
        (firstAttrs is).map Attribute.unplaced = as.map Attribute.unplaced → (items as n).ReadsAs
          (fun js => is.map Item.unplaced = js.map Item.unplaced) e y [] [] := by
  cases h with
  | nil he =>
    have hbrace : Next.of Expected.body (g ++ ['\x7d']) = .token ⟨.rbrace, g, ['\x7d']⟩ [] :=
      of_symbol (κ := .rbrace) (z := []) (by decide) hg
    have hnone : ∀ a ∈ ([] : List (Attribute σ)), a.OuterRead := by simp
    have hreads := bodyAttributes_readsAs (z := ['\x7d']) hnone hg isLayout_nil (by
        change (Next.of Expected.body (g ++ ['\x7d'])).kind ∉ _
        rw [hbrace]
        simp [Next.kind])
    refine ⟨_, _, hreads, eventually_of_succ (.of_forall fun n as has taken => ?_)⟩
    obtain rfl : as = [] := by simpa [firstAttrs] using has.symm
    exact ⟨[], _, rfl, items_nil hbrace⟩
  | @cons _ e' i is he hattrs hrender hi his =>
    have hgap : IsLayout (g ++ indent.toList) := by
      simpa [IsLayout, or_imp, forall_and] using ⟨hg, hindent⟩
    obtain ⟨hkind, hleft⟩ := itemsLeft_readsAs his hindent
    obtain ⟨hstarts, hitems⟩ := items_cons_readsAs hgap hindent hi hkind hleft
    have hnot : ∀ κ ∈ itemStarts, κ ∉ [Terminal.docComment, .hash, .innerDoc] := by decide
    have hreads := bodyAttributes_readsAs hattrs hgap hindent (hnot _ hstarts)
    have htext : itemsFrom g indent (i :: is) = g ++ indent.toList ++
        (attributeLines indent.toList i.attrs ++ (i.chars indent ++ itemsTail indent is)) := by
      simp [itemsFrom, hrender]
    rw [htext]
    exact ⟨_, _, hreads, hitems⟩

end Grammar

/-! ## Items that have been read -/

/-- Items, the first of which has been read where `e` is expected. The texts of each
are quotations. -/
inductive ItemsQuoted : Expectation → List (Item σ) → Prop where
  | nil {e : Expectation} (he : e ∈ bodyPlaces) : ItemsQuoted e []
  | method {e e' : Expectation} {m : Method σ} {is : List (Item σ)} (he : e ∈ bodyPlaces)
      (hattrs : ∀ a ∈ m.attrs, a.OuterRead) (hm : m.Quoted e') (hgenerics : m.generics.Closed)
      (his : ItemsQuoted e' is) : ItemsQuoted e (.method m :: is)
  | verbatim {e e' : Expectation} {v : VerbatimItem σ} {is : List (Item σ)} (he : e ∈ bodyPlaces)
      (hattrs : ∀ a ∈ v.attrs, a.OuterRead)
      (hv : (Item.verbatim v).ReadFrom v.text.toList (afterAttributes e v.attrs) e')
      (his : ItemsQuoted e' is) : ItemsQuoted e (.verbatim v :: is)

namespace Grammar

theorem afterAttributes_mem (he : e ∈ bodyPlaces) (as : List (Attribute σ)) :
    afterAttributes e as ∈ itemPlaces := by
  have hall : ∀ e ∈ bodyPlaces, e ∈ itemPlaces := by decide
  rw [afterAttributes]
  split
  · exact hall e he
  · decide

/-- No semicolon stands behind an item. -/
theorem itemsLeft_kind_ne {is : List (Item Extent)} (h : (itemsLeft n).run s = .ok (is, s')) :
    s.next.kind ≠ .semi := by
  obtain ⟨left, s₁, hleft, hitems⟩ := run_bind_eq_ok.mp h
  obtain ⟨n, rfl⟩ : ∃ k, n = k + 1 := by
    cases n with
    | zero => simp [attributes] at hleft
    | succ n => exact ⟨n, rfl⟩
  intro hsemi
  cases left with
  | cons a left =>
    obtain ⟨s₂, ha, -⟩ := attributes_cons_iff.mp hleft
    rcases oneAttribute_eq_ok.mp ha with ⟨hkind, -⟩ | ⟨hkind, -⟩ <;> simp [hkind] at hsemi
  | nil =>
    obtain ⟨-, rfl⟩ := attributes_nil_iff.mp hleft
    rw [items, run_peek_bind] at hitems
    split at hitems
    · rename_i hclose
      simp [hsemi] at hclose
    · obtain ⟨i, s₂, hi, -⟩ := run_bind_eq_ok.mp hitems
      exact ne_of_mem_of_not_mem (item_starts hi) (by decide) hsemi

theorem items_quoted {is : List (Item Extent)} (h : (items as n).run s = .ok (is, s'))
    (hn : 16 * s.rest.length + 2 ≤ n) (hs : Shuts s'.rest) (he : e ∈ bodyPlaces)
    (hexpected : s.expected = afterAttributes e as) (hattrs : ∀ a ∈ as, a.OuterRead) :
    ItemsQuoted e is := by
  induction is generalizing n s as e with
  | nil => exact .nil he
  | cons i is ih =>
    obtain ⟨n, rfl⟩ : ∃ k, n = k + 1 := ⟨n - 1, by omega⟩
    obtain ⟨-, s₁, left, s₂, hi, hleft, his⟩ := items_cons_iff.mp h
    have hreach := Scan.reaches_of_run hi
    have hlt := Advances.lt_of_run (advances_item as n) hi
    have hlen := hreach.rest_lt hlt
    have hlen' := (Scan.reaches_of_run hleft).rest_suffix.length_le
    have hs₂ := hs.of_suffix (Scan.reaches_of_run his).rest_suffix
    have hs₁ := hs₂.of_suffix (Scan.reaches_of_run hleft).rest_suffix
    have hsemi := itemsLeft_kind_ne (run_bind_eq_ok.mpr ⟨left, s₂, hleft, his⟩)
    -- Behind an item an item may stand again.
    have he₁ : s₁.expected ∈ bodyPlaces := by
      have hcloses : Closes behindItem [] false (item as n) := closes_item (by simp) n
      have hmem := hcloses.expected_mem (by simp) hi
      have hall : ∀ e ∈ behindItem, e ∈ bodyPlaces := by decide
      exact hall _ hmem
    have hrest := ih his (by omega) he₁ (attributes_expected hleft)
      (attributes_outerRead hleft (by omega) hs₂)
    have hplace : s.expected ∈ itemPlaces := hexpected ▸ afterAttributes_mem he as
    cases i with
    | method m =>
      obtain ⟨rfl, hm, hgenerics⟩ := method_quoted hi (by omega) hs₁ hplace
      exact .method he hattrs hm hgenerics hrest
    | verbatim v =>
      obtain ⟨rfl, hv⟩ := verbatim_readFrom hi (by omega) hs₁ hsemi
      exact .verbatim he hattrs (hexpected ▸ hv) hrest

end Grammar

/-! ## Items of a generated block -/

variable {τ : Type}

theorem Attribute.OuterRead.congr {a : Attribute σ} {b : Attribute τ} (h : a.OuterRead)
    (hab : a.unplaced = b.unplaced) : b.OuterRead := by
  have htext : a.text = b.text := congrArg Attribute.text hab
  rwa [OuterRead, hab, htext] at h

theorem Attribute.InnerRead.congr {a : Attribute σ} {b : Attribute τ} (h : a.InnerRead)
    (hab : a.unplaced = b.unplaced) : b.InnerRead := by
  have htext : a.text = b.text := congrArg Attribute.text hab
  rwa [InnerRead, hab, htext] at h

/-- What becomes of an item in a generated block: a method keeps its texts and some of its
attributes, and its generics are those under a directive. -/
inductive Item.Becomes : Item σ → Item τ → Prop where
  | verbatim {v : VerbatimItem σ} {v' : VerbatimItem τ}
      (h : (Item.verbatim v).unplaced = (Item.verbatim v').unplaced) :
      Becomes (.verbatim v) (.verbatim v')
  | method {m : Method σ} {m' : Method τ} {d : Directive}
      (hname : m'.name = m.name) (hhead : m'.head = m.head) (hparams : m'.params = m.params)
      (hret : m'.ret = m.ret) (hbody : m'.body = m.body)
      (hattrs : ∀ a ∈ m'.attrs, ∃ a₀ ∈ m.attrs, a₀.unplaced = a.unplaced)
      (hd : d.Legible) (hgenerics : m'.generics = m.generics.expand d) (hplain : m'.generics.Plain)
      (huncut : ∀ p ∈ m'.generics.predicates, Text.Uncut p.print) : Becomes (.method m) (.method m')

theorem Method.Quoted.congr {m : Method σ} {m' : Method τ} (h : m.Quoted e')
    (hname : m'.name = m.name) (hhead : m'.head = m.head) (hparams : m'.params = m.params)
    (hret : m'.ret = m.ret) (hbody : m'.body = m.body) : m'.Quoted e' where
  front := by
    rw [hname, hhead]
    exact h.front
  opened := by
    rw [hparams]
    exact h.opened
  params := by
    rw [hparams]
    exact h.params
  ret := by
    rw [hret]
    exact h.ret
  body := by
    rw [hbody]
    exact h.body

/-- What becomes of items that have been read is read in print. -/
theorem ItemsQuoted.read {js : List (Item τ)} (h : ItemsQuoted e is)
    (hindent : IsLayout indent.toList) (hjs : List.Forall₂ Item.Becomes is js) :
    ItemsRead indent e js := by
  induction h generalizing js with
  | nil he =>
    cases hjs
    exact .nil he
  | @method e e' m is he hattrs hm hgenerics _ ih =>
    cases hjs with
    | cons hj hjs =>
      cases hj with
      | @method _ m' d hname hhead hparams hret hbody hkept hd hexpand hplain huncut =>
        have hquoted := hm.congr hname hhead hparams hret hbody
        -- The predicates of a method are those of the item, projected, and those that its marker
        -- adds.
        have hscoped : m'.Scoped := by
          refine ⟨?_, ?_, huncut⟩ <;> rw [hexpand] at hplain ⊢
          · exact hgenerics.param_read hplain.params
          · exact hgenerics.clausal hd.names hd.literals hplain.predicates
        refine .cons he ?_ hquoted.render_eq
          (hquoted.readFrom hscoped (afterAttributes_mem he _) hindent) (ih hjs)
        intro a ha
        obtain ⟨a₀, ha₀, heq⟩ := hkept a ha
        exact (hattrs a₀ ha₀).congr heq
  | @verbatim e e' v is he hattrs hv _ ih =>
    cases hjs with
    | cons hj hjs =>
      cases hj with
      | @verbatim _ v' h =>
        obtain ⟨kind, as, text, place⟩ := v
        obtain ⟨kind', as', text', place'⟩ := v'
        obtain ⟨rfl, has, rfl⟩ : kind = kind' ∧ as.map (Attribute.map fun _ => ()) =
            as'.map (Attribute.map fun _ => ()) ∧ text = text' := by
          simpa [Item.unplaced, Item.map, VerbatimItem.map] using h
        -- Places are all that differs.
        have hafter : afterAttributes e as = afterAttributes e as' := by
          have hempty : as.isEmpty = as'.isEmpty := by simpa using congrArg List.isEmpty has
          rw [afterAttributes, afterAttributes, hempty]
        refine .cons he (fun a ha => ?_) (Item.render_verbatim _) ?_ (ih hjs)
        · have hmem : a.unplaced ∈ as'.map (Attribute.map fun _ => ()) := List.mem_map_of_mem ha
          rw [← has] at hmem
          obtain ⟨a₀, ha₀, heq⟩ := List.mem_map.mp hmem
          exact (hattrs a₀ ha₀).congr heq
        · rw [show (Item.verbatim ⟨kind, as', text, place'⟩ : Item τ).attrs =
            as' from rfl, ← hafter]
          exact hv

end ShadowImpl
