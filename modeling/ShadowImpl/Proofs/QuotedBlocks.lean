import ShadowImpl.Proofs.Prolonging
import ShadowImpl.Proofs.QuotedHeaders

/-!
# Quoted blocks

A generated block is read from its text, part by part: the attributes, the header, the inner
attributes and the items.
-/

namespace ShadowImpl

open Filter Lexeme Recogniser Reading Grammar

variable {σ τ : Type} {s s' s₁ : Scan} {n : Nat} {e : Expectation} {g y z : List Char}

/-! ## Blocks that have been read -/

/-- The parts of a block have been read in front of a text that closes everything. -/
structure ImplBlock.Quoted (b : ImplBlock σ) : Prop where
  attrs : ∀ a ∈ b.attrs, a.OuterRead
  generics : b.generics.Closed
  trait : ∀ w ∈ b.traitRef, TraitQuoted w
  self : ∃ s s', Phrase.Derives .ty s b.selfTy s' ∧ Shuts s'.rest
  inner : ∀ a ∈ b.innerAttrs, a.InnerRead
  items : ItemsQuoted Expected.body b.items

namespace Grammar

theorem implBlock_quoted {b : ImplBlock Extent} (h : (implBlock n).run s = .ok (b, s'))
    (hn : 16 * s.rest.length + 3 ≤ n) (hs : Shuts s'.rest) : b.Quoted := by
  rw [implBlock_eq, run_mark_bind] at h
  obtain ⟨attrs, s₁, hattrs, h⟩ := run_bind_eq_ok.mp h
  rw [blockAfter_eq] at h
  obtain ⟨d, s₂, hheader, h⟩ := run_bind_eq_ok.mp h
  rw [blockBody] at h
  obtain ⟨⟨inner, outer⟩, s₃, hinner, h⟩ := run_bind_eq_ok.mp h
  obtain ⟨is, s₄, his, h⟩ := run_bind_eq_ok.mp h
  rw [run_textFrom_bind, run_mark_bind] at h
  obtain ⟨rfl, rfl⟩ := of_run_pure h
  have hlen₁ := (Scan.reaches_of_run hattrs).rest_suffix.length_le
  have hlen₂ := (Scan.reaches_of_run hheader).rest_suffix.length_le
  have hlen₃ := (Scan.reaches_of_run hinner).rest_suffix.length_le
  have hs₃ := hs.of_suffix (Scan.reaches_of_run his).rest_suffix
  have hs₂ := hs₃.of_suffix (Scan.reaches_of_run hinner).rest_suffix
  have hs₁ := hs₂.of_suffix (Scan.reaches_of_run hheader).rest_suffix
  obtain ⟨hgenerics, htrait, hself, hbody⟩ := header_quoted hheader (by omega) hs₂
  obtain ⟨hinnerRead, houterRead, hexpected⟩ := bodyAttributes_reads hinner hbody (by omega) hs₃
  exact ⟨attributes_outerRead hattrs (by omega) hs₁, hgenerics, htrait, hself, hinnerRead,
    items_quoted his (by omega) hs (by decide) hexpected houterRead⟩

end Grammar

/-! ## Blocks in print -/

/-- The parts of a block are read as they are printed. -/
structure ImplBlock.Legible (b : ImplBlock σ) : Prop where
  attrs : ∀ a ∈ b.attrs, a.OuterRead
  headed : b.Headed
  inner : ∀ a ∈ b.innerAttrs, a.InnerRead
  items : ItemsRead indentation Expected.body b.items

namespace Text

theorem join_cons (sep x : String) {parts : List String} (h : parts ≠ []) :
    join sep (x :: parts) = x ++ sep ++ join sep parts := by
  obtain ⟨y, parts, rfl⟩ := List.exists_cons_of_ne_nil h
  rfl

theorem join_append_cons (sep x y : String) (front rest : List String) :
    join sep (front ++ x :: y :: rest) = join sep (front ++ (x ++ sep ++ y) :: rest) := by
  induction front with
  | nil => cases rest <;> simp [join, String.append_assoc]
  | cons a front ih =>
    rw [List.cons_append, List.cons_append, join_cons _ _ (by simp), join_cons _ _ (by simp), ih]

end Text

/-- Inner attributes as they are printed together. -/
theorem join_innerAttrs (indent : String) {as : List (Attribute σ)} (h : as ≠ []) :
    '\n' :: (Text.join "\n" (Attribute.renderEach indent as)).toList =
      innerLines indent.toList as := by
  induction as with
  | nil => exact absurd rfl h
  | cons a as ih =>
    by_cases hnil : as = []
    · simp [hnil, Attribute.renderEach, innerLines, Text.join]
    · have hmore : Attribute.renderEach indent as ≠ [] := by simpa [Attribute.renderEach] using hnil
      have hcons : Attribute.renderEach indent (a :: as) = (indent ++ a.text) ::
        Attribute.renderEach indent as := rfl
      have hlines : innerLines indent.toList (a :: as) = '\n' :: (indent.toList ++ a.text.toList) ++
          innerLines indent.toList as := by
        simp [innerLines]
      rw [hcons, Text.join_cons _ _ hmore, hlines, ← ih hnil]
      simp

/-- Items as they are printed together. -/
theorem join_items (indent : String) (front : String) (is : List (Item σ)) :
    (Text.join "\n\n" (front :: is.map (Item.render indent))).toList ++ ['\n', '\x7d'] =
      front.toList ++ itemsTail indent is := by
  induction is generalizing front with
  | nil => simp [Text.join, itemsTail]
  | cons i is ih =>
    have htail : itemsTail indent (i :: is) = '\n' :: '\n' ::
        ((i.render indent).toList ++ itemsTail indent is) := by
      simp [itemsTail]
    rw [List.map_cons, Text.join_cons _ _ (by simp), htail, ← ih]
    simp

theorem isLayout_indentation : IsLayout indentation.toList := by
  simp [IsLayout, indentation, isLayout]

namespace ImplBlock

theorem render_of_parts {b : ImplBlock σ} {p : String} {is : List (Item σ)}
    (h : b.parts = p :: is.map (Item.render indentation)) :
    b.render.toList = attributeLines [] b.attrs ++
      (b.header.toList ++ '\n' :: (p.toList ++ itemsTail indentation is)) := by
  have hempty : b.parts.isEmpty = false := by rw [h]; rfl
  rw [render, hempty, if_neg (by simp), Text.join_append_cons, Text.join_append_cons, h]
  have hjoin := join_renderEach "" b.attrs (b.header ++ "\n" ++
    Text.join "\n\n" (p :: is.map (Item.render indentation)) ++ "\n" ++ "\x7d")
  rw [String.empty_append] at hjoin
  rw [hjoin, ← join_items]
  simp

/-- The text of a block. -/
theorem render_toList (b : ImplBlock σ) : ∃ g, IsLayout g ∧
    (b.innerAttrs ≠ [] → (itemsFrom g indentation b.items).head? = some '\n') ∧
    b.render.toList = attributeLines [] b.attrs ++ (b.header.toList ++
      (innerLines indentation.toList b.innerAttrs ++ itemsFrom g indentation b.items)) := by
  -- An empty line stands behind the inner attributes and between items.
  by_cases hinner : b.innerAttrs = []
  · cases hitems : b.items with
    | nil =>
      have hparts : b.parts = [] := by simp [parts, hinner, hitems]
      have hjoin := join_renderEach "" b.attrs (b.header ++ "\x7d")
      rw [String.empty_append] at hjoin
      refine ⟨[], isLayout_nil, fun hne => absurd hinner hne, ?_⟩
      rw [render, hparts, hinner]
      simpa [innerLines, itemsFrom] using hjoin
    | cons i is =>
      refine ⟨['\n'], isLayout_line isLayout_nil, fun hne => absurd hinner hne, ?_⟩
      have hparts : b.parts = i.render indentation :: is.map (Item.render indentation) := by
        simp [parts, hinner, hitems]
      rw [render_of_parts hparts, hinner]
      simp [innerLines, itemsFrom]
  · have hempty : b.innerAttrs.isEmpty = false := by simpa using hinner
    have hparts : b.parts = Text.join "\n" (Attribute.renderEach indentation b.innerAttrs) ::
        b.items.map (Item.render indentation) := by
      rw [parts, hempty]
      rfl
    refine ⟨if b.items.isEmpty then ['\n'] else ['\n', '\n'], ?_, fun _ => ?_, ?_⟩
    · split <;> simp [IsLayout, isLayout]
    · cases b.items <;> rfl
    · rw [← itemsTail_eq_itemsFrom, ← join_innerAttrs indentation hinner, render_of_parts hparts]
      simp

variable {b : ImplBlock σ}

/-- A header starts with one of its keywords. -/
theorem Headed.header_starts (h : b.Headed) (he : e ∈ [Expected.block, Expected.afterAttribute])
    (hg : IsLayout g) (y : List Char) :
    (Next.of e (g ++ (b.header.toList ++ y))).kind ∈ [Terminal.kwUnsafe, .kwImpl] := by
  obtain ⟨n, hn⟩ := (h.header_readsAs he hg y).exists
  obtain ⟨d, taken, -, hrun⟩ := hn []
  change (Scan.mk [] (g ++ (b.header.toList ++ y)) e).next.kind ∈ _
  rw [Grammar.header] at hrun
  rcases run_optional_bind_eq_ok.mp hrun with ⟨t, r, hnext, ht, -⟩ | ⟨-, hrun⟩
  · simp [hnext, Next.kind, ht]
  · obtain ⟨t, r, hnext, ht, -⟩ := run_token_bind_eq_ok.mp hrun
    simp [hnext, Next.kind, ht]

/-- The body of a block, behind its opening brace. -/
theorem Legible.body_readsAs (h : b.Legible) (hg : IsLayout g)
    (hline : b.innerAttrs ≠ [] → (itemsFrom g indentation b.items).head? = some '\n') :
    ∀ᶠ n in atTop, ∀ attrs first (d : Header), (blockBody attrs first d n).ReadsAs
      (fun c => c.unplaced = { b.unplaced with
        attrs := attrs.map Attribute.unplaced
        isUnsafe := d.isUnsafe
        generics := d.generics
        traitRef := d.traitRef
        selfTy := d.selfTy }) Expected.body
      (innerLines indentation.toList b.innerAttrs ++ itemsFrom g indentation b.items) [] [] := by
  obtain ⟨e, y, hattrs, hitems⟩ := itemsFrom_readsAs h.items hg isLayout_indentation
  have hbody := innerLines_readsAs h.inner isLayout_indentation hline hattrs
  filter_upwards [hbody, hitems] with n hbody hitems attrs first d
  rw [blockBody]
  refine hbody.bind fun p hp => (hitems p.2 hp.2).bind fun is his => .textFrom fun text =>
    .mark fun last => ?_
  refine .pure ?_
  simp only [unplaced, map, mk.injEq, true_and, and_true]
  exact ⟨rfl, hp.1.symm, his.symm⟩

/-- A block is read from its text, except for the defaults of its parameters, which
are not written. -/
theorem Legible.readsAs (h : b.Legible) : ∀ᶠ n in atTop, (implBlock n).ReadsAs
    (fun c => c.unplaced = { b.unplaced with generics := b.generics.withoutDefaults })
    Expected.block b.render.toList [] [] := by
  obtain ⟨g, hg, hline, htext⟩ := b.render_toList
  have he : afterAttributes Expected.block b.attrs ∈ [Expected.block, Expected.afterAttribute] := by
    rw [afterAttributes]
    split <;> decide
  have hgap := isLayout_lineGap isLayout_nil isLayout_nil b.attrs
  have hstarts := h.headed.header_starts he hgap
    (innerLines indentation.toList b.innerAttrs ++ itemsFrom g indentation b.items)
  have hnot : ∀ κ ∈ [Terminal.kwUnsafe, .kwImpl], κ ∉ [Terminal.docComment, .hash] := by decide
  obtain ⟨-, hattrs⟩ := attributes_readsAs (e := Expected.block) (g := []) h.attrs
    (fun _ => by decide) isLayout_nil isLayout_nil (hnot _ hstarts)
  filter_upwards [hattrs, h.headed.header_readsAs he hgap _,
    h.body_readsAs hg hline] with n hattrs hheader hbody
  rw [implBlock_eq, htext]
  refine .mark fun first => hattrs.bind fun as has => ?_
  rw [blockAfter_eq]
  refine hheader.bind fun d hd => (hbody as first d).mono fun c hc => ?_
  rw [hc, hd.1, hd.2.1, hd.2.2.1, hd.2.2.2, ← has]
  rfl

/-! ## Generated blocks -/

/-- What is printed of a block is plain. -/
structure Plain (b : ImplBlock σ) : Prop where
  selfTy : b.selfTy.view.All Label.Plain
  generics : b.generics.withoutDefaults.Plain
  methods : ∀ m ∈ b.methods, m.generics.Plain

/-- What becomes of a block under a directive: it keeps some of its attributes, and its self type
becomes a shadow. -/
structure Becomes (b : ImplBlock σ) (d : Directive) (b' : ImplBlock τ) : Prop where
  attrs : ∀ a ∈ b'.attrs, ∃ a₀ ∈ b.attrs, a₀.unplaced = a.unplaced
  directive : d.Legible
  generics : b'.generics = b.generics.expand d
  traitRef : b'.traitRef = b.traitRef
  selfTy : b.selfTy.shadow? = some b'.selfTy
  inner : ∀ a ∈ b'.innerAttrs, ∃ a₀ ∈ b.innerAttrs, a₀.unplaced = a.unplaced
  items : List.Forall₂ Item.Becomes b.items b'.items

/-- The shadow of a self type that has been read is read in a header. -/
theorem shadow_pathed {a a' : Ty} {clause : Option (List Predicate)} (h : Phrase.Derives .ty s a s')
    (hs : Shuts s'.rest) (hshadow : a.shadow? = some a') (hplain : a'.view.All Label.Plain)
    (hraw : ¬ a.RawNamed) (hclause : Clausal clause) :
    ∃ p, a' = .path p ∧ ∀ y, Pathed p (headerEnd clause y) := by
  cases h with
  | path hp =>
    cases hp with
    | @segments _ _ _ rooted segs hrooted hsegs =>
      rw [Ty.shadow?] at hshadow
      obtain ⟨shadow, hsome, rfl⟩ := Option.map_eq_some_iff.mp hshadow
      refine ⟨_, rfl, fun y => ?_⟩
      obtain ⟨hbreaks, ⟨c, hc, r, hlead⟩, -⟩ := headerEnd_front hclause y
      have hc' : c ∉ ['/', '<', '(', '-', '+', ':'] := by
        simp only [List.mem_cons, List.not_mem_nil, or_false] at hc
        rcases hc with rfl | rfl <;> decide
      have hraw' : NotRaw segs := by
        intro last hlast hprefix
        exact hraw ⟨_, Option.map_eq_some_iff.mpr ⟨last, hlast, rfl⟩, hprefix⟩
      simp only [Ty.view, Path.view, Part.all_node, Part.allEach_cons] at hplain
      exact (hsegs.shadow_segmented hs hsome hraw' hplain.2.1.2
        (.of_lead hs hbreaks hlead hc')).pathed rooted
  | _ => simp [Ty.shadow?] at hshadow

namespace Becomes

variable {b' : ImplBlock τ} {d : Directive}

theorem headed (h : b.Becomes d b') (hb : b.Quoted) (hplain : b'.Plain)
    (hraw : ¬ b.selfTy.RawNamed) : b'.Headed := by
  obtain ⟨s, s', hself, hs⟩ := hb.self
  have hgenerics := hplain.generics
  rw [h.generics] at hgenerics
  have hclausal : Clausal b'.generics.clause := by
    rw [h.generics]
    exact hb.generics.clausal h.directive.names h.directive.literals hgenerics.predicates
  refine ⟨?_, ?_, hclausal, ?_, shadow_pathed hself hs h.selfTy hplain.selfTy hraw hclausal⟩
  · rw [h.generics]
    exact Generics.unbounded_expand _ _
  · rw [h.generics]
    exact hb.generics.param_read_withoutDefault fun p hp => hgenerics.params _
      (List.mem_map_of_mem hp)
  · rw [h.traitRef]
    exact hb.trait

/-- What becomes of a block that has been read is read in print, unless its name is raw. -/
theorem legible (h : b.Becomes d b') (hb : b.Quoted) (hplain : b'.Plain)
    (hraw : ¬ b.selfTy.RawNamed) : b'.Legible where
  attrs a ha := by
    obtain ⟨a₀, ha₀, heq⟩ := h.attrs a ha
    exact (hb.attrs a₀ ha₀).congr heq
  headed := h.headed hb hplain hraw
  inner a ha := by
    obtain ⟨a₀, ha₀, heq⟩ := h.inner a ha
    exact (hb.inner a₀ ha₀).congr heq
  items := hb.items.read isLayout_indentation h.items

end Becomes
end ImplBlock
end ShadowImpl
