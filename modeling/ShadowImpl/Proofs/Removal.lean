import ShadowImpl.Proofs.Replay

/-!
# A text without one of its attributes

When an attribute is removed from a text, the gap in front of it and the gap behind it meet. What is
left of the two is passed over as before, and nothing that stands in front is read in another way.
-/

namespace ShadowImpl

open Lexeme Recogniser

variable {e : Expectation} {x y z g gap w : List Char}

/-! ## Lines -/

namespace Text

theorem beforeLastLine_append_lastLine (s : List Char) : beforeLastLine s ++ lastLine s = s := by
  rw [beforeLastLine, lastLine, ← List.reverse_append, List.takeWhile_append_dropWhile,
    List.reverse_reverse]

theorem not_mem_lastLine (s : List Char) : '\n' ∉ lastLine s := by
  intro h
  have := List.mem_takeWhile_imp (List.mem_reverse.mp h)
  simp at this

end Text

/-! ## The ends of texts -/

/-- The last character of a gap is layout, or the end of a comment. -/
theorem Gap.getLast (h : Gap e g) {c : Char} (hc : g.getLast? = some c) :
    isLayout c = true ∨ c = '/' := by
  induction h with
  | nil => simp at hc
  | @layout d g hd _ ih =>
    cases g with
    | nil =>
      obtain rfl : d = c := by simpa using hc
      exact .inl hd
    | cons d' g => exact ih (by simpa using hc)
  | line _ _ ih =>
    rw [List.getLast?_append_of_ne_nil _ (by simp)] at hc
    exact ih hc
  | @block d g _ hend _ ih =>
    cases g with
    | nil =>
      rw [List.append_nil, hend] at hc
      exact .inr (Option.some.inj hc).symm
    | cons d' g =>
      rw [List.getLast?_append_of_ne_nil _ (by simp)] at hc
      exact ih hc

/-- A mark in two texts lies in one of them, unless the first one ends like the start of a mark. -/
theorem Mark.infix_append_of_last {m : Mark} {x z : List Char}
    (hx : ∀ c ∈ x.getLast?, c ∉ ['*', '"', '#']) (h : m.text <:+: x ++ z) :
    m.text <:+: x ∨ m.text <:+: z := by
  have hstart : ∀ l₁ l₂, l₁ ≠ [] → l₂ ≠ [] → m.text = l₁ ++ l₂ →
      ∃ c ∈ l₁.getLast?, c ∈ ['*', '"', '#'] := by
    intro l₁ l₂ h₁ h₂ heq
    rcases l₁ with _ | ⟨a, _ | ⟨b, _ | ⟨c, l₁⟩⟩⟩
    · exact absurd rfl h₁
    · cases m <;> simp_all [Mark.text] <;> grind
    · cases m <;> simp_all [Mark.text]
      grind
    · cases m <;> simp_all [Mark.text]
  rcases List.infix_append_iff_ne_nil.mp h with h | h | ⟨l₁, l₂, h₁, h₂, heq, ⟨p, rfl⟩, -⟩
  · exact .inl h
  · exact .inr h
  · obtain ⟨c, hc, hmem⟩ := hstart l₁ l₂ h₁ h₂ heq
    rw [List.getLast?_append_of_ne_nil _ h₁] at hx
    exact absurd hmem (hx c hc)

/-- How attributes end in front of a gap: with a bracket or with a comment, which may be over with
its line only. -/
def EndsInAttribute (x gap : List Char) : Prop :=
  x = [] ∨ x.getLast? = some ']' ∨ x.getLast? = some '/' ∨ gap.head? = some '\n'

/-! ## What is removed -/

/-- The gaps that are left of `gap` and `g`. -/
structure GapsLeft (e : Expectation) (gap g gap' g' : List Char) : Prop where
  front : Gap e gap'
  cut : ∃ ws, gap = gap' ++ ws ∧ '\n' ∉ ws
  back : ∃ u, g = u ++ g' ∧ ∀ c ∈ u, isLayout c = true

/-- The spaces and tabs in front of a text are all in the gap before it. -/
theorem dropWhile_trailing (g : List Char) {c : Char} {r : List Char} (hc : isLayout c = false) :
    ∃ u g₀, g = u ++ g₀ ∧ (∀ d ∈ u, isLayout d = true) ∧
      (g ++ c :: r).dropWhile Text.isTrailing = g₀ ++ c :: r := by
  have htrailing : ∀ d, Text.isTrailing d = true → isLayout d = true := by
    intro d hd
    simp only [Text.isTrailing, Bool.or_eq_true, beq_iff_eq] at hd
    rcases hd with rfl | rfl <;> rfl
  refine ⟨g.takeWhile Text.isTrailing, g.dropWhile Text.isTrailing,
    List.takeWhile_append_dropWhile.symm, fun d hd => htrailing d (List.mem_takeWhile_imp hd), ?_⟩
  have hc' : Text.isTrailing c = false := by
    by_contra h
    simp [htrailing c (by simpa using h)] at hc
  rw [List.dropWhile_append]
  split
  · rename_i hg
    rw [List.isEmpty_iff.mp hg, List.dropWhile_cons_of_neg (by simp [hc'])]
    rfl
  · rfl

/-- A last line that is blank is layout at the end of the gap. -/
theorem trim_lastLine (hx : EndsInAttribute x gap) (hgap : Gap e gap)
    (hblank : Text.allBlank (Text.lastLine (x ++ gap)) = true) :
    ∃ gap', Gap e gap' ∧ (∃ ws, gap = gap' ++ ws ∧ '\n' ∉ ws) ∧
      Text.beforeLastLine (x ++ gap) = x ++ gap' := by
  have hline := Text.not_mem_lastLine (x ++ gap)
  have hsplit := Text.beforeLastLine_append_lastLine (x ++ gap)
  generalize Text.lastLine (x ++ gap) = ws at hblank hline hsplit
  generalize Text.beforeLastLine (x ++ gap) = before at hsplit
  have hmem : ∀ c ∈ ws, Text.isBlank c = true := List.all_eq_true.mp hblank
  have hcut : ∃ gap', gap = gap' ++ ws ∧ before = x ++ gap' := by
    rcases List.append_eq_append_iff.mp hsplit with ⟨a, rfl, rfl⟩ | ⟨a, rfl, rfl⟩
    · -- The line starts in front of the gap, but the text there does not end in a blank.
      rcases List.eq_nil_or_concat a with rfl | ⟨a, c, rfl⟩
      · exact ⟨[], by simp, by simp⟩
      · have hc : Text.isBlank c = true := hmem c (by simp)
        have hlast : (before ++ a.concat c).getLast? = some c := by simp
        rcases hx with hx | hx | hx | hx
        · simp at hx
        · obtain rfl : c = ']' := Option.some.inj (hlast.symm.trans hx)
          simp [Text.isBlank] at hc
        · obtain rfl : c = '/' := Option.some.inj (hlast.symm.trans hx)
          simp [Text.isBlank] at hc
        · exact absurd (List.mem_append_right _ (List.mem_of_head? hx)) hline
    · exact ⟨a, rfl, rfl⟩
  obtain ⟨gap', rfl, rfl⟩ := hcut
  have hslash : '/' ∉ ws := fun h => by simpa [Text.isBlank] using hmem '/' h
  exact ⟨gap', (hgap.trim hline hslash).1, ⟨ws, rfl, hline⟩, rfl⟩

/-- An attribute that is removed takes with it the layout behind it, and may take the layout in
front of it and its line end. -/
theorem removeAttribute_eq {a : List Char} (hx : EndsInAttribute x gap) (hgap : Gap e gap)
    (hw : ∃ c r, w = c :: r ∧ isLayout c = false) :
    ∃ gap' g', GapsLeft e gap g gap' g' ∧
      Text.removeAttribute (x ++ (gap ++ (a ++ (g ++ w)))) (x ++ gap).length
        (x ++ gap ++ a).length = x ++ (gap' ++ (g' ++ w)) := by
  obtain ⟨c, r, rfl, hc⟩ := hw
  have hbefore : (x ++ (gap ++ (a ++ (g ++ c :: r)))).take (x ++ gap).length = x ++ gap := by
    rw [← List.append_assoc, List.take_left]
  have hafter : (x ++ (gap ++ (a ++ (g ++ c :: r)))).drop (x ++ gap ++ a).length = g ++ c :: r := by
    rw [← List.append_assoc x, ← List.append_assoc (x ++ gap), List.drop_left]
  obtain ⟨u, g₀, rfl, hu, hdrop⟩ := dropWhile_trailing g hc (r := r)
  simp only [Text.removeAttribute, hbefore, hafter, hdrop]
  split
  · rename_i hline
    obtain ⟨hblank, hend⟩ := Bool.and_eq_true_iff.mp hline
    obtain ⟨gap', hgap', hcut, hbl⟩ := trim_lastLine hx hgap hblank
    obtain ⟨g₁, rfl⟩ : ∃ g₁, g₀ = '\n' :: g₁ := by
      cases g₀ with
      | nil =>
        obtain rfl : c = '\n' := by simpa [Text.endsLine] using hend
        simp [isLayout] at hc
      | cons d g₁ => exact ⟨g₁, by simpa [Text.endsLine] using hend⟩
    refine ⟨gap', g₁, ⟨hgap', hcut, u ++ ['\n'], by simp, ?_⟩, ?_⟩
    · simp only [List.mem_append, List.mem_singleton]
      rintro d (hd | rfl)
      · exact hu d hd
      · rfl
    · rw [hbl, List.cons_append, List.drop_one, List.tail_cons, List.append_assoc]
  · exact ⟨gap, g₀, ⟨hgap, ⟨[], by simp, by simp⟩, u, rfl, hu⟩, List.append_assoc ..⟩

namespace GapsLeft

variable {gap' g' a : List Char}

theorem back_gap (h : GapsLeft e gap g gap' g') {e' : Expectation} (hg : Gap e' g) : Gap e' g' := by
  obtain ⟨u, rfl, hu⟩ := h.back
  exact hg.of_layout_append hu

theorem length_le (h : GapsLeft e gap g gap' g') :
    gap'.length + g'.length ≤ gap.length + g.length := by
  obtain ⟨ws, rfl, -⟩ := h.cut
  obtain ⟨u, rfl, -⟩ := h.back
  rw [List.length_append, List.length_append]
  omega

/-- A line end in front stays there. -/
theorem head_eq (h : GapsLeft e gap g gap' g') (hgap : gap.head? = some '\n') :
    gap'.head? = some '\n' := by
  obtain ⟨ws, rfl, hws⟩ := h.cut
  cases gap' with
  | nil => exact absurd (List.mem_of_head? hgap) hws
  | cons c gap' => exact hgap

/-- The end of the attributes in front is no start of a mark. -/
theorem last_not_mem (h : GapsLeft e gap g gap' g') (hx : EndsInAttribute x gap) (hy : y <:+ x) :
    ∀ c ∈ (']' :: (y ++ gap')).getLast?, c ∉ ['*', '"', '#'] := by
  intro c hc
  have hlayout : isLayout c = true → c ∉ ['*', '"', '#'] := by
    intro hlayout hmem
    simp only [List.mem_cons, List.not_mem_nil, or_false] at hmem
    rcases hmem with rfl | rfl | rfl <;> simp [isLayout] at hlayout
  by_cases hgap' : gap' = []
  · -- The gap is gone, so the attributes end in a bracket or in a slash.
    subst hgap'
    rcases List.eq_nil_or_concat y with rfl | ⟨y, d, rfl⟩
    · obtain rfl : ']' = c := by simpa using hc
      decide
    · rw [List.append_nil, List.concat_eq_append, ← List.cons_append, List.getLast?_concat] at hc
      obtain rfl : d = c := Option.some.inj hc
      obtain ⟨p, rfl⟩ := hy
      have hlast : (p ++ y.concat d).getLast? = some d := by simp
      rcases hx with hx | hx | hx | hx
      · simp at hx
      · obtain rfl : d = ']' := Option.some.inj (hlast.symm.trans hx)
        decide
      · obtain rfl : d = '/' := Option.some.inj (hlast.symm.trans hx)
        decide
      · simpa using h.head_eq hx
  · rw [← List.cons_append, List.getLast?_append_of_ne_nil _ hgap'] at hc
    rcases h.front.getLast hc with hc | rfl
    · exact hlayout hc
    · decide

/-- Without the attribute, nothing that stands in front is read in another way. -/
theorem mayReplace (h : GapsLeft e gap g gap' g') (hx : EndsInAttribute x gap)
    (ha : ∃ c r, a = c :: r ∧ c ≠ '\n') (hy : y <:+ x) :
    MayReplace (y ++ (gap ++ (a ++ (g ++ w)))) (y ++ (gap' ++ (g' ++ w))) where
  closes m hm := by
    rw [← List.append_assoc, ← List.cons_append] at hm
    rcases Mark.infix_append_of_last (h.last_not_mem hx hy) hm with hm | hm
    · obtain ⟨ws, rfl, -⟩ := h.cut
      refine hm.trans (List.IsPrefix.isInfix ⟨ws ++ (a ++ (g ++ w)), ?_⟩)
      simp
    · obtain ⟨u, rfl, -⟩ := h.back
      refine hm.trans (List.IsSuffix.isInfix ⟨']' :: (y ++ (gap ++ (a ++ u))), ?_⟩)
      simp
  line hline := by
    rcases y with _ | ⟨c, y⟩
    · obtain ⟨c, r, rfl, hc⟩ := ha
      cases gap with
      | nil => exact absurd hline (by simp [Text.endsLine, hc])
      | cons d gap =>
        obtain rfl : d = '\n' := by simpa [Text.endsLine] using hline
        have hhead := h.head_eq rfl
        cases gap' with
        | nil => simp at hhead
        | cons d gap' => simpa [Text.endsLine] using hhead
    · exact hline

end GapsLeft
end ShadowImpl
