import ShadowImpl.Proofs.Lexing
import ShadowImpl.Text.Blank

/-!
# Layout around a text

Layout in front of a text is passed over. Layout behind it is never read into by a token, because
every token ends in a character that is no layout; only a comment that runs to the end of its line
reads on.
-/

namespace ShadowImpl

/-! ## Blanks -/

/-- Blanks behind a text of which something is visible do not move its end. -/
theorem Text.trimEnd_append {g v u : List Char} (hu : ∀ c ∈ u, isBlank c = true)
    (hv : ∃ c ∈ v, isBlank c = false) : trimEnd (g ++ (v ++ u)) = g ++ trimEnd v := by
  have hne : v.reverse.dropWhile isBlank ≠ [] := by
    obtain ⟨c, hc, hblank⟩ := hv
    intro h
    have := List.dropWhile_eq_nil_iff.mp h c (by simpa using hc)
    simp [hblank] at this
  rw [trimEnd, trimEnd, List.reverse_append, List.reverse_append, List.append_assoc,
    List.dropWhile_append_of_pos (by simpa using hu), List.dropWhile_append]
  simp [hne]

/-! ## Ends of lexemes -/

namespace Recogniser

/-- The characters that are seen in a text of ASCII. -/
def isVisible (c : Char) : Bool :=
  0x21 ≤ c.toNat && c.toNat ≤ 0x7E

theorem not_isLayout_of_isVisible {c : Char} (h : isVisible c = true) : isLayout c = false := by
  by_contra hc
  simp only [isLayout, Bool.not_eq_false, Bool.or_eq_true, beq_iff_eq] at hc
  rcases hc with (((rfl | rfl) | rfl) | rfl) | rfl <;> revert h <;> decide

theorem not_isBlank_of_isVisible {c : Char} (h : isVisible c = true) : Text.isBlank c = false := by
  simp only [isVisible, Bool.and_eq_true, decide_eq_true_eq] at h
  simp only [Text.isBlank, Bool.or_eq_false_iff, Bool.and_eq_false_iff, decide_eq_false_iff_not,
    beq_eq_false_iff_ne]
  omega

/-- The last of the characters that `f` takes is visible. -/
def EndsInInk (f : List Char → Option Nat) : Prop :=
  ∀ {s k}, f s = some k → 0 < k → ∃ c, s[k - 1]? = some c ∧ isVisible c = true

/-- What ends in ink does behind an opening as well. -/
theorem EndsInInk.after {f : List Char → Option Nat} (hf : EndsInInk f)
    (hpos : ∀ {s k}, f s = some k → 0 < k) (o : List Char) : EndsInInk (after o f) := by
  intro s k h _
  obtain ⟨r, j, rfl, hj, rfl⟩ := after_eq_some.mp h
  have hj0 := hpos hj
  obtain ⟨c, hc, hvisible⟩ := hf hj hj0
  refine ⟨c, ?_, hvisible⟩
  rw [List.getElem?_append_right (by omega), ← hc]
  congr 1
  omega

theorem through_pos {mark s : List Char} {k : Nat} (hm : mark ≠ []) (h : through mark s = some k) :
    0 < k := by
  have hlen := List.length_pos_iff.mpr hm
  fun_induction through mark s generalizing k with
  | case1 => simp_all
  | case2 => simp at h
  | case3 c r =>
    obtain rfl := Option.some.inj h
    exact hlen
  | case4 c r _ ih =>
    obtain ⟨j, -, rfl⟩ := Option.map_eq_some_iff.mp h
    omega

/-- What is closed by a mark ends in the ink of the mark. -/
theorem through_endsInInk {mark : List Char} {c : Char} (hm : mark.getLast? = some c)
    (hc : isVisible c = true) : EndsInInk (through mark) := by
  intro s k h hk
  fun_induction through mark s generalizing k with
  | case1 => simp_all
  | case2 => simp at h
  | case3 d r hp =>
    obtain rfl := Option.some.inj h
    obtain ⟨t, ht⟩ := List.isPrefixOf_iff_prefix.mp hp
    refine ⟨c, ?_, hc⟩
    rw [← ht, List.getElem?_append_left (by omega), ← hm, List.getLast?_eq_getElem?]
  | case4 d r hp ih =>
    obtain ⟨j, hj, rfl⟩ := Option.map_eq_some_iff.mp h
    have hj0 := through_pos (by rintro rfl; simp at hm) hj
    obtain ⟨a, ha, hvisible⟩ := ih hj hj0
    refine ⟨a, ?_, hvisible⟩
    rw [← ha, Nat.add_sub_cancel, show j = j - 1 + 1 by omega, List.getElem?_cons_succ]
    congr 1

theorem stringRest_endsInInk : EndsInInk stringRest := by
  intro s k h hk
  fun_induction stringRest s generalizing k with
  | case1 =>
    obtain rfl := Option.some.inj h
    exact ⟨'"', rfl, rfl⟩
  | case2 c r ih =>
    obtain ⟨j, hj, rfl⟩ := Option.map_eq_some_iff.mp h
    have hj0 := (stringRest_bounds hj).1
    obtain ⟨a, ha, hvisible⟩ := ih hj hj0
    refine ⟨a, ?_, hvisible⟩
    rw [← ha, show j + 2 - 1 = j - 1 + 2 by omega]
    rfl
  | case3 | case5 => simp at h
  | case4 c r _ _ _ ih =>
    obtain ⟨j, hj, rfl⟩ := Option.map_eq_some_iff.mp h
    have hj0 := (stringRest_bounds hj).1
    obtain ⟨a, ha, hvisible⟩ := ih hj hj0
    refine ⟨a, ?_, hvisible⟩
    rw [← ha, show j + 1 - 1 = j - 1 + 1 by omega]
    rfl

theorem charRest_endsInInk : EndsInInk charRest := by
  intro s k h _
  rcases charRest_eq_some.mp h with ⟨rfl, r, rfl⟩ | ⟨w, r, rfl, -, -, -, rfl⟩ | ⟨rfl, c, r, rfl, -⟩
  · exact ⟨'\'', rfl, rfl⟩
  · refine ⟨'\'', ?_, rfl⟩
    rw [show w.length + 2 - 1 = w.length + 1 by omega, List.getElem?_cons_succ,
      List.getElem?_append_right (Nat.le_refl _), Nat.sub_self]
    rfl
  · exact ⟨'\'', rfl, rfl⟩

/-- Characters of tokens are visible. -/
theorem isVisible_of_tokenChar {c : Char} (h : isTokenChar c = true) : isVisible c = true := by
  have hrange : 0x21 ≤ c.toNat ∧ c.toNat ≤ 0x7E → isVisible c = true := by
    intro hc
    simpa [isVisible] using hc
  simp only [isTokenChar, isWordChar, Char.isAlphanum, Bool.or_eq_true, isAlpha_iff, isDigit_iff,
    beq_iff_eq] at h
  rcases h with ((h | h) | rfl) | h
  · exact hrange (by omega)
  · exact hrange (by omega)
  · decide
  · have hall : ∀ c ∈ ['#', '\'', '.', '+', '-'], isVisible c = true :=
      List.all_eq_true.mp (by decide)
    exact hall c (by simpa using h)

theorem not_isLayout_of_tokenChar {c : Char} (h : isTokenChar c = true) : isLayout c = false :=
  not_isLayout_of_isVisible (isVisible_of_tokenChar h)

/-- Lexemes that are made of characters of tokens end in ink. -/
theorem endsInInk_of_within {f : List Char → Option Nat}
    (hf : ∀ {s k}, f s = some k → Within isTokenChar s k)
    (hle : ∀ {s k}, f s = some k → k ≤ s.length) : EndsInInk f := by
  intro s k h hk
  have hlen := hle h
  have hlt : k - 1 < s.length := by omega
  refine ⟨s[k - 1], List.getElem?_eq_getElem hlt, isVisible_of_tokenChar (hf h _ ?_)⟩
  rw [List.mem_take_iff_getElem]
  exact ⟨k - 1, by omega, rfl⟩

theorem punct_endsInInk : EndsInInk punct := by
  intro s k h _
  unfold punct at h
  split at h
  · rename_i c r
    split at h
    · rename_i hc
      obtain rfl := Option.some.inj h
      refine ⟨c, rfl, ?_⟩
      simp only [List.contains_cons, List.contains_nil, Bool.or_false, Bool.or_eq_true,
        beq_iff_eq] at hc
      rcases hc with rfl | rfl | rfl | rfl | rfl | rfl | rfl | rfl <;> rfl
    · simp at h
  · simp at h

/-- A fixed spelling ends in ink if its last character is visible. -/
theorem exactly_endsInInk {w : List Char} {c : Char} (hw : w.getLast? = some c)
    (hc : isVisible c = true) : EndsInInk (exactly w) := by
  intro s k h hk
  obtain ⟨⟨t, rfl⟩, rfl⟩ := exactly_eq_some h
  refine ⟨c, ?_, hc⟩
  rw [List.getElem?_append_left (by omega), ← hw, List.getLast?_eq_getElem?]

end Recogniser

namespace Lexeme

open Recogniser

variable {e : Expectation} {x y u : List Char} {l : Lexeme} {k : Nat}

/-- A comment that does not run to the end of its line ends in the mark that closes it. -/
theorem comment_ink {s : List Char} (h : Recogniser.comment s = some k) (hs : ¬ ['/', '/'] <+: s) :
    ∃ c, s[k - 1]? = some c ∧ isVisible c = true := by
  have hk := (comment_bounds h).1
  rcases comment_eq_some.mp h with h | h
  · obtain ⟨r, j, rfl, -⟩ := after_eq_some.mp h
    exact absurd (List.prefix_append _ r) hs
  · have hmark : EndsInInk blockRest := through_endsInInk (c := '/') rfl rfl
    exact hmark.after (through_pos (by simp)) _ h hk

/-- A lexeme that is no layout ends in a visible character, unless it is the rest of a line. -/
theorem ink_of_recognise {s : List Char} (h : l.recognise s = some k) (hl : l ≠ .layout)
    (hs : ¬ ['/', '/'] <+: s) : ∃ c, s[k - 1]? = some c ∧ isVisible c = true := by
  have hk := (recognise_bounds h).1
  cases l with
  | layout => exact absurd rfl hl
  | comment => exact comment_ink h hs
  | terminal t =>
    cases t
    case docComment => exact comment_ink (comment_of_docComment h) hs
    case innerDoc => exact comment_ink (comment_of_innerDoc h) hs
    case rawString =>
      obtain ⟨p, hp, h⟩ := rawString_eq_some.mp h
      have hlast : ∀ p ∈ rawOpenings, p.2 ≠ [] ∧ ∃ c, p.2.getLast? = some c ∧
          isVisible c = true := by
        simp [rawOpenings, isVisible]
      obtain ⟨hne, c, hc, hvisible⟩ := hlast p hp
      exact EndsInInk.after (through_endsInInk hc hvisible) (through_pos hne) _ h hk
    case string =>
      have hpos : ∀ {s k}, stringRest s = some k → 0 < k := fun h => (stringRest_bounds h).1
      rcases string_eq_some.mp h with h | h
      · exact stringRest_endsInInk.after hpos _ h hk
      · exact stringRest_endsInInk.after hpos _ h hk
    case char =>
      have hpos : ∀ {s k}, charRest s = some k → 0 < k := fun h => (charRest_bounds h).1
      rcases char_eq_some.mp h with h | h
      · exact charRest_endsInInk.after hpos _ h hk
      · exact charRest_endsInInk.after hpos _ h hk
    case number => exact endsInInk_of_within number_within (fun h => (number_bounds h).2) h hk
    case ident => exact endsInInk_of_within ident_within (fun h => (ident_bounds h).2) h hk
    case lifetime => exact endsInInk_of_within lifetime_within (fun h => (lifetime_bounds h).2) h hk
    case punct => exact punct_endsInInk h hk
    case eof | unknown => simp [recognise, Terminal.recognise] at h
    -- Keywords and symbols
    all_goals exact exactly_endsInInk rfl rfl h hk

/-- Every token starts with a visible character. -/
theorem isVisible_of_starts {t : Terminal} {c : Char} (h : (Lexeme.terminal t).starts c = true) :
    isVisible c = true := by
  have hspelled : ∀ t ∈ Terminal.keywords ++ Terminal.symbols, t.spelling.head? = some c →
      isVisible c = true := by
    have hheads : ∀ t ∈ Terminal.keywords ++ Terminal.symbols,
        t.spelling.head?.all isVisible = true := by
      decide
    intro t ht hc
    simpa [hc] using hheads t ht
  cases t
  case number => exact isVisible_of_tokenChar (isTokenChar_of_digit h)
  case ident =>
    simp only [starts, isWordStart, Bool.or_eq_true, beq_iff_eq] at h
    rcases h with h | rfl
    · exact isVisible_of_tokenChar (by simp [isTokenChar, isWordChar, Char.isAlphanum, h])
    · decide
  case punct =>
    have hall : ∀ c ∈ ['.', '/', '%', '^', '|', '@', '$', '~'], isVisible c = true :=
      List.all_eq_true.mp (by decide)
    exact hall c (by simpa [starts] using h)
  case rawString | string | char =>
    simp only [starts, Bool.or_eq_true, beq_iff_eq] at h
    rcases h with rfl | rfl <;> decide
  case eof | unknown => cases (beq_iff_eq.mp h : (none : Option Char) = some c)
  case docComment | innerDoc | lifetime =>
    obtain rfl := beq_iff_eq.mp h
    decide
  -- Keywords and symbols
  all_goals exact hspelled _ (by decide) (beq_iff_eq.mp h)

/-- No lexeme but layout and the rest of a line reads into layout behind a text. -/
theorem recognise_le_of_layout (h : l.recognise (x ++ u) = some k) (hl : l ≠ .layout)
    (hx : ¬ ['/', '/'] <+: x ++ u) (hu : ∀ c ∈ u, isLayout c = true) : k ≤ x.length := by
  by_contra hk
  obtain ⟨c, hc, hvisible⟩ := ink_of_recognise h hl hx
  rw [List.getElem?_append_right (by omega)] at hc
  simpa [hu c (List.mem_of_getElem? hc)] using not_isLayout_of_isVisible hvisible

/-- Layout behind `x` makes no line comment in `x`. -/
theorem slashes_of_append (hu : ∀ c ∈ u, isLayout c = true) (h : ['/', '/'] <+: x ++ u) :
    ['/', '/'] <+: x := by
  have hslash : '/' ∉ u := fun h => by simpa [isLayout] using hu _ h
  rcases x with _ | ⟨a, _ | ⟨b, r⟩⟩
  · obtain ⟨t, rfl⟩ := h
    simp at hslash
  · obtain ⟨rfl, t, rfl⟩ := List.cons_prefix_cons.mp h
    simp at hslash
  · simpa [List.cons_prefix_cons] using h

/-- A stretch of layout stops in front of what is none. -/
theorem layout_le (h : Recogniser.layout (x ++ u) = some k) (hx : ∃ a ∈ x, isLayout a = false) :
    k ≤ x.length := by
  obtain ⟨a, ha, hlay⟩ := hx
  obtain ⟨x₁, x₂, rfl⟩ := List.append_of_mem ha
  have hw : Within isLayout (x₁ ++ (a :: x₂ ++ u)) k := by
    simp only [Recogniser.layout, some1] at h
    split at h
    · simp at h
    · obtain rfl := Option.some.inj h
      simpa using within_run (fun _ h => h) (x₁ ++ a :: x₂ ++ u)
  have := hw.le (c := a) (by simp) hlay
  simp only [List.length_append]
  omega

/-- A line comment with its line end in `x` does not read over the end of `x`. -/
theorem comment_le_of_mem (h : Recogniser.comment (x ++ u) = some k) (hs : ['/', '/'] <+: x)
    (hn : '\n' ∈ x) : k ≤ x.length := by
  obtain ⟨r, rfl⟩ := hs
  obtain ⟨r₁, r₂, rfl⟩ : ∃ r₁ r₂, r = r₁ ++ '\n' :: r₂ := List.append_of_mem (by simpa using hn)
  have hw : Within (· ≠ '\n') (r₁ ++ ('\n' :: r₂ ++ u)) (line (r₁ ++ ('\n' :: r₂ ++ u))) :=
    within_run (fun _ h => h) _
  have := hw.le (c := '\n') (by simp) (by simp)
  simp only [List.cons_append, List.nil_append, Recogniser.comment, Option.some.injEq,
    List.append_assoc, List.length_cons, List.length_append] at h this ⊢
  omega

/-- Layout behind a text makes no difference to what stands at its front, unless the whole text is
layout or the rest of a line. -/
theorem first_append_layout (hu : ∀ c ∈ u, isLayout c = true) (hx : ∃ a ∈ x, isLayout a = false)
    (hline : ['/', '/'] <+: x → '\n' ∈ x) : first e (x ++ u) = first e x := by
  have hclear : Clear e x u := by
    intro l _ k h
    by_cases hs : ['/', '/'] <+: x
    · have hcomment : ∀ {k}, Recogniser.comment (x ++ u) = some k → k ≤ x.length :=
        fun h => comment_le_of_mem h hs (hline hs)
      obtain ⟨r, rfl⟩ := hs
      cases l with
      | layout => exact layout_le h hx
      | comment => exact hcomment h
      | terminal t =>
        have hstart := starts_of_recognise (l := .terminal t) (c := '/') (r := '/' :: (r ++ u)) h
        have only : ∀ l ∈ order, l.starts '/' = true → l = .comment ∨ l = .terminal .docComment ∨
            l = .terminal .innerDoc ∨ l = .terminal .punct := by decide
        by_cases ht : .terminal t ∈ order
        · rcases only _ ht hstart with ht | ht | ht | ht
          · simp at ht
          · cases ht
            exact hcomment (comment_of_docComment h)
          · cases ht
            exact hcomment (comment_of_innerDoc h)
          · cases ht
            obtain rfl : k = 1 := by
              simpa [recognise, Terminal.recognise, punct, eq_comm] using h
            simp
        · have : ∀ t : Terminal, .terminal t ∉ order → t.recognise = fun _ => none := by
            intro t ht
            cases t <;> first | rfl | exact absurd (by decide) ht
          simp [recognise, this t ht] at h
    · by_cases hl : l = .layout
      · subst hl
        exact layout_le h hx
      · exact recognise_le_of_layout h hl (fun h => hs (slashes_of_append hu h)) hu
  cases hf : first e x with
  | some p => exact first_append_of_clear hclear hf
  | none =>
    cases hf' : first e (x ++ u) with
    | none => rfl
    | some p =>
      obtain ⟨-, ht, hr, -⟩ := first_eq_some_iff.mp hf'
      simpa [hf] using first_cut hf' (hclear p.1 ht p.2 hr)

end Lexeme

namespace Next

open Lexeme Recogniser

variable {e : Expectation} {x y u : List Char}

theorem first_of_layout {c : Char} (hc : isLayout c = true) (r : List Char) :
    first e (c :: r) = some (.layout, 1 + run isLayout r) := by
  have hrun : run isLayout (c :: r) = 1 + run isLayout r := by
    simp [run, hc, Nat.add_comm]
  rw [first_eq_some_iff]
  refine ⟨by decide, rfl, ?_, fun m hm _ => ?_⟩
  · simp [recognise, Recogniser.layout, some1, hrun]
  · cases hr : m.recognise (c :: r) with
    | none => rfl
    | some k =>
      have only_layout : ∀ c ∈ [' ', '\t', '\x0c', '\r', '\n'], ∀ m ∈ before .layout,
          m.starts c = false := by
        simp only [List.forall_mem_cons, List.not_mem_nil, false_implies, implies_true, and_true]
        decide
      simp only [isLayout, Bool.or_eq_true, beq_iff_eq] at hc
      have := only_layout c (by grind) m hm
      simp [starts_of_recognise hr] at this

/-- Layout in front of a text is passed over. -/
theorem of_layout_append (hu : ∀ c ∈ u, isLayout c = true) (x : List Char) :
    of e (u ++ x) = (of e x).prepend u := by
  induction u with
  | nil => simp
  | cons c u ih =>
    have ih := ih fun d hd => hu d (by simp [hd])
    have hfirst := first_of_layout (e := e) (hu c (by simp)) (u ++ x)
    rw [List.cons_append, of_skip hfirst rfl]
    rw [show (c :: (u ++ x)).drop (1 + run isLayout (u ++ x)) =
      (u ++ x).drop (run isLayout (u ++ x)) by rw [Nat.add_comm, List.drop_succ_cons]]
    rw [show (c :: (u ++ x)).take (1 + run isLayout (u ++ x)) =
      c :: (u ++ x).take (run isLayout (u ++ x)) by rw [Nat.add_comm, List.take_succ_cons]]
    have hrest : of e (u ++ x) = (of e ((u ++ x).drop (run isLayout (u ++ x)))).prepend
        ((u ++ x).take (run isLayout (u ++ x))) := by
      cases hux : u ++ x with
      | nil => simp [prepend]
      | cons d r =>
        by_cases hd : isLayout d = true
        · have hrun : run isLayout (d :: r) = 1 + run isLayout r := by
            simp [run, hd, Nat.add_comm]
          rw [hrun]
          exact of_skip (first_of_layout hd r) rfl
        · have hrun : run isLayout (d :: r) = 0 := by simp [run, hd]
          simp [hrun]
    calc (of e ((u ++ x).drop (run isLayout (u ++ x)))).prepend
          (c :: (u ++ x).take (run isLayout (u ++ x)))
        = (of e (u ++ x)).prepend [c] := by rw [hrest, prepend_prepend]; rfl
      _ = (of e x).prepend (c :: u) := by rw [ih, prepend_prepend]; rfl

/-- In layout alone no token is found. -/
theorem of_layout (hu : ∀ c ∈ u, isLayout c = true) : of e u = ended u := by
  simpa [prepend] using of_layout_append (e := e) hu []

end Next
end ShadowImpl
