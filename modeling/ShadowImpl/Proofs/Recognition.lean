import ShadowImpl.Token.Scanner

/-!
# What recognisers take

A recogniser never takes more than there is, and never nothing. So the scanner can be described
without its clock: it stops at the first token, and what it passed over before is the gap.
-/

namespace ShadowImpl

namespace Recogniser

/-! ## Lengths -/

/-- A run stays in the text. -/
theorem run_le (p : Char → Bool) (s : List Char) : run p s ≤ s.length := by
  induction s with
  | nil => simp [run]
  | cons c s ih =>
    simp only [run, List.takeWhile_cons] at ih ⊢
    split <;> simp only [List.length_cons, List.length_nil] <;> omega

/-- A mark that is found stands in the text as a whole. -/
theorem through_le {mark s : List Char} {k : Nat} (h : through mark s = some k) :
    mark.length ≤ k ∧ k ≤ s.length := by
  induction s generalizing k with
  | nil =>
    simp only [through] at h
    split at h
    · rename_i hm
      simp only [Option.some.injEq] at h
      subst h
      simp [List.isEmpty_iff.mp hm]
    · simp at h
  | cons c s ih =>
    simp only [through] at h
    split at h
    · rename_i hp
      simp only [Option.some.injEq] at h
      subst h
      exact ⟨Nat.le_refl _, (List.isPrefixOf_iff_prefix.mp hp).length_le⟩
    · obtain ⟨j, hj, rfl⟩ := Option.map_eq_some_iff.mp h
      have := ih hj
      simp only [List.length_cons]
      omega

/-- A word has a character at least, and no more than there are. -/
theorem word_bounds {s : List Char} {k : Nat} (h : word s = some k) : 0 < k ∧ k ≤ s.length := by
  cases s with
  | nil => simp [word] at h
  | cons c s =>
    simp only [word] at h
    split at h
    · simp only [Option.some.injEq] at h
      have := run_le isWordChar s
      simp only [List.length_cons]
      omega
    · simp at h

theorem ident_bounds {s : List Char} {k : Nat} (h : ident s = some k) : 0 < k ∧ k ≤ s.length := by
  unfold ident at h
  split at h
  · split at h
    · rename_i hw
      have := word_bounds hw
      simp only [Option.some.injEq] at h
      simp only [List.length_cons]
      omega
    · exact word_bounds h
  · exact word_bounds h

theorem lifetime_bounds {s : List Char} {k : Nat} (h : lifetime s = some k) :
    0 < k ∧ k ≤ s.length := by
  unfold lifetime at h
  split at h
  · obtain ⟨j, hj, rfl⟩ := Option.map_eq_some_iff.mp h
    have := word_bounds hj
    simp only [List.length_cons]
    omega
  · simp at h

/-- Digits behind a prefix: one at least. -/
theorem some1_bounds {p : Char → Bool} {s : List Char} {k : Nat} (h : some1 p s = some k) :
    0 < k ∧ k ≤ s.length := by
  unfold some1 at h
  have := run_le p s
  split at h
  · simp at h
  · simp only [Option.some.injEq] at h
    omega

theorem fraction_le (s : List Char) : fraction s ≤ s.length := by
  unfold fraction
  split
  · rename_i c r
    have := run_le isDigitOrGap r
    split <;> simp only [List.length_cons] <;> omega
  · omega

theorem exponent_le (s : List Char) : exponent s ≤ s.length := by
  match s with
  | [] => simp [exponent]
  | [c] => simp [exponent]
  | c :: d :: r =>
    have h1 := run_le isDigitOrGap r
    have h2 := run_le isDigitOrGap (d :: r)
    simp only [exponent, List.length_cons] at *
    split
    · split <;> split <;> omega
    · omega

/-- A decimal number has a digit in front of its fraction and its exponent. -/
theorem decimal_bounds {s : List Char} {k : Nat} (h : decimal s = some k) :
    0 < k ∧ k ≤ s.length := by
  unfold decimal at h
  split at h
  · rename_i c r
    split at h
    · simp only [Option.some.injEq] at h
      have h1 := run_le isDigitOrGap r
      have h2 := fraction_le ((c :: r).drop (1 + run isDigitOrGap r))
      have h3 := exponent_le ((c :: r).drop
        (1 + run isDigitOrGap r + fraction ((c :: r).drop (1 + run isDigitOrGap r))))
      simp only [List.length_drop, List.length_cons] at *
      omega
    · simp at h
  · simp at h

/-- The digits of a number, be it with a prefix or without. -/
theorem digits_bounds {s : List Char} {k : Nat} (h : digits s = some k) : 0 < k ∧ k ≤ s.length := by
  have key : ∀ {p : Char → Bool} {c d : Char} {r : List Char},
      ((some1 p r).map (· + 2)).or (decimal (c :: d :: r)) = some k →
      0 < k ∧ k ≤ (c :: d :: r).length := by
    intro p c d r h
    rcases Option.or_eq_some_iff.mp h with h | ⟨-, h⟩
    · obtain ⟨j, hj, rfl⟩ := Option.map_eq_some_iff.mp h
      have := some1_bounds hj
      simp only [List.length_cons]
      omega
    · exact decimal_bounds h
  unfold digits at h
  split at h
  · exact key h
  · exact key h
  · exact key h
  · exact decimal_bounds h

theorem suffix_le (s : List Char) : suffix s ≤ s.length := by
  unfold suffix
  split
  · rename_i c r
    have := run_le isWordChar r
    split <;> simp only [List.length_cons] <;> omega
  · omega

theorem number_bounds {s : List Char} {k : Nat} (h : number s = some k) : 0 < k ∧ k ≤ s.length := by
  unfold number at h
  obtain ⟨j, hj, rfl⟩ := Option.map_eq_some_iff.mp h
  have h1 := digits_bounds hj
  have h2 := suffix_le (s.drop j)
  simp only [List.length_drop] at h2
  omega

/-- The rest of a string has its closing quote. -/
theorem stringRest_bounds {s : List Char} {k : Nat} (h : stringRest s = some k) :
    0 < k ∧ k ≤ s.length := by
  fun_induction stringRest s generalizing k with
  | case1 => simp_all; omega
  | case2 c r ih | case4 c r _ _ _ ih =>
    obtain ⟨j, hj, rfl⟩ := Option.map_eq_some_iff.mp h
    have := ih hj
    simp only [List.length_cons]
    omega
  | case3 | case5 => simp at h

theorem string_bounds {s : List Char} {k : Nat} (h : string s = some k) : 0 < k ∧ k ≤ s.length := by
  unfold string at h
  split at h
  · obtain ⟨j, hj, rfl⟩ := Option.map_eq_some_iff.mp h
    have := stringRest_bounds hj
    simp only [List.length_cons]
    omega
  · obtain ⟨j, hj, rfl⟩ := Option.map_eq_some_iff.mp h
    have := stringRest_bounds hj
    simp only [List.length_cons]
    omega
  · simp at h

/-- The rest of a raw string has its quotes. -/
theorem rawRest_bounds {s : List Char} {k : Nat} (h : rawRest s = some k) :
    0 < k ∧ k ≤ s.length := by
  unfold rawRest at h
  split at h
  iterate 3
    obtain ⟨j, hj, rfl⟩ := Option.map_eq_some_iff.mp h
    have := through_le hj
    simp only [List.length_cons]
    omega
  simp at h

theorem rawString_bounds {s : List Char} {k : Nat} (h : rawString s = some k) :
    0 < k ∧ k ≤ s.length := by
  unfold rawString at h
  split at h
  iterate 2
    obtain ⟨j, hj, rfl⟩ := Option.map_eq_some_iff.mp h
    have := rawRest_bounds hj
    simp only [List.length_cons]
    omega
  simp at h

theorem charRest_bounds {s : List Char} {k : Nat} (h : charRest s = some k) :
    0 < k ∧ k ≤ s.length := by
  unfold charRest at h
  split at h
  · simp only [Option.some.injEq] at h
    simp only [List.length_cons]
    omega
  · rename_i r _
    simp only at h
    split at h
    · rename_i hc
      simp only [Bool.and_eq_true, decide_eq_true_eq, beq_iff_eq] at hc
      -- The closing quote is still there.
      have hlen : 0 < (r.drop (run (fun c => c ≠ '\'' && c ≠ '\n') r)).length := by
        apply List.length_pos_iff.mpr
        intro he
        rw [he] at hc
        simp at hc
      simp only [Option.some.injEq] at h
      simp only [List.length_drop, List.length_cons] at *
      omega
    · simp at h
  · split at h
    · simp at h
    · simp only [Option.some.injEq] at h
      simp only [List.length_cons]
      omega
  · simp at h

theorem char_bounds {s : List Char} {k : Nat} (h : char s = some k) : 0 < k ∧ k ≤ s.length := by
  unfold char at h
  split at h
  iterate 2
    obtain ⟨j, hj, rfl⟩ := Option.map_eq_some_iff.mp h
    have := charRest_bounds hj
    simp only [List.length_cons]
    omega
  simp at h

/-- Documentation has its opening at least. -/
theorem docComment_bounds {s : List Char} {k : Nat} (h : docComment s = some k) :
    0 < k ∧ k ≤ s.length := by
  unfold docComment at h
  split at h
  · rename_i r
    split at h
    · simp at h
    · have := run_le (· ≠ '\n') r
      simp only [line, Option.some.injEq] at h
      simp only [List.length_cons]
      omega
  · split at h
    · simp at h
    · obtain ⟨j, hj, rfl⟩ := Option.map_eq_some_iff.mp h
      have := through_le hj
      simp only [List.length_cons]
      omega
  · simp at h

theorem innerDoc_bounds {s : List Char} {k : Nat} (h : innerDoc s = some k) :
    0 < k ∧ k ≤ s.length := by
  unfold innerDoc at h
  split at h
  · rename_i r
    have := run_le (· ≠ '\n') r
    simp only [line, Option.some.injEq] at h
    simp only [List.length_cons]
    omega
  · obtain ⟨j, hj, rfl⟩ := Option.map_eq_some_iff.mp h
    have := through_le hj
    simp only [List.length_cons]
    omega
  · simp at h

theorem comment_bounds {s : List Char} {k : Nat} (h : comment s = some k) :
    0 < k ∧ k ≤ s.length := by
  unfold comment at h
  split at h
  · rename_i r
    have := run_le (· ≠ '\n') r
    simp only [line, Option.some.injEq] at h
    simp only [List.length_cons]
    omega
  · obtain ⟨j, hj, rfl⟩ := Option.map_eq_some_iff.mp h
    have := through_le hj
    simp only [List.length_cons]
    omega
  · simp at h

theorem punct_bounds {s : List Char} {k : Nat} (h : punct s = some k) : 0 < k ∧ k ≤ s.length := by
  unfold punct at h
  split at h
  · split at h
    · simp only [Option.some.injEq] at h
      simp only [List.length_cons]
      omega
    · simp at h
  · simp at h

/-- A spelling is found in front of anything. -/
theorem exactly_append (w t : List Char) : exactly w (w ++ t) = some w.length := by
  rw [exactly, if_pos (List.isPrefixOf_iff_prefix.mpr (List.prefix_append w t))]

/-- What is found of a fixed spelling is all of it. -/
theorem exactly_eq_some {w s : List Char} {k : Nat} (h : exactly w s = some k) :
    w <+: s ∧ k = w.length := by
  unfold exactly at h
  split at h
  · rename_i hp
    exact ⟨List.isPrefixOf_iff_prefix.mp hp, (Option.some.inj h).symm⟩
  · simp at h

end Recogniser

namespace Terminal

/-- No class of token takes more than there is, or nothing. -/
theorem recognise_bounds {t : Terminal} {s : List Char} {k : Nat} (h : t.recognise s = some k) :
    0 < k ∧ k ≤ s.length := by
  have exact_bounds : ∀ {u : Terminal}, u ∈ keywords ∨ u ∈ symbols →
      Recogniser.exactly u.spelling s = some k → 0 < k ∧ k ≤ s.length := by
    intro u hu hk
    obtain ⟨hp, rfl⟩ := Recogniser.exactly_eq_some hk
    have hne := spelling_ne_nil_iff.mpr (List.mem_append.mpr hu)
    exact ⟨List.length_pos_iff.mpr hne, hp.length_le⟩
  cases t
  case docComment => exact Recogniser.docComment_bounds h
  case rawString => exact Recogniser.rawString_bounds h
  case innerDoc => exact Recogniser.innerDoc_bounds h
  case string => exact Recogniser.string_bounds h
  case char => exact Recogniser.char_bounds h
  case number => exact Recogniser.number_bounds h
  case ident => exact Recogniser.ident_bounds h
  case lifetime => exact Recogniser.lifetime_bounds h
  case punct => exact Recogniser.punct_bounds h
  case eof => simp [recognise] at h
  case unknown => simp [recognise] at h
  all_goals exact exact_bounds (by decide) h

/-- The class of a token that was found as `t`: a name may be a keyword. -/
def settle (e : Expectation) (t : Terminal) (text : List Char) : Terminal :=
  if t = ident then ofName e text else t

end Terminal

namespace Lexeme

/-- Whether the scanner passes over lexemes of this class. -/
def skipped : Lexeme → Bool
  | layout => true
  | comment => true
  | terminal _ => false

/-- No class of lexemes finds an empty one, and none finds more than there is: this is what makes
the scanner get on. -/
theorem recognise_bounds {l : Lexeme} {s : List Char} {k : Nat} (h : l.recognise s = some k) :
    0 < k ∧ k ≤ s.length := by
  cases l with
  | layout => exact Recogniser.some1_bounds h
  | comment => exact Recogniser.comment_bounds h
  | terminal t => exact Terminal.recognise_bounds h

/-- The class that is found is one that is tried, and it is found by its own recogniser. -/
theorem first_eq_some {e : Expectation} {s : List Char} {l : Lexeme} {k : Nat}
    (h : first e s = some (l, k)) : l.tried e = true ∧ l.recognise s = some k := by
  obtain ⟨l', -, hl'⟩ := List.exists_of_findSome?_eq_some h
  split at hl'
  · rename_i ht
    obtain ⟨k', hk', heq⟩ := Option.map_eq_some_iff.mp hl'
    obtain ⟨rfl, rfl⟩ := Prod.mk.inj heq
    exact ⟨ht, hk'⟩
  · simp at hl'

/-- The first lexeme that is found takes a character at least, and no more than there are. -/
theorem first_bounds {e : Expectation} {s : List Char} {l : Lexeme} {k : Nat}
    (h : first e s = some (l, k)) : 0 < k ∧ k ≤ s.length :=
  recognise_bounds (first_eq_some h).2

/-- In an empty text no lexeme is found. -/
@[simp] theorem first_nil (e : Expectation) : first e [] = none := by
  cases h : first e [] with
  | none => rfl
  | some p =>
    have := first_bounds (l := p.1) (k := p.2) h
    simp only [List.length_nil] at this
    omega

end Lexeme

/-! ## The scanner without its clock -/

namespace Next

/-- What stands next behind a longer gap. -/
def prepend (gap : List Char) : Next → Next
  | ended g => ended (gap ++ g)
  | token t rest => token ⟨t.kind, gap ++ t.gap, t.text⟩ rest
  | unknown g rest => unknown (gap ++ g) rest

/-- A wider gap does not change the kind of what stands next. -/
@[simp] theorem kind_prepend (gap : List Char) (n : Next) : (n.prepend gap).kind = n.kind := by
  cases n <;> rfl

/-- Gaps add up. -/
theorem prepend_prepend (g h : List Char) (n : Next) :
    (n.prepend h).prepend g = n.prepend (g ++ h) := by
  cases n <;> simp [prepend]

@[simp] theorem prepend_nil (n : Next) : n.prepend [] = n := by
  cases n <;> simp [prepend]

/-- What the scanner finds in a text, one lexeme after the other. -/
inductive Found (e : Expectation) : List Char → Next → Prop where
  | ended : Found e [] (ended [])
  | unknown {s : List Char} (hs : s ≠ []) (h : Lexeme.first e s = none) :
      Found e s (unknown [] s)
  | token {s : List Char} {t : Terminal} {k : Nat} (h : Lexeme.first e s = some (.terminal t, k)) :
      Found e s (token ⟨t.settle e (s.take k), [], s.take k⟩ (s.drop k))
  | skip {s : List Char} {l : Lexeme} {k : Nat} {n : Next} (h : Lexeme.first e s = some (l, k))
      (hl : l.skipped = true) (rest : Found e (s.drop k) n) : Found e s (n.prepend (s.take k))

variable {e : Expectation} {s : List Char}

/-- With a clock that is long enough the scanner finds what stands next, with the gap that it has
passed in front of it. -/
theorem scan_eq_prepend {clock : List Char} (hc : s.length ≤ clock.length) (gap : List Char) :
    ∃ n, Found e s n ∧ scan e clock gap s = n.prepend gap := by
  induction clock generalizing gap s with
  | nil =>
    obtain rfl : s = [] := List.length_eq_zero_iff.mp (by simpa using hc)
    exact ⟨_, .ended, by simp [scan, prepend]⟩
  | cons c clock ih =>
    cases s with
    | nil => exact ⟨_, .ended, by simp [scan, prepend]⟩
    | cons d r =>
      cases h : Lexeme.first e (d :: r) with
      | none => exact ⟨_, .unknown (by simp) h, by simp [scan, h, prepend]⟩
      | some p =>
        obtain ⟨l, k⟩ := p
        have hk := Lexeme.first_bounds h
        -- One lexeme is gone, so one tick of the clock is enough for it.
        have hrest : ((d :: r).drop k).length ≤ clock.length := by
          simp only [List.length_drop, List.length_cons] at hc ⊢
          omega
        match l with
        | .layout | .comment =>
          obtain ⟨n, hn, heq⟩ := ih hrest (gap ++ (d :: r).take k)
          refine ⟨_, .skip h rfl hn, ?_⟩
          simp only [scan, h, heq, prepend_prepend]
        | .terminal t =>
          refine ⟨_, .token h, ?_⟩
          by_cases ht : t = .ident
          · subst ht
            simp [scan, h, prepend, Terminal.settle]
          · simp [scan, h, prepend, Terminal.settle, ht]

/-- The scanner finds what stands there. -/
theorem found (e : Expectation) (s : List Char) : Found e s (of e s) := by
  obtain ⟨n, hn, heq⟩ := scan_eq_prepend (e := e) (s := s) (Nat.le_refl _) []
  rw [of, heq, prepend_nil]
  exact hn

/-- Only one thing stands there. -/
theorem Found.eq_of {n : Next} (h : Found e s n) : of e s = n := by
  have h' := found e s
  generalize of e s = m at h'
  -- By induction on what is skipped; the first lexeme is a function of the text.
  induction h generalizing m with
  | ended =>
    cases h' with
    | ended => rfl
    | unknown hs _ => exact absurd rfl hs
    | token h | skip h => simp at h
  | unknown hs hn =>
    cases h' with
    | ended => exact absurd rfl hs
    | unknown => rfl
    | token h | skip h => simp [hn] at h
  | token ht =>
    cases h' with
    | ended => simp at ht
    | unknown _ h => simp [ht] at h
    | token h =>
      obtain ⟨rfl, rfl⟩ : _ ∧ _ := by simpa [ht] using h
      rfl
    | skip h hl =>
      obtain ⟨rfl, rfl⟩ : _ ∧ _ := by simpa [ht] using h
      simp [Lexeme.skipped] at hl
  | skip hs hl rest ih =>
    cases h' with
    | ended => simp at hs
    | unknown _ h => simp [hs] at h
    | token h =>
      obtain ⟨rfl, rfl⟩ : _ ∧ _ := by simpa [hs] using h
      simp [Lexeme.skipped] at hl
    | skip h hl' rest' =>
      obtain ⟨rfl, rfl⟩ : _ ∧ _ := by simpa [hs] using h
      rw [ih _ rest']

/-- A lexeme that is skipped becomes part of the gap. -/
theorem of_skip {l : Lexeme} {k : Nat} (h : Lexeme.first e s = some (l, k))
    (hl : l.skipped = true) : of e s = (of e (s.drop k)).prepend (s.take k) :=
  (Found.skip h hl (found e _)).eq_of

/-- The first lexeme is a token. -/
theorem of_token {t : Terminal} {k : Nat} (h : Lexeme.first e s = some (.terminal t, k)) :
    of e s = token ⟨t.settle e (s.take k), [], s.take k⟩ (s.drop k) :=
  (Found.token h).eq_of

/-- No class finds a lexeme. -/
theorem of_unknown (hs : s ≠ []) (h : Lexeme.first e s = none) : of e s = unknown [] s :=
  (Found.unknown hs h).eq_of

@[simp] theorem of_nil (e : Expectation) : of e [] = ended [] :=
  Found.ended.eq_of

/-- A token stands where the text has it, and it is found there without its gap as well. -/
theorem of_eq_token {t : Token} {rest : List Char} (h : of e s = token t rest) :
    s = t.gap ++ t.text ++ rest ∧ ∃ u : Terminal, t.kind = u.settle e t.text ∧
      Lexeme.first e (t.text ++ rest) = some (.terminal u, t.text.length) := by
  have hf := found e s
  rw [h] at hf
  clear h
  generalize hn : token t rest = n at hf
  induction hf generalizing t with
  | ended | unknown => simp at hn
  | @token s u k hu =>
    obtain ⟨rfl, rfl⟩ := Next.token.inj hn
    have := Lexeme.first_bounds hu
    refine ⟨by simp, u, rfl, ?_⟩
    simpa [Nat.min_eq_left this.2] using hu
  | @skip s l k n hl _ _ ih =>
    cases n with
    | ended | unknown => simp [prepend] at hn
    | token t' rest' =>
      obtain ⟨rfl, rfl⟩ := Next.token.inj hn
      obtain ⟨hs, hu⟩ := ih rfl
      refine ⟨?_, hu⟩
      rw [List.append_assoc, List.append_assoc, ← List.append_assoc t'.gap, ← hs,
        List.take_append_drop]

/-- No token is empty. -/
theorem text_ne_nil_of_token {t : Token} {rest : List Char} (h : of e s = token t rest) :
    t.text ≠ [] := by
  obtain ⟨-, u, -, hu⟩ := of_eq_token h
  exact List.length_pos_iff.mp (Lexeme.first_bounds hu).1

/-- A token is of a class that the scanner can find. -/
theorem kind_mem_of_token {t : Token} {rest : List Char} (h : of e s = token t rest) :
    t.kind ∈ Terminal.all := by
  obtain ⟨-, u, hk, hu⟩ := of_eq_token h
  obtain ⟨l, hl, hlu⟩ := List.exists_of_findSome?_eq_some hu
  have hu' : Lexeme.terminal u ∈ Lexeme.order := by
    split at hlu
    · obtain ⟨k, -, heq⟩ := Option.map_eq_some_iff.mp hlu
      rwa [← (Prod.mk.inj heq).1]
    · simp at hlu
  rw [hk, Terminal.settle]
  split
  · rw [Terminal.ofName]
    cases hf : (Terminal.keywords.filter e.contains).find? (·.spelling = t.text) with
    | none => decide
    | some v =>
      have := (List.mem_filter.mp (List.mem_of_find?_eq_some hf)).1
      simp [Terminal.all, this]
  · have : ∀ l ∈ Lexeme.order, l ∈ .layout :: .comment :: Terminal.all.map Lexeme.terminal := by
      decide
    simpa using this _ hu'

/-- A token that is found where no name may stand is one that is expected. -/
theorem mem_of_not_ident {t : Token} {rest : List Char} (h : of e s = token t rest)
    (he : .ident ∉ e) : t.kind ∈ e := by
  obtain ⟨-, u, hkind, hfirst⟩ := of_eq_token h
  have hu : u ∈ e := by
    have htried := (Lexeme.first_eq_some hfirst).1
    simp only [Lexeme.tried, Bool.and_eq_true, List.contains_iff_mem] at htried
    exact htried.1
  have hne : u ≠ .ident := fun heq => he (heq ▸ hu)
  rw [Terminal.settle, if_neg hne] at hkind
  exact hkind ▸ hu

end Next
end ShadowImpl
