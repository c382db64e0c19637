import ShadowImpl.Proofs.Depth
import ShadowImpl.Proofs.Trailing

/-!
# Scanning in step

Text between brackets has been scanned once with anything expected. When it is scanned again under
the narrower expectations of the grammar, the lexemes are the same, except where the scanner cuts
one in two: a name off a string, a keyword off a longer name, a colon off a `::`. The grammar never
expects what could make such a cut go unnoticed, so the two scans meet again or the second one
stops. In particular a comment that runs to the end of its line never runs over the end of the text.
-/

namespace ShadowImpl

open Lexeme Recogniser

/-- A text that the scanner covers with lexemes when anything is expected. A comment that runs to
the end of a line has that line end in the text. -/
inductive Tiled : List Char → Prop where
  | nil : Tiled []
  | step {x : List Char} {l : Lexeme} {k : Nat} (h : first Expected.anything x = some (l, k))
      (hline : ['/', '/'] <+: x → '\n' ∈ x) (rest : Tiled (x.drop k)) : Tiled x

/-- The ways in which a text can start inside of a lexeme: at the quotes that the expectation `e`
does not allow, in a word, or in the middle of `::` or `->`. -/
inductive Off (e : Expectation) : List Char → Prop where
  | stuck {c : Char} {r : List Char} (hc : c ∈ ['"', '\'', '#']) (h : first e (c :: r) = none) :
      Off e (c :: r)
  | word {w z : List Char} (hw : w ≠ []) (hall : ∀ c ∈ w, isWordChar c = true)
      (hz : ∀ c ∈ z.head?, isWordChar c = false) (hnum : .number ∉ e) (hraw : .rawString ∉ e)
      (h : Tiled z) : Off e (w ++ z)
  | symbol {c : Char} {z : List Char} (hc : c ∈ [':', '>']) (h : Tiled z) : Off e (c :: z)

/-- The rest of a text, as the scanner comes to it under the expectation `e`. -/
def Aligned (e : Expectation) (x : List Char) : Prop :=
  Tiled x ∨ Off e x

/-! ## Lexemes of the wider expectation -/

section Tile

variable {e : Expectation} {x : List Char} {l m : Lexeme} {c : Char} {r : List Char} {j k : Nat}

theorem order_total : ∀ l ∈ order, ∀ m ∈ order, l = m ∨ l ∈ before m ∨ m ∈ before l := by
  decide +kernel

/-- The class that is found is the one that is looked for, or one before it. -/
theorem first_eq_or_before (h : first e x = some (l, k)) (hm : m ∈ order) (ht : m.tried e = true)
    (hr : m.recognise x = some j) : (l = m ∧ k = j) ∨ l ∈ before m := by
  obtain ⟨hl, -, hlr, hb⟩ := first_eq_some_iff.mp h
  rcases order_total l hl m hm with rfl | hlm | hml
  · exact .inl ⟨rfl, Option.some.inj (hlr.symm.trans hr)⟩
  · exact .inr hlm
  · simp [hb m hml ht] at hr

theorem recognise_eq_none_of_starts (h : l.starts c = false) : l.recognise (c :: r) = none := by
  cases hr : l.recognise (c :: r) with
  | none => rfl
  | some k => simp [starts_of_recognise hr] at h

/-- Where no earlier class can start with a character, the class itself is found. -/
theorem eq_of_starts (h : first e (c :: r) = some (l, k)) (hm : m ∈ order) (ht : m.tried e = true)
    (hr : m.recognise (c :: r) = some j) (hb : ∀ l' ∈ before m, l'.starts c = false) : k = j := by
  rcases first_eq_or_before h hm ht hr with h' | h'
  · exact h'.2
  · have hl := (first_eq_some h).2
    simp [recognise_eq_none_of_starts (hb l h')] at hl

/-- A name that is cut off a literal is short and leaves quotes behind. -/
def LeavesQuote (x : List Char) (k : Nat) : Prop :=
  x.take k ∈ [['r'], ['b'], ['b', 'r']] ∧ ∃ c r, x.drop k = c :: r ∧ c ∈ ['"', '\'', '#']

theorem not_isWordStart_of_isDigit (h : c.isDigit = true) : isWordStart c = false := by
  by_contra hc
  simp only [isWordStart, Bool.not_eq_false, Bool.or_eq_true, isAlpha_iff, beq_iff_eq] at hc
  simp only [Char.isDigit, Bool.and_eq_true, decide_eq_true_eq, ge_iff_le,
    UInt32.le_iff_toNat_le] at h
  rcases hc with hc | rfl
  · simp at h
    omega
  · simp at h

/-- Of the classes before the names only literals can start like a name. -/
theorem literal_of_wordStart (hc : isWordStart c = true) (hl : l ∈ before (.terminal .ident))
    (hs : l.starts c = true) :
    l = .terminal .rawString ∨ l = .terminal .string ∨ l = .terminal .char := by
  have hb : before (.terminal .ident) = [.terminal .docComment, .terminal .rawString,
    .terminal .innerDoc, .comment, .terminal .string, .terminal .char, .terminal .number] := rfl
  have hslash : c ≠ '/' := by
    rintro rfl
    exact absurd hc (by decide)
  have hdigit : c.isDigit ≠ true := fun h => by simp [not_isWordStart_of_isDigit h] at hc
  simp only [hb, List.mem_cons, List.not_mem_nil, or_false] at hl
  rcases hl with rfl | rfl | rfl | rfl | rfl | rfl | rfl <;> simp_all [starts]

/-- A name is a lexeme as a whole, or it is cut off a literal. -/
theorem ident_eq_or_leavesQuote (h : first Expected.anything x = some (l, k))
    (hi : ident x = some j) : k = j ∨ LeavesQuote x j := by
  rcases first_eq_or_before (m := .terminal .ident) h (by decide) (by decide) hi with h' | hl
  · exact .inl h'.2
  right
  have hr := (first_eq_some h).2
  obtain ⟨c, r, rfl⟩ : ∃ c r, x = c :: r := by
    cases x with
    | nil => simp [ident, word] at hi
    | cons c r => exact ⟨c, r, rfl⟩
  have hc : isWordStart c = true := starts_of_recognise (l := .terminal .ident) hi
  -- Every literal that starts like a name leaves its quotes behind.
  have hquote : ∀ o ∈ [['r', '"'], ['r', '#', '"'], ['r', '#', '#', '"'], ['b', 'r', '"'],
      ['b', 'r', '#', '"'], ['b', 'r', '#', '#', '"'], ['b', '"'], ['b', '\'']],
      ∀ r', c :: r = o ++ r' → LeavesQuote (c :: r) j := by
    intro o ho r' hs
    rw [hs] at hi ⊢
    simp only [List.mem_cons, List.not_mem_nil, or_false] at ho
    rcases ho with rfl | rfl | rfl | rfl | rfl | rfl | rfl | rfl
    all_goals
      simp [ident, word, run, isWordStart, isWordChar] at hi
      subst hi
      simp [LeavesQuote]
  rcases literal_of_wordStart hc hl (starts_of_recognise hr) with rfl | rfl | rfl
  · obtain ⟨p, hp, hr⟩ := rawString_eq_some.mp hr
    obtain ⟨r', i, hs, -, -⟩ := after_eq_some.mp hr
    refine hquote p.1 ?_ r' hs
    simp only [rawOpenings, List.mem_cons, List.not_mem_nil, or_false] at hp
    rcases hp with rfl | rfl | rfl | rfl | rfl | rfl <;> simp
  · rcases string_eq_some.mp hr with hr | hr <;> obtain ⟨r', i, hs, -, -⟩ := after_eq_some.mp hr
    · exact hquote _ (by simp) r' hs
    · obtain ⟨rfl, -⟩ := List.cons.inj hs
      exact absurd hc (by decide)
  · rcases char_eq_some.mp hr with hr | hr <;> obtain ⟨r', i, hs, -, -⟩ := after_eq_some.mp hr
    · exact hquote _ (by simp) r' hs
    · obtain ⟨rfl, -⟩ := List.cons.inj hs
      exact absurd hc (by decide)

theorem word_eq_or_leavesQuote (h : first Expected.anything x = some (l, k))
    (hw : word x = some j) : k = j ∨ LeavesQuote x j := by
  rcases ident_forms x with ⟨r, n, rfl, hn⟩ | hx
  · right
    obtain rfl : j = 1 := by
      simpa [word, run, isWordStart, isWordChar, eq_comm] using hw
    exact ⟨by simp, '#', r, rfl, by simp⟩
  · exact ident_eq_or_leavesQuote h ((ident_plain hx).trans hw)

/-- A lifetime is a lexeme as a whole, or it is cut off a character. -/
theorem lifetime_eq_or_leavesQuote (h : first Expected.anything x = some (l, k))
    (hi : Recogniser.lifetime x = some j) : k = j ∨ ∃ r, x.drop j = '\'' :: r := by
  rcases first_eq_or_before (m := .terminal .lifetime) h (by decide) (by decide) hi with h' | hl
  · exact .inl h'.2
  right
  have hr := (first_eq_some h).2
  obtain ⟨r, rfl⟩ : ∃ r, x = '\'' :: r := by
    unfold Recogniser.lifetime at hi
    split at hi
    · exact ⟨_, rfl⟩
    · simp at hi
  obtain ⟨i, hword, rfl⟩ := Option.map_eq_some_iff.mp hi
  -- Of what is tried before a lifetime, only a character can start with a quote.
  obtain rfl : l = .terminal .char := by
    have only : ∀ l ∈ before (.terminal .lifetime), l.starts '\'' = true → l = .terminal .char := by
      decide
    exact only l hl (starts_of_recognise hr)
  have hr : Recogniser.char ('\'' :: r) = some k := hr
  rcases char_eq_some.mp hr with hr | hr <;> obtain ⟨r', j, hs, hj, -⟩ := after_eq_some.mp hr
  · simp at hs
  · obtain ⟨-, rfl⟩ := List.cons.inj hs
    -- A lifetime has a letter behind its quote, so the character is that letter.
    rcases charRest_eq_some.mp hj with ⟨-, r', rfl⟩ | ⟨w, r', rfl, -⟩ | ⟨-, c, r', rfl, -⟩
    · simp [word, isWordStart] at hword
    · simp [word, isWordStart] at hword
    · simp only [word] at hword
      split at hword
      · obtain rfl := Option.some.inj hword
        exact ⟨r', by simp [run, isWordChar]⟩
      · simp at hword

end Tile

/-! ## After a lexeme -/

section Step

variable {e e' : Expectation} {x : List Char} {u : Terminal} {k : Nat}

theorem ofName_cases (e : Expectation) (w : List Char) :
    Terminal.ofName e w = .ident ∨
      (Terminal.ofName e w ∈ Terminal.keywords ∧ (Terminal.ofName e w).spelling = w) := by
  rw [Terminal.ofName]
  cases hf : (Terminal.keywords.filter e.contains).find? (·.spelling = w) with
  | none => exact .inl rfl
  | some v =>
    right
    have hv := List.mem_of_find?_eq_some hf
    exact ⟨(List.mem_filter.mp hv).1, by simpa using List.find?_some hf⟩

/-- A name that is cut off a literal is no keyword. -/
theorem settle_of_leavesQuote (h : LeavesQuote x k) :
    Terminal.ident.settle e (x.take k) = .ident := by
  rw [Terminal.settle, if_pos rfl]
  refine (ofName_cases e (x.take k)).resolve_right fun hk => ?_
  have hne : ∀ t ∈ Terminal.keywords, t.spelling ∉ [['r'], ['b'], ['b', 'r']] := by
    decide
  exact hne _ hk.1 (by rw [hk.2]; exact h.1)

theorem first_eq_none {c : Char} {r : List Char}
    (h : ∀ l ∈ order, l.starts c = true → l.tried e = false) : first e (c :: r) = none := by
  cases hf : first e (c :: r) with
  | none => rfl
  | some p =>
    obtain ⟨hl, ht, hr, -⟩ := first_eq_some_iff.mp hf
    simp [h p.1 hl (starts_of_recognise hr)] at ht

/-- After a name no quotes are expected. -/
theorem off_of_leavesQuote (h : LeavesQuote x k) (he : Grammar.isOrderly .ident e = true) :
    Off e (x.drop k) := by
  obtain ⟨-, c, r, hd, hc⟩ := h
  rw [hd]
  refine .stuck hc (first_eq_none fun l hl hs => ?_)
  have only : ∀ c ∈ ['"', '\'', '#'], ∀ l ∈ order, l.starts c = true →
      l ∈ [.terminal .string, .terminal .char, .terminal .lifetime, .terminal .hash] := by
    simp only [List.forall_mem_cons, List.not_mem_nil, false_implies, implies_true, and_true]
    decide
  have hl' := only c hc l hl hs
  simp [Grammar.isOrderly] at he
  simp at hl'
  rcases hl' with rfl | rfl | rfl | rfl <;> simp [tried] <;> grind

theorem Tiled.drop {l : Lexeme} (h : Tiled x) (hf : first Expected.anything x = some (l, k)) :
    Tiled (x.drop k) := by
  cases h with
  | nil => simp at hf
  | step hf' _ rest =>
    obtain ⟨-, rfl⟩ := Prod.mk.inj (Option.some.inj (hf'.symm.trans hf))
    exact rest

theorem Tiled.exists_first (h : Tiled x) (hx : x ≠ []) :
    ∃ l k, first Expected.anything x = some (l, k) := by
  cases h with
  | nil => exact absurd rfl hx
  | step hf => exact ⟨_, _, hf⟩

theorem symbol_starts : ∀ t ∈ Terminal.symbols, t ∉ [Terminal.colon, Terminal.minus] →
    (t.spelling.head?.all fun c => (before (.terminal t)).all fun l => !l.starts c) = true := by
  decide

theorem symbol_tried : ∀ t ∈ Terminal.symbols, .terminal t ∈ order ∧
    tried Expected.anything (.terminal t) = true ∧ t.recognise = exactly t.spelling := by
  intro t ht
  refine ⟨?_, ?_, ?_⟩
  · revert t; decide
  · revert t; decide
  · cases t <;> first | rfl | exact absurd ht (by decide)

/-- A symbol is a lexeme as a whole, except for the ones that two-character symbols start with. -/
theorem symbol_eq {l : Lexeme} {j : Nat} (h : first Expected.anything x = some (l, j))
    (hr : u.recognise x = some k) (hu : u ∈ Terminal.symbols)
    (hne : u ∉ [Terminal.colon, Terminal.minus]) : j = k := by
  obtain ⟨c, r, rfl⟩ : ∃ c r, x = c :: r := by
    cases x with
    | nil => simp at h
    | cons c r => exact ⟨c, r, rfl⟩
  obtain ⟨ho, ht, heq⟩ := symbol_tried u hu
  refine eq_of_starts h ho ht hr fun l' hl' => ?_
  have hall := symbol_starts u hu hne
  have hc : u.spelling.head? = some c := by
    rw [heq] at hr
    obtain ⟨⟨t, ht⟩, -⟩ := exactly_eq_some hr
    cases hs : u.spelling with
    | nil => exact absurd hs (Terminal.spelling_ne_nil_iff.mpr (List.mem_append_right _ hu))
    | cons d w => simp_all
  rw [hc] at hall
  simpa using List.all_eq_true.mp hall l' hl'

theorem string_eq {l : Lexeme} {j : Nat} (h : first Expected.anything x = some (l, j))
    (hr : Recogniser.string x = some k) : j = k := by
  rcases first_eq_or_before (m := .terminal .string) h (by decide) (by decide) hr with h' | hl
  · exact h'.2
  have hlr := (first_eq_some h).2
  rcases string_eq_some.mp hr with hr | hr <;> obtain ⟨r, i, rfl, -⟩ := after_eq_some.mp hr
  · have only : ∀ l ∈ before (.terminal .string), l.starts 'b' = true →
        l = .terminal .rawString := by
      decide
    obtain rfl := only l hl (starts_of_recognise hlr)
    simp [recognise, Terminal.recognise, rawString] at hlr
  · have none : ∀ l ∈ before (.terminal .string), l.starts '"' = false := by decide
    simp [recognise_eq_none_of_starts (none l hl)] at hlr

theorem char_eq {l : Lexeme} {j : Nat} (h : first Expected.anything x = some (l, j))
    (hr : Recogniser.char x = some k) : j = k := by
  rcases first_eq_or_before (m := .terminal .char) h (by decide) (by decide) hr with h' | hl
  · exact h'.2
  have hlr := (first_eq_some h).2
  rcases char_eq_some.mp hr with hr | hr <;> obtain ⟨r, i, rfl, -⟩ := after_eq_some.mp hr
  · have only : ∀ l ∈ before (.terminal .char), l.starts 'b' = true →
        l = .terminal .rawString ∨ l = .terminal .string := by
      decide
    rcases only l hl (starts_of_recognise hlr) with rfl | rfl
    · simp [recognise, Terminal.recognise, rawString] at hlr
    · simp [recognise, Terminal.recognise, Recogniser.string] at hlr
  · have none : ∀ l ∈ before (.terminal .char), l.starts '\'' = false := by decide
    simp [recognise_eq_none_of_starts (none l hl)] at hlr

theorem number_eq {l : Lexeme} {j : Nat} (h : first Expected.anything x = some (l, j))
    (hr : Recogniser.number x = some k) : j = k := by
  obtain ⟨c, r, rfl⟩ : ∃ c r, x = c :: r := by
    cases x with
    | nil => simp at h
    | cons c r => exact ⟨c, r, rfl⟩
  have hc : c.isDigit = true := starts_of_recognise (l := .terminal .number) hr
  have hne : c ≠ '/' ∧ c ≠ 'r' ∧ c ≠ 'b' ∧ c ≠ '"' ∧ c ≠ '\'' := by
    refine ⟨?_, ?_, ?_, ?_, ?_⟩ <;> rintro rfl <;> exact absurd hc (by decide)
  have hb : before (.terminal .number) = [.terminal .docComment, .terminal .rawString,
    .terminal .innerDoc, .comment, .terminal .string, .terminal .char] := rfl
  refine eq_of_starts (m := .terminal .number) h (by decide) (by decide) hr fun l' hl' => ?_
  simp only [hb, List.mem_cons, List.not_mem_nil, or_false] at hl'
  rcases hl' with rfl | rfl | rfl | rfl | rfl | rfl <;> simp [starts, hne]

/-- A slash that starts no comment is a lexeme of its own. -/
theorem punct_eq {l : Lexeme} {j : Nat} (h : first Expected.anything x = some (l, j))
    (hr : punct x = some k) (hc : Recogniser.comment x = none) : j = k := by
  rcases first_eq_or_before (m := .terminal .punct) h (by decide) (by decide) hr with h' | hl
  · exact h'.2
  obtain ⟨c, r, rfl⟩ : ∃ c r, x = c :: r := by
    cases x with
    | nil => simp at h
    | cons c r => exact ⟨c, r, rfl⟩
  have hlr := (first_eq_some h).2
  have hmem : c ∈ ['.', '/', '%', '^', '|', '@', '$', '~'] := by
    have := starts_of_recognise (l := .terminal .punct) (r := r) hr
    simpa only [starts, List.contains_iff_mem] using this
  have only : ∀ c ∈ ['.', '/', '%', '^', '|', '@', '$', '~'], ∀ l ∈ before (.terminal .punct),
      l.starts c = true → l = .comment ∨ l = .terminal .docComment ∨ l = .terminal .innerDoc := by
    simp only [List.forall_mem_cons, List.not_mem_nil, false_implies, implies_true, and_true]
    decide
  rcases only c hmem l hl (starts_of_recognise hlr) with rfl | rfl | rfl
  · exact absurd (hlr.symm.trans hc) (by simp)
  · exact absurd ((comment_of_docComment hlr).symm.trans hc) (by simp)
  · exact absurd ((comment_of_innerDoc hlr).symm.trans hc) (by simp)

theorem word_eq_of_all {w z : List Char} (hw : w ≠ []) (hall : ∀ c ∈ w, isWordChar c = true)
    (hz : ∀ c ∈ z.head?, isWordChar c = false) (h : word (w ++ z) = some k) : k = w.length := by
  obtain ⟨c, w, rfl⟩ := List.exists_cons_of_ne_nil hw
  simp only [List.cons_append, word] at h
  split at h
  · obtain rfl := Option.some.inj h
    rw [run_eq_of_append (fun d hd => hall d (by simp [hd])), List.length_cons, Nat.add_comm]
    cases z with
    | nil => rfl
    | cons d z => simp [hz d (by simp)]
  · simp at h

/-- The rest of a longer name after a keyword. -/
theorem off_of_keyword {w z : List Char} (hall : ∀ c ∈ w, isWordChar c = true)
    (hz : ∀ c ∈ z.head?, isWordChar c = false) (h : Tiled z) (hu : u ∈ Terminal.keywords)
    (he : Grammar.isOrderly u e = true) : Aligned e (w ++ z) := by
  by_cases hw : w = []
  · subst hw
    exact .inl h
  · have hu' : Terminal.keywords.contains u = true := by simpa using hu
    simp only [Grammar.isOrderly, hu', Bool.not_true, Bool.false_or, Bool.and_eq_true,
      List.any_cons, List.any_nil, Bool.or_false, Bool.not_eq_true', Bool.or_eq_false_iff] at he
    exact .inr (.word hw hall hz (by simpa using he.1.2.1) (by simpa using he.1.2.2) h)

theorem keyword_word : ∀ t ∈ Terminal.keywords, (t.spelling.all isWordChar &&
    t.spelling.head?.all isWordStart && t.spelling.head?.all (fun c => c != 'r' && c != 'b')) =
      true := by
  decide

theorem keyword_recognise (hu : u ∈ Terminal.keywords) : u.recognise = exactly u.spelling := by
  cases u <;> first | rfl | exact absurd hu (by decide)

/-- A plain name takes word characters as far as they go. -/
theorem word_spec (h : word x = some k) : (∀ c ∈ x.take k, isWordChar c = true) ∧
    ∀ c ∈ (x.drop k).head?, isWordChar c = false := by
  cases x with
  | nil => simp [word] at h
  | cons c r =>
    simp only [word] at h
    split at h
    · rename_i hc
      obtain rfl := Option.some.inj h
      have hc' : isWordChar c = true := by
        simp only [isWordStart, isWordChar, Char.isAlphanum, Bool.or_eq_true] at hc ⊢
        exact hc.imp_left .inl
      refine ⟨?_, ?_⟩
      · exact Within.cons hc' (within_run (fun _ h => h) r)
      · rw [Nat.add_comm, List.drop_succ_cons, drop_run]
        intro d hd
        simpa using List.head?_dropWhile_not isWordChar r |> fun h => by
          rw [Option.mem_def.mp hd] at h
          exact h
    · simp at h

/-- A text that starts with a keyword starts with a name, of which the keyword is the front. -/
theorem keyword_eq {l : Lexeme} {j : Nat} (h : first Expected.anything x = some (l, j))
    (hr : u.recognise x = some k) (hu : u ∈ Terminal.keywords) :
    ∃ w, x.drop k = w ++ x.drop j ∧ (∀ c ∈ w, isWordChar c = true) ∧
      ∀ c ∈ (x.drop j).head?, isWordChar c = false := by
  rw [keyword_recognise hu] at hr
  obtain ⟨⟨t, rfl⟩, rfl⟩ := exactly_eq_some hr
  obtain ⟨c, s, hs⟩ := List.exists_cons_of_ne_nil
    (Terminal.spelling_ne_nil_iff.mpr (List.mem_append_left _ hu))
  have hkey := keyword_word u hu
  simp only [hs, List.head?_cons, Option.all_some, Bool.and_eq_true, List.all_eq_true,
    bne_iff_ne] at hkey
  obtain ⟨⟨hall, hc⟩, hcr, hcb⟩ := hkey
  -- The keyword is read as the front of a word.
  have hword : word (u.spelling ++ t) = some (u.spelling.length + run isWordChar t) := by
    have hrun : run isWordChar (s ++ t) = s.length + run isWordChar t := by
      have : run isWordChar s = s.length := by
        rw [run, List.takeWhile_eq_self_iff.mpr fun d hd => hall d (by simp [hd])]
      rw [run_append, if_pos this]
    simp only [hs, List.cons_append, word, hc, if_true, hrun, List.length_cons]
    congr 1
    omega
  have hident : ident (u.spelling ++ t) = word (u.spelling ++ t) := by
    refine ident_plain fun r hr => ?_
    rw [hs] at hr
    exact absurd (List.cons.inj hr).1 hcr
  rcases first_eq_or_before (m := .terminal .ident) h (by decide) (by decide)
    (hident.trans hword) with ⟨-, rfl⟩ | hl
  · obtain ⟨hw, hz⟩ := word_spec hword
    refine ⟨t.take (run isWordChar t), ?_, fun d hd => hw d ?_, hz⟩
    · rw [← List.drop_drop, List.drop_left, List.take_append_drop]
    · rw [List.take_append]
      simp [hd]
  · exfalso
    have hlr := (first_eq_some h).2
    rw [hs] at hlr
    have hstart := starts_of_recognise (c := c) (r := s ++ t) hlr
    have hq : c ≠ '"' ∧ c ≠ '\'' := by
      constructor <;> rintro rfl <;> exact absurd hc (by decide)
    rcases literal_of_wordStart hc hl hstart with rfl | rfl | rfl <;>
      simp_all [starts]

/-- A colon or a minus is a lexeme as a whole, or it is cut off `::` or `->`. -/
theorem cut_symbol_eq {l : Lexeme} {j : Nat} (h : first Expected.anything x = some (l, j))
    (hr : (Lexeme.terminal u).recognise x = some k) (hu : u ∈ [Terminal.colon, Terminal.minus]) :
    j = k ∨ ∃ c z, x.drop k = c :: z ∧ c ∈ [':', '>'] ∧ z = x.drop j := by
  have hu' : u ∈ Terminal.symbols := by
    simp only [List.mem_cons, List.not_mem_nil, or_false] at hu
    rcases hu with rfl | rfl <;> decide
  obtain ⟨ho, ht, heq⟩ := symbol_tried u hu'
  -- Otherwise a lexeme that is tried before it has been found.
  rcases first_eq_or_before h ho ht hr with h' | hl
  · exact .inl h'.2
  right
  have hlr := (first_eq_some h).2
  rw [recognise, heq] at hr
  obtain ⟨⟨r, rfl⟩, rfl⟩ := exactly_eq_some hr
  simp only [List.mem_cons, List.not_mem_nil, or_false] at hu
  rcases hu with rfl | rfl
  · have only : ∀ l ∈ before (.terminal .colon), l.starts ':' = true → l = .terminal .pathSep := by
      decide
    obtain rfl := only l hl (starts_of_recognise (c := ':') (r := r) hlr)
    obtain ⟨⟨t, ht⟩, rfl⟩ := exactly_eq_some hlr
    obtain rfl := (List.cons.inj ht).2
    exact ⟨':', t, rfl, by simp, rfl⟩
  · have only : ∀ l ∈ before (.terminal .minus), l.starts '-' = true → l = .terminal .arrow := by
      decide
    obtain rfl := only l hl (starts_of_recognise (c := '-') (r := r) hlr)
    obtain ⟨⟨t, ht⟩, rfl⟩ := exactly_eq_some hlr
    obtain rfl := (List.cons.inj ht).2
    exact ⟨'>', t, rfl, by simp, rfl⟩

/-- After a lexeme the scanner is at a lexeme again, or it has cut one in a way that it notices. -/
theorem Tiled.aligned (h : Tiled x) (hf : first e x = some (.terminal u, k))
    (he : Grammar.Follows e (u.settle e (x.take k)) e') : Aligned e' (x.drop k) := by
  obtain ⟨l, j, hl⟩ := h.exists_first (by rintro rfl; simp at hf)
  have hdrop := h.drop hl
  obtain ⟨hu, -, hr, hb⟩ := first_eq_some_iff.mp hf
  rcases he with rfl | he
  · obtain ⟨-, rfl⟩ := Prod.mk.inj (Option.some.inj (hl.symm.trans hf))
    exact .inl hdrop
  have whole : j = k → Aligned e' (x.drop k) := fun hjk => .inl (hjk ▸ hdrop)
  -- A keyword may be the start of a longer word.
  by_cases hkey : u ∈ Terminal.keywords
  · obtain ⟨w, hw, hall, hz⟩ := keyword_eq hl hr hkey
    have hsettle : u.settle e (x.take k) = u := by
      rw [Terminal.settle, if_neg (by rintro rfl; exact absurd hkey (by decide))]
    rw [hw]
    exact off_of_keyword hall hz hdrop hkey (hsettle ▸ he)
  -- Of the symbols, only `:` and `-` can be the start of longer ones.
  by_cases hsym : u ∈ Terminal.symbols ∧ u ∉ [Terminal.colon, Terminal.minus]
  · exact whole (symbol_eq hl hr hsym.1 hsym.2)
  have hcomment : ∀ {i}, Recogniser.comment x = some i → j = i := fun hc => eq_of_comment hc hl
  have hmem : u ∈ [Terminal.docComment, .innerDoc, .rawString, .string, .char, .number, .punct,
      .ident, .lifetime, .colon, .minus, .eof, .unknown] := by
    revert hkey hsym
    cases u <;> decide
  simp only [List.mem_cons, List.not_mem_nil, or_false] at hmem
  rcases hmem with rfl | rfl | rfl | rfl | rfl | rfl | rfl | rfl | rfl | rfl | rfl | rfl | rfl
  · exact whole (hcomment (comment_of_docComment hr))
  · exact whole (hcomment (comment_of_innerDoc hr))
  · exact whole (eq_of_rawString (by decide) hr hl)
  · exact whole (string_eq hl hr)
  · exact whole (char_eq hl hr)
  · exact whole (number_eq hl hr)
  · exact whole (punct_eq hl hr (hb .comment (by decide) rfl))
  · -- A name can be the start of a byte string, and a lifetime that of a character.
    rcases ident_eq_or_leavesQuote hl hr with h' | h'
    · exact whole h'
    · rw [settle_of_leavesQuote h'] at he
      exact .inr (off_of_leavesQuote h' he)
  · rcases lifetime_eq_or_leavesQuote hl hr with h' | ⟨r, h'⟩
    · exact whole h'
    · rw [h']
      refine .inr (.stuck (by simp) (first_eq_none fun m hm hs => ?_))
      have only : ∀ m ∈ order, m.starts '\'' = true →
          m = .terminal .char ∨ m = .terminal .lifetime := by
        decide
      simp [Grammar.isOrderly, Terminal.settle] at he
      rcases only m hm hs with rfl | rfl <;> simp [tried] <;> tauto
  -- The colon and the minus
  iterate 2
    rcases cut_symbol_eq hl hr (by decide) with h' | ⟨c, z, hd, hc, rfl⟩
    · exact whole h'
    · rw [hd]
      exact .inr (.symbol hc hdrop)
  · simp [recognise, Terminal.recognise] at hr
  · simp [recognise, Terminal.recognise] at hr

/-- The classes that can start with a character of a word. -/
theorem class_of_wordChar {c : Char} {l : Lexeme} (hc : isWordChar c = true) (hl : l ∈ order)
    (hs : l.starts c = true) :
    l ∈ [.terminal .rawString, .terminal .string, .terminal .char, .terminal .number,
      .terminal .ident] ++ Terminal.keywords.map Lexeme.terminal := by
  have classes : ∀ l ∈ order, l ∈ [.terminal .rawString, .terminal .string, .terminal .char,
      .terminal .number, .terminal .ident] ++ Terminal.keywords.map Lexeme.terminal ∨
      l ∈ [.layout, .comment, .terminal .docComment, .terminal .innerDoc, .terminal .lifetime,
        .terminal .punct] ++ Terminal.symbols.map Lexeme.terminal := by
    decide
  -- The other classes start with layout, with a quote or with punctuation.
  refine (classes l hl).resolve_right fun hmem => ?_
  rcases List.mem_append.mp hmem with hmem | hmem
  · have hchars : ∀ d ∈ ['\'', '.', '/', '%', '^', '|', '@', '$', '~'], c ≠ d := by
      rintro d hd rfl
      have hnone : ∀ d ∈ ['\'', '.', '/', '%', '^', '|', '@', '$', '~'], isWordChar d = false := by
        simp only [List.forall_mem_cons, List.not_mem_nil, false_implies, implies_true, and_true]
        decide
      simp [hnone c hd] at hc
    have hslash : c ≠ '/' := hchars '/' (by decide)
    simp only [List.mem_cons, List.not_mem_nil, or_false] at hmem
    rcases hmem with rfl | rfl | rfl | rfl | rfl | rfl
    · simp [starts, not_isLayout_of_tokenChar (isTokenChar_of_word hc)] at hs
    · simp [starts, hslash] at hs
    · simp [starts, hslash] at hs
    · simp [starts, hslash] at hs
    · simp [starts, hchars '\'' (by decide)] at hs
    · simp only [starts, List.contains_iff_mem] at hs
      exact hchars c (List.mem_cons_of_mem _ hs) rfl
  · obtain ⟨t, ht, rfl⟩ := List.mem_map.mp hmem
    have hspell : ∀ t ∈ Terminal.symbols,
        (t.spelling.head?.all fun d => !isWordChar d) = true := by
      decide
    have hstarts : starts (.terminal t) = fun d => t.spelling.head? == some d := by
      cases t <;> first | rfl | exact absurd ht (by decide)
    have hhead : t.spelling.head? = some c := by simpa [hstarts] using hs
    have := hspell t ht
    simp [hhead, hc] at this

theorem cut_word {w z s t : List Char} (h : w ++ z = s ++ t) (hs : ∀ c ∈ s, isWordChar c = true)
    (hz : ∀ c ∈ z.head?, isWordChar c = false) : ∃ w', w = s ++ w' ∧ t = w' ++ z := by
  rcases List.append_eq_append_iff.mp h with ⟨a, rfl, hzt⟩ | ⟨a, rfl, rfl⟩
  · cases a with
    | nil => exact ⟨[], by simp, by simpa using hzt.symm⟩
    | cons d a =>
      have := hz d (by simp [hzt])
      simp [hs d (by simp)] at this
  · exact ⟨a, rfl, rfl⟩

theorem aligned_of_symbol {c : Char} {z : List Char} (hc : c ∈ [':', '>']) (h : Tiled z)
    (hf : first e (c :: z) = some (.terminal u, k)) : Aligned e' ((c :: z).drop k) := by
  obtain ⟨hu, -, hr, -⟩ := first_eq_some_iff.mp hf
  have only : ∀ c ∈ [':', '>'], ∀ l ∈ order, l.starts c = true →
      l = .terminal .pathSep ∨ l = .terminal .colon ∨ l = .terminal .gt := by
    simp only [List.forall_mem_cons, List.not_mem_nil, false_implies, implies_true, and_true]
    decide
  rcases only c hc _ hu (starts_of_recognise hr) with h' | h' | h' <;> cases h'
  · obtain ⟨⟨t, ht⟩, rfl⟩ := exactly_eq_some hr
    obtain rfl : z = ':' :: t := (List.cons.inj ht).2.symm
    -- A `::` from the middle of another one: its second half may be cut off a third.
    obtain ⟨l, j, hl⟩ := h.exists_first (by simp)
    have hcolon : (Lexeme.terminal .colon).recognise (':' :: t) = some 1 := exactly_append [':'] t
    change Aligned e' t
    rcases cut_symbol_eq hl hcolon (by decide) with rfl | ⟨d, z, hd, hd', rfl⟩
    · exact .inl (h.drop hl)
    · rw [show t = d :: List.drop j (':' :: t) by simpa using hd]
      exact .inr (.symbol hd' (h.drop hl))
  · obtain ⟨-, rfl⟩ := exactly_eq_some hr
    exact .inl h
  · obtain ⟨-, rfl⟩ := exactly_eq_some hr
    exact .inl h

section Word

variable {w z : List Char} (hw : w ≠ []) (hall : ∀ c ∈ w, isWordChar c = true)
  (hz : ∀ c ∈ z.head?, isWordChar c = false) (h : Tiled z)

include hw hall

/-- A word whose first character is followed by something else has only that character. -/
theorem eq_of_cut_word {c q : Char} {r : List Char} (hs : w ++ z = c :: q :: r)
    (hq : isWordChar q = false) : w = [c] ∧ z = q :: r := by
  obtain ⟨a, w, rfl⟩ := List.exists_cons_of_ne_nil hw
  obtain ⟨rfl, htail⟩ := List.cons.inj hs
  cases w with
  | nil => exact ⟨rfl, htail⟩
  | cons d w =>
    obtain ⟨rfl, -⟩ := List.cons.inj htail
    have := hall d (by simp)
    simp [hq] at this

include h

theorem aligned_of_byteString (hr : Recogniser.string (w ++ z) = some k) :
    Tiled ((w ++ z).drop k) := by
  rcases string_eq_some.mp hr with hr | hr <;> obtain ⟨r, i, hs, hi, rfl⟩ := after_eq_some.mp hr
  · obtain ⟨-, rfl⟩ := eq_of_cut_word hw hall hs (by decide)
    have hz' : Recogniser.string ('"' :: r) = some (i + 1) :=
      string_eq_some.mpr (.inr (after_eq_some.mpr ⟨r, i, rfl, hi, rfl⟩))
    obtain ⟨l, j, hl⟩ := h.exists_first (by simp)
    obtain rfl := string_eq hl hz'
    rw [hs]
    exact h.drop hl
  · obtain ⟨c, w, rfl⟩ := List.exists_cons_of_ne_nil hw
    obtain ⟨rfl, -⟩ := List.cons.inj hs
    exact absurd (hall '"' (by simp)) (by decide)

theorem aligned_of_byteChar (hr : Recogniser.char (w ++ z) = some k) :
    Tiled ((w ++ z).drop k) := by
  rcases char_eq_some.mp hr with hr | hr <;> obtain ⟨r, i, hs, hi, rfl⟩ := after_eq_some.mp hr
  · obtain ⟨-, rfl⟩ := eq_of_cut_word hw hall hs (by decide)
    have hz' : Recogniser.char ('\'' :: r) = some (i + 1) :=
      char_eq_some.mpr (.inr (after_eq_some.mpr ⟨r, i, rfl, hi, rfl⟩))
    obtain ⟨l, j, hl⟩ := h.exists_first (by simp)
    obtain rfl := char_eq hl hz'
    rw [hs]
    exact h.drop hl
  · obtain ⟨c, w, rfl⟩ := List.exists_cons_of_ne_nil hw
    obtain ⟨rfl, -⟩ := List.cons.inj hs
    exact absurd (hall '\'' (by simp)) (by decide)

include hz

/-- A name from the middle of a word: the rest of the word, or a raw name whose mark was a lexeme of
its own. -/
theorem aligned_of_name (hr : ident (w ++ z) = some k)
    (he : Grammar.isOrderly (Terminal.ident.settle e ((w ++ z).take k)) e' = true) :
    Aligned e' ((w ++ z).drop k) := by
  -- The mark `r#` of a raw name can only be cut out if `r` is the rest of the word.
  rcases ident_forms (w ++ z) with ⟨r, n, hs, hn⟩ | hplain
  · obtain ⟨-, rfl⟩ := eq_of_cut_word hw hall hs (by decide)
    rw [hs] at hr he ⊢
    rw [ident_raw hn, Option.some.injEq] at hr
    obtain ⟨l, j, hl⟩ := h.exists_first (by simp)
    have hhash : Terminal.hash.recognise ('#' :: r) = some 1 := exactly_append ['#'] r
    obtain rfl := symbol_eq hl hhash (by decide) (by decide)
    have hrest : Tiled r := h.drop hl
    obtain ⟨l', j', hl'⟩ := hrest.exists_first (by rintro rfl; simp [word] at hn)
    subst hr
    change Aligned e' (r.drop n)
    rcases word_eq_or_leavesQuote hl' hn with rfl | hquote
    · exact .inl (hrest.drop hl')
    · have hkind : Terminal.ident.settle e (('r' :: '#' :: r).take (n + 2)) = .ident := by
        rw [Terminal.settle, if_pos rfl]
        refine (ofName_cases e _).resolve_right fun hk => ?_
        have hall := keyword_word _ hk.1
        rw [hk.2] at hall
        simp [isWordChar] at hall
      exact .inr (off_of_leavesQuote hquote (hkind ▸ he))
  · rw [ident_plain hplain] at hr
    obtain rfl := word_eq_of_all hw hall hz hr
    rw [List.drop_left]
    exact .inl h

end Word

theorem Off.aligned (h : Off e x) (hf : first e x = some (.terminal u, k))
    (he : Grammar.Follows e (u.settle e (x.take k)) e') : Aligned e' (x.drop k) := by
  obtain ⟨hu, ht, hr, -⟩ := first_eq_some_iff.mp hf
  cases h with
  | stuck hc hn => simp [hn] at hf
  | symbol hc h => exact aligned_of_symbol hc h hf
  | @word w z hw hall hz hnum hraw h =>
    have he : Grammar.isOrderly (u.settle e ((w ++ z).take k)) e' = true := by
      rcases he with rfl | he
      · exact absurd (by decide) hnum
      · exact he
    have hmem : .terminal u ∈ [.terminal .rawString, .terminal .string, .terminal .char,
        .terminal .number, .terminal .ident] ++ Terminal.keywords.map Lexeme.terminal := by
      obtain ⟨c, w, rfl⟩ := List.exists_cons_of_ne_nil hw
      exact class_of_wordChar (hall c (by simp)) hu (starts_of_recognise (r := w ++ z) hr)
    -- A rest of a word is the start of a literal, a name or a keyword.
    rcases List.mem_append.mp hmem with hmem | hmem
    · simp only [List.mem_cons, List.not_mem_nil, or_false, Lexeme.terminal.injEq] at hmem
      rcases hmem with rfl | rfl | rfl | rfl | rfl
      · simp [tried, hraw] at ht
      · exact .inl (aligned_of_byteString hw hall h hr)
      · exact .inl (aligned_of_byteChar hw hall h hr)
      · simp [tried, hnum] at ht
      · exact aligned_of_name hw hall hz h hr he
    · obtain ⟨t, htk, heq⟩ := List.mem_map.mp hmem
      obtain rfl := Lexeme.terminal.inj heq
      rw [recognise, keyword_recognise htk] at hr
      obtain ⟨⟨r, hs⟩, rfl⟩ := exactly_eq_some hr
      have hkey := keyword_word t htk
      simp only [Bool.and_eq_true, List.all_eq_true] at hkey
      obtain ⟨w', hw', rfl⟩ := cut_word hs.symm hkey.1.1 hz
      rw [← hs, List.drop_left]
      rw [Terminal.settle, if_neg (by rintro rfl; exact absurd htk (by decide))] at he
      exact off_of_keyword (fun d hd => hall d (by rw [hw']; simp [hd])) hz h htk he

end Step

/-! ## Tokens -/

/-- What stands next if `u` is added to the end of the text. -/
def Next.extend (u : List Char) : Next → Next
  | ended g => ended (g ++ u)
  | token t rest => token t (rest ++ u)
  | unknown g rest => unknown g (rest ++ u)

namespace Next

@[simp] theorem kind_extend (u : List Char) (n : Next) : (n.extend u).kind = n.kind := by
  cases n <;> rfl

theorem extend_prepend (g u : List Char) (n : Next) :
    (n.prepend g).extend u = (n.extend u).prepend g := by
  cases n <;> simp [prepend, extend]

end Next

section Tokens

open Next

variable {e e' : Expectation} {x y u : List Char} {t : Token}

/-- What is passed over is a lexeme of the wider expectation. -/
theorem eq_of_skipped {l l' : Lexeme} {j k : Nat} (h : first Expected.anything x = some (l, j))
    (hf : first e x = some (l', k)) (hl' : l'.skipped = true) : j = k := by
  have hr := (first_eq_some hf).2
  cases l' with
  | terminal => simp [skipped] at hl'
  | comment => exact eq_of_comment hr h
  | layout =>
    obtain ⟨c, r, rfl⟩ : ∃ c r, x = c :: r := by
      cases x with
      | nil => simp at h
      | cons c r => exact ⟨c, r, rfl⟩
    have hc : isLayout c = true := starts_of_recognise hr
    have h₁ := first_of_layout (e := Expected.anything) hc r
    have h₂ := first_of_layout (e := e) hc r
    simp_all

theorem Tiled.of_append_layout (h : Tiled x) (hu : ∀ c ∈ u, isLayout c = true) :
    of e (x ++ u) = (of e x).extend u := by
  induction h with
  | nil =>
    rw [List.nil_append, of_layout hu, of_nil]
    rfl
  | @step x l k hf hline rest ih =>
    -- Layout behind layout makes it longer. Otherwise the first lexeme is the same.
    by_cases hx : ∃ a ∈ x, isLayout a = false
    · have hfirst : first e (x ++ u) = first e x := first_append_layout hu hx hline
      cases hfe : first e x with
      | none =>
        have hne : x ≠ [] := by rintro rfl; simp at hf
        rw [of_unknown hne hfe, of_unknown (by simp [hne]) (hfirst.trans hfe)]
        rfl
      | some p =>
        obtain ⟨l', j⟩ := p
        have hj := (first_bounds hfe).2
        have htake : (x ++ u).take j = x.take j := List.take_append_of_le_length hj
        have hdrop : (x ++ u).drop j = x.drop j ++ u := List.drop_append_of_le_length hj
        cases hskip : l'.skipped with
        | true =>
          obtain rfl := eq_of_skipped hf hfe hskip
          rw [of_skip hfe hskip, of_skip (hfirst.trans hfe) hskip, htake, hdrop, ih, extend_prepend]
        | false =>
          obtain ⟨v, rfl⟩ : ∃ v, l' = .terminal v := by
            cases l' <;> simp_all [skipped]
          rw [of_token hfe, of_token (hfirst.trans hfe), htake, hdrop]
          rfl
    · have hx' : ∀ c ∈ x, isLayout c = true := by simpa using hx
      rw [of_layout hx', of_layout (by simpa using fun c hc => hc.elim (hx' c) (hu c))]
      rfl

/-- Inside of a lexeme there is neither layout nor a slash. -/
theorem Off.head (h : Off e x) : ∃ c r, x = c :: r ∧ isLayout c = false ∧ c ≠ '/' := by
  cases h with
  | stuck hc =>
    refine ⟨_, _, rfl, ?_⟩
    simp only [List.mem_cons, List.not_mem_nil, or_false] at hc
    rcases hc with rfl | rfl | rfl <;> exact ⟨rfl, by decide⟩
  | symbol hc =>
    refine ⟨_, _, rfl, ?_⟩
    simp only [List.mem_cons, List.not_mem_nil, or_false] at hc
    rcases hc with rfl | rfl <;> exact ⟨rfl, by decide⟩
  | word hw hall =>
    obtain ⟨c, w, rfl⟩ := List.exists_cons_of_ne_nil hw
    have hc := hall c (by simp)
    refine ⟨c, _, rfl, not_isLayout_of_tokenChar (isTokenChar_of_word hc), ?_⟩
    rintro rfl
    exact absurd hc (by decide)

theorem not_skipped_of_head {c : Char} {r : List Char} {l : Lexeme} {k : Nat}
    (hc : isLayout c = false) (hslash : c ≠ '/') (h : first e (c :: r) = some (l, k)) :
    l.skipped = false := by
  have hs := starts_of_recognise (first_eq_some h).2
  cases l with
  | layout => simp [starts, hc] at hs
  | comment => simp [starts, hslash] at hs
  | terminal => rfl

theorem Off.of_append_layout (h : Off e x) (hu : ∀ c ∈ u, isLayout c = true) :
    of e (x ++ u) = (of e x).extend u := by
  obtain ⟨c, r, rfl, hc, hslash⟩ := h.head
  have hfirst : first e (c :: r ++ u) = first e (c :: r) := by
    refine first_append_layout hu ⟨c, by simp, hc⟩ fun hs => ?_
    obtain ⟨t, ht⟩ := hs
    exact absurd (List.cons.inj ht).1.symm hslash
  cases hfe : first e (c :: r) with
  | none =>
    rw [of_unknown (by simp) hfe, of_unknown (by simp) (hfirst.trans hfe)]
    rfl
  | some p =>
    obtain ⟨l, j⟩ := p
    have hj := (first_bounds hfe).2
    cases l with
    | layout | comment => simpa [skipped] using not_skipped_of_head hc hslash hfe
    | terminal v =>
      rw [of_token hfe, of_token (hfirst.trans hfe), List.take_append_of_le_length hj,
        List.drop_append_of_le_length hj]
      rfl

/-- Layout behind a text makes no difference to the token that stands next. -/
theorem Aligned.of_append_layout (h : Aligned e x) (hu : ∀ c ∈ u, isLayout c = true) :
    of e (x ++ u) = (of e x).extend u :=
  h.elim (·.of_append_layout hu) (·.of_append_layout hu)

/-- A token may have a gap in front only where a lexeme starts. -/
theorem Tiled.of_gap (h : Tiled x) (hx : of e x = token t y) : Tiled (t.text ++ y) := by
  induction h generalizing t with
  | nil => simp at hx
  | @step x l k hf hline rest ih =>
    have hfound := found e x
    rw [hx] at hfound
    generalize hn : token t y = n at hfound
    cases hfound with
    | ended | unknown => simp at hn
    | token hv =>
      obtain ⟨rfl, rfl⟩ := Next.token.inj hn
      rw [List.take_append_drop]
      exact .step hf hline rest
    | @skip _ l' j n' hl hskip hrest =>
      obtain rfl := eq_of_skipped hf hl hskip
      cases n' with
      | ended | unknown => simp [prepend] at hn
      | token t' rest' =>
        obtain ⟨rfl, rfl⟩ := Next.token.inj hn
        have := ih hrest.eq_of
        exact this

/-- A token leads from one place where the scans are in step to the next. -/
theorem Aligned.after_token (h : Aligned e x) (hx : of e x = token t y)
    (he : Grammar.Follows e t.kind e') : Aligned e' y := by
  obtain ⟨hsplit, v, hkind, hv⟩ := of_eq_token hx
  have htake : (t.text ++ y).take t.text.length = t.text := List.take_left
  have hdrop : (t.text ++ y).drop t.text.length = y := List.drop_left
  rw [hkind] at he
  rcases h with h | h
  · have := (h.of_gap hx).aligned hv (by rwa [htake])
    rwa [hdrop] at this
  · obtain ⟨c, r, rfl, hc, hslash⟩ := h.head
    have hfound := found e (c :: r)
    rw [hx] at hfound
    generalize hn : token t y = n at hfound
    cases hfound with
    | unknown => simp at hn
    | token hf =>
      obtain ⟨rfl, rfl⟩ := Next.token.inj hn
      exact h.aligned hf (by rw [← hkind] at he; exact he)
    | skip hl hskip => simp [not_skipped_of_head hc hslash hl] at hskip

end Tokens
end ShadowImpl
