import Mathlib.Data.List.TakeWhile
import Mathlib.Tactic.Common
import ShadowImpl.Proofs.Recognition

/-!
# Recognisers and what follows a lexeme

A lexeme that ends inside of `x` is found in `x` alone just as it is found in `x ++ u`. The
other way around, what is found in `x` alone is found in `x ++ u` unless some class reads
over the end of `x`.
-/

namespace ShadowImpl.Recogniser

variable {x u : List Char} {k : Nat}

/-! ## Runs and marks -/

/-- A run goes on into the text behind `x` if it has taken all of `x`. -/
theorem run_append (p : Char → Bool) (x u : List Char) :
    run p (x ++ u) = if run p x = x.length then x.length + run p u else run p x := by
  unfold run
  rw [List.takeWhile_append]
  split <;> simp

/-- A run that ends in `x` ends there as well where nothing follows. -/
theorem run_cut {p : Char → Bool} (h : run p (x ++ u) ≤ x.length) : run p x = run p (x ++ u) := by
  rw [run_append] at h ⊢
  split
  · rename_i hx
    rw [if_pos hx] at h
    omega
  · rfl

/-- Nothing is found exactly if the mark does not occur. -/
theorem through_eq_none_iff {mark s : List Char} : through mark s = none ↔ ¬ mark <:+: s := by
  induction s with
  | nil => cases mark <;> simp [through]
  | cons c s ih =>
    simp only [through, List.infix_cons_iff, ← List.isPrefixOf_iff_prefix]
    split
    · simp_all
    · simp_all

/-- A mark that is found in `x` is found at the same place without what follows. -/
theorem through_cut {mark : List Char} (h : through mark (x ++ u) = some k) (hk : k ≤ x.length) :
    through mark x = some k := by
  induction x generalizing k with
  | nil =>
    have := through_le h
    obtain rfl : mark = [] := List.length_eq_zero_iff.mp
      (by simp only [List.length_nil] at hk; omega)
    simp only [List.length_nil, Nat.le_zero] at hk
    simp [through, hk]
  | cons c x ih =>
    simp only [List.cons_append, through, List.length_cons] at h hk ⊢
    split at h
    · rename_i hp
      obtain rfl := Option.some.inj h
      have : mark <+: c :: x :=
        List.prefix_of_prefix_length_le (List.isPrefixOf_iff_prefix.mp hp)
          (List.prefix_append (c :: x) u) hk
      rw [if_pos (List.isPrefixOf_iff_prefix.mpr this)]
    · rename_i hp
      obtain ⟨j, hj, rfl⟩ := Option.map_eq_some_iff.mp h
      have hp' : ¬ mark.isPrefixOf (c :: x) = true := fun hc => hp
        (List.isPrefixOf_iff_prefix.mpr
          ((List.isPrefixOf_iff_prefix.mp hc).trans (List.prefix_append (c :: x) u)))
      rw [if_neg hp', ih hj (by omega)]
      rfl

/-- A first occurrence stays the first one when more text follows. -/
theorem through_grow {mark : List Char} (h : through mark x = some k) (u : List Char) :
    through mark (x ++ u) = some k := by
  induction x generalizing k with
  | nil =>
    simp only [through] at h
    split at h
    · rename_i hm
      obtain rfl := List.isEmpty_iff.mp hm
      cases u <;> simp_all [through]
    · simp at h
  | cons c x ih =>
    have hk := through_le h
    simp only [List.cons_append, through] at h ⊢
    split at h
    · rename_i hp
      have : mark <+: c :: (x ++ u) :=
        (List.isPrefixOf_iff_prefix.mp hp).trans (List.prefix_append (c :: x) u)
      rw [if_pos (List.isPrefixOf_iff_prefix.mpr this), h]
    · rename_i hp
      obtain ⟨j, hj, rfl⟩ := Option.map_eq_some_iff.mp h
      -- A mark that starts here and runs over the end of `x` would not fit into `x` later on.
      have hp' : ¬ mark.isPrefixOf (c :: (x ++ u)) = true := fun hc => hp
        (List.isPrefixOf_iff_prefix.mpr (List.prefix_of_prefix_length_le
          (List.isPrefixOf_iff_prefix.mp hc) (List.prefix_append (c :: x) u) (by omega)))
      rw [if_neg hp', ih hj]
      rfl

/-! ## Names -/

/-- A word that ends in `x` is a word of `x` alone. -/
theorem word_cut (h : word (x ++ u) = some k) (hk : k ≤ x.length) : word x = some k := by
  cases x with
  | nil =>
    have := word_bounds h
    simp only [List.length_nil] at hk
    omega
  | cons c x =>
    simp only [List.cons_append, word] at h ⊢
    split at h
    · rename_i hc
      rw [if_pos hc]
      simp only [Option.some.injEq, List.length_cons] at h hk ⊢
      rw [run_cut (u := u) (by omega), h]
    · simp at h

/-- What starts with a word still does when more text follows. -/
theorem word_isSome_append (h : (word x).isSome) (u : List Char) : (word (x ++ u)).isSome := by
  cases x with
  | nil => simp [word] at h
  | cons c x =>
    simp only [word, List.cons_append] at h ⊢
    split at h <;> simp_all

/-- With `r#` in front of it a word is a raw name. -/
theorem ident_raw {n : Nat} {r : List Char} (h : word r = some n) :
    ident ('r' :: '#' :: r) = some (n + 2) := by
  simp [ident, h]

/-- Without `r#` and a word behind it in front, a name is a word. -/
theorem ident_plain {s : List Char} (h : ∀ r, s = 'r' :: '#' :: r → word r = none) :
    ident s = word s := by
  unfold ident
  split
  · rw [h _ rfl]
  · rfl

/-- The two forms of a name. -/
theorem ident_forms (s : List Char) :
    (∃ r n, s = 'r' :: '#' :: r ∧ word r = some n) ∨
      ∀ r, s = 'r' :: '#' :: r → word r = none := by
  by_cases hs : ∃ r, s = 'r' :: '#' :: r
  · obtain ⟨r, rfl⟩ := hs
    cases h : word r with
    | none =>
      right
      intro r' hr'
      simp only [List.cons.injEq, true_and] at hr'
      rw [← hr', h]
    | some n => exact .inl ⟨r, n, rfl, h⟩
  · exact .inr fun r hr => absurd ⟨r, hr⟩ hs

/-- A name that ends in `x` is a name of `x` alone. -/
theorem ident_cut (h : ident (x ++ u) = some k) (hk : k ≤ x.length) : ident x = some k := by
  rcases ident_forms (x ++ u) with ⟨r, n, hs, hn⟩ | hs
  · rw [hs, ident_raw hn, Option.some.injEq] at h
    have := word_bounds hn
    match x with
    | [] | [_] =>
      simp only [List.length_cons, List.length_nil] at hk
      omega
    | a :: b :: x =>
      obtain ⟨rfl, rfl, rfl⟩ : a = 'r' ∧ b = '#' ∧ x ++ u = r := by simpa using hs
      simp only [List.length_cons] at hk
      rw [ident_raw (word_cut hn (by omega)), h]
  · rw [ident_plain hs] at h
    rw [ident_plain, word_cut h hk]
    rintro r rfl
    have hr := hs (r ++ u) rfl
    cases hw : word r with
    | none => rfl
    | some n =>
      have := word_isSome_append (x := r) (by simp [hw]) u
      simp [hr] at this

/-- Names start where words do: a raw name starts with the word `r`. -/
theorem ident_isSome (s : List Char) : (ident s).isSome = (word s).isSome := by
  rcases ident_forms s with ⟨r, n, rfl, hn⟩ | hs
  · rw [ident_raw hn]
    rfl
  · rw [ident_plain hs]

theorem lifetime_cut (h : lifetime (x ++ u) = some k) (hk : k ≤ x.length) :
    lifetime x = some k := by
  have hb := lifetime_bounds h
  cases x with
  | nil =>
    simp only [List.length_nil] at hk
    omega
  | cons c x =>
    by_cases hc : c = '\''
    · subst hc
      simp only [List.cons_append, lifetime, List.length_cons] at h hk ⊢
      obtain ⟨j, hj, rfl⟩ := Option.map_eq_some_iff.mp h
      rw [word_cut hj (by omega)]
      rfl
    · simp [lifetime, hc] at h

/-! ## Numbers -/

/-- The digits of a number with a prefix, up to a place in `x`. -/
theorem some1_cut {p : Char → Bool} (h : some1 p (x ++ u) = some k) (hk : k ≤ x.length) :
    some1 p x = some k := by
  unfold some1 at h ⊢
  split at h
  · simp at h
  · rename_i hr
    rw [Option.some.injEq] at h
    rw [run_cut (u := u) (by omega), if_neg hr, h]

/-- The fraction that follows, up to a place in `x`. -/
theorem fraction_cut (h : fraction (x ++ u) ≤ x.length) : fraction x = fraction (x ++ u) := by
  -- The fraction looks at two characters, so that only a single one is a case of its own.
  match x with
  | [] =>
    simp only [List.nil_append, List.length_nil, Nat.le_zero] at h
    rw [List.nil_append, h]
    rfl
  | [c] =>
    by_cases hc : c = '.'
    · subst hc
      cases u with
      | nil => rfl
      | cons d u =>
        simp only [List.cons_append, List.nil_append, fraction, List.length_cons,
          List.length_nil] at h ⊢
        split at h
        · omega
        · rename_i hd
          simp [hd]
    · simp [fraction, hc]
  | c :: d :: x =>
    by_cases hc : c = '.'
    · subst hc
      simp only [List.cons_append, fraction, List.length_cons] at h ⊢
      split
      · rename_i hd
        rw [if_pos hd] at h
        rw [run_cut (u := u) (by omega)]
      · rfl
    · simp [fraction, hc]

/-- The exponent that follows, up to a place in `x`. -/
theorem exponent_cut (h : exponent (x ++ u) ≤ x.length) : exponent x = exponent (x ++ u) := by
  match x with
  | [] =>
    simp only [List.nil_append, List.length_nil, Nat.le_zero] at h
    rw [List.nil_append, h]
    rfl
  | [c] =>
    cases u with
    | nil => rfl
    | cons d u =>
      simp only [List.cons_append, List.nil_append, exponent, List.length_cons,
        List.length_nil] at h ⊢
      by_cases hc : (c == 'e' || c == 'E') = true
      swap
      · simp [hc]
      simp only [hc, if_true] at h ⊢
      -- an exponent would take one more character than there is
      by_cases hd : (d == '+' || d == '-') = true
      · simp only [hd, if_true] at h ⊢
        by_cases hrun : run isDigitOrGap u = 0
        · simp [hrun]
        · rw [if_neg hrun] at h
          omega
      · rw [if_neg hd] at h ⊢
        by_cases hrun : run isDigitOrGap (d :: u) = 0
        · simp [hrun]
        · rw [if_neg hrun] at h
          omega
  | c :: d :: x =>
    simp only [List.cons_append, exponent, List.length_cons] at h ⊢
    split
    · rename_i hc
      rw [if_pos hc] at h
      split
      · rename_i hd
        rw [if_pos hd] at h
        rw [run_cut (u := u) (by split at h <;> omega)]
      · rename_i hd
        rw [if_neg hd] at h
        rw [← List.cons_append] at h ⊢
        rw [run_cut (u := u) (by simp only [List.length_cons]; split at h <;> omega)]
    · rfl

/-- A decimal number that ends in `x` is one of `x` alone. -/
theorem decimal_cut (h : decimal (x ++ u) = some k) (hk : k ≤ x.length) : decimal x = some k := by
  cases x with
  | nil =>
    have := decimal_bounds h
    simp only [List.length_nil] at hk
    omega
  | cons c x =>
    simp only [List.cons_append, decimal] at h ⊢
    split at h
    · rename_i hc
      rw [if_pos hc]
      rw [Option.some.injEq] at h ⊢
      rw [← List.cons_append] at h
      have hlen : (c :: x).length = x.length + 1 := rfl
      have h1 : run isDigitOrGap x = run isDigitOrGap (x ++ u) := run_cut (by omega)
      rw [← h1, List.drop_append_of_le_length (by omega)] at h
      have h2 := fraction_cut (x := (c :: x).drop (1 + run isDigitOrGap x)) (u := u)
        (by rw [List.length_drop]; omega)
      rw [← h2, List.drop_append_of_le_length (by omega)] at h
      rw [exponent_cut (u := u) (by rw [List.length_drop]; omega)]
      exact h
    · simp at h

/-- Digits behind a prefix such as `0x`, or a decimal number if there are none. Either ends in `x`.
-/
theorem some1_or_cut {p : Char → Bool} {c d : Char}
    (h : ((some1 p (x ++ u)).map (· + 2)).or (decimal (c :: d :: (x ++ u))) = some k)
    (hk : k ≤ x.length + 2) : ((some1 p x).map (· + 2)).or (decimal (c :: d :: x)) = some k := by
  rcases Option.or_eq_some_iff.mp h with h | ⟨hn, h⟩
  · obtain ⟨j, hj, rfl⟩ := Option.map_eq_some_iff.mp h
    rw [some1_cut hj (by omega)]
    rfl
  · have hr : run p (x ++ u) = 0 := by
      simp only [some1, Option.map_eq_none_iff] at hn
      split at hn
      · assumption
      · simp at hn
    have hr' : run p x = 0 := by rw [run_cut (u := u) (by omega), hr]
    rw [some1, if_pos hr']
    exact decimal_cut (x := c :: d :: x) h hk

/-- A single character has no prefix in front of it. -/
theorem digits_single (c : Char) : digits [c] = decimal [c] := by
  unfold digits
  split <;> simp_all

/-- A number has a marked base, or is read as a decimal one. -/
theorem digits_forms (c d : Char) :
    (c = '0' ∧ d ∈ ['x', 'o', 'b'] ∧ ∃ p : Char → Bool,
      (p = isHexOrGap ∨ p = isOctalOrGap ∨ p = isBinaryOrGap) ∧ ∀ r, digits (c :: d :: r) =
        ((some1 p r).map (· + 2)).or (decimal (c :: d :: r))) ∨
    ∀ r, digits (c :: d :: r) = decimal (c :: d :: r) := by
  by_cases hc : c = '0'
  · subst hc
    by_cases hx : d = 'x'
    · subst hx
      exact .inl ⟨rfl, by simp, isHexOrGap, .inl rfl, fun _ => rfl⟩
    by_cases ho : d = 'o'
    · subst ho
      exact .inl ⟨rfl, by simp, isOctalOrGap, .inr (.inl rfl), fun _ => rfl⟩
    by_cases hb : d = 'b'
    · subst hb
      exact .inl ⟨rfl, by simp, isBinaryOrGap, .inr (.inr rfl), fun _ => rfl⟩
    exact .inr fun r => by simp [digits, hx, ho, hb]
  · exact .inr fun r => by simp [digits, hc]

theorem digits_cut (h : digits (x ++ u) = some k) (hk : k ≤ x.length) : digits x = some k := by
  have hb := digits_bounds h
  -- The prefix of another base is two characters long.
  match x with
  | [] =>
    simp only [List.length_nil] at hk
    omega
  | [c] =>
    have hd : decimal ([c] ++ u) = some k := by
      cases u with
      | nil => exact (digits_single c).symm.trans h
      | cons d u =>
        rcases digits_forms c d with ⟨-, -, p, -, hp⟩ | hp
        · rw [List.cons_append, List.nil_append, hp u] at h
          rcases Option.or_eq_some_iff.mp h with h | ⟨-, h⟩
          · obtain ⟨j, hj, rfl⟩ := Option.map_eq_some_iff.mp h
            simp only [List.length_cons, List.length_nil] at hk
            omega
          · exact h
        · rw [List.cons_append, List.nil_append, hp u] at h
          exact h
    exact (digits_single c).trans (decimal_cut hd hk)
  | c :: d :: x =>
    rcases digits_forms c d with ⟨-, -, p, -, hp⟩ | hp
    · rw [List.cons_append, List.cons_append, hp] at h
      rw [hp]
      exact some1_or_cut h hk
    · rw [List.cons_append, List.cons_append, hp] at h
      rw [hp]
      exact decimal_cut (x := c :: d :: x) h hk

theorem suffix_cut (h : suffix (x ++ u) ≤ x.length) : suffix x = suffix (x ++ u) := by
  cases x with
  | nil =>
    simp only [List.nil_append, List.length_nil, Nat.le_zero] at h
    rw [List.nil_append, h]
    rfl
  | cons c x =>
    simp only [List.cons_append, suffix, List.length_cons] at h ⊢
    split
    · rename_i hc
      rw [if_pos hc] at h
      rw [run_cut (u := u) (by omega)]
    · rfl

/-- A number that ends in `x`, with its suffix, is one of `x` alone. -/
theorem number_cut (h : number (x ++ u) = some k) (hk : k ≤ x.length) : number x = some k := by
  unfold number at h ⊢
  obtain ⟨j, hj, rfl⟩ := Option.map_eq_some_iff.mp h
  rw [List.drop_append_of_le_length (by omega)] at hk ⊢
  rw [digits_cut hj (by omega), Option.map_some,
    suffix_cut (u := u) (by rw [List.length_drop]; omega)]

/-- Whether a number stands at the front is seen from the first character. -/
theorem number_isSome (s : List Char) : (number s).isSome = s.head?.any Char.isDigit := by
  have hd : ∀ s : List Char, (decimal s).isSome = s.head?.any Char.isDigit := by
    intro s
    cases s with
    | nil => rfl
    | cons c s => simp only [decimal, List.head?_cons, Option.any_some]; split <;> simp_all
  rw [number, Option.isSome_map, ← hd]
  match s with
  | [] => rfl
  | [c] => rw [digits_single]
  | c :: d :: r =>
    rcases digits_forms c d with ⟨rfl, -, p, -, hp⟩ | hp
    · rw [hp]
      simp [decimal]
    · rw [hp]

/-! ## Strings and characters -/

/-- A character that neither ends a string nor escapes belongs to it. -/
theorem stringRest_plain {c : Char} (hq : c ≠ '"') (hb : c ≠ '\\') (r : List Char) :
    stringRest (c :: r) = (stringRest r).map (· + 1) := by
  rw [stringRest]
  · exact hq
  · exact fun _ _ h _ => hb h
  · exact fun h _ => hb h

/-- A string that is closed in `x` is closed there without what follows. -/
theorem stringRest_cut (h : stringRest (x ++ u) = some k) (hk : k ≤ x.length) :
    stringRest x = some k := by
  have hpos := stringRest_bounds h
  -- By induction on what is skipped: an escape, or a character.
  fun_induction stringRest x generalizing k with
  | case1 => simp_all [stringRest]
  | case2 c r ih =>
    simp only [List.cons_append, stringRest, List.length_cons] at h hk
    obtain ⟨j, hj, rfl⟩ := Option.map_eq_some_iff.mp h
    rw [ih hj (by omega) (stringRest_bounds hj)]
    rfl
  | case3 =>
    cases u with
    | nil => simp [stringRest] at h
    | cons d u =>
      simp only [List.cons_append, List.nil_append, stringRest, List.length_cons,
        List.length_nil] at h hk
      obtain ⟨j, hj, rfl⟩ := Option.map_eq_some_iff.mp h
      omega
  | case4 c r hq hs hs' ih =>
    have hb : c ≠ '\\' := by
      rintro rfl
      cases r with
      | nil => exact hs' rfl rfl
      | cons d r => exact hs d r rfl rfl
    rw [List.cons_append, stringRest_plain hq hb] at h
    rw [List.length_cons] at hk
    obtain ⟨j, hj, rfl⟩ := Option.map_eq_some_iff.mp h
    rw [ih hj (by omega) (stringRest_bounds hj)]
    rfl
  | case5 =>
    simp only [List.length_nil] at hk
    omega

/-- A string that is closed is closed at the same place when more text follows. -/
theorem stringRest_grow (h : stringRest x = some k) (u : List Char) :
    stringRest (x ++ u) = some k := by
  fun_induction stringRest x generalizing k with
  | case1 => simp_all [stringRest]
  | case2 c r ih =>
    obtain ⟨j, hj, rfl⟩ := Option.map_eq_some_iff.mp h
    simp [stringRest, ih hj]
  | case4 c r hq hs hs' ih =>
    have hb : c ≠ '\\' := by
      rintro rfl
      cases r with
      | nil => exact hs' rfl rfl
      | cons d r => exact hs d r rfl rfl
    obtain ⟨j, hj, rfl⟩ := Option.map_eq_some_iff.mp h
    rw [List.cons_append, stringRest_plain hq hb, ih hj]
    rfl
  | case3 | case5 => simp at h

/-- The rest of a string ends at a quote, so without one there is no string. -/
theorem stringRest_eq_none (h : '"' ∉ x) : stringRest x = none := by
  fun_induction stringRest x with
  | case1 => simp at h
  | case2 c r ih => simp_all
  | case3 | case5 => rfl
  | case4 c r hq hs hs' ih => simp_all

/-! ## Lexemes with an opening

Strings, characters and comments start with one of a few openings, and what follows the opening
decides how far they reach.
-/

/-- The opening `o`, and after it what `f` takes. -/
def after (o : List Char) (f : List Char → Option Nat) (s : List Char) : Option Nat :=
  if o.isPrefixOf s then (f (s.drop o.length)).map (· + o.length) else none

/-- To recognise something behind an opening is to find the opening and then the rest. -/
theorem after_eq_some {o s : List Char} {f : List Char → Option Nat} :
    after o f s = some k ↔ ∃ r j, s = o ++ r ∧ f r = some j ∧ k = j + o.length := by
  unfold after
  constructor
  · intro h
    split at h
    · rename_i hp
      obtain ⟨r, rfl⟩ := List.isPrefixOf_iff_prefix.mp hp
      obtain ⟨j, hj, rfl⟩ := Option.map_eq_some_iff.mp h
      exact ⟨r, j, rfl, by simpa using hj, rfl⟩
    · simp at h
  · rintro ⟨r, j, rfl, hj, rfl⟩
    simp [hj]

/-- What `f` takes does not depend on what follows it. -/
def Cuts (f : List Char → Option Nat) : Prop :=
  ∀ {x u k}, f (x ++ u) = some k → k ≤ x.length → f x = some k

/-- What `f` takes stays when more follows. -/
def Grows (f : List Char → Option Nat) : Prop :=
  ∀ {x k}, f x = some k → ∀ u, f (x ++ u) = some k

/-- An opening in front does not change whether text behind can be cut off. -/
theorem Cuts.after {f : List Char → Option Nat} (hf : Cuts f) (o : List Char) :
    Cuts (after o f) := by
  intro x u k h hk
  obtain ⟨r, j, hs, hj, rfl⟩ := after_eq_some.mp h
  obtain ⟨x', rfl⟩ : o <+: x :=
    List.prefix_of_prefix_length_le ⟨r, hs.symm⟩ (List.prefix_append x u) (by omega)
  simp only [List.append_assoc, List.append_cancel_left_eq, List.length_append] at hs hk
  subst hs
  exact after_eq_some.mpr ⟨x', j, rfl, hf hj (by omega), rfl⟩

/-- An opening in front does not change whether text behind can be added. -/
theorem Grows.after {f : List Char → Option Nat} (hf : Grows f) (o : List Char) :
    Grows (after o f) := by
  intro x k h u
  obtain ⟨r, j, rfl, hj, rfl⟩ := after_eq_some.mp h
  exact after_eq_some.mpr ⟨r ++ u, j, by simp, hf hj u, rfl⟩

/-- What starts with a lexeme that grows still does when more text follows. -/
theorem Grows.isSome {f : List Char → Option Nat} (hf : Grows f) {x : List Char}
    (h : (f x).isSome) (u : List Char) : (f (x ++ u)).isSome := by
  obtain ⟨j, hj⟩ := Option.isSome_iff_exists.mp h
  simp [hf hj u]

theorem through_cuts (mark : List Char) : Cuts (through mark) := through_cut

theorem through_grows (mark : List Char) : Grows (through mark) := through_grow

/-- A line that ends in `x` ends there without what follows as well. -/
theorem line_cuts : Cuts fun s => some (line s) := by
  intro x u k h hk
  simp only [line, Option.some.injEq] at h ⊢
  rw [run_cut (u := u) (by omega), h]

/-- The forms of a string, by their openings. -/
theorem string_eq_some {s : List Char} :
    string s = some k ↔
      after ['b', '"'] stringRest s = some k ∨ after ['"'] stringRest s = some k := by
  constructor
  · intro h
    unfold string at h
    split at h
    · exact .inl (by simpa [after] using h)
    · exact .inr (by simpa [after] using h)
    · simp at h
  · simp only [after_eq_some]
    rintro (⟨r, j, rfl, hj, rfl⟩ | ⟨r, j, rfl, hj, rfl⟩) <;> simp [string, hj]

/-- The openings of raw strings, each with the mark that closes it. -/
def rawOpenings : List (List Char × List Char) :=
  [(['r', '"'], ['"']), (['r', '#', '"'], ['"', '#']), (['r', '#', '#', '"'], ['"', '#', '#']),
    (['b', 'r', '"'], ['"']), (['b', 'r', '#', '"'], ['"', '#']),
    (['b', 'r', '#', '#', '"'], ['"', '#', '#'])]

/-- Behind its `r` a raw string has up to two hashes, and as many at its end. -/
theorem rawRest_eq_some {s : List Char} :
    rawRest s = some k ↔ after ['"'] (through ['"']) s = some k ∨
      after ['#', '"'] (through ['"', '#']) s = some k ∨
      after ['#', '#', '"'] (through ['"', '#', '#']) s = some k := by
  constructor
  · intro h
    unfold rawRest at h
    split at h
    · exact .inl (by simpa [after] using h)
    · exact .inr (.inl (by simpa [after] using h))
    · exact .inr (.inr (by simpa [after] using h))
    · simp at h
  · simp only [after_eq_some]
    rintro (⟨r, j, rfl, hj, rfl⟩ | ⟨r, j, rfl, hj, rfl⟩ | ⟨r, j, rfl, hj, rfl⟩) <;>
      simp [rawRest, hj]

/-- The forms of a raw string, by their openings and the marks that close them. -/
theorem rawString_eq_some {s : List Char} :
    rawString s = some k ↔ ∃ p ∈ rawOpenings, after p.1 (through p.2) s = some k := by
  constructor
  · intro h
    unfold rawString at h
    split at h
    · obtain ⟨j, hj, rfl⟩ := Option.map_eq_some_iff.mp h
      simp only [rawRest_eq_some, after_eq_some] at hj
      rcases hj with ⟨r, j, rfl, hr, rfl⟩ | ⟨r, j, rfl, hr, rfl⟩ | ⟨r, j, rfl, hr, rfl⟩ <;>
        simp [rawOpenings, after, hr]
    · obtain ⟨j, hj, rfl⟩ := Option.map_eq_some_iff.mp h
      simp only [rawRest_eq_some, after_eq_some] at hj
      rcases hj with ⟨r, j, rfl, hr, rfl⟩ | ⟨r, j, rfl, hr, rfl⟩ | ⟨r, j, rfl, hr, rfl⟩ <;>
        simp [rawOpenings, after, hr]
    · simp at h
  · simp only [rawOpenings, List.mem_cons, List.not_mem_nil, or_false, exists_eq_or_imp,
      exists_eq_left, after_eq_some]
    rintro (⟨r, j, rfl, hj, rfl⟩ | ⟨r, j, rfl, hj, rfl⟩ | ⟨r, j, rfl, hj, rfl⟩ |
      ⟨r, j, rfl, hj, rfl⟩ | ⟨r, j, rfl, hj, rfl⟩ | ⟨r, j, rfl, hj, rfl⟩) <;>
      simp [rawString, rawRest, hj]

/-- The forms of a character, by their openings. -/
theorem char_eq_some {s : List Char} :
    char s = some k ↔ after ['b', '\''] charRest s = some k ∨ after ['\''] charRest s = some k := by
  constructor
  · intro h
    unfold char at h
    split at h
    · exact .inl (by simpa [after] using h)
    · exact .inr (by simpa [after] using h)
    · simp at h
  · simp only [after_eq_some]
    rintro (⟨r, j, rfl, hj, rfl⟩ | ⟨r, j, rfl, hj, rfl⟩) <;> simp [char, hj]

/-- The forms of a comment that is no documentation, by their openings. -/
theorem comment_eq_some {s : List Char} :
    comment s = some k ↔ after ['/', '/'] (fun r => some (line r)) s = some k ∨
      after ['/', '*'] blockRest s = some k := by
  constructor
  · intro h
    unfold comment at h
    split at h
    · exact .inl (by simpa [after, Nat.add_comm] using h)
    · exact .inr (by simpa [after] using h)
    · simp at h
  · simp only [after_eq_some]
    rintro (⟨r, j, rfl, hj, rfl⟩ | ⟨r, j, rfl, hj, rfl⟩)
    · simp only [Option.some.injEq] at hj
      simp [comment, hj, Nat.add_comm]
    · simp [comment, hj]

/-- Whether a character can stand after the backslash of a character literal. -/
def isEscaped (c : Char) : Bool :=
  c ≠ '\'' && c ≠ '\n'

/-- What stands behind a run. -/
theorem drop_run (p : Char → Bool) (s : List Char) : s.drop (run p s) = s.dropWhile p := by
  induction s with
  | nil => rfl
  | cons c s ih =>
    simp only [run, List.takeWhile_cons, List.dropWhile_cons] at ih ⊢
    split
    · exact ih
    · rfl

/-- A run that is followed by a character that does not belong to it. -/
theorem run_eq_of_append {p : Char → Bool} {w r : List Char} (hw : ∀ c ∈ w, p c = true)
    (hr : r.head?.all fun c => !p c) : run p (w ++ r) = w.length := by
  have hw' : run p w = w.length := by rw [run, List.takeWhile_eq_self_iff.mpr hw]
  have hr' : run p r = 0 := by cases r <;> simp_all [run]
  rw [run_append, if_pos hw', hr', Nat.add_zero]

/-- Up to ten characters behind a backslash. -/
theorem charRest_escaped {w : List Char} (hpos : 1 ≤ w.length) (hle : w.length ≤ 10)
    (hw : ∀ c ∈ w, isEscaped c = true) (r : List Char) :
    charRest ('\\' :: (w ++ '\'' :: r)) = some (w.length + 2) := by
  have hrun : run isEscaped (w ++ '\'' :: r) = w.length :=
    run_eq_of_append hw (by simp [isEscaped])
  cases w with
  | nil => simp at hpos
  | cons c w =>
    have hc : c ≠ '\'' := by
      have := hw c (by simp)
      simp_all [isEscaped]
    unfold charRest
    split
    · simp_all
    · rename_i r' _ heq
      obtain rfl := (List.cons.inj heq).2
      have hif : (1 ≤ (c :: w).length && (c :: w).length ≤ 10 &&
          (((c :: w) ++ '\'' :: r).drop (c :: w).length).head? == some '\'') = true := by
        simpa using hle
      change (if (1 ≤ run isEscaped _ && run isEscaped _ ≤ 10 &&
        (List.drop (run isEscaped _) _).head? == some '\'') = true then _ else _) = _
      rw [hrun, if_pos hif]
      exact congrArg (fun n => some (n + 2)) hrun
    · simp_all
    · simp_all

/-- The three forms of what follows the opening quote of a character. -/
theorem charRest_eq_some {s : List Char} :
    charRest s = some k ↔
      (k = 3 ∧ ∃ r, s = '\\' :: '\'' :: '\'' :: r) ∨
      (∃ w r, s = '\\' :: (w ++ '\'' :: r) ∧ 1 ≤ w.length ∧ w.length ≤ 10 ∧
        (∀ c ∈ w, isEscaped c = true) ∧ k = w.length + 2) ∨
      (k = 2 ∧ ∃ c r, s = c :: '\'' :: r ∧ c ≠ '\\' ∧ isEscaped c = true) := by
  constructor
  · intro h
    unfold charRest at h
    split at h
    · simp_all
    · rename_i r _
      simp only at h
      split at h
      · rename_i hc
        simp only [Bool.and_eq_true, decide_eq_true_eq, beq_iff_eq] at hc
        have hsplit := List.takeWhile_append_dropWhile (p := isEscaped) (l := r)
        obtain ⟨r', hr'⟩ := List.head?_eq_some_iff.mp (drop_run isEscaped r ▸ hc.2)
        -- The escaped characters are as many as there are, and the quote ends them.
        refine .inr (.inl ⟨r.takeWhile isEscaped, r', ?_, hc.1.1, hc.1.2, ?_, ?_⟩)
        · rw [← hr', hsplit]
        · exact fun c hc => List.mem_takeWhile_imp hc
        · exact (Option.some.inj h).symm
      · simp at h
    · rename_i c r _ hn
      split at h
      · simp at h
      · rename_i hc
        refine .inr (.inr ⟨(Option.some.inj h).symm, c, r, rfl, ?_, ?_⟩)
        · rintro rfl
          exact hn rfl
        · simpa [isEscaped] using hc
    · simp at h
  · rintro (⟨rfl, r, rfl⟩ | ⟨w, r, rfl, h1, h10, hw, rfl⟩ | ⟨rfl, c, r, rfl, hb, hc⟩)
    · rfl
    · exact charRest_escaped h1 h10 hw r
    · unfold charRest
      split <;> simp_all [isEscaped]

theorem charRest_grows : Grows charRest := by
  intro x k h u
  rw [charRest_eq_some] at h ⊢
  rcases h with ⟨rfl, r, rfl⟩ | ⟨w, r, rfl, hw⟩ | ⟨rfl, c, r, rfl, hc⟩
  · exact .inl ⟨rfl, r ++ u, rfl⟩
  · exact .inr (.inl ⟨w, r ++ u, by simp, hw⟩)
  · exact .inr (.inr ⟨rfl, c, r ++ u, rfl, hc⟩)

theorem charRest_cuts : Cuts charRest := by
  intro x u k h hk
  rw [charRest_eq_some] at h ⊢
  rcases h with ⟨rfl, r, hs⟩ | ⟨w, r, hs, h1, h10, hw, rfl⟩ | ⟨rfl, c, r, hs, hc⟩
  · rcases x with _ | ⟨a, _ | ⟨b, _ | ⟨c, x⟩⟩⟩
    · simp at hk
    · simp at hk
    · simp at hk
    · exact .inl ⟨rfl, x, by simp_all⟩
  · have hw' : '\\' :: (w ++ ['\'']) <+: x ++ u := ⟨r, by simp [hs]⟩
    obtain ⟨x', rfl⟩ : '\\' :: (w ++ ['\'']) <+: x :=
      List.prefix_of_prefix_length_le hw' (List.prefix_append x u) (by simp; omega)
    exact .inr (.inl ⟨w, x', by simp, h1, h10, hw, rfl⟩)
  · rcases x with _ | ⟨a, _ | ⟨b, x⟩⟩
    · simp at hk
    · simp at hk
    · obtain ⟨rfl, rfl, -⟩ : a = c ∧ b = '\'' ∧ x ++ u = r := by simpa using hs
      exact .inr (.inr ⟨rfl, a, x, rfl, hc⟩)

theorem stringRest_cuts : Cuts stringRest := stringRest_cut

theorem stringRest_grows : Grows stringRest := stringRest_grow

theorem blockRest_cuts : Cuts blockRest := through_cut

theorem blockRest_grows : Grows blockRest := through_grow

/-! ## The classes with openings -/

theorem string_cuts : Cuts string := by
  intro x u k h hk
  rw [string_eq_some] at h ⊢
  exact h.imp (stringRest_cuts.after _ · hk) (stringRest_cuts.after _ · hk)

theorem string_grows : Grows string := by
  intro x k h u
  rw [string_eq_some] at h ⊢
  exact h.imp (stringRest_grows.after _ · u) (stringRest_grows.after _ · u)

theorem char_cuts : Cuts char := by
  intro x u k h hk
  rw [char_eq_some] at h ⊢
  exact h.imp (charRest_cuts.after _ · hk) (charRest_cuts.after _ · hk)

theorem char_grows : Grows char := by
  intro x k h u
  rw [char_eq_some] at h ⊢
  exact h.imp (charRest_grows.after _ · u) (charRest_grows.after _ · u)

theorem rawString_cuts : Cuts rawString := by
  intro x u k h hk
  rw [rawString_eq_some] at h ⊢
  obtain ⟨p, hp, h⟩ := h
  exact ⟨p, hp, Cuts.after (through_cuts p.2) p.1 h hk⟩

theorem rawString_grows : Grows rawString := by
  intro x k h u
  rw [rawString_eq_some] at h ⊢
  obtain ⟨p, hp, h⟩ := h
  exact ⟨p, hp, Grows.after (through_grows p.2) p.1 h u⟩

theorem comment_cuts : Cuts comment := by
  intro x u k h hk
  rw [comment_eq_some] at h ⊢
  exact h.imp (line_cuts.after _ · hk) (blockRest_cuts.after _ · hk)

/-- The forms of documentation in front of an item. What follows the opening is looked at. -/
theorem docComment_eq_some {s : List Char} :
    docComment s = some k ↔
      (∃ r, s = '/' :: '/' :: '/' :: r ∧ r.head? ≠ some '/' ∧ k = 3 + line r) ∨
      (∃ r j, s = '/' :: '*' :: '*' :: r ∧ r.head? ≠ some '*' ∧ r.head? ≠ some '/' ∧
        blockRest r = some j ∧ k = j + 3) := by
  constructor
  · intro h
    unfold docComment at h
    split at h
    · rename_i r
      split at h
      · simp at h
      · rename_i hr
        exact .inl ⟨r, rfl, by simpa using hr, (Option.some.inj h).symm⟩
    · rename_i r
      split at h
      · simp at h
      · rename_i hr
        obtain ⟨j, hj, rfl⟩ := Option.map_eq_some_iff.mp h
        simp only [Bool.or_eq_true, beq_iff_eq, not_or] at hr
        exact .inr ⟨r, j, rfl, hr.1, hr.2, hj, rfl⟩
    · simp at h
  · rintro (⟨r, rfl, hr, rfl⟩ | ⟨r, j, rfl, h1, h2, hj, rfl⟩)
    · simp [docComment, hr]
    · simp [docComment, h1, h2, hj]

/-- The forms of documentation of what stands around it, by their openings. -/
theorem innerDoc_eq_some {s : List Char} :
    innerDoc s = some k ↔ after ['/', '/', '!'] (fun r => some (line r)) s = some k ∨
      after ['/', '*', '!'] blockRest s = some k := by
  constructor
  · intro h
    unfold innerDoc at h
    split at h
    · exact .inl (by simpa [after, Nat.add_comm] using h)
    · exact .inr (by simpa [after] using h)
    · simp at h
  · simp only [after_eq_some]
    rintro (⟨r, j, rfl, hj, rfl⟩ | ⟨r, j, rfl, hj, rfl⟩)
    · simp only [Option.some.injEq] at hj
      simp [innerDoc, hj, Nat.add_comm]
    · simp [innerDoc, hj]

theorem docComment_cuts : Cuts docComment := by
  intro x u k h hk
  -- What does not come next with `u` behind does not without it.
  have head_of_append : ∀ {y : List Char} {c : Char}, (y ++ u).head? ≠ some c →
      y.head? ≠ some c := by
    intro y c hy
    cases y <;> simp_all
  rw [docComment_eq_some] at h ⊢
  rcases h with ⟨r, hs, hr, rfl⟩ | ⟨r, j, hs, h1, h2, hj, rfl⟩
  · match x with
    | a :: b :: c :: x =>
      obtain ⟨rfl, rfl, rfl, rfl⟩ : a = '/' ∧ b = '/' ∧ c = '/' ∧ x ++ u = r := by simpa using hs
      simp only [List.length_cons] at hk
      have hl : line x = line (x ++ u) := run_cut (show line (x ++ u) ≤ x.length by omega)
      exact .inl ⟨x, rfl, head_of_append hr, by rw [hl]⟩
    | [] | [_] | [_, _] =>
      simp only [List.length_cons, List.length_nil] at hk
      omega
  · match x with
    | a :: b :: c :: x =>
      obtain ⟨rfl, rfl, rfl, rfl⟩ : a = '/' ∧ b = '*' ∧ c = '*' ∧ x ++ u = r := by simpa using hs
      simp only [List.length_cons] at hk
      exact .inr ⟨x, j, rfl, head_of_append h1, head_of_append h2,
        blockRest_cuts hj (by omega), rfl⟩
    | [] | [_] | [_, _] =>
      simp only [List.length_cons, List.length_nil] at hk
      omega

theorem innerDoc_cuts : Cuts innerDoc := by
  intro x u k h hk
  rw [innerDoc_eq_some] at h ⊢
  exact h.imp (line_cuts.after _ · hk) (blockRest_cuts.after _ · hk)

/-- A character in a comment that does not start its end. -/
theorem blockRest_cons {c : Char} {r : List Char} (h : ¬ ['*', '/'] <+: c :: r) :
    blockRest (c :: r) = (blockRest r).map (· + 1) := by
  rw [blockRest, through, if_neg (fun hp => h (List.isPrefixOf_iff_prefix.mp hp))]
  rfl

/-- A character of a line. -/
theorem line_cons {c : Char} (h : c ≠ '\n') (r : List Char) : line (c :: r) = line r + 1 := by
  simp [line, run, h]

/-- A documentation comment is a comment, and as long. -/
theorem comment_of_docComment {s : List Char} (h : docComment s = some k) : comment s = some k := by
  rcases docComment_eq_some.mp h with ⟨r, rfl, -, rfl⟩ | ⟨r, j, rfl, -, hr, hj, rfl⟩
  · rw [comment, line_cons (by decide)]
    congr 1
    omega
  · have hn : ¬ ['*', '/'] <+: '*' :: r := by
      rintro ⟨t, ht⟩
      simp only [List.cons_append, List.cons.injEq, true_and] at ht
      simp [← ht] at hr
    rw [comment, blockRest_cons hn, hj]
    rfl

/-- Documentation of what stands around it would be a comment, if it were not tried first. -/
theorem comment_of_innerDoc {s : List Char} (h : innerDoc s = some k) : comment s = some k := by
  rcases innerDoc_eq_some.mp h with h | h <;> obtain ⟨r, j, rfl, hj, rfl⟩ := after_eq_some.mp h
  · obtain rfl := Option.some.inj hj
    simp only [List.cons_append, List.nil_append, comment, line_cons (c := '!') (by decide)]
    rw [Nat.add_comm]
    rfl
  · rw [List.cons_append, List.cons_append, comment, List.cons_append, List.nil_append,
      blockRest_cons (by simp), hj]
    rfl

theorem punct_cuts : Cuts punct := by
  intro x u k h hk
  cases x with
  | nil =>
    have := punct_bounds h
    simp only [List.length_nil] at hk
    omega
  | cons c x => exact h

/-- A fixed spelling is looked for in no more text than it has. -/
theorem exactly_cuts (w : List Char) : Cuts (exactly w) := by
  intro x u k h hk
  obtain ⟨hp, rfl⟩ := exactly_eq_some h
  rw [exactly, if_pos (List.isPrefixOf_iff_prefix.mpr
    (List.prefix_of_prefix_length_le hp (List.prefix_append x u) hk))]

/-- A fixed spelling is found whatever follows it. -/
theorem exactly_grows (w : List Char) : Grows (exactly w) := by
  intro x k h u
  obtain ⟨hp, rfl⟩ := exactly_eq_some h
  rw [exactly, if_pos (List.isPrefixOf_iff_prefix.mpr (hp.trans (List.prefix_append x u)))]

/-! ## The characters of a lexeme -/

/-- Whether the first `k` characters all satisfy `p`. -/
def Within (p : Char → Bool) (s : List Char) (k : Nat) : Prop :=
  ∀ c ∈ s.take k, p c = true

/-- Two stretches of the same kind, one behind the other. -/
theorem Within.add {p : Char → Bool} {s : List Char} {i j : Nat} (hi : Within p s i)
    (hj : Within p (s.drop i) j) : Within p s (i + j) := by
  intro c hc
  rw [List.take_add, List.mem_append] at hc
  exact hc.elim (hi c) (hj c)

/-- One more character in front of a stretch. -/
theorem Within.cons {p : Char → Bool} {s : List Char} {j : Nat} {c : Char} (hc : p c = true)
    (hj : Within p s j) : Within p (c :: s) (1 + j) := by
  refine Within.add ?_ (by simpa using hj)
  intro d hd
  obtain rfl : d = c := by simpa using hd
  exact hc

/-- A run of some kind of characters is a stretch of any wider kind. -/
theorem within_run {p q : Char → Bool} (hpq : ∀ c, p c = true → q c = true) (s : List Char) :
    Within q s (run p s) := by
  intro c hc
  have hs : s.take (run p s) = s.takeWhile p :=
    (List.prefix_iff_eq_take.mp (List.takeWhile_prefix p)).symm
  rw [hs] at hc
  exact hpq c (List.mem_takeWhile_imp hc)

/-- A run of such characters stops before the first that is none. -/
theorem Within.le {p : Char → Bool} {c : Char} (h : Within p (x ++ u) k) (hu : u.head? = some c)
    (hc : p c = false) : k ≤ x.length := by
  by_contra hk
  obtain ⟨r, rfl⟩ := List.head?_eq_some_iff.mp hu
  have : c ∈ (x ++ c :: r).take k := by
    rw [List.take_append]
    have : k - x.length = (k - x.length - 1) + 1 := by omega
    rw [this, List.take_succ_cons]
    simp
  simp [h c this] at hc

/-- The characters of names, lifetimes and numbers. -/
def isTokenChar (c : Char) : Bool :=
  isWordChar c || ['#', '\'', '.', '+', '-'].contains c

theorem isTokenChar_of_word {c : Char} (h : isWordChar c = true) : isTokenChar c = true := by
  simp [isTokenChar, h]

theorem isTokenChar_of_digit {c : Char} (h : c.isDigit = true) : isTokenChar c = true := by
  simp [isTokenChar, isWordChar, Char.isAlphanum, h]

theorem isTokenChar_of_digitOrGap {c : Char} (h : isDigitOrGap c = true) :
    isTokenChar c = true := by
  simp only [isDigitOrGap, Bool.or_eq_true, beq_iff_eq] at h
  rcases h with h | rfl
  · exact isTokenChar_of_digit h
  · rfl

/-- Words, names, lifetimes and numbers are made of characters of tokens only. -/
theorem word_within {s : List Char} (h : word s = some k) : Within isTokenChar s k := by
  cases s with
  | nil => simp [word] at h
  | cons c s =>
    simp only [word] at h
    split at h
    · rename_i hc
      obtain rfl := Option.some.inj h
      refine Within.cons (isTokenChar_of_word ?_) (within_run (fun _ => isTokenChar_of_word) s)
      simp only [isWordStart, isWordChar, Char.isAlphanum, Bool.or_eq_true] at hc ⊢
      exact hc.imp_left .inl
    · simp at h

theorem ident_within {s : List Char} (h : ident s = some k) : Within isTokenChar s k := by
  rcases ident_forms s with ⟨r, n, rfl, hn⟩ | hs
  · rw [ident_raw hn, Option.some.injEq] at h
    obtain rfl : k = 1 + (1 + n) := by omega
    exact Within.cons rfl (Within.cons rfl (word_within hn))
  · rw [ident_plain hs] at h
    exact word_within h

theorem lifetime_within {s : List Char} (h : lifetime s = some k) : Within isTokenChar s k := by
  unfold lifetime at h
  split at h
  · obtain ⟨j, hj, rfl⟩ := Option.map_eq_some_iff.mp h
    rw [Nat.add_comm]
    exact Within.cons rfl (word_within hj)
  · simp at h

theorem fraction_within (s : List Char) : Within isTokenChar s (fraction s) := by
  unfold fraction
  split
  · split
    · rename_i c r hc
      rw [show 2 + run isDigitOrGap r = 1 + (1 + run isDigitOrGap r) by omega]
      exact Within.cons rfl (Within.cons (isTokenChar_of_digit hc)
        (within_run (fun _ => isTokenChar_of_digitOrGap) r))
    · simp [Within]
  · simp [Within]

theorem exponent_within (s : List Char) : Within isTokenChar s (exponent s) := by
  match s with
  | [] | [_] => simp [exponent, Within]
  | c :: d :: r =>
    have hrun : ∀ t : List Char, Within isTokenChar t (run isDigitOrGap t) :=
      within_run fun _ => isTokenChar_of_digitOrGap
    simp only [exponent]
    split
    · rename_i hc
      have hc' : isTokenChar c = true := by
        simp only [Bool.or_eq_true, beq_iff_eq] at hc
        rcases hc with rfl | rfl <;> rfl
      split
      · rename_i hd
        have hd' : isTokenChar d = true := by
          simp only [Bool.or_eq_true, beq_iff_eq] at hd
          rcases hd with rfl | rfl <;> rfl
        split
        · simp [Within]
        · rw [show 2 + run isDigitOrGap r = 1 + (1 + run isDigitOrGap r) by omega]
          exact Within.cons hc' (Within.cons hd' (hrun r))
      · split
        · simp [Within]
        · exact Within.cons hc' (hrun (d :: r))
    · simp [Within]

theorem decimal_within {s : List Char} (h : decimal s = some k) : Within isTokenChar s k := by
  cases s with
  | nil => simp [decimal] at h
  | cons c s =>
    simp only [decimal] at h
    split at h
    · rename_i hc
      obtain rfl := Option.some.inj h
      exact ((Within.cons (isTokenChar_of_digit hc)
        (within_run (fun _ => isTokenChar_of_digitOrGap) s)).add (fraction_within _)).add
          (exponent_within _)
    · simp at h

/-- The letters are two ranges of characters. -/
theorem isAlpha_iff {c : Char} : c.isAlpha = true ↔
    65 ≤ c.toNat ∧ c.toNat ≤ 90 ∨ 97 ≤ c.toNat ∧ c.toNat ≤ 122 := by
  show (decide (c.val ≥ 'A'.val ∧ c.val ≤ 'Z'.val) ||
    (decide (c.val ≥ 'a'.val) && decide (c.val ≤ 'z'.val))) = true ↔ _
  simp [UInt32.le_iff_toNat_le]

/-- The digits are a range of characters. -/
theorem isDigit_iff {c : Char} : c.isDigit = true ↔ 48 ≤ c.toNat ∧ c.toNat ≤ 57 := by
  show (decide (c.val ≥ '0'.val) && decide (c.val ≤ '9'.val)) = true ↔ _
  simp [UInt32.le_iff_toNat_le]

/-- The digits of every base are letters, digits or underscores. -/
theorem isTokenChar_of_base {p : Char → Bool}
    (hp : p = isHexOrGap ∨ p = isOctalOrGap ∨ p = isBinaryOrGap) {c : Char} (h : p c = true) :
    isTokenChar c = true := by
  -- Ranges of characters are ranges of code points.
  have hrange : ∀ {a b : Char}, (a ≤ c && c ≤ b) = true → a.val.toNat ≤ c.val.toNat ∧
      c.val.toNat ≤ b.val.toNat := by
    intro a b h
    simpa [Char.le_def, UInt32.le_iff_toNat_le] using h
  rcases hp with rfl | rfl | rfl
  · simp only [isHexOrGap, Bool.or_eq_true] at h
    rcases h with (h | h) | h
    · exact isTokenChar_of_digitOrGap h
    all_goals
      have := hrange h
      apply isTokenChar_of_word
      simp only [isWordChar, Char.isAlphanum, Bool.or_eq_true, isAlpha_iff]
      simp at this
      omega
  · simp only [isOctalOrGap, Bool.or_eq_true] at h
    rcases h with h | h
    · have := hrange h
      apply isTokenChar_of_digit
      simp [Char.isDigit, UInt32.le_iff_toNat_le] at this ⊢
      omega
    · obtain rfl := beq_iff_eq.mp h
      rfl
  · simp only [isBinaryOrGap, Bool.or_eq_true, beq_iff_eq] at h
    rcases h with (rfl | rfl) | rfl <;> rfl

theorem digits_within {s : List Char} (h : digits s = some k) : Within isTokenChar s k := by
  match s with
  | [] => simp [digits, decimal] at h
  | [c] => exact decimal_within ((digits_single c).symm.trans h)
  | c :: d :: r =>
    rcases digits_forms c d with ⟨rfl, hd, p, hp, hr⟩ | hr
    · rw [hr] at h
      rcases Option.or_eq_some_iff.mp h with h | ⟨-, h⟩
      · obtain ⟨j, hj, rfl⟩ := Option.map_eq_some_iff.mp h
        simp only [some1] at hj
        split at hj
        · simp at hj
        · obtain rfl := Option.some.inj hj
          have hd' : isTokenChar d = true := by
            simp only [List.mem_cons, List.not_mem_nil, or_false] at hd
            rcases hd with rfl | rfl | rfl <;> rfl
          rw [show run p r + 2 = 1 + (1 + run p r) by omega]
          exact Within.cons rfl (Within.cons hd' (within_run (fun _ => isTokenChar_of_base hp) r))
      · exact decimal_within h
    · rw [hr] at h
      exact decimal_within h

theorem suffix_within (s : List Char) : Within isTokenChar s (suffix s) := by
  cases s with
  | nil => simp [suffix, Within]
  | cons c s =>
    simp only [suffix]
    split
    · rename_i hc
      refine Within.cons ?_ (within_run (fun _ => isTokenChar_of_word) s)
      simp [isTokenChar, isWordChar, Char.isAlphanum, hc]
    · simp [Within]

theorem number_within {s : List Char} (h : number s = some k) : Within isTokenChar s k := by
  unfold number at h
  obtain ⟨j, hj, rfl⟩ := Option.map_eq_some_iff.mp h
  exact (digits_within hj).add (suffix_within _)

end ShadowImpl.Recogniser
