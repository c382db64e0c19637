import ShadowImpl.Proofs.Locality

/-!
# Lexemes in a longer text

The scanner takes the first class that fits. A lexeme that ends inside of `x` is found in `x` alone;
and a lexeme of `x` alone is found in `x ++ u` as well, if `u` starts with a character that parts
tokens and closes nothing that `x` has left open.
-/

namespace ShadowImpl

namespace Lexeme

open Recogniser

/-! ## The first class that fits -/

/-- The classes that are tried before `l`. -/
def before (l : Lexeme) : List Lexeme :=
  order.takeWhile (· ≠ l)

theorem order_nodup : order.Nodup := by
  decide

theorem before_eq {l : Lexeme} {l₁ l₂ : List Lexeme} (h : order = l₁ ++ l :: l₂) (hl : l ∉ l₁) :
    before l = l₁ := by
  have hall : ∀ m ∈ l₁, decide (m ≠ l) = true := by
    intro m hm
    exact decide_eq_true (fun heq => hl (heq ▸ hm))
  rw [before, h, List.takeWhile_append_of_pos hall]
  simp

theorem first_eq_some_iff {e : Expectation} {s : List Char} {l : Lexeme} {k : Nat} :
    first e s = some (l, k) ↔ l ∈ order ∧ l.tried e = true ∧ l.recognise s = some k ∧
      ∀ m ∈ before l, m.tried e = true → m.recognise s = none := by
  have hf : ∀ m : Lexeme, (if m.tried e = true then (m.recognise s).map (m, ·) else none) =
      some (l, k) ↔ m = l ∧ m.tried e = true ∧ m.recognise s = some k := by
    intro m
    split <;> simp_all [Option.map_eq_some_iff, and_comm]
  have hn : ∀ m : Lexeme, (if m.tried e = true then (m.recognise s).map (m, ·) else none) = none ↔
      (m.tried e = true → m.recognise s = none) := by
    intro m
    split <;> simp_all
  rw [first, List.findSome?_eq_some_iff]
  constructor
  · rintro ⟨l₁, m, l₂, horder, hm, hl₁⟩
    obtain ⟨rfl, ht, hr⟩ := (hf m).mp hm
    have hm₁ : m ∉ l₁ := by
      have := order_nodup
      rw [horder, List.nodup_append] at this
      exact fun hm => this.2.2 m hm m (by simp) rfl
    refine ⟨by simp [horder], ht, hr, fun m' hm' => (hn m').mp (hl₁ m' ?_)⟩
    rwa [before_eq horder hm₁] at hm'
  · rintro ⟨hl, ht, hr, hb⟩
    obtain ⟨l₁, l₂, horder, hl₁⟩ := List.eq_append_cons_of_mem hl
    refine ⟨l₁, l, l₂, horder, (hf l).mpr ⟨rfl, ht, hr⟩, fun m hm => (hn m).mpr (hb m ?_)⟩
    rwa [before_eq horder hl₁]

/-- The characters that a class can start with. -/
def starts : Lexeme → Char → Bool
  | layout, c => isLayout c
  | comment, c => c == '/'
  | terminal .docComment, c => c == '/'
  | terminal .innerDoc, c => c == '/'
  | terminal .rawString, c => c == 'r' || c == 'b'
  | terminal .string, c => c == '"' || c == 'b'
  | terminal .char, c => c == '\'' || c == 'b'
  | terminal .number, c => c.isDigit
  | terminal .ident, c => isWordStart c
  | terminal .lifetime, c => c == '\''
  | terminal .punct, c => ['.', '/', '%', '^', '|', '@', '$', '~'].contains c
  | terminal t, c => t.spelling.head? == some c

theorem starts_of_recognise {l : Lexeme} {c : Char} {r : List Char} {k : Nat}
    (h : l.recognise (c :: r) = some k) : l.starts c = true := by
  have exact_starts : ∀ {t : Terminal}, t.spelling ≠ [] →
      exactly t.spelling (c :: r) = some k → (t.spelling.head? == some c) = true := by
    intro t ht hk
    obtain ⟨⟨w, hw⟩, -⟩ := exactly_eq_some hk
    cases hs : t.spelling with
    | nil => exact absurd hs ht
    | cons d w' => simp_all
  cases l with
  | layout =>
    simp only [recognise, Recogniser.layout, some1] at h
    split at h
    · simp at h
    · rename_i hr
      -- Without layout at the front the run is empty.
      by_contra hn
      simp only [starts, Bool.not_eq_true] at hn
      simp [run, hn] at hr
  | comment =>
    rcases comment_eq_some.mp h with h | h <;> obtain ⟨r', j, hs, -⟩ := after_eq_some.mp h <;>
      simp_all [starts]
  | terminal t =>
    cases t
    case docComment =>
      rcases docComment_eq_some.mp h with ⟨r', hs, -⟩ | ⟨r', j, hs, -⟩ <;> simp_all [starts]
    case innerDoc =>
      rcases innerDoc_eq_some.mp h with h | h <;> obtain ⟨r', j, hs, -⟩ := after_eq_some.mp h <;>
        simp_all [starts]
    case rawString =>
      obtain ⟨p, hp, h⟩ := rawString_eq_some.mp h
      obtain ⟨r', j, hs, -⟩ := after_eq_some.mp h
      simp only [rawOpenings, List.mem_cons, List.not_mem_nil, or_false] at hp
      rcases hp with rfl | rfl | rfl | rfl | rfl | rfl <;> simp_all [starts]
    case string =>
      rcases string_eq_some.mp h with h | h <;> obtain ⟨r', j, hs, -⟩ := after_eq_some.mp h <;>
        simp_all [starts]
    case char =>
      rcases char_eq_some.mp h with h | h <;> obtain ⟨r', j, hs, -⟩ := after_eq_some.mp h <;>
        simp_all [starts]
    case number =>
      have := number_isSome (c :: r)
      simp_all [starts, recognise, Terminal.recognise]
    case ident =>
      have := ident_isSome (c :: r)
      simp only [recognise, Terminal.recognise] at h
      rw [h] at this
      by_contra hn
      simp only [starts] at hn
      simp [word, hn] at this
    case lifetime =>
      by_contra hn
      simp only [starts, beq_iff_eq] at hn
      simp [recognise, Terminal.recognise, Recogniser.lifetime, hn] at h
    case punct =>
      simp only [recognise, Terminal.recognise, punct] at h
      by_contra hn
      simp only [starts] at hn
      rw [if_neg hn] at h
      simp at h
    case eof => simp [recognise, Terminal.recognise] at h
    case unknown => simp [recognise, Terminal.recognise] at h
    -- What is left is spelled out: keywords and symbols.
    all_goals exact exact_starts (by decide) h

/-! ## The part in front -/

variable {e : Expectation} {x u : List Char} {l : Lexeme} {k : Nat}

theorem recognise_cuts (l : Lexeme) : Cuts l.recognise := by
  cases l with
  | layout => exact some1_cut
  | comment => exact comment_cuts
  | terminal t =>
    cases t
    case docComment => exact docComment_cuts
    case rawString => exact rawString_cuts
    case innerDoc => exact innerDoc_cuts
    case string => exact string_cuts
    case char => exact char_cuts
    case number => exact number_cut
    case ident => exact ident_cut
    case lifetime => exact lifetime_cut
    case punct => exact punct_cuts
    case eof | unknown =>
      intro _ _ _ h
      simp [recognise, Terminal.recognise] at h
    all_goals exact exactly_cuts _

theorem docComment_grows (h : (docComment x).isSome) (u : List Char) :
    (docComment (x ++ u)).isSome ∨ (x = ['/', '/', '/'] ∧ u.head? = some '/') := by
  obtain ⟨k, hk⟩ := Option.isSome_iff_exists.mp h
  rcases docComment_eq_some.mp hk with ⟨r, rfl, hr, -⟩ | ⟨r, j, rfl, h1, h2, hj, -⟩
  · by_cases hu : r = [] ∧ u.head? = some '/'
    · exact .inr ⟨by rw [hu.1], hu.2⟩
    · left
      have : (r ++ u).head? ≠ some '/' := by cases r <;> simp_all
      exact Option.isSome_iff_exists.mpr ⟨_, docComment_eq_some.mpr (.inl ⟨r ++ u, rfl, this, rfl⟩)⟩
  · left
    cases r with
    | nil => simp [blockRest, through] at hj
    | cons c r =>
      exact Option.isSome_iff_exists.mpr ⟨_, docComment_eq_some.mpr
        (.inr ⟨c :: r ++ u, j, rfl, h1, h2, blockRest_grows hj u, rfl⟩)⟩

theorem comment_isSome_append (h : (Recogniser.comment x).isSome) (u : List Char) :
    (Recogniser.comment (x ++ u)).isSome := by
  obtain ⟨k, hk⟩ := Option.isSome_iff_exists.mp h
  rw [Option.isSome_iff_exists]
  rcases comment_eq_some.mp hk with h | h
  · obtain ⟨r, j, rfl, -⟩ := after_eq_some.mp h
    exact ⟨_, rfl⟩
  · exact ⟨_, comment_eq_some.mpr (.inr (blockRest_grows.after _ h u))⟩

theorem innerDoc_isSome_append (h : (innerDoc x).isSome) (u : List Char) :
    (innerDoc (x ++ u)).isSome := by
  obtain ⟨k, hk⟩ := Option.isSome_iff_exists.mp h
  rw [Option.isSome_iff_exists]
  rcases innerDoc_eq_some.mp hk with h | h
  · obtain ⟨r, j, rfl, -⟩ := after_eq_some.mp h
    exact ⟨_, rfl⟩
  · exact ⟨_, innerDoc_eq_some.mpr (.inr (blockRest_grows.after _ h u))⟩

/-- What can be read in `x` can be read in `x ++ u`, though it may be longer there. Three slashes
are the exception: a fourth one makes them a plain comment. -/
theorem recognise_isSome_append (h : (l.recognise x).isSome) (u : List Char) :
    (l.recognise (x ++ u)).isSome ∨
      (l = .terminal .docComment ∧ x = ['/', '/', '/'] ∧ u.head? = some '/') := by
  cases l with
  | layout =>
    left
    simp only [recognise, Recogniser.layout, some1] at h ⊢
    split at h
    · simp at h
    · rename_i hr
      have hn : ¬ run isLayout (x ++ u) = 0 := by
        rw [run_append]
        split <;> omega
      rw [if_neg hn]
      rfl
  | comment => exact .inl (comment_isSome_append h u)
  | terminal t =>
    cases t
    -- Only here can what follows do away with a match.
    case docComment => exact (docComment_grows h u).imp_right fun h => ⟨rfl, h⟩
    all_goals left
    case innerDoc => exact innerDoc_isSome_append h u
    case rawString => exact rawString_grows.isSome h u
    case string => exact string_grows.isSome h u
    case char => exact char_grows.isSome h u
    case number =>
      simp only [recognise, Terminal.recognise, number_isSome] at h ⊢
      cases x <;> simp_all
    case ident =>
      simp only [recognise, Terminal.recognise, ident_isSome] at h ⊢
      exact word_isSome_append h u
    case lifetime =>
      obtain ⟨k, hk⟩ := Option.isSome_iff_exists.mp h
      simp only [recognise, Terminal.recognise, Recogniser.lifetime] at hk ⊢
      split at hk
      · have := word_isSome_append (Option.isSome_map ▸ Option.isSome_iff_exists.mpr ⟨k, hk⟩) u
        simpa using this
      · simp at hk
    case punct => cases x <;> simp_all [recognise, Terminal.recognise, punct]
    case eof | unknown => simp [recognise, Terminal.recognise] at h
    all_goals exact Grows.isSome (exactly_grows _) h u

theorem first_slashes (e : Expectation) (r : List Char) :
    first e ('/' :: '/' :: '/' :: '/' :: r) = some (.comment, 4 + line r) := by
  rw [first_eq_some_iff]
  refine ⟨by decide, rfl, ?_, ?_⟩
  · simp only [recognise, Recogniser.comment]
    rw [line_cons (by decide), line_cons (by decide)]
    congr 1
    omega
  · intro m hm _
    have : before .comment = [.terminal .docComment, .terminal .rawString,
      .terminal .innerDoc] := rfl
    simp only [this, List.mem_cons, List.not_mem_nil, or_false] at hm
    rcases hm with rfl | rfl | rfl <;> rfl

/-- A lexeme that ends inside of `x` is found in `x` alone. -/
theorem first_cut (h : first e (x ++ u) = some (l, k)) (hk : k ≤ x.length) :
    first e x = some (l, k) := by
  have hx : ¬ (x = ['/', '/', '/'] ∧ u.head? = some '/') := by
    rintro ⟨rfl, hu⟩
    obtain ⟨r, rfl⟩ := List.head?_eq_some_iff.mp hu
    simp only [List.cons_append, List.nil_append, first_slashes, Option.some.injEq,
      Prod.mk.injEq] at h
    simp only [List.length_cons, List.length_nil] at hk
    omega
  rw [first_eq_some_iff] at h ⊢
  obtain ⟨hl, ht, hr, hb⟩ := h
  refine ⟨hl, ht, recognise_cuts l hr hk, fun m hm hmt => ?_⟩
  cases hmx : m.recognise x with
  | none => rfl
  | some j =>
    rcases recognise_isSome_append (l := m) (x := x) (by simp [hmx]) u with hs | hs
    · simp [hb m hm hmt] at hs
    · exact absurd hs.2 hx

/-- No class reads over the end of `x`. -/
def Clear (e : Expectation) (x u : List Char) : Prop :=
  ∀ l : Lexeme, l.tried e = true → ∀ k, l.recognise (x ++ u) = some k → k ≤ x.length

/-- Where no class reads over the end of `x`, its front is scanned as if nothing followed. -/
theorem first_append_of_clear (h : Clear e x u) (hf : first e x = some (l, k)) :
    first e (x ++ u) = some (l, k) := by
  rw [first_eq_some_iff] at hf ⊢
  obtain ⟨hl, ht, hr, hb⟩ := hf
  have hx : ¬ (x = ['/', '/', '/'] ∧ u.head? = some '/') := by
    rintro ⟨rfl, hu⟩
    obtain ⟨r, rfl⟩ := List.head?_eq_some_iff.mp hu
    have hc : recognise .comment (['/', '/', '/'] ++ '/' :: r) =
      some (2 + line ('/' :: '/' :: r)) := rfl
    have := h .comment rfl _ hc
    simp only [List.length_cons, List.length_nil, line_cons (c := '/') (by decide)] at this
    omega
  refine ⟨hl, ht, ?_, fun m hm hmt => ?_⟩
  · rcases recognise_isSome_append (l := l) (x := x) (by simp [hr]) u with hs | hs
    · obtain ⟨j, hj⟩ := Option.isSome_iff_exists.mp hs
      have := recognise_cuts l hj (h l ht j hj)
      rw [hj, ← this, hr]
    · exact absurd hs.2 hx
  · cases hmx : m.recognise (x ++ u) with
    | none => rfl
    | some j => simpa [hb m hm hmt] using recognise_cuts m hmx (h m hmt j hmx)

end Lexeme

/-! ## What a text leaves open -/

/-- The ends of block comments and of raw strings with one or two `#`. Their openings are the ones
that are read in another way as long as the end is missing. -/
inductive Mark where
  | comment
  | raw
  | rawTwo
deriving DecidableEq, Repr

namespace Mark

/-- How a mark is written. -/
def text : Mark → List Char
  | comment => ['*', '/']
  | raw => ['"', '#']
  | rawTwo => ['"', '#', '#']

/-- What a mark closes. -/
def openings : Mark → List (List Char)
  | comment => [['/', '*']]
  | raw => [['r', '#', '"'], ['b', 'r', '#', '"']]
  | rawTwo => [['r', '#', '#', '"'], ['b', 'r', '#', '#', '"']]

/-- Whether a text starts with an opening that the mark does not close in it. -/
def Awaited (m : Mark) (x : List Char) : Prop :=
  ∃ o ∈ m.openings, ∃ r, x = o ++ r ∧ ¬ m.text <:+: r

/-- A mark in two texts lies in one of them, unless the second one starts like the end of a mark. -/
theorem infix_append {m : Mark} {r u : List Char} (hu : u.head? ≠ some '/' ∧ u.head? ≠ some '#')
    (h : m.text <:+: r ++ u) : m.text <:+: r ∨ m.text <:+: u := by
  induction r with
  | nil => exact .inr h
  | cons c r ih =>
    rcases List.infix_cons_iff.mp h with hp | hi
    · by_cases hlen : m.text.length ≤ (c :: r).length
      · exact .inl (List.prefix_of_prefix_length_le hp (List.prefix_append (c :: r) u) hlen).isInfix
      · exfalso
        have hall : ∀ i < m.text.length, 0 < i → m.text[i]? ∈ [some '/', some '#'] := by
          cases m <;> decide
        have hget : m.text[(c :: r).length]? = u.head? := by
          obtain ⟨t, ht⟩ := hp
          have : (m.text ++ t)[(c :: r).length]? = m.text[(c :: r).length]? :=
            List.getElem?_append_left (by omega)
          have hright : (c :: r ++ u)[(c :: r).length]? = u[0]? := by
            rw [List.getElem?_append_right (Nat.le_refl _), Nat.sub_self]
          rw [← this, ht, List.head?_eq_getElem?]
          exact hright
        have := hall (c :: r).length (by omega) (by simp)
        rw [hget] at this
        simp_all
    · exact (ih hi).imp_left fun h => h.trans (List.suffix_cons c r).isInfix

end Mark

namespace Lexeme

open Recogniser

/-! ## What may follow -/

/-- The characters that part tokens. -/
def isBreak (c : Char) : Bool :=
  [' ', '\n', ',', ';', ')', ']', '\x7d', '>', '<', '(', '\x7b', '=', ':'].contains c

/-- Whether `u` can follow `x` without running into its last token. -/
def Parts (x u : List Char) : Prop :=
  ∀ c ∈ u.head?, isBreak c = true ∧ (c = ':' → x.getLast? ≠ some ':') ∧
    (c = '>' → x.getLast? ≠ some '-')

theorem Parts.drop {k : Nat} (h : Parts x u) (hk : k < x.length) : Parts (x.drop k) u := by
  intro c hc
  have : (x.drop k).getLast? = x.getLast? := by
    rw [List.getLast?_drop, if_neg (by omega)]
  rw [this]
  exact h c hc

/-- Whether some token can be read at the front of a text. -/
def Lexes (x : List Char) : Prop :=
  x = [] ∨ ∃ e l k, first e x = some (l, k)

/-- A lexeme starts with one of the characters of its class. -/
theorem starts_of_first {c : Char} {r : List Char} (h : first e (c :: r) = some (l, k)) :
    l ∈ order.filter (·.starts c) ∧ l.recognise (c :: r) = some k := by
  obtain ⟨hl, -, hr, -⟩ := first_eq_some_iff.mp h
  exact ⟨List.mem_filter.mpr ⟨hl, starts_of_recognise hr⟩, hr⟩

theorem stringRest_isSome_of_lexes {r : List Char} (h : Lexes ('"' :: r)) :
    (stringRest r).isSome := by
  rcases h with h | ⟨e, l, k, h⟩
  · simp at h
  · obtain ⟨hl, hr⟩ := starts_of_first h
    obtain rfl : l = .terminal .string := by
      have : order.filter (·.starts '"') = [.terminal .string] := by decide
      simpa [this] using hl
    simp only [recognise, Terminal.recognise, Recogniser.string, Option.map_eq_some_iff] at hr
    obtain ⟨j, hj, -⟩ := hr
    simp [hj]

theorem charRest_or_word_of_lexes {r : List Char} (h : Lexes ('\'' :: r)) :
    (charRest r).isSome ∨ (word r).isSome := by
  rcases h with h | ⟨e, l, k, h⟩
  · simp at h
  · obtain ⟨hl, hr⟩ := starts_of_first h
    have hf : order.filter (·.starts '\'') = [.terminal .char, .terminal .lifetime] := by decide
    simp only [hf, List.mem_cons, List.not_mem_nil, or_false] at hl
    rcases hl with rfl | rfl <;>
      simp only [recognise, Terminal.recognise, Recogniser.char, Recogniser.lifetime,
        Option.map_eq_some_iff] at hr <;> obtain ⟨j, hj, -⟩ := hr <;> simp [hj]

/-- A `b` before a quote belongs to it, or is a name of its own. -/
theorem byte_quote {r : List Char} (h : first e ('b' :: '"' :: r) = some (l, k)) :
    (stringRest r).isSome ∨ k = 1 := by
  obtain ⟨hl, hr⟩ := starts_of_first h
  have hf : order.filter (·.starts 'b') = [.terminal .rawString, .terminal .string,
    .terminal .char, .terminal .ident] := by decide
  simp only [hf, List.mem_cons, List.not_mem_nil, or_false] at hl
  rcases hl with rfl | rfl | rfl | rfl
  · simp [recognise, Terminal.recognise, rawString] at hr
  · simp only [recognise, Terminal.recognise, Recogniser.string, Option.map_eq_some_iff] at hr
    obtain ⟨j, hj, -⟩ := hr
    simp [hj]
  · simp [recognise, Terminal.recognise, Recogniser.char] at hr
  · right
    simpa [recognise, Terminal.recognise, Recogniser.ident, word, isWordStart, run, isWordChar]
      using hr.symm

theorem byte_apostrophe {r : List Char} (h : first e ('b' :: '\'' :: r) = some (l, k)) :
    (charRest r).isSome ∨ k = 1 := by
  obtain ⟨hl, hr⟩ := starts_of_first h
  have hf : order.filter (·.starts 'b') = [.terminal .rawString, .terminal .string,
    .terminal .char, .terminal .ident] := by decide
  simp only [hf, List.mem_cons, List.not_mem_nil, or_false] at hl
  rcases hl with rfl | rfl | rfl | rfl
  · simp [recognise, Terminal.recognise, rawString] at hr
  · simp [recognise, Terminal.recognise, Recogniser.string] at hr
  · simp only [recognise, Terminal.recognise, Recogniser.char, Option.map_eq_some_iff] at hr
    obtain ⟨j, hj, -⟩ := hr
    simp [hj]
  · right
    simpa [recognise, Terminal.recognise, Recogniser.ident, word, isWordStart, run, isWordChar]
      using hr.symm

/-- The same for raw strings without a `#`. -/
theorem raw_quote {r : List Char} (h : first e ('r' :: '"' :: r) = some (l, k)) :
    '"' ∈ r ∨ k = 1 := by
  obtain ⟨hl, hr⟩ := starts_of_first h
  have hf : order.filter (·.starts 'r') = [.terminal .rawString, .terminal .ident] := by decide
  simp only [hf, List.mem_cons, List.not_mem_nil, or_false] at hl
  rcases hl with rfl | rfl
  · left
    simp only [recognise, Terminal.recognise, rawString, rawRest, Option.map_map,
      Option.map_eq_some_iff] at hr
    obtain ⟨j, hj, -⟩ := hr
    by_contra hn
    have : through ['"'] r = none := through_eq_none_iff.mpr fun hi => hn (hi.subset (by simp))
    simp [this] at hj
  · right
    simpa [recognise, Terminal.recognise, Recogniser.ident, word, isWordStart, run, isWordChar]
      using hr.symm

theorem byte_raw_quote {r : List Char} (h : first e ('b' :: 'r' :: '"' :: r) = some (l, k)) :
    '"' ∈ r ∨ k = 2 := by
  obtain ⟨hl, hr⟩ := starts_of_first h
  have hf : order.filter (·.starts 'b') = [.terminal .rawString, .terminal .string,
    .terminal .char, .terminal .ident] := by decide
  simp only [hf, List.mem_cons, List.not_mem_nil, or_false] at hl
  rcases hl with rfl | rfl | rfl | rfl
  · left
    simp only [recognise, Terminal.recognise, rawString, rawRest, Option.map_map,
      Option.map_eq_some_iff] at hr
    obtain ⟨j, hj, -⟩ := hr
    by_contra hn
    have : through ['"'] r = none := through_eq_none_iff.mpr fun hi => hn (hi.subset (by simp))
    simp [this] at hj
  · simp [recognise, Terminal.recognise, Recogniser.string] at hr
  · simp [recognise, Terminal.recognise, Recogniser.char] at hr
  · right
    simpa [recognise, Terminal.recognise, Recogniser.ident, word, isWordStart, run, isWordChar]
      using hr.symm

/-! ## Reading over the end -/

section Crossing

variable {c : Char}

/-- No break stands inside of a name, a lifetime or a number. -/
theorem not_isTokenChar_of_isBreak (h : isBreak c = true) : isTokenChar c = false := by
  simp only [isBreak, List.contains_eq_mem, List.mem_cons, List.not_mem_nil, or_false,
    decide_eq_true_eq] at h
  rcases h with rfl | rfl | rfl | rfl | rfl | rfl | rfl | rfl | rfl | rfl | rfl | rfl | rfl <;> rfl

/-- An opening that does not end inside of `x` has one of its later characters after `x`. -/
theorem after_of_break {o : List Char} {f : List Char → Option Nat} (hx : x ≠ [])
    (hu : u.head? = some c) (hc : c ∉ o.tail) (h : after o f (x ++ u) = some k) :
    ∃ r j, x = o ++ r ∧ f (r ++ u) = some j ∧ k = j + o.length := by
  obtain ⟨r, j, hs, hj, rfl⟩ := after_eq_some.mp h
  by_cases hlen : o.length ≤ x.length
  · obtain ⟨x', rfl⟩ : o <+: x :=
      List.prefix_of_prefix_length_le ⟨r, hs.symm⟩ (List.prefix_append x u) hlen
    simp only [List.append_assoc, List.append_cancel_left_eq] at hs
    exact ⟨x', j, rfl, hs ▸ hj, rfl⟩
  · exfalso
    obtain ⟨o', rfl⟩ : x <+: o :=
      List.prefix_of_prefix_length_le (List.prefix_append x u) ⟨r, hs.symm⟩ (by omega)
    simp only [List.append_assoc, List.append_cancel_left_eq] at hs
    cases o' with
    | nil => simp at hlen
    | cons d o' =>
      obtain rfl : d = c := by simpa [hs] using hu
      cases x with
      | nil => exact hx rfl
      | cons a x => simp at hc

/-- A line comment reads on to the end of its line. -/
theorem line_le (hu : u.head? = some c) {r : List Char} (h : '\n' ∈ r ∨ c = '\n') :
    line (r ++ u) ≤ r.length := by
  obtain ⟨t, rfl⟩ := List.head?_eq_some_iff.mp hu
  have hw : Within (· ≠ '\n') (r ++ c :: t) (line (r ++ c :: t)) := within_run (fun _ h => h) _
  rcases h with h | rfl
  · obtain ⟨r₁, r₂, rfl⟩ := List.append_of_mem h
    rw [List.append_assoc] at hw ⊢
    have := Within.le hw (c := '\n') (by simp) (by simp)
    simp only [List.length_append]
    omega
  · exact Within.le hw (c := '\n') (by simp) (by simp)

/-- A mark that is not in `r` is not reached before its end. -/
theorem through_le_of_mark {m : Mark} {r : List Char} {j : Nat}
    (hu : u.head? ≠ some '/' ∧ u.head? ≠ some '#') (hm : ¬ m.text <:+: r → ¬ m.text <:+: u)
    (h : through m.text (r ++ u) = some j) : j ≤ r.length := by
  have hi : m.text <:+: r ++ u := by
    by_contra hn
    simp [through_eq_none_iff.mpr hn] at h
  by_cases hr : m.text <:+: r
  · cases hj : through m.text r with
    | none => exact absurd hr (through_eq_none_iff.mp hj)
    | some i =>
      have := through_grow hj u
      rw [h, Option.some.injEq] at this
      rw [this]
      exact (through_le hj).2
  · exact absurd ((Mark.infix_append hu hi).resolve_left hr) (hm hr)

theorem comment_le (hx : x ≠ []) (hu : u.head? = some c) (hc : isBreak c = true)
    (hline : ['/', '/'] <+: x → '\n' ∈ x ∨ c = '\n')
    (hm : Mark.comment.Awaited x → ¬ Mark.comment.text <:+: u)
    (h : Recogniser.comment (x ++ u) = some k) : k ≤ x.length := by
  have hslash : c ≠ '/' ∧ c ≠ '*' ∧ c ≠ '#' := by
    refine ⟨?_, ?_, ?_⟩ <;> rintro rfl <;> simp [isBreak] at hc
  rcases comment_eq_some.mp h with h | h
  · obtain ⟨r, j, rfl, hj, rfl⟩ := after_of_break hx hu (by simpa using hslash.1) h
    obtain rfl := Option.some.inj hj
    have hl := hline ⟨r, rfl⟩
    have := line_le hu (r := r) (by simpa using hl)
    simp only [List.length_append, List.length_cons, List.length_nil]
    omega
  · obtain ⟨r, j, rfl, hj, rfl⟩ := after_of_break hx hu (by simpa using hslash.2.1) h
    have := through_le_of_mark (m := .comment) (r := r) (by simpa [hu] using ⟨hslash.1, hslash.2.2⟩)
      (fun hr => hm ⟨_, by simp [Mark.openings], r, rfl, hr⟩) hj
    simp only [List.length_append, List.length_cons, List.length_nil]
    omega

theorem string_le (hx : x ≠ []) (hu : u.head? = some c) (hc : isBreak c = true)
    (hf : first e x = some (l, k)) (hrest : Lexes (x.drop k)) {j : Nat}
    (h : Recogniser.string (x ++ u) = some j) : j ≤ x.length := by
  have hq : c ≠ '"' := by
    rintro rfl
    simp [isBreak] at hc
  -- A string that is closed inside of `x` ends there.
  have closed : ∀ {r : List Char} {i}, (stringRest r).isSome → stringRest (r ++ u) = some i →
      i ≤ r.length := by
    intro r i hr hi
    obtain ⟨i', hi'⟩ := Option.isSome_iff_exists.mp hr
    rw [stringRest_grow hi' u, Option.some.injEq] at hi
    rw [← hi]
    exact (stringRest_bounds hi').2
  rcases string_eq_some.mp h with h | h
  · obtain ⟨r, i, rfl, hi, rfl⟩ := after_of_break hx hu (by simpa using hq) h
    have hr : (stringRest r).isSome := by
      rcases byte_quote hf with hr | rfl
      · exact hr
      · exact stringRest_isSome_of_lexes hrest
    have := closed hr hi
    simp only [List.length_append, List.length_cons, List.length_nil]
    omega
  · obtain ⟨r, i, rfl, hi, rfl⟩ := after_of_break hx hu (by simp) h
    have := closed (r := r) (stringRest_isSome_of_lexes (.inr ⟨e, l, k, hf⟩)) hi
    simp only [List.length_append, List.length_cons, List.length_nil]
    omega

theorem rawString_le (hx : x ≠ []) (hu : u.head? = some c) (hc : isBreak c = true)
    (hf : first e x = some (l, k)) (hrest : Lexes (x.drop k))
    (hm : ∀ m : Mark, m.Awaited x → ¬ m.text <:+: u) {j : Nat}
    (h : rawString (x ++ u) = some j) : j ≤ x.length := by
  have hq : c ≠ '"' ∧ c ≠ '#' ∧ c ≠ '/' ∧ c ≠ 'r' := by
    refine ⟨?_, ?_, ?_, ?_⟩ <;> rintro rfl <;> simp [isBreak] at hc
  have hu' : u.head? ≠ some '/' ∧ u.head? ≠ some '#' := by simpa [hu] using ⟨hq.2.2.1, hq.2.1⟩
  -- Without a `#` the quote would start a string of its own, which ends inside of `x` too.
  have plain : ∀ {r : List Char} {i}, '"' ∈ r → through ['"'] (r ++ u) = some i →
      i ≤ r.length := by
    intro r i hr hi
    cases hi' : through ['"'] r with
    | none =>
      obtain ⟨r₁, r₂, rfl⟩ := List.append_of_mem hr
      exact absurd ⟨r₁, r₂, by simp⟩ (through_eq_none_iff.mp hi')
    | some i' =>
      rw [through_grow hi' u, Option.some.injEq] at hi
      rw [← hi]
      exact (through_le hi').2
  have quoted : ∀ {r : List Char}, (stringRest r).isSome → '"' ∈ r := by
    intro r hr
    by_contra hn
    simp [stringRest_eq_none hn] at hr
  obtain ⟨p, hp, h⟩ := rawString_eq_some.mp h
  simp only [rawOpenings, List.mem_cons, List.not_mem_nil, or_false] at hp
  rcases hp with rfl | rfl | rfl | rfl | rfl | rfl <;>
    obtain ⟨r, i, rfl, hi, rfl⟩ := after_of_break hx hu (by simp [hq]) h <;>
    simp only [List.length_append, List.length_cons, List.length_nil]
  · have := plain (r := r) ((raw_quote hf).elim id fun hk => quoted (stringRest_isSome_of_lexes
      (by subst hk; exact hrest))) hi
    omega
  · have := through_le_of_mark (m := .raw) hu'
      (fun hr => hm .raw ⟨_, by simp [Mark.openings], r, rfl, hr⟩) hi
    omega
  · have := through_le_of_mark (m := .rawTwo) hu'
      (fun hr => hm .rawTwo ⟨_, by simp [Mark.openings], r, rfl, hr⟩) hi
    omega
  · have := plain (r := r) ((byte_raw_quote hf).elim id fun hk =>
      quoted (stringRest_isSome_of_lexes (by subst hk; exact hrest))) hi
    omega
  · have := through_le_of_mark (m := .raw) hu'
      (fun hr => hm .raw ⟨_, by simp [Mark.openings], r, rfl, hr⟩) hi
    omega
  · have := through_le_of_mark (m := .rawTwo) hu'
      (fun hr => hm .rawTwo ⟨_, by simp [Mark.openings], r, rfl, hr⟩) hi
    omega

theorem char_le (hx : x ≠ []) (hu : u.head? = some c) (hc : isBreak c = true)
    (hf : first e x = some (l, k)) (hrest : Lexes (x.drop k)) {j : Nat}
    (h : Recogniser.char (x ++ u) = some j) : j ≤ x.length := by
  have hq : c ≠ '\'' := by
    rintro rfl
    simp [isBreak] at hc
  have closed : ∀ {r : List Char} {i}, (charRest r).isSome ∨ (word r).isSome →
      charRest (r ++ u) = some i → i ≤ r.length := by
    intro r i hr hi
    cases hr' : charRest r with
    | some i' =>
      rw [charRest_grows hr' u, Option.some.injEq] at hi
      rw [← hi]
      exact (charRest_bounds hr').2
    | none =>
      -- A letter after the quote: the literal would end with the first character of `u`.
      exfalso
      have hw : (word r).isSome := by simpa [hr'] using hr
      cases r with
      | nil => simp [word] at hw
      | cons a r =>
        have ha : isWordStart a = true := by
          by_contra hn
          simp [word, hn] at hw
        have ha' : a ≠ '\\' ∧ a ≠ '\'' ∧ a ≠ '\n' := by
          refine ⟨?_, ?_, ?_⟩ <;> rintro rfl <;> simp [isWordStart] at ha
        rcases charRest_eq_some.mp hi with ⟨-, r', hs⟩ | ⟨w, r', hs, -⟩ | ⟨-, d, r', hs, -⟩
        · simp [ha'.1] at hs
        · simp [ha'.1] at hs
        · cases r with
          | nil =>
            obtain ⟨t, rfl⟩ := List.head?_eq_some_iff.mp hu
            simp [hq] at hs
          | cons b r =>
            obtain ⟨-, rfl, -⟩ : a = d ∧ b = '\'' ∧ r ++ u = r' := by simpa using hs
            have : charRest (a :: '\'' :: r) = some 2 :=
              charRest_eq_some.mpr (.inr (.inr ⟨rfl, a, r, rfl, ha'.1, by simp [isEscaped, ha']⟩))
            simp [hr'] at this
  rcases char_eq_some.mp h with h | h
  · obtain ⟨r, i, rfl, hi, rfl⟩ := after_of_break hx hu (by simpa using hq) h
    have hr : (charRest r).isSome ∨ (word r).isSome := by
      rcases byte_apostrophe hf with hr | rfl
      · exact .inl hr
      · exact charRest_or_word_of_lexes hrest
    have := closed hr hi
    simp only [List.length_append, List.length_cons, List.length_nil]
    omega
  · obtain ⟨r, i, rfl, hi, rfl⟩ := after_of_break hx hu (by simp) h
    have := closed (r := r) (charRest_or_word_of_lexes (.inr ⟨e, l, k, hf⟩)) hi
    simp only [List.length_append, List.length_cons, List.length_nil]
    omega

/-- Only `::` and `->` have a break inside. -/
theorem break_in_spelling : ∀ t ∈ Terminal.keywords ++ Terminal.symbols, ∀ c ∈ t.spelling.tail,
    isBreak c = true → t.spelling = [':', c] ∧ c = ':' ∨ t.spelling = ['-', c] ∧ c = '>' := by
  have hall : ∀ t ∈ Terminal.keywords ++ Terminal.symbols,
      (t.spelling.tail.all fun c => !isBreak c ||
      decide (t.spelling = [':', c] ∧ c = ':' ∨ t.spelling = ['-', c] ∧ c = '>')) = true := by
    decide
  intro t ht c hc hbreak
  have hchar := List.all_eq_true.mp (hall t ht) c hc
  simpa only [hbreak, Bool.not_true, Bool.false_or, decide_eq_true_eq] using hchar

theorem exactly_le {t : Terminal} (ht : t ∈ Terminal.keywords ++ Terminal.symbols) (hx : x ≠ [])
    (hu : u.head? = some c) (hp : Parts x u) (h : exactly t.spelling (x ++ u) = some k) :
    k ≤ x.length := by
  obtain ⟨hpre, rfl⟩ := exactly_eq_some h
  by_contra hlen
  obtain ⟨w, hw⟩ : x <+: t.spelling :=
    List.prefix_of_prefix_length_le (List.prefix_append x u) hpre (by omega)
  have hwu : w <+: u := by
    obtain ⟨s, hs⟩ := hpre
    exact ⟨s, by simpa [← hw] using hs⟩
  obtain ⟨w, rfl⟩ : ∃ w', w = c :: w' := by
    cases w with
    | nil => simp [← hw] at hlen
    | cons d w =>
      obtain ⟨s, rfl⟩ := hwu
      exact ⟨w, by simpa using hu⟩
  obtain ⟨a, x, rfl⟩ : ∃ a x', x = a :: x' := List.exists_cons_of_ne_nil hx
  obtain ⟨hc, hcolon, hgt⟩ := hp c (by simp [hu])
  rcases break_in_spelling t ht c (by simp [← hw]) hc with ⟨hs, rfl⟩ | ⟨hs, rfl⟩
  · have : a = ':' ∧ x = [] := by cases x <;> simp_all
    simp [this] at hcolon
  · have : a = '-' ∧ x = [] := by cases x <;> simp_all
    simp [this] at hgt

/-- What parts from `x`, does not go on with a line of it and closes nothing that it has left open
is not read into. -/
theorem clear_of_parts (hf : first e x = some (l, k)) (hrest : Lexes (x.drop k)) (hp : Parts x u)
    (hlayout : ∃ a ∈ x, isLayout a = false)
    (hline : ['/', '/'] <+: x → '\n' ∈ x ∨ u.head? = none ∨ u.head? = some '\n')
    (hm : ∀ m : Mark, (m = .comment ∨ .rawString ∈ e) → m.Awaited x → ¬ m.text <:+: u) :
    Clear e x u := by
  intro l' htried j hj
  cases hu : u.head? with
  | none =>
    obtain rfl := List.head?_eq_none_iff.mp hu
    simpa using (recognise_bounds hj).2
  | some c =>
    have hx : x ≠ [] := by
      rintro rfl
      simp at hf
    have hc := (hp c (by simp [hu])).1
    have htok := not_isTokenChar_of_isBreak hc
    have hcomment : ∀ {i}, Recogniser.comment (x ++ u) = some i → i ≤ x.length :=
      comment_le hx hu hc (fun h => by simpa [hu] using hline h) (hm .comment (.inl rfl))
    cases l' with
    | layout =>
      -- The run of layout stops at the first character that is none.
      obtain ⟨a, ha, hlay⟩ := hlayout
      obtain ⟨x₁, x₂, rfl⟩ := List.append_of_mem ha
      have hw : Within isLayout (x₁ ++ (a :: x₂ ++ u)) j := by
        simp only [recognise, Recogniser.layout, some1] at hj
        split at hj
        · simp at hj
        · obtain rfl := Option.some.inj hj
          simpa using within_run (fun _ h => h) (x₁ ++ a :: x₂ ++ u)
      have := hw.le (c := a) (by simp) hlay
      simp only [List.length_append]
      omega
    | comment => exact hcomment hj
    | terminal t =>
      cases t
      case docComment => exact hcomment (comment_of_docComment hj)
      case innerDoc => exact hcomment (comment_of_innerDoc hj)
      case rawString =>
        have he : .rawString ∈ e := by
          simp only [tried, Bool.and_eq_true, List.contains_iff_mem] at htried
          exact htried.1
        exact rawString_le hx hu hc hf hrest (fun m => hm m (.inr he)) hj
      case string => exact string_le hx hu hc hf hrest hj
      case char => exact char_le hx hu hc hf hrest hj
      case number => exact (number_within hj).le hu htok
      case ident => exact (ident_within hj).le hu htok
      case lifetime => exact (lifetime_within hj).le hu htok
      case punct =>
        have : j = 1 := by
          simp only [recognise, Terminal.recognise, punct] at hj
          split at hj
          · split at hj <;> simp_all
          · simp at hj
        exact this ▸ List.length_pos_iff.mpr hx
      case eof | unknown => simp [recognise, Terminal.recognise] at hj
      -- Keywords and symbols
      all_goals exact exactly_le (by decide) hx hu hp hj

end Crossing

/-- Where a comment can be read, no class takes more or less than it. -/
theorem eq_of_comment {s : List Char} {j : Nat} (hc : Recogniser.comment s = some j)
    (h : first e s = some (l, k)) : k = j := by
  obtain ⟨hl, -, hrec, hb⟩ := first_eq_some_iff.mp h
  have hstart : ∃ r, s = '/' :: r := by
    rcases comment_eq_some.mp hc with h | h <;> obtain ⟨r, i, rfl, -⟩ := after_eq_some.mp h <;>
      exact ⟨_, rfl⟩
  have cases_of_order : ∀ l ∈ order, l = .comment ∨ l ∈ [.terminal .docComment,
      .terminal .rawString, .terminal .innerDoc] ∨ .comment ∈ before l := by
    decide
  rcases cases_of_order l hl with rfl | hl | hl
  · exact Option.some.inj (hrec.symm.trans hc)
  · simp only [List.mem_cons, List.not_mem_nil, or_false] at hl
    rcases hl with rfl | rfl | rfl
    · exact Option.some.inj ((comment_of_docComment hrec).symm.trans hc)
    · obtain ⟨r, rfl⟩ := hstart
      simp [recognise, Terminal.recognise, rawString] at hrec
    · exact Option.some.inj ((comment_of_innerDoc hrec).symm.trans hc)
  · exact absurd (hc.symm.trans (hb _ hl rfl)) (by simp)

/-- The same for raw strings, where they are expected. -/
theorem eq_of_rawString {s : List Char} {j : Nat} (he : .rawString ∈ e)
    (hr : rawString s = some j) (h : first e s = some (l, k)) : k = j := by
  obtain ⟨hl, -, hrec, hb⟩ := first_eq_some_iff.mp h
  have ht : tried e (.terminal .rawString) = true := by simp [tried, Terminal.keywords, he]
  have cases_of_order : ∀ l ∈ order, l = .terminal .rawString ∨ l = .terminal .docComment ∨
      .terminal .rawString ∈ before l := by
    decide
  rcases cases_of_order l hl with rfl | rfl | hl
  · exact Option.some.inj (hrec.symm.trans hr)
  · rcases docComment_eq_some.mp hrec with ⟨r, rfl, -⟩ | ⟨r, i, rfl, -⟩ <;>
      simp [rawString] at hr
  · exact absurd (hr.symm.trans (hb _ hl ht)) (by simp)

/-- What an opening starts is read up to the end of its mark. -/
theorem eq_of_closed {m : Mark} {o r : List Char} {j : Nat} (ho : o ∈ m.openings)
    (he : m = .comment ∨ .rawString ∈ e) (hj : through m.text r = some j)
    (h : first e (o ++ r) = some (l, k)) : k = j + o.length := by
  have hafter : after o (through m.text) (o ++ r) = some (j + o.length) :=
    after_eq_some.mpr ⟨r, j, rfl, hj, rfl⟩
  cases m with
  | comment =>
    obtain rfl : o = ['/', '*'] := by simpa [Mark.openings] using ho
    exact eq_of_comment (comment_eq_some.mpr (.inr hafter)) h
  | raw | rawTwo =>
    refine eq_of_rawString (by simpa using he) (rawString_eq_some.mpr ⟨(o, _), ?_, hafter⟩) h
    simp only [Mark.openings, List.mem_cons, List.not_mem_nil, or_false] at ho
    rcases ho with rfl | rfl <;> simp [rawOpenings]

/-- What `x` leaves open is not closed by what follows, or it would have been read as a whole. -/
theorem not_infix_of_awaited {m : Mark} (h : first e (x ++ u) = some (l, k)) (hk : k ≤ x.length)
    (he : m = .comment ∨ .rawString ∈ e) (hm : m.Awaited x) : ¬ m.text <:+: u := by
  intro hu
  obtain ⟨o, ho, r, rfl, hr⟩ := hm
  obtain ⟨j, hj⟩ : ∃ j, through m.text (r ++ u) = some j := by
    cases hj : through m.text (r ++ u) with
    | none => exact absurd (List.infix_append_of_infix_right hu) (through_eq_none_iff.mp hj)
    | some j => exact ⟨j, rfl⟩
  have hj' : r.length < j := by
    by_contra hn
    have := through_cut hj (by omega)
    simp [through_eq_none_iff.mpr hr] at this
  have hwhole := eq_of_closed ho he hj (by rwa [← List.append_assoc])
  simp only [List.length_append] at hk
  omega

end Lexeme

/-! ## Tokens -/

namespace Next

open Lexeme

variable {e : Expectation} {x y u : List Char} {t : Token}

theorem lexes_of_token (h : of e x = token t y) : Lexes x := by
  have hf := found e x
  rw [h] at hf
  generalize token t y = n at hf
  cases hf with
  | ended => exact .inl rfl
  | unknown hs hn => simp [of_unknown hs hn] at h
  | token hv => exact .inr ⟨e, _, _, hv⟩
  | skip hl => exact .inr ⟨e, _, _, hl⟩

/-- A token that ends inside of `x` is found in `x` alone. -/
theorem of_cut (h : of e (x ++ u) = token t (y ++ u)) : of e x = token t y := by
  have hf := found e (x ++ u)
  rw [h] at hf
  clear h
  generalize hs : x ++ u = s at hf
  generalize hn : token t (y ++ u) = n at hf
  -- By induction on what is skipped in front of the token.
  induction hf generalizing x t with
  | ended | unknown => simp at hn
  | @token s v k hv =>
    subst hs
    obtain ⟨rfl, hy⟩ := Next.token.inj hn
    have hk := Lexeme.first_bounds hv
    have hlen := congrArg List.length hy
    simp only [List.length_append, List.length_drop] at hlen hk
    have hkx : k ≤ x.length := by omega
    rw [List.drop_append_of_le_length hkx, List.append_cancel_right_eq] at hy
    rw [of_token (first_cut hv hkx), List.take_append_of_le_length hkx, hy]
  | @skip s l k n hl hskip rest ih =>
    subst hs
    cases n with
    | ended | unknown => simp [prepend] at hn
    | token t' rest' =>
      obtain ⟨rfl, rfl⟩ := Next.token.inj hn
      have hk := Lexeme.first_bounds hl
      have hlen := congrArg List.length (of_eq_token rest.eq_of).1
      simp only [List.length_append, List.length_drop] at hlen hk
      have hkx : k ≤ x.length := by omega
      rw [of_skip (first_cut hl hkx) hskip, List.take_append_of_le_length hkx,
        ih (t := t') (List.drop_append_of_le_length hkx).symm rfl]
      rfl

/-- No token starts with layout. -/
theorem not_isLayout_of_first {c : Char} {r : List Char} {v : Terminal} {k : Nat}
    (h : first e (c :: r) = some (.terminal v, k)) : Recogniser.isLayout c = false := by
  by_contra hc
  have hl := (starts_of_first h).1
  simp only [Recogniser.isLayout, Bool.not_eq_false, Bool.or_eq_true, beq_iff_eq] at hc
  have only_layout : ∀ c ∈ [' ', '\t', '\x0c', '\r', '\n'],
      order.filter (·.starts c) = [.layout] := by
    simp only [List.forall_mem_cons, List.not_mem_nil, false_implies, implies_true, and_true]
    decide
  rw [only_layout c (by grind)] at hl
  simp at hl

theorem exists_not_isLayout (h : of e x = token t y) : ∃ a ∈ x, Recogniser.isLayout a = false := by
  obtain ⟨rfl, v, -, hv⟩ := of_eq_token h
  obtain ⟨c, w, hw⟩ := List.exists_cons_of_ne_nil (text_ne_nil_of_token h)
  rw [hw] at hv
  exact ⟨c, by simp [hw], not_isLayout_of_first hv⟩

/-- A line comment that stops before the end of a text stops at a line end. -/
theorem mem_of_line {k : Nat} (hx : ['/', '/'] <+: x) (h : Lexeme.comment.recognise x = some k)
    (hk : k < x.length) : '\n' ∈ x := by
  obtain ⟨r, rfl⟩ := hx
  by_contra hn
  have hr : '\n' ∉ r := by simpa using hn
  have hline : Recogniser.line r = r.length := by
    rw [Recogniser.line, Recogniser.run, List.takeWhile_eq_self_iff.mpr]
    intro c hc
    simp only [decide_eq_true_eq]
    rintro rfl
    exact hr hc
  simp only [Lexeme.recognise, List.cons_append, List.nil_append, Recogniser.comment, hline,
    Option.some.injEq, List.length_cons] at h hk
  omega

theorem comment_of_slashes (hx : ['/', '/'] <+: x) : ∃ j, Recogniser.comment x = some j := by
  obtain ⟨r, rfl⟩ := hx
  exact ⟨_, rfl⟩

/-- What is passed over leaves nothing open. -/
theorem not_awaited_of_skipped {l : Lexeme} {k : Nat} {m : Mark} (h : first e x = some (l, k))
    (hl : l.skipped = true) : ¬ m.Awaited x := by
  rintro ⟨o, ho, r, rfl, hr⟩
  obtain ⟨c, o', rfl, hc⟩ : ∃ c o', o = c :: o' ∧ c ∈ ['/', 'r', 'b'] := by
    revert ho
    cases m <;> simp [Mark.openings] <;> rintro (rfl | rfl) <;> simp
  obtain ⟨hs, hrec⟩ := starts_of_first (c := c) (r := o' ++ r) h
  cases l with
  | terminal => simp [skipped] at hl
  | layout =>
    have := (List.mem_filter.mp hs).2
    simp only [List.mem_cons, List.not_mem_nil, or_false] at hc
    rcases hc with rfl | rfl | rfl <;> simp [starts, Recogniser.isLayout] at this
  | comment =>
    have := (List.mem_filter.mp hs).2
    obtain rfl : c = '/' := by simpa [starts] using this
    obtain rfl : m = .comment := by
      cases m <;> simp_all [Mark.openings]
    obtain rfl : o' = ['*'] := by simpa [Mark.openings] using ho
    have hnone : Recogniser.through ['*', '/'] r = none := Recogniser.through_eq_none_iff.mpr hr
    simp [Lexeme.recognise, Recogniser.comment, Recogniser.blockRest, hnone] at hrec

/-- A token of `x` alone stays when something follows that parts from it, does not go on with its
line and closes nothing that is left open. -/
theorem of_append (h : of e x = token t y) (hy : Lexes y) (hp : Parts x u)
    (hline : y = [] → ['/', '/'] <+: t.text → u.head? = none ∨ u.head? = some '\n')
    (hm : ∀ m : Mark, (m = .comment ∨ .rawString ∈ e) → m.Awaited (t.text ++ y) →
      ¬ m.text <:+: u) :
    of e (x ++ u) = token t (y ++ u) := by
  have hf := found e x
  rw [h] at hf
  generalize hn : token t y = n at hf
  induction hf generalizing t with
  | ended | unknown => simp at hn
  | @token s v k hv =>
    obtain ⟨rfl, rfl⟩ := Next.token.inj hn
    have hk := (Lexeme.first_bounds hv).2
    simp only [List.take_append_drop] at hm
    have hclear : Clear e s u := by
      -- Two slashes start a comment, so the token is one. It ends with its line, or the text does.
      refine clear_of_parts hv hy hp (exists_not_isLayout h) (fun hs => ?_) hm
      obtain ⟨j, hj⟩ := comment_of_slashes hs
      obtain rfl := eq_of_comment hj hv
      by_cases hks : k < s.length
      · exact .inl (mem_of_line hs hj hks)
      · right
        refine hline (List.drop_eq_nil_of_le (by omega)) ?_
        rwa [List.take_of_length_le (by omega)]
    rw [of_token (first_append_of_clear hclear hv), List.take_append_of_le_length hk,
      List.drop_append_of_le_length hk]
  | @skip s l k n hl hskip rest ih =>
    cases n with
    | ended | unknown => simp [prepend] at hn
    | token t' rest' =>
      obtain ⟨rfl, rfl⟩ := Next.token.inj hn
      have hk := (Lexeme.first_bounds hl).2
      have hrest := rest.eq_of
      have hks : k < s.length := by
        by_contra hn
        rw [List.drop_eq_nil_of_le (by omega)] at hrest
        simp at hrest
      have hclear : Clear e s u := by
        -- A comment that is skipped has its end in the text, since a token follows.
        refine clear_of_parts hl (lexes_of_token hrest) hp (exists_not_isLayout h) (fun hs => ?_)
          (fun m _ hs => absurd hs (not_awaited_of_skipped hl hskip))
        obtain ⟨j, hj⟩ := comment_of_slashes hs
        obtain rfl := eq_of_comment hj hl
        exact .inl (mem_of_line hs hj hks)
      rw [of_skip (first_append_of_clear hclear hl) hskip, List.take_append_of_le_length hk,
        List.drop_append_of_le_length hk, ih hrest (hp.drop hks) hline hm rfl]
      rfl

end Next
end ShadowImpl
