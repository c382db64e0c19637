import ShadowImpl.Proofs.Gaps
import ShadowImpl.Proofs.ReadBack

namespace ShadowImpl

open Lexeme Recogniser

variable {e : Expectation} {w z g : List Char}

/-! ## Names and lifetimes -/

/-- A text that the scanner takes for a lifetime, all of it. -/
def IsLifetime (w : List Char) : Prop :=
  Recogniser.lifetime w = some w.length

theorem isWordChar_of_word (h : word w = some w.length) : ∀ c ∈ w, isWordChar c = true := by
  cases w with
  | nil => simp
  | cons c r =>
    simp only [word] at h
    split at h
    · rename_i hc
      have hr : run isWordChar r = r.length := by
        simp only [Option.some.injEq, List.length_cons] at h
        omega
      have hall : r.takeWhile isWordChar = r :=
        (List.takeWhile_prefix _).eq_of_length (by rw [run] at hr; exact hr)
      have hstart : isWordChar c = true := by
        simp only [isWordStart, isWordChar, Char.isAlphanum, Bool.or_eq_true] at hc ⊢
        exact hc.imp_left .inl
      simp only [List.mem_cons, forall_eq_or_imp]
      exact ⟨hstart, List.takeWhile_eq_self_iff.mp hall⟩
    · simp at h

/-- A name is made of characters of words, and of a hash if it is raw. -/
theorem IsName.chars (h : IsName w) : ∀ c ∈ w, isWordChar c = true ∨ c = '#' := by
  rw [IsName] at h
  rcases ident_forms w with ⟨r, n, rfl, hn⟩ | hw
  · rw [ident_raw hn] at h
    have hr : word r = some r.length := by
      rw [hn]
      simpa using h
    simp only [List.mem_cons]
    rintro c (rfl | rfl | hc)
    · exact .inl rfl
    · exact .inr rfl
    · exact .inl (isWordChar_of_word hr c hc)
  · rw [ident_plain hw] at h
    exact fun c hc => .inl (isWordChar_of_word h c hc)

theorem IsName.not_mem (h : IsName w) {c : Char} (hc : isWordChar c = false) (hc' : c ≠ '#') :
    c ∉ w := by
  intro hm
  rcases h.chars c hm with hw | hw
  · simp [hw] at hc
  · exact hc' hw

/-- A name starts as a word does. -/
theorem IsName.exists_cons (h : IsName w) : ∃ c r, w = c :: r ∧ isWordStart c = true := by
  have hsome : (word w).isSome := by
    rw [← ident_isSome, h]
    rfl
  cases w with
  | nil => simp [word] at hsome
  | cons c r =>
    refine ⟨c, r, rfl, ?_⟩
    by_contra hc
    simp [word, hc] at hsome

/-- Strings have quotes in them. -/
theorem quote_mem {k : Nat} (h : Recogniser.string w = some k ∨ rawString w = some k) :
    '"' ∈ w := by
  rcases h with h | h
  · rcases string_eq_some.mp h with h | h <;> obtain ⟨r, j, rfl, -⟩ := after_eq_some.mp h <;> simp
  · obtain ⟨p, hp, h⟩ := rawString_eq_some.mp h
    obtain ⟨r, j, rfl, -⟩ := after_eq_some.mp h
    have hall : ∀ p ∈ rawOpenings, '"' ∈ p.1 := by decide
    exact List.mem_append_left _ (hall p hp)

/-- A character literal has its apostrophes. -/
theorem apostrophe_mem {k : Nat} (h : Recogniser.char w = some k) : '\'' ∈ w := by
  rcases char_eq_some.mp h with h | h <;> obtain ⟨r, j, rfl, -⟩ := after_eq_some.mp h <;> simp

theorem not_isDigit_of_isWordStart {c : Char} (h : isWordStart c = true) : c.isDigit = false := by
  by_contra hd
  rw [Bool.not_eq_false, isDigit_iff] at hd
  simp only [isWordStart, Bool.or_eq_true, isAlpha_iff, beq_iff_eq] at h
  rcases h with h | rfl
  · omega
  · simp at hd

/-- A name is found as one where names are expected. -/
theorem IsName.first (h : IsName w) (he : .ident ∈ e) :
    Lexeme.first e w = some (.terminal .ident, w.length) := by
  refine first_eq_some_iff.mpr ⟨by decide, by simp [tried, he, Terminal.keywords], h, ?_⟩
  intro m hm _
  obtain ⟨c, r, rfl, hc⟩ := h.exists_cons
  have hslash : c ≠ '/' := by
    rintro rfl
    simp [isWordStart] at hc
  cases hr : m.recognise (c :: r) with
  | none => rfl
  | some k =>
    exfalso
    have hs := starts_of_recognise hr
    have hbefore : before (.terminal .ident) = [.terminal .docComment, .terminal .rawString,
      .terminal .innerDoc, .comment, .terminal .string, .terminal .char, .terminal .number] := rfl
    simp only [hbefore, List.mem_cons, List.not_mem_nil, or_false] at hm
    -- What is tried before names starts with a slash or a digit, or has a quote in it.
    rcases hm with rfl | rfl | rfl | rfl | rfl | rfl | rfl
    · exact hslash (by simpa [starts] using hs)
    · exact h.not_mem (by rfl) (by decide) (quote_mem (.inr hr))
    · exact hslash (by simpa [starts] using hs)
    · exact hslash (by simpa [starts] using hs)
    · exact h.not_mem (by rfl) (by decide) (quote_mem (.inl hr))
    · exact h.not_mem (by rfl) (by decide) (apostrophe_mem hr)
    · have := not_isDigit_of_isWordStart hc
      simp [starts, this] at hs

/-- A lifetime is an apostrophe and a word. -/
theorem IsLifetime.exists_cons (h : IsLifetime w) :
    ∃ r, w = '\'' :: r ∧ word r = some r.length := by
  rw [IsLifetime] at h
  unfold Recogniser.lifetime at h
  split at h
  · rename_i r
    obtain ⟨j, hj, hlen⟩ := Option.map_eq_some_iff.mp h
    refine ⟨r, rfl, ?_⟩
    rw [hj]
    simpa using hlen
  · simp at h

/-- A lifetime is found as one by itself: it has no second apostrophe, which would make it a
character. -/
theorem IsLifetime.first (h : IsLifetime w) (he : .lifetime ∈ e) :
    Lexeme.first e w = some (.terminal .lifetime, w.length) := by
  refine first_eq_some_iff.mpr ⟨by decide, by simp [tried, he, Terminal.keywords], h, ?_⟩
  intro m hm _
  obtain ⟨r, rfl, hr⟩ := h.exists_cons
  have hquote : '\'' ∉ r := fun hq => absurd (isWordChar_of_word hr _ hq) (by decide)
  have hslash : '\\' ∉ r := fun hq => absurd (isWordChar_of_word hr _ hq) (by decide)
  cases hk : m.recognise ('\'' :: r) with
  | none => rfl
  | some k =>
    exfalso
    have hm' : m ∈ (before (.terminal .lifetime)).filter (·.starts '\'') :=
      List.mem_filter.mpr ⟨hm, starts_of_recognise hk⟩
    have hfilter : (before (.terminal .lifetime)).filter (·.starts '\'') = [.terminal .char] := by
      decide
    obtain rfl : m = .terminal .char := by simpa [hfilter] using hm'
    rcases char_eq_some.mp (show Recogniser.char ('\'' :: r) = some k from hk) with hk | hk
    · obtain ⟨r', j, hs, -⟩ := after_eq_some.mp hk
      simp at hs
    · obtain ⟨r', j, hs, hj, -⟩ := after_eq_some.mp hk
      obtain rfl : r = r' := by simpa using hs
      -- A character has a backslash or a second apostrophe.
      rcases charRest_eq_some.mp hj with ⟨-, r', rfl⟩ | ⟨w, r', rfl, -⟩ | ⟨-, c, r', rfl, -⟩
      · simp at hslash
      · simp at hslash
      · simp at hquote

/-! ## Tokens in a text -/

/-- Layout, as it stands between printed tokens. -/
abbrev IsLayout (g : List Char) : Prop :=
  ∀ c ∈ g, isLayout c = true

theorem isLayout_nil : IsLayout [] :=
  fun _ hc => absurd hc List.not_mem_nil

theorem isLayout_space : IsLayout [' '] :=
  fun _ hc => List.mem_singleton.mp hc ▸ rfl

/-- A text that nothing in front of it runs into. -/
abbrev Breaks (z : List Char) : Prop :=
  ∀ c ∈ z.head?, isBreak c = true

/-- Layout is a gap, whatever is expected. -/
theorem gap_of_isLayout (hg : IsLayout g) : Gap e g := by
  simpa using Gap.layout_append (e := e) hg .nil

/-- A token without quotes, slashes, colons and signs in front of a break. -/
theorem of_first_breaks {κ : Terminal} (hf : Lexeme.first e w = some (.terminal κ, w.length))
    (hw : ∀ c ∈ ['"', '/', ':', '-'], c ∉ w) (hg : IsLayout g) (hz : Breaks z) :
    Next.of e (g ++ (w ++ z)) = .token ⟨κ.settle e w, g, w⟩ z := by
  have halone : Next.of e w = .token ⟨κ.settle e w, [], w⟩ [] := by
    rw [Next.of_token hf, List.take_length, List.drop_length]
  refine (gap_of_isLayout hg).of_token ?_
  refine Next.of_append halone (.inl rfl) (fun c hc => ⟨hz c hc, ?_, ?_⟩) (fun _ hs => ?_) ?_
  · rintro rfl hlast
    exact hw ':' (by simp) (List.mem_of_getLast? hlast)
  · rintro rfl hlast
    exact hw '-' (by simp) (List.mem_of_getLast? hlast)
  · exact absurd (hs.subset (by simp)) (hw '/' (by simp))
  · rintro m - ⟨o, ho, r, hr, -⟩
    obtain rfl : w = o ++ r := by simpa using hr
    have hall : ∀ m : Mark, ∀ o ∈ m.openings, '"' ∈ o ∨ '/' ∈ o := by
      intro m
      cases m <;> decide
    rcases hall m o ho with hq | hq
    · exact absurd (List.mem_append_left r hq) (hw '"' (by simp))
    · exact absurd (List.mem_append_left r hq) (hw '/' (by simp))

/-- A name is found behind layout, where no character follows that could belong to it. -/
theorem of_name (hw : IsName w) (he : .ident ∈ e) (hg : IsLayout g) (hz : Breaks z) :
    Next.of e (g ++ (w ++ z)) = .token ⟨Terminal.ofName e w, g, w⟩ z := by
  refine of_first_breaks (hw.first he) ?_ hg hz
  simp only [List.forall_mem_cons, List.not_mem_nil, false_implies, implies_true, and_true]
  exact ⟨hw.not_mem rfl (by decide), hw.not_mem rfl (by decide), hw.not_mem rfl (by decide),
    hw.not_mem rfl (by decide)⟩

theorem IsLifetime.not_mem (h : IsLifetime w) {c : Char} (hc : isWordChar c = false)
    (hc' : c ≠ '\'') : c ∉ w := by
  obtain ⟨r, rfl, hr⟩ := h.exists_cons
  simp only [List.mem_cons, not_or]
  refine ⟨hc', fun hm => ?_⟩
  simp [isWordChar_of_word hr c hm] at hc

/-- A lifetime is found behind layout, where no character follows that could belong to it. -/
theorem of_lifetime (hw : IsLifetime w) (he : .lifetime ∈ e) (hg : IsLayout g) (hz : Breaks z) :
    Next.of e (g ++ (w ++ z)) = .token ⟨.lifetime, g, w⟩ z := by
  refine of_first_breaks (hw.first he) ?_ hg hz
  simp only [List.forall_mem_cons, List.not_mem_nil, false_implies, implies_true, and_true]
  exact ⟨hw.not_mem rfl (by decide), hw.not_mem rfl (by decide), hw.not_mem rfl (by decide),
    hw.not_mem rfl (by decide)⟩

/-- Whether a keyword or a symbol is found by its letters: it is tried, and nothing that is tried
before it starts like it. -/
def finds (e : Expectation) (κ : Terminal) : Bool :=
  match κ.spelling with
  | [] => false
  | c :: _ => tried e (.terminal κ) && (before (.terminal κ)).all fun m => !tried e m || !m.starts c

theorem recognise_eq_exactly {κ : Terminal} (h : κ ∈ Terminal.keywords ++ Terminal.symbols) :
    κ.recognise = exactly κ.spelling := by
  cases κ <;> first | rfl | exact absurd h (by decide)

/-- A symbol that no longer one starts with is found behind layout, in front of anything. -/
theorem of_symbol {κ : Terminal} (h : finds e κ = true) (hg : IsLayout g) :
    Next.of e (g ++ (κ.spelling ++ z)) = .token ⟨κ, g, κ.spelling⟩ z := by
  refine (gap_of_isLayout hg).of_token ?_
  cases hs : κ.spelling with
  | nil => simp [finds, hs] at h
  | cons c w =>
    have hmem := Terminal.spelling_ne_nil_iff.mp (by rw [hs]; simp : κ.spelling ≠ [])
    have hall : ∀ κ ∈ Terminal.keywords ++ Terminal.symbols, .terminal κ ∈ order ∧ κ ≠ .ident := by
      decide
    simp only [finds, hs, Bool.and_eq_true, List.all_eq_true, Bool.or_eq_true,
      Bool.not_eq_true'] at h
    have hb : ∀ m ∈ before (.terminal κ), tried e m = true → m.starts c = false := by
      intro m hm ht
      simpa [ht] using h.2 m hm
    rw [← hs]
    exact of_spelling hs (recognise_eq_exactly hmem) (hall κ hmem) h.1 hb z

theorem of_symbol_front {κ : Terminal} (h : finds e κ = true) :
    Next.of e (κ.spelling ++ z) = .token ⟨κ, [], κ.spelling⟩ z :=
  of_symbol h isLayout_nil

/-- The spelling of a keyword is that keyword where it is expected. -/
theorem ofName_spelling {κ : Terminal} (hκ : κ ∈ Terminal.keywords) (he : κ ∈ e) :
    Terminal.ofName e κ.spelling = κ := by
  have hinj : ∀ κ ∈ Terminal.keywords, ∀ κ' ∈ Terminal.keywords, κ'.spelling =
      κ.spelling → κ' = κ := by
    decide
  rw [Terminal.ofName]
  cases hf : (Terminal.keywords.filter e.contains).find? (·.spelling = κ.spelling) with
  | none => simpa using List.find?_eq_none.mp hf κ (List.mem_filter.mpr ⟨hκ, by simpa using he⟩)
  | some κ' =>
    have hmem := (List.mem_filter.mp (List.mem_of_find?_eq_some hf)).1
    exact hinj κ hκ κ' hmem (by simpa using List.find?_some hf)

/-- A keyword where names are expected too. -/
theorem of_keyword {κ : Terminal} (hκ : κ ∈ Terminal.keywords) (hκe : κ ∈ e) (he : .ident ∈ e)
    (hg : IsLayout g) (hz : Breaks z) :
    Next.of e (g ++ (κ.spelling ++ z)) = .token ⟨κ, g, κ.spelling⟩ z := by
  have hall : ∀ κ ∈ Terminal.keywords, ident κ.spelling = some κ.spelling.length := by decide
  have := of_name (e := e) (hall κ hκ) he hg hz
  rwa [ofName_spelling hκ hκe] at this

/-- The symbols that a longer one starts like. -/
def shortSymbols : List (Terminal × Terminal × Char × Char) :=
  [(.colon, .pathSep, ':', ':'), (.minus, .arrow, '-', '>')]

/-- A symbol that a longer one starts like, where that one does not stand. -/
theorem of_short {κ long : Terminal} {c d : Char} (h : (κ, long, c, d) ∈ shortSymbols) (he : κ ∈ e)
    (hg : IsLayout g) (hz : z.head? ≠ some d) : Next.of e (g ++ c :: z) = .token ⟨κ, g, [c]⟩ z := by
  have hall : ∀ p ∈ shortSymbols, (.terminal p.1 ∈ order ∧ p.1 ≠ .ident ∧ p.1 ∉ Terminal.keywords ∧
      p.1 ∈ Terminal.keywords ++ Terminal.symbols ∧ p.2.1 ∈ Terminal.keywords ++ Terminal.symbols) ∧
        p.1.spelling = [p.2.2.1] ∧ p.2.1.spelling = [p.2.2.1, p.2.2.2] ∧
          ∀ m ∈ before (.terminal p.1), m = .terminal p.2.1 ∨ m.starts p.2.2.1 = false := by
    decide
  obtain ⟨⟨horder, hident, hkw, hκ, hlong⟩, hspell, hspell', hbefore⟩ := hall _ h
  have hfirst : Lexeme.first e (c :: z) = some (.terminal κ, 1) := by
    refine first_eq_some_iff.mpr ⟨horder, by simp [tried, he, hkw], ?_, fun m hm _ => ?_⟩
    · rw [recognise, recognise_eq_exactly hκ, hspell, exactly, if_pos (by simp)]
      rfl
    · rcases hbefore m hm with rfl | hs
      · rw [recognise, recognise_eq_exactly hlong, hspell', exactly, if_neg]
        intro hp
        obtain ⟨r, hr⟩ := List.isPrefixOf_iff_prefix.mp hp
        obtain rfl : d :: r = z := by simpa using hr
        simp at hz
      · exact recognise_eq_none_of_starts hs
  refine (gap_of_isLayout hg).of_token (w := [c]) ?_
  rw [List.singleton_append, Next.of_token hfirst, Terminal.settle, if_neg hident]
  rfl

/-- A colon is found where no second one follows. -/
theorem of_colon (he : .colon ∈ e) (hg : IsLayout g) (hz : z.head? ≠ some ':') :
    Next.of e (g ++ ':' :: z) = .token ⟨.colon, g, [':']⟩ z :=
  of_short (by decide : (Terminal.colon, Terminal.pathSep, ':', ':') ∈ shortSymbols) he hg hz

/-- A minus sign is found where no `>` follows. -/
theorem of_minus (he : .minus ∈ e) (hg : IsLayout g) (hz : z.head? ≠ some '>') :
    Next.of e (g ++ '-' :: z) = .token ⟨.minus, g, ['-']⟩ z :=
  of_short (by decide : (Terminal.minus, Terminal.arrow, '-', '>') ∈ shortSymbols) he hg hz

end ShadowImpl
