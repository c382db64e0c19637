import ShadowImpl.Proofs.Alignment
import ShadowImpl.Proofs.Expectations
import ShadowImpl.Proofs.Spans

/-!
# Where keywords are whole words

Where a name may stand, a keyword is found as a name and ends where the name ends. Where no name may
stand it is found by its letters, and letters may follow it. The places without names are few, and
they are known by the token in front.
-/

namespace ShadowImpl

open Lexeme Recogniser

namespace Expected

/-- The keywords that are found by their letters alone after a token of each class. -/
def lettersAfter : Terminal → List Terminal
  | .kwPub => [.kwAsync, .kwConst, .kwExtern, .kwFn, .kwType, .kwUnsafe]
  | .kwUnsafe => [.kwImpl, .kwAsync, .kwConst, .kwExtern, .kwFn, .kwUnsafe]
  | .kwAsync | .kwConst | .kwExtern | .string => [.kwAsync, .kwConst, .kwExtern, .kwFn, .kwUnsafe]
  | .star => [.kwConst, .kwMut]
  | .ident | .lifetime | .bang | .gt | .rpar | .rsqb => [.kwAs, .kwFor, .kwWhere]
  | _ => []

/-- The keywords that are found by their letters alone after a token, or at the start of a text. -/
def letters (start : List Terminal) (before : Option Terminal) : List Terminal :=
  before.elim start lettersAfter

theorem mem_lettersAfter : ∀ {t : Terminal}, ∀ e ∈ after t, .ident ∉ e →
    ∀ k ∈ e, k ∈ Terminal.keywords → k ∈ lettersAfter t := by
  have table : ∀ t ∈ Terminal.all ++ [.eof, .unknown], ∀ e ∈ after t, .ident ∉ e →
      ∀ k ∈ e, k ∈ Terminal.keywords → k ∈ lettersAfter t := by
    decide
  exact fun {t} => table t (by cases t <;> decide)

end Expected

/-! ## Keywords among names -/

/-- A keyword that is found where a name may stand is a whole word. -/
theorem Next.whole_of_ident {e : Expectation} {s rest : List Char} {t : Token}
    (h : Next.of e s = .token t rest) (he : .ident ∈ e) (ht : t.kind ∈ Terminal.keywords) :
    ∀ c ∈ rest.head?, isWordChar c = false := by
  obtain ⟨-, u, hkind, hfirst⟩ := of_eq_token h
  obtain ⟨htried, hrec⟩ := Lexeme.first_eq_some hfirst
  -- Keywords are not tried here, so the token was found as a name.
  obtain rfl : u = .ident := by
    by_contra hu
    rw [Terminal.settle, if_neg hu] at hkind
    simp [tried, he, ← hkind, ht] at htried
  have hspelled : t.kind.spelling = t.text := by
    rw [Terminal.settle, if_pos rfl] at hkind
    rcases ofName_cases e t.text with hname | ⟨-, hname⟩
    · rw [hkind, hname] at ht
      exact absurd ht (by decide)
    · rw [hkind, hname]
  -- No keyword starts like a raw name.
  have hplain : ident (t.text ++ rest) = word (t.text ++ rest) := by
    refine ident_plain fun r hr => ?_
    have hhead := keyword_word t.kind ht
    obtain ⟨c, w, hw⟩ := List.exists_cons_of_ne_nil (Next.text_ne_nil_of_token h)
    rw [hspelled, hw] at hhead
    rw [hw] at hr
    obtain rfl := (List.cons.inj hr).1
    simp at hhead
  have hword : word (t.text ++ rest) = some t.text.length := hplain.symm.trans hrec
  simpa using (word_spec hword).2

/-! ## Keywords of a text -/

/-- The character of the text that follows the given tokens. -/
def Token.follower (text : List Char) (ts : List Token) : Option Char :=
  (text.drop (spelled ts).length).head?

/-- Every keyword among the tokens of the text is a whole word, unless it is one of those that the
token in front of it frees from being one. -/
def KeywordsWhole (free : Option Terminal → List Terminal) (text : List Char) (ts : List Token) :
    Prop :=
  ∀ us t vs, ts = us ++ t :: vs → t.kind ∈ Terminal.keywords →
    (∃ c ∈ Token.follower text (us ++ [t]), isWordChar c = true) →
    t.kind ∈ free (us.getLast?.map Token.kind)

theorem KeywordsWhole.concat {free : Option Terminal → List Terminal} {text : List Char}
    {ts : List Token} {t : Token} (h : KeywordsWhole free text ts)
    (ht : t.kind ∈ Terminal.keywords →
      (∃ c ∈ Token.follower text (ts ++ [t]), isWordChar c = true) →
      t.kind ∈ free (ts.getLast?.map Token.kind)) :
    KeywordsWhole free text (ts ++ [t]) := by
  intro us u vs heq
  rcases List.eq_nil_or_concat' vs with rfl | ⟨vs, v, rfl⟩
  · obtain ⟨rfl, hu⟩ := List.append_inj' heq rfl
    obtain rfl := (List.cons.inj hu).1
    exact ht
  · have heq' : ts ++ [t] = us ++ u :: vs ++ [v] := by simpa using heq
    exact h us u vs (List.append_inj' heq' rfl).1

/-- What the tokens that a scan has taken tell about the keywords among them, and about what is
expected next. The keywords `first` are those that the start of the text frees. -/
structure Scan.Whole (start : Expectation) (first : List Terminal) (text : List Char) (s : Scan) :
    Prop where
  covers : text = Token.spelled s.taken.reverse ++ s.rest
  expected : s.taken.head?.elim (s.expected = start) fun t => Grammar.Allows t.kind s.expected
  whole : KeywordsWhole (Expected.letters first) text s.taken.reverse

/-- The keywords that may stand at the start, if no name may stand there, are among `first`. -/
def Expected.Frees (start : Expectation) (first : List Terminal) : Prop :=
  .ident ∉ start → ∀ k ∈ start, k ∈ Terminal.keywords → k ∈ first

instance (start : Expectation) (first : List Terminal) : Decidable (Expected.Frees start first) :=
  inferInstanceAs (Decidable (_ → _))

namespace Scan.Whole

variable {start e : Expectation} {first : List Terminal} {text rest : List Char} {s : Scan}
  {t : Token}

theorem of_start (start : Expectation) (first : List Terminal) (text : List Char) :
    (Scan.start start text).Whole start first text where
  covers := rfl
  expected := rfl
  whole us t vs heq := by simp [Scan.start] at heq

/-- Where no name may stand, the keywords that are expected are known by the token in front. -/
theorem mem_letters (h : s.Whole start first text) (hfirst : Expected.Frees start first)
    (he : .ident ∉ s.expected) {k : Terminal} (hk : k ∈ s.expected) (hkey : k ∈ Terminal.keywords) :
    k ∈ Expected.letters first (s.taken.reverse.getLast?.map Token.kind) := by
  rw [List.getLast?_reverse]
  have hexpected := h.expected
  cases hlast : s.taken.head? with
  | none =>
    rw [hlast] at hexpected
    rw [show s.expected = start from hexpected] at hk he
    exact hfirst he k hk hkey
  | some u =>
    rw [hlast] at hexpected
    rcases hexpected with hany | hafter
    · rw [hany] at he
      exact absurd (by decide) he
    · exact Expected.mem_lettersAfter _ hafter he k hk hkey

theorem step (h : s.Whole start first text) (hfirst : Expected.Frees start first)
    (hnext : s.next = .token t rest) (he : Grammar.Allows t.kind e) :
    (⟨t :: s.taken, rest, e⟩ : Scan).Whole start first text := by
  have hrest : s.rest = t.gap ++ t.text ++ rest := (Next.of_eq_token hnext).1
  have htext : text = Token.spelled (s.taken.reverse ++ [t]) ++ rest := by
    rw [h.covers, hrest]
    simp
  refine ⟨by simpa using htext, he, ?_⟩
  rw [List.reverse_cons]
  refine h.whole.concat fun hkey hfollow => ?_
  rw [Token.follower, htext, List.drop_left] at hfollow
  obtain ⟨c, hc, hword⟩ := hfollow
  by_cases hident : .ident ∈ s.expected
  · rw [Next.whole_of_ident hnext hident hkey c hc] at hword
    cases hword
  · exact h.mem_letters hfirst hident (Next.mem_of_not_ident hnext hident) hkey

end Scan.Whole

/-- A reading that expects what the grammar allows takes only whole words as keywords where
names may stand. -/
theorem Reading.keywordsWhole {α : Type} {reading : Nat → Reading α} {start : Expectation}
    {first : List Terminal} (h : ∀ n, (reading n).Obeys none) (hfirst : Expected.Frees start first)
    {text : List Char} {p : Parsed α} (hp : Reading.parse reading start text = .ok p) :
    KeywordsWhole (Expected.letters first) text p.tokens := by
  obtain ⟨s', hrun, htokens, -⟩ := exists_run hp
  rw [htokens]
  have hwhole : s'.Whole start first text :=
    (h _).keeps (P := Scan.Whole start first text) (fun hs ht he => hs.step hfirst ht he) (by simp)
      (.of_start start first text) hrun
  exact hwhole.whole

/-- Of the keywords that a block or an item is read from, only those can be the front of a
longer word that stand where no name may stand: at the start of a block and behind a few
classes of tokens. -/
theorem Source.keywords_whole (s : Source) :
    (∀ b, s.implBlock = .ok b → ∃ b₀ ts, s.ReadBlock b₀ ts ∧
      KeywordsWhole (Expected.letters [.kwImpl, .kwUnsafe]) s.chars ts) ∧
    ∀ i, s.item = .ok i → ∃ i₀ ts, s.ReadItem i₀ ts ∧
      KeywordsWhole (Expected.letters []) s.chars ts := by
  constructor
  · intro b hb
    obtain ⟨b₀, ts, hp, -⟩ := exists_parsed hb
    exact ⟨b₀, ts, hp, Reading.keywordsWhole Grammar.implBlock_obeys (by decide) hp⟩
  · intro i hi
    obtain ⟨i₀, ts, hp, -⟩ := exists_parsed hi
    refine ⟨i₀, ts, hp, Reading.keywordsWhole (fun n => ?_) (by decide) hp⟩
    exact (Grammar.attributes_obey n).bind fun attrs => Grammar.item_obeys attrs n

/-- A block and an item in which such keywords stand. -/
theorem Source.keywords_whole_fused :
    (∃ b₀ ts, Source.ReadBlock
      ⟨"a.rs", "unsafe impl<T> A forB whereT: C \x7b pub fnf(); \x7d", none⟩
        b₀ ts ∧
      KeywordsWhole (Expected.letters [.kwImpl, .kwUnsafe])
        "unsafe impl<T> A forB whereT: C \x7b pub fnf(); \x7d".toList ts) ∧
    ∃ i₀ ts, Source.ReadItem ⟨"a.rs", "pub constfn f();", none⟩ i₀ ts ∧
      KeywordsWhole (Expected.letters []) "pub constfn f();".toList ts := by
  constructor
  · obtain ⟨b, hb⟩ := exists_of_isOk (x := Source.implBlock
      ⟨"a.rs", "unsafe impl<T> A forB whereT: C \x7b pub fnf(); \x7d", none⟩) (by decide +kernel)
    exact (Source.keywords_whole _).1 b hb
  · obtain ⟨i, hi⟩ := exists_of_isOk (x := Source.item ⟨"a.rs", "pub constfn f();", none⟩)
      (by decide +kernel)
    exact (Source.keywords_whole _).2 i hi

/-- A block that starts with a longer word than its keyword: not every keyword is a whole word. -/
theorem Source.keyword_fused :
    ∃ b₀ ts, Source.ReadBlock ⟨"<input>", "implFoo \x7b\x7d", none⟩ b₀ ts ∧
      ¬ KeywordsWhole (fun _ => []) "implFoo \x7b\x7d".toList ts := by
  let ts : List Token := [⟨.kwImpl, [], "impl".toList⟩, ⟨.ident, [], "Foo".toList⟩,
    ⟨.lbrace, [' '], ['\x7b']⟩, ⟨.rbrace, [], ['\x7d']⟩]
  have htokens : (Reading.parse Grammar.implBlock Expected.block
    "implFoo \x7b\x7d".toList).toOption.map
      Parsed.tokens = some ts := by
    decide +kernel
  obtain ⟨p, hp, hts⟩ := exists_of_map htokens
  refine ⟨p.value, ts, hts ▸ hp, fun h => ?_⟩
  simpa using h [] _ _ rfl (by decide) ⟨'F', by decide, by decide⟩

end ShadowImpl
