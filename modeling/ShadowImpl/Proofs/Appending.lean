import ShadowImpl.Proofs.Phrases
import ShadowImpl.Proofs.Trailers

/-!
# More lines behind a text

More lines may be put behind a text. Up to the last token of the text the same tokens are found, as
long as the lines close nothing that the text leaves open. Behind that token they come to light.
-/

namespace ShadowImpl

open Lexeme Recogniser

variable {e : Expectation} {g u v w x z : List Char} {s s' s₁ : Scan} {t : Token} {r : List Char}

/-! ## What the lines close -/

/-- On the way to `s₁` nothing is left open that `w` closes. `C` is what is known on the way. -/
structure Bears (s₁ : Scan) (w : List Char) (C : Scan → Prop) : Prop where
  step : ∀ {s t r e}, C s → s.next = .token t r → Grammar.Follows s.expected t.kind e →
    Scan.Reaches ⟨t :: s.taken, r, e⟩ s₁ → C ⟨t :: s.taken, r, e⟩
  shut : ∀ {s t r e}, C s → s.next = .token t r → Scan.Reaches ⟨t :: s.taken, r, e⟩ s₁ →
    ∀ m : Mark, (m = .comment ∨ .rawString ∈ s.expected) → m.Awaited (t.text ++ r) → ¬ m.text <:+: w

/-- All tokens in front of `s₁` are looked at for what they leave open. -/
theorem bears_of_harmless (h : Harmless s₁.taken.reverse s₁.rest w) : Bears s₁ w fun _ => True where
  step _ _ _ _ := trivial
  shut := by
    intro s t r e _ _ hreach m _ hawaited
    obtain ⟨vs, htaken, hrest⟩ := hreach.takes
    obtain rfl : r = Token.spelled vs ++ s₁.rest := hrest
    exact h s.taken.reverse t vs (by simp [htaken]) m hawaited

/-- A text that was found in front of `u` leaves nothing open that is closed in `u`. -/
theorem bears_of_enclosed (hend : s₁.next.kind = .eof)
    (hw : ∀ m : Mark, m.text <:+: w → m.text <:+: u) : Bears s₁ w fun s => ∃ s',
    Trailed u s s' where
  step := by
    rintro s t r e ⟨s', h⟩ hnext hT hreach
    -- the scan of the enclosed text takes the same token
    obtain ⟨t', r', -, -, h'⟩ := (trailed_lockstep u hend).take h hnext hT hreach
    exact ⟨_, h'⟩
  shut := by
    rintro s t r e ⟨s', h⟩ hnext - m he hawaited hclosed
    exact h.before.not_infix_trailer hnext he hawaited (infix_trailer.mpr (hw m hclosed))

/-- The start of a text between brackets, as `bears_of_enclosed` asks for it. -/
theorem Enclosed.exists_trailed (h : Enclosed v u) (e : Expectation) :
    ∃ s', Trailed u (.start e v) s' :=
  ⟨.start e (v ++ trailer u), rfl, rfl, rfl, .inl h.tiled, .inl h.tiled_trailer⟩

/-! ## The same tokens -/

/-- A scan of a text, and one that has taken the same tokens of the text with `w` behind it. -/
structure Prolonged (w : List Char) (C : Scan → Prop) (s s' : Scan) : Prop where
  taken : s'.taken = s.taken
  expected : s'.expected = s.expected
  rest : s'.rest = s.rest ++ w
  known : C s

/-- The scan stands in front of a token on the way to `s₁`. -/
def Scan.Before (s₁ s : Scan) : Prop :=
  ∃ t r e, s.next = .token t r ∧ Scan.Reaches ⟨t :: s.taken, r, e⟩ s₁

theorem Prolonged.next_token {C : Scan → Prop} (h : Prolonged w C s s') (hC : Bears s₁ w C)
    (hend : s₁.next.kind = .eof) (hw : w.head? = some '\n') (hnext : s.next = .token t r)
    (hreach : Scan.Reaches ⟨t :: s.taken, r, e⟩ s₁) : s'.next = .token t (r ++ w) := by
  rw [Scan.next, h.expected, h.rest]
  refine Next.of_append hnext (hreach.lexes_of_eof hend) ?_ (fun _ _ => .inr hw)
    (hC.shut h.known hnext hreach)
  intro c hc
  obtain rfl : '\n' = c := by simpa [hw] using hc
  exact ⟨rfl, by simp, by simp⟩

theorem prolonged_lockstep {C : Scan → Prop} (hC : Bears s₁ w C) (hend : s₁.next.kind = .eof)
    (hw : w.head? = some '\n') :
    Reading.Lockstep Grammar.Follows (Offset 0 0) (Prolonged w C) (Scan.Before s₁) where
  back := by
    rintro s t r e hnext ⟨t', r', e', hnext', hreach⟩
    exact ⟨t, r, e, hnext, .step hnext' hreach⟩
  kind := by
    rintro s s' h ⟨t, r, e, hnext, hreach⟩
    rw [Reading.kind_of_token hnext, Reading.kind_of_token (h.next_token hC hend hw hnext hreach)]
  take := by
    rintro s s' t r e h hnext hT ⟨t', r', e', hnext', hreach⟩
    have hreach' : Scan.Reaches ⟨t :: s.taken, r, e⟩ s₁ := .step hnext' hreach
    exact ⟨t, r ++ w, h.next_token hC hend hw hnext hreach', rfl, by rw [h.taken], rfl, rfl,
      hC.step h.known hnext hT hreach'⟩
  count h := by
    rw [h.taken]
    exact ⟨_, (Nat.zero_add _).symm, (Nat.zero_add _).symm⟩
  text h hij := by
    rw [Scan.textFrom, Scan.textFrom, h.taken, hij.eq]

/-! ## Behind the last token -/

/-- What is passed over at the end of a text is passed over in front of another line. -/
theorem Next.of_ended_append (h : Next.of e x = .ended g) (z : List Char) :
    Next.of e (x ++ '\n' :: z) = (Next.of e ('\n' :: z)).prepend x := by
  have hf := Next.found e x
  rw [h] at hf
  generalize hn : Next.ended g = n at hf
  induction hf generalizing g with
  | ended => exact (Next.prepend_nil _).symm
  | unknown | token => simp at hn
  | @skip x l k n hl hskip rest ih =>
    obtain ⟨g', rfl⟩ : ∃ g', n = .ended g' := by
      cases n <;> simp_all [Next.prepend]
    have hk := (first_bounds hl).2
    -- A comment in `x` ends where it did. White space has no end of its own: the line
    -- goes on with it.
    by_cases hx : ∃ a ∈ x, isLayout a = false
    · have hclear : Clear e x ('\n' :: z) := by
        refine clear_of_parts hl (Next.lexes_of_ended rest.eq_of) ?_ hx (fun _ => .inr (.inr rfl))
          fun m _ hm => absurd hm (Next.not_awaited_of_skipped hl hskip)
        rintro c hc
        obtain rfl : '\n' = c := by simpa using hc
        exact ⟨rfl, by simp, by simp⟩
      rw [of_skip (first_append_of_clear hclear hl) hskip, List.take_append_of_le_length hk,
        List.drop_append_of_le_length hk, ih rest.eq_of rfl, Next.prepend_prepend,
        List.take_append_drop]
    · exact Next.of_layout_append (by simpa using hx) _

/-- A comma on the next line. -/
theorem Next.of_comma (h : Next.of Expected.anything x = .ended g) (z : List Char) :
    Next.of Expected.anything (x ++ '\n' :: ',' :: z) = .token ⟨.comma, x ++ ['\n'], [',']⟩ z := by
  have hcomma : Next.of Expected.anything ([','] ++ z) = .token ⟨.comma, [], [',']⟩ z :=
    of_spelling (κ := .comma) rfl rfl (by decide) (by decide) (by decide) z
  have hline : Next.of Expected.anything ('\n' :: ',' :: z) = .token ⟨.comma, ['\n'], [',']⟩ z :=
    (Gap.layout (g := []) (by decide) .nil).of_token hcomma
  rw [Next.of_ended_append h, hline, Next.prepend]

/-- No mark runs over the start of the line. -/
theorem Mark.infix_of_comma {m : Mark} (h : m.text <:+: '\n' :: ',' :: z) : m.text <:+: z := by
  have behind : ∀ {c : Char} {y : List Char}, c = '\n' ∨ c = ',' → m.text <:+: c :: y →
      m.text <:+: y := by
    rintro c y hc hi
    rcases List.infix_cons_iff.mp hi with hp | hi
    · rcases hc with rfl | rfl <;> cases m <;> simp [Mark.text] at hp
    · exact hi
  exact behind (.inr rfl) (behind (.inl rfl) h)

end ShadowImpl
