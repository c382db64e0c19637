import ShadowImpl.Proofs.Lockstep

/-!
# Scans that keep pace

Two scans that start behind different tokens and take the same tokens from then on. They keep pace
when what stands next is the same in both, and taking it leads to texts for which this holds again.
Only the gap in front of the first token may differ.
-/

namespace ShadowImpl

/-- The same number of tokens, counted behind `b` tokens and behind `b'`. -/
def Offset (b b' i j : Nat) : Prop :=
  ∃ d, i = b + d ∧ j = b' + d

theorem Offset.eq {b i j : Nat} (h : Offset b b i j) : i = j := by
  obtain ⟨d, rfl, rfl⟩ := h
  rfl

/-- Tokens, the latest one first, that are the same except for the gap of the oldest. -/
structure Token.SameRun (ts ts' : List Token) : Prop where
  later : ts.dropLast = ts'.dropLast
  texts : ts.map Token.text = ts'.map Token.text

namespace Token.SameRun

variable {ts ts' : List Token}

theorem nil : SameRun [] [] := ⟨rfl, rfl⟩

theorem length_eq (h : SameRun ts ts') : ts.length = ts'.length := by
  simpa using congrArg List.length h.texts

theorem single {t t' : Token} (h : t.text = t'.text) : SameRun [t] [t'] :=
  ⟨rfl, by simp [h]⟩

theorem cons (h : SameRun ts ts') (hts : ts ≠ []) (t : Token) : SameRun (t :: ts) (t :: ts') := by
  have hts' : ts' ≠ [] := by
    rw [← List.length_pos_iff, ← h.length_eq, List.length_pos_iff]
    exact hts
  refine ⟨?_, by simp [h.texts]⟩
  rw [List.dropLast_cons_of_ne_nil hts, List.dropLast_cons_of_ne_nil hts', h.later]

/-- Either there is no token, or the two runs split off their oldest ones. -/
theorem cases (h : SameRun ts ts') :
    (ts = [] ∧ ts' = []) ∨ ∃ us t t', ts = us ++ [t] ∧ ts' = us ++ [t'] ∧ t.text = t'.text := by
  rcases List.eq_nil_or_concat ts with rfl | ⟨us, t, rfl⟩
  · left
    refine ⟨rfl, List.length_eq_zero_iff.mp ?_⟩
    simpa using h.length_eq.symm
  · right
    rcases List.eq_nil_or_concat ts' with rfl | ⟨us', t', rfl⟩
    · simpa using h.length_eq
    · have hus : us = us' := by simpa using h.later
      subst hus
      exact ⟨us, t, t', by simp, by simp, by simpa using h.texts⟩

end Token.SameRun

namespace Scan

/-- The scans have taken `ts` behind `base` and `ts'` behind `base'`. -/
structure Behind (base base' ts ts' : List Token) (s s' : Scan) : Prop where
  left : s.taken = ts ++ base
  right : s'.taken = ts' ++ base'
  same : Token.SameRun ts ts'

variable {base base' ts ts' : List Token} {s s' : Scan}

theorem Behind.offset (h : Behind base base' ts ts' s s') :
    Offset base.length base'.length s.taken.length s'.taken.length := by
  refine ⟨ts.length, ?_, ?_⟩
  · rw [h.left, List.length_append, Nat.add_comm]
  · rw [h.right, List.length_append, Nat.add_comm, h.same.length_eq]

/-- The text from a token on does not show the gap in front of it. -/
theorem Behind.textFrom_eq (h : Behind base base' ts ts' s s') {i j : Nat}
    (hij : Offset base.length base'.length i j) : s.textFrom i = s'.textFrom j := by
  obtain ⟨d, rfl, rfl⟩ := hij
  have htake : ∀ us b : List Token, (us ++ b).take ((us ++ b).length - (b.length + d)) =
      us.take (us.length - d) := by
    intro us b
    rw [List.length_append, show us.length + b.length - (b.length + d) = us.length - d by omega,
      List.take_append_of_le_length (by omega)]
  rw [textFrom, textFrom, h.left, h.right, htake, htake]
  rcases h.same.cases with ⟨rfl, rfl⟩ | ⟨us, t, t', rfl, rfl, ht⟩
  · rfl
  · cases d with
    | zero =>
      rw [Nat.sub_zero, Nat.sub_zero, List.take_length, List.take_length]
      simp [ht]
    | succ d =>
      have hlen : ∀ t : Token, (us ++ [t]).length - (d + 1) = us.length - d := by simp
      rw [hlen, hlen, List.take_append_of_le_length (by omega),
        List.take_append_of_le_length (by omega)]

end Scan

namespace Reading

/-- How two texts keep pace under the expectation `e`: `C` holds of what is left, `C₀` of the two
scans before the first token is taken. -/
structure Pace (T : Expectation → Terminal → Expectation → Prop)
    (C : Expectation → List Char → List Char → Prop) (C₀ : Scan → Scan → Prop) : Prop where
  kind : ∀ {e y y'}, C e y y' → (Next.of e y).kind = (Next.of e y').kind
  take : ∀ {e e' y y' t r}, C e y y' → Next.of e y = .token t r → T e t.kind e' →
    ∃ r', Next.of e y' = .token t r' ∧ C e' r r'
  startKind : ∀ {s s'}, C₀ s s' → s.next.kind = s'.next.kind
  startTake : ∀ {s s' e t r}, C₀ s s' → s.next = .token t r → T s.expected t.kind e →
    ∃ t' r', s'.next = .token t' r' ∧ t.text = t'.text ∧ C e r r'

/-- Two scans that have kept pace from `base` and `base'` on. -/
inductive Paced (C : Expectation → List Char → List Char → Prop) (C₀ : Scan → Scan → Prop)
    (base base' : List Token) (s s' : Scan) : Prop where
  | start (h : s.Behind base base' [] [] s') (h₀ : C₀ s s')
  | going {ts ts' : List Token} (h : s.Behind base base' ts ts' s') (hts : ts ≠ [])
      (he : s.expected = s'.expected) (hC : C s.expected s.rest s'.rest)

theorem Paced.behind {C : Expectation → List Char → List Char → Prop} {C₀ : Scan → Scan → Prop}
    {base base' : List Token} {s s' : Scan} (h : Paced C C₀ base base' s s') :
    ∃ ts ts', s.Behind base base' ts ts' s' := by
  cases h with
  | start h => exact ⟨_, _, h⟩
  | going h => exact ⟨_, _, h⟩

theorem Pace.lockstep {T : Expectation → Terminal → Expectation → Prop}
    {C : Expectation → List Char → List Char → Prop} {C₀ : Scan → Scan → Prop} (hC : Pace T C C₀)
    (base base' : List Token) :
    Lockstep T (Offset base.length base'.length) (Paced C C₀ base base') fun _ => True where
  back _ _ := trivial
  kind := by
    intro s s' h _
    cases h with
    | start _ h₀ => exact hC.startKind h₀
    | going _ _ he h =>
      have := hC.kind h
      rwa [Scan.next, Scan.next, ← he]
  take := by
    intro s s' t r e h hnext hT _
    -- The first tokens may differ in their gaps, and all others are the same.
    cases h with
    | start h h₀ =>
      obtain ⟨t', r', hnext', htext, hr⟩ := hC.startTake h₀ hnext hT
      have hb : Scan.Behind base base' [t] [t'] ⟨t :: s.taken, r, e⟩ ⟨t' :: s'.taken, r', e⟩ :=
        ⟨by simpa using h.left, by simpa using h.right, .single htext⟩
      exact ⟨t', r', hnext', htext.symm, .going hb (by simp) rfl hr⟩
    | @going ts ts' h hts he hc =>
      obtain ⟨r', hnext', hr⟩ := hC.take hc hnext hT
      rw [he] at hnext'
      have hb : Scan.Behind base base' (t :: ts) (t :: ts') ⟨t :: s.taken, r, e⟩
          ⟨t :: s'.taken, r', e⟩ :=
        ⟨by simpa using h.left, by simpa using h.right, h.same.cons hts t⟩
      exact ⟨t, r', hnext', rfl, .going hb (by simp) rfl hr⟩
  count h := by
    obtain ⟨ts, ts', h⟩ := h.behind
    exact h.offset
  text h hij := by
    obtain ⟨ts, ts', h⟩ := h.behind
    exact h.textFrom_eq hij

end Reading
end ShadowImpl
