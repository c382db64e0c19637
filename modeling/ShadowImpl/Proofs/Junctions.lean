import ShadowImpl.Proofs.Chunks

/-!
# Up to a point between two tokens

What is read up to a point between two tokens does not depend on the text behind that point, as long
as this starts with a space and closes nothing that is left open in front. So a reading that stops
before the point yields the same value in front of another text.
-/

namespace ShadowImpl

open Lexeme Recogniser

variable {α : Type} {s s' s₁ s₂ : Scan} {t o : Token} {ts us : List Token} {g v v' : List Char}
  {e : Expectation}

/-- From one scan to a later one by taking the tokens `ts` one after the other. -/
inductive Scan.Way : Scan → List Token → Scan → Prop where
  | nil (s : Scan) : Way s [] s
  | cons {s s' : Scan} {t : Token} {ts : List Token} {r : List Char} {e : Expectation}
      (h : s.next = .token t r) (hs : Way ⟨t :: s.taken, r, e⟩ ts s') : Way s (t :: ts) s'

namespace Scan.Way

theorem takes (h : s.Way ts s') : s.Takes ts s' := by
  induction h with
  | nil s => exact .refl s
  | cons h _ ih => exact (Takes.token h _).trans ih

theorem append (h : s.Way ts s₁) (h' : s₁.Way us s') : s.Way (ts ++ us) s' := by
  induction h with
  | nil => exact h'
  | cons h _ ih => exact .cons h (ih h')

theorem of_scanned {x y : List Char} (h : Scanned x ts y) (taken : List Token) :
    (⟨taken, x, Expected.anything⟩ : Scan).Way ts ⟨ts.reverse ++ taken, y, Expected.anything⟩ := by
  induction h generalizing taken with
  | nil x => exact .nil _
  | @cons x y z t ts h _ ih =>
    have := ih (t :: taken)
    rw [List.reverse_cons, List.append_assoc]
    exact .cons h this

theorem text_ne_nil (h : s.Way ts s') : ∀ t ∈ ts, t.text ≠ [] := by
  induction h with
  | nil => simp
  | cons h _ ih => exact List.forall_mem_cons.mpr ⟨Next.text_ne_nil_of_token h, ih⟩

end Scan.Way

/-- The text `v'` may stand in place of `v` behind the tokens `ts` and the gap `g`. -/
structure MayFollow (ts : List Token) (g v v' : List Char) : Prop where
  space : v'.head? = some ' '
  line : g = [] → EndsLines ts
  closes : ∀ us t vs, ts = us ++ t :: vs →
    ∀ m : Mark, m.Awaited (t.text ++ (Token.spelled vs ++ g)) → m.text <:+: v' → m.text <:+: v

theorem EndsLines.of_append (h : EndsLines (us ++ ts)) : EndsLines ts := by
  intro t ht
  refine h t ?_
  rw [List.getLast?_append, Option.mem_def.mp ht]
  simp

theorem MayFollow.of_append (h : MayFollow (us ++ ts) g v v') : MayFollow ts g v v' where
  space := h.space
  line hg := (h.line hg).of_append
  closes vs t ws heq := h.closes (us ++ vs) t ws (by rw [heq, List.append_assoc])

theorem MayFollow.of_cons (h : MayFollow (t :: ts) g v v') : MayFollow ts g v v' :=
  (show MayFollow ([t] ++ ts) g v v' from h).of_append

/-- A scan in front of another text behind the tokens `ts`. -/
def Scan.before (s : Scan) (ts : List Token) (z : List Char) : Scan :=
  ⟨s.taken, Token.spelled ts ++ z, s.expected⟩

/-- The next token is the same. -/
theorem Scan.Way.next_before (h : s.Way (t :: ts) s₁) (hrest : s₁.rest = g ++ v) (hg : Gap e g)
    (hv : MayFollow (t :: ts) g v v') :
    (s.before (t :: ts) (g ++ v')).next = .token t (Token.spelled ts ++ (g ++ v')) := by
  cases h with
  | @cons _ _ _ _ r e' hnext hs =>
    have hr : r = Token.spelled ts ++ g ++ v := by
      rw [List.append_assoc, ← hrest]
      exact hs.takes.2
    have hs_rest : s.rest = t.gap ++ t.text ++ (Token.spelled ts ++ g) ++ v := by
      rw [(Next.of_eq_token hnext).1, hr]
      simp only [List.append_assoc]
    have hcut : Next.of s.expected (t.gap ++ t.text ++ (Token.spelled ts ++ g)) =
        .token t (Token.spelled ts ++ g) :=
      Next.of_cut (u := v) (by rw [← hs_rest, ← hr]; exact hnext)
    have hlexes : Lexes (Token.spelled ts ++ g) := by
      cases hs with
      | nil => simpa using hg.lexes
      | @cons _ _ t₂ ts₂ r₂ e₂ hnext₂ hs₂ =>
        have hr₂ : r₂ = Token.spelled ts₂ ++ g ++ v := by
          rw [List.append_assoc, ← hrest]
          exact hs₂.takes.2
        refine Next.lexes_of_token (e := e') (y := Token.spelled ts₂ ++ g) (t := t₂)
          (Next.of_cut (u := v) ?_)
        rw [← hr, ← hr₂]
        exact hnext₂
    have hagain := Next.of_append hcut hlexes (u := v') ?_ ?_ ?_
    · rw [Scan.next, Scan.before]
      simpa only [Token.spelled_cons, List.append_assoc] using hagain
    · -- a space parts whatever stands in front
      intro c hc
      obtain rfl : ' ' = c := by simpa [hv.space] using hc
      exact ⟨by decide, by simp, by simp⟩
    · intro hnil hslashes
      obtain ⟨hts, rfl⟩ := List.append_eq_nil_iff.mp hnil
      obtain rfl : ts = [] := by
        cases ts with
        | nil => rfl
        | cons t₂ ts₂ => simp [hs.text_ne_nil t₂ (by simp)] at hts
      exact absurd hslashes (hv.line rfl t (by simp))
    · intro m hm hawaited hclosed
      obtain ⟨-, u, -, hu⟩ := Next.of_eq_token hnext
      rw [hr, ← List.append_assoc] at hu
      exact not_infix_of_awaited hu (by simp) hm hawaited (hv.closes [] t ts rfl m hawaited hclosed)

/-- What is read in front of a token, which stands in front of the point, is read again. -/
theorem Reading.run_before (hrest : s₁.rest = g ++ v) (hg : Gap e g) {r : Reading α} {a : α}
    (h : r.run s = .ok (a, s₂)) (hway : s₂.Way (o :: us) s₁) :
    ∃ ts, s.Way ts s₂ ∧ (MayFollow (ts ++ o :: us) g v v' →
      r.run (s.before (ts ++ o :: us) (g ++ v')) = .ok (a, s₂.before (o :: us) (g ++ v'))) := by
  -- By induction on the reading, as a tree of steps. Only to look and to take depend on the text
  -- ahead.
  induction r generalizing s with
  | done b =>
    obtain ⟨rfl, rfl⟩ : b = a ∧ s = s₂ := by simpa [run] using h
    exact ⟨[], .nil s, fun _ => rfl⟩
  | refuse => simp [run] at h
  | look k ih =>
    obtain ⟨ts, hts, hagain⟩ := ih _ h
    refine ⟨ts, hts, fun hv => ?_⟩
    have hkind : (s.before (ts ++ o :: us) (g ++ v')).next.kind = s.next.kind := by
      obtain ⟨u, vs, huv⟩ : ∃ u vs, ts ++ o :: us = u :: vs := by cases ts <;> simp
      have hall := hts.append hway
      rw [huv] at hall hv ⊢
      rw [kind_of_token (hall.next_before hrest hg hv)]
      cases hall with
      | cons hnext _ => rw [kind_of_token hnext]
    rw [run, hkind]
    exact hagain hv
  | take e' k ih =>
    simp only [run] at h
    split at h
    · rename_i t rest hnext
      obtain ⟨ts, hts, hagain⟩ := ih _ h
      refine ⟨t :: ts, .cons hnext hts, fun hv => ?_⟩
      have hnext' : (s.before (t :: (ts ++ o :: us)) (g ++ v')).next =
          .token t (Token.spelled (ts ++ o :: us) ++ (g ++ v')) :=
        ((Scan.Way.cons hnext hts).append hway).next_before hrest hg hv
      rw [List.cons_append, run, hnext']
      exact hagain hv.of_cons
    · simp at h
  | count k ih => exact ih _ h
  | text i k ih => exact ih _ h

/-- Tokens that are found in front of the point where anything is expected are found again. -/
theorem Scanned.before {x : List Char} (h : Scanned x ts (g ++ v)) (hg : Gap e g)
    (hv : MayFollow ts g v v') : Scanned (Token.spelled ts ++ (g ++ v')) ts (g ++ v') := by
  generalize hy : g ++ v = y at h
  induction h with
  | nil => exact .nil _
  | @cons x y z t ts ht hts ih =>
    have hway := Scan.Way.of_scanned (.cons ht hts) []
    refine .cons ?_ (ih hv.of_cons hy)
    exact hway.next_before hy.symm hg hv

end ShadowImpl
