import ShadowImpl.Proofs.Lockstep

/-!
# Runs of single steps

What a run tells about its first step: each reading of one token or of none, in front of others.
-/

namespace ShadowImpl

/-- A token of a keyword or of a symbol is written as it. -/
theorem Next.text_of_token {e : Expectation} {s : List Char} {t : Token} {rest : List Char}
    (h : Next.of e s = .token t rest) (ht : t.kind ∈ Terminal.keywords ++ Terminal.symbols) :
    t.text = t.kind.spelling := by
  obtain ⟨-, u, hkind, hu⟩ := of_eq_token h
  by_cases hi : u = .ident
  · subst hi
    rw [Terminal.settle, if_pos rfl, Terminal.ofName] at hkind
    cases hf : (Terminal.keywords.filter e.contains).find? (·.spelling = t.text) with
    | none =>
      rw [hf, Option.getD_none] at hkind
      rw [hkind] at ht
      exact absurd ht (by decide)
    | some v =>
      rw [hf, Option.getD_some] at hkind
      rw [hkind]
      exact (by simpa using List.find?_some hf : v.spelling = t.text).symm
  · rw [Terminal.settle, if_neg hi] at hkind
    subst hkind
    have hr : Recogniser.exactly t.kind.spelling (t.text ++ rest) = some t.text.length := by
      have hr := (Lexeme.first_eq_some hu).2
      have heq : t.kind.recognise = Recogniser.exactly t.kind.spelling := by
        cases hk : t.kind <;> first | rfl | exact absurd (hk ▸ ht) (by decide)
      rwa [Lexeme.recognise, heq] at hr
    obtain ⟨hp, hlen⟩ := Recogniser.exactly_eq_some hr
    have := List.prefix_of_prefix_length_le hp (List.prefix_append t.text rest) (by omega)
    exact (this.eq_of_length (by omega)).symm

namespace Reading

variable {α β : Type} {s s' : Scan} {e : Expectation} {b : β}

/-- It does not matter how readings are grouped. -/
theorem bind_assoc {γ : Type} (r : Reading α) (f : α → Reading β) (g : β → Reading γ) :
    r >>= f >>= g = r >>= fun a => f a >>= g := by
  change (r.bind f).bind g = r.bind fun a => (f a).bind g
  induction r with
  | done a => rfl
  | refuse => rfl
  | look k ih => exact congrArg look (funext ih)
  | take e k ih => exact congrArg (take e) (funext ih)
  | count k ih => exact congrArg count (funext ih)
  | text i k ih => exact congrArg (text i) (funext ih)

@[simp] theorem run_pure (a : α) (s : Scan) : (Pure.pure a : Reading α).run s = .ok (a, s) := rfl

@[simp] theorem run_refuse (s : Scan) : (refuse : Reading α).run s = .error s := rfl

@[simp] theorem run_peek_bind (f : Terminal → Reading β) (s : Scan) :
    (peek >>= f).run s = (f s.next.kind).run s := rfl

@[simp] theorem run_mark_bind (f : Nat → Reading β) (s : Scan) :
    (mark >>= f).run s = (f s.taken.length).run s := rfl

@[simp] theorem run_textFrom_bind (i : Nat) (f : String → Reading β) (s : Scan) :
    (textFrom i >>= f).run s = (f (String.ofList (s.textFrom i))).run s := rfl

/-- A shift takes the next token, whatever it is. -/
theorem run_shift_bind_eq_ok {f : String → Reading β} :
    (shift e >>= f).run s = .ok (b, s') ↔ ∃ t rest, s.next = .token t rest ∧
      (f (String.ofList t.text)).run ⟨t :: s.taken, rest, e⟩ = .ok (b, s') := by
  change (take e f).run s = _ ↔ _
  cases h : s.next with
  | token t rest => simp [run, h]
  | ended | unknown => simp [run, h]

/-- A token is taken if it is of the class that is asked for. -/
theorem run_token_bind_eq_ok {k : Terminal} {f : String → Reading β} :
    (token k e >>= f).run s = .ok (b, s') ↔ ∃ t rest, s.next = .token t rest ∧ t.kind = k ∧
      (f (String.ofList t.text)).run ⟨t :: s.taken, rest, e⟩ = .ok (b, s') := by
  rw [token_bind_eq]
  change ((if s.next.kind = k then take e f else refuse).run s = _) ↔ _
  cases h : s.next with
  | token t rest =>
    by_cases hk : t.kind = k
    · simp [Next.kind, hk, run, h]
    · simp [Next.kind, hk]
  | ended | unknown =>
    split <;> simp [run, h]

theorem run_token_eq_ok {k : Terminal} {w : String} :
    (token k e).run s = .ok (w, s') ↔ ∃ t rest, s.next = .token t rest ∧ t.kind = k ∧
      String.ofList t.text = w ∧ ⟨t :: s.taken, rest, e⟩ = s' := by
  have h : (token k e >>= pure).run s = .ok (w, s') ↔ (token k e).run s = .ok (w, s') := by
    rw [token_bind_eq, token]
    change ((if s.next.kind = k then take e pure else refuse).run s = _) ↔
      ((if s.next.kind = k then take e done else refuse).run s = _)
    rfl
  rw [← h, run_token_bind_eq_ok]
  simp

/-- A token that may be there is taken if it is of the class that is asked for. -/
theorem run_optional_bind_eq_ok {k : Terminal} {f : Bool → Reading β} :
    (optional k e >>= f).run s = .ok (b, s') ↔
      (∃ t rest, s.next = .token t rest ∧ t.kind = k ∧
        (f true).run ⟨t :: s.taken, rest, e⟩ = .ok (b, s')) ∨
      (s.next.kind ≠ k ∧ (f false).run s = .ok (b, s')) := by
  rw [optional_bind_eq]
  change ((if s.next.kind = k then take e fun _ => f true else f false).run s = _) ↔ _
  cases h : s.next with
  | token t rest =>
    by_cases hk : t.kind = k
    · simp [Next.kind, hk, run, h]
    · simp [Next.kind, hk]
  | ended | unknown =>
    by_cases hk : s.next.kind = k
    · rw [h] at hk
      simp [hk, run, h]
    · rw [h] at hk
      simp [hk]

/-- What holds of the empty list at `s'`, of a last element and of one more element in front holds
of every open list that is read up to `s'`. -/
theorem openList_induction {starts : Terminal → Bool} {element : Reading α}
    {P : Scan → List α → Prop} (nil : starts s'.next.kind = false → P s' [])
    (last : ∀ {s a}, element.run s = .ok (a, s') → s'.next.kind ≠ .comma → P s [a])
    (cons : ∀ {s s₁ t rest a as n}, element.run s = .ok (a, s₁) → s₁.next = .token t rest →
      t.kind = .comma → (openList starts e element n).run ⟨t :: s₁.taken, rest, e⟩ = .ok (as, s') →
      P ⟨t :: s₁.taken, rest, e⟩ as → P s (a :: as))
    {n : Nat} {as : List α} (h : (openList starts e element n).run s = .ok (as, s')) : P s as := by
  induction n generalizing s as with
  | zero => simp [openList] at h
  | succ n ih =>
    rw [openList, run_peek_bind] at h
    split at h
    · obtain ⟨a, s₁, ha, h⟩ := run_bind_eq_ok.mp h
      rcases run_optional_bind_eq_ok.mp h with ⟨t, rest, hnext, hcomma, h⟩ | ⟨hend, h⟩
      · obtain ⟨as', s₂, has, h⟩ := run_bind_eq_ok.mp h
        obtain ⟨rfl, rfl⟩ : a :: as' = as ∧ s₂ = s' := by simpa using h
        exact cons ha hnext hcomma has (ih has)
      · obtain ⟨rfl, rfl⟩ : [a] = as ∧ s₁ = s' := by simpa using h
        exact last ha hend
    · rename_i hstarts
      obtain ⟨rfl, rfl⟩ : [] = as ∧ s = s' := by simpa using h
      exact nil (by simpa using hstarts)

/-! ## What a reading can yield -/

/-- Every value that the reading yields satisfies `P`, whatever the text is. -/
def Yields (P : α → Prop) : Reading α → Prop
  | done a => P a
  | refuse => True
  | look k => ∀ t, (k t).Yields P
  | take _ k => ∀ w, (k w).Yields P
  | count k => ∀ n, (k n).Yields P
  | text _ k => ∀ w, (k w).Yields P

/-- What every value of a reading satisfies is satisfied by the value of a run. -/
theorem Yields.of_run {P : α → Prop} {r : Reading α} {a : α} (h : r.Yields P)
    (hr : r.run s = .ok (a, s')) : P a := by
  induction r generalizing s with
  | done b =>
    obtain ⟨rfl, -⟩ : b = a ∧ s = s' := by simpa [run] using hr
    exact h
  | refuse => simp [run] at hr
  | look k ih => exact ih _ (h _) hr
  | count k ih => exact ih _ (h _) hr
  | text i k ih => exact ih _ (h _) hr
  | take e k ih =>
    simp only [run] at hr
    split at hr
    · exact ih _ (h _) hr
    · simp at hr

/-- The value of two readings is that of the latter. -/
theorem Yields.bind {P : β → Prop} {r : Reading α} {f : α → Reading β}
    (h : ∀ a, (f a).Yields P) : (r >>= f).Yields P := by
  change (r.bind f).Yields P
  induction r with
  | done a => exact h a
  | refuse => trivial
  | look k ih => exact fun t => ih t
  | count k ih => exact fun n => ih n
  | text i k ih => exact fun w => ih w
  | take e k ih => exact fun w => ih w

end Reading
end ShadowImpl
