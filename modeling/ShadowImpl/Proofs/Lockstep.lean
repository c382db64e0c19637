import Mathlib.Tactic.Common
import ShadowImpl.Grammar.Reading
import ShadowImpl.Proofs.Recognition

/-!
# Readings in lockstep

Two readings are alike when they look at the same things and take the same tokens, as long as no
more than a given number of tokens is left. Alike readings that are followed through two scans that
agree step by step end in the same way. This is how a reading is compared with itself under another
bound on its depth, behind other tokens, or in front of another text.
-/

namespace ShadowImpl

/-! ## What a reading takes -/

/-- The text of tokens with their gaps. -/
def Token.spelled (ts : List Token) : List Char :=
  ts.flatMap fun t => t.gap ++ t.text

@[simp] theorem Token.spelled_nil : Token.spelled [] = [] := rfl

@[simp] theorem Token.spelled_cons (t : Token) (ts : List Token) :
    Token.spelled (t :: ts) = t.gap ++ t.text ++ Token.spelled ts := rfl

@[simp] theorem Token.spelled_append (ts us : List Token) :
    Token.spelled (ts ++ us) = Token.spelled ts ++ Token.spelled us := by
  simp [Token.spelled]

namespace Scan

/-- From one scan to a later one by taking the tokens `new`. -/
def Takes (new : List Token) (s s' : Scan) : Prop :=
  s'.taken = new.reverse ++ s.taken ∧ s.rest = Token.spelled new ++ s'.rest

theorem Takes.refl (s : Scan) : Takes [] s s := by simp [Takes]

/-- Tokens that are taken one after the other. -/
theorem Takes.trans {new new' : List Token} {s s' s'' : Scan} (h : Takes new s s')
    (h' : Takes new' s' s'') : Takes (new ++ new') s s'' := by
  simp only [Takes] at *
  simp [h'.1, h.1, h.2, h'.2]

theorem Takes.token {s : Scan} {t : Token} {rest : List Char} (h : s.next = .token t rest)
    (e : Expectation) : Takes [t] s ⟨t :: s.taken, rest, e⟩ := by
  have := (Next.of_eq_token h).1
  simpa [Takes] using this

/-- Taking tokens leaves no more text than there was. -/
theorem Takes.rest_le {new : List Token} {s s' : Scan} (h : Takes new s s') :
    s'.rest.length ≤ s.rest.length := by
  simp [h.2]

end Scan

namespace Reading

variable {α β γ δ : Type}

/-- A reading takes tokens, whether it yields a value or refuses in the end. -/
theorem takes_of_run (r : Reading α) (s : Scan) :
    ∃ new, (∀ a s', r.run s = .ok (a, s') → s.Takes new s') ∧
      ∀ s', r.run s = .error s' → s.Takes new s' := by
  induction r generalizing s with
  | done a => exact ⟨[], by simp +contextual [run, Scan.Takes.refl], by simp [run]⟩
  | refuse => exact ⟨[], by simp [run], by simp +contextual [run, Scan.Takes.refl]⟩
  | look k ih => exact ih _ s
  | count k ih => exact ih _ s
  | text i k ih => exact ih _ s
  | take e k ih =>
    simp only [run]
    cases h : s.next with
    | token t rest =>
      obtain ⟨new, hok, herr⟩ := ih (String.ofList t.text) ⟨t :: s.taken, rest, e⟩
      refine ⟨t :: new, fun a s' hr => ?_, fun s' hr => ?_⟩
      · exact (Scan.Takes.token h e).trans (hok a s' hr)
      · exact (Scan.Takes.token h e).trans (herr s' hr)
    | ended | unknown => exact ⟨[], by simp, by simp +contextual [Scan.Takes.refl]⟩

/-- Nor does a run that fails. -/
theorem rest_le_of_error {r : Reading α} {s s' : Scan} (h : r.run s = .error s') :
    s'.rest.length ≤ s.rest.length := by
  obtain ⟨new, -, herr⟩ := takes_of_run r s
  exact (herr s' h).rest_le

/-! ## Sequences -/

/-- Two readings one behind the other are run one after the other. -/
theorem run_bind (r : Reading α) (f : α → Reading β) (s : Scan) :
    (r >>= f).run s = match r.run s with
      | .ok (a, s') => (f a).run s'
      | .error s' => .error s' := by
  change (r.bind f).run s = _
  induction r generalizing s with
  | done a => rfl
  | refuse => rfl
  | look k ih => exact ih _ s
  | count k ih => exact ih _ s
  | text i k ih => exact ih _ s
  | take e k ih =>
    simp only [Reading.bind, run]
    cases s.next with
    | token t rest => exact ih _ _
    | ended | unknown => rfl

theorem run_bind_of_ok {r : Reading α} {s s' : Scan} {a : α} (h : r.run s = .ok (a, s'))
    (f : α → Reading β) : (r >>= f).run s = (f a).run s' := by
  rw [run_bind, h]

theorem run_bind_eq_ok {r : Reading α} {f : α → Reading β} {s s'' : Scan} {b : β} :
    (r >>= f).run s = .ok (b, s'') ↔
      ∃ a s', r.run s = .ok (a, s') ∧ (f a).run s' = .ok (b, s'') := by
  rw [run_bind]
  cases r.run s with
  | ok p =>
    obtain ⟨a, s'⟩ := p
    simp
  | error s' => simp

theorem token_bind_eq {t : Terminal} {e : Expectation} {f : String → Reading α} :
    (token t e >>= f) = look fun t' => if t' = t then take e f else refuse := by
  change look _ = look _
  congr 1
  funext t'
  change (if t' = t then shift e else refuse).bind f = _
  split <;> rfl

theorem optional_bind_eq {t : Terminal} {e : Expectation} {f : Bool → Reading α} :
    (optional t e >>= f) = look fun t' => if t' = t then take e fun _ => f true else f false := by
  change look _ = look _
  congr 1
  funext t'
  change (if t' = t then shift e >>= fun _ => Pure.pure true else Pure.pure false).bind f = _
  split <;> rfl

/-! ## Alike readings -/

/-- Two readings that look at the same things and take the same tokens as long as no more than the
given number of tokens is left. `T` says which expectation may follow a token, `N` relates the
numbers of tokens that the two readings count, and `R` the values that they yield. A text that makes
no difference to what is read may be any. The expectation
and, if it has been looked at, the class of the next token are kept track of. -/
inductive Alike (T : Expectation → Terminal → Expectation → Prop) (N : Nat → Nat → Prop)
    (R : Nat → Expectation → α → β → Prop) :
    Nat → Expectation → Option Terminal → Reading α → Reading β → Prop where
  | done {n : Nat} {e : Expectation} {κ : Option Terminal} {a : α} {b : β} (h : R n e a b) :
      Alike T N R n e κ (done a) (done b)
  | refuse {n : Nat} {e : Expectation} {κ : Option Terminal} : Alike T N R n e κ refuse refuse
  | look {n : Nat} {e : Expectation} {κ : Option Terminal} {k : Terminal → Reading α}
      {k' : Terminal → Reading β} (h : ∀ t, Alike T N R n e (some t) (k t) (k' t)) :
      Alike T N R n e κ (look k) (look k')
  | last {e e' : Expectation} {κ : Option Terminal} {k : String → Reading α}
      {k' : String → Reading β} : Alike T N R 0 e κ (take e' k) (take e' k')
  | take {n : Nat} {e e' : Expectation} {t : Terminal} {k : String → Reading α}
      {k' : String → Reading β} (ht : T e t e') (h : ∀ w, Alike T N R n e' none (k w) (k' w)) :
      Alike T N R (n + 1) e (some t) (take e' k) (take e' k')
  | count {n : Nat} {e : Expectation} {κ : Option Terminal} {k : Nat → Reading α}
      {k' : Nat → Reading β} (h : ∀ i j, N i j → Alike T N R n e κ (k i) (k' j)) :
      Alike T N R n e κ (count k) (count k')
  | text {n i j : Nat} {e : Expectation} {κ : Option Terminal} {k : String → Reading α}
      {k' : String → Reading β} (hij : N i j) (h : ∀ w, Alike T N R n e κ (k w) (k' w)) :
      Alike T N R n e κ (text i k) (text j k')
  | anyText {n i j : Nat} {e : Expectation} {κ : Option Terminal} {k : String → Reading α}
      {k' : String → Reading β} (h : ∀ w w', Alike T N R n e κ (k w) (k' w')) :
      Alike T N R n e κ (text i k) (text j k')

namespace Alike

variable {T : Expectation → Terminal → Expectation → Prop} {N : Nat → Nat → Prop}
  {R : Nat → Expectation → α → β → Prop} {S : Nat → Expectation → γ → δ → Prop}
  {n : Nat} {e : Expectation} {κ : Option Terminal}

theorem bind {r : Reading α} {r' : Reading β} {f : α → Reading γ} {f' : β → Reading δ}
    (h : Alike T N R n e κ r r')
    (hf : ∀ m e' κ' a b, m ≤ n → R m e' a b → Alike T N S m e' κ' (f a) (f' b)) :
    Alike T N S n e κ (r >>= f) (r' >>= f') := by
  change Alike T N S n e κ (r.bind f) (r'.bind f')
  induction h with
  | done h => exact hf _ _ _ _ _ (Nat.le_refl _) h
  | refuse => exact .refuse
  | look _ ih => exact .look fun t => ih t hf
  | last => exact .last
  | take ht _ ih => exact .take ht fun w => ih w fun m e' κ' a b hm => hf m e' κ' a b (by omega)
  | count _ ih => exact .count fun i j hij => ih i j hij hf
  | text hij _ ih => exact .text hij fun w => ih w hf
  | anyText _ ih => exact .anyText fun w w' => ih w w' hf

/-- What is yielded may be described less closely. -/
theorem mono {R' : Nat → Expectation → α → β → Prop} {r : Reading α} {r' : Reading β}
    (h : Alike T N R n e κ r r') (hR : ∀ m e' a b, m ≤ n → R m e' a b → R' m e' a b) :
    Alike T N R' n e κ r r' := by
  induction h with
  | done h => exact .done (hR _ _ _ _ (Nat.le_refl _) h)
  | refuse => exact .refuse
  | look _ ih => exact .look fun t => ih t hR
  | last => exact .last
  | take ht _ ih => exact .take ht fun w => ih w fun m e' a b hm => hR m e' a b (by omega)
  | count _ ih => exact .count fun i j hij => ih i j hij hR
  | text hij _ ih => exact .text hij fun w => ih w hR
  | anyText _ ih => exact .anyText fun w w' => ih w w' hR

theorem mono_table {T' : Expectation → Terminal → Expectation → Prop} {r : Reading α}
    {r' : Reading β} (h : Alike T N R n e κ r r') (hT : ∀ e t e', T e t e' → T' e t e') :
    Alike T' N R n e κ r r' := by
  induction h with
  | done h => exact .done h
  | refuse => exact .refuse
  | look _ ih => exact .look ih
  | last => exact .last
  | take ht _ ih => exact .take (hT _ _ _ ht) ih
  | count _ ih => exact .count ih
  | text hij _ ih => exact .text hij ih
  | anyText _ ih => exact .anyText ih

/-! ### Single tokens -/

theorem peek_bind {f : Terminal → Reading γ} {f' : Terminal → Reading δ}
    (h : ∀ t, Alike T N S n e (some t) (f t) (f' t)) :
    Alike T N S n e κ (peek >>= f) (peek >>= f') :=
  .look h

/-- Both take the token that stands next, and less text is left to both. -/
theorem shift_bind {e' : Expectation} {t : Terminal} {f : String → Reading γ}
    {f' : String → Reading δ} (ht : T e t e')
    (h : ∀ m, m + 1 = n → ∀ w, Alike T N S m e' none (f w) (f' w)) :
    Alike T N S n e (some t) (shift e' >>= f) (shift e' >>= f') := by
  cases n with
  | zero => exact .last
  | succ m => exact .take ht (h m rfl)

/-- Both take a token of the class, or both fail. -/
theorem token_bind {e' : Expectation} {t : Terminal} {f : String → Reading γ}
    {f' : String → Reading δ} (ht : T e t e')
    (h : ∀ m, m + 1 = n → ∀ w, Alike T N S m e' none (f w) (f' w)) :
    Alike T N S n e κ (token t e' >>= f) (token t e' >>= f') := by
  rw [token_bind_eq, token_bind_eq]
  refine .look fun t' => ?_
  split
  · subst t'
    exact shift_bind ht h
  · exact .refuse

/-- Both take a token of the class, or neither does. -/
theorem optional_bind {e' : Expectation} {t : Terminal} {f : Bool → Reading γ}
    {f' : Bool → Reading δ} (ht : T e t e')
    (hsome : ∀ m, m + 1 = n → Alike T N S m e' none (f true) (f' true))
    (hnone : ∀ κ', Alike T N S n e κ' (f false) (f' false)) :
    Alike T N S n e κ (optional t e' >>= f) (optional t e' >>= f') := by
  rw [optional_bind_eq, optional_bind_eq]
  refine .look fun t' => ?_
  split
  · subst t'
    exact shift_bind ht fun m hm _ => hsome m hm
  · exact hnone _

/-- An optional token whose presence makes no difference to what is read after it. -/
theorem optional_bind_same {e' : Expectation} {t : Terminal} {f : Bool → Reading γ}
    {f' : Bool → Reading δ} (ht : T e t e')
    (h : ∀ m e'' κ' b, m ≤ n → Alike T N S m e'' κ' (f b) (f' b)) :
    Alike T N S n e κ (optional t e' >>= f) (optional t e' >>= f') :=
  optional_bind ht (fun m hm => h m _ _ _ (by omega)) fun _ => h n _ _ _ (Nat.le_refl n)

/-- Both remember how many tokens have been taken, in numbers that are related. -/
theorem mark_bind {f : Nat → Reading γ} {f' : Nat → Reading δ}
    (h : ∀ i j, N i j → Alike T N S n e κ (f i) (f' j)) :
    Alike T N S n e κ (mark >>= f) (mark >>= f') :=
  .count h

/-- Both look back at the text from related places on, and see the same. -/
theorem textFrom_bind {i j : Nat} {f : String → Reading γ} {f' : String → Reading δ} (hij : N i j)
    (h : ∀ w, Alike T N S n e κ (f w) (f' w)) :
    Alike T N S n e κ (textFrom i >>= f) (textFrom j >>= f') :=
  .text hij h

theorem pure {c : γ} {d : δ} (h : S n e c d) :
    Alike T N S n e κ (Pure.pure c) (Pure.pure d) :=
  .done h

/-! ### Lists -/

section Lists

variable {R : α → α → Prop} {element element' : Reading α} {afterComma afterClose : Expectation}

/-- An element of a list yields related values from every place in the list on. -/
def Each (T : Expectation → Terminal → Expectation → Prop) (N : Nat → Nat → Prop)
    (R : α → β → Prop) (n : Nat) (element : Reading α) (element' : Reading β) : Prop :=
  ∀ m ≤ n, ∀ e κ, Alike T N (fun _ _ a b => R a b) m e κ element element'

/-- Lists in brackets are alike as their elements are, as long as both may go on for more elements
than there is text. -/
theorem commaList {close : Terminal} {k k' : Nat} (hel : Each T N Eq n element element')
    (hclose : ∀ e, T e close afterClose) (hcomma : ∀ e, T e .comma afterComma)
    (hk : n < k) (hk' : n < k') :
    Alike T N (fun _ _ as bs => as = bs) n e κ
      (Reading.commaList close afterComma afterClose element k)
      (Reading.commaList close afterComma afterClose element' k') := by
  induction k generalizing n k' e κ with
  | zero => omega
  | succ k ih =>
    obtain ⟨k', rfl⟩ : ∃ j, k' = j + 1 := ⟨k' - 1, by omega⟩
    rw [Reading.commaList, Reading.commaList]
    refine optional_bind (hclose e) (fun m hm => pure rfl) fun κ' => ?_
    refine (hel n (Nat.le_refl n) e κ').bind fun m e' κ'' a b hm hab => ?_
    subst hab
    refine optional_bind (hcomma e') (fun j hj => ?_) fun κ''' => ?_
    · refine (ih (n := j) (fun i hi => hel i (by omega)) (by omega) (by omega)).bind ?_
      intro _ _ _ as bs _ has
      exact pure (by rw [has])
    · exact token_bind (hclose e') fun _ _ _ => pure rfl

/-- Sums are alike as their summands are. -/
theorem plusList {afterPlus : Expectation} {k k' : Nat} (hel : Each T N Eq n element element')
    (hplus : ∀ e, T e .plus afterPlus) (hk : n < k) (hk' : n < k') :
    Alike T N (fun _ _ as bs => as = bs) n e κ (Reading.plusList afterPlus element k)
      (Reading.plusList afterPlus element' k') := by
  induction k generalizing n k' e κ with
  | zero => omega
  | succ k ih =>
    obtain ⟨k', rfl⟩ : ∃ j, k' = j + 1 := ⟨k' - 1, by omega⟩
    rw [Reading.plusList, Reading.plusList]
    refine (hel n (Nat.le_refl n) e κ).bind fun m e' κ' a b hm hab => ?_
    subst hab
    refine optional_bind (hplus e') (fun j hj => ?_) fun _ => pure rfl
    refine (ih (n := j) (fun i hi => hel i (by omega)) (by omega) (by omega)).bind ?_
    intro _ _ _ as bs _ has
    exact pure (by rw [has])

/-- Lists that end where no element starts are alike as their elements are. -/
theorem openList {R : α → β → Prop} {element : Reading α} {element' : Reading β}
    {starts : Terminal → Bool} {k k' : Nat} (hel : Each T N R n element element')
    (hcomma : ∀ e, T e .comma afterComma) (hk : n < k) (hk' : n < k') :
    Alike T N (fun _ _ as bs => List.Forall₂ R as bs) n e κ
      (Reading.openList starts afterComma element k)
      (Reading.openList starts afterComma element' k') := by
  induction k generalizing n k' e κ with
  | zero => omega
  | succ k ih =>
    obtain ⟨k', rfl⟩ : ∃ j, k' = j + 1 := ⟨k' - 1, by omega⟩
    rw [Reading.openList, Reading.openList]
    refine peek_bind fun t => ?_
    split
    · refine (hel n (Nat.le_refl n) e _).bind fun m e' κ' a b hm hab => ?_
      refine optional_bind (hcomma e') (fun j hj => ?_) fun _ => pure (.cons hab .nil)
      refine (ih (n := j) (fun i hi => hel i (by omega)) (by omega) (by omega)).bind ?_
      intro _ _ _ as bs _ has
      exact pure (.cons hab has)
    · exact pure .nil

end Lists

end Alike

/-! ## Scans in lockstep -/

/-- Two scans agree step by step: the same class of token stands next, and taking it leads to scans
that agree again. This is asked for only as long as `Seen` holds of the first scan; a scan from
which one that is seen can be reached is seen itself. -/
structure Lockstep (T : Expectation → Terminal → Expectation → Prop) (N : Nat → Nat → Prop)
    (Q : Scan → Scan → Prop) (Seen : Scan → Prop) : Prop where
  back : ∀ {s : Scan} {t rest e}, s.next = .token t rest → Seen ⟨t :: s.taken, rest, e⟩ → Seen s
  kind : ∀ {s s'}, Q s s' → Seen s → s.next.kind = s'.next.kind
  take : ∀ {s s' t rest e}, Q s s' → s.next = .token t rest → T s.expected t.kind e →
    Seen ⟨t :: s.taken, rest, e⟩ → ∃ t' rest', s'.next = .token t' rest' ∧ t'.text = t.text ∧
      Q ⟨t :: s.taken, rest, e⟩ ⟨t' :: s'.taken, rest', e⟩
  count : ∀ {s s'}, Q s s' → N s.taken.length s'.taken.length
  text : ∀ {s s' i j}, Q s s' → N i j → s.textFrom i = s'.textFrom j

theorem kind_of_token {s : Scan} {t : Token} {rest : List Char} (h : s.next = .token t rest) :
    s.next.kind = t.kind := by
  rw [h]
  rfl

/-- Nothing can be taken where no token stands. -/
theorem run_take_of_not_token {s : Scan} (h : ∀ t rest, s.next ≠ .token t rest) (e : Expectation)
    (k : String → Reading α) : (take e k).run s = .error s := by
  cases hs : s.next with
  | token t rest => exact absurd hs (h t rest)
  | ended | unknown => simp only [run, hs]

/-- Whether a token stands next is seen from the class. -/
theorem not_token_iff {s : Scan} :
    (∀ t rest, s.next ≠ .token t rest) ↔ s.next.kind ∉ Terminal.all := by
  cases h : s.next with
  | token t rest =>
    have := Next.kind_mem_of_token h
    simpa [Next.kind] using this
  | ended => simp [Next.kind, Terminal.all, Terminal.keywords, Terminal.symbols]
  | unknown => simp [Next.kind, Terminal.all, Terminal.keywords, Terminal.symbols]

/-- A reading that ends in a scan that is seen starts in one. -/
theorem seen_of_run {Seen : Scan → Prop}
    (back : ∀ {s : Scan} {t rest e}, s.next = .token t rest → Seen ⟨t :: s.taken, rest, e⟩ → Seen s)
    (r : Reading α) (s : Scan) :
    (∀ a s', r.run s = .ok (a, s') → Seen s' → Seen s) ∧
      ∀ s', r.run s = .error s' → Seen s' → Seen s := by
  induction r generalizing s with
  | done a => simp +contextual [run]
  | refuse => simp +contextual [run]
  | look k ih => exact ih _ s
  | count k ih => exact ih _ s
  | text i k ih => exact ih _ s
  | take e k ih =>
    simp only [run]
    cases h : s.next with
    | token t rest =>
      obtain ⟨hok, herr⟩ := ih (String.ofList t.text) ⟨t :: s.taken, rest, e⟩
      exact ⟨fun a s' hr hs => back h (hok a s' hr hs), fun s' hr hs => back h (herr s' hr hs)⟩
    | ended | unknown => simp +contextual

/-- Two endings that agree: both with related values or both with a refusal, in scans that agree. An
ending in a scan that is not seen is not looked at. -/
def SameEnd (R : Nat → Expectation → α → β → Prop) (Q : Scan → Scan → Prop) (Seen : Scan → Prop)
    (x : Except Scan (α × Scan)) (y : Except Scan (β × Scan)) : Prop :=
  (∀ a s, x = .ok (a, s) → Seen s → ∃ b s' m, y = .ok (b, s') ∧ R m s.expected a b ∧ Q s s') ∧
  ∀ s, x = .error s → Seen s → ∃ s', y = .error s' ∧ Q s s'

section SameEnd

variable {R : Nat → Expectation → α → β → Prop} {Q : Scan → Scan → Prop} {Seen : Scan → Prop}

theorem SameEnd.ok {m : Nat} {a : α} {b : β} {s s' : Scan} (h : R m s.expected a b) (hs : Q s s') :
    SameEnd R Q Seen (.ok (a, s)) (.ok (b, s')) := by
  refine ⟨fun a' s₁ heq _ => ?_, by simp⟩
  obtain ⟨rfl, rfl⟩ : a = a' ∧ s = s₁ := by simpa using heq
  exact ⟨b, s', m, rfl, h, hs⟩

theorem SameEnd.error {s s' : Scan} (hs : Q s s') : SameEnd R Q Seen (.error s) (.error s') := by
  refine ⟨by simp, fun s₁ heq _ => ?_⟩
  obtain rfl : s = s₁ := by simpa using heq
  exact ⟨s', rfl, hs⟩

/-- It is enough to compare two runs if the first one starts in a scan that is seen. -/
theorem SameEnd.of_seen {T : Expectation → Terminal → Expectation → Prop} {N : Nat → Nat → Prop}
    (hQ : Lockstep T N Q Seen) {r : Reading α} {s : Scan} {y : Except Scan (β × Scan)}
    (h : Seen s → SameEnd R Q Seen (r.run s) y) : SameEnd R Q Seen (r.run s) y := by
  obtain ⟨hok, herr⟩ := seen_of_run hQ.back r s
  exact ⟨fun a s₁ hr hs => (h (hok a s₁ hr hs)).1 a s₁ hr hs,
    fun s₁ hr hs => (h (herr s₁ hr hs)).2 s₁ hr hs⟩

end SameEnd

/-- Where no token stands next, none stands next in a scan that agrees. -/
theorem Lockstep.stuck {T : Expectation → Terminal → Expectation → Prop} {N : Nat → Nat → Prop}
    {R : Nat → Expectation → α → β → Prop} {Q : Scan → Scan → Prop} {Seen : Scan → Prop}
    (hQ : Lockstep T N Q Seen) {s s' : Scan} (hs : Q s s') (h : ∀ t rest, s.next ≠ .token t rest)
    (e : Expectation) (k : String → Reading α) (k' : String → Reading β) :
    SameEnd R Q Seen ((Reading.take e k).run s) ((Reading.take e k').run s') := by
  refine .of_seen hQ fun hseen => ?_
  have h' : ∀ t rest, s'.next ≠ .token t rest := by
    rw [not_token_iff, ← hQ.kind hs hseen, ← not_token_iff]
    exact h
  rw [run_take_of_not_token h, run_take_of_not_token h']
  exact .error hs

/-- Alike readings, followed through scans that agree, end in the same way. -/
theorem follow {T : Expectation → Terminal → Expectation → Prop} {N : Nat → Nat → Prop}
    {R : Nat → Expectation → α → β → Prop} {n : Nat} {e : Expectation} {κ : Option Terminal}
    {r : Reading α} {r' : Reading β} {Q : Scan → Scan → Prop} {Seen : Scan → Prop}
    (h : Alike T N R n e κ r r') (hQ : Lockstep T N Q Seen) {s s' : Scan} (hs : Q s s')
    (he : s.expected = e) (hκ : ∀ t, κ = some t → s.next.kind = t) (hn : s.rest.length ≤ n) :
    SameEnd R Q Seen (r.run s) (r'.run s') := by
  -- By induction on how the readings are alike; the scans agree again after each step that both
  -- take.
  induction h generalizing s s' with
  | done h => exact .ok (he ▸ h) hs
  | refuse => exact .error hs
  | look _ ih =>
    refine .of_seen hQ fun hseen => ?_
    simp only [run, ← hQ.kind hs hseen]
    exact ih _ hs he (fun t ht => Option.some.inj ht) hn
  | count _ ih => exact ih _ _ (hQ.count hs) hs he hκ hn
  | text hij _ ih =>
    simp only [run, ← hQ.text hs hij]
    exact ih _ hs he hκ hn
  | anyText _ ih => exact ih _ _ hs he hκ hn
  | last =>
    have hrest : s.rest = [] := List.length_eq_zero_iff.mp (by omega)
    exact hQ.stuck hs (by simp [Scan.next, hrest]) _ _ _
  | @take n e e' t k k' ht _ ih =>
    cases hnext : s.next with
    | token u rest =>
      have hu : u.kind = t := by rw [← kind_of_token hnext, hκ t rfl]
      have hlen := (Scan.Takes.token hnext e').2
      have htext := List.length_pos_iff.mpr (Next.text_ne_nil_of_token hnext)
      have hrest : rest.length ≤ n := by
        rw [hlen] at hn
        simp only [Token.spelled_cons, Token.spelled_nil, List.append_nil, List.length_append] at hn
        omega
      -- The scans need not agree behind the token if the reading does not get on from there.
      have step : Seen ⟨u :: s.taken, rest, e'⟩ →
          SameEnd R Q Seen ((take e' k).run s) ((take e' k').run s') := by
        intro hseen
        obtain ⟨u', rest', hnext', htext', hQ'⟩ :=
          hQ.take (e := e') hs hnext (by rw [he, hu]; exact ht) hseen
        simp only [run, hnext, hnext', htext']
        exact ih _ hQ' rfl (by simp) hrest
      have hrun : (take e' k).run s = (k (String.ofList u.text)).run ⟨u :: s.taken, rest, e'⟩ := by
        simp only [run, hnext]
      obtain ⟨hok, herr⟩ := seen_of_run hQ.back (k (String.ofList u.text)) ⟨u :: s.taken, rest, e'⟩
      refine ⟨fun a s₁ hr hseen => ?_, fun s₁ hr hseen => ?_⟩
      · exact (step (hok a s₁ (hrun ▸ hr) hseen)).1 a s₁ hr hseen
      · exact (step (herr s₁ (hrun ▸ hr) hseen)).2 s₁ hr hseen
    | ended | unknown => exact hQ.stuck hs (by simp [hnext]) _ _ _

end Reading
end ShadowImpl
