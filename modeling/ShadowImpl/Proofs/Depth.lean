import ShadowImpl.Grammar.Items
import ShadowImpl.Proofs.Lockstep
import ShadowImpl.Proofs.Places

/-!
# The bound on the depth

Every reading of the grammar takes a number that bounds how deep it goes. Between two tokens no rule
calls more than a handful of others, so two readings with enough depth for the tokens that are left
are alike. On the way it is recorded what the grammar expects after which token.
-/

namespace ShadowImpl.Grammar

open Reading

/-! ## What may follow a token -/

/-- What the grammar keeps from expecting after a token, so that the scanner stays in step with the
tokens that it would find if anything were expected. A name may have been cut off a string, a
lifetime off a character and a keyword off a longer name. -/
def isOrderly (t : Terminal) (e : Expectation) : Bool :=
  (t != .ident || !([.string, .char, .lifetime, .hash, .rawString] : Expectation).any e.contains) &&
  (t != .lifetime || !([.char, .lifetime] : Expectation).any e.contains) &&
  (!Terminal.keywords.contains t || !([.number, .rawString] : Expectation).any e.contains) &&
  (!(([.ident, .lifetime, .colon, .minus] : Expectation) ++ Terminal.keywords).contains t ||
    !([.docComment, .innerDoc] : Expectation).any e.contains)

/-- The expectation `e'` may follow the token `t` of the expectation `e`. Where anything is
expected, no token is cut off. -/
def Follows (e : Expectation) (t : Terminal) (e' : Expectation) : Prop :=
  e = Expected.anything ∨ isOrderly t e' = true

/-- What is orderly after a token may follow it, whatever was expected in front of the token. -/
theorem follows_of_orderly {e e' : Expectation} {t : Terminal} (h : isOrderly t e' = true) :
    Follows e t e' :=
  .inr h

variable {N : Nat → Nat → Prop}

/-! ## Token trees -/

/-- Yields nothing of interest, with anything expected after it. -/
def Closed (_ : Nat) (e : Expectation) (_ _ : Unit) : Prop :=
  e = Expected.anything

/-- In brackets anything may be expected, since a bracket is no part of a longer token. -/
theorem orderly_of_closer {t close : Terminal} (h : closer? t = some close) :
    isOrderly t Expected.anything = true := by
  cases t <;> simp [closer?] at h <;> decide

/-- A group takes two steps for each token and trees take one: sixteen for each token are enough. -/
theorem group_trees_alike (n : Nat) :
    (∀ m L e κ, 16 * L + 1 ≤ n → 16 * L + 1 ≤ m →
      Alike Follows N (fun i e' a b => i < L ∧ Closed i e' a b) L e κ (group n) (group m)) ∧
    ∀ seps m L κ, 16 * L + 2 ≤ n → 16 * L + 2 ≤ m →
      Alike Follows N Closed L Expected.anything κ (trees seps n) (trees seps m) := by
  induction n with
  | zero => exact ⟨fun _ _ _ _ _ _ => by omega, fun _ _ _ _ _ _ => by omega⟩
  | succ n ih =>
    refine ⟨fun m L e κ hn hm => ?_, fun seps m L κ hn hm => ?_⟩
    · obtain ⟨m, rfl⟩ : ∃ j, m = j + 1 := ⟨m - 1, by omega⟩
      rw [group, group]
      refine Alike.peek_bind fun t => ?_
      cases ht : closer? t with
      | none => exact .refuse
      | some close =>
        refine Alike.shift_bind (follows_of_orderly (orderly_of_closer ht)) fun j hj w => ?_
        -- The trees inside have one token less in front of them, which pays for both steps of the
        -- group.
        refine (ih.2 _ m j none (by omega) (by omega)).bind fun i e' κ' _ _ hi he' => ?_
        obtain rfl := he'
        exact Alike.token_bind (.inl rfl) fun i' hi' _ => Alike.pure ⟨by omega, rfl⟩
    · obtain ⟨m, rfl⟩ : ∃ j, m = j + 1 := ⟨m - 1, by omega⟩
      rw [trees, trees]
      refine Alike.peek_bind fun t => ?_
      split
      · refine (ih.1 m L _ _ (by omega) (by omega)).bind fun i e' κ' _ _ _ hi => ?_
        obtain ⟨hi, rfl⟩ := hi
        exact ih.2 seps m i κ' (by omega) (by omega)
      · split
        · exact Alike.shift_bind (.inl rfl) fun j hj _ => ih.2 seps m j none (by omega) (by omega)
        · exact Alike.pure rfl

/-- At least one tree, where the first token is looked at before it is taken. -/
theorem someTrees_alike {seps : List Terminal} {n m L : Nat} {κ : Option Terminal}
    (hn : 16 * L + 2 ≤ n) (hm : 16 * L + 2 ≤ m) :
    Alike Follows N Closed L Expected.anything κ (someTrees seps n) (someTrees seps m) := by
  rw [someTrees, someTrees]
  refine Alike.peek_bind fun t => ?_
  split
  · exact (group_trees_alike n).2 seps m L _ hn hm
  · exact .refuse

/-! ## Types -/

/-- The reading yields the same value for every depth that is large enough for the tokens left; `c`
counts the rules that it calls before it takes a token. -/
def Steady {α : Type} (N : Nat → Nat → Prop) (c : Nat) (f : Nat → Reading α) (n : Nat) : Prop :=
  ∀ m L e κ, 16 * L + c ≤ n → 16 * L + c ≤ m →
    Alike Follows N (fun _ _ a b => a = b) L e κ (f n) (f m)

/-- Nothing is claimed of a depth of zero, which is not enough even where no tokens are left. -/
theorem Steady.zero {α : Type} {c : Nat} {f : Nat → Reading α} (hc : 0 < c) : Steady N c f 0 :=
  fun _ _ _ _ _ _ => by omega

/-- A steady reading in front of others. -/
theorem Steady.bind {α γ δ : Type} {c n m L : Nat} {e : Expectation} {κ : Option Terminal}
    {S : Nat → Expectation → γ → δ → Prop} {f : Nat → Reading α} {k : α → Reading γ}
    {k' : α → Reading δ} (h : Steady N c f n) (hn : 16 * L + c ≤ n) (hm : 16 * L + c ≤ m)
    (hk : ∀ i e' κ' a, i ≤ L → Alike Follows N S i e' κ' (k a) (k' a)) :
    Alike Follows N S L e κ (f n >>= k) (f m >>= k') :=
  (h m L e κ hn hm).bind fun i e' κ' a b hi hab => by subst hab; exact hk i e' κ' a hi

/-- A binder is a list of lifetimes in angle brackets. -/
theorem binder_steady (n : Nat) : Steady N 1 binder n := by
  intro m L e κ hn hm
  rw [binder, binder]
  refine Alike.token_bind (.inr rfl) fun j hj _ => ?_
  refine Alike.token_bind (.inr rfl) fun i hi _ => ?_
  refine Alike.commaList (fun i' hi' e' κ' => ?_) (fun _ => .inr rfl) (fun _ => .inr rfl)
    (by omega) (by omega)
  exact Alike.token_bind (.inr rfl) fun _ _ _ => Alike.pure rfl

/-- A constant is one token, a number behind a minus sign, or a block. -/
theorem constText_steady (n : Nat) : Steady N 1 constText n := by
  intro m L e κ hn hm
  rw [constText, constText]
  refine Alike.mark_bind fun i j hij => Alike.peek_bind fun t => ?_
  have htext : ∀ {L e κ}, Alike Follows N (fun _ _ a b => a = b) L e κ (textFrom i) (textFrom j) :=
    .text hij fun w => .done rfl
  split
  · exact Alike.shift_bind (.inr rfl) fun _ _ _ => htext
  · exact Alike.shift_bind (.inr rfl) fun _ _ _ => htext
  · exact Alike.shift_bind (.inr rfl) fun _ _ _ => htext
  · refine Alike.shift_bind (.inr rfl) fun _ _ _ => ?_
    exact Alike.token_bind (.inr rfl) fun _ _ _ => htext
  · exact ((group_trees_alike n).1 m L _ _ hn hm).bind fun _ _ _ _ _ _ _ => htext
  · exact .refuse

/-- All readings of types are steady at the depth `n`. -/
structure TypesSteady (N : Nat → Nat → Prop) (n : Nat) : Prop where
  ty : Steady N 5 ty n
  bareTy : Steady N 4 bareTy n
  plainTy : Steady N 3 plainTy n
  qualifiedTy : Steady N 1 qualifiedTy n
  asPath : Steady N 1 asPath n
  refTy : Steady N 1 refTy n
  ptrTy : Steady N 1 ptrTy n
  parenTy : Steady N 1 parenTy n
  types : Steady N 6 types n
  bracketTy : Steady N 1 bracketTy n
  fnPtr : ∀ ls, Steady N 1 (fnPtr ls) n
  fnArg : Steady N 6 fnArg n
  returnTy : Steady N 1 returnTy n
  path : Steady N 2 path n
  segments : Steady N 1 segments n
  segmentsFrom : ∀ name, Steady N 3 (segmentsFrom name) n
  moreSegments : ∀ last, Steady N 1 (moreSegments last) n
  segmentArgs : Steady N 2 segmentArgs n
  angleArgs : Steady N 1 angleArgs n
  genericArg : Steady N 6 genericArg n
  bounds : Steady N 5 bounds n
  bound : Steady N 4 bound n
  traitBound : ∀ maybe, Steady N 3 (traitBound maybe) n

namespace TypesSteady

variable {n : Nat} (ih : TypesSteady N n)

include ih

/-- A type that starts with an angle bracket is qualified, all others are bare. -/
theorem ty_succ : Steady N 5 Grammar.ty (n + 1) := by
  intro m L e κ hn hm
  obtain ⟨m, rfl⟩ : ∃ j, m = j + 1 := ⟨m - 1, by omega⟩
  rw [Grammar.ty, Grammar.ty]
  refine Alike.peek_bind fun t => ?_
  split
  · exact ih.qualifiedTy m L e _ (by omega) (by omega)
  · exact ih.bareTy m L e _ (by omega) (by omega)

/-- A function pointer starts with a binder or with one of its keywords. -/
theorem bareTy_succ : Steady N 4 Grammar.bareTy (n + 1) := by
  intro m L e κ hn hm
  obtain ⟨m, rfl⟩ : ∃ j, m = j + 1 := ⟨m - 1, by omega⟩
  rw [Grammar.bareTy, Grammar.bareTy]
  refine Alike.peek_bind fun t => ?_
  split
  · refine (binder_steady n).bind (by omega) (by omega) fun i e' κ' ls hi => ?_
    exact ih.fnPtr ls m i e' κ' (by omega) (by omega)
  · exact ih.fnPtr [] m L e _ (by omega) (by omega)
  · exact ih.fnPtr [] m L e _ (by omega) (by omega)
  · exact ih.fnPtr [] m L e _ (by omega) (by omega)
  · exact ih.plainTy m L e _ (by omega) (by omega)

/-- The first token tells which form a plain type has. -/
theorem plainTy_succ : Steady N 3 Grammar.plainTy (n + 1) := by
  intro m L e κ hn hm
  obtain ⟨m, rfl⟩ : ∃ j, m = j + 1 := ⟨m - 1, by omega⟩
  rw [Grammar.plainTy, Grammar.plainTy]
  refine Alike.peek_bind fun t => ?_
  split
  · exact ih.path.bind (by omega) (by omega) fun _ _ _ _ _ => Alike.pure rfl
  · exact ih.path.bind (by omega) (by omega) fun _ _ _ _ _ => Alike.pure rfl
  · exact ih.refTy m L e _ (by omega) (by omega)
  · exact ih.ptrTy m L e _ (by omega) (by omega)
  · exact ih.parenTy m L e _ (by omega) (by omega)
  · exact ih.bracketTy m L e _ (by omega) (by omega)
  · exact Alike.shift_bind (.inr rfl) fun _ _ _ => Alike.pure rfl
  · refine Alike.shift_bind (.inr rfl) fun j hj _ => ?_
    exact ih.bounds.bind (by omega) (by omega) fun _ _ _ _ _ => Alike.pure rfl
  · refine Alike.shift_bind (.inr rfl) fun j hj _ => ?_
    exact ih.bounds.bind (by omega) (by omega) fun _ _ _ _ _ => Alike.pure rfl
  · exact .refuse

/-- Each part of a qualified type stands behind a token, so less depth is enough for it. -/
theorem qualifiedTy_succ : Steady N 1 Grammar.qualifiedTy (n + 1) := by
  intro m L e κ hn hm
  obtain ⟨m, rfl⟩ : ∃ j, m = j + 1 := ⟨m - 1, by omega⟩
  rw [Grammar.qualifiedTy, Grammar.qualifiedTy]
  refine Alike.token_bind (.inr rfl) fun j hj _ => ?_
  refine ih.ty.bind (by omega) (by omega) fun i₁ _ _ self hi₁ => ?_
  refine ih.asPath.bind (by omega) (by omega) fun i₂ _ _ asTrait hi₂ => ?_
  refine Alike.token_bind (.inr rfl) fun i₃ hi₃ _ => ?_
  refine Alike.token_bind (.inr rfl) fun i₄ hi₄ _ => ?_
  exact ih.segments.bind (by omega) (by omega) fun _ _ _ _ _ => Alike.pure rfl


/-- The trait of a qualified type may be left out. -/
theorem asPath_succ : Steady N 1 Grammar.asPath (n + 1) := by
  intro m L e κ hn hm
  obtain ⟨m, rfl⟩ : ∃ j, m = j + 1 := ⟨m - 1, by omega⟩
  rw [Grammar.asPath, Grammar.asPath]
  refine Alike.optional_bind (.inr rfl) (fun j hj => ?_) fun _ => Alike.pure rfl
  exact ih.path.bind (by omega) (by omega) fun _ _ _ _ _ => Alike.pure rfl


/-- A lifetime and `mut` may stand in front of the type that is referred to. -/
theorem refTy_succ : Steady N 1 Grammar.refTy (n + 1) := by
  intro m L e κ hn hm
  obtain ⟨m, rfl⟩ : ∃ j, m = j + 1 := ⟨m - 1, by omega⟩
  rw [Grammar.refTy, Grammar.refTy]
  refine Alike.token_bind (.inr rfl) fun j hj _ => Alike.peek_bind fun t => ?_
  split
  · subst t
    refine Alike.shift_bind (.inr rfl) fun i hi w => ?_
    refine Alike.optional_bind_same (.inr rfl) fun i' _ _ _ hi' => ?_
    exact ih.ty.bind (by omega) (by omega) fun _ _ _ _ _ => Alike.pure rfl
  · refine Alike.optional_bind_same (.inr rfl) fun i' _ _ _ hi' => ?_
    exact ih.ty.bind (by omega) (by omega) fun _ _ _ _ _ => Alike.pure rfl


/-- Behind the star stands `mut` or `const`. -/
theorem ptrTy_succ : Steady N 1 Grammar.ptrTy (n + 1) := by
  intro m L e κ hn hm
  obtain ⟨m, rfl⟩ : ∃ j, m = j + 1 := ⟨m - 1, by omega⟩
  rw [Grammar.ptrTy, Grammar.ptrTy]
  refine Alike.token_bind (.inr rfl) fun j hj _ => ?_
  refine Alike.optional_bind (.inr rfl) (fun i hi => ?_) fun _ => ?_
  · exact ih.ty.bind (by omega) (by omega) fun _ _ _ _ _ => Alike.pure rfl
  · refine Alike.token_bind (.inr rfl) fun i hi _ => ?_
    exact ih.ty.bind (by omega) (by omega) fun _ _ _ _ _ => Alike.pure rfl


/-- What stands in parentheses is a tuple, unless it is one type without a comma. -/
theorem parenTy_succ : Steady N 1 Grammar.parenTy (n + 1) := by
  intro m L e κ hn hm
  obtain ⟨m, rfl⟩ : ∃ j, m = j + 1 := ⟨m - 1, by omega⟩
  rw [Grammar.parenTy, Grammar.parenTy]
  refine Alike.token_bind (.inr rfl) fun j hj _ => ?_
  refine Alike.optional_bind (.inr rfl) (fun _ _ => Alike.pure rfl) fun _ => ?_
  refine ih.ty.bind (by omega) (by omega) fun i₁ _ _ head hi₁ => ?_
  refine Alike.optional_bind (.inr rfl) (fun i₂ hi₂ => ?_) fun _ => ?_
  · exact ih.types.bind (by omega) (by omega) fun _ _ _ _ _ => Alike.pure rfl
  · exact Alike.token_bind (.inr rfl) fun _ _ _ => Alike.pure rfl


/-- Each type of a list has a token behind it, a comma or the bracket that closes the list. -/
theorem types_succ : Steady N 6 Grammar.types (n + 1) := by
  intro m L e κ hn hm
  obtain ⟨m, rfl⟩ : ∃ j, m = j + 1 := ⟨m - 1, by omega⟩
  rw [Grammar.types, Grammar.types]
  exact Alike.commaList (fun i hi e' κ' => ih.ty m i e' κ' (by omega) (by omega))
    (fun _ => .inr rfl) (fun _ => .inr rfl) (by omega) (by omega)


/-- The length of an array is any row of trees without a semicolon. -/
theorem bracketTy_succ : Steady N 1 Grammar.bracketTy (n + 1) := by
  intro m L e κ hn hm
  obtain ⟨m, rfl⟩ : ∃ j, m = j + 1 := ⟨m - 1, by omega⟩
  rw [Grammar.bracketTy, Grammar.bracketTy]
  refine Alike.token_bind (.inr rfl) fun j hj _ => ?_
  refine ih.ty.bind (by omega) (by omega) fun i₁ _ _ elem hi₁ => ?_
  refine Alike.optional_bind (.inr rfl) (fun _ _ => Alike.pure rfl) fun _ => ?_
  refine Alike.token_bind (.inr rfl) fun i₂ hi₂ _ => Alike.mark_bind fun a b hab => ?_
  refine (someTrees_alike (by omega) (by omega)).bind fun _ _ _ _ _ _ _ => ?_
  refine Alike.textFrom_bind hab fun _ => ?_
  exact Alike.token_bind (.inr rfl) fun _ _ _ => Alike.pure rfl


omit ih in
/-- The name behind `extern` may be left out. -/
theorem fnAbi_bind {γ : Type} {L : Nat} {e : Expectation} {κ : Option Terminal}
    {S : Nat → Expectation → γ → γ → Prop} {k k' : Option String → Reading γ}
    (hk : ∀ i e' κ' a, i ≤ L → Alike Follows N S i e' κ' (k a) (k' a)) :
    Alike Follows N S L e κ (fnPtr.fnAbi >>= k) (fnPtr.fnAbi >>= k') := by
  have habi : Alike Follows N (fun _ _ a b => a = b) L e κ fnPtr.fnAbi fnPtr.fnAbi := by
    rw [fnPtr.fnAbi]
    refine Alike.optional_bind (.inr rfl) (fun j hj => ?_) fun _ => Alike.pure rfl
    refine Alike.peek_bind fun t => ?_
    split
    · subst t
      exact Alike.shift_bind (.inr rfl) fun _ _ _ => Alike.pure rfl
    · exact Alike.pure rfl
  exact habi.bind fun i e' κ' a b hi hab => by subst hab; exact hk i e' κ' a hi

/-- A function pointer is read up to its output, of which the arrow is the first token. -/
theorem fnPtr_succ (ls : List Lifetime) : Steady N 1 (Grammar.fnPtr ls) (n + 1) := by
  intro m L e κ hn hm
  obtain ⟨m, rfl⟩ : ∃ j, m = j + 1 := ⟨m - 1, by omega⟩
  rw [Grammar.fnPtr, Grammar.fnPtr]
  refine Alike.optional_bind_same (.inr rfl) fun i₁ _ _ isUnsafe hi₁ => ?_
  refine fnAbi_bind fun i₂ _ _ abi hi₂ => ?_
  refine Alike.token_bind (.inr rfl) fun i₃ hi₃ _ => ?_
  refine Alike.token_bind (.inr rfl) fun i₄ hi₄ _ => ?_
  refine (Alike.commaList (fun i hi e' κ' => ih.fnArg m i e' κ' (by omega) (by omega))
    (fun _ => .inr rfl) (fun _ => .inr rfl) (by omega) (by omega)).bind ?_
  rintro i₅ _ _ inputs _ hi₅ rfl
  exact ih.returnTy.bind (by omega) (by omega) fun _ _ _ _ _ => Alike.pure rfl


/-- A name in front of a colon names the parameter, any other starts its type. -/
theorem fnArg_succ : Steady N 6 Grammar.fnArg (n + 1) := by
  intro m L e κ hn hm
  obtain ⟨m, rfl⟩ : ∃ j, m = j + 1 := ⟨m - 1, by omega⟩
  rw [Grammar.fnArg, Grammar.fnArg]
  refine Alike.peek_bind fun t => ?_
  split
  · subst t
    refine Alike.shift_bind (.inr rfl) fun j hj name => ?_
    refine Alike.optional_bind (.inr rfl) (fun i hi => ?_) fun _ => ?_
    · exact ih.ty.bind (by omega) (by omega) fun _ _ _ _ _ => Alike.pure rfl
    · exact (ih.segmentsFrom name).bind (by omega) (by omega) fun _ _ _ _ _ => Alike.pure rfl
  · exact ih.ty.bind (by omega) (by omega) fun _ _ _ _ _ => Alike.pure rfl


/-- An output stands behind an arrow. -/
theorem returnTy_succ : Steady N 1 Grammar.returnTy (n + 1) := by
  intro m L e κ hn hm
  obtain ⟨m, rfl⟩ : ∃ j, m = j + 1 := ⟨m - 1, by omega⟩
  rw [Grammar.returnTy, Grammar.returnTy]
  refine Alike.optional_bind (.inr rfl) (fun j hj => ?_) fun _ => Alike.pure rfl
  exact ih.ty.bind (by omega) (by omega) fun _ _ _ _ _ => Alike.pure rfl


theorem path_succ : Steady N 2 Grammar.path (n + 1) := by
  intro m L e κ hn hm
  obtain ⟨m, rfl⟩ : ∃ j, m = j + 1 := ⟨m - 1, by omega⟩
  rw [Grammar.path, Grammar.path]
  refine Alike.optional_bind_same (.inr rfl) fun i _ _ rooted hi => ?_
  exact ih.segments.bind (by omega) (by omega) fun _ _ _ _ _ => Alike.pure rfl


theorem segments_succ : Steady N 1 Grammar.segments (n + 1) := by
  intro m L e κ hn hm
  obtain ⟨m, rfl⟩ : ∃ j, m = j + 1 := ⟨m - 1, by omega⟩
  rw [Grammar.segments, Grammar.segments]
  refine Alike.token_bind (.inr rfl) fun j hj name => ?_
  exact ih.segmentsFrom name m j _ none (by omega) (by omega)


theorem segmentsFrom_succ (name : String) : Steady N 3 (Grammar.segmentsFrom name) (n + 1) := by
  intro m L e κ hn hm
  obtain ⟨m, rfl⟩ : ∃ j, m = j + 1 := ⟨m - 1, by omega⟩
  rw [Grammar.segmentsFrom, Grammar.segmentsFrom]
  refine ih.segmentArgs.bind (by omega) (by omega) fun i e' κ' args hi => ?_
  exact ih.moreSegments _ m i e' κ' (by omega) (by omega)


/-- Behind two colons stand the arguments of the last segment or a further one. -/
theorem moreSegments_succ (last : Segment) : Steady N 1 (Grammar.moreSegments last) (n + 1) := by
  intro m L e κ hn hm
  obtain ⟨m, rfl⟩ : ∃ j, m = j + 1 := ⟨m - 1, by omega⟩
  rw [Grammar.moreSegments, Grammar.moreSegments]
  refine Alike.optional_bind (.inr rfl) (fun j hj => ?_) fun _ => Alike.pure rfl
  refine Alike.peek_bind fun t => ?_
  split
  · refine ih.angleArgs.bind (by omega) (by omega) fun i e' κ' args hi => ?_
    exact ih.moreSegments _ m i e' κ' (by omega) (by omega)
  · exact ih.segments.bind (by omega) (by omega) fun _ _ _ _ _ => Alike.pure rfl


/-- The arguments of a segment are told by the bracket in front of them. -/
theorem segmentArgs_succ : Steady N 2 Grammar.segmentArgs (n + 1) := by
  intro m L e κ hn hm
  obtain ⟨m, rfl⟩ : ∃ j, m = j + 1 := ⟨m - 1, by omega⟩
  rw [Grammar.segmentArgs, Grammar.segmentArgs]
  refine Alike.peek_bind fun t => ?_
  split
  · exact ih.angleArgs.bind (by omega) (by omega) fun _ _ _ _ _ => Alike.pure rfl
  · refine Alike.shift_bind (.inr rfl) fun j hj _ => ?_
    refine ih.types.bind (by omega) (by omega) fun i _ _ inputs hi => ?_
    exact ih.returnTy.bind (by omega) (by omega) fun _ _ _ _ _ => Alike.pure rfl
  · exact Alike.pure rfl


theorem angleArgs_succ : Steady N 1 Grammar.angleArgs (n + 1) := by
  intro m L e κ hn hm
  obtain ⟨m, rfl⟩ : ∃ j, m = j + 1 := ⟨m - 1, by omega⟩
  rw [Grammar.angleArgs, Grammar.angleArgs]
  refine Alike.token_bind (.inr rfl) fun j hj _ => ?_
  exact Alike.commaList (fun i hi e' κ' => ih.genericArg m i e' κ' (by omega) (by omega))
    (fun _ => .inr rfl) (fun _ => .inr rfl) (by omega) (by omega)


/-- A name is looked behind, for an equals sign or a colon makes it a label. -/
theorem genericArg_succ : Steady N 6 Grammar.genericArg (n + 1) := by
  intro m L e κ hn hm
  obtain ⟨m, rfl⟩ : ∃ j, m = j + 1 := ⟨m - 1, by omega⟩
  rw [Grammar.genericArg, Grammar.genericArg]
  have hconst : ∀ κ', Alike Follows N (fun _ _ a b => a = b) L e κ'
      (do return GenericArg.const (← constText n)) (do return GenericArg.const (← constText m)) :=
    fun κ' => (constText_steady n).bind (by omega) (by omega) fun _ _ _ _ _ => Alike.pure rfl
  refine Alike.peek_bind fun t => ?_
  split
  · exact Alike.shift_bind (.inr rfl) fun _ _ _ => Alike.pure rfl
  · refine Alike.shift_bind (.inr rfl) fun j hj name => Alike.peek_bind fun t => ?_
    split
    · refine Alike.shift_bind (.inr rfl) fun i hi _ => ?_
      exact ih.ty.bind (by omega) (by omega) fun _ _ _ _ _ => Alike.pure rfl
    · refine Alike.shift_bind (.inr rfl) fun i hi _ => ?_
      exact ih.bounds.bind (by omega) (by omega) fun _ _ _ _ _ => Alike.pure rfl
    · exact (ih.segmentsFrom name).bind (by omega) (by omega) fun _ _ _ _ _ => Alike.pure rfl
  iterate 5 exact hconst _
  exact ih.ty.bind (by omega) (by omega) fun _ _ _ _ _ => Alike.pure rfl


theorem bounds_succ : Steady N 5 Grammar.bounds (n + 1) := by
  intro m L e κ hn hm
  obtain ⟨m, rfl⟩ : ∃ j, m = j + 1 := ⟨m - 1, by omega⟩
  rw [Grammar.bounds, Grammar.bounds]
  exact Alike.plusList (fun i hi e' κ' => ih.bound m i e' κ' (by omega) (by omega))
    (fun _ => .inr rfl) (by omega) (by omega)


/-- A bound is a lifetime or a trait, in front of which a question mark may stand. -/
theorem bound_succ : Steady N 4 Grammar.bound (n + 1) := by
  intro m L e κ hn hm
  obtain ⟨m, rfl⟩ : ∃ j, m = j + 1 := ⟨m - 1, by omega⟩
  rw [Grammar.bound, Grammar.bound]
  refine Alike.peek_bind fun t => ?_
  split
  · exact Alike.shift_bind (.inr rfl) fun _ _ _ => Alike.pure rfl
  · refine Alike.shift_bind (.inr rfl) fun j hj _ => ?_
    exact ih.traitBound true m j _ none (by omega) (by omega)
  · exact ih.traitBound false m L e _ (by omega) (by omega)


theorem traitBound_succ (maybe : Bool) : Steady N 3 (Grammar.traitBound maybe) (n + 1) := by
  intro m L e κ hn hm
  obtain ⟨m, rfl⟩ : ∃ j, m = j + 1 := ⟨m - 1, by omega⟩
  rw [Grammar.traitBound, Grammar.traitBound]
  refine Alike.peek_bind fun t => ?_
  split
  · refine (binder_steady n).bind (by omega) (by omega) fun i _ _ ls hi => ?_
    exact ih.path.bind (by omega) (by omega) fun _ _ _ _ _ => Alike.pure rfl
  · exact ih.path.bind (by omega) (by omega) fun _ _ _ _ _ => Alike.pure rfl


omit ih in
/-- All readings of types are steady at every depth, by induction on it. -/
theorem all (N : Nat → Nat → Prop) (n : Nat) : TypesSteady N n := by
  induction n with
  | zero => exact {
    ty := .zero (by omega)
    bareTy := .zero (by omega)
    plainTy := .zero (by omega)
    qualifiedTy := .zero (by omega)
    asPath := .zero (by omega)
    refTy := .zero (by omega)
    ptrTy := .zero (by omega)
    parenTy := .zero (by omega)
    types := .zero (by omega)
    bracketTy := .zero (by omega)
    fnPtr := fun _ => .zero (by omega)
    fnArg := .zero (by omega)
    returnTy := .zero (by omega)
    path := .zero (by omega)
    segments := .zero (by omega)
    segmentsFrom := fun _ => .zero (by omega)
    moreSegments := fun _ => .zero (by omega)
    segmentArgs := .zero (by omega)
    angleArgs := .zero (by omega)
    genericArg := .zero (by omega)
    bounds := .zero (by omega)
    bound := .zero (by omega)
    traitBound := fun _ => .zero (by omega) }
  | succ n ih => exact {
    ty := ih.ty_succ
    bareTy := ih.bareTy_succ
    plainTy := ih.plainTy_succ
    qualifiedTy := ih.qualifiedTy_succ
    asPath := ih.asPath_succ
    refTy := ih.refTy_succ
    ptrTy := ih.ptrTy_succ
    parenTy := ih.parenTy_succ
    types := ih.types_succ
    bracketTy := ih.bracketTy_succ
    fnPtr := ih.fnPtr_succ
    fnArg := ih.fnArg_succ
    returnTy := ih.returnTy_succ
    path := ih.path_succ
    segments := ih.segments_succ
    segmentsFrom := ih.segmentsFrom_succ
    moreSegments := ih.moreSegments_succ
    segmentArgs := ih.segmentArgs_succ
    angleArgs := ih.angleArgs_succ
    genericArg := ih.genericArg_succ
    bounds := ih.bounds_succ
    bound := ih.bound_succ
    traitBound := ih.traitBound_succ }

end TypesSteady

/-! ## Generics -/

theorem boundsOrNone_steady (n : Nat) : Steady N 5 boundsOrNone n := by
  intro m L e κ hn hm
  rw [boundsOrNone, boundsOrNone]
  refine Alike.peek_bind fun t => ?_
  split
  · exact (TypesSteady.all N n).bounds m L e _ hn hm
  · exact Alike.pure rfl

theorem lifetimesOrNone_steady (n : Nat) : Steady N 1 lifetimesOrNone n := by
  intro m L e κ hn hm
  rw [lifetimesOrNone, lifetimesOrNone]
  refine Alike.peek_bind fun t => ?_
  split
  · refine Alike.plusList (fun i hi e' κ' => ?_) (fun _ => .inr rfl) (by omega) (by omega)
    exact Alike.token_bind (.inr rfl) fun _ _ _ => Alike.pure rfl
  · exact Alike.pure rfl

/-- A type parameter may have bounds and a default. -/
theorem typeParam_steady (n : Nat) : Steady N 1 typeParam n := by
  intro m L e κ hn hm
  have hdefault : ∀ {i e' κ'} (name : String) (bounds : List Bound), i < L →
      Alike Follows N (fun _ _ a b => a = b) i e' κ'
        (do if ← Reading.optional .eq Expected.type then
              return GenericParam.type name bounds (some (← ty n))
            else return GenericParam.type name bounds none)
        (do if ← Reading.optional .eq Expected.type then
              return GenericParam.type name bounds (some (← ty m))
            else return GenericParam.type name bounds none) := by
    intro i e' κ' name bounds hi
    refine Alike.optional_bind (.inr rfl) (fun j hj => ?_) fun _ => Alike.pure rfl
    exact (TypesSteady.all N n).ty.bind (by omega) (by omega) fun _ _ _ _ _ => Alike.pure rfl
  rw [typeParam, typeParam]
  refine Alike.token_bind (.inr rfl) fun j hj name => ?_
  refine Alike.optional_bind (.inr rfl) (fun i hi => ?_) fun _ => ?_
  · exact (boundsOrNone_steady n).bind (by omega) (by omega) fun i' _ _ bounds hi' =>
      hdefault name bounds (by omega)
  · exact hdefault name [] (by omega)

theorem lifetimeParam_steady (n : Nat) : Steady N 1 lifetimeParam n := by
  intro m L e κ hn hm
  rw [lifetimeParam, lifetimeParam]
  refine Alike.token_bind (.inr rfl) fun j hj name => ?_
  refine Alike.optional_bind (.inr rfl) (fun i hi => ?_) fun _ => Alike.pure rfl
  exact (lifetimesOrNone_steady n).bind (by omega) (by omega) fun _ _ _ _ _ => Alike.pure rfl

/-- The default of a constant is a path, unless it is the text of a constant. -/
theorem constParam_steady (n : Nat) : Steady N 1 constParam n := by
  intro m L e κ hn hm
  rw [constParam, constParam]
  refine Alike.token_bind (.inr rfl) fun i₁ hi₁ _ => ?_
  refine Alike.token_bind (.inr rfl) fun i₂ hi₂ name => ?_
  refine Alike.token_bind (.inr rfl) fun i₃ hi₃ _ => ?_
  refine (TypesSteady.all N n).ty.bind (by omega) (by omega) fun i₄ _ _ type hi₄ => ?_
  refine Alike.optional_bind (.inr rfl) (fun i₅ hi₅ => ?_) fun _ => Alike.pure rfl
  refine Alike.peek_bind fun t => ?_
  split
  · exact (TypesSteady.all N n).path.bind (by omega) (by omega) fun _ _ _ _ _ => Alike.pure rfl
  · exact (TypesSteady.all N n).path.bind (by omega) (by omega) fun _ _ _ _ _ => Alike.pure rfl
  · exact (constText_steady n).bind (by omega) (by omega) fun _ _ _ _ _ => Alike.pure rfl

theorem param_steady (n : Nat) : Steady N 1 param n := by
  intro m L e κ hn hm
  rw [param, param]
  refine Alike.peek_bind fun t => ?_
  split
  · exact constParam_steady n m L e _ hn hm
  · exact lifetimeParam_steady n m L e _ hn hm
  · exact typeParam_steady n m L e _ hn hm

theorem params_steady (n : Nat) : Steady N 1 params n := by
  intro m L e κ hn hm
  rw [params, params]
  refine Alike.optional_bind (.inr rfl) (fun j hj => ?_) fun _ => Alike.pure rfl
  exact Alike.commaList (fun i hi e' κ' => param_steady n m i e' κ' (by omega) (by omega))
    (fun _ => .inr rfl) (fun _ => .inr rfl) (by omega) (by omega)

/-- Behind a binder stands what is left of a type, which is not looked at as a whole again. -/
theorem subject_steady (n : Nat) : Steady N 5 subject n := by
  intro m L e κ hn hm
  have types := TypesSteady.all N n
  rw [subject, subject]
  refine Alike.peek_bind fun t => ?_
  split
  · refine (binder_steady n).bind (by omega) (by omega) fun i _ _ ls hi => ?_
    refine Alike.peek_bind fun t => ?_
    split
    · exact (types.fnPtr ls).bind (by omega) (by omega) fun _ _ _ _ _ => Alike.pure rfl
    · exact (types.fnPtr ls).bind (by omega) (by omega) fun _ _ _ _ _ => Alike.pure rfl
    · exact (types.fnPtr ls).bind (by omega) (by omega) fun _ _ _ _ _ => Alike.pure rfl
    · exact types.qualifiedTy.bind (by omega) (by omega) fun _ _ _ _ _ => Alike.pure rfl
    · exact types.plainTy.bind (by omega) (by omega) fun _ _ _ _ _ => Alike.pure rfl
  · exact types.ty.bind (by omega) (by omega) fun _ _ _ _ _ => Alike.pure rfl

/-- A predicate on a lifetime is told by its first token. -/
theorem predicate_steady (n : Nat) : Steady N 5 predicate n := by
  intro m L e κ hn hm
  rw [predicate, predicate]
  refine Alike.peek_bind fun t => ?_
  split
  · subst t
    refine Alike.shift_bind (.inr rfl) fun i₁ hi₁ lifetime => ?_
    refine Alike.token_bind (.inr rfl) fun i₂ hi₂ _ => ?_
    exact (lifetimesOrNone_steady n).bind (by omega) (by omega) fun _ _ _ _ _ => Alike.pure rfl
  · refine (subject_steady n).bind (by omega) (by omega) fun i₁ _ _ subject hi₁ => ?_
    refine Alike.token_bind (.inr rfl) fun i₂ hi₂ _ => ?_
    exact (boundsOrNone_steady n).bind (by omega) (by omega) fun _ _ _ _ _ => Alike.pure rfl

/-- Predicates are read as long as one starts, and a comma behind the last one is taken. -/
theorem predicates_steady {afterComma : Expectation} (h : isOrderly .comma afterComma = true)
    (n : Nat) : Steady N 5 (predicates afterComma) n := by
  intro m L e κ hn hm
  rw [predicates, predicates]
  refine (Alike.openList (R := Eq) (fun i hi e' κ' => ?_) (fun _ => .inr h) (by omega)
    (by omega)).mono fun _ _ as bs _ has => ?_
  · exact predicate_steady n m i e' κ' (by omega) (by omega)
  · rwa [List.forall₂_eq_eq_eq] at has

theorem whereClause_steady (n : Nat) : Steady N 1 whereClause n := by
  intro m L e κ hn hm
  rw [whereClause, whereClause]
  refine Alike.optional_bind (.inr rfl) (fun j hj => ?_) fun _ => Alike.pure rfl
  exact (predicates_steady rfl n).bind (by omega) (by omega) fun _ _ _ _ _ => Alike.pure rfl

end ShadowImpl.Grammar
