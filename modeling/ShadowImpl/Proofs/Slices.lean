import ShadowImpl.Proofs.Runs
import ShadowImpl.Parser

/-!
# Slices of a text

A reading that keeps source text asks for it from one of its tokens on. The grammar does so only
after at least one such token has been taken: it never asks for the text of nothing.
-/

namespace ShadowImpl

namespace Reading

variable {α β : Type} {i j : Nat}

/-! ## Readings that ask for texts of tokens -/

/-- Every text that the reading asks for is one of tokens that have been taken. So far `c`
have been, and the class of the next one may be known; `Q` holds of the number of tokens
taken at the end. -/
def Careful (Q : Nat → Prop) : Reading α → Nat → Option Terminal → Prop
  | done _, c, _ => Q c
  | refuse, _, _ => True
  | look k, c, none => ∀ t, (k t).Careful Q c (some t)
  | look k, c, some t => (k t).Careful Q c (some t)
  | take _ k, c, _ => ∀ w, (k w).Careful Q (c + 1) none
  | count k, c, κ => (k c).Careful Q c κ
  | text i k, c, κ => i < c ∧ ∀ w, (k w).Careful Q c κ

/-- A careful reading is careful for all that follows from what is known at its end. -/
theorem Careful.mono {Q Q' : Nat → Prop} {r : Reading α} {c : Nat} {κ : Option Terminal}
    (h : r.Careful Q c κ) (hQ : ∀ c', c ≤ c' → Q c' → Q' c') : r.Careful Q' c κ := by
  induction r generalizing c κ with
  | done a => exact hQ c (Nat.le_refl c) h
  | refuse => trivial
  | look k ih =>
    cases κ with
    | none => exact fun t => ih t (h t) hQ
    | some t => exact ih t h hQ
  | take e k ih => exact fun w => ih w (h w) fun c' hc' => hQ c' (by omega)
  | count k ih => exact ih c h hQ
  | text i k ih => exact ⟨h.1, fun w => ih w (h.2 w) hQ⟩

/-- One after the other, readings are careful if the second is wherever the first may end. -/
theorem Careful.bind {Q : Nat → Prop} {r : Reading α} {f : α → Reading β} {c : Nat}
    {κ : Option Terminal}
    (h : r.Careful (fun c' => ∀ a κ', (f a).Careful Q c' κ') c κ) : (r >>= f).Careful Q c κ := by
  change (r.bind f).Careful Q c κ
  induction r generalizing c κ with
  | done a => exact h a κ
  | refuse => trivial
  | look k ih =>
    cases κ with
    | none => exact fun t => ih t (h t)
    | some t => exact ih t h
  | take e k ih => exact fun w => ih w (h w)
  | count k ih => exact ih c h
  | text i k ih => exact ⟨h.1, fun w => ih w (h.2 w)⟩

/-- The reading is careful once `i` tokens have been taken. -/
def Safe (i : Nat) (r : Reading α) : Prop :=
  ∀ c κ, i ≤ c → r.Careful (c ≤ ·) c κ

/-- The reading is careful once `i` tokens have been taken, and it takes at least one more. -/
def Advances (i : Nat) (r : Reading α) : Prop :=
  ∀ c κ, i ≤ c → r.Careful (c < ·) c κ

/-- A reading that takes a token takes no less than none. -/
theorem Advances.safe {r : Reading α} (h : r.Advances i) : r.Safe i :=
  fun c κ hc => (h c κ hc).mono fun _ _ => Nat.le_of_lt

/-! ### One after the other -/

/-- Careful readings can stand one after the other. -/
theorem Safe.bind {r : Reading α} {f : α → Reading β} (h : r.Safe i) (hf : ∀ a, (f a).Safe i) :
    (r >>= f).Safe i := by
  intro c κ hc
  refine Careful.bind ((h c κ hc).mono fun c' hcc' _ a κ' => ?_)
  exact (hf a c' κ' (by omega)).mono fun c'' _ h' => by omega

/-- It is enough that the second reading takes a token. -/
theorem Advances.bind {r : Reading α} {f : α → Reading β} (h : r.Safe i)
    (hf : ∀ a, (f a).Advances i) : (r >>= f).Advances i := by
  intro c κ hc
  refine Careful.bind ((h c κ hc).mono fun c' hcc' _ a κ' => ?_)
  exact (hf a c' κ' (by omega)).mono fun c'' _ h' => by omega

/-- After a reading that takes a token, there is one token more. -/
theorem Advances.step {r : Reading α} {f : α → Reading β} (h : r.Advances i)
    (hf : ∀ a, (f a).Safe (i + 1)) : (r >>= f).Advances i := by
  intro c κ hc
  refine Careful.bind ((h c κ hc).mono fun c' _ hc' a κ' => ?_)
  exact (hf a c' κ' (by omega)).mono fun c'' _ h' => by omega

/-! ### Single steps -/

theorem safe_pure (a : α) : (Pure.pure a : Reading α).Safe i :=
  fun c _ _ => Nat.le_refl c

theorem advances_refuse : (refuse : Reading α).Advances i :=
  fun _ _ _ => trivial

/-- Looking at a token takes none. -/
theorem safe_peek : peek.Safe i := by
  intro c κ hc
  cases κ with
  | none => exact fun t => Nat.le_refl c
  | some t => exact Nat.le_refl c

theorem advances_shift (e : Expectation) : (shift e).Advances i :=
  fun c _ _ _ => Nat.lt_succ_self c

/-- A token that is there is taken, and without it the reading is refused. -/
theorem advances_token (t : Terminal) (e : Expectation) : (token t e).Advances i := by
  rw [token]
  refine .bind safe_peek fun t' => ?_
  split
  · exact advances_shift e
  · exact advances_refuse

/-- A token that may be there is taken or left. -/
theorem safe_optional (t : Terminal) (e : Expectation) : (optional t e).Safe i := by
  rw [optional]
  refine .bind safe_peek fun t' => ?_
  split
  · exact .bind (advances_shift e).safe fun _ => safe_pure true
  · exact safe_pure false

/-- A token that may be there. If it is, there is one token more. -/
theorem Careful.optional_bind {Q : Nat → Prop} {t : Terminal} {e : Expectation}
    {f : Bool → Reading β} {c : Nat} {κ : Option Terminal} (ht : (f true).Careful Q (c + 1) none)
    (hf : ∀ κ', (f false).Careful Q c κ') : (optional t e >>= f).Careful Q c κ := by
  rw [optional_bind_eq]
  have hbranch : ∀ t', (if t' = t then take e fun _ => f true else f false).Careful Q c
      (some t') := by
    intro t'
    split
    · exact fun _ => ht
    · exact hf (some t')
  cases κ with
  | none => exact hbranch
  | some t' => exact hbranch t'

theorem Safe.optional_bind {t : Terminal} {e : Expectation} {f : Bool → Reading β}
    (ht : (f true).Safe (i + 1)) (hf : (f false).Safe i) : (optional t e >>= f).Safe i := by
  intro c κ hc
  refine Careful.optional_bind ?_ fun κ' => hf c κ' hc
  exact (ht (c + 1) none (by omega)).mono fun c' _ h => by omega

theorem Advances.optional_bind {t : Terminal} {e : Expectation} {f : Bool → Reading β}
    (ht : (f true).Safe (i + 1)) (hf : (f false).Advances i) : (optional t e >>= f).Advances i := by
  intro c κ hc
  refine Careful.optional_bind ?_ fun κ' => hf c κ' hc
  exact (ht (c + 1) none (by omega)).mono fun c' _ h => by omega

theorem safe_finish : finish.Safe i := by
  rw [finish]
  refine .bind safe_peek fun t => ?_
  split
  · exact safe_pure ()
  · exact advances_refuse.safe

/-- The number of tokens that is marked is the number of those that have been taken. -/
theorem Safe.mark_bind {f : Nat → Reading β} (h : ∀ j, i ≤ j → (f j).Safe j) :
    (mark >>= f).Safe i :=
  fun c κ hc => h c hc c κ (Nat.le_refl c)

theorem Advances.mark_bind {f : Nat → Reading β} (h : ∀ j, i ≤ j → (f j).Advances j) :
    (mark >>= f).Advances i :=
  fun c κ hc => h c hc c κ (Nat.le_refl c)

theorem safe_mark : mark.Safe i :=
  fun c _ _ => Nat.le_refl c

/-- The text of tokens can be asked for once one more of them has been taken. -/
theorem safe_textFrom (h : j < i) : (textFrom j).Safe i :=
  fun c _ hc => ⟨Nat.lt_of_lt_of_le h hc, fun _ => Nat.le_refl c⟩

/-! ### Runs -/

/-- The number of tokens that a careful reading has taken in the end. -/
theorem Careful.of_run {Q : Nat → Prop} {r : Reading α} {s s' : Scan} {κ : Option Terminal} {a : α}
    (h : r.Careful Q s.taken.length κ) (hκ : ∀ t, κ = some t → s.next.kind = t)
    (hr : r.run s = .ok (a, s')) : Q s'.taken.length := by
  -- By induction on the steps. To look tells the class of the next token, to take makes it unknown.
  induction r generalizing s κ with
  | done b =>
    obtain ⟨-, rfl⟩ : b = a ∧ s = s' := by simpa [run] using hr
    exact h
  | refuse => simp [run] at hr
  | look k ih =>
    have hkind : (k s.next.kind).Careful Q s.taken.length (some s.next.kind) := by
      cases κ with
      | none => exact h s.next.kind
      | some t =>
        obtain rfl := hκ t rfl
        exact h
    exact ih _ hkind (fun t ht => Option.some.inj ht) hr
  | take e k ih =>
    simp only [run] at hr
    split at hr
    · exact ih _ (h _) (by simp) hr
    · simp at hr
  | count k ih => exact ih _ h hκ hr
  | text i k ih => exact ih _ (h.2 _) hκ hr

/-- A reading that advances has taken a token in the end. -/
theorem Advances.lt_of_run {r : Reading α} {s s' : Scan} {a : α} (h : ∀ {i}, r.Advances i)
    (hr : r.run s = .ok (a, s')) : s.taken.length < s'.taken.length :=
  (h (i := 0) s.taken.length none (Nat.zero_le _)).of_run (by simp) hr

/-! ### Lists -/

/-- A list in brackets takes at least the bracket that closes it. -/
theorem advances_commaList {close : Terminal} {e e' : Expectation} {element : Reading α}
    (h : ∀ i, element.Safe i) (n : Nat) : (commaList close e e' element n).Advances i := by
  induction n generalizing i with
  | zero => exact advances_refuse
  | succ n ih =>
    rw [commaList]
    refine .optional_bind (safe_pure []) (.bind (h i) fun x => ?_)
    refine .optional_bind (.bind ih.safe fun _ => safe_pure _) ?_
    exact .step (advances_token close e') fun _ => safe_pure [x]

/-- A sum takes at least its first summand. -/
theorem advances_plusList {e : Expectation} {element : Reading α} (h : ∀ i, element.Advances i)
    (n : Nat) : (plusList e element n).Advances i := by
  induction n generalizing i with
  | zero => exact advances_refuse
  | succ n ih =>
    rw [plusList]
    refine .step (h i) fun x => ?_
    exact .optional_bind (.bind ih.safe fun _ => safe_pure _) (safe_pure [x])

/-- A list without brackets may be empty. -/
theorem safe_openList {starts : Terminal → Bool} {e : Expectation} {element : Reading α}
    (h : ∀ i, element.Safe i) (n : Nat) : (openList starts e element n).Safe i := by
  induction n generalizing i with
  | zero => exact advances_refuse.safe
  | succ n ih =>
    rw [openList]
    refine .bind safe_peek fun t => ?_
    split
    · refine .bind (h i) fun x => ?_
      exact .optional_bind (.bind ih fun _ => safe_pure _) (safe_pure [x])
    · exact safe_pure []

end Reading

namespace Grammar

open Reading

variable {i : Nat}

/-! ## Token trees -/

/-- A group takes its brackets, while trees may be none. -/
theorem group_trees_careful (n : Nat) :
    (∀ i, (group n).Advances i) ∧ ∀ seps i, (trees seps n).Safe i := by
  induction n with
  | zero => exact ⟨fun _ => advances_refuse, fun _ _ => advances_refuse.safe⟩
  | succ n ih =>
    refine ⟨fun i => ?_, fun seps i => ?_⟩
    · rw [group]
      refine .bind safe_peek fun t => ?_
      cases closer? t with
      | none => exact advances_refuse
      | some close =>
        refine .step (advances_shift _) fun _ => .bind (ih.2 _ _) fun _ => ?_
        exact .bind (advances_token close _).safe fun _ => safe_pure ()
    · rw [trees]
      refine .bind safe_peek fun t => ?_
      split
      · exact .bind (ih.1 i).safe fun _ => ih.2 seps i
      · split
        · exact .bind (advances_shift _).safe fun _ => ih.2 seps i
        · exact safe_pure ()

theorem advances_group (n : Nat) : (group n).Advances i :=
  (group_trees_careful n).1 i

/-- Trees whose first token is known to start one. -/
theorem advances_someTrees (seps : List Terminal) (n : Nat) : (someTrees seps n).Advances i := by
  -- Both ways to start take a token, and what follows takes back none.
  have hknown : ∀ t c, ((closer? t).isSome || admits seps t) = true →
      (trees seps n).Careful (c < ·) c (some t) := by
    intro t c ht
    cases n with
    | zero => trivial
    | succ n =>
      have htrees : (trees seps n).Safe 0 := (group_trees_careful n).2 seps 0
      rw [trees]
      change (if (closer? t).isSome then _ else _ : Reading Unit).Careful (c < ·) c (some t)
      split
      · exact Advances.step (i := c) (advances_group n)
          (fun _ c' κ hc' => htrees c' κ (Nat.zero_le c')) c (some t) (Nat.le_refl c)
      · rename_i hclose
        rw [if_pos (by simpa [hclose] using ht)]
        exact Advances.step (i := c) (advances_shift _)
          (fun _ c' κ hc' => htrees c' κ (Nat.zero_le c')) c (some t) (Nat.le_refl c)
  have hbranch : ∀ t c, (if (closer? t).isSome || admits seps t then trees seps n
      else refuse).Careful (c < ·) c (some t) := by
    intro t c
    split
    · exact hknown t c ‹_›
    · trivial
  intro c κ hc
  cases κ with
  | none => exact fun t => hbranch t c
  | some t => exact hbranch t c

/-! ## Types -/

/-- A binder takes at least its keyword and its brackets. -/
theorem advances_binder (n : Nat) : (binder n).Advances i := by
  rw [binder]
  refine .step (advances_token _ _) fun _ => .bind (advances_token _ _).safe fun _ => ?_
  refine (advances_commaList (fun j => ?_) n).safe
  exact .bind (advances_token _ _).safe fun _ => safe_pure _

/-- The text of a constant is asked for once one of its tokens has been taken. -/
theorem advances_constText (n : Nat) : (constText n).Advances i := by
  rw [constText]
  refine .mark_bind fun first _ => .bind safe_peek fun t => ?_
  have htext : (textFrom first).Safe (first + 1) := safe_textFrom (Nat.lt_succ_self first)
  split
  iterate 3 exact .step (advances_shift _) fun _ => htext
  · exact .step (advances_shift _) fun _ => .bind (advances_token _ _).safe fun _ => htext
  · exact .step (advances_group n) fun _ => htext
  · exact advances_refuse

/-- All readings of types are careful at the depth `n`, and those of a whole type take a token. -/
structure TypesCareful (n : Nat) : Prop where
  ty : ∀ {i}, (ty n).Advances i
  bareTy : ∀ {i}, (bareTy n).Advances i
  plainTy : ∀ {i}, (plainTy n).Advances i
  qualifiedTy : ∀ {i}, (qualifiedTy n).Advances i
  asPath : ∀ {i}, (asPath n).Safe i
  refTy : ∀ {i}, (refTy n).Advances i
  ptrTy : ∀ {i}, (ptrTy n).Advances i
  parenTy : ∀ {i}, (parenTy n).Advances i
  types : ∀ {i}, (types n).Advances i
  bracketTy : ∀ {i}, (bracketTy n).Advances i
  fnPtr : ∀ {i} ls, (fnPtr ls n).Advances i
  fnArg : ∀ {i}, (fnArg n).Advances i
  returnTy : ∀ {i}, (returnTy n).Safe i
  path : ∀ {i}, (path n).Advances i
  segments : ∀ {i}, (segments n).Advances i
  segmentsFrom : ∀ {i} name, (segmentsFrom name n).Safe i
  moreSegments : ∀ {i} last, (moreSegments last n).Safe i
  segmentArgs : ∀ {i}, (segmentArgs n).Safe i
  angleArgs : ∀ {i}, (angleArgs n).Advances i
  genericArg : ∀ {i}, (genericArg n).Advances i
  bounds : ∀ {i}, (bounds n).Advances i
  bound : ∀ {i}, (bound n).Advances i
  traitBound : ∀ {i} maybe, (traitBound maybe n).Advances i

namespace TypesCareful

variable {n : Nat} (ih : TypesCareful n)

include ih

/-- A type takes a token, whether it is qualified or bare. -/
theorem ty_succ : (Grammar.ty (n + 1)).Advances i := by
  rw [Grammar.ty]
  refine .bind safe_peek fun t => ?_
  split
  · exact ih.qualifiedTy
  · exact ih.bareTy

/-- A function pointer takes its keyword, if not a binder in front of it. -/
theorem bareTy_succ : (Grammar.bareTy (n + 1)).Advances i := by
  rw [Grammar.bareTy]
  refine .bind safe_peek fun t => ?_
  split
  · exact .step (advances_binder n) fun ls => (ih.fnPtr ls).safe
  iterate 3 exact ih.fnPtr []
  exact ih.plainTy

/-- Every form of a plain type starts with a token of its own. -/
theorem plainTy_succ : (Grammar.plainTy (n + 1)).Advances i := by
  rw [Grammar.plainTy]
  refine .bind safe_peek fun t => ?_
  split
  iterate 2 exact .step ih.path fun _ => safe_pure _
  · exact ih.refTy
  · exact ih.ptrTy
  · exact ih.parenTy
  · exact ih.bracketTy
  · exact .step (advances_shift _) fun _ => safe_pure _
  iterate 2
    exact .step (advances_shift _) fun _ => .bind ih.bounds.safe fun _ => safe_pure _
  exact advances_refuse

/-- A qualified type takes at least its bracket. -/
theorem qualifiedTy_succ : (Grammar.qualifiedTy (n + 1)).Advances i := by
  rw [Grammar.qualifiedTy]
  refine .step (advances_token _ _) fun _ => .bind ih.ty.safe fun self => ?_
  refine .bind ih.asPath fun asTrait => .bind (advances_token _ _).safe fun _ => ?_
  exact .bind (advances_token _ _).safe fun _ => .bind ih.segments.safe fun _ => safe_pure _

/-- The trait of a qualified type may be left out. -/
theorem asPath_succ : (Grammar.asPath (n + 1)).Safe i := by
  rw [Grammar.asPath]
  exact .optional_bind (.bind ih.path.safe fun _ => safe_pure _) (safe_pure none)

/-- A reference takes at least its ampersand. -/
theorem refTy_succ : (Grammar.refTy (n + 1)).Advances i := by
  rw [Grammar.refTy]
  refine .step (advances_token _ _) fun _ => .bind safe_peek fun t => ?_
  split
  · refine .bind (advances_shift _).safe fun _ => .bind (safe_optional _ _) fun _ => ?_
    exact .bind ih.ty.safe fun _ => safe_pure _
  · exact .bind (safe_optional _ _) fun _ => .bind ih.ty.safe fun _ => safe_pure _

/-- A pointer takes at least its star. -/
theorem ptrTy_succ : (Grammar.ptrTy (n + 1)).Advances i := by
  rw [Grammar.ptrTy]
  refine .step (advances_token _ _) fun _ => .optional_bind ?_ ?_
  · exact .bind ih.ty.safe fun _ => safe_pure _
  · exact .bind (advances_token _ _).safe fun _ => .bind ih.ty.safe fun _ => safe_pure _

/-- A type in parentheses takes at least the first of them. -/
theorem parenTy_succ : (Grammar.parenTy (n + 1)).Advances i := by
  rw [Grammar.parenTy]
  refine .step (advances_token _ _) fun _ => .optional_bind (safe_pure _) ?_
  refine .bind ih.ty.safe fun head => .optional_bind ?_ ?_
  · exact .bind ih.types.safe fun _ => safe_pure _
  · exact .bind (advances_token _ _).safe fun _ => safe_pure _

theorem types_succ : (Grammar.types (n + 1)).Advances i := by
  rw [Grammar.types]
  exact advances_commaList (fun _ => ih.ty.safe) n

/-- The length of an array is asked for once its trees have been taken. -/
theorem bracketTy_succ : (Grammar.bracketTy (n + 1)).Advances i := by
  rw [Grammar.bracketTy]
  refine .step (advances_token _ _) fun _ => .bind ih.ty.safe fun elem => ?_
  refine .optional_bind (safe_pure _) (.bind (advances_token _ _).safe fun _ => ?_)
  refine .mark_bind fun first _ => (Advances.step (advances_someTrees _ n) fun _ => ?_).safe
  refine .bind (safe_textFrom (Nat.lt_succ_self first)) fun length => ?_
  exact .bind (advances_token _ _).safe fun _ => safe_pure _

omit ih in
theorem safe_fnAbi : fnPtr.fnAbi.Safe i := by
  rw [fnPtr.fnAbi]
  refine .optional_bind (.bind safe_peek fun t => ?_) (safe_pure none)
  split
  · exact .bind (advances_shift _).safe fun _ => safe_pure _
  · exact safe_pure _

/-- A function pointer takes at least `fn`, whatever stands in front of it. -/
theorem fnPtr_succ (ls : List Lifetime) : (Grammar.fnPtr ls (n + 1)).Advances i := by
  rw [Grammar.fnPtr]
  refine .bind (safe_optional _ _) fun isUnsafe => .bind safe_fnAbi fun abi => ?_
  refine .step (advances_token _ _) fun _ => .bind (advances_token _ _).safe fun _ => ?_
  refine .bind (advances_commaList (fun _ => ih.fnArg.safe) n).safe fun inputs => ?_
  exact .bind ih.returnTy fun _ => safe_pure _

/-- A parameter takes its name or the first token of its type. -/
theorem fnArg_succ : (Grammar.fnArg (n + 1)).Advances i := by
  rw [Grammar.fnArg]
  refine .bind safe_peek fun t => ?_
  split
  · refine .step (advances_shift _) fun name => .optional_bind ?_ ?_
    · exact .bind ih.ty.safe fun _ => safe_pure _
    · exact .bind (ih.segmentsFrom name) fun _ => safe_pure _
  · exact .step ih.ty fun _ => safe_pure _

theorem returnTy_succ : (Grammar.returnTy (n + 1)).Safe i := by
  rw [Grammar.returnTy]
  exact .optional_bind (.bind ih.ty.safe fun _ => safe_pure _) (safe_pure none)

theorem path_succ : (Grammar.path (n + 1)).Advances i := by
  rw [Grammar.path]
  exact .bind (safe_optional _ _) fun rooted => .step ih.segments fun _ => safe_pure _

theorem segments_succ : (Grammar.segments (n + 1)).Advances i := by
  rw [Grammar.segments]
  exact .step (advances_token _ _) fun name => ih.segmentsFrom name

/-- The name of the segment has been taken, and nothing else need follow. -/
theorem segmentsFrom_succ (name : String) : (Grammar.segmentsFrom name (n + 1)).Safe i := by
  rw [Grammar.segmentsFrom]
  exact .bind ih.segmentArgs fun args => ih.moreSegments _

/-- A path may end behind each of its segments. -/
theorem moreSegments_succ (last : Segment) : (Grammar.moreSegments last (n + 1)).Safe i := by
  rw [Grammar.moreSegments]
  refine .optional_bind (.bind safe_peek fun t => ?_) (safe_pure [last])
  split
  · exact .bind ih.angleArgs.safe fun args => ih.moreSegments _
  · exact .bind ih.segments.safe fun _ => safe_pure _

/-- A segment need not have arguments. -/
theorem segmentArgs_succ : (Grammar.segmentArgs (n + 1)).Safe i := by
  rw [Grammar.segmentArgs]
  refine .bind safe_peek fun t => ?_
  split
  · exact .bind ih.angleArgs.safe fun _ => safe_pure _
  · refine .bind (advances_shift _).safe fun _ => .bind ih.types.safe fun inputs => ?_
    exact .bind ih.returnTy fun _ => safe_pure _
  · exact safe_pure none

theorem angleArgs_succ : (Grammar.angleArgs (n + 1)).Advances i := by
  rw [Grammar.angleArgs]
  exact .step (advances_token _ _) fun _ =>
    (advances_commaList (fun _ => ih.genericArg.safe) n).safe

/-- An argument takes its first token, whatever it turns out to be. -/
theorem genericArg_succ : (Grammar.genericArg (n + 1)).Advances i := by
  rw [Grammar.genericArg]
  refine .bind safe_peek fun t => ?_
  split
  · exact .step (advances_shift _) fun _ => safe_pure _
  · refine .step (advances_shift _) fun name => .bind safe_peek fun t => ?_
    split
    · exact .bind (advances_shift _).safe fun _ => .bind ih.ty.safe fun _ => safe_pure _
    · exact .bind (advances_shift _).safe fun _ => .bind ih.bounds.safe fun _ => safe_pure _
    · exact .bind (ih.segmentsFrom name) fun _ => safe_pure _
  iterate 5 exact .step (advances_constText n) fun _ => safe_pure _
  exact .step ih.ty fun _ => safe_pure _

theorem bounds_succ : (Grammar.bounds (n + 1)).Advances i := by
  rw [Grammar.bounds]
  exact advances_plusList (fun _ => ih.bound) n

/-- A bound takes a lifetime, a question mark or the first token of a trait. -/
theorem bound_succ : (Grammar.bound (n + 1)).Advances i := by
  rw [Grammar.bound]
  refine .bind safe_peek fun t => ?_
  split
  · exact .step (advances_shift _) fun _ => safe_pure _
  · exact .step (advances_shift _) fun _ => (ih.traitBound true).safe
  · exact ih.traitBound false

theorem traitBound_succ (maybe : Bool) : (Grammar.traitBound maybe (n + 1)).Advances i := by
  rw [Grammar.traitBound]
  refine .bind safe_peek fun t => ?_
  split
  · exact .step (advances_binder n) fun ls => .bind ih.path.safe fun _ => safe_pure _
  · exact .step ih.path fun _ => safe_pure _

omit ih in
/-- All readings of types are careful, by induction on the depth. -/
theorem all (n : Nat) : TypesCareful n := by
  induction n with
  | zero =>
    constructor
    all_goals intros
    all_goals first
      | exact advances_refuse
      | exact advances_refuse.safe
  | succ n ih =>
    exact {
      ty := ih.ty_succ
      bareTy := ih.bareTy_succ
      plainTy := ih.plainTy_succ
      qualifiedTy := ih.qualifiedTy_succ
      asPath := ih.asPath_succ
      refTy := ih.refTy_succ
      ptrTy := ih.ptrTy_succ
      parenTy := ih.parenTy_succ
      types := ih.types_succ
      bracketTy := ih.bracketTy_succ
      fnPtr := ih.fnPtr_succ
      fnArg := ih.fnArg_succ
      returnTy := ih.returnTy_succ
      path := ih.path_succ
      segments := ih.segments_succ
      segmentsFrom := ih.segmentsFrom_succ
      moreSegments := ih.moreSegments_succ
      segmentArgs := ih.segmentArgs_succ
      angleArgs := ih.angleArgs_succ
      genericArg := ih.genericArg_succ
      bounds := ih.bounds_succ
      bound := ih.bound_succ
      traitBound := ih.traitBound_succ }

end TypesCareful

/-! ## Generics -/

theorem advances_ty (n : Nat) : (ty n).Advances i :=
  (TypesCareful.all n).ty

theorem advances_path (n : Nat) : (path n).Advances i :=
  (TypesCareful.all n).path

/-- Behind a colon the bounds may be left out. -/
theorem safe_boundsOrNone (n : Nat) : (boundsOrNone n).Safe i := by
  rw [boundsOrNone]
  refine .bind safe_peek fun t => ?_
  split
  · exact (TypesCareful.all n).bounds.safe
  · exact safe_pure []

theorem safe_lifetimesOrNone (n : Nat) : (lifetimesOrNone n).Safe i := by
  rw [lifetimesOrNone]
  refine .bind safe_peek fun t => ?_
  split
  · exact (advances_plusList (fun _ => .step (advances_token _ _) fun _ => safe_pure _) n).safe
  · exact safe_pure []

/-- A type parameter takes at least its name. -/
theorem advances_typeParam (n : Nat) : (typeParam n).Advances i := by
  rw [typeParam]
  have hrest : ∀ {j} name bounds, Safe j (do
      if ← optional .eq Expected.type then return GenericParam.type name bounds (some (← ty n))
      else return GenericParam.type name bounds none) :=
    fun name bounds => .optional_bind (.bind (advances_ty n).safe fun _ => safe_pure _)
      (safe_pure _)
  refine .step (advances_token _ _) fun name => .optional_bind ?_ ?_
  · exact .bind (safe_boundsOrNone n) fun bounds => hrest name bounds
  · exact .bind (safe_pure []) fun bounds => hrest name bounds

theorem advances_lifetimeParam (n : Nat) : (lifetimeParam n).Advances i := by
  rw [lifetimeParam]
  refine .step (advances_token _ _) fun name => ?_
  exact .optional_bind (.bind (safe_lifetimesOrNone n) fun _ => safe_pure _) (safe_pure _)

/-- A constant takes at least its keyword. -/
theorem advances_constParam (n : Nat) : (constParam n).Advances i := by
  rw [constParam]
  refine .step (advances_token _ _) fun _ => .bind (advances_token _ _).safe fun name => ?_
  refine .bind (advances_token _ _).safe fun _ => .bind (advances_ty n).safe fun type => ?_
  refine .optional_bind (.bind safe_peek fun t => ?_) (safe_pure _)
  split
  iterate 2 exact .bind (advances_path n).safe fun _ => safe_pure _
  exact .bind (advances_constText n).safe fun _ => safe_pure _

theorem advances_param (n : Nat) : (param n).Advances i := by
  rw [param]
  refine .bind safe_peek fun t => ?_
  split
  · exact advances_constParam n
  · exact advances_lifetimeParam n
  · exact advances_typeParam n

/-- A block or a method need not have parameters. -/
theorem safe_params (n : Nat) : (params n).Safe i := by
  rw [params]
  exact .optional_bind (advances_commaList (fun _ => (advances_param n).safe) n).safe (safe_pure [])

/-- The subject of a predicate takes a token, with a binder or without one. -/
theorem advances_subject (n : Nat) : (subject n).Advances i := by
  rw [subject]
  refine .bind safe_peek fun t => ?_
  split
  · refine .step (advances_binder n) fun ls => .bind safe_peek fun t => ?_
    split
    iterate 3 exact .bind ((TypesCareful.all n).fnPtr ls).safe fun _ => safe_pure _
    · exact .bind (TypesCareful.all n).qualifiedTy.safe fun _ => safe_pure _
    · exact .bind (TypesCareful.all n).plainTy.safe fun _ => safe_pure _
  · exact .step (advances_ty n) fun _ => safe_pure _

/-- A predicate takes at least the token that tells of which kind it is. -/
theorem advances_predicate (n : Nat) : (predicate n).Advances i := by
  rw [predicate]
  refine .bind safe_peek fun t => ?_
  split
  · refine .step (advances_shift _) fun _ => .bind (advances_token _ _).safe fun _ => ?_
    exact .bind (safe_lifetimesOrNone n) fun _ => safe_pure _
  · refine .step (advances_subject n) fun _ => .bind (advances_token _ _).safe fun _ => ?_
    exact .bind (safe_boundsOrNone n) fun _ => safe_pure _

theorem safe_predicates (e : Expectation) (n : Nat) : (predicates e n).Safe i :=
  safe_openList (fun _ => (advances_predicate n).safe) n

/-- A where clause may be left out. -/
theorem safe_whereClause (n : Nat) : (whereClause n).Safe i := by
  rw [whereClause]
  exact .optional_bind (.bind (safe_predicates _ n) fun _ => safe_pure _) (safe_pure none)

/-! ## Attributes -/

/-- The path of an attribute has at least one name. -/
theorem advances_metaNames (n : Nat) : (metaNames n).Advances i := by
  induction n generalizing i with
  | zero => exact advances_refuse
  | succ n ih =>
    rw [metaNames]
    refine .bind safe_peek fun t => ?_
    split
    iterate 2 exact .step (advances_shift _) fun _ => .optional_bind ih.safe (safe_pure ())
    exact advances_refuse

/-- The text of a path is asked for once its first name has been taken. -/
theorem advances_metaPath (n : Nat) : (metaPath n).Advances i := by
  rw [metaPath]
  refine .mark_bind fun first _ => .bind (safe_optional _ _) fun _ => ?_
  refine .step (advances_metaNames n) fun _ => ?_
  exact .bind (safe_textFrom (Nat.lt_succ_self first)) fun _ => safe_pure _

/-- The text of a group is asked for once the group has been taken. -/
theorem safe_metaForm (n : Nat) : (metaForm n).Safe i := by
  rw [metaForm]
  refine .bind safe_peek fun t => ?_
  split
  iterate 3
    refine .mark_bind fun first _ => (Advances.step (advances_group n) fun _ => ?_).safe
    refine .bind (safe_textFrom (Nat.lt_succ_self first)) fun _ => ?_
    exact .bind safe_mark fun _ => safe_pure _
  · exact .bind (advances_shift _).safe fun _ => .bind (advances_someTrees _ n).safe fun _ =>
      safe_pure _
  · exact safe_pure _

theorem advances_metaItem (n : Nat) : (metaItem n).Advances i := by
  rw [metaItem]
  refine .bind safe_mark fun first => .step (advances_metaPath n) fun path => ?_
  exact .bind (safe_metaForm n) fun form => .bind safe_mark fun _ => safe_pure _

section Started

variable {first : Nat} (hfirst : first ≤ i)

include hfirst

/-- An attribute that began with a token that has been taken. -/
theorem advances_bracketed (style : AttrStyle) (after : Expectation) (n : Nat) :
    (bracketed style after first n).Advances i := by
  rw [bracketed]
  refine .step (advances_token _ _) fun _ => .bind (advances_metaItem n).safe fun content => ?_
  refine .bind (advances_token _ _).safe fun _ => ?_
  refine .bind (safe_textFrom (Nat.lt_succ_of_le hfirst)) fun _ => ?_
  exact .bind safe_mark fun _ => safe_pure _

/-- An item that is kept as it is written began with a token that has been taken, and it ends with a
semicolon. -/
theorem advances_verbatimRest (kind : ItemKind) (attrs : List (Attribute Extent)) (n : Nat) :
    (verbatimRest kind attrs first n).Advances i := by
  rw [verbatimRest]
  refine .bind ((group_trees_careful n).2 _ i) fun _ => .step (advances_token _ _) fun _ => ?_
  refine .bind (safe_textFrom (Nat.lt_succ_of_le hfirst)) fun _ => ?_
  exact .bind safe_mark fun _ => safe_pure _

end Started

/-- A documentation comment is one token. -/
theorem advances_docAttribute (style : AttrStyle) (after : Expectation) :
    (docAttribute style after).Advances i := by
  rw [docAttribute]
  refine .bind safe_mark fun first => .step (advances_shift _) fun _ => ?_
  exact .bind safe_mark fun _ => safe_pure _

/-- The text of an attribute starts with its hash, which has been taken. -/
theorem safe_attributes (n : Nat) : (attributes n).Safe i := by
  induction n generalizing i with
  | zero => exact advances_refuse.safe
  | succ n ih =>
    rw [attributes]
    refine .bind safe_peek fun t => ?_
    split
    · exact .bind (advances_docAttribute _ _).safe fun _ => .bind ih fun _ => safe_pure _
    · refine .mark_bind fun first _ => .bind (advances_shift _).safe fun _ => ?_
      refine .bind (advances_bracketed (Nat.le_refl first) _ _ n).safe fun _ => ?_
      exact .bind ih fun _ => safe_pure _
    · exact safe_pure []

theorem safe_bodyAttributes (n : Nat) : (bodyAttributes n).Safe i := by
  induction n generalizing i with
  | zero => exact advances_refuse.safe
  | succ n ih =>
    rw [bodyAttributes]
    refine .bind safe_peek fun t => ?_
    split
    · exact .bind (advances_docAttribute _ _).safe fun _ => .bind ih fun _ => safe_pure _
    · refine .mark_bind fun first _ => .bind (advances_shift _).safe fun _ => ?_
      refine .optional_bind ?_ ?_
      · refine .bind (advances_bracketed (Nat.le_succ first) _ _ n).safe fun _ => ?_
        exact .bind ih fun _ => safe_pure _
      · refine .bind (advances_bracketed (Nat.le_refl first) _ _ n).safe fun _ => ?_
        exact .bind (safe_attributes n) fun _ => safe_pure _
    · exact .bind (safe_attributes n) fun _ => safe_pure _

/-! ## Items -/

/-- The path of a macro takes at least its first name. -/
theorem advances_macroPath (n : Nat) : (macroPath n).Advances i := by
  induction n generalizing i with
  | zero => exact advances_refuse
  | succ n ih =>
    rw [macroPath]
    refine .step (advances_token _ _) fun _ => .optional_bind ih.safe ?_
    exact .bind (advances_token _ _).safe fun _ => safe_pure ()

/-- The text of a macro call is asked for once its path has been taken. -/
theorem advances_macroCall (attrs : List (Attribute Extent)) (n : Nat) :
    (macroCall attrs n).Advances i := by
  rw [macroCall]
  refine .mark_bind fun first _ => .step (advances_macroPath n) fun _ => ?_
  refine .bind (advances_group n).safe fun _ => .bind (safe_optional _ _) fun _ => ?_
  refine .bind (safe_textFrom (Nat.lt_succ_self first)) fun _ => ?_
  exact .bind safe_mark fun _ => safe_pure _

/-- There need not be qualifiers. -/
theorem safe_qualifiers (n : Nat) : (qualifiers n).Safe i := by
  induction n generalizing i with
  | zero => exact advances_refuse.safe
  | succ n ih =>
    rw [qualifiers]
    refine .bind safe_peek fun t => ?_
    split
    iterate 3 exact .bind (advances_shift _).safe fun _ => ih
    · exact .bind (advances_shift _).safe fun _ => .bind (safe_optional _ _) fun _ => ih
    · exact safe_pure ()

/-- The text of a group. -/
theorem advances_groupText (n : Nat) : Advances i (do
    let first ← mark
    group n
    textFrom first) :=
  .mark_bind fun first _ => .step (advances_group n) fun _ => safe_textFrom (Nat.lt_succ_self first)

theorem advances_paramText (n : Nat) : (paramText n).Advances i := by
  rw [paramText]
  refine .bind safe_peek fun t => ?_
  split
  · exact advances_groupText n
  · exact advances_refuse

/-- The text of an output is asked for once the arrow has been taken. -/
theorem safe_returnText (n : Nat) : (returnText n).Safe i := by
  rw [returnText]
  refine .bind safe_peek fun t => ?_
  split
  · refine .mark_bind fun first _ => (Advances.step (advances_shift _) fun _ => ?_).safe
    refine .bind (advances_ty n).safe fun _ => ?_
    exact .bind (safe_textFrom (Nat.lt_succ_self first)) fun _ => safe_pure _
  · exact safe_pure none

/-- A method ends with a token of its own. -/
theorem advances_methodBody (n : Nat) : (methodBody n).Advances i := by
  rw [methodBody]
  refine .bind safe_peek fun t => ?_
  split
  · exact advances_shift _
  · exact advances_groupText n
  · exact advances_refuse

section Members

variable {first : Nat} (hfirst : first ≤ i) (attrs : List (Attribute Extent)) (n : Nat)

include hfirst

/-- The text in front of the parameters ends with the name, which has been taken. -/
theorem advances_method : (method attrs first n).Advances i := by
  rw [method]
  refine .bind (safe_qualifiers n) fun _ => .step (advances_token _ _) fun _ => ?_
  refine .bind (advances_token _ _).safe fun name => ?_
  refine .bind (safe_textFrom (Nat.lt_succ_of_le hfirst)) fun head => ?_
  refine .bind (safe_params n) fun params => .bind (advances_paramText n).safe fun text => ?_
  refine .bind (safe_returnText n) fun ret => .bind (safe_whereClause n) fun clause => ?_
  exact .bind (advances_methodBody n).safe fun body => .bind safe_mark fun _ => safe_pure _

theorem advances_constOrMethod : (constOrMethod attrs first n).Advances i := by
  rw [constOrMethod]
  refine .step (advances_token _ _) fun _ => .bind safe_peek fun t => ?_
  have hnext : first ≤ i + 1 := Nat.le_succ_of_le hfirst
  split
  · exact .bind (advances_shift _).safe fun _ => (advances_verbatimRest hnext _ attrs n).safe
  · exact (advances_method hnext attrs n).safe

/-- A member takes at least the token that tells of which kind it is. -/
theorem advances_member : (member attrs first n).Advances i := by
  rw [member]
  refine .bind safe_peek fun t => ?_
  have hnext : first ≤ i + 1 := Nat.le_succ_of_le hfirst
  split
  · refine .step (advances_shift _) fun _ => .bind (advances_token _ _).safe fun _ => ?_
    exact (advances_verbatimRest hnext _ attrs n).safe
  · exact advances_constOrMethod hfirst attrs n
  · exact advances_method hfirst attrs n

end Members

/-- An item starts with the token where its text starts. -/
theorem advances_item (attrs : List (Attribute Extent)) (n : Nat) : (item attrs n).Advances i := by
  rw [item]
  refine .bind safe_peek fun t => ?_
  split
  · exact advances_macroCall attrs n
  · refine .mark_bind fun first _ => .bind (advances_shift _).safe fun _ => ?_
    refine .bind safe_peek fun t => ?_
    split
    · exact .bind (advances_group n).safe fun _ => advances_member (Nat.le_refl first) attrs n
    · exact advances_member (Nat.le_refl first) attrs n
  · exact .mark_bind fun first _ => advances_member (Nat.le_refl first) attrs n

/-- There may be no items. -/
theorem safe_items (attrs : List (Attribute Extent)) (n : Nat) : (items attrs n).Safe i := by
  induction n generalizing i attrs with
  | zero => exact advances_refuse.safe
  | succ n ih =>
    rw [items]
    refine .bind safe_peek fun t => ?_
    split
    · exact .bind (advances_shift _).safe fun _ => safe_pure []
    · refine .bind (advances_item attrs n).safe fun _ => .bind (safe_attributes n) fun as => ?_
      exact .bind (ih as) fun _ => safe_pure _

theorem safe_forTy (n : Nat) : (forTy n).Safe i := by
  rw [forTy]
  refine .optional_bind (.bind safe_mark fun first => ?_) (safe_pure none)
  exact .bind (advances_ty n).safe fun _ => .bind safe_mark fun _ => safe_pure _

/-- The text of a block is asked for once the whole block has been taken. -/
theorem advances_implBlock (n : Nat) : (implBlock n).Advances i := by
  rw [implBlock]
  refine .mark_bind fun first _ => .bind (safe_attributes n) fun attrs => ?_
  refine .bind (safe_optional _ _) fun isUnsafe => .step (advances_token _ _) fun _ => ?_
  refine .bind (safe_params n) fun params => .mark_bind fun headerFirst hheader => ?_
  refine (Advances.step (TypesCareful.all n).bareTy fun header => ?_).safe
  refine .bind (safe_textFrom (Nat.lt_succ_self headerFirst)) fun headerText => ?_
  refine .bind safe_mark fun _ => .bind (safe_forTy n) fun self => ?_
  refine .bind (safe_whereClause n) fun clause => .bind (advances_token _ _).safe fun _ => ?_
  refine .bind (safe_bodyAttributes n) fun as => .bind (safe_items _ n) fun items => ?_
  refine .bind (safe_textFrom (by omega)) fun text => .bind safe_mark fun _ => ?_
  cases self <;> exact safe_pure _

end Grammar
end ShadowImpl
