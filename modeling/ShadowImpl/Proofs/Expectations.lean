import ShadowImpl.Grammar.Items
import ShadowImpl.Proofs.Runs

/-!
# What is expected after which token

The grammar says after each token what may come next, and of what it says there are only a few cases
for each class of token. They are listed here, and every reading is shown to keep to the list. So
what is expected at any point of a text can be told from the token in front of that point.
-/

namespace ShadowImpl

/-- What the grammar expects after a token of each class, where it is not looking into brackets. -/
def Expected.after : Terminal → List Expectation
  | .docComment => [afterAttribute]
  | .innerDoc => [body]
  | .string => [afterArg, [.kwFn], qualifier]
  | .char => [afterArg]
  | .number => [afterArg]
  | .ident => [afterType, afterLabel, afterTypeParam, [.colon], afterMetaName, afterMethodName,
      afterMacroName]
  | .lifetime => [afterArg, mutOrType, afterType, afterLifetimeParam, afterLifetime, [.colon]]
  | .kwExtern => [[.kwFn, .string], .string :: qualifier]
  | .kwUnsafe => [[.kwExtern, .kwFn], qualifier, afterMetaName, [.kwImpl]]
  | .kwAsync => [qualifier]
  | .kwConst => [type, name, .ident :: qualifier, qualifier]
  | .kwWhere => [clausePredicate]
  | .kwImpl => [bound, type]
  | .kwType => [name]
  | .kwDyn => [bound]
  | .kwFor => [[.lt], type]
  | .kwMut => [type]
  | .kwPub => [afterPub]
  | .kwAs => [path]
  | .kwFn => [[.lpar], name]
  | .pathSep => [name, pathPiece, metaName]
  | .arrow => [type]
  | .amp => [referent]
  | .bang => [afterType, group, [.lsqb]]
  | .colon => [type, bound, paramBound, paramLifetime, predicateLifetime, predicateBound]
  | .comma => [binderItem, typeOrClose, genericArg, param, clausePredicate]
  | .eq => [type, constDefault]
  | .hash => [[.lsqb], [.bang, .lsqb]]
  | .lbrace => [body]
  | .lt => [binderItem, type, genericArg, param]
  | .lpar => [typeOrClose]
  | .lsqb => [type, metaItem]
  | .minus => [[.number]]
  | .gt => [afterBinder, [.pathSep], afterType, afterParams]
  | .plus => [bound, [.lifetime]]
  | .qmark => [relaxed]
  | .rbrace => [[]]
  | .rpar => [afterType]
  | .rsqb => [afterType, afterAttribute, body]
  | .semi => [afterItem]
  | .star => [pointerKind]
  | .rawString | .punct | .eof | .unknown => []

/-- Whether the grammar may expect `e` after a token of class `t`. -/
def Grammar.Allows (t : Terminal) (e : Expectation) : Prop :=
  e = Expected.anything ∨ e ∈ Expected.after t

instance (t : Terminal) (e : Expectation) : Decidable (Grammar.Allows t e) :=
  inferInstanceAs (Decidable (_ ∨ _))

namespace Reading

open Grammar (Allows)

variable {α β : Type} {κ : Option Terminal} {e : Expectation} {t : Terminal}

/-- Whatever tokens the reading takes, what it expects after each of them is allowed there. If the
class of the next token has been looked at, it is `κ`. -/
def Obeys : Reading α → Option Terminal → Prop
  | done _, _ => True
  | refuse, _ => True
  | look k, _ => ∀ t, (k t).Obeys (some t)
  | take e k, κ => (∀ t, (∀ u ∈ κ, u = t) → Allows t e) ∧ ∀ w, (k w).Obeys none
  | count k, κ => ∀ n, (k n).Obeys κ
  | text _ k, κ => ∀ w, (k w).Obeys κ

/-! ## Runs -/

/-- What every token that is taken keeps is kept by a reading. -/
theorem Obeys.keeps {P : Scan → Prop}
    (step : ∀ {s : Scan} {t rest e}, P s → s.next = .token t rest → Allows t.kind e →
      P ⟨t :: s.taken, rest, e⟩)
    {r : Reading α} (h : r.Obeys κ) {s s' : Scan} {a : α} (hκ : ∀ u ∈ κ, s.next.kind = u) (hs : P s)
    (hr : r.run s = .ok (a, s')) : P s' := by
  induction r generalizing s κ with
  | done b =>
    obtain ⟨-, rfl⟩ : b = a ∧ s = s' := by simpa [run] using hr
    exact hs
  | refuse => simp [run] at hr
  | look k ih => exact ih _ (h _) (by simp) hs hr
  | count k ih => exact ih _ (h _) hκ hs hr
  | text i k ih => exact ih _ (h _) hκ hs hr
  | take e k ih =>
    simp only [run] at hr
    split at hr
    · rename_i t rest hnext
      have hkind : Allows t.kind e := h.1 _ fun u hu => by rw [← hκ u hu, kind_of_token hnext]
      exact ih _ (h.2 _) (by simp) (step hs hnext hkind) hr
    · simp at hr

/-! ## Parts of readings -/

namespace Obeys

/-- What is obeyed without knowing the next token is obeyed when it is known. -/
theorem of_none {r : Reading α} (h : r.Obeys none) (κ : Option Terminal) : r.Obeys κ := by
  induction r generalizing κ with
  | done | refuse => trivial
  | look k ih => exact h
  | take e k ih => exact ⟨fun t _ => h.1 t (by simp), h.2⟩
  | count k ih => exact fun n => ih n (h n) κ
  | text i k ih => exact fun w => ih w (h w) κ

/-- Behind the first reading the next token is not known. -/
theorem bind {r : Reading α} {f : α → Reading β} (h : r.Obeys κ) (hf : ∀ a, (f a).Obeys none) :
    (r >>= f).Obeys κ := by
  change (r.bind f).Obeys κ
  induction r generalizing κ with
  | done a => exact (hf a).of_none κ
  | refuse => trivial
  | look k ih => exact fun t => ih t (h t)
  | take e k ih => exact ⟨h.1, fun w => ih w (h.2 w)⟩
  | count k ih => exact fun n => ih n (h n)
  | text i k ih => exact fun w => ih w (h w)

/-- A reading that takes nothing expects nothing. -/
theorem pure (a : α) : (Pure.pure a : Reading α).Obeys κ :=
  trivial

/-- Once the next token has been looked at, its class is known. -/
theorem peek_bind {f : Terminal → Reading β} (h : ∀ t, (f t).Obeys (some t)) :
    (peek >>= f).Obeys κ :=
  h

/-- A token that has been looked at is taken, whatever its class is. -/
theorem shift_bind {f : String → Reading β} (ht : Allows t e) (h : ∀ w, (f w).Obeys none) :
    (shift e >>= f).Obeys (some t) :=
  ⟨fun _ hu => hu t rfl ▸ ht, h⟩

/-- A token is taken only if it is of the class that is asked for. -/
theorem token_bind {f : String → Reading β} (ht : Allows t e) (h : ∀ w, (f w).Obeys none) :
    (token t e >>= f).Obeys κ := by
  rw [token_bind_eq]
  change ∀ u, (if u = t then take e f else refuse).Obeys (some u)
  intro u
  split
  · subst u
    exact shift_bind ht h
  · trivial

/-- A token may be taken, and both ways of going on obey. -/
theorem optional_bind {f : Bool → Reading β} (ht : Allows t e) (h : ∀ b, (f b).Obeys none) :
    (optional t e >>= f).Obeys κ := by
  rw [optional_bind_eq]
  change ∀ u, (if u = t then take e fun _ => f true else f false).Obeys (some u)
  intro u
  split
  · subst u
    exact shift_bind ht fun _ => h true
  · exact (h false).of_none _

theorem shift (ht : Allows t e) : (Reading.shift e).Obeys (some t) :=
  ⟨fun _ hu => hu t rfl ▸ ht, fun _ => trivial⟩

theorem textFrom (i : Nat) : (Reading.textFrom i).Obeys κ :=
  fun _ => trivial

theorem mark_bind {f : Nat → Reading β} (h : ∀ n, (f n).Obeys κ) : (mark >>= f).Obeys κ :=
  h

theorem textFrom_bind {i : Nat} {f : String → Reading β} (h : ∀ w, (f w).Obeys κ) :
    (Reading.textFrom i >>= f).Obeys κ :=
  h

/-- A list in brackets obeys if its elements do and the grammar allows what it expects behind a
comma and behind the bracket. -/
theorem commaList {close : Terminal} {afterComma afterClose : Expectation} {element : Reading α}
    (hclose : Allows close afterClose) (hcomma : Allows .comma afterComma)
    (h : element.Obeys none) (n : Nat) :
    (Reading.commaList close afterComma afterClose element n).Obeys κ := by
  induction n generalizing κ with
  | zero => trivial
  | succ n ih =>
    rw [Reading.commaList]
    refine optional_bind hclose fun closed => ?_
    split
    · exact pure _
    refine h.bind fun x => optional_bind hcomma fun more => ?_
    split
    · exact ih.bind fun _ => pure _
    · exact token_bind hclose fun _ => pure _

/-- A sum obeys if its summands do. -/
theorem plusList {afterPlus : Expectation} {element : Reading α} (hplus : Allows .plus afterPlus)
    (h : element.Obeys none) (n : Nat) : (Reading.plusList afterPlus element n).Obeys κ := by
  induction n generalizing κ with
  | zero => trivial
  | succ n ih =>
    rw [Reading.plusList]
    refine (h.of_none κ).bind fun x => optional_bind hplus fun more => ?_
    split
    · exact ih.bind fun _ => pure _
    · exact pure _

/-- A list without brackets obeys if its elements do. -/
theorem openList {starts : Terminal → Bool} {afterComma : Expectation} {element : Reading α}
    (hcomma : Allows .comma afterComma) (h : element.Obeys none) (n : Nat) :
    (Reading.openList starts afterComma element n).Obeys κ := by
  induction n generalizing κ with
  | zero => trivial
  | succ n ih =>
    rw [Reading.openList]
    refine peek_bind fun t => ?_
    split
    · refine (h.of_none _).bind fun x => optional_bind hcomma fun more => ?_
      split
      · exact ih.bind fun _ => pure _
      · exact pure _
    · exact pure _

end Obeys
end Reading

namespace Grammar

open Reading

variable {κ : Option Terminal}

/-! ## Token trees -/

/-- In brackets anything may be expected. -/
theorem group_trees_obey (n : Nat) :
    (∀ κ, (group n).Obeys κ) ∧ ∀ seps κ, (trees seps n).Obeys κ := by
  induction n with
  | zero => exact ⟨fun _ => trivial, fun _ _ => trivial⟩
  | succ n ih =>
    constructor
    · intro κ
      rw [group]
      refine .peek_bind fun t => ?_
      split
      · trivial
      · exact .shift_bind (.inl rfl) fun _ => (ih.2 _ none).bind fun _ => .token_bind
          (.inl rfl) fun _ => .pure _
    · intro seps κ
      rw [trees]
      refine .peek_bind fun t => ?_
      split
      · exact (ih.1 _).bind fun _ => ih.2 _ _
      · split
        · exact .shift_bind (.inl rfl) fun _ => ih.2 _ _
        · exact .pure _

theorem group_obeys (n : Nat) : (group n).Obeys κ :=
  (group_trees_obey n).1 κ

theorem trees_obey (seps : List Terminal) (n : Nat) : (trees seps n).Obeys κ :=
  (group_trees_obey n).2 seps κ

/-- At least one tree, told by its first token. -/
theorem someTrees_obey (seps : List Terminal) (n : Nat) : (someTrees seps n).Obeys κ := by
  rw [someTrees]
  refine .peek_bind fun t => ?_
  split
  · exact trees_obey seps n
  · trivial

/-! ## Types -/

/-- A binder is a list of lifetimes in angle brackets. -/
theorem binder_obeys (n : Nat) : (binder n).Obeys κ := by
  rw [binder]
  refine .token_bind (by decide) fun _ => .token_bind (by decide) fun _ => ?_
  exact .commaList (by decide) (by decide) (.token_bind (by decide) fun _ => .pure _) n

/-- A constant is one token, a number behind a minus sign, or a block. -/
theorem constText_obeys (n : Nat) : (constText n).Obeys κ := by
  rw [constText]
  refine .mark_bind fun first => .peek_bind fun t => ?_
  split
  · exact .shift_bind (by decide) fun _ => .textFrom first
  · exact .shift_bind (by decide) fun _ => .textFrom first
  · exact .shift_bind (by decide) fun _ => .textFrom first
  · exact .shift_bind (by decide) fun _ => .token_bind (by decide) fun _ => .textFrom first
  · exact (group_obeys n).bind fun _ => .textFrom first
  · trivial

/-- All readings of types keep to the list at the depth `n`. -/
structure TypesObey (n : Nat) : Prop where
  ty : (Grammar.ty n).Obeys none
  bareTy : (Grammar.bareTy n).Obeys none
  plainTy : (Grammar.plainTy n).Obeys none
  qualifiedTy : (Grammar.qualifiedTy n).Obeys none
  asPath : (Grammar.asPath n).Obeys none
  refTy : (Grammar.refTy n).Obeys none
  ptrTy : (Grammar.ptrTy n).Obeys none
  parenTy : (Grammar.parenTy n).Obeys none
  types : (Grammar.types n).Obeys none
  bracketTy : (Grammar.bracketTy n).Obeys none
  fnPtr : ∀ ls, (Grammar.fnPtr ls n).Obeys none
  fnArg : (Grammar.fnArg n).Obeys none
  returnTy : (Grammar.returnTy n).Obeys none
  path : (Grammar.path n).Obeys none
  segments : (Grammar.segments n).Obeys none
  segmentsFrom : ∀ name, (Grammar.segmentsFrom name n).Obeys none
  moreSegments : ∀ last, (Grammar.moreSegments last n).Obeys none
  segmentArgs : (Grammar.segmentArgs n).Obeys none
  angleArgs : (Grammar.angleArgs n).Obeys none
  genericArg : (Grammar.genericArg n).Obeys none
  bounds : (Grammar.bounds n).Obeys none
  bound : (Grammar.bound n).Obeys none
  traitBound : ∀ maybe, (Grammar.traitBound maybe n).Obeys none

namespace TypesObey

variable {n : Nat} (ih : TypesObey n)

include ih

/-- A type is qualified or bare, which its first token tells. -/
theorem ty_succ : (Grammar.ty (n + 1)).Obeys none := by
  rw [Grammar.ty]
  refine .peek_bind fun t => ?_
  split
  · exact ih.qualifiedTy.of_none _
  · exact ih.bareTy.of_none _

/-- A function pointer starts with a binder or with one of its keywords. -/
theorem bareTy_succ : (Grammar.bareTy (n + 1)).Obeys none := by
  rw [Grammar.bareTy]
  refine .peek_bind fun t => ?_
  split
  · exact (binder_obeys n).bind fun ls => ih.fnPtr ls
  · exact (ih.fnPtr []).of_none _
  · exact (ih.fnPtr []).of_none _
  · exact (ih.fnPtr []).of_none _
  · exact ih.plainTy.of_none _

/-- Behind a bang stands nothing else of the type. -/
theorem plainTy_succ : (Grammar.plainTy (n + 1)).Obeys none := by
  rw [Grammar.plainTy]
  refine .peek_bind fun t => ?_
  split
  · exact (ih.path.of_none _).bind fun _ => .pure _
  · exact (ih.path.of_none _).bind fun _ => .pure _
  · exact ih.refTy.of_none _
  · exact ih.ptrTy.of_none _
  · exact ih.parenTy.of_none _
  · exact ih.bracketTy.of_none _
  · exact .shift_bind (by decide) fun _ => .pure _
  · exact .shift_bind (by decide) fun _ => ih.bounds.bind fun _ => .pure _
  · exact .shift_bind (by decide) fun _ => ih.bounds.bind fun _ => .pure _
  · trivial

/-- Of a qualified type the grammar expects two colons behind the bracket, and a name behind them.
-/
theorem qualifiedTy_succ : (Grammar.qualifiedTy (n + 1)).Obeys none := by
  rw [Grammar.qualifiedTy]
  refine .token_bind (by decide) fun _ => ih.ty.bind fun _ => ih.asPath.bind fun _ => ?_
  refine .token_bind (by decide) fun _ => .token_bind (by decide) fun _ => ?_
  exact ih.segments.bind fun _ => .pure _

theorem asPath_succ : (Grammar.asPath (n + 1)).Obeys none := by
  rw [Grammar.asPath]
  refine .optional_bind (by decide) fun found => ?_
  split
  · exact ih.path.bind fun _ => .pure _
  · exact .pure _

/-- Behind the ampersand a lifetime may stand, and `mut` behind both. -/
theorem refTy_succ : (Grammar.refTy (n + 1)).Obeys none := by
  rw [Grammar.refTy]
  have referent : ∀ l, (do return Ty.ref l (← optional .kwMut Expected.type) (← Grammar.ty n) :
      Reading Ty).Obeys none := fun _ =>
    .optional_bind (by decide) fun _ => ih.ty.bind fun _ => .pure _
  refine .token_bind (by decide) fun _ => .peek_bind fun t => ?_
  split
  · subst t
    exact .shift_bind (by decide) fun _ => referent _
  · exact (referent none).of_none _

/-- Behind the star stands `mut` or `const`, and behind it a type. -/
theorem ptrTy_succ : (Grammar.ptrTy (n + 1)).Obeys none := by
  rw [Grammar.ptrTy]
  refine .token_bind (by decide) fun _ => .optional_bind (by decide) fun mutable => ?_
  split
  · exact ih.ty.bind fun _ => .pure _
  · exact .token_bind (by decide) fun _ => ih.ty.bind fun _ => .pure _

theorem types_succ : (Grammar.types (n + 1)).Obeys none := by
  rw [Grammar.types]
  exact .commaList (by decide) (by decide) ih.ty n

/-- Behind a comma in parentheses a type or the bracket is expected. -/
theorem parenTy_succ : (Grammar.parenTy (n + 1)).Obeys none := by
  rw [Grammar.parenTy]
  refine .token_bind (by decide) fun _ => .optional_bind (by decide) fun closed => ?_
  split
  · exact .pure _
  refine ih.ty.bind fun head => .optional_bind (by decide) fun more => ?_
  split
  · exact ih.types.bind fun _ => .pure _
  · exact .token_bind (by decide) fun _ => .pure _

/-- The length of an array is expected to be anything. -/
theorem bracketTy_succ : (Grammar.bracketTy (n + 1)).Obeys none := by
  rw [Grammar.bracketTy]
  refine .token_bind (by decide) fun _ => ih.ty.bind fun elem => .optional_bind
    (by decide) fun closed => ?_
  split
  · exact .pure _
  refine .token_bind (by decide) fun _ => .mark_bind fun first => ?_
  refine (someTrees_obey _ n).bind fun _ => .textFrom_bind fun _ => ?_
  exact .token_bind (by decide) fun _ => .pure _

/-- Behind `extern` the name of an ABI or `fn` is expected. -/
theorem fnPtr_succ (ls : List Lifetime) : (Grammar.fnPtr ls (n + 1)).Obeys none := by
  rw [Grammar.fnPtr]
  have habi : fnPtr.fnAbi.Obeys none := by
    rw [fnPtr.fnAbi]
    refine .optional_bind (by decide) fun found => ?_
    split
    · refine .peek_bind fun t => ?_
      split
      · subst t
        exact .shift_bind (by decide) fun _ => .pure _
      · exact .pure _
    · exact .pure _
  refine .optional_bind (by decide) fun _ => habi.bind fun _ => ?_
  refine .token_bind (by decide) fun _ => .token_bind (by decide) fun _ => ?_
  refine (Obeys.commaList (by decide) (by decide) ih.fnArg n).bind fun _ => ?_
  exact ih.returnTy.bind fun _ => .pure _

theorem fnArg_succ : (Grammar.fnArg (n + 1)).Obeys none := by
  rw [Grammar.fnArg]
  refine .peek_bind fun t => ?_
  split
  · subst t
    refine .shift_bind (by decide) fun name => .optional_bind (by decide) fun labelled => ?_
    split
    · exact ih.ty.bind fun _ => .pure _
    · exact (ih.segmentsFrom name).bind fun _ => .pure _
  · exact (ih.ty.of_none _).bind fun _ => .pure _

theorem returnTy_succ : (Grammar.returnTy (n + 1)).Obeys none := by
  rw [Grammar.returnTy]
  refine .optional_bind (by decide) fun found => ?_
  split
  · exact ih.ty.bind fun _ => .pure _
  · exact .pure _

theorem path_succ : (Grammar.path (n + 1)).Obeys none := by
  rw [Grammar.path]
  exact .optional_bind (by decide) fun _ => ih.segments.bind fun _ => .pure _

theorem segments_succ : (Grammar.segments (n + 1)).Obeys none := by
  rw [Grammar.segments]
  exact .token_bind (by decide) fun name => ih.segmentsFrom name

theorem segmentsFrom_succ (name : String) : (Grammar.segmentsFrom name (n + 1)).Obeys none := by
  rw [Grammar.segmentsFrom]
  exact ih.segmentArgs.bind fun _ => ih.moreSegments _

/-- Behind two colons a name or an angle bracket is expected. -/
theorem moreSegments_succ (last : Segment) : (Grammar.moreSegments last (n + 1)).Obeys none := by
  rw [Grammar.moreSegments]
  refine .optional_bind (by decide) fun more => ?_
  split
  · refine .peek_bind fun t => ?_
    split
    · exact (ih.angleArgs.of_none _).bind fun _ => ih.moreSegments _
    · exact (ih.segments.of_none _).bind fun _ => .pure _
  · exact .pure _

theorem segmentArgs_succ : (Grammar.segmentArgs (n + 1)).Obeys none := by
  rw [Grammar.segmentArgs]
  refine .peek_bind fun t => ?_
  split
  · exact (ih.angleArgs.of_none _).bind fun _ => .pure _
  · exact .shift_bind (by decide) fun _ => ih.types.bind fun _ => ih.returnTy.bind fun _ => .pure _
  · exact .pure _

theorem angleArgs_succ : (Grammar.angleArgs (n + 1)).Obeys none := by
  rw [Grammar.angleArgs]
  exact .token_bind (by decide) fun _ => .commaList (by decide) (by decide) ih.genericArg n

/-- Behind a name that may be a label, an equals sign or a colon is expected as well. -/
theorem genericArg_succ : (Grammar.genericArg (n + 1)).Obeys none := by
  rw [Grammar.genericArg]
  have const : ∀ t, (do return GenericArg.const (← constText n) : Reading GenericArg).Obeys
      (some t) :=
    fun _ => (constText_obeys n).bind fun _ => .pure _
  refine .peek_bind fun t => ?_
  split
  · exact .shift_bind (by decide) fun _ => .pure _
  · refine .shift_bind (by decide) fun name => .peek_bind fun t => ?_
    split
    · exact .shift_bind (by decide) fun _ => ih.ty.bind fun _ => .pure _
    · exact .shift_bind (by decide) fun _ => ih.bounds.bind fun _ => .pure _
    · exact ((ih.segmentsFrom name).of_none _).bind fun _ => .pure _
  · exact const _
  · exact const _
  · exact const _
  · exact const _
  · exact const _
  · exact (ih.ty.of_none _).bind fun _ => .pure _

theorem bounds_succ : (Grammar.bounds (n + 1)).Obeys none := by
  rw [Grammar.bounds]
  exact .plusList (by decide) ih.bound n

/-- Behind a question mark stands the trait. -/
theorem bound_succ : (Grammar.bound (n + 1)).Obeys none := by
  rw [Grammar.bound]
  refine .peek_bind fun t => ?_
  split
  · exact .shift_bind (by decide) fun _ => .pure _
  · exact .shift_bind (by decide) fun _ => ih.traitBound true
  · exact (ih.traitBound false).of_none _

theorem traitBound_succ (maybe : Bool) : (Grammar.traitBound maybe (n + 1)).Obeys none := by
  rw [Grammar.traitBound]
  refine .peek_bind fun t => ?_
  split
  · exact (binder_obeys n).bind fun _ => ih.path.bind fun _ => .pure _
  · exact (ih.path.of_none _).bind fun _ => .pure _

omit ih in
/-- All readings of types keep to the list, by induction on the depth. -/
theorem all (n : Nat) : TypesObey n := by
  induction n with
  | zero => constructor <;> intros <;> trivial
  | succ n ih =>
    exact ⟨ih.ty_succ, ih.bareTy_succ, ih.plainTy_succ, ih.qualifiedTy_succ, ih.asPath_succ,
      ih.refTy_succ, ih.ptrTy_succ, ih.parenTy_succ, ih.types_succ,
        ih.bracketTy_succ, ih.fnPtr_succ,
      ih.fnArg_succ, ih.returnTy_succ, ih.path_succ, ih.segments_succ, ih.segmentsFrom_succ,
      ih.moreSegments_succ, ih.segmentArgs_succ, ih.angleArgs_succ, ih.genericArg_succ,
      ih.bounds_succ, ih.bound_succ, ih.traitBound_succ⟩

end TypesObey

/-! ## Generics -/

theorem boundsOrNone_obeys (n : Nat) : (boundsOrNone n).Obeys κ := by
  rw [boundsOrNone]
  refine .peek_bind fun t => ?_
  split
  · exact (TypesObey.all n).bounds.of_none _
  · exact .pure _

theorem lifetimesOrNone_obeys (n : Nat) : (lifetimesOrNone n).Obeys κ := by
  rw [lifetimesOrNone]
  refine .peek_bind fun t => ?_
  split
  · exact .plusList (by decide) (.token_bind (by decide) fun _ => .pure _) n
  · exact .pure _

/-- Behind the name of a type parameter its bounds, its default or the end of the list is expected.
-/
theorem typeParam_obeys (n : Nat) : (typeParam n).Obeys κ := by
  rw [typeParam]
  refine .token_bind (by decide) fun name => ?_
  have default : ∀ bs, (do
      if ← optional .eq Expected.type then return GenericParam.type name bs (some (← ty n))
      else return GenericParam.type name bs none : Reading GenericParam).Obeys none := by
    intro bs
    refine .optional_bind (by decide) fun found => ?_
    split
    · exact (TypesObey.all n).ty.bind fun _ => .pure _
    · exact .pure _
  refine .optional_bind (by decide) fun found => ?_
  split
  · exact (boundsOrNone_obeys n).bind default
  · exact default []

theorem lifetimeParam_obeys (n : Nat) : (lifetimeParam n).Obeys κ := by
  rw [lifetimeParam]
  refine .token_bind (by decide) fun _ => .optional_bind (by decide) fun found => ?_
  split
  · exact (lifetimesOrNone_obeys n).bind fun _ => .pure _
  · exact .pure _

/-- The default of a constant may start with a number, which a type may not. -/
theorem constParam_obeys (n : Nat) : (constParam n).Obeys κ := by
  rw [constParam]
  refine .token_bind (by decide) fun _ => .token_bind (by decide) fun name => ?_
  refine .token_bind (by decide) fun _ => (TypesObey.all n).ty.bind fun type => ?_
  refine .optional_bind (by decide) fun found => ?_
  split
  · refine .peek_bind fun t => ?_
    split
    · exact ((TypesObey.all n).path.of_none _).bind fun _ => .pure _
    · exact ((TypesObey.all n).path.of_none _).bind fun _ => .pure _
    · exact (constText_obeys n).bind fun _ => .pure _
  · exact .pure _

theorem param_obeys (n : Nat) : (param n).Obeys κ := by
  rw [param]
  refine .peek_bind fun t => ?_
  split
  · exact constParam_obeys n
  · exact lifetimeParam_obeys n
  · exact typeParam_obeys n

theorem params_obey (n : Nat) : (params n).Obeys κ := by
  rw [params]
  refine .optional_bind (by decide) fun found => ?_
  split
  · exact .commaList (by decide) (by decide) (param_obeys n) n
  · exact .pure _

/-- The subject of a predicate is a type, of which the binder may have been read. -/
theorem subject_obeys (n : Nat) : (subject n).Obeys κ := by
  rw [subject]
  refine .peek_bind fun t => ?_
  split
  · refine (binder_obeys n).bind fun ls => .peek_bind fun t => ?_
    split
    · exact (((TypesObey.all n).fnPtr ls).of_none _).bind fun _ => .pure _
    · exact (((TypesObey.all n).fnPtr ls).of_none _).bind fun _ => .pure _
    · exact (((TypesObey.all n).fnPtr ls).of_none _).bind fun _ => .pure _
    · exact ((TypesObey.all n).qualifiedTy.of_none _).bind fun _ => .pure _
    · exact ((TypesObey.all n).plainTy.of_none _).bind fun _ => .pure _
  · exact ((TypesObey.all n).ty.of_none _).bind fun _ => .pure _

/-- Behind the colon of a predicate there may be nothing more of it. -/
theorem predicate_obeys (n : Nat) : (predicate n).Obeys κ := by
  rw [predicate]
  refine .peek_bind fun t => ?_
  split
  · subst t
    refine .shift_bind (by decide) fun _ => .token_bind (by decide) fun _ => ?_
    exact (lifetimesOrNone_obeys n).bind fun _ => .pure _
  · refine (subject_obeys n).bind fun _ => .token_bind (by decide) fun _ => ?_
    exact (boundsOrNone_obeys n).bind fun _ => .pure _

/-- Behind a comma of a where clause a predicate or the body is expected. -/
theorem whereClause_obeys (n : Nat) : (whereClause n).Obeys κ := by
  rw [whereClause]
  refine .optional_bind (by decide) fun found => ?_
  split
  · exact (Obeys.openList (by decide) (predicate_obeys n) n).bind fun _ => .pure _
  · exact .pure _

/-! ## Attributes -/

/-- The names in the path of an attribute stand behind two colons each. -/
theorem metaNames_obey (n : Nat) : (metaNames n).Obeys κ := by
  induction n generalizing κ with
  | zero => trivial
  | succ n ih =>
    rw [metaNames]
    have more : (do if ← optional .pathSep Expected.metaName then metaNames n :
        Reading Unit).Obeys none := by
      refine .optional_bind (by decide) fun found => ?_
      split
      · exact ih
      · exact .pure _
    refine .peek_bind fun t => ?_
    split
    · exact .shift_bind (by decide) fun _ => more
    · exact .shift_bind (by decide) fun _ => more
    · trivial

/-- Two colons may stand in front of the path of an attribute. -/
theorem metaPath_obeys (n : Nat) : (metaPath n).Obeys κ := by
  rw [metaPath]
  refine .mark_bind fun first => .optional_bind (by decide) fun _ => ?_
  exact (metaNames_obey n).bind fun _ => .textFrom_bind fun _ => .pure _

/-- Behind the path of an attribute stands a group, an equals sign with trees, or nothing. -/
theorem metaForm_obeys (n : Nat) : (metaForm n).Obeys κ := by
  rw [metaForm]
  have list : ∀ t, (do
      let first ← mark
      group n
      return MetaForm.list (inside (← textFrom first)) (Extent.mk first (← mark)) :
        Reading (MetaForm Extent)).Obeys (some t) := fun _ =>
    .mark_bind fun first => (group_obeys n).bind fun _ => .textFrom_bind fun _ =>
          .mark_bind fun _ =>
      .pure _
  refine .peek_bind fun t => ?_
  split
  · exact list _
  · exact list _
  · exact list _
  · exact .shift_bind (.inl rfl) fun _ => (someTrees_obey [] n).bind fun _ => .pure _
  · exact .pure _

theorem metaItem_obeys (n : Nat) : (metaItem n).Obeys κ := by
  rw [metaItem]
  refine .mark_bind fun first => (metaPath_obeys n).bind fun _ => ?_
  exact (metaForm_obeys n).bind fun _ => .mark_bind fun _ => .pure _

theorem bracketed_obeys (style : AttrStyle) {after : Expectation} (h : Allows .rsqb after)
    (first n : Nat) : (bracketed style after first n).Obeys κ := by
  rw [bracketed]
  refine .token_bind (by decide) fun _ => (metaItem_obeys n).bind fun _ => ?_
  exact .token_bind h fun _ => .textFrom_bind fun _ => .mark_bind fun _ => .pure _

theorem docAttribute_obeys (style : AttrStyle) {t : Terminal} {after : Expectation}
    (h : Allows t after) : (docAttribute style after).Obeys (some t) := by
  rw [docAttribute]
  exact .mark_bind fun _ => .shift_bind h fun _ => .mark_bind fun _ => .pure _

/-- Behind an attribute another one or an item is expected. -/
theorem attributes_obey (n : Nat) : (attributes n).Obeys κ := by
  induction n generalizing κ with
  | zero => trivial
  | succ n ih =>
    rw [attributes]
    refine .peek_bind fun t => ?_
    split
    · exact (docAttribute_obeys .doc (by decide)).bind fun _ => ih.bind fun _ => .pure _
    · refine .mark_bind fun first => .shift_bind (by decide) fun _ => ?_
      exact (bracketed_obeys .outer (by decide) first n).bind fun _ => ih.bind fun _ => .pure _
    · exact .pure _

/-- Behind a hash in a body a bang is expected, too. -/
theorem bodyAttributes_obey (n : Nat) : (bodyAttributes n).Obeys κ := by
  induction n generalizing κ with
  | zero => trivial
  | succ n ih =>
    rw [bodyAttributes]
    refine .peek_bind fun t => ?_
    split
    · exact (docAttribute_obeys .inner (by decide)).bind fun _ => ih.bind fun _ => .pure _
    · refine .mark_bind fun first => .shift_bind (by decide) fun _ => .optional_bind
        (by decide) fun inner => ?_
      split
      · exact (bracketed_obeys .inner (by decide) first n).bind fun _ => ih.bind fun _ => .pure _
      · refine (bracketed_obeys .outer (by decide) first n).bind fun _ => ?_
        exact (attributes_obey n).bind fun _ => .pure _
    · exact (attributes_obey n).bind fun _ => .pure _

/-! ## Items -/

section Items

variable (attrs : List (Attribute Extent)) (first n : Nat)

/-- An item that is kept as it is written ends with a semicolon. -/
theorem verbatimRest_obeys (kind : ItemKind) : (verbatimRest kind attrs first n).Obeys κ := by
  rw [verbatimRest]
  refine (trees_obey _ n).bind fun _ => .token_bind (by decide) fun _ => ?_
  exact .textFrom_bind fun _ => .mark_bind fun _ => .pure _

/-- The path of a macro ends with a bang. -/
theorem macroPath_obeys : (macroPath n).Obeys κ := by
  induction n generalizing κ with
  | zero => trivial
  | succ n ih =>
    rw [macroPath]
    refine .token_bind (by decide) fun _ => .optional_bind (by decide) fun more => ?_
    split
    · exact ih
    · exact .token_bind (by decide) fun _ => .pure _

theorem macroCall_obeys : (macroCall attrs n).Obeys κ := by
  rw [macroCall]
  refine .mark_bind fun first => (macroPath_obeys n).bind fun _ => (group_obeys n).bind fun _ => ?_
  exact .optional_bind (by decide) fun _ => .textFrom_bind fun _ => .mark_bind fun _ => .pure _

/-- Any qualifiers may stand in front of `fn`, in any order. -/
theorem qualifiers_obey : (qualifiers n).Obeys κ := by
  induction n generalizing κ with
  | zero => trivial
  | succ n ih =>
    rw [qualifiers]
    refine .peek_bind fun t => ?_
    split
    · exact .shift_bind (by decide) fun _ => ih
    · exact .shift_bind (by decide) fun _ => ih
    · exact .shift_bind (by decide) fun _ => ih
    · exact .shift_bind (by decide) fun _ => .optional_bind (by decide) fun _ => ih
    · exact .pure _

theorem paramText_obeys : (paramText n).Obeys κ := by
  rw [paramText]
  refine .peek_bind fun t => ?_
  split
  · exact .mark_bind fun first => (group_obeys n).bind fun _ => .textFrom first
  · trivial

theorem returnText_obeys : (returnText n).Obeys κ := by
  rw [returnText]
  refine .peek_bind fun t => ?_
  split
  · subst t
    refine .mark_bind fun first => .shift_bind (by decide) fun _ => ?_
    exact (TypesObey.all n).ty.bind fun _ => .textFrom_bind fun _ => .pure _
  · exact .pure _

/-- A method ends with a semicolon or with a block. -/
theorem methodBody_obeys : (methodBody n).Obeys κ := by
  rw [methodBody]
  refine .peek_bind fun t => ?_
  split
  · exact .shift (by decide)
  · exact .mark_bind fun first => (group_obeys n).bind fun _ => .textFrom first
  · trivial

/-- A method is read from its qualifiers up to its body. -/
theorem method_obeys : (method attrs first n).Obeys κ := by
  rw [method]
  refine (qualifiers_obey n).bind fun _ => .token_bind (by decide) fun _ => ?_
  refine .token_bind (by decide) fun _ => .textFrom_bind fun _ => (params_obey n).bind fun _ => ?_
  refine (paramText_obeys n).bind fun _ => (returnText_obeys n).bind fun _ => ?_
  refine (whereClause_obeys n).bind fun _ => (methodBody_obeys n).bind fun _ => ?_
  exact .mark_bind fun _ => .pure _

/-- What starts with `const` is a constant if a name stands behind it. -/
theorem constOrMethod_obeys : (constOrMethod attrs first n).Obeys κ := by
  rw [constOrMethod]
  refine .token_bind (by decide) fun _ => .peek_bind fun t => ?_
  split
  · exact .shift_bind (.inl rfl) fun _ => verbatimRest_obeys attrs first n _
  · exact method_obeys attrs first n

/-- A member is told by its first token. -/
theorem member_obeys : (member attrs first n).Obeys κ := by
  rw [member]
  refine .peek_bind fun t => ?_
  split
  · refine .shift_bind (by decide) fun _ => .token_bind (.inl rfl) fun _ => ?_
    exact verbatimRest_obeys attrs first n _
  · exact constOrMethod_obeys attrs first n
  · exact method_obeys attrs first n

/-- In front of a member `pub` may stand, and a group behind that. -/
theorem item_obeys : (item attrs n).Obeys κ := by
  rw [item]
  refine .peek_bind fun t => ?_
  split
  · exact macroCall_obeys attrs n
  · refine .mark_bind fun first => .shift_bind (by decide) fun _ => .peek_bind fun t => ?_
    split
    · exact (group_obeys n).bind fun _ => member_obeys attrs first n
    · exact member_obeys attrs first n
  · exact .mark_bind fun first => member_obeys attrs first n

/-- Items are read up to the brace, unless attributes stand in front of it. -/
theorem items_obey : (items attrs n).Obeys κ := by
  induction n generalizing attrs κ with
  | zero => trivial
  | succ n ih =>
    rw [items]
    refine .peek_bind fun t => ?_
    split
    · rename_i hclose
      obtain rfl : t = .rbrace := by simpa using (Bool.and_eq_true_iff.mp hclose).2
      exact .shift_bind (by decide) fun _ => .pure _
    · refine (item_obeys attrs n).bind fun _ => (attributes_obey n).bind fun _ => ?_
      exact (ih _).bind fun _ => .pure _

end Items

/-! ## Blocks -/

/-- The type that a trait is implemented for stands behind `for`. -/
theorem forTy_obeys (n : Nat) : (forTy n).Obeys κ := by
  rw [forTy]
  refine .optional_bind (by decide) fun found => ?_
  split
  · exact .mark_bind fun _ => (TypesObey.all n).ty.bind fun _ => .mark_bind fun _ => .pure _
  · exact .pure _

/-- A block is read up to its last brace, behind which nothing is expected. -/
theorem implBlock_obeys (n : Nat) : (implBlock n).Obeys κ := by
  rw [implBlock]
  refine .mark_bind fun first => (attributes_obey n).bind fun _ => .optional_bind
    (by decide) fun _ => ?_
  refine .token_bind (by decide) fun _ => (params_obey n).bind fun _ => .mark_bind fun _ => ?_
  refine (TypesObey.all n).bareTy.bind fun _ => .textFrom_bind fun _ => .mark_bind fun _ => ?_
  refine (forTy_obeys n).bind fun self => (whereClause_obeys n).bind fun _ => ?_
  refine .token_bind (by decide) fun _ => (bodyAttributes_obey n).bind fun _ => ?_
  refine (items_obey _ n).bind fun _ => .textFrom_bind fun _ => .mark_bind fun _ => ?_
  split <;> exact .pure _

end Grammar
end ShadowImpl
