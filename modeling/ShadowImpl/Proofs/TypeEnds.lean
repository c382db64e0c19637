import ShadowImpl.Proofs.Endings

/-!
# Ends of types

A type ends with a token as well. It does depend on what stands behind it, as far as that could go
on with the type: a path, arguments, an arrow, another bound. Nothing of the kind stands where a
type ends in front of a block, of a where clause or of a body.
-/

namespace ShadowImpl

namespace Reading

variable {α β : Type} {es : List Expectation} {ends : List Terminal} {certain : Bool} {t : Terminal}
  {e : Expectation}

namespace Closes

/-- What has still to take a token may stand behind anything. -/
theorem anywhere {r : Reading α} (h : Closes es ends false r) : Closes es ends certain r := by
  cases certain with
  | false => exact h
  | true => exact h.weaken

/-- A look at a token that is to be taken. -/
theorem peek_bind {f : Terminal → Reading β} (h : ∀ t, Closes es ends false (f t)) :
    Closes es ends certain (peek >>= f) :=
  .look h

/-- A last look. -/
theorem glance_bind {f : Terminal → Reading β} (heq : ∀ t ∈ ends, ∀ t' ∈ ends, f t = f t')
    (h : ∀ t, Closes es ends true (f t)) : Closes es ends true (peek >>= f) :=
  .glance heq h

/-- A token that is asked for is followed by what is expected behind it. -/
theorem token_bind {f : String → Reading β} (h : ∀ w, Closes es ends (es.contains e) (f w)) :
    Closes es ends certain (Reading.token t e >>= f) := by
  rw [token_bind_eq]
  refine .look fun t' => ?_
  split
  · exact .take h
  · exact .refuse

/-- A token that may be left out is none of the ends if the reading may already be at its end. -/
theorem optional_bind {f : Bool → Reading β} (ht : certain = true → t ∉ ends)
    (hsome : Closes es ends (es.contains e) (f true)) (hnone : Closes es ends certain (f false)) :
    Closes es ends certain (Reading.optional t e >>= f) := by
  rw [optional_bind_eq]
  cases certain with
  | false =>
    refine .look fun t' => ?_
    split
    · exact .take fun _ => hsome
    · exact hnone
  | true =>
    refine .glance (fun t₁ ht₁ t₂ ht₂ => ?_) fun t' => ?_
    · rw [if_neg (ne_of_mem_of_not_mem ht₁ (ht rfl)), if_neg (ne_of_mem_of_not_mem ht₂ (ht rfl))]
    · split
      · exact .take fun _ => hsome
      · exact hnone

/-- Once the last one has been read, nothing matters but that. -/
theorem map {r : Reading α} {f : α → β} (h : Closes es ends certain r) :
    Closes es ends certain (r >>= fun a => pure (f a)) :=
  h.bind fun _ => .done

/-- A list in brackets ends with its bracket. -/
theorem commaList {close : Terminal} {afterComma afterClose : Expectation} {element : Reading α}
    (he : afterClose ∈ es) (k : Nat) :
    Closes es ends false (Reading.commaList close afterComma afterClose element k) := by
  have hclose : es.contains afterClose = true := List.contains_iff_mem.mpr he
  induction k with
  | zero => exact .refuse
  | succ k ih =>
    rw [Reading.commaList]
    refine .optional_bind (by simp) ?_ (.after element fun x => ?_)
    · rw [hclose]
      exact .done
    · refine .optional_bind (by simp) ih.map.anywhere ?_
      refine .token_bind fun _ => ?_
      rw [hclose]
      exact .done

/-- A sum ends where its last summand does, unless a plus sign follows. -/
theorem plusList {afterPlus : Expectation} {element : Reading α} (hplus : .plus ∉ ends)
    (h : Closes es ends false element) (k : Nat) :
    Closes es ends false (Reading.plusList afterPlus element k) := by
  induction k with
  | zero => exact .refuse
  | succ k ih =>
    rw [Reading.plusList]
    refine h.bind fun x => .optional_bind (fun _ => hplus) ih.map.anywhere .done

end Closes
end Reading

namespace Grammar

open Reading

/-- What may stand next at the end of a type in front of its block: nothing that goes on with it. -/
def behindType : List Terminal :=
  [.kwFor, .kwWhere, .lbrace, .semi]

/-- At the depth `n`, all readings that a type can end with end with it, and whatever of
`behindType` stands there is the same to them. -/
structure TypesClose (n : Nat) : Prop where
  ty : Closes [Expected.afterType] behindType false (Grammar.ty n)
  bareTy : Closes [Expected.afterType] behindType false (Grammar.bareTy n)
  plainTy : Closes [Expected.afterType] behindType false (Grammar.plainTy n)
  qualifiedTy : Closes [Expected.afterType] behindType false (Grammar.qualifiedTy n)
  refTy : Closes [Expected.afterType] behindType false (Grammar.refTy n)
  ptrTy : Closes [Expected.afterType] behindType false (Grammar.ptrTy n)
  parenTy : Closes [Expected.afterType] behindType false (Grammar.parenTy n)
  types : Closes [Expected.afterType] behindType false (Grammar.types n)
  bracketTy : Closes [Expected.afterType] behindType false (Grammar.bracketTy n)
  fnPtr : ∀ ls, Closes [Expected.afterType] behindType false (Grammar.fnPtr ls n)
  returnTy : Closes [Expected.afterType] behindType true (Grammar.returnTy n)
  path : Closes [Expected.afterType] behindType false (Grammar.path n)
  segments : Closes [Expected.afterType] behindType false (Grammar.segments n)
  segmentsFrom : ∀ name, Closes [Expected.afterType] behindType true (Grammar.segmentsFrom name n)
  moreSegments : ∀ last, Closes [Expected.afterType] behindType true (Grammar.moreSegments last n)
  segmentArgs : Closes [Expected.afterType] behindType true (Grammar.segmentArgs n)
  angleArgs : Closes [Expected.afterType] behindType false (Grammar.angleArgs n)
  bounds : Closes [Expected.afterType] behindType false (Grammar.bounds n)
  bound : Closes [Expected.afterType] behindType false (Grammar.bound n)
  traitBound : ∀ maybe, Closes [Expected.afterType] behindType false (Grammar.traitBound maybe n)

namespace TypesClose

variable {n : Nat} (ih : TypesClose n)

include ih

/-- A type is closed, whether it is qualified or bare. -/
theorem ty_succ : Closes [Expected.afterType] behindType false (Grammar.ty (n + 1)) := by
  rw [Grammar.ty]
  refine .peek_bind fun t => ?_
  split
  · exact ih.qualifiedTy
  · exact ih.bareTy

theorem bareTy_succ : Closes [Expected.afterType] behindType false (Grammar.bareTy (n + 1)) := by
  rw [Grammar.bareTy]
  refine .peek_bind fun t => ?_
  split
  · exact .after (binder n) fun ls => ih.fnPtr ls
  · exact ih.fnPtr []
  · exact ih.fnPtr []
  · exact ih.fnPtr []
  · exact ih.plainTy

theorem plainTy_succ : Closes [Expected.afterType] behindType false (Grammar.plainTy (n + 1)) := by
  rw [Grammar.plainTy]
  refine .peek_bind fun t => ?_
  split
  · exact ih.path.map
  · exact ih.path.map
  · exact ih.refTy
  · exact ih.ptrTy
  · exact ih.parenTy
  · exact ih.bracketTy
  · exact .map (.shift (by simp))
  · exact .after (shift _) fun _ => ih.bounds.map
  · exact .after (shift _) fun _ => ih.bounds.map
  · exact .refuse

/-- A qualified type ends like its last segment. -/
theorem qualifiedTy_succ :
    Closes [Expected.afterType] behindType false (Grammar.qualifiedTy (n + 1)) := by
  rw [Grammar.qualifiedTy]
  refine .after (token _ _) fun _ => .after (Grammar.ty n) fun self => .after
    (asPath n) fun asTrait => ?_
  exact .after (token _ _) fun _ => .after (token _ _) fun _ => ih.segments.map

/-- A reference ends like the type that is referred to. -/
theorem refTy_succ : Closes [Expected.afterType] behindType false (Grammar.refTy (n + 1)) := by
  rw [Grammar.refTy]
  refine .after (token _ _) fun _ => .peek_bind fun t => ?_
  split
  · exact .after (shift _) fun l => .after (optional _ _) fun mutable => ih.ty.map
  · exact .after (optional _ _) fun mutable => ih.ty.map

theorem ptrTy_succ : Closes [Expected.afterType] behindType false (Grammar.ptrTy (n + 1)) := by
  rw [Grammar.ptrTy]
  refine .after (token _ _) fun _ => .after (optional _ _) fun mutable => ?_
  split
  · exact ih.ty.map
  · exact .after (token _ _) fun _ => ih.ty.map

/-- A tuple ends with its bracket. -/
theorem parenTy_succ : Closes [Expected.afterType] behindType false (Grammar.parenTy (n + 1)) := by
  rw [Grammar.parenTy]
  refine .after (token _ _) fun _ => .optional_bind (by simp) .done ?_
  refine .after (Grammar.ty n) fun head => .optional_bind (by simp) ih.types.map.anywhere ?_
  exact .map (.token (by simp))

omit ih in
theorem types_succ : Closes [Expected.afterType] behindType false (Grammar.types (n + 1)) := by
  rw [Grammar.types]
  exact .commaList (by simp) n

omit ih in
/-- A slice and an array end with their bracket. -/
theorem bracketTy_succ :
    Closes [Expected.afterType] behindType false (Grammar.bracketTy (n + 1)) := by
  rw [Grammar.bracketTy]
  refine .after (token _ _) fun _ => .after (Grammar.ty n) fun elem => .optional_bind
    (by simp) .done ?_
  refine .after (token _ _) fun _ => .after mark fun first => .after (someTrees _ n) fun _ => ?_
  exact .after (textFrom _) fun length => .map (.token (by simp))

/-- A function pointer ends with its parameters or with its output. -/
theorem fnPtr_succ (ls : List Lifetime) :
    Closes [Expected.afterType] behindType false (Grammar.fnPtr ls (n + 1)) := by
  rw [Grammar.fnPtr]
  refine .after (optional _ _) fun isUnsafe => .after fnPtr.fnAbi fun abi => .after
    (token _ _) fun _ => ?_
  exact .after (token _ _) fun _ => (Closes.commaList (by simp) n).bind fun inputs =>
    ih.returnTy.map

/-- Without an arrow there is no output, and what stood in front of it is the end. -/
theorem returnTy_succ : Closes [Expected.afterType] behindType true (Grammar.returnTy (n + 1)) := by
  rw [Grammar.returnTy]
  exact .optional_bind (fun _ => by decide) ih.ty.map.anywhere .done

theorem path_succ : Closes [Expected.afterType] behindType false (Grammar.path (n + 1)) := by
  rw [Grammar.path]
  exact .after (optional _ _) fun rooted => ih.segments.map

/-- A path ends with a name or behind one. -/
theorem segments_succ :
    Closes [Expected.afterType] behindType false (Grammar.segments (n + 1)) := by
  rw [Grammar.segments]
  exact .bind (.token (by simp)) fun name => ih.segmentsFrom name

theorem segmentsFrom_succ (name : String) :
    Closes [Expected.afterType] behindType true (Grammar.segmentsFrom name (n + 1)) := by
  rw [Grammar.segmentsFrom]
  exact ih.segmentArgs.bind fun args => ih.moreSegments ⟨name, args⟩

/-- Without two colons the path is at its end. -/
theorem moreSegments_succ (last : Segment) :
    Closes [Expected.afterType] behindType true (Grammar.moreSegments last (n + 1)) := by
  rw [Grammar.moreSegments]
  refine .optional_bind (fun _ => by decide) (.peek_bind fun t => ?_) .done
  split
  · exact ih.angleArgs.bind fun args => ih.moreSegments _
  · exact ih.segments.map

/-- Without a bracket the name is the end of the segment. -/
theorem segmentArgs_succ :
    Closes [Expected.afterType] behindType true (Grammar.segmentArgs (n + 1)) := by
  rw [Grammar.segmentArgs]
  refine .glance_bind (fun t ht t' ht' => ?_) fun t => ?_
  · simp only [behindType, List.mem_cons, List.not_mem_nil, or_false] at ht ht'
    rcases ht with rfl | rfl | rfl | rfl <;> rcases ht' with rfl | rfl | rfl | rfl <;> rfl
  · split
    · exact ih.angleArgs.map.anywhere
    · exact .after (shift _) fun _ => ih.types.bind fun inputs => ih.returnTy.map
    · exact .done

omit ih in
theorem angleArgs_succ :
    Closes [Expected.afterType] behindType false (Grammar.angleArgs (n + 1)) := by
  rw [Grammar.angleArgs]
  exact .after (token _ _) fun _ => .commaList (by simp) n

theorem bounds_succ : Closes [Expected.afterType] behindType false (Grammar.bounds (n + 1)) := by
  rw [Grammar.bounds]
  exact .plusList (by decide) ih.bound n

theorem bound_succ : Closes [Expected.afterType] behindType false (Grammar.bound (n + 1)) := by
  rw [Grammar.bound]
  refine .peek_bind fun t => ?_
  split
  · exact .map (.shift (by simp))
  · exact .after (shift _) fun _ => ih.traitBound true
  · exact ih.traitBound false

/-- A bound by a trait ends like the path of the trait. -/
theorem traitBound_succ (maybe : Bool) :
    Closes [Expected.afterType] behindType false (Grammar.traitBound maybe (n + 1)) := by
  rw [Grammar.traitBound]
  refine .peek_bind fun t => ?_
  split
  · exact .after (binder n) fun ls => ih.path.map
  · exact ih.path.map

omit ih in
/-- All readings of types are closed, by induction on the depth. -/
theorem all (n : Nat) : TypesClose n := by
  induction n with
  | zero => constructor <;> intros <;> exact .refuse
  | succ n ih =>
    exact ⟨ih.ty_succ, ih.bareTy_succ, ih.plainTy_succ, ih.qualifiedTy_succ,
      ih.refTy_succ, ih.ptrTy_succ, ih.parenTy_succ, types_succ, bracketTy_succ, ih.fnPtr_succ,
      ih.returnTy_succ, ih.path_succ, ih.segments_succ, ih.segmentsFrom_succ, ih.moreSegments_succ,
      ih.segmentArgs_succ, angleArgs_succ, ih.bounds_succ, ih.bound_succ, ih.traitBound_succ⟩

end TypesClose
end Grammar
end ShadowImpl
