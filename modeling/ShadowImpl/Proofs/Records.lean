import ShadowImpl.Syntax.Record

/-!
# Trees as records

The record of a tree is read back as the same tree, with no node misplaced, so that it can be
printed and projected: what these two refuse is never found in a tree that was read from a text.
-/

namespace ShadowImpl

/-! ## Reading what was written -/

namespace Loose

variable {α β γ : Type}

/-- A tree without misplaced nodes. -/
def sound (a : α) : Loose α :=
  ⟨a, [], []⟩

/-- Applying a function misplaces nothing. -/
@[simp] theorem map_sound (f : α → β) (a : α) : (sound a).map f = sound (f a) := rfl

/-- Two trees without misplaced nodes make one without. -/
@[simp] theorem both_sound (f : α → β → γ) (a : α) (b : β) :
    both f (sound a) (sound b) = sound (f a b) := rfl

@[simp] theorem sheltered_sound (a : α) : (sound a).sheltered = sound a := rfl

@[simp] theorem all_nil : all ([] : List (Loose α)) = sound [] := rfl

/-- A list has no misplaced node if neither its head nor its tail has one. -/
@[simp] theorem all_cons_sound (a : α) {as : List (Loose α)} {bs : List α} (h : all as = sound bs) :
    all (sound a :: as) = sound (a :: bs) := by
  rw [all, h, both_sound]

end Loose

namespace Record

open Loose

/-- The first field of a name is the one that is found. -/
@[simp] theorem field_cons (k name : String) (f : Field) (fields : List Field) :
    (node k (f :: fields)).field name =
      if f.name = name then f.value else (node k fields).field name := by
  by_cases h : f.name = name <;> simp [field, h]

@[simp] theorem asText_text (s : String) : (text s).asText = s := rfl

@[simp] theorem asFlag_flag (b : Bool) : (flag b).asFlag = b := rfl

@[simp] theorem asList_list (rs : List Record) : (list rs).asList = rs := rfl

/-- A lifetime is read back as its name. -/
@[simp] theorem asLifetime_record (l : Lifetime) : l.record.asLifetime = l := by
  simp [Lifetime.record, asLifetime]

/-- A lifetime that is not there is read back as none. -/
@[simp] theorem asLifetime?_record (l : Option Lifetime) :
    (recordOption Lifetime.record l).asLifetime? = l := by
  cases l with
  | none => rfl
  | some l =>
    show some l.record.asLifetime = some l
    rw [asLifetime_record]

/-- The lifetimes of a binder are read back in their order. -/
@[simp] theorem asLifetimes_record (ls : List Lifetime) :
    (recordLifetimes ls).asLifetimes = ls := by
  have hid : asLifetime ∘ Lifetime.record = id := funext asLifetime_record
  simp [recordLifetimes, asLifetimes, hid]

/-- A text that is not there is read back as none. -/
@[simp] theorem asText?_record (s : Option String) : (recordOption .text s).asText? = s := by
  cases s <;> rfl

/-- A record is at least as deep as itself. -/
theorem depth_pos (r : Record) : 0 < r.depth := by
  cases r <;> simp [depth]

/-! ### What each kind of node is read as -/

section Kinds

variable (n : Nat)

attribute [local simp] asTy asPath asArgs asGenericArg asBound kind

/-- A path that a type holds shelters what is misplaced in it. -/
theorem asTy_pathType (p : Record) :
    asTy (n + 1) (node "PathType" [⟨"path", p⟩, ⟨"qself", absent⟩]) =
      (asPath n p).sheltered.map .path := by
  simp

/-- Of a qualified type both paths shelter what is misplaced in them, the type in front does not. -/
theorem asTy_qualified (p self asTrait : Record) :
    asTy (n + 1) (node "PathType" [⟨"path", p⟩,
        ⟨"qself", node "QSelf" [⟨"ty", self⟩, ⟨"as_trait", asTrait⟩]⟩]) =
      both (fun (self, asTrait) path => .qualified self asTrait path)
        (both Prod.mk (asTy n self) (asPath? n asTrait).sheltered) (asPath n p).sheltered := by
  simp

/-- A reference holds one type, besides a lifetime and a flag. -/
theorem asTy_refType (l b elem : Record) :
    asTy (n + 1) (node "RefType" [⟨"lifetime", l⟩, ⟨"mutable", b⟩, ⟨"elem", elem⟩]) =
      (asTy n elem).map (.ref l.asLifetime? b.asFlag) := by
  simp

theorem asTy_ptrType (b elem : Record) :
    asTy (n + 1) (node "PtrType" [⟨"mutable", b⟩, ⟨"elem", elem⟩]) =
      (asTy n elem).map (.ptr b.asFlag) := by
  simp

/-- The elements of a tuple are types. -/
theorem asTy_tupleType (elems : Record) :
    asTy (n + 1) (node "TupleType" [⟨"elems", elems⟩]) = (asTys n elems).map .tuple := by
  simp

theorem asTy_parenType (elem : Record) :
    asTy (n + 1) (node "ParenType" [⟨"elem", elem⟩]) = (asTy n elem).map .paren := by
  simp

theorem asTy_sliceType (elem : Record) :
    asTy (n + 1) (node "SliceType" [⟨"elem", elem⟩]) = (asTy n elem).map .slice := by
  simp

/-- The length of an array is a text. -/
theorem asTy_arrayType (elem length : Record) :
    asTy (n + 1) (node "ArrayType" [⟨"elem", elem⟩, ⟨"length", length⟩]) =
      (asTy n elem).map fun t => .array t length.asText := by
  simp

theorem asTy_neverType : asTy (n + 1) (node "NeverType" []) = sound .never := by
  simp [sound]

theorem asTy_implTraitType (bounds : Record) :
    asTy (n + 1) (node "ImplTraitType" [⟨"bounds", bounds⟩]) =
      (asBounds n bounds).map .implTrait := by
  simp

theorem asTy_dynTraitType (bounds : Record) :
    asTy (n + 1) (node "DynTraitType" [⟨"bounds", bounds⟩]) =
      (asBounds n bounds).map .dynTrait := by
  simp

/-- The parameters of a function pointer are records of their own, with a name and a type. -/
theorem asTy_bareFnType (ls b abi inputs output : Record) :
    asTy (n + 1) (node "BareFnType" [⟨"lifetimes", ls⟩, ⟨"unsafe", b⟩, ⟨"abi", abi⟩,
        ⟨"inputs", inputs⟩, ⟨"output", output⟩]) =
      both (.fnPtr ls.asLifetimes b.asFlag abi.asText?)
        (all (inputs.asList.map fun i =>
          (asTy n (i.field "ty")).map (FnArg.mk (i.field "name").asText?)))
        (asTy? n output) := by
  simp

/-- The segments of a path are records of their own, with a name and arguments. -/
theorem asPath_path (segments b : Record) :
    asPath (n + 1) (node "Path" [⟨"segments", segments⟩, ⟨"leading_colon", b⟩]) =
      (all (segments.asList.map fun s =>
        (asArgs n (s.field "arguments")).map (Segment.mk (s.field "ident").asText))).map
          fun segments => ⟨segments, b.asFlag⟩ := by
  simp

/-- A segment without arguments, at any depth. -/
theorem asArgs_absent : asArgs n absent = sound none := by
  cases n <;> simp [sound]

theorem asArgs_angleArgs (args b : Record) :
    asArgs (n + 1) (node "AngleArgs" [⟨"args", args⟩, ⟨"turbofish", b⟩]) =
      (all (args.asList.map (asGenericArg n))).map fun args => some (.angle args b.asFlag) := by
  simp

/-- The arguments of a call are read once its inputs and its output are. -/
theorem asArgs_parenArgs {inputs output : Record} {tys : List Ty} {ty : Option Ty}
    (hin : asTys n inputs = sound tys) (hout : asTy? n output = sound ty) :
    asArgs (n + 1) (node "ParenArgs" [⟨"inputs", inputs⟩, ⟨"output", output⟩]) =
      sound (some (.paren tys ty)) := by
  simp [hin, hout]
  rfl

/-- A lifetime is an argument of its own kind. -/
theorem asGenericArg_lifetime (l : Lifetime) :
    asGenericArg (n + 1) l.record = sound (.lifetime l) := by
  have hl := asLifetime_record l
  rw [Lifetime.record] at hl ⊢
  simp [hl, sound]

/-- A name that is bound to a type. -/
theorem asGenericArg_assocBinding (ident ty : Record) :
    asGenericArg (n + 1) (node "AssocBinding" [⟨"ident", ident⟩, ⟨"ty", ty⟩]) =
      (asTy n ty).map (.binding ident.asText) := by
  simp

/-- A name that is bounded. -/
theorem asGenericArg_assocConstraint (ident bounds : Record) :
    asGenericArg (n + 1) (node "AssocConstraint" [⟨"ident", ident⟩, ⟨"bounds", bounds⟩]) =
      (asBounds n bounds).map (.constraint ident.asText) := by
  simp

theorem asGenericArg_constArg (value : Record) :
    asGenericArg (n + 1) (node "ConstArg" [⟨"text", value⟩]) = sound (.const value.asText) := by
  simp [sound]

theorem asBound_lifetime (l : Lifetime) : asBound (n + 1) l.record = sound (.lifetime l) := by
  have hl := asLifetime_record l
  rw [Lifetime.record] at hl ⊢
  simp [hl, sound]

/-- Of the bound by a trait only the path holds other nodes. -/
theorem asBound_traitBound (p b ls : Record) :
    asBound (n + 1) (node "TraitBound" [⟨"path", p⟩, ⟨"maybe", b⟩, ⟨"lifetimes", ls⟩]) =
      (asPath n p).map fun p => .trait p b.asFlag ls.asLifetimes := by
  simp

end Kinds

/-- Each form of a type has a kind of node of its own. -/
theorem kind_record_mem (t : Ty) : t.record.kind ∈ ["PathType", "RefType", "PtrType", "TupleType",
    "ParenType", "SliceType", "ArrayType", "NeverType", "ImplTraitType", "DynTraitType",
    "BareFnType"] := by
  cases t <;> simp [Ty.record, kind]

/-- A type as a generic argument. -/
theorem asGenericArg_ty {t : Ty} {n : Nat} (h : asTy n t.record = sound t) :
    asGenericArg (n + 1) t.record = sound (.ty t) := by
  have hk := kind_record_mem t
  simp only [List.mem_cons, List.not_mem_nil, or_false] at hk
  rcases hk with hk | hk | hk | hk | hk | hk | hk | hk | hk | hk | hk <;>
    simp [asGenericArg, hk, h]

/-! ### Parts that may be left out, and lists -/

theorem Ty.exists_record_eq (t : Ty) : ∃ k fields, t.record = node k fields := by
  cases t <;> exact ⟨_, _, rfl⟩

/-- A type that may be left out, one step above the type. -/
theorem asTy?_record {o : Option Ty} {n : Nat} (hn : 0 < n)
    (h : ∀ t, o = some t → asTy (n - 1) t.record = sound t) : asTy? n (recordTy? o) = sound o := by
  obtain ⟨n, rfl⟩ : ∃ m, n = m + 1 := ⟨n - 1, by omega⟩
  cases o with
  | none => rfl
  | some t =>
    obtain ⟨k, fields, hk⟩ := Ty.exists_record_eq t
    have ht : asTy n t.record = sound t := h t rfl
    rw [recordTy?]
    rw [hk] at ht ⊢
    show (asTy n (node k fields)).map some = _
    rw [ht, map_sound]

/-- A path that may be left out, one step above the path. -/
theorem asPath?_record {o : Option Path} {n : Nat} (hn : 0 < n)
    (h : ∀ p, o = some p → asPath (n - 1) p.record = sound p) :
    asPath? n (recordPath? o) = sound o := by
  obtain ⟨n, rfl⟩ : ∃ m, n = m + 1 := ⟨n - 1, by omega⟩
  cases o with
  | none => rfl
  | some p =>
    have hp : asPath n p.record = sound p := h p rfl
    rcases p with ⟨segments, rooted⟩
    show (asPath n (Path.record ⟨segments, rooted⟩)).map some = _
    rw [hp, map_sound]

/-- Types in a list are one step below it. -/
theorem asTys_list {n : Nat} (hn : 0 < n) (rs : List Record) :
    asTys n (list rs) = all (rs.map (asTy (n - 1))) := by
  obtain ⟨n, rfl⟩ : ∃ m, n = m + 1 := ⟨n - 1, by omega⟩
  rfl

theorem asBounds_list {n : Nat} (hn : 0 < n) (rs : List Record) :
    asBounds n (list rs) = all (rs.map (asBound (n - 1))) := by
  obtain ⟨n, rfl⟩ : ∃ m, n = m + 1 := ⟨n - 1, by omega⟩
  rfl

/-! ### Reading back -/

-- Every rule that a record is read with goes one step down, and no more than two rules stand
-- between a record and its parts, so that four steps for each level of nesting are enough.
mutual

/-- A type is read back as it was, given four steps for each level of its record. -/
theorem asTy_record (t : Ty) {n : Nat} (h : 4 * t.record.depth ≤ n) :
    asTy n t.record = sound t := by
  -- Each record is deeper than those in its fields, which four steps less are left for.
  obtain ⟨n, rfl⟩ : ∃ m, n = m + 1 := ⟨n - 1, by have := t.record.depth_pos; omega⟩
  cases t with
  | path p =>
    simp only [Ty.record, depth, depthOfFields] at h
    rw [Ty.record, asTy_pathType, asPath_record p (by omega), sheltered_sound, map_sound]
  | qualified self asTrait p =>
    simp only [Ty.record, depth, depthOfFields] at h
    have htrait : asPath? n (recordPath? asTrait) = sound asTrait := by
      apply asPath?_record (by omega)
      rintro q rfl
      rw [recordPath?] at h
      exact asPath_record q (by omega)
    rw [Ty.record, asTy_qualified, htrait, asPath_record p (by omega),
      asTy_record self (by omega)]
    rfl
  | ref l mutable elem =>
    simp only [Ty.record, depth, depthOfFields] at h
    rw [Ty.record, asTy_refType, asTy_record elem (by omega), asLifetime?_record, map_sound,
      asFlag_flag]
  | ptr mutable elem =>
    simp only [Ty.record, depth, depthOfFields] at h
    rw [Ty.record, asTy_ptrType, asTy_record elem (by omega), map_sound, asFlag_flag]
  | tuple elems =>
    simp only [Ty.record, depth, depthOfFields] at h
    rw [Ty.record, asTy_tupleType, asTys_list (by omega), asTys_record elems (by omega), map_sound]
  | paren elem =>
    simp only [Ty.record, depth, depthOfFields] at h
    rw [Ty.record, asTy_parenType, asTy_record elem (by omega), map_sound]
  | slice elem =>
    simp only [Ty.record, depth, depthOfFields] at h
    rw [Ty.record, asTy_sliceType, asTy_record elem (by omega), map_sound]
  | array elem length =>
    simp only [Ty.record, depth, depthOfFields] at h
    rw [Ty.record, asTy_arrayType, asTy_record elem (by omega), map_sound, asText_text]
  | never => rw [Ty.record, asTy_neverType]
  | implTrait bounds =>
    simp only [Ty.record, depth, depthOfFields] at h
    rw [Ty.record, asTy_implTraitType, asBounds_list (by omega),
      asBounds_record bounds (by omega), map_sound]
  | dynTrait bounds =>
    simp only [Ty.record, depth, depthOfFields] at h
    rw [Ty.record, asTy_dynTraitType, asBounds_list (by omega),
      asBounds_record bounds (by omega), map_sound]
  | fnPtr lifetimes isUnsafe abi inputs output =>
    simp only [Ty.record, depth, depthOfFields] at h
    have houtput : asTy? n (recordTy? output) = sound output := by
      apply asTy?_record (by omega)
      rintro t rfl
      rw [recordTy?] at h
      exact asTy_record t (by omega)
    rw [Ty.record, asTy_bareFnType, houtput, asList_list, asFnArgs_record inputs (by omega),
      both_sound, asLifetimes_record, asText?_record, asFlag_flag]
termination_by sizeOf t

/-- Types in a row are read back one by one. -/
theorem asTys_record (ts : List Ty) {n : Nat} (h : 4 * depthOfList (recordTys ts) ≤ n) :
    all ((recordTys ts).map (asTy n)) = sound ts := by
  match ts with
  | [] => rfl
  | t :: ts =>
    simp only [recordTys, depthOfList] at h
    rw [recordTys, List.map_cons, asTy_record t (by omega)]
    exact all_cons_sound t (asTys_record ts (by omega))
termination_by sizeOf ts

/-- A parameter is read back with its name, if it has one. -/
theorem asFnArgs_record (args : List FnArg) {n : Nat}
    (h : 4 * depthOfList (recordFnArgs args) ≤ n) : all ((recordFnArgs args).map fun i =>
      (asTy n (i.field "ty")).map (FnArg.mk (i.field "name").asText?)) = sound args := by
  match args with
  | [] => rfl
  | ⟨name, t⟩ :: args =>
    simp only [recordFnArgs, FnArg.record, depthOfList, depth, depthOfFields] at h
    rw [recordFnArgs, List.map_cons, FnArg.record]
    simp only [field_cons, ↓reduceIte, String.reduceEq]
    rw [asText?_record, asTy_record t (by omega)]
    exact all_cons_sound _ (asFnArgs_record args (by omega))
termination_by sizeOf args

/-- A path is read back as it was. -/
theorem asPath_record (p : Path) {n : Nat} (h : 4 * p.record.depth ≤ n) :
    asPath n p.record = sound p := by
  match p with
  | ⟨segments, rooted⟩ =>
    simp only [Path.record, depth, depthOfFields] at h
    obtain ⟨n, rfl⟩ : ∃ m, n = m + 1 := ⟨n - 1, by omega⟩
    rw [Path.record, asPath_path, asList_list, asSegments_record segments (by omega), map_sound,
      asFlag_flag]
termination_by sizeOf p

/-- A segment is read back with its arguments, if it has some. -/
theorem asSegments_record (segments : List Segment) {n : Nat}
    (h : 4 * depthOfList (recordSegments segments) ≤ n) :
    all ((recordSegments segments).map fun s =>
      (asArgs n (s.field "arguments")).map (Segment.mk (s.field "ident").asText)) =
        sound segments := by
  match segments with
  | [] => rfl
  | ⟨ident, none⟩ :: segments =>
    simp only [recordSegments, depthOfList] at h
    rw [recordSegments, List.map_cons, Segment.record]
    simp only [field_cons, ↓reduceIte, String.reduceEq]
    rw [recordArgs?, asArgs_absent]
    exact all_cons_sound _ (asSegments_record segments (by omega))
  | ⟨ident, some args⟩ :: segments =>
    simp only [recordSegments, Segment.record, recordArgs?, depthOfList, depth, depthOfFields] at h
    rw [recordSegments, List.map_cons, Segment.record]
    simp only [field_cons, ↓reduceIte, String.reduceEq]
    rw [recordArgs?, asArgs_record args (by omega)]
    exact all_cons_sound _ (asSegments_record segments (by omega))
termination_by sizeOf segments

/-- Arguments are read back as arguments that are there. -/
theorem asArgs_record (args : PathArgs) {n : Nat} (h : 4 * args.record.depth ≤ n) :
    asArgs n args.record = sound (some args) := by
  obtain ⟨n, rfl⟩ : ∃ m, n = m + 1 := ⟨n - 1, by have := args.record.depth_pos; omega⟩
  cases args with
  | angle args turbofish =>
    simp only [PathArgs.record, depth, depthOfFields] at h
    rw [PathArgs.record, asArgs_angleArgs, asList_list, asGenericArgs_record args (by omega),
      map_sound, asFlag_flag]
  | paren inputs output =>
    simp only [PathArgs.record, depth, depthOfFields] at h
    have houtput : asTy? n (recordTy? output) = sound output := by
      apply asTy?_record (by omega)
      rintro t rfl
      rw [recordTy?] at h
      exact asTy_record t (by omega)
    have hinputs : asTys n (list (recordTys inputs)) = sound inputs := by
      rw [asTys_list (by omega)]
      exact asTys_record inputs (by omega)
    rw [PathArgs.record, asArgs_parenArgs n hinputs houtput]
termination_by sizeOf args

/-- An argument takes one step more, for it may be a type. -/
theorem asGenericArg_record (arg : GenericArg) {n : Nat} (h : 4 * arg.record.depth + 1 ≤ n) :
    asGenericArg n arg.record = sound arg := by
  obtain ⟨n, rfl⟩ : ∃ m, n = m + 1 := ⟨n - 1, by omega⟩
  cases arg with
  | ty t =>
    rw [GenericArg.record] at h ⊢
    exact asGenericArg_ty (asTy_record t (by omega))
  | lifetime l => rw [GenericArg.record, asGenericArg_lifetime]
  | binding ident t =>
    simp only [GenericArg.record, depth, depthOfFields] at h
    rw [GenericArg.record, asGenericArg_assocBinding, asTy_record t (by omega), map_sound,
      asText_text]
  | constraint ident bounds =>
    simp only [GenericArg.record, depth, depthOfFields] at h
    rw [GenericArg.record, asGenericArg_assocConstraint, asBounds_list (by omega),
      asBounds_record bounds (by omega), map_sound, asText_text]
  | const value => rw [GenericArg.record, asGenericArg_constArg, asText_text]
termination_by sizeOf arg

theorem asGenericArgs_record (args : List GenericArg) {n : Nat}
    (h : 4 * depthOfList (recordGenericArgs args) + 1 ≤ n) :
    all ((recordGenericArgs args).map (asGenericArg n)) = sound args := by
  match args with
  | [] => rfl
  | arg :: args =>
    simp only [recordGenericArgs, depthOfList] at h
    rw [recordGenericArgs, List.map_cons, asGenericArg_record arg (by omega)]
    exact all_cons_sound arg (asGenericArgs_record args (by omega))
termination_by sizeOf args

/-- A bound is read back as it was. -/
theorem asBound_record (b : Bound) {n : Nat} (h : 4 * b.record.depth ≤ n) :
    asBound n b.record = sound b := by
  obtain ⟨n, rfl⟩ : ∃ m, n = m + 1 := ⟨n - 1, by have := b.record.depth_pos; omega⟩
  cases b with
  | trait p maybe lifetimes =>
    simp only [Bound.record, depth, depthOfFields] at h
    rw [Bound.record, asBound_traitBound, asPath_record p (by omega), map_sound, asFlag_flag,
      asLifetimes_record]
  | lifetime l => rw [Bound.record, asBound_lifetime]
termination_by sizeOf b

theorem asBounds_record (bs : List Bound) {n : Nat} (h : 4 * depthOfList (recordBounds bs) ≤ n) :
    all ((recordBounds bs).map (asBound n)) = sound bs := by
  match bs with
  | [] => rfl
  | b :: bs =>
    simp only [recordBounds, depthOfList] at h
    rw [recordBounds, List.map_cons, asBound_record b (by omega)]
    exact all_cons_sound b (asBounds_record bs (by omega))
termination_by sizeOf bs

end

/-- A type is read back as it was written. -/
theorem ty_record (t : Ty) : t.record.ty = sound t :=
  asTy_record t (by rw [fuel]; omega)

/-- The bounds of a parameter or of a predicate are read back. -/
theorem asBounds_list_record (bs : List Bound) {n : Nat}
    (h : 4 * (list (recordBounds bs)).depth ≤ n) :
    asBounds n (list (recordBounds bs)) = sound bs := by
  rw [depth] at h
  rw [asBounds_list (by omega)]
  exact asBounds_record bs (by omega)

/-- There is enough fuel for each field of a record. -/
theorem depth_lt_fuel {k : String} {r : Record} {fields : List Field}
    (h : r ∈ fields.map Field.value) : 4 * r.depth < (node k fields).fuel := by
  have hfields : r.depth ≤ depthOfFields fields := by
    induction fields with
    | nil => simp at h
    | cons f fields ih =>
      rcases f with ⟨name, value⟩
      simp only [depthOfFields]
      rcases List.mem_cons.mp h with rfl | hmem
      · omega
      · have := ih hmem
        omega
  rw [fuel, depth]
  omega

/-- A predicate is read back as it was written. -/
theorem predicate_record (p : Predicate) : p.record.predicate = .ok (sound p) := by
  cases p with
  | type subject bounds lifetimes =>
    simp only [Predicate.record, predicate, kind, field_cons, ↓reduceIte, String.reduceEq]
    rw [asTy_record subject ?_, asBounds_list_record bounds ?_, both_sound, asLifetimes_record]
    all_goals exact Nat.le_of_lt (depth_lt_fuel (by simp))
  | lifetime l bounds => simp [Predicate.record, predicate, kind, sound]

theorem GenericArg.exists_record_eq (arg : GenericArg) :
    ∃ k fields, arg.record = node k fields := by
  cases arg with
  | ty t => exact Ty.exists_record_eq t
  | lifetime _ | binding _ _ | constraint _ _ | const _ => exact ⟨_, _, rfl⟩

/-- A generic parameter is read back as it was written. -/
theorem genericParam_record (p : GenericParam) : p.record.genericParam = .ok (sound p) := by
  cases p with
  | type ident bounds default =>
    simp only [GenericParam.record, genericParam, kind, field_cons, ↓reduceIte, String.reduceEq]
    rw [asBounds_list_record bounds ?_, asTy?_record ?_ ?_, both_sound, asText_text]
    · exact Nat.zero_lt_of_lt (depth_lt_fuel (r := text ident) (by simp))
    · rintro t rfl
      exact asTy_record t (Nat.le_sub_one_of_lt (depth_lt_fuel (by simp [recordTy?])))
    · exact Nat.le_of_lt (depth_lt_fuel (by simp))
  | lifetime l bounds => simp [GenericParam.record, genericParam, kind, sound]
  | const ident t default =>
    simp only [GenericParam.record, genericParam, kind, field_cons, ↓reduceIte, String.reduceEq]
    rw [asTy_record t (Nat.le_of_lt (depth_lt_fuel (by simp)))]
    cases default with
    | none => rfl
    | some arg =>
      -- A default is told from its record, which says what kind it is.
      have hfuel : 4 * arg.record.depth < (node "ConstParam" [⟨"ident", text ident⟩,
          ⟨"ty", t.record⟩, ⟨"default", arg.record⟩]).fuel := depth_lt_fuel (by simp)
      have harg := asGenericArg_record arg hfuel
      obtain ⟨k, fields, hk⟩ := GenericArg.exists_record_eq arg
      simp only [recordOption]
      rw [hk] at harg ⊢
      simp only [harg]
      rfl

end Record
end ShadowImpl
