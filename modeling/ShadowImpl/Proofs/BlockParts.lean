import ShadowImpl.Proofs.Unmarked

/-!
# A block around one of its methods

A block is read up to the body of a method, then the body is, and then the rest. Here the reading of
a block is taken apart in this way and put together again.
-/

namespace ShadowImpl.Grammar

open Reading

variable {β : Type} {c : β} {s s' s₁ s₂ : Scan} {n k first : Nat}
    {attrs left : List (Attribute Extent)}
  {i : Item Extent} {is js : List (Item Extent)} {m m₀ : Method Extent} {b b₀ : ImplBlock Extent}

/-! ## Methods -/

/-- A method up to its body. -/
def methodHead (attrs : List (Attribute Extent)) (first n : Nat) : Reading (Method Extent) := do
  qualifiers n
  let _ ← token .kwFn Expected.name
  let name ← token .ident Expected.afterMethodName
  let head ← textFrom first
  let params ← params n
  let paramText ← paramText n
  let ret ← returnText n
  let clause ← whereClause n
  return ⟨name, attrs, head, ⟨params, clause⟩, paramText, ret, "", ⟨first, first⟩⟩

/-- The method with its body, which ends in front of token number `last`. -/
def withBody (m : Method Extent) (body : String) (last : Nat) : Method Extent :=
  { m with body, place := ⟨m.place.first, last⟩ }

/-- The body of a method. -/
def bodyOf (m : Method Extent) (n : Nat) : Reading (Item Extent) := do
  let body ← methodBody n
  return .method (withBody m body (← mark))

theorem bodyOf_eq_ok : (bodyOf m n).run s = .ok (i, s') ↔
    ∃ body, (methodBody n).run s = .ok (body, s') ∧
    i = .method (withBody m body s'.taken.length) := by
  rw [bodyOf]
  constructor
  · intro h
    obtain ⟨body, s₁, hbody, h⟩ := run_bind_eq_ok.mp h
    obtain ⟨rfl, rfl⟩ : _ = i ∧ s₁ = s' := by simpa using h
    exact ⟨body, hbody, rfl⟩
  · rintro ⟨body, hbody, rfl⟩
    exact run_bind_eq_ok.mpr ⟨body, s', hbody, rfl⟩

theorem method_eq : method attrs first n = methodHead attrs first n >>= fun m => bodyOf m n := by
  simp only [method, methodHead, bodyOf, bind_assoc]
  rfl

/-- A method up to its body, after its visibility. -/
def memberHead (attrs : List (Attribute Extent)) (first n : Nat) : Reading (Method Extent) := do
  match ← peek with
  | .kwType => refuse
  | .kwConst =>
    let _ ← token .kwConst (.ident :: Expected.qualifier)
    if (← peek) = .ident then refuse else methodHead attrs first n
  | _ => methodHead attrs first n

/-- An item that is a method, up to its body. -/
def itemHead (attrs : List (Attribute Extent)) (n : Nat) : Reading (Method Extent) := do
  match ← peek with
  | .ident => refuse
  | .kwPub =>
    let first ← mark
    let _ ← shift Expected.afterPub
    if (← peek) = .lpar then group n
    memberHead attrs first n
  | _ => memberHead attrs (← mark) n

theorem verbatimRest_yields (kind : ItemKind) :
    (verbatimRest kind attrs first n).Yields fun i => ∃ v, i = .verbatim v := by
  rw [verbatimRest]
  exact .bind fun _ => .bind fun _ => fun _ _ => ⟨_, rfl⟩

theorem macroCall_yields : (macroCall attrs n).Yields fun i => ∃ v, i = .verbatim v := by
  rw [macroCall]
  exact .bind fun _ => .bind fun _ => .bind fun _ => .bind fun _ => fun _ _ => ⟨_, rfl⟩

theorem method_iff : (method attrs first n).run s = .ok (i, s') ↔
    ∃ m₀ s₁, (methodHead attrs first n).run s = .ok (m₀, s₁) ∧ (bodyOf m₀ n).run s₁ =
      .ok (i, s') := by
  rw [method_eq, run_bind_eq_ok]

theorem not_method_of_verbatimRest {kind : ItemKind} :
    (verbatimRest kind attrs first n).run s ≠ .ok (.method m, s') := by
  intro h
  obtain ⟨v, hv⟩ := (verbatimRest_yields kind).of_run h
  cases hv

theorem constOrMethod_iff : (constOrMethod attrs first n).run s = .ok (.method m, s') ↔
    ∃ m₀ s₁, (do
      let _ ← token .kwConst (.ident :: Expected.qualifier)
      if (← peek) = .ident then refuse else methodHead attrs first n :
        Reading _).run s = .ok (m₀, s₁) ∧ (bodyOf m₀ n).run s₁ = .ok (.method m, s') := by
  rw [constOrMethod]
  constructor
  · intro h
    obtain ⟨t, r, hnext, ht, h⟩ := run_token_bind_eq_ok.mp h
    rw [run_peek_bind] at h
    -- A name behind `const` makes it an item of its own.
    split at h
    · obtain ⟨_, _, -, h⟩ := run_shift_bind_eq_ok.mp h
      exact absurd h not_method_of_verbatimRest
    · rename_i hident
      obtain ⟨m₀, s₁, hhead, hbody⟩ := method_iff.mp h
      refine ⟨m₀, s₁, run_token_bind_eq_ok.mpr ⟨t, r, hnext, ht, ?_⟩, hbody⟩
      rwa [run_peek_bind, if_neg hident]
  · rintro ⟨m₀, s₁, h, hbody⟩
    obtain ⟨t, r, hnext, ht, h⟩ := run_token_bind_eq_ok.mp h
    rw [run_peek_bind] at h
    split at h
    · simp at h
    · rename_i hident
      refine run_token_bind_eq_ok.mpr ⟨t, r, hnext, ht, ?_⟩
      rw [run_peek_bind, if_neg hident]
      exact method_iff.mpr ⟨m₀, s₁, h, hbody⟩

theorem member_iff : (member attrs first n).run s = .ok (.method m, s') ↔
    ∃ m₀ s₁, (memberHead attrs first n).run s = .ok (m₀, s₁) ∧
      (bodyOf m₀ n).run s₁ = .ok (.method m, s') := by
  rw [member, memberHead]
  simp only [run_peek_bind]
  generalize s.next.kind = κ
  cases κ with
  | kwType =>
    simp only [run_refuse, reduceCtorEq, false_and, exists_false, iff_false]
    intro h
    obtain ⟨_, _, -, h⟩ := run_shift_bind_eq_ok.mp h
    obtain ⟨_, _, -, -, h⟩ := run_token_bind_eq_ok.mp h
    exact not_method_of_verbatimRest h
  | kwConst => exact constOrMethod_iff
  | _ => exact method_iff

/-- An item behind `pub`. -/
theorem public_iff : (do
      let _ ← shift Expected.afterPub
      if (← peek) = .lpar then group n
      member attrs first n : Reading _).run s = .ok (.method m, s') ↔
    ∃ m₀ s₁, (do
      let _ ← shift Expected.afterPub
      if (← peek) = .lpar then group n
      memberHead attrs first n : Reading _).run s = .ok (m₀, s₁) ∧
        (bodyOf m₀ n).run s₁ = .ok (.method m, s') := by
  constructor
  · intro h
    obtain ⟨t, r, hnext, h⟩ := run_shift_bind_eq_ok.mp h
    rw [run_peek_bind] at h
    -- The visibility may be restricted, in parentheses.
    split at h
    · rename_i hlpar
      obtain ⟨⟨⟩, s₂, hgroup, h⟩ := run_bind_eq_ok.mp h
      obtain ⟨m₀, s₁, hhead, hbody⟩ := member_iff.mp h
      refine ⟨m₀, s₁, run_shift_bind_eq_ok.mpr ⟨t, r, hnext, ?_⟩, hbody⟩
      rw [run_peek_bind, if_pos hlpar]
      exact run_bind_eq_ok.mpr ⟨(), s₂, hgroup, hhead⟩
    · rename_i hlpar
      obtain ⟨m₀, s₁, hhead, hbody⟩ := member_iff.mp h
      refine ⟨m₀, s₁, run_shift_bind_eq_ok.mpr ⟨t, r, hnext, ?_⟩, hbody⟩
      rw [run_peek_bind, if_neg hlpar]
      exact hhead
  · rintro ⟨m₀, s₁, h, hbody⟩
    obtain ⟨t, r, hnext, h⟩ := run_shift_bind_eq_ok.mp h
    refine run_shift_bind_eq_ok.mpr ⟨t, r, hnext, ?_⟩
    rw [run_peek_bind] at h ⊢
    split at h
    · rename_i hlpar
      rw [if_pos hlpar]
      obtain ⟨⟨⟩, s₂, hgroup, h⟩ := run_bind_eq_ok.mp h
      exact run_bind_eq_ok.mpr ⟨(), s₂, hgroup, member_iff.mpr ⟨m₀, s₁, h, hbody⟩⟩
    · rename_i hlpar
      rw [if_neg hlpar]
      exact member_iff.mpr ⟨m₀, s₁, h, hbody⟩

/-- An item that is a method is read up to its body, and then the body is. -/
theorem item_iff : (item attrs n).run s = .ok (.method m, s') ↔
    ∃ m₀ s₁, (itemHead attrs n).run s = .ok (m₀, s₁) ∧
      (bodyOf m₀ n).run s₁ = .ok (.method m, s') := by
  rw [item, itemHead]
  simp only [run_peek_bind]
  generalize s.next.kind = κ
  cases κ with
  | ident =>
    simp only [run_refuse, reduceCtorEq, false_and, exists_false, iff_false]
    intro h
    obtain ⟨v, hv⟩ := macroCall_yields.of_run h
    cases hv
  | kwPub =>
    simp only [run_mark_bind]
    exact public_iff
  | _ =>
    simp only [run_mark_bind]
    exact member_iff

/-! ## Items -/

/-- The first `k` items of a body, and the attributes of the next one. -/
def itemsFront : Nat → List (Attribute Extent) → Nat →
    Reading (List (Item Extent) × List (Attribute Extent))
  | 0, attrs, _ => return ([], attrs)
  | _ + 1, _, 0 => refuse
  | k + 1, attrs, n + 1 => do
    if attrs.isEmpty && (← peek) = .rbrace then refuse
    else
      let i ← item attrs n
      let (is, left) ← itemsFront k (← attributes n) n
      return (i :: is, left)

theorem items_cons_iff : (items attrs (n + 1)).run s = .ok (i :: is, s') ↔
    ¬ (attrs.isEmpty && s.next.kind = .rbrace) = true ∧
    ∃ s₁ left s₂, (item attrs n).run s = .ok (i, s₁) ∧
      (attributes n).run s₁ = .ok (left, s₂) ∧ (items left n).run s₂ = .ok (is, s') := by
  rw [items, run_peek_bind]
  split
  · rename_i hend
    refine ⟨fun h => ?_, fun h => absurd hend h.1⟩
    obtain ⟨_, _, -, h⟩ := run_shift_bind_eq_ok.mp h
    simp at h
  · rename_i hend
    refine Iff.trans ?_ (and_iff_right hend).symm
    constructor
    · intro h
      obtain ⟨j, s₁, hi, h⟩ := run_bind_eq_ok.mp h
      obtain ⟨left, s₂, hleft, h⟩ := run_bind_eq_ok.mp h
      obtain ⟨js, s₃, his, h⟩ := run_bind_eq_ok.mp h
      obtain ⟨⟨rfl, rfl⟩, rfl⟩ : (j = i ∧ js = is) ∧ s₃ = s' := by simpa using h
      exact ⟨s₁, left, s₂, hi, hleft, his⟩
    · rintro ⟨s₁, left, s₂, hi, hleft, his⟩
      refine run_bind_eq_ok.mpr ⟨i, s₁, hi, run_bind_eq_ok.mpr ⟨left, s₂, hleft, ?_⟩⟩
      exact run_bind_eq_ok.mpr ⟨is, s', his, rfl⟩

theorem itemsFront_cons_iff : (itemsFront (k + 1) attrs (n + 1)).run s = .ok ((i :: is, left), s') ↔
    ¬ (attrs.isEmpty && s.next.kind = .rbrace) = true ∧
    ∃ s₁ next s₂, (item attrs n).run s = .ok (i, s₁) ∧
      (attributes n).run s₁ = .ok (next, s₂) ∧
        (itemsFront k next n).run s₂ = .ok ((is, left), s') := by
  rw [itemsFront, run_peek_bind]
  split
  · rename_i hend
    exact ⟨fun h => by simp at h, fun h => absurd hend h.1⟩
  · rename_i hend
    refine Iff.trans ?_ (and_iff_right hend).symm
    constructor
    · intro h
      obtain ⟨j, s₁, hi, h⟩ := run_bind_eq_ok.mp h
      obtain ⟨next, s₂, hnext, h⟩ := run_bind_eq_ok.mp h
      obtain ⟨⟨js, left'⟩, s₃, his, h⟩ := run_bind_eq_ok.mp h
      obtain ⟨⟨⟨rfl, rfl⟩, rfl⟩, rfl⟩ : ((j = i ∧ js = is) ∧ left' = left) ∧
        s₃ = s' := by simpa using h
      exact ⟨s₁, next, s₂, hi, hnext, his⟩
    · rintro ⟨s₁, next, s₂, hi, hnext, his⟩
      refine run_bind_eq_ok.mpr ⟨i, s₁, hi, run_bind_eq_ok.mpr ⟨next, s₂, hnext, ?_⟩⟩
      exact run_bind_eq_ok.mpr ⟨(is, left), s', his, rfl⟩

/-- Items are read up to one of them, and from there on. -/
theorem items_append_iff : (items attrs n).run s = .ok (is ++ js, s') ↔
    ∃ left s₁, is.length ≤ n ∧ (itemsFront is.length attrs n).run s = .ok ((is, left), s₁) ∧
      (items left (n - is.length)).run s₁ = .ok (js, s') := by
  induction is generalizing s attrs n with
  | nil => simp [itemsFront]
  | cons i is ih =>
    cases n with
    | zero => simp [items]
    | succ n =>
      simp only [List.cons_append, items_cons_iff, ih, List.length_cons, itemsFront_cons_iff,
        Nat.add_sub_add_right, Nat.add_le_add_iff_right]
      constructor
      · rintro ⟨hend, s₁, next, s₂, hi, hnext, left, s₃, hle, hfront, hrest⟩
        exact ⟨left, s₃, hle, ⟨hend, s₁, next, s₂, hi, hnext, hfront⟩, hrest⟩
      · rintro ⟨left, s₃, hle, ⟨hend, s₁, next, s₂, hi, hnext, hfront⟩, hrest⟩
        exact ⟨hend, s₁, next, s₂, hi, hnext, left, s₃, hle, hfront, hrest⟩

/-! ## Blocks -/

/-- A block up to its first item, and the attributes of that one. -/
def blockHead (n : Nat) : Reading (ImplBlock Extent × List (Attribute Extent)) := do
  let first ← mark
  let attrs ← attributes n
  let isUnsafe ← optional .kwUnsafe [.kwImpl]
  let _ ← token .kwImpl Expected.type
  let params ← params n
  let headerFirst ← mark
  let header ← bareTy n
  let headerText ← textFrom headerFirst
  let headerPlace : Extent := ⟨headerFirst, ← mark⟩
  let self ← forTy n
  let clause ← whereClause n
  let _ ← token .lbrace Expected.body
  let (innerAttrs, outerAttrs) ← bodyAttributes n
  match self with
  | none =>
    return (⟨attrs, isUnsafe, ⟨params, clause⟩, none, header, headerPlace, innerAttrs, [], "",
      ⟨first, first⟩⟩, outerAttrs)
  | some (selfTy, selfPlace) =>
    return (⟨attrs, isUnsafe, ⟨params, clause⟩, some headerText, selfTy, selfPlace,
      innerAttrs, [], "", ⟨first, first⟩⟩, outerAttrs)

/-- The block with the items `is`, which ends where the scan stands. -/
def endedAt (b : ImplBlock Extent) (is : List (Item Extent)) (s : Scan) : ImplBlock Extent :=
  { b with
    items := is
    text := String.ofList (s.textFrom b.place.first)
    place := ⟨b.place.first, s.taken.length⟩ }

/-- The rest of a block behind the items `front` and the attributes of the next one, up to the
end of the text. -/
def blockEnd (b : ImplBlock Extent) (front : List (Item Extent)) (attrs : List (Attribute Extent))
    (n : Nat) : Reading (ImplBlock Extent) := do
  let is ← items attrs n
  let text ← textFrom b.place.first
  let last ← mark
  finish
  return { b with items := front ++ is, text, place := ⟨b.place.first, last⟩ }

theorem whole_eq : whole implBlock n = blockHead n >>= fun p => blockEnd p.1 [] p.2 n := by
  simp only [whole, implBlock, blockHead, blockEnd, bind_assoc]
  refine bind_congr fun first => bind_congr fun attrs => bind_congr fun isUnsafe => ?_
  refine bind_congr fun _ => bind_congr fun params => bind_congr fun headerFirst => ?_
  refine bind_congr fun header => bind_congr fun headerText => bind_congr fun headerLast => ?_
  refine bind_congr fun self => bind_congr fun clause => bind_congr fun _ =>
    bind_congr fun inner => ?_
  cases self <;> rfl

theorem finish_eq_ok {u : Unit} : finish.run s = .ok (u, s') ↔ s.next.kind = .eof ∧ s' = s := by
  rw [finish, run_peek_bind]
  split
  · rename_i hkind
    simp [hkind, eq_comm]
  · rename_i hkind
    simp [hkind]

theorem whole_ok_iff {α : Type} {reading : Nat → Reading α} {a : α} :
    (whole reading n).run s = .ok (a, s') ↔ (reading n).run s = .ok (a, s') ∧
    s'.next.kind = .eof := by
  constructor
  · intro h
    obtain ⟨a', s₁, hrun, h⟩ := run_bind_eq_ok.mp h
    obtain ⟨⟨⟩, s₂, hfinish, h⟩ := run_bind_eq_ok.mp h
    obtain ⟨rfl, rfl⟩ : a' = a ∧ s₂ = s' := by simpa using h
    obtain ⟨hend, rfl⟩ := finish_eq_ok.mp hfinish
    exact ⟨hrun, hend⟩
  · rintro ⟨hrun, hend⟩
    rw [whole, run_bind_of_ok hrun, run_bind_of_ok (finish_eq_ok (u := ()).mpr ⟨hend, rfl⟩),
      run_pure]

theorem blockEnd_eq_ok : (blockEnd b₀ is attrs n).run s = .ok (b, s') ↔
    ∃ js, (items attrs n).run s = .ok (js, s') ∧ s'.next.kind = .eof ∧
    b = endedAt b₀ (is ++ js) s' := by
  rw [blockEnd, run_bind_eq_ok]
  simp only [run_textFrom_bind, run_mark_bind, run_bind_eq_ok, finish_eq_ok]
  constructor
  · rintro ⟨js, s₁, hjs, ⟨⟩, s₂, ⟨hkind, rfl⟩, h⟩
    obtain ⟨rfl, rfl⟩ : _ = b ∧ s₂ = s' := by simpa using h
    exact ⟨js, hjs, hkind, rfl⟩
  · rintro ⟨js, hjs, hkind, rfl⟩
    exact ⟨js, s', hjs, (), s', ⟨hkind, rfl⟩, rfl⟩

/-- A block up to the body of the method behind its first `k` items. -/
def upToBody (k n : Nat) : Reading (ImplBlock Extent × List (Item Extent) × Method Extent) := do
  let p ← blockHead n
  let q ← itemsFront k p.2 n
  if q.2.isEmpty && (← peek) = .rbrace then refuse
  else
    let m ← itemHead q.2 (n - k - 1)
    return (p.1, q.1, m)

/-- The rest of a block behind the items `front`. -/
def blockRest (b : ImplBlock Extent) (front : List (Item Extent)) (n : Nat) :
    Reading (ImplBlock Extent) := do
  let attrs ← attributes n
  blockEnd b front attrs n

/-- A block with a method is read up to the body of that method; then the body is read and what is
left of the block. -/
theorem exists_upToBody (h : (whole implBlock n).run s = .ok (b, s'))
    (hitems : b.items = is ++ .method m :: js) :
    ∃ b₀ m₀ s₁ s₂, is.length < n ∧ (upToBody is.length n).run s = .ok ((b₀, is, m₀), s₁) ∧
      (methodBody (n - is.length - 1)).run s₁ = .ok (m.body, s₂) ∧
      m = withBody m₀ m.body s₂.taken.length ∧
      (blockRest b₀ (is ++ [.method m]) (n - is.length - 1)).run s₂ = .ok (b, s') := by
  rw [whole_eq] at h
  obtain ⟨⟨b₀, attrs⟩, s₁, hhead, h⟩ := run_bind_eq_ok.mp h
  obtain ⟨js', hitems', hkind, rfl⟩ := blockEnd_eq_ok.mp h
  obtain rfl : js' = is ++ .method m :: js := hitems
  -- The items in front of the method, the method, and those behind it
  obtain ⟨left, s₃, hle, hfront, hrest⟩ := items_append_iff.mp hitems'
  obtain ⟨k, hk⟩ : ∃ k, n - is.length = k + 1 := by
    cases hk : n - is.length with
    | zero => simp [hk, items] at hrest
    | succ k => exact ⟨k, rfl⟩
  rw [hk] at hrest
  obtain ⟨hend, s₄, next, s₅, hi, hnext, hjs⟩ := items_cons_iff.mp hrest
  obtain ⟨m₀, s₆, hihead, hbodyOf⟩ := item_iff.mp hi
  obtain ⟨body, hbody, hm⟩ := bodyOf_eq_ok.mp hbodyOf
  obtain rfl : m = withBody m₀ body s₄.taken.length := by simpa using hm
  refine ⟨b₀, m₀, s₆, s₄, by omega, ?_, by rw [hk]; exact hbody, rfl, ?_⟩
  · refine run_bind_eq_ok.mpr ⟨_, s₁, hhead, run_bind_eq_ok.mpr ⟨_, s₃, hfront, ?_⟩⟩
    rw [run_peek_bind, if_neg hend, hk]
    exact run_bind_eq_ok.mpr ⟨m₀, s₆, hihead, rfl⟩
  · rw [hk]
    refine run_bind_eq_ok.mpr ⟨next, s₅, hnext, ?_⟩
    exact blockEnd_eq_ok.mpr ⟨js, hjs, hkind, by simp⟩

/-- These parts make up the block. -/
theorem whole_of_upToBody (hn : is.length < n) {m₀ : Method Extent} {body : String}
    (h : (upToBody is.length n).run s = .ok ((b₀, is, m₀), s₁))
    (hbody : (methodBody (n - is.length - 1)).run s₁ = .ok (body, s₂))
    (hrest : (blockRest b₀ (is ++ [.method (withBody m₀ body s₂.taken.length)])
      (n - is.length - 1)).run s₂ = .ok (b, s')) : (whole implBlock n).run s = .ok (b, s') := by
  obtain ⟨k, hk⟩ : ∃ k, n - is.length = k + 1 := ⟨n - is.length - 1, by omega⟩
  obtain ⟨⟨b₁, attrs⟩, s₃, hhead, h⟩ := run_bind_eq_ok.mp h
  obtain ⟨⟨front, left⟩, s₄, hfront, h⟩ := run_bind_eq_ok.mp h
  rw [run_peek_bind] at h
  split at h
  · simp at h
  rename_i hend
  obtain ⟨m₁, s₅, hihead, h⟩ := run_bind_eq_ok.mp h
  obtain ⟨⟨rfl, rfl, rfl⟩, rfl⟩ : (b₁ = b₀ ∧ front = is ∧ m₁ = m₀) ∧ s₅ = s₁ := by simpa using h
  rw [hk] at hihead hbody hrest
  obtain ⟨next, s₆, hnext, hrest⟩ := run_bind_eq_ok.mp hrest
  obtain ⟨js, hjs, hkind, rfl⟩ := blockEnd_eq_ok.mp hrest
  rw [whole_eq, List.append_assoc]
  refine run_bind_eq_ok.mpr ⟨_, s₃, hhead, blockEnd_eq_ok.mpr ⟨_, ?_, hkind, rfl⟩⟩
  refine items_append_iff.mpr ⟨left, s₄, by omega, hfront, ?_⟩
  rw [hk]
  have hitem := item_iff.mpr ⟨m₁, s₅, hihead, bodyOf_eq_ok.mpr ⟨body, hbody, rfl⟩⟩
  exact items_cons_iff.mpr ⟨hend, s₂, next, s₆, hitem, hnext, hjs⟩

/-! ## The same rest of a text -/

/-- The items that are left of a block. -/
def itemsLeft (n : Nat) : Reading (List (Item Extent)) := do
  items (← attributes n) n

theorem blockRest_eq_ok : (blockRest b₀ is n).run s = .ok (b, s') ↔
    ∃ js, (itemsLeft n).run s = .ok (js, s') ∧ s'.next.kind = .eof ∧
    b = endedAt b₀ (is ++ js) s' := by
  rw [blockRest, itemsLeft]
  simp only [blockEnd_eq_ok, run_bind_eq_ok]
  constructor
  · rintro ⟨attrs, s₂, hattrs, js, hjs, h⟩
    exact ⟨js, ⟨attrs, s₂, hattrs, hjs⟩, h⟩
  · rintro ⟨js, ⟨attrs, s₂, hattrs, hjs⟩, h⟩
    exact ⟨attrs, s₂, hattrs, js, hjs, h⟩

/-- Two scans in front of the same text. -/
def SameRest (s s' : Scan) : Prop :=
  s.expected = s'.expected ∧ s.rest = s'.rest

theorem sameRest_pace : Pace anyTable (fun _ y y' => y = y') SameRest where
  kind := by
    rintro e y _ rfl
    rfl
  take := by
    rintro e e' y _ t r rfl h -
    exact ⟨r, h, rfl⟩
  startKind := by
    rintro s s' ⟨he, hrest⟩
    rw [Scan.next, he, hrest]
    rfl
  startTake := by
    rintro s s' e t r ⟨he, hrest⟩ hnext -
    rw [Scan.next, he, hrest] at hnext
    exact ⟨t, r, hnext, rfl, rfl⟩

theorem rest_eq_of_paced {base base' : List Token}
    (h : Paced (fun _ y y' => y = y') SameRest base base' s s') : s.rest = s'.rest := by
  cases h with
  | start _ h₀ => exact h₀.2
  | going _ _ _ hC => exact hC

theorem items_unplaced_eq {N : Nat → Nat → Prop} (h : List.Forall₂ (SameItem N) is js) :
    is.map Item.unplaced = js.map Item.unplaced := by
  have hmap : List.Forall₂ Eq (is.map Item.unplaced) (js.map Item.unplaced) := by
    rw [List.forall₂_map_left_iff, List.forall₂_map_right_iff]
    exact h.imp fun _ _ => Item.Related.unplaced_eq
  rwa [List.forall₂_eq_eq_eq] at hmap

/-- The rest of a block is the same behind other items. -/
theorem blockRest_of_sameRest (hsame : SameRest s s') (h : (blockRest b₀ is n).run s = .ok (b, s₁))
    (hn : 16 * s.rest.length + 2 ≤ n) (is' : List (Item Extent)) :
    ∃ js js' s₂, b = endedAt b₀ (is ++ js) s₁ ∧ js'.map Item.unplaced = js.map Item.unplaced ∧
      s₂.rest = s₁.rest ∧ (blockRest b₀ is' n).run s' = .ok (endedAt b₀ (is' ++ js') s₂, s₂) := by
  obtain ⟨js, hjs, hkind, rfl⟩ := blockRest_eq_ok.mp h
  have halike : Alike anyTable (Offset s.taken.length s'.taken.length)
      (fun _ _ as bs => List.Forall₂ (SameItem (Offset s.taken.length s'.taken.length)) as bs)
      s.rest.length s.expected none (itemsLeft n) (itemsLeft n) := by
    rw [itemsLeft]
    exact (attributes_alike n (by omega) (by omega)).bind fun i _ _ as bs hi hattrs =>
      items_alike n hattrs (by omega) (by omega)
  have hlockstep := sameRest_pace.lockstep s.taken s'.taken
  obtain ⟨hok, -⟩ := follow halike hlockstep (.start ⟨rfl, rfl, .nil⟩ hsame) rfl
    (by simp) (Nat.le_refl _)
  obtain ⟨js', s₂, -, hjs', hitems, hpaced⟩ := hok js s₁ hjs trivial
  refine ⟨js, js', s₂, rfl, (items_unplaced_eq hitems).symm, (rest_eq_of_paced hpaced).symm, ?_⟩
  exact blockRest_eq_ok.mpr ⟨js', hjs', by rw [← hlockstep.kind hpaced trivial, hkind], rfl⟩

/-! ## Other depths -/

theorem blockHead_first {p : ImplBlock Extent × List (Attribute Extent)}
    (h : (blockHead n).run s = .ok (p, s')) : p.1.place.first = s.taken.length := by
  rw [blockHead, run_mark_bind] at h
  refine Yields.of_run (P := fun p => p.1.place.first = s.taken.length) ?_ h
  refine .bind fun _ => .bind fun _ => .bind fun _ => .bind fun _ => .bind fun _ =>
    .bind fun _ => ?_
  refine .bind fun _ => .bind fun _ => .bind fun self => .bind fun _ => .bind fun _ =>
    .bind fun _ => ?_
  cases self <;> exact rfl

theorem whole_ends (h : (whole implBlock n).run s = .ok (b, s')) :
    b.text = String.ofList (s'.textFrom s.taken.length) ∧
    b.place = ⟨s.taken.length, s'.taken.length⟩ := by
  rw [whole_eq] at h
  obtain ⟨p, s₁, hhead, h⟩ := run_bind_eq_ok.mp h
  obtain ⟨js, -, -, rfl⟩ := blockEnd_eq_ok.mp h
  rw [← blockHead_first hhead]
  exact ⟨rfl, rfl⟩

theorem attributes_eq_of_related {as bs : List (Attribute Extent)}
    (h : List.Forall₂ (SameAttribute (Offset 0 0)) as bs) : as = bs := by
  have := h.imp fun _ _ => eq_of_sameAttribute
  rwa [List.forall₂_eq_eq_eq] at this

theorem extent_eq_of_related {x y : Extent} (h : x.Related (Offset 0 0) y) : x = y := by
  rcases x with ⟨first, last⟩
  rcases y with ⟨first', last'⟩
  obtain rfl : first = first' := h.first.eq
  obtain rfl : last = last' := h.last.eq
  rfl

theorem item_eq_of_related {i j : Item Extent} (h : SameItem (Offset 0 0) i j) : i = j := by
  cases h with
  | @method m m' h =>
    rcases m with ⟨name, attrs, head, generics, params, ret, body, place⟩
    rcases m' with ⟨name', attrs', head', generics', params', ret', body', place'⟩
    obtain ⟨rfl, hattrs, rfl, rfl, rfl, rfl, rfl, hplace⟩ := h
    obtain rfl : attrs = attrs' := attributes_eq_of_related hattrs
    obtain rfl : place = place' := extent_eq_of_related hplace
    rfl
  | @verbatim v v' h =>
    rcases v with ⟨kind, attrs, text, place⟩
    rcases v' with ⟨kind', attrs', text', place'⟩
    obtain ⟨rfl, hattrs, rfl, hplace⟩ := h
    obtain rfl : attrs = attrs' := attributes_eq_of_related hattrs
    obtain rfl : place = place' := extent_eq_of_related hplace
    rfl

/-- A block is the same for every depth that is large enough. -/
theorem whole_depth {e : Expectation} {x : List Char}
    (h : (whole implBlock n).run (.start e x) = .ok (b, s')) (hn : 16 * x.length + 1 ≤ n)
    {m : Nat} (hm : 16 * x.length + 1 ≤ m) :
    (whole implBlock m).run (.start e x) = .ok (b, s') := by
  have halike : Alike anyTable (Offset 0 0) _ x.length e none (blockFrom [] n n)
      (blockFrom [] m m) :=
    blockFrom_alike hn hm hn hm
  -- Readings of different depths are alike, and go in step with themselves.
  obtain ⟨hok, -⟩ := follow (s := .start e x) halike eq_lockstep rfl rfl (by simp) (Nat.le_refl _)
  obtain ⟨b', s₁, -, h', ⟨⟨bs, bs', hattrs, hattrs', hsame⟩, hrelated⟩, rfl⟩ :=
    hok b s' (whole_eq_ok.mp h) trivial
  have hwhole := whole_eq_ok.mpr h'
  have htext := whole_ends h
  have htext' := whole_ends hwhole
  rw [hwhole]
  rcases b with ⟨attrs, isUnsafe, generics, traitRef, selfTy, selfPlace, inner, is, text, place⟩
  rcases b' with ⟨attrs', isUnsafe', generics', traitRef', selfTy', selfPlace', inner', is', text',
    place'⟩
  obtain ⟨rfl, rfl, rfl, rfl, hself, hinner, hitems⟩ := hrelated
  obtain rfl : attrs = bs := hattrs
  obtain rfl : attrs' = bs' := hattrs'
  obtain ⟨rfl, rfl⟩ := htext
  obtain ⟨rfl, rfl⟩ := htext'
  obtain rfl : attrs = attrs' := attributes_eq_of_related hsame
  obtain rfl : selfPlace = selfPlace' := extent_eq_of_related hself
  obtain rfl : inner = inner' := attributes_eq_of_related hinner
  obtain rfl : is = is' := by
    have := hitems.imp fun _ _ => item_eq_of_related
    rwa [List.forall₂_eq_eq_eq] at this
  rfl

end ShadowImpl.Grammar
