import Mathlib.Data.List.Forall2
import ShadowImpl.Expansion.Basic

/-!
# What the stages make of a block

The seven stages run in an order that is computed from what they require. Here is what they amount
to together: three things that can fail, and one block that is put together from what they yield. An
expansion is asked for in two ways, and both come down to a task.
-/

namespace ShadowImpl

variable {ε α β γ δ : Type}

/-! ## Results that depend on one another -/

theorem bind_eq_ok_iff {x : Except ε α} {f : α → Except ε β} {b : β} :
    x >>= f = .ok b ↔ ∃ a, x = .ok a ∧ f a = .ok b := by
  cases x with
  | ok a => simp [bind, Except.bind]
  | error e => simp [bind, Except.bind]

@[simp] theorem ok_bind (a : α) (f : α → Except ε β) : Except.ok a >>= f = f a := rfl

@[simp] theorem error_bind (e : ε) (f : α → Except ε β) : Except.error e >>= f = .error e := rfl

/-- A list of results is there if each of them is. -/
theorem mapM_eq_ok_iff {f : α → Except ε β} {as : List α} {bs : List β} :
    as.mapM f = .ok bs ↔ List.Forall₂ (fun a b => f a = .ok b) as bs := by
  induction as generalizing bs with
  | nil => simp [pure, Except.pure, eq_comm]
  | cons a as ih =>
    rw [List.mapM_cons, List.forall₂_cons_left_iff]
    constructor
    · intro h
      obtain ⟨b, hb, h⟩ := bind_eq_ok_iff.mp h
      obtain ⟨bs', hbs, h⟩ := bind_eq_ok_iff.mp h
      obtain rfl : b :: bs' = bs := Except.ok.inj h
      exact ⟨b, bs', hb, ih.mp hbs, rfl⟩
    · rintro ⟨b, bs', hb, hbs, rfl⟩
      rw [hb, ok_bind, ih.mpr hbs, ok_bind]
      rfl

/-- Something is there where a result is one. -/
theorem exists_of_isOk {x : Except ε α} (h : x.isOk = true) : ∃ a, x = .ok a := by
  cases x with
  | ok a => exact ⟨a, rfl⟩
  | error e => simp [Except.isOk, Except.toBool] at h

/-- Something is there where something is known of it. -/
theorem exists_of_map {x : Except ε α} {f : α → β} {b : β} (h : x.toOption.map f = some b) :
    ∃ a, x = .ok a ∧ f a = b := by
  cases x with
  | ok a => exact ⟨a, rfl, Option.some.inj h⟩
  | error e => simp [Except.toOption] at h

/-- Two results that agree: both are there and related by `R`, or they fail in ways
related by `E`. -/
inductive Agree (E : ε → ε → Prop) (R : α → β → Prop) : Except ε α → Except ε β → Prop where
  | ok {a : α} {b : β} (h : R a b) : Agree E R (.ok a) (.ok b)
  | error {f f' : ε} (h : E f f') : Agree E R (.error f) (.error f')

namespace Agree

variable {E : ε → ε → Prop} {R : α → β → Prop} {S : γ → δ → Prop}

theorem bind_of_ok {x : Except ε α} {y : Except ε β} {f : α → Except ε γ} {g : β → Except ε δ}
    (h : Agree E R x y) (hf : ∀ a b, x = .ok a → R a b → Agree E S (f a) (g b)) :
    Agree E S (x >>= f) (y >>= g) := by
  cases h with
  | ok hab => exact hf _ _ rfl hab
  | error hc => exact .error hc

theorem bind {x : Except ε α} {y : Except ε β} {f : α → Except ε γ} {g : β → Except ε δ}
    (h : Agree E R x y) (hf : ∀ a b, R a b → Agree E S (f a) (g b)) :
    Agree E S (x >>= f) (y >>= g) :=
  h.bind_of_ok fun a b _ => hf a b

theorem mono {R' : α → β → Prop} {x : Except ε α} {y : Except ε β} (h : Agree E R x y)
    (hR : ∀ a b, R a b → R' a b) : Agree E R' x y := by
  cases h with
  | ok hab => exact .ok (hR _ _ hab)
  | error hc => exact .error hc

/-- What agrees with a result is that result. -/
theorem eq_ok {a : α} {y : Except ε α} (h : Agree E Eq (.ok a) y) : y = .ok a := by
  cases h with
  | ok h => rw [h]

theorem foldlM {f : γ → α → Except ε γ} {g : δ → β → Except ε δ}
    (hf : ∀ c d a b, S c d → R a b → Agree E S (f c a) (g d b)) {as : List α} {bs : List β}
    (h : List.Forall₂ R as bs) {c : γ} {d : δ} (hcd : S c d) :
    Agree E S (as.foldlM f c) (bs.foldlM g d) := by
  induction h generalizing c d with
  | nil => exact .ok hcd
  | cons hab _ ih =>
    rw [List.foldlM_cons, List.foldlM_cons]
    exact (hf _ _ _ _ hcd hab).bind fun _ _ h => ih h

theorem mapM {f : α → Except ε γ} {g : β → Except ε δ}
    (hf : ∀ a b, R a b → Agree E S (f a) (g b)) {as : List α} {bs : List β}
    (h : List.Forall₂ R as bs) : Agree E (List.Forall₂ S) (as.mapM f) (bs.mapM g) := by
  induction h with
  | nil => exact .ok .nil
  | cons hab _ ih =>
    rw [List.mapM_cons, List.mapM_cons]
    exact (hf _ _ hab).bind fun _ _ h => ih.bind fun _ _ h' => .ok (.cons h h')

/-- Steps that agree on moved elements agree one after the other. -/
theorem foldlM_map {f : γ → α → Except ε γ} {g : γ → β → Except ε γ} {move : α → β} {as : List α}
    (h : ∀ a ∈ as, ∀ c, Agree E Eq (f c a) (g c (move a))) (c : γ) :
    Agree E Eq (as.foldlM f c) ((as.map move).foldlM g c) := by
  have has : List.Forall₂ (fun a b => ∀ c, Agree E Eq (f c a) (g c b)) as (as.map move) := by
    rw [List.forall₂_map_right_iff, List.forall₂_same]
    exact h
  refine foldlM (fun c d a b hcd hab => ?_) has rfl
  subst hcd
  exact hab c

theorem mapM_map {f : α → Except ε γ} {g : β → Except ε δ} {move : α → β} {move' : γ → δ}
    {as : List α} (h : ∀ a ∈ as, Agree E (fun c d => d = move' c) (f a) (g (move a))) :
    Agree E (fun cs ds => ds = cs.map move') (as.mapM f) ((as.map move).mapM g) := by
  have has : List.Forall₂ (fun a b => Agree E (fun c d => d = move' c) (f a) (g b)) as
      (as.map move) := by
    rw [List.forall₂_map_right_iff, List.forall₂_same]
    exact h
  refine (mapM (fun _ _ => id) has).mono fun cs ds hmoved => ?_
  induction hmoved with
  | nil => rfl
  | cons hd _ ih => rw [hd, ih, List.map_cons]

end Agree

/-! ## Items -/

/-- What an item is expanded to: one that is no method stays as it is and carries no marker. -/
theorem Item.expand_eq_ok {s : Source} {i j : Item Location} (h : i.expand s = .ok j) :
    (∃ v, i = .verbatim v ∧ j = .verbatim v ∧ v.check = .ok ()) ∨
      ∃ m d, i = .method m ∧ m.directive s = .ok d ∧ j = .method (m.expand d) := by
  cases i with
  | verbatim v =>
    obtain ⟨⟨⟩, hcheck, h⟩ := bind_eq_ok_iff.mp h
    exact .inl ⟨v, rfl, (Except.ok.inj h).symm, hcheck⟩
  | method m =>
    obtain ⟨d, hd, h⟩ := bind_eq_ok_iff.mp h
    exact .inr ⟨m, d, rfl, hd, (Except.ok.inj h).symm⟩

/-! ## The stages together -/

/-- The block that is generated for a task. -/
def Task.generated (t : Task) (d : Directive) (selfTy : Ty) (items : List (Item Location)) :
    ImplBlock Location :=
  { t.block with selfTy, items, generics := t.block.generics.expand d }

namespace Stage

theorem order_eq : order = [directive, selfType, normalize, methods, project, augment, emit] := rfl

section Fallible

/-! Only three stages can come to a fault. -/

variable (t : Task) (d : Draft)

theorem run_directive : run t d directive = do
    let found ← Directive.parse t.args
    return { d with directive := some found } := rfl

theorem run_selfType : run t d selfType = do
    let selfTy ← d.block.selfTy.shadow (some d.block.selfPlace)
    return { d with block := { d.block with selfTy } } := rfl

theorem run_methods : run t d methods = do
    let items ← d.block.items.mapM (Item.expand t.source)
    return { d with block := { d.block with items } } := rfl

end Fallible

/-- The directive, the shadow of the self type and the items are found one after the other; the rest
cannot fail. -/
theorem runAll_order (t : Task) : runAll t order = do
    let d ← Directive.parse t.args
    let selfTy ← t.block.selfTy.shadow (some t.block.selfPlace)
    let items ← t.block.items.mapM (Item.expand t.source)
    return ⟨t.generated d selfTy items, some d, some (t.generated d selfTy items).render⟩ := by
  rw [runAll, runAllM, order_eq]
  simp only [List.foldlM_cons, List.foldlM_nil, runM, foundM, Engine.settle_plain,
    Engine.confirm_plain, Option.getD_some, bind_assoc, pure_bind, ok_bind]
  rfl

end Stage

namespace Expansion

theorem ofTask_eq (t : Task) (given : String) : ofTask t given = do
    let d ← Directive.parse t.args
    let selfTy ← t.block.selfTy.shadow (some t.block.selfPlace)
    let items ← t.block.items.mapM (Item.expand t.source)
    return ⟨given, (t.generated d selfTy items).render, t.generated d selfTy items⟩ := by
  have hrun : ofTask t given = (do
      let draft ← Stage.runAll t Stage.order
      return ⟨given, draft.emitted.getD "", draft.block⟩) := rfl
  rw [hrun, Stage.runAll_order]
  simp only [bind_assoc, pure_bind, Option.getD_some]

/-- An expansion that a task leads to, and what was found on the way. -/
structure Made (t : Task) (d : Directive) (e : Expansion) : Prop where
  directive : Directive.parse t.args = .ok d
  selfTy : t.block.selfTy.shadow (some t.block.selfPlace) = .ok e.block.selfTy
  items : List.Forall₂ (fun i j => i.expand t.source = .ok j) t.block.items e.block.items
  block : e.block = t.generated d e.block.selfTy e.block.items
  generated : e.generated = e.block.render

theorem ofTask_eq_ok_iff {t : Task} {given : String} {e : Expansion} :
    ofTask t given = .ok e ↔ e.given = given ∧ ∃ d, Made t d e := by
  rw [ofTask_eq]
  constructor
  · intro h
    obtain ⟨d, hd, h⟩ := bind_eq_ok_iff.mp h
    obtain ⟨selfTy, hself, h⟩ := bind_eq_ok_iff.mp h
    obtain ⟨items, hitems, h⟩ := bind_eq_ok_iff.mp h
    obtain rfl := Except.ok.inj h
    exact ⟨rfl, d, hd, hself, mapM_eq_ok_iff.mp hitems, rfl, rfl⟩
  · rintro ⟨rfl, d, hd, hself, hitems, hblock, hgenerated⟩
    rw [hd, ok_bind, hself, ok_bind, mapM_eq_ok_iff.mpr hitems, ok_bind, ← hblock, ← hgenerated]
    rfl

end Expansion

/-! ## The two ways to ask -/

/-- The only element that a filter keeps, and what it leaves out. -/
theorem exists_of_filter_eq_singleton {α : Type} {p : α → Bool} {l : List α} {a : α}
    (h : l.filter p = [a]) : ∃ as bs, l = as ++ a :: bs ∧ l.filter (fun x => !p x) = as ++ bs := by
  obtain ⟨as, bs, rfl, has, ha, hbs⟩ := List.filter_eq_cons_iff.mp h
  refine ⟨as, bs, rfl, ?_⟩
  have hkeep : ∀ l : List α, (∀ x ∈ l, ¬p x = true) → l.filter (fun x => !p x) = l := by
    intro l hl
    rw [List.filter_eq_self]
    simpa using hl
  rw [List.filter_append, List.filter_cons_of_neg (by simp [ha]), hkeep as has,
    hkeep bs (List.filter_eq_nil_iff.mp hbs)]

/-- What an expansion is asked for. -/
inductive Request where
  /-- A block under a marker with the given arguments. -/
  | item (args block file : String)
  /-- A block that carries its marker. -/
  | source (text file : String)
deriving DecidableEq, Repr

namespace Request

/-- What comes of a request. -/
def outcome : Request → Outcome Expansion
  | item args block file => Expansion.ofItem args block file
  | source text file => Expansion.ofSource text file

/-- The text that the block is read from. -/
def input : Request → Source
  | item _ block file => ⟨file, block, none⟩
  | source text file => ⟨file, text, none⟩

/-- The task that a request comes down to once its block has been read, and the text to repeat. -/
def taskOf (block : ImplBlock Location) : Request → Except Fault (Task × String)
  | item args text file =>
    .ok (⟨⟨argsFile, args, none⟩, ⟨file, if file = argsFile then args else text, none⟩,
      block⟩, text)
  | source text file => do
    let (block, marker) ← Expansion.takeMarker block
    let args ← Expansion.markerArgs ⟨file, text, none⟩ marker
    let given := Text.removeAttribute text.toList marker.place.start.toNat marker.place.stop.toNat
    return (⟨args, ⟨file, text, none⟩, block⟩, String.ofList given)

/-- The text under the name of a file is the last one that was set. -/
theorem lookup_set_args (args item file : String) :
    ((Sources.set [] file item).set argsFile args).lookup file =
      some (if file = argsFile then args else item) := by
  by_cases h : file = argsFile
  · simp [Sources.set, h]
  · have hne : (file == argsFile) = false := by simpa using h
    simp [Sources.set, h, List.lookup_cons, hne]

theorem result_eq (r : Request) : r.outcome.result =
    r.input.implBlock >>= fun block => r.taskOf block >>=
      fun (t, given) => Expansion.ofTask t given := by
  cases r with
  | item args block file =>
    simp only [outcome, Expansion.ofItem, Expansion.ofItemM, Expansion.itemSources, input, taskOf,
      lookup_set_args, Option.getD_some, Engine.confirm_plain, ok_bind]
    rfl
  | source text file =>
    simp only [outcome, Expansion.ofSource, Expansion.ofSourceM, input, taskOf, Engine.settle_plain,
      Engine.confirm_plain, bind_assoc, pure_bind, ok_bind]
    rfl

/-- A request that succeeds leads through a task. -/
theorem exists_made {r : Request} {e : Expansion} (h : r.outcome.result = .ok e) :
    ∃ b t d, r.input.implBlock = .ok b ∧ r.taskOf b = .ok (t, e.given) ∧ Expansion.Made t d e := by
  rw [result_eq] at h
  obtain ⟨b, hb, h⟩ := bind_eq_ok_iff.mp h
  obtain ⟨⟨t, given⟩, ht, h⟩ := bind_eq_ok_iff.mp h
  obtain ⟨rfl, d, hmade⟩ := Expansion.ofTask_eq_ok_iff.mp h
  exact ⟨b, t, d, hb, ht, hmade⟩

/-- The block of a task is the one that was read, but for the marker among its attributes. -/
theorem taskOf_block {r : Request} {b : ImplBlock Location} {t : Task} {given : String}
    (h : r.taskOf b = .ok (t, given)) : ∃ attrs, t.block = { b with attrs } := by
  cases r with
  | item args block file =>
    obtain ⟨rfl, -⟩ := Prod.mk.inj (Except.ok.inj h)
    exact ⟨b.attrs, rfl⟩
  | source text file =>
    obtain ⟨⟨block, marker⟩, hmarker, h⟩ := bind_eq_ok_iff.mp h
    obtain ⟨args, -, h⟩ := bind_eq_ok_iff.mp h
    obtain ⟨rfl, -⟩ := Prod.mk.inj (Except.ok.inj h)
    simp only [Expansion.takeMarker] at hmarker
    split at hmarker
    · simp at hmarker
    · obtain ⟨rfl, -⟩ := Prod.mk.inj (Except.ok.inj hmarker)
      exact ⟨_, rfl⟩
    · simp at hmarker

end Request
end ShadowImpl
