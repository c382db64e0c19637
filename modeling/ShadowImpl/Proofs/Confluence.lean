import ShadowImpl.Proofs.Stages

/-!
# The stages in any order

The stages run in the order that is computed for them, but nothing else depends on it: under all
orders that respect what the stages require, the same tasks succeed, with the same block and the
same text. What a draft holds is told by the stages that have run and not by their order.
-/

namespace ShadowImpl

namespace Schedule

/-- Each of the passes comes after those that it requires; `done` have run before them. -/
def Respects {ν : Type} (requires : ν → List ν) : List ν → List ν → Prop
  | _, [] => True
  | done, p :: passes => (∀ r ∈ requires p, r ∈ done) ∧ Respects requires (done ++ [p]) passes

instance decidableRespects {ν : Type} [DecidableEq ν] (requires : ν → List ν) :
    ∀ done passes, Decidable (Respects requires done passes)
  | _, [] => inferInstanceAs (Decidable True)
  | done, p :: passes =>
    have := decidableRespects requires (done ++ [p]) passes
    inferInstanceAs (Decidable ((∀ r ∈ requires p, r ∈ done) ∧ _))

end Schedule

namespace Stage

/-- An order to run the stages in: each of them once, and after those that it requires. -/
structure Ordering (stages : List Stage) : Prop where
  perm : stages.Perm all
  respects : Schedule.Respects requires [] stages

/-- The order that is computed is one. -/
theorem ordering_order : Ordering order := ⟨by decide, by decide⟩

/-- The stage `s` can run next, after `done`. -/
structure Due (done : List Stage) (s : Stage) : Prop where
  fresh : s ∉ done
  ready : ∀ r ∈ requires s, r ∈ done
  closed : ∀ p ∈ done, ∀ r ∈ requires p, r ∈ done

/-- What has run before the next stage: with each stage those that it requires. -/
theorem Due.chain {done : List Stage} {s : Stage} (h : Due done s) :
    (normalize ∈ done → directive ∈ done) ∧ (project ∈ done → normalize ∈ done) ∧
      (augment ∈ done → project ∈ done) ∧ (methods ∈ done → directive ∈ done) ∧
      (emit ∈ done → selfType ∈ done ∧ augment ∈ done ∧ methods ∈ done) := by
  refine ⟨?_, ?_, ?_, ?_, fun hp => ⟨?_, ?_, ?_⟩⟩
  · exact fun hp => h.closed normalize hp directive (by decide)
  · exact fun hp => h.closed project hp normalize (by decide)
  · exact fun hp => h.closed augment hp project (by decide)
  · exact fun hp => h.closed methods hp directive (by decide)
  · exact h.closed emit hp selfType (by decide)
  · exact h.closed emit hp augment (by decide)
  · exact h.closed emit hp methods (by decide)

/-- The stages can run one by one, after `done`. -/
structure Pending (done stages : List Stage) : Prop where
  nodup : (done ++ stages).Nodup
  respects : Schedule.Respects requires done stages
  closed : ∀ p ∈ done, ∀ r ∈ requires p, r ∈ done

theorem Ordering.pending {stages : List Stage} (h : Ordering stages) : Pending [] stages where
  nodup := h.perm.nodup_iff.mpr (by decide)
  respects := h.respects
  closed := by simp

theorem Pending.due {done stages : List Stage} {s : Stage} (h : Pending done (s :: stages)) :
    Due done s where
  fresh := fun hs => (List.nodup_append.mp h.nodup).2.2 s hs s List.mem_cons_self rfl
  ready := h.respects.1
  closed := h.closed

theorem Pending.next {done stages : List Stage} {s : Stage} (h : Pending done (s :: stages)) :
    Pending (done ++ [s]) stages where
  nodup := by simpa using h.nodup
  respects := h.respects.2
  closed := by
    intro p hp r hr
    rw [List.mem_append, List.mem_singleton] at hp
    rcases hp with hp | rfl
    · exact List.mem_append_left _ (h.closed p hp r hr)
    · exact List.mem_append_left _ (h.respects.1 r hr)

end Stage

/-- The generics of a block after those of the stages on them that have run. -/
def Generics.after (g : Generics) (done : List Stage) (d : Directive) : Generics :=
  let normal := if .normalize ∈ done then g.normalize else g
  let projected := if .project ∈ done then normal.project d else normal
  if .augment ∈ done then projected.augment d else projected

/-- A draft of the task after the stages `done`, in whatever order these have run. -/
structure Draft.Reached (t : Task) (done : List Stage) (d : Draft) : Prop where
  directive : (if .directive ∈ done then (Directive.parse t.args).map some else .ok none) =
    .ok d.directive
  selfTy : (if .selfType ∈ done then t.block.selfTy.shadow (some t.block.selfPlace)
    else .ok t.block.selfTy) = .ok d.block.selfTy
  items : (if .methods ∈ done then t.block.items.mapM (Item.expand t.source)
    else .ok t.block.items) = .ok d.block.items
  generics : d.block.generics = t.block.generics.after done (d.directive.getD {})
  frame : { d.block with
    selfTy := t.block.selfTy, items := t.block.items, generics := t.block.generics } = t.block
  emitted : d.emitted = if .emit ∈ done then some d.block.render else none

/-- The draft of the task that all stages together lead to. -/
structure Draft.Finished (t : Task) (d : Draft) : Prop where
  directive : ∃ found, Directive.parse t.args = .ok found ∧ d.directive = some found
  selfTy : t.block.selfTy.shadow (some t.block.selfPlace) = .ok d.block.selfTy
  items : t.block.items.mapM (Item.expand t.source) = .ok d.block.items
  block : d.block = t.generated (d.directive.getD {}) d.block.selfTy d.block.items
  emitted : d.emitted = some d.block.render

/-- Everything that a stage of the task can ask for is there. -/
structure Task.Feasible (t : Task) : Prop where
  directive : ∃ d, Directive.parse t.args = .ok d
  selfTy : ∃ selfTy, t.block.selfTy.shadow (some t.block.selfPlace) = .ok selfTy
  items : ∃ items, t.block.items.mapM (Item.expand t.source) = .ok items

namespace Draft.Reached

variable {t : Task} {done : List Stage} {s : Stage} {d d' : Draft}

theorem start (t : Task) : Reached t [] { block := t.block } where
  directive := rfl
  selfTy := rfl
  items := rfl
  generics := rfl
  frame := rfl
  emitted := rfl

theorem selfTy_eq (h : Reached t done d) (hs : .selfType ∉ done) :
    d.block.selfTy = t.block.selfTy := by
  simpa [hs, eq_comm] using h.selfTy

theorem items_eq (h : Reached t done d) (hs : .methods ∉ done) : d.block.items = t.block.items := by
  simpa [hs, eq_comm] using h.items

/-- One more stage. Nothing that has run reads what the stage changes: it would
require the stage. -/
theorem step (h : Reached t done d) (hs : Stage.Due done s) (hrun : Stage.run t d s = .ok d') :
    Reached t (done ++ [s]) d' := by
  obtain ⟨hnormalize, hproject, haugment, hmethods, hemit⟩ := hs.chain
  have hfresh := hs.fresh
  -- In each case `hlater` says which stages cannot have run before this one.
  cases s with
  | directive =>
    rw [Stage.run_directive] at hrun
    obtain ⟨x, hx, hrun⟩ := bind_eq_ok_iff.mp hrun
    obtain rfl := Except.ok.inj hrun
    have hlater : .project ∉ done ∧ .augment ∉ done ∧ .emit ∉ done := by tauto
    refine ⟨by simp [hx, Except.map], by simpa using h.selfTy, by simpa using h.items,
      ?_, h.frame, ?_⟩
    · simpa [Generics.after, hlater] using h.generics
    · simpa [hlater] using h.emitted
  | selfType =>
    rw [Stage.run_selfType] at hrun
    obtain ⟨x, hx, hrun⟩ := bind_eq_ok_iff.mp hrun
    obtain rfl := Except.ok.inj hrun
    have hlater : .emit ∉ done := by tauto
    rw [h.selfTy_eq hfresh, congrArg ImplBlock.selfPlace h.frame] at hx
    refine ⟨by simpa using h.directive, by simpa using hx, by simpa using h.items, ?_, h.frame, ?_⟩
    · simpa [Generics.after] using h.generics
    · simpa [hlater] using h.emitted
  | normalize =>
    obtain rfl := Except.ok.inj hrun
    have hlater : .project ∉ done ∧ .augment ∉ done ∧ .emit ∉ done := by tauto
    refine ⟨by simpa using h.directive, by simpa using h.selfTy, by simpa using h.items,
      ?_, h.frame, by simpa [hlater] using h.emitted⟩
    have hbefore : d.block.generics = t.block.generics := by
      simpa [Generics.after, hlater, hfresh] using h.generics
    simp [Generics.after, hlater, hbefore]
  | project =>
    obtain rfl := Except.ok.inj hrun
    have hlater : .augment ∉ done ∧ .emit ∉ done := by tauto
    refine ⟨by simpa using h.directive, by simpa using h.selfTy, by simpa using h.items,
      ?_, h.frame, by simpa [hlater] using h.emitted⟩
    simp [Generics.after, hlater, hfresh, h.generics]
  | augment =>
    obtain rfl := Except.ok.inj hrun
    have hlater : .emit ∉ done := by tauto
    refine ⟨by simpa using h.directive, by simpa using h.selfTy, by simpa using h.items,
      ?_, h.frame, by simpa [hlater] using h.emitted⟩
    simp [Generics.after, hfresh, h.generics]
  | methods =>
    rw [Stage.run_methods] at hrun
    obtain ⟨x, hx, hrun⟩ := bind_eq_ok_iff.mp hrun
    obtain rfl := Except.ok.inj hrun
    have hlater : .emit ∉ done := by tauto
    rw [h.items_eq hfresh] at hx
    refine ⟨by simpa using h.directive, by simpa using h.selfTy, by simpa using hx, ?_, h.frame, ?_⟩
    · simpa [Generics.after] using h.generics
    · simpa [hlater] using h.emitted
  | emit =>
    obtain rfl := Except.ok.inj hrun
    refine ⟨by simpa using h.directive, by simpa using h.selfTy, by simpa using h.items,
      ?_, h.frame, by simp⟩
    simpa [Generics.after] using h.generics

/-- A stage that can run next does run if the task is feasible. -/
theorem progress (h : Reached t done d) (hs : Stage.Due done s) (ht : t.Feasible) :
    ∃ d', Stage.run t d s = .ok d' := by
  cases s with
  | directive =>
    obtain ⟨x, hx⟩ := ht.directive
    exact ⟨{ d with directive := some x }, by rw [Stage.run_directive, hx]; rfl⟩
  | selfType =>
    obtain ⟨x, hx⟩ := ht.selfTy
    refine ⟨{ d with block := { d.block with selfTy := x } }, ?_⟩
    rw [Stage.run_selfType, h.selfTy_eq hs.fresh, congrArg ImplBlock.selfPlace h.frame, hx]
    rfl
  | methods =>
    obtain ⟨x, hx⟩ := ht.items
    refine ⟨{ d with block := { d.block with items := x } }, ?_⟩
    rw [Stage.run_methods, h.items_eq hs.fresh, hx]
    rfl
  | normalize | project | augment | emit => exact ⟨_, rfl⟩

/-- Stages one after the other. -/
theorem run {stages : List Stage} (h : Reached t done d) (hs : Stage.Pending done stages)
    (hrun : stages.foldlM (Stage.run t) d = .ok d') : Reached t (done ++ stages) d' := by
  induction stages generalizing done d with
  | nil =>
    obtain rfl : d = d' := Except.ok.inj hrun
    simpa using h
  | cons s stages ih =>
    rw [List.foldlM_cons] at hrun
    obtain ⟨d₁, hd₁, hrun⟩ := bind_eq_ok_iff.mp hrun
    simpa using ih (h.step hs.due hd₁) hs.next hrun

theorem exists_run {stages : List Stage} (h : Reached t done d) (hs : Stage.Pending done stages)
    (ht : t.Feasible) : ∃ d', stages.foldlM (Stage.run t) d = .ok d' := by
  induction stages generalizing done d with
  | nil => exact ⟨d, rfl⟩
  | cons s stages ih =>
    obtain ⟨d₁, hd₁⟩ := h.progress hs.due ht
    rw [List.foldlM_cons, hd₁, ok_bind]
    exact ih (h.step hs.due hd₁) hs.next

/-- After all stages the draft is finished. -/
theorem finished (h : Reached t done d) (hall : ∀ s, s ∈ done) : d.Finished t := by
  have hgenerics : d.block.generics = t.block.generics.expand (d.directive.getD {}) := by
    simpa [Generics.after, Generics.expand, hall] using h.generics
  refine ⟨?_, ?_, ?_, ?_, ?_⟩
  · have hdirective : (Directive.parse t.args).map some = .ok d.directive := by
      simpa [hall] using h.directive
    cases hfound : Directive.parse t.args with
    | error f => simp [hfound, Except.map] at hdirective
    | ok found =>
      rw [hfound] at hdirective
      exact ⟨found, rfl, (Except.ok.inj hdirective).symm⟩
  · simpa [hall] using h.selfTy
  · simpa [hall] using h.items
  · rw [Task.generated, ← hgenerics, ← h.frame]
  · simpa [hall] using h.emitted

end Draft.Reached

namespace Draft.Finished

variable {t : Task} {d d' : Draft}

theorem feasible (h : d.Finished t) : t.Feasible :=
  ⟨h.directive.imp fun _ => And.left, ⟨_, h.selfTy⟩, ⟨_, h.items⟩⟩

/-- There is one finished draft of a task. -/
theorem unique (h : d.Finished t) (h' : d'.Finished t) : d = d' := by
  have hdirective : d.directive = d'.directive := by
    obtain ⟨found, hfound, hd⟩ := h.directive
    obtain ⟨found', hfound', hd'⟩ := h'.directive
    rw [hd, hd', Except.ok.inj (hfound.symm.trans hfound')]
  have hself : d.block.selfTy = d'.block.selfTy := Except.ok.inj (h.selfTy.symm.trans h'.selfTy)
  have hitems : d.block.items = d'.block.items := Except.ok.inj (h.items.symm.trans h'.items)
  have hblock : d.block = d'.block := by
    rw [h.block, h'.block, hdirective, hself, hitems]
  have hemitted : d.emitted = d'.emitted := by rw [h.emitted, h'.emitted, hblock]
  rcases d with ⟨block, directive, emitted⟩
  rcases d' with ⟨block', directive', emitted'⟩
  rw [Draft.mk.injEq]
  exact ⟨hblock, hdirective, hemitted⟩

end Draft.Finished

namespace Stage

theorem Ordering.mem {stages : List Stage} (h : Ordering stages) (s : Stage) : s ∈ stages := by
  rw [h.perm.mem_iff]
  cases s <;> decide

/-- In every order the stages lead to the finished draft, if there is one. -/
theorem Ordering.runAll_eq_ok_iff {stages : List Stage} (h : Ordering stages)
    {t : Task} {d : Draft} : runAll t stages = .ok d ↔ d.Finished t := by
  constructor
  · intro hrun
    exact ((Draft.Reached.start t).run h.pending hrun).finished (by simpa using h.mem)
  · intro hd
    obtain ⟨d', hrun⟩ := (Draft.Reached.start t).exists_run h.pending hd.feasible
    have hd' := ((Draft.Reached.start t).run h.pending hrun).finished (by simpa using h.mem)
    rw [hd.unique hd']
    exact hrun

/-- The order of the stages makes no difference: in any two orders that respect what the stages
require, a task succeeds in both or in neither, with the same block and the same text. -/
theorem runAll_any_order (t : Task) (stages stages' : List Stage) (h : Ordering stages)
    (h' : Ordering stages') :
    ((∃ d, runAll t stages = .ok d) ↔ ∃ d, runAll t stages' = .ok d) ∧
      ∀ d d', runAll t stages = .ok d → runAll t stages' = .ok d' →
        d.block = d'.block ∧ ∃ text, d.emitted = some text ∧ d'.emitted = some text := by
  constructor
  · simp only [h.runAll_eq_ok_iff, h'.runAll_eq_ok_iff]
  · intro d d' hd hd'
    rw [h.runAll_eq_ok_iff] at hd
    rw [h'.runAll_eq_ok_iff] at hd'
    obtain rfl := hd.unique hd'
    exact ⟨rfl, d.block.render, hd.emitted, hd.emitted⟩

/-- The computed order, and one that leaves the generics of the block to the end. -/
theorem runAll_any_order_generics_last :
    ∃ (t : Task) (d d' : Draft),
      Source.implBlock ⟨"<input>", "impl<T: A> X<T> \x7b #[shadow_method] fn f(); \x7d", none⟩ =
        .ok t.block ∧
      runAll t order = .ok d ∧
      runAll t [selfType, directive, methods, normalize, project, augment, emit] = .ok d' ∧
      d.block = d'.block ∧ ∃ text, d.emitted = some text ∧ d'.emitted = some text := by
  let source : Source := ⟨"<input>", "impl<T: A> X<T> \x7b #[shadow_method] fn f(); \x7d", none⟩
  obtain ⟨d, hd⟩ := exists_of_isOk (x := source.implBlock >>= fun b =>
    runAll ⟨⟨argsFile, "transform_bounds(T)", none⟩, source, b⟩ order) (by decide +kernel)
  obtain ⟨b, hb, hd⟩ := bind_eq_ok_iff.mp hd
  have hlast : Ordering [selfType, directive, methods, normalize, project, augment, emit] :=
    ⟨by decide, by decide⟩
  obtain ⟨hsucceeds, hsame⟩ := runAll_any_order _ _ _ ordering_order hlast
  obtain ⟨d', hd'⟩ := hsucceeds.mp ⟨d, hd⟩
  exact ⟨_, d, d', hb, hd, hd', hsame d d' hd hd'⟩

end Stage
end ShadowImpl
