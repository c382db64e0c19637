import ShadowImpl.Proofs.Scheduling

/-!
# Which pass comes first

Passes leave the queue in the order in which they entered it. So of two passes the one that became
free before the other comes first, whichever was registered first; the order of registration counts
between passes that become free together.
-/

namespace ShadowImpl.Schedule

variable {ν : Type} {requires : ν → List ν} {registered run : List ν} {p q : ν} {k : Nat}

/-- Everything that `p` requires is among the first `k` passes of the run. -/
def FreeAt (requires : ν → List ν) (run : List ν) (k : Nat) (p : ν) : Prop :=
  ∀ r ∈ requires p, r ∈ run.take k

theorem freeAt_length : FreeAt requires run run.length p ↔ ∀ r ∈ requires p, r ∈ run := by
  rw [FreeAt, List.take_length]

theorem FreeAt.mono {l : Nat} (h : FreeAt requires run k p) (hl : k ≤ l) :
    FreeAt requires run l p :=
  fun r hr => (List.take_subset_take_left run hl) (h r hr)

/-- What runs later does not make a pass free earlier. -/
theorem freeAt_append_of_le {more : List ν} (hk : k ≤ run.length) :
    FreeAt requires (run ++ more) k p ↔ FreeAt requires run k p := by
  rw [FreeAt, FreeAt, List.take_append_of_le_length hk]

theorem freeAt_append_of_free {more : List ν} (h : ∀ r ∈ requires p, r ∈ run) :
    FreeAt requires (run ++ more) k p ↔ FreeAt requires run k p := by
  rcases Nat.le_total k run.length with hk | hk
  · exact freeAt_append_of_le hk
  · have hfree := (freeAt_length.mpr h).mono hk
    refine iff_of_true ?_ hfree
    exact ((freeAt_append_of_le (Nat.le_refl _)).mpr (freeAt_length.mpr h)).mono hk

variable [DecidableEq ν]

/-- In the run, `p` became free before `q`, or together with it and was registered before it. -/
structure Sooner (requires : ν → List ν) (registered run : List ν) (p q : ν) : Prop where
  free : ∀ k, FreeAt requires run k q → FreeAt requires run k p
  tie : (∀ k, FreeAt requires run k p → FreeAt requires run k q) →
    registered.idxOf p < registered.idxOf q

theorem Sooner.append {more : List ν} (h : Sooner requires registered run p q)
    (hp : ∀ r ∈ requires p, r ∈ run) (hq : ∀ r ∈ requires q, r ∈ run) :
    Sooner requires registered (run ++ more) p q where
  free := fun k hk => (freeAt_append_of_free hp).mpr (h.free k ((freeAt_append_of_free hq).mp hk))
  tie := fun htie => h.tie fun k hk =>
    (freeAt_append_of_free hq).mp (htie k ((freeAt_append_of_free hp).mpr hk))

/-- What was free before the latest pass ran came before what is free after it. -/
theorem sooner_of_latest {x : ν} (hp : ∀ r ∈ requires p, r ∈ run)
    (hq : ¬ ∀ r ∈ requires q, r ∈ run) : Sooner requires registered (run ++ [x]) p q := by
  have hfree : FreeAt requires (run ++ [x]) run.length p :=
    (freeAt_append_of_le (Nat.le_refl _)).mpr (freeAt_length.mpr hp)
  have hnot : ∀ k ≤ run.length, ¬ FreeAt requires (run ++ [x]) k q := fun k hk h =>
    hq (freeAt_length.mp ((freeAt_append_of_le (Nat.le_refl _)).mp (h.mono hk)))
  refine ⟨fun k hk => hfree.mono ?_, fun htie => absurd (htie _ hfree) (hnot _ (Nat.le_refl _))⟩
  by_contra hlt
  exact hnot k (by omega) hk

/-- Of passes that the latest one made free, the one that was registered first comes first. -/
theorem sooner_of_idxOf {x : ν} (hp : ∀ r ∈ requires p, r ∈ run ++ [x])
    (hq : ¬ ∀ r ∈ requires q, r ∈ run) (h : registered.idxOf p < registered.idxOf q) :
    Sooner requires registered (run ++ [x]) p q := by
  refine ⟨fun k hk => ?_, fun _ => h⟩
  have hle : (run ++ [x]).length ≤ k := by
    by_contra hlt
    rw [List.length_append, List.length_singleton] at hlt
    have hk' := (freeAt_append_of_le (by omega)).mp hk
    exact hq (freeAt_length.mp (hk'.mono (by omega)))
  exact (freeAt_length.mpr hp).mono hle

/-! ## The queue -/

/-- Where the loop stands, with the order in which it has come there. -/
structure Queued (requires : ν → List ν) (registered : List ν) (l : Loop ν) : Prop extends
    Sorted requires registered l where
  ordered : (l.done ++ l.queue).Pairwise (Sooner requires registered l.done)

theorem pairwise_idxOf (h : registered.Nodup) {ps : List ν} (hps : ps.Sublist registered) :
    ps.Pairwise fun p q => registered.idxOf p < registered.idxOf q := by
  refine List.Pairwise.sublist hps ?_
  rw [List.pairwise_iff_getElem]
  intro i j hi hj hij
  rwa [h.idxOf_getElem, h.idxOf_getElem]

theorem Stands.free_of_mem {l : Loop ν} (h : Stands requires registered l)
    (hnodup : registered.Nodup) (hp : p ∈ l.done ++ l.queue) : ∀ r ∈ requires p, r ∈ l.done :=
  (h.mem_iff hnodup (h.known hp)).mp hp

theorem Queued.start (requires : ν → List ν) (hnodup : registered.Nodup) :
    Queued requires registered (.start requires registered) where
  toStands := .start requires registered
  respects := trivial
  ordered := by
    have hstart := Stands.start requires registered
    have hsub : (Loop.start requires registered).queue.Sublist registered :=
      List.filter_sublist.trans (eraseDups_sublist registered)
    refine (pairwise_idxOf hnodup hsub).imp_of_mem ?_
    intro p q hp _ hlt
    refine ⟨fun k _ r hr => ?_, fun _ => hlt⟩
    exact absurd (hstart.free_of_mem hnodup hp r hr) List.not_mem_nil

theorem Queued.next {l l' : Loop ν} (hnodup : registered.Nodup) (h : Queued requires registered l)
    (hnext : l.next requires registered = some l') : Queued requires registered l' where
  toSorted := h.toSorted.next hnodup hnext
  ordered := by
    have hstands := h.toStands.next hnext
    obtain ⟨x, queue, freed, hqueue, rfl, hsub, -, hmem⟩ := Loop.next_eq_some hnext
    have hregistered := hsub.trans List.filter_sublist
    -- a pass that is freed now had to wait for the latest one
    have hlate : ∀ q ∈ freed, ¬ ∀ r ∈ requires q, r ∈ l.done := by
      intro q hq hfree
      have hq' := hregistered.subset hq
      have hle := (h.reached q hq').mp ((h.mem_iff hnodup hq').mpr hfree)
      have hlt := ((hmem q).mp hq).1
      omega
    have hfront := h.ordered
    have hfree : ∀ q ∈ l.done ++ l.queue, ∀ r ∈ requires q, r ∈ l.done :=
      fun q hq => h.free_of_mem hnodup hq
    rw [hqueue] at hfront hfree
    have hassoc : l.done ++ [x] ++ (queue ++ freed) = l.done ++ x :: queue ++ freed := by simp
    change (l.done ++ [x] ++ (queue ++ freed)).Pairwise _
    rw [hassoc, List.pairwise_append]
    refine ⟨?_, ?_, ?_⟩
    · exact hfront.imp_of_mem fun hp hq hpq => hpq.append (hfree _ hp) (hfree _ hq)
    · refine (pairwise_idxOf hnodup hregistered).imp_of_mem ?_
      intro p q hp hq hlt
      have hp' : p ∈ l.done ++ [x] ++ (queue ++ freed) := by simp [hp]
      exact sooner_of_idxOf (hstands.free_of_mem hnodup hp') (hlate q hq) hlt
    · exact fun p hp q hq => sooner_of_latest (hfree p hp) (hlate q hq)

/-- Passes that can be ordered are run in the order in which they become free: each one became free
before those that are run after it, or together with them and was registered before them. -/
theorem order_first_freed (h : Orderly requires registered) :
    ∃ sorted, order requires registered = .ok sorted ∧
      sorted.Pairwise (Sooner requires registered sorted) := by
  have hend : Queued requires registered (final requires registered) :=
    Loop.run_keeps (Queued requires registered) (fun _ _ hl => hl.next h.nodup) _
      (.start requires h.nodup)
  have hordered := hend.ordered
  rw [(stands_final requires registered).2, List.append_nil] at hordered
  exact ⟨_, h.order_eq, hordered⟩

/-! ## A pass that overtakes -/

/-- Each pass of the run is the first registered one of all that could be run there. -/
def EarliestFirst (requires : ν → List ν) (registered run : List ν) : Prop :=
  ∀ done p later, run = done ++ p :: later → ∀ q ∈ registered, q ∉ done →
    (∀ r ∈ requires q, r ∈ done) → registered.idxOf p ≤ registered.idxOf q

/-- Three passes of which the first one registered requires the second. -/
def leader : Nat → List Nat
  | 1 => [0]
  | _ => []

theorem orderly_leader : Orderly leader [1, 0, 2] where
  closed := by decide
  nodup := by decide
  acyclic := by
    have hrespects : Respects leader [] [0, 2, 1] := by decide
    refine hrespects.acyclic (by decide) fun p => ?_
    simp only [List.mem_cons, List.not_mem_nil, or_false]
    omega

theorem order_first_freed_leader : Orderly leader [1, 0, 2] ∧
    ∃ sorted, order leader [1, 0, 2] = .ok sorted ∧
      sorted.Pairwise (Sooner leader [1, 0, 2] sorted) :=
  ⟨orderly_leader, order_first_freed orderly_leader⟩

/-- After the pass that it requires, the first one registered could run; the last one is run before
it. -/
theorem order_not_earliestFirst : Orderly leader [1, 0, 2] ∧
    ∃ sorted, order leader [1, 0, 2] = .ok sorted ∧ ¬ EarliestFirst leader [1, 0, 2] sorted := by
  refine ⟨orderly_leader, [0, 2, 1], by decide, fun h => ?_⟩
  have hle := h [0] 2 [1] rfl 1 (by decide) (by decide) (by decide)
  exact absurd hle (by decide)

end ShadowImpl.Schedule
