import Mathlib.Data.Fintype.Lattice
import Mathlib.Data.List.Perm.Basic
import Mathlib.Data.Set.Finite.Lemmas
import Mathlib.Logic.Relation
import Mathlib.Order.WellFounded
import ShadowImpl.Proofs.Confluence

/-!
# The order of the passes

Passes are run out of a queue. One invariant says how the passes that have run, those in the queue
and those that wait share out the registered ones, and what is still waited for; one step of the
loop keeps it. At the end of the loop the queue is empty, and whatever still waits requires
something that waits as well.
-/

namespace ShadowImpl.Schedule

variable {ν : Type} {requires : ν → List ν} {registered done queue sorted : List ν}

/-! ## What is required -/

/-- Every pass that is required is registered. -/
def Closed (requires : ν → List ν) (registered : List ν) : Prop :=
  ∀ p ∈ registered, ∀ r ∈ requires p, r ∈ registered

instance [DecidableEq ν] (requires : ν → List ν) (registered : List ν) :
    Decidable (Closed requires registered) :=
  inferInstanceAs (Decidable (∀ p ∈ registered, ∀ r ∈ requires p, r ∈ registered))

/-- The registered pass `p` requires the registered pass `r`. -/
def Requires (requires : ν → List ν) (registered : List ν) (p r : ν) : Prop :=
  p ∈ registered ∧ r ∈ registered ∧ r ∈ requires p

/-- No registered pass requires itself, be it through others. -/
def Acyclic (requires : ν → List ν) (registered : List ν) : Prop :=
  ∀ p, ¬ Relation.TransGen (Requires requires registered) p p

/-- In acyclic passes there is one among some of them that requires none of these. -/
theorem Acyclic.exists_least (h : Acyclic requires registered) {l : List ν} (hl : l ≠ [])
    (hsub : ∀ p ∈ l, p ∈ registered) : ∃ p ∈ l, ∀ r ∈ l, r ∉ requires p := by
  let below (a b : { p // p ∈ l }) : Prop := Relation.TransGen (Requires requires registered) b a
  have htrans : IsTrans { p // p ∈ l } below := ⟨fun _ _ _ hab hbc => hbc.trans hab⟩
  have hirrefl : Std.Irrefl below := ⟨fun a ha => h a ha⟩
  have hfinite : Finite { p // p ∈ l } := l.finite_toSet.to_subtype
  have hwf : WellFounded below := Finite.wellFounded_of_trans_of_irrefl below
  obtain ⟨p, hp⟩ := List.exists_mem_of_ne_nil l hl
  obtain ⟨⟨m, hm⟩, -, hmin⟩ := hwf.has_min Set.univ ⟨⟨p, hp⟩, trivial⟩
  refine ⟨m, hm, fun r hr hreq => ?_⟩
  exact hmin ⟨r, hr⟩ trivial (.single ⟨hsub m hm, hsub r hr, hreq⟩)

theorem respects_append_singleton {before : List ν} {p : ν} :
    Respects requires before (done ++ [p]) ↔
      Respects requires before done ∧ ∀ r ∈ requires p, r ∈ before ++ done := by
  induction done generalizing before with
  | nil => simp [Respects]
  | cons q done ih => simp [Respects, ih, and_assoc]

/-- What a pass requires stands in front of it. -/
theorem Respects.exists_split {p : ν} (h : Respects requires [] sorted) (hp : p ∈ sorted) :
    ∃ l l', sorted = l ++ p :: l' ∧ ∀ r ∈ requires p, r ∈ l := by
  induction sorted using List.reverseRecOn with
  | nil => simp at hp
  | append_singleton sorted q ih =>
    obtain ⟨hsorted, hq⟩ := respects_append_singleton.mp h
    rcases List.mem_append.mp hp with hp | hp
    · obtain ⟨l, l', rfl, hl⟩ := ih hsorted hp
      exact ⟨l, l' ++ [q], by simp, hl⟩
    · obtain rfl := List.mem_singleton.mp hp
      exact ⟨sorted, [], rfl, by simpa using hq⟩

variable [DecidableEq ν]

/-- In an order, requirements go to the front, so that they never come back. -/
theorem Respects.acyclic (h : Respects requires [] sorted) (hnodup : sorted.Nodup)
    (hmem : ∀ p, p ∈ sorted ↔ p ∈ registered) : Acyclic requires registered := by
  have hstep : ∀ p r, Requires requires registered p r → sorted.idxOf r < sorted.idxOf p := by
    rintro p r ⟨hp, -, hr⟩
    obtain ⟨l, l', rfl, hl⟩ := h.exists_split ((hmem p).mpr hp)
    have hpl : p ∉ l := by
      rw [List.nodup_append] at hnodup
      exact fun hpl => hnodup.2.2 p hpl p List.mem_cons_self rfl
    rw [List.idxOf_append_of_mem (hl r hr), List.idxOf_append_of_notMem hpl]
    have := List.idxOf_lt_length_of_mem (hl r hr)
    omega
  intro p hcycle
  have hlt : ∀ q, Relation.TransGen (Requires requires registered) p q →
      sorted.idxOf q < sorted.idxOf p := by
    intro q hq
    induction hq with
    | single hr => exact hstep _ _ hr
    | tail _ hr ih => exact (hstep _ _ hr).trans ih
  exact absurd (hlt p hcycle) (Nat.lt_irrefl _)

/-! ## One turn of the loop -/

namespace Loop

variable {l l' : Loop ν}

theorem degree_lower (l : Loop ν) (a p : ν) (ps : List ν) :
    (l.lower a).degree p - ps.count p = l.degree p - (a :: ps).count p := by
  by_cases hp : p = a
  · subst hp
    simp only [lower, if_pos, List.count_cons_self]
    omega
  · simp [lower, hp, List.count_cons_of_ne (Ne.symm hp)]

/-- Passes that lack one requirement less, one after the other: those that come to lack none join
the queue, each of them once, however often it stands among them. -/
theorem foldl_lower (ps : List ν) (l : Loop ν) : ∃ freed, ps.foldl lower l =
    ⟨fun p => l.degree p - ps.count p, l.queue ++ freed, l.done⟩ ∧ freed.Sublist ps ∧ freed.Nodup ∧
      ∀ p, p ∈ freed ↔ 0 < l.degree p ∧ l.degree p ≤ ps.count p := by
  induction ps generalizing l with
  | nil => exact ⟨[], by simp, .slnil, .nil, fun p => by simp⟩
  | cons a ps ih =>
    obtain ⟨freed, hfold, hsub, hnodup, hmem⟩ := ih (l.lower a)
    have hself : (l.lower a).degree a = l.degree a - 1 := if_pos rfl
    have hother : ∀ p, p ≠ a → (l.lower a).degree p = l.degree p := fun p hp => if_neg hp
    have hdegree : (fun p => (l.lower a).degree p - ps.count p) =
        fun p => l.degree p - (a :: ps).count p := funext fun p => degree_lower l a p ps
    -- the number that `a` lacks passes through zero at most once
    by_cases hzero : l.degree a - 1 = 0
    · have hnot : a ∉ freed := by
        rw [hmem, hself, hzero]
        omega
      refine ⟨a :: freed, ?_, hsub.cons_cons a, List.nodup_cons.mpr ⟨hnot, hnodup⟩, fun p => ?_⟩
      · rw [List.foldl_cons, hfold, hdegree]
        simp [lower, hzero]
      · by_cases hp : p = a
        · subst hp
          simp only [List.mem_cons_self, true_iff, List.count_cons_self]
          omega
        · rw [List.mem_cons, or_iff_right hp, hmem, hother p hp, List.count_cons_of_ne (Ne.symm hp)]
    · refine ⟨freed, ?_, hsub.cons a, hnodup, fun p => ?_⟩
      · rw [List.foldl_cons, hfold, hdegree]
        simp [lower, hzero]
      · by_cases hp : p = a
        · subst hp
          rw [hmem, hself, List.count_cons_self]
          omega
        · rw [hmem, hother p hp, List.count_cons_of_ne (Ne.symm hp)]

/-- The registered passes that require `p`, each as often as it is registered. -/
def dependents (requires : ν → List ν) (registered : List ν) (p : ν) : List ν :=
  registered.filter fun q => p ∈ requires q

/-- One turn: the first pass in the queue runs, and what it frees joins the queue. -/
theorem next_eq_some (h : l.next requires registered = some l') : ∃ p queue freed,
    l.queue = p :: queue ∧
      l' = ⟨fun q => l.degree q - (dependents requires registered p).count q, queue ++ freed,
        l.done ++ [p]⟩ ∧
      freed.Sublist (dependents requires registered p) ∧ freed.Nodup ∧
      ∀ q, q ∈ freed ↔ 0 < l.degree q ∧
      l.degree q ≤ (dependents requires registered p).count q := by
  rw [next] at h
  cases hqueue : l.queue with
  | nil => simp [hqueue] at h
  | cons p queue =>
    simp only [hqueue, Option.some.injEq] at h
    obtain ⟨freed, hfold, hfreed⟩ := foldl_lower (dependents requires registered p)
      { l with queue, done := l.done ++ [p] }
    refine ⟨p, queue, freed, rfl, ?_, hfreed⟩
    rw [← h, ← hfold, dependents, List.foldl_filter]
    simp

theorem next_eq_none : l.next requires registered = none ↔ l.queue = [] := by
  rw [next]
  split <;> simp_all

/-- What every turn keeps, the loop keeps. -/
theorem run_keeps (keeps : Loop ν → Prop)
    (hnext : ∀ l l', keeps l → l.next requires registered = some l' → keeps l')
    (n : Nat) (h : keeps l) : keeps (l.run requires registered n) := by
  induction n generalizing l with
  | zero => exact h
  | succ n ih =>
    rw [run]
    split
    · exact h
    · rename_i l' hl'
      exact ih (hnext l l' h hl')

/-- A loop whose queue is empty is at its end: it does not run more if it is allowed more. -/
theorem run_of_le {m n : Nat} (hmn : m ≤ n) (h : (l.run requires registered m).queue = []) :
    l.run requires registered n = l.run requires registered m := by
  induction m generalizing n l with
  | zero =>
    cases n with
    | zero => rfl
    | succ n =>
      have hnone : l.next requires registered = none := next_eq_none.mpr h
      simp only [run, hnone]
  | succ m ih =>
    obtain ⟨n, rfl⟩ : ∃ k, n = k + 1 := ⟨n - 1, by omega⟩
    rw [run] at h ⊢
    rw [run]
    cases hnext : l.next requires registered with
    | none => rfl
    | some l' =>
      rw [hnext] at h
      exact ih (by omega) h

end Loop

/-! ## The invariant -/

theorem eraseDups_sublist (l : List ν) : l.eraseDups.Sublist l := by
  match l with
  | [] => exact List.Sublist.refl _
  | a :: l =>
    have hshort : (l.filter fun b => !b == a).length ≤ l.length := List.length_filter_le _ _
    rw [List.eraseDups_cons]
    exact ((eraseDups_sublist _).trans List.filter_sublist).cons_cons a
termination_by l.length
decreasing_by
  rw [List.length_cons]
  exact Nat.lt_succ_of_le hshort

theorem nodup_eraseDups (l : List ν) : l.eraseDups.Nodup := by
  match l with
  | [] => exact List.nodup_nil
  | a :: l =>
    have hshort : (l.filter fun b => !b == a).length ≤ l.length := List.length_filter_le _ _
    rw [List.eraseDups_cons, List.nodup_cons]
    exact ⟨by simp, nodup_eraseDups _⟩
termination_by l.length
decreasing_by
  rw [List.length_cons]
  exact Nat.lt_succ_of_le hshort

theorem eraseDups_eq_self {l : List ν} (h : l.Nodup) : l.eraseDups = l := by
  induction l with
  | nil => rfl
  | cons a l ih =>
    obtain ⟨ha, hl⟩ := List.nodup_cons.mp h
    have hfilter : (l.filter fun b => !b == a) = l := by
      rw [List.filter_eq_self]
      intro b hb
      have hne : b ≠ a := fun heq => ha (heq ▸ hb)
      simpa using hne
    rw [List.eraseDups_cons, hfilter, ih hl]

/-- Where the loop stands: no pass has run or waits in the queue twice, each registered pass lacks
as many requirements as it counts, and a pass has come to the queue once it lacked none. -/
structure Stands (requires : ν → List ν) (registered : List ν) (l : Loop ν) : Prop where
  nodup : (l.done ++ l.queue).Nodup
  known : l.done ++ l.queue ⊆ registered
  degree : ∀ p ∈ registered, l.degree p = (requires p).eraseDups.length -
    registered.count p * (((requires p).eraseDups.filter (· ∈ l.done)).length : Int)
  reached : ∀ p ∈ registered, p ∈ l.done ++ l.queue ↔ l.degree p ≤ 0

theorem Stands.start (requires : ν → List ν) (registered : List ν) :
    Stands requires registered (.start requires registered) where
  nodup := (nodup_eraseDups registered).filter _
  known := by
    rw [Loop.start, List.nil_append]
    exact (List.filter_sublist.trans (eraseDups_sublist registered)).subset
  degree p _ := by simp [Loop.start]
  reached p hp := by simp [Loop.start, List.mem_eraseDups, hp]

theorem count_dependents (p q : ν) : (Loop.dependents requires registered p).count q =
    if p ∈ requires q then registered.count q else 0 := by
  split
  · rename_i h
    exact List.count_filter (by simpa using h)
  · rename_i h
    exact List.count_eq_zero_of_not_mem (by simp [Loop.dependents, h])

/-- One more requirement has run. -/
theorem length_filter_done {needs done : List ν} {p : ν} (hneeds : needs.Nodup) (hp : p ∉ done) :
    (needs.filter (· ∈ done ++ [p])).length =
      (needs.filter (· ∈ done)).length + if p ∈ needs then 1 else 0 := by
  induction needs with
  | nil => rfl
  | cons a needs ih =>
    obtain ⟨ha, hneeds⟩ := List.nodup_cons.mp hneeds
    have ih := ih hneeds
    -- The names are distinct, so `p` is counted once.
    by_cases hap : a = p
    · subst hap
      rw [if_neg ha] at ih
      rw [List.filter_cons_of_pos (by simp), List.filter_cons_of_neg (by simpa using hp),
        if_pos (by simp), List.length_cons, ih]
    · have hiff : p ∈ a :: needs ↔ p ∈ needs := by simp [Ne.symm hap]
      by_cases hdone : a ∈ done
      · rw [List.filter_cons_of_pos (by simp [hdone]),
          List.filter_cons_of_pos (by simpa using hdone)]
        simp only [List.length_cons, ih, hiff]
        omega
      · rw [List.filter_cons_of_neg (by simp [hdone, hap]),
          List.filter_cons_of_neg (by simpa using hdone)]
        simp only [ih, hiff]

theorem Stands.next {l l' : Loop ν} (h : Stands requires registered l)
    (hnext : l.next requires registered = some l') : Stands requires registered l' := by
  obtain ⟨p, queue, freed, hqueue, rfl, hsub, hfreed, hmem⟩ := Loop.next_eq_some hnext
  have hnodup := h.nodup
  have hknown := h.known
  have hreached := h.reached
  rw [hqueue] at hnodup hknown hreached
  -- The pass at the front has not run: each name stands in the queue or among those that have run
  -- only once.
  have hp : p ∉ l.done := fun hp =>
    (List.nodup_append.mp hnodup).2.2 p hp p List.mem_cons_self rfl
  have hassoc : l.done ++ [p] ++ (queue ++ freed) = l.done ++ p :: queue ++ freed := by simp
  have hregistered : freed ⊆ registered := (hsub.trans List.filter_sublist).subset
  refine ⟨?_, ?_, fun q hq => ?_, fun q hq => ?_⟩
  · rw [hassoc, List.nodup_append]
    refine ⟨hnodup, hfreed, fun q hq r hr heq => ?_⟩
    subst heq
    have hle := (hreached q (hknown hq)).mp hq
    have hlt := ((hmem q).mp hr).1
    omega
  · rw [hassoc]
    exact List.append_subset.mpr ⟨hknown, hregistered⟩
  · -- A pass that requires `p` is looked at as often as it is registered, and its degree sinks each
    -- time.
    have hlength := length_filter_done (nodup_eraseDups (requires q)) hp
    simp only [List.mem_eraseDups] at hlength
    change l.degree q - _ = _
    rw [h.degree q hq, hlength, count_dependents]
    split
    · rw [Int.natCast_add, Int.mul_add]
      omega
    · simp
  · rw [hassoc, List.mem_append, hreached q hq, hmem q]
    change _ ↔ l.degree q - _ ≤ 0
    omega

/-- Where the loop stands after any number of turns. -/
theorem Stands.run {l : Loop ν} (h : Stands requires registered l) (n : Nat) :
    Stands requires registered (l.run requires registered n) :=
  Loop.run_keeps (Stands requires registered) (fun _ _ hl => hl.next) n h

/-- The queue is empty after as many turns as there are passes that have not run. -/
theorem Stands.queue_run {l : Loop ν} {n : Nat} (h : Stands requires registered l)
    (hn : registered.length ≤ l.done.length + n) : (l.run requires registered n).queue = [] := by
  induction n generalizing l with
  | zero =>
    have hle := (h.nodup.subperm h.known).length_le
    rw [List.length_append] at hle
    have hempty : l.queue.length = 0 := by omega
    exact List.eq_nil_of_length_eq_zero hempty
  | succ n ih =>
    rw [Loop.run]
    cases hnext : l.next requires registered with
    | none => exact Loop.next_eq_none.mp hnext
    | some l' =>
      refine ih (h.next hnext) ?_
      obtain ⟨p, queue, freed, -, rfl, -⟩ := Loop.next_eq_some hnext
      simp only [List.length_append, List.length_singleton]
      omega

/-- Where passes are registered once, one comes to the queue when all that it requires has run. -/
theorem Stands.mem_iff {l : Loop ν} (h : Stands requires registered l)
    (hnodup : registered.Nodup) {p : ν} (hp : p ∈ registered) :
    p ∈ l.done ++ l.queue ↔ ∀ r ∈ requires p, r ∈ l.done := by
  have hle : ((requires p).eraseDups.filter (· ∈ l.done)).length ≤ (requires p).eraseDups.length :=
    List.length_filter_le _ _
  rw [h.reached p hp, h.degree p hp, List.count_eq_one_of_mem hnodup hp]
  have hall : ((requires p).eraseDups.filter (· ∈ l.done)).length = (requires p).eraseDups.length ↔
      ∀ r ∈ requires p, r ∈ l.done := by
    rw [List.length_filter_eq_length_iff]
    simp
  rw [← hall]
  omega

/-! ## The end of the loop -/

/-- The loop at its end. -/
def final (requires : ν → List ν) (registered : List ν) : Loop ν :=
  (Loop.start requires registered).run requires registered registered.length

theorem stands_final (requires : ν → List ν) (registered : List ν) :
    Stands requires registered (final requires registered) ∧
    (final requires registered).queue = [] := by
  have hstart := Stands.start requires registered
  exact ⟨hstart.run _, hstart.queue_run (by simp)⟩

/-- In a run each pass comes after those that it requires, if passes are registered once. -/
structure Sorted (requires : ν → List ν) (registered : List ν) (l : Loop ν) : Prop extends
    Stands requires registered l where
  respects : Respects requires [] l.done

theorem Sorted.next {l l' : Loop ν} (hnodup : registered.Nodup) (h : Sorted requires registered l)
    (hnext : l.next requires registered = some l') : Sorted requires registered l' where
  toStands := h.toStands.next hnext
  respects := by
    obtain ⟨p, queue, freed, hqueue, rfl, -⟩ := Loop.next_eq_some hnext
    have hmem : p ∈ l.done ++ l.queue := by simp [hqueue]
    exact respects_append_singleton.mpr ⟨h.respects, (h.mem_iff hnodup (h.known hmem)).mp hmem⟩

theorem sorted_final (requires : ν → List ν) (hnodup : registered.Nodup) :
    Sorted requires registered (final requires registered) :=
  Loop.run_keeps (Sorted requires registered) (fun _ _ h => h.next hnodup) _
    ⟨.start requires registered, trivial⟩

/-- The test of the length: every registered pass has run, and none is registered twice. -/
theorem perm_final_iff :
    (final requires registered).done.length = registered.length ↔
      (final requires registered).done.Perm registered ∧ registered.Nodup := by
  obtain ⟨hstands, hqueue⟩ := stands_final requires registered
  have hnodup := hstands.nodup
  have hknown := hstands.known
  rw [hqueue, List.append_nil] at hnodup hknown
  constructor
  · intro hlen
    have hperm := (hnodup.subperm hknown).perm_of_length_le (by omega)
    exact ⟨hperm, hperm.nodup_iff.mp hnodup⟩
  · exact fun h => h.1.length_eq

/-- Passes that are closed, acyclic and registered once all run. -/
theorem perm_final (hclosed : Closed requires registered) (hnodup : registered.Nodup)
    (hacyclic : Acyclic requires registered) :
    (final requires registered).done.Perm registered := by
  obtain ⟨hstands, hqueue⟩ := stands_final requires registered
  have hknown := hstands.known
  have hran := hstands.nodup
  rw [hqueue, List.append_nil] at hknown hran
  refine (List.perm_ext_iff_of_nodup hran hnodup).mpr fun p => ⟨fun hp => hknown hp, fun hp => ?_⟩
  by_contra hnot
  -- the least of the passes that are left has all that it requires behind it
  obtain ⟨m, hm, hleast⟩ := hacyclic.exists_least
    (l := registered.filter (· ∉ (final requires registered).done))
    (List.ne_nil_of_mem (List.mem_filter.mpr ⟨hp, by simpa using hnot⟩))
    fun q hq => (List.mem_filter.mp hq).1
  obtain ⟨hm, hleft⟩ := List.mem_filter.mp hm
  have hfree : ∀ r ∈ requires m, r ∈ (final requires registered).done := by
    intro r hr
    by_contra hr'
    exact hleast r (List.mem_filter.mpr ⟨hclosed m hm r hr, by simpa using hr'⟩) hr
  have hcame := (hstands.mem_iff hnodup hm).mpr hfree
  rw [hqueue, List.append_nil] at hcame
  exact absurd hcame (by simpa using hleft)

/-! ## The order -/

theorem missing_eq_nil_iff {p : ν} :
    missing requires registered p = [] ↔ ∀ r ∈ requires p, r ∈ registered := by
  simp [missing, List.filter_eq_nil_iff]

theorem mem_missing {p r : ν} :
    r ∈ missing requires registered p ↔ r ∈ requires p ∧ r ∉ registered := by
  simp [missing]

/-- Passes that lack nothing are tried in a loop. -/
theorem order_of_closed (h : Closed requires registered) :
    order requires registered =
      if (final requires registered).done.length = registered.length then
        .ok (final requires registered).done
      else .error .circular := by
  have hfind : registered.find? (fun p => !(missing requires registered p).isEmpty) = none := by
    rw [List.find?_eq_none]
    intro p hp
    simpa [missing_eq_nil_iff] using h p hp
  rw [order, hfind]
  rfl

/-- Of passes that lack something, the first is named with what it lacks. -/
theorem order_of_not_closed (h : ¬ Closed requires registered) :
    ∃ p ∈ registered, missing requires registered p ≠ [] ∧
      order requires registered = .error (.unregistered p (missing requires registered p)) := by
  cases hfind : registered.find? fun p => !(missing requires registered p).isEmpty with
  | none =>
    refine absurd (fun p hp => ?_) h
    have := List.find?_eq_none.mp hfind p hp
    simpa [missing_eq_nil_iff] using this
  | some p =>
    refine ⟨p, List.mem_of_find?_eq_some hfind, ?_, ?_⟩
    · simpa using List.find?_some hfind
    · rw [order, hfind]

/-- Registered passes that can be run one after the other. -/
structure Orderly (requires : ν → List ν) (registered : List ν) : Prop where
  closed : Closed requires registered
  nodup : registered.Nodup
  acyclic : Acyclic requires registered

theorem Orderly.order_eq (h : Orderly requires registered) :
    order requires registered = .ok (final requires registered).done := by
  have hlen := (perm_final h.closed h.nodup h.acyclic).length_eq
  rw [order_of_closed h.closed, if_pos hlen]

theorem order_eq_ok (h : order requires registered = .ok sorted) :
    Orderly requires registered ∧ sorted.Perm registered ∧ Respects requires [] sorted := by
  by_cases hclosed : Closed requires registered
  · rw [order_of_closed hclosed] at h
    split at h
    · rename_i hlen
      obtain rfl := Except.ok.inj h
      obtain ⟨hperm, hnodup⟩ := perm_final_iff.mp hlen
      have hrespects := (sorted_final requires hnodup).respects
      have hacyclic := hrespects.acyclic (hperm.nodup_iff.mpr hnodup) fun p => hperm.mem_iff
      exact ⟨⟨hclosed, hnodup, hacyclic⟩, hperm, hrespects⟩
    · simp at h
  · obtain ⟨p, -, -, hp⟩ := order_of_not_closed hclosed
    simp [hp] at h

theorem order_eq_circular_iff : order requires registered = .error .circular ↔
    Closed requires registered ∧ ¬ (registered.Nodup ∧ Acyclic requires registered) := by
  by_cases hclosed : Closed requires registered
  · constructor
    · intro h
      refine ⟨hclosed, fun hok => ?_⟩
      simp [(Orderly.mk hclosed hok.1 hok.2).order_eq] at h
    · rintro ⟨-, hnot⟩
      cases hres : order requires registered with
      | ok sorted =>
        have horderly := (order_eq_ok hres).1
        exact absurd ⟨horderly.nodup, horderly.acyclic⟩ hnot
      | error failure =>
        rw [order_of_closed hclosed] at hres
        split at hres
        · simp at hres
        · exact hres.symm
  · obtain ⟨p, -, -, hp⟩ := order_of_not_closed hclosed
    simp [hp, hclosed]

theorem order_eq_unregistered {p : ν} {lacks : List ν}
    (h : order requires registered = .error (.unregistered p lacks)) :
    p ∈ registered ∧ lacks ≠ [] ∧ ∀ r, r ∈ lacks ↔ r ∈ requires p ∧ r ∉ registered := by
  by_cases hclosed : Closed requires registered
  · rw [order_of_closed hclosed] at h
    split at h <;> simp at h
  · obtain ⟨q, hq, hlacks, heq⟩ := order_of_not_closed hclosed
    obtain ⟨rfl, rfl⟩ : q = p ∧ missing requires registered q = lacks := by simpa [heq] using h
    exact ⟨hq, hlacks, fun r => mem_missing⟩

/-- Ordering passes always comes to an end, and with one of three answers: after as many turns as
passes are registered the queue is empty, and more turns change nothing. A pass that is required but
not registered is reported exactly if there is one, with what lacks it. Otherwise there is an order
exactly if no pass is registered twice and none requires itself through others, and if not, that is
the failure. An order has each registered pass once, after all that it requires. -/
theorem order_correct (requires : ν → List ν) (registered : List ν) :
    (∀ n ≥ registered.length,
        ((Loop.start requires registered).run requires registered n).queue = [] ∧
        (Loop.start requires registered).run requires registered n = final requires registered) ∧
      ((∃ p lacks, order requires registered = .error (.unregistered p lacks)) ↔
        ¬ Closed requires registered) ∧
      (∀ p lacks, order requires registered = .error (.unregistered p lacks) →
        p ∈ registered ∧ lacks ≠ [] ∧ ∀ r, r ∈ lacks ↔ r ∈ requires p ∧ r ∉ registered) ∧
      ((∃ sorted, order requires registered = .ok sorted) ↔
        Closed requires registered ∧ registered.Nodup ∧ Acyclic requires registered) ∧
      (order requires registered = .error .circular ↔
        Closed requires registered ∧ ¬ (registered.Nodup ∧ Acyclic requires registered)) ∧
      ∀ sorted, order requires registered = .ok sorted →
        sorted.Perm registered ∧ Respects requires [] sorted := by
  obtain ⟨-, hqueue⟩ := stands_final requires registered
  -- The loop has stopped for good when the queue is empty.
  refine ⟨fun n hn => ?_, ⟨?_, fun h => ?_⟩, fun p lacks => order_eq_unregistered, ⟨?_, ?_⟩,
    order_eq_circular_iff, fun sorted h => (order_eq_ok h).2⟩
  · have hend := Loop.run_of_le hn hqueue
    exact ⟨hend ▸ hqueue, hend⟩
  · rintro ⟨p, lacks, h⟩ hclosed
    obtain ⟨hp, hne, hlacks⟩ := order_eq_unregistered h
    obtain ⟨r, hr⟩ := List.exists_mem_of_ne_nil lacks hne
    obtain ⟨hreq, hnot⟩ := (hlacks r).mp hr
    exact hnot (hclosed p hp r hreq)
  · obtain ⟨p, -, -, hp⟩ := order_of_not_closed h
    exact ⟨p, _, hp⟩
  · rintro ⟨sorted, h⟩
    have horderly := (order_eq_ok h).1
    exact ⟨horderly.closed, horderly.nodup, horderly.acyclic⟩
  · rintro ⟨hclosed, hnodup, hacyclic⟩
    exact ⟨_, (Orderly.mk hclosed hnodup hacyclic).order_eq⟩

end ShadowImpl.Schedule
