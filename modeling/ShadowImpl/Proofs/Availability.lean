import ShadowImpl.Proofs.Scheduling
import ShadowImpl.Schedule.Run

/-!
# What passes find when they read

A run keeps a log, and the results that are there follow from the log. So what a pass reads is what
was stored last under that name; and if it reads only what passes in front of it store, it always
finds something. That it is what those passes have stored takes more: no pass may store under the
name of another one.
-/

namespace ShadowImpl.Schedule

variable {ν α υ ε : Type}

/-! ## Logs -/

namespace Event

/-- The pass that an event belongs to. -/
def pass : Event ν α → ν
  | started p | read p _ _ | stored p _ _ => p

/-- The pass that starts with an event. -/
def start? : Event ν α → Option ν
  | started p => some p
  | _ => none

/-- What the event stores under the name `q`. -/
def storedAs [DecidableEq ν] (q : ν) : Event ν α → Option α
  | stored _ key value => if key = q then some value else none
  | _ => none

/-- If the event stores something, then under the name of its own pass. -/
def IsOwn : Event ν α → Prop
  | stored p key _ => key = p
  | _ => True

end Event

/-- The passes that start in the course of a log. -/
def started (log : List (Event ν α)) : List ν :=
  log.filterMap Event.start?

@[simp] theorem started_append (l l' : List (Event ν α)) :
    started (l ++ l') = started l ++ started l' :=
  List.filterMap_append

@[simp] theorem started_cons_started (p : ν) (l : List (Event ν α)) :
    started (.started p :: l) = p :: started l := rfl

/-- The passes run one at a time: each event belongs to the pass that has started last. -/
def OneAtATime (log : List (Event ν α)) : Prop :=
  ∀ l e l', log = l ++ e :: l' → (started (l ++ [e])).getLast? = some e.pass

theorem OneAtATime.nil : OneAtATime ([] : List (Event ν α)) := by
  intro l e l' h
  simp at h

theorem OneAtATime.append {l₁ l₂ : List (Event ν α)} (h₁ : OneAtATime l₁) (h₂ : OneAtATime l₂) :
    OneAtATime (l₁ ++ l₂) := by
  intro l e l' heq
  rcases List.append_eq_append_iff.mp heq with ⟨k, rfl, hk⟩ | ⟨k, hk, heq₂⟩
  · rw [List.append_assoc, started_append, List.getLast?_append, h₂ k e l' hk]
    rfl
  · cases k with
    | nil =>
      obtain rfl : l₁ = l := by simpa using hk
      rw [started_append, List.getLast?_append]
      have := h₂ [] e l' (by simpa using heq₂.symm)
      rw [List.nil_append] at this
      rw [this]
      rfl
    | cons x k =>
      obtain ⟨rfl, -⟩ := List.cons.inj heq₂
      exact h₁ l _ k hk

/-- One turn: a pass starts, and all else that happens belongs to it. -/
theorem oneAtATime_turn {p : ν} {own : List (Event ν α)} (hpass : ∀ e ∈ own, e.pass = p)
    (hstart : started own = []) : OneAtATime (.started p :: own) := by
  intro l e l' heq
  cases l with
  | nil =>
    obtain ⟨rfl, -⟩ := List.cons.inj heq
    rfl
  | cons x l =>
    obtain ⟨rfl, rfl⟩ := List.cons.inj heq
    have hnone : started (l ++ [e]) = [] := by
      change started (l ++ e :: l') = [] at hstart
      rw [List.append_cons, started_append] at hstart
      exact (List.append_eq_nil_iff.mp hstart).1
    rw [List.cons_append, started_cons_started, hnone, hpass e (by simp)]
    rfl

variable [DecidableEq ν]

/-- What was stored last under the name `q` in the course of a log. -/
def lastStored (q : ν) (log : List (Event ν α)) : Option α :=
  (log.filterMap (Event.storedAs q)).getLast?

theorem lastStored_append (q : ν) (l l' : List (Event ν α)) :
    lastStored q (l ++ l') = (lastStored q l').or (lastStored q l) := by
  rw [lastStored, List.filterMap_append, List.getLast?_append]
  rfl

/-- What has been stored may be replaced, but it does not get lost. -/
theorem isSome_lastStored_append {q : ν} {l : List (Event ν α)} (h : (lastStored q l).isSome)
    (l' : List (Event ν α)) : (lastStored q (l ++ l')).isSome := by
  rw [lastStored_append]
  cases lastStored q l' with
  | none => exact h
  | some value => rfl

/-- Events of other passes store nothing under the name `q` if each stores under its own. -/
theorem lastStored_of_ne {q : ν} {log : List (Event ν α)} (h : ∀ e ∈ log, e.pass ≠ q)
    (hown : ∀ e ∈ log, e.IsOwn) : lastStored q log = none := by
  rw [lastStored, List.getLast?_eq_none_iff, List.filterMap_eq_nil_iff]
  intro e he
  cases e with
  | started | read => rfl
  | stored p key value =>
    obtain rfl : key = p := hown _ he
    exact if_neg (h _ he)

/-- What was stored last was stored by some pass. -/
theorem exists_stored {q : ν} {log : List (Event ν α)} {value : α}
    (h : lastStored q log = some value) : ∃ p, .stored p q value ∈ log := by
  obtain ⟨e, he, hvalue⟩ := List.mem_filterMap.mp (List.mem_of_getLast? h)
  cases e with
  | started | read => simp [Event.storedAs] at hvalue
  | stored p key v =>
    rw [Event.storedAs] at hvalue
    split at hvalue
    · rename_i hkey
      subst hkey
      exact ⟨p, Option.some.inj hvalue ▸ he⟩
    · simp at hvalue

/-! ## Contexts -/

namespace Context

variable {c c' c'' : Context ν α} {new new' : List (Event ν α)}

@[simp] theorem result?_note (c : Context ν α) (e : Event ν α) (p : ν) :
    (c.note e).result? p = c.result? p := rfl

theorem result?_store (c : Context ν α) (p key q : ν) (value : α) :
    (c.store p key value).result? q = if key = q then some value else c.result? q := by
  have hlookup : ∀ rs : List (ν × α), q ≠ key → (rs.filter (·.1 ≠ key)).lookup q = rs.lookup q := by
    intro rs hq
    induction rs with
    | nil => rfl
    | cons r rs ih =>
      obtain ⟨s, v⟩ := r
      by_cases hs : s = key
      · subst hs
        rw [List.filter_cons_of_neg (by simp), ih, List.lookup_cons, beq_false_of_ne hq]
      · rw [List.filter_cons_of_pos (by simpa using hs), List.lookup_cons, List.lookup_cons, ih]
  by_cases h : key = q
  · subst h
    simp [result?, store]
  · have hq : q ≠ key := Ne.symm h
    rw [if_neg h, result?, store, List.lookup_cons, hlookup _ hq, beq_false_of_ne hq]
    rfl

/-- What a context has become in the course of the events `new`: what was stored last is there, and
each read has found what was there by then. -/
structure Extends (c : Context ν α) (new : List (Event ν α)) (c' : Context ν α) : Prop where
  log : c'.log = c.log ++ new
  result : ∀ p, c'.result? p = (lastStored p new).or (c.result? p)
  reads : ∀ l p q value l', new = l ++ .read p q value :: l' →
    (lastStored q l).or (c.result? q) = some value

theorem Extends.refl (c : Context ν α) : c.Extends [] c where
  log := (List.append_nil _).symm
  result _ := rfl
  reads l p q value l' h := by simp at h

theorem Extends.trans (h : c.Extends new c') (h' : c'.Extends new' c'') :
    c.Extends (new ++ new') c'' where
  log := by rw [h'.log, h.log, List.append_assoc]
  result p := by rw [h'.result, h.result, lastStored_append, Option.or_assoc]
  reads := by
    intro l p q value l' heq
    rcases List.append_eq_append_iff.mp heq with ⟨k, rfl, hk⟩ | ⟨k, hk, heq'⟩
    · -- the read is one of the later events
      rw [lastStored_append, Option.or_assoc, ← h.result]
      exact h'.reads k p q value l' hk
    · cases k with
      | nil =>
        obtain rfl : new = l := by simpa using hk
        rw [← h.result]
        exact h'.reads [] p q value l' (by simpa using heq'.symm)
      | cons e k =>
        obtain ⟨rfl, -⟩ := List.cons.inj heq'
        exact h.reads l p q value k hk

theorem extends_started (c : Context ν α) (p : ν) :
    c.Extends [.started p] (c.note (.started p)) where
  log := rfl
  result _ := rfl
  reads l p q value l' heq := by cases l <;> simp at heq

theorem extends_read {q : ν} {value : α} (p : ν) (h : c.result? q = some value) :
    c.Extends [.read p q value] (c.note (.read p q value)) where
  log := rfl
  result _ := rfl
  reads := by
    intro l p' q' value' l' heq
    cases l with
    | nil =>
      obtain ⟨⟨⟩, -⟩ := List.cons.inj heq
      exact h
    | cons e l => simp at heq

theorem extends_store (c : Context ν α) (p key : ν) (value : α) :
    c.Extends [.stored p key value] (c.store p key value) where
  log := rfl
  result q := by
    rw [result?_store]
    by_cases h : key = q <;> simp [lastStored, Event.storedAs, h]
  reads l p q value l' heq := by cases l <;> simp at heq

theorem Extends.unique (h : c.Extends new c') (h' : c.Extends new' c') :
    new = new' :=
  List.append_cancel_left (h.log.symm.trans h'.log)

end Context

/-! ## The work of one pass -/

namespace Work

variable {w : Work ν α υ ε} {p q : ν} {c c' : Context ν α} {unit' : υ} {S : ν → Prop}

/-- The work reads only results of passes in `S`, whatever it finds there. -/
def Reads (S : ν → Prop) : Work ν α υ ε → Prop
  | done _ => True
  | raise _ => True
  | read q next => S q ∧ ∀ value, (next value).Reads S
  | ask _ next => ∀ there, (next there).Reads S
  | store _ _ next => next.Reads S

/-- The work is not done before it has stored a result under the name `q`. -/
def Stores (q : ν) : Work ν α υ ε → Prop
  | done _ => False
  | raise _ => True
  | read _ next => ∀ value, (next value).Stores q
  | ask _ next => ∀ there, (next there).Stores q
  | store key _ next => key = q ∨ next.Stores q

/-- The work stores results under the name `q` only. -/
def KeepsTo (q : ν) : Work ν α υ ε → Prop
  | done _ => True
  | raise _ => True
  | read _ next => ∀ value, (next value).KeepsTo q
  | ask _ next => ∀ there, (next there).KeepsTo q
  | store key _ next => key = q ∧ next.KeepsTo q

/-- The work never gives up. -/
def Persists : Work ν α υ ε → Prop
  | done _ => True
  | raise _ => False
  | read _ next => ∀ value, (next value).Persists
  | ask _ next => ∀ there, (next there).Persists
  | store _ _ next => next.Persists

omit [DecidableEq ν] in
theorem Reads.mono {T : ν → Prop} (h : w.Reads S) (hST : ∀ q, S q → T q) : w.Reads T := by
  induction w with
  | done | raise => trivial
  | read q next ih => exact ⟨hST q h.1, fun value => ih value (h.2 value)⟩
  | ask q next ih => exact fun there => ih there (h there)
  | store key value next ih => exact ih h

/-- The events of a turn: all of them belong to `p`, which does not start again; if the work is
done, what it stores is stored; and if it keeps to its own name, its events do. -/
structure Turn (w : Work ν α υ ε) (p : ν) (result : Except (Stop ν ε) υ) (own : List (Event ν α)) :
    Prop where
  pass : ∀ e ∈ own, e.pass = p
  started : started own = []
  stores : w.Stores p → ∀ unit', result = .ok unit' → (lastStored p own).isSome
  isOwn : w.KeepsTo p → ∀ e ∈ own, e.IsOwn

/-- What a pass does in its turn. -/
theorem exists_turn (w : Work ν α υ ε) (p : ν) (c : Context ν α) :
    ∃ own, c.Extends own (w.run p c).1 ∧ w.Turn p (w.run p c).2 own := by
  induction w generalizing c with
  | done unit => exact ⟨[], .refl c, by simp, rfl, fun h => h.elim, by simp⟩
  | raise error => exact ⟨[], .refl c, by simp, rfl, fun _ _ h => by simp at h, by simp⟩
  | read q next ih =>
    cases hq : c.result? q with
    | none =>
      rw [run_read_of_none hq]
      exact ⟨[], .refl c, by simp, rfl, fun _ _ h => by simp at h, by simp⟩
    | some value =>
      rw [run_read_of_some hq]
      obtain ⟨own, hext, hturn⟩ := ih value (c.note (.read p q value))
      refine ⟨.read p q value :: own, (Context.extends_read p hq).trans hext, ?_, hturn.started,
        fun h => hturn.stores (h value), fun h => ?_⟩
      · simpa [Event.pass] using hturn.pass
      · exact List.forall_mem_cons.mpr ⟨trivial, hturn.isOwn (h value)⟩
  | ask q next ih =>
    obtain ⟨own, hext, hturn⟩ := ih (c.result? q).isSome c
    exact ⟨own, hext, hturn.pass, hturn.started, fun h => hturn.stores (h _),
      fun h => hturn.isOwn (h _)⟩
  | store key value next ih =>
    obtain ⟨own, hext, hturn⟩ := ih (c.store p key value)
    refine ⟨.stored p key value :: own, (Context.extends_store c p key value).trans hext, ?_,
      hturn.started, fun h unit' hok => ?_, fun h => ?_⟩
    · simpa [Event.pass] using hturn.pass
    · rcases h with rfl | h
      · refine isSome_lastStored_append (l := [.stored key key value]) ?_ own
        simp [lastStored, Event.storedAs]
      · obtain ⟨v, hv⟩ := Option.isSome_iff_exists.mp (hturn.stores h unit' hok)
        rw [← List.singleton_append, lastStored_append, hv]
        rfl
    · exact List.forall_mem_cons.mpr ⟨h.1, hturn.isOwn h.2⟩

/-- A run stops at a result that is still not there. -/
theorem result?_of_run_missing (h : w.run p c = (c', .error (.missing q))) :
    c'.result? q = none := by
  induction w generalizing c with
  | done | raise => simp at h
  | read r next ih =>
    cases hr : c.result? r with
    | none =>
      rw [run_read_of_none hr] at h
      obtain ⟨rfl, heq⟩ := Prod.mk.inj h
      cases heq
      exact hr
    | some value =>
      rw [run_read_of_some hr] at h
      exact ih value h
  | ask r next ih => exact ih _ h
  | store key value next ih => exact ih h

theorem run_ne_unordered (f : Failure ν) : (w.run p c).2 ≠ .error (.unordered f) := by
  induction w generalizing c with
  | done | raise => simp
  | read r next ih =>
    cases hr : c.result? r with
    | none => simp [run_read_of_none hr]
    | some value =>
      rw [run_read_of_some hr]
      exact ih value
  | ask r next ih => exact ih _
  | store key value next ih => exact ih

/-- Work that reads only what is there does not stop at a result that is not. -/
theorem Reads.run_ne_missing (h : w.Reads S) (hS : ∀ q, S q → (c.result? q).isSome) (q : ν) :
    (w.run p c).2 ≠ .error (.missing q) := by
  induction w generalizing c with
  | done | raise => simp
  | read r next ih =>
    obtain ⟨value, hvalue⟩ := Option.isSome_iff_exists.mp (hS r h.1)
    rw [run_read_of_some hvalue]
    exact ih value (h.2 value) hS
  | ask r next ih => exact ih _ (h _) hS
  | store key value next ih =>
    refine ih h fun r hr => ?_
    rw [Context.result?_store]
    split
    · rfl
    · exact hS r hr

/-- All that the work reads in a run is among what it may read. -/
theorem Reads.of_mem (h : w.Reads S) {own : List (Event ν α)} (hext : c.Extends own (w.run p c).1)
    {value : α} {p' : ν} (hmem : .read p' q value ∈ own) : S q := by
  -- The events of a run are determined, so those of the rest are the rest of them.
  induction w generalizing c own with
  | done | raise =>
    obtain rfl := hext.unique (.refl c)
    simp at hmem
  | read r next ih =>
    cases hr : c.result? r with
    | none =>
      rw [run_read_of_none hr] at hext
      obtain rfl := hext.unique (.refl c)
      simp at hmem
    | some v =>
      rw [run_read_of_some hr] at hext
      obtain ⟨own', hext', -⟩ := exists_turn (next v) p (c.note (.read p r v))
      obtain rfl := hext.unique ((Context.extends_read p hr).trans hext')
      rcases List.mem_cons.mp hmem with heq | hmem
      · cases heq
        exact h.1
      · exact ih v (h.2 v) hext' hmem
  | ask r next ih => exact ih _ (h _) hext hmem
  | store key v next ih =>
    obtain ⟨own', hext', -⟩ := exists_turn next p (c.store p key v)
    obtain rfl := hext.unique ((Context.extends_store c p key v).trans hext')
    rcases List.mem_cons.mp hmem with heq | hmem
    · cases heq
    · exact ih h hext' hmem

theorem Persists.run_ne_raised (h : w.Persists) (e : ε) : (w.run p c).2 ≠ .error (.raised e) := by
  induction w generalizing c with
  | done => simp
  | raise => exact h.elim
  | read r next ih =>
    cases hr : c.result? r with
    | none => simp [run_read_of_none hr]
    | some value =>
      rw [run_read_of_some hr]
      exact ih value (h value)
  | ask r next ih => exact ih _ (h _)
  | store key value next ih => exact ih h

end Work

/-! ## A run of passes -/

variable {requires : ν → List ν} {registered sorted before ps : List ν}
    {work : ν → υ → Work ν α υ ε}
  {unit unit' : υ} {c c' c₀ : Context ν α} {past new : List (Event ν α)} {stop : Stop ν ε}
  {result : Except (Stop ν ε) υ}

/-- The passes are run one after the other, each on the unit and in the context that the one in
front of it has left. -/
inductive Ran (work : ν → υ → Work ν α υ ε) :
    List ν → υ → Context ν α → υ → Context ν α → Prop
  | nil {unit : υ} {c : Context ν α} : Ran work [] unit c unit c
  | cons {p : ν} {ps : List ν} {unit unit₁ unit' : υ} {c c₁ c' : Context ν α} :
      (work p unit).run p (c.note (.started p)) = (c₁, .ok unit₁) → Ran work ps unit₁ c₁ unit' c' →
      Ran work (p :: ps) unit c unit' c'

/-- A run of passes ends after the last of them, or with the first that cannot go on. -/
inductive Ended (work : ν → υ → Work ν α υ ε) (unit : υ) (c : Context ν α) :
    List ν → Context ν α → Except (Stop ν ε) υ → Prop
  | complete {ps : List ν} {unit' : υ} {c' : Context ν α} :
      Ran work ps unit c unit' c' → Ended work unit c ps c' (.ok unit')
  | early {before after : List ν} {p : ν} {unit₁ : υ} {c₁ c' : Context ν α} {stop : Stop ν ε} :
      Ran work before unit c unit₁ c₁ →
      (work p unit₁).run p (c₁.note (.started p)) = (c', .error stop) →
      Ended work unit c (before ++ p :: after) c' (.error stop)

theorem ended_runEach (work : ν → υ → Work ν α υ ε) (ps : List ν) (unit : υ) (c : Context ν α) :
    Ended work unit c ps (runEach work ps unit c).1 (runEach work ps unit c).2 := by
  induction ps generalizing unit c with
  | nil => exact .complete .nil
  | cons p ps ih =>
    rw [runEach]
    cases hrun : (work p unit).run p (c.note (.started p)) with
    | mk c₁ result =>
      cases result with
      | error stop => exact .early (.nil : Ran work [] unit c unit c) hrun
      | ok unit₁ =>
        have hrest := ih unit₁ c₁
        cases hps : runEach work ps unit₁ c₁ with
        | mk c' result =>
          rw [hps] at hrest
          simp only [hps]
          cases hrest with
          | complete h => exact .complete (.cons hrun h)
          | early h hstop => exact .early (.cons hrun h) hstop

/-- Each pass in its turn. -/
theorem exists_turn {p : ν} (h : (work p unit).run p (c.note (.started p)) = (c', result)) :
    ∃ own, c.Extends (.started p :: own) c' ∧ (work p unit).Turn p result own := by
  obtain ⟨own, hext, hturn⟩ := (work p unit).exists_turn p (c.note (.started p))
  rw [h] at hext hturn
  exact ⟨own, (c.extends_started p).trans hext, hturn⟩

theorem Ran.exists_extends (h : Ran work ps unit c unit' c') :
    ∃ new, c.Extends new c' ∧ OneAtATime new ∧ started new = ps := by
  induction h with
  | nil => exact ⟨[], .refl _, .nil, rfl⟩
  | cons hrun _ ih =>
    obtain ⟨own, hown, hturn⟩ := exists_turn hrun
    obtain ⟨new, hnew, hturns, hstarted⟩ := ih
    refine ⟨_, hown.trans hnew, (oneAtATime_turn hturn.pass hturn.started).append hturns, ?_⟩
    rw [started_append, started_cons_started, hturn.started, hstarted]
    rfl

theorem Ended.exists_extends (h : Ended work unit c ps c' result) :
    ∃ new, c.Extends new c' ∧ OneAtATime new ∧ started new <+: ps ∧
      ∀ unit', result = .ok unit' → started new = ps := by
  cases h with
  | complete hran =>
    obtain ⟨new, hnew, hturns, hstarted⟩ := hran.exists_extends
    exact ⟨new, hnew, hturns, hstarted ▸ List.prefix_rfl, fun _ _ => hstarted⟩
  | @early before after p _ _ _ _ hran hstop =>
    obtain ⟨new, hnew, hturns, hstarted⟩ := hran.exists_extends
    obtain ⟨own, hown, hturn⟩ := exists_turn hstop
    refine ⟨_, hnew.trans hown,
      hturns.append (oneAtATime_turn hturn.pass hturn.started), ?_, by simp⟩
    rw [started_append, started_cons_started, hturn.started, hstarted]
    exact ⟨after, by simp⟩

theorem Ran.exists_own (h : Ran work ps unit c unit' c')
    (hkeeps : ∀ p ∈ ps, ∀ u, (work p u).KeepsTo p) :
    ∃ new, c.Extends new c' ∧ ∀ e ∈ new, e.IsOwn := by
  induction h with
  | nil => exact ⟨[], .refl _, by simp⟩
  | @cons p ps unit _ _ _ _ _ hrun _ ih =>
    obtain ⟨own, hown, hturn⟩ := exists_turn hrun
    obtain ⟨new, hnew, hall⟩ := ih fun p hp => hkeeps p (List.mem_cons_of_mem _ hp)
    refine ⟨_, hown.trans hnew, List.forall_mem_append.mpr
      ⟨List.forall_mem_cons.mpr ⟨trivial, ?_⟩, hall⟩⟩
    exact hturn.isOwn (hkeeps p List.mem_cons_self unit)

/-- Passes that keep to their own names store nothing else in a run. -/
theorem Ended.isOwn (h : Ended work unit c ps c' result)
    (hkeeps : ∀ p ∈ ps, ∀ u, (work p u).KeepsTo p) (hnew : c.Extends new c') :
    ∀ e ∈ new, e.IsOwn := by
  cases h with
  | complete hran =>
    obtain ⟨new', hnew', hall⟩ := hran.exists_own hkeeps
    exact hnew.unique hnew' ▸ hall
  | @early before after p unit₁ c₁ _ _ hran hstop =>
    obtain ⟨new', hnew', hall⟩ := hran.exists_own fun p hp => hkeeps p (by simp [hp])
    obtain ⟨own, hown, hturn⟩ := exists_turn hstop
    rw [hnew.unique (hnew'.trans hown)]
    refine List.forall_mem_append.mpr ⟨hall, List.forall_mem_cons.mpr ⟨trivial, ?_⟩⟩
    exact hturn.isOwn (hkeeps p (by simp) unit₁)

theorem Ended.result?_of_missing {q : ν} (h : Ended work unit c ps c' result)
    (hq : result = .error (.missing q)) : c'.result? q = none := by
  cases h with
  | complete => simp at hq
  | early _ hstop =>
    obtain rfl := Except.error.inj hq
    exact Work.result?_of_run_missing hstop

/-- Only a missing result or a pass that gives up ends a run before its last pass. -/
theorem Ended.exists_unit (h : Ended work unit c ps c' result)
    (hmissing : ∀ q, result ≠ .error (.missing q))
    (hpersists : ∀ p ∈ ps, ∀ u, (work p u).Persists) : ∃ unit', result = .ok unit' := by
  cases h with
  | complete => exact ⟨_, rfl⟩
  | @early before after p unit₁ c₁ _ stop _ hstop =>
    cases stop with
    | unordered failure =>
      exact absurd (congrArg Prod.snd hstop) (Work.run_ne_unordered failure)
    | missing q => exact absurd rfl (hmissing q)
    | raised error =>
      exact absurd (congrArg Prod.snd hstop) ((hpersists p (by simp) unit₁).run_ne_raised error)

/-! ## Passes that read what others in front store -/

/-- Each pass reads only results of passes in front of it that do store one. -/
def Supplied (work : ν → υ → Work ν α υ ε) : List ν → List ν → Prop
  | _, [] => True
  | before, p :: ps =>
    (∀ unit, (work p unit).Reads fun q => q ∈ before ∧ ∀ u, (work q u).Stores q) ∧
      Supplied work (before ++ [p]) ps

omit [DecidableEq ν] in
theorem respects_append {done l l' : List ν} :
    Respects requires done (l ++ l') ↔ Respects requires done l ∧
    Respects requires (done ++ l) l' := by
  induction l generalizing done with
  | nil => simp [Respects]
  | cons p l ih => simp [Respects, ih, and_assoc]

omit [DecidableEq ν] in
/-- In an order, all that a pass requires through others stands in front of it. -/
theorem Respects.mem_of_transGen {p q : ν} (h : Respects requires [] before)
    (hp : ∀ r ∈ requires p, r ∈ before) (hq : Relation.TransGen (fun p r => r ∈ requires p) p q) :
    q ∈ before := by
  induction hq with
  | single hr => exact hp _ hr
  | tail _ hr ih =>
    obtain ⟨l, l', rfl, hl⟩ := h.exists_split ih
    exact List.mem_append_left _ (hl _ hr)

omit [DecidableEq ν] in
theorem Respects.supplied (h : Respects requires [] (before ++ ps))
    (hreads : ∀ p ∈ ps, ∀ unit, (work p unit).Reads fun q =>
      Relation.TransGen (fun p r => r ∈ requires p) p q ∧ ∀ u, (work q u).Stores q) :
    Supplied work before ps := by
  induction ps generalizing before with
  | nil => trivial
  | cons p ps ih =>
    obtain ⟨hbefore, hp, -⟩ := respects_append.mp h
    refine ⟨fun unit => (hreads p (by simp) unit).mono fun q hq => ?_, ih (by simpa using h) ?_⟩
    · exact ⟨hbefore.mem_of_transGen hp hq.1, hq.2⟩
    · exact fun r hr => hreads r (List.mem_cons_of_mem _ hr)

/-- The passes `before` have stored what they store. -/
def Stocked (work : ν → υ → Work ν α υ ε) (before : List ν) (past : List (Event ν α)) : Prop :=
  ∀ q ∈ before, (∀ u, (work q u).Stores q) → (lastStored q past).isSome

/-- The turn of one more pass adds what that one stores. -/
theorem Stocked.turn {p : ν} {own : List (Event ν α)} (h : Stocked work before past)
    (hturn : (work p unit).Turn p (.ok unit') own) :
    Stocked work (before ++ [p]) (past ++ .started p :: own) := by
  intro q hq hstores
  rcases List.mem_append.mp hq with hq | hq
  · exact isSome_lastStored_append (h q hq hstores) _
  · obtain rfl := List.mem_singleton.mp hq
    obtain ⟨v, hv⟩ := Option.isSome_iff_exists.mp (hturn.stores (hstores unit) unit' rfl)
    rw [List.append_cons, lastStored_append, hv]
    rfl

/-- All reads up to now were of results of the passes `before`, and have found what was stored last.
If passes store under their own names only, this has not changed since. -/
structure Answered (before : List ν) (c₀ : Context ν α) (past : List (Event ν α))
    (c : Context ν α) : Prop where
  extend : c₀.Extends past c
  reads : ∀ l p q value l', past = l ++ .read p q value :: l' →
    q ∈ before ∧ lastStored q l = some value ∧
      ((∀ e ∈ past, e.IsOwn) → lastStored q past = some value)

theorem Answered.start (c : Context ν α) : Answered [] c [] c where
  extend := .refl c
  reads l p q value l' heq := by simp at heq

theorem Answered.mono {before' : List ν} (h : Answered before c₀ past c) (hsub : before ⊆ before') :
    Answered before' c₀ past c where
  extend := h.extend
  reads l p q value l' heq := (h.reads l p q value l' heq).imp (hsub ·) id

/-- In a turn of another pass that stores under its own name, the result of `q` stays as it is. -/
theorem lastStored_append_turn {p q : ν} {own l : List (Event ν α)} (hpq : p ≠ q)
    (hpass : ∀ e ∈ own, e.pass = p) (hown : ∀ e ∈ past ++ own, e.IsOwn) (hl : l ⊆ own) :
    lastStored q (past ++ l) = lastStored q past := by
  have hne : ∀ e ∈ l, e.pass ≠ q := fun e he heq => hpq ((hpass e (hl he)).symm.trans heq)
  rw [lastStored_append, lastStored_of_ne hne fun e he => hown e (List.mem_append_right _ (hl he)),
    Option.none_or]

/-- A read in the turn of a pass is among what its work may read. -/
theorem Work.Reads.of_turn {p q r : ν} {S : ν → Prop} {own : List (Event ν α)} {value : α}
    (hreads : (work p unit).Reads S)
    (hrun : (work p unit).run p (c.note (.started p)) = (c', result))
    (hown : c.Extends (.started p :: own) c') (hmem : .read r q value ∈ Event.started p :: own) :
    S q := by
  obtain ⟨own', hext, -⟩ := (work p unit).exists_turn p (c.note (.started p))
  have hall : c.Extends (.started p :: own') c' := by
    simpa [hrun] using (c.extends_started p).trans hext
  obtain rfl := (List.cons.inj (hown.unique hall)).2
  exact hreads.of_mem hext (by simpa using hmem)

/-- The turn of one more pass: it finds all that it reads, and adds what it stores. -/
theorem Answered.turn {p : ν} (h : Answered before c₀ past c) (hstock : Stocked work before past)
    (hp : p ∉ before)
    (hreads : (work p unit).Reads fun q => q ∈ before ∧ ∀ u, (work q u).Stores q)
    (hrun : (work p unit).run p (c.note (.started p)) = (c', result)) :
    (∀ q, result ≠ .error (.missing q)) ∧ ∃ own, Answered before c₀ (past ++ own) c' ∧
      ∀ unit', result = .ok unit' → Stocked work (before ++ [p]) (past ++ own) := by
  obtain ⟨own, hown, hturn⟩ := exists_turn hrun
  have hpass : ∀ e ∈ Event.started p :: own, e.pass = p := List.forall_mem_cons.mpr
    ⟨rfl, hturn.pass⟩
  have hne : ∀ q ∈ before, p ≠ q := fun q hq heq => hp (heq ▸ hq)
  refine ⟨fun q => ?_, _, ⟨h.extend.trans hown, ?_⟩, ?_⟩
  · have hmissing := hreads.run_ne_missing (p := p) (c := c.note (.started p)) (fun q hq => ?_) q
    · rwa [hrun] at hmissing
    · rw [Context.result?_note, h.extend.result]
      obtain ⟨value, hvalue⟩ := Option.isSome_iff_exists.mp (hstock q hq.1 hq.2)
      rw [hvalue]
      rfl
  · intro l r q value l' heq
    rcases List.append_eq_append_iff.mp heq with ⟨k, rfl, hk⟩ | ⟨k, hk, heq'⟩
    · -- a read in this turn
      have hmem : .read r q value ∈ Event.started p :: own := by simp [hk]
      obtain ⟨hq, hstores⟩ := hreads.of_turn hrun hown hmem
      have hlast : lastStored q (past ++ k) = some value := by
        have hfound := (h.extend.trans hown).reads (past ++ k) r q value l' heq
        obtain ⟨v, hv⟩ := Option.isSome_iff_exists.mp
          (isSome_lastStored_append (hstock q hq hstores) k)
        rwa [hv] at hfound ⊢
      refine ⟨hq, hlast, fun hall => ?_⟩
      have hk' : k ⊆ Event.started p :: own := fun e he => hk ▸ List.mem_append_left _ he
      rw [lastStored_append_turn (hne q hq) hpass hall fun e => id, ← hlast,
        lastStored_append_turn (hne q hq) hpass hall hk']
    · cases k with
      | nil =>
        obtain ⟨⟨⟩, -⟩ := List.cons.inj heq'
      | cons e k =>
        obtain ⟨rfl, -⟩ := List.cons.inj heq'
        obtain ⟨hq, hl, hlast⟩ := h.reads l r q value k hk
        refine ⟨hq, hl, fun hall => ?_⟩
        rw [lastStored_append_turn (hne q hq) hpass hall fun e => id]
        exact hlast fun e he => hall e (List.mem_append_left _ he)
  · rintro unit' rfl
    exact hstock.turn hturn

/-- Passes that read what others in front store find all that they read. -/
theorem Answered.runEach (h : Answered before c₀ past c)
    (hstock : Stocked work before past) (unit : υ) (hnodup : (before ++ ps).Nodup)
    (hsupplied : Supplied work before ps) :
    (∀ q, (runEach work ps unit c).2 ≠ .error (.missing q)) ∧
      ∃ new, Answered (before ++ ps) c₀ (past ++ new) (runEach work ps unit c).1 := by
  induction ps generalizing before past unit c with
  | nil => exact ⟨by simp [Schedule.runEach], [], by simpa [Schedule.runEach] using h⟩
  | cons p ps ih =>
    have hp : p ∉ before := fun hp =>
      (List.nodup_append.mp hnodup).2.2 p hp p List.mem_cons_self rfl
    rw [Schedule.runEach]
    cases hrun : (work p unit).run p (c.note (.started p)) with
    | mk c₁ result =>
      obtain ⟨hmissing, own, hown, hstock'⟩ := h.turn hstock hp (hsupplied.1 unit) hrun
      cases result with
      | error stop => exact ⟨hmissing, own, hown.mono (by simp)⟩
      | ok unit₁ =>
        obtain ⟨hrest, new, hnew⟩ := ih (hown.mono (List.subset_append_left _ [p]))
          (hstock' unit₁ rfl) unit₁ (by simpa using hnodup) hsupplied.2
        exact ⟨hrest, own ++ new, by simpa using hnew⟩

/-- Passes that cannot be ordered are not run at all. Passes that can be are run one at a time, in
their order and each at most once, each on the unit that the one in front of it has left, and up to
the first that stops; a pass that reads a result stops only where there is none. If passes read only
results of passes that they require, be it through others, and these do store one, then every read
finds what was stored last under that name in this run, and no run stops for want of a result:
unless a pass gives up by itself, each one runs. If moreover no pass stores under the name of
another one, what is read has been stored by the pass of that name, and does not change any more. -/
theorem run_finds_results (requires : ν → List ν) (work : ν → υ → Work ν α υ ε)
    (registered : List ν) (unit : υ) (c : Context ν α) :
    (∀ failure, order requires registered = .error failure →
        run requires work registered unit c = (c, .error (.unordered failure))) ∧
      ∀ sorted, order requires registered = .ok sorted →
        sorted.Perm registered ∧ sorted.Nodup ∧ Respects requires [] sorted ∧
          ∃ new c' result, run requires work registered unit c = (c', result) ∧
            Ended work unit c sorted c' result ∧
            c.Extends new c' ∧ OneAtATime new ∧ started new <+: sorted ∧
            (∀ q, result = .error (.missing q) → c'.result? q = none) ∧
            ((∀ p ∈ registered, ∀ u, (work p u).Reads fun q =>
                Relation.TransGen (fun p r => r ∈ requires p) p q ∧ ∀ u', (work q u').Stores q) →
              (∀ q, result ≠ .error (.missing q)) ∧
                (∀ l p q value l', new = l ++ .read p q value :: l' →
                  lastStored q l = some value) ∧
                ((∀ p ∈ registered, ∀ u, (work p u).KeepsTo p) →
                  ∀ l p q value l', new = l ++ .read p q value :: l' →
                    .stored q q value ∈ l ∧ c'.result? q = some value) ∧
                ((∀ p ∈ registered, ∀ u, (work p u).Persists) →
                  started new = sorted ∧ ∃ unit', result = .ok unit')) := by
  refine ⟨fun failure hfailure => by rw [run, hfailure], fun sorted hsorted => ?_⟩
  obtain ⟨horderly, hperm, hrespects⟩ := order_eq_ok hsorted
  have hnodup : sorted.Nodup := hperm.nodup_iff.mpr horderly.nodup
  have hended := ended_runEach work sorted unit c
  obtain ⟨new, hnew, hturns, hstarted, hall⟩ := hended.exists_extends
  refine ⟨hperm, hnodup, hrespects, new, _, _, by rw [run, hsorted], hended, hnew, hturns, hstarted,
    fun q => hended.result?_of_missing, fun hreads => ?_⟩
  -- In the order of the run, all that a pass requires stands in front of it.
  have hsupplied : Supplied work [] sorted :=
    Respects.supplied hrespects fun p hp => hreads p (hperm.mem_iff.mp hp)
  obtain ⟨hmissing, new', hanswered⟩ := Answered.runEach (.start c) (by simp [Stocked]) unit
    (by simpa using hnodup) hsupplied
  obtain rfl : new = new' := hnew.unique (by simpa using hanswered.extend)
  have hfound : ∀ l p q value l', new = l ++ .read p q value :: l' → lastStored q l = some value ∧
      ((∀ e ∈ new, e.IsOwn) → lastStored q new = some value) := fun l p q value l' heq =>
    (hanswered.reads l p q value l' (by simpa using heq)).2
  refine ⟨hmissing, fun l p q value l' heq => (hfound l p q value l' heq).1,
    fun hkeeps l p q value l' heq => ?_, fun hpersists => ?_⟩
  · -- Under its name only the pass itself has stored, so what was found stays.
    have hown : ∀ e ∈ new, e.IsOwn :=
      hended.isOwn (fun p hp => hkeeps p (hperm.mem_iff.mp hp)) hnew
    obtain ⟨hl, hlast⟩ := hfound l p q value l' heq
    obtain ⟨r, hr⟩ := exists_stored hl
    have hr' : .stored r q value ∈ new := heq ▸ List.mem_append_left _ hr
    obtain rfl : q = r := hown _ hr'
    refine ⟨hr, ?_⟩
    rw [hnew.result, hlast hown]
    rfl
  · obtain ⟨unit', hok⟩ := hended.exists_unit hmissing fun p hp => hpersists p (hperm.mem_iff.mp hp)
    exact ⟨hall unit' hok, unit', hok⟩

/-- A pass may store in another's name; then the others read this. -/
example : (runEach (fun
    | 0 => fun unit => .store 0 'a' (.done unit)
    | 1 => fun unit => .store 0 'b' (.done unit)
    | _ => fun _ => .read 0 .done : Nat → Char → Work Nat Char Char Empty) [0, 1, 2] ' ' {}).2 =
      .ok 'b' := by
  decide

/-- The third pass reads what the first one stores, which it requires through the second. -/
theorem run_finds_result_of_first :
    let passes : List Pass := [⟨"report", ["check"], ["parse"], none⟩,
      ⟨"check", ["parse"], [], none⟩, ⟨"parse", [], [], some "tree"⟩]
    let requires (name : String) := (find passes name).requires
    let work (name : String) := (find passes name).work
    (∀ p ∈ ["report", "check", "parse"], ∀ u, (work p u).Reads fun q =>
        Relation.TransGen (fun p r => r ∈ requires p) p q ∧ ∀ u', (work q u').Stores q) ∧
      (∀ p ∈ ["report", "check", "parse"], ∀ u, (work p u).KeepsTo p) ∧
      ∃ c', run requires work ["report", "check", "parse"] [] {} =
        (c', .ok ["parse", "check", "report"]) ∧ c'.log = [.started "parse",
        .stored "parse" "parse" "tree", .started "check",
          .started "report", .read "report" "parse" "tree"] ∧
        started c'.log = ["parse", "check", "report"] ∧ c'.result? "parse" = some "tree" := by
  intro passes requires work
  have hreads : ∀ p ∈ ["report", "check", "parse"], ∀ u, (work p u).Reads fun q =>
      Relation.TransGen (fun p r => r ∈ requires p) p q ∧ ∀ u', (work q u').Stores q := by
    intro p hp u
    simp only [List.mem_cons, List.not_mem_nil, or_false] at hp
    rcases hp with rfl | rfl | rfl
    · have hparse : Relation.TransGen (fun p r => r ∈ requires p) "report" "parse" :=
        .tail (.single (by decide : "check" ∈ requires "report")) (by decide)
      exact ⟨⟨hparse, fun _ => .inl rfl⟩, fun _ => trivial⟩
    · trivial
    · trivial
  have hkeeps : ∀ p ∈ ["report", "check", "parse"], ∀ u, (work p u).KeepsTo p := by
    intro p hp u
    simp only [List.mem_cons, List.not_mem_nil, or_false] at hp
    rcases hp with rfl | rfl | rfl
    · exact fun _ => trivial
    · trivial
    · exact ⟨rfl, trivial⟩
  have hpersists : ∀ p ∈ ["report", "check", "parse"], ∀ u, (work p u).Persists := by
    intro p hp u
    simp only [List.mem_cons, List.not_mem_nil, or_false] at hp
    rcases hp with rfl | rfl | rfl
    · exact fun _ => trivial
    · trivial
    · trivial
  obtain ⟨-, -, -, new, c', result, hrun, -, hext, -, -, -, hfound⟩ :=
    (run_finds_results requires work ["report", "check", "parse"] [] {}).2
      ["parse", "check", "report"] (by decide)
  obtain ⟨-, -, hread, hall⟩ := hfound hreads
  obtain ⟨rfl, rfl⟩ := Prod.mk.inj hrun
  refine ⟨hreads, hkeeps, _, rfl, rfl, hext.log ▸ (hall hpersists).1, ?_⟩
  have hnew : new = [.started "parse", .stored "parse" "parse" "tree", .started "check",
      .started "report", .read "report" "parse" "tree"] := hext.log.symm
  exact (hread hkeeps (new.take 4) "report" "parse" "tree" [] (by rw [hnew]; rfl)).2

end ShadowImpl.Schedule
