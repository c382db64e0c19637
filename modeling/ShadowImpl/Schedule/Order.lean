/-!
# Ordering passes

Passes are ordered so that each one comes after those that it requires. Of each pass it is counted
how many requirements it still lacks. The passes that lack none wait in a queue, in the order in
which they became free; those that become free together are queued in the order of registration.
-/

namespace ShadowImpl.Schedule

variable {ν : Type} [DecidableEq ν]

/-- Why passes cannot be ordered. -/
inductive Failure (ν : Type) where
  | unregistered (pass : ν) (missing : List ν)
  | circular
deriving DecidableEq, Repr

/-- What a pass requires that is not registered. -/
def missing (requires : ν → List ν) (registered : List ν) (pass : ν) : List ν :=
  (requires pass).eraseDups.filter fun r => !registered.contains r

/-- Where the loop stands: how many requirements each pass lacks, the passes that are free to run,
and those that have run. -/
structure Loop (ν : Type) where
  degree : ν → Int
  queue : List ν
  done : List ν

namespace Loop

/-- A pass lacks one requirement less. It joins the queue when it lacks none. -/
def lower (l : Loop ν) (pass : ν) : Loop ν :=
  let left := l.degree pass - 1
  { l with
    degree := fun p => if p = pass then left else l.degree p
    -- Only the step onto zero queues a pass; a second registration may take it below.
    queue := if left = 0 then l.queue ++ [pass] else l.queue }

/-- Runs the first pass in the queue. Each registered pass that requires it lacks one requirement
less, and a pass that was registered twice two. -/
def next (requires : ν → List ν) (registered : List ν) (l : Loop ν) : Option (Loop ν) :=
  match l.queue with
  | [] => none
  | pass :: queue =>
    some (registered.foldl (fun l other => if pass ∈ requires other then l.lower other else l)
      { l with queue, done := l.done ++ [pass] })

/-- Runs the passes in the queue until it is empty. The number bounds how many are run. -/
def run (requires : ν → List ν) (registered : List ν) : Nat → Loop ν → Loop ν
  | 0, l => l
  | n + 1, l =>
    match l.next requires registered with
    | none => l
    | some l => run requires registered n l

/-- Before the first pass runs, each one lacks all that it requires. -/
def start (requires : ν → List ν) (registered : List ν) : Loop ν :=
  let degree (p : ν) : Int := (requires p).eraseDups.length
  ⟨degree, registered.eraseDups.filter fun p => degree p = 0, []⟩

end Loop

/-- The order in which registered passes are run. A pass that is registered twice counts as a
circular dependency. -/
def order (requires : ν → List ν) (registered : List ν) : Except (Failure ν) (List ν) :=
  match registered.find? fun p => !(missing requires registered p).isEmpty with
  | some pass => .error (.unregistered pass (missing requires registered pass))
  | none =>
    -- No pass is queued twice, so the number of registered ones bounds the loop.
    let sorted := ((Loop.start requires registered).run requires registered registered.length).done
    if sorted.length = registered.length then .ok sorted else .error .circular

end ShadowImpl.Schedule
