import ShadowImpl.Defect
import ShadowImpl.Schedule.Order

/-!
# Running passes

Each pass turns the unit that it is given into the one for the next pass. On the way it may read
what is stored under the names of passes, and may store results, under its own name or another one.
A run keeps the results, and a log of what happened.
-/

namespace ShadowImpl.Schedule

/-- What a pass does with a unit, step by step. What it does next may depend on what it has read. -/
inductive Work (ν α υ ε : Type) where
  /-- Hands on a unit. -/
  | done (unit : υ)
  /-- Gives up with an error of its own. -/
  | raise (error : ε)
  /-- Reads the result under the name of a pass. -/
  | read (source : ν) (next : α → Work ν α υ ε)
  /-- Asks whether there is a result under the name of a pass. -/
  | ask (source : ν) (next : Bool → Work ν α υ ε)
  /-- Stores a result under the name of a pass, in place of an earlier one. -/
  | store (key : ν) (value : α) (next : Work ν α υ ε)

/-- What happens in a run. -/
inductive Event (ν α : Type) where
  | started (pass : ν)
  | read (pass source : ν) (value : α)
  | stored (pass key : ν) (value : α)
deriving DecidableEq, Repr

/-- Why a run ends before its last pass has. -/
inductive Stop (ν ε : Type) where
  | unordered (failure : Failure ν)
  | missing (source : ν)
  | raised (error : ε)
deriving DecidableEq, Repr

/-- The results that are there, and what has happened. -/
structure Context (ν α : Type) where
  results : List (ν × α) := []
  log : List (Event ν α) := []
deriving DecidableEq, Repr

variable {ν α υ ε : Type} [DecidableEq ν]

namespace Context

/-- The result under the name of a pass. -/
def result? (c : Context ν α) (pass : ν) : Option α :=
  c.results.lookup pass

/-- Appends an event to the log. -/
def note (c : Context ν α) (e : Event ν α) : Context ν α :=
  { c with log := c.log ++ [e] }

/-- What `pass` stores under the name `key`. -/
def store (c : Context ν α) (pass key : ν) (value : α) : Context ν α :=
  { results := (key, value) :: c.results.filter (·.1 ≠ key)
    log := c.log ++ [.stored pass key value] }

end Context

/-- Does the work of a pass, up to a result that is not there. -/
def Work.run (pass : ν) : Work ν α υ ε → Context ν α → Context ν α × Except (Stop ν ε) υ
  | done unit, c => (c, .ok unit)
  | raise error, c => (c, .error (.raised error))
  | read source next, c =>
    match c.result? source with
    | some value => (next value).run pass (c.note (.read pass source value))
    | none => (c, .error (.missing source))
  | ask source next, c => (next (c.result? source).isSome).run pass c
  | store key value next, c => next.run pass (c.store pass key value)

namespace Work

@[simp] theorem run_done (pass : ν) (unit : υ) (c : Context ν α) :
    (done unit : Work ν α υ ε).run pass c = (c, .ok unit) := by
  rw [run]

@[simp] theorem run_raise (pass : ν) (error : ε) (c : Context ν α) :
    (raise error : Work ν α υ ε).run pass c = (c, .error (.raised error)) := by
  rw [run]

variable {pass source : ν} {next : α → Work ν α υ ε} {c : Context ν α}

theorem run_read_of_none (h : c.result? source = none) :
    (read source next).run pass c = (c, .error (.missing source)) := by
  rw [run, h]

theorem run_read_of_some {value : α} (h : c.result? source = some value) :
    (read source next).run pass c = (next value).run pass (c.note (.read pass source value)) := by
  rw [run, h]

end Work

/-- Runs passes one by one, up to the first that cannot go on. -/
def runEach (work : ν → υ → Work ν α υ ε) :
    List ν → υ → Context ν α → Context ν α × Except (Stop ν ε) υ
  | [], unit, c => (c, .ok unit)
  | p :: ps, unit, c =>
    match (work p unit).run p (c.note (.started p)) with
    | (c', .ok unit') => runEach work ps unit' c'
    | (c', .error e) => (c', .error e)

/-- Runs all registered passes in order, or none of them if they cannot be ordered. -/
def run (requires : ν → List ν) (work : ν → υ → Work ν α υ ε) (registered : List ν) (unit : υ)
    (c : Context ν α) : Context ν α × Except (Stop ν ε) υ :=
  match order requires registered with
  | .ok sorted => runEach work sorted unit c
  | .error failure => (c, .error (.unordered failure))

/-! ## Declared passes -/

/-- What a pass requires, which results it reads and what it then stores. Its unit is the list of
the passes that have run. -/
structure Pass where
  name : String
  requires : List String := []
  reads : List String := []
  stores : Option String := none
deriving DecidableEq, Repr

/-- What a declared pass does. -/
def Pass.work (p : Pass) (finished : List String) : Work String String (List String) Defect :=
  let last := Work.done (finished ++ [p.name])
  let stored := match p.stores with
    | some value => .store p.name value last
    | none => last
  p.reads.foldr (fun source next => .read source fun _ => next) stored

/-- The pass of a name; without a declaration it requires and does nothing. -/
def find (passes : List Pass) (name : String) : Pass :=
  (passes.find? (·.name = name)).getD { name }

/-- A failure to order passes, as a defect. -/
def Failure.defect : Failure String → Defect
  | unregistered pass missing => .unregistered pass missing
  | circular => .circular

/-- Why a run has ended, as a defect. -/
def Stop.defect : Stop String Defect → Defect
  | unordered failure => failure.defect
  | missing source => .missingAnalysis source
  | raised defect => defect

/-- The entry of an event in a written log. -/
def Event.entry : Event String String → Option String
  | started pass => some pass
  | read _ source value => some (source ++ "=" ++ value)
  | stored _ _ _ => none

/-- What a run of declared passes leaves behind. -/
structure Record where
  finished : List String := []
  log : List String := []
  results : List (String × String) := []
deriving DecidableEq, Repr

/-- The result that a pass has stored. -/
def Record.result (r : Record) (pass : String) : Except Defect String :=
  match r.results.lookup pass with
  | some value => .ok value
  | none => .error (.missingAnalysis pass)

/-- The order of the registered passes among the declared ones. -/
def orderOf (passes : List Pass) (registered : List String) : Except Defect (List String) :=
  (order (fun name => (find passes name).requires) registered).mapError Failure.defect

/-- Runs the registered passes among the declared ones. -/
def runAll (passes : List Pass) (registered : List String) : Record × Option Defect :=
  let (c, ending) := run (fun name => (find passes name).requires)
    (fun name => (find passes name).work) registered [] {}
  let log := c.log.filterMap Event.entry
  match ending with
  | .ok finished => (⟨finished, log, c.results⟩, none)
  | .error stop => (⟨[], log, c.results⟩, some stop.defect)

end ShadowImpl.Schedule
