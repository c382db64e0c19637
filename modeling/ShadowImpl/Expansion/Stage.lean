import ShadowImpl.Method
import ShadowImpl.Render
import ShadowImpl.Schedule.Order
import ShadowImpl.Shadow

/-!
# Stages of an expansion

The generated block is made in seven stages. Each one says which others it requires, and the order
is computed from that.
-/

namespace ShadowImpl

/-- What an expansion works on. -/
structure Task where
  /-- The arguments of the block's marker. -/
  args : Source
  /-- The text that the block and its markers were read from. -/
  source : Source
  block : ImplBlock Location
deriving Repr

/-- The generated block so far, with what the stages have left. -/
structure Draft where
  block : ImplBlock Location
  directive : Option Directive := none
  emitted : Option String := none
deriving Repr

namespace Stage

/-- The stages in the order in which they are registered. -/
def all : List Stage :=
  [directive, selfType, normalize, project, augment, methods, emit]

/-- The stages that have to run before a stage. -/
def requires : Stage → List Stage
  | directive => []
  | selfType => []
  | normalize => [directive]
  | project => [normalize]
  | augment => [project]
  | methods => [directive]
  | emit => [selfType, augment, methods]

/-- The order of the stages. -/
def order : List Stage :=
  match Schedule.order requires all with
  | .ok stages => stages
  | .error _ => []

/-- The order of the stages, if they can be ordered. -/
def orderChecked : Except Abort (List Stage) :=
  (Schedule.order requires all).mapError .unordered

/-- What a stage has left, if it has left anything. -/
def left {α : Type} (stage : Stage) (result : Option α) : Except Abort α :=
  match result with
  | some a => .ok a
  | none => .error (.missing stage)

variable {m : Type → Type} [Monad m] [Engine m]

/-- The directive that the first stage has left. -/
def foundM (d : Draft) : m Directive :=
  Engine.confirm (d.directive.getD {}) (directive.left d.directive)

/-- What a stage does to the draft. -/
def runM (t : Task) (d : Draft) : Stage → m Draft
  | directive => do return { d with directive := some (← Directive.parseM t.args) }
  | selfType => do
    -- Both types are printed on the way, for the refusal and for the log.
    let _ ← Engine.confirm d.block.selfTy.print d.block.selfTy.printChecked
    let selfTy ← Engine.settle (d.block.selfTy.shadow (some d.block.selfPlace))
    let _ ← Engine.confirm selfTy.print selfTy.printChecked
    return { d with block := { d.block with selfTy } }
  | normalize =>
    return { d with block := { d.block with generics := d.block.generics.normalize } }
  | project => do
    let found ← foundM d
    let generics ← Engine.confirm (d.block.generics.project found)
      (d.block.generics.projectChecked found)
    return { d with block := { d.block with generics } }
  | augment => do
    let found ← foundM d
    return { d with block := { d.block with generics := d.block.generics.augment found } }
  | methods => do
    let items ← d.block.items.mapM (Item.expandM t.source)
    return { d with block := { d.block with items } }
  | emit => do
    let text ← Engine.confirm d.block.render d.block.renderChecked
    return { d with emitted := some text }

/-- Runs stages one after the other, up to the first that fails. -/
def runAllM (t : Task) (stages : List Stage) : m Draft :=
  stages.foldlM (runM t) { block := t.block }

@[inherit_doc runM] def run (t : Task) (d : Draft) (stage : Stage) : Except Fault Draft :=
  runM t d stage

@[inherit_doc runAllM] def runAll (t : Task) (stages : List Stage) : Except Fault Draft :=
  runAllM t stages

end Stage
end ShadowImpl
