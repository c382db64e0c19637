import ShadowImpl.Defect
import ShadowImpl.Fault
import ShadowImpl.Schedule.Order

/-!
# Engines

What an input comes to is a value or a fault. There is a third way in which an expansion could end:
the engine itself could be at fault, with stages that have no order, a result that no stage has
left, a text that is not known, a node that nothing handles or that cannot be printed or projected,
a slice of no tokens, or arguments of a path that belong to no segment.

The steps of an expansion are the same for all engines. The plain engine goes on with the answers
that it is given; the careful one makes the checks for each of them, and may be stopped.
-/

namespace ShadowImpl

/-- One step on the way from the given block to the generated one. -/
inductive Stage where
  /-- Reads the arguments of the block's marker. -/
  | directive
  /-- Replaces the self type by its shadow. -/
  | selfType
  /-- Makes the block's generics normal. -/
  | normalize
  /-- Projects the block's predicates. -/
  | project
  /-- Adds the predicates that the directive adds. -/
  | augment
  /-- Expands each method in its own scope. -/
  | methods
  /-- Renders the block. -/
  | emit
deriving DecidableEq, Repr

/-- What stops an engine. -/
inductive Abort where
  /-- A node cannot be printed or projected. -/
  | defect (d : Defect)
  /-- Nothing handles the nodes of this name. -/
  | unhandled (node : String)
  /-- The stages cannot be ordered. -/
  | unordered (f : Schedule.Failure Stage)
  /-- The result of a stage is asked for that has not left any. -/
  | missing (stage : Stage)
  /-- No text is known under the name of the file. -/
  | unknownFile (file : String)
  /-- The text of no token is asked for. -/
  | emptySlice (first : Nat)
  /-- Arguments of a path have no segment that they belong to. -/
  | looseArguments
deriving DecidableEq, Repr

/-- What the steps of an expansion are made of. -/
class Engine (m : Type → Type) where
  /-- Goes on with what an input comes to. -/
  settle : {α : Type} → Except Fault α → m α
  /-- Goes on with an answer; the check says whether it can be given. -/
  confirm : {α : Type} → (answer : α) → (check : Except Abort α) → m α

/-- The plain engine makes no checks. -/
instance Engine.plain : Engine (Except Fault) where
  settle x := x
  confirm answer _ := .ok answer

/-- What a step of the careful engine comes to, if it is not stopped. -/
abbrev Step (α : Type) := ExceptT Fault (Except Abort) α

/-- A step that is not stopped. -/
def Step.of {α : Type} (x : Except Fault α) : Step α :=
  ExceptT.mk (.ok x)

/-- A step in which a check is made that may stop the engine. -/
def Step.check {α : Type} (x : Except Abort α) : Step α :=
  ExceptT.lift x

/-- The careful engine makes all checks. -/
instance Engine.careful : Engine Step where
  settle := Step.of
  confirm _ check := Step.check check

namespace Engine

variable {α : Type}

@[simp] theorem settle_plain (x : Except Fault α) : (settle x : Except Fault α) = x := rfl

@[simp] theorem confirm_plain (answer : α) (check : Except Abort α) :
    (confirm answer check : Except Fault α) = .ok answer := rfl

end Engine
end ShadowImpl
