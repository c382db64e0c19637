import ShadowImpl.Parser
import ShadowImpl.Projection

/-!
# Directives

What a marker asks for: the parameters to project, and predicates to add as they are. A parameter is
kept once, in the order of first mention; predicates are kept as often as they are given.
-/

namespace ShadowImpl

/-- The keywords of a marker's arguments. -/
inductive Keyword where
  | transformBounds
  | addBounds
deriving DecidableEq, Repr

namespace Keyword

/-- How a keyword is spelled. -/
def name : Keyword → String
  | transformBounds => "transform_bounds"
  | addBounds => "add_bounds"

/-- The keyword that a path is; `bounds` is short for `add_bounds`. -/
def ofPath? (path : String) : Option Keyword :=
  if path = "bounds" then some addBounds
  else [transformBounds, addBounds].find? (·.name = path)

end Keyword

/-- What the arguments of a marker ask for. -/
structure Directive where
  projected : List String := []
  literals : List Predicate := []
deriving BEq, Repr

namespace Directive

/-- Projects one more parameter. -/
def project (d : Directive) (ident : String) : Directive :=
  if d.projected.contains ident then d else { d with projected := d.projected ++ [ident] }

/-- Adds one more predicate. -/
def addLiteral (d : Directive) (p : Predicate) : Directive :=
  { d with literals := d.literals ++ [p] }

/-- The directive that asks for all of the given. -/
def of (projected : List String) (literals : List Predicate) : Directive :=
  literals.foldl addLiteral (projected.foldl project {})

/-- Adds what another directive asks for. -/
def merge (d other : Directive) : Directive :=
  let d' := other.projected.foldl project d
  { d' with literals := d'.literals ++ other.literals }

/-- Whether a parameter is projected. -/
def projects (d : Directive) (ident : String) : Bool :=
  d.projected.contains ident

/-- Whether nothing is asked for. -/
def isEmpty (d : Directive) : Bool :=
  d.projected.isEmpty && d.literals.isEmpty

/-- The predicate `T: Shadow`. -/
def baseline (ident : String) : Predicate :=
  .type (.ofIdent ident) [.trait (.ofIdent "Shadow") false []] []

/-- One baseline for each projected parameter. -/
def baselines (d : Directive) : List Predicate :=
  d.projected.map baseline

/-- All predicates that the directive adds: the baselines, then the literal ones. -/
def additions (d : Directive) : List Predicate :=
  d.baselines ++ d.literals

/-! ## Reading -/

/-- The offsets between the brackets of a group. -/
def interior (group : Location) : Int × Int :=
  (group.start + 1, group.stop - 1)

section Reading

variable {m : Type → Type} [Monad m] [Engine m]

/-- Follows one meta item of a marker's arguments in `s`. -/
def followM (s : Source) (d : Directive) (item : Meta Location) : m Directive :=
  match Keyword.ofPath? item.path, item.form with
  | none, _ => Engine.settle (.error ⟨.unknownDirective item.path, some item.place⟩)
  | some .transformBounds, .list _ group => do
    let names ← Source.namesM { s with region := some (interior group) }
    return names.foldl project d
  | some .addBounds, .list _ group => do
    let predicates ← Source.predicatesM { s with region := some (interior group) }
    return predicates.foldl addLiteral d
  | some _, _ => Engine.settle (.error ⟨.directiveWithoutList item.path, some item.place⟩)

/-- The directive that a marker's arguments spell out. -/
def parseM (s : Source) : m Directive := do
  (← s.metasM).foldlM (followM s) {}

end Reading

@[inherit_doc followM] def follow (s : Source) (d : Directive) (m : Meta Location) :
    Except Fault Directive :=
  followM s d m

@[inherit_doc parseM] def parse (s : Source) : Except Fault Directive :=
  parseM s

@[simp] theorem parseM_plain (s : Source) : (parseM s : Except Fault _) = parse s := rfl

end Directive
end ShadowImpl
