import ShadowImpl.Syntax.Unit
import ShadowImpl.Text.Location

/-!
# Faults

Everything that can be wrong with an input, as a cause and a place. The wording of each cause stands
here and nowhere else.
-/

namespace ShadowImpl

/-- What a text is read as. -/
inductive Goal where
  | implBlock
  | item
  | directives
  | names
  | predicates
deriving DecidableEq, Repr

/-- Why a text cannot be read further. -/
inductive Complaint where
  | endOfInput
  | token (text : String)
  | character (c : Char)
deriving DecidableEq, Repr

/-- The markers that a program can write. -/
inductive Marker where
  | block
  | method
deriving DecidableEq, Repr

/-- How a marker is spelled. -/
def Marker.name : Marker → String
  | block => "shadow_impl"
  | method => "shadow_method"

/-- What is wrong. -/
inductive Cause where
  | unreadable (goal : Goal) (complaint : Complaint)
  | unknownDirective (path : String)
  | directiveWithoutList (path : String)
  | missingMarker
  | duplicateMarker
  | markerWithValue (marker : Marker)
  | unsupportedSelfType (printed : String)
  | markedItem (kind : ItemKind)
  | notMethod (kind : ItemKind)
deriving DecidableEq, Repr

/-- What is wrong, and where. -/
structure Fault where
  cause : Cause
  location : Option Location
deriving DecidableEq, Repr

/-- The classes of fault that a user is told of. -/
inductive Category where
  | general
  | unreadable
  | directive
  | selfType
  | methodForm
deriving DecidableEq, Repr

/-- The code that stands for a category. -/
def Category.code : Category → String
  | general => "E0000"
  | unreadable => "E0001"
  | directive => "E0101"
  | selfType => "E0102"
  | methodForm => "E0103"

/-! ## Wording -/

/-- Whether a goal is a list of marker arguments. -/
def Goal.isList : Goal → Bool
  | implBlock | item => false
  | directives | names | predicates => true

/-- What a goal is called in a message. -/
def Goal.subject (g : Goal) : String :=
  if g.isList then "marker arguments" else "Rust item"

/-- What would have been right. -/
def Goal.help : Goal → String
  | implBlock => "expected a single `impl` block"
  | item => "expected a single associated item"
  | directives => "marker arguments must be a comma-separated list"
  | names => "expected a comma-separated list of type parameter names"
  | predicates => "expected a comma-separated list of where predicates"

/-- What stands where something else was expected. -/
def Complaint.message : Complaint → String
  | endOfInput => "unexpected end of input"
  | token text => "unexpected token `" ++ text ++ "`"
  | character c => "unexpected character `" ++ String.ofList [c] ++ "`"

namespace Cause

/-- The category of a cause. -/
def category : Cause → Category
  | unreadable goal _ => if goal.isList then .directive else .unreadable
  | unsupportedSelfType _ => .selfType
  | markedItem _ | notMethod _ => .methodForm
  | _ => .directive

/-- What is wrong, in words. -/
def message : Cause → String
  | unreadable goal complaint => complaint.message ++ " while parsing " ++ goal.subject
  | unknownDirective path => "unknown directive `" ++ path ++ "`"
  | directiveWithoutList path => "`" ++ path ++ "` expects a parenthesized list"
  | missingMarker => "missing `#[" ++ Marker.block.name ++ "]` marker"
  | duplicateMarker => "duplicate `#[" ++ Marker.block.name ++ "]` marker"
  | markerWithValue marker => "`" ++ marker.name ++ "` does not take a value"
  | unsupportedSelfType printed => "unsupported self type `" ++ printed ++ "`"
  | markedItem _ | notMethod _ =>
    "`#[" ++ Marker.method.name ++ "]` can only be applied to methods"

/-- What to do about it. -/
def help : Cause → String
  | unreadable goal _ => goal.help
  | unknownDirective _ => "expected `transform_bounds(...)` or `add_bounds(...)`"
  | directiveWithoutList path => "write `" ++ path ++ "(...)`"
  | missingMarker => "annotate the impl block with `#[" ++ Marker.block.name ++ "(...)]`"
  | duplicateMarker => "merge the directives into a single marker"
  | markerWithValue marker => "write `#[" ++ marker.name ++ "(...)]`"
  | unsupportedSelfType _ =>
    "the shadow type is derived from a named type such as `Foo` or `Foo<T>`"
  | markedItem kind => "remove the marker from this associated " ++ kind.name
  | notMethod kind => "found an associated " ++ kind.name

/-- The words beside the underline. -/
def label : Cause → Option String
  | unknownDirective _ => some "unknown directive"
  | unsupportedSelfType _ => some "expected a path type"
  | markedItem _ | notMethod _ => some "not a method"
  | _ => none

end Cause
end ShadowImpl
