import ShadowImpl.Diagnostic.Render
import ShadowImpl.Expansion.Stage
import ShadowImpl.Text.Removal

/-!
# Expansions

An expansion is the given text followed by the generated block. It either succeeds as a whole or
yields a single fault and nothing else.
-/

namespace ShadowImpl

/-- A successful expansion: the text that was given, the text that was generated for it, and the
block that this text shows. -/
structure Expansion where
  given : String
  generated : String
  block : ImplBlock Location
deriving Repr

/-- The whole output. -/
def Expansion.output (e : Expansion) : String :=
  renderExpansion e.given e.generated

/-- What a run yields, with the texts that a fault may point into. -/
structure Outcome (α : Type) where
  sources : Sources
  result : Except Fault α

/-- The report on a run: at most one diagnostic. -/
def Outcome.report {α : Type} (o : Outcome α) : Report :=
  match o.result with
  | .ok _ => ⟨o.sources, []⟩
  | .error f => ⟨o.sources, [f.problem.diagnostic]⟩

/-- The file name under which arguments are read that have no file. -/
def argsFile : String := "<args>"

/-- The text that is known under the name of a file. -/
def Sources.get (s : Sources) (file : String) : Except Abort String :=
  match s.lookup file with
  | some text => .ok text
  | none => .error (.unknownFile file)

namespace Expansion

/-- The texts that are known when `item` is expanded under a marker with the arguments `args`. -/
def itemSources (args item file : String) : Sources :=
  (Sources.set [] file item).set argsFile args

/-- The block without its marker, and the marker. A block has exactly one. -/
def takeMarker (block : ImplBlock Location) :
    Except Fault (ImplBlock Location × Attribute Location) :=
  match block.attrs.filter (Attribute.isThe .block) with
  | [] => .error ⟨.missingMarker, some block.place⟩
  | [marker] =>
    .ok ({ block with attrs := block.attrs.filter fun a => !a.isThe .block }, marker)
  | _ :: second :: _ => .error ⟨.duplicateMarker, some second.place⟩

/-- The arguments of a marker, in the text that it stands in. -/
def markerArgs (source : Source) (marker : Attribute Location) : Except Fault Source :=
  match marker.content.map Meta.form with
  | some .value => .error ⟨.markerWithValue .block, some marker.place⟩
  | some (.list _ group) => .ok { source with region := some (Directive.interior group) }
  | _ => .ok ⟨argsFile, "", none⟩

section Engine

variable {m : Type → Type} [Monad m] [Engine m]

/-- Expands a block that has been read; `given` is the text to repeat in front. -/
def ofTaskM (t : Task) (given : String) : m Expansion := do
  let stages ← Engine.confirm Stage.order Stage.orderChecked
  let draft ← Stage.runAllM t stages
  let text ← Engine.confirm (draft.emitted.getD "") (Stage.emit.left draft.emitted)
  return ⟨given, text, draft.block⟩

/-- Expands `item` under a marker with the arguments `args`. The text that the method markers are
looked up in is the one known under the name of the file: if that is the name reserved for the
arguments, it is the arguments. -/
def ofItemM (args item file : String) : m Expansion := do
  let block ← Source.implBlockM ⟨file, item, none⟩
  let sources := itemSources args item file
  let known ← Engine.confirm ((sources.lookup file).getD item) (sources.get file)
  ofTaskM ⟨⟨argsFile, args, none⟩, ⟨file, known, none⟩, block⟩ item

/-- Expands a block that carries its marker. -/
def ofSourceM (text file : String) : m Expansion := do
  let source : Source := ⟨file, text, none⟩
  let (block, marker) ← Engine.settle (takeMarker (← source.implBlockM))
  let args ← Engine.settle (markerArgs source marker)
  -- Offsets of a text that was read are never negative.
  let given := Text.removeAttribute text.toList marker.place.start.toNat marker.place.stop.toNat
  let known ← Engine.confirm text ((Sources.set [] file text).get file)
  ofTaskM ⟨args, ⟨file, known, none⟩, block⟩ (String.ofList given)

end Engine

@[inherit_doc ofTaskM] def ofTask (t : Task) (given : String) : Except Fault Expansion :=
  ofTaskM t given

@[inherit_doc ofItemM] def ofItem (args item file : String) : Outcome Expansion :=
  ⟨itemSources args item file, ofItemM args item file⟩

@[inherit_doc ofSourceM] def ofSource (text file : String) : Outcome Expansion :=
  ⟨Sources.set [] file text, ofSourceM text file⟩

end Expansion

/-- Checks that an item is a method, which a method marker asks for. -/
def checkMethod (item file : String) : Outcome (Method Location) :=
  ⟨Sources.set [] file item, Source.method ⟨file, item, none⟩⟩

end ShadowImpl
