import ShadowImpl.Engine
import ShadowImpl.Grammar.Items
import ShadowImpl.Grammar.Nodes
import ShadowImpl.Text.Region

/-!
# Parsing

The five things that a text can be read as. A text is read under the name of a file, and of the
lists a region may be picked, which is read as if the rest of the text were blank.
-/

namespace ShadowImpl

/-- A text to be read. -/
structure Source where
  file : String
  text : String
  region : Option (Int × Int) := none
deriving DecidableEq, Repr

/-- The characters that are read. -/
def Source.chars (s : Source) : List Char :=
  match s.region with
  | none => s.text.toList
  | some (start, stop) => Text.mask s.text.toList start stop

/-! ## Where a scan stops -/

namespace Scan

/-- What is wrong with what stands next. Where nothing that is expected can be read, it is named as
the token that could stand there anywhere, if there is one. -/
def complaint (s : Scan) : Complaint :=
  match s.next with
  | .ended _ => .endOfInput
  | .token t _ => .token (String.ofList t.text)
  | .unknown _ rest =>
    -- The same text once more, now with every token allowed.
    match Next.of Terminal.all rest, rest with
    | .token t _, _ => .token (String.ofList t.text)
    | _, c :: _ => .character c
    | _, [] => .endOfInput

/-- The offset of what stands next. The end of a text counts as being right after its last character
that is not blank. -/
def offset (text : List Char) (s : Scan) : Nat :=
  match s.next with
  | .ended _ => (Text.trimEnd text).length
  | .token t rest => text.length - rest.length - t.text.length
  | .unknown _ rest => text.length - rest.length

end Scan

/-! ## Where tokens stand -/

/-- The offsets at which the tokens start and stop, the first gap starting at `start`. -/
def Token.spans (start : Nat) : List Token → List (Nat × Nat)
  | [] => []
  | t :: ts =>
    let first := start + t.gap.length
    let last := first + t.text.length
    (first, last) :: spans last ts

/-- The location of an extent of tokens. -/
def Extent.location (file : String) (text : List Char) (spans : Array (Nat × Nat)) (e : Extent) :
    Location :=
  let start := (spans[e.first]?.getD (0, 0)).1
  let stop := (spans[e.last - 1]?.getD (0, 0)).2
  .range file text start stop

/-! ## Running a reading -/

/-- What a reading yields, and where its tokens stand. -/
structure Parsed (α : Type) where
  value : α
  tokens : List Token

/-- A bound for the depth of a reading: no rule calls more than a handful of others before a
character is taken. -/
def depth (text : List Char) : Nat :=
  16 * (text.length + 1)

namespace Reading

variable {α : Type}

/-- The reading of a text and of nothing behind it. -/
def whole (reading : Nat → Reading α) (n : Nat) : Reading α := do
  let a ← reading n
  finish
  return a

/-- What was read by the end of a scan. -/
def parsed (p : α × Scan) : Parsed α :=
  ⟨p.1, p.2.taken.reverse⟩

/-- Reads all of a text. -/
def parse (reading : Nat → Reading α) (start : Expectation) (text : List Char) :
    Except Scan (Parsed α) :=
  match (whole reading (depth text)).run (.start start text) with
  | .ok p => .ok (parsed p)
  | .error s => .error s

/-- Follows a reading through a scan, and stops where the text of no token is asked for. -/
def runChecked : Reading α → Scan → Except Abort (Except Scan (α × Scan))
  | done a, s => .ok (.ok (a, s))
  | refuse, s => .ok (.error s)
  | look k, s => (k s.next.kind).runChecked s
  | take e k, s =>
    match s.next with
    | .token t rest => (k (String.ofList t.text)).runChecked ⟨t :: s.taken, rest, e⟩
    | _ => .ok (.error s)
  | count k, s => (k s.taken.length).runChecked s
  | text i k, s =>
    if i < s.taken.length then (k (String.ofList (s.textFrom i))).runChecked s
    else .error (.emptySlice i)

/-- Reads all of a text, and stops unless all nodes are handled and all slices have tokens. -/
def parseChecked (reading : Nat → Reading α) (start : Expectation) (text : List Char) :
    Except Abort (Except Scan (Parsed α)) := do
  Grammar.nodes.forM Grammar.dispatch
  return (← (whole reading (depth text)).runChecked (.start start text)).map parsed

end Reading

namespace Source

variable {m : Type → Type} [Monad m] [Engine m]

/-- Reads a source as `goal`, and turns the places in the result into locations. -/
def parseM {α β : Type} (s : Source) (goal : Goal) (start : Expectation) (reading : Nat → Reading α)
    (place : (Extent → Location) → α → β) : m β := do
  let text := s.chars
  match ← Engine.confirm (Reading.parse reading start text)
    (Reading.parseChecked reading start text) with
  | .ok p =>
    return place (Extent.location s.file text (Token.spans 0 p.tokens).toArray) p.value
  | .error scan =>
    Engine.settle
      (.error ⟨.unreadable goal scan.complaint, some (.point s.file text (scan.offset text))⟩)

/-- An impl block and nothing else. -/
def implBlockM (s : Source) : m (ImplBlock Location) :=
  s.parseM .implBlock Expected.block Grammar.implBlock ImplBlock.map

/-- An associated item and nothing else. -/
def itemM (s : Source) : m (Item Location) :=
  s.parseM .item Expected.item
    (fun n => do Grammar.item (← Grammar.attributes n) n) Item.map

/-- Meta items with commas between them. -/
def metasM (s : Source) : m (List (Meta Location)) :=
  s.parseM .directives Expected.metaItem
    (fun n => Reading.openList Expected.metaItem.contains Expected.metaItem (Grammar.metaItem n) n)
    fun f => List.map (Meta.map f)

/-- Names with commas between them. -/
def namesM (s : Source) : m (List String) :=
  s.parseM .names Expected.name
    (fun n => Reading.openList (· = .ident) Expected.name (Reading.token .ident [.comma]) n)
    fun _ => id

/-- Where predicates with commas between them. -/
def predicatesM (s : Source) : m (List Predicate) :=
  s.parseM .predicates Expected.predicate (Grammar.predicates Expected.predicate) fun _ => id

/-! ### With the plain engine -/

/-- What a source comes to when it is read as `goal`. -/
def parse {α β : Type} (s : Source) (goal : Goal) (start : Expectation) (reading : Nat → Reading α)
    (place : (Extent → Location) → α → β) : Except Fault β :=
  s.parseM goal start reading place

theorem parseM_plain {α β : Type} (s : Source) (goal : Goal) (start : Expectation)
    (reading : Nat → Reading α) (place : (Extent → Location) → α → β) :
    (s.parseM goal start reading place : Except Fault β) =
      match Reading.parse reading start s.chars with
      | .ok p => .ok (place
          (Extent.location s.file s.chars (Token.spans 0 p.tokens).toArray) p.value)
      | .error scan => .error
        ⟨.unreadable goal scan.complaint, some (.point s.file s.chars (scan.offset s.chars))⟩ := rfl

@[inherit_doc implBlockM] def implBlock (s : Source) : Except Fault (ImplBlock Location) :=
  s.implBlockM

@[inherit_doc itemM] def item (s : Source) : Except Fault (Item Location) :=
  s.itemM

@[inherit_doc metasM] def metas (s : Source) : Except Fault (List (Meta Location)) :=
  s.metasM

@[inherit_doc namesM] def names (s : Source) : Except Fault (List String) :=
  s.namesM

@[inherit_doc predicatesM] def predicates (s : Source) : Except Fault (List Predicate) :=
  s.predicatesM

section Plain

variable (s : Source)

@[simp] theorem implBlockM_plain : (s.implBlockM : Except Fault _) = s.implBlock := rfl

@[simp] theorem itemM_plain : (s.itemM : Except Fault _) = s.item := rfl

@[simp] theorem metasM_plain : (s.metasM : Except Fault _) = s.metas := rfl

@[simp] theorem namesM_plain : (s.namesM : Except Fault _) = s.names := rfl

@[simp] theorem predicatesM_plain : (s.predicatesM : Except Fault _) = s.predicates := rfl

end Plain

end Source
end ShadowImpl
