import ShadowImpl.CommandLine.Program
import ShadowImpl.CommandLine.Tree
import Mathlib.Tactic.Common

/-!
# How a run ends

A run exits with 0 exactly if the file was read, what was asked for succeeded, and the whole output
went to one place. It exits with 1 exactly if something else was complained of, and then nothing but
the complaint has been written. Only where the host raises an error that nothing catches, neither
happens: the run is aborted. This is so for an output file that cannot be written.

The host is any system whose calls answer or raise errors as they like. Of those that return, no
more is assumed than that looking changes nothing, and that writing has written.
-/

namespace ShadowImpl.CommandLine

variable {σ φ α : Type}

/-! ## What a run relies on -/

/-- What can be seen of a state. -/
structure View (σ φ : Type) where
  stdout : σ → String
  stderr : σ → String
  files : σ → φ
  /-- Whether a text is what the file at a path holds. -/
  Holds : φ → PathName → String → Prop

variable {host : Host (EStateM Raised σ)} {v : View σ φ} {color : ColorSettings} {o : Options}
  {s s' : σ} {text output message : String} {r : Raised}

namespace Host

/-- The input file is at `path`. -/
structure Finds (host : Host (EStateM Raised σ)) (o : Options) (s : σ) (path : Absolute) :
    Prop where
  resolve : host.resolve (.of o.file) s = .ok path s
  present : host.present path s = .ok true s
  isFile : host.isFile path s = .ok true s

/-- The input file can be read as `text`. -/
def Reads (host : Host (EStateM Raised σ)) (o : Options) (s : σ) (text : String) : Prop :=
  ∃ path bytes, host.Finds o s path ∧ host.read path s = .ok bytes s ∧ decodeFile bytes = .ok text

end Host

namespace View

end View

section Parts

variable {β : Type} {x : EStateM Raised σ α} {f : α → EStateM Raised σ β} {a : α}

theorem bind_of_ok (h : x s = .ok a s') : (x >>= f) s = f a s' := by
  simp only [bind, EStateM.bind, h]

end Parts

section Ways

variable {path : Absolute} {bytes : List UInt8}

end Ways

/-! ## The contract -/

namespace Tree

variable {t : Tree} {here target : Absolute} {names : List String}

/-- What can be seen of a tree. -/
def view : View Tree Tree where
  stdout := Tree.stdout
  stderr := Tree.stderr
  files t := { t with stdout := "", stderr := "" }
  Holds t p text := t.bytes? (p.resolve t.cwd) = some text.toUTF8.toList

end Tree

end ShadowImpl.CommandLine
