import ShadowImpl.CommandLine.Arguments
import ShadowImpl.CommandLine.Host
import ShadowImpl.CommandLine.Paths
import ShadowImpl.CommandLine.Program
import ShadowImpl.CommandLine.Tree
import ShadowImpl.Defect
import ShadowImpl.Diagnostic.Basic
import ShadowImpl.Diagnostic.Render
import ShadowImpl.Diagnostic.Style
import ShadowImpl.Directive
import ShadowImpl.Expansion.Basic
import ShadowImpl.Expansion.Stage
import ShadowImpl.Fault
import ShadowImpl.Generics.Normal
import ShadowImpl.Generics.Scope
import ShadowImpl.Grammar.Attributes
import ShadowImpl.Grammar.Expected
import ShadowImpl.Grammar.Generics
import ShadowImpl.Grammar.Items
import ShadowImpl.Grammar.Reading
import ShadowImpl.Grammar.Trees
import ShadowImpl.Grammar.Types
import ShadowImpl.Main
import ShadowImpl.Method
import ShadowImpl.Parser
import ShadowImpl.Projection
import ShadowImpl.Render
import ShadowImpl.Schedule.Order
import ShadowImpl.Schedule.Run
import ShadowImpl.Shadow
import ShadowImpl.Syntax.Generics
import ShadowImpl.Syntax.Printer
import ShadowImpl.Syntax.Record
import ShadowImpl.Syntax.Types
import ShadowImpl.Syntax.Unit
import ShadowImpl.Text.Basic
import ShadowImpl.Text.Blank
import ShadowImpl.Text.Digit
import ShadowImpl.Text.Location
import ShadowImpl.Text.Region
import ShadowImpl.Text.Removal
import ShadowImpl.Text.Utf8
import ShadowImpl.Token.Recogniser
import ShadowImpl.Token.Scanner
import ShadowImpl.Token.Terminal
import ShadowImpl.Proofs.Alignment
import ShadowImpl.Proofs.Directives
import ShadowImpl.Proofs.RootPositions
import ShadowImpl.Proofs.Engine
import ShadowImpl.Proofs.FileNames
import ShadowImpl.Proofs.Isolation
import ShadowImpl.Proofs.EntryPoints
import ShadowImpl.Proofs.ReadBack
import ShadowImpl.Proofs.Confluence
import ShadowImpl.Proofs.Frame
import ShadowImpl.Proofs.Extents
import ShadowImpl.Proofs.Spans
import ShadowImpl.Proofs.Cutouts
import ShadowImpl.Proofs.Chunks
import ShadowImpl.Proofs.Continuation
import ShadowImpl.Proofs.FirstFreed
import ShadowImpl.Proofs.Projections
import ShadowImpl.Proofs.RoundTrip
import ShadowImpl.Proofs.Abridgement
import ShadowImpl.Proofs.TokensKept
import ShadowImpl.Proofs.WholeWords
import ShadowImpl.Proofs.Markers
import ShadowImpl.Proofs.Opaque
import ShadowImpl.Proofs.Additions
import ShadowImpl.Proofs.Constraints
import ShadowImpl.Proofs.Histories
import ShadowImpl.Proofs.NameLists
import ShadowImpl.Proofs.Concatenation
import ShadowImpl.Proofs.RemovedLines
import ShadowImpl.Proofs.Availability
import ShadowImpl.Proofs.InPlace
import ShadowImpl.Proofs.Carets
import ShadowImpl.Proofs.Colour
import ShadowImpl.Proofs.ExitStatus
import ShadowImpl.Proofs.Signatures
import ShadowImpl.Proofs.Masks
import ShadowImpl.Proofs.LinesAndColumns
import ShadowImpl.Proofs.GeneratedBlocks
