import ShadowImpl.Syntax.Generics
import ShadowImpl.Text.Basic

/-!
# Printing

Types, bounds, predicates and parameter lists in one fixed layout. A method's where clause can be
indented; everything else is written on one line.
-/

namespace ShadowImpl

/-- One step of indentation. -/
def indentation : String := "    "

/-- A binder with a space after it, nothing if it binds nothing. -/
def printBinder (lifetimes : List Lifetime) : String :=
  if lifetimes.isEmpty then ""
  else "for<" ++ Text.join ", " (lifetimes.map Lifetime.name) ++ "> "

/-- Lifetimes with plus signs between them. -/
def printLifetimes (lifetimes : List Lifetime) : String :=
  Text.join " + " (lifetimes.map Lifetime.name)

mutual

/-- A type as text. -/
def Ty.print : Ty → String
  | .path path => path.print
  | .qualified self none path => "<" ++ self.print ++ ">::" ++ path.print
  | .qualified self (some asTrait) path =>
    "<" ++ self.print ++ " as " ++ asTrait.print ++ ">::" ++ path.print
  | .ref lifetime mutable elem =>
    "&" ++ (match lifetime with | some l => l.name ++ " " | none => "") ++
      (if mutable then "mut " else "") ++ elem.print
  | .ptr mutable elem => "*" ++ (if mutable then "mut" else "const") ++ " " ++ elem.print
  | .tuple [elem] => "(" ++ elem.print ++ ",)"
  | .tuple elems => "(" ++ Text.join ", " (printTys elems) ++ ")"
  | .paren elem => "(" ++ elem.print ++ ")"
  | .slice elem => "[" ++ elem.print ++ "]"
  | .array elem length => "[" ++ elem.print ++ "; " ++ length ++ "]"
  | .never => "!"
  | .implTrait bounds => "impl " ++ Text.join " + " (printEachBound bounds)
  | .dynTrait bounds => "dyn " ++ Text.join " + " (printEachBound bounds)
  | .fnPtr lifetimes isUnsafe abi inputs output =>
    printBinder lifetimes ++ (if isUnsafe then "unsafe " else "") ++
      (match abi with
        | none => ""
        | some a => if a = "" then "extern " else "extern " ++ a ++ " ") ++
      "fn(" ++ Text.join ", " (printFnArgs inputs) ++ ")" ++ printOutput output

/-- The arrow and the type after it, nothing if there is no output. -/
def printOutput : Option Ty → String
  | none => ""
  | some ty => " -> " ++ ty.print

def printTys : List Ty → List String
  | [] => []
  | ty :: tys => ty.print :: printTys tys

def FnArg.print : FnArg → String
  | ⟨none, ty⟩ => ty.print
  | ⟨some name, ty⟩ => if name = "" then ty.print else name ++ ": " ++ ty.print

def printFnArgs : List FnArg → List String
  | [] => []
  | arg :: args => arg.print :: printFnArgs args

def Path.print : Path → String
  | ⟨segments, rooted⟩ => (if rooted then "::" else "") ++ Text.join "::" (printSegments segments)

def printSegments : List Segment → List String
  | [] => []
  | segment :: segments => segment.print :: printSegments segments

def Segment.print : Segment → String
  | ⟨ident, none⟩ => ident
  | ⟨ident, some args⟩ => ident ++ args.print

def PathArgs.print : PathArgs → String
  | .angle args turbofish =>
    (if turbofish then "::" else "") ++ "<" ++ Text.join ", " (printGenericArgs args) ++ ">"
  | .paren inputs output => "(" ++ Text.join ", " (printTys inputs) ++ ")" ++ printOutput output

def GenericArg.print : GenericArg → String
  | .ty ty => ty.print
  | .lifetime lifetime => lifetime.name
  | .binding ident ty => ident ++ " = " ++ ty.print
  | .constraint ident bounds => ident ++ ": " ++ Text.join " + " (printEachBound bounds)
  | .const text => text

def printGenericArgs : List GenericArg → List String
  | [] => []
  | arg :: args => arg.print :: printGenericArgs args

def Bound.print : Bound → String
  | .trait path maybe lifetimes =>
    (if maybe then "?" else "") ++ printBinder lifetimes ++ path.print
  | .lifetime lifetime => lifetime.name

def printEachBound : List Bound → List String
  | [] => []
  | bound :: bounds => bound.print :: printEachBound bounds

end

theorem Ty.print_path (p : Path) : (Ty.path p).print = p.print := by
  rw [Ty.print]

/-- Bounds with plus signs between them. -/
def printBounds (bounds : List Bound) : String :=
  Text.join " + " (bounds.map Bound.print)

/-- A subject and what it is bound by; the colon is written even without a bound. -/
def printBounded (subject bounds : String) (unbounded : Bool) : String :=
  if unbounded then subject ++ ":" else subject ++ ": " ++ bounds

/-- A predicate as text; the colon stays when there are no bounds. -/
def Predicate.print : Predicate → String
  | type subject bounds lifetimes =>
    printBounded (printBinder lifetimes ++ subject.print) (printBounds bounds) bounds.isEmpty
  | lifetime l bounds =>
    printBounded l.name (printLifetimes bounds) bounds.isEmpty

namespace GenericParam

/-- A parameter with its bounds and its default. -/
def print : GenericParam → String
  | type ident bounds default =>
    ident ++ (if bounds.isEmpty then "" else ": " ++ printBounds bounds) ++
      (match default with | some ty => " = " ++ ty.print | none => "")
  | lifetime l bounds =>
    l.name ++ (if bounds.isEmpty then "" else ": " ++ printLifetimes bounds)
  | const ident ty default =>
    "const " ++ ident ++ ": " ++ ty.print ++
      (match default with | some arg => " = " ++ arg.print | none => "")

/-- A parameter without bounds and default. -/
def printName : GenericParam → String
  | type ident _ _ => ident
  | lifetime l _ => l.name
  | const ident ty _ => "const " ++ ident ++ ": " ++ ty.print

end GenericParam

/-- Printed parameters in angle brackets, nothing if there are none. -/
def printParamList (printed : List String) : String :=
  if printed.isEmpty then "" else "<" ++ Text.join ", " printed ++ ">"

namespace Generics

/-- The parameter list. -/
def printParams (g : Generics) : String :=
  printParamList (g.params.map GenericParam.print)

/-- The parameter list without bounds and defaults. -/
def printNames (g : Generics) : String :=
  printParamList (g.params.map GenericParam.printName)

end Generics

/-- A where clause on lines of its own, each predicate one step deeper than `indent`. Nothing is
written for an empty clause. -/
def printClause (clause : Option (List Predicate)) (indent : String) : String :=
  match clause.getD [] with
  | [] => ""
  | p :: ps =>
    "\n" ++ indent ++ "where\n" ++
      Text.join "\n" ((p :: ps).map fun q => indent ++ indentation ++ q.print ++ ",") ++ "\n"

end ShadowImpl
