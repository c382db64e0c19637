import ShadowImpl.Syntax.Printer
import ShadowImpl.Syntax.Record
import ShadowImpl.Syntax.Unit

/-!
# Rendering blocks

A block is written from its parts: names, types and where clauses are printed, everything else is
source text.
-/

namespace ShadowImpl

variable {σ : Type}

/-- The text without the line feeds at its end and the commas before them. -/
def withoutLastComma (text : String) : String :=
  let unbroken := text.toList.reverse.dropWhile (· = '\n')
  String.ofList (unbroken.dropWhile (· = ',')).reverse

/-- The attributes, each on a line of its own. -/
def Attribute.renderEach (indent : String) (attrs : List (Attribute σ)) : List String :=
  attrs.map fun a => indent ++ a.text

namespace Method

/-- The signature up to the where clause. -/
def signature (m : Method σ) (indent : String) : String :=
  indent ++ m.head ++ m.generics.printParams ++ m.params ++
    (match m.ret with
      | some ret => if ret = "" then "" else " " ++ ret
      | none => "")

/-- The where clause and the body. A semicolon follows the last predicate directly. -/
def ending (m : Method σ) (indent : String) : String :=
  let clause := printClause m.generics.clause indent
  if m.body = ";" then withoutLastComma clause ++ ";"
  else if clause = "" then " " ++ m.body
  else clause ++ indent ++ m.body

/-- A method with its attributes. -/
def render (m : Method σ) (indent : String) : String :=
  Text.join "\n" (Attribute.renderEach indent m.attrs ++ [m.signature indent ++ m.ending indent])

end Method

/-- An item with its attributes. -/
def Item.render (indent : String) : Item σ → String
  | method m => m.render indent
  | verbatim v => Text.join "\n" (Attribute.renderEach indent v.attrs ++ [indent ++ v.text])

namespace ImplBlock

/-- The header up to and with the opening brace. -/
def header (b : ImplBlock σ) : String :=
  let clause := printClause b.generics.clause ""
  (if b.isUnsafe then "unsafe impl" else "impl") ++ b.generics.printNames ++ " " ++
    (match b.traitRef with
      | some trait => trait ++ " for "
      | none => "") ++
    b.selfTy.print ++ (if clause = "" then " \x7b" else clause ++ "\x7b")

/-- The parts of the body: the inner attributes, if there are any, and each item. -/
def parts (b : ImplBlock σ) : List String :=
  (if b.innerAttrs.isEmpty then []
    else [Text.join "\n" (Attribute.renderEach indentation b.innerAttrs)]) ++
    b.items.map (Item.render indentation)

/-- A block with its attributes. -/
def render (b : ImplBlock σ) : String :=
  Text.join "\n" (Attribute.renderEach "" b.attrs ++
    if b.parts.isEmpty then [b.header ++ "\x7d"]
    else [b.header, Text.join "\n\n" b.parts, "\x7d"])

end ImplBlock

/-- Renders a block after everything in it that is printed could be. -/
def ImplBlock.renderChecked (b : ImplBlock σ) : Except Abort String := do
  let _ ← b.generics.printChecked
  let _ ← b.selfTy.printChecked
  let _ ← b.methods.mapM fun m => m.generics.printChecked
  return b.render

/-- The given text, a blank line and the generated text. -/
def renderExpansion (given generated : String) : String :=
  given ++ (if given.toList.getLast? = some '\n' then "\n" else "\n\n") ++ generated ++ "\n"

end ShadowImpl
