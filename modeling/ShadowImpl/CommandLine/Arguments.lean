import ShadowImpl.Text.Digit

/-!
# Command line arguments

Options may stand before and after the file. A long option may be cut short as long as one option
starts so, and its value may be attached with `=`; the value of a short option may be attached
directly. A value of its own may not look like an option. After `--` nothing is an option.
-/

namespace ShadowImpl.CommandLine

/-- What the command line asks for. -/
structure Options where
  file : String
  args : Option String := none
  checkMethod : Bool := false
  output : Option String := none
deriving DecidableEq, Repr

/-- An option that the command line knows. -/
inductive Switch where
  | help
  | args
  | checkMethod
  | output
deriving DecidableEq, Repr

/-- Whether a switch comes with a value. -/
def Switch.takesValue : Switch → Bool
  | args | output => true
  | help | checkMethod => false

/-- The spellings of the switches. -/
def spellings : List (String × Switch) :=
  [("-h", .help), ("--help", .help), ("--args", .args), ("--check-method", .checkMethod),
    ("-o", .output), ("--output", .output)]

/-- Why no options come out: help was asked for, or the arguments make no sense. -/
inductive Stop where
  | help
  | usage
deriving DecidableEq, Repr

/-! ## Single arguments -/

/-- What a single argument means. -/
inductive Word where
  /-- An argument that is no option. -/
  | plain (text : String)
  /-- A switch, with the text attached to it; `short` if it is spelled with a single dash. -/
  | switch (switch : Switch) (short : Bool) (attached : Option String)
  /-- Something that looks like an option and is none. -/
  | unknown
  /-- The first `--`. -/
  | dashes
deriving DecidableEq, Repr

/-- Whether a text has the given beginning. -/
def startsWith (beginning text : String) : Bool :=
  beginning.toList.isPrefixOf text.toList

/-- The text before the first `=` and the text after it. -/
def splitValue (text : String) : String × Option String :=
  let before := text.toList.takeWhile (· ≠ '=')
  match text.toList.drop before.length with
  | [] => (text, none)
  | _ :: after => (String.ofList before, some (String.ofList after))

/-- Whether a text is a number without a sign: a whole one, or one with digits after a point. -/
def isNumber (text : List Char) : Bool :=
  let whole := text.takeWhile Text.isDigit
  match text.drop whole.length with
  | [] => !whole.isEmpty
  | '.' :: fraction => !fraction.isEmpty && fraction.all Text.isDigit
  | _ => false

/-- Whether a text is a number with a minus sign, which is no option. One line feed may end it. -/
def isNegativeNumber (text : String) : Bool :=
  match text.toList with
  | '-' :: r => isNumber (if r.getLast? = some '\n' then r.dropLast else r)
  | _ => false

/-- The switches that an argument can mean when it is no full spelling. -/
def abbreviated (text : String) : List Word :=
  if startsWith "--" text then
    let (beginning, value) := splitValue text
    (spellings.filter fun (s, _) => startsWith beginning s).map fun (_, switch) =>
      .switch switch false value
  else
    -- Whatever is attached to a short spelling is its value.
    let short := String.ofList (text.toList.take 2)
    (spellings.filter fun (s, _) => s = short).map fun (_, switch) =>
      .switch switch true (some (String.ofList (text.toList.drop 2)))

/-- What a single argument is. -/
def Word.of (text : String) : Except Stop Word :=
  match text.toList with
  | [] | ['-'] => .ok (.plain text)
  | '-' :: _ =>
    let short := !startsWith "--" text
    match spellings.lookup text, splitValue text with
    | some known, _ => .ok (.switch known short none)
    | none, (spelling, value) =>
      match value.bind fun _ => spellings.lookup spelling with
      | some known => .ok (.switch known short value)
      | none =>
        match abbreviated text with
        | [word] => .ok word
        | _ :: _ :: _ => .error .usage
        | [] =>
          if isNegativeNumber text || text.toList.contains ' ' then .ok (.plain text)
          else .ok .unknown
  | _ => .ok (.plain text)

/-- What the arguments are. -/
def words : List String → Except Stop (List Word)
  | [] => .ok []
  | text :: more =>
    if text = "--" then .ok (.dashes :: more.map .plain)
    else do return (← Word.of text) :: (← words more)

/-! ## The whole line -/

/-- What has been found so far. `afterFile` says that the file was the last argument. -/
structure Found where
  file : Option String := none
  args : Option String := none
  checkMethod : Bool := false
  output : Option String := none
  leftover : Bool := false
  afterFile : Bool := false
deriving DecidableEq, Repr

namespace Found

/-- Sets the value of a switch. -/
def set (f : Found) (switch : Switch) (value : String) : Found :=
  match switch with
  | .args => { f with args := some value }
  | .output => { f with output := some value }
  | _ => f

/-- A line needs a file and may leave nothing over. -/
def finish (f : Found) : Except Stop Options :=
  match f.file with
  | none => .error .usage
  | some file =>
    if f.leftover then .error .usage else .ok ⟨file, f.args, f.checkMethod, f.output⟩

end Found

/-- The text attached to a short switch that takes no value is read as more short switches. -/
inductive Cluster where
  /-- Nothing is missing. -/
  | complete
  /-- The last switch still wants its value. -/
  | wantsValue
  /-- A letter is no switch. -/
  | broken
deriving DecidableEq, Repr

/-- What the letters attached to `-h` come to. -/
def Cluster.of : List Char → Cluster
  | [] => .complete
  | 'h' :: r => Cluster.of r
  | 'o' :: r => if r.isEmpty then .wantsValue else .complete
  | _ => .broken

/-- Whether a value comes next. -/
def valueNext : List Word → Bool
  | .plain _ :: _ => true
  | _ => false

/-- Goes through the arguments from left to right. -/
def collect : Found → List Word → Except Stop Options
  | f, [] => f.finish
  | f, .plain text :: more =>
    match f.file with
    | none => collect { f with file := some text, afterFile := true } more
    | some _ => collect { f with leftover := true, afterFile := false } more
  | f, .dashes :: more =>
    collect { f with leftover := f.leftover || (f.file.isSome && !f.afterFile), afterFile := false }
      more
  | f, .unknown :: more => collect { f with leftover := true, afterFile := false } more
  | _, .switch .help _ none :: _ => .error .help
  | _, .switch .help false (some _) :: _ => .error .usage
  -- More short switches may hang on this one, and the last of them may want a value.
  | _, .switch .help true (some letters) :: more =>
    if letters = "" then .error .usage
    else match Cluster.of letters.toList with
      | .complete => .error .help
      | .wantsValue => if valueNext more then .error .help else .error .usage
      | .broken => .error .usage
  | f, .switch .checkMethod _ none :: more =>
    collect { f with checkMethod := true, afterFile := false } more
  | _, .switch .checkMethod _ (some _) :: _ => .error .usage
  | f, .switch switch _ (some value) :: more =>
    collect { f.set switch value with afterFile := false } more
  | f, .switch switch _ none :: .plain value :: more =>
    collect { f.set switch value with afterFile := false } more
  | _, .switch _ _ none :: _ => .error .usage

/-- The options on a command line. -/
def Options.parse (argv : List String) : Except Stop Options := do
  collect {} (← words argv)

end ShadowImpl.CommandLine
