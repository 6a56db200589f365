/-!
The command line: which command it names and with which options. Options may stand before and
behind the expression, a value may be attached to its option, and two dashes end the options.
-/
namespace JsonQuery

/-- What the user asks for. -/
inductive Command where
  | search (expression : String) (input filename : Option String) (pretty : Bool)
  | outline (expression : String)
  | functions
  deriving DecidableEq

/-- What has been read of the options and operands. -/
structure Arguments where
  operands : List String
  input : Option String
  filename : Option String
  pretty : Bool

/-- The options of a command line. -/
inductive CommandOption where
  | input
  | filename
  | pretty
  deriving DecidableEq

namespace Arguments

/-- Nothing has been read yet. -/
def empty : Arguments :=
  ⟨[], none, none, false⟩

/-- Adds an operand behind those already read. -/
def addOperand (a : Arguments) (text : String) : Arguments :=
  { a with operands := a.operands ++ [text] }

/-- Gives an option its value. No option may be given twice, and a file has to have a name. -/
def setOption? (a : Arguments) (o : CommandOption) (value : String) : Option Arguments :=
  match o with
  | .input => if a.input.isNone then some { a with input := some value } else none
  | .filename =>
    if a.filename.isNone && !value.isEmpty then some { a with filename := some value } else none
  | .pretty => none

/-- Asks for lines; like any option, it may be given once. -/
def setPretty? (a : Arguments) : Option Arguments :=
  if a.pretty then none else some { a with pretty := true }

end Arguments

/-- The option of a letter. -/
def shortOption? (c : Char) : Option CommandOption :=
  if c = 'i' then some .input
  else if c = 'f' then some .filename
  else if c = 'p' then some .pretty
  else none

/-- The option of a name. -/
def longOption? (name : List Char) : Option CommandOption :=
  if name = "input".toList then some .input
  else if name = "filename".toList then some .filename
  else if name = "pretty".toList then some .pretty
  else none

/-- Whether an argument can only be an option. A lone dash is a value. -/
def looksLikeOption (argument : List Char) : Bool :=
  match argument with
  | '-' :: _ :: _ => true
  | _ => false

/-- What an argument of options leaves open: nothing, or a value for its last option. -/
inductive Pending where
  | done (a : Arguments)
  | needsValue (a : Arguments) (o : CommandOption)

/-- Reads letters behind one dash. The letters behind one that takes a value are its value. -/
def readShort (a : Arguments) : List Char → Option Pending
  | [] => some (.done a)
  | c :: rest => do
    match ← shortOption? c with
    | .pretty => readShort (← a.setPretty?) rest
    | o =>
      match rest with
      | [] => return .needsValue a o
      | '=' :: value => return .done (← a.setOption? o (String.ofList value))
      | value => return .done (← a.setOption? o (String.ofList value))

/-- Reads a name behind two dashes, with or without a value behind an equals sign. -/
def readLong (a : Arguments) (text : List Char) : Option Pending := do
  let name := text.takeWhile (· != '=')
  match ← longOption? name, text.dropWhile (· != '=') with
  | .pretty, [] => return .done (← a.setPretty?)
  | .pretty, _ => none
  | o, [] => return .needsValue a o
  | o, _ :: value => return .done (← a.setOption? o (String.ofList value))

/-- Reads the arguments behind the name of the command. -/
def readArguments (a : Arguments) : List String → Option Arguments
  | [] => some a
  | text :: rest =>
    match text.toList with
    | ['-', '-'] => some (rest.foldl Arguments.addOperand a)
    | '-' :: c :: more => do
      let pending ← if c = '-' then readLong a more else readShort a (c :: more)
      match pending, rest with
      | .done a, rest => readArguments a rest
      | .needsValue _ _, [] => none
      | .needsValue a o, value :: rest =>
        if looksLikeOption value.toList then none
        else readArguments (← a.setOption? o value) rest
    | _ => readArguments (a.addOperand text) rest

/-- The command that the arguments name, if they name one. -/
def Command.ofArguments? : List String → Option Command
  | "search" :: rest => do
    let a ← readArguments .empty rest
    match a.operands, a.input, a.filename with
    | [_], some _, some _ => none
    | [expression], input, filename => return .search expression input filename a.pretty
    | _, _, _ => none
  | "ast" :: rest => do
    match rest with
    | ["--", expression] => return .outline expression
    | [expression, "--"] =>
      if looksLikeOption expression.toList then none else return .outline expression
    | [expression] =>
      if looksLikeOption expression.toList then none else return .outline expression
    | _ => none
  | "functions" :: rest => if rest = [] ∨ rest = ["--"] then some .functions else none
  | _ => none

end JsonQuery
