import JsonQuery.Command.Arguments
import JsonQuery.Command.Outline
import JsonQuery.Query

/-!
What the commands do: a search prints its result as JSON, the other commands print an outline or
the list of functions. The input of a search is read before its expression, so a file that cannot
be read is reported first.
-/
namespace JsonQuery

/-- Why a command fails. -/
inductive CommandError where
  | parse (e : ParseError)
  | eval (e : EvalError)
  | json
  | unreadable (reason : String)
  | noInput

/-- The error as the program prints it. -/
def CommandError.message : CommandError → String
  | .parse e => "Parse error: " ++ e.message
  | .eval e => "Evaluation error: " ++ e.message
  | .json => "Invalid JSON: " ++ Json.refusal
  | .unreadable reason => "IO error: " ++ reason
  | .noInput => "No input provided. Use --input, --filename or pipe JSON to stdin."

/-- Runs an expression on the JSON text that is its input. A mistake in the expression is reported
before one in the input. -/
def searchText (expression : String) (input : Option String) : Except CommandError Value := do
  let q ← (Query.compile expression).mapError .parse
  match input with
  | none => .error .noInput
  | some text =>
    match Json.read? text with
    | none => .error .json
    | some document => (q.run .standard document).mapError .eval

/-- The expression behind a text. -/
def expressionOf (expression : String) : Except CommandError Expr :=
  (Expr.parse expression).mapError .parse

/-- Where the input of a search comes from. -/
inductive InputSource where
  | given (text : String)
  | file (name : String)
  | standardInput
  deriving DecidableEq

/-- The source that the options name. -/
def InputSource.ofOptions (input filename : Option String) : InputSource :=
  match input, filename with
  | some text, _ => .given text
  | none, some name => .file name
  | none, none => .standardInput

/-- What a finished command leaves behind. -/
structure Outcome where
  code : Nat
  output : String
  errors : String
  deriving DecidableEq

namespace Outcome

/-- Arguments that name no command. -/
def usage : Outcome :=
  ⟨2, "", "Usage: jp <search|ast|functions> [OPTIONS] [EXPRESSION]\n"⟩

/-- An evaluation that is abandoned takes the program with it. -/
def aborted : Outcome :=
  ⟨134, "", EvalError.disorder.message ++ "\n"⟩

/-- Output with code zero, or a message with code one. -/
def ofResult : Except CommandError String → Outcome
  | .ok output => ⟨0, output, ""⟩
  | .error (.eval .disorder) => aborted
  | .error e => ⟨1, "", e.message ++ "\n"⟩

end Outcome

/-- Runs a command. `read` is what a source gives: its text, or the reason why there is none. -/
def Command.run (read : InputSource → Except String (Option String)) : Command → Outcome
  | .search expression input filename pretty =>
    .ofResult do
      let text ← (read (.ofOptions input filename)).mapError .unreadable
      let v ← searchText expression text
      return (if pretty then Json.pretty v else Json.compact v) ++ "\n"
  | .outline expression =>
    .ofResult do
      let e ← expressionOf expression
      return e.outline ++ "\n"
  | .functions => .ofResult (.ok Registry.builtins.describe)

/-- The source that a command line has to read, when it has to read one. -/
def sourceNeeded? (arguments : List String) : Option InputSource :=
  match Command.ofArguments? arguments with
  | some (.search _ input filename _) => some (.ofOptions input filename)
  | _ => none

/-- Runs a command line. -/
def runArguments (read : InputSource → Except String (Option String)) (arguments : List String) :
    Outcome :=
  match Command.ofArguments? arguments with
  | some command => command.run read
  | none => .usage

end JsonQuery
