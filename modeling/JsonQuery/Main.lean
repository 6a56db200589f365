import JsonQuery.Command.Run

/-!
The program: it reads the input that its command line names, and prints what the command gives.
-/
namespace JsonQuery

/-- Reads a source, and keeps the reason when it cannot be read. -/
def readSource (source : InputSource) : IO (Except String (Option String)) := do
  try
    match source with
    | .given text => return .ok (some text)
    | .file name => return .ok (some (← IO.FS.readFile name))
    | .standardInput =>
      let stdin ← IO.getStdin
      if ← stdin.isTty then return .ok none
      else
        let bytes ← stdin.readBinToEnd
        match String.fromUTF8? bytes with
        | some text => return .ok (some text)
        | none => return .error "stream did not contain valid UTF-8"
  catch e => return .error (toString e)

end JsonQuery

/-- Runs one command line; its code is the exit code. -/
def main (arguments : List String) : IO UInt32 := do
  let found ←
    match JsonQuery.sourceNeeded? arguments with
    | some source => JsonQuery.readSource source
    | none => pure (.ok none)
  let outcome := JsonQuery.runArguments (fun _ => found) arguments
  (← IO.getStdout).putStr outcome.output
  (← IO.getStderr).putStr outcome.errors
  return outcome.code.toUInt32
