import ScriptEngine.CommandLine

/-!
The program: it reads the file that a command needs, runs the command and writes what it gives.
-/

namespace ScriptEngine

/-- Text of a file, or why there is none. -/
def readScript (path : String) : IO (Except String String) := do
  try return .ok (← IO.FS.readFile path)
  catch
    | .noFileOrDirectory .. => return .error "No such file or directory (os error 2)"
    | e => return .error (toString e)

/-- Status that tells the caller how a command ended. -/
def exitStatus : CommandLine.Exit → UInt32
  | .code n => UInt32.ofNat n
  | .signal => 133

def runCommand (args : List String) : IO UInt32 := do
  match CommandLine.Invocation.parse args with
  | none =>
    IO.eprintln CommandLine.usage
    return 2
  | some i =>
    let contents ← match i.command with
      | .run path _ => readScript path
      | .eval _ => pure (.ok "")
    let outcome := CommandLine.perform i contents
    IO.print outcome.output
    if let some report := outcome.report then IO.eprintln report
    return exitStatus outcome.exit

end ScriptEngine

def main (args : List String) : IO UInt32 := ScriptEngine.runCommand args
