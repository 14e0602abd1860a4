import ScriptEngine.Engine

/-!
The command line: its arguments, what a command does, and how errors are reported. A command is a
pure function of its arguments and of the file that it reads.
-/

namespace ScriptEngine.CommandLine

inductive Command where
  /-- Run a file, and print its value if asked to. -/
  | run (path : String) (print : Bool)
  /-- Evaluate source text and print its value. -/
  | eval (source : String)
deriving DecidableEq, Inhabited

structure Invocation where
  command : Command
  config : Config
deriving Inhabited

/-! ### Arguments -/

/-- Options seen so far. Each may be given once before the command and once after it. -/
structure Options where
  trace : Option TraceStages := none
  optLevel : Option OptLevel := none
  probeLimit : Option Nat := none
  trapOnEntry : Bool := false
  verbose : Bool := false
  print : Bool := false

/-- What the arguments ask for; before a command is named there is none. -/
structure Parsed where
  command : Option String := none
  options : Options := {}
  /-- Options given before the command. -/
  outer : Options := {}
  operands : List String := []

/-- A whole number that fits in a machine word; it may have a plus sign. -/
def size? (text : String) : Option Nat :=
  let digits := match text.toList with
    | '+' :: rest => rest
    | rest => rest
  if digits ≠ [] ∧ digits.all Char.isDigit then
    let n := Decimal.value digits
    if n < 2 ^ 64 then some n else none
  else none

/-- Note the value of an option that takes one. -/
def Options.setValue (o : Options) (name value : String) : Option Options :=
  match name with
  | "trace" =>
    if o.trace.isSome then none
    else (TraceStages.parse value).toOption.map fun t => { o with trace := some t }
  | "opt-level" =>
    if o.optLevel.isSome then none
    else (OptLevel.parse value).toOption.map fun l => { o with optLevel := some l }
  | "ic-probe-limit" =>
    if o.probeLimit.isSome then none
    else (size? value).map fun n => { o with probeLimit := some n }
  | _ => none

/-- Note an option that takes no value. -/
def Options.setFlag (o : Options) (command : Option String) (name : String) : Option Options :=
  match name with
  | "brk" => if o.trapOnEntry then none else some { o with trapOnEntry := true }
  | "verbose" => if o.verbose then none else some { o with verbose := true }
  | "print" =>
    if o.print ∨ command ≠ some "run" then none else some { o with print := true }
  | _ => none

def takesValue (name : String) : Bool := ["trace", "opt-level", "ic-probe-limit"].contains name

/-- Name of an option by its letter. -/
def letter? : Char → Option String
  | 'v' => some "verbose"
  | 'p' => some "print"
  | _ => none

/-- An argument that is no option: the command, then its operand. -/
def Parsed.operand (p : Parsed) (text : String) : Option Parsed :=
  match p.command with
  | none =>
    if text = "run" ∨ text = "eval" then
      some { p with command := some text, options := {}, outer := p.options }
    else none
  | some _ => some { p with operands := p.operands ++ [text] }

def Parsed.flag (p : Parsed) (name : String) : Option Parsed :=
  (p.options.setFlag p.command name).map fun options => { p with options }

def Parsed.value (p : Parsed) (name text : String) : Option Parsed :=
  (p.options.setValue name text).map fun options => { p with options }

/-- Read arguments in order; there is no result if one of them makes no sense. -/
def parseArgs : Parsed → List String → Option Parsed
  | p, [] => some p
  | p, arg :: rest =>
    match arg.toList with
    | ['-', '-'] => rest.foldlM Parsed.operand p
    | '-' :: '-' :: long =>
      let (name, value) := long.span (· ≠ '=')
      let name := String.ofList name
      match value, rest with
      | _ :: value, rest =>
        if takesValue name then do parseArgs (← p.value name (String.ofList value)) rest else none
      | [], value :: more =>
        if takesValue name then
          if value.startsWith "-" && value ≠ "-" then none
          else do parseArgs (← p.value name value) more
        else do parseArgs (← p.flag name) (value :: more)
      | [], [] => if takesValue name then none else do parseArgs (← p.flag name) []
    | '-' :: c :: more => do
      parseArgs (← (c :: more).foldlM (fun p c => (letter? c).bind p.flag) p) rest
    | _ => do parseArgs (← p.operand arg) rest

def Parsed.config (p : Parsed) : Config :=
  let defaults : Config := {}
  { defaults with
    trace := (p.options.trace.or p.outer.trace).getD {}
    optLevel := (p.options.optLevel.or p.outer.optLevel).getD defaults.optLevel
    probeLimit := (p.options.probeLimit.or p.outer.probeLimit).getD defaults.probeLimit
    trapOnEntry := p.options.trapOnEntry || p.outer.trapOnEntry
    stopAtTrap := true }

/-- How arguments are to be given. -/
def usage : String :=
  "usage: [--trace STAGES] [--brk] [--opt-level LEVEL] [--ic-probe-limit N] [-v] " ++
    "(run [-p] FILE | eval SOURCE)"

/-- What the arguments ask for. -/
def Invocation.parse (args : List String) : Option Invocation := do
  let p ← parseArgs {} args
  match p.command, p.operands with
  | some "run", [path] =>
    if path = "" then none else some { command := .run path p.options.print, config := p.config }
  | some "eval", [source] => some { command := .eval source, config := p.config }
  | _, _ => none

/-! ### Commands -/

/-- How a command ends. -/
inductive Exit where
  | code (n : Nat)
  /-- Stopped by the system: at a debug trap, or because the stack is full. -/
  | signal
deriving DecidableEq, Inhabited

structure Outcome where
  exit : Exit
  output : String := ""
  /-- What went wrong, for the error output. -/
  report : Option String := none
deriving Inhabited

/-- An error and what caused it, outermost first. -/
def causes : RunError → List String
  | .heap e => [RunError.message (.heap e), e.message]
  | .compile (.heap e) => [CompileError.message (.heap e), e.message]
  | .compile (.graph e) => [CompileError.message (.graph e), e.message]
  | .compile (.source (.graph e)) => [SourceError.message (.graph e), e.message]
  | e => [e.message]

/-- Text with something before its first line and something else before the others. -/
def indented (first others : String) (text : String) : String :=
  first ++ String.intercalate ("\n" ++ others) (text.splitOn "\n")

/-- A number of at least five places. -/
def padded (n : Nat) : String :=
  let digits := toString n
  String.ofList (List.replicate (5 - digits.length) ' ') ++ digits

/-- An error with its causes below it, which are numbered if there are several. -/
def report : List String → String
  | [] => ""
  | [error] => "Error: " ++ error
  | [error, cause] => "Error: " ++ error ++ "\n\nCaused by:\n" ++ indented "    " "    " cause
  | error :: causes =>
    let lines := causes.zipIdx.map fun (cause, i) => indented (padded i ++ ": ") "       " cause
    "Error: " ++ error ++ "\n\nCaused by:\n" ++ String.intercalate "\n" lines

/-- Compile and run source text. The answer is the text of its value, or what went wrong. -/
def execute (config : Config) (source : String) : Except RunError String × String :=
  match Engine.create config with
  | .error e => (.error (.compile e), "")
  | .ok engine =>
    match (Engine.eval source).run engine with
    | .ok value engine => (.ok (engine.display value), engine.output)
    | .error e engine => (.error e, engine.output)

/-- End of a command after source text was run. -/
def conclude (around : Option String) (print : Bool) :
    Except RunError String × String → Outcome
  | (.ok text, output) =>
    { exit := .code 0, output := if print then output ++ text ++ "\n" else output }
  | (.error .trapped, output) | (.error .exhausted, output) | (.error .wildJump, output) =>
    { exit := .signal, output }
  | (.error e, output) =>
    { exit := .code 1, output, report := some (report (around.toList ++ causes e)) }

/-- Do what is asked for. `contents` is the text of the file to run, or why it cannot be read. -/
def perform (i : Invocation) (contents : Except String String) : Outcome :=
  match i.command with
  | .eval source => conclude none true (execute i.config source)
  | .run path print =>
    match contents with
    | .error reason =>
      { exit := .code 1, report := some (report ["failed to read " ++ path, reason]) }
    | .ok source => conclude (some (path ++ " failed")) print (execute i.config source)

/-- A whole command, given the files there are. -/
def run (read : String → Except String String) (args : List String) : Outcome :=
  match Invocation.parse args with
  | none => { exit := .code 2 }
  | some i =>
    let contents := match i.command with
      | .run path _ => read path
      | .eval _ => .ok ""
    perform i contents

end ScriptEngine.CommandLine
