import Effectful.Cli.Command
import Effectful.Cli.Value
import Effectful.Effect.TableJson
import Effectful.Execution
import Effectful.Json.Parser
import Effectful.Json.Printer
import Effectful.Target.ModuleJson
/-!
# Running commands

A command is a function of its files and of the environment.  It gives an exit code, output, messages
and perhaps a file to write.  The code is `0` on success, `1` if the program is rejected or its run
fails, and `2` if the command cannot be carried out.
-/

namespace Effectful.Cli

/-- The contents of files, or why they cannot be read. -/
abbrev Files := List (String × Except String String)

structure Outcome where
  code : Nat
  output : String := ""
  messages : List String := []
  file : Option (String × String) := none
deriving Inhabited

namespace Outcome

/-- The command cannot be carried out. -/
def broken (message : String) : Outcome := { code := 2, messages := ["error: " ++ message] }

/-- The program is rejected or its run fails. -/
def failed (messages : List String) : Outcome := { code := 1, messages }

/-- The outcome if the file cannot be written. -/
def notWritten (path reason : String) : Outcome := broken s!"failed to write {path}: {reason}"

end Outcome

def usageText : String := "Usage: rillc [OPTIONS] <COMMAND>\n\nCommands: check, emit, table, run"

def versionLine (command : Option String) : String :=
  "rillc" ++ (match command with | some name => "-" ++ name | none => "") ++ " 0.1.0"

/-- The outcome if there is no command to carry out. -/
def Refusal.outcome : Refusal → Outcome
  | .usage why => .broken why.message
  | .help => { code := 0, output := usageText ++ "\n" }
  | .version command => { code := 0, output := versionLine command ++ "\n" }
  | .empty => { code := 2, messages := [usageText] }

def readFile (files : Files) (path : String) : Except Outcome String :=
  match files.lookup path with
  | some (.ok text) => .ok text
  | some (.error reason) => .error (.broken s!"failed to read {path}: {reason}")
  | none => .error (.broken s!"failed to read {path}: not loaded")

/-- The program of a command; the source text must be there too if it is asked for. -/
def loadProgram (files : Files) (input : Input) : Except Outcome Program := do
  let text ← readFile files input.file
  match (Json.scan? Json.fileDepth text).bind fun j => Program.ofJson? (j.nameParts Program.caseParts) with
  | none => throw (.broken s!"{input.file} is not a program graph")
  | some p =>
    if let some source := input.source then
      let _ ← readFile files source
    return p

def rejected (e : CompileError) : Outcome :=
  match e with
  | .config cause => .broken (e.message ++ ": " ++ cause.message)
  | .exprIdsExhausted | .moduleTooLarge => { code := 101, messages := [e.message] }
  | e => .failed (e.diagnostics.map Diagnostic.text ++ [e.message])

def staged {α : Type} (stage : Except CompileError α) : Except Outcome α := stage.mapError rejected

/-! ### Commands -/

def summaryLine (f : FunctionSummary) : String :=
  let ops := f.row.labels ++ (if f.row.isOpen then [".."] else [])
  let row := if f.isPure then "pure" else "\x7b" ++ String.intercalate ", " ops ++ "\x7d"
  s!"fn {f.name}: {row}" ++ (if f.exported then " (exported)" else "") ++ "\n"

def runCheck (p : Program) (config : CompilerConfig) (quiet : Bool) : Except Outcome Outcome := do
  let checked ← staged (p.check config)
  return { code := 0, output := if quiet then "" else String.join (checked.metadata.functions.map summaryLine) }

def runEmit (p : Program) (config : CompilerConfig) (output : Option String) : Except Outcome Outcome := do
  let compiled ← staged (p.compile config)
  let text := compiled.module.toJson.pretty
  match output with
  | some path => return { code := 0, file := some (path, text) }
  | none => return { code := 0, output := text ++ "\n" }

/-- A text at the left of a field. -/
def padRight (width : Nat) (s : String) : String := s ++ "".pushn ' ' (width - s.length)

def padLeft (width : Nat) (s : String) : String := "".pushn ' ' (width - s.length) ++ s

def tableLine (number label effectId op kind hash signature : String) : String :=
  padLeft 3 number ++ "  " ++ padRight 24 label ++ " " ++ padRight 16 effectId ++ " " ++ padLeft 4 op ++ " "
    ++ padRight 6 kind ++ " " ++ padRight 8 hash ++ "  " ++ signature ++ "\n"

def ordinalLine (o : OpOrdinal) : String :=
  tableLine (toString o.ordinal) o.label (Hex.word 16 o.effectId) (toString o.opId) o.kind.text
    (Hex.word 8 (signatureHash o.signature)) o.signature

def runTable (p : Program) (config : CompilerConfig) (json : Bool) : Except Outcome Outcome := do
  let checked ← staged (p.check config)
  if json then return { code := 0, output := checked.metadata.table.toJson.pretty ++ "\n" }
  let header := tableLine "#" "label" "effect id" "op" "kind" "sig" "signature"
  return { code := 0, output := header ++ String.join (checked.metadata.ordinals.map ordinalLine) }

/-- Answers every request with the constant for its operation. -/
def constantAnswers (answers : List (String × WireValue)) : Host.Handler Unit := fun _ call =>
  (Host.replyFrom ((Assoc.get? answers call.label).toList.map .value) 0 call, ())

def runFunction (p : Program) (config : CompilerConfig) (bounds : RunnerConfig) (fuel : Nat) (r : RunRequest) :
    Except Outcome Outcome := do
  let bad (e : ValueError) : Outcome := .broken e.message
  let args ← (r.args.mapM readValue).mapError bad
  let answers ← (r.answers.mapM readAnswer).mapError bad
  let answers := answers.foldl (fun m (label, v) => Assoc.set m label v) []
  let config := { config with backend := r.backend.getD config.backend }
  match (p.execute config bounds fuel r.function args (constantAnswers answers) ()).1 with
  | .ok v => return { code := 0, output := showValue v ++ "\n" }
  | .error (.compile e) => return rejected e
  | .error e@(.run .memoryTooLarge) => return { code := 101, messages := [e.message] }
  | .error e => return .failed ["error: " ++ e.message]

def Command.run (c : Command) (files : Files) (env : Environment) (fuel : Nat) : Outcome :=
  let config := CompilerConfig.ofEnvironment env
  let outcome : Except Outcome Outcome := do
    let p ← loadProgram files c.input
    match c.action with
    | .check => runCheck p config c.quiet
    | .emit output => runEmit p config output
    | .table json => runTable p config json
    | .run request => runFunction p config (RunnerConfig.ofEnvironment env) fuel request
  match outcome with
  | .ok o | .error o => o

end Effectful.Cli
