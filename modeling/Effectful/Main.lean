import Effectful.Cli.Run
/-!
# The command line

Reads the files that a command needs, runs the command and puts its results where they belong.
-/

namespace Effectful.Cli

def environmentNames : List String :=
  ["RILL_BACKEND", "RILL_BUFFER_SIZE", "RILL_EXHAUSTIVE_HANDLERS", "RILL_MAX_STEPS", "RILL_MAX_CALL_DEPTH",
    "RILL_LOG_LEVEL"]

def readText (path : String) : IO (Except String String) := do
  try
    return .ok (← IO.FS.readFile path)
  catch e => return .error (toString e)

def present (o : Outcome) : IO UInt32 := do
  IO.print o.output
  for line in o.messages do IO.eprintln line
  return UInt32.ofNat o.code

end Effectful.Cli

open Effectful Cli

def main (words : List String) : IO UInt32 := do
  match Command.parse words with
  | .error refusal => present refusal.outcome
  | .ok command =>
    let files ← command.files.mapM fun path => return (path, ← readText path)
    let env ← environmentNames.filterMapM fun name => return (← IO.getEnv name).map (name, ·)
    let o := command.run files env (Nat.pow 2 60)
    match o.file with
    | none => present o
    | some (path, text) =>
      try
        IO.FS.writeFile path text
        present o
      catch e => present (.notWritten path (toString e))
