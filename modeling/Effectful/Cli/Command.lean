import Effectful.Cli.Option
import Effectful.Config
/-!
# Commands

`check` shows the row of every function, `emit` compiles, `table` shows the effect table, and `run`
runs a function with fixed answers.  Every command takes a program file.
-/

namespace Effectful.Cli

/-- The files that a command reads. -/
structure Input where
  file : String
  /-- The text that the spans of the program point into. -/
  source : Option String
deriving DecidableEq, Repr

structure RunRequest where
  function : String
  args : List String
  answers : List String
  backend : Option Backend
deriving DecidableEq, Repr

/-- What to do with a program. -/
inductive Action where
  | check
  | emit (output : Option String)
  | table (json : Bool)
  | run (request : RunRequest)
deriving DecidableEq, Repr

structure Command where
  action : Action
  input : Input
  quiet : Bool
deriving DecidableEq, Repr

/-! ### Options -/

def globalOptions : List OptionSpec :=
  [⟨"verbose", some 'v', .counted, ""⟩, ⟨"quiet", some 'q', .flag, ""⟩, ⟨"color", none, .single, "COLOR"⟩]

def sourceOption : OptionSpec := ⟨"source", none, .single, "PATH"⟩

def commandOptions : String → Option (List OptionSpec)
  | "check" => some [sourceOption]
  | "emit" => some [sourceOption, ⟨"output", some 'o', .single, "PATH"⟩]
  | "table" => some [sourceOption, ⟨"json", none, .flag, ""⟩]
  | "run" =>
    some [sourceOption, ⟨"function", some 'f', .single, "FUNCTION"⟩, ⟨"arg", none, .repeated, "VALUE"⟩,
      ⟨"answer", none, .repeated, "LABEL=VALUE"⟩, ⟨"backend", none, .single, "BACKEND"⟩]
  | _ => none

/-- The value of an option that must be one of some words. -/
def choice? {α : Type} (specs : List OptionSpec) (w : Words) (option : String) (choices : List (String × α)) :
    Except Refusal (Option α) :=
  match w.value? option with
  | none => .ok none
  | some value =>
    match choices.lookup value with
    | some a => .ok (some a)
    | none =>
      let text := ((specs.find? (·.long == option)).map OptionSpec.text).getD option
      .error (.usage (if value = "" then .noValue text else .badValue text value))

/-- The value of an option that names a file. -/
def path? (specs : List OptionSpec) (w : Words) (option : String) : Except Refusal (Option String) :=
  match w.value? option with
  | some "" => .error (.usage (.noValue (((specs.find? (·.long == option)).map OptionSpec.text).getD option)))
  | value => .ok value

/-- Checks the options that may stand anywhere; says whether output is unwanted. -/
def readGlobals (w : Words) : Except Refusal Bool := do
  checkCounts globalOptions w
  match w.options.find? fun (name, _) => name = "quiet" || name = "verbose" with
  | some ("quiet", _) => if w.has "verbose" then throw (.usage (.conflict "--quiet" "--verbose..."))
  | some _ => if w.has "quiet" then throw (.usage (.conflict "--verbose..." "--quiet"))
  | none => pure ()
  let _ ← choice? globalOptions w "color" [("auto", ()), ("always", ()), ("never", ())]
  return w.has "quiet"

def readInput (specs : List OptionSpec) (w : Words) : Except Refusal Input := do
  match w.plain with
  | [] => throw (.usage (.missing "<FILE>"))
  | [""] => throw (.usage (.noValue "<FILE>"))
  | [file] => return { file, source := ← path? specs w "source" }
  | _ :: word :: _ => throw (.usage (.unexpected word))

def readAction (name : String) (specs : List OptionSpec) (w : Words) : Except Refusal Action := do
  match name with
  | "check" => return .check
  | "emit" => return .emit (← path? specs w "output")
  | "table" => return .table (w.has "json")
  | "run" =>
    return .run {
      function := (w.value? "function").getD "main"
      args := w.values "arg"
      answers := w.values "answer"
      backend := ← choice? specs w "backend" [("interp", .interp), ("structural", .structural)] }
  | _ => throw (.usage (.unknownCommand name))

def Command.parse (words : List String) : Except Refusal Command := do
  if words.isEmpty then throw .empty
  let (front, rest) := splitAtPlain globalOptions false words
  let outer ← scan globalOptions none false front
  match rest with
  | [] => throw (.usage .noCommand)
  | name :: rest =>
    match commandOptions name with
    | none => throw (if name = "help" then .help else .usage (.unknownCommand name))
    | some own =>
      let specs := own ++ globalOptions
      let inner ← (scan specs none false rest).mapError (Refusal.within name)
      checkCounts specs inner
      let innerQuiet ← readGlobals inner
      let action ← readAction name specs inner
      let input ← readInput specs inner
      let outerQuiet ← readGlobals outer
      return { action, input, quiet := outerQuiet || innerQuiet }

/-- The files that have to be read for a command, in order. -/
def Command.files (c : Command) : List String := c.input.file :: c.input.source.toList

end Effectful.Cli
