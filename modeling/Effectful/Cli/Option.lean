/-!
# Command-line options

An option has a long name and may have a short one.  A value follows in the next word, or behind `=`,
or directly behind the short name; short options may share a word.  A word that looks like an option
is never taken as a value.  Behind `--` every word is plain.
-/

namespace Effectful.Cli

/-- How often an option may be given and whether it takes a value. -/
inductive OptionKind where
  /-- At most once, without a value. -/
  | flag
  /-- Any number of times, without a value. -/
  | counted
  /-- At most once, with a value. -/
  | single
  /-- Any number of times, with a value. -/
  | repeated
deriving DecidableEq, Repr

def OptionKind.takesValue : OptionKind → Bool
  | .single | .repeated => true
  | .flag | .counted => false

structure OptionSpec where
  long : String
  short : Option Char := none
  kind : OptionKind
  valueName : String := ""

def OptionSpec.text (s : OptionSpec) : String :=
  match s.kind with
  | .flag => s!"--{s.long}"
  | .counted => s!"--{s.long}..."
  | .single | .repeated => s!"--{s.long} <{s.valueName}>"

/-- What is wrong with a command line.  Options and arguments are already shown as text. -/
inductive UsageError where
  | noCommand
  | unknownCommand (name : String)
  | unexpected (word : String)
  | unexpectedValue (option value : String)
  | noValue (option : String)
  | badValue (option value : String)
  | tooOften (option : String)
  | conflict (first second : String)
  | missing (argument : String)
deriving DecidableEq, Repr

def UsageError.message : UsageError → String
  | .noCommand => "'rillc' requires a subcommand but one was not provided"
  | .unknownCommand name => s!"unrecognized subcommand '{name}'"
  | .unexpected word => s!"unexpected argument '{word}' found"
  | .unexpectedValue option value => s!"unexpected value '{value}' for '{option}' found; no more were expected"
  | .noValue option => s!"a value is required for '{option}' but none was supplied"
  | .badValue option value => s!"invalid value '{value}' for '{option}'"
  | .tooOften option => s!"the argument '{option}' cannot be used multiple times"
  | .conflict first second => s!"the argument '{first}' cannot be used with '{second}'"
  | .missing argument => s!"the following required arguments were not provided:\n  {argument}"

/-- Why a command line leads to no command. -/
inductive Refusal where
  | usage (why : UsageError)
  | help
  /-- The version was asked for, of the program or of a command. -/
  | version (command : Option String)
  | empty
deriving DecidableEq, Repr

/-- The refusal, for words that belong to a command. -/
def Refusal.within (command : String) : Refusal → Refusal
  | .version _ => .version (some command)
  | other => other

/-- The words of a command line, sorted. -/
structure Words where
  /-- Options in order, those that take a value with it. -/
  options : List (String × String) := []
  plain : List String := []

namespace Words

def values (w : Words) (option : String) : List String :=
  w.options.filterMap fun (name, value) => if name = option then some value else none

def has (w : Words) (option : String) : Bool := !(w.values option).isEmpty

def value? (w : Words) (option : String) : Option String := (w.values option).head?

end Words

/-- Whether a word looks like an option; a single `-` does not. -/
def looksLikeOption (word : String) : Bool := word.startsWith "-" && word ≠ "-"

/-- What is found at the start of a word or of several. -/
inductive Scanned where
  | options (found : List (String × String))
  /-- Options, the last of which takes the next word. -/
  | pending (found : List (String × String)) (last : OptionSpec)

/-- A word with a long option, without its `--`. -/
def scanLong (specs : List OptionSpec) (word : String) : Except Refusal Scanned :=
  let cs := word.toList
  let name := String.ofList (cs.takeWhile (· ≠ '='))
  match specs.find? (·.long == name), cs.dropWhile (· ≠ '=') with
  | none, rest =>
    if name = "help" && rest.isEmpty then .error .help
    else if name = "version" && rest.isEmpty then .error (.version none)
    else .error (.usage (.unexpected ("--" ++ name)))
  | some spec, [] => .ok (if spec.kind.takesValue then .pending [] spec else .options [(spec.long, "")])
  | some spec, _ :: value =>
    if spec.kind.takesValue then .ok (.options [(spec.long, String.ofList value)])
    else .error (.usage (.unexpectedValue spec.text (String.ofList value)))

/-- A word with short options, without its `-`. -/
def scanShort (specs : List OptionSpec) (found : List (String × String)) : List Char → Except Refusal Scanned
  | [] => .ok (.options found)
  | c :: cs =>
    match specs.find? (·.short == some c) with
    | none =>
      if c = 'h' then .error .help
      else if c = 'V' then .error (.version none)
      else .error (.usage (.unexpected (String.ofList ['-', c])))
    | some spec =>
      if spec.kind.takesValue then
        match cs with
        | [] => .ok (.pending found spec)
        | '=' :: value => .ok (.options (found ++ [(spec.long, String.ofList value)]))
        | value => .ok (.options (found ++ [(spec.long, String.ofList value)]))
      else scanShort specs (found ++ [(spec.long, "")]) cs

/-- The options in a word that looks like one. -/
def scanWord (specs : List OptionSpec) (word : String) : Except Refusal Scanned :=
  match word.toList with
  | '-' :: '-' :: cs => scanLong specs (String.ofList cs)
  | '-' :: cs => scanShort specs [] cs
  | _ => .error (.usage (.unexpected word))

/-- Sorts words.  `pending` is an option that takes the next word, `ended` says that `--` was seen. -/
def scan (specs : List OptionSpec) : (pending : Option OptionSpec) → (ended : Bool) → List String → Except Refusal Words
  | none, _, [] => .ok {}
  | some option, _, [] => .error (.usage (.noValue option.text))
  | some option, ended, word :: rest =>
    if looksLikeOption word then .error (.usage (.noValue option.text))
    else do
      let w ← scan specs none ended rest
      return { w with options := (option.long, word) :: w.options }
  | none, true, word :: rest => do
    let w ← scan specs none true rest
    return { w with plain := word :: w.plain }
  | none, false, word :: rest =>
    if word = "--" then scan specs none true rest
    else if looksLikeOption word then do
      match ← scanWord specs word with
      | .options found =>
        let w ← scan specs none false rest
        return { w with options := found ++ w.options }
      | .pending found last =>
        let w ← scan specs (some last) false rest
        return { w with options := found ++ w.options }
    else do
      let w ← scan specs none false rest
      return { w with plain := word :: w.plain }

/-- Refuses an option that is given more often than it may be. -/
def checkCounts (specs : List OptionSpec) (w : Words) : Except Refusal Unit :=
  match specs.find? fun s => (s.kind = .flag || s.kind = .single) && 1 < (w.values s.long).length with
  | some spec => .error (.usage (.tooOften spec.text))
  | none => .ok ()

/-- The words in front of the first plain one, that word, and what follows it. -/
def splitAtPlain (specs : List OptionSpec) : (pending : Bool) → List String → List String × List String
  | _, [] => ([], [])
  | true, word :: rest =>
    let (before, after) := splitAtPlain specs false rest
    (word :: before, after)
  | false, word :: rest =>
    if looksLikeOption word && word ≠ "--" then
      let isPending := match scanWord specs word with
        | .ok (.pending _ _) => true
        | _ => false
      let (before, after) := splitAtPlain specs isPending rest
      (word :: before, after)
    else ([], word :: rest)

end Effectful.Cli
