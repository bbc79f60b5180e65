import Effectful.Text.Lowercase
import Effectful.Text.Integer
/-!
# Settings

`CompilerConfig` steers the analysis and the emission, `RunnerConfig` bounds a run.  Both have
defaults, can be read from environment variables and can be validated.  A variable that is not set
or that cannot be read leaves its default.
-/

namespace Effectful

def minBufferSize : Nat := 4096

/-- Variables of the environment, by name. -/
abbrev Environment := List (String × String)

def Environment.get? (env : Environment) (name : String) : Option String :=
  (env.find? (·.1 == name)).map (·.2)

/-- A variable that holds an unsigned number. -/
def Environment.nat? (env : Environment) (name : String) : Option Nat :=
  (env.get? name).bind fun s => (Text.readNat64 s).toOption

/-- A variable that holds a switch. -/
def Environment.bool? (env : Environment) (name : String) : Option Bool :=
  (env.get? name).bind fun s =>
    let word := Text.lowercase s
    if ["true", "1", "yes", "on"].contains word then some true
    else if ["false", "0", "no", "off"].contains word then some false
    else none

inductive LogLevel where
  | off
  | error
  | warn
  | info
  | debug
  | trace
deriving DecidableEq, Repr, Inhabited

namespace LogLevel

def text : LogLevel → String
  | .off => "off"
  | .error => "error"
  | .warn => "warn"
  | .info => "info"
  | .debug => "debug"
  | .trace => "trace"

/-- Reads a level by one of its names, in any case, or by its number. -/
def parse? (s : String) : Option LogLevel :=
  match Text.lowercase s with
  | "off" | "none" | "0" => some .off
  | "error" | "err" | "1" => some .error
  | "warn" | "warning" | "2" => some .warn
  | "info" | "3" => some .info
  | "debug" | "4" => some .debug
  | "trace" | "5" => some .trace
  | _ => none

/-- The level named by `RILL_LOG_LEVEL`. -/
def ofEnvironment (env : Environment) : LogLevel :=
  ((env.get? "RILL_LOG_LEVEL").bind parse?).getD .info

end LogLevel

/-- What runs a program. -/
inductive Backend where
  /-- The interpreter of the program graph. -/
  | interp
  /-- Resumable entry points in an emitted module. -/
  | structural
deriving DecidableEq, Repr, Inhabited

inductive ConfigError where
  | unknownBackend (name : String)
  | smallBuffer
  | noCallDepth
deriving DecidableEq, Repr

def ConfigError.message : ConfigError → String
  | .unknownBackend name => s!"invalid value for backend: unknown backend `{name}`"
  | .smallBuffer => s!"invalid value for buffer_size: must be at least {minBufferSize} bytes"
  | .noCallDepth => "invalid value for max_call_depth: must be at least 1"

namespace Backend

def text : Backend → String
  | .interp => "interp"
  | .structural => "structural"

/-- Reads a backend by one of its names, in any case. -/
def parse (s : String) : Except ConfigError Backend :=
  match Text.lowercase s with
  | "interp" | "interpreter" | "reference" => .ok .interp
  | "structural" | "trampoline" => .ok .structural
  | other => .error (.unknownBackend other)

end Backend

/-- Settings of the analysis and of the emission. -/
structure CompilerConfig where
  backend : Backend := .structural
  /-- Requested size of the serialization buffer of emitted modules. -/
  bufferSize : Nat := minBufferSize
  /-- Whether operations of a guarded body that no clause handles are reported; otherwise they
  propagate into the handler's row. -/
  exhaustive : Bool := true
  logLevel : LogLevel := .info
deriving DecidableEq, Repr, Inhabited

namespace CompilerConfig

def ofEnvironment (env : Environment) : CompilerConfig where
  backend := ((env.get? "RILL_BACKEND").bind fun s => (Backend.parse s).toOption).getD .structural
  bufferSize := ((env.nat? "RILL_BUFFER_SIZE").map (max · minBufferSize)).getD minBufferSize
  exhaustive := (env.bool? "RILL_EXHAUSTIVE_HANDLERS").getD true
  logLevel := .ofEnvironment env

def validate (c : CompilerConfig) : Except ConfigError CompilerConfig :=
  if c.bufferSize < minBufferSize then .error .smallBuffer else .ok c

end CompilerConfig

structure RunnerConfig where
  bufferSize : Nat := minBufferSize
  /-- How many requests one run may answer; `0` is no bound. -/
  maxSteps : Nat := 100000
  /-- How deep machine calls may nest. -/
  maxCallDepth : Nat := 1024
  logLevel : LogLevel := .info
deriving DecidableEq, Repr, Inhabited

namespace RunnerConfig

def ofEnvironment (env : Environment) : RunnerConfig where
  bufferSize := ((env.nat? "RILL_BUFFER_SIZE").map (max · minBufferSize)).getD minBufferSize
  maxSteps := (env.nat? "RILL_MAX_STEPS").getD 100000
  maxCallDepth := ((env.nat? "RILL_MAX_CALL_DEPTH").filter (0 < ·)).getD 1024
  logLevel := .ofEnvironment env

def validate (c : RunnerConfig) : Except ConfigError RunnerConfig :=
  if c.bufferSize < minBufferSize then .error .smallBuffer
  else if c.maxCallDepth = 0 then .error .noCallDepth
  else .ok c

end RunnerConfig

end Effectful
