import Effectful.Compiler.Compile
import Effectful.Host.Runner
import Effectful.Interp.Run
/-!
# Running a function on a backend

A function of a program can be run in two ways: the program is interpreted, or it is compiled and the
module is run by the host.  Both take and give boundary values and have the same requests answered by
one handler.  Runs take fuel: the steps of the interpreter, or the rounds of any loop of the machine.
-/

namespace Effectful

open Host (Handler HandlerCall Runner RunError)

/-- Why running a function fails. -/
inductive ExecError where
  | compile (why : CompileError)
  | interp (why : Interp.EvalError)
  | run (why : RunError)
  | unknownFunction (name : String)
  | notScalar (function : String)
  | outOfFuel

def ExecError.message : ExecError → String
  | .compile why => why.message
  | .interp why => why.message
  | .run why => why.message
  | .unknownFunction name => s!"unknown function `{name}`"
  | .notScalar function => s!"`{function}` cannot cross the host boundary"
  | .outOfFuel => "the run did not end"

section

variable {σ : Type}

/-- The same handler for all operations of a program, under their labels. -/
def EffectMetadata.registry (m : EffectMetadata) (handler : Handler σ) : Host.Registry σ :=
  m.ordinals.foldl (fun r o => r.register (.name o.label) handler) []

def Program.runCompiled (p : Program) (config : CompilerConfig) (bounds : RunnerConfig) (fuel : Nat)
    (function : String) (args : List WireValue) (handler : Handler σ) (state : σ) :
    Except ExecError WireValue × σ :=
  match p.compile config with
  | .error why => (.error (.compile why), state)
  | .ok compiled =>
    match Runner.new compiled.module bounds fuel with
    | .error why => (.error (.run why), state)
    | .ok (runner, store) =>
      let registry := compiled.checked.metadata.registry handler
      let (result, after) := (runner.run registry function args).run { store, host := state }
      (result.mapError .run, after.host)

namespace Interp

/-- The values of arguments, all of which must be scalars. -/
def wireArgs (label : String) (args : List Value) : Except EvalError (List WireValue) :=
  args.mapM fun v =>
    match v.toWire? with
    | some w => .ok w
    | none => .error (.handler label s!"a {v.typeName} argument cannot cross the host boundary")

/-- The call that a handler sees for a request, with the type of the answer. -/
def Request.call (r : Request) (m : EffectMetadata) : Except EvalError (HandlerCall × Ty) := do
  match m.ordinals.find? fun o => o.effectId == r.effectId && o.opId == r.opId with
  | none => throw (.handler r.label "operation missing from the effect table")
  | some o =>
    let args ← wireArgs r.label r.args
    return (.ofEntry o.tableEntry o.ordinal (o.ordinal + 1) args, o.decl.ret)

def answerBy (m : EffectMetadata) (handler : Handler σ) (state : σ) (r : Request) : Except EvalError Value × σ :=
  match r.call m with
  | .error why => (.error why, state)
  | .ok (call, ty) =>
    match handler state call with
    | (.ok v, state) => (.ok (.ofWire ty v), state)
    | (.error message, state) => (.error (.handler r.label message), state)

end Interp

def Program.runInterpreted (p : Program) (config : CompilerConfig) (bounds : RunnerConfig) (fuel : Nat)
    (function : String) (args : List WireValue) (handler : Handler σ) (state : σ) :
    Except ExecError WireValue × σ :=
  match p.check config with
  | .error why => (.error (.compile why), state)
  | .ok checked =>
    match p.functionNamed? function with
    | none => (.error (.unknownFunction function), state)
    | some f =>
      let params := f.paramTys
      if params.length ≠ args.length then
        (.error (.interp (.arity function params.length args.length)), state)
      else
        let values := List.zipWith Interp.Value.ofWire params args
        let setting : Interp.Setting := { program := p, analysis := checked.analysis }
        match setting.run (Interp.answerBy checked.metadata handler) bounds.maxSteps fuel state {} function values with
        | none => (.error .outOfFuel, state)
        | some (⟨.error why, _⟩, state) => (.error (.interp why), state)
        | some (⟨.ok v, _⟩, state) =>
          match v.toWire? with
          | some w => (.ok w, state)
          | none => (.error (.notScalar function), state)

def Program.execute (p : Program) (config : CompilerConfig) (bounds : RunnerConfig) (fuel : Nat)
    (function : String) (args : List WireValue) (handler : Handler σ) (state : σ) :
    Except ExecError WireValue × σ :=
  match config.backend with
  | .structural => p.runCompiled config bounds fuel function args handler state
  | .interp => p.runInterpreted config bounds fuel function args handler state

end

end Effectful
