import Effectful.Analysis.Metadata
import Effectful.Config
/-!
# Checking a program

The first stage of compilation: the configuration must be valid and effect analysis must not
complain.  Every later stage stops at the first stage that reports something.
-/

namespace Effectful

/-- Why a program has no compiled form. -/
inductive CompileError where
  | config (cause : ConfigError)
  | analysis (diagnostics : List Diagnostic)
  | lowering (diagnostics : List Diagnostic)
  | emission (diagnostics : List Diagnostic)
  /-- No number is left for a new expression. -/
  | exprIdsExhausted
  /-- The size of the memory or the place of a local is beyond what a module can hold. -/
  | moduleTooLarge
deriving Inhabited

namespace CompileError

def diagnostics : CompileError → List Diagnostic
  | .config _ | .exprIdsExhausted | .moduleTooLarge => []
  | .analysis ds | .lowering ds | .emission ds => ds

def message : CompileError → String
  | .config cause => "invalid configuration: " ++ cause.message
  | .analysis ds => s!"effect checking failed with {ds.length} error(s)"
  | .lowering ds => s!"effect-site lowering failed with {ds.length} error(s)"
  | .emission ds => s!"the structural backend rejected the program ({ds.length} error(s))"
  | .exprIdsExhausted => "no expression ids are left"
  | .moduleTooLarge => "the module is too large"

end CompileError

/-- A program that passed the checks. -/
structure Checked where
  analysis : EffectAnalysis
  metadata : EffectMetadata
deriving Inhabited

/-- Checks rows, handlers and the use of continuations. -/
def Program.check (p : Program) (config : CompilerConfig) : Except CompileError Checked := do
  let config ← config.validate.mapError .config
  let analysis := p.analyze config.exhaustive
  if analysis.hasErrors then throw (.analysis analysis.diagnostics)
  return { analysis, metadata := p.metadata analysis }

end Effectful
