import Effectful.Compiler.Check
import Effectful.Lowering.NormalForm
import Effectful.Lowering.Site
/-!
# Lowering a program

The second stage of compilation: normal form, units, sites.
-/

namespace Effectful

/-- A program whose points of suspension are explicit. -/
structure LoweredProgram where
  /-- The program in normal form, from which the units were cut. -/
  program : Program
  units : LiftedProgram
  sites : SiteTable
deriving Inhabited

def LoweredProgram.diagnostics (p : LoweredProgram) : List Diagnostic := p.units.diagnostics

/-- Lowers an analysed program, unless expression ids run out. -/
def Program.lowerWith? (p : Program) (a : EffectAnalysis) (m : EffectMetadata) : Option LoweredProgram := do
  let program ← p.normalize? a
  let units := program.lift a
  return { program, units, sites := program.siteTable a m units }

def Program.lower (p : Program) (config : CompilerConfig) : Except CompileError (Checked × LoweredProgram) := do
  let checked ← p.check config
  match p.lowerWith? checked.analysis checked.metadata with
  | none => throw .exprIdsExhausted
  | some lowered =>
    if lowered.diagnostics.isEmpty then return (checked, lowered)
    else throw (.lowering lowered.diagnostics)

end Effectful
