import Effectful.Emission.Module
/-!
# Compiling a program

The third stage: a module for the target machine.
-/

namespace Effectful

structure CompiledProgram where
  checked : Checked
  lowered : LoweredProgram
  module : Target.Module
deriving Inhabited

def CompiledProgram.table (c : CompiledProgram) : EffectTable := c.checked.metadata.table

def Program.compile (p : Program) (config : CompilerConfig) : Except CompileError CompiledProgram := do
  let (checked, lowered) ← p.lower config
  let emitted := lowered.emit checked.analysis checked.metadata config.bufferSize
  if !emitted.isRepresentable then throw .moduleTooLarge
  else if emitted.diagnostics.isEmpty then return { checked, lowered, module := emitted.module }
  else throw (.emission emitted.diagnostics)

end Effectful
