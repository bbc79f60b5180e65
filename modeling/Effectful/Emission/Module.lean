import Effectful.Emission.Glue
import Effectful.Emission.Unit
/-!
# Emitting a module

The units come first, in order, then the functions for the host, each of which is exported under its
name.  The effect table travels in a section of its own.
-/

namespace Effectful

open Target

structure EmittedModule where
  module : Module
  buffer : BufferLayout
  diagnostics : List Diagnostic
  /-- A bound above the places of the source locals. -/
  places : Nat
deriving Inhabited

def LoweredProgram.emit (p : LoweredProgram) (a : EffectAnalysis) (m : EffectMetadata) (bufferSize : Nat) :
    EmittedModule :=
  let buffer := BufferLayout.new m.ordinals.length bufferSize
  let layout := ModuleLayout.make p
  let units := p.units.units.zipIdx.map fun (unit, index) =>
    ({ program := p, analysis := a, metadata := m, layout, index, unit } : UnitContext).compile
  let (glue, problems) := Glue.functions p m layout buffer
  { module := {
      types := layout.types
      imports := HostFunction.imports
      functions := units.map (·.1) ++ glue
      exports := glue.zipIdx.map fun (f, i) => ⟨f.name, units.length + i⟩
      sections := [⟨EffectTable.sectionName, m.table.encode⟩]
      memorySize := buffer.memorySize }
    buffer
    diagnostics := units.flatMap (·.2.diagnostics) ++ problems
    places := units.foldl (fun n u => max n u.2.places) 0 }

/-- Whether the places of locals and the size of the memory are numbers that a module can hold. -/
def EmittedModule.isRepresentable (m : EmittedModule) : Bool := m.places ≤ UInt32.size && m.buffer.isRepresentable

end Effectful
