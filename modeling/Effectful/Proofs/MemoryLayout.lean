import Effectful.Proofs.EmittedModule
import Effectful.Proofs.HandlerCalls
import Effectful.Proofs.TableRoundTrip
/-!
# The layout of a compiled module

The emitter lays out the memory of a module for a buffer size that the module does not tell.  From
the size of the memory and the number of operations the host recovers the same layout
(`layout_recovered`).
-/

namespace Effectful

open Host

namespace BufferLayout

/-- The table of handles, the buffer and the scratch area. -/
def parts (l : BufferLayout) : List Region :=
  [⟨0, handleSlot l.opCount⟩, ⟨l.bufferOffset, l.bufferLength⟩, ⟨l.scratchOffset, 256⟩]

/-- The parts stand in order, apart from each other and in memory.  The buffer starts at the first
multiple of sixteen behind the table. -/
structure InOrder (l : BufferLayout) : Prop where
  apart : l.parts.Pairwise fun r r' => r.address + r.length ≤ r'.address
  inMemory : ∀ r ∈ l.parts, r.address + r.length ≤ l.memorySize
  aligned : 16 ∣ l.bufferOffset
  near : l.bufferOffset < handleSlot l.opCount + 16

theorem inOrder_new (opCount requested : Nat) : (new opCount requested).InOrder := by
  have hsize : scratchSize = 256 := rfl
  refine ⟨?_, ?_, Nat.dvd_mul_left .., ?_⟩
  · simp [parts, new, handleSlot]
    omega
  · simp [parts, new, handleSlot, memorySize, hsize]
    omega
  · simp only [new, handleSlot]
    omega

/-- A memory that is large enough for the least buffer has the size that its layout needs. -/
theorem memorySize_ofMemorySize (opCount size : Nat) :
    (ofMemorySize opCount size).memorySize = max size (new opCount minBufferSize).memorySize := by
  simp only [ofMemorySize, memorySize, new]
  omega

theorem ofMemorySize_memorySize (opCount requested : Nat) :
    ofMemorySize opCount (new opCount requested).memorySize = new opCount requested := by
  have hlength : (new opCount requested).memorySize - scratchSize - (new opCount
      minBufferSize).bufferOffset =
      max requested minBufferSize := by
    simp only [memorySize, new]
    omega
  rw [ofMemorySize, hlength]
  simp [new]

end BufferLayout

/-- As many entries are read as were written. -/
theorem EffectTable.length_of_decode_encode {t t' : EffectTable}
    (hcount : t.entries.length < UInt32.size) (h : decode t.encode = .ok t') :
    t'.entries.length = t.entries.length := by
  rw [encode_eq, decode_fixedBytes_append hcount] at h
  cases hes : decodeEntries _ 0 _ _ with
  | error why =>
    rw [hes] at h
    cases h
  | ok es =>
    rw [hes] at h
    cases h
    exact (decodeEntries_ok hes).1

open BufferLayout

/-- **The host recovers the layout of a module.** The layout for any buffer size is recovered from
the size of its memory, and a layout that is recovered needs that much memory, or the least.  In all
of them the parts stand in order.  The runner of a compiled module works with the layout that the
emitter has used. -/
theorem layout_recovered :
    (∀ opCount requested, ofMemorySize opCount (new opCount requested).memorySize = new opCount
      requested) ∧
    (∀ opCount size, (ofMemorySize opCount size).memorySize = max size
      (new opCount minBufferSize).memorySize) ∧
    (∀ opCount n, (new opCount n).InOrder ∧ (ofMemorySize opCount n).InOrder) ∧
    ∀ (p : Program) config compiled runnerConfig rounds r store, p.compile config = .ok compiled →
      compiled.checked.metadata.ordinals.length < UInt32.size →
      Runner.new compiled.module runnerConfig rounds = .ok (r, store) →
      r.layout = (compiled.lowered.emit compiled.checked.analysis compiled.checked.metadata
        config.bufferSize).buffer := by
  refine ⟨ofMemorySize_memorySize, memorySize_ofMemorySize,
    fun opCount n => ⟨inOrder_new .., inOrder_new ..⟩, ?_⟩
  intro p config compiled runnerConfig rounds r store hcompile hcount hnew
  obtain ⟨-, -, -, _, rfl, -, hmodule⟩ := Program.emit_of_compile hcompile
  obtain ⟨htable, -, hlayout⟩ := Runner.new_eq_ok hnew
  have hlength : r.table.entries.length = compiled.checked.metadata.ordinals.length := by
    have hsection : compiled.module.section? EffectTable.sectionName =
        some compiled.checked.metadata.table.encode := by
      rw [hmodule]
      rfl
    rw [Runner.readTable, hsection] at htable
    cases hdecode : EffectTable.decode compiled.checked.metadata.table.encode with
    | error why => simp [hdecode, Except.mapError] at htable
    | ok t =>
      obtain rfl : t = r.table := by simpa [hdecode, Except.mapError] using htable
      have hentries : compiled.checked.metadata.table.entries.length =
          compiled.checked.metadata.ordinals.length :=
        List.length_map ..
      exact (EffectTable.length_of_decode_encode (hentries ▸ hcount) hdecode).trans hentries
  rw [hlayout, hlength, hmodule]
  exact ofMemorySize_memorySize _ config.bufferSize

/-- A buffer of 5000 bytes, which is more than the least. -/
theorem layout_recovered_askForever :
    ∃ compiled r store, askForever.compile { bufferSize := 5000 } = .ok compiled ∧
      Runner.new compiled.module {} 10 = .ok (r, store) ∧ r.layout = ⟨1, 16, 5000, 5016⟩ := by
  have hready : ((askForever.compile { bufferSize := 5000 }).toOption.any fun compiled =>
      compiled.checked.metadata.ordinals.length == 1 &&
        (Runner.new compiled.module {} 10).toOption.isSome) = true := by
    decide +kernel
  cases hcompile : askForever.compile { bufferSize := 5000 } with
  | error why => simp [hcompile, Except.toOption] at hready
  | ok compiled =>
    cases hnew : Runner.new compiled.module {} 10 with
    | error why => simp [hcompile, hnew, Except.toOption] at hready
    | ok new =>
      have hcount : compiled.checked.metadata.ordinals.length = 1 := by
        simpa [hcompile, hnew, Except.toOption] using hready
      obtain ⟨-, -, -, hlayout⟩ := layout_recovered
      refine ⟨compiled, new.1, new.2, rfl, hnew, ?_⟩
      rw [hlayout _ _ _ _ _ _ _ hcompile (hcount ▸ by decide) hnew]
      show BufferLayout.new compiled.checked.metadata.ordinals.length 5000 = _
      rw [hcount]
      rfl

end Effectful
