import Effectful.Effect.Table
import Effectful.Json.Basic
import Effectful.Text.Hex
import Effectful.Wire.Layout
/-!
# Reports on boundary values and effect tables

Reports show results as JSON.  A boundary value is written with its tag: `i32:-4`, or
`f64:3ff0000000000000` with the bits of a float in hexadecimal, or `none`.  All NaNs look alike.
Hashes are written in hexadecimal, kinds of resumption by their names.
-/

namespace Effectful

namespace WireValue

def tagged : WireValue → String
  | .none => "none"
  | .i32 n => "i32:" ++ toString n.toInt
  | .i64 n => "i64:" ++ toString n.toInt
  | .f32 x => if x.isNaN then "f32:nan" else "f32:" ++ Hex.word 8 x.bits.toNat
  | .f64 x => if x.isNaN then "f64:nan" else "f64:" ++ Hex.word 16 x.bits.toNat

/-- Reads a value with its tag; a NaN is given by its bits. -/
def ofTagged? (s : String) : Option WireValue :=
  if s = "none" then some .none
  else match s.splitOn ":" with
    | ["i32", n] => (Text.readInteger Int32.minValue.toInt Int32.maxValue.toInt n).toOption.map fun n => .i32 (.ofInt n)
    | ["i64", n] => (Text.readInteger Int64.minValue.toInt Int64.maxValue.toInt n).toOption.map fun n => .i64 (.ofInt n)
    | ["f32", h] => ((Hex.number? h).filter (· < UInt32.size)).map fun n => .f32 ⟨.ofNat n⟩
    | ["f64", h] => ((Hex.number? h).filter (· < UInt64.size)).map fun n => .f64 ⟨.ofNat n⟩
    | _ => Option.none

def report (v : WireValue) : Json := .str v.tagged

end WireValue

/-! ### Names of errors -/

def WireError.caseName : WireError → String
  | .bufferTooSmall _ _ => "BufferTooSmall"
  | .unknownTag _ => "UnknownTag"
  | .tagMismatch _ _ => "TagMismatch"
  | .tooManyArgs _ => "TooManyArgs"

def TableError.caseName : TableError → String
  | .truncated _ _ => "Truncated"
  | .unsupportedVersion _ => "UnsupportedVersion"
  | .badOffset _ _ => "BadOffset"
  | .invalidUtf8 _ => "InvalidUtf8"
  | .unknownResumeKind _ _ => "UnknownResumeKind"
  | .effectIdMismatch _ => "EffectIdMismatch"

/-! ### Tables and layouts -/

def ResumeKind.report (k : ResumeKind) : Json := .str k.text

def TableEntry.report (e : TableEntry) : Json :=
  .obj [("effect_id", .str (Hex.word 16 e.effectId)), ("effect", .str e.effectName), ("op_id", .nat e.opId),
    ("kind", e.kind.report), ("sig", .str (Hex.word 8 e.signatureHash)), ("label", .str e.label)]

def BufferLayout.report (l : BufferLayout) : Json :=
  .obj [("op_count", .nat l.opCount), ("buffer_offset", .nat l.bufferOffset), ("buffer_len", .nat l.bufferLength),
    ("scratch_offset", .nat l.scratchOffset), ("memory_size", .nat l.memorySize)]

end Effectful
