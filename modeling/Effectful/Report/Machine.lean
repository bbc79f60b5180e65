import Effectful.Report.Wire
import Effectful.Target.Machine
/-!
# Reports on running code

A number is written as the boundary value of the same type, the empty reference as `null`, and an
object with all that it refers to, down to a few references.
-/

namespace Effectful.Target

namespace Val

/-- How many references a report follows. -/
def reportDepth : Nat := 8

/-- A boundary value as a value of running code; no value is the empty reference. -/
def ofWire : WireValue → Val
  | .none => .ref none
  | .i32 n => .i32 n
  | .i64 n => .i64 n
  | .f32 x => .f32 x
  | .f64 x => .f64 x

/-- Reads a value with its tag, or `null`. -/
def ofTagged? (s : String) : Option Val :=
  if s = "null" then some (.ref none) else (WireValue.ofTagged? s).map ofWire

/-- A value, with objects inside at most `depth` others. -/
def reportWithin (heap : Heap) : (depth : Nat) → Val → Json
  | _, .i32 n => (WireValue.i32 n).report
  | _, .i64 n => (WireValue.i64 n).report
  | _, .f32 x => (WireValue.f32 x).report
  | _, .f64 x => (WireValue.f64 x).report
  | depth, .ref address =>
    match address.bind (heap[·]?), depth with
    | none, _ => .str "null"
    | some _, 0 => .str "..."
    | some (.struct ty fields), depth + 1 =>
      .obj [("struct", .nat ty), ("fields", .arr (fields.map (reportWithin heap depth)))]
    | some (.array items), depth + 1 => .obj [("array", .arr (items.map (reportWithin heap depth)))]

def report (heap : Heap) (v : Val) : Json := v.reportWithin heap (reportDepth + 1)

end Val

/-- The name of the kind of fault. -/
def Trap.caseName : Trap → String
  | .code reason => "Code." ++ reason.caseName
  | .divisionByZero => "DivisionByZero"
  | .nullReference => "NullReference"
  | .typeMismatch _ => "TypeMismatch"
  | .unknownExport _ => "UnknownExport"
  | .callStackExhausted _ => "CallStackExhausted"
  | .outOfBounds _ _ => "OutOfBounds"
  | .host _ => "Host"
  | .argumentCount _ _ => "ArgumentCount"

def Trap.report (t : Trap) : Json := .obj [("error", .str ("Trap." ++ t.caseName)), ("message", .str t.message)]

/-- What a call gave. -/
def reportResult (heap : Heap) : Option Val → Json
  | some v => .obj [("value", v.report heap), ("text", .str (v.text heap))]
  | none => .obj [("value", .null)]

end Effectful.Target
