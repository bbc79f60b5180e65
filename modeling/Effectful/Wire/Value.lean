import Effectful.Number.Text
/-!
# Values that cross the host boundary

A module and its host exchange scalars only.  Each is a tag and 64 bits; `WireValue.ofBits` rebuilds
the value from the two.
-/

namespace Effectful

/-- The kind of a value at the boundary. -/
inductive ValueTag where
  | none
  /-- A 32-bit integer; booleans travel as these. -/
  | i32
  | i64
  | f32
  | f64
deriving DecidableEq, Repr, Inhabited

namespace ValueTag

def text : ValueTag → String
  | .none => "none"
  | .i32 => "i32"
  | .i64 => "i64"
  | .f32 => "f32"
  | .f64 => "f64"

def code : ValueTag → Nat
  | .none => 0
  | .i32 => 1
  | .i64 => 2
  | .f32 => 3
  | .f64 => 4

def ofCode? : Nat → Option ValueTag
  | 0 => some .none
  | 1 => some .i32
  | 2 => some .i64
  | 3 => some .f32
  | 4 => some .f64
  | _ => Option.none

@[simp]
theorem ofCode?_code (t : ValueTag) : ofCode? t.code = some t := by cases t <;> rfl

end ValueTag

/-- A scalar at the boundary. -/
inductive WireValue where
  | none
  | i32 (n : Int32)
  | i64 (n : Int64)
  | f32 (x : Binary32)
  | f64 (x : Binary64)
deriving DecidableEq, Inhabited

namespace WireValue

def tag : WireValue → ValueTag
  | .none => .none
  | .i32 _ => .i32
  | .i64 _ => .i64
  | .f32 _ => .f32
  | .f64 _ => .f64

/-- The 64 bits of a value; narrower ones fill the low half. -/
def bits : WireValue → UInt64
  | .none => 0
  | .i32 n => n.toUInt32.toUInt64
  | .i64 n => n.toUInt64
  | .f32 x => x.bits.toUInt64
  | .f64 x => x.bits

def ofBits (tag : ValueTag) (bits : UInt64) : WireValue :=
  match tag with
  | .none => .none
  | .i32 => .i32 bits.toUInt32.toInt32
  | .i64 => .i64 bits.toInt64
  | .f32 => .f32 ⟨bits.toUInt32⟩
  | .f64 => .f64 ⟨bits⟩

def text : WireValue → String
  | .none => "()"
  | .i32 n => s!"{n.toInt}i32"
  | .i64 n => s!"{n.toInt}i64"
  | .f32 x => x.text ++ "f32"
  | .f64 x => x.text ++ "f64"

end WireValue

end Effectful
