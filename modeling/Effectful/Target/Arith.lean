import Effectful.Target.Value
/-!
# Arithmetic of the target

An operator names the type of its operands and takes no others.  Integers wrap around, and division
truncates and fails on zero.  Comparisons give a 32-bit `0` or `1`.  Arithmetic on 32-bit floats is
done on 64-bit floats and rounded back.
-/

namespace Effectful.Target

def BinOp.i32s (op : BinOp) (x y : Int32) : Except Trap Val :=
  match op with
  | .add => .ok (.i32 (x + y))
  | .sub => .ok (.i32 (x - y))
  | .mul => .ok (.i32 (x * y))
  | .div => if y = 0 then .error .divisionByZero else .ok (.i32 (x / y))
  | .rem => if y = 0 then .error .divisionByZero else .ok (.i32 (x % y))
  | .and => .ok (.i32 (x &&& y))
  | .or => .ok (.i32 (x ||| y))
  | .xor => .ok (.i32 (x ^^^ y))
  | .eq => .ok (.ofBool (x == y))
  | .ne => .ok (.ofBool (x != y))
  | .lt => .ok (.ofBool (x < y))
  | .le => .ok (.ofBool (x ≤ y))
  | .gt => .ok (.ofBool (y < x))
  | .ge => .ok (.ofBool (y ≤ x))

def BinOp.i64s (op : BinOp) (x y : Int64) : Except Trap Val :=
  match op with
  | .add => .ok (.i64 (x + y))
  | .sub => .ok (.i64 (x - y))
  | .mul => .ok (.i64 (x * y))
  | .div => if y = 0 then .error .divisionByZero else .ok (.i64 (x / y))
  | .rem => if y = 0 then .error .divisionByZero else .ok (.i64 (x % y))
  | .and => .ok (.i64 (x &&& y))
  | .or => .ok (.i64 (x ||| y))
  | .xor => .ok (.i64 (x ^^^ y))
  | .eq => .ok (.ofBool (x == y))
  | .ne => .ok (.ofBool (x != y))
  | .lt => .ok (.ofBool (x < y))
  | .le => .ok (.ofBool (x ≤ y))
  | .gt => .ok (.ofBool (y < x))
  | .ge => .ok (.ofBool (y ≤ x))

/-- Applies an operator to floats; `number` makes a value of a computed float. -/
def BinOp.floats (op : BinOp) (number : Binary64 → Val) (x y : Binary64) : Except Trap Val :=
  match op with
  | .add => .ok (number (x.add y))
  | .sub => .ok (number (x.sub y))
  | .mul => .ok (number (x.mul y))
  | .div => .ok (number (x.div y))
  | .rem => .ok (number (x.rem y))
  | .eq => .ok (.ofBool (x.eq y))
  | .ne => .ok (.ofBool (!x.eq y))
  | .lt => .ok (.ofBool (x.lt y))
  | .le => .ok (.ofBool (x.le y))
  | .gt => .ok (.ofBool (y.lt x))
  | .ge => .ok (.ofBool (y.le x))
  | .and | .or | .xor => .error (.typeMismatch (.bitsOfFloats op))

def BinOp.apply (heap : Heap) (op : BinOp) (ty : NumTy) (a b : Val) : Except Trap Val := do
  match ty with
  | .i32 => op.i32s (← a.asI32 heap) (← b.asI32 heap)
  | .i64 => op.i64s (← a.asI64 heap) (← b.asI64 heap)
  | .f32 => op.floats (fun x => .f32 x.narrow) (← a.asF32 heap).widen (← b.asF32 heap).widen
  | .f64 => op.floats .f64 (← a.asF64 heap) (← b.asF64 heap)

def UnOp.apply (heap : Heap) (op : UnOp) (ty : NumTy) (v : Val) : Except Trap Val := do
  match op, ty with
  | .neg, .i32 => return .i32 (-(← v.asI32 heap))
  | .neg, .i64 => return .i64 (-(← v.asI64 heap))
  | .neg, .f32 => return .f32 (← v.asF32 heap).neg
  | .neg, .f64 => return .f64 (← v.asF64 heap).neg
  | .eqz, .i32 => return .ofBool ((← v.asI32 heap) == 0)
  | .eqz, .i64 => return .ofBool ((← v.asI64 heap) == 0)
  | .eqz, .f32 => throw (.typeMismatch .zeroTestOfFloat)
  | .eqz, .f64 => throw (.typeMismatch .zeroTestOfFloat)

def Conversion.apply (heap : Heap) (op : Conversion) (v : Val) : Except Trap Val := do
  match op with
  | .wrapI64 => return .i32 (← v.asI64 heap).toInt32
  | .extendI32S => return .i64 (← v.asI32 heap).toInt64
  | .extendI32U => return .i64 (← v.asI32 heap).toUInt32.toUInt64.toInt64
  | .f32FromBits => return .f32 ⟨(← v.asI32 heap).toUInt32⟩
  | .f32ToBits => return .i32 (← v.asF32 heap).bits.toInt32
  | .f64FromBits => return .f64 ⟨(← v.asI64 heap).toUInt64⟩
  | .f64ToBits => return .i64 (← v.asF64 heap).bits.toInt64

end Effectful.Target
