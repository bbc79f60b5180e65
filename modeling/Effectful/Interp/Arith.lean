import Effectful.Interp.Value
/-!
# Operators

Integers wrap around; division truncates and fails on zero.  Operators need operands of one kind:
there is no conversion.  Booleans know `and`, `or` and equality, unit knows equality, and floats know
everything but `and` and `or`.
-/

namespace Effectful.Interp

namespace Value

/-- The truth of a condition; a 32-bit integer is true if it is not zero. -/
def truthy : Value → Except EvalError Bool
  | .bool b => .ok b
  | .i32 n => .ok (n != 0)
  | v => .error (.typeMismatch (.condition v.typeName))

def ofLiteral (ty : Ty) : Literal → Value
  | .unit => .unit
  | .bool b => .bool b
  | .int n =>
    match ty with
    | .i64 => .i64 n
    | .f32 => .f32 (.ofInt n.toInt)
    | .f64 => .f64 (.ofInt n.toInt)
    | _ => .i32 n.toInt32
  | .float x =>
    match ty with
    | .f32 => .f32 x.narrow
    | _ => .f64 x

/-- Whether a literal pattern accepts a value. -/
def matchesLiteral : Value → Literal → Bool
  | .unit, .unit => true
  | .bool b, .bool a => a == b
  | .i32 n, .int a => a.toInt32 == n
  | .i64 n, .int a => a == n
  | .f64 x, .float a => a.eq x
  | .f32 x, .float a => a.narrow.eq x
  | _, _ => false

end Value

def binary32Ints (op : BinOp) (x y : Int32) : Except EvalError Value :=
  match op with
  | .add => .ok (.i32 (x + y))
  | .sub => .ok (.i32 (x - y))
  | .mul => .ok (.i32 (x * y))
  | .div => if y = 0 then .error .divisionByZero else .ok (.i32 (x / y))
  | .rem => if y = 0 then .error .divisionByZero else .ok (.i32 (x % y))
  | .and => .ok (.i32 (x &&& y))
  | .or => .ok (.i32 (x ||| y))
  | .eq => .ok (.bool (x == y))
  | .ne => .ok (.bool (x != y))
  | .lt => .ok (.bool (x < y))
  | .le => .ok (.bool (x ≤ y))
  | .gt => .ok (.bool (y < x))
  | .ge => .ok (.bool (y ≤ x))

def binary64Ints (op : BinOp) (x y : Int64) : Except EvalError Value :=
  match op with
  | .add => .ok (.i64 (x + y))
  | .sub => .ok (.i64 (x - y))
  | .mul => .ok (.i64 (x * y))
  | .div => if y = 0 then .error .divisionByZero else .ok (.i64 (x / y))
  | .rem => if y = 0 then .error .divisionByZero else .ok (.i64 (x % y))
  | .and => .ok (.i64 (x &&& y))
  | .or => .ok (.i64 (x ||| y))
  | .eq => .ok (.bool (x == y))
  | .ne => .ok (.bool (x != y))
  | .lt => .ok (.bool (x < y))
  | .le => .ok (.bool (x ≤ y))
  | .gt => .ok (.bool (y < x))
  | .ge => .ok (.bool (y ≤ x))

def binary32Floats (op : BinOp) (x y : Binary32) : Except EvalError Value :=
  match op with
  | .add => .ok (.f32 (x.add y))
  | .sub => .ok (.f32 (x.sub y))
  | .mul => .ok (.f32 (x.mul y))
  | .div => .ok (.f32 (x.div y))
  | .rem => .ok (.f32 (x.rem y))
  | .eq => .ok (.bool (x.eq y))
  | .ne => .ok (.bool (!x.eq y))
  | .lt => .ok (.bool (x.lt y))
  | .le => .ok (.bool (x.le y))
  | .gt => .ok (.bool (y.lt x))
  | .ge => .ok (.bool (y.le x))
  | .and | .or => .error (.typeMismatch (.floats op))

def binary64Floats (op : BinOp) (x y : Binary64) : Except EvalError Value :=
  match op with
  | .add => .ok (.f64 (x.add y))
  | .sub => .ok (.f64 (x.sub y))
  | .mul => .ok (.f64 (x.mul y))
  | .div => .ok (.f64 (x.div y))
  | .rem => .ok (.f64 (x.rem y))
  | .eq => .ok (.bool (x.eq y))
  | .ne => .ok (.bool (!x.eq y))
  | .lt => .ok (.bool (x.lt y))
  | .le => .ok (.bool (x.le y))
  | .gt => .ok (.bool (y.lt x))
  | .ge => .ok (.bool (y.le x))
  | .and | .or => .error (.typeMismatch (.floats op))

def binaryBools (op : BinOp) (x y : Bool) : Except EvalError Value :=
  match op with
  | .and => .ok (.bool (x && y))
  | .or => .ok (.bool (x || y))
  | .eq => .ok (.bool (x == y))
  | .ne => .ok (.bool (x != y))
  | _ => .error (.typeMismatch (.bools op))

def binaryUnits (op : BinOp) : Except EvalError Value :=
  match op with
  | .eq => .ok (.bool true)
  | .ne => .ok (.bool false)
  | _ => .error (.typeMismatch (.units op))

def binary (op : BinOp) : Value → Value → Except EvalError Value
  | .i32 x, .i32 y => binary32Ints op x y
  | .i64 x, .i64 y => binary64Ints op x y
  | .f32 x, .f32 y => binary32Floats op x y
  | .f64 x, .f64 y => binary64Floats op x y
  | .bool x, .bool y => binaryBools op x y
  | .unit, .unit => binaryUnits op
  | a, b => .error (.typeMismatch (.binary op a.typeName b.typeName))

def unary : UnaryOp → Value → Except EvalError Value
  | .neg, .i32 n => .ok (.i32 (-n))
  | .neg, .i64 n => .ok (.i64 (-n))
  | .neg, .f32 x => .ok (.f32 x.neg)
  | .neg, .f64 x => .ok (.f64 x.neg)
  | .not, .bool b => .ok (.bool !b)
  | .not, .i32 n => .ok (.i32 (~~~n))
  | .not, .i64 n => .ok (.i64 (~~~n))
  | op, v => .error (.typeMismatch (.unary op v.typeName))

def atMost (a b : Value) : Except EvalError Bool := do (← binary .le a b).truthy

def intrinsic : Intrinsic → List Value → Except EvalError Value
  | .abs, [.i32 n] => .ok (.i32 n.abs)
  | .abs, [.i64 n] => .ok (.i64 n.abs)
  | .abs, [.f32 x] => .ok (.f32 x.abs)
  | .abs, [.f64 x] => .ok (.f64 x.abs)
  | .min, [a, b] => do return if ← atMost a b then a else b
  | .max, [a, b] => do return if ← atMost a b then b else a
  | which, args => .error (.typeMismatch (.intrinsic which args.length))

end Effectful.Interp
