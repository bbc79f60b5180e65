import Effectful.Program.Expr
import Effectful.TrapCode
/-!
# Values of the interpreter

Programs are interpreted over scalars, tuples and things that can be called.  A continuation is a
number: what it stands for, and how often it was resumed, is kept in the interpreter's store, so that
all copies of it share one count.
-/

namespace Effectful.Interp

structure FrameId where
  index : Nat
deriving DecidableEq, Repr, Inhabited

structure ContinuationId where
  index : Nat
deriving DecidableEq, Repr, Inhabited

inductive Callable where
  | fn (target : DefId)
  /-- A closure with the frame in which it was made. -/
  | lambda (params : List LocalId) (body : Expr) (env : FrameId)
  | op (op : OpRef)
  | continuation (target : ContinuationId)
  | intrinsic (which : Intrinsic)
deriving Inhabited

inductive Value where
  | unit
  | bool (b : Bool)
  | i32 (n : Int32)
  | i64 (n : Int64)
  | f32 (x : Binary32)
  | f64 (x : Binary64)
  | tuple (items : List Value)
  | callable (target : Callable)
deriving Inhabited

namespace Value

/-- The kind of a value in messages. -/
def typeName : Value → String
  | .unit => "unit"
  | .bool _ => "bool"
  | .i32 _ => "i32"
  | .i64 _ => "i64"
  | .f32 _ => "f32"
  | .f64 _ => "f64"
  | .tuple _ => "tuple"
  | .callable _ => "callable"

/-- The value at the host boundary; tuples and callables cannot cross it. -/
def toWire? : Value → Option WireValue
  | .unit => some .none
  | .bool b => some (.i32 (if b then 1 else 0))
  | .i32 n => some (.i32 n)
  | .i64 n => some (.i64 n)
  | .f32 x => some (.f32 x)
  | .f64 x => some (.f64 x)
  | .tuple _ | .callable _ => none

/-- A host value as a value of the given type.  Only unit and booleans follow the type; any other
value keeps the kind that the host gave it. -/
def ofWire (ty : Ty) : WireValue → Value
  | .none => .unit
  | .i32 n =>
    match ty with
    | .unit => .unit
    | .bool => .bool (n != 0)
    | _ => .i32 n
  | .i64 n => if ty.isUnit then .unit else .i64 n
  | .f32 x => if ty.isUnit then .unit else .f32 x
  | .f64 x => if ty.isUnit then .unit else .f64 x

mutual

def text : Value → String
  | .unit => "()"
  | .bool b => if b then "true" else "false"
  | .i32 n => toString n.toInt
  | .i64 n => toString n.toInt ++ "i64"
  | .f32 x => x.text ++ "f32"
  | .f64 x => x.text
  | .tuple [] => "()"
  | .tuple (v :: vs) => "(" ++ v.text ++ restText vs ++ ")"
  | .callable _ => "<callable>"

/-- The items of a tuple behind the first one. -/
def restText : List Value → String
  | [] => ""
  | v :: vs => ", " ++ v.text ++ restText vs

end

end Value

/-! ### Errors -/

inductive TypeMismatch where
  | condition (found : String)
  | binary (op : BinOp) (lhs rhs : String)
  | floats (op : BinOp)
  | bools (op : BinOp)
  | units (op : BinOp)
  | unary (op : UnaryOp) (found : String)
  | intrinsic (which : Intrinsic) (count : Nat)
  | callOf (found : String)
  | fieldOf (found : String)
  | noField (index : Nat)
  | unknownEffect (effect : DefId)
  | unknownOp (label : String)
deriving DecidableEq, Inhabited

def TypeMismatch.message : TypeMismatch → String
  | .condition found => s!"condition of type {found}"
  | .binary op lhs rhs => op.caseName ++ s!" on {lhs} and {rhs}"
  | .floats op => op.caseName ++ " on floats"
  | .bools op => op.caseName ++ " on bools"
  | .units op => op.caseName ++ " on unit"
  | .unary op found => op.caseName ++ s!" on {found}"
  | .intrinsic which count => which.caseName ++ s!" with {count} arguments"
  | .callOf found => s!"call of {found}"
  | .fieldOf found => s!"field of {found}"
  | .noField index => s!"no field {index}"
  | .unknownEffect effect => "unknown effect " ++ effect.text
  | .unknownOp label => label

/-- Why interpretation stopped. -/
inductive EvalError where
  | trap (code : TrapCode)
  | divisionByZero
  | typeMismatch (cause : TypeMismatch)
  | unboundLocal (source : LocalId)
  | unknownFunction (name : String)
  | arity (name : String) (expected found : Nat)
  /-- A `break` or `continue` outside of a loop. -/
  | strayExit
  | stepLimit (limit : Nat)
  /-- The host could not answer a request. -/
  | handler (label message : String)
deriving DecidableEq, Inhabited

def EvalError.message : EvalError → String
  | .trap code => "trap: " ++ code.message
  | .divisionByZero => "integer division by zero"
  | .typeMismatch cause => "type mismatch: " ++ cause.message
  | .unboundLocal source => "read of unbound local " ++ source.text
  | .unknownFunction name => s!"unknown function `{name}`"
  | .arity name expected found => s!"`{name}` expects {expected} arguments, {found} given"
  | .strayExit => "break or continue escaped its enclosing construct"
  | .stepLimit limit => s!"run exceeded {limit} resume steps"
  | .handler label message => s!"handler for `{label}` failed: {message}"

end Effectful.Interp
