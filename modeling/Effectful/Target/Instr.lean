import Effectful.Number.Text
import Effectful.TrapCode
/-!
# Instructions of the target

Compiled code is made of instruction trees.  An instruction evaluates to at most one value.  Values
are numbers and references; a reference leads to a record with typed fields, to an array, or nowhere.

Control is structured: `br` with the label of a block leaves the block with a value, `br` with the
label of a loop starts the loop anew.  Labels are unique within a function.  Code that falls off the
end of a loop leaves it.
-/

namespace Effectful.Target

structure Label where
  index : Nat
deriving DecidableEq, Repr, Inhabited

/-- A type of values. -/
inductive ValTy where
  | i32
  | i64
  | f32
  | f64
  /-- References to records of a type, or to anything. -/
  | ref (target : Option Nat)
deriving DecidableEq, Repr, Inhabited

def ValTy.text : ValTy → String
  | .i32 => "i32"
  | .i64 => "i64"
  | .f32 => "f32"
  | .f64 => "f64"
  | .ref (some ty) => s!"(ref null {ty})"
  | .ref none => "anyref"

inductive NumTy where
  | i32
  | i64
  | f32
  | f64
deriving DecidableEq, Repr, Inhabited

/-- Binary operators; a comparison gives a 32-bit `0` or `1`. -/
inductive BinOp where
  | add
  | sub
  | mul
  | div
  | rem
  | and
  | or
  | xor
  | eq
  | ne
  | lt
  | le
  | gt
  | ge
deriving DecidableEq, Repr, Inhabited

def BinOp.caseName : BinOp → String
  | .add => "Add"
  | .sub => "Sub"
  | .mul => "Mul"
  | .div => "Div"
  | .rem => "Rem"
  | .and => "And"
  | .or => "Or"
  | .xor => "Xor"
  | .eq => "Eq"
  | .ne => "Ne"
  | .lt => "Lt"
  | .le => "Le"
  | .gt => "Gt"
  | .ge => "Ge"

inductive UnOp where
  | neg
  /-- `1` for zero and `0` for any other integer. -/
  | eqz
deriving DecidableEq, Repr, Inhabited

/-- Changes of width and of reading. -/
inductive Conversion where
  | wrapI64
  | extendI32S
  | extendI32U
  | f32FromBits
  | f32ToBits
  | f64FromBits
  | f64ToBits
deriving DecidableEq, Repr, Inhabited

inductive Instr where
  | i32Const (n : Int32)
  | i64Const (n : Int64)
  | f32Const (x : Binary32)
  | f64Const (x : Binary64)
  | refNull
  | localGet (index : Nat)
  | localSet (index : Nat) (value : Instr)
  | binary (op : BinOp) (ty : NumTy) (lhs rhs : Instr)
  | unary (op : UnOp) (ty : NumTy) (operand : Instr)
  | convert (op : Conversion) (operand : Instr)
  /-- Gives the value of its last instruction unless it is left by `br`. -/
  | block (label : Label) (body : List Instr)
  | loop (label : Label) (body : List Instr)
  | ifElse (cond : Instr) (onTrue onFalse : List Instr)
  | br (label : Label) (value : Option Instr)
  | ret (value : Option Instr)
  | unreachable (code : TrapCode)
  | drop (value : Instr)
  | call (func : Nat) (args : List Instr)
  | callImport (target : Nat) (args : List Instr)
  | structNew (ty : Nat) (fields : List Instr)
  | structGet (ty field : Nat) (obj : Instr)
  | structSet (ty field : Nat) (obj value : Instr)
  | refIsNull (value : Instr)
  | arrayNew (items : List Instr)
  | arrayGet (array index : Instr)
  | arrayLen (array : Instr)
  | memLoad32 (addr : Instr)
  | memStore32 (addr value : Instr)
  | memLoad64 (addr : Instr)
  | memStore64 (addr value : Instr)
deriving Inhabited

namespace Instr

def i32Eq (lhs rhs : Instr) : Instr := .binary .eq .i32 lhs rhs

def eqz (value : Instr) : Instr := .unary .eqz .i32 value

/-- Goes to a label without a value. -/
def goto (label : Label) : Instr := .br label none

def give (value : Instr) : Instr := .ret (some value)

/-- The item of an array at a fixed place. -/
def item (array : Instr) (index : Nat) : Instr := .arrayGet array (.i32Const (.ofNat index))

end Instr

end Effectful.Target
