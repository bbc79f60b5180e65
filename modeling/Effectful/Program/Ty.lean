import Effectful.Wire.Value
/-!
# Types of the object language

Programs arrive fully typed.  The parameters of a generic operation appear as `Ty.param` and are
replaced by the types of a use with `Ty.substitute`.  `Ty.agrees` compares two types where a
parameter on either side stands for anything.
-/

namespace Effectful

inductive Ty where
  | unit
  | bool
  | i32
  | i64
  | f32
  | f64
  | tuple (items : List Ty)
  /-- Functions and closures. -/
  | fn (params : List Ty) (ret : Ty)
  /-- A captured continuation: resumed with `param`, it gives `ret`. -/
  | continuation (param ret : Ty)
  /-- A parameter of a generic operation. -/
  | param (index : Nat)
deriving Inhabited, Repr

namespace Ty

/-! ### Equality -/

mutual

def beq : Ty → Ty → Bool
  | .unit, .unit => true
  | .bool, .bool => true
  | .i32, .i32 => true
  | .i64, .i64 => true
  | .f32, .f32 => true
  | .f64, .f64 => true
  | .tuple as, .tuple bs => beqList as bs
  | .fn as r, .fn bs s => beqList as bs && beq r s
  | .continuation a r, .continuation b s => beq a b && beq r s
  | .param i, .param j => i == j
  | _, _ => false

def beqList : List Ty → List Ty → Bool
  | [], [] => true
  | a :: as, b :: bs => beq a b && beqList as bs
  | _, _ => false

end

mutual

theorem eq_of_beq : ∀ {a b : Ty}, beq a b = true → a = b
  | .unit, b, h => by cases b <;> simp_all [beq]
  | .bool, b, h => by cases b <;> simp_all [beq]
  | .i32, b, h => by cases b <;> simp_all [beq]
  | .i64, b, h => by cases b <;> simp_all [beq]
  | .f32, b, h => by cases b <;> simp_all [beq]
  | .f64, b, h => by cases b <;> simp_all [beq]
  | .param i, b, h => by cases b <;> simp_all [beq]
  | .tuple as, b, h => by
    cases b with
    | tuple bs => rw [beq] at h; rw [eq_of_beqList h]
    | _ => simp [beq] at h
  | .fn as r, b, h => by
    cases b with
    | fn bs s =>
      rw [beq, Bool.and_eq_true] at h
      rw [eq_of_beqList h.1, eq_of_beq h.2]
    | _ => simp [beq] at h
  | .continuation a r, b, h => by
    cases b with
    | continuation b s =>
      rw [beq, Bool.and_eq_true] at h
      rw [eq_of_beq h.1, eq_of_beq h.2]
    | _ => simp [beq] at h

theorem eq_of_beqList : ∀ {as bs : List Ty}, beqList as bs = true → as = bs
  | [], bs, h => by cases bs <;> simp_all [beqList]
  | a :: as, bs, h => by
    cases bs with
    | nil => simp [beqList] at h
    | cons b bs =>
      rw [beqList, Bool.and_eq_true] at h
      rw [eq_of_beq h.1, eq_of_beqList h.2]

end

mutual

theorem beq_self : ∀ a : Ty, beq a a = true
  | .unit | .bool | .i32 | .i64 | .f32 | .f64 => by simp [beq]
  | .param i => by simp [beq]
  | .tuple as => by simp [beq, beqList_self as]
  | .fn as r => by simp [beq, beqList_self as, beq_self r]
  | .continuation a r => by simp [beq, beq_self a, beq_self r]

theorem beqList_self : ∀ as : List Ty, beqList as as = true
  | [] => by simp [beqList]
  | a :: as => by simp [beqList, beq_self a, beqList_self as]

end

instance : DecidableEq Ty := fun a b =>
  if h : beq a b = true then isTrue (eq_of_beq h)
  else isFalse fun e => h (e ▸ beq_self a)

/-! ### Classes of types -/

def isUnit : Ty → Bool
  | .unit => true
  | _ => false

/-- Whether a single machine value holds the values of the type. -/
def isScalar : Ty → Bool
  | .unit | .bool | .i32 | .i64 | .f32 | .f64 => true
  | _ => false

/-- The tag of the type's values at the host boundary, if they can cross it. -/
def tag? : Ty → Option ValueTag
  | .unit => some .none
  | .bool | .i32 => some .i32
  | .i64 => some .i64
  | .f32 => some .f32
  | .f64 => some .f64
  | _ => none

mutual

/-- Whether the type mentions a parameter. -/
def isGeneric : Ty → Bool
  | .param _ => true
  | .tuple items => anyGeneric items
  | .fn params ret => anyGeneric params || ret.isGeneric
  | .continuation arg ret => arg.isGeneric || ret.isGeneric
  | _ => false

def anyGeneric : List Ty → Bool
  | [] => false
  | t :: ts => t.isGeneric || anyGeneric ts

end

/-! ### Parameters -/

mutual

/-- Replaces each parameter that has an argument by it. -/
def substitute (args : List Ty) : Ty → Ty
  | .param i => (args[i]?).getD (.param i)
  | .tuple items => .tuple (substituteAll args items)
  | .fn params ret => .fn (substituteAll args params) (substitute args ret)
  | .continuation arg ret => .continuation (substitute args arg) (substitute args ret)
  | t => t

def substituteAll (args : List Ty) : List Ty → List Ty
  | [] => []
  | t :: ts => substitute args t :: substituteAll args ts

end

mutual

/-- Whether two types agree when a parameter on either side stands for anything. -/
def agrees : Ty → Ty → Bool
  | .param _, _ => true
  | _, .param _ => true
  | .unit, .unit => true
  | .bool, .bool => true
  | .i32, .i32 => true
  | .i64, .i64 => true
  | .f32, .f32 => true
  | .f64, .f64 => true
  | .tuple as, .tuple bs => agreesAll as bs
  | .fn as r, .fn bs s => agreesAll as bs && agrees r s
  | .continuation a r, .continuation b s => agrees a b && agrees r s
  | _, _ => false

/-- Whether two lists of types have one length and agree place by place. -/
def agreesAll : List Ty → List Ty → Bool
  | [], [] => true
  | a :: as, b :: bs => agrees a b && agreesAll as bs
  | _, _ => false

end

/-! ### Text -/

mutual

def text : Ty → String
  | .unit => "()"
  | .bool => "bool"
  | .i32 => "i32"
  | .i64 => "i64"
  | .f32 => "f32"
  | .f64 => "f64"
  | .tuple [] => "()"
  | .tuple [t] => "(" ++ t.text ++ ",)"
  | .tuple (t :: ts) => "(" ++ t.text ++ restText ts ++ ")"
  | .fn [] ret => "fn() -> " ++ ret.text
  | .fn (t :: ts) ret => "fn(" ++ t.text ++ restText ts ++ ") -> " ++ ret.text
  | .continuation arg ret => "cont(" ++ arg.text ++ ") -> " ++ ret.text
  | .param i => s!"T{i}"

/-- The types after the first of a list. -/
def restText : List Ty → String
  | [] => ""
  | t :: ts => ", " ++ t.text ++ restText ts

end

end Ty

end Effectful
