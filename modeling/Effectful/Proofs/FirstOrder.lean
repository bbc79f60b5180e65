import Effectful.Interp.Step
import Effectful.Proofs.Walk
/-!
# First-order programs

In a first-order program nothing that can be called is ever data.  There are no closures and no
operations as values, a function is named only where it is called, and so is the continuation of a
clause, which is never bound to anything else.

A value is first-order if it contains no function, closure, operation or continuation.  Operators
and built-in functions give first-order values only.
-/

namespace Effectful

open List

/-! ### Expressions -/

namespace Form

/-- The parts of a construct that are evaluated for their values: all but what a call calls. -/
def dataParts : Form → List Expr
  | .call _ args => args
  | form => form.children

/-- The locals that a construct itself binds or assigns, the continuations of clauses apart. -/
def binders : Form → List LocalId
  | .block stmts _ => stmts.filterMap fun
    | .bind target _ => some target
    | .expr _ => none
  | .assign target _ => [target]
  | .select _ arms => arms.filterMap fun arm =>
    match arm.pattern with
    | .binding target => some target
    | _ => none
  | .handle _ clauses _ => clauses.flatMap (·.head.params)
  | .closure params _ => params
  | _ => []

/-- The locals that hold the continuations of a handler's clauses. -/
def continuations : Form → List LocalId
  | .handle _ clauses _ => clauses.map (·.head.continuation)
  | _ => []

/-- Whether the construct names a function, or a continuation among the given locals. -/
def isName (ks : List LocalId) : Form → Bool
  | .fn _ => true
  | .var source => ks.contains source
  | _ => false

def isIntrinsic : Form → Bool
  | .intrinsic _ => true
  | _ => false

/-- Whether the construct makes an operation or a closure a value. -/
def isHigherOrder : Form → Bool
  | .op _ _ | .closure _ _ => true
  | _ => false

/-- Whether a construct keeps functions and continuations apart from data. -/
def isFirstOrder (ks : List LocalId) (form : Form) : Bool :=
  !form.isHigherOrder && form.dataParts.all (!·.form.isName ks) && form.binders.all (!ks.contains ·)

/-- Whether what a construct calls is a function, a continuation or a built-in function by name. -/
def callsByName (ks : List LocalId) : Form → Bool
  | .call callee _ => callee.form.isName ks || callee.form.isIntrinsic
  | _ => true

end Form

namespace FnDecl

def continuations (f : FnDecl) : List LocalId := f.body.walk.flatMap (·.form.continuations)

/-- Whether the function keeps functions and continuations apart from data. -/
def isFirstOrder (f : FnDecl) : Bool :=
  f.body.walk.all (·.form.isFirstOrder f.continuations) && !f.body.form.isName f.continuations &&
    f.params.all (!f.continuations.contains ·)

def callsByName (f : FnDecl) : Bool := f.body.walk.all (·.form.callsByName f.continuations)

end FnDecl

namespace Program

def isFirstOrder (p : Program) : Bool := p.functions.all (·.isFirstOrder)

/-- Whether every call of the program names what it calls. -/
def callsByName (p : Program) : Bool := p.functions.all (·.callsByName)

end Program

/-! ### Values -/

namespace Interp

variable {a v : Value}

namespace Value

mutual

/-- Whether nothing in the value runs code of the program when it is called. -/
def isFirstOrder : Value → Bool
  | .unit | .bool _ | .i32 _ | .i64 _ | .f32 _ | .f64 _ => true
  | .tuple items => allFirstOrder items
  | .callable (.intrinsic _) => true
  | .callable _ => false

def allFirstOrder : List Value → Bool
  | [] => true
  | v :: vs => v.isFirstOrder && allFirstOrder vs

end

theorem allFirstOrder_eq_all (vs : List Value) : allFirstOrder vs = vs.all isFirstOrder := by
  induction vs with
  | nil => rfl
  | cons v vs ih => rw [allFirstOrder, ih, all_cons]

theorem isFirstOrder_ofLiteral (ty : Ty) (l : Literal) : (ofLiteral ty l).isFirstOrder = true := by
  cases l with
  | unit | bool => rfl
  | int n => cases ty <;> rfl
  | float x => cases ty <;> rfl

end Value

/-- Operators give data. -/
theorem isFirstOrder_of_binary {op : BinOp} {b : Value} (h : binary op a b = .ok v) :
    v.isFirstOrder = true := by
  unfold binary at h
  split at h
  case h_7 => cases h
  all_goals
    revert h
    first
      | unfold binary32Ints | unfold binary64Ints | unfold binary32Floats | unfold binary64Floats
      | unfold binaryBools | unfold binaryUnits
    cases op <;> simp only [Except.ok.injEq, reduceCtorEq, false_implies] <;>
      first
        | rintro rfl; rfl
        | split <;> simp only [Except.ok.injEq, reduceCtorEq, false_implies]
          rintro rfl
          rfl

/-- Operators take operands that are first-order. -/
theorem isFirstOrder_operands_of_binary {op : BinOp} {b : Value} (h : binary op a b = .ok v) :
    a.isFirstOrder = true ∧ b.isFirstOrder = true := by
  unfold binary at h
  split at h <;> first | exact ⟨rfl, rfl⟩ | cases h

theorem isFirstOrder_of_unary {op : UnaryOp} (h : unary op a = .ok v) : v.isFirstOrder = true := by
  unfold unary at h
  split at h <;> cases h <;> rfl

theorem isFirstOrder_of_intrinsic {which : Intrinsic} {args : List Value}
    (h : intrinsic which args = .ok v) :
    v.isFirstOrder = true := by
  have compared {a b : Value} {r : Bool} (h : atMost a b = .ok r) :
      a.isFirstOrder = true ∧ b.isFirstOrder = true := by
    unfold atMost at h
    cases hb : binary .le a b with
    | error e => rw [hb] at h; cases h
    | ok w => exact isFirstOrder_operands_of_binary hb
  unfold intrinsic at h
  split at h
  case h_5 a b | h_6 a b =>
    cases hr : atMost a b with
    | error e => rw [hr] at h; cases h
    | ok r =>
      rw [hr] at h
      cases h
      split
      · first | exact (compared hr).1 | exact (compared hr).2
      · first | exact (compared hr).1 | exact (compared hr).2
  all_goals cases h
  all_goals rfl

end Interp

/-- The value may be data of the program: it is first-order, or the program calls no data at all. -/
def Program.Admits (p : Program) (v : Interp.Value) : Prop :=
  v.isFirstOrder = true ∨ p.callsByName = true

/-! ### What a first-order function keeps apart -/

namespace FnDecl

variable {f : FnDecl} {x : Expr}

section

variable (hf : f.isFirstOrder = true) (hx : x ∈ f.body.walk)
include hf hx

/-- Every node of a first-order function is first-order. -/
theorem isFirstOrder_node : x.form.isFirstOrder f.continuations = true := by
  simp only [isFirstOrder, Bool.and_eq_true, all_eq_true] at hf
  exact hf.1.1 x hx

theorem isHigherOrder_node : x.form.isHigherOrder = false := by
  have := isFirstOrder_node hf hx
  simp only [Form.isFirstOrder, Bool.and_eq_true, Bool.not_eq_true'] at this
  exact this.1.1

/-- A part that is evaluated for its value names no function and no continuation. -/
theorem isName_of_mem_dataParts {e : Expr} (he : e ∈ x.form.dataParts) :
    e.form.isName f.continuations = false := by
  have := isFirstOrder_node hf hx
  simp only [Form.isFirstOrder, Bool.and_eq_true, all_eq_true, Bool.not_eq_true'] at this
  exact this.1.2 e he

/-- Only clauses bind continuations. -/
theorem not_mem_continuations_of_mem_binders {t : LocalId} (ht : t ∈ x.form.binders) :
    t ∉ f.continuations := by
  have := isFirstOrder_node hf hx
  simp only [Form.isFirstOrder, Bool.and_eq_true, all_eq_true, Bool.not_eq_true',
    contains_eq_mem, decide_eq_false_iff_not] at this
  exact this.2 t ht

end

theorem isName_body (hf : f.isFirstOrder = true) : f.body.form.isName f.continuations = false := by
  simp only [isFirstOrder, Bool.and_eq_true, Bool.not_eq_true'] at hf
  exact hf.1.2

theorem not_mem_continuations_of_mem_params (hf : f.isFirstOrder = true) {t : LocalId}
    (ht : t ∈ f.params) : t ∉ f.continuations := by
  simp only [isFirstOrder, Bool.and_eq_true, all_eq_true, Bool.not_eq_true', contains_eq_mem,
    decide_eq_false_iff_not] at hf
  exact hf.2 t ht

theorem mem_continuations (hx : x ∈ f.body.walk) {body : Expr} {clauses : List Clause}
    {finalizer : Option Expr} (hform : x.form = .handle body clauses finalizer) {cl : Clause}
    (hcl : cl ∈ clauses) : cl.head.continuation ∈ f.continuations := by
  refine mem_flatMap.mpr ⟨x, hx, ?_⟩
  rw [hform]
  exact mem_map_of_mem hcl

/-- Callees are names or built in. -/
theorem isName_or_isIntrinsic_of_call (hf : f.callsByName = true) (hx : x ∈ f.body.walk)
    {callee : Expr} {args : List Expr} (hform : x.form = .call callee args) :
    callee.form.isName f.continuations = true ∨ callee.form.isIntrinsic = true := by
  simp only [callsByName, all_eq_true] at hf
  have := hf x hx
  rw [hform] at this
  simpa [Form.callsByName] using this

end FnDecl

theorem Form.dataParts_subset (form : Form) : form.dataParts ⊆ form.children := by
  cases form <;> simp [dataParts, children]

end Effectful
