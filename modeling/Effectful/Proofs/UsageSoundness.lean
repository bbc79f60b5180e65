import Effectful.Proofs.FirstOrder
import Effectful.Proofs.FrameStore
import Effectful.Proofs.HostRun
import Effectful.Proofs.ResumeCount
import Effectful.Proofs.UsageFlow
/-!
# Bounds on calls hold in every evaluation

`Expr.usage` bounds how often the body of a clause calls its continuation.
`Evaluates.calls_within_usage`: if the continuation belongs to a tail operation and the body
suspends nothing by itself, then every evaluation of the body that comes to an end stays within the
bounds.  In particular a body that needs no counter resumes exactly once.

Until the first call the body runs alone (`Watch.Holds`): above the constructs that were there when
it began stand constructs of its own, and what is still to come, read off these constructs, leads
where the whole body leads (`Watch.Accepts`).  Every step keeps that (`Watch.Holds.step`), so a body
that ends without a call ends where its flow has a path without one.  A `break` is no path of a
flow; it goes to a loop of the body, and a loop always leads on.

With the first call anything may happen: the continuation can suspend, be resumed by the host or by
an outer handler, or leave the body by an exit of its own.  But from then on the count of the
continuation stands at one (`Evaluates.eq_zero_of_resumed`).
-/

namespace Effectful

variable {e : Expr}

/-! ### Bodies that run by themselves -/

mutual

/-- Whether an expression performs and handles nothing, makes no closure, calls the local `k` and
built-in functions only, never binds or assigns `k`, and leaves no loop but its own; `inLoop` says
whether a loop surrounds it. -/
def Expr.isSelfContained (k : LocalId) (inLoop : Bool) : Expr → Bool
  | .node _ form _ _ => form.isSelfContained k inLoop

def Form.isSelfContained (k : LocalId) (inLoop : Bool) : Form → Bool
  | .literal _ | .var _ | .fn _ | .op _ _ | .intrinsic _ => true
  | .perform _ _ _ | .handle _ _ _ | .closure _ _ => false
  | .breakLoop | .continueLoop => inLoop
  | .binary _ lhs rhs => lhs.isSelfContained k inLoop && rhs.isSelfContained k inLoop
  | .unary _ operand => operand.isSelfContained k inLoop
  | .call callee args =>
    (callee.isVar k || callee.form.isIntrinsic) && areSelfContained k inLoop args
  | .block stmts tail =>
    stmtsSelfContained k inLoop stmts && (match tail with
      | some e => e.isSelfContained k inLoop
      | none => true)
  | .assign target value => target != k && value.isSelfContained k inLoop
  | .branch cond onTrue onFalse =>
    cond.isSelfContained k inLoop && onTrue.isSelfContained k inLoop && (match onFalse with
      | some e => e.isSelfContained k inLoop
      | none => true)
  | .select scrutinee arms => scrutinee.isSelfContained k inLoop && armsSelfContained k inLoop arms
  | .loop body => body.isSelfContained k true
  | .whileLoop cond body => cond.isSelfContained k inLoop && body.isSelfContained k true
  | .ret value =>
    match value with
    | some e => e.isSelfContained k inLoop
    | none => true
  | .tuple items => areSelfContained k inLoop items
  | .field base _ => base.isSelfContained k inLoop

def areSelfContained (k : LocalId) (inLoop : Bool) : List Expr → Bool
  | [] => true
  | e :: es => e.isSelfContained k inLoop && areSelfContained k inLoop es

def stmtsSelfContained (k : LocalId) (inLoop : Bool) : List Stmt → Bool
  | [] => true
  | .bind target (some e) :: ss =>
    target != k && e.isSelfContained k inLoop && stmtsSelfContained k inLoop ss
  | .bind target none :: ss => target != k && stmtsSelfContained k inLoop ss
  | .expr e :: ss => e.isSelfContained k inLoop && stmtsSelfContained k inLoop ss

def armsSelfContained (k : LocalId) (inLoop : Bool) : List Arm → Bool
  | [] => true
  | .mk pattern body :: as =>
    pattern != .binding k && body.isSelfContained k inLoop && armsSelfContained k inLoop as

end

section SelfContained

variable {k : LocalId} {inLoop : Bool}

theorem Expr.form_of_isVar (h : e.isVar k = true) : e.form = .var k := by
  unfold Expr.isVar at h
  split at h
  · rename_i l hform
    rw [hform, beq_iff_eq.mp h]
  · cases h

theorem Form.exists_of_isIntrinsic {form : Form} (h : form.isIntrinsic = true) :
    ∃ which, form = .intrinsic which := by
  cases form with
  | intrinsic which => exact ⟨which, rfl⟩
  | _ => cases h

theorem isSelfContained_block {stmts : List Stmt} {tail : Option Expr} :
    (Form.block stmts tail).isSelfContained k inLoop ↔
      stmtsSelfContained k inLoop stmts ∧ ∀ e ∈ tail, e.isSelfContained k inLoop := by
  cases tail <;> simp [Form.isSelfContained]

theorem isSelfContained_branch {cond onTrue : Expr} {onFalse : Option Expr} :
    (Form.branch cond onTrue onFalse).isSelfContained k inLoop ↔
      cond.isSelfContained k inLoop ∧ onTrue.isSelfContained k inLoop ∧
        ∀ e ∈ onFalse, e.isSelfContained k inLoop := by
  cases onFalse <;> simp [Form.isSelfContained, and_assoc]

end SelfContained

namespace Interp

open StateTransition (Reaches)

variable {q : Pending} {v : Value}

/-! ### What holds until the first call -/

/-- A continuation, where a body finds it, and what is to hold when the body ends or returns without
having called it, and when it calls it. -/
structure Watch where
  k : LocalId
  target : ContinuationId
  frame : FrameId
  ended : Prop
  returned : Prop
  called : Prop

/-- Whether one of the constructs is a loop that runs its body. -/
def inLoop (inner : List Pending) : Bool :=
  inner.any fun
    | .loopBody _ _ _ => true
    | _ => false

namespace Watch

variable (w : Watch)

abbrev Leads (e : Expr) (V : Prop) : Prop := e.Leads w.k w.returned w.called V

abbrev LeadAll (es : List Expr) (V : Prop) : Prop := Effectful.LeadAll w.k w.returned w.called es V

abbrev LoopLeads (cond : Option Expr) (body : Expr) (V : Prop) : Prop :=
  Effectful.LoopLeads w.k w.returned w.called cond body V

/-- Where operands lead once they are all there, if their value leads to `V`. -/
def Uses (V : Prop) : OperandUse → Prop
  | .apply (.callable (.continuation c)) => c = w.target ∧ w.called
  | .apply (.callable (.intrinsic _)) | .tuple => V
  | _ => False

/-- Where a construct leads that is given a value, if its own value leads to `V`. -/
def Passes (v : Value) (V : Prop) : Pending → Prop
  | .binaryLeft _ rhs _ => w.Leads rhs V
  | .binaryRight _ _ | .unary _ | .assign _ _ | .field _ => V
  | .callee args _ => w.LeadAll args (w.Uses V (.apply v))
  | .operands _ rest _ use => w.LeadAll rest (w.Uses V use)
  | .stmt _ rest tail _ => w.LeadAll (rest.filterMap Stmt.expr? ++ tail.toList) V
  | .branch onTrue onFalse _ => w.Leads onTrue V ∧ w.LeadAll onFalse.toList V
  | .select arms _ => ∀ e ∈ arms.map Arm.body, w.Leads e V
  | .loopCond cond body _ =>
    w.LoopLeads (some cond) body V ∧ w.Leads body (w.LoopLeads (some cond) body V)
  | .loopBody cond body _ => w.LoopLeads cond body V
  | .ret => w.returned
  | _ => False

/-- Where the constructs of the body lead that are given a value.  Only a callee's value matters. -/
def Accepts : List Pending → Value → Prop
  | [], _ => w.ended
  | q :: inner, v => w.Passes v (∀ v, Accepts inner v) q

/-- A construct of the body, in a loop or not.  Of a loop it is said here where it leads, because
`break` comes to it past constructs that lead elsewhere. -/
def Fits (inLoop : Bool) (V : Prop) : Pending → Prop
  | .binaryLeft _ rhs frame => frame = w.frame ∧ rhs.isSelfContained w.k inLoop
  | .binaryRight _ _ | .unary _ | .ret | .field _ => True
  | .callee args frame | .operands _ args frame _ =>
    frame = w.frame ∧ areSelfContained w.k inLoop args
  | .stmt target rest tail frame =>
    frame = w.frame ∧ target ≠ some w.k ∧ stmtsSelfContained w.k inLoop rest ∧
      ∀ e ∈ tail, e.isSelfContained w.k inLoop
  | .assign target frame => frame = w.frame ∧ target ≠ w.k
  | .branch onTrue onFalse frame =>
    frame = w.frame ∧ onTrue.isSelfContained w.k inLoop ∧
      ∀ e ∈ onFalse, e.isSelfContained w.k inLoop
  | .select arms frame => frame = w.frame ∧ armsSelfContained w.k inLoop arms
  | .loopCond cond body frame =>
    frame = w.frame ∧ cond.isSelfContained w.k inLoop ∧ body.isSelfContained w.k true
  | .loopBody cond body frame =>
    frame = w.frame ∧ (∀ e ∈ cond, e.isSelfContained w.k inLoop) ∧ body.isSelfContained w.k true ∧
      w.LoopLeads cond body V
  | _ => False

/-- All constructs of the body fit. -/
def Stacked : List Pending → Prop
  | [] => True
  | q :: inner => w.Fits (inLoop inner) (∀ v, w.Accepts inner v) q ∧ Stacked inner

inductive Names : Expr → Value → Prop where
  | continuation {e : Expr} (form : e.form = .var w.k) :
      Names e (.callable (.continuation w.target))
  | intrinsic {e : Expr} {which : Intrinsic} (form : e.form = .intrinsic which) :
    Names e (.callable (.intrinsic which))

/-- What the body does next, above constructs of its own.  A callee is not led anywhere by its flow:
in this position the continuation does not leak. -/
inductive Inside (inner : List Pending) : Control → Prop where
  | eval {e : Expr} (contained : e.isSelfContained w.k (inLoop inner))
      (leads : w.Leads e (∀ v, w.Accepts inner v)) :
    Inside inner (.eval e w.frame)
  | callee {e : Expr} {v : Value} (names : w.Names e v) (accepts : w.Accepts inner v) :
      Inside inner (.eval e w.frame)
  | value {v : Value} (accepts : w.Accepts inner v) : Inside inner (.value v)
  | ret {v : Value} (returned : w.returned) : Inside inner (.exit (.ret v))
  | breakLoop (within : inLoop inner) : Inside inner (.exit .breakLoop)
  | continueLoop (within : inLoop inner) : Inside inner (.exit .continueLoop)

/-- The body finds the continuation under its local. -/
def Finds (store : Store) : Prop :=
  store.frames.read? w.frame w.k = some (.callable (.continuation w.target))

/-- The state is one of the body's evaluation above `below`. -/
def Holds (below : List Pending) (st : State) : Prop :=
  ∃ inner, st.stack = inner ++ below ∧ w.Stacked inner ∧ w.Inside inner st.control ∧
    w.Finds st.store

/-- The evaluation of the body goes on, unless it fails. -/
def Follows (below : List Pending) : Step → Prop
  | .next st => w.Holds below st
  | .fail _ _ => True
  | .done _ _ => False

variable {w} {s : Setting} {inner below : List Pending} {store : Store}

/-- What stays inside the body follows. -/
theorem follows_of {control : Control} (hstack : w.Stacked inner) (hinside : w.Inside inner control)
    (hfinds : w.Finds store) : w.Follows below (.of control (inner ++ below) store) :=
  ⟨inner, rfl, hstack, hinside, hfinds⟩

/-- Evaluates a part of a construct. -/
theorem follows_under (hstack : w.Stacked inner)
    (hfits : w.Fits (inLoop inner) (∀ v, w.Accepts inner v) q)
    (hself : e.isSelfContained w.k (inLoop (q :: inner)))
    (hleads : w.Leads e (∀ v, w.Passes v (∀ v, w.Accepts inner v) q)) (hfinds : w.Finds store) :
    w.Follows below (.of (.eval e w.frame) (q :: (inner ++ below)) store) :=
  ⟨q :: inner, rfl, ⟨hfits, hstack⟩, .eval hself hleads, hfinds⟩

theorem follows_result {r : Except EvalError Value} (hstack : w.Stacked inner)
    (haccepts : ∀ v, w.Accepts inner v) (hfinds : w.Finds store) :
    w.Follows below (.result r (inner ++ below) store) := by
  cases r with
  | error e => trivial
  | ok v => exact follows_of hstack (.value (haccepts v)) hfinds

theorem follows_operands (done : List Value) {rest : List Expr} {use : OperandUse}
    (hstack : w.Stacked inner) (hself : areSelfContained w.k (inLoop inner) rest)
    (hleads : w.LeadAll rest (w.Uses (∀ v, w.Accepts inner v) use)) (hfinds : w.Finds store)
    (huse : ∀ callee, rest = [] → use = .apply callee → callee.isContinuation w.target = false) :
    w.Follows below (s.operands done rest w.frame use (inner ++ below) store) := by
  cases rest with
  | nil =>
    cases use with
    | apply callee =>
      have hcallee := huse callee rfl rfl
      cases callee with
      | callable callable =>
        cases callable with
        | continuation c =>
          obtain ⟨rfl, -⟩ : c = w.target ∧ w.called := hleads
          simp [Value.isContinuation] at hcallee
        | intrinsic which => exact follows_result hstack hleads hfinds
        | _ => exact hleads.elim
      | _ => exact hleads.elim
    | perform op => exact hleads.elim
    | tuple => exact follows_of hstack (.value (hleads _)) hfinds
  | cons e rest =>
    rw [areSelfContained, Bool.and_eq_true] at hself
    exact follows_under hstack ⟨rfl, hself.2⟩ hself.1 (Expr.Leads.mono hleads fun h _ => h) hfinds

theorem follows_block {stmts : List Stmt} {tail : Option Expr} (hstack : w.Stacked inner)
    (hstmts : stmtsSelfContained w.k (inLoop inner) stmts)
    (htail : ∀ e ∈ tail, e.isSelfContained w.k (inLoop inner))
    (hleads : w.LeadAll (stmts.filterMap Stmt.expr? ++ tail.toList) (∀ v, w.Accepts inner v))
    (hfinds : w.Finds store) :
    w.Follows below (Setting.block w.frame tail (inner ++ below) store stmts) := by
  induction stmts with
  | nil =>
    cases tail with
    | none => exact follows_of hstack (.value (hleads _)) hfinds
    | some e => exact follows_of hstack (.eval (htail e rfl) hleads) hfinds
  | cons stmt stmts ih =>
    cases stmt with
    | bind target init =>
      cases init with
      | none =>
        simp only [stmtsSelfContained, Bool.and_eq_true] at hstmts
        exact ih hstmts.2 hleads
      | some e =>
        simp only [stmtsSelfContained, Bool.and_eq_true, bne_iff_ne] at hstmts
        exact follows_under hstack ⟨rfl, by simpa using hstmts.1.1, hstmts.2, htail⟩ hstmts.1.2
          (Expr.Leads.mono hleads fun h _ => h) hfinds
    | expr e =>
      simp only [stmtsSelfContained, Bool.and_eq_true] at hstmts
      exact follows_under hstack ⟨rfl, by simp, hstmts.2, htail⟩ hstmts.1
        (Expr.Leads.mono hleads fun h _ => h) hfinds

theorem follows_round {cond : Option Expr} {body : Expr} (hstack : w.Stacked inner)
    (hcond : ∀ e ∈ cond, e.isSelfContained w.k (inLoop inner))
    (hbody : body.isSelfContained w.k true)
    (hleads : w.LoopLeads cond body (∀ v, w.Accepts inner v)) (hfinds : w.Finds store) :
    w.Follows below (Setting.round cond body w.frame (inner ++ below) store) := by
  have hround := hleads.unroll.2
  cases cond with
  | none => exact follows_under hstack ⟨rfl, hcond, hbody, hleads⟩ hbody (Expr.Leads.mono hround
      fun h _ => h) hfinds
  | some e =>
    have he := hcond e rfl
    exact follows_under hstack ⟨rfl, he, hbody⟩ he (Expr.Leads.mono hround fun h _ => ⟨hleads, h⟩)
      hfinds

theorem follows_select {arms : List Arm} (hstack : w.Stacked inner)
    (hself : armsSelfContained w.k (inLoop inner) arms)
    (hleads : ∀ e ∈ arms.map Arm.body, w.Leads e (∀ v, w.Accepts inner v))
    (hfinds : w.Finds store) :
    w.Follows below (Setting.select v w.frame (inner ++ below) store arms) := by
  induction arms with
  | nil => trivial
  | cons arm arms ih =>
    obtain ⟨pattern, body⟩ := arm
    simp only [armsSelfContained, Bool.and_eq_true, bne_iff_ne] at hself
    rw [List.map_cons, List.forall_mem_cons] at hleads
    have hbody : w.Inside inner (.eval body w.frame) := .eval hself.1.2 hleads.1
    cases pattern with
    | wildcard => exact follows_of hstack hbody hfinds
    | binding target =>
      refine follows_of hstack hbody ?_
      have hne : w.k ≠ target := by
        rintro rfl
        exact hself.1.1 rfl
      exact (Frames.read?_define_of_ne hne _ _ _).trans hfinds
    | literal l =>
      rw [Setting.select]
      split
      · exact follows_of hstack hbody hfinds
      · exact ih hself.2 hleads.2

/-- Evaluating code of the body: one case for each construct. -/
theorem follows_eval (hstack : w.Stacked inner) (hself : e.isSelfContained w.k (inLoop inner))
    (hleads : w.Leads e (∀ v, w.Accepts inner v)) (hfinds : w.Finds store) :
    w.Follows below (s.eval e w.frame (inner ++ below) store) := by
  obtain ⟨id, form, ty, span⟩ := e
  replace hleads : (form.usageFlow w.k false).Leads w.returned w.called (∀ v, w.Accepts inner v) :=
    hleads
  have hidle : CallCount.Idle UsageFlow.zero.onward := CallCount.idle_some.mpr rfl
  cases form with
  | literal | fn | op | intrinsic => exact follows_of hstack (.value (hleads.onward hidle _)) hfinds
  | var source =>
    have haccepts : ∀ v, w.Accepts inner v := by
      refine hleads.onward ?_
      rw [Form.usageFlow]
      split <;> exact hidle
    simp only [Setting.eval, Expr.form]
    split
    · exact follows_of hstack (.value (haccepts _)) hfinds
    · trivial
  | breakLoop => exact follows_of hstack (.breakLoop hself) hfinds
  | continueLoop => exact follows_of hstack (.continueLoop hself) hfinds
  | perform | handle | closure => cases hself
  | binary op lhs rhs =>
    rw [Expr.isSelfContained, Form.isSelfContained, Bool.and_eq_true] at hself
    exact follows_under hstack ⟨rfl, hself.2⟩ hself.1 ((leads_of_binary hleads).mono fun h _ => h)
      hfinds
  | unary | field =>
    exact follows_under hstack trivial hself (Expr.Leads.mono hleads fun h _ => h) hfinds
  | call callee args =>
    rw [Expr.isSelfContained, Form.isSelfContained, Bool.and_eq_true, Bool.or_eq_true] at hself
    -- self-contained code calls the continuation and built-in functions only
    obtain ⟨hcallee | hcallee, hargs⟩ := hself
    · have hvar : callee.form = .var w.k := Expr.form_of_isVar hcallee
      have hcall := leadAll_of_call_continuation hcallee hleads
      exact ⟨.callee args w.frame :: inner, rfl, ⟨⟨rfl, hargs⟩, hstack⟩,
        .callee (.continuation hvar) (hcall.mono fun h => ⟨rfl, h⟩), hfinds⟩
    · obtain ⟨which, hwhich⟩ := Form.exists_of_isIntrinsic hcallee
      exact ⟨.callee args w.frame :: inner, rfl, ⟨⟨rfl, hargs⟩, hstack⟩,
        .callee (.intrinsic hwhich) (leadAll_of_call_intrinsic hwhich hleads), hfinds⟩
  | block stmts tail =>
    obtain ⟨hstmts, htail⟩ := isSelfContained_block.mp hself
    exact follows_block hstack hstmts htail (leadAll_of_block hleads) hfinds
  | assign target value =>
    rw [Expr.isSelfContained, Form.isSelfContained, Bool.and_eq_true, bne_iff_ne] at hself
    exact follows_under hstack ⟨rfl, hself.1⟩ hself.2 (Expr.Leads.mono hleads fun h _ => h) hfinds
  | branch cond onTrue onFalse =>
    obtain ⟨hcond, hbranches⟩ := isSelfContained_branch.mp hself
    exact follows_under hstack ⟨rfl, hbranches⟩ hcond ((leads_of_branch hleads).mono fun h _ => h)
      hfinds
  | select scrutinee arms =>
    rw [Expr.isSelfContained, Form.isSelfContained, Bool.and_eq_true] at hself
    exact follows_under hstack ⟨rfl, hself.2⟩ hself.1 ((leads_of_select hleads).mono fun h _ => h)
      hfinds
  | loop body =>
    have hloop : w.LoopLeads none body _ := hleads
    exact follows_round hstack (by simp) hself hloop hfinds
  | whileLoop cond body =>
    rw [Expr.isSelfContained, Form.isSelfContained, Bool.and_eq_true] at hself
    have hloop : w.LoopLeads (some cond) body _ := hleads
    exact follows_round hstack (by simpa using hself.1) hself.2 hloop hfinds
  | ret value =>
    have hvalue := leadAll_of_ret hleads
    cases value with
    | none => exact follows_of hstack (.ret hvalue) hfinds
    | some e =>
      exact follows_under hstack trivial hself (Expr.Leads.mono hvalue fun h _ => h) hfinds
  | tuple items =>
    exact follows_operands (s := s) [] hstack hself (leadAll_of_usageFlowAll hleads) hfinds
      (by simp)

/-- The callee of a call is evaluated to what it names. -/
theorem follows_callee (hstack : w.Stacked inner) (hnames : w.Names e v)
    (haccepts : w.Accepts inner v) (hfinds : w.Finds store) :
    w.Follows below (s.eval e w.frame (inner ++ below) store) := by
  cases hnames with
  | continuation hform =>
    simp only [Setting.eval, hform, show store.frames.read? w.frame w.k = _ from hfinds]
    exact follows_of hstack (.value haccepts) hfinds
  | intrinsic hform =>
    simp only [Setting.eval, hform]
    exact follows_of hstack (.value haccepts) hfinds

/-- Giving a value to a construct of the body that is no call of the continuation. -/
theorem follows_give (hstack : w.Stacked (q :: inner)) (haccepts : w.Accepts (q :: inner) v)
    (hfinds : w.Finds store)
    (hcalls : State.calls w.target ⟨.value v, q :: (inner ++ below), store⟩ = false) :
    w.Follows below (s.give v (inner ++ below) store q) := by
  obtain ⟨hfits, hstack⟩ := hstack
  cases q with
  | binaryLeft op rhs frame =>
    obtain ⟨rfl, hrhs⟩ := hfits
    exact follows_under hstack trivial hrhs (Expr.Leads.mono haccepts fun h _ => h) hfinds
  | binaryRight | unary => exact follows_result hstack haccepts hfinds
  | callee args frame =>
    obtain ⟨rfl, hargs⟩ := hfits
    refine follows_operands (s := s) [] hstack hargs haccepts hfinds ?_
    -- without arguments this is the call, which `hcalls` excludes
    rintro callee rfl ⟨rfl⟩
    exact hcalls
  | operands done rest frame use =>
    obtain ⟨rfl, hrest⟩ := hfits
    refine follows_operands (s := s) (v :: done) hstack hrest haccepts hfinds ?_
    rintro callee rfl rfl
    exact hcalls
  | stmt target rest tail frame =>
    obtain ⟨rfl, htarget, hrest, htail⟩ := hfits
    refine follows_block hstack hrest htail haccepts ?_
    cases target with
    | none => exact hfinds
    | some l =>
      -- the continuation is not declared again
      have hne : w.k ≠ l := fun h => htarget (congrArg some h.symm)
      exact (Frames.read?_define_of_ne hne _ _ _).trans hfinds
  | assign target frame =>
    obtain ⟨rfl, htarget⟩ := hfits
    exact follows_of hstack (.value (haccepts _))
      ((Frames.read?_assign_of_ne htarget.symm _ _ _).trans hfinds)
  | branch onTrue onFalse frame =>
    obtain ⟨rfl, hon, hoff⟩ := hfits
    obtain ⟨htrue, hfalse⟩ := haccepts
    simp only [Setting.give]
    split
    · exact follows_of hstack (.eval hon htrue) hfinds
    · cases onFalse with
      | none => exact follows_of hstack (.value (hfalse _)) hfinds
      | some e => exact follows_of hstack (.eval (hoff e rfl) hfalse) hfinds
    · trivial
  | select arms frame =>
    obtain ⟨rfl, harms⟩ := hfits
    exact follows_select hstack harms haccepts hfinds
  | loopCond cond body frame =>
    obtain ⟨rfl, hcond, hbody⟩ := hfits
    obtain ⟨hloop, hleads⟩ := haccepts
    simp only [Setting.give]
    split
    · exact follows_under hstack ⟨rfl, by simpa using hcond, hbody, hloop⟩ hbody
        (hleads.mono fun h _ => h) hfinds
    · exact follows_of hstack (.value (hloop.unroll.1 _)) hfinds
    · trivial
  | loopBody cond body frame =>
    obtain ⟨rfl, hcond, hbody, -⟩ := hfits
    exact follows_round hstack hcond hbody haccepts hfinds
  | ret => exact follows_of hstack (.ret haccepts) hfinds
  | field index =>
    cases v with
    | tuple items =>
      simp only [Setting.give]
      split
      · exact follows_of hstack (.value (haccepts _)) hfinds
      · trivial
    | _ => trivial
  | _ => exact hfits.elim

theorem follows_leave {x : Exit} (hstack : w.Stacked (q :: inner))
    (hinside : w.Inside (q :: inner) (.exit x)) (hfinds : w.Finds store) :
    w.Follows below (Setting.leave x (inner ++ below) store q) := by
  obtain ⟨hfits, hstack⟩ := hstack
  have hpass (hinner : w.Inside inner (.exit x)) : w.Follows below
      (.of (.exit x) (inner ++ below) store) :=
    follows_of hstack hinner hfinds
  cases hinside with
  | ret hret =>
    cases q with
    | call | clause => exact hfits.elim
    | _ => exact hpass (.ret hret)
  | breakLoop hin =>
    cases q with
    | call | clause => exact hfits.elim
    | loopBody cond body frame => exact follows_of hstack (.value (hfits.2.2.2.unroll.1 _)) hfinds
    | _ => exact hpass (.breakLoop hin)
  | continueLoop hin =>
    cases q with
    | call | clause => exact hfits.elim
    | loopBody cond body frame =>
      obtain ⟨rfl, hcond, hbody, hloop⟩ := hfits
      exact follows_round hstack hcond hbody hloop hfinds
    | _ => exact hpass (.continueLoop hin)

end Watch

/-! ### Evaluations -/

/-- Control is back at the constructs below an evaluation. -/
def State.AtEdge (below : List Pending) (st : State) : Prop :=
  st.stack = below ∧ ∀ e frame, st.control ≠ .eval e frame

/-- Where the constructs of an evaluation are. -/
inductive Place where
  | above (below : List Pending)
  /-- A request has left the evaluation and holds its constructs, the outermost first. -/
  | suspended (rest : List Pending)

/-- From a step on, an evaluation comes to its end, with `n` calls of a continuation on the way that
are not refused.

A request that leaves the evaluation suspends it.  An outer clause or the host may then do anything,
and fail at it, until the constructs of the evaluation are put back with an answer.  What stands
below them by then is not what stood there before: calls and clauses that the request passed no
longer own their frames, and an outer handler is below its own clause. -/
inductive Evaluates (s : Setting) (c : ContinuationId) : Place → Step → Nat → Prop where
  | left {st : State} {below : List Pending} (edge : st.AtEdge below)
    (ended : ∀ op args rest, st.control ≠ .request op args rest) : Evaluates s c (.above below)
    (.next st) 0
  | step {st : State} {below : List Pending} {n : Nat} (inside : ¬ st.AtEdge below)
    (rest : Evaluates s c (.above below) (s.step st) n) :
    Evaluates s c (.above below) (.next st) (n + (s.resumes c st).toNat)
  | suspend {below rest : List Pending} {op : OpRef} {args : List Value} {store : Store} {n : Nat}
    (later : Evaluates s c (.suspended rest) (.next ⟨.request op args rest, below, store⟩) n) :
    Evaluates s c (.above below) (.next ⟨.request op args rest, below, store⟩) n
  | elsewhere {st : State} {rest : List Pending} {n : Nat}
      (later : Evaluates s c (.suspended rest) (s.step st) n) :
    Evaluates s c (.suspended rest) (.next st) (n + (s.resumes c st).toNat)
  /-- The host calls a function. -/
  | hostCall {rest : List Pending} {now : Step} {store : Store} {n : Nat}
    (leaves : s.leaves? now = some store) (name : String) (args : List Value)
    (later : Evaluates s c (.suspended rest) (s.startCall store name args) n) :
    Evaluates s c (.suspended rest) now n
  /-- The host resumes a suspended call, be it this one or another. -/
  | hostResume {rest : List Pending} {now : Step} {store : Store} {n : Nat}
    (leaves : s.leaves? now = some store) (id : SuspensionId) (v : Value)
    (later : Evaluates s c (.suspended rest) (Setting.startResume store id v) n) :
    Evaluates s c (.suspended rest) now n
  | resume {rest : List Pending} (below : List Pending) {v : Value} {store : Store} {n : Nat}
    (again : Evaluates s c (.above below) (.next ⟨.value v, rest.reverse ++ below, store⟩) n) :
    Evaluates s c (.suspended rest) (.next ⟨.value v, rest.reverse ++ below, store⟩) n

namespace Watch

variable {w : Watch} {s : Setting} {below : List Pending} {st : State}

/-- At the edge the body has ended or returned. -/
theorem Holds.ended_or_returned (h : w.Holds below st) (hedge : st.AtEdge below) :
    w.ended ∨ w.returned := by
  obtain ⟨inner, hstack, -, hinside, -⟩ := h
  obtain ⟨hbelow, hcontrol⟩ := hedge
  obtain rfl : inner = [] := by simpa [hstack] using hbelow
  obtain ⟨control, stack, store⟩ := st
  cases hinside with
  | eval | callee => simp at hcontrol
  | value haccepts => exact .inl haccepts
  | ret hret => exact .inr hret
  | breakLoop hin | continueLoop hin => cases hin

theorem Holds.called (h : w.Holds below st) (hedge : ¬ st.AtEdge below)
    (hcalls : st.calls w.target = true) :
    w.called := by
  obtain ⟨inner, hstack, hfits, hinside, -⟩ := h
  obtain ⟨control, stack, store⟩ := st
  obtain rfl : stack = inner ++ below := hstack
  cases hinside with
  | value haccepts =>
    cases inner with
    | nil => exact absurd ⟨rfl, nofun⟩ hedge
    | cons q inner =>
      have huses {V : Prop} {callee : Value} (hcallee : callee.isContinuation w.target = true)
          (h : w.Uses V (.apply callee)) : w.called := by
        obtain rfl := Value.isContinuation_iff.mp hcallee
        exact h.2
      cases q with
      | callee args frame =>
        cases args with
        | nil => exact huses hcalls haccepts
        | cons => cases hcalls
      | operands done rest frame use =>
        cases rest with
        | nil =>
          cases use with
          | apply callee => exact huses hcalls haccepts
          | _ => cases hcalls
        | cons => cases hcalls
      | _ => cases hcalls
  | _ => cases hcalls

/-- A step inside the body that calls nothing keeps it there. -/
theorem Holds.step (h : w.Holds below st) (hedge : ¬ st.AtEdge below)
    (hcalls : st.calls w.target = false) :
    w.Follows below (s.step st) := by
  obtain ⟨inner, hstack, hfits, hinside, hfinds⟩ := h
  obtain ⟨control, stack, store⟩ := st
  obtain rfl : stack = inner ++ below := hstack
  cases hinside with
  | eval hself hleads => exact follows_eval hfits hself hleads hfinds
  | callee hnames haccepts => exact follows_callee hfits hnames haccepts hfinds
  | value haccepts =>
    cases inner with
    | nil => exact absurd ⟨rfl, nofun⟩ hedge
    | cons q inner => exact follows_give hfits haccepts hfinds hcalls
  | ret hret =>
    cases inner with
    | nil => exact absurd ⟨rfl, nofun⟩ hedge
    | cons q inner => exact follows_leave hfits (.ret hret) hfinds
  | breakLoop hin =>
    cases inner with
    | nil => cases hin
    | cons q inner => exact follows_leave hfits (.breakLoop hin) hfinds
  | continueLoop hin =>
    cases inner with
    | nil => cases hin
    | cons q inner => exact follows_leave hfits (.continueLoop hin) hfinds

end Watch

namespace Evaluates

variable {s : Setting} {place : Place} {below : List Pending} {c : ContinuationId} {n : Nat}
  {now : Step}

/-- A tail continuation that was called is not called again, whatever happens in the meantime. -/
theorem eq_zero_of_resumed (h : Evaluates s c place now n) (hcount : now.store.Resumed c 1) :
    n = 0 := by
  induction h with
  | left => rfl
  | step _ _ ih | elsewhere _ ih =>
    obtain ⟨hstep, hnot⟩ := Setting.resumed_step_of_resumed (s := s) hcount
    rw [ih hstep, hnot, Bool.toNat_false]
  | suspend _ ih | resume _ _ ih => exact ih hcount
  | hostCall leaves name args _ ih =>
    exact ih (Setting.resumed_startCall (Setting.resumed_of_leaves? hcount leaves) name args)
  | hostResume leaves id v _ ih =>
    exact ih (Setting.resumed_startResume (Setting.resumed_of_leaves? hcount leaves) id v)

/-- An evaluation of a body calls its continuation once, or it ends or returns without a call. -/
theorem called_or_not {w : Watch} (h : Evaluates s w.target (.above below) now n)
    (hfollows : w.Follows below now) (hcount : now.store.Resumed w.target 0) :
    n = 0 ∧ (w.ended ∨ w.returned) ∨ n = 1 ∧ w.called := by
  generalize hplace : Place.above below = place at h
  induction h with
  | left hedge =>
    obtain rfl := Place.above.inj hplace
    exact .inl ⟨rfl, hfollows.ended_or_returned hedge⟩
  | @step st below' n hinside hrest ih =>
    obtain rfl := Place.above.inj hplace
    cases hcalls : st.calls w.target with
    | false =>
      rw [Setting.resumes_of_not_calls hcalls]
      exact ih (hfollows.step hinside hcalls) (Setting.resumed_step hcount hcalls) rfl
    | true =>
      obtain ⟨-, st', hnext, hone⟩ | ⟨hpos, -⟩ :=
        Setting.resumed_step_of_calls (s := s) hcount hcalls
      · -- the first call; what it sets off cannot call again
        rw [hnext] at hrest
        obtain rfl := hrest.eq_zero_of_resumed hone
        rw [Setting.resumes, hnext, hcalls]
        exact .inr ⟨rfl, hfollows.called hinside hcalls⟩
      · cases hpos
  | suspend =>
    -- the body by itself asks for nothing
    obtain ⟨inner, -, -, hinside, -⟩ := hfollows
    cases hinside
  | elsewhere | hostCall | hostResume | resume => cases hplace

/-- Every evaluation of a self-contained clause body stays within the bounds on the calls of its
tail continuation. -/
theorem calls_within_usage {body : Expr} {k : LocalId} {frame : FrameId} {store : Store}
    (hself : body.isSelfContained k false)
    (hk : store.frames.read? frame k = some (.callable (.continuation c)))
    (hfresh : store.Resumed c 0)
    (h : Evaluates s c (.above below) (.next ⟨.eval body frame, below, store⟩) n) :
    n ≤ 1 ∧ (1 ≤ (body.usage k).count.least → n = 1) ∧
      ((body.usage k).count.most = some 0 → n = 0) ∧
      ((body.usage k).enforcement = .static → n = 1) := by
  have hproper := body.proper_usageFlow k false
  let w : Watch := {
    k, frame
    target := c
    ended := CallCount.Idle (body.usageFlow k false).onward
    returned := CallCount.Idle (body.usageFlow k false).returned
    called := CallCount.Busy (body.usageFlow k false).onward ∨ CallCount.Busy
      (body.usageFlow k false).returned }
  -- the flow of the whole body leads where the three promises say
  have hstart : w.Holds below ⟨.eval body frame, below, store⟩ :=
    ⟨[], rfl, trivial, .eval hself ⟨fun h _ => h, id, id⟩, hk⟩
  have hcases : n = 0 ∧ (body.usage k).count.least = 0 ∨ n = 1 ∧ (body.usage k).count.most ≠
      some 0 := by
    rw [Expr.usage, UsageFlow.least_total_eq_zero hproper, UsageFlow.most_total_ne_zero hproper]
    exact called_or_not (w := w) h hstart hfresh
  have hleast : 1 ≤ (body.usage k).count.least → n = 1 := by omega
  refine ⟨by omega, hleast, by tauto, fun hstatic => hleast ?_⟩
  rw [Usage.count_of_static hstatic, CallCount.once]

theorem exists_of_step {st : State} (hinside : ¬ st.AtEdge below)
    (h : ∃ n, Evaluates s c (.above below) (s.step st) n) : ∃ n, Evaluates s c (.above below)
    (.next st) n := by
  obtain ⟨n, h⟩ := h
  exact ⟨_, .step hinside h⟩

/-- `if x { k(1) } else { return k(2) }`, where `k` is local 0 and `x` local 1. -/
def resumeOrReturn : Expr :=
  let resume (id n : Nat) : Expr :=
    .node ⟨id⟩ (.call (.node ⟨id + 1⟩ (.var ⟨0⟩) (.continuation .i32 .i32) {})
      [.node ⟨id + 2⟩ (.literal (.int (.ofNat n))) .i32 {}]) .i32 {}
  .i32 0 (.branch (.node ⟨1⟩ (.var ⟨1⟩) .bool {}) (resume 2 1)
    (some (.i32 5 (.ret (some (resume 6 2))))))

/-- A function of `x` that handles `A.a() + B.b()` with this clause for `A.a`; `B.b` goes to the
host. -/
def askAfterwards : Program where
  effects := [
    { id := ⟨0⟩, name := "A", ops := [⟨"a", 0, [], .i32, .tail⟩] },
    { id := ⟨1⟩, name := "B", ops := [⟨"b", 0, [], .i32, .tail⟩] }]
  functions := [{
    id := ⟨2⟩, name := "main", params := [⟨1⟩], ret := .i32
    locals := [⟨"k", .continuation .i32 .i32⟩, ⟨"x", .bool⟩]
    body := .i32 9 (.handle
      (.i32 10 (.binary .add (.i32 11 (.perform ⟨⟨0⟩, 0⟩ [] []))
        (.i32 12 (.perform ⟨⟨1⟩, 0⟩ [] []))))
      [.mk ⟨⟨0⟩, "a", none, [], ⟨0⟩, {}⟩ resumeOrReturn] none) }]

/-- The call with `x` false comes to the clause.  The body of the clause resumes, is suspended on
`B.b`, and comes to its end once the host has answered, after a call that failed; it has then
resumed exactly once, as its bounds prove. -/
theorem calls_within_usage_askAfterwards :
    let s : Setting := { program := askAfterwards, analysis := askAfterwards.analyze false }
    let below : List Pending := [.clause ⟨9⟩ .tail (some ⟨1⟩), .call (some ⟨0⟩)]
    let Ends (store : Store) :=
      Evaluates s ⟨0⟩ (.above below) (.of (.eval resumeOrReturn ⟨1⟩) below store)
    (resumeOrReturn.usage ⟨0⟩).enforcement = .static ∧ ∃ store,
      Reaches (s.advance fun (_ : Unit) _ => (.ok .unit, ()))
      ((), s.startCall {} "main" [.bool false])
        ((), .of (.eval resumeOrReturn ⟨1⟩) below store) ∧
      (∃ n, Ends store n) ∧ ∀ n, Ends store n → n = 1 := by
  intro s below Ends
  have habove {st : State} {below : List Pending} (h : st.stack.length ≠ below.length) :
      ¬ st.AtEdge below := fun hedge => h (congrArg List.length hedge.1)
  refine ⟨rfl, (s.after 5 (s.startCall {} "main" [.bool false])).store, ?_, ?_, fun n h => ?_⟩
  · exact s.reaches_after _ () 5 _
  · -- the clause resumes, and the request comes back to it
    refine exists_of_step (fun h => h.2 _ _ rfl) ?_
    iterate 2 refine exists_of_step (habove (by decide)) ?_
    refine exists_of_step (fun h => h.2 _ _ rfl) ?_
    iterate 11 refine exists_of_step (habove (by decide)) ?_
    -- it passes the clause and the call; the host fails to call a function, and its answer ends
    -- the resumed sum
    exact ⟨_, .suspend <| .elsewhere <| .elsewhere <| .elsewhere <| .hostCall rfl "other" [] <|
      .hostResume rfl ⟨0⟩ (.i32 5) <| .resume [.clause ⟨9⟩ .tail none, .call none] <|
      .step (habove (by decide)) <| .step (habove (by decide)) <| .step (habove (by decide)) <|
      .step (habove (by decide)) <| .left ⟨rfl, nofun⟩ nofun⟩
  · exact (calls_within_usage (k := ⟨0⟩) rfl rfl ⟨_, rfl, rfl, rfl⟩ h).2.2.2 rfl

end Evaluates

end Interp

end Effectful
