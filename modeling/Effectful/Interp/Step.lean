import Effectful.Analysis.Inference
import Effectful.Interp.Arith
import Effectful.Interp.Frames
/-!
# Evaluation in small steps

The interpreter is a machine whose state is a control, a stack of pending constructs and a store.
The control is an expression to evaluate, or the way in which the last evaluation ended: with a value,
with an exit that leaves constructs (`return`, `break`, `continue`, or a transfer out of a clause), or
with a request for an operation.

A request travels up the stack and takes the constructs along that it passes; together they are the
rest of the computation.  The first guard with a clause for the operation stops it: the rest becomes
a continuation of that clause.  Calling a continuation puts the rest back on the stack below the same
guard, so handlers are deep.  Since the rest is data, it can be put back any number of times.

The continuation of a tail operation may be called once, and calling it transfers control: when the
resumed computation ends with a value, that value is the value of the handler.
-/

namespace Effectful.Interp

/-! ### States -/

inductive OperandUse where
  | apply (callee : Value)
  | perform (op : OpRef)
  | tuple
deriving Inhabited

/-- A construct that waits for a part of it. -/
inductive Pending where
  | binaryLeft (op : BinOp) (rhs : Expr) (frame : FrameId)
  | binaryRight (op : BinOp) (lhs : Value)
  | unary (op : UnaryOp)
  | callee (args : List Expr) (frame : FrameId)
  /-- Operands that are done, in reverse, and those to come. -/
  | operands (done : List Value) (rest : List Expr) (frame : FrameId) (use : OperandUse)
  /-- A statement of a block, and what follows. -/
  | stmt (target : Option LocalId) (rest : List Stmt) (tail : Option Expr) (frame : FrameId)
  | assign (target : LocalId) (frame : FrameId)
  | branch (onTrue : Expr) (onFalse : Option Expr) (frame : FrameId)
  | select (arms : List Arm) (frame : FrameId)
  | loopCond (cond body : Expr) (frame : FrameId)
  | loopBody (cond : Option Expr) (body : Expr) (frame : FrameId)
  | ret
  /-- A handler around its body. -/
  | guard (handle : ExprId) (clauses : List Clause) (frame : FrameId)
  /-- The handled value comes first, then the finalizer. -/
  | finalizer (e : Expr) (frame : FrameId)
  | finalized (result : Value)
  | field (index : Nat)
  /-- A call, with the frame to give back unless the call was suspended. -/
  | call (owned : Option FrameId)
  /-- A clause of a handler, with its frame likewise. -/
  | clause (handle : ExprId) (kind : ResumeKind) (owned : Option FrameId)
  /-- A tail continuation under way. -/
  | transfer (handle : ExprId)
deriving Inhabited

/-- A continuation: what a clause may resume. -/
structure Captured where
  handle : ExprId
  clauses : List Clause
  frame : FrameId
  /-- The constructs between the operation and the handler, the outermost first. -/
  rest : List Pending
  kind : ResumeKind
  resumed : Nat := 0
deriving Inhabited

/-- A suspended call: what the host may resume. -/
structure Suspended where
  /-- The constructs around the operation, the outermost first. -/
  rest : List Pending
  kind : ResumeKind
  resumed : Nat := 0
deriving Inhabited

structure SuspensionId where
  index : Nat
deriving DecidableEq, Repr, Inhabited

/-- What outlives a step. -/
structure Store where
  frames : Frames := {}
  continuations : Array Captured := #[]
  suspensions : Array Suspended := #[]
deriving Inhabited

/-- A way out of constructs. -/
inductive Exit where
  | ret (v : Value)
  | breakLoop
  | continueLoop
  /-- A tail continuation of `handle` ended with this value. -/
  | transfer (handle : ExprId) (v : Value)
deriving Inhabited

/-- What the machine does next. -/
inductive Control where
  | eval (e : Expr) (frame : FrameId)
  | value (v : Value)
  | exit (x : Exit)
  /-- A request with the constructs that it has passed, the outermost first. -/
  | request (op : OpRef) (args : List Value) (rest : List Pending)
deriving Inhabited

structure State where
  control : Control
  stack : List Pending
  store : Store
deriving Inhabited

/-- What is fixed during a run. -/
structure Setting where
  program : Program
  analysis : EffectAnalysis
  /-- Whether frames are used again. -/
  recycle : Bool := true

/-- The outcome of a step; an error leaves the store as it was when it arose. -/
inductive Step where
  | next (s : State)
  | fail (e : EvalError) (store : Store)
  /-- The stack is empty and the control is no expression. -/
  | done (c : Control) (store : Store)
deriving Inhabited

namespace Store

def pin (s : Store) (id : FrameId) : Store := { s with frames := s.frames.pin id }

/-- Gives back the frame of a call or clause that is over, if it is still owned. -/
def release (s : Store) : Option FrameId → Store
  | some id => { s with frames := s.frames.release id }
  | none => s

def define (s : Store) (id : FrameId) (target : LocalId) (v : Value) : Store :=
  { s with frames := s.frames.define id target v }

/-- A new frame in which locals are bound to values. -/
def push (s : Store) (recycle : Bool) (parent : Option FrameId) (targets : List LocalId) (vs : List Value) :
    FrameId × Store :=
  let (id, frames) := s.frames.push recycle parent
  (id, { s with frames := frames.defineAll id targets vs })

end Store

/-! ### Steps -/

/-- The next state with the given control. -/
def Step.of (control : Control) (stack : List Pending) (store : Store) : Step := .next ⟨control, stack, store⟩

def Step.result (r : Except EvalError Value) (stack : List Pending) (store : Store) : Step :=
  match r with
  | .ok v => .of (.value v) stack store
  | .error e => .fail e store

namespace Setting

def callFn (s : Setting) (target : DefId) (args : List Value) (stack : List Pending) (store : Store) : Step :=
  match s.program.function? target with
  | none => .fail (.unknownFunction target.text) store
  | some f =>
    if f.params.length ≠ args.length then .fail (.arity f.name f.params.length args.length) store
    else
      let (frame, store) := store.push s.recycle none f.params args
      .of (.eval f.body frame) (.call (some frame) :: stack) store

/-- Resumes a continuation below its handler. -/
def resumeContinuation (id : ContinuationId) (v : Value) (stack : List Pending) (store : Store) : Step :=
  match store.continuations[id.index]? with
  | none => .fail (.trap .unreachable) store
  | some k =>
    if k.kind = .tail ∧ 1 ≤ k.resumed then .fail (.trap .tailResumeExhausted) store
    else
      let store := { store with
        continuations := store.continuations.setIfInBounds id.index { k with resumed := k.resumed + 1 } }
      let below := match k.kind with
        | .tail => .transfer k.handle :: stack
        | .resume => stack
      .of (.value v) (k.rest.reverseAux (.guard k.handle k.clauses k.frame :: below)) store

def apply (s : Setting) (callee : Value) (args : List Value) (stack : List Pending) (store : Store) : Step :=
  match callee with
  | .callable (.fn target) => s.callFn target args stack store
  | .callable (.lambda params body env) =>
    if params.length ≠ args.length then .fail (.arity "closure" params.length args.length) store
    else
      let (frame, store) := store.push s.recycle (some env) params args
      .of (.eval body frame) (.call (some frame) :: stack) store
  | .callable (.op operation) => .of (.request operation args []) stack store
  | .callable (.continuation id) => resumeContinuation id (args.headD .unit) stack store
  | .callable (.intrinsic which) => .result (intrinsic which args) stack store
  | v => .fail (.typeMismatch (.callOf v.typeName)) store

/-- Evaluates the next operand, or uses all of them. -/
def operands (s : Setting) (done : List Value) (rest : List Expr) (frame : FrameId) (use : OperandUse)
    (stack : List Pending) (store : Store) : Step :=
  match rest with
  | e :: rest => .of (.eval e frame) (.operands done rest frame use :: stack) store
  | [] =>
    match use with
    | .apply callee => s.apply callee done.reverse stack store
    | .perform op => .of (.request op done.reverse []) stack store
    | .tuple => .of (.value (.tuple done.reverse)) stack store

/-- Evaluates the next statement of a block, or its tail. -/
def block (frame : FrameId) (tail : Option Expr) (stack : List Pending) (store : Store) : List Stmt → Step
  | .bind target (some e) :: rest => .of (.eval e frame) (.stmt (some target) rest tail frame :: stack) store
  | .bind _ none :: rest => block frame tail stack store rest
  | .expr e :: rest => .of (.eval e frame) (.stmt none rest tail frame :: stack) store
  | [] =>
    match tail with
    | some e => .of (.eval e frame) stack store
    | none => .of (.value .unit) stack store

/-- Starts a round of a loop. -/
def round (cond : Option Expr) (body : Expr) (frame : FrameId) (stack : List Pending) (store : Store) : Step :=
  match cond with
  | some c => .of (.eval c frame) (.loopCond c body frame :: stack) store
  | none => .of (.eval body frame) (.loopBody none body frame :: stack) store

/-- Evaluates the first arm that accepts a value. -/
def select (v : Value) (frame : FrameId) (stack : List Pending) (store : Store) : List Arm → Step
  | [] => .fail (.trap .unreachable) store
  | .mk pattern body :: arms =>
    match pattern with
    | .wildcard => .of (.eval body frame) stack store
    | .binding target => .of (.eval body frame) stack (store.define frame target v)
    | .literal l =>
      if v.matchesLiteral l then .of (.eval body frame) stack store else select v frame stack store arms

def eval (s : Setting) (e : Expr) (frame : FrameId) (stack : List Pending) (store : Store) : Step :=
  match e.form with
  | .literal l => .of (.value (.ofLiteral e.ty l)) stack store
  | .var source =>
    match store.frames.read? frame source with
    | some v => .of (.value v) stack store
    | none => .fail (.unboundLocal source) store
  | .fn target => .of (.value (.callable (.fn target))) stack store
  | .op operation _ => .of (.value (.callable (.op operation))) stack store
  | .intrinsic which => .of (.value (.callable (.intrinsic which))) stack store
  | .closure params body => .of (.value (.callable (.lambda params body frame))) stack (store.pin frame)
  | .binary operator lhs rhs => .of (.eval lhs frame) (.binaryLeft operator rhs frame :: stack) store
  | .unary operator operand => .of (.eval operand frame) (.unary operator :: stack) store
  | .call callee args => .of (.eval callee frame) (.callee args frame :: stack) store
  | .perform operation args _ => s.operands [] args frame (.perform operation) stack store
  | .block stmts tail => block frame tail stack store stmts
  | .assign target value => .of (.eval value frame) (.assign target frame :: stack) store
  | .branch cond onTrue onFalse => .of (.eval cond frame) (.branch onTrue onFalse frame :: stack) store
  | .select scrutinee arms => .of (.eval scrutinee frame) (.select arms frame :: stack) store
  | .loop body => round none body frame stack store
  | .whileLoop cond body => round (some cond) body frame stack store
  | .breakLoop => .of (.exit .breakLoop) stack store
  | .continueLoop => .of (.exit .continueLoop) stack store
  | .ret (some value) => .of (.eval value frame) (.ret :: stack) store
  | .ret none => .of (.exit (.ret .unit)) stack store
  | .handle body clauses finalizer =>
    let below := match finalizer with
      | some f => .finalizer f frame :: stack
      | none => stack
    .of (.eval body frame) (.guard e.id clauses frame :: below) store
  | .tuple items => s.operands [] items frame .tuple stack store
  | .field base index => .of (.eval base frame) (.field index :: stack) store

/-- The end of a clause with a value of its own, which only a clause of a `resume` operation may have. -/
def endClause (kind : ResumeKind) (v : Value) (stack : List Pending) (store : Store) : Step :=
  match kind with
  | .tail => .fail (.trap .tailResumeMissing) store
  | .resume => .of (.value v) stack store

/-- Gives a value to the construct that waits for it. -/
def give (s : Setting) (v : Value) (stack : List Pending) (store : Store) : Pending → Step
  | .binaryLeft op rhs frame => .of (.eval rhs frame) (.binaryRight op v :: stack) store
  | .binaryRight op lhs => .result (binary op lhs v) stack store
  | .unary op => .result (unary op v) stack store
  | .callee args frame => s.operands [] args frame (.apply v) stack store
  | .operands done rest frame use => s.operands (v :: done) rest frame use stack store
  | .stmt target rest tail frame =>
    let store := match target with
      | some l => store.define frame l v
      | none => store
    block frame tail stack store rest
  | .assign target frame =>
    .of (.value .unit) stack { store with frames := store.frames.assign frame target v }
  | .branch onTrue onFalse frame =>
    match v.truthy with
    | .ok true => .of (.eval onTrue frame) stack store
    | .ok false =>
      match onFalse with
      | some e => .of (.eval e frame) stack store
      | none => .of (.value .unit) stack store
    | .error e => .fail e store
  | .select arms frame => select v frame stack store arms
  | .loopCond cond body frame =>
    match v.truthy with
    | .ok true => .of (.eval body frame) (.loopBody (some cond) body frame :: stack) store
    | .ok false => .of (.value .unit) stack store
    | .error e => .fail e store
  | .loopBody cond body frame => round cond body frame stack store
  | .ret => .of (.exit (.ret v)) stack store
  | .guard _ _ _ => .of (.value v) stack store
  | .finalizer e frame => .of (.eval e frame) (.finalized v :: stack) store
  | .finalized result => .of (.value result) stack store
  | .field index =>
    match v with
    | .tuple items =>
      match items[index]? with
      | some item => .of (.value item) stack store
      | none => .fail (.typeMismatch (.noField index)) store
    | v => .fail (.typeMismatch (.fieldOf v.typeName)) store
  | .call owned => .of (.value v) stack (store.release owned)
  | .clause _ kind owned => endClause kind v stack (store.release owned)
  | .transfer handle => .of (.exit (.transfer handle v)) stack store

/-- Takes an exit out of a construct. -/
def leave (x : Exit) (stack : List Pending) (store : Store) : Pending → Step
  | .loopBody cond body frame =>
    match x with
    | .continueLoop => round cond body frame stack store
    | .breakLoop => .of (.value .unit) stack store
    | x => .of (.exit x) stack store
  | .call owned =>
    let store := store.release owned
    match x with
    | .ret v => .of (.value v) stack store
    | .transfer handle v => .of (.exit (.transfer handle v)) stack store
    | .breakLoop | .continueLoop => .fail .strayExit store
  | .clause handle kind owned =>
    let store := store.release owned
    match x with
    | .transfer target v =>
      if target = handle then .of (.value v) stack store else .of (.exit (.transfer target v)) stack store
    | .ret v => endClause kind v stack store
    | .breakLoop | .continueLoop => .fail .strayExit store
  | _ => .of (.exit x) stack store

/-- The first clause for an operation.  The plan of the handler decides; without one the name does. -/
def clauseFor? (s : Setting) (handle : ExprId) (clauses : List Clause) (op : OpRef) : Option (Clause × ResumeKind) :=
  match s.analysis.handler? handle with
  | some plan =>
    clauses.zipIdx.findSome? fun (c, i) =>
      ((plan.clause? i).filter (·.op == op)).map fun p => (c, p.kind)
  | none =>
    (s.program.op? op).bind fun decl =>
      (clauses.find? fun c => c.head.effect == op.effect && c.head.op == decl.name).map fun c => (c, decl.kind)

/-- Takes a request past a construct, or answers it there. -/
def raise (s : Setting) (op : OpRef) (args : List Value) (rest stack : List Pending) (store : Store) : Pending → Step
  | .call (some frame) => .of (.request op args (.call none :: rest)) stack (store.pin frame)
  | .clause handle kind (some frame) =>
    .of (.request op args (.clause handle kind none :: rest)) stack (store.pin frame)
  | .guard handle clauses frame =>
    match s.clauseFor? handle clauses op with
    | none => .of (.request op args (.guard handle clauses frame :: rest)) stack store
    | some (c, kind) =>
      let k : ContinuationId := ⟨store.continuations.size⟩
      let store := store.pin frame
      let store := { store with continuations := store.continuations.push { handle, clauses, frame, rest, kind } }
      let (inner, store) := store.push s.recycle (some frame) (c.head.continuation :: c.head.params)
        (.callable (.continuation k) :: args)
      .of (.eval c.body inner) (.clause handle kind (some inner) :: stack) store
  | p => .of (.request op args (p :: rest)) stack store

def step (s : Setting) (st : State) : Step :=
  match st.control, st.stack with
  | .eval e frame, stack => s.eval e frame stack st.store
  | c, [] => .done c st.store
  | .value v, p :: stack => s.give v stack st.store p
  | .exit x, p :: stack => leave x stack st.store p
  | .request op args rest, p :: stack => s.raise op args rest stack st.store p

end Setting

end Effectful.Interp
