import Effectful.Proofs.HandledRun
import Effectful.Proofs.Lifting
/-!
# Constant handlers and the host

The function `h(xs) = handle f(xs) { op(ys) k => k(c) }`, added to a program
(`FnDecl.underConstant`), does what `f` does when the host answers `op` with `c`: it gives the same
value, and the other operations reach the host in the same order with the same arguments
(`run_underConstant_iff`).  This holds for both kinds of operations.

An added function changes nothing for the others: a handler answers the operations that it answered
before, since the rows that inference finds decide nothing about that (`clauseFor?_withFunction`).
-/

namespace Effectful

open List

/-! ### The handler -/

namespace FnDecl

/-- The call of `f` with the parameters of the function around it. -/
def guardedCall (f : FnDecl) (node : Nat) : Expr :=
  .node ⟨node + 1⟩
    (.call (.node ⟨node + 2⟩ (.fn f.id) (.fn f.paramTys f.ret) {})
      ((List.range f.params.length).map fun i =>
        .node ⟨node + 6 + i⟩ (.var ⟨i⟩) (f.paramTys.getD i .unit) {}))
    f.ret {}

def constantClause (f : FnDecl) (op : OpRef) (decl : OpDecl) (l : Literal) (node : Nat) : Clause :=
  let continuation : LocalId := ⟨f.params.length + decl.params.length⟩
  .mk
    { effect := op.effect
      op := decl.name
      annotations := none
      params := (List.range decl.params.length).map fun i => ⟨f.params.length + i⟩
      continuation
      span := {} }
    (.node ⟨node + 3⟩
      (.call (.node ⟨node + 4⟩ (.var continuation) (.continuation decl.ret f.ret) {})
        [.node ⟨node + 5⟩ (.literal l) decl.ret {}])
      f.ret {})

/-- The function that calls `f` under a handler which answers an operation with a constant.  Its
nodes are numbered from `node` on. -/
def underConstant (f : FnDecl) (op : OpRef) (decl : OpDecl) (l : Literal) (id : DefId)
    (name : String) (node : Nat) : FnDecl where
  id := id
  name := name
  params := (List.range f.params.length).map LocalId.mk
  ret := f.ret
  locals := f.params.map (fun x => ⟨f.localName x, f.localTy x⟩) ++ decl.params.map (⟨"y", ·⟩) ++
    [⟨"k", .continuation decl.ret f.ret⟩]
  body := .node ⟨node⟩ (.handle (f.guardedCall node) [f.constantClause op decl l node] none) f.ret
    {}

end FnDecl

/-- Code that performs nothing has no instances of an operation. -/
theorem Expr.instancesOf_eq_nil {e : Expr}
    (h : ∀ x ∈ e.walk, ∀ o args typeArgs, x.form ≠ .perform o args typeArgs) (op : OpRef) :
    e.instancesOf op = [] := by
  rw [Expr.instancesOf]
  generalize e.walk = xs at h
  induction xs with
  | nil => rfl
  | cons x xs ih =>
    obtain ⟨hx, hxs⟩ := forall_mem_cons.mp h
    rw [foldl_cons]
    split
    · rename_i o args typeArgs hform
      exact absurd hform (hx o args typeArgs)
    · exact ih hxs

def Program.withFunction (p : Program) (f : FnDecl) : Program :=
  { p with functions := p.functions ++ [f] }

namespace Program

variable {p : Program} {h : FnDecl}

theorem mem_nodes_withFunction {x : Expr} : x ∈ (p.withFunction h).nodes ↔ x ∈ p.nodes ∨
    x ∈ h.body.walk := by
  simp [withFunction, nodes]

theorem DistinctNodes.of_withFunction (hp : (p.withFunction h).DistinctNodes) :
    p.DistinctNodes := by
  rw [DistinctNodes, withFunction, nodes, flatMap_append, map_append] at hp
  exact hp.of_append_left

theorem function?_withFunction_of_ne {d : DefId} (hd : d ≠ h.id) :
    (p.withFunction h).function? d = p.function? d := by
  have : (h.id == d) = false := beq_false_of_ne hd.symm
  simp [function?, withFunction, find?_append, this]

theorem function?_withFunction_self (hp : (p.withFunction h).DistinctFunctions) :
    (p.withFunction h).function? h.id = some h :=
  hp.function? (mem_append_right _ (mem_singleton_self h))

/-! ### Which operations a handler answers -/

/-- The operation that a clause answers and its kind.  They do not depend on rows or functions. -/
theorem plan_withFunction (cl : Clause) (guarded : Expr) (ty : Ty) (row row' : Row) :
    (cl.plan (p.withFunction h) guarded ty row').1.map (fun q => (q.op, q.kind)) =
      (cl.plan p guarded ty row).1.map fun q => (q.op, q.kind) := by
  have hresolve : cl.head.resolve (p.withFunction h) = cl.head.resolve p := rfl
  simp only [Clause.plan, hresolve]
  cases cl.head.resolve p with
  | error problem => rfl
  | ok resolved =>
    dsimp only
    split <;> rfl

/-- The only operation of a name. -/
theorem opsNamed_eq_singleton {e : EffectDecl} (hnames : (e.ops.map (·.name)).Nodup) {i : Nat}
    {decl : OpDecl} (hi : e.ops[i]? = some decl) : e.opsNamed decl.name = [(i, decl)] := by
  suffices ∀ (ops : List OpDecl) (start i : Nat), (ops.map (·.name)).Nodup → ops[i]? = some decl →
      (ops.zipIdx start).filter (·.1.name == decl.name) = [(decl, start + i)] by
    rw [EffectDecl.opsNamed, this e.ops 0 i hnames hi, map_singleton, Nat.zero_add]
  intro ops
  induction ops with
  | nil => simp
  | cons op ops ih =>
    intro start i hnames hi
    rw [map_cons, nodup_cons] at hnames
    rw [zipIdx_cons]
    cases i with
    | zero =>
      rw [getElem?_cons_zero, Option.some.injEq] at hi
      subst hi
      have hrest : (ops.zipIdx (start + 1)).filter (·.1.name == op.name) = [] := by
        rw [filter_eq_nil_iff]
        rintro ⟨other, j⟩ hmem heq
        have hother : other ∈ ops := (of_mem_zip (zipIdx_eq_zip_range' ▸ hmem)).1
        exact hnames.1 (mem_map.mpr ⟨other, hother, eq_of_beq heq⟩)
      rw [filter_cons_of_pos (by simp), hrest, Nat.add_zero]
    | succ i =>
      rw [getElem?_cons_succ] at hi
      have hne : op.name ≠ decl.name := fun heq =>
        hnames.1 (heq ▸ mem_map.mpr ⟨decl, mem_of_getElem? hi, rfl⟩)
      rw [filter_cons_of_neg (by simpa using hne), ih (start + 1) i hnames.2 hi, Nat.add_right_comm,
        Nat.add_assoc]

/-- The clause of a constant handler answers its operation. -/
theorem plan_constantClause {f : FnDecl} {op : OpRef} {decl : OpDecl} (hop : p.op? op = some decl)
    (hnames : ∀ e ∈ p.effects, (e.ops.map (·.name)).Nodup) (l : Literal) (node : Nat) (ty : Ty)
    (row : Row) :
    ((f.constantClause op decl l node).plan p (f.guardedCall node) ty row).1.map
      (fun q => (q.op, q.kind)) = some (op, decl.kind) := by
  obtain ⟨e, he, hi⟩ := op?_eq_some_iff.mp hop
  have hresolve : (f.constantClause op decl l node).head.resolve p = .ok (op, decl) := by
    have hchoose : (f.constantClause op decl l node).head.chooseOverload e
        (e.name ++ "." ++ decl.name) = .ok (op.index, decl) := by
      rw [ClauseHead.chooseOverload]
      simp only [FnDecl.constantClause, Clause.head]
      rw [opsNamed_eq_singleton (hnames e (mem_of_find?_eq_some he)) hi]
    simp only [ClauseHead.resolve, FnDecl.constantClause, Clause.head, he] at hchoose ⊢
    simp [hchoose, bind, Except.bind]
  -- the guarded call performs nothing itself, so there are no instances to choose from
  have hinstances : (f.guardedCall node).instancesOf op = [] := by
    refine Expr.instancesOf_eq_nil ?_ op
    rw [Expr.forall_walk_iff]
    refine ⟨by simp [FnDecl.guardedCall], fun c hc => ?_⟩
    rw [Expr.forall_walk_iff]
    simp only [FnDecl.guardedCall, Expr.form, Form.children, mem_cons, mem_map] at hc
    obtain rfl | ⟨i, -, rfl⟩ := hc <;> simp [Form.children]
  simp only [Clause.plan, hresolve, hinstances, ite_self]
  rfl

end Program

/-- The plan of a handler has the plans of its clauses, whatever the rows. -/
theorem Expr.clause?_handlerPlan (c : InferenceContext) (e body : Expr) (clauses : List Clause)
    (finalizer : Option Expr) (i : Nat) :
    ∃ row, (e.handlerPlan c body clauses finalizer).1.clause? i =
      (clauses[i]?).bind fun cl => (cl.plan c.program body e.ty row).1 :=
  ⟨_, e.clause?_handlerPlan_eq c body clauses finalizer i⟩

namespace Interp

open StateTransition

variable {p : Program} {f : FnDecl} {op : OpRef} {decl : OpDecl} {l : Literal} {id : DefId}
  {name : String} {node : Nat}

def Setting.analyzed (p : Program) (exhaustive recycle : Bool) : Setting :=
  ⟨p, p.analyze exhaustive, recycle⟩

/-- The clauses of a handler answer what its plan says. -/
theorem Setting.clauseFor?_eq_of_plan {s s' : Setting} {handle : ExprId} {plan plan' : HandlerPlan}
    (hplan : s.analysis.handler? handle = some plan)
    (hplan' : s'.analysis.handler? handle = some plan')
    (hsame : ∀ i, (plan'.clause? i).map (fun q => (q.op, q.kind)) = (plan.clause? i).map
      fun q => (q.op, q.kind)) (clauses : List Clause) (op : OpRef) :
      s'.clauseFor? handle clauses op = s.clauseFor? handle clauses op := by
  have hfilter (q : Option ClausePlan) (cl : Clause) :
      ((q.filter (·.op == op)).map fun q => (cl, q.kind)) =
        ((q.map fun q => (q.op, q.kind)).filter (·.1 == op)).map fun q => (cl, q.2) := by
    cases q with
    | none => rfl
    | some q => cases hop : q.op == op <;> simp [Option.filter, hop]
  simp only [Setting.clauseFor?, hplan, hplan', hfilter, hsame]

/-- A handler answers the same operations in a program with a further function. -/
theorem clauseFor?_withFunction {h : FnDecl} (hp : (p.withFunction h).DistinctNodes)
    (exhaustive recycle recycle' : Bool) {x body : Expr} {clauses : List Clause}
    {finalizer : Option Expr} (hx : x ∈ p.nodes) (hform : x.form = .handle body clauses finalizer)
    (op : OpRef) :
    (Setting.analyzed (p.withFunction h) exhaustive recycle').clauseFor? x.id clauses op =
      (Setting.analyzed p exhaustive recycle).clauseFor? x.id clauses op := by
  have hx' : x ∈ (p.withFunction h).nodes := Program.mem_nodes_withFunction.mpr (.inl hx)
  refine Setting.clauseFor?_eq_of_plan (Program.handler?_analyze hp.of_withFunction hx hform)
    (Program.handler?_analyze hp hx' hform) (fun i => ?_) clauses op
  obtain ⟨row, hrow⟩ := x.clause?_handlerPlan (p.finalContext exhaustive) body clauses finalizer i
  obtain ⟨row', hrow'⟩ := x.clause?_handlerPlan ((p.withFunction h).finalContext exhaustive) body
    clauses finalizer i
  rw [hrow, hrow']
  cases clauses[i]? with
  | none => rfl
  | some cl => exact Program.plan_withFunction cl body x.ty row row'

/-- The clause of the added handler answers its operation and no other. -/
theorem constantClause_underConstant (hop : p.op? op = some decl)
    (hnames : ∀ e ∈ p.effects, (e.ops.map (·.name)).Nodup)
    (hp : (p.withFunction (f.underConstant op decl l id name node)).DistinctNodes)
    (exhaustive recycle : Bool) :
    Sharing.ConstantClause
      (Setting.analyzed (p.withFunction (f.underConstant op decl l id name node)) exhaustive
        recycle) ⟨node⟩
      (f.constantClause op decl l node) op decl.kind (.ofLiteral decl.ret l) where
  clauseFor? o := by
    set h := f.underConstant op decl l id name node
    have hx : h.body ∈ (p.withFunction h).nodes :=
      Program.mem_nodes_withFunction.mpr (.inr h.body.self_mem_walk)
    have hplan : ((p.withFunction h).analyze exhaustive).handler? ⟨node⟩ = _ :=
      Program.handler?_analyze hp hx rfl
    obtain ⟨row, hrow⟩ := h.body.clause?_handlerPlan ((p.withFunction h).finalContext exhaustive)
      (f.guardedCall node) [f.constantClause op decl l node] none 0
    have hmap := Program.plan_constantClause (f := f)
      (show (p.withFunction h).op? op = some decl from hop) hnames l node h.body.ty row
    obtain ⟨q, hq, hpair⟩ := Option.map_eq_some_iff.mp hmap
    obtain ⟨rfl, hkind⟩ := Prod.mk.inj hpair
    have hclause : (h.body.handlerPlan ((p.withFunction h).finalContext exhaustive)
        (f.guardedCall node) [f.constantClause q.op decl l node] none).1.clause? 0 = some q := by
      rw [hrow]
      exact hq
    simp only [Setting.clauseFor?, Setting.analyzed, hplan]
    simp only [zipIdx_cons, zipIdx_nil, findSome?_cons, findSome?_nil, hclause, Option.filter_some,
      beq_iff_eq]
    by_cases ho : o = q.op
    · simp [ho, hkind]
    · simp [ho, Ne.symm ho]
  not_mem := by
    simp only [FnDecl.constantClause, Clause.head, mem_map, mem_range, LocalId.mk.injEq]
    omega
  body := ⟨_, _, l, rfl, rfl, rfl, rfl⟩

/-! ### The start of the runs -/

/-- Operands that are variables are read in order. -/
theorem Setting.reaches_operands {σ : Type} (s : Setting)
    (host : σ → Request → Except EvalError Value × σ) (state : σ) {frame : FrameId} {store : Store}
    {es : List Expr} {vs : List Value}
    (h : List.Forall₂ (fun e v => ∃ t, e.form = .var t ∧ store.frames.read? frame t = some v) es vs)
    (done : List Value) (use : OperandUse) (stack : List Pending) :
    Reaches (s.advance host) (state, s.operands done es frame use stack store)
      (state, s.operands (vs.reverse ++ done) [] frame use stack store) := by
  induction h generalizing done with
  | nil => exact .refl
  | @cons e v es vs hev _ ih =>
    obtain ⟨t, hform, hread⟩ := hev
    have hvar (stack : List Pending) : s.step ⟨.eval e frame, stack, store⟩ = .of (.value v) stack
        store := by
      simp only [step, eval, hform, hread]
    rw [reverse_cons, append_assoc, singleton_append]
    exact reaches_next (hvar _) (reaches_next rfl (ih (v :: done)))

/-- The function with the handler calls the function below its guard. -/
theorem reaches_guardedCall {σ : Type} (s : Setting)
    (host : σ → Request → Except EvalError Value × σ) (state : σ) {frame : FrameId}
    {store store' : Store} (hs : store.frames.Sound) {args : List Value}
    (hlength : f.params.length = args.length) {recycle : Bool}
    (hpush : store.push recycle none (f.underConstant op decl l id name node).params args =
      (frame, store')) (stack : List Pending) :
    Reaches (s.advance host)
      (state, .of (.eval (f.underConstant op decl l id name node).body frame) stack store')
      (state, s.callFn f.id args (.guard ⟨node⟩ [f.constantClause op decl l node] frame :: stack)
        store') := by
  have henv := (Store.env_push hs hpush).1
  have hread (i : Nat) (v : Value) (hv : args[i]? = some v) : store'.frames.read? frame
      ⟨i⟩ = some v := by
    refine Frames.read?_of_env ?_
    have hi : i < args.length := (List.getElem?_eq_some_iff.mp hv).1
    rw [henv]
    refine Frames.ofArgs_of_getElem? ?_ hv fun j hj hget => ?_
    · simp [FnDecl.underConstant, hlength, hi]
    · simp only [FnDecl.underConstant, getElem?_map, Option.map_eq_some_iff,
        LocalId.mk.injEq] at hget
      obtain ⟨k, hk, rfl⟩ := hget
      have := (List.getElem?_eq_some_iff.mp hk).2
      rw [getElem_range] at this
      omega
  have hvars : List.Forall₂ (fun e v => ∃ t, e.form = .var t ∧ store'.frames.read? frame t = some v)
      ((List.range f.params.length).map fun i =>
        Expr.node ⟨node + 6 + i⟩ (.var ⟨i⟩) (f.paramTys.getD i .unit) {}) args := by
    rw [forall₂_iff_get]
    refine ⟨by simp [hlength], fun i hi hi' => ⟨⟨i⟩, by simp, ?_⟩⟩
    exact hread i _ (by simp)
  have hoperands := s.reaches_operands host state hvars [] (.apply (.callable (.fn f.id)))
    (.guard ⟨node⟩ [f.constantClause op decl l node] frame :: stack)
  rw [append_nil, Setting.operands, reverse_reverse] at hoperands
  exact Setting.reaches_next rfl <| Setting.reaches_next rfl <| Setting.reaches_next rfl <|
    Setting.reaches_next rfl hoperands

/-- The added function is not part of what the two programs share. -/
theorem agrees_withFunction {h : FnDecl} (hp : (p.withFunction h).DistinctNodes)
    (hid : ∀ x ∈ p.nodes, x.form ≠ .fn h.id) (exhaustive recycle recycle' : Bool) :
    Sharing.Agrees ⟨.analyzed p exhaustive recycle, .analyzed (p.withFunction h) exhaustive
      recycle', (· ≠ h.id)⟩ where
  function?_eq d hd := Program.function?_withFunction_of_ne hd
  body d g _ hg x hx := by
    have hmem : x ∈ p.nodes := Program.mem_nodes (mem_of_find?_eq_some hg) hx
    cases hform : x.form with
    | fn target =>
      rintro rfl
      exact hid x hmem hform
    | handle body clauses finalizer =>
      exact fun op => clauseFor?_withFunction hp exhaustive recycle recycle' hmem hform op
    | _ => trivial

/-- A call that gives a value: the value and the requests are as the host sees them. -/
def Setting.Returns {σ : Type} (s : Setting)
    (host : HostState σ → Request → Except EvalError Value × HostState σ) (own : σ) (name : String)
    (args : List Value) (own' : σ) (requests : List Request) (w : Value) : Prop :=
  ∃ v handles, (∃ fuel store, s.run host 0 fuel ⟨own, [], []⟩ {} name args =
    some (⟨.ok v, store⟩, ⟨own', requests, handles⟩)) ∧ v.rename .forget = w

/-- The runs side by side at their starts: the handled one has to get to the call first. -/
theorem exists_linked_start {σ : Type} (answers : σ → Request → Except EvalError Value × σ)
    (own : σ) (hf : p.functionNamed? f.name = some f)
    (hfunctions : (p.withFunction (f.underConstant op decl l id name node)).DistinctFunctions)
    (hnodes : (p.withFunction (f.underConstant op decl l id name node)).DistinctNodes)
    (hname : p.functionNamed? name = none) (hid : ∀ x ∈ p.nodes, x.form ≠ .fn id)
    {args : List Value} (hargs : ∀ v ∈ args, ∀ t ∈ v.callables, t.isPortable = true ∧ t ≠ .fn id)
    (exhaustive recycle recycle' : Bool) :
    let c : Sharing := ⟨.analyzed p exhaustive recycle,
      .analyzed (p.withFunction (f.underConstant op decl l id name node)) exhaustive
      recycle', (· ≠ id)⟩
    ∃ b, Sharing.Linked c answers ⟨node⟩ (f.constantClause op decl l node) op decl.kind
      (.ofLiteral decl.ret l)
        (⟨own, [], []⟩, c.left.startCall {} f.name args) b ∧
      Reaches (c.right.advance (HostState.byHandles answers))
      (⟨own, [], []⟩, c.right.startCall {} name args) b := by
  intro c
  set h := f.underConstant op decl l id name node
  have hmem : f ∈ p.functions := mem_of_find?_eq_some hf
  have hne : f.id ≠ id := by
    rintro rfl
    have hnodup := hfunctions
    rw [Program.DistinctFunctions, Program.withFunction, map_append, nodup_append] at hnodup
    exact hnodup.2.2 f.id (mem_map_of_mem hmem) h.id (by simp) rfl
  have hright : c.right.program.function? f.id = some f :=
    hfunctions.function? (mem_append_left _ hmem)
  have hleft : c.left.program.function? f.id = some f :=
    (Program.function?_withFunction_of_ne hne).symm.trans hright
  have hnamed : c.right.program.functionNamed? name = some h := by
    have hlast : h.name = name := rfl
    have hnone : p.functions.find? (·.name == name) = none := hname
    change (p.functions ++ [h]).find? (·.name == name) = some h
    rw [find?_append, hnone]
    simp [hlast]
  have hself : c.right.program.function? h.id = some h :=
    Program.function?_withFunction_self hfunctions
  have hstart : c.left.startCall {} f.name args = c.left.callFn f.id args [] {} := by
    rw [Setting.startCall, show c.left.program.functionNamed? f.name = some f from hf]
  have hstart' : c.right.startCall {} name args = c.right.callFn h.id args [] {} := by
    rw [Setting.startCall, hnamed]
  have hparams : h.params.length = f.params.length := by simp [h, FnDecl.underConstant]
  rw [hstart, hstart', Setting.callFn, hleft, Setting.callFn, hself]
  dsimp only
  rw [hparams]
  by_cases hlength : f.params.length = args.length
  · rw [if_neg (not_not.mpr hlength), if_neg (not_not.mpr hlength)]
    -- the frame of the handler, then one frame for the call on each side
    generalize hF : Store.push {} c.right.recycle none h.params args = pushedF
    obtain ⟨F, store₀⟩ := pushedF
    generalize hx : Store.push {} c.left.recycle none f.params args = pushed
    obtain ⟨x, store₁⟩ := pushed
    generalize hx' : store₀.push c.right.recycle none f.params args = pushed'
    obtain ⟨x', store₁'⟩ := pushed'
    have hxr : store₀.push c.right.recycle (Option.map Renaming.refl.frame none) f.params
        (args.map (·.rename .refl)) = (x', store₁') := by
      simpa [Value.rename_refl] using hx'
    have hground := (Sharing.ground_empty c).enter_right c.right.recycle (by simp) h.params args hF
    obtain ⟨ρ, -, hxx, -, hground, huse, howned, -, -⟩ :=
      hground.enter c.left.recycle c.right.recycle none (by simp)
      f.params (fun v hv t ht => Sharing.KeepsCallable.of_isPortable (hargs v hv t ht).1
        fun d hd => fun heq => (hargs v hv t ht).2 (heq ▸ hd)) hx hxr
    have hcall := hground.push (q := .call (some x))
      ⟨by simp [Pending.code], by simp [Pending.held], by simp [Pending.use?], by simp⟩
      (by simp [Pending.frame?])
      (by rintro y hy; obtain rfl := Option.some.inj hy; exact ⟨huse, howned⟩)
    have hbody : c.Shares f.body :=
      (agrees_withFunction hnodes hid exhaustive recycle recycle').body f.id f hne hleft
    have hlinked : Sharing.Linked c answers ⟨node⟩ (f.constantClause op decl l node) op decl.kind
        (.ofLiteral decl.ret l) (⟨own, [], []⟩, .of (.eval f.body x) ([] ++ [.call (some x)])
        store₁) _ :=
      .running hcall ⟨hbody, .inr rfl⟩
      ⟨.call (some F), .inl rfl, by simp [ownedFrames, Pending.owned?]⟩
    refine ⟨_, hlinked, ?_⟩
    have hreach := reaches_guardedCall c.right (HostState.byHandles answers)
      (⟨own, [], []⟩ : HostState σ) Frames.sound_empty hlength hF [.call (some F)]
    rw [Setting.callFn, hright] at hreach
    dsimp only at hreach
    rw [if_neg (not_not.mpr hlength), hx'] at hreach
    rw [← hxx] at hreach
    exact hreach
  · rw [if_pos hlength, if_pos hlength]
    exact ⟨_, .failed, .refl⟩

/-- **A constant handler does what the host does that answers with the constant.** The function that
calls `f` under the handler gives the same value as `f`, and the requests for other operations are
the same. -/
theorem run_underConstant_iff {σ : Type} (exhaustive recycle recycle' : Bool)
    (hf : p.functionNamed? f.name = some f) (hop : p.op? op = some decl)
    (hnames : ∀ e ∈ p.effects, (e.ops.map (·.name)).Nodup)
    (hfunctions : (p.withFunction (f.underConstant op decl l id name node)).DistinctFunctions)
    (hnodes : (p.withFunction (f.underConstant op decl l id name node)).DistinctNodes)
    (hname : p.functionNamed? name = none) (hid : ∀ x ∈ p.nodes, x.form ≠ .fn id)
    (answers : σ → Request → Except EvalError Value × σ)
    (hanswers : ∀ own r v own', answers own r = (.ok v, own') → .fn id ∉ v.callables)
    {args : List Value} (hargs : ∀ v ∈ args, ∀ t ∈ v.callables, t.isPortable = true ∧ t ≠ .fn id)
    (own own' : σ) (requests : List Request) (w : Value) :
    (Setting.analyzed p exhaustive recycle).Returns
        (constantly op (.ofLiteral decl.ret l) (HostState.byHandles answers)) own f.name args own'
        requests w ↔
      (Setting.analyzed (p.withFunction (f.underConstant op decl l id name node)) exhaustive
        recycle').Returns (HostState.byHandles answers) own name args own' requests w := by
  obtain ⟨b, hlinked, hreach⟩ :=
    exists_linked_start answers own hf hfunctions hnodes hname hid hargs exhaustive recycle recycle'
  have hknown (own : σ) (r : Request) (v : Value) (own' : σ) (h : answers own r = (.ok v, own'))
      (d : DefId) (hd : .fn d ∈ v.callables) : d ≠ id := by
    rintro rfl
    exact hanswers own r v own' h hd
  have hresp := Sharing.Linked.respects (agrees_withFunction hnodes hid exhaustive recycle recycle')
    rfl (constantClause_underConstant hop hnames hnodes exhaustive recycle')
      (Option.isSome_iff_exists.mpr ⟨decl, hop⟩)
    (Value.isFirstOrder_ofLiteral _ _) hknown
  have hiff := Sharing.Linked.reaches_iff hresp hlinked own' requests w
  simp only [Setting.Returns, Setting.run_iff_reaches]
  constructor
  · rintro ⟨v, handles, ⟨last, hlast, hv⟩, hw⟩
    obtain ⟨handles', last', v', hlast', hv', hw'⟩ := hiff.mp ⟨handles, last, v, hlast, hv, hw⟩
    exact ⟨v', handles', ⟨last', hreach.trans hlast', hv'⟩, hw'⟩
  · rintro ⟨v, handles, ⟨last, hlast, hv⟩, hw⟩
    obtain ⟨handles', last', v', hlast', hv', hw'⟩ :=
      hiff.mpr ⟨handles, last, v, (Setting.reaches_iff_of_reaches hreach hv).mp hlast, hv, hw⟩
    exact ⟨v', handles', ⟨last', hlast', hv'⟩, hw'⟩

/-- A function that passes what it is told by `ask` on to `tell`. -/
def chat : FnDecl where
  id := ⟨1⟩
  name := "chat"
  params := [⟨0⟩]
  ret := .i32
  locals := [⟨"x", .i32⟩]
  body := .i32 0 (.binary .add
    (.i32 1 (.perform ⟨⟨0⟩, 1⟩
    [.i32 2 (.binary .add (.i32 3 (.perform ⟨⟨0⟩, 0⟩ [] []))
      (.i32 4 (.var ⟨0⟩)))] []))
    (.i32 5 (.perform ⟨⟨0⟩, 0⟩ [] [])))

def chatProgram : Program where
  effects := [{ id := ⟨0⟩, name := "Talk", ops := [⟨"ask", 0, [], .i32, .tail⟩,
    ⟨"tell", 0, [.i32], .i32, .resume⟩] }]
  functions := [chat]

/-- With `ask` answered by the constant 4 and `tell` by the host with 10, `chat` gives 14 for 1
after it has told 5. -/
theorem run_underConstant_iff_chat :
    let host := HostState.byHandles fun (next : Int32) (_ : Request) => (.ok (.i32 next), next + 1)
    (Setting.analyzed (chatProgram.withFunction
        (chat.underConstant ⟨⟨0⟩, 0⟩ ⟨"ask", 0, [], .i32, .tail⟩ (.int 4) ⟨2⟩ "handled" 6)) false
        true).Returns
      host 10 "handled" [.i32 1] 11 [⟨"Talk", ⟨⟨0⟩, 1⟩, "Talk.tell", .resume, [.i32 5], ⟨0⟩⟩]
      (.i32 14) := by
  refine (run_underConstant_iff (p := chatProgram) (f := chat) false true true rfl rfl (by decide)
    (by decide)
    (by decide) rfl ?_ _ ?_ ?_ 10 11 _ _).mp ⟨.i32 14, [], ⟨100, _, rfl⟩, rfl⟩
  · simp [Program.nodes, chatProgram, chat, Expr.walk, Expr.walkOnto, Form.walkPartsOnto,
      walkAllOnto]
  · rintro own r v own' h
    cases h
    simp [Value.callables]
  · simp [Value.callables]

end Interp

end Effectful
