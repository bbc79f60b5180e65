import Effectful.Proofs.LiveRounds
import Effectful.Proofs.UnitOrigin
/-!
# Paths through a unit

What is left to do in a unit is a list of tasks.  `LivenessContext.Moves` says how control goes on:
operands are evaluated from left to right, each branch and each arm may be taken, loops go round any
number of times, `break` and `continue` go to the next loop around them, and `return` and a tail
resumption leave everything behind.  When an operand is done, what the operands in front of it read
is read once more.  A declaration without a value ends the old value of its local.

`LivenessContext.rest` reads the result of the analysis off such a list.  A move adds nothing to it
(`LivenessContext.Moves.rest_le`), so all that is read before it is written on some path is live in
front of the path (`LivenessContext.ReadsFirst.mem_live`), and the notes of the analysis are what is
live behind the points of the unit (`LoweringUnit.Pending.note_mem`).
-/

namespace Effectful

open List

attribute [local simp] Form.children Form.live Liveness.andThen

variable {es : List Expr} {x : Expr}

/-! ### Tasks -/

/-- Something that is left to do. -/
inductive Todo where
  | eval (e : Expr)
  | read (ls : List LocalId)
  | write (l : LocalId)
  /-- One of two branches; the condition has been evaluated. -/
  | either (onTrue : Expr) (onFalse : Option Expr)
  | oneOf (arms : List Arm)
  /-- The body of a loop is done. -/
  | round (loop : Expr)
  /-- The condition of a `while` loop has been evaluated. -/
  | test (loop : Expr)
  | breakLoop
  | continueLoop
  /-- The unit is left.  A drive unit goes back to its dispatch. -/
  | leave

namespace Todo

/-- Operands behind others that read the locals in `held`. -/
def operands (held : LocalSet) : List Expr → List Todo
  | [] => []
  | e :: es => .eval e :: .read held :: operands (LocalSet.union held e.reads) es

def stmt : Stmt → List Todo
  | .bind target (some e) => [.eval e, .write target]
  | .bind target none => [.write target]
  | .expr e => [.eval e]

def arm (a : Arm) : List Todo := a.pattern.declared?.toList.map .write ++ [.eval a.body]

/-- The tasks that follow the loop around them. -/
def afterLoop : List Todo → List Todo
  | [] => []
  | .round _ :: k => k
  | _ :: k => afterLoop k

/-- The tasks from the next round of the loop around them on. -/
def nextRound : List Todo → List Todo
  | [] => []
  | .round loop :: k => .round loop :: k
  | _ :: k => nextRound k

theorem afterLoop_suffix (k : List Todo) : afterLoop k <:+ k := by
  induction k with
  | nil => exact suffix_rfl
  | cons t k ih =>
    cases t with
    | round loop => exact suffix_cons _ _
    | _ => exact ih.trans (suffix_cons _ _)

theorem nextRound_suffix (k : List Todo) : nextRound k <:+ k := by
  induction k with
  | nil => exact suffix_rfl
  | cons t k ih =>
    cases t with
    | round loop => exact suffix_rfl
    | _ => exact ih.trans (suffix_cons _ _)

end Todo

def Expr.todo (c : LivenessContext) (e : Expr) : List Todo :=
  match e.form with
  | .literal _ | .fn _ | .op _ _ | .intrinsic _ => []
  | .var l => [.read [l]]
  | .assign target value => [.eval value, .write target]
  | .unary _ operand => [.eval operand]
  | .field base _ => [.eval base]
  | .binary _ lhs rhs => Todo.operands [] [lhs, rhs]
  | .tuple items => Todo.operands [] items
  | .perform _ args _ => Todo.operands [] args
  | .call callee args =>
    Todo.operands [] (callee :: args) ++ if (c.transfer? callee).isSome then [.leave] else []
  | .block stmts tail => stmts.flatMap Todo.stmt ++ tail.toList.map .eval
  | .branch cond onTrue onFalse => [.eval cond, .either onTrue onFalse]
  | .select scrutinee arms => [.eval scrutinee, .oneOf arms]
  | .loop body => [.eval body, .round e]
  | .whileLoop cond _ => [.eval cond, .test e]
  | .breakLoop => [.breakLoop]
  | .continueLoop => [.continueLoop]
  | .ret value => value.toList.map .eval ++ [.leave]
  | .handle body _ _ =>
    match c.units.handle? e.id with
    | some h => [.read (h.bodyArgs ++ h.driveArgs)]
    | none => [.eval body]
  | .closure _ _ => [.read e.freeLocals]

namespace LivenessContext

variable {c : LivenessContext}

/-- How control goes on without reading or writing. -/
inductive Moves (c : LivenessContext) : List Todo → List Todo → Prop where
  | eval (e : Expr) (k : List Todo) : Moves c (.eval e :: k) (e.todo c ++ k)
  | onTrue (yes : Expr) (no : Option Expr) (k : List Todo) :
      Moves c (.either yes no :: k) (.eval yes :: k)
  | onFalse (yes : Expr) (no : Option Expr) (k : List Todo) :
      Moves c (.either yes no :: k) (no.toList.map .eval ++ k)
  | arm {arms : List Arm} {arm : Arm} (h : arm ∈ arms) (k : List Todo) :
      Moves c (.oneOf arms :: k) (Todo.arm arm ++ k)
  | missed {arms : List Arm} (h : arms.any (·.pattern.isIrrefutable) = false) (k : List Todo) :
      Moves c (.oneOf arms :: k) k
  | round (loop : Expr) (k : List Todo) : Moves c (.round loop :: k) (.eval loop :: k)
  | enter {loop cond body : Expr} (h : loop.form = .whileLoop cond body) (k : List Todo) :
    Moves c (.test loop :: k) (.eval body :: .round loop :: k)
  | exit (loop : Expr) (k : List Todo) : Moves c (.test loop :: k) k
  | breakLoop (k : List Todo) : Moves c (.breakLoop :: k) (Todo.afterLoop k)
  | continueLoop (k : List Todo) : Moves c (.continueLoop :: k) (Todo.nextRound k)
  | leave (k : List Todo) : Moves c (.leave :: k) [.read c.forced]

/-- On some path the local is read, and not written before. -/
inductive ReadsFirst (c : LivenessContext) (l : LocalId) : List Todo → Prop where
  | here {ls : List LocalId} (h : l ∈ ls) (k : List Todo) : ReadsFirst c l (.read ls :: k)
  | read (ls : List LocalId) {k : List Todo} (rest : ReadsFirst c l k) :
      ReadsFirst c l (.read ls :: k)
  | write {m : LocalId} (h : l ≠ m) {k : List Todo} (rest : ReadsFirst c l k) :
      ReadsFirst c l (.write m :: k)
  | move {k k' : List Todo} (h : c.Moves k k') (rest : ReadsFirst c l k') : ReadsFirst c l k

end LivenessContext

/-- What may be left to do in a unit.  Code that no path reaches counts as well: any task may be
skipped. -/
inductive LoweringUnit.Pending (u : LoweringUnit) (c : LivenessContext) : List Todo → Prop where
  | start {e : Expr} (h : e ∈ u.regions) :
      Pending u c (.eval e :: if u.isDrive then [.read c.forced] else [])
  | move {k k' : List Todo} (h : Pending u c k) (hmove : c.Moves k k') : Pending u c k'
  | skip {t : Todo} {k : List Todo} (h : Pending u c (t :: k)) : Pending u c k

/-! ### What the analysis says about tasks -/

/-- What is live in front of some tasks, where `break` and `continue` lead in front of them, and the
notes inside. -/
structure Rest where
  targets : LoopTargets := {}
  live : LocalSet := []
  notes : List (ExprId × LocalSet) := []

/-- An expression in front of the rest. -/
def Rest.before (r : Rest) (found : Liveness) : Rest :=
  { r with live := found.before, notes := found.after ++ r.notes }

/-- A task in front of the rest. -/
def Todo.live (c : LivenessContext) : Todo → Rest → Rest
  | .eval e, r => r.before (e.live c r.targets r.live)
  | .read ls, r => { r with live := LocalSet.union r.live ls }
  | .write l, r => { r with live := LocalSet.erase r.live l }
  | .either onTrue onFalse, r =>
    let yes := onTrue.live c r.targets r.live
    let no := match onFalse with
      | some e => e.live c r.targets r.live
      | none => ⟨r.live, []⟩
    r.before ⟨LocalSet.union yes.before no.before, no.after ++ yes.after⟩
  | .oneOf arms, r =>
    r.before (liveArms c arms r.targets r.live
      (if arms.any (·.pattern.isIrrefutable) then [] else r.live))
  | .round loop, r =>
    let found := loop.live c r.targets r.live
    { r.before found with targets := ⟨r.live, found.before⟩ }
  | .test loop, r =>
    let found := loop.live c r.targets r.live
    let inside := match loop.form with
      | .whileLoop _ body => (body.live c ⟨r.live, found.before⟩ found.before).before
      | _ => []
    r.before ⟨LocalSet.union inside r.live, found.after⟩
  | .breakLoop, r => { r with live := r.targets.onBreak }
  | .continueLoop, r => { r with live := r.targets.onContinue }
  | .leave, r => { r with live := c.forced }

def LivenessContext.rest (c : LivenessContext) (k : List Todo) : Rest := k.foldr (Todo.live c) {}

attribute [local simp] Rest.before Todo.live

section

variable {c : LivenessContext} {r : Rest} {l : LocalId} {k k' : List Todo} {ls : List LocalId}

theorem Todo.foldr_operands (held : LocalSet) (es : List Expr) :
    (operands held es).foldr (live c) r = r.before (liveOperands c es r.targets held r.live) := by
  induction es generalizing held with
  | nil => rfl
  | cons e es ih =>
    rw [operands, foldr_cons, foldr_cons, ih, liveOperands]
    simp [live]

theorem Todo.foldr_stmts (ss : List Stmt) :
    (ss.flatMap stmt).foldr (live c) r = r.before (liveStmts c ss r.targets r.live) := by
  induction ss with
  | nil => rfl
  | cons s ss ih =>
    rw [flatMap_cons, foldr_append, ih]
    match s with
    | .bind target (some e) => simp [stmt, live, liveStmts]
    | .bind target none => rfl
    | .expr e => simp [stmt, live, liveStmts]

end

/-- All that is live or noted in one rest is so in the other. -/
structure Rest.Le (r r' : Rest) : Prop where
  live : ∀ l ∈ r.live, l ∈ r'.live
  notes : ∀ note ∈ r.notes, note ∈ r'.notes

theorem Rest.le_refl (r : Rest) : r.Le r := ⟨fun _ h => h, fun _ h => h⟩

theorem Rest.before_le {r : Rest} {found found' : Liveness}
    (hlive : ∀ l ∈ found.before, l ∈ found'.before)
    (hnotes : ∀ note ∈ found.after, note ∈ found'.after) : (r.before found).Le (r.before found') :=
  ⟨hlive, fun note hn => mem_append.mpr ((mem_append.mp hn).imp_left (hnotes note))⟩

/-- All sets are sets of some locals. -/
structure Rest.Among (ls : List LocalId) (r : Rest) : Prop where
  targets : r.targets.Within (LocalSet.Among ls)
  live : LocalSet.Among ls r.live

/-- A context for code that mentions some locals only. -/
structure LivenessContext.Bounded (c : LivenessContext) (ls : List LocalId) : Prop where
  forced : LocalSet.Among ls c.forced
  bound : ls.length < c.bound

/-- The node mentions some locals only, and a tail resumption is given an atom. -/
structure Expr.Plain (c : LivenessContext) (ls : List LocalId) (x : Expr) : Prop where
  mentions : x.MentionsOnly c.units (· ∈ ls)
  transfer : ∀ callee args, x.form = .call callee args → (c.transfer? callee).isSome →
    ∀ e ∈ args, e.form.isAtom = true

section

variable {c : LivenessContext} {r : Rest} {l : LocalId} {k k' : List Todo} {ls : List LocalId}
  {targets : LoopTargets} {out : LocalSet}

/-! ### Tail resumptions -/

theorem Expr.live_of_isAtom {e : Expr} (h : e.form.isAtom = true) :
    (∀ l, l ∈ (e.live c targets out).before ↔ l ∈ out ∨ l ∈ e.reads) ∧
      (e.live c targets out).after = [] := by
  obtain ⟨id, form, ty, span⟩ := e
  cases form with
  | literal | fn | op | intrinsic => exact ⟨fun l => by simp [live, mem_reads, walk_eq], rfl⟩
  | var m => exact ⟨fun l => by simp [live, mem_reads, walk_eq, or_comm, eq_comm], rfl⟩
  | _ => cases h

theorem liveArgs_of_isAtom (h : ∀ e ∈ es, e.form.isAtom = true) :
    (∀ l, l ∈ (liveArgs c es targets out).before ↔ l ∈ out ∨ ∃ e ∈ es, l ∈ e.reads) ∧
      (liveArgs c es targets out).after = [] := by
  induction es with
  | nil => exact ⟨fun l => by simp [liveArgs], rfl⟩
  | cons e es ih =>
    rw [forall_mem_cons] at h
    obtain ⟨hmem, hnotes⟩ := ih h.2
    rw [liveArgs, Liveness.andThen, hnotes, append_nil]
    refine ⟨fun l => ?_, (Expr.live_of_isAtom h.1).2⟩
    rw [(Expr.live_of_isAtom h.1).1, hmem, exists_mem_cons_iff, or_assoc,
      or_comm (b := l ∈ e.reads)]

theorem liveOperands_of_isAtom (c : LivenessContext) (targets : LoopTargets) (out : LocalSet)
    (h : ∀ e ∈ es, e.form.isAtom = true) (held : LocalSet) :
    (∀ l ∈ (liveOperands c es targets held out).before, l ∈ out ∨ l ∈ held ∨
      ∃ e ∈ es, l ∈ e.reads) ∧ (liveOperands c es targets held out).after = [] := by
  induction es generalizing held with
  | nil => exact ⟨fun l hl => .inl hl, rfl⟩
  | cons e es ih =>
    rw [forall_mem_cons] at h
    obtain ⟨hmem, hnotes⟩ := ih h.2 (LocalSet.union held e.reads)
    rw [liveOperands, Liveness.andThen, hnotes, append_nil]
    refine ⟨fun l hl => ?_, (Expr.live_of_isAtom h.1).2⟩
    rw [(Expr.live_of_isAtom h.1).1, LocalSet.mem_union] at hl
    rw [exists_mem_cons_iff]
    have hlater := hmem l
    rw [LocalSet.mem_union] at hlater
    tauto

/-- The locals that a tail resumption reads. -/
theorem liveOperands_transfer {callee : Expr} {args : List Expr} {k : LocalId}
    (hcallee : callee.form = .var k) (hargs : ∀ e ∈ args, e.form.isAtom = true) :
    (∀ l ∈ (liveOperands c (callee :: args) targets [] out).before,
        l ∈ LocalSet.insert k (liveArgs c args targets out).before) ∧
      (liveOperands c (callee :: args) targets [] out).after = [] := by
  have hatom : callee.form.isAtom = true := by
    rw [hcallee]
    rfl
  obtain ⟨hmem, hnotes⟩ :=
    liveOperands_of_isAtom c targets out (forall_mem_cons.mpr ⟨hatom, hargs⟩) []
  refine ⟨fun l hl => ?_, hnotes⟩
  have hreads : l ∈ callee.reads → l = k := by
    intro hl
    obtain ⟨y, hy, hform⟩ := Expr.mem_reads.mp hl
    rw [Expr.walk_eq, hcallee, Form.children, flatMap_nil, mem_singleton] at hy
    rw [hy, hcallee] at hform
    exact (Form.var.inj hform).symm
  have hcase := hmem l hl
  rw [exists_mem_cons_iff] at hcase
  rw [LocalSet.mem_insert, (liveArgs_of_isAtom hargs).1]
  simp only [not_mem_nil, false_or] at hcase
  tauto

/-! ### One move -/

/-- What there is to do for an expression adds nothing to what the analysis says of the
expression. -/
theorem Expr.rest_todo_le (hc : c.Bounded ls) (hx : ∀ y ∈ x.walk, y.Plain c ls) (hr : r.Among ls) :
    ((x.todo c).foldr (Todo.live c) r).Le (Todo.live c (.eval x) r) := by
  have hown := hx x (self_mem_walk x)
  have hreads (e : Expr) : LocalSet.union [] e.reads = e.reads :=
    LocalSet.nil_union (LocalSet.ascending_ofList _)
  -- only loops need that the analysis came to its end: the last round then stands for all that
  -- follow
  have hsettles (round : LocalSet → Liveness)
      (hround : x.form.round? c r.targets r.live = some round) :=
    (settles_live hc.forced hc.bound (fun y hy => (hx y hy).mentions) hr.targets hr.live
    hround).stable
  obtain ⟨id, form, ty, span⟩ := x
  cases form with
  | literal | fn | op | intrinsic | var | assign | unary | field | breakLoop | continueLoop
  | closure =>
    exact Rest.le_refl _
  | binary operator lhs rhs =>
    show ((Todo.operands [] [lhs, rhs]).foldr (Todo.live c) r).Le _
    rw [Todo.foldr_operands]
    simp only [liveOperands, hreads, LocalSet.union_nil, Liveness.andThen, append_nil]
    exact Rest.le_refl _
  | tuple items =>
    show ((Todo.operands [] items).foldr (Todo.live c) r).Le _
    rw [Todo.foldr_operands]
    exact Rest.le_refl _
  | perform operation args typeArgs =>
    show ((Todo.operands [] args).foldr (Todo.live c) r).Le _
    rw [Todo.foldr_operands]
    exact Rest.before_le (fun l hl => hl) fun note hn => mem_append_left _ hn
  | call callee args =>
    cases htransfer : c.transfer? callee with
    | none =>
      have htodo : (Expr.node id (.call callee args) ty span).todo c = Todo.operands []
          (callee :: args) := by
        simp [todo, htransfer]
      rw [htodo, Todo.foldr_operands]
      have hlive : (Expr.node id (.call callee args) ty span).live c r.targets r.live =
          (liveOperands c (callee :: args) r.targets [] r.live).andThen [(id, r.live)] := by
        simp [live, htransfer, liveOperands, hreads, LocalSet.union_nil]
      rw [Todo.live, hlive]
      exact Rest.before_le (fun l hl => hl) fun note hn => mem_append_left _ hn
    | some k =>
      have htodo : (Expr.node id (.call callee args) ty span).todo c = Todo.operands []
          (callee :: args) ++ [.leave] := by
        simp [todo, htransfer]
      have hlive : (Expr.node id (.call callee args) ty span).live c r.targets r.live =
          ⟨LocalSet.insert k (liveArgs c args r.targets c.forced).before,
          (liveArgs c args r.targets c.forced).after⟩ := by
        simp [live, htransfer]
      rw [htodo, foldr_append, Todo.foldr_operands, Todo.live, hlive]
      have hargs := hown.transfer callee args rfl (by rw [htransfer]; rfl)
      obtain ⟨hmem, hnotes⟩ :=
        liveOperands_transfer (LivenessContext.form_of_transfer? htransfer) hargs
      refine Rest.before_le hmem fun note hn => ?_
      rw [show (liveOperands c (callee :: args) _ _ _).after = [] from hnotes] at hn
      cases hn
  | block stmts tail =>
    cases tail with
    | none =>
      show ((stmts.flatMap Todo.stmt ++ []).foldr (Todo.live c) r).Le _
      rw [append_nil, Todo.foldr_stmts]
      exact Rest.before_le (fun l hl => hl) fun note hn => mem_append_left _ hn
    | some e =>
      show ((stmts.flatMap Todo.stmt ++ [Todo.eval e]).foldr (Todo.live c) r).Le _
      rw [foldr_append, Todo.foldr_stmts]
      refine ⟨fun l hl => hl, fun note hn => ?_⟩
      simpa [live] using hn
  | branch cond onTrue onFalse =>
    refine ⟨?_, fun note hn => ?_⟩ <;> cases onFalse
    · exact fun l hl => hl
    · exact fun l hl => hl
    · simpa [todo, live] using hn
    · simpa [todo, live] using hn
  | select scrutinee arms =>
    refine ⟨fun l hl => hl, fun note hn => ?_⟩
    simpa [todo, live] using hn
  | loop body =>
    obtain ⟨hafter, hbefore⟩ := hsettles _ rfl
    refine ⟨hbefore, fun note hn => ?_⟩
    obtain hn | hn := mem_append.mp hn
    · exact mem_append_left _ (hafter ▸ hn)
    · exact hn
  | whileLoop cond body =>
    obtain ⟨hafter, hbefore⟩ := hsettles _ rfl
    refine ⟨hbefore, fun note hn => ?_⟩
    obtain hn | hn := mem_append.mp hn
    · exact mem_append_left _ (hafter ▸ mem_append_left _ hn)
    · exact hn
  | ret value =>
    cases value with
    | none => exact Rest.le_refl _
    | some e => exact Rest.le_refl _
  | handle body clauses finalizer =>
    cases hlifted : c.units.handle? id with
    | none =>
      simp only [todo, form, Expr.id, hlifted, Todo.live, live, Form.live]
      exact Rest.le_refl _
    | some h =>
      simp only [todo, form, Expr.id, hlifted, Todo.live, live, Form.live]
      refine ⟨fun l hl => ?_, fun note hn => mem_append_right _ hn⟩
      simpa [or_assoc] using hl

def Todo.exprs : Todo → List Expr
  | .eval e | .round e | .test e => [e]
  | .either onTrue onFalse => onTrue :: onFalse.toList
  | .oneOf arms => arms.map Arm.body
  | _ => []

/-- The locals that a task reads by itself. -/
def Todo.locals : Todo → List LocalId
  | .read ls => ls
  | _ => []

/-- A task whose code is plain and whose reads are of some locals only. -/
structure Todo.Fits (c : LivenessContext) (ls : List LocalId) (t : Todo) : Prop where
  exprs : ∀ e ∈ t.exprs, ∀ x ∈ e.walk, x.Plain c ls
  locals : ∀ l ∈ t.locals, l ∈ ls

namespace Todo

variable {t : Todo}

theorem subset_notes_live (t : Todo) (r : Rest) : r.notes ⊆ (t.live c r).notes := by
  cases t with
  | eval | either | oneOf | round | test => exact subset_append_right _ _
  | _ => exact List.Subset.refl _

theorem Fits.among (hc : c.Bounded ls) (ht : t.Fits c ls) (hr : r.Among ls) :
    (t.live c r).Among ls := by
  have hP := LocalSet.closed_among ls
  have hexpr (e : Expr) (he : e ∈ t.exprs) : e.LiveWithin c (LocalSet.Among ls) :=
    Expr.within_live hP hc.forced fun x hx => (ht.exprs e he x hx).mentions
  cases t with
  | eval e => exact ⟨hr.targets, (hexpr e mem_cons_self _ _ hr.targets hr.live).before⟩
  | read ls' => exact ⟨hr.targets, hP.union hr.live ht.locals⟩
  | write l => exact ⟨hr.targets, hP.erase hr.live⟩
  | either onTrue onFalse =>
    have hyes := hexpr onTrue mem_cons_self _ _ hr.targets hr.live
    refine ⟨hr.targets, ?_⟩
    cases onFalse with
    | none => exact hP.union hyes.before hr.live.mem
    | some e =>
      have hno := hexpr e (mem_cons_of_mem _ mem_cons_self) _ _ hr.targets hr.live
      exact hP.union hyes.before hno.before.mem
  | oneOf arms =>
    refine ⟨hr.targets, (within_liveArms hr.targets hr.live hP hexpr ?_).before⟩
    split
    · exact hP.nil
    · exact hr.live
  | round loop =>
    have hfound := (hexpr loop mem_cons_self _ _ hr.targets hr.live).before
    exact ⟨⟨hr.live, hfound⟩, hfound⟩
  | test loop =>
    have hfound := (hexpr loop mem_cons_self _ _ hr.targets hr.live).before
    refine ⟨hr.targets, hP.union ?_ hr.live.mem⟩
    split
    · rename_i cond body hform
      have hbody : body ∈ loop.form.children := by simp [hform]
      have hnodes : ∀ x ∈ body.walk, x.MentionsOnly c.units (· ∈ ls) := fun x hx =>
        (ht.exprs loop mem_cons_self x (Expr.walk_subset_of_mem_children hbody hx)).mentions
      exact (Expr.within_live hP hc.forced hnodes _ _ ⟨hr.live, hfound⟩ hfound).before
    · exact hP.nil
  | breakLoop => exact ⟨hr.targets, hr.targets.onBreak⟩
  | continueLoop => exact ⟨hr.targets, hr.targets.onContinue⟩
  | leave => exact ⟨hr.targets, hc.forced⟩

end Todo

theorem LivenessContext.Bounded.among (hc : c.Bounded ls) (hk : ∀ t ∈ k, t.Fits c ls) :
    (c.rest k).Among ls := by
  have hP := LocalSet.closed_among ls
  induction k with
  | nil => exact ⟨⟨hP.nil, hP.nil⟩, hP.nil⟩
  | cons t k ih =>
    rw [forall_mem_cons] at hk
    exact hk.1.among hc (ih hk.2)

namespace Todo

theorem fits_eval {e : Expr} (h : ∀ x ∈ e.walk, x.Plain c ls) : (eval e).Fits c ls :=
  ⟨forall_mem_singleton.mpr h, by simp [locals]⟩

theorem fits_read {ms : List LocalId} (h : ∀ l ∈ ms, l ∈ ls) : (read ms).Fits c ls :=
  ⟨by simp [exprs], h⟩

/-- A task without code and reads. -/
theorem fits_leaf {t : Todo} (hexprs : t.exprs = []) (hlocals : t.locals = []) : t.Fits c ls :=
  ⟨by simp [hexprs], by simp [hlocals]⟩

theorem fits_operands (h : ∀ e ∈ es, ∀ x ∈ e.walk, x.Plain c ls) {held : LocalSet}
    (hheld : ∀ l ∈ held, l ∈ ls) :
    ∀ t ∈ operands held es, t.Fits c ls := by
  induction es generalizing held with
  | nil => simp [operands]
  | cons e es ih =>
    rw [forall_mem_cons] at h
    rw [operands, forall_mem_cons, forall_mem_cons]
    refine ⟨fits_eval h.1, fits_read hheld, ih h.2 fun l hl => ?_⟩
    exact (LocalSet.mem_union.mp hl).elim (hheld l)
      (Expr.reads_of_mentionsOnly (fun y hy => (h.1 y hy).mentions) l)

theorem fits_stmt {s : Stmt} (h : ∀ e, s.expr? = some e → ∀ x ∈ e.walk, x.Plain c ls) :
    ∀ t ∈ stmt s, t.Fits c ls := by
  match s with
  | .bind target (some e) =>
    exact forall_mem_cons.mpr ⟨fits_eval (h e rfl), forall_mem_singleton.mpr (fits_leaf rfl rfl)⟩
  | .bind target none => exact forall_mem_singleton.mpr (fits_leaf rfl rfl)
  | .expr e => exact forall_mem_singleton.mpr (fits_eval (h e rfl))

end Todo

/-- What there is to do for an expression is of the same kind. -/
theorem Expr.fits_todo (hx : ∀ y ∈ x.walk, y.Plain c ls) : ∀ t ∈ x.todo c, t.Fits c ls := by
  have hown := hx x (self_mem_walk x)
  -- a loop puts itself back, so it has to fit as well
  have hself : (Todo.round x).Fits c ls ∧ (Todo.test x).Fits c ls := by
    constructor <;> exact ⟨forall_mem_singleton.mpr hx, by simp [Todo.locals]⟩
  have hpart (e : Expr) (he : e ∈ x.form.children) : ∀ y ∈ e.walk, y.Plain c ls :=
    fun y hy => hx y (walk_subset_of_mem_children he hy)
  have heval (e : Expr) (he : e ∈ x.form.children) : (Todo.eval e).Fits c ls :=
    Todo.fits_eval (hpart e he)
  obtain ⟨id, form, ty, span⟩ := x
  cases form with
  | literal | fn | op | intrinsic => simp [todo]
  | var l => exact forall_mem_singleton.mpr (Todo.fits_read hown.mentions.used)
  | assign target value =>
    exact forall_mem_cons.mpr ⟨heval value (by simp),
      forall_mem_singleton.mpr (Todo.fits_leaf rfl rfl)⟩
  | unary _ part | field part _ => exact forall_mem_singleton.mpr (heval part (by simp))
  | binary | tuple | perform => exact Todo.fits_operands hpart (by simp)
  | call callee args =>
    intro t ht
    obtain ht | ht := mem_append.mp ht
    · exact Todo.fits_operands hpart (by simp) t ht
    · split at ht
      · rw [mem_singleton.mp ht]
        exact Todo.fits_leaf rfl rfl
      · cases ht
  | block stmts tail =>
    intro t ht
    obtain ht | ht := mem_append.mp ht
    · obtain ⟨s, hs, ht⟩ := mem_flatMap.mp ht
      refine Todo.fits_stmt (fun e he => hpart e ?_) t ht
      exact mem_append_left _ (mem_filterMap.mpr ⟨s, hs, he⟩)
    · obtain ⟨e, he, rfl⟩ := mem_map.mp ht
      exact heval e (mem_append_right _ he)
  | branch | select =>
    refine forall_mem_cons.mpr ⟨heval _ mem_cons_self, forall_mem_singleton.mpr ⟨?_, ?_⟩⟩
    · exact fun e he => hpart e (mem_cons_of_mem _ he)
    · simp [Todo.locals]
  | loop body =>
    exact forall_mem_cons.mpr ⟨heval body (by simp), forall_mem_singleton.mpr hself.1⟩
  | whileLoop cond body =>
    exact forall_mem_cons.mpr ⟨heval cond (by simp), forall_mem_singleton.mpr hself.2⟩
  | breakLoop | continueLoop => exact forall_mem_singleton.mpr (Todo.fits_leaf rfl rfl)
  | ret value =>
    intro t ht
    obtain ht | ht := mem_append.mp ht
    · obtain ⟨e, he, rfl⟩ := mem_map.mp ht
      exact heval e he
    · rw [mem_singleton.mp ht]
      exact Todo.fits_leaf rfl rfl
  | handle body clauses finalizer =>
    simp only [todo, form, Expr.id]
    split
    · rename_i h hh
      exact forall_mem_singleton.mpr (Todo.fits_read (hown.mentions.passed rfl h hh))
    · exact forall_mem_singleton.mpr (heval body mem_cons_self)
  | closure params body =>
    refine forall_mem_singleton.mpr (Todo.fits_read fun l hl => ?_)
    obtain ⟨y, hy, hl⟩ := mem_freeLocals hl
    exact (hx y hy).mentions.used l hl

def Arm.live (c : LivenessContext) (targets : LoopTargets) (out : LocalSet) (arm : Arm) :
    LocalSet :=
  match arm.pattern with
  | .binding l => LocalSet.erase (arm.body.live c targets out).before l
  | _ => (arm.body.live c targets out).before

theorem liveArms_cons (arm : Arm) (arms : List Arm) (live : LocalSet) :
    liveArms c (arm :: arms) targets out live =
      (liveArms c arms targets out (LocalSet.union live (arm.live c targets out))).andThen
        (arm.body.live c targets out).after := by
  obtain ⟨pattern, body⟩ := arm
  cases pattern <;> rfl

theorem mem_liveArms_of_mem_live {arms : List Arm} {live : LocalSet} (h : l ∈ live) :
    l ∈ (liveArms c arms targets out live).before := by
  induction arms generalizing live with
  | nil => exact h
  | cons arm arms ih =>
    rw [liveArms_cons]
    exact ih (LocalSet.mem_union.mpr (.inl h))

/-- What is live in front of an arm is live in front of all of them. -/
theorem mem_liveArms_of_mem (c : LivenessContext) (targets : LoopTargets) (out : LocalSet)
    {arms : List Arm} {arm : Arm} (h : arm ∈ arms) (live : LocalSet) :
    (∀ l ∈ arm.live c targets out, l ∈ (liveArms c arms targets out live).before) ∧
      ∀ note ∈ (arm.body.live c targets out).after,
        note ∈ (liveArms c arms targets out live).after := by
  induction arms generalizing live with
  | nil => cases h
  | cons arm' arms ih =>
    rw [liveArms_cons]
    obtain rfl | h := mem_cons.mp h
    · exact ⟨fun l hl => mem_liveArms_of_mem_live (LocalSet.mem_union.mpr (.inr hl)), fun note hn =>
        mem_append_right _ hn⟩
    · obtain ⟨hlive, hnotes⟩ := ih h _
      exact ⟨hlive, fun note hn => mem_append_left _ (hnotes note hn)⟩

/-- Where `break` leads. -/
theorem LivenessContext.rest_afterLoop_le (k : List Todo) :
    (c.rest (Todo.afterLoop k)).Le (c.rest (.breakLoop :: k)) := by
  induction k with
  | nil => exact ⟨fun l hl => hl, fun note hn => hn⟩
  | cons t k ih =>
    -- a task that is left behind changes no targets, unless it is the end of a round
    have hnotes : ∀ note ∈ (c.rest (.breakLoop :: k)).notes,
        note ∈ (c.rest (.breakLoop :: t :: k)).notes :=
      fun note hn => Todo.subset_notes_live t (c.rest k) hn
    cases t with
    | round loop => exact ⟨fun l hl => hl, fun note hn => hnotes note hn⟩
    | _ => exact ⟨ih.live, fun note hn => hnotes note (ih.notes note hn)⟩

/-- Where `continue` leads. -/
theorem LivenessContext.rest_nextRound_le (k : List Todo) :
    (c.rest (Todo.nextRound k)).Le (c.rest (.continueLoop :: k)) := by
  induction k with
  | nil => exact ⟨fun l hl => hl, fun note hn => hn⟩
  | cons t k ih =>
    have hnotes : ∀ note ∈ (c.rest (.continueLoop :: k)).notes,
        note ∈ (c.rest (.continueLoop :: t :: k)).notes :=
      fun note hn => Todo.subset_notes_live t (c.rest k) hn
    cases t with
    | round loop => exact ⟨fun l hl => hl, fun note hn => hn⟩
    | _ => exact ⟨ih.live, fun note hn => hnotes note (ih.notes note hn)⟩

/-- Moves keep to code of this kind. -/
theorem LivenessContext.Moves.fits (h : c.Moves k k') (hc : c.Bounded ls)
    (hk : ∀ t ∈ k, t.Fits c ls) :
    ∀ t ∈ k', t.Fits c ls := by
  have hdrop (k k' : List Todo) (hk : ∀ t ∈ k, t.Fits c ls) (hsub : k' ⊆ k) :
      ∀ t ∈ k', t.Fits c ls :=
    fun t ht => hk t (hsub ht)
  cases h with
  | eval e k =>
    rw [forall_mem_cons] at hk
    exact forall_mem_append.mpr ⟨Expr.fits_todo (hk.1.exprs e mem_cons_self), hk.2⟩
  | onTrue yes no k =>
    rw [forall_mem_cons] at hk
    exact forall_mem_cons.mpr ⟨Todo.fits_eval (hk.1.exprs yes mem_cons_self), hk.2⟩
  | onFalse yes no k =>
    rw [forall_mem_cons] at hk
    refine forall_mem_append.mpr ⟨fun t ht => ?_, hk.2⟩
    obtain ⟨e, he, rfl⟩ := mem_map.mp ht
    exact Todo.fits_eval (hk.1.exprs e (mem_cons_of_mem _ he))
  | @arm arms arm h k =>
    rw [forall_mem_cons] at hk
    refine forall_mem_append.mpr ⟨forall_mem_append.mpr ⟨fun t ht => ?_, ?_⟩, hk.2⟩
    · obtain ⟨l, -, rfl⟩ := mem_map.mp ht
      exact Todo.fits_leaf rfl rfl
    · exact forall_mem_singleton.mpr (Todo.fits_eval (hk.1.exprs arm.body (mem_map_of_mem h)))
  | missed h k => exact (forall_mem_cons.mp hk).2
  | round loop k =>
    rw [forall_mem_cons] at hk ⊢
    exact ⟨Todo.fits_eval (hk.1.exprs loop mem_cons_self), hk.2⟩
  | @enter loop cond body h k =>
    rw [forall_mem_cons] at hk
    have hloop := hk.1.exprs loop mem_cons_self
    have hbody : body ∈ loop.form.children := by simp [h]
    rw [forall_mem_cons, forall_mem_cons]
    exact ⟨Todo.fits_eval fun y hy => hloop y (Expr.walk_subset_of_mem_children hbody hy),
      ⟨forall_mem_singleton.mpr hloop, by simp [Todo.locals]⟩, hk.2⟩
  | exit loop k => exact (forall_mem_cons.mp hk).2
  | breakLoop k => exact hdrop _ _ (forall_mem_cons.mp hk).2 (Todo.afterLoop_suffix k).subset
  | continueLoop k => exact hdrop _ _ (forall_mem_cons.mp hk).2 (Todo.nextRound_suffix k).subset
  | leave k => exact forall_mem_singleton.mpr (Todo.fits_read hc.forced.mem)

/-- **One move adds nothing** to what is live and noted. -/
theorem LivenessContext.Moves.rest_le (h : c.Moves k k') (hc : c.Bounded ls)
    (hk : ∀ t ∈ k, t.Fits c ls) :
    (c.rest k').Le (c.rest k) := by
  cases h with
  | eval e k =>
    rw [forall_mem_cons] at hk
    rw [rest, foldr_append]
    exact Expr.rest_todo_le hc (hk.1.exprs e mem_cons_self) (hc.among hk.2)
  | onTrue yes no k =>
    refine Rest.before_le (fun l hl => LocalSet.mem_union.mpr (.inl hl))
      fun note hn => mem_append_right _ hn
  | onFalse yes no k =>
    cases no with
    | none => exact ⟨fun l hl => LocalSet.mem_union.mpr (.inr hl), subset_append_right _ _⟩
    | some e => exact Rest.before_le (fun l hl => LocalSet.mem_union.mpr (.inr hl)) fun note hn =>
      mem_append_left _ hn
  | @arm arms arm h k =>
    obtain ⟨hlive, hnotes⟩ := mem_liveArms_of_mem c (c.rest k).targets (c.rest k).live h
      (if arms.any (·.pattern.isIrrefutable) then [] else (c.rest k).live)
    obtain ⟨pattern, body⟩ := arm
    have hmore : ∀ note ∈ (body.live c (c.rest k).targets (c.rest k).live).after ++
        (c.rest k).notes,
        note ∈ (c.rest (.oneOf arms :: k)).notes :=
      fun note hn => mem_append.mpr ((mem_append.mp hn).imp_left (hnotes note))
    cases pattern <;> exact ⟨fun l hl => hlive l hl, hmore⟩
  | @missed arms h k =>
    refine ⟨fun l hl => mem_liveArms_of_mem_live ?_, subset_append_right _ _⟩
    rw [h]
    exact hl
  | round loop k => exact ⟨fun l hl => hl, fun note hn => hn⟩
  | @enter loop cond body h k =>
    rw [forall_mem_cons] at hk
    have hr := hc.among hk.2
    have hround := (Expr.settles_live hc.forced hc.bound
      (fun y hy => (hk.1.exprs loop mem_cons_self y hy).mentions)
      hr.targets hr.live (by rw [h, Form.round?])).stable.1
    have htest : (c.rest (.test loop :: k)) = (c.rest k).before
        ⟨LocalSet.union (body.live c ⟨(c.rest k).live,
        (loop.live c (c.rest k).targets (c.rest k).live).before⟩
          (loop.live c (c.rest k).targets (c.rest k).live).before).before (c.rest k).live,
          (loop.live c (c.rest k).targets (c.rest k).live).after⟩ := by
      show Todo.live c (.test loop) (c.rest k) = _
      rw [Todo.live, h]
    rw [htest]
    refine ⟨fun l hl => LocalSet.mem_union.mpr (.inl hl), fun note hn => ?_⟩
    -- the notes of the body are among those of the last round
    obtain hn | hn := mem_append.mp hn
    · refine mem_append_left _ ?_
      show note ∈ (loop.live c _ _).after
      rw [hround]
      exact mem_append_right _ hn
    · exact hn
  | exit loop k => exact ⟨fun l hl => LocalSet.mem_union.mpr (.inr hl), subset_append_right _ _⟩
  | breakLoop k => exact rest_afterLoop_le k
  | continueLoop k => exact rest_nextRound_le k
  | leave k => exact ⟨fun l hl => (LocalSet.mem_union.mp hl).resolve_left (by simp), by simp [rest]⟩

/-- **What is read before it is written is live.** -/
theorem LivenessContext.ReadsFirst.mem_live (h : c.ReadsFirst l k) (hc : c.Bounded ls)
    (hk : ∀ t ∈ k, t.Fits c ls) :
    l ∈ (c.rest k).live := by
  induction h with
  | here h k => exact LocalSet.mem_union.mpr (.inr h)
  | read ms _ ih => exact LocalSet.mem_union.mpr (.inl (ih (forall_mem_cons.mp hk).2))
  | write h _ ih => exact LocalSet.mem_erase.mpr ⟨ih (forall_mem_cons.mp hk).2, h⟩
  | move h _ ih => exact (h.rest_le hc hk).live l (ih (h.fits hc hk))

/-! ### Points -/

/-- Whether what is live behind the node is noted. -/
def Expr.isPoint (c : LivenessContext) (x : Expr) : Bool :=
  match x.form with
  | .perform _ _ _ => true
  | .call callee _ => (c.transfer? callee).isNone
  | .handle _ _ _ => (c.units.handle? x.id).isSome
  | _ => false

theorem Expr.note_mem_of_isPoint (h : x.isPoint c = true) :
    (x.id, out) ∈ (x.live c targets out).after := by
  obtain ⟨id, form, ty, span⟩ := x
  cases form with
  | perform operation args typeArgs => exact mem_append_right _ mem_cons_self
  | call callee args =>
    have htransfer : c.transfer? callee = none := Option.isNone_iff_eq_none.mp h
    rw [live, Form.live]
    simp only [htransfer]
    exact mem_append_right _ (mem_append_right _ mem_cons_self)
  | handle body clauses finalizer =>
    obtain ⟨lifted, hlifted⟩ := Option.isSome_iff_exists.mp h
    rw [Expr.id] at hlifted
    rw [live, Form.live]
    simp only [hlifted]
    exact mem_cons_self
  | _ => cases h

namespace LoweringUnit

variable {u : LoweringUnit}

theorem Pending.drop (k₁ : List Todo) {k₂ : List Todo} (h : u.Pending c (k₁ ++ k₂)) :
    u.Pending c k₂ := by
  induction k₁ with
  | nil => exact h
  | cons t k₁ ih => exact ih h.skip

theorem Pending.fits (h : u.Pending c k) (hc : c.Bounded ls)
    (hu : ∀ e ∈ u.regions, ∀ x ∈ e.walk, x.Plain c ls) :
    ∀ t ∈ k, t.Fits c ls := by
  induction h with
  | start he =>
    refine forall_mem_cons.mpr ⟨Todo.fits_eval (hu _ he), ?_⟩
    split
    · exact forall_mem_singleton.mpr (Todo.fits_read hc.forced.mem)
    · simp
  | move _ hmove ih => exact hmove.fits hc ih
  | skip _ ih => exact (forall_mem_cons.mp ih).2

/-- The notes of what is left to do are notes of the unit. -/
theorem Pending.notes_subset {notes : List (ExprId × LocalSet)} (h : u.Pending c k)
    (hc : c.Bounded ls) (hu : ∀ e ∈ u.regions, ∀ x ∈ e.walk, x.Plain c ls)
    (hstart : ∀ e ∈ u.regions, (e.live c {} (if u.isDrive then c.forced else [])).after ⊆ notes) :
    (c.rest k).notes ⊆ notes := by
  induction h with
  | @start e he =>
    have hrest : (c.rest (if u.isDrive then [.read c.forced] else [])) =
        ⟨{}, if u.isDrive then c.forced else [], []⟩ := by
      split
      · simp [LivenessContext.rest, LocalSet.nil_union hc.forced.ascending]
      · rfl
    show (Todo.live c (.eval e) (c.rest _)).notes ⊆ notes
    rw [hrest]
    exact append_subset.mpr ⟨hstart e he, nil_subset _⟩
  | move h hmove ih => exact List.Subset.trans (hmove.rest_le hc (h.fits hc hu)).notes ih
  | @skip t k _ ih => exact List.Subset.trans (Todo.subset_notes_live t (c.rest k)) ih

end LoweringUnit

end

end Effectful
