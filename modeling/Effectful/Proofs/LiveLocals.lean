import Effectful.Lowering.Liveness
import Effectful.Proofs.Walk
/-!
# Where live locals come from

Every local that liveness finds is live behind the expression or where `break`, `continue` or
`return` lead, or the expression mentions it: it reads it, assigns it, or passes it to the units of
a cut-out handler.  So a property of sets that adding those locals and taking away any keeps is one
of all sets in the result (`Expr.within_live`).
-/

namespace Effectful

open List

attribute [local simp] Form.children

/-- A property of sets whose members have a property: adding such members and taking away any keeps
it. -/
structure LocalSet.Closed (S : LocalId → Prop) (P : LocalSet → Prop) : Prop where
  nil : P []
  mem : ∀ {s}, P s → ∀ l ∈ s, S l
  insert : ∀ {s l}, P s → S l → P (LocalSet.insert l s)
  erase : ∀ {s l}, P s → P (LocalSet.erase s l)

theorem LocalSet.closed_forall (S : LocalId → Prop) : Closed S fun s => ∀ l ∈ s, S l where
  nil := by simp
  mem h := h
  insert h hl := by
    intro m hm
    obtain rfl | hm := mem_insert.mp hm
    · exact hl
    · exact h m hm
  erase h := fun m hm => h m (mem_erase.mp hm).1

/-- Unions stay inside. -/
theorem LocalSet.Closed.union {S : LocalId → Prop} {P : LocalSet → Prop} (h : Closed S P)
    {s t : LocalSet} (hs : P s) (ht : ∀ l ∈ t, S l) : P (LocalSet.union s t) := by
  induction t generalizing s with
  | nil => exact hs
  | cons l t ih =>
    rw [forall_mem_cons] at ht
    exact ih (h.insert hs ht.1) ht.2

structure Liveness.Within (P : LocalSet → Prop) (r : Liveness) : Prop where
  before : P r.before
  after : ∀ note ∈ r.after, P note.2

structure LoopTargets.Within (P : LocalSet → Prop) (t : LoopTargets) : Prop where
  onBreak : P t.onBreak
  onContinue : P t.onContinue

/-- All locals that a node itself mentions have a property. -/
structure Expr.MentionsOnly (units : LiftedProgram) (S : LocalId → Prop) (x : Expr) : Prop where
  used : ∀ l ∈ x.form.usedLocals, S l
  passed : x.form.isHandle = true → ∀ h, units.handle? x.id = some h →
    ∀ l ∈ h.bodyArgs ++ h.driveArgs, S l

variable {c : LivenessContext} {S : LocalId → Prop} {P : LocalSet → Prop}

namespace Liveness

variable {r : Liveness}

theorem Within.andThen {notes : List (ExprId × LocalSet)} (h : r.Within P)
    (hnotes : ∀ note ∈ notes, P note.2) :
    (r.andThen notes).Within P :=
  ⟨h.before, fun note hn => (mem_append.mp hn).elim (h.after note) (hnotes note)⟩

theorem Within.of_before {out : LocalSet} (h : P out) : (Liveness.mk out []).Within P :=
  ⟨h, by simp⟩

/-- The rounds of a loop stay within if every round does. -/
theorem Within.fixpoint {round : LocalSet → Liveness} (hP : LocalSet.Closed S P)
    (hround : ∀ head, P head → (round head).Within P) (bound : Nat) {head : LocalSet}
    (hhead : P head) :
    (fixpoint round bound head).Within P := by
  induction bound generalizing head with
  | zero => exact ⟨hhead, (hround head hhead).after⟩
  | succ bound ih =>
    rw [Liveness.fixpoint]
    split
    · exact ⟨hhead, (hround head hhead).after⟩
    · exact ih (hP.union (hround head hhead).before (hP.mem hhead))

end Liveness

/-- The locals that an expression reads, at whatever depth. -/
theorem Expr.mem_reads {e : Expr} {l : LocalId} : l ∈ e.reads ↔ ∃ x ∈ e.walk, x.form = .var l := by
  rw [reads, LocalSet.mem_ofList, mem_filterMap]
  constructor
  · rintro ⟨x, hx, hl⟩
    refine ⟨x, mem_walkPost.mp hx, ?_⟩
    cases hf : x.form <;> rw [hf] at hl <;> cases hl
    rfl
  · rintro ⟨x, hx, hl⟩
    exact ⟨x, mem_walkPost.mpr hx, by rw [hl]⟩

theorem Expr.reads_of_mentionsOnly {e : Expr} (h : ∀ x ∈ e.walk, x.MentionsOnly c.units S) :
    ∀ l ∈ e.reads, S l := by
  intro l hl
  obtain ⟨x, hx, hf⟩ := mem_reads.mp hl
  exact (h x hx).used l (by simp [hf, Form.usedLocals])

theorem LivenessContext.form_of_transfer? {callee : Expr} {k : LocalId}
    (h : c.transfer? callee = some k) :
    callee.form = .var k := by
  unfold transfer? at h
  split at h
  · rename_i k' hform
    rw [Option.ite_none_right_eq_some, Option.some.injEq] at h
    rw [hform, h.2]
  · cases h

/-- What is shown of an expression: its liveness stays within, from whatever is live behind it. -/
def Expr.LiveWithin (c : LivenessContext) (P : LocalSet → Prop) (e : Expr) : Prop :=
  ∀ (loop : LoopTargets) (out : LocalSet), loop.Within P → P out → (e.live c loop out).Within P

section Lists

variable {loop : LoopTargets} {out : LocalSet} (hloop : loop.Within P) (hout : P out)
include hloop hout

/-- What operands hold is inside, as what they read is. -/
theorem within_liveOperands (hP : LocalSet.Closed S P) {es : List Expr}
    (hes : ∀ e ∈ es, e.LiveWithin c P) (hreads : ∀ e ∈ es, ∀ l ∈ e.reads, S l) {held : LocalSet}
    (hheld : ∀ l ∈ held, S l) :
    (liveOperands c es loop held out).Within P := by
  induction es generalizing held with
  | nil => exact .of_before hout
  | cons e es ih =>
    rw [forall_mem_cons] at hes hreads
    have hgrown : ∀ l ∈ LocalSet.union held e.reads, S l := fun l hl =>
      (LocalSet.mem_union.mp hl).elim (hheld l) (hreads.1 l)
    have hlater := ih hes.2 hreads.2 hgrown
    exact (hes.1 loop _ hloop (hP.union hlater.before hheld)).andThen hlater.after

theorem within_liveArgs {es : List Expr} (hes : ∀ e ∈ es, e.LiveWithin c P) :
    (liveArgs c es loop out).Within P := by
  induction es with
  | nil => exact .of_before hout
  | cons e es ih =>
    rw [forall_mem_cons] at hes
    have hlater := ih hes.2
    exact (hes.1 loop _ hloop hlater.before).andThen hlater.after

theorem within_liveStmts (hP : LocalSet.Closed S P) {ss : List Stmt}
    (hss : ∀ e ∈ ss.filterMap Stmt.expr?, e.LiveWithin c P) :
    (liveStmts c ss loop out).Within P := by
  induction ss with
  | nil => exact .of_before hout
  | cons st ss ih =>
    match st with
    | .bind target none =>
      have hlater := ih hss
      exact ⟨hP.erase hlater.before, hlater.after⟩
    | .bind target (some e) =>
      rw [filterMap_cons_some (by rfl), forall_mem_cons] at hss
      have hlater := ih hss.2
      exact (hss.1 loop _ hloop (hP.erase hlater.before)).andThen hlater.after
    | .expr e =>
      rw [filterMap_cons_some (by rfl), forall_mem_cons] at hss
      have hlater := ih hss.2
      exact (hss.1 loop _ hloop hlater.before).andThen hlater.after

theorem within_liveArms (hP : LocalSet.Closed S P) {arms : List Arm}
    (harms : ∀ e ∈ arms.map Arm.body, e.LiveWithin c P) {live : LocalSet} (hlive : P live) :
    (liveArms c arms loop out live).Within P := by
  induction arms generalizing live with
  | nil => exact .of_before hlive
  | cons arm arms ih =>
    obtain ⟨pattern, body⟩ := arm
    rw [map_cons, forall_mem_cons] at harms
    have harm := harms.1 loop out hloop hout
    refine Liveness.Within.andThen (ih harms.2 (hP.union hlive (hP.mem ?_))) harm.after
    cases pattern with
    | binding l' => exact hP.erase harm.before
    | _ => exact harm.before

end Lists

/-- **Live locals are mentioned, or live behind the expression.** -/
theorem Expr.within_live (hP : LocalSet.Closed S P) (hforced : P c.forced) {e : Expr}
    (h : ∀ x ∈ e.walk, x.MentionsOnly c.units S) : e.LiveWithin c P := by
  induction e using Expr.induction with
  | step e ih =>
    obtain ⟨id, form, ty, span⟩ := e
    have hown : (Expr.node id form ty span).MentionsOnly c.units S := h _ (self_mem_walk _)
    have hnodes (e : Expr) (he : e ∈ form.children) : ∀ x ∈ e.walk, x.MentionsOnly c.units S :=
      fun x hx => h x (walk_subset_of_mem_children he hx)
    have hpart (e : Expr) (he : e ∈ form.children) : e.LiveWithin c P := ih e he (hnodes e he)
    have hreads (e : Expr) (he : e ∈ form.children) : ∀ l ∈ e.reads, S l :=
      reads_of_mentionsOnly (hnodes e he)
    intro loop out hloop hout
    rw [live]
    cases form with
    | literal | fn | op | intrinsic => exact .of_before hout
    | var source => exact .of_before (hP.insert hout (hown.used source (by simp [Form.usedLocals])))
    | assign target value => exact hpart value (by simp) loop _ hloop (hP.erase hout)
    | unary _ operand => exact hpart operand (by simp) loop out hloop hout
    | field base _ => exact hpart base (by simp) loop out hloop hout
    | binary _ lhs rhs =>
      have hright := hpart rhs (by simp) loop (LocalSet.union out lhs.reads) hloop
        (hP.union hout (hreads lhs (by simp)))
      exact (hpart lhs (by simp) loop _ hloop hright.before).andThen hright.after
    | tuple items => exact within_liveOperands hloop hout hP hpart hreads (by simp)
    | perform _ args _ =>
      exact (within_liveOperands hloop hout hP hpart hreads (by simp)).andThen (by simpa using hout)
    | call callee args =>
      have hcallee : callee ∈ (Form.call callee args).children := mem_cons_self
      have hargs : ∀ e ∈ args, e ∈ (Form.call callee args).children :=
        fun e he => mem_cons_of_mem _ he
      rw [Form.live]
      split
      · rename_i k hk
        -- behind a transfer only what is forced counts
        have hfound := within_liveArgs hloop hforced fun e he => hpart e (hargs e he)
        refine ⟨hP.insert hfound.before ?_, hfound.after⟩
        exact hreads callee hcallee k
          (mem_reads.mpr ⟨callee, self_mem_walk _, LivenessContext.form_of_transfer? hk⟩)
      · have hfound := within_liveOperands hloop hout hP (fun e he => hpart e (hargs e he))
          (fun e he => hreads e (hargs e he)) (hreads callee hcallee)
        refine (hpart callee hcallee loop _ hloop hfound.before).andThen fun note hn => ?_
        obtain hn | hn := mem_append.mp hn
        · exact hfound.after note hn
        · obtain rfl := mem_singleton.mp hn
          exact hout
    | block stmts tail =>
      have hstmts : ∀ e ∈ stmts.filterMap Stmt.expr?, e.LiveWithin c P :=
        fun e he => hpart e (mem_append_left _ he)
      cases tail with
      | none =>
        exact (within_liveStmts hloop hout hP hstmts).andThen (by simp)
      | some e =>
        have htail := hpart e (by simp) loop out hloop hout
        exact (within_liveStmts hloop htail.before hP hstmts).andThen htail.after
    | branch cond onTrue onFalse =>
      have hyes := hpart onTrue (by simp) loop out hloop hout
      have hcond (no : Liveness) (hno : no.Within P) := (hpart cond (by simp) loop _ hloop
        (hP.union hyes.before (hP.mem hno.before))).andThen fun note hn =>
          (mem_append.mp hn).elim (hno.after note) (hyes.after note)
      cases onFalse with
      | none => exact hcond ⟨out, []⟩ (.of_before hout)
      | some e => exact hcond _ (hpart e (by simp) loop out hloop hout)
    | select scrutinee arms =>
      have hlast : P (if arms.any (·.pattern.isIrrefutable) then [] else out) := by
        split
        · exact hP.nil
        · exact hout
      have hbodies : ∀ e ∈ arms.map Arm.body, e.LiveWithin c P :=
        fun e he => hpart e (mem_cons_of_mem _ he)
      have hfound := within_liveArms hloop hout hP hbodies hlast
      exact (hpart scrutinee (by simp) loop _ hloop hfound.before).andThen hfound.after
    | loop body =>
      -- every round keeps to the set, whatever it starts from
      refine Liveness.Within.fixpoint hP (fun head hhead => ?_) c.bound hP.nil
      exact hpart body (by simp) ⟨out, head⟩ head ⟨hout, hhead⟩ hhead
    | whileLoop cond body =>
      refine Liveness.Within.fixpoint hP (fun head hhead => ?_) c.bound hP.nil
      have hbody := hpart body (by simp) ⟨out, head⟩ head ⟨hout, hhead⟩ hhead
      exact (hpart cond (by simp) loop _ hloop (hP.union hbody.before (hP.mem hout))).andThen
        hbody.after
    | breakLoop => exact .of_before hloop.onBreak
    | continueLoop => exact .of_before hloop.onContinue
    | ret value =>
      cases value with
      | none => exact .of_before hforced
      | some e => exact hpart e (by simp) loop _ hloop hforced
    | handle body clauses finalizer =>
      rw [Form.live]
      split
      · rename_i h hh
        -- a lifted handler reads what it passes on to its units
        have hpassed := hown.passed rfl h hh
        refine ⟨?_, by simpa using hout⟩
        exact hP.union (hP.union hout fun l hl => hpassed l (mem_append_left _ hl))
          fun l hl => hpassed l (mem_append_right _ hl)
      · exact hpart body (by simp) loop out hloop hout
    | closure params body =>
      refine .of_before (hP.union hout fun l hl => ?_)
      rw [freeLocals, mem_filter, LocalSet.mem_ofList, mem_flatMap] at hl
      obtain ⟨⟨x, hx, hl⟩, -⟩ := hl
      exact (h x hx).used l hl

end Effectful
