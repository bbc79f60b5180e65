import Effectful.Analysis.Usage
import Effectful.Proofs.Walk
/-!
# What bounds on calls promise

`Expr.usageFlow` counts the calls of a continuation along the paths of an expression.  For a run
that has not called it yet, three things matter: whether a path may go on without a call, whether
one may return without a call, and whether one may call.  `UsageFlow.Leads` says where each of them
leads.  It reads a flow backwards, as a weakest precondition: if a sequence leads somewhere, then
its first part leads to the second part's leading there (`Leads.followedBy`).

A loop has to lead on even if its body never does, since `break` is counted as going on.  That needs
bounds in order, and sequences need that some path ends (`UsageFlow.Proper`).  Every flow of an
expression is proper (`Expr.proper_usageFlow`).
-/

namespace Effectful

open List

attribute [local simp] Form.children

variable {arms : List Arm} {es : List Expr}

namespace CallCount

/-- The lower bound is none above the upper one. -/
def Ordered (c : CallCount) : Prop := ∀ m ∈ c.most, c.least ≤ m

/-- Of the paths counted, one may be without a call. -/
def Idle (count : Option CallCount) : Prop := ∃ c ∈ count, c.least = 0

/-- Of the paths counted, one may call. -/
def Busy (count : Option CallCount) : Prop := ∃ c ∈ count, c.most ≠ some 0

variable {a b : CallCount} {o o' : Option CallCount}

/-- Bounds stay in order. -/
theorem Ordered.add (ha : a.Ordered) (hb : b.Ordered) : (a.add b).Ordered := by
  obtain ⟨l, most⟩ := a
  obtain ⟨l', most'⟩ := b
  cases most with
  | none => simp [Ordered, CallCount.add]
  | some m =>
    cases most' with
    | none => simp [Ordered, CallCount.add]
    | some m' =>
      have hl : l ≤ m := ha m rfl
      have hl' : l' ≤ m' := hb m' rfl
      intro n hn
      obtain rfl := Option.some.inj hn
      show l + l' ≤ m + m'
      omega

theorem Ordered.join (ha : a.Ordered) (hb : b.Ordered) : (a.join b).Ordered := by
  obtain ⟨l, most⟩ := a
  obtain ⟨l', most'⟩ := b
  cases most with
  | none => simp [Ordered, CallCount.join]
  | some m =>
    cases most' with
    | none => simp [Ordered, CallCount.join]
    | some m' =>
      have hl : l ≤ m := ha m rfl
      intro n hn
      obtain rfl := Option.some.inj hn
      show min l l' ≤ max m m'
      omega

theorem Ordered.join? (ha : ∀ c ∈ o, c.Ordered) (hb : ∀ c ∈ o', c.Ordered) :
    ∀ c ∈ CallCount.join? o o', c.Ordered := by
  cases o <;> cases o' <;> simp_all [CallCount.join?, Ordered.join]

@[simp]
theorem isSome_join? : (join? o o').isSome ↔ o.isSome ∨ o'.isSome := by
  cases o <;> cases o' <;> simp [join?]

theorem most_add_eq_zero : (a.add b).most = some 0 ↔ a.most = some 0 ∧ b.most = some 0 := by
  obtain ⟨l, m⟩ := a
  obtain ⟨l', m'⟩ := b
  cases m <;> cases m' <;> simp [add]

theorem most_join_eq_zero : (a.join b).most = some 0 ↔ a.most = some 0 ∧ b.most = some 0 := by
  obtain ⟨l, m⟩ := a
  obtain ⟨l', m'⟩ := b
  cases m <;> cases m' <;> simp [join]

theorem least_join_eq_zero : (a.join b).least = 0 ↔ a.least = 0 ∨ b.least = 0 := by
  simp only [join]
  omega

@[simp]
theorem idle_some : Idle (some a) ↔ a.least = 0 := by simp [Idle]

@[simp]
theorem busy_some : Busy (some a) ↔ a.most ≠ some 0 := by simp [Busy]

@[simp]
theorem not_idle_none : ¬ Idle none := by simp [Idle]

@[simp]
theorem not_busy_none : ¬ Busy none := by simp [Busy]

@[simp]
theorem idle_join? : Idle (join? o o') ↔ Idle o ∨ Idle o' := by
  cases o <;> cases o' <;> simp [join?, least_join_eq_zero]

/-- A choice calls if an alternative does. -/
@[simp]
theorem busy_join? : Busy (join? o o') ↔ Busy o ∨ Busy o' := by
  cases o <;> cases o' <;> simp [join?, most_join_eq_zero, imp_iff_not_or]

/-- Calls before the rest leave it idle only if there need be none. -/
theorem idle_map_add : Idle (o.map a.add) ↔ a.least = 0 ∧ Idle o := by
  cases o <;> simp [add]

theorem busy_map_add : Busy (o.map a.add) ↔ Busy o ∨ a.most ≠ some 0 ∧ o.isSome := by
  cases o with
  | none => simp
  | some b =>
    simp only [Option.map_some, busy_some, ne_eq, most_add_eq_zero, Option.isSome_some, and_true]
    rw [not_and_or, or_comm]

end CallCount

open CallCount (Idle Busy Ordered)

namespace UsageFlow

variable {a b : UsageFlow} {R C V V' : Prop}

/-! ### Flows in order -/

/-- Some path ends, and the bounds are in order. -/
structure Proper (a : UsageFlow) : Prop where
  ends : a.onward.isSome ∨ a.returned.isSome
  onward : ∀ c ∈ a.onward, c.Ordered
  returned : ∀ c ∈ a.returned, c.Ordered

/-- The flows that the analysis starts from are proper, and all that it does keeps them so. -/
theorem proper_ofCount {c : CallCount} (h : c.Ordered) : (ofCount c).Proper :=
  ⟨.inl rfl, by simpa [ofCount] using h, by simp [ofCount]⟩

theorem proper_zero : zero.Proper := proper_ofCount (by simp [Ordered, CallCount.zero])

theorem proper_escaped (e : Escape) : (escaped e).Proper :=
  ⟨.inl rfl, proper_zero.onward, proper_zero.returned⟩

namespace Proper

theorem escaping (h : a.Proper) (e : Escape) : (a.escaping e).Proper :=
  ⟨h.ends, h.onward, h.returned⟩

theorem followedBy (ha : a.Proper) (hb : b.Proper) : (a.followedBy b).Proper := by
  unfold UsageFlow.followedBy
  cases hon : a.onward with
  | none => exact ⟨by simpa [hon] using ha.ends, by simp, ha.returned⟩
  | some before =>
    have hbefore : before.Ordered := ha.onward before hon
    have hmap {o : Option CallCount} (h : ∀ c ∈ o, c.Ordered) :
        ∀ c ∈ o.map before.add, c.Ordered := by
      cases o <;> simp_all [hbefore.add]
    refine ⟨?_, hmap hb.onward, Ordered.join? ha.returned (hmap hb.returned)⟩
    obtain h | h := hb.ends <;> simp [h]

theorem orElse (ha : a.Proper) (hb : b.Proper) : (a.orElse b).Proper :=
  ⟨by obtain h | h := ha.ends <;> simp [UsageFlow.orElse, h], Ordered.join? ha.onward hb.onward,
    Ordered.join? ha.returned hb.returned⟩

theorem andStmt (ha : a.Proper) (hb : b.Proper) : (a.andStmt b).Proper := by
  unfold UsageFlow.andStmt
  split
  · exact ha.escaping _
  · exact ha.followedBy hb

theorem returning (h : a.Proper) : a.returning.Proper :=
  ⟨by obtain h | h := h.ends <;> simp [UsageFlow.returning, h], by simp [UsageFlow.returning],
    Ordered.join? h.returned h.onward⟩

theorem total (h : a.Proper) : a.total.count.Ordered := by
  have hjoin := Ordered.join? h.onward h.returned
  unfold UsageFlow.total
  cases hc : CallCount.join? a.onward a.returned with
  | none => exact proper_zero.onward _ rfl
  | some c => exact hjoin c hc

theorem repeated (h : a.Proper) : a.repeated.Proper := by
  have hany : CallCount.any.Ordered := by simp [Ordered, CallCount.any]
  unfold UsageFlow.repeated
  dsimp only
  split
  · exact ⟨.inl rfl, by simpa using h.total, h.returned⟩
  · exact ⟨.inl rfl, by simpa using hany, by cases a.returned <;> simp [hany]⟩

theorem asClause (h : a.Proper) : a.asClause.Proper :=
  repeated ⟨.inl rfl, (proper_ofCount h.total).onward, (proper_ofCount h.total).returned⟩

end Proper

/-! ### Where a path without a call leads -/

/-- A path without a call leads to `V` if it goes on and to `R` if it returns; a path that calls
leads to `C`. -/
structure Leads (a : UsageFlow) (R C V : Prop) : Prop where
  onward : Idle a.onward → V
  returned : Idle a.returned → R
  calls : Busy a.onward ∨ Busy a.returned → C

/-- Code without calls leads to what follows it. -/
theorem leads_zero : zero.Leads R C V ↔ V := by
  constructor
  · exact fun h => h.onward (by simp [zero, ofCount, CallCount.zero])
  · exact fun h => ⟨fun _ => h, by simp [zero, ofCount], by simp [zero, ofCount, CallCount.zero]⟩

namespace Leads

theorem mono (h : a.Leads R C V) (hV : V → V') : a.Leads R C V' :=
  ⟨hV ∘ h.onward, h.returned, h.calls⟩

/-- Code leads to what follows the code behind it. -/
theorem followedBy (h : (a.followedBy b).Leads R C V) (hb : b.Proper) :
    a.Leads R C (b.Leads R C V) := by
  unfold UsageFlow.followedBy at h
  cases hon : a.onward with
  | none =>
    rw [hon] at h
    refine ⟨by simp [hon], h.returned, fun hbusy => h.calls ?_⟩
    simpa [hon] using hbusy
  | some before =>
    rw [hon] at h
    refine ⟨fun hidle => ⟨fun hb => h.onward ?_, fun hb => h.returned ?_, fun hb => h.calls ?_⟩,
      fun hidle => h.returned (by simp [hidle]), fun hbusy => h.calls ?_⟩
    · rw [hon, CallCount.idle_some] at hidle
      exact CallCount.idle_map_add.mpr ⟨hidle, hb⟩
    · rw [hon, CallCount.idle_some] at hidle
      exact CallCount.idle_join?.mpr (.inr (CallCount.idle_map_add.mpr ⟨hidle, hb⟩))
    · rw [CallCount.busy_join?, CallCount.busy_map_add, CallCount.busy_map_add]
      tauto
    · rw [hon, CallCount.busy_some] at hbusy
      rw [CallCount.busy_join?, CallCount.busy_map_add, CallCount.busy_map_add]
      -- a call of the first part is seen behind it, on whichever path the second part ends
      have := hb.ends
      tauto

theorem andStmt (h : (a.andStmt b).Leads R C V) (hb : b.Proper) : a.Leads R C (b.Leads R C V) := by
  unfold UsageFlow.andStmt at h
  split at h
  · rename_i hresumed
    refine ⟨?_, h.returned, h.calls⟩
    rintro ⟨c, hc, hzero⟩
    rw [Option.mem_def] at hc
    simp [hasResumed, hc, hzero] at hresumed
  · exact h.followedBy hb

/-- Both alternatives lead to what follows. -/
theorem orElse (h : (a.orElse b).Leads R C V) : a.Leads R C V ∧ b.Leads R C V := by
  obtain ⟨hon, hret, hcalls⟩ := h
  simp only [UsageFlow.orElse, CallCount.idle_join?, CallCount.busy_join?] at hon hret hcalls
  exact ⟨⟨fun h => hon (.inl h), fun h => hret (.inl h), fun h => hcalls (by tauto)⟩,
    ⟨fun h => hon (.inr h), fun h => hret (.inr h), fun h => hcalls (by tauto)⟩⟩

theorem returning (h : a.returning.Leads R C V) : a.Leads R C R := by
  obtain ⟨-, hret, hcalls⟩ := h
  simp only [UsageFlow.returning, CallCount.idle_join?, CallCount.busy_join?] at hret hcalls
  exact ⟨fun h => hret (.inr h), fun h => hret (.inl h), fun h => hcalls (.inr h.symm)⟩

end Leads

/-- The total counts the ways that go on and those that return. -/
theorem total_count (h : a.Proper) : some a.total.count = CallCount.join? a.onward a.returned := by
  have hsome : (CallCount.join? a.onward a.returned).isSome := CallCount.isSome_join?.mpr h.ends
  obtain ⟨c, hc⟩ := Option.isSome_iff_exists.mp hsome
  simp [total, hc]

/-- The lower bound is zero exactly if a path may go without a call. -/
theorem least_total_eq_zero (h : a.Proper) : a.total.count.least = 0 ↔ Idle a.onward ∨
    Idle a.returned := by
  rw [← CallCount.idle_some, total_count h, CallCount.idle_join?]

/-- The upper bound is zero exactly if no path may call. -/
theorem most_total_ne_zero (h : a.Proper) : a.total.count.most ≠ some 0 ↔ Busy a.onward ∨
    Busy a.returned := by
  rw [← CallCount.busy_some, total_count h, CallCount.busy_join?]

/-- What runs any number of times leads on at once, and leads back to itself. -/
theorem Leads.repeated (h : a.repeated.Leads R C V) (ha : a.Proper) :
    V ∧ a.Leads R C (a.repeated.Leads R C V) := by
  have hself : a.repeated.Leads R C V := h
  unfold UsageFlow.repeated at h
  dsimp only at h
  split at h
  · rename_i hzero
    rw [beq_iff_eq] at hzero
    refine ⟨h.onward ?_, fun _ => hself, h.returned, fun hbusy => ?_⟩
    · rw [CallCount.idle_some]
      exact Nat.le_zero.mp (ha.total 0 hzero)
    · exact absurd hzero ((most_total_ne_zero ha).mpr hbusy)
  · refine ⟨h.onward ?_, fun _ => hself, fun hidle => h.returned ?_, fun _ => h.calls (.inl ?_)⟩
    · simp [CallCount.any]
    · obtain ⟨c, hc, -⟩ := hidle
      rw [Option.mem_def] at hc
      simp [hc, CallCount.any]
    · simp [CallCount.any]

end UsageFlow

/-- A usage without checks at run time is a single call. -/
theorem Usage.count_of_static {u : Usage} (h : u.enforcement = .static) : u.count = .once := by
  unfold Usage.enforcement at h
  split at h
  · rename_i hstatic
    rw [Bool.and_eq_true, Usage.isExactlyOnce, beq_iff_eq] at hstatic
    exact hstatic.2
  · cases h

/-! ### The flow of an expression -/

section Parts

variable {k : LocalId} {inClosure : Bool}

/-- The analysis goes through lists from the left. -/
theorem usageFlowAll_eq (before : UsageFlow) (es : List Expr) :
    usageFlowAll k inClosure before es =
      es.foldl (fun a e => a.followedBy (e.usageFlow k inClosure)) before := by
  induction es generalizing before with
  | nil => rfl
  | cons e es ih => rw [usageFlowAll, ih, foldl_cons]

theorem usageFlowStmts_eq (before : UsageFlow) (stmts : List Stmt) :
    usageFlowStmts k inClosure before stmts =
      (stmts.filterMap Stmt.expr?).foldl (fun a e => a.andStmt (e.usageFlow k inClosure))
      before := by
  induction stmts generalizing before with
  | nil => rfl
  | cons stmt stmts ih =>
    match stmt with
    | .bind _ (some e) | .expr e =>
      rw [usageFlowStmts, ih, filterMap_cons_some (by rfl), foldl_cons]
    | .bind _ none => rw [usageFlowStmts, ih, filterMap_cons_none (by rfl)]

theorem usageFlow_block (stmts : List Stmt) (tail : Option Expr) :
    (Form.block stmts tail).usageFlow k inClosure =
      (Form.block stmts tail).children.foldl (fun a e => a.andStmt (e.usageFlow k inClosure))
      .zero := by
  rw [Form.children, foldl_append, ← usageFlowStmts_eq]
  cases tail <;> rfl

theorem usageFlowClauses_eq (before : UsageFlow) (clauses : List Clause) :
    usageFlowClauses k inClosure before clauses =
      (clauses.map Clause.body).foldl (fun a e => a.followedBy (e.usageFlow k inClosure).asClause)
      before := by
  induction clauses generalizing before with
  | nil => rfl
  | cons clause clauses ih =>
    obtain ⟨head, body⟩ := clause
    rw [usageFlowClauses, ih, map_cons, foldl_cons]
    rfl

/-- The flow of the arms of a match, where a missing arm counts as no call. -/
def armsFlow (k : LocalId) (inClosure : Bool) (arms : List Arm) : UsageFlow :=
  (usageFlowArms k inClosure (if arms.any (·.pattern.isIrrefutable) then none else some .zero)
    arms).getD .zero

/-- The scrutinee comes first, and then one of the arms. -/
theorem usageFlow_select (scrutinee : Expr) (arms : List Arm) :
    (Form.select scrutinee arms).usageFlow k inClosure =
      (scrutinee.usageFlow k inClosure).followedBy (armsFlow k inClosure arms) := by
  simp only [Form.usageFlow, armsFlow]

theorem proper_usageFlowArms {others : Option UsageFlow} (hothers : ∀ o ∈ others, o.Proper)
    (h : ∀ e ∈ arms.map Arm.body, (e.usageFlow k inClosure).Proper) :
    ∀ o ∈ usageFlowArms k inClosure others arms, o.Proper := by
  induction arms generalizing others with
  | nil => exact hothers
  | cons arm arms ih =>
    obtain ⟨pattern, body⟩ := arm
    rw [map_cons, forall_mem_cons] at h
    have hbody : (body.usageFlow k inClosure).Proper := h.1
    refine ih ?_ h.2
    cases others with
    | none => simpa using hbody
    | some o => simpa using (hothers o rfl).orElse hbody

theorem proper_armsFlow (h : ∀ e ∈ arms.map Arm.body, (e.usageFlow k inClosure).Proper) :
    (armsFlow k inClosure arms).Proper := by
  have hmissing : ∀ o ∈ (if arms.any (·.pattern.isIrrefutable) then none else some UsageFlow.zero),
      o.Proper := by
    split <;> simp [UsageFlow.proper_zero]
  unfold armsFlow
  cases harms : usageFlowArms k inClosure _ arms with
  | none => exact UsageFlow.proper_zero
  | some o => exact proper_usageFlowArms hmissing h o harms

theorem proper_foldl {op : UsageFlow → Expr → UsageFlow}
    (hop : ∀ e ∈ es, ∀ a : UsageFlow, a.Proper → (op a e).Proper) {before : UsageFlow}
    (hbefore : before.Proper) : (es.foldl op before).Proper := by
  induction es generalizing before with
  | nil => exact hbefore
  | cons e es ih =>
    rw [forall_mem_cons] at hop
    exact ih hop.2 (hop.1 before hbefore)

end Parts

/-- The flow of every expression is proper. -/
theorem Expr.proper_usageFlow (k : LocalId) (inClosure : Bool) (e : Expr) :
    (e.usageFlow k inClosure).Proper := by
  induction e using Expr.induction generalizing inClosure with
  | step e ih =>
    obtain ⟨id, form, ty, span⟩ := e
    replace ih : ∀ e ∈ form.children, ∀ inClosure, (e.usageFlow k inClosure).Proper := ih
    -- a list of operands is evaluated one after the other
    have hall {es : List Expr} (hes : ∀ e ∈ es, ∀ inClosure, (e.usageFlow k inClosure).Proper) :
        (usageFlowAll k inClosure .zero es).Proper := by
      rw [usageFlowAll_eq]
      exact proper_foldl (fun e he a ha => ha.followedBy (hes e he _)) UsageFlow.proper_zero
    rw [Expr.usageFlow]
    cases form with
    | literal | fn | op | breakLoop | continueLoop | intrinsic => exact UsageFlow.proper_zero
    | var l =>
      rw [Form.usageFlow]
      split
      · exact UsageFlow.proper_escaped _
      · exact UsageFlow.proper_zero
    | binary op lhs rhs => exact (ih lhs (by simp) _).followedBy (ih rhs (by simp) _)
    | unary _ part | assign _ part | field part _ => exact ih part (by simp) _
    | call callee args =>
      rw [Form.children, forall_mem_cons] at ih
      have hargs := hall ih.2
      simp only [Form.usageFlow]
      split
      · split
        · exact hargs.escaping _
        · exact hargs.followedBy (UsageFlow.proper_ofCount (by simp [Ordered, CallCount.once]))
      · exact (ih.1 _).followedBy hargs
    | perform op args typeArgs => exact hall ih
    | tuple items => exact hall ih
    | block stmts tail =>
      rw [usageFlow_block]
      exact proper_foldl (fun e he a ha => ha.andStmt (ih e he _)) UsageFlow.proper_zero
    | branch cond onTrue onFalse =>
      rw [Form.children, forall_mem_cons, forall_mem_cons] at ih
      cases onFalse with
      | none => exact (ih.1 _).followedBy ((ih.2.1 _).orElse UsageFlow.proper_zero)
      | some e => exact (ih.1 _).followedBy ((ih.2.1 _).orElse (ih.2.2 e (by simp) _))
    | select scrutinee arms =>
      rw [Form.children, forall_mem_cons] at ih
      exact (ih.1 _).followedBy (proper_armsFlow fun e he => ih.2 e he _)
    | loop body => exact (ih body (by simp) _).repeated
    | whileLoop cond body =>
      exact ((ih cond (by simp) _).followedBy (ih body (by simp) _)).repeated
    | ret value =>
      cases value with
      | none => exact UsageFlow.proper_zero.returning
      | some e => exact (ih e (by simp) _).returning
    | handle body clauses finalizer =>
      rw [Form.children, forall_mem_cons] at ih
      have hhandled : (usageFlowClauses k inClosure (body.usageFlow k inClosure)
          clauses).Proper := by
        rw [usageFlowClauses_eq]
        exact proper_foldl
          (fun e he a ha => ha.followedBy (ih.2 e (mem_append_left _ he) _).asClause) (ih.1 _)
      cases finalizer with
      | none => exact hhandled
      | some e => exact hhandled.followedBy (ih.2 e (by simp) _)
    | closure params body => exact UsageFlow.proper_escaped _

/-! ### Where an expression leads -/

section Leads

variable (k : LocalId) (R C : Prop)

/-- Where an expression leads that has not called the continuation. -/
def Expr.Leads (e : Expr) (V : Prop) : Prop := (e.usageFlow k false).Leads R C V

/-- Where expressions lead that are evaluated one after the other. -/
def LeadAll (es : List Expr) (V : Prop) : Prop := es.foldr (Expr.Leads k R C) V

def roundFlow (cond : Option Expr) (body : Expr) : UsageFlow :=
  match cond with
  | some e => (e.usageFlow k false).followedBy (body.usageFlow k false)
  | none => body.usageFlow k false

def LoopLeads (cond : Option Expr) (body : Expr) (V : Prop) : Prop :=
  (roundFlow k cond body).repeated.Leads R C V

variable {k R C} {V V' : Prop}

theorem Expr.Leads.mono {e : Expr} (h : e.Leads k R C V) (hV : V → V') : e.Leads k R C V' :=
  UsageFlow.Leads.mono h hV

theorem LeadAll.mono (h : LeadAll k R C es V) (hV : V → V') : LeadAll k R C es V' := by
  induction es with
  | nil => exact hV h
  | cons e es ih => exact Expr.Leads.mono h ih

/-- What a list does one after the other, each of its members does before the rest. -/
theorem leadAll_of_foldl {op : UsageFlow → Expr → UsageFlow}
    (hop : ∀ a e V, (op a e).Leads R C V → a.Leads R C (e.Leads k R C V)) {before : UsageFlow}
    (h : (es.foldl op before).Leads R C V) : before.Leads R C (LeadAll k R C es V) := by
  induction es generalizing before with
  | nil => exact h
  | cons e es ih => exact hop before e _ (ih h)

theorem leadAll_of_usageFlowAll (h : (usageFlowAll k false .zero es).Leads R C V) :
    LeadAll k R C es V := by
  rw [usageFlowAll_eq] at h
  exact UsageFlow.leads_zero.mp
    (leadAll_of_foldl (fun a e V h => h.followedBy (e.proper_usageFlow k false)) h)

theorem leadAll_of_block {stmts : List Stmt} {tail : Option Expr}
    (h : ((Form.block stmts tail).usageFlow k false).Leads R C V) :
    LeadAll k R C (stmts.filterMap Stmt.expr? ++ tail.toList) V := by
  rw [usageFlow_block] at h
  exact UsageFlow.leads_zero.mp
    (leadAll_of_foldl (fun a e V h => h.andStmt (e.proper_usageFlow k false)) h)

theorem leads_of_binary {op : BinOp} {lhs rhs : Expr}
    (h : ((Form.binary op lhs rhs).usageFlow k false).Leads R C V) :
    lhs.Leads k R C (rhs.Leads k R C V) := by
  exact h.followedBy (rhs.proper_usageFlow k false)

/-- A call of the continuation leads to the call, behind its arguments. -/
theorem leadAll_of_call_continuation {callee : Expr} {args : List Expr}
    (hcallee : callee.isVar k = true)
    (h : ((Form.call callee args).usageFlow k false).Leads R C V) : LeadAll k R C args C := by
  simp only [Form.usageFlow, hcallee, ↓reduceIte, Bool.false_eq_true] at h
  have honce : (UsageFlow.ofCount .once).Proper :=
    UsageFlow.proper_ofCount (by simp [Ordered, CallCount.once])
  refine (leadAll_of_usageFlowAll (h.followedBy honce)).mono fun h => h.calls (.inl ?_)
  simp [UsageFlow.ofCount, CallCount.once]

theorem leadAll_of_call_intrinsic {callee : Expr} {args : List Expr} {which : Intrinsic}
    (hcallee : callee.form = .intrinsic which)
    (h : ((Form.call callee args).usageFlow k false).Leads R C V) :
    LeadAll k R C args V := by
  have hvar : callee.isVar k = false := by simp [Expr.isVar, hcallee]
  have hzero : callee.usageFlow k false = .zero := by
    obtain ⟨id, form, ty, span⟩ := callee
    obtain rfl : form = .intrinsic which := hcallee
    rfl
  simp only [Form.usageFlow, hvar, Bool.false_eq_true, ↓reduceIte, hzero] at h
  have hargs : (usageFlowAll k false .zero args).Proper := by
    rw [usageFlowAll_eq]
    exact proper_foldl (fun e _ a ha => ha.followedBy (e.proper_usageFlow k false))
      UsageFlow.proper_zero
  exact leadAll_of_usageFlowAll (UsageFlow.leads_zero.mp (h.followedBy hargs))

/-- Both branches lead to what follows the choice. -/
theorem leads_of_branch {cond onTrue : Expr} {onFalse : Option Expr}
    (h : ((Form.branch cond onTrue onFalse).usageFlow k false).Leads R C V) :
    cond.Leads k R C (onTrue.Leads k R C V ∧ LeadAll k R C onFalse.toList V) := by
  cases onFalse with
  | none =>
    refine (h.followedBy ((onTrue.proper_usageFlow k false).orElse UsageFlow.proper_zero)).mono
      fun h => ?_
    exact ⟨h.orElse.1, UsageFlow.leads_zero.mp h.orElse.2⟩
  | some e =>
    exact (h.followedBy ((onTrue.proper_usageFlow k false).orElse
      (e.proper_usageFlow k false))).mono fun h => h.orElse

theorem leads_of_usageFlowArms {others : Option UsageFlow}
    (h : ∀ o ∈ usageFlowArms k false others arms, o.Leads R C V) :
    (∀ o ∈ others, o.Leads R C V) ∧ ∀ e ∈ arms.map Arm.body, e.Leads k R C V := by
  induction arms generalizing others with
  | nil => exact ⟨h, by simp⟩
  | cons arm arms ih =>
    obtain ⟨pattern, body⟩ := arm
    obtain ⟨hfirst, hrest⟩ := ih h
    rw [map_cons, forall_mem_cons]
    cases others with
    | none => exact ⟨by simp, hfirst _ rfl, hrest⟩
    | some o =>
      have hjoin := (hfirst _ rfl).orElse
      exact ⟨by simpa using hjoin.1, hjoin.2, hrest⟩

/-- Every arm leads to what follows the choice. -/
theorem leads_of_select {scrutinee : Expr}
    (h : ((Form.select scrutinee arms).usageFlow k false).Leads R C V) :
    scrutinee.Leads k R C (∀ e ∈ arms.map Arm.body, e.Leads k R C V) := by
  refine (h.followedBy (proper_armsFlow fun e _ => e.proper_usageFlow k false)).mono fun h => ?_
  generalize (if arms.any (·.pattern.isIrrefutable) then none else some UsageFlow.zero) =
    missing at h
  have harms : ∀ o ∈ usageFlowArms k false missing arms, o.Leads R C V := by
    intro o ho
    rwa [ho, Option.getD_some] at h
  exact (leads_of_usageFlowArms harms).2

/-- A loop may be over, or go through another round. -/
theorem LoopLeads.unroll {cond : Option Expr} {body : Expr} (h : LoopLeads k R C cond body V) :
    V ∧ LeadAll k R C (cond.toList ++ [body]) (LoopLeads k R C cond body V) := by
  have hbody := body.proper_usageFlow k false
  cases cond with
  | none => exact UsageFlow.Leads.repeated h hbody
  | some e =>
    obtain ⟨hV, hround⟩ :=
      UsageFlow.Leads.repeated h ((e.proper_usageFlow k false).followedBy hbody)
    exact ⟨hV, UsageFlow.Leads.followedBy hround hbody⟩

/-- A value that is returned leads to the return. -/
theorem leadAll_of_ret {value : Option Expr}
    (h : ((Form.ret value).usageFlow k false).Leads R C V) :
    LeadAll k R C value.toList R := by
  cases value with
  | none => exact UsageFlow.leads_zero.mp (UsageFlow.Leads.returning h)
  | some e => exact UsageFlow.Leads.returning h

end Leads

end Effectful
