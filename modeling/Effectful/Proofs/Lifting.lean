import Effectful.Proofs.RowRounds
import Effectful.Proofs.Scoping
/-!
# Units of a program

Lifting goes over an expression part by part and lists what it finds in order (`Expr.lift_eq`,
`Expr.lift_induction`), so the position that a handler remembers for its units is where they stand
in the list.  If the code of every function keeps to the function, then so does the code of every
unit, and a handler passes as many locals to its units as they have parameters
(`Program.Scoped.lift`).
-/

namespace Effectful

open List

variable {e : Expr} {n : Nat} {p' : Program}

/-! ### The course of lifting -/

namespace LiftedProgram

variable (p q r : LiftedProgram)

@[simp]
theorem units_append : (p ++ q).units = p.units ++ q.units := rfl

@[simp]
theorem lifted_append : (p ++ q).lifted = p.lifted ++ q.lifted := rfl

@[simp]
theorem append_empty : p ++ ({} : LiftedProgram) = p := by
  show LiftedProgram.mk (p.units ++ []) (p.lifted ++ []) (p.diagnostics ++ []) = p
  simp

theorem append_assoc : p ++ q ++ r = p ++ (q ++ r) := by
  have happend (p q : LiftedProgram) :
      p ++ q = ⟨p.units ++ q.units, p.lifted ++ q.lifted, p.diagnostics ++ q.diagnostics⟩ := rfl
  simp only [happend, List.append_assoc]

end LiftedProgram

section Run

variable {f : FnDecl} {a : EffectAnalysis} {s : LiftState}

theorem liftAll_nil : liftAll f a [] s = ({}, s) := rfl

/-- Lists are lifted from the left; positions go on where the last one stopped. -/
theorem liftAll_cons (e : Expr) (es : List Expr) :
    liftAll f a (e :: es) s =
      ((e.lift f a s).1 ++ (liftAll f a es (e.lift f a s).2).1,
        (liftAll f a es (e.lift f a s).2).2) := rfl

theorem liftAll_singleton (e : Expr) : liftAll f a [e] s = e.lift f a s := by
  exact Prod.ext (LiftedProgram.append_empty _) rfl

theorem liftAll_append (es es' : List Expr) :
    liftAll f a (es ++ es') s =
      ((liftAll f a es s).1 ++ (liftAll f a es' (liftAll f a es s).2).1,
        (liftAll f a es' (liftAll f a es s).2).2) := by
  induction es generalizing s with
  | nil => rfl
  | cons e es ih =>
    rw [cons_append, liftAll_cons, ih, liftAll_cons, LiftedProgram.append_assoc]

theorem liftStmts_eq (ss : List Stmt) :
    liftStmts f a ss s = liftAll f a (ss.filterMap Stmt.expr?) s := by
  induction ss generalizing s with
  | nil => rfl
  | cons st ss ih =>
    match st with
    | .bind l none => exact ih
    | .bind l (some e) | .expr e =>
      rw [filterMap_cons_some (by rfl), liftAll_cons, ← ih]
      rfl

theorem liftArms_eq (arms : List Arm) :
    liftArms f a arms s = liftAll f a (arms.map Arm.body) s := by
  induction arms generalizing s with
  | nil => rfl
  | cons arm arms ih =>
    obtain ⟨pattern, body⟩ := arm
    rw [map_cons, liftAll_cons, ← ih]
    rfl

theorem liftClauses_eq (clauses : List Clause) :
    liftClauses f a clauses s = liftAll f a (clauses.map Clause.body) s := by
  induction clauses generalizing s with
  | nil => rfl
  | cons clause clauses ih =>
    obtain ⟨head, body⟩ := clause
    rw [map_cons, liftAll_cons, ← ih]
    rfl

/-- **Lifting of a construct that stays**: its parts in order. -/
theorem Expr.lift_eq (h : e.form.isHandle = false ∨ a.isLifted e.id = false) :
    e.lift f a s = liftAll f a e.form.children s := by
  obtain ⟨id, form, ty, span⟩ := e
  cases form with
  | binary | whileLoop =>
    rw [Expr.form, Form.children, liftAll_cons, liftAll_singleton]
    rfl
  | unary | assign | loop | closure | field => exact (liftAll_singleton _).symm
  | select scrutinee arms =>
    rw [Expr.form, Form.children, liftAll_cons, ← liftArms_eq]
    rfl
  | block stmts tail =>
    rw [Expr.form, Form.children, liftAll_append, ← liftStmts_eq]
    cases tail with
    | none => exact Prod.ext (LiftedProgram.append_empty _).symm rfl
    | some e =>
      rw [Option.toList_some, liftAll_singleton]
      rfl
  | branch cond onTrue onFalse =>
    rw [Expr.form, Form.children, liftAll_cons, liftAll_cons]
    cases onFalse with
    | none =>
      rw [Option.toList_none, liftAll_nil, LiftedProgram.append_empty]
      rfl
    | some e =>
      rw [Option.toList_some, liftAll_singleton, ← LiftedProgram.append_assoc]
      rfl
  | ret value =>
    cases value with
    | none => rfl
    | some e => exact (liftAll_singleton _).symm
  | handle body clauses finalizer =>
    have hid : a.isLifted id = false := by simpa [Form.isHandle, Expr.id] using h
    rw [Expr.form, Form.children, liftAll_cons, liftAll_append, ← liftClauses_eq]
    cases finalizer with
    | none =>
      show (if a.isLifted id then _ else _ : LiftM LiftedProgram) s = _
      rw [if_neg (by simp [hid]), Option.toList_none, liftAll_nil, LiftedProgram.append_empty]
      rfl
    | some e =>
      show (if a.isLifted id then _ else _ : LiftM LiftedProgram) s = _
      rw [if_neg (by simp [hid]), Option.toList_some, liftAll_singleton,
        ← LiftedProgram.append_assoc]
      rfl
  | _ => rfl

/-- What lifting finds at a handler that is cut out, given what it finds inside. -/
def liftedHandle (f : FnDecl) (a : EffectAnalysis) (n bodyAt driveAt : Nat) (id : ExprId) (ty : Ty)
    (span : Span) (body : Expr) (clauses : List Clause) (inBody inClauses : LiftedProgram) :
    LiftedProgram where
  units := bodyUnit f a n id ty body :: inBody.units ++ driveUnit f a n id ty span clauses ::
    inClauses.units
  lifted := inBody.lifted ++ inClauses.lifted ++
    [(id, ⟨bodyAt, driveAt, (bodyUnit f a n id ty body).params,
    (driveUnit f a n id ty span clauses).params⟩)]
  diagnostics := inBody.diagnostics
    ++ regionProblems f ⟨(bodyUnit f a n id ty body).params, false⟩ (bodyUnit f a n id ty body).body
    ++ inClauses.diagnostics
    ++ (cutClauses a clauses).flatMap
    fun c => regionProblems f ⟨(driveUnit f a n id ty span clauses).params, true⟩ c.body

theorem Expr.lift_of_isLifted {id : ExprId} {body : Expr} {clauses : List Clause}
    {finalizer : Option Expr} {ty : Ty} {span : Span} {inBody inClauses : LiftedProgram}
    {s₁ s₂ : LiftState} (h : a.isLifted id = true)
    (hbody : body.lift f a ⟨s.nextHandle + 1, s.nextUnit + 1⟩ = (inBody, s₁))
    (hclauses : liftAll f a (clauses.map Clause.body) ⟨s₁.nextHandle, s₁.nextUnit + 1⟩ =
      (inClauses, s₂)) :
    (Expr.node id (.handle body clauses finalizer) ty span).lift f a s =
      (liftedHandle f a s.nextHandle s.nextUnit s₁.nextUnit id ty span body clauses inBody
        inClauses, s₂) := by
  rw [← liftClauses_eq] at hclauses
  have hrun :
      (do
        let n ← LiftM.takeHandle
        let bodyAt ← LiftM.takeUnit
        let inBody ← body.lift f a
        let driveAt ← LiftM.takeUnit
        let inClauses ← liftClauses f a clauses
        return liftedHandle f a n bodyAt driveAt id ty span body clauses inBody inClauses :
          LiftM LiftedProgram) s =
      (liftedHandle f a s.nextHandle s.nextUnit s₁.nextUnit id ty span body clauses inBody
      inClauses, s₂) := by
    show (liftedHandle f a s.nextHandle s.nextUnit
      (body.lift f a ⟨s.nextHandle + 1, s.nextUnit + 1⟩).2.nextUnit id ty span body clauses
      (body.lift f a ⟨s.nextHandle + 1, s.nextUnit + 1⟩).1
      (liftClauses f a clauses ⟨(body.lift f a ⟨s.nextHandle + 1, s.nextUnit + 1⟩).2.nextHandle,
        (body.lift f a ⟨s.nextHandle + 1, s.nextUnit + 1⟩).2.nextUnit + 1⟩).1,
      (liftClauses f a clauses ⟨(body.lift f a ⟨s.nextHandle + 1, s.nextUnit + 1⟩).2.nextHandle,
        (body.lift f a ⟨s.nextHandle + 1, s.nextUnit + 1⟩).2.nextUnit + 1⟩).2) = _
    rw [hbody, hclauses]
  cases finalizer <;> exact (congrFun (if_pos h) s).trans hrun

/-- **Induction along lifting**: over the parts of a construct that stays, and over the inside of a
handler that is cut out. -/
theorem Expr.lift_induction {M : List Expr → LiftState → LiftedProgram → LiftState → Prop}
    (nil : ∀ s, M [] s {} s)
    (cons : ∀ {e es s r s₁ r' s'}, M [e] s r s₁ → M es s₁ r' s' → M (e :: es) s (r ++ r') s')
    (stays : ∀ {e s r s'}, e.form.isHandle = false ∨ a.isLifted e.id = false → M e.form.children s r
      s' → M [e] s r s')
    (lifted : ∀ {id body clauses finalizer ty span s r s₁ r' s'}, a.isLifted id = true →
      M [body] ⟨s.nextHandle + 1, s.nextUnit + 1⟩ r s₁ →
      M (clauses.map Clause.body) ⟨s₁.nextHandle, s₁.nextUnit + 1⟩ r' s' →
      M [.node id (.handle body clauses finalizer) ty span] s
        (liftedHandle f a s.nextHandle s.nextUnit s₁.nextUnit id ty span body clauses r r') s')
    (e : Expr) (s : LiftState) : M [e] s (e.lift f a s).1 (e.lift f a s).2 := by
  induction e using Expr.induction generalizing s with
  | step e ih =>
    have hparts (es : List Expr) (hes : es ⊆ e.form.children) (s : LiftState) :
        M es s (liftAll f a es s).1 (liftAll f a es s).2 := by
      induction es generalizing s with
      | nil => exact nil s
      | cons c es ihes =>
        obtain ⟨hc, hes⟩ := cons_subset.mp hes
        exact cons (ih c hc s) (ihes hes _)
    by_cases hstays : e.form.isHandle = false ∨ a.isLifted e.id = false
    · rw [lift_eq hstays]
      exact stays hstays (hparts _ (List.Subset.refl _) s)
    · obtain ⟨id, form, ty, span⟩ := e
      obtain ⟨hhandle, hid⟩ := not_or.mp hstays
      cases form with
      | handle body clauses finalizer =>
        have hlifted : a.isLifted id = true := by simpa [Expr.id] using hid
        rw [lift_of_isLifted hlifted rfl rfl]
        refine lifted hlifted (ih body mem_cons_self _) (hparts _ ?_ _)
        exact fun x hx => mem_cons_of_mem _ (mem_append_left _ hx)
      | _ => exact absurd rfl hhandle

end Run

/-! ### Units keep to their functions -/

/-- A unit of a function with `n` locals. -/
structure LoweringUnit.InScope (arity : DefId → Option Nat) (handles : ExprId → Prop) (n : Nat)
    (u : LoweringUnit) :
    Prop where
  params : ∀ l ∈ u.params, l.index < n
  body : u.body.Scoped arity handles n

/-- The unit at a position, if the list starts at `first`. -/
def UnitAt (first : Nat) (units : List LoweringUnit) (position : Nat) (u : LoweringUnit) : Prop :=
  ∃ i, position = first + i ∧ units[i]? = some u

/-- A cut-out handler finds its units and has the locals that they take. -/
structure LiftedHandle.Finds (n first : Nat) (units : List LoweringUnit) (h : LiftedHandle) :
    Prop where
  args : ∀ l ∈ h.bodyArgs ++ h.driveArgs, l.index < n
  body : ∃ u, UnitAt first units h.bodyUnit u ∧ u.effectful = true ∧ u.isDrive = false ∧
    u.params = h.bodyArgs
  drive : ∃ u, UnitAt first units h.driveUnit u ∧ u.effectful = true ∧ u.isDrive = true ∧
    u.params = h.driveArgs

section UnitAt

variable {first position : Nat} {us vs : List LoweringUnit} {u : LoweringUnit}

/-- Units are found where they are when more are added on either side. -/
theorem UnitAt.append_left (h : UnitAt first us position u) :
    UnitAt first (us ++ vs) position u := by
  obtain ⟨i, hi, hu⟩ := h
  obtain ⟨hlt, -⟩ := List.getElem?_eq_some_iff.mp hu
  exact ⟨i, hi, by rw [getElem?_append_left hlt, hu]⟩

theorem UnitAt.append_right (h : UnitAt (first + us.length) vs position u) :
    UnitAt first (us ++ vs) position u := by
  obtain ⟨i, hi, hu⟩ := h
  exact ⟨us.length + i, by omega, by rw [getElem?_append_right (by omega),
    Nat.add_sub_cancel_left, hu]⟩

theorem LiftedHandle.Finds.append_left {h : LiftedHandle} (hh : h.Finds n first us) :
    h.Finds n first (us ++ vs) := by
  obtain ⟨b, hb, hb'⟩ := hh.body
  obtain ⟨d, hd, hd'⟩ := hh.drive
  exact ⟨hh.args, ⟨b, hb.append_left, hb'⟩, ⟨d, hd.append_left, hd'⟩⟩

theorem LiftedHandle.Finds.append_right (us : List LoweringUnit) {h : LiftedHandle}
    (hh : h.Finds n (first + us.length) vs) : h.Finds n first (us ++ vs) := by
  obtain ⟨b, hb, hb'⟩ := hh.body
  obtain ⟨d, hd, hd'⟩ := hh.drive
  exact ⟨hh.args, ⟨b, hb.append_right, hb'⟩, ⟨d, hd.append_right, hd'⟩⟩

end UnitAt

theorem Expr.mem_freeLocals {l : LocalId} (h : l ∈ e.freeLocals) :
    ∃ x ∈ e.walk, l ∈ x.form.usedLocals := by
  rw [freeLocals, mem_filter, LocalSet.mem_ofList, mem_flatMap] at h
  exact h.1

/-- Free locals are locals of the function. -/
theorem Expr.Scoped.freeLocals {arity : DefId → Option Nat} {handles : ExprId → Prop}
    (h : e.Scoped arity handles n) :
    ∀ l ∈ e.freeLocals, l.index < n := by
  intro l hl
  obtain ⟨x, hx, hl⟩ := mem_freeLocals hl
  exact (h x hx).locals l (mem_append_left _ hl)

/-- What lifting finds in code of a function, if the first unit stands at `first`. -/
structure LiftFits (f : FnDecl) (arity : DefId → Option Nat) (handles : ExprId → Prop)
    (n first : Nat) (r : LiftedProgram) : Prop where
  unit : ∀ u ∈ r.units, u.owner = f.id ∧ u.kind ≠ .function ∧ u.effectful = true ∧ u.InScope
    arity handles n
  handle : ∀ id h, (id, h) ∈ r.lifted → handles id ∧ h.Finds n first r.units

section Fits

variable {f : FnDecl} {arity : DefId → Option Nat} {handles : ExprId → Prop} {first : Nat}

theorem LiftFits.empty : LiftFits f arity handles n first {} := ⟨by simp, by simp⟩

/-- What is lifted in turn fits if each of it fits at its place. -/
theorem LiftFits.append {r r' : LiftedProgram} (h : LiftFits f arity handles n first r)
    (h' : LiftFits f arity handles n (first + r.units.length) r') :
    LiftFits f arity handles n first (r ++ r') := by
  refine ⟨fun u hu => ?_, fun id l hl => ?_⟩
  · exact (mem_append.mp hu).elim (h.unit u) (h'.unit u)
  · obtain hl | hl := mem_append.mp hl
    · exact ⟨(h.handle id l hl).1, (h.handle id l hl).2.append_left⟩
    · exact ⟨(h'.handle id l hl).1, (h'.handle id l hl).2.append_right _⟩

variable {a : EffectAnalysis}

/-- The drive unit of a handler is in scope if the handler is. -/
theorem inScope_driveUnit {id : ExprId} {body : Expr} {clauses : List Clause}
    {finalizer : Option Expr} {ty : Ty} {span : Span} (i : Nat)
    (h : (Expr.node id (.handle body clauses finalizer) ty span).Scoped arity handles n) :
    (driveUnit f a i id ty span clauses).InScope arity handles n := by
  rw [Expr.scoped_iff] at h
  -- a handler with the same heads, and bodies in scope
  have hscoped (clauses' : List Clause)
      (hheads : clauses'.map Clause.head = clauses.map Clause.head)
      (hbodies : ∀ e ∈ clauses'.map Clause.body, e.Scoped arity handles n) :
      (emptyHandle id ty span clauses').Scoped arity handles n := by
    have hdeclared (cs : List Clause) :
        cs.flatMap (fun c => c.head.continuation :: c.head.params) =
          (cs.map Clause.head).flatMap fun h => h.continuation :: h.params := by
      rw [flatMap_map]
    rw [Expr.scoped_iff]
    refine ⟨⟨?_, ?_, fun _ => h.1.handle rfl⟩, ?_⟩
    · have hlocals := h.1.locals
      simp only [emptyHandle, Expr.form, Form.usedLocals, Form.declaredLocals, nil_append]
      rwa [hdeclared, hheads, ← hdeclared]
    · intro callee args d k hform
      cases hform
    · intro c hc
      simp only [emptyHandle, Expr.form, Form.children, Option.toList_none, append_nil,
        mem_cons] at hc
      obtain rfl | hc := hc
      · exact Expr.scoped_unitAt _ _
      · exact hbodies c hc
  have hbodies : ∀ e ∈ clauses.map Clause.body, e.Scoped arity handles n := by
    intro e he
    exact h.2 e (by simp only [Expr.form,
      Form.children]; exact mem_cons_of_mem _ (mem_append_left _ he))
  refine ⟨(hscoped clauses rfl hbodies).freeLocals, ?_⟩
  have hcut := cutClauses_eq (a := a) clauses []
  obtain ⟨hcutBodies, hheads⟩ :=
    Form.map_body_withBodies clauses ((clauses.map Clause.body).map (Expr.cut a)) (by simp) []
  rw [← hcut] at hcutBodies hheads
  refine hscoped _ hheads ?_
  rw [hcutBodies]
  intro e he
  obtain ⟨e, he', rfl⟩ := mem_map.mp he
  exact Expr.scoped_cut (hbodies e he')

/-- **What lifting finds**: units of the function, in as many positions as are counted. -/
theorem Expr.Scoped.lift (h : e.Scoped arity handles n) (s : LiftState) :
    (e.lift f a s).2.nextUnit = s.nextUnit + (e.lift f a s).1.units.length ∧
      LiftFits f arity handles n s.nextUnit (e.lift f a s).1 := by
  refine Expr.lift_induction (f := f) (a := a)
    (M := fun es s r s' => (∀ e ∈ es, e.Scoped arity handles n) →
    s'.nextUnit = s.nextUnit + r.units.length ∧ LiftFits f arity handles n s.nextUnit r) ?_
    ?_ ?_ ?_ e s
    (forall_mem_singleton.mpr h)
  · exact fun s _ => ⟨rfl, .empty⟩
  · intro e es s r s₁ r' s' h h' hes
    obtain ⟨he, hes⟩ := forall_mem_cons.mp hes
    obtain ⟨hcount, hfits⟩ := h (forall_mem_singleton.mpr he)
    obtain ⟨hcounts, hrest⟩ := h' hes
    refine ⟨?_, hfits.append (by rwa [← hcount])⟩
    rw [hcounts, hcount, LiftedProgram.units_append, length_append, Nat.add_assoc]
  · intro e s r s' _ h hes
    exact h (Expr.scoped_iff.mp (forall_mem_singleton.mp hes)).2
  · intro id body clauses finalizer ty span s inBody s₁ inClauses s₂ _ hbody hclauses hes
    have hhandle := forall_mem_singleton.mp hes
    have hparts := Expr.scoped_iff.mp hhandle
    have hbodyScoped : body.Scoped arity handles n := hparts.2 body mem_cons_self
    obtain ⟨hcount, hbody⟩ := hbody (forall_mem_singleton.mpr hbodyScoped)
    obtain ⟨hcounts, hclauses⟩ := hclauses fun e he =>
      hparts.2 e (mem_cons_of_mem _ (mem_append_left _ he))
    simp only at hcount hbody hcounts hclauses
    have hbodyUnit : (bodyUnit f a s.nextHandle id ty body).InScope arity handles n :=
      ⟨hbodyScoped.freeLocals, Expr.scoped_cut hbodyScoped⟩
    have hdriveUnit : (driveUnit f a s.nextHandle id ty span clauses).InScope arity handles n :=
      inScope_driveUnit s.nextHandle hhandle
    refine ⟨?_, ?_, ?_⟩
    · simp only [liftedHandle, length_append, length_cons]
      omega
    · intro u hu
      simp only [liftedHandle, cons_append, mem_cons, mem_append] at hu
      obtain rfl | hu | rfl | hu := hu
      · exact ⟨rfl, by simp [bodyUnit], rfl, hbodyUnit⟩
      · exact hbody.unit u hu
      · exact ⟨rfl, by simp [driveUnit], rfl, hdriveUnit⟩
      · exact hclauses.unit u hu
    · -- the units of the body stand behind the body unit, those of the clauses behind the drive
      -- unit
      have hfirst : s₁.nextUnit = s.nextUnit +
          (bodyUnit f a s.nextHandle id ty body :: inBody.units).length := by
        rw [hcount, length_cons]
        omega
      intro i l hl
      simp only [liftedHandle, mem_append, mem_singleton, Prod.mk.injEq] at hl
      obtain (hl | hl) | ⟨rfl, rfl⟩ := hl
      · obtain ⟨hi, hfinds⟩ := hbody.handle i l hl
        refine ⟨hi, LiftedHandle.Finds.append_left ?_⟩
        exact hfinds.append_right [bodyUnit f a s.nextHandle id ty body]
      · obtain ⟨hi, hfinds⟩ := hclauses.handle i l hl
        refine ⟨hi, LiftedHandle.Finds.append_right _ ?_⟩
        rw [← hfirst]
        exact hfinds.append_right [driveUnit f a s.nextHandle id ty span clauses]
      · refine ⟨hparts.1.handle rfl, ?_, ⟨_, ⟨0, rfl, rfl⟩, rfl, rfl, rfl⟩,
          ⟨_, UnitAt.append_right ?_, rfl, rfl, rfl⟩⟩
        · intro l hl
          exact (mem_append.mp hl).elim (hbodyUnit.params l) (hdriveUnit.params l)
        · exact ⟨0, by rw [← hfirst, Nat.add_zero], rfl⟩

end Fits

/-! ### Programs -/

/-- The code of every function keeps to the function.  `handles` are the ids of the handlers of each
function, and no two functions share one. -/
structure Program.Scoped (p : Program) (arity : DefId → Option Nat)
    (handles : DefId → ExprId → Prop) : Prop where
  distinct : p.DistinctFunctions
  arity_eq : ∀ f ∈ p.functions, arity f.id = some f.params.length
  params : ∀ f ∈ p.functions, ∀ l ∈ f.params, l.index < f.locals.length
  body : ∀ f ∈ p.functions, f.body.Scoped arity (handles f.id) f.locals.length
  apart : ∀ d d' id, handles d id → handles d' id → d = d'

section Program

variable {p : Program} {a : EffectAnalysis} {arity : DefId → Option Nat}
  {handles : DefId → ExprId → Prop}

theorem Program.DistinctFunctions.function? (hp : p.DistinctFunctions) {f : FnDecl}
    (hf : f ∈ p.functions) :
    p.function? f.id = some f := by
  cases hfind : p.function? f.id with
  | none => exact absurd (find?_eq_none.mp hfind f hf) (by simp)
  | some g =>
    have hid : g.id = f.id := by simpa using find?_some hfind
    rw [hp.eq_of_id (mem_of_find?_eq_some hfind) hf hid]

/-- Normalization changes the bodies and adds locals. -/
theorem normalizeFns_functions (fs : List FnDecl) (next : Nat) :
    List.Forall₂ (fun f f' => ∃ s, s.locals = f.locals ∧
      f' = { f with body := (f.body.normalize a s).1, locals := (f.body.normalize a s).2.locals })
      fs (normalizeFns a next fs).1 := by
  induction fs generalizing next with
  | nil => exact .nil
  | cons f fs ih => exact .cons ⟨⟨f.locals, next⟩, rfl, rfl⟩ (ih _)

theorem Program.functions_of_normalize? (h : p.normalize? a = some p') :
    List.Forall₂ (fun f f' => ∃ s, s.locals = f.locals ∧
      f' = { f with body := (f.body.normalize a s).1, locals := (f.body.normalize a s).2.locals })
      p.functions p'.functions := by
  have hfns := normalizeFns_functions (a := a) p.functions (p.maxExprId + 1)
  simp only [normalize?, Option.ite_none_right_eq_some, Option.some.injEq] at h
  obtain ⟨-, rfl⟩ := h
  exact hfns

theorem Program.exists_of_mem_normalize? (h : p.normalize? a = some p') {f' : FnDecl}
    (hf' : f' ∈ p'.functions) : ∃ f ∈ p.functions, ∃ s : NormalState, s.locals = f.locals ∧
      f' = { f with body := (f.body.normalize a s).1, locals :=
      (f.body.normalize a s).2.locals } := by
  have hfns := functions_of_normalize? h
  have hlen := hfns.length_eq
  obtain ⟨i, hi, rfl⟩ := getElem_of_mem hf'
  exact ⟨p.functions[i], getElem_mem _, (forall₂_iff_get.mp hfns).2 i (by omega) hi⟩

/-- **Normalization keeps the code of every function in scope.** -/
theorem Program.Scoped.normalize (hp : p.Scoped arity handles) (h : p.normalize? a = some p') :
    p'.Scoped arity handles := by
  have hfns := functions_of_normalize? h
  have hids : p'.functions.map (·.id) = p.functions.map (·.id) := by
    generalize p.functions = fs, p'.functions = fs' at hfns
    induction hfns with
    | nil => rfl
    | cons hf _ ih =>
      obtain ⟨s, -, rfl⟩ := hf
      rw [map_cons, map_cons, ih]
  have hof (f' : FnDecl) (hf' : f' ∈ p'.functions) := exists_of_mem_normalize? h hf'
  refine ⟨?_, ?_, ?_, ?_, hp.apart⟩
  · rw [DistinctFunctions, hids]
    exact hp.distinct
  · intro f' hf'
    obtain ⟨f, hf, s, -, rfl⟩ := hof f' hf'
    exact hp.arity_eq f hf
  · intro f' hf' l hl
    obtain ⟨f, hf, s, hs, rfl⟩ := hof f' hf'
    obtain ⟨hext, -, -⟩ : _ ∧ _ ∧ (f.body.Scoped arity (handles f.id) _ → _) :=
      Expr.scoped_normalize (a := a) f.body s
    have hgrown := hext.length_le
    rw [hs] at hgrown
    exact Nat.lt_of_lt_of_le (hp.params f hf l hl) hgrown
  · intro f' hf'
    obtain ⟨f, hf, s, hs, rfl⟩ := hof f' hf'
    exact (Expr.scoped_normalize f.body s).2.2 (by rw [hs]; exact hp.body f hf)

/-- The unit of a function, or one that was cut out of it. -/
structure LoweringUnit.Belongs (u : LoweringUnit) (f : FnDecl) (a : EffectAnalysis)
    (arity : DefId → Option Nat) (handles : ExprId → Prop) : Prop where
  owner : u.owner = f.id
  function : u.kind = .function → u = functionUnit f a
  effectful : u.kind ≠ .function → u.effectful = true
  scope : u.InScope arity handles f.locals.length

/-- The units of a program, and the handlers that call them. -/
structure LiftedProgram.Fits (r : LiftedProgram) (fs : List FnDecl) (a : EffectAnalysis)
    (arity : DefId → Option Nat) (handles : DefId → ExprId → Prop) (first : Nat) : Prop where
  unit : ∀ u ∈ r.units, ∃ f ∈ fs, u.Belongs f a arity (handles f.id)
  handle : ∀ id h, (id, h) ∈ r.lifted → ∃ f ∈ fs, handles f.id id ∧ h.Finds f.locals.length
    first r.units

theorem FnDecl.fits_lift {f : FnDecl} (hparams : ∀ l ∈ f.params, l.index < f.locals.length)
    (hbody : f.body.Scoped arity (handles f.id) f.locals.length) (position : Nat) :
    (f.lift a position).Fits [f] a arity handles position := by
  obtain ⟨-, hfits⟩ := hbody.lift (f := f) (a := a) ⟨0, position + 1⟩
  refine ⟨fun u hu => ⟨f, mem_singleton_self f, ?_⟩, fun id h hh => ⟨f, mem_singleton_self f, ?_⟩⟩
  · obtain rfl | hu := mem_cons.mp hu
    · exact ⟨rfl, fun _ => rfl, fun h => absurd rfl h, hparams, Expr.scoped_cut hbody⟩
    · obtain ⟨howner, hkind, heff, hscope⟩ := hfits.unit u hu
      exact ⟨howner, fun h => absurd h hkind, fun _ => heff, hscope⟩
  · obtain ⟨hid, hfinds⟩ := hfits.handle id h hh
    exact ⟨hid, hfinds.append_right [functionUnit f a]⟩

/-- The units of all functions fit, each at its position. -/
theorem fits_liftFns {fs : List FnDecl}
    (hparams : ∀ f ∈ fs, ∀ l ∈ f.params, l.index < f.locals.length)
    (hbody : ∀ f ∈ fs, f.body.Scoped arity (handles f.id) f.locals.length) (position : Nat) :
    (liftFns a position fs).Fits fs a arity handles position := by
  induction fs generalizing position with
  | nil => exact ⟨by simp [liftFns], by simp [liftFns]⟩
  | cons f fs ih =>
    rw [forall_mem_cons] at hparams hbody
    have hf := FnDecl.fits_lift (a := a) hparams.1 hbody.1 position
    have hfs := ih hparams.2 hbody.2 (position + (f.lift a position).units.length)
    refine ⟨fun u hu => ?_, fun id h hh => ?_⟩
    · obtain hu | hu := mem_append.mp hu
      · obtain ⟨g, hg, hu⟩ := hf.unit u hu
        exact ⟨g, mem_cons.mpr (.inl (mem_singleton.mp hg)), hu⟩
      · obtain ⟨g, hg, hu⟩ := hfs.unit u hu
        exact ⟨g, mem_cons_of_mem _ hg, hu⟩
    · obtain hh | hh := mem_append.mp hh
      · obtain ⟨g, hg, hid, hfinds⟩ := hf.handle id h hh
        exact ⟨g, mem_cons.mpr (.inl (mem_singleton.mp hg)), hid, hfinds.append_left⟩
      · obtain ⟨g, hg, hid, hfinds⟩ := hfs.handle id h hh
        exact ⟨g, mem_cons_of_mem _ hg, hid, hfinds.append_right _⟩

/-- **Units keep to the functions that they come from**, and handlers know where their units
stand. -/
theorem Program.Scoped.lift (hp : p.Scoped arity handles) :
    (∀ u ∈ (p.lift a).units, ∃ f ∈ p.functions, u.Belongs f a arity (handles f.id)) ∧
      ∀ id h, (p.lift a).handle? id = some h →
        ∃ f ∈ p.functions, handles f.id id ∧ h.Finds f.locals.length 0 (p.lift a).units := by
  have hfits := fits_liftFns (a := a) hp.params hp.body 0
  refine ⟨hfits.unit, fun id h hh => ?_⟩
  obtain hh | ⟨b, hb, rfl, rfl⟩ :=
    Assoc.of_get?_foldl_set (fun b : ExprId × LiftedHandle => b.1) (·.2) hh
  · simp at hh
  · exact hfits.handle b.1 b.2 hb

end Program

end Effectful
