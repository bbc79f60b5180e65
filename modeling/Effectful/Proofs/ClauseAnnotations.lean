import Effectful.Proofs.RowInference
/-!
# Annotations of clauses and the instance that a handler answers

The annotated parameter types of a clause choose among overloads.  They are compared with the
declaration of the operation, in which the parameters of a generic operation stand for anything.
Only then the types of the clause's parameters are fixed, by the instance of the operation that the
guarded body performs.  So an annotation need not agree with the type that the parameter has in the
end (`annotation_beside_instance`).

`annotations_agree_iff` says what holds: the annotations agree with the declaration, and they agree
with the types of the parameters exactly if each type argument agrees with what is annotated in its
place.
-/

namespace Effectful

open List

namespace Ty

/-! ### What an annotation has in the place of a parameter -/

mutual

/-- The parts of the second type where the first one has parameters, each with the number of the
parameter. -/
def atParams : Ty → Ty → List (Nat × Ty)
  | .param i, b => [(i, b)]
  | .tuple as, .tuple bs => atParamsAll as bs
  | .fn as r, .fn bs s => atParamsAll as bs ++ atParams r s
  | .continuation a r, .continuation b s => atParams a b ++ atParams r s
  | _, _ => []

def atParamsAll : List Ty → List Ty → List (Nat × Ty)
  | a :: as, b :: bs => atParams a b ++ atParamsAll as bs
  | _, _ => []

end

/-- The type arguments agree with what stands in the places of the parameters. -/
def ArgsAgree (args : List Ty) (parts : List (Nat × Ty)) : Prop :=
  ∀ part ∈ parts, ∀ t, args[part.1]? = some t → t.agrees part.2 = true

@[simp]
theorem argsAgree_nil (args : List Ty) : ArgsAgree args [] := nofun

@[simp]
theorem argsAgree_append {args : List Ty} {parts parts' : List (Nat × Ty)} :
    ArgsAgree args (parts ++ parts') ↔ ArgsAgree args parts ∧ ArgsAgree args parts' :=
      forall_mem_append

/-- Without type arguments there is nothing to disagree. -/
theorem argsAgree_of_noArgs (parts : List (Nat × Ty)) : ArgsAgree [] parts := nofun

mutual

/-- A type without parameters has no places for arguments. -/
theorem atParams_eq_nil : ∀ {a : Ty} (b : Ty), a.isGeneric = false → a.atParams b = []
  | .unit, b, _ | .bool, b, _ | .i32, b, _ | .i64, b, _ | .f32, b, _ | .f64, b, _ => by
      cases b <;> rfl
  | .tuple as, b, h => by
    cases b with
    | tuple bs => exact atParamsAll_eq_nil bs h
    | _ => rfl
  | .fn as r, b, h => by
    cases b with
    | fn bs s =>
      rw [isGeneric, Bool.or_eq_false_iff] at h
      rw [atParams, atParamsAll_eq_nil bs h.1, atParams_eq_nil s h.2, append_nil]
    | _ => rfl
  | .continuation a r, b, h => by
    cases b with
    | continuation b s =>
      rw [isGeneric, Bool.or_eq_false_iff] at h
      rw [atParams, atParams_eq_nil b h.1, atParams_eq_nil s h.2, append_nil]
    | _ => rfl

theorem atParamsAll_eq_nil : ∀ {as : List Ty} (bs : List Ty), anyGeneric as = false →
    atParamsAll as bs = []
  | [], bs, _ => by cases bs <;> rfl
  | a :: as, bs, h => by
    cases bs with
    | nil => rfl
    | cons b bs =>
      rw [anyGeneric, Bool.or_eq_false_iff] at h
      rw [atParamsAll, atParams_eq_nil b h.1, atParamsAll_eq_nil bs h.2, append_nil]

end

/-! ### Agreement -/

mutual

theorem agrees_comm : ∀ a b : Ty, a.agrees b = b.agrees a
  | .unit, b | .bool, b | .i32, b | .i64, b | .f32, b | .f64, b | .param _, b => by
      cases b <;> simp [agrees]
  | .tuple as, b => by
    cases b with
    | tuple bs => rw [agrees, agrees, agreesAll_comm as bs]
    | _ => simp [agrees]
  | .fn as r, b => by
    cases b with
    | fn bs s => rw [agrees, agrees, agreesAll_comm as bs, agrees_comm r s]
    | _ => simp [agrees]
  | .continuation a r, b => by
    cases b with
    | continuation b s => rw [agrees, agrees, agrees_comm a b, agrees_comm r s]
    | _ => simp [agrees]

theorem agreesAll_comm : ∀ as bs : List Ty, agreesAll as bs = agreesAll bs as
  | [], bs => by cases bs <;> rfl
  | a :: as, bs => by
    cases bs with
    | nil => rfl
    | cons b bs => rw [agreesAll, agreesAll, agrees_comm a b, agreesAll_comm as bs]

end

mutual

/-- The instance of a type agrees with another type if the type itself does and the arguments agree
with what the other type has in their places. -/
theorem agrees_substitute (args : List Ty) :
    ∀ a b : Ty, (a.substitute args).agrees b = true ↔ a.agrees b = true ∧
      ArgsAgree args (a.atParams b)
  | .unit, b | .bool, b | .i32, b | .i64, b | .f32, b | .f64, b => by
    cases b <;> simp [substitute, agrees, atParams]
  | .param i, b => by
    rw [substitute, agrees, atParams]
    cases h : args[i]? with
    | none => simp [ArgsAgree, agrees, h]
    | some t => simp [ArgsAgree, h]
  | .tuple as, b => by
    cases b with
    | tuple bs => exact agreesAll_substituteAll args as bs
    | _ => simp [substitute, agrees, atParams]
  | .fn as r, b => by
    cases b with
    | fn bs s =>
      rw [substitute, agrees, agrees, atParams, Bool.and_eq_true, Bool.and_eq_true,
        argsAgree_append, agreesAll_substituteAll args as bs, agrees_substitute args r s,
        and_and_and_comm]
    | _ => simp [substitute, agrees, atParams]
  | .continuation a r, b => by
    cases b with
    | continuation b s =>
      rw [substitute, agrees, agrees, atParams, Bool.and_eq_true, Bool.and_eq_true,
        argsAgree_append, agrees_substitute args a b, agrees_substitute args r s, and_and_and_comm]
    | _ => simp [substitute, agrees, atParams]

theorem agreesAll_substituteAll (args : List Ty) : ∀ as bs : List Ty,
    agreesAll (substituteAll args as) bs = true ↔ agreesAll as bs = true ∧
    ArgsAgree args (atParamsAll as bs)
  | [], bs => by cases bs <;> simp [substituteAll, agreesAll, atParamsAll]
  | a :: as, bs => by
    cases bs with
    | nil => simp [substituteAll, agreesAll]
    | cons b bs =>
      rw [substituteAll, agreesAll, agreesAll, atParamsAll, Bool.and_eq_true, Bool.and_eq_true,
        argsAgree_append, agrees_substitute args a b, agreesAll_substituteAll args as bs,
        and_and_and_comm]

end

/-- Lists that agree have one length and agree place by place. -/
theorem agreesAll_iff {as bs : List Ty} : agreesAll as bs = true ↔
    as.length = bs.length ∧ ∀ (i : Nat) (a b : Ty), as[i]? = some a → bs[i]? = some b →
      a.agrees b = true := by
  induction as generalizing bs with
  | nil => cases bs <;> simp [agreesAll]
  | cons a as ih =>
    cases bs with
    | nil => simp [agreesAll]
    | cons b bs =>
      rw [agreesAll, Bool.and_eq_true, ih, length_cons, length_cons, Nat.add_right_cancel_iff]
      constructor
      · rintro ⟨hfirst, hlength, hrest⟩
        refine ⟨hlength, fun i a' b' ha hb => ?_⟩
        cases i with
        | zero =>
          cases ha
          cases hb
          exact hfirst
        | succ i => exact hrest i a' b' ha hb
      · rintro ⟨hlength, hall⟩
        exact ⟨hall 0 a b rfl rfl, hlength, fun i a' b' ha hb => hall (i + 1) a' b' ha hb⟩

end Ty

/-! ### Clauses -/

/-- The annotations of a clause agree with the declaration that they choose. -/
theorem ClauseHead.agreesAll_of_chooseOverload {head : ClauseHead} {effect : EffectDecl}
    {label : String} {choice : Nat × OpDecl} {types : List Ty}
    (htypes : head.annotations = some types) (h : head.chooseOverload effect label = .ok choice) :
    Ty.agreesAll choice.2.params types = true := by
  unfold ClauseHead.chooseOverload at h
  rw [htypes] at h
  split at h
  · cases h
  · rename_i hnone
    cases hnone
  · rename_i hsome
    cases hsome
    split at h
    · rename_i hagrees
      cases h
      exact hagrees
    · cases h
  · cases h
  · rename_i hsome _ _
    cases hsome
    split at h
    · rename_i hfilter
      cases h
      have hmem := mem_singleton_self choice
      rw [← hfilter] at hmem
      exact (mem_filter.mp hmem).2
    · cases h

theorem ClauseHead.agreesAll_of_resolve {head : ClauseHead} {p : Program} {op : OpRef}
    {decl : OpDecl} {types : List Ty} (htypes : head.annotations = some types)
    (h : head.resolve p = .ok (op, decl)) :
    Ty.agreesAll decl.params types = true := by
  unfold ClauseHead.resolve at h
  split at h
  · cases h
  rename_i effect _
  dsimp only at h
  cases hchoice : head.chooseOverload effect (effect.name ++ "." ++ head.op) with
  | error problem => rw [hchoice] at h; cases h
  | ok choice =>
    rw [hchoice] at h
    simp only [bind, Except.bind] at h
    split at h
    · cases h
      exact agreesAll_of_chooseOverload htypes hchoice
    · cases h

/-- The plan of a clause is for a declared operation that the clause resolves to, at the type
arguments of the plan. -/
theorem Clause.resolve_of_plan {cl : Clause} {p : Program} {body : Expr} {ty : Ty} {row : Row}
    {plan : ClausePlan} (h : (cl.plan p body ty row).1 = some plan) :
    ∃ decl, cl.head.resolve p = .ok (plan.op, decl) ∧
      plan.params = decl.params.map (Ty.substitute plan.typeArgs) := by
  unfold Clause.plan at h
  split at h
  · cases h
  · rename_i op decl hresolve
    split at h
    · cases h
    · obtain rfl := Option.some.inj h
      exact ⟨decl, hresolve, rfl⟩

namespace HandlerPlan

/-- **Annotations and parameters.** The annotations of a clause with a plan are as many as its
parameters, and each agrees with the declared type.  It agrees with the type of the parameter
exactly if the type arguments agree with what is annotated in their places, so always where the
declared type is not generic or the body performs no instance. -/
theorem annotations_agree_iff (p : Program) (exhaustive : Bool) (handle : ExprId) (ty : Ty)
    (span : Span) (body : Expr) (clauses : List Clause) (bodyRow : Row) (clauseRows : List Row)
    (finalizerRow : Option Row) {i : Nat} {cl : Clause} {types : List Ty} {plan : ClausePlan}
    (hclause : clauses[i]? = some cl) (htypes : cl.head.annotations = some types)
    (hplan : (make p exhaustive handle ty span body clauses bodyRow clauseRows
      finalizerRow).1.clause? i = some plan) :
    ∃ decl, p.op? plan.op = some decl ∧ types.length = plan.params.length ∧
      ∀ (j : Nat) (annotated param : Ty), types[j]? = some annotated →
        plan.params[j]? = some param →
        ∃ declared, decl.params[j]? = some declared ∧ param = declared.substitute plan.typeArgs ∧
          annotated.agrees declared = true ∧
          (annotated.agrees param = true ↔ Ty.ArgsAgree plan.typeArgs
            (declared.atParams annotated)) ∧
          (declared.isGeneric = false ∨ plan.typeArgs = [] → annotated.agrees param = true) := by
  simp only [clause?, make, getElem?_map, hclause, Option.map_some, Option.join_some] at hplan
  obtain ⟨decl, hresolve, hparams⟩ := Clause.resolve_of_plan hplan
  obtain ⟨hlength, hagree⟩ := Ty.agreesAll_iff.mp (ClauseHead.agreesAll_of_resolve htypes hresolve)
  refine ⟨decl, (Program.resolve_spec hresolve).1, by rw [hparams, length_map, hlength], ?_⟩
  intro j annotated param hannotated hparam
  rw [hparams, getElem?_map, Option.map_eq_some_iff] at hparam
  obtain ⟨declared, hdeclared, rfl⟩ := hparam
  have hdecl : declared.agrees annotated = true := hagree j declared annotated hdeclared hannotated
  have hiff : annotated.agrees (declared.substitute plan.typeArgs) = true ↔
      Ty.ArgsAgree plan.typeArgs (declared.atParams annotated) := by
    rw [Ty.agrees_comm, Ty.agrees_substitute, and_iff_right hdecl]
  refine ⟨declared, hdeclared, rfl, by rw [Ty.agrees_comm, hdecl], hiff, ?_⟩
  rintro (hground | hnone)
  · rw [hiff, Ty.atParams_eq_nil annotated hground]
    exact Ty.argsAgree_nil _
  · rw [hiff, hnone]
    exact Ty.argsAgree_of_noArgs _

/-- The body of a handler that shows an integer. -/
def shownInteger : Expr :=
  .node ⟨1⟩ (.perform ⟨⟨0⟩, 0⟩ [.i32 2 (.literal (.int 5))] [.i32]) .unit {}

/-- A clause of `show` with an annotation. -/
def showClause (annotated : Ty) : Clause :=
  .mk ⟨⟨0⟩, "show", some [annotated], [⟨0⟩], ⟨1⟩, {}⟩
    (.node ⟨3⟩ (.call (.node ⟨4⟩ (.var ⟨1⟩) (.continuation .unit .unit) {})
      [.node ⟨5⟩ (.literal .unit) .unit {}]) .unit {})

/-- A program that handles the generic operation `show`, which its body performs at a 32-bit
integer. -/
def showProgram (annotated : Ty) : Program where
  effects := [{ id := ⟨0⟩, name := "Log", ops := [⟨"show", 1, [.param 0], .unit, .tail⟩] }]
  functions := [{
    id := ⟨1⟩, name := "main", params := [], ret := .unit,
    locals := [⟨"x", annotated⟩, ⟨"k", .continuation .unit .unit⟩],
    body := .node ⟨0⟩ (.handle shownInteger [showClause annotated] none) .unit {} }]

/-- Where the annotation is the type argument, it agrees with the parameter. -/
theorem annotations_agree_showProgram :
    let clauses := [showClause .i32]
    let made := (make (showProgram .i32) true ⟨0⟩ .unit {} shownInteger clauses {} [] none).1
    ∃ plan declared, made.clause? 0 = some plan ∧ plan.params = [.i32] ∧
      [Ty.i32].length = plan.params.length ∧ Ty.agrees .i32 declared = true ∧ Ty.ArgsAgree
      plan.typeArgs (declared.atParams .i32) := by
  intro clauses made
  obtain ⟨plan, hplan, hparams⟩ : ∃ plan, made.clause? 0 = some plan ∧ plan.params = [.i32] :=
    Option.map_eq_some_iff.mp (show (made.clause? 0).map (·.params) = some [.i32] by decide +kernel)
  have hclause : clauses[0]? = some (showClause .i32) := rfl
  obtain ⟨decl, -, hlength, hall⟩ := annotations_agree_iff _ _ _ _ _ _ _ _ _ _ hclause rfl hplan
  obtain ⟨declared, -, -, hagrees, hiff, -⟩ := hall 0 .i32 .i32 rfl (by rw [hparams]; rfl)
  exact ⟨plan, declared, hplan, hparams, hlength, hagrees, hiff.mp (by decide)⟩

/-- **An annotation beside the instance.** The clause is annotated with a 64-bit integer and its
parameter is a 32-bit one; the two do not agree, and there is no complaint. -/
theorem annotation_beside_instance :
    let analysis := (showProgram .i64).analyze true
    analysis.diagnostics = [] ∧ (showClause .i64).head.annotations = some [.i64] ∧
      ((analysis.handler? ⟨0⟩).bind (·.clause? 0)).map (·.params) = some [.i32] ∧ Ty.agrees .i64
      .i32 = false := by
  decide +kernel

end HandlerPlan

end Effectful
