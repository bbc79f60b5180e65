import Effectful.Proofs.Lifting
import Effectful.Proofs.RowInference
/-!
# Programs in normal form

`Program.normalize?` takes its expression ids from one supply for the whole program, which starts
behind the largest id in use, and its locals from the table of each function.  So the ids of a
normalized program are unique if those of the program are, the table of a function is the old one
with temporaries behind it, and every construct of every function is normal
(`Program.exists_normal_form`).
-/

namespace Effectful

open List

variable {a : EffectAnalysis}

/-! ### Temporaries -/

/-- The names of locals that are named by their numbers. -/
def temporaryNames (first count : Nat) : List String :=
  (List.range' first count).map fun n => s!"$t{n}"

namespace NormalState

/-- The locals of the later state are the old ones and temporaries behind them. -/
def AddsTemporaries (s s' : NormalState) : Prop :=
  ∃ temps, s'.locals = s.locals ++ temps ∧ temps.map (·.name) = temporaryNames s.locals.length
    temps.length

namespace AddsTemporaries

variable {s s₁ s' : NormalState}

theorem of_locals_eq (h : s'.locals = s.locals) : s.AddsTemporaries s' := ⟨[], by simp [h], rfl⟩

theorem trans (h : s.AddsTemporaries s₁) (h' : s₁.AddsTemporaries s') : s.AddsTemporaries s' := by
  obtain ⟨temps, hlocals, hnames⟩ := h
  obtain ⟨temps', hlocals', hnames'⟩ := h'
  refine ⟨temps ++ temps', by rw [hlocals', hlocals, append_assoc], ?_⟩
  rw [hlocals, length_append] at hnames'
  rw [map_append, hnames, hnames', temporaryNames, temporaryNames, temporaryNames, length_append,
    ← map_append, range'_append_1]

theorem of_locals_eq_append {ty : Ty}
    (h : s'.locals = s.locals ++ [⟨s!"$t{s.locals.length}", ty⟩]) :
    s.AddsTemporaries s' := ⟨_, h, rfl⟩

end AddsTemporaries

end NormalState

theorem Spills.addsTemporaries {count : Nat} {s s' : NormalState} {es ops : List Expr}
    {stmts : List Stmt} (h : Spills count s es stmts ops s') : s.AddsTemporaries s' := by
  induction h with
  | zero | nil => exact .of_locals_eq rfl
  | stable _ _ ih => exact ih
  | fresh _ _ ih => exact .trans (.of_locals_eq_append rfl) ih

theorem Expr.addsTemporaries_normalize (e : Expr) (s : NormalState) :
    s.AddsTemporaries (e.normalize a s).2 := by
  refine normalize_induction (P := fun s _ _ s' => s.AddsTemporaries s')
    (Q := fun s _ _ s' => s.AddsTemporaries s') ?_ ?_ ?_ ?_ e s
  · exact fun s => .of_locals_eq rfl
  · intro s s₁ s' e e' es es' h h'
    exact h.trans h'
  · intro s s₁ s' e e' cs _ _ h hfinish
    cases hfinish with
    | plain => exact h
    | block spills => exact (h.trans spills.addsTemporaries).trans (.of_locals_eq rfl)
  · intro s s₁ s₂ id body clauses ty span handle finalizer finalizer' h h'
    exact (h.trans h').trans (.of_locals_eq_append rfl)

/-! ### Functions -/

/-- The calls, operations and handlers of an expression with their ids. -/
def Expr.points (e : Expr) : List (ExprId × Construct) :=
  e.labels.filterMap fun l => l.2.map (l.1, ·)

theorem Expr.points_normalize (e : Expr) (s : NormalState) :
    (e.normalize a s).1.points.Perm e.points := by
  obtain ⟨new, -, hperm⟩ := labels_normalize (a := a) e s
  have hpoints := hperm.filterMap fun l => l.2.map (l.1, ·)
  have hnew : (newLabels new).filterMap (fun l => l.2.map (l.1, ·)) = [] := by
    simp [newLabels, filterMap_map]
  rwa [filterMap_append, hnew, append_nil] at hpoints

/-- A function and its normal form. -/
structure FnDecl.Normalizes (a : EffectAnalysis) (f f' : FnDecl) : Prop where
  /-- Body and locals apart, nothing changes. -/
  header : f' = { f with body := f'.body, locals := f'.locals }
  /-- New locals stand behind the old ones. -/
  locals : ∃ temps, f'.locals = f.locals ++ temps ∧
    temps.map (·.name) = temporaryNames f.locals.length temps.length
  normal : ∀ x ∈ f'.body.walk, x.form.IsNormal a
  /-- There are the same calls, operations and handlers as before, each under its old id. -/
  points : f'.body.points.Perm f.body.points

theorem FnDecl.normalizes (f : FnDecl) {s : NormalState} (hs : s.locals = f.locals) :
    f.Normalizes a { f with body := (f.body.normalize a s).1, locals :=
      (f.body.normalize a s).2.locals } := by
  have htemps := Expr.addsTemporaries_normalize (a := a) f.body s
  rw [NormalState.AddsTemporaries, hs] at htemps
  exact ⟨rfl, htemps, Expr.isNormal_normalize f.body s, Expr.points_normalize f.body s⟩

/-! ### Programs -/

/-- All functions take their ids from one supply. -/
theorem labels_normalizeFns (fs : List FnDecl) (next : Nat) :
    ∃ new, NormalState.HandsOut ⟨[], next⟩ ⟨[], (normalizeFns a next fs).2⟩ new ∧
      ((normalizeFns a next fs).1.flatMap (·.body.labels)).Perm
      (fs.flatMap (·.body.labels) ++ newLabels new) := by
  induction fs generalizing next with
  | nil => exact ⟨[], .nil (Nat.le_refl _), by simp [normalizeFns, newLabels]⟩
  | cons f fs ih =>
    obtain ⟨is, his, hperm⟩ := Expr.labels_normalize (a := a) f.body ⟨f.locals, next⟩
    obtain ⟨js, hjs, hperm'⟩ := ih (f.body.normalize a ⟨f.locals, next⟩).2.nextExpr
    have hfirst : NormalState.HandsOut ⟨[], next⟩
        ⟨[], (f.body.normalize a ⟨f.locals, next⟩).2.nextExpr⟩ is :=
      ⟨his.le, his.nodup, his.bounds⟩
    refine ⟨is ++ js, hfirst.append hjs, ?_⟩
    show ((f.body.normalize a ⟨f.locals, next⟩).1.labels ++ _).Perm _
    refine (hperm.append hperm').trans ?_
    rw [newLabels, newLabels, newLabels, map_append, flatMap_cons, append_assoc, append_assoc]
    exact (perm_append_comm_assoc _ _ _).append_left _

namespace Program

variable {p : Program}

theorem map_id_nodes (p : Program) :
    p.nodes.map (·.id) = (p.functions.flatMap (·.body.labels)).map (·.1) := by
  rw [nodes, map_flatMap, map_flatMap]
  simp [Expr.labels, Function.comp_def]

theorem index_le_maxExprId {i : ExprId} (h : i ∈ p.nodes.map (·.id)) : i.index ≤ p.maxExprId := by
  have hle (xs : List Nat) : ∀ n, n ≤ xs.foldl max n ∧ ∀ x ∈ xs, x ≤ xs.foldl max n := by
    induction xs with
    | nil => simp
    | cons x xs ih =>
      intro n
      obtain ⟨hstart, hrest⟩ := ih (max n x)
      rw [foldl_cons]
      refine ⟨by omega, forall_mem_cons.mpr ⟨by omega, hrest⟩⟩
  obtain ⟨x, hx, rfl⟩ := mem_map.mp h
  obtain ⟨f, hf, hx⟩ := mem_flatMap.mp hx
  exact (hle _ 0).2 _ (mem_flatMap.mpr ⟨f, hf, mem_map_of_mem hx⟩)

/-- New ids are above all ids in use. -/
theorem DistinctNodes.normalize {p' : Program} (hp : p.DistinctNodes)
    (h : p.normalize? a = some p') :
    p'.DistinctNodes := by
  obtain ⟨new, hnew, hperm⟩ := labels_normalizeFns (a := a) p.functions (p.maxExprId + 1)
  simp only [normalize?, Option.ite_none_right_eq_some, Option.some.injEq] at h
  obtain ⟨-, rfl⟩ := h
  have hids := hperm.map (·.1)
  have hlabels : (newLabels new).map (·.1) = new := by simp [newLabels, Function.comp_def]
  rw [map_append, ← map_id_nodes, hlabels] at hids
  rw [DistinctNodes, map_id_nodes]
  refine (hids.nodup_iff).mpr (nodup_append.mpr ⟨hp, hnew.nodup, ?_⟩)
  intro i hi j hj heq
  have hold := index_le_maxExprId hi
  have hfresh := (hnew.bounds j hj).1
  rw [heq] at hold
  exact absurd hfresh (by simp only; omega)

/-- **Normal form of a program.** If the program has distinct ids and the supply of new ones is
large enough, then there is a normal form: every construct of every function is normal, ids are
distinct, calls, operations and handlers have their old ids, and functions have their old locals
with temporaries behind them. -/
theorem exists_normal_form (hp : p.DistinctNodes)
    (hids : (normalizeFns a (p.maxExprId + 1) p.functions).2 ≤ exprIdLimit) :
    ∃ p', p.normalize? a = some p' ∧ p' = { p with functions := p'.functions } ∧ p'.DistinctNodes ∧
      List.Forall₂ (FnDecl.Normalizes a) p.functions p'.functions := by
  have hsome : p.normalize?
      a = some { p with functions := (normalizeFns a (p.maxExprId + 1) p.functions).1 } :=
    if_pos hids
  refine ⟨_, hsome, rfl, hp.normalize hsome, ?_⟩
  refine (functions_of_normalize? hsome).imp ?_
  rintro f f' ⟨s, hs, rfl⟩
  exact f.normalizes hs

/-- The sum of two answers.  The second one is asked for under a handler with a finalizer. -/
def finalizedSum : Program where
  effects := [{ id := ⟨0⟩, name := "A", ops := [⟨"a", 0, [], .i32, .tail⟩] }]
  functions := [
    { id := ⟨1⟩, name := "main", params := [], ret := .i32, exported := true
      locals := [⟨"k", .continuation .i32 .i32⟩]
      body := .i32 9 (.binary .add (.i32 2 (.perform ⟨⟨0⟩, 0⟩ [] []))
        (.i32 8 (.handle (.i32 3 (.perform ⟨⟨0⟩, 0⟩ [] []))
          [.mk ⟨⟨0⟩, "a", none, [], ⟨0⟩, {}⟩
          (.i32 6 (.call (.node ⟨5⟩ (.var ⟨0⟩) (.continuation .i32 .i32) {})
            [.i32 4 (.literal (.int 1))]))]
          (some (.i32 7 (.perform ⟨⟨0⟩, 0⟩ [] [])))))) }]

/-- The first answer and the handled value become temporaries. -/
theorem exists_normal_form_finalizedSum :
    finalizedSum.DistinctNodes ∧
      (normalizeFns (finalizedSum.analyze true) (finalizedSum.maxExprId + 1)
        finalizedSum.functions).2 ≤ exprIdLimit ∧
      ∃ p', finalizedSum.normalize? (finalizedSum.analyze true) = some p' ∧
        p'.functions.map (·.locals.map (·.name)) = [["k", "$t1", "$t2"]] ∧ p'.DistinctNodes ∧
        List.Forall₂ (FnDecl.Normalizes (finalizedSum.analyze true)) finalizedSum.functions
        p'.functions := by
  have hnodes : finalizedSum.DistinctNodes := by decide +kernel
  have hids : (normalizeFns (finalizedSum.analyze true) (finalizedSum.maxExprId + 1)
      finalizedSum.functions).2 ≤
      exprIdLimit := by decide +kernel
  have hnames : (finalizedSum.normalize? (finalizedSum.analyze true)).map
      (·.functions.map (·.locals.map (·.name))) = some [["k", "$t1", "$t2"]] := by decide +kernel
  obtain ⟨p', hp', -, hdistinct, hfns⟩ := exists_normal_form hnodes hids
  rw [hp'] at hnames
  exact ⟨hnodes, hids, p', hp', Option.some.inj hnames, hdistinct, hfns⟩

end Program

end Effectful
