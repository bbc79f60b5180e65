import Effectful.Program.Basic
import Mathlib.Data.List.Basic
/-!
# Nodes of an expression

The parts of a node are smaller than the node, which gives `Expr.induction`: to prove a property of
all expressions, prove it of one whose parts have it.  Proofs about a pass over expressions use it
in place of a mutual induction, and go over the lists of a construct by induction on the list.

`Expr.walk` lists the nodes of an expression with an accumulator.  `Expr.walk_eq` takes the
accumulator away: a node comes first, and then the walks of its parts, in the order of
`Form.children`.  So a property of all nodes is a property of the node itself and of all nodes of
its parts (`Expr.forall_walk_iff`).  `Expr.walkPost` lists the nodes from the leaves up
(`Expr.walkPost_eq`).
-/

namespace Effectful

open List

variable {e x c : Expr}

/-- A 32-bit expression without a place in a text, as samples have them. -/
abbrev Expr.i32 (id : Nat) (form : Form) : Expr := .node ⟨id⟩ form .i32 {}

def Form.isHandle : Form → Bool
  | .handle _ _ _ => true
  | _ => false

@[simp]
theorem Expr.form_node (id : ExprId) (form : Form) (ty : Ty) (span : Span) :
    (node id form ty span).form = form := rfl

/-! ### Parts are smaller -/

theorem sizeOf_lt_of_mem_filterMap_expr? {ss : List Stmt} (h : e ∈ ss.filterMap Stmt.expr?) :
    sizeOf e < sizeOf ss := by
  obtain ⟨s, hs, he⟩ := mem_filterMap.mp h
  have hss := sizeOf_lt_of_mem hs
  cases s with
  | bind target init =>
    obtain rfl : init = some e := he
    simp only [Stmt.bind.sizeOf_spec, Option.some.sizeOf_spec] at hss
    omega
  | expr e' =>
    obtain rfl : e' = e := Option.some.inj he
    simp only [Stmt.expr.sizeOf_spec] at hss
    omega

theorem sizeOf_lt_of_mem_map_body {as : List Arm} (h : e ∈ as.map Arm.body) :
    sizeOf e < sizeOf as := by
  obtain ⟨⟨pattern, body⟩, ha, rfl⟩ := mem_map.mp h
  have := sizeOf_lt_of_mem ha
  simp only [Arm.mk.sizeOf_spec] at this
  simp only [Arm.body]
  omega

theorem sizeOf_lt_of_mem_map_clauseBody {cs : List Clause} (h : e ∈ cs.map Clause.body) :
    sizeOf e < sizeOf cs := by
  obtain ⟨⟨head, body⟩, hc, rfl⟩ := mem_map.mp h
  have := sizeOf_lt_of_mem hc
  simp only [Clause.mk.sizeOf_spec] at this
  simp only [Clause.body]
  omega

theorem sizeOf_lt_of_mem_toList {o : Option Expr} (h : e ∈ o.toList) : sizeOf e < sizeOf o := by
  obtain rfl := Option.mem_toList.mp h
  simp only [Option.some.sizeOf_spec]
  omega

/-- Parts of a construct are smaller, which gives `Expr.induction`. -/
theorem Form.sizeOf_lt_of_mem_children {form : Form} (h : e ∈ form.children) :
    sizeOf e < sizeOf form := by
  cases form with
  | literal | var | fn | op | breakLoop | continueLoop | intrinsic => simp [children] at h
  | binary op lhs rhs =>
    simp only [children, mem_cons, not_mem_nil, or_false] at h
    obtain rfl | rfl := h <;> simp only [Form.binary.sizeOf_spec] <;> omega
  | unary | assign | loop | closure | field =>
    obtain rfl := mem_singleton.mp h
    simp +arith
  | call callee args =>
    obtain rfl | h := mem_cons.mp h
    · simp +arith
    · have := sizeOf_lt_of_mem h
      simp only [Form.call.sizeOf_spec]
      omega
  | perform op args typeArgs =>
    have : sizeOf e < sizeOf args := sizeOf_lt_of_mem h
    simp only [Form.perform.sizeOf_spec]
    omega
  | tuple items =>
    have : sizeOf e < sizeOf items := sizeOf_lt_of_mem h
    simp only [Form.tuple.sizeOf_spec]
    omega
  | block stmts tail =>
    simp only [Form.block.sizeOf_spec]
    obtain h | h := mem_append.mp h
    · have := sizeOf_lt_of_mem_filterMap_expr? h
      omega
    · have := sizeOf_lt_of_mem_toList h
      omega
  | branch cond onTrue onFalse =>
    simp only [Form.branch.sizeOf_spec]
    obtain rfl | h := mem_cons.mp h
    · omega
    · obtain rfl | h := mem_cons.mp h
      · omega
      · have := sizeOf_lt_of_mem_toList h
        omega
  | select scrutinee arms =>
    simp only [Form.select.sizeOf_spec]
    obtain rfl | h := mem_cons.mp h
    · omega
    · have := sizeOf_lt_of_mem_map_body h
      omega
  | whileLoop cond body =>
    simp only [children, mem_cons, not_mem_nil, or_false] at h
    obtain rfl | rfl := h <;> simp only [Form.whileLoop.sizeOf_spec] <;> omega
  | ret value =>
    have := sizeOf_lt_of_mem_toList h
    simp only [Form.ret.sizeOf_spec]
    omega
  | handle body clauses finalizer =>
    simp only [Form.handle.sizeOf_spec]
    obtain rfl | h := mem_cons.mp h
    · omega
    · obtain h | h := mem_append.mp h
      · have := sizeOf_lt_of_mem_map_clauseBody h
        omega
      · have := sizeOf_lt_of_mem_toList h
        omega

/-- A property holds of every expression if it holds of each one whose parts have it. -/
theorem Expr.induction {P : Expr → Prop} (step : ∀ e : Expr, (∀ c ∈ e.form.children, P c) → P e)
    (e : Expr) : P e :=
  step e fun c hc =>
    have : sizeOf c < sizeOf e := by
      cases e with
      | node id form ty span =>
        have := Form.sizeOf_lt_of_mem_children hc
        simp only [Expr.form, Expr.node.sizeOf_spec] at this ⊢
        omega
    Expr.induction step c
termination_by sizeOf e

/-! ### The walk without its accumulator -/

/-- Parts that are each put in front of what follows. -/
theorem foldr_eq_flatMap_append {g : Expr → List Expr → List Expr} {es : List Expr}
    (h : ∀ e ∈ es, ∀ rest, g e rest = g e [] ++ rest) (rest : List Expr) :
    es.foldr g rest = es.flatMap (g · []) ++ rest := by
  induction es with
  | nil => rfl
  | cons e es ih =>
    rw [forall_mem_cons] at h
    rw [foldr_cons, h.1, ih h.2, flatMap_cons, append_assoc]

section Walk

variable (rest : List Expr)

theorem walkAllOnto_eq (es : List Expr) :
    walkAllOnto rest es = es.foldr (fun e r => e.walkOnto r) rest := by
  induction es with
  | nil => rfl
  | cons e es ih => rw [walkAllOnto, ih, foldr_cons]

theorem walkStmtsOnto_eq (ss : List Stmt) :
    walkStmtsOnto rest ss = (ss.filterMap Stmt.expr?).foldr (fun e r => e.walkOnto r) rest := by
  induction ss with
  | nil => rfl
  | cons s ss ih =>
    match s with
    | .bind _ (some e) | .expr e =>
      rw [walkStmtsOnto, ih, filterMap_cons_some (by rfl), foldr_cons]
    | .bind _ none => rw [walkStmtsOnto, ih, filterMap_cons_none (by rfl)]

theorem walkArmsOnto_eq (as : List Arm) :
    walkArmsOnto rest as = (as.map Arm.body).foldr (fun e r => e.walkOnto r) rest := by
  induction as with
  | nil => rfl
  | cons a as ih =>
    obtain ⟨pattern, body⟩ := a
    rw [walkArmsOnto, ih, map_cons, foldr_cons]
    rfl

theorem walkClausesOnto_eq (cs : List Clause) :
    walkClausesOnto rest cs = (cs.map Clause.body).foldr (fun e r => e.walkOnto r) rest := by
  induction cs with
  | nil => rfl
  | cons c cs ih =>
    obtain ⟨head, body⟩ := c
    rw [walkClausesOnto, ih, map_cons, foldr_cons]
    rfl

theorem Form.walkPartsOnto_eq (form : Form) :
    form.walkPartsOnto rest = form.children.foldr (fun e r => e.walkOnto r) rest := by
  cases form with
  | call | perform | tuple => simp [walkPartsOnto, children, walkAllOnto_eq]
  | block stmts tail => cases tail <;> simp [walkPartsOnto, children, walkStmtsOnto_eq]
  | branch cond onTrue onFalse => cases onFalse <;> rfl
  | select => simp [walkPartsOnto, children, walkArmsOnto_eq]
  | ret value => cases value <;> rfl
  | handle body clauses finalizer =>
    cases finalizer <;> simp [walkPartsOnto, children, walkClausesOnto_eq]
  | _ => rfl

-- The equations of the walk from the leaves up are stated with `show`: unfolding the function by
-- name is slow.
theorem walkPostAllOnto_eq (es : List Expr) :
    walkPostAllOnto rest es = es.foldr (fun e r => e.walkPostOnto r) rest := by
  induction es with
  | nil => rfl
  | cons e es ih =>
    show e.walkPostOnto (walkPostAllOnto rest es) = _
    rw [ih, foldr_cons]

theorem walkPostStmtsOnto_eq (ss : List Stmt) :
    walkPostStmtsOnto rest ss =
      (ss.filterMap Stmt.expr?).foldr (fun e r => e.walkPostOnto r) rest := by
  induction ss with
  | nil => rfl
  | cons s ss ih =>
    match s with
    | .bind _ (some e) | .expr e =>
      show e.walkPostOnto (walkPostStmtsOnto rest ss) = _
      rw [ih, filterMap_cons_some (by rfl), foldr_cons]
    | .bind _ none =>
      show walkPostStmtsOnto rest ss = _
      rw [ih, filterMap_cons_none (by rfl)]

theorem walkPostArmsOnto_eq (as : List Arm) :
    walkPostArmsOnto rest as = (as.map Arm.body).foldr (fun e r => e.walkPostOnto r) rest := by
  induction as with
  | nil => rfl
  | cons a as ih =>
    obtain ⟨pattern, body⟩ := a
    show body.walkPostOnto (walkPostArmsOnto rest as) = _
    rw [ih, map_cons, foldr_cons]
    rfl

theorem walkPostClausesOnto_eq (cs : List Clause) :
    walkPostClausesOnto rest cs =
      (cs.map Clause.body).foldr (fun e r => e.walkPostOnto r) rest := by
  induction cs with
  | nil => rfl
  | cons c cs ih =>
    obtain ⟨head, body⟩ := c
    show body.walkPostOnto (walkPostClausesOnto rest cs) = _
    rw [ih, map_cons, foldr_cons]
    rfl

theorem Form.walkPostPartsOnto_eq (form : Form) :
    form.walkPostPartsOnto rest = form.children.foldr (fun e r => e.walkPostOnto r) rest := by
  cases form with
  | literal | var | fn | op | breakLoop | continueLoop | intrinsic => rfl
  | unary _ e | assign _ e | loop e | closure _ e | field e _ =>
    show e.walkPostOnto rest = _
    rfl
  | binary _ lhs rhs | whileLoop lhs rhs =>
    show lhs.walkPostOnto (rhs.walkPostOnto rest) = _
    rfl
  | call callee args =>
    show callee.walkPostOnto (walkPostAllOnto rest args) = _
    rw [walkPostAllOnto_eq]
    rfl
  | perform _ args _ =>
    show walkPostAllOnto rest args = _
    rw [walkPostAllOnto_eq]
    rfl
  | tuple items =>
    show walkPostAllOnto rest items = _
    rw [walkPostAllOnto_eq]
    rfl
  | block stmts tail =>
    rw [children, foldr_append, ← walkPostStmtsOnto_eq]
    cases tail with
    | none =>
      show walkPostStmtsOnto rest stmts = _
      rfl
    | some e =>
      show walkPostStmtsOnto (e.walkPostOnto rest) stmts = _
      rfl
  | branch cond onTrue onFalse =>
    cases onFalse with
    | none =>
      show cond.walkPostOnto (onTrue.walkPostOnto rest) = _
      rfl
    | some e =>
      show cond.walkPostOnto (onTrue.walkPostOnto (e.walkPostOnto rest)) = _
      rfl
  | select scrutinee arms =>
    show scrutinee.walkPostOnto (walkPostArmsOnto rest arms) = _
    rw [walkPostArmsOnto_eq]
    rfl
  | ret value =>
    cases value with
    | none => rfl
    | some e =>
      show e.walkPostOnto rest = _
      rfl
  | handle body clauses finalizer =>
    rw [children, foldr_cons, foldr_append, ← walkPostClausesOnto_eq]
    cases finalizer with
    | none =>
      show body.walkPostOnto (walkPostClausesOnto rest clauses) = _
      rfl
    | some e =>
      show body.walkPostOnto (walkPostClausesOnto (e.walkPostOnto rest) clauses) = _
      rfl

end Walk

namespace Expr

/-- The accumulator ends up behind the nodes. -/
theorem walkOnto_eq (e : Expr) : ∀ rest, e.walkOnto rest = e.walk ++ rest := by
  induction e using Expr.induction with
  | step e ih =>
    intro rest
    obtain ⟨id, form, ty, span⟩ := e
    have hparts := foldr_eq_flatMap_append (g := fun e r => e.walkOnto r) fun c hc r => ih c hc r
    rw [Expr.form] at hparts
    rw [walk, walkOnto, walkOnto, Form.walkPartsOnto_eq, Form.walkPartsOnto_eq, hparts rest,
      hparts [], append_nil, cons_append]

/-- **The walk of an expression**: the node, then the walks of its parts. -/
theorem walk_eq (e : Expr) : e.walk = e :: e.form.children.flatMap Expr.walk := by
  obtain ⟨id, form, ty, span⟩ := e
  rw [walk, walkOnto, Form.walkPartsOnto_eq, foldr_eq_flatMap_append fun e _ => walkOnto_eq e,
    append_nil]
  rfl

theorem walkPostOnto_eq (e : Expr) : ∀ rest, e.walkPostOnto rest = e.walkPost ++ rest := by
  induction e using Expr.induction with
  | step e ih =>
    intro rest
    obtain ⟨id, form, ty, span⟩ := e
    have hparts := foldr_eq_flatMap_append (g := fun e r => e.walkPostOnto r)
      fun c hc r => ih c hc r
    rw [Expr.form] at hparts
    show form.walkPostPartsOnto (.node id form ty span :: rest) = form.walkPostPartsOnto
      [.node id form ty span] ++ rest
    rw [Form.walkPostPartsOnto_eq, Form.walkPostPartsOnto_eq, hparts, hparts, append_assoc]
    rfl

/-- **The walk from the leaves up**: the walks of the parts, then the node. -/
theorem walkPost_eq (e : Expr) : e.walkPost = e.form.children.flatMap Expr.walkPost ++ [e] := by
  obtain ⟨id, form, ty, span⟩ := e
  show form.walkPostPartsOnto [.node id form ty span] = _
  rw [Form.walkPostPartsOnto_eq, foldr_eq_flatMap_append fun e _ => walkPostOnto_eq e]
  rfl

theorem mem_walkPost : x ∈ e.walkPost ↔ x ∈ e.walk := by
  induction e using Expr.induction with
  | step e ih =>
    rw [walkPost_eq, walk_eq, mem_append, mem_singleton, mem_cons, mem_flatMap, mem_flatMap]
    constructor
    · rintro (⟨c, hc, hx⟩ | rfl)
      · exact .inr ⟨c, hc, (ih c hc).mp hx⟩
      · exact .inl rfl
    · rintro (rfl | ⟨c, hc, hx⟩)
      · exact .inr rfl
      · exact .inl ⟨c, hc, (ih c hc).mpr hx⟩

theorem self_mem_walk (e : Expr) : e ∈ e.walk := by
  rw [walk_eq]
  exact mem_cons_self

/-- The nodes of a part are nodes of the whole. -/
theorem walk_subset_of_mem_children (h : c ∈ e.form.children) : c.walk ⊆ e.walk := by
  intro x hx
  rw [walk_eq e]
  exact mem_cons_of_mem _ (mem_flatMap.mpr ⟨c, h, hx⟩)

theorem mem_walk_of_mem_children (h : c ∈ e.form.children) : c ∈ e.walk :=
  walk_subset_of_mem_children h c.self_mem_walk

/-- The nodes of a node are nodes of the whole. -/
theorem walk_subset_of_mem_walk (h : x ∈ e.walk) : x.walk ⊆ e.walk := by
  induction e using Expr.induction with
  | step e ih =>
    rw [walk_eq e] at h
    obtain rfl | h := mem_cons.mp h
    · exact List.Subset.refl _
    · obtain ⟨y, hy, hx⟩ := mem_flatMap.mp h
      exact List.Subset.trans (ih y hy hx) (walk_subset_of_mem_children hy)

theorem mem_walk_of_mem_children_of_mem_walk (hx : x ∈ e.walk) (hc : c ∈ x.form.children) :
    c ∈ e.walk :=
  walk_subset_of_mem_walk hx (mem_walk_of_mem_children hc)

/-- A property of all nodes is a property of the node itself and of all nodes of its parts. -/
theorem forall_walk_iff {P : Expr → Prop} :
    (∀ x ∈ e.walk, P x) ↔ P e ∧ ∀ c ∈ e.form.children, ∀ x ∈ c.walk, P x := by
  rw [walk_eq]
  constructor
  · intro h
    refine ⟨h e mem_cons_self, fun c hc x hx => h x ?_⟩
    exact mem_cons_of_mem _ (mem_flatMap.mpr ⟨c, hc, hx⟩)
  · rintro ⟨he, hparts⟩ x hx
    obtain rfl | hx := mem_cons.mp hx
    · exact he
    · obtain ⟨c, hc, hx⟩ := mem_flatMap.mp hx
      exact hparts c hc x hx

end Expr

end Effectful
