import Effectful.Compiler.Lower
import Effectful.Proofs.NormalCode
/-!
# Code that keeps to its function

A node is *in scope* if its locals are among the first `n` of its function, a direct call has as
many arguments as the callee has parameters, and a handler has one of the ids that are set apart for
the function.  Code whose nodes are all in scope keeps that property when it is normalized, within
the grown table of locals (`Expr.scoped_normalize`), and when handlers are cut out of it
(`Expr.scoped_cut`), by induction along cutting (`Expr.cut_induction`).
-/

namespace Effectful

open List

attribute [local simp] Form.children Form.withChildren

variable {x e : Expr} {id : ExprId} {form : Form} {ty : Ty} {span : Span}

/-- A node of a function with `n` locals in a program whose functions have the given numbers of
parameters; the handlers of the function have the ids in `handles`. -/
structure Expr.InScope (arity : DefId → Option Nat) (handles : ExprId → Prop) (n : Nat) (x : Expr) :
    Prop where
  locals : ∀ l ∈ x.form.usedLocals ++ x.form.declaredLocals, l.index < n
  args : ∀ callee args d k, x.form = .call callee args → callee.form = .fn d → arity d = some k →
    args.length = k
  handle : x.form.isHandle = true → handles x.id

def Expr.Scoped (arity : DefId → Option Nat) (handles : ExprId → Prop) (n : Nat) (e : Expr) :
    Prop :=
  ∀ x ∈ e.walk, x.InScope arity handles n

variable {arity : DefId → Option Nat} {handles : ExprId → Prop} {n n' : Nat}

namespace Expr

theorem InScope.mono (h : x.InScope arity handles n) (hn : n ≤ n') : x.InScope arity handles n' :=
  ⟨fun l hl => Nat.lt_of_lt_of_le (h.locals l hl) hn, h.args, h.handle⟩

theorem Scoped.mono (h : e.Scoped arity handles n) (hn : n ≤ n') : e.Scoped arity handles n' :=
  fun x hx => (h x hx).mono hn

theorem Scoped.of_mem_walk (h : e.Scoped arity handles n) (hx : x ∈ e.walk) :
    x.Scoped arity handles n :=
  fun y hy => h y (walk_subset_of_mem_walk hx hy)

theorem Scoped.of_mem_children {c : Expr} (h : e.Scoped arity handles n)
    (hc : c ∈ e.form.children) :
    c.Scoped arity handles n :=
  h.of_mem_walk (mem_walk_of_mem_children hc)

theorem scoped_iff :
    e.Scoped arity handles n ↔ e.InScope arity handles n ∧
      ∀ c ∈ e.form.children, c.Scoped arity handles n :=
  forall_walk_iff

/-- Parts with the same names keep a node in scope. -/
theorem InScope.withChildren {cs : List Expr}
    (h : (Expr.node id form ty span).InScope arity handles n)
    (hlen : cs.length = form.children.length)
    (hnames : cs.map (·.form.name?) = form.children.map (·.form.name?)) :
    (Expr.node id (form.withChildren cs) ty span).InScope arity handles n := by
  have hsame := Form.resembles_withChildren hlen
  refine ⟨?_, ?_, ?_⟩
  · rw [Expr.form, hsame.usedLocals, hsame.declaredLocals]
    exact h.locals
  · intro callee args d k hform hcallee hk
    -- only a call with other parts is a call
    cases form with
    | call callee₀ args₀ =>
      cases cs with
      | nil => simp at hlen
      | cons c cs =>
        obtain ⟨rfl, rfl⟩ : c = callee ∧ cs = args := by simpa using hform
        rw [Form.children, map_cons, map_cons, List.cons.injEq] at hnames
        have hname : callee₀.form = .fn d := by
          rw [Form.eq_of_name?_eq hnames.1.symm (by rw [hcallee]; rfl), hcallee]
        rw [← h.args callee₀ args₀ d k rfl hname hk]
        simpa using hlen
    | handle => cases cs <;> simp at hform
    | select => cases cs <;> simp at hform
    | branch =>
      cases cs with
      | nil => simp at hform
      | cons c cs => cases cs <;> simp at hform
    | binary | whileLoop =>
      obtain ⟨c, c', rfl⟩ := length_eq_two.mp hlen
      simp at hform
    | unary | assign | loop | closure | field =>
      obtain ⟨c, rfl⟩ := length_eq_one_iff.mp hlen
      simp at hform
    | _ => simp at hform
  · intro hhandle
    rw [Expr.form, hsame.isHandle] at hhandle
    exact h.handle hhandle

/-- Nodes that are neither calls nor handlers are in scope if their locals are. -/
theorem inScope_of_locals (hcall : ∀ callee args, x.form ≠ .call callee args)
    (hhandle : x.form.isHandle = false)
    (h : ∀ l ∈ x.form.usedLocals ++ x.form.declaredLocals, l.index < n) :
    x.InScope arity handles n :=
  ⟨h, fun _ _ _ _ hform => absurd hform (hcall _ _), fun h => by simp [hhandle] at h⟩

theorem inScope_var {l : LocalId} (h : l.index < n) :
    (Expr.node id (.var l) ty span).InScope arity handles n :=
  inScope_of_locals (by simp) rfl (by simpa [Form.usedLocals, Form.declaredLocals] using h)

theorem scoped_unitAt (id : ExprId) (span : Span) : (unitAt id span).Scoped arity handles n := by
  rw [scoped_iff]
  refine ⟨inScope_of_locals (by simp [unitAt]) rfl ?_, ?_⟩
  · simp [unitAt, Form.usedLocals, Form.declaredLocals]
  · simp [unitAt]

end Expr

/-! ### Normalization -/

section Normalize

variable {a : EffectAnalysis}

/-- A finished construct whose parts are in scope. -/
theorem Finishes.scoped {s s' : NormalState} {e' : Expr} (h : Finishes a s id form ty span e' s')
    (hnode : (Expr.node id form ty span).InScope arity handles s.locals.length)
    (hparts : ∀ c ∈ form.children, c.Scoped arity handles s.locals.length) :
    e'.Scoped arity handles s'.locals.length := by
  have hle := h.extend.length_le
  refine h.forall_walk ?_ ?_ ?_ ?_
  · intro x hx
    obtain ⟨c, hc, hx⟩ := mem_flatMap.mp hx
    exact (hparts c hc x hx).mono hle
  · intro form' hcore
    cases hcore with
    | plain => exact hnode.mono hle
    | spilled spills hne =>
      have hops := Form.operands_eq_children hne
      refine Expr.InScope.withChildren (hnode.mono hle) (spills.length_eq.trans (by rw [hops])) ?_
      rw [spills.map_name?, hops]
  · intro i stmts tail hstmts _
    refine Expr.inScope_of_locals (by simp) rfl ?_
    intro l hl
    simp only [Expr.form, Form.usedLocals, Form.declaredLocals, nil_append, mem_filterMap] at hl
    obtain ⟨st, hst, hl⟩ := hl
    obtain ⟨l', e, rfl, -, -, hlt⟩ := hstmts st hst
    obtain rfl : l' = l := Option.some.inj hl
    exact hlt
  · intro x l hx _ hlt
    obtain ⟨id, form, ty, span⟩ := x
    obtain rfl : form = .var l := hx
    exact Expr.inScope_var hlt

theorem Finishes.name?_eq {s s' : NormalState} {e' : Expr} {cs : List Expr}
    (h : Finishes a s id (form.withChildren cs) ty span e' s')
    (hlen : cs.length = form.children.length) :
    e'.form.name? = form.name? := by
  rw [h.name?, Form.name?_withChildren hlen]

/-- **Normalization stays in scope**: the new locals are behind the old ones. -/
theorem Expr.scoped_normalize (e : Expr) (s : NormalState) :
    s.Extends (e.normalize a s).2 ∧ (e.normalize a s).1.form.name? = e.form.name? ∧
      (e.Scoped arity handles s.locals.length →
        (e.normalize a s).1.Scoped arity handles (e.normalize a s).2.locals.length) := by
  refine normalize_induction
    (P := fun s e e' s' => s.Extends s' ∧ e'.form.name? = e.form.name? ∧
      (e.Scoped arity handles s.locals.length → e'.Scoped arity handles s'.locals.length))
    (Q := fun s es es' s' => s.Extends s' ∧ es'.map (·.form.name?) = es.map (·.form.name?) ∧
      ((∀ e ∈ es, e.Scoped arity handles s.locals.length) → ∀ e ∈ es', e.Scoped arity handles
      s'.locals.length))
    ?_ ?_ ?_ ?_ e s
  · exact fun s => ⟨.refl s, rfl, fun h => h⟩
  · rintro s s₁ s' e e' es es' ⟨hext, hname, h⟩ ⟨hext', hnames, h'⟩
    refine ⟨hext.trans hext', by rw [map_cons, map_cons, hname, hnames], fun hes => ?_⟩
    rw [forall_mem_cons] at hes ⊢
    exact ⟨(h hes.1).mono hext'.length_le, h' fun x hx => (hes.2 x hx).mono hext.length_le⟩
  · rintro s s₁ s' e e' cs - hrun ⟨hext, hnames, h⟩ hfinish
    have hlen := length_of_normalizeAll_eq hrun
    refine ⟨hext.trans hfinish.extend, hfinish.name?_eq hlen, fun he => ?_⟩
    rw [scoped_iff] at he
    refine hfinish.scoped ((InScope.withChildren ?_ hlen hnames).mono hext.length_le) ?_
    · obtain ⟨id, form, ty, span⟩ := e
      exact he.1
    · rw [(Form.resembles_withChildren hlen).children]
      exact h he.2
  · rintro s s₁ s₂ id body clauses ty span handle finalizer finalizer' ⟨hext, -, h⟩ ⟨hext', -, h'⟩
    -- the result of the handler is kept in a local of its own
    have hgrown : s₂.locals.length < (s₂.afterFinalized handle).locals.length := by
      simp [NormalState.afterFinalized]
    have hlast : s₂.Extends (s₂.afterFinalized handle) :=
      ⟨prefix_append _ _, by simp [NormalState.afterFinalized]⟩
    refine ⟨(hext.trans hext').trans hlast, rfl, fun he => ?_⟩
    have hhandle : (Expr.node id (.handle body clauses none) ty span).Scoped arity handles
        s.locals.length := by
      rw [scoped_iff] at he ⊢
      refine ⟨⟨he.1.locals, ?_, fun _ => he.1.handle rfl⟩, fun c hc => he.2 c ?_⟩
      · intro callee args d k hform
        cases hform
      · simp only [form, Form.children, Option.toList_none, append_nil] at hc ⊢
        exact mem_cons.mpr ((mem_cons.mp hc).imp_right (mem_append_left _))
    have hfinalizer : finalizer.Scoped arity handles s.locals.length := by
      refine he.of_mem_children ?_
      simp
    rw [scoped_iff]
    refine ⟨inScope_of_locals (by simp [NormalState.finalized]) rfl ?_, ?_⟩
    · simpa [NormalState.finalized, Form.usedLocals, Form.declaredLocals,
        Stmt.declared?] using hgrown
    · simp only [NormalState.finalized, form, Form.children, filterMap_cons, Stmt.expr?,
        filterMap_nil, Option.toList_some, cons_append, nil_append, forall_mem_cons]
      refine ⟨(h hhandle).mono (hext'.trans hlast).length_le,
        (h' (hfinalizer.mono hext.length_le)).mono hlast.length_le, ?_, by simp⟩
      rw [scoped_iff]
      exact ⟨inScope_var hgrown, by simp⟩

end Normalize

/-! ### Cutting handlers out -/

section Cut

variable {a : EffectAnalysis}

theorem cutAll_eq (es : List Expr) : cutAll a es = es.map (Expr.cut a) := by
  induction es with
  | nil => rfl
  | cons e es ih => rw [cutAll, ih, map_cons]

theorem cutStmts_eq (ss : List Stmt) :
    cutStmts a ss = (fillStmts ss ((ss.filterMap Stmt.expr?).map (Expr.cut a))).1 := by
  induction ss with
  | nil => rfl
  | cons st ss ih =>
    match st with
    | .bind l none | .bind l (some e) | .expr e =>
      rw [cutStmts, ih]
      rfl

theorem cutArms_eq (arms : List Arm) :
    cutArms a arms =
      List.zipWith (fun arm body => Arm.mk arm.pattern body) arms
      ((arms.map Arm.body).map (Expr.cut a)) := by
  induction arms with
  | nil => rfl
  | cons arm arms ih =>
    obtain ⟨pattern, body⟩ := arm
    rw [cutArms, ih]
    rfl

theorem cutClauses_eq (clauses : List Clause) (rest : List Expr) :
    cutClauses a clauses =
      withBodies clauses ((clauses.map Clause.body).map (Expr.cut a) ++ rest) := by
  induction clauses with
  | nil => rfl
  | cons clause clauses ih =>
    obtain ⟨head, body⟩ := clause
    rw [cutClauses, ih]
    rfl

theorem map_body_cutClauses (clauses : List Clause) :
    (cutClauses a clauses).map Clause.body = (clauses.map Clause.body).map (Expr.cut a) := by
  rw [cutClauses_eq clauses []]
  exact (Form.map_body_withBodies _ _ (by simp) []).1

/-- Cutting goes to the parts of a construct that stays. -/
theorem Expr.cut_eq (h : e.form.isHandle = false ∨ a.isLifted e.id = false) :
    e.cut a = .node e.id (e.form.withChildren (e.form.children.map (Expr.cut a))) e.ty e.span := by
  obtain ⟨id, form, ty, span⟩ := e
  rw [cut]
  congr 1
  cases form with
  | call | perform | tuple => simp [Form.cut, cutAll_eq]
  | block stmts tail =>
    have hlen : ((stmts.filterMap Stmt.expr?).map (Expr.cut a)).length =
        (stmts.filterMap Stmt.expr?).length :=
      length_map _
    rw [Expr.form, Form.withChildren, Form.children, map_append, fillStmts_append _ hlen,
      ← cutStmts_eq]
    cases tail <;> rfl
  | branch cond onTrue onFalse => cases onFalse <;> rfl
  | ret value => cases value <;> rfl
  | select scrutinee arms =>
    rw [Form.cut, cutArms_eq]
    rfl
  | handle body clauses finalizer =>
    have hid : a.isLifted id = false := by simpa [Form.isHandle, Expr.id] using h
    have hdrop (rest : List Expr) :
        ((clauses.map Clause.body).map (Expr.cut a) ++ rest).drop clauses.length = rest := by
      rw [drop_left' (by simp)]
    rw [Expr.form, Form.children, map_cons, map_append, Form.withChildren, hdrop, ← cutClauses_eq]
    cases finalizer with
    | none =>
      show (if a.isLifted id then _ else _ : Form) = _
      rw [if_neg (by simp [hid])]
      rfl
    | some e =>
      show (if a.isLifted id then _ else _ : Form) = _
      rw [if_neg (by simp [hid])]
      rfl
  | _ => rfl

/-- The node of a handler that is cut out. -/
theorem Expr.cut_of_isLifted {body : Expr} {clauses : List Clause} {finalizer : Option Expr}
    (h : a.isLifted id = true) :
    (Expr.node id (.handle body clauses finalizer) ty span).cut a =
      .node id (.handle body.hole [] finalizer) ty span := by
  rw [cut]
  congr 1
  cases finalizer <;> exact if_pos h

/-- **Induction along cutting**: over the parts of a construct, or none at a handler that is cut
out. -/
theorem Expr.cut_induction {M : Expr → Expr → Prop}
    (stays : ∀ e : Expr, (∀ c ∈ e.form.children, M c (c.cut a)) →
      M e (.node e.id (e.form.withChildren (e.form.children.map (Expr.cut a))) e.ty e.span))
    (lifted : ∀ id body clauses finalizer ty span,
      M (.node id (.handle body clauses finalizer) ty span)
      (.node id (.handle body.hole [] finalizer) ty span))
    (e : Expr) : M e (e.cut a) := by
  induction e using Expr.induction with
  | step e ih =>
    by_cases hstays : e.form.isHandle = false ∨ a.isLifted e.id = false
    · rw [cut_eq hstays]
      exact stays e ih
    · obtain ⟨id, form, ty, span⟩ := e
      obtain ⟨hhandle, hid⟩ := not_or.mp hstays
      cases form with
      | handle body clauses finalizer =>
        rw [cut_of_isLifted (by simpa [Expr.id] using hid)]
        exact lifted id body clauses finalizer ty span
      | _ => exact absurd rfl hhandle

theorem Expr.name?_cut (e : Expr) : (e.cut a).form.name? = e.form.name? := by
  refine cut_induction (M := fun e e' => e'.form.name? = e.form.name?) (fun e _ => ?_) ?_ e
  · exact Form.name?_withChildren (length_map _)
  · intros
    rfl

/-- **Cutting stays in scope.** -/
theorem Expr.scoped_cut (h : e.Scoped arity handles n) : (e.cut a).Scoped arity handles n := by
  refine cut_induction (M := fun e e' => e.Scoped arity handles n → e'.Scoped arity handles n) ?_ ?_
    e h
  · intro e ih h
    have hlen : (e.form.children.map (Expr.cut a)).length = e.form.children.length := length_map _
    rw [scoped_iff] at h ⊢
    refine ⟨InScope.withChildren ?_ hlen ?_, ?_⟩
    · obtain ⟨id, form, ty, span⟩ := e
      exact h.1
    · rw [map_map]
      exact map_congr_left fun c _ => name?_cut c
    · rw [form, (Form.resembles_withChildren hlen).children]
      intro c hc
      obtain ⟨c, hc', rfl⟩ := mem_map.mp hc
      exact ih c hc' (h.2 c hc')
  · intro id body clauses finalizer ty span h
    rw [scoped_iff] at h ⊢
    refine ⟨⟨by simp [Form.usedLocals, Form.declaredLocals], ?_, fun _ => h.1.handle rfl⟩, ?_⟩
    · intro callee args d k hform
      cases hform
    · intro c hc
      simp only [Expr.form, Form.children, map_nil, nil_append, mem_cons] at hc
      obtain rfl | hc := hc
      · exact scoped_unitAt _ _
      · exact h.2 c (by simp [hc])

end Cut

end Effectful
