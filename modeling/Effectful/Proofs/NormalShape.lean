import Effectful.Lowering.NormalForm
import Effectful.Program.LocalSet
import Effectful.Proofs.Walk
/-!
# The shape of code in normal form

Normalization treats all constructs without a finalizer alike: it normalizes the parts in order,
puts them in the place of the old ones (`Form.withChildren`) and spills operands where it must
(`Expr.normalize_eq`).  A finalizer is put behind its handler.  So what normalization does to the
nodes, ids and locals of an expression needs one argument about a construct with new parts, one
about spilling and one about finalizers (`Expr.normalize_induction`).
-/

namespace Effectful

open List

attribute [local simp] Form.children

open NormalM

variable {es : List Expr} {form : Form}

/-! ### New parts for a construct -/

/-- Statements with other expressions, and the expressions that are left over. -/
def fillStmts : List Stmt → List Expr → List Stmt × List Expr
  | [], es => ([], es)
  | .bind l none :: ss, es => (.bind l none :: (fillStmts ss es).1, (fillStmts ss es).2)
  | .bind l (some _) :: ss, e :: es =>
    (.bind l (some e) :: (fillStmts ss es).1, (fillStmts ss es).2)
  | .expr _ :: ss, e :: es => (.expr e :: (fillStmts ss es).1, (fillStmts ss es).2)
  | ss, [] => (ss, [])

/-- The code that runs behind a handler. -/
def Form.finalizer? : Form → Option Expr
  | .handle _ _ finalizer => finalizer
  | _ => none

/-- Whether the construct names something to call. -/
def Form.isCallee : Form → Bool
  | .fn _ | .intrinsic _ => true
  | _ => false

def withBodies (clauses : List Clause) (bodies : List Expr) : List Clause :=
  List.zipWith (fun clause body => .mk clause.head body) clauses bodies

/-- A construct with other parts, one for each. -/
def Form.withChildren (form : Form) (cs : List Expr) : Form :=
  match form, cs with
  | .binary operator _ _, [lhs, rhs] => .binary operator lhs rhs
  | .unary operator _, [operand] => .unary operator operand
  | .call _ _, callee :: args => .call callee args
  | .perform operation _ typeArgs, args => .perform operation args typeArgs
  | .block stmts tail, cs =>
    .block (fillStmts stmts cs).1 (if tail.isSome then (fillStmts stmts cs).2.head? else none)
  | .assign target _, [value] => .assign target value
  | .branch _ _ _, cond :: onTrue :: onFalse => .branch cond onTrue onFalse.head?
  | .select _ arms, scrutinee :: bodies =>
    .select scrutinee (List.zipWith (fun arm body => .mk arm.pattern body) arms bodies)
  | .loop _, [body] => .loop body
  | .whileLoop _ _, [cond, body] => .whileLoop cond body
  | .ret _, value => .ret value.head?
  | .handle _ clauses finalizer, body :: bodies =>
    .handle body (withBodies clauses bodies)
      (if finalizer.isSome then (bodies.drop clauses.length).head? else none)
  | .closure params _, [body] => .closure params body
  | .tuple _, items => .tuple items
  | .field _ index, [base] => .field base index
  | form, _ => form

section

variable {a : EffectAnalysis} {s : NormalState}

/-! ### Normalization, run on a state -/

theorem normalizeAll_cons (e : Expr) (es : List Expr) :
    normalizeAll a (e :: es) s =
      ((e.normalize a s).1 :: (normalizeAll a es (e.normalize a s).2).1,
        (normalizeAll a es (e.normalize a s).2).2) := rfl

theorem normalizeAll_append (es es' : List Expr) :
    normalizeAll a (es ++ es') s =
      ((normalizeAll a es s).1 ++ (normalizeAll a es' (normalizeAll a es s).2).1,
        (normalizeAll a es' (normalizeAll a es s).2).2) := by
  induction es generalizing s with
  | nil => rfl
  | cons e es ih =>
    rw [cons_append, normalizeAll_cons, ih, normalizeAll_cons]
    rfl

theorem length_normalizeAll (es : List Expr) : (normalizeAll a es s).1.length = es.length := by
  induction es generalizing s with
  | nil => rfl
  | cons e es ih =>
    rw [normalizeAll_cons, length_cons, length_cons, ih]

theorem length_of_normalizeAll_eq {cs : List Expr} {s₁ : NormalState}
    (h : normalizeAll a es s = (cs, s₁)) :
    cs.length = es.length := by
  have hlen := length_normalizeAll (a := a) (s := s) es
  rwa [h] at hlen

theorem normalizeStmts_eq (ss : List Stmt) :
    normalizeStmts a ss s = ((fillStmts ss (normalizeAll a (ss.filterMap Stmt.expr?) s).1).1,
      (normalizeAll a (ss.filterMap Stmt.expr?) s).2) := by
  induction ss generalizing s with
  | nil => rfl
  | cons st ss ih =>
    cases st with
    | bind l init =>
      cases init with
      | none =>
        show (Stmt.bind l none :: (normalizeStmts a ss s).1, (normalizeStmts a ss s).2) = _
        rw [ih]
        rfl
      | some e =>
        show (Stmt.bind l (some (e.normalize a s).1) :: (normalizeStmts a ss (e.normalize a s).2).1,
          (normalizeStmts a ss (e.normalize a s).2).2) = _
        rw [ih]
        rfl
    | expr e =>
      show (Stmt.expr (e.normalize a s).1 :: (normalizeStmts a ss (e.normalize a s).2).1,
        (normalizeStmts a ss (e.normalize a s).2).2) = _
      rw [ih]
      rfl

theorem normalizeArms_eq (arms : List Arm) :
    normalizeArms a arms s =
      (List.zipWith (fun arm body => Arm.mk arm.pattern body) arms
        (normalizeAll a (arms.map Arm.body) s).1, (normalizeAll a (arms.map Arm.body) s).2) := by
  induction arms generalizing s with
  | nil => rfl
  | cons arm arms ih =>
    obtain ⟨pattern, body⟩ := arm
    show (Arm.mk pattern (body.normalize a s).1 :: (normalizeArms a arms (body.normalize a s).2).1,
      (normalizeArms a arms (body.normalize a s).2).2) = _
    rw [ih]
    rfl

theorem normalizeClauses_eq (clauses : List Clause) :
    normalizeClauses a clauses s =
      (withBodies clauses (normalizeAll a (clauses.map Clause.body) s).1,
        (normalizeAll a (clauses.map Clause.body) s).2) := by
  induction clauses generalizing s with
  | nil => rfl
  | cons clause clauses ih =>
    obtain ⟨head, body⟩ := clause
    show (Clause.mk head (body.normalize a s).1 :: (normalizeClauses a clauses
      (body.normalize a s).2).1, (normalizeClauses a clauses (body.normalize a s).2).2) = _
    rw [ih]
    rfl

theorem exists_cons_of_length_exprs {st : Stmt} {ss : List Stmt} {e : Expr}
    (hst : st.expr? = some e) (h : es.length = ((st :: ss).filterMap Stmt.expr?).length) :
    ∃ e' es', es = e' :: es' ∧ es'.length = (ss.filterMap Stmt.expr?).length := by
  rw [filterMap_cons_some hst] at h
  cases es with
  | nil => simp at h
  | cons e' es => exact ⟨e', es, rfl, Nat.succ.inj h⟩

/-- Expressions that a block has behind its statements. -/
theorem fillStmts_append {ss : List Stmt} (rest : List Expr)
    (h : es.length = (ss.filterMap Stmt.expr?).length) :
    fillStmts ss (es ++ rest) = ((fillStmts ss es).1, rest) := by
  induction ss generalizing es with
  | nil =>
    obtain rfl : es = [] := eq_nil_of_length_eq_zero h
    rfl
  | cons st ss ih =>
    cases st with
    | bind l init =>
      cases init with
      | none =>
        simp [fillStmts, ih h]
      | some e =>
        obtain ⟨e', es, rfl, hes⟩ := exists_cons_of_length_exprs rfl h
        simp [fillStmts, ih hes]
    | expr e =>
      obtain ⟨e', es, rfl, hes⟩ := exists_cons_of_length_exprs rfl h
      simp [fillStmts, ih hes]

/-- A construct without operands is finished as it is. -/
theorem finish_of_operands_eq_nil {id : ExprId} {ty : Ty} {span : Span} (h : form.operands = []) :
    finish a id ty span form s = (.node id form ty span, s) := by
  have hspill : ∀ count, spill count [] s = (([], []), s) := by
    intro count
    cases count <;> rfl
  show (if (spill (form.spillCount a) form.operands s).1.1.isEmpty then _ else _ : NormalM Expr)
    (spill (form.spillCount a) form.operands s).2 = _
  rw [h, hspill]
  rfl

/-- **Normalization of a construct**: its parts in order, and then its operands are spilled. -/
theorem Expr.normalize_eq {e : Expr} (h : e.form.finalizer? = none) :
    e.normalize a s =
      finish a e.id e.ty e.span (e.form.withChildren (normalizeAll a e.form.children s).1)
      (normalizeAll a e.form.children s).2 := by
  obtain ⟨id, form, ty, span⟩ := e
  cases form with
  | binary | call | perform | tuple => rfl
  | block stmts tail =>
    cases tail with
    | none =>
      have hstmts := normalizeStmts_eq (a := a) (s := s) stmts
      show (Expr.node id (.block (normalizeStmts a stmts s).1 none) ty span,
        (normalizeStmts a stmts s).2) = _
      rw [hstmts, finish_of_operands_eq_nil rfl]
      simp [Form.withChildren, Expr.id, Expr.ty, Expr.span]
    | some e =>
      have hstmts := normalizeStmts_eq (a := a) (s := s) stmts
      show (Expr.node id (.block (normalizeStmts a stmts s).1
        (some (e.normalize a (normalizeStmts a stmts s).2).1)) ty span,
        (e.normalize a (normalizeStmts a stmts s).2).2) = _
      rw [hstmts, finish_of_operands_eq_nil rfl]
      simp only [form, Form.children, Form.withChildren, Option.toList_some, normalizeAll_append,
        Option.isSome_some, if_true]
      rw [fillStmts_append _ (length_normalizeAll _)]
      rfl
  | branch cond onTrue onFalse => cases onFalse <;> exact (finish_of_operands_eq_nil rfl).symm
  | ret value => cases value <;> exact (finish_of_operands_eq_nil rfl).symm
  | select scrutinee arms =>
    have harms := normalizeArms_eq (a := a) (s := (scrutinee.normalize a s).2) arms
    show (Expr.node id (.select (scrutinee.normalize a s).1
      (normalizeArms a arms (scrutinee.normalize a s).2).1) ty span,
      (normalizeArms a arms (scrutinee.normalize a s).2).2) = _
    rw [harms, finish_of_operands_eq_nil rfl]
    rfl
  | handle body clauses finalizer =>
    obtain rfl : finalizer = none := h
    have hclauses := normalizeClauses_eq (a := a) (s := (body.normalize a s).2) clauses
    show (Expr.node id (.handle (body.normalize a s).1
      (normalizeClauses a clauses (body.normalize a s).2).1 none) ty span,
      (normalizeClauses a clauses (body.normalize a s).2).2) = _
    rw [hclauses, finish_of_operands_eq_nil rfl]
    simp only [form, Form.children, Option.toList_none, append_nil, normalizeAll_cons]
    rfl
  | _ => exact (finish_of_operands_eq_nil rfl).symm

/-- The block that holds a handler and its finalizer behind it. -/
def NormalState.finalized (s : NormalState) (handle finalizer : Expr) : Expr :=
  .node ⟨s.nextExpr + 2⟩
    (.block [.bind ⟨s.locals.length⟩ (some handle), .expr finalizer]
      (some (.node ⟨s.nextExpr + 1⟩ (.var ⟨s.locals.length⟩) handle.ty handle.span))) handle.ty
      handle.span

/-- The state behind such a block. -/
def NormalState.afterFinalized (s : NormalState) (handle : Expr) : NormalState :=
  ⟨s.locals ++ [⟨s!"$t{s.locals.length}", handle.ty⟩], s.nextExpr + 3⟩

/-- A finalizer is normalized behind its handler and put behind it. -/
theorem Expr.normalize_finalized {id : ExprId} {body finalizer : Expr} {clauses : List Clause}
    {ty : Ty} {span : Span} {handle finalizer' : Expr} {s₁ s₂ : NormalState}
    (hhandle : (Expr.node id (.handle body clauses none) ty span).normalize a s = (handle, s₁))
    (hfinalizer : finalizer.normalize a s₁ = (finalizer', s₂)) :
    (Expr.node id (.handle body clauses (some finalizer)) ty span).normalize a s =
      (s₂.finalized handle finalizer', s₂.afterFinalized handle) := by
  have hrun : (Expr.node id (.handle body clauses (some finalizer)) ty span).normalize a s =
      finalize ((Expr.node id (.handle body clauses none) ty span).normalize a s).1
        (finalizer.normalize a
        ((Expr.node id (.handle body clauses none) ty span).normalize a s).2).1
        (finalizer.normalize a ((Expr.node id (.handle body clauses none) ty span).normalize a
        s).2).2 := rfl
  rw [hrun, hhandle, hfinalizer]
  rfl

end

/-! ### What stays when the parts are replaced -/

theorem fillStmts_of_length {ss : List Stmt} (h : es.length = (ss.filterMap Stmt.expr?).length) :
    (fillStmts ss es).1.filterMap Stmt.expr? = es ∧
      (fillStmts ss es).1.filterMap Stmt.declared? = ss.filterMap Stmt.declared? := by
  induction ss generalizing es with
  | nil =>
    obtain rfl : es = [] := eq_nil_of_length_eq_zero h
    exact ⟨rfl, rfl⟩
  | cons st ss ih =>
    cases st with
    | bind l init =>
      cases init with
      | none =>
        obtain ⟨hexprs, hdeclared⟩ := ih h
        exact ⟨hexprs, congrArg (l :: ·) hdeclared⟩
      | some e =>
        obtain ⟨e', es, rfl, hes⟩ := exists_cons_of_length_exprs rfl h
        obtain ⟨hexprs, hdeclared⟩ := ih hes
        exact ⟨congrArg (e' :: ·) hexprs, congrArg (l :: ·) hdeclared⟩
    | expr e =>
      obtain ⟨e', es, rfl, hes⟩ := exists_cons_of_length_exprs rfl h
      obtain ⟨hexprs, hdeclared⟩ := ih hes
      exact ⟨congrArg (e' :: ·) hexprs, hdeclared⟩

namespace Form

variable {cs : List Expr}

/-- Parts in front of an optional one. -/
theorem exists_append_toList {n : Nat} {tail : Option Expr}
    (h : cs.length = n + tail.toList.length) :
    ∃ es, ∃ last : Option Expr, cs = es ++ last.toList ∧ es.length = n ∧
      last.isSome = tail.isSome := by
  cases tail with
  | none => exact ⟨cs, none, (append_nil cs).symm, h, rfl⟩
  | some e =>
    obtain rfl | ⟨es, e', rfl⟩ := eq_nil_or_concat cs
    · simp at h
    · exact ⟨es, some e', concat_eq_append, by simpa using h, rfl⟩

/-- The parts of a block, split into those of its statements and the last one. -/
theorem withChildren_block {stmts : List Stmt} {tail : Option Expr}
    (h : cs.length = (Form.block stmts tail).children.length) :
    ∃ es, ∃ last : Option Expr, cs = es ++ last.toList ∧
      es.length = (stmts.filterMap Stmt.expr?).length ∧ last.isSome = tail.isSome ∧
      (Form.block stmts tail).withChildren cs = .block (fillStmts stmts es).1 last := by
  rw [children, length_append] at h
  obtain ⟨es, last, rfl, hlen, hlast⟩ := exists_append_toList h
  refine ⟨es, last, rfl, hlen, hlast, ?_⟩
  rw [withChildren, fillStmts_append _ hlen, ← hlast]
  cases last <;> rfl

theorem withChildren_handle {body : Expr} {clauses : List Clause} {finalizer : Option Expr}
    (h : cs.length = (Form.handle body clauses finalizer).children.length) :
    ∃ c bodies, ∃ last : Option Expr, cs = c ::
      (bodies ++ last.toList) ∧ bodies.length = clauses.length ∧
      last.isSome = finalizer.isSome ∧ (Form.handle body clauses finalizer).withChildren cs =
        .handle c (withBodies clauses (bodies ++ last.toList)) last := by
  cases cs with
  | nil => simp [children] at h
  | cons c cs =>
    obtain ⟨bodies, last, rfl, hlen, hlast⟩ := exists_append_toList (by simpa [children] using h)
    refine ⟨c, bodies, last, rfl, hlen, hlast, ?_⟩
    rw [withChildren, drop_left' hlen, ← hlast]
    cases last <;> rfl

theorem map_body_zipWith (arms : List Arm) (bodies : List Expr) (h : bodies.length = arms.length) :
    (List.zipWith (fun arm body => Arm.mk arm.pattern body) arms bodies).map Arm.body = bodies ∧
      (List.zipWith (fun arm body => Arm.mk arm.pattern body) arms bodies).map Arm.pattern =
      arms.map Arm.pattern := by
  constructor
  · exact ext_getElem (by simp [h]) (by simp [Arm.body])
  · exact ext_getElem (by simp [h]) (by simp [Arm.pattern])

theorem map_body_withBodies (clauses : List Clause) (bodies : List Expr)
    (h : bodies.length = clauses.length) (rest : List Expr) :
    (withBodies clauses (bodies ++ rest)).map Clause.body = bodies ∧
      (withBodies clauses (bodies ++ rest)).map Clause.head = clauses.map Clause.head := by
  constructor
  · refine ext_getElem (by simp [withBodies, h]) fun i _ hi => ?_
    simp [withBodies, Clause.body, getElem_append_left hi]
  · exact ext_getElem (by simp [withBodies, h]) (by simp [withBodies, Clause.head])

/-- What a construct with other parts has in common with the old one. -/
structure Resembles (form form' : Form) (cs : List Expr) : Prop where
  children : form'.children = cs
  usedLocals : form'.usedLocals = form.usedLocals
  declaredLocals : form'.declaredLocals = form.declaredLocals
  isHandle : form'.isHandle = form.isHandle
  isCallee : form'.isCallee = form.isCallee

theorem resembles_withChildren (h : cs.length = form.children.length) :
    form.Resembles (form.withChildren cs) cs := by
  cases form with
  | literal | var | fn | op | breakLoop | continueLoop | intrinsic =>
    obtain rfl : cs = [] := eq_nil_of_length_eq_zero h
    exact ⟨rfl, rfl, rfl, rfl, rfl⟩
  | binary | whileLoop =>
    obtain ⟨c, d, rfl⟩ := length_eq_two.mp h
    exact ⟨rfl, rfl, rfl, rfl, rfl⟩
  | unary | assign | loop | closure | field =>
    obtain ⟨c, rfl⟩ := length_eq_one_iff.mp h
    exact ⟨rfl, rfl, rfl, rfl, rfl⟩
  | call callee args =>
    cases cs with
    | nil => simp at h
    | cons c cs => exact ⟨rfl, rfl, rfl, rfl, rfl⟩
  | perform | tuple => exact ⟨rfl, rfl, rfl, rfl, rfl⟩
  | block stmts tail =>
    obtain ⟨es, last, rfl, hlen, -, hblock⟩ := withChildren_block h
    obtain ⟨hexprs, hdeclared⟩ := fillStmts_of_length hlen
    rw [hblock]
    refine ⟨?_, rfl, hdeclared, rfl, rfl⟩
    rw [Form.children, hexprs]
  | branch cond onTrue onFalse =>
    cases onFalse with
    | none =>
      obtain ⟨c, d, rfl⟩ := length_eq_two.mp h
      exact ⟨rfl, rfl, rfl, rfl, rfl⟩
    | some e =>
      obtain ⟨c, d, e', rfl⟩ := length_eq_three.mp h
      exact ⟨rfl, rfl, rfl, rfl, rfl⟩
  | select scrutinee arms =>
    cases cs with
    | nil => simp at h
    | cons c bodies =>
      have hlen : bodies.length = arms.length := by simpa using h
      obtain ⟨hbodies, hpatterns⟩ := map_body_zipWith arms bodies hlen
      refine ⟨?_, rfl, ?_, rfl, rfl⟩
      · rw [withChildren, Form.children, hbodies]
      · -- the patterns stay, and they alone declare locals
        have hdeclared (as : List Arm) :
            as.filterMap (·.pattern.declared?) =
              (as.map Arm.pattern).filterMap Pattern.declared? := by
          rw [filterMap_map]
          rfl
        rw [withChildren, Form.declaredLocals, Form.declaredLocals, hdeclared, hpatterns, hdeclared]
  | ret value =>
    cases value with
    | none =>
      obtain rfl : cs = [] := eq_nil_of_length_eq_zero h
      exact ⟨rfl, rfl, rfl, rfl, rfl⟩
    | some e =>
      obtain ⟨c, rfl⟩ := length_eq_one_iff.mp h
      exact ⟨rfl, rfl, rfl, rfl, rfl⟩
  | handle body clauses finalizer =>
    obtain ⟨c, bodies, last, rfl, hlen, -, hhandle⟩ := withChildren_handle h
    obtain ⟨hbodies, hheads⟩ := map_body_withBodies clauses bodies hlen last.toList
    have hdeclared (cs : List Clause) : cs.flatMap (fun c => c.head.continuation :: c.head.params) =
        (cs.map Clause.head).flatMap fun h => h.continuation :: h.params := by
      rw [flatMap_map]
    rw [hhandle]
    refine ⟨?_, rfl, ?_, rfl, rfl⟩
    · rw [Form.children, hbodies]
    · rw [Form.declaredLocals, Form.declaredLocals, hdeclared, hheads, hdeclared]

end Form

/-! ### Spilling -/

/-- The state after an operand was given a local. -/
def NormalState.spilled (s : NormalState) (e : Expr) : NormalState :=
  ⟨s.locals ++ [⟨s!"$t{s.locals.length}", e.ty⟩], s.nextExpr + 1⟩

/-- The local that an operand is given. -/
def NormalState.fresh (s : NormalState) : LocalId := ⟨s.locals.length⟩

/-- The operand that reads the local. -/
def NormalState.read (s : NormalState) (e : Expr) : Expr :=
  .node ⟨s.nextExpr⟩ (.var s.fresh) e.ty e.span

/-- Spilling the first operands of a list: the statements and the operands to use instead. -/
inductive Spills : Nat → NormalState → List Expr → List Stmt → List Expr → NormalState → Prop where
  | zero {s : NormalState} {es : List Expr} : Spills 0 s es [] es s
  | nil {count : Nat} {s : NormalState} : Spills count s [] [] [] s
  | stable {count : Nat} {s s' : NormalState} {e : Expr} {es ops : List Expr} {stmts : List Stmt}
    (stable : e.isStable = true) (rest : Spills count s es stmts ops s') :
    Spills (count + 1) s (e :: es) stmts (e :: ops) s'
  | fresh {count : Nat} {s s' : NormalState} {e : Expr} {es ops : List Expr} {stmts : List Stmt}
    (unstable : e.isStable = false) (rest : Spills count (s.spilled e) es stmts ops s') :
    Spills (count + 1) s (e :: es) (.bind s.fresh (some e) :: stmts) (s.read e :: ops) s'

theorem spills_spill (count : Nat) (es : List Expr) (s : NormalState) :
    Spills count s es (spill count es s).1.1 (spill count es s).1.2 (spill count es s).2 := by
  induction es generalizing count s with
  | nil => cases count <;> exact .nil
  | cons e es ih =>
    cases count with
    | zero => exact .zero
    | succ count =>
      cases he : e.isStable with
      | true =>
        have hrun : spill (count + 1) (e :: es) s =
            (((spill count es s).1.1, e :: (spill count es s).1.2), (spill count es s).2) := by
          show (if e.isStable then _ else _ : NormalM (List Stmt × List Expr)) s = _
          rw [he]
          rfl
        rw [hrun]
        exact .stable he (ih count s)
      | false =>
        have hrun : spill (count + 1) (e :: es) s =
            ((.bind s.fresh (some e) :: (spill count es (s.spilled e)).1.1,
              s.read e :: (spill count es (s.spilled e)).1.2),
              (spill count es (s.spilled e)).2) := by
          show (if e.isStable then _ else _ : NormalM (List Stmt × List Expr)) s = _
          rw [he]
          rfl
        rw [hrun]
        exact .fresh he (ih count _)

structure NormalState.Extends (s s' : NormalState) : Prop where
  locals : s.locals <+: s'.locals
  nextExpr : s.nextExpr ≤ s'.nextExpr

namespace NormalState.Extends

variable {s s₁ s' : NormalState}

theorem refl (s : NormalState) : s.Extends s := ⟨prefix_rfl, Nat.le_refl _⟩

theorem trans (h : s.Extends s₁) (h' : s₁.Extends s') : s.Extends s' :=
  ⟨h.locals.trans h'.locals, Nat.le_trans h.nextExpr h'.nextExpr⟩

theorem length_le (h : s.Extends s') : s.locals.length ≤ s'.locals.length := h.locals.length_le

theorem spilled (s : NormalState) (e : Expr) : s.Extends (s.spilled e) :=
  ⟨prefix_append _ _, Nat.le_succ _⟩

end NormalState.Extends

namespace Spills

variable {count : Nat} {s s' : NormalState} {ops : List Expr} {stmts : List Stmt}

theorem extend (h : Spills count s es stmts ops s') : s.Extends s' := by
  induction h with
  | zero | nil => exact .refl _
  | stable _ _ ih => exact ih
  | fresh _ _ ih => exact (NormalState.Extends.spilled _ _).trans ih

theorem of_nil (h : Spills count s es stmts ops s') (hstmts : stmts = []) : ops = es ∧ s' = s := by
  induction h with
  | zero | nil => exact ⟨rfl, rfl⟩
  | stable _ _ ih =>
    obtain ⟨rfl, rfl⟩ := ih hstmts
    exact ⟨rfl, rfl⟩
  | fresh => cases hstmts

theorem map_ty (h : Spills count s es stmts ops s') : ops.map Expr.ty = es.map Expr.ty := by
  induction h with
  | zero | nil => rfl
  | stable _ _ ih => rw [map_cons, map_cons, ih]
  | fresh _ _ ih =>
    rw [map_cons, map_cons, ih]
    rfl

theorem length_eq (h : Spills count s es stmts ops s') : ops.length = es.length := by
  simpa using congrArg List.length h.map_ty

/-- Statements bind old operands that are not stable to new locals. -/
theorem mem_stmts (h : Spills count s es stmts ops s') {st : Stmt} (hst : st ∈ stmts) :
    ∃ l e, st = .bind l (some e) ∧ e ∈ es ∧ e.isStable = false ∧ s.locals.length ≤ l.index ∧
      l.index < s'.locals.length := by
  induction h with
  | zero | nil => cases hst
  | stable _ _ ih =>
    obtain ⟨l, e, rfl, he, hl⟩ := ih hst
    exact ⟨l, e, rfl, mem_cons_of_mem _ he, hl⟩
  | @fresh _ s _ e _ _ _ unstable hrest ih =>
    have hlen : (s.spilled e).locals.length = s.locals.length + 1 := by simp [NormalState.spilled]
    obtain rfl | hst := mem_cons.mp hst
    · have := hrest.extend.length_le
      exact ⟨_, e, rfl, mem_cons_self, unstable,
        Nat.le_refl _, by simp only [NormalState.fresh]; omega⟩
    · obtain ⟨l, e', rfl, he, hstable, hl⟩ := ih hst
      exact ⟨l, e', rfl, mem_cons_of_mem _ he, hstable, by omega, hl.2⟩

/-- New operands are old ones or read new locals. -/
theorem mem_ops (h : Spills count s es stmts ops s') {e : Expr} (he : e ∈ ops) :
    e ∈ es ∨ ∃ l, e.form = .var l ∧ s.locals.length ≤ l.index ∧ l.index < s'.locals.length := by
  induction h with
  | zero => exact .inl he
  | nil => cases he
  | stable _ _ ih =>
    obtain rfl | he := mem_cons.mp he
    · exact .inl mem_cons_self
    · exact (ih he).imp (mem_cons_of_mem _) id
  | @fresh _ s _ e' _ _ _ _ hrest ih =>
    have hlen : (s.spilled e').locals.length = s.locals.length + 1 := by simp [NormalState.spilled]
    obtain rfl | he := mem_cons.mp he
    · have := hrest.extend.length_le
      exact .inr ⟨_, rfl, Nat.le_refl _, by simp only [NormalState.fresh]; omega⟩
    · obtain he | ⟨l, hl, hlow, hhigh⟩ := ih he
      · exact .inl (mem_cons_of_mem _ he)
      · exact .inr ⟨l, hl, by omega, hhigh⟩

end Spills

/-! ### Finishing a construct -/

namespace Form

/-- Constructs all parts of which are operands. -/
theorem operands_eq_children (h : form.operands ≠ []) : form.operands = form.children := by
  cases form <;> first | rfl | exact absurd rfl h

theorem withOperands_eq_withChildren {ops : List Expr} (h : form.operands ≠ [])
    (hlen : ops.length = form.operands.length) : form.withOperands ops = form.withChildren ops := by
  cases form with
  | binary operator lhs rhs =>
    obtain ⟨c, d, rfl⟩ := length_eq_two.mp hlen
    rfl
  | call callee args =>
    cases ops with
    | nil => simp [operands] at hlen
    | cons c ops => rfl
  | perform => rfl
  | tuple => rfl
  | _ => exact absurd rfl h

/-- A construct with other parts takes them as its operands if the old one did so. -/
theorem operands_withChildren {cs : List Expr} (h : form.operands ≠ [])
    (hlen : cs.length = form.children.length) :
    (form.withChildren cs).operands = cs := by
  cases form with
  | binary operator lhs rhs =>
    obtain ⟨c, d, rfl⟩ := length_eq_two.mp hlen
    rfl
  | call callee args =>
    cases cs with
    | nil => simp [children] at hlen
    | cons c cs => rfl
  | perform => rfl
  | tuple => rfl
  | _ => exact absurd rfl h

end Form

/-- A finished construct: the construct itself, or a block that first binds operands to new
locals. -/
inductive Finishes (a : EffectAnalysis) (s : NormalState) (id : ExprId) (form : Form) (ty : Ty)
    (span : Span) :
    Expr → NormalState → Prop where
  | plain (spills : Spills (form.spillCount a) s form.operands [] form.operands s) :
    Finishes a s id form ty span (.node id form ty span) s
  | block {stmts : List Stmt} {ops : List Expr} {s₁ : NormalState}
    (spills : Spills (form.spillCount a) s form.operands stmts ops s₁)
    (operands : form.operands ≠ []) :
    Finishes a s id form ty span
      (.node ⟨s₁.nextExpr + 1⟩ (.block stmts (some (.node id (form.withChildren ops) ty span))) ty
      span) ⟨s₁.locals, s₁.nextExpr + 2⟩

theorem finishes_finish (a : EffectAnalysis) (s : NormalState) (id : ExprId) (form : Form) (ty : Ty)
    (span : Span) :
    Finishes a s id form ty span (finish a id ty span form s).1 (finish a id ty span form s).2 := by
  have hspills := spills_spill (form.spillCount a) form.operands s
  have hrun : finish a id ty span form s =
      (if (spill (form.spillCount a) form.operands s).1.1.isEmpty then return .node id form ty span
        else wrap (spill (form.spillCount a) form.operands s).1.1
          (.node id (form.withOperands (spill (form.spillCount a) form.operands s).1.2) ty span) :
          NormalM Expr)
        (spill (form.spillCount a) form.operands s).2 := rfl
  generalize spill (form.spillCount a) form.operands s = spilled at hspills hrun
  obtain ⟨⟨stmts, ops⟩, s₁⟩ := spilled
  rw [hrun]
  cases stmts with
  | nil =>
    obtain ⟨rfl, rfl⟩ := hspills.of_nil rfl
    exact .plain hspills
  | cons st stmts =>
    have hne : form.operands ≠ [] := by
      intro hnil
      obtain ⟨l, e, -, he, -⟩ := hspills.mem_stmts mem_cons_self
      rw [hnil] at he
      cases he
    have hblock : Finishes a s id form ty span _ _ := .block hspills hne
    rw [← Form.withOperands_eq_withChildren hne hspills.length_eq] at hblock
    exact hblock

/-- **Induction along normalization.** `P` relates a state and an expression to the expression in
normal form and the state behind it, `Q` does so for lists. -/
theorem Expr.normalize_induction {a : EffectAnalysis}
    {P : NormalState → Expr → Expr → NormalState → Prop}
    {Q : NormalState → List Expr → List Expr → NormalState → Prop} (nil : ∀ s, Q s [] [] s)
    (cons : ∀ {s s₁ s' e e' es es'}, P s e e' s₁ → Q s₁ es es' s' → Q s (e :: es) (e' :: es') s')
    (node : ∀ {s s₁ s' e e' cs}, e.form.finalizer? = none → normalizeAll a e.form.children
      s = (cs, s₁) → Q s e.form.children cs s₁ →
      Finishes a s₁ e.id (e.form.withChildren cs) e.ty e.span e' s' → P s e e' s')
    (finalized : ∀ {s s₁ s₂ id body clauses ty span handle finalizer finalizer'},
      P s (.node id (.handle body clauses none) ty span) handle s₁ → P s₁ finalizer finalizer' s₂ →
      P s (.node id (.handle body clauses (some finalizer)) ty span)
      (s₂.finalized handle finalizer')
        (s₂.afterFinalized handle))
    (e : Expr) (s : NormalState) : P s e (e.normalize a s).1 (e.normalize a s).2 := by
  induction e using Expr.induction generalizing s with
  | step e ih =>
    -- a construct whose parts are among those of `e`
    have hplain (e' : Expr) (he' : e'.form.finalizer? = none)
        (hsub : e'.form.children ⊆ e.form.children) (s : NormalState) : P s e' (e'.normalize a s).1
        (e'.normalize a s).2 := by
      have hparts (es : List Expr) (hes : es ⊆ e.form.children) (s : NormalState) :
          Q s es (normalizeAll a es s).1 (normalizeAll a es s).2 := by
        induction es generalizing s with
        | nil => exact nil s
        | cons c es ihes =>
          exact cons (ih c (hes mem_cons_self) s) (ihes (fun x hx => hes (mem_cons_of_mem _ hx)) _)
      rw [normalize_eq he']
      exact node he' rfl (hparts _ hsub s) (finishes_finish _ _ _ _ _ _)
    cases hfin : e.form.finalizer? with
    | none => exact hplain e hfin (List.Subset.refl _) s
    | some finalizer =>
      obtain ⟨id, form, ty, span⟩ := e
      cases form with
      | handle body clauses finalizer' =>
        obtain rfl : finalizer' = some finalizer := hfin
        refine finalized (hplain (.node id (.handle body clauses none) ty span) rfl ?_ s)
          (ih finalizer ?_ _)
        · simp
        · simp
      | _ => cases hfin

end Effectful
