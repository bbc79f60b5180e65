import Effectful.Proofs.RowInference
import Mathlib.Data.List.Forall2
import Mathlib.Data.List.Sort
import Mathlib.Data.String.Basic
/-!
# Relations that inference respects

Inference builds rows from the rows of the called functions in a few ways only: by union, by
dropping labels, and from single operations and variables.  A relation between rows that these
respect (`Row.Respected`) therefore holds between what two passes find, if it holds between the rows
that the called functions have in the two passes (`Program.inferFunction_rel`).

* Equality: a pass looks at nothing but the rows of the called functions.
* The rows record the same operation for a label (`Row.respected_opAt`): what is found for one label
  depends on what the called functions have for that label, and on nothing else.
* If the tail of one row is within a bound, then so is the tail of the other
  (`Row.respected_tailWithin`).
* Properties of one row: it is canonical, or what it records for a label is of a certain kind.

A canonical row is known from its tail and what it records for each label (`Row.Canonical.ext`).
-/

namespace Effectful

open List

variable {op : RowOp} {ops : List RowOp}

namespace Row

/-! ### Canonical rows -/

/-- Each label is listed once, in ascending order. -/
def Canonical (r : Row) : Prop := r.ops.Pairwise fun op op' => op.label < op'.label

/-- The operation that stands for a label. -/
def opAt (r : Row) (l : String) : Option RowOp := r.ops.find? (·.label == l)

variable {r r' : Row} {l : String}

theorem mem_of_opAt (h : r.opAt l = some op) : op ∈ r.ops ∧ op.label = l :=
  ⟨mem_of_find?_eq_some h, by simpa using find?_some h⟩

theorem isSome_opAt : (r.opAt l).isSome ↔ l ∈ r.labels := by
  simp [opAt, labels]

theorem Canonical.pairwise_labels (h : r.Canonical) : r.labels.Pairwise (· < ·) :=
  pairwise_map.mpr h

theorem Canonical.opAt_of_mem (h : r.Canonical) (hop : op ∈ r.ops) : r.opAt op.label = some op := by
  obtain ⟨op', hop'⟩ := Option.isSome_iff_exists.mp (isSome_opAt.mpr (mem_map_of_mem hop))
  obtain ⟨hmem, hlabel⟩ := mem_of_opAt hop'
  have hnodup : (r.ops.map (·.label)).Nodup := h.pairwise_labels.imp fun h => ne_of_lt h
  rw [hop', inj_on_of_nodup_map hnodup hmem hop hlabel]

/-- A canonical row is known from its tail and what it records for each label. -/
theorem Canonical.ext (h : r.Canonical) (h' : r'.Canonical) (hops : ∀ l, r.opAt l = r'.opAt l)
    (htail : r.tail = r'.tail) : r = r' := by
  have hnodup {r : Row} (h : r.Canonical) : r.ops.Nodup := by
    refine List.Pairwise.imp ?_ h
    rintro op _ hlt rfl
    exact lt_irrefl _ hlt
  have hmem (op : RowOp) : op ∈ r.ops ↔ op ∈ r'.ops := by
    constructor
    · intro hop
      exact (mem_of_opAt ((hops _).symm.trans (h.opAt_of_mem hop))).1
    · intro hop
      exact (mem_of_opAt ((hops _).trans (h'.opAt_of_mem hop))).1
  have hperm : r.ops.Perm r'.ops := (perm_ext_iff_of_nodup (hnodup h) (hnodup h')).mpr hmem
  have hsame : r.ops = r'.ops :=
    hperm.eq_of_pairwise (fun _ _ _ _ hlt hlt' => absurd hlt' (lt_asymm hlt)) h h'
  cases r
  congr

/-! ### Sorted operations -/

theorem mem_of_mem_insertOp {o : RowOp} (h : o ∈ insertOp op ops) : o = op ∨ o ∈ ops := by
  induction ops with
  | nil => simpa [insertOp] using h
  | cons o' os ih =>
    rw [insertOp] at h
    split at h
    · exact .inr h
    · split at h
      · exact mem_cons.mp h
      · obtain rfl | h := mem_cons.mp h
        · exact .inr mem_cons_self
        · exact (ih h).imp_right (mem_cons_of_mem _)

theorem pairwise_insertOp (op : RowOp) (h : ops.Pairwise fun o o' => o.label < o'.label) :
    (insertOp op ops).Pairwise fun o o' => o.label < o'.label := by
  induction ops with
  | nil => simp [insertOp]
  | cons o os ih =>
    obtain ⟨hhead, hrest⟩ := pairwise_cons.mp h
    rw [insertOp]
    split
    · exact h
    · rename_i hne
      split
      · rename_i hlt
        refine pairwise_cons.mpr ⟨fun o' ho' => ?_, h⟩
        obtain rfl | ho' := mem_cons.mp ho'
        · exact hlt
        · exact lt_trans hlt (hhead o' ho')
      · rename_i hnlt
        refine pairwise_cons.mpr ⟨fun o' ho' => ?_, ih hrest⟩
        obtain rfl | ho' := mem_of_mem_insertOp ho'
        · exact lt_of_le_of_ne (not_lt.mp hnlt) (Ne.symm hne)
        · exact hhead o' ho'

/-- An operation that is put in is recorded, unless its label is there already. -/
theorem find?_insertOp (op : RowOp) (h : ops.Pairwise fun o o' => o.label < o'.label) (l : String) :
    (insertOp op ops).find? (·.label == l) = (ops ++ [op]).find? (·.label == l) := by
  induction ops with
  | nil => rfl
  | cons o os ih =>
    obtain ⟨hhead, hrest⟩ := pairwise_cons.mp h
    rw [insertOp, cons_append]
    by_cases ho : o.label = l
    · -- the operation that is there stays the first one
      have hskip (hne : ¬ op.label = o.label) : ¬ op.label = l := fun hop => hne (hop.trans ho.symm)
      split
      · simp [ho]
      · rename_i hne
        split <;> simp [ho, hskip hne]
    · split
      · rename_i heq
        simp [ho, heq]
      · split
        · rename_i hlt
          by_cases hop : op.label = l
          · -- all that follows has greater labels
            have hnone : os.find? (·.label == l) = none := by
              refine find?_eq_none.mpr fun o' ho' heq => ?_
              have hlt' : op.label < o'.label := lt_trans hlt (hhead o' ho')
              rw [hop, eq_of_beq heq] at hlt'
              exact lt_irrefl _ hlt'
            simp [ho, hop, hnone]
          · simp [ho, hop]
        · simpa [ho] using ih hrest

theorem find?_foldl_insertOp (ops : List RowOp) {sorted : List RowOp}
    (h : sorted.Pairwise fun o o' => o.label < o'.label) (l : String) :
    (ops.foldl (fun sorted op => insertOp op sorted) sorted).find? (·.label == l) =
      (sorted ++ ops).find? (·.label == l) := by
  induction ops generalizing sorted with
  | nil => simp
  | cons op ops ih =>
    rw [foldl_cons, ih (pairwise_insertOp op h), find?_append, find?_insertOp op h,
      ← find?_append, append_assoc, singleton_append]

theorem pairwise_foldl_insertOp (ops : List RowOp) {sorted : List RowOp}
    (h : sorted.Pairwise fun o o' => o.label < o'.label) :
    (ops.foldl (fun sorted op => insertOp op sorted) sorted).Pairwise
      fun o o' => o.label < o'.label := by
  induction ops generalizing sorted with
  | nil => exact h
  | cons op ops ih => exact ih (pairwise_insertOp op h)

/-- A union records for a label what the first of the rows records that has it. -/
theorem opAt_compose (rs : List Row) (l : String) :
    (compose rs).opAt l = rs.findSome? (·.opAt l) := by
  match rs with
  | [] => rfl
  | [r] => cases h : r.opAt l <;> simp [compose, h]
  | r :: r' :: rs =>
    rw [compose, opAt, ofOps, sortOps, find?_foldl_insertOp _ List.Pairwise.nil, nil_append,
      find?_flatMap]
    · rfl
    · simp
    · simp

theorem opAt_drop (r : Row) (dropped : List String) (l : String) :
    (r.drop dropped).opAt l = if l ∈ dropped then none else r.opAt l := by
  rw [opAt, drop, find?_filter]
  split
  · rename_i hl
    refine find?_eq_none.mpr fun op _ h => ?_
    simp only [contains_eq_mem, Bool.not_eq_true', decide_eq_false_iff_not, beq_iff_eq,
      decide_eq_true_eq] at h
    exact h.1 (h.2 ▸ hl)
  · rename_i hl
    congr 1
    funext op
    by_cases hop : op.label = l <;> simp [hop, hl]

theorem canonical_compose {rs : List Row} (h : ∀ r ∈ rs, r.Canonical) : (compose rs).Canonical := by
  match rs with
  | [] => exact List.Pairwise.nil
  | [r] => exact h r mem_cons_self
  | r :: r' :: rs =>
    rw [compose]
    · exact pairwise_foldl_insertOp _ List.Pairwise.nil
    · simp
    · simp

/-! ### Tails -/

/-- The row is open, and its variable is not above a bound. -/
def TailWithin (bound : Nat) (r : Row) : Prop := ∃ v, r.tail = some v ∧ v.index ≤ bound

theorem tailWithin_compose {bound : Nat} {rs : List Row} :
    (compose rs).TailWithin bound ↔ ∃ r ∈ rs, r.TailWithin bound := by
  have hmerge (t t' : Option RowVar) : (∃ v, mergeTail t t' = some v ∧ v.index ≤ bound) ↔
      (∃ v, t = some v ∧ v.index ≤ bound) ∨ ∃ v, t' = some v ∧ v.index ≤ bound := by
    cases t <;> cases t' <;> simp [mergeTail]
  have hfold (rs : List Row) (t : Option RowVar) :
      (∃ v, rs.foldl (fun t r => mergeTail t r.tail) t = some v ∧ v.index ≤ bound) ↔
        (∃ v, t = some v ∧ v.index ≤ bound) ∨ ∃ r ∈ rs, r.TailWithin bound := by
    induction rs generalizing t with
    | nil => simp
    | cons r rs ih =>
      rw [foldl_cons, ih, hmerge]
      simp only [mem_cons, or_and_right, exists_or, exists_eq_left, or_assoc, TailWithin]
  match rs with
  | [] => simp [compose, pure, TailWithin]
  | [r] => simp [compose]
  | r :: r' :: rs =>
    rw [compose, TailWithin, ofOps, hfold]
    · simp
    · simp
    · simp

/-- A tail is known from its bounds. -/
theorem tail_eq_of_tailWithin (h : ∀ bound, r.TailWithin bound ↔ r'.TailWithin bound) :
    r.tail = r'.tail := by
  have hsome {r r' : Row} (h : ∀ bound, r.TailWithin bound → r'.TailWithin bound) {v : RowVar}
      (hv : r.tail = some v) : ∃ w, r'.tail = some w ∧ w.index ≤ v.index :=
    h v.index ⟨v, hv, Nat.le_refl _⟩
  cases hr : r.tail with
  | none =>
    cases hr' : r'.tail with
    | none => rfl
    | some w =>
      obtain ⟨v, hv, -⟩ := hsome (fun b => (h b).mpr) hr'
      rw [hr] at hv
      cases hv
  | some v =>
    obtain ⟨w, hw, hle⟩ := hsome (fun b => (h b).mp) hr
    obtain ⟨v', hv', hle'⟩ := hsome (fun b => (h b).mpr) hw
    obtain rfl : v = v' := Option.some.inj (hr.symm.trans hv')
    rw [hw]
    cases v
    congr
    exact Nat.le_antisymm hle' hle

/-! ### Relations -/

/-- A relation between rows is respected by the ways in which inference builds rows. -/
structure Respected (R : Row → Row → Prop) : Prop where
  pure : R .pure .pure
  ofVar : ∀ v, R (.ofVar v) (.ofVar v)
  drop : ∀ {r r' : Row} (dropped : List String), R r r' → R (r.drop dropped) (r'.drop dropped)
  compose : ∀ {rs rs' : List Row}, List.Forall₂ R rs rs' → R (.compose rs) (.compose rs')

theorem respected_eq : Respected Eq where
  pure := rfl
  ofVar _ := rfl
  drop _ h := by rw [h]
  compose h := by rw [forall₂_eq_eq_eq] at h; rw [h]

/-- A property of rows is a relation that looks at one of them. -/
theorem respected_of_closed {P : Row → Prop} (pure : P .pure) (ofVar : ∀ v, P (.ofVar v))
    (drop : ∀ {r : Row} (dropped : List String), P r → P (r.drop dropped))
    (compose : ∀ {rs : List Row}, (∀ r ∈ rs, P r) → P (.compose rs)) :
    Respected fun r _ => P r where
  pure := pure
  ofVar := ofVar
  drop := drop
  compose h := by
    refine compose fun r hr => ?_
    induction h with
    | nil => cases hr
    | cons h _ ih =>
      obtain rfl | hr := mem_cons.mp hr
      · exact h
      · exact ih hr

theorem respected_canonical : Respected fun r _ => r.Canonical :=
  respected_of_closed List.Pairwise.nil (fun _ => List.Pairwise.nil)
    (fun _ h => List.Pairwise.filter _ h) canonical_compose

/-- What is recorded for a label is of a certain kind. -/
theorem respected_of_opAt (l : String) (S : RowOp → Prop) :
    Respected fun r _ => ∀ op, r.opAt l = some op → S op := by
  refine respected_of_closed (fun op h => by cases h) (fun v op h => by cases h) ?_ ?_
  · intro r dropped h op hop
    rw [opAt_drop] at hop
    split at hop
    · cases hop
    · exact h op hop
  · intro rs h op hop
    rw [opAt_compose] at hop
    obtain ⟨r, hr, hop⟩ := exists_of_findSome?_eq_some hop
    exact h r hr op hop

theorem respected_opAt (l : String) : Respected fun r r' => r.opAt l = r'.opAt l where
  pure := rfl
  ofVar _ := rfl
  drop _ h := by rw [opAt_drop, opAt_drop, h]
  compose h := by
    rw [opAt_compose, opAt_compose]
    induction h with
    | nil => rfl
    | cons h _ ih => rw [findSome?_cons, findSome?_cons, h, ih]

theorem respected_tailWithin (bound : Nat) :
    Respected fun r r' => r.TailWithin bound → r'.TailWithin bound where
  pure := id
  ofVar _ := id
  drop _ h := h
  compose h := by
    simp only [tailWithin_compose]
    induction h with
    | nil => exact id
    | cons h _ ih => simp only [mem_cons, or_and_right, exists_or,
        exists_eq_left]; exact Or.imp h ih

end Row

/-! ### What inference finds -/

def Program.rowOp (p : Program) (operation : OpRef) (decl : OpDecl) : RowOp :=
  ⟨p.opLabel operation, operation.effect, decl.kind⟩

/-- The expression performs the operation, in itself and not through a call. -/
def Expr.PerformsOp (p : Program) (e : Expr) (op : RowOp) : Prop :=
  ∃ x ∈ e.walk, ∃ operation args typeArgs decl, x.form = .perform operation args typeArgs ∧
    p.op? operation = some decl ∧ op = p.rowOp operation decl

/-- The expression calls a function by its name. -/
def Expr.CallsFn (e : Expr) (d : DefId) : Prop :=
  ∃ x ∈ e.walk, ∃ callee args, x.form = .call callee args ∧ callee.form = .fn d

section Relation

variable {p : Program} {exhaustive : Bool} {rows rows' : List (DefId × Row)} {R : Row → Row → Prop}

theorem Form.added_rel (hR : Row.Respected R) {form : Form} (span : Span)
    (hops : ∀ operation args typeArgs decl, form = .perform operation args typeArgs →
      p.op? operation = some decl → R (.single (p.rowOp operation decl))
      (.single (p.rowOp operation decl)))
    (hcalls : ∀ callee args d, form = .call callee args → callee.form = .fn d →
      R (Program.rowIn rows d) (Program.rowIn rows' d)) :
    List.Forall₂ R ((form.added ⟨p, exhaustive, rows⟩ span).map (·.row))
      ((form.added ⟨p, exhaustive, rows'⟩ span).map (·.row)) := by
  cases form with
  | call callee args =>
    rw [Form.added, Form.added]
    cases hcallee : callee.form with
    | fn d => exact .cons (hcalls callee args d rfl hcallee) .nil
    | _ => exact .nil
  | perform operation args typeArgs =>
    refine .cons ?_ .nil
    simp only [InferenceContext.performed]
    cases hop : p.op? operation with
    | none => exact hR.pure
    | some decl => exact hops operation args typeArgs decl rfl hop
  | _ => exact .nil

/-- A respected relation holds between the rows of an expression in two passes, if it holds between
the rows of the functions that it calls and of the operations that it performs. -/
theorem Expr.infer_rel (hR : Row.Respected R) (e : Expr)
    (hops : ∀ op, e.PerformsOp p op → R (.single op) (.single op))
    (hcalls : ∀ d, e.CallsFn d → R (Program.rowIn rows d) (Program.rowIn rows' d)) :
    R (e.infer ⟨p, exhaustive, rows⟩).row (e.infer ⟨p, exhaustive, rows'⟩).row := by
  induction e using Expr.induction with
  | step e ih =>
    have hself : e ∈ e.walk := by rw [walk_eq]; exact mem_cons_self
    have hwalk {y x : Expr} (hy : y ∈ e.form.children) (hx : x ∈ y.walk) : x ∈ e.walk := by
      rw [walk_eq]
      exact mem_cons_of_mem _ (mem_flatMap.mpr ⟨y, hy, hx⟩)
    have hparts (y : Expr) (hy : y ∈ e.form.children) :
        R (y.infer ⟨p, exhaustive, rows⟩).row (y.infer ⟨p, exhaustive, rows'⟩).row := by
      refine ih y hy (fun op => ?_) fun d => ?_
      · rintro ⟨x, hx, h⟩
        exact hops op ⟨x, hwalk hy hx, h⟩
      · rintro ⟨x, hx, h⟩
        exact hcalls d ⟨x, hwalk hy hx, h⟩
    have hmap (es : List Expr) (hes : ∀ y ∈ es, y ∈ e.form.children) :
        List.Forall₂ R (es.map fun y => (y.infer ⟨p, exhaustive, rows⟩).row)
          (es.map fun y => (y.infer ⟨p, exhaustive, rows'⟩).row) := by
      rw [forall₂_map_left_iff, forall₂_map_right_iff, forall₂_same]
      exact fun y hy => hparts y (hes y hy)
    cases hh : e.form.isHandle with
    | false =>
      rw [(e.infer_joins _ hh).row, (e.infer_joins _ hh).row, map_append, map_append, map_map,
        map_map]
      refine hR.compose (rel_append (hmap _ fun y hy => hy) ?_)
      refine Form.added_rel hR e.span ?_ ?_
      · intro operation args typeArgs decl hform hop
        exact hops _ ⟨e, hself, operation, args, typeArgs, decl, hform, hop, rfl⟩
      · intro callee args d hform hcallee
        exact hcalls d ⟨e, hself, callee, args, hform, hcallee⟩
    | true =>
      cases hf : e.form with
      | handle body clauses finalizer =>
        rw [(infer_of_handle _ hf).1, (infer_of_handle _ hf).1]
        simp only [hf, Form.children, mem_cons, mem_append] at hparts hmap
        have hclauses := hmap (clauses.map (·.body)) fun y hy => .inr (.inl hy)
        have hfinalizer := hmap finalizer.toList fun y hy => .inr (.inr hy)
        rw [map_map, map_map] at hclauses
        rw [← Option.toList_map, ← Option.toList_map] at hfinalizer
        exact hR.compose (.cons (hR.drop _ (hparts body (.inl rfl)))
          (rel_append hclauses hfinalizer))
      | _ => simp [hf, Form.isHandle] at hh

/-- A respected relation holds between what two passes find for a function. -/
theorem Program.inferFunction_rel (hR : Row.Respected R) (f : FnDecl)
    (hops : ∀ op, f.body.PerformsOp p op → R (.single op) (.single op))
    (hcalls : ∀ d, f.body.CallsFn d → R (rowIn rows d) (rowIn rows' d)) :
    R (p.inferFunction exhaustive rows f).row (p.inferFunction exhaustive rows' f).row := by
  have hbody : R (f.body.infer ⟨p, exhaustive, rows⟩).row
      (f.body.infer ⟨p, exhaustive, rows'⟩).row :=
    f.body.infer_rel hR hops hcalls
  rw [inferFunction, inferFunction]
  split
  · exact hR.compose (.cons hbody (.cons (hR.ofVar _) .nil))
  · exact hbody

/-- A respected property holds of what a pass finds for a function. -/
theorem Program.inferFunction_prop {P : Row → Prop} (hP : Row.Respected fun r _ => P r) (f : FnDecl)
    (hops : ∀ op, f.body.PerformsOp p op → P (.single op))
    (hcalls : ∀ d, f.body.CallsFn d → P (rowIn rows d)) :
    P (p.inferFunction exhaustive rows f).row :=
  @inferFunction_rel p exhaustive rows rows _ hP f hops hcalls

end Relation

end Effectful
