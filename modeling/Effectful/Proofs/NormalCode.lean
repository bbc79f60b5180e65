import Effectful.Proofs.NormalShape
/-!
# Properties of code in normal form

What normalization keeps: the names of what is called, and the calls, operations and handlers with
their ids (`Expr.labels_normalize`).  What it establishes: in front of an operand that may suspend
there are only operands that can be evaluated once more (`Expr.isNormal_normalize`).
-/

namespace Effectful

open List

open NormalM

variable {count : Nat} {s s' : NormalState} {es ops cs : List Expr} {stmts : List Stmt}
  {form : Form} {id : ExprId} {ty : Ty} {span : Span} {e : Expr}

/-! ### Nodes of finished constructs -/

theorem Spills.walk_stmts (h : Spills count s es stmts ops s') {x : Expr}
    (hx : x ∈ (stmts.filterMap Stmt.expr?).flatMap Expr.walk) : x ∈ es.flatMap Expr.walk := by
  obtain ⟨e, he, hx⟩ := mem_flatMap.mp hx
  obtain ⟨st, hst, hcode⟩ := mem_filterMap.mp he
  obtain ⟨l, e', rfl, he', -⟩ := h.mem_stmts hst
  obtain rfl : e' = e := Option.some.inj hcode
  exact mem_flatMap.mpr ⟨e', he', hx⟩

theorem Spills.walk_ops (h : Spills count s es stmts ops s') {x : Expr}
    (hx : x ∈ ops.flatMap Expr.walk) :
    x ∈ es.flatMap Expr.walk ∨ ∃ l, x.form = .var l ∧ s.locals.length ≤ l.index ∧
      l.index < s'.locals.length := by
  obtain ⟨e, he, hx⟩ := mem_flatMap.mp hx
  obtain he | ⟨l, hl, hbounds⟩ := h.mem_ops he
  · exact .inl (mem_flatMap.mpr ⟨e, he, hx⟩)
  · rw [Expr.walk_eq, hl] at hx
    obtain rfl : x = e := by simpa [Form.children] using hx
    exact .inr ⟨l, hl, hbounds⟩

namespace Finishes

variable {a : EffectAnalysis} {e' : Expr}

theorem extend (h : Finishes a s id form ty span e' s') : s.Extends s' := by
  cases h with
  | plain => exact .refl s
  | block spills => exact spills.extend.trans ⟨prefix_rfl, by simp⟩

/-- The node of a construct, as it stands or with its operands spilled. -/
inductive Core (a : EffectAnalysis) (s : NormalState) (form : Form) :
    Form → NormalState → Prop where
  | plain (spills : Spills (form.spillCount a) s form.operands [] form.operands s) :
      Core a s form form s
  | spilled {stmts : List Stmt} {ops : List Expr} {s₁ : NormalState} {n : Nat}
    (spills : Spills (form.spillCount a) s form.operands stmts ops s₁)
    (operands : form.operands ≠ []) :
    Core a s form (form.withChildren ops) ⟨s₁.locals, n⟩

/-- The nodes of a finished construct are those of its parts, its own, that of a block around it and
those that read new locals. -/
theorem forall_walk {R : Expr → Prop} (h : Finishes a s id form ty span e' s')
    (hparts : ∀ x ∈ form.children.flatMap Expr.walk, R x)
    (hcore : ∀ form', Core a s form form' s' → R (.node id form' ty span))
    (hblock : ∀ i stmts tail, (∀ st ∈ stmts, ∃ l e, st = .bind l (some e) ∧ e.isStable = false ∧
      s.locals.length ≤ l.index ∧ l.index < s'.locals.length) → tail.form.isCallee = false →
      R (.node i (.block stmts (some tail)) ty span))
    (hread : ∀ x l, x.form = .var l → s.locals.length ≤ l.index →
      l.index < s'.locals.length → R x) :
    ∀ x ∈ e'.walk, R x := by
  cases h with
  | plain spills =>
    rw [Expr.forall_walk_iff]
    refine ⟨hcore form (.plain spills), fun c hc x hx => ?_⟩
    exact hparts x (mem_flatMap.mpr ⟨c, hc, hx⟩)
  | @block stmts ops s₁ spills hne =>
    have hops := Form.operands_eq_children hne
    have hlen : ops.length = form.children.length := spills.length_eq.trans (by rw [hops])
    have hsame := Form.resembles_withChildren hlen
    intro x hx
    rw [Expr.walk_eq] at hx
    obtain rfl | hx := mem_cons.mp hx
    · have hname : form.isCallee = false := by
        cases form <;> first | rfl | exact absurd rfl hne
      refine hblock _ _ _ (fun st hst => ?_) (hsame.isCallee.trans hname)
      obtain ⟨l, e, rfl, -, hl⟩ := spills.mem_stmts hst
      exact ⟨l, e, rfl, hl⟩
    · simp only [Expr.form, Form.children, Option.toList_some, flatMap_append, mem_append] at hx
      obtain hx | hx := hx
      · refine hparts x ?_
        rw [← hops]
        exact spills.walk_stmts hx
      · rw [flatMap_cons, flatMap_nil, append_nil, Expr.walk_eq] at hx
        obtain rfl | hx := mem_cons.mp hx
        · exact hcore _ (.spilled spills hne)
        · have hx' : x ∈ ops.flatMap Expr.walk := by
            rw [← hsame.children]
            exact hx
          obtain hx | ⟨l, hl, hlow, hhigh⟩ := spills.walk_ops hx'
          · exact hparts x (by rwa [← hops])
          · exact hread x l hl hlow hhigh

end Finishes

/-! ### Names of what is called -/

namespace Form

/-- The construct if it names something to call. -/
def name? (form : Form) : Option Form := if form.isCallee then some form else none

variable {form' : Form} {a : EffectAnalysis}

theorem isSome_name? (form : Form) : form.name?.isSome = form.isCallee := by
  unfold name?
  cases form.isCallee <;> rfl

theorem eq_of_name?_eq (h : form'.name? = form.name?) (hform : form.isCallee = true) :
    form' = form := by
  have hsome : form'.name? = some form := by rw [h, name?, if_pos hform]
  unfold name? at hsome
  split at hsome
  · exact Option.some.inj hsome
  · cases hsome

theorem isCallee_eq_of_name?_eq (h : form'.name? = form.name?) :
    form'.isCallee = form.isCallee := by
  rw [← isSome_name?, h, isSome_name?]

theorem name?_withChildren (hlen : cs.length = form.children.length) :
    (form.withChildren cs).name? = form.name? := by
  have hsame := resembles_withChildren hlen
  cases hname : form.isCallee with
  | false => rw [name?, name?, hsame.isCallee, hname, if_neg (by simp), if_neg (by simp)]
  | true =>
    cases form with
    | fn | intrinsic => rfl
    | _ => cases hname

/-- Whether a call suspends depends on the name it calls. -/
theorem suspends_call_eq {callee callee' : Expr} {args args' : List Expr}
    (h : callee'.form.name? = callee.form.name?) :
    (call callee' args').suspends a = (call callee args).suspends a := by
  cases hname : callee.form.isCallee with
  | true => rw [suspends, suspends, eq_of_name?_eq h hname]
  | false =>
    have hvalue (callee : Expr) (args : List Expr) (hcallee : callee.form.isCallee = false) :
        (call callee args).suspends a = true := by
      cases hf : callee.form <;> rw [hf] at hcallee <;>
        first | (cases hcallee; done) | (rw [suspends, hf])
    rw [hvalue callee args hname, hvalue callee' args' (by rw [isCallee_eq_of_name?_eq h, hname])]

theorem suspends_withChildren (hlen : cs.length = form.children.length)
    (h : cs.map (·.form.name?) = form.children.map (·.form.name?)) :
    (form.withChildren cs).suspends a = form.suspends a := by
  unfold withChildren
  split <;> try rfl
  -- parts other than the callee of a call do not matter
  rw [children, map_cons, map_cons, List.cons.injEq] at h
  exact suspends_call_eq h.1

end Form

theorem Spills.map_name? (h : Spills count s es stmts ops s') :
    ops.map (·.form.name?) = es.map (·.form.name?) := by
  induction h with
  | zero | nil => rfl
  | stable _ _ ih => rw [map_cons, map_cons, ih]
  | @fresh _ s _ e _ _ _ unstable _ ih =>
    have he : e.form.name? = none := by
      cases hf : e.form <;> first | rfl | (rw [Expr.isStable, hf] at unstable; cases unstable)
    rw [map_cons, map_cons, ih, he]
    rfl

section

variable {a : EffectAnalysis} {e' : Expr}

theorem Finishes.name? (h : Finishes a s id form ty span e' s') :
    e'.form.name? = form.name? := by
  cases h with
  | plain => rfl
  | block spills hne => cases form <;> first | rfl | exact absurd rfl hne

theorem Finishes.Core.suspends {form' : Form} (h : Core a s form form' s') :
    form'.suspends a = form.suspends a := by
  cases h with
  | plain => rfl
  | spilled spills hne =>
    have hops := Form.operands_eq_children hne
    exact Form.suspends_withChildren (by rw [spills.length_eq, hops])
      (by rw [spills.map_name?, hops])

/-- What names something to call stays as it is, and nothing else becomes a name. -/
theorem Expr.name?_normalize (e : Expr) (s : NormalState) :
    (e.normalize a s).1.form.name? = e.form.name? := by
  refine normalize_induction (P := fun _ e e' _ => e'.form.name? = e.form.name?)
    (Q := fun _ _ _ _ => True) ?_ ?_ ?_ ?_ e s
  · intro s
    trivial
  · intro s s₁ s' e e' es es' h h'
    trivial
  · intro s s₁ s' e e' cs _ hcs _ hfinish
    rw [hfinish.name?, Form.name?_withChildren (length_of_normalizeAll_eq hcs)]
  · intro s s₁ s₂ id body clauses ty span handle finalizer finalizer' _ _
    rfl

theorem names_normalizeAll (es : List Expr) (s : NormalState) :
    (normalizeAll a es s).1.map (·.form.name?) = es.map (·.form.name?) := by
  induction es generalizing s with
  | nil => rfl
  | cons e es ih => rw [normalizeAll_cons, map_cons, map_cons, ih, Expr.name?_normalize]

theorem names_of_normalizeAll_eq {s₁ : NormalState} (h : normalizeAll a es s = (cs, s₁)) :
    cs.map (·.form.name?) = es.map (·.form.name?) := by
  have hnames := names_normalizeAll (a := a) es s
  rwa [h] at hnames

end

/-! ### Labels -/

/-- What the id of a node stands for in later passes: a call, of the function or intrinsic it names
if it names one, an operation or the heads of the clauses of a handler. -/
inductive Construct where
  | call (name : Option Form) (arity : Nat)
  | perform (operation : OpRef) (typeArgs : List Ty) (arity : Nat)
  | handle (heads : List ClauseHead)

def Form.construct? : Form → Option Construct
  | .call callee args => some (.call callee.form.name? args.length)
  | .perform operation args typeArgs => some (.perform operation typeArgs args.length)
  | .handle _ clauses _ => some (.handle (clauses.map Clause.head))
  | _ => none

theorem Form.construct?_withChildren (hlen : cs.length = form.children.length)
    (h : cs.map (·.form.name?) = form.children.map (·.form.name?)) :
    (form.withChildren cs).construct? = form.construct? := by
  unfold withChildren
  split <;> try rfl
  · rw [children, map_cons, map_cons, List.cons.injEq] at h
    rw [construct?, construct?, h.1, Nat.succ.inj hlen]
  · rw [construct?, construct?, show cs.length = _ from hlen]
    rfl
  · obtain ⟨bodies, last, rfl, hbodies, -⟩ := exists_append_toList (by simpa [children] using hlen)
    rw [construct?, construct?, (map_body_withBodies _ bodies hbodies _).2]

namespace Expr

/-- The ids of the nodes of an expression, each with what it stands for. -/
def labels (e : Expr) : List (ExprId × Option Construct) :=
  e.walk.map fun x => (x.id, x.form.construct?)

theorem labels_eq (e : Expr) : e.labels = (e.id, e.form.construct?) ::
    e.form.children.flatMap labels := by
  rw [labels, walk_eq, map_cons, map_flatMap]
  rfl

theorem labels_block {tail : Expr} :
    (Expr.node id (.block stmts (some tail)) ty span).labels =
      (id, none) :: ((stmts.filterMap Stmt.expr?).flatMap labels ++ tail.labels) := by
  rw [labels_eq]
  show (id, none) :: (stmts.filterMap Stmt.expr? ++ [tail]).flatMap labels = _
  rw [flatMap_append, flatMap_cons, flatMap_nil, append_nil]

theorem labels_withChildren (hlen : cs.length = form.children.length)
    (h : cs.map (·.form.name?) = form.children.map (·.form.name?)) :
    (Expr.node id (form.withChildren cs) ty span).labels = (id, form.construct?) ::
      cs.flatMap labels := by
  rw [labels_eq]
  show (id, (form.withChildren cs).construct?) :: (form.withChildren cs).children.flatMap labels = _
  rw [Form.construct?_withChildren hlen h, (Form.resembles_withChildren hlen).children]

end Expr

/-- Ids that were handed out between two states. -/
structure NormalState.HandsOut (s s' : NormalState) (ids : List ExprId) : Prop where
  le : s.nextExpr ≤ s'.nextExpr
  nodup : ids.Nodup
  bounds : ∀ i ∈ ids, s.nextExpr ≤ i.index ∧ i.index < s'.nextExpr

namespace NormalState.HandsOut

variable {s₁ : NormalState} {is js : List ExprId}

theorem nil (h : s.nextExpr ≤ s'.nextExpr) : s.HandsOut s' [] := ⟨h, nodup_nil, by simp⟩

theorem append (h : s.HandsOut s₁ is) (h' : s₁.HandsOut s' js) : s.HandsOut s' (is ++ js) := by
  refine ⟨Nat.le_trans h.le h'.le, nodup_append.mpr ⟨h.nodup, h'.nodup, ?_⟩, ?_⟩
  · intro i hi j hj heq
    have := (h.bounds i hi).2
    have := (h'.bounds j hj).1
    rw [heq] at *
    omega
  · intro i hi
    have := h.le
    have := h'.le
    obtain hi | hi := mem_append.mp hi
    · have := h.bounds i hi
      omega
    · have := h'.bounds i hi
      omega

theorem one {i : ExprId} (h : s.nextExpr ≤ i.index) (h' : i.index < s'.nextExpr) :
    s.HandsOut s' [i] :=
  ⟨by omega, by simp, by simp; omega⟩

end NormalState.HandsOut

/-- New nodes stand for nothing of the old code. -/
def newLabels (ids : List ExprId) : List (ExprId × Option Construct) := ids.map (·, none)

/-- Spilled operands keep their labels, and reads get new ids. -/
theorem Spills.labels (h : Spills count s es stmts ops s') : ∃ new, s.HandsOut s' new ∧
      ((stmts.filterMap Stmt.expr?).flatMap Expr.labels ++ ops.flatMap Expr.labels).Perm
        (es.flatMap Expr.labels ++ newLabels new) := by
  induction h with
  | zero => exact ⟨[], .nil (Nat.le_refl _), by simp [newLabels]⟩
  | nil => exact ⟨[], .nil (Nat.le_refl _), by simp [newLabels]⟩
  | @stable _ _ _ e es ops stmts _ _ ih =>
    obtain ⟨new, hnew, hperm⟩ := ih
    refine ⟨new, hnew, ?_⟩
    rw [flatMap_cons, flatMap_cons, append_assoc]
    exact (perm_append_comm_assoc _ _ _).trans (hperm.append_left _)
  | @fresh _ s s' e es ops stmts _ _ ih =>
    obtain ⟨new, hnew, hperm⟩ := ih
    have hfirst : s.HandsOut (s.spilled e) [⟨s.nextExpr⟩] :=
      .one (Nat.le_refl _) (Nat.lt_succ_self _)
    refine ⟨_, hfirst.append hnew, ?_⟩
    have hstmts : ((Stmt.bind s.fresh (some e) :: stmts).filterMap Stmt.expr?).flatMap Expr.labels =
        e.labels ++ (stmts.filterMap Stmt.expr?).flatMap Expr.labels := rfl
    have hread : (s.read e).labels = newLabels [⟨s.nextExpr⟩] := rfl
    rw [hstmts, flatMap_cons, flatMap_cons, hread, append_assoc, append_assoc]
    refine List.Perm.append_left _ ?_
    have hops := (perm_append_comm_assoc (((stmts.filterMap Stmt.expr?).flatMap Expr.labels))
      (newLabels [⟨s.nextExpr⟩]) (ops.flatMap Expr.labels)).trans (hperm.append_left _)
    exact hops.trans (perm_append_comm_assoc _ _ _)

/-- A finished construct has the labels of its parts and its own. -/
theorem Finishes.labels {a : EffectAnalysis} {e' : Expr}
    (h : Finishes a s id form ty span e' s') : ∃ new, s.HandsOut s' new ∧
      e'.labels.Perm ((id, form.construct?) :: form.children.flatMap Expr.labels ++
        newLabels new) := by
  cases h with
  | plain =>
    refine ⟨[], .nil (Nat.le_refl _), ?_⟩
    rw [Expr.labels_eq, newLabels, map_nil, append_nil]
    rfl
  | @block stmts ops s₁ spills hne =>
    have hops := Form.operands_eq_children hne
    obtain ⟨read, hread, hspilled⟩ := spills.labels
    rw [hops] at hspilled
    have hwrap : s₁.HandsOut ⟨s₁.locals, s₁.nextExpr + 2⟩ [⟨s₁.nextExpr + 1⟩] :=
      .one (Nat.le_succ _) (Nat.lt_succ_self _)
    refine ⟨_, hread.append hwrap, ?_⟩
    rw [Expr.labels_block, Expr.labels_withChildren (by rw [spills.length_eq, hops])
      (by rw [spills.map_name?, hops])]
    -- the block comes last among the new nodes, and the statements stand behind the node
    rw [newLabels, map_append, ← newLabels, ← append_assoc]
    exact ((perm_middle.trans (hspilled.cons _)).cons _).trans (perm_append_singleton _ _).symm

namespace Expr

variable {a : EffectAnalysis}

/-- **Labels**: nodes keep their ids and what these stand for, and new nodes get ids that were not
in use. -/
theorem labels_normalize (e : Expr) (s : NormalState) : ∃ new, s.HandsOut (e.normalize a s).2 new ∧
    (e.normalize a s).1.labels.Perm (e.labels ++ newLabels new) := by
  have hnew (is js : List ExprId) : newLabels (is ++ js) = newLabels is ++ newLabels js :=
    map_append
  refine normalize_induction
    (P := fun s e e' s' => ∃ new, s.HandsOut s' new ∧ e'.labels.Perm (e.labels ++ newLabels new))
    (Q := fun s es es' s' => ∃ new, s.HandsOut s' new ∧
      (es'.flatMap labels).Perm (es.flatMap labels ++ newLabels new)) ?_ ?_ ?_ ?_ e s
  · intro s
    exact ⟨[], .nil (Nat.le_refl _), by simp [newLabels]⟩
  · rintro s s₁ s' e e' es es' ⟨is, his, hperm⟩ ⟨js, hjs, hperm'⟩
    refine ⟨is ++ js, his.append hjs, ?_⟩
    rw [flatMap_cons, flatMap_cons, hnew]
    refine (hperm.append hperm').trans ?_
    rw [append_assoc, append_assoc]
    exact (perm_append_comm_assoc _ _ _).append_left _
  · rintro s s₁ s' e e' cs - hcs ⟨is, his, hperm⟩ hfinish
    have hlen := length_of_normalizeAll_eq hcs
    obtain ⟨js, hjs, hlabels⟩ := hfinish.labels
    refine ⟨is ++ js, his.append hjs, hlabels.trans ?_⟩
    rw [Form.construct?_withChildren hlen (names_of_normalizeAll_eq hcs),
      (Form.resembles_withChildren hlen).children, labels_eq e, hnew, ← append_assoc]
    exact (hperm.cons _).append_right _
  · rintro s s₁ s₂ id body clauses ty span handle finalizer finalizer' ⟨is, his, hperm⟩
      ⟨js, hjs, hperm'⟩
    have hblock : s₂.HandsOut (s₂.afterFinalized handle)
        [⟨s₂.nextExpr + 1⟩, ⟨s₂.nextExpr + 2⟩] := by
      refine ⟨Nat.le_add_right _ _, by simp, ?_⟩
      simp [NormalState.afterFinalized]
    refine ⟨_, (his.append hjs).append hblock, ?_⟩
    have hsource : (Expr.node id (.handle body clauses (some finalizer)) ty span).labels =
        (Expr.node id (.handle body clauses none) ty span).labels ++ finalizer.labels := by
      rw [labels_eq, labels_eq (.node id (.handle body clauses none) ty span)]
      simp [Form.children, Form.construct?, Expr.id]
    have hresult : (s₂.finalized handle finalizer').labels =
        (⟨s₂.nextExpr + 2⟩, none) ::
        (handle.labels ++ finalizer'.labels ++ [(⟨s₂.nextExpr + 1⟩, none)]) := by
      rw [NormalState.finalized, labels_block]
      simp [Stmt.expr?, labels_eq (.node _ (.var _) _ _), Form.children, Form.construct?, Expr.id]
    have hparts := hperm.append hperm'
    rw [append_assoc] at hparts
    have hshuffled := hparts.trans ((perm_append_comm_assoc _ _ _).append_left _)
    rw [← append_assoc] at hshuffled
    rw [hsource, hresult, hnew, hnew, ← append_assoc]
    refine (perm_append_singleton _ _).symm.trans ?_
    rw [append_assoc]
    exact hshuffled.append_right _

end Expr

/-! ### Operands of code in normal form -/

/-- An expression that only names a value. -/
def Form.isAtom : Form → Bool
  | .literal _ | .var _ | .fn _ | .op _ _ | .intrinsic _ => true
  | _ => false

/-- The normal form of a construct that suspends, or that is entered again when one of its operands
did. -/
structure Form.IsNormal (a : EffectAnalysis) (form : Form) : Prop where
  finalizer : form.finalizer? = none
  single : form.operands.countP (·.maySuspend a) ≤ 1
  /-- What is in front of an operand that may suspend can be evaluated once more. -/
  front : ∀ before e after, form.operands = before ++ e :: after → e.maySuspend a = true →
    ∀ x ∈ before, x.form.isAtom = true
  /-- All operands of a construct that suspends can be evaluated once more. -/
  own : form.suspends a = true → ∀ x ∈ form.operands, x.form.isAtom = true

section

variable {a : EffectAnalysis} {form' : Form}

theorem Expr.maySuspend_of_isAtom (h : e.form.isAtom = true) : e.maySuspend a = false := by
  have hnone : e.form.suspends a = false ∧ e.form.children = [] := by
    cases hf : e.form <;> rw [hf] at h <;> first | exact ⟨rfl, rfl⟩ | cases h
  rw [maySuspend, walk_eq, hnone.2, flatMap_nil, any_cons, hnone.1]
  rfl

theorem Expr.isAtom_of_isStable (h : e.isStable = true) : e.form.isAtom = true := by
  cases hf : e.form <;> first | rfl | (rw [isStable, hf] at h; cases h)

/-- The first operands are atoms, and the others stay. -/
theorem Spills.exists_atoms (h : Spills count s es stmts ops s') :
    ∃ front, ops = front ++ es.drop count ∧ ∀ x ∈ front, x.form.isAtom = true := by
  induction h with
  | zero => exact ⟨[], rfl, by simp⟩
  | nil => exact ⟨[], by simp, by simp⟩
  | stable stable _ ih =>
    obtain ⟨front, rfl, hfront⟩ := ih
    exact ⟨_ :: front, rfl, forall_mem_cons.mpr ⟨Expr.isAtom_of_isStable stable, hfront⟩⟩
  | fresh _ _ ih =>
    obtain ⟨front, rfl, hfront⟩ := ih
    exact ⟨_ :: front, rfl, forall_mem_cons.mpr ⟨rfl, hfront⟩⟩

/-- Behind the operands that are spilled and the next one there is none that may suspend. -/
theorem Form.maySuspend_of_mem_drop (he : e ∈ form.operands.drop (form.spillCount a + 1)) :
    e.maySuspend a = false := by
  unfold spillCount at he
  split at he
  · rw [drop_eq_nil_of_le (Nat.le_succ _)] at he
    cases he
  · generalize hquiet : (fun e : Expr => !e.maySuspend a) = quiet at he
    have hsplit : form.operands =
        (form.operands.reverse.dropWhile quiet).reverse ++
        (form.operands.reverse.takeWhile quiet).reverse := by
      rw [← reverse_append, takeWhile_append_dropWhile, reverse_reverse]
    generalize form.operands.reverse.dropWhile quiet = front at he hsplit
    rw [hsplit, drop_append, drop_eq_nil_of_le (by rw [length_reverse]; omega), nil_append] at he
    have hmem := mem_reverse.mp (mem_of_mem_drop he)
    have hall := all_eq_true.mp all_takeWhile e hmem
    rw [← hquiet] at hall
    simpa using hall

theorem Form.isNormal_of_operands_eq_nil (hfin : form.finalizer? = none) (h : form.operands = []) :
    form.IsNormal a := by
  refine ⟨hfin, by simp [h], ?_, by simp [h]⟩
  intro before e after hsplit
  simp [h] at hsplit

/-- Atoms in front of operands of which only the first may suspend. -/
theorem Form.isNormal_of_operands_eq_append {front rest : List Expr} (hfin : form.finalizer? = none)
    (h : form.operands = front ++ rest) (hfront : ∀ x ∈ front, x.form.isAtom = true)
    (hrest : ∀ x ∈ rest.drop 1, x.maySuspend a = false)
    (hown : form.suspends a = true → rest = []) :
    form.IsNormal a := by
  have hatoms : front.countP (·.maySuspend a) = 0 :=
    countP_eq_zero.mpr fun x hx => by simp [Expr.maySuspend_of_isAtom (hfront x hx)]
  refine ⟨hfin, ?_, ?_, ?_⟩
  · rw [h, countP_append, hatoms]
    cases rest with
    | nil => simp
    | cons e rest =>
      have hlater : rest.countP (·.maySuspend a) = 0 :=
        countP_eq_zero.mpr fun x hx => by simp [hrest x hx]
      rw [countP_cons, hlater]
      split <;> simp
  · intro before e after hsplit he x hx
    rw [h, append_eq_append_iff] at hsplit
    obtain ⟨behind, rfl, hbehind⟩ | ⟨behind, rfl, -⟩ := hsplit
    · -- the operand that may suspend is behind the atoms, so it is the first there
      obtain hx | hx := mem_append.mp hx
      · exact hfront x hx
      · cases behind with
        | nil => cases hx
        | cons b behind =>
          have hlate := hrest e (by rw [hbehind]; simp)
          rw [hlate] at he
          cases he
    · exact hfront x (mem_append_left _ hx)
  · intro hsuspends x hx
    rw [h, hown hsuspends, append_nil] at hx
    exact hfront x hx

theorem Form.finalizer?_withChildren (h : form.finalizer? = none) :
    (form.withChildren cs).finalizer? = none := by
  unfold withChildren
  split <;> first | rfl | exact h | skip
  obtain rfl : _ = none := h
  rfl

/-- The own node of a finished construct is normal. -/
theorem Finishes.Core.isNormal (h : Core a s form form' s') (hform : form.finalizer? = none) :
    form'.IsNormal a := by
  have hspills : form'.finalizer? = none ∧ ∃ stmts s₁, Spills (form.spillCount a) s form.operands
      stmts form'.operands s₁ := by
    cases h with
    | plain spills => exact ⟨hform, _, _, spills⟩
    | spilled spills hne =>
      have hops := Form.operands_withChildren hne
        (spills.length_eq.trans (by rw [Form.operands_eq_children hne]))
      rw [hops]
      exact ⟨Form.finalizer?_withChildren hform, _, _, spills⟩
  obtain ⟨hfin, stmts, s₁, spills⟩ := hspills
  obtain ⟨front, hops, hfront⟩ := spills.exists_atoms
  refine Form.isNormal_of_operands_eq_append hfin hops hfront (fun x hx => ?_) fun hsuspends => ?_
  · rw [drop_drop] at hx
    exact Form.maySuspend_of_mem_drop hx
  · rw [h.suspends] at hsuspends
    rw [Form.spillCount, if_pos hsuspends, drop_length]

/-- **Normal form**: every construct in a normalized expression is normal. -/
theorem Expr.isNormal_normalize (e : Expr) (s : NormalState) : ∀ x ∈ (e.normalize a s).1.walk,
    x.form.IsNormal a := by
  refine normalize_induction (P := fun _ _ e' _ => ∀ x ∈ e'.walk, x.form.IsNormal a)
    (Q := fun _ _ es' _ => ∀ e ∈ es', ∀ x ∈ e.walk, x.form.IsNormal a) ?_ ?_ ?_ ?_ e s
  · simp
  · intro s s₁ s' e e' es es' h h'
    exact forall_mem_cons.mpr ⟨h, h'⟩
  · intro s s₁ s' e e' cs hfin hcs h hfinish
    refine hfinish.forall_walk ?_ ?_ ?_ ?_
    · intro x hx
      rw [(Form.resembles_withChildren (length_of_normalizeAll_eq hcs)).children] at hx
      obtain ⟨c, hc, hx⟩ := mem_flatMap.mp hx
      exact h c hc x hx
    · intro form' hcore
      exact hcore.isNormal (Form.finalizer?_withChildren hfin)
    · intro i stmts tail _ _
      exact Form.isNormal_of_operands_eq_nil rfl rfl
    · intro x l hx _ _
      rw [hx]
      exact Form.isNormal_of_operands_eq_nil rfl rfl
  · intro s s₁ s₂ id body clauses ty span handle finalizer finalizer' h h'
    rw [NormalState.finalized, forall_walk_iff]
    refine ⟨Form.isNormal_of_operands_eq_nil rfl rfl, ?_⟩
    simp only [form, Form.children, Stmt.expr?, filterMap_cons, filterMap_nil, Option.toList_some,
      cons_append, nil_append, forall_mem_cons, not_mem_nil, false_imp_iff, implies_true, and_true]
    refine ⟨h, h', ?_⟩
    rw [forall_walk_iff]
    exact ⟨Form.isNormal_of_operands_eq_nil rfl rfl, by simp [Form.children]⟩

end

end Effectful
