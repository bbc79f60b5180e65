import Effectful.Proofs.RowSoundness
import Mathlib.Data.List.Perm.Subperm
/-!
# Renaming frames and continuations

Frames and continuations are numbers, and a run cannot tell which numbers they are.  A `Renaming`
says which numbers the frames and continuations of one run have in another; it acts on values,
pending constructs and controls.

Only numbers that are in use matter.  What a run keeps for later refers to pinned frames and to
continuations that exist (`Sharing.KeepsValue`), so a renaming may be changed at a frame that is not
in use, as happens when a frame is used again.  Two stores are related (`Sharing.Stores`) if the
frames in use of one are frames in use of the other under the renaming, with renamed locals; the
other store may have further frames, and some of these can be set apart (`extra`).

The two runs may belong to two programs as long as the code that runs is `Shared`: it names
functions that both programs have, and its handlers answer the same operations.
-/

namespace Effectful.Assoc

open List

variable {κ α β : Type} [DecidableEq κ]

/-- Tables are renamed entry by entry. -/
theorem get?_map (g : α → β) (m : List (κ × α)) (k : κ) :
    get? (m.map fun e => (e.1, g e.2)) k = (get? m k).map g := by
  induction m with
  | nil => rfl
  | cons e m ih =>
    obtain ⟨key, v⟩ := e
    simp only [map_cons, get?_cons, ih]
    split <;> rfl

theorem set_map (g : α → β) (m : List (κ × α)) (k : κ) (v : α) :
    set (m.map fun e => (e.1, g e.2)) k (g v) = (set m k v).map fun e => (e.1, g e.2) := by
  induction m with
  | nil => rfl
  | cons e m ih =>
    simp only [map_cons, set, ih]
    split <;> rfl

theorem mem_set {m : List (κ × α)} {k : κ} {v : α} {e : κ × α} (h : e ∈ set m k v) :
    e.2 = v ∨ e ∈ m := by
  induction m with
  | nil =>
    rw [set, mem_singleton] at h
    exact .inl (by rw [h])
  | cons e' m ih =>
    simp only [set] at h
    split at h
    · obtain rfl | h := mem_cons.mp h
      · exact .inl rfl
      · exact .inr (mem_cons_of_mem _ h)
    · obtain rfl | h := mem_cons.mp h
      · exact .inr mem_cons_self
      · exact (ih h).imp_right (mem_cons_of_mem _)

end Effectful.Assoc

namespace Effectful.Interp

open List

variable {v : Value} {x y : FrameId}

/-! ### Renaming data -/

/-- The numbers that the frames and continuations of one run have in another. -/
structure Renaming where
  frame : FrameId → FrameId
  cont : ContinuationId → ContinuationId

def Callable.rename (ρ : Renaming) : Callable → Callable
  | .fn target => .fn target
  | .lambda params body env => .lambda params body (ρ.frame env)
  | .op operation => .op operation
  | .continuation target => .continuation (ρ.cont target)
  | .intrinsic which => .intrinsic which

mutual

def Value.rename (ρ : Renaming) : Value → Value
  | .tuple items => .tuple (renameAll ρ items)
  | .callable target => .callable (target.rename ρ)
  | .unit => .unit
  | .bool b => .bool b
  | .i32 n => .i32 n
  | .i64 n => .i64 n
  | .f32 x => .f32 x
  | .f64 x => .f64 x

def renameAll (ρ : Renaming) : List Value → List Value
  | [] => []
  | v :: vs => v.rename ρ :: renameAll ρ vs

end

mutual

def Value.callables : Value → List Callable
  | .tuple items => allCallables items
  | .callable target => [target]
  | _ => []

def allCallables : List Value → List Callable
  | [] => []
  | v :: vs => v.callables ++ allCallables vs

end

def OperandUse.rename (ρ : Renaming) : OperandUse → OperandUse
  | .apply callee => .apply (callee.rename ρ)
  | .perform op => .perform op
  | .tuple => .tuple

def Pending.rename (ρ : Renaming) : Pending → Pending
  | .binaryLeft op rhs frame => .binaryLeft op rhs (ρ.frame frame)
  | .binaryRight op lhs => .binaryRight op (lhs.rename ρ)
  | .unary op => .unary op
  | .callee args frame => .callee args (ρ.frame frame)
  | .operands done rest frame use =>
    .operands (done.map (·.rename ρ)) rest (ρ.frame frame) (use.rename ρ)
  | .stmt target rest tail frame => .stmt target rest tail (ρ.frame frame)
  | .assign target frame => .assign target (ρ.frame frame)
  | .branch onTrue onFalse frame => .branch onTrue onFalse (ρ.frame frame)
  | .select arms frame => .select arms (ρ.frame frame)
  | .loopCond cond body frame => .loopCond cond body (ρ.frame frame)
  | .loopBody cond body frame => .loopBody cond body (ρ.frame frame)
  | .ret => .ret
  | .guard handle clauses frame => .guard handle clauses (ρ.frame frame)
  | .finalizer e frame => .finalizer e (ρ.frame frame)
  | .finalized result => .finalized (result.rename ρ)
  | .field index => .field index
  | .call owned => .call (owned.map ρ.frame)
  | .clause handle kind owned => .clause handle kind (owned.map ρ.frame)
  | .transfer handle => .transfer handle

def Captured.rename (ρ : Renaming) (k : Captured) : Captured :=
  { k with frame := ρ.frame k.frame, rest := k.rest.map (·.rename ρ) }

def Frame.rename (ρ : Renaming) (f : Frame) : Frame :=
  { f with locals := f.locals.map fun e => (e.1, e.2.rename ρ), parent := f.parent.map ρ.frame }

def Exit.rename (ρ : Renaming) : Exit → Exit
  | .ret v => .ret (v.rename ρ)
  | .breakLoop => .breakLoop
  | .continueLoop => .continueLoop
  | .transfer handle v => .transfer handle (v.rename ρ)

def Control.rename (ρ : Renaming) : Control → Control
  | .eval e frame => .eval e (ρ.frame frame)
  | .value v => .value (v.rename ρ)
  | .exit x => .exit (x.rename ρ)
  | .request op args rest => .request op (args.map (·.rename ρ)) (rest.map (·.rename ρ))

section Data

variable {ρ ρ' : Renaming}

theorem renameAll_eq_map (vs : List Value) : renameAll ρ vs = vs.map (·.rename ρ) := by
  induction vs with
  | nil => rfl
  | cons v vs ih => rw [renameAll, ih, map_cons]

theorem allCallables_eq_flatMap (vs : List Value) :
    allCallables vs = vs.flatMap Value.callables := by
  induction vs with
  | nil => rfl
  | cons v vs ih => rw [allCallables, ih, flatMap_cons]

mutual

/-- A renaming acts on a value through the callables inside. -/
theorem Value.rename_congr : ∀ v : Value, (∀ c ∈ v.callables, c.rename ρ' = c.rename ρ) →
    v.rename ρ' = v.rename ρ
  | .tuple items, h => by
    rw [Value.rename, Value.rename, renameAll_congr items h]
  | .callable target, h => by
    rw [Value.rename, Value.rename, h target (mem_singleton_self target)]
  | .unit, _ | .bool _, _ | .i32 _, _ | .i64 _, _ | .f32 _, _ | .f64 _, _ => rfl

/-- Renamings that agree on the callables of values rename the values alike. -/
theorem renameAll_congr : ∀ vs : List Value, (∀ c ∈ allCallables vs, c.rename ρ' = c.rename ρ) →
    renameAll ρ' vs = renameAll ρ vs
  | [], _ => rfl
  | v :: vs, h => by
    rw [allCallables, forall_mem_append] at h
    rw [renameAll, renameAll, v.rename_congr h.1, renameAll_congr vs h.2]

end

mutual

/-- Data without callables is not renamed. -/
theorem Value.rename_of_isFirstOrder : ∀ v : Value, v.isFirstOrder = true → v.rename ρ = v
  | .tuple items, h => by rw [Value.rename, renameAll_of_allFirstOrder items h]
  | .callable (.intrinsic which), _ => rfl
  | .callable (.fn _), h | .callable (.lambda _ _ _), h | .callable (.op _), h
  | .callable (.continuation _), h => Bool.noConfusion h
  | .unit, _ | .bool _, _ | .i32 _, _ | .i64 _, _ | .f32 _, _ | .f64 _, _ => rfl

theorem renameAll_of_allFirstOrder : ∀ vs : List Value, Value.allFirstOrder vs = true →
    renameAll ρ vs = vs
  | [], _ => rfl
  | v :: vs, h => by
    rw [Value.allFirstOrder, Bool.and_eq_true] at h
    rw [renameAll, v.rename_of_isFirstOrder h.1, renameAll_of_allFirstOrder vs h.2]

end

mutual

/-- What a first-order value can call is built in. -/
theorem Value.callables_of_isFirstOrder : ∀ v : Value, v.isFirstOrder = true →
    ∀ t ∈ v.callables, ∃ which, t = .intrinsic which
  | .tuple items, h => allCallables_of_allFirstOrder items h
  | .callable (.intrinsic which), _ => by simp [Value.callables]
  | .callable (.fn _), h | .callable (.lambda _ _ _), h | .callable (.op _), h
  | .callable (.continuation _), h => Bool.noConfusion h
  | .unit, _ | .bool _, _ | .i32 _, _ | .i64 _, _ | .f32 _, _ | .f64 _, _ => by
      simp [Value.callables]

theorem allCallables_of_allFirstOrder : ∀ vs : List Value, Value.allFirstOrder vs = true →
    ∀ t ∈ allCallables vs, ∃ which, t = .intrinsic which
  | [], _ => by simp [allCallables]
  | v :: vs, h => by
    rw [Value.allFirstOrder, Bool.and_eq_true] at h
    rw [allCallables, forall_mem_append]
    exact ⟨v.callables_of_isFirstOrder h.1, allCallables_of_allFirstOrder vs h.2⟩

end

@[simp]
theorem Value.rename_ofLiteral (ty : Ty) (l : Literal) :
    (Value.ofLiteral ty l).rename ρ = .ofLiteral ty l :=
  Value.rename_of_isFirstOrder _ (Value.isFirstOrder_ofLiteral ty l)

@[simp]
theorem Value.typeName_rename (v : Value) : (v.rename ρ).typeName = v.typeName := by
  cases v <;> rfl

/-- Nothing that the interpreter asks of a value depends on the names in it. -/
@[simp]
theorem Value.truthy_rename (v : Value) : (v.rename ρ).truthy = v.truthy := by
  cases v <;> rfl

@[simp]
theorem Value.matchesLiteral_rename (v : Value) (l : Literal) :
    (v.rename ρ).matchesLiteral l = v.matchesLiteral l := by
  cases v <;> cases l <;> rfl

/-- Operators do not look into callables. -/
@[simp]
theorem binary_rename (op : BinOp) (a b : Value) :
    binary op (a.rename ρ) (b.rename ρ) = binary op a b := by
  cases a <;> cases b <;> rfl

@[simp]
theorem unary_rename (op : UnaryOp) (v : Value) : unary op (v.rename ρ) = unary op v := by
  cases v <;> cases op <;> rfl

@[simp]
theorem intrinsic_rename (which : Intrinsic) (vs : List Value) :
    intrinsic which (vs.map (·.rename ρ)) = intrinsic which vs := by
  have hpick (a b : Value) : ∀ r, atMost a b = .ok r → a.rename ρ = a ∧ b.rename ρ = b := by
    intro r hr
    unfold atMost at hr
    cases hb : binary .le a b with
    | error e => rw [hb] at hr; cases hr
    | ok v =>
      obtain ⟨ha, hb⟩ := isFirstOrder_operands_of_binary hb
      exact ⟨a.rename_of_isFirstOrder ha, b.rename_of_isFirstOrder hb⟩
  have hmost (a b : Value) : atMost (a.rename ρ) (b.rename ρ) = atMost a b := by simp [atMost]
  match which, vs with
  | .abs, [] | .min, [] | .max, [] => rfl
  | .abs, [v] => cases v <;> rfl
  | .min, [_] | .max, [_] | .abs, _ :: _ :: _ => simp [intrinsic]
  | .min, [a, b] | .max, [a, b] =>
    simp only [map_cons, map_nil, intrinsic, hmost]
    cases hr : atMost a b with
    | error e => rfl
    | ok r => rw [(hpick a b r hr).1, (hpick a b r hr).2]
  | .min, _ :: _ :: _ :: _ | .max, _ :: _ :: _ :: _ => simp [intrinsic]

end Data

/-! ### Chains of parents -/

namespace Frames

/-- A frame with its ancestors, all of them different. -/
inductive Lineage (fs : Frames) : FrameId → List FrameId → Prop where
  | root {x : FrameId} {f : Frame} (cell : fs.cell? x = some f) (parent : f.parent = none) :
      Lineage fs x [x]
  | child {x q : FrameId} {f : Frame} {l : List FrameId} (cell : fs.cell? x = some f)
      (parent : f.parent = some q)
    (above : Lineage fs q l) (notMem : x ∉ l) : Lineage fs x (x :: l)

variable {fs : Frames} {l : List FrameId}

/-- A lineage goes up, so no frame occurs twice in it. -/
theorem Lineage.nodup (h : fs.Lineage x l) : l.Nodup := by
  induction h with
  | root => exact nodup_singleton _
  | child _ _ _ hx ih => exact nodup_cons.mpr ⟨hx, ih⟩

theorem Lineage.lt_size (h : fs.Lineage x l) : ∀ y ∈ l, y.index < fs.cells.size := by
  induction h with
  | root hf => simpa using cell?_isSome.mp (by rw [hf]; rfl)
  | child hf _ _ _ ih => exact forall_mem_cons.mpr ⟨cell?_isSome.mp (by rw [hf]; rfl), ih⟩

/-- There are no more ancestors than frames. -/
theorem Lineage.length_le (h : fs.Lineage x l) : l.length ≤ fs.cells.size := by
  have hnodup : (l.map FrameId.index).Nodup := h.nodup.map fun a b hab => FrameId.index_inj.mp hab
  have hsub : l.map FrameId.index ⊆ List.range fs.cells.size := by
    intro i hi
    obtain ⟨y, hy, rfl⟩ := mem_map.mp hi
    exact mem_range.mpr (h.lt_size y hy)
  simpa using (subperm_of_subset hnodup hsub).length_le

/-- All ancestors of a frame are pinned. -/
theorem Lineage.eq_or_pinned (hs : fs.Sound) (h : fs.Lineage x l) :
    ∀ y ∈ l, y = x ∨ fs.Pinned y := by
  induction h with
  | root => simp
  | child hf hp _ _ ih =>
    refine forall_mem_cons.mpr ⟨.inl rfl, fun y hy => ?_⟩
    obtain rfl | hpin := ih y hy
    · exact .inr (hs.parent _ _ _ hf hp)
    · exact .inr hpin

theorem Lineage.inUse (hs : fs.Sound) (h : fs.Lineage x l) (hx : fs.InUse x) :
    ∀ y ∈ l, fs.InUse y := by
  intro y hy
  obtain rfl | hpin := h.eq_or_pinned hs y hy
  · exact hx
  · exact hpin.inUse hs

/-- Ancestors are found again where cells keep their parents. -/
theorem Lineage.of_cells {fs' : Frames} (h : fs.Lineage x l)
    (hcell : ∀ y ∈ l, ∀ f, fs.cell? y = some f → ∃ f', fs'.cell? y = some f' ∧
      f'.parent = f.parent) :
    fs'.Lineage x l := by
  induction h with
  | root hf hp =>
    obtain ⟨f', hf', hp'⟩ := hcell _ (mem_singleton_self _) _ hf
    exact .root hf' (hp'.trans hp)
  | child hf hp _ hx ih =>
    obtain ⟨f', hf', hp'⟩ := hcell _ mem_cons_self _ hf
    exact .child hf' (hp'.trans hp) (ih fun y hy => hcell y (mem_cons_of_mem _ hy)) hx

end Frames

/-! ### Shared code and kept data -/

/-- Two programs under interpretation, and the functions that both are known to have. -/
structure Sharing where
  left : Setting
  right : Setting
  known : DefId → Prop

/-- Two renamings agree on the frames in use and on the first `n` continuations. -/
structure Renaming.AgreesOn (fs : Frames) (n : Nat) (ρ ρ' : Renaming) : Prop where
  frame : ∀ x, fs.InUse x → ρ'.frame x = ρ.frame x
  cont : ∀ k : ContinuationId, k.index < n → ρ'.cont k = ρ.cont k

namespace Sharing

section Kept

variable (c : Sharing)

/-- What a construct asks of the two programs, as the form of the node `id`. -/
def SharesForm (id : ExprId) : Form → Prop
  | .fn target => c.known target
  | .handle _ clauses _ => ∀ op, c.right.clauseFor? id clauses op = c.left.clauseFor? id clauses op
  | _ => True

/-- Code that means the same in both programs. -/
def Shares (e : Expr) : Prop := ∀ x ∈ e.walk, c.SharesForm x.id x.form

/-- The known functions are the same in both programs, and their code is shared. -/
structure Agrees : Prop where
  function?_eq : ∀ d, c.known d → c.right.program.function? d = c.left.program.function? d
  body : ∀ d f, c.known d → c.left.program.function? d = some f → c.Shares f.body

variable (fs : Frames) (n : Nat)

/-- A callable that may be kept: its frame is pinned, or its continuation is one of the first
`n`. -/
def KeepsCallable : Callable → Prop
  | .fn target => c.known target
  | .lambda _ body env => c.Shares body ∧ fs.Pinned env
  | .continuation k => k.index < n
  | .op _ | .intrinsic _ => True

def KeepsValue (v : Value) : Prop := ∀ t ∈ v.callables, c.KeepsCallable fs n t

structure KeepsPending (q : Pending) : Prop where
  code : ∀ e ∈ q.code, c.Shares e
  held : ∀ v ∈ q.held, c.KeepsValue fs n v
  use : ∀ callee, q.use? = some (.apply callee) → c.KeepsValue fs n callee
  guard : ∀ handle clauses frame, q = .guard handle clauses frame →
    ∀ op, c.right.clauseFor? handle clauses op = c.left.clauseFor? handle clauses op

/-- A control that may stand above a stack. -/
def KeepsControl (stack : List Pending) : Control → Prop
  | .eval e frame => c.Shares e ∧ Usable fs stack frame
  | .value v => c.KeepsValue fs n v
  | .exit x => ∀ v ∈ x.value?, c.KeepsValue fs n v
  | .request _ args rest =>
    (∀ v ∈ args, c.KeepsValue fs n v) ∧
      ∀ q ∈ rest, c.KeepsPending fs n q ∧ q.owned? = none ∧
        ∀ frame ∈ q.frame?, Usable fs stack frame

end Kept

variable {c : Sharing} {fs fs' : Frames} {n n' : Nat} {ρ ρ' : Renaming}

theorem Shares.child {e x : Expr} (h : c.Shares e) (hx : x ∈ e.form.children) : c.Shares x :=
  fun y hy => h y (Expr.walk_subset_of_mem_children hx hy)

theorem Shares.self {e : Expr} (h : c.Shares e) : c.SharesForm e.id e.form := h e e.self_mem_walk

/-- What a store keeps it goes on keeping while frames are pinned and continuations are added. -/
theorem KeepsCallable.mono {t : Callable} (h : c.KeepsCallable fs n t)
    (hpin : ∀ x, fs.Pinned x → fs'.Pinned x) (hn : n ≤ n') : c.KeepsCallable fs' n' t := by
  cases t with
  | lambda params body env => exact ⟨h.1, hpin env h.2⟩
  | continuation k => exact Nat.lt_of_lt_of_le h hn
  | _ => exact h

theorem KeepsValue.mono (h : c.KeepsValue fs n v) (hpin : ∀ x, fs.Pinned x → fs'.Pinned x)
    (hn : n ≤ n') :
    c.KeepsValue fs' n' v :=
  fun t ht => (h t ht).mono hpin hn

theorem KeepsPending.mono {q : Pending} (h : c.KeepsPending fs n q)
    (hpin : ∀ x, fs.Pinned x → fs'.Pinned x) (hn : n ≤ n') : c.KeepsPending fs' n' q where
  code := h.code
  held v hv := (h.held v hv).mono hpin hn
  use callee hu := (h.use callee hu).mono hpin hn
  guard := h.guard

theorem KeepsValue.of_isFirstOrder (h : v.isFirstOrder = true) : c.KeepsValue fs n v := by
  intro t ht
  obtain ⟨which, rfl⟩ := v.callables_of_isFirstOrder h t ht
  trivial

/-- Kept values are renamed alike by renamings that agree on the store. -/
theorem KeepsValue.rename_eq (hs : fs.Sound) (h : c.KeepsValue fs n v) (ha : ρ.AgreesOn fs n ρ') :
    v.rename ρ' = v.rename ρ := by
  refine v.rename_congr fun t ht => ?_
  have hkept := h t ht
  cases t with
  | lambda params body env => rw [Callable.rename, Callable.rename, ha.frame env (hkept.2.inUse hs)]
  | continuation k => rw [Callable.rename, Callable.rename, ha.cont k hkept]
  | _ => rfl

/-! ### Related frames -/

/-- The frames in use on the left are frames in use on the right under another number; the frames of
`extra` are further ones on the right. -/
structure Renames (c : Sharing) (n : Nat) (ρ : Renaming) (extra : FrameId → Prop)
    (fs fs' : Frames) : Prop where
  sound : fs.Sound
  sound_right : fs'.Sound
  lineage : ∀ x, fs.InUse x → ∃ l, fs.Lineage x l
  locals : ∀ x f, fs.InUse x → fs.cell? x = some f → ∀ e ∈ f.locals, c.KeepsValue fs n e.2
  inUse : ∀ x, fs.InUse x → fs'.InUse (ρ.frame x)
  cell : ∀ x, fs.InUse x → fs'.cell? (ρ.frame x) = (fs.cell? x).map (·.rename ρ)
  inj : ∀ x y, fs.InUse x → fs.InUse y → ρ.frame x = ρ.frame y → x = y
  extra : ∀ y, extra y → fs'.InUse y ∧ ∀ x, fs.InUse x → ρ.frame x ≠ y

namespace Renames

variable {extra : FrameId → Prop} (h : c.Renames n ρ extra fs fs')
include h

theorem pinned_iff (hx : fs.InUse x) : fs'.Pinned (ρ.frame x) ↔ fs.Pinned x := by
  obtain ⟨f, hf⟩ := hx.exists_cell
  simp [Frames.Pinned, h.cell x hx, hf, Frame.rename]

/-- Frames in use correspond, binding by binding. -/
theorem cells {f : Frame} (hx : fs.InUse x) (hf : fs.cell? x = some f) :
    fs.cells[x.index]? = some f ∧ fs'.cells[(ρ.frame x).index]? = some (f.rename ρ) := by
  have hcell := h.cell x hx
  rw [hf] at hcell
  exact ⟨hf, hcell⟩

/-- The frame that binds a local is found under its other number. -/
theorem owner? (hx : fs.InUse x) (t : LocalId) :
    fs'.owner? (ρ.frame x) t =
      (fs.owner? x t).map fun found => (ρ.frame found.1, found.2.rename ρ) := by
  obtain ⟨l, hl⟩ := h.lineage x hx
  have hlength : l.length ≤ fs'.cells.size := by
    have hnodup : (l.map fun y => (ρ.frame y).index).Nodup := by
      refine hl.nodup.map_on fun a ha b hb hab => ?_
      exact h.inj a b (hl.inUse h.sound hx a ha) (hl.inUse h.sound hx b hb)
        (Frames.FrameId.index_inj.mp hab)
    have hsub : (l.map fun y => (ρ.frame y).index) ⊆ List.range fs'.cells.size := by
      intro i hi
      obtain ⟨y, hy, rfl⟩ := mem_map.mp hi
      exact mem_range.mpr (h.inUse y (hl.inUse h.sound hx y hy)).1
    simpa using (subperm_of_subset hnodup hsub).length_le
  suffices ∀ bound bound', l.length ≤ bound → l.length ≤ bound' →
      Frames.ownerFrom fs'.cells t bound' (some (ρ.frame x)) =
        (Frames.ownerFrom fs.cells t bound (some x)).map
        fun found => (ρ.frame found.1, found.2.rename ρ) from
    this _ _ hl.length_le hlength
  clear hlength
  -- induction along the ancestors; both bounds are large enough
  induction hl with
  | @root x f hf hp =>
    intro bound bound' hb hb'
    obtain ⟨bound, rfl⟩ := Nat.exists_eq_add_of_lt hb
    obtain ⟨bound', rfl⟩ := Nat.exists_eq_add_of_lt hb'
    obtain ⟨hcell, hcell'⟩ := h.cells hx hf
    simp only [length_nil, Nat.zero_add, Frames.ownerFrom, hcell, hcell', Frame.rename,
      Assoc.get?_map, hp]
    cases Assoc.get? f.locals t with
    | some v => rfl
    | none => cases bound <;> cases bound' <;> rfl
  | @child x q f l hf hp _ _ ih =>
    intro bound bound' hb hb'
    obtain ⟨bound, rfl⟩ := Nat.exists_eq_add_of_lt hb
    obtain ⟨bound', rfl⟩ := Nat.exists_eq_add_of_lt hb'
    obtain ⟨hcell, hcell'⟩ := h.cells hx hf
    simp only [Frames.ownerFrom, hcell, hcell', Frame.rename, Assoc.get?_map, hp]
    cases Assoc.get? f.locals t with
    | some v => rfl
    | none =>
      exact ih ((h.sound.parent x f q hf hp).inUse h.sound) _ _ (Nat.le_add_right _ _)
        (Nat.le_add_right _ _)

/-- A local is read alike on both sides. -/
theorem read? (hx : fs.InUse x) (t : LocalId) :
    fs'.read? (ρ.frame x) t = (fs.read? x t).map (·.rename ρ) := by
  rw [Frames.read?, Frames.read?, h.owner? hx, Option.map_map, Option.map_map]
  rfl

/-- What a frame reads is in use and kept. -/
theorem owner?_kept {t : LocalId} (hx : fs.InUse x) (hy : fs.owner? x t = some (y, v)) :
    fs.InUse y ∧ c.KeepsValue fs n v := by
  obtain ⟨hin, -, f, hf, hv⟩ := h.sound.owner? hx hy (fun _ => True) trivial
    fun _ _ _ _ _ _ _ => trivial
  exact ⟨hin, h.locals y f hin hf _ (Assoc.mem_of_get? hv)⟩

theorem read?_kept {t : LocalId} (hx : fs.InUse x) (hv : fs.read? x t = some v) :
    c.KeepsValue fs n v := by
  obtain ⟨⟨y, w⟩, hy, rfl⟩ := Option.map_eq_some_iff.mp hv
  exact (h.owner?_kept hx hy).2

/-- A frame is changed in the same way on both sides, and binds only what is kept. -/
theorem of_updated {g g' : Frame → Frame} {gs gs' : Frames} (hx : fs.InUse x)
    (hu : fs.Updated x g gs) (hu' : fs'.Updated (ρ.frame x) g' gs')
    (hg : ∀ f, (g f).rename ρ = g' (f.rename ρ))
    (hkept : ∀ f, ∀ e ∈ (g f).locals, e ∈ f.locals ∨ c.KeepsValue fs n e.2) :
    c.Renames n ρ extra gs gs' where
  sound := hu.sound h.sound hx
  sound_right := hu'.sound h.sound_right (h.inUse x hx)
  lineage y hy := by
    obtain ⟨l, hl⟩ := h.lineage y (hu.inUse_iff.mp hy)
    refine ⟨l, hl.of_cells fun z _ f hf => ?_⟩
    obtain ⟨f', hf', hparent, -⟩ := hu.exists_after hf
    exact ⟨f', hf', hparent⟩
  locals y f hy hf e he := by
    rw [hu.inUse_iff] at hy
    refine KeepsValue.mono ?_ (fun z => hu.pinned_of_pinned) (Nat.le_refl n)
    obtain ⟨f₀, hf₀, -, rfl | ⟨-, rfl⟩⟩ := hu.exists_before hf
    · exact h.locals y f hy hf₀ e he
    · exact (hkept f₀ e he).elim (h.locals y f₀ hy hf₀ e) id
  inUse y hy := hu'.inUse_iff.mpr (h.inUse y (hu.inUse_iff.mp hy))
  cell y hy := by
    rw [hu.inUse_iff] at hy
    rw [hu.cell, hu'.cell, h.cell y hy]
    by_cases hyx : y = x
    · rw [hyx, if_pos rfl, if_pos rfl, Option.map_map, Option.map_map]
      exact congrArg (Option.map · _) (funext fun f => (hg f).symm)
    · rw [if_neg hyx, if_neg fun heq => hyx (h.inj y x hy hx heq)]
  inj y z hy hz := h.inj y z (hu.inUse_iff.mp hy) (hu.inUse_iff.mp hz)
  extra y hy := ⟨hu'.inUse_iff.mpr (h.extra y hy).1,
    fun z hz => (h.extra y hy).2 z (hu.inUse_iff.mp hz)⟩

/-- Each operation on frames keeps the two stores alike. -/
theorem define (hx : fs.InUse x) (t : LocalId) (hv : c.KeepsValue fs n v) :
    c.Renames n ρ extra (fs.define x t v) (fs'.define (ρ.frame x) t (v.rename ρ)) := by
  refine h.of_updated hx (Frames.updated_define x t v) (Frames.updated_define _ t _) (fun f => ?_)
    fun f e he => ?_
  · simp [Frame.rename, Assoc.set_map]
  · obtain rfl | he := Assoc.mem_set he
    · exact .inr hv
    · exact .inl he

theorem assign (hx : fs.InUse x) (t : LocalId) (hv : c.KeepsValue fs n v) :
    c.Renames n ρ extra (fs.assign x t v) (fs'.assign (ρ.frame x) t (v.rename ρ)) := by
  rw [Frames.assign, Frames.assign, h.owner? hx]
  cases ho : fs.owner? x t with
  | none => exact h.define hx t hv
  | some found =>
    exact h.define (h.owner?_kept hx ho).1 t hv

theorem pin (hx : fs.InUse x) : c.Renames n ρ extra (fs.pin x) (fs'.pin (ρ.frame x)) :=
  h.of_updated hx (Frames.updated_pin h.sound x) (Frames.updated_pin h.sound_right _) (fun _ => rfl)
    fun _ _ => .inl

theorem release (hx : fs.InUse x) : c.Renames n ρ extra (fs.release x)
    (fs'.release (ρ.frame x)) := by
  by_cases hpin : fs.Pinned x
  · rwa [Frames.release_of_pinned hpin, Frames.release_of_pinned ((h.pinned_iff hx).mpr hpin)]
  have hpin' : ¬ fs'.Pinned (ρ.frame x) := fun hp => hpin ((h.pinned_iff hx).mp hp)
  have hrel := Frames.released hx hpin
  have hrel' := Frames.released (h.inUse x hx) hpin'
  have hother {y : FrameId} (hy : (fs.release x).InUse y) : y ≠ x ∧ fs.InUse y :=
    (hrel.inUse y).mp hy
  have hne {y : FrameId} (hy : (fs.release x).InUse y) : ρ.frame y ≠ ρ.frame x :=
    fun heq => (hother hy).1 (h.inj y x (hother hy).2 hx heq)
  refine ⟨h.sound.of_released hx hpin hrel, h.sound_right.of_released (h.inUse x hx) hpin' hrel',
    fun y hy => ?_, fun y f hy hf e he => ?_,
    fun y hy => (hrel'.inUse _).mpr ⟨hne hy, h.inUse y (hother hy).2⟩, fun y hy => ?_,
    fun y z hy hz => h.inj y z (hother hy).2 (hother hz).2, fun y hy => ?_⟩
  · obtain ⟨l, hl⟩ := h.lineage y (hother hy).2
    -- an ancestor is the frame itself or pinned, so it is not the one given back
    have hmem : ∀ z ∈ l, z ≠ x := by
      rintro z hz rfl
      obtain heq | hp := hl.eq_or_pinned h.sound z hz
      · exact (hother hy).1 heq.symm
      · exact hpin hp
    exact ⟨l, hl.of_cells fun z hz f hf => ⟨f, by rw [hrel.other z (hmem z hz), hf], rfl⟩⟩
  · rw [hrel.other y (hother hy).1] at hf
    exact (h.locals y f (hother hy).2 hf e he).mono (fun z => (hrel.pinned_iff hpin).mpr)
      (Nat.le_refl n)
  · rw [hrel'.other _ (hne hy), hrel.other y (hother hy).1]
    exact h.cell y (hother hy).2
  · obtain ⟨huse, hout⟩ := h.extra y hy
    exact ⟨(hrel'.inUse y).mpr ⟨(hout x hx).symm, huse⟩, fun z hz => hout z (hother hz).2⟩

/-- The renaming may be changed where nothing is in use. -/
theorem of_agrees (ha : ρ.AgreesOn fs n ρ') (hn : n ≤ n') : c.Renames n' ρ' extra fs fs' where
  sound := h.sound
  sound_right := h.sound_right
  lineage := h.lineage
  locals x f hx hf e he := (h.locals x f hx hf e he).mono (fun _ hp => hp) hn
  inUse x hx := by
    rw [ha.frame x hx]
    exact h.inUse x hx
  cell x hx := by
    obtain ⟨f, hf⟩ := hx.exists_cell
    rw [ha.frame x hx, h.cell x hx, hf, Option.map_some, Option.map_some, Option.some.injEq,
      Frame.rename, Frame.rename]
    congr 1
    · exact map_congr_left fun e he => by rw [(h.locals x f hx hf e he).rename_eq h.sound ha]
    · cases hp : f.parent with
      | none => rfl
      | some q => rw [Option.map_some, Option.map_some,
          ha.frame q ((h.sound.parent x f q hf hp).inUse h.sound)]
  inj x y hx hy := by
    rw [ha.frame x hx, ha.frame y hy]
    exact h.inj x y hx hy
  extra y hy := ⟨(h.extra y hy).1, fun x hx => by rw [ha.frame x hx]; exact (h.extra y hy).2 x hx⟩

/-- A new frame on both sides; the renaming takes one to the other. -/
theorem of_pushed {parent : Option FrameId} {x' : FrameId} {gs gs' : Frames}
    (hpush : fs.Pushed parent x gs) (hpush' : fs'.Pushed (parent.map ρ.frame) x' gs')
    (hparent : ∀ q ∈ parent, fs.Pinned q) (hx : ρ.frame x = x') :
    c.Renames n ρ extra gs gs' := by
  -- neither side had the new frame in use, so the old ones stay apart from it
  have hne {y : FrameId} (hy : fs.InUse y) : y ≠ x := fun heq => hpush.fresh (heq ▸ hy)
  have hne' {y : FrameId} (hy : fs.InUse y) : ρ.frame y ≠ x' :=
    fun heq => hpush'.fresh (heq ▸ h.inUse y hy)
  refine ⟨h.sound.of_pushed hpush hparent, h.sound_right.of_pushed hpush' ?_, fun y hy => ?_,
    fun y f hy hf e he => ?_, fun y hy => (hpush'.inUse _).mpr ?_, fun y hy => ?_,
    fun y z hy hz heq => ?_,
    fun y hy => ⟨(hpush'.inUse y).mpr (.inr (h.extra y hy).1), fun z hz => ?_⟩⟩
  · rintro q hq
    obtain ⟨r, hr, rfl⟩ := Option.map_eq_some_iff.mp hq
    exact (h.pinned_iff ((hparent r hr).inUse h.sound)).mpr (hparent r hr)
  · -- lineages of old frames do not meet the new one
    have hold {y : FrameId} (hy : fs.InUse y) : ∃ l, gs.Lineage y l ∧ ∀ z ∈ l, fs.InUse z := by
      obtain ⟨l, hl⟩ := h.lineage y hy
      have huse := hl.inUse h.sound hy
      exact ⟨l, hl.of_cells fun z hz f hf => ⟨f, by rw [hpush.other z (hne (huse z hz)), hf], rfl⟩,
        huse⟩
    obtain rfl | hy := (hpush.inUse y).mp hy
    · cases parent with
      | none => exact ⟨_, .root hpush.cell rfl⟩
      | some q =>
        obtain ⟨l, hl, huse⟩ := hold ((hparent q rfl).inUse h.sound)
        exact ⟨_, .child hpush.cell rfl hl fun hmem => hne (huse y hmem) rfl⟩
    · obtain ⟨l, hl, -⟩ := hold hy
      exact ⟨l, hl⟩
  · obtain rfl | hy := (hpush.inUse y).mp hy
    · rw [hpush.cell, Option.some.injEq] at hf
      subst hf
      simp at he
    · rw [hpush.other y (hne hy)] at hf
      exact (h.locals y f hy hf e he).mono (fun z => (hpush.pinned_iff h.sound).mpr) (Nat.le_refl n)
  · obtain rfl | hy := (hpush.inUse y).mp hy
    · exact .inl hx
    · exact .inr (h.inUse y hy)
  · obtain rfl | hy := (hpush.inUse y).mp hy
    · rw [hx, hpush'.cell, hpush.cell]
      rfl
    · rw [hpush'.other _ (hne' hy), hpush.other y (hne hy)]
      exact h.cell y hy
  · obtain rfl | hy := (hpush.inUse y).mp hy
    · obtain rfl | hz := (hpush.inUse z).mp hz
      · rfl
      · exact absurd (heq.symm.trans hx) (hne' hz)
    · obtain rfl | hz := (hpush.inUse z).mp hz
      · exact absurd (heq.trans hx) (hne' hy)
      · exact h.inj y z hy hz heq
  · obtain rfl | hz := (hpush.inUse z).mp hz
    · rw [hx]
      rintro rfl
      exact hpush'.fresh (h.extra _ hy).1
    · exact (h.extra y hy).2 z hz

theorem defineAll (hx : fs.InUse x) (ts : List LocalId) (vs : List Value)
    (hvs : ∀ v ∈ vs, c.KeepsValue fs n v) :
    c.Renames n ρ extra (fs.defineAll x ts vs)
      (fs'.defineAll (ρ.frame x) ts (vs.map (·.rename ρ))) ∧
      (∀ y, (fs.defineAll x ts vs).InUse y ↔ fs.InUse y) ∧ ∀ y, (fs.defineAll x ts vs).Pinned y ↔
      fs.Pinned y := by
  induction ts generalizing vs fs fs' with
  | nil => exact ⟨by simpa [Frames.defineAll] using h, fun _ => Iff.rfl, fun _ => Iff.rfl⟩
  | cons t ts ih =>
    cases vs with
    | nil => exact ⟨by simpa [Frames.defineAll] using h, fun _ => Iff.rfl, fun _ => Iff.rfl⟩
    | cons v vs =>
      obtain ⟨hv, hvs⟩ := forall_mem_cons.mp hvs
      obtain ⟨hren, huse, hpin⟩ := ih (h.define hx t hv) ((Frames.inUse_define x t v).mpr hx) vs
        fun w hw => (hvs w hw).mono (fun _ => (Frames.pinned_define x t v).mpr) (Nat.le_refl n)
      exact ⟨hren, fun y => (huse y).trans (Frames.inUse_define x t v),
        fun y => (hpin y).trans (Frames.pinned_define x t v)⟩

/-! Frames that only the right side has. -/

/-- A frame that only the right side has may change freely. -/
theorem of_updated_right {g : Frame → Frame} {gs : Frames} (hy : extra y)
    (hu : fs'.Updated y g gs) :
    c.Renames n ρ extra fs gs where
  sound := h.sound
  sound_right := hu.sound h.sound_right (h.extra y hy).1
  lineage := h.lineage
  locals := h.locals
  inUse x hx := hu.inUse_iff.mpr (h.inUse x hx)
  cell x hx := by
    rw [hu.cell, if_neg ((h.extra y hy).2 x hx)]
    exact h.cell x hx
  inj := h.inj
  extra z hz := ⟨hu.inUse_iff.mpr (h.extra z hz).1, (h.extra z hz).2⟩

theorem pin_right (hy : extra y) : c.Renames n ρ extra fs (fs'.pin y) :=
  h.of_updated_right hy (Frames.updated_pin h.sound_right y)

theorem defineAll_right (hy : extra y) (ts : List LocalId) (vs : List Value) :
    c.Renames n ρ extra fs (fs'.defineAll y ts vs) := by
  rw [Frames.defineAll]
  induction ts.zip vs generalizing fs' with
  | nil => exact h
  | cons b bs ih => exact ih (h.of_updated_right hy (Frames.updated_define y b.1 b.2))

theorem of_pushed_right {parent : Option FrameId} {gs' : Frames} (hpush : fs'.Pushed parent y gs')
    (hparent : ∀ q ∈ parent, fs'.Pinned q) : c.Renames n ρ (fun z => z = y ∨ extra z) fs gs' where
  sound := h.sound
  sound_right := h.sound_right.of_pushed hpush hparent
  lineage := h.lineage
  locals := h.locals
  inUse x hx := (hpush.inUse _).mpr (.inr (h.inUse x hx))
  cell x hx := by
    rw [hpush.other _ fun heq => hpush.fresh (heq ▸ h.inUse x hx)]
    exact h.cell x hx
  inj := h.inj
  extra z hz := by
    obtain rfl | hz := hz
    · exact ⟨(hpush.inUse z).mpr (.inl rfl), fun x hx heq => hpush.fresh (heq ▸ h.inUse x hx)⟩
    · exact ⟨(hpush.inUse z).mpr (.inr (h.extra z hz).1), (h.extra z hz).2⟩

end Renames

end Sharing

end Effectful.Interp
