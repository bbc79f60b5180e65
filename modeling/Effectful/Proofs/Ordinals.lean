import Effectful.Execution
import Effectful.Proofs.HandlerCalls
import Effectful.Proofs.HostImports
import Effectful.Proofs.SavedLocals
import Effectful.Proofs.TableRoundTrip
import Mathlib.Data.List.Find
/-!
# Ordinals

The ordinals number the declared operations that occur in some body, in the order of their
declaration (`Program.mem_orderedOps`, `Program.pairwise_orderedOps`).  Three parties deal with
requests, and each of them knows an operation in a way of its own: compiled code by the operation
itself, the host by a position of the effect table, and the interpreter by the hash of the effect's
name and the position in the effect.  All of them come to the same ordinal
(`OpOrdinal.ResolvedAlike`), as long as the hashes of the names differ.
-/

namespace Effectful

open List

variable {op : OpRef} {i k : Nat} {o : OpOrdinal}

/-! ### The operations that are numbered -/

theorem mem_foldl_unlessFound {α : Type} [DecidableEq α] {x : α} (xs found : List α) :
    x ∈ xs.foldl (fun found x => if found.contains x then found else found ++ [x]) found ↔
      x ∈ found ∨ x ∈ xs := by
  induction xs generalizing found with
  | nil => simp
  | cons y xs ih =>
    rw [foldl_cons, ih]
    by_cases hy : y ∈ found
    · rw [if_pos (contains_iff_mem.mpr hy), mem_cons]
      exact ⟨Or.imp_right .inr, fun h => h.elim .inl fun h => h.elim (fun h => .inl (h ▸ hy)) .inr⟩
    · rw [if_neg (by rwa [contains_iff_mem]), mem_append, mem_singleton, mem_cons, or_assoc]

theorem nodup_foldl_unlessFound {α : Type} [DecidableEq α] (xs : List α) {found : List α}
    (h : found.Nodup) :
    (xs.foldl (fun found x => if found.contains x then found else found ++ [x]) found).Nodup := by
  induction xs generalizing found with
  | nil => exact h
  | cons y xs ih =>
    rw [foldl_cons]
    by_cases hy : y ∈ found
    · rw [if_pos (contains_iff_mem.mpr hy)]
      exact ih h
    · rw [if_neg (by rwa [contains_iff_mem])]
      exact ih (nodup_append.mpr ⟨h, nodup_singleton y, fun x hx z hz hxz =>
        hy (mem_singleton.mp hz ▸ hxz ▸ hx)⟩)

namespace Program

variable {p : Program} {a : EffectAnalysis}

/-- The operation is performed or named somewhere in a body. -/
def Mentions (p : Program) (op : OpRef) : Prop :=
  ∃ f ∈ p.functions, ∃ x ∈ f.body.walk, x.form.op? = some op

/-- The effect of the first operation is declared before that of the second one, or they are of one
effect and the first operation stands before the second one there. -/
def Precedes (p : Program) (a b : OpRef) : Prop :=
  ∃ i j, p.effectPosition? a.effect = some i ∧ p.effectPosition? b.effect = some j ∧
    (i < j ∨ i = j ∧ a.index < b.index)

theorem mem_mentionedOps : op ∈ p.mentionedOps ↔ p.Mentions op := by
  rw [mentionedOps, mem_foldl_unlessFound, mem_flatMap]
  simp only [not_mem_nil, false_or, mem_filterMap, Mentions]

theorem nodup_mentionedOps : p.mentionedOps.Nodup := nodup_foldl_unlessFound _ .nil

/-- Numbered are the declared operations that the program mentions. -/
theorem mem_orderedOps : op ∈ p.orderedOps ↔ (p.op? op).isSome ∧ p.Mentions op := by
  rw [orderedOps, mem_mergeSort, mem_filter, mem_mentionedOps, and_comm]

theorem nodup_orderedOps : p.orderedOps.Nodup :=
  (mergeSort_perm _ _).nodup_iff.mpr (nodup_mentionedOps.filter _)

theorem of_effect? {d : DefId} {e : EffectDecl} (h : p.effect? d = some e) :
    e ∈ p.effects ∧ e.id = d := by
  exact ⟨mem_of_find?_eq_some h, by simpa using find?_some h⟩

theorem exists_effect?_of_op? (h : (p.op? op).isSome) : ∃ e, p.effect? op.effect = some e := by
  cases he : p.effect? op.effect with
  | none => simp [op?, he] at h
  | some e => exact ⟨e, rfl⟩

theorem exists_effectPosition? (h : (p.op? op).isSome) :
    ∃ i, p.effectPosition? op.effect = some i ∧ ∃ e, p.effects[i]? = some e ∧ e.id = op.effect := by
  obtain ⟨e, he⟩ := exists_effect?_of_op? h
  have hsome : (p.effectPosition? op.effect).isSome := by
    rw [effectPosition?, findIdx?_isSome, any_eq_true]
    exact ⟨e, (of_effect? he).1, beq_iff_eq.mpr (of_effect? he).2⟩
  obtain ⟨i, hi⟩ := Option.isSome_iff_exists.mp hsome
  obtain ⟨hlt, heq, -⟩ := findIdx?_eq_some_iff_getElem.mp hi
  exact ⟨i, hi, p.effects[i], getElem?_eq_getElem hlt, eq_of_beq heq⟩

/-- Operations that are numbered next to each other and are not told apart by their places are the
same. -/
theorem precedes_of_opBefore {x y : OpRef} (hx : (p.op? x).isSome) (hy : (p.op? y).isSome)
    (h : p.opBefore x y = true) (hne : x ≠ y) : p.Precedes x y := by
  obtain ⟨i, hi, e, he, hex⟩ := exists_effectPosition? hx
  obtain ⟨j, hj, e', he', hey⟩ := exists_effectPosition? hy
  refine ⟨i, j, hi, hj, ?_⟩
  simp only [opBefore, decide_eq_true_eq, hi, hj, Option.getD_some] at h
  obtain h | ⟨rfl, hle⟩ := h
  · exact .inl h
  · have heffect : x.effect = y.effect := by
      rw [← hex, ← hey, Option.some.inj (he.symm.trans he')]
    refine .inr ⟨rfl, Nat.lt_of_le_of_ne hle fun hindex => hne ?_⟩
    cases y
    cases heffect
    cases hindex
    rfl

/-- **The operations stand in the order of their declarations.** -/
theorem pairwise_orderedOps : p.orderedOps.Pairwise p.Precedes := by
  have hsorted : p.orderedOps.Pairwise fun x y => p.opBefore x y = true := by
    refine pairwise_mergeSort (fun x y z hxy hyz => ?_) (fun x y => ?_) _
    · simp only [opBefore, decide_eq_true_eq] at hxy hyz ⊢
      omega
    · simp only [opBefore, Bool.or_eq_true, decide_eq_true_eq]
      omega
  refine (hsorted.and nodup_orderedOps).imp_of_mem fun {x y} hx hy h => ?_
  exact precedes_of_opBefore (mem_orderedOps.mp hx).1 (mem_orderedOps.mp hy).1 h.1 h.2

/-! ### The numbers -/

theorem exists_ordinal? (h : (p.op? op).isSome) (i : Nat) : ∃ o, p.ordinal? i op = some o := by
  obtain ⟨e, he⟩ := exists_effect?_of_op? h
  obtain ⟨d, hd⟩ := Option.isSome_iff_exists.mp h
  exact ⟨_, by rw [ordinal?, he, hd]; rfl⟩

/-- What an ordinal says of its operation. -/
theorem ordinal?_eq_some (h : p.ordinal? i op = some o) :
    o.ordinal = i ∧ o.op = op ∧ p.op? op = some o.decl ∧
      ∃ e, p.effect? op.effect = some e ∧ o.effectName = e.name ∧
        o.effectId = effectIdHash e.name := by
  obtain ⟨e, he, h⟩ := Option.bind_eq_some_iff.mp h
  obtain ⟨d, hd, h⟩ := Option.bind_eq_some_iff.mp h
  obtain rfl := Option.some.inj h
  exact ⟨rfl, rfl, hd, e, he, rfl, rfl⟩

theorem getElem?_filterMap_zipIdx {α β : Type} {f : α × Nat → Option β} {xs : List α}
    (h : ∀ x ∈ xs, ∀ i, (f (x, i)).isSome) (i : Nat) :
    ((xs.zipIdx k).filterMap f)[i]? = (xs[i]?).bind fun x => f (x, k + i) := by
  induction xs generalizing k i with
  | nil => rfl
  | cons x xs ih =>
    obtain ⟨y, hy⟩ := Option.isSome_iff_exists.mp (h x (mem_cons_self ..) k)
    rw [zipIdx_cons, filterMap_cons_some hy]
    cases i with
    | zero => simp [hy]
    | succ i =>
      rw [getElem?_cons_succ, getElem?_cons_succ, ih fun z hz => h z (mem_cons_of_mem _ hz)]
      simp only [Nat.add_assoc, Nat.add_comm 1 i]

theorem getElem?_ordinals (i : Nat) :
    (p.metadata a).ordinals[i]? = (p.orderedOps[i]?).bind fun op => p.ordinal? i op := by
  have hsome : ∀ op ∈ p.orderedOps, ∀ i, (p.ordinal? i op).isSome := fun op hop i =>
    Option.isSome_iff_exists.mpr (exists_ordinal? (mem_orderedOps.mp hop).1 i)
  have h := getElem?_filterMap_zipIdx (f := fun x => p.ordinal? x.2 x.1) (k := 0) hsome i
  rw [Nat.zero_add] at h
  exact h

theorem getElem?_ordinals_eq_some_iff :
    (p.metadata a).ordinals[i]? = some o ↔ p.orderedOps[i]? = some o.op ∧
      p.ordinal? i o.op = some o := by
  rw [getElem?_ordinals, Option.bind_eq_some_iff]
  constructor
  · rintro ⟨op, hop, ho⟩
    obtain ⟨-, rfl, -⟩ := ordinal?_eq_some ho
    exact ⟨hop, ho⟩
  · rintro ⟨hop, ho⟩
    exact ⟨o.op, hop, ho⟩

/-- The ordinals stand in the order of the operations. -/
theorem map_op_ordinals : (p.metadata a).ordinals.map (·.op) = p.orderedOps := by
  refine ext_getElem? fun i => ?_
  rw [getElem?_map, getElem?_ordinals]
  cases hop : p.orderedOps[i]? with
  | none => rfl
  | some op =>
    obtain ⟨o, ho⟩ := exists_ordinal? (mem_orderedOps.mp (mem_of_getElem? hop)).1 i
    rw [Option.bind_some, ho, Option.map_some, (ordinal?_eq_some ho).2.1]

/-- An operation has one ordinal. -/
theorem op_injOn_ordinals {o' : OpOrdinal} (ho : o ∈ (p.metadata a).ordinals)
    (ho' : o' ∈ (p.metadata a).ordinals) (h : o.op = o'.op) : o = o' :=
  inj_on_of_nodup_map (map_op_ordinals (p := p) (a := a) ▸ nodup_orderedOps) ho ho' h

theorem ordinalOf?_eq_some_iff : (p.metadata a).ordinalOf? op = some o ↔
    o ∈ (p.metadata a).ordinals ∧ o.op = op := by
  have hfound {o : OpOrdinal} (h : (p.metadata a).ordinalOf? op = some o) :
      o ∈ (p.metadata a).ordinals ∧ o.op = op := by
    exact ⟨mem_of_find?_eq_some h, by simpa using find?_some h⟩
  refine ⟨hfound, ?_⟩
  rintro ⟨ho, hop⟩
  obtain ⟨o', ho'⟩ : ∃ o', (p.metadata a).ordinalOf? op = some o' := by
    rw [EffectMetadata.ordinalOf?, ← Option.isSome_iff_exists, find?_isSome]
    exact ⟨o, ho, beq_iff_eq.mpr hop⟩
  rw [ho', op_injOn_ordinals (hfound ho').1 ho ((hfound ho').2.trans hop.symm)]

theorem isSome_ordinalOf?_iff : ((p.metadata a).ordinalOf? op).isSome ↔
    op ∈ (p.metadata a).ordinals.map (·.op) := by
  simp only [Option.isSome_iff_exists, ordinalOf?_eq_some_iff, mem_map]

/-- An ordinal is the position of its operation. -/
theorem getElem?_ordinals_of_mem (h : o ∈ (p.metadata a).ordinals) :
    (p.metadata a).ordinals[o.ordinal]? = some o := by
  obtain ⟨i, hi⟩ := mem_iff_getElem?.mp h
  obtain ⟨rfl, -⟩ := ordinal?_eq_some (getElem?_ordinals_eq_some_iff.mp hi).2
  exact hi

theorem ordinal?_of_mem (h : o ∈ (p.metadata a).ordinals) : p.ordinal? o.ordinal o.op = some o :=
  (getElem?_ordinals_eq_some_iff.mp (getElem?_ordinals_of_mem h)).2

/-! ### Hashes -/

/-- Effects have names of their own, and the hashes of the names differ. -/
structure DistinctHashes (p : Program) : Prop where
  names : (p.effects.map (·.name)).Nodup
  hashes : ∀ e ∈ p.effects, ∀ e' ∈ p.effects, effectIdHash e.name = effectIdHash e'.name →
    e.name = e'.name

/-- The hash of the effect's name and the position in the effect belong to one operation. -/
theorem DistinctHashes.op_eq (h : p.DistinctHashes) (ho : o ∈ (p.metadata a).ordinals)
    {e : EffectDecl} (he : p.effect? op.effect = some e)
    (heffect : o.effectId = effectIdHash e.name) (hindex : o.opId = op.index) :
    o.op = op := by
  obtain ⟨-, -, -, e', he', -, hid⟩ := ordinal?_eq_some (ordinal?_of_mem ho)
  obtain ⟨hmem, hop⟩ := of_effect? he
  obtain ⟨hmem', hop'⟩ := of_effect? he'
  have hname : e'.name = e.name := h.hashes e' hmem' e hmem (hid.symm.trans heffect)
  obtain rfl := inj_on_of_nodup_map h.names hmem' hmem hname
  have hsame : o.op.effect = op.effect := hop'.symm.trans hop
  obtain ⟨effect, index⟩ := op
  obtain rfl : o.op.effect = effect := hsame
  obtain rfl : o.op.index = index := hindex
  rfl

theorem DistinctHashes.eq_of_ids (h : p.DistinctHashes) {o' : OpOrdinal}
    (ho : o ∈ (p.metadata a).ordinals) (ho' : o' ∈ (p.metadata a).ordinals)
    (heffect : o.effectId = o'.effectId) (hindex : o.opId = o'.opId) : o = o' := by
  obtain ⟨-, -, -, e', he', -, hid⟩ := ordinal?_eq_some (ordinal?_of_mem ho')
  exact op_injOn_ordinals ho ho' (h.op_eq ho he' (heffect.trans hid) hindex)

/-- The table has the entries of the ordinals, in their order. -/
theorem get?_table (i : Nat) :
    (p.metadata a).table.get? i = ((p.metadata a).ordinals[i]?).map (·.tableEntry) := by
  rw [EffectMetadata.table, EffectTable.get?, getElem?_map]

/-- **Every entry of the table is found by its numbers.** -/
theorem DistinctHashes.find?_table (h : p.DistinctHashes) {e : TableEntry}
    (he : (p.metadata a).table.get? i = some e) :
    (p.metadata a).table.find? e.effectId e.opId = some i := by
  rw [get?_table] at he
  obtain ⟨o, ho, rfl⟩ := Option.map_eq_some_iff.mp he
  obtain ⟨hlt, hget⟩ := List.getElem?_eq_some_iff.mp ho
  rw [EffectTable.find?, EffectMetadata.table, findIdx?_map, findIdx?_eq_some_iff_getElem]
  refine ⟨hlt, ?_, fun j hj => ?_⟩
  · rw [hget]
    simp [OpOrdinal.tableEntry]
  · intro hsame
    have hj' : j < (p.metadata a).ordinals.length := Nat.lt_trans hj hlt
    simp only [Function.comp_apply, Bool.and_eq_true, beq_iff_eq] at hsame
    have heq := h.eq_of_ids (getElem_mem hj') (mem_of_getElem? ho) hsame.1 hsame.2
    have hordinal (k : Nat) (o : OpOrdinal) (hk : (p.metadata a).ordinals[k]? = some o) :
        o.ordinal = k :=
      (ordinal?_eq_some (getElem?_ordinals_eq_some_iff.mp hk).2).1
    have := hordinal j _ (getElem?_eq_getElem hj')
    rw [heq, hordinal i o ho] at this
    omega

end Program

/-! ### The interpreter -/

namespace OpOrdinal

/-- The call that a handler sees for a request of the operation. -/
def call (o : OpOrdinal) (args : List WireValue) : Host.HandlerCall :=
  .ofEntry o.tableEntry o.ordinal (o.ordinal + 1) args

/-- The request of the operation, as it crosses the boundary. -/
def envelope (o : OpOrdinal) (args : List WireValue) : EffectEnvelope where
  opIndex := o.ordinal
  opId := o.opId
  effectId := o.effectId
  resumeCode := o.kind.code
  handle := o.ordinal + 1
  args

end OpOrdinal

section Interpreter

open Interp

variable {p : Program} {a : EffectAnalysis} {s : Setting} {args : List Value} {rest : List Pending}
  {store store' : Store} {r : Request}

theorem Interp.Setting.of_outcome_request (h : s.outcome (.request op args rest) store =
      ⟨.ok (.request r), store'⟩) :
    r.op = op ∧ r.args = args ∧ ∃ e, s.program.effect? op.effect = some e ∧
      r.effectName = e.name := by
  rw [Setting.outcome] at h
  split at h
  · cases h
  · cases h
  · next e decl he _ =>
    cases h
    exact ⟨rfl, rfl, e, he, rfl⟩

/-- **The interpreter finds the operation of every request**, or none if the operation has no
number. -/
theorem Program.DistinctHashes.call_request (hp : p.DistinctHashes) (hs : s.program = p)
    (h : s.outcome (.request op args rest) store = ⟨.ok (.request r), store'⟩) :
    r.call (p.metadata a) =
      match (p.metadata a).ordinalOf? op with
      | none => .error (.handler r.label "operation missing from the effect table")
      | some o => (wireArgs r.label args).map fun ws => (o.call ws, o.decl.ret) := by
  obtain ⟨rfl, rfl, e, he, hname⟩ := Setting.of_outcome_request h
  have hfind : ((p.metadata a).ordinals.find?
      fun o => o.effectId == r.effectId && o.opId == r.opId) = (p.metadata a).ordinalOf? r.op := by
    refine find?_congr fun o ho => ?_
    rw [Bool.eq_iff_iff, Bool.and_eq_true, beq_iff_eq, beq_iff_eq, beq_iff_eq, Request.effectId,
      hname, Request.opId]
    constructor
    · rintro ⟨heffect, hindex⟩
      exact hp.op_eq ho (hs ▸ he) heffect hindex
    · intro hop
      obtain ⟨-, -, -, e', he', -, hid⟩ := Program.ordinal?_eq_some (Program.ordinal?_of_mem ho)
      rw [hop, ← hs, he] at he'
      obtain rfl := Option.some.inj he'
      exact ⟨hid, congrArg OpRef.index hop⟩
  rw [Request.call, hfind]
  cases (p.metadata a).ordinalOf? r.op with
  | none => rfl
  | some o => cases wireArgs r.label r.args <;> rfl

end Interpreter

/-! ### The host -/

theorem Host.Runner.validate_envelope {r : Runner} {p : Program} {a : EffectAnalysis}
    (hr : r.table = (p.metadata a).table) (ho : o ∈ (p.metadata a).ordinals)
    (args : List WireValue) :
    r.validate (o.envelope args) = .ok (o.call args) := by
  have hentry : r.table.get? (o.envelope args).opIndex = some o.tableEntry := by
    rw [hr, Program.get?_table]
    exact congrArg (Option.map OpOrdinal.tableEntry) (Program.getElem?_ordinals_of_mem ho)
  have hhandle : r.handleOf? (o.envelope args).opIndex = some (o.envelope args).handle :=
    if_pos (List.getElem?_eq_some_iff.mp hentry).1
  rw [validate_of_get? r hentry, if_neg, if_neg, if_neg]
  · rfl
  · exact not_not.mpr (ResumeKind.ofCode?_code _)
  · exact not_not.mpr hhandle
  · exact fun h => h.elim (· rfl) (· rfl)

/-! ### Compiled code -/

open Target

theorem int64_ofNat_inj {n : Nat} (hn : n < UInt64.size) (hk : k < UInt64.size)
    (h : Int64.ofNat n = Int64.ofNat k) :
    n = k := by
  have hbits := congrArg (·.toUInt64.toNat) h
  simpa [Nat.mod_eq_of_lt hn, Nat.mod_eq_of_lt hk] using hbits

theorem int32_ofNat_inj {n : Nat} (hn : n < UInt32.size) (hk : k < UInt32.size)
    (h : Int32.ofNat n = Int32.ofNat k) :
    n = k := by
  have hbits := congrArg (·.toUInt32.toNat) h
  simpa [Nat.mod_eq_of_lt hn, Nat.mod_eq_of_lt hk] using hbits

/-- The construct performs the operation, at once or by a call of it. -/
def Form.Performs (form : Form) (op : OpRef) : Prop :=
  (∃ args typeArgs, form = .perform op args typeArgs) ∨
    ∃ callee args typeArgs, form = .call callee args ∧ callee.form = .op op typeArgs

namespace OpOrdinal

/-- The record with which compiled code requests the operation. -/
def request (o : OpOrdinal) (args env : Instr) : Instr :=
  .structNew Record.effect.index
    [.nat 1, .nat o.ordinal, .i64Const (.ofNat o.effectId), .nat o.opId, .nat o.kind.code, args,
    env, .nat 0]

/-- The instruction that reads the host's answer to a request of the operation. -/
def answer (o : OpOrdinal) (address length : Instr) : Instr :=
  match o.decl.ret.tag? with
  | some tag => HostFunction.readValue.call [.nat tag.code, address, length]
  | none => .unreachable .unsupportedValue

/-- The value is a record that requests the operation. -/
def IsRequest (o : OpOrdinal) (mc : Machine) (heap : Heap) (v : Val) : Prop :=
  ∃ address ty fields, v = .ref (some address) ∧ heap[address]? = some (.struct ty fields) ∧
    mc.module.isSubtype ty Record.effect.index = true ∧
    fields[EffectPart.ordinal.index]? = some (.i32 (.ofNat o.ordinal)) ∧
    fields[EffectPart.effectId.index]? = some (.i64 (.ofNat o.effectId)) ∧
    fields[EffectPart.opId.index]? = some (.i32 (.ofNat o.opId)) ∧
    fields[EffectPart.kind.index]? = some (.i32 (.ofNat o.kind.code))

variable {mc : Machine} {callee : Callee} {act act₁ act₂ : Activation}

theorem exists_request_of_gives (hmc : mc.module.HasRecords) {args env : Instr} {v w : Val}
    (hargs : args.Gives mc callee act v act₁) (henv : env.Gives mc callee act₁ w act₂) :
    ∃ r after, (o.request args env).Gives mc callee act r after ∧
      o.IsRequest mc after.store.heap r := by
  have hfields : evalAll mc callee
      [.nat 1, .nat o.ordinal, .i64Const (.ofNat o.effectId), .nat o.opId, .nat o.kind.code, args,
      env, .nat 0] act =
      (.ok [.i32 (.ofNat 1), .i32 (.ofNat o.ordinal), .i64 (.ofNat o.effectId),
      .i32 (.ofNat o.opId),
        .i32 (.ofNat o.kind.code), v, w, .i32 (.ofNat 0)], act₂) :=
    evalAll_cons_of_gives (Instr.gives_nat _) <| evalAll_cons_of_gives (Instr.gives_nat _) <|
      evalAll_cons_of_gives rfl <| evalAll_cons_of_gives (Instr.gives_nat _) <|
      evalAll_cons_of_gives (Instr.gives_nat _) <| evalAll_cons_of_gives hargs <|
      evalAll_cons_of_gives henv <| evalAll_cons_of_gives (Instr.gives_nat _) rfl
  exact ⟨_, _, Instr.gives_structNew hfields (hmc.getElem?_types .effect) rfl,
    act₂.store.heap.size, _, _, rfl, Array.getElem?_push_size, mc.module.isSubtype_self _, rfl,
    rfl, rfl, rfl⟩

/-- The code for performing an operation hands out its request. -/
theorem exists_request_of_performAt (c : UnitContext) (site : EffectSite) (ty : Ty) (span : Span)
    (args : List Instr)
    (state : EmitState) : ∃ behind, (performAt c site o ty span args state).1 =
      .ifElse Header.started.get [.give (o.request (.arrayNew args) (c.siteEnv site .refNull))]
      behind :=
  ⟨_, rfl⟩

theorem exists_request_of_performs {c : UnitContext} {id : ExprId} {site : EffectSite} {form : Form}
    (hform : form.Performs op) (hsite : c.site? id = some site)
    (ho : c.metadata.ordinalOf? op = some o) (s : Scope) (ty : Ty) (span : Span)
    (state : EmitState) :
    ∃ values behind, (form.compile c s id ty span state).1 =
      .ifElse Header.started.get [.give (o.request (.arrayNew values) (c.siteEnv site .refNull))]
      behind := by
  obtain ⟨args, typeArgs, rfl⟩ | ⟨callee, args, typeArgs, rfl, hcallee⟩ := hform
  · rw [Form.compile, hsite, ho]
    exact ⟨_, exists_request_of_performAt c site ty span _ _⟩
  · rw [Form.compile, hcallee]
    dsimp only
    rw [hsite, ho]
    exact ⟨_, exists_request_of_performAt c site ty span _ _⟩

end OpOrdinal

section Chains

variable {p : Program} {a : EffectAnalysis} {mc : Machine} {callee : Callee} {act : Activation}
  {cont : Instr} {v : Val}

/-- The numbers of the operations fit into the words that compiled code has for them. -/
structure EffectMetadata.FitsWords (m : EffectMetadata) : Prop where
  ordinals : m.ordinals.length ≤ UInt32.size
  opIds : ∀ o ∈ m.ordinals, o.opId < UInt32.size

theorem OpOrdinal.IsRequest.gives (h : o.IsRequest mc act.store.heap v)
    (hcont : cont.Gives mc callee act v act) :
    (cont.effectPart .ordinal).Gives mc callee act (.i32 (.ofNat o.ordinal)) act ∧
    (cont.effectPart .effectId).Gives mc callee act (.i64 (.ofNat o.effectId)) act ∧
    (cont.effectPart .opId).Gives mc callee act (.i32 (.ofNat o.opId)) act ∧
    (cont.effectPart .kind).Gives mc callee act (.i32 (.ofNat o.kind.code)) act := by
  obtain ⟨address, ty, fields, rfl, hobject, hty, hordinal, heffect, hop, hkind⟩ := h
  exact ⟨hcont.structGet hobject hty hordinal, hcont.structGet hobject hty heffect,
    hcont.structGet hobject hty hop, hcont.structGet hobject hty hkind⟩

/-- The test whether a record requests an operation. -/
def OpOrdinal.isRequested (o : OpOrdinal) (cont : Instr) : Instr :=
  .binary .and .i32 (.binary .eq .i64 (cont.effectPart .effectId) (.i64Const (.ofNat o.effectId)))
    (.i32Eq (cont.effectPart .opId) (.nat o.opId))

theorem OpOrdinal.IsRequest.gives_isRequested (h : o.IsRequest mc act.store.heap v)
    (hcont : cont.Gives mc callee act v act)
    (x : OpOrdinal) : (x.isRequested cont).Gives mc callee act
      (.ofBool (Int64.ofNat o.effectId == .ofNat x.effectId && Int32.ofNat o.opId == .ofNat x.opId))
      act := by
  obtain ⟨-, heffect, hop, -⟩ := h.gives hcont
  have hconst : (Instr.i64Const (.ofNat x.effectId)).Gives mc callee act
      (.i64 (.ofNat x.effectId)) act := rfl
  exact (heffect.binary hconst rfl).binary (hop.i32Eq (Instr.gives_nat _))
    (Instr.apply_and_ofBool _ _ _)

/-- Reads the answer to a request of one of some operations. -/
def OpOrdinal.answerAmong (os : List OpOrdinal) (cont address length : Instr) : Instr :=
  os.foldr (fun o rest => .ifElse (o.isRequested cont) [o.answer address length] [rest])
    (.unreachable .opMismatch)

theorem OpOrdinal.IsRequest.eval_answerAmong (h : o.IsRequest mc act.store.heap v)
    (hcont : cont.Gives mc callee act v act) {os : List OpOrdinal} (ho : o ∈ os)
    (hos : ∀ x ∈ os, Int64.ofNat o.effectId = .ofNat x.effectId ∧ Int32.ofNat o.opId = .ofNat
      x.opId → o = x)
    (address length : Instr) :
    (answerAmong os cont address length).eval mc callee act = (o.answer address length).eval mc
      callee act := by
  induction os with
  | nil => cases ho
  | cons x os ih =>
    rw [answerAmong, foldr_cons, (h.gives_isRequested hcont x).eval_ifElse_ofBool]
    by_cases hx : o = x
    · subst hx
      rw [if_pos (by simp), evalSeq_singleton]
    · have hother : ¬(Int64.ofNat o.effectId == .ofNat x.effectId && Int32.ofNat o.opId == .ofNat
          x.opId) = true := by
        rw [Bool.and_eq_true, beq_iff_eq, beq_iff_eq]
        exact fun hsame => hx (hos x (mem_cons_self ..) hsame)
      rw [if_neg hother, evalSeq_singleton]
      exact ih ((mem_cons.mp ho).resolve_left hx) fun y hy => hos y (mem_cons_of_mem _ hy)

/-- **The answer to a request is read as that of its operation.** -/
theorem Program.DistinctHashes.eval_readAnswer (hp : p.DistinctHashes)
    (hfits : (p.metadata a).FitsWords) (ho : o ∈ (p.metadata a).ordinals)
    (h : o.IsRequest mc act.store.heap v) (hcont : cont.Gives mc callee act v act)
    (address length : Instr) :
    (Glue.readAnswer (p.metadata a) cont address length).eval mc callee act =
      (o.answer address length).eval mc callee act := by
  have hlt {x : OpOrdinal} (hx : x ∈ (p.metadata a).ordinals) : x.effectId < UInt64.size := by
    obtain ⟨-, -, -, e, -, -, hid⟩ := ordinal?_eq_some (ordinal?_of_mem hx)
    exact hid ▸ effectIdHash_lt e.name
  refine h.eval_answerAmong hcont ho (fun x hx hsame => ?_) address length
  exact hp.eq_of_ids ho hx (int64_ofNat_inj (hlt ho) (hlt hx) hsame.1)
    (int32_ofNat_inj (hfits.opIds o ho) (hfits.opIds x hx) hsame.2)

/-! ### Requests at the boundary -/

/-- Compiled code gets what a function of the host gives. -/
theorem HostFunction.gives_call {f : HostFunction} {target : HostImport} {args : List Instr}
    {vals : List Val} {act' : Activation} {memory : Memory}
    (himports : mc.imports = Host.wireImports) (hmodule : mc.module.imports = imports)
    (htarget : imports[f.index]? = some target)
    (hargs : evalAll mc callee args act = (.ok vals, act'))
    (hserve : Host.serve target vals act'.store.heap act'.store.memory = (.ok (some v), memory)) :
    (f.call args).Gives mc callee act v ⟨act'.locals, memory, act'.store.heap⟩ := by
  have hcall : mc.imports target vals act'.store = .ok (some v, memory) := by
    rw [himports, Host.wireImports, hserve]
  rw [Instr.Gives, call, Instr.eval, bind_of_ok hargs, EvalM.callImport, hmodule, htarget]
  exact (get_bind _ _).trans (by rw [hcall]; rfl)

/-- The last thing that `handle_outcome` does with a request: it has the host write it. -/
def Glue.writeRequest (b : BufferLayout) : Instr :=
  orOverflow (HostFunction.writeEffect.call
    [(arg 0).effectPart .effectId, (arg 0).effectPart .opId, (arg 0).effectPart .ordinal,
    (arg 0).effectPart .kind,
      .memLoad32 (.binary .mul .i32 ((arg 0).effectPart .ordinal) (.nat 4)), .nat b.scratchOffset,
      arg 3, arg 1, arg 2])

theorem Glue.exists_writeRequest (b : BufferLayout) :
    ∃ test onValue before, (handleOutcome b).body =
      [.ifElse test onValue (before ++ [writeRequest b]), arg 0] :=
  ⟨_, _, [_, _, _, _], rfl⟩

/-- The words that compiled code passes for a request of the operation. -/
def OpOrdinal.words (o : OpOrdinal) (scratch count address length : Int32) : Host.RequestWords where
  effectId := .ofNat o.effectId
  opId := .ofNat o.opId
  opIndex := .ofNat o.ordinal
  kind := .ofNat o.kind.code
  handle := .ofNat (o.ordinal + 1)
  argsAddress := scratch
  argCount := count
  address := address
  length := length

/-- The host has given the operation its handle, and can be asked for `args` to be written as a
request. -/
structure OpOrdinal.Writable (o : OpOrdinal) (w : Host.RequestWords) (args : List WireValue)
    (memory : Memory) : Prop where
  inWords : BufferLayout.handleSlot o.ordinal < UInt32.size
  handle : memory.read? (BufferLayout.handleSlot o.ordinal)
    4 = some (littleEndian 4 (o.ordinal + 1))
  count : w.count ≤ Wire.maxArgs
  slots : w.slots.isIn memory = true
  args : Wire.decodeSlots (w.slots.bytes memory) 0 w.count = .ok args
  out : w.out.isIn memory = true
  room : 32 + 16 * w.count ≤ w.out.length

theorem Program.envelope_words (hfits : (p.metadata a).FitsWords) (ho : o ∈ (p.metadata a).ordinals)
    (hslot : BufferLayout.handleSlot o.ordinal < UInt32.size) (scratch count address length : Int32)
    (args : List WireValue) :
    (o.words scratch count address length).envelope args = o.envelope args := by
  have hword {n : Nat} (hn : n < UInt32.size) : (Int32.ofNat n).toUInt32.toNat = n :=
    UInt32.toNat_ofNat_of_lt hn
  have heffect : (Int64.ofNat o.effectId).toUInt64.toNat = o.effectId := by
    obtain ⟨-, -, -, e, -, -, hid⟩ := ordinal?_eq_some (ordinal?_of_mem ho)
    exact UInt64.toNat_ofNat_of_lt (hid ▸ effectIdHash_lt e.name)
  have hkind : o.kind.code < UInt32.size := by cases o.kind <;> decide
  have hsize : UInt32.size = 4294967296 := rfl
  rw [BufferLayout.handleSlot] at hslot
  rw [Host.RequestWords.envelope, OpOrdinal.words, OpOrdinal.envelope, heffect,
    hword (hfits.opIds o ho), hword hkind, hword (show o.ordinal < UInt32.size by omega),
    hword (show o.ordinal + 1 < UInt32.size by omega)]

/-- **A request reaches the host as it was made.** The envelope in the buffer has the numbers of the
operation. -/
theorem OpOrdinal.IsRequest.exists_written (hfits : (p.metadata a).FitsWords)
    (ho : o ∈ (p.metadata a).ordinals) (h : o.IsRequest mc act.store.heap v)
    (himports : mc.imports = Host.wireImports) (hmodule : mc.module.imports = HostFunction.imports)
    (b : BufferLayout) {count address length : Int32} {args : List WireValue}
    (h₀ : act.locals[0]? = some v) (h₁ : act.locals[1]? = some (.i32 address))
    (h₂ : act.locals[2]? = some (.i32 length)) (h₃ : act.locals[3]? = some (.i32 count))
    (hw : o.Writable (o.words (.ofNat b.scratchOffset) count address length) args
      act.store.memory) :
    ∃ memory, (Glue.writeRequest b).eval mc callee act =
      (.ok none, ⟨act.locals, memory, act.store.heap⟩) ∧
      EffectEnvelope.decode ((Host.regionAt address length).bytes memory) =
      .ok (o.envelope args) := by
  have hcont : (Glue.arg 0).Gives mc callee act v act := Instr.gives_localGet h₀
  obtain ⟨hordinal, heffect, hop, hkind⟩ := h.gives hcont
  have hslot : o.ordinal * 4 < 4294967296 := hw.inWords
  -- the handle is the one that the host has left in the table
  have hplace : (Int32.ofNat o.ordinal * Int32.ofNat 4).toUInt32.toNat = BufferLayout.handleSlot
      o.ordinal := by
    rw [← Int32.ofNat_mul]
    exact UInt32.toNat_ofNat_of_lt hw.inWords
  have hnumber : ofLittleEndian (littleEndian 4 (o.ordinal + 1)) = o.ordinal + 1 :=
    ofLittleEndian_littleEndian (show o.ordinal + 1 < 4294967296 by omega)
  have hhandle : (Instr.memLoad32 (.binary .mul .i32 ((Glue.arg 0).effectPart .ordinal)
      (.nat 4))).Gives mc callee act
      (.i32 (.ofNat (ofLittleEndian (littleEndian 4 (o.ordinal + 1))))) act :=
    (hordinal.binary (Instr.gives_nat 4) rfl).memLoad32 (by rw [hplace]; exact hw.handle)
  rw [hnumber] at hhandle
  have hargs := evalAll_of_forall₂ <| .cons heffect <| .cons hop <| .cons hordinal <| .cons hkind <|
    .cons hhandle <| .cons (Instr.gives_nat b.scratchOffset) <| .cons (Instr.gives_localGet h₃) <|
      .cons (Instr.gives_localGet h₁) <|
    .cons (Instr.gives_localGet h₂) .nil
  have hwriter : Host.IsFunction ⟨Host.moduleName, "write_effect",
    [.i64, .i32, .i32, .i32, .i32, .i32, .i32, .i32, .i32], some .i32⟩ "write_effect" := ⟨rfl, rfl⟩
  obtain ⟨memory, hserve, hdecode⟩ : ∃ memory, Host.serve _ _ act.store.heap act.store.memory =
      (_, memory) ∧ _ :=
    Host.exists_request_written hwriter hw.count hw.slots hw.args hw.out hw.room
  have hstatus := HostFunction.gives_call (f := .writeEffect) himports hmodule rfl hargs hserve
  refine ⟨memory, hstatus.eval_ifElse, ?_⟩
  rw [← Program.envelope_words hfits ho hw.inWords (.ofNat b.scratchOffset) count address
    length args]
  exact hdecode

/-- Which of some clauses is for an operation. -/
def HandlerPlan.clauseFor? (plan : HandlerPlan) (op : OpRef) (indices : List Nat) : Option Nat :=
  indices.find? fun i => (plan.clause? i).any (·.op == op)

/-- The number of a clause, and minus one for none. -/
def clauseNumber : Option Nat → Int32
  | some i => .ofNat i
  | none => -1

/-- The numbers of two operations are equal as words exactly if the operations are. -/
theorem EffectMetadata.FitsWords.ordinal_beq (hfits : (p.metadata a).FitsWords) {x : OpOrdinal}
    (ho : o ∈ (p.metadata a).ordinals) (hx : x ∈ (p.metadata a).ordinals) :
    (Int32.ofNat o.ordinal == Int32.ofNat x.ordinal) = (x.op == o.op) := by
  have hlt {x : OpOrdinal} (hx : x ∈ (p.metadata a).ordinals) : x.ordinal < UInt32.size :=
    Nat.lt_of_lt_of_le (List.getElem?_eq_some_iff.mp (Program.getElem?_ordinals_of_mem hx)).1
      hfits.ordinals
  rw [Bool.eq_iff_iff, beq_iff_eq, beq_iff_eq]
  constructor
  · intro h
    have hget := Program.getElem?_ordinals_of_mem ho
    rw [int32_ofNat_inj (hlt ho) (hlt hx) h, Program.getElem?_ordinals_of_mem hx] at hget
    exact congrArg OpOrdinal.op (Option.some.inj hget)
  · intro h
    rw [Program.op_injOn_ordinals hx ho h]

/-- **A request goes to the first clause for its operation.** -/
theorem OpOrdinal.IsRequest.gives_clauseByOrdinal {c : UnitContext} (hc : c.metadata = p.metadata a)
    (hfits : (p.metadata a).FitsWords) (ho : o ∈ (p.metadata a).ordinals)
    (h : o.IsRequest mc act.store.heap v) (houtcome : Header.outcome.get.Gives mc callee act v act)
    (plan : HandlerPlan) (count : Nat) :
    (clauseByOrdinal c plan count).Gives mc callee act
      (.i32 (clauseNumber (plan.clauseFor? o.op (List.range count)))) act := by
  obtain ⟨hordinal, -⟩ := h.gives houtcome
  rw [clauseByOrdinal, hc]
  induction List.range count with
  | nil => rfl
  | cons i is ih =>
    rw [foldr_cons, HandlerPlan.clauseFor?, find?_cons]
    cases hx : (plan.clause? i).bind fun q => (p.metadata a).ordinalOf? q.op with
    | none =>
      -- a clause without a number is for another operation
      have hother : (plan.clause? i).any (·.op == o.op) = false := by
        cases hq : plan.clause? i with
        | none => rfl
        | some q =>
          rw [hq, Option.bind_some] at hx
          refine beq_eq_false_iff_ne.mpr fun hop => ?_
          rw [Program.ordinalOf?_eq_some_iff.mpr ⟨ho, hop.symm⟩] at hx
          cases hx
      rw [hother]
      exact ih
    | some x =>
      obtain ⟨q, hq, hxq⟩ := Option.bind_eq_some_iff.mp hx
      obtain ⟨hmem, hop⟩ := Program.ordinalOf?_eq_some_iff.mp hxq
      have htest := hordinal.i32Eq (Instr.gives_nat x.ordinal)
      rw [hfits.ordinal_beq ho hmem, hop] at htest
      rw [hq, Option.any_some, Instr.Gives, htest.eval_ifElse_ofBool]
      cases q.op == o.op with
      | true => exact evalSeq_singleton _
      | false => exact (evalSeq_singleton _).trans ih

end Chains

/-! ### All of them -/

/-- Whoever deals with a request of the operation takes it for this operation. -/
structure OpOrdinal.ResolvedAlike (p : Program) (m : EffectMetadata) (o : OpOrdinal) : Prop where
  /-- The interpreter has the request answered by the handler for the operation. -/
  interpreted : ∀ s : Interp.Setting, s.program = p → ∀ args rest store, ∃ r store',
    s.outcome (.request o.op args rest) store = ⟨.ok (.request r), store'⟩ ∧
      r.call m = (Interp.wireArgs r.label args).map fun ws => (o.call ws, o.decl.ret)
  /-- Compiled code that performs the operation hands out its request. -/
  requested : ∀ c : UnitContext, c.metadata = m → ∀ form : Form, form.Performs o.op →
    ∀ id site, c.site? id = some site →
    ∀ s ty span state, ∃ values behind, (form.compile c s id ty span state).1 =
      .ifElse Header.started.get [.give (o.request (.arrayNew values) (c.siteEnv site .refNull))]
      behind
  /-- The request is a record with the numbers of the operation. -/
  recorded : ∀ (mc : Machine) callee act act₁ act₂ args env v w, mc.module.HasRecords →
    args.Gives mc callee act v act₁ → env.Gives mc callee act₁ w act₂ →
    ∃ r after, (o.request args env).Gives mc callee act r after ∧ o.IsRequest mc after.store.heap r
  /-- A compiled handler takes the first clause for the operation. -/
  handled : m.FitsWords → ∀ c : UnitContext, c.metadata = m → ∀ (mc : Machine) callee act r,
    o.IsRequest mc act.store.heap r →
    Header.outcome.get.Gives mc callee act r act →
    ∀ plan count, (clauseByOrdinal c plan count).Gives mc callee act
      (.i32 (clauseNumber (plan.clauseFor? o.op (List.range count)))) act
  /-- The request is written to the buffer as an envelope with these numbers. -/
  written : m.FitsWords → ∀ b : BufferLayout,
    (∃ test onValue before, (Glue.handleOutcome b).body =
      [.ifElse test onValue (before ++ [Glue.writeRequest b]), Glue.arg 0]) ∧
    ∀ (mc : Machine) callee act r (count address length : Int32) args,
      mc.imports = Host.wireImports → mc.module.imports = HostFunction.imports → o.IsRequest mc
      act.store.heap r → act.locals[0]? = some r → act.locals[1]? = some (.i32 address) →
      act.locals[2]? = some (.i32 length) → act.locals[3]? = some (.i32 count) → o.Writable
      (o.words (.ofNat b.scratchOffset) count address length) args act.store.memory →
      ∃ memory, (Glue.writeRequest b).eval mc callee
        act = (.ok none, ⟨act.locals, memory, act.store.heap⟩) ∧ EffectEnvelope.decode
        ((Host.regionAt address length).bytes memory) = .ok (o.envelope args)
  /-- The host takes the request for one of the operation. -/
  validated : ∀ r : Host.Runner, r.table = m.table → ∀ args, r.validate (o.envelope args) = .ok
    (o.call args)
  /-- Compiled code reads the answer as a result of the operation. -/
  answered : m.FitsWords → ∀ (mc : Machine) callee act r cont, o.IsRequest mc act.store.heap r →
    cont.Gives mc callee act r act → ∀ address length,
    (Glue.readAnswer m cont address length).eval mc callee act = (o.answer address length).eval
    mc callee act

namespace Program

variable {p : Program} {a : EffectAnalysis}

/-- A request for a numbered operation reaches the host. -/
theorem exists_outcome_of_ordinal (ho : o ∈ (p.metadata a).ordinals) {s : Interp.Setting}
    (hs : s.program = p) (args : List Interp.Value) (rest : List Interp.Pending)
    (store : Interp.Store) :
    ∃ r store', s.outcome (.request o.op args rest) store = ⟨.ok (.request r), store'⟩ := by
  obtain ⟨-, -, hdecl, e, he, -⟩ := ordinal?_eq_some (ordinal?_of_mem ho)
  exact ⟨_, _, by rw [Interp.Setting.outcome, hs, he, hdecl]⟩

theorem DistinctHashes.resolvedAlike (hp : p.DistinctHashes) (ho : o ∈ (p.metadata a).ordinals) :
    o.ResolvedAlike p (p.metadata a) where
  interpreted s hs args rest store := by
    obtain ⟨r, store', hr⟩ := exists_outcome_of_ordinal ho hs args rest store
    refine ⟨r, store', hr, ?_⟩
    rw [hp.call_request hs hr, ordinalOf?_eq_some_iff.mpr ⟨ho, rfl⟩]
  requested c hc form hform id site hsite s ty span state :=
    OpOrdinal.exists_request_of_performs hform hsite (hc ▸ ordinalOf?_eq_some_iff.mpr ⟨ho, rfl⟩) s
      ty span state
  recorded _ _ _ _ _ _ _ _ _ hmc hargs henv := OpOrdinal.exists_request_of_gives hmc hargs henv
  handled hfits _ hc _ _ _ _ hr hget plan count :=
    hr.gives_clauseByOrdinal hc hfits ho hget plan count
  written hfits b :=
    ⟨Glue.exists_writeRequest b, fun _ _ _ _ _ _ _ _ himports hmodule hr h₀ h₁ h₂ h₃ hw =>
    hr.exists_written hfits ho himports hmodule b h₀ h₁ h₂ h₃ hw⟩
  validated _ hr args := Host.Runner.validate_envelope hr ho args
  answered hfits _ _ _ _ _ hr hcont address length :=
    hp.eval_readAnswer hfits ho hr hcont address length

/-- **Operations are known by their ordinals.** The ordinals number the declared operations that
occur in some body, each once and in the order of the declarations.  Exactly these operations have
an ordinal, which is the place of their entry.  An entry of the effect table describes the operation
with this number.  If the hashes of the effects differ, then every entry is found by its numbers,
and whoever deals with a request resolves it alike. -/
theorem ops_known_by_ordinals (p : Program) (a : EffectAnalysis) :
    (∀ op, op ∈ (p.metadata a).ordinals.map (·.op) ↔ (p.op? op).isSome ∧ p.Mentions op) ∧
    ((p.metadata a).ordinals.map (·.op)).Nodup ∧
    ((p.metadata a).ordinals.map (·.op)).Pairwise p.Precedes ∧
    (∀ op, ((p.metadata a).ordinalOf? op).isSome ↔ op ∈ (p.metadata a).ordinals.map (·.op)) ∧
    (∀ op o, (p.metadata a).ordinalOf? op = some o → o.op = op ∧
      (p.metadata a).ordinals[o.ordinal]? = some o) ∧
    (∀ i o, (p.metadata a).ordinals[i]? = some o → o.ordinal = i ∧ p.ordinal? i o.op = some o) ∧
    (∀ i, (p.metadata a).table.get? i = ((p.metadata a).ordinals[i]?).map (·.tableEntry)) ∧
    (p.DistinctHashes →
      (∀ i e, (p.metadata a).table.get? i = some e → (p.metadata a).table.find? e.effectId
        e.opId = some i) ∧
      (∀ o ∈ (p.metadata a).ordinals, o.ResolvedAlike p (p.metadata a)) ∧
      ∀ (s : Interp.Setting) op args rest store r store', s.program = p →
        (p.metadata a).ordinalOf? op = none → s.outcome (.request op args rest) store =
        ⟨.ok (.request r), store'⟩ → r.call (p.metadata a) =
        .error (.handler r.label "operation missing from the effect table")) := by
  refine ⟨?_, ?_, ?_, fun op => isSome_ordinalOf?_iff, ?_, ?_, get?_table,
    fun hp => ⟨fun i e => hp.find?_table, ?_, ?_⟩⟩
  · intro op
    rw [map_op_ordinals, mem_orderedOps]
  · rw [map_op_ordinals]
    exact nodup_orderedOps
  · rw [map_op_ordinals]
    exact pairwise_orderedOps
  · intro op o h
    obtain ⟨ho, hop⟩ := ordinalOf?_eq_some_iff.mp h
    exact ⟨hop, getElem?_ordinals_of_mem ho⟩
  · intro i o h
    have ho := (getElem?_ordinals_eq_some_iff.mp h).2
    exact ⟨(ordinal?_eq_some ho).1, ho⟩
  · intro o ho
    exact hp.resolvedAlike ho
  · intro s op args rest store r store' hs hnone hr
    rw [hp.call_request hs hr, hnone]

/-- The later effect is performed first, in a closure; an operation of the earlier effect is named
in a clause. -/
def stateThenLog : Program where
  effects := [{ id := ⟨4⟩, name := "Log", ops := [⟨"write", 0, [.i32], .unit, .tail⟩,
    ⟨"flush", 0, [], .unit, .tail⟩] },
    { id := ⟨2⟩, name := "State", ops := [⟨"get", 0, [], .i32, .tail⟩] }]
  functions := [
    { id := ⟨1⟩, name := "main", params := [], ret := .unit, exported := true
      locals := [⟨"k", .continuation .i32 .unit⟩]
      body := .node ⟨1⟩ (.handle
        (.node ⟨2⟩ (.closure [] (.i32 3 (.perform ⟨⟨2⟩, 0⟩ [] []))) .unit {})
        [.mk ⟨⟨2⟩, "get", none, [], ⟨0⟩, {}⟩ (.node ⟨4⟩ (.op ⟨⟨4⟩, 1⟩ []) .unit {})] none)
        .unit {} }]

/-- The numbers follow the declarations, not the ids of the effects or the places in the body. -/
theorem ops_known_by_ordinals_stateThenLog :
    stateThenLog.DistinctHashes ∧
    (stateThenLog.metadata (stateThenLog.analyze false)).ordinals.map (·.op) =
    [⟨⟨4⟩, 1⟩, ⟨⟨2⟩, 0⟩] ∧
    (∀ i e, (stateThenLog.metadata (stateThenLog.analyze false)).table.get? i = some e →
      (stateThenLog.metadata (stateThenLog.analyze false)).table.find? e.effectId e.opId = some i) ∧
    ∀ o ∈ (stateThenLog.metadata (stateThenLog.analyze false)).ordinals,
      o.ResolvedAlike stateThenLog (stateThenLog.metadata (stateThenLog.analyze false)) := by
  have hhashes : stateThenLog.DistinctHashes := ⟨by decide, by decide +kernel⟩
  have hops : stateThenLog.orderedOps = [⟨⟨4⟩, 1⟩, ⟨⟨2⟩, 0⟩] := by
    have hdeclared : (stateThenLog.mentionedOps.filter fun op => (stateThenLog.op? op).isSome) =
        [⟨⟨2⟩, 0⟩, ⟨⟨4⟩, 1⟩] := by
      decide
    have hbehind : stateThenLog.opBefore ⟨⟨2⟩, 0⟩ ⟨⟨4⟩, 1⟩ = false := by decide
    rw [orderedOps, hdeclared]
    simp [List.mergeSort, hbehind]
  obtain ⟨-, -, -, -, -, -, -, hdistinct⟩ :=
    ops_known_by_ordinals stateThenLog (stateThenLog.analyze false)
  exact ⟨hhashes, map_op_ordinals.trans hops, (hdistinct hhashes).1, (hdistinct hhashes).2.1⟩

end Program

end Effectful
