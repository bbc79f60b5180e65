import Effectful.Emission.Unit
import Effectful.Proofs.SiteTable
import Effectful.Proofs.Validity
/-!
# Emitted code keeps to its module

What is emitted for an expression reads and writes only locals of the function, calls functions and
builds records with as many operands as they take, and binds only labels that were taken while it
was emitted (`Code`).  This is shown construct by construct (`Expr.code_compile`).  It rests on what
is known of the unit and of the module around it (`UnitContext.Fits`) and of the nodes of the
expression (`UnitContext.FitsNode`).
-/

namespace Effectful

open List

open Target EmitM

variable {i x bits value : Instr} {l : LocalId} {t : Ty} {site : EffectSite} {args : List Instr}

/-! ### Records -/

/-- The record types of every module stand at the start. -/
def Target.Module.HasRecords (m : Module) : Prop := recordTypes <+: m.types

section Records

variable {m : Module} {n : Nat} {L : List Label} {outcome env : Instr}

/-- The type of a record is found under its index. -/
theorem Target.Module.HasRecords.getElem?_types (h : m.HasRecords) (r : Record) :
    m.types[r.index]? = recordTypes[r.index]? := by
  obtain ⟨rest, hrest⟩ := h
  rw [← hrest, getElem?_append_left]
  cases r <;> decide

/-- Reading a field that the record has. -/
theorem fits_structGet (h : m.HasRecords) {r : Record} {field : Nat}
    (hfield : (recordTypes[r.index]?).any (field < ·.fields.length) = true) :
    (Instr.structGet r.index field x).fits m n L = x.fits m n L := by
  rw [Instr.fits, h.getElem?_types, hfield, Bool.true_and]

theorem fits_valueBits (h : m.HasRecords) : outcome.valueBits.fits m n L = outcome.fits m n L :=
  fits_structGet h rfl

theorem fits_effectPart (h : m.HasRecords) (part : EffectPart) :
    (outcome.effectPart part).fits m n L = outcome.fits m n L :=
  fits_structGet h (by cases part <;> rfl)

/-- The other fields, read from outcomes and from environments. -/
theorem fits_fields (h : m.HasRecords) :
    outcome.status.fits m n L = outcome.fits m n L ∧
      (∀ k, (outcome.hasStatus k).fits m n L = outcome.fits m n L) ∧
      outcome.valueTag.fits m n L = outcome.fits m n L ∧
      outcome.envSite.fits m n L = outcome.fits m n L ∧
      outcome.envHandler.fits m n L = outcome.fits m n L := by
  have hstatus : outcome.status.fits m n L = outcome.fits m n L := fits_structGet h rfl
  refine ⟨hstatus, fun k => ?_, fits_structGet h rfl, fits_structGet h rfl, fits_structGet h rfl⟩
  simp [Instr.hasStatus, Instr.i32Eq, Instr.nat, hstatus]

/-- Reading from a record binds no labels of its own. -/
@[simp]
theorem binds_fields :
    outcome.status.binds = outcome.binds ∧ outcome.valueTag.binds = outcome.binds ∧
      outcome.valueBits.binds = outcome.binds ∧ outcome.envSite.binds = outcome.binds ∧
      (∀ k, (outcome.hasStatus k).binds = outcome.binds) ∧
      ∀ part : EffectPart, (outcome.effectPart part).binds = outcome.binds := by
  simp [Instr.status, Instr.valueTag, Instr.valueBits, Instr.envSite, Instr.hasStatus, Instr.i32Eq,
    Instr.nat, Instr.effectPart]

theorem fits_newValue (h : m.HasRecords) (tag : ValueTag) :
    (Instr.newValue tag bits).fits m n L = bits.fits m n L := by
  rw [Instr.newValue, Instr.fits, h.getElem?_types]
  exact Bool.and_true _

/-- A request is a record of its eight parts. -/
theorem fits_newEffect (h : m.HasRecords) {ordinal effectId opId kind args count status : Instr} :
    (Instr.structNew Record.effect.index
      [status, ordinal, effectId, opId, kind, args, env, count]).fits m n L =
      allFit m n L [status, ordinal, effectId, opId, kind, args, env, count] := by
  rw [Instr.fits, h.getElem?_types]
  rfl

theorem fits_rewrapped (h : m.HasRecords) :
    (outcome.rewrapped env).fits m n L = true ↔ outcome.fits m n L = true ∧
      env.fits m n L = true := by
  rw [Instr.rewrapped, fits_newEffect h]
  simp [fits_effectPart h, Instr.nat]
  tauto

/-- Counting a resumption reads and writes the record of the request. -/
theorem allFit_countedOnce (h : m.HasRecords) :
    allFit m n L outcome.countedOnce = true ↔ outcome.fits m n L = true := by
  have hmutable : ((m.types[Record.effect.index]?).bind (·.fields[EffectPart.count.index]?)).any
      (·.mutable) = true := by
    rw [h.getElem?_types]
    rfl
  simp [Instr.countedOnce, fits_effectPart h, hmutable, Instr.nat]

end Records

/-! ### Code between two states -/

/-- What a state of emission has handed out, the later state has too. -/
structure EmitState.Le (s s' : EmitState) : Prop where
  temps : s.temps.length ≤ s'.temps.length
  nextLabel : s.nextLabel ≤ s'.nextLabel

theorem EmitState.Le.refl (s : EmitState) : s.Le s := ⟨Nat.le_refl _, Nat.le_refl _⟩

theorem EmitState.Le.trans {s s₁ s' : EmitState} (h : s.Le s₁) (h' : s₁.Le s') : s.Le s' :=
  ⟨Nat.le_trans h.temps h'.temps, Nat.le_trans h.nextLabel h'.nextLabel⟩

/-- Code that was emitted between two states: it fits a function with the temporaries so far, and
the labels that it binds were taken in between, each once. -/
structure Code (c : UnitContext) (m : Module) (L : List Label) (s s' : EmitState)
    (is : List Instr) : Prop where
  le : s.Le s'
  fits : ∀ n, c.firstTemp + s'.temps.length ≤ n → allFit m n L is = true
  nodup : (bindsAll is).Nodup
  fresh : ∀ l ∈ bindsAll is, s.nextLabel ≤ l.index ∧ l.index < s'.nextLabel

/-- Code that ends with what a computation emits from `s` on. -/
abbrev CodeOf (c : UnitContext) (m : Module) (L : List Label) (s₀ s : EmitState)
    (x : EmitM Instr) : Prop :=
  Code c m L s₀ (x s).2 [(x s).1]

namespace Code

variable {c : UnitContext} {m : Module} {L L' : List Label} {s s₁ s₂ s' : EmitState}
  {is js : List Instr}

/-- Code without labels. -/
theorem of_binds_eq_nil (hle : s.Le s')
    (hfits : ∀ n, c.firstTemp + s'.temps.length ≤ n → allFit m n L is = true)
    (hbinds : bindsAll is = []) : Code c m L s s' is :=
  ⟨hle, hfits, by simp [hbinds], by simp [hbinds]⟩

theorem nil (hle : s.Le s') : Code c m L s s' [] := of_binds_eq_nil hle (by simp) (by simp)

/-- Code behind code: the labels of the two were taken at different times. -/
theorem append (h : Code c m L s s₁ is) (h' : Code c m L s₁ s' js) :
    Code c m L s s' (is ++ js) := by
  have hle := h.le
  have hle' := h'.le
  refine ⟨hle.trans hle', fun n hn => ?_, ?_, fun l hl => ?_⟩
  · rw [allFit_append]
    exact ⟨h.fits n (Nat.le_trans (Nat.add_le_add_left hle'.temps _) hn), h'.fits n hn⟩
  · rw [bindsAll_append, nodup_append]
    refine ⟨h.nodup, h'.nodup, fun l hl l' hl' heq => ?_⟩
    have := (h.fresh l hl).2
    have := (h'.fresh l' hl').1
    subst heq
    omega
  · rw [bindsAll_append, mem_append] at hl
    obtain hl | hl := hl
    · exact ⟨(h.fresh l hl).1, Nat.lt_of_lt_of_le (h.fresh l hl).2 hle'.nextLabel⟩
    · exact ⟨Nat.le_trans hle.nextLabel (h'.fresh l hl).1, (h'.fresh l hl).2⟩

theorem cons (h : Code c m L s s₁ [i]) (h' : Code c m L s₁ s' js) : Code c m L s s' (i :: js) :=
  h.append h'

/-- Emission may hand out more before and after. -/
theorem weaken (h : Code c m L s₁ s₂ is) (hle : s.Le s₁) (hle' : s₂.Le s') :
    Code c m L s s' is := by
  have := (nil hle : Code c m L s s₁ []).append (h.append (nil hle'))
  simpa using this

/-- More labels around do no harm. -/
theorem of_labels_subset (h : Code c m L s s' is) (hsub : L ⊆ L') : Code c m L' s s' is :=
  ⟨h.le, fun n hn => allFit_mono hsub (h.fits n hn), h.nodup, h.fresh⟩

/-- Parts of the code in other code that binds no more labels. -/
theorem select (h : Code c m L s s' is)
    (hfits : ∀ n, c.firstTemp + s'.temps.length ≤ n → allFit m n L is = true →
      allFit m n L js = true)
    (hbinds : (bindsAll js).Sublist (bindsAll is)) : Code c m L s s' js :=
  ⟨h.le, fun n hn => hfits n hn (h.fits n hn), h.nodup.sublist hbinds,
  fun l hl => h.fresh l (hbinds.subset hl)⟩

/-- The same parts in other code. -/
theorem rebuild (h : Code c m L s s' is)
    (hfits : ∀ n, c.firstTemp + s'.temps.length ≤ n → allFit m n L is = true →
      allFit m n L js = true)
    (hbinds : bindsAll js = bindsAll is) : Code c m L s s' js :=
  h.select hfits (by rw [hbinds])

theorem unreachable (hle : s.Le s') (code : TrapCode) : Code c m L s s' [.unreachable code] :=
  of_binds_eq_nil hle (fun n _ => by simp) (by simp)

theorem nat (hle : s.Le s') (k : Nat) : Code c m L s s' [.nat k] :=
  of_binds_eq_nil hle (fun n _ => by simp [Instr.nat]) (by simp [Instr.nat])

theorem binary {y : Instr} (h : Code c m L s s₁ [x]) (h' : Code c m L s₁ s' [y]) (op : Target.BinOp)
    (ty : NumTy) :
    Code c m L s s' [.binary op ty x y] :=
  (h.append h').rebuild (fun n _ hfits => by simpa using hfits) (by simp)

theorem unary (h : Code c m L s s' [x]) (op : UnOp) (ty : NumTy) :
    Code c m L s s' [.unary op ty x] :=
  h.rebuild (fun n _ hfits => by simpa using hfits) (by simp)

theorem give (h : Code c m L s s' [x]) : Code c m L s s' [x.give] :=
  h.rebuild (fun n _ hfits => by simpa [Instr.give] using hfits) (by simp [Instr.give])

theorem newValue (hm : m.HasRecords) (h : Code c m L s s' [x]) (tag : ValueTag) :
    Code c m L s s' [.newValue tag x] := by
  refine h.rebuild (fun n _ hfits => ?_) ?_
  · simpa [fits_newValue hm] using hfits
  · simp [Instr.newValue, Instr.nat]

theorem goto {label : Label} (hle : s.Le s') (h : label ∈ L) : Code c m L s s' [.goto label] :=
  of_binds_eq_nil hle (fun n _ => by simpa [Instr.goto] using h) (by simp [Instr.goto])

/-- A block or loop whose label is taken before its body is emitted. -/
theorem bind {label : Label} (h : Code c m (label :: L) s₁ s' is)
    (hlabel : label.index = s.nextLabel) (hle : s.Le s₁) (hlt : s.nextLabel < s₁.nextLabel)
    (hi : i = .block label is ∨ i = .loop label is) : Code c m L s s' [i] := by
  have hbinds : bindsAll [i] = label :: bindsAll is := by obtain rfl | rfl := hi <;> simp
  refine ⟨hle.trans h.le, fun n hn => ?_, ?_, ?_⟩
  · obtain rfl | rfl := hi <;> simpa using h.fits n hn
  · rw [hbinds, nodup_cons]
    refine ⟨fun hmem => ?_, h.nodup⟩
    have := (h.fresh label hmem).1
    omega
  · rw [hbinds]
    have := h.le.nextLabel
    intro l hl
    obtain rfl | hl := mem_cons.mp hl
    · omega
    · have := h.fresh l hl
      omega

/-- A block whose label is taken behind its body. -/
theorem block (h : Code c m L s s' is) :
    CodeOf c m L s s' (EmitM.block is) := by
  have hrun : EmitM.block is s' = (.block ⟨s'.nextLabel⟩ is,
      { s' with nextLabel := s'.nextLabel + 1 }) := rfl
  have hinner := h.of_labels_subset (subset_cons_self ⟨s'.nextLabel⟩ L)
  rw [CodeOf, hrun]
  refine ⟨h.le.trans ⟨Nat.le_refl _, Nat.le_succ _⟩, fun n hn => ?_, ?_, ?_⟩
  · simpa using hinner.fits n hn
  · simp only [bindsAll_cons, Instr.binds, bindsAll_nil, append_nil, nodup_cons]
    refine ⟨fun hmem => ?_, h.nodup⟩
    have := (h.fresh _ hmem).2
    simp at this
  · simp only [bindsAll_cons, Instr.binds, bindsAll_nil, append_nil, forall_mem_cons]
    refine ⟨⟨h.le.nextLabel, Nat.lt_succ_self _⟩, fun l hl => ?_⟩
    have := h.fresh l hl
    exact ⟨this.1, Nat.lt_succ_of_lt this.2⟩

end Code

/-! ### The unit and its module -/

/-- The number of parameters that the function of a unit has. -/
def LoweringUnit.targetArity (u : LoweringUnit) : Nat :=
  (if u.effectful then if u.isDrive then 5 else 4 else 0) + u.params.length

namespace UnitContext

/-- The place of a source local is one of the places for them. -/
def Covers (c : UnitContext) (l : LocalId) : Prop := c.place l < c.firstTemp

/-- What a unit knows of the module that it is compiled for. -/
structure Fits (c : UnitContext) (m : Module) : Prop where
  records : m.HasRecords
  dispatch : ∃ g, m.functions[c.layout.dispatch]? = some g ∧ g.params.length = 2
  unit : ∀ (i : Nat) (u : LoweringUnit), c.program.units.units[i]? = some u →
    ∃ g, m.functions[i]? = some g ∧ g.params.length = u.targetArity
  own : c.program.units.units[c.index]? = some c.unit
  drive : c.unit.isDrive = true → c.unit.effectful = true
  effectful : ∀ s ∈ c.sites, c.unit.effectful = true
  env : ∀ s ∈ c.sites, ∀ ty, Assoc.get? c.layout.siteTypes s.id = some ty →
    ∃ t, m.types[ty]? = some t ∧ t.fields.length = 2 + s.captures.length ∧ ∀ i field, (i, field) ∈
      s.captures → i < t.fields.length
  saved : ∀ s ∈ c.sites, ∀ i field, (i, field) ∈ s.captures → ∀ l, field.source.local? =
    some l → c.Covers l
  handle : ∀ id h, c.program.units.handle? id = some h →
    (∃ b, c.program.units.units[h.bodyUnit]? = some b ∧ b.targetArity = 4 + h.bodyArgs.length) ∧
      ∃ d, c.program.units.units[h.driveUnit]? = some d ∧ d.targetArity = 5 + h.driveArgs.length

/-- What a unit knows of a node of its code. -/
structure FitsNode (c : UnitContext) (x : Expr) : Prop where
  locals : ∀ l ∈ x.form.usedLocals ++ x.form.declaredLocals, c.Covers l
  args : ∀ callee args d i u, x.form = .call callee args → callee.form = .fn d →
    c.program.units.functionUnit? d = some i → c.program.units.units[i]? = some u →
    args.length = u.params.length
  handle : x.form.isHandle = true → ∀ h, c.program.units.handle? x.id = some h →
    ∀ l ∈ h.bodyArgs ++ h.driveArgs, c.Covers l

end UnitContext

/-- What surrounds an expression in a unit: its labels are around it. -/
structure Scope.Fits (sc : Scope) (c : UnitContext) (L : List Label) : Prop where
  ranges : ∀ id, sc.hasSites id = true → c.unit.effectful = true
  loop : ∀ l, sc.loop = some l → l.exit ∈ L ∧ l.top ∈ L
  clause : ∀ cl, sc.clause = some cl → cl.top ∈ L

theorem Scope.Fits.of_labels_subset {sc : Scope} {c : UnitContext} {L L' : List Label}
    (h : sc.Fits c L) (hsub : L ⊆ L') : sc.Fits c L' :=
  ⟨h.ranges, fun l hl => ⟨hsub (h.loop l hl).1, hsub (h.loop l hl).2⟩,
  fun cl hcl => hsub (h.clause cl hcl)⟩

section Pieces

variable {c : UnitContext} {m : Module} {L : List Label} {s₀ s s' : EmitState} {n : Nat}

/-! ### Header -/

/-- Header and parameters come before the temporaries. -/
theorem UnitContext.headerLength_le (c : UnitContext) :
    c.headerLength + c.unit.params.length ≤ c.firstTemp :=
  Nat.le_add_right _ _

/-- Header fields are locals of an effectful unit; the outcome is one of a driver only. -/
theorem fits_get (m : Module) (L : List Label) (h : Header) (hn : c.firstTemp ≤ n)
    (heff : c.unit.effectful = true) (hdrive : h = .outcome → c.unit.isDrive = true) :
    h.get.fits m n L = true ∧ h.place < n := by
  have hheader := c.headerLength_le
  have hlt : h.place < n := by
    unfold UnitContext.headerLength at hheader
    rw [if_pos heff] at hheader
    cases h with
    | outcome =>
      rw [if_pos (hdrive rfl)] at hheader
      simp only [Header.place]
      omega
    | _ =>
      simp only [Header.place]
      split at hheader <;> omega
  exact ⟨by simpa [Header.get] using hlt, hlt⟩

@[simp]
theorem binds_get (h : Header) : h.get.binds = [] := by rw [Header.get, Instr.binds]

@[simp]
theorem binds_nat (k : Nat) : (Instr.nat k).binds = [] := by rw [Instr.nat, Instr.binds]

@[simp]
theorem fits_nat (k : Nat) : (Instr.nat k).fits m n L = true := by rw [Instr.nat, Instr.fits]

theorem fits_start (m : Module) (L : List Label) (hn : c.firstTemp ≤ n)
    (heff : c.unit.effectful = true) : Header.start.fits m n L = true := by
  simp [Header.start, Header.set, (fits_get m L .started hn heff (by simp)).2]

@[simp]
theorem binds_start : Header.start.binds = [] := by simp [Header.start, Header.set]

theorem SiteRange.fits_isActive (m : Module) (L : List Label) (hn : c.firstTemp ≤ n)
    (heff : c.unit.effectful = true) (r : Option SiteRange) :
    (SiteRange.isActive r).fits m n L = true ∧ (SiteRange.isActive r).binds = [] := by
  have hactive := (fits_get m L .active hn heff (by simp)).1
  cases r with
  | none => simp [SiteRange.isActive]
  | some r => simp [SiteRange.isActive, Instr.within, hactive]

theorem SiteRange.fits_guard (m : Module) (L : List Label) (hn : c.firstTemp ≤ n)
    (heff : c.unit.effectful = true) (r : Option SiteRange) :
    (SiteRange.guard r).fits m n L = true ∧ (SiteRange.guard r).binds = [] := by
  have hstarted := (fits_get m L .started hn heff (by simp)).1
  cases r with
  | none => exact ⟨hstarted, binds_get _⟩
  | some r =>
    obtain ⟨hactive, hbinds⟩ := SiteRange.fits_isActive m L hn heff (some r)
    simp [SiteRange.guard, hstarted, hactive, hbinds]

/-! ### Fresh names and complaints -/

/-- A local of the source has a place among the locals of the function. -/
theorem fits_localGet (hl : c.Covers l) (hn : c.firstTemp ≤ n) : (c.get l).fits m n L = true := by
  have := Nat.lt_of_lt_of_le hl hn
  simpa [UnitContext.get] using this

theorem code_get (hl : c.Covers l) : CodeOf c m L s s (EmitM.get c l) := by
  refine .of_binds_eq_nil ⟨Nat.le_refl _, Nat.le_refl _⟩ (fun n hn => ?_) ?_
  · rw [allFit_cons]
    exact ⟨fits_localGet hl (Nat.le_of_add_right_le hn), allFit_nil⟩
  · show bindsAll [c.get l] = []
    simp [UnitContext.get]

theorem code_getAll {ls : List LocalId} (hls : ∀ l ∈ ls, c.Covers l) :
    Code c m L s (EmitM.getAll c ls s).2 (EmitM.getAll c ls s).1 := by
  have hrun : (EmitM.getAll c ls s).1 = ls.map c.get := rfl
  refine .of_binds_eq_nil ⟨Nat.le_refl _, Nat.le_refl _⟩ (fun n hn => ?_) ?_
  · rw [hrun]
    clear hrun
    induction ls with
    | nil => simp
    | cons l ls ih =>
      rw [forall_mem_cons] at hls
      rw [map_cons, allFit_cons]
      exact ⟨fits_localGet hls.1 (Nat.le_of_add_right_le hn), ih hls.2 hn⟩
  · rw [hrun]
    clear hrun
    induction ls with
    | nil => simp
    | cons l ls ih =>
      rw [forall_mem_cons] at hls
      exact ih hls.2

theorem code_set {v : Instr} (hl : c.Covers l) (h : Code c m L s₀ s [v]) :
    CodeOf c m L s₀ s (EmitM.set c l v) := by
  have hrun : (EmitM.set c l v s).1 = .localSet (c.place l) v := rfl
  have hcode : Code c m L s₀ (EmitM.set c l v s).2 [v] :=
    h.weaken (.refl _) ⟨Nat.le_refl _, Nat.le_refl _⟩
  rw [CodeOf, hrun]
  refine hcode.rebuild (fun n hn hfits => ?_) (by simp)
  have := Nat.lt_of_lt_of_le hl (Nat.le_of_add_right_le hn)
  simpa [this] using hfits

theorem code_unsupported (hle : s₀.Le s) (span : Span) (what : String) :
    CodeOf c m L s₀ s (unsupported c span what) := by
  have hrun : (unsupported c span what s).1 = .unreachable .unreachable := rfl
  refine .of_binds_eq_nil (hle.trans ⟨Nat.le_refl _, Nat.le_refl _⟩) (fun n hn => ?_) ?_
  · simp [hrun]
  · simp [hrun]

/-- Code for what may be unsupported, in which case a trap stands there. -/
theorem code_orUnsupported {o : Option Instr} (hle : s₀.Le s)
    (h : ∀ i, o = some i → Code c m L s₀ s [i]) (span : Span) (what : String) :
    CodeOf c m L s₀ s (orUnsupported c span what o) := by
  cases o with
  | none => exact code_unsupported hle span what
  | some i => exact h i rfl

/-- Unboxing and boxing wrap the code of the bits, and so do value outcomes. -/
theorem Ty.fits_unbox? (h : t.unbox? bits = some i) :
    i.fits m n L = bits.fits m n L ∧ i.binds = bits.binds := by
  cases t <;> simp [Ty.unbox?] at h <;> subst h <;> simp

theorem Ty.fits_box? (h : t.box? value = some i) :
    i.fits m n L = value.fits m n L ∧ i.binds = value.binds := by
  cases t <;> simp [Ty.box?] at h <;> subst h <;> simp

theorem Ty.fits_valueOutcome? (hm : m.HasRecords) (h : t.valueOutcome? value = some i) :
    i.fits m n L = value.fits m n L ∧ i.binds = value.binds := by
  obtain ⟨tag, -, h⟩ := Option.bind_eq_some_iff.mp h
  obtain ⟨bits, hbits, h⟩ := Option.bind_eq_some_iff.mp h
  obtain rfl := Option.some.inj h
  obtain ⟨hfits, hbinds⟩ := fits_box? (m := m) (n := n) (L := L) hbits
  rw [fits_newValue hm, hfits]
  exact ⟨rfl, by simp [Instr.newValue, hbinds]⟩

theorem code_unbox (h : Code c m L s₀ s [bits]) (span : Span) :
    CodeOf c m L s₀ s (unbox c t bits span) := by
  refine code_orUnsupported h.le (fun i hi => ?_) span _
  obtain ⟨-, hbinds⟩ := Ty.fits_unbox? (m := m) (n := 0) (L := L) hi
  refine h.rebuild (fun n _ hfits => ?_) (by simp [hbinds])
  simpa [(Ty.fits_unbox? hi).1] using hfits

theorem code_box (h : Code c m L s₀ s [value]) (span : Span) :
    CodeOf c m L s₀ s (box c t value span) := by
  refine code_orUnsupported h.le (fun i hi => ?_) span _
  obtain ⟨-, hbinds⟩ := Ty.fits_box? (m := m) (n := 0) (L := L) hi
  refine h.rebuild (fun n _ hfits => ?_) (by simp [hbinds])
  simpa [(Ty.fits_box? hi).1] using hfits

theorem code_valueOutcome (hm : m.HasRecords) (h : Code c m L s₀ s [value]) (span : Span) :
    CodeOf c m L s₀ s (valueOutcome c t value span) := by
  refine code_orUnsupported h.le (fun i hi => ?_) span _
  obtain ⟨-, hbinds⟩ := Ty.fits_valueOutcome? (n := 0) (L := L) hm hi
  refine h.rebuild (fun n _ hfits => ?_) (by simp [hbinds])
  simpa [(Ty.fits_valueOutcome? hm hi).1] using hfits

/-! ### Sites -/

theorem UnitContext.mem_sites_of_site? {expr : ExprId} (h : c.site? expr = some site) :
    site ∈ c.sites := by
  have hmem := mem_of_getLast? h
  rw [mem_filter, Bool.and_eq_true] at hmem
  exact mem_filter.mpr ⟨hmem.1, hmem.2.1⟩

/-- The environment of a site is a record of its type. -/
theorem fits_siteEnv (hc : c.Fits m) (hsite : site ∈ c.sites) {handler : Instr}
    (hn : c.firstTemp ≤ n) (h : handler.fits m n L = true) (hbinds : handler.binds = []) :
    (c.siteEnv site handler).fits m n L = true ∧ (c.siteEnv site handler).binds = [] := by
  unfold UnitContext.siteEnv
  split
  · rename_i ty hty
    obtain ⟨t, ht, hlen, -⟩ := hc.env site hsite ty hty
    generalize hvalues : List.map _ site.captures = values
    -- the saved locals, one by one
    have hsaved : ∀ v ∈ values, v.fits m n L = true ∧ v.binds = [] := by
      intro v hv
      rw [← hvalues] at hv
      obtain ⟨⟨i, f⟩, hmem, rfl⟩ := mem_map.mp hv
      dsimp only
      split
      · rename_i l hl
        exact ⟨fits_localGet (hc.saved site hsite i f hmem l hl) hn, by simp [UnitContext.get]⟩
      · simp
    have hcount : values.length = site.captures.length := by rw [← hvalues, length_map]
    constructor
    · rw [Instr.fits, ht, Bool.and_eq_true, allFit_cons, allFit_cons]
      refine ⟨?_, fits_nat _, h, allFit_iff.mpr fun v hv => (hsaved v hv).1⟩
      simp [hlen, hcount, Nat.add_comm 2]
    · rw [Instr.binds, bindsAll_cons, bindsAll_cons, hbinds, binds_nat]
      exact bindsAll_eq_nil_iff.mpr fun v hv => (hsaved v hv).2
  · simp

/-- Going on in a callee calls the dispatcher with the environment and the bits. -/
theorem fits_resumeCallee (hc : c.Fits m) (hn : c.firstTemp ≤ n) (heff : c.unit.effectful = true) :
    c.resumeCallee.fits m n L = true ∧ c.resumeCallee.binds = [] := by
  obtain ⟨g, hg, hlen⟩ := hc.dispatch
  have henv := (fits_get m L .env hn heff (by simp)).1
  have hresume := (fits_get m L .resume hn heff (by simp)).1
  refine ⟨?_, by simp [UnitContext.resumeCallee, Instr.envHandler]⟩
  simp [UnitContext.resumeCallee, hg, hlen, fits_fields hc.records, henv, hresume]

/-- Code that runs a callee at a site, or enters it again. -/
theorem code_siteCall (hc : c.Fits m) {fresh : Instr} (h : Code c m L s₀ s [fresh])
    (expr : ExprId) (ty : Ty) (span : Span) :
    CodeOf c m L s₀ s (siteCall c expr ty span fresh) := by
  -- the temporary for the outcome, and the code that takes the value out of it
  let result := c.firstTemp + s.temps.length
  let s₁ : EmitState := { s with temps := s.temps ++ [Record.outcome.ref] }
  have hle : s.Le s₁ := ⟨by simp [s₁], Nat.le_refl _⟩
  have hlt {k : EmitState} (hk : s₁.Le k) {n : Nat} (hn : c.firstTemp + k.temps.length ≤ n) :
      result < n := by
    have := hk.temps
    simp only [s₁, length_append, length_singleton, result] at this ⊢
    omega
  have hresult {k : EmitState} (hk : s₁.Le k) {n : Nat} (hn : c.firstTemp + k.temps.length ≤ n) :
      (Instr.localGet result).fits m n L = true := by
    simpa using hlt hk hn
  have hbits : Code c m L s₁ s₁ [(Instr.localGet result).valueBits] := by
    refine .of_binds_eq_nil (.refl _) (fun n hn => ?_) (by simp [Instr.valueBits])
    simp [fits_valueBits hc.records, hlt (.refl _) hn]
  have hvalue : Code c m L s₁ _ [_] := code_unbox (t := ty) hbits span
  have hboth := h.append (hvalue.weaken hle (.refl _))
  generalize hu : unbox c ty (Instr.localGet result).valueBits span s₁ = u at hvalue hboth
  obtain ⟨value, s₂⟩ := u
  have hwrap (is : Instr → List Instr) (his : Code c m L s₀ s₂ (is value))
      (hrun : siteCall c expr ty span fresh s =
        EmitM.block (is (unbox c ty (Instr.localGet result).valueBits span s₁).1)
          (unbox c ty (Instr.localGet result).valueBits span s₁).2) :
      CodeOf c m L s₀ s (siteCall c expr ty span fresh) := by
    rw [CodeOf, hrun, hu]
    exact his.block
  cases hsite : (if c.unit.effectful then c.site? expr else none) with
  | some site =>
    refine hwrap (fun value => [
      .localSet result (.ifElse Header.started.get [fresh] [c.resumeCallee]), Header.start,
      .ifElse ((Instr.localGet result).hasStatus 1)
        [.give ((Instr.localGet result).rewrapped
        (c.siteEnv site ((Instr.localGet result).effectPart .env)))] [value]]) ?_
        (by unfold siteCall; rw [hsite]; rfl)
    obtain ⟨heff, hsite⟩ := Option.ite_none_right_eq_some.mp hsite
    have hmem := UnitContext.mem_sites_of_site? hsite
    refine hboth.rebuild (fun n hn hfits => ?_) ?_
    · have hn' : c.firstTemp ≤ n := Nat.le_of_add_right_le hn
      have hget := hresult hvalue.le hn
      have hpart : ((Instr.localGet result).effectPart .env).fits m n L = true := by
        rwa [fits_effectPart hc.records]
      have henv := (fits_siteEnv hc hmem hn' hpart (by simp [Instr.effectPart])).1
      have hstarted := (fits_get m L .started hn' heff (by simp)).1
      simp only [cons_append, nil_append, allFit_cons, allFit_nil, and_true] at hfits
      simp [Instr.give, hstarted, hfits, (fits_resumeCallee (L := L) hc hn' heff).1,
        fits_start m L hn' heff, fits_fields hc.records, hlt hvalue.le hn,
        (fits_rewrapped hc.records).mpr ⟨hget, henv⟩]
    · have henv := (fits_siteEnv (n := c.firstTemp + s₂.temps.length) hc hmem (Nat.le_add_right _ _)
        (by rw [fits_effectPart hc.records]; exact hresult hvalue.le (Nat.le_refl _))
        (by simp [Instr.effectPart]) :
        _ ∧ (c.siteEnv site ((Instr.localGet result).effectPart .env)).binds = []).2
      have hcallee := (fits_resumeCallee (m := m) (n := c.firstTemp)
        (L := L) hc (Nat.le_refl _) heff).2
      simp [Instr.give, Instr.rewrapped, Instr.hasStatus, Instr.i32Eq, Instr.status,
        Instr.effectPart, hcallee] at henv ⊢
      exact henv
  | none =>
    refine hwrap (fun value => [
      .localSet result fresh, .ifElse ((Instr.localGet result).hasStatus 1)
      [.unreachable .unreachable] [value]]) (hboth.rebuild (fun n hn hfits => ?_) ?_)
      (by unfold siteCall; rw [hsite]; rfl)
    · simp only [cons_append, nil_append, allFit_cons, allFit_nil, and_true] at hfits
      simp [hfits, fits_fields hc.records, hlt hvalue.le hn]
    · simp [Instr.hasStatus, Instr.i32Eq, Instr.status]

/-- Code that suspends with a request, or gives the answer. -/
theorem code_performAt (hc : c.Fits m) (h : Code c m L s₀ s args) (hsite : site ∈ c.sites)
    (ordinal : OpOrdinal) (ty : Ty) (span : Span) :
    CodeOf c m L s₀ s (performAt c site ordinal ty span args) := by
  have heff := hc.effectful site hsite
  have hbits : Code c m L s s [Header.resume.get] := by
    refine .of_binds_eq_nil (.refl _) (fun n hn => ?_) (by simp)
    simp [(fits_get m L .resume (Nat.le_of_add_right_le hn) heff
      (by simp)).1]
  have hresumed := h.append (code_unbox (t := ty) hbits span)
  have henv {n : Nat} (hn : c.firstTemp ≤ n) : (c.siteEnv site .refNull).fits m n L = true ∧
      (c.siteEnv site .refNull).binds = [] :=
    fits_siteEnv hc hsite hn (by simp) (by simp)
  have hrun : (performAt c site ordinal ty span args s).1 =
      .ifElse Header.started.get
        [.give (.structNew Record.effect.index
          [.nat 1, .nat ordinal.ordinal, .i64Const (.ofNat ordinal.effectId), .nat ordinal.opId,
          .nat ordinal.kind.code,
            .arrayNew args, c.siteEnv site .refNull, .nat 0])]
        [Header.start, (unbox c ty Header.resume.get span s).1] := rfl
  rw [CodeOf, hrun]
  refine hresumed.rebuild (fun n hn hfits => ?_) ?_
  · have hn' : c.firstTemp ≤ n := Nat.le_of_add_right_le hn
    have hstarted := (fits_get m L .started hn' heff (by simp)).1
    rw [allFit_append] at hfits
    simp only [allFit_cons, allFit_nil, and_true] at hfits
    have heffect : (Instr.structNew Record.effect.index
        [.nat 1, .nat ordinal.ordinal, .i64Const (.ofNat ordinal.effectId), .nat ordinal.opId,
        .nat ordinal.kind.code,
          .arrayNew args, c.siteEnv site .refNull, .nat 0]).fits m n L = true := by
      rw [fits_newEffect hc.records]
      simp [hfits, (henv hn').1]
    rw [allFit_cons, fits_ifElse_iff, allFit_cons, Instr.give, fits_ret_some_iff]
    exact ⟨⟨hstarted, ⟨heffect, allFit_nil⟩, by simp [hfits, fits_start m L hn'
      heff]⟩, allFit_nil⟩
  · have := (henv (n := c.firstTemp) (Nat.le_refl _)).2
    simp [Instr.give, this]

/-- The number of arguments of a call that starts a unit. -/
theorem length_freshArgs (args : List Instr) : (freshArgs args).length = 4 + args.length := by
  simp [freshArgs]
  omega

theorem allFit_freshArgs : allFit m n L (freshArgs args) = true ↔ allFit m n L args = true := by
  simp [freshArgs]

theorem bindsAll_freshArgs (args : List Instr) : bindsAll (freshArgs args) = bindsAll args := by
  simp [freshArgs]

/-- A call of a unit with the arguments that it takes. -/
theorem code_call (hc : c.Fits m) {i : Nat} {u : LoweringUnit}
    (hu : c.program.units.units[i]? = some u) (hlen : args.length = u.targetArity)
    (h : Code c m L s₀ s args) : Code c m L s₀ s [.call i args] := by
  obtain ⟨g, hg, hparams⟩ := hc.unit i u hu
  refine h.rebuild (fun n _ hfits => ?_) (by simp)
  simp [hg, hparams, hlen, hfits]

/-- Continuations are known in drivers only. -/
theorem isDrive_of_continuation? {k : LocalId} {info : ContinuationInfo}
    (h : c.continuation? k = some info) :
    c.unit.isDrive = true := by
  obtain ⟨kind, -, h⟩ := Option.bind_eq_some_iff.mp h
  unfold LoweringUnit.isDrive
  cases hkind : c.unit.kind with
  | drive handle => rfl
  | _ =>
    rw [hkind] at h
    cases h

/-- A resumption jumps back to the driver's loop, or runs the driver again at a site. -/
theorem code_resumeAt (hc : c.Fits m) {sc : Scope} (hsc : sc.Fits c L) {k : LocalId}
    {info : ContinuationInfo} (hk : c.Covers k) (hinfo : c.continuation? k = some info)
    (h : Code c m L s₀ s [bits]) (expr : ExprId) (ty : Ty) (span : Span) :
    CodeOf c m L s₀ s (resumeAt c sc expr ty span k info bits) := by
  have hdrive := isDrive_of_continuation? hinfo
  have heff := hc.drive hdrive
  obtain ⟨g, hg, hlen⟩ := hc.dispatch
  -- the resumed body, from the state behind the continuation
  have hget : Code c m L s (EmitM.get c k s).2 [] := .nil ⟨Nat.le_refl _, Nat.le_refl _⟩
  have hcont {n : Nat} (hn : c.firstTemp ≤ n) : (c.get k).fits m n L = true := fits_localGet hk hn
  have hresumed : Code c m L s₀ (EmitM.get c k s).2
      [.call c.layout.dispatch [(c.get k).effectPart .env, bits]] := by
    refine (h.append hget).rebuild (fun n hn hfits => ?_) ?_
    · simp only [append_nil, allFit_cons, allFit_nil, and_true] at hfits
      simp [hg, hlen, fits_effectPart hc.records, hcont (Nat.le_of_add_right_le hn),
        hfits]
    · simp [Instr.effectPart, UnitContext.get]
  cases hkind : info.kind with
  | tail =>
    cases hclause : sc.clause with
    | none =>
      have hrun : resumeAt c sc expr ty span k info bits s =
          unsupported c span "a tail resumption outside its clause" (EmitM.get c k s).2 := by
        unfold resumeAt
        rw [hkind, hclause]
        rfl
      rw [CodeOf, hrun]
      exact code_unsupported hresumed.le span _
    | some clause =>
      have hrun : resumeAt c sc expr ty span k info bits s =
          EmitM.block ((if info.needsGuard then (c.get k).countedOnce else []) ++
            [Header.outcome.set (.call c.layout.dispatch [(c.get k).effectPart .env, bits]),
            .goto clause.top]) (EmitM.get c k s).2 := by
        unfold resumeAt
        rw [hkind, hclause]
        rfl
      have htop := hsc.clause clause hclause
      rw [CodeOf, hrun]
      refine Code.block (hresumed.rebuild (fun n hn hfits => ?_) ?_)
      · have hn' : c.firstTemp ≤ n := Nat.le_of_add_right_le hn
        have hplace := (fits_get m L .outcome hn' heff fun _ => hdrive).2
        have hguard : allFit m n L (if info.needsGuard then (c.get k).countedOnce else []) =
            true := by
          split
          · exact (allFit_countedOnce hc.records).mpr (hcont hn')
          · exact allFit_nil
        simp only [allFit_cons, allFit_nil, and_true] at hfits
        rw [allFit_append]
        refine ⟨hguard, ?_⟩
        rw [allFit_cons, Header.set, fits_localSet_iff]
        exact ⟨⟨hplace, hfits⟩, by simp [Instr.goto, htop]⟩
      · have hguard : bindsAll (if info.needsGuard then (c.get k).countedOnce else []) = [] := by
          split
          · simp [Instr.countedOnce, UnitContext.get, Instr.effectPart]
          · exact bindsAll_nil
        simp [hguard, Header.set, Instr.goto]
  | resume =>
    have hrun : resumeAt c sc expr ty span k info bits s =
        siteCall c expr ty span
          (.call c.index (freshArgs (.call c.layout.dispatch [(c.get k).effectPart .env, bits] ::
            (EmitM.getAll c c.unit.params (EmitM.get c k s).2).1)))
          (EmitM.getAll c c.unit.params (EmitM.get c k s).2).2 := by
      unfold resumeAt
      rw [hkind]
      rfl
    have hparams : ∀ l ∈ c.unit.params, c.Covers l := by
      intro l hl
      unfold UnitContext.Covers UnitContext.place
      have hle := c.headerLength_le
      split
      · rename_i i hi
        have := (idxOf?_eq_some_iff.mp hi).1
        omega
      · rename_i hnone
        exact absurd hl (idxOf?_eq_none_iff.mp hnone)
    rw [CodeOf, hrun]
    refine code_siteCall hc (code_call hc hc.own ?_ ?_) expr ty span
    · have hlength : (EmitM.getAll c c.unit.params (EmitM.get c k s).2).1.length =
          c.unit.params.length :=
        length_map _
      rw [length_freshArgs, length_cons, hlength, LoweringUnit.targetArity, if_pos heff,
        if_pos hdrive]
      omega
    · refine (hresumed.append (code_getAll hparams)).rebuild (fun n _ hfits => ?_) ?_
      · rw [allFit_freshArgs]
        exact hfits
      · rw [bindsAll_freshArgs]
        rfl

/-! ### Operators and choices -/

theorem Literal.fits_compile (m : Module) (n : Nat) (L : List Label) (l : Literal) (ty : Ty) :
    (l.compile ty).fits m n L = true ∧ (l.compile ty).binds = [] := by
  cases l with
  | unit => simp [Literal.compile]
  | bool b => simp [Literal.compile]
  | int k => cases ty <;> simp [Literal.compile]
  | float x => cases ty <;> simp [Literal.compile]

/-- A built-in function keeps its arguments in temporaries. -/
theorem code_intrinsic (h : Code c m L s₀ s args) (which : Intrinsic) (ty : Ty) (span : Span) :
    CodeOf c m L s₀ s (which.compile c ty span args) := by
  have hgrown (tys : List ValTy) : Code c m L s₀ { s with temps := s.temps ++ tys } args :=
    h.weaken (.refl _) ⟨by simp, Nat.le_refl _⟩
  -- `min` and `max` differ in which of the two is taken
  have htwo (x y : Instr) (hargs : args = [x, y]) (first second : Nat)
      (hfirst : first ≤ c.firstTemp + s.temps.length + 1)
      (hsecond : second ≤ c.firstTemp + s.temps.length + 1) :
      Code c m L s₀ { s with temps := s.temps ++ [ty.valTy] ++ [ty.valTy] }
        [.localSet (c.firstTemp + s.temps.length) x,
        .localSet (c.firstTemp + (s.temps ++ [ty.valTy]).length) y,
          .ifElse (.binary .le ty.numTy (.localGet (c.firstTemp + s.temps.length))
            (.localGet (c.firstTemp + (s.temps ++ [ty.valTy]).length))) [.localGet first]
            [.localGet second]] := by
    have hboth := hgrown [ty.valTy, ty.valTy]
    rw [hargs] at hboth
    refine Code.rebuild (by simpa using hboth) (fun n hn hfits => ?_) (by simp)
    simp only [length_append, length_singleton] at hn
    simp only [allFit_cons, allFit_nil, and_true] at hfits
    simp [hfits]
    omega
  cases which with
  | abs =>
    obtain _ | ⟨x, _ | ⟨y, rest⟩⟩ := args
    · exact code_unsupported h.le span _
    · refine Code.block ((hgrown [ty.valTy]).rebuild (fun n hn hfits => ?_) ?_)
      · simp only [length_append, length_singleton] at hn
        simp only [allFit_cons, allFit_nil, and_true] at hfits
        simp [hfits, (Literal.fits_compile m n L (.int 0) ty).1]
        omega
      · simp [(Literal.fits_compile m 0 L (.int 0) ty).2]
    · exact code_unsupported h.le span _
  | min =>
    obtain _ | ⟨x, _ | ⟨y, _ | ⟨z, rest⟩⟩⟩ := args
    · exact code_unsupported h.le span _
    · exact code_unsupported h.le span _
    · exact Code.block (htwo x y rfl _ _ (by omega) (by simp; omega))
    · exact code_unsupported h.le span _
  | max =>
    obtain _ | ⟨x, _ | ⟨y, _ | ⟨z, rest⟩⟩⟩ := args
    · exact code_unsupported h.le span _
    · exact code_unsupported h.le span _
    · exact Code.block (htwo x y rfl _ _ (by simp; omega) (by omega))
    · exact code_unsupported h.le span _

/-- A choice holds the code of all alternatives. -/
theorem fits_chooseBy {selected : Nat} (hselected : selected < n) {otherwise : Instr}
    (hother : otherwise.fits m n L = true) {alternatives : List (List Instr)}
    (h : allFit m n L alternatives.flatten = true) :
    (chooseBy selected otherwise alternatives).fits m n L = true := by
  unfold chooseBy
  generalize 0 = k
  induction alternatives generalizing k with
  | nil => exact hother
  | cons code alternatives ih =>
    rw [flatten_cons, allFit_append] at h
    have hrest := ih h.2 (k + 1)
    rw [zipIdx_cons, foldr_cons]
    generalize List.foldr _ _ (alternatives.zipIdx (k + 1)) = rest at hrest ⊢
    simp [Instr.i32Eq, hselected, h.1, hrest]

theorem binds_chooseBy (selected : Nat) (otherwise : Instr) (alternatives : List (List Instr)) :
    (chooseBy selected otherwise alternatives).binds = bindsAll alternatives.flatten ++
      otherwise.binds := by
  unfold chooseBy
  generalize 0 = k
  induction alternatives generalizing k with
  | nil => simp
  | cons code alternatives ih =>
    have hrest := ih (k + 1)
    rw [zipIdx_cons, foldr_cons]
    generalize List.foldr _ _ (alternatives.zipIdx (k + 1)) = rest at hrest ⊢
    simp [Instr.i32Eq, hrest]

/-- The number of the part that holds the active site. -/
theorem fits_activePart (m : Module) (L : List Label) (hn : c.firstTemp ≤ n)
    (heff : c.unit.effectful = true) (sc : Scope) (parts : List Expr) :
    (sc.activePart parts).fits m n L = true ∧ (sc.activePart parts).binds = [] := by
  unfold Scope.activePart
  generalize 0 = k
  induction parts generalizing k with
  | nil => simp
  | cons part parts ih =>
    obtain ⟨hfits, hbinds⟩ := ih (k + 1)
    obtain ⟨hactive, hnone⟩ := SiteRange.fits_isActive m L hn heff (sc.range? part.id)
    rw [zipIdx_cons, foldr_cons]
    generalize List.foldr _ _ (parts.zipIdx (k + 1)) = rest at hfits hbinds ⊢
    simp only
    split
    · simp [Scope.isActive, hactive, hnone, hfits, hbinds]
    · exact ⟨hfits, hbinds⟩

/-- The number of the first arm that takes the value. -/
theorem fits_armByValue (m : Module) (L : List Label) {value : Nat} (hvalue : value < n) (ty : Ty)
    (arms : List Arm) :
    (armByValue value ty arms).fits m n L = true ∧ (armByValue value ty arms).binds = [] := by
  unfold armByValue
  generalize 0 = k
  induction arms generalizing k with
  | nil => simp
  | cons arm arms ih =>
    obtain ⟨hfits, hbinds⟩ := ih (k + 1)
    rw [zipIdx_cons, foldr_cons]
    simp only
    split
    · simp
    · simp
    · rename_i l _
      obtain ⟨hlit, hnone⟩ := Literal.fits_compile m n L l ty
      simp [hvalue, hfits, hbinds, hlit, hnone]

/-- A part that runs only if its site is active. -/
theorem code_guarded {guarded : Bool} (hguarded : guarded = true → c.unit.effectful = true)
    {plain : Instr} (sc : Scope) (e : Expr) (h : Code c m L s s' [plain]) :
    Code c m L s s' [if guarded then .ifElse (sc.guard e) [plain] [] else plain] := by
  split
  · rename_i hg
    refine h.rebuild (fun n hn hfits => ?_) ?_
    · have hn' : c.firstTemp ≤ n := Nat.le_of_add_right_le hn
      simpa [Scope.guard, (SiteRange.fits_guard m L hn' (hguarded hg)
        (sc.range? e.id)).1] using hfits
    · simp [Scope.guard, (SiteRange.fits_guard m L (Nat.le_refl c.firstTemp)
        (hguarded hg) (sc.range? e.id)).2]
  · exact h

/-- An arm that binds a local sets it before its body. -/
theorem code_armBinding {guarded : Bool} (hguarded : guarded = true → c.unit.effectful = true)
    {value : Nat} (hvalue : value < c.firstTemp + s.temps.length) (pattern : Pattern)
    (hpattern : ∀ l, pattern.declared? = some l → c.Covers l) :
    Code c m L s (armBinding c guarded value pattern s).2
      (armBinding c guarded value pattern s).1 := by
  cases pattern with
  | binding l =>
    have hget : Code c m L s s [.localGet value] := by
      refine .of_binds_eq_nil (.refl _) (fun n hn => ?_) (by simp)
      simp
      omega
    have hset := code_set (hpattern l rfl) hget
    have hrun : armBinding c guarded value (.binding l) s =
        (if guarded then [.ifElse Header.started.get [(EmitM.set c l (.localGet value) s).1] []]
          else [(EmitM.set c l (.localGet value) s).1], (EmitM.set c l (.localGet value) s).2) :=
            rfl
    rw [hrun]
    show Code c m L s _ (if guarded then _ else _)
    split
    · rename_i hg
      refine hset.rebuild (fun n hn hfits => ?_) (by simp)
      have hn' : c.firstTemp ≤ n := Nat.le_of_add_right_le hn
      simpa [(fits_get m L .started hn' (hguarded hg) (by simp)).1] using hfits
    · exact hset
  | _ => exact .nil (.refl _)

end Pieces

end Effectful
