import Effectful.Compiler.Compile
import Effectful.Proofs.EmittedUnit
/-!
# Emitted modules are well formed

The functions of a module are those of the units and those for the host.  If the code of a program
keeps to its functions and no two functions have handlers with the same id, all of them keep to the
module (`Program.isWellFormed_compile`).
-/

namespace Effectful

open List

open Target EmitM

variable {i : Nat} {u : LoweringUnit} {f : FnDecl} {m : Module} {p : Program}
  {config : CompilerConfig}

/-! ### What surrounds the functions of a module -/

/-- A module has what the functions of a lowered program use. -/
structure Target.Module.Serves (m : Module) (p : LoweredProgram) (l : ModuleLayout) : Prop where
  records : m.HasRecords
  imports : m.imports = HostFunction.imports
  params : ∀ (i : Nat) (u : LoweringUnit), p.units.units[i]? = some u →
    ((l.unitParams[i]?).getD []).length = u.params.length
  unit : ∀ (i : Nat) (u : LoweringUnit), p.units.units[i]? = some u →
    ∃ g, m.functions[i]? = some g ∧ g.params.length = u.targetArity
  dispatch : ∃ g, m.functions[l.dispatch]? = some g ∧ g.params.length = 2
  handOver : ∃ g, m.functions[l.handOver]? = some g ∧ g.params.length = 3

/-- The unit of a lowered program at a position, as it is compiled. -/
def LoweredProgram.unitContext (p : LoweredProgram) (a : EffectAnalysis) (m : EffectMetadata)
    (index : Nat) (unit : LoweringUnit) : UnitContext where
  program := p
  analysis := a
  metadata := m
  layout := .make p
  index := index
  unit := unit

section Emit

variable {p : LoweredProgram} {a : EffectAnalysis} {m : EffectMetadata} {size : Nat}

theorem LoweredProgram.types_emit : (p.emit a m size).module.types = (ModuleLayout.make p).types :=
  rfl

theorem LoweredProgram.functions_emit :
    (p.emit a m size).module.functions =
      p.units.units.zipIdx.map (fun u => (p.unitContext a m u.2 u.1).compile.1) ++
      (Glue.functions p m (.make p) (.new m.ordinals.length size)).1 := by
  show (p.units.units.zipIdx.map fun u => (p.unitContext a m u.2 u.1).compile).map (·.1) ++ _ = _
  rw [map_map]
  rfl

/-- The function of a unit stands where the unit does. -/
theorem LoweredProgram.getElem?_functions_emit (h : p.units.units[i]? = some u) :
    (p.emit a m size).module.functions[i]? = some (p.unitContext a m i u).compile.1 := by
  obtain ⟨hlt, -⟩ := List.getElem?_eq_some_iff.mp h
  rw [functions_emit, getElem?_append_left (by simpa using hlt), getElem?_map, getElem?_zipIdx, h]
  simp

theorem LoweredProgram.length_unitParams (h : p.units.units[i]? = some u) :
    (((ModuleLayout.make p).unitParams[i]?).getD []).length = u.params.length := by
  rw [(ModuleLayout.make_fits p).2.1, getElem?_map, h, Option.map_some, Option.getD_some]
  unfold ModuleLayout.paramTypes
  split <;> exact length_map _

/-- **A module serves its program.** -/
theorem LoweredProgram.serves_emit : (p.emit a m size).module.Serves p (.make p) := by
  obtain ⟨hfits, -, hdispatch, hhandOver⟩ := ModuleLayout.make_fits p
  have hglue (i : Nat) : (p.emit a m size).module.functions[p.units.units.length + i]? =
      (Glue.functions p m (.make p) (.new m.ordinals.length size)).1[i]? := by
    rw [functions_emit, getElem?_append_right (by simp)]
    simp
  refine ⟨?_, rfl, fun _ _ => length_unitParams, fun i u hu => ?_, ?_, ?_⟩
  · rw [Module.HasRecords, types_emit]
    exact hfits.records
  · exact ⟨_, getElem?_functions_emit hu, UnitContext.length_params_compile (length_unitParams hu)⟩
  · rw [hdispatch]
    exact ⟨_, hglue 0, rfl⟩
  · rw [hhandOver]
    exact ⟨_, hglue 1, rfl⟩

end Emit

/-! ### Functions for the host -/

section Glue

variable {p : LoweredProgram} {l : ModuleLayout} {n : Nat} {L : List Label}

theorem fits_call_iff {g : Target.Function} (h : m.functions[i]? = some g) {args : List Instr} :
    (Instr.call i args).fits m n L = true ↔ g.params.length = args.length ∧
      allFit m n L args = true := by
  rw [Instr.fits, h, Option.any_some, Bool.and_eq_true, beq_iff_eq]

namespace Glue

theorem fits_callImport_iff (hm : m.Serves p l) (f : HostFunction) {args : List Instr}
    (hlen : (HostFunction.imports[f.index]?).any (·.params.length == args.length) = true) :
    (f.call args).fits m n L = true ↔ allFit m n L args = true := by
  rw [HostFunction.call, Instr.fits, hm.imports, hlen, Bool.true_and]

@[simp]
theorem binds_callImport (f : HostFunction) (args : List Instr) :
    (f.call args).binds = bindsAll args := by
  rw [HostFunction.call, Instr.binds]

theorem fits_resumeDispatch (hm : m.Serves p l)
    (heff : ∀ (i : Nat) (u : LoweringUnit) (own : UnitLayout), p.units.units[i]? = some u →
      p.sites.layouts[i]? = some own → own.range?.isSome → u.effectful = true) :
    (resumeDispatch p l).fits m = true := by
  refine Function.fits_of_binds_eq_nil fun e he => ?_
  obtain he | he := mem_append.mp he
  · obtain ⟨⟨⟨u, own⟩, i⟩, hmem, he⟩ := mem_filterMap.mp he
    obtain ⟨range, hrange, rfl⟩ := Option.map_eq_some_iff.mp he
    rw [mem_zipIdx_iff_getElem?, getElem?_zip_eq_some] at hmem
    have hu := heff i u own hmem.1 hmem.2 (by simp [hrange])
    obtain ⟨g, hg, hgparams⟩ := hm.unit i u hmem.1
    have hlen := hm.params i u hmem.1
    have hfiller (t : ValTy) : t.filler.fits m 2 [] = true ∧ t.filler.binds = [] := by
      cases t <;> simp [ValTy.filler]
    have hfits := allFit_iff.mpr (forall_mem_map.mpr fun t (_ : t ∈ (l.unitParams[i]?).getD []) =>
      (hfiller t).1)
    have hbinds := bindsAll_eq_nil_iff.mpr
      (forall_mem_map.mpr fun t (_ : t ∈ (l.unitParams[i]?).getD []) => (hfiller t).2)
    have hsite : (arg 0).envSite.fits m 2 [] = true := by simp [fits_fields hm.records]
    -- the header of the unit, then fillers for its own parameters
    have hargs (header : List Instr) (hheader : allFit m 2 [] header = true)
        (hnone : bindsAll header = []) (harity : u.targetArity = header.length + u.params.length) :
        (Instr.ifElse ((arg 0).envSite.within range.1 range.2)
          [.give (.call i (header ++ ((l.unitParams[i]?).getD []).map ValTy.filler))] []).fits m 2
          [] = true ∧
        (Instr.ifElse ((arg 0).envSite.within range.1 range.2)
          [.give (.call i (header ++ ((l.unitParams[i]?).getD []).map ValTy.filler))]
          []).binds = [] := by
      constructor
      · rw [fits_ifElse_iff, allFit_cons, Instr.give, fits_ret_some_iff, fits_call_iff hg,
          allFit_append, hgparams, harity, length_append, length_map, hlen]
        exact ⟨by simp [Instr.within, hsite], ⟨⟨rfl, hheader, hfits⟩, allFit_nil⟩, allFit_nil⟩
      · simp [Instr.within, Instr.give, hnone, hbinds]
    have harity : u.targetArity = (if u.isDrive then 5 else 4) + u.params.length := by
      rw [LoweringUnit.targetArity, hu, if_pos rfl]
    have hentry := hargs
      ([.nat 0, (arg 0).envSite, arg 0, arg 1] ++ (if u.isDrive then [.refNull] else []))
      (by cases u.isDrive <;> simp [hsite]) (by cases u.isDrive <;> simp)
      (by rw [harity]; cases u.isDrive <;> rfl)
    exact hentry
  · obtain rfl := mem_singleton.mp he
    simp

theorem fits_handleOutcome (hm : m.Serves p l) (b : BufferLayout) :
    (handleOutcome b).fits m = true := by
  rw [Function.fits, Bool.and_eq_true, decide_eq_true_eq]
  constructor
  · simp [handleOutcome, writeValue, orOverflow, fits_callImport_iff hm, fits_fields hm.records,
      fits_valueBits hm.records, fits_effectPart hm.records,
      HostFunction.imports, HostFunction.index, Instr.goto, Instr.nat]
  · simp [handleOutcome, writeValue, orOverflow, Instr.goto, Instr.nat]

theorem fits_effectStatus (hm : m.Serves p l) : effectStatus.fits m = true := by
  refine Function.fits_of_binds_eq_nil ?_
  simp [effectStatus, fits_fields hm.records]

theorem fits_effectCont (hm : m.Serves p l) : effectCont.fits m = true := by
  refine Function.fits_of_binds_eq_nil ?_
  simp [effectCont, fits_fields hm.records]

theorem fits_readValue (hm : m.Serves p l) : readValue.fits m = true := by
  refine Function.fits_of_binds_eq_nil ?_
  simp [readValue, fits_callImport_iff hm, HostFunction.imports, HostFunction.index]

theorem fits_outcomeBits (hm : m.Serves p l) : outcomeBits.fits m = true := by
  refine Function.fits_of_binds_eq_nil ?_
  simp [outcomeBits, fits_valueBits hm.records]

theorem fits_readAnswer (hm : m.Serves p l) (metadata : EffectMetadata) :
    (readAnswer metadata (arg 0) (arg 1) (arg 2)).fits m 4 [] = true ∧
      (readAnswer metadata (arg 0) (arg 1) (arg 2)).binds = [] := by
  unfold readAnswer
  induction metadata.ordinals with
  | nil => simp
  | cons o ordinals ih =>
    rw [foldr_cons]
    generalize List.foldr _ _ ordinals = rest at ih
    cases o.decl.ret.tag? <;>
      simp [fits_effectPart hm.records, fits_callImport_iff hm, HostFunction.imports,
        HostFunction.index, Instr.i32Eq, ih]

theorem fits_resumeEffectful (hm : m.Serves p l) (metadata : EffectMetadata) :
    (resumeEffectful metadata l).fits m = true := by
  obtain ⟨g, hg, hgparams⟩ := hm.handOver
  obtain ⟨d, hd, hdparams⟩ := hm.dispatch
  obtain ⟨hanswer, hnone⟩ := fits_readAnswer hm metadata
  have hcounted : bindsAll (arg 0).countedOnce = [] := by simp [Instr.countedOnce]
  refine Function.fits_of_binds_eq_nil ?_
  simp [resumeEffectful, fits_effectPart hm.records, allFit_countedOnce hm.records, hg, hd,
    hgparams, hdparams, hanswer, hnone, hcounted, Instr.i32Eq]

theorem fits_initEffects (count : Nat) : (initEffects count).fits m = true := by
  refine Function.fits_of_binds_eq_nil fun i hi => ?_
  obtain hi | hi := mem_append.mp hi
  · obtain ⟨j, -, rfl⟩ := mem_map.mp hi
    simp
  · obtain rfl := mem_singleton.mp hi
    simp

theorem fits_readArg (hm : m.Serves p l) (position : Nat) (ty : Ty) :
    (readArg position ty).fits m 2 [] = true ∧ (readArg position ty).binds = [] := by
  unfold readArg
  extract_lets address tag bits
  have hbits : bits.fits m 2 [] = true ∧ bits.binds = [] := by
    simp [bits, address, fits_callImport_iff hm, HostFunction.imports, HostFunction.index]
  cases hunbox : ty.unbox? bits with
  | none => simp
  | some i =>
    obtain ⟨hfits, hbinds⟩ := Ty.fits_unbox? (m := m) (n := 2) (L := []) hunbox
    rw [Option.getD_some, hfits, hbinds]
    exact hbits

theorem fits_entry (hm : m.Serves p l) (hu : p.units.units[i]? = some u)
    (hdrive : u.isDrive = false) (hparams : u.params.length = f.params.length) :
    (entry l f i u.effectful).fits m = true := by
  obtain ⟨g, hg, hgparams⟩ := hm.handOver
  obtain ⟨d, hd, hdparams⟩ := hm.unit i u hu
  let args := f.paramTys.zipIdx.map fun q => readArg q.2 q.1
  have hlen : args.length = u.params.length := by simp [args, FnDecl.paramTys, hparams]
  have hargs : allFit m 2 [] args = true ∧ bindsAll args = [] := by
    rw [allFit_iff, bindsAll_eq_nil_iff]
    exact ⟨forall_mem_map.mpr fun q _ => (fits_readArg hm q.2 q.1).1,
      forall_mem_map.mpr fun q _ => (fits_readArg hm q.2 q.1).2⟩
  rw [LoweringUnit.targetArity, hdrive] at hdparams
  -- the call of the unit
  let call :=
    if u.effectful then Instr.call i (freshArgs args)
    else (f.ret.valueOutcome? (.call i args)).getD (.unreachable .unsupportedValue)
  have hcall : call.fits m 2 [] = true ∧ call.binds = [] := by
    simp only [call]
    split
    · rename_i heff
      rw [heff] at hdparams
      rw [fits_call_iff hd, hdparams, length_freshArgs, allFit_freshArgs, Instr.binds,
        bindsAll_freshArgs, hlen]
      exact ⟨⟨rfl, hargs.1⟩, hargs.2⟩
    · rename_i heff
      rw [if_neg heff] at hdparams
      have hplain : (Instr.call i args).fits m 2 [] = true ∧ (Instr.call i args).binds = [] := by
        rw [fits_call_iff hd, hdparams, Instr.binds, hlen]
        exact ⟨⟨Nat.zero_add _, hargs.1⟩, hargs.2⟩
      cases hvalue : f.ret.valueOutcome? (.call i args) with
      | none => simp
      | some v =>
        obtain ⟨hfits, hbinds⟩ := Ty.fits_valueOutcome? (n := 2) (L := []) hm.records hvalue
        rw [Option.getD_some, hfits, hbinds]
        exact hplain
  have hbody : (entry l f i u.effectful).body =
      [.ifElse (.binary .ne .i32 (.memLoad32 (arg 0)) (.nat f.paramTys.length))
      [.unreachable .arityMismatch] [],
        .call l.handOver [call, arg 0, arg 1]] := rfl
  refine Function.fits_of_binds_eq_nil ?_
  rw [hbody]
  have hlocals : (entry l f i u.effectful).params.length +
      (entry l f i u.effectful).locals.length = 2 := rfl
  rw [hlocals]
  simp [hg, hgparams, hcall]

end Glue

end Glue

/-! ### Units of a program -/

/-- The units and sites of a program in normal form. -/
def Program.lowered (p : Program) (a : EffectAnalysis) (m : EffectMetadata) : LoweredProgram :=
  ⟨p, p.lift a, p.siteTable a m (p.lift a)⟩

theorem UnitContext.covers_of_lt {c : UnitContext} (hf : c.function? = some f) {l : LocalId}
    (hl : l.index < f.locals.length) : c.Covers l := by
  have hlen : c.localTypes.length = f.locals.length := by simp [localTypes, hf]
  rw [Covers, place, firstTemp, hlen]
  split
  · rename_i i hi
    obtain ⟨hlt, -, -⟩ := findIdx?_eq_some_iff_getElem.mp hi
    omega
  · omega

namespace Program.Scoped

variable {a : EffectAnalysis} {md : EffectMetadata} {arity : DefId → Option Nat}
  {handles : DefId → ExprId → Prop}

/-- Every unit comes from a function of the program. -/
theorem exists_function (hp : p.Scoped arity handles) (hu : u ∈ (p.lift a).units) :
    ∃ f ∈ p.functions, p.function? u.owner = some f ∧ u.Belongs f a arity (handles f.id) := by
  obtain ⟨f, hf, hbelongs⟩ := hp.lift.1 u hu
  exact ⟨f, hf, by rw [hbelongs.owner, hp.distinct.function? hf], hbelongs⟩

/-- The unit of a function is what the name of the function says. -/
theorem eq_functionUnit (hp : p.Scoped arity handles) {d : DefId}
    (hd : (p.lift a).functionUnit? d = some i) (hu : (p.lift a).units[i]? = some u) :
    ∃ f ∈ p.functions, f.id = d ∧ u = functionUnit f a := by
  obtain ⟨_, hown, -⟩ := findIdx?_eq_some_iff_getElem.mp hd
  obtain ⟨_, hget⟩ := List.getElem?_eq_some_iff.mp hu
  rw [hget, Bool.and_eq_true, beq_iff_eq, beq_iff_eq] at hown
  obtain ⟨f, hf, hbelongs⟩ := hp.lift.1 u (mem_of_getElem? hu)
  exact ⟨f, hf, by rw [← hbelongs.owner, hown.1], hbelongs.function hown.2⟩

/-- A handler in a unit passes locals of the unit's function. -/
theorem handle_args (hp : p.Scoped arity handles) (hf : f ∈ p.functions) {id : ExprId}
    (hid : handles f.id id) {h : LiftedHandle} (hh : (p.lift a).handle? id = some h) :
    ∀ l ∈ h.bodyArgs ++ h.driveArgs, l.index < f.locals.length := by
  obtain ⟨g, hg, hid', hfinds⟩ := hp.lift.2 id h hh
  obtain rfl := hp.distinct.eq_of_id hg hf (hp.apart _ _ id hid' hid)
  exact hfinds.args

theorem fitsNode (hp : p.Scoped arity handles) (hu : (p.lift a).units[i]? = some u) {x : Expr}
    (hx : x ∈ u.body.walk) :
    ((p.lowered a md).unitContext a md i u).FitsNode x := by
  obtain ⟨f, hf, hfn, hbelongs⟩ := hp.exists_function (mem_of_getElem? hu)
  replace hfn : ((p.lowered a md).unitContext a md i u).function? = some f := hfn
  have hscope := hbelongs.scope.body x hx
  refine ⟨fun l hl => UnitContext.covers_of_lt hfn (hscope.locals l hl),
    fun callee args d j v hform hcallee hd hv => ?_,
    fun hhandle h hh l hl => UnitContext.covers_of_lt hfn
    (hp.handle_args hf (hscope.handle hhandle) hh l hl)⟩
  obtain ⟨g, hg, rfl, rfl⟩ := hp.eq_functionUnit hd hv
  exact hscope.args callee args g.id g.params.length hform hcallee (hp.arity_eq g hg)

/-- The sites of a unit in the table are those that were found in it. -/
theorem exists_sites (hp : p.Scoped arity handles) (hu : (p.lift a).units[i]? = some u)
    {site : EffectSite} (hs : site ∈ (p.siteTable a md (p.lift a)).unitSites i) :
    u.effectful = true ∧ ∃ f k, p.function? u.owner = some f ∧
      site ∈ u.sites f a md (p.lift a) i k := by
  obtain ⟨f, hf, hfn, -⟩ := hp.exists_function (mem_of_getElem? hu)
  obtain ⟨k, hsites, -⟩ := Program.unitSites_siteTable (p := p) (a := a) (m := md) hu
  rw [hsites, LoweringUnit.ownSites, hfn] at hs
  cases heff : u.effectful with
  | false => simp [heff] at hs
  | true => exact ⟨rfl, f, k, hfn, by simpa [heff] using hs⟩

/-- **Every unit of a program fits a module that serves the program.** -/
theorem fits_unitContext (hp : p.Scoped arity handles)
    (hm : m.Serves (p.lowered a md) (.make (p.lowered a md)))
    (htypes : m.types = (ModuleLayout.make (p.lowered a md)).types)
    (hu : (p.lift a).units[i]? = some u) :
    ((p.lowered a md).unitContext a md i u).Fits m := by
  obtain ⟨f, hf, hfn, hbelongs⟩ := hp.exists_function (mem_of_getElem? hu)
  let c := (p.lowered a md).unitContext a md i u
  replace hfn : c.function? = some f := hfn
  -- what a site saves
  have hcaptures (site : EffectSite) (hs : site ∈ c.sites) {j : Nat} {field : EnvField}
      (hj : (j, field) ∈ site.captures) : j < site.fields.length ∧ ∃ l, field.source.local? =
      some l ∧ c.Covers l := by
    obtain ⟨-, g, k, hg, hmem⟩ := hp.exists_sites hu hs
    refine LoweringUnit.captures_sites hmem
      (fun l hl => UnitContext.covers_of_lt hfn (hbelongs.scope.params l hl)) ?_ hj
    intro x hx
    have hnode : c.FitsNode x := hp.fitsNode hu hx
    exact ⟨fun l hl => hnode.locals l (mem_append_left _ hl), hnode.handle⟩
  have hfind (j : Nat) (v : LoweringUnit) (h : UnitAt 0 (p.lift a).units j v) :
      (p.lift a).units[j]? = some v := by
    obtain ⟨k, rfl, hk⟩ := h
    rwa [Nat.zero_add]
  refine ⟨hm.records, hm.dispatch, hm.unit, hu, fun hdrive => ?_,
    fun site hs => (hp.exists_sites hu hs).1, ?_, ?_, ?_⟩
  · refine hbelongs.effectful fun hkind => ?_
    simp [LoweredProgram.unitContext, LoweringUnit.isDrive, hkind] at hdrive
  · intro site hs ty hty
    obtain ⟨site', hs', hid, base, htype⟩ := (ModuleLayout.make_fits (p.lowered a md)).1.site _ _
      (Assoc.mem_of_get? hty)
    obtain rfl := Program.eq_of_id_siteTable hs' (mem_filter.mp hs).1 hid
    have hlength : (site'.envTy base).fields.length = 2 + site'.captures.length := by
      rw [EffectSite.envTy, length_append, length_map]
      rfl
    refine ⟨_, by rw [htypes]; exact htype, ?_, fun j field hj => ?_⟩
    · rw [hlength]
    · have := (hcaptures site' hs hj).1
      rw [hlength, EffectSite.captures, length_drop, length_map, length_zipIdx]
      have : EnvField.header.length = 2 := rfl
      omega
  · intro site hs j field hj l hl
    obtain ⟨-, l', hl', hcovers⟩ := hcaptures site hs hj
    rw [hl] at hl'
    rwa [Option.some.inj hl']
  · intro id h hh
    obtain ⟨g, -, -, hfinds⟩ := hp.lift.2 id h hh
    obtain ⟨b, hb, heff, hbody, hbargs⟩ := hfinds.body
    obtain ⟨d, hd, heff', hdrive, hdargs⟩ := hfinds.drive
    refine ⟨⟨b, hfind _ _ hb, ?_⟩, ⟨d, hfind _ _ hd, ?_⟩⟩
    · simp [LoweringUnit.targetArity, heff, hbody, hbargs]
    · simp [LoweringUnit.targetArity, heff', hdrive, hdargs]

theorem effectful_of_range? (hu : (p.lift a).units[i]? = some u) {own : UnitLayout}
    (hown : (p.siteTable a md (p.lift a)).layouts[i]? = some own)
    (hrange : own.range?.isSome) : u.effectful = true := by
  obtain ⟨k, -, hlayout⟩ := Program.unitSites_siteTable (p := p) (a := a) (m := md) hu
  rw [hlayout, Option.some.injEq] at hown
  subst hown
  cases heff : u.effectful with
  | true => rfl
  | false => simp [UnitLayout.range?, LoweringUnit.ownSites, heff] at hrange

theorem fits_entries (hp : p.Scoped arity handles)
    (hm : m.Serves (p.lowered a md) (.make (p.lowered a md))) :
    ∀ g ∈ (Glue.entries (p.lowered a md) (.make (p.lowered a md))).1, g.fits m = true := by
  intro g hg
  obtain ⟨⟨f, i⟩, hexported, hg⟩ := mem_filterMap.mp hg
  obtain ⟨f', hf', hexported⟩ := mem_filterMap.mp hexported
  simp only [Option.ite_none_right_eq_some, Option.some.injEq, Option.map_eq_some_iff,
    Prod.mk.injEq] at hexported hg
  obtain ⟨-, i', hi, rfl, rfl⟩ := hexported
  obtain ⟨-, rfl⟩ := hg
  -- the unit under the name of the function is its own
  obtain ⟨hlt, -, -⟩ := findIdx?_eq_some_iff_getElem.mp hi
  have hu : (p.lowered a md).units.units[i']? = some _ := getElem?_eq_getElem hlt
  obtain ⟨g, hg, hid, hunit⟩ := hp.eq_functionUnit hi hu
  obtain rfl := hp.distinct.eq_of_id hg hf' hid
  rw [hunit] at hu
  have heff : (((p.lowered a md).units.units[i']?).any (·.effectful)) =
      (functionUnit g a).effectful := by
    rw [hu, Option.any_some]
  rw [heff]
  exact Glue.fits_entry hm hu rfl rfl

theorem fits_glue (hp : p.Scoped arity handles)
    (hm : m.Serves (p.lowered a md) (.make (p.lowered a md))) (b : BufferLayout) :
    ∀ g ∈ (Glue.functions (p.lowered a md) md (.make (p.lowered a md)) b).1, g.fits m = true := by
  intro g hg
  obtain hg | hg := mem_append.mp hg
  · obtain hg | hg := mem_append.mp hg
    · simp only [mem_cons, not_mem_nil, or_false] at hg
      obtain rfl | rfl | rfl | rfl | rfl | rfl | rfl := hg
      · exact Glue.fits_resumeDispatch hm fun i u own hu hown => effectful_of_range? hu hown
      · exact Glue.fits_handleOutcome hm _
      · exact Glue.fits_effectStatus hm
      · exact Glue.fits_effectCont hm
      · exact Glue.fits_readValue hm
      · exact Glue.fits_outcomeBits hm
      · exact Glue.fits_resumeEffectful hm md
    · split at hg
      · obtain rfl := mem_singleton.mp hg
        exact Glue.fits_initEffects _
      · cases hg
  · exact hp.fits_entries hm g hg

/-- **The module of a program whose code keeps to its functions is well formed.** -/
theorem isWellFormed_emit (hp : p.Scoped arity handles) (size : Nat) :
    ((p.lowered a md).emit a md size).module.isWellFormed = true := by
  have hm : ((p.lowered a md).emit a md size).module.Serves (p.lowered a md)
      (.make (p.lowered a md)) :=
    LoweredProgram.serves_emit
  rw [Module.isWellFormed, Bool.and_eq_true]
  constructor
  · rw [all_eq_true, LoweredProgram.functions_emit]
    intro g hg
    obtain hg | hg := mem_append.mp hg
    · obtain ⟨⟨u, i⟩, hu, rfl⟩ := mem_map.mp hg
      rw [mem_zipIdx_iff_getElem?] at hu
      exact UnitContext.fits_compile (hp.fits_unitContext hm rfl hu) (fun x hx => hp.fitsNode hu hx)
        (hm.params i u hu)
    · exact hp.fits_glue hm _ g hg
  · rw [all_eq_true]
    rintro ⟨t, i⟩ ht
    rw [mem_zipIdx_iff_getElem?] at ht
    dsimp only
    unfold Module.extendsEarlier
    split
    · rename_i super hsuper
      obtain ⟨hlt, u, hu, hfields⟩ := (ModuleLayout.make_fits (p.lowered a md)).1.types i t
        super ht hsuper
      have htypes : ((p.lowered a md).emit a md size).module.types[super]? = some u := hu
      simp only [htypes, Option.any_some, Bool.and_eq_true, decide_eq_true_eq,
        isPrefixOf_iff_prefix]
      exact ⟨hlt, hfields⟩
    · rfl

end Program.Scoped

/-! ### Compiled programs -/

/-- The function that an expression calls by name and the number of arguments. -/
def Form.directCall? : Form → Option (DefId × Nat)
  | .call (.node _ (.fn target) _ _) args => some (target, args.length)
  | _ => none

namespace Program

/-- A program with distinct functions whose code mentions only locals of its function and calls
functions by name with as many arguments as they have parameters. -/
structure WellScoped (p : Program) : Prop where
  distinct : p.DistinctFunctions
  params : ∀ f ∈ p.functions, ∀ l ∈ f.params, l.index < f.locals.length
  locals : ∀ f ∈ p.functions, ∀ x ∈ f.body.walk, ∀ l ∈ x.form.usedLocals ++ x.form.declaredLocals,
    l.index < f.locals.length
  calls : ∀ f ∈ p.functions, ∀ x ∈ f.body.walk, ∀ c ∈ x.form.directCall?, ∀ g ∈ p.functions,
    g.id = c.1 → g.params.length = c.2

instance (p : Program) : Decidable p.WellScoped :=
  have : Decidable p.DistinctFunctions := inferInstanceAs (Decidable (List.Nodup _))
  decidable_of_iff
    (p.DistinctFunctions ∧ (∀ f ∈ p.functions, ∀ l ∈ f.params, l.index < f.locals.length) ∧
      (∀ f ∈ p.functions, ∀ x ∈ f.body.walk, ∀ l ∈ x.form.usedLocals ++ x.form.declaredLocals,
        l.index < f.locals.length) ∧
      ∀ f ∈ p.functions, ∀ x ∈ f.body.walk, ∀ c ∈ x.form.directCall?, ∀ g ∈ p.functions,
        g.id = c.1 → g.params.length = c.2)
    ⟨fun h => ⟨h.1, h.2.1, h.2.2.1, h.2.2.2⟩, fun h => ⟨h.distinct, h.params, h.locals, h.calls⟩⟩

/-- No two functions have handlers with the same id. -/
def HandlersApart (p : Program) : Prop :=
  ∀ f ∈ p.functions, ∀ g ∈ p.functions, ∀ x ∈ f.body.walk, ∀ y ∈ g.body.walk,
    x.form.isHandle = true → y.form.isHandle = true → x.id = y.id → f.id = g.id

instance (p : Program) : Decidable p.HandlersApart := by
  unfold HandlersApart
  infer_instance

def Handles (p : Program) (d : DefId) (id : ExprId) : Prop :=
  ∃ f ∈ p.functions, f.id = d ∧ ∃ x ∈ f.body.walk, x.form.isHandle = true ∧ x.id = id

theorem WellScoped.scoped (hp : p.WellScoped) (hapart : p.HandlersApart) :
    p.Scoped (fun d => (p.function? d).map (·.params.length)) p.Handles := by
  refine ⟨hp.distinct, fun f hf => ?_, hp.params, fun f hf x hx => ?_, ?_⟩
  · rw [hp.distinct.function? hf, Option.map_some]
  · refine ⟨hp.locals f hf x hx, fun callee args d k hform hcallee hk => ?_,
      fun hhandle => ⟨f, hf, rfl, x, hx, hhandle, rfl⟩⟩
    obtain ⟨g, hg, rfl⟩ := Option.map_eq_some_iff.mp hk
    have hid : g.id = d := by simpa using find?_some hg
    have hcall : x.form.directCall? = some (d, args.length) := by
      rw [hform]
      obtain ⟨id, form, ty, span⟩ := callee
      obtain rfl : form = .fn d := hcallee
      rfl
    exact (hp.calls f hf x hx _ hcall g (mem_of_find?_eq_some hg) hid).symm
  · rintro d d' id ⟨f, hf, rfl, x, hx, hxh, rfl⟩ ⟨g, hg, rfl, y, hy, hyh, hid⟩
    exact hapart f hf g hg x hx y hy hxh hyh hid.symm

theorem exists_lowered_of_lowerWith? {a : EffectAnalysis} {m : EffectMetadata}
    {lowered : LoweredProgram} (h : p.lowerWith? a m = some lowered) :
    ∃ p', p.normalize? a = some p' ∧ lowered = p'.lowered a m := by
  obtain ⟨p', hp', h⟩ := Option.bind_eq_some_iff.mp h
  exact ⟨p', hp', (Option.some.inj h).symm⟩

theorem check_of_lower {checked : Checked} {lowered : LoweredProgram}
    (h : p.lower config = .ok (checked, lowered)) :
    p.check config = .ok checked ∧ p.lowerWith? checked.analysis checked.metadata =
      some lowered := by
  unfold lower at h
  cases hc : p.check config with
  | error e => simp [hc, bind, Except.bind] at h
  | ok c =>
    simp only [hc, bind, Except.bind] at h
    split at h
    · cases h
    · rename_i l hl
      split at h
      · obtain ⟨rfl, rfl⟩ := Prod.mk.inj (Except.ok.inj h)
        exact ⟨rfl, hl⟩
      · cases h

theorem lower_of_compile {compiled : CompiledProgram} (h : p.compile config = .ok compiled) :
    p.lower config = .ok (compiled.checked, compiled.lowered) ∧
      ∃ emitted, compiled.lowered.emit compiled.checked.analysis compiled.checked.metadata
        config.bufferSize = emitted ∧ emitted.diagnostics = [] ∧
        compiled.module = emitted.module := by
  unfold compile at h
  cases hl : p.lower config with
  | error e => simp [hl, bind, Except.bind] at h
  | ok result =>
    simp only [hl, bind, Except.bind] at h
    split at h
    · cases h
    · split at h
      · rename_i hempty
        obtain rfl := Except.ok.inj h
        exact ⟨rfl, _, rfl, List.isEmpty_iff.mp hempty, rfl⟩
      · cases h

/-- What is compiled is the normal form, and its module comes without complaints. -/
theorem emit_of_compile {compiled : CompiledProgram}
    (h : p.compile config = .ok compiled) : ∃ p', p.normalize? compiled.checked.analysis = some p' ∧
      compiled.lowered = p'.lowered compiled.checked.analysis compiled.checked.metadata ∧
      ∃ emitted, compiled.lowered.emit compiled.checked.analysis compiled.checked.metadata
        config.bufferSize = emitted ∧ emitted.diagnostics = [] ∧
        compiled.module = emitted.module := by
  obtain ⟨hlower, hemitted⟩ := lower_of_compile h
  obtain ⟨p', hp', hlowered⟩ := exists_lowered_of_lowerWith? (check_of_lower hlower).2
  exact ⟨p', hp', hlowered, hemitted⟩

/-- What is compiled is the module of the normal form. -/
theorem exists_emit_of_compile {compiled : CompiledProgram}
    (h : p.compile config = .ok compiled) : ∃ p', p.normalize? compiled.checked.analysis = some p' ∧
      compiled.module = ((p'.lowered compiled.checked.analysis compiled.checked.metadata).emit
        compiled.checked.analysis compiled.checked.metadata config.bufferSize).module := by
  obtain ⟨p', hp', hlowered, _, rfl, -, hmodule⟩ := emit_of_compile h
  rw [hlowered] at hmodule
  exact ⟨p', hp', hmodule⟩

/-- **Compiled modules are well formed**, the search for a supertype needs no more steps than there
are types, and the subtype relation of a module is a partial order. -/
theorem isWellFormed_compile {p : Program} {config : CompilerConfig} {compiled : CompiledProgram}
    (hp : p.WellScoped) (hapart : p.HandlersApart) (h : p.compile config = .ok compiled) :
    compiled.module.isWellFormed = true ∧
      (∀ bound sub super, compiled.module.types.length ≤ bound →
        compiled.module.extendsWithin super bound sub = compiled.module.isSubtype sub super) ∧
      IsPartialOrder Nat fun sub super => compiled.module.isSubtype sub super = true := by
  obtain ⟨p', hp', hmodule⟩ := exists_emit_of_compile h
  have hwell : compiled.module.isWellFormed = true := by
    rw [hmodule]
    exact ((hp.scoped hapart).normalize hp').isWellFormed_emit _
  have hearlier := Module.ExtendsEarlier.of_isWellFormed hwell
  refine ⟨hwell, fun bound sub super hbound => ?_, ?_⟩
  · rw [Bool.eq_iff_iff, hearlier.extendsWithin_iff hbound, hearlier.isSubtype_iff]
  · exact hearlier.isPartialOrder

/-- Two functions that answer their own requests.  The handler of `main` has the id 7; it passes
nothing to its units, while that of `other` passes the local `r`. -/
def twoHandlers (second : ExprId) : Program where
  effects := [{ id := ⟨0⟩, name := "A", ops := [⟨"a", 0, [], .i32, .tail⟩] }]
  functions := [
    { id := ⟨1⟩, name := "main", params := [], ret := .i32, exported := true
      locals := [⟨"k", .continuation .i32 .i32⟩]
      body := .i32 7 (.handle (.i32 3 (.perform ⟨⟨0⟩, 0⟩ [] []))
        [.mk ⟨⟨0⟩, "a", none, [], ⟨0⟩, {}⟩
        (.i32 6 (.call (.node ⟨5⟩ (.var ⟨0⟩) (.continuation .i32 .i32) {})
          [.i32 4 (.literal (.int 1))]))] none) },
    { id := ⟨2⟩, name := "other", params := [⟨0⟩, ⟨1⟩, ⟨2⟩], ret := .i32
      locals := [⟨"p", .i32⟩, ⟨"q", .i32⟩, ⟨"r", .i32⟩, ⟨"k", .continuation .i32 .i32⟩]
      body := .node second
        (.handle (.i32 10 (.binary .add (.i32 8 (.perform ⟨⟨0⟩, 0⟩ [] []))
          (.i32 9 (.var ⟨2⟩))))
        [.mk ⟨⟨0⟩, "a", none, [], ⟨3⟩, {}⟩
        (.i32 13 (.call (.node ⟨12⟩ (.var ⟨3⟩) (.continuation .i32 .i32) {})
          [.i32 11 (.literal (.int 1))]))] none) .i32 {} }]

/-- With ids of their own for both handlers there are six units, and the module is well formed. -/
theorem isWellFormed_compile_twoHandlers :
    (twoHandlers ⟨14⟩).WellScoped ∧ (twoHandlers ⟨14⟩).HandlersApart ∧
      ∃ compiled, (twoHandlers ⟨14⟩).compile {} = .ok compiled ∧
        compiled.lowered.units.units.length = 6 ∧ compiled.module.isWellFormed = true ∧
        IsPartialOrder Nat fun sub super => compiled.module.isSubtype sub super = true := by
  have hscoped : (twoHandlers ⟨14⟩).WellScoped := by decide +kernel
  have hapart : (twoHandlers ⟨14⟩).HandlersApart := by decide +kernel
  have hunits : ((twoHandlers ⟨14⟩).compile {}).toOption.map (·.lowered.units.units.length) =
      some 6 := by decide +kernel
  refine ⟨hscoped, hapart, ?_⟩
  cases h : (twoHandlers ⟨14⟩).compile {} with
  | error e => simp [h, Except.toOption] at hunits
  | ok compiled =>
    obtain ⟨hwell, -, horder⟩ := isWellFormed_compile hscoped hapart h
    exact ⟨compiled, rfl, by simpa [h, Except.toOption] using hunits, hwell, horder⟩

/-- With one id for both handlers `main` calls the units of `other` with a local that it does not
have. -/
theorem not_isWellFormed_compile_shared_id :
    (twoHandlers ⟨7⟩).WellScoped ∧ (∀ f ∈ (twoHandlers ⟨7⟩).functions, f.params.Nodup) ∧
      ∃ compiled, (twoHandlers ⟨7⟩).compile {} = .ok compiled ∧ compiled.module.isWellFormed =
        false := by
  have hmodule : ((twoHandlers ⟨7⟩).compile {}).toOption.map (·.module.isWellFormed) =
      some false := by decide +kernel
  refine ⟨by decide +kernel, by decide +kernel, ?_⟩
  cases h : (twoHandlers ⟨7⟩).compile {} with
  | error e => simp [h, Except.toOption] at hmodule
  | ok compiled => exact ⟨compiled, rfl, by simpa [h, Except.toOption] using hmodule⟩

end Program

end Effectful
