import Effectful.Proofs.EmittedExpr
/-!
# Emitted units

A module has the record types of every module, then for each effectful unit a type of environments
and its extensions, one for each site (`ModuleLayout.make_fits`).  The function of a unit keeps to
such a module (`UnitContext.fits_compile`).
-/

namespace Effectful

open List

open Target EmitM

variable {sc : Scope} {top : Label}

/-! ### Types -/

/-- The type of the environments that are saved at a site. -/
def EffectSite.envTy (s : EffectSite) (base : Nat) : StructTy where
  name := s.envName
  supertype := some base
  fields := envHeader ++ s.captures.map fun (_, f) => ⟨f.name, f.ty.valTy, false⟩

/-- A list of types in which each extends only an earlier one, whose fields it starts with. -/
def TypesExtend (types : List StructTy) : Prop :=
  ∀ (i : Nat) (t : StructTy) (super : Nat), types[i]? = some t → t.supertype = some super →
    super < i ∧ ∃ u, types[super]? = some u ∧ u.fields <+: t.fields

theorem TypesExtend.append {types new : List StructTy} (h : TypesExtend types)
    (hnew : ∀ i t super, new[i]? = some t → t.supertype = some super →
      super < types.length + i ∧ ∃ u, (types ++ new)[super]? = some u ∧ u.fields <+: t.fields) :
    TypesExtend (types ++ new) := by
  intro i t super ht hsuper
  rw [getElem?_append] at ht
  split at ht
  · obtain ⟨hlt, u, hu, hfields⟩ := h i t super ht hsuper
    refine ⟨hlt, u, ?_, hfields⟩
    rw [getElem?_append_left (by omega), hu]
  · obtain ⟨hlt, hu⟩ := hnew _ t super ht hsuper
    exact ⟨by omega, hu⟩

/-- A layout whose environment types are those of the given sites. -/
structure ModuleLayout.Fits (l : ModuleLayout) (sites : List EffectSite) : Prop where
  records : recordTypes <+: l.types
  types : TypesExtend l.types
  site : ∀ id ty, (id, ty) ∈ l.siteTypes → ∃ s ∈ sites, s.id = id ∧ ∃ base, l.types[ty]? =
    some (s.envTy base)

namespace ModuleLayout

/-- The types of a unit extend the type of all environments. -/
theorem Fits.addUnit {l : ModuleLayout} {t : SiteTable} {sites : List EffectSite} (h : l.Fits sites)
    (unit : UnitLayout) (hsites : t.unitSites unit.unit ⊆ sites) :
    (l.addUnit t unit).Fits sites := by
  have htypes : (l.addUnit t unit).types = l.types ++ unitTypes unit l.types.length
      (t.unitSites unit.unit) := rfl
  have hbase : (l.types ++ unitTypes unit l.types.length (t.unitSites unit.unit))[l.types.length]? =
      some { name := unit.baseEnv, supertype := some Record.env.index, fields := envHeader } := by
    rw [getElem?_append_right (Nat.le_refl _), Nat.sub_self]
    rfl
  have hown (i : Nat) : (unitTypes unit l.types.length (t.unitSites unit.unit))[i + 1]? =
      ((t.unitSites unit.unit)[i]?).map fun s => s.envTy l.types.length := by
    rw [unitTypes, getElem?_cons_succ, getElem?_map]
    rfl
  refine ⟨?_, ?_, ?_⟩
  · rw [htypes]
    exact h.records.trans (prefix_append _ _)
  · rw [htypes]
    refine h.types.append fun i ty super hty hsuper => ?_
    have hpos : 0 < l.types.length := Nat.lt_of_lt_of_le (by decide) h.records.length_le
    cases i with
    | zero =>
      obtain rfl : _ = ty := Option.some.inj hty
      obtain rfl : Record.env.index = super := Option.some.inj hsuper
      obtain ⟨rest, hrest⟩ := h.records
      refine ⟨hpos, ⟨"$env", none, envHeader⟩, ?_, prefix_rfl⟩
      rw [← hrest]
      rfl
    | succ i =>
      rw [hown, Option.map_eq_some_iff] at hty
      obtain ⟨s, -, rfl⟩ := hty
      obtain rfl : l.types.length = super := Option.some.inj hsuper
      exact ⟨by omega, _, hbase, prefix_append _ _⟩
  · intro id ty hmem
    obtain hmem | hmem := mem_append.mp hmem
    · obtain ⟨s, hs, hid, base, hty⟩ := h.site id ty hmem
      refine ⟨s, hs, hid, base, ?_⟩
      obtain ⟨hlt, -⟩ := List.getElem?_eq_some_iff.mp hty
      rw [htypes, getElem?_append_left hlt, hty]
    · obtain ⟨⟨s, i⟩, hs, heq⟩ := mem_map.mp hmem
      obtain ⟨rfl, rfl⟩ := Prod.mk.inj heq
      rw [mem_zipIdx_iff_getElem?] at hs
      refine ⟨s, hsites (mem_of_getElem? hs), rfl, l.types.length, ?_⟩
      rw [htypes, getElem?_append_right (by omega)]
      have hindex : l.types.length + 1 + i - l.types.length = i + 1 := by omega
      rw [hindex, hown, hs]
      rfl

/-- **The layout of a module.** -/
theorem make_fits (p : LoweredProgram) : (make p).Fits p.sites.sites ∧
    (make p).unitParams = p.units.units.map (paramTypes p) ∧
    (make p).dispatch = p.units.units.length ∧ (make p).handOver = p.units.units.length + 1 := by
  refine List.foldlRecOn (motive := fun l : ModuleLayout => l.Fits p.sites.sites ∧
    l.unitParams = p.units.units.map (paramTypes p) ∧
    l.dispatch = p.units.units.length ∧ l.handOver = p.units.units.length + 1) _ _
    ⟨⟨prefix_rfl, ?_, by simp⟩, rfl, rfl, rfl⟩ ?_
  -- what one more unit keeps
  case refine_2 =>
    rintro l ⟨hfits, hlayout⟩ ⟨u, own⟩ -
    dsimp only
    split
    · exact ⟨hfits.addUnit own fun s hs => (mem_filter.mp hs).1, hlayout⟩
    · exact ⟨hfits, hlayout⟩
  intro i t super ht hsuper
  obtain _ | _ | _ | _ | i := i
  · obtain rfl := Option.some.inj ht
    cases hsuper
  · obtain rfl := Option.some.inj ht
    cases hsuper
  · obtain rfl := Option.some.inj ht
    obtain rfl := Option.some.inj hsuper
    exact ⟨by decide, ⟨"$outcome", none, [⟨"status", .i32, false⟩]⟩, rfl, by simp⟩
  · obtain rfl := Option.some.inj ht
    obtain rfl := Option.some.inj hsuper
    exact ⟨by decide, ⟨"$outcome", none, [⟨"status", .i32, false⟩]⟩, rfl, by simp⟩
  · cases ht

end ModuleLayout

/-! ### Units -/

section Units

variable {c : UnitContext} {m : Module} {L : List Label} {s : EmitState} {n : Nat}

/-- The code that restores what was saved at a site. -/
theorem fits_restore (hc : c.Fits m) {site : EffectSite} (hsite : site ∈ c.sites)
    (hn : c.firstTemp ≤ n) :
    allFit m n L (c.restore site) = true ∧ bindsAll (c.restore site) = [] := by
  have heff := hc.effectful site hsite
  have henv := (fits_get m L .env hn heff (by simp)).1
  unfold UnitContext.restore
  split
  · rename_i ty hty
    obtain ⟨t, ht, -, hfields⟩ := hc.env site hsite ty hty
    -- the fields, one by one
    have hall (is : List Instr) (his : ∀ i ∈ is, i.fits m n L = true ∧ i.binds = []) :
        allFit m n L is = true ∧ bindsAll is = [] := by
      induction is with
      | nil => exact ⟨allFit_nil, bindsAll_nil⟩
      | cons i is ih =>
        rw [forall_mem_cons] at his
        rw [allFit_cons, bindsAll_cons, his.1.2, nil_append]
        exact ⟨⟨his.1.1, (ih his.2).1⟩, (ih his.2).2⟩
    refine hall _ fun i hi => ?_
    obtain ⟨⟨field, f⟩, hf, hi⟩ := mem_filterMap.mp hi
    obtain ⟨l, hl, rfl⟩ := Option.map_eq_some_iff.mp hi
    have hplace := Nat.lt_of_lt_of_le (hc.saved site hsite field f hf l hl) hn
    refine ⟨?_, by simp [UnitContext.set]⟩
    rw [UnitContext.set, fits_localSet_iff, Instr.fits, ht, Option.any_some, Bool.and_eq_true,
      decide_eq_true_eq]
    exact ⟨hplace, hfields field f hf, henv⟩
  · exact ⟨allFit_nil, bindsAll_nil⟩

theorem fits_prologue (hc : c.Fits m) (hn : c.firstTemp ≤ n) (heff : c.unit.effectful = true) :
    allFit m n L c.prologue = true ∧ bindsAll c.prologue = [] := by
  have hstarted := (fits_get m L .started hn heff (by simp)).1
  have hactive := (fits_get m L .active hn heff (by simp)).1
  have hrestores (sites : List EffectSite) (hsites : sites ⊆ c.sites) :
      allFit m n L (sites.map fun s =>
        Instr.ifElse (.i32Eq Header.active.get (.nat s.id)) (c.restore s) []) = true ∧
      bindsAll (sites.map fun s =>
        Instr.ifElse (.i32Eq Header.active.get (.nat s.id)) (c.restore s) []) = [] := by
    induction sites with
    | nil => exact ⟨allFit_nil, bindsAll_nil⟩
    | cons site sites ih =>
      obtain ⟨hsite, hsites⟩ := cons_subset.mp hsites
      obtain ⟨hfits, hbinds⟩ := fits_restore (L := L) hc hsite hn
      obtain ⟨hrest, hnone⟩ := ih hsites
      rw [map_cons, allFit_cons, fits_ifElse_iff, bindsAll_cons, hnone, append_nil]
      refine ⟨⟨⟨?_, hfits, allFit_nil⟩, hrest⟩, ?_⟩
      · simp [Instr.i32Eq, hactive]
      · simp [Instr.i32Eq, hbinds]
  obtain ⟨hfits, hbinds⟩ := hrestores c.sites (List.Subset.refl _)
  unfold UnitContext.prologue
  simp only
  split
  · exact ⟨allFit_nil, bindsAll_nil⟩
  · simp only [allFit_cons, allFit_nil, fits_ifElse_iff, bindsAll_cons, bindsAll_nil, Instr.binds,
      Instr.eqz, hbinds]
    exact ⟨⟨⟨by simpa using hstarted, hfits, trivial⟩, trivial⟩, by simp⟩

theorem fits_clauseByOrdinal (hm : m.HasRecords) (houtcome : Header.outcome.get.fits m n L = true)
    (plan : HandlerPlan) (count : Nat) :
    (clauseByOrdinal c plan count).fits m n L = true ∧
      (clauseByOrdinal c plan count).binds = [] := by
  unfold clauseByOrdinal
  induction List.range count with
  | nil => simp
  | cons i is ih =>
    obtain ⟨hfits, hbinds⟩ := ih
    rw [foldr_cons]
    generalize List.foldr _ _ is = rest at hfits hbinds ⊢
    split
    · simp [Instr.i32Eq, fits_effectPart hm, houtcome, hbinds, hfits]
    · exact ⟨hfits, hbinds⟩

section Drive

variable (hc : c.Fits m) (hdrive : c.unit.isDrive = true)
include hc hdrive

theorem code_loadParams {ls : List LocalId} (hls : ∀ l ∈ ls, c.Covers l) (span : Span)
    (position : Nat) :
    Code c m L s (loadParams c span position ls s).2 (loadParams c span position ls s).1 := by
  induction ls generalizing position s with
  | nil => exact .nil (.refl _)
  | cons l ls ih =>
    rw [forall_mem_cons] at hls
    have hbits : Code c m L s s
        [((Header.outcome.get.effectPart .args).item position).valueBits] := by
      refine .of_binds_eq_nil (.refl _) (fun n hn => ?_)
        (by simp [Instr.valueBits, Instr.item, Instr.effectPart])
      have houtcome := (fits_get m L .outcome
        (Nat.le_of_add_right_le hn) (hc.drive hdrive) fun _ => hdrive).1
      rw [allFit_cons, fits_valueBits hc.records, Instr.item, Instr.fits,
        fits_effectPart hc.records, houtcome, Instr.fits]
      exact ⟨rfl, allFit_nil⟩
    exact (code_set hls.1 (code_unbox hbits span)).cons (ih hls.2 (position + 1))

theorem code_compileClause (hsc : sc.Fits c L) (htop : top ∈ L) (plan : ClausePlan)
    {clause : Clause} (hhead : ∀ l ∈ clause.head.continuation :: clause.head.params, c.Covers l)
    (hbody : clause.body.Emits c m) :
    Code c m L s (compileClause c sc top plan clause s).2
      (compileClause c sc top plan clause s).1 := by
  rw [forall_mem_cons] at hhead
  have heff := hc.drive hdrive
  have hparams := code_loadParams (L := L) (s := s) hc hdrive hhead.2 clause.head.span 0
  let params := (loadParams c clause.head.span 0 clause.head.params s).1
  let s₁ := (loadParams c clause.head.span 0 clause.head.params s).2
  have houtcome : Code c m L s₁ s₁ [Header.outcome.get] := by
    refine .of_binds_eq_nil (.refl _) (fun n hn => ?_) (by simp)
    simpa using (fits_get m L .outcome
      (Nat.le_of_add_right_le hn) heff fun _ => hdrive).1
  have hcont := code_set hhead.1 houtcome
  let s₂ := (EmitM.set c clause.head.continuation Header.outcome.get s₁).2
  let cont := (EmitM.set c clause.head.continuation Header.outcome.get s₁).1
  have hload : Code c m L s s₂ [.ifElse Header.started.get (cont :: params) []] := by
    refine (hparams.append hcont).rebuild (fun n hn hfits => ?_) ?_
    · have hstarted :=
        (fits_get m L .started (Nat.le_of_add_right_le hn) heff
          (by simp)).1
      rw [allFit_append, allFit_cons] at hfits
      rw [allFit_cons, fits_ifElse_iff, allFit_cons]
      exact ⟨⟨hstarted, ⟨hfits.2.1, hfits.1⟩, allFit_nil⟩, allFit_nil⟩
    · have hplain : cont.binds = [] := by
        show (Instr.localSet (c.place clause.head.continuation) Header.outcome.get).binds = []
        simp
      simp only [bindsAll_cons, bindsAll_nil, bindsAll_append, Instr.binds, binds_get, nil_append,
        append_nil]
      show cont.binds ++ bindsAll params = bindsAll params ++ cont.binds
      rw [hplain, nil_append, append_nil]
  have hinner (kind : ResumeKind) : Scope.Fits { sc with clause := some ⟨kind, top⟩ } c L := by
    refine ⟨hsc.ranges, hsc.loop, fun cl hcl => ?_⟩
    obtain rfl := Option.some.inj hcl
    exact htop
  unfold compileClause
  cases plan.kind with
  | resume =>
    have hresult := code_valueOutcome (t := c.unit.result) hc.records
      (hbody L _ s₂ (hinner .resume)) clause.body.span
    exact hload.cons hresult.give
  | tail => exact (hload.append (hbody L _ s₂ (hinner .tail))).append (.unreachable (.refl _) _)

theorem code_compileClauses (hsc : sc.Fits c L) (htop : top ∈ L) (plan : HandlerPlan)
    {clauses : List Clause}
    (hheads : ∀ clause ∈ clauses, ∀ l ∈ clause.head.continuation :: clause.head.params, c.Covers l)
    (hbodies : ∀ clause ∈ clauses, clause.body.Emits c m) (position : Nat) :
    Code c m L s (compileClauses c sc top plan position clauses s).2
      (compileClauses c sc top plan position clauses s).1.flatten := by
  induction clauses generalizing position s with
  | nil => exact .nil (.refl _)
  | cons clause clauses ih =>
    rw [forall_mem_cons] at hheads hbodies
    have hcons (code : List Instr) (s' : EmitState) (hcode : Code c m L s s' code) :
        Code c m L s (compileClauses c sc top plan (position + 1) clauses s').2
          (code :: (compileClauses c sc top plan (position + 1) clauses s').1).flatten := by
      exact hcode.append (ih hheads.2 hbodies.2 (position + 1))
    rw [compileClauses]
    cases plan.clause? position with
    | none => exact hcons _ _ (.unreachable (.refl _) _)
    | some p => exact hcons _ _ (code_compileClause hc hdrive hsc htop p hheads.1 hbodies.1)

/-- Code that passes a request on, or goes round again with its answer. -/
theorem fits_forwardAt (htop : top ∈ L) {site : EffectSite} (hsite : site ∈ c.sites)
    (hn : c.firstTemp ≤ n) :
    (forwardAt c top site).fits m n L = true ∧ (forwardAt c top site).binds = [] := by
  have heff := hc.drive hdrive
  have hstarted := (fits_get m L .started hn heff (by simp)).1
  obtain ⟨houtcome, hplace⟩ := fits_get m L .outcome hn heff fun _ => hdrive
  have hpart : (Header.outcome.get.effectPart .env).fits m n L = true := by
    rwa [fits_effectPart hc.records]
  obtain ⟨henv, hnone⟩ := fits_siteEnv hc hsite hn hpart (by simp [Instr.effectPart])
  obtain ⟨hcallee, hnone'⟩ := fits_resumeCallee (L := L) hc hn heff
  have hwrapped := (fits_rewrapped hc.records).mpr ⟨houtcome, henv⟩
  constructor
  · simp [forwardAt, Instr.give, Instr.goto, Header.set, hstarted, hwrapped, hplace, hcallee, htop,
      fits_start m L hn heff]
  · simp [forwardAt, Instr.give, Instr.goto, Header.set, Instr.rewrapped, Instr.effectPart,
      hnone'] at hnone ⊢
    exact hnone

theorem code_compileDrive (hsc : sc.Fits c []) (plan : HandlerPlan) {clauses : List Clause}
    (hheads : ∀ clause ∈ clauses, ∀ l ∈ clause.head.continuation :: clause.head.params, c.Covers l)
    (hbodies : ∀ clause ∈ clauses, clause.body.Emits c m) :
    Code c m [] s (compileDrive c sc plan clauses s).2 (compileDrive c sc plan clauses s).1 := by
  have heff := hc.drive hdrive
  let top : Label := ⟨s.nextLabel⟩
  let selected := c.firstTemp + s.temps.length
  let s₁ : EmitState := { s with nextLabel := s.nextLabel + 1, temps := s.temps ++ [.i32] }
  have hclauses := code_compileClauses (L := [top]) (s := s₁) hc hdrive
    (hsc.of_labels_subset (nil_subset _)) mem_cons_self plan hheads hbodies 0
  generalize halternatives : compileClauses c sc top plan 0 clauses s₁ = compiled at hclauses
  obtain ⟨alternatives, s₂⟩ := compiled
  have hselected : selected < c.firstTemp + s₂.temps.length := by
    have := hclauses.le.temps
    simp only [s₁, length_append, length_singleton] at this
    omega
  let round (forward : Instr) (alternatives : List (List Instr)) : List Instr := [
    .ifElse Header.started.get [.ifElse (Header.outcome.get.hasStatus 0)
    [.give Header.outcome.get] []] [],
    .localSet selected (.ifElse Header.started.get [clauseByOrdinal c plan clauses.length]
      [sc.activePart (clauses.map Clause.body)]),
    chooseBy selected forward alternatives]
  -- one round, whatever happens to a request without a clause
  have hround (forward : Instr) (hforward : ∀ n, c.firstTemp ≤ n → forward.fits m n [top] = true ∧
      forward.binds = []) :
      Code c m [top] s₁ s₂ (round forward alternatives) := by
    refine hclauses.rebuild (fun n hn hfits => ?_) ?_
    · have hn' : c.firstTemp ≤ n := Nat.le_of_add_right_le hn
      have hstarted := (fits_get m [top] .started hn' heff (by simp)).1
      have houtcome := (fits_get m [top] .outcome hn' heff fun _ => hdrive).1
      have hordinal := (fits_clauseByOrdinal (c := c) hc.records houtcome plan clauses.length).1
      have hactive := (fits_activePart m [top] hn' heff sc
        (clauses.map Clause.body)).1
      have hplace := Nat.lt_of_lt_of_le hselected hn
      simp [round, Instr.give, hstarted, houtcome, fits_fields hc.records, hplace,
        hordinal, hactive, fits_chooseBy hplace (hforward n hn').1 hfits]
    · have houtcome :=
        (fits_get m [top] .outcome (Nat.le_refl c.firstTemp) heff
          fun _ => hdrive).1
      simp [round, Instr.give, Instr.hasStatus, Instr.i32Eq, Instr.status, binds_chooseBy,
        (hforward _ (Nat.le_refl _)).2,
        (fits_clauseByOrdinal (c := c) hc.records houtcome plan clauses.length).2,
        (fits_activePart m [top] (Nat.le_refl c.firstTemp) heff sc
        (clauses.map Clause.body)).2]
  have hloop (forward : Instr) (hforward : ∀ n, c.firstTemp ≤ n → forward.fits m n [top] = true ∧
      forward.binds = [])
      (hrun : compileDrive c sc plan clauses s =
        ([.loop top (round forward (compileClauses c sc top plan 0 clauses s₁).1),
        .unreachable .unreachable],
          (compileClauses c sc top plan 0 clauses s₁).2)) :
      Code c m [] s (compileDrive c sc plan clauses s).2 (compileDrive c sc plan clauses s).1 := by
    rw [hrun, halternatives]
    exact ((hround forward hforward).bind rfl ⟨by simp [s₁], by simp [s₁]⟩ (by simp [s₁])
      (.inr rfl)).cons (.unreachable (.refl _) .unreachable)
  cases hsite : c.site? c.unit.body.id with
  | none =>
    refine hloop (.unreachable .unreachable) (fun n _ => by simp) ?_
    unfold compileDrive
    rw [hsite]
    rfl
  | some site =>
    refine hloop (forwardAt c top site) (fun n hn => ?_) ?_
    · exact fits_forwardAt hc hdrive mem_cons_self (UnitContext.mem_sites_of_site? hsite) hn
    · unfold compileDrive
      rw [hsite]
      rfl

end Drive

/-- **The code of a unit keeps to the module.** -/
theorem UnitContext.code_body (hc : c.Fits m) (hnodes : ∀ x ∈ c.unit.body.walk, c.FitsNode x) :
    Code c m [] {} (c.body {}).2 (c.body {}).1 := by
  let sc : Scope := { ranges := c.ranges }
  have hsc : sc.Fits c [] := by
    refine ⟨fun id hid => ?_, fun _ h => absurd h (by simp [sc]),
      fun _ h => absurd h (by simp [sc])⟩
    by_contra heff
    simp [sc, Scope.hasSites, Scope.range?, UnitContext.ranges, heff] at hid
  have hwhole := Expr.code_compile hc hnodes
  unfold UnitContext.body
  cases heff : c.unit.effectful with
  | false => exact hwhole [] sc {} hsc
  | true =>
    -- the prologue in front of any code
    let s : EmitState := (touch c c.savedLocals {}).2
    have hprologue (is : List Instr) (s' : EmitState) (h : Code c m [] s s' is) : Code c m [] {} s'
        (c.prologue ++ is) := by
      have hfirst : Code c m [] {} s c.prologue := by
        refine .of_binds_eq_nil ⟨Nat.le_refl _, Nat.le_refl _⟩ (fun n hn => ?_) ?_
        · exact (fits_prologue hc (Nat.le_of_add_right_le hn) heff).1
        · exact (fits_prologue (L := []) hc (Nat.le_refl _) heff).2
      exact hfirst.append h
    have hunreachable : Code c m [] s s [.unreachable .unreachable] := .unreachable (.refl _) _
    have hplain := (code_valueOutcome (t := c.unit.result) hc.records (hwhole [] sc s hsc)
      c.unit.body.span)
    cases hkind : c.unit.kind with
    | function => exact hprologue _ _ hplain
    | body handle => exact hprologue _ _ hplain
    | drive handle =>
      have hdrive : c.unit.isDrive = true := by
        unfold LoweringUnit.isDrive
        rw [hkind]
      cases hform : c.unit.body.form with
      | handle body clauses finalizer =>
        dsimp only
        cases c.analysis.handler? handle with
        | none => exact hprologue _ _ hunreachable
        | some plan =>
          have hroot := hnodes c.unit.body (Expr.self_mem_walk _)
          refine hprologue _ _ (code_compileDrive hc hdrive hsc plan ?_ ?_)
          · intro clause hclause l hl
            refine hroot.locals l (mem_append_right _ ?_)
            rw [hform]
            exact mem_flatMap.mpr ⟨clause, hclause, hl⟩
          · intro clause hclause
            have hmem : clause.body ∈ c.unit.body.form.children := by
              rw [hform]
              exact mem_cons_of_mem _ (mem_append_left _ (mem_map_of_mem hclause))
            exact Expr.code_compile hc
              fun x hx => hnodes x (Expr.walk_subset_of_mem_children hmem hx)
      | _ => exact hprologue _ _ hunreachable

/-- The parameters of the function of a unit, if the layout tells those of the unit itself. -/
theorem UnitContext.length_params_compile
    (hparams : ((c.layout.unitParams[c.index]?).getD []).length = c.unit.params.length) :
    c.compile.1.params.length = c.unit.targetArity := by
  show ((if c.unit.effectful then Header.types c.unit.isDrive else []) ++ _).length = _
  rw [length_append, hparams, LoweringUnit.targetArity]
  split
  · cases c.unit.isDrive <;> rfl
  · rfl

/-- **The function of a unit keeps to the module.** -/
theorem UnitContext.fits_compile (hc : c.Fits m) (hnodes : ∀ x ∈ c.unit.body.walk, c.FitsNode x)
    (hparams : ((c.layout.unitParams[c.index]?).getD []).length = c.unit.params.length) :
    c.compile.1.fits m = true := by
  have hcode := c.code_body hc hnodes
  rw [Function.fits, Bool.and_eq_true, decide_eq_true_eq, c.length_params_compile hparams]
  refine ⟨hcode.fits _ ?_, hcode.nodup⟩
  show c.firstTemp + (c.body {}).2.temps.length ≤
    c.headerLength + c.unit.params.length + (c.localTypes ++ (c.body {}).2.temps).length
  rw [length_append, UnitContext.firstTemp]
  omega

end Units

end Effectful
