import Effectful.Proofs.MachineEval
import Effectful.Proofs.SiteRanges
/-!
# Saved locals come back

The environment of a site holds the locals that are live behind the site, each in the field that its
position in `EffectSite.liveAfter` gives.  `UnitContext.siteEnv` writes the fields and
`UnitContext.prologue` reads them; both go through the places of locals, which are the same for both
and different for different locals (`UnitContext.place_inj`).  So a unit that is entered again at a
site finds the locals as they were (`Program.saved_locals_come_back`).
-/

namespace Effectful

open List

open Target

/-! ### Places -/

namespace UnitContext

variable {c : UnitContext}

/-- **Different locals have different places.** -/
theorem place_inj {l l' : LocalId} (h : c.place l = c.place l') : l = l' := by
  have hparam {l : LocalId} {i : Nat} (hi : c.unit.params.idxOf? l = some i) :
      i < c.unit.params.length ∧ c.unit.params[i]? = some l := by
    obtain ⟨hlt, heq, -⟩ := findIdx?_eq_some_iff_getElem.mp hi
    exact ⟨hlt, by rw [getElem?_eq_getElem hlt, beq_iff_eq.mp heq]⟩
  unfold place at h
  split at h <;> split at h
  · rename_i i hi _ j hj
    obtain rfl : i = j := by omega
    have hsame := (hparam hi).2
    rw [(hparam hj).2] at hsame
    exact (Option.some.inj hsame).symm
  · rename_i i hi _ _
    have := (hparam hi).1
    omega
  · rename_i _ _ j hj
    have := (hparam hj).1
    omega
  · have hindex : l.index = l'.index := by omega
    cases l
    exact congrArg _ hindex

theorem headerLength_le_place (l : LocalId) : c.headerLength ≤ c.place l := by
  unfold place
  split <;> omega

end UnitContext

/-! ### Environment types -/

namespace ModuleLayout

/-- A layout has environment types for the sites of every effectful unit that was added. -/
theorem mem_siteTypes_foldl {sites : SiteTable} {us : List (LoweringUnit × UnitLayout)}
    (l : ModuleLayout) {u : LoweringUnit} {own : UnitLayout} (hu : (u, own) ∈ us)
    (heff : u.effectful = true) {s : EffectSite} (hs : s ∈ sites.unitSites own.unit) :
    s.id ∈ (us.foldl (fun l (u, own) => if u.effectful then l.addUnit sites own else l)
      l).siteTypes.map (·.1) := by
  -- types that are there stay
  have hgrow (us : List (LoweringUnit × UnitLayout)) (l : ModuleLayout) :
      l.siteTypes <+: (us.foldl (fun l (u, own) => if u.effectful then l.addUnit sites own else l)
        l).siteTypes := by
    induction us generalizing l with
    | nil => exact prefix_rfl
    | cons v us ih =>
      refine List.IsPrefix.trans ?_ (ih _)
      dsimp only
      split
      · exact prefix_append _ _
      · exact prefix_rfl
  induction us generalizing l with
  | nil => cases hu
  | cons v us ih =>
    obtain rfl | hu := mem_cons.mp hu
    · refine ((hgrow us _).map (·.1)).subset ?_
      simp only [heff, if_true, addUnit, map_append, map_map, mem_append]
      refine .inr ?_
      obtain ⟨i, hi⟩ := getElem?_of_mem hs
      exact mem_map.mpr ⟨(s, i), mem_zipIdx_iff_getElem?.mpr hi, rfl⟩
    · exact ih _ hu

end ModuleLayout

theorem Target.Module.isSubtype_self (m : Module) (ty : Nat) : m.isSubtype ty ty = true := by
  unfold isSubtype
  cases m.types.length <;> simp [extendsWithin]

section Types

variable {p : Program} {a : EffectAnalysis} {md : EffectMetadata} {i : Nat} {u : LoweringUnit}
  {s : EffectSite}

/-- **Every site of an effectful unit has an environment type.** -/
theorem Program.exists_envTy (hu : (p.lift a).units[i]? = some u) (heff : u.effectful = true)
    (hs : s ∈ (p.lowered a md).sites.unitSites i) :
    ∃ ty base, Assoc.get? (ModuleLayout.make (p.lowered a md)).siteTypes s.id = some ty ∧
      (ModuleLayout.make (p.lowered a md)).types[ty]? = some (s.envTy base) := by
  obtain ⟨k, -, hlayout⟩ := unitSites_siteTable (p := p) (a := a) (m := md) hu
  have hmem := mem_of_getElem? (getElem?_zip_eq_some (z := (u, (_ : UnitLayout))) |>.mpr
    ⟨hu, hlayout⟩)
  have hkey : s.id ∈ (ModuleLayout.make (p.lowered a md)).siteTypes.map (·.1) :=
    ModuleLayout.mem_siteTypes_foldl _ hmem heff hs
  obtain ⟨ty, hty⟩ := Assoc.exists_get? hkey
  obtain ⟨s', hs', hid, base, htype⟩ := (ModuleLayout.make_fits (p.lowered a md)).1.site _ _
    (Assoc.mem_of_get? hty)
  obtain rfl := eq_of_id_siteTable hs' (mem_filter.mp hs).1 hid
  exact ⟨ty, base, hty, htype⟩

end Types

/-! ### Saving -/

namespace UnitContext

variable {c : UnitContext} {f : FnDecl} {first : Nat} {s : EffectSite} {ty : Nat} {mc : Machine}
  {callee : Callee} {act act₁ : Activation}

/-- The fields of an environment behind its header hold the live locals in order. -/
theorem captures_eq (hs : s ∈ c.unit.sites f c.analysis c.metadata c.program.units c.index first) :
    ∃ field : LocalId → EnvField, (∀ l, (field l).source.local? = some l) ∧
      s.captures = (s.liveAfter.zipIdx 2).map fun x => (x.2, field x.1) := by
  let field (l : LocalId) : EnvField :=
    { name := f.localName l ++ s!"#{l.index}"
      source := if c.unit.params.contains l then .param l else .var l
      ty := f.localTy l }
  have hfields : s.fields = EnvField.header ++ s.liveAfter.map field :=
    LoweringUnit.fields_of_mem_sites hs
  refine ⟨field, fun l => ?_, ?_⟩
  · show FieldSource.local? (if c.unit.params.contains l then .param l else .var l) = some l
    split <;> rfl
  · rw [EffectSite.captures_eq hfields, zipIdx_map, map_map]
    rfl

theorem siteEnv_eq (hs : s ∈ c.unit.sites f c.analysis c.metadata c.program.units c.index first)
    (hty : Assoc.get? c.layout.siteTypes s.id = some ty) (handler : Instr) :
    c.siteEnv s handler = .structNew ty (.nat s.id :: handler :: s.liveAfter.map c.get) := by
  obtain ⟨field, hfield, hcaptures⟩ := captures_eq hs
  rw [siteEnv, hty, hcaptures, map_map]
  conv_rhs => rw [← zipIdx_map_fst 2 s.liveAfter, map_map]
  simp only [Function.comp_def, hfield]

theorem restore_eq (hs : s ∈ c.unit.sites f c.analysis c.metadata c.program.units c.index first)
    (hty : Assoc.get? c.layout.siteTypes s.id = some ty) :
    c.restore s = (s.liveAfter.zipIdx 2).map
      fun x => c.set x.1 (.structGet ty x.2 Header.env.get) := by
  obtain ⟨field, hfield, hcaptures⟩ := captures_eq hs
  rw [restore, hty, hcaptures]
  simp only [filterMap_map, Function.comp_def, hfield, Option.map_some]
  exact congrFun filterMap_eq_map' _

def valueOf (c : UnitContext) (act : Activation) (l : LocalId) : Val :=
  (act.locals[c.place l]?).getD default

theorem getElem?_place {l : LocalId} (h : c.place l < act.locals.size) :
    act.locals[c.place l]? = some (c.valueOf act l) := by
  rw [valueOf, Array.getElem?_eq_getElem h]
  rfl

/-- The fields of the environment of a site. -/
def envValues (c : UnitContext) (s : EffectSite) (handler : Val) (act : Activation) : List Val :=
  .i32 (.ofNat s.id) :: handler :: s.liveAfter.map (c.valueOf act)

theorem getElem?_envValues {handler : Val} {x : LocalId × Nat} (hx : x ∈ s.liveAfter.zipIdx 2) :
    (c.envValues s handler act)[x.2]? = some (c.valueOf act x.1) := by
  obtain ⟨hle, hget⟩ := mem_zipIdx_iff_le_and_getElem?_sub.mp hx
  obtain ⟨i, hi⟩ := Nat.exists_eq_add_of_le' hle
  rw [hi, Nat.add_sub_cancel] at hget
  rw [envValues, hi, getElem?_cons_succ, getElem?_cons_succ, getElem?_map, hget]
  rfl

/-- **Saving**: the environment holds the values of the live locals. -/
theorem gives_siteEnv {base : Nat} {handler : Instr} {v : Val}
    (hs : s ∈ c.unit.sites f c.analysis c.metadata c.program.units c.index first)
    (hty : Assoc.get? c.layout.siteTypes s.id = some ty)
    (htype : mc.module.types[ty]? = some (s.envTy base))
    (hhandler : handler.Gives mc callee act v act₁)
    (hplaces : ∀ l ∈ s.liveAfter, c.place l < act₁.locals.size) :
    (c.siteEnv s handler).Gives mc callee act (.ref (some act₁.store.heap.size))
      (act₁.push (.struct ty (c.envValues s v act₁))) := by
  rw [siteEnv_eq hs hty]
  refine Instr.gives_structNew (evalAll_cons_of_gives (Instr.gives_nat _)
    (evalAll_cons_of_gives hhandler (evalAll_of_forall₂ ?_))) htype ?_
  · rw [forall₂_map_left_iff, forall₂_map_right_iff, forall₂_same]
    exact fun l hl => Instr.gives_localGet (getElem?_place (hplaces l hl))
  · obtain ⟨field, -, hcaptures⟩ := captures_eq hs
    simp [envValues, EffectSite.envTy, envHeader, hcaptures]

/-! ### Restoring -/

/-- Locals that are given values, and places that keep theirs. -/
structure Restored (c : UnitContext) (ls : List LocalId) (val : LocalId → Val)
    (act act' : Activation) : Prop where
  store : act'.store = act.store
  size : act'.locals.size = act.locals.size
  value : ∀ l ∈ ls, act'.locals[c.place l]? = some (val l)
  frame : ∀ j, (∀ l ∈ ls, c.place l ≠ j) → act'.locals[j]? = act.locals[j]?

/-- Reading fields of an environment into locals behind the header. -/
theorem evalSeq_restore {address : Nat} {fields : List Val} {val : LocalId → Val}
    (xs : List (LocalId × Nat)) (henv : act.locals[Header.env.place]? = some (.ref (some address)))
    (hobject : act.store.heap[address]? = some (.struct ty fields))
    (hxs : ∀ x ∈ xs, fields[x.2]? = some (val x.1))
    (hplaces : ∀ x ∈ xs, Header.env.place < c.place x.1 ∧ c.place x.1 < act.locals.size) :
    ∃ act', evalSeq mc callee none (xs.map fun x => c.set x.1 (.structGet ty x.2 Header.env.get))
      act = (.ok none, act') ∧ c.Restored (xs.map (·.1)) val act act' := by
  induction xs generalizing act with
  | nil => exact ⟨act, rfl, rfl, rfl, by simp, fun j _ => rfl⟩
  | cons x xs ih =>
    rw [forall_mem_cons] at hxs hplaces
    have hset := (((Instr.gives_localGet henv).structGet hobject
      (mc.module.isSubtype_self ty) hxs.1 :
      (Instr.structGet ty x.2 Header.env.get).Gives mc callee act _ act)).eval_localSet hplaces.1.2
    have henv' : (act.locals.setIfInBounds (c.place x.1) (val x.1))[Header.env.place]? =
        some (.ref (some address)) := by
      rw [Array.getElem?_setIfInBounds_ne (by omega)]
      exact henv
    obtain ⟨act', hrun, hrest⟩ := @ih ⟨act.locals.setIfInBounds (c.place x.1) (val x.1), act.store⟩
      henv' hobject hxs.2 (by simpa using hplaces.2)
    refine ⟨act', ?_, hrest.store, by simpa using hrest.size, ?_, fun j hj => ?_⟩
    · rw [map_cons]
      exact (evalSeq_cons_of_ok hset).trans hrun
    · rw [map_cons, forall_mem_cons]
      refine ⟨?_, hrest.value⟩
      -- the first local is written once more, or keeps its value
      by_cases hmem : x.1 ∈ xs.map (·.1)
      · exact hrest.value _ hmem
      · have hother : ∀ l ∈ xs.map (·.1), c.place l ≠ c.place x.1 := by
          intro l hl heq
          obtain rfl := place_inj heq
          exact hmem hl
        rw [hrest.frame _ hother]
        simp [hplaces.1.2]
    · rw [map_cons, forall_mem_cons] at hj
      rw [hrest.frame j hj.2, Array.getElem?_setIfInBounds_ne hj.1]

theorem gives_header {h : Header} {v : Val} (hv : act.locals[h.place]? = some v) :
    h.get.Gives mc callee act v act :=
  Instr.gives_localGet hv

/-- The sites with other numbers are passed over. -/
theorem evalSeq_prologue_of_ne {x : Int32}
    (hactive : act.locals[Header.active.place]? = some (.i32 x)) {ss : List EffectSite}
    (hss : ∀ s ∈ ss, x ≠ Int32.ofNat s.id) :
    evalSeq mc callee none
      (ss.map fun s => .ifElse (.i32Eq Header.active.get (.nat s.id)) (c.restore s) []) act =
      (.ok none, act) := by
  induction ss with
  | nil => rfl
  | cons s ss ih =>
    rw [forall_mem_cons] at hss
    have hskip : (Instr.ifElse (.i32Eq Header.active.get (.nat s.id)) (c.restore s) []).eval mc
        callee act = (.ok none, act) := by
      rw [((gives_header hactive).i32Eq (Instr.gives_nat s.id)).eval_ifElse,
        if_neg (by simp [hss.1])]
      rfl
    rw [map_cons, evalSeq_cons_of_ok hskip]
    exact ih hss.2

/-- An activation of a unit that is entered again at a site. -/
structure Reentered (c : UnitContext) (s : EffectSite) (address : Nat) (saved : Object)
    (act : Activation) : Prop where
  size : c.firstTemp ≤ act.locals.size
  started : act.locals[Header.started.place]? = some (.i32 0)
  active : act.locals[Header.active.place]? = some (.i32 (.ofNat s.id))
  env : act.locals[Header.env.place]? = some (.ref (some address))
  object : act.store.heap[address]? = some saved

/-- **Restoring**: the unit finds the values in the environment. -/
theorem Reentered.evalSeq_prologue {address : Nat} {v : Val} {saved : Activation}
    (h : c.Reentered s address (.struct ty (c.envValues s v saved)) act) (mc : Machine)
    (callee : Callee) (hs : s ∈ c.sites)
    (hsites : c.sites = c.unit.sites f c.analysis c.metadata c.program.units c.index first)
    (hids : ∀ s' ∈ c.sites, s'.id < UInt32.size)
    (hty : Assoc.get? c.layout.siteTypes s.id = some ty)
    (hplaces : ∀ l ∈ s.liveAfter, Header.env.place < c.place l ∧ c.place l < c.firstTemp) :
    ∃ act', evalSeq mc callee none c.prologue act = (.ok none, act') ∧
      c.Restored s.liveAfter (c.valueOf saved) act act' := by
  obtain ⟨before, after, hsplit⟩ := append_of_mem hs
  -- the other sites have other numbers
  have hne : ∀ s' ∈ before ++ after, Int32.ofNat s.id ≠ Int32.ofNat s'.id := by
    have hnodup : (c.sites.map (·.id)).Nodup := by
      rw [hsites, LoweringUnit.map_id_sites]
      exact nodup_range'
    rw [hsplit, map_append, map_cons, nodup_middle, nodup_cons, ← map_append] at hnodup
    intro s' hs' heq
    have hmem : s' ∈ c.sites := by
      rw [hsplit]
      simp only [mem_append, mem_cons] at hs' ⊢
      exact hs'.imp_right .inr
    have hword := congrArg (fun x : Int32 => x.toUInt32.toNat) heq
    simp only [Int32.toUInt32_ofNat', UInt32.toNat_ofNat_of_lt' (hids s hs),
      UInt32.toNat_ofNat_of_lt' (hids s' hmem)] at hword
    exact hnodup.1 (hword ▸ mem_map_of_mem hs')
  obtain ⟨act', hrestore, hrestored⟩ : ∃ act', evalSeq mc callee none
      ((s.liveAfter.zipIdx 2).map fun x => c.set x.1 (.structGet ty x.2 Header.env.get))
      act = (.ok none, act') ∧ c.Restored ((s.liveAfter.zipIdx 2).map (·.1)) (c.valueOf saved)
      act act' := by
    refine evalSeq_restore _ h.env h.object (fun x hx => getElem?_envValues hx) fun x hx => ?_
    have hmem : x.1 ∈ s.liveAfter := by
      rw [← zipIdx_map_fst 2 s.liveAfter]
      exact mem_map_of_mem hx
    exact ⟨(hplaces x.1 hmem).1, Nat.lt_of_lt_of_le (hplaces x.1 hmem).2 h.size⟩
  rw [zipIdx_map_fst] at hrestored
  have hactive : act'.locals[Header.active.place]? = some (.i32 (.ofNat s.id)) := by
    rw [hrestored.frame, h.active]
    intro l hl
    have := (hplaces l hl).1
    simp only [Header.place] at this ⊢
    omega
  have hown : (Instr.ifElse (.i32Eq Header.active.get (.nat s.id)) (c.restore s) []).eval mc
      callee act = (.ok none, act') := by
    rw [((gives_header h.active).i32Eq (Instr.gives_nat s.id)).eval_ifElse, if_pos (by simp),
      restore_eq (hsites ▸ hs) hty]
    exact hrestore
  refine ⟨act', ?_, hrestored⟩
  have hprologue : c.prologue = [.ifElse (.eqz Header.started.get)
      (c.sites.map fun s => .ifElse (.i32Eq Header.active.get (.nat s.id)) (c.restore s) [])
      []] := by
    rw [prologue, if_neg]
    simp [ne_nil_of_mem hs]
  have hrun : evalSeq mc callee none
      (c.sites.map fun s => .ifElse (.i32Eq Header.active.get (.nat s.id)) (c.restore s) [])
      act = (.ok none, act') := by
    rw [hsplit, map_append, map_cons,
      evalSeq_append_of_ok
      (evalSeq_prologue_of_ne h.active fun s' hs' => hne s' (mem_append_left _ hs')),
      evalSeq_cons_of_ok hown]
    exact evalSeq_prologue_of_ne hactive fun s' hs' => hne s' (mem_append_right _ hs')
  rw [hprologue, evalSeq_cons_of_ok ((gives_header h.started).eqz.eval_ifElse.trans
    ((if_pos (by decide)).trans hrun))]
  rfl

end UnitContext

/-! ### Units of programs -/

/-- The locals of a unit are in the table of its function. -/
structure LoweringUnit.LocalsInTable (u : LoweringUnit) (units : LiftedProgram) (f : FnDecl) :
    Prop where
  params : ∀ l ∈ u.params, l.index < f.locals.length
  body : ∀ x ∈ u.body.walk, x.MentionsOnly units fun l => l.index < f.locals.length

/-- What a unit saves at its sites comes back when it is entered again. -/
structure UnitContext.KeepsLocals (c : UnitContext) (f : FnDecl) (m : Module) : Prop where
  /-- Different locals have different places. -/
  place_inj : ∀ l l', c.place l = c.place l' → l = l'
  /-- No place is in the header or among the temporaries. -/
  place_bounds : ∀ l : LocalId, l.index < f.locals.length → c.headerLength ≤ c.place l ∧
    c.place l < c.firstTemp
  /-- At each site an environment is built.  A unit that is entered again there with this
  environment gives the live locals the values that they had when it was built, and changes nothing
  else. -/
  restores : ∀ s ∈ c.sites,
    ∀ (mc : Machine) (callee callee' : Callee) (handler : Instr) (v : Val) (act act₁ : Activation),
      mc.module = m → handler.Gives mc callee act v act₁ → c.firstTemp ≤ act₁.locals.size →
    ∃ env, (c.siteEnv s handler).Gives mc callee act (.ref (some act₁.store.heap.size))
      (act₁.push env) ∧
      ∀ act₂, c.Reentered s act₁.store.heap.size env act₂ →
        ∃ act', evalSeq mc callee' none c.prologue act₂ = (.ok none, act') ∧
          act'.store = act₂.store ∧ act'.locals.size = act₂.locals.size ∧
          (∀ l ∈ s.liveAfter, act'.locals[c.place l]? = act₁.locals[c.place l]?) ∧
          ∀ j, (j < c.headerLength ∨ c.firstTemp ≤ j ∨ ∀ l ∈ s.liveAfter, c.place l ≠ j) →
            act'.locals[j]? = act₂.locals[j]?

namespace Program

variable {p : Program} {a : EffectAnalysis} {md : EffectMetadata}
  {lowered : LoweredProgram} {i : Nat} {u : LoweringUnit} {f : FnDecl}

/-- **Saved locals come back**, in every effectful unit whose locals are in the table of its
function. -/
theorem saved_locals_come_back (h : p.lowerWith? a md = some lowered)
    (hcount : lowered.sites.sites.length ≤ UInt32.size) (hu : lowered.units.units[i]? = some u)
    (heff : u.effectful = true) (hf : lowered.program.function? u.owner = some f)
    (hlocals : u.LocalsInTable lowered.units f) (size : Nat) :
    (lowered.unitContext a md i u).KeepsLocals f (lowered.emit a md size).module := by
  obtain ⟨p', -, rfl⟩ := exists_lowered_of_lowerWith? h
  obtain ⟨first, hown, -⟩ := unitSites_siteTable (p := p') (a := a) (m := md) hu
  rw [LoweringUnit.ownSites, heff, show p'.function? u.owner = some f from hf] at hown
  have hc : ((p'.lowered a md).unitContext a md i u).function? = some f := hf
  have htypes (s : EffectSite) (hs : s ∈ ((p'.lowered a md).unitContext a md i u).sites) :
      ∃ ty base, Assoc.get? ((p'.lowered a md).unitContext a md i u).layout.siteTypes
        s.id = some ty ∧ ((p'.lowered a md).emit a md size).module.types[ty]? =
        some (s.envTy base) := exists_envTy hu heff hs
  have hids : ∀ s ∈ ((p'.lowered a md).unitContext a md i u).sites, s.id < UInt32.size := by
    intro s hs
    obtain ⟨j, hj⟩ := getElem?_of_mem (mem_filter.mp hs).1
    obtain ⟨hlt, -⟩ := List.getElem?_eq_some_iff.mp hj
    rw [id_siteTable hj]
    exact Nat.lt_of_lt_of_le hlt hcount
  have hheader : Header.env.place < ((p'.lowered a md).unitContext a md i u).headerLength := by
    show 2 < if u.effectful then if u.isDrive then 5 else 4 else 0
    rw [if_pos heff]
    split <;> decide
  -- from here on only these facts about the unit are used
  generalize hcontext : (p'.lowered a md).unitContext a md i u = c at hc htypes hids hheader ⊢
  have hsites : c.sites = c.unit.sites f c.analysis c.metadata c.program.units c.index first := by
    rw [← hcontext]
    exact hown
  have hplace (l : LocalId) (hl : l.index < f.locals.length) : c.headerLength ≤ c.place l ∧
      c.place l < c.firstTemp :=
    ⟨UnitContext.headerLength_le_place l, UnitContext.covers_of_lt hc hl⟩
  refine ⟨fun l l' => UnitContext.place_inj, hplace, ?_⟩
  intro s hs mc callee callee' handler v act act₁ hmodule hhandler hsize
  obtain ⟨ty, base, hty, htype⟩ := htypes s hs
  have hlive (l : LocalId) (hl : l ∈ s.liveAfter) : c.headerLength ≤ c.place l ∧
      c.place l < c.firstTemp := by
    refine hplace l ?_
    rw [← hcontext] at hsites hs
    exact LoweringUnit.liveAfter_of_mem_sites (hsites ▸ hs) hlocals.params hlocals.body l hl
  have hgives := UnitContext.gives_siteEnv (hsites ▸ hs) hty (by rw [hmodule]; exact htype) hhandler
    fun l hl => Nat.lt_of_lt_of_le (hlive l hl).2 hsize
  -- the code before fills the record, the prologue reads it back
  refine ⟨_, hgives, fun act₂ hact₂ => ?_⟩
  obtain ⟨act', hrun, hrestored⟩ := hact₂.evalSeq_prologue mc callee' hs hsites hids hty
    fun l hl => ⟨Nat.lt_of_lt_of_le hheader (hlive l hl).1, (hlive l hl).2⟩
  refine ⟨act', hrun, hrestored.store, hrestored.size, fun l hl => ?_,
    fun j hj => hrestored.frame j fun l hl heq => ?_⟩
  · rw [hrestored.value l hl, UnitContext.getElem?_place (Nat.lt_of_lt_of_le (hlive l hl).2 hsize)]
  · have := hlive l hl
    rcases hj with hj | hj | hj
    · omega
    · omega
    · exact hj l hl heq

/-- Code that keeps to its functions has only units of this kind. -/
theorem Scoped.localsInTable {arity : DefId → Option Nat} {handles : DefId → ExprId → Prop}
    (hp : p.Scoped arity handles) (hu : (p.lift a).units[i]? = some u) :
    ∃ f, p.function? u.owner = some f ∧ u.LocalsInTable (p.lift a) f := by
  obtain ⟨f, hf, hfn, hbelongs⟩ := hp.exists_function (mem_of_getElem? hu)
  refine ⟨f, hfn, hbelongs.scope.params, fun x hx => ?_⟩
  have hscope := hbelongs.scope.body x hx
  exact ⟨fun l hl => hscope.locals l (mem_append_left _ hl),
    fun hhandle h hh => hp.handle_args hf (hscope.handle hhandle) hh⟩

/-- The function that adds two answers has three sites: it asks for the first answer, runs the
handler that gives the second one, and asks once more in the finalizer. -/
theorem saved_locals_come_back_finalizedSum :
    ∃ lowered u f, finalizedSum.lowerWith? (finalizedSum.analyze true) default = some lowered ∧
      lowered.sites.sites.length ≤ UInt32.size ∧ lowered.units.units[0]? = some u ∧
      u.effectful = true ∧ lowered.program.function? u.owner = some f ∧
      u.LocalsInTable lowered.units f ∧ (lowered.sites.unitSites 0).map (·.kind) =
      [.perform, .handle ⟨8⟩, .perform] ∧
      ∀ size, (lowered.unitContext (finalizedSum.analyze true) default 0 u).KeepsLocals f
        (lowered.emit (finalizedSum.analyze true) default size).module := by
  have hscoped := (show finalizedSum.WellScoped by decide +kernel).scoped (by decide +kernel)
  have htable : (finalizedSum.lowerWith? (finalizedSum.analyze true) default).map (fun lowered =>
      (lowered.sites.sites.length, (lowered.units.units[0]?).map (·.effectful),
        (lowered.sites.unitSites 0).map (·.kind))) = some (5, some true,
        [.perform, .handle ⟨8⟩, .perform]) := by
    decide +kernel
  obtain ⟨lowered, hlowered, htable⟩ := Option.map_eq_some_iff.mp htable
  simp only [Prod.mk.injEq, Option.map_eq_some_iff] at htable
  obtain ⟨hlen, ⟨u, hu, heff⟩, hkinds⟩ := htable
  obtain ⟨p', hp', heq⟩ := exists_lowered_of_lowerWith? hlowered
  have hu' : (p'.lift (finalizedSum.analyze true)).units[0]? = some u := by
    rw [heq] at hu
    exact hu
  obtain ⟨f, hf, hlocals⟩ := (hscoped.normalize hp').localsInTable hu'
  replace hf : lowered.program.function? u.owner = some f := by
    rw [heq]
    exact hf
  replace hlocals : u.LocalsInTable lowered.units f := by
    rw [heq]
    exact hlocals
  have hcount : lowered.sites.sites.length ≤ UInt32.size := by
    rw [hlen]
    decide
  exact ⟨lowered, u, f, hlowered, hcount, hu, heff, hf, hlocals, hkinds,
    saved_locals_come_back hlowered hcount hu heff hf hlocals⟩

end Program

end Effectful
