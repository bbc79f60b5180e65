import Effectful.Proofs.MachineEval
import Effectful.Proofs.SiteRanges
/-!
# Resuming at a site

The numbers of all sites are handed out unit by unit, so that the sites of a unit are a block of
numbers and the blocks follow each other (`Program.flatMap_sites_layouts`).  `resume$dispatch`
compares the number in an environment with the blocks and enters the unit whose block it lies in
(`run_resumeDispatch_of_mem`), or traps if there is none (`run_resumeDispatch_of_not_mem`).  The
comparisons are signed, so numbers stay below `siteLimit`.
-/

namespace Effectful

open List

open Target

variable {i : Nat}

/-! ### Blocks of numbers -/

section Blocks

variable {p : Program} {a : EffectAnalysis} {m : EffectMetadata} {units : LiftedProgram}

theorem LoweringUnit.map_id_ownSites (u : LoweringUnit) (position first : Nat) :
    (u.ownSites p a m units position first).map (·.id) =
      List.range' first (u.ownSites p a m units position first).length := by
  unfold ownSites
  split
  · exact map_id_sites
  · rfl

theorem layouts_siteTableFrom (us : List LoweringUnit) (position first : Nat) :
    (siteTableFrom p a m units position first us).layouts.map (·.unit) =
      List.range' position us.length ∧
      (siteTableFrom p a m units position first us).layouts.flatMap (·.sites) =
        List.range' first (siteTableFrom p a m units position first us).sites.length := by
  induction us generalizing position first with
  | nil => exact ⟨rfl, rfl⟩
  | cons u us ih =>
    obtain ⟨hunits, hsites⟩ :=
      ih (position + 1) (first + (u.ownSites p a m units position first).length)
    rw [(siteTableFrom_cons u us position first).1, (siteTableFrom_cons u us position first).2]
    refine ⟨?_, ?_⟩
    · rw [map_cons, hunits, length_cons, range'_succ]
    · rw [flatMap_cons, hsites, u.map_id_ownSites, length_append, range'_append_1]

/-- **The sites of the units are blocks that follow each other.** -/
theorem Program.flatMap_sites_layouts :
    (p.siteTable a m units).layouts.flatMap (·.sites) =
      List.range (p.siteTable a m units).sites.length := by
  rw [range_eq_range']
  exact (layouts_siteTableFrom units.units 0 0).2

theorem Program.map_unit_layouts :
    (p.siteTable a m units).layouts.map (·.unit) = List.range units.units.length := by
  rw [range_eq_range']
  exact (layouts_siteTableFrom units.units 0 0).1

/-- The layout of a unit: its sites, which are a block of numbers. -/
theorem Program.block_of_getElem?_layouts {l : UnitLayout}
    (h : (p.siteTable a m units).layouts[i]? = some l) :
    l.sites = ((p.siteTable a m units).unitSites i).map (·.id) ∧ ∃ first count, l.sites =
      List.range' first count := by
  have hlt : i < units.units.length := by
    obtain ⟨hlt, -⟩ := List.getElem?_eq_some_iff.mp h
    rwa [Program.siteTable, length_layouts_siteTableFrom] at hlt
  obtain ⟨k, hsites, hlayout⟩ := unitSites_siteTable (p := p) (a := a) (m := m)
    (getElem?_eq_getElem hlt)
  rw [h] at hlayout
  obtain rfl := Option.some.inj hlayout
  exact ⟨by rw [hsites], _, _, LoweringUnit.map_id_ownSites _ _ _⟩

end Blocks

/-! ### Signed comparisons -/

/-- How many sites can be told apart by signed comparisons. -/
def siteLimit : Nat := UInt32.size / 2

theorem toInt_ofNat_of_lt_siteLimit {n : Nat} (h : n < siteLimit) : (Int32.ofNat n).toInt = n :=
  Int32.toInt_ofNat_of_lt (by simpa [siteLimit, UInt32.size] using h)

theorem ofNat_inj_of_lt_siteLimit {n k : Nat} (hn : n < siteLimit) (hk : k < siteLimit)
    (h : Int32.ofNat n = Int32.ofNat k) :
    n = k := by
  have hint := congrArg Int32.toInt h
  rw [toInt_ofNat_of_lt_siteLimit hn, toInt_ofNat_of_lt_siteLimit hk] at hint
  exact_mod_cast hint

/-- A number lies between the ends of a block exactly if it is in the block. -/
theorem UnitLayout.within_range_iff {l : UnitLayout} {first count : Nat}
    (h : l.sites = List.range' first count) (hbound : ∀ n ∈ l.sites, n < siteLimit) {low high : Nat}
    (hrange : l.range? = some (low, high)) (x : Int32) :
    Int32.ofNat low ≤ x ∧ x ≤ Int32.ofNat high ↔ ∃ n ∈ l.sites, x = Int32.ofNat n := by
  obtain ⟨rfl, rfl, hcount⟩ : low = first ∧ high = first + count - 1 ∧ 0 < count := by
    rw [UnitLayout.range?, h] at hrange
    cases count with
    | zero => simp at hrange
    | succ count =>
      rw [range'_succ, head?_cons, ← range'_succ, range'_concat, getLast?_concat] at hrange
      obtain ⟨rfl, rfl⟩ := Prod.mk.inj (Option.some.inj hrange)
      exact ⟨rfl, by omega, by omega⟩
  have hends (n : Nat) (hn : low ≤ n) (hn' : n < low + count) : (Int32.ofNat n).toInt = n :=
    toInt_ofNat_of_lt_siteLimit (hbound n (h ▸ mem_range'_1.mpr ⟨hn, hn'⟩))
  rw [Int32.le_iff_toInt_le, Int32.le_iff_toInt_le, hends low (by omega) (by omega),
    hends _ (by omega) (by omega)]
  constructor
  · rintro ⟨hlow, hhigh⟩
    have hnat : ((x.toInt.toNat : Nat) : Int) = x.toInt := Int.toNat_of_nonneg (by omega)
    refine ⟨x.toInt.toNat, h ▸ mem_range'_1.mpr ⟨by omega, by omega⟩, ?_⟩
    refine Int32.toInt_inj.mp ?_
    rw [hends _ (by omega) (by omega), hnat]
  · rintro ⟨n, hn, rfl⟩
    rw [h, mem_range'_1] at hn
    rw [hends n hn.1 hn.2]
    omega

/-! ### Dispatch -/

namespace Glue

/-- The number in the environment, which is the first argument. -/
def envNumber : Instr := (arg 0).envSite

/-- The arguments with which a unit is entered again. -/
def reentryArgs (l : ModuleLayout) (unit : LoweringUnit) (index : Nat) : List Instr :=
  [.nat 0, envNumber, arg 0, arg 1] ++ (if unit.isDrive then [.refNull] else []) ++
    ((l.unitParams[index]?).getD []).map ValTy.filler

/-- The test whether the number lies in the block of a unit, and the call of the unit. -/
def dispatchEntry (l : ModuleLayout) : (LoweringUnit × UnitLayout) × Nat → Option Instr
  | ((unit, own), index) => own.range?.map fun range =>
    .ifElse (envNumber.within range.1 range.2) [.give (.call index (reentryArgs l unit index))] []

theorem body_resumeDispatch (p : LoweredProgram) (l : ModuleLayout) : (resumeDispatch p l).body =
    (p.units.units.zip p.sites.layouts).zipIdx.filterMap (dispatchEntry l) ++
    [.unreachable .unknownSite] := rfl

section

variable {mc : Machine} {callee : Callee} {act : Activation} {l : ModuleLayout} {x : Int32}

/-- A unit whose block the number is not in is passed over. -/
theorem evalSeq_dispatch_of_not_within (hx : envNumber.Gives mc callee act (.i32 x) act)
    {es : List ((LoweringUnit × UnitLayout) × Nat)}
    (hes : ∀ e ∈ es, ∀ r, e.1.2.range? = some r → ¬(Int32.ofNat r.1 ≤ x ∧ x ≤ Int32.ofNat r.2))
    (last : Option Val) (i : Instr) (is : List Instr) :
    evalSeq mc callee last (es.filterMap (dispatchEntry l) ++ i :: is) act =
      evalSeq mc callee none (i :: is) act := by
  induction es generalizing last with
  | nil => rfl
  | cons e es ih =>
    rw [forall_mem_cons] at hes
    rw [filterMap_cons, dispatchEntry]
    cases hr : e.1.2.range? with
    | none => exact ih hes.2 last
    | some r =>
      have hskip : (Instr.ifElse (envNumber.within r.1 r.2)
          [.give (.call e.2 (reentryArgs l e.1.1 e.2))] []).eval mc callee
          act = (.ok none, act) := by
        rw [(hx.within r.1 r.2).eval_ifElse, if_neg (hes.1 r hr)]
        rfl
      rw [Option.map_some, cons_append, evalSeq_cons_of_ok hskip]
      exact ih hes.2 none

/-- The unit whose block the number is in is called. -/
theorem eval_dispatch_of_within (hx : envNumber.Gives mc callee act (.i32 x) act) {r : SiteRange}
    (hr : Int32.ofNat r.1 ≤ x ∧ x ≤ Int32.ofNat r.2) {index : Nat} {args : List Instr}
    {vs : List Val} (hargs : evalAll mc callee args act = (.ok vs, act)) :
    (Instr.ifElse (envNumber.within r.1 r.2) [.give (.call index args)] []).eval mc callee act =
      (.error (.ofCall (callee index vs act.store).1),
        ⟨act.locals, (callee index vs act.store).2⟩) := by
  rw [(hx.within r.1 r.2).eval_ifElse, if_pos hr, if_pos (by decide)]
  exact evalSeq_cons_of_error (Instr.eval_give_call hargs)

/-- The values with which a unit is entered again at a site. -/
def reentryValues (l : ModuleLayout) (unit : LoweringUnit) (index : Nat) (x : Int32) (address : Nat)
    (bits : Val) : List Val :=
  [.i32 0, .i32 x, .ref (some address), bits] ++ (if unit.isDrive then [.ref none] else []) ++
    ((l.unitParams[index]?).getD []).map Val.zero

theorem evalAll_reentryArgs (hx : envNumber.Gives mc callee act (.i32 x) act) {address : Nat}
    {bits : Val} (henv : act.locals[0]? = some (.ref (some address)))
    (hbits : act.locals[1]? = some bits) (unit : LoweringUnit) (index : Nat) :
    evalAll mc callee (reentryArgs l unit index) act =
      (.ok (reentryValues l unit index x address bits), act) := by
  have hfillers (tys : List ValTy) :
      List.Forall₂ (fun i v => i.Gives mc callee act v act) (tys.map ValTy.filler)
        (tys.map Val.zero) := by
    rw [forall₂_map_left_iff, forall₂_map_right_iff, forall₂_same]
    exact fun ty _ => Instr.gives_filler ty
  refine evalAll_of_forall₂ (rel_append (rel_append ?_ ?_) (hfillers _))
  · exact .cons (Instr.gives_nat 0)
      (.cons hx (.cons (Instr.gives_localGet henv) (.cons (Instr.gives_localGet hbits) .nil)))
  · split
    · exact .cons Instr.gives_refNull .nil
    · exact .nil

/-- At an address there is an environment with a number in it. -/
def EnvHolds (mc : Machine) (store : Store) (address : Nat) (x : Int32) : Prop :=
  ∃ ty fields, store.heap[address]? = some (.struct ty fields) ∧ mc.module.isSubtype ty
    Record.env.index = true ∧ fields[0]? = some (.i32 x)

theorem EnvHolds.gives {store : Store} {address : Nat} (h : EnvHolds mc store address x)
    (bits : Val) :
    envNumber.Gives mc callee ⟨#[.ref (some address), bits], store⟩ (.i32 x)
      ⟨#[.ref (some address), bits], store⟩ := by
  obtain ⟨ty, fields, hobject, hty, hfield⟩ := h
  exact (Instr.gives_localGet (by rfl)).structGet hobject hty hfield

end

section

variable {p : Program} {a : EffectAnalysis} {md : EffectMetadata} {mc : Machine} {callee : Callee}
  {x : Int32} {bits : Val} {store : Store} {address : Nat} {l : ModuleLayout}

/-- The units with their layouts and positions. -/
theorem getElem?_entries {unit : LoweringUnit} {own : UnitLayout} {index : Nat}
    (h : (((p.lowered a md).units.units.zip (p.lowered a md).sites.layouts).zipIdx)[i]? =
      some ((unit, own), index)) :
    index = i ∧ (p.lowered a md).units.units[i]? = some unit ∧ (p.lowered a md).sites.layouts[i]? =
      some own := by
  rw [getElem?_zipIdx, Option.map_eq_some_iff] at h
  obtain ⟨e, he, heq⟩ := h
  obtain ⟨rfl, rfl⟩ := Prod.mk.inj heq
  rw [getElem?_zip_eq_some] at he
  exact ⟨Nat.zero_add i, he⟩

theorem id_lt_siteLimit (hcount : (p.lowered a md).sites.sites.length ≤ siteLimit) {s : EffectSite}
    (hs : s ∈ (p.lowered a md).sites.sites) : s.id < siteLimit := by
  obtain ⟨j, hj⟩ := getElem?_of_mem hs
  obtain ⟨hlt, -⟩ := List.getElem?_eq_some_iff.mp hj
  rw [Program.id_siteTable hj]
  exact Nat.lt_of_lt_of_le hlt hcount

/-- The test for a unit succeeds exactly for the numbers of its sites. -/
theorem within_range_iff (hcount : (p.lowered a md).sites.sites.length ≤ siteLimit)
    {own : UnitLayout} (h : (p.lowered a md).sites.layouts[i]? = some own) {r : SiteRange}
    (hr : own.range? = some r) (x : Int32) :
    Int32.ofNat r.1 ≤ x ∧ x ≤ Int32.ofNat r.2 ↔ ∃ s ∈ (p.lowered a md).sites.unitSites i,
      x = Int32.ofNat s.id := by
  obtain ⟨hsites, first, count, hblock⟩ := Program.block_of_getElem?_layouts h
  have hbound : ∀ n ∈ own.sites, n < siteLimit := by
    intro n hn
    rw [hsites] at hn
    obtain ⟨s, hs, rfl⟩ := mem_map.mp hn
    exact id_lt_siteLimit hcount (mem_filter.mp hs).1
  rw [own.within_range_iff hblock hbound hr, hsites]
  simp only [mem_map]
  exact ⟨fun ⟨n, ⟨s, hs, hid⟩, hx⟩ => ⟨s, hs, hid ▸ hx⟩,
    fun ⟨s, hs, hx⟩ => ⟨s.id, ⟨s, hs, rfl⟩, hx⟩⟩

/-- **The unit that owns the site is called.** -/
theorem run_resumeDispatch_of_mem (hcount : (p.lowered a md).sites.sites.length ≤ siteLimit)
    {s : EffectSite}
    (hs : s ∈ (p.lowered a md).sites.sites) (henv : EnvHolds mc store address (Int32.ofNat s.id)) :
    ∃ unit, (p.lowered a md).units.units[s.unit]? = some unit ∧
      (resumeDispatch (p.lowered a md) l).run mc callee [.ref (some address), bits] store =
        passedOn (callee s.unit (reentryValues l unit s.unit (Int32.ofNat s.id) address bits)
        store) := by
  have hlt : s.unit < (p.lowered a md).units.units.length := by
    have hunit := (unit_siteTableFrom _ hs).2
    rwa [Nat.zero_add] at hunit
  have hlt' : s.unit < (p.lowered a md).sites.layouts.length := by
    show _ < (p.siteTable a md (p.lift a)).layouts.length
    rw [Program.siteTable, length_layouts_siteTableFrom]
    exact hlt
  have hown := getElem?_eq_getElem hlt'
  generalize (p.lowered a md).sites.layouts[s.unit] = own at hown
  have hunit := getElem?_eq_getElem hlt
  generalize (p.lowered a md).units.units[s.unit] = unit at hunit
  have hsite : s ∈ (p.lowered a md).sites.unitSites s.unit := mem_filter.mpr ⟨hs, by simp⟩
  have hrange : ∃ r, own.range? = some r := by
    have hmem : s.id ∈ own.sites :=
      (Program.block_of_getElem?_layouts hown).1 ▸ mem_map_of_mem hsite
    obtain ⟨n, ns, hns⟩ := exists_cons_of_ne_nil (ne_nil_of_mem hmem)
    exact ⟨(n, (n :: ns).getLast (by simp)), by rw [UnitLayout.range?,
      hns, getLast?_eq_some_getLast (by simp)]; rfl⟩
  obtain ⟨r, hr⟩ := hrange
  have hwithin := (within_range_iff hcount hown hr (Int32.ofNat s.id)).mpr ⟨s, hsite, rfl⟩
  refine ⟨unit, hunit, ?_⟩
  -- the entry of the unit, and those in front of it
  have hentry : (((p.lowered a md).units.units.zip
      (p.lowered a md).sites.layouts).zipIdx)[s.unit]? =
      some ((unit, own), s.unit) := by
    rw [getElem?_zipIdx, getElem?_zip_eq_some (z := (unit, own)) |>.mpr ⟨hunit, hown⟩]
    simp
  obtain ⟨hlen, hget⟩ := List.getElem?_eq_some_iff.mp hentry
  have hsplit := take_append_drop s.unit
    ((p.lowered a md).units.units.zip (p.lowered a md).sites.layouts).zipIdx
  rw [drop_eq_getElem_cons hlen, hget] at hsplit
  have hskip : ∀ e ∈ (((p.lowered a md).units.units.zip (p.lowered a md).sites.layouts).zipIdx).take
      s.unit, ∀ r,
      e.1.2.range? = some r →
      ¬(Int32.ofNat r.1 ≤ Int32.ofNat s.id ∧ Int32.ofNat s.id ≤ Int32.ofNat r.2) := by
    rintro ⟨⟨u, o⟩, index⟩ he r hr hin
    obtain ⟨i, hi⟩ := getElem?_of_mem he
    rw [getElem?_take] at hi
    split at hi
    · rename_i hearlier
      obtain ⟨-, -, ho⟩ := getElem?_entries hi
      obtain ⟨s', hs', hnumber⟩ := (within_range_iff hcount ho hr _).mp hin
      obtain ⟨hmem, hunit'⟩ := mem_filter.mp hs'
      have hid := ofNat_inj_of_lt_siteLimit (id_lt_siteLimit hcount hs)
        (id_lt_siteLimit hcount hmem) hnumber
      have heq := Program.eq_of_id_siteTable hs hmem hid
      simp only [← heq, beq_iff_eq] at hunit'
      omega
    · cases hi
  refine Function.run_of_call
    (?_ : _ = (_, ⟨#[.ref (some address), bits], (callee s.unit _ store).2⟩))
  rw [body_resumeDispatch, ← hsplit, filterMap_append, append_assoc, filterMap_cons_some
    (show dispatchEntry l ((unit, own), s.unit) = some _ by rw [dispatchEntry, hr]; rfl)]
  exact (evalSeq_dispatch_of_not_within (henv.gives bits) hskip none _ _).trans
    (evalSeq_cons_of_error (eval_dispatch_of_within (henv.gives bits) hwithin
      (evalAll_reentryArgs (henv.gives bits) rfl rfl unit s.unit)))

/-- **A number that belongs to no site is a fault.** -/
theorem run_resumeDispatch_of_not_mem (hcount : (p.lowered a md).sites.sites.length ≤ siteLimit)
    (hx : ∀ s ∈ (p.lowered a md).sites.sites, x ≠ Int32.ofNat s.id)
    (henv : EnvHolds mc store address x) :
    (resumeDispatch (p.lowered a md) l).run mc callee [.ref (some address), bits] store =
      (.error (.trap (.code .unknownSite)), store) := by
  have hskip : ∀ e ∈ ((p.lowered a md).units.units.zip (p.lowered a md).sites.layouts).zipIdx, ∀ r,
      e.1.2.range? = some r → ¬(Int32.ofNat r.1 ≤ x ∧ x ≤ Int32.ofNat r.2) := by
    rintro ⟨⟨unit, own⟩, index⟩ he r hr hwithin
    obtain ⟨i, hi⟩ := getElem?_of_mem he
    obtain ⟨-, -, hown⟩ := getElem?_entries hi
    obtain ⟨s, hs, hnumber⟩ := (within_range_iff hcount hown hr x).mp hwithin
    exact hx s (mem_filter.mp hs).1 hnumber
  refine Function.run_of_stop (?_ : _ = (_, ⟨#[.ref (some address), bits], store⟩))
  rw [body_resumeDispatch]
  exact evalSeq_dispatch_of_not_within (henv.gives bits) hskip none _ _

end

end Glue

/-! ### Numbers of sites -/

/-- The range of every node tells which sites lie in it.  The handler that a drive unit stands for,
and the empty body in it with the same id, have none. -/
structure UnitContext.RangesIdentify (c : UnitContext) : Prop where
  mem_iff : ∀ x ∈ c.unit.body.walk, c.isDriveRoot x.id = false → ∀ n,
    (∃ r, Assoc.get? c.ranges x.id = some r ∧ r.1 ≤ n ∧ n ≤ r.2) ↔ ∃ s ∈ c.sites, s.id = n ∧
    s.expr ∈ x.ids
  none_iff : ∀ x ∈ c.unit.body.walk, c.isDriveRoot x.id = false →
    (Assoc.get? c.ranges x.id = none ↔ ∀ s ∈ c.sites, s.expr ∉ x.ids)
  root : ∀ x ∈ c.unit.body.walk, c.isDriveRoot x.id = true → Assoc.get? c.ranges x.id = none

namespace Program

variable {p : Program} {a : EffectAnalysis} {md : EffectMetadata} {lowered : LoweredProgram}

theorem DistinctNodes.hasSites (hp : p.DistinctNodes) (md : EffectMetadata) {u : LoweringUnit}
    (hu : (p.lift a).units[i]? = some u) (heff : u.effectful = true) :
    ∃ f first, ((p.lowered a md).unitContext a md i u).HasSites f first := by
  obtain ⟨f, hf⟩ := exists_owner (mem_of_getElem? hu)
  obtain ⟨first, hsites, -⟩ := unitSites_siteTable (p := p) (a := a) (m := md) hu
  refine ⟨f, first, heff, hp.orderly (mem_of_getElem? hu), hsites.trans ?_⟩
  rw [LoweringUnit.ownSites, heff, hf]
  rfl

theorem DistinctNodes.rangesIdentify (hp : p.DistinctNodes) {u : LoweringUnit}
    (hu : (p.lift a).units[i]? = some u) (heff : u.effectful = true) :
    ((p.lowered a md).unitContext a md i u).RangesIdentify := by
  obtain ⟨f, first, h⟩ := hp.hasSites md hu heff
  generalize (p.lowered a md).unitContext a md i u = c at h
  have hnode (x : Expr) (hx : x ∈ c.unit.body.walk) (hroot : c.isDriveRoot x.id = false) :
      x ∈ c.unit.nodesPost := by
    rw [← h.orderly.filter_walkPost, mem_filter, Expr.mem_walkPost]
    refine ⟨hx, ?_⟩
    rw [UnitContext.isDriveRoot] at hroot
    rw [hroot]
    rfl
  refine ⟨fun x hx hroot n => h.mem_range_iff (hnode x hx hroot),
    fun x hx hroot => h.get?_ranges_eq_none_iff (hnode x hx hroot), fun x hx hroot => ?_⟩
  rw [UnitContext.isDriveRoot, Bool.and_eq_true, beq_iff_eq] at hroot
  obtain ⟨ty, span, clauses, -, -, hnot⟩ := h.orderly.drive hroot.1
  rw [hroot.2, h.ranges_eq]
  exact (Collects.foldl_flatMap (fun e _ found hnodup hfresh => collects_foldl e hnodup hfresh)
    h.orderly.nodup (by simp)).frame _ hnot

/-- **Sites are known by their numbers.** The position of a site is its number; the sites of the
units are blocks of numbers that follow each other; in each effectful unit the range of a node tells
which sites lie in the node; and `resume$dispatch` enters the unit again that owns the site whose
number it finds in an environment, with that number as the active one, or traps if the number
belongs to no site. -/
theorem sites_known_by_numbers (hp : p.DistinctNodes) (h : p.lowerWith? a md = some lowered) :
    (∀ (i : Nat) (s : EffectSite), lowered.sites.sites[i]? = some s → s.id = i) ∧
    lowered.sites.layouts.map (·.unit) = List.range lowered.units.units.length ∧
    lowered.sites.layouts.flatMap (·.sites) = List.range lowered.sites.sites.length ∧
    (∀ (i : Nat) (l : UnitLayout), lowered.sites.layouts[i]? = some l →
      l.sites = (lowered.sites.unitSites i).map (·.id)) ∧
    (∀ (i : Nat) (u : LoweringUnit), lowered.units.units[i]? = some u → u.effectful = true →
      (lowered.unitContext a md i u).RangesIdentify) ∧
    (lowered.sites.sites.length ≤ siteLimit →
      ∀ (mc : Machine) (size room address : Nat) (store : Store) (x : Int32) (bits : Val),
        mc.module = (lowered.emit a md size).module → Glue.EnvHolds mc store address x →
        (∀ s ∈ lowered.sites.sites, x = Int32.ofNat s.id → ∃ unit, lowered.units.units[s.unit]? =
          some unit ∧
          mc.callWithin (room + 1)
          (ModuleLayout.make lowered).dispatch [.ref (some address), bits] store =
            passedOn (mc.callWithin room s.unit
              (Glue.reentryValues (.make lowered) unit s.unit x address bits) store)) ∧
        ((∀ s ∈ lowered.sites.sites, x ≠ Int32.ofNat s.id) →
          mc.callWithin (room + 1)
          (ModuleLayout.make lowered).dispatch [.ref (some address), bits] store =
            (.error (.trap (.code .unknownSite)), store))) := by
  obtain ⟨p', hp', rfl⟩ := exists_lowered_of_lowerWith? h
  have hnodes := hp.normalize hp'
  refine ⟨fun i s hs => id_siteTable hs, map_unit_layouts, flatMap_sites_layouts,
    fun i l hl => (block_of_getElem?_layouts hl).1,
    fun i u hu heff => hnodes.rangesIdentify hu heff, ?_⟩
  intro hcount mc size room address store x bits hmodule henv
  -- the function at the position of `resume$dispatch`
  have hfunction : mc.module.functions[(ModuleLayout.make (p'.lowered a md)).dispatch]? =
      some (Glue.resumeDispatch (p'.lowered a md) (.make (p'.lowered a md))) := by
    rw [hmodule, (ModuleLayout.make_fits _).2.2.1, LoweredProgram.functions_emit,
      getElem?_append_right (by simp)]
    simp [Glue.functions]
  have hrun : mc.callWithin (room + 1) (ModuleLayout.make (p'.lowered a md)).dispatch
      [.ref (some address), bits] store =
      (Glue.resumeDispatch (p'.lowered a md) (.make (p'.lowered a md))).run mc (mc.callWithin room)
        [.ref (some address), bits] store := by
    rw [Machine.callWithin, Machine.target, hfunction]
    rfl
  rw [hrun]
  refine ⟨fun s hs hx => ?_, fun hx => Glue.run_resumeDispatch_of_not_mem hcount hx henv⟩
  subst hx
  exact Glue.run_resumeDispatch_of_mem hcount hs henv

/-- The sum of two answers has five sites: three in the function and one in each unit of its
handler.  An environment with the number 3 belongs to the body of the handler, and one with the
number 5 to nothing. -/
theorem sites_known_by_numbers_finalizedSum :
    finalizedSum.DistinctNodes ∧ ∃ lowered, finalizedSum.lowerWith? (finalizedSum.analyze true)
      default = some lowered ∧ lowered.sites.sites.length ≤ siteLimit ∧
      lowered.sites.layouts.map (·.sites) = [[0, 1, 2], [3], [4]] ∧
      (∀ (i : Nat) (u : LoweringUnit), lowered.units.units[i]? = some u → u.effectful = true →
        (lowered.unitContext (finalizedSum.analyze true) default i u).RangesIdentify) ∧
      ∀ (mc : Machine) (size room address : Nat) (store : Store) (bits : Val),
        mc.module = (lowered.emit (finalizedSum.analyze true) default size).module →
        (Glue.EnvHolds mc store address 3 → ∃ unit, lowered.units.units[1]? = some unit ∧
          mc.callWithin (room + 1)
          (ModuleLayout.make lowered).dispatch [.ref (some address), bits] store =
            passedOn (mc.callWithin room 1
              (Glue.reentryValues (.make lowered) unit 1 3 address bits) store)) ∧
        (Glue.EnvHolds mc store address 5 →
          mc.callWithin (room + 1)
          (ModuleLayout.make lowered).dispatch [.ref (some address), bits] store =
            (.error (.trap (.code .unknownSite)), store)) := by
  have hnodes : finalizedSum.DistinctNodes := by decide +kernel
  have htable : (finalizedSum.lowerWith? (finalizedSum.analyze true) default).map
      (fun lowered => (lowered.sites.layouts.map (·.sites),
      lowered.sites.sites.map fun s => (s.id, s.unit))) = some ([[0, 1, 2], [3], [4]],
      [(0, 0), (1, 0), (2, 0), (3, 1), (4, 2)]) := by decide +kernel
  obtain ⟨lowered, hlowered, htable⟩ := Option.map_eq_some_iff.mp htable
  obtain ⟨hlayouts, hsites⟩ := Prod.mk.inj htable
  have hcount : lowered.sites.sites.length ≤ siteLimit := by
    have hlen := congrArg List.length hsites
    rw [length_map] at hlen
    rw [hlen]
    decide
  obtain ⟨-, -, -, -, hranges, hdispatch⟩ := sites_known_by_numbers hnodes hlowered
  refine ⟨hnodes, lowered, hlowered, hcount, hlayouts, hranges, ?_⟩
  intro mc size room address store bits hmodule
  refine ⟨fun henv => ?_, fun henv => ?_⟩
  · have hmem : (3, 1) ∈ lowered.sites.sites.map fun s => (s.id, s.unit) := by
      rw [hsites]
      decide
    obtain ⟨s, hs, heq⟩ := mem_map.mp hmem
    obtain ⟨hid, hunit⟩ := Prod.mk.inj heq
    have hresult := (hdispatch hcount mc size room address store 3 bits hmodule henv).1 s hs
      (by rw [hid]; rfl)
    rwa [hunit] at hresult
  · refine (hdispatch hcount mc size room address store 5 bits hmodule henv).2 fun s hs hx => ?_
    have hmem : (s.id, s.unit) ∈ lowered.sites.sites.map fun s => (s.id, s.unit) :=
      mem_map_of_mem hs
    rw [hsites] at hmem
    simp only [mem_cons, not_mem_nil, or_false, Prod.mk.injEq] at hmem
    obtain ⟨hid, -⟩ | ⟨hid, -⟩ | ⟨hid, -⟩ | ⟨hid, -⟩ | ⟨hid, -⟩ := hmem <;>
      (rw [hid] at hx; exact absurd hx (by decide))

end Program

end Effectful
