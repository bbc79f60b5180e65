import Effectful.Execution
import Effectful.Proofs.EmittedModule
import Effectful.Proofs.UnitOrigin
/-!
# Exports of a module

A module exports its functions for the host under their names, the fixed ones first, and the host
looks for the first export of a name.  The entry of a function `f` has the name `f_effectful`.
Functions with different names have entries with different names, and the only fixed function with a
name of that form is `resume_effectful`.  So the entry of every exported function is found, unless
the function is called `resume` (`Program.findExport?_entryName_iff`).
-/

namespace Effectful

open List

open Target

variable {g : Function} {f : FnDecl} {unit : Nat}

/-! ### Names of entries -/

namespace Glue

theorem entryName_injective : Function.Injective entryName := by
  intro f g h
  have hlist := congrArg String.toList h
  rw [entryName, entryName, String.toList_append, String.toList_append] at hlist
  exact String.toList_inj.mp (append_cancel_right hlist)

/-- A name that does not end like the name of an entry is none. -/
theorem ne_entryName {name : String} (h : ¬"_effectful".toList <:+ name.toList) (f : String) :
    name ≠ entryName f := by
  rintro rfl
  refine h ?_
  rw [entryName, String.toList_append]
  exact suffix_append _ _

/-- The functions for the host that every module has, and the one that clears the handle table. -/
def fixed (p : LoweredProgram) (m : EffectMetadata) (l : ModuleLayout) (b : BufferLayout) :
    List Function :=
  [resumeDispatch p l, handleOutcome b, effectStatus, effectCont, readValue, outcomeBits,
  resumeEffectful m l]
    ++ (if 0 < m.ordinals.length then [initEffects m.ordinals.length] else [])

section

variable {p : LoweredProgram} {m : EffectMetadata} {l : ModuleLayout} {b : BufferLayout}

theorem functions_eq : (functions p m l b).1 = fixed p m l b ++ (entries p l).1 := rfl

def fixedNames : List String :=
  ["resume$dispatch", "handle_outcome", "effect_status", "effect_cont", "read_value",
    "outcome_bits", "resume_effectful", "init_effects"]

theorem name_mem_fixedNames (hg : g ∈ fixed p m l b) : g.name ∈ fixedNames := by
  have hsub : (fixed p m l b).map (·.name) ⊆ fixedNames := by
    rw [fixed, map_append]
    refine append_subset.mpr ⟨subset_append_left _ ["init_effects"], ?_⟩
    split
    · exact cons_subset.mpr ⟨show "init_effects" ∈ fixedNames by decide, nil_subset _⟩
    · exact nil_subset _
  exact hsub (mem_map_of_mem hg)

/-- **The only fixed function with the name of an entry is the one that resumes.** -/
theorem eq_resume_of_name_fixed {f : String} (hg : g ∈ fixed p m l b)
    (hname : g.name = entryName f) :
    f = "resume" := by
  have hnames : ∀ name ∈ fixedNames, name = entryName "resume" ∨ ¬"_effectful".toList <:+
      name.toList := by decide
  obtain h | h := hnames _ (name_mem_fixedNames hg)
  · exact entryName_injective (hname.symm.trans h)
  · exact absurd hname (ne_entryName h f)

/-! ### Entries -/

/-- The entry of a function that the host can call. -/
def entryOf? (p : LoweredProgram) (l : ModuleLayout) (f : FnDecl) : Option Function :=
  (if f.exported then (p.units.functionUnit? f.id).map fun unit => (f, unit) else none).bind
    fun (f, unit) =>
    if isCallable f then some (entry l f unit ((p.units.units[unit]?).any (·.effectful))) else none

theorem entries_eq : (entries p l).1 = p.program.functions.filterMap (entryOf? p l) := by
  rw [entries, filterMap_filterMap]
  rfl

theorem entryOf?_eq_some (h : entryOf? p l f = some g) : g.name = entryName f.name := by
  obtain ⟨⟨f', unit⟩, hf, h⟩ := Option.bind_eq_some_iff.mp h
  simp only [Option.ite_none_right_eq_some, Option.map_eq_some_iff, Prod.mk.injEq,
    Option.some.injEq] at hf h
  obtain ⟨-, _, -, rfl, rfl⟩ := hf
  obtain ⟨-, rfl⟩ := h
  rfl

/-- Entries have names of their own if functions do. -/
theorem nodup_map_name_entries (h : (p.program.functions.map (·.name)).Nodup) :
    ((entries p l).1.map (·.name)).Nodup := by
  have hsub (fs : List FnDecl) :
      ((fs.filterMap (entryOf? p l)).map (·.name)).Sublist ((fs.map (·.name)).map entryName) := by
    induction fs with
    | nil => exact List.Sublist.refl _
    | cons f fs ih =>
      cases hf : entryOf? p l f with
      | none =>
        rw [filterMap_cons_none hf]
        exact ih.cons _
      | some g =>
        rw [filterMap_cons_some hf, map_cons, map_cons, map_cons, entryOf?_eq_some hf]
        exact ih.cons_cons _
  rw [entries_eq]
  exact (h.map entryName_injective).sublist (hsub _)

/-- Without complaints every exported function has an entry. -/
theorem entryOf?_of_exported (hproblems : (entries p l).2 = []) (hf : f ∈ p.program.functions)
    (hexported : f.exported = true) (hunit : p.units.functionUnit? f.id = some unit) :
    entryOf? p l f = some (entry l f unit ((p.units.units[unit]?).any (·.effectful))) := by
  have hcallable : isCallable f = true := by
    have hnone := filterMap_eq_nil_iff.mp hproblems (f, unit)
      (mem_filterMap.mpr ⟨f, hf, by simp [hexported, hunit]⟩)
    simpa using hnone
  simp [entryOf?, hexported, hunit, hcallable]

end

end Glue

/-! ### Finding an export -/

def exportsFrom (first : Nat) (gs : List Function) : List HostExport :=
  gs.zipIdx.map fun (g, i) => ⟨g.name, first + i⟩

/-- A function whose name no other one has is exported once. -/
theorem filter_exportsFrom {first : Nat} {before behind : List Function}
    (hbefore : ∀ h ∈ before, h.name ≠ g.name) (hbehind : ∀ h ∈ behind, h.name ≠ g.name) :
    (exportsFrom first (before ++ g :: behind)).filter (·.name == g.name) =
      [⟨g.name, first + before.length⟩] := by
  have hnone (n : Nat) (hs : List Function) (h : ∀ x ∈ hs, x.name ≠ g.name) :
      ((hs.zipIdx n).map fun (g, i) => (⟨g.name, first + i⟩ : HostExport)).filter
        (·.name == g.name) = [] := by
    rw [filter_eq_nil_iff]
    intro x hx
    obtain ⟨⟨f, i⟩, hf, rfl⟩ := mem_map.mp hx
    simpa using h f (fst_mem_of_mem_zipIdx hf)
  rw [exportsFrom, zipIdx_append, zipIdx_cons, map_append, map_cons, filter_append,
    hnone _ _ hbefore, filter_cons_of_pos (by simp), hnone _ _ hbehind]
  simp

theorem findExport?_of_filter {m : Module} {name : String} {i : Nat}
    (h : m.exports.filter (·.name == name) = [⟨name, i⟩]) : m.findExport? name = some i := by
  rw [Module.findExport?, ← head?_filter, h]
  rfl

/-! ### Units of functions -/

section Unit

variable {p : Program} {a : EffectAnalysis}

theorem Program.exists_functionUnit? (hf : f ∈ p.functions) :
    ∃ unit, (p.lift a).functionUnit? f.id = some unit := by
  rw [← Option.isSome_iff_exists, LiftedProgram.functionUnit?, findIdx?_isSome, any_eq_true]
  exact ⟨functionUnit f a, functionUnit_mem_lift hf, by simp [functionUnit]⟩

/-- The unit that is found for a function is its own, if functions have ids of their own. -/
theorem Program.DistinctFunctions.getElem?_functionUnit? (hp : p.DistinctFunctions)
    (hf : f ∈ p.functions) (h : (p.lift a).functionUnit? f.id = some unit) :
    (p.lift a).units[unit]? = some (functionUnit f a) := by
  obtain ⟨hlt, hfound, -⟩ := findIdx?_eq_some_iff_getElem.mp h
  rw [Bool.and_eq_true, beq_iff_eq, beq_iff_eq] at hfound
  obtain ⟨g, hg, horigin⟩ := Program.exists_origin (getElem_mem hlt)
  rw [getElem?_eq_getElem hlt, Option.some.injEq]
  generalize (p.lift a).units[unit] = u at hfound horigin
  cases horigin with
  | function => rw [hp.eq_of_id hg hf hfound.1]
  | body | drive => exact absurd hfound.2 (by simp [bodyUnit, driveUnit])

theorem Program.exists_mem_normalize? {p' : Program} (h : p.normalize? a = some p')
    (hf : f ∈ p.functions) :
    ∃ f' ∈ p'.functions, f' = { f with body := f'.body, locals := f'.locals } := by
  have hfns := functions_of_normalize? h
  obtain ⟨i, hi, rfl⟩ := getElem_of_mem hf
  have hi' : i < p'.functions.length := hfns.length_eq ▸ hi
  obtain ⟨s, -, hf'⟩ := (forall₂_iff_get.mp hfns).2 i hi hi'
  refine ⟨p'.functions[i], getElem_mem _, ?_⟩
  rw [get_eq_getElem, get_eq_getElem] at hf'
  rw [hf']

/-- Normalization changes no header. -/
theorem Program.map_functions_normalize? {p' : Program} (h : p.normalize? a = some p') {α : Type}
    (part : FnDecl → α)
    (hpart : ∀ f body locals, part { f with body := body, locals := locals } = part f) :
    p'.functions.map part = p.functions.map part := by
  have hfns := functions_of_normalize? h
  generalize p.functions = fs, p'.functions = fs' at hfns
  induction hfns with
  | nil => rfl
  | cons hf _ ih =>
    obtain ⟨s, -, rfl⟩ := hf
    rw [map_cons, map_cons, ih, hpart]

end Unit

/-! ### Compiled programs -/

/-- The function at a position of a compiled module is the entry of a function: it calls the unit
that is found for the function.  `f'` is the normal form of the function. -/
structure CompiledProgram.IsEntry (c : CompiledProgram) (f f' : FnDecl) (unit position : Nat) :
    Prop where
  normal : f' ∈ c.lowered.program.functions ∧ f' = { f with body := f'.body, locals := f'.locals }
  found : c.lowered.units.functionUnit? f.id = some unit
  entry : c.module.functions[position]? =
    some (Glue.entry (.make c.lowered) f' unit ((c.lowered.units.units[unit]?).any (·.effectful)))

section Emit

variable {p : LoweredProgram} {a : EffectAnalysis} {m : EffectMetadata} {n : Nat}

theorem LoweredProgram.exports_emit : (p.emit a m n).module.exports =
    exportsFrom p.units.units.length
    (Glue.functions p m (.make p) (.new m.ordinals.length n)).1 := by
  have hlen : (p.units.units.zipIdx.map fun u => (p.unitContext a m u.2 u.1).compile).length =
      p.units.units.length := by
    simp
  rw [← hlen]
  rfl

theorem LoweredProgram.getElem?_functions_emit_glue (i : Nat) :
    (p.emit a m n).module.functions[p.units.units.length + i]? =
      (Glue.functions p m (.make p) (.new m.ordinals.length n)).1[i]? := by
  rw [functions_emit, getElem?_append_right (by simp)]
  simp

/-- The name of the function that resumes is found. -/
theorem LoweredProgram.findExport?_emit_resume :
    (p.emit a m n).module.findExport? (Glue.entryName "resume") = some (p.units.units.length + 6) ∧
      (p.emit a m n).module.functions[p.units.units.length + 6]? =
      some (Glue.resumeEffectful m (.make p)) := by
  refine ⟨?_, getElem?_functions_emit_glue 6⟩
  rw [Module.findExport?, exports_emit]
  rfl

/-- The entry of an exported function stands behind the fixed functions.  Its name is its own,
unless it is that of the function that resumes. -/
theorem LoweredProgram.exists_entry_emit (hnames : (p.program.functions.map (·.name)).Nodup)
    (hproblems : (Glue.entries p (.make p)).2 = []) (hf : f ∈ p.program.functions)
    (hexported : f.exported = true) (hunit : p.units.functionUnit? f.id = some unit) :
    ∃ i, p.units.units.length + 6 < i ∧
      (p.emit a m n).module.functions[i]? =
        some (Glue.entry (.make p) f unit ((p.units.units[unit]?).any (·.effectful))) ∧
      (f.name ≠ "resume" → (p.emit a m n).module.exports.filter (·.name == Glue.entryName f.name) =
        [⟨Glue.entryName f.name, i⟩]) := by
  let g := Glue.entry (.make p) f unit ((p.units.units[unit]?).any (·.effectful))
  let fixed := Glue.fixed p m (.make p) (.new m.ordinals.length n)
  have hmem : g ∈ (Glue.entries p (.make p)).1 := by
    rw [Glue.entries_eq]
    exact mem_filterMap.mpr ⟨f, hf, Glue.entryOf?_of_exported hproblems hf hexported hunit⟩
  obtain ⟨before, behind, hsplit⟩ := append_of_mem hmem
  have hglue : (Glue.functions p m (.make p) (.new m.ordinals.length n)).1 = (fixed ++ before) ++
      g :: behind := by
    rw [Glue.functions_eq, hsplit, append_assoc]
  refine ⟨p.units.units.length + (fixed ++ before).length, ?_, ?_, fun hname => ?_⟩
  · have hlen : 7 ≤ fixed.length := by simp [fixed, Glue.fixed]
    rw [length_append]
    omega
  · rw [getElem?_functions_emit_glue, hglue, getElem?_append_right (Nat.le_refl _), Nat.sub_self]
    rfl
  · -- neither a fixed function nor another entry has the name
    have hnodup := Glue.nodup_map_name_entries (l := .make p) hnames
    rw [hsplit, map_append, map_cons, nodup_append, nodup_cons] at hnodup
    obtain ⟨-, ⟨hbehind, -⟩, hbefore⟩ := hnodup
    rw [exports_emit, hglue]
    refine filter_exportsFrom (g := g) (fun x hx hxname => ?_) fun x hx hxname => ?_
    · obtain hx | hx := mem_append.mp hx
      · exact hname (Glue.eq_resume_of_name_fixed hx hxname)
      · exact hbefore _ (mem_map_of_mem hx) _ mem_cons_self hxname
    · exact hbehind (hxname ▸ mem_map_of_mem hx)

end Emit

namespace Program

variable {p : Program} {config : CompilerConfig} {compiled : CompiledProgram} {f : FnDecl}

/-- **Exports resolve to their functions.** The entry of an exported function is what the host finds
under its name, and no other export has that name, unless the function is called `resume`: then the
host finds the function that resumes.  If functions have ids of their own, the unit that the entry
calls is that of the function. -/
theorem findExport?_entryName_iff (h : p.compile config = .ok compiled)
    (hnames : (p.functions.map (·.name)).Nodup) (hf : f ∈ p.functions)
    (hexported : f.exported = true) :
    ∃ f' unit i, compiled.IsEntry f f' unit i ∧
      (compiled.module.findExport? (Glue.entryName f.name) = some i ↔ f.name ≠ "resume") ∧
      (f.name ≠ "resume" →
        compiled.module.exports.filter (·.name == Glue.entryName f.name) =
        [⟨Glue.entryName f.name, i⟩] ∧ ∀ mc : Machine, mc.module = compiled.module →
        mc.invoke (Glue.entryName f.name) = mc.call i) ∧
      (f.name = "resume" → ∃ j, compiled.module.findExport? (Glue.entryName f.name) = some j ∧
        compiled.module.functions[j]? =
          some (Glue.resumeEffectful compiled.checked.metadata (.make compiled.lowered))) ∧
      (p.DistinctFunctions →
        compiled.lowered.units.units[unit]? = some (functionUnit f' compiled.checked.analysis) ∧
        compiled.module.functions[unit]? =
        some (compiled.lowered.unitContext compiled.checked.analysis
          compiled.checked.metadata unit
          (functionUnit f' compiled.checked.analysis)).compile.1) := by
  obtain ⟨p', hp', hlowered, _, rfl, hclean, hmodule⟩ := emit_of_compile h
  obtain ⟨f', hf', hheader⟩ := exists_mem_normalize? hp' hf
  have hid : f'.id = f.id := by rw [hheader]
  have hname : f'.name = f.name := by rw [hheader]
  have hexported' : f'.exported = true := by rw [hheader, hexported]
  have hnames' : (compiled.lowered.program.functions.map (·.name)).Nodup := by
    rw [hlowered]
    exact (map_functions_normalize? hp' (·.name) fun _ _ _ => rfl) ▸ hnames
  have hproblems : (Glue.entries compiled.lowered (.make compiled.lowered)).2 = [] :=
    (append_eq_nil_iff.mp hclean).2
  obtain ⟨unit, hunit⟩ := exists_functionUnit? (a := compiled.checked.analysis) hf'
  have hfound : compiled.lowered.units.functionUnit? f'.id = some unit := by
    rw [hlowered]; exact hunit
  obtain ⟨i, hlt, hentry, hfilter⟩ :=
    LoweredProgram.exists_entry_emit (a := compiled.checked.analysis)
      (m := compiled.checked.metadata) (n := config.bufferSize) hnames' hproblems
      (by rw [hlowered]; exact hf') hexported'
    hfound
  -- the function that resumes is exported before the entries and hides one of its name
  have hresume := LoweredProgram.findExport?_emit_resume (p := compiled.lowered)
    (a := compiled.checked.analysis) (m := compiled.checked.metadata) (n := config.bufferSize)
  rw [← hmodule] at hentry hfilter hresume
  rw [hname] at hfilter
  refine ⟨f', unit, i, ⟨⟨by rw [hlowered]; exact hf', hheader⟩, hid ▸ hfound, hentry⟩,
    ⟨fun hfind hnamed => ?_, fun hnot => ?_⟩, fun hnot => ⟨hfilter hnot, fun mc hmc => ?_⟩,
    fun hnamed => ⟨_, hnamed ▸ hresume.1, hresume.2⟩, fun hids => ?_⟩
  · rw [hnamed, hresume.1, Option.some.injEq] at hfind
    omega
  · exact findExport?_of_filter (hfilter hnot)
  · funext args store
    rw [Machine.invoke, hmc, findExport?_of_filter (hfilter hnot)]
  · have hids' : p'.DistinctFunctions := by
      rw [DistinctFunctions, map_functions_normalize? hp' (·.id) fun _ _ _ => rfl]
      exact hids
    have hown : compiled.lowered.units.units[unit]? =
        some (functionUnit f' compiled.checked.analysis) := by
      rw [hlowered]
      exact hids'.getElem?_functionUnit? hf' hunit
    exact ⟨hown, hmodule ▸ LoweredProgram.getElem?_functions_emit hown⟩

/-- A program with one function, which gives 7 to the host. -/
def seven (name : String) : Program where
  functions := [{ id := ⟨0⟩, name, params := [], ret := .i32, exported := true, locals := []
                  body := .i32 1 (.literal (.int 7)) }]

/-- Names of fixed functions are no trouble. -/
theorem findExport?_entryName_iff_seven :
    ((seven "resume$dispatch").functions.map (·.name)).Nodup ∧
      (seven "resume$dispatch").DistinctFunctions ∧
      ∃ compiled, (seven "resume$dispatch").compile {} = .ok compiled ∧
        ∃ i, compiled.module.findExport? "resume$dispatch_effectful" = some i ∧
          compiled.module.exports.filter (·.name == "resume$dispatch_effectful") =
          [⟨"resume$dispatch_effectful", i⟩] := by
  have hnames : ((seven "resume$dispatch").functions.map (·.name)).Nodup := by decide
  have hok : ((seven "resume$dispatch").compile {}).toOption.isSome = true := by decide +kernel
  refine ⟨hnames, by decide, ?_⟩
  cases h : (seven "resume$dispatch").compile {} with
  | error e => simp [h, Except.toOption] at hok
  | ok compiled =>
    obtain ⟨-, -, i, -, hfind, hfilter, -⟩ := findExport?_entryName_iff h hnames mem_cons_self rfl
    have hname : "resume$dispatch" ≠ "resume" := by decide
    exact ⟨compiled, rfl, i, hfind.mpr hname, (hfilter hname).1⟩

/-- The name `resume` is: the host finds another function, and there is no value. -/
theorem findExport?_resume_seven :
    ((seven "resume").compile {}).toOption.map
      (fun c => (c.module.findExport? "resume_effectful",
        c.module.exports.filter (·.name == "resume_effectful"))) =
        some (some 7, [⟨"resume_effectful", 7⟩, ⟨"resume_effectful", 8⟩]) ∧
      ((seven "resume").runInterpreted {} {} 10 "resume" [] (fun s _ => (.error "", s))
        ()).1.toOption = some (.i32 7) ∧
      ((seven "resume").runCompiled {} {} 10 "resume" [] (fun s _ => (.error "", s))
        ()).1.toOption = none := by
  decide +kernel

end Program

end Effectful
