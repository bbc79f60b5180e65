import Effectful.Target.Module
import Mathlib.Data.List.Nodup
import Mathlib.Logic.Relation
import Mathlib.Order.Defs.Unbundled
/-!
# Well-formed modules

A module is *well formed* if its code keeps to what the module declares: locals, functions, imports,
types and fields exist, calls and new records have as many operands as declared, a field that is
written is mutable, a branch leads to a construct around it, and no label of a function is bound
twice.  A type extends an earlier one, whose fields it starts with.  All of this can be computed
(`Module.isWellFormed`).

Since a type only extends an earlier one, the search for supertypes ends by itself, and the subtype
relation is a partial order (`Module.ExtendsEarlier.isPartialOrder`).
-/

namespace Effectful.Target

open List

variable {i : Instr} {is : List Instr} {bound sub super : Nat}

/-! ### Code -/

mutual

/-- The labels that an instruction binds, those of its parts included. -/
@[simp]
def Instr.binds : Instr → List Label
  | .i32Const _ | .i64Const _ | .f32Const _ | .f64Const _ | .refNull | .localGet
      _ | .unreachable _ => []
  | .localSet _ v | .unary _ _ v | .convert _ v | .drop v | .structGet _ _ v | .refIsNull
      v | .arrayLen v
  | .memLoad32 v | .memLoad64 v => v.binds
  | .binary _ _ a b | .structSet _ _ a b | .arrayGet a b | .memStore32 a b | .memStore64 a b =>
    a.binds ++ b.binds
  | .block label body | .loop label body => label :: bindsAll body
  | .ifElse cond onTrue onFalse => cond.binds ++ (bindsAll onTrue ++ bindsAll onFalse)
  | .br _ value | .ret value =>
    match value with
    | some v => v.binds
    | none => []
  | .call _ items | .callImport _ items | .structNew _ items | .arrayNew items => bindsAll items

@[simp]
def bindsAll : List Instr → List Label
  | [] => []
  | i :: is => i.binds ++ bindsAll is

end

mutual

/-- Whether an instruction keeps to what the module declares, in a function with `n` locals and
inside of constructs with the given labels. -/
@[simp]
def Instr.fits (m : Module) (n : Nat) (labels : List Label) : Instr → Bool
  | .i32Const _ | .i64Const _ | .f32Const _ | .f64Const _ | .refNull | .unreachable _ => true
  | .localGet index => decide (index < n)
  | .localSet index v => decide (index < n) && v.fits m n labels
  | .unary _ _ v | .convert _ v | .drop v | .refIsNull v | .arrayLen v | .memLoad32
      v | .memLoad64 v =>
    v.fits m n labels
  | .binary _ _ a b | .arrayGet a b | .memStore32 a b | .memStore64 a b =>
    a.fits m n labels && b.fits m n labels
  | .block label body | .loop label body => allFit m n (label :: labels) body
  | .ifElse cond onTrue onFalse =>
    cond.fits m n labels && (allFit m n labels onTrue && allFit m n labels onFalse)
  | .br label value =>
    labels.contains label &&
      (match value with
        | some v => v.fits m n labels
        | none => true)
  | .ret value =>
    match value with
    | some v => v.fits m n labels
    | none => true
  | .call func args =>
    (m.functions[func]?).any (·.params.length == args.length) && allFit m n labels args
  | .callImport target args =>
    (m.imports[target]?).any (·.params.length == args.length) && allFit m n labels args
  | .structNew ty fields =>
    (m.types[ty]?).any (·.fields.length == fields.length) && allFit m n labels fields
  | .structGet ty field obj => (m.types[ty]?).any (field < ·.fields.length) && obj.fits m n labels
  | .structSet ty field obj value =>
    ((m.types[ty]?).bind (·.fields[field]?)).any (·.mutable) &&
      (obj.fits m n labels && value.fits m n labels)
  | .arrayNew items => allFit m n labels items

@[simp]
def allFit (m : Module) (n : Nat) (labels : List Label) : List Instr → Bool
  | [] => true
  | i :: is => i.fits m n labels && allFit m n labels is

end

/-- Whether a function of a module keeps to what the module declares. -/
def Function.fits (m : Module) (f : Function) : Bool :=
  allFit m (f.params.length + f.locals.length) [] f.body && decide (bindsAll f.body).Nodup

/-- Whether a type extends only an earlier one, whose fields it starts with. -/
def Module.extendsEarlier (m : Module) (t : StructTy) (position : Nat) : Bool :=
  match t.supertype with
  | some super => decide (super < position) && (m.types[super]?).any (·.fields.isPrefixOf t.fields)
  | none => true

/-- Whether a module keeps to its own declarations. -/
def Module.isWellFormed (m : Module) : Bool :=
  m.functions.all (·.fits m) && m.types.zipIdx.all fun (t, position) => m.extendsEarlier t position

/-! ### Constructs and their parts -/

section Constructs

variable {m : Module} {n : Nat} {labels : List Label} {a b v : Instr} {js : List Instr}
  {label : Label}

theorem fits_localGet_iff {i : Nat} : (Instr.localGet i).fits m n labels = true ↔ i < n := by
  rw [Instr.fits, decide_eq_true_eq]

theorem fits_localSet_iff {i : Nat} :
    (Instr.localSet i v).fits m n labels = true ↔ i < n ∧ v.fits m n labels = true := by
  rw [Instr.fits, Bool.and_eq_true, decide_eq_true_eq]

theorem fits_ifElse_iff :
    (Instr.ifElse v is js).fits m n labels = true ↔
      v.fits m n labels = true ∧ allFit m n labels is = true ∧ allFit m n labels js = true := by
  rw [Instr.fits, Bool.and_eq_true, Bool.and_eq_true]

theorem fits_br_none_iff : (Instr.br label none).fits m n labels = true ↔ label ∈ labels := by
  rw [Instr.fits, Bool.and_true, contains_iff_mem]

theorem fits_ret_some_iff : (Instr.ret (some v)).fits m n labels = true ↔
    v.fits m n labels = true := by
  rw [Instr.fits]

end Constructs

/-! ### Lists of code, and more labels -/

section Mono

variable {m : Module} {n : Nat} {labels : List Label}

theorem allFit_nil : allFit m n labels [] = true := by rw [allFit]

theorem allFit_cons : allFit m n labels (i :: is) = true ↔ i.fits m n labels = true ∧
    allFit m n labels is = true := by
  rw [allFit, Bool.and_eq_true]

@[simp]
theorem allFit_append {js : List Instr} :
    allFit m n labels (is ++ js) = true ↔ allFit m n labels is = true ∧
      allFit m n labels js = true := by
  induction is with
  | nil => simp
  | cons i is ih => simp [ih, and_assoc]

theorem bindsAll_nil : bindsAll [] = [] := by rw [bindsAll]

theorem bindsAll_cons (i : Instr) (is : List Instr) :
    bindsAll (i :: is) = i.binds ++ bindsAll is := by
  rw [bindsAll]

@[simp]
theorem bindsAll_append (is js : List Instr) :
    bindsAll (is ++ js) = bindsAll is ++ bindsAll js := by
  induction is with
  | nil => simp
  | cons i is ih => simp [ih]

theorem allFit_iff : allFit m n labels is = true ↔ ∀ i ∈ is, i.fits m n labels = true := by
  induction is with
  | nil => simp
  | cons i is ih => simp [ih]

theorem bindsAll_eq_nil_iff : bindsAll is = [] ↔ ∀ i ∈ is, i.binds = [] := by
  induction is with
  | nil => simp
  | cons i is ih => simp [ih]

/-- A function that binds no labels. -/
theorem Function.fits_of_binds_eq_nil {f : Function}
    (h : ∀ i ∈ f.body, i.fits m (f.params.length + f.locals.length) [] = true ∧ i.binds = []) :
    f.fits m = true := by
  rw [Function.fits, bindsAll_eq_nil_iff.mpr fun i hi => (h i hi).2, Bool.and_eq_true]
  exact ⟨allFit_iff.mpr fun i hi => (h i hi).1, by simp⟩

/-- The instructions right inside of an instruction. -/
def Instr.parts : Instr → List Instr
  | .i32Const _ | .i64Const _ | .f32Const _ | .f64Const _ | .refNull | .localGet
      _ | .unreachable _ => []
  | .localSet _ v | .unary _ _ v | .convert _ v | .drop v | .structGet _ _ v | .refIsNull
      v | .arrayLen v
  | .memLoad32 v | .memLoad64 v => [v]
  | .binary _ _ a b | .structSet _ _ a b | .arrayGet a b | .memStore32 a b | .memStore64 a b =>
    [a, b]
  | .block _ body | .loop _ body => body
  | .ifElse cond onTrue onFalse => cond :: (onTrue ++ onFalse)
  | .br _ value | .ret value => value.toList
  | .call _ items | .callImport _ items | .structNew _ items | .arrayNew items => items

/-- Parts of an instruction are smaller, which gives `Instr.induction`. -/
theorem Instr.sizeOf_lt_of_mem_parts {j : Instr} (h : j ∈ i.parts) : sizeOf j < sizeOf i := by
  cases i <;> simp only [parts, not_mem_nil, mem_cons, mem_append, Option.mem_toList, or_false] at h
  case block | loop | call | callImport | structNew | arrayNew =>
    have := sizeOf_lt_of_mem h
    simp only [block.sizeOf_spec, loop.sizeOf_spec, call.sizeOf_spec, callImport.sizeOf_spec,
      structNew.sizeOf_spec, arrayNew.sizeOf_spec]
    omega
  case ifElse =>
    rw [ifElse.sizeOf_spec]
    obtain rfl | h | h := h
    · omega
    · have := sizeOf_lt_of_mem h
      omega
    · have := sizeOf_lt_of_mem h
      omega
  case br | ret =>
    subst h
    simp only [br.sizeOf_spec, ret.sizeOf_spec, Option.some.sizeOf_spec]
    omega
  case binary | structSet | arrayGet | memStore32 | memStore64 =>
    simp only [binary.sizeOf_spec, structSet.sizeOf_spec, arrayGet.sizeOf_spec,
      memStore32.sizeOf_spec, memStore64.sizeOf_spec]
    obtain rfl | rfl := h <;> omega
  case localSet | unary | convert | drop | structGet | refIsNull | arrayLen | memLoad32
    | memLoad64 =>
    subst h
    simp only [localSet.sizeOf_spec, unary.sizeOf_spec, convert.sizeOf_spec, drop.sizeOf_spec,
      structGet.sizeOf_spec, refIsNull.sizeOf_spec, arrayLen.sizeOf_spec, memLoad32.sizeOf_spec,
      memLoad64.sizeOf_spec]
    omega

/-- Induction on the instructions inside of an instruction. -/
theorem Instr.induction {P : Instr → Prop} (step : ∀ i, (∀ j ∈ i.parts, P j) → P i) (i : Instr) :
    P i :=
  step i fun j _ => induction step j
termination_by sizeOf i
decreasing_by exact sizeOf_lt_of_mem_parts ‹_›

/-- Code that fits still does so inside of more constructs. -/
theorem Instr.fits_mono {labels' : List Label} (hlabels : labels ⊆ labels')
    (h : i.fits m n labels = true) :
    i.fits m n labels' = true := by
  induction i using Instr.induction generalizing labels labels' with
  | step i ih =>
    -- the parts of a list of parts
    have hall (is : List Instr) (his : is ⊆ i.parts) {labels labels' : List Label}
        (hlabels : labels ⊆ labels') (h : allFit m n labels is = true) : allFit m n labels'
        is = true :=
      allFit_iff.mpr fun j hj => ih j (his hj) hlabels (allFit_iff.mp h j hj)
    cases i with
    | i32Const | i64Const | f32Const | f64Const | refNull | unreachable => simp [fits]
    | localGet index => rwa [fits_localGet_iff] at h ⊢
    | localSet index v =>
      rw [fits_localSet_iff] at h ⊢
      exact ⟨h.1, ih v (by simp [parts]) hlabels h.2⟩
    | unary _ _ v | convert _ v | drop v | refIsNull v | arrayLen v | memLoad32 v | memLoad64 v =>
      exact ih v (by simp [parts]) hlabels h
    | binary _ _ a b | arrayGet a b | memStore32 a b | memStore64 a b =>
      simp only [fits, Bool.and_eq_true] at h ⊢
      exact ⟨ih a (by simp [parts]) hlabels h.1, ih b (by simp [parts]) hlabels h.2⟩
    | block label body | loop label body =>
      exact hall body (List.Subset.refl _) (cons_subset_cons label hlabels) h
    | ifElse cond onTrue onFalse =>
      rw [fits_ifElse_iff] at h ⊢
      refine ⟨ih cond (by simp [parts]) hlabels h.1, hall onTrue ?_ hlabels h.2.1,
        hall onFalse ?_ hlabels h.2.2⟩
      · exact fun j hj => mem_cons_of_mem _ (mem_append_left _ hj)
      · exact fun j hj => mem_cons_of_mem _ (mem_append_right _ hj)
    | br label value =>
      cases value with
      | none =>
        rw [fits_br_none_iff] at h ⊢
        exact hlabels h
      | some v =>
        simp only [fits, Bool.and_eq_true, contains_iff_mem] at h ⊢
        exact ⟨hlabels h.1, ih v (by simp [parts]) hlabels h.2⟩
    | ret value =>
      cases value with
      | none => simp only [fits]
      | some v =>
        exact ih v (by simp [parts]) hlabels h
    | call _ items | callImport _ items | structNew _ items =>
      simp only [fits, Bool.and_eq_true] at h ⊢
      exact ⟨h.1, hall items (List.Subset.refl _) hlabels h.2⟩
    | structGet _ _ obj =>
      simp only [fits, Bool.and_eq_true] at h ⊢
      exact ⟨h.1, ih obj (by simp [parts]) hlabels h.2⟩
    | structSet _ _ obj value =>
      simp only [fits, Bool.and_eq_true] at h ⊢
      exact ⟨h.1, ih obj (by simp [parts]) hlabels h.2.1, ih value (by simp [parts]) hlabels h.2.2⟩
    | arrayNew items =>
      exact hall items (List.Subset.refl _) hlabels h

/-- More labels around do no harm. -/
theorem allFit_mono {labels' : List Label} (hlabels : labels ⊆ labels')
    (h : allFit m n labels is = true) :
    allFit m n labels' is = true :=
  allFit_iff.mpr fun i hi => Instr.fits_mono hlabels (allFit_iff.mp h i hi)

end Mono

/-! ### Subtypes -/

namespace Module

variable {m : Module}

/-- The first type is declared to extend the second. -/
def Extends (m : Module) (sub super : Nat) : Prop := (m.types[sub]?).bind (·.supertype) = some super

/-- A type only extends an earlier one. -/
def ExtendsEarlier (m : Module) : Prop := ∀ sub super, m.Extends sub super → super < sub

theorem ExtendsEarlier.of_isWellFormed (h : m.isWellFormed = true) : m.ExtendsEarlier := by
  intro sub super hext
  rw [isWellFormed, Bool.and_eq_true, all_eq_true, all_eq_true] at h
  obtain ⟨t, ht, hsuper⟩ := Option.bind_eq_some_iff.mp hext
  have := h.2 (t, sub) (mem_zipIdx_iff_getElem?.mpr ht)
  simp only [extendsEarlier, hsuper, Bool.and_eq_true, decide_eq_true_eq] at this
  exact this.1

/-- One step up the supertypes, and then the rest. -/
theorem extendsWithin_succ (super bound sub : Nat) :
    m.extendsWithin super (bound + 1) sub = true ↔
      sub = super ∨ ∃ next, m.Extends sub next ∧ m.extendsWithin super bound next = true := by
  simp only [extendsWithin, Bool.or_eq_true, beq_iff_eq, Extends]
  cases (m.types[sub]?).bind (·.supertype) <;> simp

/-- The search finds only supertypes. -/
theorem reaches_of_extendsWithin (h : m.extendsWithin super bound sub = true) :
    Relation.ReflTransGen m.Extends sub super := by
  induction bound generalizing sub with
  | zero =>
    rw [extendsWithin, beq_iff_eq] at h
    exact h ▸ .refl
  | succ bound ih =>
    obtain rfl | ⟨next, hnext, h⟩ := (extendsWithin_succ super bound sub).mp h
    · exact .refl
    · exact (ih h).head hnext

theorem extendsWithin_self (bound sub : Nat) : m.extendsWithin sub bound sub = true := by
  cases bound <;> simp [extendsWithin]

namespace ExtendsEarlier

variable (hm : m.ExtendsEarlier)
include hm

/-- Supertypes come first. -/
theorem le_of_reaches (h : Relation.ReflTransGen m.Extends sub super) : super ≤ sub := by
  induction h with
  | refl => exact Nat.le_refl _
  | tail _ hlast ih => exact Nat.le_trans (Nat.le_of_lt (hm _ _ hlast)) ih

/-- The search finds every supertype within as many steps as there are earlier types. -/
theorem extendsWithin_of_reaches (h : Relation.ReflTransGen m.Extends sub super)
    (hbound : sub ≤ bound) :
    m.extendsWithin super bound sub = true := by
  induction bound generalizing sub with
  | zero =>
    have := hm.le_of_reaches h
    obtain rfl : super = sub := by omega
    exact extendsWithin_self 0 super
  | succ bound ih =>
    rw [extendsWithin_succ]
    obtain rfl | ⟨next, hnext, hrest⟩ := Relation.ReflTransGen.cases_head h
    · exact .inl rfl
    · have := hm _ _ hnext
      exact .inr ⟨next, hnext, ih hrest (by omega)⟩

/-- **The search is exact**: no bound at or above the number of types cuts it short. -/
theorem extendsWithin_iff (hbound : m.types.length ≤ bound) :
    m.extendsWithin super bound sub = true ↔ Relation.ReflTransGen m.Extends sub super := by
  refine ⟨reaches_of_extendsWithin, fun h => ?_⟩
  obtain rfl | ⟨next, hnext, hrest⟩ := Relation.ReflTransGen.cases_head h
  · exact extendsWithin_self _ _
  · obtain ⟨t, ht, -⟩ := Option.bind_eq_some_iff.mp hnext
    obtain ⟨hlt, -⟩ := List.getElem?_eq_some_iff.mp ht
    exact hm.extendsWithin_of_reaches h (by omega)

theorem isSubtype_iff : m.isSubtype sub super = true ↔ Relation.ReflTransGen m.Extends sub super :=
  hm.extendsWithin_iff (Nat.le_refl _)

theorem isPartialOrder : IsPartialOrder Nat fun sub super => m.isSubtype sub super = true where
  refl _ := extendsWithin_self _ _
  trans a b c hab hbc := by
    rw [hm.isSubtype_iff] at *
    exact hab.trans hbc
  antisymm a b hab hba := by
    rw [hm.isSubtype_iff] at *
    exact Nat.le_antisymm (hm.le_of_reaches hba) (hm.le_of_reaches hab)

end ExtendsEarlier

end Module

end Effectful.Target
