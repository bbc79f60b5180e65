import Effectful.Proofs.EmittedCode
/-!
# Emitted expressions keep to their module

`Expr.code_compile`: the code of an expression whose nodes fit the unit keeps to the module and
binds only labels of its own, wherever emission stands when the expression is reached and whatever
surrounds it.
-/

namespace Effectful

open List

attribute [local simp] Form.children

open Target EmitM

variable {id : ExprId} {ty : Ty} {span : Span} {args : List Expr}

def Expr.Emits (c : UnitContext) (m : Module) (e : Expr) : Prop :=
  ∀ (L : List Label) (sc : Scope) (s : EmitState), sc.Fits c L →
    CodeOf c m L s s (e.compile c sc)

section

variable {c : UnitContext} {m : Module} {L : List Label} {sc : Scope} {s : EmitState}

attribute [local simp] Form.compile compileBoxed

/-! ### Lists -/

section Lists

variable (hsc : sc.Fits c L)
include hsc

/-- The members of a list are emitted in turn. -/
theorem code_compileAll {es : List Expr} (hes : ∀ e ∈ es, e.Emits c m) :
    Code c m L s (compileAll c sc es s).2 (compileAll c sc es s).1 ∧
      (compileAll c sc es s).1.length = es.length := by
  induction es generalizing s with
  | nil => exact ⟨.nil (.refl _), rfl⟩
  | cons e es ih =>
    rw [forall_mem_cons] at hes
    obtain ⟨hrest, hlen⟩ := ih hes.2 (s := (e.compile c sc s).2)
    exact ⟨(hes.1 L sc s hsc).cons hrest, congrArg Nat.succ hlen⟩

theorem code_compileBoxed (hm : m.HasRecords) {es : List Expr} (hes : ∀ e ∈ es, e.Emits c m) :
    Code c m L s (compileBoxed c sc es s).2 (compileBoxed c sc es s).1 := by
  induction es generalizing s with
  | nil => exact .nil (.refl _)
  | cons e es ih =>
    rw [forall_mem_cons] at hes
    have hbox := code_box (t := e.ty) (hes.1 L sc s hsc) e.span
    rw [compileBoxed]
    cases e.ty.tag? with
    | none => exact (Code.unreachable hbox.le .unsupportedValue).cons (ih hes.2)
    | some tag => exact (hbox.newValue hm tag).cons (ih hes.2)

theorem code_compileStmts {guarded : Bool} (hguarded : guarded = true → c.unit.effectful = true)
    {ss : List Stmt} (hss : ∀ e ∈ ss.filterMap Stmt.expr?, e.Emits c m)
    (hdeclared : ∀ l ∈ ss.filterMap Stmt.declared?, c.Covers l) :
    Code c m L s (compileStmts c sc guarded ss s).2 (compileStmts c sc guarded ss s).1 := by
  induction ss generalizing s with
  | nil => exact .nil (.refl _)
  | cons st ss ih =>
    match st with
    | .bind target none =>
      exact ih hss fun l hl => hdeclared l (mem_cons_of_mem _ hl)
    | .bind target (some e) =>
      rw [filterMap_cons_some (by rfl), forall_mem_cons] at hss hdeclared
      exact (code_guarded hguarded sc e (code_set hdeclared.1 (hss.1 L sc s hsc))).cons
        (ih hss.2 hdeclared.2)
    | .expr e =>
      rw [filterMap_cons_some (by rfl), forall_mem_cons] at hss
      exact (code_guarded hguarded sc e (hss.1 L sc s hsc)).cons (ih hss.2 hdeclared)

theorem code_compileArms {guarded : Bool} (hguarded : guarded = true → c.unit.effectful = true)
    {value : Nat} (hvalue : value < c.firstTemp + s.temps.length) {arms : List Arm}
    (harms : ∀ e ∈ arms.map Arm.body, e.Emits c m)
    (hdeclared : ∀ l ∈ arms.filterMap (·.pattern.declared?), c.Covers l) :
    Code c m L s (compileArms c sc guarded value arms s).2
      (compileArms c sc guarded value arms s).1.flatten := by
  induction arms generalizing s with
  | nil => exact .nil (.refl _)
  | cons arm arms ih =>
    obtain ⟨pattern, body⟩ := arm
    rw [map_cons, forall_mem_cons] at harms
    have hbinding := code_armBinding (m := m) (L := L) hguarded hvalue pattern fun l hl =>
      hdeclared l (mem_filterMap.mpr ⟨_, mem_cons_self, hl⟩)
    have hbody := hbinding.append (harms.1 L sc _ hsc)
    have hrest := ih (s := (body.compile c sc (armBinding c guarded value pattern s).2).2)
      (Nat.lt_of_lt_of_le hvalue (Nat.add_le_add_left hbody.le.temps _)) harms.2
      fun l hl => hdeclared l (mem_filterMap.mpr (by
        obtain ⟨arm, harm, hl⟩ := mem_filterMap.mp hl
        exact ⟨arm, mem_cons_of_mem _ harm, hl⟩))
    exact hbody.append hrest

end Lists

/-! ### Constructs -/

section Constructs

variable (hc : c.Fits m) (hsc : sc.Fits c L)
include hc hsc

/-- A call of a function passes as many arguments as its unit takes. -/
theorem code_call_fn {callee : Expr} {target : DefId} (hcallee : callee.form = .fn target)
    (hnode : c.FitsNode (.node id (.call callee args) ty span)) (hargs : ∀ e ∈ args, e.Emits c m) :
    CodeOf c m L s s ((Form.call callee args).compile c sc id ty span) := by
  rw [Form.compile, hcallee]
  dsimp only
  cases hunit : c.program.units.functionUnit? target with
  | none => exact code_unsupported (.refl s) callee.span _
  | some unit =>
    obtain ⟨hcode, hlen⟩ := code_compileAll (s := s) hsc hargs
    -- the unit that was found is that of a function
    obtain ⟨u, hu, hkind⟩ : ∃ u, c.program.units.units[unit]? = some u ∧ u.kind = .function := by
      obtain ⟨hlt, hfound, -⟩ := findIdx?_eq_some_iff_getElem.mp hunit
      refine ⟨_, getElem?_eq_getElem hlt, ?_⟩
      rw [Bool.and_eq_true] at hfound
      simpa using hfound.2
    have hdrive : u.isDrive = false := by
      unfold LoweringUnit.isDrive
      rw [hkind]
    have hparams := hnode.args callee args target unit u rfl hcallee hunit hu
    show CodeOf c m L s _ (if (c.program.units.units[unit]?).any (·.effectful) then
        siteCall c id ty span (.call unit (freshArgs (compileAll c sc args s).1))
      else return .call unit (compileAll c sc args s).1 : EmitM Instr)
    rw [hu, Option.any_some]
    cases heff : u.effectful with
    | true =>
      refine code_siteCall hc (code_call hc hu ?_ ?_) id ty span
      · rw [length_freshArgs, hlen, hparams, LoweringUnit.targetArity, heff, hdrive]
        rfl
      · exact hcode.rebuild (fun n _ hfits => allFit_freshArgs.mpr hfits) (bindsAll_freshArgs _)
    | false =>
      refine code_call hc hu ?_ hcode
      rw [hlen, hparams, LoweringUnit.targetArity, heff]
      simp

theorem code_call_continuation {callee : Expr} {k : LocalId} (hcallee : callee.form = .var k)
    (hk : c.Covers k) (hargs : ∀ e ∈ args, e.Emits c m) :
    CodeOf c m L s s ((Form.call callee args).compile c sc id ty span) := by
  rw [Form.compile, hcallee]
  dsimp only
  cases hinfo : c.continuation? k with
  | none => exact code_unsupported (.refl s) span _
  | some info =>
    obtain ⟨hcode, hlen⟩ := code_compileAll (s := s) hsc hargs
    by_cases hmany : 1 < args.length
    · simp only [hmany, if_true]
      exact code_unsupported (.refl s) span _
    · simp only [hmany, if_false]
      -- at most one argument; without one the bits are those of unit
      have hbits : Code c m L s (compileAll c sc args s).2
          [(compileAll c sc args s).1.headD (.nat 0)] := by
        generalize (compileAll c sc args s).1 = values at hcode hlen
        obtain _ | ⟨v, _ | ⟨w, rest⟩⟩ := values
        · exact hcode.rebuild (fun n _ _ => by simp) (by simp)
        · exact hcode
        · simp only [length_cons] at hlen
          omega
      exact code_resumeAt hc hsc hk hinfo (code_box hbits span) id ty span

/-- An operation suspends at its site; without a site it is never reached. -/
theorem code_perform (hargs : ∀ e ∈ args, e.Emits c m) (id : ExprId) (operation : OpRef) (ty : Ty)
    (span : Span)
    (x : EmitM Instr)
    (hsome : ∀ site ordinal, c.site? id = some site → c.metadata.ordinalOf? operation =
      some ordinal →
      x = do performAt c site ordinal ty span (← compileBoxed c sc args))
    (hnone : c.site? id = none ∨ c.metadata.ordinalOf? operation = none →
      x = return .unreachable .unreachable) :
    CodeOf c m L s s x := by
  have htrap : Code c m L s s [.unreachable .unreachable] := .unreachable (.refl s) _
  cases hsite : c.site? id with
  | none =>
    rw [hnone (.inl hsite)]
    exact htrap
  | some site =>
    cases hordinal : c.metadata.ordinalOf? operation with
    | none =>
      rw [hnone (.inr hordinal)]
      exact htrap
    | some ordinal =>
      rw [hsome site ordinal hsite hordinal]
      exact code_performAt hc (code_compileBoxed hsc hc.records hargs)
        (UnitContext.mem_sites_of_site? hsite) ordinal ty span

/-- A handler calls the unit of its body, and then its driver. -/
theorem code_handle {body : Expr} {clauses : List Clause} {finalizer : Option Expr}
    (hnode : c.FitsNode (.node id (.handle body clauses finalizer) ty span))
    (hbody : body.Emits c m) :
    CodeOf c m L s s ((Form.handle body clauses finalizer).compile c sc id ty span) := by
  rw [Form.compile]
  cases hlifted : c.program.units.handle? id with
  | none => exact hbody L sc s hsc
  | some h =>
    obtain ⟨⟨b, hb, hbodyArity⟩, ⟨d, hd, hdriveArity⟩⟩ := hc.handle id h hlifted
    have hpassed := hnode.handle rfl h hlifted
    have hbodyArgs : ∀ l ∈ h.bodyArgs, c.Covers l := fun l hl => hpassed l (mem_append_left _ hl)
    have hdriveArgs : ∀ l ∈ h.driveArgs, c.Covers l := fun l hl => hpassed l (mem_append_right _ hl)
    have hlen (ls : List LocalId) (s : EmitState) : (EmitM.getAll c ls s).1.length = ls.length :=
      length_map _
    have hguarded : Code c m L s (EmitM.getAll c h.bodyArgs s).2
        [.call h.bodyUnit (freshArgs (EmitM.getAll c h.bodyArgs s).1)] := by
      refine code_call hc hb ?_
        ((code_getAll hbodyArgs).rebuild (fun n _ hfits => allFit_freshArgs.mpr hfits)
        (bindsAll_freshArgs _))
      rw [length_freshArgs, hlen, hbodyArity]
    refine code_siteCall hc (code_call hc hd ?_ ?_) id ty span
    · rw [length_freshArgs, length_cons, length_map, hdriveArity]
      omega
    · exact (hguarded.cons (code_getAll hdriveArgs)).rebuild
        (fun n _ hfits => allFit_freshArgs.mpr hfits) (bindsAll_freshArgs _)

omit hc in
theorem code_block {stmts : List Stmt} {tail : Option Expr}
    (hnode : c.FitsNode (.node id (.block stmts tail) ty span))
    (hparts : ∀ e ∈ (Form.block stmts tail).children, e.Emits c m) :
    CodeOf c m L s s ((Form.block stmts tail).compile c sc id ty span) := by
  have hdeclared : ∀ l ∈ stmts.filterMap Stmt.declared?, c.Covers l :=
    fun l hl => hnode.locals l (mem_append_right _ hl)
  have hstmts := code_compileStmts (s := s) hsc (hsc.ranges id)
    (fun e he => hparts e (mem_append_left _ he)) hdeclared
  cases tail with
  | none =>
    exact Code.block (hstmts.append (.nat (.refl _) 0))
  | some e =>
    exact Code.block (hstmts.append (hparts e (by simp) L sc _ hsc))

omit hc in
/-- A test, or what stands for it on the way back to a site behind it. -/
theorem code_test (id : ExprId) (cond : Expr) {plain other : Instr} {s' : EmitState}
    (h : Code c m L s s' [plain])
    (hother : c.unit.effectful = true → ∀ n, c.firstTemp ≤ n → other.fits m n L = true ∧
      other.binds = []) :
    Code c m L s s' [if sc.hasSites id then .ifElse (sc.guard cond) [plain]
      [other] else plain] := by
  split
  · rename_i hsites
    have heff := hsc.ranges id hsites
    refine h.rebuild (fun n hn hfits => ?_) ?_
    · have hn' : c.firstTemp ≤ n := Nat.le_of_add_right_le hn
      have hguard := (SiteRange.fits_guard m L hn' heff (sc.range? cond.id)).1
      simp only [allFit_cons, allFit_nil, and_true] at hfits
      simp [Scope.guard, hfits, hguard, (hother heff n hn').1]
    · have hguard := (SiteRange.fits_guard m L (Nat.le_refl c.firstTemp) heff
        (sc.range? cond.id)).2
      simp [Scope.guard, hguard, (hother heff _ (Nat.le_refl _)).2]
  · exact h

omit hc in
theorem code_branch {cond onTrue : Expr} {onFalse : Option Expr}
    (hparts : ∀ e ∈ (Form.branch cond onTrue onFalse).children, e.Emits c m) :
    CodeOf c m L s s ((Form.branch cond onTrue onFalse).compile c sc id ty span) := by
  have hactive (heff : c.unit.effectful = true) (n : Nat) (hn : c.firstTemp ≤ n) :
      (sc.isActive onTrue).fits m n L = true ∧ (sc.isActive onTrue).binds = [] :=
        SiteRange.fits_isActive m _ hn heff _
  have htest := code_test hsc id cond (hparts cond (by simp) L sc s hsc) hactive
  have hyes := hparts onTrue (by simp) L sc (cond.compile c sc s).2 hsc
  -- the test and both branches, put together
  have hall (no : Instr) (s' : EmitState)
      (hno : Code c m L (onTrue.compile c sc (cond.compile c sc s).2).2 s' [no]) :
      Code c m L s s' [.ifElse
        (if sc.hasSites id then .ifElse (sc.guard cond) [(cond.compile c sc s).1]
        [sc.isActive onTrue] else (cond.compile c sc s).1)
        [(onTrue.compile c sc (cond.compile c sc s).2).1] [no]] := by
    refine ((htest.append hyes).append hno).rebuild (fun n _ hfits => ?_) ?_
    · simpa [and_assoc] using hfits
    · simp
  cases onFalse with
  | none =>
    exact hall _ _ (.nat (.refl _) 0)
  | some e =>
    exact hall _ _ (hparts e (by simp) L sc _ hsc)

omit hc in
theorem code_select {scrutinee : Expr} {arms : List Arm}
    (hnode : c.FitsNode (.node id (.select scrutinee arms) ty span))
    (hparts : ∀ e ∈ (Form.select scrutinee arms).children, e.Emits c m) :
    CodeOf c m L s s ((Form.select scrutinee arms).compile c sc id ty span) := by
  have hdeclared : ∀ l ∈ arms.filterMap (·.pattern.declared?), c.Covers l :=
    fun l hl => hnode.locals l (mem_append_right _ hl)
  -- the temporaries for the value and for the number of the arm
  let value := c.firstTemp + s.temps.length
  let selected := c.firstTemp + (s.temps ++ [scrutinee.ty.valTy]).length
  let s₁ : EmitState := { s with temps := s.temps ++ [scrutinee.ty.valTy] ++ [.i32] }
  have hle : s.Le s₁ := ⟨by simp [s₁], Nat.le_refl _⟩
  have hplaces {k : EmitState} (hk : s₁.Le k) : value < c.firstTemp + k.temps.length ∧
      selected < c.firstTemp + k.temps.length := by
    have := hk.temps
    simp only [s₁, length_append, length_singleton] at this
    simp only [value, selected, length_append, length_singleton]
    omega
  have hscrutinee := hparts scrutinee mem_cons_self L sc s₁ hsc
  have hbyValue : Code c m L s₁ (scrutinee.compile c sc s₁).2
      [.localSet value (scrutinee.compile c sc s₁).1, armByValue value scrutinee.ty arms] := by
    refine hscrutinee.rebuild (fun n hn hfits => ?_) ?_
    · have hvalue : value < n := Nat.lt_of_lt_of_le (hplaces hscrutinee.le).1 hn
      simp only [allFit_cons, allFit_nil, and_true] at hfits
      simp [hvalue, hfits, (fits_armByValue m L hvalue scrutinee.ty arms).1]
    · simp [(fits_armByValue m L (Nat.lt_succ_self value) scrutinee.ty arms).2]
  -- the choice by the number of the arm
  have hchoice (guarded : Bool) (hguarded : guarded = true → c.unit.effectful = true)
      (number : Instr) (s₂ : EmitState) (hnumber : Code c m L s₁ s₂ [number]) :
      Code c m L s
        (EmitM.block [.localSet selected number, chooseBy selected (.unreachable .unreachable)
          (compileArms c sc guarded value arms s₂).1] (compileArms c sc guarded value arms s₂).2).2
        [(EmitM.block [.localSet selected number, chooseBy selected (.unreachable .unreachable)
          (compileArms c sc guarded value arms s₂).1]
          (compileArms c sc guarded value arms s₂).2).1] := by
    have harms := code_compileArms hsc hguarded (hplaces hnumber.le).1
      (fun e he => hparts e (mem_cons_of_mem _ he)) hdeclared
    refine Code.block (((hnumber.append harms).weaken hle (.refl _)).rebuild
      (fun n hn hfits => ?_) ?_)
    · have hselected : selected < n := Nat.lt_of_lt_of_le (hplaces (hnumber.le.trans harms.le)).2 hn
      rw [allFit_append, allFit_cons] at hfits
      rw [allFit_cons, allFit_cons, fits_localSet_iff]
      exact ⟨⟨hselected, hfits.1.1⟩, fits_chooseBy hselected (by simp) hfits.2, allFit_nil⟩
    · simp only [bindsAll_cons, bindsAll_nil, bindsAll_append, Instr.binds, binds_chooseBy,
        append_nil]
  rw [Form.compile]
  cases hsites : sc.hasSites id with
  | false => exact hchoice false (by simp) _ _ (Code.block hbyValue)
  | true =>
    have heff := hsc.ranges id hsites
    have hnumber : Code c m L s₁ (scrutinee.compile c sc s₁).2
        [.ifElse (sc.guard scrutinee) [.localSet value (scrutinee.compile c sc s₁).1,
        armByValue value scrutinee.ty arms]
          [sc.activePart (arms.map Arm.body)]] := by
      refine hbyValue.rebuild (fun n hn hfits => ?_) ?_
      · have hn' : c.firstTemp ≤ n := Nat.le_of_add_right_le hn
        have hguard := (SiteRange.fits_guard m L hn' heff (sc.range? scrutinee.id)).1
        have hactive := (fits_activePart m L hn' heff sc (arms.map Arm.body)).1
        rw [allFit_cons, fits_ifElse_iff]
        exact ⟨⟨hguard, hfits, allFit_cons.mpr ⟨hactive, allFit_nil⟩⟩, allFit_nil⟩
      · have hguard := (SiteRange.fits_guard m L (Nat.le_refl c.firstTemp) heff
          (sc.range? scrutinee.id)).2
        have hactive := (fits_activePart m L (Nat.le_refl c.firstTemp) heff sc
          (arms.map Arm.body)).2
        simp [Scope.guard, hguard, hactive]
    exact hchoice true (fun _ => heff) _ _ hnumber

omit hc in
theorem Scope.Fits.loop_body (exit top : Label) :
    ({ sc with loop := some ⟨exit, top⟩ } : Scope).Fits c (top :: exit :: L) := by
  refine ⟨hsc.ranges, fun l hl => ?_, fun cl hcl => ?_⟩
  · obtain rfl := Option.some.inj hl
    simp
  · exact mem_cons_of_mem _ (mem_cons_of_mem _ (hsc.clause cl hcl))

end Constructs

end

theorem code_loop {c : UnitContext} {m : Module} {L : List Label} {s s' : EmitState}
    {round : List Instr}
    (h : Code c m (⟨s.nextLabel + 1⟩ :: ⟨s.nextLabel⟩ :: L) { s with nextLabel := s.nextLabel + 2 }
      s' round) :
    Code c m L s s' [.block ⟨s.nextLabel⟩ [.loop ⟨s.nextLabel + 1⟩ round, .nat 0]] := by
  have hloop : Code c m (⟨s.nextLabel⟩ :: L) { s with nextLabel := s.nextLabel + 1 } s'
      [.loop ⟨s.nextLabel + 1⟩ round] :=
    h.bind rfl ⟨Nat.le_refl _, by simp⟩ (by simp) (.inr rfl)
  have hbody : Code c m (⟨s.nextLabel⟩ :: L) { s with nextLabel := s.nextLabel + 1 } s'
      [.loop ⟨s.nextLabel + 1⟩ round, .nat 0] :=
    hloop.cons (.nat (.refl _) 0)
  exact hbody.bind rfl ⟨Nat.le_refl _, by simp⟩ (by simp) (.inl rfl)

section Forms

variable {c : UnitContext} {m : Module} {L : List Label} {sc : Scope} {s : EmitState}

theorem code_literal (value : Literal) (ty : Ty) : Code c m L s s [value.compile ty] := by
  have hlit (n : Nat) := Literal.fits_compile m n L value ty
  exact .of_binds_eq_nil (.refl s) (fun n _ => by simpa using (hlit n).1)
    (by simpa using (hlit 0).2)

variable (hsc : sc.Fits c L)
include hsc

theorem code_while {cond body : Expr} (hcond : cond.Emits c m) (hbody : body.Emits c m) :
    CodeOf c m L s s ((Form.whileLoop cond body).compile c sc id ty span) := by
  have hinner := Scope.Fits.loop_body hsc ⟨s.nextLabel⟩ ⟨s.nextLabel + 1⟩
  let s₁ : EmitState := { s with nextLabel := s.nextLabel + 2 }
  let inner : Scope := { sc with loop := some ⟨⟨s.nextLabel⟩, ⟨s.nextLabel + 1⟩⟩ }
  have hcond := hcond _ inner s₁ hinner
  have hbody := hbody _ inner (cond.compile c inner s₁).2 hinner
  have htest := (code_test hinner id cond hcond fun _ n _ => ⟨fits_nat 1, binds_nat 1⟩).unary .eqz
    .i32
  refine code_loop (Code.cons (htest.rebuild (fun n _ hfits => ?_) ?_)
    (hbody.cons (.goto (.refl _) mem_cons_self)))
  · rw [allFit_cons] at hfits ⊢
    refine ⟨fits_ifElse_iff.mpr ⟨hfits.1, ?_, allFit_nil⟩, allFit_nil⟩
    simp
  · rw [bindsAll_cons, bindsAll_cons, Instr.binds]
    simp only [bindsAll_cons, bindsAll_nil, Instr.binds, binds_nat, append_nil]
    rfl

variable (hc : c.Fits m)
include hc

/-- A call is emitted by what its callee is; only functions, operations, built-in functions and
continuations can be called. -/
theorem code_call_form {callee : Expr} (hnode : c.FitsNode (.node id (.call callee args) ty span))
    (hcallee : c.FitsNode callee) (hargs : ∀ e ∈ args, e.Emits c m) :
    CodeOf c m L s s ((Form.call callee args).compile c sc id ty span) := by
  cases hform : callee.form with
  | fn target => exact code_call_fn hc hsc hform hnode hargs
  | op operation typeArgs =>
    refine code_perform hc hsc hargs id operation ty span _ (fun site ordinal hsite hordinal => ?_)
      fun hnone => ?_
    · rw [Form.compile, hform]
      simp only [hsite, hordinal]
    · rw [Form.compile, hform]
      obtain hnone | hnone := hnone
      · simp only [hnone]
      · cases c.site? id <;> simp only [hnone]
  | intrinsic which =>
    rw [Form.compile, hform]
    exact code_intrinsic (code_compileAll hsc hargs).1 which ty span
  | var k =>
    exact code_call_continuation hc hsc hform (hcallee.locals k (by simp [hform, Form.usedLocals]))
      hargs
  | _ =>
    rw [Form.compile, hform]
    exact code_unsupported (.refl s) span _

omit hsc in
/-- How the unit is left with a value. -/
theorem code_leave {s' : EmitState} {v : Instr} (hv : Code c m L s s' [v]) (span : Span) :
    CodeOf c m L s s' (if sc.clause.any (·.kind == .tail) then block
      [v, .unreachable .tailResumeMissing] else if c.unit.effectful then do
      return .give (← valueOutcome c c.unit.result v span) else return .give v : EmitM Instr) := by
  by_cases htail : sc.clause.any (·.kind == .tail) = true
  · rw [if_pos htail]
    exact Code.block (hv.cons (.unreachable (.refl _) _))
  · rw [if_neg htail]
    by_cases heff : c.unit.effectful = true
    · rw [if_pos heff]
      exact (code_valueOutcome (t := c.unit.result) hc.records hv span).give
    · rw [if_neg heff]
      exact hv.give

end Forms

/-- **Emitted expressions keep to their module.** -/
theorem Expr.code_compile {c : UnitContext} {m : Module} (hc : c.Fits m) {e : Expr}
    (he : ∀ x ∈ e.walk, c.FitsNode x) :
    e.Emits c m := by
  induction e using Expr.induction with
  | step e ih =>
    -- any scope: the body of a loop is compiled in a scope of its own
    intro L sc s hsc
    have hnode := he e (self_mem_walk e)
    have hparts (p : Expr) (hp : p ∈ e.form.children) : p.Emits c m :=
      ih p hp fun x hx => he x (walk_subset_of_mem_children hp hx)
    obtain ⟨id, form, ty, span⟩ := e
    rw [compile]
    cases form with
    | literal value => exact code_literal value ty
    | var source => exact code_get (hnode.locals source (by simp [Form.usedLocals]))
    | binary operator lhs rhs =>
      have hlhs := hparts lhs (by simp) L sc s hsc
      have hrhs := hparts rhs (by simp) L sc (lhs.compile c sc s).2 hsc
      exact hlhs.binary hrhs operator.compile lhs.ty.numTy
    | unary operator operand =>
      have hoperand := hparts operand (by simp) L sc s hsc
      cases operator with
      | neg => exact hoperand.unary .neg operand.ty.numTy
      | not => exact hoperand.unary .eqz .i32
    | call callee args =>
      have hcallee : callee ∈ (Form.call callee args).children := mem_cons_self
      exact code_call_form hsc hc hnode (he callee (mem_walk_of_mem_children hcallee))
        fun e he => hparts e (mem_cons_of_mem _ he)
    | perform operation args typeArgs =>
      have hargs : ∀ e ∈ args, e.Emits c m := hparts
      refine code_perform hc hsc hargs id operation ty span _
        (fun site ordinal hsite hordinal => ?_) fun hnone => ?_
      · rw [Form.compile]
        simp only [hsite, hordinal]
      · rw [Form.compile]
        obtain hnone | hnone := hnone
        · simp only [hnone]
        · cases c.site? id <;> simp only [hnone]
    | block stmts tail => exact code_block hsc hnode hparts
    | assign target value =>
      have hvalue := hparts value (by simp) L sc s hsc
      have hset := code_set (hnode.locals target (by simp [Form.usedLocals])) hvalue
      exact Code.block (hset.cons (.nat (.refl _) 0))
    | branch cond onTrue onFalse => exact code_branch hsc hparts
    | select scrutinee arms => exact code_select hsc hnode hparts
    | loop body =>
      have hbody := hparts body (by simp) _ _ { s with nextLabel := s.nextLabel + 2 }
        (Scope.Fits.loop_body hsc ⟨s.nextLabel⟩ ⟨s.nextLabel + 1⟩)
      exact code_loop (hbody.cons (.goto (.refl _) mem_cons_self))
    | whileLoop cond body => exact code_while hsc (hparts cond (by simp)) (hparts body (by simp))
    | breakLoop =>
      rw [Form.compile]
      cases hloop : sc.loop with
      | none => exact code_unsupported (.refl s) span _
      | some l =>
        refine .of_binds_eq_nil (.refl s) (fun n _ => ?_) ?_
        · show allFit m n L [.br l.exit (some (.nat 0))] = true
          simp [(hsc.loop l hloop).1]
        · show bindsAll [.br l.exit (some (.nat 0))] = []
          simp
    | continueLoop =>
      rw [Form.compile]
      cases hloop : sc.loop with
      | none => exact code_unsupported (.refl s) span _
      | some l =>
        exact .goto (.refl s) (hsc.loop l hloop).2
    | ret value =>
      cases value with
      | none =>
        exact code_leave hc (.nat (.refl s) 0) span
      | some e =>
        exact code_leave hc (hparts e (by simp) L sc s hsc) span
    | handle body clauses finalizer => exact code_handle hc hsc hnode (hparts body mem_cons_self)
    | fn | op | intrinsic | closure | tuple | field => exact code_unsupported (.refl s) span _

end Effectful
