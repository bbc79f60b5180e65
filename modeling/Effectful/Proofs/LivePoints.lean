import Effectful.Interp.Run
import Effectful.Proofs.EmittedModule
import Effectful.Proofs.LivePaths
import Mathlib.Data.List.Flatten
/-!
# What is live behind the sites of a unit

The analysis of an expression leaves one note for each point inside it (`Expr.notes_live`), so a
unit with distinct ids has one note for each of its points.  That note has all locals that are read
before they are written on some path from there on (`LoweringUnit.Keeps`), and so has the
environment of the site (`Program.read_locals_are_saved`).
-/

namespace Effectful

open List

variable {es : List Expr} {e : Expr} {u : LoweringUnit}

/-! ### Notes -/

section

variable {c : LivenessContext} {targets : LoopTargets} {out : LocalSet}

/-- The parts of an expression that are evaluated in its unit. -/
def Expr.evaluated (c : LivenessContext) (x : Expr) : List Expr :=
  match x.form with
  | .handle body _ _ => if (c.units.handle? x.id).isSome then [] else [body]
  | .closure _ _ => []
  | form => form.children

theorem Expr.evaluated_sublist (x : Expr) : (x.evaluated c).Sublist x.form.children := by
  unfold evaluated
  split
  · rename_i hform
    rw [hform]
    split
    · exact nil_sublist _
    · exact (nil_sublist _).cons_cons _
  · exact nil_sublist _
  · exact List.Sublist.refl _

/-- Notes that come from expressions, each with what is live behind it and where `break` and
`continue` lead. -/
inductive Noted (c : LivenessContext) : List Expr → List (ExprId × LocalSet) → Prop where
  | nil : Noted c [] []
  | cons {e : Expr} {es : List Expr} {notes notes' : List (ExprId × LocalSet)}
      (targets : LoopTargets) (out : LocalSet)
    (rest : Noted c es notes) (h : notes'.Perm ((e.live c targets out).after ++ notes)) :
    Noted c (e :: es) notes'

theorem Noted.single (e : Expr) (targets : LoopTargets) (out : LocalSet) :
    Noted c [e] (e.live c targets out).after :=
  .cons targets out .nil (by rw [append_nil])

theorem Noted.append {es' : List Expr} {notes notes' : List (ExprId × LocalSet)}
    (h : Noted c es notes) (h' : Noted c es' notes') : Noted c (es ++ es') (notes ++ notes') := by
  induction h with
  | nil => exact h'
  | cons targets out rest h ih =>
    refine .cons targets out ih ?_
    rw [← append_assoc]
    exact h.append_right _

theorem noted_liveOperands (es : List Expr) (held : LocalSet) :
    Noted c es (liveOperands c es targets held out).after := by
  induction es generalizing held with
  | nil => exact .nil
  | cons e es ih => exact .cons _ _ (ih _) (List.Perm.refl _)

theorem noted_liveArgs (es : List Expr) : Noted c es (liveArgs c es targets out).after := by
  induction es with
  | nil => exact .nil
  | cons e es ih => exact .cons _ _ ih (List.Perm.refl _)

theorem noted_liveStmts (ss : List Stmt) :
    Noted c (ss.filterMap Stmt.expr?) (liveStmts c ss targets out).after := by
  induction ss with
  | nil => exact .nil
  | cons s ss ih =>
    match s with
    | .bind _ none => exact ih
    | .bind _ (some _) | .expr _ => exact .cons _ _ ih (List.Perm.refl _)

theorem noted_liveArms (arms : List Arm) (live : LocalSet) :
    Noted c (arms.map Arm.body) (liveArms c arms targets out live).after := by
  induction arms generalizing live with
  | nil => exact .nil
  | cons arm arms ih =>
    rw [liveArms_cons]
    exact .cons _ _ (ih _) perm_append_comm

theorem exists_after_fixpoint (round : LocalSet → Liveness) (bound : Nat) (head : LocalSet) :
    ∃ head', (Liveness.fixpoint round bound head).after = (round head').after := by
  induction bound generalizing head with
  | zero => exact ⟨head, rfl⟩
  | succ bound ih =>
    rw [Liveness.fixpoint]
    split
    · exact ⟨head, rfl⟩
    · exact ih _

/-- **The notes of an expression**: those of its parts, and one of its own if it is a point. -/
theorem Expr.notes_live (x : Expr) (targets : LoopTargets) (out : LocalSet) :
    ∃ notes, Noted c (x.evaluated c) notes ∧
      (x.live c targets out).after.Perm (notes ++ if x.isPoint c then [(x.id, out)] else []) := by
  -- only points leave a note of their own
  have hplain (hpoint : x.isPoint c = false)
      (hnotes : Noted c (x.evaluated c) (x.live c targets out).after) :
      ∃ notes, Noted c (x.evaluated c) notes ∧
        (x.live c targets out).after.Perm (notes ++ if x.isPoint c then [(x.id, out)] else []) := by
    refine ⟨_, hnotes, ?_⟩
    rw [hpoint, if_neg Bool.false_ne_true, append_nil]
  obtain ⟨id, form, ty, span⟩ := x
  cases form with
  | literal | fn | op | intrinsic | var | breakLoop | continueLoop | closure =>
    exact hplain rfl .nil
  | assign target value => exact hplain rfl (.single value _ _)
  | unary operator operand => exact hplain rfl (.single operand _ _)
  | field base index => exact hplain rfl (.single base _ _)
  | binary operator lhs rhs => exact hplain rfl (.cons _ _ (.single rhs _ _) (List.Perm.refl _))
  | tuple items => exact hplain rfl (noted_liveOperands items _)
  | perform operation args typeArgs => exact ⟨_, noted_liveOperands args _, List.Perm.refl _⟩
  | call callee args =>
    cases htransfer : c.transfer? callee with
    | none =>
      have hpoint : (Expr.node id (.call callee args) ty span).isPoint c = true := by
        simp [isPoint, htransfer]
      have hlive : (Expr.node id (.call callee args) ty span).live c targets out =
          (callee.live c targets (liveOperands c args targets callee.reads out).before).andThen
            ((liveOperands c args targets callee.reads out).after ++ [(id, out)]) := by
        simp [live, Form.live, htransfer]
      generalize hfound : liveOperands c args targets callee.reads out = found at hlive
      have hargs : Noted c args found.after := hfound ▸ noted_liveOperands args callee.reads
      refine ⟨_, .cons targets found.before hargs (List.Perm.refl _), ?_⟩
      rw [hpoint, hlive, if_pos rfl, append_assoc]
      exact List.Perm.refl _
    | some k =>
      have hcallee : callee.form.isAtom = true := by
        rw [LivenessContext.form_of_transfer? htransfer]
        rfl
      have hlive : ((Expr.node id (.call callee args) ty span).live c targets out).after =
          (liveArgs c args targets c.forced).after := by
        simp [live, Form.live, htransfer]
      have hargs : Noted c args (liveArgs c args targets c.forced).after := noted_liveArgs args
      refine hplain (by simp [isPoint, htransfer]) (.cons targets out hargs ?_)
      rw [hlive, (live_of_isAtom hcallee).2]
      exact List.Perm.refl _
  | block stmts tail =>
    cases tail with
    | none => exact hplain rfl ((noted_liveStmts stmts).append .nil)
    | some e => exact hplain rfl ((noted_liveStmts stmts).append (.single e _ _))
  | branch cond onTrue onFalse =>
    cases onFalse with
    | none => exact hplain rfl (.cons _ _ (.single onTrue _ _) (List.Perm.refl _))
    | some e => exact hplain rfl (.cons _ _ (.cons _ _ (.single e _ _) perm_append_comm)
        (List.Perm.refl _))
  | select scrutinee arms => exact hplain rfl (.cons _ _ (noted_liveArms arms _) (List.Perm.refl _))
  | loop body =>
    refine hplain rfl ?_
    -- the notes of the earlier rounds are dropped
    obtain ⟨head, hhead⟩ :=
      exists_after_fixpoint (fun head => body.live c ⟨out, head⟩ head) c.bound []
    rw [live, Form.live, hhead]
    exact .single body _ _
  | whileLoop cond body =>
    refine hplain rfl ?_
    rw [live, Form.live]
    obtain ⟨head, hhead⟩ := exists_after_fixpoint _ c.bound []
    rw [hhead]
    exact .cons _ _ (.single body _ _) (List.Perm.refl _)
  | ret value =>
    cases value with
    | none => exact hplain rfl .nil
    | some e => exact hplain rfl (.single e _ _)
  | handle body clauses finalizer =>
    cases hlifted : c.units.handle? id with
    | none =>
      refine hplain (by simp [isPoint, Expr.id, hlifted]) ?_
      simp only [evaluated, form, Expr.id, hlifted, live, Form.live]
      exact .single body _ _
    | some h =>
      refine ⟨[], ?_, ?_⟩
      · simp only [evaluated, form, Expr.id, hlifted]
        exact .nil
      · simp [isPoint, Expr.id, hlifted, live, Form.live]

/-- Nodes have one note each at most. -/
theorem Expr.count_notes_le (e : Expr) (targets : LoopTargets) (out : LocalSet) (i : ExprId) :
    ((e.live c targets out).after.map (·.1)).count i ≤ e.ids.count i := by
  induction e using Expr.induction generalizing targets out with
  | step e ih =>
    have hparts {es : List Expr} {notes : List (ExprId × LocalSet)} (hnotes : Noted c es notes)
        (hes : ∀ x ∈ es, x ∈ e.form.children) : (notes.map (·.1)).count
        i ≤ (es.flatMap ids).count i := by
      induction hnotes with
      | nil => exact Nat.le_refl _
      | @cons x es notes notes' targets out rest hperm ihes =>
        rw [forall_mem_cons] at hes
        rw [(hperm.map _).count_eq, map_append, count_append, flatMap_cons, count_append]
        exact Nat.add_le_add (ih x hes.1 targets out) (ihes hes.2)
    obtain ⟨notes, hnotes, hperm⟩ := e.notes_live (c := c) targets out
    have hsub := e.evaluated_sublist (c := c)
    have hevaluated : ((e.evaluated c).flatMap ids).count
        i ≤ (e.form.children.flatMap ids).count i :=
      (hsub.flatMap ids).count_le i
    have hnotes := hparts hnotes fun x hx => hsub.subset hx
    rw [(hperm.map _).count_eq, map_append, count_append, ids_eq, count_cons]
    split
    · simp only [map_cons, map_nil, count_singleton]
      omega
    · simp only [map_nil, count_nil]
      omega

theorem Noted.exists_of_mem {notes : List (ExprId × LocalSet)} (h : Noted c es notes)
    {note : ExprId × LocalSet} (hn : note ∈ notes) :
    ∃ e ∈ es, ∃ targets out, note ∈ (e.live c targets out).after := by
  induction h with
  | nil => cases hn
  | @cons e es notes notes' targets out rest hperm ih =>
    obtain hn | hn := mem_append.mp (hperm.mem_iff.mp hn)
    · exact ⟨e, mem_cons_self, targets, out, hn⟩
    · obtain ⟨e', he', hnote⟩ := ih hn
      exact ⟨e', mem_cons_of_mem _ he', hnote⟩

/-! ### All points are reached -/

theorem Todo.eval_mem_operands (h : e ∈ es) (held : LocalSet) :
    Todo.eval e ∈ Todo.operands held es := by
  induction es generalizing held with
  | nil => cases h
  | cons e' es ih =>
    obtain rfl | h := mem_cons.mp h
    · exact mem_cons_self
    · exact mem_cons_of_mem _ (mem_cons_of_mem _ (ih h _))

theorem Todo.eval_mem_stmt {s : Stmt} (h : s.expr? = some e) : Todo.eval e ∈ Todo.stmt s := by
  match s with
  | .bind _ none => cases h
  | .bind _ (some _) | .expr _ =>
    obtain rfl := Option.some.inj h
    exact mem_cons_self

namespace LoweringUnit

variable {k : List Todo}

theorem Pending.exists_of_mem (h : u.Pending c k) {t : Todo} (ht : t ∈ k) :
    ∃ k', u.Pending c (t :: k') := by
  obtain ⟨before, behind, rfl⟩ := append_of_mem ht
  exact ⟨behind, h.drop before⟩

/-- The parts of an expression come up when it does. -/
theorem Pending.exists_of_evaluated {x : Expr} (h : u.Pending c (.eval x :: k))
    (he : e ∈ x.evaluated c) :
    ∃ k', u.Pending c (.eval e :: k') := by
  have htodo {t : Todo} (ht : t ∈ x.todo c) : ∃ k', u.Pending c (t :: k') :=
    (h.move (.eval x k)).exists_of_mem (mem_append_left _ ht)
  obtain ⟨id, form, ty, span⟩ := x
  cases form with
  | literal | fn | op | intrinsic | var | breakLoop | continueLoop | closure => cases he
  | assign | unary | field | loop =>
    obtain rfl := mem_singleton.mp he
    exact htodo mem_cons_self
  | binary | tuple | perform => exact htodo (Todo.eval_mem_operands he [])
  | call callee args => exact htodo (mem_append_left _ (Todo.eval_mem_operands he []))
  | block stmts tail =>
    obtain he | he := mem_append.mp he
    · obtain ⟨s, hs, he⟩ := mem_filterMap.mp he
      exact htodo (mem_append_left _ (mem_flatMap.mpr ⟨s, hs, Todo.eval_mem_stmt he⟩))
    · exact htodo (mem_append_right _ (mem_map_of_mem he))
  | branch cond onTrue onFalse =>
    -- both branches are open once the condition is done
    obtain rfl | he := mem_cons.mp he
    · exact htodo mem_cons_self
    · obtain ⟨k', hk'⟩ := htodo (mem_cons_of_mem _ mem_cons_self)
      obtain rfl | he := mem_cons.mp he
      · exact ⟨k', hk'.move (.onTrue _ _ _)⟩
      · exact (hk'.move (.onFalse _ _ _)).exists_of_mem (mem_append_left _ (mem_map_of_mem he))
  | select scrutinee arms =>
    obtain rfl | he := mem_cons.mp he
    · exact htodo mem_cons_self
    · obtain ⟨k', hk'⟩ := htodo (mem_cons_of_mem _ mem_cons_self)
      obtain ⟨arm, harm, rfl⟩ := mem_map.mp he
      refine (hk'.move (.arm harm k')).exists_of_mem (mem_append_left _ ?_)
      exact mem_append_right _ mem_cons_self
  | whileLoop cond body =>
    obtain rfl | he := mem_cons.mp he
    · exact htodo mem_cons_self
    · obtain rfl := mem_singleton.mp he
      obtain ⟨k', hk'⟩ := htodo (mem_cons_of_mem _ mem_cons_self)
      exact ⟨_, hk'.move (.enter rfl k')⟩
  | ret value => exact htodo (mem_append_left _ (mem_map_of_mem he))
  | handle body clauses finalizer =>
    simp only [Expr.evaluated, Expr.form] at he
    split at he
    · cases he
    · rename_i hlifted
      obtain rfl := mem_singleton.mp he
      refine htodo ?_
      simp only [Expr.todo, Expr.form, Option.not_isSome_iff_eq_none.mp hlifted]
      exact mem_cons_self

/-- Each note comes from a point. -/
theorem Pending.exists_of_note (h : u.Pending c (.eval e :: k)) {note : ExprId × LocalSet}
    (hn : note ∈ (e.live c targets out).after) :
    ∃ x k', u.Pending c (.eval x :: k') ∧ x.isPoint c = true ∧ x.id = note.1 := by
  induction e using Expr.induction generalizing k targets out with
  | step e ih =>
    obtain ⟨notes, hnotes, hperm⟩ := e.notes_live (c := c) targets out
    obtain hn | hn := mem_append.mp (hperm.mem_iff.mp hn)
    · obtain ⟨part, hpart, targets', out', hn⟩ := hnotes.exists_of_mem hn
      obtain ⟨k', hk'⟩ := h.exists_of_evaluated hpart
      exact ih part (e.evaluated_sublist.subset hpart) hk' hn
    · split at hn
      · rename_i hpoint
        rw [mem_singleton.mp hn]
        exact ⟨e, k, h, hpoint, rfl⟩
      · cases hn

end LoweringUnit

end

/-! ### Units -/

namespace LoweringUnit

variable {a : EffectAnalysis} {units : LiftedProgram}

/-- The context in which a unit is analysed. -/
def livenessContext (u : LoweringUnit) (a : EffectAnalysis) (units : LiftedProgram) :
    LivenessContext where
  units := units
  forced := u.forced
  transfers := u.continuationsOf a .tail
  bound := u.forced.length + u.body.roundBound units + 1

def liveable (u : LoweringUnit) (units : LiftedProgram) : List LocalId :=
  u.forced ++ u.body.mentioned units

theorem bounded_livenessContext (u : LoweringUnit) (a : EffectAnalysis) (units : LiftedProgram) :
    (u.livenessContext a units).Bounded (u.liveable units) := by
  refine ⟨⟨?_, fun l hl => mem_append_left _ hl⟩, ?_⟩
  · show u.forced.Ascending
    unfold forced
    split
    · exact LocalSet.ascending_ofList _
    · exact List.Pairwise.nil
  · show (u.liveable units).length < u.forced.length + u.body.roundBound units + 1
    rw [liveable, length_append, Expr.roundBound_eq]
    omega

theorem liveAfter_eq (a : EffectAnalysis) (units : LiftedProgram) (hu : u.Orderly) :
    u.liveAfter units u.forced (u.continuationsOf a .tail) = u.regions.reverse.flatMap fun e =>
      (e.live (u.livenessContext a units) {} (if u.isDrive then u.forced else [])).after := by
  cases hdrive : u.isDrive with
  | false =>
    rw [regions_of_not_isDrive hdrive]
    unfold liveAfter
    split
    · rename_i h _
      rw [hdrive] at h
      cases h
    · simp [livenessContext]
  | true =>
    obtain ⟨ty, span, clauses, hbody, hregions, -⟩ := hu.drive hdrive
    rw [hregions, ← map_reverse, flatMap_map]
    unfold liveAfter
    split
    · rename_i body clauses' finalizer _ hform
      rw [hbody] at hform
      cases hform
      rfl
    · rename_i hnot
      rw [hbody] at hnot
      exact absurd rfl (hnot _ _ _ hdrive)

theorem nodup_keys_liveAfter (a : EffectAnalysis) (units : LiftedProgram) (hu : u.Orderly) :
    ((u.liveAfter units u.forced (u.continuationsOf a .tail)).map (·.1)).Nodup := by
  rw [nodup_iff_count_le_one]
  intro i
  refine Nat.le_trans ?_ (nodup_iff_count_le_one.mp hu.nodup i)
  rw [liveAfter_eq a units hu]
  generalize u.regions = es
  rw [((es.reverse_perm.flatMap_right _).map _).count_eq]
  induction es with
  | nil => exact Nat.le_refl _
  | cons e es ih =>
    rw [flatMap_cons, map_append, count_append, flatMap_cons, count_append]
    exact Nat.add_le_add (Expr.count_notes_le _ _ _ _) ih

/-- The note of a point is found by the id of the point. -/
theorem lookup_liveAfter (hu : u.Orderly) {i : ExprId} {live : LocalSet}
    (h : (i, live) ∈ u.liveAfter units u.forced (u.continuationsOf a .tail)) :
    (u.liveAfter units u.forced (u.continuationsOf a .tail)).lookup i = some live := by
  have hkeys := nodup_keys_liveAfter a units hu
  obtain ⟨before, behind, hsplit⟩ := append_of_mem h
  rw [hsplit, map_append, map_cons, nodup_append] at hkeys
  rw [hsplit, lookup_eq_some_iff]
  refine ⟨before, behind, rfl, fun other hother => ?_⟩
  have hne := hkeys.2.2 other.1 (mem_map_of_mem hother) i mem_cons_self
  simpa using fun heq => hne heq.symm

/-- What a site saves: what is live everywhere, and what is noted for its point. -/
theorem mem_liveAfter_of_mem_sites {f : FnDecl} {m : EffectMetadata} {position first : Nat}
    {s : EffectSite} (h : s ∈ u.sites f a m units position first) {l : LocalId} :
    l ∈ s.liveAfter ↔ l ∈ u.forced ∨ s.kind ≠ .forward ∧
      ∃ live, (u.liveAfter units u.forced (u.continuationsOf a .tail)).lookup s.expr = some live ∧
        l ∈ live := by
  obtain ⟨⟨d, j⟩, -, rfl⟩ := mem_map.mp h
  simp only [mem_sortByDefinition]
  split
  · rename_i hkind
    simp [hkind]
  · rename_i hkind
    have hne : d.kind ≠ .forward := hkind
    rw [LocalSet.mem_union, or_comm]
    cases (u.liveAfter units u.forced (u.continuationsOf a .tail)).lookup d.expr with
    | none => simp
    | some live => simp [hne]

/-- What a unit reads later is kept for it where it may be suspended. -/
structure Keeps (u : LoweringUnit) (c : LivenessContext) (notes : List (ExprId × LocalSet))
    (sites : List EffectSite) :
    Prop where
  /-- Notes belong to points of the unit. -/
  points : ∀ i live, notes.lookup i = some live → ∃ x k, u.Pending c (.eval x :: k) ∧ x.isPoint
    c = true ∧ x.id = i
  /-- Each point has a note, with all that is read before it is written on some path from there
  on. -/
  noted : ∀ x k, u.Pending c (.eval x :: k) → x.isPoint c = true →
    ∃ live, notes.lookup x.id = some live ∧ ∀ l, c.ReadsFirst l k → l ∈ live
  /-- This is saved at the site of the point. -/
  saved : ∀ s ∈ sites, s.kind ≠ .forward → ∀ x k, u.Pending c (.eval x :: k) → x.isPoint c = true →
    x.id = s.expr → ∀ l, c.ReadsFirst l k → l ∈ s.liveAfter
  /-- All sites save what the dispatch of a drive unit reads. -/
  forced : ∀ s ∈ sites, ∀ l ∈ c.forced, l ∈ s.liveAfter
  /-- The analysis of each loop comes to an end, from any locals of the unit. -/
  settles : ∀ e ∈ u.regions, ∀ x ∈ e.walk, ∀ targets out round, targets.Within
    (LocalSet.Among (u.liveable c.units)) → LocalSet.Among (u.liveable c.units) out → x.form.round?
    c targets out = some round → Liveness.Settles round [] (x.live c targets out)

end LoweringUnit

/-! ### Resumptions in normal form -/

namespace Expr

variable {a : EffectAnalysis}

/-- A call through a local has atoms as its arguments. -/
def CallsWithAtoms (x : Expr) : Prop :=
  ∀ callee args k, x.form = .call callee args → callee.form = .var k →
    ∀ e ∈ args, e.form.isAtom = true

theorem callsWithAtoms_of_isNormal {x : Expr} (h : x.form.IsNormal a) : x.CallsWithAtoms := by
  intro callee args k hform hcallee e he
  refine h.own ?_ e ?_
  · rw [hform, Form.suspends, hcallee]
  · rw [hform]
    exact mem_cons_of_mem _ he

theorem cut_of_isAtom (h : e.form.isAtom = true) : e.cut a = e := by
  obtain ⟨id, form, ty, span⟩ := e
  cases form <;> first | rfl | cases h

/-- Cutting makes no reads of locals. -/
theorem form_of_form_cut_eq_var {k : LocalId} (h : (e.cut a).form = .var k) : e.form = .var k := by
  refine cut_induction (M := fun e e' => e'.form = .var k → e.form = .var k)
    (fun e _ h => ?_) ?_ e h
  · rw [form, Form.withChildren.eq_def] at h
    split at h <;> first | exact h | cases h
  · intro _ _ _ _ _ _ h
    cases h

theorem exists_eq_call_of_withChildren {form : Form} {cs args : List Expr} {callee : Expr}
    (hlen : cs.length = form.children.length) (h : form.withChildren cs = .call callee args) :
    ∃ callee₀ args₀, form = .call callee₀ args₀ ∧ cs = callee :: args := by
  have hcs := (Form.resembles_withChildren hlen).children
  rw [h] at hcs
  unfold Form.withChildren at h
  split at h <;> first | exact ⟨_, _, rfl, hcs.symm⟩ | exact ⟨_, _, h, hcs.symm⟩ | cases h

theorem callsWithAtoms_unitAt (id : ExprId) (span : Span) :
    ∀ x ∈ (unitAt id span).walk, x.CallsWithAtoms := by
  rw [forall_walk_iff]
  exact ⟨fun callee args k hform => (by cases hform), by simp [unitAt, Form.children]⟩

theorem callsWithAtoms_walk_cut (h : ∀ x ∈ e.walk, x.CallsWithAtoms) :
    ∀ x ∈ (e.cut a).walk, x.CallsWithAtoms := by
  refine cut_induction (M := fun e e' => (∀ x ∈ e.walk, x.CallsWithAtoms) → ∀ x ∈ e'.walk,
    x.CallsWithAtoms) ?_ ?_ e h
  · intro e ih h
    have hlen : (e.form.children.map (Expr.cut a)).length = e.form.children.length := length_map _
    rw [forall_walk_iff] at h ⊢
    refine ⟨fun callee args k hform hcallee e' he' => ?_, ?_⟩
    · obtain ⟨callee₀, args₀, hform₀, hcs⟩ := exists_eq_call_of_withChildren hlen hform
      rw [hform₀, Form.children, map_cons, List.cons.injEq] at hcs
      obtain ⟨rfl, rfl⟩ := hcs
      obtain ⟨e₀, he₀, rfl⟩ := mem_map.mp he'
      have hatom := h.1 callee₀ args₀ k hform₀ (form_of_form_cut_eq_var hcallee) e₀ he₀
      rw [cut_of_isAtom hatom]
      exact hatom
    · rw [form, (Form.resembles_withChildren hlen).children]
      intro c hc
      obtain ⟨c, hc', rfl⟩ := mem_map.mp hc
      exact ih c hc' (h.2 c hc')
  · intro id body clauses finalizer ty span h
    rw [forall_walk_iff] at h ⊢
    refine ⟨fun callee args k hform => (by cases hform), fun c hc => ?_⟩
    simp only [Expr.form, Form.children, map_nil, nil_append, mem_cons] at hc
    obtain rfl | hc := hc
    · exact callsWithAtoms_unitAt _ _
    · exact h.2 c (by simp [Form.children, hc])

end Expr

theorem LoweringUnit.Origin.callsWithAtoms {f : FnDecl} {a : EffectAnalysis} (h : u.Origin f a)
    (hf : ∀ x ∈ f.body.walk, x.CallsWithAtoms) : ∀ x ∈ u.body.walk, x.CallsWithAtoms := by
  cases h with
  | function => exact Expr.callsWithAtoms_walk_cut hf
  | body n mem =>
    refine Expr.callsWithAtoms_walk_cut fun x hx => hf x (Expr.walk_subset_of_mem_walk mem ?_)
    exact Expr.walk_subset_of_mem_children (by exact mem_cons_self) hx
  | @drive id body clauses finalizer ty span n mem =>
    show ∀ x ∈ (emptyHandle id ty span (cutClauses a clauses)).walk, x.CallsWithAtoms
    rw [Expr.forall_walk_iff]
    refine ⟨fun callee args k hform => (by cases hform), ?_⟩
    intro c hc
    obtain rfl | hc := mem_cons.mp hc
    · exact Expr.callsWithAtoms_unitAt _ _
    · rw [Option.toList_none, append_nil, map_body_cutClauses] at hc
      obtain ⟨e, he, rfl⟩ := mem_map.mp hc
      refine Expr.callsWithAtoms_walk_cut fun x hx => hf x (Expr.walk_subset_of_mem_walk mem ?_)
      exact Expr.walk_subset_of_mem_children (mem_cons_of_mem _ (mem_append_left _ he)) hx

theorem LoweringUnit.plain (a : EffectAnalysis) (units : LiftedProgram)
    (hcalls : ∀ x ∈ u.body.walk, x.CallsWithAtoms) :
    ∀ e ∈ u.regions, ∀ x ∈ e.walk, x.Plain (u.livenessContext a units) (u.liveable units) := by
  intro e he x hx
  have hbody : x ∈ u.body.walk := u.walk_subset_of_mem_regions he hx
  refine ⟨⟨fun l hl => ?_, fun hhandle h hh l hl => ?_⟩, fun callee args hform htransfer => ?_⟩
  · exact mem_append_right _ ((Expr.mentionsOnly_of_mem_walk hbody).used l hl)
  · exact mem_append_right _ ((Expr.mentionsOnly_of_mem_walk hbody).passed hhandle h hh l hl)
  · obtain ⟨k, hk⟩ := Option.isSome_iff_exists.mp htransfer
    exact hcalls x hbody callee args k hform (LivenessContext.form_of_transfer? hk)

/-- The sites of a unit save what the unit reads later. -/
theorem LoweringUnit.Orderly.keeps {a : EffectAnalysis} {units : LiftedProgram}
    {sites : List EffectSite} (hu : u.Orderly) (hcalls : ∀ x ∈ u.body.walk, x.CallsWithAtoms)
    (hsites : ∀ s ∈ sites, ∃ f m position first, s ∈ u.sites f a m units position first) :
    u.Keeps (u.livenessContext a units)
      (u.liveAfter units u.forced (u.continuationsOf a .tail)) sites := by
  have hc := u.bounded_livenessContext a units
  have hplain := LoweringUnit.plain a units hcalls
  have hafter := liveAfter_eq a units hu
  have hnoted (x : Expr) (k : List Todo) (hk : u.Pending (u.livenessContext a units) (.eval x :: k))
      (hx : x.isPoint (u.livenessContext a units) = true) :
      ∃ live, (u.liveAfter units u.forced (u.continuationsOf a .tail)).lookup x.id = some live ∧
        ∀ l, (u.livenessContext a units).ReadsFirst l k → l ∈ live := by
    refine ⟨((u.livenessContext a units).rest k).live, ?_, fun l hl => ?_⟩
    · refine lookup_liveAfter hu (hk.notes_subset hc hplain (fun e he => ?_) ?_)
      · rw [hafter]
        exact fun note hn => mem_flatMap.mpr ⟨e, mem_reverse.mpr he, hn⟩
      · exact mem_append_left _ (Expr.note_mem_of_isPoint hx)
    · exact hl.mem_live hc (forall_mem_cons.mp (hk.fits hc hplain)).2
  refine ⟨fun i live hi => ?_, hnoted, fun s hs hkind x k hk hx hid l hl => ?_,
    fun s hs l hl => ?_, ?_⟩
  · obtain ⟨before, behind, hsplit, -⟩ := lookup_eq_some_iff.mp hi
    have hn : (i, live) ∈ u.liveAfter units u.forced (u.continuationsOf a .tail) := by simp [hsplit]
    rw [hafter] at hn
    obtain ⟨e, he, hn⟩ := mem_flatMap.mp hn
    exact (Pending.start (mem_reverse.mp he)).exists_of_note hn
  · obtain ⟨f, m, position, first, hs⟩ := hsites s hs
    obtain ⟨live, hlive, hreads⟩ := hnoted x k hk hx
    exact (mem_liveAfter_of_mem_sites hs).mpr (.inr ⟨hkind, live, hid ▸ hlive, hreads l hl⟩)
  · obtain ⟨f, m, position, first, hs⟩ := hsites s hs
    exact (mem_liveAfter_of_mem_sites hs).mpr (.inl hl)
  · intro e he x hx targets out round htargets hout hround
    exact Expr.settles_live hc.forced hc.bound
      (fun y hy => (hplain e he y (Expr.walk_subset_of_mem_walk hx hy)).mentions) htargets
      hout hround

/-! ### Programs -/

namespace Program

variable {p : Program} {a : EffectAnalysis} {md : EffectMetadata} {lowered : LoweredProgram}
  {i : Nat} {u : LoweringUnit}

/-- **What is read later is saved.** In the lowering of a program with distinct ids, each point of
each unit has a note with all locals that are read before they are written on some path from there
on, and the site of the point saves them.  The analysis of each loop ends by itself. -/
theorem read_locals_are_saved (hp : p.DistinctNodes) (h : p.lowerWith? a md = some lowered)
    (hu : lowered.units.units[i]? = some u) :
    u.Keeps (u.livenessContext a lowered.units)
      (u.liveAfter lowered.units u.forced (u.continuationsOf a .tail))
      (lowered.sites.unitSites i) := by
  obtain ⟨p', hp', rfl⟩ := exists_lowered_of_lowerWith? h
  have hmem : u ∈ (p'.lift a).units := mem_of_getElem? hu
  have horderly := (hp.normalize hp').orderly hmem
  obtain ⟨f, hf, horigin⟩ := exists_origin hmem
  have hcalls : ∀ x ∈ u.body.walk, x.CallsWithAtoms := by
    refine horigin.callsWithAtoms fun x hx => ?_
    obtain ⟨f₀, -, s, -, rfl⟩ := exists_of_mem_normalize? hp' hf
    exact Expr.callsWithAtoms_of_isNormal (Expr.isNormal_normalize _ s x hx)
  obtain ⟨first, hsites, -⟩ := unitSites_siteTable (p := p') (a := a) (m := md) hu
  refine horderly.keeps hcalls fun s hs => ?_
  rw [show (p'.lowered a md).sites.unitSites i = _ from hsites] at hs
  unfold LoweringUnit.ownSites at hs
  split at hs
  · exact ⟨_, _, _, _, hs⟩
  · cases hs

/-- Answers are taken off a number until it is zero. -/
def untilZero : Program where
  effects := [{ id := ⟨0⟩, name := "A", ops := [⟨"a", 0, [], .i32, .tail⟩] }]
  functions := [
    { id := ⟨1⟩, name := "main", params := [⟨0⟩], ret := .i32, exported := true
      locals := [⟨"n", .i32⟩]
      body := .i32 13 (.loop (.node ⟨12⟩ (.block [
        .expr (.node ⟨7⟩ (.branch
          (.node ⟨4⟩ (.binary .eq (.i32 2 (.var ⟨0⟩))
          (.i32 3 (.literal (.int 0)))) .bool {})
          (.node ⟨6⟩ (.ret (some (.i32 5 (.var ⟨0⟩)))) .unit {}) none) .unit {}),
        .expr (.node ⟨11⟩ (.assign ⟨0⟩ (.i32 10 (.binary .sub (.i32 8 (.var ⟨0⟩))
          (.i32 9 (.perform ⟨⟨0⟩, 0⟩ [] []))))) .unit {})] none) .unit {})) }]

/-- While the answer is awaited, the number is in a temporary. -/
theorem read_locals_are_saved_untilZero :
    untilZero.DistinctNodes ∧ ∃ lowered u, untilZero.lowerWith? (untilZero.analyze true) default =
      some lowered ∧ lowered.units.units[0]? = some u ∧
      (lowered.sites.unitSites 0).map (·.liveAfter) = [[⟨1⟩]] ∧
      u.Keeps (u.livenessContext (untilZero.analyze true) lowered.units)
        (u.liveAfter lowered.units u.forced (u.continuationsOf (untilZero.analyze true) .tail))
        (lowered.sites.unitSites 0) := by
  have hnodes : untilZero.DistinctNodes := by decide +kernel
  have htable : (untilZero.lowerWith? (untilZero.analyze true) default).map (fun lowered =>
      ((lowered.units.units[0]?).isSome, (lowered.sites.unitSites 0).map (·.liveAfter))) =
        some (true, [[⟨1⟩]]) := by
    decide +kernel
  obtain ⟨lowered, hlowered, htable⟩ := Option.map_eq_some_iff.mp htable
  obtain ⟨hunit, hlive⟩ := Prod.mk.inj htable
  obtain ⟨u, hu⟩ := Option.isSome_iff_exists.mp hunit
  exact ⟨hnodes, lowered, u, hlowered, hu, hlive, read_locals_are_saved hnodes hlowered hu⟩

/-- A local is declared a second time, without a value, after an answer has come. -/
def redeclared : Program where
  effects := [{ id := ⟨0⟩, name := "A", ops := [⟨"a", 0, [], .i32, .tail⟩] }]
  functions := [
    { id := ⟨1⟩, name := "main", params := [], ret := .i32, exported := true
      locals := [⟨"y", .i32⟩]
      body := .i32 5 (.block [.bind ⟨0⟩ (some (.i32 2 (.literal (.int 7)))),
        .expr (.i32 3 (.perform ⟨⟨0⟩, 0⟩ [] [])), .bind ⟨0⟩ none]
        (some (.i32 4 (.var ⟨0⟩)))) }]

/-- **A declaration without a value ends the old value for the analysis only.** A run still finds
the old value behind it, but no site saves it. -/
theorem redeclared_local_not_saved :
    let s : Interp.Setting := { program := redeclared, analysis := redeclared.analyze true }
    ((s.run (fun _ _ => (.ok (.i32 1), ())) 0 100 () {} "main" []).bind fun after =>
        after.1.result.toOption.map (·.text)) = some "7" ∧
      (redeclared.lowerWith? (redeclared.analyze true) default).map
      (·.sites.sites.map (·.liveAfter)) = some [[]] := by
  decide +kernel

end Program

end Effectful
