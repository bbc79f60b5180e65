import Effectful.Proofs.Scoping
import Mathlib.Data.List.Forall2
import Mathlib.Data.List.Nodup
/-!
# Lexical scope

A construct makes locals visible in some of its parts: a block in what follows a declaration, a
match in an arm, a handler in a clause, a closure in its body (`Form.enclosed`).  `Expr.walkIn`
lists the nodes of an expression, each with its place, the locals that are visible there and whether
a loop surrounds it.

A function is *lexical* if each of its locals has one binder and is used only where it is visible
(`FnDecl.IsLexical`).  Normalization keeps that property, since new locals are behind the old ones
(`FnDecl.IsLexical.normalize`), and so does cutting handlers out (`PlaceRule.cut`).
-/

namespace Effectful

open List

attribute [local simp] Form.children

variable {form : Form} {ss stmts : List Stmt} {l : LocalId} {es cs : List Expr} {e : Expr}
  {id : ExprId} {ty : Ty} {span : Span} {s s' : NormalState} {a : EffectAnalysis}

/-! ### Places -/

/-- Where a node stands: the locals that are visible there, and whether a loop surrounds it. -/
structure Place where
  visible : List LocalId
  inLoop : Bool := false

/-- How a construct encloses a part: the locals that it makes visible there, and whether the part is
in a loop, if that does not depend on the construct's own place. -/
structure Enclosure where
  binds : List LocalId := []
  loop : Option Bool := none

/-- The place of a part of a construct. -/
def Enclosure.enter (o : Enclosure) (P : Place) : Place :=
  ⟨o.binds ++ P.visible, o.loop.getD P.inLoop⟩

/-- The expressions of statements; a local is visible behind its declaration. -/
def enclosedStmts (binds : List LocalId) : List Stmt → List (Enclosure × Expr)
  | [] => []
  | .bind l (some e) :: ss => ({ binds }, e) :: enclosedStmts (l :: binds) ss
  | .bind l none :: ss => enclosedStmts (l :: binds) ss
  | .expr e :: ss => ({ binds }, e) :: enclosedStmts binds ss

/-- The body of an arm, where what the pattern declares is visible. -/
def Arm.enclosed (arm : Arm) : Enclosure × Expr :=
  ({ binds := arm.pattern.declared?.toList }, arm.body)

/-- The body of a clause, where its parameters and its continuation are visible. -/
def Clause.enclosed (c : Clause) : Enclosure × Expr :=
  ({ binds := c.head.continuation :: c.head.params }, c.body)

/-- The direct parts of a construct, and how it encloses them.

The condition of a while loop counts as inside of the loop: the emitted code has it between the
labels of the loop, and lifting keeps it there.  The interpreter takes an exit of the condition out
of the loop, so `Expr.isSelfContained` and the paths of `Todo` count it as outside. -/
def Form.enclosed : Form → List (Enclosure × Expr)
  | .block stmts tail =>
    enclosedStmts [] stmts ++ tail.toList.map ({ binds := stmts.filterMap Stmt.declared? }, ·)
  | .select scrutinee arms => ({}, scrutinee) :: arms.map Arm.enclosed
  | .loop body => [({ loop := some true }, body)]
  | .whileLoop cond body => [({ loop := some true }, cond), ({ loop := some true }, body)]
  | .handle body clauses finalizer =>
    ({}, body) :: (clauses.map Clause.enclosed ++ finalizer.toList.map ({}, ·))
  | .closure params body => [({ binds := params, loop := some false }, body)]
  | form => form.children.map ({}, ·)

mutual

/-- The node and all below it with their places, a node before its parts. -/
def Expr.walkIn (P : Place) : Expr → List (Place × Expr)
  | .node id form ty span => (P, .node id form ty span) :: form.walkPartsIn P
termination_by structural part => part

def Form.walkPartsIn (P : Place) : Form → List (Place × Expr)
  | .literal _ | .var _ | .fn _ | .op _ _ | .breakLoop | .continueLoop | .intrinsic _ => []
  | .binary _ lhs rhs => lhs.walkIn P ++ rhs.walkIn P
  | .unary _ operand => operand.walkIn P
  | .call callee args => callee.walkIn P ++ walkAllIn P args
  | .perform _ args _ => walkAllIn P args
  | .block stmts tail =>
    walkStmtsIn P stmts ++
      (match tail with
      | some e => e.walkIn ⟨stmts.filterMap Stmt.declared? ++ P.visible, P.inLoop⟩
      | none => [])
  | .assign _ value => value.walkIn P
  | .branch cond onTrue onFalse =>
    cond.walkIn P ++ (onTrue.walkIn P ++ (match onFalse with | some e => e.walkIn P | none => []))
  | .select scrutinee arms => scrutinee.walkIn P ++ walkArmsIn P arms
  | .loop body => body.walkIn ⟨P.visible, true⟩
  | .whileLoop cond body => cond.walkIn ⟨P.visible, true⟩ ++ body.walkIn ⟨P.visible, true⟩
  | .ret value => match value with | some e => e.walkIn P | none => []
  | .handle body clauses finalizer =>
    body.walkIn P ++ (walkClausesIn P clauses ++
      (match finalizer with | some e => e.walkIn P | none => []))
  | .closure params body => body.walkIn ⟨params ++ P.visible, false⟩
  | .tuple items => walkAllIn P items
  | .field base _ => base.walkIn P
termination_by structural part => part

def walkAllIn (P : Place) : List Expr → List (Place × Expr)
  | [] => []
  | e :: es => e.walkIn P ++ walkAllIn P es
termination_by structural part => part

def walkStmtsIn (P : Place) : List Stmt → List (Place × Expr)
  | [] => []
  | .bind l (some e) :: ss => e.walkIn P ++ walkStmtsIn ⟨l :: P.visible, P.inLoop⟩ ss
  | .bind l none :: ss => walkStmtsIn ⟨l :: P.visible, P.inLoop⟩ ss
  | .expr e :: ss => e.walkIn P ++ walkStmtsIn P ss
termination_by structural part => part

def walkArmsIn (P : Place) : List Arm → List (Place × Expr)
  | [] => []
  | .mk pattern body :: as =>
    body.walkIn ⟨pattern.declared?.toList ++ P.visible, P.inLoop⟩ ++ walkArmsIn P as
termination_by structural part => part

def walkClausesIn (P : Place) : List Clause → List (Place × Expr)
  | [] => []
  | .mk head body :: cs =>
    body.walkIn ⟨head.continuation :: head.params ++ P.visible, P.inLoop⟩ ++ walkClausesIn P cs
termination_by structural part => part

end

section Walk

variable {P : Place} {part : Enclosure × Expr}

def walkEnclosed (P : Place) (parts : List (Enclosure × Expr)) : List (Place × Expr) :=
  parts.flatMap fun part => part.2.walkIn (part.1.enter P)

theorem walkAllIn_eq (es : List Expr) : walkAllIn P es = walkEnclosed P (es.map ({}, ·)) := by
  induction es with
  | nil => rfl
  | cons e es ih =>
    rw [walkAllIn, ih]
    rfl

theorem walkStmtsIn_eq (ss : List Stmt) (binds : List LocalId) :
    walkStmtsIn ⟨binds ++ P.visible, P.inLoop⟩ ss = walkEnclosed P (enclosedStmts binds ss) := by
  induction ss generalizing binds with
  | nil => rfl
  | cons st ss ih =>
    match st with
    | .bind l none => exact ih (l :: binds)
    | .bind l (some e) =>
      rw [walkStmtsIn, ← cons_append, ih (l :: binds)]
      rfl
    | .expr e =>
      rw [walkStmtsIn, ih binds]
      rfl

theorem walkArmsIn_eq (arms : List Arm) :
    walkArmsIn P arms = walkEnclosed P (arms.map Arm.enclosed) := by
  induction arms with
  | nil => rfl
  | cons arm arms ih =>
    obtain ⟨pattern, body⟩ := arm
    rw [walkArmsIn, ih]
    rfl

theorem walkClausesIn_eq (clauses : List Clause) :
    walkClausesIn P clauses = walkEnclosed P (clauses.map Clause.enclosed) := by
  induction clauses with
  | nil => rfl
  | cons clause clauses ih =>
    obtain ⟨head, body⟩ := clause
    rw [walkClausesIn, ih]
    rfl

theorem walkEnclosed_cons (part : Enclosure × Expr) (parts : List (Enclosure × Expr)) :
    walkEnclosed P (part :: parts) = part.2.walkIn (part.1.enter P) ++ walkEnclosed P parts :=
      flatMap_cons

theorem walkEnclosed_append (parts parts' : List (Enclosure × Expr)) :
    walkEnclosed P (parts ++ parts') = walkEnclosed P parts ++ walkEnclosed P parts' :=
      flatMap_append

/-- A walk with places enters each part at its own place. -/
theorem Form.walkPartsIn_eq (form : Form) : form.walkPartsIn P = walkEnclosed P form.enclosed := by
  cases form with
  | block stmts tail =>
    rw [enclosed, walkEnclosed_append, ← walkStmtsIn_eq]
    cases tail with
    | none => rfl
    | some e => exact congrArg _ (append_nil _).symm
  | select scrutinee arms =>
    rw [walkPartsIn, enclosed, walkEnclosed_cons, walkArmsIn_eq]
    rfl
  | handle body clauses finalizer =>
    rw [enclosed, walkEnclosed_cons, walkEnclosed_append, ← walkClausesIn_eq]
    cases finalizer with
    | none => rfl
    | some e => exact congrArg _ (congrArg _ (append_nil _).symm)
  | branch cond onTrue onFalse =>
    cases onFalse <;> simp [walkPartsIn, enclosed, walkEnclosed, Enclosure.enter]
  | ret value => cases value <;> simp [walkPartsIn, enclosed, walkEnclosed, Enclosure.enter]
  | call callee args =>
    rw [walkPartsIn, walkAllIn_eq]
    rfl
  | perform | tuple => exact walkAllIn_eq _
  | _ => simp [walkPartsIn, enclosed, walkEnclosed, Enclosure.enter]

/-- **A walk with places**: the node, and the walks of its parts in the places that it gives
them. -/
theorem Expr.walkIn_eq (e : Expr) (P : Place) : e.walkIn P = (P, e) ::
    walkEnclosed P e.form.enclosed := by
  obtain ⟨id, form, ty, span⟩ := e
  rw [walkIn, form.walkPartsIn_eq]
  rfl

theorem map_snd_enclosedStmts (ss : List Stmt) (binds : List LocalId) :
    (enclosedStmts binds ss).map (·.2) = ss.filterMap Stmt.expr? := by
  induction ss generalizing binds with
  | nil => rfl
  | cons st ss ih =>
    match st with
    | .bind l none => exact ih (l :: binds)
    | .bind l (some e) => exact congrArg (e :: ·) (ih (l :: binds))
    | .expr e => exact congrArg (e :: ·) (ih binds)

/-- Each part has one place. -/
theorem Form.map_snd_enclosed (form : Form) : form.enclosed.map (·.2) = form.children := by
  cases form with
  | block stmts tail =>
    rw [enclosed, map_append, map_snd_enclosedStmts, children, map_map]
    simp [Function.comp_def]
  | _ => simp [enclosed, Arm.enclosed, Clause.enclosed, Function.comp_def]

theorem Form.mem_children_of_enclosed (h : part ∈ form.enclosed) :
    part.2 ∈ form.children := by
  rw [← form.map_snd_enclosed]
  exact mem_map_of_mem h

theorem binds_enclosedStmts {binds : List LocalId} (h : part ∈ enclosedStmts binds ss)
    (hl : l ∈ part.1.binds) : l ∈ binds ∨ l ∈ ss.filterMap Stmt.declared? := by
  induction ss generalizing binds with
  | nil => cases h
  | cons st ss ih =>
    -- a declaration in front of the part
    have hbehind {m : LocalId} (h : part ∈ enclosedStmts (m :: binds) ss) :
        l ∈ binds ∨ l ∈ m :: ss.filterMap Stmt.declared? := by
      obtain hl | hl := ih h
      · obtain rfl | hl := mem_cons.mp hl
        · exact .inr mem_cons_self
        · exact .inl hl
      · exact .inr (mem_cons_of_mem _ hl)
    match st with
    | .bind m none => exact hbehind h
    | .bind m (some e) =>
      obtain rfl | h := mem_cons.mp h
      · exact .inl hl
      · exact hbehind h
    | .expr e =>
      obtain rfl | h := mem_cons.mp h
      · exact .inl hl
      · exact ih h

/-- A construct makes only those locals visible that it declares. -/
theorem Form.mem_declaredLocals_of_binds (h : part ∈ form.enclosed) (hl : l ∈ part.1.binds) :
    l ∈ form.declaredLocals := by
  have hnone {es : List Expr} (h : part ∈ es.map fun e => (({} : Enclosure), e)) : False := by
    obtain ⟨e, -, rfl⟩ := mem_map.mp h
    cases hl
  cases form with
  | block stmts tail =>
    obtain h | h := mem_append.mp h
    · exact (binds_enclosedStmts h hl).resolve_left not_mem_nil
    · obtain ⟨e, -, rfl⟩ := mem_map.mp h
      exact hl
  | select scrutinee arms =>
    obtain rfl | h := mem_cons.mp h
    · cases hl
    · obtain ⟨arm, harm, rfl⟩ := mem_map.mp h
      exact mem_filterMap.mpr ⟨arm, harm, Option.mem_toList.mp hl⟩
  | handle body clauses finalizer =>
    obtain rfl | h := mem_cons.mp h
    · cases hl
    · obtain h | h := mem_append.mp h
      · obtain ⟨c, hc, rfl⟩ := mem_map.mp h
        exact mem_flatMap.mpr ⟨c, hc, hl⟩
      · exact (hnone h).elim
  | closure params body =>
    obtain rfl := mem_singleton.mp h
    exact hl
  | loop body =>
    obtain rfl := mem_singleton.mp h
    cases hl
  | whileLoop cond body =>
    obtain rfl | h := mem_cons.mp h
    · cases hl
    · obtain rfl := mem_singleton.mp h
      cases hl
  | _ => exact (hnone h).elim

/-- Parts that take the places of others. -/
theorem zip_map_fst_plain (h : cs.length = es.length) :
    ((es.map fun e => (({} : Enclosure), e)).map (·.1)).zip cs = cs.map ({}, ·) :=
  ext_getElem (by simp [h]) (by simp)

theorem enclosedStmts_fillStmts (h : es.length = (ss.filterMap Stmt.expr?).length)
    (binds : List LocalId) :
    enclosedStmts binds (fillStmts ss es).1 = ((enclosedStmts binds ss).map (·.1)).zip es := by
  induction ss generalizing es binds with
  | nil =>
    rfl
  | cons st ss ih =>
    match st with
    | .bind l none => exact ih h (l :: binds)
    | .bind l (some e) =>
      cases es with
      | nil => cases h
      | cons e' es => exact congrArg (({ binds }, e') :: ·) (ih (Nat.succ.inj h) (l :: binds))
    | .expr e =>
      cases es with
      | nil => cases h
      | cons e' es => exact congrArg (({ binds }, e') :: ·) (ih (Nat.succ.inj h) binds)

theorem enclosedArms_zipWith (arms : List Arm) (bodies : List Expr) :
    (List.zipWith (fun arm body => Arm.mk arm.pattern body) arms bodies).map Arm.enclosed =
      ((arms.map Arm.enclosed).map (·.1)).zip bodies :=
  ext_getElem (by simp) (by simp [Arm.enclosed, Arm.pattern, Arm.body])

theorem enclosedClauses_withBodies {clauses : List Clause} {bodies : List Expr} (rest : List Expr)
    (h : bodies.length = clauses.length) :
    (withBodies clauses (bodies ++ rest)).map Clause.enclosed =
      ((clauses.map Clause.enclosed).map (·.1)).zip bodies := by
  refine ext_getElem (by simp [withBodies, h]) fun i _ hi => ?_
  have hlt : i < bodies.length := by
    simp only [length_zip] at hi
    omega
  simp [withBodies, Clause.enclosed, Clause.head, Clause.body, getElem_append_left hlt]

/-- Other parts are enclosed as the old ones were. -/
theorem Form.enclosed_withChildren (h : cs.length = form.children.length) :
    (form.withChildren cs).enclosed = (form.enclosed.map (·.1)).zip cs := by
  cases form with
  | block stmts tail =>
    -- the statements keep what they declare, and the tail is enclosed by all of it
    obtain ⟨es, last, rfl, hlen, hlast, hblock⟩ := withChildren_block h
    have hstmts : ((enclosedStmts [] stmts).map (·.1)).length = es.length := by
      rw [hlen, ← map_snd_enclosedStmts stmts [], length_map, length_map]
    rw [hblock, enclosed, enclosed, enclosedStmts_fillStmts hlen, (fillStmts_of_length hlen).2,
      map_append,
      zip_append hstmts]
    cases tail with
    | none =>
      obtain rfl : last = none := by simpa using hlast
      rfl
    | some e =>
      obtain ⟨e', rfl⟩ := Option.isSome_iff_exists.mp hlast
      rfl
  | select scrutinee arms =>
    cases cs with
    | nil => simp at h
    | cons c bodies =>
      exact congrArg (List.cons (({} : Enclosure), c)) (enclosedArms_zipWith arms bodies)
  | handle body clauses finalizer =>
    obtain ⟨c, bodies, last, rfl, hlen, hlast, hhandle⟩ := withChildren_handle h
    rw [hhandle, enclosed, enclosed, enclosedClauses_withBodies _ hlen, map_cons, zip_cons_cons,
      map_append,
      zip_append (by simpa using hlen.symm)]
    cases finalizer with
    | none =>
      obtain rfl := Option.isNone_iff_eq_none.mp (by simpa using hlast)
      rfl
    | some e =>
      obtain ⟨e', rfl⟩ := Option.isSome_iff_exists.mp hlast
      rfl
  | literal | var | fn | op | breakLoop | continueLoop | intrinsic =>
    rfl
  | binary | whileLoop =>
    obtain ⟨c, d, rfl⟩ := length_eq_two.mp h
    rfl
  | unary | assign | field | loop | closure =>
    obtain ⟨c, rfl⟩ := length_eq_one_iff.mp h
    rfl
  | call callee args =>
    cases cs with
    | nil => simp at h
    | cons c cs => exact congrArg (List.cons (({} : Enclosure), c)) (zip_map_fst_plain
        (Nat.succ.inj h)).symm
  | perform | tuple => exact (zip_map_fst_plain h).symm
  | branch cond onTrue onFalse =>
    cases onFalse with
    | none =>
      obtain ⟨c, d, rfl⟩ := length_eq_two.mp h
      rfl
    | some e =>
      obtain ⟨c, d, e', rfl⟩ := length_eq_three.mp h
      rfl
  | ret value =>
    cases value with
    | none =>
      obtain rfl : cs = [] := eq_nil_of_length_eq_zero h
      rfl
    | some e =>
      obtain ⟨c, rfl⟩ := length_eq_one_iff.mp h
      rfl

namespace Expr

/-- Places apart, it is the plain walk. -/
theorem map_snd_walkIn (e : Expr) (P : Place) : (e.walkIn P).map (·.2) = e.walk := by
  induction e using Expr.induction generalizing P with
  | step e ih =>
    rw [walkIn_eq, walk_eq, map_cons, walkEnclosed, map_flatMap, ← e.form.map_snd_enclosed,
      flatMap_map]
    refine congrArg (e :: ·) (flatMap_congr fun part hpart => ?_)
    exact ih part.2 (Form.mem_children_of_enclosed hpart) _

theorem mem_walk_of_mem_walkIn {d : Place × Expr} (h : d ∈ e.walkIn P) : d.2 ∈ e.walk :=
  e.map_snd_walkIn P ▸ mem_map_of_mem h

theorem exists_mem_walkIn {x : Expr} (h : x ∈ e.walk) (P : Place) : ∃ Q, (Q, x) ∈ e.walkIn P := by
  rw [← e.map_snd_walkIn P] at h
  obtain ⟨d, hd, rfl⟩ := mem_map.mp h
  exact ⟨d.1, hd⟩

theorem mem_walkIn_of_enclosed (hpart : part ∈ e.form.enclosed) {d : Place × Expr}
    (hd : d ∈ part.2.walkIn (part.1.enter P)) : d ∈ e.walkIn P := by
  rw [walkIn_eq]
  exact mem_cons_of_mem _ (mem_flatMap.mpr ⟨part, hpart, hd⟩)

/-- The nodes below a node of an expression are nodes of the expression, in the same places. -/
theorem walkIn_subset {d : Place × Expr} (h : d ∈ e.walkIn P) : d.2.walkIn d.1 ⊆ e.walkIn P := by
  induction e using Expr.induction generalizing P with
  | step e ih =>
    rw [walkIn_eq] at h
    obtain rfl | h := mem_cons.mp h
    · exact List.Subset.refl _
    · obtain ⟨part, hpart, hd⟩ := mem_flatMap.mp h
      intro d' hd'
      exact mem_walkIn_of_enclosed hpart (ih part.2 (Form.mem_children_of_enclosed hpart) hd hd')

end Expr

end Walk

/-! ### Rules about constructs at their places -/

/-- Every node keeps a rule about constructs at their places. -/
def Expr.AllIn (R : Place → Form → Prop) (P : Place) (e : Expr) : Prop :=
  ∀ d ∈ e.walkIn P, R d.1 d.2.form

instance (R : Place → Form → Prop) [∀ P form, Decidable (R P form)] (P : Place) (e : Expr) :
    Decidable (e.AllIn R P) :=
  inferInstanceAs (Decidable (∀ d ∈ e.walkIn P, R d.1 d.2.form))

/-- More locals are visible. -/
structure Place.Within (P Q : Place) : Prop where
  visible : P.visible ⊆ Q.visible
  inLoop : P.inLoop = Q.inLoop

theorem Enclosure.enter_within {P Q : Place} (o : Enclosure) (h : P.Within Q) :
    (o.enter P).Within (o.enter Q) := by
  refine ⟨fun l hl => ?_, congrArg o.loop.getD h.inLoop⟩
  exact mem_append.mpr ((mem_append.mp hl).imp_right (h.visible ·))

theorem Enclosure.within_enter {o : Enclosure} (h : o.loop = none) (P : Place) :
    P.Within (o.enter P) :=
  ⟨subset_append_right _ _, by rw [enter, h]; rfl⟩

/-- Whether the construct leaves a loop. -/
def Form.isExit : Form → Bool
  | .breakLoop | .continueLoop => true
  | _ => false

/-- A rule about the locals that a construct uses, about exits from loops and about operations.  It
is kept when more locals become visible. -/
structure PlaceRule (R : Place → Form → Prop) : Prop where
  mono : ∀ {P Q form}, P.Within Q → R P form → R Q form
  withChildren : ∀ {P form cs}, cs.length = form.children.length → R P form →
    R P (form.withChildren cs)
  plain : ∀ {P form}, form.usedLocals = [] → form.isExit = false → form.op? = none → R P form
  var : ∀ {P l}, l ∈ P.visible → R P (.var l)

section AllIn

variable {R : Place → Form → Prop} {P Q : Place}

namespace Expr

variable {x : Expr}

/-- A rule of places holds at a node and in its parts. -/
theorem allIn_iff :
    e.AllIn R P ↔ R P e.form ∧ ∀ part ∈ e.form.enclosed, part.2.AllIn R (part.1.enter P) := by
  rw [AllIn, walkIn_eq, forall_mem_cons]
  refine and_congr_right fun _ => ⟨fun h part hpart d hd => ?_, fun h d hd => ?_⟩
  · exact h d (mem_flatMap.mpr ⟨part, hpart, hd⟩)
  · obtain ⟨part, hpart, hd⟩ := mem_flatMap.mp hd
    exact h part hpart d hd

/-- What holds at a place holds where more is visible. -/
theorem AllIn.mono (hR : PlaceRule R) (h : e.AllIn R P) (hPQ : P.Within Q) : e.AllIn R Q := by
  induction e using Expr.induction generalizing P Q with
  | step e ih =>
    rw [allIn_iff] at h ⊢
    refine ⟨hR.mono hPQ h.1, fun part hpart => ?_⟩
    exact ih part.2 (Form.mem_children_of_enclosed hpart) (h.2 part hpart) (part.1.enter_within hPQ)

end Expr

theorem exists_of_mem_zip {r : Expr → Expr → Prop} {parts : List (Enclosure × Expr)}
    (h : List.Forall₂ r (parts.map (·.2)) cs) {x : Enclosure × Expr}
    (hx : x ∈ (parts.map (·.1)).zip cs) :
    ∃ c, (x.1, c) ∈ parts ∧ r c x.2 := by
  induction parts generalizing cs with
  | nil => cases hx
  | cons part parts ih =>
    obtain ⟨o, c⟩ := part
    cases h with
    | @cons _ c' _ cs hc hcs =>
      obtain rfl | hx := mem_cons.mp hx
      · exact ⟨c, mem_cons_self, hc⟩
      · obtain ⟨c, hmem, hr⟩ := ih hcs hx
        exact ⟨c, mem_cons_of_mem _ hmem, hr⟩

/-- A construct with other parts. -/
theorem Expr.AllIn.withChildren (hR : PlaceRule R) {id' : ExprId} {ty' : Ty} {span' : Span}
    (h : (Expr.node id form ty span).AllIn R P)
    (hcs : List.Forall₂ (fun c c' => ∀ Q, c.AllIn R Q → c'.AllIn R Q) form.children cs) :
    (Expr.node id' (form.withChildren cs) ty' span').AllIn R P := by
  have hlen := hcs.length_eq.symm
  rw [allIn_iff] at h ⊢
  refine ⟨hR.withChildren hlen h.1, fun part hpart => ?_⟩
  rw [Expr.form, Form.enclosed_withChildren hlen] at hpart
  rw [← form.map_snd_enclosed] at hcs
  obtain ⟨c, hmem, hc⟩ := exists_of_mem_zip hcs hpart
  exact hc _ (h.2 (part.1, c) hmem)

/-! ### Normalization -/

theorem loop_enclosedStmts {binds : List LocalId} {part : Enclosure × Expr}
    (h : part ∈ enclosedStmts binds ss) :
    part.1.loop = none := by
  induction ss generalizing binds with
  | nil => cases h
  | cons st ss ih =>
    match st with
    | .bind m none => exact ih h
    | .bind m (some e) | .expr e =>
      obtain rfl | h := mem_cons.mp h
      · rfl
      · exact ih h

/-- New operands are old ones or read a local that one of the statements declares. -/
theorem Spills.mem_ops_declared {count : Nat} {ops : List Expr} (h : Spills count s es stmts ops s')
    (he : e ∈ ops) :
    e ∈ es ∨ ∃ l ∈ stmts.filterMap Stmt.declared?, e.form = .var l := by
  induction h with
  | zero => exact .inl he
  | nil => cases he
  | stable _ _ ih =>
    obtain rfl | he := mem_cons.mp he
    · exact .inl mem_cons_self
    · exact (ih he).imp_left (mem_cons_of_mem _)
  | fresh _ _ ih =>
    obtain rfl | he := mem_cons.mp he
    · exact .inr ⟨_, mem_cons_self, rfl⟩
    · obtain he | ⟨l, hl, hform⟩ := ih he
      · exact .inl (mem_cons_of_mem _ he)
      · exact .inr ⟨l, mem_cons_of_mem _ hl, hform⟩

theorem Form.enclosed_of_operands (h : form.operands ≠ []) :
    form.enclosed = form.children.map ({}, ·) := by
  cases form <;> first | rfl | exact absurd rfl h

/-- A finished construct keeps a rule that the construct keeps. -/
theorem Finishes.allIn (hR : PlaceRule R) {e' : Expr} (h : Finishes a s id form ty span e' s')
    (he : (Expr.node id form ty span).AllIn R P) : e'.AllIn R P := by
  cases h with
  | plain => exact he
  | @block stmts ops s₁ spills hne =>
    have hops := Form.operands_eq_children hne
    have hlen : ops.length = form.children.length := spills.length_eq.trans (by rw [hops])
    rw [Expr.allIn_iff] at he
    have hparts : ∀ c ∈ form.children, c.AllIn R P := fun c hc =>
      he.2 ({}, c) (Form.enclosed_of_operands hne ▸ mem_map_of_mem hc)
    rw [Expr.allIn_iff]
    refine ⟨hR.plain rfl rfl rfl, fun part hpart => ?_⟩
    obtain hpart | hpart := mem_append.mp hpart
    · -- a statement binds an old operand
      have hcode : part.2 ∈ stmts.filterMap Stmt.expr? :=
        map_snd_enclosedStmts stmts [] ▸ mem_map_of_mem hpart
      obtain ⟨st, hst, hcode⟩ := mem_filterMap.mp hcode
      obtain ⟨l, e, rfl, hmem, -⟩ := spills.mem_stmts hst
      have hpart' : e = part.2 := Option.some.inj hcode
      exact (hparts part.2 (hpart' ▸ hops ▸ hmem)).mono hR
        (Enclosure.within_enter (loop_enclosedStmts hpart) P)
    · -- the construct sees the new locals
      obtain ⟨core, hcore, rfl⟩ := mem_map.mp hpart
      obtain rfl := Option.some.inj (Option.mem_toList.mp hcore)
      have hgrown : P.Within (Enclosure.enter { binds := stmts.filterMap Stmt.declared? } P) :=
        Enclosure.within_enter rfl P
      rw [Expr.allIn_iff, Expr.form, Form.enclosed_withChildren hlen, Form.enclosed_of_operands hne,
        zip_map_fst_plain hlen]
      refine ⟨hR.withChildren hlen (hR.mono hgrown he.1), fun part hpart => ?_⟩
      obtain ⟨op, hop, rfl⟩ := mem_map.mp hpart
      obtain hop | ⟨l, hl, hform⟩ := spills.mem_ops_declared hop
      · exact (hparts op (hops ▸ hop)).mono hR hgrown
      · rw [Expr.allIn_iff, hform]
        refine ⟨hR.var (mem_append_right _ (mem_append_left _ hl)), fun part hpart => ?_⟩
        cases hpart

/-- **Normalization keeps rules.** -/
theorem PlaceRule.normalize (hR : PlaceRule R) (e : Expr) (s : NormalState) :
    ∀ P, e.AllIn R P → (e.normalize a s).1.AllIn R P := by
  refine Expr.normalize_induction (P := fun _ e e' _ => ∀ P, e.AllIn R P → e'.AllIn R P)
    (Q := fun _ es es' _ => List.Forall₂ (fun e e' => ∀ P, e.AllIn R P → e'.AllIn R P) es es') ?_
    ?_ ?_ ?_ e s
  · exact fun _ => .nil
  · exact fun h h' => .cons h h'
  · intro s s₁ s' e e' cs _ _ hparts hfinish P he
    obtain ⟨id, form, ty, span⟩ := e
    exact hfinish.allIn hR (he.withChildren hR hparts)
  · intro s s₁ s₂ id body clauses ty span handle finalizer finalizer' h h' P he
    rw [Expr.allIn_iff] at he
    have hhandle : (Expr.node id (.handle body clauses none) ty span).AllIn R P := by
      rw [Expr.allIn_iff]
      refine ⟨hR.plain rfl rfl rfl, fun part hpart => he.2 part ?_⟩
      obtain rfl | hpart := mem_cons.mp hpart
      · exact mem_cons_self
      · have hclause := (mem_append.mp hpart).resolve_right not_mem_nil
        exact mem_cons_of_mem _ (mem_append_left _ hclause)
    have hfinalizer : finalizer.AllIn R P :=
      he.2 ({}, finalizer) (mem_cons_of_mem _ (mem_append_right _ mem_cons_self))
    rw [Expr.allIn_iff]
    refine ⟨hR.plain rfl rfl rfl, ?_⟩
    simp only [NormalState.finalized, Expr.form, Form.enclosed, enclosedStmts,
      Option.toList_some, map_cons, map_nil, cons_append, nil_append, forall_mem_cons]
    refine ⟨h P hhandle, (h' P hfinalizer).mono hR (Enclosure.within_enter rfl P), ?_, by simp⟩
    rw [Expr.allIn_iff]
    exact ⟨hR.var (by simp [Enclosure.enter, Stmt.declared?]), fun part hpart => by cases hpart⟩

/-! ### Cutting handlers out -/

/-- **Cutting keeps rules.** -/
theorem PlaceRule.cut (hR : PlaceRule R) (e : Expr) : ∀ P, e.AllIn R P → (e.cut a).AllIn R P := by
  refine Expr.cut_induction (M := fun e e' => ∀ P, e.AllIn R P → e'.AllIn R P) ?_ ?_ e
  · intro e ih P h
    obtain ⟨id, form, ty, span⟩ := e
    refine h.withChildren hR ?_
    rw [forall₂_map_right_iff]
    exact forall₂_same.mpr ih
  · intro id body clauses finalizer ty span P h
    rw [Expr.allIn_iff] at h ⊢
    refine ⟨hR.plain rfl rfl rfl, fun part hpart => ?_⟩
    -- the hole where the body was, and the finalizer as before
    obtain rfl | hpart := mem_cons.mp hpart
    · rw [Expr.allIn_iff]
      exact ⟨hR.plain rfl rfl rfl, fun part hpart => by cases hpart⟩
    · exact h.2 part (mem_cons_of_mem _ (mem_append_right _ hpart))

end AllIn

/-! ### Binders -/

/-- The locals that an expression declares, as often as it declares them. -/
def Expr.binders (e : Expr) : List LocalId := e.walk.flatMap (·.form.declaredLocals)

/-- Binders are those of the node and those of its parts. -/
theorem Expr.binders_eq (e : Expr) :
    e.binders = e.form.declaredLocals ++ e.form.children.flatMap binders := by
  rw [binders, walk_eq, flatMap_cons, flatMap_assoc]
  rfl

theorem Expr.binders_block {tail : Expr} :
    (Expr.node id (.block stmts (some tail)) ty span).binders =
      stmts.filterMap Stmt.declared? ++
      ((stmts.filterMap Stmt.expr?).flatMap binders ++ tail.binders) := by
  rw [binders_eq]
  simp [Form.declaredLocals]

namespace NormalState

variable {s₁ : NormalState}

/-- The locals that were handed out between two states. -/
def newLocals (s s' : NormalState) : List LocalId :=
  (List.range' s.locals.length (s'.locals.length - s.locals.length)).map LocalId.mk

theorem newLocals_self : s.newLocals s = [] := by simp [newLocals]

/-- New locals of two runs are those of one after the other. -/
theorem newLocals_append (h : s.Extends s₁) (h' : s₁.Extends s') :
    s.newLocals s' = s.newLocals s₁ ++ s₁.newLocals s' := by
  have hle := h.length_le
  have hle' := h'.length_le
  have hsum : s'.locals.length - s.locals.length =
      (s₁.locals.length - s.locals.length) + (s'.locals.length - s₁.locals.length) := by omega
  rw [newLocals, newLocals, newLocals, ← map_append, hsum, ← range'_append_1,
    Nat.add_sub_cancel' hle]

theorem newLocals_of_length_eq_succ (h : s'.locals.length = s.locals.length + 1) :
    s.newLocals s' = [s.fresh] := by
  simp [newLocals, h, fresh]

theorem nodup_newLocals : (s.newLocals s').Nodup :=
  List.Nodup.map (fun _ _ h => LocalId.mk.inj h) (nodup_range' ..)

theorem mem_newLocals (h : l ∈ s.newLocals s') :
    s.locals.length ≤ l.index ∧ l.index < s'.locals.length := by
  obtain ⟨n, hn, rfl⟩ := mem_map.mp h
  rw [mem_range'_1] at hn
  show s.locals.length ≤ n ∧ n < s'.locals.length
  omega

end NormalState

/-- Spilling declares each new local once. -/
theorem Spills.binders {count : Nat} {ops : List Expr} (h : Spills count s es stmts ops s') :
    (stmts.filterMap Stmt.declared? ++
      ((stmts.filterMap Stmt.expr?).flatMap Expr.binders ++ ops.flatMap Expr.binders)).Perm
      (es.flatMap Expr.binders ++ s.newLocals s') := by
  induction h with
  | zero => simp [NormalState.newLocals_self]
  | nil => simp [NormalState.newLocals_self]
  | stable _ _ ih =>
    rw [perm_iff_count] at ih ⊢
    intro l
    have := ih l
    simp only [flatMap_cons, count_append] at this ⊢
    omega
  | @fresh _ s s' e es ops stmts _ hrest ih =>
    have hone : s.newLocals (s.spilled e) = [s.fresh] :=
      NormalState.newLocals_of_length_eq_succ (by simp [NormalState.spilled])
    have hread : (s.read e).binders = [] := rfl
    have hdeclared : (Stmt.bind s.fresh (some e) :: stmts).filterMap Stmt.declared? =
        s.fresh :: stmts.filterMap Stmt.declared? := rfl
    have hexprs : (Stmt.bind s.fresh (some e) :: stmts).filterMap Stmt.expr? = e :: stmts.filterMap
        Stmt.expr? := rfl
    rw [NormalState.newLocals_append (.spilled s e) hrest.extend, hone, hdeclared, hexprs]
    rw [perm_iff_count] at ih ⊢
    intro l
    have := ih l
    simp only [flatMap_cons, hread, count_append, count_cons, count_nil] at this ⊢
    omega

/-- Finishing a node declares the new locals and nothing else. -/
theorem Finishes.binders {e' : Expr} (h : Finishes a s id form ty span e' s') :
    e'.binders.Perm (form.declaredLocals ++ form.children.flatMap Expr.binders ++
      s.newLocals s') := by
  cases h with
  | plain =>
    rw [Expr.binders_eq, NormalState.newLocals_self, append_nil]
    rfl
  | @block stmts ops s₁ spills hne =>
    have hops := Form.operands_eq_children hne
    have hsame := Form.resembles_withChildren (spills.length_eq.trans (by rw [hops]))
    have hspilled := spills.binders
    have hlocals : s.newLocals ⟨s₁.locals, s₁.nextExpr + 2⟩ = s.newLocals s₁ := rfl
    rw [hlocals, Expr.binders_block, Expr.binders_eq (.node _ _ _ _), Expr.form,
      hsame.declaredLocals, hsame.children]
    rw [perm_iff_count] at hspilled ⊢
    intro l
    have := hspilled l
    simp only [hops, count_append] at this ⊢
    omega

/-- **Normalization declares what was declared before, and each new local once.** -/
theorem Expr.binders_normalize (e : Expr) (s : NormalState) :
    s.Extends (e.normalize a s).2 ∧
      (e.normalize a s).1.binders.Perm (e.binders ++ s.newLocals (e.normalize a s).2) := by
  refine normalize_induction
    (P := fun s e e' s' => s.Extends s' ∧ e'.binders.Perm (e.binders ++ s.newLocals s'))
    (Q := fun s es es' s' => s.Extends s' ∧ (es'.flatMap binders).Perm
    (es.flatMap binders ++ s.newLocals s')) ?_ ?_ ?_ ?_ e s
  · -- multiplicities are counted: lists are put together in another order
    intro s
    exact ⟨.refl s, by simp [NormalState.newLocals_self]⟩
  · rintro s s₁ s' e e' es es' ⟨hext, h⟩ ⟨hext', h'⟩
    refine ⟨hext.trans hext', ?_⟩
    rw [NormalState.newLocals_append hext hext']
    rw [perm_iff_count] at h h' ⊢
    intro l
    have := h l
    have := h' l
    simp only [flatMap_cons, count_append] at *
    omega
  · rintro s s₁ s' e e' cs - hcs ⟨hext, h⟩ hfinish
    have hsame := Form.resembles_withChildren (length_of_normalizeAll_eq hcs)
    have hfinished := hfinish.binders
    refine ⟨hext.trans hfinish.extend, ?_⟩
    rw [NormalState.newLocals_append hext hfinish.extend, binders_eq e]
    rw [hsame.declaredLocals, hsame.children] at hfinished
    rw [perm_iff_count] at h hfinished ⊢
    intro l
    have := h l
    have := hfinished l
    simp only [count_append] at *
    omega
  · rintro s s₁ s₂ id body clauses ty span handle finalizer finalizer' ⟨hext, h⟩ ⟨hext', h'⟩
    have hlast : s₂.Extends (s₂.afterFinalized handle) :=
      ⟨prefix_append _ _, by simp [NormalState.afterFinalized]⟩
    have hone : s₂.newLocals (s₂.afterFinalized handle) = [s₂.fresh] :=
      NormalState.newLocals_of_length_eq_succ (by simp [NormalState.afterFinalized])
    refine ⟨(hext.trans hext').trans hlast, ?_⟩
    rw [NormalState.newLocals_append (hext.trans hext') hlast, NormalState.newLocals_append hext
      hext', hone]
    have hsource : (Expr.node id (.handle body clauses (some finalizer)) ty span).binders =
        (Expr.node id (.handle body clauses none) ty span).binders ++ finalizer.binders := by
      rw [binders_eq, binders_eq (.node id (.handle body clauses none) ty span)]
      simp [Form.declaredLocals]
    have hresult : (s₂.finalized handle finalizer').binders = s₂.fresh ::
        (handle.binders ++ finalizer'.binders) := by
      rw [NormalState.finalized, binders_block]
      simp [Form.declaredLocals, Stmt.declared?, Stmt.expr?, NormalState.fresh,
        binders_eq (.node _ (.var _) _ _)]
    rw [hsource, hresult]
    rw [perm_iff_count] at h h' ⊢
    intro l
    have := h l
    have := h' l
    simp only [count_append, count_cons, count_nil] at *
    omega

/-! ### Lexical functions -/

/-- A construct uses only locals that are visible. -/
def UsesVisible (P : Place) (form : Form) : Prop := ∀ l ∈ form.usedLocals, l ∈ P.visible

instance (P : Place) (form : Form) : Decidable (UsesVisible P form) :=
  inferInstanceAs (Decidable (∀ l ∈ form.usedLocals, l ∈ P.visible))

/-- A construct that leaves a loop stands in one; the condition of a while loop is inside of it (see
`Form.enclosed`). -/
def ExitsInLoop (P : Place) (form : Form) : Prop := form.isExit = true → P.inLoop = true

instance (P : Place) (form : Form) : Decidable (ExitsInLoop P form) :=
  inferInstanceAs (Decidable (form.isExit = true → P.inLoop = true))

theorem placeRule_usesVisible : PlaceRule UsesVisible where
  mono hPQ h l hl := hPQ.visible (h l hl)
  withChildren hlen h := by rwa [UsesVisible, (Form.resembles_withChildren hlen).usedLocals]
  plain hused _ _ := by
    intro l hl
    rw [hused] at hl
    cases hl
  var hl := by simpa [UsesVisible, Form.usedLocals] using hl

theorem Form.isExit_withChildren (h : cs.length = form.children.length) :
    (form.withChildren cs).isExit = form.isExit := by
  cases form with
  | breakLoop | continueLoop | literal | var | fn | op | intrinsic =>
    rfl
  | _ => unfold withChildren; split <;> rfl

theorem placeRule_exitsInLoop : PlaceRule ExitsInLoop where
  mono hPQ h hexit := hPQ.inLoop ▸ h hexit
  withChildren hlen h := by rwa [ExitsInLoop, Form.isExit_withChildren hlen]
  plain _ hexit _ h := by rw [hexit] at h; cases h
  var _ h := by cases h

/-- Each local of the function has one binder, is used where it is visible, and is in the function's
table. -/
structure FnDecl.IsLexical (f : FnDecl) : Prop where
  binders : (f.params ++ f.body.binders).Nodup
  uses : f.body.AllIn UsesVisible ⟨f.params, false⟩
  table : ∀ l ∈ f.params ++ f.body.binders, l.index < f.locals.length

instance (f : FnDecl) : Decidable f.IsLexical :=
  decidable_of_iff ((f.params ++ f.body.binders).Nodup ∧ f.body.AllIn UsesVisible
    ⟨f.params, false⟩ ∧
      ∀ l ∈ f.params ++ f.body.binders, l.index < f.locals.length)
    ⟨fun h => ⟨h.1, h.2.1, h.2.2⟩, fun h => ⟨h.binders, h.uses, h.table⟩⟩

/-- **Normalization keeps functions lexical.** -/
theorem FnDecl.IsLexical.normalize {f : FnDecl} (hf : f.IsLexical) (hs : s.locals = f.locals) :
    FnDecl.IsLexical { f with body := (f.body.normalize a s).1, locals :=
      (f.body.normalize a s).2.locals } := by
  obtain ⟨hext, hperm⟩ := Expr.binders_normalize (a := a) f.body s
  have hall : (f.params ++ (f.body.normalize a s).1.binders).Perm
      (f.params ++ f.body.binders ++ s.newLocals (f.body.normalize a s).2) := by
    rw [append_assoc]
    exact hperm.append_left _
  refine ⟨?_, placeRule_usesVisible.normalize f.body s _ hf.uses, fun l hl => ?_⟩
  · -- old locals are in the table, new ones are behind it
    refine hall.nodup_iff.mpr (nodup_append.mpr ⟨hf.binders, NormalState.nodup_newLocals, ?_⟩)
    intro l hl l' hl' heq
    have hold := hf.table l hl
    have hnew := (NormalState.mem_newLocals hl').1
    rw [heq, ← hs] at hold
    omega
  · have hle := hext.length_le
    obtain hl | hl := mem_append.mp (hall.mem_iff.mp hl)
    · rw [hs] at hle
      exact Nat.lt_of_lt_of_le (hf.table l hl) hle
    · exact (NormalState.mem_newLocals hl).2

end Effectful
