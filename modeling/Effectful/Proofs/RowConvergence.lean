import Effectful.Proofs.LeastRows
import Effectful.Proofs.RowRelations
import Mathlib.Data.Set.Finite.List
import Mathlib.Logic.Function.Iterate
import Mathlib.Order.WellFounded
/-!
# When the rounds of inference settle

The labels and the tail of a row only grow, so they are settled once there were more rounds than
functions. What a row records for a label may still change, since of several operations with one
label the first one met stands for all.

* A function records what a function that it reaches performs (`exists_performsOp_of_rounds`).  If
  these agree, then what a recursive function records is known from its labels
  (`settled_of_recursive`).
* Any other function is settled one round after those that it calls (`settled_succ`), and of the
  functions that are not settled one calls settled ones only, so every further round settles one of
  them (`countUnsettled_lt`).

Together this takes at most two rounds a function and one more, which is within the limit
(`exists_round_unchanged`).  Where recursive functions do not agree, the rounds may go on for ever
(`inferRound_mixedRing_ne`).
-/

namespace Effectful

open List

variable {d : DefId} {f : FnDecl} {k : Nat}

namespace Program

variable {p : Program} {exhaustive : Bool} {rows : List (DefId × Row)} {l : String}

/-- The rows after a number of rounds, whether or not one of them changed nothing. -/
def rounds (p : Program) (exhaustive : Bool) (k : Nat) : List (DefId × Row) :=
  (p.inferRound exhaustive)^[k] []

/-- For each label, the functions that a recursive function reaches perform one operation only, or
several that rows record alike: of one effect, and resumed in the same way. -/
def RecursionAgrees (p : Program) : Prop :=
  ∀ f ∈ p.functions, Relation.TransGen p.Calls f f →
    ∀ g g', Relation.ReflTransGen p.Calls f g → Relation.ReflTransGen p.Calls f g' →
      ∀ op op', g.body.PerformsOp p op → g'.body.PerformsOp p op' → op.label = op'.label → op = op'

/-! ### Rounds -/

theorem rounds_succ (k : Nat) :
    p.rounds exhaustive (k + 1) = p.inferRound exhaustive (p.rounds exhaustive k) :=
  Function.iterate_succ_apply' _ _ _

/-- Once a round changes nothing, further ones do not either, so it makes no difference to stop
there. -/
theorem inferRounds_eq_iterate (k : Nat) (rows : List (DefId × Row)) :
    p.inferRounds exhaustive k rows = (p.inferRound exhaustive)^[k] rows := by
  induction k generalizing rows with
  | zero => rfl
  | succ k ih =>
    rw [inferRounds]
    split
    · rename_i h
      exact (Function.iterate_fixed h _).symm
    · rw [ih, Function.iterate_succ_apply]

theorem rowIn_foldl_inferStep_of_not_mem {fs : List FnDecl} (h : d ∉ fs.map (·.id))
    (rows : List (DefId × Row)) :
    rowIn (fs.foldl (p.inferStep exhaustive) rows) d = rowIn rows d := by
  induction fs generalizing rows with
  | nil => rfl
  | cons f fs ih =>
    rw [map_cons, mem_cons, not_or] at h
    rw [foldl_cons, ih h.2, rowIn_inferStep, if_neg h.1]

/-- In a round, a function is worked out from rows that are each as before or as after the round. -/
theorem exists_rows_between (exhaustive : Bool) (hp : p.DistinctFunctions)
    (rows : List (DefId × Row)) (hf : f ∈ p.functions) :
    ∃ mid, rowIn (p.inferRound exhaustive rows) f.id = (p.inferFunction exhaustive mid f).row ∧
      ∀ d, rowIn mid d = rowIn rows d ∨ rowIn mid d = rowIn (p.inferRound exhaustive rows) d := by
  obtain ⟨before, after, hsplit⟩ := append_of_mem hf
  have hround : p.inferRound exhaustive rows = after.foldl (p.inferStep exhaustive)
      (p.inferStep exhaustive (before.foldl (p.inferStep exhaustive) rows) f) := by
    rw [inferRound, hsplit, foldl_append]
    rfl
  rw [DistinctFunctions, hsplit, map_append, map_cons] at hp
  obtain ⟨-, hafter, hdisjoint⟩ := nodup_append.mp hp
  refine ⟨before.foldl (p.inferStep exhaustive) rows, ?_, fun d => ?_⟩
  · rw [hround, rowIn_foldl_inferStep_of_not_mem (nodup_cons.mp hafter).1, rowIn_inferStep,
      if_pos rfl]
  · by_cases hd : d ∈ before.map (·.id)
    · have hrest : d ∉ f.id :: after.map (·.id) := fun h => hdisjoint d hd d h rfl
      rw [mem_cons, not_or] at hrest
      rw [hround, rowIn_foldl_inferStep_of_not_mem hrest.2, rowIn_inferStep, if_neg hrest.1]
      exact .inr rfl
    · exact .inl (rowIn_foldl_inferStep_of_not_mem hd rows)

/-! ### Labels and tails -/

/-- After more rounds than there are functions, a tracked property stays as it is. -/
theorem Tracks.rounds_succ_iff {Q : Row → Prop} (hQ : p.Tracks exhaustive Q)
    (hp : p.DistinctFunctions) (hk : p.functions.length < k) (d : DefId) :
    Q (rowIn (p.rounds exhaustive (k + 1)) d) ↔ Q (rowIn (p.rounds exhaustive k) d) := by
  have hstart : p.Supported exhaustive Q [] := fun f _ h => absurd h hQ.not_pure
  obtain ⟨hs, hc⟩ := hstart.inferRounds hQ hp (n := k) (.inr (by omega))
  rw [inferRounds_eq_iterate] at hs hc
  rw [rounds_succ]
  constructor
  · refine of_foldl_inferStep (S := fun d => Q (rowIn (p.rounds exhaustive k) d)) ?_
      (fun _ h => h) d
    exact fun rows f hf hrows h => hc f hf (hQ.mono f hrows h)
  · obtain ⟨-, hgrow, -⟩ := hs.foldl_inferStep hQ hp fun f hf => hf
    exact hgrow d

theorem tracks_tailWithin (p : Program) (exhaustive : Bool) (bound : Nat) :
    p.Tracks exhaustive (·.TailWithin bound) where
  not_pure := by simp [Row.pure, Row.TailWithin]
  mono f hrows := inferFunction_rel (Row.respected_tailWithin bound) f (fun _ _ => id)
    fun d _ => hrows d

/-! ### What is recorded for a label -/

/-- What is recorded for a function is performed by one that it reaches. -/
theorem exists_performsOp_of_rounds {op : RowOp}
    (h : (rowIn (p.rounds exhaustive k) d).opAt l = some op) :
    ∃ f ∈ p.functions, f.id = d ∧ ∃ g, Relation.ReflTransGen p.Calls f g ∧
      g.body.PerformsOp p op := by
  let Origin (f : FnDecl) (op : RowOp) : Prop :=
    ∃ g, Relation.ReflTransGen p.Calls f g ∧ g.body.PerformsOp p op
  let S (d : DefId) : Prop := ∃ f ∈ p.functions, f.id = d ∧ Origin f op
  rw [rounds, ← inferRounds_eq_iterate] at h
  have hS : S d := by
    refine of_inferRounds (Q := fun r => r.opAt l = some op) ?_ (fun _ h => by cases h) d h
    intro rows f hf hrows hfound
    refine ⟨f, hf, rfl, ?_⟩
    refine inferFunction_prop (Row.respected_of_opAt l fun op' => op' = op → Origin f op) f ?_ ?_
      op hfound rfl
    · rintro op' hop' _ hat rfl
      obtain rfl : _ = op' := by simpa [Row.single] using (Row.mem_of_opAt hat).1
      exact ⟨f, .refl, hop'⟩
    · rintro d ⟨x, hx, callee, args, hform, hcallee⟩ _ hat rfl
      obtain ⟨f', hf', rfl, g, hreach, hg⟩ := hrows d hat
      exact ⟨g, hreach.head ⟨hf', x, hx, callee, args, hform, hcallee⟩, hg⟩
  exact hS

/-- From a round on, what is recorded for the label in the row of the function stays as it is. -/
def Settled (p : Program) (exhaustive : Bool) (l : String) (k : Nat) (d : DefId) : Prop :=
  ∀ j, k ≤ j → (rowIn (p.rounds exhaustive (j + 1)) d).opAt
    l = (rowIn (p.rounds exhaustive j) d).opAt l

theorem Settled.mono {k' : Nat} (h : p.Settled exhaustive l k d) (hk : k ≤ k') :
    p.Settled exhaustive l k' d := fun j hj => h j (Nat.le_trans hk hj)

/-- A recursive function is settled once the labels are. -/
theorem settled_of_recursive (hp : p.DistinctFunctions) (ho : p.RecursionAgrees)
    (hf : f ∈ p.functions) (hrec : Relation.TransGen p.Calls f f) :
    p.Settled exhaustive l (p.functions.length + 1) f.id := by
  intro j hj
  have hlabel := (tracks_label p exhaustive l).rounds_succ_iff hp (k := j) (by omega) f.id
  rw [← Row.isSome_opAt, ← Row.isSome_opAt] at hlabel
  cases hnext : (rowIn (p.rounds exhaustive (j + 1)) f.id).opAt l with
  | none =>
    rw [hnext] at hlabel
    symm
    simpa using hlabel
  | some op =>
    rw [hnext] at hlabel
    obtain ⟨op', hcur⟩ := Option.isSome_iff_exists.mp (hlabel.mp rfl)
    obtain ⟨f₁, hf₁, hid₁, g, hg, hop⟩ := exists_performsOp_of_rounds hnext
    obtain ⟨f₂, hf₂, hid₂, g', hg', hop'⟩ := exists_performsOp_of_rounds hcur
    obtain rfl := hp.eq_of_id hf₁ hf hid₁
    obtain rfl := hp.eq_of_id hf₂ hf hid₂
    have hsame : op.label = op'.label :=
      (Row.mem_of_opAt hnext).2.trans (Row.mem_of_opAt hcur).2.symm
    rw [hcur, ho _ hf hrec g g' hg hg' op op' hop hop' hsame]

/-- A function is settled one round after those that it calls. -/
theorem settled_succ (hp : p.DistinctFunctions) (hf : f ∈ p.functions)
    (h : ∀ g, p.Calls f g → p.Settled exhaustive l k g.id) :
    p.Settled exhaustive l (k + 1) f.id := by
  intro j hj
  obtain ⟨i, rfl⟩ : ∃ i, j = i + 1 := ⟨j - 1, by omega⟩
  have hi : k ≤ i := by omega
  -- what it calls stays, also if it is not a function of the program
  have hcalls (d : DefId) (hd : f.body.CallsFn d) (j : Nat) (hj : k ≤ j) :
      (rowIn (p.rounds exhaustive (j + 1)) d).opAt l =
        (rowIn (p.rounds exhaustive j) d).opAt l := by
    by_cases hmem : d ∈ p.functions.map (·.id)
    · obtain ⟨g, hg, rfl⟩ := mem_map.mp hmem
      exact h g ⟨hg, hd⟩ j hj
    · rw [rounds_succ]
      exact congrArg (Row.opAt · l) (rowIn_foldl_inferStep_of_not_mem hmem _)
  obtain ⟨mid, hmid, hbetween⟩ := exists_rows_between exhaustive hp (p.rounds exhaustive i) hf
  obtain ⟨mid', hmid', hbetween'⟩ :=
    exists_rows_between exhaustive hp (p.rounds exhaustive (i + 1)) hf
  rw [← rounds_succ] at hmid hbetween hmid' hbetween'
  rw [hmid, hmid']
  refine inferFunction_rel (Row.respected_opAt l) f (fun _ _ => rfl) fun d hd => ?_
  have h₁ := hcalls d hd i hi
  have h₂ := hcalls d hd (i + 1) (by omega)
  obtain hb | hb := hbetween d <;> obtain hb' | hb' := hbetween' d <;> simp only [hb, hb', h₁, h₂]

open Classical in
/-- The number of functions that are not settled. -/
noncomputable def countUnsettled (p : Program) (exhaustive : Bool) (l : String) (k : Nat) : Nat :=
  p.functions.countP fun f => ¬ p.Settled exhaustive l k f.id

/-- If only functions that are not recursive are unsettled, then one of them calls settled ones
only. -/
theorem exists_unsettled_calls_settled
    (hrec : ∀ f ∈ p.functions, Relation.TransGen p.Calls f f → p.Settled exhaustive l k f.id)
    (h : ∃ f ∈ p.functions, ¬ p.Settled exhaustive l k f.id) :
    ∃ f ∈ p.functions, ¬ p.Settled exhaustive l k f.id ∧ ∀ g, p.Calls f g →
      p.Settled exhaustive l k g.id := by
  let U := {f : FnDecl // f ∈ p.functions ∧ ¬ p.Settled exhaustive l k f.id}
  have : Finite U := ((finite_toSet p.functions).subset fun f hf => hf.1).to_subtype
  let reached (g f : U) : Prop := Relation.TransGen p.Calls f.1 g.1
  have : Std.Irrefl reached := ⟨fun f h => f.2.2 (hrec f.1 f.2.1 h)⟩
  have hwf : WellFounded reached := Finite.wellFounded_of_trans_of_irrefl reached
  obtain ⟨f, hf, hunsettled⟩ := h
  obtain ⟨⟨m, hm, hmu⟩, -, hmin⟩ := hwf.has_min Set.univ ⟨⟨f, hf, hunsettled⟩, trivial⟩
  refine ⟨m, hm, hmu, fun g hg => ?_⟩
  by_contra hgu
  exact hmin ⟨g, hg.1, hgu⟩ trivial (.single hg)

theorem countUnsettled_lt (hp : p.DistinctFunctions) (ho : p.RecursionAgrees)
    (hk : p.functions.length < k) (h : ∃ f ∈ p.functions, ¬ p.Settled exhaustive l k f.id) :
    p.countUnsettled exhaustive l (k + 1) < p.countUnsettled exhaustive l k := by
  have hrec (f : FnDecl) (hf : f ∈ p.functions) (h : Relation.TransGen p.Calls f f) :
      p.Settled exhaustive l k f.id := (settled_of_recursive hp ho hf h).mono hk
  obtain ⟨f, hf, hnot, hcalls⟩ := exists_unsettled_calls_settled hrec h
  have hnext : p.Settled exhaustive l (k + 1) f.id := settled_succ hp hf hcalls
  classical
  obtain ⟨before, after, hsplit⟩ := append_of_mem hf
  have shrinks (fs : List FnDecl) :
      fs.countP (fun f => ¬ p.Settled exhaustive l (k + 1) f.id) ≤
        fs.countP fun f => ¬ p.Settled exhaustive l k f.id :=
    countP_mono_left fun f _ h =>
    decide_eq_true fun hs => of_decide_eq_true h (hs.mono (Nat.le_succ k))
  have hb := shrinks before
  have ha := shrinks after
  simp only [countUnsettled, hsplit, countP_append, countP_cons, hnot, hnext, not_true_eq_false,
    not_false_eq_true, decide_false, decide_true, Bool.false_eq_true, ↓reduceIte]
  omega

theorem countUnsettled_le (hp : p.DistinctFunctions) (ho : p.RecursionAgrees) (m : Nat) :
    p.countUnsettled exhaustive l (p.functions.length + 1 + m) ≤ p.functions.length - m := by
  induction m with
  | zero => exact countP_le_length
  | succ m ih =>
    rw [← Nat.add_assoc]
    by_cases h : ∃ f ∈ p.functions, ¬ p.Settled exhaustive l (p.functions.length + 1 + m) f.id
    · have hlt := countUnsettled_lt hp ho (by omega) h
      omega
    · -- nothing is left to settle
      simp only [not_exists, not_and, not_not] at h
      have hzero : p.countUnsettled exhaustive l (p.functions.length + 1 + m + 1) = 0 := by
        refine countP_eq_zero.mpr fun f hf => ?_
        simpa using (h f hf).mono (Nat.le_succ _)
      omega

/-- After two rounds a function and one more, everything is settled. -/
theorem settled_two_mul (hp : p.DistinctFunctions) (ho : p.RecursionAgrees) (hf : f ∈ p.functions) :
    p.Settled exhaustive l (2 * p.functions.length + 1) f.id := by
  have hzero : p.countUnsettled exhaustive l (p.functions.length + 1 + p.functions.length) = 0 := by
    refine Nat.le_zero.mp (Nat.le_trans (countUnsettled_le hp ho _) ?_)
    exact Nat.le_of_eq (Nat.sub_self _)
  rw [show p.functions.length + 1 + p.functions.length = 2 * p.functions.length +
    1 by omega] at hzero
  simpa using countP_eq_zero.mp hzero f hf

/-! ### The fixed point -/

/-- The rows of all rounds are canonical. -/
theorem canonical_rounds (k : Nat) (d : DefId) : (rowIn (p.rounds exhaustive k) d).Canonical := by
  have hround (rows : List (DefId × Row)) (fs : List FnDecl) (h : ∀ d, (rowIn rows d).Canonical)
      (d : DefId) :
      (rowIn (fs.foldl (p.inferStep exhaustive) rows) d).Canonical := by
    induction fs generalizing rows with
    | nil => exact h d
    | cons f fs ih =>
      refine ih _ fun d => ?_
      rw [rowIn_inferStep]
      split
      · exact inferFunction_prop Row.respected_canonical f
          (fun op _ => pairwise_singleton _ _) fun d _ => h d
      · exact h d
  induction k generalizing d with
  | zero => exact List.Pairwise.nil
  | succ k ih =>
    rw [rounds_succ]
    exact hround _ _ ih d

/-- A round gives every function a row. -/
theorem isSome_get?_inferRound (rows : List (DefId × Row)) (hf : f ∈ p.functions) :
    (Assoc.get? (p.inferRound exhaustive rows) f.id).isSome := by
  have hround (rows : List (DefId × Row)) (fs : List FnDecl)
      (h : (Assoc.get? rows f.id).isSome ∨ f ∈ fs) :
      (Assoc.get? (fs.foldl (p.inferStep exhaustive) rows) f.id).isSome := by
    induction fs generalizing rows with
    | nil => simpa using h
    | cons g fs ih =>
      refine ih _ ?_
      rw [inferStep, Assoc.get?_set]
      by_cases hid : f.id = g.id
      · exact .inl (by simp [hid])
      · rw [if_neg hid]
        refine h.imp_right fun hmem => (mem_cons.mp hmem).resolve_left ?_
        rintro rfl
        exact hid rfl
  exact hround rows p.functions (.inr hf)

/-- Rows in which each function has what a pass over it finds are left alone by a round. -/
theorem inferRound_eq_self (h : ∀ f ∈ p.functions,
    Assoc.get? rows f.id = some (p.inferFunction exhaustive rows f).row) :
    p.inferRound exhaustive rows = rows := by
  have hround (fs : List FnDecl) (hfs : ∀ f ∈ fs, f ∈ p.functions) :
      fs.foldl (p.inferStep exhaustive) rows = rows := by
    induction fs with
    | nil => rfl
    | cons f fs ih =>
      rw [foldl_cons, inferStep, Assoc.set_eq_self (h f (hfs f mem_cons_self))]
      exact ih fun g hg => hfs g (mem_cons_of_mem _ hg)
  exact hround p.functions fun f hf => hf

/-- If a round leaves all rows as they were, then it leaves the map as it was. -/
theorem inferRound_rounds_eq_self (hp : p.DistinctFunctions)
    (h : ∀ d, rowIn (p.rounds exhaustive (k + 2)) d = rowIn (p.rounds exhaustive (k + 1)) d) :
    p.inferRound exhaustive (p.rounds exhaustive (k + 1)) = p.rounds exhaustive (k + 1) := by
  refine inferRound_eq_self fun f hf => ?_
  obtain ⟨mid, hmid, hbetween⟩ := exists_rows_between exhaustive hp (p.rounds exhaustive (k + 1)) hf
  rw [← rounds_succ] at hmid hbetween
  have hrow : (p.inferFunction exhaustive (p.rounds exhaustive (k + 1)) f).row =
      rowIn (p.rounds exhaustive (k + 1)) f.id := by
    rw [← h, hmid]
    refine inferFunction_rel Row.respected_eq f (fun _ _ => rfl) fun d _ => ?_
    obtain hb | hb := hbetween d
    · exact hb.symm
    · rw [hb, h]
  have hsome : (Assoc.get? (p.rounds exhaustive (k + 1)) f.id).isSome := by
    rw [rounds_succ]
    exact isSome_get?_inferRound _ hf
  obtain ⟨row, hget⟩ := Option.isSome_iff_exists.mp hsome
  rw [hrow, rowIn, hget]
  rfl

/-- **Inference settles.** If the functions that a recursive function reaches agree on what their
operations are recorded as, then after at most two rounds a function and one more there is a round
that changes nothing. This is before the limit, so the rows of the analysis are those of that
round. -/
theorem exists_round_unchanged (p : Program) (exhaustive : Bool) (hp : p.DistinctFunctions)
    (ho : p.RecursionAgrees) :
    ∃ k, k ≤ 2 * p.functions.length + 1 ∧ k < p.roundLimit ∧
      p.inferRound exhaustive (p.rounds exhaustive k) = p.rounds exhaustive k ∧
      (p.analyze exhaustive).rows = p.rounds exhaustive k := by
  have hrows (d : DefId) : rowIn (p.rounds exhaustive (2 * p.functions.length + 2)) d =
      rowIn (p.rounds exhaustive (2 * p.functions.length + 1)) d := by
    by_cases hmem : d ∈ p.functions.map (·.id)
    · obtain ⟨f, hf, rfl⟩ := mem_map.mp hmem
      refine (canonical_rounds _ _).ext (canonical_rounds _ _) (fun l => ?_) ?_
      · exact settled_two_mul hp ho hf _ (Nat.le_refl _)
      · refine Row.tail_eq_of_tailWithin fun bound => ?_
        exact (tracks_tailWithin p exhaustive bound).rounds_succ_iff hp (by omega) f.id
    · rw [rounds_succ]
      exact rowIn_foldl_inferStep_of_not_mem hmem _
  have hfixed := inferRound_rounds_eq_self hp hrows
  have hlimit : 2 * p.functions.length + 1 < p.roundLimit := by rw [roundLimit]; omega
  refine ⟨2 * p.functions.length + 1, Nat.le_refl _, hlimit, hfixed, ?_⟩
  -- the rounds after it change nothing
  obtain ⟨more, hmore⟩ := Nat.exists_eq_add_of_le (Nat.le_of_lt hlimit)
  have hiterate : p.rounds exhaustive p.roundLimit = p.rounds exhaustive
      (2 * p.functions.length + 1) := by
    rw [hmore, Nat.add_comm, rounds, Function.iterate_add_apply]
    exact Function.iterate_fixed hfixed more
  rw [← hiterate]
  exact inferRounds_eq_iterate _ _

/-- Three functions that call each other in a ring, and one that calls into it.  The effect
overloads its only operation, and the overloads are resumed in different ways.  The second function
of the ring performs the given one. -/
def ring (overload : Nat) (args : List Expr) : Program where
  effects := [{ id := ⟨0⟩, name := "E", ops := [⟨"x", 0, [], .i32, .tail⟩,
    ⟨"x", 0, [.i32], .i32, .resume⟩] }]
  functions := [
    { id := ⟨1⟩, name := "first", params := [], ret := .i32, locals := []
      body := .i32 0 (.binary .add (call 1 ⟨2⟩) (.i32 3 (.perform ⟨⟨0⟩, 0⟩ [] []))) },
    { id := ⟨2⟩, name := "second", params := [], ret := .i32, locals := []
      body := .i32 4 (.binary .add (call 5 ⟨3⟩)
        (.i32 7 (.perform ⟨⟨0⟩, overload⟩ args []))) },
    { id := ⟨3⟩, name := "third", params := [], ret := .i32, locals := []
      body := call 8 ⟨1⟩ },
    { id := ⟨4⟩, name := "main", params := [], ret := .i32, locals := []
      body := .i32 10 (.binary .add (call 11 ⟨1⟩)
        (.i32 13 (.perform ⟨⟨0⟩, 1⟩ [.i32 14 (.literal (.int 0))] []))) }]
where
  call (n : Nat) (d : DefId) : Expr :=
    .node ⟨n⟩ (.call (.node ⟨n + 1⟩ (.fn d) (.fn [] .i32) {}) []) .i32 {}

/-- If all functions of the ring perform the first overload, then they agree; `main`, which performs
the other one, is not called by any of them. -/
theorem recursionAgrees_ring : (ring 0 []).RecursionAgrees := by
  have hnodes (f : FnDecl) (hf : f ∈ (ring 0 []).functions) (x : Expr) (hx : x ∈ f.body.walk) :
      (∀ callee args d, x.form = .call callee args → callee.form = .fn d → d ≠ ⟨4⟩) ∧
        (f.id ≠ ⟨4⟩ → ∀ operation args typeArgs, x.form = .perform operation args typeArgs →
          operation = ⟨⟨0⟩, 0⟩) := by
    simp only [ring, ring.call, mem_cons, not_mem_nil, or_false] at hf
    rcases hf with rfl | rfl | rfl | rfl <;>
      simp only [Expr.walk_eq, Form.children, Expr.form, flatMap_cons, flatMap_nil, append_nil,
        cons_append, nil_append, mem_cons, not_mem_nil, or_false] at hx <;>
      grind [Expr.form]
  have hmem {f g : FnDecl} (hf : f ∈ (ring 0 []).functions)
      (h : Relation.ReflTransGen (ring 0 []).Calls f g) : g ∈ (ring 0 []).functions := by
    rcases h.cases_tail with rfl | ⟨c, -, hcall⟩
    · exact hf
    · exact hcall.1
  have hcalled {f g : FnDecl} (hf : f ∈ (ring 0 []).functions)
      (h : Relation.TransGen (ring 0 []).Calls f g) : g.id ≠ ⟨4⟩ := by
    obtain ⟨c, hc, -, x, hx, callee, args, hform, hcallee⟩ := Relation.TransGen.tail'_iff.mp h
    exact (hnodes c (hmem hf hc) x hx).1 callee args g.id hform hcallee
  have hperforms {f g : FnDecl} (hf : f ∈ (ring 0 []).functions)
      (hrec : Relation.TransGen (ring 0 []).Calls f f)
      (hg : Relation.ReflTransGen (ring 0 []).Calls f g)
      {op : RowOp} (h : g.body.PerformsOp (ring 0 []) op) : op = ⟨"E.x", ⟨0⟩, .tail⟩ := by
    obtain ⟨x, hx, operation, args, typeArgs, decl, hform, hop, rfl⟩ := h
    obtain rfl := (hnodes g (hmem hf hg) x hx).2 (hcalled hf (hrec.trans_left hg)) operation args
      typeArgs hform
    obtain rfl : _ = decl := Option.some.inj hop
    decide
  intro f hf hrec g g' hg hg' op op' hop hop' _
  rw [hperforms hf hrec hg hop, hperforms hf hrec hg' hop']

/-- The ring of the first overload settles, though `main` adds the other one. -/
theorem exists_round_unchanged_ring :
    (ring 0 []).DistinctFunctions ∧ (ring 0 []).RecursionAgrees ∧
      ∃ k, k ≤ 2 * 4 + 1 ∧ k < 24 ∧
        (ring 0 []).inferRound true ((ring 0 []).rounds true k) = (ring 0 []).rounds true k ∧
        ((ring 0 []).analyze true).rows = (ring 0 []).rounds true k :=
  ⟨by decide, recursionAgrees_ring, exists_round_unchanged (ring 0 []) true (by decide)
  recursionAgrees_ring⟩

/-- The ring in which the second function performs the other overload. -/
def mixedRing : Program := ring 1 [.i32 15 (.literal (.int 0))]

/-- **Without agreement the rounds need not settle.** Each function of the ring takes over what the
next one recorded, so that the overloads go round: every round changes a row, and only the limit
ends the rounds. There is no complaint about it. -/
theorem inferRound_mixedRing_ne :
    (∀ k, mixedRing.inferRound true (mixedRing.rounds true k) ≠ mixedRing.rounds true k) ∧
      (mixedRing.analyze true).hasErrors = false := by
  have hperiod (k : Nat) : mixedRing.rounds true (k + 3) = mixedRing.rounds true (k + 1) := by
    induction k with
    | zero => decide +kernel
    | succ k ih => rw [rounds_succ, ih, ← rounds_succ]
  have hne (k : Nat) : mixedRing.rounds true (k + 2) ≠ mixedRing.rounds true (k + 1) := by
    induction k with
    | zero => decide +kernel
    | succ k ih =>
      rw [hperiod]
      exact ih.symm
  refine ⟨fun k => ?_, by decide +kernel⟩
  rw [← rounds_succ]
  rcases k with _ | k
  · decide +kernel
  · exact hne k

end Program

end Effectful
