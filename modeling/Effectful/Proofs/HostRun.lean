import Effectful.Interp.Run
import Mathlib.Computability.StateTransition
/-!
# Runs as transitions

A run that the host answers is a sequence of transitions between steps: the machine takes a step, or
it has reached the host, which answers (`Setting.advance`).  `Setting.run` ends with a value exactly
if the transitions reach a step that is over with this value (`Setting.run_iff_reaches`).  So two
runs can be compared transition by transition, without fuel.
-/

namespace Effectful.Interp

open StateTransition

variable {step : Step} {v : Value}

namespace Setting

variable {σ : Type} (s : Setting) (host : σ → Request → Except EvalError Value × σ)

/-! ### Transitions -/

/-- A step of the machine, or an answer of the host.  There is none once the run is over. -/
def advance : σ × Step → Option (σ × Step)
  | (state, .next st) => some (state, s.step st)
  | (_, .fail _ _) => none
  | (state, .done c store) =>
    match s.outcome c store with
    | ⟨.ok (.request r), store⟩ =>
      match host state r with
      | (.ok v, state) => some (state, startResume store r.suspension v)
      | (.error _, _) => none
    | _ => none

/-- The value with which a run is over. -/
def result? : Step → Option Value
  | .done c store =>
    match (s.outcome c store).result with
    | .ok (.value v) => some v
    | _ => none
  | _ => none

variable {s host} {state state' : σ}

theorem reaches_next {st : State} {last : σ × Step} (hstep : s.step st = step)
    (h : Reaches (s.advance host) (state, step) last) :
    Reaches (s.advance host) (state, .next st) last :=
  .head (congrArg (fun step => some (state, step)) hstep) h

theorem reaches₁_next {st : State} {last : σ × Step} (hstep : s.step st = step)
    (h : Reaches (s.advance host) (state, step) last) :
    Reaches₁ (s.advance host) (state, .next st) last :=
  .head' (congrArg (fun step => some (state, step)) hstep) h

/-- The machine some steps later, as far as the host is not needed. -/
def after (s : Setting) : Nat → Step → Step
  | n + 1, .next st => s.after n (s.step st)
  | _, step => step

theorem reaches_after (s : Setting) (host : σ → Request → Except EvalError Value × σ)
    (state : σ) (n : Nat) (step : Step) : Reaches (s.advance host) (state, step)
    (state, s.after n step) := by
  induction n generalizing step with
  | zero => exact .refl
  | succ n ih =>
    cases step with
    | next st => exact reaches_next rfl (ih _)
    | fail | done => exact .refl

theorem outcome_of_result? (h : s.result? step = some v) :
    ∃ c before store, step = .done c before ∧ s.outcome c before = ⟨.ok (.value v), store⟩ := by
  cases step with
  | done c before =>
    simp only [result?] at h
    split at h
    · rename_i w hw
      obtain rfl := Option.some.inj h
      exact ⟨c, before, (s.outcome c before).store, rfl, by rw [← hw]⟩
    · cases h
  | next | fail => cases h

/-- A run that is over goes no further. -/
theorem advance_of_result? (h : s.result? step = some v) : s.advance host (state, step) = none := by
  obtain ⟨c, before, store, rfl, hout⟩ := outcome_of_result? h
  simp [advance, hout]

/-- The request that reaches the host. -/
def request (s : Setting) (op : OpRef) (effect : EffectDecl) (decl : OpDecl) (args : List Value)
    (store : Store) :
    Request where
  effectName := effect.name
  op := op
  label := s.program.opLabel op
  kind := decl.kind
  args := args
  suspension := ⟨store.suspensions.size⟩

/-- The host answers a declared operation, and the constructs of the suspended call are put back. -/
theorem advance_request (host : σ → Request → Except EvalError Value × σ) (state : σ) {op : OpRef}
    {effect : EffectDecl} {decl : OpDecl}
    (he : s.program.effect? op.effect = some effect) (hd : s.program.op? op = some decl)
    (args : List Value) (rest : List Pending) (store : Store) :
    (∀ v state₁, host state (s.request op effect decl args store) = (.ok v, state₁) →
      ∃ xs, s.advance host (state, .done (.request op args rest) store) =
        some (state₁, .of (.value v) rest.reverse { store with suspensions := xs })) ∧
    ∀ e state₁, host state (s.request op effect decl args store) = (.error e, state₁) →
      s.advance host (state, .done (.request op args rest) store) = none := by
  have hout : s.outcome (.request op args rest)
      store = ⟨.ok (.request (s.request op effect decl args store)),
      { store with suspensions := store.suspensions.push { rest, kind := decl.kind } }⟩ := by
    simp only [outcome, he, hd]
    rfl
  constructor
  · intro v state₁ hreply
    refine ⟨(store.suspensions.push { rest, kind := decl.kind }).setIfInBounds
      store.suspensions.size { rest, kind := decl.kind, resumed := 1 }, ?_⟩
    simp only [advance, hout, hreply]
    simp only [startResume, request, Array.getElem?_push_size]
    rw [if_neg (by simp), List.reverseAux_eq, List.append_nil]
  · intro e state₁ hreply
    simp only [advance, hout, hreply]

/-- An operation that is not declared ends the run. -/
theorem advance_request_of_none {op : OpRef} (hd : s.program.op? op = none) (args : List Value)
    (rest : List Pending) (store : Store) :
    s.advance host (state, .done (.request op args rest) store) = none := by
  simp only [advance, outcome, hd]
  cases s.program.effect? op.effect <;> rfl

theorem result?_request (op : OpRef) (args : List Value) (rest : List Pending) (store : Store) :
    s.result? (.done (.request op args rest) store) = none := by
  simp only [result?, outcome]
  cases s.program.effect? op.effect with
  | none => rfl
  | some effect => cases s.program.op? op <;> rfl

/-- A run ends as it does from any place that it passes. -/
theorem reaches_iff_of_reaches {a b : σ × Step} (h : Reaches (s.advance host) a b) {last : Step}
    (hv : s.result? last = some v) :
    Reaches (s.advance host) a (state, last) ↔ Reaches (s.advance host) b (state, last) := by
  have heval := reaches_eval h
  have hmem (x : σ × Step) :
      Reaches (s.advance host) x (state, last) ↔
        (state, last) ∈ StateTransition.eval (s.advance host) x := by
    rw [mem_eval, advance_of_result? hv]
    simp
  rw [hmem, hmem, heval]

/-! ### Transitions and fuel -/

/-- A computation that settles without failing does so at the end of a sequence of steps. -/
theorem reaches_of_settle (host : σ → Request → Except EvalError Value × σ) (state : σ) {fuel : Nat}
    {r : Outcome} {store : Store} (h : s.settle fuel step = some ⟨.ok r, store⟩) :
    ∃ c before, Reaches (s.advance host) (state, step) (state, .done c before) ∧
      s.outcome c before = ⟨.ok r, store⟩ := by
  induction fuel generalizing step with
  | zero => cases h
  | succ fuel ih =>
    cases step with
    | fail e store => simp [settle] at h
    | done c before => exact ⟨c, before, .refl, Option.some.inj h⟩
    | next st =>
      obtain ⟨c, before, hreach, hout⟩ := ih h
      exact ⟨c, before, reaches_next rfl hreach, hout⟩

theorem reaches_of_answer {fuel fuel₀ answered : Nat} {now : After Outcome} {store : Store}
    (hnow : s.settle fuel₀ step = some now)
    (h : s.answer host 0 fuel answered state now = some (⟨.ok v, store⟩, state')) :
    ∃ last, Reaches (s.advance host) (state, step) (state', last) ∧ s.result? last = some v := by
  induction fuel generalizing fuel₀ answered state step now with
  | zero => cases h
  | succ fuel ih =>
    obtain ⟨result, after⟩ := now
    unfold answer at h
    split at h
    · cases h
    · obtain ⟨c, before, hreach, hout⟩ := reaches_of_settle host state hnow
      cases h
      exact ⟨_, hreach, by simp [result?, hout]⟩
    · rename_i r
      rw [if_neg (by simp)] at h
      obtain ⟨c, before, hreach, hout⟩ := reaches_of_settle host state hnow
      split at h
      · cases h
      · rename_i reply state₁ hreply
        obtain ⟨next, hnext, h⟩ := Option.bind_eq_some_iff.mp h
        obtain ⟨last, hlast, hv⟩ := ih hnext h
        refine ⟨last, hreach.trans (.head ?_ hlast), hv⟩
        simp [advance, hout, hreply]

/-- A sequence of transitions that ends with a value needs so much fuel and no more. -/
theorem settle_answer_of_reaches {last : Step}
    (h : Reaches (s.advance host) (state, step) (state', last)) (hv : s.result? last = some v) :
    ∃ n, ∀ fuel₁ > n, ∀ fuel₂ > n, ∀ answered, ∃ now store, s.settle fuel₁ step = some now ∧
      s.answer host 0 fuel₂ answered state now = some (⟨.ok v, store⟩, state') := by
  generalize hfirst : (state, step) = first at h
  induction h using Relation.ReflTransGen.head_induction_on generalizing state step with
  | refl =>
    cases hfirst
    obtain ⟨c, before, store, rfl, hout⟩ := outcome_of_result? hv
    refine ⟨0, fun fuel₁ h₁ fuel₂ h₂ answered => ⟨⟨.ok (.value v), store⟩, store, ?_, ?_⟩⟩
    · obtain ⟨fuel, rfl⟩ := Nat.exists_eq_succ_of_ne_zero h₁.ne'
      exact congrArg some hout
    · obtain ⟨fuel, rfl⟩ := Nat.exists_eq_succ_of_ne_zero h₂.ne'
      rfl
  | @head first second hmove _ ih =>
    subst hfirst
    obtain ⟨n, hn⟩ := ih rfl
    refine ⟨n + 1, fun fuel₁ h₁ fuel₂ h₂ answered => ?_⟩
    obtain ⟨fuel₁, rfl⟩ : ∃ k, fuel₁ = k + 1 := ⟨fuel₁ - 1, by omega⟩
    obtain ⟨fuel₂, rfl⟩ : ∃ k, fuel₂ = k + 1 := ⟨fuel₂ - 1, by omega⟩
    cases step with
    | fail => cases hmove
    | next st =>
      cases hmove
      exact hn fuel₁ (by omega) (fuel₂ + 1) (by omega) answered
    | done c before =>
      refine ⟨s.outcome c before, ?_⟩
      simp only [Option.mem_def, advance] at hmove
      split at hmove
      · rename_i r store hout
        split at hmove
        · rename_i reply state₂ hreply
          cases hmove
          obtain ⟨now, store', hsettle, hanswer⟩ :=
            hn fuel₂ (by omega) fuel₂ (by omega) (answered + 1)
          refine ⟨store', rfl, ?_⟩
          rw [hout, answer]
          simp [hreply, resume, hsettle, hanswer]
        · cases hmove
      · cases hmove

/-- **A run ends with a value exactly if its transitions do.** -/
theorem run_iff_reaches {store₀ : Store} {name : String} {args : List Value} :
    (∃ fuel store, s.run host 0 fuel state store₀ name args = some (⟨.ok v, store⟩, state')) ↔
      ∃ last, Reaches (s.advance host) (state, s.startCall store₀ name args) (state', last) ∧
        s.result? last = some v := by
  constructor
  · rintro ⟨fuel, store, h⟩
    obtain ⟨now, hnow, h⟩ := Option.bind_eq_some_iff.mp h
    exact reaches_of_answer hnow h
  · rintro ⟨last, hreach, hv⟩
    obtain ⟨n, hn⟩ := settle_answer_of_reaches hreach hv
    obtain ⟨now, store, hsettle, hanswer⟩ := hn (n + 1) (Nat.lt_succ_self n) (n + 1)
      (Nat.lt_succ_self n) 0
    exact ⟨n + 1, store, by rw [run, call, hsettle]; exact hanswer⟩

end Setting

end Effectful.Interp
