import Effectful.Proofs.StepShape
import Mathlib.Logic.Basic
/-!
# Counting the calls of a continuation

The store counts how often each continuation was called.  `State.calls` tells from the state alone
whether the next step is such a call, and the two agree: a step that calls a tail continuation finds
the count at zero and leaves it at one, and every other step leaves it as it was.  So a run calls a
tail continuation once at most, whatever it does.
-/

namespace Effectful.Interp

/-- A tail continuation that was called `n` times. -/
def Store.Resumed (c : ContinuationId) (n : Nat) (store : Store) : Prop :=
  ∃ k, store.continuations[c.index]? = some k ∧ k.kind = .tail ∧ k.resumed = n

/-- A step that keeps the continuations and does not call this one leaves its count. -/
theorem Store.Resumed.of_kept {called : ContinuationId → Prop} {c : ContinuationId} {n : Nat}
    {store store' : Store} (h : store.Resumed c n)
    (hkept : Captured.Kept called store.continuations store'.continuations) (hc : ¬ called c) :
    store'.Resumed c n := by
  obtain ⟨k, hk, htail, hn⟩ := h
  obtain ⟨m, hm, hsame⟩ := hkept c k hk
  exact ⟨_, hm, htail, (hsame.resolve_right hc).trans hn⟩

namespace Setting

variable {s : Setting} {c : ContinuationId} {n : Nat} {stack : List Pending} {store : Store}

/-- A step that does not call the continuation leaves its count. -/
theorem resumed_step {st : State} (h : st.store.Resumed c n) (hcalls : st.calls c = false) :
    (s.step st).store.Resumed c n := by
  obtain ⟨control, stack, store⟩ := st
  by_cases habove : stack ≠ [] ∨ ∃ e frame, control = .eval e frame
  · have hkept := (s.acts_step [] habove store).kept
    rw [State.continuations_leftBehind] at hkept
    exact h.of_kept hkept (by simp [hcalls])
  · rw [not_or, not_not] at habove
    obtain ⟨rfl, hne⟩ := habove
    rw [step_of_nil s fun e frame heq => hne ⟨e, frame, heq⟩]
    exact h

theorem step_of_calls {st : State} (h : st.calls c = true) :
    ∃ v q rest, st.stack = q :: rest ∧ s.step st = resumeContinuation c v rest st.store := by
  obtain ⟨control, stack, store⟩ := st
  unfold State.calls at h
  split at h
  · rename_i hcontrol hstack
    obtain rfl := hcontrol
    obtain rfl := hstack
    obtain rfl := Value.isContinuation_iff.mp h
    exact ⟨_, _, _, rfl, rfl⟩
  · rename_i hcontrol hstack
    obtain rfl := hcontrol
    obtain rfl := hstack
    obtain rfl := Value.isContinuation_iff.mp h
    exact ⟨_, _, _, rfl, rfl⟩
  · cases h

/-- The first call of a tail continuation is counted, and any further one fails. -/
theorem resumed_step_of_calls {st : State} (h : st.store.Resumed c n) (hcalls : st.calls c = true) :
    (n = 0 ∧ ∃ st', s.step st = .next st' ∧ st'.store.Resumed c 1) ∨
      0 < n ∧ ∃ e, s.step st = .fail e st.store := by
  obtain ⟨k, hk, htail, rfl⟩ := h
  obtain ⟨v, q, rest, -, hcall⟩ := step_of_calls (s := s) hcalls
  rw [hcall, resumeContinuation, hk]
  dsimp only
  split
  · rename_i hspent
    exact .inr ⟨hspent.2, _, rfl⟩
  · rename_i hfresh
    have hzero : k.resumed = 0 := by
      rw [not_and] at hfresh
      have := hfresh htail
      omega
    refine .inl ⟨hzero, _, rfl, { k with resumed := k.resumed + 1 }, ?_, htail, ?_⟩
    · exact Array.getElem?_setIfInBounds_self_of_lt (Array.getElem?_eq_some_iff.mp hk).1
    · simp [hzero]

/-- Whether the next step resumes the given continuation: it calls it, and the call is not
refused. -/
def resumes (s : Setting) (c : ContinuationId) (st : State) : Bool :=
  match s.step st with
  | .next _ => st.calls c
  | _ => false

theorem resumes_of_not_calls {st : State} (h : st.calls c = false) : s.resumes c st = false := by
  unfold resumes
  split
  · exact h
  · rfl

/-- A tail continuation that was called is not resumed again, and its count stays. -/
theorem resumed_step_of_resumed {st : State} (h : st.store.Resumed c 1) :
    (s.step st).store.Resumed c 1 ∧ s.resumes c st = false := by
  cases hcalls : st.calls c with
  | false => exact ⟨resumed_step h hcalls, resumes_of_not_calls hcalls⟩
  | true =>
    obtain ⟨hzero, -⟩ | ⟨-, e, hfail⟩ := resumed_step_of_calls (s := s) h hcalls
    · cases hzero
    · rw [resumes, hfail]
      exact ⟨h, rfl⟩

/-! ### Between two runs -/

/-- The store that the host goes on with when a computation has ended or failed. -/
def leaves? (s : Setting) : Step → Option Store
  | .next _ => none
  | .fail _ store => some store
  | .done control store => some (s.outcome control store).store

theorem continuations_outcome (control : Control) (store : Store) :
    (s.outcome control store).store.continuations = store.continuations := by
  unfold outcome
  split
  case h_6 =>
    split <;> rfl
  all_goals rfl

theorem resumed_startResume (h : store.Resumed c n) (id : SuspensionId) (v : Value) :
    (startResume store id v).store.Resumed c n := by
  unfold startResume
  split
  · exact h
  · split <;> exact h

theorem resumed_of_leaves? {now : Step} (h : now.store.Resumed c n)
    (hleaves : s.leaves? now = some store) : store.Resumed c n := by
  cases now with
  | next => cases hleaves
  | fail =>
    cases hleaves
    exact h
  | done =>
    cases hleaves
    rw [Store.Resumed, continuations_outcome]
    exact h

theorem resumed_startCall (h : store.Resumed c n) (name : String) (args : List Value) :
    (s.startCall store name args).store.Resumed c n := by
  unfold startCall
  split
  · exact h.of_kept ((s.acts_callFn [] _ args).kept : Captured.Kept (fun _ => False) _ _) id
  · exact h

end Setting

end Effectful.Interp
