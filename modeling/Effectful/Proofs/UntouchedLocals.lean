import Effectful.Proofs.MachineEval
import Effectful.Proofs.Validity
/-!
# Locals that code leaves alone

Code that keeps to the first locals of a function neither reads nor writes those behind them.  To
say so it is enough that such a local can as well be set afterwards (`EvalM.Avoids`): what it holds
does not matter, and it is left as it is.
-/

namespace Effectful.Target

open EvalM

variable {α β : Type} {k : Nat}

/-- The activation with another value in a local. -/
def Activation.put (act : Activation) (k : Nat) (v : Val) : Activation :=
  ⟨act.locals.setIfInBounds k v, act.store⟩

namespace EvalM

/-- The computation neither reads nor writes a local, and there are as many locals as before. -/
def Avoids (k : Nat) (x : EvalM α) : Prop :=
  ∀ act, (x act).2.locals.size = act.locals.size ∧ ∀ v, x (act.put k v) =
    ((x act).1, (x act).2.put k v)

/-! ### Work on the store -/

/-- The computation works on the store alone. -/
def OnStore (x : EvalM α) : Prop :=
  ∀ store, ∃ r store', ∀ locals, x ⟨locals, store⟩ = (r, ⟨locals, store'⟩)

theorem OnStore.avoids {x : EvalM α} (h : OnStore x) : Avoids k x := by
  rintro ⟨locals, store⟩
  obtain ⟨r, store', hx⟩ := h store
  exact ⟨by rw [hx], fun v => by rw [Activation.put, hx, hx]; rfl⟩

@[simp]
theorem onStore_pure (a : α) : OnStore (pure a) := fun store => ⟨.ok a, store, fun _ => rfl⟩

@[simp]
theorem onStore_throw (e : Exit) : OnStore (throw e : EvalM α) :=
  fun store => ⟨.error e, store, fun _ => rfl⟩

@[simp]
theorem onStore_trap (why : Trap) : OnStore (trap why : EvalM α) := onStore_throw _

@[simp]
theorem onStore_bind {x : EvalM α} {f : α → EvalM β} (h : OnStore x) (hf : ∀ a, OnStore (f a)) :
    OnStore (x >>= f) := by
  intro store
  obtain ⟨r, store₁, hx⟩ := h store
  cases r with
  | error e => exact ⟨.error e, store₁, fun locals => bind_of_error (hx locals)⟩
  | ok a =>
    obtain ⟨r, store', hf⟩ := hf a store₁
    exact ⟨r, store', fun locals => (bind_of_ok (hx locals)).trans (hf locals)⟩

@[simp]
theorem onStore_map {x : EvalM α} (h : OnStore x) (f : α → β) : OnStore (f <$> x) := by
  exact onStore_bind h fun _ => onStore_pure _

theorem onStore_get_bind {f : Activation → EvalM α}
    (h : ∀ locals store, f ⟨locals, store⟩ = f ⟨#[], store⟩)
    (hf : ∀ store, OnStore (f ⟨#[], store⟩)) : OnStore (get >>= f) := by
  intro store
  obtain ⟨r, store', hx⟩ := hf store store
  exact ⟨r, store', fun locals => by rw [get_bind, h, hx]⟩

theorem onStore_modifyGet {f : Activation → α × Activation}
    (h : ∀ locals store, f ⟨locals, store⟩ =
      ((f ⟨#[], store⟩).1, ⟨locals, (f ⟨#[], store⟩).2.store⟩)) :
    OnStore (modifyGet f) :=
  fun store => ⟨.ok (f ⟨#[], store⟩).1, (f ⟨#[], store⟩).2.store, fun locals =>
    show (Except.ok (f ⟨locals, store⟩).1, (f ⟨locals, store⟩).2) = _ by rw [h]⟩

@[simp]
theorem onStore_withHeap (f : Heap → Except Trap α) : OnStore (withHeap f) := by
  refine onStore_get_bind (fun _ _ => rfl) fun store => ?_
  cases f store.heap <;> simp

@[simp]
theorem onStore_needed (v : Option Val) : OnStore (needed v) := by
  cases v <;> simp [needed]

@[simp]
theorem onStore_object (address : Nat) : OnStore (object address) := by
  refine onStore_get_bind (fun _ _ => rfl) fun store => ?_
  cases store.heap[address]? <;> simp

@[simp]
theorem onStore_load (address length : Nat) : OnStore (load address length) := by
  refine onStore_get_bind (fun _ _ => rfl) fun store => ?_
  cases store.memory.read? address length <;> simp

@[simp]
theorem onStore_save (address length n : Nat) : OnStore (save address length n) := by
  refine onStore_get_bind (fun _ _ => rfl) fun store => ?_
  split
  · exact onStore_modifyGet fun _ _ => rfl
  · simp

@[simp]
theorem onStore_alloc (o : Object) : OnStore (alloc o) := onStore_modifyGet fun _ _ => rfl

@[simp]
theorem onStore_setObject (address : Nat) (o : Object) : OnStore (setObject address o) :=
  onStore_modifyGet fun _ _ => rfl

@[simp]
theorem onStore_call (f : Store → Except Stop (Option Val) × Store) : OnStore (call f) :=
  fun store => ⟨(f store).1.mapError Exit.stop, (f store).2,
    fun locals => call_eq f ⟨locals, store⟩⟩

@[simp]
theorem onStore_callImport (m : Machine) (index : Nat) (args : List Val) :
    OnStore (callImport m index args) := by
  unfold callImport
  split
  · refine onStore_get_bind (fun _ _ => rfl) fun store => ?_
    split
    · exact onStore_bind (onStore_modifyGet fun _ _ => rfl) fun _ => onStore_pure _
    · simp
  · simp

@[simp]
theorem onStore_newStruct (m : Machine) (ty : Nat) (fields : List Val) :
    OnStore (newStruct m ty fields) := by
  unfold newStruct
  repeat' split
  all_goals simp

@[simp]
theorem onStore_getField (m : Machine) (ty field address : Nat) :
    OnStore (getField m ty field address) := by
  refine onStore_bind (onStore_object address) fun o => ?_
  repeat' split
  all_goals simp

@[simp]
theorem onStore_setField (m : Machine) (ty field address : Nat) (v : Val) :
    OnStore (setField m ty field address v) := by
  unfold setField
  split
  · refine onStore_bind (onStore_object address) fun o => ?_
    repeat' split
    all_goals simp
  · simp

@[simp]
theorem onStore_getItem (address : Nat) (index : Int32) : OnStore (getItem address index) := by
  refine onStore_bind (onStore_object address) fun o => ?_
  repeat' split
  all_goals simp

@[simp]
theorem onStore_arrayLength (address : Nat) : OnStore (arrayLength address) := by
  refine onStore_bind (onStore_object address) fun o => ?_
  split <;> simp

@[simp]
theorem onStore_isNull (v : Val) : OnStore (isNull v) := by
  cases v <;> simp [isNull]

/-! ### Work on the locals -/

theorem Avoids.bind {x : EvalM α} {f : α → EvalM β} (h : Avoids k x) (hf : ∀ a, Avoids k (f a)) :
    Avoids k (x >>= f) := by
  intro act
  obtain ⟨hsize, hput⟩ := h act
  cases hx : x act with
  | mk r act₁ =>
    rw [hx] at hsize hput
    cases r with
    | error e => exact ⟨by rw [bind_of_error hx, hsize],
        fun v => by rw [bind_of_error (hput v), bind_of_error hx]⟩
    | ok a =>
      obtain ⟨hsize', hput'⟩ := hf a act₁
      exact ⟨by rw [bind_of_ok hx, hsize', hsize],
        fun v => by rw [bind_of_ok (hput v), bind_of_ok hx, hput']⟩

theorem Avoids.tryCatch {x : EvalM α} {f : Exit → EvalM α} (h : Avoids k x)
    (hf : ∀ e, Avoids k (f e)) :
    Avoids k (tryCatch x f) := by
  intro act
  obtain ⟨hsize, hput⟩ := h act
  cases hx : x act with
  | mk r act₁ =>
    rw [hx] at hsize hput
    cases r with
    | ok v =>
      rw [tryCatch_of_ok f hx]
      exact ⟨hsize, fun w => tryCatch_of_ok f (hput w)⟩
    | error e =>
      obtain ⟨hsize', hput'⟩ := hf e act₁
      rw [tryCatch_of_error f hx]
      exact ⟨hsize'.trans hsize, fun w => (tryCatch_of_error f (hput w)).trans (hput' w)⟩

theorem Avoids.catching {x : EvalM (Option Val)} (h : Avoids k x) (label : Label) :
    Avoids k (EvalM.catching label x) := by
  refine h.tryCatch fun e => OnStore.avoids ?_
  repeat' split
  all_goals simp

theorem Avoids.looping {x : EvalM (Option Val)} (h : Avoids k x) (label : Label) (rounds : Nat) :
    Avoids k (EvalM.looping label x rounds) := by
  induction rounds with
  | zero => exact fun act => ⟨rfl, fun _ => rfl⟩
  | succ rounds ih =>
    intro act
    obtain ⟨hsize, hput⟩ := h act
    cases hx : x act with
    | mk r act' =>
      rw [hx] at hsize hput
      simp only [EvalM.looping, hx, hput]
      rcases r with (⟨l, v⟩ | v | why) | v
      · dsimp only
        split
        · exact ⟨(ih act').1.trans hsize, (ih act').2⟩
        · exact ⟨hsize, fun _ => rfl⟩
      all_goals exact ⟨hsize, fun _ => rfl⟩

theorem avoids_getLocal {i : Nat} (h : i ≠ k) : Avoids k (getLocal i) := by
  intro act
  have hsame (v : Val) : (act.put k v).locals[i]? = act.locals[i]? := by
    simp [Activation.put, h.symm]
  simp only [getLocal, get_bind, hsame]
  cases act.locals[i]? <;> exact ⟨rfl, fun _ => rfl⟩

theorem avoids_setLocal {i : Nat} (h : i ≠ k) (w : Val) : Avoids k (setLocal i w) := by
  intro act
  have hsize (v : Val) : (act.put k v).locals.size = act.locals.size := Array.size_setIfInBounds
  simp only [setLocal, get_bind, hsize]
  split
  · refine ⟨Array.size_setIfInBounds, fun v => ?_⟩
    exact congrArg (fun locals => (Except.ok (), Activation.mk locals act.store))
      (Array.setIfInBounds_comm _ _ h.symm)
  · exact ⟨rfl, fun _ => rfl⟩

end EvalM

/-! ### Code -/

variable {m : Machine} {callee : Callee}

theorem avoids_evalSeq {is : List Instr} (h : ∀ i ∈ is, (i.eval m callee).Avoids k)
    (last : Option Val) :
    (evalSeq m callee last is).Avoids k := by
  induction is generalizing last with
  | nil => exact (onStore_pure _).avoids
  | cons i is ih =>
    rw [List.forall_mem_cons] at h
    exact h.1.bind fun v => ih h.2 v

theorem avoids_evalAll {is : List Instr} (h : ∀ i ∈ is, (i.eval m callee).Avoids k) :
    (evalAll m callee is).Avoids k := by
  induction is with
  | nil => exact (onStore_pure _).avoids
  | cons i is ih =>
    rw [List.forall_mem_cons] at h
    exact h.1.bind fun v => (onStore_needed v).avoids.bind
      fun v => (ih h.2).bind fun vs => (onStore_pure _).avoids

theorem Instr.fits_of_mem_parts {M : Module} {n : Nat} {L : List Label} {i j : Instr}
    (h : i.fits M n L = true) (hj : j ∈ i.parts) : ∃ L', j.fits M n L' = true := by
  cases i with
  | i32Const | i64Const | f32Const | f64Const | refNull | localGet | unreachable => cases hj
  | block label body | loop label body =>
    exact ⟨_, allFit_iff.mp h j hj⟩
  | br label value | ret value =>
    obtain rfl := Option.mem_toList.mp hj
    simp only [fits, Bool.and_eq_true] at h
    exact ⟨L, by grind⟩
  | _ =>
    simp only [parts, List.mem_cons, List.mem_append, List.not_mem_nil, or_false] at hj
    simp only [fits, Bool.and_eq_true, allFit_iff] at h
    exact ⟨L, by grind⟩

/-- **Code that keeps to the first locals leaves the others alone.** -/
theorem Instr.avoids_eval {M : Module} {n : Nat} {L : List Label} {i : Instr} (hk : n ≤ k)
    (h : i.fits M n L = true) :
    (i.eval m callee).Avoids k := by
  induction i using Instr.induction generalizing L with
  | step i ih =>
    have hparts : ∀ j ∈ i.parts, (j.eval m callee).Avoids k := by
      intro j hj
      obtain ⟨L', hfits⟩ := fits_of_mem_parts h hj
      exact ih j hj hfits
    -- the value of a part, and what is done with it
    have hpart {j : Instr} {f : Val → EvalM (Option Val)} (hj : j ∈ i.parts)
        (hf : ∀ v, (f v).Avoids k) :
        (do f (← needed (← j.eval m callee))).Avoids k :=
      (hparts j hj).bind fun v => (onStore_needed v).avoids.bind hf
    cases i
    case br label value | ret value =>
      cases value with
      | none =>
        exact (onStore_throw _).avoids
      | some v =>
        exact hpart (by simp [parts]) fun w => (onStore_throw _).avoids
    all_goals rw [eval]
    case i32Const | i64Const | f32Const | f64Const | refNull | unreachable =>
      exact OnStore.avoids (by simp)
    case localGet index =>
      rw [fits_localGet_iff] at h
      exact (avoids_getLocal (by omega)).bind fun _ => (onStore_pure _).avoids
    case localSet index v =>
      rw [fits_localSet_iff] at h
      exact hpart (by simp [parts])
        fun w => (avoids_setLocal (by omega) w).bind fun _ => (onStore_pure _).avoids
    case unary | convert | structGet | refIsNull | arrayLen | memLoad32 | memLoad64 =>
      exact hpart (by simp [parts]) fun v => OnStore.avoids (by simp)
    case drop v => exact (hparts v (by simp [parts])).bind fun _ => (onStore_pure _).avoids
    case binary =>
      exact hpart (by simp [parts])
        fun v => hpart (by simp [parts]) fun w => OnStore.avoids (by simp)
    case structSet | arrayGet | memStore32 | memStore64 =>
      exact hpart (by simp [parts]) fun v => (onStore_withHeap _).avoids.bind fun a =>
        hpart (by simp [parts]) fun w => OnStore.avoids (by simp)
    case call | callImport | structNew | arrayNew =>
      exact (avoids_evalAll hparts).bind fun vs => OnStore.avoids (by simp)
    case block label body => exact (avoids_evalSeq hparts none).catching label
    case loop label body => exact (avoids_evalSeq hparts none).looping label _
    case ifElse cond onTrue onFalse =>
      refine hpart (by simp [parts]) fun v => (onStore_withHeap _).avoids.bind fun c => ?_
      split
      · exact avoids_evalSeq (fun j hj => hparts j (by simp [parts, hj])) none
      · exact avoids_evalSeq (fun j hj => hparts j (by simp [parts, hj])) none

end Effectful.Target
