import Effectful.Bytes
/-!
# Computations that may fail

Functions of the machine and of the host work on a state and may fail on the way, with the state
kept as it is then.

Readers of bytes have no state.  They are proved to stay within the bytes by a second reader that
checks the place of each access.  A check that fails ends reading with `none`; `CheckedRead.inside`
are the outcomes in which none did.
-/

namespace Effectful

/-! ### Computations with a state -/

section

variable {ε σ α β : Type} {x : ExceptT ε (StateM σ) α} {s s' : σ}

/-- What a computation does is followed by what comes next, unless it fails. -/
theorem bind_eq (x : ExceptT ε (StateM σ) α) (f : α → ExceptT ε (StateM σ) β) (s : σ) :
    (x >>= f) s = ExceptT.bindCont f (x s).1 (x s).2 := rfl

theorem bind_of_ok {f : α → ExceptT ε (StateM σ) β} {v : α} (h : x s = (.ok v, s')) :
    (x >>= f) s = f v s' := by
  rw [bind_eq, h]
  rfl

theorem bind_of_error {f : α → ExceptT ε (StateM σ) β} {e : ε} (h : x s = (.error e, s')) :
    (x >>= f) s = (.error e, s') := by
  rw [bind_eq, h]
  rfl

theorem map_of_ok {g : α → β} {v : α} (h : x s = (.ok v, s')) : (g <$> x) s = (.ok (g v), s') := by
  rw [← bind_pure_comp, bind_of_ok h]
  rfl

theorem tryCatch_eq (x : ExceptT ε (StateM σ) α) (f : ε → ExceptT ε (StateM σ) α) (s : σ) :
    tryCatch x f s = (match (x s).1 with
      | .ok v => (pure (.ok v) : StateM σ (Except ε α))
      | .error e => f e) (x s).2 := rfl

theorem tryCatch_of_ok {v : α} (f : ε → ExceptT ε (StateM σ) α) (h : x s = (.ok v, s')) :
    tryCatch x f s = (.ok v, s') := by
  rw [tryCatch_eq, h]
  rfl

theorem tryCatch_of_error {e : ε} (f : ε → ExceptT ε (StateM σ) α) (h : x s = (.error e, s')) :
    tryCatch x f s = f e s' := by
  rw [tryCatch_eq, h]

theorem get_bind (f : σ → ExceptT ε (StateM σ) β) (s : σ) : (get >>= f) s = f s s := rfl

theorem modifyGet_bind (g : σ → α × σ) (f : α → ExceptT ε (StateM σ) β) (s : σ) :
    (modifyGet g >>= f) s = f (g s).1 (g s).2 := rfl

end

/-! ### Reading with every access checked -/

/-- Reading that may fail in two ways: the bytes have no meaning, or (`none`) an access is not
within them. -/
abbrev CheckedRead (ε : Type) := ExceptT ε Option

namespace CheckedRead

variable {ε α β : Type}

def bytesAt (bytes : List UInt8) (start count : Nat) : CheckedRead ε (List UInt8) :=
  if start + count ≤ bytes.length then return (bytes.drop start).take count else ExceptT.lift none

def wordAt (bytes : List UInt8) (start count : Nat) : CheckedRead ε Nat :=
  ofLittleEndian <$> bytesAt bytes start count

/-- The outcome of reading, with all accesses within the bytes. -/
def inside (result : Except ε α) : CheckedRead ε α := ExceptT.mk (some result)

theorem inside_bind (x : Except ε α) (f : α → Except ε β) :
    (inside x >>= fun a => inside (f a)) = inside (x >>= f) := by
  cases x <;> rfl

theorem inside_ok_bind (a : α) (f : α → CheckedRead ε β) : (inside (.ok a) >>= f) = f a := rfl

/-- Reading inside the bytes succeeds. -/
theorem bytesAt_of_le {bytes : List UInt8} {start count : Nat} (h : start + count ≤ bytes.length) :
    bytesAt bytes start count = (inside (.ok ((bytes.drop start).take count)) : CheckedRead ε _) :=
      if_pos h

theorem wordAt_of_le {bytes : List UInt8} {start count : Nat} (h : start + count ≤ bytes.length) :
    wordAt bytes start count =
      (inside (.ok (ofLittleEndian ((bytes.drop start).take count))) : CheckedRead ε _) := by
  rw [wordAt, bytesAt_of_le h]
  rfl

end CheckedRead

end Effectful
