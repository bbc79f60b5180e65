import Effectful.Host.Import
import Effectful.Proofs.MessageRoundTrip
/-!
# What the functions of the host do to memory

`serve_isSafe`: a call of the host's functions that fails or is refused leaves memory as it was, and
one that succeeds writes a value or a request that can be read back, and nothing else.

The functions read first and write last.  What only looks at memory is `Reads`; a call that reads
and then makes one write that is done as a whole or refused is `Atomic`.  Arguments and regions are
taken apart by what success says about them (`writeValue_eq_zero_iff`, `writeEffect_eq_zero_iff`):
the arguments of a request are values before its first byte is written, so it does not matter
whether the two regions have bytes in common.
-/

namespace Effectful.Host

open Target Wire

variable {α β : Type} {x : ImportM α} {write : WriteM α} {a : α} {m m' : Memory} {heap : Heap}
  {v address length : Val} {t : ValueTag} {target : HostImport}

/-! ### Functions that write last -/

/-- It looks at memory and leaves it as it is. -/
def Reads (x : ImportM α) : Prop := ∀ m, (x m).2 = m

theorem reads_liftM (e : Except Trap α) : Reads (liftM e : ImportM α) := by
  intro m
  cases e <;> rfl

theorem Reads.snd_eq {res : Except Trap α} (hx : Reads x) (h : x m = (res, m')) : m' = m := by
  rw [← hx m, h]

theorem Reads.cases (hx : Reads x) (m : Memory) :
    (∃ why, x m = (.error why, m)) ∨ ∃ a, x m = (.ok a, m) := by
  rcases hrun : x m with ⟨why | a, m'⟩
  · exact .inl ⟨why, congrArg _ (hx.snd_eq hrun)⟩
  · exact .inr ⟨a, congrArg _ (hx.snd_eq hrun)⟩

/-- What only reads may be followed by more that only reads. -/
theorem Reads.bind {f : α → ImportM β} (hx : Reads x) (hf : ∀ a, Reads (f a)) :
    Reads (x >>= f) := by
  intro m
  obtain ⟨why, hrun⟩ | ⟨a, hrun⟩ := hx.cases m
  · rw [bind_of_error hrun]
  · rw [bind_of_ok hrun, hf a]

/-- What succeeds after reading succeeds on the memory that was read. -/
theorem Reads.of_bind_ok {f : α → ImportM β} {b : β} (hx : Reads x)
    (h : (x >>= f) m = (.ok b, m')) :
    ∃ a, x m = (.ok a, m) ∧ f a m = (.ok b, m') := by
  obtain ⟨why, hrun⟩ | ⟨a, hrun⟩ := hx.cases m
  · rw [bind_of_error hrun] at h
    cases h
  · rw [bind_of_ok hrun] at h
    exact ⟨a, hrun, h⟩

theorem reads_region (heap : Heap) (address length : Val) : Reads (region heap address length) := by
  refine (reads_liftM _).bind
    fun _ => (reads_liftM _).bind fun _ => Reads.bind (fun _ => rfl) fun m => ?_
  intro m'
  split <;> rfl

/-- It changes memory only if it succeeds with a status other than `1`. -/
def Atomic (x : ImportM (Option Val)) : Prop :=
  ∀ m, ((∃ why, (x m).1 = .error why) ∨ (x m).1 = .ok (some (.i32 1))) → (x m).2 = m

theorem Reads.atomic {x : ImportM (Option Val)} (hx : Reads x) : Atomic x := fun m _ => hx m

/-- Reading first does not change whether the rest is all or nothing. -/
theorem Reads.bind_atomic {f : α → ImportM (Option Val)} (hx : Reads x) (hf : ∀ a, Atomic (f a)) :
    Atomic (x >>= f) := by
  intro m h
  obtain ⟨why, hrun⟩ | ⟨a, hrun⟩ := hx.cases m
  · rw [bind_of_error hrun]
  · rw [bind_of_ok hrun] at h ⊢
    exact hf a m h

theorem atomic_reported (h : ∀ m why, (write m).1 = .error why → (write m).2 = m) :
    Atomic (reported write) := by
  intro m hstatus
  unfold reported at hstatus ⊢
  rcases hrun : write m with ⟨why | a, m'⟩
  · have := h m why (by rw [hrun])
    rw [hrun] at this
    exact this
  · rw [hrun] at hstatus
    simp at hstatus

/-- A slot or a request that does not fit writes nothing. -/
theorem putSlot_atomic (r : Region) (tag : ValueTag) (bits : UInt64) (m : Memory) (why : WireError)
    (h : (r.putSlot tag bits m).1 = .error why) : (r.putSlot tag bits m).2 = m := by
  by_cases hle : slotSize ≤ r.length
  · rw [r.putSlot_of_le m tag bits hle] at h
    cases h
  · rw [r.putSlot_of_lt m tag bits (Nat.not_le.1 hle)]

theorem putRequest_atomic (r : Region) (e : EffectEnvelope) (m : Memory) (why : WireError)
    (h : (r.putRequest e m).1 = .error why) : (r.putRequest e m).2 = m := by
  rw [show r.putRequest e = _ from MessageKind.isLawful_request.encoded r e] at h ⊢
  unfold Region.place at h ⊢
  split at h
  · cases h
  · rfl

/-- Both imports that write are all or nothing; `read_value` only reads. -/
theorem atomic_writeValue (heap : Heap) (tagCode bits address length : Val) :
    Atomic (writeValue heap tagCode bits address length) :=
  (reads_liftM _).bind_atomic fun tag => (reads_liftM _).bind_atomic fun bits =>
    (reads_region heap _ _).bind_atomic fun r => atomic_reported (putSlot_atomic r tag bits)

theorem atomic_writeEffect (heap : Heap)
    (effectId opId opIndex kind handle argsAddress argCount address length : Val) :
    Atomic (writeEffect heap effectId opId opIndex kind handle argsAddress argCount address
      length) := by
  refine (reads_liftM _).bind_atomic fun count => ?_
  split
  · exact Reads.atomic fun _ => rfl
  · refine (reads_region heap _ _).bind_atomic
      fun slots => Reads.bind_atomic (fun _ => rfl) fun m =>
      (reads_liftM _).bind_atomic fun args => ?_
    exact (reads_liftM _).bind_atomic
      fun _ => (reads_liftM _).bind_atomic fun _ => (reads_liftM _).bind_atomic fun _ =>
      (reads_liftM _).bind_atomic fun _ => (reads_liftM _).bind_atomic fun _ =>
        (reads_region heap _ _).bind_atomic fun r => atomic_reported (putRequest_atomic r _)

theorem reads_readValue (heap : Heap) (tagCode address length : Val) :
    Reads (readValue heap tagCode address length) :=
  (reads_liftM _).bind
  fun _ => (reads_region heap _ _).bind fun _ => Reads.bind (fun _ => rfl) fun _ =>
    (reads_liftM _).bind fun _ _ => rfl

/-- A call is refused, or it is one of the three functions with as many arguments as that takes. -/
theorem serve_cases (target : HostImport) (vals : List Val) (heap : Heap) :
    (∃ why, serve target vals heap = throw why) ∨
    (∃ tagCode bits address length, target.name = "write_value" ∧
      vals = [tagCode, bits, address, length] ∧ serve target vals heap =
      writeValue heap tagCode bits address length) ∨
    (∃ effectId opId opIndex kind handle argsAddress argCount address length, target.name =
      "write_effect" ∧ vals = [effectId, opId, opIndex, kind, handle, argsAddress, argCount,
        address, length] ∧
      serve target vals heap = writeEffect heap effectId opId opIndex kind handle argsAddress
      argCount address length) ∨
    ∃ tagCode address length, target.name = "read_value" ∧ vals = [tagCode, address, length] ∧
      serve target vals heap = readValue heap tagCode address length := by
  unfold serve
  split
  · split
    · rename_i hname
      exact .inr (.inl ⟨_, _, _, _, hname, rfl, rfl⟩)
    · rename_i hname
      exact .inr (.inr (.inl ⟨_, _, _, _, _, _, _, _, _, hname, rfl, rfl⟩))
    · rename_i hname
      exact .inr (.inr (.inr ⟨_, _, _, hname, rfl, rfl⟩))
    · exact .inl ⟨_, rfl⟩
  · exact .inl ⟨_, rfl⟩

/-- Every call that fails or reports that it was refused leaves memory as it was. -/
theorem atomic_serve (target : HostImport) (vals : List Val) (heap : Heap) :
    Atomic (serve target vals heap) := by
  obtain ⟨why, h⟩ | ⟨_, _, _, _, -, -, h⟩ | ⟨_, _, _, _, _, _, _, _, _, -, -, h⟩ | ⟨_, _,
    _, -, -, h⟩ :=
    serve_cases target vals heap
  · rw [h]
    exact Reads.atomic fun _ => rfl
  · rw [h]
    exact atomic_writeValue heap _ _ _ _
  · rw [h]
    exact atomic_writeEffect heap _ _ _ _ _ _ _ _ _
  · rw [h]
    exact (reads_readValue heap _ _ _).atomic

/-! ### What success says about the arguments -/

theorem liftM_eq_ok {e : Except Trap α} (h : (liftM e : ImportM α) m = (.ok a, m')) :
    e = .ok a := by
  cases e with
  | ok b => exact congrArg Except.ok (Except.ok.inj (Prod.ext_iff.1 h).1)
  | error why => cases h

theorem liftM_of_ok {e : Except Trap α} (h : e = .ok a) (m : Memory) :
    (liftM e : ImportM α) m = (.ok a, m) := by
  rw [h]
  rfl

theorem readOrTrap_eq_ok {e : Except WireError α} (h : readOrTrap e = .ok a) : e = .ok a := by
  cases e with
  | ok b => exact congrArg Except.ok (Except.ok.inj h)
  | error why => cases h

/-- Operands of the right type are taken as they are. -/
theorem word32_eq_ok {n : Nat} (h : word32 heap v = .ok n) : ∃ w :
    Int32, v = .i32 w ∧ n = w.toUInt32.toNat := by
  cases v with
  | i32 w => exact ⟨w, rfl, (Except.ok.inj h).symm⟩
  | _ => cases h

theorem word64_eq_ok {n : UInt64} (h : word64 heap v = .ok n) : ∃ w :
    Int64, v = .i64 w ∧ n = w.toUInt64 := by
  cases v with
  | i64 w => exact ⟨w, rfl, (Except.ok.inj h).symm⟩
  | _ => cases h

theorem code_of_ofCode? {n : Nat} {tag : ValueTag} (h : ValueTag.ofCode? n = some tag) :
    n = tag.code := by
  unfold ValueTag.ofCode? at h
  split at h <;> cases h <;> rfl

theorem tag_i32 (heap : Heap) (w : Int32) : tag heap (.i32 w) =
    match ValueTag.ofCode? w.toUInt32.toNat with
    | some t => .ok t
    | none => .error (.code .unsupportedValue) := rfl

/-- A tag is given by its code. -/
theorem tag_eq_ok (h : tag heap v = .ok t) : ∃ w :
    Int32, v = .i32 w ∧ w.toUInt32.toNat = t.code := by
  cases v with
  | i32 w =>
    rw [tag_i32] at h
    split at h
    · rename_i t' hcode
      exact ⟨w, rfl, by rw [code_of_ofCode? hcode, Except.ok.inj h]⟩
    · cases h
  | _ => cases h

theorem tag_of_code (heap : Heap) {w : Int32} (h : w.toUInt32.toNat = t.code) :
    tag heap (.i32 w) = .ok t := by
  rw [tag_i32, h, ValueTag.ofCode?_code]

/-- The region with the address and the length that two words give. -/
def regionAt (address length : Int32) : Region := ⟨address.toUInt32.toNat, length.toUInt32.toNat⟩

theorem region_i32 (heap : Heap) (address length : Int32) (m : Memory) :
    region heap (.i32 address) (.i32 length) m =
      if (regionAt address length).isIn m then (.ok (regionAt address length), m)
      else (.error (.outOfBounds address.toUInt32.toNat length.toUInt32.toNat), m) := by
  show (if (regionAt address length).isIn m then pure _ else throw _ : ImportM Region) m = _
  split <;> rfl

theorem region_of_isIn (heap : Heap) {address length : Int32}
    (h : (regionAt address length).isIn m = true) :
    region heap (.i32 address) (.i32 length) m = (.ok (regionAt address length), m) := by
  rw [region_i32, if_pos h]

/-- A region is taken if it lies in the memory. -/
theorem region_eq_ok {r : Region} (h : region heap address length m = (.ok r, m')) :
    ∃ a n : Int32, address = .i32 a ∧ length = .i32 n ∧ r = regionAt a n ∧ r.isIn m = true := by
  cases address with
  | i32 a =>
    cases length with
    | i32 n =>
      rw [region_i32] at h
      split at h
      · rename_i hin
        obtain rfl := Except.ok.inj (Prod.ext_iff.1 h).1
        exact ⟨a, n, rfl, rfl, rfl, hin⟩
      · cases h
    | _ => cases h
  | _ => cases h

/-- The status 0 reports that all was written. -/
theorem reported_eq_zero (h : reported write m = (.ok (some (.i32 0)), m')) :
    ∃ a, write m = (.ok a, m') := by
  unfold reported at h
  rcases hrun : write m with ⟨why | a, after⟩
  · rw [hrun] at h
    have hstatus : (1 : Int32) = 0 :=
      Val.i32.inj (Option.some.inj (Except.ok.inj (Prod.ext_iff.1 h).1))
    exact absurd hstatus (by decide)
  · rw [hrun] at h
    exact ⟨a, congrArg _ (Prod.ext_iff.1 h).2⟩

theorem reported_of_ok (h : write m = (.ok a, m')) :
    reported write m = (.ok (some (.i32 0)), m') := by
  rw [reported, h]

theorem length_of_decodeSlots {bytes : List UInt8} {start count : Nat} {args : List WireValue}
    (h : decodeSlots bytes start count = .ok args) : args.length = count := by
  induction count generalizing start args with
  | zero =>
    obtain rfl := Except.ok.inj h
    rfl
  | succ count ih =>
    rw [decodeSlots] at h
    cases hfirst : decodeSlot (bytes.drop start) with
    | error why =>
      rw [hfirst] at h
      cases h
    | ok v =>
      cases hrest : decodeSlots bytes (start + slotSize) count with
      | error why =>
        rw [hfirst, hrest] at h
        cases h
      | ok vs =>
        rw [hfirst, hrest] at h
        obtain rfl := Except.ok.inj h
        rw [List.length_cons, ih hrest]

/-! ### Values -/

theorem tag_ofBits (t : ValueTag) (bits : UInt64) : (WireValue.ofBits t bits).tag = t := by
  cases t <;> rfl

/-- Writing a value succeeds exactly if there is room for a slot, and writes the slot. -/
theorem writeValue_eq_zero_iff {tagCode bits : Val} :
    writeValue heap tagCode bits address length m = (.ok (some (.i32 0)), m') ↔
      ∃ (code : Int32) (b : Int64) (a n : Int32) (t : ValueTag),
        tagCode = .i32 code ∧ bits = .i64 b ∧ address = .i32 a ∧ length = .i32 n ∧
        code.toUInt32.toNat = t.code ∧ (regionAt a n).isIn m = true ∧ slotSize ≤ n.toUInt32.toNat ∧
        m' = m.write (regionAt a n).address (slotBytes t b.toUInt64) := by
  constructor
  · intro h
    obtain ⟨t, htag, h⟩ := (reads_liftM _).of_bind_ok h
    obtain ⟨b, hbits, h⟩ := (reads_liftM _).of_bind_ok h
    obtain ⟨r, hregion, h⟩ := (reads_region heap _ _).of_bind_ok h
    obtain ⟨code, rfl, hcode⟩ := tag_eq_ok (liftM_eq_ok htag)
    obtain ⟨b, rfl, rfl⟩ := word64_eq_ok (liftM_eq_ok hbits)
    obtain ⟨a, n, rfl, rfl, rfl, hin⟩ := region_eq_ok hregion
    obtain ⟨_, hput⟩ := reported_eq_zero h
    have hroom : slotSize ≤ (regionAt a n).length := by
      refine Nat.not_lt.1 fun hlt => ?_
      rw [Region.putSlot_of_lt _ _ _ _ hlt] at hput
      cases hput
    rw [Region.putSlot_of_le _ _ _ _ hroom] at hput
    obtain rfl := (Prod.mk.inj hput).2
    exact ⟨code, b, a, n, t, rfl, rfl, rfl, rfl, hcode, hin, hroom, rfl⟩
  · rintro ⟨code, b, a, n, t, rfl, rfl, rfl, rfl, hcode, hin, hroom, hwritten⟩
    have hregion := region_of_isIn heap hin
    have hput := (regionAt a n).putSlot_of_le m t b.toUInt64 hroom
    have hbits : word64 heap (.i64 b) = .ok b.toUInt64 := rfl
    rw [writeValue, bind_of_ok (liftM_of_ok (tag_of_code heap hcode) m),
      bind_of_ok (liftM_of_ok hbits m), bind_of_ok hregion, hwritten]
    exact reported_of_ok hput

/-- A slot in memory is read back as the value that it holds. -/
theorem readValue_of_slot {code a n : Int32} {bits : UInt64} (hcode : code.toUInt32.toNat = t.code)
    (hin : (regionAt a n).isIn m = true) (hroom : slotSize ≤ n.toUInt32.toNat)
    (hslot : m.bytes (regionAt a n).address slotSize = slotBytes t bits) :
    readValue heap (.i32 code) (.i32 a) (.i32 n) m =
      (.ok (some (.i64 (WireValue.ofBits t bits).bits.toInt64)), m) := by
  have hread : decodeExpecting (m.bytes (regionAt a n).address (min (regionAt a n).length slotSize))
      t = .ok (WireValue.ofBits t bits).bits := by
    have hdecode := decodeSlot_slotBytes t bits []
    rw [List.append_nil] at hdecode
    rw [Nat.min_eq_right (show slotSize ≤ (regionAt a n).length from hroom), hslot,
      decodeExpecting, hdecode]
    show (if (WireValue.ofBits t bits).tag = t then _ else _) = _
    rw [if_pos (tag_ofBits t bits)]
    rfl
  rw [readValue, bind_of_ok (liftM_of_ok (tag_of_code heap hcode) m),
    bind_of_ok (region_of_isIn heap hin)]
  exact bind_of_ok (liftM_of_ok (show readOrTrap _ = .ok _ by rw [hread]; rfl) m)

/-! ### Requests -/

/-- The words that code passes for a request. -/
structure RequestWords where
  effectId : Int64
  opId : Int32
  opIndex : Int32
  kind : Int32
  handle : Int32
  argsAddress : Int32
  argCount : Int32
  address : Int32
  length : Int32

namespace RequestWords

variable (w : RequestWords)

def vals : List Val :=
  [.i64 w.effectId, .i32 w.opId, .i32 w.opIndex, .i32 w.kind, .i32 w.handle, .i32 w.argsAddress,
    .i32 w.argCount, .i32 w.address, .i32 w.length]

/-- The number of arguments. -/
def count : Nat := w.argCount.toUInt32.toNat

/-- Where the slots of the arguments stand. -/
def slots : Region := ⟨w.argsAddress.toUInt32.toNat, 16 * w.count⟩

/-- Where the request is written. -/
def out : Region := regionAt w.address w.length

/-- The request with some arguments. -/
def envelope (args : List WireValue) : EffectEnvelope where
  opIndex := w.opIndex.toUInt32.toNat
  opId := w.opId.toUInt32.toNat
  effectId := w.effectId.toUInt64.toNat
  resumeCode := w.kind.toUInt32.toNat
  handle := w.handle.toUInt32.toNat
  args := args

/-- What fits the words of the import fits a message. -/
theorem fits_envelope (args : List WireValue) : (w.envelope args).Fits :=
  ⟨UInt32.toNat_lt _, UInt32.toNat_lt _, UInt64.toNat_lt _, UInt32.toNat_lt _, UInt32.toNat_lt _⟩

/-- The slots as the host takes them: their size in a word. -/
theorem slots_eq (h : w.count ≤ 16) :
    regionAt w.argsAddress (.ofNat (w.count * slotSize)) = w.slots := by
  have hsize : w.count * slotSize < UInt32.size := Nat.lt_of_le_of_lt (Nat.mul_le_mul_right _ h)
    (by decide)
  have hword : (Int32.ofNat (w.count * slotSize)).toUInt32.toNat = w.count * slotSize :=
    UInt32.toNat_ofNat_of_lt hsize
  rw [regionAt, hword, Nat.mul_comm]
  rfl

end RequestWords

/-- Writing a request succeeds exactly if its arguments can be read and the request is written. -/
theorem writeEffect_eq_zero_iff {effectId opId opIndex kind handle argsAddress argCount : Val} :
    writeEffect heap effectId opId opIndex kind handle argsAddress argCount address length m =
        (.ok (some (.i32 0)), m') ↔
      ∃ (w : RequestWords) (args : List WireValue),
        [effectId, opId, opIndex, kind, handle, argsAddress, argCount, address, length] = w.vals ∧
        w.count ≤ 16 ∧ w.slots.isIn m = true ∧ decodeSlots (w.slots.bytes m) 0 w.count = .ok args ∧
        w.out.isIn m = true ∧ ∃ size, w.out.putRequest (w.envelope args) m = (.ok size, m') := by
  constructor
  · intro h
    obtain ⟨count, hcount, h⟩ := (reads_liftM _).of_bind_ok h
    obtain ⟨argCount, rfl, rfl⟩ := word32_eq_ok (liftM_eq_ok hcount)
    by_cases hmax : maxArgs < argCount.toUInt32.toNat
    · rw [if_pos hmax] at h
      cases h
    rw [if_neg hmax] at h
    obtain ⟨slots, hslots, h⟩ := (reads_region heap _ _).of_bind_ok h
    obtain ⟨_, hget, h⟩ := Reads.of_bind_ok (x := get) (fun _ => rfl) h
    obtain rfl := Except.ok.inj (Prod.ext_iff.1 hget).1
    obtain ⟨args, hargs, h⟩ := (reads_liftM _).of_bind_ok h
    obtain ⟨opIndex, hindex, h⟩ := (reads_liftM _).of_bind_ok h
    obtain ⟨opId, hid, h⟩ := (reads_liftM _).of_bind_ok h
    obtain ⟨effectId, heffect, h⟩ := (reads_liftM _).of_bind_ok h
    obtain ⟨kind, hkind, h⟩ := (reads_liftM _).of_bind_ok h
    obtain ⟨handle, hhandle, h⟩ := (reads_liftM _).of_bind_ok h
    obtain ⟨r, hregion, h⟩ := (reads_region heap _ _).of_bind_ok h
    -- each word that was read shows the form of its value
    obtain ⟨argsAddress, size, rfl, hsize, rfl, hin⟩ := region_eq_ok hslots
    obtain rfl := Val.i32.inj hsize
    obtain ⟨opIndex, rfl, rfl⟩ := word32_eq_ok (liftM_eq_ok hindex)
    obtain ⟨opId, rfl, rfl⟩ := word32_eq_ok (liftM_eq_ok hid)
    obtain ⟨effectId, rfl, rfl⟩ := word64_eq_ok (liftM_eq_ok heffect)
    obtain ⟨kind, rfl, rfl⟩ := word32_eq_ok (liftM_eq_ok hkind)
    obtain ⟨handle, rfl, rfl⟩ := word32_eq_ok (liftM_eq_ok hhandle)
    obtain ⟨address, length, rfl, rfl, rfl, hout⟩ := region_eq_ok hregion
    let w : RequestWords :=
      ⟨effectId, opId, opIndex, kind, handle, argsAddress, argCount, address, length⟩
    have hw : w.count ≤ 16 := Nat.not_lt.1 hmax
    have hwslots := w.slots_eq hw
    refine ⟨w, args, rfl, hw, hwslots ▸ hin, hwslots ▸ readOrTrap_eq_ok (liftM_eq_ok hargs), hout,
      reported_eq_zero h⟩
  · rintro ⟨w, args, hvals, hcount, hin, hargs, hout, size, hput⟩
    obtain ⟨rfl, rfl, rfl, rfl, rfl, rfl, rfl, rfl, rfl⟩ : effectId = .i64 w.effectId ∧
        opId = .i32 w.opId ∧ opIndex = .i32 w.opIndex ∧ kind = .i32 w.kind ∧ handle = .i32
        w.handle ∧ argsAddress = .i32 w.argsAddress ∧ argCount = .i32 w.argCount ∧ address = .i32
        w.address ∧ length = .i32 w.length := by
      simpa [RequestWords.vals] using hvals
    have hslots := region_of_isIn heap (m := m) ((w.slots_eq hcount).symm ▸ hin)
    rw [w.slots_eq hcount] at hslots
    have hregion : region heap (.i32 w.address) (.i32 w.length) m = (.ok w.out, m) :=
      region_of_isIn heap hout
    have hword (v : Int32) : (liftM (word32 heap (.i32 v)) : ImportM Nat)
        m = (.ok v.toUInt32.toNat, m) :=
      liftM_of_ok rfl m
    have heffect : word64 heap (.i64 w.effectId) = .ok w.effectId.toUInt64 := rfl
    have hread : readOrTrap (decodeSlots (w.slots.bytes m) 0 w.count) = .ok args := by
      rw [hargs]; rfl
    -- run it read by read, in the order of the code
    rw [writeEffect, bind_of_ok (show _ = (Except.ok w.count, m) from hword w.argCount),
      if_neg (show ¬ maxArgs < w.count from Nat.not_lt.2 hcount)]
    dsimp only
    rw [bind_of_ok hslots]
    refine (bind_of_ok (liftM_of_ok hread m)).trans ?_
    rw [bind_of_ok (hword w.opIndex), bind_of_ok (hword w.opId), bind_of_ok (liftM_of_ok heffect m),
      bind_of_ok (hword w.kind), bind_of_ok (hword w.handle), bind_of_ok hregion]
    exact reported_of_ok hput

/-! ### All functions -/

def IsFunction (target : HostImport) (name : String) : Prop :=
  target.module = "host" ∧ target.name = name

theorem serve_writeValue (h : IsFunction target "write_value") (tagCode bits address length : Val)
    (heap : Heap) :
    serve target [tagCode, bits, address, length] heap = writeValue heap tagCode bits address
      length := by
  obtain ⟨module, name, params, result⟩ := target
  obtain ⟨rfl, rfl⟩ := h
  rfl

theorem serve_readValue (h : IsFunction target "read_value") (tagCode address length : Val)
    (heap : Heap) :
    serve target [tagCode, address, length] heap = readValue heap tagCode address length := by
  obtain ⟨module, name, params, result⟩ := target
  obtain ⟨rfl, rfl⟩ := h
  rfl

theorem serve_writeEffect (h : IsFunction target "write_effect")
    (effectId opId opIndex kind handle argsAddress argCount address length : Val) (heap : Heap) :
    serve target [effectId, opId, opIndex, kind, handle, argsAddress, argCount, address,
      length] heap =
      writeEffect heap effectId opId opIndex kind handle argsAddress argCount address length := by
  obtain ⟨module, name, params, result⟩ := target
  obtain ⟨rfl, rfl⟩ := h
  rfl

/-- A function of the host succeeds only with as many arguments as it takes. -/
theorem writeValue_of_serve (h : IsFunction target "write_value") {vals : List Val} {v : Option Val}
    (hok : serve target vals heap m = (.ok v, m')) :
    ∃ tagCode bits address length, vals = [tagCode, bits, address, length] ∧
      writeValue heap tagCode bits address length m = (.ok v, m') := by
  obtain ⟨why, hserve⟩ | ⟨_, _, _, _, -, hvals, hserve⟩ | ⟨_, _, _, _, _, _, _, _, _,
    hname, -⟩ | ⟨_, _, _, hname, -⟩ :=
    serve_cases target vals heap
  · rw [hserve] at hok
    cases hok
  · exact ⟨_, _, _, _, hvals, hserve ▸ hok⟩
  · exact absurd (h.2.symm.trans hname) (by decide)
  · exact absurd (h.2.symm.trans hname) (by decide)

/-- Only nine operands are served. -/
theorem writeEffect_of_serve (h : IsFunction target "write_effect") {vals : List Val}
    {v : Option Val} (hok : serve target vals heap m = (.ok v, m')) :
    ∃ effectId opId opIndex kind handle argsAddress argCount address length,
      vals = [effectId, opId, opIndex, kind, handle, argsAddress, argCount, address, length] ∧
      writeEffect heap effectId opId opIndex kind handle argsAddress argCount address length m =
      (.ok v, m') := by
  obtain ⟨why, hserve⟩ | ⟨_, _, _, _, hname, -⟩ | ⟨_, _, _, _, _, _, _, _, _, -, hvals,
    hserve⟩ | ⟨_, _, _, hname, -⟩ :=
    serve_cases target vals heap
  · rw [hserve] at hok
    cases hok
  · exact absurd (h.2.symm.trans hname) (by decide)
  · exact ⟨_, _, _, _, _, _, _, _, _, hvals, hserve ▸ hok⟩
  · exact absurd (h.2.symm.trans hname) (by decide)

/-- The value that was written can be read by its tag, and only its slot has changed. -/
def ValueWritten (reader : HostImport) (vals : List Val) (heap : Heap) (m m' : Memory) : Prop :=
  ∃ (code : Int32) (bits : Int64) (address length : Int32) (tag : ValueTag),
    vals = [.i32 code, .i64 bits, .i32 address, .i32 length] ∧ code.toUInt32.toNat = tag.code ∧
    serve reader [.i32 code, .i32 address, .i32 length] heap m' =
      (.ok (some (.i64 (WireValue.ofBits tag bits.toUInt64).bits.toInt64)), m') ∧
    m.SameOutside m' address.toUInt32.toNat 16

/-- The request that was written can be read, with the arguments that memory held before, and only
its bytes have changed.  The two regions may have bytes in common. -/
def RequestWritten (vals : List Val) (m m' : Memory) : Prop :=
  ∃ (w : RequestWords) (args : List WireValue), vals = w.vals ∧ decodeSlots (w.slots.bytes m) 0
    w.count = .ok args ∧ EffectEnvelope.decode (w.out.bytes m') = .ok (w.envelope args) ∧
    m.SameOutside m' w.out.address (32 + 16 * w.count)

/-- A slot that was written is there. -/
theorem bytes_write_slot {r : Region} (hin : r.isIn m = true) (hroom : slotSize ≤ r.length)
    (t : ValueTag) (bits : UInt64) :
    (m.write r.address (slotBytes t bits)).bytes r.address slotSize = slotBytes t bits ∧
      r.isIn (m.write r.address (slotBytes t bits)) = true := by
  have hend : r.address + r.length ≤ m.size := of_decide_eq_true hin
  have hlength : (slotBytes t bits).length = slotSize := length_slotBytes t bits
  have hbytes := m.bytes_write r.address
    (by rw [hlength]; exact Nat.le_trans (Nat.add_le_add_left hroom _) hend)
  exact ⟨hbytes, by rwa [Region.isIn, Memory.holds, Memory.size_write]⟩

/-- A served call that reports success wrote what can be read back. -/
theorem valueWritten_of_serve {writer reader : HostImport} {vals : List Val}
    (hwriter : IsFunction writer "write_value") (hreader : IsFunction reader "read_value")
    (h : serve writer vals heap m = (.ok (some (.i32 0)), m')) :
    ValueWritten reader vals heap m m' := by
  obtain ⟨tagCode, bits, address, length, rfl, hvalue⟩ := writeValue_of_serve hwriter h
  obtain ⟨code, b, a, n, t, rfl, rfl, rfl, rfl, hcode, hin, hroom, hwritten⟩ :=
    writeValue_eq_zero_iff.1 hvalue
  obtain ⟨hbytes, hin'⟩ := bytes_write_slot hin hroom t b.toUInt64
  rw [← hwritten] at hbytes hin'
  have hsize : m'.size = m.size := by rw [hwritten, Memory.size_write]
  refine ⟨code, b, a, n, t, rfl, hcode, ?_, hsize, fun x hx => ?_⟩
  · rw [serve_readValue hreader]
    exact readValue_of_slot hcode hin' hroom hbytes
  · rw [hwritten]
    exact m.byte_write_of_outside (by rwa [length_slotBytes])

theorem requestWritten_of_serve {writer : HostImport} {vals : List Val}
    (hwriter : IsFunction writer "write_effect")
    (h : serve writer vals heap m = (.ok (some (.i32 0)), m')) : RequestWritten vals m m' := by
  obtain ⟨effectId, opId, opIndex, kind, handle, argsAddress, argCount, address, length, rfl,
    heffect⟩ :=
    writeEffect_of_serve hwriter h
  obtain ⟨w, args, hvals, -, -, hargs, hout, size, hput⟩ := writeEffect_eq_zero_iff.1 heffect
  have hroom : MessageKind.request.HasRoom w.out (w.envelope args) := by
    refine Classical.byContradiction fun hroom => ?_
    obtain ⟨why, hrefused⟩ := MessageKind.isLawful_request.refused w.out m (w.envelope args) hroom
    rw [show w.out.putRequest (w.envelope args) m = _ from hrefused] at hput
    cases hput
  obtain ⟨after, hwritten, hsame, hback⟩ := MessageKind.isLawful_request.written w.out m
    (w.envelope args) hout hroom
  rw [show w.out.putRequest (w.envelope args) m = _ from hwritten] at hput
  obtain rfl : after = m' := (Prod.ext_iff.1 hput).2
  refine ⟨w, args, hvals, hargs, hback (w.fits_envelope args), ?_⟩
  rw [show w.count = args.length from (length_of_decodeSlots hargs).symm]
  exact hsame

/-- A request is written where there is room for it, if its arguments can be read, and the host
reads it back. -/
theorem exists_request_written {writer : HostImport} (hwriter : IsFunction writer "write_effect")
    {w : RequestWords} {args : List WireValue} (hcount : w.count ≤ 16) (hin : w.slots.isIn m = true)
    (hargs : decodeSlots (w.slots.bytes m) 0 w.count = .ok args) (hout : w.out.isIn m = true)
    (hroom : 32 + 16 * w.count ≤ w.out.length) :
    ∃ m', serve writer w.vals heap m = (.ok (some (.i32 0)), m') ∧
      EffectEnvelope.decode (w.out.bytes m') = .ok (w.envelope args) := by
  have hlength : args.length = w.count := length_of_decodeSlots hargs
  obtain ⟨m', hput, -, hback⟩ := MessageKind.isLawful_request.written w.out m (w.envelope args) hout
    ⟨show args.length ≤ 16 by omega, show 32 + 16 * args.length ≤ _ by omega⟩
  rw [RequestWords.vals, serve_writeEffect hwriter]
  exact ⟨m', writeEffect_eq_zero_iff.2 ⟨w, args, rfl, hcount, hin, hargs, hout, _, hput⟩,
    hback (w.fits_envelope args)⟩

/-- What the functions of the host do to a memory. -/
structure IsSafe (heap : Heap) (m : Memory) : Prop where
  /-- A call that fails or is refused changes nothing. -/
  unchanged : ∀ target vals, (∃ why, (serve target vals heap m).1 = .error why) ∨
    (serve target vals heap m).1 = .ok (some (.i32 1)) → (serve target vals heap m).2 = m
  value : ∀ writer reader vals m', IsFunction writer "write_value" → IsFunction reader
    "read_value" → serve writer vals heap m = (.ok (some (.i32 0)), m') → ValueWritten reader
    vals heap m m'
  request : ∀ writer vals m', IsFunction writer "write_effect" → serve writer vals heap
    m = (.ok (some (.i32 0)), m') → RequestWritten vals m m'
  /-- Values are written where there is room for a slot. -/
  value_ok : ∀ writer code bits address length tag, IsFunction writer "write_value" →
    code.toUInt32.toNat = ValueTag.code tag → (regionAt address length).isIn m →
    16 ≤ (regionAt address length).length → ∃ m', serve writer [.i32 code, .i64 bits, .i32 address,
    .i32 length] heap m = (.ok (some (.i32 0)), m')
  /-- Requests are written where there is room for them, if their arguments can be read. -/
  request_ok : ∀ writer (w : RequestWords) args, IsFunction writer "write_effect" → w.count ≤ 16 →
    w.slots.isIn m → decodeSlots (w.slots.bytes m) 0 w.count = .ok args → w.out.isIn m →
    32 + 16 * w.count ≤ w.out.length → ∃ m', serve writer w.vals heap m = (.ok (some (.i32 0)), m')

/-- **The functions of the host** change memory only when they succeed; what they write is read
back, also when the arguments of a request stand where the request is written, and nothing else
changes. -/
theorem serve_isSafe (heap : Heap) (m : Memory) : IsSafe heap m where
  unchanged target args := atomic_serve target args heap m
  value _ _ _ _ hwriter hreader h := valueWritten_of_serve hwriter hreader h
  request _ _ _ hwriter h := requestWritten_of_serve hwriter h
  value_ok writer code bits address length tag hwriter hcode hin hroom := by
    rw [serve_writeValue hwriter]
    exact ⟨_, writeValue_eq_zero_iff.2 ⟨code, bits, address, length, tag, rfl, rfl, rfl, rfl, hcode,
      hin, hroom, rfl⟩⟩
  request_ok _ _ _ hwriter hcount hin hargs hout hroom :=
    (exists_request_written hwriter hcount hin hargs hout hroom).imp fun _ h => h.1

end Effectful.Host
