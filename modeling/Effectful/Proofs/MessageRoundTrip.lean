import Effectful.Host.Region
import Effectful.Proofs.Computation
import Effectful.Proofs.TableRoundTrip
/-!
# Messages are written whole or not at all, and read back

`messages_isLawful`: the two messages with arguments, calls and requests, are written into a region
of memory exactly if the region has room for them, and then they are read back from it.  A message
that does not fit changes nothing. Reading looks only at what writing writes, and never past the end
of the bytes.

Both messages are a header of words and then the slots of the arguments, so both are
`Region.putMessage` and `decodeMessage` with headers of their own, and
`MessageKind.isLawful_of_header` proves the laws once.  Its two halves:

* the words and slots that are written one by one are adjacent, so together they are one write
  (`Region.putMessage_eq_place`);
* bytes that start with a header and slots are read as the message (`decodeMessage_append`).
-/

namespace Effectful

open List

variable {bytes : List UInt8} {available n headerSize countAt count start : Nat}
  {args : List WireValue}

/-! ### Memory -/

namespace Target.Memory

variable (m : Memory)

@[simp]
theorem size_setByte (address : Nat) (b : UInt8) : (m.setByte address b).size = m.size := by
  rw [setByte]
  split <;> rfl

theorem byte_setByte (address x : Nat) (b : UInt8) :
    (m.setByte address b).byte x = if x = address ∧ address < m.size then b else m.byte x := by
  unfold setByte byte
  by_cases h : address < m.size
  · simp only [h, if_true, and_true, Std.TreeMap.getD_insert, Nat.compare_eq_eq,
      @eq_comm _ address x]
  · simp [h]

@[simp]
theorem size_write (address : Nat) (bytes : List UInt8) :
    (m.write address bytes).size = m.size := by
  induction bytes generalizing m address with
  | nil => rfl
  | cons b bytes ih => rw [write, ih, size_setByte]

theorem write_append (address : Nat) (xs ys : List UInt8) :
    m.write address (xs ++ ys) = (m.write address xs).write (address + xs.length) ys := by
  induction xs generalizing m address with
  | nil => rfl
  | cons b xs ih =>
    rw [cons_append, write, write, ih, length_cons, Nat.add_assoc, Nat.add_comm 1]

theorem byte_write_of_outside {address x : Nat} (h : x < address ∨ address + bytes.length ≤ x) :
    (m.write address bytes).byte x = m.byte x := by
  induction bytes generalizing m address with
  | nil => rfl
  | cons b bytes ih =>
    rw [length_cons] at h
    rw [write, ih _ (by omega), byte_setByte, if_neg (by omega)]

theorem bytes_add (address a b : Nat) :
    m.bytes address (a + b) = m.bytes address a ++ m.bytes (address + a) b := by
  rw [bytes, bytes, bytes, ← map_append, range'_append_1]

theorem bytes_congr {m m' : Memory} {address length : Nat}
    (h : ∀ x, address ≤ x → x < address + length → m'.byte x = m.byte x) :
    m'.bytes address length = m.bytes address length := by
  refine map_congr_left fun x hx => ?_
  rw [mem_range'_1] at hx
  exact h x hx.1 hx.2

theorem bytes_write (address : Nat) (h : address + bytes.length ≤ m.size) :
    (m.write address bytes).bytes address bytes.length = bytes := by
  induction bytes generalizing m address with
  | nil => rfl
  | cons b bytes ih =>
    rw [length_cons] at h
    have hrest := ih (m.setByte address b) (address + 1) (by rw [size_setByte]; omega)
    rw [length_cons, Nat.add_comm, bytes_add, write, hrest]
    simp only [Memory.bytes, range'_one, map_cons, map_nil]
    rw [byte_write_of_outside _ (.inl (Nat.lt_succ_self _)), byte_setByte, if_pos ⟨rfl, by omega⟩]
    rfl

end Target.Memory

/-! ### Values and slots -/

@[simp]
theorem WireValue.ofBits_tag_bits (v : WireValue) : ofBits v.tag v.bits = v := by
  cases v <;> simp [tag, bits, ofBits]

namespace Wire

@[simp]
theorem length_slotBytes (tag : ValueTag) (bits : UInt64) :
    (slotBytes tag bits).length = slotSize := by
  simp [slotBytes, slotSize]

@[simp]
theorem length_slots (args : List WireValue) : (slots args).length = args.length * slotSize := by
  induction args with
  | nil => rfl
  | cons v args ih =>
    rw [slots, flatMap_cons, length_append, ← slots, ih, encodeSlot, length_slotBytes, length_cons,
      Nat.add_mul, Nat.one_mul, Nat.add_comm]

theorem ensure_of_le {needed : Nat} (h : needed ≤ available) : ensure available needed = .ok () :=
  if_neg (Nat.not_lt.2 h)

theorem ensure_of_lt {needed : Nat} (h : available < needed) :
    ensure available needed = .error (.bufferTooSmall needed available) := if_pos h

/-- A word that stands behind some bytes is read back. -/
theorem readNat_append (before behind : List UInt8) (count : Nat) (h : n < Nat.pow 256 count) :
    readNat (before ++ littleEndian count n ++ behind) before.length count = n := by
  rw [readNat, append_assoc, drop_left, take_left' (length_littleEndian count n),
    ofLittleEndian_littleEndian h]

theorem code_lt (tag : ValueTag) : tag.code < Nat.pow 256 4 := by cases tag <;> decide

theorem decodeSlot_slotBytes (tag : ValueTag) (bits : UInt64) (behind : List UInt8) :
    decodeSlot (slotBytes tag bits ++ behind) = .ok (.ofBits tag bits) := by
  have hlength : slotSize ≤ (slotBytes tag bits ++ behind).length := by simp
  have hcode : readNat (slotBytes tag bits ++ behind) 0 4 = tag.code := by
    have := readNat_append [] (littleEndian 4 0 ++ littleEndian 8 bits.toNat ++ behind) 4
      (code_lt tag)
    simpa [slotBytes] using this
  have hbits : readNat (slotBytes tag bits ++ behind) 8 8 = bits.toNat := by
    have := readNat_append (littleEndian 4 tag.code ++ littleEndian 4 0) behind 8 bits.toNat_lt
    simpa [slotBytes] using this
  rw [decodeSlot, ensure_of_le hlength, hcode, hbits]
  simp [bind, Except.bind, pure, Except.pure]

theorem decodeSlots_slots (before : List UInt8) (args : List WireValue) (behind : List UInt8) :
    decodeSlots (before ++ slots args ++ behind) before.length args.length = .ok args := by
  induction args generalizing before with
  | nil => rfl
  | cons v args ih =>
    have hsplit : before ++ slots (v :: args) ++ behind = before ++ encodeSlot v ++ slots
        args ++ behind := by
      simp [slots]
    have hrest := ih (before ++ encodeSlot v)
    rw [length_append, encodeSlot, length_slotBytes, ← encodeSlot, ← hsplit] at hrest
    have hfirst : (before ++ slots (v :: args) ++ behind).drop before.length = encodeSlot
        v ++ (slots args ++ behind) := by
      rw [hsplit, append_assoc, append_assoc, drop_left]
    rw [length_cons, decodeSlots, hfirst, hrest, encodeSlot, decodeSlot_slotBytes,
      WireValue.ofBits_tag_bits]
    rfl

/-! ### The bytes of messages -/

/-- The bytes of words, each given by its size and its number. -/
def wordBytes (words : List (Nat × Nat)) : List UInt8 := words.flatMap fun w => littleEndian w.1 w.2

/-- A word of several is read back. -/
theorem readNat_wordBytes (before : List (Nat × Nat)) (count : Nat) (after : List (Nat × Nat))
    (behind : List UInt8) (h : n < Nat.pow 256 count) :
    readNat (wordBytes (before ++ (count, n) :: after) ++ behind)
      (wordBytes before).length count = n := by
  have := readNat_append (wordBytes before) (wordBytes after ++ behind) count h
  simpa [wordBytes] using this

/-- The bytes of a message, for a region of the given size. -/
def encodeMessage (available headerSize : Nat) (header : List (Nat × Nat)) (args : List WireValue) :
    Except WireError (List UInt8) := do
  if maxArgs < args.length then .error (.tooManyArgs args.length)
  ensure available (headerSize + args.length * slotSize)
  return wordBytes header ++ slots args

theorem encodeMessage_of_le (header : List (Nat × Nat)) (hargs : args.length ≤ maxArgs)
    (hle : headerSize + args.length * slotSize ≤ available) :
    encodeMessage available headerSize header args = .ok (wordBytes header ++ slots args) := by
  rw [encodeMessage, if_neg (Nat.not_lt.2 hargs), ensure_of_le hle]
  rfl

theorem encodeArgs_eq (available : Nat) (args : List WireValue) :
    encodeArgs available args = encodeMessage available argsHeaderSize [(4, args.length),
      (4, 0)] args := by
  unfold encodeArgs encodeMessage
  simp [wordBytes, argOffset]

theorem encode_eq (available : Nat) (e : EffectEnvelope) :
    e.encode available = encodeMessage available requestHeaderSize
      [(4, e.opIndex), (4, e.opId), (8, e.effectId), (4, e.resumeCode), (4, e.handle),
        (4, e.args.length), (4, 0)]
      e.args := by
  unfold EffectEnvelope.encode encodeMessage
  simp [wordBytes, EffectEnvelope.encodedLength]

/-- Reads a message: the number of its arguments stands at a place of the header, and `make` takes
the rest from there. -/
def decodeMessage {α : Type} (headerSize countAt : Nat) (make : List UInt8 → List WireValue → α)
    (region : List UInt8) :
    Except WireError α := do
  ensure region.length headerSize
  let count := readNat region countAt 4
  if maxArgs < count then .error (.tooManyArgs count)
  ensure region.length (headerSize + count * slotSize)
  return make region (← decodeSlots region headerSize count)

theorem decodeArgs_eq (region : List UInt8) :
    decodeArgs region = decodeMessage argsHeaderSize 0 (fun _ args => args) region := by
  unfold decodeArgs decodeMessage
  simp only [argOffset, bind_pure]

/-- What a request is, given its header and its arguments. -/
def requestOf (region : List UInt8) (args : List WireValue) : EffectEnvelope where
  opIndex := readNat region 0 4
  opId := readNat region 4 4
  effectId := readNat region 8 8
  resumeCode := readNat region 16 4
  handle := readNat region 20 4
  args := args

theorem decode_eq (region : List UInt8) :
    EffectEnvelope.decode region = decodeMessage requestHeaderSize 24 requestOf region := rfl

/-- The checks of reading, in their order. -/
theorem decodeMessage_eq {α : Type} (headerSize countAt : Nat)
    (make : List UInt8 → List WireValue → α) (region : List UInt8) :
    decodeMessage headerSize countAt make region =
      if region.length < headerSize then .error (.bufferTooSmall headerSize region.length)
      else if maxArgs < readNat region countAt 4 then .error
        (.tooManyArgs (readNat region countAt 4))
      else if region.length < headerSize + readNat region countAt 4 * slotSize then
        .error (.bufferTooSmall (headerSize + readNat region countAt 4 * slotSize) region.length)
      else (decodeSlots region headerSize (readNat region countAt 4)).map (make region) := by
  unfold decodeMessage ensure
  by_cases hheader : region.length < headerSize
  · simp only [if_pos hheader]
    rfl
  by_cases hcount : maxArgs < readNat region countAt 4
  · simp only [if_neg hheader, if_pos hcount]
    rfl
  by_cases hroom : region.length < headerSize + readNat region countAt 4 * slotSize
  · simp only [if_neg hheader, if_neg hcount, if_pos hroom]
    rfl
  · simp only [if_neg hheader, if_neg hcount, if_neg hroom]
    cases decodeSlots region headerSize (readNat region countAt 4) <;> rfl

/-- A message is read back, whatever stands behind it. -/
theorem decodeMessage_append {α : Type} (make : List UInt8 → List WireValue → α)
    {header : List UInt8} (behind : List UInt8) (hsize : header.length = headerSize)
    (hargs : args.length ≤ maxArgs)
    (hcount : readNat (header ++ slots args ++ behind) countAt 4 = args.length) :
    decodeMessage headerSize countAt make (header ++ slots args ++ behind) =
      .ok (make (header ++ slots args ++ behind) args) := by
  have hlength : headerSize + args.length * slotSize ≤ (header ++ slots args ++ behind).length := by
    rw [length_append, length_append, hsize, length_slots]
    omega
  have hslots := decodeSlots_slots header args behind
  rw [hsize] at hslots
  rw [decodeMessage_eq, hcount, if_neg (by omega), if_neg (by omega), if_neg (by omega), hslots]
  rfl

/-! ### Where reading looks -/

theorem readNat_take {at_ : Nat} (h : at_ + count ≤ n) :
    readNat (bytes.take n) at_ count = readNat bytes at_ count := by
  rw [readNat, readNat, drop_take, take_take, Nat.min_eq_left (by omega)]

theorem decodeSlot_take (h : slotSize ≤ n) : decodeSlot (bytes.take n) = decodeSlot bytes := by
  have hcode : readNat (bytes.take n) 0 4 = readNat bytes 0 4 :=
    readNat_take (Nat.le_trans (by decide) h)
  have hbits : readNat (bytes.take n) 8 8 = readNat bytes 8 8 :=
    readNat_take (Nat.le_trans (by decide) h)
  have hensure : ensure (bytes.take n).length slotSize = ensure bytes.length slotSize := by
    rw [length_take]
    by_cases hle : slotSize ≤ bytes.length
    · rw [ensure_of_le hle, ensure_of_le (by omega)]
    · rw [Nat.min_eq_right (by omega)]
  rw [decodeSlot, decodeSlot, hcode, hbits, hensure]

theorem decodeSlots_take (h : start + count * slotSize ≤ n) :
    decodeSlots (bytes.take n) start count = decodeSlots bytes start count := by
  induction count generalizing start with
  | zero => rfl
  | succ count ih =>
    rw [Nat.add_mul, Nat.one_mul] at h
    rw [decodeSlots, decodeSlots, ih (by omega), drop_take, decodeSlot_take (by omega)]

/-- Reading a message depends only on as many bytes as its count says that it has. -/
theorem decodeMessage_congr {α : Type} {make : List UInt8 → List WireValue → α}
    (hcountAt : countAt + 4 ≤ headerSize)
    (hmake : ∀ bytes args, make (bytes.take headerSize) args = make bytes args)
    {bytes' : List UInt8} (hn : n = headerSize + readNat bytes countAt 4 * slotSize)
    (hsame : bytes'.take n = bytes.take n)
    (hlength : bytes'.length = bytes.length ∨ n ≤ bytes'.length ∧ n ≤ bytes.length) :
    decodeMessage headerSize countAt make bytes' = decodeMessage headerSize countAt make bytes := by
  have hheader : headerSize ≤ n := by omega
  have hcount : readNat bytes' countAt 4 = readNat bytes countAt 4 := by
    rw [← readNat_take (n := n) (by omega), hsame, readNat_take (by omega)]
  have hslots : decodeSlots bytes' headerSize (readNat bytes countAt 4) =
      decodeSlots bytes headerSize (readNat bytes countAt 4) := by
    rw [← decodeSlots_take (n := n) (Nat.le_of_eq hn.symm), hsame,
      decodeSlots_take (Nat.le_of_eq hn.symm)]
  have hmakes : make bytes' = make bytes := by
    have htake (xs : List UInt8) : xs.take headerSize = (xs.take n).take headerSize := by
      rw [take_take, Nat.min_eq_left hheader]
    funext args
    rw [← hmake bytes', htake bytes', hsame, ← htake bytes, hmake]
  rw [decodeMessage_eq, decodeMessage_eq, hcount, hslots, hmakes, ← hn]
  rcases hlength with hlength | ⟨hle', hle⟩
  · rw [hlength]
  · simp only [Nat.not_lt.2 (Nat.le_trans hheader hle'), Nat.not_lt.2 (Nat.le_trans hheader hle),
      Nat.not_lt.2 hle', Nat.not_lt.2 hle, if_false]

open CheckedRead (bytesAt bytesAt_of_le wordAt wordAt_of_le inside inside_bind inside_ok_bind)

def slotWithin (bytes : List UInt8) (start : Nat) : CheckedRead WireError WireValue := do
  let rest ← bytesAt bytes start (bytes.length - start)
  inside (ensure rest.length slotSize)
  let code ← wordAt rest 0 4
  match ValueTag.ofCode? code with
  | some tag => return .ofBits tag (.ofNat (← wordAt rest 8 8))
  | none => throw (.unknownTag code)

def slotsWithin (bytes : List UInt8) : (start count : Nat) → CheckedRead WireError (List WireValue)
  | _, 0 => return []
  | start, count + 1 => do
    let v ← slotWithin bytes start
    return v :: (← slotsWithin bytes (start + slotSize) count)

/-- Reads a message by the places of its parts. -/
def messageWithin {α : Type} (headerSize countAt : Nat) (make : List UInt8 → List WireValue → α)
    (bytes : List UInt8) :
    CheckedRead WireError α := do
  inside (ensure bytes.length headerSize)
  let count ← wordAt bytes countAt 4
  if maxArgs < count then throw (.tooManyArgs count)
  inside (ensure bytes.length (headerSize + count * slotSize))
  let args ← slotsWithin bytes headerSize count
  return make (← bytesAt bytes 0 headerSize) args

theorem slotWithin_eq (h : start ≤ bytes.length) :
    slotWithin bytes start = inside (decodeSlot (bytes.drop start)) := by
  have hrest : (bytes.drop start).take (bytes.length - start) = bytes.drop start :=
    take_of_length_le (Nat.le_of_eq length_drop)
  rw [slotWithin, bytesAt_of_le (by omega), hrest, inside_ok_bind, decodeSlot]
  by_cases hroom : slotSize ≤ (bytes.drop start).length
  · have hle : 16 ≤ (bytes.drop start).length := hroom
    rw [ensure_of_le hroom, inside_ok_bind, wordAt_of_le (by omega), inside_ok_bind]
    simp only [wordAt_of_le (show 8 + 8 ≤ (bytes.drop start).length from hle), inside_ok_bind]
    show _ = inside (match ValueTag.ofCode?
      (readNat (bytes.drop start) 0 4) with | some tag => _ | none => _)
    rw [readNat]
    cases ValueTag.ofCode? (ofLittleEndian (((bytes.drop start).drop 0).take 4)) <;> rfl
  · rw [ensure_of_lt (Nat.not_le.1 hroom)]
    rfl

theorem slotsWithin_eq (h : start + count * slotSize ≤ bytes.length) :
    slotsWithin bytes start count = inside (decodeSlots bytes start count) := by
  induction count generalizing start with
  | zero => rfl
  | succ count ih =>
    rw [Nat.add_mul, Nat.one_mul] at h
    rw [slotsWithin, slotWithin_eq (by omega), ih (by omega), decodeSlots]
    cases decodeSlot (bytes.drop start) with
    | error why => rfl
    | ok v => cases decodeSlots bytes (start + slotSize) count <;> rfl

/-- No access is outside of the bytes. -/
theorem run_messageWithin {α : Type} {make : List UInt8 → List WireValue → α}
    (hcountAt : countAt + 4 ≤ headerSize)
    (hmake : ∀ bytes args, make (bytes.take headerSize) args = make bytes args)
    (bytes : List UInt8) :
    (messageWithin headerSize countAt make bytes).run =
      some (decodeMessage headerSize countAt make bytes) := by
  rw [decodeMessage_eq, messageWithin]
  by_cases hheader : bytes.length < headerSize
  · rw [if_pos hheader, ensure_of_lt hheader]
    rfl
  rw [if_neg hheader, ensure_of_le (Nat.not_lt.1 hheader), inside_ok_bind, wordAt_of_le (by omega),
    inside_ok_bind, ← readNat]
  by_cases hcount : maxArgs < readNat bytes countAt 4
  · rw [if_pos hcount, if_pos hcount]
    rfl
  rw [if_neg hcount, if_neg hcount]
  by_cases hroom : bytes.length < headerSize + readNat bytes countAt 4 * slotSize
  · rw [if_pos hroom, ensure_of_lt hroom]
    rfl
  rw [if_neg hroom, ensure_of_le (Nat.not_lt.1 hroom), inside_ok_bind,
    slotsWithin_eq (Nat.not_lt.1 hroom), bytesAt_of_le (by omega), drop_zero]
  cases decodeSlots bytes headerSize (readNat bytes countAt 4) with
  | error why => rfl
  | ok args => exact congrArg (fun x => some (Except.ok x)) (hmake bytes args)

end Wire

/-! ### Writing in place -/

namespace Host

namespace Region

open Target Wire

variable (r : Region) (m : Memory)

/-- Writes all bytes of a message at once, or none if there is no message. -/
def place (message : Except WireError (List UInt8)) : WriteM Nat := fun m =>
  match message with
  | .ok bytes => (.ok bytes.length, m.write r.address bytes)
  | .error why => (.error why, m)

theorem putSlot_of_le (tag : ValueTag) (bits : UInt64) (h : slotSize ≤ r.length) :
    r.putSlot tag bits m = (.ok (), m.write r.address (slotBytes tag bits)) := by
  unfold putSlot
  rw [ensure_of_le h]
  show (Except.ok (), ((m.write (r.address + 0) (littleEndian 4 tag.code)).write (r.address + 4)
    (littleEndian 4 0)).write (r.address + 8) (littleEndian 8 bits.toNat)) = _
  rw [slotBytes, Memory.write_append, Memory.write_append, length_append, length_littleEndian,
    length_littleEndian]
  rfl

theorem putSlot_of_lt (tag : ValueTag) (bits : UInt64) (h : r.length < slotSize) :
    r.putSlot tag bits m = (.error (.bufferTooSmall slotSize r.length), m) := by
  unfold putSlot
  rw [ensure_of_lt h]
  rfl

/-- Slots that fit are written one behind the other. -/
theorem putValues_of_le (offset : Nat) (h : offset + args.length * slotSize ≤ r.length) :
    r.putValues offset args m = (.ok (), m.write (r.address + offset) (slots args)) := by
  induction args generalizing offset m with
  | nil => rfl
  | cons v args ih =>
    rw [length_cons, Nat.add_mul, Nat.one_mul] at h
    have hfirst := (r.drop offset).putSlot_of_le m v.tag v.bits
      (show slotSize ≤ r.length - offset by omega)
    have hrest := ih (m.write (r.address + offset) (encodeSlot v)) (offset + slotSize) (by omega)
    rw [slots, flatMap_cons, Memory.write_append, encodeSlot, length_slotBytes, Nat.add_assoc,
      ← encodeSlot, ← slots, ← hrest]
    exact bind_of_ok hfirst

/-- Words are written one behind the other. -/
theorem putWords_eq (offset : Nat) (words : List (Nat × Nat)) :
    r.putWords offset words m = (.ok (), m.write (r.address + offset) (wordBytes words)) := by
  induction words generalizing offset m with
  | nil => rfl
  | cons w words ih =>
    rw [wordBytes, flatMap_cons, Memory.write_append, length_littleEndian, Nat.add_assoc,
      ← wordBytes, ← ih]
    rfl

/-- A message is written as a whole. -/
theorem putMessage_eq_place {header : List (Nat × Nat)}
    (hsize : (wordBytes header).length = headerSize) (args : List WireValue) :
    r.putMessage headerSize header args =
      r.place (encodeMessage r.length headerSize header args) := by
  funext m
  unfold putMessage encodeMessage
  by_cases hcount : maxArgs < args.length
  · rw [if_pos hcount, if_pos hcount]
    rfl
  rw [if_neg hcount, if_neg hcount]
  dsimp only
  by_cases hroom : r.length < headerSize + args.length * slotSize
  · rw [ensure_of_lt hroom]
    rfl
  have hle := Nat.not_lt.1 hroom
  have hheader := r.putWords_eq m 0 header
  have hslots := r.putValues_of_le (m.write (r.address + 0) (wordBytes header)) _ hle
  rw [ensure_of_le hle]
  show ((r.putWords 0 header) >>= fun _ => (r.putValues headerSize args >>= fun _ => pure _)) m =
    (Except.ok (wordBytes header ++ slots args).length,
    m.write r.address (wordBytes header ++ slots args))
  rw [bind_of_ok hheader, bind_of_ok hslots, Memory.write_append, length_append,
    length_slots, hsize]
  rfl

end Region

end Host

/-- Two memories of one size that differ at most in a region. -/
structure Target.Memory.SameOutside (m m' : Target.Memory) (address length : Nat) : Prop where
  size : m'.size = m.size
  byte : ∀ x, x < address ∨ address + length ≤ x → m'.byte x = m.byte x

/-- What is placed in a region is the start of its bytes, and all else is as it was. -/
theorem Host.Region.place_ok {r : Region} {m : Target.Memory} (hin : r.isIn m = true)
    (hle : bytes.length ≤ r.length) :
    ∃ m', r.place (.ok bytes) m = (.ok bytes.length, m') ∧
      (∃ behind, r.bytes m' = bytes ++ behind) ∧ m.SameOutside m' r.address bytes.length := by
  have hend : r.address + r.length ≤ m.size := of_decide_eq_true hin
  refine ⟨_, rfl, ⟨m.bytes (r.address + bytes.length) (r.length - bytes.length), ?_⟩,
    m.size_write _ _, fun x hx => m.byte_write_of_outside hx⟩
  obtain ⟨rest, hrest⟩ := Nat.exists_eq_add_of_le hle
  rw [Region.bytes, hrest, Target.Memory.bytes_add, m.bytes_write _ (by omega),
    Nat.add_sub_cancel_left]
  exact congrArg _ (Target.Memory.bytes_congr fun x hx _ => m.byte_write_of_outside (.inr hx))

/-! ### Kinds of messages -/

/-- The fields of a request fit their words. -/
structure EffectEnvelope.Fits (e : EffectEnvelope) : Prop where
  opIndex : e.opIndex < UInt32.size
  opId : e.opId < UInt32.size
  effectId : e.effectId < UInt64.size
  resumeCode : e.resumeCode < UInt32.size
  handle : e.handle < UInt32.size

open Target Host Wire

/-- A kind of message with the functions that write and read it. -/
structure MessageKind (α : Type) where
  headerSize : Nat
  /-- Where the number of arguments stands in the header. -/
  countAt : Nat
  args : α → List WireValue
  /-- The bytes, for a region of the given size. -/
  encode : Nat → α → Except WireError (List UInt8)
  put : Region → α → WriteM Nat
  decode : List UInt8 → Except WireError α
  /-- The same reader with each access checked. -/
  decodeWithin : List UInt8 → CheckedRead WireError α

namespace MessageKind

def call : MessageKind (List WireValue) where
  headerSize := 8
  countAt := 0
  args := id
  encode := encodeArgs
  put := Region.putArgs
  decode := decodeArgs
  decodeWithin := messageWithin argsHeaderSize 0 fun _ args => args

def request : MessageKind EffectEnvelope where
  headerSize := 32
  countAt := 24
  args := EffectEnvelope.args
  encode := EffectEnvelope.encode
  put := Region.putRequest
  decode := EffectEnvelope.decode
  decodeWithin := messageWithin requestHeaderSize 24 requestOf

variable {α : Type} (k : MessageKind α)

/-- The number of bytes of a message. -/
def size (x : α) : Nat := k.headerSize + 16 * (k.args x).length

/-- How many bytes a message has whose count stands in some bytes. -/
def reach (bytes : List UInt8) : Nat := k.headerSize + 16 * readNat bytes k.countAt 4

/-- A message can be written into a region. -/
def HasRoom (r : Region) (x : α) : Prop := (k.args x).length ≤ 16 ∧ k.size x ≤ r.length

/-- Messages are written whole or not at all, and read back. -/
structure IsLawful (fits : α → Prop) : Prop where
  /-- Writing puts the bytes of the message at the start of a region. -/
  encoded : ∀ (r : Region) (x : α), k.put r x = r.place (k.encode r.length x)
  written : ∀ (r : Region) (m : Memory) (x : α), r.isIn m → k.HasRoom r x →
    ∃ m', k.put r x m = (.ok (k.size x), m') ∧ m.SameOutside m' r.address (k.size x) ∧
      (fits x → k.decode (r.bytes m') = .ok x)
  refused : ∀ (r : Region) (m : Memory) (x : α), ¬ k.HasRoom r x → ∃ why, k.put r x
    m = (.error why, m)
  /-- Reading depends only on as many bytes as are written for the count in them. -/
  decode_congr : ∀ bytes bytes' : List UInt8, bytes'.take (k.reach bytes) = bytes.take
    (k.reach bytes) → bytes'.length = bytes.length ∨ k.reach bytes ≤ bytes'.length ∧
    k.reach bytes ≤ bytes.length → k.decode bytes' = k.decode bytes
  /-- No access is outside of the bytes. -/
  within : ∀ bytes, (k.decodeWithin bytes).run = some (k.decode bytes)

variable {k} {fits : α → Prop}

/-- The laws hold if the header of a message can be read back from its words. -/
theorem isLawful_of_header (header : α → List (Nat × Nat)) (make : List UInt8 → List WireValue → α)
    (hcountAt : k.countAt + 4 ≤ k.headerSize)
    (hencode : ∀ available x, k.encode available x = encodeMessage available k.headerSize (header x)
      (k.args x))
    (hput : ∀ r x, k.put r x = r.putMessage k.headerSize (header x) (k.args x))
    (hdecode : ∀ bytes, k.decode bytes = decodeMessage k.headerSize k.countAt make bytes)
    (hwithin : k.decodeWithin = messageWithin k.headerSize k.countAt make)
    (hsize : ∀ x, (wordBytes (header x)).length = k.headerSize)
    (hcount : ∀ x behind, (k.args x).length ≤ 16 →
      readNat (wordBytes (header x) ++ behind) k.countAt 4 = (k.args x).length)
    (hlocal : ∀ bytes args, make (bytes.take k.headerSize) args = make bytes args)
    (hmake : ∀ x behind, fits x → make (wordBytes (header x) ++ behind) (k.args x) = x) :
    k.IsLawful fits where
  encoded r x := by rw [hput, r.putMessage_eq_place (hsize x), hencode]
  written r m x hin hroom := by
    obtain ⟨hargs, hle⟩ := hroom
    have hlength : (wordBytes (header x) ++ slots (k.args x)).length = k.size x := by
      rw [length_append, hsize, length_slots, Nat.mul_comm]
      rfl
    have hok := encodeMessage_of_le (header x) hargs
      (show _ ≤ r.length by rw [Nat.mul_comm]; exact hle)
    obtain ⟨m', hplace, ⟨behind, hbytes⟩, hsame⟩ :=
      Region.place_ok hin (Nat.le_trans (Nat.le_of_eq hlength) hle)
    rw [hlength] at hplace hsame
    refine ⟨m', ?_, hsame, fun hfits => ?_⟩
    · rw [hput, r.putMessage_eq_place (hsize x), hok, hplace]
    · rw [hdecode, hbytes, decodeMessage_append make behind (hsize x) hargs, append_assoc,
        hmake x _ hfits]
      rw [append_assoc, hcount x _ hargs]
  refused r m x hroom := by
    rw [hput, r.putMessage_eq_place (hsize x), encodeMessage]
    by_cases hargs : maxArgs < (k.args x).length
    · exact ⟨_, by rw [if_pos hargs]; rfl⟩
    · have hlt : r.length < k.headerSize + (k.args x).length * slotSize := by
        rw [Nat.mul_comm]
        exact Nat.not_le.1 fun hle => hroom ⟨Nat.not_lt.1 hargs, hle⟩
      exact ⟨_, by rw [if_neg hargs, ensure_of_lt hlt]; rfl⟩
  decode_congr bytes bytes' hsame hlength := by
    rw [hdecode, hdecode]
    exact decodeMessage_congr hcountAt hlocal (by rw [reach, Nat.mul_comm]; rfl) hsame hlength
  within bytes := by
    rw [hwithin, hdecode]
    exact run_messageWithin hcountAt hlocal bytes

theorem isLawful_call : call.IsLawful fun _ => True :=
  isLawful_of_header (fun args => [(4, args.length), (4, 0)]) (fun _ args => args) (by decide)
    encodeArgs_eq (fun _ _ => rfl) decodeArgs_eq rfl (fun _ => rfl)
    (fun args behind hargs => readNat_wordBytes [] 4 [(4, 0)] behind
    (Nat.lt_of_le_of_lt hargs (by decide))) (fun _ _ => rfl) fun _ _ _ => rfl

theorem isLawful_request : request.IsLawful EffectEnvelope.Fits := by
  refine isLawful_of_header
    (fun e => [(4, e.opIndex), (4, e.opId), (8, e.effectId), (4, e.resumeCode), (4, e.handle),
    (4, e.args.length), (4, 0)]) requestOf (by decide) encode_eq (fun _ _ => rfl) decode_eq
    rfl (fun _ => rfl) ?_ ?_ ?_
  · intro e behind hargs
    exact readNat_wordBytes [(4, e.opIndex), (4, e.opId), (8, e.effectId), (4, e.resumeCode),
      (4, e.handle)] 4 [(4, 0)] behind (Nat.lt_of_le_of_lt hargs (by decide))
  · intro bytes args
    simp only [requestOf, request]
    rw [readNat_take (by decide), readNat_take (by decide), readNat_take (by decide),
      readNat_take (by decide), readNat_take (by decide)]
  · intro e behind hfits
    have hword {n : Nat} (before : List (Nat × Nat)) (after : List (Nat × Nat))
        (h : n < UInt32.size) :=
      readNat_wordBytes before 4 after behind h
    have hindex := hword [] [(4, e.opId), (8, e.effectId), (4, e.resumeCode), (4, e.handle),
      (4, e.args.length), (4, 0)] hfits.opIndex
    have hid := hword [(4, e.opIndex)] [(8, e.effectId), (4, e.resumeCode), (4, e.handle),
      (4, e.args.length), (4, 0)] hfits.opId
    have heffect := readNat_wordBytes [(4, e.opIndex), (4, e.opId)] 8
      [(4, e.resumeCode), (4, e.handle), (4, e.args.length), (4, 0)] behind hfits.effectId
    have hkind := hword [(4, e.opIndex), (4, e.opId), (8, e.effectId)]
      [(4, e.handle), (4, e.args.length), (4, 0)] hfits.resumeCode
    have hhandle := hword [(4, e.opIndex), (4, e.opId), (8, e.effectId), (4, e.resumeCode)]
      [(4, e.args.length), (4, 0)] hfits.handle
    exact EffectEnvelope.mk.injEq .. |>.mpr ⟨hindex, hid, heffect, hkind, hhandle, rfl⟩

/-- **Calls and requests.** Up to sixteen arguments are written if the region has 8 bytes, for a
request 32, and 16 for each argument; then they are read back and no other byte has changed.
Otherwise writing fails and no byte has changed. Reading depends only on the bytes that are written
for the count in them and stays within the bytes it is given. -/
theorem messages_isLawful : call.IsLawful (fun _ => True) ∧ request.IsLawful EffectEnvelope.Fits :=
  ⟨isLawful_call, isLawful_request⟩

end MessageKind

end Effectful
