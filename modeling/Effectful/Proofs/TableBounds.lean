import Effectful.Proofs.Computation
import Effectful.Proofs.TableRoundTrip
import Mathlib.Data.List.Infix
import Mathlib.Data.List.TakeWhile
/-!
# The ends of an effect table

`decode_within_bounds`: a table that was cut short is never read as a table, bytes behind a table do
not matter, and no bytes at all make reading go past their end.

A cut may fall anywhere.  In the header or among the entries it leaves fewer bytes than the count
asks for.  Among the texts it is noticed only by an entry whose text is cut: that text has lost its
zero byte, and there is no other one behind it (`readText_of_cut`).  There always is such an entry:
the blob grows only for the text of an entry, so if all entries can be read, then nothing of the
blob is missing (`decodeEntries_of_cut`).

The last part is about where reading looks.  `readWithin` is the same reader with the place of every
access written out and checked against the bytes, and no check fails (`run_readWithin`).
-/

namespace Effectful.EffectTable

open List

variable {cut bytes : List UInt8} {blobStart : Nat}

/-! ### Cut texts -/

/-- A text is read from a blob that was cut short if all of it is left, and else it has no end. -/
theorem readText_of_cut {blob : List UInt8} {s : String} {offset : Nat} (hs : 0 ∉ utf8 s)
    (h : stored s <+: blob.drop offset) (hcut : cut <+: blob) (entry : Nat) :
    offset + (stored s).length ≤ cut.length ∧ readText cut entry offset = .ok s ∨
      readText cut entry offset = .error (.badOffset entry offset) := by
  have hdrop : cut.drop offset <+: blob.drop offset := hcut.drop offset
  by_cases hall : offset + (stored s).length ≤ cut.length
  · refine .inl ⟨hall, readText_of_stored hs (prefix_of_prefix_length_le h hdrop ?_) entry⟩
    rw [length_drop]
    omega
  · right
    have hlost : cut.drop offset <+: utf8 s := by
      refine prefix_of_prefix_length_le hdrop ((prefix_append ..).trans h) ?_
      simp only [stored, length_append, length_singleton] at hall
      rw [length_drop]
      omega
    -- what is left of the text has no zero byte, so reading runs to the end of the blob
    have hbytes : (cut.drop offset).takeWhile (· != 0) = cut.drop offset := by
      rw [takeWhile_eq_self_iff]
      intro b hb
      exact bne_iff_ne.2 fun h0 => hs (h0 ▸ hlost.subset hb)
    unfold readText
    simp only [hbytes]
    rw [if_pos (by rw [length_drop]; omega)]

/-- The blob grows only up to the end of the text that is placed. -/
theorem Texts.length_place_le (t : Texts) (s : String) :
    (t.place s).2.blob.length ≤ max t.blob.length ((t.place s).1 + (stored s).length) := by
  unfold Texts.place
  split
  · exact Nat.le_max_left ..
  · simp only [stored, length_append, length_singleton]
    omega

/-! ### Cut tables -/

theorem decodeEntry_of_cut {blob : List UInt8} {e : TableEntry} {nameOffset labelOffset : Nat}
    (he : e.IsReadable) (hfits : e.Fits) (hname : stored e.effectName <+: blob.drop nameOffset)
    (hlabel : stored e.label <+: blob.drop labelOffset) (hn : nameOffset < UInt32.size)
    (hl : labelOffset < UInt32.size) (hcut : cut <+: blob) (index : Nat) :
    (nameOffset + (stored e.effectName).length ≤ cut.length ∧
      labelOffset + (stored e.label).length ≤ cut.length ∧
        decodeEntry cut index (entryBytes e nameOffset labelOffset) = .ok e) ∨
      ∃ offset, decodeEntry cut index (entryBytes e nameOffset labelOffset) =
        .error (.badOffset index offset) := by
  rw [decodeEntry_entryBytes_eq hfits hn hl]
  rcases readText_of_cut he.effectName hname hcut index with ⟨hnameEnd, hname⟩ | hname
  · rcases readText_of_cut he.label hlabel hcut index with ⟨hlabelEnd, hlabel⟩ | hlabel
    · rw [hname, hlabel]
      exact .inl ⟨hnameEnd, hlabelEnd, if_pos he.effectId⟩
    · rw [hname, hlabel]
      exact .inr ⟨labelOffset, rfl⟩
  · rw [hname]
    exact .inr ⟨nameOffset, rfl⟩

/-- Entries that are all read from a cut blob have all their texts there, so nothing of the blob is
missing behind the texts that were placed before. -/
theorem decodeEntries_of_cut {t : Texts} {texts : List String} {es : List TableEntry}
    (h : t.Holds texts) (hes : ∀ e ∈ es, e.IsReadable ∧ e.Fits)
    (hcut : cut <+: (encodeEntries t es).2.blob)
    (hsize : (encodeEntries t es).2.blob.length ≤ UInt32.size) (index : Nat) (rest : List UInt8) :
    (encodeEntries t es).2.blob.length ≤ max t.blob.length cut.length ∨
      ∃ entry offset, decodeEntries cut index es.length ((encodeEntries t es).1 ++ rest) =
        .error (.badOffset entry offset) := by
  induction es generalizing t texts index with
  | nil => exact .inl (Nat.le_max_left ..)
  | cons e es ih =>
    obtain ⟨⟨he, hfits⟩, hes⟩ := forall_mem_cons.1 hes
    have hplaced := h.place e.effectName
    have hlater := ((t.place e.effectName).2.place e.label).2.blob_prefix_encodeEntries es
    have hname := stored_prefix_drop ((Texts.blob_prefix_place _ e.label).trans hlater)
      (h.stored_place e.effectName)
    have hlabel := stored_prefix_drop hlater (hplaced.stored_place e.label)
    have hentry := decodeEntry_of_cut he hfits hname hlabel
      (Nat.lt_of_lt_of_le (offset_lt_of_stored hname) hsize)
      (Nat.lt_of_lt_of_le (offset_lt_of_stored hlabel) hsize) hcut index
    simp only [encodeEntries_cons, length_cons, decodeEntries, append_assoc,
      take_left' (length_entryBytes ..), drop_left' (length_entryBytes ..)]
    rcases hentry with ⟨hnameEnd, hlabelEnd, hentry⟩ | ⟨offset, hentry⟩
    · rcases ih (hplaced.place e.label) hes hcut hsize (index + 1) with hlength | ⟨entry,
        offset, hrest⟩
      · left
        have hnamed := t.length_place_le e.effectName
        have hlabelled := (t.place e.effectName).2.length_place_le e.label
        omega
      · rw [hentry]
        exact .inr ⟨entry, offset, by rw [hrest]; rfl⟩
    · rw [hentry]
      exact .inr ⟨index, offset, rfl⟩

/-- A table that was cut short is refused: it has too few bytes for its entries, or a text has no
end. -/
theorem decode_of_cut {t : EffectTable} (hfits : t.Fits) (ht : ∀ e ∈ t.entries, e.IsReadable)
    (hcut : cut <+: t.encode) (hne : cut ≠ t.encode) :
    (∃ needed, cut.length < needed ∧ decode cut = .error (.truncated needed cut.length)) ∨
      ∃ entry offset, decode cut = .error (.badOffset entry offset) := by
  rw [t.encode_eq] at hcut hne
  by_cases hfixed : t.fixedBytes.length ≤ cut.length
  · -- the cut is among the texts
    obtain ⟨blob, rfl⟩ := prefix_of_prefix_length_le (prefix_append ..) hcut hfixed
    have hblob : blob <+: (encodeEntries {} t.entries).2.blob := by
      rw [t.blob_encodeEntries]
      exact (prefix_append_right_inj _).1 hcut
    have hsize : (encodeEntries {} t.entries).2.blob.length ≤ UInt32.size := by
      rw [t.blob_encodeEntries]
      exact Nat.le_of_lt hfits.blob
    rcases decodeEntries_of_cut Texts.holds_nil (fun e he => ⟨ht e he, hfits.entries e he⟩) hblob
      hsize 0 blob with
      hlength | ⟨entry, offset, hread⟩
    · have hnothing : blob = (encodeEntries {} t.entries).2.blob := by
        refine hblob.eq_of_length_le ?_
        simpa using hlength
      rw [hnothing, t.blob_encodeEntries] at hne
      exact absurd rfl hne
    · refine .inr ⟨entry, offset, ?_⟩
      rw [decode_fixedBytes_append hfits.count, hread]
      rfl
  · left
    by_cases hheader : cut.length < headerSize
    · refine ⟨headerSize, hheader, ?_⟩
      unfold decode
      rw [if_pos hheader]
      rfl
    · -- version and count are there, the entries are not
      obtain ⟨rest, hrest⟩ := hcut
      obtain ⟨hversion, hcount⟩ := t.header_fixedBytes (textBytes t.texts)
      have hle : 8 ≤ cut.length := Nat.not_lt.1 hheader
      rw [← hrest, take_append_of_le_length (by omega)] at hversion
      rw [← hrest, drop_append_of_le_length (by omega),
        take_append_of_le_length (by rw [length_drop]; omega)] at hcount
      have hshort : cut.length < headerSize + t.entries.length * entrySize := by
        rw [← length_fixedBytes]
        omega
      refine ⟨_, hshort, ?_⟩
      unfold decode
      simp only [hversion, hcount, ofLittleEndian_littleEndian
        (show version < Nat.pow 256 4 by decide), ofLittleEndian_littleEndian
        (show t.entries.length < Nat.pow 256 4 from hfits.count), if_pos hshort, if_neg hheader]
      rfl

/-! ### Reading with every access checked -/

open CheckedRead (bytesAt bytesAt_of_le wordAt wordAt_of_le inside inside_bind inside_ok_bind)

/-- The text at an offset of the blob, which starts at the given place. -/
def textAt (bytes : List UInt8) (blobStart entry offset : Nat) : CheckedRead TableError String := do
  let start := blobStart + offset
  if bytes.length ≤ start then throw (.badOffset entry offset)
  let rest ← bytesAt bytes start (bytes.length - start)
  match rest.findIdx? (· == 0) with
  | none => throw (.badOffset entry offset)
  | some length =>
    match ofUtf8? (← bytesAt bytes start length) with
    | some s => return s
    | none => throw (.invalidUtf8 entry)

def entryAt (bytes : List UInt8) (blobStart index start : Nat) :
    CheckedRead TableError TableEntry := do
  let effectId ← wordAt bytes start 8
  let nameOffset ← wordAt bytes (start + 8) 4
  let opId ← wordAt bytes (start + 12) 4
  let code ← wordAt bytes (start + 16) 4
  let signatureHash ← wordAt bytes (start + 20) 4
  let labelOffset ← wordAt bytes (start + 24) 4
  match ResumeKind.ofCode? code with
  | none => throw (.unknownResumeKind index code)
  | some kind =>
    let effectName ← textAt bytes blobStart index nameOffset
    let label ← textAt bytes blobStart index labelOffset
    if effectId = effectIdHash effectName then
      return { effectId, effectName, opId, kind, signatureHash, label }
    else throw (.effectIdMismatch index)

def entriesAt (bytes : List UInt8) (blobStart : Nat) :
    (index count : Nat) → CheckedRead TableError (List TableEntry)
  | _, 0 => return []
  | index, count + 1 => do
    let e ← entryAt bytes blobStart index (headerSize + index * entrySize)
    return e :: (← entriesAt bytes blobStart (index + 1) count)

/-- Reads a table by the places of its parts. -/
def readWithin (bytes : List UInt8) : CheckedRead TableError EffectTable := do
  if bytes.length < headerSize then throw (.truncated headerSize bytes.length)
  let found ← wordAt bytes 0 4
  if found ≠ version then throw (.unsupportedVersion found)
  let count ← wordAt bytes 4 4
  let blobStart := headerSize + count * entrySize
  if bytes.length < blobStart then throw (.truncated blobStart bytes.length)
  return ⟨← entriesAt bytes blobStart 0 count⟩

theorem textAt_eq (h : blobStart ≤ bytes.length) (entry offset : Nat) :
    textAt bytes blobStart entry offset =
      inside (readText (bytes.drop blobStart) entry offset) := by
  unfold textAt readText
  by_cases hstart : bytes.length ≤ blobStart + offset
  · rw [if_pos hstart, if_pos (by rw [length_drop]; omega)]
    rfl
  · have hrest : ((bytes.drop (blobStart + offset)).take (bytes.length - (blobStart + offset))) =
        bytes.drop (blobStart + offset) := take_of_length_le (by rw [length_drop])
    -- the text ends at the first zero byte behind its start
    have hwhile : (bytes.drop (blobStart + offset)).takeWhile (· != 0) =
        (bytes.drop (blobStart + offset)).take
        ((bytes.drop (blobStart + offset)).findIdx (· == 0)) := by
      rw [takeWhile_eq_take_findIdx_not]
      simp only [bne, Bool.not_not]
    have hend : blobStart + offset + (bytes.length - (blobStart + offset)) ≤ bytes.length := by
      omega
    simp only [if_neg hstart, bytesAt_of_le hend, hrest, drop_drop, hwhile, inside_ok_bind]
    cases hzero : (bytes.drop (blobStart + offset)).findIdx? (· == 0) with
    | none =>
      rw [findIdx?_eq_none_iff_findIdx_eq] at hzero
      rw [hzero, if_pos (by simp only [length_take, length_drop]; omega)]
      rfl
    | some length =>
      obtain ⟨hlt, hlength⟩ := findIdx?_eq_some_iff_findIdx_eq.1 hzero
      rw [length_drop] at hlt
      rw [hlength, if_neg (by simp only [length_take, length_drop]; omega)]
      simp only [bytesAt_of_le (show blobStart + offset + length ≤ bytes.length by omega),
        inside_ok_bind]
      cases ofUtf8? ((bytes.drop (blobStart + offset)).take length) <;> rfl

/-- An entry is read from its 28 bytes and from texts behind all entries. -/
theorem entryAt_eq {start : Nat} (h : start + entrySize ≤ bytes.length)
    (hblob : blobStart ≤ bytes.length) (index : Nat) :
    entryAt bytes blobStart index start =
      inside (decodeEntry (bytes.drop blobStart) index ((bytes.drop start).take entrySize)) := by
  have hword (at_ count : Nat) (hat : at_ + count ≤ entrySize) : wordAt (ε := TableError) bytes
    (start + at_) count =
      inside (.ok (ofLittleEndian ((((bytes.drop start).take entrySize).drop at_).take
      count))) := by
    rw [wordAt_of_le (by omega), drop_take, drop_drop, take_take, Nat.min_eq_left (by omega)]
  have hword0 := hword 0 8 (by decide)
  rw [Nat.add_zero] at hword0
  unfold entryAt decodeEntry
  simp only [hword0, hword 8 4 (by decide), hword 12 4 (by decide), hword 16 4 (by decide),
    hword 20 4 (by decide), hword 24 4 (by decide), inside_ok_bind, textAt_eq hblob]
  cases ResumeKind.ofCode?
    (ofLittleEndian ((((bytes.drop start).take entrySize).drop 16).take 4)) with
  | none => rfl
  | some kind =>
    dsimp only
    rw [← inside_bind]
    congr 1
    funext effectName
    rw [← inside_bind]
    split <;> rfl

theorem entriesAt_eq {index count : Nat} (hblob : blobStart ≤ bytes.length)
    (h : headerSize + (index + count) * entrySize ≤ bytes.length) :
    entriesAt bytes blobStart index count =
      inside (decodeEntries (bytes.drop blobStart) index count
        (bytes.drop (headerSize + index * entrySize))) := by
  induction count generalizing index with
  | zero => rfl
  | succ count ih =>
    have hnext : headerSize + index * entrySize + entrySize = headerSize + (index + 1) *
        entrySize := by
      rw [Nat.add_mul, Nat.one_mul, Nat.add_assoc]
    have hle : headerSize + (index + 1) * entrySize ≤ bytes.length :=
      Nat.le_trans (Nat.add_le_add_left (Nat.mul_le_mul_right _ (by omega)) _) h
    rw [entriesAt, decodeEntries, entryAt_eq (hnext ▸ hle) hblob,
      ih (by rwa [Nat.add_right_comm, Nat.add_assoc]), drop_drop, hnext, ← inside_bind]
    congr 1
    funext e
    rw [← inside_bind]
    rfl

/-- No access of the reader is outside of the bytes. -/
theorem run_readWithin (bytes : List UInt8) : (readWithin bytes).run = some (decode bytes) := by
  suffices h : readWithin bytes = inside (decode bytes) by rw [h]; rfl
  unfold readWithin decode
  by_cases hheader : bytes.length < headerSize
  · rw [if_pos hheader, if_pos hheader]
    rfl
  have hle : 8 ≤ bytes.length := Nat.not_lt.1 hheader
  simp only [if_neg hheader, wordAt_of_le (show 0 + 4 ≤ bytes.length by omega),
    wordAt_of_le (show 4 + 4 ≤ bytes.length by omega), inside_ok_bind, drop_zero]
  split
  · rfl
  split
  · rfl
  · rename_i hlong
    have hblob := Nat.not_lt.1 hlong
    rw [entriesAt_eq hblob (by rwa [Nat.zero_add]), Nat.zero_mul, Nat.add_zero, ← inside_bind]
    rfl

/-- **The ends of a table are respected.** A table that was cut short is refused, bytes behind a
table are ignored, and no bytes lead to an access outside of them: the reader with every access
checked never fails a check, and gives the table or the error of `decode`. -/
theorem decode_within_bounds :
    (∀ t : EffectTable, t.Fits → (∀ e ∈ t.entries, e.IsReadable) →
      (∀ cut, cut <+: t.encode → cut ≠ t.encode →
        (∃ needed, cut.length < needed ∧ decode cut = .error (.truncated needed cut.length)) ∨
          ∃ entry offset, decode cut = .error (.badOffset entry offset)) ∧
      ∀ junk, decode (t.encode ++ junk) = .ok t) ∧
    ∀ bytes, (readWithin bytes).run = some (decode bytes) :=
  ⟨fun _ hfits ht => ⟨fun _ hcut hne => decode_of_cut hfits ht hcut hne,
  decode_encode_append hfits ht⟩,
    run_readWithin⟩

/-- Two operations of one effect, with and without the last byte, the zero byte of the last text. -/
theorem decode_within_bounds_askAndTell :
    let bytes := (askAndTell "Chat.tell").encode
    decode (bytes ++ [7, 0]) = .ok (askAndTell "Chat.tell") ∧
    ((∃ needed, bytes.dropLast.length < needed ∧
        decode bytes.dropLast = .error (.truncated needed bytes.dropLast.length)) ∨
      ∃ entry offset, decode bytes.dropLast = .error (.badOffset entry offset)) ∧
    (readWithin bytes).run = some (.ok (askAndTell "Chat.tell")) := by
  intro bytes
  obtain ⟨hcut, hjunk⟩ := decode_within_bounds.1 _ (fits_askAndTell (by decide +kernel))
    isReadable_askAndTell
  have hnonempty : bytes ≠ [] := by
    intro h
    rw [show bytes = _ from encode_eq _] at h
    exact absurd (congrArg List.length h)
      (by rw [length_append, length_fixedBytes]; simp [headerSize])
  have hshorter : bytes.dropLast ≠ bytes := by
    intro h
    have hlength := congrArg List.length h
    rw [length_dropLast] at hlength
    exact hnonempty (length_eq_zero_iff.1 (by omega))
  refine ⟨hjunk [7, 0], hcut _ ( dropLast_prefix _) hshorter, ?_⟩
  have hall := hjunk []
  rw [append_nil] at hall
  rw [decode_within_bounds.2, hall]

end Effectful.EffectTable
