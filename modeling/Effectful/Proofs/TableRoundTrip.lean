import Effectful.Effect.Table
/-!
# Reading back a written effect table

`decode_encode_iff_isReadable`: a table that fits its words is read back as it was written exactly
if each of its entries is one that reading accepts, and a table that was read from any bytes is read
back when it is written again.

The proof has two halves that meet at `TableEntry.IsReadable`:

* `decodeEntries_ok`: entries that are read carry the hash of their effect's name and texts without
  a zero byte, whatever bytes they were read from;
* `decodeEntries_encodeEntries`: such entries are read back from their bytes.  What writing keeps
  about the texts is `Texts.Holds`: the blob is the distinct texts in the order of their first use,
  and the offset of a text leads to it.
-/

namespace Effectful

open List

variable {bytes blob : List UInt8} {s : String} {offset : Nat} {e : TableEntry} {t : EffectTable}

/-! ### Words -/

/-- Numbers that fit are read back. -/
theorem ofLittleEndian_littleEndian {count n : Nat} (h : n < Nat.pow 256 count) :
    ofLittleEndian (littleEndian count n) = n := by
  induction count generalizing n with
  | zero =>
    have hn : n = 0 := Nat.lt_one_iff.1 h
    rw [hn]
    rfl
  | succ count ih =>
    have hdiv : n / 256 < Nat.pow 256 count := Nat.div_lt_of_lt_mul (by rwa [Nat.mul_comm])
    have hlow : (UInt8.ofNat n).toNat = n % 256 := UInt8.toNat_ofNat'
    show (UInt8.ofNat n).toNat + 256 * ofLittleEndian (littleEndian count (n / 256)) = n
    rw [ih hdiv, hlow]
    omega

theorem ofLittleEndian_lt (bytes : List UInt8) :
    ofLittleEndian bytes < Nat.pow 256 bytes.length := by
  induction bytes with
  | nil => decide
  | cons b bytes ih =>
    have hb := b.toNat_lt
    show b.toNat + 256 * ofLittleEndian bytes < Nat.pow 256 bytes.length * 256
    omega

theorem ofLittleEndian_take_lt (bytes : List UInt8) (count : Nat) :
    ofLittleEndian (bytes.take count) < Nat.pow 256 count :=
  Nat.lt_of_lt_of_le (ofLittleEndian_lt _) (Nat.pow_le_pow_right (by decide) (length_take_le ..))

theorem effectIdHash_lt (name : String) : effectIdHash name < UInt64.size :=
  ofLittleEndian_take_lt _ 8

/-! ### Texts as bytes -/

theorem toList_loop (bytes : ByteArray) (i : Nat) (read : List UInt8) :
    ByteArray.toList.loop bytes i read = read.reverse ++ bytes.data.toList.drop i := by
  fun_induction ByteArray.toList.loop bytes i read with
  | case1 i read h ih =>
    have hi : i < bytes.data.toList.length := h
    rw [ih, drop_eq_getElem_cons hi]
    simp [ByteArray.get!, getElem!_pos bytes.data i h]
  | case2 i read h =>
    have hi : bytes.data.toList.length ≤ i := Nat.not_lt.1 h
    rw [drop_eq_nil_of_le hi, append_nil]

/-- The bytes of a text are those of its encoding, and only these stand for it. -/
theorem utf8_eq (s : String) : utf8 s = s.toByteArray.data.toList := toList_loop s.toByteArray 0 []

theorem ofUtf8?_utf8 (s : String) : ofUtf8? (utf8 s) = some s := by
  rw [ofUtf8?, utf8_eq]
  exact dif_pos s.isValidUTF8

theorem utf8_of_ofUtf8? (h : ofUtf8? bytes = some s) : utf8 s = bytes := by
  unfold ofUtf8? String.fromUTF8? at h
  split at h
  · cases h
    rw [utf8_eq]
    rfl
  · cases h

namespace EffectTable

/-- A text as it stands in the blob. -/
def stored (s : String) : List UInt8 := utf8 s ++ [0]

/-- The blob of texts: each of them once, in the order of their first use. -/
def textBytes (texts : List String) : List UInt8 := texts.eraseDups.flatMap stored

/-- A text is stored once, where it is used first. -/
theorem textBytes_concat (texts : List String) (s : String) :
    textBytes (texts ++ [s]) = if s ∈ texts then textBytes texts else textBytes texts ++
      stored s := by
  unfold textBytes
  rw [eraseDups_append, flatMap_append]
  by_cases h : s ∈ texts
  · simp [List.removeAll, h]
  · simp [List.removeAll, h, eraseDups_cons]

/-- A text is read from where it is stored, whatever follows it. -/
theorem readText_of_stored (hs : 0 ∉ utf8 s) (h : stored s <+: blob.drop offset) (entry : Nat) :
    readText blob entry offset = .ok s := by
  obtain ⟨rest, hrest⟩ := h
  have hbytes : (blob.drop offset).takeWhile (· != 0) = utf8 s := by
    rw [← hrest, stored, append_assoc, takeWhile_append_of_pos]
    · simp
    · intro b hb
      exact bne_iff_ne.2 fun h0 => hs (h0 ▸ hb)
  have hlength : offset + (utf8 s).length < blob.length := by
    have := congrArg List.length hrest
    simp only [stored, length_append, length_drop, length_cons, length_nil] at this
    omega
  unfold readText
  simp only [hbytes, ofUtf8?_utf8]
  rw [if_neg (Nat.not_le.2 hlength)]

/-- A text that was read has no byte 0 in it. -/
theorem not_mem_utf8_of_readText {entry : Nat} (h : readText blob entry offset = .ok s) :
    0 ∉ utf8 s := by
  unfold readText at h
  simp only at h
  split at h
  · cases h
  · split at h
    case h_1 s' hs' =>
      cases h
      rw [utf8_of_ofUtf8? hs']
      intro h0
      exact absurd (all_eq_true.1 all_takeWhile 0 h0) (by decide)
    case h_2 => cases h

/-! ### Placing texts -/

/-- The texts placed so far: the blob holds them, and each has an offset that leads to it. -/
structure Texts.Holds (t : Texts) (texts : List String) : Prop where
  blob : t.blob = textBytes texts
  isSome_lookup : ∀ s, (t.offsets.lookup s).isSome ↔ s ∈ texts
  points : ∀ {s offset}, t.offsets.lookup s = some offset → stored s <+: t.blob.drop offset

theorem Texts.holds_nil : Texts.Holds {} [] where
  blob := rfl
  isSome_lookup := by simp
  points h := by cases h

/-- Texts are added at the end. -/
theorem Texts.blob_prefix_place (t : Texts) (s : String) : t.blob <+: (t.place s).2.blob := by
  unfold Texts.place
  split
  · exact prefix_refl _
  · rw [append_assoc]
    exact prefix_append ..

theorem encodeEntries_cons (t : Texts) (e : TableEntry) (es : List TableEntry) :
    encodeEntries t (e :: es) =
      let named := t.place e.effectName
      let labelled := named.2.place e.label
      let rest := encodeEntries labelled.2 es
      (entryBytes e named.1 labelled.1 ++ rest.1, rest.2) := rfl

theorem Texts.blob_prefix_encodeEntries (t : Texts) (es : List TableEntry) :
    t.blob <+: (encodeEntries t es).2.blob := by
  induction es generalizing t with
  | nil => exact prefix_refl _
  | cons e es ih =>
    have hname := t.blob_prefix_place e.effectName
    have hlabel := (t.place e.effectName).2.blob_prefix_place e.label
    exact (hname.trans hlabel).trans (ih _)

theorem stored_prefix_drop {blob' : List UInt8} (hb : blob <+: blob')
    (h : stored s <+: blob.drop offset) :
    stored s <+: blob'.drop offset := by
  obtain ⟨rest, rfl⟩ := hb
  rw [drop_append]
  exact h.trans (prefix_append ..)

namespace Texts.Holds

variable {t : Texts} {texts : List String}

/-- A text is found at the offset that it was given. -/
theorem stored_place (h : t.Holds texts) (s : String) :
    stored s <+: (t.place s).2.blob.drop (t.place s).1 := by
  unfold Texts.place
  split
  · exact h.points ‹_›
  · show stored s <+: (t.blob ++ utf8 s ++ [0]).drop t.blob.length
    rw [append_assoc, drop_left]
    exact prefix_refl _

theorem place (h : t.Holds texts) (s : String) : (t.place s).2.Holds (texts ++ [s]) := by
  have hpoints := h.stored_place s
  have hblob := t.blob_prefix_place s
  unfold Texts.place at hpoints hblob ⊢
  split
  case h_1 offset hs =>
    -- the text stands in the blob already, which stays as it is
    have hmem : s ∈ texts := (h.isSome_lookup s).1 (by rw [hs]; rfl)
    refine ⟨by rw [textBytes_concat, if_pos hmem, h.blob], fun r => ?_, h.points⟩
    rw [h.isSome_lookup, mem_append, mem_singleton]
    exact ⟨Or.inl, fun hr => hr.elim id fun hr => hr ▸ hmem⟩
  case h_2 hs =>
    simp only [hs] at hpoints hblob
    have hmem : s ∉ texts := fun hmem => by
      have := (h.isSome_lookup s).2 hmem
      rw [hs] at this
      cases this
    refine ⟨by rw [textBytes_concat, if_neg hmem, ← h.blob, stored, append_assoc], fun r => ?_,
      fun hr => ?_⟩
    · by_cases hrs : r = s
      · simp [hrs]
      · rw [lookup_cons, beq_false_of_ne hrs]
        simp [h.isSome_lookup, hrs]
    · rw [lookup_cons] at hr
      split at hr
      case h_1 heq =>
        cases hr
        rw [eq_of_beq heq]
        exact hpoints
      case h_2 => exact stored_prefix_drop hblob (h.points hr)

/-- After the entries all of their texts are held. -/
theorem encodeEntries (h : t.Holds texts) (es : List TableEntry) :
    (encodeEntries t es).2.Holds (texts ++ es.flatMap fun e => [e.effectName, e.label]) := by
  induction es generalizing t texts with
  | nil => rw [flatMap_nil, append_nil]; exact h
  | cons e es ih =>
    have := ih ((h.place e.effectName).place e.label)
    rw [append_assoc, append_assoc] at this
    exact this

end Texts.Holds

end EffectTable

/-! ### Entries that can be read -/

/-- An entry that reading accepts: its effect is identified by the hash of its name and its texts
end where they should. -/
structure TableEntry.IsReadable (e : TableEntry) : Prop where
  effectId : e.effectId = effectIdHash e.effectName
  effectName : 0 ∉ utf8 e.effectName
  label : 0 ∉ utf8 e.label

/-- The numbers of an entry fit their words. -/
structure TableEntry.Fits (e : TableEntry) : Prop where
  effectId : e.effectId < UInt64.size
  opId : e.opId < UInt32.size
  signatureHash : e.signatureHash < UInt32.size

namespace EffectTable

/-- Whatever is decoded can be encoded. -/
theorem decodeEntry_ok {index : Nat} (h : decodeEntry blob index bytes = .ok e) :
    e.IsReadable ∧ e.Fits := by
  unfold decodeEntry at h
  simp only [bind, Except.bind] at h
  split at h
  · cases h
  · split at h
    · cases h
    rename_i effectName hname
    split at h
    · cases h
    rename_i label hlabel
    split at h
    case isTrue hid =>
      cases h
      exact ⟨⟨hid, not_mem_utf8_of_readText hname, not_mem_utf8_of_readText hlabel⟩,
        ofLittleEndian_take_lt _ 8, ofLittleEndian_take_lt _ 4, ofLittleEndian_take_lt _ 4⟩
    case isFalse => cases h

theorem decodeEntries_ok {index count : Nat} {es : List TableEntry}
    (h : decodeEntries blob index count bytes = .ok es) :
    es.length = count ∧ ∀ e ∈ es, e.IsReadable ∧ e.Fits := by
  induction count generalizing index bytes es with
  | zero =>
    cases h
    exact ⟨rfl, by simp⟩
  | succ count ih =>
    unfold decodeEntries at h
    simp only [bind, Except.bind] at h
    split at h
    · cases h
    rename_i e he
    split at h
    · cases h
    rename_i rest hrest
    cases h
    obtain ⟨hlength, hes⟩ := ih hrest
    refine ⟨congrArg (· + 1) hlength, ?_⟩
    rw [forall_mem_cons]
    exact ⟨decodeEntry_ok he, hes⟩

theorem decode_ok (h : decode bytes = .ok t) :
    t.entries.length < UInt32.size ∧ ∀ e ∈ t.entries, e.IsReadable ∧ e.Fits := by
  unfold decode at h
  simp only [bind, Except.bind] at h
  split at h
  · cases h
  split at h
  · cases h
  split at h
  · cases h
  split at h
  · cases h
  rename_i es hes
  cases h
  obtain ⟨hlength, hes⟩ := decodeEntries_ok hes
  exact ⟨hlength ▸ ofLittleEndian_take_lt _ 4, hes⟩

/-! ### Reading what was written -/

theorem length_entryBytes (e : TableEntry) (nameOffset labelOffset : Nat) :
    (entryBytes e nameOffset labelOffset).length = entrySize := by
  simp [entryBytes, entrySize]

/-- Where the fields of an entry stand. -/
theorem slices_entryBytes (e : TableEntry) (nameOffset labelOffset : Nat) :
    ((entryBytes e nameOffset labelOffset).drop 0).take 8 = littleEndian 8 e.effectId ∧
    ((entryBytes e nameOffset labelOffset).drop 8).take 4 = littleEndian 4 nameOffset ∧
    ((entryBytes e nameOffset labelOffset).drop 12).take 4 = littleEndian 4 e.opId ∧
    ((entryBytes e nameOffset labelOffset).drop 16).take 4 = littleEndian 4 e.kind.code ∧
    ((entryBytes e nameOffset labelOffset).drop 20).take 4 = littleEndian 4 e.signatureHash ∧
    ((entryBytes e nameOffset labelOffset).drop 24).take 4 = littleEndian 4 labelOffset := by
  simp [entryBytes, drop_append, drop_eq_nil_of_le, take_of_length_le]

/-- An entry is read from its bytes up to its texts, whatever the blob holds. -/
theorem decodeEntry_entryBytes_eq {nameOffset labelOffset : Nat} (hfits : e.Fits)
    (hn : nameOffset < UInt32.size) (hl : labelOffset < UInt32.size) (blob : List UInt8)
    (index : Nat) :
    decodeEntry blob index (entryBytes e nameOffset labelOffset) = (do
      let effectName ← readText blob index nameOffset
      let label ← readText blob index labelOffset
      if e.effectId = effectIdHash effectName then return { e with effectName, label }
      else .error (.effectIdMismatch index)) := by
  have word {n : Nat} (h : n < UInt32.size) : ofLittleEndian (littleEndian 4 n) = n :=
    ofLittleEndian_littleEndian h
  have hid : ofLittleEndian (littleEndian 8 e.effectId) = e.effectId :=
    ofLittleEndian_littleEndian hfits.effectId
  have hkind : ofLittleEndian (littleEndian 4 e.kind.code) = e.kind.code :=
    word (by cases e.kind <;> decide)
  obtain ⟨h0, h8, h12, h16, h20, h24⟩ := slices_entryBytes e nameOffset labelOffset
  unfold decodeEntry
  simp only [h0, h8, h12, h16, h20, h24, hid, word hn, word hfits.opId, hkind,
    word hfits.signatureHash, word hl, ResumeKind.ofCode?_code]

/-- An entry is read back if its texts stand at their offsets. -/
theorem decodeEntry_entryBytes {nameOffset labelOffset : Nat} (he : e.IsReadable) (hfits : e.Fits)
    (hname : stored e.effectName <+: blob.drop nameOffset)
    (hlabel : stored e.label <+: blob.drop labelOffset) (hn : nameOffset < UInt32.size)
    (hl : labelOffset < UInt32.size) (index : Nat) :
    decodeEntry blob index (entryBytes e nameOffset labelOffset) = .ok e := by
  rw [decodeEntry_entryBytes_eq hfits hn hl, readText_of_stored he.effectName hname,
    readText_of_stored he.label hlabel]
  exact if_pos he.effectId

theorem length_encodeEntries (t : Texts) (es : List TableEntry) :
    (encodeEntries t es).1.length = es.length * entrySize := by
  induction es generalizing t with
  | nil => rfl
  | cons e es ih =>
    simp only [encodeEntries_cons, length_append, length_entryBytes, ih, length_cons, Nat.succ_mul]
    exact Nat.add_comm ..

/-- Stored texts end inside the blob, so the offset does too. -/
theorem offset_lt_of_stored (h : stored s <+: blob.drop offset) : offset < blob.length := by
  have := h.length_le
  simp only [stored, length_append, length_drop, length_cons, length_nil] at this
  omega

/-- Entries are read back, also from a blob that goes on behind their texts. -/
theorem decodeEntries_encodeEntries {t : Texts} {texts : List String} {es : List TableEntry}
    (h : t.Holds texts) (hes : ∀ e ∈ es, e.IsReadable ∧ e.Fits)
    (hblob : (encodeEntries t es).2.blob <+: blob)
    (hsize : (encodeEntries t es).2.blob.length ≤ UInt32.size) (index : Nat) (rest : List UInt8) :
    decodeEntries blob index es.length ((encodeEntries t es).1 ++ rest) = .ok es := by
  induction es generalizing t texts index with
  | nil => rfl
  | cons e es ih =>
    obtain ⟨⟨he, hfits⟩, hes⟩ := forall_mem_cons.1 hes
    -- the texts of this entry stay where they are while those of the later ones are placed
    have hplaced := h.place e.effectName
    have hlater := ((t.place e.effectName).2.place e.label).2.blob_prefix_encodeEntries es
    have hname := stored_prefix_drop ((Texts.blob_prefix_place _ e.label).trans hlater)
      (h.stored_place e.effectName)
    have hlabel := stored_prefix_drop hlater (hplaced.stored_place e.label)
    have hentry := decodeEntry_entryBytes he hfits (stored_prefix_drop hblob hname)
      (stored_prefix_drop hblob hlabel) (Nat.lt_of_lt_of_le (offset_lt_of_stored hname) hsize)
      (Nat.lt_of_lt_of_le (offset_lt_of_stored hlabel) hsize) index
    have hrest := ih (hplaced.place e.label) hes hblob hsize (index + 1)
    simp only [encodeEntries_cons, length_cons, decodeEntries, append_assoc,
      take_left' (length_entryBytes ..), drop_left' (length_entryBytes ..), hentry, hrest]
    rfl

def texts (t : EffectTable) : List String := t.entries.flatMap fun e => [e.effectName, e.label]

/-- A table fits its words: the numbers in its entries, their count and the offsets of their
texts. -/
structure Fits (t : EffectTable) : Prop where
  entries : ∀ e ∈ t.entries, e.Fits
  count : t.entries.length < UInt32.size
  blob : (textBytes t.texts).length < UInt32.size

/-- What stands before the texts of a table: version and count, then the entries. -/
def fixedBytes (t : EffectTable) : List UInt8 :=
  littleEndian 4 version ++ (littleEndian 4 t.entries.length ++ (encodeEntries {} t.entries).1)

/-- The blob holds the texts of the table, in order of use. -/
theorem blob_encodeEntries (t : EffectTable) :
    (encodeEntries {} t.entries).2.blob = textBytes t.texts :=
  (Texts.holds_nil.encodeEntries t.entries).blob

theorem encode_eq (t : EffectTable) : t.encode = t.fixedBytes ++ textBytes t.texts := by
  rw [← t.blob_encodeEntries, fixedBytes, ← append_assoc (littleEndian 4 _)]
  rfl

theorem length_fixedBytes (t : EffectTable) :
    t.fixedBytes.length = headerSize + t.entries.length * entrySize := by
  simp only [fixedBytes, length_append, length_littleEndian, length_encodeEntries, headerSize]
  omega

/-- Version and count are read from the first bytes, whatever follows. -/
theorem header_fixedBytes (t : EffectTable) (rest : List UInt8) :
    (t.fixedBytes ++ rest).take 4 = littleEndian 4 version ∧
    ((t.fixedBytes ++ rest).drop 4).take 4 = littleEndian 4 t.entries.length := by
  constructor
  · rw [fixedBytes, append_assoc, take_left' (length_littleEndian ..)]
  · rw [fixedBytes, append_assoc, drop_left' (length_littleEndian ..), append_assoc,
      take_left' (length_littleEndian ..)]

/-- Behind the fixed part of a table, reading takes all bytes for texts. -/
theorem decode_fixedBytes_append (hcount : t.entries.length < UInt32.size) (blob : List UInt8) :
    decode (t.fixedBytes ++ blob) =
      mk <$> decodeEntries blob 0 t.entries.length ((encodeEntries {} t.entries).1 ++ blob) := by
  obtain ⟨hversion, hentries⟩ := t.header_fixedBytes blob
  have hlength : headerSize + t.entries.length * entrySize ≤ (t.fixedBytes ++ blob).length := by
    rw [length_append, length_fixedBytes]
    exact Nat.le_add_right ..
  have hblob : (t.fixedBytes ++ blob).drop (headerSize + t.entries.length * entrySize) = blob :=
    drop_left' t.length_fixedBytes
  have hfixed : (t.fixedBytes ++ blob).drop headerSize =
      (encodeEntries {} t.entries).1 ++ blob := by
    rw [fixedBytes, ← append_assoc (littleEndian 4 _), append_assoc _ _ blob,
      drop_left' (by simp [headerSize])]
  unfold decode
  simp only [hversion, hentries, ofLittleEndian_littleEndian
    (show version < Nat.pow 256 4 by decide), ofLittleEndian_littleEndian
    (show t.entries.length < Nat.pow 256 4 from hcount), hblob, hfixed, if_neg
    (Nat.not_lt.2 hlength), if_neg (Nat.not_lt.2 (Nat.le_trans (Nat.le_add_right ..) hlength))]
  rfl

/-- A table is read back, whatever follows it. -/
theorem decode_encode_append (hfits : t.Fits) (ht : ∀ e ∈ t.entries, e.IsReadable)
    (rest : List UInt8) :
    decode (t.encode ++ rest) = .ok t := by
  have hread : decodeEntries (textBytes t.texts ++ rest) 0 t.entries.length
      ((encodeEntries {} t.entries).1 ++ (textBytes t.texts ++ rest)) = .ok t.entries := by
    apply decodeEntries_encodeEntries Texts.holds_nil fun e he => ⟨ht e he, hfits.entries e he⟩
    · rw [t.blob_encodeEntries]
      exact prefix_append ..
    · rw [t.blob_encodeEntries]
      exact Nat.le_of_lt hfits.blob
  rw [t.encode_eq, append_assoc, decode_fixedBytes_append hfits.count, hread]
  rfl

/-- Reading a table back gives it exactly if reading accepts its entries; and what was read, from
whatever bytes, is read back. -/
theorem decode_encode_iff_isReadable :
    (∀ t : EffectTable, t.Fits → (decode t.encode = .ok t ↔ ∀ e ∈ t.entries, e.IsReadable)) ∧
    ∀ (bytes : List UInt8) (t : EffectTable), decode bytes = .ok t → (textBytes t.texts).length <
      UInt32.size → decode t.encode = .ok t := by
  have hback {t : EffectTable} (hfits : t.Fits) (ht : ∀ e ∈ t.entries, e.IsReadable) :
      decode t.encode = .ok t := by
    have := decode_encode_append hfits ht []
    rwa [append_nil] at this
  refine ⟨fun t hfits => ⟨fun h e he => ((decode_ok h).2 e he).1, hback hfits⟩,
    fun bytes t h hblob => ?_⟩
  obtain ⟨hcount, hes⟩ := decode_ok h
  exact hback ⟨fun e he => (hes e he).2, hcount, hblob⟩ fun e he => (hes e he).1

/-- Two operations of one effect, whose name is stored once. -/
def askAndTell (label : String) : EffectTable :=
  ⟨[{ effectId := effectIdHash "Chat", effectName := "Chat", opId := 0, kind :=
    .tail, signatureHash := 7,
      label := "Chat.ask" },
    { effectId := effectIdHash "Chat", effectName := "Chat", opId := 1, kind := .resume,
      signatureHash := 8, label }]⟩

theorem fits_askAndTell {label : String}
    (h : (textBytes (askAndTell label).texts).length < UInt32.size) :
    (askAndTell label).Fits := by
  refine ⟨?_, show 2 < UInt32.size by decide, h⟩
  unfold askAndTell
  rw [forall_mem_cons, forall_mem_singleton]
  exact ⟨⟨effectIdHash_lt _, show 0 < UInt32.size by decide, show 7 < UInt32.size by decide⟩,
    ⟨effectIdHash_lt _, show 1 < UInt32.size by decide, show 8 < UInt32.size by decide⟩⟩

theorem isReadable_askAndTell : ∀ e ∈ (askAndTell "Chat.tell").entries, e.IsReadable := by
  have hname : 0 ∉ utf8 "Chat" := by decide +kernel
  unfold askAndTell
  rw [forall_mem_cons, forall_mem_singleton]
  exact ⟨⟨by dsimp only, hname, by decide +kernel⟩, ⟨by dsimp only, hname, by decide +kernel⟩⟩

theorem decode_encode_askAndTell :
    (askAndTell "Chat.tell").Fits ∧ decode (askAndTell "Chat.tell").encode =
      .ok (askAndTell "Chat.tell") ∧
    decode ((askAndTell "Chat.tell").encode ++ [1]) = .ok (askAndTell "Chat.tell") ∧
    (askAndTell "Chat\x00tell").Fits ∧ decode (askAndTell "Chat\x00tell").encode ≠
    .ok (askAndTell "Chat\x00tell") := by
  have htell : (textBytes (askAndTell "Chat.tell").texts).length < UInt32.size := by decide +kernel
  have hfits : (askAndTell "Chat\x00tell").Fits := fits_askAndTell (by decide +kernel)
  have hbehind := decode_encode_append (fits_askAndTell htell) isReadable_askAndTell [1]
  refine ⟨fits_askAndTell htell, decode_encode_iff_isReadable.2 _ _ hbehind htell, hbehind, hfits,
    fun h => ?_⟩
  have hlabel := ((decode_encode_iff_isReadable.1 _ hfits).1 h _
    (mem_cons_of_mem _ mem_cons_self)).label
  exact hlabel (by decide +kernel)

end EffectTable

end Effectful
