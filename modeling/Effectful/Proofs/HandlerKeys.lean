import Effectful.Proofs.Ordinals
/-!
# Keys of different operations

Seven keys fit an operation, and all of them but the handle are texts.  These are parts with colons
between them, in which hashes, numbers and names stand side by side.  If no name has a colon or
looks like a hash, texts are equal only if their parts are, and then two operations of a program
have no key in common, except for their labels (`candidates_of_ordinals_apart`).
-/

namespace Effectful

open List

/-! ### Texts -/

namespace Hex

theorem digit_injOn : ∀ a < 16, ∀ b < 16, digit a = digit b → a = b := by decide

theorem isSome_digitValue?_digit : ∀ a < 16, (digitValue? (digit a)).isSome := by decide

/-- Numbers that fit are known by their digits. -/
theorem digits_injOn {width a b : Nat} (ha : a < Nat.pow 16 width) (hb : b < Nat.pow 16 width)
    (h : digits width a = digits width b) : a = b := by
  induction width generalizing a b with
  | zero =>
    obtain rfl := Nat.lt_one_iff.mp ha
    exact (Nat.lt_one_iff.mp hb).symm
  | succ width ih =>
    obtain ⟨hinit, hlast⟩ := append_inj' h rfl
    have hlow := digit_injOn _ (Nat.mod_lt a (by decide)) _ (Nat.mod_lt b (by decide))
      (singleton_inj.mp hlast)
    have hhigh := ih (Nat.div_lt_of_lt_mul (Nat.mul_comm .. ▸ ha))
      (Nat.div_lt_of_lt_mul (Nat.mul_comm .. ▸ hb)) hinit
    omega

theorem length_digits (width n : Nat) : (digits width n).length = width := by
  induction width generalizing n with
  | zero => rfl
  | succ width ih => rw [digits, length_append, ih, length_singleton]

theorem isSome_of_mem_digits {width n : Nat} {c : Char} (h : c ∈ digits width n) :
    (digitValue? c).isSome := by
  induction width generalizing n with
  | zero => cases h
  | succ width ih =>
    obtain h | h := mem_append.mp h
    · exact ih h
    · rw [mem_singleton.mp h]
      exact isSome_digitValue?_digit _ (Nat.mod_lt n (by decide))

end Hex

/-- A text without a colon. -/
def IsPart (text : String) : Prop := ':' ∉ text.toList

instance (text : String) : Decidable (IsPart text) :=
  inferInstanceAs (Decidable (':' ∉ text.toList))

/-- Parts of a key have no separator in them. -/
theorem isPart_word (width n : Nat) : IsPart (Hex.word width n) := by
  intro h
  rw [Hex.word, String.toList_ofList] at h
  exact absurd (Hex.isSome_of_mem_digits h) (by decide)

theorem isPart_repr (n : Nat) : IsPart n.repr := by
  intro h
  rw [Nat.toList_repr] at h
  exact absurd (Nat.isDigit_of_mem_toDigits (by decide) (by decide) h) (by decide)

theorem toString_inj {a b : Nat} (h : toString a = toString b) : a = b := by
  have hdigits := congrArg (fun s => Nat.ofDigitChars 10 s.toList 0) h
  simpa using hdigits

/-- Texts with colons between their parts are equal if their parts are. -/
theorem parts_eq {ps qs : List String} (hps : ps ≠ []) (hqs : qs ≠ []) (hp : ∀ p ∈ ps, IsPart p)
    (hq : ∀ q ∈ qs, IsPart q) (h : ":".intercalate ps = ":".intercalate qs) : ps = qs := by
  have hsplit {ps : List String} (hps : ps ≠ []) (hp : ∀ p ∈ ps, IsPart p) :
      (":".intercalate ps).toList.splitOn ':' = ps.map String.toList := by
    rw [String.toList_intercalate]
    exact splitOn_intercalate ':' (by simpa [IsPart] using hp) (by simpa using hps)
  have hlists := hsplit hps hp
  rw [h, hsplit hqs hq] at hlists
  exact (List.map_inj_right fun _ _ => String.toList_inj.mp).mp hlists.symm

/-! ### Keys -/

/-- An entry with names that are parts of a key and no hashes. -/
structure TableEntry.IsPlain (e : TableEntry) : Prop where
  effectName : IsPart e.effectName
  label : IsPart e.label
  effectId : e.effectId = effectIdHash e.effectName
  notHash : ¬ (e.effectName.length = 16 ∧ ∀ c ∈ e.effectName.toList, (Hex.digitValue? c).isSome)

namespace HandlerKey

variable {e e' : TableEntry} {n n' : Nat} {key : HandlerKey}

def Calls (e : TableEntry) (effect : String) : Prop := effect = Hex.word 16 e.effectId ∨
    effect = e.effectName

theorem Calls.isPart {effect : String} (h : Calls e effect) (he : e.IsPlain) : IsPart effect := by
  obtain rfl | rfl := h
  · exact isPart_word 16 e.effectId
  · exact he.effectName

/-- No plain name looks like an effect id. -/
theorem word_ne_effectName (he : e.IsPlain) (id : Nat) : Hex.word 16 id ≠ e.effectName := by
  intro h
  refine he.notHash ⟨?_, fun c hc => ?_⟩
  · rw [← h, Hex.word, String.length_ofList, Hex.length_digits]
  · rw [← h, Hex.word, String.toList_ofList] at hc
    exact Hex.isSome_of_mem_digits hc

/-- A name leads to one effect. -/
theorem Calls.effectId_eq {effect : String} (h : Calls e effect) (h' : Calls e' effect)
    (he : e.IsPlain) (he' : e'.IsPlain) : e.effectId = e'.effectId := by
  have hlt {e : TableEntry} (he : e.IsPlain) : e.effectId < Nat.pow 16 16 :=
    he.effectId ▸ effectIdHash_lt e.effectName
  obtain rfl | rfl := h <;> obtain h' | h' := h'
  · exact Hex.digits_injOn (hlt he) (hlt he') (String.ofList_injective h')
  · exact absurd h' (word_ne_effectName he' _)
  · exact absurd h'.symm (word_ne_effectName he _)
  · rw [he.effectId, he'.effectId, h']

/-- All keys but the label are the handle or texts that begin with the effect and the operation. -/
theorem of_mem_specific (h : key ∈ (candidates e n).take 6) :
    key = .handle n ∨ ∃ effect rest, Calls e effect ∧ (∀ part ∈ rest, IsPart part) ∧
      key = .name (":".intercalate (effect :: toString e.opId :: rest)) := by
  simp only [candidates, take_succ_cons, take_zero, mem_cons, not_mem_nil, or_false] at h
  obtain rfl | rfl | rfl | rfl | rfl | rfl := h
  · exact .inl rfl
  · exact .inr ⟨_, [_, _], .inl rfl, by simp [isPart_word, isPart_repr], rfl⟩
  · exact .inr ⟨_, [_], .inl rfl, by simp [isPart_repr], rfl⟩
  · exact .inr ⟨_, [], .inl rfl, by simp, rfl⟩
  · exact .inr ⟨_, [_], .inr rfl, by simp [isPart_repr], rfl⟩
  · exact .inr ⟨_, [], .inr rfl, by simp, rfl⟩

theorem mem_candidates_iff : key ∈ candidates e n ↔ key ∈ (candidates e n).take 6 ∨
    key = .name e.label := by
  simp [candidates, or_assoc]

/-- **The specific keys of one operation do not fit another one.** -/
theorem not_mem_candidates (he : e.IsPlain) (he' : e'.IsPlain)
    (hids : e.effectId = e'.effectId → e.opId ≠ e'.opId) (hne : n ≠ n')
    (hkey : key ∈ (candidates e n).take 6) : key ∉ candidates e' n' := by
  intro hkey'
  obtain rfl | ⟨effect, rest, hcalls, hrest, rfl⟩ := of_mem_specific hkey
  · obtain hkey' | hkey' := mem_candidates_iff.mp hkey'
    · obtain h | ⟨_, _, -, -, h⟩ := of_mem_specific hkey'
      · exact hne (handle.inj h)
      · cases h
    · cases hkey'
  · have hparts : ∀ part ∈ effect :: toString e.opId :: rest, IsPart part := by
      simpa using ⟨hcalls.isPart he, isPart_repr e.opId, hrest⟩
    obtain hkey' | hkey' := mem_candidates_iff.mp hkey'
    · obtain h | ⟨effect', rest', hcalls', hrest', h⟩ := of_mem_specific hkey'
      · cases h
      · have heq := parts_eq (by simp) (by simp) hparts
          (by simpa using ⟨hcalls'.isPart he', isPart_repr e'.opId, hrest'⟩) (name.inj h)
        simp only [List.cons.injEq] at heq
        obtain ⟨rfl, hop, -⟩ := heq
        exact hids (hcalls.effectId_eq hcalls' he he') (toString_inj hop)
    · -- a label is one part alone
      have hlabel : ":".intercalate _ = ":".intercalate [e'.label] := name.inj hkey'
      exact absurd (parts_eq (by simp) (by simp) hparts (by simpa using he'.label) hlabel) (by simp)

end HandlerKey

/-! ### Programs -/

namespace Program

/-- Names are parts of a key, and those of effects are no hashes. -/
structure PlainNames (p : Program) : Prop where
  effects : ∀ e ∈ p.effects, IsPart e.name
  ops : ∀ e ∈ p.effects, ∀ op ∈ e.ops, IsPart op.name
  notHashes : ∀ e ∈ p.effects, ¬ (e.name.length = 16 ∧
    ∀ c ∈ e.name.toList, (Hex.digitValue? c).isSome)

variable {p : Program} {a : EffectAnalysis}

theorem PlainNames.isPlain (h : p.PlainNames) {o : OpOrdinal} (ho : o ∈ (p.metadata a).ordinals) :
    o.tableEntry.IsPlain := by
  have hordinal := ordinal?_of_mem ho
  obtain ⟨-, -, hdecl, e, he, hname, hid⟩ := ordinal?_eq_some hordinal
  have hmem := (of_effect? he).1
  have heffect : IsPart e.name := h.effects e hmem
  have hop : IsPart o.decl.name := by
    rw [op?, he] at hdecl
    exact h.ops e hmem o.decl (mem_of_getElem? hdecl)
  have hlabel : o.label = e.name ++ "." ++ o.decl.name := by
    rw [ordinal?, he, hdecl] at hordinal
    have hopLabel : p.opLabel o.op = o.label := congrArg (·.label) (Option.some.inj hordinal)
    rw [← hopLabel, opLabel, he, hdecl]
  have hentry : o.tableEntry.effectName = e.name := hname
  refine ⟨hentry ▸ heffect, ?_, hid.trans (hname ▸ rfl), hentry ▸ h.notHashes e hmem⟩
  show IsPart o.label
  simpa [IsPart, hlabel] using ⟨heffect, hop⟩

open HandlerKey Host

theorem DistinctHashes.not_mem_candidates (hp : p.DistinctHashes) (hnames : p.PlainNames)
    {i j : Nat} {e e' : TableEntry} (he : (p.metadata a).table.get? i = some e)
    (he' : (p.metadata a).table.get? j = some e') (hne : i ≠ j) {key : HandlerKey}
    (hkey : key ∈ (candidates e (i + 1)).take 6) : key ∉ candidates e' (j + 1) := by
  rw [get?_table] at he he'
  obtain ⟨o, ho, rfl⟩ := Option.map_eq_some_iff.mp he
  obtain ⟨o', ho', rfl⟩ := Option.map_eq_some_iff.mp he'
  have hplace {k : Nat} {o : OpOrdinal} (h : (p.metadata a).ordinals[k]? = some o) :
      o.ordinal = k :=
    (ordinal?_eq_some (getElem?_ordinals_eq_some_iff.mp h).2).1
  have hmem := mem_of_getElem? ho
  have hmem' := mem_of_getElem? ho'
  refine HandlerKey.not_mem_candidates (hnames.isPlain hmem) (hnames.isPlain hmem')
    (fun heffect hop => hne ?_) (by omega) hkey
  obtain rfl := hp.eq_of_ids hmem hmem' heffect hop
  rw [← hplace ho, ← hplace ho']

/-- **Keys of different operations.** If names are plain and hashes differ, a key that fits two
operations of a program is their label.  A handler under another key of an operation is never found
for a request for another one, and no run calls it for such a request. -/
theorem candidates_of_ordinals_apart (hp : p.DistinctHashes) (hnames : p.PlainNames) {i : Nat}
    {e : TableEntry} (he : (p.metadata a).table.get? i = some e) :
    (∀ j e', (p.metadata a).table.get? j = some e' → i ≠ j → ∀ key,
      key ∈ candidates e (i + 1) ∧ key ∈ candidates e' (j + 1) ↔ key = .name e.label ∧
      e.label = e'.label) ∧
    ∀ key ∈ (candidates e (i + 1)).take 6,
      (∀ j e' registered, (p.metadata a).table.get? j = some e' →
        resolve? registered (candidates e' (j + 1)) = some key → i = j) ∧
      ∀ (σ : Type) (r : Runner) (registry : Registry σ) function args (s : HostState σ),
        r.table = (p.metadata a).table →
        ∀ note ∈ (r.run registry.noted function args (s.withNotes [])).2.host.2,
          note.key = key → note.call.opIndex = i := by
  refine ⟨fun j e' he' hne key => ⟨?_, ?_⟩, fun key hkey => ⟨?_, ?_⟩⟩
  · rintro ⟨hkey, hkey'⟩
    obtain hfirst | rfl := mem_candidates_iff.mp hkey
    · exact absurd hkey' (hp.not_mem_candidates hnames he he' hne hfirst)
    · obtain hfirst' | hlabel := mem_candidates_iff.mp hkey'
      · exact absurd hkey (hp.not_mem_candidates hnames he' he hne.symm hfirst')
      · exact ⟨rfl, name.inj hlabel⟩
  · rintro ⟨rfl, hlabel⟩
    exact ⟨mem_candidates_iff.mpr (.inr rfl), mem_candidates_iff.mpr (.inr (hlabel ▸ rfl))⟩
  · intro j e' registered he' hfound
    by_contra hne
    exact hp.not_mem_candidates hnames he he' hne hkey (mem_of_find?_eq_some hfound)
  · intro σ r registry function args s htable note hnote hnoteKey
    obtain ⟨notes, hrun, hkeeps⟩ := r.notes_run registry function args s []
    rw [hrun] at hnote
    obtain ⟨e', he', -, before, behind, hkeys, -⟩ := (hkeeps.agrees note hnote).entry
    by_contra hne
    refine hp.not_mem_candidates hnames he (htable ▸ he') (Ne.symm hne) hkey ?_
    rw [hkeys, ← hnoteKey]
    simp

/-- An effect with two operations of one name. -/
def sayTwice : Program where
  effects := [{ id := ⟨0⟩, name := "A", ops := [⟨"say", 0, [], .i32, .tail⟩,
    ⟨"say", 0, [], .i64, .tail⟩] }]
  functions := [
    { id := ⟨1⟩, name := "main", params := [], ret := .i64, locals := []
      body := .node ⟨2⟩ (.block [.expr (.i32 1 (.perform ⟨⟨0⟩, 0⟩ [] []))]
        (some (.node ⟨3⟩ (.perform ⟨⟨0⟩, 1⟩ [] []) .i64 {}))) .i64 {} }]

/-- Operations of one name have a key in common, and no other one. -/
theorem candidates_of_ordinals_apart_sayTwice : sayTwice.DistinctHashes ∧ sayTwice.PlainNames ∧
    ∃ e e', (sayTwice.metadata {}).table.get? 0 = some e ∧ (sayTwice.metadata {}).table.get?
      1 = some e' ∧
      ∀ key, key ∈ candidates e 1 ∧ key ∈ candidates e' 2 ↔ key = .name "A.say" := by
  have hhashes : sayTwice.DistinctHashes := ⟨by decide, by simp [sayTwice]⟩
  have hnames : sayTwice.PlainNames := ⟨by decide, by decide, by decide⟩
  have hops : sayTwice.orderedOps = [⟨⟨0⟩, 0⟩, ⟨⟨0⟩, 1⟩] := by
    have hdeclared : (sayTwice.mentionedOps.filter fun op => (sayTwice.op? op).isSome) =
        [⟨⟨0⟩, 0⟩, ⟨⟨0⟩, 1⟩] := by decide
    have hbefore : sayTwice.opBefore ⟨⟨0⟩, 0⟩ ⟨⟨0⟩, 1⟩ = true := by decide
    rw [orderedOps, hdeclared]
    simp [List.mergeSort, hbefore]
  obtain ⟨e, he, hlabel⟩ : ∃ e, (sayTwice.metadata {}).table.get? 0 = some e ∧
      e.label = "A.say" := by
    rw [get?_table, getElem?_ordinals, hops]
    exact ⟨_, rfl, rfl⟩
  obtain ⟨e', he', hlabel'⟩ : ∃ e, (sayTwice.metadata {}).table.get? 1 = some e ∧
      e.label = "A.say" := by
    rw [get?_table, getElem?_ordinals, hops]
    exact ⟨_, rfl, rfl⟩
  refine ⟨hhashes, hnames, e, e', he, he', fun key => ?_⟩
  rw [(candidates_of_ordinals_apart hhashes hnames he).1 1 e' he' (by decide) key, hlabel, hlabel']
  exact and_iff_left rfl

end Program

end Effectful
