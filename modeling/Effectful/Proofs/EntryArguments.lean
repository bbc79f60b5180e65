import Effectful.Execution
import Effectful.Proofs.EmittedModule
import Effectful.Proofs.Ordinals
/-!
# What the host passes to a compiled function

The entry of a function reads its arguments from the message in the buffer, and `resume_effectful`
reads the answer to a request there.  Both take what they find as it is (`params_as_written`), also
Booleans, which the machine holds as integers.  Code for Booleans counts on zero and one, so the
host has to write these: what else it writes is neither refused nor made a Boolean, although
interpretation does that (`run_flag_two`).
-/

namespace Effectful

open List

open Target Wire Host

variable {w : WireValue} {a : Int32}

/-- A scalar as compiled code holds it. -/
def WireValue.toVal : WireValue → Val
  | .none => .i32 0
  | .i32 n => .i32 n
  | .i64 n => .i64 n
  | .f32 x => .f32 x
  | .f64 x => .f64 x

/-! ### A call in memory -/

/-- The call with some arguments stands at an address. -/
structure CallAt (memory : Memory) (address : Nat) (args : List WireValue) : Prop where
  inMemory : address + argOffset args.length ≤ memory.size
  /-- The address of each argument is a word. -/
  inWords : address + argOffset args.length ≤ UInt32.size
  slots : memory.bytes (address + argOffset 0) (args.length * slotSize) = slots args

/-- A call stands where the host has written it. -/
theorem callAt_of_putArgs {r : Region} {m m' : Memory} {args : List WireValue} {size : Nat}
    (hin : r.isIn m = true) (hwords : r.address + r.length ≤ UInt32.size)
    (hput : r.putArgs args m = (.ok size, m')) :
    CallAt m' r.address args := by
  have hroom : MessageKind.call.HasRoom r args := by
    refine Classical.byContradiction fun hroom => ?_
    obtain ⟨why, hrefused⟩ := MessageKind.isLawful_call.refused r m args hroom
    rw [show r.putArgs args m = _ from hrefused] at hput
    cases hput
  have hle : argOffset args.length ≤ r.length := by
    rw [argOffset, Nat.mul_comm]
    exact hroom.2
  let header : List (Nat × Nat) := [(4, args.length), (4, 0)]
  have hencode : MessageKind.call.encode r.length args = .ok (wordBytes header ++ slots args) :=
    (encodeArgs_eq _ _).trans (encodeMessage_of_le _ hroom.1 hle)
  have hlength : (wordBytes header ++ slots args).length = argOffset args.length := by
    rw [length_append, length_slots]
    rfl
  obtain ⟨_, hplace, ⟨behind, hbytes⟩, hsame⟩ := Region.place_ok hin (hlength ▸ hle)
  rw [show r.putArgs args = _ from MessageKind.isLawful_call.encoded r args, hencode,
    hplace] at hput
  obtain rfl := (Prod.ext_iff.1 hput).2
  have hend : r.address + r.length ≤ m.size := of_decide_eq_true hin
  refine ⟨by rw [hsame.size]; omega, by omega, ?_⟩
  -- the bytes of the region are the header, the slots and what stands behind them
  obtain ⟨rest, hrest⟩ := Nat.exists_eq_add_of_le hle
  rw [Region.bytes, hrest, show argOffset args.length + rest = argOffset 0 +
    (args.length * slotSize + rest) by
    rw [argOffset, argOffset]; omega, Memory.bytes_add, Memory.bytes_add, append_assoc] at hbytes
  obtain ⟨-, hbytes⟩ := append_inj hbytes (by simp [Memory.bytes]; rfl)
  exact (append_inj hbytes (by simp [Memory.bytes])).1

/-! ### Reading arguments -/

section Operands

variable {mc : Machine} {callee : Callee} {act act' : Activation} {i : Instr} {v r : Val}

theorem Target.Instr.Gives.convert {op : Conversion} (h : i.Gives mc callee act v act')
    (hop : op.apply act'.store.heap v = .ok r) :
    (Instr.convert op i).Gives mc callee act r act' := by
  rw [Instr.Gives, Instr.eval, h.bind]
  exact map_of_ok (EvalM.withHeap_of_ok hop)

theorem toInt32_of_word (n : UInt32) : n.toUInt64.toInt64.toInt32 = n.toInt32 := by
  apply Int32.toBitVec_inj.1
  simp [BitVec.signExtend_eq_setWidth_of_le]

/-- The bits of a scalar are turned into the scalar, and nothing is checked. -/
theorem Ty.exists_unbox? {ty : Ty} (htag : ty.tag? = some w.tag)
    (h : i.Gives mc callee act (.i64 w.bits.toInt64) act') :
    ∃ unboxed, ty.unbox? i = some unboxed ∧ unboxed.Gives mc callee act w.toVal act' := by
  have hwrap : (Instr.convert .wrapI64 i).Gives mc callee act (.i32 w.bits.toInt64.toInt32) act' :=
    h.convert rfl
  cases w with
  | none =>
    cases ty <;> cases htag
    exact ⟨_, rfl, hwrap⟩
  | i32 n =>
    rw [WireValue.bits, toInt32_of_word] at hwrap
    cases ty <;> cases htag <;> exact ⟨_, rfl, hwrap⟩
  | i64 n =>
    cases ty <;> cases htag
    exact ⟨_, rfl, h⟩
  | f32 x =>
    rw [WireValue.bits, toInt32_of_word] at hwrap
    cases ty <;> cases htag
    exact ⟨_, rfl, hwrap.convert rfl⟩
  | f64 x =>
    cases ty <;> cases htag
    exact ⟨_, rfl, h.convert rfl⟩

theorem toNat_add_ofNat {k : Nat} (h : a.toUInt32.toNat + k < UInt32.size) :
    (a + Int32.ofNat k).toUInt32.toNat = a.toUInt32.toNat + k := by
  have hk : (Int32.ofNat k).toUInt32.toNat = k := UInt32.toNat_ofNat_of_lt (by omega)
  rw [show (a + Int32.ofNat k).toUInt32 = a.toUInt32 + (Int32.ofNat k).toUInt32 from rfl,
    UInt32.toNat_add, hk]
  exact Nat.mod_eq_of_lt h

variable (himports : mc.imports = wireImports) (hmodule : mc.module.imports = HostFunction.imports)

include himports hmodule

/-- A slot is read by its tag. -/
theorem gives_readValue {address length : Instr} {n : Int32}
    (haddress : address.Gives mc callee act (.i32 a) act)
    (hlength : length.Gives mc callee act (.i32 n) act)
    (hin : (regionAt a n).isIn act.store.memory = true) (hroom : slotSize ≤ n.toUInt32.toNat)
    (hslot : act.store.memory.bytes a.toUInt32.toNat slotSize = encodeSlot w) :
    (HostFunction.readValue.call [.nat w.tag.code, address, length]).Gives mc callee act
      (.i64 w.bits.toInt64) act := by
  have hargs := evalAll_of_forall₂
    (.cons (Instr.gives_nat w.tag.code) (.cons haddress (.cons hlength .nil)))
  have hcode : (Int32.ofNat w.tag.code).toUInt32.toNat = w.tag.code := by cases w <;> rfl
  have hread : readValue act.store.heap _ _ _ _ = _ := readValue_of_slot hcode hin hroom hslot
  rw [WireValue.ofBits_tag_bits] at hread
  have hserve : serve ⟨moduleName, "read_value", [.i32, .i32, .i32], some .i64⟩
      [.i32 (.ofNat w.tag.code), .i32 a, .i32 n] act.store.heap act.store.memory =
      (.ok (some (.i64 w.bits.toInt64)), act.store.memory) := by
    rw [serve_readValue ⟨rfl, rfl⟩, hread]
  exact HostFunction.gives_call (f := .readValue) himports hmodule rfl hargs hserve

theorem gives_readArg {ty : Ty} {position : Nat} (hlocal : act.locals[0]? = some (.i32 a))
    (htag : ty.tag? = some w.tag)
    (hend : a.toUInt32.toNat + argOffset position + slotSize ≤ act.store.memory.size)
    (hword : a.toUInt32.toNat + argOffset position < UInt32.size)
    (hslot : act.store.memory.bytes (a.toUInt32.toNat + argOffset position) slotSize =
      encodeSlot w) :
    (Glue.readArg position ty).Gives mc callee act w.toVal act := by
  have hplace := toNat_add_ofNat hword
  have haddress : (Instr.binary .add .i32 (Glue.arg 0) (.nat (argOffset position))).Gives
      mc callee act (.i32 (a + .ofNat (argOffset position))) act :=
    (Instr.gives_localGet hlocal).binary (Instr.gives_nat _) rfl
  have hin : (regionAt (a + .ofNat (argOffset position)) 16).isIn act.store.memory = true := by
    refine decide_eq_true ?_
    rwa [regionAt, hplace]
  have hbits := gives_readValue himports hmodule haddress (Instr.gives_nat slotSize) hin (by decide)
    (hplace ▸ hslot)
  obtain ⟨unboxed, hunbox, hgives⟩ := Ty.exists_unbox? htag hbits
  rw [Glue.readArg, htag]
  show (Option.getD (ty.unbox? _) _).Gives _ _ _ _ _
  rw [Option.map_some, Option.getD_some, hunbox]
  exact hgives

/-- Arguments from a position on. -/
theorem forall₂_readArg {tys : List Ty} {args : List WireValue} (start : Nat)
    (hlocal : act.locals[0]? = some (.i32 a))
    (htags : tys.map Ty.tag? = args.map fun w => some w.tag)
    (hend : a.toUInt32.toNat + argOffset start + args.length * slotSize ≤ act.store.memory.size)
    (hword : a.toUInt32.toNat + argOffset start + args.length * slotSize ≤ UInt32.size)
    (hslots : act.store.memory.bytes (a.toUInt32.toNat + argOffset start) (args.length * slotSize) =
      slots args) :
    List.Forall₂ (fun i v => i.Gives mc callee act v act)
      ((tys.zipIdx start).map fun (ty, i) => Glue.readArg i ty) (args.map WireValue.toVal) := by
  induction args generalizing tys start with
  | nil =>
    obtain rfl := map_eq_nil_iff.mp htags
    exact .nil
  | cons w args ih =>
    obtain ⟨ty, tys, rfl, htag, htags⟩ := map_eq_cons_iff.mp htags
    have hnext : argOffset (start + 1) = argOffset start + slotSize := by
      rw [argOffset, argOffset, Nat.add_mul, Nat.one_mul, Nat.add_assoc]
    have hpos : 0 < slotSize := by decide
    rw [length_cons, Nat.add_mul, Nat.one_mul] at hend hword hslots
    rw [Nat.add_comm (args.length * slotSize), Memory.bytes_add, slots, flatMap_cons] at hslots
    obtain ⟨hfirst, hrest⟩ := append_inj hslots (by simp [Memory.bytes, encodeSlot])
    refine .cons (gives_readArg himports hmodule hlocal htag (by omega) (by omega) hfirst)
      (ih _ htags ?_ ?_ ?_)
    · rw [hnext]; omega
    · rw [hnext]; omega
    · rw [hnext, ← Nat.add_assoc]; exact hrest

end Operands

/-! ### Reading answers -/

/-- Compiled code takes an answer to a request of the operation as it is. -/
structure OpOrdinal.TakesAnswers (m : EffectMetadata) (o : OpOrdinal) (mc : Machine) : Prop where
  /-- `resume_effectful` reads the bits that the host has written with the tag of the operation's
  result. -/
  read : ∀ (callee : Callee) (act : Activation) r (a n : Int32) (memory : Memory) (w : WireValue),
    o.IsRequest mc act.store.heap r → act.locals[0]? = some r → act.locals[1]? = some (.i32 a) →
    act.locals[2]? = some (.i32 n) → (regionAt a n).isIn memory = true →
    (regionAt a n).putSlot w.tag w.bits memory = (.ok (), act.store.memory) →
    o.decl.ret.tag? = some w.tag → (Glue.readAnswer m (Glue.arg 0) (Glue.arg 1) (Glue.arg 2)).Gives
    mc callee act (.i64 w.bits.toInt64) act
  /-- Where the answer is needed, the bits are turned into the scalar, and nothing is checked. -/
  unboxed : ∀ (callee : Callee) (act act' : Activation) (bits : Instr) (w : WireValue),
    o.decl.ret.tag? = some w.tag → bits.Gives mc callee act (.i64 w.bits.toInt64) act' →
    ∃ value, o.decl.ret.unbox? bits = some value ∧ value.Gives mc callee act w.toVal act'

theorem Program.DistinctHashes.takesAnswers {p : Program} {a : EffectAnalysis}
    (hp : p.DistinctHashes) (hfits : (p.metadata a).FitsWords) {o : OpOrdinal}
    (ho : o ∈ (p.metadata a).ordinals) {mc : Machine} (himports : mc.imports = wireImports)
    (hmodule : mc.module.imports = HostFunction.imports) :
    o.TakesAnswers (p.metadata a) mc where
  read callee act r a n memory w hr h₀ h₁ h₂ hin hput htag := by
    have hroom : slotSize ≤ (regionAt a n).length := by
      refine Nat.not_lt.1 fun hlt => ?_
      rw [Region.putSlot_of_lt _ _ _ _ hlt] at hput
      cases hput
    rw [Region.putSlot_of_le _ _ _ _ hroom] at hput
    obtain ⟨hslot, hin'⟩ := bytes_write_slot hin hroom w.tag w.bits
    rw [(Prod.mk.inj hput).2] at hslot hin'
    have hcont : (Glue.arg 0).Gives mc callee act r act := Instr.gives_localGet h₀
    rw [Instr.Gives, hp.eval_readAnswer hfits ho hr hcont, OpOrdinal.answer, htag]
    exact gives_readValue himports hmodule (Instr.gives_localGet h₁) (Instr.gives_localGet h₂) hin'
      hroom hslot
  unboxed _ _ _ _ _ htag hbits := Ty.exists_unbox? htag hbits

namespace Program

theorem metadata_of_check {p : Program} {config : CompilerConfig} {checked : Checked}
    (h : p.check config = .ok checked) : checked.metadata = p.metadata checked.analysis := by
  unfold check at h
  cases hvalid : config.validate.mapError CompileError.config with
  | error e =>
    rw [hvalid] at h
    cases h
  | ok config' =>
    rw [hvalid] at h
    change (if _ then _ else _) = _ at h
    split at h
    · cases h
    · obtain rfl := Except.ok.inj h
      rfl

/-- **Parameters and answers are what the host has written.** The entry of a function reads the
arguments that were written with the tags of its parameters.  A parameter of type Boolean is the
integer of its argument, so it is zero or one only if the host has written zero or one.  Answers to
requests are taken in the same way. -/
theorem params_as_written {p : Program} {config : CompilerConfig} {compiled : CompiledProgram}
    (h : p.compile config = .ok compiled) (f : FnDecl) {mc : Machine}
    (hmc : mc.module = compiled.module) (himports : mc.imports = wireImports) (callee : Callee)
    {act : Activation} {a n : Int32} {m : Memory} {args : List WireValue} {size : Nat}
    (hin : (regionAt a n).isIn m = true)
    (hwords : a.toUInt32.toNat + n.toUInt32.toNat ≤ UInt32.size)
    (hput : (regionAt a n).putArgs args m = (.ok size, act.store.memory))
    (hlocal : act.locals[0]? = some (.i32 a))
    (htags : f.paramTys.map Ty.tag? = args.map fun w => some w.tag) :
    evalAll mc callee (f.paramTys.zipIdx.map fun (ty, i) => Glue.readArg i ty) act =
        (.ok (args.map WireValue.toVal), act) ∧
      (∀ i : Nat, f.paramTys[i]? = some .bool →
        ∃ x, args[i]? = some (.i32 x) ∧ (args.map WireValue.toVal)[i]? = some (.i32 x)) ∧
      (p.DistinctHashes → compiled.checked.metadata.FitsWords →
        ∀ o ∈ compiled.checked.metadata.ordinals, o.TakesAnswers compiled.checked.metadata mc) := by
  obtain ⟨-, -, -, _, rfl, -, hmodule⟩ := emit_of_compile h
  have hlibrary : mc.module.imports = HostFunction.imports := by
    rw [hmc, hmodule]
    rfl
  have hcall := callAt_of_putArgs hin hwords hput
  have hoffset : argOffset args.length = argOffset 0 + args.length * slotSize := by
    rw [argOffset, argOffset, Nat.zero_mul, Nat.add_zero]
  have hend := hcall.inMemory
  have hword := hcall.inWords
  rw [hoffset, ← Nat.add_assoc] at hend hword
  refine ⟨evalAll_of_forall₂ (forall₂_readArg himports hlibrary 0 hlocal htags hend hword
    hcall.slots), ?_, ?_⟩
  · intro i hty
    have htag : (f.paramTys.map Ty.tag?)[i]? = some (some .i32) := by
      rw [getElem?_map, hty]
      rfl
    rw [htags, getElem?_map, Option.map_eq_some_iff] at htag
    obtain ⟨w, hw, htag⟩ := htag
    cases w with
    | i32 x => exact ⟨x, hw, by rw [getElem?_map, hw]; rfl⟩
    | _ => cases htag
  · intro hp hfits o ho
    have hmetadata := metadata_of_check (check_of_lower (lower_of_compile h).1).1
    rw [hmetadata] at hfits ho ⊢
    exact hp.takesAnswers hfits ho himports hlibrary

/-- A program with one function, which takes a flag. -/
def withFlag (body : Expr) : Program where
  functions := [{ id := ⟨0⟩, name := "main", params := [⟨0⟩], ret := .bool, exported := true
                  locals := [⟨"flag", .bool⟩], body }]

def flag : Expr := .node ⟨1⟩ (.var ⟨0⟩) .bool {}

/-- A flag that the host has written as two is two. -/
theorem params_as_written_flag :
    ∃ compiled memory, (withFlag flag).compile {} = .ok compiled ∧
      (regionAt 0 64).putArgs [.i32 2] (.zeros 64) = (.ok 24, memory) ∧
      ∀ callee, evalAll ⟨compiled.module, wireImports, 8, 8⟩ callee [Glue.readArg 0 .bool]
        ⟨#[.i32 0, .i32 64], memory, #[]⟩ = (.ok [.i32 2], ⟨#[.i32 0, .i32 64], memory, #[]⟩) := by
  have hok : ((withFlag flag).compile {}).toOption.isSome = true := by decide +kernel
  have hin : (regionAt 0 64).isIn (.zeros 64) = true := by decide
  obtain ⟨memory, hput, -⟩ := MessageKind.isLawful_call.written _ _ [.i32 2] hin
    ⟨by decide, by decide⟩
  cases h : (withFlag flag).compile {} with
  | error e => simp [h, Except.toOption] at hok
  | ok compiled =>
    refine ⟨compiled, memory, rfl, hput, fun callee => ?_⟩
    have hmc : (⟨compiled.module, wireImports, 8, 8⟩ : Machine).module = compiled.module := rfl
    let f : FnDecl := { id := ⟨0⟩, name := "main", params := [⟨0⟩], ret := .bool, locals :=
      [⟨"flag", .bool⟩], body := flag }
    let act : Activation := ⟨#[.i32 0, .i32 64], memory, #[]⟩
    have hlocal : act.locals[0]? = some (.i32 0) := rfl
    have hwritten : (regionAt 0 64).putArgs [.i32 2] (.zeros 64) = (.ok 24, act.store.memory) :=
      hput
    exact (params_as_written h f hmc rfl callee hin (by decide) hwritten hlocal (by decide)).1

def flagIsTrue : Expr :=
  .node ⟨3⟩ (.binary .eq flag (.node ⟨2⟩ (.literal (.bool true)) .bool {})) .bool {}

/-- **Two is no Boolean.** A compiled function takes it as it is, gives it back and finds that it is
not true.  In interpretation it is true. -/
theorem run_flag_two :
    let compiled := fun body => ((withFlag body).runCompiled {} {} 10 "main" [.i32 2]
      (fun s _ => (.error "", s)) ()).1
    let interpreted := fun body =>
      ((withFlag body).runInterpreted {} {} 10 "main" [.i32 2] (fun s _ => (.error "", s)) ()).1
    (compiled flag).toOption = some (.i32 2) ∧ (interpreted flag).toOption = some (.i32 1) ∧
      (compiled flagIsTrue).toOption = some (.i32 0) ∧ (interpreted flagIsTrue).toOption =
      some (.i32 1) := by
  decide +kernel

end Program

end Effectful
