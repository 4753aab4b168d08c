import IcsDeception.Modbus.Pipelining
import IcsDeception.Modbus.Segmentation

/-!
# Agreement of the two Modbus honeypots

Both honeypots cut the same frames, and on the two function codes that both implement, and
on those that neither implements, they answer alike. So the same stream gets the same
responses, leaves the same registers and raises the same alarms.
-/

namespace IcsDeception.Modbus

open Text

/-! ## Words -/

theorem putBe16_ofNat {n : Nat} (h : n < 2 ^ 16) : Native.putBe16 (UInt16.ofNat n) = toBytes n := by
  have hdiv : n / 256 < 256 := Nat.div_lt_of_lt_mul h
  have hmod : n % 256 < 256 := Nat.mod_lt _ (by decide)
  have hand : n &&& 255 = n % 256 := Nat.and_two_pow_sub_one_eq_mod n 8
  have hword : n % 2 ^ 16 = n := Nat.mod_eq_of_lt h
  simp only [Native.putBe16, toBytes, List.cons.injEq, and_true]
  constructor
  · apply UInt8.toNat_inj.mp
    rw [UInt16.toNat_toUInt8, UInt16.toNat_shiftRight, UInt16.toNat_ofNat', hword,
      UInt8.toNat_ofNat', show (8 : UInt16).toNat % 16 = 8 from rfl, Nat.shiftRight_eq_div_pow]
  · apply UInt8.toNat_inj.mp
    rw [UInt16.toNat_toUInt8, UInt16.toNat_and, UInt16.toNat_ofNat', hword, UInt8.toNat_ofNat',
      show (0xff : UInt16).toNat = 255 from rfl, hand]

theorem putBe16_eq (w : UInt16) : Native.putBe16 w = toBytes w.toNat := by
  rw [← putBe16_ofNat w.toNat_lt, UInt16.ofNat_toNat]

theorem ofNat_land_eq {n : Nat} (h : n < 2 ^ 8) : UInt8.ofNat (n &&& 0xFF) = UInt8.ofNat n := by
  apply UInt8.toNat_inj.mp
  rw [ofNat_land h, UInt8.toNat_ofNat', Nat.mod_eq_of_lt h]

/-- A frame whose fields have their widths and whose PDU is within the limit. -/
structure Frame.WellFormed (f : Frame) : Prop where
  transactionId_lt : f.header.transactionId < 2 ^ 16
  unitId_lt : f.header.unitId < 2 ^ 8
  pdu_pos : 1 ≤ f.pdu.length
  pdu_le : f.pdu.length ≤ maxPduLen

theorem fromBytes_lt {data : Bytes} {offset : Nat} (h : offset + 2 ≤ data.length) :
    fromBytes ((data.drop offset).take 2) < 2 ^ 16 := by
  rw [Native.fromBytes_eq_be16 h]
  exact UInt16.toNat_lt _

/-- Frames that are cut off a stream are well formed. -/
theorem wellFormed_of_cut {buffer rest : Bytes} {f : Frame} (h : cutFrame buffer = .frame f rest) :
    f.WellFormed := by
  obtain ⟨hparse, -, hmin, hmax, hle, hpdu, -⟩ := cutFrame_eq_frame h
  have hlen := parseMbap_length hparse
  unfold parseMbap at hparse
  split_ifs at hparse with hshort
  have hheader := Option.some.inj hparse
  have hlength : f.pdu.length = f.header.length - 1 := by
    rw [hpdu, List.length_drop, List.length_take, Nat.min_eq_left hle, MbapHeader.totalFrameLen]
    simp only [mbapHeaderLen]
    omega
  simp only [minMbapLength, maxMbapLength, maxPduLen] at hmin hmax
  refine ⟨?_, ?_, ?_, ?_⟩
  · rw [← hheader]
    have hlt := @fromBytes_lt buffer 0 (by omega)
    rw [List.drop_zero] at hlt
    exact hlt
  · rw [← hheader]
    exact UInt8.toNat_lt _
  · omega
  · unfold maxPduLen
    omega

theorem wellFormed_of_mem_frames {stream : Bytes} :
    ∀ f ∈ (framing.frames stream).1, f.WellFormed := by
  induction stream using framing.frames_induction with
  | more b hc =>
      rw [Framing.frames_more hc]
      exact fun f hf => absurd hf List.not_mem_nil
  | refused b e hc =>
      rw [Framing.frames_refused hc]
      exact fun f hf => absurd hf List.not_mem_nil
  | frame b f rest hc ih =>
      rw [Framing.frames_frame hc]
      exact List.forall_mem_cons.mpr ⟨wellFormed_of_cut hc, ih⟩

/-! ## Responses -/

theorem buildAdu_eq {tid uid : Nat} (htid : tid < 2 ^ 16) (huid : uid < 2 ^ 8) {pdu : Bytes}
    (hpdu : pdu.length ≤ maxPduLen) :
    Native.buildAdu (UInt16.ofNat tid) (UInt8.ofNat uid) pdu = buildResponse tid uid pdu := by
  have hlength : pdu.length + 1 < 2 ^ 16 := by
    unfold maxPduLen at hpdu
    omega
  rw [Native.buildAdu, buildResponse, putBe16_ofNat htid, putBe16_ofNat (by decide),
    putBe16_ofNat hlength, ofNat_land_eq huid]

theorem buildException_eq {tid uid : Nat} (htid : tid < 2 ^ 16) (huid : uid < 2 ^ 8)
    (functionCode exceptionCode : UInt8) :
    Native.buildException (UInt16.ofNat tid) (UInt8.ofNat uid) functionCode exceptionCode =
      buildExceptionResponse tid uid functionCode.toNat exceptionCode.toNat := by
  have hor : functionCode.toNat ||| 0x80 < 2 ^ 8 :=
    Nat.or_lt_two_pow functionCode.toNat_lt (by decide)
  have hcode : UInt8.ofNat ((functionCode.toNat ||| 0x80) &&& 0xFF) = functionCode ||| 0x80 := by
    rw [ofNat_land_eq hor]
    apply UInt8.toNat_inj.mp
    rw [UInt8.toNat_ofNat', Nat.mod_eq_of_lt hor, UInt8.toNat_or]
    rfl
  rw [Native.buildException, buildExceptionResponse, hcode, ofNat_land_eq exceptionCode.toNat_lt,
    UInt8.ofNat_toNat, buildAdu_eq htid huid]
  simp only [List.length_cons, List.length_nil, maxPduLen]
  omega

/-! ## Observations -/

/-- What a handler makes of the front of its stream: a response to a frame, or the refusal of a
header, which ends the connection. -/
inductive Reaction
  | response (payload : Bytes)
  | refused (m : Malformed)
  deriving DecidableEq

/-- A refusal of the native honeypot in the words of the Python helpers. -/
def Native.Malformed.toMalformed : Native.Malformed → Modbus.Malformed
  | .badProtocolId protocolId => .badProtocolId protocolId.toNat
  | .badMbapLength mbapLength => .badMbapLength mbapLength.toNat

/-- The reactions of the native handler, in order. -/
def Native.reactions (outputs : List Native.Output) : List Reaction :=
  outputs.filterMap fun
    | .send payload => some (.response payload)
    | .log (.malformed m) => some (.refused m.toMalformed)
    | _ => none

/-- The reactions of the Python handler, in order. -/
def Server.reactions (outputs : List Server.Output) : List Reaction :=
  outputs.filterMap fun
    | .send payload => some (.response payload)
    | .emit (.malformed m) => some (.refused m)
    | _ => none

/-- The addresses of the alarms that the native handler logs, in order. -/
def Native.sabotaged (outputs : List Native.Output) : List Nat :=
  outputs.filterMap fun
    | .log (.sabotageDetected _ address) => some address
    | _ => none

/-- The addresses of the alarms that the Python handler emits, in order. -/
def Server.sabotaged (outputs : List Server.Output) : List Nat :=
  outputs.filterMap fun
    | .emit (.sabotageDetected _ address _) => some address
    | _ => none

/-! ## One frame -/

/-- The bank has the registers and the critical range of the native honeypot. -/
structure Agrees (cfg : Native.Config) (plc : Native.PlcState) (bank : RegisterBank) : Prop where
  registers : bank.registers = plc.registers.map UInt16.toNat
  criticalStart : bank.criticalStart = cfg.critStart
  criticalEnd : bank.criticalEnd = cfg.critEnd

/-- The function codes that only the native honeypot implements. -/
def NativeOnly (functionCode : UInt8) : Prop :=
  functionCode = Native.fcReadCoils ∨ functionCode = Native.fcWriteSingleCoil ∨
    functionCode = Native.fcWriteMultipleRegisters

/-- The two outcomes of a PDU agree. -/
structure SameReply (cfg : Native.Config) (plc : Native.PlcState) (native : Native.Reply)
    (python : Server.Reply) : Prop where
  response : native.response = python.response
  state : Agrees cfg (native.updates.foldl Native.PlcState.update plc) python.bank
  sabotaged : native.sabotage.toList = Server.sabotaged (python.emitted.map .emit)

theorem Agrees.size {cfg : Native.Config} {plc : Native.PlcState} {bank : RegisterBank}
    (h : Agrees cfg plc bank) : bank.size = Native.registerCount := by
  rw [RegisterBank.size, h.registers, List.length_map, plc.registers_length]

theorem Agrees.isCritical {cfg : Native.Config} {plc : Native.PlcState} {bank : RegisterBank}
    (h : Agrees cfg plc bank) (address : Nat) :
    bank.isCritical address = Native.isCriticalRegister cfg address := by
  rw [RegisterBank.isCritical, Native.isCriticalRegister, h.criticalStart, h.criticalEnd]

/-- A response that changes nothing agrees with itself. -/
theorem Agrees.only {cfg : Native.Config} {plc : Native.PlcState} {bank : RegisterBank}
    (h : Agrees cfg plc bank) {native python : Bytes} (heq : native = python) :
    SameReply cfg plc (.only native) (.only bank python) :=
  ⟨heq, h, rfl⟩

/-- The registers that are read. -/
theorem Agrees.read {cfg : Native.Config} {plc : Native.PlcState} {bank : RegisterBank}
    (h : Agrees cfg plc bank) {address quantity : Nat}
    (hle : address + quantity ≤ Native.registerCount) :
    (bank.read address quantity).flatMap toBytes =
      (List.range quantity).flatMap fun i =>
        Native.putBe16 (plc.registers.getD (address + i) 0) := by
  have hlength := plc.registers_length
  have hread : bank.read address quantity =
      (List.range quantity).map fun i => (plc.registers.getD (address + i) 0).toNat := by
    rw [RegisterBank.read, h.registers]
    apply List.ext_getElem
    · rw [List.length_take, List.length_drop, List.length_map, hlength, List.length_map,
        List.length_range]
      omega
    · intro i hi hi'
      rw [List.length_map, List.length_range] at hi'
      rw [List.getElem_take, List.getElem_drop, List.getElem_map, List.getElem_map,
        List.getElem_range, List.getD_eq_getElem _ _ (by omega)]
  rw [hread, List.flatMap_map]
  apply List.flatMap_congr
  intro i _
  rw [putBe16_eq]

theorem payload_length (bank : RegisterBank) (address quantity : Nat)
    (hle : address + quantity ≤ bank.size) :
    ((bank.read address quantity).flatMap toBytes).length = quantity * 2 := by
  have htwo : ∀ words : List Nat, (words.flatMap toBytes).length = words.length * 2 := by
    intro words
    induction words with
    | nil => rfl
    | cons w rest ih =>
        rw [List.flatMap_cons, List.length_append, ih, List.length_cons, Nat.succ_mul, Nat.add_comm]
        rfl
  rw [htwo, RegisterBank.read, List.length_take, List.length_drop]
  unfold RegisterBank.size at hle
  omega

theorem quantity_iff (quantity : UInt16) :
    (quantity = 0 ∨ 125 < quantity) ↔ (quantity.toNat = 0 ∨ 125 < quantity.toNat) := by
  rw [← UInt16.toNat_inj, UInt16.lt_iff_toNat_lt]
  rfl

variable {cfg : Native.Config} {plc : Native.PlcState} {bank : RegisterBank}

/-- The two readers of holding registers agree. -/
theorem sameReply_read (h : Agrees cfg plc bank) {f : Frame} (hf : f.WellFormed) :
    SameReply cfg plc
      (Native.handleReadHoldingRegisters plc (UInt16.ofNat f.header.transactionId)
        (UInt8.ofNat f.header.unitId) f.pdu)
      (Server.readHoldingRegisters bank f.header f.pdu) := by
  have hexc := buildException_eq hf.transactionId_lt hf.unitId_lt Native.fcReadHoldingRegisters
  unfold Native.handleReadHoldingRegisters Server.readHoldingRegisters
  by_cases hlen : f.pdu.length ≠ 5
  · rw [if_pos hlen, if_pos hlen]
    exact h.only (hexc _)
  rw [if_neg hlen, if_neg hlen]
  have hfive : f.pdu.length = 5 := not_not.mp hlen
  dsimp only
  rw [Native.fromBytes_eq_be16 (by omega), Native.fromBytes_eq_be16 (by omega)]
  simp only [quantity_iff]
  by_cases hquantity : (Native.be16 f.pdu 3).toNat = 0 ∨ 125 < (Native.be16 f.pdu 3).toNat
  · rw [if_pos hquantity, if_pos hquantity]
    exact h.only (hexc _)
  rw [if_neg hquantity, if_neg hquantity, h.size]
  by_cases hrange : Native.registerCount <
      (Native.be16 f.pdu 1).toNat + (Native.be16 f.pdu 3).toNat
  · rw [if_pos hrange, if_pos hrange]
    exact h.only (hexc _)
  rw [if_neg hrange, if_neg hrange]
  have hle := Nat.not_lt.mp hrange
  have hpayload := payload_length bank _ _ (h.size.symm ▸ hle)
  apply h.only
  rw [hpayload, ← h.read hle]
  apply buildAdu_eq hf.transactionId_lt hf.unitId_lt
  rw [List.length_cons, List.length_cons, hpayload]
  unfold maxPduLen
  omega

theorem Agrees.write (h : Agrees cfg plc bank) (address : Nat) (value : UInt16) :
    Agrees cfg (plc.update (.register address value)) (bank.write address value.toNat) where
  registers := by
    have hand : value.toNat &&& 0xFFFF = value.toNat := by
      have hmod : value.toNat &&& 0xFFFF = value.toNat % 2 ^ 16 :=
        Nat.and_two_pow_sub_one_eq_mod value.toNat 16
      rw [hmod, Nat.mod_eq_of_lt value.toNat_lt]
    simp only [RegisterBank.write, Native.PlcState.update, h.registers, hand, List.map_set]
  criticalStart := h.criticalStart
  criticalEnd := h.criticalEnd

/-- The two writers of a single register agree. -/
theorem sameReply_write (h : Agrees cfg plc bank) {f : Frame} (hf : f.WellFormed) :
    SameReply cfg plc
      (Native.handleWriteSingleRegister cfg (UInt16.ofNat f.header.transactionId)
        (UInt8.ofNat f.header.unitId) f.pdu)
      (Server.writeSingleRegister bank f.header f.pdu) := by
  have hexc := buildException_eq hf.transactionId_lt hf.unitId_lt Native.fcWriteSingleRegister
  unfold Native.handleWriteSingleRegister Server.writeSingleRegister
  by_cases hlen : f.pdu.length ≠ 5
  · rw [if_pos hlen, if_pos hlen]
    exact h.only (hexc _)
  rw [if_neg hlen, if_neg hlen]
  have hfive : f.pdu.length = 5 := not_not.mp hlen
  dsimp only
  rw [Native.fromBytes_eq_be16 (by omega), Native.fromBytes_eq_be16 (by omega), h.size]
  by_cases hrange : Native.registerCount ≤ (Native.be16 f.pdu 1).toNat
  · rw [if_pos hrange, if_pos hrange]
    exact h.only (hexc _)
  rw [if_neg hrange, if_neg hrange]
  refine ⟨buildAdu_eq hf.transactionId_lt hf.unitId_lt hf.pdu_le, h.write _ _, ?_⟩
  simp only [Native.sabotageAt, h.isCritical]
  cases Native.isCriticalRegister cfg (Native.be16 f.pdu 1).toNat with
  | false => rfl
  | true => rfl

/-- The two dispatches agree except on what only the native honeypot implements. -/
theorem sameReply_dispatch (h : Agrees cfg plc bank) {f : Frame} (hf : f.WellFormed)
    (hcode : ¬ NativeOnly (f.pdu.headD 0)) :
    SameReply cfg plc
      (Native.switch cfg plc (UInt16.ofNat f.header.transactionId) (UInt8.ofNat f.header.unitId)
        f.pdu)
      (Server.dispatch bank f.header f.pdu) := by
  have hread : (f.pdu.headD 0).toNat = fcReadHoldingRegisters ↔
      f.pdu.headD 0 = Native.fcReadHoldingRegisters := by
    rw [← UInt8.toNat_inj]
    rfl
  have hwrite : (f.pdu.headD 0).toNat = fcWriteSingleRegister ↔
      f.pdu.headD 0 = Native.fcWriteSingleRegister := by
    rw [← UInt8.toNat_inj]
    rfl
  unfold Native.switch Server.dispatch
  dsimp only
  simp only [hread, hwrite]
  rw [if_neg (fun hc => hcode (.inl hc))]
  by_cases hr : f.pdu.headD 0 = Native.fcReadHoldingRegisters
  · rw [if_pos hr, if_pos hr]
    exact sameReply_read h hf
  rw [if_neg hr, if_neg hr, if_neg (fun hc => hcode (.inr (.inl hc)))]
  by_cases hw : f.pdu.headD 0 = Native.fcWriteSingleRegister
  · rw [if_pos hw, if_pos hw]
    exact sameReply_write h hf
  rw [if_neg hw, if_neg hw, if_neg (fun hc => hcode (.inr (.inr hc)))]
  exact ⟨buildException_eq hf.transactionId_lt hf.unitId_lt _ _, h, rfl⟩

/-! ## Whole streams -/

/-- The two lists of outputs make the same of a stream. -/
structure SameTrace (native : List Native.Output) (python : List Server.Output) : Prop where
  reactions : Native.reactions native = Server.reactions python
  sabotaged : Native.sabotaged native = Server.sabotaged python

theorem SameTrace.append {trace trace' : List Native.Output} {python python' : List Server.Output}
    (h : SameTrace trace python) (h' : SameTrace trace' python') :
    SameTrace (trace ++ trace') (python ++ python') where
  reactions := by
    simp only [Native.reactions, Server.reactions, List.filterMap_append]
    exact congrArg₂ _ h.reactions h'.reactions
  sabotaged := by
    simp only [Native.sabotaged, Server.sabotaged, List.filterMap_append]
    exact congrArg₂ _ h.sabotaged h'.sabotaged

theorem reactions_updates (updates : List Native.Update) :
    Native.reactions (updates.map .update) = [] := by
  rw [Native.reactions, List.filterMap_map]
  exact List.filterMap_eq_nil_iff.mpr fun _ _ => rfl

theorem sabotaged_updates (updates : List Native.Update) :
    Native.sabotaged (updates.map .update) = [] := by
  rw [Native.sabotaged, List.filterMap_map]
  exact List.filterMap_eq_nil_iff.mpr fun _ _ => rfl

/-- What dispatch emits is no reaction. -/
theorem reactions_emitted (bank : RegisterBank) (header : MbapHeader) (pdu : Bytes) :
    Server.reactions ((Server.dispatch bank header pdu).emitted.map .emit) = [] := by
  rw [Server.reactions, List.filterMap_map]
  apply List.filterMap_eq_nil_iff.mpr
  intro e he
  have hnot := Server.dispatch_emitted bank header pdu e he
  cases e with
  | malformed m => cases hnot
  | _ => rfl

/-- The answers to a frame agree. -/
theorem sameTrace_answer {device : Native.Device} (herror : cfg.errorPercent ≤ 0)
    (h : Agrees cfg device.plc bank) {f : Frame} (hf : f.WellFormed)
    (hcode : ¬ NativeOnly (f.pdu.headD 0)) :
    SameTrace (Native.answer cfg device (.ofFrame f)).1 (Server.answer bank f).1 ∧
      Agrees cfg (Native.answer cfg device (.ofFrame f)).2.plc (Server.answer bank f).2 := by
  have hreply := sameReply_dispatch h hf hcode
  have hprocess : Native.processPdu cfg device (UInt16.ofNat f.header.transactionId)
      (UInt8.ofNat f.header.unitId) f.pdu = (Native.switch cfg device.plc
        (UInt16.ofNat f.header.transactionId) (UInt8.ofNat f.header.unitId) f.pdu, device) :=
    if_neg (Int.not_lt.mpr herror)
  have hemitted := reactions_emitted bank f.header f.pdu
  unfold Native.answer Server.answer Native.Frame.ofFrame
  rw [hprocess]
  dsimp only
  generalize Native.switch cfg device.plc (UInt16.ofNat f.header.transactionId)
    (UInt8.ofNat f.header.unitId) f.pdu = native at hreply
  generalize Server.dispatch bank f.header f.pdu = python at hreply hemitted
  have hupdates := reactions_updates native.updates
  have hquiet := sabotaged_updates native.updates
  have hsab := hreply.sabotaged
  refine ⟨⟨?_, ?_⟩, hreply.state⟩
  · simp only [Native.reactions, Server.reactions, List.filterMap_cons, List.filterMap_append,
      List.filterMap_nil] at hupdates hemitted ⊢
    rw [hupdates, hemitted, hreply.response]
    cases native.sabotage with
    | none => rfl
    | some address => rfl
  · simp only [Native.sabotaged, Server.sabotaged, List.filterMap_cons, List.filterMap_append,
      List.filterMap_nil, List.append_nil] at hquiet hsab ⊢
    rw [hquiet, ← hsab]
    cases native.sabotage with
    | none => rfl
    | some address => rfl

/-- The answers to a list of frames agree. -/
theorem sameTrace_serve {device : Native.Device} (herror : cfg.errorPercent ≤ 0)
    (h : Agrees cfg device.plc bank) {fs : List Frame} (hfs : ∀ f ∈ fs, f.WellFormed)
    (hcodes : ∀ f ∈ fs, ¬ NativeOnly (f.pdu.headD 0)) :
    SameTrace (serve (Native.answer cfg) device (fs.map .ofFrame)).1
        (serve Server.answer bank fs).1 ∧
      Agrees cfg (serve (Native.answer cfg) device (fs.map .ofFrame)).2.plc
        (serve Server.answer bank fs).2 := by
  induction fs generalizing device bank with
  | nil => exact ⟨⟨rfl, rfl⟩, h⟩
  | cons f rest ih =>
      obtain ⟨hf, hrest⟩ := List.forall_mem_cons.mp hfs
      obtain ⟨hcode, hcodes⟩ := List.forall_mem_cons.mp hcodes
      obtain ⟨htrace, hagrees⟩ := sameTrace_answer herror h hf hcode
      obtain ⟨htraces, hfinal⟩ := ih hagrees hrest hcodes
      exact ⟨htrace.append htraces, hfinal⟩

/-- A refused header holds words. -/
theorem toMalformed_ofMalformed {stream : Bytes} {m : Malformed}
    (h : (framing.frames stream).2 = .error m) : (Native.Malformed.ofMalformed m).toMalformed = m := by
  induction stream using framing.frames_induction with
  | more b hc =>
      rw [Framing.frames_more hc] at h
      cases h
  | refused b e hc =>
      rw [Framing.frames_refused hc] at h
      cases h
      rw [framing_cut] at hc
      unfold cutFrame at hc
      cases hp : parseMbap b with
      | none =>
          rw [hp] at hc
          cases hc
      | some header =>
          have hlen := parseMbap_length hp
          rw [hp] at hc
          unfold parseMbap at hp
          split_ifs at hp with hshort
          have hheader := Option.some.inj hp
          have hid := @fromBytes_lt b 2 (by omega)
          have hlength := @fromBytes_lt b 4 (by omega)
          dsimp only at hc
          split_ifs at hc with hbad hrange
          · cases hc
            rw [← hheader, Native.Malformed.ofMalformed, Native.Malformed.toMalformed,
              UInt16.toNat_ofNat', Nat.mod_eq_of_lt hid]
          · cases hc
            rw [← hheader, Native.Malformed.ofMalformed, Native.Malformed.toMalformed,
              UInt16.toNat_ofNat', Nat.mod_eq_of_lt hlength]
  | frame b f rest hc ih =>
      rw [Framing.frames_frame hc] at h
      exact ih h

/-- The end of a connection is no reaction and changes no register. -/
theorem receive_ending (ending : Server.Ending) (buffer : Bytes) (bank : RegisterBank) :
    Server.reactions (Server.receive ending.recvs buffer bank).1 = [] ∧
      Server.sabotaged (Server.receive ending.recvs buffer bank).1 = [] ∧
      (Server.receive ending.recvs buffer bank).2 = bank := by
  cases ending with
  | closed =>
      simp only [Server.Ending.recvs, Server.receive, if_true]
      exact ⟨rfl, rfl, trivial⟩
  | timeout => exact ⟨rfl, rfl, rfl⟩
  | osError error => exact ⟨rfl, rfl, rfl⟩
  | stopping => exact ⟨rfl, rfl, rfl⟩

theorem outputs_ending (ending : Native.Ending) :
    Native.reactions (ending.outputs cfg) = [] ∧ Native.sabotaged (ending.outputs cfg) = [] := by
  cases ending with
  | closed => exact ⟨rfl, rfl⟩
  | timedOut => exact ⟨rfl, rfl⟩
  | failed errno => exact ⟨rfl, rfl⟩
  | stopped => exact ⟨rfl, rfl⟩

/-- The loops of the two handlers make the same of a stream. -/
theorem sameTrace_loop {device : Native.Device} (herror : cfg.errorPercent ≤ 0)
    (h : Agrees cfg device.plc bank) {stream : Bytes}
    (hcodes : ∀ f ∈ (framing.frames stream).1, ¬ NativeOnly (f.pdu.headD 0))
    (ending : Native.Ending) {chunks : List Bytes} (hne : ∀ c ∈ chunks, c ≠ [])
    (hchunks : chunks.flatten = stream) (hroom : Server.Room [] chunks)
    (ending' : Server.Ending) :
    SameTrace (Native.outcome cfg stream ending device).1
        (Server.receive (chunks.map .data ++ ending'.recvs) [] bank).1 ∧
      Agrees cfg (Native.outcome cfg stream ending device).2.1.plc
        (Server.receive (chunks.map .data ++ ending'.recvs) [] bank).2 := by
  have hreceive := Server.receive_eq hne ending'.recvs cutFrame_nil hroom bank
  rw [List.nil_append, hchunks] at hreceive
  obtain ⟨htrace, hagrees⟩ := sameTrace_serve herror h wellFormed_of_mem_frames hcodes
  have hframes : Native.framing.frames stream = ((framing.frames stream).1.map .ofFrame,
      (framing.frames stream).2.mapError Native.Malformed.ofMalformed) := Framing.frames_map _ _ _
  rw [hreceive, Native.outcome, hframes]
  cases hleft : (framing.frames stream).2 with
  | error m =>
      refine ⟨htrace.append ⟨?_, rfl⟩, hagrees⟩
      change [Reaction.refused (Native.Malformed.ofMalformed m).toMalformed] = [.refused m]
      rw [toMalformed_ofMalformed hleft]
  | ok left =>
      obtain ⟨hreact, hsab⟩ := @outputs_ending cfg ending
      obtain ⟨hreact', hsab', hbank⟩ :=
        receive_ending ending' left (serve Server.answer bank (framing.frames stream).1).2
      refine ⟨htrace.append ⟨hreact.trans hreact'.symm, hsab.trans hsab'.symm⟩, ?_⟩
      dsimp only
      rw [hbank]
      exact hagrees

/-- On a stream without the function codes that only the native honeypot implements, the two
honeypots send the same responses, refuse the same header after the same frames, raise the same
alarms, and leave the same registers. -/
theorem honeypots_agree (cfg : Native.Config) (herror : cfg.errorPercent = 0)
    (device : Native.Device) (bank : RegisterBank) (h : Agrees cfg device.plc bank)
    (stream : Bytes) (hcodes : ∀ f ∈ (framing.frames stream).1, ¬ NativeOnly (f.pdu.headD 0))
    (recvs : List Native.Recv) (hrecvs : ∀ r ∈ recvs, r.Continues)
    (hstream : recvs.flatMap Native.Recv.bytes = stream) (ending : Native.Ending)
    (chunks : List Bytes) (hne : ∀ c ∈ chunks, c ≠ []) (hchunks : chunks.flatten = stream)
    (hroom : Server.Room [] chunks) (ending' : Server.Ending) :
    Native.reactions (Native.handleClient cfg (recvs ++ ending.recvs) device).1 =
        Server.reactions (Server.handle (chunks.map .data ++ ending'.recvs) bank).1 ∧
      Native.sabotaged (Native.handleClient cfg (recvs ++ ending.recvs) device).1 =
        Server.sabotaged (Server.handle (chunks.map .data ++ ending'.recvs) bank).1 ∧
      (Server.handle (chunks.map .data ++ ending'.recvs) bank).2.registers =
        (Native.handleClient cfg (recvs ++ ending.recvs) device).2.plc.registers.map
          UInt16.toNat := by
  obtain ⟨htrace, hagrees⟩ :=
    sameTrace_loop (le_of_eq herror) h hcodes ending hne hchunks hroom ending'
  have hloop := Native.loop_eq_outcome cfg hrecvs ending [] device
  rw [List.nil_append, hstream] at hloop
  unfold Native.handleClient Server.handle
  rw [hloop]
  have hopen : SameTrace [.log .connection] [.emit .connection] := ⟨rfl, rfl⟩
  have hclose : SameTrace [.log (.connectionClosed (Native.outcome cfg stream ending device).2.2)]
      [.emit .connectionClosed] := ⟨rfl, rfl⟩
  have hwhole := hopen.append (htrace.append hclose)
  exact ⟨hwhole.reactions, hwhole.sabotaged, hagrees.registers⟩

/-- A bank of 256 registers, all zero, with the critical range of the sample configuration. -/
def zeroBank : RegisterBank where
  registers := List.replicate 256 0
  registers_lt := by
    intro v hv
    rw [List.eq_of_mem_replicate hv]
    decide
  criticalStart := 100
  criticalEnd := 110

/-- A write to a critical register and a header with a wrong protocol id. -/
def sampleStream : Bytes := [0, 1, 0, 0, 0, 6, 1, 6, 0, 100, 0, 7, 0, 2, 0, 1, 0, 6, 1]

theorem zeroBank_agrees : Agrees Native.sampleConfig Native.sampleDevice.plc zeroBank where
  registers := by
    change List.replicate 256 0 = (List.replicate 256 (0 : UInt16)).map UInt16.toNat
    rw [List.map_replicate]
    rfl
  criticalStart := rfl
  criticalEnd := rfl

theorem honeypots_agree_sample :
    Native.reactions (Native.handleClient Native.sampleConfig
        ([.data (sampleStream.take 5), .data (sampleStream.drop 5)] ++ Native.Ending.closed.recvs)
        Native.sampleDevice).1 =
      Server.reactions (Server.handle ([sampleStream].map .data ++ Server.Ending.closed.recvs)
        zeroBank).1 :=
  (honeypots_agree Native.sampleConfig rfl Native.sampleDevice zeroBank zeroBank_agrees
    sampleStream (by unfold NativeOnly; decide)
    [.data (sampleStream.take 5), .data (sampleStream.drop 5)]
    (by
      intro r hr
      rcases List.mem_cons.mp hr with rfl | hr
      · exact List.cons_ne_nil _ _
      · rw [List.mem_singleton.mp hr]
        exact List.cons_ne_nil _ _)
    rfl .closed [sampleStream] (by decide) rfl ⟨by decide, fun _ _ => trivial⟩ .closed).1

end IcsDeception.Modbus
