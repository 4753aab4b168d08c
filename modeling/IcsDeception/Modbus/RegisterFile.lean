import IcsDeception.Modbus.Agreement

/-!
# The native honeypot as a register file

The handlers again, with every access to the PDU, to the coils and to the registers checked:
an access outside its array is a fault. No PDU faults, and over any sequence of PDUs the two
arrays are total maps that exactly the successful writes update. Which requests succeed, and
with which exception the others are refused, is said of the request alone.

## Implementation notes

A checked handler has the outcome of the handler it checks, or none after a fault. Its writes
are executed in order, each one checked.
-/

namespace IcsDeception.Modbus.Native

open Text

namespace Checked

/-! ## Checked accesses -/

/-- `be16`, of two bytes that have to be there. -/
def be16 (data : Bytes) (offset : Nat) : Option UInt16 := do
  let high ← data[offset]?
  let low ← data[offset + 1]?
  return high.toUInt16 <<< 8 ||| low.toUInt16

/-- The round of a coil in the loop of `handle_read_coils`. -/
def coilRound (coils : List Bool) (address : Nat) (bytes : Bytes) (i : Nat) : Option Bytes := do
  let coil ← coils[address + i]?
  if coil then
    if i / 8 < bytes.length then
      return bytes.modify (i / 8) (· ||| (1 <<< UInt8.ofNat (i % 8)))
    else none
  else return bytes

/-- The loop of `handle_read_coils`. -/
def coilBits (coils : List Bool) (address quantity : Nat) : Option Bytes :=
  (List.range quantity).foldlM (coilRound coils address)
    (List.replicate ((quantity + 7) / 8) 0)

/-- A write to an address that has to be there. -/
def store (plc : PlcState) : Update → Option PlcState
  | .coil address value =>
      if address < coilCount then some (plc.update (.coil address value)) else none
  | .register address value =>
      if address < registerCount then some (plc.update (.register address value)) else none

/-! ## Checked handlers -/

/-- `handle_read_coils`. -/
def handleReadCoils (plc : PlcState) (tid : UInt16) (uid : UInt8) (pdu : Bytes) :
    Option Reply :=
  if pdu.length ≠ 5 then return .only (buildException tid uid fcReadCoils excIllegalDataValue)
  else do
    let address ← be16 pdu 1
    let quantity ← be16 pdu 3
    if quantity = 0 ∨ 2000 < quantity then
      return .only (buildException tid uid fcReadCoils excIllegalDataValue)
    else if coilCount < address.toNat + quantity.toNat then
      return .only (buildException tid uid fcReadCoils excIllegalDataAddress)
    else
      let bits ← coilBits plc.coils address.toNat quantity.toNat
      return .only
        (buildAdu tid uid (fcReadCoils :: UInt8.ofNat ((quantity.toNat + 7) / 8) :: bits))

/-- `handle_read_holding_registers`. -/
def handleReadHoldingRegisters (plc : PlcState) (tid : UInt16) (uid : UInt8) (pdu : Bytes) :
    Option Reply :=
  if pdu.length ≠ 5 then
    return .only (buildException tid uid fcReadHoldingRegisters excIllegalDataValue)
  else do
    let address ← be16 pdu 1
    let quantity ← be16 pdu 3
    if quantity = 0 ∨ 125 < quantity then
      return .only (buildException tid uid fcReadHoldingRegisters excIllegalDataValue)
    else if registerCount < address.toNat + quantity.toNat then
      return .only (buildException tid uid fcReadHoldingRegisters excIllegalDataAddress)
    else
      let words ← (List.range quantity.toNat).mapM fun i => plc.registers[address.toNat + i]?
      return .only (buildAdu tid uid
        (fcReadHoldingRegisters :: UInt8.ofNat (quantity.toNat * 2) :: words.flatMap putBe16))

/-- `handle_write_single_coil`. -/
def handleWriteSingleCoil (cfg : Config) (tid : UInt16) (uid : UInt8) (pdu : Bytes) :
    Option Reply :=
  if pdu.length ≠ 5 then
    return .only (buildException tid uid fcWriteSingleCoil excIllegalDataValue)
  else do
    let address ← be16 pdu 1
    let value ← be16 pdu 3
    if value ≠ 0x0000 ∧ value ≠ 0xFF00 then
      return .only (buildException tid uid fcWriteSingleCoil excIllegalDataValue)
    else if coilCount ≤ address.toNat then
      return .only (buildException tid uid fcWriteSingleCoil excIllegalDataAddress)
    else
      some
        { response := buildAdu tid uid pdu
          updates := [.coil address.toNat (value == 0xFF00)]
          sabotage := sabotageAt cfg address.toNat }

/-- `handle_write_single_register`. -/
def handleWriteSingleRegister (cfg : Config) (tid : UInt16) (uid : UInt8) (pdu : Bytes) :
    Option Reply :=
  if pdu.length ≠ 5 then
    return .only (buildException tid uid fcWriteSingleRegister excIllegalDataValue)
  else do
    let address ← be16 pdu 1
    let value ← be16 pdu 3
    if registerCount ≤ address.toNat then
      return .only (buildException tid uid fcWriteSingleRegister excIllegalDataAddress)
    else
      some
        { response := buildAdu tid uid pdu
          updates := [.register address.toNat value]
          sabotage := sabotageAt cfg address.toNat }

/-- `handle_write_multiple_registers`. -/
def handleWriteMultipleRegisters (cfg : Config) (tid : UInt16) (uid : UInt8) (pdu : Bytes) :
    Option Reply :=
  if pdu.length < 6 then
    return .only (buildException tid uid fcWriteMultipleRegisters excIllegalDataValue)
  else do
    let address ← be16 pdu 1
    let quantity ← be16 pdu 3
    let byteCount ← pdu[5]?
    if quantity = 0 ∨ 123 < quantity ∨ byteCount ≠ UInt8.ofNat (quantity.toNat * 2) ∨
        pdu.length ≠ 6 + byteCount.toNat then
      return .only (buildException tid uid fcWriteMultipleRegisters excIllegalDataValue)
    else if registerCount < address.toNat + quantity.toNat then
      return .only (buildException tid uid fcWriteMultipleRegisters excIllegalDataAddress)
    else
      let words ← (List.range quantity.toNat).mapM fun i => be16 pdu (6 + 2 * i)
      some
        { response := buildAdu tid uid
            (fcWriteMultipleRegisters :: (putBe16 address ++ putBe16 quantity))
          updates := words.zipIdx.map fun (word, i) => .register (address.toNat + i) word
          sabotage := (List.range quantity.toNat).findSome? fun i =>
            sabotageAt cfg (address.toNat + i) }

/-- `process_pdu`, and the writes of its handler. -/
def processPdu (cfg : Config) (device : Device) (tid : UInt16) (uid : UInt8) (pdu : Bytes) :
    Option (Reply × Device) := do
  let functionCode ← pdu[0]?
  let dispatch : Option Reply :=
    if functionCode = fcReadCoils then handleReadCoils device.plc tid uid pdu
    else if functionCode = fcReadHoldingRegisters then
      handleReadHoldingRegisters device.plc tid uid pdu
    else if functionCode = fcWriteSingleCoil then handleWriteSingleCoil cfg tid uid pdu
    else if functionCode = fcWriteSingleRegister then handleWriteSingleRegister cfg tid uid pdu
    else if functionCode = fcWriteMultipleRegisters then
      handleWriteMultipleRegisters cfg tid uid pdu
    else some (.only (buildException tid uid functionCode excIllegalFunction))
  let device' := if 0 < cfg.errorPercent then device.randomPercent.2 else device
  let reply ←
    if 0 < cfg.errorPercent ∧ device.randomPercent.1 < cfg.errorPercent then
      some (.only (buildException tid uid functionCode excServerDeviceFailure))
    else dispatch
  let plc ← reply.updates.foldlM store device.plc
  return (reply, { device' with plc })

/-! ## No access faults -/

theorem getElem?_eq_getD {α : Type*} {l : List α} {i : Nat} (h : i < l.length) (d : α) :
    l[i]? = some (l.getD i d) := by
  rw [List.getD_eq_getElem?_getD, List.getElem?_eq_getElem h, Option.getD_some]

theorem be16_eq {data : Bytes} {offset : Nat} (h : offset + 2 ≤ data.length) :
    be16 data offset = some (Native.be16 data offset) := by
  have hhigh := getElem?_eq_getD (l := data) (i := offset) (by omega) 0
  have hlow := getElem?_eq_getD (l := data) (i := offset + 1) (by omega) 0
  rw [be16, hhigh, hlow]
  rfl

/-- A checked loop without a fault is the loop. -/
theorem foldlM_eq_some {α β : Type*} {f : β → α → Option β} {g : β → α → β} {P : β → Prop}
    {items : List α} (hstep : ∀ b, P b → ∀ a ∈ items, f b a = some (g b a) ∧ P (g b a))
    {b : β} (hb : P b) : items.foldlM f b = some (items.foldl g b) ∧ P (items.foldl g b) := by
  induction items generalizing b with
  | nil => exact ⟨rfl, hb⟩
  | cons a rest ih =>
      obtain ⟨hf, hg⟩ := hstep b hb a List.mem_cons_self
      obtain ⟨hrest, hend⟩ := ih (fun b hb a ha => hstep b hb a (List.mem_cons_of_mem _ ha)) hg
      rw [List.foldlM_cons, hf]
      exact ⟨hrest, hend⟩

theorem mapM_eq_some {α β : Type*} {f : α → Option β} {g : α → β} {items : List α}
    (h : ∀ a ∈ items, f a = some (g a)) : items.mapM f = some (items.map g) := by
  induction items with
  | nil => rfl
  | cons a rest ih =>
      obtain ⟨ha, hrest⟩ := List.forall_mem_cons.mp h
      rw [List.mapM_cons, ha, ih hrest]
      rfl

theorem coilBits_eq {coils : List Bool} {address quantity : Nat}
    (h : address + quantity ≤ coils.length) :
    coilBits coils address quantity = some (Native.coilBits coils address quantity) ∧
      (Native.coilBits coils address quantity).length = (quantity + 7) / 8 := by
  have hstep : ∀ bytes : Bytes, bytes.length = (quantity + 7) / 8 → ∀ i ∈ List.range quantity,
      coilRound coils address bytes i =
          some (if coils.getD (address + i) false then
            bytes.modify (i / 8) (· ||| (1 <<< UInt8.ofNat (i % 8)))
          else bytes) ∧
        (if coils.getD (address + i) false then
            bytes.modify (i / 8) (· ||| (1 <<< UInt8.ofNat (i % 8)))
          else bytes).length = (quantity + 7) / 8 := by
    intro bytes hbytes i hi
    have hlt := List.mem_range.mp hi
    have hcoil := getElem?_eq_getD (l := coils) (i := address + i) (by omega) false
    have hbyte : i / 8 < bytes.length := by omega
    rw [coilRound, hcoil]
    simp only [Option.bind_eq_bind, Option.bind_some]
    split_ifs
    · exact ⟨rfl, (List.length_modify _ _ _).trans hbytes⟩
    · exact ⟨rfl, hbytes⟩
  exact foldlM_eq_some hstep (List.length_replicate)

theorem handleReadCoils_eq (plc : PlcState) (tid : UInt16) (uid : UInt8) (pdu : Bytes) :
    handleReadCoils plc tid uid pdu = some (Native.handleReadCoils plc tid uid pdu) := by
  unfold handleReadCoils Native.handleReadCoils
  split_ifs with hlength
  · rfl
  · have hlength' : pdu.length = 5 := not_not.mp hlength
    rw [be16_eq (by omega), be16_eq (by omega)]
    simp only [Option.bind_eq_bind, Option.bind_some]
    split_ifs with hquantity hrange
    · rfl
    · rfl
    · have hfit : (Native.be16 pdu 1).toNat + (Native.be16 pdu 3).toNat ≤ plc.coils.length := by
        rw [plc.coils_length]
        exact Nat.not_lt.mp hrange
      rw [(coilBits_eq hfit).1]
      rfl

theorem handleReadHoldingRegisters_eq (plc : PlcState) (tid : UInt16) (uid : UInt8)
    (pdu : Bytes) :
    handleReadHoldingRegisters plc tid uid pdu =
      some (Native.handleReadHoldingRegisters plc tid uid pdu) := by
  unfold handleReadHoldingRegisters Native.handleReadHoldingRegisters
  split_ifs with hlength
  · rfl
  · have hlength' : pdu.length = 5 := not_not.mp hlength
    rw [be16_eq (by omega), be16_eq (by omega)]
    simp only [Option.bind_eq_bind, Option.bind_some]
    split_ifs with hquantity hrange
    · rfl
    · rfl
    · have hfit := Nat.not_lt.mp hrange
      have hregisters := plc.registers_length
      have hwords : ∀ i ∈ List.range (Native.be16 pdu 3).toNat,
          plc.registers[(Native.be16 pdu 1).toNat + i]? =
            some (plc.registers.getD ((Native.be16 pdu 1).toNat + i) 0) := by
        intro i hi
        have hlt := List.mem_range.mp hi
        exact getElem?_eq_getD (by omega) 0
      rw [mapM_eq_some hwords, Option.bind_some, List.flatMap_map]
      rfl

theorem handleWriteSingleCoil_eq (cfg : Config) (tid : UInt16) (uid : UInt8) (pdu : Bytes) :
    handleWriteSingleCoil cfg tid uid pdu =
      some (Native.handleWriteSingleCoil cfg tid uid pdu) := by
  unfold handleWriteSingleCoil Native.handleWriteSingleCoil
  split_ifs with hlength
  · rfl
  · have hlength' : pdu.length = 5 := not_not.mp hlength
    rw [be16_eq (by omega), be16_eq (by omega)]
    simp only [Option.bind_eq_bind, Option.bind_some]
    split_ifs <;> rfl

theorem handleWriteSingleRegister_eq (cfg : Config) (tid : UInt16) (uid : UInt8) (pdu : Bytes) :
    handleWriteSingleRegister cfg tid uid pdu =
      some (Native.handleWriteSingleRegister cfg tid uid pdu) := by
  unfold handleWriteSingleRegister Native.handleWriteSingleRegister
  split_ifs with hlength
  · rfl
  · have hlength' : pdu.length = 5 := not_not.mp hlength
    rw [be16_eq (by omega), be16_eq (by omega)]
    simp only [Option.bind_eq_bind, Option.bind_some]
    split_ifs <;> rfl

/-- The byte count of an accepted write of several registers. -/
theorem byteCount_toNat {quantity : UInt16} (h : ¬ 123 < quantity) :
    (UInt8.ofNat (quantity.toNat * 2)).toNat = quantity.toNat * 2 := by
  have hle : quantity.toNat ≤ 123 := UInt16.le_iff_toNat_le.mp (UInt16.not_lt.mp h)
  rw [UInt8.toNat_ofNat', Nat.mod_eq_of_lt (by omega)]

theorem handleWriteMultipleRegisters_eq (cfg : Config) (tid : UInt16) (uid : UInt8)
    (pdu : Bytes) :
    handleWriteMultipleRegisters cfg tid uid pdu =
      some (Native.handleWriteMultipleRegisters cfg tid uid pdu) := by
  unfold handleWriteMultipleRegisters Native.handleWriteMultipleRegisters
  split_ifs with hlength
  · rfl
  · have hcount := getElem?_eq_getD (l := pdu) (i := 5) (by omega) 0
    rw [be16_eq (by omega), be16_eq (by omega), hcount]
    simp only [Option.bind_eq_bind, Option.bind_some]
    split_ifs with hbad hrange
    · rfl
    · rfl
    · simp only [not_or, not_not] at hbad
      obtain ⟨-, hquantity, hbytes, hwhole⟩ := hbad
      rw [hbytes, byteCount_toNat hquantity] at hwhole
      have hwords : ∀ i ∈ List.range (Native.be16 pdu 3).toNat,
          be16 pdu (6 + 2 * i) = some (Native.be16 pdu (6 + 2 * i)) := by
        intro i hi
        have hlt := List.mem_range.mp hi
        exact be16_eq (by omega)
      rw [mapM_eq_some hwords, Option.bind_some, List.zipIdx_map, List.map_map]
      have hindices : (List.range (Native.be16 pdu 3).toNat).zipIdx =
          (List.range (Native.be16 pdu 3).toNat).map fun i => (i, i) := by
        apply List.ext_getElem
        · rw [List.length_zipIdx, List.length_map]
        · intro n _ _
          rw [List.getElem_zipIdx, List.getElem_map, List.getElem_range, Nat.zero_add]
      rw [hindices, List.map_map]
      rfl

end Checked

/-! ## The register file -/

/-- Two total maps on the addresses of the coils and of the registers. -/
@[ext]
structure RegisterFile where
  coil : Fin coilCount → Bool
  register : Fin registerCount → UInt16

/-- The arrays as maps. -/
def PlcState.file (plc : PlcState) : RegisterFile where
  coil address := plc.coils.getD address false
  register address := plc.registers.getD address 0

/-- A PDU and the ids of its frame. -/
structure Request where
  transactionId : UInt16
  unitId : UInt8
  pdu : Bytes

/-- The function code of a request. -/
def Request.functionCode (r : Request) : UInt8 := r.pdu.headD 0

/-- The address that a request begins with. -/
def Request.address (r : Request) : Nat := (be16 r.pdu 1).toNat

/-- The second word of a request, as a quantity. -/
def Request.quantity (r : Request) : Nat := (be16 r.pdu 3).toNat

/-- The maps after a successful request. -/
def RegisterFile.write (file : RegisterFile) (r : Request) : RegisterFile :=
  if r.functionCode = fcWriteSingleCoil then
    { file with
      coil := fun a => if a.val = r.address then be16 r.pdu 3 == 0xFF00 else file.coil a }
  else if r.functionCode = fcWriteSingleRegister then
    { file with
      register := fun a => if a.val = r.address then be16 r.pdu 3 else file.register a }
  else if r.functionCode = fcWriteMultipleRegisters then
    { file with
      register := fun a =>
        if r.address ≤ a.val ∧ a.val < r.address + r.quantity then
          be16 r.pdu (6 + 2 * (a.val - r.address))
        else file.register a }
  else file

/-- The function is one of the five. -/
def Request.Known (r : Request) : Prop :=
  r.functionCode ∈ [fcReadCoils, fcReadHoldingRegisters, fcWriteSingleCoil, fcWriteSingleRegister,
    fcWriteMultipleRegisters]

instance (r : Request) : Decidable r.Known := inferInstanceAs (Decidable (_ ∈ _))

/-- The request has the length that its function asks for, and a quantity or a value in the
bounds of it. -/
def Request.WellFormed (r : Request) : Prop :=
  if r.functionCode = fcReadCoils then r.pdu.length = 5 ∧ 1 ≤ r.quantity ∧ r.quantity ≤ 2000
  else if r.functionCode = fcReadHoldingRegisters then
    r.pdu.length = 5 ∧ 1 ≤ r.quantity ∧ r.quantity ≤ 125
  else if r.functionCode = fcWriteSingleCoil then
    r.pdu.length = 5 ∧ (be16 r.pdu 3 = 0x0000 ∨ be16 r.pdu 3 = 0xFF00)
  else if r.functionCode = fcWriteSingleRegister then r.pdu.length = 5
  else
    r.pdu.length = 6 + 2 * r.quantity ∧ (r.pdu.getD 5 0).toNat = 2 * r.quantity ∧
      1 ≤ r.quantity ∧ r.quantity ≤ 123

instance (r : Request) : Decidable r.WellFormed :=
  @instDecidableIte _ _ _ _ inferInstance <| @instDecidableIte _ _ _ _ inferInstance <|
    @instDecidableIte _ _ _ _ inferInstance inferInstance

/-- How many coils or registers the request addresses. -/
def Request.count (r : Request) : Nat :=
  if r.functionCode = fcWriteSingleCoil ∨ r.functionCode = fcWriteSingleRegister then 1
  else r.quantity

/-- They are all in their array. -/
def Request.InRange (r : Request) : Prop :=
  r.address + r.count ≤
    if r.functionCode = fcReadCoils ∨ r.functionCode = fcWriteSingleCoil then coilCount
    else registerCount

instance (r : Request) : Decidable r.InRange := inferInstanceAs (Decidable (_ ≤ _))

/-- The exception with which a device refuses the request, if it does. -/
def Request.refusal (r : Request) : Option UInt8 :=
  if ¬ r.Known then some excIllegalFunction
  else if ¬ r.WellFormed then some excIllegalDataValue
  else if ¬ r.InRange then some excIllegalDataAddress
  else none

/-- The maps after a request: it is refused and changes nothing, or it succeeds. -/
def RegisterFile.after (file : RegisterFile) (r : Request) : RegisterFile :=
  if r.refusal = none then file.write r else file

/-- The function code of a response has the bit of an exception. -/
def IsException (response : Bytes) : Prop := response.getD mbapHeaderLen 0 &&& 0x80 ≠ 0

instance (response : Bytes) : Decidable (IsException response) :=
  inferInstanceAs (Decidable (_ ≠ _))

/-- A frame of the ids of a request, whose length field counts the bytes that follow it. -/
structure IsFrame (r : Request) (response : Bytes) : Prop where
  length_le : response.length ≤ 260
  header : parseMbap response =
    some ⟨r.transactionId.toNat, 0, response.length - 6, r.unitId.toNat⟩

/-- The bit of a packed coil. -/
def packedBit (packed : Bytes) (i : Nat) : Bool := (packed.getD (i / 8) 0).toNat.testBit (i % 8)

/-- What a response to a request has to be: a frame, and in it the exception of a request that
is refused, and otherwise the values of the addressed registers in order, the addressed coils
with the least significant bit first and zeros behind them, or the address of a write with its
value or its quantity. -/
structure RegisterFile.Answers (file : RegisterFile) (r : Request) (response : Bytes) : Prop where
  frame : IsFrame r response
  exception_iff : IsException response ↔ r.refusal ≠ none
  exception : ∀ code, r.refusal = some code →
    response.drop mbapHeaderLen = [r.functionCode ||| 0x80, code]
  registers : r.functionCode = fcReadHoldingRegisters → r.refusal = none →
    ∃ h : r.address + r.quantity ≤ registerCount,
      response.drop mbapHeaderLen =
        fcReadHoldingRegisters :: UInt8.ofNat (r.quantity * 2) ::
          (List.finRange r.quantity).flatMap fun i =>
            putBe16 (file.register (Fin.castLE h (Fin.natAdd r.address i)))
  coils : r.functionCode = fcReadCoils → r.refusal = none →
    ∃ (h : r.address + r.quantity ≤ coilCount) (packed : Bytes),
      response.drop mbapHeaderLen =
        fcReadCoils :: UInt8.ofNat ((r.quantity + 7) / 8) :: packed ∧
      packed.length = (r.quantity + 7) / 8 ∧
      (∀ i : Fin r.quantity,
        packedBit packed i = file.coil (Fin.castLE h (Fin.natAdd r.address i))) ∧
      ∀ i, r.quantity ≤ i → i < 8 * packed.length → packedBit packed i = false
  echo : r.functionCode = fcWriteSingleCoil ∨ r.functionCode = fcWriteSingleRegister →
    r.refusal = none → response.drop mbapHeaderLen = r.pdu
  written : r.functionCode = fcWriteMultipleRegisters → r.refusal = none →
    response.drop mbapHeaderLen =
      fcWriteMultipleRegisters :: (toBytes r.address ++ toBytes r.quantity)

/-- A write is within its array. -/
def Update.InBounds : Update → Prop
  | .coil address _ => address < coilCount
  | .register address _ => address < registerCount

/-- What a reply to a request has to be. -/
structure Reply.Serves (plc : PlcState) (r : Request) (reply : Reply) : Prop where
  inBounds : ∀ u ∈ reply.updates, u.InBounds
  file : (reply.updates.foldl PlcState.update plc).file = plc.file.after r
  answers : plc.file.Answers r reply.response

/-! ## Refusals -/

section Refusal

variable {r : Request}

theorem refusal_malformed (hknown : r.Known) (h : ¬ r.WellFormed) :
    r.refusal = some excIllegalDataValue := by
  rw [Request.refusal, if_neg (not_not.mpr hknown), if_pos h]

theorem refusal_outside (hknown : r.Known) (hformed : r.WellFormed) (h : ¬ r.InRange) :
    r.refusal = some excIllegalDataAddress := by
  rw [Request.refusal, if_neg (not_not.mpr hknown), if_neg (not_not.mpr hformed), if_pos h]

theorem refusal_none (hknown : r.Known) (hformed : r.WellFormed) (hrange : r.InRange) :
    r.refusal = none := by
  rw [Request.refusal, if_neg (not_not.mpr hknown), if_neg (not_not.mpr hformed),
    if_neg (not_not.mpr hrange)]

theorem wellFormed_readCoils (h : r.functionCode = fcReadCoils) :
    r.WellFormed ↔ r.pdu.length = 5 ∧ 1 ≤ r.quantity ∧ r.quantity ≤ 2000 := by
  rw [Request.WellFormed, if_pos h]

theorem wellFormed_readHoldingRegisters (h : r.functionCode = fcReadHoldingRegisters) :
    r.WellFormed ↔ r.pdu.length = 5 ∧ 1 ≤ r.quantity ∧ r.quantity ≤ 125 := by
  rw [Request.WellFormed, h, if_neg (by decide), if_pos rfl]

theorem wellFormed_writeSingleCoil (h : r.functionCode = fcWriteSingleCoil) :
    r.WellFormed ↔ r.pdu.length = 5 ∧ (be16 r.pdu 3 = 0x0000 ∨ be16 r.pdu 3 = 0xFF00) := by
  rw [Request.WellFormed, h, if_neg (by decide), if_neg (by decide), if_pos rfl]

theorem wellFormed_writeSingleRegister (h : r.functionCode = fcWriteSingleRegister) :
    r.WellFormed ↔ r.pdu.length = 5 := by
  rw [Request.WellFormed, h, if_neg (by decide), if_neg (by decide), if_neg (by decide), if_pos rfl]

theorem wellFormed_writeMultipleRegisters (h : r.functionCode = fcWriteMultipleRegisters) :
    r.WellFormed ↔ r.pdu.length = 6 + 2 * r.quantity ∧ (r.pdu.getD 5 0).toNat = 2 * r.quantity ∧
      1 ≤ r.quantity ∧ r.quantity ≤ 123 := by
  rw [Request.WellFormed, h, if_neg (by decide), if_neg (by decide), if_neg (by decide),
    if_neg (by decide)]

/-- A single write addresses one coil or register. -/
theorem inRange_single
    (h : r.functionCode = fcWriteSingleCoil ∨ r.functionCode = fcWriteSingleRegister) :
    r.InRange ↔ r.address <
      if r.functionCode = fcReadCoils ∨ r.functionCode = fcWriteSingleCoil then coilCount
      else registerCount := by
  rw [Request.InRange, Request.count, if_pos h, Nat.succ_le_iff]

/-- Every other request addresses as many as its quantity says. -/
theorem inRange_several
    (h : ¬ (r.functionCode = fcWriteSingleCoil ∨ r.functionCode = fcWriteSingleRegister)) :
    r.InRange ↔ r.address + r.quantity ≤
      if r.functionCode = fcReadCoils ∨ r.functionCode = fcWriteSingleCoil then coilCount
      else registerCount := by
  rw [Request.InRange, Request.count, if_neg h]

/-- The bounds of a quantity, as the handlers check them. -/
theorem quantity_bad_iff (r : Request) (most : UInt16) :
    (be16 r.pdu 3 = 0 ∨ most < be16 r.pdu 3) ↔ ¬ (1 ≤ r.quantity ∧ r.quantity ≤ most.toNat) := by
  rw [← UInt16.toNat_inj, UInt16.lt_iff_toNat_lt]
  change (r.quantity = 0 ∨ most.toNat < r.quantity) ↔ _
  omega

/-- The byte count, the quantity and the length of a write of several registers, as the handler
checks them. -/
theorem payload_bad_iff (r : Request) :
    (be16 r.pdu 3 = 0 ∨ 123 < be16 r.pdu 3 ∨
      r.pdu.getD 5 0 ≠ UInt8.ofNat ((be16 r.pdu 3).toNat * 2) ∨
        r.pdu.length ≠ 6 + (r.pdu.getD 5 0).toNat) ↔
    ¬ (r.pdu.length = 6 + 2 * r.quantity ∧ (r.pdu.getD 5 0).toNat = 2 * r.quantity ∧
      1 ≤ r.quantity ∧ r.quantity ≤ 123) := by
  rw [← or_assoc, quantity_bad_iff]
  change (¬ (1 ≤ r.quantity ∧ r.quantity ≤ 123) ∨ r.pdu.getD 5 0 ≠ UInt8.ofNat (r.quantity * 2) ∨
    _) ↔ _
  by_cases hbounds : 1 ≤ r.quantity ∧ r.quantity ≤ 123
  · have hcount : r.pdu.getD 5 0 = UInt8.ofNat (r.quantity * 2) ↔
        (r.pdu.getD 5 0).toNat = r.quantity * 2 := by
      rw [← UInt8.toNat_inj, UInt8.toNat_ofNat', Nat.mod_eq_of_lt (by omega)]
    rw [ne_eq, hcount]
    omega
  · exact iff_of_true (.inl hbounds) fun h => hbounds h.2.2

end Refusal

/-! ## Frames -/

theorem buildAdu_length (tid : UInt16) (uid : UInt8) (pdu : Bytes) :
    (buildAdu tid uid pdu).length = 7 + pdu.length := by
  simp only [buildAdu, putBe16, List.length_append, List.length_cons, List.length_nil]

theorem buildAdu_drop (tid : UInt16) (uid : UInt8) (pdu : Bytes) :
    (buildAdu tid uid pdu).drop mbapHeaderLen = pdu := rfl

theorem isException_buildAdu (tid : UInt16) (uid : UInt8) (pdu : Bytes) :
    IsException (buildAdu tid uid pdu) ↔ pdu.headD 0 &&& 0x80 ≠ 0 := by
  cases pdu <;> rfl

theorem isFrame_buildAdu (r : Request) {pdu : Bytes} (hpos : 1 ≤ pdu.length)
    (hle : pdu.length ≤ 253) : IsFrame r (buildAdu r.transactionId r.unitId pdu) := by
  have hlength := buildAdu_length r.transactionId r.unitId pdu
  refine ⟨by omega, ?_⟩
  let request : Modbus.Request :=
    { transactionId := r.transactionId.toNat
      transactionId_lt := r.transactionId.toNat_lt
      unitId := r.unitId.toNat
      unitId_lt := r.unitId.toNat_lt
      pdu := pdu
      pdu_pos := hpos
      pdu_le := hle }
  have hbytes : buildAdu r.transactionId r.unitId pdu = request.bytes := by
    have hadu := buildAdu_eq r.transactionId.toNat_lt r.unitId.toNat_lt hle
    rw [UInt16.ofNat_toNat, UInt8.ofNat_toNat] at hadu
    exact hadu
  have hparse := parseMbap_bytes request []
  rw [List.append_nil, ← hbytes] at hparse
  have hfield : request.pdu.length + 1 = (buildAdu r.transactionId r.unitId pdu).length - 6 := by
    rw [hlength]
    change pdu.length + 1 = 7 + pdu.length - 6
    omega
  rw [hparse, Modbus.Request.header, hfield]
  rfl

theorem not_isException_buildAdu (tid : UInt16) (uid : UInt8) {functionCode : UInt8}
    (h : functionCode &&& 0x80 = 0) (data : Bytes) :
    ¬ IsException (buildAdu tid uid (functionCode :: data)) := fun hexception =>
  (isException_buildAdu tid uid (functionCode :: data)).mp hexception h

/-- The frame of a read. -/
theorem isFrame_read (r : Request) (functionCode byteCount : UInt8) {data : Bytes}
    (hle : data.length ≤ 250) :
    IsFrame r (buildAdu r.transactionId r.unitId (functionCode :: byteCount :: data)) := by
  apply isFrame_buildAdu r
  · exact Nat.succ_pos _
  · rw [List.length_cons, List.length_cons]
    omega

theorem or_land_ne_zero (functionCode : UInt8) : (functionCode ||| 0x80) &&& 0x80 ≠ 0 := by
  intro hzero
  have hbits := congrArg (fun b : UInt8 => b.toNat.testBit 7) hzero
  simp only [UInt8.toNat_and, UInt8.toNat_or, Nat.testBit_and, Nat.testBit_or] at hbits
  have hbit : Nat.testBit (128 : UInt8).toNat 7 = true := by decide
  rw [hbit, Bool.or_true] at hbits
  cases hbits

/-- An exception changes nothing and carries its code only. -/
theorem serves_exception (plc : PlcState) {r : Request} {code : UInt8}
    (h : r.refusal = some code) :
    (Reply.only (buildException r.transactionId r.unitId r.functionCode code)).Serves plc r := by
  have hrefused : r.refusal ≠ none := by
    rw [h]
    exact Option.some_ne_none code
  refine ⟨fun u hu => absurd hu List.not_mem_nil, ?_, ?_, ?_, ?_, ?_, ?_, ?_, ?_⟩
  · rw [RegisterFile.after, if_neg hrefused]
    rfl
  · exact isFrame_buildAdu r (Nat.succ_pos 1) (Nat.le_of_ble_eq_true rfl)
  · exact iff_of_true (or_land_ne_zero r.functionCode) hrefused
  · intro code' hcode
    obtain rfl := Option.some.inj (h.symm.trans hcode)
    exact buildAdu_drop _ _ _
  · exact fun _ hnone => absurd hnone hrefused
  · exact fun _ hnone => absurd hnone hrefused
  · exact fun _ hnone => absurd hnone hrefused
  · exact fun _ hnone => absurd hnone hrefused

/-! ## Reads -/

theorem write_of_read {r : Request}
    (h : r.functionCode = fcReadCoils ∨ r.functionCode = fcReadHoldingRegisters)
    (file : RegisterFile) : file.write r = file := by
  unfold RegisterFile.write
  obtain h | h := h <;> rw [h] <;> rfl

theorem serves_readHoldingRegisters (plc : PlcState) {r : Request}
    (hfc : r.functionCode = fcReadHoldingRegisters) :
    (handleReadHoldingRegisters plc r.transactionId r.unitId r.pdu).Serves plc r := by
  have hexception := fun code => @serves_exception plc r code
  rw [hfc] at hexception
  have hknown : r.Known := by
    rw [Request.Known, hfc]
    decide
  have hformed := wellFormed_readHoldingRegisters hfc
  have hinRange : r.InRange ↔ r.address + r.quantity ≤ registerCount := by
    rw [inRange_several (by rw [hfc]; decide), hfc]
    rfl
  unfold handleReadHoldingRegisters
  dsimp only
  split_ifs with hlength hquantity hrange
  · exact hexception _ (refusal_malformed hknown fun h => hlength (hformed.mp h).1)
  · refine hexception _ (refusal_malformed hknown fun h => ?_)
    exact (quantity_bad_iff r 125).mp hquantity (hformed.mp h).2
  · have hbounds := not_not.mp (mt (quantity_bad_iff r 125).mpr hquantity)
    refine hexception _ (refusal_outside hknown (hformed.mpr ⟨not_not.mp hlength, hbounds⟩) ?_)
    exact mt hinRange.mp (Nat.not_le.mpr hrange)
  · have hfit : r.address + r.quantity ≤ registerCount := Nat.not_lt.mp hrange
    have hle : r.quantity ≤ 125 :=
      UInt16.le_iff_toNat_le.mp (UInt16.not_lt.mp (not_or.mp hquantity).2)
    have hwords : ((List.range r.quantity).flatMap fun i =>
        putBe16 (plc.registers.getD (r.address + i) 0)) =
          (List.finRange r.quantity).flatMap fun i =>
            putBe16 (plc.file.register (Fin.castLE hfit (Fin.natAdd r.address i))) := by
      rw [← List.map_coe_finRange_eq_range, List.flatMap_map]
      rfl
    have hsize : ((List.range r.quantity).flatMap fun i =>
        putBe16 (plc.registers.getD (r.address + i) 0)).length = r.quantity * 2 := by
      rw [List.length_flatMap]
      simp only [putBe16, List.length_cons, List.length_nil, List.map_const',
        List.sum_replicate_nat, List.length_range]
    have hbounds := not_not.mp (mt (quantity_bad_iff r 125).mpr hquantity)
    have hnone := refusal_none hknown (hformed.mpr ⟨not_not.mp hlength, hbounds⟩)
      (hinRange.mpr hfit)
    refine ⟨fun u hu => absurd hu List.not_mem_nil, ?_, ?_, ?_, ?_, ?_, ?_, ?_, ?_⟩
    · rw [RegisterFile.after, write_of_read (.inr hfc), ite_self]
      rfl
    · exact isFrame_read r _ _ (hsize.trans_le (by omega))
    · exact iff_of_false (not_isException_buildAdu _ _ rfl _) (not_not.mpr hnone)
    · exact fun code h => absurd (hnone.symm.trans h) (by simp)
    · exact fun _ _ => ⟨hfit, congrArg (fcReadHoldingRegisters :: _ :: ·) hwords⟩
    · exact fun h => absurd (hfc.symm.trans h) (by decide)
    · exact fun h => absurd h (by rw [hfc]; decide)
    · exact fun h => absurd (hfc.symm.trans h) (by decide)

/-- One round of the loop sets one bit. -/
theorem packedBit_modify {bytes : Bytes} {i : Nat} (h : i < 8 * bytes.length) (k : Nat) :
    packedBit (bytes.modify (i / 8) (· ||| (1 <<< UInt8.ofNat (i % 8)))) k =
      (packedBit bytes k || decide (k = i)) := by
  have hmask : ∀ m < 8, ∀ j < 8,
      ((1 : UInt8) <<< UInt8.ofNat m).toNat.testBit j = decide (j = m) := by decide
  have hbyte : i / 8 < bytes.length := by omega
  unfold packedBit
  rw [List.getD_eq_getElem?_getD, List.getD_eq_getElem?_getD, List.getElem?_modify]
  by_cases hsame : i / 8 = k / 8
  · have hbit := hmask (i % 8) (Nat.mod_lt _ (by decide)) (k % 8) (Nat.mod_lt _ (by decide))
    have hindex : (k % 8 = i % 8) ↔ k = i := by omega
    rw [← hsame, List.getElem?_eq_getElem hbyte]
    simp only [if_true, Option.map_eq_map, Option.map_some, Option.getD_some, UInt8.toNat_or, Nat.testBit_or, hbit,
      hindex]
  · have hne : k ≠ i := by
      rintro rfl
      exact hsame rfl
    simp only [if_neg hsame, Option.map_eq_map, Option.map_id', decide_eq_false hne, Bool.or_false]

/-- The packed bits are the coils, with zeros behind them. -/
theorem packedBit_coilBits (coils : List Bool) (address quantity k : Nat) :
    packedBit (coilBits coils address quantity) k =
      (decide (k < quantity) && coils.getD (address + k) false) := by
  have hzero : packedBit (List.replicate ((quantity + 7) / 8) 0) k = false := by
    unfold packedBit
    rw [List.getD_eq_getElem?_getD, List.getElem?_replicate]
    split_ifs <;> exact Nat.zero_testBit _
  have hround : ∀ n ≤ quantity,
      ((List.range n).foldl
        (fun bytes i =>
          if coils.getD (address + i) false then
            bytes.modify (i / 8) (· ||| (1 <<< UInt8.ofNat (i % 8)))
          else bytes)
        (List.replicate ((quantity + 7) / 8) 0)).length = (quantity + 7) / 8 ∧
      packedBit ((List.range n).foldl
        (fun bytes i =>
          if coils.getD (address + i) false then
            bytes.modify (i / 8) (· ||| (1 <<< UInt8.ofNat (i % 8)))
          else bytes)
        (List.replicate ((quantity + 7) / 8) 0)) k =
          (decide (k < n) && coils.getD (address + k) false) := by
    intro n hn
    induction n with
    | zero => exact ⟨List.length_replicate, hzero⟩
    | succ n ih =>
        obtain ⟨hlength, hbits⟩ := ih (by omega)
        rw [List.range_succ, List.foldl_append, List.foldl_cons, List.foldl_nil]
        by_cases hcoil : coils.getD (address + n) false = true
        · rw [if_pos hcoil]
          refine ⟨(List.length_modify _ _ _).trans hlength, ?_⟩
          rw [packedBit_modify (by omega), hbits]
          by_cases hk : k = n
          · subst hk
            rw [hcoil]
            simp
          · have hlt : k < n + 1 ↔ k < n := by omega
            simp [hk, hlt]
        · rw [if_neg hcoil]
          refine ⟨hlength, ?_⟩
          rw [hbits]
          by_cases hk : k = n
          · subst hk
            rw [Bool.eq_false_of_not_eq_true hcoil]
            simp
          · have hlt : k < n + 1 ↔ k < n := by omega
            simp [hlt]
  exact (hround quantity le_rfl).2

theorem serves_readCoils (plc : PlcState) {r : Request} (hfc : r.functionCode = fcReadCoils) :
    (handleReadCoils plc r.transactionId r.unitId r.pdu).Serves plc r := by
  have hexception := fun code => @serves_exception plc r code
  rw [hfc] at hexception
  have hknown : r.Known := by
    rw [Request.Known, hfc]
    decide
  have hformed := wellFormed_readCoils hfc
  have hinRange : r.InRange ↔ r.address + r.quantity ≤ coilCount := by
    rw [inRange_several (by rw [hfc]; decide), hfc]
    rfl
  unfold handleReadCoils
  dsimp only
  split_ifs with hlength hquantity hrange
  · exact hexception _ (refusal_malformed hknown fun h => hlength (hformed.mp h).1)
  · refine hexception _ (refusal_malformed hknown fun h => ?_)
    exact (quantity_bad_iff r 2000).mp hquantity (hformed.mp h).2
  · have hbounds := not_not.mp (mt (quantity_bad_iff r 2000).mpr hquantity)
    refine hexception _ (refusal_outside hknown (hformed.mpr ⟨not_not.mp hlength, hbounds⟩) ?_)
    exact mt hinRange.mp (Nat.not_le.mpr hrange)
  · have hfit : r.address + r.quantity ≤ coilCount := Nat.not_lt.mp hrange
    have hcoils : r.address + r.quantity ≤ plc.coils.length := by
      rw [plc.coils_length]
      exact hfit
    have hsize := (Checked.coilBits_eq hcoils).2
    have hbits := packedBit_coilBits plc.coils r.address r.quantity
    have hbounds := not_not.mp (mt (quantity_bad_iff r 2000).mpr hquantity)
    have hnone := refusal_none hknown (hformed.mpr ⟨not_not.mp hlength, hbounds⟩)
      (hinRange.mpr hfit)
    refine ⟨fun u hu => absurd hu List.not_mem_nil, ?_, ?_, ?_, ?_, ?_, ?_, ?_, ?_⟩
    · rw [RegisterFile.after, write_of_read (.inl hfc), ite_self]
      rfl
    · have hsmall : (r.quantity + 7) / 8 ≤ 32 := by
        unfold coilCount at hfit
        omega
      exact isFrame_read r _ _ (hsize.trans_le (by omega))
    · exact iff_of_false (not_isException_buildAdu _ _ rfl _) (not_not.mpr hnone)
    · exact fun code h => absurd (hnone.symm.trans h) (by simp)
    · exact fun h => absurd (hfc.symm.trans h) (by decide)
    · refine fun _ _ => ⟨hfit, _, rfl, hsize, ?_, ?_⟩
      · intro i
        exact (hbits i).trans (by rw [decide_eq_true i.isLt, Bool.true_and]; rfl)
      · intro i hi _
        exact (hbits i).trans (by rw [decide_eq_false (Nat.not_lt.mpr hi), Bool.false_and])
    · exact fun h => absurd h (by rw [hfc]; decide)
    · exact fun h => absurd (hfc.symm.trans h) (by decide)

/-! ## Writes -/

theorem file_coil {plc : PlcState} {address : Nat} (h : address < coilCount) (value : Bool) :
    (plc.update (.coil address value)).file =
      { plc.file with coil := fun a => if a.val = address then value else plc.file.coil a } := by
  apply RegisterFile.ext
  · funext a
    have hbound : address < plc.coils.length := h.trans_eq plc.coils_length.symm
    simp only [PlcState.file, PlcState.update, List.getD_eq_getElem?_getD, List.getElem?_set]
    by_cases ha : a.val = address
    · rw [if_pos ha, if_pos ha.symm, if_pos (ha ▸ hbound)]
      rfl
    · rw [if_neg ha, if_neg (Ne.symm ha)]
  · rfl

theorem file_register {plc : PlcState} {address : Nat} (h : address < registerCount)
    (value : UInt16) :
    (plc.update (.register address value)).file =
      { plc.file with
        register := fun a => if a.val = address then value else plc.file.register a } := by
  apply RegisterFile.ext
  · rfl
  · funext a
    have hbound : address < plc.registers.length := h.trans_eq plc.registers_length.symm
    simp only [PlcState.file, PlcState.update, List.getD_eq_getElem?_getD, List.getElem?_set]
    by_cases ha : a.val = address
    · rw [if_pos ha, if_pos ha.symm, if_pos (ha ▸ hbound)]
      rfl
    · rw [if_neg ha, if_neg (Ne.symm ha)]

/-- The registers after a write of several. -/
theorem file_registers {plc : PlcState} {address quantity : Nat}
    (h : address + quantity ≤ registerCount) (words : Nat → UInt16) :
    (((List.range quantity).map fun i => Update.register (address + i) (words i)).foldl
        PlcState.update plc).file =
      { plc.file with
        register := fun a =>
          if address ≤ a.val ∧ a.val < address + quantity then words (a.val - address)
          else plc.file.register a } := by
  induction quantity with
  | zero =>
      apply RegisterFile.ext
      · rfl
      · funext a
        dsimp only
        rw [if_neg (by omega)]
        rfl
  | succ n ih =>
      have hprevious := ih (by omega)
      rw [List.range_succ, List.map_append, List.foldl_append, List.map_cons, List.map_nil,
        List.foldl_cons, List.foldl_nil, file_register (by omega), hprevious]
      apply RegisterFile.ext
      · rfl
      · funext a
        dsimp only
        by_cases ha : a.val = address + n
        · rw [if_pos ha, if_pos (by omega), ha, Nat.add_sub_cancel_left]
        · rw [if_neg ha]
          by_cases hbefore : address ≤ a.val ∧ a.val < address + n
          · rw [if_pos hbefore, if_pos (by omega)]
          · rw [if_neg hbefore, if_neg (by omega)]

/-- What a write has to do to serve its request. -/
theorem serves_write {plc : PlcState} {r : Request} {reply : Reply} {pdu : Bytes}
    (hnone : r.refusal = none)
    (hresponse : reply.response = buildAdu r.transactionId r.unitId pdu)
    (hhead : pdu.headD 0 &&& 0x80 = 0) (hpos : 1 ≤ pdu.length) (hle : pdu.length ≤ 253)
    (hread : r.functionCode ≠ fcReadCoils ∧ r.functionCode ≠ fcReadHoldingRegisters)
    (hecho : r.functionCode = fcWriteSingleCoil ∨ r.functionCode = fcWriteSingleRegister →
      pdu = r.pdu)
    (hwritten : r.functionCode = fcWriteMultipleRegisters →
      pdu = fcWriteMultipleRegisters :: (toBytes r.address ++ toBytes r.quantity))
    (hbounds : ∀ u ∈ reply.updates, u.InBounds)
    (hfile : (reply.updates.foldl PlcState.update plc).file = plc.file.write r) :
    reply.Serves plc r := by
  have hsuccess : ¬ IsException reply.response := by
    rw [hresponse, isException_buildAdu]
    exact not_not.mpr hhead
  have hdata : reply.response.drop mbapHeaderLen = pdu := by
    rw [hresponse]
    exact buildAdu_drop _ _ _
  refine ⟨hbounds, ?_, ?_, ?_, ?_, ?_, ?_, ?_, ?_⟩
  · rw [RegisterFile.after, if_pos hnone, hfile]
  · rw [hresponse]
    exact isFrame_buildAdu r hpos hle
  · exact iff_of_false hsuccess (not_not.mpr hnone)
  · exact fun code h => absurd (hnone.symm.trans h) (by simp)
  · exact fun h => absurd h hread.2
  · exact fun h => absurd h hread.1
  · exact fun h _ => hdata.trans (hecho h)
  · exact fun h _ => hdata.trans (hwritten h)

theorem serves_writeSingleCoil (cfg : Config) (plc : PlcState) {r : Request}
    (hfc : r.functionCode = fcWriteSingleCoil) :
    (handleWriteSingleCoil cfg r.transactionId r.unitId r.pdu).Serves plc r := by
  have hexception := fun code => @serves_exception plc r code
  rw [hfc] at hexception
  have hknown : r.Known := by
    rw [Request.Known, hfc]
    decide
  have hformed := wellFormed_writeSingleCoil hfc
  have hinRange : r.InRange ↔ r.address < coilCount := by
    rw [inRange_single (.inl hfc), hfc]
    rfl
  unfold handleWriteSingleCoil
  dsimp only
  split_ifs with hlength hvalue hrange
  · exact hexception _ (refusal_malformed hknown fun h => hlength (hformed.mp h).1)
  · refine hexception _ (refusal_malformed hknown fun h => ?_)
    exact (hformed.mp h).2.elim hvalue.1 hvalue.2
  · have hvalue' := or_iff_not_and_not.mpr hvalue
    refine hexception _ (refusal_outside hknown (hformed.mpr ⟨not_not.mp hlength, hvalue'⟩) ?_)
    exact mt hinRange.mp (Nat.not_lt.mpr hrange)
  · have hlength' : r.pdu.length = 5 := not_not.mp hlength
    have hbound : r.address < coilCount := Nat.not_le.mp hrange
    have hhead : r.pdu.headD 0 = fcWriteSingleCoil := hfc
    have hvalue' := or_iff_not_and_not.mpr hvalue
    have hnone := refusal_none hknown (hformed.mpr ⟨hlength', hvalue'⟩) (hinRange.mpr hbound)
    refine serves_write hnone rfl ?_ (by omega) (by omega) ?_ (fun _ => rfl) ?_ ?_ ?_
    · rw [hhead]
      rfl
    · rw [hfc]
      decide
    · exact fun h => absurd (hfc.symm.trans h) (by decide)
    · exact List.forall_mem_singleton.mpr hbound
    · rw [RegisterFile.write, if_pos hfc]
      exact file_coil hbound _

theorem serves_writeSingleRegister (cfg : Config) (plc : PlcState) {r : Request}
    (hfc : r.functionCode = fcWriteSingleRegister) :
    (handleWriteSingleRegister cfg r.transactionId r.unitId r.pdu).Serves plc r := by
  have hexception := fun code => @serves_exception plc r code
  rw [hfc] at hexception
  have hknown : r.Known := by
    rw [Request.Known, hfc]
    decide
  have hformed := wellFormed_writeSingleRegister hfc
  have hinRange : r.InRange ↔ r.address < registerCount := by
    rw [inRange_single (.inr hfc), hfc]
    rfl
  unfold handleWriteSingleRegister
  dsimp only
  split_ifs with hlength hrange
  · exact hexception _ (refusal_malformed hknown (mt hformed.mp hlength))
  · refine hexception _ (refusal_outside hknown (hformed.mpr (not_not.mp hlength)) ?_)
    exact mt hinRange.mp (Nat.not_lt.mpr hrange)
  · have hlength' : r.pdu.length = 5 := not_not.mp hlength
    have hbound : r.address < registerCount := Nat.not_le.mp hrange
    have hhead : r.pdu.headD 0 = fcWriteSingleRegister := hfc
    have hother : r.functionCode ≠ fcWriteSingleCoil := by
      rw [hfc]
      decide
    have hnone := refusal_none hknown (hformed.mpr hlength') (hinRange.mpr hbound)
    refine serves_write hnone rfl ?_ (by omega) (by omega) ?_ (fun _ => rfl) ?_ ?_ ?_
    · rw [hhead]
      rfl
    · rw [hfc]
      decide
    · exact fun h => absurd (hfc.symm.trans h) (by decide)
    · exact List.forall_mem_singleton.mpr hbound
    · rw [RegisterFile.write, if_neg hother, if_pos hfc]
      exact file_register hbound _

theorem serves_writeMultipleRegisters (cfg : Config) (plc : PlcState) {r : Request}
    (hfc : r.functionCode = fcWriteMultipleRegisters) :
    (handleWriteMultipleRegisters cfg r.transactionId r.unitId r.pdu).Serves plc r := by
  have hexception := fun code => @serves_exception plc r code
  rw [hfc] at hexception
  have hknown : r.Known := by
    rw [Request.Known, hfc]
    decide
  have hformed := wellFormed_writeMultipleRegisters hfc
  have hinRange : r.InRange ↔ r.address + r.quantity ≤ registerCount := by
    rw [inRange_several (by rw [hfc]; decide), hfc]
    rfl
  unfold handleWriteMultipleRegisters
  dsimp only
  split_ifs with hlength hbad hrange
  · refine hexception _ (refusal_malformed hknown fun h => ?_)
    obtain ⟨hwhole, -⟩ := hformed.mp h
    omega
  · refine hexception _ (refusal_malformed hknown fun h => ?_)
    exact (payload_bad_iff r).mp hbad (hformed.mp h)
  · have hpayload := not_not.mp (mt (payload_bad_iff r).mpr hbad)
    refine hexception _ (refusal_outside hknown (hformed.mpr hpayload) ?_)
    exact mt hinRange.mp (Nat.not_le.mpr hrange)
  · have hfit : r.address + r.quantity ≤ registerCount := Nat.not_lt.mp hrange
    have hcoil : r.functionCode ≠ fcWriteSingleCoil := by
      rw [hfc]
      decide
    have hregister : r.functionCode ≠ fcWriteSingleRegister := by
      rw [hfc]
      decide
    have hpayload := not_not.mp (mt (payload_bad_iff r).mpr hbad)
    have hnone := refusal_none hknown (hformed.mpr hpayload) (hinRange.mpr hfit)
    refine serves_write hnone rfl ?_ (Nat.succ_pos _) (Nat.le_of_ble_eq_true rfl) ?_ ?_ ?_ ?_ ?_
    · change fcWriteMultipleRegisters &&& 0x80 = 0
      decide
    · rw [hfc]
      decide
    · exact fun h => absurd h (by rw [hfc]; decide)
    · exact fun _ => by rw [putBe16_eq, putBe16_eq]; rfl
    · intro u hu
      obtain ⟨i, hi, rfl⟩ := List.mem_map.mp hu
      have hlt : i < r.quantity := List.mem_range.mp hi
      exact Nat.lt_of_lt_of_le (Nat.add_lt_add_left hlt _) hfit
    · rw [RegisterFile.write, if_neg hcoil, if_neg hregister, if_pos hfc]
      exact file_registers hfit _

/-- Every PDU is served. -/
theorem serves_switch (cfg : Config) (plc : PlcState) (r : Request) :
    (switch cfg plc r.transactionId r.unitId r.pdu).Serves plc r := by
  unfold switch
  dsimp only
  split_ifs with h₁ h₂ h₃ h₄ h₅
  · exact serves_readCoils plc h₁
  · exact serves_readHoldingRegisters plc h₂
  · exact serves_writeSingleCoil cfg plc h₃
  · exact serves_writeSingleRegister cfg plc h₄
  · exact serves_writeMultipleRegisters cfg plc h₅
  · apply serves_exception plc
    have hunknown : ¬ r.Known := by
      simp only [Request.Known, List.mem_cons, List.not_mem_nil, not_or]
      exact ⟨h₁, h₂, h₃, h₄, h₅, not_false⟩
    rw [Request.refusal, if_pos hunknown]

/-! ## Sequences of requests -/

namespace Checked

/-- The checked dispatch is the dispatch. -/
theorem dispatch_eq (cfg : Config) (plc : PlcState) (tid : UInt16) (uid : UInt8) (pdu : Bytes) :
    (if pdu.headD 0 = fcReadCoils then handleReadCoils plc tid uid pdu
    else if pdu.headD 0 = fcReadHoldingRegisters then handleReadHoldingRegisters plc tid uid pdu
    else if pdu.headD 0 = fcWriteSingleCoil then handleWriteSingleCoil cfg tid uid pdu
    else if pdu.headD 0 = fcWriteSingleRegister then handleWriteSingleRegister cfg tid uid pdu
    else if pdu.headD 0 = fcWriteMultipleRegisters then
      handleWriteMultipleRegisters cfg tid uid pdu
    else some (.only (buildException tid uid (pdu.headD 0) excIllegalFunction))) =
      some (switch cfg plc tid uid pdu) := by
  unfold switch
  dsimp only
  split_ifs
  · exact handleReadCoils_eq plc tid uid pdu
  · exact handleReadHoldingRegisters_eq plc tid uid pdu
  · exact handleWriteSingleCoil_eq cfg tid uid pdu
  · exact handleWriteSingleRegister_eq cfg tid uid pdu
  · exact handleWriteMultipleRegisters_eq cfg tid uid pdu
  · rfl

/-- Writes within their arrays do not fault. -/
theorem foldlM_store {updates : List Update} (h : ∀ u ∈ updates, u.InBounds) (plc : PlcState) :
    updates.foldlM store plc = some (updates.foldl PlcState.update plc) := by
  have hstep : ∀ p : PlcState, True → ∀ u ∈ updates,
      store p u = some (p.update u) ∧ True := by
    intro p _ u hu
    have hbound := h u hu
    cases u with
    | coil address value => exact ⟨if_pos hbound, trivial⟩
    | register address value => exact ⟨if_pos hbound, trivial⟩
  exact (foldlM_eq_some hstep trivial).1

/-- No PDU faults, and the checked handlers do what the handlers do. -/
theorem processPdu_eq (cfg : Config) (device : Device) {r : Request} (hpos : 1 ≤ r.pdu.length) :
    processPdu cfg device r.transactionId r.unitId r.pdu =
      some ((Native.processPdu cfg device r.transactionId r.unitId r.pdu).1,
        { (Native.processPdu cfg device r.transactionId r.unitId r.pdu).2 with
          plc := (Native.processPdu cfg device r.transactionId r.unitId r.pdu).1.updates.foldl
            PlcState.update device.plc }) := by
  have hcode : r.pdu[0]? = some (r.pdu.headD 0) := by
    cases hpdu : r.pdu with
    | nil =>
        rw [hpdu] at hpos
        exact absurd hpos (by decide)
    | cons b rest => rfl
  have hstores := foldlM_store (serves_switch cfg device.plc r).inBounds device.plc
  unfold processPdu Native.processPdu
  rw [hcode]
  simp only [Option.bind_eq_bind, Option.bind_some]
  by_cases herror : 0 < cfg.errorPercent
  · simp only [herror, true_and]
    by_cases hdraw : device.randomPercent.1 < cfg.errorPercent
    · rw [if_pos hdraw, if_pos hdraw]
      rfl
    · rw [if_neg hdraw, if_neg hdraw, dispatch_eq, Option.bind_some, hstores]
      rfl
  · simp only [herror, false_and, if_false]
    rw [dispatch_eq, Option.bind_some, hstores]
    rfl

/-- The requests of a sequence, processed in order. -/
def run (cfg : Config) : List Request → Device → Option (List Bytes × Device)
  | [], device => some ([], device)
  | r :: rest, device => do
      let (reply, device) ← processPdu cfg device r.transactionId r.unitId r.pdu
      let (responses, device) ← run cfg rest device
      return (reply.response :: responses, device)

end Checked

/-- The responses to a sequence of requests are the answers of the register file, which only the
successful writes change. -/
inductive RegisterFile.Serves : RegisterFile → List Request → List Bytes → RegisterFile → Prop
  | nil (file : RegisterFile) : Serves file [] [] file
  | cons {file last : RegisterFile} {r : Request} {rest : List Request} {response : Bytes}
      {responses : List Bytes} (answers : file.Answers r response)
      (more : Serves (file.after r) rest responses last) :
      Serves file (r :: rest) (response :: responses) last

/-- The native honeypot is a register file: no sequence of PDUs faults, and the arrays and the
responses are those of two total maps. -/
theorem plc_is_register_file {cfg : Config} (hquiet : cfg.errorPercent = 0)
    (requests : List Request)
    (hpdus : ∀ r ∈ requests, 1 ≤ r.pdu.length ∧ r.pdu.length ≤ 253) (device : Device) :
    ∃ responses device', Checked.run cfg requests device = some (responses, device') ∧
      device.plc.file.Serves requests responses device'.plc.file := by
  induction requests generalizing device with
  | nil => exact ⟨[], device, rfl, .nil _⟩
  | cons r rest ih =>
      obtain ⟨⟨hpos, -⟩, hrest⟩ := List.forall_mem_cons.mp hpdus
      have hserves := serves_switch cfg device.plc r
      have hreply : Native.processPdu cfg device r.transactionId r.unitId r.pdu =
          (switch cfg device.plc r.transactionId r.unitId r.pdu, device) :=
        if_neg (hquiet ▸ lt_irrefl _)
      have hstep := Checked.processPdu_eq cfg device hpos
      rw [hreply] at hstep
      obtain ⟨responses, device', hrun, hmore⟩ := ih hrest
        { device with
          plc := (switch cfg device.plc r.transactionId r.unitId r.pdu).updates.foldl
            PlcState.update device.plc }
      refine ⟨(switch cfg device.plc r.transactionId r.unitId r.pdu).response :: responses,
        device', ?_, .cons hserves.answers ?_⟩
      · rw [Checked.run, hstep]
        simp only [Option.bind_eq_bind, Option.bind_some]
        rw [hrun]
        rfl
      · rw [← hserves.file]
        exact hmore

/-- A write of two registers, a read of them and a read outside the array, a write of a coil and
a read of it with its neighbours, and an unknown function. -/
def sampleRequests : List Request :=
  [⟨1, 1, [0x10, 0, 254, 0, 2, 4, 0, 7, 1, 0]⟩, ⟨2, 1, [3, 0, 254, 0, 2]⟩,
   ⟨3, 1, [3, 0, 255, 0, 2]⟩, ⟨4, 1, [5, 0, 3, 0xFF, 0]⟩, ⟨5, 1, [1, 0, 0, 0, 5]⟩,
   ⟨6, 1, [2, 0, 0, 0, 1]⟩]

/-- Their responses. -/
def sampleResponses : List Bytes :=
  [[0, 1, 0, 0, 0, 6, 1, 0x10, 0, 254, 0, 2], [0, 2, 0, 0, 0, 7, 1, 3, 4, 0, 7, 1, 0],
   [0, 3, 0, 0, 0, 3, 1, 0x83, 2], [0, 4, 0, 0, 0, 6, 1, 5, 0, 3, 0xFF, 0],
   [0, 5, 0, 0, 0, 4, 1, 1, 1, 8], [0, 6, 0, 0, 0, 3, 1, 0x82, 1]]

/-- The sample requests are answered as the two maps say. -/
theorem plc_is_register_file_six : ∃ device',
    Checked.run sampleConfig sampleRequests sampleDevice = some (sampleResponses, device') ∧
      sampleDevice.plc.file.Serves sampleRequests sampleResponses device'.plc.file := by
  obtain ⟨responses, device', hrun, hserves⟩ :=
    plc_is_register_file (rfl : sampleConfig.errorPercent = 0) sampleRequests (by decide) sampleDevice
  have hresponses : (Checked.run sampleConfig sampleRequests sampleDevice).map Prod.fst =
      some sampleResponses := by
    decide +kernel
  rw [hrun] at hresponses
  obtain rfl := Option.some.inj hresponses
  exact ⟨device', hrun, hserves⟩

end IcsDeception.Modbus.Native
