import IcsDeception.Modbus.Frames

/-!
# The native Modbus/TCP honeypot

The coils and registers, the handlers of the function codes, and the handler of a client
with its reassembly of frames. The handler drains its buffer before it looks at the size,
so what is left is always shorter than a frame.

## Implementation notes

Words have the widths of the source. The client handler runs on the results of `recv`, in
order, and a list that ends is a service that is no longer running. Every send succeeds, a
delay before a response is not modelled, and the address of the client is left out of the
log. The values of the random generator are a sequence that the handler draws from.
-/

namespace IcsDeception.Modbus.Native

open Text

/-! ## Configuration and state -/

/-- `kCoilCount`. -/
def coilCount : Nat := 256

/-- `kRegisterCount`. -/
def registerCount : Nat := 256

/-- `kMaxBuffer`. -/
def maxBuffer : Nat := 4 * maxAduLen

/-- `kFcReadCoils`. -/
def fcReadCoils : UInt8 := 0x01

/-- `kFcReadHoldingRegisters`. -/
def fcReadHoldingRegisters : UInt8 := 0x03

/-- `kFcWriteSingleCoil`. -/
def fcWriteSingleCoil : UInt8 := 0x05

/-- `kFcWriteSingleRegister`. -/
def fcWriteSingleRegister : UInt8 := 0x06

/-- `kFcWriteMultipleRegisters`. -/
def fcWriteMultipleRegisters : UInt8 := 0x10

/-- `kExcIllegalFunction`. -/
def excIllegalFunction : UInt8 := 0x01

/-- `kExcIllegalDataAddress`. -/
def excIllegalDataAddress : UInt8 := 0x02

/-- `kExcIllegalDataValue`. -/
def excIllegalDataValue : UInt8 := 0x03

/-- `kExcServerDeviceFailure`. -/
def excServerDeviceFailure : UInt8 := 0x04

/-- The part of `Config` that the answers depend on. -/
structure Config where
  errorPercent : Int
  critStart : Int
  critEnd : Int
  recvTimeout : Int

/-- `is_critical_register`. -/
def isCriticalRegister (cfg : Config) (address : Nat) : Bool :=
  cfg.critStart ≤ address && address ≤ cfg.critEnd

/-- `PlcState`. -/
structure PlcState where
  coils : List Bool
  coils_length : coils.length = coilCount
  registers : List UInt16
  registers_length : registers.length = registerCount

/-- A write to the state. -/
inductive Update
  | coil (address : Nat) (value : Bool)
  | register (address : Nat) (value : UInt16)
  deriving DecidableEq

/-- The state after a write. -/
def PlcState.update (plc : PlcState) : Update → PlcState
  | .coil address value =>
      { plc with
        coils := plc.coils.set address value
        coils_length := by rw [List.length_set, plc.coils_length] }
  | .register address value =>
      { plc with
        registers := plc.registers.set address value
        registers_length := by rw [List.length_set, plc.registers_length] }

/-- The state and the values the random generator still gives. -/
structure Device where
  plc : PlcState
  draws : Nat → Nat

/-- `random_percent`. -/
def Device.randomPercent (device : Device) : Nat × Device :=
  (device.draws 0, { device with draws := fun n => device.draws (n + 1) })

/-! ## Framing helpers -/

/-- `be16`, of the bytes at an offset. -/
def be16 (data : Bytes) (offset : Nat) : UInt16 :=
  (data.getD offset 0).toUInt16 <<< 8 ||| (data.getD (offset + 1) 0).toUInt16

/-- The bytes that `put_be16` appends. -/
def putBe16 (value : UInt16) : Bytes := [(value >>> 8).toUInt8, (value &&& 0xff).toUInt8]

/-- `build_adu`. -/
def buildAdu (transactionId : UInt16) (unitId : UInt8) (pdu : Bytes) : Bytes :=
  putBe16 transactionId ++ putBe16 (UInt16.ofNat modbusProtocolId) ++
    putBe16 (UInt16.ofNat (pdu.length + 1)) ++ [unitId] ++ pdu

/-- `build_exception`. -/
def buildException (transactionId : UInt16) (unitId functionCode exceptionCode : UInt8) : Bytes :=
  buildAdu transactionId unitId [functionCode ||| 0x80, exceptionCode]

/-! ## Function codes -/

/-- The outcome of a PDU: the response, the writes in order, and the critical address. -/
structure Reply where
  response : Bytes
  updates : List Update
  sabotage : Option Nat

/-- A response that writes nothing. -/
def Reply.only (response : Bytes) : Reply := ⟨response, [], none⟩

/-- The bits of the coils from an address on, eight to a byte. -/
def coilBits (coils : List Bool) (address quantity : Nat) : Bytes :=
  (List.range quantity).foldl
    (fun bytes i =>
      if coils.getD (address + i) false then
        bytes.modify (i / 8) (· ||| (1 <<< UInt8.ofNat (i % 8)))
      else bytes)
    (List.replicate ((quantity + 7) / 8) 0)

/-- `handle_read_coils`. -/
def handleReadCoils (plc : PlcState) (tid : UInt16) (uid : UInt8) (pdu : Bytes) : Reply :=
  if pdu.length ≠ 5 then .only (buildException tid uid fcReadCoils excIllegalDataValue)
  else
    let address := be16 pdu 1
    let quantity := be16 pdu 3
    if quantity = 0 ∨ 2000 < quantity then
      .only (buildException tid uid fcReadCoils excIllegalDataValue)
    else if coilCount < address.toNat + quantity.toNat then
      .only (buildException tid uid fcReadCoils excIllegalDataAddress)
    else
      .only (buildAdu tid uid (fcReadCoils :: UInt8.ofNat ((quantity.toNat + 7) / 8) ::
        coilBits plc.coils address.toNat quantity.toNat))

/-- `handle_read_holding_registers`. -/
def handleReadHoldingRegisters (plc : PlcState) (tid : UInt16) (uid : UInt8) (pdu : Bytes) :
    Reply :=
  if pdu.length ≠ 5 then .only (buildException tid uid fcReadHoldingRegisters excIllegalDataValue)
  else
    let address := be16 pdu 1
    let quantity := be16 pdu 3
    if quantity = 0 ∨ 125 < quantity then
      .only (buildException tid uid fcReadHoldingRegisters excIllegalDataValue)
    else if registerCount < address.toNat + quantity.toNat then
      .only (buildException tid uid fcReadHoldingRegisters excIllegalDataAddress)
    else
      .only (buildAdu tid uid (fcReadHoldingRegisters :: UInt8.ofNat (quantity.toNat * 2) ::
        (List.range quantity.toNat).flatMap fun i =>
          putBe16 (plc.registers.getD (address.toNat + i) 0)))

/-- The critical address of a write to one address. -/
def sabotageAt (cfg : Config) (address : Nat) : Option Nat :=
  if isCriticalRegister cfg address then some address else none

/-- `handle_write_single_coil`. -/
def handleWriteSingleCoil (cfg : Config) (tid : UInt16) (uid : UInt8) (pdu : Bytes) : Reply :=
  if pdu.length ≠ 5 then .only (buildException tid uid fcWriteSingleCoil excIllegalDataValue)
  else
    let address := be16 pdu 1
    let value := be16 pdu 3
    if value ≠ 0x0000 ∧ value ≠ 0xFF00 then
      .only (buildException tid uid fcWriteSingleCoil excIllegalDataValue)
    else if coilCount ≤ address.toNat then
      .only (buildException tid uid fcWriteSingleCoil excIllegalDataAddress)
    else
      { response := buildAdu tid uid pdu
        updates := [.coil address.toNat (value == 0xFF00)]
        sabotage := sabotageAt cfg address.toNat }

/-- `handle_write_single_register`. -/
def handleWriteSingleRegister (cfg : Config) (tid : UInt16) (uid : UInt8) (pdu : Bytes) : Reply :=
  if pdu.length ≠ 5 then .only (buildException tid uid fcWriteSingleRegister excIllegalDataValue)
  else
    let address := be16 pdu 1
    let value := be16 pdu 3
    if registerCount ≤ address.toNat then
      .only (buildException tid uid fcWriteSingleRegister excIllegalDataAddress)
    else
      { response := buildAdu tid uid pdu
        updates := [.register address.toNat value]
        sabotage := sabotageAt cfg address.toNat }

/-- `handle_write_multiple_registers`. -/
def handleWriteMultipleRegisters (cfg : Config) (tid : UInt16) (uid : UInt8) (pdu : Bytes) :
    Reply :=
  if pdu.length < 6 then
    .only (buildException tid uid fcWriteMultipleRegisters excIllegalDataValue)
  else
    let address := be16 pdu 1
    let quantity := be16 pdu 3
    let byteCount := pdu.getD 5 0
    if quantity = 0 ∨ 123 < quantity ∨ byteCount ≠ UInt8.ofNat (quantity.toNat * 2) ∨
        pdu.length ≠ 6 + byteCount.toNat then
      .only (buildException tid uid fcWriteMultipleRegisters excIllegalDataValue)
    else if registerCount < address.toNat + quantity.toNat then
      .only (buildException tid uid fcWriteMultipleRegisters excIllegalDataAddress)
    else
      { response := buildAdu tid uid
          (fcWriteMultipleRegisters :: (putBe16 address ++ putBe16 quantity))
        updates := (List.range quantity.toNat).map fun i =>
          .register (address.toNat + i) (be16 pdu (6 + 2 * i))
        sabotage := (List.range quantity.toNat).findSome? fun i =>
          sabotageAt cfg (address.toNat + i) }

/-- The `switch` of `process_pdu`. -/
def switch (cfg : Config) (plc : PlcState) (tid : UInt16) (uid : UInt8) (pdu : Bytes) : Reply :=
  let functionCode := pdu.headD 0
  if functionCode = fcReadCoils then handleReadCoils plc tid uid pdu
  else if functionCode = fcReadHoldingRegisters then handleReadHoldingRegisters plc tid uid pdu
  else if functionCode = fcWriteSingleCoil then handleWriteSingleCoil cfg tid uid pdu
  else if functionCode = fcWriteSingleRegister then handleWriteSingleRegister cfg tid uid pdu
  else if functionCode = fcWriteMultipleRegisters then handleWriteMultipleRegisters cfg tid uid pdu
  else .only (buildException tid uid functionCode excIllegalFunction)

/-- `process_pdu`. -/
def processPdu (cfg : Config) (device : Device) (tid : UInt16) (uid : UInt8) (pdu : Bytes) :
    Reply × Device :=
  if 0 < cfg.errorPercent then
    let (percent, device) := device.randomPercent
    if percent < cfg.errorPercent then
      (.only (buildException tid uid (pdu.headD 0) excServerDeviceFailure), device)
    else (switch cfg device.plc tid uid pdu, device)
  else (switch cfg device.plc tid uid pdu, device)

/-! ## The client handler -/

/-- Why a header is refused. -/
inductive Malformed
  | badProtocolId (protocolId : UInt16)
  | badMbapLength (mbapLength : UInt16)
  deriving DecidableEq

/-- Why a connection ends. -/
inductive CloseReason
  | peerClosed
  | malformedFrame
  | bufferOverflow
  | timeout
  | recvFailed
  deriving DecidableEq

/-- The events of a client, as `log_client_event` writes them. -/
inductive Event
  | connection
  | malformed (m : Malformed)
  | request (unitId functionCode : UInt8) (transactionId : UInt16) (bytesIn : Nat)
  | response (functionCode : UInt8) (bytesOut : Nat)
  | sabotageDetected (functionCode : UInt8) (address : Nat)
  | bufferOverflow (buffered : Nat)
  | timeout (timeoutSeconds : Int)
  | recvFailed (errno : Int)
  | connectionClosed (reason : CloseReason)
  deriving DecidableEq

/-- What a handler does. -/
inductive Output
  | log (e : Event)
  | update (u : Update)
  | send (payload : Bytes)
  deriving DecidableEq

/-- A complete frame. -/
structure Frame where
  transactionId : UInt16
  unitId : UInt8
  frameLen : Nat
  pdu : Bytes
  deriving DecidableEq

/-- The front of the buffer: a header that is not complete, a refused header, a frame that is
not complete, or a frame. -/
def cutFrame (buffer : Bytes) : Cut UInt8 Frame Malformed :=
  if mbapHeaderLen ≤ buffer.length then
    let protocolId := be16 buffer 2
    let mbapLength := be16 buffer 4
    if protocolId ≠ UInt16.ofNat modbusProtocolId then .refused (.badProtocolId protocolId)
    else if mbapLength < UInt16.ofNat minMbapLength ∨ UInt16.ofNat maxMbapLength < mbapLength then
      .refused (.badMbapLength mbapLength)
    else
      let frameLen := mbapHeaderLen - 1 + mbapLength.toNat
      if buffer.length < frameLen then .more
      else .frame
        { transactionId := be16 buffer 0
          unitId := buffer.getD 6 0
          frameLen
          pdu := (buffer.take frameLen).drop mbapHeaderLen }
        (buffer.drop frameLen)
  else .more

/-- The answer to a complete frame in `handle_client`. -/
def answer (cfg : Config) (device : Device) (frame : Frame) : List Output × Device :=
  let (reply, device) := processPdu cfg device frame.transactionId frame.unitId frame.pdu
  (.log (.request frame.unitId (frame.pdu.headD 0) frame.transactionId frame.frameLen) ::
      (reply.updates.map .update ++
        (.send reply.response ::
          .log (.response (reply.response.getD mbapHeaderLen 0) reply.response.length) ::
          match reply.sabotage with
          | some address => [.log (.sabotageDetected (frame.pdu.headD 0) address)]
          | none => [])),
    { device with plc := reply.updates.foldl PlcState.update device.plc })

/-- The loop that drains the complete frames, in at most so many rounds. The buffer is `none`
after a refused header. -/
def drain (cfg : Config) : Nat → Bytes → Device → List Output × Device × Option Bytes
  | 0, buffer, device => ([], device, some buffer)
  | n + 1, buffer, device =>
      match cutFrame buffer with
      | .more => ([], device, some buffer)
      | .refused m => ([.log (.malformed m)], device, none)
      | .frame frame rest =>
          let (outputs, device) := answer cfg device frame
          let (more, device, left) := drain cfg n rest device
          (outputs ++ more, device, left)

/-- The result of `recv`. -/
inductive Recv
  | data (chunk : Bytes)
  | interrupted
  | timedOut
  | failed (errno : Int)

/-- The outer loop of `handle_client`: what it does, the state, and the reason to close. -/
def loop (cfg : Config) : List Recv → Bytes → Device → List Output × Device × CloseReason
  | [], _, device => ([], device, .peerClosed)
  | recv :: rest, buffer, device =>
      match drain cfg (buffer.length + 1) buffer device with
      | (outputs, device, none) => (outputs, device, .malformedFrame)
      | (outputs, device, some left) =>
          if maxBuffer < left.length then
            (outputs ++ [.log (.bufferOverflow left.length)], device, .bufferOverflow)
          else
            match recv with
            | .data chunk =>
                if chunk = [] then (outputs, device, .peerClosed)
                else
                  let (more, device, reason) := loop cfg rest (left ++ chunk) device
                  (outputs ++ more, device, reason)
            | .interrupted =>
                let (more, device, reason) := loop cfg rest left device
                (outputs ++ more, device, reason)
            | .timedOut => (outputs ++ [.log (.timeout cfg.recvTimeout)], device, .timeout)
            | .failed errno => (outputs ++ [.log (.recvFailed errno)], device, .recvFailed)

/-- `handle_client`. -/
def handleClient (cfg : Config) (recvs : List Recv) (device : Device) : List Output × Device :=
  let (outputs, device, reason) := loop cfg recvs [] device
  (.log .connection :: (outputs ++ [.log (.connectionClosed reason)]), device)

end IcsDeception.Modbus.Native
