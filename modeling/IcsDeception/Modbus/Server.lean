import IcsDeception.Modbus.Frames

/-!
# The Modbus/TCP deception server in Python

The register bank, the dispatch of a PDU, and the handler of a connection with its
reassembly of frames.

## Implementation notes

The handler runs on the results of `recv`, in order; a list that ends without a closed
or failed connection is the server that stops. A response is sent whole. The events of a
connection are kept without the address of the peer.
-/

namespace IcsDeception.Modbus

open Text

/-- `RegisterBank`. A register holds sixteen bits. -/
structure RegisterBank where
  registers : List Nat
  registers_lt : ∀ v ∈ registers, v < 2 ^ 16
  criticalStart : Int
  criticalEnd : Int

namespace RegisterBank

/-- `RegisterBank.size`. -/
def size (bank : RegisterBank) : Nat := bank.registers.length

/-- `RegisterBank.is_critical`. -/
def isCritical (bank : RegisterBank) (address : Nat) : Bool :=
  bank.criticalStart ≤ address && address ≤ bank.criticalEnd

/-- `RegisterBank.read`. -/
def read (bank : RegisterBank) (address quantity : Nat) : List Nat :=
  (bank.registers.drop address).take quantity

theorem land_lt (value : Nat) : value &&& 0xFFFF < 2 ^ 16 :=
  Nat.lt_of_le_of_lt Nat.and_le_right (by decide)

/-- `RegisterBank.write`. -/
def write (bank : RegisterBank) (address value : Nat) : RegisterBank :=
  { bank with
    registers := bank.registers.set address (value &&& 0xFFFF)
    registers_lt := by
      intro v hv
      rcases List.mem_or_eq_of_mem_set hv with hv | rfl
      · exact bank.registers_lt v hv
      · exact land_lt value }

end RegisterBank

namespace Server

/-- The events of a connection. -/
inductive Event
  | connection
  | timeout
  | connectionError (error : Str)
  | bufferOverflow (buffered : Nat)
  | malformed (m : Malformed)
  | request (unitId functionCode bytesIn : Nat)
  | response (unitId functionCode bytesOut : Nat)
  | unsupportedFunction (functionCode : Nat)
  | sabotageDetected (functionCode address value : Nat)
  | connectionClosed
  deriving DecidableEq

/-- What a handler does. -/
inductive Output
  | emit (e : Event)
  | send (payload : Bytes)
  deriving DecidableEq

/-- The outcome of a dispatch: the response, the bank, and the events on the way. -/
structure Reply where
  response : Bytes
  bank : RegisterBank
  emitted : List Event

/-- `MAX_BUFFER`. -/
def maxBuffer : Nat := 4 * maxAduLen

/-- A response that leaves the bank alone. -/
def Reply.only (bank : RegisterBank) (response : Bytes) : Reply := ⟨response, bank, []⟩

/-- `ModbusDeceptionServer._read_holding_registers`. -/
def readHoldingRegisters (bank : RegisterBank) (header : MbapHeader) (pdu : Bytes) : Reply :=
  if pdu.length ≠ 5 then
    .only bank (buildExceptionResponse header.transactionId header.unitId fcReadHoldingRegisters
      excIllegalDataValue)
  else
    let address := fromBytes ((pdu.drop 1).take 2)
    let quantity := fromBytes ((pdu.drop 3).take 2)
    if quantity = 0 ∨ 125 < quantity then
      .only bank (buildExceptionResponse header.transactionId header.unitId fcReadHoldingRegisters
        excIllegalDataValue)
    else if bank.size < address + quantity then
      .only bank (buildExceptionResponse header.transactionId header.unitId fcReadHoldingRegisters
        excIllegalDataAddress)
    else
      let payload := (bank.read address quantity).flatMap toBytes
      .only bank (buildResponse header.transactionId header.unitId
        (UInt8.ofNat fcReadHoldingRegisters :: UInt8.ofNat payload.length :: payload))

/-- `ModbusDeceptionServer._write_single_register`. -/
def writeSingleRegister (bank : RegisterBank) (header : MbapHeader) (pdu : Bytes) : Reply :=
  if pdu.length ≠ 5 then
    .only bank (buildExceptionResponse header.transactionId header.unitId fcWriteSingleRegister
      excIllegalDataValue)
  else
    let address := fromBytes ((pdu.drop 1).take 2)
    let value := fromBytes ((pdu.drop 3).take 2)
    if bank.size ≤ address then
      .only bank (buildExceptionResponse header.transactionId header.unitId fcWriteSingleRegister
        excIllegalDataAddress)
    else
      { response := buildResponse header.transactionId header.unitId pdu
        bank := bank.write address value
        emitted :=
          if bank.isCritical address then
            [.sabotageDetected fcWriteSingleRegister address value]
          else [] }

/-- `ModbusDeceptionServer.dispatch`. -/
def dispatch (bank : RegisterBank) (header : MbapHeader) (pdu : Bytes) : Reply :=
  let functionCode := (pdu.headD 0).toNat
  if functionCode = fcReadHoldingRegisters then readHoldingRegisters bank header pdu
  else if functionCode = fcWriteSingleRegister then writeSingleRegister bank header pdu
  else
    { response := buildExceptionResponse header.transactionId header.unitId functionCode
        excIllegalFunction
      bank
      emitted := [.unsupportedFunction functionCode] }

/-- The answer to a complete frame in `_Handler.handle`. -/
def answer (bank : RegisterBank) (frame : Frame) : List Output × RegisterBank :=
  let reply := dispatch bank frame.header frame.pdu
  (.emit (.request frame.header.unitId (frame.pdu.headD 0).toNat frame.header.totalFrameLen) ::
      (reply.emitted.map .emit ++
        [.send reply.response,
         .emit (.response frame.header.unitId (reply.response.getD mbapHeaderLen 0).toNat
          reply.response.length)]),
    reply.bank)

/-- The inner loop of `_Handler.handle`, in at most so many rounds. The buffer is `none` once
the handler has returned. -/
def drain : Nat → Bytes → RegisterBank → List Output × RegisterBank × Option Bytes
  | 0, buffer, bank => ([], bank, some buffer)
  | n + 1, buffer, bank =>
      match cutFrame buffer with
      | .more => ([], bank, some buffer)
      | .refused m => ([.emit (.malformed m)], bank, none)
      | .frame frame rest =>
          let (outputs, bank) := answer bank frame
          let (more, bank, left) := drain n rest bank
          (outputs ++ more, bank, left)

/-- The result of `recv`. -/
inductive Recv
  | data (chunk : Bytes)
  | timeout
  | osError (error : Str)

/-- The outer loop of `_Handler.handle`. -/
def receive : List Recv → Bytes → RegisterBank → List Output × RegisterBank
  | [], _, bank => ([], bank)
  | .timeout :: _, _, bank => ([.emit .timeout], bank)
  | .osError error :: _, _, bank => ([.emit (.connectionError error)], bank)
  | .data chunk :: rest, buffer, bank =>
      if chunk = [] then ([], bank)
      else
        let buffer := buffer ++ chunk
        if maxBuffer < buffer.length then ([.emit (.bufferOverflow buffer.length)], bank)
        else
          match drain (buffer.length + 1) buffer bank with
          | (outputs, bank, none) => (outputs, bank)
          | (outputs, bank, some left) =>
              let (more, bank) := receive rest left bank
              (outputs ++ more, bank)

/-- `_Handler.handle`. -/
def handle (recvs : List Recv) (bank : RegisterBank) : List Output × RegisterBank :=
  let (outputs, bank) := receive recvs [] bank
  (.emit .connection :: (outputs ++ [.emit .connectionClosed]), bank)

/-! ## The loops in terms of the frames -/

/-- What the handler says about a refused header. -/
def refusal : Except Malformed Bytes → List Output
  | .ok _ => []
  | .error m => [.emit (.malformed m)]

/-- The inner loop answers the frames at the front of the buffer. -/
theorem drain_eq (n : Nat) (buffer : Bytes) (bank : RegisterBank) :
    drain n buffer bank =
      ((serve answer bank (framing.drain n buffer).1).1 ++ refusal (framing.drain n buffer).2,
        (serve answer bank (framing.drain n buffer).1).2, (framing.drain n buffer).2.toOption) := by
  induction n generalizing buffer bank with
  | zero => rfl
  | succ n ih =>
      rw [drain, Framing.drain]
      cases hc : framing.cut buffer with
      | more =>
          have hcut : cutFrame buffer = .more := hc
          simp only [hcut, serve, refusal, Except.toOption, List.append_nil]
      | refused m =>
          have hcut : cutFrame buffer = .refused m := hc
          simp only [hcut, serve, refusal, Except.toOption, List.nil_append]
      | frame frame rest =>
          have hcut : cutFrame buffer = .frame frame rest := hc
          simp only [hcut, ih, serve, List.append_assoc]

/-- What the handler does with the data of a connection, as far as no result of `recv` takes
the buffer over its limit. -/
theorem receive_data {chunk : Bytes} (hne : chunk ≠ []) (rest : List Recv) {buffer : Bytes}
    (bank : RegisterBank) (hfit : (buffer ++ chunk).length ≤ maxBuffer) :
    receive (.data chunk :: rest) buffer bank =
      match (framing.frames (buffer ++ chunk)).2 with
      | .error m => ((serve answer bank (framing.frames (buffer ++ chunk)).1).1 ++
          [.emit (.malformed m)], (serve answer bank (framing.frames (buffer ++ chunk)).1).2)
      | .ok left =>
          ((serve answer bank (framing.frames (buffer ++ chunk)).1).1 ++
            (receive rest left (serve answer bank (framing.frames (buffer ++ chunk)).1).2).1,
            (receive rest left (serve answer bank (framing.frames (buffer ++ chunk)).1).2).2) := by
  rw [receive, if_neg hne]
  dsimp only
  rw [if_neg (Nat.not_lt.mpr hfit), drain_eq, Framing.drain_enough (Nat.lt_succ_self _)]
  cases (framing.frames (buffer ++ chunk)).2 with
  | error m => rfl
  | ok left => simp only [Except.toOption, refusal, List.append_nil]

end Server

end IcsDeception.Modbus
