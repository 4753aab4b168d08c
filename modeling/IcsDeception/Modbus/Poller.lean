import IcsDeception.Lib.Decimal
import IcsDeception.Modbus.Agreement

/-!
# The PLC poller against the Python server

The poller sends one read of holding registers and decodes the response from what `recv`
returns, in whatever pieces it arrives. Against the dispatch of the Python server it obtains
the registers when the request is within the bank, and the exception of the server otherwise.

## Implementation notes

A socket is the list of the segments that are still to be received. A call of `recv` returns
the first of them, or its front when it is longer than what was asked for; when none is left
the connection is closed. A failure to connect or a timeout is no part of the model.
-/

namespace IcsDeception.Modbus

open Text

/-- `MbapHeader.pdu_len`. -/
def MbapHeader.pduLen (h : MbapHeader) : Nat := h.length - 1

/-- `build_read_holding_registers_request`. -/
def buildReadHoldingRegistersRequest (transactionId unitId address quantity : Nat) : Bytes :=
  buildResponse transactionId unitId
    (UInt8.ofNat fcReadHoldingRegisters :: (toBytes address ++ toBytes quantity))

namespace Poller

/-- What `poll_once` raises. -/
inductive PollError
  | osError (message : Str)
  | valueError (message : Str)
  deriving DecidableEq

/-- The result of `poll_once`. -/
structure PollResult where
  ok : Bool
  functionCode : Nat
  exceptionCode : Option Nat
  registers : List Nat
  deriving DecidableEq

/-- `sock.recv(count)`. -/
def recv (count : Nat) : List Bytes → Bytes × List Bytes
  | [] => ([], [])
  | segment :: rest =>
      if segment.length ≤ count then (segment, rest)
      else (segment.take count, segment.drop count :: rest)

/-- `_recv_exact`. -/
def recvExact (count : Nat) (sock : List Bytes) : Except PollError (Bytes × List Bytes) :=
  if count = 0 then .ok ([], sock)
  else if (recv count sock).1 = [] then
    .error (.osError (lit "connection closed while reading Modbus response"))
  else do
    let (data, left) ← recvExact (count - (recv count sock).1.length) (recv count sock).2
    .ok ((recv count sock).1 ++ data, left)
termination_by count
decreasing_by
  have hpos := List.length_pos_of_ne_nil ‹¬ (recv count sock).1 = []›
  omega

/-- The part of `poll_once` behind the last call of `recv`. -/
def decode (pdu : Bytes) : Except PollError PollResult :=
  let functionCode := (pdu.headD 0).toNat
  if functionCode &&& 0x80 ≠ 0 then
    .ok
      { ok := false
        functionCode := functionCode &&& 0x7F
        exceptionCode := if 1 < pdu.length then some (pdu.getD 1 0).toNat else none
        registers := [] }
  else if functionCode ≠ 0x03 ∨ pdu.length < 2 then
    .error (.valueError (lit "unexpected response function code: " ++ Decimal.natText functionCode))
  else
    let byteCount := (pdu.getD 1 0).toNat
    let data := (pdu.drop 2).take byteCount
    if data.length ≠ byteCount then
      .error (.valueError (lit "truncated register payload in response"))
    else
      .ok
        { ok := true
          functionCode := functionCode
          exceptionCode := none
          registers := (List.range ((byteCount + 1) / 2)).map fun i =>
            fromBytes ((data.drop (2 * i)).take 2) }

/-- `poll_once`, of a peer that answers what it is sent in these segments. -/
def pollOnce (peer : Bytes → List Bytes) (unitId address quantity transactionId : Nat) :
    Except PollError PollResult := do
  let request := buildReadHoldingRegistersRequest transactionId unitId address quantity
  let (headerBytes, sock) ← recvExact mbapHeaderLen (peer request)
  match parseMbap headerBytes with
  | none => .error (.valueError (lit "invalid MBAP header in response"))
  | some header =>
      if header.protocolId ≠ modbusProtocolId then
        .error (.valueError (lit "invalid MBAP header in response"))
      else if header.length < 2 then
        .error (.valueError (lit "invalid MBAP length in response: " ++ Decimal.natText header.length))
      else do
        let (pdu, _) ← recvExact header.pduLen sock
        decode pdu

/-! ## Receiving -/

/-- One call of `recv` takes a part of the stream that is not empty. -/
theorem recv_spec {count : Nat} (hpos : 0 < count) {sock : List Bytes}
    (hopen : ∀ segment ∈ sock, segment ≠ []) (hmore : sock ≠ []) :
    (recv count sock).1 ≠ [] ∧ (recv count sock).1.length ≤ count ∧
      (recv count sock).1 ++ (recv count sock).2.flatten = sock.flatten ∧
      ∀ segment ∈ (recv count sock).2, segment ≠ [] := by
  cases sock with
  | nil => exact absurd rfl hmore
  | cons segment rest =>
      obtain ⟨hsegment, hrest⟩ := List.forall_mem_cons.mp hopen
      rw [recv]
      split_ifs with hle
      · exact ⟨hsegment, hle, rfl, hrest⟩
      · have hlt : count < segment.length := Nat.not_le.mp hle
        refine ⟨?_, ?_, ?_, List.forall_mem_cons.mpr ⟨?_, hrest⟩⟩
        · apply List.ne_nil_of_length_pos
          rw [List.length_take]
          omega
        · exact List.length_take_le _ _
        · rw [List.flatten_cons, List.flatten_cons, ← List.append_assoc, List.take_append_drop]
        · apply List.ne_nil_of_length_pos
          rw [List.length_drop]
          omega

/-- However the stream is cut into segments, its front is received as it was sent. -/
theorem recvExact_spec {sock : List Bytes} (hopen : ∀ segment ∈ sock, segment ≠ [])
    {front back : Bytes} (hstream : sock.flatten = front ++ back) :
    ∃ left, recvExact front.length sock = .ok (front, left) ∧ left.flatten = back ∧
      ∀ segment ∈ left, segment ≠ [] := by
  induction hn : front.length using Nat.strongRecOn generalizing front sock with
  | ind n ih =>
      rw [recvExact]
      by_cases hzero : n = 0
      · have hfront : front = [] := List.eq_nil_of_length_eq_zero (hn.trans hzero)
        subst hfront
        rw [if_pos hzero]
        exact ⟨sock, rfl, hstream, hopen⟩
      · have hpos : 0 < n := Nat.pos_of_ne_zero hzero
        have hmore : sock ≠ [] := by
          rintro rfl
          have hfront : front = [] := (List.append_eq_nil_iff.mp hstream.symm).1
          rw [hfront] at hn
          exact hzero hn.symm
        obtain ⟨hchunk, hle, hsplit, hopen'⟩ := recv_spec hpos hopen hmore
        have hlen := List.length_pos_of_ne_nil hchunk
        -- the chunk is a front of what was asked for
        obtain ⟨tail, htail⟩ : (recv n sock).1 <+: front := by
          have hchunkFront : (recv n sock).1 <+: sock.flatten := ⟨_, hsplit⟩
          have hfrontFront : front <+: sock.flatten := ⟨back, hstream.symm⟩
          exact List.prefix_of_prefix_length_le hchunkFront hfrontFront
            (hle.trans (le_of_eq hn.symm))
        have hlength : tail.length = n - (recv n sock).1.length := by
          have hwhole := congrArg List.length htail
          rw [List.length_append, hn] at hwhole
          omega
        have hnext : (recv n sock).2.flatten = tail ++ back := by
          have hwhole : (recv n sock).1 ++ (recv n sock).2.flatten =
              (recv n sock).1 ++ (tail ++ back) := by
            rw [hsplit, hstream, ← htail, List.append_assoc]
          exact List.append_cancel_left hwhole
        obtain ⟨left, hrec, hleft, hopen''⟩ :=
          ih (n - (recv n sock).1.length) (by omega) hopen' hnext hlength
        rw [if_neg hzero, if_neg hchunk, hrec]
        refine ⟨left, ?_, hleft, hopen''⟩
        rw [← htail]
        rfl

/-- The poller decodes the PDU of a response, however it arrives. -/
theorem pollOnce_of_response {peer : Bytes → List Bytes}
    {unitId address quantity transactionId : Nat} (r : Request)
    (hopen : ∀ segment ∈ peer (buildReadHoldingRegistersRequest transactionId unitId address
      quantity), segment ≠ [])
    (hstream : (peer (buildReadHoldingRegistersRequest transactionId unitId address
      quantity)).flatten = r.bytes) :
    pollOnce peer unitId address quantity transactionId = decode r.pdu := by
  have hbytes : r.bytes = r.bytes.take mbapHeaderLen ++ r.pdu := by
    conv_lhs => rw [← List.take_append_drop mbapHeaderLen r.bytes]
    rfl
  have hheaderLength : (r.bytes.take mbapHeaderLen).length = mbapHeaderLen := rfl
  have hparse : parseMbap (r.bytes.take mbapHeaderLen) = some r.header := by
    obtain ⟨header, hheader⟩ : ∃ header, parseMbap (r.bytes.take mbapHeaderLen) = some header :=
      ⟨_, if_neg (by rw [hheaderLength]; exact lt_irrefl _)⟩
    have hwhole := parseMbap_append hheader r.pdu
    have hrequest := parseMbap_bytes r []
    rw [← hbytes] at hwhole
    rw [List.append_nil, hwhole] at hrequest
    rw [hheader, hrequest]
  obtain ⟨sock, hfirst, hsock, hopen'⟩ := recvExact_spec hopen (hstream.trans hbytes)
  obtain ⟨left, hsecond, -⟩ :=
    recvExact_spec hopen' (hsock.trans (List.append_nil r.pdu).symm)
  have hpdu : r.pdu.length = r.header.pduLen := rfl
  have hid : r.header.protocolId = modbusProtocolId := rfl
  have hlength : ¬ r.header.length < 2 := by
    have hpos := r.pdu_pos
    simp only [Request.header]
    omega
  rw [hheaderLength] at hfirst
  rw [hpdu] at hsecond
  unfold pollOnce
  dsimp only
  rw [hfirst]
  simp only [bind, Except.bind]
  rw [hparse]
  dsimp only
  rw [if_neg (not_not.mpr hid), if_neg hlength, hsecond]

/-! ## The words of a payload -/

theorem length_flatMap_toBytes (values : List Nat) :
    (values.flatMap toBytes).length = 2 * values.length := by
  induction values with
  | nil => rfl
  | cons value rest ih =>
      rw [List.flatMap_cons, List.length_append, ih, List.length_cons]
      simp only [toBytes, List.length_cons, List.length_nil]
      omega

/-- The words of a payload are read back in order. -/
theorem map_fromBytes_flatMap {values : List Nat} (h : ∀ v ∈ values, v < 2 ^ 16) :
    ((List.range values.length).map fun i =>
      fromBytes (((values.flatMap toBytes).drop (2 * i)).take 2)) = values := by
  induction values with
  | nil => rfl
  | cons value rest ih =>
      obtain ⟨hvalue, hrest⟩ := List.forall_mem_cons.mp h
      rw [List.length_cons, List.range_succ_eq_map, List.map_cons, List.map_map]
      congr 1
      · exact fromBytes_toBytes hvalue
      · apply Eq.trans (List.map_congr_left fun i _ => ?_) (ih hrest)
        simp only [Function.comp_apply, List.flatMap_cons, Nat.mul_succ, Nat.add_comm (2 * i) 2]
        rw [← List.drop_drop]
        rfl

/-- The poller decodes the registers that the server packs. -/
theorem decode_registers {values : List Nat} (h : ∀ v ∈ values, v < 2 ^ 16)
    (hlength : values.length ≤ 125) :
    decode (UInt8.ofNat fcReadHoldingRegisters ::
        UInt8.ofNat (values.flatMap toBytes).length :: values.flatMap toBytes) =
      .ok { ok := true, functionCode := 3, exceptionCode := none, registers := values } := by
  have hpayload := length_flatMap_toBytes values
  have hcount : (UInt8.ofNat (values.flatMap toBytes).length).toNat =
      (values.flatMap toBytes).length := by
    rw [UInt8.toNat_ofNat', Nat.mod_eq_of_lt (by omega)]
  have hwords : ((values.flatMap toBytes).length + 1) / 2 = values.length := by omega
  have hfunction : (UInt8.ofNat fcReadHoldingRegisters).toNat = 3 := rfl
  unfold decode
  simp only [List.headD_cons, List.getD_cons_succ, List.getD_cons_zero, List.drop_succ_cons,
    List.drop_zero, hfunction, hcount, List.take_length, hwords, map_fromBytes_flatMap h]
  rw [if_neg (by decide), if_neg, if_neg (not_not.mpr rfl)]
  rintro (hcode | hshort)
  · exact hcode rfl
  · simp only [List.length_cons] at hshort
    omega

/-- The poller decodes an exception of the read. -/
theorem decode_exception {code : Nat} (h : code < 2 ^ 8) :
    decode [UInt8.ofNat ((fcReadHoldingRegisters ||| 0x80) &&& 0xFF), UInt8.ofNat (code &&& 0xFF)] =
      .ok { ok := false, functionCode := 3, exceptionCode := some code, registers := [] } := by
  have hcode := ofNat_land h
  unfold decode
  simp only [List.headD_cons, List.getD_cons_succ, List.getD_cons_zero, hcode]
  rfl

/-! ## The server's response -/

/-- The request of the poller, as the server receives it. -/
def request {transactionId unitId : Nat} (htid : transactionId < 2 ^ 16) (huid : unitId < 2 ^ 8)
    (address quantity : Nat) : Request where
  transactionId := transactionId
  transactionId_lt := htid
  unitId := unitId
  unitId_lt := huid
  pdu := UInt8.ofNat fcReadHoldingRegisters :: (toBytes address ++ toBytes quantity)
  pdu_pos := Nat.succ_pos _
  pdu_le := Nat.le_of_ble_eq_true rfl

/-- A response in the frame of a request. -/
def answered (r : Request) (pdu : Bytes) (hpos : 1 ≤ pdu.length)
    (hle : pdu.length ≤ maxPduLen) : Request :=
  { r with pdu := pdu, pdu_pos := hpos, pdu_le := hle }

/-- What the poller makes of a request for so many registers at an address. -/
def outcome (bank : RegisterBank) (address quantity : Nat) : PollResult :=
  if 1 ≤ quantity ∧ quantity ≤ 125 ∧ address + quantity ≤ bank.size then
    { ok := true
      functionCode := 3
      exceptionCode := none
      registers := (bank.registers.drop address).take quantity }
  else
    { ok := false
      functionCode := 3
      exceptionCode := some (if 1 ≤ quantity ∧ quantity ≤ 125 then 2 else 3)
      registers := [] }

/-- The response of the server is a frame whose PDU the poller decodes to the outcome. -/
theorem dispatch_request (bank : RegisterBank) {transactionId unitId address quantity : Nat}
    (htid : transactionId < 2 ^ 16) (huid : unitId < 2 ^ 8) (haddress : address < 2 ^ 16)
    (hquantity : quantity < 2 ^ 16) :
    ∃ r : Request,
      (Server.dispatch bank (request htid huid address quantity).header
        (request htid huid address quantity).pdu).response = r.bytes ∧
      decode r.pdu = .ok (outcome bank address quantity) := by
  have haddress' : fromBytes (((request htid huid address quantity).pdu.drop 1).take 2) = address :=
    fromBytes_toBytes haddress
  have hquantity' :
      fromBytes (((request htid huid address quantity).pdu.drop 3).take 2) = quantity :=
    fromBytes_toBytes hquantity
  have hlength : (request htid huid address quantity).pdu.length = 5 := rfl
  have hexception : ∀ code : Nat, code < 2 ^ 8 → ∃ r : Request,
      buildExceptionResponse transactionId unitId fcReadHoldingRegisters code = r.bytes ∧
      decode r.pdu = .ok ⟨false, 3, some code, []⟩ := fun code hcode =>
    ⟨answered (request htid huid address quantity)
        [UInt8.ofNat ((fcReadHoldingRegisters ||| 0x80) &&& 0xFF), UInt8.ofNat (code &&& 0xFF)]
        (Nat.succ_pos 1) (Nat.le_of_ble_eq_true rfl),
      rfl, decode_exception hcode⟩
  have hdispatch : Server.dispatch bank (request htid huid address quantity).header
      (request htid huid address quantity).pdu =
        Server.readHoldingRegisters bank (request htid huid address quantity).header
          (request htid huid address quantity).pdu := rfl
  rw [hdispatch, Server.readHoldingRegisters, if_neg (not_not.mpr hlength)]
  dsimp only
  rw [haddress', hquantity', outcome]
  split_ifs with hbad hrange hgood hcount hgood hcount
  · omega
  · omega
  · exact hexception _ (by decide)
  · omega
  · exact hexception _ (by decide)
  · omega
  · have hread : (bank.read address quantity).length ≤ 125 := by
      have htake := List.length_take_le quantity (bank.registers.drop address)
      rw [RegisterBank.read]
      omega
    have hpayload := length_flatMap_toBytes (bank.read address quantity)
    have hvalues : ∀ v ∈ bank.read address quantity, v < 2 ^ 16 := fun v hv =>
      bank.registers_lt v (List.mem_of_mem_drop (List.mem_of_mem_take hv))
    have hpos : 1 ≤ (UInt8.ofNat fcReadHoldingRegisters ::
        UInt8.ofNat ((bank.read address quantity).flatMap toBytes).length ::
          (bank.read address quantity).flatMap toBytes).length := Nat.succ_pos _
    refine ⟨answered (request htid huid address quantity) _ hpos ?_, rfl,
      decode_registers hvalues hread⟩
    simp only [List.length_cons, maxPduLen]
    omega
  · omega
  · omega

/-- For every bank, every request of the poller and every way the response arrives, the poller
returns the addressed registers exactly when the quantity is from one to 125 and the range is
within the bank, and otherwise the exception for a bad quantity or a bad range. -/
theorem pollOnce_agrees (bank : RegisterBank) {transactionId unitId address quantity : Nat}
    (htid : transactionId < 2 ^ 16) (huid : unitId < 2 ^ 8) (haddress : address < 2 ^ 16)
    (hquantity : quantity < 2 ^ 16) :
    ∃ frame,
      cutFrame (buildReadHoldingRegistersRequest transactionId unitId address quantity) =
        .frame frame [] ∧
      ∀ peer : Bytes → List Bytes,
        (∀ segment ∈ peer (buildReadHoldingRegistersRequest transactionId unitId address quantity),
          segment ≠ []) →
        (peer (buildReadHoldingRegistersRequest transactionId unitId address quantity)).flatten =
          (Server.dispatch bank frame.header frame.pdu).response →
        pollOnce peer unitId address quantity transactionId =
          .ok (outcome bank address quantity) := by
  refine ⟨(request htid huid address quantity).frame, ?_, ?_⟩
  · have hcut := cutFrame_bytes (request htid huid address quantity) []
    rw [List.append_nil] at hcut
    exact hcut
  · intro peer hopen hstream
    obtain ⟨r, hresponse, hdecode⟩ := dispatch_request bank htid huid haddress hquantity
    rw [pollOnce_of_response r hopen (hstream.trans hresponse), hdecode]

/-- A bank of four registers. -/
def smallBank : RegisterBank where
  registers := [7, 500, 65535, 0]
  registers_lt := by decide
  criticalStart := 0
  criticalEnd := 0

/-- A response that arrives in three segments, the second of which holds the end of the header
and the front of the PDU. -/
theorem pollOnce_agrees_three_segments :
    pollOnce (fun _ => [[0, 1, 0], [0, 0, 7, 1, 3, 4, 1], [0xF4, 0xFF, 0xFF]]) 1 1 2 1 =
      .ok ⟨true, 3, none, [500, 65535]⟩ := by
  obtain ⟨frame, hcut, hpoll⟩ := @pollOnce_agrees smallBank 1 1 1 2 (by decide) (by decide)
    (by decide) (by decide)
  have hrequest := cutFrame_bytes
    (@request 1 1 (by decide) (by decide) 1 2) []
  rw [List.append_nil] at hrequest
  obtain ⟨rfl, -⟩ := Cut.frame.inj (hrequest.symm.trans hcut)
  exact hpoll _ (by decide) (by decide)

end Poller

end IcsDeception.Modbus
