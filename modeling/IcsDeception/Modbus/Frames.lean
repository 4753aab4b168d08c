import Mathlib.Algebra.Group.Nat.Defs
import IcsDeception.Lib.Text
import IcsDeception.Lib.Framing

/-!
# Modbus/TCP framing

The header of a frame and the responses, as the shared framing helpers have them, and the
cut of a frame off the front of a receive buffer.
-/

namespace IcsDeception.Modbus

open Text

/-- `MBAP_HEADER_LEN`. -/
def mbapHeaderLen : Nat := 7

/-- `MODBUS_PROTOCOL_ID`. -/
def modbusProtocolId : Nat := 0x0000

/-- `MAX_PDU_LEN`. -/
def maxPduLen : Nat := 253

/-- `MAX_ADU_LEN`. -/
def maxAduLen : Nat := mbapHeaderLen + maxPduLen

/-- `MIN_MBAP_LENGTH`. -/
def minMbapLength : Nat := 2

/-- `MAX_MBAP_LENGTH`. -/
def maxMbapLength : Nat := maxPduLen + 1

/-- `FC_READ_HOLDING_REGISTERS`. -/
def fcReadHoldingRegisters : Nat := 0x03

/-- `FC_WRITE_SINGLE_REGISTER`. -/
def fcWriteSingleRegister : Nat := 0x06

/-- `EXC_ILLEGAL_FUNCTION`. -/
def excIllegalFunction : Nat := 0x01

/-- `EXC_ILLEGAL_DATA_ADDRESS`. -/
def excIllegalDataAddress : Nat := 0x02

/-- `EXC_ILLEGAL_DATA_VALUE`. -/
def excIllegalDataValue : Nat := 0x03

/-- `int.from_bytes(data, "big")`. -/
def fromBytes (data : Bytes) : Nat := data.foldl (fun n b => n * 256 + b.toNat) 0

/-- `value.to_bytes(2, "big")`, of a value below `2 ^ 16`. -/
def toBytes (value : Nat) : Bytes := [UInt8.ofNat (value / 256), UInt8.ofNat (value % 256)]

/-- `MbapHeader`. -/
structure MbapHeader where
  transactionId : Nat
  protocolId : Nat
  length : Nat
  unitId : Nat
  deriving DecidableEq

/-- `MbapHeader.total_frame_len`. -/
def MbapHeader.totalFrameLen (h : MbapHeader) : Nat := mbapHeaderLen - 1 + h.length

/-- `parse_mbap`. -/
def parseMbap (data : Bytes) : Option MbapHeader :=
  if data.length < mbapHeaderLen then none
  else some
    { transactionId := fromBytes (data.take 2)
      protocolId := fromBytes ((data.drop 2).take 2)
      length := fromBytes ((data.drop 4).take 2)
      unitId := (data.getD 6 0).toNat }

/-- `build_response`. -/
def buildResponse (transactionId unitId : Nat) (pdu : Bytes) : Bytes :=
  toBytes transactionId ++ toBytes modbusProtocolId ++ toBytes (pdu.length + 1) ++
    [UInt8.ofNat (unitId &&& 0xFF)] ++ pdu

/-- `build_exception_response`. -/
def buildExceptionResponse (transactionId unitId functionCode exceptionCode : Nat) : Bytes :=
  buildResponse transactionId unitId
    [UInt8.ofNat ((functionCode ||| 0x80) &&& 0xFF), UInt8.ofNat (exceptionCode &&& 0xFF)]

/-- Why a header is refused. -/
inductive Malformed
  | badProtocolId (protocolId : Nat)
  | badMbapLength (length : Nat)
  deriving DecidableEq

/-- A complete frame: its header and its PDU. -/
structure Frame where
  header : MbapHeader
  pdu : Bytes
  deriving DecidableEq

/-- The front of a buffer: a header that is not complete, a refused header, a frame that is
not complete, or a frame. -/
def cutFrame (buffer : Bytes) : Cut UInt8 Frame Malformed :=
  match parseMbap buffer with
  | none => .more
  | some header =>
      if header.protocolId ≠ modbusProtocolId then .refused (.badProtocolId header.protocolId)
      else if ¬ (minMbapLength ≤ header.length ∧ header.length ≤ maxMbapLength) then
        .refused (.badMbapLength header.length)
      else if buffer.length < header.totalFrameLen then .more
      else .frame ⟨header, (buffer.take header.totalFrameLen).drop mbapHeaderLen⟩
        (buffer.drop header.totalFrameLen)

/-- A header that is complete does not change with what arrives. -/
theorem parseMbap_append {data : Bytes} {header : MbapHeader} (h : parseMbap data = some header)
    (more : Bytes) : parseMbap (data ++ more) = some header := by
  unfold parseMbap at h ⊢
  split_ifs at h with hlen
  have hlen' : 7 ≤ data.length := Nat.not_lt.mp hlen
  rw [if_neg (by rw [List.length_append]; exact Nat.not_lt.mpr (hlen'.trans (Nat.le_add_right _ _)))]
  have htake : ∀ n k, n + k ≤ 7 → ((data ++ more).drop n).take k = (data.drop n).take k := by
    intro n k hn
    rw [List.drop_append_of_le_length (by omega), List.take_append_of_le_length (by simp; omega)]
  have hunit : (data ++ more).getD 6 0 = data.getD 6 0 := by
    rw [List.getD_eq_getElem?_getD, List.getD_eq_getElem?_getD, List.getElem?_append_left (by omega)]
  have hfirst := htake 0 2 (by omega)
  simp only [List.drop_zero] at hfirst
  rw [hfirst, htake 2 2 (by omega), htake 4 2 (by omega), hunit]
  exact h

theorem parseMbap_length {data : Bytes} {header : MbapHeader} (h : parseMbap data = some header) :
    7 ≤ data.length := by
  unfold parseMbap at h
  split_ifs at h with hlen
  exact Nat.not_lt.mp hlen

/-- What a cut frame is. -/
theorem cutFrame_eq_frame {buffer rest : Bytes} {f : Frame} (h : cutFrame buffer = .frame f rest) :
    parseMbap buffer = some f.header ∧ f.header.protocolId = modbusProtocolId ∧
      minMbapLength ≤ f.header.length ∧ f.header.length ≤ maxMbapLength ∧
      f.header.totalFrameLen ≤ buffer.length ∧
      f.pdu = (buffer.take f.header.totalFrameLen).drop mbapHeaderLen ∧
      rest = buffer.drop f.header.totalFrameLen := by
  unfold cutFrame at h
  cases hp : parseMbap buffer with
  | none =>
      rw [hp] at h
      cases h
  | some header =>
      rw [hp] at h
      dsimp only at h
      split_ifs at h with h₁ h₂ h₃
      cases h
      exact ⟨rfl, not_not.mp h₁, h₂.1, h₂.2, Nat.not_lt.mp h₃, rfl, rfl⟩

/-- The framing of Modbus/TCP. -/
def framing : Framing UInt8 Frame Malformed where
  cut := cutFrame
  shorter := by
    intro b f rest h
    obtain ⟨-, -, hmin, -, hle, -, rfl⟩ := cutFrame_eq_frame h
    simp only [List.length_drop, MbapHeader.totalFrameLen, mbapHeaderLen] at hle ⊢
    omega
  frame_append := by
    intro b f rest h c
    obtain ⟨hp, hid, hmin, hmax, hle, hpdu, rfl⟩ := cutFrame_eq_frame h
    unfold cutFrame
    rw [parseMbap_append hp c]
    dsimp only
    rw [if_neg (not_not.mpr hid), if_neg (not_not.mpr ⟨hmin, hmax⟩),
      if_neg (by rw [List.length_append]; omega), List.take_append_of_le_length hle,
      List.drop_append_of_le_length hle, ← hpdu]
  refused_append := by
    intro b e h c
    unfold cutFrame at h ⊢
    cases hp : parseMbap b with
    | none =>
        rw [hp] at h
        cases h
    | some header =>
        rw [hp] at h
        rw [parseMbap_append hp c]
        dsimp only at h ⊢
        split_ifs at h ⊢ with h₁ h₂
        · exact h
        · exact h

/-- What waits for more is shorter than the longest frame. -/
theorem length_lt_of_more {buffer : Bytes} (h : cutFrame buffer = .more) :
    buffer.length < maxAduLen := by
  unfold cutFrame at h
  cases hp : parseMbap buffer with
  | none =>
      unfold parseMbap at hp
      split_ifs at hp with hlen
      exact hlen.trans (by decide)
  | some header =>
      rw [hp] at h
      dsimp only at h
      split_ifs at h with h₁ h₂ h₃
      have hmax : header.length ≤ 254 := h₂.2
      calc
        buffer.length < header.totalFrameLen := h₃
        _ = 6 + header.length := rfl
        _ ≤ 260 := by omega

end IcsDeception.Modbus
