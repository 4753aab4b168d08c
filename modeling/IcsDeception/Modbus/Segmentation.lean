import Mathlib.Data.List.GetD
import IcsDeception.Modbus.Native

/-!
# Segmentation of a stream to the native honeypot

The client handler answers the frames of the stream, however `recv` cut it. What a drain
leaves is the front of a frame, so the limit of the buffer is never reached.
-/

namespace IcsDeception.Modbus.Native

open Text

/-! ## The cut of a frame -/

theorem be16_toNat (data : Bytes) (offset : Nat) :
    (be16 data offset).toNat =
      (data.getD offset 0).toNat * 256 + (data.getD (offset + 1) 0).toNat := by
  have hlow := (data.getD (offset + 1) 0).toNat_lt
  have hhigh := (data.getD offset 0).toNat_lt
  have hshift : (data.getD offset 0).toNat <<< 8 < 2 ^ 16 := by
    rw [Nat.shiftLeft_eq]
    omega
  rw [be16, UInt16.toNat_or, UInt16.toNat_shiftLeft, UInt8.toNat_toUInt16, UInt8.toNat_toUInt16]
  rw [show (8 : UInt16).toNat % 16 = 8 from rfl, Nat.mod_eq_of_lt hshift,
    ← Nat.shiftLeft_add_eq_or_of_lt hlow, Nat.shiftLeft_eq]

/-- The word that the Python helpers read. -/
theorem fromBytes_eq_be16 {data : Bytes} {offset : Nat} (h : offset + 2 ≤ data.length) :
    fromBytes ((data.drop offset).take 2) = (be16 data offset).toNat := by
  have htake : (data.drop offset).take 2 = [data.getD offset 0, data.getD (offset + 1) 0] := by
    rw [List.drop_eq_getElem_cons (by omega), List.drop_eq_getElem_cons (by omega),
      List.getD_eq_getElem _ _ (by omega), List.getD_eq_getElem _ _ (by omega)]
    rfl
  rw [htake, be16_toNat, fromBytes, List.foldl_cons, List.foldl_cons, List.foldl_nil, Nat.zero_mul,
    Nat.zero_add]

/-- A frame of the Python helpers in the words of the native honeypot. -/
def Frame.ofFrame (f : Modbus.Frame) : Frame where
  transactionId := UInt16.ofNat f.header.transactionId
  unitId := UInt8.ofNat f.header.unitId
  frameLen := f.header.totalFrameLen
  pdu := f.pdu

/-- A refusal of the Python helpers in the words of the native honeypot. -/
def Malformed.ofMalformed : Modbus.Malformed → Malformed
  | .badProtocolId protocolId => .badProtocolId (UInt16.ofNat protocolId)
  | .badMbapLength length => .badMbapLength (UInt16.ofNat length)

theorem protocolId_iff (id : UInt16) :
    id ≠ UInt16.ofNat modbusProtocolId ↔ id.toNat ≠ modbusProtocolId := by
  rw [ne_eq, ← UInt16.toNat_inj]
  rfl

theorem length_iff (length : UInt16) :
    (length < UInt16.ofNat minMbapLength ∨ UInt16.ofNat maxMbapLength < length) ↔
      ¬ (minMbapLength ≤ length.toNat ∧ length.toNat ≤ maxMbapLength) := by
  rw [UInt16.lt_iff_toNat_lt, UInt16.lt_iff_toNat_lt]
  change length.toNat < 2 ∨ 254 < length.toNat ↔ ¬ (2 ≤ length.toNat ∧ length.toNat ≤ 254)
  omega

/-- The two handlers cut the same frames. -/
theorem cutFrame_eq_map (buffer : Bytes) :
    cutFrame buffer = (Modbus.cutFrame buffer).map Frame.ofFrame Malformed.ofMalformed := by
  unfold cutFrame Modbus.cutFrame parseMbap
  by_cases hlen : mbapHeaderLen ≤ buffer.length
  · have hlen' : 7 ≤ buffer.length := hlen
    have hid := @fromBytes_eq_be16 buffer 2 (by omega)
    have hlength := @fromBytes_eq_be16 buffer 4 (by omega)
    have htid := @fromBytes_eq_be16 buffer 0 (by omega)
    rw [List.drop_zero] at htid
    rw [if_pos hlen, if_neg (Nat.not_lt.mpr hlen)]
    dsimp only
    rw [hid, hlength, htid]
    simp only [protocolId_iff, length_iff]
    by_cases hbad : (be16 buffer 2).toNat ≠ modbusProtocolId
    · rw [if_pos hbad, if_pos hbad, Cut.map, Malformed.ofMalformed, UInt16.ofNat_toNat]
    rw [if_neg hbad, if_neg hbad]
    by_cases hrange : ¬ (minMbapLength ≤ (be16 buffer 4).toNat ∧
        (be16 buffer 4).toNat ≤ maxMbapLength)
    · rw [if_pos hrange, if_pos hrange, Cut.map, Malformed.ofMalformed, UInt16.ofNat_toNat]
    rw [if_neg hrange, if_neg hrange]
    by_cases hshort : buffer.length < mbapHeaderLen - 1 + (be16 buffer 4).toNat
    · have hshort' : buffer.length < MbapHeader.totalFrameLen ⟨(be16 buffer 0).toNat,
          (be16 buffer 2).toNat, (be16 buffer 4).toNat, (buffer.getD 6 0).toNat⟩ := hshort
      rw [if_pos hshort, if_pos hshort', Cut.map]
    · have hshort' : ¬ buffer.length < MbapHeader.totalFrameLen ⟨(be16 buffer 0).toNat,
          (be16 buffer 2).toNat, (be16 buffer 4).toNat, (buffer.getD 6 0).toNat⟩ := hshort
      rw [if_neg hshort, if_neg hshort', Cut.map, Frame.ofFrame, UInt16.ofNat_toNat,
        UInt8.ofNat_toNat]
      rfl
  · rw [if_neg hlen, if_pos (Nat.lt_of_not_le hlen)]
    rfl

/-- The framing of the native honeypot. -/
def framing : Framing UInt8 Frame Malformed :=
  Modbus.framing.map Frame.ofFrame Malformed.ofMalformed

theorem framing_cut (buffer : Bytes) : framing.cut buffer = cutFrame buffer := by
  rw [cutFrame_eq_map]
  rfl

/-- What waits for more is shorter than the longest frame. -/
theorem length_lt_of_more {buffer : Bytes} (h : cutFrame buffer = .more) :
    buffer.length < maxAduLen := by
  apply Modbus.length_lt_of_more
  rw [cutFrame_eq_map] at h
  cases hc : Modbus.cutFrame buffer with
  | more => rfl
  | refused e =>
      rw [hc] at h
      cases h
  | frame f rest =>
      rw [hc] at h
      cases h

/-! ## The loops in terms of the frames -/

/-- What the handler says about a refused header. -/
def refusal : Except Malformed Bytes → List Output
  | .ok _ => []
  | .error m => [.log (.malformed m)]

/-- A drain answers the frames at the front of the buffer. -/
theorem drain_eq (cfg : Config) (n : Nat) (buffer : Bytes) (device : Device) :
    drain cfg n buffer device =
      ((serve (answer cfg) device (framing.drain n buffer).1).1 ++
          refusal (framing.drain n buffer).2,
        (serve (answer cfg) device (framing.drain n buffer).1).2,
        (framing.drain n buffer).2.toOption) := by
  induction n generalizing buffer device with
  | zero => rfl
  | succ n ih =>
      rw [drain, Framing.drain, framing_cut]
      cases hc : cutFrame buffer with
      | more => simp only [serve, refusal, Except.toOption, List.append_nil]
      | refused m => simp only [serve, refusal, Except.toOption, List.nil_append]
      | frame frame rest => simp only [ih, serve, List.append_assoc]

theorem drain_enough (cfg : Config) (buffer : Bytes) (device : Device) :
    drain cfg (buffer.length + 1) buffer device =
      ((serve (answer cfg) device (framing.frames buffer).1).1 ++
          refusal (framing.frames buffer).2,
        (serve (answer cfg) device (framing.frames buffer).1).2,
        (framing.frames buffer).2.toOption) := by
  rw [drain_eq, Framing.drain_enough (Nat.lt_succ_self _)]

/-- What a drain leaves is shorter than the longest frame. -/
theorem length_lt_of_drain {cfg : Config} {buffer left : Bytes} {device device' : Device}
    {outputs : List Output}
    (h : drain cfg (buffer.length + 1) buffer device = (outputs, device', some left)) :
    left.length < maxAduLen := by
  rw [drain_enough] at h
  have hleft : (framing.frames buffer).2 = .ok left := by
    cases hf : (framing.frames buffer).2 with
    | error m =>
        rw [hf] at h
        cases h
    | ok left' =>
        rw [hf] at h
        cases h
        rfl
  apply length_lt_of_more
  rw [← framing_cut]
  exact Framing.cut_left hleft

/-- How a connection comes to its end. -/
inductive Ending
  | closed
  | timedOut
  | failed (errno : Int)
  | stopped

/-- What `recv` still returns at the end of a connection. -/
def Ending.recvs : Ending → List Recv
  | .closed => [.data []]
  | .timedOut => [.timedOut]
  | .failed errno => [.failed errno]
  | .stopped => [.interrupted]

/-- What the handler logs at the end of a connection. -/
def Ending.outputs (cfg : Config) : Ending → List Output
  | .closed => []
  | .timedOut => [.log (.timeout cfg.recvTimeout)]
  | .failed errno => [.log (.recvFailed errno)]
  | .stopped => []

/-- The reason to close at the end of a connection. -/
def Ending.reason : Ending → CloseReason
  | .closed => .peerClosed
  | .timedOut => .timeout
  | .failed _ => .recvFailed
  | .stopped => .peerClosed

/-- The bytes of a result of `recv`. -/
def Recv.bytes : Recv → Bytes
  | .data chunk => chunk
  | _ => []

/-- A result of `recv` that keeps the connection open. -/
def Recv.Continues : Recv → Prop
  | .data chunk => chunk ≠ []
  | .interrupted => True
  | _ => False

/-- The outcome of a connection: the answers to the frames of its stream, and either the refused
header or the end. -/
def outcome (cfg : Config) (stream : Bytes) (ending : Ending) (device : Device) :
    List Output × Device × CloseReason :=
  match (framing.frames stream).2 with
  | .error m => ((serve (answer cfg) device (framing.frames stream).1).1 ++ [.log (.malformed m)],
      (serve (answer cfg) device (framing.frames stream).1).2, .malformedFrame)
  | .ok _ => ((serve (answer cfg) device (framing.frames stream).1).1 ++ ending.outputs cfg,
      (serve (answer cfg) device (framing.frames stream).1).2, ending.reason)

theorem not_overflow {buffer left : Bytes} (h : (framing.frames buffer).2 = .ok left) :
    ¬ maxBuffer < left.length := by
  have hlt : left.length < 260 := by
    apply length_lt_of_more
    rw [← framing_cut]
    exact Framing.cut_left h
  change ¬ 4 * 260 < left.length
  omega

/-- The end of a connection, after the last drain. -/
theorem loop_ending (cfg : Config) (ending : Ending) (buffer : Bytes) (device : Device) :
    loop cfg ending.recvs buffer device = outcome cfg buffer ending device := by
  unfold outcome
  cases hf : (framing.frames buffer).2 with
  | error m =>
      cases ending with
      | closed | timedOut | failed errno | stopped =>
          simp only [Ending.recvs, loop, drain_enough, hf, Except.toOption, refusal]
  | ok left =>
      have hfit := not_overflow hf
      cases ending with
      | closed | timedOut | failed errno | stopped =>
          simp only [Ending.recvs, loop, drain_enough, hf, Except.toOption, refusal, if_neg hfit,
            if_true, List.append_nil, Ending.outputs, Ending.reason]

/-- What arrives after a drain is answered as if it had been there before it. -/
theorem outcome_append {cfg : Config} {buffer left : Bytes} (more : Bytes) (ending : Ending)
    (device : Device) (h : (framing.frames buffer).2 = .ok left) :
    outcome cfg (buffer ++ more) ending device =
      ((serve (answer cfg) device (framing.frames buffer).1).1 ++
          (outcome cfg (left ++ more) ending
            (serve (answer cfg) device (framing.frames buffer).1).2).1,
        (outcome cfg (left ++ more) ending
          (serve (answer cfg) device (framing.frames buffer).1).2).2) := by
  unfold outcome
  rw [Framing.frames_append h more]
  cases (framing.frames (left ++ more)).2 with
  | error m => simp only [serve_append, List.append_assoc]
  | ok rest => simp only [serve_append, List.append_assoc]

/-- The loop answers the frames of the stream. -/
theorem loop_eq_outcome (cfg : Config) {recvs : List Recv} (h : ∀ r ∈ recvs, r.Continues)
    (ending : Ending) (buffer : Bytes) (device : Device) :
    loop cfg (recvs ++ ending.recvs) buffer device =
      outcome cfg (buffer ++ recvs.flatMap Recv.bytes) ending device := by
  induction recvs generalizing buffer device with
  | nil =>
      rw [List.nil_append, List.flatMap_nil, List.append_nil]
      exact loop_ending cfg ending buffer device
  | cons recv rest ih =>
      obtain ⟨hrecv, hrest⟩ := List.forall_mem_cons.mp h
      rw [List.cons_append, List.flatMap_cons]
      cases hf : (framing.frames buffer).2 with
      | error m =>
          have hall := Framing.frames_append_refused hf (recv.bytes ++ rest.flatMap Recv.bytes)
          simp only [loop, outcome, hall, drain_enough, hf, Except.toOption, refusal]
      | ok left =>
          have hfit := not_overflow hf
          rw [outcome_append _ _ _ hf]
          cases recv with
          | data chunk =>
              have hne : chunk ≠ [] := hrecv
              simp only [loop, drain_enough, hf, Except.toOption, refusal, if_neg hfit, if_neg hne,
                List.append_nil, ih hrest, Recv.bytes, List.append_assoc]
          | interrupted =>
              simp only [loop, drain_enough, hf, Except.toOption, refusal, if_neg hfit,
                List.append_nil, ih hrest, Recv.bytes, List.nil_append]
          | timedOut => exact absurd hrecv not_false
          | failed errno => exact absurd hrecv not_false

/-! ## Segmentation independence -/

theorem overflow_not_mem_answer (cfg : Config) (device : Device) (frame : Frame) (n : Nat) :
    .log (.bufferOverflow n) ∉ (answer cfg device frame).1 := by
  unfold answer
  intro h
  rcases List.mem_cons.mp h with h | h
  · cases h
  rcases List.mem_append.mp h with h | h
  · obtain ⟨u, -, hu⟩ := List.mem_map.mp h
    cases hu
  rcases List.mem_cons.mp h with h | h
  · cases h
  rcases List.mem_cons.mp h with h | h
  · cases h
  cases hs : (processPdu cfg device frame.transactionId frame.unitId frame.pdu).1.sabotage with
  | none =>
      rw [hs] at h
      exact absurd h List.not_mem_nil
  | some address =>
      rw [hs] at h
      cases List.mem_singleton.mp h

theorem overflow_not_mem_serve (cfg : Config) (device : Device) (frames : List Frame) (n : Nat) :
    .log (.bufferOverflow n) ∉ (serve (answer cfg) device frames).1 := by
  induction frames generalizing device with
  | nil => exact List.not_mem_nil
  | cons frame rest ih =>
      intro h
      rcases List.mem_append.mp h with h | h
      · exact overflow_not_mem_answer cfg device frame n h
      · exact ih _ h

/-- The loop never reports an overflow, whatever `recv` returns. -/
theorem overflow_not_mem_loop (cfg : Config) (recvs : List Recv) (buffer : Bytes) (device : Device)
    (n : Nat) : .log (.bufferOverflow n) ∉ (loop cfg recvs buffer device).1 := by
  induction recvs generalizing buffer device with
  | nil => exact List.not_mem_nil
  | cons recv rest ih =>
      have hserve := overflow_not_mem_serve cfg device (framing.frames buffer).1 n
      cases hf : (framing.frames buffer).2 with
      | error m =>
          simp only [loop, drain_enough, hf, Except.toOption, refusal, List.mem_append, hserve,
            List.mem_singleton, false_or]
          intro h
          cases h
      | ok left =>
          have hfit := not_overflow hf
          cases recv with
          | data chunk =>
              by_cases hne : chunk = []
              · simp only [loop, drain_enough, hf, Except.toOption, refusal, if_neg hfit,
                  if_pos hne, List.append_nil]
                exact hserve
              · simp only [loop, drain_enough, hf, Except.toOption, refusal, if_neg hfit,
                  if_neg hne, List.append_nil, List.mem_append, hserve, false_or]
                exact ih _ _
          | interrupted =>
              simp only [loop, drain_enough, hf, Except.toOption, refusal, if_neg hfit,
                List.append_nil, List.mem_append, hserve, false_or]
              exact ih _ _
          | timedOut =>
              simp only [loop, drain_enough, hf, Except.toOption, refusal, if_neg hfit,
                List.append_nil, List.mem_append, hserve, List.mem_singleton, false_or]
              intro h
              cases h
          | failed errno =>
              simp only [loop, drain_enough, hf, Except.toOption, refusal, if_neg hfit,
                List.append_nil, List.mem_append, hserve, List.mem_singleton, false_or]
              intro h
              cases h

theorem overflow_not_mem_handleClient (cfg : Config) (recvs : List Recv) (device : Device)
    (n : Nat) : .log (.bufferOverflow n) ∉ (handleClient cfg recvs device).1 := by
  intro h
  rcases List.mem_cons.mp h with h | h
  · cases h
  rcases List.mem_append.mp h with h | h
  · exact overflow_not_mem_loop cfg recvs [] device n h
  · cases List.mem_singleton.mp h

/-- However `recv` cuts a stream, the handler does the same and leaves the same state; what a
drain leaves is shorter than the longest frame, and no overflow is ever reported. -/
theorem handleClient_segmentation (cfg : Config) (device : Device) (ending : Ending)
    (recvs recvs' : List Recv) (h : ∀ r ∈ recvs, r.Continues) (h' : ∀ r ∈ recvs', r.Continues)
    (hstream : recvs.flatMap Recv.bytes = recvs'.flatMap Recv.bytes) :
    handleClient cfg (recvs ++ ending.recvs) device =
        handleClient cfg (recvs' ++ ending.recvs) device ∧
      (∀ buffer device outputs device' left,
        drain cfg (buffer.length + 1) buffer device = (outputs, device', some left) →
          left.length < maxAduLen) ∧
      ∀ all n, .log (.bufferOverflow n) ∉ (handleClient cfg all device).1 := by
  refine ⟨?_, ?_, ?_⟩
  · unfold handleClient
    rw [loop_eq_outcome cfg h, loop_eq_outcome cfg h', hstream]
  · intro buffer device outputs device' left hdrain
    exact length_lt_of_drain hdrain
  · intro all n
    exact overflow_not_mem_handleClient cfg all device n

/-- A device with every coil off and every register zero. -/
def sampleDevice : Device where
  plc :=
    { coils := List.replicate coilCount false
      coils_length := List.length_replicate
      registers := List.replicate registerCount 0
      registers_length := List.length_replicate }
  draws _ := 0

/-- A configuration without random failures. -/
def sampleConfig : Config := ⟨0, 100, 110, 30⟩

theorem segmentation_two_ways :
    handleClient sampleConfig
        ([.data [0, 1, 0, 0, 0, 6, 1], .interrupted, .data [6, 0, 100, 0, 7]] ++
          Ending.closed.recvs) sampleDevice =
      handleClient sampleConfig
        ([.data [0, 1, 0, 0, 0, 6, 1, 6, 0, 100, 0, 7]] ++ Ending.closed.recvs) sampleDevice :=
  (handleClient_segmentation sampleConfig sampleDevice .closed
    [.data [0, 1, 0, 0, 0, 6, 1], .interrupted, .data [6, 0, 100, 0, 7]]
    [.data [0, 1, 0, 0, 0, 6, 1, 6, 0, 100, 0, 7]]
    (by simp [Recv.Continues]) (by simp [Recv.Continues]) rfl).1

end IcsDeception.Modbus.Native
