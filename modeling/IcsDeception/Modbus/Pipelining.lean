import IcsDeception.Modbus.Server

/-!
# Pipelined requests to the Python server

The handler checks the size of its buffer before it takes the complete frames out of it.
Requests that arrive together are therefore answered exactly when they fit into the
buffer with what was left before, although each of them alone is small enough.
-/

namespace IcsDeception.Modbus

open Text

/-! ## Requests on the wire -/

/-- A valid request: the fields of its header and its PDU. -/
structure Request where
  transactionId : Nat
  transactionId_lt : transactionId < 2 ^ 16
  unitId : Nat
  unitId_lt : unitId < 2 ^ 8
  pdu : Bytes
  pdu_pos : 1 ≤ pdu.length
  pdu_le : pdu.length ≤ maxPduLen

namespace Request

/-- The bytes of a request. -/
def bytes (r : Request) : Bytes := buildResponse r.transactionId r.unitId r.pdu

/-- The header of a request. -/
def header (r : Request) : MbapHeader :=
  ⟨r.transactionId, modbusProtocolId, r.pdu.length + 1, r.unitId⟩

/-- The frame of a request. -/
def frame (r : Request) : Frame := ⟨r.header, r.pdu⟩

end Request

theorem fromBytes_toBytes {value : Nat} (h : value < 2 ^ 16) : fromBytes (toBytes value) = value := by
  have hdiv : value / 256 < 256 := Nat.div_lt_of_lt_mul h
  have hmod : value % 256 < 256 := Nat.mod_lt _ (by decide)
  simp only [fromBytes, toBytes, List.foldl_cons, List.foldl_nil, UInt8.toNat_ofNat', Nat.zero_mul,
    Nat.zero_add, Nat.mod_eq_of_lt hdiv, Nat.mod_eq_of_lt hmod]
  exact Nat.div_add_mod' value 256

theorem ofNat_land {n : Nat} (h : n < 2 ^ 8) : (UInt8.ofNat (n &&& 0xFF)).toNat = n := by
  have hmod : n &&& 0xFF = n % 2 ^ 8 := Nat.and_two_pow_sub_one_eq_mod n 8
  rw [hmod, UInt8.toNat_ofNat', Nat.mod_eq_of_lt h, Nat.mod_eq_of_lt h]

theorem bytes_length (r : Request) : r.bytes.length = r.header.totalFrameLen := by
  simp only [Request.bytes, buildResponse, toBytes, Request.header, MbapHeader.totalFrameLen,
    mbapHeaderLen, List.length_append, List.length_cons, List.length_nil]
  omega

theorem parseMbap_bytes (r : Request) (rest : Bytes) :
    parseMbap (r.bytes ++ rest) = some r.header := by
  have hlen : ¬ (r.bytes ++ rest).length < mbapHeaderLen := by
    rw [List.length_append, bytes_length]
    simp only [Request.header, MbapHeader.totalFrameLen, mbapHeaderLen]
    omega
  have hpdu := r.pdu_le
  have hid := fromBytes_toBytes r.transactionId_lt
  have hlength : fromBytes (toBytes (r.pdu.length + 1)) = r.pdu.length + 1 := by
    apply fromBytes_toBytes
    unfold maxPduLen at hpdu
    omega
  have hunit := ofNat_land r.unitId_lt
  rw [parseMbap, if_neg hlen]
  simp only [Request.bytes, buildResponse, toBytes, List.cons_append, List.nil_append,
    List.take_succ_cons, List.take_zero, List.drop_succ_cons, List.drop_zero,
    List.getD_cons_succ, List.getD_cons_zero, Request.header, hunit]
  rw [toBytes] at hid hlength
  rw [hid, hlength]
  rfl

/-- A request at the front of a buffer is cut off it. -/
theorem cutFrame_bytes (r : Request) (rest : Bytes) :
    cutFrame (r.bytes ++ rest) = .frame r.frame rest := by
  have hlen := bytes_length r
  have hpos := r.pdu_pos
  have hle := r.pdu_le
  have hrange : minMbapLength ≤ r.header.length ∧ r.header.length ≤ maxMbapLength := by
    simp only [Request.header, minMbapLength, maxMbapLength]
    omega
  have hid : r.header.protocolId = modbusProtocolId := rfl
  have hwhole : ¬ (r.bytes ++ rest).length < r.header.totalFrameLen := by
    rw [List.length_append, hlen]
    exact Nat.not_lt.mpr (Nat.le_add_right _ _)
  unfold cutFrame
  rw [parseMbap_bytes]
  dsimp only
  rw [if_neg (not_not.mpr hid), if_neg (not_not.mpr hrange), if_neg hwhole, ← hlen,
    List.take_left, List.drop_left]
  rfl

theorem framing_cut (buffer : Bytes) : framing.cut buffer = cutFrame buffer := rfl

theorem cutFrame_nil : cutFrame [] = .more := by
  have hnone : parseMbap [] = none := if_pos (by decide)
  rw [cutFrame, hnone]

/-- A stream of requests is cut into their frames, and nothing is left. -/
theorem frames_bytes (requests : List Request) :
    framing.frames (requests.flatMap Request.bytes) = (requests.map Request.frame, .ok []) := by
  induction requests with
  | nil =>
      have hcut : framing.cut [] = .more := cutFrame_nil
      rw [List.flatMap_nil, Framing.frames_more hcut]
      rfl
  | cons r rest ih =>
      have hcut : framing.cut (r.bytes ++ rest.flatMap Request.bytes) =
          .frame r.frame (rest.flatMap Request.bytes) := by
        rw [framing_cut, cutFrame_bytes]
      rw [List.flatMap_cons, Framing.frames_frame hcut, ih]
      rfl

namespace Server

/-! ## The handler on a stream -/

/-- No result of `recv` takes the buffer over its limit. -/
def Room : Bytes → List Bytes → Prop
  | _, [] => True
  | buffer, chunk :: rest =>
      (buffer ++ chunk).length ≤ maxBuffer ∧
        ∀ left, (framing.frames (buffer ++ chunk)).2 = .ok left → Room left rest

/-- The handler answers the frames of the stream, as long as its buffer suffices. -/
theorem receive_eq {chunks : List Bytes} (hne : ∀ c ∈ chunks, c ≠ []) (tail : List Recv)
    {buffer : Bytes} (hbuffer : cutFrame buffer = .more) (hroom : Room buffer chunks)
    (bank : RegisterBank) :
    receive (chunks.map .data ++ tail) buffer bank =
      match (framing.frames (buffer ++ chunks.flatten)).2 with
      | .error m => ((serve answer bank (framing.frames (buffer ++ chunks.flatten)).1).1 ++
          [.emit (.malformed m)], (serve answer bank (framing.frames (buffer ++ chunks.flatten)).1).2)
      | .ok left =>
          ((serve answer bank (framing.frames (buffer ++ chunks.flatten)).1).1 ++
            (receive tail left (serve answer bank (framing.frames (buffer ++ chunks.flatten)).1).2).1,
            (receive tail left
              (serve answer bank (framing.frames (buffer ++ chunks.flatten)).1).2).2) := by
  induction chunks generalizing buffer bank with
  | nil =>
      rw [List.flatten_nil, List.append_nil, Framing.frames_more (F := framing) hbuffer]
      rfl
  | cons chunk rest ih =>
      obtain ⟨hchunk, hrest⟩ := List.forall_mem_cons.mp hne
      obtain ⟨hfit, hroom⟩ := hroom
      rw [List.map_cons, List.cons_append, receive_data hchunk _ _ hfit, List.flatten_cons,
        ← List.append_assoc]
      cases hleft : (framing.frames (buffer ++ chunk)).2 with
      | error m => rw [Framing.frames_append_refused hleft, hleft]
      | ok left =>
          rw [Framing.frames_append hleft]
          simp only [ih hrest (Framing.cut_left hleft) (hroom left hleft), serve_append]
          cases (framing.frames (left ++ rest.flatten)).2 with
          | error m => simp only [List.append_assoc]
          | ok left' => simp only [List.append_assoc]

/-- A result of `recv` that takes the buffer over its limit is reported. -/
theorem overflow_of_not_room {chunks : List Bytes} (hne : ∀ c ∈ chunks, c ≠ []) (tail : List Recv)
    {buffer : Bytes} (h : ¬ Room buffer chunks) (bank : RegisterBank) :
    ∃ n, .emit (.bufferOverflow n) ∈ (receive (chunks.map .data ++ tail) buffer bank).1 := by
  induction chunks generalizing buffer bank with
  | nil => exact absurd trivial h
  | cons chunk rest ih =>
      obtain ⟨hchunk, hrest⟩ := List.forall_mem_cons.mp hne
      by_cases hfit : (buffer ++ chunk).length ≤ maxBuffer
      · obtain ⟨left, hleft, hnot⟩ : ∃ left, (framing.frames (buffer ++ chunk)).2 = .ok left ∧
            ¬ Room left rest := by
          by_contra hall
          apply h
          refine ⟨hfit, fun left hleft => ?_⟩
          by_contra hnot
          exact hall ⟨left, hleft, hnot⟩
        obtain ⟨n, hn⟩ := ih hrest hnot (serve answer bank (framing.frames (buffer ++ chunk)).1).2
        refine ⟨n, ?_⟩
        rw [List.map_cons, List.cons_append, receive_data hchunk _ _ hfit, hleft]
        exact List.mem_append_right _ hn
      · refine ⟨(buffer ++ chunk).length, ?_⟩
        rw [List.map_cons, List.cons_append, receive, if_neg hchunk]
        dsimp only
        rw [if_pos (Nat.lt_of_not_le hfit)]
        exact List.mem_singleton_self _

/-! ## Pipelined requests -/

/-- The responses that dispatch gives to a list of frames, in order. -/
def responses : RegisterBank → List Frame → List Bytes
  | _, [] => []
  | bank, f :: rest =>
      (dispatch bank f.header f.pdu).response ::
        responses (dispatch bank f.header f.pdu).bank rest

/-- The bytes that a handler sends, in order. -/
def sent (outputs : List Output) : List Bytes :=
  outputs.filterMap fun
    | .send payload => some payload
    | .emit _ => none

/-- Whether an event is a `modbus_malformed`. -/
def Event.isMalformed : Event → Bool
  | .bufferOverflow _ => true
  | .malformed _ => true
  | _ => false

/-- How a connection comes to its end. -/
inductive Ending
  | closed
  | timeout
  | osError (error : Str)
  | stopping

/-- What `recv` still returns at the end of a connection. -/
def Ending.recvs : Ending → List Recv
  | .closed => [.data []]
  | .timeout => [.timeout]
  | .osError error => [.osError error]
  | .stopping => []

/-- The handler answers every request in order and reports nothing malformed. -/
def AnswersAll (bank : RegisterBank) (requests : List Request) (chunks : List Bytes)
    (ending : Ending) : Prop :=
  sent (handle (chunks.map .data ++ ending.recvs) bank).1 =
      responses bank (requests.map Request.frame) ∧
    ∀ e, .emit e ∈ (handle (chunks.map .data ++ ending.recvs) bank).1 → e.isMalformed = false

/-- How many of the first bytes belong to requests that are complete in them. -/
def completeBytes : List Request → Nat → Nat
  | [], _ => 0
  | r :: rest, n =>
      if r.bytes.length ≤ n then r.bytes.length + completeBytes rest (n - r.bytes.length) else 0

/-- Every result of `recv`, with the part of a request that arrived before it, is within the
limit of the buffer. -/
def Fits (requests : List Request) (chunks : List Bytes) : Prop :=
  ∀ before chunk after, chunks = before ++ chunk :: after →
    before.flatten.length - completeBytes requests before.flatten.length + chunk.length ≤ maxBuffer

theorem sent_append (xs ys : List Output) : sent (xs ++ ys) = sent xs ++ sent ys :=
  List.filterMap_append

theorem sent_emit (events : List Event) : sent (events.map .emit) = [] := by
  rw [sent, List.filterMap_map]
  exact List.filterMap_eq_nil_iff.mpr fun _ _ => rfl

theorem sent_answer (bank : RegisterBank) (f : Frame) :
    sent (answer bank f).1 = [(dispatch bank f.header f.pdu).response] := by
  have hemit := sent_emit (dispatch bank f.header f.pdu).emitted
  have hrest := sent_append ((dispatch bank f.header f.pdu).emitted.map .emit)
    [.send (dispatch bank f.header f.pdu).response,
      .emit (.response f.header.unitId
        ((dispatch bank f.header f.pdu).response.getD mbapHeaderLen 0).toNat
        (dispatch bank f.header f.pdu).response.length)]
  rw [hemit] at hrest
  exact hrest

/-- What is sent for a list of frames is what dispatch responds. -/
theorem sent_serve (bank : RegisterBank) (fs : List Frame) :
    sent (serve answer bank fs).1 = responses bank fs := by
  induction fs generalizing bank with
  | nil => rfl
  | cons f rest ih =>
      rw [serve, sent_append, sent_answer, ih, responses]
      rfl

/-- Dispatch reports nothing malformed. -/
theorem dispatch_emitted (bank : RegisterBank) (header : MbapHeader) (pdu : Bytes) :
    ∀ e ∈ (dispatch bank header pdu).emitted, e.isMalformed = false := by
  intro e he
  unfold dispatch at he
  dsimp only at he
  split_ifs at he with hread hwrite
  · unfold readHoldingRegisters at he
    dsimp only at he
    split_ifs at he
    all_goals exact absurd he List.not_mem_nil
  · unfold writeSingleRegister at he
    dsimp only at he
    split_ifs at he with hlen hsize hcritical
    · exact absurd he List.not_mem_nil
    · exact absurd he List.not_mem_nil
    · rw [List.mem_singleton.mp he]
      rfl
    · exact absurd he List.not_mem_nil
  · rw [List.mem_singleton.mp he]
    rfl

theorem emitted_answer (bank : RegisterBank) (f : Frame) {e : Event}
    (h : .emit e ∈ (answer bank f).1) : e.isMalformed = false := by
  unfold answer at h
  rcases List.mem_cons.mp h with h | h
  · cases h
    rfl
  rcases List.mem_append.mp h with h | h
  · obtain ⟨e', he', heq⟩ := List.mem_map.mp h
    cases heq
    exact dispatch_emitted _ _ _ _ he'
  rcases List.mem_cons.mp h with h | h
  · cases h
  · cases List.mem_singleton.mp h
    rfl

/-- Nothing is reported malformed while frames are answered. -/
theorem emitted_serve (bank : RegisterBank) (fs : List Frame) {e : Event}
    (h : .emit e ∈ (serve answer bank fs).1) : e.isMalformed = false := by
  induction fs generalizing bank with
  | nil => exact absurd h List.not_mem_nil
  | cons f rest ih =>
      rcases List.mem_append.mp h with h | h
      · exact emitted_answer _ _ h
      · exact ih _ h

theorem sent_ending (ending : Ending) (buffer : Bytes) (bank : RegisterBank) :
    sent (receive ending.recvs buffer bank).1 = [] := by
  cases ending with
  | closed => simp only [Ending.recvs, receive, if_true]; rfl
  | timeout => rfl
  | osError error => rfl
  | stopping => rfl

theorem emitted_ending {ending : Ending} {buffer : Bytes} {bank : RegisterBank} {e : Event}
    (h : .emit e ∈ (receive ending.recvs buffer bank).1) : e.isMalformed = false := by
  cases ending with
  | closed =>
      simp only [Ending.recvs, receive, if_true] at h
      exact absurd h List.not_mem_nil
  | timeout =>
      cases List.mem_singleton.mp h
      rfl
  | osError error =>
      cases List.mem_singleton.mp h
      rfl
  | stopping => exact absurd h List.not_mem_nil

/-! ## The limit in terms of the requests -/

/-- The front of a request waits for more. -/
theorem cutFrame_of_short {r : Request} {buffer more rest : Bytes}
    (h : buffer ++ more = r.bytes ++ rest) (hshort : buffer.length < r.bytes.length) :
    cutFrame buffer = .more := by
  have hwhole : framing.cut (buffer ++ more) = .frame r.frame rest := by
    rw [h, framing_cut, cutFrame_bytes]
  have hlength := congrArg List.length h
  rw [List.length_append, List.length_append] at hlength
  rw [← framing_cut]
  cases hc : framing.cut buffer with
  | more => rfl
  | refused e =>
      rw [framing.refused_append hc more] at hwhole
      cases hwhole
  | frame f left =>
      -- The frame would be the request, and the buffer does not hold it.
      rw [framing.frame_append hc more] at hwhole
      injection hwhole with _ hrest
      have hleft := congrArg List.length hrest
      rw [List.length_append] at hleft
      omega

theorem eq_append_of_le {r : Request} {buffer more rest : Bytes}
    (h : buffer ++ more = r.bytes ++ rest) (hle : r.bytes.length ≤ buffer.length) :
    ∃ tail, buffer = r.bytes ++ tail := by
  have hwhole : r.bytes <+: buffer ++ more := h ▸ List.prefix_append _ _
  obtain ⟨tail, htail⟩ := List.prefix_of_prefix_length_le hwhole (List.prefix_append _ _) hle
  exact ⟨tail, htail.symm⟩

/-- The front of a stream of requests: the complete requests and the front of the next. -/
theorem frames_front {requests : List Request} {buffer more : Bytes}
    (h : buffer ++ more = requests.flatMap Request.bytes) :
    ∃ done todo left, requests = done ++ todo ∧ buffer = done.flatMap Request.bytes ++ left ∧
      left ++ more = todo.flatMap Request.bytes ∧
      framing.frames buffer = (done.map Request.frame, .ok left) := by
  induction requests generalizing buffer with
  | nil =>
      obtain ⟨rfl, -⟩ := List.append_eq_nil_iff.mp h
      exact ⟨[], [], [], rfl, rfl, h, Framing.frames_more (F := framing) cutFrame_nil⟩
  | cons r rest ih =>
      rw [List.flatMap_cons] at h
      by_cases hshort : buffer.length < r.bytes.length
      · have hcut := cutFrame_of_short h hshort
        exact ⟨[], r :: rest, buffer, rfl, rfl, h, Framing.frames_more (F := framing) hcut⟩
      · obtain ⟨tail, rfl⟩ := eq_append_of_le h (Nat.not_lt.mp hshort)
        rw [List.append_assoc] at h
        obtain ⟨done, todo, left, rfl, rfl, hleft, hframes⟩ := ih (List.append_cancel_left h)
        have hcut : framing.cut (r.bytes ++ (done.flatMap Request.bytes ++ left)) =
            .frame r.frame (done.flatMap Request.bytes ++ left) := by
          rw [framing_cut, cutFrame_bytes]
        refine ⟨r :: done, todo, left, rfl, ?_, hleft, ?_⟩
        · rw [List.flatMap_cons, List.append_assoc]
        · rw [Framing.frames_frame hcut, hframes]
          rfl

theorem completeBytes_append (done todo : List Request) (n : Nat) :
    completeBytes (done ++ todo) ((done.flatMap Request.bytes).length + n) =
      (done.flatMap Request.bytes).length + completeBytes todo n := by
  induction done with
  | nil => simp only [List.nil_append, List.flatMap_nil, List.length_nil, Nat.zero_add]
  | cons r rest ih =>
      rw [List.cons_append, completeBytes, List.flatMap_cons, List.length_append, if_pos (by omega),
        Nat.add_assoc, Nat.add_sub_cancel_left, ih, Nat.add_assoc]

theorem completeBytes_of_more {requests : List Request} {buffer more : Bytes}
    (h : buffer ++ more = requests.flatMap Request.bytes) (hcut : cutFrame buffer = .more) :
    completeBytes requests buffer.length = 0 := by
  cases requests with
  | nil => rfl
  | cons r rest =>
      rw [completeBytes, if_neg]
      intro hle
      rw [List.flatMap_cons] at h
      obtain ⟨tail, rfl⟩ := eq_append_of_le h hle
      rw [cutFrame_bytes] at hcut
      cases hcut

/-- The buffer suffices when the requests fit. -/
theorem room_iff {requests : List Request} {buffer : Bytes} {chunks : List Bytes}
    (h : buffer ++ chunks.flatten = requests.flatMap Request.bytes)
    (hcut : cutFrame buffer = .more) :
    Room buffer chunks ↔ ∀ before chunk after, chunks = before ++ chunk :: after →
      buffer.length + before.flatten.length -
        completeBytes requests (buffer.length + before.flatten.length) + chunk.length ≤
      maxBuffer := by
  induction chunks generalizing buffer requests with
  | nil =>
      constructor
      · intro _ before chunk after heq
        exact absurd heq.symm (List.append_ne_nil_of_right_ne_nil _ (List.cons_ne_nil _ _))
      · intro _
        exact trivial
  | cons c rest ih =>
      have hnone := completeBytes_of_more h hcut
      rw [List.flatten_cons, ← List.append_assoc] at h
      obtain ⟨done, todo, left, rfl, hbuffer, hleft, hframes⟩ := frames_front h
      have hmore : cutFrame left = .more := Framing.cut_left (F := framing) (b := buffer ++ c) (by rw [hframes])
      have hlength := congrArg List.length hbuffer
      rw [List.length_append, List.length_append] at hlength
      -- What the first result of `recv` completes drops out of both sides.
      have hshift : ∀ m, buffer.length + (c.length + m) -
          completeBytes (done ++ todo) (buffer.length + (c.length + m)) =
            left.length + m - completeBytes todo (left.length + m) := by
        intro m
        have hsum : buffer.length + (c.length + m) =
            (done.flatMap Request.bytes).length + (left.length + m) := by
          omega
        rw [hsum, completeBytes_append, Nat.add_sub_add_left]
      constructor
      · rintro ⟨hfit, hroom⟩ before chunk after heq
        have hrest := (ih hleft hmore).mp (hroom left (by rw [hframes]))
        cases before with
        | nil =>
            obtain ⟨rfl, rfl⟩ := List.cons.inj heq
            rw [List.flatten_nil, List.length_nil, Nat.add_zero, hnone, Nat.sub_zero,
              ← List.length_append]
            exact hfit
        | cons b before =>
            obtain ⟨rfl, hlater⟩ := List.cons.inj heq
            rw [List.flatten_cons, List.length_append, hshift]
            exact hrest before chunk after hlater
      · intro hall
        constructor
        · have hfirst := hall [] c rest rfl
          rw [List.flatten_nil, List.length_nil, Nat.add_zero, hnone, Nat.sub_zero,
            ← List.length_append] at hfirst
          exact hfirst
        · intro left' hleft'
          rw [hframes] at hleft'
          cases hleft'
          apply (ih hleft hmore).mpr
          intro before chunk after heq
          have hlater := hall (c :: before) chunk after (by rw [heq]; rfl)
          rw [List.flatten_cons, List.length_append, hshift] at hlater
          exact hlater

theorem room_iff_fits {requests : List Request} {chunks : List Bytes}
    (h : chunks.flatten = requests.flatMap Request.bytes) : Room [] chunks ↔ Fits requests chunks := by
  have hroom := @room_iff _ [] _ h cutFrame_nil
  simp only [List.length_nil, Nat.zero_add] at hroom
  exact hroom

/-- Requests that do not fit are reported malformed. -/
theorem not_answersAll {requests : List Request} {chunks : List Bytes} (hne : ∀ c ∈ chunks, c ≠ [])
    (h : chunks.flatten = requests.flatMap Request.bytes) (hfits : ¬ Fits requests chunks)
    (bank : RegisterBank) (ending : Ending) : ¬ AnswersAll bank requests chunks ending := by
  rintro ⟨-, hnone⟩
  rw [← room_iff_fits h] at hfits
  obtain ⟨n, hn⟩ := overflow_of_not_room hne ending.recvs hfits bank
  have hfalse := hnone (.bufferOverflow n) (List.mem_cons_of_mem _ (List.mem_append_left _ hn))
  cases hfalse

/-- Requests that fit are answered. -/
theorem answersAll_of_fits {requests : List Request} {chunks : List Bytes}
    (hne : ∀ c ∈ chunks, c ≠ []) (h : chunks.flatten = requests.flatMap Request.bytes)
    (hfits : Fits requests chunks) (bank : RegisterBank) (ending : Ending) :
    AnswersAll bank requests chunks ending := by
  rw [← room_iff_fits h] at hfits
  have hreceive := receive_eq hne ending.recvs cutFrame_nil hfits bank
  rw [List.nil_append, h, frames_bytes] at hreceive
  dsimp only at hreceive
  constructor
  · have hsent : sent (handle (chunks.map .data ++ ending.recvs) bank).1 =
        sent (receive (chunks.map .data ++ ending.recvs) [] bank).1 := by
      change sent ([.emit .connection] ++ (_ ++ [.emit .connectionClosed])) = _
      rw [sent_append, sent_append]
      exact List.append_nil _
    rw [hsent, hreceive, sent_append, sent_serve, sent_ending, List.append_nil]
  · intro e he
    rcases List.mem_cons.mp he with he | he
    · cases he
      rfl
    rcases List.mem_append.mp he with he | he
    · rw [hreceive] at he
      rcases List.mem_append.mp he with he | he
      · exact emitted_serve _ _ he
      · exact emitted_ending he
    · cases List.mem_singleton.mp he
      rfl

/-- Pipelined requests are all answered, and nothing is reported malformed, exactly when each
result of `recv` fits into the buffer with the part of a request that was left. -/
theorem answersAll_iff_fits (bank : RegisterBank) (requests : List Request) (chunks : List Bytes)
    (ending : Ending) (hne : ∀ c ∈ chunks, c ≠ [])
    (h : chunks.flatten = requests.flatMap Request.bytes) :
    AnswersAll bank requests chunks ending ↔ Fits requests chunks := by
  constructor
  · intro hall
    by_contra hfits
    exact not_answersAll hne h hfits bank ending hall
  · intro hfits
    exact answersAll_of_fits hne h hfits bank ending

/-- Requests that fit into the buffer all together fit however they arrive. -/
theorem fits_of_length_le {requests : List Request} {chunks : List Bytes}
    (h : chunks.flatten.length ≤ maxBuffer) : Fits requests chunks := by
  intro before chunk after heq
  rw [heq, List.flatten_append, List.flatten_cons, List.length_append, List.length_append] at h
  omega

/-- A request for one register. -/
def sampleRequest : Request where
  transactionId := 1
  transactionId_lt := by decide
  unitId := 1
  unitId_lt := by decide
  pdu := [3, 0, 0, 0, 1]
  pdu_pos := by decide
  pdu_le := by decide

/-- A bank of two registers. -/
def sampleBank : RegisterBank where
  registers := [7, 9]
  registers_lt := by decide
  criticalStart := 0
  criticalEnd := 0

theorem answersAll_two_requests :
    AnswersAll sampleBank [sampleRequest, sampleRequest]
      [sampleRequest.bytes.take 5, sampleRequest.bytes.drop 5 ++ sampleRequest.bytes] .closed :=
  (answersAll_iff_fits sampleBank [sampleRequest, sampleRequest]
    [sampleRequest.bytes.take 5, sampleRequest.bytes.drop 5 ++ sampleRequest.bytes] .closed
    (by decide) (by decide)).mpr (fits_of_length_le (by decide))

theorem sampleRequest_length (n : Nat) :
    ((List.replicate n sampleRequest).flatMap Request.bytes).length = n * 12 := by
  induction n with
  | zero => rfl
  | succ n ih =>
      rw [List.replicate_succ, List.flatMap_cons, List.length_append, ih, Nat.add_comm, Nat.succ_mul]
      rfl

/-- Eighty-seven small requests that arrive together are not all answered. -/
theorem pipelined_requests_refused :
    ((List.replicate 87 sampleRequest).flatMap Request.bytes).length ≤ 4096 ∧
      ¬ AnswersAll sampleBank (List.replicate 87 sampleRequest)
        [(List.replicate 87 sampleRequest).flatMap Request.bytes] .closed := by
  have hlength := sampleRequest_length 87
  constructor
  · rw [hlength]
    decide
  · apply not_answersAll
    · intro c hc heq
      rw [List.mem_singleton.mp hc] at heq
      rw [heq] at hlength
      cases hlength
    · rw [List.flatten_singleton]
    · intro hfits
      have hfirst := hfits [] _ [] rfl
      rw [hlength] at hfirst
      revert hfirst
      decide

end Server

end IcsDeception.Modbus
