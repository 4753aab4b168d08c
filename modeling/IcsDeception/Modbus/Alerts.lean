import IcsDeception.Modbus.Segmentation

/-!
# Alerts on sabotage when a response cannot be sent

The handler of a client once more, with clients that do not take their responses and with
other clients that write to the same coils and registers. A request that changes something
critical raises its alert behind the response, so the alert is lost exactly with the
response. When every response is sent and nobody else writes, this is the handler from
before.

## Implementation notes

Every request has its turn: what the other clients have written by then, and the error number
when `send_all` fails. What the log holds is kept by request, so that an alert can be told to
be the request's own.
-/

namespace IcsDeception.Modbus.Native

open Text

/-! ## The handler -/

/-- What happens around a request: the writes of other clients before it, and why the response
cannot be sent. -/
structure Turn where
  others : List Update
  sendError : Option Int

/-- The events of a client that may not take a response. -/
inductive Note
  | event (e : Event)
  | sendFailed (errno : Int)
  | closedUnsent
  deriving DecidableEq

/-- A request, the device when its turn comes, and the events behind its write. -/
structure Handled where
  device : Device
  frame : Frame
  turn : Turn
  followed : List Note

/-- A part of the log of a client. -/
inductive Entry
  | note (n : Note)
  | request (h : Handled)

/-- The events of a part. -/
def Entry.notes : Entry → List Note
  | .note n => [n]
  | .request h =>
      .event (.request h.frame.unitId (h.frame.pdu.headD 0) h.frame.transactionId
        h.frame.frameLen) :: h.followed

/-- A device after the writes of others. -/
def Device.meet (device : Device) (others : List Update) : Device :=
  { device with plc := others.foldl PlcState.update device.plc }

/-- What is logged behind the write of a request. -/
def follow (reply : Reply) (functionCode : UInt8) : Option Int → List Note
  | some errno => [.sendFailed errno]
  | none =>
      .event (.response (reply.response.getD mbapHeaderLen 0) reply.response.length) ::
        (reply.sabotage.toList.map fun address => .event (.sabotageDetected functionCode address))

/-- The handling of a complete frame in `handle_client`. -/
def handle (cfg : Config) (device : Device) (turn : Turn) (frame : Frame) : Handled × Device :=
  let device := device.meet turn.others
  let processed := processPdu cfg device frame.transactionId frame.unitId frame.pdu
  (⟨device, frame, turn, follow processed.1 (frame.pdu.headD 0) turn.sendError⟩,
    { processed.2 with
      plc := processed.1.updates.foldl PlcState.update processed.2.plc })

/-- How a drain ends. -/
inductive Drained
  | waiting (left : Bytes)
  | refused
  | unsent

/-- The run of a drain or of a loop: the log, the device, and the turns still to come. -/
structure Progress (α : Type) where
  entries : List Entry
  device : Device
  turns : Nat → Turn
  result : α

/-- Put a part of the log in front. -/
def Progress.after {α : Type} (entries : List Entry) (p : Progress α) : Progress α :=
  { p with entries := entries ++ p.entries }

/-- The loop that drains the complete frames, in at most so many rounds. -/
def drainTurns (cfg : Config) : Nat → (Nat → Turn) → Bytes → Device → Progress Drained
  | 0, turns, buffer, device => ⟨[], device, turns, .waiting buffer⟩
  | n + 1, turns, buffer, device =>
      match cutFrame buffer with
      | .more => ⟨[], device, turns, .waiting buffer⟩
      | .refused m => ⟨[.note (.event (.malformed m))], device, turns, .refused⟩
      | .frame frame rest =>
          let handled := handle cfg device (turns 0) frame
          if (turns 0).sendError.isSome then
            ⟨[.request handled.1], handled.2, fun k => turns (k + 1), .unsent⟩
          else
            (drainTurns cfg n (fun k => turns (k + 1)) rest handled.2).after [.request handled.1]

/-- The event at the end of a connection. -/
def closing (reason : CloseReason) : Note := .event (.connectionClosed reason)

/-- The outer loop of `handle_client`: its result is the event at the end. -/
def loopTurns (cfg : Config) : List Recv → (Nat → Turn) → Bytes → Device → Progress Note
  | [], turns, _, device => ⟨[], device, turns, closing .peerClosed⟩
  | recv :: rest, turns, buffer, device =>
      let drained := drainTurns cfg (buffer.length + 1) turns buffer device
      match drained.result with
      | .refused => ⟨drained.entries, drained.device, drained.turns, closing .malformedFrame⟩
      | .unsent => ⟨drained.entries, drained.device, drained.turns, .closedUnsent⟩
      | .waiting left =>
          if maxBuffer < left.length then
            ⟨drained.entries ++ [.note (.event (.bufferOverflow left.length))], drained.device,
              drained.turns, closing .bufferOverflow⟩
          else
            match recv with
            | .data chunk =>
                if chunk = [] then
                  ⟨drained.entries, drained.device, drained.turns, closing .peerClosed⟩
                else
                  (loopTurns cfg rest drained.turns (left ++ chunk) drained.device).after
                    drained.entries
            | .interrupted =>
                (loopTurns cfg rest drained.turns left drained.device).after drained.entries
            | .timedOut =>
                ⟨drained.entries ++ [.note (.event (.timeout cfg.recvTimeout))], drained.device,
                  drained.turns, closing .timeout⟩
            | .failed errno =>
                ⟨drained.entries ++ [.note (.event (.recvFailed errno))], drained.device,
                  drained.turns, closing .recvFailed⟩

/-- `handle_client`, with a turn for every request. -/
def handleClientTurns (cfg : Config) (recvs : List Recv) (turns : Nat → Turn) (device : Device) :
    List Entry × Device :=
  let run := loopTurns cfg recvs turns [] device
  (.note (.event .connection) :: (run.entries ++ [.note run.result]), run.device)

/-! ## Undisturbed runs -/

/-- A turn in which nobody writes and the response is sent. -/
def Turn.quiet : Turn := ⟨[], none⟩

/-- The events among the outputs of a handler. -/
def logOf (outputs : List Output) : List Note :=
  outputs.filterMap fun
    | .log e => some (.event e)
    | _ => none

theorem logOf_append (outputs outputs' : List Output) :
    logOf (outputs ++ outputs') = logOf outputs ++ logOf outputs' := List.filterMap_append

theorem logOf_updates (updates : List Update) : logOf (updates.map .update) = [] := by
  induction updates with
  | nil => rfl
  | cons u rest ih => exact ih

theorem handle_quiet (cfg : Config) (device : Device) (frame : Frame) :
    (Entry.request (handle cfg device .quiet frame).1).notes = logOf (answer cfg device frame).1 ∧
      (handle cfg device .quiet frame).2 = (answer cfg device frame).2 := by
  refine ⟨?_, rfl⟩
  have hmeet : device.meet [] = device := rfl
  simp only [handle, Turn.quiet, hmeet, Entry.notes, follow, answer, logOf, List.filterMap_cons,
    List.filterMap_append]
  have hup := logOf_updates
    (processPdu cfg device frame.transactionId frame.unitId frame.pdu).1.updates
  rw [logOf] at hup
  rw [hup, List.nil_append]
  cases (processPdu cfg device frame.transactionId frame.unitId frame.pdu).1.sabotage <;> rfl

/-- How a drain ends that sends every response. -/
def Drained.ofLeft : Option Bytes → Drained
  | some left => .waiting left
  | none => .refused

/-- A drain in which every turn is quiet. -/
theorem drainTurns_quiet (cfg : Config) (n : Nat) (buffer : Bytes) (device : Device) :
    ∃ entries, drainTurns cfg n (fun _ => .quiet) buffer device =
        ⟨entries, (drain cfg n buffer device).2.1, fun _ => .quiet,
          .ofLeft (drain cfg n buffer device).2.2⟩ ∧
      entries.flatMap Entry.notes = logOf (drain cfg n buffer device).1 := by
  induction n generalizing buffer device with
  | zero => exact ⟨[], rfl, rfl⟩
  | succ n ih =>
      rw [drainTurns, drain]
      cases hc : cutFrame buffer with
      | more => exact ⟨[], rfl, rfl⟩
      | refused m => exact ⟨_, rfl, rfl⟩
      | frame frame rest =>
          obtain ⟨hnotes, hdevice⟩ := handle_quiet cfg device frame
          obtain ⟨entries, hrun, hlog⟩ := ih rest (answer cfg device frame).2
          refine ⟨.request (handle cfg device .quiet frame).1 :: entries, ?_, ?_⟩
          · simp only [Turn.quiet, Option.isSome_none, Bool.false_eq_true, if_false]
            rw [show (handle cfg device ⟨[], none⟩ frame).2 = (answer cfg device frame).2 from hdevice]
            rw [show (fun _ => ⟨[], none⟩ : Nat → Turn) = fun _ => .quiet from rfl, hrun]
            rfl
          · simp only [List.flatMap_cons, hnotes, hlog, logOf_append]

theorem flatMap_notes_append (entries : List Entry) (e : Event) :
    (entries ++ [Entry.note (.event e)]).flatMap Entry.notes =
      entries.flatMap Entry.notes ++ [.event e] := by
  rw [List.flatMap_append]
  rfl

/-- A loop in which every turn is quiet. -/
theorem loopTurns_quiet (cfg : Config) (recvs : List Recv) (buffer : Bytes) (device : Device) :
    ∃ entries, loopTurns cfg recvs (fun _ => .quiet) buffer device =
        ⟨entries, (loop cfg recvs buffer device).2.1, fun _ => .quiet,
          closing (loop cfg recvs buffer device).2.2⟩ ∧
      entries.flatMap Entry.notes = logOf (loop cfg recvs buffer device).1 := by
  induction recvs generalizing buffer device with
  | nil => exact ⟨[], rfl, rfl⟩
  | cons recv rest ih =>
      obtain ⟨entries, hrun, hlog⟩ := drainTurns_quiet cfg (buffer.length + 1) buffer device
      rw [loopTurns, loop]
      dsimp only
      rw [hrun]
      generalize drain cfg (buffer.length + 1) buffer device = drained at hlog
      obtain ⟨outputs, device', left⟩ := drained
      cases left with
      | none => exact ⟨entries, rfl, hlog⟩
      | some left =>
          dsimp only [Drained.ofLeft] at hlog ⊢
          by_cases hfull : maxBuffer < left.length
          · rw [if_pos hfull, if_pos hfull]
            refine ⟨_, rfl, ?_⟩
            rw [flatMap_notes_append, hlog, logOf_append]
            rfl
          · rw [if_neg hfull, if_neg hfull]
            cases recv with
            | data chunk =>
                dsimp only
                by_cases hempty : chunk = []
                · rw [if_pos hempty, if_pos hempty]
                  exact ⟨entries, rfl, hlog⟩
                · rw [if_neg hempty, if_neg hempty]
                  obtain ⟨more, hmore, hmorelog⟩ := ih (left ++ chunk) device'
                  refine ⟨entries ++ more, by rw [hmore]; rfl, ?_⟩
                  rw [List.flatMap_append, hlog, hmorelog, logOf_append]
            | interrupted =>
                dsimp only
                obtain ⟨more, hmore, hmorelog⟩ := ih left device'
                refine ⟨entries ++ more, by rw [hmore]; rfl, ?_⟩
                rw [List.flatMap_append, hlog, hmorelog, logOf_append]
            | timedOut =>
                refine ⟨_, rfl, ?_⟩
                rw [flatMap_notes_append, hlog, logOf_append]
                rfl
            | failed errno =>
                refine ⟨_, rfl, ?_⟩
                rw [flatMap_notes_append, hlog, logOf_append]
                rfl

/-- When every response is sent and no other client writes, the handler with turns logs what
the handler without them logs, and leaves the same device. -/
theorem handleClientTurns_quiet (cfg : Config) (recvs : List Recv) (device : Device) :
    (handleClientTurns cfg recvs (fun _ => .quiet) device).1.flatMap Entry.notes =
        logOf (handleClient cfg recvs device).1 ∧
      (handleClientTurns cfg recvs (fun _ => .quiet) device).2 =
        (handleClient cfg recvs device).2 := by
  obtain ⟨entries, hrun, hlog⟩ := loopTurns_quiet cfg recvs [] device
  unfold handleClientTurns handleClient
  dsimp only
  rw [hrun]
  refine ⟨?_, rfl⟩
  have hcons : ∀ e outputs, logOf (.log e :: outputs) = .event e :: logOf outputs :=
    fun _ _ => rfl
  rw [hcons, logOf_append, List.flatMap_cons, closing, flatMap_notes_append, hlog]
  rfl

/-! ## Critical writes -/

/-- The address of a write. -/
def Update.address : Update → Nat
  | .coil address _ => address
  | .register address _ => address

theorem update_other {plc : PlcState} {u : Update} {address : Nat} (h : u.address ≠ address) :
    (plc.update u).coils[address]? = plc.coils[address]? ∧
      (plc.update u).registers[address]? = plc.registers[address]? := by
  cases u with
  | coil a v => exact ⟨List.getElem?_set_ne h, rfl⟩
  | register a v => exact ⟨rfl, List.getElem?_set_ne h⟩

/-- Where the state differs after writes, one of them was made. -/
theorem exists_update {updates : List Update} {plc : PlcState} {address : Nat}
    (h : (updates.foldl PlcState.update plc).coils[address]? ≠ plc.coils[address]? ∨
      (updates.foldl PlcState.update plc).registers[address]? ≠ plc.registers[address]?) :
    ∃ u ∈ updates, u.address = address := by
  induction updates generalizing plc with
  | nil => simp at h
  | cons u rest ih =>
      by_cases hu : u.address = address
      · exact ⟨u, List.mem_cons_self, hu⟩
      · obtain ⟨hc, hr⟩ := @update_other plc u address hu
        rw [List.foldl_cons, ← hc, ← hr] at h
        obtain ⟨v, hv, ha⟩ := ih h
        exact ⟨v, List.mem_cons_of_mem _ hv, ha⟩

/-- Every critical write of a reply is covered by the critical address that it names. -/
def Reply.Watched (cfg : Config) (reply : Reply) : Prop :=
  (∃ u ∈ reply.updates, isCriticalRegister cfg u.address = true) →
    ∃ address, reply.sabotage = some address ∧ isCriticalRegister cfg address = true

theorem watched_only (cfg : Config) (response : Bytes) : (Reply.only response).Watched cfg := by
  rintro ⟨u, hu, -⟩
  cases hu

theorem watched_single (cfg : Config) (response : Bytes) (u : Update) :
    Reply.Watched cfg ⟨response, [u], sabotageAt cfg u.address⟩ := by
  rintro ⟨v, hv, hc⟩
  obtain rfl := List.mem_singleton.mp hv
  exact ⟨v.address, if_pos hc, hc⟩

theorem watched_writeMultiple (cfg : Config) (tid : UInt16) (uid : UInt8) (pdu : Bytes) :
    (handleWriteMultipleRegisters cfg tid uid pdu).Watched cfg := by
  unfold handleWriteMultipleRegisters
  dsimp only
  split_ifs
  · exact watched_only cfg _
  · exact watched_only cfg _
  · exact watched_only cfg _
  · rintro ⟨u, hu, hc⟩
    obtain ⟨i, hi, rfl⟩ := List.mem_map.mp hu
    -- the loop stops at the first critical address, and there is one
    cases hfound : (List.range (be16 pdu 3).toNat).findSome? fun i =>
        sabotageAt cfg ((be16 pdu 1).toNat + i) with
    | none =>
        have hnone := List.findSome?_eq_none_iff.mp hfound i hi
        have hcritical : isCriticalRegister cfg ((be16 pdu 1).toNat + i) = true := hc
        rw [sabotageAt, if_pos hcritical] at hnone
        cases hnone
    | some address =>
        obtain ⟨k, -, hk⟩ := List.exists_of_findSome?_eq_some hfound
        unfold sabotageAt at hk
        split_ifs at hk with hcritical
        obtain rfl := Option.some.inj hk
        exact ⟨_, rfl, hcritical⟩

theorem watched_switch (cfg : Config) (plc : PlcState) (tid : UInt16) (uid : UInt8)
    (pdu : Bytes) : (switch cfg plc tid uid pdu).Watched cfg := by
  unfold switch
  dsimp only
  split_ifs
  · unfold handleReadCoils
    dsimp only
    split_ifs <;> exact watched_only cfg _
  · unfold handleReadHoldingRegisters
    dsimp only
    split_ifs <;> exact watched_only cfg _
  · unfold handleWriteSingleCoil
    dsimp only
    split_ifs
    · exact watched_only cfg _
    · exact watched_only cfg _
    · exact watched_only cfg _
    · exact watched_single cfg _ (.coil _ _)
  · unfold handleWriteSingleRegister
    dsimp only
    split_ifs
    · exact watched_only cfg _
    · exact watched_only cfg _
    · exact watched_single cfg _ (.register _ _)
  · exact watched_writeMultiple cfg tid uid pdu
  · exact watched_only cfg _

theorem watched_processPdu (cfg : Config) (device : Device) (tid : UInt16) (uid : UInt8)
    (pdu : Bytes) : (processPdu cfg device tid uid pdu).1.Watched cfg ∧
      (processPdu cfg device tid uid pdu).2.plc = device.plc := by
  unfold processPdu
  split_ifs
  · dsimp only [Device.randomPercent]
    split_ifs
    · exact ⟨watched_only cfg _, rfl⟩
    · exact ⟨watched_switch cfg _ tid uid pdu, rfl⟩
  · exact ⟨watched_switch cfg _ tid uid pdu, rfl⟩

/-! ## Complete alerts -/

/-- The coils and registers after a request. -/
def written (cfg : Config) (device : Device) (frame : Frame) : PlcState :=
  (processPdu cfg device frame.transactionId frame.unitId frame.pdu).1.updates.foldl
    PlcState.update device.plc

/-- A request changes a coil or a register in the critical range. -/
def ChangesCritical (cfg : Config) (device : Device) (frame : Frame) : Prop :=
  ∃ address, isCriticalRegister cfg address = true ∧
    ((written cfg device frame).coils[address]? ≠ device.plc.coils[address]? ∨
      (written cfg device frame).registers[address]? ≠ device.plc.registers[address]?)

/-- Behind the write of a request stands an alert of its own. -/
def Handled.Alerted (cfg : Config) (h : Handled) : Prop :=
  ∃ address, isCriticalRegister cfg address = true ∧
    .event (.sabotageDetected (h.frame.pdu.headD 0) address) ∈ h.followed

/-- Every request that changes something critical is followed by its alert. -/
def AlertsComplete (cfg : Config) (entries : List Entry) : Prop :=
  ∀ h, .request h ∈ entries → ChangesCritical cfg h.device h.frame → h.Alerted cfg

theorem alerted_handle_iff {cfg : Config} {device : Device} {turn : Turn} {frame : Frame}
    (hc : ChangesCritical cfg (handle cfg device turn frame).1.device frame) :
    (handle cfg device turn frame).1.Alerted cfg ↔ turn.sendError = none := by
  obtain ⟨address, hcritical, hdiff⟩ := hc
  obtain ⟨u, hu, rfl⟩ := exists_update hdiff
  obtain ⟨found, hfound, hfoundcritical⟩ :=
    (watched_processPdu cfg (device.meet turn.others) frame.transactionId frame.unitId
      frame.pdu).1 ⟨u, hu, hcritical⟩
  unfold Handled.Alerted
  simp only [handle]
  cases hsend : turn.sendError with
  | none =>
      refine ⟨fun _ => rfl, fun _ => ⟨found, hfoundcritical, ?_⟩⟩
      simp [follow, hfound]
  | some errno =>
      refine ⟨?_, nofun⟩
      rintro ⟨a, -, ha⟩
      cases List.mem_singleton.mp ha

/-- Every request in the log of a drain was handled in its turn. -/
theorem handled_of_mem_drainTurns {cfg : Config} {n : Nat} {turns : Nat → Turn} {buffer : Bytes}
    {device : Device} {h : Handled}
    (hm : .request h ∈ (drainTurns cfg n turns buffer device).entries) :
    ∃ device' turn frame, h = (handle cfg device' turn frame).1 := by
  induction n generalizing turns buffer device with
  | zero => cases hm
  | succ n ih =>
      rw [drainTurns] at hm
      cases hc : cutFrame buffer with
      | more =>
          rw [hc] at hm
          cases hm
      | refused m =>
          rw [hc] at hm
          cases List.mem_singleton.mp hm
      | frame frame rest =>
          rw [hc] at hm
          dsimp only at hm
          split_ifs at hm with hsend
          · cases List.mem_singleton.mp hm
            exact ⟨device, turns 0, frame, rfl⟩
          · rcases List.mem_cons.mp hm with hm | hm
            · cases hm
              exact ⟨device, turns 0, frame, rfl⟩
            · exact ih hm

theorem handled_of_mem_loopTurns {cfg : Config} {recvs : List Recv} {turns : Nat → Turn}
    {buffer : Bytes} {device : Device} {h : Handled}
    (hm : .request h ∈ (loopTurns cfg recvs turns buffer device).entries) :
    ∃ device' turn frame, h = (handle cfg device' turn frame).1 := by
  induction recvs generalizing turns buffer device with
  | nil => cases hm
  | cons recv rest ih =>
      rw [loopTurns] at hm
      have hdrain := @handled_of_mem_drainTurns cfg (buffer.length + 1) turns buffer device h
      have hnote : ∀ e, .request h ∈
          (drainTurns cfg (buffer.length + 1) turns buffer device).entries ++ [.note (.event e)] →
          ∃ device' turn frame, h = (handle cfg device' turn frame).1 := by
        intro e he
        rcases List.mem_append.mp he with he | he
        · exact hdrain he
        · cases List.mem_singleton.mp he
      cases hr : (drainTurns cfg (buffer.length + 1) turns buffer device).result with
      | refused =>
          rw [hr] at hm
          exact hdrain hm
      | unsent =>
          rw [hr] at hm
          exact hdrain hm
      | waiting left =>
          rw [hr] at hm
          dsimp only at hm
          split_ifs at hm with hfull
          · exact hnote _ hm
          · cases recv with
            | data chunk =>
                dsimp only at hm
                split_ifs at hm with hempty
                · exact hdrain hm
                · rcases List.mem_append.mp hm with hm | hm
                  · exact hdrain hm
                  · exact ih hm
            | interrupted =>
                rcases List.mem_append.mp hm with hm | hm
                · exact hdrain hm
                · exact ih hm
            | timedOut => exact hnote _ hm
            | failed errno => exact hnote _ hm

theorem handled_of_mem {cfg : Config} {recvs : List Recv} {turns : Nat → Turn} {device : Device}
    {h : Handled} (hm : .request h ∈ (handleClientTurns cfg recvs turns device).1) :
    ∃ device' turn frame, h = (handle cfg device' turn frame).1 := by
  rcases List.mem_cons.mp hm with hm | hm
  · cases hm
  rcases List.mem_append.mp hm with hm | hm
  · exact handled_of_mem_loopTurns hm
  · cases List.mem_singleton.mp hm

/-- Whatever a client sends, whatever the other clients write, and whichever responses cannot be
sent: every request that changes something critical is followed by its alert exactly when the
response to every such request is sent. -/
theorem alerts_complete_iff (cfg : Config) (recvs : List Recv) (turns : Nat → Turn)
    (device : Device) :
    AlertsComplete cfg (handleClientTurns cfg recvs turns device).1 ↔
      ∀ h, .request h ∈ (handleClientTurns cfg recvs turns device).1 →
        ChangesCritical cfg h.device h.frame → h.turn.sendError = none := by
  refine forall_congr' fun h => forall_congr' fun hm => forall_congr' fun hc => ?_
  obtain ⟨device', turn, frame, rfl⟩ := handled_of_mem hm
  exact alerted_handle_iff hc

/-- A write of seven to the first critical register. -/
def criticalWrite : Bytes := [0, 1, 0, 0, 0, 6, 1, 6, 0, 100, 0, 7]

/-- The frame of that write. -/
def criticalFrame : Frame := ⟨1, 1, 12, [6, 0, 100, 0, 7]⟩

set_option maxRecDepth 4000 in
/-- A client that resets the connection behind a critical write: the register has changed, and
there is no alert. -/
theorem alerts_incomplete :
    ¬ AlertsComplete sampleConfig
      (handleClientTurns sampleConfig [.data criticalWrite, .data []] (fun _ => ⟨[], some 104⟩)
        sampleDevice).1 := by
  intro H
  have hrun : (handleClientTurns sampleConfig [.data criticalWrite, .data []]
      (fun _ => ⟨[], some 104⟩) sampleDevice).1 =
        [.note (.event .connection)] ++
          [.request (handle sampleConfig sampleDevice ⟨[], some 104⟩ criticalFrame).1,
            .note .closedUnsent] := rfl
  have hmem : Entry.request (handle sampleConfig sampleDevice ⟨[], some 104⟩ criticalFrame).1 ∈
      (handleClientTurns sampleConfig [.data criticalWrite, .data []]
        (fun _ => ⟨[], some 104⟩) sampleDevice).1 := by
    rw [hrun]
    simp
  obtain ⟨address, -, halert⟩ := H _ hmem ⟨100, by decide, Or.inr (by decide +kernel)⟩
  cases List.mem_singleton.mp halert

end IcsDeception.Modbus.Native
