import IcsDeception.Faults
import IcsDeception.JournalFile

/-!
# The append transaction when system calls fail

An append in the world in which any call may fail: it returns with its record at the end
of the log, or raises with the log as it was, unless it raises and the session is spoiled.
-/

namespace IcsDeception

open Text Json Calendar Method NodeState

namespace EvidenceStore

open Disk

/-- A record that can stand in a journal of a node, and a state behind it that can be written. -/
structure Recordable (nodeId key record eventHash : Str) (sequence : Int) : Prop where
  key_ne_nil : key ≠ []
  key : Scalar key
  nodeId : Scalar nodeId
  record : Scalar record
  eventHash : Scalar eventHash
  sequence : (Decimal.natText sequence.natAbs).length ≤ maxDigits

/-- A postcondition, unless an exception has left the session spoiled. -/
def Unless {α : Type} (R : Except Exn α → EvidenceStore → Watched → Prop) (r : Except Exn α)
    (o : EvidenceStore) (s : Watched) : Prop :=
  (s.stage = .spoiled ∧ ∃ e, r = .error e) ∨ R r o s

/-- The rule of sequencing for such postconditions. -/
theorem safe_bind_unless {α β : Type} {limit : Nat} {m : StoreM α} {f : α → StoreM β}
    {o : EvidenceStore} {s : Watched} {R : Except Exn α → EvidenceStore → Watched → Prop}
    {R' : Except Exn β → EvidenceStore → Watched → Prop}
    (hm : m.Safe (faulty limit) (fun _ => True) (Unless R) o s)
    (herror : ∀ e o' t, R (.error e) o' t → R' (.error e) o' t)
    (hok : ∀ a o' t, R (.ok a) o' t → (f a).Safe (faulty limit) (fun _ => True) (Unless R') o' t) :
    (m >>= f).Safe (faulty limit) (fun _ => True) (Unless R') o s := by
  refine safe_bind_cases hm (fun e o' t ht => ?_) fun a o' t ht => ?_
  · rcases ht with ⟨hs, -⟩ | ht
    · exact .inl ⟨hs, e, rfl⟩
    · exact .inr (herror e o' t ht)
  · rcases ht with ⟨-, e, he⟩ | ht
    · cases he
    · exact hok a o' t ht

/-- What may stand in the journal over a log: nothing, or what leaves the log alone. -/
structure Admits (py : Interp) (nodeId : Str) (log : Bytes) (J : Option Bytes → Prop) : Prop where
  none : J none
  quiet : ∀ b, Quiet py nodeId log (some b) → J (some b)

theorem admits_prospect {py : Interp} {limit : Nat} {nodeId : Str} {P : Bytes → Prop} {log : Bytes}
    (hlog : P log) : Admits py nodeId log (Prospect py limit nodeId P log) :=
  ⟨prospect_none hlog, fun _ h => h.prospect hlog⟩

section Journaling

variable {py : Interp} {J : Option Bytes → Prop} {nodeId keyId : Str} {log : Bytes} {limit : Nat}

/-- What a journal says, if it says anything: the line is to stand at the end of the log. -/
def Announces (py : Interp) (nodeId : Str) (log : Bytes) (line : Str) (journal : Option Bytes) :
    Prop :=
  ∀ b ∈ journal, ∀ e, readJournal py nodeId b = .ok (.entry e) →
    e.offset = log.length ∧ e.line = line

/-- Such a journal is quiet before the append. -/
theorem Announces.quiet {record : Str} {journal : Option Bytes}
    (h : Announces py nodeId log (record ++ [lf]) journal) : Quiet py nodeId log journal := by
  intro b hb e he line hline
  obtain ⟨hoffset, hrecord⟩ := h b hb e he
  rw [hrecord] at hline
  exact .inl ⟨line_ne_nil hline, hoffset⟩

/-- And it is quiet behind the append. -/
theorem Announces.quiet_appended {record : Str} {journal : Option Bytes}
    (h : Announces py nodeId log (record ++ [lf]) journal) {payload : Bytes}
    (hpayload : encoded (record ++ [lf]) = .ok payload) :
    Quiet py nodeId (log ++ payload) journal := by
  intro b hb e he line hline
  obtain ⟨hoffset, hrecord⟩ := h b hb e he
  obtain rfl : payload = line := by
    rw [hrecord] at hline
    exact Except.ok.inj (hpayload.symm.trans hline)
  refine .inr ⟨by omega, ?_, ?_⟩
  · rw [hoffset, Int.toNat_natCast, List.drop_left, List.take_length]
  · rw [hoffset, List.length_append]
    omega

/-- A call that puts a part of some bytes in the journal, or fails before it does. -/
structure Puts (b : Bytes) (d : Disk) (r : Except Exn Unit) (d' : Disk) : Prop where
  disk : d' = d ∨ ∃ p, p <+: b ∧ d' = { d with journal := some p }
  done : r = .ok () → d' = { d with journal := some b }

theorem puts_createJournal {d d' : Disk} {r : Except Exn Unit}
    (h : (∃ time, handle limit time .createJournal d = (r, d')) ∨
      Failure limit .createJournal d r d') : Puts [] d r d' := by
  rcases h with ⟨time, h⟩ | h
  · obtain ⟨rfl, rfl⟩ := Prod.mk.inj h
    exact ⟨.inr ⟨[], List.prefix_rfl, rfl⟩, fun _ => rfl⟩
  · cases h with
    | plain d _ => exact ⟨.inl rfl, fun hr => (nomatch hr)⟩
    | createJournal d =>
        exact ⟨.inr ⟨[], List.prefix_rfl, rfl⟩, fun hr => (nomatch hr)⟩

theorem puts_writeJournal {b : Bytes} {d d' : Disk} {r : Except Exn Unit}
    (h : (∃ time, handle limit time (.writeJournal b) d = (r, d')) ∨
      Failure limit (.writeJournal b) d r d') : Puts b d r d' := by
  rcases h with ⟨time, h⟩ | h
  · obtain ⟨rfl, rfl⟩ := Prod.mk.inj h
    exact ⟨.inr ⟨b, List.prefix_rfl, rfl⟩, fun _ => rfl⟩
  · cases h with
    | plain d _ => exact ⟨.inl rfl, fun hr => (nomatch hr)⟩
    | writeJournal d hp =>
        exact ⟨.inr ⟨_, hp, rfl⟩, fun hr => (nomatch hr)⟩

/-- What is held when a part of a quiet journal has been put down. -/
theorem Puts.holds {b : Bytes} {o : EvidenceStore} {s t : Watched} {r : Except Exn Unit}
    (hp : Puts b s.disk r t.disk) (h : Holds J nodeId keyId log .idle o s)
    (hb : ∀ p, p <+: b → J (some p)) (ht : t.stage = .idle) :
    Holds J nodeId keyId log .idle o t := by
  rcases hp.disk with hd | ⟨p, hpre, hd⟩
  · exact { h with journal := hd ▸ h.journal, log := hd ▸ h.log, stage := ht }
  · exact { h with journal := hd ▸ hb p hpre, log := hd ▸ h.log, stage := ht }

theorem safe_createJournal_faulty (hJ : Admits py nodeId log J) {o : EvidenceStore} {s : Watched}
    (h : Holds J nodeId keyId log .idle o s) :
    (sys .createJournal).Safe (faulty limit) (fun _ => True)
      (fun _ => Holds J nodeId keyId log .idle) o s := by
  refine @safe_sys_faulty limit .createJournal o s _ ?_
  rintro r t ⟨hr, hstage⟩
  rw [h.stage] at hstage
  refine (puts_createJournal hr).holds h (fun p hp => hJ.quiet p ?_) hstage
  obtain rfl := List.prefix_nil.mp hp
  rintro b ⟨⟩ e he
  cases he

/-- Writing a journal whose every front may stand there. -/
theorem safe_putJournal_faulty {o : EvidenceStore} {s : Watched} {b : Bytes}
    (h : Holds J nodeId keyId log .idle o s) (hb : ∀ p, p <+: b → J (some p)) :
    (sys (.writeJournal b)).Safe (faulty limit) (fun _ => True)
      (fun r o' t => Holds J nodeId keyId log .idle o' t ∧
        (r = .ok () → t.disk.journal = some b)) o s := by
  refine @safe_sys_faulty limit (.writeJournal b) o s _ ?_
  rintro r t ⟨hr, hstage⟩
  rw [h.stage] at hstage
  have hputs := puts_writeJournal hr
  refine ⟨hputs.holds h hb hstage, fun hok => ?_⟩
  rw [hputs.done hok]

/-- The journal of an append is written and announces its line, or is quiet. -/
theorem safe_writeJournal_faulty (hJ : Admits py nodeId log J) {o : EvidenceStore} {s : Watched}
    {record eventHash : Str} {sequence : Int} {key : Str}
    (hr : Recordable nodeId key record eventHash sequence)
    (hsize : (Decimal.natText log.length).length ≤ maxDigits)
    (h : Holds J nodeId keyId log .idle o s) :
    (writeJournal py sequence eventHash log.length record (some key)).Safe (faulty limit)
      (fun _ => True) (fun r o' t => Holds J nodeId keyId log .idle o' t ∧
        (r = .ok () → Announces py nodeId log (record ++ [lf]) t.disk.journal)) o s := by
  have hown : ownKey (some key) o.keyId = key := if_neg hr.key_ne_nil
  have hwritable : JournalWritable o.nodeId key eventHash record sequence log.length :=
    { nodeId := h.nodeId ▸ hr.nodeId
      keyId := hr.key
      eventHash := hr.eventHash
      record := hr.record
      sequence := hr.sequence
      offset := hsize }
  unfold writeJournal
  rw [safe_bind, safe_self]
  refine ⟨trivial, ?_⟩
  rw [Then]
  refine safe_bind_cases (safe_sys_tame rfl hJ.none h)
    (fun e o' t ht => ⟨ht.1, fun hr => by cases hr⟩) fun time o₁ s₁ h₁ => ?_
  obtain ⟨h₁, -⟩ := h₁
  obtain ⟨text, htext⟩ := dump_journalMembers o.nodeId key eventHash record
    (time.text py.padYears ++ [cp 'Z']) hr.sequence hsize
  -- whatever part of the text is put down, it announces the line or says nothing
  have hannounces : ∀ p, p <+: Utf8.encodeAll text →
      Announces py nodeId log (record ++ [lf]) (some p) := by
    rintro p hp b ⟨⟩ e he
    rw [← h.nodeId] at he
    rw [hwritable.entry_eq htext hp he]
    exact ⟨rfl, rfl⟩
  refine safe_bind_cases (safe_createJournal_faulty hJ h₁)
    (fun e o' t ht => ⟨ht, fun hr => by cases hr⟩) fun _ o₂ s₂ h₂ => ?_
  rw [hown, htext]
  dsimp only
  rw [safe_bind, safe_attempt]
  refine (safe_putJournal_faulty h₂ fun p hp => hJ.quiet p (hannounces p hp).quiet).weaken
    fun r o₃ s₃ _ h₃ => ?_
  obtain ⟨h₃, hjournal⟩ := h₃
  cases r with
  | ok u =>
      refine ⟨trivial, h₃, fun _ => ?_⟩
      rw [hjournal rfl]
      exact hannounces _ List.prefix_rfl
  | error e =>
      cases e
      all_goals exact ⟨trivial, h₃, fun hr => by cases hr⟩

end Journaling

section Transaction

variable {py : Interp} {J : Option Bytes → Prop} {nodeId keyId : Str} {log : Bytes} {limit : Nat}

theorem keeps_allocate (hnone : J none) :
    (allocate py).Keeps (faulty limit) (Holds J nodeId keyId log .idle) :=
  keeps_self.bind fun _ => keeps_requireLock.bind fun _ =>
    (keeps_readState (tolerates_holds hnone)).bind fun _ => (keeps_ofExcept _).bind fun _ =>
      keeps_pure _

/-- A log that is there has its length as size. -/
theorem safe_measure (hJ : J none) {f : Option Nat → StoreM Nat} (hnone : f none = raise .osError)
    (hsome : ∀ n, f (some n) = pure n) {o : EvidenceStore} {s : Watched}
    (h : Holds J nodeId keyId log .idle o s) :
    (sys .statLog >>= f).Safe (faulty limit) (fun _ => True) (fun r o' t =>
      Holds J nodeId keyId log .idle o' t ∧ ∀ n, r = .ok n → n = log.length) o s := by
  refine safe_bind_cases (safe_sys_tame rfl hJ h)
    (fun e o' t ht => ⟨ht.1, fun n hn => nomatch hn⟩) fun found o' t ht => ?_
  obtain ⟨ht, hfound⟩ := ht
  obtain ⟨time, hr⟩ := hfound found rfl
  obtain ⟨hr, hd⟩ := Prod.mk.inj hr
  cases found with
  | none =>
      rw [hnone]
      exact ⟨trivial, ht, fun n hn => nomatch hn⟩
  | some size =>
      rw [hsome]
      refine ⟨trivial, ht, fun n hn => ?_⟩
      obtain ⟨b, hb, hsize⟩ := Option.map_eq_some_iff.mp (Except.ok.inj hr)
      rw [← Except.ok.inj hn, ← ht.log, ← hd, logBytes, hb, ← hsize]
      rfl

/-- The offset of an append is the length of the log. -/
theorem safe_logOffset_faulty (hnone : J none) {o : EvidenceStore} {s : Watched}
    (h : Holds J nodeId keyId log .idle o s) :
    (logOffset).Safe (faulty limit) (fun _ => True) (fun r o' t =>
      Holds J nodeId keyId log .idle o' t ∧ ∀ n, r = .ok n → n = log.length) o s := by
  unfold logOffset
  refine safe_bind_cases (safe_sys_tame rfl hnone h)
    (fun e o' t ht => ⟨ht.1, fun n hn => nomatch hn⟩) fun found o₁ s₁ h₁ => ?_
  cases found with
  | none =>
      exact safe_bind_cases (safe_sys_tame (c := .createLog) rfl hnone h₁.1)
        (fun e o' t ht => ⟨ht.1, fun n hn => nomatch hn⟩) fun _ o₂ s₂ h₂ =>
          safe_measure hnone rfl (fun _ => rfl) h₂.1
  | some size => exact safe_measure hnone rfl (fun _ => rfl) h₁.1

/-- A cut behind the front of a log leaves the front. -/
theorem truncate_torn {d : Disk} {p : Bytes} (hd : d.log = some (log ++ p)) :
    (d.truncate limit log.length).2 = { d with log := some log } := by
  have hsize : ¬ (log.length : Int) < -2 ^ 63 := by omega
  have hnonneg : ¬ (log.length : Int) < 0 := by omega
  have hwithin : (log.length : Int) ≤ (log ++ p).length := by
    rw [List.length_append]
    omega
  rw [truncate, hd]
  dsimp only
  rw [if_neg hsize, if_neg hnonneg, if_pos (.inl hwithin), Int.toNat_natCast,
    resize_append_left]

/-- What a failed append has left in a session. -/
structure Left (J : Option Bytes → Prop) (nodeId keyId : Str) (log p : Bytes) (o : EvidenceStore)
    (s : Watched) : Prop where
  journal : J s.disk.journal
  stage : s.stage = if p = [] then .idle else .torn log.length
  log : s.disk.logBytes = log ++ p
  lockHeld : o.lockHeld = true
  nodeId : o.nodeId = nodeId
  keyId : o.keyId = keyId

/-- The cut of a rollback: the log is as it was, or the session is spoiled. -/
theorem safe_cut (hJ : J none) {f : Option Nat → StoreM Unit} (hnone : f none = pure ())
    (hsome : ∀ n, f (some n) = if log.length < n then truncateEvidence log.length else pure ())
    {o : EvidenceStore} {s : Watched} {p : Bytes} (h : Left J nodeId keyId log p o s) :
    (sys .statLog >>= f).Safe (faulty limit) (fun _ => True)
      (fun _ o' t => t.stage = .spoiled ∨ Holds J nodeId keyId log .idle o' t) o s := by
  by_cases hp : p = []
  · -- nothing was written, so there is nothing to cut
    have hheld : Holds J nodeId keyId log .idle o s :=
      { h with
        log := by rw [h.log, hp, List.append_nil]
        stage := h.stage.trans (if_pos hp) }
    refine safe_bind_cases (safe_sys_tame rfl hJ hheld) (fun e o' t ht => .inr ht.1)
      fun found o' t ht => ?_
    obtain ⟨ht, hfound⟩ := ht
    obtain ⟨time, hr⟩ := hfound found rfl
    obtain ⟨hr, hd⟩ := Prod.mk.inj hr
    cases found with
    | none =>
        rw [hnone]
        exact ⟨trivial, .inr ht⟩
    | some size =>
        obtain ⟨b, hb, hsize⟩ := Option.map_eq_some_iff.mp (Except.ok.inj hr)
        have hlength : size = log.length := by
          rw [← ht.log, ← hd, logBytes, hb, ← hsize]
          rfl
        rw [hsome, if_neg (by omega)]
        exact ⟨trivial, .inr ht⟩
  · have hstage : s.stage = .torn log.length := h.stage.trans (if_neg hp)
    have hne : log ++ p ≠ [] := List.append_ne_nil_of_right_ne_nil _ hp
    have hd : s.disk.log = some (log ++ p) := by
      cases hd : s.disk.log with
      | none =>
          have hbytes := h.log
          rw [logBytes, hd] at hbytes
          exact absurd hbytes.symm hne
      | some b =>
          have hbytes := h.log
          rw [logBytes, hd] at hbytes
          exact congrArg some hbytes
    have hpos : 0 < p.length := List.length_pos_of_ne_nil hp
    rw [safe_bind]
    refine safe_sys_faulty ?_
    rintro r t ⟨hr, ht⟩
    rw [hstage] at ht
    cases r with
    | error e => exact .inl ht
    | ok found =>
        rcases hr with ⟨time, hr⟩ | hr
        · obtain ⟨hfound, hdisk⟩ := Prod.mk.inj hr
          obtain rfl : found = some (log ++ p).length := by
            rw [← Except.ok.inj hfound, hd]
            rfl
          have hlonger : log.length < (log ++ p).length := by
            rw [List.length_append]
            omega
          rw [Then, hsome, if_pos hlonger]
          refine @safe_sys_faulty limit (.truncateLog log.length) o t _ ?_
          rintro r' t' ⟨hr', ht'⟩
          rw [ht] at ht'
          rw [← hdisk] at hr'
          rcases truncate_answer hr' with hcut | hcut
          · have hlength : t'.disk.logBytes.length ≠ log.length := by
              rw [hcut, h.log]
              omega
            exact .inl (ht'.trans (if_neg hlength))
          · rw [truncate_torn hd] at hcut
            have hlog : t'.disk.logBytes = log := by
              rw [hcut]
              rfl
            have hjournal : t'.disk.journal = s.disk.journal := by rw [hcut]
            exact .inr
              { h with
                journal := hjournal ▸ h.journal
                log := hlog
                stage := ht'.trans (if_pos (by rw [hlog])) }
        · obtain ⟨e, he⟩ := hr.error
          cases he

/-- Cutting a failed append off. -/
theorem safe_rollback_faulty (hnone : J none) {o : EvidenceStore} {s : Watched} {p : Bytes}
    (h : Left J nodeId keyId log p o s) :
    (rollback log.length).Safe (faulty limit) (fun _ => True)
      (fun _ o' t => t.stage = .spoiled ∨ Holds J nodeId keyId log .idle o' t) o s := by
  have hdrop : (dropJournal).Keeps (faulty limit)
      fun o' t => t.stage = .spoiled ∨ Holds J nodeId keyId log .idle o' t := by
    intro o' t ht
    rcases ht with ht | ht
    · exact (safe_of_keeps (faulty_keeps_spoiled limit) _ ht).weaken fun _ _ _ _ h => .inl h
    · exact (keeps_dropJournal (tolerates_holds hnone)).safe ht fun _ _ _ h => .inr h
  unfold rollback
  refine safe_bind_cases
    (R := fun _ o' t => t.stage = .spoiled ∨ Holds J nodeId keyId log .idle o' t) ?_
    (fun e o' t ht => ht) fun _ o' t ht => hdrop o' t ht
  rw [safe_suppress]
  exact safe_cut hnone rfl (fun _ => rfl) h

/-- What an append leaves: its record at the end of the log, or, when it raises, the log as it
was. -/
def Appends (py : Interp) (limit : Nat) (J : Option Bytes → Prop) (nodeId keyId : Str)
    (log payload : Bytes) {α : Type} (a : α) (r : Except Exn α) (o : EvidenceStore) (s : Watched) :
    Prop :=
  (r = .ok a ∧ (log ++ payload).length ≤ limit ∧
    Holds (Quiet py nodeId (log ++ payload)) nodeId keyId (log ++ payload) .written o s) ∨
    ((∃ e, r = .error e) ∧ Holds J nodeId keyId log .idle o s)

/-- An append is made, or fails when a part is written. -/
theorem append_answer {b : Bytes} {d d' : Disk} {r : Except Exn Unit}
    (h : (∃ time, handle limit time (.appendLog b) d = (r, d')) ∨
      Failure limit (.appendLog b) d r d') :
    (r = .ok () ∧ (d.logBytes ++ b).length ≤ limit ∧ d' = d.extend b) ∨
      (r = .error .osError ∧ d'.journal = d.journal ∧ ∃ p, d'.logBytes = d.logBytes ++ p) := by
  have hsame : d.logBytes = d.logBytes ++ [] := (List.append_nil _).symm
  rcases h with ⟨time, h⟩ | h
  · rw [handle] at h
    split_ifs at h with hroom
    · obtain ⟨rfl, rfl⟩ := Prod.mk.inj h
      exact .inl ⟨rfl, hroom, rfl⟩
    · obtain ⟨rfl, rfl⟩ := Prod.mk.inj h
      exact .inr ⟨rfl, rfl, [], hsame⟩
  · cases h with
    | plain d _ => exact .inr ⟨rfl, rfl, [], hsame⟩
    | @appendLog _ p d hp hl => exact .inr ⟨rfl, rfl, p, rfl⟩

/-- The append of a record whose journal is written. -/
theorem safe_appendPayload_faulty (hnone : J none) {record : Str} {payload : Bytes}
    (hpayload : encoded (record ++ [lf]) = .ok payload) {o : EvidenceStore} {s : Watched}
    (h : Holds J nodeId keyId log .idle o s)
    (hj : Announces py nodeId log (record ++ [lf]) s.disk.journal) :
    (appendPayload log.length payload).Safe (faulty limit) (fun _ => True)
      (Unless (Appends py limit J nodeId keyId log payload ())) o s := by
  unfold appendPayload
  rw [safe_bind, safe_attempt]
  refine @safe_sys_faulty limit (.appendLog payload) o s _ ?_
  rintro r t ⟨hr, hstage⟩
  rw [h.stage] at hstage
  rcases append_answer hr with ⟨rfl, hroom, hd⟩ | ⟨rfl, hjournal, p, hlog⟩
  · rw [h.log] at hroom
    have hlog : t.disk.logBytes = log ++ payload := by
      rw [hd, ← h.log]
      rfl
    refine ⟨trivial, .inr (.inl ⟨rfl, hroom, ?_⟩)⟩
    exact
      { h with
        journal := by
          rw [hd]
          exact hj.quiet_appended hpayload
        log := hlog
        stage := hstage }
  · rw [h.log] at hlog
    have hleft : Left J nodeId keyId log p o t :=
      { h with
        journal := hjournal ▸ h.journal
        log := hlog
        stage := by
          have hnil : log ++ p = log ↔ p = [] := by simp
          rw [hstage, Stage.after, hlog, h.log]
          exact if_congr hnil rfl rfl }
    refine safe_bind_cases (safe_rollback_faulty hnone hleft) (fun e o' t ht => ?_)
      fun _ o' t ht => ⟨trivial, ?_⟩
    · exact ht.imp (fun ht => ⟨ht, e, rfl⟩) fun ht => .inr ⟨⟨e, rfl⟩, ht⟩
    · exact ht.imp (fun ht => ⟨ht, _, rfl⟩) fun ht => .inr ⟨⟨_, rfl⟩, ht⟩

/-- The clock answers, and leaves everything as it is. -/
theorem now_answer {s t : Watched} {r : Except Exn Instant} (h : (faulty limit).answers .now s r t) :
    ∃ time, r = .ok time ∧ t = s := by
  obtain ⟨disk, stage⟩ := t
  obtain ⟨hr, hstage⟩ := h
  have hkept : stage = s.stage := by
    refine hstage.trans ?_
    cases s.stage <;> rfl
  rcases hr with ⟨time, hr⟩ | hr
  · obtain ⟨htime, hd⟩ := Prod.mk.inj hr
    obtain rfl : s.disk = disk := hd
    exact ⟨time, htime.symm, by rw [hkept]⟩
  · change Failure limit .now s.disk r disk at hr
    cases hr with
    | plain d hc => exact absurd rfl hc

/-- The state behind a record that stands in the log is written, or the session is spoiled. -/
theorem safe_writeState_written (hnone : J none) {st : NodeState} (hst : Writable py st)
    {o : EvidenceStore} {s : Watched} (h : Holds J nodeId keyId log .written o s) :
    (writeState py st).Safe (faulty limit) (fun _ => True)
      (Unless fun r o' t => r = .ok () ∧ Holds J nodeId keyId log .written o' t) o s := by
  unfold writeState
  rw [safe_bind]
  refine @safe_sys_faulty limit .now o s _ fun r t ht => ?_
  obtain ⟨time, rfl, rfl⟩ := now_answer ht
  obtain ⟨b, hb⟩ := fileBytes_ok hst time
  rw [Then, safe_bind, safe_ofExcept, hb]
  refine ⟨trivial, ?_⟩
  rw [Then, safe_bind]
  refine @safe_sys_faulty limit (.replaceState b) o t _ fun r t' ht' => ?_
  cases r with
  | error e =>
      have hstage := ht'.2
      rw [h.stage] at hstage
      exact .inl ⟨hstage, e, rfl⟩
  | ok u =>
      have hk := h.tame rfl hnone ht' (by rw [h.stage]; rfl)
      exact ⟨trivial, .inr ⟨rfl, hk.toRests, hk.lockHeld, hk.nodeId, hk.keyId⟩⟩

/-- The commit of a record that stands in the log. -/
theorem safe_commitState_faulty (hnone : J none) {st : NodeState} (hst : Writable py st)
    {o : EvidenceStore} {s : Watched} (h : Holds J nodeId keyId log .written o s) :
    (commitState py st).Safe (faulty limit) (fun _ => True)
      (Unless fun r o' t => r = .ok () ∧ Holds J nodeId keyId log .written o' t) o s := by
  unfold commitState
  rw [safe_bind, safe_attempt]
  refine (safe_writeState_written hnone hst h).weaken fun r o' t _ ht => ?_
  rcases ht with ⟨hs, e, rfl⟩ | ⟨rfl, ht⟩
  · cases e
    all_goals exact ⟨trivial, .inl ⟨hs, _, rfl⟩⟩
  · exact ⟨trivial, .inr ⟨rfl, ht⟩⟩

/-- The journal is dropped, or stays where it cannot be. -/
theorem safe_dropJournal_written (hnone : J none) {o : EvidenceStore} {s : Watched}
    (h : Holds J nodeId keyId log .written o s) :
    (dropJournal).Safe (faulty limit) (fun _ => True)
      (fun r o' t => r = .ok () ∧ Holds J nodeId keyId log .written o' t) o s := by
  unfold dropJournal
  rw [safe_suppress]
  refine @safe_sys_faulty limit .unlinkJournal o s _ fun r t ht => ?_
  refine ⟨?_, h.tame rfl hnone ht (by rw [h.stage]; rfl)⟩
  have herror : r = .ok () ∨ r = .error .osError := by
    rcases ht.1 with ⟨time, hr⟩ | hr
    · rw [handle] at hr
      split_ifs at hr
      · exact .inl (Prod.mk.inj hr).1.symm
      · exact .inr (Prod.mk.inj hr).1.symm
    · generalize t.disk = d at hr
      cases hr with
      | plain d hc => exact .inr rfl
  rcases herror with rfl | rfl <;> rfl

/-- The state behind a record of a node with a key. -/
theorem writable_committed {key : Str} (hne : key ≠ []) {sequence : Int} {hash node own : Str}
    {st : NodeState} (hsequence : (Decimal.natText sequence.natAbs).length ≤ maxDigits) :
    Writable py ⟨node, chooseKey py (optionalText (some key)) own st, sequence, some hash⟩ := by
  have htruth : py.truth (.str key) = true := by
    rw [Interp.truth, List.isEmpty_eq_false_iff.mpr hne]
    rfl
  have hkey : chooseKey py (optionalText (some key)) own st = .str key := if_pos htruth
  have hlimit := py.dumpLimit_le
  rw [hkey]
  refine ⟨?_, ⟨_, rfl⟩, hsequence⟩
  simp only [Value.nest]
  omega

/-- The append transaction. -/
theorem safe_appendSigned_faulty (hJ : Admits py nodeId log J) {build : Build} {key : Str}
    (hbuild : ∀ sequence previous record hash, build sequence previous = .ok (record, hash) →
      Recordable nodeId key record hash sequence)
    (hsize : (Decimal.natText log.length).length ≤ maxDigits) {o : EvidenceStore} {s : Watched}
    (h : Holds J nodeId keyId log .idle o s) :
    (appendSigned py build (some key)).Safe (faulty limit) (fun _ => True)
      (Unless fun r o' t =>
        (∃ sequence previous record hash, build sequence previous = .ok (record, hash) ∧
          Appends py limit J nodeId keyId log (Utf8.encodeAll (record ++ [lf])) (sequence, hash)
            r o' t) ∨
        ((∃ e, r = .error e) ∧ Holds J nodeId keyId log .idle o' t)) o s := by
  unfold appendSigned
  refine safe_bind_cases (R := fun _ => Holds J nodeId keyId log .idle)
    (keeps_allocate hJ.none o s h) (fun e o' t ht => .inr (.inr ⟨⟨e, rfl⟩, ht⟩))
    fun p o₁ s₁ h₁ => ?_
  obtain ⟨st, sequence, previous⟩ := p
  dsimp only
  rw [safe_bind, safe_ofExcept]
  refine ⟨trivial, ?_⟩
  cases hb : build sequence previous with
  | error e => exact .inr (.inr ⟨⟨e, rfl⟩, h₁⟩)
  | ok p =>
      obtain ⟨record, hash⟩ := p
      have hrecord := hbuild _ _ _ _ hb
      have hpayload : encoded (record ++ [lf]) = .ok (Utf8.encodeAll (record ++ [lf])) := by
        rw [encoded, Utf8.encode_of_scalar (scalar_append.mpr ⟨hrecord.record, by decide⟩)]
      rw [Then]
      refine safe_bind_cases (safe_logOffset_faulty hJ.none h₁)
        (fun e o' t ht => .inr (.inr ⟨⟨e, rfl⟩, ht.1⟩)) fun n o₂ s₂ h₂ => ?_
      obtain ⟨h₂, hn⟩ := h₂
      obtain rfl := hn n rfl
      refine safe_bind_cases (safe_writeJournal_faulty hJ hrecord hsize h₂)
        (fun e o' t ht => .inr (.inr ⟨⟨e, rfl⟩, ht.1⟩)) fun _ o₃ s₃ h₃ => ?_
      obtain ⟨h₃, hannounces⟩ := h₃
      rw [safe_bind, safe_ofExcept, hpayload]
      refine ⟨trivial, ?_⟩
      rw [Then]
      refine safe_bind_unless (safe_appendPayload_faulty hJ.none hpayload h₃ (hannounces rfl))
        (fun e o' t ht => ?_) fun _ o₄ s₄ h₄ => ?_
      · rcases ht with ⟨hr, -⟩ | ⟨-, ht⟩
        · cases hr
        · exact .inr ⟨⟨e, rfl⟩, ht⟩
      rcases h₄ with ⟨-, hroom, h₄⟩ | ⟨⟨e, hr⟩, -⟩
      · rw [safe_bind, safe_self]
        refine ⟨trivial, ?_⟩
        rw [Then]
        refine safe_bind_unless (safe_commitState_faulty quiet_none
          (writable_committed hrecord.key_ne_nil hrecord.sequence) h₄) (fun e o' t ht => by cases ht.1)
          fun _ o₅ s₅ h₅ => ?_
        refine safe_bind_cases (safe_dropJournal_written quiet_none h₅.2)
          (fun e o' t ht => by cases ht.1) fun _ o₆ s₆ h₆ => ?_
        exact ⟨trivial, .inr (.inl ⟨sequence, previous, record, hash, hb, .inl ⟨rfl, hroom, h₆.2⟩⟩)⟩
      · cases hr

/-- The release of the lock: the session is over, or spoiled where its record is in the log. -/
theorem safe_exit_faulty {g : Stage} (hg : g = .idle ∨ g = .written) {o : EvidenceStore}
    {t : Watched} (h : Holds J nodeId keyId log g o t) :
    (EvidenceStore.exit).Safe (faulty limit) (fun _ => True)
      (Unless fun r _ t' => Rests J log .idle t' ∧ (g = .written → r = .ok ())) o t := by
  rw [EvidenceStore.exit, release, safe_bind, safe_self]
  refine ⟨trivial, ?_⟩
  rw [Then, if_pos h.lockHeld, safe_bind, safe_modify]
  refine ⟨trivial, ?_⟩
  rw [Then]
  refine @safe_sys_faulty limit .unlock _ t _ ?_
  rintro r t' ⟨hr, hstage⟩
  rw [h.stage] at hstage
  have hdisk : t'.disk.logBytes = t.disk.logBytes ∧ t'.disk.journal = t.disk.journal := by
    rcases hr with ⟨time, hr⟩ | hr
    · obtain ⟨-, hd⟩ := Prod.mk.inj hr
      rw [← hd]
      exact ⟨rfl, rfl⟩
    · generalize t'.disk = d at hr ⊢
      cases hr with
      | plain d _ | close d => exact ⟨rfl, rfl⟩
  have hrests : t'.stage = .idle → Rests J log .idle t' := fun hidle =>
    ⟨hdisk.2 ▸ h.journal, hdisk.1.trans h.log, hidle⟩
  rcases hg with rfl | rfl
  · exact .inr ⟨hrests hstage, fun hw => by cases hw⟩
  · cases r with
    | ok u => exact .inr ⟨hrests hstage, fun _ => rfl⟩
    | error e => exact .inl ⟨hstage, e, rfl⟩

end Transaction

end EvidenceStore

end IcsDeception
