import IcsDeception.FailingAppend
import IcsDeception.Publisher
import IcsDeception.SignLog

/-!
# The evidence sink

How an event that a publisher emits is sealed, and what the sink counts. Each call is
counted in one way, and the records that the calls have left in the log are as many as the
sink says, unless a session is spoiled.
-/

namespace IcsDeception

open Text Json Calendar Method Models EnvelopeRoundTrip Canonicalizer

/-! ## The source -/

/-- `EvidenceMode`. -/
inductive EvidenceMode
  | disabled
  | sign
  | dual
  | verifyOnly
  deriving DecidableEq

/-- `EvidenceMetrics`, the counters that a call of `handle` moves. -/
structure EvidenceMetrics where
  received : Nat
  signed : Nat
  persisted : Nat
  rejectedBeforeSigning : Nat
  signingFailures : Nat
  persistenceFailures : Nat
  backendUnavailable : Nat
  deriving DecidableEq

/-- `EvidenceSink`. There is a signer in the modes that sign. -/
structure EvidenceSink where
  mode : EvidenceMode
  signer : Option EvidenceSigner
  metrics : EvidenceMetrics

/-- A method of the sink. -/
abbrev SinkM (α : Type) : Type := Method Fs Exn EvidenceSink α

namespace EvidenceSink

/-- `self.metrics.increment(name)`. -/
def increment (f : EvidenceMetrics → EvidenceMetrics) : SinkM Unit :=
  Method.modify fun k => { k with metrics := f k.metrics }

/-- A method of a store that the signer makes for it. -/
def onStore {α : Type} (s : EvidenceSigner) (m : StoreM α) : SinkM α := fun k =>
  (m s.store).bind fun p => .done (p.1, k)

/-- `EvidenceSink.handle`. -/
def handle (py : Interp) (numberLe : Publisher.Number → Publisher.Number → Bool)
    (event : Publisher.Event) : SinkM Bool := do
  increment fun m => { m with received := m.received + 1 }
  let k ← self
  match k.signer with
  | none => return true
  | some s =>
      match Publisher.boundEvent py numberLe event with
      | .error _ =>
          increment fun m => { m with rejectedBeforeSigning := m.rejectedBeforeSigning + 1 }
          raise .signer
      | .ok bounded =>
          match ← attempt (onStore s (s.signEvent py bounded (some event.timestamp))) with
          | .error .backend =>
              increment fun m => { m with backendUnavailable := m.backendUnavailable + 1 }
              increment fun m => { m with signingFailures := m.signingFailures + 1 }
              raise .backend
          | .error .signer =>
              increment fun m => { m with signingFailures := m.signingFailures + 1 }
              raise .signer
          | .error e =>
              increment fun m => { m with persistenceFailures := m.persistenceFailures + 1 }
              raise e
          | .ok _ =>
              increment fun m => { m with signed := m.signed + 1 }
              increment fun m => { m with persisted := m.persisted + 1 }
              let k ← self
              return k.mode = .dual

end EvidenceSink

/-! ## Sealing one event -/

namespace EvidenceSigner

open EvidenceStore

variable {py : Interp} {s : EvidenceSigner} {limit : Nat}

/-- What is built and signed seals the event, and can stand in a journal. -/
theorem builder_eq_ok {event : Value} {timestamp : Str} {sequence : Int} {previous text hash : Str}
    (h : s.builder py event timestamp sequence previous = .ok (text, hash)) :
    ∃ kvs, event = .dict kvs ∧ s.Seals kvs text ∧
      Recordable s.nodeId s.keyId text hash sequence := by
  obtain ⟨record, hr, h⟩ := bind_eq_ok.mp h
  obtain ⟨line, hline, h⟩ := bind_eq_ok.mp h
  obtain ⟨rfl, rfl⟩ := Prod.mk.inj (Except.ok.inj h)
  obtain ⟨unsigned, hu, hr⟩ := bind_eq_ok.mp hr
  obtain ⟨hash, hhash, hr⟩ := bind_eq_ok.mp hr
  obtain ⟨raw, -, hr⟩ := bind_eq_ok.mp hr
  have hbuilt := buildUnsigned_eq_ok.mp hu
  obtain ⟨digest, hdigest, hform⟩ := hbuilt.hash
  obtain rfl := Except.ok.inj (hhash.symm.trans hdigest)
  split_ifs at hr
  obtain rfl := Except.ok.inj hr
  obtain ⟨b, hb, -⟩ := bind_eq_ok.mp hline
  obtain ⟨hencodable, t, ht, -⟩ := canonicalBytes_eq_ok.mp hb
  obtain rfl := Except.ok.inj (hline.symm.trans (toJsonLine_of_encodable hencodable ht))
  have hplain := hencodable.plain ht
  refine ⟨unsigned.event, hbuilt.event, ⟨_, hline, rfl, ?_, ?_, fun hmem => ?_⟩, ?_⟩
  · rw [hbuilt.envelope]
    rfl
  · rw [hbuilt.envelope]
    rfl
  · exact absurd (hplain _ hmem).1 (by decide)
  · have hkey : CanLink py s sequence previous :=
      { nodeId := hbuilt.nodeId
        keyId := hbuilt.keyId
        algorithm := by rw [hbuilt.signatureAlgorithm]; rfl
        hashAlgorithm := by rw [hbuilt.hashAlgorithm]; rfl
        sequence := hbuilt.sequence
        previousEventHash := hbuilt.previousEventHash }
    exact
      { key_ne_nil := hkey.keyId_ne_nil
        key := (shortText_identifier hbuilt.keyId).2
        nodeId := (shortText_identifier hbuilt.nodeId).2
        record := scalar_of_plain hplain
        eventHash := (shortText_hash (validateHash_of_isDigest hform)).2
        sequence := (sequence_digits hbuilt.sequence).trans (by decide) }

/-- What a session with one append leaves when it is over: a record behind one of the logs that
a recovery could make, or a log of which it makes one of these. -/
def Sealed (py : Interp) (s : EvidenceSigner) (event : Value) (P : Bytes → Prop)
    (r : Except Exn (Int × Str)) (t : Watched) : Prop :=
  (∃ p kvs text log, r = .ok p ∧ event = .dict kvs ∧ s.Seals kvs text ∧ P log ∧
    (log ++ Utf8.encodeAll (text ++ [lf])).length ≤ py.fileLimit ∧
    Paused py py.fileLimit s.nodeId (· = log ++ Utf8.encodeAll (text ++ [lf])) t) ∨
  ((∃ e, r = .error e) ∧ Paused py py.fileLimit s.nodeId P t)

variable {P : Bytes → Prop}

/-- The session of an event. -/
theorem safe_session_faulty (hsize : ∀ log, P log → log.length ≤ py.fileLimit) {event : Value}
    {timestamp : Str} {t : Watched} (ht : Paused py py.fileLimit s.nodeId P t) :
    (session py (s.transact py event timestamp)).Safe (faulty py.fileLimit) (fun _ => True)
      (Unless fun r _ t' => s.Sealed py event P r t') s.store t := by
  unfold session
  refine safe_bind_cases (safe_enter_faulty rfl rfl rfl ht)
    (fun e o' t h => .inr (.inr ⟨⟨e, rfl⟩, h.1⟩)) fun _ o₁ t₁ h₁ => ?_
  obtain ⟨log, h₁⟩ := h₁.2 rfl
  have hlog : P log := h₁.journal.here
  have hdigits : (Decimal.natText log.length).length ≤ maxDigits :=
    Decimal.natText_length_le (by decide) ((hsize log hlog).trans_lt (fileLimit_digits py))
  -- a session that raises releases the lock of a log that is as it was
  have hraise : ∀ (e : Exn) (o : EvidenceStore) (t : Watched),
      EvidenceStore.Holds (Prospect py py.fileLimit s.nodeId P log) s.nodeId s.keyId log .idle o t →
        (exit >>= fun _ => ofExcept (.error e) : StoreM (Int × Str)).Safe (faulty py.fileLimit)
          (fun _ => True) (Unless fun r _ t' => s.Sealed py event P r t') o t := fun e o t h =>
    safe_bind_unless (safe_exit_faulty (.inl rfl) h)
      (fun e o' t' h' => .inr ⟨⟨e, rfl⟩, log, h'.1⟩)
      fun _ o' t' h' => ⟨trivial, .inr (.inr ⟨⟨e, rfl⟩, log, h'.1⟩)⟩
  have hrecordable : ∀ sequence previous text hash,
      s.builder py event timestamp sequence previous = .ok (text, hash) →
        Recordable s.nodeId s.keyId text hash sequence := by
    intro sequence previous text hash hb
    obtain ⟨kvs, -, -, hr⟩ := builder_eq_ok hb
    exact hr
  rw [safe_bind, safe_attempt]
  refine (safe_appendSigned_faulty (admits_prospect hlog) hrecordable hdigits h₁).weaken
    fun r o₂ t₂ _ h₂ => ?_
  rw [Then]
  rcases h₂ with ⟨hspoiled, e, rfl⟩ | h₂
  · -- the exception is raised again behind the release
    rw [safe_bind]
    refine (safe_of_keeps (faulty_keeps_spoiled _) exit hspoiled).weaken fun r o' t' _ ht' => ?_
    cases r with
    | error e' => exact .inl ⟨ht', e', rfl⟩
    | ok _ => exact ⟨trivial, .inl ⟨ht', e, rfl⟩⟩
  rcases h₂ with ⟨sequence, previous, text, hash, hb, ⟨rfl, hroom, h₂⟩ | ⟨⟨e, rfl⟩, h₂⟩⟩ | ⟨⟨e, rfl⟩, h₂⟩
  · refine safe_bind_unless (safe_exit_faulty (.inr rfl) h₂) (fun e o' t' h' => ?_)
      fun _ o' t' h' => ?_
    · cases h'.2 rfl
    · obtain ⟨kvs, hkvs, hseals, -⟩ := builder_eq_ok hb
      have hrests : Rests (Prospect py py.fileLimit s.nodeId
          (· = log ++ Utf8.encodeAll (text ++ [lf])) (log ++ Utf8.encodeAll (text ++ [lf])))
          (log ++ Utf8.encodeAll (text ++ [lf])) .idle t' :=
        { h'.1 with journal := h'.1.journal.prospect rfl }
      exact ⟨trivial, .inr (.inl ⟨_, kvs, text, log, rfl, hkvs, hseals, hlog, hroom, _, hrests⟩)⟩
  · exact hraise e o₂ t₂ h₂
  · exact hraise e o₂ t₂ h₂

/-- Signing an event. -/
theorem safe_signEvent_faulty (hsize : ∀ log, P log → log.length ≤ py.fileLimit) {event : Value}
    {timestamp : Option Str} {t : Watched} (ht : Paused py py.fileLimit s.nodeId P t) :
    (s.signEvent py event timestamp).Safe (faulty py.fileLimit) (fun _ => True)
      (Unless fun r _ t' => s.Sealed py event P r t') s.store t := by
  unfold signEvent momentOf
  rw [safe_bind, safe_bind]
  refine @safe_sys_faulty _ .now s.store t _ fun r t' h => ?_
  obtain ⟨time, rfl, rfl⟩ := now_answer h
  rw [Then]
  cases timestamp with
  | none => exact ⟨trivial, safe_session_faulty hsize ht⟩
  | some text =>
      dsimp only
      split_ifs
      · exact ⟨trivial, safe_session_faulty hsize ht⟩
      · exact ⟨trivial, safe_session_faulty hsize ht⟩

end EvidenceSigner

/-! ## What the sink counts -/

/-- How a call of `handle` is counted. -/
inductive Outcome
  | persisted
  | rejected
  | signingFailure (backend : Bool)
  | persistenceFailure
  deriving DecidableEq

/-- The counters behind a call that was counted. -/
def EvidenceMetrics.note (m : EvidenceMetrics) : Outcome → EvidenceMetrics
  | .persisted =>
      { m with received := m.received + 1, signed := m.signed + 1, persisted := m.persisted + 1 }
  | .rejected =>
      { m with
        received := m.received + 1
        rejectedBeforeSigning := m.rejectedBeforeSigning + 1 }
  | .signingFailure backend =>
      { m with
        received := m.received + 1
        signingFailures := m.signingFailures + 1
        backendUnavailable := m.backendUnavailable + backend.toNat }
  | .persistenceFailure =>
      { m with received := m.received + 1, persistenceFailures := m.persistenceFailures + 1 }

namespace EvidenceSink

open EvidenceStore

variable {py : Interp} {numberLe : Publisher.Number → Publisher.Number → Bool}
  {s : EvidenceSigner} {event : Publisher.Event}

theorem safe_onStore {α σ : Type} {w : World Fs σ} {C : σ → Prop} {m : StoreM α} {k : EvidenceSink}
    {t : σ} {Q : Except Exn α → EvidenceSink → σ → Prop}
    (h : m.Safe w C (fun r _ t' => Q r k t') s.store t) : (onStore s m).Safe w C Q k t :=
  Prog.safe_bind.mpr (Prog.Safe.mono h (fun _ ht => ht) fun _ _ hc hq => ⟨hc, hq⟩)

/-- What a call that is counted leaves in the log. -/
def Leaves (py : Interp) (numberLe : Publisher.Number → Publisher.Number → Bool)
    (s : EvidenceSigner) (event : Publisher.Event) (P : Bytes → Prop) (outcome : Outcome)
    (t : Watched) : Prop :=
  (outcome = .persisted ∧ ∃ kvs text log,
    Publisher.boundEvent py numberLe event = .ok (.dict kvs) ∧ s.Seals kvs text ∧ P log ∧
    (log ++ Utf8.encodeAll (text ++ [lf])).length ≤ py.fileLimit ∧
    Paused py py.fileLimit s.nodeId (· = log ++ Utf8.encodeAll (text ++ [lf])) t) ∨
  (outcome ≠ .persisted ∧ Paused py py.fileLimit s.nodeId P t)

/-- How a result of the signer is counted. -/
def outcomeOf {α : Type} : Except Exn α → Outcome
  | .ok _ => .persisted
  | .error .backend => .signingFailure true
  | .error .signer => .signingFailure false
  | .error _ => .persistenceFailure

/-- Every call is counted in one way, whatever happens, and what it leaves is as it is counted,
unless it raises and the session is spoiled. -/
theorem safe_handle {k : EvidenceSink} (hk : k.signer = some s) {P : Bytes → Prop}
    (hsize : ∀ log, P log → log.length ≤ py.fileLimit) {t : Watched}
    (ht : t.stage ≠ .spoiled → Paused py py.fileLimit s.nodeId P t) :
    (handle py numberLe event).Safe (faulty py.fileLimit) (fun _ => True)
      (fun r k' t' => ∃ outcome, k' = { k with metrics := k.metrics.note outcome } ∧
        (outcome = .persisted ∧ r = .ok (decide (k.mode = .dual)) ∨
          outcome ≠ .persisted ∧ ∃ e, r = .error e) ∧
        (t'.stage ≠ .spoiled → Leaves py numberLe s event P outcome t') ∧
        (t.stage ≠ .spoiled → outcome = .persisted → t'.stage ≠ .spoiled)) k t := by
  unfold handle increment
  rw [safe_bind, safe_modify]
  refine ⟨trivial, ?_⟩
  rw [Then, safe_bind, safe_self]
  refine ⟨trivial, ?_⟩
  rw [Then]
  dsimp only
  rw [hk]
  dsimp only
  cases hb : Publisher.boundEvent py numberLe event with
  | error e =>
      exact ⟨trivial, .rejected, rfl, .inr ⟨fun h => (by cases h), _, rfl⟩,
        fun h => .inr ⟨by decide, ht h⟩, fun _ h => by cases h⟩
  | ok bounded =>
      have hsign : (s.signEvent py bounded (some event.timestamp)).Safe (faulty py.fileLimit)
          (fun _ => True) (fun r _ t' => (t'.stage ≠ .spoiled → s.Sealed py bounded P r t') ∧
            (t.stage ≠ .spoiled → r.isOk = true → t'.stage ≠ .spoiled)) s.store t := by
        by_cases hstage : t.stage = .spoiled
        · exact (safe_of_keeps (faulty_keeps_spoiled _) _ hstage).weaken
            fun _ _ _ _ h => ⟨fun hne => absurd h hne, fun hne => absurd hstage hne⟩
        · refine (EvidenceSigner.safe_signEvent_faulty hsize (ht hstage)).weaken
            fun r _ t' _ h => ?_
          rcases h with ⟨hspoiled, e, rfl⟩ | h
          · exact ⟨fun hne => absurd hspoiled hne, fun _ hr => by cases hr⟩
          · refine ⟨fun _ => h, fun _ _ hspoiled => ?_⟩
            rcases h with ⟨_, _, _, _, -, -, -, -, -, _, hrests⟩ | ⟨-, _, hrests⟩
            all_goals
              rw [hrests.stage] at hspoiled
              cases hspoiled
      have hleaves : ∀ r t', (t'.stage ≠ .spoiled → s.Sealed py bounded P r t') →
          t'.stage ≠ .spoiled → Leaves py numberLe s event P (outcomeOf r) t' := by
        intro r t' h hne
        rcases h hne with ⟨p, kvs, text, log, rfl, rfl, hseals, hlog, hroom, hrests⟩ | ⟨⟨e, rfl⟩, hrests⟩
        · exact .inl ⟨rfl, kvs, text, log, hb, hseals, hlog, hroom, hrests⟩
        · refine .inr ⟨?_, hrests⟩
          cases e <;> exact fun h => by cases h
      dsimp only
      rw [safe_bind, safe_attempt]
      refine safe_onStore (hsign.weaken fun r _ t' _ hr => ?_)
      have hleft := hleaves r t' hr.1
      cases r with
      | ok p => exact ⟨trivial, .persisted, rfl, .inl ⟨rfl, rfl⟩, hleft, fun h _ => hr.2 h rfl⟩
      | error e =>
          cases e with
          | backend =>
              exact ⟨trivial, .signingFailure true, rfl, .inr ⟨fun h => (by cases h), _, rfl⟩, hleft,
                fun _ h => by cases h⟩
          | signer =>
              exact ⟨trivial, .signingFailure false, rfl, .inr ⟨fun h => (by cases h), _, rfl⟩, hleft,
                fun _ h => by cases h⟩
          | _ =>
              exact ⟨trivial, .persistenceFailure, rfl, .inr ⟨fun h => (by cases h), _, rfl⟩, hleft,
                fun _ h => by cases h⟩

/-! ## Runs -/

/-- One call of `handle` after another. -/
inductive Calls (py : Interp) (numberLe : Publisher.Number → Publisher.Number → Bool) :
    List Publisher.Event → EvidenceSink → Watched → EvidenceSink → Watched → Prop
  | nil (k : EvidenceSink) (t : Watched) : Calls py numberLe [] k t k t
  | cons {event : Publisher.Event} {rest : List Publisher.Event} {k k' k'' : EvidenceSink}
      {t t' t'' : Watched} {r : Except Exn Bool}
      (hcall : (handle py numberLe event).Ends (faulty py.fileLimit) k t r k' t')
      (hrest : Calls py numberLe rest k' t' k'' t'') :
      Calls py numberLe (event :: rest) k t k'' t''

/-- The records that calls have left: one for each call that is counted as persisted, and none
for a call that is counted as a failure. -/
inductive Accounts (py : Interp) (numberLe : Publisher.Number → Publisher.Number → Bool)
    (s : EvidenceSigner) : List Publisher.Event → List Outcome → List Str → Prop
  | nil : Accounts py numberLe s [] [] []
  | persisted {event : Publisher.Event} {events : List Publisher.Event} {outcomes : List Outcome}
      {texts : List Str} {kvs : List (Key × Value)} {text : Str}
      (hb : Publisher.boundEvent py numberLe event = .ok (.dict kvs)) (ht : s.Seals kvs text)
      (hrest : Accounts py numberLe s events outcomes texts) :
      Accounts py numberLe s (event :: events) (.persisted :: outcomes) (text :: texts)
  | failed {event : Publisher.Event} {events : List Publisher.Event} {outcomes : List Outcome}
      {texts : List Str} {outcome : Outcome} (hne : outcome ≠ .persisted)
      (hrest : Accounts py numberLe s events outcomes texts) :
      Accounts py numberLe s (event :: events) (outcome :: outcomes) texts

/-- Records as they stand in a log. -/
def records (texts : List Str) : Bytes := texts.flatMap fun text => Utf8.encodeAll (text ++ [lf])

theorem Accounts.count {events : List Publisher.Event} {outcomes : List Outcome}
    {texts : List Str} (h : Accounts py numberLe s events outcomes texts) :
    texts.length = outcomes.count .persisted := by
  induction h with
  | nil => rfl
  | persisted _ _ _ ih => rw [List.length_cons, ih, List.count_cons_self]
  | failed hne _ ih => rw [ih, List.count_cons_of_ne hne]

theorem received_foldl (outcomes : List Outcome) (m : EvidenceMetrics) :
    (outcomes.foldl EvidenceMetrics.note m).received = m.received + outcomes.length := by
  induction outcomes generalizing m with
  | nil => rfl
  | cons outcome rest ih =>
      have hone : (m.note outcome).received = m.received + 1 := by cases outcome <;> rfl
      rw [List.foldl_cons, ih, hone, List.length_cons]
      omega

theorem persisted_foldl (outcomes : List Outcome) (m : EvidenceMetrics) :
    (outcomes.foldl EvidenceMetrics.note m).persisted =
      m.persisted + outcomes.count .persisted := by
  induction outcomes generalizing m with
  | nil => rfl
  | cons outcome rest ih =>
      have hone : (m.note outcome).persisted =
          m.persisted + if outcome = .persisted then 1 else 0 := by
        cases outcome <;> rfl
      rw [List.foldl_cons, ih, hone, List.count_cons]
      simp only [beq_iff_eq]
      omega

/-- A session that is spoiled stays so. -/
theorem Calls.spoiled {events : List Publisher.Event} {k k' : EvidenceSink} {t t' : Watched}
    (h : Calls py numberLe events k t k' t') (ht : t.stage = .spoiled) : t'.stage = .spoiled := by
  induction h with
  | nil => exact ht
  | cons hcall _ ih =>
      exact ih (Prog.Ends.kept (faulty_keeps_spoiled py.fileLimit) hcall ht)

/-- What a run of calls leaves. -/
theorem Calls.accounts {events : List Publisher.Event} {k k' : EvidenceSink} {t t' : Watched}
    (h : Calls py numberLe events k t k' t') (hk : k.signer = some s) {P : Bytes → Prop}
    (hsize : ∀ log, P log → log.length ≤ py.fileLimit)
    (ht : t.stage ≠ .spoiled → Paused py py.fileLimit s.nodeId P t) :
    ∃ outcomes, outcomes.length = events.length ∧
      k'.metrics = outcomes.foldl EvidenceMetrics.note k.metrics ∧
      (t'.stage ≠ .spoiled → ∃ texts, Accounts py numberLe s events outcomes texts ∧
        Paused py py.fileLimit s.nodeId (fun log => ∃ base, P base ∧ log = base ++ records texts)
          t') := by
  induction h generalizing P with
  | nil k t =>
      refine ⟨[], rfl, rfl, fun hne => ⟨[], .nil, (ht hne).mono fun log hlog => ⟨log, hlog, ?_⟩⟩⟩
      rw [records, List.flatMap_nil, List.append_nil]
  | @cons event rest k k₁ k' t t₁ t' r hcall hrest ih =>
      obtain ⟨outcome, rfl, -, hleaves, -⟩ := (safe_handle hk hsize ht).ends hcall
      by_cases hspoiled : t₁.stage = .spoiled
      · obtain ⟨outcomes, hlength, hmetrics, -⟩ := ih hk hsize fun hne => absurd hspoiled hne
        exact ⟨outcome :: outcomes, congrArg (· + 1) hlength, hmetrics,
          fun hne => absurd (hrest.spoiled hspoiled) hne⟩
      · rcases hleaves hspoiled with ⟨rfl, kvs, text, log, hb, hseals, hlog, hroom, hpaused⟩ |
          ⟨hne, hpaused⟩
        · have hsize' : ∀ log', log' = log ++ Utf8.encodeAll (text ++ [lf]) →
              log'.length ≤ py.fileLimit := by
            rintro _ rfl
            exact hroom
          obtain ⟨outcomes, hlength, hmetrics, hafter⟩ := ih hk hsize' fun _ => hpaused
          refine ⟨.persisted :: outcomes, congrArg (· + 1) hlength, hmetrics, fun hne => ?_⟩
          obtain ⟨texts, haccounts, hpaused'⟩ := hafter hne
          refine ⟨text :: texts, .persisted hb hseals haccounts, hpaused'.mono ?_⟩
          rintro _ ⟨_, rfl, rfl⟩
          refine ⟨log, hlog, ?_⟩
          rw [records, records, List.flatMap_cons, List.append_assoc]
        · obtain ⟨outcomes, hlength, hmetrics, hafter⟩ := ih hk hsize fun _ => hpaused
          refine ⟨outcome :: outcomes, congrArg (· + 1) hlength, hmetrics, fun hne' => ?_⟩
          obtain ⟨texts, haccounts, hpaused'⟩ := hafter hne'
          exact ⟨texts, .failed hne haccounts, hpaused'⟩

/-- The length of what a recovery makes of a log. -/
theorem length_of_recovered {limit : Nat} {nodeId : Str} {log log' : Bytes} {journal : Option Bytes}
    (h : Recovered py limit nodeId log journal log') (hlog : log.length ≤ limit) :
    log'.length ≤ limit := by
  rcases h with rfl | ⟨b, -, e, -, -, hpos, hreach, rfl⟩
  · exact hlog
  · rw [Disk.resize, List.length_append, List.length_take, List.length_replicate]
    omega

/-- The counters of a sink and the log behind the next open: every call is counted once, and
unless a session is spoiled, the calls have left one record for each that is counted as
persisted and nothing else, behind the log as a recovery makes it. -/
theorem metrics_truthful (py : Interp)
    (numberLe : Publisher.Number → Publisher.Number → Bool) (s : EvidenceSigner)
    (k k' : EvidenceSink) (hk : k.signer = some s) (events : List Publisher.Event) (d : Disk)
    (hsize : d.logBytes.length ≤ py.fileLimit) (t u : Watched)
    (hcalls : Calls py numberLe events k ⟨d, .idle⟩ k' t) (locked : Bool) (o : EvidenceStore)
    (hopen : (enter py).Ends (faulty py.fileLimit) s.store
      ⟨{ t.disk with locked := locked }, t.stage⟩ (.ok ()) o u) :
    k'.metrics.received = k.metrics.received + events.length ∧
      ∃ outcomes, outcomes.length = events.length ∧
        k'.metrics = outcomes.foldl EvidenceMetrics.note k.metrics ∧
        (u.stage ≠ .spoiled → ∃ texts base, Accounts py numberLe s events outcomes texts ∧
          k'.metrics.persisted = k.metrics.persisted + texts.length ∧
          Recovered py py.fileLimit s.nodeId d.logBytes d.journal base ∧
          u.disk.logBytes = base ++ records texts) := by
  obtain ⟨outcomes, hlength, hmetrics, hafter⟩ :=
    hcalls.accounts hk (fun log hlog => length_of_recovered hlog hsize)
      fun _ => ⟨d.logBytes, fun _ h => h, rfl, rfl⟩
  refine ⟨?_, outcomes, hlength, hmetrics, fun hne => ?_⟩
  · rw [hmetrics, received_foldl, hlength]
  · have hstage : t.stage ≠ .spoiled := fun h =>
      hne (Prog.Ends.kept (faulty_keeps_spoiled py.fileLimit) hopen h)
    obtain ⟨texts, haccounts, log, hrests⟩ := hafter hstage
    have hpaused : Paused py py.fileLimit s.nodeId
        (fun log => ∃ base, Recovered py py.fileLimit s.nodeId d.logBytes d.journal base ∧
          log = base ++ records texts) ⟨{ t.disk with locked := locked }, t.stage⟩ :=
      ⟨log, hrests.journal, hrests.log, hrests.stage⟩
    obtain ⟨log', hfaces⟩ := ((safe_enter_faulty rfl rfl rfl hpaused).ends hopen).2 rfl
    obtain ⟨base, hbase, hlog'⟩ := hfaces.journal.here
    refine ⟨texts, base, haccounts, ?_, hbase, hfaces.log.trans hlog'⟩
    rw [hmetrics, persisted_foldl, haccounts.count]

/-! ## A commit that fails -/

/-- Every call succeeds but those that are to fail. -/
def failing (fails : Op → Stage → Bool) (limit : Nat) (c : Op) (s : Watched) :
    Except Exn c.Result × Watched :=
  let p := if fails c s.stage then (.error .osError, s.disk)
    else Disk.handle limit .first c s.disk
  (p.1, ⟨p.2, s.stage.after c p.1 s.disk p.2⟩)

theorem failing_answers {fails : Op → Stage → Bool} (h : ∀ g, fails .now g = false) (limit : Nat)
    (c : Op) (s : Watched) :
    (faulty limit).answers c s (failing fails limit c s).1 (failing fails limit c s).2 := by
  refine ⟨?_, rfl⟩
  unfold failing
  dsimp only
  by_cases hc : fails c s.stage = true
  · rw [if_pos hc]
    refine .inr (.plain _ ?_)
    rintro rfl
    rw [h] at hc
    cases hc
  · rw [if_neg hc]
    exact .inl ⟨_, rfl⟩

/-- How every call of the file system is answered. -/
abbrev Handler : Type := (c : Op) → Watched → Except Exn c.Result × Watched

/-- Events sealed one after another, each under a handler of its own. -/
def sealAll (py : Interp) (numberLe : Publisher.Number → Publisher.Number → Bool) :
    List (Publisher.Event × Handler) → EvidenceSink × Watched → EvidenceSink × Watched
  | [], p => p
  | (event, h) :: rest, (k, t) =>
      let q := (handle py numberLe event k).exec h t
      sealAll py numberLe rest (q.1.2, q.2)

theorem calls_sealAll {calls : List (Publisher.Event × Handler)}
    (hw : ∀ p ∈ calls, ∀ c t, (faulty py.fileLimit).answers c t (p.2 c t).1 (p.2 c t).2)
    (k : EvidenceSink) (t : Watched) : Calls py numberLe (calls.map Prod.fst) k t
      (sealAll py numberLe calls (k, t)).1 (sealAll py numberLe calls (k, t)).2 := by
  induction calls generalizing k t with
  | nil => exact .nil k t
  | cons p rest ih =>
      have hcall := Prog.ends_exec (hw p (by simp)) (handle py numberLe p.1 k) t
      exact .cons hcall (ih (fun q hq => hw q (by simp [hq])) _ _)

/-- The store opened again behind sealed events, and what is asked of the sink and of the disk
then. -/
def sealThenOpen (py : Interp) (numberLe : Publisher.Number → Publisher.Number → Bool)
    (s : EvidenceSigner) (calls : List (Publisher.Event × Handler)) (k : EvidenceSink) (d : Disk)
    (h : Handler) (check : EvidenceSink → Watched → Bool) : Bool :=
  let p := sealAll py numberLe calls (k, ⟨d, .idle⟩)
  let q := (enter py s.store).exec h p.2
  q.1.1.isOk && check p.1 q.2

theorem exists_sealThenOpen {calls : List (Publisher.Event × Handler)} {h : Handler}
    (hcalls : ∀ p ∈ calls, ∀ c t, (faulty py.fileLimit).answers c t (p.2 c t).1 (p.2 c t).2)
    (hw : ∀ c t, (faulty py.fileLimit).answers c t (h c t).1 (h c t).2) {k : EvidenceSink}
    {d : Disk} {check : EvidenceSink → Watched → Bool}
    (hrun : sealThenOpen py numberLe s calls k d h check = true) :
    ∃ k' t o u, Calls py numberLe (calls.map Prod.fst) k ⟨d, .idle⟩ k' t ∧
      (enter py).Ends (faulty py.fileLimit) s.store t (.ok ()) o u ∧ check k' u = true := by
  unfold sealThenOpen at hrun
  have hall := @calls_sealAll py numberLe calls hcalls k ⟨d, .idle⟩
  generalize sealAll py numberLe calls (k, ⟨d, .idle⟩) = p at hall hrun
  obtain ⟨k', t⟩ := p
  have hopen := Prog.ends_exec hw (enter py s.store) t
  dsimp only at hrun
  generalize (enter py s.store).exec h t = q at hopen hrun
  obtain ⟨⟨r', o⟩, u⟩ := q
  obtain ⟨hok, hcheck⟩ := Bool.and_eq_true_iff.mp hrun
  cases r' with
  | ok _ => exact ⟨k', t, o, u, hall, hopen, hcheck⟩
  | error e => cases hok

/-- The call that replaces the state behind an append. -/
def commits : Op → Stage → Bool
  | .replaceState _, .written => true
  | _, _ => false

/-- A login that a decoy reports. -/
def login : Publisher.Event :=
  ⟨lit "ssh", lit "login_attempt", [(lit "username", .str (lit "root"))],
    lit "2026-01-01T00:00:00Z"⟩

/-- A sink that has counted nothing. -/
def idleSink : EvidenceSink :=
  ⟨.sign, some EvidenceSigner.steadySigner, ⟨0, 0, 0, 0, 0, 0, 0⟩⟩

/-- How the numbers among the keys compare, where there are none. -/
def noOrder (_ _ : Publisher.Number) : Bool := true

/-- Nothing is to be made of an empty disk. -/
theorem recovered_empty {limit : Nat} {nodeId : Str} {base : Bytes}
    (h : Recovered py limit nodeId Disk.empty.logBytes Disk.empty.journal base) : base = [] := by
  rcases h with rfl | ⟨b, hb, -⟩
  · rfl
  · cases hb

/-- The call that appends to the log. -/
def appends : Op → Stage → Bool
  | .appendLog _, _ => true
  | _, _ => false

/-- Two logins, the first of which finds no room on the disk. -/
def loginsWithFailure : List (Publisher.Event × Handler) :=
  [(login, failing appends EvidenceSigner.clocked.fileLimit),
   (login, failing (fun _ _ => false) EvidenceSigner.clocked.fileLimit)]

/-- What the sink and the disk are like behind them. -/
def countsOne (k : EvidenceSink) (u : Watched) : Bool :=
  decide (k.metrics.persisted = 1) && decide (k.metrics.persistenceFailures = 1) &&
    match u.stage with
    | .idle => true
    | _ => false

/-- Of a login whose append fails and one behind it, the second one is counted as persisted, and
its record is in the log. -/
theorem metrics_truthful_login :
    ∃ k' t o u, Calls EvidenceSigner.clocked noOrder [login, login] idleSink ⟨Disk.empty, .idle⟩
        k' t ∧
      (enter EvidenceSigner.clocked).Ends (faulty EvidenceSigner.clocked.fileLimit)
        EvidenceSigner.steadySigner.store t (.ok ()) o u ∧ k'.metrics.persistenceFailures = 1 ∧
      ∃ texts, k'.metrics.persisted = 1 ∧ texts.length = 1 ∧ u.disk.logBytes = records texts := by
  have hrun : sealThenOpen EvidenceSigner.clocked noOrder EvidenceSigner.steadySigner
      loginsWithFailure idleSink Disk.empty
      (failing (fun _ _ => false) EvidenceSigner.clocked.fileLimit) countsOne = true := by
    rw [loginsWithFailure, Interp.eq_withHash EvidenceSigner.clocked Sha3.hexdigest_eq_unrolled]
    decide +kernel
  have hanswers : ∀ p ∈ loginsWithFailure, ∀ c t,
      (faulty EvidenceSigner.clocked.fileLimit).answers c t (p.2 c t).1 (p.2 c t).2 := by
    intro p hp
    simp only [loginsWithFailure, List.mem_cons, List.not_mem_nil, or_false] at hp
    rcases hp with rfl | rfl
    · exact failing_answers (fun _ => rfl) _
    · exact failing_answers (fun _ => rfl) _
  obtain ⟨k', t, o, u, hcalls, hopen, hcheck⟩ :=
    exists_sealThenOpen hanswers (failing_answers (fun _ => rfl) _) hrun
  obtain ⟨hcounts, hstage⟩ := Bool.and_eq_true_iff.mp hcheck
  obtain ⟨hpersisted, hfailures⟩ := Bool.and_eq_true_iff.mp hcounts
  have hidle : u.stage ≠ .spoiled := by
    intro h
    rw [h] at hstage
    cases hstage
  obtain ⟨-, outcomes, -, -, hlog⟩ :=
    metrics_truthful EvidenceSigner.clocked noOrder EvidenceSigner.steadySigner idleSink k' rfl
      [login, login] Disk.empty (Nat.zero_le _) t u hcalls t.disk.locked o hopen
  obtain ⟨texts, base, -, htexts, hbase, hlog⟩ := hlog hidle
  have hone : k'.metrics.persisted = 1 := of_decide_eq_true hpersisted
  rw [recovered_empty hbase, List.nil_append] at hlog
  refine ⟨k', t, o, u, hcalls, hopen, of_decide_eq_true hfailures, texts, hone, ?_, hlog⟩
  rw [hone] at htexts
  exact (htexts.trans (Nat.zero_add _)).symm

/-- The commit of the login fails, which is counted as a failure, and the next open completes
it. -/
theorem commit_failure_uncounted :
    ¬ ∀ (py : Interp) (numberLe : Publisher.Number → Publisher.Number → Bool)
      (s : EvidenceSigner) (k k' : EvidenceSink), k.signer = some s →
      ∀ (events : List Publisher.Event) (d : Disk), d.logBytes.length ≤ py.fileLimit →
      ∀ t u : Watched, Calls py numberLe events k ⟨d, .idle⟩ k' t →
      ∀ (locked : Bool) (o : EvidenceStore),
      (enter py).Ends (faulty py.fileLimit) s.store
        ⟨{ t.disk with locked := locked }, t.stage⟩ (.ok ()) o u →
      ∃ outcomes texts base, Accounts py numberLe s events outcomes texts ∧
        k'.metrics.persisted = k.metrics.persisted + texts.length ∧
        Recovered py py.fileLimit s.nodeId d.logBytes d.journal base ∧
        u.disk.logBytes = base ++ records texts := by
  intro hall
  have hrun : sealThenOpen EvidenceSigner.clocked noOrder EvidenceSigner.steadySigner
      [(login, failing commits EvidenceSigner.clocked.fileLimit)] idleSink Disk.empty
      (failing commits EvidenceSigner.clocked.fileLimit)
      (fun k u => decide (k.metrics.persisted = 0) && decide (u.disk.logBytes ≠ [])) = true := by
    rw [Interp.eq_withHash EvidenceSigner.clocked Sha3.hexdigest_eq_unrolled]
    decide +kernel
  have hanswers := @failing_answers commits (fun _ => rfl) EvidenceSigner.clocked.fileLimit
  obtain ⟨k', t, o, u, hcalls, hopen, hcheck⟩ := exists_sealThenOpen (fun p hp => by
    obtain rfl := List.mem_singleton.mp hp
    exact hanswers) hanswers hrun
  obtain ⟨hpersisted, hne⟩ := Bool.and_eq_true_iff.mp hcheck
  obtain ⟨outcomes, texts, base, -, hcount, hbase, hlog⟩ :=
    hall EvidenceSigner.clocked noOrder EvidenceSigner.steadySigner idleSink k' rfl [login]
      Disk.empty (Nat.zero_le _) t u hcalls t.disk.locked o hopen
  have hzero : k'.metrics.persisted = 0 := of_decide_eq_true hpersisted
  have hnone : texts = [] := by
    rw [hzero] at hcount
    exact List.eq_nil_of_length_eq_zero (hcount.trans (Nat.zero_add _)).symm
  apply of_decide_eq_true hne
  rw [hlog, hnone, recovered_empty hbase]
  rfl

end EvidenceSink

end IcsDeception
