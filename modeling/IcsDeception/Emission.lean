import IcsDeception.EventText
import IcsDeception.Sink

/-!
# Emitting an event

`EventPublisher.emit` writes an event to the plain log, to the evidence sink, or to both.
Whatever the sink does, and whichever of its calls fail, one copy is left exactly for the
events whose line can be written.

## Implementation notes

The plain log is writable, so that its content is part of the publisher. Standard output
takes UTF-8. The evidence layer is the world in which any call may fail.
-/

namespace IcsDeception

open Text Json Calendar Method Publisher

/-! ## The source -/

/-- `EventPublisher`, with the content of its plain log. -/
structure EventPublisher where
  source : Str
  echo : Bool
  evidence : Option EvidenceSink
  log : Bytes

/-- A method of the publisher. -/
abbrev PublisherM (α : Type) : Type := Method Fs Exn EventPublisher α

namespace EventPublisher

/-- A method of the sink of the publisher. -/
def onSink {α : Type} (k : EvidenceSink) (m : SinkM α) : PublisherM α := fun p =>
  (m k).bind fun q => .done (q.1, { p with evidence := some q.2 })

variable (py : Interp) (numberLe : Number → Number → Bool) (callLimit copyLimit : Nat)

/-- Whether the raw line is to be written, behind `self.evidence.handle(event)`. -/
def writesRaw (event : Event) : PublisherM Bool := do
  let p ← self
  match p.evidence with
  | none => return true
  | some k =>
      match ← attempt (onSink k (EvidenceSink.handle py numberLe event)) with
      | .ok writeRaw => return writeRaw
      | .error _ => return true

/-- `handle.write(line + "\n")`, where only an `OSError` would be caught. -/
def writeLine (line : Str) : PublisherM Unit :=
  match Utf8.encode (line ++ [lf]) with
  | none => raise .unicodeEncode
  | some b => modify fun p => { p with log := p.log ++ b }

/-- `print(line)`. -/
def echoLine (line : Str) : PublisherM Unit :=
  match Utf8.encode (line ++ [lf]) with
  | none => raise .unicodeEncode
  | some _ => return ()

/-- `datetime.now(timezone.utc)`. -/
def utcNow : PublisherM Instant := call Op.now

/-- `EventPublisher.emit`. -/
def emit (eventType : Str) (details : Dict Str Detail) : PublisherM Event := do
  let p ← self
  let now ← utcNow
  let event ← ofExcept (Publisher.build callLimit p.source eventType details now.isoformat)
  let line ← ofExcept (event.toJson py copyLimit)
  let writeRaw ← writesRaw py numberLe event
  if writeRaw then writeLine line
  if p.echo then echoLine line
  return event

/-! ## What is kept of an event -/

/-- The line of an event is at the end of the plain log. -/
def InPlain (line : Str) (p p' : EventPublisher) : Prop :=
  p'.log = p.log ++ Utf8.encodeAll (line ++ [lf])

/-- The signed record of an event is at the end of the evidence log when the next open has run
its recovery. -/
def InEvidence (s : EvidenceSigner) (event : Event) (t : Watched) : Prop :=
  ∃ kvs text log, boundEvent py numberLe event = .ok (.dict kvs) ∧ s.Seals kvs text ∧
    ∀ (locked : Bool) (o : EvidenceStore) (u : Watched),
      (EvidenceStore.enter py).Ends (faulty py.fileLimit) s.store
        ⟨{ t.disk with locked := locked }, t.stage⟩ (.ok ()) o u →
      u.disk.logBytes = log ++ Utf8.encodeAll (text ++ [lf])

/-- The event is returned, a copy of it is left, and if it was sealed, its record is in the
evidence log; in dual mode it is then in both. -/
structure Kept (p : EventPublisher) (r : Except Exn Event) (p' : EventPublisher) (t : Watched) :
    Prop where
  returned : ∃ event line, r = .ok event ∧ event.toJson py copyLimit = .ok line ∧
    (InPlain line p p' ∨ ∃ k s, p.evidence = some k ∧ k.signer = some s ∧
      InEvidence py numberLe s event t) ∧
    ∀ k k' s, p.evidence = some k → p'.evidence = some k' → k.signer = some s →
      k'.metrics.persisted ≠ k.metrics.persisted → InEvidence py numberLe s event t ∧
        (k.mode = .dual → InPlain line p p')

variable {py numberLe callLimit copyLimit}

theorem safe_onSink {α σ : Type} {w : World Fs σ} {C : σ → Prop} {k : EvidenceSink} {m : SinkM α}
    {p : EventPublisher} {t : σ} {Q : Except Exn α → EventPublisher → σ → Prop}
    (h : m.Safe w C (fun r k' t' => Q r { p with evidence := some k' } t') k t) :
    (onSink k m).Safe w C Q p t :=
  Prog.safe_bind.mpr (Prog.Safe.mono h (fun _ ht => ht) fun _ _ hc hq => ⟨hc, hq⟩)

theorem safe_writeLine {σ : Type} {w : World Fs σ} {line : Str} (hs : Scalar line)
    {p : EventPublisher} {t : σ} {Q : Except Exn Unit → EventPublisher → σ → Prop}
    (h : Q (.ok ()) { p with log := p.log ++ Utf8.encodeAll (line ++ [lf]) } t) :
    (writeLine line).Safe w (fun _ => True) Q p t := by
  rw [writeLine, Utf8.encode_of_scalar (scalar_append.mpr ⟨hs, by decide⟩)]
  exact ⟨trivial, h⟩

theorem safe_echoLine {σ : Type} {w : World Fs σ} {line : Str} (hs : Scalar line)
    {p : EventPublisher} {t : σ} {Q : Except Exn Unit → EventPublisher → σ → Prop}
    (h : Q (.ok ()) p t) : (echoLine line).Safe w (fun _ => True) Q p t := by
  rw [echoLine, Utf8.encode_of_scalar (scalar_append.mpr ⟨hs, by decide⟩)]
  exact ⟨trivial, h⟩

/-- What the sink leaves when it has been given an event. -/
structure Sealing (py : Interp) (numberLe : Number → Number → Bool) (p : EventPublisher)
    (event : Event) (r : Except Exn Bool) (p' : EventPublisher) (t : Watched) : Prop where
  log : p'.log = p.log
  echo : p'.echo = p.echo
  raw : r = .ok true ∨ (r = .ok false ∧ ∃ k s, p.evidence = some k ∧ k.signer = some s ∧
    InEvidence py numberLe s event t)
  sealed : ∀ k k' s, p.evidence = some k → p'.evidence = some k' → k.signer = some s →
    k'.metrics.persisted ≠ k.metrics.persisted → InEvidence py numberLe s event t ∧
      (k.mode = .dual → r = .ok true)

/-- A sink without a signer leaves the event to the plain log. -/
theorem safe_handle_idle {σ : Type} {w : World Fs σ} {k : EvidenceSink} (hk : k.signer = none)
    {event : Event} {t : σ} {Q : Except Exn Bool → EvidenceSink → σ → Prop}
    (h : ∀ m, Q (.ok true) { k with metrics := m } t) :
    (EvidenceSink.handle py numberLe event).Safe w (fun _ => True) Q k t := by
  unfold EvidenceSink.handle EvidenceSink.increment
  rw [safe_bind, safe_modify]
  refine ⟨trivial, ?_⟩
  rw [Then, safe_bind, safe_self]
  refine ⟨trivial, ?_⟩
  rw [Then]
  obtain ⟨mode, signer, metrics⟩ := k
  obtain rfl : signer = none := hk
  exact ⟨trivial, h _⟩

/-- What an open finds behind a session after which a recovery makes one log. -/
theorem inEvidence_of_paused {s : EvidenceSigner} {event : Event} {t : Watched}
    {kvs : List (Key × Value)} {text : Str} {log : Bytes}
    (hb : boundEvent py numberLe event = .ok (.dict kvs)) (hseals : s.Seals kvs text)
    (h : EvidenceStore.Paused py py.fileLimit s.nodeId
      (· = log ++ Utf8.encodeAll (text ++ [lf])) t) : InEvidence py numberLe s event t := by
  refine ⟨kvs, text, log, hb, hseals, fun locked o u hopen => ?_⟩
  obtain ⟨log', hrests⟩ := h
  have hpaused : EvidenceStore.Paused py py.fileLimit s.nodeId
      (· = log ++ Utf8.encodeAll (text ++ [lf])) ⟨{ t.disk with locked := locked }, t.stage⟩ :=
    ⟨log', hrests.journal, hrests.log, hrests.stage⟩
  obtain ⟨log'', hfaces⟩ :=
    ((EvidenceStore.safe_enter_faulty rfl rfl rfl hpaused).ends hopen).2 rfl
  exact hfaces.log.trans hfaces.journal.here

/-- The sink is given an event, in the world in which any call may fail. -/
theorem safe_writesRaw {p : EventPublisher} {event : Event} {d : Disk}
    (hsize : d.logBytes.length ≤ py.fileLimit) :
    (writesRaw py numberLe event).Safe (faulty py.fileLimit) (fun _ => True)
      (Sealing py numberLe p event) p ⟨d, .idle⟩ := by
  unfold writesRaw
  rw [safe_bind, safe_self]
  refine ⟨trivial, ?_⟩
  rw [Then]
  cases hp : p.evidence with
  | none =>
      refine ⟨trivial, rfl, rfl, .inl rfl, fun k k' s hk => ?_⟩
      rw [hp] at hk
      cases hk
  | some k =>
      dsimp only
      rw [safe_bind, safe_attempt]
      apply safe_onSink
      cases hs : k.signer with
      | none =>
          refine safe_handle_idle hs fun m => ⟨trivial, rfl, rfl, .inl rfl, ?_⟩
          intro k₁ k' s hk _ hs'
          obtain rfl := Option.some.inj (hp.symm.trans hk)
          rw [hs] at hs'
          cases hs'
      | some s =>
          have hpaused : (Watched.mk d .idle).stage ≠ .spoiled →
              EvidenceStore.Paused py py.fileLimit s.nodeId (EvidenceStore.Recovered py py.fileLimit
                s.nodeId d.logBytes d.journal) ⟨d, .idle⟩ :=
            fun _ => ⟨d.logBytes, fun _ h => h, rfl, rfl⟩
          refine (EvidenceSink.safe_handle hs
            (fun log hlog => EvidenceSink.length_of_recovered hlog hsize) hpaused).weaken
            fun r k' t' _ h => ?_
          obtain ⟨outcome, rfl, hresult, hleaves, hstays⟩ := h
          have hidle : (Watched.mk d .idle).stage ≠ .spoiled := fun h => by cases h
          have hevidence : outcome = .persisted → InEvidence py numberLe s event t' := by
            rintro rfl
            rcases hleaves (hstays hidle rfl) with ⟨-, kvs, text, log, hb, hseals, -, -, h⟩ | ⟨hne, -⟩
            · exact inEvidence_of_paused hb hseals h
            · exact absurd rfl hne
          have hcount : (k.metrics.note outcome).persisted ≠ k.metrics.persisted →
              outcome = .persisted := by
            cases outcome
            · exact fun _ => rfl
            all_goals exact fun h => absurd rfl h
          have hsealed : ∀ (rest : Except Exn Bool), (outcome = .persisted →
              rest = .ok (decide (k.mode = .dual))) → ∀ k₁ k₂ s₁, p.evidence = some k₁ →
              some { k with metrics := k.metrics.note outcome } = some k₂ → k₁.signer = some s₁ →
              k₂.metrics.persisted ≠ k₁.metrics.persisted →
                InEvidence py numberLe s₁ event t' ∧ (k₁.mode = .dual → rest = .ok true) := by
            intro rest hrest k₁ k₂ s₁ hk₁ hk₂ hs₁ hne
            obtain rfl := Option.some.inj (hp.symm.trans hk₁)
            obtain rfl := Option.some.inj hk₂
            obtain rfl := Option.some.inj (hs.symm.trans hs₁)
            have hpersisted := hcount hne
            refine ⟨hevidence hpersisted, fun hmode => ?_⟩
            rw [hrest hpersisted, hmode]
            rfl
          rcases hresult with ⟨hpersisted, rfl⟩ | ⟨hne, e, rfl⟩
          · refine ⟨trivial, rfl, rfl, ?_, hsealed _ fun _ => rfl⟩
            by_cases hmode : k.mode = .dual
            · exact .inl (congrArg Except.ok (decide_eq_true hmode))
            · exact .inr ⟨congrArg Except.ok (decide_eq_false hmode), k, s, hp, hs,
                hevidence hpersisted⟩
          · exact ⟨trivial, rfl, rfl, .inl rfl, hsealed _ fun h => absurd h hne⟩

/-- The clock answers a publisher as it does a store. -/
theorem safe_utcNow {limit : Nat} {p : EventPublisher} {t : Watched}
    {Q : Except Exn Instant → EventPublisher → Watched → Prop} (h : ∀ now, Q (.ok now) p t) :
    utcNow.Safe (faulty limit) (fun _ => True) Q p t := by
  refine ⟨trivial, fun _ _ => trivial, fun r t' ht => ⟨trivial, ?_⟩⟩
  obtain ⟨now, rfl, rfl⟩ := EvidenceStore.now_answer ht
  exact h now

/-- An event that can be written is kept. -/
theorem safe_emit {p : EventPublisher} {eventType : Str} {details : Dict Str Detail} {d : Disk}
    (hsize : d.logBytes.length ≤ py.fileLimit)
    (hw : Writable py callLimit copyLimit p.source eventType details) :
    (emit py numberLe callLimit copyLimit eventType details).Safe (faulty py.fileLimit)
      (fun _ => True) (Kept py numberLe copyLimit p) p ⟨d, .idle⟩ := by
  unfold emit
  rw [safe_bind, safe_self]
  refine ⟨trivial, ?_⟩
  rw [Then, safe_bind]
  refine safe_utcNow fun now => ?_
  obtain ⟨event, line, hevent, hline, hscalar⟩ := (writable_iff (scalar_isoformat now)).mp hw
  rw [Then, safe_bind, safe_ofExcept, hevent]
  refine ⟨trivial, ?_⟩
  rw [Then, safe_bind, safe_ofExcept, hline]
  refine ⟨trivial, ?_⟩
  rw [Then]
  refine safe_bind_cases (safe_writesRaw hsize) (fun e p' t h => ?_) fun raw p' t h => ?_
  · rcases h.raw with h | ⟨h, -⟩ <;> cases h
  -- what is left of the method returns the event, with the line in the plain log if it is wanted
  have hrest : ∀ p'', (raw = true → InPlain line p p'') → p''.evidence = p'.evidence →
      (do
        if p.echo then echoLine line
        return event : PublisherM Event).Safe (faulty py.fileLimit) (fun _ => True)
          (Kept py numberLe copyLimit p) p'' t := by
    intro p'' hplain hevidence
    have hkept : Kept py numberLe copyLimit p (.ok event) p'' t := by
      refine ⟨event, line, rfl, hline, ?_, fun k k' s hk hk' hs hne => ?_⟩
      · rcases h.raw with hr | ⟨-, k, s, hk, hs, hin⟩
        · exact .inl (hplain (Except.ok.inj hr))
        · exact .inr ⟨k, s, hk, hs, hin⟩
      · obtain ⟨hin, hdual⟩ := h.sealed k k' s hk (hevidence.symm.trans hk') hs hne
        exact ⟨hin, fun hmode => hplain (Except.ok.inj (hdual hmode))⟩
    split_ifs
    · rw [safe_bind]
      exact safe_echoLine hscalar ⟨trivial, hkept⟩
    · exact ⟨trivial, hkept⟩
  by_cases hraw : raw = true
  · rw [if_pos hraw]
    refine safe_bind.mpr (safe_writeLine hscalar (hrest _ (fun _ => ?_) rfl))
    rw [InPlain, h.log]
  · rw [if_neg hraw]
    exact hrest _ (fun hr => absurd hr hraw) rfl

/-! ## Events that are lost -/

/-- The lock is never to be had, and the clock stands still. -/
def Refuses (now : Instant) : (c : Op) → Except Exn c.Result → Prop
  | .lock, r => ∃ e, r = .error e
  | .now, r => r = .ok now
  | _, _ => True

/-- The world in which this is so. -/
def refusing (limit : Nat) (now : Instant) : World Fs Watched where
  answers c s r t := (faulty limit).answers c s r t ∧ Refuses now c r
  tears := (faulty limit).tears

/-- A call of the world in which any call may fail can succeed. -/
theorem faulty_handle (limit : Nat) (time : Instant) (c : Op) (s : Watched) :
    (faulty limit).answers c s (Disk.handle limit time c s.disk).1
      ⟨(Disk.handle limit time c s.disk).2, s.stage.after c (Disk.handle limit time c s.disk).1
        s.disk (Disk.handle limit time c s.disk).2⟩ :=
  ⟨.inl ⟨time, rfl⟩, rfl⟩

theorem refusing_responsive (limit : Nat) (now : Instant) : (refusing limit now).Responsive := by
  intro c s
  cases c with
  | lock =>
      exact ⟨.error .osError, ⟨s.disk, s.stage.after .lock (.error .osError) s.disk s.disk⟩,
        ⟨.inr (.plain _ (by simp)), rfl⟩, _, rfl⟩
  | now => exact ⟨_, _, faulty_handle limit now .now s, rfl⟩
  | _ => exact ⟨_, _, faulty_handle limit now _ s, trivial⟩

variable {now : Instant} {limit : Nat}

theorem safe_utcNow_refusing {p : EventPublisher} {t : Watched}
    {Q : Except Exn Instant → EventPublisher → Watched → Prop} (h : Q (.ok now) p t) :
    utcNow.Safe (refusing limit now) (fun _ => True) Q p t := by
  refine ⟨trivial, fun _ _ => trivial, fun r t' ht => ⟨trivial, ?_⟩⟩
  obtain ⟨ht, rfl⟩ := ht
  obtain ⟨-, -, rfl⟩ := EvidenceStore.now_answer ht
  exact h

/-- A session that does not get the lock signs nothing. -/
theorem safe_signEvent_refusing {s : EvidenceSigner} {event : Value} {timestamp : Option Str}
    {t : Watched} : (s.signEvent py event timestamp).Safe (refusing limit now) (fun _ => True)
      (fun r _ _ => ∃ e, r = .error e) s.store t := by
  have hnow : ∀ {o : EvidenceStore} {t : Watched} {Q : Except Exn Instant → EvidenceStore →
      Watched → Prop}, (∀ now, Q (.ok now) o t) →
        (EvidenceStore.sys .now).Safe (refusing limit now) (fun _ => True) Q o t := by
    intro o t Q h
    refine ⟨trivial, fun _ _ => trivial, fun r t' ht => ⟨trivial, ?_⟩⟩
    obtain ⟨now, rfl, rfl⟩ := EvidenceStore.now_answer ht.1
    exact h now
  have hsession : ∀ text t, (EvidenceSigner.session py (s.transact py event text)).Safe
      (refusing limit now) (fun _ => True) (fun r _ _ => ∃ e, r = .error e) s.store t := by
    intro text t
    unfold EvidenceSigner.session EvidenceStore.enter EvidenceStore.acquire
    rw [safe_bind, safe_bind, safe_bind, safe_self]
    refine ⟨trivial, ?_⟩
    rw [Then, if_neg (show ¬ s.store.lockHeld = true from Bool.false_ne_true), safe_bind]
    refine ⟨trivial, fun _ _ => trivial, fun r t' ht => ⟨trivial, ?_⟩⟩
    obtain ⟨e, rfl⟩ := ht.2
    exact ⟨e, rfl⟩
  unfold EvidenceSigner.signEvent EvidenceSigner.momentOf
  rw [safe_bind, safe_bind]
  refine hnow fun now => ?_
  rw [Then]
  cases timestamp with
  | none => exact ⟨trivial, hsession _ _⟩
  | some text =>
      dsimp only
      split_ifs
      · exact ⟨trivial, hsession _ _⟩
      · exact ⟨trivial, hsession _ _⟩

/-- Where the lock is not to be had, the line is to be written to the plain log. -/
theorem safe_writesRaw_refusing {p : EventPublisher} {event : Event} {t : Watched} :
    (writesRaw py numberLe event).Safe (refusing limit now) (fun _ => True)
      (fun r _ _ => r = .ok true) p t := by
  unfold writesRaw
  rw [safe_bind, safe_self]
  refine ⟨trivial, ?_⟩
  rw [Then]
  cases hp : p.evidence with
  | none => exact ⟨trivial, rfl⟩
  | some k =>
      dsimp only
      rw [safe_bind, safe_attempt]
      apply safe_onSink
      cases hs : k.signer with
      | none => exact safe_handle_idle hs fun m => ⟨trivial, rfl⟩
      | some s =>
          unfold EvidenceSink.handle EvidenceSink.increment
          rw [safe_bind, safe_modify]
          refine ⟨trivial, ?_⟩
          rw [Then, safe_bind, safe_self]
          refine ⟨trivial, ?_⟩
          rw [Then]
          dsimp only
          rw [hs]
          dsimp only
          cases boundEvent py numberLe event with
          | error e => exact ⟨trivial, trivial, rfl⟩
          | ok bounded =>
              dsimp only
              rw [safe_bind, safe_attempt]
              refine EvidenceSink.safe_onStore (safe_signEvent_refusing.weaken fun r _ t' _ h => ?_)
              obtain ⟨e, rfl⟩ := h
              cases e <;> exact ⟨trivial, trivial, rfl⟩

/-- Where the lock is not to be had, an event that cannot be written raises. -/
theorem safe_emit_refusing {p : EventPublisher} {eventType : Str} {details : Dict Str Detail}
    {t : Watched}
    (h : ¬ Writable py callLimit copyLimit p.source eventType details) :
    (emit py numberLe callLimit copyLimit eventType details).Safe (refusing limit now)
      (fun _ => True) (fun r _ _ => ∃ e, r = .error e) p t := by
  rw [writable_iff (scalar_isoformat now)] at h
  unfold emit
  rw [safe_bind, safe_self]
  refine ⟨trivial, ?_⟩
  rw [Then, safe_bind]
  refine safe_utcNow_refusing ?_
  rw [Then, safe_bind, safe_ofExcept]
  refine ⟨trivial, ?_⟩
  cases hevent : Publisher.build callLimit p.source eventType details now.isoformat with
  | error e => exact ⟨e, rfl⟩
  | ok event =>
      rw [Then, safe_bind, safe_ofExcept]
      refine ⟨trivial, ?_⟩
      cases hline : event.toJson py copyLimit with
      | error e => exact ⟨e, rfl⟩
      | ok line =>
          have hscalar : ¬ Scalar line := fun hs => h ⟨event, line, hevent, hline, hs⟩
          rw [Then]
          refine safe_bind_cases safe_writesRaw_refusing (fun e p' t h => by cases h)
            fun raw p' t h => ?_
          obtain rfl := Except.ok.inj h
          rw [if_pos rfl]
          refine safe_bind.mpr ?_
          have hnone : Utf8.encode (line ++ [lf]) = none := by
            cases hb : Utf8.encode (line ++ [lf]) with
            | none => rfl
            | some b =>
                exact absurd (scalar_append.mp (Utf8.encode_eq_some.mp hb).1).1 hscalar
          rw [writeLine, hnone]
          exact ⟨trivial, _, rfl⟩

/-- An event of which every run leaves a copy can be written. -/
theorem writable_of_kept {p : EventPublisher} {eventType : Str} {details : Dict Str Detail}
    {d : Disk} (h : ∀ r p' t, (emit py numberLe callLimit copyLimit eventType details).Ends
      (faulty py.fileLimit) p ⟨d, .idle⟩ r p' t → Kept py numberLe copyLimit p r p' t) :
    Writable py callLimit copyLimit p.source eventType details := by
  by_contra hw
  obtain ⟨⟨r, p'⟩, t, he⟩ := Prog.exists_ends (refusing_responsive py.fileLimit .first)
    (emit py numberLe callLimit copyLimit eventType details p) ⟨d, .idle⟩
  obtain ⟨e, hr⟩ := (safe_emit_refusing hw).ends he
  have hends : (emit py numberLe callLimit copyLimit eventType details).Ends
      (faulty py.fileLimit) p ⟨d, .idle⟩ r p' t :=
    Prog.Ends.of_world (w := refusing py.fileLimit .first) (fun _ _ _ _ h => h.1) he
  obtain ⟨event, line, hreturned, -⟩ := (h r p' t hends).returned
  rw [hr] at hreturned
  cases hreturned

/-- A copy of an event is left, whatever the sink does, exactly if its details nest within the
limits of the interpreter and it is spelled without a lone surrogate. -/
theorem emit_keeps_iff (py : Interp) (numberLe : Number → Number → Bool)
    (callLimit copyLimit : Nat) (p : EventPublisher) (eventType : Str)
    (details : Dict Str Detail) (d : Disk) (hsize : d.logBytes.length ≤ py.fileLimit) :
    (∀ r p' t, (emit py numberLe callLimit copyLimit eventType details).Ends
      (faulty py.fileLimit) p ⟨d, .idle⟩ r p' t → Kept py numberLe copyLimit p r p' t) ↔
        Writable py callLimit copyLimit p.source eventType details :=
  ⟨writable_of_kept, fun hw _ _ _ he => (safe_emit hsize hw).ends he⟩

/-- The publisher of a decoy, with a sink in dual mode, behind an earlier line. -/
def dualPublisher : EventPublisher :=
  ⟨lit "plc", true, some { EvidenceSink.idleSink with mode := .dual },
    Utf8.encodeAll (lit "\x7b\x7d\n")⟩

/-- The details of a write to two registers. -/
def writtenRegisters : Dict Str Detail :=
  [(lit "unit", .int 1),
   (lit "registers", .list
     [.dict [(.text (lit "address"), .int 40), (.text (lit "coil"), .bool true)],
      .dict [(.number (.int 7), .tuple [.str (lit "open"), .none])]])]

/-- A disk whose log ends within a line. -/
def tornDisk : Disk := ⟨none, none, some (Utf8.encodeAll (lit "\x7b\x7d\n\x7b\"node_id\":")), false⟩

theorem writable_writtenRegisters :
    Writable EvidenceSigner.clocked 100 100 (lit "plc") (lit "register_write") writtenRegisters := by
  have hline : (do
      let event ← build 100 (lit "plc") (lit "register_write") writtenRegisters (lit "now")
      event.toJson EvidenceSigner.clocked 100).toOption.map (fun line => decide (Scalar line)) =
        some true := by
    decide +kernel
  obtain ⟨line, hline, hscalar⟩ := eq_ok_of_toOption hline
  obtain ⟨event, hevent, hline⟩ := bind_eq_ok.mp hline
  exact @writable_iff _ _ _ _ _ (lit "now") _ (by decide) |>.mpr
    ⟨event, line, hevent, hline, of_decide_eq_true hscalar⟩

set_option maxRecDepth 100000 in
theorem emit_dual : ∃ event p' t k,
    (emit EvidenceSigner.clocked EvidenceSink.noOrder 100 100 (lit "register_write")
      writtenRegisters).Ends (faulty EvidenceSigner.clocked.fileLimit) dualPublisher
        ⟨tornDisk, .idle⟩ (.ok event) p' t ∧ p'.evidence = some k ∧ k.metrics.persisted = 1 := by
  have hrun : (((emit EvidenceSigner.clocked EvidenceSink.noOrder 100 100 (lit "register_write")
      writtenRegisters dualPublisher).exec (EvidenceSink.failing (fun _ _ => false)
        EvidenceSigner.clocked.fileLimit) ⟨tornDisk, .idle⟩).1.1.isOk &&
      ((emit EvidenceSigner.clocked EvidenceSink.noOrder 100 100 (lit "register_write")
        writtenRegisters dualPublisher).exec (EvidenceSink.failing (fun _ _ => false)
          EvidenceSigner.clocked.fileLimit) ⟨tornDisk, .idle⟩).1.2.evidence.any
            fun k => decide (k.metrics.persisted = 1)) = true := by
    rw [Interp.eq_withHash EvidenceSigner.clocked Sha3.hexdigest_eq_unrolled]
    decide +kernel
  have hends := Prog.ends_exec (@EvidenceSink.failing_answers (fun _ _ => false) (fun _ => rfl)
    EvidenceSigner.clocked.fileLimit)
    (emit EvidenceSigner.clocked EvidenceSink.noOrder 100 100 (lit "register_write")
      writtenRegisters dualPublisher) ⟨tornDisk, .idle⟩
  generalize (emit EvidenceSigner.clocked EvidenceSink.noOrder 100 100 (lit "register_write")
    writtenRegisters dualPublisher).exec (EvidenceSink.failing (fun _ _ => false)
      EvidenceSigner.clocked.fileLimit) ⟨tornDisk, .idle⟩ = res at hrun hends
  obtain ⟨⟨r, p'⟩, t⟩ := res
  obtain ⟨hok, hevidence⟩ := Bool.and_eq_true_iff.mp hrun
  obtain ⟨k, hk, hpersisted⟩ := Option.any_eq_true _ _ |>.mp hevidence
  cases r with
  | error e => cases hok
  | ok event => exact ⟨event, p', t, k, hends, hk, of_decide_eq_true hpersisted⟩

/-- Whichever call fails, the write is kept; where none fails, it is in both logs. -/
theorem emit_keeps_registerWrite :
    (∀ r p' t, (emit EvidenceSigner.clocked EvidenceSink.noOrder 100 100 (lit "register_write")
        writtenRegisters).Ends (faulty EvidenceSigner.clocked.fileLimit) dualPublisher
          ⟨tornDisk, .idle⟩ r p' t →
        Kept EvidenceSigner.clocked EvidenceSink.noOrder 100 dualPublisher r p' t) ∧
      ∃ event line p' t, (emit EvidenceSigner.clocked EvidenceSink.noOrder 100 100
          (lit "register_write") writtenRegisters).Ends (faulty EvidenceSigner.clocked.fileLimit)
            dualPublisher ⟨tornDisk, .idle⟩ (.ok event) p' t ∧
        event.toJson EvidenceSigner.clocked 100 = .ok line ∧ InPlain line dualPublisher p' ∧
        InEvidence EvidenceSigner.clocked EvidenceSink.noOrder EvidenceSigner.steadySigner event t := by
  have hkept := (emit_keeps_iff EvidenceSigner.clocked EvidenceSink.noOrder 100 100 dualPublisher
    (lit "register_write") writtenRegisters tornDisk (by decide)).mpr writable_writtenRegisters
  obtain ⟨event, p', t, k, hends, hk, hpersisted⟩ := emit_dual
  refine ⟨hkept, ?_⟩
  obtain ⟨event', line, hevent, hline, -, hsealed⟩ := (hkept _ _ _ hends).returned
  obtain rfl := Except.ok.inj hevent
  obtain ⟨hin, hdual⟩ := hsealed _ k EvidenceSigner.steadySigner rfl hk rfl (by
    rw [hpersisted]
    decide)
  exact ⟨event, line, p', t, hends, hline, hdual rfl, hin⟩

/-- The publisher of the capture loader, without evidence. -/
def loaderPublisher : EventPublisher := ⟨lit "pcap_loader", true, none, []⟩

/-- The path of a capture whose file name is not UTF-8. -/
def undecodedPath : Str := lit "/pcaps/" ++ ofCode 0xDCFF :: lit ".pcap"

/-- The details of the analysis of this capture, when it starts. -/
def undecodedCapture : Dict Str Detail :=
  [(lit "pcap", .str undecodedPath),
   (lit "replay", .bool false),
   (lit "max_packets", .int 5000),
   (lit "modbus_target", .none),
   (lit "dnp3_target", .none)]

/-- The start of the analysis is lost. -/
theorem emit_loses_undecodedCapture :
    ¬ ∀ (py : Interp) (numberLe : Number → Number → Bool) (callLimit copyLimit : Nat)
      (p : EventPublisher) (eventType : Str) (details : Dict Str Detail) (d : Disk),
      d.logBytes.length ≤ py.fileLimit → ∀ r p' t,
        (emit py numberLe callLimit copyLimit eventType details).Ends (faulty py.fileLimit) p
          ⟨d, .idle⟩ r p' t → Kept py numberLe copyLimit p r p' t := by
  intro hall
  have hw : Writable .reference 100 100 (lit "pcap_loader") (lit "pcap_analysis_started")
      undecodedCapture :=
    writable_of_kept (hall .reference EvidenceSink.noOrder 100 100 loaderPublisher
      (lit "pcap_analysis_started") undecodedCapture Disk.empty (Nat.zero_le _))
  have hpath : Scalar undecodedPath := hw.spelled.2.1
  exact absurd hpath (by decide)

end EventPublisher

end IcsDeception
