import IcsDeception.Collector
import IcsDeception.Envelope

/-!
# What a valid stream is

A stream is genuine when every line is a record that stands on its own and the
records of every node form a chain from the node's genesis value. The collector
reports exactly the genuine streams as valid, as long as its tables are not full and
the hash does not collide.

## Implementation notes

The proof follows the loop. `Tracks` relates a node's tracker to the records of the
node that were accepted so far; the step lemmas say that a record is accepted exactly
when it stands on its own and continues the chain of its node.
-/

namespace IcsDeception

open Text EventChain Models EvidenceVerifier EvidenceCollector

/-- A record whose hash, key and signature hold. -/
structure Sound (py : Interp) (verifier : EvidenceVerifier) (e : SignedEvent) : Prop where
  hash : computeEventHash py e = .ok e.eventHash
  key : ∃ u, verifier.registry.checkUsable py e.keyId e.nodeId e.timestamp
    e.signatureAlgorithm = .ok u ∧ u.usable = true
  signature : ∃ record key payload, verifier.registry.get e.keyId = some record ∧
    record.publicKeyBytes py = .ok key ∧ e.signingPayload = .ok payload ∧
    verifier.backend.verify key payload e.signatureBytes e.signatureAlgorithm = .ok true

/-- The records of one node form a chain: numbered from one, the first linked to the
node's genesis value and every other one to the recomputed hash of the one before. -/
structure Chain (py : Interp) (node : Str) (rs : List SignedEvent) : Prop where
  sequence : ∀ i (h : i < rs.length), rs[i].sequence = i + 1
  genesis : ∀ h : 0 < rs.length, genesisPreviousHash py node = .ok rs[0].previousEventHash
  link : ∀ i (h : i + 1 < rs.length), computeEventHash py rs[i] = .ok rs[i + 1].previousEventHash

/-- The records of one node, in stream order. -/
def ofNode (node : Str) (rs : List SignedEvent) : List SignedEvent :=
  rs.filter fun e => e.nodeId = node

/-- The lines that are not blank, without their surrounding whitespace. -/
def nonBlank (lines : List Line) : List Line :=
  (lines.map stripLine).filter fun line => lineLength line ≠ 0

/-- A stream whose lines are the given records, each sound, and chained for every node. -/
structure Genuine (py : Interp) (verifier : EvidenceVerifier) (lines : List Line)
    (rs : List SignedEvent) : Prop where
  parses : (nonBlank lines).map (parseSignedEventJson py verifier.maxRecordBytes true) =
    rs.map .ok
  sound : ∀ e ∈ rs, Sound py verifier e
  chain : ∀ node, Chain py node (ofNode node rs)

/-- The hash does not collide on the hash payloads of the records. -/
def NoCollision (py : Interp) (rs : List SignedEvent) : Prop :=
  ∀ e ∈ rs, ∀ f ∈ rs, ∀ p q, e.hashPayload = .ok p → f.hashPayload = .ok q →
    py.sha3_256 p = py.sha3_256 q → p = q

/-! ## Verdicts -/

@[simp] theorem addError_valid (r : VerificationResult) (a : Alert) :
    (r.addError a).valid = false := rfl

theorem addErrorIf_valid (r : VerificationResult) (c : Bool) (a : Alert) :
    (r.addErrorIf c a).valid = true ↔ r.valid = true ∧ c = false := by
  cases c <;> simp [VerificationResult.addErrorIf]

theorem foldl_addError_valid (as : List Alert) (r : VerificationResult) :
    (as.foldl VerificationResult.addError r).valid = true ↔ r.valid = true ∧ as = [] := by
  induction as generalizing r with
  | nil => simp
  | cons a rest ih => simp [ih]

/-- The problems of a key are empty exactly when it is usable. -/
theorem checkUsable_problems {py : Interp} {reg : KeyRegistry} {k n t : Str}
    {a : SignatureAlgorithm} {u : KeyUsability} (h : reg.checkUsable py k n t a = .ok u) :
    u.usable = true ↔ u.problems = [] := by
  unfold KeyRegistry.checkUsable at h
  cases hg : reg.get k with
  | none =>
      simp only [hg, Except.ok.injEq] at h
      subst h
      simp
  | some r =>
      simp only [hg] at h
      obtain ⟨problems, -, h⟩ := Json.bind_eq_ok.mp h
      obtain rfl := Except.ok.inj h
      simp

theorem checkEventHash_eq_ok {py : Interp} {e : SignedEvent} {r r' : VerificationResult} :
    checkEventHash py e r = .ok r' ↔ ∃ h, computeEventHash py e = .ok h ∧
      r' = r.addErrorIf (h ≠ e.eventHash) .eventHashMismatch := by
  unfold checkEventHash
  rw [Json.bind_eq_ok]
  simp only [pure, Except.pure, Except.ok.injEq, eq_comm]

/-- The verdict of a record on its own. -/
theorem verifyEvent_valid {py : Interp} {verifier : EvidenceVerifier} {e : SignedEvent}
    {r : VerificationResult} (h : verifyEvent py verifier e = .ok r) :
    r.valid = true ↔ Sound py verifier e := by
  unfold verifyEvent at h
  obtain ⟨r₁, h₁, h⟩ := Json.bind_eq_ok.mp h
  obtain ⟨r₂, h₂, h₃⟩ := Json.bind_eq_ok.mp h
  obtain ⟨hash, hhash, rfl⟩ := checkEventHash_eq_ok.mp h₁
  obtain ⟨u, hu, h₂⟩ := Json.bind_eq_ok.mp h₂
  have hr₂ : r₂.valid = true ↔ hash = e.eventHash ∧ u.usable = true := by
    have hvalid : ∀ c : Bool, (VerificationResult.addErrorIf
        ⟨true, e.nodeId, e.sequence, e.eventHash, [], e.keyId⟩ c .eventHashMismatch).valid = true ↔
          c = false := fun c => by simp [addErrorIf_valid]
    split_ifs at h₂ with huse
    · obtain rfl := Except.ok.inj h₂
      simp [hvalid, huse]
    · obtain rfl := Except.ok.inj h₂
      rw [foldl_addError_valid, ← checkUsable_problems hu, hvalid]
      simp
  unfold checkSignature at h₃
  cases hg : verifier.registry.get e.keyId with
  | none =>
      simp only [hg] at h₃
      obtain rfl := Except.ok.inj h₃
      refine ⟨fun hf => by simp at hf, fun hs => ?_⟩
      obtain ⟨rec, key, payload, hget, -⟩ := hs.signature
      rw [hg] at hget
      cases hget
  | some rec =>
      simp only [hg] at h₃
      cases hk : rec.publicKeyBytes py with
      | error x =>
          simp only [hk] at h₃
          obtain rfl := Except.ok.inj h₃
          refine ⟨fun hf => by simp at hf, fun hs => ?_⟩
          obtain ⟨rec', key, payload, hget, hkey, -⟩ := hs.signature
          obtain rfl := Option.some.inj (hg.symm.trans hget)
          rw [hk] at hkey
          cases hkey
      | ok key =>
          simp only [hk] at h₃
          obtain ⟨payload, hp, h₃⟩ := Json.bind_eq_ok.mp h₃
          cases hv : verifier.backend.verify key payload e.signatureBytes
              e.signatureAlgorithm with
          | error x => simp [hv] at h₃
          | ok answer =>
              simp only [hv] at h₃
              obtain rfl := Except.ok.inj h₃
              rw [addErrorIf_valid, hr₂]
              constructor
              · rintro ⟨⟨rfl, huse⟩, hans⟩
                have hans : answer = true := by simpa using hans
                exact ⟨hhash, ⟨u, hu, huse⟩, rec, key, payload, hg, hk, hp, hans ▸ hv⟩
              · intro hs
                obtain ⟨u', hu', huse⟩ := hs.key
                obtain ⟨rec', key', payload', hget, hkey, hpay, hver⟩ := hs.signature
                obtain rfl := Option.some.inj (hg.symm.trans hget)
                obtain rfl := Except.ok.inj (hk.symm.trans hkey)
                obtain rfl := Except.ok.inj (hp.symm.trans hpay)
                obtain rfl := Except.ok.inj (hu.symm.trans hu')
                obtain rfl := Except.ok.inj (hv.symm.trans hver)
                exact ⟨⟨Except.ok.inj (hhash.symm.trans hs.hash), huse⟩, rfl⟩

/-- A sound record is verified without an exception. -/
theorem verifyEvent_of_sound {py : Interp} {verifier : EvidenceVerifier} {e : SignedEvent}
    (hs : Sound py verifier e) : ∃ r, verifyEvent py verifier e = .ok r ∧ r.valid = true := by
  obtain ⟨u, hu, huse⟩ := hs.key
  obtain ⟨rec, key, payload, hget, hkey, hpay, hver⟩ := hs.signature
  have hsig : ∀ r, ∃ r', checkSignature py verifier e r = .ok r' := by
    intro r
    unfold checkSignature
    simp only [hget, hkey]
    exact ⟨_, Json.bind_eq_ok.mpr ⟨payload, hpay, by rw [hver]; rfl⟩⟩
  have h : ∃ r, verifyEvent py verifier e = .ok r := by
    obtain ⟨r, hr⟩ := hsig (VerificationResult.addErrorIf
      ⟨true, e.nodeId, e.sequence, e.eventHash, [], e.keyId⟩ (e.eventHash ≠ e.eventHash)
      .eventHashMismatch)
    exact ⟨r, Json.bind_eq_ok.mpr ⟨_, checkEventHash_eq_ok.mpr ⟨_, hs.hash, rfl⟩,
      Json.bind_eq_ok.mpr ⟨_, Json.bind_eq_ok.mpr ⟨u, hu, if_pos huse⟩, hr⟩⟩⟩
  obtain ⟨r, hr⟩ := h
  exact ⟨r, hr, (verifyEvent_valid hr).mpr hs⟩

/-! ## The place of a record in its chain -/

/-- A record that continues a chain from a cursor. -/
structure Continues (py : Interp) (position : ChainPosition) (e : SignedEvent) : Prop where
  sequence : e.sequence = position.nextSequence
  first : e.sequence = firstSequence → position.lastSequence ≤ 0 ∧
    genesisPreviousHash py e.nodeId = .ok e.previousEventHash
  later : e.sequence ≠ firstSequence → ∀ h, position.lastEventHash = some h →
    e.previousEventHash = h

theorem checkLink_valid {py : Interp} {e : SignedEvent} {position : ChainPosition}
    {r r' : VerificationResult} (h : checkLink py e position r = .ok r') :
    r'.valid = true ↔ r.valid = true ∧
      (e.sequence = firstSequence → position.lastSequence ≤ 0 ∧
        genesisPreviousHash py e.nodeId = .ok e.previousEventHash) ∧
      (e.sequence ≠ firstSequence → ∀ h, position.lastEventHash = some h →
        e.previousEventHash = h) := by
  unfold checkLink at h
  split_ifs at h with hfirst
  · obtain ⟨g, hg, h⟩ := Json.bind_eq_ok.mp h
    obtain rfl := Except.ok.inj h
    rw [addErrorIf_valid, addErrorIf_valid, hg]
    simp only [decide_eq_false_iff_not, not_lt, ne_eq, not_not, hfirst, forall_const,
      Except.ok.injEq, not_true_eq_false, false_implies, and_true, and_assoc]
    exact and_congr_right fun _ => and_congr_right fun _ => eq_comm
  · cases hl : position.lastEventHash with
    | none =>
        simp only [hl] at h
        obtain rfl := Except.ok.inj h
        simp [hfirst]
    | some last =>
        simp only [hl] at h
        obtain rfl := Except.ok.inj h
        rw [addErrorIf_valid]
        simp [hfirst]

/-- The verdict of the chain check. -/
theorem checkChain_valid {py : Interp} {e : SignedEvent} {position : ChainPosition}
    {r r' : VerificationResult} (h : checkChain py e position r = .ok r') :
    r'.valid = true ↔ r.valid = true ∧ Continues py position e := by
  unfold checkChain at h
  simp only at h
  rw [checkLink_valid h]
  have hseq : (if e.sequence < position.nextSequence then
      r.addErrorIf (e.sequence ≤ position.lastSequence) .duplicateSequence
      else r.addErrorIf (position.nextSequence < e.sequence) .sequenceGap).valid = true ↔
        r.valid = true ∧ e.sequence = position.nextSequence := by
    unfold ChainPosition.nextSequence
    split_ifs with hlt
    · rw [addErrorIf_valid, decide_eq_false_iff_not]
      exact and_congr_right fun _ => by omega
    · rw [addErrorIf_valid, decide_eq_false_iff_not]
      exact and_congr_right fun _ => by omega
  rw [hseq]
  constructor
  · rintro ⟨⟨hv, hs⟩, hf, hl⟩
    exact ⟨hv, hs, hf, hl⟩
  · rintro ⟨hv, hs, hf, hl⟩
    exact ⟨⟨hv, hs⟩, hf, hl⟩

theorem genesisPreviousHash_ok (py : Interp) {node : Str} (h : Scalar node) :
    ∃ g, genesisPreviousHash py node = .ok g := by
  unfold genesisPreviousHash
  rw [Utf8.encode_of_scalar h]
  exact ⟨_, rfl⟩

theorem checkChain_ok (py : Interp) {e : SignedEvent} (he : e.WellFormed)
    (position : ChainPosition) (r : VerificationResult) :
    ∃ r', checkChain py e position r = .ok r' := by
  obtain ⟨g, hg⟩ := genesisPreviousHash_ok py he.nodeId
  unfold checkChain
  generalize (if e.sequence < position.nextSequence then _ else _ : VerificationResult) = r₁
  unfold checkLink
  split_ifs
  · exact ⟨_, Json.bind_eq_ok.mpr ⟨g, hg, rfl⟩⟩
  · cases position.lastEventHash <;> exact ⟨_, rfl⟩

/-! ## Trackers -/

/-- A node's tracker after the given records of the node were accepted. -/
structure Tracks (py : Interp) (t : NodeTracker) (rs : List SignedEvent) : Prop where
  sequence : t.position.lastSequence = rs.length
  hash : t.position.lastEventHash = rs.getLast?.map SignedEvent.eventHash
  sequences : ∀ s h, t.seenSequences.lookup s = some h → s ≤ rs.length
  hashes : ∀ h ∈ t.seenHashes, ∃ e ∈ rs, e.eventHash = h
  count : t.seenHashes.length ≤ rs.length

theorem tracks_start (py : Interp) : Tracks py .start [] where
  sequence := rfl
  hash := rfl
  sequences := by simp [NodeTracker.start]
  hashes := by simp [NodeTracker.start]
  count := le_rfl

theorem note_position (t : NodeTracker) (e : SignedEvent) :
    (t.note e).2.position = t.position := by
  unfold NodeTracker.note NodeTracker.noteWithin
  split_ifs <;> rfl

/-- The tracker after a record at the expected position. -/
def acceptRecord (t : NodeTracker) (e : SignedEvent) : NodeTracker :=
  { (t.note e).2 with position := ChainPosition.advance e e.eventHash }

theorem length_insert_le {α : Type} [BEq α] [LawfulBEq α] (a : α) (l : List α) :
    (l.insert a).length ≤ l.length + 1 := by
  by_cases h : a ∈ l
  · simp [h]
  · simp [h]

/-- Accepting the next record of a chain keeps the tables true. -/
theorem Tracks.accept {py : Interp} {t : NodeTracker} {rs : List SignedEvent} {e : SignedEvent}
    (ht : Tracks py t rs) (hseq : e.sequence = t.position.nextSequence) :
    Tracks py (acceptRecord t e) (rs ++ [e]) := by
  have hnext : e.sequence = (rs.length : Int) + 1 := by
    rw [hseq, ChainPosition.nextSequence, ht.sequence]
  have htables : (∀ s h, (t.note e).2.seenSequences.lookup s = some h → s ≤ rs.length + 1) ∧
      (∀ h ∈ (t.note e).2.seenHashes, ∃ x ∈ rs ++ [e], x.eventHash = h) ∧
      (t.note e).2.seenHashes.length ≤ rs.length + 1 := by
    have hold : ∀ s h, t.seenSequences.lookup s = some h → s ≤ rs.length + 1 :=
      fun s h hs => (ht.sequences s h hs).trans (by omega)
    have holdh : ∀ h ∈ t.seenHashes, ∃ x ∈ rs ++ [e], x.eventHash = h := by
      intro h hh
      obtain ⟨x, hx, hxe⟩ := ht.hashes h hh
      exact ⟨x, List.mem_append_left _ hx, hxe⟩
    have hcount := ht.count
    unfold NodeTracker.note NodeTracker.noteWithin
    split_ifs
    · refine ⟨?_, ?_, ?_⟩
      · intro s h hs
        by_cases hse : s = e.sequence
        · rw [hse, hnext]
        · simp only at hs
          rw [Dict.lookup_store_ne _ hse] at hs
          exact hold s h hs
      · intro h hh
        rcases List.mem_insert_iff.mp hh with rfl | hh
        · exact ⟨e, by simp, rfl⟩
        · exact holdh h hh
      · exact (length_insert_le e.eventHash t.seenHashes).trans (Nat.succ_le_succ hcount)
    · exact ⟨hold, holdh, hcount.trans (Nat.le_succ _)⟩
    · exact ⟨hold, holdh, hcount.trans (Nat.le_succ _)⟩
  exact
    { sequence := by simp [acceptRecord, ChainPosition.advance, hnext]
      hash := by simp [acceptRecord, ChainPosition.advance]
      sequences := by simpa [acceptRecord] using htables.1
      hashes := htables.2.1
      count := by simpa [acceptRecord] using htables.2.2 }

/-- A record continues a tracked chain exactly when the chain with it is a chain. -/
theorem chain_append {py : Interp} {node : Str} {rs : List SignedEvent} {e : SignedEvent}
    {t : NodeTracker} (hc : Chain py node rs) (ht : Tracks py t rs)
    (hsound : ∀ x ∈ rs, computeEventHash py x = .ok x.eventHash) (hnode : e.nodeId = node) :
    Chain py node (rs ++ [e]) ↔ Continues py t.position e := by
  have hlast : ∀ h : 0 < rs.length,
      t.position.lastEventHash = some (rs[rs.length - 1]).eventHash := by
    intro h
    rw [ht.hash, List.getLast?_eq_getElem?, List.getElem?_eq_getElem (by omega)]
    rfl
  have hget : ∀ h : rs.length < (rs ++ [e]).length, (rs ++ [e])[rs.length] = e := by simp
  constructor
  · intro h
    have hseq : e.sequence = (rs.length : Int) + 1 := by
      have := h.sequence rs.length (by simp)
      rwa [hget] at this
    refine ⟨by rw [hseq, ChainPosition.nextSequence, ht.sequence], ?_, ?_⟩
    · intro hf
      have hnil : rs = [] := by
        rw [hseq, firstSequence] at hf
        exact List.length_eq_zero_iff.mp (by omega)
      subst hnil
      refine ⟨by rw [ht.sequence]; simp, ?_⟩
      rw [hnode]
      exact h.genesis (by simp)
    · intro hf last hl
      have hpos : 0 < rs.length := by
        rw [hseq, firstSequence] at hf
        omega
      obtain rfl := Option.some.inj ((hlast hpos).symm.trans hl)
      have hlink := h.link (rs.length - 1) (by simp; omega)
      have hx := hsound _ (List.getElem_mem (by omega : rs.length - 1 < rs.length))
      have hidx : rs.length - 1 + 1 = rs.length := by omega
      simp only [hidx, hget] at hlink
      rw [List.getElem_append_left (by omega), hx] at hlink
      exact (Except.ok.inj hlink).symm
  · intro h
    have hseq : e.sequence = (rs.length : Int) + 1 := by
      rw [h.sequence, ChainPosition.nextSequence, ht.sequence]
    refine ⟨?_, ?_, ?_⟩
    · intro i hi
      by_cases hlt : i < rs.length
      · rw [List.getElem_append_left hlt]
        exact hc.sequence i hlt
      · obtain rfl : i = rs.length := by simp at hi; omega
        rw [hget, hseq]
    · intro hpos
      by_cases hlt : 0 < rs.length
      · rw [List.getElem_append_left hlt]
        exact hc.genesis hlt
      · obtain rfl : rs = [] := List.length_eq_zero_iff.mp (by omega)
        have := (h.first (by simpa [firstSequence] using hseq)).2
        rwa [hnode] at this
    · intro i hi
      by_cases hlt : i + 1 < rs.length
      · rw [List.getElem_append_left (by omega), List.getElem_append_left hlt]
        exact hc.link i hlt
      · obtain rfl : i = rs.length - 1 := by simp at hi; omega
        have hpos : 0 < rs.length := by simp at hi; omega
        have hidx : rs.length - 1 + 1 = rs.length := by omega
        have hne : e.sequence ≠ firstSequence := by
          rw [hseq, firstSequence]
          omega
        simp only [hidx, hget]
        rw [List.getElem_append_left (by omega), h.later hne _ (hlast hpos)]
        exact hsound _ (List.getElem_mem _)

theorem chain_of_append {py : Interp} {node : Str} {rs more : List SignedEvent}
    (h : Chain py node (rs ++ more)) : Chain py node rs where
  sequence i hi := by
    have := h.sequence i (by simp; omega)
    rwa [List.getElem_append_left hi] at this
  genesis hi := by
    have := h.genesis (by simp; omega)
    rwa [List.getElem_append_left hi] at this
  link i hi := by
    have := h.link i (by simp; omega)
    rwa [List.getElem_append_left (by omega), List.getElem_append_left hi] at this

/-! ## One line of the stream -/

/-- A record that the collector accepts after what it has seen. -/
structure Accepts (py : Interp) (verifier : EvidenceVerifier) (trackers : Dict Str NodeTracker)
    (e : SignedEvent) : Prop where
  sound : Sound py verifier e
  continues : Continues py (trackerOf trackers e.nodeId).position e
  unseen : ((trackerOf trackers e.nodeId).note e).1 = []

/-- The trackers after an accepted record. -/
def acceptTrackers (trackers : Dict Str NodeTracker) (e : SignedEvent) : Dict Str NodeTracker :=
  trackers.store e.nodeId (acceptRecord (trackerOf trackers e.nodeId) e)

theorem trackRecord_ok (py : Interp) (trackers : Dict Str NodeTracker) {e : SignedEvent}
    (he : e.WellFormed) (r : VerificationResult) :
    ∃ p, trackRecord py trackers e r = .ok p := by
  obtain ⟨r₁, h₁⟩ := checkChain_ok py he (trackerOf trackers e.nodeId).position r
  obtain ⟨payload, hp⟩ := SignedEvent.hashPayload_ok he.encodable
  have hhash : computeEventHash py e = .ok (py.sha3_256 payload) :=
    Json.bind_eq_ok.mpr ⟨payload, hp, rfl⟩
  unfold trackRecord trackRecordWithin
  by_cases hs : e.sequence =
      ((trackerOf trackers e.nodeId).note e).2.position.nextSequence
  · exact ⟨_, Json.bind_eq_ok.mpr ⟨r₁, h₁,
      (if_pos hs).trans (Json.bind_eq_ok.mpr ⟨_, hhash, rfl⟩)⟩⟩
  · exact ⟨_, Json.bind_eq_ok.mpr ⟨r₁, h₁, if_neg hs⟩⟩

/-- The verdict of a record in the stream, and the trackers after an accepted one. -/
theorem trackRecord_valid {py : Interp} {verifier : EvidenceVerifier}
    {trackers trackers' : Dict Str NodeTracker} {e : SignedEvent} {r r' : VerificationResult}
    (hr : verifyEvent py verifier e = .ok r)
    (h : trackRecord py trackers e r = .ok (trackers', r')) :
    (r'.valid = true ↔ Accepts py verifier trackers e) ∧
      (r'.valid = true → trackers' = acceptTrackers trackers e) := by
  unfold trackRecord trackRecordWithin at h
  obtain ⟨r₁, h₁, h⟩ := Json.bind_eq_ok.mp h
  have hv := checkChain_valid h₁
  rw [verifyEvent_valid hr] at hv
  have hresult : r' = ((trackerOf trackers e.nodeId).note e).1.foldl
      VerificationResult.addError r₁ := by
    simp only at h
    split_ifs at h
    · obtain ⟨hash, -, h⟩ := Json.bind_eq_ok.mp h
      exact (Prod.mk.inj (Except.ok.inj h)).2.symm
    · exact (Prod.mk.inj (Except.ok.inj h)).2.symm
  have hiff : r'.valid = true ↔ Accepts py verifier trackers e := by
    rw [hresult, foldl_addError_valid, hv]
    exact ⟨fun ⟨⟨hs, hc⟩, hu⟩ => ⟨hs, hc, hu⟩, fun ⟨hs, hc, hu⟩ => ⟨⟨hs, hc⟩, hu⟩⟩
  refine ⟨hiff, fun hvalid => ?_⟩
  obtain ⟨hs, hc, -⟩ := hiff.mp hvalid
  have hnext : e.sequence = ((trackerOf trackers e.nodeId).noteWithin maxTrackedHashes
      e).2.position.nextSequence := by
    rw [NodeTracker.noteWithin_max, note_position]
    exact hc.sequence
  simp only at h
  rw [if_pos hnext] at h
  obtain ⟨hash, hhash, h⟩ := Json.bind_eq_ok.mp h
  obtain rfl := Except.ok.inj (hs.hash.symm.trans hhash)
  exact (Prod.mk.inj (Except.ok.inj h)).1.symm

/-- The counters add up, and the verdict is that nothing failed. -/
structure Tally (r : StreamReport) : Prop where
  total : r.total = r.verified + r.failed
  valid : r.valid = true ↔ r.failed = 0

theorem record_counts (c : EvidenceCollector) (report : StreamReport)
    (result : VerificationResult) :
    (record c report result).valid = report.valid ∧
      (record c report result).total = report.total ∧
      (record c report result).verified = report.verified ∧
      (record c report result).failed = report.failed := by
  unfold record
  simp only
  split_ifs <;> exact ⟨rfl, rfl, rfl, rfl⟩

/-- What one line does to the counters: nothing, or one more record with its verdict. -/
inductive Counted (before after : StreamReport) : Prop
  | blank (h : after = before)
  | verified (total : after.total = before.total + 1)
      (verified : after.verified = before.verified + 1) (failed : after.failed = before.failed)
      (valid : after.valid = before.valid)
  | failed (total : after.total = before.total + 1) (verified : after.verified = before.verified)
      (failed : after.failed = before.failed + 1) (valid : after.valid = false)

theorem countMalformed_counted (c : EvidenceCollector) (report : StreamReport)
    (result : VerificationResult) :
    Counted report (countMalformed c { report with total := report.total + 1 } result) := by
  unfold countMalformed
  obtain ⟨h₁, h₂, h₃, h₄⟩ := record_counts c
    { report with total := report.total + 1, malformed := report.malformed + 1,
                  failed := report.failed + 1, valid := false } result
  exact .failed h₂ h₃ h₄ h₁

theorem countResult_counted (c : EvidenceCollector) (report : StreamReport)
    (result : VerificationResult) :
    Counted report (countResult c { report with total := report.total + 1 } result) ∧
      ((countResult c { report with total := report.total + 1 } result).failed = report.failed ↔
        result.valid = true) := by
  unfold countResult
  cases hv : result.valid with
  | true =>
      obtain ⟨h₁, h₂, h₃, h₄⟩ := record_counts c
        { report with total := report.total + 1, verified := report.verified + 1 } result
      exact ⟨.verified h₂ h₃ h₄ h₁, by simp only [if_true, h₄]⟩
  | false =>
      obtain ⟨h₁, h₂, h₃, h₄⟩ := record_counts c
        { report with total := report.total + 1, failed := report.failed + 1, valid := false } result
      refine ⟨.failed h₂ h₃ h₄ h₁, fun h => ?_, fun h => by simp at h⟩
      exact absurd (h₄.symm.trans h) (by simp)

theorem verifyLine_some {py : Interp} {verifier : EvidenceVerifier} {line : Line}
    {r : VerificationResult} {e : SignedEvent}
    (h : verifyLine py verifier line = .ok (r, some e)) :
    parseSignedEventJson py verifier.maxRecordBytes true line = .ok e ∧
      verifyEvent py verifier e = .ok r := by
  unfold verifyLine at h
  split at h
  · simp at h
  · simp at h
  · rename_i event hp
    obtain ⟨result, hr, h⟩ := Json.bind_eq_ok.mp h
    obtain ⟨rfl, he⟩ := Prod.mk.inj (Except.ok.inj h)
    obtain rfl := Option.some.inj he
    exact ⟨hp, hr⟩

/-- One line of the stream: it is counted, and it adds no failure exactly when it is
blank or an accepted record. -/
theorem verifyStep_spec {py : Interp} {c : EvidenceCollector} {st st' : StreamState} {raw : Line}
    (h : verifyStep py c st raw = .ok st') :
    Counted st.2 st'.2 ∧
      (lineLength (stripLine raw) = 0 → st' = st) ∧
      (lineLength (stripLine raw) ≠ 0 → st'.2.failed = st.2.failed →
        ∃ e, parseSignedEventJson py c.verifier.maxRecordBytes true (stripLine raw) = .ok e ∧
          Accepts py c.verifier st.1 e ∧ st'.1 = acceptTrackers st.1 e) := by
  unfold verifyStep verifyStepWithin at h
  simp only [trackRecordWithin_max] at h
  split_ifs at h with hblank hlong
  · obtain rfl := Except.ok.inj h
    exact ⟨.blank rfl, fun _ => rfl, fun hne => absurd hblank hne⟩
  · obtain rfl := Except.ok.inj h
    have hc := countMalformed_counted c st.2
      (VerificationResult.unparsed.addError .oversizedEvidence)
    refine ⟨hc, fun h0 => absurd h0 hblank, fun _ hf => ?_⟩
    obtain ⟨-, -, -, h₄⟩ := record_counts c
      { st.2 with total := st.2.total + 1, malformed := st.2.malformed + 1,
                  failed := st.2.failed + 1, valid := false }
      (VerificationResult.unparsed.addError .oversizedEvidence)
    exact absurd (h₄.symm.trans hf) (by simp)
  · obtain ⟨⟨result, event⟩, hline, h⟩ := Json.bind_eq_ok.mp h
    cases event with
    | none =>
        obtain rfl := Except.ok.inj h
        refine ⟨countMalformed_counted c st.2 result, fun h0 => absurd h0 hblank, fun _ hf => ?_⟩
        obtain ⟨-, -, -, h₄⟩ := record_counts c
          { st.2 with total := st.2.total + 1, malformed := st.2.malformed + 1,
                      failed := st.2.failed + 1, valid := false } result
        exact absurd (h₄.symm.trans hf) (by simp)
    | some e =>
        obtain ⟨hparse, hverify⟩ := verifyLine_some hline
        simp only at h
        obtain ⟨⟨trackers, r⟩, htrack, h⟩ := Json.bind_eq_ok.mp h
        obtain rfl := Except.ok.inj h
        obtain ⟨hcount, hfail⟩ := countResult_counted c st.2 r
        refine ⟨hcount, fun h0 => absurd h0 hblank, fun _ hf => ?_⟩
        obtain ⟨hiff, htr⟩ := trackRecord_valid hverify htrack
        have hvalid := hfail.mp hf
        exact ⟨e, hparse, hiff.mp hvalid, htr hvalid⟩

theorem lineLength_le_raw {line : Line} {raw : Bytes} (h : line.raw = some raw) :
    lineLength line ≤ raw.length := by
  cases line with
  | text s =>
      obtain ⟨-, rfl⟩ := Utf8.encode_eq_some.mp h
      exact Utf8.length_le_encodeAll s
  | bytes b => exact (Option.some.inj h ▸ le_rfl)

/-- A record that is accepted is counted as verified. -/
theorem verifyStep_accepts {py : Interp} {c : EvidenceCollector} {st : StreamState} {raw : Line}
    {e : SignedEvent} (hblank : lineLength (stripLine raw) ≠ 0)
    (hparse : parseSignedEventJson py c.verifier.maxRecordBytes true (stripLine raw) = .ok e)
    (ha : Accepts py c.verifier st.1 e) :
    ∃ st', verifyStep py c st raw = .ok st' ∧ st'.2.failed = st.2.failed ∧
      st'.1 = acceptTrackers st.1 e := by
  obtain ⟨bytes, -, -, hraw, hlen, -⟩ := parseSignedEventJson_eq_ok.mp hparse
  have hshort : ¬ c.verifier.maxRecordBytes < lineLength (stripLine raw) := by
    have := lineLength_le_raw hraw
    omega
  obtain ⟨r, hr, -⟩ := verifyEvent_of_sound ha.sound
  obtain ⟨⟨trackers, r'⟩, htrack⟩ := trackRecord_ok py st.1
    (wellFormed_of_parse hparse) r
  have hline : verifyLine py c.verifier (stripLine raw) = .ok (r, some e) := by
    unfold verifyLine
    rw [hparse]
    exact Json.bind_eq_ok.mpr ⟨r, hr, rfl⟩
  obtain ⟨hiff, htr⟩ := trackRecord_valid hr htrack
  have hvalid := hiff.mpr ha
  refine ⟨(trackers, countResult c { st.2 with total := st.2.total + 1 } r'), ?_, ?_, htr hvalid⟩
  · unfold verifyStep verifyStepWithin
    simp only [trackRecordWithin_max]
    rw [if_neg hblank, if_neg hshort]
    exact Json.bind_eq_ok.mpr ⟨_, hline, Json.bind_eq_ok.mpr ⟨_, htrack, rfl⟩⟩
  · exact (countResult_counted c st.2 r').2.mpr hvalid

/-! ## The whole stream -/

/-- The trackers agree with the records that were accepted so far. -/
def TracksAll (py : Interp) (trackers : Dict Str NodeTracker) (rs : List SignedEvent) : Prop :=
  ∀ node, Tracks py (trackerOf trackers node) (ofNode node rs)

theorem ofNode_append (node : Str) (rs more : List SignedEvent) :
    ofNode node (rs ++ more) = ofNode node rs ++ ofNode node more := List.filter_append ..

theorem ofNode_append_self (rs : List SignedEvent) (e : SignedEvent) :
    ofNode e.nodeId (rs ++ [e]) = ofNode e.nodeId rs ++ [e] := by
  simp [ofNode]

theorem ofNode_append_ne {node : Str} {e : SignedEvent} (h : e.nodeId ≠ node)
    (rs : List SignedEvent) : ofNode node (rs ++ [e]) = ofNode node rs := by
  simp [ofNode, h]

theorem TracksAll.accept {py : Interp} {trackers : Dict Str NodeTracker} {rs : List SignedEvent}
    {e : SignedEvent} (ht : TracksAll py trackers rs)
    (hc : Continues py (trackerOf trackers e.nodeId).position e) :
    TracksAll py (acceptTrackers trackers e) (rs ++ [e]) := by
  intro node
  by_cases hn : e.nodeId = node
  · subst hn
    rw [trackerOf, acceptTrackers, Dict.lookup_store_self, Option.getD_some, ofNode_append_self]
    exact (ht e.nodeId).accept hc.sequence
  · rw [trackerOf, acceptTrackers, Dict.lookup_store_ne _ (Ne.symm hn), ofNode_append_ne hn]
    exact ht node

theorem mem_of_mem_ofNode {node : Str} {rs : List SignedEvent} {e : SignedEvent}
    (h : e ∈ ofNode node rs) : e ∈ rs ∧ e.nodeId = node := by
  simpa [ofNode] using h

/-- An accepted record extends the chain of its node and no other. -/
theorem chain_accept {py : Interp} {verifier : EvidenceVerifier}
    {trackers : Dict Str NodeTracker} {rs : List SignedEvent} {e : SignedEvent}
    (ht : TracksAll py trackers rs) (hs : ∀ x ∈ rs, Sound py verifier x)
    (hc : ∀ node, Chain py node (ofNode node rs)) :
    Continues py (trackerOf trackers e.nodeId).position e ↔
      ∀ node, Chain py node (ofNode node (rs ++ [e])) := by
  have hself := chain_append (e := e) (hc e.nodeId) (ht e.nodeId)
    (fun x hx => (hs x (mem_of_mem_ofNode hx).1).hash) rfl
  constructor
  · intro h node
    by_cases hn : e.nodeId = node
    · subst hn
      rw [ofNode_append_self]
      exact hself.mpr h
    · rw [ofNode_append_ne hn]
      exact hc node
  · intro h
    have := h e.nodeId
    rw [ofNode_append_self] at this
    exact hself.mp this

theorem Tally.step {before after : StreamReport} (h : Tally before) (hc : Counted before after) :
    Tally after ∧ before.failed ≤ after.failed := by
  obtain ⟨ht, hv⟩ := h
  cases hc with
  | blank heq =>
      subst heq
      exact ⟨⟨ht, hv⟩, le_rfl⟩
  | verified h₁ h₂ h₃ h₄ =>
      exact ⟨⟨by omega, by rw [h₄, hv, h₃]⟩, by omega⟩
  | failed h₁ h₂ h₃ h₄ =>
      refine ⟨⟨by omega, ?_⟩, by omega⟩
      rw [h₄, h₃]
      simp

theorem verifyLoop_cons {py : Interp} {c : EvidenceCollector} {raw : Line} {lines : List Line}
    {st st' : StreamState} :
    verifyLoop py c (raw :: lines) st = .ok st' ↔
      ∃ mid, verifyStep py c st raw = .ok mid ∧ verifyLoop py c lines mid = .ok st' := by
  rw [verifyLoop, List.foldlM_cons, Json.bind_eq_ok]
  rfl

/-- Over a whole run the counters add up and failures are never forgotten. -/
theorem verifyLoop_tally {py : Interp} {c : EvidenceCollector} {lines : List Line}
    {st st' : StreamState} (h : verifyLoop py c lines st = .ok st') (ht : Tally st.2) :
    Tally st'.2 ∧ st.2.failed ≤ st'.2.failed := by
  induction lines generalizing st with
  | nil =>
      obtain rfl := Except.ok.inj h
      exact ⟨ht, le_rfl⟩
  | cons raw rest ih =>
      obtain ⟨mid, hstep, hrest⟩ := verifyLoop_cons.mp h
      obtain ⟨hmid, hle⟩ := ht.step (verifyStep_spec hstep).1
      obtain ⟨hfin, hle'⟩ := ih hrest hmid
      exact ⟨hfin, hle.trans hle'⟩

theorem nonBlank_cons (raw : Line) (lines : List Line) :
    nonBlank (raw :: lines) =
      if lineLength (stripLine raw) = 0 then nonBlank lines
      else stripLine raw :: nonBlank lines := by
  unfold nonBlank
  split_ifs with h <;> simp [h]

theorem nonBlank_append (ls ls' : List Line) : nonBlank (ls ++ ls') = nonBlank ls ++ nonBlank ls' := by
  simp [nonBlank]

/-- A run that adds no failure reads records that extend every chain. -/
theorem verifyLoop_sound {py : Interp} {c : EvidenceCollector} {lines : List Line}
    {st st' : StreamState} {rs : List SignedEvent} (h : verifyLoop py c lines st = .ok st')
    (htally : Tally st.2) (hfailed : st'.2.failed = st.2.failed) (ht : TracksAll py st.1 rs)
    (hs : ∀ x ∈ rs, Sound py c.verifier x) (hc : ∀ node, Chain py node (ofNode node rs)) :
    ∃ new, (nonBlank lines).map (parseSignedEventJson py c.verifier.maxRecordBytes true) =
        new.map .ok ∧ (∀ x ∈ rs ++ new, Sound py c.verifier x) ∧
      ∀ node, Chain py node (ofNode node (rs ++ new)) := by
  -- the invariant relates the trackers to the records accepted before the current line
  induction lines generalizing st rs with
  | nil => exact ⟨[], rfl, by simpa using hs, by simpa using hc⟩
  | cons raw rest ih =>
      obtain ⟨mid, hstep, hrest⟩ := verifyLoop_cons.mp h
      obtain ⟨hcount, hblank, hread⟩ := verifyStep_spec hstep
      obtain ⟨hmid, hle⟩ := htally.step hcount
      have hle' := (verifyLoop_tally hrest hmid).2
      have hmf : mid.2.failed = st.2.failed := by omega
      rw [nonBlank_cons]
      split_ifs with hb
      · obtain rfl := hblank hb
        exact ih hrest htally hfailed ht hs hc
      · obtain ⟨e, hparse, hacc, htr⟩ := hread hb hmf
        have hs' : ∀ x ∈ rs ++ [e], Sound py c.verifier x := by
          intro x hx
          rcases List.mem_append.mp hx with hx | hx
          · exact hs x hx
          · exact List.mem_singleton.mp hx ▸ hacc.sound
        obtain ⟨new, hnew, hsn, hcn⟩ := ih hrest hmid (by omega)
          (htr ▸ ht.accept hacc.continues) hs' ((chain_accept ht hs hc).mp hacc.continues)
        refine ⟨e :: new, by simp [hparse, hnew], ?_, ?_⟩
        · simpa using hsn
        · simpa using hcn

/-- Two records of a chain with one hash are one record. -/
theorem sequence_eq_of_hash {py : Interp} {verifier : EvidenceVerifier} {rs : List SignedEvent}
    (hn : NoCollision py rs) (hw : ∀ x ∈ rs, x.WellFormed) (hs : ∀ x ∈ rs, Sound py verifier x)
    {e f : SignedEvent} (he : e ∈ rs) (hf : f ∈ rs) (h : e.eventHash = f.eventHash) :
    e.sequence = f.sequence := by
  obtain ⟨p, hp, hph⟩ := Json.bind_eq_ok.mp (hs e he).hash
  obtain ⟨q, hq, hqh⟩ := Json.bind_eq_ok.mp (hs f hf).hash
  have hpq : p = q := by
    refine hn e he f hf p q hp hq ?_
    rw [Except.ok.inj hph, Except.ok.inj hqh, h]
  subst hpq
  exact (sameContent_of_hashPayload hp hq (hw e he).distinct (hw f hf).distinct).sequence

/-- The next record of a tracked chain with room in the tables raises no alert. -/
theorem note_unseen {py : Interp} {t : NodeTracker} {rs : List SignedEvent} {e : SignedEvent}
    (ht : Tracks py t rs) (hseq : e.sequence = t.position.nextSequence)
    (hroom : rs.length < maxTrackedHashes) (hfresh : ∀ x ∈ rs, x.eventHash ≠ e.eventHash) :
    (t.note e).1 = [] := by
  have hcount := ht.count
  have hnone : t.seenSequences.lookup e.sequence = none := by
    cases hl : t.seenSequences.lookup e.sequence with
    | none => rfl
    | some h =>
        have := ht.sequences _ _ hl
        rw [hseq, ChainPosition.nextSequence, ht.sequence] at this
        omega
  have hnot : e.eventHash ∉ t.seenHashes := by
    intro hm
    obtain ⟨x, hx, hxe⟩ := ht.hashes _ hm
    exact hfresh x hx hxe
  unfold NodeTracker.note NodeTracker.noteWithin
  rw [if_pos (by omega)]
  simp only [NodeTracker.seenAlerts, hnone]
  rw [if_neg hnot]

/-- A run over genuine records adds no failure. -/
theorem verifyLoop_complete {py : Interp} {c : EvidenceCollector} {lines : List Line}
    (st : StreamState) (rs : List SignedEvent) {new : List SignedEvent} (ht : TracksAll py st.1 rs)
    (hparse : (nonBlank lines).map (parseSignedEventJson py c.verifier.maxRecordBytes true) =
      new.map .ok) (hw : ∀ x ∈ rs ++ new, x.WellFormed)
    (hs : ∀ x ∈ rs ++ new, Sound py c.verifier x)
    (hc : ∀ node, Chain py node (ofNode node (rs ++ new)))
    (hcap : ∀ node, (ofNode node (rs ++ new)).length ≤ maxTrackedHashes)
    (hn : NoCollision py (rs ++ new)) :
    ∃ st', verifyLoop py c lines st = .ok st' ∧ st'.2.failed = st.2.failed := by
  induction lines generalizing st rs new with
  | nil => exact ⟨st, rfl, rfl⟩
  | cons raw rest ih =>
      rw [nonBlank_cons] at hparse
      split_ifs at hparse with hb
      · have hstep : verifyStep py c st raw = .ok st := by
          unfold verifyStep verifyStepWithin
          exact if_pos hb
        obtain ⟨st', hrest, hf⟩ := ih st rs ht hparse hw hs hc hcap hn
        exact ⟨st', verifyLoop_cons.mpr ⟨st, hstep, hrest⟩, hf⟩
      · cases new with
        | nil => simp at hparse
        | cons e more =>
            simp only [List.map_cons, List.cons.injEq] at hparse
            have hassoc : rs ++ e :: more = (rs ++ [e]) ++ more := by simp
            rw [hassoc] at hw hs hc hcap hn
            have hold : ∀ x ∈ rs, Sound py c.verifier x := fun x hx => hs x (by simp [hx])
            have hpre : ∀ node, Chain py node (ofNode node rs) ∧
                Chain py node (ofNode node (rs ++ [e])) := by
              intro node
              have hnode := hc node
              rw [ofNode_append] at hnode
              have hpair := chain_of_append hnode
              rw [ofNode_append] at hpair
              exact ⟨chain_of_append hpair, chain_of_append hnode⟩
            have hcont := (chain_accept ht hold fun node => (hpre node).1).mpr
              fun node => (hpre node).2
            have hroom : (ofNode e.nodeId rs).length < maxTrackedHashes := by
              have := hcap e.nodeId
              simp only [ofNode, List.filter_append, List.length_append] at this ⊢
              simp at this
              omega
            have hfresh : ∀ x ∈ ofNode e.nodeId rs, x.eventHash ≠ e.eventHash := by
              intro x hx heq
              obtain ⟨hxr, hxn⟩ := mem_of_mem_ofNode hx
              have hsame := sequence_eq_of_hash hn hw hs (by simp [hxr]) (by simp) heq
              obtain ⟨i, hi, rfl⟩ := List.getElem_of_mem hx
              have h₁ := (hpre e.nodeId).1.sequence i hi
              have h₂ := hcont.sequence
              rw [ChainPosition.nextSequence, (ht e.nodeId).sequence] at h₂
              omega
            have hacc : Accepts py c.verifier st.1 e :=
              ⟨hs e (by simp), hcont, note_unseen (ht e.nodeId) hcont.sequence hroom hfresh⟩
            obtain ⟨mid, hstep, hmf, htr⟩ := verifyStep_accepts hb hparse.1 hacc
            have htracks : TracksAll py mid.1 (rs ++ [e]) := htr ▸ ht.accept hcont
            obtain ⟨st', hrest, hf⟩ := ih mid (rs ++ [e]) htracks hparse.2 hw hs hc hcap hn
            exact ⟨st', verifyLoop_cons.mpr ⟨mid, hstep, hrest⟩, hf.trans hmf⟩

theorem tally_start : Tally .start := ⟨rfl, by simp [StreamReport.start]⟩

theorem tracksAll_nil (py : Interp) : TracksAll py [] [] := fun _ => tracks_start py

theorem chain_nil (py : Interp) (node : Str) : Chain py node [] where
  sequence := by simp
  genesis := by simp
  link := by simp

theorem verifyStream_eq_ok {py : Interp} {c : EvidenceCollector} {lines : List Line}
    {report : StreamReport} (h : verifyStream py c lines = .ok report) :
    ∃ st, verifyLoop py c lines ([], .start) = .ok st ∧ report.valid = st.2.valid ∧
      report.total = st.2.total ∧ report.verified = st.2.verified ∧
      report.failed = st.2.failed := by
  obtain ⟨st, hloop, h⟩ := Json.bind_eq_ok.mp h
  obtain rfl := Except.ok.inj h
  exact ⟨st, hloop, rfl, rfl, rfl, rfl⟩

/-- A report that is valid is about a genuine stream. -/
theorem genuine_of_valid {py : Interp} {c : EvidenceCollector} {lines : List Line}
    {report : StreamReport} (h : verifyStream py c lines = .ok report)
    (hv : report.valid = true) : ∃ rs, Genuine py c.verifier lines rs := by
  obtain ⟨st, hloop, hvalid, -, -, -⟩ := verifyStream_eq_ok h
  have htally := (verifyLoop_tally hloop tally_start).1
  have hfailed : st.2.failed = 0 := htally.valid.mp (hvalid ▸ hv)
  obtain ⟨new, hparse, hs, hc⟩ := verifyLoop_sound hloop tally_start hfailed
    (tracksAll_nil py) (by simp) (fun node => chain_nil py node)
  exact ⟨new, hparse, by simpa using hs, by simpa using hc⟩

/-- A genuine stream within the tables, without a collision, is reported as valid. -/
theorem valid_of_genuine {py : Interp} {c : EvidenceCollector} {lines : List Line}
    {rs : List SignedEvent} (hg : Genuine py c.verifier lines rs)
    (hcap : ∀ node, (ofNode node rs).length ≤ maxTrackedHashes) (hn : NoCollision py rs) :
    ∃ report, verifyStream py c lines = .ok report ∧ report.valid = true := by
  have hw : ∀ x ∈ rs, x.WellFormed := by
    intro x hx
    have hmem : Except.ok x ∈ rs.map (Except.ok (ε := Exn)) := List.mem_map_of_mem hx
    rw [← hg.parses] at hmem
    obtain ⟨line, -, hline⟩ := List.mem_map.mp hmem
    exact wellFormed_of_parse hline
  obtain ⟨st, hloop, hfailed⟩ := verifyLoop_complete (c := c) ([], .start) []
    (tracksAll_nil py) hg.parses hw hg.sound hg.chain hcap hn
  refine ⟨_, Json.bind_eq_ok.mpr ⟨st, hloop, rfl⟩, ?_⟩
  exact ((verifyLoop_tally hloop tally_start).1.valid).mpr hfailed

/-- A report counts every line once, and is valid when no record failed. -/
theorem verifyStream_tally {py : Interp} {c : EvidenceCollector} {lines : List Line}
    {report : StreamReport} (h : verifyStream py c lines = .ok report) :
    report.total = report.verified + report.failed ∧
      (report.valid = true ↔ report.failed = 0) := by
  obtain ⟨st, hloop, hvalid, htotal, hver, hfail⟩ := verifyStream_eq_ok h
  have htally := (verifyLoop_tally hloop tally_start).1
  rw [htotal, hvalid, hver, hfail]
  exact ⟨htally.total, htally.valid⟩

/-- The collector reports genuine streams as valid, and no others; its counters add up and
its verdict is that nothing failed. -/
theorem verifyStream_sound_and_complete (py : Interp) (c : EvidenceCollector)
    (lines : List Line) :
    (∀ report, verifyStream py c lines = .ok report →
      report.total = report.verified + report.failed ∧
      (report.valid = true ↔ report.failed = 0) ∧
      (report.valid = true → ∃ rs, Genuine py c.verifier lines rs)) ∧
    (∀ rs, Genuine py c.verifier lines rs →
      (∀ node, (ofNode node rs).length ≤ maxTrackedHashes) → NoCollision py rs →
      ∃ report, verifyStream py c lines = .ok report ∧ report.valid = true) := by
  refine ⟨?_, fun rs hg hcap hn => valid_of_genuine hg hcap hn⟩
  intro report h
  obtain ⟨htotal, hvalid⟩ := verifyStream_tally h
  exact ⟨htotal, hvalid, genuine_of_valid h⟩

theorem map_ok_injective {ε α : Type} {xs ys : List α}
    (h : xs.map (Except.ok (ε := ε)) = ys.map .ok) : xs = ys :=
  List.map_injective_iff.mpr (fun _ _ hxy => Except.ok.inj hxy) h

theorem map_toOption_of_parses {α β γ ε : Type} {parse : α → Except ε β} {f : β → γ}
    {xs : List α} {ys : List β} (h : xs.map parse = ys.map .ok) :
    (xs.map fun x => (parse x).toOption.map f) = ys.map fun y => some (f y) := by
  have hm := congrArg (List.map fun r : Except ε β => r.toOption.map f) h
  simpa [Function.comp_def, Except.toOption] using hm

/-- Different hashes are hashes of different payloads. -/
theorem noCollision_of_hashes {py : Interp} {rs : List SignedEvent} {hs : List Str}
    (hrs : rs.map (computeEventHash py) = hs.map .ok) (hn : hs.Nodup) : NoCollision py rs := by
  have hinj : (rs.map (computeEventHash py)).Nodup := by
    rw [hrs]
    exact hn.map fun _ _ h => Except.ok.inj h
  intro e he f hf p q hp hq heq
  have hcomp : computeEventHash py e = computeEventHash py f := by
    unfold computeEventHash
    rw [hp, hq]
    exact congrArg Except.ok heq
  obtain rfl := List.inj_on_of_nodup_map hinj he hf hcomp
  exact Except.ok.inj (hp.symm.trans hq)

theorem nonBlank_eq_map {lines : List Line} (h : ∀ line ∈ lines, lineLength (stripLine line) ≠ 0) :
    nonBlank lines = lines.map stripLine := by
  refine List.filter_eq_self.mpr fun line hline => ?_
  obtain ⟨raw, hraw, rfl⟩ := List.mem_map.mp hline
  exact decide_eq_true (h raw hraw)

/-- The records of one node of a genuine stream are genuine on their own. -/
theorem Genuine.own {py : Interp} {verifier : EvidenceVerifier} {lines own : List Line}
    {rs : List SignedEvent} {node : Str} (hg : Genuine py verifier lines rs)
    (hparse : (nonBlank own).map (parseSignedEventJson py verifier.maxRecordBytes true) =
      (ofNode node rs).map .ok) : Genuine py verifier own (ofNode node rs) where
  parses := hparse
  sound e he := hg.sound e (mem_of_mem_ofNode he).1
  chain other := by
    by_cases h : other = node
    · subst h
      have hall : ofNode other (ofNode other rs) = ofNode other rs :=
        List.filter_eq_self.mpr fun e he => decide_eq_true (mem_of_mem_ofNode he).2
      rw [hall]
      exact hg.chain other
    · have hnone : ofNode other (ofNode node rs) = [] := by
        refine List.filter_eq_nil_iff.mpr fun e he => ?_
        rw [(mem_of_mem_ofNode he).2]
        simpa using Ne.symm h
      rw [hnone]
      exact chain_nil py other

/-! ## A stream of two nodes -/

/-- A hash by its number. -/
def hashText (n : Nat) : Str := (List.range 64).map fun i => Json.hexChar (n / 16 ^ (63 - i) % 16)

/-- A record with an empty event, as it stands in a log. -/
def recordText (keyId nodeId signature sequence time eventHash previous : Str) : Str :=
  -- short pieces, which the kernel evaluates much faster than one long literal
  [lit "\x7b\"event\":\x7b\x7d", lit ",\"event_hash\":", lit "\"", eventHash,
    lit "\",\"format_", lit "version\":", lit "\"1.0\"", lit ",\"hash_", lit "algorithm\":",
    lit "\"SHA3-256", lit "\",\"key_id\":", lit "\"", keyId, lit "\",\"node_id\":", lit "\"",
    nodeId, lit "\",\"previous_", lit "event_hash\":", lit "\"", previous, lit "\",\"sequence",
    lit "\":", sequence, lit ",\"signature\":", lit "\"", signature, lit "\",\"signature_",
    lit "algorithm\":", lit "\"ML-DSA-65", lit "\",\"timestamp", lit "\":\"", time,
    lit "\"\x7d"].flatten

/-- A record of node `n` signed with key `k`. -/
def chainRecord (sequence time eventHash previous : Str) : Line :=
  .text (recordText (lit "k") (lit "n") (lit "cGs=") sequence time eventHash previous)

/-- The time of the records. -/
def chainTime : Str := lit "2026-01-01T" ++ lit "00:00:00." ++ lit "000000Z"

/-- The genesis value of node `n`. -/
def chainGenesis : Str :=
  hashText 0xc3548fbb9fbc2bc5603d7e00c3c11d2a012ac45a479bafe91a8652fa11f53760

/-- The hashes of the three records of node `n`. -/
def chainHash : Nat → Str
  | 0 => hashText 0x4eb21cae24b440db8d063bd73a578e3d2ee0bf7948cdb437453309dd5b5e03c0
  | 1 => hashText 0x1e368a175cfa5e696d64dd5d2def302a4a901eb5809913a602b577fa8edf0410
  | _ => hashText 0x0176928727073ce23825bc1c0c2396144eefb0e2bb661f00e485a3cf252506a6

/-- The first line of the chain. -/
def chainFirst : Line := chainRecord (lit "1") chainTime (chainHash 0) chainGenesis

/-- The other two lines of the chain. -/
def chainRest : List Line :=
  [chainRecord (lit "2") chainTime (chainHash 1) (chainHash 0),
   chainRecord (lit "3") chainTime (chainHash 2) (chainHash 1)]

/-- The hash of the record of node `m`. -/
def neighbourHash : Str :=
  hashText 0xe25638ceda4b571126250310afc5a11dfd2b3338fa0a8db379d3ba4127a2c74a

/-- The first record of node `m`. -/
def neighbour : Line :=
  .text (recordText (lit "j") (lit "m") (lit "ag==") (lit "1") chainTime neighbourHash
    (hashText 0xfb141045ac4958591da960c07f3c613da663d22aed77a44b3f6e84145cd31f31))

/-- The chain of node `n` with the record of node `m` behind its first one. -/
def sampleLines : List Line := chainFirst :: neighbour :: chainRest

/-- The time from which the keys may be used. -/
def keyTime : Str := lit "2025-01-01T" ++ lit "00:00:00." ++ lit "000000Z"

/-- The registered key of node `n`. -/
def sampleKey : KeyRecord :=
  ⟨lit "k", lit "n", .mlDsa65, lit "cGs=", keyTime, none, .active⟩

/-- The registered key of node `m`. -/
def neighbourKey : KeyRecord :=
  ⟨lit "j", lit "m", .mlDsa65, lit "ag==", keyTime, none, .active⟩

/-- A collector that knows the keys of both nodes; the signature of a key is the key itself. -/
def sampleCollector : EvidenceCollector where
  verifier :=
    { registry := ⟨[sampleKey, neighbourKey], by decide⟩
      backend := ⟨fun key _ signature _ => .ok (signature == key)⟩
      maxRecordBytes := maxEvidenceBytes
      maxRecordBytes_pos := maxEvidenceBytes_pos }
  maxResults := 10000
  maxResults_pos := defaultMaxResults_pos

/-- What tells the sample records apart. -/
def sampleFields (e : SignedEvent) : Str × Str × Str := (e.nodeId, e.timestamp, e.eventHash)

set_option maxRecDepth 100000 in
theorem verifyStream_sampleLines :
    (verifyStream .reference sampleCollector sampleLines).toOption.map StreamReport.valid =
        some true ∧
      sampleLines.all (fun line => lineLength (stripLine line) ≠ 0) = true ∧
      (sampleLines.map fun line => (parseSignedEventJson .reference
          sampleCollector.verifier.maxRecordBytes true (stripLine line)).toOption.map sampleFields) =
        [some (lit "n", chainTime, chainHash 0), some (lit "m", chainTime, neighbourHash),
         some (lit "n", chainTime, chainHash 1), some (lit "n", chainTime, chainHash 2)] := by
  rw [Interp.reference_eq_unrolled]
  decide +kernel

/-- The sample stream is genuine, and these are its records. -/
theorem sampleLines_genuine : ∃ a b d e,
    Genuine .reference sampleCollector.verifier sampleLines [a, b, d, e] ∧
      sampleFields a = (lit "n", chainTime, chainHash 0) ∧
      sampleFields b = (lit "m", chainTime, neighbourHash) ∧
      sampleFields d = (lit "n", chainTime, chainHash 1) ∧
      sampleFields e = (lit "n", chainTime, chainHash 2) := by
  obtain ⟨hvalid, hblank, hfields⟩ := verifyStream_sampleLines
  obtain ⟨report, hreport, hvalid⟩ := eq_ok_of_toOption hvalid
  obtain ⟨rs, hg⟩ := genuine_of_valid hreport hvalid
  have hlines : nonBlank sampleLines = sampleLines.map stripLine :=
    nonBlank_eq_map fun line h => by simpa using List.all_eq_true.mp hblank line h
  have hrs := map_toOption_of_parses (f := sampleFields) hg.parses
  rw [hlines, List.map_map] at hrs
  have hrs := hrs.symm.trans hfields
  obtain ⟨a, rest, rfl, ha, hrs⟩ := List.map_eq_cons_iff.mp hrs
  obtain ⟨b, rest, rfl, hb, hrs⟩ := List.map_eq_cons_iff.mp hrs
  obtain ⟨d, rest, rfl, hd, hrs⟩ := List.map_eq_cons_iff.mp hrs
  obtain ⟨e, rest, rfl, he, hrs⟩ := List.map_eq_cons_iff.mp hrs
  obtain rfl := List.map_eq_nil_iff.mp hrs
  exact ⟨a, b, d, e, hg, Option.some.inj ha, Option.some.inj hb, Option.some.inj hd,
    Option.some.inj he⟩

theorem noCollision_of_sound {py : Interp} {verifier : EvidenceVerifier} {rs : List SignedEvent}
    (hs : ∀ e ∈ rs, Sound py verifier e) (hn : (rs.map SignedEvent.eventHash).Nodup) :
    NoCollision py rs := by
  refine @noCollision_of_hashes _ _ (rs.map SignedEvent.eventHash) ?_ hn
  rw [List.map_map]
  exact List.map_congr_left fun e he => (hs e he).hash

/-- The chain of one node between which a record of another one stands is reported valid. -/
theorem verifyStream_sound_and_complete_sample :
    ∃ rs, Genuine .reference sampleCollector.verifier sampleLines rs ∧
      (ofNode (lit "n") rs).length = 3 ∧ (ofNode (lit "m") rs).length = 1 ∧
      ∃ report, verifyStream .reference sampleCollector sampleLines = .ok report ∧
        report.valid = true := by
  obtain ⟨a, b, d, e, hg, ha, hb, hd, he⟩ := sampleLines_genuine
  simp only [sampleFields, Prod.mk.injEq] at ha hb hd he
  have hhashes : [a, b, d, e].map SignedEvent.eventHash =
      [chainHash 0, neighbourHash, chainHash 1, chainHash 2] := by
    simp [ha, hb, hd, he]
  have hnodup : ([a, b, d, e].map SignedEvent.eventHash).Nodup := by
    rw [hhashes]
    decide
  have hnode : lit "m" ≠ lit "n" := by decide
  refine ⟨[a, b, d, e], hg, ?_, ?_, ?_⟩
  · simp [ofNode, ha.1, hb.1, hd.1, he.1, hnode]
  · simp [ofNode, ha.1, hb.1, hd.1, he.1, hnode.symm]
  · exact (verifyStream_sound_and_complete .reference sampleCollector sampleLines).2 _ hg
      (fun node => (List.length_filter_le _ _).trans (by simp [maxTrackedHashes]))
      (noCollision_of_sound hg.sound hnodup)

/-- The chain of three records of node `n` is genuine. -/
theorem chain_genuine : ∃ rs,
    Genuine .reference sampleCollector.verifier (chainFirst :: chainRest) rs ∧
      (∀ e ∈ rs, e.nodeId = lit "n" ∧ e.timestamp = chainTime) ∧
      rs.map SignedEvent.eventHash = [chainHash 0, chainHash 1, chainHash 2] := by
  obtain ⟨a, b, d, e, hg, ha, hb, hd, he⟩ := sampleLines_genuine
  simp only [sampleFields, Prod.mk.injEq] at ha hb hd he
  have hown : ofNode (lit "n") [a, b, d, e] = [a, d, e] := by
    have hnode : lit "m" ≠ lit "n" := by decide
    simp [ofNode, ha.1, hb.1, hd.1, he.1, hnode]
  have hblank := verifyStream_sampleLines.2.1
  have hlines : ∀ lines : List Line, (∀ line ∈ lines, line ∈ sampleLines) →
      nonBlank lines = lines.map stripLine := fun lines hsub => nonBlank_eq_map fun line h => by
    simpa using List.all_eq_true.mp hblank line (hsub line h)
  have hparse := hg.parses
  rw [hlines sampleLines fun _ h => h] at hparse
  refine ⟨[a, d, e], hown ▸ hg.own ?_, by simp [ha, hd, he], by simp [ha, hd, he]⟩
  rw [hlines _ (by simp [sampleLines, chainRest]), hown]
  simp only [sampleLines, chainRest, List.map_cons, List.map_nil, List.cons.injEq] at hparse ⊢
  exact ⟨hparse.1, hparse.2.2⟩

/-- The chain of node `n` on its own is reported valid. -/
theorem verifyStream_chain : ∃ report,
    verifyStream .reference sampleCollector (chainFirst :: chainRest) = .ok report ∧
      report.valid = true := by
  obtain ⟨rs, hg, -, hhashes⟩ := chain_genuine
  have hlength : rs.length = 3 := by simpa using congrArg List.length hhashes
  refine valid_of_genuine hg (fun node => (List.length_filter_le _ _).trans ?_)
    (noCollision_of_sound hg.sound ?_)
  · rw [hlength]
    decide
  · rw [hhashes]
    decide

end IcsDeception
