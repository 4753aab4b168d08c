import IcsDeception.Verdicts

/-!
# One tampered record

A stream of records of one node, numbered from one, gets verdicts that depend only on
the records before: `Judged` says which. Replacing one record of a verified chain
breaks the link to the next one; the others stay verified unless the forged record
claims the hash of a later one, which is then taken for a replay.
-/

namespace IcsDeception

open Text EventChain Models EvidenceVerifier EvidenceCollector

/-! ## Numbered records of one node -/

/-- A record that is linked to the ones before it, by their recomputed hashes. -/
def Linked (py : Interp) (pre : List SignedEvent) (e : SignedEvent) : Prop :=
  match pre.getLast? with
  | none => genesisPreviousHash py e.nodeId = .ok e.previousEventHash
  | some p => computeEventHash py p = .ok e.previousEventHash

/-- The verdict on a record that has the expected number, after the records before it. -/
structure Judged (py : Interp) (verifier : EvidenceVerifier) (pre : List SignedEvent)
    (e : SignedEvent) (v : Verdict) : Prop where
  accepted : v.accepted = true ↔ Sound py verifier e ∧ Linked py pre e ∧
    e.eventHash ∉ pre.map SignedEvent.eventHash
  mismatch : ¬ Linked py pre e → .previousHashMismatch ∈ v.result.errors
  noGap : .sequenceGap ∉ v.result.errors

/-- A node's tracker after the given numbered records, whatever they claim. -/
structure Cursor (py : Interp) (t : NodeTracker) (rs : List SignedEvent) : Prop where
  sequence : t.position.lastSequence = rs.length
  hash : ∀ e, rs.getLast? = some e →
    ∃ h, computeEventHash py e = .ok h ∧ t.position.lastEventHash = some h
  sequences : ∀ s h, t.seenSequences.lookup s = some h → s ≤ rs.length
  hashes : ∀ h, h ∈ t.seenHashes ↔ h ∈ rs.map SignedEvent.eventHash
  count : t.seenHashes.length ≤ rs.length

theorem cursor_start (py : Interp) : Cursor py .start [] where
  sequence := rfl
  hash := by simp
  sequences := by simp [NodeTracker.start]
  hashes := by simp [NodeTracker.start]
  count := le_rfl

/-- With room in the tables, a record with the next number is only compared by its hash. -/
theorem Cursor.note {py : Interp} {t : NodeTracker} {pre : List SignedEvent} {e : SignedEvent}
    (ht : Cursor py t pre) (hroom : pre.length < maxTrackedHashes)
    (hseq : e.sequence = pre.length + 1) :
    t.note e = (if e.eventHash ∈ pre.map SignedEvent.eventHash then [.replayedEvent] else [],
      { t with seenSequences := t.seenSequences.store e.sequence e.eventHash,
               seenHashes := t.seenHashes.insert e.eventHash }) := by
  have hcount := ht.count
  have hnone : t.seenSequences.lookup e.sequence = none := by
    cases hl : t.seenSequences.lookup e.sequence with
    | none => rfl
    | some h =>
        have := ht.sequences _ _ hl
        omega
  unfold NodeTracker.note NodeTracker.noteWithin
  rw [if_pos (by omega)]
  simp only [NodeTracker.seenAlerts, hnone, ht.hashes]

theorem Cursor.advance {py : Interp} {t : NodeTracker} {pre : List SignedEvent} {e : SignedEvent}
    {hash : Str} (ht : Cursor py t pre) (hroom : pre.length < maxTrackedHashes)
    (hseq : e.sequence = pre.length + 1) (hhash : computeEventHash py e = .ok hash) :
    Cursor py { (t.note e).2 with position := ChainPosition.advance e hash } (pre ++ [e]) := by
  rw [ht.note hroom hseq]
  constructor
  · simp [ChainPosition.advance, hseq]
  · intro x hx
    obtain rfl : e = x := by simpa using hx
    exact ⟨hash, hhash, rfl⟩
  · intro s h hs
    by_cases hse : s = e.sequence
    · rw [hse, hseq]
      simp
    · simp only at hs
      rw [Dict.lookup_store_ne _ hse] at hs
      have := ht.sequences s h hs
      simp only [List.length_append, List.length_singleton]
      omega
  · intro h
    simp only [List.mem_insert_iff, ht.hashes, List.map_append, List.mem_append, List.map_cons,
      List.map_nil, List.mem_singleton]
    exact or_comm
  · have := length_insert_le e.eventHash t.seenHashes
    have := ht.count
    simp only [List.length_append, List.length_singleton]
    omega

/-- What the chain check adds for a record with the next number: only whether it is linked. -/
theorem checkChain_numbered {py : Interp} {t : NodeTracker} {pre : List SignedEvent}
    {e : SignedEvent} {r r' : VerificationResult} (ht : Cursor py t pre)
    (hseq : e.sequence = pre.length + 1) (h : checkChain py e t.position r = .ok r') :
    (r'.valid = true ↔ r.valid = true ∧ Linked py pre e) ∧
      (¬ Linked py pre e → .previousHashMismatch ∈ r'.errors) ∧
      (.sequenceGap ∈ r'.errors → .sequenceGap ∈ r.errors) := by
  have hnext : ¬ e.sequence < t.position.nextSequence ∧ ¬ t.position.nextSequence < e.sequence := by
    rw [ChainPosition.nextSequence, ht.sequence]
    omega
  unfold checkChain at h
  simp only [hnext.1, hnext.2, if_false, VerificationResult.addErrorIf, decide_false,
    Bool.false_eq_true] at h
  unfold checkLink at h
  cases hlast : pre.getLast? with
  | none =>
      obtain rfl : pre = [] := List.getLast?_eq_none_iff.mp hlast
      have hfirst : e.sequence = firstSequence := by simpa [firstSequence] using hseq
      have hzero : ¬ (0 : Int) < t.position.lastSequence := by
        rw [ht.sequence]
        simp
      rw [if_pos hfirst] at h
      obtain ⟨g, hg, h⟩ := Json.bind_eq_ok.mp h
      obtain rfl := Except.ok.inj h
      simp only [hzero, VerificationResult.addErrorIf, decide_false, Bool.false_eq_true, if_false]
      have hlinked : Linked py [] e ↔ g = e.previousEventHash := by
        simp [Linked, hg]
      rw [hlinked]
      split_ifs with hne
      · have hne : ¬ g = e.previousEventHash := fun heq => by simp [heq] at hne
        simp [hne, mem_addError]
      · have heq : g = e.previousEventHash := by
          by_contra hc
          exact hne (by simpa using Ne.symm hc)
        simp [heq]
  | some p =>
      have hpos : pre.length ≠ 0 := by
        intro h0
        rw [List.length_eq_zero_iff.mp h0] at hlast
        cases hlast
      have hfirst : e.sequence ≠ firstSequence := by
        rw [hseq, firstSequence]
        omega
      obtain ⟨hash, hhash, hpl⟩ := ht.hash p hlast
      rw [if_neg hfirst, hpl] at h
      obtain rfl := Except.ok.inj h
      have hlinked : Linked py pre e ↔ hash = e.previousEventHash := by
        simp [Linked, hlast, hhash]
      rw [hlinked]
      simp only [VerificationResult.addErrorIf]
      split_ifs with hne
      · have hne : ¬ hash = e.previousEventHash := fun heq => by simp [heq] at hne
        simp [hne, mem_addError]
      · have heq : hash = e.previousEventHash := by
          by_contra hc
          exact hne (by simpa using Ne.symm hc)
        simp [heq]

/-- One record with the next number. -/
theorem judge_numbered {py : Interp} {c : EvidenceCollector} {line : Line} {e : SignedEvent}
    {t : Option NodeTracker} {pre : List SignedEvent}
    (hparse : parseSignedEventJson py c.verifier.maxRecordBytes true line = .ok e)
    (hverify : ∃ r, verifyEvent py c.verifier e = .ok r)
    (ht : Cursor py (t.getD NodeTracker.start) pre) (hroom : pre.length < maxTrackedHashes)
    (hseq : e.sequence = pre.length + 1) :
    ∃ t' v, judge py c t line = .ok (some t', v) ∧ Cursor py t' (pre ++ [e]) ∧
      Judged py c.verifier pre e v := by
  obtain ⟨r, hr⟩ := hverify
  have hwf := wellFormed_of_parse hparse
  obtain ⟨payload, hp⟩ := SignedEvent.hashPayload_ok hwf.encodable
  have hhash : computeEventHash py e = .ok (py.sha3_256 payload) :=
    Json.bind_eq_ok.mpr ⟨payload, hp, rfl⟩
  obtain ⟨tracker, htd⟩ : ∃ tracker, t.getD NodeTracker.start = tracker := ⟨_, rfl⟩
  rw [htd] at ht
  obtain ⟨r₁, h₁⟩ := checkChain_ok py hwf tracker.position r
  obtain ⟨hvalid, hmismatch, hgap⟩ := checkChain_numbered ht hseq h₁
  have hnext : e.sequence = (tracker.note e).2.position.nextSequence := by
    rw [note_position, ChainPosition.nextSequence, ht.sequence, hseq]
  have htrack : trackOne py tracker e r =
      .ok ({ (tracker.note e).2 with position := ChainPosition.advance e (py.sha3_256 payload) },
        (tracker.note e).1.foldl VerificationResult.addError r₁) :=
    Json.bind_eq_ok.mpr ⟨r₁, h₁, (if_pos hnext).trans (Json.bind_eq_ok.mpr ⟨_, hhash, rfl⟩)⟩
  refine ⟨_, ⟨(tracker.note e).1.foldl VerificationResult.addError r₁, false⟩, ?_,
    ht.advance hroom hseq hhash, ?_, ?_, ?_⟩
  · rw [judge_record hparse, htd]
    exact Json.bind_eq_ok.mpr ⟨r, hr, Json.bind_eq_ok.mpr ⟨_, htrack, rfl⟩⟩
  · have hnote : (tracker.note e).1 = [] ↔ e.eventHash ∉ pre.map SignedEvent.eventHash := by
      rw [ht.note hroom hseq]
      split_ifs with hin <;> simp [hin]
    simp only [Verdict.accepted, Bool.not_false, Bool.true_and]
    rw [foldl_addError_valid, hvalid, verifyEvent_valid hr, hnote, and_assoc]
  · intro hl
    exact mem_foldl_addError.mpr (.inl (hmismatch hl))
  · intro hg
    have hnot : Alert.sequenceGap ∉ (tracker.note e).1 := by
      rw [ht.note hroom hseq]
      split_ifs <;> simp
    rcases mem_foldl_addError.mp hg with hg | hg
    · rcases verifyEvent_errors hr _ (hgap hg) with h | h | h <;> revert h <;> decide
    · exact hnot hg

/-- A stream of records with consecutive numbers. -/
theorem run_numbered {py : Interp} {c : EvidenceCollector} {lines : List Line}
    {es : List SignedEvent} {t : Option NodeTracker} {pre : List SignedEvent}
    (hparse : lines.map (parseSignedEventJson py c.verifier.maxRecordBytes true) = es.map .ok)
    (hverify : ∀ e ∈ es, ∃ r, verifyEvent py c.verifier e = .ok r)
    (ht : Cursor py (t.getD NodeTracker.start) pre)
    (hroom : pre.length + es.length ≤ maxTrackedHashes)
    (hseq : ∀ j (h : j < es.length), es[j].sequence = pre.length + j + 1) :
    ∃ t' vs, (stream py c).runOne t lines = .ok (t', vs) ∧ vs.length = es.length ∧
      ∀ j (h : j < es.length) (h' : j < vs.length),
        Judged py c.verifier (pre ++ es.take j) es[j] vs[j].2 := by
  induction lines generalizing es t pre with
  | nil =>
      obtain rfl : es = [] := by simpa using hparse.symm
      exact ⟨t, [], rfl, rfl, by simp⟩
  | cons line rest ih =>
      cases es with
      | nil => simp at hparse
      | cons e more =>
          simp only [List.map_cons, List.cons.injEq] at hparse
          simp only [List.length_cons] at hroom
          have hfirst : e.sequence = pre.length + 1 := by
            have := hseq 0 (by simp)
            simpa using this
          obtain ⟨t', v, hstep, hcur, hjudged⟩ := judge_numbered hparse.1
            (hverify e (by simp)) ht (by omega) hfirst
          obtain ⟨t'', vs, hrun, hlen, hall⟩ := ih (t := some t') hparse.2
            (fun x hx => hverify x (by simp [hx])) hcur (by simp; omega) (fun j hj => by
              have := hseq (j + 1) (by simpa using hj)
              rw [List.getElem_cons_succ] at this
              rw [this]
              simp
              omega)
          refine ⟨t'', (line, v) :: vs, Keyed.runOne_cons_eq_ok.mpr ⟨_, _, _, hstep, hrun, rfl⟩,
            by simp [hlen], ?_⟩
          intro j hj hj'
          cases j with
          | zero => simpa using hjudged
          | succ j =>
              have := hall j (by simpa using hj) (by simpa using hj')
              simpa using this

/-! ## A chain with one record replaced -/

/-- A verified chain of one node, and a forged record in place of the one that a line holds:
of the same node and with the same number, but with other content. -/
structure Tampered (py : Interp) (c : EvidenceCollector) (before : List Line) (line : Line)
    (after : List Line) (rs : List SignedEvent) (line' : Line) (forged : SignedEvent) : Prop where
  verified : ∃ report, verifyStream py c (before ++ line :: after) = .ok report ∧
    report.valid = true
  parses : (nonBlank (before ++ line :: after)).map
    (parseSignedEventJson py c.verifier.maxRecordBytes true) = rs.map .ok
  bound : rs.length ≤ maxTrackedHashes
  record : lineLength (stripLine line) ≠ 0
  parses' : parseSignedEventJson py c.verifier.maxRecordBytes true (stripLine line') = .ok forged
  node : ∀ e ∈ rs, e.nodeId = forged.nodeId
  sequence : forged.sequence = (nonBlank before).length + 1
  different : ∀ e ∈ rs, e.sequence = forged.sequence → ¬ SameContent e forged
  noCollision : NoCollision py (forged :: rs)

/-- The verdicts of a stream in which the record at an index was tampered with: the next
record is not linked, all others are verified, and no number is missing. -/
structure StaysLocal (i : Nat) (vs : List (Line × Verdict)) : Prop where
  next : ∀ h : i + 1 < vs.length, vs[i + 1].2.accepted = false ∧
    .previousHashMismatch ∈ vs[i + 1].2.result.errors
  others : ∀ j (h : j < vs.length), j ≠ i → j ≠ i + 1 → vs[j].2.accepted = true
  noGap : ∀ v ∈ vs, .sequenceGap ∉ v.2.result.errors

theorem nonBlank_replace {before after : List Line} {line : Line}
    (h : lineLength (stripLine line) ≠ 0) :
    nonBlank (before ++ line :: after) = nonBlank before ++ stripLine line :: nonBlank after := by
  rw [nonBlank_append, nonBlank_cons, if_neg h]

theorem not_blank_of_parse {py : Interp} {maxBytes : Nat} {line : Line} {e : SignedEvent}
    (h : parseSignedEventJson py maxBytes true line = .ok e) : lineLength line ≠ 0 := by
  intro h0
  obtain ⟨raw, text, data, hraw, -, htext, hl, -⟩ := parseSignedEventJson_eq_ok.mp h
  have hnil : raw = [] := by
    cases line with
    | text s =>
        obtain rfl : s = [] := List.length_eq_zero_iff.mp h0
        exact (Option.some.inj hraw).symm
    | bytes b => exact (Option.some.inj hraw) ▸ List.length_eq_zero_iff.mp h0
  subst hnil
  obtain rfl : [] = text := Option.some.inj htext
  obtain ⟨p, hp, -⟩ := Json.bind_eq_ok.mp hl
  cases hp

/-- Records without collision and with different numbers have different hashes. -/
theorem eventHash_ne {py : Interp} {verifier : EvidenceVerifier} {rs : List SignedEvent}
    (hn : NoCollision py rs) (hw : ∀ x ∈ rs, x.WellFormed) (hs : ∀ x ∈ rs, Sound py verifier x)
    (hseq : ∀ j (h : j < rs.length), rs[j].sequence = j + 1) {j k : Nat} (hj : j < rs.length)
    (hk : k < rs.length) (hne : j ≠ k) : rs[j].eventHash ≠ rs[k].eventHash := by
  intro heq
  have := sequence_eq_of_hash hn hw hs (List.getElem_mem hj) (List.getElem_mem hk) heq
  rw [hseq j hj, hseq k hk] at this
  omega

theorem getLast?_take_succ {α : Type} {l : List α} {j : Nat} (h : j < l.length) :
    (l.take (j + 1)).getLast? = some l[j] := by
  simp [List.getLast?_take, List.getElem?_eq_getElem h]

section

variable {py : Interp} {c : EvidenceCollector} {before after : List Line} {line line' : Line}
  {rs : List SignedEvent} {forged : SignedEvent}

theorem Tampered.genuine (h : Tampered py c before line after rs line' forged) :
    Genuine py c.verifier (before ++ line :: after) rs := by
  obtain ⟨report, hr, hv⟩ := h.verified
  obtain ⟨rs', hg⟩ := genuine_of_valid hr hv
  have heq : rs' = rs := map_ok_injective (hg.parses.symm.trans h.parses)
  exact heq ▸ hg

theorem Tampered.chain (h : Tampered py c before line after rs line' forged) :
    Chain py forged.nodeId rs := by
  have hall : ofNode forged.nodeId rs = rs :=
    List.filter_eq_self.mpr fun e he => by simpa using h.node e he
  have := h.genuine.chain forged.nodeId
  rwa [hall] at this

theorem Tampered.wellFormed (h : Tampered py c before line after rs line' forged) :
    ∀ e ∈ rs, e.WellFormed := by
  intro x hx
  have hmem : Except.ok x ∈ rs.map (Except.ok (ε := Exn)) := List.mem_map_of_mem hx
  rw [← h.parses] at hmem
  obtain ⟨line, -, hline⟩ := List.mem_map.mp hmem
  exact wellFormed_of_parse hline

theorem Tampered.lt_length (h : Tampered py c before line after rs line' forged) :
    (nonBlank before).length < rs.length := by
  have hlen := congrArg List.length h.parses
  rw [nonBlank_replace h.record] at hlen
  simp only [List.length_map, List.length_append, List.length_cons] at hlen
  omega

/-- The records of the stream with the forged line. -/
theorem Tampered.parses_forged (h : Tampered py c before line after rs line' forged) :
    (nonBlank (before ++ line' :: after)).map
      (parseSignedEventJson py c.verifier.maxRecordBytes true) =
        (rs.set (nonBlank before).length forged).map .ok := by
  have hset : nonBlank (before ++ line' :: after) =
      (nonBlank (before ++ line :: after)).set (nonBlank before).length (stripLine line') := by
    rw [nonBlank_replace h.record, nonBlank_replace (not_blank_of_parse h.parses')]
    simp
  rw [hset, List.map_set, List.map_set, h.parses, h.parses']

theorem Tampered.fresh (h : Tampered py c before line after rs line' forged) {j k : Nat}
    (hj : j < rs.length) (hk : k < rs.length) (hne : j ≠ k) :
    rs[j].eventHash ≠ rs[k].eventHash :=
  eventHash_ne (fun e he f hf => h.noCollision e (by simp [he]) f (by simp [hf])) h.wellFormed
    h.genuine.sound h.chain.sequence hj hk hne

/-- The forged record has another hash than the one it replaces. -/
theorem Tampered.hash_ne (h : Tampered py c before line after rs line' forged)
    (hi : (nonBlank before).length < rs.length) :
    computeEventHash py forged ≠ computeEventHash py rs[(nonBlank before).length] := by
  intro heq
  have hmem := List.getElem_mem hi
  have hseq : rs[(nonBlank before).length].sequence = forged.sequence := by
    rw [h.chain.sequence _ hi, h.sequence]
  obtain ⟨p, hp, hph⟩ := Json.bind_eq_ok.mp (h.genuine.sound _ hmem).hash
  obtain ⟨q, hq⟩ := SignedEvent.hashPayload_ok (wellFormed_of_parse h.parses').encodable
  have hqh : computeEventHash py forged = .ok (py.sha3_256 q) :=
    Json.bind_eq_ok.mpr ⟨q, hq, rfl⟩
  have hphash : computeEventHash py rs[(nonBlank before).length] = .ok (py.sha3_256 p) :=
    Json.bind_eq_ok.mpr ⟨p, hp, rfl⟩
  rw [hqh, hphash] at heq
  have hpq := h.noCollision _ (by simp) _ (by simp [hmem]) q p hq hp (Except.ok.inj heq)
  exact h.different _ hmem hseq (sameContent_of_hashPayload hp (hpq ▸ hq)
    (h.wellFormed _ hmem).distinct (wellFormed_of_parse h.parses').distinct)

/-- A record of the chain is linked to the one before it, as long as that one is genuine. -/
theorem Tampered.linked_iff (h : Tampered py c before line after rs line' forged) {j : Nat}
    (hj : j < rs.length) (hne : j ≠ (nonBlank before).length) :
    Linked py ((rs.set (nonBlank before).length forged).take j) rs[j] ↔
      j ≠ (nonBlank before).length + 1 := by
  have hi := h.lt_length
  cases j with
  | zero =>
      simp only [List.take_zero, Linked, List.getLast?_nil]
      have hnode := h.node _ (List.getElem_mem hj)
      rw [hnode]
      exact ⟨fun _ => by omega, fun _ => h.chain.genesis hj⟩
  | succ j =>
      have hlt : j < (rs.set (nonBlank before).length forged).length := by
        rw [List.length_set]
        omega
      have hlast := getLast?_take_succ hlt
      simp only [Linked, hlast]
      have hlink := h.chain.link j hj
      by_cases hji : (nonBlank before).length = j
      · subst hji
        rw [List.getElem_set_self]
        refine ⟨fun hf => ?_, fun hf => absurd rfl hf⟩
        exact absurd (hf.trans hlink.symm) (h.hash_ne hi)
      · rw [List.getElem_set_ne hji]
        exact ⟨fun _ => by omega, fun _ => hlink⟩

theorem Tampered.mem_set (h : Tampered py c before line after rs line' forged) :
    ∀ e ∈ rs.set (nonBlank before).length forged, e.nodeId = forged.nodeId ∧ (e ∈ rs ∨ e = forged) := by
  intro e he
  rcases List.mem_or_eq_of_mem_set he with he | rfl
  · exact ⟨h.node e he, .inl he⟩
  · exact ⟨rfl, .inr rfl⟩

/-- The verdicts on the stream with the forged line. -/
theorem Tampered.run (h : Tampered py c before line after rs line' forged)
    (hv : ∃ r, verifyEvent py c.verifier forged = .ok r) :
    ∃ s vs, (stream py c).run (fun _ => none) (nonBlank (before ++ line' :: after)) =
        .ok (s, vs) ∧ vs.length = rs.length ∧
      ∀ j (hj : j < (rs.set (nonBlank before).length forged).length) (hj' : j < vs.length),
        Judged py c.verifier ((rs.set (nonBlank before).length forged).take j)
          (rs.set (nonBlank before).length forged)[j] vs[j].2 := by
  have hkey : ∀ x ∈ nonBlank (before ++ line' :: after),
      (stream py c).key x = some forged.nodeId := by
    intro x hx
    have hmem := List.mem_map_of_mem (f := parseSignedEventJson py c.verifier.maxRecordBytes true) hx
    rw [h.parses_forged] at hmem
    obtain ⟨e, he, hparse⟩ := List.mem_map.mp hmem
    rw [← (h.mem_set e he).1]
    exact nodeOf_eq_some hparse.symm
  obtain ⟨t, vs, hrun, hlen, hall⟩ := @run_numbered _ _ _ _ none [] h.parses_forged
    (fun e he => by
      rcases (h.mem_set e he).2 with he | rfl
      · obtain ⟨r, hr, -⟩ := verifyEvent_of_sound (h.genuine.sound e he)
        exact ⟨r, hr⟩
      · exact hv)
    (cursor_start py) (by simpa using h.bound) (fun j hj => by
      by_cases hji : (nonBlank before).length = j
      · subst hji
        rw [List.getElem_set_self, h.sequence]
        simp
      · rw [List.getElem_set_ne hji, h.chain.sequence]
        simp)
  refine ⟨Function.update (fun _ => none) (some forged.nodeId) t, vs, ?_, by simpa using hlen, ?_⟩
  · rw [Keyed.run_eq_runOne _ hkey, hrun]
    rfl
  · simpa using hall

/-- The stream with the forged line keeps the damage local when no later record has the hash
that the forged record claims. -/
theorem Tampered.staysLocal_iff (h : Tampered py c before line after rs line' forged)
    {vs : List (Line × Verdict)} (hlen : vs.length = rs.length)
    (hall : ∀ j (hj : j < (rs.set (nonBlank before).length forged).length) (hj' : j < vs.length),
      Judged py c.verifier ((rs.set (nonBlank before).length forged).take j)
        (rs.set (nonBlank before).length forged)[j] vs[j].2) :
    StaysLocal (nonBlank before).length vs ↔
      ∀ j (hj : j < rs.length), (nonBlank before).length + 1 < j →
        rs[j].eventHash ≠ forged.eventHash := by
  have hi := h.lt_length
  have hjudged : ∀ j (hj : j < vs.length) (hj' : j < rs.length), j ≠ (nonBlank before).length →
      Judged py c.verifier ((rs.set (nonBlank before).length forged).take j) rs[j] vs[j].2 := by
    intro j hj hj' hne
    have := hall j (by rw [List.length_set]; exact hj') hj
    rwa [List.getElem_set_ne (Ne.symm hne)] at this
  constructor
  · intro hlocal j hj hlt heq
    have hacc := hlocal.others j (by omega) (by omega) (by omega)
    obtain ⟨-, -, hfresh⟩ := (hjudged j (by omega) hj (by omega)).accepted.mp hacc
    refine hfresh (List.mem_map.mpr ⟨forged, ?_, heq.symm⟩)
    rw [List.take_set]
    exact List.mem_set (by simp; omega) _
  · intro hhash
    constructor
    · intro hn
      have hj : (nonBlank before).length + 1 < rs.length := by omega
      have hjd := hjudged _ hn hj (by omega)
      have hnot := (not_congr (h.linked_iff hj (by omega))).mpr fun hf => hf rfl
      refine ⟨Bool.eq_false_iff.mpr fun hacc => hnot (hjd.accepted.mp hacc).2.1, hjd.mismatch hnot⟩
    · intro j hj hne hne'
      have hj' : j < rs.length := by omega
      refine (hjudged j hj hj' hne).accepted.mpr ⟨h.genuine.sound _ (List.getElem_mem hj'),
        (h.linked_iff hj' hne).mpr hne', ?_⟩
      intro hmem
      obtain ⟨e, he, heq⟩ := List.mem_map.mp hmem
      obtain ⟨k, hk, rfl⟩ := List.getElem_of_mem he
      simp only [List.length_take, List.length_set] at hk
      rw [List.getElem_take] at heq
      by_cases hki : (nonBlank before).length = k
      · subst hki
        rw [List.getElem_set_self] at heq
        exact hhash j hj' (by omega) heq.symm
      · rw [List.getElem_set_ne hki] at heq
        exact h.fresh (by omega) hj' (by omega) heq
    · intro v hv
      obtain ⟨j, hj, rfl⟩ := List.getElem_of_mem hv
      exact (hall j (by rw [List.length_set]; omega) hj).noGap

/-- Tampering with one record of a verified chain stays local exactly when the forged record
can be examined without an exception, and does not claim the hash of a record behind the
next one. -/
theorem tampering_stays_local_iff (py : Interp) (c : EvidenceCollector) (before : List Line)
    (line : Line) (after : List Line) (rs : List SignedEvent) (line' : Line)
    (forged : SignedEvent) (h : Tampered py c before line after rs line' forged) :
    (∃ report vs, verifyStream py c (before ++ line' :: after) = .ok report ∧
        verdicts py c (before ++ line' :: after) = .ok vs ∧ Summarises c report vs ∧
        StaysLocal (nonBlank before).length vs) ↔
      (∃ r, verifyEvent py c.verifier forged = .ok r) ∧
        ∀ j (hj : j < rs.length), (nonBlank before).length + 1 < j →
          rs[j].eventHash ≠ forged.eventHash := by
  constructor
  · rintro ⟨report, vs, hreport, hvs, -, hlocal⟩
    obtain ⟨s, ws, hrun, -, -⟩ := run_of_verifyStream hreport
    obtain rfl := Except.ok.inj ((verdicts_of_run hrun).symm.trans hvs)
    have hv : ∃ r, verifyEvent py c.verifier forged = .ok r := by
      have hmem : stripLine line' ∈ nonBlank (before ++ line' :: after) := by
        rw [nonBlank_replace (not_blank_of_parse h.parses')]
        simp
      obtain ⟨t, p, hstep⟩ := Keyed.step_of_run hrun _ hmem
      have hstep : judge py c t (stripLine line') = .ok p := hstep
      rw [judge_record h.parses'] at hstep
      obtain ⟨r, hr, -⟩ := Json.bind_eq_ok.mp hstep
      exact ⟨r, hr⟩
    obtain ⟨s', vs', hrun', hlen, hall⟩ := h.run hv
    obtain ⟨rfl, rfl⟩ := Prod.mk.inj (Except.ok.inj (hrun.symm.trans hrun'))
    exact ⟨hv, (h.staysLocal_iff hlen hall).mp hlocal⟩
  · rintro ⟨hv, hhash⟩
    obtain ⟨s, vs, hrun, hlen, hall⟩ := h.run hv
    obtain ⟨report, hreport⟩ := verifyStream_of_run hrun
    obtain ⟨s', vs', hrun', hsum, -⟩ := run_of_verifyStream hreport
    obtain ⟨rfl, rfl⟩ := Prod.mk.inj (Except.ok.inj (hrun.symm.trans hrun'))
    exact ⟨report, vs, hreport, verdicts_of_run hrun, hsum,
      (h.staysLocal_iff hlen hall).mpr hhash⟩

end

/-! ## A chain of three records -/

/-- The first record with another time, under a claimed hash. -/
def forgedLine (claimed : Str) : Line :=
  chainRecord (lit "1") (lit "2026-01-01T" ++ lit "00:00:09." ++ lit "000000Z") claimed
    chainGenesis

/-- The hash of the forged content. -/
def forgedHash : Str :=
  hashText 0x288f22c971ed8075c195d5220813d2f6a445d7ed0346a2a4104a068b974fbb1c

set_option maxRecDepth 100000 in
theorem forged_record (claimed : Str) (h : claimed = chainHash 2 ∨ claimed = chainGenesis) :
    (parseSignedEventJson .reference sampleCollector.verifier.maxRecordBytes true
      (stripLine (forgedLine claimed))).toOption.map (fun e =>
        ((e.nodeId, e.sequence, e.eventHash), decide (e.timestamp = chainTime),
          computeEventHash .reference e,
          (verifyEvent .reference sampleCollector.verifier e).toOption.isSome)) =
      some ((lit "n", 1, claimed), false, .ok forgedHash, true) := by
  rw [Interp.reference_eq_unrolled]
  rcases h with rfl | rfl
  · decide +kernel
  · decide +kernel

/-- The chain of three records with the first one forged under either hash. -/
theorem chain_tampered (claimed : Str) (h : claimed = chainHash 2 ∨ claimed = chainGenesis) :
    ∃ rs forged, Tampered .reference sampleCollector [] chainFirst chainRest rs
        (forgedLine claimed) forged ∧ rs.map SignedEvent.eventHash =
          [chainHash 0, chainHash 1, chainHash 2] ∧ forged.eventHash = claimed ∧
        ∃ r, verifyEvent .reference sampleCollector.verifier forged = .ok r := by
  obtain ⟨rs, hg, hmem, hhashes⟩ := chain_genuine
  obtain ⟨forged, hparse, hforged⟩ := eq_ok_of_toOption (forged_record claimed h)
  simp only [Prod.mk.injEq, decide_eq_false_iff_not] at hforged
  obtain ⟨⟨hnode, hseq, hclaim⟩, htime, hhash, hverify⟩ := hforged
  have hcompute : (forged :: rs).map (computeEventHash .reference) =
      [forgedHash, chainHash 0, chainHash 1, chainHash 2].map .ok := by
    rw [List.map_cons, hhash, List.map_cons, ← hhashes, List.map_map]
    exact congrArg _ (List.map_congr_left fun e he => (hg.sound e he).hash)
  refine ⟨rs, forged, ?_, hhashes, hclaim, ?_⟩
  · exact
      { verified := verifyStream_chain
        parses := hg.parses
        bound := by
          have := congrArg List.length hhashes
          simp only [List.length_map, List.length_cons, List.length_nil] at this
          rw [this]
          decide
        record := by decide +kernel
        parses' := hparse
        node := fun e he => (hmem e he).1.trans hnode.symm
        sequence := by
          rw [hseq]
          rfl
        different := fun e he _ hsame => htime (hsame.timestamp.symm.trans (hmem e he).2)
        noCollision := noCollision_of_hashes hcompute (by decide +kernel) }
  · cases hv : verifyEvent .reference sampleCollector.verifier forged with
    | error x =>
        rw [hv] at hverify
        cases hverify
    | ok r => exact ⟨r, rfl⟩

/-- A forged first record that claims the hash of the third makes the third a replay. -/
theorem tampering_spreads_to_claimed_hash :
    ∃ rs forged, Tampered .reference sampleCollector [] chainFirst chainRest rs
        (forgedLine (chainHash 2)) forged ∧
      ¬ ∃ report vs, verifyStream .reference sampleCollector
          ([] ++ forgedLine (chainHash 2) :: chainRest) = .ok report ∧
        verdicts .reference sampleCollector ([] ++ forgedLine (chainHash 2) :: chainRest) = .ok vs ∧
        Summarises sampleCollector report vs ∧ StaysLocal (nonBlank []).length vs := by
  obtain ⟨rs, forged, htampered, hhashes, hclaim, hverify⟩ := chain_tampered _ (.inl rfl)
  refine ⟨rs, forged, htampered, ?_⟩
  rintro ⟨report, vs, -, hvs, -, hlocal⟩
  obtain ⟨s, ws, hrun, hlen, hall⟩ := htampered.run hverify
  obtain rfl := Except.ok.inj ((verdicts_of_run hrun).symm.trans hvs)
  have hthree : rs.length = 3 := by simpa using congrArg List.length hhashes
  have hthird : rs[2].eventHash = chainHash 2 := by
    have := congrArg (fun l => l[2]?) hhashes
    simpa [hthree] using this
  exact (htampered.staysLocal_iff hlen hall).mp hlocal 2 (by omega) (by decide)
    (hthird.trans hclaim.symm)

/-- A forged first record that claims another hash leaves the third record verified. -/
theorem tampering_stays_local_chain :
    ∃ rs forged, Tampered .reference sampleCollector [] chainFirst chainRest rs
        (forgedLine chainGenesis) forged ∧
      ∃ report vs, verifyStream .reference sampleCollector
          ([] ++ forgedLine chainGenesis :: chainRest) = .ok report ∧
        verdicts .reference sampleCollector ([] ++ forgedLine chainGenesis :: chainRest) = .ok vs ∧
        Summarises sampleCollector report vs ∧ StaysLocal (nonBlank []).length vs := by
  obtain ⟨rs, forged, htampered, hhashes, hclaim, hverify⟩ := chain_tampered _ (.inr rfl)
  refine ⟨rs, forged, htampered, (tampering_stays_local_iff .reference sampleCollector [] chainFirst
    chainRest rs (forgedLine chainGenesis) forged htampered).mpr ⟨hverify, ?_⟩⟩
  intro j hj _ heq
  have hin : rs[j].eventHash ∈ rs.map SignedEvent.eventHash :=
    List.mem_map_of_mem (List.getElem_mem hj)
  rw [hhashes, heq, hclaim] at hin
  revert hin
  decide +kernel

end IcsDeception
