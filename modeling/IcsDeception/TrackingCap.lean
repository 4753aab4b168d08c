import IcsDeception.Tampering

/-!
# The cap on remembered hashes

The collector remembers a bounded number of hashes for every node. Here the bound is a
parameter: the collector of the package is the one with `maxTrackedHashes`. On a
genuine chain that is longer than the bound, the first record past it is failed with an
alert of its own, so that the stream is reported invalid.
-/

namespace IcsDeception

open Text EventChain Models EvidenceVerifier EvidenceCollector

namespace EvidenceCollector

variable (py : Interp) (collector : EvidenceCollector) (cap : Nat)

/-- `verify_stream` with a cap. -/
def verifyStreamWithin (lines : List Line) : Except Exn StreamReport := do
  let (trackers, report) ← lines.foldlM (verifyStepWithin py collector cap) ([], .start)
  return { report with nodes := trackers.map fun p => (p.1, p.2.summary) }

end EvidenceCollector

/-- The package's collector is the one with the package's constant. -/
theorem verifyStreamWithin_max (py : Interp) (c : EvidenceCollector) :
    verifyStreamWithin py c maxTrackedHashes = verifyStream py c := rfl

/-! ## One record of a genuine chain -/

/-- A node's tracker after the given records of a genuine chain, with a cap. -/
structure TracksWithin (py : Interp) (cap : Nat) (t : NodeTracker) (rs : List SignedEvent) : Prop
    where
  tracks : Tracks py t rs
  count : t.seenHashes.length = min cap rs.length
  exhausted : t.trackingExhausted = decide (cap < rs.length)

theorem tracksWithin_start (py : Interp) (cap : Nat) : TracksWithin py cap .start [] where
  tracks := tracks_start py
  count := by simp [NodeTracker.start]
  exhausted := by simp [NodeTracker.start]

/-- The next record of a genuine chain was not seen before. -/
theorem Tracks.seenAlerts {py : Interp} {t : NodeTracker} {rs : List SignedEvent} {e : SignedEvent}
    (ht : Tracks py t rs) (hseq : e.sequence = rs.length + 1)
    (hfresh : e.eventHash ∉ rs.map SignedEvent.eventHash) :
    t.seenAlerts e = [] ∧ e.eventHash ∉ t.seenHashes := by
  have hnone : t.seenSequences.lookup e.sequence = none := by
    cases hl : t.seenSequences.lookup e.sequence with
    | none => rfl
    | some h =>
        have := ht.sequences _ _ hl
        omega
  have hnot : e.eventHash ∉ t.seenHashes := by
    intro hm
    obtain ⟨x, hx, hxe⟩ := ht.hashes _ hm
    exact hfresh (hxe ▸ List.mem_map_of_mem hx)
  refine ⟨?_, hnot⟩
  simp only [NodeTracker.seenAlerts, hnone]
  exact if_neg hnot

/-- The tracker after a record of a genuine chain. -/
def acceptWithin (cap : Nat) (t : NodeTracker) (e : SignedEvent) : NodeTracker :=
  { (t.noteWithin cap e).2 with position := ChainPosition.advance e e.eventHash }

/-- Only the first record past the cap raises an alert. -/
theorem TracksWithin.note {py : Interp} {cap : Nat} {t : NodeTracker} {rs : List SignedEvent}
    {e : SignedEvent} (ht : TracksWithin py cap t rs) (hseq : e.sequence = rs.length + 1)
    (hfresh : e.eventHash ∉ rs.map SignedEvent.eventHash) :
    (t.noteWithin cap e).1 = (if rs.length = cap then [.malformedEvidence] else []) ∧
      (t.noteWithin cap e).2.position = t.position ∧
      TracksWithin py cap (acceptWithin cap t e) (rs ++ [e]) := by
  obtain ⟨hseen, hnot⟩ := ht.tracks.seenAlerts hseq hfresh
  have hcount := ht.count
  have hlen : (rs ++ [e]).length = rs.length + 1 := by simp
  have hposition : ∀ t' : NodeTracker, { t' with position := ChainPosition.advance e e.eventHash
      }.position.lastSequence = ((rs ++ [e]).length : Int) := by
    intro t'
    rw [hlen]
    simpa [ChainPosition.advance] using hseq
  have hold : ∀ s h, t.seenSequences.lookup s = some h → s ≤ ((rs ++ [e]).length : Int) := by
    intro s h hs
    have := ht.tracks.sequences s h hs
    rw [hlen]
    omega
  have holdHashes : ∀ h ∈ t.seenHashes, ∃ x ∈ rs ++ [e], x.eventHash = h := by
    intro h hh
    obtain ⟨x, hx, hxe⟩ := ht.tracks.hashes h hh
    exact ⟨x, List.mem_append_left _ hx, hxe⟩
  unfold acceptWithin NodeTracker.noteWithin
  rw [hseen, ht.exhausted]
  by_cases hroom : t.seenHashes.length < cap
  · have hlt : rs.length < cap := by omega
    rw [if_pos hroom, if_neg (Nat.ne_of_lt hlt)]
    refine ⟨rfl, rfl, ⟨hposition _, by simp [ChainPosition.advance], ?_, ?_, ?_⟩, ?_, ?_⟩
    · intro s h hs
      by_cases hse : s = e.sequence
      · rw [hse, hseq, hlen]
        simp
      · dsimp only at hs
        rw [Dict.lookup_store_ne _ hse] at hs
        exact hold s h hs
    · intro h hh
      rcases List.mem_insert_iff.mp hh with rfl | hh
      · exact ⟨e, by simp, rfl⟩
      · exact holdHashes h hh
    · rw [List.length_insert_of_not_mem hnot, hlen]
      omega
    · rw [List.length_insert_of_not_mem hnot, hlen]
      omega
    · rw [hlen]
      dsimp only
      rw [decide_eq_decide]
      omega
  · have hle : cap ≤ rs.length := by omega
    have hkept : t.seenHashes.length = min cap (rs ++ [e]).length := by
      rw [hlen]
      omega
    rw [if_neg hroom]
    by_cases hpast : cap < rs.length
    · rw [if_pos (decide_eq_true hpast), if_neg (by omega)]
      refine ⟨rfl, rfl, ⟨hposition _, by simp [ChainPosition.advance], hold, holdHashes, ?_⟩,
        hkept, ?_⟩
      · rw [hlen]
        dsimp only
        omega
      · rw [hlen]
        dsimp only
        rw [ht.exhausted, decide_eq_decide]
        omega
    · rw [if_neg (by simpa using hpast), if_pos (by omega)]
      refine ⟨rfl, rfl, ⟨hposition _, by simp [ChainPosition.advance], hold, holdHashes, ?_⟩,
        hkept, ?_⟩
      · rw [hlen]
        dsimp only
        omega
      · rw [hlen]
        exact (decide_eq_true (by omega)).symm

/-- What the collector says of record number `i` of a genuine chain. -/
structure CapVerdict (cap i : Nat) (v : Line × Verdict) : Prop where
  accepted : v.2.accepted = decide (i ≠ cap)
  alert : i = cap → .malformedEvidence ∈ v.2.result.errors

/-- One line of the loop, on the next record of a genuine chain. -/
theorem verifyStepWithin_genuine {py : Interp} {c : EvidenceCollector} {cap : Nat}
    {st : StreamState} {raw : Line} {e : SignedEvent} {rs : List SignedEvent}
    (hparse : parseSignedEventJson py c.verifier.maxRecordBytes true (stripLine raw) = .ok e)
    (hblank : lineLength (stripLine raw) ≠ 0)
    (ht : TracksWithin py cap (trackerOf st.1 e.nodeId) rs)
    (hsound : ∀ x ∈ rs ++ [e], Sound py c.verifier x) (hchain : Chain py e.nodeId (rs ++ [e]))
    (hfresh : e.eventHash ∉ rs.map SignedEvent.eventHash) :
    ∃ trackers v, verifyStepWithin py c cap st raw =
        .ok (trackers, tally c st.2 (stripLine raw, v)) ∧
      TracksWithin py cap (trackerOf trackers e.nodeId) (rs ++ [e]) ∧
      CapVerdict cap rs.length (stripLine raw, v) := by
  obtain ⟨t, htracker⟩ : ∃ t, trackerOf st.1 e.nodeId = t := ⟨_, rfl⟩
  rw [htracker] at ht
  have hself : Sound py c.verifier e := hsound e (by simp)
  have hcont : Continues py t.position e := (chain_append (chain_of_append hchain) ht.tracks
    (fun x hx => (hsound x (by simp [hx])).hash) rfl).mp hchain
  have hseq : e.sequence = rs.length + 1 := by
    rw [hcont.sequence, ChainPosition.nextSequence, ht.tracks.sequence]
  obtain ⟨halerts, hposition, hnext⟩ := ht.note hseq hfresh
  obtain ⟨r, hr, hvalid⟩ := verifyEvent_of_sound hself
  obtain ⟨r₁, h₁⟩ := checkChain_ok py (wellFormed_of_parse hparse) t.position r
  have hr₁ : r₁.valid = true := (checkChain_valid h₁).mpr ⟨hvalid, hcont⟩
  have htrack : trackRecordWithin py cap st.1 e r =
      .ok (st.1.store e.nodeId (acceptWithin cap t e),
        (t.noteWithin cap e).1.foldl VerificationResult.addError r₁) := by
    have hnumber : e.sequence = (t.noteWithin cap e).2.position.nextSequence := by
      rw [hposition]
      exact hcont.sequence
    unfold trackRecordWithin
    rw [htracker]
    exact Json.bind_eq_ok.mpr ⟨r₁, h₁, (if_pos hnumber).trans
      (Json.bind_eq_ok.mpr ⟨_, hself.hash, rfl⟩)⟩
  obtain ⟨raw', -, -, hraw, hlen, -⟩ := parseSignedEventJson_eq_ok.mp hparse
  have hshort := lineLength_le_raw hraw
  have hline : verifyLine py c.verifier (stripLine raw) = .ok (r, some e) := by
    unfold verifyLine
    rw [hparse]
    exact Json.bind_eq_ok.mpr ⟨r, hr, rfl⟩
  refine ⟨st.1.store e.nodeId (acceptWithin cap t e),
    ⟨(t.noteWithin cap e).1.foldl VerificationResult.addError r₁, false⟩, ?_, ?_, ?_, ?_⟩
  · unfold verifyStepWithin
    dsimp only
    rw [if_neg hblank, if_neg (by omega)]
    exact Json.bind_eq_ok.mpr ⟨_, hline, Json.bind_eq_ok.mpr ⟨_, htrack, rfl⟩⟩
  · rw [trackerOf, Dict.lookup_store_self]
    exact hnext
  · rw [halerts, Bool.eq_iff_iff, decide_eq_true_iff]
    unfold Verdict.accepted
    simp only [Bool.not_false, Bool.true_and]
    rw [foldl_addError_valid]
    split_ifs with hcap
    · simp [hcap]
    · simp [hcap, hr₁]
  · intro hcap
    rw [halerts, if_pos hcap]
    exact mem_foldl_addError.mpr (.inr (by simp))

/-! ## The whole chain -/

/-- The verdicts on the records of a genuine chain, from record number `i` on. -/
inductive CapVerdicts (cap : Nat) : Nat → List (Line × Verdict) → Prop
  | nil (i : Nat) : CapVerdicts cap i []
  | cons {i : Nat} {v : Line × Verdict} {vs : List (Line × Verdict)} :
      CapVerdict cap i v → CapVerdicts cap (i + 1) vs → CapVerdicts cap i (v :: vs)

theorem CapVerdicts.get {cap i : Nat} {vs : List (Line × Verdict)} (h : CapVerdicts cap i vs)
    (k : Nat) (hk : k < vs.length) : CapVerdict cap (i + k) vs[k] := by
  induction h generalizing k with
  | nil i => exact absurd hk (Nat.not_lt_zero k)
  | @cons i v vs hv _ ih =>
      cases k with
      | zero => exact hv
      | succ k =>
          have hrest := ih k (by simpa using hk)
          rw [Nat.add_right_comm] at hrest
          exact hrest

/-- Exactly one record fails when the cap lies within the chain. -/
theorem CapVerdicts.failed {cap i : Nat} {vs : List (Line × Verdict)} (h : CapVerdicts cap i vs) :
    (vs.countP fun v => !v.2.accepted) = if i ≤ cap ∧ cap < i + vs.length then 1 else 0 := by
  induction h with
  | nil i =>
      rw [List.countP_nil, if_neg (by simp only [List.length_nil]; omega)]
  | @cons i v vs hv _ ih =>
      rw [List.countP_cons, ih, hv.accepted, List.length_cons]
      by_cases hi : i = cap
      · subst hi
        rw [if_neg (by omega), if_pos (by simp), if_pos (by omega)]
      · by_cases hin : i + 1 ≤ cap ∧ cap < i + 1 + vs.length
        · rw [if_pos hin, if_neg (by simp [hi]), if_pos (by omega)]
        · rw [if_neg hin, if_neg (by simp [hi]), if_neg (by omega)]

/-- The loop over a genuine chain of one node. -/
theorem verifyLoopWithin_genuine {py : Interp} {c : EvidenceCollector} {cap : Nat}
    {lines : List Line} (st : StreamState) (rs : List SignedEvent) {new : List SignedEvent}
    {node : Str} (ht : TracksWithin py cap (trackerOf st.1 node) rs)
    (hparse : (nonBlank lines).map (parseSignedEventJson py c.verifier.maxRecordBytes true) =
      new.map .ok) (hnode : ∀ e ∈ new, e.nodeId = node)
    (hsound : ∀ x ∈ rs ++ new, Sound py c.verifier x) (hchain : Chain py node (rs ++ new))
    (hdistinct : ((rs ++ new).map SignedEvent.eventHash).Nodup) :
    ∃ trackers vs, lines.foldlM (verifyStepWithin py c cap) st =
        .ok (trackers, vs.foldl (tally c) st.2) ∧
      vs.map Prod.fst = nonBlank lines ∧ CapVerdicts cap rs.length vs := by
  induction lines generalizing st rs new with
  | nil => exact ⟨st.1, [], rfl, rfl, .nil _⟩
  | cons raw rest ih =>
      rw [nonBlank_cons] at hparse ⊢
      split_ifs at hparse ⊢ with hblank
      · have hstep : verifyStepWithin py c cap st raw = .ok st := by
          unfold verifyStepWithin
          exact if_pos hblank
        obtain ⟨trackers, vs, hloop, hvs⟩ := ih st rs ht hparse hnode hsound hchain hdistinct
        refine ⟨trackers, vs, ?_, hvs⟩
        rw [List.foldlM_cons]
        exact Json.bind_eq_ok.mpr ⟨st, hstep, hloop⟩
      · cases new with
        | nil => simp at hparse
        | cons e more =>
            simp only [List.map_cons, List.cons.injEq] at hparse
            obtain rfl := hnode e (by simp)
            have hassoc : rs ++ e :: more = (rs ++ [e]) ++ more := by simp
            rw [hassoc] at hsound hchain hdistinct
            have hfresh : e.eventHash ∉ rs.map SignedEvent.eventHash := by
              rw [List.map_append, List.map_append, List.append_assoc] at hdistinct
              have hdisj := (List.nodup_append.mp hdistinct).2.2
              intro hm
              exact hdisj _ hm _ (by simp) rfl
            obtain ⟨trackers, v, hstep, hnext, hv⟩ := verifyStepWithin_genuine hparse.1 hblank ht
              (fun x hx => hsound x (List.mem_append_left _ hx)) (chain_of_append hchain) hfresh
            obtain ⟨trackers', vs, hloop, hfst, hvs⟩ := ih (trackers, tally c st.2 (stripLine raw, v))
              (rs ++ [e]) hnext hparse.2 (fun x hx => hnode x (by simp [hx])) hsound hchain
              hdistinct
            refine ⟨trackers', (stripLine raw, v) :: vs, ?_, ?_, .cons hv ?_⟩
            · rw [List.foldlM_cons]
              exact Json.bind_eq_ok.mpr ⟨_, hstep, hloop⟩
            · rw [List.map_cons, hfst]
            · simpa using hvs

section

variable {py : Interp} {c : EvidenceCollector} {cap : Nat} {lines : List Line}
  {rs : List SignedEvent} {node : Str}

/-- The report on a genuine chain of one node. -/
theorem verifyStreamWithin_genuine (hg : Genuine py c.verifier lines rs)
    (hnode : ∀ e ∈ rs, e.nodeId = node) (hdistinct : (rs.map SignedEvent.eventHash).Nodup) :
    ∃ report vs, verifyStreamWithin py c cap lines = .ok report ∧ Summarises c report vs ∧
      vs.map Prod.fst = nonBlank lines ∧ vs.length = rs.length ∧ CapVerdicts cap 0 vs := by
  have hall : ofNode node rs = rs := List.filter_eq_self.mpr fun e he => by simpa using hnode e he
  have hchain := hg.chain node
  rw [hall] at hchain
  obtain ⟨trackers, vs, hloop, hfst, hvs⟩ := verifyLoopWithin_genuine ([], .start) []
    (tracksWithin_start py cap) hg.parses hnode (by simpa using hg.sound) hchain hdistinct
  have hsum := (summarises_start c).foldl vs
  rw [List.nil_append] at hsum
  have hlen : vs.length = rs.length := by
    have h₁ := congrArg List.length hfst
    have h₂ := congrArg List.length hg.parses
    simp only [List.length_map] at h₁ h₂
    exact h₁.trans h₂
  exact ⟨_, vs, Json.bind_eq_ok.mpr ⟨_, hloop, rfl⟩, ⟨hsum.total, hsum.verified, hsum.failed,
    hsum.malformed, hsum.valid, hsum.alertCounts, hsum.results⟩, hfst, hlen, hvs⟩

/-- A cap within the chain makes the report invalid. -/
theorem CapVerdicts.invalid {vs : List (Line × Verdict)} {report : StreamReport}
    (h : CapVerdicts cap 0 vs) (hsum : Summarises c report vs) (hcap : cap < vs.length) :
    report.valid = false := by
  refine hsum.valid.trans (List.all_eq_false.mpr ⟨vs[cap], List.getElem_mem hcap, ?_⟩)
  rw [(h.get cap hcap).accepted]
  simp

end

/-- Whatever the cap, a genuine chain of one node that is longer is reported invalid: every
record is verified but the first one past the cap, which fails for the cap alone. -/
theorem tracking_cap_fails_genuine (py : Interp) (c : EvidenceCollector) (cap : Nat)
    (lines : List Line) (rs : List SignedEvent) (node : Str)
    (hg : Genuine py c.verifier lines rs) (hnode : ∀ e ∈ rs, e.nodeId = node)
    (hdistinct : (rs.map SignedEvent.eventHash).Nodup) (hlong : cap < rs.length) :
    ∃ report vs, verifyStreamWithin py c cap lines = .ok report ∧ Summarises c report vs ∧
      vs.map Prod.fst = nonBlank lines ∧
      (∀ i (h : i < vs.length), CapVerdict cap i vs[i]) ∧
      report.total = rs.length ∧ report.failed = 1 ∧ report.valid = false := by
  obtain ⟨report, vs, hreport, hsum, hfst, hlen, hvs⟩ :=
    @verifyStreamWithin_genuine _ _ cap _ _ _ hg hnode hdistinct
  rw [← hlen] at hlong
  refine ⟨report, vs, hreport, hsum, hfst, fun i h => ?_, hsum.total.trans hlen, ?_,
    hvs.invalid hsum hlong⟩
  · have hv := hvs.get i h
    rwa [Nat.zero_add] at hv
  · rw [hsum.failed, hvs.failed, Nat.zero_add]
    exact if_pos ⟨Nat.zero_le cap, hlong⟩

/-- The records of the genuine chain of three are of one node, and their hashes are distinct. -/
theorem chain_of_node : ∃ rs,
    Genuine .reference sampleCollector.verifier (chainFirst :: chainRest) rs ∧
      (∀ e ∈ rs, e.nodeId = lit "n") ∧ (rs.map SignedEvent.eventHash).Nodup ∧ rs.length = 3 := by
  obtain ⟨rs, hg, hfields, hhashes⟩ := chain_genuine
  refine ⟨rs, hg, fun e he => (hfields e he).1, ?_, by simpa using congrArg List.length hhashes⟩
  rw [hhashes]
  decide

/-- With room for two hashes, the genuine chain of three records is reported invalid. -/
theorem tracking_cap_rejects_chain : ∃ rs,
    Genuine .reference sampleCollector.verifier (chainFirst :: chainRest) rs ∧ 2 < rs.length ∧
      ¬ ∃ report, verifyStreamWithin .reference sampleCollector 2 (chainFirst :: chainRest) =
        .ok report ∧ report.valid = true := by
  obtain ⟨rs, hg, hnode, hdistinct, hlen⟩ := chain_of_node
  obtain ⟨report, vs, hreport, hsum, -, hvs, hcap⟩ :=
    @verifyStreamWithin_genuine .reference sampleCollector 2 _ rs _ hg hnode hdistinct
  refine ⟨rs, hg, by omega, ?_⟩
  rintro ⟨report', hreport', hvalid⟩
  obtain rfl := Except.ok.inj (hreport.symm.trans hreport')
  rw [hcap.invalid hsum (by omega)] at hvalid
  cases hvalid

/-- The genuine chain of three records has a report with one failed record. -/
theorem tracking_cap_fails_chain : ∃ report,
    verifyStreamWithin .reference sampleCollector 2 (chainFirst :: chainRest) = .ok report ∧
      report.total = 3 ∧ report.failed = 1 ∧ report.valid = false := by
  obtain ⟨rs, hg, hnode, hdistinct, hlen⟩ := chain_of_node
  obtain ⟨report, vs, hreport, -, -, -, htotal, hfailed, hvalid⟩ := tracking_cap_fails_genuine
    .reference sampleCollector 2 (chainFirst :: chainRest) rs (lit "n") hg hnode hdistinct
    (by omega)
  exact ⟨report, hreport, htotal.trans hlen, hfailed, hvalid⟩

end IcsDeception
