import IcsDeception.ArchiveRoundTrip

/-!
# The node and the key of a verified archive

The report on an archive compares the set of node identifiers that the scan found with the
node of the manifest. The key of the manifest is not compared with anything, and a record
without a text as its node does not enter the set.
-/

namespace IcsDeception

open Text Json Canonicalizer

namespace Archive

variable {py : Interp} {crypto : ArchiveCrypto} {backend : Backend}
  {registry : Option KeyRegistry} {file : ArchiveFile} {privateKey : Option Bytes}
  {maxArchiveBytes maxPlaintextBytes : Int}

/-! ## The nodes that a scan finds -/

theorem note_nodes (s : Scan) (record : List (Key × Value)) :
    (s.note record).nodes =
      match record.lookup (.str (lit "node_id")) with
      | some (.str node) => s.nodes.insert node
      | _ => s.nodes := by
  unfold Scan.note
  dsimp only
  split <;> split <;> split <;> split <;> simp_all

/-- A record that is noted adds its node, if that is a text. -/
theorem mem_note_nodes (s : Scan) (record : List (Key × Value)) (node : Str) :
    node ∈ (s.note record).nodes ↔
      node ∈ s.nodes ∨ record.lookup (.str (lit "node_id")) = some (.str node) := by
  rw [note_nodes]
  split
  · next found hl =>
      rw [List.mem_insert_iff, hl, Option.some.injEq, Value.str.injEq, or_comm, eq_comm]
  · next hl =>
      constructor
      · exact Or.inl
      · rintro (hmem | hnode)
        · exact hmem
        · exact (hl node hnode).elim

theorem mem_scanStep_nodes {strict : Bool} {s s' : Scan} {text : Str}
    (h : scanStep py strict s text = .ok s') (node : Str) :
    node ∈ s'.nodes ↔ node ∈ s.nodes ∨
      ∃ record ∈ objectsOf py [text], record.lookup (.str (lit "node_id")) = some (.str node) := by
  unfold scanStep at h
  dsimp only at h
  split at h
  · cases h
  · next e _ hl =>
      obtain rfl := Except.ok.inj h
      simp [objectsOf, hl, Scan.unparsable]
  · next record hl =>
      obtain rfl := Except.ok.inj h
      rw [mem_note_nodes]
      simp [objectsOf, hl]
  · next v hv hl =>
      obtain rfl := Except.ok.inj h
      have hnone : objectsOf py [text] = [] := by
        cases v <;> simp_all [objectsOf]
      simp [hnone, Scan.unparsable]

/-- The nodes of a scan are the texts that its objects have as their node. -/
theorem mem_scan_nodes {strict : Bool} {lines : List Str} {s s' : Scan}
    (h : lines.foldlM (scanStep py strict) s = .ok s') (node : Str) :
    node ∈ s'.nodes ↔ node ∈ s.nodes ∨
      ∃ record ∈ objectsOf py lines,
        record.lookup (.str (lit "node_id")) = some (.str node) := by
  induction lines generalizing s with
  | nil =>
      obtain rfl := Except.ok.inj h
      simp [objectsOf]
  | cons text rest ih =>
      rw [List.foldlM_cons] at h
      obtain ⟨s₁, hstep, h⟩ := bind_eq_ok.mp h
      have hobjects : objectsOf py (text :: rest) = objectsOf py [text] ++ objectsOf py rest := by
        rw [objectsOf, objectsOf, objectsOf, ← List.filterMap_append, List.singleton_append]
      rw [ih h, mem_scanStep_nodes hstep, hobjects, or_assoc]
      constructor
      · rintro (hmem | ⟨record, hr, hl⟩ | ⟨record, hr, hl⟩)
        · exact .inl hmem
        · exact .inr ⟨record, List.mem_append_left _ hr, hl⟩
        · exact .inr ⟨record, List.mem_append_right _ hr, hl⟩
      · rintro (hmem | ⟨record, hr, hl⟩)
        · exact .inl hmem
        · rcases List.mem_append.mp hr with hr | hr
          · exact .inr (.inl ⟨record, hr, hl⟩)
          · exact .inr (.inr ⟨record, hr, hl⟩)

/-! ## The flag -/

/-- The manifest describes what a scan finds in the plaintext, and the scan finds one node. -/
def NamesOneNode (py : Interp) (m : ArchiveManifest) (plaintext : Bytes) : Prop :=
  ∃ s node, scanEvidence py false plaintext = .ok s ∧ describes m s.summary = true ∧
    s.nodes = [node]

theorem nodes_of_describes {m : ArchiveManifest} {s : Scan} (h : describes m s.summary = true)
    {node : Str} (hs : s.summary.nodes = [node]) : m.nodeId = .str node := by
  simp only [describes, Bool.and_eq_true] at h
  have hnodes := h.1.1.1.1
  rw [hs] at hnodes
  simpa [isText_iff] using hnodes

/-- The node of the manifest is the one that the records name. -/
theorem NamesOneNode.node {m : ArchiveManifest} {plaintext : Bytes}
    (h : NamesOneNode py m plaintext) :
    ∃ node, m.nodeId = .str node ∧
      ∀ record ∈ objectsOf py (evidenceLines plaintext), ∀ found,
        record.lookup (.str (lit "node_id")) = some (.str found) → found = node := by
  obtain ⟨s, node, hscan, hdescribes, hs⟩ := h
  have hsummary : s.summary.nodes = [node] := by rw [Scan.summary, hs]; rfl
  refine ⟨node, nodes_of_describes hdescribes hsummary, fun record hr found hl => ?_⟩
  have hmem : found ∈ s.nodes := (mem_scan_nodes hscan found).mpr (.inr ⟨record, hr, hl⟩)
  rw [hs] at hmem
  exact List.mem_singleton.mp hmem

/-- The flag that the inspection of the evidence sets. -/
theorem nodeIdentity_inspectTrust (m : ArchiveManifest) (s : Scan) (found trust : ArchiveTrust) :
    (inspectTrust m s.summary found trust).nodeIdentityVerified = true ↔
      describes m s.summary = true ∧ ∃ node, s.nodes = [node] := by
  have hlength : s.summary.nodes.length = s.nodes.length :=
    (List.perm_insertionSort _ _).length_eq
  unfold inspectTrust
  dsimp only
  split_ifs with hdescribes
  · rw [Bool.and_eq_true, decide_eq_true_eq, hlength, List.length_eq_one_iff]
    constructor
    · rintro ⟨hone, -⟩
      exact ⟨hdescribes, hone⟩
    · rintro ⟨-, node, hs⟩
      have hsummary : s.summary.nodes = [node] := by rw [Scan.summary, hs]; rfl
      refine ⟨⟨node, hs⟩, ?_⟩
      rw [hsummary, List.all_cons, isText_iff.mpr (nodes_of_describes hdescribes hsummary)]
      rfl
  · exact ⟨fun h => h.elim, fun h => (hdescribes h.1).elim⟩

/-- Behind a scan, the inspection of the evidence raises no error of its own. -/
theorem summariseEvidence_passed {registry : KeyRegistry} {content : Bytes} {s : Scan}
    {e : ArchiveExn} (hscan : scanEvidence py false content = .ok s)
    (h : summariseEvidence py backend (some registry) false content content = .error e) :
    ∃ x, e = .passed x := by
  rcases bind_eq_error.mp h with h | ⟨⟨⟩, -, h⟩
  · cases h
  rcases bind_eq_error.mp h with h | ⟨s', -, h⟩
  · rw [hscan] at h
    cases h
  rcases bind_eq_error.mp h with h | ⟨report, -, h⟩
  · cases hreport : EvidenceCollector.verifyStream py (collectorOf registry backend)
        ((evidenceLines content).map .text) with
    | ok report =>
        rw [hreport] at h
        cases h
    | error x =>
        rw [hreport] at h
        exact ⟨x, (Except.error.inj h).symm⟩
  · cases h

theorem inspectArchive_identity {key : Bytes} {trust : ArchiveTrust}
    (h : inspectArchive py crypto backend registry file key maxArchiveBytes maxPlaintextBytes =
      .ok trust) :
    trust.nodeIdentityVerified = true ↔ registry.isSome = true ∧ ∃ m plaintext,
      decryptArchive py crypto file key maxArchiveBytes maxPlaintextBytes = .ok (m, plaintext) ∧
      NamesOneNode py m plaintext := by
  unfold inspectArchive at h
  split at h
  · next hdec =>
      obtain rfl := Except.ok.inj h
      simp [ArchiveTrust.start, ArchiveTrust.fail, hdec]
  · cases h
  · next m plaintext hdec =>
      dsimp only at h
      cases registry with
      | none =>
          obtain rfl := Except.ok.inj h
          simp [ArchiveTrust.start]
      | some registry =>
          have hopen : ∀ m' plaintext', decryptArchive py crypto file key maxArchiveBytes
              maxPlaintextBytes = .ok (m', plaintext') → m' = m ∧ plaintext' = plaintext := by
            intro m' plaintext' h'
            exact Prod.mk.inj (Except.ok.inj (h'.symm.trans hdec))
          dsimp only at h
          split at h
          · next code hsum =>
              obtain rfl := Except.ok.inj h
              constructor
              · intro hflag
                cases hflag
              · rintro ⟨-, m', plaintext', hdec', s, node, hscan, -⟩
                obtain ⟨rfl, rfl⟩ := hopen m' plaintext' hdec'
                obtain ⟨x, hx⟩ := summariseEvidence_passed hscan hsum
                cases hx
          · cases h
          · next summary found hsum =>
              obtain rfl := Except.ok.inj h
              obtain ⟨s, hscan, rfl⟩ := summariseEvidence_eq_ok hsum
              rw [nodeIdentity_inspectTrust]
              constructor
              · rintro ⟨hdescribes, node, hs⟩
                exact ⟨rfl, m, plaintext, hdec, s, node, hscan, hdescribes, hs⟩
              · rintro ⟨-, m', plaintext', hdec', s', node, hscan', hdescribes, hs⟩
                obtain ⟨rfl, rfl⟩ := hopen m' plaintext' hdec'
                obtain rfl := Except.ok.inj (hscan'.symm.trans hscan)
                exact ⟨hdescribes, node, hs⟩

/-- The manifest of a report is the one that the archive is decrypted under. -/
theorem verifyArchive_manifest {report : ArchiveReport}
    (h : verifyArchive py crypto backend registry file privateKey maxArchiveBytes
      maxPlaintextBytes = .ok report) {key plaintext : Bytes} {m : ArchiveManifest}
    (hdec : decryptArchive py crypto file key maxArchiveBytes maxPlaintextBytes =
      .ok (m, plaintext)) : report.manifest = some m := by
  obtain ⟨info, hread⟩ := decryptArchive_manifest hdec
  unfold verifyArchive at h
  rw [hread] at h
  cases privateKey with
  | none =>
      obtain rfl := Except.ok.inj h
      rfl
  | some key =>
      obtain ⟨trust, -, h⟩ := bind_eq_ok.mp h
      obtain rfl := Except.ok.inj h
      rfl

theorem same_str_right {v : Value} {s : Str} (h : Same v (.str s)) : v = .str s := by
  cases v <;> simp_all [Same]

/-- The flag of a report: the archive opens, and the manifest names the one node of the
evidence. -/
theorem verifyArchive_identity {report : ArchiveReport}
    (h : verifyArchive py crypto backend registry file privateKey maxArchiveBytes
      maxPlaintextBytes = .ok report) :
    report.trust.nodeIdentityVerified = true ↔ registry.isSome = true ∧ ∃ key m plaintext,
      privateKey = some key ∧ report.manifest = some m ∧
      decryptArchive py crypto file key maxArchiveBytes maxPlaintextBytes = .ok (m, plaintext) ∧
      NamesOneNode py m plaintext := by
  unfold verifyArchive at h
  split at h
  · obtain rfl := Except.ok.inj h
    simp [ArchiveTrust.start, ArchiveTrust.fail]
  · obtain rfl := Except.ok.inj h
    simp [ArchiveTrust.start, ArchiveTrust.fail]
  · obtain rfl := Except.ok.inj h
    simp [ArchiveTrust.start, ArchiveTrust.fail]
  · cases h
  · next m₀ info₀ hread =>
      cases privateKey with
      | none =>
          obtain rfl := Except.ok.inj h
          simp [ArchiveTrust.start]
      | some key =>
          obtain ⟨trust, htrust, h⟩ := bind_eq_ok.mp h
          obtain rfl := Except.ok.inj h
          rw [inspectArchive_identity htrust]
          constructor
          · rintro ⟨hreg, m, plaintext, hdec, hnames⟩
            obtain ⟨info, hmanifest⟩ := decryptArchive_manifest hdec
            obtain ⟨rfl, -⟩ := Prod.mk.inj (Except.ok.inj (hread.symm.trans hmanifest))
            exact ⟨hreg, key, m₀, plaintext, rfl, rfl, hdec, hnames⟩
          · rintro ⟨hreg, key', m, plaintext, hkey, -, hdec, hnames⟩
            obtain rfl := Option.some.inj hkey
            exact ⟨hreg, m, plaintext, hdec, hnames⟩

/-! ## Node and key -/

/-- A record has the node and the key of a manifest. -/
structure BelongsTo (m : ArchiveManifest) (record : List (Key × Value)) : Prop where
  node : ∃ v, record.lookup (.str (lit "node_id")) = some v ∧ Same v m.nodeId
  key : ∃ v, record.lookup (.str (lit "key_id")) = some v ∧ Same v m.keyId

/-- What the flag leaves open: records without a text as their node, and the key. -/
structure NodeTextAndKey (m : ArchiveManifest) (record : List (Key × Value)) : Prop where
  node : ∃ node, record.lookup (.str (lit "node_id")) = some (.str node)
  key : ∃ v, record.lookup (.str (lit "key_id")) = some v ∧ Same v m.keyId

/-- The flag means node and key exactly when, in an archive whose manifest names the one node
of its evidence, every record has a text as its node and the key of the manifest. -/
theorem node_identity_iff {report : ArchiveReport}
    (h : verifyArchive py crypto backend registry file privateKey maxArchiveBytes
      maxPlaintextBytes = .ok report) :
    (report.trust.nodeIdentityVerified = true → ∃ key m plaintext,
        privateKey = some key ∧ report.manifest = some m ∧
        decryptArchive py crypto file key maxArchiveBytes maxPlaintextBytes =
          .ok (m, plaintext) ∧
        ∀ record ∈ objectsOf py (evidenceLines plaintext), BelongsTo m record) ↔
      (registry.isSome = true → ∀ key m plaintext, privateKey = some key →
        decryptArchive py crypto file key maxArchiveBytes maxPlaintextBytes =
          .ok (m, plaintext) →
        NamesOneNode py m plaintext →
        ∀ record ∈ objectsOf py (evidenceLines plaintext), NodeTextAndKey m record) := by
  constructor
  · rintro hmeans hreg key m plaintext rfl hdec hnames record hr
    have hmanifest := verifyArchive_manifest h hdec
    obtain ⟨key', m', plaintext', hkey, -, hdec', hall⟩ := hmeans
      ((verifyArchive_identity h).mpr ⟨hreg, key, m, plaintext, rfl, hmanifest, hdec, hnames⟩)
    obtain rfl := Option.some.inj hkey
    obtain ⟨rfl, rfl⟩ := Prod.mk.inj (Except.ok.inj (hdec.symm.trans hdec'))
    obtain ⟨node, hnode, -⟩ := hnames.node
    obtain ⟨v, hv, hsame⟩ := (hall record hr).node
    obtain rfl := same_str_right (hnode ▸ hsame)
    exact ⟨⟨node, hv⟩, (hall record hr).key⟩
  · intro hrecords hflag
    obtain ⟨hreg, key, m, plaintext, rfl, hmanifest, hdec, hnames⟩ :=
      (verifyArchive_identity h).mp hflag
    refine ⟨key, m, plaintext, rfl, hmanifest, hdec, fun record hr => ?_⟩
    obtain ⟨⟨found, hfound⟩, hkey⟩ := hrecords hreg key m plaintext rfl hdec hnames record hr
    obtain ⟨node, hnode, hall⟩ := hnames.node
    obtain rfl := hall record hr found hfound
    exact ⟨⟨_, hfound, hnode⟩, hkey⟩

/-! ## The key of the manifest -/

set_option maxRecDepth 100000 in
/-- The records of the sample log have a text as their node, and the key `k`. -/
theorem objectsOf_sampleLog : (objectsOf .unrolled (evidenceLines sampleLog)).length = 2 ∧
    (objectsOf .unrolled (evidenceLines sampleLog)).all (fun record =>
      (record.lookup (.str (lit "node_id"))).any (isText · (lit "n")) &&
        (record.lookup (.str (lit "key_id"))).any (isText · (lit "k"))) = true := by
  decide +kernel

/-- The flag of the sample archive, whose manifest names the key of its two records, means node
and key. -/
theorem node_identity_same_key :
    ∃ report, verifyArchive .unrolled keyedCrypto keyBackend (some sampleRegistry)
        sampleLogArchive (some [9]) 5000 5000 = .ok report ∧
      report.trust.nodeIdentityVerified = true ∧
      ∃ key m plaintext, some [9] = some key ∧ report.manifest = some m ∧
        decryptArchive .unrolled keyedCrypto sampleLogArchive key 5000 5000 =
          .ok (m, plaintext) ∧
        (objectsOf .unrolled (evidenceLines plaintext)).length = 2 ∧
        ∀ record ∈ objectsOf .unrolled (evidenceLines plaintext), BelongsTo m record := by
  obtain ⟨hcheck, hopens⟩ := verifyArchive_sampleLog
  obtain ⟨report, hreport, hflags⟩ := eq_ok_of_toOption hcheck
  have hflag := (Bool.and_eq_true_iff.mp (Prod.mk.inj hflags).1).2
  obtain ⟨⟨m, plaintext⟩, hdec, hopened⟩ := eq_ok_of_toOption hopens
  obtain ⟨hkeyId, hplaintext⟩ := Prod.mk.inj hopened
  obtain rfl : plaintext = sampleLog := of_decide_eq_true hplaintext
  obtain ⟨htwo, hrecords⟩ := objectsOf_sampleLog
  have hmeans := (node_identity_iff hreport).mpr ?_ hflag
  · obtain ⟨key, m', plaintext', hkey, hmanifest, hdec', hall⟩ := hmeans
    obtain rfl := Option.some.inj hkey
    obtain ⟨rfl, rfl⟩ := Prod.mk.inj (Except.ok.inj (hdec.symm.trans hdec'))
    exact ⟨report, hreport, hflag, _, _, _, rfl, hmanifest, hdec, htwo, hall⟩
  · intro _ key m' plaintext' hkey hdec' _ record hr
    obtain rfl := Option.some.inj hkey
    obtain ⟨rfl, rfl⟩ := Prod.mk.inj (Except.ok.inj (hdec.symm.trans hdec'))
    obtain ⟨hnode, hkey⟩ := Bool.and_eq_true_iff.mp (List.all_eq_true.mp hrecords record hr)
    obtain ⟨v, hv, hnode⟩ := Option.any_eq_true _ _ |>.mp hnode
    obtain ⟨w, hw, hkey⟩ := Option.any_eq_true _ _ |>.mp hkey
    obtain rfl := isText_iff.mp hnode
    obtain rfl := isText_iff.mp hkey
    exact ⟨⟨_, hv⟩, _, hw, by rw [isText_iff.mp hkeyId]; rfl⟩

/-! ## A key that is not the manifest's -/

/-- An archive of the first record under another key. -/
def otherKeyArchive : ArchiveFile :=
  let sealing := createArchive .unrolled keyedCrypto keyBackend none sampleDraws
    { sampleRequest with nodeId := lit "n", keyId := lit "key-1" }
    ⟨firstLine.length, firstLine, firstLine, firstLine⟩
  ⟨2000, sealing.toOption.map fun p => p.1.entries⟩

set_option maxRecDepth 100000 in
/-- The manifest of the archive has the key `key-1`, its record the key `k`, and its flag is
true. -/
theorem verifyArchive_otherKey :
    (verifyArchive .unrolled keyedCrypto keyBackend (some sampleRegistry) otherKeyArchive
        (some [9]) 5000 5000).toOption.map (fun r => r.trust.nodeIdentityVerified) = some true ∧
    (decryptArchive .unrolled keyedCrypto otherKeyArchive [9] 5000 5000).toOption.map (fun p =>
        isText p.1.keyId (lit "key-1") &&
          (objectsOf .unrolled (evidenceLines p.2)).any fun record =>
            (record.lookup (.str (lit "key_id"))).any (isText · (lit "k"))) = some true := by
  refine ⟨?_, ?_⟩ <;> decide +kernel

/-- An archive whose manifest names another key than its record is fully verified. -/
theorem node_identity_other_key :
    ∃ report, verifyArchive .unrolled keyedCrypto keyBackend (some sampleRegistry)
        otherKeyArchive (some [9]) 5000 5000 = .ok report ∧
      report.trust.nodeIdentityVerified = true ∧
      ¬∃ key m plaintext, some [9] = some key ∧ report.manifest = some m ∧
        decryptArchive .unrolled keyedCrypto otherKeyArchive key 5000 5000 =
          .ok (m, plaintext) ∧
        ∀ record ∈ objectsOf .unrolled (evidenceLines plaintext), BelongsTo m record := by
  obtain ⟨hcheck, hopens⟩ := verifyArchive_otherKey
  obtain ⟨report, hreport, hflag⟩ := eq_ok_of_toOption hcheck
  obtain ⟨⟨m, plaintext⟩, hdec, hfound⟩ := eq_ok_of_toOption hopens
  simp only [Bool.and_eq_true, List.any_eq_true, Option.any_eq_true, isText_iff] at hfound
  obtain ⟨hother, record, hr, _, hk, rfl⟩ := hfound
  refine ⟨report, hreport, hflag, ?_⟩
  rintro ⟨key, m', plaintext', hkey, -, hdec', hall⟩
  obtain rfl := Option.some.inj hkey
  obtain ⟨rfl, rfl⟩ := Prod.mk.inj (Except.ok.inj (hdec.symm.trans hdec'))
  obtain ⟨v, hv, hsame⟩ := (hall record hr).key
  obtain rfl := same_str_right (hother ▸ hsame)
  rw [hk] at hv
  exact absurd (Value.str.inj (Option.some.inj hv)) (by decide)

end Archive

end IcsDeception
