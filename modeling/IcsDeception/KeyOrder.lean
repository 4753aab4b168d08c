import IcsDeception.KeyLifecycle

/-!
# The order of the keys of a node

The keys of a node are listed by the stored text of their activation, newest first, while
every check of a key reads that text as a moment. An import keeps the text as it was
written, with any offset from UTC that the reader of timestamps takes.
-/

namespace IcsDeception.KeyRegistry

open Text Json Calendar

variable {py : Interp}

/-- The activation of a record is not earlier than that of another one. -/
def NotEarlier (py : Interp) (r s : KeyRecord) : Prop :=
  ∃ i j, parseTime py r.activatedAt = .ok i ∧ parseTime py s.activatedAt = .ok j ∧
    j.micros ≤ i.micros

instance (r s : KeyRecord) : Decidable (NotEarlier py r s) :=
  match hr : parseTime py r.activatedAt, hs : parseTime py s.activatedAt with
  | .ok i, .ok j => decidable_of_iff (j.micros ≤ i.micros) (by
      constructor
      · intro h
        exact ⟨i, j, hr, hs, h⟩
      · rintro ⟨i', j', hi, hj, h⟩
        rw [Except.ok.inj (hr.symm.trans hi), Except.ok.inj (hs.symm.trans hj)]
        exact h)
  | .error e, _ => .isFalse fun ⟨i, _, hi, _⟩ => nomatch hr.symm.trans hi
  | .ok _, .error e => .isFalse fun ⟨_, j, _, hj, _⟩ => nomatch hs.symm.trans hj

/-- The newest key comes first: in the list of the keys of a node, and among the active ones. -/
structure NewestFirst (py : Interp) (reg : KeyRegistry) (nodeId : Str) : Prop where
  listed : (reg.forNode nodeId).Pairwise (NotEarlier py)
  active : ∀ s ∈ reg.records, s.nodeId = nodeId → s.state = .active →
    ∃ r, reg.activeKey nodeId = some r ∧ r.state = .active ∧ NotEarlier py r s

/-- Of two keys of the node, the one with the greater text is not activated earlier. -/
def TextsAgree (py : Interp) (reg : KeyRegistry) (nodeId : Str) : Prop :=
  ∀ r ∈ reg.records, ∀ s ∈ reg.records, r.nodeId = nodeId → s.nodeId = nodeId →
    s.activatedAt < r.activatedAt → NotEarlier py r s

instance (reg : KeyRegistry) (nodeId : Str) : Decidable (TextsAgree py reg nodeId) :=
  List.decidableBAll _ _

theorem notEarlier_of_text_eq {r s : KeyRecord} (hr : r.DatesRead py)
    (h : s.activatedAt = r.activatedAt) : NotEarlier py r s := by
  obtain ⟨i, hi⟩ := hr.1
  exact ⟨i, i, hi, h ▸ hi, le_refl _⟩

/-- The list of a node is ordered by text. -/
theorem forNode_pairwise (reg : KeyRegistry) (nodeId : Str) :
    (reg.forNode nodeId).Pairwise fun a b => b.activatedAt ≤ a.activatedAt := by
  have htotal : Std.Total fun a b : KeyRecord => b.activatedAt ≤ a.activatedAt :=
    ⟨fun a b => le_total _ _⟩
  have htrans : IsTrans KeyRecord fun a b => b.activatedAt ≤ a.activatedAt :=
    ⟨fun _ _ _ hab hbc => le_trans hbc hab⟩
  exact List.pairwise_insertionSort _ _

/-- What is found first in an ordered list is not earlier than what is found at all. -/
theorem find_notEarlier {p : KeyRecord → Bool} {rs : List KeyRecord}
    (hdates : ∀ r ∈ rs, r.DatesRead py) (h : rs.Pairwise (NotEarlier py)) {s : KeyRecord}
    (hs : s ∈ rs) (hp : p s = true) :
    ∃ r, rs.find? p = some r ∧ p r = true ∧ NotEarlier py r s := by
  induction rs with
  | nil => cases hs
  | cons r rest ih =>
      obtain ⟨hr, hrest⟩ := List.forall_mem_cons.mp hdates
      obtain ⟨hfirst, hpairs⟩ := List.pairwise_cons.mp h
      by_cases hpr : p r = true
      · refine ⟨r, List.find?_cons_of_pos hpr, hpr, ?_⟩
        rcases List.mem_cons.mp hs with rfl | hs
        · exact notEarlier_of_text_eq hr rfl
        · exact hfirst s hs
      · rw [List.find?_cons_of_neg hpr]
        rcases List.mem_cons.mp hs with rfl | hs
        · exact absurd hp hpr
        · exact ih hrest hpairs hs

/-- The newest key of a node comes first exactly if no key of the node with the greater text is
activated earlier than another one. -/
theorem newestFirst_iff {reg : KeyRegistry} (hreg : Built py reg) (nodeId : Str) :
    NewestFirst py reg nodeId ↔ TextsAgree py reg nodeId := by
  have hdates : ∀ r ∈ reg.records, r.DatesRead py := hreg.datesRead
  constructor
  · rintro ⟨hlisted, -⟩ r hr s hs hrnode hsnode hlt
    have hboth : ∀ {rs : List KeyRecord}, rs.Pairwise (NotEarlier py) →
        (rs.Pairwise fun a b => b.activatedAt ≤ a.activatedAt) → r ∈ rs → s ∈ rs →
        NotEarlier py r s := by
      intro rs hnew htext hr hs
      induction rs with
      | nil => cases hr
      | cons x rest ih =>
          obtain ⟨hnewx, hnew⟩ := List.pairwise_cons.mp hnew
          obtain ⟨htextx, htext⟩ := List.pairwise_cons.mp htext
          rcases List.mem_cons.mp hr with rfl | hr'
          · rcases List.mem_cons.mp hs with rfl | hs'
            · exact absurd hlt (lt_irrefl _)
            · exact hnewx s hs'
          · rcases List.mem_cons.mp hs with rfl | hs'
            · exact absurd hlt (not_lt.mpr (htextx r hr'))
            · exact ih hnew htext hr' hs'
    exact hboth hlisted (forNode_pairwise reg nodeId) (mem_forNode.mpr ⟨hr, hrnode⟩)
      (mem_forNode.mpr ⟨hs, hsnode⟩)
  · intro hagree
    have hlisted : (reg.forNode nodeId).Pairwise (NotEarlier py) := by
      apply (forNode_pairwise reg nodeId).imp_of_mem
      intro r s hr hs hle
      obtain ⟨hr, hrnode⟩ := mem_forNode.mp hr
      obtain ⟨hs, hsnode⟩ := mem_forNode.mp hs
      rcases hle.lt_or_eq with hlt | heq
      · exact hagree r hr s hs hrnode hsnode hlt
      · exact notEarlier_of_text_eq (hdates r hr) heq
    refine ⟨hlisted, ?_⟩
    intro s hs hnode hactive
    have hlist : ∀ r ∈ reg.forNode nodeId, r.DatesRead py :=
      fun r hr => hdates r (mem_forNode.mp hr).1
    obtain ⟨r, hfound, hstate, hle⟩ := find_notEarlier (p := fun r => decide (r.state = .active))
      hlist hlisted (mem_forNode.mpr ⟨hs, hnode⟩) (decide_eq_true hactive)
    exact ⟨r, hfound, of_decide_eq_true hstate, hle⟩

/-- An entry for an active key of node `n`, with the text of its activation. -/
def entryFrom (keyId publicKey activatedAt : Str) : Value :=
  Value.ofMembers
    [(lit "key_id", .str keyId), (lit "node_id", .str (lit "n")),
     (lit "algorithm", .str (lit "ML-DSA-65")), (lit "public_key", .str publicKey),
     (lit "created_at", .str (lit "2026-01-01T00:00:00.000000Z")),
     (lit "activated_at", .str activatedAt)]

/-- A key of ten o'clock at nine hours east of Greenwich, and one of five o'clock in Greenwich. -/
def offsetDocument : Value :=
  keysDocument
    [entryFrom (lit "a") (lit "AQ==") (lit "2026-01-01T10:00:00.000000+09:00"),
     entryFrom (lit "b") (lit "Ag==") (lit "2026-01-01T05:00:00.000000Z")]

/-- The same keys, both in Greenwich time. -/
def greenwichDocument : Value :=
  keysDocument
    [entryFrom (lit "a") (lit "AQ==") (lit "2026-01-01T01:00:00.000000Z"),
     entryFrom (lit "b") (lit "Ag==") (lit "2026-01-01T05:00:00.000000Z")]

/-- The records of a registry after an import into the empty one. -/
def imported (document : Value) : KeyRegistry := (importPublic .reference document false empty).2

theorem imported_built (document : Value) : Built .reference (imported document) :=
  .importPublic document false .empty

set_option maxRecDepth 100000 in
/-- Of two imported keys in Greenwich time, the newer comes first. -/
theorem greenwich_newestFirst : NewestFirst .reference (imported greenwichDocument) (lit "n") :=
  (newestFirst_iff (imported_built greenwichDocument) (lit "n")).mpr (by decide +kernel)

set_option maxRecDepth 100000 in
/-- Of two imported keys in different offsets, the older one may come first. -/
theorem offset_oldestFirst : ¬ ∀ reg : KeyRegistry, Built .reference reg → ∀ nodeId,
    NewestFirst .reference reg nodeId := by
  intro h
  have hfirst := (h _ (imported_built offsetDocument) (lit "n")).listed
  have hnot : ¬ ((imported offsetDocument).forNode (lit "n")).Pairwise (NotEarlier .reference) := by
    decide +kernel
  exact hnot hfirst

end IcsDeception.KeyRegistry
