import IcsDeception.Lib.Json.Reread
import IcsDeception.Repair

/-!
# What the store writes and reads back

When a state that recovery or a repair writes is one that the store accepts when it is
opened next: the scan of the log and the journal hand over fields that only the reader of
the state file checks.
-/

namespace IcsDeception

open Text Json Calendar Method NodeState

namespace NodeState

theorem isDigest_joinSurrogates {s : Str} : IsDigest (joinSurrogates s) ↔ IsDigest s := by
  constructor
  · intro h
    have hascii : ∀ c ∈ joinSurrogates s, c.val < 0x80 := by
      intro c hc
      have hdigit := h.2 c hc
      simp only [isHexDigit, Bool.or_eq_true, Bool.and_eq_true, decide_eq_true_eq] at hdigit
      omega
    have hsame := unpaired_of_ascii hascii
    rw [Unpaired] at hsame
    rwa [hsame] at h
  · intro h
    have hscalar : Scalar s := by
      intro c hc
      have hdigit := h.2 c hc
      simp only [isHexDigit, isSurrogate, Bool.or_eq_true, Bool.and_eq_true, decide_eq_true_eq,
        Bool.and_eq_false_iff, decide_eq_false_iff_not] at hdigit ⊢
      omega
    rwa [joinSurrogates_of_scalar hscalar]

/-- What the reader asks of a state that the writer has put down. -/
structure Presentable (st : NodeState) : Prop where
  node : st.nodeId ≠ [] ∧ Unpaired st.nodeId
  key : ∃ k, st.keyId = .str k ∧ k ≠ []
  position : st.lastSequence = 0 ∧ st.lastEventHash = none ∨
    0 < st.lastSequence ∧ ∃ h, st.lastEventHash = some h ∧ IsDigest h

theorem joinSurrogates_eq_nil {s : Str} : joinSurrogates s = [] ↔ s = [] := by
  fun_cases joinSurrogates s <;> simp

theorem ensure_eq_ok {condition : Bool} {u : Unit} :
    ensure condition = .ok u ↔ condition = true := by
  cases condition <;> simp [ensure]

theorem identifier_eq_ok {v : Value} {s : Str} :
    identifier v = .ok s ↔ v = .str s ∧ s ≠ [] := by
  cases v with
  | str t =>
      simp only [identifier, Value.str.injEq]
      split_ifs with ht
      · simp [ht]
      · rw [Except.ok.injEq]
        exact ⟨fun h => ⟨h, h ▸ ht⟩, fun h => h.1⟩
  | _ => simp [identifier]

theorem position_eq_ok {v : Value} {i : Int} : position v = .ok i ↔ v = .int i ∧ 0 ≤ i := by
  cases v with
  | int n =>
      simp only [position, Value.int.injEq]
      split_ifs with hn
      · simp only [false_iff]
        omega
      · rw [Except.ok.injEq]
        omega
  | _ => simp [position]

theorem digest_eq_ok {v : Value} {hash : Option Str} : digest v = .ok hash ↔
    v = .null ∧ hash = none ∨ ∃ s, v = .str s ∧ IsDigest s ∧ hash = some s := by
  cases v with
  | null => simp [digest, eq_comm]
  | str s =>
      simp only [digest]
      split_ifs with hs
      · simp [hs, eq_comm]
      · simp [hs]
  | _ => simp [digest]

theorem reread_eq_str {st : Style} {v : Value} {s : Str} :
    reread st v = .str s ↔ ∃ k, v = .str k ∧ st.readBack k = s := by
  cases v with
  | str k => simp [reread]
  | dict kvs => simp [reread, Value.ofMembers]
  | _ => simp [reread]

/-- The fields of a state, read back, pass the checks of the reader exactly when the state is
presentable. -/
theorem fromDict_reread_iff {st : NodeState} {data : List (Key × Value)} {updatedAt : Str}
    (h : ∀ p ∈ st.toDict updatedAt,
      data.lookup (.str p.1) = some (reread Style.indented p.2)) :
    (∃ st', fromDict st.nodeId (.dict data) = .ok st') ↔ Presentable st := by
  have hversion : Style.indented.readBack formatVersion = formatVersion :=
    Style.readBack_eq_self fun _ => by decide
  simp only [toDict, List.forall_mem_cons, reread, hversion] at h
  obtain ⟨hn, hkid, hseq, hlast, hver, -⟩ := h
  have hfields : (required.all fun f => (data.lookup (.str f)).isSome) = true := by
    simp only [required, List.all_cons, List.all_nil, hn, hkid, hseq, hver, Option.isSome_some,
      Bool.and_true]
  have hjoin : ∀ t, Style.indented.readBack t = joinSurrogates t := fun t => if_pos rfl
  simp only [fromDict, hfields, Models.field, hn, hkid, hseq, hlast, hver, Option.getD_some,
    bind_eq_ok, ensure_eq_ok, identifier_eq_ok, position_eq_ok, digest_eq_ok, reread_eq_str,
    decide_eq_true_eq, hjoin]
  have hformat : formatVersion ≠ [] := by decide
  constructor
  · rintro ⟨-, -, -, node, ⟨hnode, hne⟩, -, rfl, _, ⟨⟨k, hk, rfl⟩, hkne⟩, i, ⟨hi, hpos⟩, hash,
      hhash, -, hsome, -, hnone, -⟩
    obtain rfl := Value.int.inj hi
    have hkey : k ≠ [] := fun hnil => hkne (joinSurrogates_eq_nil.mpr hnil)
    refine ⟨⟨hne, Value.str.inj hnode⟩, ⟨k, hk, hkey⟩, ?_⟩
    cases hl : st.lastEventHash with
    | none =>
        rcases hhash with ⟨-, rfl⟩ | ⟨s, ⟨h, hnull, -⟩, -⟩
        · exact .inl ⟨hsome.resolve_right Bool.false_ne_true, rfl⟩
        · rw [hl] at hnull
          cases hnull
    | some h =>
        rcases hhash with ⟨hnull, -⟩ | ⟨s, ⟨h', hstr, rfl⟩, hdigest, rfl⟩
        · rw [hl] at hnull
          cases hnull
        · rw [hl] at hstr
          obtain rfl := Value.str.inj hstr
          have hne₀ : st.lastSequence ≠ 0 := hnone.resolve_right Bool.false_ne_true
          exact .inr ⟨by omega, h, rfl, isDigest_joinSurrogates.mp hdigest⟩
  · rintro ⟨⟨hne, hunpaired⟩, ⟨k, hk, hkne⟩, hposition⟩
    have hkey : joinSurrogates k ≠ [] := fun hnil => hkne (joinSurrogates_eq_nil.mp hnil)
    rcases hposition with ⟨hz, hl⟩ | ⟨hpos, h, hl, hdigest⟩
    · refine ⟨_, (), trivial, st.nodeId, ⟨congrArg _ hunpaired, hne⟩, (), rfl, _,
        ⟨⟨k, hk, rfl⟩, hkey⟩, _, ⟨rfl, hz.ge⟩, none, .inl ⟨?_, rfl⟩, (), .inl hz, (), .inr rfl, _,
        ⟨rfl, hformat⟩, (), rfl, rfl⟩
      rw [hl]
      rfl
    · refine ⟨_, (), trivial, st.nodeId, ⟨congrArg _ hunpaired, hne⟩, (), rfl, _,
        ⟨⟨k, hk, rfl⟩, hkey⟩, _, ⟨rfl, hpos.le⟩, some (joinSurrogates h),
        .inr ⟨_, ⟨h, ?_, rfl⟩, ?_, rfl⟩, (), .inr rfl, (), .inl hpos.ne', _, ⟨rfl, hformat⟩, (),
        rfl, rfl⟩
      · rw [hl]
        rfl
      · exact isDigest_joinSurrogates.mpr hdigest

/-- A reader takes the file of a state exactly when the state is presentable. -/
theorem ofFile_fileBytes_iff {py : Interp} {st : NodeState} (hk : Legible st.keyId)
    {time : Instant} {b : Bytes} (hb : fileBytes py st time = .ok b) :
    (∃ st', ofFile py st.nodeId b = .ok st') ↔ Presentable st := by
  have hlegible : ∀ p ∈ st.toDict (time.text py.padYears ++ [cp 'Z']), Legible p.2 := by
    have hoptional : Legible (optionalText st.lastEventHash) := by
      cases st.lastEventHash <;> trivial
    simp only [toDict, List.forall_mem_cons]
    exact ⟨trivial, hk, trivial, hoptional, trivial, trivial, by simp⟩
  constructor
  · rintro ⟨st', h⟩
    obtain ⟨reading, hread, h⟩ := bind_eq_ok.mp h
    cases reading with
    | unreadable => cases h
    | value v =>
        obtain ⟨kvs, rfl, hfields⟩ := fields_of_readJson hk hb hread
        have hreread : ∀ p ∈ st.toDict (time.text py.padYears ++ [cp 'Z']),
            kvs.lookup (.str p.1) = some (reread Style.indented p.2) := by
          intro p hp
          obtain ⟨x, hx, hreads⟩ := hfields p hp
          obtain ⟨t, ht, -⟩ := id hreads
          rw [hx, hreads.unique (readsAs_reread Style.printed_indented _ _ _ (hlegible p hp) ht)]
        exact (fromDict_reread_iff hreread).mp ⟨st', h⟩
  · intro h
    obtain ⟨k, hkey, -⟩ := h.key
    obtain ⟨kvs, hread, hlookup⟩ := readJson_fileBytes hkey hb
    have hsame : ∀ p ∈ st.toDict (time.text py.padYears ++ [cp 'Z']),
        norm Style.indented p.2 = reread Style.indented p.2 := by
      have hoptional : norm Style.indented (optionalText st.lastEventHash) =
          reread Style.indented (optionalText st.lastEventHash) := by
        cases st.lastEventHash <;> rfl
      simp only [toDict, List.forall_mem_cons, hkey]
      exact ⟨rfl, rfl, rfl, hoptional, rfl, rfl, by simp⟩
    have hfields : ∀ p ∈ st.toDict (time.text py.padYears ++ [cp 'Z']),
        kvs.lookup (.str p.1) = some (reread Style.indented p.2) := by
      intro p hp
      rw [hlookup p hp, hsame p hp]
    obtain ⟨st', h'⟩ := (fromDict_reread_iff hfields).mpr h
    refine ⟨st', ?_⟩
    rw [ofFile, hread]
    exact h'

end NodeState

namespace EvidenceStore

open Disk

/-- A fresh store of the node finds a state on the disk. -/
def Readable (py : Interp) (nodeId : Str) (d : Disk) : Prop :=
  ∀ keyId, ∃ st, loadState py (create nodeId keyId) d = .ok st

/-- Wherever a method is interrupted, and at its end, a fresh store of the node finds a state. -/
def LeavesReadable (py : Interp) {α : Type} (m : StoreM α) (o : EvidenceStore) (d : Disk) : Prop :=
  ∀ t, (m o).Crashes (reliable py.fileLimit) d t → Readable py o.nodeId t

/-- A name of a node that is read back as it was written. -/
def Named (nodeId : Str) : Prop := nodeId ≠ [] ∧ Unpaired nodeId

section Writing

variable {py : Interp} {o : EvidenceStore} {d : Disk} {st : NodeState} {nodeId : Str}

theorem leavesReadable_iff {α : Type} {m : StoreM α} : LeavesReadable py m o d ↔
    m.Safe (reliable py.fileLimit) (Readable py o.nodeId) (fun _ _ _ => True) o d :=
  ⟨fun h => Prog.safe_of_crashes h, fun h _ ht => h.crashes ht⟩

/-- The file of a state that was written. -/
theorem readable_written (hk : Legible st.keyId) {time : Instant} {b : Bytes}
    (hb : fileBytes py st time = .ok b) (hd : d.state = some b) :
    Readable py st.nodeId d ↔ Presentable st := by
  have hfile : ∀ keyId, loadState py (create st.nodeId keyId) d = ofFile py st.nodeId b :=
    fun keyId => loadState_file st.nodeId keyId hd
  rw [← ofFile_fileBytes_iff hk hb]
  constructor
  · intro h
    obtain ⟨st', hst'⟩ := h []
    exact ⟨st', (hfile _).symm.trans hst'⟩
  · rintro ⟨st', hst'⟩ keyId
    exact ⟨st', (hfile keyId).trans hst'⟩

/-- A condition on the file that is written, where the file can be written. -/
theorem onWrite_readable {C : Bytes → Prop} (hk : Legible st.keyId)
    (hC : ∀ b, C b ↔ Readable py st.nodeId { d with state := some b }) :
    OnWrite py st (fun _ => True) C ↔ (Writable py st → Presentable st) := by
  constructor
  · intro h hwr
    obtain ⟨b, hb⟩ := fileBytes_ok hwr .first
    have hc := h .first
    rw [hb] at hc
    exact (readable_written (d := { d with state := some b }) hk hb rfl).mp ((hC b).mp hc)
  · intro h
    by_cases hwr : Writable py st
    · refine onWrite_of_writable hwr fun time b hb => (hC b).mpr ?_
      exact (readable_written (d := { d with state := some b }) hk hb rfl).mpr (h hwr)
    · exact onWrite_of_not_writable hwr fun _ => trivial

/-- A state of a node and a key with names, behind a record. -/
theorem presentable_iff {keyId eventHash : Str} {sequence : Int} (hkey : keyId ≠ [])
    (hpos : 0 < sequence) : Presentable ⟨nodeId, .str keyId, sequence, some eventHash⟩ ↔
      Named nodeId ∧ IsDigest eventHash := by
  constructor
  · rintro ⟨hnode, -, ⟨hz, -⟩ | ⟨-, h, hh, hdigest⟩⟩
    · exact absurd hz hpos.ne'
    · obtain rfl := Option.some.inj hh
      exact ⟨hnode, hdigest⟩
  · rintro ⟨hnode, hdigest⟩
    exact ⟨hnode, ⟨keyId, rfl, hkey⟩, .inr ⟨hpos, eventHash, rfl, hdigest⟩⟩

/-- The record at the end of the log, when it is adopted, has a hash that is one. -/
def AdoptsWell (py : Interp) (o : EvidenceStore) (d : Disk) (st : NodeState) : Prop :=
  st.lastSequence ≠ 0 → ∀ r, lastLogged py o.nodeId d = .ok (some r) →
    st.lastSequence < r.sequence → Named o.nodeId ∧ IsDigest r.eventHash

theorem legible_chooseKey_own (hkey : o.keyId ≠ []) {v : Value} (hv : Legible v) :
    Legible (chooseKey py v o.keyId st) := by
  rw [chooseKey, if_neg hkey]
  split_ifs
  · exact hv
  · trivial

theorem chooseKey_null (hkey : o.keyId ≠ []) : chooseKey py .null o.keyId st = .str o.keyId := by
  have hnull : ¬ py.truth .null = true := Bool.false_ne_true
  rw [chooseKey, if_neg hnull, if_neg hkey]

/-- The check of the state against the log. -/
theorem safe_check_readable_iff (hl : o.lockHeld = true) (hkey : o.keyId ≠ [])
    {report : RecoveryReport} (hs : loadState py o d = .ok st) (hpos : 0 ≤ st.lastSequence)
    (hd : Readable py o.nodeId d) :
    (checkStateAgainstLog py report).Safe (reliable py.fileLimit) (Readable py o.nodeId)
      (fun _ _ _ => True) o d ↔ AdoptsWell py o d st := by
  have hw := mild_reliable py.fileLimit
  have hr : ∀ b, Steady py.fileLimit (reliable py.fileLimit) (.replaceState b) :=
    fun b => steady_reliable _ _
  by_cases hz : st.lastSequence = 0
  · rw [safe_check_zero hw hl hs hz]
    exact ⟨fun _ hne => absurd hz hne, fun _ => ⟨hd, trivial⟩⟩
  by_cases hahead : ∃ r, lastLogged py o.nodeId d = .ok (some r) ∧ st.lastSequence < r.sequence
  · obtain ⟨r, hlast, hlt⟩ := hahead
    have hadopting : adopting py o st r =
        ⟨o.nodeId, .str o.keyId, r.sequence, some r.eventHash⟩ := by
      rw [adopting, chooseKey_null hkey]
    rw [safe_check_adopt hw hr hl hs hz hlast hlt, hadopting]
    simp only [and_true]
    have hlegible : Legible (.str o.keyId) := trivial
    rw [onWrite_readable (d := d) hlegible fun b => Iff.rfl, presentable_iff hkey (by omega)]
    have hwr : Writable py ⟨o.nodeId, .str o.keyId, r.sequence, some r.eventHash⟩ :=
      writable_provenBy (o := o) hlast
    constructor
    · rintro ⟨-, h⟩ - r' hlast' -
      obtain rfl := Option.some.inj (Except.ok.inj (hlast.symm.trans hlast'))
      exact h hwr
    · exact fun h => ⟨hd, fun _ => h hz r hlast hlt⟩
  · have hnot : AdoptsWell py o d st := fun _ r hlast hlt => absurd ⟨r, hlast, hlt⟩ hahead
    refine iff_of_true ?_ hnot
    by_cases hc : Covered py o.nodeId d st
    · obtain ⟨r, hlast, hle⟩ := hc.resolve_left hz
      have heq : st.lastSequence = r.sequence :=
        hle.lt_or_eq.resolve_left fun hlt => hahead ⟨r, hlast, hlt⟩
      rw [safe_check_equal hw hl hs hz hlast heq]
      exact ⟨hd, trivial⟩
    · exact safe_check_uncovered hw hl hs hc hd fun _ => trivial

/-- The record of a journal, when its transaction is completed, has a hash that is one, and its
key is a text if it counts as given. -/
def CompletesWell (py : Interp) (o : EvidenceStore) (d : Disk) (st : NodeState) : Prop :=
  ∀ b e line, d.journal = some b → readJournal py o.nodeId b = .ok (.entry e) →
    encoded e.line = .ok line → Written d e.offset line → st.lastSequence < e.sequence →
      Writable py (committed py o e st) →
        Named o.nodeId ∧ IsDigest e.eventHash ∧ (py.truth e.keyId = true → ∃ k, e.keyId = .str k)

theorem committed_presentable_iff {e : JournalEntry} (hkey : o.keyId ≠ [])
    (hpos : 0 < e.sequence) : Presentable (committed py o e st) ↔ Named o.nodeId ∧
      IsDigest e.eventHash ∧ (py.truth e.keyId = true → ∃ k, e.keyId = .str k) := by
  have hnamed : (∃ k, chooseKey py e.keyId o.keyId st = .str k ∧ k ≠ []) ↔
      (py.truth e.keyId = true → ∃ k, e.keyId = .str k) := by
    rw [chooseKey]
    split_ifs with htruth
    · constructor
      · rintro ⟨k, hk, -⟩ -
        exact ⟨k, hk⟩
      · intro h
        obtain ⟨k, hk⟩ := h htruth
        refine ⟨k, hk, fun hnil => ?_⟩
        rw [hk, hnil] at htruth
        exact Bool.false_ne_true htruth
    · exact iff_of_true ⟨o.keyId, rfl, hkey⟩ fun h => absurd h htruth
  constructor
  · rintro ⟨hnode, hk, ⟨hz, -⟩ | ⟨-, h, hh, hdigest⟩⟩
    · exact absurd hz hpos.ne'
    · obtain rfl := Option.some.inj hh
      exact ⟨hnode, hdigest, hnamed.mp hk⟩
  · rintro ⟨hnode, hdigest, hk⟩
    exact ⟨hnode, hnamed.mpr hk, .inr ⟨hpos, e.eventHash, rfl, hdigest⟩⟩

/-- Every record that recovery makes a state of has a hash that is one. -/
structure RecoversWell (py : Interp) (o : EvidenceStore) (d : Disk) (st : NodeState) : Prop where
  completes : CompletesWell py o d st
  adopts : ∀ st₁ d₁, Settles py py.fileLimit o d (.ok st₁) d₁ → AdoptsWell py o d₁ st₁

/-- A state that can be read is readable, whatever the key of the next store. -/
theorem readable_of_loadState (ho : o.state = none) (hs : loadState py o d = .ok st) :
    Readable py o.nodeId d := by
  intro keyId
  rw [loadState, ho] at hs
  cases hd : d.state with
  | none => exact ⟨zero o.nodeId keyId, by simp only [loadState, create, hd]⟩
  | some b =>
      rw [hd] at hs
      exact ⟨st, (loadState_file o.nodeId keyId hd).trans hs⟩

theorem nonneg_of_loadState (hknown : ∀ known, o.state = some known → 0 ≤ known.lastSequence)
    (hs : loadState py o d = .ok st) : 0 ≤ st.lastSequence := by
  cases ho : o.state with
  | none => exact (hash_of_loadState ho hs).1
  | some known =>
      rw [loadState, ho] at hs
      obtain rfl := Except.ok.inj hs
      exact hknown _ ho

/-- Where recovery leaves readable states, its records are such. -/
theorem recoversWell_of_safe (hl : o.lockHeld = true) (hkey : o.keyId ≠ [])
    (hs : loadState py o d = .ok st) (hpos : 0 ≤ st.lastSequence) (hd : Readable py o.nodeId d)
    (h : (recover py).Safe (reliable py.fileLimit) (Readable py o.nodeId) (fun _ _ _ => True) o d) :
    RecoversWell py o d st := by
  have hw := mild_reliable py.fileLimit
  have hr : ∀ b, Steady py.fileLimit (reliable py.fileLimit) (.replaceState b) :=
    fun b => steady_reliable _ _
  rw [safe_recover hl, safe_replayIfPresent hw] at h
  obtain ⟨-, -, h⟩ := h
  -- what is written when a transaction is completed, and what is checked then
  have hwritten : ∀ b e line, d.journal = some b → readJournal py o.nodeId b = .ok (.entry e) →
      encoded e.line = .ok line → Written d e.offset line → st.lastSequence < e.sequence →
        Writable py (committed py o e st) → Presentable (committed py o e st) ∧
          AdoptsWell py o { d with journal := none } (committed py o e st) := by
    intro b e line hb hj hx hin hlt hwr
    have hlegible : Legible (committed py o e st).keyId :=
      legible_chooseKey_own hkey (legible_of_readJournal hj)
    rw [hb] at h
    dsimp only at h
    rw [safe_replayJournal, hj] at h
    dsimp only at h
    rw [safe_settle_written hw hx hin, safe_completeCommit hw hr hl hs hlt] at h
    obtain ⟨c, hc⟩ := fileBytes_ok hwr .first
    have hfile := h.2.2 .first
    rw [hc] at hfile
    obtain ⟨hstate, hdropped, hcheck⟩ := hfile
    refine ⟨(readable_written hlegible hc rfl).mp hstate, ?_⟩
    exact (safe_check_readable_iff (o := { o with state := some (committed py o e st) })
      (d := { d with state := some c, journal := none }) hl hkey rfl (hpos.trans hlt.le)
      hdropped).mp hcheck
  refine ⟨fun b e line hb hj hx hin hlt hwr => ?_, fun st₁ d₁ hsettles => ?_⟩
  · exact (committed_presentable_iff hkey (hpos.trans_lt hlt)).mp
      (hwritten b e line hb hj hx hin hlt hwr).1
  · generalize hst₁ : Except.ok st₁ = r₁ at hsettles
    cases hsettles with
    | absent hb =>
        obtain rfl := Except.ok.inj (hst₁.trans hs)
        rw [hb] at h
        exact (safe_check_readable_iff hl hkey hs hpos hd).mp h
    | @discarded b j hb hj hn =>
        obtain rfl := Except.ok.inj (hst₁.trans hs)
        rw [hb] at h
        dsimp only at h
        rw [safe_replayJournal, hj] at h
        cases j with
        | entry e => exact absurd rfl (hn e)
        | _ =>
            dsimp only at h
            rw [safe_discardJournal hw] at h
            exact (safe_check_readable_iff (d := { d with journal := none }) hl hkey hs hpos hd).mp
              h.2.2.2
    | completed hb hj hx hin hs' hlt hwr =>
        obtain rfl := Except.ok.inj (hs'.symm.trans hs)
        obtain rfl := Except.ok.inj hst₁
        exact (hwritten _ _ _ hb hj hx hin hlt hwr).2
    | alreadyCommitted hb hj hx hin hs' hlt =>
        obtain rfl := Except.ok.inj (hs'.symm.trans hs)
        obtain rfl := Except.ok.inj hst₁
        rw [hb] at h
        dsimp only at h
        rw [safe_replayJournal, hj] at h
        dsimp only at h
        rw [safe_settle_written hw hx hin, safe_completeCommit_done hw hl hs hlt] at h
        exact (safe_check_readable_iff (o := o.knowing (.ok st₁))
          (d := { d with journal := none }) hl hkey rfl hpos hd).mp h.2.2.2
    | @undone b line e hb hj hx hin hc =>
        obtain rfl := Except.ok.inj (hst₁.trans hs)
        rw [hb] at h
        dsimp only at h
        rw [safe_replayJournal, hj] at h
        dsimp only at h
        rw [safe_settle_unwritten hw hx hin hc, safe_undoAppend hw hc] at h
        exact (safe_check_readable_iff (d := { truncated d e.offset with journal := none }) hl hkey
          hs hpos hd).mp h.2.2.2.2

/-- Where the records of recovery are such, it leaves readable states. -/
theorem safe_of_recoversWell (hl : o.lockHeld = true) (hkey : o.keyId ≠ [])
    (hs : loadState py o d = .ok st) (hpos : 0 ≤ st.lastSequence) (hd : Readable py o.nodeId d)
    (h : RecoversWell py o d st) :
    (recover py).Safe (reliable py.fileLimit) (Readable py o.nodeId) (fun _ _ _ => True) o d := by
  have hw := mild_reliable py.fileLimit
  have hr : ∀ b, Steady py.fileLimit (reliable py.fileLimit) (.replaceState b) :=
    fun b => steady_reliable _ _
  rw [safe_recover hl, safe_replayIfPresent hw]
  refine ⟨hd, hd, ?_⟩
  cases hb : d.journal with
  | none =>
      exact (safe_check_readable_iff hl hkey hs hpos hd).mpr (h.adopts _ _ (hs ▸ .absent hb))
  | some b =>
      dsimp only
      rw [safe_replayJournal]
      refine ⟨hd, ?_⟩
      cases hj : readJournal py o.nodeId b with
      | error ex => exact trivial
      | ok j =>
          -- a journal that is dropped leaves the state to the check
          have hdiscard : (∀ e, j ≠ .entry e) → ∀ action, (discardJournal action).Safe
              (reliable py.fileLimit) (Readable py o.nodeId) (Then (reliable py.fileLimit)
                (Readable py o.nodeId) (fun _ _ _ => True) (checkStateAgainstLog py)) o d := by
            intro hn action
            rw [safe_discardJournal hw]
            refine ⟨hd, hd, ?_⟩
            exact (safe_check_readable_iff (d := { d with journal := none }) hl hkey hs hpos hd).mpr
              (h.adopts _ _ (hs ▸ .discarded hb hj hn))
          cases j with
          | unreadable => exact hdiscard (by simp) _
          | «foreign» => exact hdiscard (by simp) _
          | entry e =>
              dsimp only
              cases hx : encoded e.line with
              | error ex =>
                  rw [safe_settle_unencodable hw hx]
                  exact ⟨hd, trivial⟩
              | ok line =>
                  by_cases hin : Written d e.offset line
                  · rw [safe_settle_written hw hx hin]
                    by_cases hlt : st.lastSequence < e.sequence
                    · rw [safe_completeCommit hw hr hl hs hlt]
                      refine ⟨hd, ?_⟩
                      by_cases hwr : Writable py (committed py o e st)
                      · refine onWrite_of_writable hwr fun time c hc => ?_
                        have hpresentable : Presentable (committed py o e st) :=
                          (committed_presentable_iff hkey (hpos.trans_lt hlt)).mpr
                            (h.completes b e line hb hj hx hin hlt hwr)
                        obtain ⟨k, hk, -⟩ := hpresentable.key
                        have hlegible : Legible (committed py o e st).keyId := hk ▸ trivial
                        have hfile : Readable py o.nodeId { d with state := some c } :=
                          (readable_written hlegible hc rfl).mpr hpresentable
                        have hadopts : AdoptsWell py o { d with journal := none }
                            (committed py o e st) :=
                          h.adopts _ _ (.completed hb hj hx hin hs hlt hwr)
                        refine ⟨hfile, hfile, ?_⟩
                        exact (safe_check_readable_iff
                          (o := { o with state := some (committed py o e st) })
                          (d := { d with state := some c, journal := none }) hl hkey rfl
                          (hpos.trans hlt.le) hfile).mpr hadopts
                      · exact onWrite_of_not_writable hwr fun _ => trivial
                    · rw [safe_completeCommit_done hw hl hs hlt]
                      refine ⟨hd, hd, ?_⟩
                      exact (safe_check_readable_iff (o := o.knowing (.ok st))
                        (d := { d with journal := none }) hl hkey rfl hpos hd).mpr
                          (h.adopts _ _ (.alreadyCommitted hb hj hx hin hs hlt))
                  · by_cases hc : CanTruncate py.fileLimit d e.offset
                    · rw [safe_settle_unwritten hw hx hin hc, safe_undoAppend hw hc]
                      refine ⟨hd, hd, hd, ?_⟩
                      have hsettles : Settles py py.fileLimit o d (.ok st)
                          { truncated d e.offset with journal := none } :=
                        hs ▸ .undone hb hj hx hin hc
                      exact (safe_check_readable_iff
                        (d := { truncated d e.offset with journal := none }) hl hkey hs hpos hd).mpr
                          (h.adopts _ _ hsettles)
                    · exact safe_settle_error hw hx hin hc hd fun _ => trivial

/-- The record that a repair makes a state of has a sequence and a hash that are such. -/
def ProvesWell (py : Interp) (o : EvidenceStore) (d : Disk) (st : NodeState) : Prop :=
  (∀ r, lastLogged py o.nodeId d = .ok (some r) →
    Named o.nodeId ∧ IsDigest r.eventHash ∧ 0 < r.sequence) ∧
  (lastLogged py o.nodeId d = .ok none → st.lastSequence = 0 → Named o.nodeId)

theorem provenBy_presentable_iff {r : Logged} (hkey : o.keyId ≠ []) :
    Presentable (provenBy o r) ↔ Named o.nodeId ∧ IsDigest r.eventHash ∧ 0 < r.sequence := by
  constructor
  · rintro ⟨hnode, -, ⟨-, hnone⟩ | ⟨hpos, h, hh, hdigest⟩⟩
    · cases hnone
    · obtain rfl := Option.some.inj hh
      exact ⟨hnode, hdigest, hpos⟩
  · rintro ⟨hnode, hdigest, hpos⟩
    exact ⟨hnode, ⟨o.keyId, rfl, hkey⟩, .inr ⟨hpos, r.eventHash, rfl, hdigest⟩⟩

/-- What a repair writes is readable exactly when its record is such. -/
theorem repair_readable_iff (hl : o.lockHeld = true) (hkey : o.keyId ≠ [])
    (hs : loadState py o d = .ok st) (hd : Readable py o.nodeId d) :
    LeavesReadable py (repairFromLog py) o d ↔ ProvesWell py o d st := by
  have hw := mild_reliable py.fileLimit
  have hr : ∀ b, Steady py.fileLimit (reliable py.fileLimit) (.replaceState b) :=
    fun b => steady_reliable _ _
  have hlegible : Legible (.str o.keyId) := trivial
  rw [leavesReadable_iff, ProvesWell]
  cases hlast : lastLogged py o.nodeId d with
  | error e =>
      rw [safe_repair_unreadable hw hl hlast]
      exact iff_of_true ⟨hd, trivial⟩ ⟨nofun, nofun⟩
  | ok last =>
      cases last with
      | some r =>
          rw [safe_repair_record hw hr hl hs hlast]
          simp only [and_true]
          have hwrite : (OnWrite py (provenBy o r) (fun _ => True) fun b =>
              Readable py o.nodeId { d with state := some b }) ↔
                (Writable py (provenBy o r) → Presentable (provenBy o r)) :=
            onWrite_readable hlegible fun _ => Iff.rfl
          have hwr : Writable py (provenBy o r) := writable_provenBy hlast
          rw [hwrite]
          constructor
          · rintro ⟨-, h⟩
            refine ⟨fun r' hr' => ?_, nofun⟩
            obtain rfl := Option.some.inj (Except.ok.inj hr')
            exact provenBy_presentable_iff hkey |>.mp (h hwr)
          · exact fun h => ⟨hd, fun _ => (provenBy_presentable_iff hkey).mpr (h.1 r rfl)⟩
      | none =>
          by_cases hz : st.lastSequence = 0
          · rw [safe_repair_empty hw hr hl hs hlast hz]
            simp only [and_true]
            have hwrite : (OnWrite py (zero o.nodeId o.keyId) (fun _ => True) fun b =>
                Readable py o.nodeId { d with state := some b }) ↔
                  (Writable py (zero o.nodeId o.keyId) → Presentable (zero o.nodeId o.keyId)) :=
              onWrite_readable hlegible fun _ => Iff.rfl
            have hwr : Writable py (zero o.nodeId o.keyId) := writable_zero o.nodeId o.keyId
            rw [hwrite]
            constructor
            · exact fun h => ⟨nofun, fun _ _ => (h.2 hwr).node⟩
            · intro h
              exact ⟨hd, fun _ => ⟨h.2 trivial hz, ⟨o.keyId, rfl, hkey⟩, .inl ⟨rfl, rfl⟩⟩⟩
          · rw [safe_repair_refused hw hl hs hlast hz]
            exact iff_of_true ⟨hd, trivial⟩ ⟨nofun, fun _ h => absurd h hz⟩

/-- A store leaves readable states, whatever the log and the journal, exactly when the records that
it makes states of are such: for a recovery the record of a journal that is completed and the one
at the end of the log that is adopted, for a repair the one that it goes by. -/
theorem writes_readable_iff (py : Interp) (o : EvidenceStore) (d : Disk) (st : NodeState)
    (hl : o.lockHeld = true) (hkey : o.keyId ≠ []) (hs : loadState py o d = .ok st)
    (hd : Readable py o.nodeId d)
    (hknown : ∀ known, o.state = some known → 0 ≤ known.lastSequence) :
    (LeavesReadable py (recover py) o d ↔ RecoversWell py o d st) ∧
    (LeavesReadable py (repairFromLog py) o d ↔ ProvesWell py o d st) := by
  have hpos : 0 ≤ st.lastSequence := nonneg_of_loadState hknown hs
  refine ⟨?_, repair_readable_iff hl hkey hs hd⟩
  rw [leavesReadable_iff]
  exact ⟨recoversWell_of_safe hl hkey hs hpos hd, safe_of_recoversWell hl hkey hs hpos hd⟩

/-- The state of node `n` at its first record, the journal of the second, which is in the log, and
a third record behind it. -/
def behindDisk : Disk :=
  ⟨some (sampleStateFile 1),
    some (sampleJournal firstLines 2 (recordLine "n" "2" (sampleHash 'a')) (sampleHash 'a')),
    some (Utf8.encodeAll (sampleLines ++ recordLine "n" "3" (sampleHash 'd') ++ [lf])), true⟩

/-- The hash and the key of a journal that is an entry and whose key is a text. -/
def entryNames : Except Exn Journal → Option (Str × Str)
  | .ok (.entry ⟨_, _, _, eventHash, .str keyId⟩) => some (eventHash, keyId)
  | _ => none

theorem names_of_entry {r : Except Exn Journal} {e : JournalEntry} {eventHash keyId : Str}
    (h : entryNames r = some (eventHash, keyId)) (he : r = .ok (.entry e)) :
    e.eventHash = eventHash ∧ e.keyId = .str keyId := by
  obtain ⟨sequence, offset, line, hash, key⟩ := e
  subst he
  cases key with
  | str k =>
      obtain ⟨hhash, hkey⟩ := Prod.ext_iff.mp (Option.some.inj h)
      exact ⟨hhash, congrArg Value.str hkey⟩
  | _ => cases h

theorem behindDisk_recoversWell {st : NodeState}
    (hlast : lastLogged .reference (lit "n") behindDisk = .ok (some ⟨3, sampleHash 'd'⟩)) :
    RecoversWell .reference (holding (lit "n") (lit "k")) behindDisk st := by
  have hnamed : Named (lit "n") := ⟨by decide, by decide⟩
  have hplace : entryPlace (readJournal .reference (lit "n")
      (sampleJournal firstLines 2 (recordLine "n" "2" (sampleHash 'a')) (sampleHash 'a'))) =
        some ((firstLines.length : Int), recordLine "n" "2" (sampleHash 'a') ++ [lf]) := by
    decide +kernel
  have hnames : entryNames (readJournal .reference (lit "n")
      (sampleJournal firstLines 2 (recordLine "n" "2" (sampleHash 'a')) (sampleHash 'a'))) =
        some (sampleHash 'a', lit "k") := by
    decide +kernel
  have hencoded : encoded (recordLine "n" "2" (sampleHash 'a') ++ [lf]) =
      .ok (Utf8.encodeAll (recordLine "n" "2" (sampleHash 'a') ++ [lf])) := by
    decide +kernel
  have hwritten : Written behindDisk firstLines.length
      (Utf8.encodeAll (recordLine "n" "2" (sampleHash 'a') ++ [lf])) := by
    decide +kernel
  constructor
  · intro b e line hb hj _ _ _ _
    obtain rfl := Option.some.inj hb
    obtain ⟨hhash, hkey⟩ := names_of_entry hnames hj
    refine ⟨hnamed, ?_, fun _ => ⟨_, hkey⟩⟩
    rw [hhash]
    decide
  · intro st₁ d₁ hsettles _ r hr _
    have hlog : d₁.log = behindDisk.log := hsettles.log_of_written rfl hplace hencoded hwritten
    rw [lastLogged_congr hlog] at hr
    obtain rfl := Option.some.inj (Except.ok.inj (hlast.symm.trans hr))
    exact ⟨hnamed, by decide⟩

/-- The commit of the second record is completed and the third is adopted, and each state that is
written on the way is readable. A repair goes by the third. -/
theorem writes_readable_behind :
    LeavesReadable .reference (recover .reference) (holding (lit "n") (lit "k")) behindDisk ∧
    LeavesReadable .reference (repairFromLog .reference) (holding (lit "n") (lit "k"))
      behindDisk := by
  obtain ⟨st, hfile, -⟩ := ofFile_first
  have hs : loadState .reference (holding (lit "n") (lit "k")) behindDisk = .ok st := hfile
  have hlast : lastLogged .reference (lit "n") behindDisk = .ok (some ⟨3, sampleHash 'd'⟩) := by
    decide +kernel
  obtain ⟨hrecover, hrepair⟩ := writes_readable_iff .reference _ _ st rfl (by decide) hs
    (readable_of_loadState rfl hs) (fun _ h => by cases h)
  refine ⟨hrecover.mpr (behindDisk_recoversWell hlast), hrepair.mpr ⟨?_, ?_⟩⟩
  · intro r hr
    obtain rfl := Option.some.inj (Except.ok.inj (hlast.symm.trans hr))
    exact ⟨⟨by decide, by decide⟩, by decide, by decide⟩
  · intro hr
    cases hlast.symm.trans hr

/-- A third record of node `n` whose hash is none. -/
def hashlessDisk : Disk :=
  ⟨some (sampleStateFile 2), none,
    some (Utf8.encodeAll (sampleLines ++ recordLine "n" "3" (lit "zz") ++ [lf])), true⟩

/-- A first record of node `n` with a negative sequence. -/
def negativeDisk : Disk :=
  ⟨none, none, some (Utf8.encodeAll (recordLine "n" "-1" (sampleHash 'a') ++ [lf])), true⟩

/-- Recovery adopts the one and a repair goes by the other, and no store opens on what they
write. -/
theorem writes_unreadable :
    ¬ LeavesReadable .reference (recover .reference) (holding (lit "n") (lit "k")) hashlessDisk ∧
    ¬ LeavesReadable .reference (repairFromLog .reference) (holding (lit "n") (lit "k"))
      negativeDisk := by
  constructor
  · intro h
    obtain ⟨st, hfile, hseq, -⟩ := ofFile_second
    have hs : loadState .reference (holding (lit "n") (lit "k")) hashlessDisk = .ok st := hfile
    have hlast : lastLogged .reference (lit "n") hashlessDisk = .ok (some ⟨3, lit "zz"⟩) := by
      decide +kernel
    have hwell := recoversWell_of_safe rfl (by decide) hs (by rw [hseq]; decide)
      (readable_of_loadState rfl hs) (leavesReadable_iff.mp h)
    have hsettles : Settles .reference Interp.reference.fileLimit (holding (lit "n") (lit "k"))
        hashlessDisk (.ok st) hashlessDisk := hs ▸ .absent rfl
    obtain ⟨-, hdigest⟩ := hwell.adopts _ _ hsettles (by rw [hseq]; decide) _ hlast
      (by rw [hseq]; decide)
    exact absurd hdigest (by decide)
  · intro h
    have hs : loadState .reference (holding (lit "n") (lit "k")) negativeDisk =
        .ok (zero (lit "n") (lit "k")) := rfl
    have hlast : lastLogged .reference (lit "n") negativeDisk =
        .ok (some ⟨-1, sampleHash 'a'⟩) := by
      decide +kernel
    obtain ⟨hrecord, -⟩ := (repair_readable_iff rfl (by decide) hs
      (readable_of_loadState rfl hs)).mp h
    obtain ⟨-, -, hpos⟩ := hrecord _ hlast
    exact absurd hpos (by decide)

end Writing

end EvidenceStore

end IcsDeception
