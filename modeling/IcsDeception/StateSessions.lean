import IcsDeception.StateFile

/-!
# Sessions of several state stores

`StateStore` objects of one node and one file, each with the state that it remembers. The
lock keeps their sessions apart, but `release` leaves the remembered state in the object, and
`commit` is checked against it. So the sequences that are committed increase by one as long as
no object commits on a state that another object has replaced since.

## Implementation notes

The state file is replaced as a whole or not at all. A read or a write may fail; what stands
after `os.replace` in `write` raises nothing. Messages are left out. That another object has
committed since a state was remembered is history, and no object knows it.
-/

namespace IcsDeception.StateStore

open Text Json Calendar NodeState

/-! ## The source -/

/-- `MAX_STATE_BYTES`. -/
def maxStateBytes : Nat := 64 * 1024

/-- Why a call raises. -/
inductive Failure
  | notLocked
  | backwards
  | gap
  | io
  | exn (e : Exn)
  deriving DecidableEq

/-- The fields of a `StateStore` that its calls use besides the lock: `key_id` and `_state`. -/
structure Store where
  keyId : Str
  state : Option NodeState

/-- The arguments of `commit`, the time, and whether its reading and its writing fail. -/
structure Commit where
  sequence : Int
  eventHash : Str
  keyId : Option Str
  time : Instant
  readFails : Bool
  writeFails : Bool

/-- The state that `read` finds, behind `_require_lock`. -/
def found (py : Interp) (nodeId keyId : Str) (fails : Bool) :
    Option Bytes → Except Failure NodeState
  | none => .ok (.zero nodeId keyId)
  | some b =>
      if fails then .error .io
      else if maxStateBytes < b.length then .error (.exn .stateCorruption)
      else (ofFile py nodeId b).mapError .exn

/-- `StateStore.read`, behind `_require_lock`. -/
def Store.read (py : Interp) (nodeId : Str) (fails : Bool) (file : Option Bytes) (o : Store) :
    Except Failure NodeState × Store :=
  match found py nodeId o.keyId fails file with
  | .ok st => (.ok st, { o with state := some st })
  | .error e => (.error e, o)

/-- `key_id or self.key_id or state.key_id`. -/
def Store.chooseKey (o : Store) (keyId : Option Str) (st : NodeState) : Value :=
  if keyId.getD [] ≠ [] then .str (keyId.getD [])
  else if o.keyId ≠ [] then .str o.keyId
  else st.keyId

/-- The state that `commit` puts together. -/
def Store.updated (o : Store) (nodeId : Str) (st : NodeState) (c : Commit) : NodeState where
  nodeId := if st.nodeId ≠ [] then st.nodeId else nodeId
  keyId := o.chooseKey c.keyId st
  lastSequence := c.sequence
  lastEventHash := some c.eventHash

/-- `StateStore.write`: the bytes of the file, unless it raises. -/
def write (py : Interp) (c : Commit) (st : NodeState) : Except Failure Bytes :=
  if c.writeFails then .error .io else (fileBytes py st c.time).mapError .exn

/-- `commit` behind the state that it starts from. -/
def Store.commitOn (py : Interp) (nodeId : Str) (c : Commit) (o : Store) (st : NodeState) :
    Except Failure (NodeState × Bytes) :=
  if c.sequence ≤ st.lastSequence then .error .backwards
  else if c.sequence ≠ st.lastSequence + 1 then .error .gap
  else (write py c (o.updated nodeId st c)).map fun b => (o.updated nodeId st c, b)

/-- The state that `commit` starts from: the remembered one, or the one that it reads. -/
def Store.start (py : Interp) (nodeId : Str) (fails : Bool) (file : Option Bytes) (o : Store) :
    Except Failure NodeState × Store :=
  match o.state with
  | some st => (.ok st, o)
  | none => o.read py nodeId fails file

/-- `StateStore.commit`, behind `_require_lock`: the state and the bytes it has written, and
the object. -/
def Store.commit (py : Interp) (nodeId : Str) (c : Commit) (file : Option Bytes) (o : Store) :
    Except Failure (NodeState × Bytes) × Store :=
  match o.start py nodeId c.readFails file with
  | (.error e, o) => (.error e, o)
  | (.ok st, o) =>
      match o.commitOn py nodeId c st with
      | .error e => (.error e, o)
      | .ok (updated, b) => (.ok (updated, b), { o with state := some updated })

/-! ## Sessions -/

/-- A call on one of the objects. -/
inductive Call
  /-- `acquire`, which waits for the lock or gives up. -/
  | enter (i : Nat)
  /-- `release`. -/
  | leave (i : Nat)
  | read (i : Nat) (fails : Bool)
  | commit (i : Nat) (c : Commit)

/-- The file, the objects, who holds the lock, the sequences of the successful commits in order,
and the objects that remember a state from before the commit of another object. -/
structure System where
  file : Option Bytes
  stores : Nat → Store
  holder : Option Nat
  committed : List Int
  overtaken : Nat → Bool

/-- Objects that have just been made, with the keys they were given. -/
def System.fresh (file : Option Bytes) (keyIds : Nat → Str) : System where
  file := file
  stores i := ⟨keyIds i, none⟩
  holder := none
  committed := []
  overtaken _ := false

/-- An object after one of its calls. -/
def System.store (s : System) (i : Nat) (o : Store) : System :=
  { s with stores := Function.update s.stores i o }

/-- The object is up to date. -/
def System.refresh (s : System) (i : Nat) : System :=
  { s with overtaken := Function.update s.overtaken i false }

/-- A commit of an object: every other object that remembers a state is overtaken. -/
def System.record (s : System) (i : Nat) (sequence : Int) (b : Bytes) : System :=
  { s with
    file := some b
    committed := s.committed ++ [sequence]
    overtaken := fun j => decide (j ≠ i) && (s.stores j).state.isSome }

/-- The system after a call. -/
def System.call (py : Interp) (nodeId : Str) (s : System) : Call → System
  | .enter i => if s.holder = none then { s with holder := some i } else s
  | .leave i => if s.holder = some i then { s with holder := none } else s
  | .read i fails =>
      if s.holder = some i then
        match (s.stores i).read py nodeId fails s.file with
        | (.ok _, o) => (s.store i o).refresh i
        | (.error _, o) => s.store i o
      else s
  | .commit i c =>
      if s.holder = some i then
        match (s.stores i).commit py nodeId c s.file with
        | (.ok (st, b), o) => (s.store i o).record i st.lastSequence b
        | (.error _, o) => s.store i o
      else s

/-- The system after calls in order. -/
def System.run (py : Interp) (nodeId : Str) (s : System) (calls : List Call) : System :=
  calls.foldl (System.call py nodeId) s

/-- Each sequence is one more than the one before. -/
def Ordered (sequences : List Int) : Prop := sequences.IsChain fun a b => b = a + 1

instance (sequences : List Int) : Decidable (Ordered sequences) :=
  inferInstanceAs (Decidable (sequences.IsChain fun a b => b = a + 1))

/-- The call commits on a state that another object has replaced since it was remembered: the
next sequence after that state, which can be written. -/
def System.CommitsOvertaken (py : Interp) (nodeId : Str) (s : System) : Call → Prop
  | .commit i c =>
      s.holder = some i ∧ s.overtaken i = true ∧
        ∃ st, (s.stores i).state = some st ∧ c.sequence = st.lastSequence + 1 ∧
          c.writeFails = false ∧ Writable py ((s.stores i).updated nodeId st c)
  | _ => False

/-! ## What the calls do -/

section Calls

variable {py : Interp} {nodeId : Str}

theorem keyId_of_fromDict {v : Value} {st : NodeState} (h : fromDict nodeId v = .ok st) :
    ∃ k, st.keyId = .str k := by
  cases v with
  | dict data =>
      rw [fromDict] at h
      obtain ⟨-, -, h⟩ := bind_eq_ok.mp h
      obtain ⟨node, -, h⟩ := bind_eq_ok.mp h
      obtain ⟨-, -, h⟩ := bind_eq_ok.mp h
      obtain ⟨key, -, h⟩ := bind_eq_ok.mp h
      obtain ⟨seq, -, h⟩ := bind_eq_ok.mp h
      obtain ⟨hash, -, h⟩ := bind_eq_ok.mp h
      obtain ⟨-, -, h⟩ := bind_eq_ok.mp h
      obtain ⟨-, -, h⟩ := bind_eq_ok.mp h
      obtain ⟨version, -, h⟩ := bind_eq_ok.mp h
      obtain ⟨-, -, h⟩ := bind_eq_ok.mp h
      obtain rfl := Except.ok.inj h
      exact ⟨key, rfl⟩
  | _ => cases h

/-- What is found in a file. -/
theorem found_some {keyId : Str} {fails : Bool} {b : Bytes} {st : NodeState}
    (h : found py nodeId keyId fails (some b) = .ok st) : ofFile py nodeId b = .ok st := by
  unfold found at h
  dsimp only at h
  split_ifs at h
  cases hof : ofFile py nodeId b with
  | ok st' =>
      rw [hof] at h
      exact congrArg Except.ok (Except.ok.inj h)
  | error e =>
      rw [hof] at h
      cases h

theorem legible_of_found {keyId : Str} {fails : Bool} {file : Option Bytes} {st : NodeState}
    (h : found py nodeId keyId fails file = .ok st) : Legible st.keyId := by
  cases file with
  | none =>
      obtain rfl := Except.ok.inj h
      trivial
  | some b =>
      obtain ⟨reading, -, hof⟩ := bind_eq_ok.mp (found_some h)
      cases reading with
      | unreadable => cases hof
      | value v =>
          obtain ⟨k, hk⟩ := keyId_of_fromDict hof
          rw [hk]
          trivial

/-- Two objects find the same position in a file. -/
theorem found_unique {keyId keyId' : Str} {fails fails' : Bool} {file : Option Bytes}
    {st st' : NodeState} (h : found py nodeId keyId fails file = .ok st)
    (h' : found py nodeId keyId' fails' file = .ok st') : st.lastSequence = st'.lastSequence := by
  cases file with
  | none =>
      obtain rfl := Except.ok.inj h
      obtain rfl := Except.ok.inj h'
      rfl
  | some b =>
      have hsame := (found_some h).symm.trans (found_some h')
      exact congrArg NodeState.lastSequence (Except.ok.inj hsame)

/-- `read` remembers what it finds, or changes nothing. -/
theorem read_cases (fails : Bool) (file : Option Bytes) (o : Store) :
    (∃ st, found py nodeId o.keyId fails file = .ok st ∧
      o.read py nodeId fails file = (.ok st, { o with state := some st })) ∨
    ∃ e, o.read py nodeId fails file = (.error e, o) := by
  unfold Store.read
  cases found py nodeId o.keyId fails file with
  | ok st => exact .inl ⟨st, rfl, rfl⟩
  | error e => exact .inr ⟨e, rfl⟩

/-- The state that an object starts a commit from. -/
def Store.StartsFrom (py : Interp) (nodeId : Str) (fails : Bool) (file : Option Bytes) (o : Store)
    (st : NodeState) : Prop :=
  o.state = some st ∨ o.state = none ∧ found py nodeId o.keyId fails file = .ok st

/-- `commit` writes the state behind the one it starts from, or it writes nothing. -/
theorem commit_cases (c : Commit) (file : Option Bytes) (o : Store) :
    (∃ st b, o.StartsFrom py nodeId c.readFails file st ∧ c.sequence = st.lastSequence + 1 ∧
      c.writeFails = false ∧ fileBytes py (o.updated nodeId st c) c.time = .ok b ∧
      o.commit py nodeId c file = (.ok (o.updated nodeId st c, b),
        { o with state := some (o.updated nodeId st c) })) ∨
    ∃ e o', o.commit py nodeId c file = (.error e, o') ∧
      (o' = o ∨ o.state = none ∧ ∃ st, found py nodeId o.keyId c.readFails file = .ok st ∧
        o' = { o with state := some st }) := by
  have hcommit : ∀ o' : Store, o'.keyId = o.keyId → ∀ st : NodeState,
      (∃ b, c.sequence = st.lastSequence + 1 ∧ c.writeFails = false ∧
        fileBytes py (o.updated nodeId st c) c.time = .ok b ∧
        o'.commitOn py nodeId c st = .ok (o.updated nodeId st c, b)) ∨
      ∃ e, o'.commitOn py nodeId c st = .error e := by
    intro o' hkey st
    have hupdated : o'.updated nodeId st c = o.updated nodeId st c := by
      simp only [Store.updated, Store.chooseKey, hkey]
    unfold Store.commitOn write
    rw [hupdated]
    split_ifs with hback hgap hfails
    · exact .inr ⟨_, rfl⟩
    · exact .inr ⟨_, rfl⟩
    · exact .inr ⟨_, rfl⟩
    · cases hbytes : fileBytes py (o.updated nodeId st c) c.time with
      | ok b => exact .inl ⟨b, not_not.mp hgap, Bool.eq_false_of_not_eq_true hfails, rfl, rfl⟩
      | error e => exact .inr ⟨_, rfl⟩
  unfold Store.commit Store.start
  cases hstate : o.state with
  | some st =>
      rcases hcommit o rfl st with ⟨b, hseq, hwrite, hbytes, hon⟩ | ⟨e, hon⟩
      · simp only [hon]
        exact .inl ⟨st, b, .inl hstate, hseq, hwrite, hbytes, rfl⟩
      · simp only [hon]
        exact .inr ⟨e, o, rfl, .inl rfl⟩
  | none =>
      rcases @read_cases py nodeId c.readFails file o with ⟨st, hfound, hread⟩ | ⟨e, hread⟩
      · rcases hcommit { o with state := some st } rfl st with
          ⟨b, hseq, hwrite, hbytes, hon⟩ | ⟨e, hon⟩
        · simp only [hread, hon]
          exact .inl ⟨st, b, .inr ⟨hstate, hfound⟩, hseq, hwrite, hbytes, rfl⟩
        · simp only [hread, hon]
          exact .inr ⟨e, _, rfl, .inr ⟨trivial, st, hfound, rfl⟩⟩
      · simp only [hread]
        exact .inr ⟨e, o, rfl, .inl rfl⟩

/-! ## What the objects know -/

/-- The position of the chain: the last committed sequence, or what the file had at first. -/
def System.At (py : Interp) (nodeId : Str) (s : System) (n : Int) : Prop :=
  s.committed.getLast? = some n ∨
    s.committed = [] ∧ ∃ keyId fails st, found py nodeId keyId fails s.file = .ok st ∧
      st.lastSequence = n

/-- The file holds the last commit, an object that is not overtaken knows the position, and one
that is overtaken knows an earlier one. -/
structure System.Sound (py : Interp) (nodeId : Str) (s : System) : Prop where
  file_last : ∀ last, s.committed.getLast? = some last →
    ∃ st time b, s.file = some b ∧ fileBytes py st time = .ok b ∧ Legible st.keyId ∧
      st.lastSequence = last
  legible : ∀ i st, (s.stores i).state = some st → Legible st.keyId
  current : ∀ i st, (s.stores i).state = some st → s.overtaken i = false →
    s.At py nodeId st.lastSequence
  behind : ∀ i st, (s.stores i).state = some st → s.overtaken i = true →
    ∃ last, s.committed.getLast? = some last ∧ st.lastSequence < last
  remembers : ∀ i, s.overtaken i = true → (s.stores i).state.isSome

theorem System.At.unique {s : System} {n m : Int} (h : s.At py nodeId n) (h' : s.At py nodeId m) :
    n = m := by
  rcases h with h | ⟨hnil, keyId, fails, st, hfound, rfl⟩
  · rcases h' with h' | ⟨hnil, -⟩
    · exact Option.some.inj (h.symm.trans h')
    · rw [hnil] at h
      cases h
  · rcases h' with h' | ⟨-, keyId', fails', st', hfound', rfl⟩
    · rw [hnil] at h'
      cases h'
    · exact found_unique hfound hfound'

/-- What is found in the file is the position. -/
theorem System.Sound.at_of_found {s : System} (hs : s.Sound py nodeId) {keyId : Str} {fails : Bool}
    {st : NodeState} (h : found py nodeId keyId fails s.file = .ok st) :
    s.At py nodeId st.lastSequence := by
  cases hlast : s.committed.getLast? with
  | none => exact .inr ⟨List.getLast?_eq_none_iff.mp hlast, keyId, fails, st, h, rfl⟩
  | some last =>
      obtain ⟨written, time, b, hfile, hbytes, hlegible, hseq⟩ := hs.file_last last hlast
      rw [hfile] at h
      have hread := lastSequence_of_ofFile hlegible hbytes (found_some h)
      exact .inl (hlast.trans (congrArg some (hseq.symm.trans hread.symm)))

theorem System.sound_fresh (file : Option Bytes) (keyIds : Nat → Str) :
    (System.fresh file keyIds).Sound py nodeId where
  file_last := fun _ h => nomatch h
  legible := fun _ _ h => nomatch h
  current := fun _ _ h _ => nomatch h
  behind := fun _ _ h _ => nomatch h
  remembers := fun _ h => nomatch h

/-- An object that has found the position remembers it. -/
theorem System.Sound.remember {s : System} (hs : s.Sound py nodeId) (i : Nat) {fails : Bool}
    {keyId : Str} {st : NodeState} (h : found py nodeId keyId fails s.file = .ok st) :
    ((s.store i { s.stores i with state := some st }).refresh i).Sound py nodeId where
  file_last := hs.file_last
  legible := by
    intro j st' hj
    by_cases hij : j = i
    · subst hij
      simp only [System.store, System.refresh, Function.update_self] at hj
      obtain rfl := Option.some.inj hj
      exact legible_of_found h
    · simp only [System.store, System.refresh, Function.update_of_ne hij] at hj
      exact hs.legible j st' hj
  current := by
    intro j st' hj hover
    by_cases hij : j = i
    · subst hij
      simp only [System.store, System.refresh, Function.update_self] at hj
      obtain rfl := Option.some.inj hj
      exact hs.at_of_found h
    · simp only [System.store, System.refresh, Function.update_of_ne hij] at hj hover
      exact hs.current j st' hj hover
  behind := by
    intro j st' hj hover
    by_cases hij : j = i
    · subst hij
      simp only [System.refresh, Function.update_self] at hover
      cases hover
    · simp only [System.store, System.refresh, Function.update_of_ne hij] at hj hover
      exact hs.behind j st' hj hover
  remembers := by
    intro j hover
    by_cases hij : j = i
    · subst hij
      simp only [System.refresh, Function.update_self] at hover
      cases hover
    · simp only [System.store, System.refresh, Function.update_of_ne hij] at hover ⊢
      exact hs.remembers j hover

/-- A commit on the position moves the position by one. -/
theorem System.Sound.record {s : System} (hs : s.Sound py nodeId) (i : Nat) {n : Int}
    (hat : s.At py nodeId n) {st : NodeState} {time : Instant} {b : Bytes}
    (hbytes : fileBytes py st time = .ok b) (hlegible : Legible st.keyId)
    (hseq : st.lastSequence = n + 1) :
    ((s.store i { s.stores i with state := some st }).record i st.lastSequence b).Sound py
      nodeId where
  file_last := by
    intro last hlast
    simp only [System.record, System.store, List.getLast?_append, List.getLast?_singleton,
      Option.some_or, Option.some.injEq] at hlast
    exact ⟨st, time, b, rfl, hbytes, hlegible, hlast⟩
  legible := by
    intro j st' hj
    by_cases hij : j = i
    · subst hij
      simp only [System.store, System.record, Function.update_self] at hj
      obtain rfl := Option.some.inj hj
      exact hlegible
    · simp only [System.store, System.record, Function.update_of_ne hij] at hj
      exact hs.legible j st' hj
  current := by
    intro j st' hj hover
    by_cases hij : j = i
    · subst hij
      simp only [System.store, System.record, Function.update_self] at hj
      obtain rfl := Option.some.inj hj
      refine .inl ?_
      simp only [System.record, System.store, List.getLast?_append, List.getLast?_singleton,
        Option.some_or]
    · simp only [System.store, System.record, Function.update_of_ne hij] at hj hover
      rw [hj, decide_eq_true hij] at hover
      cases hover
  behind := by
    intro j st' hj hover
    refine ⟨st.lastSequence, ?_, ?_⟩
    · simp only [System.record, System.store, List.getLast?_append, List.getLast?_singleton,
        Option.some_or]
    · by_cases hij : j = i
      · subst hij
        simp only [System.record, ne_eq, not_true, decide_false, Bool.false_and] at hover
        cases hover
      · simp only [System.store, System.record, Function.update_of_ne hij] at hj
        cases hbefore : s.overtaken j with
        | false =>
            have hsame := (hs.current j st' hj hbefore).unique hat
            omega
        | true =>
            obtain ⟨last, hlast, hlt⟩ := hs.behind j st' hj hbefore
            have hsame := System.At.unique (.inl hlast) hat
            omega
  remembers := by
    intro j hover
    simp only [System.record, Bool.and_eq_true, decide_eq_true_eq] at hover
    exact hover.2

theorem Store.legible_updated (o : Store) (c : Commit) {st : NodeState} (h : Legible st.keyId) :
    Legible (o.updated nodeId st c).keyId := by
  unfold Store.updated Store.chooseKey
  dsimp only
  split_ifs
  · trivial
  · trivial
  · exact h

theorem System.store_self (s : System) (i : Nat) : s.store i (s.stores i) = s := by
  rw [System.store, Function.update_eq_self]

theorem System.Sound.holder {s : System} (hs : s.Sound py nodeId) (holder : Option Nat) :
    { s with holder := holder }.Sound py nodeId :=
  ⟨hs.file_last, hs.legible, hs.current, hs.behind, hs.remembers⟩

theorem ordered_append {sequences : List Int} {n : Int} :
    Ordered (sequences ++ [n]) ↔
      Ordered sequences ∧ ∀ last, sequences.getLast? = some last → n = last + 1 := by
  unfold Ordered
  rw [List.isChain_append]
  simp only [List.isChain_singleton, List.head?_cons, Option.mem_def, Option.some.injEq,
    forall_eq', true_and]

/-- What a commit comes to, in a system. -/
theorem System.call_commit {s : System} {i : Nat} {c : Commit} (hholds : s.holder = some i) :
    (∃ st b, (s.stores i).StartsFrom py nodeId c.readFails s.file st ∧
      c.sequence = st.lastSequence + 1 ∧ c.writeFails = false ∧
      fileBytes py ((s.stores i).updated nodeId st c) c.time = .ok b ∧
      s.call py nodeId (.commit i c) =
        (s.store i { s.stores i with state := some ((s.stores i).updated nodeId st c) }).record i
          c.sequence b) ∨
    s.call py nodeId (.commit i c) = s ∨
    (s.stores i).state = none ∧
      ∃ st, found py nodeId (s.stores i).keyId c.readFails s.file = .ok st ∧
        s.call py nodeId (.commit i c) = s.store i { s.stores i with state := some st } := by
  have hcall : s.call py nodeId (.commit i c) =
      match (s.stores i).commit py nodeId c s.file with
      | (.ok (st, b), o) => (s.store i o).record i st.lastSequence b
      | (.error _, o) => s.store i o := if_pos hholds
  rcases @commit_cases py nodeId c s.file (s.stores i) with
    ⟨st, b, hstart, hseq, hfails, hbytes, hcommit⟩ | ⟨e, o', hcommit, rfl | ⟨hnone, st, hst, rfl⟩⟩
  · refine .inl ⟨st, b, hstart, hseq, hfails, hbytes, ?_⟩
    rw [hcall, hcommit]
    rfl
  · refine .inr (.inl ?_)
    rw [hcall, hcommit]
    exact s.store_self i
  · refine .inr (.inr ⟨hnone, st, hst, ?_⟩)
    rw [hcall, hcommit]

/-- A call that does not commit on an overtaken state keeps what the objects know, and the
order of the commits. -/
theorem System.Sound.call {s : System} (hs : s.Sound py nodeId) (hordered : Ordered s.committed)
    {call : Call} (hno : ¬ s.CommitsOvertaken py nodeId call) :
    (s.call py nodeId call).Sound py nodeId ∧ Ordered (s.call py nodeId call).committed := by
  cases call with
  | enter i =>
      rw [System.call]
      split_ifs
      · exact ⟨hs.holder _, hordered⟩
      · exact ⟨hs, hordered⟩
  | leave i =>
      rw [System.call]
      split_ifs
      · exact ⟨hs.holder _, hordered⟩
      · exact ⟨hs, hordered⟩
  | read i fails =>
      rw [System.call]
      split_ifs
      · rcases @read_cases py nodeId fails s.file (s.stores i) with ⟨st, hst, hread⟩ | ⟨e, hread⟩
        · rw [hread]
          exact ⟨hs.remember i hst, hordered⟩
        · rw [hread]
          dsimp only
          rw [s.store_self i]
          exact ⟨hs, hordered⟩
      · exact ⟨hs, hordered⟩
  | commit i c =>
      by_cases hholds : s.holder = some i
      · rcases @System.call_commit py nodeId s i c hholds with
          ⟨st, b, hstart, hseq, hfails, hbytes, hcall⟩ | hcall | ⟨hnone, st, hst, hcall⟩
        · -- the commit starts from the position of the chain
          have hat : s.At py nodeId st.lastSequence ∧ Legible st.keyId := by
            rcases hstart with hstate | ⟨-, hst⟩
            · refine ⟨?_, hs.legible i st hstate⟩
              cases hover : s.overtaken i with
              | false => exact hs.current i st hstate hover
              | true =>
                  have hwritable : Writable py ((s.stores i).updated nodeId st c) := by
                    by_contra hbad
                    obtain ⟨e, he⟩ := fileBytes_error hbad c.time
                    rw [hbytes] at he
                    cases he
                  exact absurd ⟨hholds, hover, st, hstate, hseq, hfails, hwritable⟩ hno
            · exact ⟨hs.at_of_found hst, legible_of_found hst⟩
          rw [hcall]
          refine ⟨hs.record i hat.1 hbytes ((s.stores i).legible_updated c hat.2) hseq, ?_⟩
          change Ordered (s.committed ++ [c.sequence])
          rw [ordered_append]
          refine ⟨hordered, fun last hlast => ?_⟩
          rw [hseq, hat.1.unique (.inl hlast)]
        · rw [hcall]
          exact ⟨hs, hordered⟩
        · -- an object that remembers nothing is not overtaken
          have hover : s.overtaken i = false := by
            by_contra hover
            have hsome := hs.remembers i (Bool.eq_true_of_not_eq_false hover)
            rw [hnone] at hsome
            cases hsome
          have hsame : ((s.store i { s.stores i with state := some st }).refresh i) =
              s.store i { s.stores i with state := some st } := by
            have hflag : Function.update s.overtaken i false = s.overtaken := by
              rw [← hover, Function.update_eq_self]
            simp only [System.refresh, System.store, hflag]
          rw [hcall, ← hsame]
          exact ⟨hs.remember i hst, hordered⟩
      · have hcall : s.call py nodeId (.commit i c) = s := if_neg hholds
        rw [hcall]
        exact ⟨hs, hordered⟩

/-- A commit on an overtaken state breaks the order. -/
theorem System.Sound.not_ordered {s : System} (hs : s.Sound py nodeId) {call : Call}
    (h : s.CommitsOvertaken py nodeId call) : ¬ Ordered (s.call py nodeId call).committed := by
  cases call with
  | commit i c =>
      obtain ⟨hholds, hover, st, hstate, hseq, hfails, hwritable⟩ := h
      obtain ⟨last, hlast, hlt⟩ := hs.behind i st hstate hover
      obtain ⟨b, hb⟩ := fileBytes_ok hwritable c.time
      have hcommits : (s.call py nodeId (.commit i c)).committed = s.committed ++ [c.sequence] := by
        have hback : ¬ st.lastSequence + 1 ≤ st.lastSequence := by omega
        have hcommit : (s.stores i).commit py nodeId c s.file =
            (.ok ((s.stores i).updated nodeId st c, b),
              { s.stores i with state := some ((s.stores i).updated nodeId st c) }) := by
          simp only [Store.commit, Store.start, hstate, Store.commitOn, write, hseq, if_neg hback,
            ne_eq, not_true, if_false, hfails, Bool.false_eq_true, hb, Except.mapError, Except.map]
        simp only [System.call, if_pos hholds, hcommit]
        rfl
      rw [hcommits, ordered_append]
      rintro ⟨-, hnext⟩
      have hsequence := hnext last hlast
      omega
  | enter i => exact h.elim
  | leave i => exact h.elim
  | read i fails => exact h.elim

/-! ## Runs -/

theorem System.committed_prefix_call (s : System) (call : Call) :
    s.committed <+: (s.call py nodeId call).committed := by
  cases call with
  | enter i =>
      rw [System.call]
      split_ifs <;> exact List.prefix_rfl
  | leave i =>
      rw [System.call]
      split_ifs <;> exact List.prefix_rfl
  | read i fails =>
      rw [System.call]
      split_ifs
      · split <;> exact List.prefix_rfl
      · exact List.prefix_rfl
  | commit i c =>
      rw [System.call]
      split_ifs
      · split
        · exact List.prefix_append _ _
        · exact List.prefix_rfl
      · exact List.prefix_rfl

theorem System.committed_prefix_run (s : System) (calls : List Call) :
    s.committed <+: (s.run py nodeId calls).committed := by
  induction calls generalizing s with
  | nil => exact List.prefix_rfl
  | cons call rest ih => exact (s.committed_prefix_call call).trans (ih _)

/-- The commits of a run are in order exactly when none of them is made on an overtaken state. -/
theorem System.Sound.ordered_run_iff {s : System} (hs : s.Sound py nodeId)
    (hordered : Ordered s.committed) (calls : List Call) :
    Ordered (s.run py nodeId calls).committed ↔
      ∀ before call after, calls = before ++ call :: after →
        ¬ (s.run py nodeId before).CommitsOvertaken py nodeId call := by
  induction calls generalizing s with
  | nil =>
      refine iff_of_true hordered fun before call after h => ?_
      cases before <;> cases h
  | cons call rest ih =>
      by_cases hover : s.CommitsOvertaken py nodeId call
      · refine iff_of_false (fun h => ?_) fun h => h [] call rest rfl hover
        obtain ⟨more, hmore⟩ : (s.call py nodeId call).committed <+:
            ((s.call py nodeId call).run py nodeId rest).committed :=
          System.committed_prefix_run _ rest
        have hwhole : Ordered ((s.call py nodeId call).run py nodeId rest).committed := h
        rw [← hmore] at hwhole
        exact hs.not_ordered hover hwhole.left_of_append
      · obtain ⟨hnext, hnextOrdered⟩ := hs.call hordered hover
        refine (ih hnext hnextOrdered).trans ⟨fun h before c after heq => ?_,
          fun h before c after heq => h (call :: before) c after (congrArg (call :: ·) heq)⟩
        cases before with
        | nil =>
            obtain ⟨rfl, rfl⟩ := List.cons.inj heq
            exact hover
        | cons first before =>
            obtain ⟨rfl, htail⟩ := List.cons.inj heq
            exact h before c after htail

/-- For any number of objects, whatever the file holds at first and whatever is called in which
order, the committed sequences increase by one each exactly when no commit is made on a state
that another object has replaced since it was remembered. -/
theorem committed_ordered_iff (file : Option Bytes) (keyIds : Nat → Str) (calls : List Call) :
    Ordered ((System.fresh file keyIds).run py nodeId calls).committed ↔
      ∀ before call after, calls = before ++ call :: after →
        ¬ ((System.fresh file keyIds).run py nodeId before).CommitsOvertaken py nodeId call :=
  (System.sound_fresh file keyIds).ordered_run_iff List.isChain_nil calls

end Calls

/-- The first commit of an object on an empty chain. -/
def firstCommit : Commit where
  sequence := 1
  eventHash := List.replicate 64 (cp 'a')
  keyId := none
  time := .first
  readFails := false
  writeFails := false

/-- Two objects read the empty chain one after the other, and then commit one after the other. -/
def secondSession : List Call :=
  [.enter 0, .read 0 false, .leave 0, .enter 1, .read 1 false, .leave 1,
    .enter 0, .commit 0 firstCommit, .leave 0, .enter 1, .commit 1 firstCommit, .leave 1]

/-- The second object commits the sequence that the first one has committed. -/
theorem remembered_state_reuses_sequence :
    ((System.fresh none fun _ => lit "key").run .reference (lit "node") secondSession).committed =
        [1, 1] ∧
      ¬ Ordered ((System.fresh none fun _ => lit "key").run .reference (lit "node")
        secondSession).committed := by
  decide +kernel

end IcsDeception.StateStore
