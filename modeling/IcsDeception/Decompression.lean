import IcsDeception.Archive
import IcsDeception.Lib.Inflater

/-!
# The second pass of a decryption

The authenticated bytes are read in pieces and decompressed a bounded piece of output at a
time, under an absolute limit. What the decompressor has not read of a piece is handed to it
again before the next piece is read; what it holds back is flushed at the end.

## Implementation notes

The decompressor is a parameter, and so is the way in which the file is read in pieces. The
inner loop runs on fuel. The digest is kept as the bytes that it was updated with, the
destination as the writes that it got.
-/

namespace IcsDeception

open Text

namespace Archive

/-- `CHUNK_BYTES`. -/
def chunkBytes : Nat := 1024 * 1024

/-- What a part of the pass has written, and how it came out. -/
structure Emitted (α : Type) where
  writes : List Bytes
  result : Except ArchiveExn α

/-- Go on behind a part that raised nothing. -/
def Emitted.andThen {α β : Type} (e : Emitted α) (f : α → Option (Emitted β)) :
    Option (Emitted β) :=
  match e.result with
  | .error x => some ⟨e.writes, .error x⟩
  | .ok a => (f a).map fun e' => ⟨e.writes ++ e'.writes, e'.result⟩

/-- The variables of the pass: the decompressor, the count and the digest. -/
structure Pass (d : Inflater UInt8 UInt8) where
  decompressor : d.State
  written : Nat
  digested : Bytes

variable {d : Inflater UInt8 UInt8}

/-- The pass before the first piece. -/
def Pass.start (d : Inflater UInt8 UInt8) : Pass d := ⟨d.start, 0, []⟩

/-- Count, check, digest and write some output, unless it is empty. -/
def Pass.take (maxPlaintextBytes : Int) (p : Pass d) (data : Bytes) : Emitted (Pass d) :=
  if data = [] then ⟨[], .ok p⟩
  else if maxPlaintextBytes < (p.written + data.length : Nat) then
    ⟨[], .error (.archive .decompressionBomb)⟩
  else
    ⟨[data], .ok { p with written := p.written + data.length, digested := p.digested ++ data }⟩

/-- The loop over the pending part of one piece. -/
def Pass.drain (maxPlaintextBytes : Int) : Nat → Bytes → Pass d → Option (Emitted (Pass d))
  | 0, _, _ => none
  | fuel + 1, pending, p =>
      match d.decompress p.decompressor pending chunkBytes with
      | none => some ⟨[], .error (.archive .corrupt)⟩
      | some (data, s) =>
          (Pass.take maxPlaintextBytes { p with decompressor := s } data).andThen fun p =>
            if d.unconsumedTail s = [] then some ⟨[], .ok p⟩
            else Pass.drain maxPlaintextBytes fuel (d.unconsumedTail s) p

/-- The loop over the pieces. -/
def Pass.drainAll (maxPlaintextBytes : Int) (fuel : Nat) :
    List Bytes → Pass d → Option (Emitted (Pass d))
  | [], p => some ⟨[], .ok p⟩
  | chunk :: rest, p =>
      (Pass.drain maxPlaintextBytes fuel chunk p).bind fun e =>
        e.andThen (Pass.drainAll maxPlaintextBytes fuel rest)

/-- The flush behind the last piece, and the result of the pass. -/
def Pass.finish (py : Interp) (maxPlaintextBytes : Int) (p : Pass d) :
    Option (Emitted (Nat × Str)) :=
  match d.flush p.decompressor with
  | none => some ⟨[], .error (.archive .corrupt)⟩
  | some tail =>
      (Pass.take maxPlaintextBytes p tail).andThen fun p =>
        some ⟨[], .ok (p.written, py.sha3_256 p.digested)⟩

/-- Pass two of `_stream_decrypt`, over the pieces that the reads of the file return. -/
def secondPass (py : Interp) (d : Inflater UInt8 UInt8) (maxPlaintextBytes : Int) (fuel : Nat)
    (chunks : List Bytes) : Option (Emitted (Nat × Str)) :=
  (Pass.drainAll maxPlaintextBytes fuel chunks (Pass.start d)).bind fun e =>
    e.andThen (Pass.finish py maxPlaintextBytes)

/-! ## One piece of output -/

/-- The count is that of the digest, within the limit. -/
structure Pass.Counts (maxPlaintextBytes : Int) (p : Pass d) : Prop where
  written : p.written = p.digested.length
  bounded : (p.digested.length : Int) ≤ maxPlaintextBytes

/-- A pass with more output behind it. -/
def Pass.grow (p : Pass d) (data : Bytes) : Pass d :=
  { p with written := (p.digested ++ data).length, digested := p.digested ++ data }

/-- Output is written within the limit, and refused beyond it. -/
theorem Pass.take_cases {maxPlaintextBytes : Int} {p : Pass d} (hp : p.Counts maxPlaintextBytes)
    (data : Bytes) :
    (maxPlaintextBytes < ((p.digested ++ data).length : Nat) ∧
      p.take maxPlaintextBytes data = ⟨[], .error (.archive .decompressionBomb)⟩) ∨
    (p.grow data).Counts maxPlaintextBytes ∧ ∃ writes, writes.flatten = data ∧
      p.take maxPlaintextBytes data = ⟨writes, .ok (p.grow data)⟩ := by
  unfold Pass.take
  by_cases hempty : data = []
  · subst hempty
    right
    have hgrow : p.grow [] = p := by
      cases p
      simp [Pass.grow, ← hp.written]
    rw [if_pos rfl, hgrow]
    exact ⟨hp, [], rfl, rfl⟩
  · have hcount : p.written + data.length = (p.digested ++ data).length := by
      rw [hp.written, List.length_append]
    rw [if_neg hempty, hcount]
    by_cases hbomb : maxPlaintextBytes < ((p.digested ++ data).length : Nat)
    · exact .inl ⟨hbomb, if_pos hbomb⟩
    · right
      rw [if_neg hbomb]
      exact ⟨⟨rfl, Int.not_lt.mp hbomb⟩, [data], List.append_nil data, rfl⟩

/-- A part of the pass that raises nothing has added what it wrote to the digest. -/
structure Emitted.Counts (maxPlaintextBytes : Int) (p : Pass d) (e : Emitted (Pass d)) : Prop where
  counts : ∀ p', e.result = .ok p' →
    p'.Counts maxPlaintextBytes ∧ p'.digested = p.digested ++ e.writes.flatten

theorem Pass.take_counts {maxPlaintextBytes : Int} {p : Pass d} (hp : p.Counts maxPlaintextBytes)
    (data : Bytes) : (p.take maxPlaintextBytes data).Counts maxPlaintextBytes p := by
  rcases Pass.take_cases hp data with ⟨-, htake⟩ | ⟨hcounts, writes, hwrites, htake⟩
  · rw [htake]
    exact ⟨nofun⟩
  · rw [htake]
    constructor
    intro p' hp'
    obtain rfl := Except.ok.inj hp'
    exact ⟨hcounts, by rw [hwrites]; rfl⟩

/-- Two parts of the pass, one behind the other. -/
theorem Emitted.Counts.andThen {maxPlaintextBytes : Int} {p : Pass d} {e e' : Emitted (Pass d)}
    (h : e.Counts maxPlaintextBytes p) {f : Pass d → Option (Emitted (Pass d))}
    (hf : ∀ p', p'.Counts maxPlaintextBytes → ∀ e', f p' = some e' →
      e'.Counts maxPlaintextBytes p')
    (he : e.andThen f = some e') : e'.Counts maxPlaintextBytes p := by
  obtain ⟨writes, result⟩ := e
  cases result with
  | error x =>
      obtain rfl := Option.some.inj he
      exact ⟨nofun⟩
  | ok p₁ =>
      obtain ⟨e₂, h₂, rfl⟩ := Option.map_eq_some_iff.mp he
      obtain ⟨hcounts, hdigested⟩ := h.counts p₁ rfl
      constructor
      intro p' hp'
      obtain ⟨hcounts', hdigested'⟩ := (hf p₁ hcounts e₂ h₂).counts p' hp'
      refine ⟨hcounts', ?_⟩
      rw [hdigested', hdigested, List.flatten_append, List.append_assoc]

theorem Pass.drain_counts {maxPlaintextBytes : Int} {fuel : Nat} {pending : Bytes} {p : Pass d}
    (hp : p.Counts maxPlaintextBytes) {e : Emitted (Pass d)}
    (h : p.drain maxPlaintextBytes fuel pending = some e) : e.Counts maxPlaintextBytes p := by
  induction fuel generalizing p pending e with
  | zero => cases h
  | succ fuel ih =>
      unfold Pass.drain at h
      split at h
      · obtain rfl := Option.some.inj h
        exact ⟨nofun⟩
      · next data s hcall =>
          have htake := Pass.take_counts (p := { p with decompressor := s })
            ⟨hp.written, hp.bounded⟩ data
          have hall := htake.andThen (fun p' hp' e' he' => ?_) h
          · exact ⟨hall.counts⟩
          · by_cases htail : d.unconsumedTail s = []
            · rw [if_pos htail] at he'
              obtain rfl := Option.some.inj he'
              constructor
              intro p'' hp''
              obtain rfl := Except.ok.inj hp''
              exact ⟨hp', (List.append_nil _).symm⟩
            · rw [if_neg htail] at he'
              exact ih hp' he'

theorem Pass.drainAll_counts {maxPlaintextBytes : Int} {fuel : Nat} {chunks : List Bytes}
    {p : Pass d} (hp : p.Counts maxPlaintextBytes) {e : Emitted (Pass d)}
    (h : p.drainAll maxPlaintextBytes fuel chunks = some e) : e.Counts maxPlaintextBytes p := by
  induction chunks generalizing p e with
  | nil =>
      obtain rfl := Option.some.inj h
      constructor
      intro p' hp'
      obtain rfl := Except.ok.inj hp'
      exact ⟨hp, (List.append_nil _).symm⟩
  | cons chunk rest ih =>
      obtain ⟨e₁, hdrain, h⟩ := Option.bind_eq_some_iff.mp h
      exact (Pass.drain_counts hp hdrain).andThen (fun p' hp' e' he' => ih hp' he') h

/-- The result of a pass is the length and the digest of what it wrote, within the limit. -/
theorem secondPass_counts {py : Interp} {maxPlaintextBytes : Int} (hmax : 0 < maxPlaintextBytes)
    {fuel : Nat} {chunks writes : List Bytes} {r : Nat × Str}
    (h : secondPass py d maxPlaintextBytes fuel chunks = some ⟨writes, .ok r⟩) :
    r = (writes.flatten.length, py.sha3_256 writes.flatten) ∧
      (writes.flatten.length : Int) ≤ maxPlaintextBytes := by
  obtain ⟨⟨writes₁, result⟩, hdrain, h⟩ := Option.bind_eq_some_iff.mp h
  have hstart : (Pass.start d).Counts maxPlaintextBytes := ⟨rfl, Int.le_of_lt hmax⟩
  have hcounts := Pass.drainAll_counts hstart hdrain
  cases result with
  | error x => cases h
  | ok p₁ =>
      obtain ⟨hp₁, hdigested₁⟩ := hcounts.counts p₁ rfl
      obtain ⟨e₂, hfinish, he⟩ := Option.map_eq_some_iff.mp h
      obtain ⟨rfl, hresult⟩ := Emitted.mk.inj he
      unfold Pass.finish at hfinish
      split at hfinish
      · obtain rfl := Option.some.inj hfinish
        cases hresult
      · next tail _ =>
          have htake := Pass.take_counts hp₁ tail
          generalize p₁.take maxPlaintextBytes tail = e₃ at htake hfinish
          obtain ⟨writes₃, result₃⟩ := e₃
          cases result₃ with
          | error x =>
              obtain rfl := Option.some.inj hfinish
              cases hresult
          | ok p₃ =>
              obtain rfl := Option.some.inj hfinish
              obtain ⟨hp₃, hdigested₃⟩ := htake.counts p₃ rfl
              obtain rfl := Except.ok.inj hresult
              have hall : (writes₁ ++ (writes₃ ++ [])).flatten = p₃.digested := by
                rw [hdigested₃, hdigested₁, List.append_nil, List.flatten_append]
                rfl
              rw [hall, hp₃.written]
              exact ⟨rfl, hp₃.bounded⟩

/-! ## The outcome of a part of the pass -/

/-- A part of the pass, behind some output, of the decompression of a plaintext: it raises
nothing and leaves a good result, or it stops at the limit with no more written than that. -/
inductive Outcome {α : Type} (maxPlaintextBytes : Int) (plaintext before : Bytes)
    (good : Bytes → α → Prop) : Emitted α → Prop
  | done {writes : List Bytes} {a : α} :
      good (before ++ writes.flatten) a → Outcome maxPlaintextBytes plaintext before good
        ⟨writes, .ok a⟩
  | bomb {writes : List Bytes} :
      maxPlaintextBytes < (plaintext.length : Nat) →
      ((before ++ writes.flatten).length : Int) ≤ maxPlaintextBytes →
      Outcome maxPlaintextBytes plaintext before good
        ⟨writes, .error (.archive .decompressionBomb)⟩

/-- The outcome of a part and what follows it. -/
theorem Outcome.andThen {α β : Type} {maxPlaintextBytes : Int} {plaintext before : Bytes}
    {good : Bytes → α → Prop} {good' : Bytes → β → Prop} {e : Emitted α}
    (h : Outcome maxPlaintextBytes plaintext before good e) {f : α → Option (Emitted β)}
    (hf : ∀ out a, good out a →
      ∃ e', f a = some e' ∧ Outcome maxPlaintextBytes plaintext out good' e') :
    ∃ e', e.andThen f = some e' ∧ Outcome maxPlaintextBytes plaintext before good' e' := by
  cases h with
  | bomb hlong hbound => exact ⟨_, rfl, .bomb hlong hbound⟩
  | @done writes a hgood =>
      obtain ⟨e', he', hout⟩ := hf _ a hgood
      refine ⟨⟨writes ++ e'.writes, e'.result⟩, ?_, ?_⟩
      · simp only [Emitted.andThen, he', Option.map_some]
      · cases hout with
        | bomb hlong hbound =>
            apply Outcome.bomb hlong
            rwa [List.flatten_append, ← List.append_assoc]
        | done hgood' =>
            apply Outcome.done
            rwa [List.flatten_append, ← List.append_assoc]

theorem Pass.take_outcome {maxPlaintextBytes : Int} {p : Pass d} (hp : p.Counts maxPlaintextBytes)
    {data plaintext : Bytes} (hfront : p.digested ++ data <+: plaintext) :
    Outcome maxPlaintextBytes plaintext p.digested
      (fun out p' => p' = p.grow data ∧ p'.Counts maxPlaintextBytes ∧ out = p'.digested)
      (p.take maxPlaintextBytes data) := by
  rcases Pass.take_cases hp data with ⟨hbomb, htake⟩ | ⟨hcounts, writes, hwrites, htake⟩
  · rw [htake]
    apply Outcome.bomb
    · have hle := hfront.length_le
      omega
    · rw [List.flatten_nil, List.append_nil]
      exact hp.bounded
  · rw [htake]
    exact .done ⟨rfl, hcounts, by rw [hwrites]; rfl⟩

/-! ## The loops -/

/-- The pass has consumed this input, and its decompressor has read all of it. -/
structure Pass.At (maxPlaintextBytes : Int) (used : Bytes) (p : Pass d) : Prop where
  ran : d.Ran p.decompressor used p.digested
  counts : p.Counts maxPlaintextBytes
  settled : d.unconsumedTail p.decompressor = []

section Loops

variable {oneShot : Bytes → Option Bytes} {maxPlaintextBytes : Int} {plaintext : Bytes}

/-- The inner loop reads the whole piece, for every fuel above the measure. -/
theorem Pass.drain_outcome (hd : d.Streams oneShot) {later : Bytes} {fuel : Nat} {p : Pass d}
    {used pending : Bytes} (hplain : oneShot (used ++ pending ++ later) = some plaintext)
    (hrun : d.Ran p.decompressor used p.digested) (hp : p.Counts maxPlaintextBytes)
    (hne : pending ≠ []) (hfuel : Inflater.remaining plaintext pending p.digested < fuel) :
    ∃ e, p.drain maxPlaintextBytes fuel pending = some e ∧
      Outcome maxPlaintextBytes plaintext p.digested
        (fun out p' => p'.At maxPlaintextBytes (used ++ pending) ∧ out = p'.digested) e := by
  induction fuel generalizing p used pending with
  | zero => exact (Nat.not_lt_zero _ hfuel).elim
  | succ fuel ih =>
      have hchunk : 0 < chunkBytes := by decide
      have hvalid := hd.initial (used ++ pending) later (by rw [hplain]; rfl)
      obtain ⟨data, s, eaten, hstep⟩ := hd.decompress hrun hne hchunk hvalid
      have hsplit : used ++ eaten ++ d.unconsumedTail s = used ++ pending := by
        rw [List.append_assoc, ← hstep.splits]
      have hran := hrun.step hne hchunk hstep
      have hahead : oneShot (used ++ eaten ++ (d.unconsumedTail s ++ later)) = some plaintext := by
        rw [← List.append_assoc, hsplit, hplain]
      have hfront : p.digested ++ data <+: plaintext :=
        hd.output_isPrefix hran hahead fun h => (List.append_eq_nil_iff.mp h).1
      have htake := @Pass.take_outcome d maxPlaintextBytes { p with decompressor := s }
        ⟨hp.written, hp.bounded⟩ data plaintext hfront
      simp only [Pass.drain, hstep.returns]
      refine htake.andThen fun out p' hgood => ?_
      obtain ⟨rfl, hcounts, rfl⟩ := hgood
      by_cases htail : d.unconsumedTail s = []
      · refine ⟨_, if_pos htail, .done ⟨⟨?_, hcounts, htail⟩, List.append_nil _⟩⟩
        rw [htail, List.append_nil] at hsplit
        exact hsplit ▸ hran
      · rw [if_neg htail, ← hsplit]
        apply ih
        · rw [hsplit, hplain]
        · exact hran
        · exact hcounts
        · exact htail
        · have hlt := hstep.remaining_lt htail hfront
          have hdigested : (Pass.grow { p with decompressor := s } data).digested =
            p.digested ++ data := rfl
          rw [hdigested]
          omega

theorem Pass.drainAll_outcome (hd : d.Streams oneShot) {fuel : Nat} {p : Pass d} {used : Bytes}
    {chunks : List Bytes} (hplain : oneShot (used ++ chunks.flatten) = some plaintext)
    (hp : p.At maxPlaintextBytes used) (hne : ∀ chunk ∈ chunks, chunk ≠ [])
    (hfuel : chunks.flatten.length + plaintext.length < fuel) :
    ∃ e, p.drainAll maxPlaintextBytes fuel chunks = some e ∧
      Outcome maxPlaintextBytes plaintext p.digested
        (fun out p' => p'.At maxPlaintextBytes (used ++ chunks.flatten) ∧ out = p'.digested) e := by
  induction chunks generalizing p used with
  | nil =>
      refine ⟨_, rfl, .done ⟨?_, List.append_nil _⟩⟩
      rw [List.flatten_nil, List.append_nil]
      exact hp
  | cons chunk rest ih =>
      rw [List.flatten_cons, List.length_append] at hfuel
      rw [List.flatten_cons, ← List.append_assoc] at hplain
      have hone : Inflater.remaining plaintext chunk p.digested < fuel := by
        rw [Inflater.remaining]
        omega
      obtain ⟨e, he, hout⟩ := Pass.drain_outcome hd hplain hp.ran hp.counts
        (hne chunk List.mem_cons_self) hone
      rw [Pass.drainAll, he, Option.bind_some, List.flatten_cons, ← List.append_assoc]
      refine hout.andThen fun out p' hgood => ?_
      obtain ⟨hat, rfl⟩ := hgood
      apply ih hplain hat (fun c hc => hne c (List.mem_cons_of_mem _ hc))
      omega

theorem Pass.finish_outcome (py : Interp) (hd : d.Streams oneShot) {p : Pass d} {used : Bytes}
    (hplain : oneShot used = some plaintext) (hp : p.At maxPlaintextBytes used) :
    ∃ e, p.finish py maxPlaintextBytes = some e ∧
      Outcome maxPlaintextBytes plaintext p.digested
        (fun out result => out = plaintext ∧ (plaintext.length : Int) ≤ maxPlaintextBytes ∧
          result = (plaintext.length, py.sha3_256 plaintext)) e := by
  obtain ⟨tail, hflush, hwhole⟩ := hd.flush hp.ran (by rw [hp.settled, List.append_nil, hplain])
  have hfront : p.digested ++ tail <+: plaintext := by rw [hwhole]
  have htake := Pass.take_outcome hp.counts hfront
  simp only [Pass.finish, hflush]
  refine htake.andThen fun out p' hgood => ?_
  obtain ⟨rfl, hcounts, rfl⟩ := hgood
  have hdigested : (p.grow tail).digested = plaintext := hwhole
  refine ⟨_, rfl, .done ⟨?_, ?_, ?_⟩⟩
  · rw [List.flatten_nil, List.append_nil, hdigested]
  · have hbounded := hcounts.bounded
    rwa [hdigested] at hbounded
  · rw [hcounts.written, hdigested]

theorem secondPass_outcome (py : Interp) (hd : d.Streams oneShot) {compressed : Bytes}
    (hplain : oneShot compressed = some plaintext) {chunks : List Bytes}
    (hne : ∀ chunk ∈ chunks, chunk ≠ []) (hchunks : chunks.flatten = compressed)
    (hmax : 0 < maxPlaintextBytes) {fuel : Nat}
    (hfuel : compressed.length + plaintext.length < fuel) :
    ∃ e, secondPass py d maxPlaintextBytes fuel chunks = some e ∧
      Outcome maxPlaintextBytes plaintext []
        (fun out result => out = plaintext ∧ (plaintext.length : Int) ≤ maxPlaintextBytes ∧
          result = (plaintext.length, py.sha3_256 plaintext)) e := by
  subst hchunks
  have hstart : (Pass.start d).At maxPlaintextBytes [] :=
    ⟨.start, ⟨rfl, Int.le_of_lt hmax⟩, hd.start_tail⟩
  obtain ⟨e, he, hout⟩ := Pass.drainAll_outcome hd hplain hstart hne hfuel
  rw [secondPass, he, Option.bind_some]
  refine hout.andThen fun out p' hgood => ?_
  obtain ⟨hat, rfl⟩ := hgood
  exact Pass.finish_outcome py hd hplain hat

/-- Pass two is the decompression that the archive functions are stated with. -/
theorem secondPass_refines (py : Interp) (hd : d.Streams oneShot) {crypto : ArchiveCrypto}
    {compressed : Bytes} (hplain : oneShot compressed = some plaintext)
    (hcrypto : crypto.decompress compressed = (plaintext, false)) {chunks : List Bytes}
    (hne : ∀ chunk ∈ chunks, chunk ≠ []) (hchunks : chunks.flatten = compressed)
    (hmax : 0 < maxPlaintextBytes) {fuel : Nat}
    (hfuel : compressed.length + plaintext.length < fuel) :
    ∃ e, secondPass py d maxPlaintextBytes fuel chunks = some e ∧
      (e.result.map fun _ => e.writes.flatten) = decompress crypto compressed maxPlaintextBytes := by
  obtain ⟨e, he, hout⟩ := secondPass_outcome py hd hplain hne hchunks hmax hfuel
  refine ⟨e, he, ?_⟩
  simp only [decompress, hcrypto, archiveCheck]
  cases hout with
  | done hgood =>
      obtain ⟨hwrites, hle, -⟩ := hgood
      rw [List.nil_append] at hwrites
      rw [if_pos (decide_eq_true hle), hwrites]
      rfl
  | bomb hlong _ =>
      rw [if_neg (by simpa using hlong)]
      rfl

/-- Pass two comes to an end. A plaintext within the limit is written as it is, with its
length and digest as the result; of a longer one no more than the limit is written. -/
theorem streaming_equals_oneShot (py : Interp) (hd : d.Streams oneShot) {compressed : Bytes}
    (hplain : oneShot compressed = some plaintext) {chunks : List Bytes}
    (hne : ∀ chunk ∈ chunks, chunk ≠ []) (hchunks : chunks.flatten = compressed)
    (hmax : 0 < maxPlaintextBytes) {fuel : Nat}
    (hfuel : compressed.length + plaintext.length < fuel) :
    ∃ e, secondPass py d maxPlaintextBytes fuel chunks = some e ∧
      ((plaintext.length : Int) ≤ maxPlaintextBytes →
        e.writes.flatten = plaintext ∧ e.result = .ok (plaintext.length, py.sha3_256 plaintext)) ∧
      (maxPlaintextBytes < (plaintext.length : Int) →
        (e.writes.flatten.length : Int) ≤ maxPlaintextBytes ∧
        e.result = .error (.archive .decompressionBomb)) := by
  obtain ⟨e, he, hout⟩ := secondPass_outcome py hd hplain hne hchunks hmax hfuel
  refine ⟨e, he, ?_⟩
  cases hout with
  | done hgood =>
      obtain ⟨hwrites, hle, rfl⟩ := hgood
      exact ⟨fun _ => ⟨hwrites, rfl⟩, fun hlong => (Int.not_lt.mpr hle hlong).elim⟩
  | bomb hlong hbound =>
      exact ⟨fun hle => (Int.not_lt.mpr hle hlong).elim, fun _ => ⟨hbound, rfl⟩⟩

end Loops

/-! ## A stored block -/

/-- The gzip file of the two bytes `hi`, in one stored block. -/
def storedFile : Bytes :=
  [0x1F, 0x8B, 8, 0, 0, 0, 0, 0, 0, 0xFF, 1, 2, 0, 0xFD, 0xFF, 0x68, 0x69,
    0xAC, 0x2A, 0x93, 0xD8, 2, 0, 0, 0]

/-- What `zlib` makes of the file and of what it begins with: the bytes of the block that are
there. -/
def storedOneShot (input : Bytes) : Option Bytes :=
  if storedFile <+: input ∨ input <+: storedFile then some ((input.drop 15).take 2) else none

theorem storedOneShot_streams : (Inflater.ofOneShot storedOneShot).Streams storedOneShot := by
  apply Inflater.ofOneShot_streams
  · intro a b part whole ha hb
    unfold storedOneShot at ha hb
    split_ifs at ha hb
    obtain rfl := Option.some.inj ha
    obtain rfl := Option.some.inj hb
    exact ((List.prefix_append a b).drop 15).take 2
  · intro a b h
    unfold storedOneShot at h ⊢
    split_ifs at h with hab
    · have ha : storedFile <+: a ∨ a <+: storedFile := by
        rcases hab with hab | hab
        · exact List.prefix_or_prefix_of_prefix hab (List.prefix_append a b)
        · exact .inr ((List.prefix_append a b).trans hab)
      rw [if_pos ha]
      rfl
    · cases h

/-- The file in two pieces, under a limit that it keeps and under one that it does not. -/
theorem streaming_stored :
    (∃ e, secondPass .reference (Inflater.ofOneShot storedOneShot) 2 100
        [storedFile.take 16, storedFile.drop 16] = some e ∧
      e.writes.flatten = [0x68, 0x69] ∧ e.result = .ok (2, Interp.reference.sha3_256 [0x68, 0x69])) ∧
    ∃ e, secondPass .reference (Inflater.ofOneShot storedOneShot) 1 100
        [storedFile.take 16, storedFile.drop 16] = some e ∧
      e.result = .error (.archive .decompressionBomb) := by
  have hplain : storedOneShot storedFile = some [0x68, 0x69] := by decide
  have hne : ∀ chunk ∈ [storedFile.take 16, storedFile.drop 16], chunk ≠ [] := by decide
  have hchunks : [storedFile.take 16, storedFile.drop 16].flatten = storedFile := by decide
  have hfuel : storedFile.length + ([0x68, 0x69] : Bytes).length < 100 := by decide
  constructor
  · obtain ⟨e, he, hfits, -⟩ := streaming_equals_oneShot .reference storedOneShot_streams hplain hne
      hchunks (show 0 < (2 : Int) by decide) hfuel
    exact ⟨e, he, hfits (by decide)⟩
  · obtain ⟨e, he, -, hlong⟩ := streaming_equals_oneShot .reference storedOneShot_streams hplain hne
      hchunks (show 0 < (1 : Int) by decide) hfuel
    exact ⟨e, he, (hlong (by decide)).2⟩

end Archive

end IcsDeception
