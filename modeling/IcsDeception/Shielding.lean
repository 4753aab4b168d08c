import IcsDeception.Decryption
import IcsDeception.ArchiveSoundness

/-!
# No unauthenticated plaintext at the destination

A decryption that fails before its rename leaves every file as it was, as long as the
preparation of its two scratch files does not fail: closing the descriptor of a new file and
setting its mode stand before the `try` that removes it. What is renamed onto the destination
is the authenticated plaintext.

## Implementation notes

The parts of a run are specified by the files that they may change and by what holds when
they return. All of them keep the log free of the calls that matter: a rename, and a failure
to close or to protect a file.
-/

namespace IcsDeception

open Text Canonicalizer

namespace Archive

open Method

variable {Path : Type}

/-! ## Runs that change some files only -/

/-- No close and no change of mode has failed. -/
def Prepared (log : List (FileOp Path × Bool)) : Prop :=
  ∀ p, (.close p, false) ∉ log ∧ (.chmod p, false) ∉ log

/-- A file has been renamed. -/
def Renamed (log : List (FileOp Path × Bool)) : Prop := ∃ p q, (.replace p q, true) ∈ log

/-- From one state to another, the files outside of a set stay as they were, and the log gets
no rename and no failed preparation. -/
structure Within (S : Set Path) (s t : Files Path) : Prop where
  others : ∀ q ∉ S, t.content q = s.content q
  kept : s.log ⊆ t.log
  prepared : Prepared s.log → Prepared t.log
  renamed : Renamed t.log → Renamed s.log

theorem Within.refl (S : Set Path) (s : Files Path) : Within S s s :=
  ⟨fun _ _ => rfl, fun _ h => h, id, id⟩

theorem Within.trans {S : Set Path} {s t u : Files Path} (h : Within S s t) (h' : Within S t u) :
    Within S s u where
  others q hq := (h'.others q hq).trans (h.others q hq)
  kept := List.Subset.trans h.kept h'.kept
  prepared hp := h'.prepared (h.prepared hp)
  renamed hr := h.renamed (h'.renamed hr)

theorem Within.mono {S S' : Set Path} {s t : Files Path} (h : Within S s t) (hS : S ⊆ S') :
    Within S' s t :=
  ⟨fun q hq => h.others q fun hmem => hq (hS hmem), h.kept, h.prepared, h.renamed⟩

variable [DecidableEq Path] {unzip : Bytes → Option (List ZipEntry)}

/-- Every run changes files of the set only, and what it returns meets a condition. -/
def Spec (unzip : Bytes → Option (List ZipEntry)) (S : Set Path) {α : Type} (m : Script Path α)
    (s : Files Path) (P : α → Files Path → Prop) : Prop :=
  m.Safe (Files.world unzip) (fun _ => True)
    (fun r _ t => Within S s t ∧ ∀ a, r = .ok a → P a t) () s

theorem Spec.bind {S : Set Path} {α β : Type} {m : Script Path α} {f : α → Script Path β}
    {s : Files Path} {P : α → Files Path → Prop} {Q : β → Files Path → Prop}
    (hm : Spec unzip S m s P) (hf : ∀ a t, Within S s t → P a t → Spec unzip S (f a) t Q) :
    Spec unzip S (m >>= f) s Q := by
  refine safe_bind.mpr (Safe.weaken hm ?_)
  rintro r ⟨⟩ t - ⟨hwithin, hok⟩
  cases r with
  | error e => exact ⟨hwithin, nofun⟩
  | ok a =>
      unfold Then
      refine Safe.weaken (hf a t hwithin (hok a rfl)) ?_
      rintro r' - u - ⟨hwithin', hok'⟩
      exact ⟨hwithin.trans hwithin', hok'⟩

theorem Spec.weaken {S : Set Path} {α : Type} {m : Script Path α} {s : Files Path}
    {P Q : α → Files Path → Prop} (h : Spec unzip S m s P)
    (hPQ : ∀ a t, Within S s t → P a t → Q a t) : Spec unzip S m s Q :=
  Safe.weaken h fun _ _ t _ hr => ⟨hr.1, fun a ha => hPQ a t hr.1 (hr.2 a ha)⟩

theorem Spec.pure {S : Set Path} {α : Type} {a : α} {s : Files Path}
    {P : α → Files Path → Prop} (h : P a s) : Spec unzip S (Pure.pure a) s P :=
  safe_pure.mpr ⟨trivial, Within.refl S s, fun _ hb => Except.ok.inj hb ▸ h⟩

theorem Spec.raise {S : Set Path} {α : Type} {e : ArchiveExn} {s : Files Path}
    {P : α → Files Path → Prop} : Spec unzip S (Method.raise e) s P :=
  safe_raise.mpr ⟨trivial, Within.refl S s, nofun⟩

theorem Spec.ofExcept {S : Set Path} {α : Type} {r : Except ArchiveExn α} {s : Files Path}
    {P : α → Files Path → Prop} (h : ∀ a, r = .ok a → P a s) :
    Spec unzip S (Method.ofExcept r) s P :=
  safe_ofExcept.mpr ⟨trivial, Within.refl S s, h⟩

theorem Spec.value {S : Set Path} {α : Type} (r : Except ArchiveExn α) (s : Files Path) :
    Spec unzip S (Method.ofExcept r) s fun a _ => r = .ok a :=
  Spec.ofExcept fun _ h => h

/-- A result at hand changes no file. -/
theorem Spec.bindExcept {S : Set Path} {α β : Type} {r : Except ArchiveExn α}
    {f : α → Script Path β} {s : Files Path} {Q : β → Files Path → Prop}
    (h : ∀ a, r = .ok a → Spec unzip S (f a) s Q) : Spec unzip S (Method.ofExcept r >>= f) s Q := by
  refine safe_bind.mpr (safe_ofExcept.mpr ⟨trivial, ?_⟩)
  cases r with
  | error e => exact ⟨Within.refl S s, nofun⟩
  | ok a => exact h a rfl

/-- The exception of a part may be taken as a value. -/
theorem Spec.attempt {S : Set Path} {α : Type} {m : Script Path α} {s : Files Path}
    {P : α → Files Path → Prop} (h : Spec unzip S m s P) :
    Spec unzip S (Method.attempt m) s fun r t => ∀ a, r = .ok a → P a t := by
  refine safe_attempt.mpr (Safe.weaken h ?_)
  rintro r - t - ⟨hwithin, hok⟩
  exact ⟨hwithin, fun r' hr' => Except.ok.inj hr' ▸ hok⟩

/-- A call that is no rename and no preparation, and that makes and removes no file. -/
def Plain : FileOp Path → Prop
  | .close _ => False
  | .chmod _ => False
  | .replace _ _ => False
  | .mkstemp => False
  | .unlink _ => False
  | _ => True

theorem done_others {op : FileOp Path} (hop : Plain op) {f g : Path → Option Bytes} {a : op.Result}
    (h : op.Done unzip f a g) {q : Path} (hq : op.target ≠ some q) : g q = f q := by
  cases op <;> simp only [Plain, FileOp.Done, FileOp.target] at hop h hq
  case openWrite p =>
    rw [h, Function.update_of_ne fun heq => hq (congrArg some heq.symm)]
  case write p b =>
    obtain ⟨content, -, rfl⟩ := h
    exact Function.update_of_ne (fun heq => hq (congrArg some heq.symm)) _ _
  all_goals first
    | rw [h]
    | rw [h.2]

theorem within_of_answers {S : Set Path} {op : FileOp Path} (hop : Plain op)
    (hS : ∀ p, op.target = some p → p ∈ S) {s t : Files Path} {r : Except ArchiveExn op.Result}
    (h : Files.Answers unzip op s r t) : Within S s t := by
  have hlog : ∃ b, t.log = s.log ++ [(op, b)] := by
    cases r with
    | ok a => exact ⟨true, h.2⟩
    | error e => exact ⟨false, h.2⟩
  obtain ⟨b, hlog⟩ := hlog
  constructor
  · intro q hq
    have htarget : op.target ≠ some q := fun heq => hq (hS q heq)
    cases r with
    | ok a => exact done_others hop h.1 htarget
    | error e =>
        rcases h.1.2 with heq | ⟨p, content, hp, heq⟩
        · rw [heq]
        · have hne : q ≠ p := fun hqp => htarget (hqp ▸ hp)
          rw [heq, Function.update_of_ne hne]
  · rw [hlog]
    exact List.subset_append_left ..
  · intro hprepared p
    rw [hlog]
    constructor
    · intro hmem
      rcases List.mem_append.mp hmem with hmem | hmem
      · exact (hprepared p).1 hmem
      · obtain ⟨rfl, -⟩ := Prod.mk.inj (List.mem_singleton.mp hmem)
        exact hop
    · intro hmem
      rcases List.mem_append.mp hmem with hmem | hmem
      · exact (hprepared p).2 hmem
      · obtain ⟨rfl, -⟩ := Prod.mk.inj (List.mem_singleton.mp hmem)
        exact hop
  · rintro ⟨p, q, hmem⟩
    rw [hlog] at hmem
    rcases List.mem_append.mp hmem with hmem | hmem
    · exact ⟨p, q, hmem⟩
    · obtain ⟨rfl, -⟩ := Prod.mk.inj (List.mem_singleton.mp hmem)
      exact hop.elim

/-- The rule of a call on files. -/
theorem safe_file {op : FileOp Path} {s : Files Path}
    {Q : Except ArchiveExn op.Result → Unit → Files Path → Prop}
    (h : ∀ r t, Files.Answers unzip op s r t → Q r () t) :
    (file op).Safe (Files.world unzip) (fun _ => True) Q () s :=
  safe_call.mpr ⟨trivial, fun _ h => h.elim, fun r t ht => ⟨trivial, h r t ht⟩⟩

theorem Spec.file {S : Set Path} (op : FileOp Path) (hop : Plain op)
    (hS : ∀ p, op.target = some p → p ∈ S) {s : Files Path} :
    Spec unzip S (file op) s fun a t => op.Done unzip s.content a t.content := by
  refine safe_file fun r t h => ⟨?_, ?_⟩
  · exact within_of_answers hop hS h
  · rintro a rfl
    exact h.1

/-! ## The two passes -/

section Passes

variable {s : Files Path} {target : Path} {x : Bytes}

theorem spec_write (hx : s.content target = some x) (b : Bytes) :
    Spec unzip {target} (file (.write target b)) s fun _ t =>
      t.content target = some (x ++ b) := by
  refine (Spec.file (.write target b) trivial fun p hp => (Option.some.inj hp).symm).weaken ?_
  rintro - t - ⟨content, hcontent, ht⟩
  obtain rfl := Option.some.inj (hx.symm.trans hcontent)
  rw [ht, Function.update_self]

theorem spec_writeAll (hx : s.content target = some x) (bs : List Bytes) :
    Spec unzip {target} (writeAll target bs) s fun _ t =>
      t.content target = some (x ++ bs.flatten) := by
  induction bs generalizing s x with
  | nil =>
      apply Spec.pure
      rw [hx, List.flatten_nil, List.append_nil]
  | cons b rest ih =>
      refine (spec_write hx b).bind fun _ t _ ht => (ih ht).weaken fun _ u _ hu => ?_
      rw [hu, List.flatten_cons, List.append_assoc]

theorem spec_emit {α : Type} (hx : s.content target = some x) (e : Option (Emitted α)) :
    Spec unzip {target} (emit target e) s fun a t => ∃ writes,
      e = some ⟨writes, .ok a⟩ ∧ t.content target = some (x ++ writes.flatten) := by
  cases e with
  | none => exact Spec.raise
  | some e =>
      refine (spec_writeAll hx e.writes).bind fun _ t _ ht => Spec.ofExcept fun a ha => ?_
      exact ⟨e.writes, by rw [← ha], ht⟩

/-- A call on the files of others gives what it reads. -/
theorem spec_read (op : FileOp Path) (hop : Plain op) (htarget : op.target = none)
    {S : Set Path} : Spec unzip S (file op) s fun a t => op.Done unzip s.content a t.content :=
  Spec.file op hop fun p hp => by
    rw [htarget] at hp
    cases hp

theorem spec_updateLoop (c : Decryptor) (info : ZipEntry) {fuel remaining offset : Nat}
    {state : c.State} (hfuel : remaining ≤ fuel) (hx : s.content target = some x) :
    Spec unzip {target} (updateLoop c info target fuel remaining offset state) s fun state' t =>
      ∃ chunks, (c.run state chunks).2 = state' ∧
        t.content target = some (x ++ (c.run state chunks).1) ∧
        chunks.flatten.length = remaining ∧
        ∀ content, info.read = .ok content →
          chunks.flatten = (content.drop offset).take remaining := by
  induction fuel generalizing s x remaining offset state with
  | zero =>
      obtain rfl : remaining = 0 := Nat.le_zero.mp hfuel
      exact Spec.pure ⟨[], rfl, by rw [hx, Decryptor.run, List.append_nil], rfl, fun _ _ => rfl⟩
  | succ fuel ih =>
      unfold updateLoop
      by_cases hzero : remaining = 0
      · rw [if_pos hzero]
        subst hzero
        exact Spec.pure ⟨[], rfl, by rw [hx, Decryptor.run, List.append_nil], rfl, fun _ _ => rfl⟩
      · rw [if_neg hzero]
        refine (spec_read (.readMember info offset (min chunkBytes remaining)) trivial rfl).bind
          fun chunk t _ ht => ?_
        obtain ⟨⟨content, hcontent, hchunk⟩, hsame⟩ := ht
        by_cases hempty : chunk = []
        · rw [if_pos hempty]
          exact Spec.raise
        · rw [if_neg hempty]
          have hpos := List.length_pos_iff.mpr hempty
          have hle : chunk.length ≤ remaining := by
            rw [hchunk, List.length_take]
            omega
          have hx' : t.content target = some x := by rw [hsame, hx]
          refine (spec_write hx' (c.update state chunk).1).bind fun _ u _ hu => ?_
          refine (ih (by omega) hu).weaken fun state' v _ hv => ?_
          obtain ⟨chunks, hstate, hwritten, hlength, hflatten⟩ := hv
          refine ⟨chunk :: chunks, hstate, ?_, ?_, ?_⟩
          · rw [hwritten, List.append_assoc]
            rfl
          · rw [List.flatten_cons, List.length_append, hlength]
            omega
          · intro content' hcontent'
            obtain rfl := Except.ok.inj (hcontent.symm.trans hcontent')
            -- the piece is a beginning of what remains
            have hpiece : chunk = (content.drop offset).take chunk.length := by
              rw [hchunk, List.length_take, List.take_eq_take_iff]
              omega
            rw [List.flatten_cons, hflatten content hcontent, ← List.drop_drop]
            obtain ⟨rest, hrest⟩ := Nat.exists_eq_add_of_le hle
            rw [hrest, Nat.add_sub_cancel_left, List.take_add, ← hpiece]

/-- Pass one leaves the authenticated bytes. -/
theorem spec_firstPass (lib : StreamCrypto) (info : ZipEntry) {manifest : ArchiveManifest}
    {aesKey nonce aad : Bytes} (haad : manifest.authenticatedData = .ok aad) :
    Spec unzip {target} (firstPass (lib.decryptor aesKey nonce aad) info target) s fun _ t =>
      ∃ compressed, t.content target = some compressed ∧
        authenticate lib.crypto info manifest aesKey nonce = .ok compressed := by
  refine (spec_read .openMember trivial rfl).bind fun _ t _ _ => ?_
  refine (Spec.file (.openWrite target) trivial fun p hp => (Option.some.inj hp).symm).bind
    fun _ u _ hu => ?_
  have hnew : u.content target = some [] := by
    rw [show u.content = Function.update t.content target (some []) from hu, Function.update_self]
  refine (spec_updateLoop _ info (Nat.le_refl _) hnew).bind fun state v _ hv => ?_
  obtain ⟨chunks, hstate, hwritten, hlength, hflatten⟩ := hv
  generalize hout : ((lib.decryptor aesKey nonce aad).run _ chunks).1 = out at hwritten
  refine (spec_read (.readMember info _ gcmTagBytes) trivial rfl).bind fun tag w _ hw => ?_
  obtain ⟨⟨payload, hpayload, htag⟩, hsame⟩ := hw
  have hbody := hflatten payload hpayload
  rw [List.drop_zero] at hbody
  refine Spec.bindExcept fun _ hcheck => ?_
  have htagLength := of_decide_eq_true (archiveCheck_eq_ok.mp hcheck)
  have hopens := lib.opens aesKey nonce aad chunks tag
  rw [hstate, hout, hbody] at hopens
  have hauth : ∀ compressed, lib.crypto.decrypt aesKey nonce aad
      (payload.take (info.fileSize - gcmTagBytes)) tag = some compressed →
      authenticate lib.crypto info manifest aesKey nonce = .ok compressed := by
    intro compressed hdecrypt
    rw [hbody] at hlength
    rw [htag] at hdecrypt htagLength
    simp only [authenticate, haad, hpayload, ArchiveExn.lift, archiveCheck, hlength, htagLength,
      decide_true, if_true, hdecrypt, bind, Except.bind]
  cases hfinal : (lib.decryptor aesKey nonce aad).finalize state tag with
  | none => exact Spec.raise
  | some rest =>
      rw [hfinal] at hopens
      have hx : w.content target = some out := by rw [hsame, hwritten, List.nil_append]
      refine (spec_write hx rest).attempt.bind fun r t' _ ht' => ?_
      refine Spec.bindExcept fun _ hr => ?_
      refine (Spec.file (.sync target) trivial fun p hp => (Option.some.inj hp).symm).weaken
        fun _ u' _ hu' => ?_
      cases r with
      | error e => cases hr
      | ok a =>
          refine ⟨_, ?_, hauth _ hopens.symm⟩
          rw [show u'.content = t'.content from hu', ht' a rfl]

/-- The loop of pass two passes the compressed file on piece by piece. -/
theorem spec_inflateLoop {d : Inflater UInt8 UInt8} {maxPlaintextBytes : Int} {fuel : Nat}
    {source : Path} (hne : source ≠ target) {compressed : Bytes} {reads offset : Nat} {p : Pass d}
    (hsource : s.content source = some compressed) (hx : s.content target = some x) :
    Spec unzip {target} (inflateLoop maxPlaintextBytes fuel source target reads offset p) s
      fun p' t => ∃ chunks writes, chunks.flatten = compressed.drop offset ∧
        p.drainAll maxPlaintextBytes fuel chunks = some ⟨writes, .ok p'⟩ ∧
        t.content target = some (x ++ writes.flatten) := by
  induction reads generalizing s x offset p with
  | zero => exact Spec.raise
  | succ reads ih =>
      unfold inflateLoop
      refine (spec_read (.read source offset chunkBytes) trivial rfl).bind
        fun chunk t _ ht => ?_
      obtain ⟨⟨content, hcontent, hchunk⟩, hsame⟩ := ht
      obtain rfl := Option.some.inj (hsource.symm.trans hcontent)
      by_cases hempty : chunk = []
      · rw [if_pos hempty]
        apply Spec.pure
        refine ⟨[], [], ?_, rfl, by rw [hsame, hx, List.flatten_nil, List.append_nil]⟩
        rw [hempty] at hchunk
        have hchunkBytes : chunkBytes ≠ 0 := by decide
        exact ((List.take_eq_nil_iff.mp hchunk.symm).resolve_left hchunkBytes).symm
      · rw [if_neg hempty]
        have hx' : t.content target = some x := by rw [hsame, hx]
        refine (spec_emit hx' _).bind fun p₁ u hu h₁ => ?_
        obtain ⟨writes, hdrain, hwritten⟩ := h₁
        have hsource' : u.content source = some compressed := by
          rw [hu.others source hne, hsame, hsource]
        refine (ih hsource' hwritten).weaken fun p' v _ hv => ?_
        obtain ⟨chunks, writes', hflatten, hrest, hfinal⟩ := hv
        refine ⟨chunk :: chunks, writes ++ writes', ?_, ?_, ?_⟩
        · obtain ⟨rest, hrest'⟩ : chunk <+: compressed.drop offset := by
            rw [hchunk]
            exact List.take_prefix ..
          rw [List.flatten_cons, hflatten, ← List.drop_drop, ← hrest', List.drop_left]
        · rw [Pass.drainAll, hdrain, Option.bind_some]
          simp only [Emitted.andThen, hrest, Option.map_some]
        · rw [hfinal, List.flatten_append, List.append_assoc]

theorem spec_secondPassOn (py : Interp) {d : Inflater UInt8 UInt8} {maxPlaintextBytes : Int}
    {fuel : Nat} {source : Path} (hne : source ≠ target) {compressed : Bytes}
    (hsource : s.content source = some compressed) (hx : s.content target = some x) :
    Spec unzip {target} (secondPassOn py d maxPlaintextBytes fuel source target) s fun r t =>
      ∃ chunks writes, chunks.flatten = compressed ∧
        secondPass py d maxPlaintextBytes fuel chunks = some ⟨writes, .ok r⟩ ∧
        t.content target = some (x ++ writes.flatten) := by
  refine (spec_read (.openRead source) trivial rfl).bind fun _ t _ ht => ?_
  have hsame : t.content = s.content := ht
  refine (spec_inflateLoop hne (hsame ▸ hsource) (hsame ▸ hx)).bind fun p u _ hu => ?_
  obtain ⟨chunks, writes, hflatten, hdrain, hwritten⟩ := hu
  refine (spec_emit hwritten _).weaken fun r v _ hv => ?_
  obtain ⟨writes', hfinish, hfinal⟩ := hv
  refine ⟨chunks, writes ++ writes', hflatten, ?_, ?_⟩
  · rw [secondPass, hdrain, Option.bind_some]
    simp only [Emitted.andThen, hfinish, Option.map_some]
  · rw [hfinal, List.flatten_append, List.append_assoc]

end Passes

/-! ## Scratch files -/

/-- A file was made outside of a set and is still there, because its preparation failed. -/
structure Leftover (S : Set Path) (s t : Files Path) : Prop where
  file : ∃ p ∉ S, s.content p = none ∧ t.content p ≠ none
  unprepared : ¬Prepared t.log
  renamed : Renamed t.log → Renamed s.log

omit [DecidableEq Path] in
theorem Leftover.after {S : Set Path} {s t u : Files Path} (h : Leftover S t u)
    (hs : Within S s t) : Leftover S s u := by
  obtain ⟨p, hp, hbefore, hafter⟩ := h.file
  exact ⟨⟨p, hp, hs.others p hp ▸ hbefore, hafter⟩, h.unprepared, hs.renamed ∘ h.renamed⟩

/-- As `Spec`, but a run that raises may leave a scratch file behind. -/
def LooseSpec (unzip : Bytes → Option (List ZipEntry)) (S : Set Path) {α : Type}
    (m : Script Path α) (s : Files Path) (P : α → Files Path → Prop) : Prop :=
  m.Safe (Files.world unzip) (fun _ => True)
    (fun r _ t => (Within S s t ∧ ∀ a, r = .ok a → P a t) ∨
      Leftover S s t ∧ ∃ e, r = .error e) () s

theorem Spec.loose {S : Set Path} {α : Type} {m : Script Path α} {s : Files Path}
    {P : α → Files Path → Prop} (h : Spec unzip S m s P) : LooseSpec unzip S m s P :=
  Safe.weaken h fun _ _ _ _ hr => .inl hr

theorem LooseSpec.bind {S : Set Path} {α β : Type} {m : Script Path α} {f : α → Script Path β}
    {s : Files Path} {P : α → Files Path → Prop} {Q : β → Files Path → Prop}
    (hm : LooseSpec unzip S m s P)
    (hf : ∀ a t, Within S s t → P a t → LooseSpec unzip S (f a) t Q) :
    LooseSpec unzip S (m >>= f) s Q := by
  refine safe_bind.mpr (Safe.weaken hm ?_)
  rintro r ⟨⟩ t - hr
  cases r with
  | error e =>
      rcases hr with ⟨hwithin, -⟩ | ⟨hleft, -⟩
      · exact .inl ⟨hwithin, nofun⟩
      · exact .inr ⟨hleft, e, rfl⟩
  | ok a =>
      obtain ⟨hwithin, hok⟩ : Within S s t ∧ ∀ b, Except.ok (ε := ArchiveExn) a = .ok b → P b t := by
        rcases hr with hr | ⟨-, e, he⟩
        · exact hr
        · cases he
      unfold Then
      refine Safe.weaken (hf a t hwithin (hok a rfl)) ?_
      rintro r' - u - (⟨hwithin', hok'⟩ | ⟨hleft, he⟩)
      · exact .inl ⟨hwithin.trans hwithin', hok'⟩
      · exact .inr ⟨hleft.after hwithin, he⟩

theorem LooseSpec.bindExcept {S : Set Path} {α β : Type} {r : Except ArchiveExn α}
    {f : α → Script Path β} {s : Files Path} {Q : β → Files Path → Prop}
    (h : ∀ a, r = .ok a → LooseSpec unzip S (f a) s Q) :
    LooseSpec unzip S (Method.ofExcept r >>= f) s Q := by
  refine safe_bind.mpr (safe_ofExcept.mpr ⟨trivial, ?_⟩)
  cases r with
  | error e => exact .inl ⟨Within.refl S s, nofun⟩
  | ok a => exact h a rfl

omit [DecidableEq Path] in
theorem not_prepared_of_mem {log : List (FileOp Path × Bool)} {p : Path} {b : Bool}
    {op : FileOp Path} (hop : op = .close p ∨ op = .chmod p) (hb : b = false) :
    ¬Prepared (log ++ [(op, b)]) := by
  subst hb
  intro h
  have hlast : (op, false) ∈ log ++ [(op, false)] := List.mem_append_right _ (List.mem_singleton_self _)
  rcases hop with rfl | rfl
  · exact (h p).1 hlast
  · exact (h p).2 hlast

omit [DecidableEq Path] in
theorem prepared_append {log : List (FileOp Path × Bool)} {entry : FileOp Path × Bool}
    (h : Prepared log) (he : ∀ p, entry ≠ (.close p, false) ∧ entry ≠ (.chmod p, false)) :
    Prepared (log ++ [entry]) := by
  intro p
  simp only [List.mem_append, List.mem_singleton, not_or]
  exact ⟨⟨(h p).1, (he p).1.symm⟩, ⟨(h p).2, (he p).2.symm⟩⟩

omit [DecidableEq Path] in
theorem renamed_append {log : List (FileOp Path × Bool)} {entry : FileOp Path × Bool}
    (he : ∀ p q, entry ≠ (.replace p q, true)) (h : Renamed (log ++ [entry])) : Renamed log := by
  obtain ⟨p, q, hmem⟩ := h
  rcases List.mem_append.mp hmem with hmem | hmem
  · exact ⟨p, q, hmem⟩
  · exact (he p q (List.mem_singleton.mp hmem).symm).elim

/-- A file was made, and nothing else has changed. -/
structure Made (s t : Files Path) (p : Path) : Prop where
  fresh : s.content p = none
  content : t.content = Function.update s.content p (some [])
  kept : s.log ⊆ t.log
  prepared : Prepared s.log → Prepared t.log
  renamed : Renamed t.log → Renamed s.log

theorem Made.after {s t u : Files Path} {p : Path} (h : Made t u p) (hs : Within ∅ s t) :
    Made s u p where
  fresh := by rw [← hs.others p (Set.notMem_empty p), h.fresh]
  content := by
    have hsame : t.content = s.content := funext fun q => hs.others q (Set.notMem_empty q)
    rw [h.content, hsame]
  kept := List.Subset.trans hs.kept h.kept
  prepared hp := h.prepared (hs.prepared hp)
  renamed hr := hs.renamed (h.renamed hr)

theorem fault_content {op : FileOp Path} (hop : op.target = none) {f g : Path → Option Bytes}
    (h : op.Fault f g) : g = f := by
  rcases h.2 with heq | ⟨p, content, hp, -⟩
  · exact heq
  · rw [hop] at hp
    cases hp

/-- The preparation of a new file: when it fails, the file is left behind. -/
theorem safe_prepare {S : Set Path} {s t : Files Path} {p : Path} (h : Made s t p) (hS : p ∉ S)
    {op : FileOp Path} (hop : op = .close p ∨ op = .chmod p) :
    (file op).Safe (Files.world unzip) (fun _ => True)
      (fun r _ u => (∃ a, r = .ok a ∧ Made s u p) ∨ ∃ e, r = .error e ∧ Leftover S s u) () t := by
  have htarget : op.target = none := by rcases hop with rfl | rfl <;> rfl
  have hnoreplace : ∀ b q q', (op, b) ≠ (.replace q q', true) := by
    rcases hop with rfl | rfl <;> exact fun b q q' heq => by cases heq
  refine safe_file fun r u hu => ?_
  cases r with
  | error e =>
      have hsame : u.content = t.content := fault_content htarget hu.1
      have hlog : u.log = t.log ++ [(op, false)] := hu.2
      refine .inr ⟨e, rfl, ⟨p, hS, h.fresh, ?_⟩, ?_, fun hr => ?_⟩
      · rw [hsame, h.content, Function.update_self]
        exact Option.some_ne_none _
      · rw [hlog]
        exact not_prepared_of_mem hop rfl
      · rw [hlog] at hr
        exact h.renamed (renamed_append (hnoreplace false) hr)
  | ok a =>
      have hsame : u.content = t.content := by rcases hop with rfl | rfl <;> exact hu.1
      have hlog : u.log = t.log ++ [(op, true)] := hu.2
      refine .inl ⟨a, rfl, h.fresh, hsame.trans h.content, ?_, fun hp => ?_, fun hr => ?_⟩
      · rw [hlog]
        exact List.Subset.trans h.kept (List.subset_append_left ..)
      · rw [hlog]
        exact prepared_append (h.prepared hp) fun q => by simp
      · rw [hlog] at hr
        exact h.renamed (renamed_append (hnoreplace true) hr)

theorem safe_newScratch {S : Set Path} {s : Files Path} (hS : ∀ p ∈ S, s.content p ≠ none) :
    newScratch.Safe (Files.world unzip) (fun _ => True)
      (fun r _ t => (∃ p, r = .ok p ∧ Made s t p) ∨
        ∃ e, r = .error e ∧ (Within S s t ∨ Leftover S s t)) () s := by
  refine safe_bind.mpr (safe_file fun r t ht => ?_)
  cases r with
  | error e =>
      have hsame : t.content = s.content := fault_content rfl ht.1
      have hlog : t.log = s.log ++ [(.mkstemp, false)] := ht.2
      refine .inr ⟨e, rfl, .inl ⟨fun q _ => by rw [hsame], ?_, fun hp => ?_, fun hr => ?_⟩⟩
      · rw [hlog]
        exact List.subset_append_left ..
      · rw [hlog]
        exact prepared_append hp fun q => by simp
      · rw [hlog] at hr
        exact renamed_append (fun _ _ => by simp) hr
  | ok p =>
      obtain ⟨hfresh, hcontent⟩ := ht.1
      have hlog : t.log = s.log ++ [(.mkstemp, true)] := ht.2
      have hp : p ∉ S := fun hmem => hS p hmem hfresh
      have hmade : Made s t p := by
        refine ⟨hfresh, hcontent, ?_, fun hp => ?_, fun hr => ?_⟩
        · rw [hlog]
          exact List.subset_append_left ..
        · rw [hlog]
          exact prepared_append hp fun q => by simp
        · rw [hlog] at hr
          exact renamed_append (fun _ _ => by simp) hr
      unfold Then
      refine safe_bind.mpr (Safe.weaken (safe_prepare hmade hp (.inl rfl)) ?_)
      rintro r ⟨⟩ u - (⟨a, rfl, hmade⟩ | ⟨e, rfl, hleft⟩)
      · unfold Then
        refine safe_bind.mpr (Safe.weaken (safe_prepare hmade hp (.inr rfl)) ?_)
        rintro r ⟨⟩ v - (⟨a, rfl, hmade⟩ | ⟨e, rfl, hleft⟩)
        · exact ⟨trivial, .inl ⟨p, rfl, hmade⟩⟩
        · exact .inr ⟨e, rfl, .inr hleft⟩
      · exact .inr ⟨e, rfl, .inr hleft⟩

theorem safe_discard {s : Files Path} {p : Path} :
    (discard p).Safe (Files.world unzip) (fun _ => True)
      (fun r _ t => r = .ok () ∧ Within {p} s t ∧ t.content p = none) () s := by
  refine safe_suppress.mpr (@safe_file Path _ unzip (.unlink p) s _ fun r t ht => ?_)
  cases r with
  | error e => exact (ht.1.1 p rfl).elim
  | ok a =>
      have hcontent : t.content = Function.update s.content p none := ht.1
      have hlog : t.log = s.log ++ [(.unlink p, true)] := ht.2
      refine ⟨rfl, ⟨fun q hq => ?_, ?_, fun hp => ?_, fun hr => ?_⟩, ?_⟩
      · rw [hcontent, Function.update_of_ne hq]
      · rw [hlog]
        exact List.subset_append_left ..
      · rw [hlog]
        exact prepared_append hp fun q => by simp
      · rw [hlog] at hr
        exact renamed_append (fun _ _ => by simp) hr
      · rw [hcontent, Function.update_self]

/-- A file that was made and is removed again leaves no trace. -/
theorem Made.removed {S : Set Path} {s t u v : Files Path} {p : Path} (h : Made s t p)
    (hu : Within (insert p S) t u) (hv : Within {p} u v) (hgone : v.content p = none) :
    Within S s v where
  others q hq := by
    by_cases hqp : q = p
    · rw [hqp, hgone, h.fresh]
    · have hout : q ∉ insert p S := fun hmem => (Set.mem_insert_iff.mp hmem).elim hqp hq
      rw [hv.others q hqp, hu.others q hout, h.content, Function.update_of_ne hqp]
  kept := List.Subset.trans h.kept (List.Subset.trans hu.kept hv.kept)
  prepared hp := hv.prepared (hu.prepared (h.prepared hp))
  renamed hr := h.renamed (hu.renamed (hv.renamed hr))

/-! ## The decryption into the scratch file -/

/-- What the two passes make of an entry: the digest and length of a plaintext that the
authenticated bytes are decompressed to. -/
structure Streamed (py : Interp) (lib : StreamCrypto) (fuel : Nat) (info : ZipEntry)
    (manifest : ArchiveManifest) (aesKey nonce : Bytes) (maxPlaintextBytes : Int)
    (compressed plaintext : Bytes) (r : Nat × Str) : Prop where
  authentic : authenticate lib.crypto info manifest aesKey nonce = .ok compressed
  inflated : ∃ chunks writes, chunks.flatten = compressed ∧ writes.flatten = plaintext ∧
    secondPass py lib.inflater maxPlaintextBytes fuel chunks = some ⟨writes, .ok r⟩

theorem Spec.mono {S S' : Set Path} (hS : S ⊆ S') {α : Type} {m : Script Path α} {s : Files Path}
    {P : α → Files Path → Prop} (h : Spec unzip S m s P) : Spec unzip S' m s P :=
  Safe.weaken h fun _ _ _ _ hr => ⟨hr.1.mono hS, hr.2⟩

/-- The scratch file of the compressed bytes is gone behind the passes, unless its preparation
failed. -/
theorem spec_streamDecrypt (py : Interp) (lib : StreamCrypto) (fuel : Nat) (info : ZipEntry)
    (manifest : ArchiveManifest) (aesKey nonce : Bytes) (maxPlaintextBytes : Int) {plain : Path}
    {s : Files Path} (hplain : s.content plain = some []) :
    LooseSpec unzip {plain}
      (streamDecrypt py lib fuel info manifest aesKey nonce maxPlaintextBytes plain) s
      fun r t => ∃ compressed plaintext, t.content plain = some plaintext ∧
        Streamed py lib fuel info manifest aesKey nonce maxPlaintextBytes compressed plaintext r := by
  refine LooseSpec.bindExcept fun aad haad => ?_
  have haad := lift_eq_ok.mp haad
  have hexists : ∀ p ∈ ({plain} : Set Path), s.content p ≠ none := by
    rintro p rfl
    rw [hplain]
    exact Option.some_ne_none _
  refine safe_bind.mpr (Safe.weaken (safe_newScratch hexists) ?_)
  rintro r ⟨⟩ t - (⟨compressed, rfl, hmade⟩ | ⟨e, rfl, hwithin | hleft⟩)
  · have hne : plain ≠ compressed := by
      rintro rfl
      rw [hmade.fresh] at hplain
      cases hplain
    have hplain' : t.content plain = some [] := by
      rw [hmade.content, Function.update_of_ne hne, hplain]
    have hbody : Spec unzip {compressed, plain} (do
        firstPass (lib.decryptor aesKey nonce aad) info compressed
        secondPassOn py lib.inflater maxPlaintextBytes fuel compressed plain) t
        fun r u => ∃ b plaintext, u.content plain = some plaintext ∧
          Streamed py lib fuel info manifest aesKey nonce maxPlaintextBytes b plaintext r := by
      have hfirst := @spec_firstPass Path _ unzip t compressed lib info manifest aesKey nonce aad haad
      refine Spec.bind (P := fun _ u => u.content plain = some [] ∧ ∃ b,
          u.content compressed = some b ∧
            authenticate lib.crypto info manifest aesKey nonce = .ok b) ?_ ?_
      · refine (hfirst.weaken ?_).mono (Set.singleton_subset_iff.mpr (Set.mem_insert ..))
        rintro - u hu ⟨b, hb, hauth⟩
        exact ⟨by rw [hu.others plain hne, hplain'], b, hb, hauth⟩
      · rintro - u - ⟨hplain, b, hb, hauth⟩
        refine ((spec_secondPassOn py hne.symm hb hplain).weaken ?_).mono (Set.subset_insert ..)
        rintro r v - ⟨chunks, writes, hchunks, hpass, hwritten⟩
        exact ⟨b, _, hwritten, hauth, chunks, writes, hchunks, rfl, hpass⟩
    unfold Then
    refine safe_bind.mpr (safe_attempt.mpr (Safe.weaken hbody ?_))
    rintro r ⟨⟩ u - ⟨hwithin, hok⟩
    unfold Then
    refine safe_bind.mpr (Safe.weaken safe_discard ?_)
    rintro - ⟨⟩ v - ⟨rfl, hdiscard, hgone⟩
    unfold Then
    refine safe_ofExcept.mpr ⟨trivial, .inl ⟨hmade.removed hwithin hdiscard hgone, ?_⟩⟩
    intro a ha
    obtain ⟨b, plaintext, hwritten, hstreamed⟩ := hok a ha
    exact ⟨b, plaintext, by rw [hdiscard.others plain hne, hwritten], hstreamed⟩
  · exact .inl ⟨hwithin, nofun⟩
  · exact .inr ⟨hleft, e, rfl⟩

/-- The plaintext of an archive: its ciphertext and manifest are authentic, and it has the
digest and the length of the manifest, within the limit. -/
structure Authentic (py : Interp) (lib : StreamCrypto) (fuel : Nat) (file : ArchiveFile)
    (privateKey : Bytes) (maxArchiveBytes maxPlaintextBytes : Int) (manifest : ArchiveManifest)
    (plaintext : Bytes) : Prop where
  opened : ∃ compressed, openArchive py lib.crypto file privateKey maxArchiveBytes
    maxPlaintextBytes = .ok (manifest, compressed) ∧
    ∃ chunks writes r, chunks.flatten = compressed ∧ writes.flatten = plaintext ∧
      secondPass py lib.inflater maxPlaintextBytes fuel chunks = some ⟨writes, .ok r⟩
  digest : manifest.plaintextSha3 = .str (py.sha3_256 plaintext)
  length : (plaintext.length : Int) = manifest.plaintextLength
  bounded : (plaintext.length : Int) ≤ maxPlaintextBytes

section Decrypt

variable {py : Interp} {lib : StreamCrypto} {fuel : Nat} {source : Path} {privateKey : Bytes}
  {maxArchiveBytes maxPlaintextBytes : Int}

/-- What stands in the scratch file when it is to be renamed. -/
theorem spec_decryptInto (ha : 0 < maxArchiveBytes) (hp : 0 < maxPlaintextBytes) {plain : Path}
    {s : Files Path} {archive : Bytes} (hsource : s.content source = some archive)
    (hsize : (archive.length : Int) ≤ maxArchiveBytes) :
    LooseSpec unzip {plain}
      (decryptInto py lib fuel source privateKey maxArchiveBytes maxPlaintextBytes plain) s
      fun m t => ∃ plaintext, t.content plain = some plaintext ∧
        Authentic py lib fuel ⟨archive.length, unzip archive⟩ privateKey maxArchiveBytes
          maxPlaintextBytes m plaintext := by
  refine (spec_read (.openZip source) trivial rfl).loose.bind fun entries t _ ht => ?_
  obtain ⟨hentries, -⟩ := ht
  rw [hsource, Option.bind_some] at hentries
  refine (spec_read .readManifest trivial rfl).loose.bind fun _ u _ _ => ?_
  refine LooseSpec.bindExcept fun p hread => ?_
  obtain ⟨manifest, info⟩ := p
  refine LooseSpec.bindExcept fun p hkey => ?_
  obtain ⟨aesKey, nonce⟩ := p
  refine (Spec.file (.openWrite plain) trivial
    fun q hq => (Option.some.inj hq).symm).loose.bind fun _ v _ hv => ?_
  have hnew : v.content plain = some [] := by
    rw [show v.content = Function.update u.content plain (some []) from hv, Function.update_self]
  refine (spec_streamDecrypt py lib fuel info manifest aesKey nonce maxPlaintextBytes hnew).bind
    fun r w _ hw => ?_
  obtain ⟨written, digest⟩ := r
  obtain ⟨compressed, plaintext, hplain, hstreamed⟩ := hw
  refine (Spec.file (.sync plain) trivial
    fun q hq => (Option.some.inj hq).symm).loose.bind fun _ x _ hx => ?_
  have hsame : x.content = w.content := hx
  refine LooseSpec.bindExcept fun _ hcheck => (Spec.pure ?_).loose
  obtain ⟨chunks, writes, hchunks, hwrites, hpass⟩ := hstreamed.inflated
  obtain ⟨hresult, hbound⟩ := secondPass_counts hp hpass
  rw [hwrites] at hresult hbound
  obtain ⟨rfl, rfl⟩ := Prod.mk.inj hresult
  have hmatch := archiveCheck_eq_ok.mp hcheck
  rw [Bool.and_eq_true, isText_iff, decide_eq_true_eq] at hmatch
  refine ⟨plaintext, hsame ▸ hplain, ⟨compressed, ?_, chunks, writes, _, hchunks, hwrites, hpass⟩,
    hmatch.1, hmatch.2, hbound⟩
  have hopen : ArchiveFile.open ⟨archive.length, unzip archive⟩ = .ok entries := by
    rw [ArchiveFile.open, hentries]
  simp only [openArchive, positive, archiveCheck, decide_eq_true ha, decide_eq_true hp,
    decide_eq_true hsize, if_true, hopen, hread, hkey, hstreamed.authentic, bind, Except.bind,
    pure, Except.pure]

/-! ## The whole run -/

/-- What a run leaves of the files: all of them as they were, unless the plaintext was renamed
onto the destination, which is the only file that may be another one then. -/
structure Shielded (Good : ArchiveManifest → Bytes → Prop) (destination : Option Path)
    (before : Path → Option Bytes) (r : Except ArchiveExn (ArchiveManifest × Option Path))
    (t : Files Path) : Prop where
  unchanged : ¬Renamed t.log → t.content = before
  others : ∀ q, destination ≠ some q → t.content q = before q
  exposed : ∀ d, destination = some d → t.content d ≠ before d →
    ∃ m plaintext, t.content d = some plaintext ∧ Good m plaintext
  returned : ∀ m d, r = .ok (m, some d) → ∃ plaintext, t.content d = some plaintext ∧ Good m plaintext

omit [DecidableEq Path] in
/-- A run that changes nothing and renames nothing. -/
theorem Shielded.of_unchanged {Good : ArchiveManifest → Bytes → Prop} {destination : Option Path}
    {before : Path → Option Bytes} {r : Except ArchiveExn (ArchiveManifest × Option Path)}
    {t : Files Path} (h : t.content = before) (hr : ∀ m d, r ≠ .ok (m, some d)) :
    Shielded Good destination before r t where
  unchanged _ := h
  others q _ := by rw [h]
  exposed d _ hne := (hne (by rw [h])).elim
  returned m d hok := (hr m d hok).elim

/-- The outcome of a run: the files are shielded exactly if no preparation of a scratch file
failed before the rename. -/
def Verdict (Good : ArchiveManifest → Bytes → Prop) (destination : Option Path)
    (before : Path → Option Bytes) (r : Except ArchiveExn (ArchiveManifest × Option Path))
    (t : Files Path) : Prop :=
  Shielded Good destination before r t ↔ Renamed t.log ∨ Prepared t.log

omit [DecidableEq Path] in
theorem Verdict.of_within {Good : ArchiveManifest → Bytes → Prop} {destination : Option Path}
    {s t : Files Path} (hp : Prepared s.log) (h : Within ∅ s t)
    {r : Except ArchiveExn (ArchiveManifest × Option Path)} (hr : ∀ m d, r ≠ .ok (m, some d)) :
    Verdict Good destination s.content r t := by
  have hsame : t.content = s.content := funext fun q => h.others q (Set.notMem_empty q)
  exact ⟨fun _ => .inr (h.prepared hp), fun _ => .of_unchanged hsame hr⟩

omit [DecidableEq Path] in
theorem Verdict.of_leftover {Good : ArchiveManifest → Bytes → Prop} {destination : Option Path}
    {s t : Files Path} (hn : ¬Renamed s.log) {S : Set Path} (h : Leftover S s t)
    {r : Except ArchiveExn (ArchiveManifest × Option Path)} :
    Verdict Good destination s.content r t := by
  have hnot : ¬Renamed t.log := fun hr => hn (h.renamed hr)
  obtain ⟨p, -, hbefore, hafter⟩ := h.file
  constructor
  · intro hshielded
    rw [hshielded.unchanged hnot] at hafter
    exact (hafter hbefore).elim
  · rintro (hr | hprepared)
    · exact (hnot hr).elim
    · exact (h.unprepared hprepared).elim

/-- A part before the first scratch file. -/
theorem Spec.verdict {Good : ArchiveManifest → Bytes → Prop} {destination : Option Path}
    {s t : Files Path} (hp : Prepared s.log) (hst : Within ∅ s t) {α : Type} {m : Script Path α}
    {P : α → Files Path → Prop} (hm : Spec unzip ∅ m t P)
    {f : α → Script Path (ArchiveManifest × Option Path)}
    (hf : ∀ a u, Within ∅ s u → P a u → (f a).Safe (Files.world unzip) (fun _ => True)
      (fun r _ v => Verdict Good destination s.content r v) () u) :
    (m >>= f).Safe (Files.world unzip) (fun _ => True)
      (fun r _ v => Verdict Good destination s.content r v) () t := by
  refine safe_bind.mpr (Safe.weaken hm ?_)
  rintro r ⟨⟩ u - ⟨hwithin, hok⟩
  cases r with
  | error e => exact Verdict.of_within hp (hst.trans hwithin) nofun
  | ok a => exact hf a u (hst.trans hwithin) (hok a rfl)

/-- The rename, and what stands between it and the end of the run. -/
theorem safe_publish {plain : Path} {destination : Option Path} {s : Files Path}
    {plaintext : Bytes} (hplain : s.content plain = some plaintext) :
    (publish plain destination).Safe (Files.world unzip) (fun _ => True)
      (fun r _ t => (Within ∅ s t ∧ (r = .ok () → destination = none)) ∨
        ∃ d, destination = some d ∧ Renamed t.log ∧ t.content =
          Function.update (Function.update s.content plain none) d (some plaintext)) () s := by
  cases destination with
  | none => exact safe_pure.mpr ⟨trivial, .inl ⟨Within.refl ∅ s, fun _ => rfl⟩⟩
  | some d =>
      refine safe_bind.mpr (@safe_file Path _ unzip (.replace plain d) s _ fun r t ht => ?_)
      cases r with
      | error e =>
          have hsame : t.content = s.content := fault_content rfl ht.1
          have hlog : t.log = s.log ++ [(.replace plain d, false)] := ht.2
          refine .inl ⟨⟨fun q _ => by rw [hsame], ?_, fun hp => ?_, fun hr => ?_⟩, nofun⟩
          · rw [hlog]
            exact List.subset_append_left ..
          · rw [hlog]
            exact prepared_append hp fun q => by simp
          · rw [hlog] at hr
            exact renamed_append (fun _ _ => by simp) hr
      | ok a =>
          obtain ⟨content, hcontent, hmoved⟩ := ht.1
          obtain rfl := Option.some.inj (hplain.symm.trans hcontent)
          have hlog : t.log = s.log ++ [(.replace plain d, true)] := ht.2
          unfold Then
          refine @safe_file Path _ unzip (.chmod d) t _ fun r u hu => .inr ⟨d, rfl, ?_, ?_⟩
          · have hmem : (.replace plain d, true) ∈ t.log := by
              rw [hlog]
              exact List.mem_append_right _ (List.mem_singleton_self _)
            cases r with
            | ok a => exact ⟨plain, d, by rw [hu.2]; exact List.mem_append_left _ hmem⟩
            | error e => exact ⟨plain, d, by rw [hu.2]; exact List.mem_append_left _ hmem⟩
          · rw [← hmoved]
            cases r with
            | ok a => exact hu.1
            | error e => exact fault_content rfl hu.1

theorem spec_refuseExisting (overwrite : Bool) (destination : Option Path) {s : Files Path} :
    Spec unzip ∅ (refuseExisting overwrite destination) s fun _ _ => True := by
  cases destination with
  | none => exact Spec.pure trivial
  | some d =>
      exact (spec_read (.present d) trivial rfl).bind fun _ _ _ _ =>
        Spec.ofExcept fun _ _ => trivial

/-- A scratch file that is removed before the run raises or returns. -/
theorem safe_dropped {Good : ArchiveManifest → Bytes → Prop} {destination : Option Path}
    {s t u : Files Path} {plain : Path} (hp : Prepared s.log) (hmade : Made s t plain)
    (hu : Within {plain} t u) {r : Except ArchiveExn (ArchiveManifest × Option Path)}
    (hr : ∀ m d, r ≠ .ok (m, some d)) :
    (discard plain >>= fun _ => Method.ofExcept r).Safe (Files.world unzip) (fun _ => True)
      (fun r _ v => Verdict Good destination s.content r v) () u := by
  refine safe_bind.mpr (Safe.weaken safe_discard ?_)
  rintro - ⟨⟩ v - ⟨rfl, hdiscard, hgone⟩
  unfold Then
  have hinsert : Within (insert plain ∅) t u := by
    rw [insert_empty_eq]
    exact hu
  exact safe_ofExcept.mpr ⟨trivial,
    Verdict.of_within hp (hmade.removed hinsert hdiscard hgone) hr⟩

/-- The scratch file of the plaintext is removed, but another one is still there. -/
theorem safe_dropped_leftover {Good : ArchiveManifest → Bytes → Prop}
    {destination : Option Path} {s t u : Files Path} {plain : Path} (hn : ¬Renamed s.log)
    (hmade : Made s t plain) (hleft : Leftover {plain} t u) (e : ArchiveExn) :
    (discard plain >>= fun _ => (Method.raise e :
        Script Path (ArchiveManifest × Option Path))).Safe (Files.world unzip) (fun _ => True)
      (fun r _ v => Verdict Good destination s.content r v) () u := by
  refine safe_bind.mpr (Safe.weaken safe_discard ?_)
  rintro - ⟨⟩ v - ⟨rfl, hdiscard, -⟩
  unfold Then
  refine safe_raise.mpr ⟨trivial, ?_⟩
  obtain ⟨q, hq, hbefore, hafter⟩ := hleft.file
  refine Verdict.of_leftover hn (S := ∅) ⟨⟨q, Set.notMem_empty q, ?_, ?_⟩, ?_, ?_⟩
  · rw [hmade.content, Function.update_of_ne hq] at hbefore
    exact hbefore
  · rw [hdiscard.others q hq]
    exact hafter
  · intro hprepared
    exact hleft.unprepared fun p =>
      ⟨fun h => (hprepared p).1 (hdiscard.kept h), fun h => (hprepared p).2 (hdiscard.kept h)⟩
  · exact fun hr => hmade.renamed (hleft.renamed (hdiscard.renamed hr))

/-- What is left behind the rename. -/
theorem Shielded.of_renamed {Good : ArchiveManifest → Bytes → Prop} {d : Path}
    {before : Path → Option Bytes} {r : Except ArchiveExn (ArchiveManifest × Option Path)}
    {t : Files Path} {m : ArchiveManifest} {plaintext : Bytes} (hr : Renamed t.log)
    (hcontent : t.content = Function.update before d (some plaintext)) (hgood : Good m plaintext)
    (hresult : ∀ m' d', r = .ok (m', some d') → m' = m ∧ d' = d) :
    Shielded Good (some d) before r t where
  unchanged hnot := (hnot hr).elim
  others q hq := by rw [hcontent, Function.update_of_ne fun h => hq (congrArg some h.symm)]
  exposed d' hd _ := by
    obtain rfl := Option.some.inj hd
    exact ⟨m, plaintext, by rw [hcontent, Function.update_self], hgood⟩
  returned m' d' hok := by
    obtain ⟨rfl, rfl⟩ := hresult m' d' hok
    exact ⟨plaintext, by rw [hcontent, Function.update_self], hgood⟩

/-- The run raises after the rename: the name of the scratch file is free by then. -/
theorem safe_dropped_renamed {Good : ArchiveManifest → Bytes → Prop} {d plain : Path}
    {before : Path → Option Bytes} {u : Files Path} {m : ArchiveManifest} {plaintext : Bytes}
    (hfresh : before plain = none) (hr : Renamed u.log)
    (hcontent : u.content = Function.update before d (some plaintext)) (hgood : Good m plaintext)
    (e : ArchiveExn) :
    (discard plain >>= fun _ => (Method.raise e :
        Script Path (ArchiveManifest × Option Path))).Safe (Files.world unzip) (fun _ => True)
      (fun r _ v => Verdict Good (some d) before r v) () u := by
  refine safe_bind.mpr (Safe.weaken safe_discard ?_)
  rintro - ⟨⟩ v - ⟨rfl, hdiscard, hgone⟩
  unfold Then
  have hrenamed : Renamed v.log := by
    obtain ⟨p, q, hmem⟩ := hr
    exact ⟨p, q, hdiscard.kept hmem⟩
  refine safe_raise.mpr ⟨trivial, fun _ => .inl hrenamed, fun _ => ?_⟩
  have hothers : ∀ q, q ≠ plain → v.content q = u.content q := hdiscard.others
  refine ⟨fun hnot => (hnot hrenamed).elim, fun q hq => ?_, fun d' hd hne => ?_, nofun⟩
  · by_cases hplain : q = plain
    · rw [hplain, hgone, hfresh]
    · rw [hothers q hplain, hcontent, Function.update_of_ne fun h => hq (congrArg some h.symm)]
  · obtain rfl := Option.some.inj hd
    by_cases hplain : d = plain
    · rw [hplain, hgone, hfresh] at hne
      exact (hne rfl).elim
    · exact ⟨m, plaintext, by rw [hothers d hplain, hcontent, Function.update_self], hgood⟩

/-- Every run is shielded, or a preparation of a scratch file has failed in it. -/
theorem safe_decryptArchiveOn {destination : Option Path} {overwrite : Bool} {s : Files Path}
    (hp : Prepared s.log) (hn : ¬Renamed s.log) :
    (decryptArchiveOn py lib fuel source privateKey destination maxArchiveBytes maxPlaintextBytes
      overwrite).Safe (Files.world unzip) (fun _ => True)
      (fun r _ t => Verdict (fun m plaintext => ∃ archive, s.content source = some archive ∧
        Authentic py lib fuel ⟨archive.length, unzip archive⟩ privateKey maxArchiveBytes
          maxPlaintextBytes m plaintext) destination s.content r t) () s := by
  unfold decryptArchiveOn
  refine Spec.verdict hp (Within.refl ∅ s) (Spec.value ..) fun _ s₁ h₁ harchive => ?_
  refine Spec.verdict hp h₁ (Spec.value ..) fun _ s₂ h₂ hplaintext => ?_
  refine Spec.verdict hp h₂ (spec_read (.isFile source) trivial rfl) fun found s₃ h₃ hfound => ?_
  refine Spec.verdict hp h₃ (Spec.value ..) fun _ s₄ h₄ hcheck => ?_
  refine Spec.verdict hp h₄ (spec_read (.size source) trivial rfl) fun size s₅ h₅ hsize => ?_
  refine Spec.verdict hp h₅ (Spec.value ..) fun _ s₆ h₆ hfits => ?_
  refine Spec.verdict hp h₆ (spec_refuseExisting overwrite destination) fun _ s₇ h₇ _ => ?_
  refine Spec.verdict hp h₇ (spec_read .mkdir trivial rfl) fun _ s₈ h₈ _ => ?_
  have hpos := of_decide_eq_true (archiveCheck_eq_ok.mp harchive)
  have hpos' := of_decide_eq_true (archiveCheck_eq_ok.mp hplaintext)
  have hle := of_decide_eq_true (archiveCheck_eq_ok.mp hfits)
  -- the archive exists, with the size that was checked
  have hsame₄ : s₄.content = s.content := funext fun q => h₄.others q (Set.notMem_empty q)
  have hsame₈ : s₈.content = s.content := funext fun q => h₈.others q (Set.notMem_empty q)
  obtain ⟨archive, hbefore, hlength⟩ := Option.map_eq_some_iff.mp hsize.1
  rw [hsame₄] at hbefore
  rw [← hlength] at hle
  have hempty : ∀ p ∈ (∅ : Set Path), s₈.content p ≠ none := fun p hp => hp.elim
  refine safe_bind.mpr (Safe.weaken (safe_newScratch hempty) ?_)
  rintro r ⟨⟩ s₉ - (⟨plain, rfl, hmade⟩ | ⟨e, rfl, hwithin | hleft⟩)
  · have hne : source ≠ plain := by
      rintro rfl
      have hfresh := hmade.fresh
      rw [hsame₈, hbefore] at hfresh
      cases hfresh
    have hsource : s₉.content source = some archive := by
      rw [hmade.content, Function.update_of_ne hne, hsame₈, hbefore]
    unfold Then
    refine safe_bind.mpr (safe_attempt.mpr (safe_bind.mpr
      (Safe.weaken (spec_decryptInto hpos hpos' hsource hle) ?_)))
    rintro r ⟨⟩ u - (⟨hwithin, hok⟩ | ⟨hleft, e, rfl⟩)
    · cases r with
      | error e => exact safe_dropped hp (hmade.after h₈) hwithin nofun
      | ok m =>
          obtain ⟨plaintext, hplain, hauthentic⟩ := hok m rfl
          unfold Then
          refine safe_bind.mpr (Safe.weaken (safe_publish hplain) ?_)
          rintro r ⟨⟩ v - (⟨hquiet, hnone⟩ | ⟨d, rfl, hrenamed, hcontent⟩)
          · have hall : Within {plain} s₉ v := hwithin.trans (hquiet.mono (Set.empty_subset _))
            cases r with
            | error e => exact safe_dropped hp (hmade.after h₈) hall nofun
            | ok a =>
                obtain rfl := hnone rfl
                exact ⟨trivial, safe_dropped hp (hmade.after h₈) hall nofun⟩
          · have hmoved : v.content = Function.update s.content d (some plaintext) := by
              have hmade' := hmade.after h₈
              rw [hcontent]
              congr 1
              funext q
              by_cases hq : q = plain
              · rw [hq, Function.update_self, hmade'.fresh]
              · rw [Function.update_of_ne hq, hwithin.others q hq, hmade'.content,
                  Function.update_of_ne hq]
            cases r with
            | error e =>
                exact safe_dropped_renamed (hmade.after h₈).fresh hrenamed hmoved
                  ⟨archive, hbefore, hauthentic⟩ _
            | ok a =>
                refine ⟨trivial, safe_pure.mpr ⟨trivial, ?_⟩⟩
                refine ⟨fun _ => .inl hrenamed, fun _ => ?_⟩
                refine .of_renamed hrenamed hmoved ⟨archive, hbefore, hauthentic⟩ ?_
                rintro m' d' hok'
                obtain ⟨rfl, hd⟩ := Prod.mk.inj (Except.ok.inj hok')
                exact ⟨rfl, (Option.some.inj hd).symm⟩
    · exact safe_dropped_leftover hn (hmade.after h₈) hleft _
  · exact Verdict.of_within hp (h₈.trans hwithin) nofun
  · exact Verdict.of_leftover hn (hleft.after h₈)

/-- A run leaves the files shielded, with an authentic plaintext at the destination or every
file as it was, exactly if no call to close or to protect a new scratch file failed in it. -/
theorem decryptArchive_shielded_iff {destination : Option Path} {overwrite : Bool}
    {before : Path → Option Bytes} {r : Except ArchiveExn (ArchiveManifest × Option Path)}
    {t : Files Path}
    (h : (decryptArchiveOn py lib fuel source privateKey destination maxArchiveBytes
      maxPlaintextBytes overwrite).Ends (Files.world unzip) () ⟨before, []⟩ r () t) :
    Shielded (fun m plaintext => ∃ archive, before source = some archive ∧
        Authentic py lib fuel ⟨archive.length, unzip archive⟩ privateKey maxArchiveBytes
          maxPlaintextBytes m plaintext) destination before r t ↔
      Renamed t.log ∨ Prepared t.log := by
  have hp : Prepared (⟨before, []⟩ : Files Path).log := fun p => ⟨nofun, nofun⟩
  have hn : ¬Renamed (⟨before, []⟩ : Files Path).log := by
    rintro ⟨p, q, hmem⟩
    cases hmem
  exact (safe_decryptArchiveOn hp hn).ends h

end Decrypt

/-! ## Runs on numbered files -/

/-- What a call returns and leaves when it succeeds. A new file gets a given number. -/
def act (unzip : Bytes → Option (List ZipEntry)) (fresh : Nat) :
    (op : FileOp Nat) → (Nat → Option Bytes) → Option (op.Result × (Nat → Option Bytes))
  | .isFile p, f => some ((f p).isSome, f)
  | .size p, f => (f p).map fun b => (b.length, f)
  | .present p, f => some ((f p).isSome, f)
  | .mkstemp, f => if f fresh = none then some (fresh, Function.update f fresh (some [])) else none
  | .openZip p, f => ((f p).bind unzip).map fun entries => (entries, f)
  | .readMember e offset n, f => e.read.toOption.map fun b => ((b.drop offset).take n, f)
  | .read p offset n, f => (f p).map fun b => ((b.drop offset).take n, f)
  | .openWrite p, f => some ((), Function.update f p (some []))
  | .write p b, f => (f p).map fun content => ((), Function.update f p (some (content ++ b)))
  | .unlink p, f => some ((), Function.update f p none)
  | .replace p q, f =>
      (f p).map fun content => ((), Function.update (Function.update f p none) q (some content))
  | .mkdir, f => some ((), f)
  | .close _, f => some ((), f)
  | .chmod _, f => some ((), f)
  | .readManifest, f => some ((), f)
  | .openMember, f => some ((), f)
  | .sync _, f => some ((), f)
  | .openRead _, f => some ((), f)

/-- Calls succeed where they can, but for those that are chosen to fail. -/
def serve (unzip : Bytes → Option (List ZipEntry)) (fails : FileOp Nat → Bool)
    (op : FileOp Nat) (s : Files Nat) : Except ArchiveExn op.Result × Files Nat :=
  match if fails op then none else act unzip (s.log.length + 10) op s.content with
  | some (a, f) => (.ok a, ⟨f, s.log ++ [(op, true)]⟩)
  | none => (.error (.passed .osError), ⟨s.content, s.log ++ [(op, false)]⟩)

theorem act_done {unzip : Bytes → Option (List ZipEntry)} {fresh : Nat} {op : FileOp Nat}
    {f g : Nat → Option Bytes} {a : op.Result} (h : act unzip fresh op f = some (a, g)) :
    op.Done unzip f a g := by
  cases op
  case mkstemp =>
    have h : (if f fresh = none then some (fresh, Function.update f fresh (some [])) else none) =
      some (a, g) := h
    split_ifs at h with hfresh
    obtain ⟨rfl, rfl⟩ := Prod.mk.inj (Option.some.inj h)
    exact ⟨hfresh, rfl⟩
  case readMember e offset n =>
    obtain ⟨b, hb, h⟩ := Option.map_eq_some_iff.mp h
    obtain ⟨rfl, rfl⟩ := Prod.mk.inj h
    cases hread : e.read with
    | error x =>
        rw [hread] at hb
        cases hb
    | ok content =>
        rw [hread] at hb
        obtain rfl := Option.some.inj hb
        exact ⟨⟨content, hread, rfl⟩, rfl⟩
  case size p =>
    obtain ⟨b, hb, h⟩ := Option.map_eq_some_iff.mp h
    obtain ⟨rfl, rfl⟩ := Prod.mk.inj h
    exact ⟨by rw [hb]; rfl, rfl⟩
  case openZip p =>
    obtain ⟨entries, hentries, h⟩ := Option.map_eq_some_iff.mp h
    obtain ⟨rfl, rfl⟩ := Prod.mk.inj h
    exact ⟨hentries, rfl⟩
  case read p offset n =>
    obtain ⟨b, hb, h⟩ := Option.map_eq_some_iff.mp h
    obtain ⟨rfl, rfl⟩ := Prod.mk.inj h
    exact ⟨⟨b, hb, rfl⟩, rfl⟩
  case write p b =>
    obtain ⟨content, hcontent, h⟩ := Option.map_eq_some_iff.mp h
    obtain ⟨-, rfl⟩ := Prod.mk.inj h
    exact ⟨content, hcontent, rfl⟩
  case replace p q =>
    obtain ⟨content, hcontent, h⟩ := Option.map_eq_some_iff.mp h
    obtain ⟨-, rfl⟩ := Prod.mk.inj h
    exact ⟨content, hcontent, rfl⟩
  case isFile p =>
    obtain ⟨rfl, rfl⟩ := Prod.mk.inj (Option.some.inj h)
    exact ⟨rfl, rfl⟩
  case present p =>
    obtain ⟨rfl, rfl⟩ := Prod.mk.inj (Option.some.inj h)
    exact ⟨rfl, rfl⟩
  all_goals
    obtain ⟨-, rfl⟩ := Prod.mk.inj (Option.some.inj h)
    rfl

theorem answers_serve {unzip : Bytes → Option (List ZipEntry)} {fails : FileOp Nat → Bool}
    (hfails : ∀ p, fails (.unlink p) = false) (op : FileOp Nat) (s : Files Nat) :
    (Files.world unzip).answers op s (serve unzip fails op s).1 (serve unzip fails op s).2 := by
  unfold serve
  split
  · next a f hact =>
      split_ifs at hact
      exact ⟨act_done hact, rfl⟩
  · next hact =>
      refine ⟨⟨fun p hp => ?_, .inl rfl⟩, rfl⟩
      subst hp
      rw [hfails p] at hact
      cases hact

/-- The cipher of the samples, in pieces. -/
def keyedDecryptor (key : Bytes) : Decryptor :=
  ⟨Unit, (), fun _ b => (b, ()), fun _ tag => if tag = keyTag key then some [] else none⟩

theorem keyedDecryptor_run (key : Bytes) (chunks : List Bytes) :
    (keyedDecryptor key).run () chunks = (chunks.flatten, ()) := by
  induction chunks with
  | nil => rfl
  | cons chunk rest ih =>
      show (chunk ++ ((keyedDecryptor key).run () rest).1, ((keyedDecryptor key).run () rest).2) = _
      rw [ih]
      rfl

/-- The libraries of the samples, in pieces. -/
def keyedStream : StreamCrypto where
  crypto := keyedCrypto
  decryptor key _ _ := keyedDecryptor key
  inflater := Inflater.ofOneShot some
  opens key nonce aad chunks tag := by
    rw [show (keyedDecryptor key).run (keyedDecryptor key).start chunks = _ from
      keyedDecryptor_run key chunks]
    show (if tag = keyTag key then some [] else none).map (chunks.flatten ++ ·) =
      if tag = keyTag key then some chunks.flatten else none
    split_ifs with htag
    · exact congrArg some (List.append_nil _)
    · rfl

/-- The run of a decryption of the file 0 into the file 1. -/
def numbered (unzip : Bytes → Option (List ZipEntry)) (fails : FileOp Nat → Bool)
    (before : Nat → Option Bytes) :
    (Except ArchiveExn (ArchiveManifest × Option Nat) × Unit) × Files Nat :=
  Prog.exec (serve unzip fails)
    (decryptArchiveOn .unrolled keyedStream 5000 0 [9] (some 1) 5000 5000 false ()) ⟨before, []⟩

/-- The sample archive as the file 0. -/
def archiveOnly : Nat → Option Bytes := fun p => if p = 0 then some [0x50, 0x4B] else none

/-- A rename that succeeded. -/
def isRename : FileOp Nat × Bool → Bool
  | (.replace _ _, succeeded) => succeeded
  | _ => false

theorem renamed_iff {log : List (FileOp Nat × Bool)} : Renamed log ↔ log.any isRename = true := by
  rw [List.any_eq_true]
  constructor
  · rintro ⟨p, q, hmem⟩
    exact ⟨_, hmem, rfl⟩
  · rintro ⟨⟨op, succeeded⟩, hmem, hrename⟩
    cases op
    case replace p q =>
      obtain rfl : succeeded = true := hrename
      exact ⟨p, q, hmem⟩
    all_goals cases hrename

theorem ends_numbered {unzip : Bytes → Option (List ZipEntry)} {fails : FileOp Nat → Bool}
    (hfails : ∀ p, fails (.unlink p) = false) (before : Nat → Option Bytes) :
    (decryptArchiveOn .unrolled keyedStream 5000 0 [9] (some 1) 5000 5000 false).Ends
      (Files.world unzip) () ⟨before, []⟩ (numbered unzip fails before).1.1 ()
      (numbered unzip fails before).2 := by
  have hends := Prog.ends_exec (@answers_serve unzip fails hfails)
    (decryptArchiveOn .unrolled keyedStream 5000 0 [9] (some 1) 5000 5000 false ())
    ⟨before, []⟩
  exact hends

set_option maxRecDepth 100000 in
/-- The sample archive is decrypted into a new file, and the files are shielded. -/
theorem decryptArchive_shielded_sample :
    ∃ m t, (decryptArchiveOn .unrolled keyedStream 5000 0 [9] (some 1) 5000 5000 false).Ends
        (Files.world fun _ => sampleLogArchive.entries) () ⟨archiveOnly, []⟩ (.ok (m, some 1)) () t ∧
      t.content 1 = some sampleLog ∧
      Shielded (fun m plaintext => ∃ archive, archiveOnly 0 = some archive ∧
        Authentic .unrolled keyedStream 5000 ⟨archive.length, sampleLogArchive.entries⟩ [9] 5000
          5000 m plaintext) (some 1) archiveOnly (.ok (m, some 1)) t := by
  have hcheck : ((numbered (fun _ => sampleLogArchive.entries) (fun _ => false)
        archiveOnly).1.1.toOption.any fun p => p.2 = some 1) &&
      ((numbered (fun _ => sampleLogArchive.entries) (fun _ => false) archiveOnly).2.content 1 =
        some sampleLog &&
      (numbered (fun _ => sampleLogArchive.entries) (fun _ => false) archiveOnly).2.log.any
        isRename) = true := by
    decide +kernel
  have hends := @ends_numbered (fun _ => sampleLogArchive.entries) (fun _ => false)
    (fun _ => rfl) archiveOnly
  generalize numbered (fun _ => sampleLogArchive.entries) (fun _ => false) archiveOnly = res
    at hcheck hends
  obtain ⟨⟨r, ⟨⟩⟩, t⟩ := res
  simp only [Bool.and_eq_true, decide_eq_true_eq] at hcheck
  obtain ⟨hresult, hcontent, hrename⟩ := hcheck
  cases r with
  | error e => cases hresult
  | ok p =>
      obtain ⟨m, d⟩ := p
      obtain rfl : d = some 1 := of_decide_eq_true hresult
      exact ⟨m, t, hends, hcontent,
        (decryptArchive_shielded_iff hends).mpr (.inl (renamed_iff.mpr hrename))⟩

/-- Changing the mode of a file fails. -/
def chmodFails : FileOp Nat → Bool
  | .chmod _ => true
  | _ => false

/-- When the mode of the new scratch file cannot be set, the scratch file stays. -/
theorem unprotected_scratch_stays :
    ∃ r t, (decryptArchiveOn .unrolled keyedStream 5000 0 [9] (some 1) 5000 5000 false).Ends
        (Files.world fun _ => none) () ⟨archiveOnly, []⟩ r () t ∧
      ¬Shielded (fun m plaintext => ∃ archive, archiveOnly 0 = some archive ∧
        Authentic .unrolled keyedStream 5000 ⟨archive.length, none⟩ [9] 5000 5000 m plaintext)
          (some 1) archiveOnly r t := by
  have hends := @ends_numbered (fun _ => none) chmodFails (fun _ => rfl) archiveOnly
  have hcheck : (numbered (fun _ => none) chmodFails archiveOnly).2.content 14 = some [] ∧
      (numbered (fun _ => none) chmodFails archiveOnly).2.log.any isRename = false := by
    decide +kernel
  refine ⟨_, _, hends, fun h => ?_⟩
  have hunchanged := h.unchanged fun hr => by
    rw [renamed_iff, hcheck.2] at hr
    cases hr
  rw [hunchanged] at hcheck
  exact absurd hcheck.1 (by decide)

end Archive

end IcsDeception
