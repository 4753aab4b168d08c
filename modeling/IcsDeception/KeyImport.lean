import IcsDeception.KeyTable

/-!
# What a refused import leaves behind

An import handles its entries one after another, and an entry that raises ends it. The
entries before it have been inserted by then, under overwriting in place of older records,
and the entry itself may have deleted the record that it was to replace.

## Implementation notes

A table is compared as the finite map from identifiers to records. What an import leaves is
described by the last entry of every identifier.
-/

namespace IcsDeception.KeyTable

open Text

variable {py : Interp}

/-- Two tables hold the same records. -/
def SameRecords (t t' : KeyTable) : Prop := ∀ r, r ∈ t.keys ↔ r ∈ t'.keys

/-- The last record of an identifier among entries. -/
def lastNamed (py : Interp) (entries : List Document) (keyId : Str) : Option RegisteredKey :=
  entries.reverse.findSome? fun d =>
    match RegisteredKey.fromDict py d with
    | .ok r => if r.keyId = keyId then some r else none
    | .error _ => none

/-- The entries before are imported, and the next one raises. -/
def StopsAt (py : Interp) (overwrite : Bool) (t : KeyTable) (before : List Document)
    (entry : Document) : Prop :=
  (importEntries py overwrite t before).1 = .ok () ∧
    ∃ x, (importEntry py overwrite (importEntries py overwrite t before).2 entry).1 = .error x

/-- The entries before an entry that raises have no lasting effect, and it names no key of the
table. -/
structure IdleOverwrite (py : Interp) (t : KeyTable) (before : List Document) (entry : Document) :
    Prop where
  /-- The entry that raises names no key of the table. -/
  foreign : ∀ s, RegisteredKey.fromDict py entry = .ok s → s.keyId ∉ t.keys.map fun r => r.keyId
  /-- Of the other identifiers before it, the last record is the record of the table. -/
  repeated : ∀ d ∈ before, ∀ r, RegisteredKey.fromDict py d = .ok r →
    (∀ s, RegisteredKey.fromDict py entry = .ok s → s.keyId ≠ r.keyId) →
      lastNamed py before r.keyId = t.get r.keyId

/-- An import that stops at an entry has no lasting effect. -/
def Idle (py : Interp) (overwrite : Bool) (t : KeyTable) (before : List Document)
    (entry : Document) : Prop :=
  match overwrite with
  | true => IdleOverwrite py t before entry
  | false => ∀ d ∈ before, ∀ r, RegisteredKey.fromDict py d = .ok r →
      r.keyId ∈ t.keys.map fun s => s.keyId

/-! ## The map of a table -/

theorem get_eq_none {t : KeyTable} {keyId : Str} :
    t.get keyId = none ↔ keyId ∉ t.keys.map fun r => r.keyId := by
  rw [Option.eq_none_iff_forall_ne_some]
  constructor
  · intro h hmem
    obtain ⟨r, hr, hid⟩ := List.mem_map.mp hmem
    exact h r (get_eq_some.mpr ⟨hr, hid⟩)
  · rintro h r hget
    obtain ⟨hr, hid⟩ := get_eq_some.mp hget
    exact h (List.mem_map.mpr ⟨r, hr, hid⟩)

theorem sameRecords_iff {t t' : KeyTable} : SameRecords t t' ↔ ∀ keyId, t.get keyId = t'.get keyId := by
  constructor
  · intro h keyId
    apply Option.ext
    intro r
    rw [get_eq_some, get_eq_some, h r]
  · intro h r
    have hget := h r.keyId
    constructor
    · intro hr
      rw [get_eq_some.mpr ⟨hr, rfl⟩] at hget
      exact (get_eq_some.mp hget.symm).1
    · intro hr
      rw [get_eq_some.mpr ⟨hr, rfl⟩] at hget
      exact (get_eq_some.mp hget).1

theorem get_of_keys {t t' : KeyTable} {r : RegisteredKey} (h : t'.keys = t.keys ++ [r])
    (hr : r.keyId ∉ t.keys.map fun s => s.keyId) (keyId : Str) :
    t'.get keyId = if keyId = r.keyId then some r else t.get keyId := by
  split_ifs with hid
  · apply get_eq_some.mpr
    rw [h]
    exact ⟨by simp, hid.symm⟩
  · apply Option.ext
    intro s
    rw [get_eq_some, get_eq_some, h, List.mem_append,
      List.mem_singleton]
    constructor
    · rintro ⟨hs | rfl, hsid⟩
      · exact ⟨hs, hsid⟩
      · exact absurd hsid.symm hid
    · rintro ⟨hs, hsid⟩
      exact ⟨.inl hs, hsid⟩

theorem get_insert {t t' : KeyTable} {r : RegisteredKey} (h : t.insert r = .ok t') (keyId : Str) :
    t'.get keyId = if keyId = r.keyId then some r else t.get keyId := by
  obtain ⟨hid, -, hkeys⟩ := insert_eq_ok h
  exact get_of_keys hkeys hid keyId

theorem get_without (t : KeyTable) (removed keyId : Str) :
    (t.without removed).get keyId = if keyId = removed then none else t.get keyId := by
  split_ifs with hid
  · apply get_eq_none.mpr
    rintro hmem
    obtain ⟨r, hr, hrid⟩ := List.mem_map.mp hmem
    have := of_decide_eq_true (List.mem_filter.mp hr).2
    exact this (hrid.trans hid)
  · apply Option.ext
    intro s
    rw [get_eq_some, get_eq_some, without, List.mem_filter,
      decide_eq_true_eq]
    constructor
    · rintro ⟨⟨hs, -⟩, hsid⟩
      exact ⟨hs, hsid⟩
    · rintro ⟨hs, hsid⟩
      exact ⟨⟨hs, fun h => hid (hsid.symm.trans h)⟩, hsid⟩

/-! ## One entry -/

/-- An entry that is imported: without overwriting it is skipped or inserted, and with
overwriting its record stands under its identifier. -/
theorem importEntry_ok {overwrite : Bool} {t : KeyTable} {entry : Document}
    (h : (importEntry py overwrite t entry).1 = .ok ()) :
    ∃ r, RegisteredKey.fromDict py entry = .ok r ∧ ∀ keyId,
      (importEntry py overwrite t entry).2.get keyId =
        if overwrite = false ∧ r.keyId ∈ (t.keys.map fun s => s.keyId) then t.get keyId
        else if keyId = r.keyId then some r else t.get keyId := by
  unfold importEntry at h ⊢
  cases hfrom : RegisteredKey.fromDict py entry with
  | error e =>
      rw [hfrom] at h
      cases h
  | ok r =>
      rw [hfrom] at h
      refine ⟨r, rfl, fun keyId => ?_⟩
      dsimp only at h ⊢
      by_cases hmem : r.keyId ∈ t.keys.map fun s => s.keyId
      · rw [if_pos hmem] at h ⊢
        cases overwrite with
        | false => rw [if_neg (by simp), if_pos ⟨rfl, hmem⟩]
        | true =>
            rw [if_pos rfl] at h ⊢
            rw [if_neg (by simp)]
            cases hins : (t.without r.keyId).insert r with
            | error e =>
                rw [hins] at h
                cases h
            | ok t' =>
                dsimp only
                rw [get_insert hins, get_without]
                split_ifs
                · rfl
                · rfl
      · rw [if_neg hmem] at h ⊢
        rw [if_neg fun hboth => hmem hboth.2]
        cases hins : t.insert r with
        | error e =>
            rw [hins] at h
            cases h
        | ok t' => exact get_insert hins keyId

/-- An entry that raises: with overwriting it has deleted the record that it names. -/
theorem importEntry_error {overwrite : Bool} {t : KeyTable} {entry : Document} {x : Exn}
    (h : (importEntry py overwrite t entry).1 = .error x) (keyId : Str) :
    (importEntry py overwrite t entry).2.get keyId =
      match RegisteredKey.fromDict py entry with
      | .ok r => if overwrite = true ∧ keyId = r.keyId then none else t.get keyId
      | .error _ => t.get keyId := by
  unfold importEntry at h ⊢
  cases hfrom : RegisteredKey.fromDict py entry with
  | error e => rfl
  | ok r =>
      rw [hfrom] at h
      dsimp only at h ⊢
      by_cases hmem : r.keyId ∈ t.keys.map fun s => s.keyId
      · rw [if_pos hmem] at h ⊢
        cases overwrite with
        | false =>
            rw [if_neg (by simp)] at h
            cases h
        | true =>
            rw [if_pos rfl] at h ⊢
            cases hins : (t.without r.keyId).insert r with
            | error e =>
                dsimp only
                rw [get_without]
                simp only [true_and]
            | ok t' =>
                rw [hins] at h
                cases h
      · rw [if_neg hmem] at h ⊢
        cases hins : t.insert r with
        | error e =>
            dsimp only
            split_ifs with hid
            · rw [hid.2]
              exact get_eq_none.mpr hmem
            · rfl
        | ok t' =>
            rw [hins] at h
            cases h

/-! ## The whole import -/

theorem lastNamed_cons (entry : Document) (rest : List Document) (keyId : Str) :
    lastNamed py (entry :: rest) keyId =
      (lastNamed py rest keyId).or (lastNamed py [entry] keyId) := by
  unfold lastNamed
  rw [List.reverse_cons, List.findSome?_append]
  rfl

theorem lastNamed_singleton {entry : Document} {r : RegisteredKey}
    (h : RegisteredKey.fromDict py entry = .ok r) (keyId : Str) :
    lastNamed py [entry] keyId = if keyId = r.keyId then some r else none := by
  have hone : lastNamed py [entry] keyId = if r.keyId = keyId then some r else none := by
    simp only [lastNamed, List.reverse_singleton, List.findSome?_singleton, h]
  rw [hone]
  simp only [eq_comm]

/-- Under overwriting the last entry of an identifier stands, and under no identifier less than
before. -/
theorem get_importEntries_overwrite {t : KeyTable} {entries : List Document}
    (h : (importEntries py true t entries).1 = .ok ()) (keyId : Str) :
    (importEntries py true t entries).2.get keyId = (lastNamed py entries keyId).or (t.get keyId) := by
  induction entries generalizing t with
  | nil => rfl
  | cons entry rest ih =>
      rw [importEntries] at h ⊢
      cases hone : importEntry py true t entry with
      | mk result t' =>
          rw [hone] at h
          cases result with
          | error x => cases h
          | ok _ =>
              obtain ⟨r, hr, hget⟩ := @importEntry_ok py _ _ _ (congrArg Prod.fst hone)
              rw [hone] at hget
              dsimp only at h hget ⊢
              rw [ih h, lastNamed_cons, lastNamed_singleton hr, Option.or_assoc, hget keyId,
                if_neg (by simp)]
              split_ifs
              · rfl
              · rfl

/-- An import without overwriting keeps the records of the table, and brings every identifier in. -/
theorem importEntries_skip {t : KeyTable} {entries : List Document}
    (h : (importEntries py false t entries).1 = .ok ()) :
    (∀ keyId, keyId ∈ (t.keys.map fun r => r.keyId) →
      (importEntries py false t entries).2.get keyId = t.get keyId) ∧
    ∀ d ∈ entries, ∀ r, RegisteredKey.fromDict py d = .ok r →
      r.keyId ∈ (importEntries py false t entries).2.keys.map fun s => s.keyId := by
  induction entries generalizing t with
  | nil => exact ⟨fun _ _ => rfl, by simp⟩
  | cons entry rest ih =>
      rw [importEntries] at h ⊢
      cases hone : importEntry py false t entry with
      | mk result t' =>
          rw [hone] at h
          cases result with
          | error x => cases h
          | ok _ =>
              obtain ⟨r, hr, hget⟩ := @importEntry_ok py _ _ _ (congrArg Prod.fst hone)
              rw [hone] at hget
              dsimp only at h hget ⊢
              obtain ⟨hkept, hnamed⟩ := ih h
              have hstays : ∀ keyId, keyId ∈ (t.keys.map fun s => s.keyId) →
                  t'.get keyId = t.get keyId := by
                intro keyId hmem
                rw [hget keyId]
                split_ifs with hskip hid
                · rfl
                · exact absurd ⟨rfl, hid ▸ hmem⟩ hskip
                · rfl
              have hin : ∀ keyId, t'.get keyId ≠ none → keyId ∈ t'.keys.map fun s => s.keyId := by
                intro keyId hne
                by_contra hnot
                exact hne (get_eq_none.mpr hnot)
              have hheld : ∀ keyId, keyId ∈ (t'.keys.map fun s => s.keyId) →
                  keyId ∈ (importEntries py false t' rest).2.keys.map fun s => s.keyId := by
                intro keyId hmem
                by_contra hnot
                rw [← get_eq_none, hkept keyId hmem, get_eq_none] at hnot
                exact hnot hmem
              constructor
              · intro keyId hmem
                have hmem' : keyId ∈ t'.keys.map fun s => s.keyId := by
                  apply hin
                  rw [hstays keyId hmem, Ne, get_eq_none]
                  exact fun hnot => hnot hmem
                rw [hkept keyId hmem', hstays keyId hmem]
              · intro d hd s hs
                rcases List.mem_cons.mp hd with rfl | hd
                · obtain rfl := Except.ok.inj (hr.symm.trans hs)
                  apply hheld
                  apply hin
                  rw [hget r.keyId]
                  by_cases hskip : false = false ∧ r.keyId ∈ t.keys.map fun s => s.keyId
                  · rw [if_pos hskip, Ne, get_eq_none]
                    exact fun hnot => hnot hskip.2
                  · rw [if_neg hskip, if_pos rfl]
                    exact Option.some_ne_none r
                · exact hnamed d hd s hs

theorem importEntries_named {t : KeyTable} {entries : List Document}
    (h : ∀ d ∈ entries, ∀ r, RegisteredKey.fromDict py d = .ok r →
      r.keyId ∈ t.keys.map fun s => s.keyId)
    (hok : (importEntries py false t entries).1 = .ok ()) (keyId : Str) :
    (importEntries py false t entries).2.get keyId = t.get keyId := by
  induction entries generalizing t with
  | nil => rfl
  | cons entry rest ih =>
      rw [importEntries] at hok ⊢
      cases hone : importEntry py false t entry with
      | mk result t' =>
          rw [hone] at hok
          cases result with
          | error x => cases hok
          | ok _ =>
              obtain ⟨r, hr, hget⟩ := @importEntry_ok py _ _ _ (congrArg Prod.fst hone)
              have hmem := h entry List.mem_cons_self r hr
              rw [hone] at hget
              dsimp only at hok hget ⊢
              have hsame : ∀ keyId, t'.get keyId = t.get keyId := by
                intro keyId
                rw [hget keyId, if_pos ⟨rfl, hmem⟩]
              rw [ih _ hok, hsame]
              intro d hd s hs
              by_contra hnot
              rw [← get_eq_none, hsame, get_eq_none] at hnot
              exact hnot (h d (List.mem_cons_of_mem _ hd) s hs)

/-- An import that raises stops at an entry. -/
theorem exists_stopsAt {overwrite : Bool} {t : KeyTable} {entries : List Document} {x : Exn}
    (h : (importEntries py overwrite t entries).1 = .error x) :
    ∃ before entry rest, entries = before ++ entry :: rest ∧ StopsAt py overwrite t before entry := by
  induction entries generalizing t with
  | nil => cases h
  | cons entry rest ih =>
      rw [importEntries] at h
      cases hone : importEntry py overwrite t entry with
      | mk result t' =>
          rw [hone] at h
          cases result with
          | error y => exact ⟨[], entry, rest, rfl, rfl, y, congrArg Prod.fst hone⟩
          | ok _ =>
              obtain ⟨before, bad, after, rfl, hok, y, hy⟩ := ih h
              refine ⟨entry :: before, bad, after, rfl, ?_, y, ?_⟩
              · rw [importEntries, hone]
                exact hok
              · rw [importEntries, hone]
                exact hy

/-- What an import that stops at an entry returns and leaves. -/
theorem importEntries_of_stopsAt {overwrite : Bool} {t : KeyTable} {before : List Document}
    {entry : Document} (h : StopsAt py overwrite t before entry) (rest : List Document) :
    importEntries py overwrite t (before ++ entry :: rest) =
      importEntry py overwrite (importEntries py overwrite t before).2 entry := by
  obtain ⟨hok, x, hx⟩ := h
  induction before generalizing t with
  | nil =>
      change (importEntry py overwrite t entry).1 = .error x at hx
      change importEntries py overwrite t (entry :: rest) = importEntry py overwrite t entry
      rw [importEntries]
      cases hone : importEntry py overwrite t entry with
      | mk result t' =>
          rw [hone] at hx
          obtain rfl : result = .error x := hx
          rfl
  | cons d ds ih =>
      rw [importEntries] at hok hx ⊢
      rw [List.cons_append, importEntries]
      cases hone : importEntry py overwrite t d with
      | mk result t' =>
          rw [hone] at hok hx
          cases result with
          | error y => cases hok
          | ok _ => exact ih hok hx

/-- An import that stops at an entry leaves the records of before exactly if it is idle. -/
theorem sameRecords_stopsAt_iff {overwrite : Bool} {t : KeyTable} {before : List Document}
    {entry : Document} (h : StopsAt py overwrite t before entry) :
    SameRecords (importEntry py overwrite (importEntries py overwrite t before).2 entry).2 t ↔
      Idle py overwrite t before entry := by
  obtain ⟨hok, x, hx⟩ := h
  have hlast := importEntry_error hx
  rw [sameRecords_iff]
  cases overwrite with
  | false =>
      have hleft : ∀ keyId, (importEntry py false (importEntries py false t before).2 entry).2.get
          keyId = (importEntries py false t before).2.get keyId := by
        intro keyId
        rw [hlast]
        cases RegisteredKey.fromDict py entry with
        | error e => rfl
        | ok r => exact if_neg (by simp)
      simp only [hleft]
      constructor
      · intro hsame d hd r hr
        have hin := (importEntries_skip hok).2 d hd r hr
        by_contra hnot
        rw [← get_eq_none, ← hsame, get_eq_none] at hnot
        exact hnot hin
      · intro hidle
        exact importEntries_named hidle hok
  | true =>
      have hstands := fun keyId => @get_importEntries_overwrite py _ _ hok keyId
      constructor
      · intro hsame
        refine ⟨?_, ?_⟩
        · intro s hs hmem
          have hgone := hlast s.keyId
          rw [hs] at hgone
          dsimp only at hgone
          rw [if_pos ⟨rfl, rfl⟩, hsame, get_eq_none] at hgone
          exact hgone hmem
        · intro d hd r hr hother
          have hname := hlast r.keyId
          rw [hsame, hstands] at hname
          have hfound : (lastNamed py before r.keyId).isSome := by
            rw [lastNamed, List.isSome_findSome?, List.any_eq_true]
            refine ⟨d, List.mem_reverse.mpr hd, ?_⟩
            rw [hr]
            simp
          obtain ⟨s, hs⟩ := Option.isSome_iff_exists.mp hfound
          rw [hs] at hname ⊢
          cases hentry : RegisteredKey.fromDict py entry with
          | error e =>
              rw [hentry] at hname
              exact hname.symm
          | ok s' =>
              rw [hentry] at hname
              dsimp only at hname
              rw [if_neg fun hid => hother s' hentry hid.2.symm] at hname
              exact hname.symm
      · rintro ⟨hforeign, hrepeated⟩ keyId
        have hkept : (∀ s, RegisteredKey.fromDict py entry = .ok s → s.keyId ≠ keyId) →
            (importEntries py true t before).2.get keyId = t.get keyId := by
          intro hother
          rw [hstands]
          cases hnamed : lastNamed py before keyId with
          | none => rfl
          | some r =>
              rw [lastNamed] at hnamed
              obtain ⟨d, hd, hr⟩ := List.exists_of_findSome?_eq_some hnamed
              cases hfrom : RegisteredKey.fromDict py d with
              | error e =>
                  rw [hfrom] at hr
                  cases hr
              | ok r' =>
                  rw [hfrom] at hr
                  dsimp only at hr
                  split_ifs at hr with hid
                  subst hid
                  rw [← hnamed]
                  change (lastNamed py before r'.keyId).or _ = _
                  rw [hrepeated d (List.mem_reverse.mp hd) r' hfrom hother]
                  cases t.get r'.keyId with
                  | none => rfl
                  | some _ => rfl
        rw [hlast]
        cases hentry : RegisteredKey.fromDict py entry with
        | error e =>
            apply hkept
            rw [hentry]
            exact fun s hs => nomatch hs
        | ok s =>
            dsimp only
            split_ifs with hid
            · rw [hid.2]
              exact (get_eq_none.mpr (hforeign s hentry)).symm
            · apply hkept
              intro s' hs' hid'
              obtain rfl := Except.ok.inj (hentry.symm.trans hs')
              exact hid ⟨rfl, hid'.symm⟩

/-- An import that raises leaves the records of before, exactly if it is idle up to the entry at
which it stops. -/
theorem importPublic_idle_iff (t : KeyTable) (document : Document) (overwrite : Bool) :
    (∀ x, (t.importPublic py document overwrite).1 = .error x →
      SameRecords (t.importPublic py document overwrite).2 t) ↔
    ∀ before entry rest, document.entries = .ok (before ++ entry :: rest) →
      StopsAt py overwrite t before entry → Idle py overwrite t before entry := by
  unfold importPublic
  cases hentries : document.entries with
  | error e =>
      constructor
      · intro _ before entry rest h
        cases h
      · intro _ x _ r
        exact Iff.rfl
  | ok entries =>
      dsimp only
      constructor
      · intro h before entry rest hsplit hstops
        obtain rfl := Except.ok.inj hsplit
        rw [importEntries_of_stopsAt hstops] at h
        obtain ⟨x, hx⟩ := hstops.2
        exact (sameRecords_stopsAt_iff hstops).mp (h x hx)
      · intro h x hx
        obtain ⟨before, entry, rest, rfl, hstops⟩ := exists_stopsAt hx
        rw [importEntries_of_stopsAt hstops]
        exact (sameRecords_stopsAt_iff hstops).mpr (h before entry rest rfl hstops)

/-- A registry document with one entry, for an active key of node `n`. -/
def oneEntry (keyId publicKey : Str) : Document where
  value := KeyRegistry.keysDocument [KeyRegistry.activeEntry keyId publicKey]
  legible := ⟨trivial, ⟨⟨trivial, trivial, trivial, trivial, trivial, trivial, trivial⟩, trivial⟩, trivial⟩
  distinct := by
    refine ⟨by simp only [List.map_cons, List.map_nil]; decide, trivial, ⟨⟨?_, ?_⟩, trivial⟩, trivial⟩
    · simp only [List.map_cons, List.map_nil]
      decide
    · exact ⟨trivial, trivial, trivial, trivial, trivial, trivial, trivial⟩

/-- Two registered keys. -/
def twoKeys : KeyTable :=
  run 1000 .reference empty
    [.register .first (lit "a") (lit "n") [1] (lit "ML-DSA-65") none none .empty true,
     .register .first (lit "b") (lit "m") [2] (lit "ML-DSA-65") none none .empty true]

set_option maxRecDepth 100000 in
/-- An import that is refused deletes a key of the registry. -/
theorem refused_import_deletes : ¬ ∀ (ops : List Operation) (document : Document)
    (overwrite : Bool) (x : Exn),
    ((run 1000 .reference empty ops).importPublic .reference document overwrite).1 = .error x →
      SameRecords ((run 1000 .reference empty ops).importPublic .reference document overwrite).2
        (run 1000 .reference empty ops) := by
  intro h
  have hraised : (twoKeys.importPublic .reference (oneEntry (lit "a") (lit "Ag==")) true).1.toOption.isNone
      = true := by
    decide +kernel
  have hleft : ((twoKeys.importPublic .reference (oneEntry (lit "a") (lit "Ag==")) true).2.get
      (lit "a")).isNone = true := by
    decide +kernel
  have hbefore : (twoKeys.get (lit "a")).isNone = false := by
    decide +kernel
  cases hresult : (twoKeys.importPublic .reference (oneEntry (lit "a") (lit "Ag==")) true).1 with
  | error x =>
      have hsame := sameRecords_iff.mp (h _ _ true x hresult) (lit "a")
      rw [show run 1000 .reference empty _ = twoKeys from rfl] at hsame
      rw [hsame, hbefore] at hleft
      cases hleft
  | ok _ =>
      rw [hresult] at hraised
      cases hraised

end IcsDeception.KeyTable
