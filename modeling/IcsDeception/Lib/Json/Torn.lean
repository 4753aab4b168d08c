import IcsDeception.Lib.Json.Consumed
import IcsDeception.Lib.Json.Members

/-!
# Pieces from the front of a written dictionary

A dictionary of texts and integers, cut off before its end, is refused by the reader as
a text that is no JSON, and for no other reason: neither the limit on nesting nor the one
on digits is reached.
-/

namespace IcsDeception.Json

open Text Decimal

/-- A text or an integer. -/
def Value.Flat : Value → Prop
  | .str _ => True
  | .int _ => True
  | _ => False

/-! ## Strings -/

theorem consText_error {c : CodePoint} {r : Except LoadsError (Str × Str)} {e : LoadsError}
    (h : consText c r = .error e) : r = .error e := by
  cases r with
  | ok p => cases h
  | error e' => exact h

theorem scanString_error {s : Str} {e : LoadsError} (h : scanString s = .error e) :
    e = .decode := by
  fun_induction scanString s with
  | case5 _ _ _ _ _ _ _ _ _ _ _ _ _ _ _ ih => exact ih (consText_error h)
  | case7 _ _ _ _ _ _ _ _ _ ih => exact ih (consText_error h)
  | case10 _ _ _ _ _ _ ih => exact ih (consText_error h)
  | case12 _ _ _ _ _ ih => exact ih (consText_error h)
  | case2 => cases h
  | _ => exact (Except.error.inj h).symm

/-! ## Values -/

theorem takeWhile_length_le_append (p : CodePoint → Bool) (s r : Str) :
    (s.takeWhile p).length ≤ ((s ++ r).takeWhile p).length := by
  rw [List.takeWhile_append]
  split_ifs with h
  · rw [List.length_append, h]
    exact Nat.le_add_right _ _
  · exact le_rfl

/-- A longer text has no fewer digits at its front. -/
theorem scanIntPart_append {s ds rest : Str} (h : scanIntPart s = some (ds, rest)) (r : Str) :
    ∃ ds' rest', scanIntPart (s ++ r) = some (ds', rest') ∧ ds.length ≤ ds'.length := by
  cases s with
  | nil => cases h
  | cons c cs =>
      rw [scanIntPart] at h
      rw [List.cons_append, scanIntPart]
      split_ifs at h ⊢ with h₀ hd
      · obtain ⟨rfl, rfl⟩ := Prod.mk.inj (Option.some.inj h)
        exact ⟨_, _, rfl, le_rfl⟩
      · obtain ⟨rfl, rfl⟩ := Prod.mk.inj (Option.some.inj h)
        exact ⟨_, _, rfl, Nat.succ_le_succ (takeWhile_length_le_append isDigit cs r)⟩

/-- The front of an integer is refused as no number, or not at all. -/
theorem scanNumber_torn {s r rest : Str} {i : Int} (hs : s ≠ [])
    (h : scanNumber (s ++ r) = .ok (.int i, rest)) {e : LoadsError}
    (he : scanNumber s = .error e) : e = .decode := by
  have hhead : (s ++ r).head? = s.head? := List.head?_append_of_ne_nil _ hs
  have hsigned : (if (s ++ r).head? = some (cp '-') then (s ++ r).tail else s ++ r) =
      (if s.head? = some (cp '-') then s.tail else s) ++ r := by
    rw [hhead]
    split_ifs
    · exact List.tail_append_of_ne_nil hs
    · rfl
  unfold scanNumber at h he
  dsimp only at h he
  rw [hsigned] at h
  cases hi : scanIntPart (if s.head? = some (cp '-') then s.tail else s) with
  | none =>
      simp only [hi] at he
      exact (Except.error.inj he).symm
  | some p =>
      obtain ⟨ds', rest', hi', hlen⟩ := scanIntPart_append hi r
      simp only [hi] at he
      simp only [hi'] at h
      split_ifs at he with h₁ h₂
      split_ifs at h with h₃ h₄ h₅
      all_goals first | omega | cases h

theorem scanNumber_value {s rest : Str} {v : Value} (h : scanNumber s = .ok (v, rest)) :
    (∃ i, v = .int i) ∨ ∃ l, v = .float l := by
  unfold scanNumber at h
  dsimp only at h
  split at h
  · cases h
  · split_ifs at h
    all_goals
      obtain ⟨rfl, -⟩ := Prod.mk.inj (Except.ok.inj h)
      first | exact .inl ⟨_, rfl⟩ | exact .inr ⟨_, rfl⟩

/-- The front of a name or a number that stands for an integer. -/
theorem scanScalar_torn {h : Hooks} (hc : ∀ name, ∃ l, h.constant name = .ok (.float l))
    {s r rest : Str} {v : Value} (hv : v.Flat) (hs : s ≠ [])
    (hfull : scanScalar h (s ++ r) = .ok (v, rest)) {e : LoadsError}
    (he : scanScalar h s = .error e) : e = .decode := by
  have hconst : ∀ (name : Str) (t : Str), (h.constant name).map (·, t) ≠ .ok (v, rest) := by
    intro name t heq
    obtain ⟨l, hl⟩ := hc name
    rw [hl] at heq
    obtain ⟨rfl, -⟩ := Prod.mk.inj (Except.ok.inj heq)
    exact hv
  have hconst' : ∀ (name : Str) (t : Str), (h.constant name).map (·, t) ≠ .error e := by
    intro name t heq
    obtain ⟨l, hl⟩ := hc name
    rw [hl] at heq
    cases heq
  unfold scanScalar at he hfull
  split_ifs at he
  · exact absurd he (hconst' _ _)
  · exact absurd he (hconst' _ _)
  · exact absurd he (hconst' _ _)
  · split_ifs at hfull
    · obtain ⟨rfl, -⟩ := Prod.mk.inj (Except.ok.inj hfull)
      exact hv.elim
    · obtain ⟨rfl, -⟩ := Prod.mk.inj (Except.ok.inj hfull)
      exact hv.elim
    · obtain ⟨rfl, -⟩ := Prod.mk.inj (Except.ok.inj hfull)
      exact hv.elim
    · exact absurd hfull (hconst _ _)
    · exact absurd hfull (hconst _ _)
    · exact absurd hfull (hconst _ _)
    · obtain ⟨i, rfl⟩ | ⟨l, rfl⟩ := scanNumber_value hfull
      · exact scanNumber_torn hs hfull he
      · exact hv.elim

/-- Hooks whose objects are dictionaries and whose constants are floats. -/
structure Hooks.Ordinary (h : Hooks) : Prop where
  objectPairs : ∀ pairs v, h.objectPairs pairs = .ok v → ∃ kvs, v = .dict kvs
  constant : ∀ name, ∃ l, h.constant name = .ok (.float l)

theorem Hooks.ordinary_default : Hooks.default.Ordinary where
  objectPairs _ _ h := ⟨_, (Except.ok.inj h).symm⟩
  constant _ := ⟨_, rfl⟩

/-- The front of a text or of an integer. -/
theorem scanOnce_torn {h : Hooks} (hh : h.Ordinary) {fuel depth : Nat} {s r rest : Str} {v : Value}
    (hv : v.Flat) (hs : s ≠ []) (hfull : scanOnce h fuel depth (s ++ r) = .ok (v, rest))
    {e : LoadsError} (he : scanOnce h fuel depth s = .error e) : e = .decode := by
  obtain ⟨c, cs, rfl⟩ := List.exists_cons_of_ne_nil hs
  cases fuel with
  | zero => exact (Except.error.inj he).symm
  | succ fuel =>
      rw [List.cons_append, scanOnce] at hfull
      rw [scanOnce] at he
      split_ifs at hfull with h₁ h₂ h₃ h₄ h₅
      · rw [if_pos h₁] at he
        cases hstr : scanString cs with
        | ok p =>
            rw [hstr] at he
            cases he
        | error e' =>
            rw [hstr] at he
            obtain rfl : e' = e := Except.error.inj he
            exact scanString_error hstr
      · obtain ⟨p, -, hfull⟩ := bind_eq_ok.mp hfull
        obtain ⟨w, hw, hfull⟩ := bind_eq_ok.mp hfull
        obtain ⟨rfl, -⟩ := Prod.mk.inj (Except.ok.inj hfull)
        obtain ⟨kvs, rfl⟩ := hh.objectPairs _ _ hw
        exact hv.elim
      · obtain ⟨p, -, hfull⟩ := bind_eq_ok.mp hfull
        obtain ⟨rfl, -⟩ := Prod.mk.inj (Except.ok.inj hfull)
        exact hv.elim
      · rw [if_neg h₁, if_neg h₂, if_neg h₄] at he
        exact scanScalar_torn hh.constant hv (by simp) hfull he

/-! ## Members -/

theorem skipWs_append_of_ne_nil {s : Str} (h : skipWs s ≠ []) (r : Str) :
    skipWs (s ++ r) = skipWs s ++ r := by
  obtain ⟨c, t, ht⟩ := List.exists_cons_of_ne_nil h
  obtain ⟨w, rfl, hw, hc⟩ := skipWs_eq_cons ht
  rw [ht, List.append_assoc, skipWs_append hw, List.cons_append, skipWs_cons hc]

theorem scanOnce_nil (h : Hooks) (fuel depth : Nat) :
    scanOnce h fuel depth [] = .error .decode := by
  cases fuel <;> rfl

theorem scanMembers_nil (h : Hooks) (fuel depth : Nat) :
    scanMembers h fuel depth [] = .error .decode := by
  cases fuel <;> rfl

theorem ne_nil_of_head {s : Str} {c : CodePoint} (h : s.head? = some c) : s ≠ [] := by
  rintro rfl
  cases h

/-- A text cut off among its members. -/
theorem scanMembers_torn {h : Hooks} (hh : h.Ordinary) (fuel : Nat) :
    ∀ depth s r ms rest, (∀ p ∈ ms, Value.Flat p.2) →
      scanMembers h fuel depth (s ++ r) = .ok (ms, rest) →
      ∀ e, scanMembers h fuel depth s = .error e → e = .decode := by
  induction fuel with
  | zero =>
      intro depth s r ms rest _ _ e he
      exact (Except.error.inj he).symm
  | succ fuel ih =>
      intro depth s r ms rest hms hfull e he
      cases s with
      | nil => exact (Except.error.inj he).symm
      | cons c cs =>
          rw [List.cons_append, scanMembers] at hfull
          rw [scanMembers] at he
          split_ifs at hfull he with h₁
          obtain ⟨⟨key, k⟩, hkey, hfull⟩ := bind_eq_ok.mp hfull
          cases hstr : scanString cs with
          | error e' =>
              rw [hstr] at he
              obtain rfl : e' = e := Except.error.inj he
              exact scanString_error hstr
          | ok p =>
              obtain ⟨key', k'⟩ := p
              -- the key is complete, so the longer text has the same
              obtain ⟨pk, rfl, htakes⟩ := scanString_takes hstr
              rw [List.append_assoc, htakes] at hkey
              obtain ⟨rfl, rfl⟩ := Prod.mk.inj (Except.ok.inj hkey)
              rw [hstr] at he
              simp only [bind, Except.bind] at he
              simp only at hfull
              split_ifs at he with h₂
              · have hne := ne_nil_of_head h₂
                rw [skipWs_append_of_ne_nil hne, List.head?_append_of_ne_nil _ hne, if_pos h₂,
                  List.tail_append_of_ne_nil hne] at hfull
                obtain ⟨⟨v, q⟩, hv, hfull⟩ := bind_eq_ok.mp hfull
                have hflat : v.Flat := by
                  simp only at hfull
                  split_ifs at hfull
                  · obtain ⟨rfl, -⟩ := Prod.mk.inj (Except.ok.inj hfull)
                    exact hms (key', v) (by simp)
                  · obtain ⟨x, -, hfull⟩ := bind_eq_ok.mp hfull
                    obtain ⟨rfl, -⟩ := Prod.mk.inj (Except.ok.inj hfull)
                    exact hms (key', v) (by simp)
                by_cases ht : skipWs (skipWs k').tail = []
                · rw [ht, scanOnce_nil] at he
                  exact (Except.error.inj he).symm
                · rw [skipWs_append_of_ne_nil ht] at hv
                  cases hval : scanOnce h fuel depth (skipWs (skipWs k').tail) with
                  | error e' =>
                      rw [hval] at he
                      obtain rfl : e' = e := Except.error.inj he
                      exact scanOnce_torn hh hflat ht hv hval
                  | ok x =>
                      obtain ⟨v', q'⟩ := x
                      rw [hval] at he
                      simp only at he
                      split_ifs at he with h₃ h₄
                      · cases he
                      · -- the value is complete too, since a comma follows it
                        obtain ⟨w, hw, -, hstops⟩ := head_skipWs h₄
                        obtain ⟨pv, hpv, hsame, -⟩ := (scan_takes h fuel).1 _ _ _ _ hval
                        have hcut : Stops (q' ++ r) := by
                          rw [hw, List.append_assoc]
                          exact hstops _ (stops_closing (.inr (.inr rfl)) _)
                        rw [hpv, List.append_assoc, hsame _ (.inl hcut)] at hv
                        obtain ⟨rfl, rfl⟩ := Prod.mk.inj (Except.ok.inj hv)
                        have hne' := ne_nil_of_head h₄
                        simp only at hfull
                        rw [skipWs_append_of_ne_nil hne', List.head?_append_of_ne_nil _ hne',
                          if_neg h₃, if_pos h₄, List.tail_append_of_ne_nil hne'] at hfull
                        obtain ⟨⟨ms', q''⟩, hmore, hfull⟩ := bind_eq_ok.mp hfull
                        obtain ⟨rfl, -⟩ := Prod.mk.inj (Except.ok.inj hfull)
                        have hms' : ∀ p ∈ ms', Value.Flat p.2 := fun p hp =>
                          hms p (List.mem_cons_of_mem _ hp)
                        by_cases ht' : skipWs (skipWs q').tail = []
                        · rw [ht', scanMembers_nil] at he
                          exact (Except.error.inj he).symm
                        · rw [skipWs_append_of_ne_nil ht'] at hmore
                          cases hrest : scanMembers h fuel depth (skipWs (skipWs q').tail) with
                          | error e' =>
                              rw [hrest] at he
                              obtain rfl : e' = e := Except.error.inj he
                              exact ih _ _ _ _ _ hms' hmore _ hrest
                          | ok x =>
                              rw [hrest] at he
                              cases he
                      · exact (Except.error.inj he).symm
              · exact (Except.error.inj he).symm

/-! ## Documents -/

/-- A written dictionary is a brace and a text that is scanned as its members. -/
theorem scanMembers_dump {h : Hooks} (hh : h.Plain) {st : Style} (hst : st.Valid)
    {kvs : List (Key × Value)} (hw : WritableMembers st kvs) (hne : kvs ≠ [])
    {t : Str} (ht : dump st 0 (.dict kvs) = .ok t) :
    ∃ t', t = cp '\x7b' :: t' ∧ ∀ fuel depth, 2 * t.length + 1 ≤ fuel →
      Value.nestMembers kvs ≤ depth →
        scanMembers h fuel depth (skipWs t') = .ok (st.order (normMembers st kvs), []) := by
  obtain ⟨ps, hd, hn, hk, hr⟩ := dumpMembers_reads hh hst 1 kvs hw
  have hperm := st.order_perm ps
  have hback : ∀ q ∈ st.order ps, st.readBack q.1 = q.1 :=
    fun q hq => (hr q (hperm.mem_iff.mp hq)).1
  have hread : ∀ q ∈ st.order ps, Reads h (Value.nestMembers kvs) q.2.1 q.2.2 :=
    fun q hq => (hr q (hperm.mem_iff.mp hq)).2
  have hpairs : st.order (normMembers st kvs) =
      (st.order ps).map fun q => (st.readBack q.1, q.2.2) := by
    rw [hn, st.order_map Prod.snd]
    exact List.map_congr_left fun q hq => by rw [hback q hq]
  rw [dump, hd] at ht
  have ht := Except.ok.inj ht
  rw [st.order_map Prod.fst, List.map_map, Function.comp_def] at ht
  have hcons : st.order ps ≠ [] := by
    intro hnil
    rw [hnil, List.nil_perm] at hperm
    rw [hperm, List.map_nil, List.map_eq_nil_iff] at hk
    exact hne hk
  rw [hpairs]
  obtain ⟨p, rest, hcons⟩ := List.exists_cons_of_ne_nil hcons
  rw [hcons] at ht hread ⊢
  obtain ⟨w, hitem, hws⟩ := hst.item
  obtain ⟨wk, hkey, hwk⟩ := hst.key
  have hnl := st.isWs_newline
  have hsep : ∀ c ∈ w ++ st.newline 1, isWs c = true := by
    intro c hc
    rcases List.mem_append.mp hc with hc | hc
    · exact hws c hc
    · exact hnl _ c hc
  simp only [List.map_cons, bracket, hitem, List.cons_append, List.append_assoc, zero_add] at ht
  refine ⟨_, ht.symm, ?_⟩
  intro fuel depth hf hd
  have hlen := congrArg List.length ht
  have hms := scanMembers_joined (r := []) hsep hkey hwk (hnl 0) hd rest p hread fuel
  simp only [List.map_cons, List.length_cons, List.length_append] at hms hlen
  rw [skipWs_append (hnl _)]
  have hskip : ∀ z : Str, skipWs (joined (cp ',' :: (w ++ st.newline 1))
        (st.member (p.1, p.2.1) :: rest.map fun q => st.member (q.1, q.2.1)) ++ z) =
      joined (cp ',' :: (w ++ st.newline 1))
        (st.member (p.1, p.2.1) :: rest.map fun q => st.member (q.1, q.2.1)) ++ z := by
    intro z
    simp only [joined, Style.member, quote, List.cons_append]
    exact skipWs_cons (by decide) _
  rw [hskip]
  exact hms (by omega)

theorem flat_norm {st : Style} {v : Value} (h : v.Flat) : (norm st v).Flat := by
  cases v with
  | str s => trivial
  | int i => trivial
  | _ => exact h.elim

theorem flat_normMembers {st : Style} {kvs : List (Key × Value)} (h : ∀ p ∈ kvs, p.2.Flat) :
    ∀ p ∈ st.order (normMembers st kvs), Value.Flat p.2 := by
  have hall : ∀ p ∈ normMembers st kvs, Value.Flat p.2 := by
    induction kvs with
    | nil => simp [normMembers]
    | cons q rest ih =>
        obtain ⟨hq, hrest⟩ := List.forall_mem_cons.mp h
        obtain ⟨k, v⟩ := q
        cases k with
        | str k =>
            rw [normMembers]
            exact List.forall_mem_cons.mpr ⟨flat_norm hq, ih hrest⟩
        | other k => exact ih hrest
  exact fun p hp => hall p ((st.order_perm _).mem_iff.mp hp)

/-- A piece from the front of a written dictionary of texts and integers is no JSON. -/
theorem loads_torn {st : Style} (hst : st.Valid) {kvs : List (Key × Value)} {limit : Nat}
    (hw : Writable st (.dict kvs)) (hne : kvs ≠ []) (hflat : ∀ p ∈ kvs, p.2.Flat)
    (hlimit : (Value.dict kvs).nest ≤ limit) {t p r : Str} (ht : dump st 0 (.dict kvs) = .ok t)
    (hp : t = p ++ r) (hr : r ≠ []) : loads limit p = .error .decode := by
  obtain ⟨t', rfl, hms⟩ := scanMembers_dump Hooks.plain_default hst hw.2 hne ht
  obtain ⟨u, hu, hreads⟩ := dump_reads Hooks.plain_default hst 0 _ hw
  obtain rfl := Except.ok.inj (ht.symm.trans hu)
  have hscan := hreads.scan (2 * (cp '\x7b' :: t').length + 1) limit [] le_rfl hlimit stops_nil
  rw [List.append_nil] at hscan
  obtain ⟨q, hq, hobject⟩ := isObject_of_scanOnce le_rfl hscan rfl
  rw [List.append_nil] at hq
  subst hq
  cases hl : loads limit p with
  | ok v => exact absurd hl (hobject.torn hp hr)
  | error e =>
      congr 1
      cases p with
      | nil => exact (Except.error.inj hl).symm
      | cons c p =>
          obtain ⟨rfl, rfl⟩ := List.cons.inj hp
          have hmembers : Value.nestMembers kvs ≤ limit - 1 := Nat.le_sub_one_of_lt hlimit
          have hdepth : limit ≠ 0 := Nat.ne_zero_of_lt hlimit
          have hfuel : 2 * (cp '\x7b' :: p).length + 1 ≤ 2 * (cp '\x7b' :: (p ++ r)).length + 3 := by
            simp only [List.length_cons, List.length_append]
            omega
          unfold loads loadsWith at hl
          rw [if_neg (by simp [bom, show cp '\x7b' ≠ cp '\uFEFF' by decide]), skipWs_cons (by decide),
            scanOnce_enough (by omega) hfuel, scanOnce,
            if_neg (by decide), if_pos rfl, if_neg hdepth] at hl
          cases ho : opened (cp '\x7d') p (scanMembers Hooks.default
              (2 * (cp '\x7b' :: (p ++ r)).length + 2) (limit - 1) (skipWs p)) with
          | ok x =>
              -- the object is closed, so the text goes on behind it
              obtain ⟨ms, rest⟩ := x
              have hpairs : Hooks.default.objectPairs ms = .ok (Value.ofMembers (dictOfPairs ms)) := rfl
              simp only [ho, hpairs, bind, Except.bind, pure, Except.pure] at hl
              split_ifs at hl
              exact (Except.error.inj hl).symm
          | error e' =>
              simp only [ho, bind, Except.bind] at hl
              obtain rfl : e' = e := Except.error.inj hl
              unfold opened at ho
              split_ifs at ho
              by_cases hws : skipWs p = []
              · rw [hws, scanMembers_nil] at ho
                exact (Except.error.inj ho).symm
              · have hfull := hms (2 * (cp '\x7b' :: (p ++ r)).length + 2) (limit - 1)
                  (Nat.le_succ _) hmembers
                rw [List.append_eq, skipWs_append_of_ne_nil hws] at hfull
                exact scanMembers_torn Hooks.ordinary_default _ _ _ _ _ _
                  (flat_normMembers hflat) hfull _ ho

end IcsDeception.Json
