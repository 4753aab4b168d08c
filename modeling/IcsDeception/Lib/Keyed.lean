import Mathlib.Data.List.Perm.Basic
import Mathlib.Logic.Function.Basic

/-!
# Processing a stream of keyed inputs

Every input has a key, and reads and changes the state of its own key only. What such
a process says about an input depends on the earlier inputs of the same key, so the
order of inputs with different keys does not matter.
-/

namespace IcsDeception

/-- A process with one state for every key. -/
structure Keyed (κ ι σ ω ε : Type) where
  key : ι → κ
  step : σ → ι → Except ε (σ × ω)

namespace Keyed

variable {κ ι σ ω ε : Type} [DecidableEq κ] (m : Keyed κ ι σ ω ε)

/-- The states after a stream, and every input with what was said about it. -/
def run (s : κ → σ) : List ι → Except ε ((κ → σ) × List (ι × ω))
  | [] => .ok (s, [])
  | x :: xs =>
      match m.step (s (m.key x)) x with
      | .error e => .error e
      | .ok (t, o) =>
          match run (Function.update s (m.key x) t) xs with
          | .error e => .error e
          | .ok (s', os) => .ok (s', (x, o) :: os)

/-- A stream of inputs with one key. -/
def runOne (m : Keyed κ ι σ ω ε) (t : σ) : List ι → Except ε (σ × List (ι × ω))
  | [] => .ok (t, [])
  | x :: xs =>
      match m.step t x with
      | .error e => .error e
      | .ok (t', o) =>
          match runOne m t' xs with
          | .error e => .error e
          | .ok (t'', os) => .ok (t'', (x, o) :: os)

/-- The inputs of one key. -/
def only (k : κ) (xs : List ι) : List ι := xs.filter fun x => m.key x = k

/-- What was said about the inputs of one key. -/
def onlyOut (k : κ) (os : List (ι × ω)) : List (ι × ω) := os.filter fun o => m.key o.1 = k

/-- A key whose inputs are judged without a state. -/
def Stateless (k : κ) : Prop :=
  ∃ f : ι → Except ε ω, ∀ t x, m.key x = k → m.step t x = (f x).map fun o => (t, o)

variable {m}

theorem run_cons_eq_ok {s s' : κ → σ} {x : ι} {xs : List ι} {os : List (ι × ω)} :
    m.run s (x :: xs) = .ok (s', os) ↔
      ∃ t o rest, m.step (s (m.key x)) x = .ok (t, o) ∧
        m.run (Function.update s (m.key x) t) xs = .ok (s', rest) ∧ os = (x, o) :: rest := by
  rw [run]
  cases hstep : m.step (s (m.key x)) x with
  | error e => simp
  | ok p =>
      obtain ⟨t, o⟩ := p
      dsimp only
      cases hrun : m.run (Function.update s (m.key x) t) xs with
      | error e =>
          simp only [Except.ok.injEq, Prod.mk.injEq]
          constructor
          · intro h
            cases h
          · rintro ⟨_, _, rest, ⟨rfl, rfl⟩, h, -⟩
            rw [hrun] at h
            cases h
      | ok q =>
          obtain ⟨u, rest⟩ := q
          simp only [Except.ok.injEq, Prod.mk.injEq]
          constructor
          · rintro ⟨rfl, rfl⟩
            exact ⟨t, o, rest, ⟨rfl, rfl⟩, hrun, rfl⟩
          · rintro ⟨_, _, _, ⟨rfl, rfl⟩, h, rfl⟩
            rw [hrun] at h
            obtain ⟨rfl, rfl⟩ := Prod.mk.inj (Except.ok.inj h)
            exact ⟨rfl, rfl⟩

omit [DecidableEq κ] in
theorem runOne_cons_eq_ok {t t' : σ} {x : ι} {xs : List ι} {os : List (ι × ω)} :
    m.runOne t (x :: xs) = .ok (t', os) ↔
      ∃ u o rest, m.step t x = .ok (u, o) ∧ m.runOne u xs = .ok (t', rest) ∧
        os = (x, o) :: rest := by
  rw [runOne]
  cases hstep : m.step t x with
  | error e => simp
  | ok p =>
      obtain ⟨u, o⟩ := p
      dsimp only
      cases hrun : m.runOne u xs with
      | error e =>
          simp only [Except.ok.injEq, Prod.mk.injEq]
          constructor
          · intro h
            cases h
          · rintro ⟨_, _, rest, ⟨rfl, rfl⟩, h, -⟩
            rw [hrun] at h
            cases h
      | ok q =>
          obtain ⟨v, rest⟩ := q
          simp only [Except.ok.injEq, Prod.mk.injEq]
          constructor
          · rintro ⟨rfl, rfl⟩
            exact ⟨u, o, rest, ⟨rfl, rfl⟩, hrun, rfl⟩
          · rintro ⟨_, _, _, ⟨rfl, rfl⟩, h, rfl⟩
            rw [hrun] at h
            obtain ⟨rfl, rfl⟩ := Prod.mk.inj (Except.ok.inj h)
            exact ⟨rfl, rfl⟩

/-- A stream in two parts is processed one part after the other. -/
theorem run_append_eq_ok {s s' : κ → σ} {xs ys : List ι} {os : List (ι × ω)} :
    m.run s (xs ++ ys) = .ok (s', os) ↔
      ∃ mid os₁ os₂, m.run s xs = .ok (mid, os₁) ∧ m.run mid ys = .ok (s', os₂) ∧
        os = os₁ ++ os₂ := by
  induction xs generalizing s os with
  | nil =>
      constructor
      · intro h
        exact ⟨s, [], os, rfl, h, rfl⟩
      · rintro ⟨mid, os₁, os₂, h, hrest, rfl⟩
        obtain ⟨rfl, rfl⟩ := Prod.mk.inj (Except.ok.inj h)
        exact hrest
  | cons x xs ih =>
      rw [List.cons_append, run_cons_eq_ok]
      constructor
      · rintro ⟨t, o, rest, hstep, hrun, rfl⟩
        obtain ⟨mid, os₁, os₂, h₁, h₂, rfl⟩ := ih.mp hrun
        exact ⟨mid, (x, o) :: os₁, os₂, run_cons_eq_ok.mpr ⟨t, o, os₁, hstep, h₁, rfl⟩, h₂, rfl⟩
      · rintro ⟨mid, os₁, os₂, h, hrest, rfl⟩
        obtain ⟨t, o, rest, hstep, hrun, rfl⟩ := run_cons_eq_ok.mp h
        exact ⟨t, o, rest ++ os₂, hstep, ih.mpr ⟨mid, rest, os₂, hrun, hrest, rfl⟩, rfl⟩

/-- A run says of the inputs of a key what their own run says. -/
theorem run_only {s s' : κ → σ} {xs : List ι} {os : List (ι × ω)}
    (h : m.run s xs = .ok (s', os)) (k : κ) :
    m.runOne (s k) (m.only k xs) = .ok (s' k, m.onlyOut k os) := by
  induction xs generalizing s os with
  | nil =>
      obtain ⟨rfl, rfl⟩ := Prod.mk.inj (Except.ok.inj h)
      rfl
  | cons x xs ih =>
      obtain ⟨t, o, rest, hstep, hrun, rfl⟩ := run_cons_eq_ok.mp h
      have hrest := ih hrun
      by_cases hk : m.key x = k
      · subst hk
        rw [Function.update_self] at hrest
        have hx : m.only (m.key x) (x :: xs) = x :: m.only (m.key x) xs := by simp [only]
        have ho : m.onlyOut (m.key x) ((x, o) :: rest) = (x, o) :: m.onlyOut (m.key x) rest := by
          simp [onlyOut]
        rw [hx, ho]
        exact runOne_cons_eq_ok.mpr ⟨t, o, _, hstep, hrest, rfl⟩
      · rw [Function.update_of_ne (Ne.symm hk)] at hrest
        have hx : m.only k (x :: xs) = m.only k xs := by simp [only, hk]
        have ho : m.onlyOut k ((x, o) :: rest) = m.onlyOut k rest := by simp [onlyOut, hk]
        rw [hx, ho]
        exact hrest

theorem run_inputs {s s' : κ → σ} {xs : List ι} {os : List (ι × ω)}
    (h : m.run s xs = .ok (s', os)) : os.map Prod.fst = xs := by
  induction xs generalizing s os with
  | nil =>
      obtain ⟨rfl, rfl⟩ := Prod.mk.inj (Except.ok.inj h)
      rfl
  | cons x xs ih =>
      obtain ⟨t, o, rest, -, hrun, rfl⟩ := run_cons_eq_ok.mp h
      rw [List.map_cons, ih hrun]

/-- A stream is processed to its end when the inputs of every key are. -/
theorem run_ok_of_only (xs : List ι) (s : κ → σ)
    (h : ∀ k, ∃ r, m.runOne (s k) (m.only k xs) = .ok r) : ∃ r, m.run s xs = .ok r := by
  induction xs generalizing s with
  | nil => exact ⟨_, rfl⟩
  | cons x xs ih =>
      obtain ⟨⟨t', os⟩, hx⟩ := h (m.key x)
      have hcons : m.only (m.key x) (x :: xs) = x :: m.only (m.key x) xs := by simp [only]
      rw [hcons] at hx
      obtain ⟨t, o, rest, hstep, hrest, rfl⟩ := runOne_cons_eq_ok.mp hx
      obtain ⟨⟨s', os'⟩, hrun⟩ := ih (Function.update s (m.key x) t) (fun k => by
        by_cases hk : m.key x = k
        · subst hk
          rw [Function.update_self]
          exact ⟨_, hrest⟩
        · rw [Function.update_of_ne (Ne.symm hk)]
          have hsame : m.only k (x :: xs) = m.only k xs := by simp [only, hk]
          rw [← hsame]
          exact h k)
      exact ⟨_, run_cons_eq_ok.mpr ⟨t, o, os', hstep, hrun, rfl⟩⟩

omit [DecidableEq κ] in
/-- Without a state the order of the inputs is that of the verdicts. -/
theorem runOne_perm {k : κ} (hk : m.Stateless k) {xs ys : List ι} (hp : xs.Perm ys)
    (hx : ∀ x ∈ xs, m.key x = k) {t t' : σ} {os : List (ι × ω)}
    (h : m.runOne t xs = .ok (t', os)) :
    ∃ ps, m.runOne t ys = .ok (t', ps) ∧ os.Perm ps := by
  obtain ⟨f, hf⟩ := hk
  have hstep : ∀ x ∈ xs, ∀ t u o, m.step t x = .ok (u, o) → u = t ∧ ∀ v, m.step v x = .ok (v, o) := by
    intro x hm t u o hs
    rw [hf t x (hx x hm)] at hs
    cases hfx : f x with
    | error e =>
        rw [hfx] at hs
        cases hs
    | ok o' =>
        rw [hfx] at hs
        obtain ⟨rfl, rfl⟩ := Prod.mk.inj (Except.ok.inj hs)
        refine ⟨rfl, fun v => ?_⟩
        rw [hf v x (hx x hm), hfx]
        rfl
  induction hp generalizing t os with
  | nil => exact ⟨os, h, List.Perm.refl _⟩
  | cons x hp ih =>
      obtain ⟨u, o, rest, hs, hrest, rfl⟩ := runOne_cons_eq_ok.mp h
      obtain ⟨ps, hps, hperm⟩ := ih (fun y hy => hx y (List.mem_cons_of_mem _ hy)) hrest
        (fun y hy => hstep y (List.mem_cons_of_mem _ hy))
      exact ⟨(x, o) :: ps, runOne_cons_eq_ok.mpr ⟨u, o, ps, hs, hps, rfl⟩, hperm.cons _⟩
  | swap x y l =>
      obtain ⟨u, o, _, hs, hrest, rfl⟩ := runOne_cons_eq_ok.mp h
      obtain ⟨v, p, rest, hs', hlast, rfl⟩ := runOne_cons_eq_ok.mp hrest
      obtain ⟨rfl, hy⟩ := hstep y (by simp) _ _ _ hs
      obtain ⟨rfl, hx'⟩ := hstep x (by simp) _ _ _ hs'
      exact ⟨(x, p) :: (y, o) :: rest, runOne_cons_eq_ok.mpr ⟨_, p, _, hx' _,
        runOne_cons_eq_ok.mpr ⟨_, o, rest, hy _, hlast, rfl⟩, rfl⟩, List.Perm.swap _ _ _⟩
  | trans h₁ h₂ ih₁ ih₂ =>
      obtain ⟨ps, hps, hperm⟩ := ih₁ hx h hstep
      obtain ⟨qs, hqs, hperm'⟩ := ih₂ (fun y hy => hx y (h₁.symm.subset hy)) hps
        (fun y hy => hstep y (h₁.symm.subset hy))
      exact ⟨qs, hqs, hperm.trans hperm'⟩

/-- A stream of one key runs on the state of that key. -/
theorem run_eq_runOne {k : κ} (s : κ → σ) {xs : List ι} (hx : ∀ x ∈ xs, m.key x = k) :
    m.run s xs = (m.runOne (s k) xs).map fun p => (Function.update s k p.1, p.2) := by
  induction xs generalizing s with
  | nil => simp [run, runOne, Except.map]
  | cons x xs ih =>
      obtain rfl := hx x (by simp)
      rw [run, runOne]
      cases m.step (s (m.key x)) x with
      | error e => rfl
      | ok p =>
          obtain ⟨t, o⟩ := p
          dsimp only
          rw [ih _ fun y hy => hx y (by simp [hy]), Function.update_self]
          cases m.runOne t xs with
          | error e => rfl
          | ok q => simp [Except.map]

/-- Whatever a run says, a step has said. -/
theorem step_of_mem_run {s s' : κ → σ} {xs : List ι} {os : List (ι × ω)}
    (h : m.run s xs = .ok (s', os)) : ∀ o ∈ os, ∃ t t', m.step t o.1 = .ok (t', o.2) := by
  induction xs generalizing s os with
  | nil =>
      obtain ⟨-, rfl⟩ := Prod.mk.inj (Except.ok.inj h)
      simp
  | cons x rest ih =>
      obtain ⟨t, o, more, hstep, hrun, rfl⟩ := run_cons_eq_ok.mp h
      exact List.forall_mem_cons.mpr ⟨⟨_, _, hstep⟩, ih hrun⟩

/-- What is processed to its end is processed input by input. -/
theorem step_of_run {s s' : κ → σ} {xs : List ι} {os : List (ι × ω)}
    (h : m.run s xs = .ok (s', os)) : ∀ x ∈ xs, ∃ t p, m.step t x = .ok p := by
  induction xs generalizing s os with
  | nil => simp
  | cons x xs ih =>
      obtain ⟨t, o, rest, hstep, hrun, rfl⟩ := run_cons_eq_ok.mp h
      exact List.forall_mem_cons.mpr ⟨⟨_, _, hstep⟩, ih hrun⟩

/-- Where no state decides whether an input is processed, a stream is processed to its end
exactly when every input is. -/
theorem run_ok_iff {P : ι → Prop} (hP : ∀ t x, (∃ p, m.step t x = .ok p) ↔ P x) (s : κ → σ)
    (xs : List ι) : (∃ r, m.run s xs = .ok r) ↔ ∀ x ∈ xs, P x := by
  constructor
  · rintro ⟨⟨s', os⟩, h⟩ x hx
    obtain ⟨t, p, hstep⟩ := step_of_run h x hx
    exact (hP t x).mp ⟨p, hstep⟩
  · intro h
    induction xs generalizing s with
    | nil => exact ⟨_, rfl⟩
    | cons x xs ih =>
        obtain ⟨hx, hrest⟩ := List.forall_mem_cons.mp h
        obtain ⟨⟨t, o⟩, hstep⟩ := (hP (s (m.key x)) x).mpr hx
        obtain ⟨⟨s', os⟩, hrun⟩ := ih (Function.update s (m.key x) t) hrest
        exact ⟨_, run_cons_eq_ok.mpr ⟨t, o, os, hstep, hrun, rfl⟩⟩

/-- Lists that are rearrangements of each other key by key are rearrangements. -/
theorem perm_of_onlyOut {os ps : List (ι × ω)}
    (h : ∀ k, (m.onlyOut k os).Perm (m.onlyOut k ps)) : os.Perm ps := by
  classical
  refine List.perm_iff_count.mpr fun a => ?_
  have hcount : ∀ l : List (ι × ω), (m.onlyOut (m.key a.1) l).count a = l.count a := by
    intro l
    exact List.count_filter (by simp)
  rw [← hcount os, ← hcount ps]
  exact (h _).count_eq a

/-- Two streams with the same inputs of every key, in the same order where the key has a
state. -/
def Shuffled (m : Keyed κ ι σ ω ε) (xs ys : List ι) : Prop :=
  ∀ k, m.only k xs = m.only k ys ∨ m.Stateless k ∧ (m.only k xs).Perm (m.only k ys)

/-- A shuffled stream ends in the same states, with the same verdicts in the same order for
every key whose inputs kept their order. -/
theorem run_shuffled {s s' : κ → σ} {xs ys : List ι} {os : List (ι × ω)}
    (hsh : m.Shuffled xs ys) (h : m.run s xs = .ok (s', os)) :
    ∃ ps, m.run s ys = .ok (s', ps) ∧ os.Perm ps ∧
      ∀ k, m.only k xs = m.only k ys → m.onlyOut k os = m.onlyOut k ps := by
  have hone : ∀ k, ∃ ps, m.runOne (s k) (m.only k ys) = .ok (s' k, ps) ∧
      (m.onlyOut k os).Perm ps := by
    intro k
    have hk := run_only h k
    rcases hsh k with heq | ⟨hless, hperm⟩
    · exact ⟨_, heq ▸ hk, List.Perm.refl _⟩
    · exact runOne_perm hless hperm (fun x hx => by simpa using (List.mem_filter.mp hx).2) hk
  obtain ⟨⟨s'', ps⟩, hrun⟩ := run_ok_of_only ys s fun k =>
    let ⟨ps, hps, _⟩ := hone k
    ⟨_, hps⟩
  have hsame : ∀ k, s'' k = s' k ∧ (m.onlyOut k os).Perm (m.onlyOut k ps) := by
    intro k
    obtain ⟨qs, hqs, hperm⟩ := hone k
    obtain ⟨h₁, h₂⟩ := Prod.mk.inj (Except.ok.inj ((run_only hrun k).symm.trans hqs))
    exact ⟨h₁, h₂ ▸ hperm⟩
  obtain rfl : s'' = s' := funext fun k => (hsame k).1
  refine ⟨ps, hrun, perm_of_onlyOut fun k => (hsame k).2, fun k hk => ?_⟩
  have hy := run_only hrun k
  rw [← hk, run_only h k] at hy
  exact (Prod.mk.inj (Except.ok.inj hy)).2

end Keyed

end IcsDeception
