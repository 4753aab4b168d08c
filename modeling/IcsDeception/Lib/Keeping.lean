import IcsDeception.Lib.Method

/-!
# What every call of a method keeps

Where each call of a method keeps a relation between the object and the outside, so does
the method, whatever it returns: the rules below follow the way it is built. Where every
answer of a world keeps a set of its states, every method ends in the set.
-/

namespace IcsDeception

variable {I : Interface} {ε ω α β σ : Type}

/-- Every answer keeps a set of states. -/
def World.Keeps (w : World I σ) (K : σ → Prop) : Prop := ∀ c s r t, K s → w.answers c s r t → K t

theorem Prog.safe_of_keeps {w : World I σ} {K : σ → Prop} (hw : w.Keeps K) (p : Prog I α) {s : σ}
    (hs : K s) : p.Safe w (fun _ => True) (fun _ t => K t) s := by
  induction p generalizing s with
  | done a => exact ⟨trivial, hs⟩
  | call c k ih => exact ⟨trivial, fun _ _ => trivial, fun r t hr => ih r (hw c s r t hs hr)⟩

/-- Every finished run ends in a set that the world keeps. -/
theorem Prog.Ends.kept {w : World I σ} {K : σ → Prop} (hw : w.Keeps K) {p : Prog I α} {s t : σ}
    {a : α} (h : p.Ends w s a t) (hs : K s) : K t :=
  (p.safe_of_keeps hw hs).ends h

namespace Method

theorem safe_of_keeps {w : World I σ} {K : σ → Prop} (hw : w.Keeps K) (m : Method I ε ω α) {o : ω}
    {s : σ} (hs : K s) : m.Safe w (fun _ => True) (fun _ _ t => K t) o s :=
  (m o).safe_of_keeps hw hs

/-- A method that starts in a relation of its object and the outside ends in it. -/
def Keeps (w : World I σ) (K : ω → σ → Prop) (m : Method I ε ω α) : Prop :=
  ∀ o s, K o s → m.Safe w (fun _ => True) (fun _ o' t => K o' t) o s

section Rules

variable {w : World I σ} {K : ω → σ → Prop}

theorem keeps_pure (a : α) : (pure a : Method I ε ω α).Keeps w K := fun _ _ h => ⟨trivial, h⟩

theorem keeps_raise (e : ε) : (raise e : Method I ε ω α).Keeps w K := fun _ _ h => ⟨trivial, h⟩

theorem keeps_ofExcept (r : Except ε α) : (ofExcept r : Method I ε ω α).Keeps w K :=
  fun _ _ h => ⟨trivial, h⟩

theorem keeps_self : (self : Method I ε ω ω).Keeps w K := fun _ _ h => ⟨trivial, h⟩

theorem keeps_modify {f : ω → ω} (hf : ∀ o s, K o s → K (f o) s) :
    (modify f : Method I ε ω Unit).Keeps w K :=
  fun o s h => ⟨trivial, hf o s h⟩

theorem Keeps.bind {m : Method I ε ω α} {f : α → Method I ε ω β} (hm : m.Keeps w K)
    (hf : ∀ a, (f a).Keeps w K) : (m >>= f).Keeps w K := by
  intro o s h
  rw [safe_bind]
  refine (hm o s h).weaken fun r o' t _ hk => ?_
  cases r with
  | ok a => exact hf a o' t hk
  | error e => exact hk

theorem Keeps.attempt {m : Method I ε ω α} (hm : m.Keeps w K) : (attempt m).Keeps w K := by
  intro o s h
  rw [safe_attempt]
  exact hm o s h

theorem Keeps.suppress {p : ε → Bool} {m : Method I ε ω Unit} (hm : m.Keeps w K) :
    (suppress p m).Keeps w K := by
  intro o s h
  rw [safe_suppress]
  exact hm o s h

/-- The rule of a method that may be used where the relation holds. -/
theorem Keeps.safe {m : Method I ε ω α} (hm : m.Keeps w K) {o : ω} {s : σ} (h : K o s)
    {Q : Except ε α → ω → σ → Prop} (hQ : ∀ r o' t, K o' t → Q r o' t) :
    m.Safe w (fun _ => True) Q o s :=
  (hm o s h).weaken fun r o' t _ hk => hQ r o' t hk

end Rules

end Method

end IcsDeception
