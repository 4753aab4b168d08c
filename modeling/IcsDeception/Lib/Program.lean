import Mathlib.Logic.Basic

/-!
# Programs that call an outside world

A program is a tree of calls. A world says which answers a call may get and which
state it leaves, and which states a crash in the middle of a call may leave.

`Prog.Ends` and `Prog.Crashes` are the finished and the interrupted runs of a
program. `Prog.Safe` is the weakest condition under which every finished run meets a
postcondition and every interrupted one a crash condition; `safe_bind` is the rule by
which it is established along a program.

## Implementation notes

A tree has no infinite branch, so a program always comes to an end: a statement about
all finished runs is about all runs, as long as every call gets some answer.
-/

namespace IcsDeception

/-- An interface: its operations, and the type of the answers to each. -/
structure Interface where
  Op : Type
  Answer : Op → Type

/-- A program over an interface. -/
inductive Prog (I : Interface) (α : Type)
  | done (a : α)
  | call (o : I.Op) (k : I.Answer o → Prog I α)

/-- How a world of states `σ` answers. -/
structure World (I : Interface) (σ : Type) where
  /-- The call may get this answer and leave this state. -/
  answers : (o : I.Op) → σ → I.Answer o → σ → Prop
  /-- A crash in the middle of the call may leave this state. -/
  tears : I.Op → σ → σ → Prop

/-- Every call gets an answer. -/
def World.Responsive {I : Interface} {σ : Type} (w : World I σ) : Prop :=
  ∀ o s, ∃ r t, w.answers o s r t

namespace Prog

variable {I : Interface} {α β σ : Type}

/-- Sequencing. -/
def bind : Prog I α → (α → Prog I β) → Prog I β
  | done a, f => f a
  | call o k, f => call o fun r => (k r).bind f

/-- One call. -/
def perform (o : I.Op) : Prog I (I.Answer o) := call o done

/-- A finished run, from a state to a result and a state. -/
def Ends (w : World I σ) : Prog I α → σ → α → σ → Prop
  | done a, s, b, t => b = a ∧ t = s
  | call o k, s, b, t => ∃ r m, w.answers o s r m ∧ (k r).Ends w m b t

/-- A run that a crash interrupts, from a state to what it leaves. -/
def Crashes (w : World I σ) : Prog I α → σ → σ → Prop
  | done _, s, t => t = s
  | call o k, s, t => t = s ∨ w.tears o s t ∨ ∃ r m, w.answers o s r m ∧ (k r).Crashes w m t

/-- The weakest condition for a crash condition and a postcondition. -/
def Safe (w : World I σ) (C : σ → Prop) (Q : α → σ → Prop) : Prog I α → σ → Prop
  | done a, s => C s ∧ Q a s
  | call o k, s =>
      C s ∧ (∀ t, w.tears o s t → C t) ∧ ∀ r m, w.answers o s r m → (k r).Safe w C Q m

theorem bind_assoc {γ : Type} (p : Prog I α) (f : α → Prog I β) (g : β → Prog I γ) :
    (p.bind f).bind g = p.bind fun a => (f a).bind g := by
  induction p with
  | done a => rfl
  | call o k ih => exact congrArg (call o) (funext ih)

/-- Every finished run of a safe program meets the postcondition. -/
theorem Safe.ends {w : World I σ} {C : σ → Prop} {Q : α → σ → Prop} {p : Prog I α} {s t : σ}
    {a : α} (h : p.Safe w C Q s) (he : p.Ends w s a t) : Q a t := by
  induction p generalizing s with
  | done b =>
      obtain ⟨rfl, rfl⟩ := he
      exact h.2
  | call o k ih =>
      obtain ⟨r, m, hr, he⟩ := he
      exact ih r (h.2.2 r m hr) he

/-- A safe program starts in a state that meets the crash condition. -/
theorem Safe.start {w : World I σ} {C : σ → Prop} {Q : α → σ → Prop} {p : Prog I α} {s : σ}
    (h : p.Safe w C Q s) : C s := by
  cases p with
  | done a => exact h.1
  | call o k => exact h.1

/-- Every crash of a safe program leaves a state that meets the crash condition. -/
theorem Safe.crashes {w : World I σ} {C : σ → Prop} {Q : α → σ → Prop} {p : Prog I α} {s t : σ}
    (h : p.Safe w C Q s) (hc : p.Crashes w s t) : C t := by
  induction p generalizing s with
  | done b =>
      obtain rfl := hc
      exact h.1
  | call o k ih =>
      rcases hc with rfl | ht | ⟨r, m, hr, hc⟩
      · exact h.1
      · exact h.2.1 t ht
      · exact ih r (h.2.2 r m hr) hc

/-- A program all of whose interrupted runs meet a condition is safe for it. -/
theorem safe_of_crashes {w : World I σ} {C : σ → Prop} {p : Prog I α} {s : σ}
    (h : ∀ t, p.Crashes w s t → C t) : p.Safe w C (fun _ _ => True) s := by
  induction p generalizing s with
  | done a => exact ⟨h s rfl, trivial⟩
  | call o k ih =>
      refine ⟨h s (.inl rfl), fun t ht => h t (.inr (.inl ht)), fun r m hr => ?_⟩
      exact ih r fun t ht => h t (.inr (.inr ⟨r, m, hr, ht⟩))

/-- The rule of sequencing. -/
theorem safe_bind {w : World I σ} {C : σ → Prop} {Q : β → σ → Prop} {p : Prog I α}
    {f : α → Prog I β} {s : σ} :
    (p.bind f).Safe w C Q s ↔ p.Safe w C (fun a t => (f a).Safe w C Q t) s := by
  induction p generalizing s with
  | done a => exact ⟨fun h => ⟨h.start, h⟩, fun h => h.2⟩
  | call o k ih =>
      constructor
      · exact fun h => ⟨h.1, h.2.1, fun r m hr => (ih r).mp (h.2.2 r m hr)⟩
      · exact fun h => ⟨h.1, h.2.1, fun r m hr => (ih r).mpr (h.2.2 r m hr)⟩

/-- The rule of consequence. -/
theorem Safe.mono {w : World I σ} {C D : σ → Prop} {Q R : α → σ → Prop} {p : Prog I α} {s : σ}
    (h : p.Safe w C Q s) (hC : ∀ t, C t → D t) (hQ : ∀ a t, C t → Q a t → R a t) :
    p.Safe w D R s := by
  induction p generalizing s with
  | done a => exact ⟨hC s h.1, hQ a s h.1 h.2⟩
  | call o k ih =>
      exact ⟨hC s h.1, fun t ht => hC t (h.2.1 t ht), fun r m hr => ih r (h.2.2 r m hr)⟩

/-- In a responsive world a program comes to an end. -/
theorem exists_ends {w : World I σ} (hw : w.Responsive) (p : Prog I α) (s : σ) :
    ∃ a t, p.Ends w s a t := by
  induction p generalizing s with
  | done a => exact ⟨a, s, rfl, rfl⟩
  | call o k ih =>
      obtain ⟨r, m, hr⟩ := hw o s
      obtain ⟨a, t, h⟩ := ih r m
      exact ⟨a, t, r, m, hr, h⟩

/-- A run of a world is one of every world that may answer in the same way. -/
theorem Ends.of_world {w w' : World I σ} (h : ∀ o s r t, w.answers o s r t → w'.answers o s r t)
    {p : Prog I α} {s t : σ} {a : α} (he : p.Ends w s a t) : p.Ends w' s a t := by
  induction p generalizing s with
  | done b => exact he
  | call o k ih =>
      obtain ⟨r, m, hr, he⟩ := he
      exact ⟨r, m, h o s r m hr, ih r he⟩

/-- The run in which a handler answers. -/
def exec (h : (o : I.Op) → σ → I.Answer o × σ) : Prog I α → σ → α × σ
  | done a, s => (a, s)
  | call o k, s => (k (h o s).1).exec h (h o s).2

/-- A handler that answers as the world may gives a run of the world. -/
theorem ends_exec {w : World I σ} {h : (o : I.Op) → σ → I.Answer o × σ}
    (hw : ∀ o s, w.answers o s (h o s).1 (h o s).2) (p : Prog I α) (s : σ) :
    p.Ends w s (p.exec h s).1 (p.exec h s).2 := by
  induction p generalizing s with
  | done a => exact ⟨rfl, rfl⟩
  | call o k ih => exact ⟨_, _, hw o s, ih _ _⟩

/-- What the run in which a handler answers leaves when a crash cuts it off at the first call
for which a torn state is given. -/
def cut (h : (o : I.Op) → σ → I.Answer o × σ) (torn : I.Op → σ → Option σ) :
    Prog I α → σ → Option σ
  | done _, _ => none
  | call o k, s => (torn o s).or ((k (h o s).1).cut h torn (h o s).2)

/-- A run that is cut off is interrupted by a crash. -/
theorem crashes_cut {w : World I σ} {h : (o : I.Op) → σ → I.Answer o × σ}
    {torn : I.Op → σ → Option σ} (hw : ∀ o s, w.answers o s (h o s).1 (h o s).2)
    (ht : ∀ o s t, torn o s = some t → w.tears o s t) {p : Prog I α} {s t : σ}
    (hc : p.cut h torn s = some t) : p.Crashes w s t := by
  induction p generalizing s with
  | done a => cases hc
  | call o k ih =>
      rcases Option.or_eq_some_iff.mp hc with hc | ⟨-, hc⟩
      · exact .inr (.inl (ht o s t hc))
      · exact .inr (.inr ⟨_, _, hw o s, ih _ hc⟩)

end Prog

end IcsDeception
