import IcsDeception.Lib.Program

/-!
# Methods of an object

A method runs on an object, may raise, and calls the outside world. What it has
stored in the object before it raises stays there. Every call of the interface may
fail, and a failed call raises in the method.

`Method.Safe` is `Prog.Safe` with the object in view, and one rule for each way to
build a method.
-/

namespace IcsDeception

/-- Operations that answer with a result or an exception. -/
def Interface.fallible (Op ε : Type) (Result : Op → Type) : Interface where
  Op := Op
  Answer o := Except ε (Result o)

/-- A method on an object of type `ω`. -/
def Method (I : Interface) (ε ω α : Type) : Type := ω → Prog I (Except ε α × ω)

namespace Method

variable {I : Interface} {ε ω α β σ : Type}

/-- Continue a method that has returned; a method that has raised is over. -/
def andThen (f : α → Method I ε ω β) : Except ε α × ω → Prog I (Except ε β × ω)
  | (.ok a, o) => f a o
  | (.error e, o) => .done (.error e, o)

instance : Monad (Method I ε ω) where
  pure a := fun o => .done (.ok a, o)
  bind m f := fun o => (m o).bind (andThen f)

theorem bind_assoc {γ : Type} (m : Method I ε ω α) (f : α → Method I ε ω β)
    (g : β → Method I ε ω γ) : m >>= f >>= g = m >>= fun a => f a >>= g := by
  funext o
  refine (Prog.bind_assoc (m o) (andThen f) (andThen g)).trans (congrArg (m o).bind ?_)
  funext p
  obtain ⟨r, o'⟩ := p
  cases r with
  | ok a => rfl
  | error e => rfl

/-- Raise an exception. -/
def raise (e : ε) : Method I ε ω α := fun o => .done (.error e, o)

/-- A result or an exception that is at hand. -/
def ofExcept (r : Except ε α) : Method I ε ω α := fun o => .done (r, o)

/-- The object itself. -/
def self : Method I ε ω ω := fun o => .done (.ok o, o)

/-- Change the object. -/
def modify (f : ω → ω) : Method I ε ω Unit := fun o => .done (.ok (), f o)

/-- Run a method and have its exception as a value. -/
def attempt (m : Method I ε ω α) : Method I ε ω (Except ε α) :=
  fun o => (m o).bind fun p => .done (.ok p.1, p.2)

/-- Drop an exception of some classes. -/
def forgive (p : ε → Bool) : Except ε Unit → Except ε Unit
  | .ok () => .ok ()
  | .error e => if p e then .ok () else .error e

/-- Run a method and drop an exception of some classes. -/
def suppress (p : ε → Bool) (m : Method I ε ω Unit) : Method I ε ω Unit := do
  let r ← attempt m
  ofExcept (forgive p r)

/-- Make a call. -/
def call {Op : Type} {Result : Op → Type} (c : Op) :
    Method (Interface.fallible Op ε Result) ε ω (Result c) :=
  fun o => .call c fun r => .done (r, o)

/-- A finished run of a method. -/
def Ends (w : World I σ) (m : Method I ε ω α) (o : ω) (s : σ) (r : Except ε α) (o' : ω) (s' : σ) :
    Prop :=
  (m o).Ends w s (r, o') s'

/-- The weakest condition for a crash condition and a postcondition. -/
def Safe (w : World I σ) (C : σ → Prop) (Q : Except ε α → ω → σ → Prop) (m : Method I ε ω α)
    (o : ω) (s : σ) : Prop :=
  (m o).Safe w C (fun p t => Q p.1 p.2 t) s

/-- What is asked of a method's outcome when another method follows. -/
def Then (w : World I σ) (C : σ → Prop) (Q : Except ε β → ω → σ → Prop) (f : α → Method I ε ω β) :
    Except ε α → ω → σ → Prop
  | .ok a, o, s => (f a).Safe w C Q o s
  | .error e, o, s => Q (.error e) o s

section Rules

variable {w : World I σ} {C : σ → Prop} {o : ω} {s : σ}

theorem Safe.ends {Q : Except ε α → ω → σ → Prop} {m : Method I ε ω α} {r : Except ε α} {o' : ω}
    {s' : σ} (h : m.Safe w C Q o s) (he : m.Ends w o s r o' s') : Q r o' s' := by
  have hq := Prog.Safe.ends (show (m o).Safe w C (fun p t => Q p.1 p.2 t) s from h) he
  exact hq

theorem Safe.crashes {Q : Except ε α → ω → σ → Prop} {m : Method I ε ω α} {s' : σ}
    (h : m.Safe w C Q o s) (hc : (m o).Crashes w s s') : C s' :=
  Prog.Safe.crashes h hc

theorem Safe.start {Q : Except ε α → ω → σ → Prop} {m : Method I ε ω α}
    (h : m.Safe w C Q o s) : C s :=
  Prog.Safe.start h

theorem Safe.mono {D : σ → Prop} {Q R : Except ε α → ω → σ → Prop} {m : Method I ε ω α}
    (h : m.Safe w C Q o s) (hC : ∀ t, C t → D t) (hQ : ∀ r o' t, C t → Q r o' t → R r o' t) :
    m.Safe w D R o s :=
  Prog.Safe.mono h hC fun p t => hQ p.1 p.2 t

theorem Safe.weaken {Q R : Except ε α → ω → σ → Prop} {m : Method I ε ω α}
    (h : m.Safe w C Q o s) (hQ : ∀ r o' t, C t → Q r o' t → R r o' t) : m.Safe w C R o s :=
  h.mono (fun _ ht => ht) hQ

@[simp] theorem safe_pure {Q : Except ε α → ω → σ → Prop} {a : α} :
    (pure a : Method I ε ω α).Safe w C Q o s ↔ C s ∧ Q (.ok a) o s := Iff.rfl

@[simp] theorem safe_raise {Q : Except ε α → ω → σ → Prop} {e : ε} :
    (raise e : Method I ε ω α).Safe w C Q o s ↔ C s ∧ Q (.error e) o s := Iff.rfl

@[simp] theorem safe_ofExcept {Q : Except ε α → ω → σ → Prop} {r : Except ε α} :
    (ofExcept r : Method I ε ω α).Safe w C Q o s ↔ C s ∧ Q r o s := Iff.rfl

@[simp] theorem safe_self {Q : Except ε ω → ω → σ → Prop} :
    (self : Method I ε ω ω).Safe w C Q o s ↔ C s ∧ Q (.ok o) o s := Iff.rfl

@[simp] theorem safe_modify {Q : Except ε Unit → ω → σ → Prop} {f : ω → ω} :
    (modify f : Method I ε ω Unit).Safe w C Q o s ↔ C s ∧ Q (.ok ()) (f o) s := Iff.rfl

theorem safe_bind {Q : Except ε β → ω → σ → Prop} {m : Method I ε ω α} {f : α → Method I ε ω β} :
    (m >>= f).Safe w C Q o s ↔ m.Safe w C (Then w C Q f) o s := by
  constructor
  · intro h
    refine Prog.Safe.mono (Prog.safe_bind.mp h) (fun _ ht => ht) ?_
    rintro ⟨r, o'⟩ t - ht
    cases r with
    | ok a => exact ht
    | error e => exact ht.2
  · intro h
    refine Prog.safe_bind.mpr (Prog.Safe.mono h (fun _ ht => ht) ?_)
    rintro ⟨r, o'⟩ t hc ht
    cases r with
    | ok a => exact ht
    | error e => exact ⟨hc, ht⟩

/-- The rule of sequencing, from a postcondition of the first method. -/
theorem safe_bind_cases {R : Except ε α → ω → σ → Prop} {Q : Except ε β → ω → σ → Prop}
    {m : Method I ε ω α} {f : α → Method I ε ω β} (hm : m.Safe w C R o s)
    (herror : ∀ e o' t, R (.error e) o' t → Q (.error e) o' t)
    (hok : ∀ a o' t, R (.ok a) o' t → (f a).Safe w C Q o' t) : (m >>= f).Safe w C Q o s := by
  rw [safe_bind]
  refine hm.weaken fun r o' t _ ht => ?_
  cases r with
  | error e => exact herror e o' t ht
  | ok a => exact hok a o' t ht

theorem safe_attempt {Q : Except ε (Except ε α) → ω → σ → Prop} {m : Method I ε ω α} :
    (attempt m).Safe w C Q o s ↔ m.Safe w C (fun r => Q (.ok r)) o s := by
  constructor
  · intro h
    exact Prog.Safe.mono (Prog.safe_bind.mp h) (fun _ ht => ht) fun _ _ _ ht => ht.2
  · intro h
    exact Prog.safe_bind.mpr (Prog.Safe.mono h (fun _ ht => ht) fun _ _ hc ht => ⟨hc, ht⟩)

theorem safe_suppress {Q : Except ε Unit → ω → σ → Prop} {p : ε → Bool} {m : Method I ε ω Unit} :
    (suppress p m).Safe w C Q o s ↔ m.Safe w C (fun r => Q (forgive p r)) o s := by
  rw [suppress, safe_bind, safe_attempt]
  constructor
  · exact fun h => h.weaken fun _ _ _ _ ht => ht.2
  · exact fun h => h.weaken fun _ _ _ hc ht => ⟨hc, ht⟩

end Rules

section Calls

variable {Op : Type} {Result : Op → Type} {w : World (Interface.fallible Op ε Result) σ}
  {C : σ → Prop} {o : ω} {s : σ}

/-- The rule of a single call. -/
theorem safe_call {c : Op} {Q : Except ε (Result c) → ω → σ → Prop} :
    (call c : Method (Interface.fallible Op ε Result) ε ω (Result c)).Safe w C Q o s ↔
      C s ∧ (∀ t, w.tears c s t → C t) ∧
        ∀ (r : Except ε (Result c)) t, w.answers c s r t → C t ∧ Q r o t := Iff.rfl

end Calls

end Method

end IcsDeception
