import Mathlib

/-! Programs with a state and errors, and what they can end in.

A program of type `Prog R ε α` ends with a value and a state, or with an error and the
state the error left, and either way the final state is `R`-later than the first one:
programs carry the proof that what `R` protects is never taken back.

`Ends` says what holds at either end, and its rules follow the constructs of a `do`
block, so a program's specification is read off its text. `Meets` is `Ends` up to a
condition on the final state that nothing can take back: a program meets its
specification unless the run has gone bad. -/
namespace Pintos.Outcome

variable {ε σ α β : Type}

/-- The state a run ends in. -/
def final : EStateM.Result ε σ α → σ
  | .ok _ s => s
  | .error _ s => s

structure Prog (R : σ → σ → Prop) (ε α : Type) where
  run : EStateM ε σ α
  within : ∀ s, R s (final (run s))

namespace Prog

variable {R : σ → σ → Prop}

/-- A change of the state along `R`. -/
def update (f : σ → σ) (h : ∀ s, R s (f s)) : Prog R ε Unit := ⟨fun s => .ok () (f s), h⟩

variable [Std.Refl R]

protected def pure (a : α) : Prog R ε α := ⟨fun s => .ok a s, Std.Refl.refl⟩

/-- The state, or a part of it. -/
def look (f : σ → α) : Prog R ε α := ⟨fun s => .ok (f s) s, Std.Refl.refl⟩

protected def throw (e : ε) : Prog R ε α := ⟨fun s => .error e s, Std.Refl.refl⟩

variable [IsTrans σ R]

protected def bind (m : Prog R ε α) (f : α → Prog R ε β) : Prog R ε β where
  run := fun s =>
    match m.run s with
    | .ok a s' => (f a).run s'
    | .error e s' => .error e s'
  within := by
    intro s
    have h := m.within s
    cases hm : m.run s with
    | ok a s' =>
      rw [hm] at h
      exact IsTrans.trans _ _ _ h ((f a).within s')
    | error e s' =>
      rw [hm] at h
      exact h

protected def tryCatch (m : Prog R ε α) (f : ε → Prog R ε α) : Prog R ε α where
  run := fun s =>
    match m.run s with
    | .ok a s' => .ok a s'
    | .error e s' => (f e).run s'
  within := by
    intro s
    have h := m.within s
    cases hm : m.run s with
    | ok a s' =>
      rw [hm] at h
      exact h
    | error e s' =>
      rw [hm] at h
      exact IsTrans.trans _ _ _ h ((f e).within s')

instance : Monad (Prog R ε) where
  pure := Prog.pure
  bind := Prog.bind

theorem run_bind (m : Prog R ε α) (f : α → Prog R ε β) (s : σ) :
    (m >>= f).run s =
      match m.run s with
      | .ok a s' => (f a).run s'
      | .error e s' => .error e s' := rfl

instance : MonadExceptOf ε (Prog R ε) where
  throw := Prog.throw
  tryCatch := Prog.tryCatch

end Prog

/-! ### How a program ends -/

/-- `m` from `s` ends normally with `Q`, or with an error and `E`. -/
def Ends {R : σ → σ → Prop} (m : Prog R ε α) (s : σ) (Q : α → σ → Prop) (E : ε → σ → Prop) : Prop :=
  match m.run s with
  | .ok a s' => Q a s'
  | .error e s' => E e s'

section Rules
variable {R : σ → σ → Prop} {m : Prog R ε α} {s : σ} {Q : α → σ → Prop} {E : ε → σ → Prop}

theorem Ends.mono {Q' : α → σ → Prop} {E' : ε → σ → Prop} (h : Ends m s Q E)
    (hQ : ∀ a s', Q a s' → Q' a s') (hE : ∀ e s', E e s' → E' e s') : Ends m s Q' E' := by
  unfold Ends at h ⊢
  split <;> simp_all

theorem Ends.imp {Q' : α → σ → Prop} (h : Ends m s Q E) (hQ : ∀ a s', Q a s' → Q' a s') :
    Ends m s Q' E :=
  h.mono hQ fun _ _ he => he

theorem Ends.and {Q' : α → σ → Prop} {E' : ε → σ → Prop} (h : Ends m s Q E) (h' : Ends m s Q' E') :
    Ends m s (fun a s' => Q a s' ∧ Q' a s') (fun e s' => E e s' ∧ E' e s') := by
  unfold Ends at h h' ⊢
  split <;> simp_all

/-- Every program ends `R`-later. -/
theorem ends_within (m : Prog R ε α) (s : σ) : Ends m s (fun _ s' => R s s') fun _ s' => R s s' := by
  have h := m.within s
  unfold Ends
  split <;> simp_all [final]

theorem ends_ok {a : α} {s' : σ} (h : m.run s = .ok a s') : Ends m s Q E ↔ Q a s' := by
  simp [Ends, h]

theorem ends_error {e : ε} {s' : σ} (h : m.run s = .error e s') : Ends m s Q E ↔ E e s' := by
  simp [Ends, h]

/-- How a program ends is what its run gives. -/
theorem ends_self (m : Prog R ε α) (s : σ) :
    Ends m s (fun a s' => m.run s = .ok a s') fun e s' => m.run s = .error e s' := by
  unfold Ends
  split <;> assumption

/-- A program that cannot fail returns. -/
theorem Ends.ok (h : Ends m s Q fun _ _ => False) : ∃ a s', m.run s = .ok a s' ∧ Q a s' := by
  unfold Ends at h
  grind

/-- `I` holds at the end of `m`, one way or the other, if it holds at its start. -/
def Preserves (I : σ → Prop) (m : Prog R ε α) : Prop := ∀ s, I s → Ends m s (fun _ => I) fun _ => I

variable {I : σ → Prop}

theorem Preserves.ite {c : Prop} [Decidable c] {m' : Prog R ε α} (h : Preserves I m) (h' : Preserves I m') :
    Preserves I (if c then m else m') := by
  split
  · exact h
  · exact h'

variable [Std.Refl R]

theorem ends_look (f : σ → α) : Ends (Prog.look f : Prog R ε α) s Q E ↔ Q (f s) s := Iff.rfl

variable [IsTrans σ R]

theorem ends_pure (a : α) : Ends (pure a : Prog R ε α) s Q E ↔ Q a s := Iff.rfl

theorem ends_throw (e : ε) : Ends (throw e : Prog R ε α) s Q E ↔ E e s := Iff.rfl

theorem ends_bind (f : α → Prog R ε β) {Q : β → σ → Prop} :
    Ends (m >>= f) s Q E ↔ Ends m s (fun a s' => Ends (f a) s' Q E) E := by
  unfold Ends
  rw [Prog.run_bind]
  cases m.run s <;> rfl

/-! ### What a program preserves -/

theorem preserves_pure (a : α) : Preserves I (pure a : Prog R ε α) := fun _ h => h

theorem preserves_throw (e : ε) : Preserves I (throw e : Prog R ε α) := fun _ h => h

theorem Preserves.bind {f : α → Prog R ε β} (h : Preserves I m) (hf : ∀ a, Preserves I (f a)) :
    Preserves I (m >>= f) := by
  intro s hs
  rw [ends_bind]
  exact (h s hs).imp fun a s' => hf a s'

end Rules

/-! ### Ends found by evaluation -/

section Evaluation
variable {R : σ → σ → Prop} {m : Prog R ε α} {s : σ}

def Prog.returns (m : Prog R ε α) (s : σ) (p : α → σ → Bool) : Bool :=
  match m.run s with
  | .ok a s' => p a s'
  | .error _ _ => false

def Prog.stops [DecidableEq ε] (m : Prog R ε α) (s : σ) (e : ε) : Bool :=
  match m.run s with
  | .ok _ _ => false
  | .error e' _ => e' = e

theorem run_of_returns {p : α → σ → Bool} (h : m.returns s p = true) : ∃ a s', m.run s = .ok a s' ∧ p a s' = true := by
  unfold Prog.returns at h
  grind

/-- The two halves of a run that returned. -/
theorem run_bind_ok [Std.Refl R] [IsTrans σ R] {β : Type} {f : α → Prog R ε β} {b : β} {s' : σ}
    (h : (m >>= f).run s = .ok b s') : ∃ a s1, m.run s = .ok a s1 ∧ (f a).run s1 = .ok b s' := by
  rw [Prog.run_bind] at h
  grind

theorem run_of_stops [DecidableEq ε] {e : ε} (h : m.stops s e = true) : ∃ s', m.run s = .error e s' := by
  unfold Prog.stops at h
  grind

end Evaluation

/-! ### Specifications up to a bad end -/

section Bad
variable {R : σ → σ → Prop} {bad : σ → Prop} {m : Prog R ε α} {s : σ} {Q : α → σ → Prop}
  {E : ε → σ → Prop}

def Meets (bad : σ → Prop) (m : Prog R ε α) (s : σ) (Q : α → σ → Prop) (E : ε → σ → Prop) : Prop :=
  Ends m s (fun a s' => bad s' ∨ Q a s') fun e s' => bad s' ∨ E e s'

/-- What is bad stays bad. -/
def Sticky (R : σ → σ → Prop) (bad : σ → Prop) : Prop := ∀ s s', R s s' → bad s → bad s'

theorem Ends.meets (h : Ends m s Q E) : Meets bad m s Q E := h.mono (fun _ _ => .inr) fun _ _ => .inr

theorem Meets.imp {Q' : α → σ → Prop} (h : Meets bad m s Q E) (hQ : ∀ a s', Q a s' → Q' a s') :
    Meets bad m s Q' E :=
  Ends.imp h fun a s' => Or.imp_right (hQ a s')

theorem Meets.ends (h : Meets bad m s Q E) (hbad : ∀ s, ¬ bad s) : Ends m s Q E :=
  h.mono (fun _ s' h' => h'.resolve_left (hbad s')) fun _ s' h' => h'.resolve_left (hbad s')

theorem meets_of_bad (hs : Sticky R bad) (h : bad s) : Meets bad m s Q E :=
  (ends_within m s).mono (fun _ s' hr => .inl (hs s s' hr h)) fun _ s' hr => .inl (hs s s' hr h)

variable [Std.Refl R] [IsTrans σ R]

theorem meets_pure (a : α) (h : Q a s) : Meets bad (pure a : Prog R ε α) s Q E := .inr h

/-- The first program meets `Q'` and the rest goes on from there; a bad state in between
needs no care. -/
theorem Meets.bind (hs : Sticky R bad) {Q' : β → σ → Prop} {f : α → Prog R ε β}
    (h : Meets bad m s Q E) (hf : ∀ a s', Q a s' → Meets bad (f a) s' Q' E) :
    Meets bad (m >>= f) s Q' E := by
  unfold Meets
  rw [ends_bind]
  apply Ends.imp h
  rintro a s' (hb | hq)
  · exact meets_of_bad hs hb
  · exact hf a s' hq

end Bad

/-! ### Results

A step that is a plain function into `Except` has a result, and `Gives` says what holds of it
as `Ends` does of a program. -/

section Results

def Gives (r : Except ε α) (Q : α → Prop) (E : ε → Prop) : Prop :=
  match r with
  | .ok a => Q a
  | .error e => E e

variable {r : Except ε α} {Q : α → Prop} {E : ε → Prop}

@[simp] theorem gives_ok {a : α} : Gives (.ok a : Except ε α) Q E ↔ Q a := Iff.rfl

@[simp] theorem gives_error {e : ε} : Gives (.error e : Except ε α) Q E ↔ E e := Iff.rfl

@[simp] theorem gives_pure {a : α} : Gives (pure a : Except ε α) Q E ↔ Q a := Iff.rfl

theorem gives_bind {f : α → Except ε β} {Q : β → Prop} :
    Gives (r >>= f) Q E ↔ Gives r (fun a => Gives (f a) Q E) E := by
  cases r <;> rfl

theorem Gives.mono {Q' : α → Prop} {E' : ε → Prop} (h : Gives r Q E) (hQ : ∀ a, Q a → Q' a)
    (hE : ∀ e, E e → E' e) : Gives r Q' E' := by
  cases r with
  | ok a => exact hQ a h
  | error e => exact hE e h

theorem Gives.imp {Q' : α → Prop} (h : Gives r Q E) (hQ : ∀ a, Q a → Q' a) : Gives r Q' E :=
  h.mono hQ fun _ => id

end Results

end Pintos.Outcome
