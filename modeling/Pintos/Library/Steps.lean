import Mathlib

/-! Machines that take one step after the other.

A step is an act that the machine may be able to take; an act it cannot take, or that ends in a
fault, has no state after it. The reachable states are those of the runs in which every act
meets a condition in the state it is taken from. -/
namespace Pintos.Steps

variable {σ α ε : Type} {step : α → σ → Except ε σ} {cond cond' : α → σ → Prop} {init : σ → Prop} {s s' : σ}

inductive Reach (step : α → σ → Except ε σ) (cond : α → σ → Prop) (init : σ → Prop) : σ → Prop where
  | start {s : σ} : init s → Reach step cond init s
  | step {s s' : σ} {a : α} : Reach step cond init s → cond a s → step a s = .ok s' → Reach step cond init s'

/-- What holds at the start and is kept by every step holds in every run. -/
theorem Reach.invariant {J : σ → Prop} (h0 : ∀ s, init s → J s)
    (hs : ∀ s a s', J s → cond a s → step a s = .ok s' → J s') (hr : Reach step cond init s) : J s := by
  induction hr with
  | start hi => exact h0 _ hi
  | step _ ha hx ih => exact hs _ _ _ ih ha hx

/-- A step made of parts can be taken when each part can. -/
theorem bind_ok {α β : Type} {m : Except ε α} {f : α → Except ε β} {b : β} :
    (m >>= f) = .ok b ↔ ∃ a, m = .ok a ∧ f a = .ok b := by
  cases m <;> simp [bind, Except.bind]

theorem ok_bind {α β : Type} (a : α) (f : α → Except ε β) : (Except.ok a >>= f) = f a := rfl

/-- What each round of a loop keeps. -/
theorem foldlM_invariant {β : Type} {f : σ → β → Except ε σ} {J : σ → Prop} {l : List β}
    (hf : ∀ s b s', b ∈ l → J s → f s b = .ok s' → J s') (h0 : J s) (h : l.foldlM f s = .ok s') : J s' := by
  induction l generalizing s with
  | nil =>
    cases h
    exact h0
  | cons b l ih =>
    rw [List.foldlM_cons] at h
    obtain ⟨s1, h1, h⟩ := bind_ok.mp h
    exact ih (fun s b s' hb => hf s b s' (List.mem_cons_of_mem _ hb)) (hf _ _ _ List.mem_cons_self h0 h1) h

/-! ### Runs by evaluation -/

/-- The state after a list of acts, as long as each of them passes the check and can be taken. -/
def after (step : α → σ → Except ε σ) (check : α → σ → Bool) : List α → σ → Option σ
  | [], s => some s
  | a :: acts, s =>
    if check a s then
      match step a s with
      | .ok s' => after step check acts s'
      | .error _ => none
    else none

theorem after_cons {check : α → σ → Bool} {a : α} {acts : List α} (hc : check a s = true) (hx : step a s = .ok s') :
    after step check (a :: acts) s = after step check acts s' := by
  simp [after, hc, hx]

theorem Reach.after {check : α → σ → Bool} (hc : ∀ a s, check a s = true → cond a s) :
    ∀ (acts : List α) {s s' : σ}, Reach step cond init s → Steps.after step check acts s = some s' →
      Reach step cond init s'
  | [], _, _, hr, he => by
    cases he
    exact hr
  | a :: acts, _, _, hr, he => by
    unfold Steps.after at he
    split at he
    · rename_i ha
      split at he
      · rename_i hx
        exact Reach.after hc acts (.step hr (hc _ _ ha) hx) he
      · cases he
    · cases he

/-- A reachable state found by evaluation. -/
theorem Reach.of_after [∀ a s, Decidable (cond a s)] (h0 : init s) (acts : List α) {p : σ → Prop} [DecidablePred p]
    (hp : (Steps.after step (fun a s => decide (cond a s)) acts s).any (fun s => decide (p s)) = true) :
    ∃ s, Reach step cond init s ∧ p s := by
  obtain ⟨s', he, hp⟩ := (Option.any_eq_true ..).mp hp
  exact ⟨s', Reach.after (fun _ _ => of_decide_eq_true) acts (.start h0) he, of_decide_eq_true hp⟩

end Pintos.Steps
