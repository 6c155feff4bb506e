import Pintos.Library.Outcome

/-! Runs of calls.

A run starts in an initial state and takes calls one after the other, each allowed in the
state it finds; a call that ends in an error ends the run. The history holds the calls with
their results, newest first. An invariant of all runs is established at the start and kept
by each call, up to a bad state that nothing can take back. -/
namespace Pintos.Outcome

variable {σ ε α Op : Type} {R : σ → σ → Prop}

inductive Run (exec : Op → Prog R ε α) (allowed : Op → σ → Prop) (init : σ → Prop) :
    List (Op × α) → σ → Prop where
  | start {s : σ} : init s → Run exec allowed init [] s
  | step {h : List (Op × α)} {s s' : σ} {op : Op} {r : α} : Run exec allowed init h s → allowed op s →
      (exec op).run s = .ok r s' → Run exec allowed init ((op, r) :: h) s'

variable {exec : Op → Prog R ε α} {allowed allowed' : Op → σ → Prop} {init : σ → Prop}
  {h : List (Op × α)} {s : σ}

theorem Run.mono (hr : Run exec allowed init h s) (ha : ∀ op s, allowed op s → allowed' op s) :
    Run exec allowed' init h s := by
  induction hr with
  | start hi => exact .start hi
  | step _ ho hx ih => exact .step ih (ha _ _ ho) hx

theorem Run.start_mono {init' : σ → Prop} (hr : Run exec allowed init h s) (hi : ∀ s, init s → init' s) :
    Run exec allowed init' h s := by
  induction hr with
  | start h0 => exact .start (hi _ h0)
  | step _ ho hx ih => exact .step ih ho hx

theorem Run.meets {bad : σ → Prop} (hbad : Sticky R bad) {J : List (Op × α) → σ → Prop}
    (h0 : ∀ s, init s → J [] s)
    (hs : ∀ h s op, J h s → allowed op s →
      Meets bad (exec op) s (fun r s' => J ((op, r) :: h) s') fun _ _ => True)
    (hr : Run exec allowed init h s) : bad s ∨ J h s := by
  induction hr with
  | start hi => exact .inr (h0 _ hi)
  | @step h s s' op r _ ha hx ih =>
    rcases ih with hb | hJ
    · have hw := (exec op).within s
      rw [hx] at hw
      exact .inl (hbad s s' hw hb)
    · exact (ends_ok hx).mp (hs h s op hJ ha)

/-- An invariant of the history and the state, without bad states. -/
theorem Run.invariant {J : List (Op × α) → σ → Prop} (h0 : ∀ s, init s → J [] s)
    (hs : ∀ h s op, J h s → allowed op s → Ends (exec op) s (fun r s' => J ((op, r) :: h) s') fun _ _ => True)
    (hr : Run exec allowed init h s) : J h s := by
  have hbad : Sticky R fun _ : σ => False := fun _ _ _ => id
  exact (hr.meets hbad h0 fun h s op hJ ha => (hs h s op hJ ha).meets).resolve_left id

/-! ### Runs by evaluation -/

/-- The calls of a list one after the other, as long as each passes the check and returns. -/
def replay (exec : Op → Prog R ε α) (check : Op → σ → Bool) :
    List Op → List (Op × α) → σ → Option (List (Op × α) × σ)
  | [], h, s => some (h, s)
  | op :: ops, h, s =>
    if check op s then
      match (exec op).run s with
      | .ok r s' => replay exec check ops ((op, r) :: h) s'
      | .error _ _ => none
    else none

theorem Run.replay {check : Op → σ → Bool} (hc : ∀ op s, check op s = true → allowed op s) :
    ∀ (ops : List Op) {h h' : List (Op × α)} {s s' : σ}, Run exec allowed init h s →
      Outcome.replay exec check ops h s = some (h', s') → Run exec allowed init h' s'
  | [], _, _, _, _, hr, he => by
    cases he
    exact hr
  | op :: ops, _, _, _, _, hr, he => by
    unfold Outcome.replay at he
    split at he
    · rename_i hop
      split at he
      · rename_i hx
        exact Run.replay hc ops (.step hr (hc _ _ hop) hx) he
      · cases he
    · cases he

/-- A run found by evaluation. -/
theorem Run.of_replay {check : Op → σ → Bool} (hc : ∀ op s, check op s = true → allowed op s) (h0 : init s)
    {ops : List Op} {p : List (Op × α) → σ → Bool}
    (hp : (Outcome.replay exec check ops [] s).any (fun x => p x.1 x.2) = true) :
    ∃ h s, Run exec allowed init h s ∧ p h s = true := by
  obtain ⟨⟨h, s'⟩, he, hp⟩ := (Option.any_eq_true ..).mp hp
  exact ⟨h, s', Run.replay hc ops (.start h0) he, hp⟩

end Pintos.Outcome
