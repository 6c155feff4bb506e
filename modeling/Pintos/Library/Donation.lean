import Mathlib

/-! Donated priorities.

Every party has a priority of its own and an effective one, and `backs w t` says that `w` waits
for something `t` has. A party pays its dues if its effective priority is the greatest of its
own one and the effective ones of those that back it.

When the effective priority of a party is raised, the parties it backs no longer pay: they pay
up to the raise, and do so again once they are raised as well. A donation follows the raise from
one party to the next. -/
namespace Pintos.Donation

variable {τ α : Type} [LinearOrder α]

/-- What the effective priority of `t` has to cover. -/
def dues (own : τ → α) (backs : τ → τ → Prop) (eff : τ → α) (t : τ) : Set α := insert (own t) (eff '' {w | backs w t})

def Pays (own : τ → α) (backs : τ → τ → Prop) (eff : τ → α) (t : τ) : Prop := IsGreatest (dues own backs eff t) (eff t)

/-- The party pays as soon as its effective priority is at least `p`. -/
def PaysUpTo (p : α) (own : τ → α) (backs : τ → τ → Prop) (eff : τ → α) (t : τ) : Prop :=
  IsGreatest (dues own backs eff t) (max (eff t) p)

variable {own own' : τ → α} {backs backs' : τ → τ → Prop} {eff eff' : τ → α} {t u : τ} {p : α}

omit [LinearOrder α] in
theorem dues_congr (ho : own' t = own t) (hb : ∀ w, backs' w t ↔ backs w t) (he : ∀ w, backs w t → eff' w = eff w) :
    dues own' backs' eff' t = dues own backs eff t := by
  unfold dues
  have hset : {w | backs' w t} = {w | backs w t} := Set.ext hb
  have himage : eff' '' {w | backs w t} = eff '' {w | backs w t} := Set.image_congr he
  rw [ho, hset, himage]

theorem Pays.congr (h : Pays own backs eff t) (ho : own' t = own t) (hb : ∀ w, backs' w t ↔ backs w t)
    (he : ∀ w, backs w t → eff' w = eff w) (ht : eff' t = eff t) : Pays own' backs' eff' t := by
  unfold Pays
  rw [dues_congr ho hb he, ht]
  exact h

theorem PaysUpTo.pays (h : PaysUpTo p own backs eff t) (hlt : p < eff t) : Pays own backs eff t := by
  unfold PaysUpTo at h
  rwa [max_eq_left hlt.le] at h

/-- A party that nobody backs. -/
theorem pays_alone (ht : eff t = own t) (hb : ∀ w, ¬ backs w t) : Pays own backs eff t := by
  refine ⟨.inl ht, ?_⟩
  rintro x (rfl | ⟨w, hw, -⟩)
  · exact ht.ge
  · exact absurd hw (hb w)

/-- New backers that are no higher change nothing. -/
theorem Pays.more (h : Pays own backs eff t) (hsub : ∀ w, backs w t → backs' w t)
    (hle : ∀ w, backs' w t → eff w ≤ eff t) : Pays own backs' eff t := by
  refine ⟨?_, ?_⟩
  · rcases h.1 with ho | ⟨w, hw, he⟩
    · exact .inl ho
    · exact .inr ⟨w, hsub w hw, he⟩
  · rintro x (rfl | ⟨w, hw, rfl⟩)
    · exact h.2 (.inl rfl)
    · exact hle w hw

/-- A party gets one more backer. -/
theorem Pays.joined {c : τ} (h : Pays own backs eff t) (hb : ∀ w, backs' w t ↔ backs w t ∨ w = c) :
    PaysUpTo (eff c) own backs' eff t := by
  refine ⟨?_, ?_⟩
  · rcases le_total (eff c) (eff t) with hle | hle
    · rw [max_eq_left hle]
      rcases h.1 with ho | ⟨w, hw, he⟩
      · exact .inl ho
      · exact .inr ⟨w, (hb w).mpr (.inl hw), he⟩
    · rw [max_eq_right hle]
      exact .inr ⟨c, (hb c).mpr (.inr rfl), rfl⟩
  · rintro x (rfl | ⟨w, hw, rfl⟩)
    · exact (h.2 (.inl rfl)).trans (le_max_left _ _)
    · rcases (hb w).mp hw with hw | rfl
      · exact (h.2 (.inr ⟨w, hw, rfl⟩)).trans (le_max_left _ _)
      · exact le_max_right _ _

section Raise
variable [DecidableEq τ]

/-- The party itself is raised. -/
theorem PaysUpTo.raise (h : PaysUpTo p own backs eff t) (hle : eff t ≤ p) (hself : ¬ backs t t) :
    Pays own backs (Function.update eff t p) t := by
  have hdues : dues own backs (Function.update eff t p) t = dues own backs eff t := by
    apply dues_congr rfl fun _ => Iff.rfl
    grind
  unfold Pays
  unfold PaysUpTo at h
  grind

/-- A party whose backer is raised. -/
theorem Pays.backer_raised (h : Pays own backs eff u) (hb : backs t u) (hle : eff t ≤ p) (hne : u ≠ t) :
    PaysUpTo p own backs (Function.update eff t p) u := by
  refine ⟨?_, ?_⟩
  · rw [Function.update_of_ne hne]
    rcases le_or_gt (eff u) p with hup | hup
    · rw [max_eq_right hup]
      exact .inr ⟨t, hb, Function.update_self ..⟩
    · rw [max_eq_left hup.le]
      rcases h.1 with ho | ⟨w, hw, he⟩
      · exact .inl ho
      · -- the backer that pays the most is another one
        have hwt : w ≠ t := by
          grind
        exact .inr ⟨w, hw, by rw [Function.update_of_ne hwt, he]⟩
  · rw [Function.update_of_ne hne]
    rintro x (rfl | ⟨w, hw, rfl⟩)
    · exact (h.2 (.inl rfl)).trans (le_max_left _ _)
    · by_cases hwt : w = t
      · grind
      · rw [Function.update_of_ne hwt]
        exact (h.2 (.inr ⟨w, hw, rfl⟩)).trans (le_max_left _ _)

/-- A party that the raised one does not back. -/
theorem Pays.other_raised (h : Pays own backs eff u) (hb : ¬ backs t u) (hne : u ≠ t) :
    Pays own backs (Function.update eff t p) u := by
  apply h.congr rfl (fun _ => Iff.rfl) _ (Function.update_of_ne hne _ _)
  grind

end Raise

/-! ### Greatest by a loop -/

/-- A loop that keeps the greatest value it has met. -/
theorem greatest_foldl {β : Type} (f : β → α) (l : List β) (p : α) :
    IsGreatest (insert p (f '' {x | x ∈ l})) (l.foldl (fun p x => if f x > p then f x else p) p) := by
  induction l generalizing p with
  | nil => simp [IsGreatest, upperBounds]
  | cons x l ih =>
    rw [List.foldl_cons]
    have hmax : (if f x > p then f x else p) = max p (f x) := by
      rw [max_def]
      split <;> split <;> order
    rw [hmax]
    obtain ⟨hin, hup⟩ := ih (max p (f x))
    refine ⟨?_, ?_⟩
    · grind
    · rintro z (rfl | ⟨y, hy, rfl⟩)
      · exact (le_max_left _ _).trans (hup (.inl rfl))
      · rcases List.mem_cons.mp hy with rfl | hy
        · exact (le_max_right _ _).trans (hup (.inl rfl))
        · exact hup (.inr ⟨y, hy, rfl⟩)

end Pintos.Donation
