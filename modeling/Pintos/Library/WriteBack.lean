import Mathlib

/-! A stored value behind a write-back cache.

A `Cell` is a backing value and perhaps a copy of it, clean or dirty. On its own a cell
*drifts*: a dirty copy is written back, a clean copy is dropped, a missing copy is
loaded. A clean copy need not agree with its backing value, since the backing value can
be changed under it; what such a cell reads as depends on how far it has drifted.
`Firm` says that one element reads the same however far the cell drifts, and `Coherent`
that all of them do. -/
namespace Pintos.WriteBack

variable {ι γ : Type}

structure Cell (ι γ : Type) where
  backing : ι → γ
  copy : Option (Bool × (ι → γ))

namespace Cell

inductive Step : Cell ι γ → Cell ι γ → Prop where
  | writeBack (d e : ι → γ) : Step ⟨d, some (true, e)⟩ ⟨e, some (false, e)⟩
  | drop (d e : ι → γ) : Step ⟨d, some (false, e)⟩ ⟨d, none⟩
  | load (d : ι → γ) : Step ⟨d, none⟩ ⟨d, some (false, d)⟩

/-- Any number of steps. -/
def Drifts : Cell ι γ → Cell ι γ → Prop := Relation.ReflTransGen Step

/-- What a read of the cell gives. -/
def current (c : Cell ι γ) : ι → γ :=
  match c.copy with
  | some (_, e) => e
  | none => c.backing

def Dirty (c : Cell ι γ) : Prop := ∃ e, c.copy = some (true, e)

/-- Element `o` is `v`, in the copy and wherever the copy may go. -/
def Firm (c : Cell ι γ) (o : ι) (v : γ) : Prop :=
  (∀ b e, c.copy = some (b, e) → e o = v) ∧ (¬ c.Dirty → c.backing o = v)

/-- A clean copy is a copy of the backing value. -/
def Coherent (c : Cell ι γ) : Prop := ∀ e, c.copy = some (false, e) → e = c.backing

/-- A write through the cache: to the copy if there is one, else to the backing value. -/
def write (c : Cell ι γ) (f : (ι → γ) → ι → γ) : Cell ι γ :=
  match c.copy with
  | some (_, e) => ⟨c.backing, some (true, f e)⟩
  | none => ⟨f c.backing, none⟩

theorem Drifts.refl (c : Cell ι γ) : c.Drifts c := Relation.ReflTransGen.refl

theorem Drifts.trans {a b c : Cell ι γ} (h : a.Drifts b) (h' : b.Drifts c) : a.Drifts c :=
  Relation.ReflTransGen.trans h h'

theorem Step.drifts {a b : Cell ι γ} (h : a.Step b) : a.Drifts b := Relation.ReflTransGen.single h

/-- No step makes a cell dirty, so a cell still dirty has not moved. -/
theorem Drifts.of_dirty {a b : Cell ι γ} (h : a.Drifts b) (hb : b.Dirty) : b = a := by
  induction h with
  | refl => rfl
  | tail _ hs _ =>
    obtain ⟨e, he⟩ := hb
    cases hs <;> simp at he

theorem Drifts.dirty {a b : Cell ι γ} (h : a.Drifts b) (hb : b.Dirty) : a.Dirty :=
  h.of_dirty hb ▸ hb

theorem Step.firm {a b : Cell ι γ} {o : ι} {v : γ} (h : a.Step b) (hf : a.Firm o v) : b.Firm o v := by
  obtain ⟨hc, hb⟩ := hf
  cases h with
  | writeBack d e =>
    have := hc true e rfl
    exact ⟨fun b e' he => by simp at he; rw [← he.2]; exact this, fun _ => this⟩
  | drop d e =>
    have : d o = v := hb (by rintro ⟨e', he⟩; simp at he)
    exact ⟨fun b e' he => by simp at he, fun _ => this⟩
  | load d =>
    have : d o = v := hb (by rintro ⟨e', he⟩; simp at he)
    exact ⟨fun b e' he => by simp at he; rw [← he.2]; exact this, fun _ => this⟩

theorem Drifts.firm {a b : Cell ι γ} {o : ι} {v : γ} (h : a.Drifts b) (hf : a.Firm o v) :
    b.Firm o v := by
  induction h with
  | refl => exact hf
  | tail _ hs ih => exact hs.firm ih

theorem Step.coherent {a b : Cell ι γ} (h : a.Step b) (hc : a.Coherent) :
    b.Coherent ∧ b.current = a.current := by
  cases h with
  | writeBack d e | load d => exact ⟨fun e' he => by simp at he; exact he.symm, rfl⟩
  | drop d e => exact ⟨fun e' he => by simp at he, (hc e rfl).symm⟩

theorem Drifts.coherent {a b : Cell ι γ} (h : a.Drifts b) (hc : a.Coherent) :
    b.Coherent ∧ b.current = a.current := by
  induction h with
  | refl => exact ⟨hc, rfl⟩
  | tail _ hs ih =>
    obtain ⟨hb, he⟩ := hs.coherent ih.1
    exact ⟨hb, he.trans ih.2⟩

theorem Firm.current {c : Cell ι γ} {o : ι} {v : γ} (h : c.Firm o v) : c.current o = v := by
  obtain ⟨d, copy⟩ := c
  match copy with
  | none => exact h.2 (by rintro ⟨e, he⟩; simp at he)
  | some (b, e) => exact h.1 b e rfl

theorem Coherent.firm {c : Cell ι γ} (h : c.Coherent) (o : ι) : c.Firm o (c.current o) := by
  obtain ⟨d, copy⟩ := c
  match copy with
  | none => exact ⟨fun b e he => by simp at he, fun _ => rfl⟩
  | some (true, e) => exact ⟨fun b e' he => by simp at he; rw [← he.2]; rfl, fun hd => absurd ⟨e, rfl⟩ hd⟩
  | some (false, e) =>
    have : e = d := h e rfl
    exact ⟨fun b e' he => by simp at he; rw [← he.2]; rfl, fun _ => by rw [this]; rfl⟩

theorem write_coherent (c : Cell ι γ) (f : (ι → γ) → ι → γ) : (c.write f).Coherent := by
  obtain ⟨d, copy⟩ := c
  intro e he
  match copy with
  | none => simp [write] at he
  | some (b, e') => simp [write] at he

theorem write_current (c : Cell ι γ) (f : (ι → γ) → ι → γ) : (c.write f).current = f c.current := by
  obtain ⟨d, _ | ⟨b, e⟩⟩ := c <;> rfl

/-- A written cell is coherent, so it is firm at what was written. -/
theorem write_firm {c : Cell ι γ} {f : (ι → γ) → ι → γ} {o : ι} {v : γ} (h : f c.current o = v) :
    (c.write f).Firm o v := by
  rw [← h, ← write_current c f]
  exact (write_coherent c f).firm o

end Cell

end Pintos.WriteBack
