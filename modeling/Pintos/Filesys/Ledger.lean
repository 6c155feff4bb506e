import Pintos.Filesys.DirectoryProofs
import Pintos.Filesys.FsLawful

/-! What the directory functions ask of the inode layer.

`dir_add` and `dir_remove` read and write the bytes of their directory, and `dir_remove` also opens and
closes the inode of the entry it takes out. `Keeps` says that a layer is faithful to the bytes while they do
so. It counts how often an inode has been opened: closing the directory's own inode leaves the
directory as it is only when it has been opened before. The inode layer of the source is faithful in
every state that stands for a store (`fsLayer_keeps`). -/
namespace Pintos.Filesys
open Outcome

/-- What a write of `size` bytes at `offset` does: all of it, or, when the file would have to grow
and cannot, the part that lies inside. -/
inductive Placed (b b' : List UInt8) (buffer : Bytes) (size offset : Nat) : Nat → Prop where
  | all : Store.Patched b b' offset size buffer → (b'.length = b.length ∨ b'.length = offset + size) →
      Placed b b' buffer size offset size
  | inside : b.length < offset + size → Store.Patched b b' offset (b.length - offset) buffer →
      b'.length = b.length → Placed b b' buffer size offset (b.length - offset)

/-- What is known of some inodes: that they are there, and how many of their openers are still to close them. -/
abbrev Ledger := Nat → Option Nat

/-- The directory is there, and open. -/
def Ledger.own (i : Nat) : Ledger := Function.update (fun _ => none) i (some 1)

/-- The inode `k` is there as well. -/
def Ledger.also (i k : Nat) : Ledger := if k = i then own i else Function.update (own i) k (some 0)

/-- The inode `k` has been opened, beside the directory or once more. -/
def Ledger.opened (i k : Nat) : Ledger := Function.update (own i) k (some (if k = i then 2 else 1))

section
variable {σ α β : Type} {R : σ → σ → Prop}

/-- The program leaves the bytes alone, and opens and closes nothing for good. -/
def Leaves (good : Bool → Ledger → σ → Prop) (view : σ → List UInt8) (w : Ledger) (m : Prog R Panic α) : Prop :=
  ∀ t s, good t w s → Ends m s (fun _ s' => good t w s' ∧ view s' = view s) fun _ _ => True

/-- In the states `good` the layer is faithful to the bytes `view` of the directory `i`, and the inodes of the
ledger are there and open; `good true` also says that the directory may take new sectors. -/
structure Keeps (L : InodeLayer R) (i : Nat) (good : Bool → Ledger → σ → Prop) (view : σ → List UInt8) : Prop where
  small : ∀ {t w s}, good t w s → (view s).length < maxFileSize
  length : ∀ {t w s}, good t w s → Ends (L.inodeAt i) s
    (fun n s' => (good t w s' ∧ view s' = view s) ∧ InodeDisk.length n.data = (view s).length) fun _ _ => False
  readAt : ∀ {t w s size offset}, good t w s → offset + size < 2 ^ 31 → Ends (L.inodeReadAt i (size : Nat) offset) s
    (fun r s' => r = ((view s).drop offset).take size ∧ good t w s' ∧ view s' = view s) fun _ _ => False
  writeAt : ∀ {t w s size offset} (buffer : Bytes), good t w s → offset ≤ (view s).length → size < 2 ^ 31 →
    (t = true ∨ sectorCnt (offset + size) ≤ sectorCnt (view s).length) →
    Ends (L.inodeWriteAt i buffer (size : Nat) offset) s
      (fun n s' => good t w s' ∧ Placed (view s) (view s') buffer size offset n) fun _ _ => True
  malloc : ∀ {w}, Leaves good view w L.malloc
  inodeAt : ∀ {w j n}, w j = some (n + 1) → Leaves good view w (L.inodeAt j)
  inodeReadAt : ∀ {w j n} (size : Int) (offset : Nat), w j = some (n + 1) →
    Leaves good view w (L.inodeReadAt j size offset)
  inodeOpen : ∀ {t w s j n}, good t w s → w j = some n → Ends (L.inodeOpen j) s
    (fun r s' => (r = none ∧ good t w s' ∨ r = some j ∧ good t (Function.update w j (some (n + 1))) s') ∧
      view s' = view s) fun _ _ => True
  inodeReopen : ∀ {t w s j n}, good t w s → w j = some (n + 1) → Ends (L.inodeReopen (some j)) s
    (fun r s' => r = some j ∧ good t (Function.update w j (some (n + 2))) s' ∧ view s' = view s) fun _ _ => True
  inodeClose : ∀ {t w s j n}, good t w s → w j = some (n + 2) → Ends (L.inodeClose (some j)) s
    (fun _ s' => good t (Function.update w j (some (n + 1))) s' ∧ view s' = view s) fun _ _ => True
  /-- The last opener that is known of goes, and the file may go with it. -/
  inodeClose_last : ∀ {t w s j}, good t w s → j ≠ i → w j = some 1 → Ends (L.inodeClose (some j)) s
    (fun _ s' => good false (Function.update w j none) s' ∧ view s' = view s) fun _ _ => True
  inodeRemove : ∀ {w j n}, w j = some (n + 1) → Leaves good view w (L.inodeRemove j)
  lockAcquire : ∀ {w}, Leaves good view w (L.lockAcquire i)
  lockRelease : ∀ {w}, Leaves good view w (L.lockRelease i)
  weaken : ∀ {w s}, good true w s → good false w s
  forget : ∀ {t w s} (k : Nat), good t w s → w k = some 0 → good t (Function.update w k none) s

variable {good : Bool → Ledger → σ → Prop} {view : σ → List UInt8} {L : InodeLayer R} {i : Nat} {w : Ledger}

theorem Keeps.reads (hk : Keeps L i good view) {t : Bool} {b : List UInt8} (hb : b.length < maxFileSize) :
    Reads L i b fun s => good t w s ∧ view s = b where
  small := hb
  length := fun hs => (hk.length hs.1).imp fun n s' hn => ⟨⟨hn.1.1, hn.1.2.trans hs.2⟩, by rw [hn.2, hs.2]⟩
  readAt := fun hs hlt => (hk.readAt hs.1 hlt).imp fun r s' hr => ⟨by rw [hr.1, hs.2], hr.2.1, hr.2.2.trans hs.2⟩

/-- What was put down about another inode is crossed out again. -/
theorem Ledger.own_update {k : Nat} (hki : k ≠ i) (v : Option Nat) :
    Function.update (Function.update (own i) k v) k none = own i := by
  have hnone : own i k = none := Function.update_of_ne hki ..
  rw [Function.update_idem, ← hnone, Function.update_eq_self]

section
variable (hk : Keeps L i good view) {t : Bool} {s : σ} {k : Nat}
include hk

theorem Keeps.of_also (hs : good t (.also i k) s) : good t (.own i) s := by
  unfold Ledger.also at hs
  by_cases hki : k = i
  · rwa [if_pos hki] at hs
  · rw [if_neg hki] at hs
    have hforget := hk.forget k hs (Function.update_self ..)
    rwa [Ledger.own_update hki] at hforget

theorem Keeps.open_also (hs : good t (.also i k) s) : Ends (L.inodeOpen k) s
    (fun r s' => (r = none ∧ good t (.own i) s' ∨ r = some k ∧ good t (.opened i k) s') ∧ view s' = view s)
    fun _ _ => True := by
  unfold Ledger.opened
  by_cases hki : k = i
  · subst hki
    rw [Ledger.also, if_pos rfl] at hs
    rw [if_pos rfl]
    exact hk.inodeOpen hs (Function.update_self ..)
  · have hnew : Ledger.also i k = Function.update (Ledger.own i) k (some 0) := if_neg hki
    rw [if_neg hki]
    refine (hk.inodeOpen hs (by rw [hnew, Function.update_self])).imp ?_
    rintro r s' ⟨⟨hr, hs'⟩ | ⟨hr, hs'⟩, hv⟩
    · exact ⟨.inl ⟨hr, hk.of_also hs'⟩, hv⟩
    · rw [hnew, Function.update_idem] at hs'
      exact ⟨.inr ⟨hr, hs'⟩, hv⟩

theorem Keeps.close_opened (hs : good t (.opened i k) s) : Ends (L.inodeClose (some k)) s
    (fun _ s' => (∃ t, good t (.own i) s') ∧ view s' = view s) fun _ _ => True := by
  unfold Ledger.opened at hs
  by_cases hki : k = i
  · subst hki
    rw [if_pos rfl] at hs
    refine (hk.inodeClose hs (Function.update_self ..)).imp ?_
    rintro _ s' ⟨hs', hv⟩
    have hone : Ledger.own k k = some 1 := Function.update_self ..
    rw [Function.update_idem, ← hone, Function.update_eq_self] at hs'
    exact ⟨⟨t, hs'⟩, hv⟩
  · rw [if_neg hki] at hs
    refine (hk.inodeClose_last hs hki (Function.update_self ..)).imp ?_
    rintro _ s' ⟨hs', hv⟩
    rw [Ledger.own_update hki] at hs'
    exact ⟨⟨false, hs'⟩, hv⟩

end

variable [Std.Refl R] [IsTrans σ R]

theorem Leaves.pure (a : α) : Leaves good view w (pure a : Prog R Panic α) := fun _ _ hs => ⟨hs, rfl⟩

theorem Leaves.bind {m : Prog R Panic α} {f : α → Prog R Panic β} (hm : Leaves good view w m)
    (hf : ∀ a, Leaves good view w (f a)) : Leaves good view w (m >>= f) := by
  intro t s hs
  rw [ends_bind]
  refine Ends.imp (hm t s hs) ?_
  intro a s' hs'
  exact (hf a t s' hs'.1).imp fun _ s'' hs'' => ⟨hs''.1, hs''.2.trans hs'.2⟩

theorem Leaves.throw (e : Panic) : Leaves good view w (throw e : Prog R Panic α) := fun _ _ _ => trivial

end

/-! ### The inode layer of the source -/

/-- The bytes of an open file. -/
def fsView (i : Nat) (s : Fs) : List UInt8 := ((findInode i s.openInodes).map fun n => contents s n.data).getD []

/-- The directory `i` is open and may be written, and the inodes of the ledger are there and open as often as
it says. -/
structure Store.Covers (a : Store) (i : Nat) (w : Ledger) : Prop where
  isOpen : ∃ h, a.handles i = some h ∧ h.denyWriteCnt = 0
  map : i ≠ freeMapSector
  there : ∀ k n, w k = some n → k ≠ freeMapSector ∧ ∃ f, a.files k = some f
  openers : ∀ k n, w k = some (n + 1) → ∃ h, a.handles k = some h ∧ n + 1 ≤ h.openCnt
  stays : ∃ n, w i = some (n + 1)

def fsGood (i : Nat) (t : Bool) (w : Ledger) (s : Fs) : Prop := ∃ a, FsRep t s a ∧ a.Covers i w

section
variable {t : Bool} {s s' : Fs} {a a' : Store} {i j k m n : Nat} {w w' : Ledger} {f : Obj} {h : Handle}

theorem FsRep.view (hr : FsRep t s a) (hi : i ≠ freeMapSector) (hh : a.handles i = some h) (hf : a.files i = some f) :
    fsView i s = f.bytes := by
  obtain ⟨N, X, hr⟩ := hr
  obtain ⟨m, hm, -⟩ := hr.find hh
  obtain ⟨d, hN, hrep⟩ := hr.file_iff hf
  obtain rfl := Option.some.inj ((hr.sound.node_of_find hm).symm.trans hN)
  rw [fsView, hm, Option.map_some, Option.getD_some, hrep.bytes hi]

theorem Store.Covers.file (hc : a.Covers i w) :
    ∃ h f, a.handles i = some h ∧ h.denyWriteCnt = 0 ∧ a.files i = some f := by
  obtain ⟨h, hh, hd⟩ := hc.isOpen
  obtain ⟨n, hn⟩ := hc.stays
  obtain ⟨-, f, hf⟩ := hc.there i _ hn
  exact ⟨h, f, hh, hd, hf⟩

/-- The bytes are the same as long as the file is. -/
theorem fsGood_same {t' : Bool} (hr : FsRep t s a) (hc : a.Covers i w) (hr' : FsRep t' s' a') (hc' : a'.Covers i w')
    (hsame : a'.files i = a.files i) : fsGood i t' w' s' ∧ fsView i s' = fsView i s := by
  obtain ⟨h, f, hh, -, hf⟩ := hc.file
  obtain ⟨h', f', hh', -, hf'⟩ := hc'.file
  obtain rfl : f' = f := Option.some.inj (hf'.symm.trans (hsame.trans hf))
  exact ⟨⟨a', hr', hc'⟩, by rw [hr'.view hc.map hh' hf', hr.view hc.map hh hf]⟩

/-- The store and the ledger change at one inode. -/
theorem Store.Covers.update {v : Option Nat} (hc : a.Covers i w) (hfiles : ∀ j, j ≠ k → a'.files j = a.files j)
    (hhandles : ∀ j, j ≠ k → a'.handles j = a.handles j)
    (hthere : ∀ m, v = some m → k ≠ freeMapSector ∧ ∃ f, a'.files k = some f)
    (hopen : ∀ m, v = some (m + 1) → ∃ h, a'.handles k = some h ∧ m + 1 ≤ h.openCnt)
    (hown : k = i → (∃ m, v = some (m + 1)) ∧ ∃ h, a'.handles k = some h ∧ h.denyWriteCnt = 0) :
    a'.Covers i (Function.update w k v) := by
  refine ⟨?_, hc.map, ?_, ?_, ?_⟩
  · by_cases hki : k = i
    · exact hki ▸ (hown hki).2
    · rw [hhandles i (Ne.symm hki)]
      exact hc.isOpen
  · intro j m hj
    by_cases hjk : j = k
    · subst hjk
      exact hthere m (by rwa [Function.update_self] at hj)
    · rw [Function.update_of_ne hjk] at hj
      rw [hfiles j hjk]
      exact hc.there j m hj
  · intro j m hj
    by_cases hjk : j = k
    · subst hjk
      exact hopen m (by rwa [Function.update_self] at hj)
    · rw [Function.update_of_ne hjk] at hj
      rw [hhandles j hjk]
      exact hc.openers j m hj
  · by_cases hki : k = i
    · subst hki
      obtain ⟨m, hm⟩ := (hown rfl).1
      exact ⟨m, by rw [Function.update_self, hm]⟩
    · rw [Function.update_of_ne (Ne.symm hki)]
      exact hc.stays

/-- A handle changes, and the ledger with it. -/
theorem Store.Covers.setHandle {h' : Handle} (hc : a.Covers i w) (hk : w k = some n)
    (hle : m + 1 ≤ h'.openCnt) (hdeny : ∀ h, a.handles k = some h → h'.denyWriteCnt = h.denyWriteCnt) :
    (a.setHandle k (some h')).Covers i (Function.update w k (some (m + 1))) := by
  have hset : (a.setHandle k (some h')).handles k = some h' := Function.update_self ..
  refine hc.update (fun _ _ => rfl) (fun j hj => Function.update_of_ne hj ..) (fun _ _ => hc.there k n hk) ?_ ?_
  · intro m' hm'
    cases hm'
    exact ⟨h', hset, hle⟩
  · rintro rfl
    obtain ⟨h, hh, hd⟩ := hc.isOpen
    exact ⟨⟨m, rfl⟩, h', hset, (hdeny h hh).trans hd⟩

/-- A handle changes, but not who has the inode open. -/
theorem Store.Covers.rehandle {h' : Handle} (hc : a.Covers i w) (hk : w k = some (n + 1)) (hh : a.handles k = some h)
    (hcnt : h'.openCnt = h.openCnt) (hdeny : h'.denyWriteCnt = h.denyWriteCnt) :
    (a.setHandle k (some h')).Covers i w := by
  obtain ⟨g, hg, hle⟩ := hc.openers k n hk
  cases hh.symm.trans hg
  have hset := hc.setHandle (m := n) hk (hcnt ▸ hle) fun g hg => by cases hh.symm.trans hg; exact hdeny
  rwa [← hk, Function.update_eq_self] at hset

theorem Store.Covers.opened (hc : a.Covers i w) (hk : w k = some n) :
    (a.opened k).Covers i (Function.update w k (some (n + 1))) := by
  unfold Store.opened
  cases hh : a.handles k with
  | none =>
    cases n with
    | zero => exact hc.setHandle hk (Nat.le_refl 1) fun h hg => by cases hh.symm.trans hg
    | succ n =>
      obtain ⟨h, hg, -⟩ := hc.openers k n hk
      cases hh.symm.trans hg
  | some h =>
    refine hc.setHandle hk ?_ fun g hg => by cases hh.symm.trans hg; rfl
    cases n with
    | zero => exact Nat.le_add_left ..
    | succ n =>
      obtain ⟨g, hg, hle⟩ := hc.openers k n hk
      cases hh.symm.trans hg
      exact Nat.succ_le_succ hle

/-- Nothing is known any more of an inode other than the directory. -/
theorem Store.Covers.drop (hc : a.Covers i w) (hk : k ≠ i) (hfiles : ∀ j, j ≠ k → a'.files j = a.files j)
    (hhandles : ∀ j, j ≠ k → a'.handles j = a.handles j) : a'.Covers i (Function.update w k none) :=
  hc.update hfiles hhandles (fun _ h => by cases h) (fun _ h => by cases h) fun h => absurd h hk

theorem FsRep.weaken (hr : FsRep t s a) : FsRep false s a := by
  cases t with
  | true => exact fsLayer_lawful.weaken hr
  | false => exact hr

/-- A lock that is held already ends the call. -/
theorem ends_lockAcquire_held {m : Inode} (hm : findInode j s.openInodes = some m) (hl : m.locked = true)
    {Q : Unit → Fs → Prop} : Ends (lockAcquire j) s Q fun _ _ => True := by
  unfold lockAcquire
  simp only [ends_bind]
  rw [ends_inodeAt hm]
  exact ends_check_or (fun h => by simp [hl] at h) fun _ => trivial

/-- What a write does, as `Placed` has it. -/
theorem Store.Written.placed {f' : Obj} {l : List Nat} {buffer : Bytes} {size offset m : Nat}
    (hw : a.Written f f' l buffer size offset m) : Placed f.bytes f'.bytes buffer size offset m := by
  rcases hw.clamped with rfl | ⟨hlen, hle, rfl⟩
  · exact .all hw.patched hw.length
  · rcases Nat.lt_or_eq_of_le hle with hlt | heq
    · exact .inside hlt hw.patched hlen
    · have hall : f.bytes.length - offset = size := by omega
      have hp := hw.patched
      rw [hall] at hp ⊢
      exact .all hp (.inl hlen)

theorem fsGood_inodeClose (hr : FsRep t s a) (hj : j ≠ freeMapSector) (hh : a.handles j = some h)
    (hf : a.files j = some f) {Q : Fs → Prop}
    (hQ : ∀ s', FsRep (t && !(h.openCnt == 1 && h.removed)) s' (a.closed j f h) → Q s') :
    Ends (fsLayer.inodeClose (some j)) s (fun _ s' => Q s') fun _ _ => True := by
  cases hl : h.locked with
  | false => exact Ends.mono (hr.inodeClose hj hh hf hl) (fun _ s' => hQ s') fun _ _ _ => trivial
  | true =>
    obtain ⟨m, hm, rfl, -⟩ := hr.find hh
    show Ends (inodeClose bitmapWrite (some j)) s _ _
    unfold inodeClose
    rw [ends_bind]
    exact ends_lockAcquire_held hm hl

/-- The inode layer of the source is faithful to an open directory. -/
theorem fsLayer_keeps (i : Nat) : Keeps fsLayer i (fsGood i) (fsView i) where
  small := by
    rintro t w s ⟨a, hr, hc⟩
    obtain ⟨h, f, hh, -, hf⟩ := hc.file
    rw [hr.view hc.map hh hf]
    exact (fsLayer_lawful.wf hr).small i f hf
  length := by
    rintro t w s ⟨a, hr, hc⟩
    obtain ⟨h, f, hh, -, hf⟩ := hc.file
    refine (hr.inodeAt hc.map hh hf).imp fun n s' hn => ⟨fsGood_same hr hc hn.1 hc rfl, ?_⟩
    rw [hr.view hc.map hh hf, hn.2.2.2.2]
  readAt := by
    rintro t w s size offset ⟨a, hr, hc⟩ hlt
    obtain ⟨h, f, hh, -, hf⟩ := hc.file
    refine (fsLayer_lawful.inodeReadAt hr hc.map hh hf hlt).imp fun r s' hread => ⟨?_, fsGood_same hr hc hread.2 hc rfl⟩
    rw [hr.view hc.map hh hf, hread.1]
  writeAt := by
    rintro t w s size offset buffer ⟨a, hr, hc⟩ hle hsize hroom
    obtain ⟨h, f, hh, hdeny, hf⟩ := hc.file
    have hsmall := (fsLayer_lawful.wf hr).small i f hf
    rw [hr.view hc.map hh hf] at hle hroom ⊢
    have hmax : maxFileSize < 2 ^ 31 := by decide
    refine Ends.mono (hr.inodeWriteAt hc.map hh hf hdeny hsize (by omega) hroom rfl) ?_ fun _ _ _ => trivial
    rintro m s' ⟨f', l, hw, hr'⟩
    have hc' : (a.grown i f' l).Covers i w := by
      refine ⟨hc.isOpen, hc.map, ?_, hc.openers, hc.stays⟩
      intro k n hk
      refine ⟨(hc.there k n hk).1, ?_⟩
      by_cases hki : k = i
      · exact ⟨f', by rw [hki]; exact Function.update_self ..⟩
      · obtain ⟨-, g, hg⟩ := hc.there k n hk
        exact ⟨g, (Function.update_of_ne hki ..).trans hg⟩
    refine ⟨⟨_, hr', hc'⟩, ?_⟩
    rw [hr'.view hc.map hh (Function.update_self ..)]
    exact hw.placed
  malloc := by
    rintro w t s ⟨a, hr, hc⟩
    exact Ends.mono hr.malloc (fun _ s' hr' => fsGood_same hr hc hr'.2 hc rfl) fun _ _ _ => trivial
  inodeAt := by
    rintro w j n hj t s ⟨a, hr, hc⟩
    obtain ⟨hmap, f, hf⟩ := hc.there j _ hj
    obtain ⟨h, hh, -⟩ := hc.openers j n hj
    exact Ends.mono (hr.inodeAt hmap hh hf) (fun _ s' hr' => fsGood_same hr hc hr'.1 hc rfl) fun _ _ _ => trivial
  inodeReadAt := by
    rintro w j n size offset hj t s ⟨a, hr, hc⟩
    obtain ⟨h, hh, -⟩ := hc.openers j n hj
    have hread := hr
    obtain ⟨N, X, hread⟩ := hread
    obtain ⟨m, hm, -⟩ := hread.find hh
    refine Ends.mono (readAt_quiet hread.sound.tree.cache hm false size offset) ?_ fun _ _ _ => trivial
    exact fun _ s' hq => fsGood_same hr hc ⟨N, X, hread.quiet hq.1 hq.2.1⟩ hc rfl
  inodeOpen := by
    rintro t w s j n ⟨a, hr, hc⟩ hj
    obtain ⟨hmap, f, hf⟩ := hc.there j n hj
    refine Ends.mono (hr.inodeOpen hmap hf) ?_ fun _ _ _ => trivial
    rintro r s' ⟨rfl, hr'⟩
    obtain ⟨hgood, hview⟩ := fsGood_same hr hc hr' (hc.opened hj) rfl
    exact ⟨.inr ⟨rfl, hgood⟩, hview⟩
  inodeReopen := by
    rintro t w s j n ⟨a, hr, hc⟩ hj
    obtain ⟨h, hh, -⟩ := hc.openers j n hj
    refine Ends.mono (hr.inodeReopen (hc.there j _ hj).1 hh) ?_ fun _ _ _ => trivial
    rintro r s' ⟨rfl, hr'⟩
    exact ⟨rfl, fsGood_same hr hc hr' (hc.opened hj) rfl⟩
  inodeClose := by
    rintro t w s j n ⟨a, hr, hc⟩ hj
    obtain ⟨hmap, f, hf⟩ := hc.there j _ hj
    obtain ⟨h, hh, hle⟩ := hc.openers j _ hj
    refine fsGood_inodeClose hr hmap hh hf fun s' hr' => ?_
    have hne : h.openCnt ≠ 1 := by omega
    rw [Store.closed, if_neg hne, beq_false_of_ne hne, Bool.false_and, Bool.not_false, Bool.and_true] at hr'
    have hc' : (a.setHandle j (some {h with openCnt := h.openCnt - 1})).Covers i (Function.update w j (some (n + 1))) :=
      hc.setHandle hj (by simp only; omega) fun g hg => by cases hh.symm.trans hg; rfl
    exact fsGood_same hr hc hr' hc' rfl
  inodeClose_last := by
    rintro t w s j ⟨a, hr, hc⟩ hji hj
    obtain ⟨hmap, f, hf⟩ := hc.there j _ hj
    obtain ⟨h, hh, -⟩ := hc.openers j 0 hj
    refine fsGood_inodeClose hr hmap hh hf fun s' hr' => ?_
    have hfiles : ∀ k, k ≠ j → (a.closed j f h).files k = a.files k := by
      intro k hk
      unfold Store.closed
      split
      · split
        · exact Function.update_of_ne hk ..
        · rfl
      · rfl
    have hhandles : ∀ k, k ≠ j → (a.closed j f h).handles k = a.handles k := by
      intro k hk
      unfold Store.closed
      split
      · split
        · exact Function.update_of_ne hk ..
        · exact Function.update_of_ne hk ..
      · exact Function.update_of_ne hk ..
    exact fsGood_same hr hc hr'.weaken (hc.drop hji hfiles hhandles) (hfiles i (Ne.symm hji))
  inodeRemove := by
    rintro w j n hj t s ⟨a, hr, hc⟩
    obtain ⟨h, hh, -⟩ := hc.openers j n hj
    refine Ends.mono (hr.inodeRemove (hc.there j _ hj).1 hh) ?_ fun _ _ _ => trivial
    exact fun _ s' hr' => fsGood_same hr hc hr' (hc.rehandle hj hh rfl rfl) rfl
  lockAcquire := by
    rintro w t s ⟨a, hr, hc⟩
    obtain ⟨h, f, hh, -, -⟩ := hc.file
    obtain ⟨n, hn⟩ := hc.stays
    cases hl : h.locked with
    | false =>
      refine Ends.mono (hr.lockAcquire hc.map hh hl) ?_ fun _ _ _ => trivial
      exact fun _ s' hr' => fsGood_same hr hc hr' (hc.rehandle hn hh rfl rfl) rfl
    | true =>
      obtain ⟨m, hm, rfl, -⟩ := hr.find hh
      exact ends_lockAcquire_held hm hl
  lockRelease := by
    rintro w t s ⟨a, hr, hc⟩
    obtain ⟨h, f, hh, -, -⟩ := hc.file
    obtain ⟨n, hn⟩ := hc.stays
    cases hl : h.locked with
    | true =>
      refine Ends.mono (hr.lockRelease hc.map hh hl) ?_ fun _ _ _ => trivial
      exact fun _ s' hr' => fsGood_same hr hc hr' (hc.rehandle hn hh rfl rfl) rfl
    | false =>
      obtain ⟨m, hm, rfl, -⟩ := hr.find hh
      show Ends (lockRelease i) s _ _
      unfold lockRelease
      simp only [ends_bind]
      rw [ends_inodeAt hm]
      exact ends_check_or (fun h => absurd (hl.symm.trans h) (by simp)) fun _ => trivial
  weaken := by
    rintro w s ⟨a, hr, hc⟩
    exact ⟨a, hr.weaken, hc⟩
  forget := by
    rintro t w s k ⟨a, hr, hc⟩ hk
    obtain ⟨m, hm⟩ := hc.stays
    have hki : k ≠ i := by
      rintro rfl
      rw [hk] at hm
      cases hm
    exact ⟨a, hr, hc.drop hki (fun _ _ => rfl) fun _ _ => rfl⟩

end

end Pintos.Filesys
