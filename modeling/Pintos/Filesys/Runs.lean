import Pintos.Filesys.Format
import Pintos.Library.Runs

/-! Runs of the inode calls.

A run starts from a freshly formatted device and takes inode calls in any order, on any
number of files, with memory running out at any point. The live inodes are read off the
history variable (`node`), and `Inv` is the invariant between calls. -/
namespace Pintos.Filesys
open Outcome WriteBack

/-- The inode block of a live inode. -/
def node (t : List Event) (i : Nat) : Option Bytes :=
  match lastRole t i with
  | some (.inode, d) => some d
  | _ => none

theorem node_eq_some {t : List Event} {i : Nat} {d : Bytes} :
    node t i = some d ↔ lastRole t i = some (.inode, d) := by
  unfold node
  grind

/-- Without sectors on their way the history variable tells the inodes. -/
theorem Tree.eq_node {P : Prop} {N : Nat → Option Bytes} {s : Fs} (h : Tree P N [] s) : N = node s.trace := by
  funext i
  apply Option.ext
  intro d
  rw [node_eq_some]
  constructor
  · exact fun hN => (h.inode i d hN).1
  · intro hr
    obtain ⟨j, e, hN, hk⟩ := (h.roles i (by simp [hr])).resolve_right (by simp)
    rcases mem_metaSectors.mp hk with rfl | rfl | hk
    · have := (h.inode i e hN).1.symm.trans hr
      grind
    · exfalso
      by_cases hz : sectorCnt (InodeDisk.size e) = 0
      · simp [(h.pointers j e hN).empty hz] at hr
      · simp [(h.pointers j e hN).double (by omega)] at hr
    · exfalso
      simp [(h.pointers j e hN).indirect i hk] at hr

/-! ### The calls -/

/-- The creation of an inode as `filesys_create_name` makes it: a sector is allocated and
given back should `inode_create` fail. -/
def createInode (length : Int) (isDir : Bool) : FsM (Option Nat) := do
  match ← freeMapAllocate bitmapWrite 1 with
  | none => return none
  | some sector =>
    if ← inodeCreate bitmapWrite sector length isDir then
      return some sector
    else
      freeMapRelease bitmapWrite sector 1
      return none

inductive Op where
  | create (length : Int) (isDir : Bool)
  | openInode (sector : Nat)
  | write (sector : Nat) (buffer : Bytes) (size : Int) (offset : Nat)
  | read (ahead : Bool) (sector : Nat) (size : Int) (offset : Nat)
  | remove (sector : Nat)
  | close (sector : Nat)
  | writeBackAllCache

inductive Reply where
  | inode (sector : Option Nat)
  | written (bytes : Nat)
  | bytes (l : List UInt8)
  | done

def Op.exec : Op → FsM Reply
  | create length isDir => do return .inode (← createInode length isDir)
  | openInode sector => do return .inode (← inodeOpen sector)
  | write sector buffer size offset => do return .written (← inodeWriteAt sector buffer size offset)
  | read ahead sector size offset => do return .bytes (← readAt ahead sector size offset)
  | remove sector => do inodeRemove sector; return .done
  | close sector => do inodeClose bitmapWrite (some sector); return .done
  | writeBackAllCache => do Filesys.writeBackAllCache; return .done

/-- A size or an offset as the callers pass it. -/
def IsOffT (x : Int) : Prop := -2 ^ 31 ≤ x ∧ x < 2 ^ 31

/-- The inode is open, and is not the free map's, which has no name. -/
def UserOpen (s : Fs) (i : Nat) : Prop := i ≠ freeMapSector ∧ (findInode i s.openInodes).isSome

/-- A call has a pointer to an open inode, or the sector of a live one. -/
def Op.Allowed (s : Fs) : Op → Prop
  | create _ _ => True
  | openInode i => i ≠ freeMapSector ∧ (node s.trace i).isSome
  | write i _ size offset => UserOpen s i ∧ IsOffT size ∧ IsOffT offset
  | read _ i size offset => UserOpen s i ∧ IsOffT size ∧ IsOffT offset
  | remove i => UserOpen s i
  | close i => UserOpen s i
  | writeBackAllCache => True

/-- A call, and how its memory requests turn out. -/
structure Step where
  heap : List Bool
  op : Op

def Step.exec (st : Step) : FsM Reply := do
  modify fun s => {s with heap := st.heap}
  st.op.exec

/-- The file system just after `filesys_init (true)`. -/
def Formatted (s : Fs) : Prop :=
  ∃ device size, (filesysInit true).run (powerOn device size) = .ok () s

/-! ### Creating -/

section
variable {P : Prop} {N : Nat → Option Bytes} {X : List Nat} {s s' : Fs} {i : Nat} {d : Bytes}

/-- A new inode, all of whose sectors were free. -/
structure Fresh (P : Prop) (N : Nat → Option Bytes) (X : List Nat) (s : Fs) (length : Nat) (isDir : Bool) (i : Nat)
    (d : Bytes) (s' : Fs) : Prop where
  sound : Sound P (Function.update N i (some d)) X s'
  absent : N i = none
  size : InodeDisk.size d = length
  isDir : InodeDisk.isDir d = isDir
  free : ∀ k ∈ sectorsOf s'.device i d, s.freeMap.test k = false
  effect : Effect N (Function.update N i (some d)) noBytes s s'
  tame : Tame N (Function.update N i (some d)) s s'
  openInodes : s'.openInodes = s.openInodes
  deviceSize : s'.deviceSize = s.deviceSize

theorem createInode_meets (h : Sound P N X s) (hfc : P → FreeClean s) (length : Int) (isDir : Bool) :
    Meets (Spoiled P) (createInode length isDir) s
      (fun r s' => match r with
        | some i => ∃ d, Fresh P N X s length.toNat isDir i d s'
        | none => Steady N s s' ∧ Tree P N X s')
      (fun e _ => e = .createLength ∨ e = .fileSize) := by
  unfold createInode
  refine Meets.bind (spoiled_sticky P) (Ends.mono (freeMapAllocate_meets h.tree h.writable) (fun _ _ => id)
    fun _ _ => Or.imp_right False.elim) fun r s1 ht => ?_
  have hst := ht.steady
  cases r with
  | none => exact meets_pure _ ⟨hst, ht.tree⟩
  | some i =>
    have hs1 : Sound P N (i :: X) s1 := h.steady hst ht.tree
    obtain ⟨hfree, -⟩ := ht.fresh i rfl
    have hrole : lastRole s1.trace i = none := by
      rw [hst.calm.role]
      exact h.tree.role_free hfree
    have hclean : P → ¬ (s1.cell i).Dirty := by
      intro hP hd
      rcases hst.calm.dirty hd with hd | hm
      · exact hfc hP i hfree hd
      · have := (h.tree.used i).mpr (.inl hm.dataOf.owned)
        simp [hfree] at this
    have hfail : ∀ {s2 : Fs}, Steady N s1 s2 → Tree P N (i :: X) s2 →
        Meets (Spoiled P) (do freeMapRelease bitmapWrite i 1; return (none : Option Nat)) s2
          (fun r s' => match r with
            | some i => ∃ d, Fresh P N X s length.toNat isDir i d s'
            | none => Steady N s s' ∧ Tree P N X s')
          (fun e _ => e = .createLength ∨ e = .fileSize) := by
      intro s2 hst2 ht2
      obtain ⟨n, hm⟩ := h.map
      have hst12 := hst.trans hst2
      refine Meets.bind (spoiled_sticky P) (Ends.mono (freeMapRelease_file ht2 (hst12.mapFile hm)) (fun _ _ => id)
        fun _ _ => Or.imp_right False.elim) fun _ s3 hg => ?_
      have hr : lastRole s2.trace i = none := by rw [hst2.calm.role, hrole]
      exact meets_pure _ ⟨hst12.trans ((steady_released hr).trans hg.steady), hg.tree⟩
    by_cases hr : 0 ≤ length ∧ length < maxFileSize
    · have hz : ((length.toNat : Nat) : Int) = length := Int.toNat_of_nonneg hr.1
      have hnofile : ∀ e s', Spoiled P s' ∨ NoMapFile s1 e s' → Spoiled P s' ∨ (e = .createLength ∨ e = .fileSize) :=
        fun e s' => Or.imp_right fun hno => absurd hno.1 hs1.freeMapFile
      refine Meets.bind (spoiled_sticky P) (Ends.mono (inodeCreate_meets hs1.tree hs1.writable
        (fun hP => (hfc hP).steady (Y := [i]) hst h.tree ht.tree) hrole hclean (by omega) hz isDir)
        (fun _ _ => id) hnofile) fun ok s2 hc => ?_
      cases ok with
      | false =>
        obtain ⟨hst2, ht2⟩ := hc.failed rfl
        exact hfail hst2 ht2
      | true =>
        obtain ⟨d, s3, hsize, hdir, hfresh, hst3, hb, ht3⟩ := hc.done rfl
        have hfree' : ∀ k ∈ sectorsOf s2.device i d, s.freeMap.test k = false := by
          intro k hk
          rcases hfresh k hk with rfl | hk
          · exact hfree
          · exact hst.free_of_free (Y := [i]) h.tree ht.tree hk
        have hout : ∀ k ∈ sectorsOf s2.device i d, ¬ Owned N s k := by
          intro k hk hO
          have := (h.tree.used k).mpr (.inl hO)
          simp [hfree' k hk] at this
        have hN := hs1.tree.absent List.mem_cons_self
        have hst' := hst.trans hst3
        exact meets_pure _ ⟨d, hs1.created List.mem_cons_self hst3 hb ht3, hN, hsize, hdir, hfree',
          created_effect hst' hb hout h.tree hN ht3 fun k hk => hfree' k (mem_sectorsOf.mpr (.inr hk)),
          created_tame hst' hb hout hN h.tree (fun k hk => List.mem_append_right _ hk) ht3,
          hb.openInodes.trans hst'.calm.openInodes, hb.deviceSize.trans hst'.calm.deviceSize⟩
    · refine Meets.bind (spoiled_sticky P) (inodeCreate_outside hs1.tree hs1.writable hr isDir) ?_
      grind

/-! ### One call -/

/-- Between calls no lock is held, and every open inode has an opener. -/
def Idle (s : Fs) : Prop :=
  ∀ n ∈ s.openInodes, n.locked = false ∧ 0 < n.openCnt ∧ n.denyWriteCnt = 0

structure Inv (P : Prop) (s : Fs) : Prop where
  sound : Sound P (node s.trace) [] s
  idle : Idle s

/-- The bytes a call has written. -/
def Op.bytes : Op → Reply → Nat → Nat → Option UInt8
  | write i buffer _ offset, .written w => writtenBytes i buffer offset w
  | _, _ => noBytes

/-- The call has created the inode. -/
def Op.Creates : Op → Reply → Nat → Prop
  | create _ _, .inode r, i => r = some i
  | _, _, _ => False

/-- The call takes sectors from the free map. -/
def Op.Takes : Op → Prop
  | create _ _ | write _ _ _ _ => True
  | _ => False

/-- The call is the last close of a removed inode. -/
def Op.Frees (s : Fs) : Op → Prop
  | close i => ∃ n, findInode i s.openInodes = some n ∧ n.openCnt = 1 ∧ n.removed = true
  | _ => False

/-- The panics a call can end in. -/
def Op.Fails : Op → Panic → Prop
  | create _ _, e => e = .createLength ∨ e = .fileSize
  | write _ _ _ _, e => e = .fileSize
  | read _ _ _ _, e => e = .pastEnd
  | close _, e => e = .closeBuffers
  | _, _ => False

/-- No open inode is marked removed. -/
def NoneRemoved (s : Fs) : Prop := ∀ n ∈ s.openInodes, n.removed = false

/-- What a call does to the list of open inodes. -/
structure Opens (op : Op) (s s' : Fs) : Prop where
  deviceSize : s'.deviceSize = s.deviceSize
  idle : Idle s'
  marks : (∀ i, op ≠ .remove i) → NoneRemoved s → NoneRemoved s'

structure StepOk (P : Prop) (s : Fs) (op : Op) (r : Reply) (s' : Fs) : Prop where
  inv : Inv P s'
  deviceSize : s'.deviceSize = s.deviceSize
  marks : (∀ i, op ≠ .remove i) → NoneRemoved s → NoneRemoved s'
  effect : Effect (node s.trace) (node s'.trace) (op.bytes r) s s'
  tame : ¬ op.Frees s → Tame (node s.trace) (node s'.trace) s s'
  within : ∀ i o b, op.bytes r i o = some b → ∃ d, node s'.trace i = some d ∧ o < InodeDisk.size d
  fresh : ∀ i, op.Creates r i → node s.trace i = none
  used : ¬ op.Takes → ∀ k, s'.freeMap.test k = true → s.freeMap.test k = true

theorem StepOk.intro {op : Op} {r : Reply} (hs : Sound P N [] s') (ho : Opens op s s')
    (he : Effect (node s.trace) N (op.bytes r) s s') (ht : ¬ op.Frees s → Tame (node s.trace) N s s')
    (hw : ∀ i o b, op.bytes r i o = some b → ∃ d, N i = some d ∧ o < InodeDisk.size d)
    (hf : ∀ i, op.Creates r i → node s.trace i = none)
    (hu : ¬ op.Takes → ∀ k, s'.freeMap.test k = true → s.freeMap.test k = true) : StepOk P s op r s' := by
  obtain rfl := hs.tree.eq_node
  exact ⟨⟨hs, ho.idle⟩, ho.deviceSize, ho.marks, he, ht, hw, hf, hu⟩

/-- A call that has written nothing. -/
theorem StepOk.silent {op : Op} {r : Reply} (hb : op.bytes r = noBytes) (hs : Sound P N [] s') (ho : Opens op s s')
    (he : Effect (node s.trace) N noBytes s s') (ht : ¬ op.Frees s → Tame (node s.trace) N s s')
    (hf : ∀ i, op.Creates r i → node s.trace i = none)
    (hu : ¬ op.Takes → ∀ k, s'.freeMap.test k = true → s.freeMap.test k = true) : StepOk P s op r s' :=
  .intro hs ho (hb ▸ he) ht (fun i o b hbyte => by rw [hb] at hbyte; cases hbyte) hf hu

theorem Inv.heap (h : Inv P s) (heap : List Bool) : Inv P {s with heap := heap} := ⟨h.sound.heap heap, h.idle⟩

theorem Idle.opens_same (h : Idle s) {op : Op} (ho : s'.openInodes = s.openInodes)
    (hd : s'.deviceSize = s.deviceSize) : Opens op s s' := by
  unfold Idle at h
  refine ⟨hd, ?_, fun _ hr => ?_⟩
  · unfold Idle
    rwa [ho]
  · unfold NoneRemoved at hr ⊢
    rwa [ho]

theorem Idle.opens_onInode (h : Idle s) {op : Op} {f : Inode → Inode}
    (hf : ∀ n ∈ s.openInodes, n.sector = i → (f n).locked = false ∧ 0 < (f n).openCnt ∧ (f n).denyWriteCnt = 0)
    (hr : (∀ i, op ≠ .remove i) → ∀ n, (f n).removed = n.removed) : Opens op s (s.onInode i f) := by
  refine ⟨rfl, ?_, ?_⟩
  · intro m hm
    obtain ⟨m', hm', rfl⟩ := List.mem_map.mp hm
    split
    · exact hf m' hm' ‹_›
    · exact h m' hm'
  · intro hop hnone m hm
    obtain ⟨m', hm', rfl⟩ := List.mem_map.mp hm
    split
    · rw [hr hop]
      exact hnone m' hm'
    · exact hnone m' hm'

theorem create_step (h : Inv P s) (hfc : P → FreeClean s) (length : Int) (isDir : Bool) :
    Meets (Spoiled P) (Op.create length isDir).exec s (StepOk P s (.create length isDir))
      (fun e _ => (Op.create length isDir).Fails e) := by
  refine Meets.bind (spoiled_sticky P) (createInode_meets h.sound hfc length isDir) fun r s' hr => ?_
  cases r with
  | some i =>
    obtain ⟨d, hf⟩ := hr
    exact meets_pure _ (.silent rfl hf.sound (h.idle.opens_same hf.openInodes hf.deviceSize) hf.effect (fun _ => hf.tame)
      (fun j hj => by cases hj; exact hf.absent) fun hT => absurd trivial hT)
  | none =>
    obtain ⟨hst, ht⟩ := hr
    exact meets_pure _ (.silent rfl (h.sound.steady hst ht) (h.idle.opens_same hst.calm.openInodes hst.calm.deviceSize)
      (hst.effect h.sound.tree) (fun _ => hst.tame (Y := []) h.sound.tree ht) nofun fun hT => absurd trivial hT)

theorem open_step (h : Inv P s) (hi : i ≠ freeMapSector) (hN : node s.trace i = some d) :
    Meets (Spoiled P) (Op.openInode i).exec s (StepOk P s (.openInode i)) (fun e _ => (Op.openInode i).Fails e) := by
  have hlt : i < s.deviceSize := h.sound.tree.owned_lt ⟨i, d, hN, self_mem⟩
  refine Meets.bind (spoiled_sticky P) (inodeOpen_ends hlt).meets fun r s' ho => meets_pure _ ?_
  have hs := h.sound.opened hN hi ho
  cases ho with
  | again hn =>
    exact .silent rfl hs (h.idle.opens_onInode (fun m hm _ => ⟨(h.idle m hm).1, Nat.succ_pos _, (h.idle m hm).2.2⟩)
      fun _ _ => rfl) (effect_self _ rfl rfl) (fun _ => tame_self _ rfl rfl rfl) (fun _ => False.elim) fun _ _ => id
  | new hn hh =>
    refine .silent rfl hs ⟨rfl, fun m hm => ?_, fun _ hr m hm => ?_⟩ (effect_self _ rfl rfl)
      (fun _ => tame_self _ rfl rfl rfl) (fun _ => False.elim) fun _ _ => id
    · rcases List.mem_cons.mp hm with rfl | hm
      · exact ⟨rfl, Nat.one_pos, rfl⟩
      · exact h.idle m hm
    · rcases List.mem_cons.mp hm with rfl | hm
      · rfl
      · exact hr m hm
  | noMemory =>
    exact .silent rfl hs (h.idle.opens_same rfl rfl) (effect_self _ rfl rfl) (fun _ => tame_self _ rfl rfl rfl)
      (fun _ => False.elim) fun _ _ => id

theorem write_step (h : Inv P s) (hfc : P → FreeClean s) (hu : UserOpen s i) {size : Int} {offset : Nat}
    (hs : IsOffT size) (ho : IsOffT offset) (buffer : Bytes) :
    Meets (Spoiled P) (Op.write i buffer size offset).exec s (StepOk P s (.write i buffer size offset))
      (fun e _ => (Op.write i buffer size offset).Fails e) := by
  obtain ⟨hi, hopen⟩ := hu
  obtain ⟨n, hn⟩ := Option.isSome_iff_exists.mp hopen
  have hN := h.sound.node_of_find hn
  refine Meets.bind (spoiled_sticky P) (Ends.mono (inodeWriteAt_meets h.sound.tree hn hN h.sound.nodup hi
    h.sound.writable (fun hP => .inr (hfc hP)) hs.1 hs.2 (by have := ho.2; omega) buffer) (fun _ _ => id) ?_) fun w s' hw => ?_
  · rintro e s' (hbad | ⟨rfl, -⟩ | hno)
    · exact .inl hbad
    · exact .inr rfl
    · exact absurd hno.1 h.sound.freeMapFile
  · obtain ⟨d', l, hw⟩ := hw
    refine meets_pure _ (.intro (h.sound.wrote hi hw) ?_ (hw.effect h.sound.tree hN)
      (fun _ => hw.tame h.sound.tree hN ?_) (fun j o b hb => ?_) (fun _ => False.elim) fun hT => absurd trivial hT)
    · have ho : Opens (.write i buffer size offset) s (s.onInode i fun m => {m with data := d'}) :=
        h.idle.opens_onInode (fun m hm _ => h.idle m hm) fun _ _ => rfl
      unfold Fs.onInode at ho
      refine ⟨hw.deviceSize, ?_, ?_⟩
      · unfold Idle
        rw [hw.opens]
        exact ho.idle
      · unfold NoneRemoved
        rw [hw.opens]
        exact ho.marks
    · rcases hw.grown with he | ⟨hlt, -⟩
      · exact Nat.le_of_eq (by rw [he])
      · exact Nat.le_of_lt hlt
    · have hb : writtenBytes i buffer offset w j o = some b := hb
      unfold writtenBytes at hb
      split at hb
      · rename_i hin
        obtain ⟨rfl, hlo, hhi⟩ := hin
        have := hw.within (by omega)
        exact ⟨d', by simp, by omega⟩
      · cases hb

/-- A call that only moves the cache. -/
theorem quiet_step {op : Op} {r : Reply} (h : Inv P s) (hq : Quiet s s') (hc : CacheOk s')
    (hb : op.bytes r = noBytes) (hf : ∀ i, ¬ op.Creates r i) : Spoiled P s' ∨ StepOk P s op r s' :=
  (h.sound.quiet hq hc).imp_right fun hs => .silent hb hs (h.idle.opens_same hq.openInodes hq.deviceSize)
    (hq.effect h.sound.tree hs.tree) (fun _ => hq.tame h.sound.tree hs.tree) (fun i hi => (hf i hi).elim)
    fun _ k hk => hq.freeMap ▸ hk

theorem read_step (h : Inv P s) (hu : UserOpen s i) (ahead : Bool) (size : Int) (offset : Nat) :
    Meets (Spoiled P) (Op.read ahead i size offset).exec s (StepOk P s (.read ahead i size offset))
      (fun e _ => (Op.read ahead i size offset).Fails e) := by
  obtain ⟨n, hn⟩ := Option.isSome_iff_exists.mp hu.2
  refine Meets.bind (spoiled_sticky P) (readAt_quiet h.sound.tree.cache hn ahead size offset).meets ?_
  rintro r s' ⟨hq, hc, -⟩
  exact quiet_step h hq hc rfl fun _ => id

theorem flush_step (h : Inv P s) :
    Meets (Spoiled P) Op.writeBackAllCache.exec s (StepOk P s .writeBackAllCache)
      (fun e _ => Op.writeBackAllCache.Fails e) := by
  refine Meets.bind (spoiled_sticky P) (writeBackAllCache_ends h.sound.tree.cache).meets ?_
  rintro - s' ⟨hq, hc, -⟩
  exact quiet_step h hq hc rfl fun _ => id

theorem remove_step (h : Inv P s) (hu : UserOpen s i) :
    Meets (Spoiled P) (Op.remove i).exec s (StepOk P s (.remove i)) (fun e _ => (Op.remove i).Fails e) := by
  obtain ⟨n, hn⟩ := Option.isSome_iff_exists.mp hu.2
  simp only [Op.exec, inodeRemove, Meets, ends_bind]
  rw [ends_inodeAt hn, ends_modifyInode]
  exact .inr (.silent rfl (h.sound.onInode (fun _ => rfl) (fun _ => rfl) hu.1)
    (h.idle.opens_onInode (fun m hm _ => h.idle m hm) fun hop => absurd rfl (hop i))
    (effect_self _ rfl rfl) (fun _ => tame_self _ rfl rfl rfl) (fun _ => False.elim) fun _ _ => id)

theorem close_step (h : Inv P s) (hu : UserOpen s i) :
    Meets (Spoiled P) (Op.close i).exec s (StepOk P s (.close i)) (fun e _ => (Op.close i).Fails e) := by
  obtain ⟨hi, hopen⟩ := hu
  obtain ⟨n, hn⟩ := Option.isSome_iff_exists.mp hopen
  have hN := h.sound.node_of_find hn
  obtain ⟨hul, hcnt, -⟩ := h.idle n (findInode_some hn).1
  have hdrop := h.sound.drop hi
  have hopens : Opens (.close i) s (s.dropInode i) := ⟨rfl, fun m hm => h.idle m (List.mem_filter.mp hm).1,
    fun _ hr m hm => hr m (List.mem_filter.mp hm).1⟩
  simp only [Op.exec, Meets, ends_bind]
  rw [ends_inodeClose bitmapWrite hn hul h.sound.nodup]
  split
  · rename_i hone
    refine ends_whenever (fun hr => ?_) fun hr => ?_
    · obtain ⟨m, hm⟩ := hdrop.map
      refine Ends.mono (deallocate_meets (hdrop.tree.aside hN) (hm.update hi none)) ?_
        fun _ _ => Or.imp_right And.left
      rintro - s' (hbad | hg)
      · exact .inl hbad
      · refine .inr (.silent rfl (hdrop.deallocated (findInode_dropInode s i) hi hg.freed hg.tree) ?_ ?_ (fun hf => ?_)
          (fun _ => False.elim) fun _ k hk => ?_)
        · have hsame : Opens (.close i) (s.dropInode i) s' :=
            hopens.idle.opens_same hg.freed.openInodes hg.freed.deviceSize
          exact ⟨hsame.deviceSize, hsame.idle, fun hop hr => hsame.marks hop (hopens.marks hop hr)⟩
        · have := freed_effect hg.freed hi hdrop.tree
          exact ⟨this.sectors, this.bytes, this.coherent⟩
        · exact absurd ⟨n, hn, hone, hr⟩ hf
        · obtain ⟨j, e, hj, hmem⟩ := ((hg.tree.used k).mp hk).resolve_right (by simp)
          rw [(hg.freed.kept j e hj).sectorsOf] at hmem
          exact (hdrop.tree.used k).mpr (.inl ⟨j, e, (update_none_eq_some.mp hj).2, hmem⟩)
    · exact .inr (.silent rfl hdrop hopens (effect_self _ rfl rfl) (fun _ => tame_self _ rfl rfl rfl)
        (fun _ => False.elim) fun _ _ => id)
  · rename_i hne
    refine .inr (.silent rfl (h.sound.onInode (fun _ => rfl) (fun _ => rfl) hi)
      (h.idle.opens_onInode (fun m hm hmi => ?_) fun _ _ => rfl) (effect_self _ rfl rfl)
      (fun _ => tame_self _ rfl rfl rfl) (fun _ => False.elim) fun _ _ => id)
    obtain rfl := eq_of_sector h.sound.nodup hm (hmi ▸ hn)
    exact ⟨hul, by simp only; omega, (h.idle m hm).2.2⟩

/-- What every call does, and the panics it can end in. -/
theorem Op.step_meets (h : Inv P s) {op : Op} (ha : op.Allowed s) (hfc : P → op.Takes → FreeClean s) :
    Meets (Spoiled P) op.exec s (StepOk P s op) (fun e _ => op.Fails e) := by
  cases op with
  | create length isDir => exact create_step h (fun hP => hfc hP trivial) length isDir
  | openInode i =>
    obtain ⟨d, hd⟩ := Option.isSome_iff_exists.mp ha.2
    exact open_step h ha.1 hd
  | write i buffer size offset => exact write_step h (fun hP => hfc hP trivial) ha.1 ha.2.1 ha.2.2 buffer
  | read ahead i size offset => exact read_step h ha.1 ahead size offset
  | remove i => exact remove_step h ha
  | close i => exact close_step h ha
  | writeBackAllCache => exact flush_step h

/-! ### The start -/

theorem Sound.weaken (h : Sound True N X s) (P : Prop) : Sound P N X s :=
  {h with tree := {h.tree with clean := fun _ => h.tree.clean trivial}}

/-- A file system that has just been formatted. -/
structure Started (s : Fs) : Prop where
  inv : Inv True s
  tidy : Tidy s
  readable : Readable (node s.trace) s
  memory : s.heap = []
  marks : NoneRemoved s
  only : ∀ i d, node s.trace i = some d → i = freeMapSector ∨ i = rootDirSector

theorem Formatted.started (h : Formatted s) : Started s := by
  obtain ⟨device, size, hrun⟩ := h
  obtain ⟨a, ⟨N, X, hr⟩, hnew⟩ := (ends_ok hrun).mp (format_ends device size)
  obtain ⟨f, htwo, -⟩ := hnew.files
  obtain ⟨d, -, hopens⟩ := hr.opens_map hnew.handles
  obtain rfl : X = [] := List.eq_nil_iff_forall_not_mem.mpr fun k hk => by
    refine htwo.owned k (by rw [hr.used]; exact (hr.sound.tree.used k).mpr (.inr hk)) fun i g hg hkg => ?_
    obtain ⟨e, hN, hrep⟩ := hr.file_iff hg
    exact hr.sound.tree.spare k ⟨i, e, hN, (hrep.sectors k).mp hkg⟩ hk
  obtain rfl := hr.sound.tree.eq_node
  refine ⟨⟨hr.sound, fun n hn => ?_⟩, hr.tidy rfl, hr.readable, hr.memory, fun n hn => ?_, fun i e hi => ?_⟩
  · grind
  · grind
  · obtain ⟨g, hg, -⟩ := hr.files i e hi
    exact htwo.only i (by rw [hg]; simp)

theorem Inv.weaken (h : Inv True s) (P : Prop) : Inv P s := ⟨h.sound.weaken P, h.idle⟩

/-! ### Whole runs -/

/-- The calls are made as their callers make them. -/
def Permitted (st : Step) (s : Fs) : Prop := st.op.Allowed s

/-- No free sector has a dirty copy when a call may take sectors. -/
def Clean (st : Step) (s : Fs) : Prop := st.op.Takes → FreeClean s

theorem StepOk.of_heap {heap : List Bool} {op : Op} {r : Reply} (h : StepOk P {s with heap := heap} op r s') :
    StepOk P s op r s' :=
  ⟨h.inv, h.deviceSize, h.marks, ⟨h.effect.sectors, h.effect.bytes, h.effect.coherent⟩, fun hf => by
    have ht := h.tame hf
    refine ⟨fun i d hN => ?_, ht.used, ht.dirty⟩
    obtain ⟨d', hN', he⟩ := ht.files i d hN
    exact ⟨d', hN', he.size, he.data, he.metas⟩, h.within, h.fresh, h.used⟩

/-- One step, from a state between calls. -/
theorem Step.meets (h : Inv P s) {st : Step} (ha : Permitted st s) (hc : P → Clean st s) :
    Meets (Spoiled P) st.exec s (StepOk P s st.op) (fun e _ => st.op.Fails e) := by
  unfold Step.exec Meets
  simp only [ends_bind, ends_modify]
  exact Meets.imp (Op.step_meets (h.heap st.heap) ha hc) fun r s' => StepOk.of_heap

/-- Without bad states. -/
theorem Step.ends (h : Inv True s) {st : Step} (ha : Permitted st s) (hc : Clean st s) :
    Ends st.exec s (StepOk True s st.op) (fun e _ => st.op.Fails e) :=
  (Step.meets h ha fun _ => hc).ends not_spoiled

/-! ### Runs by evaluation -/

instance (x : Int) : Decidable (IsOffT x) := inferInstanceAs (Decidable (_ ∧ _))
instance (s : Fs) (i : Nat) : Decidable (UserOpen s i) := inferInstanceAs (Decidable (_ ∧ _))

instance (op : Op) (s : Fs) : Decidable (op.Allowed s) :=
  match op with
  | .create _ _ => inferInstanceAs (Decidable True)
  | .openInode _ => inferInstanceAs (Decidable (_ ∧ _))
  | .write _ _ _ _ => inferInstanceAs (Decidable (_ ∧ _ ∧ _))
  | .read _ _ _ _ => inferInstanceAs (Decidable (_ ∧ _ ∧ _))
  | .remove i => inferInstanceAs (Decidable (UserOpen s i))
  | .close i => inferInstanceAs (Decidable (UserOpen s i))
  | .writeBackAllCache => inferInstanceAs (Decidable True)

instance (st : Step) (s : Fs) : Decidable (Permitted st s) := inferInstanceAs (Decidable (st.op.Allowed s))

/-- No dirty block in the list has a free sector. -/
def freeClean (s : Fs) : Bool := s.cachedBlocks.all fun ca => !ca.isDirty || s.freeMap.test ca.index

theorem freeClean_correct (h : freeClean s = true) : FreeClean s := by
  rintro k hk ⟨e, he⟩
  obtain ⟨ca, hca, heq⟩ := Option.map_eq_some_iff.mp he
  obtain ⟨hmem, hidx⟩ := findCache_mem hca
  have := List.all_eq_true.mp h ca hmem
  grind

/-- The call is made as its callers make it, and no free sector has a dirty copy. -/
def cleanly (st : Step) (s : Fs) : Bool := decide (Permitted st s) && freeClean s

theorem cleanly_correct (st : Step) (s : Fs) (h : cleanly st s = true) : Permitted st s ∧ Clean st s := by
  rw [cleanly, Bool.and_eq_true, decide_eq_true_eq] at h
  exact ⟨h.1, fun _ => freeClean_correct h.2⟩

/-- A blank device of the given size, formatted. -/
def formatBlank (size : UInt32) : Option Fs :=
  match (filesysInit true).run (powerOn (fun _ _ => 0) size) with
  | .ok _ s => some s
  | .error _ _ => none

theorem formatted_of_blank {size : UInt32} (h : formatBlank size = some s) : Formatted s := by
  refine ⟨fun _ _ => 0, size, ?_⟩
  unfold formatBlank at h
  grind

/-- A run from a blank device, found by evaluation. -/
theorem run_of_replay {allowed : Step → Fs → Prop} {check : Step → Fs → Bool}
    (hc : ∀ st s, check st s = true → allowed st s) (size : UInt32) (steps : List Step)
    {p : List (Step × Reply) → Fs → Bool}
    (hp : (formatBlank size).any (fun s => (replay Step.exec check steps [] s).any fun x => p x.1 x.2) = true) :
    ∃ h s, Run Step.exec allowed Formatted h s ∧ p h s = true := by
  obtain ⟨s, hs, hp⟩ := (Option.any_eq_true ..).mp hp
  exact Run.of_replay hc (formatted_of_blank hs) hp

/-- The root directory, open on a device that has just been formatted. -/
structure RootOpen (s : Fs) (n : Inode) : Prop where
  run : ∃ h, Run Step.exec (fun st s => Permitted st s ∧ Clean st s) Formatted h s
  find : findInode rootDirSector s.openInodes = some n
  readable : Readable (node s.trace) s
  freeClean : FreeClean s
  memory : s.heap = []
  allowed : n.denyWriteCnt = 0
  length : InodeDisk.length n.data = 320
  ahead : dataSector s.device n.data 0 + readAheadSize < s.deviceSize

theorem exists_rootOpen : ∃ s n, RootOpen s n := by
  have hp : (formatBlank 24).any (fun s => (node s.trace rootDirSector).isSome &&
      (findInode rootDirSector s.openInodes).isNone && (InodeDisk.length (s.device rootDirSector) == 320) &&
      decide (dataSector s.device (s.device rootDirSector) 0 + readAheadSize < s.deviceSize)) = true := by
    decide +kernel
  obtain ⟨s, hs, hp⟩ := (Option.any_eq_true ..).mp hp
  simp only [Bool.and_eq_true, Option.isNone_iff_eq_none, beq_iff_eq, decide_eq_true_eq] at hp
  obtain ⟨⟨⟨hnode, hnone⟩, hlen⟩, hahead⟩ := hp
  have hf := formatted_of_blank hs
  have hstart := hf.started
  obtain ⟨d, hd⟩ := Option.isSome_iff_exists.mp hnode
  have hlt : rootDirSector < s.deviceSize := hstart.inv.sound.tree.owned_lt ⟨rootDirSector, d, hd, self_mem⟩
  obtain ⟨r, s', hrun, ho⟩ := (inodeOpen_ends hlt).ok
  have hstep : Run Step.exec (fun st s => Permitted st s ∧ Clean st s) Formatted
      [(⟨[], .openInode rootDirSector⟩, .inode r)] s' := by
    refine .step (.start hf) ⟨⟨by decide, hnode⟩, False.elim⟩ ?_
    have hsame : {s with heap := []} = s := by rw [← hstart.memory]
    show ((inodeOpen rootDirSector >>= fun r => pure (Reply.inode r)) : FsM Reply).run {s with heap := []} = _
    rw [hsame, Prog.run_bind, hrun]
    rfl
  cases ho with
  | again h =>
    rw [hnone] at h
    cases h
  | noMemory h => exact absurd hstart.memory h
  | new _ hh =>
    exact ⟨_, ⟨rootDirSector, 1, false, 0, false, s.device rootDirSector⟩, ⟨_, hstep⟩, rfl, hstart.readable,
      hstart.tidy.freeClean, hh hstart.memory, rfl, hlen, hahead⟩

end

end Pintos.Filesys
