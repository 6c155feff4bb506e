import Pintos.Filesys.Boot
import Pintos.Filesys.DirectoryProofs
import Pintos.Filesys.FsLawful

/-! What formatting leaves.

After `filesys_init (true)` there are two files, the free map's and the root directory, and
between them they own every sector that is taken. The free-map file is open and holds the
free map, and nothing stale is in the cache. -/
namespace Pintos.Filesys
open Outcome WriteBack Kernel

/-- The modules are initialized and the first two sectors taken. -/
def initialState (device : Nat → Bytes) (size : UInt32) : Fs := {powerOn device size with
  freeMap := ((Bitmap.create size.toNat).mark freeMapSector).mark rootDirSector}

section
variable {device : Nat → Bytes} {size : UInt32} {s s' : Fs} {N : Nat → Option Bytes} {X : List Nat} {a : Store}
  {d : Bytes}

theorem cell_initialState (device : Nat → Bytes) (size : UInt32) (k : Nat) :
    (initialState device size).cell k = ⟨device k, none⟩ := rfl

theorem tidy_initialState (device : Nat → Bytes) (size : UInt32) : Tidy (initialState device size) := by
  intro k _
  rw [cell_initialState]
  exact ⟨fun ⟨_, he⟩ => (nomatch he), fun _ he => (nomatch he)⟩

theorem test_initialState (h : 2 ≤ size.toNat) (k : Nat) :
    (initialState device size).freeMap.test k = decide (k ∈ [freeMapSector, rootDirSector]) := by
  have h0 : freeMapSector < (Bitmap.create size.toNat).bitCnt := by
    show 0 < size.toNat
    omega
  have h1 : rootDirSector < ((Bitmap.create size.toNat).put freeMapSector true).bitCnt := by
    rw [Bitmap.bitCnt_put]
    show 1 < size.toNat
    omega
  have := Bitmap.test_put h1 true k
  rw [Bitmap.test_put h0, Bitmap.test_create] at this
  refine this.trans ?_
  by_cases hk : k = rootDirSector <;> by_cases hk' : k = freeMapSector <;> simp [hk, hk']

theorem tree_initialState (h : 2 ≤ size.toNat) :
    Tree True (fun _ => none) [freeMapSector, rootDirSector] (initialState device size) := by
  have hnone : ∀ k, ¬ Owned (fun _ => none) (initialState device size) k := fun k ⟨_, _, hN, _⟩ => nomatch hN
  have hlt := size.toNat_lt
  refine ⟨⟨⟨List.Pairwise.nil, rfl, nofun, nofun⟩, Nat.zero_le _⟩, rfl, Nat.le_of_lt hlt, ?_, trivial, nofun, nofun,
    nofun, nofun, nofun, by decide, fun k hO => absurd hO (hnone k), fun k => ?_, fun k hr => absurd rfl hr,
    fun _ k hd => ?_⟩
  · intro k hk
    have hk : size.toNat ≤ k := hk
    rw [test_initialState h, decide_eq_false_iff_not]
    simp only [List.mem_cons, List.not_mem_nil, or_false, freeMapSector, rootDirSector]
    omega
  · rw [test_initialState h, decide_eq_true_eq]
    simp [hnone]
  · obtain ⟨_, he⟩ := hd
    rw [cell_initialState] at he
    cases he

/-! ### The free-map file -/

/-- Only the free map's inode. -/
def onlyMap (d : Bytes) : Nat → Option Bytes := Function.update (fun _ => none) freeMapSector (some d)

/-- The free-map file has been created and holds the free map. -/
structure MapMade (blank : Prop) (d : Bytes) (s : Fs) : Prop where
  refines : Refines (onlyMap d) [rootDirSector] true s (storeOf (onlyMap d) s)
  isDir : InodeDisk.isDir d = false
  opens : s.openInodes = [⟨freeMapSector, 1, false, 0, false, d⟩]
  fresh : FsFresh s rootDirSector
  blank : blank → FreeBlank s

theorem Tree.freeMapFile {P : Prop} (h : Tree P N X s) (file : Option File) :
    Tree P N X {s with freeMapFile := file} :=
  {h with
    cache := cacheOk_of_cells h.cache rfl rfl rfl rfl
    pointers := fun i d hN => ⟨(h.pointers i d hN).double, (h.pointers i d hN).empty, (h.pointers i d hN).indirect⟩}

/-- The inode of the free map, created on a device that holds nothing else. -/
structure MapInode (device : Nat → Bytes) (size : UInt32) (d : Bytes) (s : Fs) : Prop where
  tree : Tree True (onlyMap d) [rootDirSector] s
  size : InodeDisk.size d = s.freeMap.fileSize
  isDir : InodeDisk.isDir d = false
  openInodes : s.openInodes = []
  heap : s.heap = []
  tidy : Tidy s
  readable : Readable (onlyMap d) s
  fresh : FsFresh s rootDirSector
  blank : (∀ k, device k = fun _ => 0) → FreeBlank s

theorem Created.mapInode (h2 : 2 ≤ size.toNat)
    (hc : Created True (fun _ => none) freeMapSector [rootDirSector] (initialState device size)
      (initialState device size).freeMap.fileSize false true s) : ∃ d, MapInode device size d s := by
  obtain ⟨d, s1, hsize, hdir, hfresh, hst, hb, ht⟩ := hc.done rfl
  have h0 : Tree True (fun _ => none) [freeMapSector, rootDirSector] (initialState device size) :=
    tree_initialState h2
  have hout : ∀ k ∈ sectorsOf s.device freeMapSector d, ¬ Owned (fun _ => none) (initialState device size) k :=
    fun k _ ⟨_, _, hN, _⟩ => (nomatch hN)
  have hself : onlyMap d freeMapSector = some d := by simp [onlyMap]
  have hdata : ∀ k ∈ dataSectors s.device d, (initialState device size).freeMap.test k = false := by
    intro k hk
    refine (hfresh k (mem_sectorsOf.mpr (.inr hk))).resolve_left ?_
    rintro rfl
    exact List.disjoint_of_nodup_append (ht.nodup freeMapSector d hself) List.mem_cons_self hk
  have he := created_effect hst hb hout h0 rfl ht hdata
  have htame := created_tame hst hb hout rfl h0
    (fun k hk => (List.mem_cons.mp hk).elim (fun hk => List.mem_append_left _ (hk ▸ self_mem))
      (List.mem_append_right _)) ht
  have hmeta : ∀ k, s.freeMap.test k = false ∨ k = rootDirSector → k ∉ metaSectors s.device freeMapSector d := by
    rintro k hk hm
    have hO : Owned (onlyMap d) s k := ⟨_, d, hself, mem_sectorsOf.mpr (.inl hm)⟩
    rcases hk with hk | rfl
    · rw [(ht.used k).mpr (.inl hO)] at hk
      cases hk
    · exact ht.spare _ hO List.mem_cons_self
  have hcell : ∀ k, k ∉ metaSectors s.device freeMapSector d →
      ((initialState device size).cell k).Drifts (s.cell k) := by
    intro k hk
    rw [hb.cell hk]
    exact hst.calm.cells k fun ⟨_, hN, _⟩ => (nomatch hN)
  refine ⟨d, ht, ?_, hdir, hb.openInodes.trans hst.calm.openInodes, hb.heap.trans (hst.calm.heap rfl),
    htame.tidy he ht (tidy_initialState device size), ?_, ⟨?_, ?_⟩, fun hblank k _ hk o _ => ?_⟩
  · rw [hsize]
    unfold Bitmap.fileSize
    rw [hb.freeMap, hst.bitCnt]
  · rintro k ⟨j, e, hN, hk⟩
    rcases update_some_eq_some.mp hN with ⟨rfl, rfl⟩ | ⟨-, hN⟩
    · refine he.coherent k (ht.not_meta_of_data ⟨_, d, hself, hk⟩) ?_
      exact (tidy_initialState device size k (hdata k hk)).2
    · cases hN
  · rw [hb.role _ (hmeta _ (.inr rfl)), hst.calm.role]
    rfl
  · intro hd
    obtain ⟨_, hcopy⟩ := (hcell _ (hmeta _ (.inr rfl))).dirty hd
    cases hcopy
  · refine (hcell k (hmeta k (.inl hk))).firm ⟨fun b e he => (nomatch he), fun _ => ?_⟩
    rw [cell_initialState, hblank k]

/-- The free-map file is opened. -/
def Fs.withMap (s : Fs) (d : Bytes) : Fs :=
  {s with openInodes := [⟨freeMapSector, 1, false, 0, false, d⟩], freeMapFile := some ⟨freeMapSector, 0, false⟩}

theorem openMap_ends (hd : s.device freeMapSector = d) (hlt : freeMapSector < s.deviceSize) (ho : s.openInodes = [])
    (hh : s.heap = []) {Q : Unit → Fs → Prop} {E : Panic → Fs → Prop} {k : Option File → FsM Unit}
    (hk : Ends (k (some ⟨freeMapSector, 0, false⟩)) (s.withMap d) Q E) :
    Ends (do
      let file ← fileOpen fsLayer (← inodeOpen freeMapSector)
      modify fun s => {s with freeMapFile := file}
      k file) s Q E := by
  simp only [ends_bind]
  refine Ends.mono (inodeOpen_ends hlt) (fun r s1 hopen => ?_) fun _ _ => False.elim
  cases hopen with
  | again hn =>
    rw [ho] at hn
    cases hn
  | noMemory hne => exact absurd hh hne
  | new hn hheap =>
    unfold fileOpen
    simp only [ends_bind]
    refine ends_malloc fun b heap hb => ?_
    obtain ⟨rfl, rfl⟩ := hb (hheap hh)
    simp only [ends_pure, ends_modify]
    have hs : {s with heap := [], openInodes := ⟨freeMapSector, 1, false, 0, false, s.device freeMapSector⟩ ::
        s.openInodes, freeMapFile := some ⟨freeMapSector, 0, false⟩} = s.withMap d := by
      rw [Fs.withMap, ho, hd, ← hh]
    rw [← hs] at hk
    exact hk

theorem MapInode.mapFile (h : MapInode device size d s) :
    MapFile (onlyMap d) (s.withMap d) ⟨freeMapSector, 1, false, 0, false, d⟩ where
  file := ⟨_, rfl, rfl⟩
  isOpen := rfl
  node := by simp [onlyMap]
  unlocked := rfl
  allowed := rfl
  room := Nat.le_of_eq h.size.symm
  nodup := by simp [Fs.withMap]

theorem MapInode.treeOpen (h : MapInode device size d s) : Tree True (onlyMap d) [rootDirSector] (s.withMap d) :=
  (h.tree.openInodes [⟨freeMapSector, 1, false, 0, false, d⟩]).freeMapFile (some ⟨freeMapSector, 0, false⟩)

/-- The free map has been written to its file. -/
theorem MapInode.written (h : MapInode device size d s)
    (hw : MapWritten True (onlyMap d) [rootDirSector] (s.withMap d) true s') :
    MapMade (∀ k, device k = fun _ => 0) d s' := by
  have hst := hw.steady
  have ht := h.treeOpen
  have hnodup := h.mapFile.nodup
  have hfree : ∀ k, s'.freeMap.test k = false → s.freeMap.test k = false := fun k hk => by rwa [hw.freeMap] at hk
  have hnotData : ∀ k, s.freeMap.test k = false ∨ k = rootDirSector → ¬ MapData (onlyMap d) (s.withMap d) k := by
    rintro k hk hm
    rcases hk with hk | rfl
    · have := (ht.used k).mpr (.inl hm.dataOf.owned)
      rw [Fs.withMap, hk] at this
      cases this
    · exact ht.spare _ hm.dataOf.owned List.mem_cons_self
  have hsound : Sound True (onlyMap d) [rootDirSector] (s.withMap d) := by
    refine ⟨ht, hnodup, fun n hn => ?_, ⟨_, h.mapFile⟩⟩
    obtain rfl := List.mem_singleton.mp hn
    exact h.mapFile.node
  have hopens : s'.openInodes = [⟨freeMapSector, 1, false, 0, false, d⟩] := hst.calm.openInodes
  refine ⟨refines_storeOf (hsound.steady hst hw.tree) (hst.calm.heap h.heap) (hw.synced rfl) (fun e hN => ?_)
    (fun k hk => ?_) ?_ (fun n hn => ?_), h.isDir, hopens, ⟨?_, fun hd => ?_⟩, fun hblank k hlt hk o ho => ?_⟩
  · obtain rfl : d = e := Option.some.inj (h.mapFile.node.symm.trans hN)
    rw [hw.freeMap]
    exact h.size
  · rw [dataOf_congr hst.kept] at hk
    exact hst.calm.coherent (h.readable k hk)
  · exact (hst.tame (Y := []) ht hw.tree).tidy (hst.effect ht) hw.tree h.tidy
  · grind
  · rw [hst.calm.role]
    exact h.fresh.1
  · exact (hst.calm.dirty hd).elim h.fresh.2 (hnotData _ (.inr rfl))
  · exact (hst.calm.cells k (hnotData k (.inl (hfree k hk)))).firm (h.blank hblank k
      (by rwa [hst.calm.deviceSize] at hlt) (hfree k hk) o ho)

theorem freeMapCreate_ends (h2 : 2 ≤ size.toNat) :
    Ends freeMapCreate (initialState device size)
      (fun _ s => ∃ d, MapMade (∀ k, device k = fun _ => 0) d s) fun _ _ => True := by
  have h0 : Tree True (fun _ => none) [freeMapSector, rootDirSector] (initialState device size) :=
    tree_initialState h2
  unfold freeMapCreate
  simp only [ends_bind, ends_get]
  by_cases hmax : (initialState device size).freeMap.fileSize < maxFileSize
  · refine Ends.mono (Meets.ends (inodeCreate_meets h0 (.inl rfl)
      (fun _ => (tidy_initialState device size).freeClean) rfl (fun _ hs => by obtain ⟨_, he⟩ := hs; cases he) hmax rfl false)
      not_spoiled) (fun ok s1 hc => ?_) fun _ _ _ => trivial
    cases ok with
    | false => trivial
    | true =>
      obtain ⟨d, hm⟩ := hc.mapInode h2
      obtain ⟨-, hdev⟩ := hm.tree.inode freeMapSector d (by simp [onlyMap])
      have hlt : freeMapSector < s1.deviceSize :=
        hm.tree.owned_lt ⟨freeMapSector, d, by simp [onlyMap], self_mem⟩
      simp only [Bool.not_true, Bool.false_eq_true, if_false]
      refine openMap_ends hdev hlt hm.openInodes hm.heap ?_
      simp only [Option.isNone_some, Bool.false_eq_true, if_false, ends_bind]
      refine Ends.mono (Meets.ends (bitmapWrite_meets hm.treeOpen hm.mapFile) not_spoiled) (fun w s2 hw => ?_)
        fun _ _ => False.elim
      cases w with
      | false => trivial
      | true => exact ⟨d, hm.written hw⟩
  · refine Ends.mono (Meets.ends (inodeCreate_outside h0 (.inl rfl) (by omega) false) not_spoiled) ?_
      fun _ _ _ => trivial
    rintro ok s1 ⟨rfl, -⟩
    trivial

/-! ### The root directory -/

def oneOpener : Handle := ⟨1, false, 0, false⟩

/-- The two files of a new file system, the root with the bytes `b`. -/
structure TwoFiles (a : Store) (f : Obj) : Prop where
  only : ∀ i, a.files i ≠ none → i = freeMapSector ∨ i = rootDirSector
  map : ∃ g, a.files freeMapSector = some g ∧ g.isDir = false
  root : a.files rootDirSector = some f
  isDir : f.isDir = true
  owned : ∀ k, a.used k = true → ¬ a.Loose k

theorem TwoFiles.grown {f f' : Obj} {l : List Nat} (h : TwoFiles a f) (hd : f'.isDir = true)
    (hs : f'.sectors = f.sectors ∪ l.toFinset) : TwoFiles (a.grown rootDirSector f' l) f' where
  only := fun i hi => by
    by_cases h1 : i = rootDirSector
    · exact .inr h1
    · refine h.only i ?_
      simpa [Store.grown, h1] using hi
  map := by
    obtain ⟨g, hg, hgd⟩ := h.map
    exact ⟨g, by simpa [Store.grown, freeMapSector, rootDirSector] using hg, hgd⟩
  root := by simp [Store.grown]
  isDir := hd
  owned := fun k hk hl => by
    have hroot : k ∉ f'.sectors := hl rootDirSector f' (by simp [Store.grown])
    rw [hs, Finset.mem_union, List.mem_toFinset, not_or] at hroot
    simp only [Store.grown, Bool.or_eq_true, decide_eq_true_eq] at hk
    refine h.owned k (hk.resolve_right hroot.2) fun i g hg => ?_
    by_cases h1 : i = rootDirSector
    · rw [h1, h.root] at hg
      cases hg
      exact hroot.1
    · exact hl i g (by simpa [Store.grown, h1] using hg)

theorem TwoFiles.setHandle {f : Obj} (h : TwoFiles a f) (i : Nat) (x : Option Handle) : TwoFiles (a.setHandle i x) f :=
  ⟨h.only, h.map, h.root, h.isDir, h.owned⟩

/-- The entries of a new root directory. -/
def RootEntries (b : List UInt8) : Prop :=
  ∃ i j, i ≠ j ∧ entries b = Function.update (Function.update (fun _ => none) i (some ⟨rootDirSector, dot⟩)) j
    (some ⟨rootDirSector, dotDot⟩)

/-- A new file system. -/
structure NewStore (blank : Prop) (a : Store) : Prop where
  files : ∃ f, TwoFiles a f ∧ Whole f.bytes ∧ (blank → RootEntries f.bytes)
  handles : a.handles = Function.update (fun _ => none) freeMapSector (some oneOpener)

theorem entries_zero {b : List UInt8} (h : ∀ c ∈ b, c = 0) : entries b = fun _ => none := by
  funext j
  unfold entries
  split
  · rw [entryOf_eq_none]
    have hbyte : slot b j 19 = 0 := by
      unfold slot
      split
      · rw [List.getD_eq_getElem?_getD]
        cases hget : b[DirEntry.size * j + 19]? with
        | none => rfl
        | some c => exact h c (List.mem_of_getElem? hget)
      · rfl
    simp [DirEntry.inUse, hbyte]
  · rfl

/-- `dir_add` in the root directory while it is being made. -/
theorem rootAdd_ends {f : Obj} {name : CString} (hr : FsRep true s a) (h : TwoFiles a f) (hw : Whole f.bytes)
    (hh : a.handles rootDirSector = some oneOpener) (hname : ValidName name) (h0 : (0 : UInt8) ∉ name) :
    Ends (dirAdd fsLayer ⟨rootDirSector, 0⟩ name rootDirSector) s
      (fun r s' => ∃ a' f', FsRep true s' a' ∧ TwoFiles a' f' ∧ a'.handles = a.handles ∧ (r = true → Whole f'.bytes ∧
        ∃ j, entries f.bytes j = none ∧ entries f'.bytes =
          Function.update (entries f.bytes) j (some ⟨rootDirSector, name⟩))) fun _ _ => True := by
  refine Ends.mono (dirAdd_ends fsLayer_lawful hr (by decide) hh h.root rfl rfl hname rootDirSector) ?_
    fun _ _ _ => trivial
  rintro r s' (⟨-, rfl, hr'⟩ | ⟨-, e, f', l, w, hwr, rfl, hr'⟩)
  · exact ⟨a, f, hr', h, rfl, nofun⟩
  · refine ⟨_, f', hr', h.grown (hwr.isDir.trans h.isDir) hwr.sectors, rfl, fun hw20 => ?_⟩
    obtain rfl := of_decide_eq_true hw20
    refine ⟨whole_write hw (addSlot_le _) hwr.patched hwr.length, addSlot f.bytes, entries_addSlot _, ?_⟩
    rw [entries_write hw (addSlot_le _) hwr.patched hwr.length,
      entryOf_newEntry h0 hname.2 (by decide)]

/-! ### Closing and reopening the free map -/

theorem Refines.opens_map (h : Refines N X true s a)
    (hh : a.handles = Function.update (fun _ => none) freeMapSector (some oneOpener)) :
    ∃ d, N freeMapSector = some d ∧ s.openInodes = [⟨freeMapSector, 1, false, 0, false, d⟩] := by
  obtain ⟨n, hm⟩ := h.sound.map
  obtain ⟨hmem, hsec⟩ := findInode_some hm.isOpen
  have hall : ∀ m ∈ s.openInodes, m.sector = freeMapSector := by
    intro m hmem'
    by_contra hne
    have hnone := h.handles m.sector
    rw [hh, Function.update_of_ne hne] at hnone
    exact findInode_none (Option.map_eq_none_iff.mp hnone.symm) m hmem' rfl
  have hhandle : n.handle = oneOpener := by
    have := h.handles freeMapSector
    rw [hh, Function.update_self, hm.isOpen] at this
    exact (Option.some.inj this).symm
  have hn : n = ⟨freeMapSector, 1, false, 0, false, n.data⟩ := by
    obtain ⟨sector, openCnt, removed, denyWriteCnt, locked, data⟩ := n
    simp only [Inode.handle, oneOpener, Handle.mk.injEq] at hhandle
    grind
  refine ⟨n.data, hm.node, ?_⟩
  rw [← hn]
  have hnd := h.sound.nodup
  cases hl : s.openInodes with
  | nil =>
    rw [hl] at hmem
    cases hmem
  | cons m rest =>
    rw [hl] at hall hnd hmem
    have hrest : rest = [] := by
      cases rest with
      | nil => rfl
      | cons m' rest =>
        grind
    grind

/-- With the free-map file opened anew the file system is as before. -/
theorem Refines.withMap (h : Refines N X true s a)
    (ho : s.openInodes = [⟨freeMapSector, 1, false, 0, false, d⟩]) : Refines N X true (s.withMap d) a := by
  obtain ⟨n, hm⟩ := h.sound.map
  have hopens : (s.withMap d).openInodes = s.openInodes := ho.symm
  have hmf : MapFile N (s.withMap d) n := ⟨⟨_, rfl, rfl⟩, by rw [hopens]; exact hm.isOpen, hm.node, hm.unlocked, hm.allowed,
    hm.room, by rw [hopens]; exact hm.nodup⟩
  have htree : Tree True N X (s.withMap d) :=
    (h.sound.tree.openInodes [⟨freeMapSector, 1, false, 0, false, d⟩]).freeMapFile (some ⟨freeMapSector, 0, false⟩)
  refine ⟨⟨htree, hmf.nodup, by rw [hopens]; exact h.sound.node, ⟨n, hmf⟩⟩, h.memory, h.synced, h.exact, h.readable,
    h.tidy, by rw [hopens]; exact h.counted, h.size, h.used, h.absent, fun i e hNi => ?_,
    fun i => by rw [hopens]; exact h.handles i⟩
  obtain ⟨f, hf, hrep⟩ := h.files i e hNi
  exact ⟨f, hf, hrep.isDir, hrep.sectors, hrep.bytes, hrep.small⟩

theorem freeMapClose_ends (h : Refines N X true s a)
    (hh : a.handles = Function.update (fun _ => none) freeMapSector (some oneOpener)) {Q : Unit → Fs → Prop}
    {E : Panic → Fs → Prop} (hQ : Q () {s with openInodes := []}) (hE : ∀ e s, E e s) :
    Ends freeMapClose s Q E := by
  obtain ⟨d, -, ho⟩ := h.opens_map hh
  obtain ⟨n, hm⟩ := h.sound.map
  obtain ⟨file, hfile, hinode⟩ := hm.file
  have hfind : findInode freeMapSector s.openInodes = some ⟨freeMapSector, 1, false, 0, false, d⟩ := by
    rw [ho]
    rfl
  simp only [freeMapClose, ends_bind, ends_get, hfile, fileClose, fileAllowWrite]
  have hclose : ∀ {f : File}, f.inode = freeMapSector → Ends (fsLayer.inodeClose (some f.inode)) s Q E := by
    intro f hf
    rw [hf]
    refine (ends_inodeClose bitmapWrite hfind rfl h.sound.nodup).mpr ?_
    rw [if_pos rfl]
    have hdrop : s.dropInode freeMapSector = {s with openInodes := []} := by
      rw [Fs.dropInode, ho]
      rfl
    rw [hdrop]
    exact hQ
  split
  · -- Nobody has denied writes to the file, so this would be a panic.
    have hpanic : Ends (inodeAllowWrite file.inode) s (fun _ _ => False) fun _ _ => True := by
      rw [hinode, inodeAllowWrite, ends_bind, ends_inodeAt hfind]
      trivial
    simp only [ends_bind]
    exact Ends.mono hpanic (fun _ _ => False.elim) fun e s1 _ => hE e s1
  · rw [ends_pure]
    exact hclose hinode

/-- The map read back from its file is the map. -/
theorem freeMapRead_ends (h : Refines N X true s a)
    (ho : s.openInodes = [⟨freeMapSector, 1, false, 0, false, d⟩]) :
    Ends (fileReadAt fsLayer ⟨freeMapSector, 0, false⟩ s.freeMap.fileSize 0) s
      (fun bytes s' => Refines N X true s' a ∧ (s.freeMap.ofImage fun t => bytes.getD t 0) = s.freeMap ∧
        s'.freeMap = s.freeMap) fun _ _ => False := by
  obtain ⟨n, hm⟩ := h.sound.map
  have hfind : findInode freeMapSector s.openInodes = some ⟨freeMapSector, 1, false, 0, false, d⟩ := by
    rw [ho]
    rfl
  have hN : N freeMapSector = some d := h.sound.node_of_find hfind
  have hlen := h.sound.tree.length _ d hN
  have hsize := h.exact d hN
  have hlocked := findInode_onInode (f := fun m : Inode => {m with locked := true}) (fun _ => rfl) hfind
  unfold fileReadAt
  rw [ends_bind]
  refine (ends_lockAcquire hfind rfl).mpr ?_
  rw [ends_bind]
  refine Ends.mono (Meets.ends (readAt_meets (h.sound.tree.onInode freeMapSector fun m => {m with locked := true})
    hlocked hN false ?_ ?_) not_spoiled) (fun bytes s1 hread => ?_) fun _ _ he => nomatch he.1
  · omega
  · rw [← hsize]
    unfold InodeDisk.size maxFileSize pointerBlockPointersCount blockSectorSize at *
    omega
  · rw [ends_bind]
    have hopen1 := hread.quiet.openInodes
    refine (ends_lockRelease (hopen1 ▸ hlocked) rfl).mpr ?_
    have hback : s1.onInode freeMapSector (fun m => {m with locked := false}) = {s1 with openInodes := s.openInodes} := by
      rw [Fs.onInode, hopen1, Fs.onInode, ho]
      rfl
    have hquiet : Quiet s {s1 with openInodes := s.openInodes} :=
      ⟨hread.quiet.toCalm.onInode_left s.openInodes, hread.quiet.freeMap, hread.quiet.releases⟩
    have hcache : CacheOk {s1 with openInodes := s.openInodes} := cacheOk_of_cells hread.tree.cache rfl rfl rfl rfl
    have hcount : bytes.length = s.freeMap.fileSize := by
      rw [hread.length_eq h.memory, readLength, ← hsize, InodeDisk.size]
      simp only
      omega
    rw [hback]
    refine ⟨h.quiet hquiet hcache, Bitmap.ofImage_image h.sound.tree.trimmed rfl (fun j hj => ?_) ?_,
      hread.quiet.freeMap⟩
    · have hget := hread.fetched j (s.freeMap.image j) (by omega) (by
        rw [Nat.zero_add]
        exact h.synced d hN j hj)
      grind
    · rw [h.sound.tree.bitCnt]
      exact Nat.lt_of_le_of_lt (Nat.zero_le _) (h.sound.tree.owned_lt ⟨_, d, hN, self_mem⟩)

/-- `free_map_open` after `free_map_close`. -/
theorem freeMapOpen_ends (h : Refines N X true s a)
    (hh : a.handles = Function.update (fun _ => none) freeMapSector (some oneOpener)) :
    Ends freeMapOpen {s with openInodes := []} (fun _ s' => Refines N X true s' a) fun _ _ => True := by
  obtain ⟨d, hN, ho⟩ := h.opens_map hh
  have hr := h.withMap ho
  have hlt : freeMapSector < s.deviceSize := h.sound.tree.owned_lt ⟨_, d, hN, self_mem⟩
  refine openMap_ends (s := {s with openInodes := []}) (h.sound.tree.inode _ d hN).2 hlt rfl h.memory ?_
  simp only [ends_bind, ends_get]
  split
  · simp only [ends_bind]
    refine Ends.mono (freeMapRead_ends hr rfl) ?_ fun _ _ => False.elim
    rintro bytes s1 ⟨hr1, hmap, hsame⟩
    rw [ends_modify, hsame, hmap, ← hsame]
    exact ends_check_or (fun _ => hr1) fun _ => trivial
  · exact hr

/-! ### The whole of it -/

/-- The store once the free-map file is there. -/
theorem files_onlyMap (d : Bytes) (s : Fs) (i : Nat) :
    (storeOf (onlyMap d) s).files i = if i = freeMapSector then some (objOf s freeMapSector d) else none := by
  unfold storeOf onlyMap
  grind

theorem MapMade.handles {blank : Prop} (h : MapMade blank d s) :
    (storeOf (onlyMap d) s).handles = Function.update (fun _ => none) freeMapSector (some oneOpener) := by
  funext i
  show (findInode i s.openInodes).map Inode.handle = _
  rw [h.opens]
  by_cases hi : i = freeMapSector
  · subst hi
    simp [findInode, Inode.handle, oneOpener]
  · rw [Function.update_of_ne hi]
    simp [findInode, Ne.symm hi]

/-- The root directory's inode has been created. -/
theorem MapMade.twoFiles {blank : Prop} {f : Obj} {l : List Nat} (h : MapMade blank d s) (hd : f.isDir = true)
    (hs : f.sectors = insert rootDirSector l.toFinset) :
    TwoFiles ((storeOf (onlyMap d) s).grown rootDirSector f l) f where
  only := fun i hi => by
    by_cases h1 : i = rootDirSector
    · exact .inr h1
    · left
      by_contra h0
      simp [Store.grown, h1, files_onlyMap, h0] at hi
  map := ⟨objOf s freeMapSector d, by simp [Store.grown, files_onlyMap, freeMapSector, rootDirSector], h.isDir⟩
  root := by simp [Store.grown]
  isDir := hd
  owned := fun k hk hl => by
    have hroot : k ∉ f.sectors := hl rootDirSector f (by simp [Store.grown])
    rw [hs, Finset.mem_insert, List.mem_toFinset, not_or] at hroot
    simp only [Store.grown, Bool.or_eq_true, decide_eq_true_eq] at hk
    have hused : s.freeMap.test k = true := hk.resolve_right hroot.2
    rcases (h.refines.sound.tree.used k).mp hused with ⟨i, e, hN, hk⟩ | hX
    · rcases update_some_eq_some.mp hN with ⟨rfl, rfl⟩ | ⟨-, hN⟩
      · exact hl freeMapSector (objOf s freeMapSector d)
          (by simp [Store.grown, files_onlyMap, freeMapSector, rootDirSector]) (List.mem_toFinset.mpr hk)
      · cases hN
    · exact hroot.1 (List.mem_singleton.mp hX)

/-- Both entries of the root directory, and the end of formatting. -/
theorem rootEntries_ends {blank : Prop} {f : Obj} (hr : FsRep true s a) (h : TwoFiles a f) (hw : Whole f.bytes)
    (hblank : blank → entries f.bytes = fun _ => none)
    (hh : a.handles = Function.update (Function.update (fun _ => none) freeMapSector (some oneOpener)) rootDirSector
      (some oneOpener)) :
    Ends (do
        let dotAdded ← dirAdd fsLayer ⟨rootDirSector, 0⟩ dot rootDirSector
        let success ← (if dotAdded then dirAdd fsLayer ⟨rootDirSector, 0⟩ dotDot rootDirSector else pure false)
        dirClose fsLayer (some ⟨rootDirSector, 0⟩)
        if !success then throw .boot
        freeMapClose) s
      (fun _ s' => ∃ N X s a, Refines N X true s a ∧ NewStore blank a ∧ s' = {s with openInodes := []})
      fun _ _ => True := by
  have hh1 : a.handles rootDirSector = some oneOpener := by rw [hh, Function.update_self]
  rw [ends_bind]
  refine Ends.imp (rootAdd_ends hr h hw hh1 (by decide) (by decide)) fun dotAdded s1 hadd => ?_
  obtain ⟨a1, f1, hr1, hf1, ha1, hdot⟩ := hadd
  have hh2 : a1.handles rootDirSector = some oneOpener := by rw [ha1, hh1]
  cases dotAdded with
  | false =>
    simp only [Bool.false_eq_true, if_false, ends_bind, ends_pure]
    exact Ends.mono (fsLayer_lawful.inodeClose hr1 (by decide) hh2 hf1.root rfl) (fun _ _ _ => trivial)
      fun _ _ => False.elim
  | true =>
    obtain ⟨hw1, i, -, he1⟩ := hdot rfl
    simp only [if_true]
    rw [ends_bind]
    refine Ends.imp (rootAdd_ends hr1 hf1 hw1 hh2 (by decide) (by decide)) fun success s2 hadd => ?_
    obtain ⟨a2, f2, hr2, hf2, ha2, hdotDot⟩ := hadd
    have hh3 : a2.handles rootDirSector = some oneOpener := by rw [ha2, hh2]
    rw [ends_bind]
    refine Ends.mono (fsLayer_lawful.inodeClose hr2 (by decide) hh3 hf2.root rfl) (fun _ s3 hr3 => ?_)
      fun _ _ => False.elim
    cases success with
    | false => trivial
    | true =>
      obtain ⟨hw2, j, hj, he2⟩ := hdotDot rfl
      obtain ⟨N, X, hr3⟩ : FsRep true s3 (a2.setHandle rootDirSector none) := hr3
      have hhandles : (a2.setHandle rootDirSector none).handles =
          Function.update (fun _ => none) freeMapSector (some oneOpener) := by
        unfold Store.setHandle
        rw [ha2, ha1, hh, Function.update_idem]
        exact Function.update_eq_self_iff.mpr rfl
      refine freeMapClose_ends hr3 hhandles ⟨N, X, s3, _, hr3, ⟨⟨f2, hf2.setHandle _ _, hw2, fun hb => ?_⟩, hhandles⟩,
        rfl⟩ fun _ _ => trivial
      rw [he1, hblank hb] at he2 hj
      refine ⟨i, j, ?_, he2⟩
      rintro rfl
      simp at hj

/-- The root directory, from its creation to its two entries. -/
theorem doFormat_ends (h2 : 2 ≤ size.toNat) :
    Ends doFormat (initialState device size)
      (fun _ s' => ∃ N X s a, Refines N X true s a ∧ NewStore (∀ k, device k = fun _ => 0) a ∧
        s' = {s with openInodes := []}) fun _ _ => True := by
  unfold doFormat
  rw [ends_bind]
  refine Ends.mono (freeMapCreate_ends h2) (fun _ s1 hmade => ?_) fun _ _ => id
  obtain ⟨d, hm⟩ := hmade
  have hr1 : FsRep true s1 (storeOf (onlyMap d) s1) := ⟨_, _, hm.refines⟩
  have hused : (storeOf (onlyMap d) s1).used rootDirSector = true :=
    (hm.refines.sound.tree.used _).mpr (.inr List.mem_cons_self)
  have hloose : (storeOf (onlyMap d) s1).Loose rootDirSector := by
    intro i f hf hk
    obtain ⟨e, hN, hrep⟩ := hm.refines.file_iff hf
    exact hm.refines.sound.tree.spare _ ⟨i, e, hN, (hrep.sectors _).mp hk⟩ List.mem_cons_self
  rw [ends_bind]
  have hlen : 16 * DirEntry.size < maxFileSize := by decide
  refine Ends.mono (hr1.inodeCreate hm.fresh hused hloose hlen rfl) (fun r s2 hc => ?_) fun _ _ => False.elim
  cases r with
  | false => trivial
  | true =>
    obtain ⟨f, l, hr2, -, hd, hlen, hsec, -, hzero⟩ := hc
    have hfiles := hm.twoFiles hd hsec
    have hhandles : ((storeOf (onlyMap d) s1).grown rootDirSector f l).handles =
        Function.update (fun _ => none) freeMapSector (some oneOpener) := hm.handles
    have hopened : ((storeOf (onlyMap d) s1).grown rootDirSector f l).opened rootDirSector =
        ((storeOf (onlyMap d) s1).grown rootDirSector f l).setHandle rootDirSector (some oneOpener) := by
      unfold Store.opened
      rw [hhandles]
      rfl
    generalize (storeOf (onlyMap d) s1).grown rootDirSector f l = a at hr2 hfiles hhandles hopened
    simp only [Bool.not_true, Bool.false_eq_true, if_false]
    rw [ends_bind]
    refine Ends.mono (fsLayer_lawful.inodeOpen hr2 (by decide) hfiles.root) ?_ fun _ _ => False.elim
    rintro r s3 ⟨rfl, hr3⟩
    rw [hopened] at hr3
    rw [ends_bind]
    refine Ends.mono (dirOpen_ends fsLayer_lawful hr3 rootDirSector) ?_ fun _ _ => False.elim
    rintro r s4 ⟨rfl, hr4⟩
    refine rootEntries_ends hr4 (hfiles.setHandle _ _) ⟨16, by rw [hlen, Nat.mul_comm]⟩
      (fun hblank => entries_zero (hzero (hm.blank hblank))) ?_
    simp only [Store.setHandle, hhandles]

/-- A device without a third sector cannot be formatted. -/
theorem doFormat_tiny (h : size.toNat < 2) :
    Ends doFormat (initialState device size) (fun _ _ => False) fun _ _ => True := by
  have hfull : (initialState device size).freeMap.scanAndFlip 0 1 false = none := by
    have hscan := (initialState device size).freeMap.scanAndFlip_one
    cases hs : (initialState device size).freeMap.scanAndFlip 0 1 false with
    | none => rfl
    | some r =>
      rw [hs] at hscan
      obtain ⟨hlt, hfree, -⟩ := hscan
      have hlt : r.1 < size.toNat := hlt
      have h1 : size.toNat = 1 := by omega
      have h0 : r.1 = 0 := by omega
      rw [h0] at hfree
      simp only [initialState, h1] at hfree
      exact absurd hfree (by decide)
  have hlength : (0 : Int) ≤ (initialState device size).freeMap.fileSize := Int.natCast_nonneg _
  simp only [doFormat, freeMapCreate, inodeCreate, freeMapAllocate, ends_bind, ends_get]
  refine (ends_check (decide_eq_true hlength)).mpr (ends_malloc fun b heap hb => ?_)
  obtain ⟨rfl, -⟩ := hb rfl
  simp only [Bool.not_true, Bool.false_eq_true, if_false, ends_bind, ends_get, hfull]
  trivial

/-- What `filesys_init (true)` leaves. -/
theorem format_ends (device : Nat → Bytes) (size : UInt32) :
    Ends (filesysInit true) (powerOn device size)
      (fun _ s => ∃ a, FsRep true s a ∧ NewStore (∀ k, device k = fun _ => 0) a) fun _ _ => True := by
  unfold filesysInit inodeInit initCache freeMapInit whenever
  simp only [ends_bind, ends_modify, if_true]
  by_cases h2 : 2 ≤ size.toNat
  · refine Ends.mono (doFormat_ends h2) ?_ fun _ _ => id
    rintro - s' ⟨N, X, s, a, hr, hnew, rfl⟩
    refine Ends.imp (freeMapOpen_ends hr hnew.handles) fun _ s' hr' => ⟨a, ⟨N, X, hr'⟩, hnew⟩
  · refine Ends.mono (doFormat_tiny (by omega)) (fun _ _ => False.elim) fun _ _ => id

end

end Pintos.Filesys
