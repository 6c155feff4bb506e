import Pintos.Filesys.FsLawful
import Pintos.Filesys.Metadata

/-! What a file reads as after a whole run.

A run of inode calls has written bytes to files, through the cache and past it, while sectors
moved in and out of the cache and from the free map into files. `latest` picks the byte last
written out of the history, `covered` asks whether there is one. Without removals a read gives
the byte last written, wherever it is by then. A byte never written is whatever its sector held
when the file took it: it reads as zero as long as the free sectors do, which removed files do
not see to. -/
namespace Pintos.Filesys
open Outcome WriteBack

section
variable {N N' : Nat → Option Bytes} {X : List Nat} {s s' : Fs} {i o : Nat} {d : Bytes} {n : Inode} {size : Int}
  {offset : Nat} {h : List (Step × Reply)} {st : Step} {r : Reply} {b : UInt8}

/-! ### The history -/

instance (op : Op) (r : Reply) (i : Nat) : Decidable (op.Creates r i) :=
  match op, r with
  | .create _ _, .inode x => inferInstanceAs (Decidable (x = some i))
  | .create _ _, .written _ | .create _ _, .bytes _ | .create _ _, .done => inferInstanceAs (Decidable False)
  | .openInode _, _ | .write _ _ _ _, _ | .read _ _ _ _, _ | .remove _, _ | .close _, _ | .writeBackAllCache, _ =>
    inferInstanceAs (Decidable False)

/-- The byte last written at an offset of a file, since the file was created. -/
def latest : List (Step × Reply) → Nat → Nat → Option UInt8
  | [], _, _ => none
  | (st, r) :: h, i, o =>
    match st.op.bytes r i o with
    | some b => some b
    | none => if st.op.Creates r i then none else latest h i o

/-- Whether an offset of a file has been written since the file was created. Formatting has
written the first two entries of the root directory. -/
def covered : List (Step × Reply) → Nat → Nat → Bool
  | [], i, o => i = rootDirSector && o < 2 * DirEntry.size
  | (st, r) :: h, i, o =>
    match st.op.bytes r i o with
    | some _ => true
    | none => if st.op.Creates r i then false else covered h i o

/-- A byte of the file, wherever its sector goes. -/
def ByteFirm (s : Fs) (d : Bytes) (o : Nat) (b : UInt8) : Prop :=
  (s.cell (dataSector s.device d (o / blockSectorSize))).Firm (o % blockSectorSize) b

/-- The call does not mark an inode removed. -/
def Op.Keeps : Op → Prop
  | remove _ => False
  | _ => True

/-! ### Runs without removals -/

theorem NoneRemoved.not_frees (h : NoneRemoved s) (op : Op) : ¬ op.Frees s := by
  intro hf
  cases op with
  | close i =>
    obtain ⟨n, hn, -, hr⟩ := hf
    rw [h n (findInode_some hn).1] at hr
    cases hr
  | _ => exact hf

/-- Between calls, as long as no inode is removed: copies of sectors are copies, free sectors
have no dirty ones, and what was written is there. -/
structure Recalls (h : List (Step × Reply)) (s : Fs) : Prop where
  inv : Inv True s
  marks : NoneRemoved s
  clean : FreeClean s
  coherent : ∀ k, ¬ MetaOf (node s.trace) s k → (s.cell k).Coherent
  bytes : ∀ i o b, i ≠ freeMapSector → latest h i o = some b →
    ∃ d, node s.trace i = some d ∧ o < InodeDisk.size d ∧ ByteFirm s d o b

theorem Started.recalls (h : Started s) : Recalls [] s where
  inv := h.inv
  marks := h.marks
  clean := h.tidy.freeClean
  coherent := fun k hk => by
    by_cases hf : s.freeMap.test k = false
    · exact (h.tidy k hf).2
    · obtain ⟨i, d, hN, hmem⟩ := ((h.inv.sound.tree.used k).mp (by simpa using hf)).resolve_right (by simp)
      rcases mem_sectorsOf.mp hmem with hm | hd
      · exact absurd ⟨i, d, hN, hm⟩ hk
      · exact h.readable k ⟨i, d, hN, hd⟩
  bytes := fun _ _ _ _ hb => by cases hb

theorem StepOk.freeClean (hok : StepOk True s st.op r s') (htm : Tame (node s.trace) (node s'.trace) s s')
    (hc : FreeClean s) : FreeClean s' := by
  intro k hk hd
  rcases htm.dirty k hd with hd | hD
  · refine hc k ?_ hd
    by_contra hne
    rw [htm.used k (by simpa using hne)] at hk
    cases hk
  · rw [(hok.inv.sound.tree.used k).mpr (.inl hD.owned)] at hk
    cases hk

/-- What a call has not written it leaves. -/
theorem StepOk.byteFirm (hok : StepOk True s st.op r s') (htm : Tame (node s.trace) (node s'.trace) s s')
    (hi : i ≠ freeMapSector) (hN : node s.trace i = some d) (ho : o < InodeDisk.size d) (hb : ByteFirm s d o b)
    (hw : st.op.bytes r i o = none) :
    ∃ d', node s'.trace i = some d' ∧ o < InodeDisk.size d' ∧ ByteFirm s' d' o b := by
  obtain ⟨d', hN', he⟩ := htm.files i d hN
  have ho' : o < InodeDisk.size d' := Nat.lt_of_lt_of_le ho he.size
  refine ⟨d', hN', ho', hok.effect.bytes i d' hi hN' o b (div_lt_sectorCnt ho') ?_⟩
  rw [hw, he.data _ (div_lt_sectorCnt ho)]
  exact hb

theorem Recalls.step (hJ : Recalls h s) (hk : st.op.Keeps) (hok : StepOk True s st.op r s') :
    Recalls ((st, r) :: h) s' := by
  have htm := hok.tame (hJ.marks.not_frees st.op)
  refine ⟨hok.inv, hok.marks (fun i he => ?_) hJ.marks, hok.freeClean htm hJ.clean,
    fun k hm => hok.effect.coherent k hm (hJ.coherent k fun hm' => hm (htm.meta hm')), fun i o b hi hb => ?_⟩
  · rw [he] at hk
    exact hk
  · unfold latest at hb
    cases hw : st.op.bytes r i o with
    | some c =>
      rw [hw] at hb
      obtain rfl : c = b := Option.some.inj hb
      obtain ⟨d', hN', ho'⟩ := hok.within i o c hw
      refine ⟨d', hN', ho', hok.effect.bytes i d' hi hN' o c (div_lt_sectorCnt ho') ?_⟩
      rw [hw]
    | none =>
      rw [hw] at hb
      simp only at hb
      split at hb
      · cases hb
      · obtain ⟨d, hN, ho, hb⟩ := hJ.bytes i o b hi hb
        exact hok.byteFirm htm hi hN ho hb hw

theorem recalls_of_run (hr : Run Step.exec (fun st s => Permitted st s ∧ st.op.Keeps) Formatted h s) : Recalls h s :=
  hr.invariant (fun _ hs => hs.started.recalls) fun _ _ _ hJ ha =>
    (Step.ends hJ.inv ha.1 fun _ => hJ.clean).mono (fun _ _ hok => hJ.step ha.2 hok) fun _ _ _ => trivial

/-! ### Reading -/

theorem reads_latest_writes (hr : Run Step.exec (fun st s => Permitted st s ∧ st.op.Keeps) Formatted h s)
    (hu : UserOpen s i) (hn : findInode i s.openInodes = some n) (hlo : -2 ^ 31 ≤ size)
    (hhi : size + offset < maxFileSize) :
    ∃ bytes s', (inodeReadAt i size offset).run {s with heap := []} = .ok bytes s' ∧
      (bytes.length : Int) = max 0 (min size (InodeDisk.length n.data - offset)) ∧
      ∀ t b, t < bytes.length → latest h i (offset + t) = some b → bytes[t]? = some b := by
  have hmaxv : (maxFileSize : Int) = 8388608 := rfl
  have hJ := recalls_of_run hr
  have hN := hJ.inv.sound.node_of_find hn
  have hoff : size + offset < 2 ^ 31 := by omega
  obtain ⟨bytes, s', hrun, hlen, hf, -⟩ := readAt_fetches (hJ.inv.sound.heap []).tree hn hN rfl false hlo hoff (by simp)
  refine ⟨bytes, s', hrun, by rw [hlen, readLength]; omega, fun t b ht hb => ?_⟩
  obtain ⟨d, hd, -, hold⟩ := hJ.bytes i _ b hu.1 hb
  obtain rfl : n.data = d := Option.some.inj (hN.symm.trans hd)
  exact hf t b ht hold

instance (op : Op) : Decidable op.Keeps :=
  match op with
  | .remove _ => inferInstanceAs (Decidable False)
  | .create _ _ | .openInode _ | .write _ _ _ _ | .read _ _ _ _ | .close _ | .writeBackAllCache =>
    inferInstanceAs (Decidable True)

/-- A file of 100 bytes, five of them written. -/
def oneWrite : List Step :=
  [⟨[], .create 100 false⟩, ⟨[], .openInode 8⟩, ⟨[], .write 8 (fun _ => 65) 5 0⟩]

theorem reads_latest_writes_once : ∃ h s bytes s',
    Run Step.exec (fun st s => Permitted st s ∧ st.op.Keeps) Formatted h s ∧ latest h 8 0 = some 65 ∧
      (inodeReadAt 8 1 0).run {s with heap := []} = .ok bytes s' ∧ bytes[0]? = some 65 := by
  have hc : ∀ (st : Step) s, decide (Permitted st s ∧ st.op.Keeps) = true → Permitted st s ∧ st.op.Keeps :=
    fun _ _ => of_decide_eq_true
  obtain ⟨h, s, hr, hp⟩ := run_of_replay
    (p := fun h s => (findInode 8 s.openInodes).any (fun n => InodeDisk.length n.data == 100) &&
      latest h 8 0 == some 65) hc 24 oneWrite (by decide +kernel)
  rw [Bool.and_eq_true, beq_iff_eq] at hp
  obtain ⟨n, hn, hlen⟩ := (Option.any_eq_true ..).mp hp.1
  rw [beq_iff_eq] at hlen
  have hlo : -2 ^ 31 ≤ (1 : Int) := by decide
  have hhi : (1 : Int) + (0 : Nat) < maxFileSize := by decide
  obtain ⟨bytes, s', hrun, hcount, hbytes⟩ := reads_latest_writes hr ⟨by decide, by rw [hn]; rfl⟩ hn hlo hhi
  rw [hlen] at hcount
  exact ⟨h, s, bytes, s', hr, hp.2, hrun, hbytes 0 65 (by omega) hp.2⟩

/-! ### Bytes never written -/

/-- The length and the bytes that one more opener of the inode gets. -/
def openAndRead (i : Nat) (size : Int) (offset : Nat) : FsM (Int × List UInt8) := do
  match ← inodeOpen i with
  | none => return (0, [])
  | some inode =>
    let bytes ← inodeReadAt inode size offset
    return (InodeDisk.length (← inodeAt inode).data, bytes)

theorem openAndRead_fetches (ht : Tree True N X s) (hdata : ∀ n ∈ s.openInodes, N n.sector = some n.data)
    (hN : N i = some d) (hmem : s.heap = []) (hlo : -2 ^ 31 ≤ size) (hhi : size + offset < 2 ^ 31) :
    ∃ bytes s', (openAndRead i size offset).run s = .ok (InodeDisk.length d, bytes) s' ∧
      bytes.length = readLength (InodeDisk.length d) size offset ∧ Fetched s d offset bytes := by
  have hread : ∀ {s1 : Fs} {n : Inode}, Tree True N X s1 → findInode i s1.openInodes = some n → n.data = d →
      s1.heap = [] → (∀ l, Fetched s1 d offset l → Fetched s d offset l) →
      Ends (do
        let bytes ← inodeReadAt i size offset
        return (InodeDisk.length (← inodeAt i).data, bytes)) s1
        (fun r _ => r.1 = InodeDisk.length d ∧ r.2.length = readLength (InodeDisk.length d) size offset ∧
          Fetched s d offset r.2) fun _ _ => False := by
    intro s1 n ht1 hn hd hmem1 hf
    subst hd
    obtain ⟨bytes, s2, hrun, hlen, hfetched, hq, -⟩ := readAt_fetches ht1 hn hN hmem1 false hlo hhi (by simp)
    have hrun : (inodeReadAt i size offset).run s1 = .ok bytes s2 := hrun
    simp only [ends_bind]
    rw [ends_ok hrun, ends_inodeAt (hq.openInodes ▸ hn)]
    exact ⟨rfl, hlen, hf _ hfetched⟩
  have hends : Ends (openAndRead i size offset) s (fun r _ => r.1 = InodeDisk.length d ∧
      r.2.length = readLength (InodeDisk.length d) size offset ∧ Fetched s d offset r.2) fun _ _ => False := by
    unfold openAndRead
    rw [ends_bind]
    refine (inodeOpen_ends (ht.owned_lt ⟨i, d, hN, self_mem⟩)).imp fun r s1 hopen => ?_
    cases hopen with
    | again hn =>
      obtain ⟨hmem', hsec⟩ := findInode_some hn
      have hd := hdata _ hmem'
      rw [hsec, hN] at hd
      exact hread (ht.onInode i _) (findInode_onInode (f := fun m : Inode => {m with openCnt := m.openCnt + 1})
        (fun _ => rfl) hn) (Option.some.inj hd).symm hmem fun _ => id
    | new hn hh =>
      have hheap := ht.heap []
      rw [hh hmem]
      exact hread (hheap.openInodes _) (List.find?_cons_of_pos (by simp)) (ht.inode i d hN).2 rfl fun _ => id
    | noMemory hne => exact absurd hmem hne
  obtain ⟨r, s', hrun, hfst, hlen, hf⟩ := hends.ok
  exact ⟨r.2, s', by rw [hrun, ← hfst], hlen, hf⟩

/-- Every free sector reads as zero, in the cache and on the device, when a call may take sectors. -/
def Blank (st : Step) (s : Fs) : Prop :=
  st.op.Takes → ∀ k < s.deviceSize, s.freeMap.test k = false → ∀ o < blockSectorSize, (s.cell k).Firm o 0

/-- The root directory has nothing behind its first two entries. -/
def RootBlank (s : Fs) : Prop :=
  ∀ d, node s.trace rootDirSector = some d → ∀ o, 2 * DirEntry.size ≤ o →
    o / blockSectorSize < sectorCnt (InodeDisk.size d) → ByteFirm s d o 0

/-- The device has just been formatted, and was blank before as far as the root directory goes. -/
def FormattedBlank (s : Fs) : Prop := Formatted s ∧ RootBlank s

/-- Between calls: what was not written holds zero. -/
structure Unwritten (h : List (Step × Reply)) (s : Fs) : Prop where
  inv : Inv True s
  bytes : ∀ i d o, i ≠ freeMapSector → node s.trace i = some d → o / blockSectorSize < sectorCnt (InodeDisk.size d) →
    covered h i o = false → ByteFirm s d o 0

theorem covered_cons (hc : covered ((st, r) :: h) i o = false) :
    st.op.bytes r i o = none ∧ (¬ st.op.Creates r i → covered h i o = false) := by
  unfold covered at hc
  cases hw : st.op.bytes r i o with
  | some b =>
    rw [hw] at hc
    cases hc
  | none =>
    grind

theorem Unwritten.step (hJ : Unwritten h s) (hb : Blank st s) (hok : StepOk True s st.op r s') :
    Unwritten ((st, r) :: h) s' := by
  refine ⟨hok.inv, fun i d' o hi hN' ho hc => ?_⟩
  obtain ⟨hw, hc⟩ := covered_cons hc
  refine hok.effect.bytes i d' hi hN' o 0 ho ?_
  rw [hw]
  rcases hok.effect.sectors i d' hi hN' _ ho with ⟨d, hN, hlt, he⟩ | hfree
  · rw [he]
    refine hJ.bytes i d o hi hN hlt (hc fun hcr => ?_)
    rw [hok.fresh i hcr] at hN
    cases hN
  · have hO : Owned (node s'.trace) s' _ := ⟨i, d', hN', mem_sectorsOf.mpr (.inr (dataSector_mem ho))⟩
    by_cases hT : st.op.Takes
    · exact hb hT _ (hok.deviceSize ▸ hok.inv.sound.tree.owned_lt hO) hfree _ (Nat.mod_lt _ (by decide))
    · have hused := hok.used hT _ ((hok.inv.sound.tree.used _).mpr (.inl hO))
      rw [hfree] at hused
      cases hused

theorem unwritten_of_run (hr : Run Step.exec (fun st s => Permitted st s ∧ Clean st s ∧ Blank st s) FormattedBlank h s) :
    Unwritten h s := by
  refine hr.invariant (fun s hs => ⟨hs.1.started.inv, fun i d o hi hN ho hc => ?_⟩) fun _ _ _ hJ ha =>
    (Step.ends hJ.inv ha.1 ha.2.1).mono (fun _ _ hok => hJ.step ha.2.2 hok) fun _ _ _ => trivial
  obtain rfl := (hs.1.started.only i d hN).resolve_left hi
  exact hs.2 d hN o (by simpa [covered] using hc) ho

theorem unwritten_reads_zero (hr : Run Step.exec (fun st s => Permitted st s ∧ Clean st s ∧ Blank st s) FormattedBlank h s)
    (hi : i ≠ freeMapSector) (hN : node s.trace i = some d) (hlo : -2 ^ 31 ≤ size) (hhi : size + offset < 2 ^ 31) :
    ∃ bytes s', (openAndRead i size offset).run {s with heap := []} = .ok (InodeDisk.length d, bytes) s' ∧
      bytes.length = readLength (InodeDisk.length d) size offset ∧
      ∀ t < bytes.length, covered h i (offset + t) = false → bytes[t]? = some 0 := by
  have hJ := unwritten_of_run hr
  have hsound := hJ.inv.sound.heap []
  obtain ⟨bytes, s', hrun, hlen, hf⟩ := openAndRead_fetches hsound.tree hsound.node hN rfl hlo hhi
  refine ⟨bytes, s', hrun, hlen, fun t ht hc => hf t 0 ht (hJ.bytes i d _ hi hN (div_lt_sectorCnt ?_) hc)⟩
  rw [hlen, readLength] at ht
  rw [InodeDisk.size]
  omega

/-! ### Blank sectors by evaluation -/

/-- A byte of a sector is zero, in the cache and on the device. -/
def firmZero (s : Fs) (k o : Nat) : Bool :=
  match findCache k s.cachedBlocks with
  | some ca => ca.data o == 0 && (ca.isDirty || s.device k o == 0)
  | none => s.device k o == 0

theorem firmZero_correct {k : Nat} (hz : firmZero s k o = true) : (s.cell k).Firm o 0 := by
  unfold firmZero at hz
  unfold Fs.cell
  cases hc : findCache k s.cachedBlocks with
  | none =>
    rw [hc, beq_iff_eq] at hz
    exact ⟨fun b e he => (by cases he), fun _ => hz⟩
  | some ca =>
    rw [hc, Bool.and_eq_true, beq_iff_eq, Bool.or_eq_true, beq_iff_eq] at hz
    refine ⟨fun b e he => ?_, fun hd => hz.2.resolve_left fun hdirty => hd ⟨ca.data, ?_⟩⟩
    · cases he
      exact hz.1
    · rw [← hdirty]
      rfl

def blankSector (s : Fs) (k first : Nat) : Bool :=
  (List.range blockSectorSize).all fun o => o < first || firmZero s k o

theorem blankSector_correct {k first : Nat} (hb : blankSector s k first = true) (ho : o < blockSectorSize)
    (hf : first ≤ o) : (s.cell k).Firm o 0 := by
  have hz := List.all_eq_true.mp hb o (List.mem_range.mpr ho)
  rw [Bool.or_eq_true, decide_eq_true_eq] at hz
  exact firmZero_correct (hz.resolve_left (by omega))

/-- The root directory has one sector, with nothing behind its first two entries. -/
def rootBlank (s : Fs) : Bool :=
  match node s.trace rootDirSector with
  | none => true
  | some d => sectorCnt (InodeDisk.size d) == 1 && blankSector s (dataSector s.device d 0) (2 * DirEntry.size)

theorem rootBlank_correct (hb : rootBlank s = true) : RootBlank s := by
  intro d hd o hlo ho
  unfold rootBlank at hb
  rw [hd, Bool.and_eq_true, beq_iff_eq] at hb
  obtain ⟨hcnt, hz⟩ := hb
  rw [hcnt] at ho
  have h0 : o / blockSectorSize = 0 := Nat.lt_one_iff.mp ho
  have hlt : o < blockSectorSize := (Nat.div_eq_zero_iff_lt (by decide)).mp h0
  unfold ByteFirm
  rw [h0, Nat.mod_eq_of_lt hlt]
  exact blankSector_correct hz hlt hlo

def blankly (st : Step) (s : Fs) : Bool :=
  cleanly st s && (List.range s.deviceSize).all fun k => s.freeMap.test k || blankSector s k 0

theorem blankly_correct (st : Step) (s : Fs) (hb : blankly st s = true) :
    Permitted st s ∧ Clean st s ∧ Blank st s := by
  rw [blankly, Bool.and_eq_true] at hb
  obtain ⟨hperm, hclean⟩ := cleanly_correct st s hb.1
  refine ⟨hperm, hclean, fun _ k hk hf o ho => ?_⟩
  have hz := List.all_eq_true.mp hb.2 k (List.mem_range.mpr hk)
  rw [hf, Bool.false_or] at hz
  exact blankSector_correct hz ho (Nat.zero_le o)

/-- A file of 100 bytes is written behind its end. -/
def writtenBehind : List Step :=
  [⟨[], .create 100 false⟩, ⟨[], .openInode 8⟩, ⟨[], .write 8 (fun _ => 65) 5 600⟩]

theorem unwritten_reads_zero_new : ∃ h s d bytes s',
    Run Step.exec (fun st s => Permitted st s ∧ Clean st s ∧ Blank st s) FormattedBlank h s ∧
      node s.trace 8 = some d ∧ (openAndRead 8 1 550).run {s with heap := []} = .ok (InodeDisk.length d, bytes) s' ∧
      bytes[0]? = some 0 := by
  have hp : (formatBlank 16).any (fun s => rootBlank s && (replay Step.exec blankly writtenBehind [] s).any
      fun x => (node x.2.trace 8).any (fun d => InodeDisk.length d == 605) && !covered x.1 8 550) = true := by
    decide +kernel
  obtain ⟨s0, hs0, hp⟩ := (Option.any_eq_true ..).mp hp
  rw [Bool.and_eq_true] at hp
  have hinit : FormattedBlank s0 := ⟨formatted_of_blank hs0, rootBlank_correct hp.1⟩
  obtain ⟨h, s, hr, hp⟩ := Run.of_replay
    (p := fun h s => (node s.trace 8).any (fun d => InodeDisk.length d == 605) && !covered h 8 550)
    blankly_correct hinit hp.2
  rw [Bool.and_eq_true, Bool.not_eq_true'] at hp
  obtain ⟨d, hd, hlen⟩ := (Option.any_eq_true ..).mp hp.1
  rw [beq_iff_eq] at hlen
  have hlo : -2 ^ 31 ≤ (1 : Int) := by decide
  have hhi : (1 : Int) + (550 : Nat) < 2 ^ 31 := by decide
  obtain ⟨bytes, s', hrun, hcount, hbytes⟩ := unwritten_reads_zero hr (by decide) hd hlo hhi
  rw [hlen] at hcount
  have hpos : 0 < bytes.length := by
    rw [hcount]
    decide
  exact ⟨h, s, d, bytes, s', hr, hd, hrun, hbytes 0 hpos hp.2⟩

/-- A file is written, removed and closed, and another one takes its sectors. -/
def writtenAndReused : List Step := oneWrite ++ [⟨[], .remove 8⟩, ⟨[], .close 8⟩, ⟨[], .create 100 false⟩]

theorem unwritten_reads_stale : ∃ h s bytes len s', Run Step.exec (fun st s => Permitted st s ∧ Clean st s) Formatted h s ∧
    covered h 8 0 = false ∧ (openAndRead 8 1 0).run {s with heap := []} = .ok (len, bytes) s' ∧ 0 < len ∧
    bytes[0]? = some 65 := by
  obtain ⟨h, s, hr, hp⟩ := run_of_replay
    (p := fun h s => !covered h 8 0 && (openAndRead 8 1 0).returns {s with heap := []}
      (fun r _ => decide (0 < r.1) && r.2[0]? == some 65)) cleanly_correct 24 writtenAndReused (by decide +kernel)
  rw [Bool.and_eq_true, Bool.not_eq_true'] at hp
  obtain ⟨r, s', hrun, hr'⟩ := run_of_returns hp.2
  rw [Bool.and_eq_true, decide_eq_true_eq, beq_iff_eq] at hr'
  exact ⟨h, s, r.2, r.1, s', hr, hp.1, hrun, hr'⟩

end

end Pintos.Filesys
