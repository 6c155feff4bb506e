import Pintos.Library.Memory
import Pintos.Library.Steps

/-! Partition tables (`devices/partition.c`).

The table in sector 0 of a device lists partitions and extended partitions, which have a table of their own, and so
on. `read_partition_table` is given the sector of the table to read and calls itself for each extended partition,
but the sector that it reads is always sector 0. It therefore finds what is on the device only where no
extended partition leads to a table: otherwise it takes the table of sector 0 for that one, and if the second
level lies in the device as well it never ends.

The memory for a table, for the descriptor of a partition and for the stack of the calls is taken to be there: the
source panics when `malloc` fails, and endless calls, none of which gives back its table, run out of one or the
other. -/
namespace Pintos.Partition

open Steps

/-- A block device: the number of its sectors, and what they hold. -/
structure Device where
  size : Nat
  sector : Nat → Bytes
  size_lt : size < 2 ^ 32

/-- `struct partition_table_entry`, without the fields that are not read. -/
structure Entry where
  type : UInt8
  offset : Nat
  size : Nat
deriving Repr, DecidableEq

inductive BlockType where
  | kernel
  | filesys
  | scratch
  | swap
  | foreign
deriving Repr, DecidableEq

/-- A partition as it is registered. -/
structure Registered where
  type : BlockType
  start : Nat
  size : Nat
deriving Repr, DecidableEq

/-- What is printed, and what is registered. -/
inductive Event where
  | pastEndOfDevice (sector : Nat)
  | invalidSignature
  | invalidExtended (sector : Nat)
  | extended (sector : Nat)
  | startsPastEnd (partNr start : Nat)
  | endPastEnd (partNr stop : Nat)
  | register (partNr : Nat) (p : Registered)
  | noPartitions
deriving Repr, DecidableEq

/-- Calls that have not returned at the given depth, and a failed assertion of `block_read`. -/
inductive Fault where
  | forever
  | assert
deriving Repr, DecidableEq

/-- `part_nr`, and the events so far. -/
structure State where
  partNr : Nat
  events : List Event
deriving Repr, DecidableEq

/-! ### Tables -/

def signature (pt : Bytes) : Nat := (pt 510).toNat + 2 ^ 8 * (pt 511).toNat

def entry (pt : Bytes) (i : Nat) : Entry :=
  ⟨pt (446 + 16 * i + 4), pt.wordAt (446 + 16 * i + 8), pt.wordAt (446 + 16 * i + 12)⟩

def partitions (pt : Bytes) : List Entry := (List.range 4).map (entry pt)

def Entry.empty (e : Entry) : Bool := e.size == 0 || e.type == 0

def Entry.extended (e : Entry) : Bool := e.type == 0x05 || e.type == 0x0f || e.type == 0x85 || e.type == 0xc5

def blockType (partType : UInt8) : BlockType :=
  if partType = 0x20 then .kernel
  else if partType = 0x21 then .filesys
  else if partType = 0x22 then .scratch
  else if partType = 0x23 then .swap
  else .foreign

/-! ### Scanning -/

/-- Sector numbers are added as `block_sector_t`. -/
def add (a b : Nat) : Nat := (a + b) % 2 ^ 32

def blockRead (block : Device) (sector : Nat) : Except Fault Bytes :=
  if sector < block.size then .ok (block.sector sector) else .error .assert

def print (e : Event) (s : State) : State := { s with events := s.events ++ [e] }

def foundPartition (block : Device) (partType : UInt8) (start size partNr : Nat) (s : State) : State :=
  if start ≥ block.size then print (.startsPastEnd partNr start) s
  else if add start size < start ∨ add start size > block.size then print (.endPastEnd partNr (add start size)) s
  else print (.register partNr ⟨blockType partType, start, size⟩) s

/-- One round of the loop over the entries; `read` is the call for an extended partition. -/
def parseEntry (block : Device) (sector primaryExtendedSector : Nat)
    (read : Nat → Nat → State → Except Fault State) (s : State) (e : Entry) : Except Fault State :=
  if e.empty then .ok s
  else if e.extended then
    let s := print (.extended sector) s
    if sector = 0 then read e.offset e.offset s
    else read (add e.offset primaryExtendedSector) primaryExtendedSector s
  else
    .ok (foundPartition block e.type (add e.offset sector) e.size (s.partNr + 1) { s with partNr := s.partNr + 1 })

/-- `read_partition_table`, with the depth of the calls bounded. -/
def readPartitionTable (block : Device) : Nat → Nat → Nat → State → Except Fault State
  | 0, _, _, _ => .error .forever
  | depth + 1, sector, primaryExtendedSector, s =>
    if sector ≥ block.size then .ok (print (.pastEndOfDevice sector) s)
    else do
      let pt ← blockRead block 0
      if signature pt ≠ 0xaa55 then
        return print (if primaryExtendedSector = 0 then .invalidSignature else .invalidExtended sector) s
      else
        (partitions pt).foldlM (parseEntry block sector primaryExtendedSector (readPartitionTable block depth)) s

def partitionScan (block : Device) (depth : Nat) : Except Fault State := do
  let s ← readPartitionTable block depth 0 0 ⟨0, []⟩
  return if s.partNr = 0 then print .noPartitions s else s

/-! ### What is on the device -/

/-- The table of a sector, if there is one. -/
def TableAt (block : Device) (sector : Nat) (entries : List Entry) : Prop :=
  sector < block.size ∧ signature (block.sector sector) = 0xaa55 ∧ entries = partitions (block.sector sector)

/-- The sectors that hold a table, each with the sector of the extended partition that leads to it. Offsets
of extended partitions are sector numbers in sector 0, and else relative to that sector. -/
inductive Reached (block : Device) : Nat → Nat → Prop
  | top : Reached block 0 0
  | primary {entries e} (table : TableAt block 0 entries) (mem : e ∈ entries) (used : e.empty = false)
      (extended : e.extended = true) : Reached block e.offset e.offset
  | nested {sector base entries e} (reached : Reached block sector base) (below : sector ≠ 0)
      (table : TableAt block sector entries) (mem : e ∈ entries) (used : e.empty = false)
      (extended : e.extended = true) : Reached block (base + e.offset) base

/-- The partitions that the tables describe and that lie in the device. -/
def Described (block : Device) (p : Registered) : Prop :=
  ∃ sector base entries e, Reached block sector base ∧ TableAt block sector entries ∧ e ∈ entries ∧
    e.empty = false ∧ e.extended = false ∧ sector + e.offset + e.size ≤ block.size ∧
    p = ⟨blockType e.type, sector + e.offset, e.size⟩

def Event.partition : Event → Option Registered
  | .register _ p => some p
  | _ => none

/-- The partitions that were registered. -/
def registered (s : State) : List Registered := s.events.filterMap Event.partition

/-! ### Tables without extended partitions -/

variable {block : Device} {s s' : State} {e : Entry} {sector base depth : Nat}

/-- No extended partition of sector 0 leads into the device. -/
def Flat (block : Device) : Prop :=
  ∀ entries e, TableAt block 0 entries → e ∈ entries → e.empty = false → e.extended = true → block.size ≤ e.offset

theorem entry_lt {pt : Bytes} (h : e ∈ partitions pt) : e.offset < 2 ^ 32 ∧ e.size < 2 ^ 32 := by
  obtain ⟨i, -, rfl⟩ := List.mem_map.mp h
  exact ⟨Bytes.wordAt_lt pt _, Bytes.wordAt_lt pt _⟩

theorem registered_print (ev : Event) (s : State) :
    registered (print ev s) = registered s ++ ev.partition.toList := by
  unfold registered print
  grind

/-- The partition in the device that an entry of sector 0 describes. -/
def Entry.inside (block : Device) (e : Entry) : Option Registered :=
  if e.empty = false ∧ e.extended = false ∧ e.offset + e.size ≤ block.size then
    some ⟨blockType e.type, e.offset, e.size⟩
  else none

/-- The entries of the table in sector 0, if there is one. -/
def firstTable (block : Device) : List Entry :=
  if 0 < block.size ∧ signature (block.sector 0) = 0xaa55 then partitions (block.sector 0) else []

/-- An entry of sector 0 is registered exactly when its range lies in the device. -/
theorem registered_found (ho : e.offset < 2 ^ 32) (hs : e.size < 2 ^ 32) (hempty : e.empty = false)
    (hext : e.extended = false) (n : Nat) : registered (foundPartition block e.type e.offset e.size n s) =
      registered s ++ (e.inside block).toList := by
  have hsize := block.size_lt
  have hpos : e.size ≠ 0 := by
    intro h0
    simp [Entry.empty, h0] at hempty
  have hadd : add e.offset e.size = e.offset + e.size ∨
      add e.offset e.size + 2 ^ 32 = e.offset + e.size := by
    unfold add
    omega
  unfold foundPartition
  split
  · have hnot : ¬e.offset + e.size ≤ block.size := by omega
    simp [registered_print, Event.partition, Entry.inside, hnot]
  · split
    · have hnot : ¬e.offset + e.size ≤ block.size := by omega
      simp [registered_print, Event.partition, Entry.inside, hnot]
    · have hin : e.offset + e.size ≤ block.size := by omega
      simp [registered_print, Event.partition, Entry.inside, hin, hempty, hext]

/-- A round of the loop for sector 0, when an extended partition does not lead into the device. -/
theorem parseEntry_flat (depth : Nat) (s : State) {pt : Bytes} (he : e ∈ partitions pt)
    (hflat : e.empty = false → e.extended = true → block.size ≤ e.offset) :
    ∃ s', parseEntry block 0 0 (readPartitionTable block (depth + 1)) s e = .ok s' ∧
      registered s' = registered s ++ (e.inside block).toList := by
  obtain ⟨ho, hs⟩ := entry_lt he
  unfold parseEntry
  cases hempty : e.empty with
  | true =>
    refine ⟨s, if_pos rfl, ?_⟩
    simp [Entry.inside, hempty]
  | false =>
    rw [if_neg Bool.false_ne_true]
    cases hext : e.extended with
    | true =>
      refine ⟨print (.pastEndOfDevice e.offset) (print (.extended 0) s), ?_, ?_⟩
      · rw [if_pos rfl, if_pos rfl, readPartitionTable, if_pos (hflat hempty hext)]
      · simp [registered_print, Event.partition, Entry.inside, hext]
    | false =>
      rw [if_neg Bool.false_ne_true]
      refine ⟨_, rfl, ?_⟩
      rw [add, Nat.add_zero, Nat.mod_eq_of_lt ho]
      exact registered_found ho hs hempty hext _

theorem parse_flat (depth : Nat) {pt : Bytes} {entries : List Entry} (hsub : ∀ e ∈ entries, e ∈ partitions pt)
    (hflat : ∀ e ∈ entries, e.empty = false → e.extended = true → block.size ≤ e.offset) (s : State) :
    ∃ s', entries.foldlM (parseEntry block 0 0 (readPartitionTable block (depth + 1))) s = .ok s' ∧
      registered s' = registered s ++ entries.filterMap (Entry.inside block) := by
  induction entries generalizing s with
  | nil => exact ⟨s, rfl, by simp⟩
  | cons e entries ih =>
    obtain ⟨s₁, hs₁, hreg₁⟩ := parseEntry_flat depth s (hsub e List.mem_cons_self)
      (hflat e List.mem_cons_self)
    obtain ⟨s', hs', hreg⟩ := ih (fun e he => hsub e (List.mem_cons_of_mem _ he))
      (fun e he => hflat e (List.mem_cons_of_mem _ he)) s₁
    refine ⟨s', ?_, ?_⟩
    · rw [List.foldlM_cons, hs₁, ok_bind, hs']
    · rw [hreg, hreg₁, List.append_assoc]
      cases he : e.inside block <;> simp [he]

/-- On such a device only sector 0 holds a table. -/
theorem reached_flat {entries : List Entry} (h : Flat block) (hr : Reached block sector base)
    (ht : TableAt block sector entries) : sector = 0 := by
  induction hr generalizing entries with
  | top => rfl
  | @primary entries' e table mem used extended =>
    have hpast := h entries' e table mem used extended
    have hin := ht.1
    omega
  | nested _ below table _ _ _ ih => exact absurd (ih table) below

theorem mem_firstTable : e ∈ firstTable block ↔ ∃ entries, TableAt block 0 entries ∧ e ∈ entries := by
  unfold firstTable TableAt
  grind

theorem described_flat (h : Flat block) (p : Registered) :
    Described block p ↔ p ∈ (firstTable block).filterMap (Entry.inside block) := by
  rw [List.mem_filterMap]
  constructor
  · intro hd
    obtain ⟨sector, base, entries, e, hr, ht, he, hempty, hext, hin, hp⟩ := hd
    have h0 := reached_flat h hr ht
    subst h0
    rw [Nat.zero_add] at hin hp
    exact ⟨e, mem_firstTable.mpr ⟨entries, ht, he⟩, by rw [Entry.inside, if_pos ⟨hempty, hext, hin⟩, hp]⟩
  · intro hd
    obtain ⟨e, he, hp⟩ := hd
    obtain ⟨entries, ht, he⟩ := mem_firstTable.mp he
    obtain ⟨⟨hempty, hext, hin⟩, hp⟩ := Option.ite_none_right_eq_some.mp hp
    exact ⟨0, 0, entries, e, .top, ht, he, hempty, hext, by rwa [Nat.zero_add],
      by rw [Nat.zero_add]; exact (Option.some.inj hp).symm⟩

theorem readPartitionTable_flat (depth : Nat) (h : Flat block) (s : State) :
    ∃ s', readPartitionTable block (depth + 2) 0 0 s = .ok s' ∧
      registered s' = registered s ++ (firstTable block).filterMap (Entry.inside block) := by
  rw [readPartitionTable]
  by_cases hsize : 0 ≥ block.size
  · refine ⟨_, if_pos hsize, ?_⟩
    rw [firstTable, if_neg (by omega)]
    simp [registered_print, Event.partition]
  have hread : blockRead block 0 = .ok (block.sector 0) := if_pos (by omega)
  rw [if_neg hsize, hread, ok_bind]
  by_cases hsig : signature (block.sector 0) ≠ 0xaa55
  · refine ⟨_, if_pos hsig, ?_⟩
    have hnone : firstTable block = [] := if_neg fun hin => hsig hin.2
    rw [hnone]
    simp [registered_print, Event.partition]
  rw [if_neg hsig]
  have htable : TableAt block 0 (partitions (block.sector 0)) := ⟨by omega, not_not.mp hsig, rfl⟩
  rw [firstTable, if_pos ⟨htable.1, htable.2.1⟩]
  exact parse_flat depth (fun _ he => he) (fun e he => h _ e htable he) s

/-- A scan ends and registers exactly the partitions on the device, in the order of the table and each as
often as it is listed, if no extended partition leads into the device. -/
theorem partitionScan_flat (h : Flat block) (hdepth : 2 ≤ depth) :
    ∃ s, partitionScan block depth = .ok s ∧ registered s = (firstTable block).filterMap (Entry.inside block) ∧
      ∀ p, p ∈ registered s ↔ Described block p := by
  obtain ⟨depth, rfl⟩ := Nat.exists_eq_add_of_le' hdepth
  obtain ⟨s, hs, hreg⟩ := readPartitionTable_flat depth h ⟨0, []⟩
  have hall : ∃ s, partitionScan block (depth + 2) = .ok s ∧
      registered s = (firstTable block).filterMap (Entry.inside block) := by
    rw [partitionScan, hs, ok_bind]
    by_cases hnr : s.partNr = 0
    · refine ⟨print .noPartitions s, congrArg _ (if_pos hnr), ?_⟩
      rw [registered_print, hreg]
      simp [Event.partition, registered]
    · exact ⟨s, congrArg _ (if_neg hnr), hreg⟩
  obtain ⟨s, hs, hreg⟩ := hall
  refine ⟨s, hs, hreg, fun p => ?_⟩
  rw [hreg, described_flat h]

/-- One file system partition in a device of nine sectors. -/
def simpleDisk : Device where
  size := 9
  sector _ o := if o = 450 then 0x21 else if o = 454 then 1 else if o = 458 then 8 else if o = 510 then 0x55
    else if o = 511 then 0xaa else 0
  size_lt := by decide

theorem simpleDisk_flat : Flat simpleDisk := by
  intro entries e htable he hempty hext
  obtain ⟨-, -, rfl⟩ := htable
  have hall : ∀ e ∈ partitions (simpleDisk.sector 0), e.empty = true ∨ e.extended = false := by decide +kernel
  grind

theorem partitionScan_flat_simple : ∃ s, partitionScan simpleDisk 2 = .ok s ∧
    registered s = [⟨.filesys, 1, 8⟩] ∧ ∀ p, p ∈ registered s ↔ Described simpleDisk p := by
  obtain ⟨s, hs, hreg, hmem⟩ := partitionScan_flat simpleDisk_flat (Nat.le_refl 2)
  have htable : (firstTable simpleDisk).filterMap (Entry.inside simpleDisk) = [⟨.filesys, 1, 8⟩] := by decide +kernel
  exact ⟨s, hs, hreg.trans htable, hmem⟩

/-! ### Tables with extended partitions -/

/-- Where the table of sector 0 begins with an extended partition that starts in the first half of the device,
the calls never come to an end. -/
theorem readPartitionTable_endless {rest : List Entry} (hsig : signature (block.sector 0) = 0xaa55)
    (htable : partitions (block.sector 0) = e :: rest) (hempty : e.empty = false) (hext : e.extended = true)
    (hhalf : e.offset + e.offset < block.size) (hsector : sector < block.size)
    (hbase : sector = 0 ∨ base = e.offset) (s : State) : readPartitionTable block depth sector base s = .error .forever := by
  induction depth generalizing sector base s with
  | zero => rfl
  | succ depth ih =>
    have hsize := block.size_lt
    have hread : blockRead block 0 = .ok (block.sector 0) := if_pos (by omega)
    have hfirst : parseEntry block sector base (readPartitionTable block depth) s e = .error .forever := by
      unfold parseEntry
      rw [hempty, hext, if_neg Bool.false_ne_true, if_pos rfl]
      by_cases h0 : sector = 0
      · exact (if_pos h0).trans (ih (by omega) (.inr rfl) _)
      · have hb := hbase.resolve_left h0
        have hadd : add e.offset base < block.size := by
          unfold add
          rw [hb]
          omega
        exact (if_neg h0).trans (ih hadd (.inr hb) _)
    rw [readPartitionTable, if_neg (by omega), hread, ok_bind, if_neg (not_not_intro hsig), htable,
      List.foldlM_cons, hfirst]
    rfl

/-- An extended partition at sector 1 of a device of nine sectors, with no partition in it. -/
def extendedDisk : Device where
  size := 9
  sector n o := if n ≠ 0 then 0 else if o = 450 then 0x05 else if o = 454 then 1 else if o = 458 then 8
    else if o = 510 then 0x55 else if o = 511 then 0xaa else 0
  size_lt := by decide

theorem scan_never_returns : partitionScan extendedDisk = fun _ => .error .forever := by
  funext depth
  have htable : partitions (extendedDisk.sector 0) = [⟨0x05, 1, 8⟩, ⟨0, 0, 0⟩, ⟨0, 0, 0⟩, ⟨0, 0, 0⟩] := by
    decide +kernel
  rw [partitionScan, readPartitionTable_endless (by decide +kernel) htable (by decide) (by decide) (by decide)
    (by decide) (.inl rfl)]
  rfl

end Pintos.Partition
