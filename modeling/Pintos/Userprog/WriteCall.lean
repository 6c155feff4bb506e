import Pintos.Threads.Palloc
import Pintos.Userprog.PagedirProofs

/-! The write system call (`SYS_WRITE` of `userprog/syscall.c`).

The page directory of the process is the one in memory, and the kernel buffer comes from the kernel pool.
The size word is read four ways on its path: as a page count, as the `int` of the copy with `-1` for a string,
as a `size_t` or `unsigned` by `putbuf` and `fd_write`, and as the `off_t` of `file_write`. -/
namespace Pintos.UserMemory
open Palloc Steps

/-! ### The page directory in memory -/

/-- The tables of the page directory at `pd`, as its words say. -/
def dirAt (s : Pagedir.State) (pd : Nat) : PageDir where
  table i :=
    let pde := s.word (pd + 4 * i)
    if pde = 0 then none else some fun j => s.word (Pagedir.pdeGetPt pde + 4 * j)

section
variable {s : Pagedir.State} {ramPages pd va : Nat} {r : Option Nat}

theorem entryOf_ok {pde : Nat} {r : Option Nat × Pagedir.State} (h : Pagedir.entryOf s pde va = .ok r) :
    r = (some (Pagedir.pdeGetPt (s.word pde) + 4 * ptNo va), s) := by
  obtain ⟨-, -, h⟩ := bind_ok.mp h
  cases h
  rfl

/-- Where `lookup_page` returns, it has found the entry of the directory in memory. -/
theorem lookupPage_ok {s' : Pagedir.State} (h : Pagedir.lookupPage ramPages pd va false none s = .ok (r, s')) :
    s' = s ∧ r.map s.word = lookupPage (dirAt s pd) va := by
  obtain ⟨-, -, h⟩ := bind_ok.mp h
  obtain ⟨-, -, h⟩ := bind_ok.mp h
  unfold lookupPage dirAt
  dsimp only at h ⊢
  split at h
  · rename_i hzero
    cases h
    rw [if_pos hzero]
    exact ⟨rfl, rfl⟩
  · rename_i hne
    cases entryOf_ok h
    rw [if_neg hne]
    exact ⟨rfl, rfl⟩

theorem present_eq (pte : Nat) : present pte = decide (pte &&& Pagedir.pteP ≠ 0) := by
  rw [present, Pagedir.pteP, Nat.and_one_is_mod]
  grind

/-- `pagedir_get_page` of the directory in memory, where its assertions hold. -/
theorem pagedirGetPage_dirAt (h : Pagedir.pagedirGetPage ramPages pd va s = .ok r) :
    r = pagedirGetPage (dirAt s pd) va := by
  obtain ⟨-, -, hrest⟩ := bind_ok.mp h
  obtain ⟨⟨pte, s'⟩, hl, hend⟩ := bind_ok.mp hrest
  obtain ⟨rfl, hentry⟩ := lookupPage_ok hl
  unfold pagedirGetPage
  rw [← hentry]
  cases pte with
  | none =>
    cases hend
    rfl
  | some pte =>
    dsimp only [Option.map_some] at hend ⊢
    rw [present_eq, pteGetPage]
    split at hend
    · rename_i hP
      obtain ⟨-, -, hend⟩ := bind_ok.mp hend
      cases hend
      rw [if_pos (decide_eq_true hP), Pagedir.pteGetPage, Pagedir.and_pteAddr (w := s'.word pte) (Bytes.wordAt_lt _ _)]
      rfl
    · rename_i hP
      cases hend
      rw [if_neg (by simpa using hP)]

end

/-! ### The call -/

/-- The pages of `palloc_get_multiple (0, page_cnt)`, with what they hold. -/
def kernelPages (ps : Pools) (pageCnt : Nat) : Option (Nat → UInt8) :=
  match pallocGetMultiple ps {} pageCnt with
  | .ok (some pages, _) => some fun i => ps.mem (pages + i)
  | _ => none

/-- What a system call of `write` hands on: nothing for standard input, or the size word to `putbuf` or `fd_write`. -/
inductive Handed where
  | nothing
  | putbuf (n : BitVec 32)
  | fdWrite (fd n : BitVec 32)

/-- The size as the callees read it: `putbuf` as a `size_t`; `fd_write` as an `unsigned`, and then as the `off_t` of
`file_write`. -/
def Handed.read : Handed → List Int
  | .nothing => []
  | .putbuf n => [n.toNat]
  | .fdWrite _ n => [n.toNat, n.toInt]

/-- The case `SYS_WRITE` of `syscall_handler` as far as the call it makes, or nothing if the process is killed. -/
def sysWrite (pd : PageDir) (ps : Pools) (fd buffer size : BitVec 32) : Option (Buffer × Handed) :=
  match getKernelVaForUserPointer pd ps.mem (kernelPages ps) buffer.toNat size.toInt with
  | none => none
  | some b => some (b, if fd = 0 then .nothing else if fd = 1 then .putbuf size else .fdWrite fd size)

/-- All that the callee reads of the size was copied. -/
def Covered (r : Buffer × Handed) : Prop := ∀ n ∈ r.2.read, 0 ≤ n ∧ n ≤ r.1.copied.length

section
variable {pd : PageDir} {mem : Nat → UInt8} {palloc : Nat → Option (Nat → UInt8)} {s : State} {ramPages cnt a : Nat}

/-- There is a page run for the buffer exactly when the kernel pool has one. -/
theorem kernelPages_none (h : Sound ramPages s) (hcnt : 0 < cnt) : kernelPages s.pools cnt = none ↔ ¬ FreeRun s false cnt := by
  unfold kernelPages
  obtain ⟨h0, -⟩ | ⟨-, hno, hget⟩ | ⟨-, idx, mem, hrun, hget⟩ := pallocGetMultiple_cases s.pools {} cnt
  · omega
  · rw [hget]
    refine iff_of_true rfl fun hf => ?_
    obtain ⟨idx, hrun⟩ := h.clearRun hf
    exact hno idx hrun
  · rw [hget]
    refine iff_of_false (by simp) (not_not.mpr ⟨idx, hrun.1, fun k h1 h2 ht => ?_⟩)
    have hset := (h.bits false k).mpr ht
    have hclear := hrun.2 (k - idx) (by omega)
    rw [Nat.add_sub_cancel' h1] at hclear
    cases hclear.symm.trans hset

/-- No pool is as large as the page count of a size below `-8190`. -/
theorem kernelPages_huge (h : Sound ramPages s) (hram : ramPages ≤ 2 ^ 18) (hcnt : 2 ^ 18 < cnt) :
    kernelPages s.pools cnt = none := by
  refine (kernelPages_none h (by omega)).mpr fun hf => ?_
  obtain ⟨idx, hle, -⟩ := hf
  have hgap := h.laid.between
  have hmap := h.laid.mapOf true
  have hlimit := h.laid.limit
  have hstart := h.laid.start
  have hbase := h.laid.mapOf false
  simp only [Pools.pool_true, Pools.pool_false] at hle hmap hbase
  unfold ptov freeStart ptov pgSize at *
  omega

/-- The pages that `get_kernel_va_for_user_pointer` asks for. -/
def requiredPages (size : Int) : Nat :=
  let pages := (int (size + pgSize - 1)).tdiv pgSize
  ((if pages = 0 then 1 else pages) % 2 ^ 32).toNat

theorem getKernelVa_refused {size : Int} (h : a = 0 ∨ physBase ≤ a) :
    getKernelVaForUserPointer pd mem palloc a size = none := by
  unfold getKernelVaForUserPointer
  rw [if_pos]
  rcases h with rfl | h
  · rfl
  · simp [isUserVaddr, h]

/-- A buffer is copied from user memory. -/
theorem getKernelVa_user {size : Int} {b : Buffer} (hb : getKernelVaForUserPointer pd mem palloc a size = some b) :
    a ≠ 0 ∧ a < physBase := by
  by_contra ha
  cases (getKernelVa_refused (by omega)).symm.trans hb

theorem getKernelVa_sized {size : Int} (h0 : a ≠ 0) (hu : a < physBase) (hsize : size ≠ -1) :
    getKernelVaForUserPointer pd mem palloc a size =
      (palloc (requiredPages size)).bind fun page => (copyUserMemToKernel pd mem a size false).map fun copied =>
        ⟨fun i => copied.getD i (page i), copied⟩ := by
  unfold getKernelVaForUserPointer requiredPages
  simp only [hsize, decide_false, h0, isUserVaddr, hu, decide_true, Bool.not_true, Bool.or_false, Bool.false_eq_true,
    if_false, Bool.false_and]
  cases palloc _ with
  | none => rfl
  | some page => cases copyUserMemToKernel pd mem a size false <;> rfl

/-- With a negative size nothing is copied. -/
theorem copyUserMemToKernel_neg {size : Int} (h : size < 0) : copyUserMemToKernel pd mem a size false = some [] := by
  rw [copyUserMemToKernel, Int.toNat_of_nonpos (by omega)]
  rfl

theorem requiredPages_small {size : Int} (h : -8191 < size) (hneg : size < 0) : requiredPages size = 1 := by
  have hint : int (size + pgSize - 1) = size + 4095 := by
    unfold int pgSize
    rw [Int.bmod_eq_of_le] <;> omega
  have hdiv : (size + 4095).tdiv pgSize = 0 := by
    rcases Int.le_total 0 (size + 4095) with h | h
    · exact Int.tdiv_eq_zero_of_lt h (by unfold pgSize; omega)
    · rw [← Int.neg_neg (size + 4095), Int.neg_tdiv, Int.tdiv_eq_zero_of_lt (by omega) (by unfold pgSize; omega)]
      rfl
  rw [requiredPages, hint, hdiv]
  rfl

theorem requiredPages_huge {size : Int} (h : -2 ^ 31 ≤ size) (hneg : size ≤ -8191) : 2 ^ 18 < requiredPages size := by
  have hint : int (size + pgSize - 1) = size + 4095 := by
    unfold int pgSize
    rw [Int.bmod_eq_of_le] <;> omega
  have hdiv : (size + 4095).tdiv pgSize = -((-(size + 4095)) / 4096) := by
    rw [← Int.neg_neg (size + 4095), Int.neg_tdiv, Int.tdiv_eq_ediv_of_nonneg (by omega), Int.neg_neg]
    rfl
  rw [requiredPages, hint, hdiv, if_neg (by omega)]
  omega

/-- A buffer for a size that is not negative holds that many user bytes. -/
theorem copied_length {size : Int} {b : Buffer} (hsize : 0 ≤ size)
    (hb : getKernelVaForUserPointer pd mem palloc a size = some b) : (b.copied.length : Int) = size := by
  obtain ⟨h0, hu⟩ := getKernelVa_user hb
  rw [getKernelVa_sized h0 hu (by omega), Option.bind_eq_some_iff] at hb
  obtain ⟨page, -, hb⟩ := hb
  rw [copyUserMemToKernel_eq hsize] at hb
  grind

/-- A string has few bytes. -/
theorem copied_string {b : Buffer} (hb : getKernelVaForUserPointer pd mem palloc a (-1) = some b) :
    b.copied.length ≤ maxSyscalkArgLength := by
  obtain ⟨h0, hu⟩ := getKernelVa_user hb
  rw [getKernelVa_string h0 hu, Option.bind_eq_some_iff] at hb
  obtain ⟨page, -, hb⟩ := hb
  obtain ⟨copied, hcopied, rfl⟩ := Option.map_eq_some_iff.mp hb
  rcases @copyLoop_string pd mem maxSyscalkArgLength maxSyscalkArgLength a [] maxSyscalkArgLength
    (by simp) le_rfl with ⟨hnone, -⟩ | ⟨m, len, -, hlen, -, hsome⟩
  · cases hcopied.symm.trans hnone
  · cases hcopied.symm.trans hsome
    simpa using hlen

theorem sysWrite_eq (pd : PageDir) (ps : Pools) (fd buffer size : BitVec 32) : sysWrite pd ps fd buffer size =
    (getKernelVaForUserPointer pd ps.mem (kernelPages ps) buffer.toNat size.toInt).map fun b =>
      (b, if fd = 0 then .nothing else if fd = 1 then .putbuf size else .fdWrite fd size) := by
  unfold sysWrite
  cases getKernelVaForUserPointer pd ps.mem (kernelPages ps) buffer.toNat size.toInt <;> rfl

/-- What is handed on is covered if the size word is the number of bytes copied, and otherwise only if it is nothing. -/
theorem covered_iff {fd size : BitVec 32} {b : Buffer} :
    Covered (b, if fd = 0 then .nothing else if fd = 1 then .putbuf size else .fdWrite fd size) ↔
      fd = 0 ∨ size.toNat ≤ b.copied.length ∧ (fd ≠ 1 → 0 ≤ size.toInt) := by
  have hle : size.toInt ≤ size.toNat := by
    rw [BitVec.toInt_eq_toNat_cond]
    split <;> omega
  unfold Covered
  by_cases h0 : fd = 0
  · simp [h0, Handed.read]
  · by_cases h1 : fd = 1
    · simp [h1, Handed.read]
    · simp only [h0, h1, if_false, Handed.read, List.mem_cons, List.not_mem_nil, or_false, forall_eq_or_imp, forall_eq]
      grind

/-- The size words with which a write can go wrong: those the copy takes for a string, or for a small negative
number that needs no page. Every other word from `2 ^ 31` on asks for more pages than there are. -/
def BadSize (size : BitVec 32) : Prop := 2 ^ 32 - 8190 ≤ size.toNat

instance (size : BitVec 32) : Decidable (BadSize size) := inferInstanceAs (Decidable (_ ≤ _))

theorem BadSize.toInt {size : BitVec 32} (h : BadSize size) : -8191 < size.toInt ∧ size.toInt < 0 := by
  unfold BadSize at h
  rw [BitVec.toInt_eq_toNat_cond]
  split <;> omega

/-- For a bad size word one page is asked for. -/
theorem getKernelVa_no_page {size : BitVec 32} (h : BadSize size) (hp : palloc 1 = none) :
    getKernelVaForUserPointer pd mem palloc a size.toInt = none := by
  by_cases ha : a = 0 ∨ physBase ≤ a
  · exact getKernelVa_refused ha
  obtain ⟨h0, hu⟩ := not_or.mp ha
  have hu := Nat.lt_of_not_le hu
  by_cases hs : size.toInt = -1
  · rw [hs, getKernelVa_string h0 hu, hp]
    rfl
  · rw [getKernelVa_sized h0 hu hs, requiredPages_small h.toInt.1 h.toInt.2, hp]
    rfl

variable (pd mem) in
/-- And with the page little or nothing is copied. -/
theorem getKernelVa_bad {size : BitVec 32} {page : Nat → UInt8} (h : BadSize size) (hp : palloc 1 = some page) (h0 : a ≠ 0)
    (hu : a < physBase) (hstr : size = 0xffffffff → ∃ m, StringLength pd mem a maxSyscalkArgLength m) :
    ∃ b, getKernelVaForUserPointer pd mem palloc a size.toInt = some b ∧ b.copied.length ≤ maxSyscalkArgLength := by
  by_cases hs : size = 0xffffffff
  · have hint : size.toInt = -1 := by rw [hs]; rfl
    rw [hint]
    rcases getKernelVa_cString pd mem hp h0 hu with ⟨-, hno⟩ | ⟨b, m, hb, -⟩
    · obtain ⟨m, hm⟩ := hstr hs
      exact absurd hm (hno m)
    · exact ⟨b, hb, copied_string hb⟩
  · have hint : size.toInt ≠ -1 := fun e => hs (BitVec.eq_of_toInt_eq e)
    refine ⟨⟨page, []⟩, ?_, Nat.zero_le _⟩
    rw [getKernelVa_sized h0 hu hint, requiredPages_small h.toInt.1 h.toInt.2, hp, copyUserMemToKernel_neg h.toInt.2]
    rfl

/-- Any other size word is the number of bytes copied, or is refused. -/
theorem getKernelVa_good {size : BitVec 32} {b : Buffer} (hs : Sound ramPages s) (hram : ramPages ≤ 2 ^ 18)
    (h : ¬ BadSize size) (hb : getKernelVaForUserPointer pd mem (kernelPages s.pools) a size.toInt = some b) :
    size.toNat ≤ b.copied.length ∧ 0 ≤ size.toInt := by
  unfold BadSize at h
  have hint := BitVec.toInt_eq_toNat_cond size
  split at hint
  · have := copied_length (by omega) hb
    omega
  · obtain ⟨h0, hu⟩ := getKernelVa_user hb
    have hhuge := requiredPages_huge (show -2 ^ 31 ≤ size.toInt by omega) (by omega)
    rw [getKernelVa_sized h0 hu (by omega), kernelPages_huge hs hram hhuge] at hb
    cases hb

end

/-- A write hands on the bytes it has copied, exactly if its size word is not bad, or nothing is handed on, or the
process is killed: for a buffer that is null or in the kernel, for want of a page, or for a string that is not mapped. -/
theorem write_hands_copied_bytes {ax : UInt16} {userPageLimit : Nat} {s : State}
    (hr : Reach step FreesBlock (Boots (initRamPages ax) userPageLimit) s) (pd : PageDir) (fd buffer size : BitVec 32) :
    (∀ r, sysWrite pd s.pools fd buffer size = some r → Covered r) ↔
      ¬ BadSize size ∨ fd = 0 ∨ buffer = 0 ∨ physBase ≤ buffer.toNat ∨ ¬ FreeRun s false 1 ∨
        size = 0xffffffff ∧ ∀ m, ¬ StringLength pd s.pools.mem buffer.toNat maxSyscalkArgLength m := by
  have hs := sound_reach (ramPages_ge ax) hr
  have hram : initRamPages ax ≤ 2 ^ 18 := by
    unfold initRamPages
    omega
  have hbuffer : buffer.toNat = 0 ↔ buffer = 0 := by
    rw [← BitVec.toNat_inj]
    rfl
  simp only [sysWrite_eq, Option.map_eq_some_iff, forall_exists_index, and_imp, forall_apply_eq_imp_iff₂, covered_iff]
  by_cases hbad : BadSize size
  · cases hp : kernelPages s.pools 1 with
    | none =>
      have hfree := (kernelPages_none hs Nat.one_pos).mp hp
      simp [getKernelVa_no_page hbad hp, hfree]
    | some page =>
      have hfree : FreeRun s false 1 := by
        by_contra hno
        cases ((kernelPages_none hs Nat.one_pos).mpr hno).symm.trans hp
      constructor
      · intro hall
        by_contra hno
        simp only [not_or, not_and, not_forall, not_not] at hno
        obtain ⟨-, hfd, h0, hu, -, hstr⟩ := hno
        obtain ⟨b, hb, hlen⟩ := getKernelVa_bad pd s.pools.mem hbad hp (mt hbuffer.mp h0)
          (Nat.lt_of_not_le hu) hstr
        have hle := ((hall b hb).resolve_left hfd).1
        unfold BadSize at hbad
        unfold maxSyscalkArgLength at hlen
        omega
      · intro hcases b hb
        obtain ⟨h0, hu⟩ := getKernelVa_user hb
        rcases hcases with hgood | hfd | hnull | hkernel | hno | ⟨rfl, hno⟩
        · exact absurd hbad hgood
        · exact .inl hfd
        · exact absurd (hbuffer.mpr hnull) h0
        · exact absurd hu (Nat.not_lt.mpr hkernel)
        · exact absurd hfree hno
        · rcases getKernelVa_cString pd s.pools.mem hp h0 hu with ⟨hnone, -⟩ | ⟨_, m, -, hm, -⟩
          · cases hb.symm.trans hnone
          · exact absurd hm (hno m)
  · refine iff_of_true (fun b hb => .inr ?_) (.inl hbad)
    obtain ⟨hle, hpos⟩ := getKernelVa_good hs hram hbad hb
    exact ⟨hle, fun _ => hpos⟩

/-- Three bytes of one page, with all pages of the kernel pool free. -/
theorem write_hands_copied_bytes_three : ∃ r,
    sysWrite (onePage 0x8048000) smallPools 1 0x8048000 3 = some r ∧ r.2.read = [3] ∧ Covered r := by
  obtain ⟨r, hw, hread⟩ : ∃ r, sysWrite (onePage 0x8048000) smallPools 1 0x8048000 3 = some r ∧ r.2.read = [3] :=
    ⟨_, rfl, rfl⟩
  refine ⟨r, hw, hread, ?_⟩
  exact (write_hands_copied_bytes (.start smallPools_boots) (onePage 0x8048000) 1 0x8048000 3).mpr (.inl (by decide)) r hw

/-- The size word `0xffffffff` means a string: what was copied is a byte, and `putbuf` prints all of memory. -/
theorem write_hands_more_than_copied : ∃ r,
    sysWrite (onePage 0x8048000) smallPools 1 0x8048fff 0xffffffff = some r ∧
      r.1.copied.length = 1 ∧ r.2.read = [0xffffffff] := ⟨_, rfl, rfl, rfl⟩

-- For the other words from `2 ^ 32 - 8190` on nothing is copied.
example : (sysWrite (onePage 0x8048000) smallPools 3 0x8048000 0xfffffffe).map (fun r => (r.1.copied, r.2.read)) =
    some ([], [0xfffffffe, -2]) := rfl

end Pintos.UserMemory
