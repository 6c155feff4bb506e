import Pintos.Library.Steps
import Pintos.Kernel.BitmapProofs
import Pintos.Userprog.UserMemory

/-! The page allocator (`threads/palloc.c`).

The memory above 1 MB is cut into the kernel pool and the user pool. Each begins with the pages of its
own bitmap, which has one bit for every page after them. The calls on a pool run one after the other,
so its lock is left out; the memory is that of all pages, by kernel virtual address. -/
namespace Pintos.Palloc

open Kernel UserMemory Steps

/-- The pages of memory (`threads/start.S`), from the kilobytes above 1 MB that the BIOS leaves in `ax`. -/
def initRamPages (ax : UInt16) : Nat := min (ax.toNat + 1024) 0x10000 / 4

def pgNo (va : Nat) : Nat := va / pgSize

def divRoundUp (x step : Nat) : Nat := (x + step - 1) / step

/-- The bytes of a bitmap with its header. -/
def bitmapBufSize (bitCnt : Nat) : Nat := 8 + byteCnt bitCnt

inductive Fault where
  | panic
  | assert
  | notReached
deriving Repr, DecidableEq

/-- An `ASSERT`. -/
def check (cond : Bool) : Except Fault Unit := if cond then .ok () else .error .assert

/-- A memory pool. The bitmap lies at `usedMapAt`. -/
structure Pool where
  usedMap : Bitmap
  usedMapAt : Nat
  base : Nat
deriving Repr, DecidableEq

def initPool (base pageCnt : Nat) : Except Fault Pool :=
  let bmPages := divRoundUp (bitmapBufSize pageCnt) pgSize
  if bmPages > pageCnt then .error .panic
  else
    let pageCnt := pageCnt - bmPages
    do
      check (bitmapBufSize pageCnt ≤ bmPages * pgSize)
      return ⟨.create pageCnt, base, base + bmPages * pgSize⟩

structure Pools where
  kernelPool : Pool
  userPool : Pool
  mem : Bytes

/-- The pool that the flag `PAL_USER` selects. -/
def Pools.pool (ps : Pools) (user : Bool) : Pool := if user then ps.userPool else ps.kernelPool

@[simp] theorem Pools.pool_false (ps : Pools) : ps.pool false = ps.kernelPool := rfl
@[simp] theorem Pools.pool_true (ps : Pools) : ps.pool true = ps.userPool := rfl

def Pools.update (ps : Pools) (user : Bool) (usedMap : Bitmap) (mem : Bytes) : Pools :=
  if user then { ps with userPool.usedMap := usedMap, mem } else { ps with kernelPool.usedMap := usedMap, mem }

def freeStart : Nat := ptov (1024 * 1024)

def pallocInit (ramPages userPageLimit : Nat) (mem : Bytes) : Except Fault Pools := do
  let freeEnd := ptov (ramPages * pgSize)
  let freePages := (freeEnd - freeStart) / pgSize
  let userPages := freePages / 2
  let userPages := if userPages > userPageLimit then userPageLimit else userPages
  let kernelPages := freePages - userPages
  let kernelPool ← initPool freeStart kernelPages
  let userPool ← initPool (freeStart + kernelPages * pgSize) userPages
  return ⟨kernelPool, userPool, mem⟩

structure Flags where
  assert : Bool := false
  zero : Bool := false
  user : Bool := false
deriving Repr, DecidableEq

def pallocGetMultiple (ps : Pools) (flags : Flags) (pageCnt : Nat) : Except Fault (Option Nat × Pools) :=
  let pool := ps.pool flags.user
  if pageCnt = 0 then .ok (none, ps)
  else
    match pool.usedMap.scanAndFlip 0 pageCnt false with
    | some (pageIdx, usedMap) =>
      let pages := pool.base + pgSize * pageIdx
      let mem := if flags.zero then ps.mem.patch pages (pgSize * pageCnt) fun _ => 0 else ps.mem
      .ok (some pages, ps.update flags.user usedMap mem)
    | none => if flags.assert then .error .panic else .ok (none, ps)

def pageFromPool (pool : Pool) (page : Nat) : Bool :=
  let startPage := pgNo pool.base
  let endPage := startPage + pool.usedMap.bitCnt
  pgNo page ≥ startPage && pgNo page < endPage

/-- The pool that a page belongs to. -/
def poolOf (ps : Pools) (page : Nat) : Except Fault Bool :=
  if pageFromPool ps.kernelPool page then .ok false
  else if pageFromPool ps.userPool page then .ok true
  else .error .notReached

def pallocFreeMultiple (ps : Pools) (pages pageCnt : Nat) : Except Fault Pools := do
  check (pgOfs pages = 0)
  if pages = 0 ∨ pageCnt = 0 then return ps
  else
    let user ← poolOf ps pages
    let pool := ps.pool user
    let pageIdx := pgNo pages - pgNo pool.base
    let mem := ps.mem.patch pages (pgSize * pageCnt % 2 ^ 32) fun _ => 0xcc
    check (pageIdx ≤ pool.usedMap.bitCnt && (pageIdx + pageCnt) % 2 ^ 32 ≤ pool.usedMap.bitCnt)
    check (pool.usedMap.all pageIdx pageCnt)
    return ps.update user (pool.usedMap.setMultiple pageIdx pageCnt false) mem

/-! ### Runs -/

/-- The pages a call has handed out. -/
structure Block where
  user : Bool
  pages : Nat
  pageCnt : Nat
deriving Repr, DecidableEq

/-- The allocator with the blocks that have not been freed. -/
structure State where
  pools : Pools
  live : List Block

inductive Act where
  | get (flags : Flags) (pageCnt : Nat)
  | free (pages pageCnt : Nat)

def step : Act → State → Except Fault State
  | .get flags pageCnt, s => do
    let (pages, pools) ← pallocGetMultiple s.pools flags pageCnt
    match pages with
    | some pages => return ⟨pools, ⟨flags.user, pages, pageCnt⟩ :: s.live⟩
    | none => return ⟨pools, s.live⟩
  | .free pages pageCnt, s => do
    let pools ← pallocFreeMultiple s.pools pages pageCnt
    return ⟨pools, s.live.filter (·.pages ≠ pages)⟩

/-- A free takes a whole block. -/
def FreesBlock : Act → State → Prop
  | .get .., _ => True
  | .free pages pageCnt, s => ∃ b ∈ s.live, b.pages = pages ∧ b.pageCnt = pageCnt

instance : ∀ (a : Act) (s : State), Decidable (FreesBlock a s)
  | .get .., _ => .isTrue trivial
  | .free .., s => inferInstanceAs (Decidable (∃ b ∈ s.live, _))

def Boots (ramPages userPageLimit : Nat) (s : State) : Prop :=
  ∃ mem, pallocInit ramPages userPageLimit mem = .ok s.pools ∧ s.live = []

/-! ### Where the pools lie -/

section
variable {ps : Pools} {pool : Pool} {ramPages userPageLimit base pageCnt k : Nat} {user : Bool} {mem : Bytes}

/-- The two bitmaps and the two pools, one after the other in the free memory. -/
structure Laid (ramPages : Nat) (ps : Pools) : Prop where
  start : freeStart ≤ ps.kernelPool.usedMapAt
  mapOf (user : Bool) : (ps.pool user).usedMapAt + bitmapBufSize (ps.pool user).usedMap.bitCnt ≤ (ps.pool user).base
  between : ps.kernelPool.base + pgSize * ps.kernelPool.usedMap.bitCnt ≤ ps.userPool.usedMapAt
  limit : ps.userPool.base + pgSize * ps.userPool.usedMap.bitCnt ≤ ptov (ramPages * pgSize)
  aligned (user : Bool) : (ps.pool user).usedMapAt % pgSize = 0 ∧ (ps.pool user).base % pgSize = 0

theorem check_ok {cond : Bool} : check cond = .ok () ↔ cond = true := by
  cases cond <;> simp [check]

theorem initPool_ok (h : initPool base pageCnt = .ok pool) :
    ∃ bmPages, pool.usedMap.bitCnt + bmPages = pageCnt ∧ bitmapBufSize pool.usedMap.bitCnt ≤ bmPages * pgSize ∧
      pool.usedMap = .create pool.usedMap.bitCnt ∧ pool.usedMapAt = base ∧ pool.base = base + bmPages * pgSize := by
  unfold initPool at h
  dsimp only at h
  split at h
  · cases h
  · rename_i hle
    obtain ⟨_, hfits, h⟩ := bind_ok.mp h
    cases h
    exact ⟨_, Nat.sub_add_cancel (by omega), of_decide_eq_true (check_ok.mp hfits), rfl, rfl, rfl⟩

theorem pallocInit_ok (h : pallocInit ramPages userPageLimit mem = .ok ps) (hram : 256 ≤ ramPages) :
    Laid ramPages ps ∧ ∀ user k, (ps.pool user).usedMap.test k = false := by
  unfold pallocInit at h
  have hfree : (ptov (ramPages * pgSize) - freeStart) / pgSize = ramPages - 256 := by
    unfold ptov freeStart ptov physBase pgSize
    omega
  have hend : ptov (ramPages * pgSize) = freeStart + (ramPages - 256) * pgSize := by
    unfold ptov freeStart ptov physBase pgSize
    omega
  have hstart : freeStart % pgSize = 0 := by decide
  simp only [hfree] at h
  obtain ⟨kernelPool, hk, h⟩ := bind_ok.mp h
  obtain ⟨userPool, hu, h⟩ := bind_ok.mp h
  cases h
  obtain ⟨kernelMap, hk1, hk2, hk3, hk4, hk5⟩ := initPool_ok hk
  obtain ⟨userMap, hu1, hu2, hu3, hu4, hu5⟩ := initPool_ok hu
  have hsplit : (if (ramPages - 256) / 2 > userPageLimit then userPageLimit else (ramPages - 256) / 2) ≤
      ramPages - 256 := by
    split <;> omega
  generalize (if (ramPages - 256) / 2 > userPageLimit then userPageLimit else (ramPages - 256) / 2) = userPages at *
  constructor
  · constructor
    · exact hk4.ge
    · simp only [Bool.forall_bool, Pools.pool_false, Pools.pool_true]
      omega
    all_goals
      simp only [Bool.forall_bool, Pools.pool_false, Pools.pool_true]
      unfold pgSize at *
      omega
  · simp only [Bool.forall_bool, Pools.pool_false, Pools.pool_true]
    rw [hk3, hu3]
    exact ⟨Bitmap.test_create _, Bitmap.test_create _⟩

/-- A call changes only the bits of a pool, not where it lies. -/
structure Pool.Keeps (pool pool' : Pool) : Prop where
  usedMapAt : pool'.usedMapAt = pool.usedMapAt
  base : pool'.base = pool.base
  bitCnt : pool'.usedMap.bitCnt = pool.usedMap.bitCnt

theorem Laid.keeps {ps' : Pools} (h : Laid ramPages ps) (hk : ∀ user, (ps.pool user).Keeps (ps'.pool user)) :
    Laid ramPages ps' := by
  obtain ⟨k1, k2, k3⟩ := hk false
  obtain ⟨u1, u2, u3⟩ := hk true
  simp only [Pools.pool_false, Pools.pool_true] at k1 k2 k3 u1 u2 u3
  refine ⟨by rw [k1]; exact h.start, fun user => ?_, by rw [k2, k3, u1]; exact h.between, by rw [u2, u3]; exact h.limit,
    fun user => ?_⟩
  · rw [(hk user).usedMapAt, (hk user).bitCnt, (hk user).base]
    exact h.mapOf user
  · rw [(hk user).usedMapAt, (hk user).base]
    exact h.aligned user

theorem pool_update (ps : Pools) (user user' : Bool) (b : Bitmap) (mem : Bytes) :
    (ps.update user b mem).pool user' = if user' = user then { ps.pool user with usedMap := b } else ps.pool user' := by
  cases user <;> cases user' <;> rfl

theorem keeps_update {b : Bitmap} (mem : Bytes) (hb : b.bitCnt = (ps.pool user).usedMap.bitCnt) (user' : Bool) :
    (ps.pool user').Keeps ((ps.update user b mem).pool user') := by
  rw [pool_update]
  by_cases he : user' = user
  · rw [if_pos he, he]
    exact ⟨rfl, rfl, hb⟩
  · rw [if_neg he]
    exact ⟨rfl, rfl, rfl⟩

/-! ### The two calls -/

/-- From `idx` on there are `cnt` clear bits. -/
def ClearRun (b : Bitmap) (idx cnt : Nat) : Prop := idx + cnt ≤ b.bitCnt ∧ ∀ j < cnt, b.test (idx + j) = false

/-- What an allocation can do. -/
theorem pallocGetMultiple_cases (ps : Pools) (flags : Flags) (cnt : Nat) :
    (cnt = 0 ∧ pallocGetMultiple ps flags cnt = .ok (none, ps)) ∨
    (0 < cnt ∧ (∀ idx, ¬ ClearRun (ps.pool flags.user).usedMap idx cnt) ∧
      pallocGetMultiple ps flags cnt = if flags.assert then .error .panic else .ok (none, ps)) ∨
    (0 < cnt ∧ ∃ idx mem, ClearRun (ps.pool flags.user).usedMap idx cnt ∧
      pallocGetMultiple ps flags cnt = .ok (some ((ps.pool flags.user).base + pgSize * idx),
        ps.update flags.user ((ps.pool flags.user).usedMap.setMultiple idx cnt true) mem)) := by
  unfold pallocGetMultiple
  by_cases h0 : cnt = 0
  · exact .inl ⟨h0, by rw [if_pos h0]⟩
  · right
    simp only [if_neg h0]
    have hscan := Bitmap.scanAndFlip_run (ps.pool flags.user).usedMap cnt
    cases hs : (ps.pool flags.user).usedMap.scanAndFlip 0 cnt false with
    | none =>
      rw [hs] at hscan
      refine .inl ⟨by omega, fun idx hrun => ?_, rfl⟩
      have hnone := Bitmap.contains_eq_false (v := true).mpr hrun.2
      rw [hscan idx hrun.1] at hnone
      cases hnone
    | some r =>
      rw [hs] at hscan
      obtain ⟨hle, hfree, -, hset⟩ := hscan
      exact .inr ⟨by omega, r.1, _, ⟨hle, Bitmap.contains_eq_false.mp hfree⟩, by rw [← hset]⟩

/-- A page of a pool, by its number. -/
theorem pgNo_page (base k : Nat) : pgNo (base + pgSize * k) = pgNo base + k := by
  unfold pgNo pgSize
  omega

/-- The pages of a pool are found to be its own. -/
theorem poolOf_page (h : Laid ramPages ps) (hk : k < (ps.pool user).usedMap.bitCnt) :
    poolOf ps ((ps.pool user).base + pgSize * k) = .ok user := by
  have hown : pageFromPool (ps.pool user) ((ps.pool user).base + pgSize * k) = true := by
    simp only [pageFromPool, pgNo_page, Bool.and_eq_true, decide_eq_true_eq]
    omega
  cases user with
  | false =>
    rw [Pools.pool_false] at hown ⊢
    rw [poolOf, if_pos hown]
  | true =>
    have hnot : ¬ pageFromPool ps.kernelPool (ps.userPool.base + pgSize * k) = true := by
      have hgap := h.between
      have hmap := h.mapOf true
      rw [Pools.pool_true] at hmap
      simp only [pageFromPool, pgNo_page, Bool.and_eq_true, decide_eq_true_eq]
      unfold pgNo pgSize at *
      omega
    rw [Pools.pool_true] at hown ⊢
    rw [poolOf, if_neg hnot, if_pos hown]

/-- A block whose bits are all set goes back to its pool. -/
theorem pallocFreeMultiple_ok {idx cnt : Nat} (h : Laid ramPages ps) (hcnt : 0 < cnt)
    (hle : idx + cnt ≤ (ps.pool user).usedMap.bitCnt) (hset : ∀ j < cnt, (ps.pool user).usedMap.test (idx + j) = true) :
    ∃ mem, pallocFreeMultiple ps ((ps.pool user).base + pgSize * idx) cnt =
      .ok (ps.update user ((ps.pool user).usedMap.setMultiple idx cnt false) mem) := by
  have hofs : pgOfs ((ps.pool user).base + pgSize * idx) = 0 := by
    rw [pgOfs, Nat.add_mul_mod_self_left]
    exact (h.aligned user).2
  have hnull : ¬ ((ps.pool user).base + pgSize * idx = 0 ∨ cnt = 0) := by
    have := h.mapOf user
    unfold bitmapBufSize at this
    omega
  have hidx : pgNo ((ps.pool user).base + pgSize * idx) - pgNo (ps.pool user).base = idx := by
    rw [pgNo_page]
    omega
  have hrange : idx ≤ (ps.pool user).usedMap.bitCnt ∧ (idx + cnt) % 2 ^ 32 ≤ (ps.pool user).usedMap.bitCnt :=
    ⟨by omega, (Nat.mod_le _ _).trans hle⟩
  have hpool := poolOf_page h (show idx < (ps.pool user).usedMap.bitCnt by omega)
  have hall : (ps.pool user).usedMap.all idx cnt = true := by
    rw [Bitmap.all, Bitmap.contains_eq_false.mpr hset]
    rfl
  refine ⟨ps.mem.patch ((ps.pool user).base + pgSize * idx) (pgSize * cnt % 2 ^ 32) fun _ => 0xcc, ?_⟩
  unfold pallocFreeMultiple
  simp only [hofs, hnull, hpool, hidx, hrange, hall, check, decide_true, Bool.and_true, if_true, if_false, bind,
    Except.bind, pure, Except.pure]

/-! ### Blocks -/

/-- A block in the pages of its pool, from page number `idx` on. -/
def Block.At (ps : Pools) (b : Block) (idx : Nat) : Prop :=
  b.pages = (ps.pool b.user).base + pgSize * idx ∧ idx + b.pageCnt ≤ (ps.pool b.user).usedMap.bitCnt ∧ 0 < b.pageCnt

/-- Two blocks without a common page. -/
def Block.Apart (a b : Block) : Prop :=
  a.pages + pgSize * a.pageCnt ≤ b.pages ∨ b.pages + pgSize * b.pageCnt ≤ a.pages

/-- A page of a pool that is in a block of that pool. -/
def Taken (s : State) (user : Bool) (k : Nat) : Prop :=
  ∃ b ∈ s.live, b.user = user ∧ ∃ idx, b.At s.pools idx ∧ idx ≤ k ∧ k < idx + b.pageCnt

/-- The bits of the pools are the pages of the blocks, and no two blocks share one. -/
structure Sound (ramPages : Nat) (s : State) : Prop where
  laid : Laid ramPages s.pools
  inside : ∀ b ∈ s.live, ∃ idx, b.At s.pools idx
  apart : s.live.Pairwise Block.Apart
  bits (user : Bool) (k : Nat) : (s.pools.pool user).usedMap.test k = true ↔ Taken s user k

variable {s : State} {a b : Block} {idx idx' cnt : Nat}

theorem Block.At.keeps {ps' : Pools} (h : b.At ps idx) (hk : ∀ user, (ps.pool user).Keeps (ps'.pool user)) :
    b.At ps' idx := by
  unfold Block.At at h ⊢
  rw [(hk b.user).base, (hk b.user).bitCnt]
  exact h

/-- Blocks of different pools are apart. -/
theorem Laid.apart (h : Laid ramPages ps) (ha : a.At ps idx) (hb : b.At ps idx') (hne : a.user ≠ b.user) :
    a.Apart b := by
  obtain ⟨ua, pa, ca⟩ := a
  obtain ⟨ub, pb, cb⟩ := b
  obtain ⟨ha1, ha2, -⟩ := ha
  obtain ⟨hb1, hb2, -⟩ := hb
  have hgap := h.between
  have hmap := h.mapOf true
  cases ua <;> cases ub <;> simp only [ne_eq, not_true_eq_false, reduceCtorEq, not_false_eq_true, Pools.pool_true,
    Pools.pool_false] at hne hmap ha1 ha2 hb1 hb2
  · left
    show pa + pgSize * ca ≤ pb
    unfold pgSize at *
    omega
  · right
    show pb + pgSize * cb ≤ pa
    unfold pgSize at *
    omega

/-- Blocks of one pool are apart when no page number is in both. -/
theorem apart_of_pages (ha : a.At ps idx) (hb : b.At ps idx') (hu : a.user = b.user)
    (hno : ∀ k, idx ≤ k → k < idx + a.pageCnt → idx' ≤ k → k < idx' + b.pageCnt → False) : a.Apart b := by
  obtain ⟨ha1, ha2, ha3⟩ := ha
  obtain ⟨hb1, hb2, hb3⟩ := hb
  rw [hu] at ha1
  by_contra hna
  unfold Block.Apart pgSize at *
  exact hno (max idx idx') (by omega) (by omega) (by omega) (by omega)

theorem Block.Apart.no_page (h : a.Apart b) (ha : a.At ps idx) (hb : b.At ps idx') (hu : a.user = b.user) (hk : idx ≤ k)
    (hk' : k < idx + a.pageCnt) (hj : idx' ≤ k) (hj' : k < idx' + b.pageCnt) : False := by
  obtain ⟨ha1, -, -⟩ := ha
  obtain ⟨hb1, -, -⟩ := hb
  rw [hu] at ha1
  unfold Block.Apart pgSize at *
  omega

theorem Pool.Keeps.symm {pool' : Pool} (h : pool.Keeps pool') : pool'.Keeps pool :=
  ⟨h.usedMapAt.symm, h.base.symm, h.bitCnt.symm⟩

theorem Block.At.keeps_iff {ps' : Pools} (hk : ∀ user, (ps.pool user).Keeps (ps'.pool user)) :
    b.At ps' idx ↔ b.At ps idx :=
  ⟨fun h => h.keeps fun user => (hk user).symm, fun h => h.keeps hk⟩

theorem Block.At.idx_eq (h : b.At ps idx) (h' : b.At ps idx') : idx = idx' := by
  have := h.1.symm.trans h'.1
  unfold pgSize at this
  omega

theorem taken_cons {ps' : Pools} (hk : ∀ user, (s.pools.pool user).Keeps (ps'.pool user)) (hb : b.At s.pools idx) :
    Taken ⟨ps', b :: s.live⟩ user k ↔ (user = b.user ∧ idx ≤ k ∧ k < idx + b.pageCnt) ∨ Taken s user k := by
  simp only [Taken, Block.At.keeps_iff hk, List.exists_mem_cons_iff]
  refine or_congr ⟨fun hnew => ?_, fun hin => ⟨hin.1.symm, idx, hb, hin.2⟩⟩ Iff.rfl
  obtain ⟨hu, i, hat, hin⟩ := hnew
  exact ⟨hu.symm, hat.idx_eq hb ▸ hin⟩

/-- The bits after a run of them is set or cleared. -/
theorem test_update (h : idx + cnt ≤ (ps.pool user).usedMap.bitCnt) (v user' : Bool) (k : Nat) :
    ((ps.update user ((ps.pool user).usedMap.setMultiple idx cnt v) mem).pool user').usedMap.test k =
      if user' = user ∧ idx ≤ k ∧ k < idx + cnt then v else (ps.pool user').usedMap.test k := by
  rw [pool_update]
  by_cases hu : user' = user
  · subst hu
    simp only [if_true, true_and, Bitmap.test_setMultiple h]
  · simp only [hu, if_false, false_and]

/-- The blocks after an allocation. -/
theorem Sound.get (h : Sound ramPages s) (hcnt : 0 < cnt) (hrun : ClearRun (s.pools.pool user).usedMap idx cnt) :
    Sound ramPages ⟨s.pools.update user ((s.pools.pool user).usedMap.setMultiple idx cnt true) mem,
      ⟨user, (s.pools.pool user).base + pgSize * idx, cnt⟩ :: s.live⟩ := by
  have hk := keeps_update mem (Bitmap.bitCnt_setMultiple (s.pools.pool user).usedMap idx cnt true)
  have hnew : Block.At s.pools ⟨user, (s.pools.pool user).base + pgSize * idx, cnt⟩ idx := ⟨rfl, hrun.1, hcnt⟩
  refine ⟨h.laid.keeps hk, ?_, ?_, ?_⟩
  · intro b hb
    obtain rfl | hb := List.mem_cons.mp hb
    · exact ⟨idx, hnew.keeps hk⟩
    · obtain ⟨i, hi⟩ := h.inside b hb
      exact ⟨i, hi.keeps hk⟩
  · refine List.pairwise_cons.mpr ⟨fun b hb => ?_, h.apart⟩
    obtain ⟨i, hi⟩ := h.inside b hb
    by_cases hu : user = b.user
    · -- a common page would be clear for the scan and set for the block
      refine apart_of_pages hnew hi hu fun k h1 h2 h3 h4 => ?_
      have hset := (h.bits user k).mpr ⟨b, hb, hu.symm, i, hi, h3, h4⟩
      have hclear := hrun.2 (k - idx) (by simp only at h2; omega)
      grind
    · exact h.laid.apart hnew hi hu
  · intro user' k
    rw [test_update hrun.1, taken_cons hk hnew, ← h.bits user' k]
    grind

instance : Std.Symm Block.Apart := ⟨fun _ _ => Or.symm⟩

/-- A block is known by its first page. -/
theorem Sound.block_eq (h : Sound ramPages s) (ha : a ∈ s.live) (hb : b ∈ s.live) (he : a.pages = b.pages) : a = b := by
  by_contra hne
  obtain ⟨_, -, -, hcnt⟩ := h.inside a ha
  obtain ⟨_, -, -, hcnt'⟩ := h.inside b hb
  have hapart := h.apart.forall ha hb hne
  unfold Block.Apart pgSize at hapart
  omega

/-- The blocks after a free. -/
theorem Sound.free (h : Sound ramPages s) (hb : b ∈ s.live) (hat : b.At s.pools idx) :
    Sound ramPages ⟨s.pools.update b.user ((s.pools.pool b.user).usedMap.setMultiple idx b.pageCnt false) mem,
      s.live.filter (·.pages ≠ b.pages)⟩ := by
  have hk := keeps_update mem (Bitmap.bitCnt_setMultiple (s.pools.pool b.user).usedMap idx b.pageCnt false)
  refine ⟨h.laid.keeps hk, ?_, h.apart.filter _, ?_⟩
  · intro a ha
    obtain ⟨i, hi⟩ := h.inside a (List.mem_of_mem_filter ha)
    exact ⟨i, hi.keeps hk⟩
  · intro user' k
    rw [test_update hat.2.1]
    simp only [Taken, Block.At.keeps_iff hk, List.mem_filter, decide_eq_true_eq]
    split
    · -- the pages of the block were in no other one
      rename_i hin
      simp only [Bool.false_eq_true, false_iff]
      intro htaken
      obtain ⟨a, ⟨ha, hne⟩, hu, i, hi, h1, h2⟩ := htaken
      have hapart := h.apart.forall ha hb fun he => hne (congrArg Block.pages he)
      exact hapart.no_page hi hat (hu.trans hin.1) h1 h2 hin.2.1 hin.2.2
    · -- and whatever holds another page is another block
      rename_i hout
      rw [h.bits user' k]
      refine exists_congr fun a => ⟨fun ha => ?_, fun ha => ⟨ha.1.1, ha.2⟩⟩
      obtain ⟨ha, hu, i, hi, hin⟩ := ha
      refine ⟨⟨ha, fun he => hout ?_⟩, hu, i, hi, hin⟩
      obtain rfl := h.block_eq ha hb he
      exact ⟨hu.symm, hi.idx_eq hat ▸ hin⟩

theorem sound_boots (hram : 256 ≤ ramPages) (h : Boots ramPages userPageLimit s) : Sound ramPages s := by
  obtain ⟨mem, hinit, hlive⟩ := h
  obtain ⟨hlaid, hclear⟩ := pallocInit_ok hinit hram
  refine ⟨hlaid, by simp [hlive], by simp [hlive], fun user k => ?_⟩
  rw [hclear]
  simp [Taken, hlive]

theorem Sound.bits_of_block (h : Sound ramPages s) (hb : b ∈ s.live) (hat : b.At s.pools idx) :
    ∀ j < b.pageCnt, (s.pools.pool b.user).usedMap.test (idx + j) = true :=
  fun j hj => (h.bits b.user (idx + j)).mpr ⟨b, hb, rfl, idx, hat, by omega, by omega⟩

/-- A block that is freed goes back to its own pool. -/
theorem Sound.free_ok (h : Sound ramPages s) (hb : b ∈ s.live) : ∃ idx mem, b.At s.pools idx ∧
    pallocFreeMultiple s.pools b.pages b.pageCnt =
      .ok (s.pools.update b.user ((s.pools.pool b.user).usedMap.setMultiple idx b.pageCnt false) mem) := by
  obtain ⟨idx, hat⟩ := h.inside b hb
  obtain ⟨mem, hok⟩ := pallocFreeMultiple_ok h.laid hat.2.2 hat.2.1 (h.bits_of_block hb hat)
  exact ⟨idx, mem, hat, by rw [hat.1, hok]⟩

theorem sound_step {s' : State} {act : Act} (h : Sound ramPages s) (hc : FreesBlock act s) (hx : step act s = .ok s') :
    Sound ramPages s' := by
  cases act with
  | get flags cnt =>
    obtain ⟨r, hr, hx⟩ := bind_ok.mp hx
    obtain ⟨-, hget⟩ | ⟨-, -, hget⟩ | ⟨hcnt, idx, mem, hrun, hget⟩ := pallocGetMultiple_cases s.pools flags cnt
    · rw [hget] at hr
      cases hr
      cases hx
      exact h
    · rw [hget] at hr
      split at hr <;> cases hr
      cases hx
      exact h
    · rw [hget] at hr
      cases hr
      cases hx
      exact h.get hcnt hrun
  | free pages cnt =>
    obtain ⟨ps, hps, hx⟩ := bind_ok.mp hx
    obtain ⟨b, hb, rfl, rfl⟩ := hc
    obtain ⟨idx, mem, hat, hfree⟩ := h.free_ok hb
    rw [hfree] at hps
    cases hps
    cases hx
    exact h.free hb hat

theorem sound_reach (hram : 256 ≤ ramPages) (hr : Reach step FreesBlock (Boots ramPages userPageLimit) s) :
    Sound ramPages s :=
  hr.invariant (fun _ => sound_boots hram) fun _ _ _ => sound_step

/-- The pool has `cnt` pages in a row that are in no block. -/
def FreeRun (s : State) (user : Bool) (cnt : Nat) : Prop :=
  ∃ idx, idx + cnt ≤ (s.pools.pool user).usedMap.bitCnt ∧ ∀ k, idx ≤ k → k < idx + cnt → ¬ Taken s user k

theorem Sound.clearRun (h : Sound ramPages s) (hf : FreeRun s user cnt) :
    ∃ idx, ClearRun (s.pools.pool user).usedMap idx cnt := by
  obtain ⟨idx, hle, hfree⟩ := hf
  refine ⟨idx, hle, fun j hj => ?_⟩
  have hno := hfree (idx + j) (by omega) (by omega)
  rw [← h.bits] at hno
  exact Bool.eq_false_of_not_eq_true hno

theorem ramPages_ge (ax : UInt16) : 256 ≤ initRamPages ax := by
  unfold initRamPages
  omega

/-- Whatever the memory size, the limit and the calls so far: the pools and their bitmaps lie one after the other in the
free memory, the blocks lie in the pool they were asked from and have no page in common, a block that is freed goes back
to that pool, and a call for some pages is served as long as the pool has them in a row. -/
theorem blocks_stay_apart {ax : UInt16} {userPageLimit : Nat} {s : State}
    (hr : Reach step FreesBlock (Boots (initRamPages ax) userPageLimit) s) :
    Laid (initRamPages ax) s.pools ∧ (∀ b ∈ s.live, ∃ idx, b.At s.pools idx) ∧ s.live.Pairwise Block.Apart ∧
    (∀ b ∈ s.live, ∃ idx ps, b.At s.pools idx ∧ pallocFreeMultiple s.pools b.pages b.pageCnt = .ok ps ∧
      ∀ user, (s.pools.pool user).Keeps (ps.pool user) ∧ ∀ k, (ps.pool user).usedMap.test k =
        if user = b.user ∧ idx ≤ k ∧ k < idx + b.pageCnt then false else (s.pools.pool user).usedMap.test k) ∧
    ∀ flags cnt, 0 < cnt → FreeRun s flags.user cnt →
      ∃ pages ps, pallocGetMultiple s.pools flags cnt = .ok (some pages, ps) := by
  have h := sound_reach (ramPages_ge ax) hr
  refine ⟨h.laid, h.inside, h.apart, fun b hb => ?_, fun flags cnt hcnt hf => ?_⟩
  · obtain ⟨idx, mem, hat, hfree⟩ := h.free_ok hb
    exact ⟨idx, _, hat, hfree, fun user => ⟨keeps_update mem (Bitmap.bitCnt_setMultiple ..) user,
      test_update hat.2.1 false user⟩⟩
  · obtain ⟨idx, hrun⟩ := h.clearRun hf
    obtain ⟨h0, -⟩ | ⟨-, hnone, -⟩ | ⟨-, idx, mem, -, hget⟩ := pallocGetMultiple_cases s.pools flags cnt
    · omega
    · exact absurd hrun (hnone idx)
    · exact ⟨_, _, hget⟩

end

/-- Eight free pages: in each pool three after the page of the bitmap. -/
def smallPools : Pools :=
  ⟨⟨.create 3, freeStart, freeStart + 4096⟩, ⟨.create 3, freeStart + 16384, freeStart + 20480⟩, fun _ => 0⟩

theorem smallPools_boots : Boots (initRamPages 32) 100 ⟨smallPools, []⟩ := by
  have hfree : (ptov (initRamPages 32 * pgSize) - freeStart) / pgSize = 8 := by decide
  have hpool : ∀ base, initPool base 4 = .ok ⟨.create 3, base, base + 4096⟩ := fun _ => rfl
  refine ⟨fun _ => 0, ?_, rfl⟩
  simp only [pallocInit, hfree]
  exact bind_ok.mpr ⟨_, hpool _, bind_ok.mpr ⟨_, hpool _, rfl⟩⟩

/-- Of three blocks the middle one is freed, and the next call gets its page. -/
theorem blocks_stay_apart_three : ∃ s, Reach step FreesBlock (Boots (initRamPages 32) 100) s ∧
    s.live.map Block.pages = [freeStart + 4096, freeStart + 20480 + 4096, freeStart + 20480] ∧
    s.live.Pairwise Block.Apart := by
  obtain ⟨s, hr, hp⟩ : ∃ s, Reach step FreesBlock (Boots (initRamPages 32) 100) s ∧
      s.live.map Block.pages = [freeStart + 4096, freeStart + 20480 + 4096, freeStart + 20480] :=
    Reach.of_after smallPools_boots [.get ⟨false, true, true⟩ 1, .get ⟨false, false, false⟩ 2,
      .get ⟨true, true, true⟩ 2, .free (freeStart + 4096) 2, .get ⟨false, false, false⟩ 3] (by decide +kernel)
  exact ⟨s, hr, hp, (blocks_stay_apart hr).2.2.1⟩

/-- A call for no page gets none, though there is an empty run of free pages. -/
theorem no_pages_no_block : ∃ s, Reach step FreesBlock (Boots (initRamPages 32) 100) s ∧
    pallocGetMultiple s.pools {} 0 = .ok (none, s.pools) ∧ FreeRun s false 0 :=
  ⟨_, .start smallPools_boots, rfl, 0, Nat.zero_le _, fun k _ hk => absurd hk (by omega)⟩

end Pintos.Palloc
