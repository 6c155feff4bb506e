import Mathlib

/-! User memory in system calls (`userprog/syscall.c`, `userprog/pagedir.c`, `threads/vaddr.h`).

The kernel reaches a user address through the page directory of the process: page by page it looks
up the frame and copies the part of the range that lies in it. Addresses are numbers below `2 ^ 32`,
an `int` is an integer, and a page directory is what its non-zero entries point to. The memory of the
frames is a function of kernel virtual addresses; the buffer that is copied to is another page. The
assertions of `pde_get_pt` and `ptov` are in `Pagedir`; `pagedirGetPage_dirAt` says that both agree where they hold. -/
namespace Pintos.UserMemory

def pgSize : Nat := 4096
def physBase : Nat := 0xc0000000
def maxSyscalkArgLength : Nat := 4095

/-- A value as `int` holds it. -/
def int (x : Int) : Int := Int.bmod x (2 ^ 32)

def pgOfs (va : Nat) : Nat := va % pgSize
def pgRoundUp (va : Nat) : Nat := (va + pgSize - 1) % 2 ^ 32 / pgSize * pgSize
def ptNo (va : Nat) : Nat := va / 2 ^ 12 % 2 ^ 10
def pdNo (va : Nat) : Nat := va / 2 ^ 22

def isUserVaddr (va : Nat) : Bool := va < physBase

def ptov (paddr : Nat) : Nat := paddr + physBase

/-- The bit `PTE_P` of an entry. -/
def present (pte : Nat) : Bool := pte % 2 = 1

/-- The frame of an entry, its bits `PTE_ADDR`. -/
def pteGetPage (pte : Nat) : Nat := ptov (pte / 2 ^ 12 * 2 ^ 12)

/-- A page directory: the page tables of its entries that are not zero, each of them the words of its entries. -/
structure PageDir where
  table : Nat → Option (Nat → Nat)

/-- `lookup_page` without `create`. -/
def lookupPage (pd : PageDir) (vaddr : Nat) : Option Nat := (pd.table (pdNo vaddr)).map fun pt => pt (ptNo vaddr)

/-- The kernel address of a user address, which the callers have tested. -/
def pagedirGetPage (pd : PageDir) (uaddr : Nat) : Option Nat :=
  match lookupPage pd uaddr with
  | some pte => if present pte then some (pteGetPage pte + pgOfs uaddr) else none
  | none => none

/-- How much of a range the loops take at once: what is left of the page, or of the range. -/
def curSize (address : Nat) (left : Int) : Int :=
  let inPage : Int := (pgRoundUp (address + 1) - address : Nat)
  if left < inPage then left else inPage

section
variable (pd : PageDir)

/-- The loop of `validate_user_pointer`. Every round sees at least one byte, so `rounds` starts at their number. -/
def validateLoop (size : Int) : Nat → Nat → Int → Bool
  | 0, _, _ => true
  | rounds + 1, currentAddress, seenSize =>
    if seenSize < size then
      if !isUserVaddr currentAddress then false
      else
        let cur := curSize currentAddress (size - seenSize)
        match pagedirGetPage pd currentAddress with
        | none => false
        | some _ => validateLoop size rounds (currentAddress + cur.toNat) (seenSize + cur)
    else true

def validateUserPointer (ptr : Nat) (size : Int) : Bool :=
  if ptr = 0 || !isUserVaddr ptr then false else validateLoop pd size size.toNat ptr 0

variable (mem : Nat → UInt8)

/-- The loop of `copy_user_mem_to_kernel`: the bytes it has put into the buffer, or nothing if it failed. -/
def copyLoop (size : Int) (nullTerminated : Bool) : Nat → Nat → List UInt8 → Option (List UInt8)
  | 0, _, copied => some copied
  | rounds + 1, currentAddress, copied =>
    if (copied.length : Int) < size then
      if !isUserVaddr currentAddress then none
      else
        let cur := curSize currentAddress (size - copied.length)
        match pagedirGetPage pd currentAddress with
        | none => none
        | some kernelAddress =>
          let chunk := (List.range cur.toNat).map fun i => mem (kernelAddress + i)
          if nullTerminated && chunk.contains 0 then some (copied ++ chunk)
          else copyLoop size nullTerminated rounds (currentAddress + cur.toNat) (copied ++ chunk)
    else some copied

def copyUserMemToKernel (src : Nat) (size : Int) (nullTerminated : Bool) : Option (List UInt8) :=
  copyLoop pd mem size nullTerminated size.toNat src []

/-- A kernel buffer, with the user bytes that were copied to it. -/
structure Buffer where
  bytes : Nat → UInt8
  copied : List UInt8

/-- `get_kernel_va_for_user_pointer`. The pages it allocates hold anything before the copy. -/
def getKernelVaForUserPointer (palloc : Nat → Option (Nat → UInt8)) (ptr : Nat) (size : Int) : Option Buffer :=
  let nullTerminated := size = -1
  let size := if nullTerminated then (maxSyscalkArgLength : Int) else size
  if ptr = 0 || !isUserVaddr ptr then none
  else
    let pages := (int (size + pgSize - 1)).tdiv pgSize
    let pages := if pages = 0 then 1 else pages
    match palloc (pages % 2 ^ 32).toNat with
    | none => none
    | some page =>
      match copyUserMemToKernel pd mem ptr size nullTerminated with
      | none => none
      | some copied =>
        let bytes := fun i => copied.getD i (page i)
        some ⟨fun i => if nullTerminated && i = maxSyscalkArgLength then 0 else bytes i, copied⟩

end

/-! ### Pages -/

section
variable {pd : PageDir} {mem : Nat → UInt8} {a c i k left n : Nat}

/-- A user address that the page directory maps. -/
def Mapped (pd : PageDir) (a : Nat) : Prop := a < physBase ∧ (pagedirGetPage pd a).isSome

instance (pd : PageDir) (a : Nat) : Decidable (Mapped pd a) := inferInstanceAs (Decidable (_ ∧ _))

/-- The byte at a user address. -/
def userByte (pd : PageDir) (mem : Nat → UInt8) (a : Nat) : UInt8 := mem ((pagedirGetPage pd a).getD 0)

theorem pgRoundUp_succ (h : a < physBase) : pgRoundUp (a + 1) - a = pgSize - a % pgSize := by
  unfold physBase at h
  unfold pgRoundUp pgSize
  omega

theorem curSize_eq (h : a < physBase) : curSize a left = (min left (pgSize - a % pgSize) : Nat) := by
  unfold curSize
  rw [pgRoundUp_succ h]
  grind

/-- The rest of a page lies in the same frame. -/
theorem page_add (h : a < physBase) (hi : i < pgSize - a % pgSize) :
    a + i < physBase ∧ pdNo (a + i) = pdNo a ∧ ptNo (a + i) = ptNo a ∧ pgOfs (a + i) = pgOfs a + i := by
  simp only [physBase, pgSize, pdNo, ptNo, pgOfs] at *
  omega

theorem pagedirGetPage_add (h : a < physBase) (hi : i < pgSize - a % pgSize) (hk : pagedirGetPage pd a = some k) :
    pagedirGetPage pd (a + i) = some (k + i) := by
  obtain ⟨-, hpd, hpt, hofs⟩ := page_add h hi
  unfold pagedirGetPage lookupPage at hk ⊢
  rw [hpd, hpt, hofs]
  split at hk
  · grind
  · cases hk

theorem mapped_add (h : Mapped pd a) (hi : i < pgSize - a % pgSize) : Mapped pd (a + i) := by
  obtain ⟨ha, hs⟩ := h
  obtain ⟨k, hk⟩ := Option.isSome_iff_exists.mp hs
  refine ⟨(page_add ha hi).1, ?_⟩
  rw [pagedirGetPage_add ha hi hk]
  rfl

/-- A range is mapped if the part of it that lies in the first page is, and the rest. -/
theorem mapped_split (h : Mapped pd a) (hc : c ≤ pgSize - a % pgSize) :
    (∀ i < c + n, Mapped pd (a + i)) ↔ ∀ i < n, Mapped pd (a + c + i) := by
  constructor
  · intro hall i hi
    rw [Nat.add_assoc]
    exact hall (c + i) (by omega)
  · intro hrest i hi
    by_cases hic : i < c
    · exact mapped_add h (by omega)
    · have := hrest (i - c) (by omega)
      rwa [Nat.add_assoc, Nat.add_sub_cancel' (by omega)] at this

/-- The part of a range that lies in the first page, as it is copied. -/
theorem chunk_eq (ha : a < physBase) (hk : pagedirGetPage pd a = some k) (hc : c ≤ pgSize - a % pgSize) :
    (List.range c).map (fun i => mem (k + i)) = (List.range c).map fun i => userByte pd mem (a + i) := by
  apply List.map_congr_left
  intro i hi
  rw [userByte, pagedirGetPage_add ha (by have := List.mem_range.mp hi; omega) hk]
  rfl

/-- What a round of the loops comes across: an address that is not mapped, or the part of the range that lies in
its page. -/
theorem round_cases (pd : PageDir) (a left : Nat) (hleft : 0 < left) :
    ((isUserVaddr a = false ∨ isUserVaddr a = true ∧ pagedirGetPage pd a = none) ∧ ¬ Mapped pd a) ∨
      ∃ k c n, isUserVaddr a = true ∧ pagedirGetPage pd a = some k ∧ Mapped pd a ∧ left = c + n ∧ 0 < c ∧
        c ≤ pgSize - a % pgSize ∧ curSize a left = c := by
  cases hu : isUserVaddr a with
  | false =>
    refine .inl ⟨.inl rfl, fun hm => ?_⟩
    simp only [isUserVaddr, decide_eq_false_iff_not] at hu
    exact hu hm.1
  | true =>
    have ha : a < physBase := of_decide_eq_true hu
    cases hk : pagedirGetPage pd a with
    | none =>
      refine .inl ⟨.inr ⟨rfl, rfl⟩, fun hm => ?_⟩
      simp [Mapped, hk] at hm
    | some k =>
      have hmod := Nat.mod_lt a (show 0 < pgSize by decide)
      refine .inr ⟨k, min left (pgSize - a % pgSize), left - min left (pgSize - a % pgSize), rfl, rfl, ⟨ha, ?_⟩,
        by omega, by omega, by omega, curSize_eq ha⟩
      rw [hk]
      rfl

/-! ### Ranges -/

theorem not_range (left : Nat) (hleft : 0 < left) (h : ¬ Mapped pd a) : ¬ ∀ i < left, Mapped pd (a + i) :=
  fun hall => h (hall 0 hleft)

/-- The loop of `validate_user_pointer` says whether the rest of the range is mapped. -/
theorem validateLoop_eq {size : Int} : ∀ (rounds : Nat) {a : Nat} {seen : Int} (left : Nat), size - seen = left →
    left ≤ rounds → (validateLoop pd size rounds a seen = true ↔ ∀ i < left, Mapped pd (a + i))
  | 0, a, seen, left, hleft, hle => by simp [validateLoop, Nat.le_zero.mp hle]
  | rounds + 1, a, seen, left, hleft, hle => by
    unfold validateLoop
    by_cases hlt : seen < size
    · rw [if_pos hlt, hleft]
      rcases round_cases pd a left (by omega) with ⟨hu | ⟨hu, hk⟩, hnot⟩ | ⟨k, c, n, hu, hk, hm, rfl, h0, hc, hcur⟩
      · simpa [hu] using not_range left (by omega) hnot
      · simpa [hu, hk] using not_range left (by omega) hnot
      · simp only [hu, hk, hcur, Bool.not_true, Bool.false_eq_true, if_false, Int.toNat_natCast]
        rw [validateLoop_eq rounds n (by omega) (by omega), mapped_split hm hc]
    · grind

/-- The loop of `copy_user_mem_to_kernel` copies the rest of the range if it is mapped, and fails otherwise. -/
theorem copyLoop_eq {size : Int} : ∀ (rounds : Nat) {a : Nat} {copied : List UInt8} (left : Nat),
    size - copied.length = left → left ≤ rounds →
    copyLoop pd mem size false rounds a copied =
      if ∀ i < left, Mapped pd (a + i) then some (copied ++ (List.range left).map fun i => userByte pd mem (a + i))
      else none
  | 0, a, copied, left, hleft, hle => by simp [copyLoop, Nat.le_zero.mp hle]
  | rounds + 1, a, copied, left, hleft, hle => by
    unfold copyLoop
    by_cases hlt : (copied.length : Int) < size
    · rw [if_pos hlt, hleft]
      rcases round_cases pd a left (by omega) with ⟨hu | ⟨hu, hk⟩, hnot⟩ | ⟨k, c, n, hu, hk, hm, rfl, h0, hc, hcur⟩
      · rw [if_neg (not_range left (by omega) hnot), hu]
        rfl
      · rw [if_neg (not_range left (by omega) hnot), hu, hk]
        rfl
      · simp only [hu, hk, hcur, Bool.not_true, Bool.false_eq_true, if_false, Int.toNat_natCast, Bool.false_and]
        rw [copyLoop_eq rounds n (by simp; omega) (by omega), chunk_eq hm.1 hk hc, List.range_add, List.map_append,
          List.append_assoc, List.map_map]
        simp only [mapped_split hm hc, Function.comp_def, Nat.add_assoc]
    · grind

/-! ### Strings -/

/-- The C string at a user address, cut off after `n` characters, has `m` of them: they are mapped and not NUL, and
unless the string is cut off a mapped NUL follows. -/
structure StringLength (pd : PageDir) (mem : Nat → UInt8) (a n m : Nat) : Prop where
  short : m ≤ n
  chars : ∀ i < m, Mapped pd (a + i) ∧ userByte pd mem (a + i) ≠ 0
  ends : m < n → Mapped pd (a + m) ∧ userByte pd mem (a + m) = 0

theorem StringLength.mapped {m : Nat} (h : StringLength pd mem a n m) (hn : 0 < n) : Mapped pd a := by
  rcases Nat.eq_zero_or_pos m with rfl | hm
  · exact (h.ends hn).1
  · exact (h.chars 0 hm).1

/-- A NUL in the first page. -/
theorem stringLength_page (h : Mapped pd a) (hc : c ≤ pgSize - a % pgSize)
    (h0 : ∃ i < c, userByte pd mem (a + i) = 0) : ∃ m < c, StringLength pd mem a (c + n) m := by
  obtain ⟨⟨hlt, hzero⟩, hmin⟩ := And.intro (Nat.find_spec h0) fun i => Nat.find_min h0 (m := i)
  refine ⟨Nat.find h0, hlt, by omega, ?_, ?_⟩
  · intro i hi
    refine ⟨mapped_add h (by omega), fun hz => hmin i hi ⟨by omega, hz⟩⟩
  · intro _
    exact ⟨mapped_add h (by omega), hzero⟩

/-- No NUL in the first page: the string goes on. -/
theorem stringLength_add (h : Mapped pd a) (hc : c ≤ pgSize - a % pgSize)
    (h0 : ∀ i < c, userByte pd mem (a + i) ≠ 0) {m : Nat} :
    StringLength pd mem a (c + n) m ↔ c ≤ m ∧ StringLength pd mem (a + c) n (m - c) := by
  constructor
  · intro hs
    have hle : c ≤ m := by
      by_contra hlt
      have hlt : m < c := by omega
      exact h0 m hlt (hs.ends (by omega)).2
    refine ⟨hle, by have := hs.short; omega, ?_, ?_⟩
    · intro i hi
      rw [Nat.add_assoc]
      exact hs.chars (c + i) (by omega)
    · intro hlt
      rw [Nat.add_assoc, Nat.add_sub_cancel' hle]
      exact hs.ends (by omega)
  · rintro ⟨hle, hs⟩
    refine ⟨by have := hs.short; omega, ?_, ?_⟩
    · intro i hi
      by_cases hic : i < c
      · exact ⟨mapped_add h (by omega), h0 i hic⟩
      · have := hs.chars (i - c) (by omega)
        rwa [Nat.add_assoc, Nat.add_sub_cancel' (by omega)] at this
    · intro hlt
      have := hs.ends (by omega)
      rwa [Nat.add_assoc, Nat.add_sub_cancel' hle] at this

/-- In string mode the loop copies pages up to the one with the NUL in it, or to the end of the range. -/
theorem copyLoop_string (size : Int) : ∀ (rounds a : Nat) (copied : List UInt8) (left : Nat),
    size - copied.length = left → left ≤ rounds →
    (copyLoop pd mem size true rounds a copied = none ∧ ∀ m, ¬ StringLength pd mem a left m) ∨
    ∃ m len, StringLength pd mem a left m ∧ len ≤ left ∧ (m < len ∨ m = left ∧ m = len) ∧
      copyLoop pd mem size true rounds a copied =
        some (copied ++ (List.range len).map fun i => userByte pd mem (a + i))
  | 0, a, copied, left, hleft, hle => by
    rw [Nat.le_zero.mp hle]
    exact .inr ⟨0, 0, ⟨le_rfl, by simp, by simp⟩, le_rfl, .inr ⟨rfl, rfl⟩, by simp [copyLoop]⟩
  | rounds + 1, a, copied, left, hleft, hle => by
    unfold copyLoop
    by_cases hlt : (copied.length : Int) < size
    · rw [if_pos hlt, hleft]
      rcases round_cases pd a left (by omega) with ⟨hu | ⟨hu, hk⟩, hnot⟩ | ⟨k, c, n, hu, hk, hm, rfl, h0, hc, hcur⟩
      · exact .inl ⟨by rw [hu]; rfl, fun _ hs => hnot (hs.mapped (by omega))⟩
      · exact .inl ⟨by rw [hu, hk]; rfl, fun _ hs => hnot (hs.mapped (by omega))⟩
      · simp only [hu, hk, hcur, Bool.not_true, Bool.false_eq_true, if_false, Int.toNat_natCast, Bool.true_and,
          chunk_eq hm.1 hk hc]
        by_cases hnul : ∃ i < c, userByte pd mem (a + i) = 0
        · obtain ⟨m, hmc, hs⟩ := stringLength_page (n := n) hm hc hnul
          refine .inr ⟨m, c, hs, by omega, .inl hmc, if_pos ?_⟩
          rw [List.contains_iff_mem, List.mem_map]
          obtain ⟨i, hi, hz⟩ := hnul
          exact ⟨i, List.mem_range.mpr hi, hz⟩
        · have hno : ∀ i < c, userByte pd mem (a + i) ≠ 0 := fun i hi hz => hnul ⟨i, hi, hz⟩
          rw [if_neg]
          · rcases copyLoop_string size rounds (a + c)
              (copied ++ (List.range c).map fun i => userByte pd mem (a + i)) n (by simp; omega) (by omega)
              with ⟨hnone, hnos⟩ | ⟨m, len, hs, hlen, hml, hsome⟩
            · exact .inl ⟨hnone, fun m hs => hnos _ ((stringLength_add hm hc hno).mp hs).2⟩
            · refine .inr ⟨c + m, c + len, (stringLength_add hm hc hno).mpr ⟨by omega, ?_⟩, by omega, by omega, ?_⟩
              · rwa [Nat.add_sub_cancel_left]
              · rw [hsome, List.range_add, List.map_append, List.append_assoc, List.map_map]
                simp only [Function.comp_def, Nat.add_assoc]
          · rw [List.contains_iff_mem, List.mem_map]
            rintro ⟨i, hi, hz⟩
            exact hno i (List.mem_range.mp hi) hz
    · rw [if_neg hlt]
      have hzero : left = 0 := by omega
      subst hzero
      exact .inr ⟨0, 0, ⟨le_rfl, by simp, by simp⟩, le_rfl, .inr ⟨rfl, rfl⟩, by simp⟩

/-- The C string in a page. -/
def cString (bytes : Nat → UInt8) : List UInt8 := ((List.range pgSize).map bytes).takeWhile (· != 0)

theorem cString_eq {bytes : Nat → UInt8} {m : Nat} (hm : m < pgSize) (hchars : ∀ i < m, bytes i ≠ 0) (hend : bytes m = 0) :
    cString bytes = (List.range m).map bytes := by
  obtain ⟨n, hn⟩ : ∃ n, pgSize = m + (n + 1) := ⟨pgSize - m - 1, by omega⟩
  have hrest : (List.range (n + 1)).map (m + ·) = m :: (List.range n).map (fun i => m + (i + 1)) := by
    rw [List.range_succ_eq_map, List.map_cons, List.map_map]
    rfl
  rw [cString, hn, List.range_add, hrest, List.map_append, List.takeWhile_append_of_pos]
  · simp [hend]
  · grind

/-- A page with a string copied to it, and its last byte set to NUL. -/
def stringPage (page : Nat → UInt8) (copied : List UInt8) (i : Nat) : UInt8 :=
  if i = maxSyscalkArgLength then 0 else copied.getD i (page i)

theorem cString_stringPage {len m : Nat} {page : Nat → UInt8} (hs : StringLength pd mem a maxSyscalkArgLength m)
    (hml : m < len ∨ m = maxSyscalkArgLength ∧ m = len) :
    cString (stringPage page ((List.range len).map fun i => userByte pd mem (a + i))) =
      (List.range m).map fun i => userByte pd mem (a + i) := by
  have hmax : maxSyscalkArgLength < pgSize := by decide
  have hshort := hs.short
  have hcopied : ∀ i < len, i ≠ maxSyscalkArgLength →
      stringPage page ((List.range len).map fun i => userByte pd mem (a + i)) i = userByte pd mem (a + i) := by
    intro i hi hne
    rw [stringPage, if_neg hne]
    simp [List.getD, hi]
  rw [cString_eq (m := m) (by omega)]
  · exact List.map_congr_left fun i hi => by
      grind
  · intro i hi
    rw [hcopied i (by omega) (by omega)]
    exact (hs.chars i hi).2
  · by_cases hlast : m = maxSyscalkArgLength
    · exact if_pos hlast
    · rw [hcopied m (by omega) hlast]
      exact (hs.ends (by omega)).2

/-- Asked for a string, `get_kernel_va_for_user_pointer` takes one page. -/
theorem getKernelVa_string {palloc : Nat → Option (Nat → UInt8)} (h0 : a ≠ 0) (hu : a < physBase) :
    getKernelVaForUserPointer pd mem palloc a (-1) =
      (palloc 1).bind fun page => (copyUserMemToKernel pd mem a maxSyscalkArgLength true).map fun copied =>
        ⟨stringPage page copied, copied⟩ := by
  have hpages : (int (maxSyscalkArgLength + pgSize - 1)).tdiv pgSize = 1 := by decide
  have huser : isUserVaddr a = true := decide_eq_true hu
  have hone : ((if (1 : Int) = 0 then 1 else 1) % 2 ^ 32 : Int).toNat = 1 := rfl
  unfold getKernelVaForUserPointer
  simp only [decide_true, if_true, h0, decide_false, huser, Bool.not_true, Bool.or_false, Bool.false_eq_true, if_false,
    hpages, Bool.true_and, decide_eq_true_eq, hone]
  cases palloc 1 with
  | none => rfl
  | some page => cases copyUserMemToKernel pd mem a maxSyscalkArgLength true <;> rfl

theorem copyUserMemToKernel_eq {size : Int} (hsize : 0 ≤ size) :
    copyUserMemToKernel pd mem a size false =
      if ∀ i < size.toNat, Mapped pd (a + i) then some ((List.range size.toNat).map fun i => userByte pd mem (a + i))
      else none := by
  rw [copyUserMemToKernel, copyLoop_eq size.toNat size.toNat (by simp [hsize]) le_rfl, List.nil_append]

variable (pd mem) in
/-- The string that is returned, if the user's string is mapped as far as it is read. -/
theorem getKernelVa_cString {palloc : Nat → Option (Nat → UInt8)} {page : Nat → UInt8} (hp : palloc 1 = some page)
    (h0 : a ≠ 0) (hu : a < physBase) :
    (getKernelVaForUserPointer pd mem palloc a (-1) = none ∧ ∀ m, ¬ StringLength pd mem a maxSyscalkArgLength m) ∨
    ∃ b m, getKernelVaForUserPointer pd mem palloc a (-1) = some b ∧ StringLength pd mem a maxSyscalkArgLength m ∧
      cString b.bytes = (List.range m).map fun i => userByte pd mem (a + i) := by
  rw [getKernelVa_string h0 hu, hp, Option.bind_some, copyUserMemToKernel]
  rcases @copyLoop_string pd mem maxSyscalkArgLength maxSyscalkArgLength a [] maxSyscalkArgLength
    (by simp) le_rfl with ⟨hnone, hno⟩ | ⟨m, len, hs, -, hml, hsome⟩
  · exact .inl ⟨by rw [Int.toNat_natCast, hnone]; rfl, hno⟩
  · refine .inr ⟨_, m, by rw [Int.toNat_natCast, hsome]; rfl, hs, ?_⟩
    rw [List.nil_append]
    exact cString_stringPage hs hml

/-- What the kernel reads of user memory. A range is copied if all of it is mapped, and what is copied is what is
there; `validate_user_pointer` says the same of a range that does not start at the null pointer. A string is returned
if it is mapped up to its NUL, or for as many characters as are returned at most. -/
theorem user_memory_read {palloc : Nat → Option (Nat → UInt8)} {page : Nat → UInt8} (hp : palloc 1 = some page)
    {size : Int} (hsize : 0 ≤ size) (src : Nat) :
    (∀ bytes, copyUserMemToKernel pd mem src size false = some bytes ↔
      (∀ i < size.toNat, Mapped pd (src + i)) ∧ bytes = (List.range size.toNat).map fun i => userByte pd mem (src + i)) ∧
    (src ≠ 0 → src < physBase →
      (validateUserPointer pd src size = (copyUserMemToKernel pd mem src size false).isSome) ∧
      ((getKernelVaForUserPointer pd mem palloc src (-1)).isSome ↔
        ∃ m, StringLength pd mem src maxSyscalkArgLength m) ∧
      ∀ b, getKernelVaForUserPointer pd mem palloc src (-1) = some b →
        ∃ m, StringLength pd mem src maxSyscalkArgLength m ∧
          cString b.bytes = (List.range m).map fun i => userByte pd mem (src + i)) := by
  have hcopy := @copyUserMemToKernel_eq pd mem src size hsize
  refine ⟨?_, ?_⟩
  · intro bytes
    rw [hcopy, Option.ite_none_right_eq_some, Option.some.injEq, eq_comm]
  · intro h0 hu
    refine ⟨?_, ?_⟩
    · have hvalid := @validateLoop_eq pd size size.toNat src 0 size.toNat (by simp [hsize]) le_rfl
      rw [Bool.eq_iff_iff, hcopy, validateUserPointer, if_neg (by simp [h0, isUserVaddr, hu]), hvalid]
      split <;> simp_all
    · rcases getKernelVa_cString pd mem hp h0 hu with ⟨hnone, hno⟩ | ⟨b, m, hsome, hs, hstr⟩
      · simp [hnone, hno]
      · simp only [hsome, Option.isSome_some, true_iff, Option.some.injEq, forall_eq']
        exact ⟨⟨m, hs⟩, m, hs, hstr⟩

/-- A process that has the page at `upage` and no other, in the frame at physical address `0x100000`. -/
def onePage (upage : Nat) : PageDir where
  table := fun i => if i = pdNo upage then some fun j => if j = ptNo upage then 0x100007 else 0 else none

/-- Frames that hold a string of three letters at the start of that page, and zeros. -/
def letters (k : Nat) : UInt8 := if 0xc0100000 ≤ k ∧ k < 0xc0100003 then 65 else 0

theorem user_memory_read_one_page :
    validateUserPointer (onePage 0x8048000) 0x8048ffe 3 =
        (copyUserMemToKernel (onePage 0x8048000) letters 0x8048ffe 3 false).isSome ∧
      (getKernelVaForUserPointer (onePage 0x8048000) letters (fun _ => some fun _ => 1) 0x8048000 (-1)).isSome := by
  refine ⟨?_, ?_⟩
  · exact ((@user_memory_read _ _ (fun _ => some fun _ => 1) _ rfl 3 (by decide) _).2 (by decide) (by decide)).1
  · rw [((@user_memory_read _ _ _ _ rfl 0 (by decide) _).2 (by decide) (by decide)).2.1]
    refine ⟨3, by decide, by decide, by decide⟩

/-- The string at the null pointer is not returned, though the page at address 0 may be mapped. -/
theorem null_string_refused : StringLength (onePage 0) (fun _ => 0) 0 maxSyscalkArgLength 0 ∧
    getKernelVaForUserPointer (onePage 0) (fun _ => 0) (fun _ => some fun _ => 1) 0 (-1) = none := by
  refine ⟨⟨by decide, by simp, fun _ => by decide⟩, rfl⟩

end

end Pintos.UserMemory
