import Pintos.Userprog.LoadSegments

/-! The first stack of a process.

`setup_stack` writes the strings downwards from the end of the page and their addresses upwards, through the
kernel's address of the page; the process reads it at its own. The lengths are sums of `uint32_t`: the frame is
right as long as they do not wrap around, which takes strings of 4 GB. -/
namespace Pintos.Load

open UserMemory (pgSize physBase pgOfs isUserVaddr)
open Pagedir
open Bytes (IsString)
open Steps

/-! ### Lengths -/

/-- The bytes of the strings. -/
def stringBytes (argv : List (List UInt8)) : Nat := (argv.map fun arg => arg.length + 1).sum

/-- The frame up to the alignment to 16 bytes, as a number. -/
def frameBytes (argv : List (List UInt8)) : Nat :=
  stringBytes argv + (4 - stringBytes argv % 4) % 4 + 4 * (argv.length + 1) + 12

/-- The length of the layout: the strings and their alignment, the addresses, the three words, and the alignment before
the return address. -/
def layoutLength (argv : List (List UInt8)) : Nat := frameBytes argv + (16 - (frameBytes argv - 4) % 16) % 16

section
variable {ramPages sp esp base rem : Nat} {m m' : Bytes} {argv l : List (List UInt8)} {arg : List UInt8}

theorem lengths (h : stringBytes argv + 4 * argv.length + 34 < 2 ^ 32) :
    frameLen argv = frameBytes argv ∧ stackLength argv = layoutLength argv ∧
      (stackLength argv + 2 ^ 32 - alignBeforeArgs argv) % 2 ^ 32 = frameBytes argv := by
  have hargs : argsLen argv = stringBytes argv := Nat.mod_eq_of_lt (show stringBytes argv < 2 ^ 32 by omega)
  have hframe : frameLen argv = frameBytes argv := by
    unfold frameLen frameBytes
    rw [hargs]
    omega
  have hlow : 4 ≤ frameBytes argv := by
    unfold frameBytes
    omega
  have hhigh : frameBytes argv + 15 < 2 ^ 32 := by
    unfold frameBytes
    omega
  refine ⟨hframe, ?_, ?_⟩
  · unfold stackLength alignBeforeArgs layoutLength
    rw [hframe]
    omega
  · unfold stackLength alignBeforeArgs
    rw [hframe]
    omega

theorem layoutLength_aligned (argv : List (List UInt8)) : (layoutLength argv - 4) % 16 = 0 ∧ 16 + 4 * argv.length ≤ layoutLength argv := by
  unfold layoutLength frameBytes
  omega

/-! ### The frame in the page -/

/-- The offset of a string, from the first one's. -/
def offset (base : Nat) (argv : List (List UInt8)) (i : Nat) : Nat := base + stringBytes (argv.take i)

/-- The strings and their addresses: seen from `sp`, and written down as seen from `esp`. -/
def Written (m : Bytes) (sp esp base : Nat) (argv : List (List UInt8)) : Prop :=
  ∀ i arg, argv[i]? = some arg → m.wordAt (sp + 4 * (3 + i)) = esp + offset base argv i ∧
    IsString m (sp + offset base argv i) arg

theorem stringBytes_append (l l' : List (List UInt8)) : stringBytes (l ++ l') = stringBytes l + stringBytes l' := by
  simp [stringBytes]

theorem stringBytes_cons (arg : List UInt8) (l : List (List UInt8)) :
    stringBytes (arg :: l) = arg.length + 1 + stringBytes l := by
  simp [stringBytes]

theorem stringBytes_reverse (l : List (List UInt8)) : stringBytes l.reverse = stringBytes l := by
  simp [stringBytes, List.map_reverse, List.sum_reverse]

/-- A string ends before the next one begins. -/
theorem offset_next (base : Nat) {i j : Nat} (hij : i < j) (hi : argv[i]? = some arg) :
    offset base argv i + arg.length + 1 ≤ offset base argv j := by
  have hlt := (List.getElem?_eq_some_iff.mp hi).1
  have htake : argv.take j = argv.take i ++ arg :: (argv.take j).drop (i + 1) := by
    have h := List.take_append_drop i (argv.take j)
    rw [List.take_take, Nat.min_eq_left (by omega)] at h
    have hdrop : (argv.take j).drop i = arg :: (argv.take j).drop (i + 1) := by
      have hlen : i < (argv.take j).length := by rw [List.length_take]; omega
      rw [List.drop_eq_getElem_cons hlen, List.getElem_take]
      grind
    rw [hdrop] at h
    exact h.symm
  unfold offset
  rw [htake, stringBytes_append, stringBytes_cons]
  omega

theorem offset_end (base : Nat) {i : Nat} (hi : argv[i]? = some arg) :
    offset base argv i + arg.length + 1 ≤ base + stringBytes argv := by
  have h := offset_next base (List.getElem?_eq_some_iff.mp hi).1 hi
  rwa [offset, offset, List.take_length] at h

/-- The loop over the arguments, of which `l` are left, last one first: they fill the bytes from `base` to `rem`, and
their addresses the words from the third on. -/
theorem pushArgs_spec (base total : Nat) (m : Bytes) (hsp : physBase ≤ sp) (htop : sp + rem ≤ physBase + ramPages * pgSize)
    (h32 : sp + rem ≤ 2 ^ 32) (hesp : esp + rem ≤ 2 ^ 32) (hzero : ∀ arg ∈ l, 0 ∉ arg) (hbase : base + stringBytes l = rem)
    (hlow : 12 + 4 * total ≤ base) (hlen : l.length ≤ total) :
    ∃ m', pushArgs ramPages sp esp l rem m = .ok m' ∧ Written m' sp esp base l.reverse ∧
      ∀ o, (o < sp + 12 ∨ sp + 12 + 4 * l.length ≤ o) → (o < sp + base ∨ sp + rem ≤ o) → m' o = m o := by
  induction l generalizing rem m with
  | nil => exact ⟨m, rfl, fun i arg hi => (by cases hi), fun _ _ _ => rfl⟩
  | cons arg before ih =>
    rw [stringBytes_cons] at hbase
    rw [List.length_cons] at hlen
    have hrem : (rem + 2 ^ 32 - (arg.length + 1) % 2 ^ 32) % 2 ^ 32 = base + stringBytes before := by omega
    have hdst : (sp + (base + stringBytes before)) % 2 ^ 32 = sp + (base + stringBytes before) := by omega
    have haddr : (esp + (base + stringBytes before)) % 2 ^ 32 = esp + (base + stringBytes before) := by omega
    have hin : (inRam ramPages (sp + (base + stringBytes before)) (arg.length + 1) &&
        inRam ramPages (sp + 4 * (3 + before.length)) 4) = true := by
      simp only [inRam, Bool.and_eq_true, decide_eq_true_eq]
      omega
    set m1 := (m.write (sp + (base + stringBytes before)) (arg ++ [0])).setWordAt (sp + 4 * (3 + before.length))
      (esp + (base + stringBytes before)) with hm1
    have hstring : (arg ++ [0]).length = arg.length + 1 := by rw [List.length_append, List.length_singleton]
    have hm1out : ∀ o, (o < sp + 4 * (3 + before.length) ∨ sp + 4 * (3 + before.length) + 4 ≤ o) →
        m1 o = m.write (sp + (base + stringBytes before)) (arg ++ [0]) o := fun o ho => Bytes.setWordAt_outside ho
    obtain ⟨m', hpush, hwritten, hsame⟩ := ih m1 (by omega) (by omega) (by omega)
      (fun a ha => hzero a (List.mem_cons_of_mem _ ha)) rfl (by omega)
    refine ⟨m', ?_, fun i a hi => ?_, fun o ho ho' => ?_⟩
    · rw [pushArgs]
      simp only [hrem, hdst, haddr]
      exact (if_pos hin).trans hpush
    · rw [List.reverse_cons] at hi ⊢
      by_cases hlt : i < before.reverse.length
      · rw [List.getElem?_append_left hlt] at hi
        have hoff : offset base (before.reverse ++ [arg]) i = offset base before.reverse i := by
          rw [offset, offset, List.take_append_of_le_length hlt.le]
        rw [hoff]
        exact hwritten i a hi
      · have hi' : i = before.reverse.length := by
          have := (List.getElem?_eq_some_iff.mp hi).1
          rw [List.length_append, List.length_singleton] at this
          omega
        subst hi'
        rw [List.getElem?_concat_length, Option.some.injEq] at hi
        subst hi
        have hoff : offset base (before.reverse ++ [arg]) before.reverse.length = base + stringBytes before := by
          rw [offset, List.take_left, stringBytes_reverse]
        rw [hoff, List.length_reverse]
        refine ⟨?_, ⟨?_, hzero arg List.mem_cons_self⟩⟩
        · rw [Bytes.wordAt_congr fun o ho ho' => hsame o (by omega) (by omega), hm1, Bytes.wordAt_setWordAt (by omega)]
        · refine (Bytes.spells_write m (sp + (base + stringBytes before)) (arg ++ [0])).congr fun o ho ho' => ?_
          rw [hsame o (by omega) (by omega), hm1out o (by omega)]
    · rw [List.length_cons] at ho
      rw [hsame o (by omega) (by omega), hm1out o (by omega)]
      exact Bytes.write_outside (by omega)

/-- What `setup_stack` writes in its page. -/
structure Framed (m : Bytes) (sp esp base : Nat) (argv : List (List UInt8)) : Prop where
  ret : m.wordAt sp = 0
  argc : m.wordAt (sp + 4) = argv.length
  argvWord : m.wordAt (sp + 8) = esp + 12
  args : Written m sp esp base argv
  null : m.wordAt (sp + 4 * (3 + argv.length)) = 0

theorem Written.congr (h : Written m sp esp base argv) (hlow : 12 ≤ base)
    (hm : ∀ o, sp + 12 ≤ o → m' o = m o) : Written m' sp esp base argv := by
  intro i arg hi
  obtain ⟨hword, hstr⟩ := h i arg hi
  refine ⟨?_, hstr.congr fun o ho _ => hm o (by unfold offset at ho; omega)⟩
  rw [Bytes.wordAt_congr fun o ho _ => hm o (by omega)]
  exact hword

/-- The offset of the first string. -/
def firstString (argv : List (List UInt8)) : Nat := (4 - stringBytes argv % 4) % 4 + 4 * (argv.length + 1) + 12

theorem firstString_add (argv : List (List UInt8)) : firstString argv + stringBytes argv = frameBytes argv := by
  unfold firstString frameBytes
  omega

theorem writeFrame_spec {kpage : Nat} (hk : IsPage ramPages kpage) (hram : ramPages ≤ 2 ^ 18)
    (hsmall : stringBytes argv + 4 * argv.length + 34 < 2 ^ 32) (hzero : ∀ arg ∈ argv, 0 ∉ arg)
    (hfit : layoutLength argv < pgSize) (hpage : ∀ o, InPage kpage o → m o = 0) :
    ∃ m', writeFrame ramPages argv kpage m = .ok m' ∧
      Framed m' (kpage + pgSize - layoutLength argv) (physBase - layoutLength argv) (firstString argv) argv ∧
      ∀ o, ¬ InPage kpage o → m' o = m o := by
  obtain ⟨-, hstack, hframe⟩ := lengths hsmall
  rw [hstack] at hframe
  have hend := hk.end_le hram
  have htop := hk.le_top
  have hle : frameBytes argv ≤ layoutLength argv := Nat.le_add_right ..
  have hfirst := firstString_add argv
  obtain ⟨-, hlen⟩ := layoutLength_aligned argv
  have hlow : 16 + 4 * argv.length ≤ firstString argv := by
    unfold firstString
    omega
  set sp := kpage + pgSize - layoutLength argv with hsp
  set esp := physBase - layoutLength argv with hesp
  have hbottom := hk.2.1
  have hspk : kpage ≤ sp := by omega
  have hspend : sp + layoutLength argv = kpage + pgSize := by omega
  have hphys : pgSize < physBase ∧ physBase < 2 ^ 32 := by decide
  obtain ⟨m1, hpush, hwritten, hsame⟩ := pushArgs_spec (firstString argv) argv.length m
    (show physBase ≤ sp by omega) (show sp + frameBytes argv ≤ physBase + ramPages * pgSize by omega) (by omega)
    (show esp + frameBytes argv ≤ 2 ^ 32 by omega) (fun arg ha => hzero arg (List.mem_reverse.mp ha)) (by rw [stringBytes_reverse]; exact hfirst) (by omega)
    (by rw [List.length_reverse])
  rw [List.reverse_reverse] at hwritten
  rw [List.length_reverse] at hsame
  refine ⟨((m1.setWordAt (sp + 8) (esp + 12)).setWordAt (sp + 4) argv.length).setWordAt sp 0, ?_, ⟨?_, ?_, ?_, ?_, ?_⟩,
    fun o ho => ?_⟩
  · simp only [writeFrame, hstack, hframe, ← hsp, ← hesp, hpush, ok_bind]
    rfl
  · exact Bytes.wordAt_setWordAt (by decide)
  · rw [Bytes.wordAt_setWordAt_apart (by omega), Bytes.wordAt_setWordAt (by omega)]
  · rw [Bytes.wordAt_setWordAt_apart (by omega), Bytes.wordAt_setWordAt_apart (by omega),
      Bytes.wordAt_setWordAt (by omega)]
  · refine hwritten.congr (by omega) fun o ho => ?_
    rw [Bytes.setWordAt_outside (by omega), Bytes.setWordAt_outside (by omega), Bytes.setWordAt_outside (by omega)]
  · have hbytes : ∀ o, sp + 4 * (3 + argv.length) ≤ o → o < sp + 4 * (3 + argv.length) + 4 →
        (((m1.setWordAt (sp + 8) (esp + 12)).setWordAt (sp + 4) argv.length).setWordAt sp 0) o = 0 := by
      intro o ho ho'
      rw [Bytes.setWordAt_outside (by omega), Bytes.setWordAt_outside (by omega), Bytes.setWordAt_outside (by omega),
        hsame o (by omega) (by omega)]
      exact hpage o ⟨by omega, by omega⟩
    exact Bytes.wordAt_congr (m := fun _ => 0) hbytes
  · unfold InPage at ho
    rw [Bytes.setWordAt_outside (by omega), Bytes.setWordAt_outside (by omega), Bytes.setWordAt_outside (by omega)]
    exact hsame o (by omega) (by omega)

end

/-! ### The stack page -/

/-- The number of the page below `PHYS_BASE`. -/
def stackPage : Nat := (physBase - pgSize) / pgSize

section
variable {ramPages initPageDir pd kpage : Nat} {σ : Space} {r : Loader} {argv : List (List UInt8)}

/-- What `setup_stack` can do before it writes: it has no page for the stack, or gives it back; or it has installed a page
of zeros. -/
theorem setupStack_cases (argv : List (List UInt8)) (hh : Holds ramPages pd σ r.state) (hram : ramPages ≤ 2 ^ 18)
    (hinit : pd ≠ initPageDir) :
    setupStack ramPages initPageDir argv pd r = .error .unable ∨
    (∃ r', setupStack ramPages initPageDir argv pd r = .ok (none, r') ∧ Moved ramPages pd σ σ r r' ∧
      Holds ramPages pd σ r'.state) ∨
    ∃ σ' k r', setupStack ramPages initPageDir argv pd r = fillStack ramPages argv k (true, r') ∧
      Moved ramPages pd σ σ' r r' ∧ Holds ramPages pd σ' r'.state ∧ σ'.page stackPage = some k ∧
      ∀ a, InPage k a → r'.state.mem a = 0 := by
  unfold setupStack
  obtain ⟨hget, -, hmoved⟩ | ⟨hget, -⟩ | ⟨kpage, hget, -, hx⟩ := getPage_cases true hh
  · rw [hget]
    exact .inr (.inl ⟨_, rfl, hmoved, hh⟩)
  · rw [hget]
    exact .inl rfl
  rw [hget, ok_bind]
  obtain ⟨hi, -⟩ | ⟨r2, hi, -, hx2⟩ | ⟨σ', r2, hi, hmoved, hh', -, -, hpage, hkeep⟩ :=
    hx.install hh hram hinit true (show physBase - pgSize < physBase by decide) (show pgOfs (physBase - pgSize) = 0 by decide)
  · left
    rw [installStack, hi]
    rfl
  · obtain ⟨hfree, hmoved, hh'⟩ := hx2.free hh
    refine .inr (.inl ⟨_, ?_, hmoved, hh'⟩)
    rw [installStack, hi, ok_bind, fillStack, hfree]
    rfl
  · refine .inr (.inr ⟨σ', kpage, r2, ?_, hmoved, hh', ?_, fun a ha => ?_⟩)
    · rw [installStack, hi, ok_bind]
    · rw [hpage, stackPage, Function.update_self]
    · rw [hkeep a ha]
      exact Bytes.patch_inside r.state.mem (fun _ => 0) ha.1 ha.2

/-- Writing the frame changes the stack page only. -/
theorem holds_frame {k : Nat} {m' : Bytes} (hh : Holds ramPages pd σ r.state) (hk : σ.page stackPage = some k)
    (hm : ∀ o, ¬ InPage k o → m' o = r.state.mem o) : Holds ramPages pd σ { r.state with mem := m' } := by
  obtain ⟨hkp, -⟩ := hh.inUse (.page stackPage) k hk
  refine hh.congr (fun a ha => hm a ?_) (fun i pt ht a ha => hm a ?_) (Finset.Subset.refl _)
  · exact ha.apart hh.pd_page.1.1 hkp.1 fun e => by cases hh.apart (.page stackPage) .dir k hk (e ▸ rfl)
  · exact ha.apart (hh.table_page ht).1.1 hkp.1 fun e => by cases hh.apart (.page stackPage) (.table i) k hk (e ▸ ht)

/-- The bytes of user memory, zero where there is none. -/
def userBytes (ramPages pd : Nat) (s : State) : Bytes := fun va => (byteAt ramPages pd s va).getD 0

/-- The stack of a process that starts, as it reads it: a return address, `argc`, `argv`, and the strings that `argv`
points to, with a null pointer behind their addresses; none of them overlap and all is in the page below `PHYS_BASE`. -/
structure Decodes (u : Bytes) (esp : Nat) (argv : List (List UInt8)) : Prop where
  ret : u.wordAt esp = 0
  argc : u.wordAt (esp + 4) = argv.length
  argvWord : u.wordAt (esp + 8) = esp + 12
  args : ∀ i arg, argv[i]? = some arg → IsString u (u.wordAt (esp + 4 * (3 + i))) arg
  null : u.wordAt (esp + 4 * (3 + argv.length)) = 0
  page : physBase - pgSize ≤ esp
  above : ∀ i arg, argv[i]? = some arg → esp + 4 * (3 + argv.length) + 4 ≤ u.wordAt (esp + 4 * (3 + i)) ∧
    u.wordAt (esp + 4 * (3 + i)) + arg.length + 1 ≤ physBase
  apart : ∀ i j a b, i < j → argv[i]? = some a → argv[j]? = some b →
    u.wordAt (esp + 4 * (3 + i)) + a.length + 1 ≤ u.wordAt (esp + 4 * (3 + j))
  aligned : (esp + 4) % 16 = 0

/-- The frame, read at the addresses of the process. -/
theorem Framed.decodes {m u : Bytes} {sp : Nat} (h : Framed m sp (physBase - layoutLength argv) (firstString argv) argv)
    (hfit : layoutLength argv < pgSize)
    (hu : ∀ j < layoutLength argv, u (physBase - layoutLength argv + j) = m (sp + j)) :
    Decodes u (physBase - layoutLength argv) argv := by
  obtain ⟨halign, hlen⟩ := layoutLength_aligned argv
  have hle : frameBytes argv ≤ layoutLength argv := Nat.le_add_right ..
  have hfirst := firstString_add argv
  have hlow : 16 + 4 * argv.length ≤ firstString argv := by
    unfold firstString
    omega
  have hphys : pgSize < physBase ∧ physBase % 16 = 0 := by decide
  have hword : ∀ j, j + 4 ≤ layoutLength argv →
      u.wordAt (physBase - layoutLength argv + j) = m.wordAt (sp + j) := by
    intro j hj
    refine Bytes.wordAt_shift fun k hk => ?_
    grind
  have hend : ∀ i arg, argv[i]? = some arg → offset (firstString argv) argv i + arg.length + 1 ≤ layoutLength argv := by
    intro i arg hi
    have := offset_end (firstString argv) hi
    omega
  have hptr : ∀ i arg, argv[i]? = some arg → u.wordAt (physBase - layoutLength argv + 4 * (3 + i)) =
      physBase - layoutLength argv + offset (firstString argv) argv i := by
    intro i arg hi
    have hi' := (List.getElem?_eq_some_iff.mp hi).1
    rw [hword _ (by omega)]
    exact (h.args i arg hi).1
  constructor
  · exact (hword 0 (by omega)).trans h.ret
  · exact (hword 4 (by omega)).trans h.argc
  · exact (hword 8 (by omega)).trans h.argvWord
  · intro i arg hi
    rw [hptr i arg hi]
    obtain ⟨hspell, h0⟩ := (h.args i arg hi).2
    refine ⟨Bytes.spells_iff.mpr fun j hj => ?_, h0⟩
    have hbyte := Bytes.spells_iff.mp hspell j hj
    have := hend i arg hi
    rw [List.length_append, List.length_singleton] at hj
    rw [← hbyte, Nat.add_assoc, Nat.add_assoc]
    exact hu (offset (firstString argv) argv i + j) (by omega)
  · exact (hword _ (by omega)).trans h.null
  · omega
  · intro i arg hi
    have := hend i arg hi
    rw [hptr i arg hi]
    unfold offset at *
    omega
  · intro i j a b hij hi hj
    have := offset_next (firstString argv) hij hi
    rw [hptr i a hi, hptr j b hj]
    omega
  · omega

/-- The bytes of the stack page, as the process reads them. -/
theorem userBytes_stack {k : Nat} {s : State} (hh : Holds ramPages pd σ s) (hram : ramPages ≤ 2 ^ 18)
    (hk : σ.page stackPage = some k) {j n : Nat} (hn : n ≤ pgSize) (hj : j < n) :
    userBytes ramPages pd s (physBase - n + j) = s.mem (k + pgSize - n + j) := by
  have hphys : physBase = (stackPage + 1) * pgSize := by decide
  have hpage : (physBase - n + j) / pgSize = stackPage := by
    unfold pgSize at *
    omega
  have hofs : pgOfs (physBase - n + j) = pgSize - n + j := by
    unfold pgOfs
    unfold pgSize at *
    omega
  have hva : physBase - n + j < physBase := by
    unfold pgSize at hn hphys
    omega
  rw [userBytes, byteAt_eq hh hram hva, hpage, hk, Option.map_some, Option.getD_some, hofs]
  congr 1
  omega

/-- Where the stack page is installed: the frame is in it if it fits, and the page is freed if it does not. -/
theorem fillStack_spec {k : Nat} (hh : Holds ramPages pd σ r.state) (hram : ramPages ≤ 2 ^ 18)
    (hk : σ.page stackPage = some k) (hpage : ∀ a, InPage k a → r.state.mem a = 0)
    (hsmall : stringBytes argv + 4 * argv.length + 34 < 2 ^ 32) (hzero : ∀ arg ∈ argv, 0 ∉ arg) :
    (pgSize ≤ layoutLength argv ∧ ∃ r', fillStack ramPages argv k (true, r) = .ok (none, r')) ∨
    layoutLength argv < pgSize ∧ ∃ m', fillStack ramPages argv k (true, r) =
        .ok (some (physBase - layoutLength argv), { r with state.mem := m' }) ∧
      Holds ramPages pd σ { r.state with mem := m' } ∧
      Decodes (userBytes ramPages pd { r.state with mem := m' }) (physBase - layoutLength argv) argv := by
  obtain ⟨-, hstack, -⟩ := lengths hsmall
  obtain ⟨hkp, hku⟩ := hh.inUse (.page stackPage) k hk
  rcases Nat.lt_or_ge (layoutLength argv) pgSize with hfit | hbig
  · obtain ⟨m', hwrite, hframed, hm⟩ := writeFrame_spec hkp hram hsmall hzero hfit hpage
    have hh' := holds_frame hh hk hm
    refine .inr ⟨hfit, m', ?_, hh', ?_⟩
    · rw [fillStack, hstack, if_neg (by omega), hwrite]
      rfl
    · exact hframed.decodes hfit fun j hj => userBytes_stack hh' hram hk hfit.le hj
  · refine .inl ⟨hbig, { r with state := r.state.drop k }, ?_⟩
    rw [fillStack, hstack, if_pos hbig, freePage, pallocFreePage_ok hkp hku]
    rfl

variable {s0 st : State} {s : Session} {answer : Option Nat}

/-- Whatever the process has mapped: where `setup_stack` returns true, the process finds its arguments at the stack
pointer; where the layout does not fit in the page it returns false. -/
theorem stack_decodes (hram : ramPages ≤ 2 ^ 18) (hb : Booted ramPages initPageDir s0)
    (hc : pagedirCreate ramPages initPageDir answer s0 = .ok (some pd, st))
    (hr : Reach (step ramPages initPageDir pd) MapsOnce (Begins st) s) (hs : r.state = s.state)
    (hzero : ∀ arg ∈ argv, 0 ∉ arg) (hsmall : stringBytes argv + 4 * argv.length + 34 < 2 ^ 32) :
    setupStack ramPages initPageDir argv pd r = .error .unable ∨
    ∃ esp r', setupStack ramPages initPageDir argv pd r = .ok (esp, r') ∧
      (∀ sp, esp = some sp → sp = physBase - layoutLength argv ∧ layoutLength argv ≤ pgSize ∧
        Decodes (userBytes ramPages pd r'.state) sp argv) ∧
      (pgSize < layoutLength argv → esp = none) := by
  obtain ⟨σ, hsane⟩ := sane_reach hram hb hc hr
  have hinit : pd ≠ initPageDir := ((hsane.kernel _ (.inl rfl)).2.2.1).symm
  have hh : Holds ramPages pd σ r.state := hs ▸ hsane.holds
  obtain h | ⟨r', h, -, -⟩ | ⟨σ', k, r1, h, -, hh1, hk, hpage⟩ := setupStack_cases argv hh hram hinit
  · exact .inl h
  · exact .inr ⟨none, r', h, fun sp hsp => (by cases hsp), fun _ => rfl⟩
  obtain ⟨hbig, r', hfill⟩ | ⟨hfit, m', hfill, -, hdec⟩ := fillStack_spec hh1 hram hk hpage hsmall hzero
  · exact .inr ⟨none, r', h.trans hfill, fun sp hsp => (by cases hsp), fun _ => rfl⟩
  · refine .inr ⟨_, _, h.trans hfill, fun sp hsp => ?_, fun hbig => by omega⟩
    cases hsp
    exact ⟨rfl, hfit.le, hdec⟩

end

/-- Two arguments in the first process of a small machine. -/
theorem stack_decodes_small :
    ∃ esp r', setupStack 8 (pageAt 1) [[101, 99], [120]] (pageAt 3)
        ⟨smallCreated, [some (pageAt 4), some (pageAt 5)], [], 0⟩ = .ok (some esp, r') ∧
      Decodes (userBytes 8 (pageAt 3) r'.state) esp [[101, 99], [120]] := by
  have hc : smallCreate = .ok (some (pageAt 3), smallCreated) := toOption_eq (none, smallState) (by decide +kernel)
  have hstart : Begins smallCreated ⟨smallCreated, ∅, []⟩ := rfl
  have hok : (setupStack 8 (pageAt 1) [[101, 99], [120]] (pageAt 3)
      ⟨smallCreated, [some (pageAt 4), some (pageAt 5)], [], 0⟩).toOption.map (fun out => out.1.isSome) = some true := by
    decide +kernel
  have h := stack_decodes (r := ⟨smallCreated, [some (pageAt 4), some (pageAt 5)], [], 0⟩)
    (show 8 ≤ 2 ^ 18 by decide) smallBoot_booted hc (.start hstart) rfl
    (show ∀ arg ∈ [[101, 99], [120]], (0 : UInt8) ∉ arg by decide) (by decide)
  obtain h | ⟨esp, r', h, hdec, -⟩ := h
  · rw [h] at hok
    cases hok
  · rw [h] at hok
    cases esp with
    | none => cases hok
    | some esp => exact ⟨esp, r', h, (hdec esp rfl).2.2⟩

/-! ### Lengths that wrap around -/

section
variable {arg : List UInt8}

/-- The lengths for 128 strings of 32 MB: with their ends they are 4 GB. -/
theorem lengths_wrap (harg : arg.length + 1 = 2 ^ 25) :
    pgSize < layoutLength (List.replicate 128 arg) ∧ alignBeforeArgs (List.replicate 128 arg) = 4 ∧
      stackLength (List.replicate 128 arg) = 532 := by
  have hbytes : stringBytes (List.replicate 128 arg) = 2 ^ 32 := by
    rw [stringBytes, List.map_replicate, harg, List.sum_replicate]
    rfl
  have hargs : argsLen (List.replicate 128 arg) = 0 := by
    rw [argsLen, ← stringBytes, hbytes, Nat.mod_self]
  have hframe : frameLen (List.replicate 128 arg) = 528 := by
    norm_num [frameLen, hargs]
  have halign : alignBeforeArgs (List.replicate 128 arg) = 4 := by
    norm_num [alignBeforeArgs, hframe]
  refine ⟨?_, halign, ?_⟩
  · norm_num [layoutLength, frameBytes, hbytes, pgSize]
  · norm_num [stackLength, halign, hframe]

/-- The layout of 4 GB passes for one of 532 bytes, and the last string goes 32 MB below the page. -/
theorem writeFrame_wraps (harg : arg.length + 1 = 2 ^ 25) (m : Bytes) :
    writeFrame 16384 (List.replicate 128 arg) (pageAt 10) m = .error .fault := by
  obtain ⟨-, halign, hstack⟩ := lengths_wrap harg
  have hrev : (List.replicate 128 arg).reverse = arg :: List.replicate 127 arg := List.reverse_replicate
  have hout : ∀ n, inRam 16384 ((pageAt 10 + pgSize - 532 + (532 - 4 + 2 ^ 32 - 2 ^ 25 % 2 ^ 32) % 2 ^ 32) % 2 ^ 32) n =
      false := by
    intro n
    norm_num [inRam, pageAt, pgSize, physBase]
  rw [writeFrame, halign, hstack, hrev, pushArgs]
  simp only [harg, hout, Bool.false_and]
  rfl

end

/-- Before `setup_stack`: the directory is an empty page, and two pages are free. -/
def longStart : Loader := ⟨⟨fun _ => 0, {pageAt 9}, []⟩, [some (pageAt 10), some (pageAt 11)], [], 0⟩

theorem longStart_installs : ∃ r1 r2, getPage 16384 true longStart = .ok (some (pageAt 10), r1) ∧
    installPage 16384 (pageAt 1) (pageAt 9) (physBase - pgSize) (pageAt 10) true r1 = .ok (true, r2) := by
  have hget : (getPage 16384 true longStart).toOption.map Prod.fst = some (some (pageAt 10)) := by decide +kernel
  have hinst : ((getPage 16384 true longStart).bind fun out =>
      installPage 16384 (pageAt 1) (pageAt 9) (physBase - pgSize) (pageAt 10) true out.2).toOption.map Prod.fst =
        some true := by
    decide +kernel
  cases h : getPage 16384 true longStart with
  | error e =>
    rw [h] at hget
    cases hget
  | ok out =>
    obtain ⟨page, r1⟩ := out
    rw [h] at hget hinst
    cases hget
    simp only [Except.bind] at hinst
    cases h' : installPage 16384 (pageAt 1) (pageAt 9) (physBase - pgSize) (pageAt 10) true r1 with
    | error e =>
      rw [h'] at hinst
      cases hinst
    | ok out =>
      obtain ⟨ok, r2⟩ := out
      rw [h'] at hinst
      cases hinst
      exact ⟨r1, r2, rfl, h'⟩

/-- The sum of the lengths wraps around to 0: instead of returning false, `setup_stack` writes outside the page. -/
theorem long_args_not_refused :
    ∃ arg : List UInt8, 0 ∉ arg ∧ pgSize < layoutLength (List.replicate 128 arg) ∧
      setupStack 16384 (pageAt 1) (List.replicate 128 arg) (pageAt 9) longStart = .error .fault := by
  obtain ⟨arg, hzero, harg⟩ : ∃ arg : List UInt8, 0 ∉ arg ∧ arg.length + 1 = 2 ^ 25 :=
    ⟨List.replicate (2 ^ 25 - 1) 97, fun h => (by cases List.eq_of_mem_replicate h),
      (congrArg (· + 1) List.length_replicate).trans (by norm_num)⟩
  obtain ⟨hbig, -, hstack⟩ := lengths_wrap harg
  obtain ⟨r1, r2, hget, hinst⟩ := longStart_installs
  refine ⟨arg, hzero, hbig, ?_⟩
  rw [setupStack, hget, ok_bind, installStack, hinst, ok_bind, fillStack, hstack, if_neg (by decide),
    writeFrame_wraps harg]
  rfl

end Pintos.Load
