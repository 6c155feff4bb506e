import Pintos.Userprog.LoadPages

/-! Segments of an executable.

A program header that `validate_segment` accepts gives arguments that `load_segment` asserts, and no sum of
its fields wraps around. The loop puts a new page at each page that the segment meets, with the bytes of the
file and zeros behind them. -/
namespace Pintos.Load

open UserMemory (pgSize physBase pgOfs isUserVaddr)
open Pagedir
open Steps

/-! ### Pages -/

/-- The byte `j` behind the position `pos`, of which `readBytes` are read and the others are zero. -/
def File.byte (file : File) (pos readBytes j : Nat) : UInt8 := if j < readBytes then file.bytes.getD (pos + j) 0 else 0

section
variable {ramPages initPageDir pd upage n v pos kpage : Nat} {σ : Space} {r : Loader} {file : File} {writable : Bool}

theorem read_getD (file : File) (pos : Nat) {size o : Nat} (h : o < size) :
    (file.read pos size).getD o 0 = file.bytes.getD (pos + o) 0 := by
  simp only [File.read, List.getD_eq_getElem?_getD, List.getElem?_take_of_lt h, List.getElem?_drop]

theorem length_read (h : (file.read pos n).length = n) : n = 0 ∨ pos + n ≤ file.bytes.length := by
  rw [File.read, List.length_take, List.length_drop] at h
  omega

/-- What a round of `load_segment` can do: it has no page, or gives it back; or the page is installed. -/
theorem loadPage_cases (file : File) (writable : Bool) (hh : Holds ramPages pd σ r.state) (hram : ramPages ≤ 2 ^ 18)
    (hinit : pd ≠ initPageDir) (hu : upage < physBase) (hofs : pgOfs upage = 0) (hn : n ≤ pgSize) :
    loadPage ramPages initPageDir file pd upage n writable r = .error .unable ∨
    (∃ r', loadPage ramPages initPageDir file pd upage n writable r = .ok (false, r') ∧ Moved ramPages pd σ σ r r' ∧
      Holds ramPages pd σ r'.state) ∨
    ∃ σ' k r', loadPage ramPages initPageDir file pd upage n writable r = .ok (true, r') ∧
      Moved ramPages pd σ σ' r r' ∧ Holds ramPages pd σ' r'.state ∧ r'.pos = r.pos + n ∧
      (n = 0 ∨ r.pos + n ≤ file.bytes.length) ∧ σ.page (upage / pgSize) = none ∧
      σ'.page = Function.update σ.page (upage / pgSize) (some k) ∧
      ∀ o < pgSize, r'.state.mem (k + o) = file.byte r.pos n o := by
  unfold loadPage
  obtain ⟨hget, -, hmoved⟩ | ⟨hget, -⟩ | ⟨kpage, hget, -, hx⟩ := getPage_cases false hh
  · rw [hget]
    exact .inr (.inl ⟨_, rfl, hmoved, hh⟩)
  · rw [hget]
    exact .inl rfl
  rw [hget, ok_bind]
  simp only [fillPage]
  have hpos : (r.next (r.state.take false kpage)).pos = r.pos := rfl
  rw [hpos]
  set bytes := file.read r.pos n with hbytes
  have hshort : bytes.length ≤ n := by rw [hbytes, File.read, List.length_take]; omega
  split
  · -- a short read
    have hx' := hx.store { r.next (r.state.take false kpage) with
      pos := r.pos + bytes.length
      state.mem := (r.next (r.state.take false kpage)).state.mem.write kpage bytes } hh rfl rfl rfl fun a ha =>
        Bytes.write_outside (by unfold InPage at ha; omega)
    obtain ⟨hfree, hmoved, hh'⟩ := hx'.free hh
    refine .inr (.inl ⟨_, ?_, hmoved, hh'⟩)
    rw [keepPage, hfree]
    rfl
  · rename_i hfull
    rw [not_not] at hfull
    set mem := ((r.next (r.state.take false kpage)).state.mem.write kpage bytes).patch (kpage + n) (pgSize - n)
      (fun _ => 0) with hmem
    have hout : ∀ a, ¬ InPage kpage a → mem a = (r.next (r.state.take false kpage)).state.mem a := by
      intro a ha
      unfold InPage at ha
      rw [hmem, Bytes.patch_outside _ _ (by omega), Bytes.write_outside (by omega)]
    have hin : ∀ o < pgSize, mem (kpage + o) = file.byte r.pos n o := by
      intro o ho
      unfold File.byte
      split
      · rename_i hlt
        rw [hmem, Bytes.patch_outside _ _ (by omega), ← read_getD file r.pos hlt, ← hbytes]
        exact Bytes.spells_iff.mp (Bytes.spells_write _ kpage bytes) o (by omega)
      · rw [hmem, Bytes.patch_inside _ _ (by omega) (by omega)]
    have hx' := hx.store { r.next (r.state.take false kpage) with
      pos := r.pos + bytes.length, state.mem := mem } hh rfl rfl rfl hout
    obtain ⟨hi, -⟩ | ⟨r2, hi, -, hx2⟩ | ⟨σ', r2, hi, hmoved, hh', hpos2, hnone, hpage, hkeep⟩ :=
      hx'.install hh hram hinit writable hu hofs
    · left
      rw [hi]
      rfl
    · obtain ⟨hfree, hmoved, hh'⟩ := hx2.free hh
      refine .inr (.inl ⟨_, ?_, hmoved, hh'⟩)
      rw [hi, ok_bind, keepPage, hfree]
      rfl
    · refine .inr (.inr ⟨σ', kpage, r2, by rw [hi]; rfl, hmoved, hh', ?_, length_read hfull, hnone, hpage, fun o ho => ?_⟩)
      · grind
      · rw [hkeep _ ⟨by omega, by omega⟩]
        exact hin o ho

/-! ### The loop -/

/-- What is at the page `v` after the segment, with the bytes from `j` on of the file behind `pos`. -/
def ShowsPage (file : File) (pos readBytes j : Nat) (σ : Space) (s : State) (v : Nat) : Prop :=
  ∃ k, σ.page v = some k ∧ ∀ o < pgSize, s.mem (k + o) = file.byte pos readBytes (j + o)

/-- A page that shows a part of the file goes on doing so. -/
theorem ShowsPage.moved {σ' : Space} {r' : Loader} {readBytes j : Nat} (h : ShowsPage file pos readBytes j σ r.state v)
    (hh : Holds ramPages pd σ r.state) (hm : Moved ramPages pd σ σ' r r') :
    ShowsPage file pos readBytes j σ' r'.state v := by
  obtain ⟨k, hk, hbytes⟩ := h
  obtain ⟨hkp, hku⟩ := hh.inUse (.page v) k hk
  have hpd : k ≠ pd := fun e => by cases hh.apart (.page v) .dir k hk (e ▸ rfl)
  have htab : ∀ i, σ.table i ≠ some k := fun i hi => by cases hh.apart (.page v) (.table i) k hk hi
  refine ⟨k, hm.pages v k hk, fun o ho => ?_⟩
  rw [hm.mem k hkp hku hpd htab (k + o) ⟨by omega, by omega⟩]
  exact hbytes o ho

/-- The bytes behind those of the first page. -/
theorem byte_rest (file : File) (pos readBytes j : Nat) :
    file.byte (pos + min readBytes pgSize) (readBytes - min readBytes pgSize) j = file.byte pos readBytes (pgSize + j) := by
  unfold File.byte
  grind

theorem byte_first (file : File) (pos readBytes : Nat) {o : Nat} (h : o < pgSize) :
    file.byte pos (min readBytes pgSize) o = file.byte pos readBytes o := by
  unfold File.byte
  grind

/-- The loop over `n` pages from the page `v` on: it changes nothing of the map elsewhere, and when it comes to its end
each of the pages is new and shows its part of the file. -/
theorem segmentLoop_spec (file : File) (writable : Bool) (hram : ramPages ≤ 2 ^ 18) (hinit : pd ≠ initPageDir)
    {rounds readBytes zeroBytes : Nat} (hh : Holds ramPages pd σ r.state) (hsum : readBytes + zeroBytes = n * pgSize) (hzero : zeroBytes < 2 ^ 32)
    (hv : (v + n) * pgSize ≤ physBase) (hrounds : n ≤ rounds) :
    segmentLoop ramPages initPageDir file pd writable rounds (v * pgSize) readBytes zeroBytes r = .error .unable ∨
    ∃ ok σ' r', segmentLoop ramPages initPageDir file pd writable rounds (v * pgSize) readBytes zeroBytes r = .ok (ok, r') ∧
      Moved ramPages pd σ σ' r r' ∧ Holds ramPages pd σ' r'.state ∧
      (∀ w, w < v ∨ v + n ≤ w → σ'.page w = σ.page w) ∧
      (ok = true → (readBytes = 0 ∨ r.pos + readBytes ≤ file.bytes.length) ∧
        ∀ i < n, σ.page (v + i) = none ∧ ShowsPage file r.pos readBytes (i * pgSize) σ' r'.state (v + i)) := by
  induction n generalizing v rounds readBytes zeroBytes σ r with
  | zero =>
    rw [Nat.zero_mul, Nat.add_eq_zero_iff] at hsum
    obtain ⟨rfl, rfl⟩ := hsum
    refine .inr ⟨true, σ, r, ?_, .refl hh, hh, fun _ _ => rfl, fun _ => ⟨.inl rfl, fun i hi => absurd hi (by omega)⟩⟩
    cases rounds <;> rfl
  | succ n ih =>
    obtain ⟨rounds, rfl⟩ : ∃ k, rounds = k + 1 := ⟨rounds - 1, by omega⟩
    have hcond : (decide (0 < readBytes) || decide (0 < zeroBytes)) = true := by
      rw [Bool.or_eq_true, decide_eq_true_eq, decide_eq_true_eq]
      unfold pgSize at hsum
      omega
    have hmin : (if readBytes < pgSize then readBytes else pgSize) = min readBytes pgSize := by
      split <;> omega
    have hu : v * pgSize < physBase := by
      unfold pgSize at *
      omega
    rw [segmentLoop, if_pos hcond]
    simp only [hmin]
    obtain hl | ⟨r1, hl, hm, hh1⟩ | ⟨σ1, k, r1, hl, hm, hh1, hpos, hlen, hnone, hpage, hbytes⟩ :=
      loadPage_cases file writable hh hram hinit hu (Nat.mul_mod_left v pgSize) (Nat.min_le_right readBytes pgSize)
    · left
      rw [hl]
      rfl
    · refine .inr ⟨false, σ, r1, by rw [hl]; rfl, hm, hh1, fun _ _ => rfl, fun e => by cases e⟩
    · rw [Nat.mul_div_cancel v (show 0 < pgSize by decide)] at hnone hpage
      have hrest : readBytes - min readBytes pgSize + (zeroBytes + 2 ^ 32 - (pgSize - min readBytes pgSize)) % 2 ^ 32 =
          n * pgSize := by
        unfold pgSize at *
        omega
      have hup : (v * pgSize + pgSize) % 2 ^ 32 = (v + 1) * pgSize := by
        unfold pgSize physBase at *
        omega
      have hv' : (v + 1 + n) * pgSize ≤ physBase := by
        rw [Nat.add_right_comm]
        exact hv
      rw [hl, ok_bind]
      simp only [hup]
      obtain hloop | ⟨ok, σ2, r2, hloop, hm2, hh2, hout, hgood⟩ :=
        ih hh1 hrest (Nat.mod_lt _ (by decide)) hv' (show n ≤ rounds by omega)
      · exact .inl hloop
      · refine .inr ⟨ok, σ2, r2, hloop, hm.trans hm2 hh1 hh2, hh2, fun w hw => ?_, fun hok => ?_⟩
        · rw [hout w (by omega), hpage, Function.update_apply, if_neg (by omega)]
        · obtain ⟨hlen2, hpages⟩ := hgood hok
          rw [hpos] at hlen2 hpages
          refine ⟨by omega, fun i hi => ?_⟩
          cases i with
          | zero =>
            have hfirst : ShowsPage file r.pos readBytes (0 * pgSize) σ1 r1.state v := by
              refine ⟨k, by rw [hpage, Function.update_self], fun o ho => ?_⟩
              rw [hbytes o ho, byte_first file r.pos readBytes ho, Nat.zero_mul, Nat.zero_add]
            exact ⟨hnone, hfirst.moved hh1 hm2⟩
          | succ i =>
            obtain ⟨hfree, k', hk', hbytes'⟩ := hpages i (by omega)
            rw [show v + 1 + i = v + (i + 1) by omega] at hfree hk'
            rw [hpage, Function.update_apply, if_neg (by omega)] at hfree
            refine ⟨hfree, k', hk', fun o ho => ?_⟩
            have hoffset : pgSize + (i * pgSize + o) = (i + 1) * pgSize + o := by
              rw [Nat.succ_mul]
              omega
            rw [hbytes' o ho, byte_rest, hoffset]

end

/-! ### The arguments -/

/-- The page with the number `v` has a byte of the segment. -/
def Meets (phdr : Phdr) (v : Nat) : Prop :=
  v * pgSize < phdr.pVaddr.toNat + phdr.pMemsz.toNat ∧ phdr.pVaddr.toNat < (v + 1) * pgSize

/-- The number of pages that a segment meets. -/
def pageCount (phdr : Phdr) : Nat := (phdr.pVaddr.toNat % pgSize + phdr.pMemsz.toNat + pgSize - 1) / pgSize

/-- What `validate_segment` accepts. -/
structure Valid (phdr : Phdr) (file : File) : Prop where
  offset : phdr.pOffset.toNat % pgSize = phdr.pVaddr.toNat % pgSize
  inFile : phdr.pOffset.toNat ≤ file.bytes.length
  filesz : phdr.pFilesz.toNat ≤ phdr.pMemsz.toNat
  memsz : 0 < phdr.pMemsz.toNat
  top : phdr.pVaddr.toNat + phdr.pMemsz.toNat < physBase
  bottom : pgSize ≤ phdr.pVaddr.toNat

section
variable {phdr : Phdr} {file : File} {v : Nat}

theorem validateSegment_valid (h : validateSegment phdr file = true) : Valid phdr file := by
  have hmemsz := phdr.pMemsz.toNat_lt
  simp only [validateSegment, isUserVaddr, Bool.and_eq_true, beq_iff_eq, bne_iff_ne, decide_eq_true_eq] at h
  obtain ⟨⟨⟨⟨⟨⟨⟨h1, h2⟩, h3⟩, h4⟩, h5⟩, h6⟩, h7⟩, h8⟩ := h
  refine ⟨h1, h2, h3, by omega, ?_, h8⟩
  unfold physBase at *
  omega

/-- Nothing wraps around, and the sums are those of the numbers. -/
theorem Valid.segment (h : Valid phdr file) :
    (segmentOf phdr).readBytes = (if 0 < phdr.pFilesz.toNat then phdr.pVaddr.toNat % pgSize + phdr.pFilesz.toNat else 0) ∧
    (segmentOf phdr).readBytes + (segmentOf phdr).zeroBytes = pageCount phdr * pgSize ∧
    pageCount phdr * pgSize < 2 ^ 32 ∧
    (phdr.pVaddr.toNat / pgSize + pageCount phdr) * pgSize ≤ physBase := by
  obtain ⟨-, -, hfilesz, hmemsz, htop, -⟩ := h
  have hread : (segmentOf phdr).readBytes =
      if 0 < phdr.pFilesz.toNat then phdr.pVaddr.toNat % pgSize + phdr.pFilesz.toNat else 0 := by
    show (if 0 < phdr.pFilesz.toNat then (phdr.pVaddr.toNat % pgSize + phdr.pFilesz.toNat) % 2 ^ 32 else 0) = _
    unfold physBase pgSize at *
    split <;> omega
  have hle : (segmentOf phdr).readBytes ≤ phdr.pVaddr.toNat % pgSize + phdr.pMemsz.toNat := by
    rw [hread]
    split <;> omega
  refine ⟨hread, ?_, ?_, ?_⟩
  · show (segmentOf phdr).readBytes + (roundUp ((phdr.pVaddr.toNat % pgSize + phdr.pMemsz.toNat) % 2 ^ 32) + 2 ^ 32 -
      (segmentOf phdr).readBytes) % 2 ^ 32 = _
    unfold roundUp pageCount
    unfold physBase pgSize at *
    omega
  · unfold pageCount
    unfold physBase pgSize at *
    omega
  · unfold pageCount
    unfold physBase pgSize at *
    omega

theorem Valid.meets (h : Valid phdr file) :
    Meets phdr v ↔ phdr.pVaddr.toNat / pgSize ≤ v ∧ v < phdr.pVaddr.toNat / pgSize + pageCount phdr := by
  have hmemsz := h.memsz
  unfold Meets pageCount pgSize
  omega

end

/-! ### The segment in memory -/

/-- The byte at a user address. -/
def byteAt (ramPages pd : Nat) (s : State) (va : Nat) : Option UInt8 :=
  match pagedirGetPage ramPages pd va s with
  | .ok (some k) => some (s.mem k)
  | _ => none

section
variable {ramPages initPageDir pd va v : Nat} {σ : Space} {s0 st : State} {r : Loader} {s : Session} {file : File} {phdr : Phdr}
  {answer : Option Nat}

theorem byteAt_eq (hh : Holds ramPages pd σ st) (hram : ramPages ≤ 2 ^ 18) (hva : va < physBase) :
    byteAt ramPages pd st va = (σ.page (va / pgSize)).map fun k => st.mem (k + pgOfs va) := by
  rw [byteAt, hh.get hram hva]
  cases σ.page (va / pgSize) <;> rfl

/-- `load_segment` with the arguments of a header that was accepted. -/
theorem loadSegment_spec (hv : Valid phdr file) (hram : ramPages ≤ 2 ^ 18) (hinit : pd ≠ initPageDir)
    (hh : Holds ramPages pd σ r.state) :
    loadSegment ramPages initPageDir file pd (segmentOf phdr) r = .error .unable ∨
    ∃ ok σ' r', loadSegment ramPages initPageDir file pd (segmentOf phdr) r = .ok (ok, r') ∧
      Moved ramPages pd σ σ' r r' ∧ Holds ramPages pd σ' r'.state ∧ (∀ w, ¬ Meets phdr w → σ'.page w = σ.page w) ∧
      (ok = true → ∀ w, Meets phdr w → σ.page w = none ∧
        ShowsPage file (segmentOf phdr).filePage (segmentOf phdr).readBytes ((w - phdr.pVaddr.toNat / pgSize) * pgSize)
          σ' r'.state w) ∧
      (ok = true → (segmentOf phdr).readBytes = 0 ∨
        (segmentOf phdr).filePage + (segmentOf phdr).readBytes ≤ file.bytes.length) := by
  obtain ⟨hread, hsum, hlt, htop⟩ := hv.segment
  have hfile : (segmentOf phdr).filePage < 2 ^ 31 := by
    have hin := hv.inFile
    have hshort := file.short
    show phdr.pOffset.toNat / pgSize * pgSize < 2 ^ 31
    unfold pgSize
    omega
  have hrun : loadSegment ramPages initPageDir file pd (segmentOf phdr) r = segmentLoop ramPages initPageDir file pd
      (segmentOf phdr).writable ((segmentOf phdr).readBytes + (segmentOf phdr).zeroBytes)
      (phdr.pVaddr.toNat / pgSize * pgSize) (segmentOf phdr).readBytes (segmentOf phdr).zeroBytes
      { r with pos := (segmentOf phdr).filePage } := by
    have h1 : ((segmentOf phdr).readBytes + (segmentOf phdr).zeroBytes) % 2 ^ 32 % pgSize = 0 := by
      rw [hsum, Nat.mod_eq_of_lt hlt, Nat.mul_mod_left]
    have h2 : pgOfs (segmentOf phdr).memPage = 0 := Nat.mul_mod_left _ pgSize
    have h3 : (segmentOf phdr).filePage % pgSize = 0 := Nat.mul_mod_left _ pgSize
    rw [loadSegment, check_pos h1, ok_bind, check_pos h2, ok_bind, check_pos h3, ok_bind, check_pos hfile, ok_bind]
    rfl
  have hh' : Holds ramPages pd σ ({ r with pos := (segmentOf phdr).filePage } : Loader).state := hh
  have hpages : pageCount phdr ≤ (segmentOf phdr).readBytes + (segmentOf phdr).zeroBytes := by
    rw [hsum]
    exact Nat.le_mul_of_pos_right _ (by decide)
  rw [hrun]
  obtain hl | ⟨ok, σ', r', hl, hm, hh2, hout, hgood⟩ := segmentLoop_spec file (segmentOf phdr).writable hram hinit
    hh' hsum (by omega) htop hpages
  · exact .inl hl
  · refine .inr ⟨ok, σ', r', hl, ?_, hh2, fun w hw => ?_, fun hok w hw => ?_, fun hok => (hgood hok).1⟩
    · exact ⟨hm.used, hm.tables, hm.pages, hm.new, hm.mem, fun s0 hs0 => hm.booked s0 (hs0.congr rfl rfl rfl)⟩
    · refine hout w ?_
      rw [hv.meets] at hw
      omega
    · obtain ⟨hlo, hhi⟩ := hv.meets.mp hw
      have hpage := (hgood hok).2 (w - phdr.pVaddr.toNat / pgSize) (by omega)
      rwa [Nat.add_sub_cancel' hlo] at hpage

/-- A byte of a page that shows a part of the file. -/
theorem ShowsPage.byteAt {pos readBytes : Nat} (h : ShowsPage file pos readBytes ((va / pgSize - v) * pgSize) σ st (va / pgSize))
    (hh : Holds ramPages pd σ st) (hram : ramPages ≤ 2 ^ 18) (hva : va < physBase) (hv : v ≤ va / pgSize) :
    Load.byteAt ramPages pd st va = some (file.byte pos readBytes (va - v * pgSize)) := by
  obtain ⟨k, hk, hbytes⟩ := h
  have hoffset : (va / pgSize - v) * pgSize + pgOfs va = va - v * pgSize := by
    unfold pgOfs pgSize at *
    omega
  rw [byteAt_eq hh hram hva, hk, Option.map_some, hbytes (pgOfs va) (Nat.mod_lt _ (by decide)), hoffset]

/-- A program header that `validate_segment` accepts, with a page directory in any use: the arguments of `load_segment`
are the numbers that the header says and meet its assertions; whatever page allocation answers, the pages that it
installs are in user memory without the first page, and are pages of the segment; and when it returns true they are all
of them, each one new, with the bytes of the file and zeros behind them. -/
theorem segment_loaded (hram : ramPages ≤ 2 ^ 18) (hb : Booted ramPages initPageDir s0)
    (hc : pagedirCreate ramPages initPageDir answer s0 = .ok (some pd, st))
    (hr : Reach (step ramPages initPageDir pd) MapsOnce (Begins st) s) (hs : r.state = s.state)
    (hv : validateSegment phdr file = true) :
    ((segmentOf phdr).readBytes =
        (if 0 < phdr.pFilesz.toNat then phdr.pVaddr.toNat % pgSize + phdr.pFilesz.toNat else 0) ∧
      (segmentOf phdr).readBytes + (segmentOf phdr).zeroBytes =
        (phdr.pVaddr.toNat % pgSize + phdr.pMemsz.toNat + pgSize - 1) / pgSize * pgSize ∧
      (segmentOf phdr).readBytes + (segmentOf phdr).zeroBytes < 2 ^ 32 ∧
      ((segmentOf phdr).readBytes + (segmentOf phdr).zeroBytes) % pgSize = 0 ∧
      pgOfs (segmentOf phdr).memPage = 0 ∧ (segmentOf phdr).filePage % pgSize = 0) ∧
    (loadSegment ramPages initPageDir file pd (segmentOf phdr) r = .error .unable ∨
      ∃ ok r', loadSegment ramPages initPageDir file pd (segmentOf phdr) r = .ok (ok, r') ∧
        (∀ va < physBase, pagedirGetPage ramPages pd va r'.state ≠ pagedirGetPage ramPages pd va r.state →
          Meets phdr (va / pgSize) ∧ pgSize ≤ va) ∧
        (∀ w, Meets phdr w → pgSize ≤ w * pgSize ∧ (w + 1) * pgSize ≤ physBase) ∧
        (ok = true →
          (∀ va < physBase, Meets phdr (va / pgSize) → pagedirGetPage ramPages pd va r.state = .ok none ∧
            ∃ k, pagedirGetPage ramPages pd va r'.state = .ok (some k)) ∧
          (∀ i < phdr.pFilesz.toNat, ∃ b, file.bytes[phdr.pOffset.toNat + i]? = some b ∧
            byteAt ramPages pd r'.state (phdr.pVaddr.toNat + i) = some b) ∧
          ∀ va, phdr.pVaddr.toNat + phdr.pFilesz.toNat ≤ va → Meets phdr (va / pgSize) →
            byteAt ramPages pd r'.state va = some 0)) := by
  obtain ⟨σ, hsane⟩ := sane_reach hram hb hc hr
  have hinit : pd ≠ initPageDir := ((hsane.kernel _ (.inl rfl)).2.2.1).symm
  have hh : Holds ramPages pd σ r.state := hs ▸ hsane.holds
  have hvalid := validateSegment_valid hv
  obtain ⟨hread, hsum, hlt, htop⟩ := hvalid.segment
  refine ⟨⟨hread, hsum, hsum ▸ hlt, by rw [hsum, Nat.mul_mod_left], Nat.mul_mod_left .., Nat.mul_mod_left ..⟩, ?_⟩
  obtain hl | ⟨ok, σ', r', hl, -, hh', hout, hgood, hlen⟩ := loadSegment_spec hvalid hram hinit hh
  · exact .inl hl
  have hrange : ∀ w, Meets phdr w → pgSize ≤ w * pgSize ∧ (w + 1) * pgSize ≤ physBase := by
    intro w hw
    obtain ⟨hlo, hhi⟩ := hvalid.meets.mp hw
    have hbottom := hvalid.bottom
    unfold pgSize at *
    omega
  refine .inr ⟨ok, r', hl, fun va hva hne => ?_, hrange, fun hok => ⟨fun va hva hm => ?_, fun i hi => ?_, fun va hva hm => ?_⟩⟩
  · have hm : Meets phdr (va / pgSize) := by
      by_contra hnot
      rw [hh'.get hram hva, hh.get hram hva, hout _ hnot] at hne
      exact hne rfl
    exact ⟨hm, le_trans (hrange _ hm).1 (Nat.div_mul_le_self va pgSize)⟩
  · obtain ⟨hnone, k, hk, -⟩ := hgood hok _ hm
    rw [hh.get hram hva, hh'.get hram hva, hnone, hk]
    exact ⟨rfl, _, rfl⟩
  · have hfilesz := hvalid.filesz
    have hva : phdr.pVaddr.toNat + i < physBase := lt_of_le_of_lt (by omega) hvalid.top
    have hm : Meets phdr ((phdr.pVaddr.toNat + i) / pgSize) := by
      unfold Meets pgSize
      omega
    have hoffset := hvalid.offset
    have hpos : 0 < phdr.pFilesz.toNat := by omega
    rw [if_pos hpos] at hread
    have hin : phdr.pOffset.toNat + i < file.bytes.length := by
      have hfile : (segmentOf phdr).filePage = phdr.pOffset.toNat / pgSize * pgSize := rfl
      have := hlen hok
      unfold pgSize at *
      omega
    refine ⟨_, List.getElem?_eq_getElem hin, ?_⟩
    rw [(hgood hok _ hm).2.byteAt hh' hram hva (hvalid.meets.mp hm).1, File.byte, if_pos]
    · have hplace : (segmentOf phdr).filePage +
          (phdr.pVaddr.toNat + i - phdr.pVaddr.toNat / pgSize * pgSize) = phdr.pOffset.toNat + i := by
        show phdr.pOffset.toNat / pgSize * pgSize + _ = _
        unfold pgSize at *
        omega
      rw [hplace, List.getD_eq_getElem _ _ hin]
    · rw [hread]
      unfold pgSize at *
      omega
  · have hva' : va < physBase := by
      have := (hrange _ hm).2
      unfold pgSize at *
      omega
    rw [(hgood hok _ hm).2.byteAt hh' hram hva' (hvalid.meets.mp hm).1, File.byte, if_neg]
    rw [hread]
    unfold pgSize at *
    split <;> omega

end

/-- A file of four bytes, of which the third one is loaded at `0x8048002` with two zeros behind it. -/
def smallFile : File := ⟨[1, 2, 3, 4], by decide⟩

def smallPhdr : Phdr := ⟨1, 2, 0x8048002, 1, 3, 2⟩

theorem segment_loaded_small :
    ∃ r', loadSegment 8 (pageAt 1) smallFile (pageAt 3) (segmentOf smallPhdr)
        ⟨smallCreated, [some (pageAt 4), some (pageAt 5)], [], 0⟩ = .ok (true, r') ∧
      byteAt 8 (pageAt 3) r'.state 0x8048002 = some 3 ∧ byteAt 8 (pageAt 3) r'.state 0x8048003 = some 0 := by
  have hc : smallCreate = .ok (some (pageAt 3), smallCreated) := toOption_eq (none, smallState) (by decide +kernel)
  have hstart : Begins smallCreated ⟨smallCreated, ∅, []⟩ := rfl
  have hok : (loadSegment 8 (pageAt 1) smallFile (pageAt 3) (segmentOf smallPhdr)
      ⟨smallCreated, [some (pageAt 4), some (pageAt 5)], [], 0⟩).toOption.map Prod.fst = some true := by decide +kernel
  obtain ⟨-, h⟩ := segment_loaded (r := ⟨smallCreated, [some (pageAt 4), some (pageAt 5)], [], 0⟩) (by decide)
    smallBoot_booted hc (.start hstart) rfl (show validateSegment smallPhdr smallFile = true by decide)
  obtain h | ⟨ok, r', h, -, -, hgood⟩ := h
  · rw [h] at hok
    cases hok
  · rw [h] at hok
    cases hok
    obtain ⟨-, hfile, hzero⟩ := hgood rfl
    obtain ⟨b, hb, hbyte⟩ := hfile 0 (by decide)
    cases hb
    exact ⟨r', h, hbyte, hzero 0x8048003 (by decide) ⟨by decide, by decide⟩⟩

end Pintos.Load
