import Pintos.Kernel.Ustar
import Pintos.Library.Steps

/-! Headers come back as they were made, and a changed one does not.

Each field is written after the ones that overlap nothing of it, so it is read off the last write to its place. A
single changed byte outside the checksum changes the sum by less than the sum can wrap around. -/
namespace Pintos.Ustar

open Bytes

variable {name rest l l' : List UInt8} {h m : Bytes} {type : UstarType} {size a b : Nat}

/-! ### Names -/

/-- The prefixes that are dropped. -/
def prefixes : List (List UInt8) := [[slash], [dot, slash], [dot, dot, slash]]

theorem antisocial_iff : antisocial name = true ↔ ∃ p ∈ prefixes, p <+: name := by
  simp [antisocial, prefixes, or_assoc]

theorem afterSlash_eq {p : List UInt8} (hp : p ∈ prefixes) : afterSlash (p ++ rest) = rest := by
  simp only [prefixes, List.mem_cons, List.not_mem_nil, or_false] at hp
  rcases hp with rfl | rfl | rfl <;> rfl

theorem prefix_ne_nil {p : List UInt8} (hp : p ∈ prefixes) : p ≠ [] := by
  simp only [prefixes, List.mem_cons, List.not_mem_nil, or_false] at hp
  rcases hp with rfl | rfl | rfl <;> simp

/-- The loop drops prefixes until there is none. -/
theorem stripLoop_spec {rounds : Nat} (hr : name.length ≤ rounds) :
    ∃ dropped : List (List UInt8), name = dropped.flatten ++ stripLoop rounds name ∧ (∀ p ∈ dropped, p ∈ prefixes) ∧
      antisocial (stripLoop rounds name) = false := by
  induction rounds generalizing name with
  | zero =>
    rw [List.length_eq_zero_iff.mp (Nat.le_zero.mp hr)]
    exact ⟨[], rfl, by simp, rfl⟩
  | succ rounds ih =>
    rw [stripLoop]
    cases ha : antisocial name with
    | false => exact ⟨[], rfl, by simp, ha⟩
    | true =>
      obtain ⟨p, hp, rest, rfl⟩ := antisocial_iff.mp ha
      have hlen : rest.length ≤ rounds := by
        have hpos := List.length_pos_of_ne_nil (prefix_ne_nil hp)
        rw [List.length_append] at hr
        omega
      obtain ⟨dropped, hrest, hdropped, hsocial⟩ := ih hlen
      rw [if_pos rfl, afterSlash_eq hp]
      refine ⟨p :: dropped, ?_, ?_, hsocial⟩
      · rw [List.flatten_cons, List.append_assoc, ← hrest]
      · grind

/-- The name without its prefixes, or `.` if nothing useful is left. -/
theorem strip_spec (name : List UInt8) : ∃ (dropped : List (List UInt8)) (rest : List UInt8),
    name = dropped.flatten ++ rest ∧ (∀ p ∈ dropped, p ∈ prefixes) ∧ antisocial rest = false ∧
    stripAntisocialPrefixes name = if rest = [] ∨ rest = [dot, dot] then [dot] else rest := by
  obtain ⟨dropped, hname, hdropped, hsocial⟩ := stripLoop_spec (Nat.le_refl name.length)
  exact ⟨dropped, _, hname, hdropped, hsocial, rfl⟩

theorem strip_social (name : List UInt8) : antisocial (stripAntisocialPrefixes name) = false ∧
    stripAntisocialPrefixes name ≠ [] ∧ stripAntisocialPrefixes name ≠ [dot, dot] := by
  obtain ⟨-, rest, -, -, hsocial, hstrip⟩ := strip_spec name
  rw [hstrip]
  split
  · decide
  · grind

theorem strip_of_social (ha : antisocial name = false) (hne : name ≠ []) (hdots : name ≠ [dot, dot]) :
    stripAntisocialPrefixes name = name := by
  have hloop : stripLoop name.length name = name := by
    cases hn : name.length with
    | zero => rfl
    | succ n => rw [stripLoop, ha, if_neg Bool.false_ne_true]
  rw [stripAntisocialPrefixes, hloop]
  exact if_neg (not_or.mpr ⟨hne, hdots⟩)

theorem strip_strip (name : List UInt8) :
    stripAntisocialPrefixes (stripAntisocialPrefixes name) = stripAntisocialPrefixes name := by
  obtain ⟨ha, hne, hdots⟩ := strip_social name
  exact strip_of_social ha hne hdots

theorem zero_not_mem_strip (hname : 0 ∉ name) : 0 ∉ stripAntisocialPrefixes name := by
  obtain ⟨dropped, rest, rfl, -, -, hstrip⟩ := strip_spec name
  rw [hstrip]
  split
  · decide
  · grind

/-! ### Octal fields -/

theorem octalDigit_digit {d : Nat} (hd : d < 8) : (0x30 ≤ Stdio.octalDigit d ∧ Stdio.octalDigit d ≤ 0x37) ∧
    (Stdio.octalDigit d).toNat - 0x30 = d := by
  interval_cases d <;> decide

theorem le_foldl_octal (ds : List Nat) (v : Nat) : v ≤ ds.foldl (fun v d => d + v * 8) v := by
  induction ds generalizing v with
  | nil => exact Nat.le_refl v
  | cons d ds ih => exact le_trans (by omega) (ih (d + v * 8))

theorem parseLoop_digits {ds : List Nat} {ofs v : Nat} (hds : ∀ d ∈ ds, d < 8) (hne : ofs ≠ 0 ∨ ds ≠ [])
    (hv : ds.foldl (fun v d => d + v * 8) v < 2 ^ 32) :
    parseLoop (ds.map Stdio.octalDigit ++ 0 :: l) ofs v = some (ds.foldl (fun v d => d + v * 8) v) := by
  induction ds generalizing ofs v with
  | nil =>
    have hofs : ofs > 0 := by
      grind
    simp [parseLoop, hofs]
  | cons d ds ih =>
    obtain ⟨hdigit, hvalue⟩ := octalDigit_digit (hds d List.mem_cons_self)
    rw [List.foldl_cons] at hv
    have hle := le_foldl_octal ds (d + v * 8)
    rw [List.map_cons, List.cons_append, parseLoop, if_pos hdigit, if_neg (by omega), hvalue,
      Nat.mod_eq_of_lt (by omega), List.foldl_cons]
    exact ih (fun d hd => hds d (List.mem_cons_of_mem _ hd)) (.inl (by omega)) hv

/-- A number that fits in a field is read back. -/
theorem parse_octal {width value : Nat} (hpos : 0 < width) (hv : value < 8 ^ width) (hmax : value < 2 ^ 32) :
    parseOctalField (Stdio.octal width value ++ 0 :: l) = some value := by
  obtain ⟨ds, htext, hlen, hds, hvalue⟩ := Stdio.octal_digits hpos hv (by omega)
  have hne : ds ≠ [] := List.ne_nil_of_length_pos (by omega)
  rw [htext, parseOctalField, parseLoop_digits hds (.inr hne) (by omega), hvalue]

theorem octal_length {width value : Nat} (hpos : 0 < width) (hv : value < 8 ^ width) (hmax : value < 2 ^ 32) :
    (Stdio.octal width value).length = width := by
  obtain ⟨ds, htext, hlen, -, -⟩ := Stdio.octal_digits hpos hv (by omega)
  rw [htext, List.length_map, hlen]

/-! ### The fields of a header -/

/-- What is written to a header before the checksum, with the places. -/
def stores (name : List UInt8) (type : UstarType) (size : Nat) : List (Nat × List UInt8) :=
  [(0, name ++ [0]), (100, Stdio.octal 7 type.mode ++ [0]), (108, text "0000000" ++ [0]),
    (116, text "0000000" ++ [0]), (124, Stdio.octal 11 size ++ [0]), (136, Stdio.octal 11 1136102400 ++ [0]), (156, [type.flag]),
    (257, text "ustar" ++ [0]), (263, [0x30, 0x30]), (297, text "root" ++ [0]), (265, text "root" ++ [0])]

theorem store_eq (h : Bytes) {l : List UInt8} (hl : l.length < size) : store h a size l = h.write a (l ++ [0]) := by
  rw [store, List.take_of_length_le (by omega)]

theorem mode_lt (type : UstarType) : type.mode < 8 ^ 7 := by
  cases type <;> decide

theorem mode_length (type : UstarType) : (Stdio.octal 7 type.mode).length = 7 :=
  octal_length (by decide) (mode_lt type) ((mode_lt type).trans (by decide))

theorem text_length : (text "0000000").length = 7 ∧ (text "ustar").length = 5 ∧ (text "root").length = 4 := by
  decide +kernel

theorem size_length (hsize : size < 2 ^ 31) : (Stdio.octal 11 size).length = 11 :=
  octal_length (by decide) (by omega) (by omega)

theorem fillHeader_eq (hname : name.length ≤ 99) (hsize : size < 2 ^ 31) :
    fillHeader name type size = writeAll (fun _ => 0) (stores name type size) := by
  have hmode := mode_length type
  have hlen := size_length hsize
  have htime := size_length (show 1136102400 < 2 ^ 31 by decide)
  obtain ⟨h0, hustar, hroot⟩ := text_length
  simp only [fillHeader]
  rw [store_eq _ (by omega), store_eq _ (by omega), store_eq _ (by omega), store_eq _ (by omega),
    store_eq _ (by omega), store_eq _ (by omega), store_eq _ (by omega), store_eq _ (by omega), store_eq _ (by omega)]
  rfl

/-- The fields of a header that are read back. -/
structure Made (name : List UInt8) (type : UstarType) (size : Nat) (h : Bytes) : Prop where
  name_spells : Spells h 0 (name ++ [0])
  size_spells : Spells h 124 (Stdio.octal 11 size ++ [0])
  chksum_spells : ∃ v, v = calculateChksum h ∧ Spells h 148 (Stdio.octal 7 v ++ [0])
  magic_spells : Spells h 257 (text "ustar" ++ [0])
  version_spells : Spells h 263 [0x30, 0x30]
  flag : h 156 = type.flag
  name_ends : h 99 = 0
  no_prefix : h 345 = 0

theorem sum_le (h : Bytes) (n : Nat) :
    ((List.range n).map fun i => if inChksumField i then 0x20 else (h i).toNat).sum ≤ n * 255 := by
  induction n with
  | zero => rfl
  | succ n ih =>
    rw [List.range_succ, List.map_append, List.sum_append, List.map_singleton, List.sum_singleton]
    have hbyte := (h n).toNat_lt
    split <;> omega

theorem calculateChksum_lt (h : Bytes) : calculateChksum h < 8 ^ 7 := by
  have hsum := sum_le h headerSize
  unfold calculateChksum
  have hmax : headerSize * 255 < 8 ^ 7 := by decide
  exact (Nat.mod_le _ _).trans_lt (by omega)

theorem calculateChksum_store (h : Bytes) {l : List UInt8} (hl : l.length < 8) :
    calculateChksum (store h 148 8 l) = calculateChksum h := by
  have hsame : ∀ i, (if inChksumField i then 0x20 else (store h 148 8 l i).toNat) =
      if inChksumField i then 0x20 else (h i).toNat := by
    intro i
    cases hi : inChksumField i with
    | true => rfl
    | false =>
      have hout : i < 148 ∨ 148 + (l ++ [0]).length ≤ i := by
        simp only [inChksumField, decide_eq_false_iff_not, not_and] at hi
        grind
      rw [store_eq h hl, write_outside hout]
  simp only [calculateChksum, hsame]

/-- Everything that is written to a header, with the text `c` as the checksum. -/
def allStores (name : List UInt8) (type : UstarType) (size : Nat) (c : List UInt8) : List (Nat × List UInt8) :=
  stores name type size ++ [(148, c ++ [0])]

section
variable {c : List UInt8} (hname : name.length ≤ 99) (hsize : size < 2 ^ 31) (hc : c.length = 7)
include hname hsize hc

theorem spells_allStores {w : Nat × List UInt8} (hw : w ∈ allStores name type size c) :
    Spells (writeAll (fun _ => 0) (allStores name type size c)) w.1 w.2 := by
  have hmode := mode_length type
  have hlen := size_length hsize
  have htime := size_length (show 1136102400 < 2 ^ 31 by decide)
  obtain ⟨h0, hustar, hroot⟩ := text_length
  apply spells_writeAll _ _ hw
  simp [allStores, stores, hmode, hlen, htime, h0, hustar, hroot, hc]
  omega

/-- The place of a byte that no field but perhaps the name reaches. -/
theorem allStores_outside {o : Nat} (ho : o = 99 ∨ o = 345) (hlong : o ≤ name.length → o = 345) :
    writeAll (fun _ => 0) (allStores name type size c) o = 0 := by
  have hmode := mode_length type
  have hlen := size_length hsize
  have htime := size_length (show 1136102400 < 2 ^ 31 by decide)
  obtain ⟨h0, hustar, hroot⟩ := text_length
  apply writeAll_outside
  simp [allStores, stores, hmode, hlen, htime, h0, hustar, hroot, hc]
  omega

end

theorem makeHeader_made {h : Bytes} (hsize : size < 2 ^ 31) (hname : name.length ≤ 99)
    (hh : h = store (fillHeader name type size) 148 8
      (Stdio.octal 7 (calculateChksum (fillHeader name type size)))) : Made name type size h := by
  obtain ⟨v, hv⟩ : ∃ v, v = calculateChksum (fillHeader name type size) := ⟨_, rfl⟩
  have hlt : v < 8 ^ 7 := hv ▸ calculateChksum_lt _
  have hc : (Stdio.octal 7 v).length = 7 := octal_length (by decide) hlt (hlt.trans (by decide))
  rw [← hv] at hh
  have hsum : calculateChksum h = v := by
    rw [hh, hv]
    exact calculateChksum_store _ (by rw [← hv]; omega)
  rw [store_eq _ (by omega)] at hh
  have hall : h = writeAll (fun _ => 0) (allStores name type size (Stdio.octal 7 v)) := by
    rw [writeAll, allStores, List.foldl_append]
    exact hh.trans (congrArg (fun m => Bytes.write m 148 _) (fillHeader_eq hname hsize))
  have hspells : ∀ a l, (a, l) ∈ allStores name type size (Stdio.octal 7 v) → Spells h a l := by
    intro a l hw
    rw [hall]
    exact spells_allStores hname hsize hc hw
  have hname' : Spells h 0 (name ++ [0]) := hspells _ _ (by simp [allStores, stores])
  have hflag : Spells h 156 [type.flag] := hspells _ _ (by simp [allStores, stores])
  refine ⟨hname', ?_, ⟨v, hsum.symm, ?_⟩, ?_, ?_, hflag.1, ?_, ?_⟩
  · exact hspells _ _ (by simp [allStores, stores])
  · exact hspells _ _ (by simp [allStores, stores])
  · exact hspells _ _ (by simp [allStores, stores])
  · exact hspells _ _ (by simp [allStores, stores])
  · by_cases hlong : name.length = 99
    · have hnull := (spells_append.mp hname').2.1
      rwa [hlong] at hnull
    · rw [hall]
      exact allStores_outside hname hsize hc (.inl rfl) (by omega)
  · rw [hall]
    exact allStores_outside hname hsize hc (.inr rfl) (by omega)

/-! ### Reading back -/

theorem field_spells (hs : Spells h a l) {n : Nat} (hn : l.length = n) : field h a n = l := by
  subst hn
  apply List.ext_getElem
  · simp [field]
  · intro i hi hi'
    have hbyte := spells_iff.mp hs i hi'
    rw [List.getD_eq_getElem _ _ hi'] at hbyte
    simpa [field] using hbyte

/-- The string of a field that begins with it. -/
theorem cString_field {n : Nat} (hs : Spells h 0 (l ++ [0])) (hl : 0 ∉ l) (hn : l.length < n) :
    cString (field h 0 n) = l := by
  obtain ⟨k, rfl⟩ := Nat.exists_eq_add_of_lt hn
  have hsplit : field h 0 (l.length + k + 1) = l ++ 0 :: field h (l.length + 1) k := by
    have hfirst := field_spells hs (n := l.length + 1) (by simp)
    rw [field, show l.length + k + 1 = (l.length + 1) + k by omega, List.range_add, List.map_append]
    have hrest : (List.range (l.length + 1)).map (fun i => h (0 + i)) = l ++ [0] := hfirst
    rw [hrest, List.map_map, List.append_assoc]
    simp [field, Function.comp_def]
  have hnonzero : ∀ c ∈ l, decide (c ≠ 0) = true := by
    grind
  rw [hsplit, cString, List.takeWhile_append_of_pos hnonzero]
  simp

/-- The archive's end is not a header. -/
theorem not_all_zeros {o : Nat} (ho : o < headerSize) (hne : h o ≠ 0) : isAllZeros h = false := by
  rw [isAllZeros, List.all_eq_false]
  exact ⟨o, List.mem_range.mpr ho, by simpa using hne⟩

/-- The size that a header gives for a file of a type. -/
def sizeOf (type : UstarType) (size : Nat) : Nat :=
  match type with
  | .regular => size
  | .directory => 0

theorem Made.magic (hm : Made name type size h) : field h 257 6 = text "ustar" ++ [0] :=
  field_spells hm.magic_spells (by simp [text_length])

theorem Made.not_eof (hm : Made name type size h) : h 257 ≠ 0 := by
  have hbyte := spells_iff.mp hm.magic_spells 0 (by simp)
  rw [Nat.add_zero] at hbyte
  rw [hbyte]
  decide +kernel

theorem Made.chksum (hm : Made name type size h) : parseOctalField (field h 148 8) = some (calculateChksum h) := by
  obtain ⟨v, hv, hspells⟩ := hm.chksum_spells
  have hlt : v < 8 ^ 7 := hv ▸ calculateChksum_lt h
  have hlen : (Stdio.octal 7 v).length = 7 := octal_length (by decide) hlt (hlt.trans (by decide))
  rw [field_spells hspells (by simp [hlen]), parse_octal (by decide) hlt (hlt.trans (by decide)), hv]

theorem Made.parses_size (hm : Made name type size h) (hsize : size < 2 ^ 31) :
    parseSize h type = .ok (sizeOf type size) := by
  cases type with
  | regular =>
    have hlen := size_length hsize
    rw [parseSize, field_spells hm.size_spells (by simp [hlen]), parse_octal (by decide) (by omega) (by omega)]
    exact if_neg (by omega)
  | directory => rfl

theorem Made.parses_type (hm : Made name type size h) : parseType h = .ok type := by
  rw [parseType, hm.flag]
  cases type <;> rfl

theorem parse_made (hm : Made name type size h) (hsize : size < 2 ^ 31) (hzero : 0 ∉ name)
    (hlen : name.length ≤ 99) :
    parseHeader h = .ok (.entry (stripAntisocialPrefixes name) type (sizeOf type size)) := by
  have hversion : ¬(h 263 ≠ 0x30 ∨ h 264 ≠ 0x30) := by
    rw [hm.version_spells.1, hm.version_spells.2.1]
    simp
  have hends : ¬(h 99 ≠ 0 ∨ h 345 ≠ 0) := by
    rw [hm.name_ends, hm.no_prefix]
    simp
  rw [parseHeader, not_all_zeros (by decide) hm.not_eof, if_neg Bool.false_ne_true, if_neg (not_not_intro hm.magic),
    if_neg hversion, hm.chksum]
  show (if calculateChksum h ≠ calculateChksum h then _ else _) = _
  rw [if_neg (not_not_intro rfl), if_neg hends, hm.parses_type, Steps.ok_bind, hm.parses_size hsize, Steps.ok_bind,
    cString_field hm.name_spells hzero (by omega)]
  rfl

/-! ### One byte changed -/

theorem sum_update (f : Nat → Nat) (i v n : Nat) (hi : i < n) :
    ((List.range n).map (Function.update f i v)).sum + f i = ((List.range n).map f).sum + v := by
  induction n with
  | zero => omega
  | succ n ih =>
    simp only [List.range_succ, List.map_append, List.sum_append, List.map_singleton, List.sum_singleton]
    by_cases hin : i = n
    · subst hin
      have hsame : (List.range i).map (Function.update f i v) = (List.range i).map f := by
        apply List.map_congr_left
        grind
      rw [hsame, Function.update_self]
      omega
    · grind

theorem calculateChksum_eq (h : Bytes) : calculateChksum h =
    ((List.range headerSize).map fun i => if inChksumField i then 0x20 else (h i).toNat).sum := by
  have hsum := sum_le h headerSize
  have hmax : headerSize * 255 < 2 ^ 32 := by decide
  exact Nat.mod_eq_of_lt (by omega)

theorem calculateChksum_update {i : Nat} (hi : i < headerSize) (hout : inChksumField i = false) {v : UInt8}
    (hv : v ≠ h i) : calculateChksum (Function.update h i v) ≠ calculateChksum h := by
  have hterms : (fun j => if inChksumField j then 0x20 else (Function.update h i v j).toNat) =
      Function.update (fun j => if inChksumField j then 0x20 else (h j).toNat) i v.toNat := by
    grind
  have hsum := sum_update (fun j => if inChksumField j then 0x20 else (h j).toNat) i v.toNat headerSize hi
  have hne : v.toNat ≠ (h i).toNat := fun he => hv (UInt8.toNat_inj.mp he)
  rw [calculateChksum_eq, calculateChksum_eq, hterms]
  grind

/-- A header with one byte changed, outside the checksum. -/
theorem changed_refused (hm : Made name type size h) {i : Nat} (hi : i < headerSize)
    (hout : inChksumField i = false) {v : UInt8} (hv : v ≠ h i) : ∃ msg, parseHeader (Function.update h i v) = .error msg := by
  have hfield : field (Function.update h i v) 148 8 = field h 148 8 := by
    apply List.map_congr_left
    intro j hj
    have hne : 148 + j ≠ i := by
      intro he
      have := List.mem_range.mp hj
      simp only [inChksumField, decide_eq_false_iff_not, not_and] at hout
      omega
    exact Function.update_of_ne hne v h
  have hmismatch := calculateChksum_update hi hout hv
  have hzeros : isAllZeros (Function.update h i v) = false := by
    by_cases h257 : i = 257
    · have hbyte : Function.update h i v 263 = 0x30 := by
        rw [Function.update_of_ne (by omega)]
        exact hm.version_spells.1
      exact not_all_zeros (o := 263) (by decide) (by rw [hbyte]; decide)
    · have hbyte : Function.update h i v 257 = h 257 := Function.update_of_ne (Ne.symm h257) v h
      exact not_all_zeros (o := 257) (by decide) (by rw [hbyte]; exact hm.not_eof)
  rw [parseHeader, hzeros, if_neg Bool.false_ne_true]
  split
  · exact ⟨_, rfl⟩
  split
  · exact ⟨_, rfl⟩
  rw [hfield, hm.chksum]
  exact ⟨_, if_pos (Ne.symm hmismatch)⟩

/-! ### Round trip -/

theorem makeHeader_none_iff : makeHeader name type size = none ↔ 99 < (stripAntisocialPrefixes name).length := by
  simp [makeHeader]

theorem made_of_makeHeader (hsize : size < 2 ^ 31) (hh : makeHeader name type size = some h) :
    Made (stripAntisocialPrefixes name) type size h ∧ (stripAntisocialPrefixes name).length ≤ 99 := by
  have hlen : (stripAntisocialPrefixes name).length ≤ 99 := by
    by_contra hlong
    rw [makeHeader_none_iff.mpr (by omega)] at hh
    cases hh
  refine ⟨makeHeader_made hsize hlen ?_, hlen⟩
  simp only [makeHeader] at hh
  grind

/-- A header that is made parses to what it was made from. -/
theorem parse_makeHeader (hname : 0 ∉ name) (hsize : size < 2 ^ 31) (hh : makeHeader name type size = some h) :
    parseHeader h = .ok (.entry (stripAntisocialPrefixes name) type (sizeOf type size)) := by
  obtain ⟨hmade, hlen⟩ := made_of_makeHeader hsize hh
  rw [parse_made hmade hsize (zero_not_mem_strip hname) hlen, strip_strip]

/-- For every file name, type and size: a header is refused exactly when the stripped name is too long; a header that
is made parses to the stripped name, the type and the size, and does not parse when one byte outside the
checksum is changed. Stripping removes prefixes as long as there are any. -/
theorem ustar_headers (name : List UInt8) (hname : 0 ∉ name) (type : UstarType) (size : Nat)
    (hsize : size < 2 ^ 31) :
    (makeHeader name type size = none ↔ 99 < (stripAntisocialPrefixes name).length) ∧
    (∃ (dropped : List (List UInt8)) (rest : List UInt8), name = dropped.flatten ++ rest ∧
      (∀ p ∈ dropped, p ∈ prefixes) ∧ antisocial rest = false ∧
      stripAntisocialPrefixes name = if rest = [] ∨ rest = [dot, dot] then [dot] else rest) ∧
    stripAntisocialPrefixes (stripAntisocialPrefixes name) = stripAntisocialPrefixes name ∧
    (∀ p ∈ prefixes, ¬p <+: stripAntisocialPrefixes name) ∧ stripAntisocialPrefixes name ≠ [dot, dot] ∧
    ∀ h, makeHeader name type size = some h →
      parseHeader h = .ok (.entry (stripAntisocialPrefixes name) type (sizeOf type size)) ∧
      ∀ i < headerSize, inChksumField i = false → ∀ v, v ≠ h i →
        ∃ msg, parseHeader (Function.update h i v) = .error msg := by
  obtain ⟨hsocial, -, hdots⟩ := strip_social name
  refine ⟨makeHeader_none_iff, strip_spec name, strip_strip name, ?_, hdots, ?_⟩
  · intro p hp hpre
    have ha := antisocial_iff.mpr ⟨p, hp, hpre⟩
    rw [hsocial] at ha
    cases ha
  · intro h hh
    refine ⟨parse_makeHeader hname hsize hh, ?_⟩
    intro i hi hout v hv
    exact changed_refused (made_of_makeHeader hsize hh).1 hi hout hv

/-- The file `/../a` of the largest size. -/
theorem ustar_headers_largest : ∃ h, makeHeader (text "/../a") .regular (2 ^ 31 - 1) = some h ∧
    parseHeader h = .ok (.entry (stripAntisocialPrefixes (text "/../a")) .regular (2 ^ 31 - 1)) := by
  have hall := ustar_headers (text "/../a") (by decide +kernel) .regular (2 ^ 31 - 1) (by decide)
  have hshort : ¬99 < (stripAntisocialPrefixes (text "/../a")).length := by decide +kernel
  obtain ⟨h, hh⟩ := Option.ne_none_iff_exists'.mp (mt hall.1.mp hshort)
  exact ⟨h, hh, (hall.2.2.2.2.2 h hh).1⟩

end Pintos.Ustar
