import Pintos.Kernel.Stdio
import Pintos.Library.Strings

/-! Headers of ustar archives (`lib/ustar.c`).

A header is a sector of text fields at fixed places, with a checksum over all bytes in which its own field counts
as spaces. What `ustar_make_header` writes, `ustar_parse_header` reads back; a header in which one other byte has
changed is refused. -/
namespace Pintos.Ustar

open Bytes

def headerSize : Nat := 512

/-- `enum ustar_type`, without the end of the archive. -/
inductive UstarType where
  | regular
  | directory
deriving Repr, DecidableEq

def UstarType.flag : UstarType → UInt8
  | .regular => 0x30
  | .directory => 0x35

def UstarType.mode : UstarType → Nat
  | .regular => 0o644
  | .directory => 0o755

/-- What `ustar_parse_header` stores. -/
inductive Parsed where
  | eof
  | entry (fileName : List UInt8) (type : UstarType) (size : Nat)
deriving Repr, DecidableEq

/-! ### Names -/

def slash : UInt8 := 0x2f
def dot : UInt8 := 0x2e

/-- The test of the loop in `strip_antisocial_prefixes`. -/
def antisocial (fileName : List UInt8) : Bool :=
  [slash].isPrefixOf fileName || [dot, slash].isPrefixOf fileName || [dot, dot, slash].isPrefixOf fileName

/-- `strchr (file_name, '/') + 1`. -/
def afterSlash (fileName : List UInt8) : List UInt8 := (fileName.dropWhile (· ≠ slash)).tail

/-- Each round drops at least one character. -/
def stripLoop : Nat → List UInt8 → List UInt8
  | 0, fileName => fileName
  | rounds + 1, fileName => if antisocial fileName then stripLoop rounds (afterSlash fileName) else fileName

def stripAntisocialPrefixes (fileName : List UInt8) : List UInt8 :=
  let fileName := stripLoop fileName.length fileName
  if fileName = [] ∨ fileName = [dot, dot] then [dot] else fileName

/-! ### Fields -/

/-- `strlcpy`, and the end of `snprintf`: as much of the text as there is room for, and a null byte. -/
def store (h : Bytes) (field size : Nat) (text : List UInt8) : Bytes := h.write field (text.take (size - 1) ++ [0])

def text (s : String) : List UInt8 := s.toUTF8.toList

/-- The bytes of a field. -/
def field (h : Bytes) (start size : Nat) : List UInt8 := (List.range size).map fun i => h (start + i)

def inChksumField (i : Nat) : Bool := 148 ≤ i ∧ i < 156

def calculateChksum (h : Bytes) : Nat :=
  ((List.range headerSize).map fun i => if inChksumField i then 0x20 else (h i).toNat).sum % 2 ^ 32

/-- The header without its checksum. -/
def fillHeader (fileName : List UInt8) (type : UstarType) (size : Nat) : Bytes :=
  let h : Bytes := fun _ => 0
  let h := store h 0 100 fileName
  let h := store h 100 8 (Stdio.octal 7 type.mode)
  let h := store h 108 8 (text "0000000")
  let h := store h 116 8 (text "0000000")
  let h := store h 124 12 (Stdio.octal 11 size)
  let h := store h 136 12 (Stdio.octal 11 1136102400)
  let h := h.write 156 [type.flag]
  let h := store h 257 6 (text "ustar")
  let h := h.write 263 [0x30, 0x30]
  let h := store h 297 32 (text "root")
  store h 265 32 (text "root")

/-- `ustar_make_header`: the header, unless the name is too long. -/
def makeHeader (fileName : List UInt8) (type : UstarType) (size : Nat) : Option Bytes :=
  let fileName := stripAntisocialPrefixes fileName
  if fileName.length > 99 then none
  else
    let h := fillHeader fileName type size
    some (store h 148 8 (Stdio.octal 7 (calculateChksum h)))

/-! ### Parsing -/

/-- The loop of `parse_octal_field`, over the rest of the field. -/
def parseLoop : List UInt8 → Nat → Nat → Option Nat
  | [], _, _ => none
  | c :: s, ofs, value =>
    if 0x30 ≤ c ∧ c ≤ 0x37 then
      if value > (2 ^ 32 - 1) / 8 then none else parseLoop s (ofs + 1) ((c.toNat - 0x30 + value * 8) % 2 ^ 32)
    else if c = 0x20 ∨ c = 0 then if ofs > 0 then some value else none
    else none

def parseOctalField (s : List UInt8) : Option Nat := parseLoop s 0 0

def isAllZeros (h : Bytes) : Bool := (List.range headerSize).all fun i => h i = 0

/-- The string in a field that has a null byte. -/
def cString (s : List UInt8) : List UInt8 := s.takeWhile (· ≠ 0)

def parseType (h : Bytes) : Except String UstarType :=
  if h 156 = UstarType.regular.flag then .ok .regular
  else if h 156 = UstarType.directory.flag then .ok .directory
  else .error "unimplemented file type"

def parseSize (h : Bytes) : UstarType → Except String Nat
  | .regular =>
    match parseOctalField (field h 124 12) with
    | none => .error "corrupt file size field"
    | some size => if size > 2 ^ 31 - 1 then .error "file too large" else .ok size
  | .directory => .ok 0

def parseHeader (h : Bytes) : Except String Parsed :=
  if isAllZeros h then .ok .eof
  else if field h 257 6 ≠ text "ustar" ++ [0] then .error "not a ustar archive"
  else if h 263 ≠ 0x30 ∨ h 264 ≠ 0x30 then .error "invalid ustar version"
  else
    match parseOctalField (field h 148 8) with
    | none => .error "corrupt chksum field"
    | some chksum =>
      if chksum ≠ calculateChksum h then .error "checksum mismatch"
      else if h 99 ≠ 0 ∨ h 345 ≠ 0 then .error "file name too long"
      else do
        let type ← parseType h
        let size ← parseSize h type
        return .entry (stripAntisocialPrefixes (cString (field h 0 100))) type size

end Pintos.Ustar
