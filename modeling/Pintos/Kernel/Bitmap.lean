import Pintos.Library.Bytes

/-! The kernel's bitmaps (`lib/kernel/bitmap.c`).

From the outside a bitmap is an array of bits, from the inside an array of 32-bit
elements. The asserted ranges of the source are the predicate `inRange`; who calls a
function checks it. A scan that finds nothing (`BITMAP_ERROR`) is `none`. -/
namespace Pintos.Kernel

def elemBits : Nat := 32

def elemCnt (bitCnt : Nat) : Nat := (bitCnt + elemBits - 1) / elemBits

def byteCnt (bitCnt : Nat) : Nat := 4 * elemCnt bitCnt

structure Bitmap where
  bitCnt : Nat
  bits : List (BitVec 32)
  length_bits : bits.length = elemCnt bitCnt
deriving Repr, DecidableEq

namespace Bitmap

def elemIdx (bitIdx : Nat) : Nat := bitIdx / elemBits

def bitMask (bitIdx : Nat) : BitVec 32 := 1#32 <<< (bitIdx % elemBits)

/-- The bits in use of the last element. -/
def lastMask (b : Bitmap) : BitVec 32 :=
  if b.bitCnt % elemBits = 0 then BitVec.allOnes 32 else (1#32 <<< (b.bitCnt % elemBits)) - 1#32

/-- All bits false; the memory the elements are taken from counts as cleared. -/
def create (bitCnt : Nat) : Bitmap := ⟨bitCnt, List.replicate (elemCnt bitCnt) 0, List.length_replicate⟩

/-- The element `idx` replaced. -/
def setElem (b : Bitmap) (idx : Nat) (e : BitVec 32) : Bitmap :=
  ⟨b.bitCnt, b.bits.set idx e, by rw [List.length_set, b.length_bits]⟩

def inRange (b : Bitmap) (start cnt : Nat) : Bool := start + cnt ≤ b.bitCnt

def mark (b : Bitmap) (bitIdx : Nat) : Bitmap :=
  b.setElem (elemIdx bitIdx) (b.bits.getD (elemIdx bitIdx) 0 ||| bitMask bitIdx)

def reset (b : Bitmap) (bitIdx : Nat) : Bitmap :=
  b.setElem (elemIdx bitIdx) (b.bits.getD (elemIdx bitIdx) 0 &&& ~~~bitMask bitIdx)

def put (b : Bitmap) (idx : Nat) (value : Bool) : Bitmap :=
  if value then b.mark idx else b.reset idx

def test (b : Bitmap) (idx : Nat) : Bool :=
  (b.bits.getD (elemIdx idx) 0 &&& bitMask idx) != 0

def setMultiple (b : Bitmap) (start cnt : Nat) (value : Bool) : Bitmap :=
  (List.range cnt).foldl (fun b i => b.put (start + i) value) b

def contains (b : Bitmap) (start cnt : Nat) (value : Bool) : Bool :=
  (List.range cnt).any fun i => b.test (start + i) == value

def all (b : Bitmap) (start cnt : Nat) : Bool := !b.contains start cnt false

/-- The scan's loop, with the number of start positions left to try. -/
def scanFrom (b : Bitmap) (cnt : Nat) (value : Bool) : Nat → Nat → Option Nat
  | _, 0 => none
  | i, left + 1 => if b.contains i cnt (!value) then scanFrom b cnt value (i + 1) left else some i

def scan (b : Bitmap) (start cnt : Nat) (value : Bool) : Option Nat :=
  if cnt ≤ b.bitCnt then b.scanFrom cnt value start (b.bitCnt - cnt + 1 - start) else none

def scanAndFlip (b : Bitmap) (start cnt : Nat) (value : Bool) : Option (Nat × Bitmap) :=
  (b.scan start cnt value).map fun idx => (idx, b.setMultiple idx cnt (!value))

def fileSize (b : Bitmap) : Nat := byteCnt b.bitCnt

/-- The elements as they lie in memory, which is what `bitmap_write` stores. -/
def image (b : Bitmap) : Bytes :=
  fun j => UInt8.ofBitVec ((b.bits.getD (j / 4) 0).extractLsb' (8 * (j % 4)) 8)

/-- The elements read from the bytes of a file. -/
def load (bitCnt : Nat) (bytes : Bytes) : Bitmap :=
  ⟨bitCnt, (List.range (elemCnt bitCnt)).map fun k => BitVec.ofNat 32 (bytes.word k), by simp⟩

/-- The bitmap `bitmap_read` leaves when the file holds `bytes`. -/
def ofImage (b : Bitmap) (bytes : Bytes) : Bitmap :=
  if 0 < b.bitCnt then
    let r := load b.bitCnt bytes
    r.setElem (elemCnt b.bitCnt - 1) (r.bits.getD (elemCnt b.bitCnt - 1) 0 &&& b.lastMask)
  else b

end Bitmap

end Pintos.Kernel
