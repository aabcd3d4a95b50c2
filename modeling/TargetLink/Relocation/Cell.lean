import TargetLink.Bytes
import TargetLink.Error
import TargetLink.Relocation.Layout

/-!
# The cells that relocations patch

A relocation reads and writes one cell of a staged segment: a byte, a halfword, a word, or the two
halfwords of a 32-bit Thumb instruction, of which the first holds the high bits whatever the byte
order is.  Every access is checked against the end of the segment.
-/

namespace TargetLink.Relocation

/-- A staged segment, a place in it, and the byte order of the module. -/
structure Site where
  bytes : Bytes
  offset : Nat
  order : ByteOrder
  deriving DecidableEq, Repr

/-- What a relocation reads and writes as one. -/
inductive Cell
  | byte
  | half
  | word
  | thumbPair
  deriving DecidableEq, Repr

namespace Cell

def size : Cell → Nat
  | byte => 1
  | half => 2
  | word => 4
  | thumbPair => 4

/-- The number of `width` bytes at an offset of a segment. -/
def unit (bytes : Bytes) (order : ByteOrder) (offset width : Nat) : Except LoadError Nat :=
  match bytes.window offset width with
  | some part => .ok (order.decode part)
  | none => .error (.relocation (.fieldOutside offset width))

def read (cell : Cell) (site : Site) : Except LoadError (BitVec 32) :=
  match cell with
  | byte => do return BitVec.ofNat 32 (← unit site.bytes site.order site.offset 1)
  | half => do return BitVec.ofNat 32 (← unit site.bytes site.order site.offset 2)
  | word => do return BitVec.ofNat 32 (← unit site.bytes site.order site.offset 4)
  | thumbPair => do
    let first ← unit site.bytes site.order site.offset 2
    let second ← unit site.bytes site.order (site.offset + 2) 2
    return BitVec.ofNat 32 (first * 0x10000 + second)

def encode (cell : Cell) (order : ByteOrder) (contents : BitVec 32) : Bytes :=
  match cell with
  | byte => order.encode 1 contents.toNat
  | half => order.encode 2 contents.toNat
  | word => order.encode 4 contents.toNat
  | thumbPair =>
    order.encode 2 (contents.toNat / 0x10000) ++ order.encode 2 (contents.toNat % 0x10000)

@[simp] theorem length_encode (cell : Cell) (order : ByteOrder) (contents : BitVec 32) :
    (cell.encode order contents).length = cell.size := by
  cases cell <;> simp [encode, size]

/-- The segment with new contents in the cell at a site. -/
def write (cell : Cell) (site : Site) (contents : BitVec 32) : Bytes :=
  site.bytes.overwrite site.offset (cell.encode site.order contents)

@[simp] theorem length_write (cell : Cell) (site : Site) (contents : BitVec 32) :
    (cell.write site contents).length = site.bytes.length := by
  simp [write]

/-- Writing a cell leaves every byte outside of it alone. -/
theorem getElem?_write_of_outside (cell : Cell) (site : Site) (contents : BitVec 32) {i : Nat}
    (hout : i < site.offset ∨ site.offset + cell.size ≤ i) :
    (cell.write site contents)[i]? = site.bytes[i]? :=
  Bytes.getElem?_overwrite_of_outside _ (by rwa [length_encode])

end Cell

end TargetLink.Relocation
