import TargetLink.Target.Client

/-!
# Placed segments

A segment of a module was linked at one address and lives at another.  The distance between the two
is what every address inside the segment moves by; addresses wrap around at the end of the address
space, and so do the ranges of a segment.
-/

namespace TargetLink

structure Segment where
  linkAddress : UInt32
  memorySize : UInt32
  fileSize : UInt32
  flags : UInt32
  allocation : Allocation
  deriving DecidableEq, Repr

namespace Segment

def address (segment : Segment) : UInt32 := segment.allocation.address

def delta (segment : Segment) : UInt32 := segment.address - segment.linkAddress

def containsLink (segment : Segment) (address : UInt32) : Bool :=
  address - segment.linkAddress < segment.memorySize

def contains (segment : Segment) (address : UInt32) : Bool :=
  address - segment.address < segment.memorySize

/-- A link-time address of the segment is a final address of it once it has moved. -/
theorem contains_add_delta (segment : Segment) (address : UInt32) :
    segment.contains (address + segment.delta) = segment.containsLink address := by
  have h : address + segment.delta - segment.address = address - segment.linkAddress := by
    unfold delta
    grind
  simp only [contains, containsLink, h]

/-- How far the first segment that contains a link-time address moved; zero if none does. -/
def shiftOf (segments : List Segment) (address : UInt32) : UInt32 :=
  ((segments.find? (·.containsLink address)).map (·.delta)).getD 0

end Segment

/-- An array of addresses in target memory. -/
structure AddressArray where
  address : UInt32
  /-- The length in bytes. -/
  size : UInt32
  deriving DecidableEq, Repr

end TargetLink
