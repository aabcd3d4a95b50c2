import TargetLink.Target.Client

/-!
# Simulated target memory

Target memory is a list of regions, ascending by their addresses.  A segment that must stay where
it was linked gets a region there or fails; any other is placed in a heap window by a cursor that
only moves upwards and skips the regions in its way.

`probe` is one step of that search, and `search` repeats it.  A candidate that follows a collision
is the end of a region, so a search that collides more often than there are regions meets a
candidate again and would never end; it counts as finding no room.
-/

namespace TargetLink

/-- A stretch of target memory that belongs to one allocation. -/
structure Region where
  start : UInt32
  token : Nat
  bytes : Bytes
  deriving DecidableEq, Repr

namespace Region

/-- The address behind a region, which may lie behind the address space. -/
def limit (region : Region) : Nat := region.start.toNat + region.bytes.length

def meets (region : Region) (address size : UInt32) : Bool :=
  region.start.toNat < address.toNat + size.toNat && address.toNat < region.limit

end Region

/-- Target memory and the heap window that relocatable segments are placed in. -/
structure Memory where
  /-- The live regions, ascending by address. -/
  regions : List Region := []
  /-- Where the search for heap memory starts. -/
  cursor : UInt32 := 0x10000000
  heapEnd : UInt32 := 0xf0000000
  nextToken : Nat := 1
  deriving DecidableEq, Repr, Inhabited

namespace Memory

/-! ## Reading and writing -/

/-- The region that holds a range. The end of the range is a number without a bound; one that is
added up in 64 bits is the same for every size below `2 ^ 64 - 2 ^ 32`. -/
def regionOf? (memory : Memory) (address : UInt32) (size : Nat) : Option Region :=
  match (memory.regions.filter (·.start ≤ address)).getLast? with
  | some region => if address.toNat + size ≤ region.limit then some region else none
  | none => none

/-- The bytes of a range, if one region holds it. -/
def load? (memory : Memory) (address : UInt32) (size : Nat) : Option Bytes :=
  (memory.regionOf? address size).bind fun region =>
    region.bytes.window (address.toNat - region.start.toNat) size

/-- Memory with new bytes in a range, if one region holds it. -/
def store? (memory : Memory) (address : UInt32) (bytes : Bytes) : Option Memory :=
  (memory.regionOf? address bytes.length).map fun region =>
    let update := fun r : Region =>
      if r.start = region.start then
        { r with bytes := r.bytes.overwrite (address.toNat - r.start.toNat) bytes }
      else r
    { memory with regions := memory.regions.map update }

/-! ## Placing segments -/

def collision? (memory : Memory) (address size : UInt32) : Option Region :=
  memory.regions.find? (·.meets address size)

/-- The alignment of a request; one that is no power of two counts as four. -/
def alignment (request : AllocRequest) : Nat :=
  if request.align ≠ 0 ∧ request.align &&& (request.align - 1) = 0 then request.align.toNat
  else 4

/-- The outcome of one step of the search for heap memory. -/
inductive Probe
  | free (address : UInt32)
  | full
  | blocked (next : UInt32)
  deriving DecidableEq, Repr

/-- Looks at the first address from a candidate on that keeps the offset of the segment into its
alignment. -/
def probe (memory : Memory) (request : AllocRequest) (candidate : UInt32) : Probe :=
  let align := alignment request
  let raised := candidate.toNat + (align - 1)
  if raised ≥ UInt32.size then .full
  else
    let address := UInt32.ofNat (raised / align * align + request.address.toNat % align)
    if address.toNat + request.memorySize.toNat > memory.heapEnd.toNat then .full
    else
      match memory.collision? address request.memorySize with
      | some region => .blocked (UInt32.ofNat region.limit)
      | none => .free address

/-- The first free address that a number of steps find. -/
def search (memory : Memory) (request : AllocRequest) : (steps : Nat) → UInt32 → Option UInt32
  | 0, _ => none
  | steps + 1, candidate =>
    match memory.probe request candidate with
    | .free address => some address
    | .full => none
    | .blocked next => memory.search request steps next

/-- Where a request goes, and the cursor after it. -/
def place (memory : Memory) (request : AllocRequest) :
    Except LoadError (UInt32 × UInt32) :=
  if request.relocatable then
    match memory.search request (memory.regions.length + 1) memory.cursor with
    | some address => .ok (address, address + request.memorySize)
    | none => .error (.memory (.noRoom request.memorySize))
  else if request.address.toNat + request.memorySize.toNat > UInt32.size then
    .error (.memory (.wrapsAround request.address))
  else
    match memory.collision? request.address request.memorySize with
    | some region => .error (.memory (.collides request.address region.start))
    | none => .ok (request.address, memory.cursor)

/-- The regions with a new one in its place. A region at the same address gives way to it. -/
def insertRegion (region : Region) : List Region → List Region
  | [] => [region]
  | r :: rest =>
    if r.start < region.start then r :: insertRegion region rest
    else if r.start = region.start then region :: rest
    else region :: r :: rest

def allocate (memory : Memory) (request : AllocRequest) :
    Except LoadError (Allocation × Memory) := do
  let (address, cursor) ← memory.place request
  let region : Region := ⟨address, memory.nextToken, Bytes.zeros request.memorySize.toNat⟩
  return (⟨address, request.memorySize, memory.nextToken⟩,
    { memory with
      regions := insertRegion region memory.regions
      cursor
      nextToken := memory.nextToken + 1 })

/-- Whether an allocation is live: the region at its address carries its token. -/
def isLive (memory : Memory) (allocation : Allocation) : Bool :=
  memory.regions.any fun r => r.start == allocation.address && r.token == allocation.token

/-- Memory without the region of an allocation. An allocation that is not live changes nothing. -/
def release (memory : Memory) (allocation : Allocation) : Memory :=
  { memory with regions := memory.regions.filter fun r =>
      !(r.start == allocation.address && r.token == allocation.token) }

end Memory

end TargetLink
