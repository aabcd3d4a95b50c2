import TargetLink.Target.Memory

/-!
# The simulated target

A client for hosts: object files come from a registry and from search paths, target memory is
simulated, and execution is a list of the addresses that were to be run.
-/

namespace TargetLink

abbrev Directory := List (String × Image)

structure SimulatedTarget where
  memory : Memory := {}
  /-- The registered files; they hide files of the same name on the search paths. -/
  files : Directory := []
  /-- The directories that are searched for other files, in order. -/
  searchPaths : List Directory := []
  /-- The addresses that were run, in order. -/
  executed : List UInt32 := []
  /-- The addresses of the allocations that were given back, in order. -/
  released : List UInt32 := []
  deriving DecidableEq, Repr, Inhabited

namespace SimulatedTarget

/-- A target that places relocatable segments in `[base, limit)`. -/
def withHeap (target : SimulatedTarget) (base limit : UInt32) : SimulatedTarget :=
  { target with memory := { target.memory with cursor := base, heapEnd := limit } }

def register (target : SimulatedTarget) (name : String) (image : Image) : SimulatedTarget :=
  { target with files := (name, image) :: target.files.filter (·.1 != name) }

def allocations (target : SimulatedTarget) : Nat := target.memory.regions.length

/-- The file of a dependency: the registered one, else the first one on the search paths. -/
def open? (target : SimulatedTarget) (name : String) : Option Image :=
  (target.files :: target.searchPaths).findSome? (·.lookup name)

def allocate (request : AllocRequest) : LoadM SimulatedTarget Allocation := do
  let target ← get
  let (allocation, memory) ← MonadExcept.ofExcept (target.memory.allocate request)
  set { target with memory }
  return allocation

/-- Takes an allocation back. Releasing what is not live does nothing. -/
def release (allocation : Allocation) : StateM SimulatedTarget Unit :=
  modify fun target =>
    if target.memory.isLive allocation then
      { target with
        memory := target.memory.release allocation
        released := target.released ++ [allocation.address] }
    else target

def write (address : UInt32) (bytes : Bytes) : LoadM SimulatedTarget Unit := do
  let target ← get
  match target.memory.store? address bytes with
  | some memory => set { target with memory }
  | none => throw (.memory (.unmappedWrite bytes.length address))

def read (address : UInt32) (size : Nat) : LoadM SimulatedTarget Bytes := do
  let target ← get
  match target.memory.load? address size with
  | some bytes => return bytes
  | none => throw (.memory (.unmappedRead size address))

def execute (address : UInt32) : LoadM SimulatedTarget Unit :=
  modify fun target => { target with executed := target.executed ++ [address] }

def copy (image : Image) (request : CopyRequest) : LoadM SimulatedTarget Bytes :=
  MonadExcept.ofExcept (request.stage image)

instance : Client SimulatedTarget where
  allocate := allocate
  release := release
  copy := copy
  write := write
  read := read
  execute := execute
  openDependent name := return (← get).open? name

end SimulatedTarget

end TargetLink
