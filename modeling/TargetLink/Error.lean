import TargetLink.Text.Hex
import TargetLink.Elf.Machine

/-!
# Errors

Everything that can go wrong while modules are loaded, relocated or unloaded.  Each constructor is
one cause with the facts that describe it; `LoadError.message` is the only place that words it.
-/

namespace TargetLink

inductive FormatFault
  | outOfFile (offset length size : Nat)
  | badMagic
  | wrongClass
  | version (number : UInt8)
  | encoding (number : UInt8)
  | objectType (number : UInt16)
  | machine (number : UInt16)
  | programHeaderSize (size : UInt16)
  | segmentFileTooLong (address : UInt32)
  | segmentOutsideFile (address : UInt32)
  | dynamicUnterminated
  | tableNotInFile (address length : UInt32)
  | stringOutside (offset : UInt32)
  | stringUnterminated (offset : UInt32)
  | tagMissing (tag : String)
  | entrySize (name : String) (size expected : UInt32)
  | symbolCount (count : UInt32)
  | noSoname
  | pltKind (tag : UInt32)
  | cutRelocationTable (address : UInt32)
  | mixedMachines (locked found : Machine)
  | copyTooLong (fileSize memorySize : UInt32)
  deriving DecidableEq, Repr

inductive SymbolFault
  | indexOutOfBounds (index : UInt32) (count : Nat)
  | noOwnDefinition (name : String)
  | unresolved (name : String)
  | unresolvedReferences (count : Nat) (owner : String)
  deriving DecidableEq, Repr

/-- Why a relocation cannot be applied to its field. -/
inductive RelocationFault
  | fieldOutside (offset width : Nat)
  | needsVeneer (name : String) (place : UInt32)
  | notAddOrSub (instruction : UInt32)
  | noSegment (name : String) (offset : UInt32)
  | strayPlt (offset : UInt32)
  deriving DecidableEq, Repr

inductive MemoryFault
  | noRoom (size : UInt32)
  | wrapsAround (address : UInt32)
  | collides (address other : UInt32)
  | unmappedWrite (length : Nat) (address : UInt32)
  | unmappedRead (length : Nat) (address : UInt32)
  | misplaced (wanted got : UInt32)
  | argumentsTooLong (needed : Nat) (capacity : UInt32)
  /-- A fault that a client words itself. -/
  | reported (text : String)
  deriving DecidableEq, Repr

/-- Why a module cannot get or keep its slot in the table of static bases. -/
inductive DsbtFault
  | alreadyRequested (name : String)
  | indexOutsideTable (name : String) (index size : UInt32)
  | bothRequest (first second : String) (index : UInt32)
  | slotBound (name : String) (index : UInt32) (owner : String)
  | tableTooSmall (name : String) (size : UInt32) (used : Nat)
  | noIndex (relocation : String) (place : UInt32)
  deriving DecidableEq, Repr

/-- Conditions that the loader itself keeps from arising, and addends that a machine never
stores in the field. -/
inductive InternalFault
  | storedAddend (relocation : String)
  | notResident (handle : UInt32)
  | stagedCount (owner : String) (staged segments : Nat)
  | notListed (owner : String)
  | noPlainField
  deriving DecidableEq, Repr

/-- Why an operation of the loader failed. -/
inductive LoadError
  | invalidElf (fault : FormatFault)
  | dependencyNotFound (name : String)
  | circularDependency (name : String)
  | symbolResolution (fault : SymbolFault)
  | relocation (fault : RelocationFault)
  | relocationOverflow (name : String) (place : UInt32) (value : Int)
  | unsupportedRelocation (machine : Machine) (type : UInt32)
  | memory (fault : MemoryFault)
  | handlesExhausted
  | unknownHandle (handle : UInt32)
  | dsbt (fault : DsbtFault)
  | io
  | internal (fault : InternalFault)
  deriving DecidableEq, Repr

namespace FormatFault

def message : FormatFault → String
  | outOfFile offset length size =>
    s!"Range {hex offset}+{hex length} lies outside of the file ({hex size} bytes)"
  | badMagic => "Bad magic number"
  | wrongClass => "Not a 32-bit object file"
  | version number => s!"Unsupported ELF version {number.toNat}"
  | encoding number => s!"Invalid data encoding {number.toNat}"
  | objectType number => s!"Unsupported object file type {number.toNat}"
  | machine number => s!"Unsupported machine {number.toNat}"
  | programHeaderSize size => s!"Unexpected program header size {size.toNat}"
  | segmentFileTooLong address =>
    s!"Segment at {hex address.toNat} has more bytes in the file than in memory"
  | segmentOutsideFile address => s!"Segment at {hex address.toNat} lies outside of the file"
  | dynamicUnterminated => "Dynamic table is not terminated by DT_NULL"
  | tableNotInFile address length =>
    s!"Table at {hex address.toNat} with {hex length.toNat} bytes is not backed by the file"
  | stringOutside offset =>
    s!"String offset {hex offset.toNat} lies outside of the string table"
  | stringUnterminated offset => s!"String at {hex offset.toNat} is not terminated"
  | tagMissing tag => s!"Mandatory dynamic tag {tag} is missing"
  | entrySize name size expected =>
    s!"{name} entries are {size.toNat} bytes, expected {expected.toNat}"
  | symbolCount count => s!"Symbol count {count.toNat} is too large"
  | noSoname => "Shared object has no DT_SONAME"
  | pltKind tag => s!"Invalid DT_PLTREL value {tag.toNat}"
  | cutRelocationTable address =>
    s!"Relocation table at {hex address.toNat} has a partial entry"
  | mixedMachines locked found => s!"Cannot mix {locked.name} and {found.name} modules"
  | copyTooLong fileSize memorySize =>
    s!"Segment file size {hex fileSize.toNat} exceeds its memory size {hex memorySize.toNat}"

end FormatFault

namespace SymbolFault

def message : SymbolFault → String
  | indexOutOfBounds index count =>
    s!"Symbol index {index.toNat} is out of bounds ({count} symbols)"
  | noOwnDefinition name =>
    s!"Symbol '{name}' cannot be preempted but has no definition in its own module"
  | unresolved name => s!"Unresolved reference to '{name}'"
  | unresolvedReferences count owner =>
    s!"{count} relocations of {owner} reference unresolved symbols"

end SymbolFault

namespace RelocationFault

def message : RelocationFault → String
  | fieldOutside offset width =>
    s!"Field at offset {hex offset} with {width} bytes lies outside of its segment"
  | needsVeneer name place =>
    s!"{name} at {hex place.toNat} cannot switch instruction sets without a veneer"
  | notAddOrSub instruction =>
    s!"Group relocation on non ADD/SUB instruction {hexWord instruction.toNat}"
  | noSegment name offset => s!"{name} at {hex offset.toNat} does not patch any segment"
  | strayPlt offset => s!"PLT relocation at {hex offset.toNat} lies outside of the GOT segment"

end RelocationFault

namespace MemoryFault

def message : MemoryFault → String
  | noRoom size => s!"No room for a segment of {hex size.toNat} bytes"
  | wrapsAround address => s!"Segment at {hex address.toNat} wraps around the address space"
  | collides address other =>
    s!"Segment at {hex address.toNat} collides with the allocation at {hex other.toNat}"
  | unmappedWrite length address =>
    s!"Write of {hex length} bytes to unmapped address {hex address.toNat}"
  | unmappedRead length address =>
    s!"Read of {hex length} bytes from unmapped address {hex address.toNat}"
  | misplaced wanted got =>
    s!"Segment of a static executable must live at {hex wanted.toNat} but got {hex got.toNat}"
  | argumentsTooLong needed capacity =>
    s!"Arguments need {needed} bytes but the argument area holds {capacity.toNat}"
  | reported text => text

end MemoryFault

namespace DsbtFault

def message : DsbtFault → String
  | alreadyRequested name => s!"{name} already requested a DSBT slot"
  | indexOutsideTable name index size =>
    s!"{name} requests DSBT index {index.toNat} but its table holds {size.toNat} slots"
  | bothRequest first second index =>
    s!"{first} and {second} both request DSBT index {index.toNat}"
  | slotBound name index owner =>
    s!"{name} requests DSBT index {index.toNat} which is bound to {owner}"
  | tableTooSmall name size used =>
    s!"The DSBT of {name} holds {size.toNat} slots but {used} are in use"
  | noIndex relocation place =>
    s!"{relocation} at {hex place.toNat} needs a DSBT index but the module has none"

end DsbtFault

namespace InternalFault

def message : InternalFault → String
  | storedAddend relocation =>
    s!"{relocation} in a REL table: C6000 modules carry their addends in RELA entries"
  | notResident handle => s!"No resident module has handle {handle.toNat}"
  | stagedCount owner staged segments =>
    s!"{owner} has {staged} staged buffers for {segments} segments"
  | notListed owner => s!"{owner} is not in the module list"
  | noPlainField => "Group relocations have no plain field"

end InternalFault

def LoadError.message : LoadError → String
  | invalidElf fault => s!"Invalid ELF binary: {fault.message}"
  | dependencyNotFound name => s!"The dependency '{name}' cannot be found by the client"
  | circularDependency name =>
    s!"Circular dependency detected: '{name}' is already being loaded"
  | symbolResolution fault => s!"Symbol resolution error: {fault.message}"
  | relocation fault => s!"Relocation error: {fault.message}"
  | relocationOverflow name place value =>
    s!"Relocation {name} at {hex place.toNat} overflows its field (value {hexSigned value})"
  | unsupportedRelocation machine type =>
    s!"Unsupported relocation type {type.toNat} for {machine.name}"
  | memory fault => s!"Target memory error: {fault.message}"
  | handlesExhausted => "Ran out of file handles"
  | unknownHandle handle => s!"No module is loaded under file handle {handle.toNat}"
  | dsbt fault => s!"DSBT error: {fault.message}"
  | io => "IO error: failed to fill whole buffer"
  | internal fault => s!"Internal loader error: {fault.message}"

/-! ## Steps that may fail -/

/-- A step over a state that may fail. What it did to the state before it failed stays done. -/
abbrev LoadM (σ : Type) := ExceptT LoadError (StateM σ)

namespace LoadM

variable {σ τ α : Type}

/-- A step that never fails by itself: its answer says whether the given step failed. -/
def observe (step : LoadM σ α) : LoadM σ (Except LoadError α) := fun s =>
  let (result, s) := step s
  (.ok result, s)

/-- A step on a part of a larger state. -/
def zoom (part : τ → σ) (replace : σ → τ → τ) (step : LoadM σ α) : LoadM τ α := fun t =>
  let (result, s) := step (part t)
  (result, replace s t)

end LoadM

end TargetLink
