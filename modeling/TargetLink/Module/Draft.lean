import TargetLink.Elf.ObjectFile
import TargetLink.Module.Resident

/-!
# Modules that are being loaded

A draft is what the loader knows of a module between its placement and the end of its load: the
tables of its file, with their addresses moved to where the segments are, and host copies of the
segments, which are patched before they are written to the target.  The segments themselves belong
to the resident module of the same handle.
-/

namespace TargetLink

/-- A module whose segments are placed and that is not ready to run yet. -/
structure Draft where
  handle : Handle
  name : String
  file : ObjectFile
  symbols : List Symbol
  dynamic : List DynamicEntry
  dsbt : Option DsbtInfo
  dsbtIndex : Option UInt32 := none
  /-- The contents of the segments, in their order. -/
  staged : List Bytes
  deriving DecidableEq, Repr

namespace Draft

/-! ## Moving addresses -/

def moveAll (segments : List Segment) (symbols : List Symbol) : List Symbol :=
  segments.foldl (fun table s => moveSymbols table s.linkAddress s.memorySize s.delta) symbols

/-- A dynamic entry after its segment moved. Only addresses move, and a null address does not. -/
def moveEntry (machine : Machine) (segments : List Segment) (entry : DynamicEntry) :
    DynamicEntry :=
  if DynamicTag.isAddress machine entry.tag && entry.value != 0 then
    { entry with value := entry.value + Segment.shiftOf segments entry.value }
  else entry

/-- The entry point of a module while its segments are gone through. -/
structure EntryPoint where
  address : UInt32
  hasMoved : Bool

/-- The draft of a file whose segments are placed and staged. A static module keeps every
address. -/
def ofPlaced (handle : Handle) (name : String) (file : ObjectFile) (segments : List Segment)
    (staged : List Bytes) : Draft :=
  if file.isRelocatable then
    let dynamic := file.dynamic.map (moveEntry file.machine segments)
    { handle, name, file, staged, dynamic
      symbols := moveAll segments file.symbols
      dsbt := file.dsbt.map fun info =>
        { info with base := (DynamicEntry.find? dynamic DynamicTag.dsbtBase).getD info.base } }
  else
    { handle, name, file, staged
      dynamic := file.dynamic
      symbols := file.symbols
      dsbt := file.dsbt }

/-- An entry point that has come past a segment of its module. It moves with the first segment that
contains it, and then no more. -/
def EntryPoint.move (entry : EntryPoint) (segment : Segment) : EntryPoint :=
  if !entry.hasMoved && segment.containsLink entry.address then
    ⟨entry.address + segment.delta, true⟩
  else entry

def placedEntry (file : ObjectFile) (segments : List Segment) : UInt32 :=
  if file.isRelocatable then
    (segments.foldl EntryPoint.move ⟨file.header.entry, false⟩).address
  else file.header.entry

/-! ## What the tables say -/

def definitionIn? (table : List Symbol) (name : String) : Option Symbol :=
  table.find? fun symbol => symbol.name == name && symbol.isDefined

/-- The symbol that holds the static base of a module. -/
def staticBaseSymbol : String := "__TI_STATIC_BASE"

/-- The symbol that marks the area for the program arguments. -/
def argumentsSymbol : String := "__c_args__"

/-- The static base of a module: the value of its symbol, else the address of its private table. -/
def staticBase (draft : Draft) : UInt32 :=
  match definitionIn? draft.symbols staticBaseSymbol, draft.dsbt with
  | some symbol, _ => symbol.value
  | none, some info => info.base
  | none, none => 0

/-- The function that a dynamic tag names; a null address names none. -/
def function? (draft : Draft) (tag : UInt32) : Option UInt32 :=
  (DynamicEntry.find? draft.dynamic tag).filter (· != 0)

/-- The nonempty array of functions that a pair of dynamic tags names. -/
def functions? (draft : Draft) (addressTag sizeTag : UInt32) : Option AddressArray :=
  match DynamicEntry.find? draft.dynamic addressTag, DynamicEntry.find? draft.dynamic sizeTag with
  | some address, some size => if size = 0 then none else some ⟨address, size⟩
  | _, _ => none

def init? (draft : Draft) : Option UInt32 := draft.function? DynamicTag.init

def initArray? (draft : Draft) : Option AddressArray :=
  draft.functions? DynamicTag.initArray DynamicTag.initArraySize

def preinitArray? (draft : Draft) : Option AddressArray :=
  draft.functions? DynamicTag.preinitArray DynamicTag.preinitArraySize

def claim? (draft : Draft) : Option Dsbt.Claim :=
  draft.dsbt.map fun info =>
    { name := draft.name
      handle := draft.handle
      size := info.size
      base := info.base
      staticBase := draft.staticBase
      requested := info.requested }

/-! ## Changing the staged contents -/

/-- Segments' contents with bytes stored at a final address: in the first segment that contains the
address and has room for all of them. -/
def stageIn (address : UInt32) (bytes : Bytes) : List Segment → List Bytes → Option (List Bytes)
  | segment :: segments, block :: blocks =>
    let offset := (address - segment.address).toNat
    if segment.contains address ∧ offset + bytes.length ≤ block.length then
      some (block.overwrite offset bytes :: blocks)
    else
      (stageIn address bytes segments blocks).map (block :: ·)
  | _, _ => none

/-- The draft with bytes stored at a final address, if one of its segments has room for them. -/
def stage? (draft : Draft) (segments : List Segment) (address : UInt32) (bytes : Bytes) :
    Option Draft :=
  (stageIn address bytes segments draft.staged).map fun staged => { draft with staged }

/-- The draft with its slot of the table of static bases, also in the dynamic entry that receives
it. A module without a claim has no slot. -/
def withSlot (draft : Draft) (dsbt : Dsbt) : Draft :=
  match draft.dsbt with
  | none => draft
  | some info =>
    match dsbt.index? draft.handle, info.indexEntry with
    | some index, some position =>
      { draft with
        dsbtIndex := some (UInt32.ofNat index)
        dynamic := draft.dynamic.modify position fun entry =>
          { entry with value := UInt32.ofNat index } }
    | index, _ => { draft with dsbtIndex := index.map UInt32.ofNat }

/-- The draft with its dynamic table written back to the segment that holds it. A table outside of
all segments stays as it is. -/
def withDynamicStaged (draft : Draft) (segments : List Segment) : Draft :=
  let home := draft.file.dynamicAddress.bind fun link =>
    (segments.find? (·.containsLink link)).map fun segment => link + segment.delta
  match home with
  | some address =>
    (draft.stage? segments address
      (DynamicEntry.encodeTable draft.dynamic draft.file.order)).getD draft
  | none => draft

end Draft

end TargetLink
