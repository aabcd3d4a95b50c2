import TargetLink.Dsbt
import TargetLink.Elf.DynamicTag
import TargetLink.Elf.Header
import TargetLink.Elf.Section
import TargetLink.Symbol
import TargetLink.Text.Utf8

/-!
# The contents of an object file

`ObjectFile.read` takes from an image everything that the loader needs to know about a module: its
headers, the dynamic table and every table that the dynamic table points to.  All of them are
checked here, so a module that was read can be placed without looking at its file again except to
stage its segments.

The tables are found by the addresses they were linked at; `fileOffset` leads from such an address
to the file through the first segment that covers the table.
-/

namespace TargetLink

/-- A tagged word of the dynamic table. -/
structure DynamicEntry where
  tag : UInt32
  value : UInt32
  deriving DecidableEq, Repr, Inhabited

structure RelocationEntry where
  /-- The link-time address of the patched cell. -/
  offset : UInt32
  type : UInt32
  /-- The index of the symbol; zero for none. -/
  symbol : UInt32
  /-- The addend, unless it stands in the patched cell. -/
  addend : Option Int32
  deriving DecidableEq, Repr

/-- Where the private table of static bases of a module lives and which slot it wants. -/
structure DsbtInfo where
  base : UInt32
  size : UInt32
  requested : UInt32
  /-- The position of the dynamic entry that receives the slot. -/
  indexEntry : Option Nat
  deriving DecidableEq, Repr

/-- What the loader knows about a module from its file. -/
structure ObjectFile where
  header : FileHeader
  order : ByteOrder
  machine : Machine
  programHeaders : List ProgramHeader
  /-- The link-time address of the dynamic table. Without one the module is static: it belongs at
  the addresses it was linked at. -/
  dynamicAddress : Option UInt32 := none
  dynamic : List DynamicEntry := []
  symbols : List Symbol := []
  firstGlobal : Nat := 0
  /-- The names of the modules that it needs, each once, in order. -/
  needed : List String := []
  soname : Option String := none
  rel : List RelocationEntry := []
  rela : List RelocationEntry := []
  plt : List RelocationEntry := []
  dsbt : Option DsbtInfo := none
  deriving DecidableEq, Repr

/-! ## The dynamic table -/

namespace DynamicEntry

def size : Nat := 8

def decode (bytes : Bytes) (order : ByteOrder) (offset : Nat) : DynamicEntry where
  tag := bytes.wordAt order offset
  value := bytes.wordAt order (offset + 4)

def encodeTable (entries : List DynamicEntry) (order : ByteOrder) : Bytes :=
  order.encodeWords (entries.flatMap fun entry => [entry.tag, entry.value])

/-- The entries of a table up to and with the first null entry. -/
def decodeTable (bytes : Bytes) (order : ByteOrder) : Except LoadError (List DynamicEntry) :=
  let entries := (List.range (bytes.length / size)).map fun i => decode bytes order (i * size)
  match entries.findIdx? (·.tag == DynamicTag.null) with
  | some last => .ok (entries.take (last + 1))
  | none => .error (.invalidElf .dynamicUnterminated)

def find? (entries : List DynamicEntry) (tag : UInt32) : Option UInt32 :=
  (entries.find? (·.tag == tag)).map (·.value)

/-- The word of the first entry with a tag, zero if there is none. -/
def findD (entries : List DynamicEntry) (tag : UInt32) : UInt32 := (find? entries tag).getD 0

end DynamicEntry

namespace ObjectFile

/-! ## Finding tables -/

def symbolSize : Nat := 16

/-- The file offset of a table of `length` bytes that was linked at an address. -/
def fileOffset (headers : List ProgramHeader) (address length : UInt32) :
    Except LoadError Nat :=
  let covers := fun header : ProgramHeader =>
    let start := address - header.address
    header.isLoad && start < header.fileSize && length ≤ header.fileSize - start
  match headers.find? covers with
  | some header => .ok (header.offset.toNat + (address - header.address).toNat)
  | none => .error (.invalidElf (.tableNotInFile address length))

/-- The bytes of a table that was linked at an address. -/
def readTable (image : Image) (headers : List ProgramHeader) (address length : UInt32) :
    Except LoadError Bytes := do
  if length = 0 then
    return []
  image.read (← fileOffset headers address length) length.toNat

def stringAt (strings : Bytes) (offset : UInt32) : Except LoadError String :=
  if offset.toNat > strings.length then
    .error (.invalidElf (.stringOutside offset))
  else
    let tail := strings.drop offset.toNat
    if tail.contains 0 then
      .ok (Utf8.decode (tail.takeWhile (· != 0)))
    else
      .error (.invalidElf (.stringUnterminated offset))

/-! ## Symbols and names -/

def symbolAt (table strings : Bytes) (order : ByteOrder) (offset : Nat) :
    Except LoadError Symbol := do
  let name ← stringAt strings (table.wordAt order offset)
  return {
    name
    value := table.wordAt order (offset + 4)
    size := table.wordAt order (offset + 8)
    info := table.getD (offset + 12) 0
    other := table.getD (offset + 13) 0
    sectionIndex := table.halfAt order (offset + 14) }

/-- The symbols of a file. There are as many as the hash table has chains. -/
def readSymbols (image : Image) (headers : List ProgramHeader) (order : ByteOrder)
    (dynamic : List DynamicEntry) (strings : Bytes) : Except LoadError (List Symbol) := do
  let hash ← readTable image headers (DynamicEntry.findD dynamic DynamicTag.hash) 8
  let count := hash.wordAt order 4
  if count.toNat * symbolSize ≥ UInt32.size then
    throw (.invalidElf (.symbolCount count))
  let table ← readTable image headers (DynamicEntry.findD dynamic DynamicTag.symbolTable)
    (UInt32.ofNat (count.toNat * symbolSize))
  (List.range count.toNat).mapM fun i => symbolAt table strings order (i * symbolSize)

/-- The index of the first global symbol: C6000 files may say so, otherwise it is the first symbol
that is not local. -/
def globalStart (machine : Machine) (dynamic : List DynamicEntry) (symbols : List Symbol) : Nat :=
  match machine, DynamicEntry.find? dynamic DynamicTag.globalSymbolOffset with
  | .c6000, some offset => min (offset.toNat / symbolSize) symbols.length
  | _, _ => symbols.findIdx (!·.isLocal)

structure Names where
  needed : List String := []
  soname : Option String := none
  deriving DecidableEq, Repr

/-- The names with what one dynamic entry adds to them. A needed name counts once; of several own
names the last one counts. -/
def Names.extend (strings : Bytes) (names : Names) (entry : DynamicEntry) :
    Except LoadError Names := do
  if entry.tag = DynamicTag.needed then
    let name ← stringAt strings entry.value
    if names.needed.contains name then
      return names
    return { names with needed := names.needed ++ [name] }
  else if entry.tag = DynamicTag.soname then
    return { names with soname := some (← stringAt strings entry.value) }
  else
    return names

/-! ## Relocations -/

/-- The table of the relocations that belong to the procedure linkage table. -/
structure PltTable where
  address : UInt32
  size : UInt32
  withAddend : Bool
  deriving DecidableEq, Repr

def PltTable.contains (table : PltTable) (address : UInt32) : Bool :=
  address - table.address < table.size

/-- The table of procedure linkage relocations, if the file has a nonempty one. -/
def pltTable? (machine : Machine) (dynamic : List DynamicEntry) :
    Except LoadError (Option PltTable) :=
  let size := DynamicEntry.findD dynamic DynamicTag.pltRelocationSize
  match DynamicEntry.find? dynamic DynamicTag.pltRelocations with
  | some address =>
    if size = 0 then .ok none
    else
      match DynamicEntry.find? dynamic DynamicTag.pltRelocationKind with
      | none => .ok (some ⟨address, size, machine = .c6000⟩)
      | some kind =>
        if kind = DynamicTag.rela then .ok (some ⟨address, size, true⟩)
        else if kind = DynamicTag.rel then .ok (some ⟨address, size, false⟩)
        else .error (.invalidElf (.pltKind kind))
  | none => .ok none

def relocationSize (withAddend : Bool) : Nat := if withAddend then 12 else 8

def relocationAt (table : Bytes) (order : ByteOrder) (withAddend : Bool) (offset : Nat) :
    RelocationEntry :=
  let info := table.wordAt order (offset + 4)
  { offset := table.wordAt order offset
    type := RelocationInfo.type info
    symbol := RelocationInfo.symbol info
    addend := if withAddend then some (table.wordAt order (offset + 8)).toInt32 else none }

/-- The relocations of a table. Records that also belong to the procedure linkage table are left
out. -/
def readRelocations (image : Image) (headers : List ProgramHeader) (order : ByteOrder)
    (address size : UInt32) (withAddend : Bool) (exclude : Option PltTable) :
    Except LoadError (List RelocationEntry) := do
  let step := relocationSize withAddend
  if size.toNat % step ≠ 0 then
    throw (.invalidElf (.cutRelocationTable address))
  let table ← readTable image headers address size
  let offsets := (List.range (size.toNat / step)).map (· * step)
  let kept := offsets.filter fun offset =>
    !exclude.any (·.contains (address + UInt32.ofNat offset))
  return kept.map (relocationAt table order withAddend)

/-- The relocations of the table that a pair of dynamic tags describes. -/
def readTagged (image : Image) (headers : List ProgramHeader) (order : ByteOrder)
    (dynamic : List DynamicEntry) (addressTag sizeTag : UInt32) (withAddend : Bool)
    (exclude : Option PltTable) : Except LoadError (List RelocationEntry) :=
  match DynamicEntry.find? dynamic addressTag with
  | some address =>
    readRelocations image headers order address (DynamicEntry.findD dynamic sizeTag) withAddend
      exclude
  | none => .ok []

/-! ## Checks -/

/-- Every segment to load has its file part inside the file and inside its memory. -/
def checkSegments (image : Image) (headers : List ProgramHeader) : Except LoadError Unit :=
  (headers.filter (·.isLoad)).forM fun header => do
    if header.fileSize > header.memorySize then
      throw (.invalidElf (.segmentFileTooLong header.address))
    if !image.contains header.offset.toNat header.fileSize.toNat then
      throw (.invalidElf (.segmentOutsideFile header.address))

/-- The dynamic entries that announce the size of a record, with the section that fixes it. -/
def entrySizes : List (UInt32 × String) :=
  [(DynamicTag.symbolEntry, ".dynsym"), (DynamicTag.relEntry, ".rel"),
    (DynamicTag.relaEntry, ".rela")]

/-- The mandatory tags are there and the announced record sizes are the known ones. -/
def checkDynamic (objectType : UInt16) (dynamic : List DynamicEntry) : Except LoadError Unit := do
  DynamicTag.table.forM fun entry => do
    if entry.tag ≠ DynamicTag.null ∧ entry.requirement objectType = .mandatory ∧
        DynamicEntry.find? dynamic entry.tag = none then
      throw (.invalidElf (.tagMissing entry.name))
  entrySizes.forM fun (tag, name) => do
    match DynamicEntry.find? dynamic tag, SpecialSection.find? name with
    | some size, some known =>
      if size ≠ known.entrySize then
        throw (.invalidElf (.entrySize known.name size known.entrySize))
    | _, _ => return

/-! ## Reading a file -/

/-- What a dynamic table says about the table of static bases. -/
def dsbtInfo? (machine : Machine) (dynamic : List DynamicEntry) : Option DsbtInfo :=
  if machine = .c6000 then
    (DynamicEntry.find? dynamic DynamicTag.dsbtBase).map fun base =>
      { base
        size := DynamicEntry.findD dynamic DynamicTag.dsbtSize
        requested := (DynamicEntry.find? dynamic DynamicTag.dsbtIndex).getD Dsbt.anyIndex
        indexEntry := dynamic.findIdx? (·.tag == DynamicTag.dsbtIndex) }
  else none

def readDynamic (image : Image) (file : ObjectFile) (dynamic : List DynamicEntry) :
    Except LoadError ObjectFile := do
  let headers := file.programHeaders
  checkDynamic file.header.type dynamic
  let strings ← readTable image headers (DynamicEntry.findD dynamic DynamicTag.stringTable)
    (DynamicEntry.findD dynamic DynamicTag.stringSize)
  let symbols ← readSymbols image headers file.order dynamic strings
  let names ← dynamic.foldlM (Names.extend strings) {}
  if names.soname.isNone ∧ file.header.type = sharedObjectType then
    throw (.invalidElf .noSoname)
  let plt? ← pltTable? file.machine dynamic
  let rel ← readTagged image headers file.order dynamic DynamicTag.rel DynamicTag.relSize false
    plt?
  let rela ← readTagged image headers file.order dynamic DynamicTag.rela DynamicTag.relaSize true
    plt?
  let plt ← match plt? with
    | some t => readRelocations image headers file.order t.address t.size t.withAddend none
    | none => pure []
  return { file with
    dynamic, symbols, rel, rela, plt
    firstGlobal := globalStart file.machine dynamic symbols
    needed := names.needed
    soname := names.soname
    dsbt := dsbtInfo? file.machine dynamic }

def read (image : Image) : Except LoadError ObjectFile := do
  let (header, order, machine) ← image.header
  let programHeaders ← image.programHeaders header order
  checkSegments image programHeaders
  let file : ObjectFile := { header, order, machine, programHeaders }
  match programHeaders.find? (·.isDynamic) with
  | none => return file
  | some table =>
    let bytes ← image.read table.offset.toNat table.fileSize.toNat
    let dynamic ← DynamicEntry.decodeTable bytes order
    readDynamic image { file with dynamicAddress := some table.address } dynamic

/-! ## Views -/

def isExecutable (file : ObjectFile) : Bool := file.header.type == executableType

/-- Whether the segments of the module may be placed at any address. -/
def isRelocatable (file : ObjectFile) : Bool := file.dynamicAddress.isSome

/-- The name that the module gives itself; an empty one counts as none. -/
def ownName? (file : ObjectFile) : Option String := file.soname.filter (!·.isEmpty)

/-- The segments of the module that take up memory, in order. -/
def loadHeaders (file : ObjectFile) : List ProgramHeader :=
  file.programHeaders.filter fun header => header.isLoad && header.memorySize != 0

end ObjectFile

end TargetLink
