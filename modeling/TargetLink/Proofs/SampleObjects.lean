import TargetLink.Bytes
import TargetLink.Elf.DynamicTag
import TargetLink.Elf.Header
import TargetLink.Elf.Machine
import TargetLink.Target.Simulated

/-!
# Small dynamic files

Files for closed examples, laid out by hand: the headers, the data, the tables and last the dynamic
table.  One segment, linked at address zero, holds the whole file, so the offset of everything in the
file is also its address.
-/

namespace TargetLink

/-- What goes into a small file. Offsets of names count from the first string. -/
structure SampleObject where
  machine : UInt8 := 40
  osAbi : UInt8 := 0
  /-- A shared object, unless it is 2. -/
  type : UInt8 := 3
  /-- The words of the data, from `SampleObject.dataOffset` on. -/
  data : List UInt32 := []
  /-- Every symbol: its name, its value, and its last word. -/
  symbols : List (UInt32 × UInt32 × UInt32) := []
  /-- Every relocation without an addend: the cell, and the symbol with the kind. -/
  rel : List (UInt32 × UInt32) := []
  /-- The letters of the names that follow each other. -/
  names : List (List UInt8) := []
  /-- Further entries of the dynamic table. -/
  tags : List (UInt32 × UInt32) := []

namespace SampleObject

/-- The offset behind the file header and two program headers. -/
def dataOffset : UInt32 := 116

def words : List UInt32 → Bytes := ByteOrder.little.encodeWords

/-- Strings begin with the empty one. -/
def strings (sample : SampleObject) : Bytes := 0 :: sample.names.flatMap (· ++ [0])

def symbolTable (sample : SampleObject) : List UInt32 :=
  [0, 0, 0, 0] ++ sample.symbols.flatMap fun (name, value, kind) => [name, value, 0, kind]

/-- The data and the tables, and the dynamic table that leads to them. -/
def image (sample : SampleObject) : Image :=
  let data := words sample.data
  let hash := words [1, UInt32.ofNat (sample.symbols.length + 1)]
  let symbols := words sample.symbolTable
  let rel := words (sample.rel.flatMap fun (cell, info) => [cell, info])
  let hashAt := dataOffset.toNat + data.length
  let symbolsAt := hashAt + hash.length
  let relAt := symbolsAt + symbols.length
  let stringsAt := relAt + rel.length
  let dynamicAt := stringsAt + sample.strings.length
  let relTags := if sample.rel.isEmpty then [] else
    [(DynamicTag.rel, UInt32.ofNat relAt), (DynamicTag.relSize, UInt32.ofNat rel.length),
      (DynamicTag.relEntry, 8)]
  let dynamic := words <| (
    [(DynamicTag.hash, UInt32.ofNat hashAt), (DynamicTag.symbolTable, UInt32.ofNat symbolsAt),
      (DynamicTag.symbolEntry, 16), (DynamicTag.stringTable, UInt32.ofNat stringsAt),
      (DynamicTag.stringSize, UInt32.ofNat sample.strings.length), (DynamicTag.soname, 1)] ++
    relTags ++ sample.tags ++ [(DynamicTag.null, 0)]).flatMap fun (tag, value) => [tag, value]
  let size := UInt32.ofNat (dynamicAt + dynamic.length)
  let offset := UInt32.ofNat dynamicAt
  let length := UInt32.ofNat dynamic.length
  [0x7f, 0x45, 0x4c, 0x46, 1, 1, 1, sample.osAbi, 0, 0, 0, 0, 0, 0, 0, 0,
    sample.type, 0, sample.machine, 0] ++
  words [1, 0, 52, 0, 0] ++ [52, 0, 32, 0, 2, 0, 0, 0, 0, 0, 0, 0] ++
  words [1, 0, 0, 0, size, size, 7, 4, 2, offset, offset, 0, length, length, 6, 4] ++
  data ++ hash ++ symbols ++ rel ++ sample.strings ++ dynamic

end SampleObject

namespace Loader

/-- A module with a private table for some slots of its own. -/
def tabledObject (letter : UInt8) (slots : UInt32) : SampleObject where
  machine := 140
  data := [0, 0]
  names := [[letter]]
  tags := [(DynamicTag.dsbtBase, SampleObject.dataOffset), (DynamicTag.dsbtSize, slots)]

/-- A module `b` with a private table that needs `a`. -/
def tabledUser : SampleObject :=
  { tabledObject 0x62 2 with
    names := [[0x62], [0x61]]
    tags := (tabledObject 0x62 2).tags ++ [(DynamicTag.needed, 3)] }

/-- A target that finds `a`. -/
def tabledTarget : SimulatedTarget :=
  ({} : SimulatedTarget).register "a" (tabledObject 0x61 2).image

end Loader

end TargetLink
