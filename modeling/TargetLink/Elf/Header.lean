import TargetLink.Bytes
import TargetLink.Error

/-!
# File images and their headers

An image is the bytes of an object file.  `Image.read` is the only way into it: a range that does
not lie inside the image is an error, so nothing behind it looks at bytes that are not there.

The file header decides the byte order of the whole file.  It is checked in a fixed sequence: the
magic number, the class, the identification version, the data encoding, then the object type, the
machine and the size of the program headers.
-/

namespace TargetLink

abbrev Image := Bytes

namespace Image

def contains (image : Image) (offset length : Nat) : Bool :=
  offset + length ≤ image.length

/-- The bytes of a range of the image. -/
def read (image : Image) (offset length : Nat) : Except LoadError Bytes :=
  match Bytes.window image offset length with
  | some bytes => .ok bytes
  | none => .error (.invalidElf (.outOfFile offset length image.length))

end Image

structure FileHeader where
  /-- The sixteen identification bytes. -/
  ident : Bytes
  type : UInt16
  machine : UInt16
  version : UInt32
  entry : UInt32
  programHeaderOffset : UInt32
  sectionHeaderOffset : UInt32
  flags : UInt32
  headerSize : UInt16
  programHeaderSize : UInt16
  programHeaderCount : UInt16
  sectionHeaderSize : UInt16
  sectionHeaderCount : UInt16
  sectionNameIndex : UInt16
  deriving DecidableEq, Repr, Inhabited

namespace FileHeader

def size : Nat := 52

/-- The operating system ABI byte of the identification. -/
def osAbi (header : FileHeader) : UInt8 := header.ident.getD 7 0

def decode (bytes : Bytes) (order : ByteOrder) : FileHeader where
  ident := bytes.take 16
  type := bytes.halfAt order 16
  machine := bytes.halfAt order 18
  version := bytes.wordAt order 20
  entry := bytes.wordAt order 24
  programHeaderOffset := bytes.wordAt order 28
  sectionHeaderOffset := bytes.wordAt order 32
  flags := bytes.wordAt order 36
  headerSize := bytes.halfAt order 40
  programHeaderSize := bytes.halfAt order 42
  programHeaderCount := bytes.halfAt order 44
  sectionHeaderSize := bytes.halfAt order 46
  sectionHeaderCount := bytes.halfAt order 48
  sectionNameIndex := bytes.halfAt order 50

end FileHeader

/-- A program header: one segment of the file, or the place of the dynamic table. -/
structure ProgramHeader where
  type : UInt32
  offset : UInt32
  address : UInt32
  physicalAddress : UInt32
  fileSize : UInt32
  memorySize : UInt32
  flags : UInt32
  align : UInt32
  deriving DecidableEq, Repr, Inhabited

namespace ProgramHeader

def size : Nat := 32

def decode (bytes : Bytes) (order : ByteOrder) (offset : Nat) : ProgramHeader where
  type := bytes.wordAt order offset
  offset := bytes.wordAt order (offset + 4)
  address := bytes.wordAt order (offset + 8)
  physicalAddress := bytes.wordAt order (offset + 12)
  fileSize := bytes.wordAt order (offset + 16)
  memorySize := bytes.wordAt order (offset + 20)
  flags := bytes.wordAt order (offset + 24)
  align := bytes.wordAt order (offset + 28)

def isLoad (header : ProgramHeader) : Bool := header.type == 1

def isDynamic (header : ProgramHeader) : Bool := header.type == 2

def executable (header : ProgramHeader) : Bool := header.flags &&& 1 != 0

def writable (header : ProgramHeader) : Bool := header.flags &&& 2 != 0

end ProgramHeader

namespace Image

/-- The byte order that the identification bytes of a header announce. -/
def identify (bytes : Bytes) : Except LoadError ByteOrder := do
  if bytes.take 4 ≠ [0x7f, 0x45, 0x4c, 0x46] then
    throw (.invalidElf .badMagic)
  if bytes.getD 4 0 ≠ 1 then
    throw (.invalidElf .wrongClass)
  if bytes.getD 6 0 ≠ 1 then
    throw (.invalidElf (.version (bytes.getD 6 0)))
  if bytes.getD 5 0 = 1 then
    return .little
  if bytes.getD 5 0 = 2 then
    return .big
  throw (.invalidElf (.encoding (bytes.getD 5 0)))

/-- The checked file header, the byte order and the machine of an image. -/
def header (image : Image) : Except LoadError (FileHeader × ByteOrder × Machine) := do
  let bytes ← image.read 0 FileHeader.size
  let order ← identify bytes
  let header := FileHeader.decode bytes order
  if header.type ≠ executableType ∧ header.type ≠ sharedObjectType then
    throw (.invalidElf (.objectType header.type))
  match Machine.ofNumber? header.machine with
  | none => throw (.invalidElf (.machine header.machine))
  | some machine =>
    if header.programHeaderCount ≠ 0 ∧ header.programHeaderSize.toNat ≠ ProgramHeader.size then
      throw (.invalidElf (.programHeaderSize header.programHeaderSize))
    return (header, order, machine)

/-- The program headers of an image. -/
def programHeaders (image : Image) (header : FileHeader) (order : ByteOrder) :
    Except LoadError (List ProgramHeader) := do
  let count := header.programHeaderCount.toNat
  let bytes ← image.read header.programHeaderOffset.toNat (count * ProgramHeader.size)
  return (List.range count).map fun i =>
    ProgramHeader.decode bytes order (i * ProgramHeader.size)

end Image

end TargetLink
