import TargetLink.Elf.Machine

/-!
# Dynamic tags

The dynamic table of a module is a list of tagged words.  The tag database says of each tag how
its word is read (a number, an address that moves with its segment, or nothing) and whether a file
of a given kind must carry it.  Tags of a processor share their numbers between machines, so a tag
is looked up among the machine's own tags first.
-/

namespace TargetLink

/-- How the word of a dynamic entry is read. -/
inductive TagKind
  | number
  | address
  | ignored
  deriving DecidableEq, Repr

inductive Requirement
  | mandatory
  | optional
  | ignored
  deriving DecidableEq, Repr

structure DynamicTag where
  tag : UInt32
  name : String
  kind : TagKind
  /-- What the tag is to an executable. -/
  executable : Requirement
  /-- What the tag is to a shared object. -/
  shared : Requirement
  deriving DecidableEq, Repr

namespace DynamicTag

/-! ## Tag numbers -/

def null : UInt32 := 0
def needed : UInt32 := 1
def pltRelocationSize : UInt32 := 2
def hash : UInt32 := 4
def stringTable : UInt32 := 5
def symbolTable : UInt32 := 6
def rela : UInt32 := 7
def relaSize : UInt32 := 8
def relaEntry : UInt32 := 9
def stringSize : UInt32 := 10
def symbolEntry : UInt32 := 11
def init : UInt32 := 12
def fini : UInt32 := 13
def soname : UInt32 := 14
def rel : UInt32 := 17
def relSize : UInt32 := 18
def relEntry : UInt32 := 19
def pltRelocationKind : UInt32 := 20
def pltRelocations : UInt32 := 23
def initArray : UInt32 := 25
def finiArray : UInt32 := 26
def initArraySize : UInt32 := 27
def finiArraySize : UInt32 := 28
def preinitArray : UInt32 := 32
def preinitArraySize : UInt32 := 33
def globalSymbolOffset : UInt32 := 0x6000000d
def dsbtBase : UInt32 := 0x70000000
def dsbtSize : UInt32 := 0x70000001
def dsbtIndex : UInt32 := 0x70000003

/-! ## The database -/

def table : List DynamicTag := [
  ⟨null, "DT_NULL", .ignored, .mandatory, .mandatory⟩,
  ⟨needed, "DT_NEEDED", .number, .optional, .optional⟩,
  ⟨pltRelocationSize, "DT_PLTRELSZ", .number, .optional, .optional⟩,
  ⟨3, "DT_PLTGOT", .address, .optional, .optional⟩,
  ⟨hash, "DT_HASH", .address, .mandatory, .mandatory⟩,
  ⟨stringTable, "DT_STRTAB", .address, .mandatory, .mandatory⟩,
  ⟨symbolTable, "DT_SYMTAB", .address, .mandatory, .mandatory⟩,
  ⟨rela, "DT_RELA", .address, .optional, .optional⟩,
  ⟨relaSize, "DT_RELASZ", .number, .optional, .optional⟩,
  ⟨relaEntry, "DT_RELAENT", .number, .optional, .optional⟩,
  ⟨stringSize, "DT_STRSZ", .number, .mandatory, .mandatory⟩,
  ⟨symbolEntry, "DT_SYMENT", .number, .mandatory, .mandatory⟩,
  ⟨init, "DT_INIT", .address, .optional, .optional⟩,
  ⟨fini, "DT_FINI", .address, .optional, .optional⟩,
  ⟨soname, "DT_SONAME", .number, .ignored, .optional⟩,
  ⟨15, "DT_RPATH", .number, .optional, .ignored⟩,
  ⟨16, "DT_SYMBOLIC", .ignored, .ignored, .optional⟩,
  ⟨rel, "DT_REL", .address, .optional, .optional⟩,
  ⟨relSize, "DT_RELSZ", .number, .optional, .optional⟩,
  ⟨relEntry, "DT_RELENT", .number, .optional, .optional⟩,
  ⟨pltRelocationKind, "DT_PLTREL", .number, .optional, .optional⟩,
  ⟨21, "DT_DEBUG", .address, .optional, .ignored⟩,
  ⟨22, "DT_TEXTREL", .ignored, .optional, .optional⟩,
  ⟨pltRelocations, "DT_JMPREL", .address, .optional, .optional⟩,
  ⟨24, "DT_BIND_NOW", .ignored, .optional, .optional⟩,
  ⟨initArray, "DT_INIT_ARRAY", .address, .optional, .optional⟩,
  ⟨finiArray, "DT_FINI_ARRAY", .address, .optional, .optional⟩,
  ⟨initArraySize, "DT_INIT_ARRAYSZ", .number, .optional, .optional⟩,
  ⟨finiArraySize, "DT_FINI_ARRAYSZ", .number, .optional, .optional⟩,
  ⟨29, "DT_RUNPATH", .number, .optional, .optional⟩,
  ⟨30, "DT_FLAGS", .number, .optional, .optional⟩,
  ⟨preinitArray, "DT_PREINIT_ARRAY", .address, .optional, .ignored⟩,
  ⟨preinitArraySize, "DT_PREINIT_ARRAYSZ", .number, .optional, .ignored⟩,
  ⟨globalSymbolOffset, "DT_C6000_GSYM_OFFSET", .number, .optional, .optional⟩,
  ⟨0x6000000f, "DT_C6000_GSTR_OFFSET", .number, .optional, .optional⟩]

def processorTable : Machine → List DynamicTag
  | .arm => [⟨0x70000001, "DT_ARM_SYMTABSZ", .number, .optional, .optional⟩]
  | .c6000 => [
    ⟨dsbtBase, "DT_C6000_DSBT_BASE", .address, .optional, .optional⟩,
    ⟨dsbtSize, "DT_C6000_DSBT_SIZE", .number, .optional, .optional⟩,
    ⟨0x70000002, "DT_C6000_PREEMPTMAP", .address, .optional, .optional⟩,
    ⟨dsbtIndex, "DT_C6000_DSBT_INDEX", .number, .optional, .optional⟩]

def find? (machine : Machine) (tag : UInt32) : Option DynamicTag :=
  (processorTable machine ++ table).find? (·.tag == tag)

/-- What the tag is to a file of the given type. -/
def requirement (entry : DynamicTag) (objectType : UInt16) : Requirement :=
  if objectType = executableType then entry.executable else entry.shared

/-- Whether the word of a tag is an address that moves with its segment. -/
def isAddress (machine : Machine) (tag : UInt32) : Bool :=
  (find? machine tag).any (·.kind = .address)

end DynamicTag

end TargetLink
