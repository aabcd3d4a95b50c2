/-!
# Special sections

Sections whose names the ELF and processor ABIs reserve, with their type, flags and entry size.
The loader takes the entry sizes of the tables it reads from here.
-/

namespace TargetLink

structure SpecialSection where
  name : String
  type : UInt32
  flags : UInt32
  entrySize : UInt32
  deriving DecidableEq, Repr

namespace SpecialSection

/-! ## Flags: writable 1, in memory 2, executable 4 -/

def constant : UInt32 := 2
def writable : UInt32 := 2 ||| 1
def executable : UInt32 := 2 ||| 4

def table : List SpecialSection := [
  ⟨".bss", 8, writable, 0⟩,
  ⟨".data", 1, writable, 0⟩,
  ⟨".text", 1, executable, 0⟩,
  ⟨".rodata", 1, constant, 0⟩,
  ⟨".dynamic", 6, writable, 8⟩,
  ⟨".dynsym", 11, constant, 16⟩,
  ⟨".dynstr", 3, constant, 0⟩,
  ⟨".hash", 5, constant, 4⟩,
  ⟨".rel", 9, constant, 8⟩,
  ⟨".rela", 4, constant, 12⟩,
  ⟨".init", 1, executable, 0⟩,
  ⟨".fini", 1, executable, 0⟩,
  ⟨".init_array", 14, writable, 4⟩,
  ⟨".fini_array", 15, writable, 4⟩,
  ⟨".preinit_array", 16, writable, 4⟩,
  ⟨".got", 1, writable, 4⟩,
  ⟨".plt", 1, executable, 0⟩,
  ⟨".args", 1, constant, 0⟩,
  ⟨".dsbt", 1, writable, 4⟩]

def find? (name : String) : Option SpecialSection :=
  table.find? (·.name == name)

end SpecialSection

end TargetLink
