import TargetLink.Relocation.Cell
import TargetLink.Relocation.Check
import TargetLink.Relocation.Group
import TargetLink.Relocation.Kind

/-!
# ARM relocations

A rule computes a value from the operands, fits it into a field of an ARM or Thumb instruction (or
into a member of an instruction group), and for branches decides whether the instruction has to
change the instruction set on its way.

* `Formula.eval`: the value, wrapped to the signed 32-bit numbers.
* `Field`: where the bits of each kind of field stand, by how much the value is scaled, and how the
  contents are read back as an addend.
* `switchMode`: BL and BLX are exchanged when caller and callee run different instruction sets;
  other branches would need a veneer.
-/

namespace TargetLink.Relocation.Arm

/-! ## Formulas -/

inductive Formula
  | abs
  | absThumb
  | prel
  | prelThumb
  /-- The distance of the target from the word that holds the place. -/
  | prelAligned
  | prelAlignedThumb
  | sbrel
  | sbrelThumb
  deriving DecidableEq, Repr

/-- A number with its lowest bit set if the symbol is a Thumb function. -/
def withThumbBit (v : Int) (thumb : Bool) : Int :=
  if thumb ∧ v % 2 = 0 then v + 1 else v

/-- The value of a formula. Everything wraps around at the end of the address space. -/
def Formula.eval (formula : Formula) (inputs : Inputs) : Int :=
  let target := inputs.target
  let marked := withThumbBit target inputs.thumb
  let place : Int := inputs.place.toNat
  let alignedPlace : Int := inputs.place.toNat / 4 * 4
  let base : Int := inputs.staticBase.toNat
  wrapWord <| match formula with
    | abs => target
    | absThumb => marked
    | prel => target - place
    | prelThumb => marked - place
    | prelAligned => target - alignedPlace
    | prelAlignedThumb => marked - alignedPlace
    | sbrel => target - base
    | sbrelThumb => marked - base

/-! ## Fields -/

inductive Field
  | word
  | half
  | byte
  | prel31
  /-- The offset of B, BL and BLX. -/
  | armBranch
  | abs12
  | movw
  /-- The split immediate of MOVT, which holds the upper half of the value. -/
  | movt
  | thmAbs5
  | thmPc8
  | thmJump6
  | thmJump8
  | thmJump11
  | thmBranch
  | thmJump19
  | thmMovw
  | thmMovt
  /-- The magnitude that a Thumb ADR adds to or subtracts from the program counter. -/
  | thmAluPrel
  /-- The magnitude of the offset of a Thumb literal load. -/
  | thmPc12
  deriving DecidableEq, Repr

/-- What the two switched instructions do about the instruction set. -/
inductive SwitchMode
  | keep
  /-- BL becomes BLX. -/
  | exchange
  /-- BLX becomes BL. -/
  | link
  deriving DecidableEq, Repr

namespace Field

def cell : Field → Cell
  | byte => .byte
  | half | thmAbs5 | thmPc8 | thmJump6 | thmJump8 | thmJump11 => .half
  | word | prel31 | armBranch | abs12 | movw | movt => .word
  | thmBranch | thmJump19 | thmMovw | thmMovt | thmAluPrel | thmPc12 => .thumbPair

def layout : Field → Layout
  | word => [⟨0, 0, 32⟩]
  | half => [⟨0, 0, 16⟩]
  | byte => [⟨0, 0, 8⟩]
  | prel31 => [⟨0, 0, 31⟩]
  | armBranch => [⟨0, 0, 24⟩]
  | abs12 => [⟨0, 0, 12⟩]
  | movw | movt => [⟨0, 0, 12⟩, ⟨12, 16, 4⟩]
  | thmAbs5 => [⟨0, 6, 5⟩]
  | thmPc8 | thmJump8 => [⟨0, 0, 8⟩]
  | thmJump11 => [⟨0, 0, 11⟩]
  | thmJump6 => [⟨0, 3, 5⟩, ⟨5, 9, 1⟩]
  | thmBranch => [⟨0, 0, 11⟩, ⟨11, 16, 10⟩, ⟨21, 11, 1⟩, ⟨22, 13, 1⟩, ⟨23, 26, 1⟩]
  | thmJump19 => [⟨0, 0, 11⟩, ⟨11, 16, 6⟩, ⟨17, 13, 1⟩, ⟨18, 11, 1⟩, ⟨19, 26, 1⟩]
  | thmMovw | thmMovt => [⟨0, 0, 8⟩, ⟨8, 12, 3⟩, ⟨11, 26, 1⟩, ⟨12, 16, 4⟩]
  | thmAluPrel => [⟨0, 0, 8⟩, ⟨8, 12, 3⟩, ⟨11, 26, 1⟩]
  | thmPc12 => [⟨0, 0, 12⟩]

def width (field : Field) : Nat := field.layout.width

/-- How many low bits of the value a field leaves out. -/
def shift : Field → Nat
  | armBranch | thmAbs5 | thmPc8 => 2
  | thmJump6 | thmJump8 | thmJump11 | thmBranch | thmJump19 => 1
  | movt | thmMovt => 16
  | _ => 0

/-- Whether the contents of a field are a magnitude whose sign stands in the opcode. -/
def isMagnitude : Field → Bool
  | thmAluPrel | thmPc12 => true
  | _ => false

/-- Whether the contents of a field are read back as a signed number. -/
def isSigned : Field → Bool
  | abs12 | thmAbs5 | thmPc8 | thmJump6 | thmAluPrel | thmPc12 => false
  | _ => true

/-- By how many bits the contents are scaled when they are read back as an addend. The upper half
of a value is read back as a small number. -/
def readShift : Field → Nat
  | movt | thmMovt => 0
  | field => field.shift

def pack (field : Field) (v : Int) : Int :=
  let scaled := v >>> field.shift
  if field.isMagnitude then scaled.natAbs else scaled

/-- Exchanges the contents of a field with the bits that the instruction stores.

The two bits below the sign of a 32-bit Thumb branch are stored inverted unless the sign is set. -/
def toggle (field : Field) (bits : BitVec 32) : BitVec 32 :=
  match field with
  | thmBranch => if bits.getLsbD 23 then bits else bits ^^^ 0x600000
  | _ => bits

/-- The instruction with the opcode bits that go with the sign of a value or with a change of the
instruction set. BLX keeps bit one of the value in its opcode. -/
def setOpcode (field : Field) (mode : SwitchMode) (v : Int) (instruction : BitVec 32) :
    BitVec 32 :=
  match field, mode with
  | armBranch, .exchange =>
    (instruction &&& 0x00ffffff) ||| (if v / 2 % 2 = 1 then 0xfb000000 else 0xfa000000)
  | armBranch, .link => (instruction &&& 0x00ffffff) ||| 0xeb000000
  | thmBranch, .exchange => instruction &&& ~~~0x1000
  | thmBranch, .link => instruction ||| 0x1000
  | thmAluPrel, _ => (instruction &&& ~~~0x01f00000) ||| (if v < 0 then 0x00a00000 else 0)
  | thmPc12, _ => (instruction &&& ~~~0x00800000) ||| (if v < 0 then 0 else 0x00800000)
  | _, _ => instruction

def insert (field : Field) (mode : SwitchMode) (v : Int) (instruction : BitVec 32) : BitVec 32 :=
  field.setOpcode mode v
    (field.layout.put (field.toggle (BitVec.ofInt 32 (field.pack v))) instruction)

/-- What the opcode of an instruction contributes to its addend: the sign of a magnitude, and bit
one of the offset of a BLX. -/
def withOpcode (field : Field) (instruction : BitVec 32) (v : Int) : Int :=
  match field with
  | armBranch => if instruction >>> 28 = 0xf ∧ instruction.getLsbD 24 then v + 2 else v
  | thmAluPrel => if instruction &&& 0x00a00000 = 0 then v else -v
  | thmPc12 => if instruction &&& 0x00800000 = 0 then -v else v
  | _ => v

def extract (field : Field) (instruction : BitVec 32) : Int :=
  let bits := (field.toggle (field.layout.get instruction)).toNat
  let contents : Int := if field.isSigned then (bits : Int).bmod (1 <<< field.width) else bits
  field.withOpcode instruction (contents * (1 <<< field.readShift : Nat))

end Field

/-! ## Rules -/

inductive Encoding
  | field (field : Field) (check : Check)
  | group (members : GroupClass) (index : Nat) (concluding : Bool)
  deriving DecidableEq, Repr

/-- How an instruction may change the instruction set. -/
inductive Switch
  | none
  /-- An ARM call: BL and BLX are exchanged, but a conditional branch cannot be. -/
  | armCall
  /-- An ARM branch that cannot reach a Thumb function. -/
  | armJump
  /-- A Thumb call: BL and BLX are exchanged. -/
  | thumbCall
  /-- A Thumb branch that cannot reach an ARM function. -/
  | thumbJump
  deriving DecidableEq, Repr

/-- How a supported relocation type patches its cell. -/
structure Rule where
  formula : Formula
  encoding : Encoding
  switch : Switch
  deriving DecidableEq, Repr

def kinds : List (Kind Rule) := [
  ⟨0, "R_ARM_NONE", .inert⟩,
  ⟨1, "R_ARM_PC24", .patch ⟨.prelThumb, .field .armBranch (.signed 24), .armJump⟩⟩,
  ⟨2, "R_ARM_ABS32", .patch ⟨.absThumb, .field .word .unchecked, .none⟩⟩,
  ⟨3, "R_ARM_REL32", .patch ⟨.prelThumb, .field .word .unchecked, .none⟩⟩,
  ⟨4, "R_ARM_LDR_PC_G0", .patch ⟨.prel, .group .ldr 0 true, .none⟩⟩,
  ⟨5, "R_ARM_ABS16", .patch ⟨.abs, .field .half (.either 16), .none⟩⟩,
  ⟨6, "R_ARM_ABS12", .patch ⟨.abs, .field .abs12 (.unsigned 12), .none⟩⟩,
  ⟨7, "R_ARM_THM_ABS5", .patch ⟨.abs, .field .thmAbs5 (.unsigned 5), .none⟩⟩,
  ⟨8, "R_ARM_ABS8", .patch ⟨.abs, .field .byte (.either 8), .none⟩⟩,
  ⟨9, "R_ARM_SBREL32", .patch ⟨.sbrelThumb, .field .word .unchecked, .none⟩⟩,
  ⟨10, "R_ARM_THM_CALL", .patch ⟨.prelThumb, .field .thmBranch (.signed 24), .thumbCall⟩⟩,
  ⟨11, "R_ARM_THM_PC8", .patch ⟨.prelAligned, .field .thmPc8 (.unsigned 8), .none⟩⟩,
  ⟨12, "R_ARM_BREL_ADJ", .unsupported⟩,
  ⟨13, "R_ARM_TLS_DESC", .unsupported⟩,
  ⟨14, "R_ARM_THM_SWI8", .unsupported⟩,
  ⟨15, "R_ARM_XPC25", .unsupported⟩,
  ⟨16, "R_ARM_THM_XPC22", .unsupported⟩,
  ⟨17, "R_ARM_TLS_DTPMOD32", .unsupported⟩,
  ⟨18, "R_ARM_TLS_DTPOFF32", .unsupported⟩,
  ⟨19, "R_ARM_TLS_TPOFF32", .unsupported⟩,
  ⟨20, "R_ARM_COPY", .unsupported⟩,
  ⟨21, "R_ARM_GLOB_DAT", .patch ⟨.absThumb, .field .word .unchecked, .none⟩⟩,
  ⟨22, "R_ARM_JUMP_SLOT", .patch ⟨.absThumb, .field .word .unchecked, .none⟩⟩,
  ⟨23, "R_ARM_RELATIVE", .patch ⟨.abs, .field .word .unchecked, .none⟩⟩,
  ⟨24, "R_ARM_GOTOFF32", .unsupported⟩,
  ⟨25, "R_ARM_BASE_PREL", .unsupported⟩,
  ⟨26, "R_ARM_GOT_BREL", .unsupported⟩,
  ⟨27, "R_ARM_PLT32", .patch ⟨.prelThumb, .field .armBranch (.signed 24), .armCall⟩⟩,
  ⟨28, "R_ARM_CALL", .patch ⟨.prelThumb, .field .armBranch (.signed 24), .armCall⟩⟩,
  ⟨29, "R_ARM_JUMP24", .patch ⟨.prelThumb, .field .armBranch (.signed 24), .armJump⟩⟩,
  ⟨30, "R_ARM_THM_JUMP24", .patch ⟨.prelThumb, .field .thmBranch (.signed 24), .thumbJump⟩⟩,
  ⟨31, "R_ARM_BASE_ABS", .unsupported⟩,
  ⟨32, "R_ARM_ALU_PCREL_7_0", .unsupported⟩,
  ⟨33, "R_ARM_ALU_PCREL_15_8", .unsupported⟩,
  ⟨34, "R_ARM_ALU_PCREL_23_15", .unsupported⟩,
  ⟨35, "R_ARM_LDR_SBREL_11_0_NC", .unsupported⟩,
  ⟨36, "R_ARM_ALU_SBREL_19_12_NC", .unsupported⟩,
  ⟨37, "R_ARM_ALU_SBREL_27_20_CK", .unsupported⟩,
  ⟨38, "R_ARM_TARGET1", .patch ⟨.absThumb, .field .word .unchecked, .none⟩⟩,
  ⟨39, "R_ARM_SBREL31", .patch ⟨.sbrelThumb, .field .prel31 (.signed 31), .none⟩⟩,
  ⟨40, "R_ARM_V4BX", .inert⟩,
  ⟨41, "R_ARM_TARGET2", .patch ⟨.prelThumb, .field .word .unchecked, .none⟩⟩,
  ⟨42, "R_ARM_PREL31", .patch ⟨.prelThumb, .field .prel31 (.signed 31), .none⟩⟩,
  ⟨43, "R_ARM_MOVW_ABS_NC", .patch ⟨.absThumb, .field .movw .unchecked, .none⟩⟩,
  ⟨44, "R_ARM_MOVT_ABS", .patch ⟨.abs, .field .movt .unchecked, .none⟩⟩,
  ⟨45, "R_ARM_MOVW_PREL_NC", .patch ⟨.prelThumb, .field .movw .unchecked, .none⟩⟩,
  ⟨46, "R_ARM_MOVT_PREL", .patch ⟨.prel, .field .movt .unchecked, .none⟩⟩,
  ⟨47, "R_ARM_THM_MOVW_ABS_NC", .patch ⟨.absThumb, .field .thmMovw .unchecked, .none⟩⟩,
  ⟨48, "R_ARM_THM_MOVT_ABS", .patch ⟨.abs, .field .thmMovt .unchecked, .none⟩⟩,
  ⟨49, "R_ARM_THM_MOVW_PREL_NC", .patch ⟨.prelThumb, .field .thmMovw .unchecked, .none⟩⟩,
  ⟨50, "R_ARM_THM_MOVT_PREL", .patch ⟨.prel, .field .thmMovt .unchecked, .none⟩⟩,
  ⟨51, "R_ARM_THM_JUMP19", .patch ⟨.prelThumb, .field .thmJump19 (.signed 20), .thumbJump⟩⟩,
  ⟨52, "R_ARM_THM_JUMP6", .patch ⟨.prel, .field .thmJump6 (.unsigned 6), .none⟩⟩,
  ⟨53, "R_ARM_THM_ALU_PREL_11_0", .patch ⟨.prelAlignedThumb, .field .thmAluPrel (.unsigned 12), .none⟩⟩,
  ⟨54, "R_ARM_THM_PC12", .patch ⟨.prelAligned, .field .thmPc12 (.unsigned 12), .none⟩⟩,
  ⟨55, "R_ARM_ABS32_NOI", .patch ⟨.abs, .field .word .unchecked, .none⟩⟩,
  ⟨56, "R_ARM_REL32_NOI", .patch ⟨.prel, .field .word .unchecked, .none⟩⟩,
  ⟨57, "R_ARM_ALU_PC_G0_NC", .patch ⟨.prelThumb, .group .alu 0 false, .none⟩⟩,
  ⟨58, "R_ARM_ALU_PC_G0", .patch ⟨.prelThumb, .group .alu 0 true, .none⟩⟩,
  ⟨59, "R_ARM_ALU_PC_G1_NC", .patch ⟨.prelThumb, .group .alu 1 false, .none⟩⟩,
  ⟨60, "R_ARM_ALU_PC_G1", .patch ⟨.prelThumb, .group .alu 1 true, .none⟩⟩,
  ⟨61, "R_ARM_ALU_PC_G2", .patch ⟨.prelThumb, .group .alu 2 true, .none⟩⟩,
  ⟨62, "R_ARM_LDR_PC_G1", .patch ⟨.prel, .group .ldr 1 true, .none⟩⟩,
  ⟨63, "R_ARM_LDR_PC_G2", .patch ⟨.prel, .group .ldr 2 true, .none⟩⟩,
  ⟨64, "R_ARM_LDRS_PC_G0", .patch ⟨.prel, .group .ldrs 0 true, .none⟩⟩,
  ⟨65, "R_ARM_LDRS_PC_G1", .patch ⟨.prel, .group .ldrs 1 true, .none⟩⟩,
  ⟨66, "R_ARM_LDRS_PC_G2", .patch ⟨.prel, .group .ldrs 2 true, .none⟩⟩,
  ⟨67, "R_ARM_LDC_PC_G0", .patch ⟨.prel, .group .ldc 0 true, .none⟩⟩,
  ⟨68, "R_ARM_LDC_PC_G1", .patch ⟨.prel, .group .ldc 1 true, .none⟩⟩,
  ⟨69, "R_ARM_LDC_PC_G2", .patch ⟨.prel, .group .ldc 2 true, .none⟩⟩,
  ⟨70, "R_ARM_ALU_SB_G0_NC", .patch ⟨.sbrelThumb, .group .alu 0 false, .none⟩⟩,
  ⟨71, "R_ARM_ALU_SB_G0", .patch ⟨.sbrelThumb, .group .alu 0 true, .none⟩⟩,
  ⟨72, "R_ARM_ALU_SB_G1_NC", .patch ⟨.sbrelThumb, .group .alu 1 false, .none⟩⟩,
  ⟨73, "R_ARM_ALU_SB_G1", .patch ⟨.sbrelThumb, .group .alu 1 true, .none⟩⟩,
  ⟨74, "R_ARM_ALU_SB_G2", .patch ⟨.sbrelThumb, .group .alu 2 true, .none⟩⟩,
  ⟨75, "R_ARM_LDR_SB_G0", .patch ⟨.sbrel, .group .ldr 0 true, .none⟩⟩,
  ⟨76, "R_ARM_LDR_SB_G1", .patch ⟨.sbrel, .group .ldr 1 true, .none⟩⟩,
  ⟨77, "R_ARM_LDR_SB_G2", .patch ⟨.sbrel, .group .ldr 2 true, .none⟩⟩,
  ⟨78, "R_ARM_LDRS_SB_G0", .patch ⟨.sbrel, .group .ldrs 0 true, .none⟩⟩,
  ⟨79, "R_ARM_LDRS_SB_G1", .patch ⟨.sbrel, .group .ldrs 1 true, .none⟩⟩,
  ⟨80, "R_ARM_LDRS_SB_G2", .patch ⟨.sbrel, .group .ldrs 2 true, .none⟩⟩,
  ⟨81, "R_ARM_LDC_SB_G0", .patch ⟨.sbrel, .group .ldc 0 true, .none⟩⟩,
  ⟨82, "R_ARM_LDC_SB_G1", .patch ⟨.sbrel, .group .ldc 1 true, .none⟩⟩,
  ⟨83, "R_ARM_LDC_SB_G2", .patch ⟨.sbrel, .group .ldc 2 true, .none⟩⟩,
  ⟨84, "R_ARM_MOVW_BREL_NC", .patch ⟨.sbrelThumb, .field .movw .unchecked, .none⟩⟩,
  ⟨85, "R_ARM_MOVT_BREL", .patch ⟨.sbrel, .field .movt .unchecked, .none⟩⟩,
  ⟨86, "R_ARM_MOVW_BREL", .patch ⟨.sbrelThumb, .field .movw (.either 16), .none⟩⟩,
  ⟨87, "R_ARM_THM_MOVW_BREL_NC", .patch ⟨.sbrelThumb, .field .thmMovw .unchecked, .none⟩⟩,
  ⟨88, "R_ARM_THM_MOVT_BREL", .patch ⟨.sbrel, .field .thmMovt .unchecked, .none⟩⟩,
  ⟨89, "R_ARM_THM_MOVW_BREL", .patch ⟨.sbrelThumb, .field .thmMovw (.either 16), .none⟩⟩,
  ⟨90, "R_ARM_TLS_GOTDESC", .unsupported⟩,
  ⟨91, "R_ARM_TLS_CALL", .unsupported⟩,
  ⟨92, "R_ARM_TLS_DESCSEQ", .unsupported⟩,
  ⟨93, "R_ARM_THM_TLS_CALL", .unsupported⟩,
  ⟨94, "R_ARM_PLT32_ABS", .patch ⟨.abs, .field .word .unchecked, .none⟩⟩,
  ⟨95, "R_ARM_GOT_ABS", .unsupported⟩,
  ⟨96, "R_ARM_GOT_PREL", .unsupported⟩,
  ⟨97, "R_ARM_GOT_BREL12", .unsupported⟩,
  ⟨98, "R_ARM_GOTOFF12", .unsupported⟩,
  ⟨99, "R_ARM_GOTRELAX", .unsupported⟩,
  ⟨100, "R_ARM_GNU_VTENTRY", .inert⟩,
  ⟨101, "R_ARM_GNU_VTINHERIT", .inert⟩,
  ⟨102, "R_ARM_THM_JUMP11", .patch ⟨.prel, .field .thmJump11 (.signed 11), .none⟩⟩,
  ⟨103, "R_ARM_THM_JUMP8", .patch ⟨.prel, .field .thmJump8 (.signed 8), .none⟩⟩,
  ⟨104, "R_ARM_TLS_GD32", .unsupported⟩,
  ⟨105, "R_ARM_TLS_LDM32", .unsupported⟩,
  ⟨106, "R_ARM_TLS_LDO32", .unsupported⟩,
  ⟨107, "R_ARM_TLS_IE32", .unsupported⟩,
  ⟨108, "R_ARM_TLS_LE32", .unsupported⟩,
  ⟨109, "R_ARM_TLS_LDO12", .unsupported⟩,
  ⟨110, "R_ARM_TLS_LE12", .unsupported⟩,
  ⟨111, "R_ARM_TLS_IE12GP", .unsupported⟩,
  ⟨129, "R_ARM_THM_TLS_DESCSEQ16", .unsupported⟩,
  ⟨130, "R_ARM_THM_TLS_DESCSEQ32", .unsupported⟩,
  ⟨160, "R_ARM_IRELATIVE", .unsupported⟩]

/-- The type whose addend is a link-time address that moves with its segment. -/
def relativeType : UInt32 := 23

/-! ## Applying a rule -/

/-- Whether the branch at a site has to change the instruction set. -/
def switchMode (switch : Switch) (name : String) (site : Site) (inputs : Inputs) :
    Except LoadError SwitchMode :=
  let veneer : LoadError := .relocation (.needsVeneer name inputs.place)
  match switch with
  | .none => .ok .keep
  | .armCall => do
    let instruction ← Cell.word.read site
    let isExchange := instruction >>> 28 = 0xf
    let isCall := isExchange ∨ instruction.getLsbD 24
    if inputs.thumb then
      if isCall then return .exchange else throw veneer
    else if isExchange then return .link
    else return .keep
  | .armJump => if inputs.thumb then .error veneer else .ok .keep
  | .thumbCall => do
    let instruction ← Cell.thumbPair.read site
    if inputs.function ∧ !inputs.thumb then return .exchange
    else if !instruction.getLsbD 12 ∧ inputs.thumb then return .link
    else return .keep
  | .thumbJump => if inputs.function ∧ !inputs.thumb then .error veneer else .ok .keep

/-- The value that a rule stores. A Thumb BLX counts from the word that holds the place, so its
value is a multiple of four. -/
def Rule.value (rule : Rule) (mode : SwitchMode) (inputs : Inputs) : Int :=
  let v := rule.formula.eval inputs
  match rule.encoding, mode with
  | .field .thmBranch _, .exchange => (v + inputs.place.toNat % 4 / 2 * 2) / 4 * 4
  | _, _ => v

/-- Whether a value passes the check of a plain field. Members of a group are checked elsewhere. -/
def Encoding.Accepts (encoding : Encoding) (v : Int) : Prop :=
  match encoding with
  | .group .. => True
  | .field plain check => check.Accepts (plain.pack v)

instance (encoding : Encoding) (v : Int) : Decidable (encoding.Accepts v) :=
  match encoding with
  | .group .. => inferInstanceAs (Decidable True)
  | .field plain check => inferInstanceAs (Decidable (check.Accepts (plain.pack v)))

/-- Stores a value in a plain field, which a member of a group does not have. -/
def Encoding.store (encoding : Encoding) (mode : SwitchMode) (v : Int) (site : Site) :
    Except LoadError Bytes :=
  match encoding with
  | .group .. => .error (.internal .noPlainField)
  | .field plain _ => do
    let instruction ← plain.cell.read site
    return plain.cell.write site (plain.insert mode v instruction)

def Rule.patch (rule : Rule) (name : String) (site : Site) (inputs : Inputs) :
    Except LoadError Bytes := do
  let mode ← switchMode rule.switch name site inputs
  let v := rule.value mode inputs
  let overflow : LoadError := .relocationOverflow name inputs.place v
  if let .group members index concluding := rule.encoding then
    let instruction ← Cell.word.read site
    match Group.patch? members index concluding instruction v with
    | some patched => return Cell.word.write site patched
    | none => throw overflow
  else if rule.encoding.Accepts v then rule.encoding.store mode v site
  else throw overflow

/-- The plain field is only asked for where there is one. -/
theorem Rule.patch_eq (rule : Rule) (name : String) (site : Site) (inputs : Inputs) :
    rule.patch name site inputs = (do
      let mode ← switchMode rule.switch name site inputs
      let v := rule.value mode inputs
      let overflow : LoadError := .relocationOverflow name inputs.place v
      match rule.encoding with
      | .group members index concluding =>
        let instruction ← Cell.word.read site
        match Group.patch? members index concluding instruction v with
        | some patched => return Cell.word.write site patched
        | none => throw overflow
      | .field field check =>
        if check.Accepts (field.pack v) then
          let instruction ← field.cell.read site
          return field.cell.write site (field.insert mode v instruction)
        else throw overflow) := by
  unfold patch
  refine bind_congr fun mode => ?_
  cases rule.encoding with
  | group => rfl
  | field => rfl

def Rule.storedAddend (rule : Rule) (site : Site) : Except LoadError Int32 :=
  match rule.encoding with
  | .group members _ _ => do Group.addend members (← Cell.word.read site)
  | .field field _ => do return Int32.ofInt (field.extract (← field.cell.read site))

end TargetLink.Relocation.Arm
