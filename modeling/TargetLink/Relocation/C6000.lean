import TargetLink.Relocation.Cell
import TargetLink.Relocation.Check
import TargetLink.Relocation.Kind

/-!
# C6000 relocations

Every field of a C6000 instruction is one run of bits, so a rule is a row of numbers: how the value
is computed, by how much it is scaled, the cell, and the place of the field in it.  Addends never
stand in the field.
-/

namespace TargetLink.Relocation.C6000

inductive Formula
  | abs
  /-- The distance of the target from the 32-byte fetch packet that holds the place. -/
  | fetchPacket
  | prel
  | sbrel
  /-- The module's slot in the table of static bases. -/
  | dsbtIndex
  deriving DecidableEq, Repr

structure Rule where
  formula : Formula
  /-- How many low bits of the value the field leaves out. -/
  shift : Nat
  cell : Cell
  lowBit : Nat
  width : Nat
  check : Check
  deriving DecidableEq, Repr

def kinds : List (Kind Rule) := [
  ⟨0, "R_C6000_NONE", .inert⟩,
  ⟨1, "R_C6000_ABS32", .patch ⟨.abs, 0, .word, 0, 32, .unchecked⟩⟩,
  ⟨2, "R_C6000_ABS16", .patch ⟨.abs, 0, .half, 0, 16, (.either 16)⟩⟩,
  ⟨3, "R_C6000_ABS8", .patch ⟨.abs, 0, .byte, 0, 8, (.either 8)⟩⟩,
  ⟨4, "R_C6000_PCR_S21", .patch ⟨.fetchPacket, 2, .word, 7, 21, (.signed 21)⟩⟩,
  ⟨5, "R_C6000_PCR_S12", .patch ⟨.fetchPacket, 2, .word, 16, 12, (.signed 12)⟩⟩,
  ⟨6, "R_C6000_PCR_S10", .patch ⟨.fetchPacket, 2, .word, 13, 10, (.signed 10)⟩⟩,
  ⟨7, "R_C6000_PCR_S7", .patch ⟨.fetchPacket, 2, .word, 16, 7, (.signed 7)⟩⟩,
  ⟨8, "R_C6000_ABS_S16", .patch ⟨.abs, 0, .word, 7, 16, (.signed 16)⟩⟩,
  ⟨9, "R_C6000_ABS_L16", .patch ⟨.abs, 0, .word, 7, 16, .unchecked⟩⟩,
  ⟨10, "R_C6000_ABS_H16", .patch ⟨.abs, 16, .word, 7, 16, .unchecked⟩⟩,
  ⟨11, "R_C6000_SBR_U15_B", .patch ⟨.sbrel, 0, .word, 8, 15, (.unsigned 15)⟩⟩,
  ⟨12, "R_C6000_SBR_U15_H", .patch ⟨.sbrel, 1, .word, 8, 15, (.unsigned 15)⟩⟩,
  ⟨13, "R_C6000_SBR_U15_W", .patch ⟨.sbrel, 2, .word, 8, 15, (.unsigned 15)⟩⟩,
  ⟨14, "R_C6000_SBR_S16", .patch ⟨.sbrel, 0, .word, 7, 16, (.signed 16)⟩⟩,
  ⟨15, "R_C6000_SBR_L16_B", .patch ⟨.sbrel, 0, .word, 7, 16, .unchecked⟩⟩,
  ⟨16, "R_C6000_SBR_L16_H", .patch ⟨.sbrel, 1, .word, 7, 16, .unchecked⟩⟩,
  ⟨17, "R_C6000_SBR_L16_W", .patch ⟨.sbrel, 2, .word, 7, 16, .unchecked⟩⟩,
  ⟨18, "R_C6000_SBR_H16_B", .patch ⟨.sbrel, 16, .word, 7, 16, .unchecked⟩⟩,
  ⟨19, "R_C6000_SBR_H16_H", .patch ⟨.sbrel, 17, .word, 7, 16, .unchecked⟩⟩,
  ⟨20, "R_C6000_SBR_H16_W", .patch ⟨.sbrel, 18, .word, 7, 16, .unchecked⟩⟩,
  ⟨21, "R_C6000_SBR_GOT_U15_W", .patch ⟨.sbrel, 2, .word, 8, 15, (.unsigned 15)⟩⟩,
  ⟨22, "R_C6000_SBR_GOT_L16_W", .patch ⟨.sbrel, 2, .word, 7, 16, .unchecked⟩⟩,
  ⟨23, "R_C6000_SBR_GOT_H16_W", .patch ⟨.sbrel, 18, .word, 7, 16, .unchecked⟩⟩,
  ⟨24, "R_C6000_DSBT_INDEX", .patch ⟨.dsbtIndex, 0, .word, 8, 15, (.unsigned 15)⟩⟩,
  ⟨25, "R_C6000_PREL31", .patch ⟨.prel, 1, .word, 0, 31, (.signed 31)⟩⟩,
  ⟨26, "R_C6000_COPY", .unsupported⟩,
  ⟨27, "R_C6000_JUMP_SLOT", .patch ⟨.abs, 0, .word, 0, 32, .unchecked⟩⟩,
  ⟨28, "R_C6000_EHTYPE", .patch ⟨.sbrel, 0, .word, 0, 32, .unchecked⟩⟩,
  ⟨29, "R_C6000_PCR_H16", .patch ⟨.fetchPacket, 16, .word, 7, 16, .unchecked⟩⟩,
  ⟨30, "R_C6000_PCR_L16", .patch ⟨.fetchPacket, 0, .word, 7, 16, .unchecked⟩⟩,
  ⟨253, "R_C6000_ALIGN", .inert⟩,
  ⟨254, "R_C6000_FPHEAD", .inert⟩,
  ⟨255, "R_C6000_NOCMP", .inert⟩]

/-- The value of a formula. Everything wraps around at the end of the address space. -/
def Formula.eval (formula : Formula) (name : String) (inputs : Inputs) : Except LoadError Int :=
  match formula with
  | abs => .ok (wrapWord inputs.target)
  | fetchPacket => .ok (wrapWord (inputs.target - (inputs.place.toNat / 32 * 32 : Nat)))
  | prel => .ok (wrapWord (inputs.target - inputs.place.toNat))
  | sbrel => .ok (wrapWord (inputs.target - inputs.staticBase.toNat))
  | dsbtIndex =>
    match inputs.dsbtIndex with
    | some index => .ok (wrapWord index.toNat)
    | none => .error (.dsbt (.noIndex name inputs.place))

namespace Rule

def layout (rule : Rule) : Layout := [⟨0, rule.lowBit, rule.width⟩]

def pack (rule : Rule) (v : Int) : Int := v >>> rule.shift

def patch (rule : Rule) (name : String) (site : Site) (inputs : Inputs) :
    Except LoadError Bytes := do
  let v ← rule.formula.eval name inputs
  if rule.check.Accepts (rule.pack v) then
    let instruction ← rule.cell.read site
    let field := BitVec.ofInt 32 (rule.pack v)
    return rule.cell.write site (rule.layout.put field instruction)
  else throw (.relocationOverflow name inputs.place v)

end Rule

end TargetLink.Relocation.C6000
