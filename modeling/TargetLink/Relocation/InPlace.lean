import TargetLink.Relocation.Codec

/-!
# Relocating in place

`patch` answers with the new contents of a segment.  A loader that keeps one copy of a segment works
on that copy: every store is checked against the end of the segment, the halves of a Thumb
instruction are stored one after the other, and what was stored stays when a later step fails.
`patchInPlace` takes these steps.
-/

namespace TargetLink.Relocation

namespace Cell

/-- Reads the cell at an offset of the segment. -/
def fetch (cell : Cell) (order : ByteOrder) (offset : Nat) : LoadM Bytes (BitVec 32) := do
  let bytes ← get
  MonadExcept.ofExcept (cell.read ⟨bytes, offset, order⟩)

/-- Stores a number of `width` bytes at an offset of the segment. -/
def storeUnit (order : ByteOrder) (offset width n : Nat) : LoadM Bytes Unit := do
  let bytes ← get
  if offset + width ≤ bytes.length then
    set (bytes.overwrite offset (order.encode width n))
  else throw (.relocation (.fieldOutside offset width))

def store (cell : Cell) (order : ByteOrder) (offset : Nat) (contents : BitVec 32) :
    LoadM Bytes Unit :=
  match cell with
  | byte => storeUnit order offset 1 contents.toNat
  | half => storeUnit order offset 2 contents.toNat
  | word => storeUnit order offset 4 contents.toNat
  | thumbPair => do
    storeUnit order offset 2 (contents.toNat / 0x10000)
    storeUnit order (offset + 2) 2 (contents.toNat % 0x10000)

end Cell

def Arm.Rule.patchInPlace (rule : Arm.Rule) (name : String) (order : ByteOrder) (offset : Nat)
    (inputs : Inputs) : LoadM Bytes Unit := do
  let bytes ← get
  let mode ← MonadExcept.ofExcept (switchMode rule.switch name ⟨bytes, offset, order⟩ inputs)
  let v := rule.value mode inputs
  let overflow : LoadError := .relocationOverflow name inputs.place v
  match rule.encoding with
  | .group members index concluding => do
    let instruction ← Cell.word.fetch order offset
    match Group.patch? members index concluding instruction v with
    | some patched => Cell.word.store order offset patched
    | none => throw overflow
  | .field field check =>
    if check.Accepts (field.pack v) then do
      let instruction ← field.cell.fetch order offset
      field.cell.store order offset (field.insert mode v instruction)
    else throw overflow

def C6000.Rule.patchInPlace (rule : C6000.Rule) (name : String) (order : ByteOrder) (offset : Nat)
    (inputs : Inputs) : LoadM Bytes Unit := do
  let v ← MonadExcept.ofExcept (rule.formula.eval name inputs)
  if rule.check.Accepts (rule.pack v) then do
    let instruction ← rule.cell.fetch order offset
    let field := BitVec.ofInt 32 (rule.pack v)
    rule.cell.store order offset (rule.layout.put field instruction)
  else throw (.relocationOverflow name inputs.place v)

/-- Applies a relocation to the segment that is worked on. -/
def patchInPlace (machine : Machine) (type : UInt32) (order : ByteOrder) (offset : Nat)
    (inputs : Inputs) : LoadM Bytes Unit :=
  let name := typeName machine type
  match machine with
  | .arm =>
    match Kind.treatmentOf Arm.kinds type with
    | .inert => pure ()
    | .unsupported => throw (.unsupportedRelocation machine type)
    | .patch rule => rule.patchInPlace name order offset inputs
  | .c6000 =>
    match Kind.treatmentOf C6000.kinds type with
    | .inert => pure ()
    | .unsupported => throw (.unsupportedRelocation machine type)
    | .patch rule => rule.patchInPlace name order offset inputs

end TargetLink.Relocation
