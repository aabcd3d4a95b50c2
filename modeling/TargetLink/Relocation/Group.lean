import TargetLink.Error

/-!
# ARM instruction groups

A sequence of up to three ALU instructions, perhaps followed by a load or store, materializes one
offset.  Each ALU instruction adds the eight most significant bits that are left of it, starting at
an even bit position; the instruction that ends the sequence takes whatever remains.

The parts never overlap and add up to the offset (`chunk_add_rest`); a remainder is always smaller
than what it was taken from (`rest_le`).
-/

namespace TargetLink.Relocation

/-- The instructions that can be members of a group. -/
inductive GroupClass
  /-- ADD or SUB with a rotated eight-bit immediate. -/
  | alu
  /-- A load or store with a twelve-bit offset. -/
  | ldr
  /-- A halfword, doubleword or signed load or store with a split eight-bit offset. -/
  | ldrs
  /-- A coprocessor load or store with an eight-bit offset in words. -/
  | ldc
  deriving DecidableEq, Repr

namespace Group

/-! ## Splitting an offset -/

/-- The even bit position at which the eight most significant bits of a number start. -/
def position (n : Nat) : Nat := min 24 ((n.log2 - 7 + 1) / 2 * 2)

/-- The part of a number from its starting position on. -/
def chunk (n : Nat) : Nat := n >>> position n <<< position n

/-- What is left of a number without its chunk. -/
def rest (n : Nat) : Nat := n % (1 <<< position n)

theorem chunk_add_rest (n : Nat) : chunk n + rest n = n := by
  rw [chunk, rest, Nat.shiftLeft_eq, Nat.shiftRight_eq_div_pow, Nat.one_shiftLeft, Nat.mul_comm]
  exact Nat.div_add_mod n _

theorem rest_le (n : Nat) : rest n ≤ n := Nat.mod_le _ _

/-- What the first `count` members of a group leave of an offset. -/
def remainder : (count : Nat) → Nat → Nat
  | 0, n => n
  | count + 1, n => remainder count (rest n)

/-- The part of an offset that member `index` of a group holds. -/
def member (index n : Nat) : Nat := chunk (remainder index n)

/-! ## Rotated immediates -/

/-- A number without its trailing pairs of zero bits, and the number of those pairs.  A word has
sixteen pairs. -/
def stripPairs : (pairs : Nat) → Nat → Nat × Nat
  | 0, n => (n, 0)
  | pairs + 1, n =>
    if n % 4 = 0 then
      let (m, stripped) := stripPairs pairs (n / 4)
      (m, stripped + 1)
    else (n, 0)

/-- The rotated immediate of an ALU instruction: eight bits and half the rotation to the right. -/
def encodeImmediate (n : Nat) : Nat :=
  if n = 0 then 0
  else
    let (low, stripped) := stripPairs 16 n
    (16 - stripped) % 16 * 0x100 + low

/-- The number that the rotated immediate of an ALU instruction stands for. -/
def decodeImmediate (instruction : BitVec 32) : BitVec 32 :=
  (instruction &&& 0xff).rotateRight (2 * ((instruction >>> 8) &&& 0xf).toNat)

/-! ## Instructions -/

/-- The opcode bits that tell ADD and SUB from the other ALU instructions. -/
def opcodeMask : BitVec 32 := 0x01e00000
def addOpcode : BitVec 32 := 0x00800000
def subOpcode : BitVec 32 := 0x00400000

def upBit : BitVec 32 := 0x00800000

/-- A load or store whose cleared field gets an offset and whose direction is set. -/
def withOffset (instruction field offset : BitVec 32) (negative : Bool) : BitVec 32 :=
  (instruction &&& ~~~(upBit ||| field)) ||| (if negative then 0 else upBit) ||| offset

/-- Member `index` of the group that materializes `value`, if it can hold its part.

An ALU instruction that concludes the group must leave nothing; other ALU instructions may. A load
or store always concludes its group. -/
def patch? (members : GroupClass) (index : Nat) (concluding : Bool) (instruction : BitVec 32)
    (value : Int) : Option (BitVec 32) :=
  let negative := value < 0
  let left := remainder index value.natAbs
  match members with
  | .alu =>
    if concluding ∧ rest left ≠ 0 then none
    else
      some ((instruction &&& ~~~(opcodeMask ||| 0xfff)) |||
        (if negative then subOpcode else addOpcode) |||
        BitVec.ofNat 32 (encodeImmediate (chunk left)))
  | .ldr =>
    if left < 0x1000 then some (withOffset instruction 0xfff (BitVec.ofNat 32 left) negative)
    else none
  | .ldrs =>
    if left < 0x100 then
      some (withOffset instruction 0xf0f (BitVec.ofNat 32 (left / 16 * 0x100 + left % 16))
        negative)
    else none
  | .ldc =>
    if left % 4 = 0 ∧ left / 4 < 0x100 then
      some (withOffset instruction 0xff (BitVec.ofNat 32 (left / 4)) negative)
    else none

def addend (members : GroupClass) (instruction : BitVec 32) : Except LoadError Int32 :=
  let signed (magnitude : BitVec 32) (negative : Bool) : Int32 :=
    let m := Int32.ofBitVec magnitude
    if negative then -m else m
  let down := instruction &&& upBit == 0
  match members with
  | .alu =>
    let opcode := instruction &&& opcodeMask
    if opcode = addOpcode then .ok (signed (decodeImmediate instruction) false)
    else if opcode = subOpcode then .ok (signed (decodeImmediate instruction) true)
    else .error (.relocation (.notAddOrSub (UInt32.ofBitVec instruction)))
  | .ldr => .ok (signed (instruction &&& 0xfff) down)
  | .ldrs => .ok (signed (((instruction >>> 4) &&& 0xf0) ||| (instruction &&& 0xf)) down)
  | .ldc => .ok (signed ((instruction &&& 0xff) <<< 2) down)

end Group

end TargetLink.Relocation
