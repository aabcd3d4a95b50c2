import TargetLink.Proofs.Footprints

/-!
# What a sequence of group relocations adds up to

The members of a group take an offset apart from the top.  Each works on what the ones before it have
left, and because every chunk starts at an even position and has eight bits, what is left loses at
least eight bits with each member (`remainder_lt`).  The chunks stand one above the other, a rotated
immediate holds each of them exactly (`decodeImmediate_encodeImmediate`), and together with what is
left they add up to the offset (`sum_member_add_remainder`).

An instruction that was patched gives its part back as its addend (`addend_of_patch?`).  So do the
parts of a sequence add up to the value they were patched for, as 32-bit numbers: magnitude and sign
are kept apart in the instructions, and -2³¹ has a magnitude of its own.
-/

namespace TargetLink.Relocation

/-! ## The parts of an offset -/

namespace Group

/-- A member splits what the members before it have left. -/
theorem remainder_succ (count n : Nat) : remainder (count + 1) n = rest (remainder count n) := by
  induction count generalizing n with
  | zero => rfl
  | succ count ih => exact ih (rest n)

theorem rest_lt (n : Nat) : rest n < 2 ^ position n := by
  rw [rest, Nat.one_shiftLeft]
  exact Nat.mod_lt n (Nat.two_pow_pos _)

/-- A chunk of a number of so many bits leaves no more than the bits below its eight. -/
theorem position_le {n j : Nat} (h : n < 2 ^ (2 * j + 8)) : position n ≤ 2 * j := by
  have hlog : n.log2 < 2 * j + 8 := by
    rcases Nat.eq_zero_or_pos n with rfl | hpos
    · simp
    · exact (Nat.log2_lt (Nat.pos_iff_ne_zero.mp hpos)).mpr h
  unfold position
  omega

/-- Each member takes at least eight bits off an offset. -/
theorem remainder_lt {n count : Nat} (h : n < 2 ^ 32) (hcount : count ≤ 3) :
    remainder count n < 2 ^ (32 - 8 * count) := by
  induction count with
  | zero => exact h
  | succ count ih =>
    have hbits : 32 - 8 * count = 2 * (12 - 4 * count) + 8 := by omega
    have hprevious := ih (by omega)
    rw [hbits] at hprevious
    rw [remainder_succ]
    refine Nat.lt_of_lt_of_le (rest_lt _) (Nat.pow_le_pow_right Nat.two_pos ?_)
    have hposition := position_le hprevious
    omega

theorem remainder_antitone (n : Nat) {count count' : Nat} (h : count ≤ count') :
    remainder count' n ≤ remainder count n := by
  induction h with
  | refl => exact Nat.le_refl _
  | step _ ih =>
    rw [remainder_succ]
    exact Nat.le_trans (rest_le _) ih

/-- The parts of an offset and what they leave add up to it. -/
theorem sum_member_add_remainder (count n : Nat) :
    ((List.range count).map (member · n)).sum + remainder count n = n := by
  induction count with
  | zero => simp [remainder]
  | succ count ih =>
    have hsplit := chunk_add_rest (remainder count n)
    rw [List.range_succ, List.map_append, List.sum_append, List.map_singleton, List.sum_singleton,
      remainder_succ, member]
    omega

theorem position_le_of_testBit_chunk {n i : Nat} (h : (chunk n).testBit i) : position n ≤ i := by
  rw [chunk, Nat.testBit_shiftLeft, Bool.and_eq_true, decide_eq_true_eq] at h
  exact h.1

/-- The parts of an offset stand one above the other. -/
theorem lt_of_testBit_member {n earlier later i j : Nat} (horder : earlier < later)
    (hhigh : (member earlier n).testBit i) (hlow : (member later n).testBit j) : j < i := by
  have hchunk := position_le_of_testBit_chunk hhigh
  have hle : member later n ≤ rest (remainder earlier n) := by
    have hself := chunk_add_rest (remainder later n)
    have hdown := remainder_antitone n (Nat.succ_le_of_lt horder)
    rw [Nat.succ_eq_add_one, remainder_succ] at hdown
    unfold member
    omega
  have hbelow : member later n < 2 ^ position (remainder earlier n) :=
    Nat.lt_of_le_of_lt hle (rest_lt _)
  have hj : 2 ^ j < 2 ^ position (remainder earlier n) :=
    Nat.lt_of_le_of_lt (Nat.ge_two_pow_of_testBit hlow) hbelow
  exact Nat.lt_of_lt_of_le ((Nat.pow_lt_pow_iff_right (by decide)).mp hj) hchunk

/-! ## Rotated immediates -/

/-- The stripped pairs of zeros, put back. -/
theorem stripPairs_mul (pairs n : Nat) :
    (stripPairs pairs n).1 * 4 ^ (stripPairs pairs n).2 = n := by
  induction pairs generalizing n with
  | zero => simp [stripPairs]
  | succ pairs ih =>
    rw [stripPairs]
    split
    case isTrue h =>
      dsimp only
      rw [Nat.pow_succ, ← Nat.mul_assoc, ih]
      omega
    case isFalse => simp

theorem stripPairs_le (pairs n : Nat) : (stripPairs pairs n).2 ≤ pairs := by
  induction pairs generalizing n with
  | zero => simp [stripPairs]
  | succ pairs ih =>
    rw [stripPairs]
    split
    case isTrue => exact Nat.succ_le_succ (ih _)
    case isFalse => exact Nat.zero_le _

/-- A byte turned to the right by all but some pairs of bits is a byte moved to the left. -/
theorem toNat_rotateRight_pairs {low pairs : Nat} (hpairs : pairs < 16)
    (hword : low * 4 ^ pairs < 2 ^ 32) :
    ((BitVec.ofNat 32 low).rotateRight (2 * ((16 - pairs) % 16))).toNat = low * 4 ^ pairs := by
  have hfour : (4 : Nat) ^ pairs = 2 ^ (2 * pairs) := by rw [Nat.pow_mul]
  rw [hfour] at hword ⊢
  have hlow : low < 2 ^ 32 :=
    Nat.lt_of_le_of_lt (Nat.le_mul_of_pos_right low (Nat.two_pow_pos _)) hword
  rw [BitVec.toNat_rotateRight, BitVec.toNat_ofNat, Nat.mod_eq_of_lt hlow]
  rcases Nat.eq_zero_or_pos pairs with rfl | hpos
  · have hout : low <<< 32 % 2 ^ 32 = 0 := by
      rw [Nat.shiftLeft_eq]
      exact Nat.mul_mod_left _ _
    rw [Nat.mul_zero, Nat.pow_zero, Nat.mul_one]
    exact (congrArg (low ||| ·) hout).trans (Nat.or_zero low)
  · have hturn : 2 * ((16 - pairs) % 16) % 32 = 32 - 2 * pairs := by omega
    have hback : 32 - (32 - 2 * pairs) = 2 * pairs := by omega
    -- Nothing of the byte is turned out of the word at its low end.
    have hgone : low >>> (32 - 2 * pairs) = 0 := by
      rw [Nat.shiftRight_eq_div_pow]
      refine Nat.div_eq_of_lt (Nat.lt_of_mul_lt_mul_right (a := 2 ^ (2 * pairs)) ?_)
      rw [← Nat.pow_add]
      have hsum : 32 - 2 * pairs + 2 * pairs = 32 := by omega
      rw [hsum]
      exact hword
    rw [hturn, hback, hgone, Nat.zero_or, Nat.shiftLeft_eq, Nat.mod_eq_of_lt hword]

/-- Only the twelve bits of the immediate are decoded. -/
theorem decodeImmediate_congr {instruction instruction' : BitVec 32}
    (h : instruction &&& 0xfff = instruction' &&& 0xfff) :
    decodeImmediate instruction = decodeImmediate instruction' := by
  have hbyte : ∀ word : BitVec 32, word &&& 0xff = (word &&& 0xfff) &&& 0xff := by
    intro word
    rw [BitVec.and_assoc]
    rfl
  have hturn : ∀ word : BitVec 32,
      (word >>> 8) &&& (0xf : BitVec 32) = ((word &&& 0xfff) >>> 8) &&& (0xf : BitVec 32) := by
    intro word
    rw [BitVec.ushiftRight_and_distrib, BitVec.and_assoc]
    rfl
  rw [decodeImmediate, decodeImmediate, hbyte instruction, hbyte instruction', hturn instruction,
    hturn instruction', h]

/-- The two fields of an immediate. -/
theorem decodeImmediate_fields {turn low : Nat} (hturn : turn < 16) (hlow : low < 0x100) :
    BitVec.ofNat 32 (turn * 0x100 + low) &&& 0xff = BitVec.ofNat 32 low ∧
      ((BitVec.ofNat 32 (turn * 0x100 + low) >>> 8) &&& 0xf).toNat = turn := by
  have hbyte : (0xff : BitVec 32) = lowOnes 8 := by decide
  have hfour : (0xf : BitVec 32) = lowOnes 4 := by decide
  constructor
  · apply BitVec.eq_of_toNat_eq
    rw [hbyte, toNat_and_lowOnes _ (by decide), BitVec.toNat_ofNat, BitVec.toNat_ofNat]
    omega
  · rw [hfour, toNat_and_lowOnes _ (by decide), BitVec.toNat_ushiftRight, BitVec.toNat_ofNat,
      Nat.shiftRight_eq_div_pow]
    omega

/-- The rotated immediate of a chunk stands for the chunk. -/
theorem decodeImmediate_encodeImmediate {n : Nat} (h : n < 2 ^ 32) :
    (decodeImmediate (BitVec.ofNat 32 (encodeImmediate (chunk n)))).toNat = chunk n := by
  have hword : chunk n < 2 ^ 32 := by
    have := chunk_add_rest n
    omega
  by_cases hzero : chunk n = 0
  · rw [hzero]
    rfl
  · have hback := stripPairs_mul 16 (chunk n)
    have hle := stripPairs_le 16 (chunk n)
    have hbyte := stripPairs_chunk_lt h
    rw [encodeImmediate, if_neg hzero]
    generalize stripPairs 16 (chunk n) = parts at hback hle hbyte
    obtain ⟨low, pairs⟩ := parts
    dsimp only at hback hle hbyte ⊢
    rw [← hback] at hword hzero ⊢
    -- A number of the word that is not zero has a bit that is not stripped.
    have hpairs : pairs < 16 := by
      refine Nat.lt_of_le_of_ne hle ?_
      rintro rfl
      have hlow : low = 0 := by omega
      exact hzero (by rw [hlow, Nat.zero_mul])
    obtain ⟨hlow, hturn⟩ :=
      decodeImmediate_fields (Nat.mod_lt (16 - pairs) (by decide : 16 > 0)) hbyte
    rw [decodeImmediate, hlow, hturn, toNat_rotateRight_pairs hpairs hword]

/-! ## What an instruction contributes -/

/-- A magnitude with a sign, as a 32-bit number. -/
def signed (negative : Bool) (magnitude : Nat) : Int32 :=
  if negative then -Int32.ofNat magnitude else Int32.ofNat magnitude

theorem signed_add (negative : Bool) (m n : Nat) :
    signed negative (m + n) = signed negative m + signed negative n := by
  unfold signed
  cases negative
  · exact Int32.ofNat_add m n
  · simp only [if_true]
    rw [Int32.ofNat_add, Int32.neg_add, Int32.sub_eq_add_neg]

theorem ofBitVec_eq (bits : BitVec 32) : Int32.ofBitVec bits = Int32.ofNat bits.toNat := by
  rw [← Int32.ofBitVec_ofNat, BitVec.ofNat_toNat, BitVec.setWidth_eq]

/-- Every number is its magnitude with its sign, also the one that has no negative. -/
theorem signed_natAbs (v : Int32) : signed (decide (v.toInt < 0)) v.toInt.natAbs = v := by
  unfold signed
  split
  case isTrue h =>
    rw [Int32.neg_ofNat, Int.ofNat_natAbs_of_nonpos (Int.le_of_lt (of_decide_eq_true h)), Int.neg_neg,
      Int32.ofInt_toInt]
  case isFalse h =>
    rw [← Int32.ofInt_eq_ofNat, Int.natAbs_of_nonneg (Int.not_lt.mp (mt decide_eq_true h)),
      Int32.ofInt_toInt]

/-- What the conclusion of a group cannot hold: an ALU instruction has to take all that the others
have left, and a load or store has so many bits for it. -/
def Exceeds (members : GroupClass) (index n : Nat) : Prop :=
  match members with
  | .alu => remainder (index + 1) n ≠ 0
  | .ldr => 2 ^ 12 ≤ remainder index n
  | .ldrs => 2 ^ 8 ≤ remainder index n
  | .ldc => ¬∃ words < 2 ^ 8, remainder index n = 4 * words

/-- What a member contributes: an ALU instruction its part, a load or store all that is left. -/
def share (members : GroupClass) (index n : Nat) : Nat :=
  match members with
  | .alu => member index n
  | .ldr | .ldrs | .ldc => remainder index n

theorem patch?_eq_none_iff (members : GroupClass) (index : Nat) (instruction : BitVec 32) (v : Int) :
    patch? members index true instruction v = none ↔ Exceeds members index v.natAbs := by
  unfold patch? Exceeds
  cases members with
  | alu => simp [remainder_succ]
  | ldr => simp
  | ldrs => simp
  | ldc =>
    have hwords : (remainder index v.natAbs % 4 = 0 ∧ remainder index v.natAbs / 4 < 0x100) ↔
        ∃ words < 2 ^ 8, remainder index v.natAbs = 4 * words :=
      ⟨fun ⟨hmod, hlt⟩ => ⟨_, hlt, by omega⟩, by rintro ⟨words, hlt, heq⟩; omega⟩
    rw [← hwords]
    simp

/-- An ALU instruction that others follow takes whatever part is its own. -/
theorem exists_patch?_alu (index : Nat) (instruction : BitVec 32) (v : Int) :
    ∃ patched, patch? .alu index false instruction v = some patched := by
  simp [patch?]

/-- The opcode bits and the field that an instruction was given stand in it. -/
theorem merge_and (instruction opcodeBits opcode field offset : BitVec 32)
    (hopcode : opcode &&& ~~~opcodeBits = 0#32) (hoffset : offset &&& ~~~field = 0#32)
    (hapart : opcodeBits &&& field = 0#32) :
    ((instruction &&& ~~~(opcodeBits ||| field)) ||| opcode ||| offset) &&& opcodeBits = opcode ∧
      ((instruction &&& ~~~(opcodeBits ||| field)) ||| opcode ||| offset) &&& field = offset := by
  have hbool : ∀ a b c f o : Bool, (c && !b) = false → (o && !f) = false → (b && f) = false →
      ((a && !(b || f) || c || o) && b) = c ∧ ((a && !(b || f) || c || o) && f) = o := by
    decide
  have hbit : ∀ i < 32, _ := fun i hi =>
    hbool (instruction.getLsbD i) (opcodeBits.getLsbD i) (opcode.getLsbD i) (field.getLsbD i)
      (offset.getLsbD i)
      (by simpa [hi] using congrArg (·.getLsbD i) hopcode)
      (by simpa [hi] using congrArg (·.getLsbD i) hoffset)
      (by simpa using congrArg (·.getLsbD i) hapart)
  constructor <;> apply BitVec.eq_of_getLsbD_eq <;> intro i hi
  · simpa [hi] using (hbit i hi).1
  · simpa [hi] using (hbit i hi).2

theorem and_eq_and_of_and_eq {word field contents : BitVec 32} (h : word &&& field = contents) :
    word &&& field = contents &&& field := by
  rw [← h, BitVec.and_assoc, BitVec.and_self]

/-- An ADD or SUB of a chunk. -/
theorem addend_alu (instruction : BitVec 32) (negative : Prop) [Decidable negative] {n : Nat}
    (h : n < 2 ^ 32) :
    addend .alu ((instruction &&& ~~~(opcodeMask ||| 0xfff)) |||
      (if negative then subOpcode else addOpcode) |||
      BitVec.ofNat 32 (encodeImmediate (chunk n))) =
      .ok (signed (decide negative) (chunk n)) := by
  obtain ⟨hopcode, himmediate⟩ := merge_and instruction opcodeMask
    (if negative then subOpcode else addOpcode) 0xfff _ (by split <;> decide)
    (ofNat_and_not_lowOnes 12 (encodeImmediate_lt h)) (by decide)
  have hsame : decodeImmediate ((instruction &&& ~~~(opcodeMask ||| 0xfff)) |||
      (if negative then subOpcode else addOpcode) |||
      BitVec.ofNat 32 (encodeImmediate (chunk n))) =
      decodeImmediate (BitVec.ofNat 32 (encodeImmediate (chunk n))) :=
    decodeImmediate_congr (and_eq_and_of_and_eq himmediate)
  simp only [addend, hopcode, hsame, ofBitVec_eq, decodeImmediate_encodeImmediate h]
  by_cases hsign : negative
  · rw [if_pos hsign, if_neg (by decide), if_pos rfl, decide_eq_true hsign]
    rfl
  · rw [if_neg hsign, if_pos rfl, decide_eq_false hsign]
    rfl

/-- A load or store holds its offset and its direction. -/
theorem withOffset_and (instruction field : BitVec 32) {offset : BitVec 32} (negative : Bool)
    (hoffset : offset &&& ~~~field = 0#32) (hapart : upBit &&& field = 0#32) :
    (withOffset instruction field offset negative &&& upBit == 0) = negative ∧
      withOffset instruction field offset negative &&& field = offset := by
  obtain ⟨hdirection, hfield⟩ := merge_and instruction upBit
    (if negative then 0 else upBit) field offset (by cases negative <;> decide) hoffset hapart
  refine ⟨?_, hfield⟩
  rw [withOffset, hdirection]
  cases negative <;> decide

/-- The two halves of a split offset, put together again. -/
theorem joinOffset_split : ∀ left < 0x100,
    (((BitVec.ofNat 32 (left / 16 * 0x100 + left % 16) >>> 4) &&& (0xf0 : BitVec 32)) |||
      (BitVec.ofNat 32 (left / 16 * 0x100 + left % 16) &&& (0xf : BitVec 32))).toNat = left := by
  decide +kernel

theorem joinOffset_congr {instruction instruction' : BitVec 32}
    (h : instruction &&& 0xf0f = instruction' &&& 0xf0f) :
    ((instruction >>> 4) &&& (0xf0 : BitVec 32)) ||| (instruction &&& (0xf : BitVec 32)) =
      ((instruction' >>> 4) &&& (0xf0 : BitVec 32)) ||| (instruction' &&& (0xf : BitVec 32)) := by
  have hhigh : ∀ word : BitVec 32,
      (word >>> 4) &&& (0xf0 : BitVec 32) = ((word &&& 0xf0f) >>> 4) &&& (0xf0 : BitVec 32) := by
    intro word
    rw [BitVec.ushiftRight_and_distrib, BitVec.and_assoc]
    rfl
  have hlow : ∀ word : BitVec 32, word &&& (0xf : BitVec 32) = (word &&& 0xf0f) &&& (0xf : BitVec 32) := by
    intro word
    rw [BitVec.and_assoc]
    rfl
  rw [hhigh instruction, hhigh instruction', hlow instruction, hlow instruction', h]

/-- A member that was patched gives its share back as its addend. -/
theorem addend_of_patch? {members : GroupClass} {index : Nat} {concluding : Bool}
    {instruction patched : BitVec 32} {v : Int} (hv : v.natAbs < 2 ^ 32)
    (h : patch? members index concluding instruction v = some patched) :
    addend members patched = .ok (signed (decide (v < 0)) (share members index v.natAbs)) := by
  have hleft := Nat.lt_of_le_of_lt (remainder_le index v.natAbs) hv
  unfold patch? at h
  cases members with
  | alu =>
    obtain ⟨-, h⟩ := Option.ite_none_left_eq_some.mp h
    obtain rfl := Option.some.inj h
    exact addend_alu instruction (v < 0) hleft
  | ldr =>
    obtain ⟨hfits, h⟩ := Option.ite_none_right_eq_some.mp h
    obtain rfl := Option.some.inj h
    obtain ⟨hdown, hoffset⟩ := withOffset_and instruction 0xfff (decide (v < 0))
      (ofNat_and_not_lowOnes 12 hfits) (by decide)
    simp only [addend, hdown, hoffset, ofBitVec_eq]
    rw [BitVec.toNat_ofNat, Nat.mod_eq_of_lt hleft]
    rfl
  | ldrs =>
    obtain ⟨hfits, h⟩ := Option.ite_none_right_eq_some.mp h
    obtain rfl := Option.some.inj h
    obtain ⟨hdown, hoffset⟩ := withOffset_and instruction 0xf0f (decide (v < 0))
      (splitOffset_and_not _ hfits) (by decide)
    have hjoin := joinOffset_congr (and_eq_and_of_and_eq hoffset)
    simp only [addend, hdown, ofBitVec_eq]
    rw [hjoin, joinOffset_split _ hfits]
    rfl
  | ldc =>
    obtain ⟨⟨hwords, hfits⟩, h⟩ := Option.ite_none_right_eq_some.mp h
    obtain rfl := Option.some.inj h
    obtain ⟨hdown, hoffset⟩ := withOffset_and instruction 0xff (decide (v < 0))
      (ofNat_and_not_lowOnes 8 hfits) (by decide)
    simp only [addend, hdown, hoffset, ofBitVec_eq]
    rw [BitVec.toNat_shiftLeft, BitVec.toNat_ofNat, Nat.mod_eq_of_lt (by omega), Nat.shiftLeft_eq,
      Nat.mod_eq_of_lt (by omega), Nat.div_mul_cancel (Nat.dvd_of_mod_eq_zero hwords)]
    rfl

end Group

/-! ## Sequences of relocations -/

namespace Group

/-- A relocation of one member of a group for a value, with the instruction that it finds. -/
structure Step (members : GroupClass) (index : Nat) (concluding : Bool) (v : Int32) where
  type : UInt32
  site : Site
  inputs : Inputs
  rule : Arm.Rule
  instruction : BitVec 32
  ofType : Kind.rule? Arm.kinds type = some rule
  encoding : rule.encoding = .group members index concluding
  value : rule.formula.eval inputs = v.toInt
  read : Cell.word.read site = .ok instruction

namespace Step

variable {members : GroupClass} {index : Nat} {concluding : Bool} {v : Int32}

def patch (step : Step members index concluding v) : Except LoadError Bytes :=
  Relocation.patch .arm step.type step.site step.inputs

/-- The addend that the type reads from its instruction in a patched segment. -/
def storedAddend (step : Step members index concluding v) (bytes : Bytes) :
    Except LoadError Int32 :=
  Relocation.storedAddend .arm step.type { step.site with bytes := bytes }

def overflow (step : Step members index concluding v) : LoadError :=
  .relocationOverflow (typeName .arm step.type) step.inputs.place v.toInt

/-- A member is patched in the word at its site, or overflows. -/
theorem patch_eq (step : Step members index concluding v) :
    step.patch = match patch? members index concluding step.instruction v.toInt with
      | some patched => .ok (Cell.word.write step.site patched)
      | none => .error step.overflow := by
  have hvalue : step.rule.value .keep step.inputs = v.toInt := by
    rw [Arm.Rule.value]
    · exact step.value
    · intro _ _ hexchange
      cases hexchange
  rw [patch, Arm.patch_eq_of_rule? step.ofType, Arm.Rule.patch_eq,
    Arm.switch_of_group step.ofType step.encoding]
  simp only [Arm.switchMode, bind, Except.bind, step.encoding, step.read, hvalue]
  rfl

/-- A patched member is read back as what it contributes. -/
theorem storedAddend_write (step : Step members index concluding v) (patched : BitVec 32) :
    step.storedAddend (Cell.word.write step.site patched) = addend members patched := by
  have hread := Cell.word.read_write step.site patched (Cell.fits_of_read step.read)
  have hword : patched &&& lowOnes (8 * Cell.word.size) = patched :=
    Arm.Field.and_lowOnes_word patched
  rw [hword] at hread
  simp only [storedAddend, Relocation.storedAddend, step.ofType, Arm.Rule.storedAddend,
    step.encoding, hread, bind, Except.bind]

end Step

theorem natAbs_lt (v : Int32) : v.toInt.natAbs < 2 ^ 32 := by
  have hlow := v.le_toInt
  have hhigh := v.toInt_lt
  omega

section Sequence

variable {members : GroupClass} {index : Nat} {concluding : Bool} {v : Int32}

/-- A relocation that succeeds leaves an instruction that contributes its share. -/
theorem Step.contributes (step : Step members index concluding v) {bytes : Bytes}
    (h : step.patch = .ok bytes) :
    step.storedAddend bytes =
      .ok (signed (decide (v.toInt < 0)) (share members index v.toInt.natAbs)) := by
  rw [step.patch_eq] at h
  split at h
  case h_1 patched hpatched =>
    cases h
    rw [step.storedAddend_write, addend_of_patch? (natAbs_lt v) hpatched]
  case h_2 => cases h

/-- What is left for the conclusion is what it contributes, unless it overflows. -/
theorem share_eq_remainder {n : Nat} (h : ¬Exceeds members index n) :
    share members index n = remainder index n := by
  cases members with
  | alu =>
    have hnone : remainder (index + 1) n = 0 := not_not.mp h
    have hsplit := chunk_add_rest (remainder index n)
    rw [remainder_succ] at hnone
    rw [share, member]
    omega
  | ldr | ldrs | ldc => rfl

theorem sum_signed (negative : Bool) (parts : List Nat) :
    (parts.map (signed negative)).sum = signed negative parts.sum := by
  induction parts with
  | nil => cases negative <;> rfl
  | cons part parts ih => rw [List.map_cons, List.sum_cons, List.sum_cons, signed_add, ih]

end Sequence

/-- What is true of the members `0` to `n` of a group for a value.

The parts of its magnitude stand one above the other and are held exactly, what they leave is small,
and a sequence of instructions that is relocated for the value contributes it. -/
structure Materializes (v : Int32) (n : Nat) : Prop where
  ordered : ∀ earlier later, earlier < later → later ≤ n → ∀ i j,
    (member earlier v.toInt.natAbs).testBit i → (member later v.toInt.natAbs).testBit j → j < i
  recovered : ∀ index ≤ n,
    (decodeImmediate (BitVec.ofNat 32 (encodeImmediate (member index v.toInt.natAbs)))).toNat =
      member index v.toInt.natAbs
  sum : ((List.range (n + 1)).map (member · v.toInt.natAbs)).sum +
    remainder (n + 1) v.toInt.natAbs = v.toInt.natAbs
  small : remainder (n + 1) v.toInt.natAbs < 2 ^ (24 - 8 * n)
  /-- Instructions before the conclusion cannot fail. If the conclusion does not fail either, the
  addends of all of them add up to the value. -/
  contributed : ∀ (members : GroupClass) (first : ∀ index < n, Step .alu index false v)
    (last : Step members n true v) (lastBytes : Bytes), last.patch = .ok lastBytes →
    ∃ (addends : Nat → Int32) (lastAddend : Int32),
      (∀ index h, ∃ bytes, (first index h).patch = .ok bytes ∧
        (first index h).storedAddend bytes = .ok (addends index)) ∧
      last.storedAddend lastBytes = .ok lastAddend ∧
      ((List.range n).map addends).sum + lastAddend = v
  overflow : ∀ (members : GroupClass) (last : Step members n true v),
    ((∃ e, last.patch = .error e) ↔ Exceeds members n v.toInt.natAbs) ∧
      ∀ e, last.patch = .error e → e = last.overflow

/-- A group materializes its value: all of it for every instruction that can conclude it, or the
conclusion overflows. -/
theorem materializes (v : Int32) (n : Fin 3) : Materializes v n := by
  have hsize := natAbs_lt v
  have hn : n.val ≤ 2 := Nat.le_of_lt_succ n.isLt
  refine
    { ordered := fun earlier later horder _ i j => lt_of_testBit_member horder
      recovered := fun index _ => decodeImmediate_encodeImmediate
        (Nat.lt_of_le_of_lt (remainder_le index _) hsize)
      sum := sum_member_add_remainder _ _
      small := ?small
      contributed := ?contributed
      overflow := ?overflow }
  case small =>
    have hbits : 32 - 8 * (n.val + 1) = 24 - 8 * n.val := by omega
    rw [← hbits]
    exact remainder_lt hsize (by omega)
  case contributed =>
    intro members first last lastBytes hlast
    have hfits : ¬Exceeds members n v.toInt.natAbs := by
      intro hexceeds
      rw [last.patch_eq, (patch?_eq_none_iff ..).mpr hexceeds] at hlast
      cases hlast
    refine ⟨fun index => signed (decide (v.toInt < 0)) (member index v.toInt.natAbs), _,
      fun index h => ?_, last.contributes hlast, ?_⟩
    · obtain ⟨patched, hpatched⟩ := exists_patch?_alu index (first index h).instruction v.toInt
      have hdone : (first index h).patch = .ok (Cell.word.write (first index h).site patched) := by
        rw [Step.patch_eq, hpatched]
      exact ⟨_, hdone, (first index h).contributes hdone⟩
    · have hparts := sum_signed (decide (v.toInt < 0))
        ((List.range n).map (member · v.toInt.natAbs))
      rw [List.map_map] at hparts
      rw [share_eq_remainder hfits]
      calc _ = signed (decide (v.toInt < 0)) (((List.range n).map (member · v.toInt.natAbs)).sum) +
            signed (decide (v.toInt < 0)) (remainder n v.toInt.natAbs) := congrArg (· + _) hparts
        _ = signed (decide (v.toInt < 0)) v.toInt.natAbs := by
          rw [← signed_add, sum_member_add_remainder]
        _ = v := signed_natAbs v
  case overflow =>
    intro members last
    rw [last.patch_eq, ← patch?_eq_none_iff members n last.instruction v.toInt]
    cases patch? members n true last.instruction v.toInt with
    | none => exact ⟨⟨fun _ => rfl, fun _ => ⟨_, rfl⟩⟩, fun e he => (Except.error.inj he).symm⟩
    | some patched => exact ⟨⟨nofun, nofun⟩, nofun⟩

/-- An addition at the start of a segment, relocated against an address ahead of it. -/
def addition (type : UInt32) (index : Nat) (concluding : Bool)
    (hrule : Kind.rule? Arm.kinds type = some ⟨.prelThumb, .group .alu index concluding, .none⟩) :
    Step .alu index concluding 0x00abcdef where
  type := type
  site := ⟨[0x00, 0xc0, 0x8f, 0xe2], 0, .little⟩
  inputs := { symbol := 0x00abddef, place := 0x1000 }
  rule := ⟨.prelThumb, .group .alu index concluding, .none⟩
  instruction := 0xe28fc000
  ofType := hrule
  encoding := rfl
  value := rfl
  read := rfl

/-- The two additions before the last. -/
def firstAdditions : ∀ index < 2, Step .alu index false 0x00abcdef
  | 0, _ => addition 57 0 false rfl
  | 1, _ => addition 59 1 false rfl

/-- Three additions contribute an offset of three bytes. -/
theorem three_additions : ∃ (addends : Nat → Int32) (lastAddend : Int32),
    (∀ index h, ∃ bytes, (firstAdditions index h).patch = .ok bytes ∧
      (firstAdditions index h).storedAddend bytes = .ok (addends index)) ∧
    (addition 61 2 true rfl).storedAddend [0xef, 0xc0, 0x8f, 0xe2] = .ok lastAddend ∧
    ((List.range 2).map addends).sum + lastAddend = 0x00abcdef :=
  (materializes 0x00abcdef 2).contributed .alu firstAdditions (addition 61 2 true rfl)
    [0xef, 0xc0, 0x8f, 0xe2] (by decide)

end Group

end TargetLink.Relocation
