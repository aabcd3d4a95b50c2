import TargetLink.Proofs.ArmFields
import TargetLink.Proofs.InPlace
import TargetLink.Proofs.Patches

/-!
# What a relocation leaves alone

A relocation that succeeds changes the bits of its footprint and no others: those of its field and the
opcode bits that go with it (`Footprint`).  One that fails has changed nothing.

* `Arm.Field.agreeOff_insert`: a field is inserted under its mask, and the opcode of a branch changes
  only with the instruction set.
* `Group.agreeOff_patch?`: the immediate of a group member never runs over into its opcode.
* `patchInPlace_framed`: both together, for every type of both machines.
-/

namespace TargetLink.Relocation

/-! ## Words that agree off a mask -/

/-- Two words have the same bits wherever a mask has none. -/
def AgreeOff (mask old new : BitVec 32) : Prop :=
  ∀ i < 32, mask.getLsbD i = false → new.getLsbD i = old.getLsbD i

namespace AgreeOff

variable {mask other old middle new : BitVec 32}

protected theorem refl : AgreeOff mask old old := fun _ _ _ => rfl

protected theorem trans (hfirst : AgreeOff mask old middle) (hsecond : AgreeOff mask middle new) :
    AgreeOff mask old new :=
  fun i hi hoff => (hsecond i hi hoff).trans (hfirst i hi hoff)

theorem or_left (h : AgreeOff mask old new) : AgreeOff (mask ||| other) old new := by
  intro i hi hoff
  rw [BitVec.getLsbD_or, Bool.or_eq_false_iff] at hoff
  exact h i hi hoff.1

theorem or_right (h : AgreeOff mask old new) : AgreeOff (other ||| mask) old new := by
  rw [BitVec.or_comm]
  exact h.or_left

theorem of_and_not (h : new &&& ~~~mask = old &&& ~~~mask) : AgreeOff mask old new := by
  intro i hi hoff
  have hbit := congrArg (·.getLsbD i) h
  simpa only [BitVec.getLsbD_and, BitVec.getLsbD_not, hi, hoff, decide_true, Bool.not_false,
    Bool.and_true] using hbit

/-- A field and an opcode that were replaced. -/
theorem merge (instruction : BitVec 32) {field opcode : BitVec 32}
    (hopcode : opcode &&& ~~~other = 0#32) (hfield : field &&& ~~~mask = 0#32) :
    AgreeOff (mask ||| other) instruction
      ((instruction &&& ~~~(other ||| mask)) ||| opcode ||| field) := by
  intro i hi hoff
  have hopcode' := congrArg (·.getLsbD i) hopcode
  have hfield' := congrArg (·.getLsbD i) hfield
  rw [BitVec.getLsbD_or, Bool.or_eq_false_iff] at hoff
  simp only [BitVec.getLsbD_and, BitVec.getLsbD_not, BitVec.getLsbD_zero, hi, hoff.1, hoff.2,
    decide_true, Bool.not_false, Bool.and_true] at hopcode' hfield'
  simp only [BitVec.getLsbD_or, BitVec.getLsbD_and, BitVec.getLsbD_not, hi, hoff.1, hoff.2,
    hopcode', hfield', decide_true, Bool.or_false, Bool.not_false, Bool.and_true]

end AgreeOff

/-- A number of some bits stays inside them. -/
theorem ofNat_and_not_lowOnes (width : Nat) {n : Nat} (h : n < 2 ^ width) :
    BitVec.ofNat 32 n &&& ~~~lowOnes width = 0#32 := by
  apply BitVec.eq_of_getLsbD_eq
  intro i hi
  rw [BitVec.getLsbD_and, BitVec.getLsbD_not, getLsbD_lowOnes, BitVec.getLsbD_ofNat]
  by_cases hwidth : i < width
  · simp [hi, hwidth]
  · have hbit : n.testBit i = false :=
      Nat.testBit_lt_two_pow (Nat.lt_of_lt_of_le h (Nat.pow_le_pow_right Nat.two_pos (by omega)))
    simp [hbit]

theorem Layout.agreeOff_put {layout : Layout} {mask : BitVec 32}
    (h : ∀ slice ∈ layout, ∀ i < 32, slice.Covers i → mask.getLsbD i = true)
    (field word : BitVec 32) : AgreeOff mask word (layout.put field word) := by
  intro i hi hoff
  refine layout.getLsbD_put_of_not_covers field word hi fun slice hslice hcovers => ?_
  rw [h slice hslice i hi hcovers] at hoff
  cases hoff

/-! ## What a type may change -/

namespace Arm

namespace Field

/-- The bits of an instruction that a field takes up. -/
def bits : Field → BitVec 32
  | word => 0xffffffff
  | half => 0xffff
  | byte => 0xff
  | prel31 => 0x7fffffff
  | armBranch => 0x00ffffff
  | abs12 => 0xfff
  | movw | movt => 0x000f0fff
  | thmAbs5 => 0x07c0
  | thmPc8 | thmJump8 => 0xff
  | thmJump6 => 0x02f8
  | thmJump11 => 0x07ff
  | thmBranch => 0x07ff2fff
  | thmJump19 => 0x043f2fff
  | thmMovw | thmMovt => 0x040f70ff
  | thmAluPrel => 0x040070ff
  | thmPc12 => 0x0fff

/-- The mask of a field is what its slices cover. -/
theorem getLsbD_bits (field : Field) :
    ∀ i < 32, field.bits.getLsbD i = true ↔ ∃ slice ∈ field.layout, slice.Covers i := by
  cases field <;> decide

/-- The opcode bits that go with a field. The opcode of a branch changes only with its instruction
set; a BLX that stays one keeps all of its opcode but bit one of the offset. -/
def switchedBits (field : Field) (mode : SwitchMode) (old : BitVec 32) : BitVec 32 :=
  match field, mode with
  | armBranch, .keep | thmBranch, .keep => 0
  | armBranch, .exchange => if old >>> 25 = 0x7d then 0x01000000 else field.opcodeBits
  | _, _ => field.opcodeBits

/-- The opcodes of the two forms of BLX differ in one bit. -/
theorem getLsbD_blx {word : BitVec 32} (hblx : word >>> 25 = 0x7d) {i : Nat} (hi : i < 32)
    (hopcode : 25 ≤ i) : (0xfb000000 : BitVec 32).getLsbD i = word.getLsbD i ∧
      (0xfa000000 : BitVec 32).getLsbD i = word.getLsbD i := by
  have hconstant : ∀ i < 32, 25 ≤ i →
      (0xfb000000 : BitVec 32).getLsbD i = (0x7d : BitVec 32).getLsbD (i - 25) ∧
        (0xfa000000 : BitVec 32).getLsbD i = (0x7d : BitVec 32).getLsbD (i - 25) := by
    decide
  have hword : word.getLsbD i = (0x7d : BitVec 32).getLsbD (i - 25) := by
    rw [← hblx, BitVec.getLsbD_ushiftRight, Nat.add_sub_cancel' hopcode]
  rw [hword]
  exact hconstant i hi hopcode

theorem agreeOff_exchange (v : Int) {word : BitVec 32} (hblx : word >>> 25 = 0x7d) :
    AgreeOff 0x01000000 word (armBranch.setOpcode .exchange v word) := by
  intro i hi hoff
  have hlow : (0x00ffffff : BitVec 32).getLsbD i = decide (i < 24) := by
    revert i
    decide
  simp only [setOpcode, BitVec.getLsbD_or, BitVec.getLsbD_and, hlow]
  by_cases hopcode : 25 ≤ i
  · obtain ⟨hodd, heven⟩ := getLsbD_blx hblx hi hopcode
    rw [decide_eq_false (by omega), Bool.and_false, Bool.false_or]
    split
    · exact hodd
    · exact heven
  · have hclear : ∀ i < 24, (0xfb000000 : BitVec 32).getLsbD i = false ∧
        (0xfa000000 : BitVec 32).getLsbD i = false := by
      decide
    have hlt : i < 24 := by
      refine Nat.lt_of_le_of_ne (by omega) ?_
      rintro rfl
      exact absurd hoff (by decide)
    obtain ⟨hodd, heven⟩ := hclear i hlt
    rw [decide_eq_true hlt, Bool.and_true]
    split
    · rw [hodd, Bool.or_false]
    · rw [heven, Bool.or_false]

theorem agreeOff_setOpcode (field : Field) (mode : SwitchMode) (v : Int) (word : BitVec 32) :
    AgreeOff (field.switchedBits mode word) word (field.setOpcode mode v word) := by
  have hopcode : AgreeOff field.opcodeBits word (field.setOpcode mode v word) :=
    .of_and_not (field.setOpcode_and_not mode v word)
  unfold switchedBits
  split
  · exact .refl
  · exact .refl
  · split
    case isTrue hblx => exact agreeOff_exchange v hblx
    case isFalse => exact hopcode
  · exact hopcode

theorem switchedBits_put (field : Field) (mode : SwitchMode) (bits old : BitVec 32) :
    field.switchedBits mode (field.layout.put bits old) = field.switchedBits mode old := by
  unfold switchedBits
  split
  · rfl
  · rfl
  · rw [put_ushiftRight _ _ (by decide)]
  · rfl

/-- Writing a field changes its own bits and those of the opcode that go with it. -/
theorem agreeOff_insert (field : Field) (mode : SwitchMode) (v : Int) (old : BitVec 32) :
    AgreeOff (field.bits ||| field.switchedBits mode old) old (field.insert mode v old) := by
  have hput := Layout.agreeOff_put
    (fun slice hslice i hi hcovers => (field.getLsbD_bits i hi).mpr ⟨slice, hslice, hcovers⟩)
    (field.toggle (BitVec.ofInt 32 (field.pack v))) old
  have hopcode := field.agreeOff_setOpcode mode v
    (field.layout.put (field.toggle (BitVec.ofInt 32 (field.pack v))) old)
  rw [switchedBits_put] at hopcode
  exact hput.or_left.trans hopcode.or_right

end Field

end Arm

/-! ### Members of groups -/

namespace GroupClass

/-- The bits of the offset or of the rotated immediate. -/
def bits : GroupClass → BitVec 32
  | alu | ldr => 0xfff
  | ldrs => 0xf0f
  | ldc => 0xff

/-- The bits that tell ADD from SUB, or the direction of a load or store. -/
def opcodeBits : GroupClass → BitVec 32
  | alu => 0x01e00000
  | ldr | ldrs | ldc => 0x00800000

end GroupClass

namespace Group

theorem remainder_le (count n : Nat) : remainder count n ≤ n := by
  induction count generalizing n with
  | zero => exact Nat.le_refl n
  | succ count ih => exact Nat.le_trans (ih (rest n)) (rest_le n)

/-- A number of a word has at most eight bits from its starting position on. -/
theorem shiftRight_position_lt {n : Nat} (h : n < 2 ^ 32) : n >>> position n < 0x100 := by
  rw [Nat.shiftRight_eq_div_pow, Nat.div_lt_iff_lt_mul (Nat.two_pow_pos _)]
  have hsize : n < 2 ^ (position n + 8) := by
    by_cases hcap : (n.log2 - 7 + 1) / 2 * 2 ≤ 24
    · have hlog : n < 2 ^ (n.log2 + 1) := Nat.lt_log2_self
      refine Nat.lt_of_lt_of_le hlog (Nat.pow_le_pow_right Nat.two_pos ?_)
      unfold position
      omega
    · have hposition : position n = 24 := by
        unfold position
        omega
      rwa [hposition]
  rwa [Nat.pow_add, Nat.mul_comm] at hsize

/-- Stripping pairs of zeros takes away those that were put behind a number. -/
theorem stripPairs_mul_le (q : Nat) {k pairs : Nat} (h : k ≤ pairs) :
    (stripPairs pairs (q * 4 ^ k)).1 ≤ q := by
  induction pairs generalizing q k with
  | zero =>
    obtain rfl : k = 0 := Nat.le_zero.mp h
    simp [stripPairs]
  | succ pairs ih =>
    cases k with
    | zero =>
      rw [Nat.pow_zero, Nat.mul_one, stripPairs]
      split
      · have hquarter := ih (q / 4) (Nat.zero_le pairs)
        rw [Nat.pow_zero, Nat.mul_one] at hquarter
        dsimp only
        omega
      · exact Nat.le_refl q
    | succ k =>
      have hpairs : q * 4 ^ (k + 1) = q * 4 ^ k * 4 := by rw [Nat.pow_succ, Nat.mul_assoc]
      rw [stripPairs, hpairs, if_pos (Nat.mul_mod_left _ 4), Nat.mul_div_cancel _ (by decide)]
      exact ih q (Nat.le_of_succ_le_succ h)

/-- Without its trailing zeros a chunk is a byte. -/
theorem stripPairs_chunk_lt {n : Nat} (h : n < 2 ^ 32) : (stripPairs 16 (chunk n)).1 < 0x100 := by
  have heven : position n = 2 * (position n / 2) := by
    unfold position
    omega
  have hcap : position n ≤ 24 := Nat.min_le_left _ _
  have hchunk : chunk n = n >>> position n * 4 ^ (position n / 2) := by
    rw [chunk, Nat.shiftLeft_eq]
    congr 1
    conv_lhs => rw [heven, Nat.pow_mul]
  rw [hchunk]
  exact Nat.lt_of_le_of_lt (stripPairs_mul_le _ (by omega)) (shiftRight_position_lt h)

/-- The immediate of a chunk fits into its field. -/
theorem encodeImmediate_lt {n : Nat} (h : n < 2 ^ 32) : encodeImmediate (chunk n) < 2 ^ 12 := by
  have hbyte := stripPairs_chunk_lt h
  unfold encodeImmediate
  split
  · decide
  · dsimp only
    omega

/-- The two halves of a split offset. -/
theorem splitOffset_and_not : ∀ left < 0x100,
    BitVec.ofNat 32 (left / 16 * 0x100 + left % 16) &&& ~~~0xf0f#32 = 0#32 := by
  decide +kernel

theorem agreeOff_withOffset (instruction : BitVec 32) {field offset : BitVec 32}
    (h : offset &&& ~~~field = 0#32) (negative : Bool) :
    AgreeOff (field ||| upBit) instruction (withOffset instruction field offset negative) :=
  .merge instruction (by cases negative <;> decide) h

/-- A member of a group changes its offset and the opcode bits that hold its sign. -/
theorem agreeOff_patch? {members : GroupClass} {index : Nat} {concluding : Bool}
    {instruction patched : BitVec 32} {v : Int} (hv : v.natAbs < 2 ^ 32)
    (h : patch? members index concluding instruction v = some patched) :
    AgreeOff (members.bits ||| members.opcodeBits) instruction patched := by
  have hleft := Nat.lt_of_le_of_lt (remainder_le index v.natAbs) hv
  unfold patch? at h
  cases members with
  | alu =>
    obtain ⟨-, h⟩ := Option.ite_none_left_eq_some.mp h
    obtain rfl := Option.some.inj h
    refine .merge instruction ?_ (ofNat_and_not_lowOnes _ (encodeImmediate_lt hleft))
    split <;> decide
  | ldr =>
    obtain ⟨hfits, h⟩ := Option.ite_none_right_eq_some.mp h
    obtain rfl := Option.some.inj h
    exact agreeOff_withOffset instruction (ofNat_and_not_lowOnes 12 hfits) _
  | ldrs =>
    obtain ⟨hfits, h⟩ := Option.ite_none_right_eq_some.mp h
    obtain rfl := Option.some.inj h
    exact agreeOff_withOffset instruction (splitOffset_and_not _ hfits) _
  | ldc =>
    obtain ⟨⟨-, hfits⟩, h⟩ := Option.ite_none_right_eq_some.mp h
    obtain rfl := Option.some.inj h
    exact agreeOff_withOffset instruction (ofNat_and_not_lowOnes 8 hfits) _

end Group

/-! ## The footprint of a relocation -/

/-- Some bits of one cell. -/
structure Footprint where
  cell : Cell
  bits : BitVec 32
  deriving DecidableEq, Repr

/-- What a rule may change of an instruction, in a mode of changing the instruction set. -/
def Arm.Rule.footprint (rule : Arm.Rule) (mode : Arm.SwitchMode) (old : BitVec 32) : Footprint :=
  match rule.encoding with
  | .field field _ => ⟨field.cell, field.bits ||| field.switchedBits mode old⟩
  | .group members _ _ => ⟨.word, members.bits ||| members.opcodeBits⟩

/-- What a rule may change: a run of bits. -/
def C6000.Rule.footprint (rule : C6000.Rule) : Footprint :=
  ⟨rule.cell, lowOnes rule.width <<< rule.lowBit⟩

/-- What a relocation may change. Types that patch nothing have no footprint. -/
def footprint? (machine : Machine) (type : UInt32) (site : Site) (inputs : Inputs) :
    Option Footprint :=
  match machine with
  | .arm => do
    let rule ← Kind.rule? Arm.kinds type
    let mode ← (Arm.switchMode rule.switch (typeName machine type) site inputs).toOption
    let old ← (rule.cell.read site).toOption
    return rule.footprint mode old
  | .c6000 => (Kind.rule? C6000.kinds type).map (·.footprint)

/-- Nothing but a footprint at a site has changed. -/
structure Framed (footprint : Footprint) (site : Site) (after : Bytes) : Prop where
  length : after.length = site.bytes.length
  outside : ∀ i, i < site.offset ∨ site.offset + footprint.cell.size ≤ i →
    after[i]? = site.bytes[i]?
  inside : ∃ old new, footprint.cell.read site = .ok old ∧
    footprint.cell.read { site with bytes := after } = .ok new ∧
    ∀ i < 8 * footprint.cell.size, footprint.bits.getLsbD i = false →
      new.getLsbD i = old.getLsbD i

section Framed

variable {site : Site} {after : Bytes}

/-- Writing a cell that was read changes what was replaced in it. -/
theorem framed_write {cell : Cell} {bits old new : BitVec 32} (hread : cell.read site = .ok old)
    (hagree : AgreeOff bits old new) : Framed ⟨cell, bits⟩ site (cell.write site new) := by
  have hfit := Cell.fits_of_read hread
  refine ⟨cell.length_write site new, fun i hout => cell.getElem?_write_of_outside site new hout, old, _,
    hread, cell.read_write site new hfit, fun i hi hoff => ?_⟩
  have hi' : i < 32 := Nat.lt_of_lt_of_le hi (Layout.WellFormed.size_le cell)
  rw [BitVec.getLsbD_and, getLsbD_lowOnes, decide_eq_true hi', decide_eq_true hi, Bool.and_true,
    Bool.and_true]
  exact hagree i hi' hoff

theorem Arm.framed_of_patch {rule : Arm.Rule} (h : rule.patch name site inputs = .ok after) :
    ∃ mode old, switchMode rule.switch name site inputs = .ok mode ∧
      rule.cell.read site = .ok old ∧ Framed (rule.footprint mode old) site after := by
  rw [Rule.patch_eq] at h
  obtain ⟨mode, hmode, h⟩ := exists_of_bind_eq_ok h
  obtain ⟨formula, encoding, switch⟩ := rule
  cases encoding with
  | group members index concluding =>
    obtain ⟨old, hread, h⟩ := exists_of_bind_eq_ok h
    split at h
    · rename_i patched hpatched
      obtain rfl := Except.ok.inj h
      have hvalue : Rule.value ⟨formula, .group members index concluding, switch⟩ mode inputs =
          formula.eval inputs := rfl
      have hbounds := eval_bounds formula inputs
      exact ⟨mode, old, hmode, hread,
        framed_write hread (Group.agreeOff_patch? (by rw [hvalue]; omega) hpatched)⟩
    · cases h
  | field field check =>
    dsimp only at h
    split at h
    · obtain ⟨old, hread, h⟩ := exists_of_bind_eq_ok h
      obtain rfl := Except.ok.inj h
      exact ⟨mode, old, hmode, hread, framed_write hread (field.agreeOff_insert mode _ old)⟩
    · cases h

theorem C6000.framed_of_patch {rule : C6000.Rule} (h : rule.patch name site inputs = .ok after) :
    Framed rule.footprint site after := by
  obtain ⟨v, -, h⟩ := exists_of_bind_eq_ok h
  split at h
  · obtain ⟨old, hread, h⟩ := exists_of_bind_eq_ok h
    obtain rfl := Except.ok.inj h
    refine framed_write hread (Layout.agreeOff_put (fun slice hslice i hi hcovers => ?_) _ old)
    obtain rfl := List.mem_singleton.mp hslice
    have hmask := Slice.getLsbD_mask ⟨0, rule.lowBit, rule.width⟩ i
    rw [decide_eq_true hi, decide_eq_true hcovers] at hmask
    exact hmask
  · cases h

/-- A relocation changes its footprint, and none of the segment if its type is inert. -/
theorem framed_of_patch {machine : Machine} {type : UInt32}
    (h : patch machine type site inputs = .ok after) :
    if isInert machine type then after = site.bytes
    else ∃ footprint ∈ footprint? machine type site inputs, Framed footprint site after := by
  obtain ⟨hinert, h⟩ | ⟨rule, rfl, hrule, h⟩ | ⟨rule, rfl, hrule, h⟩ := patch_eq_ok_iff.mp h
  · rw [if_pos hinert]
    exact h
  · obtain ⟨mode, old, hmode, hread, hframed⟩ := Arm.framed_of_patch h
    rw [isInert, Kind.isInert_of_rule? hrule, if_neg Bool.false_ne_true]
    refine ⟨rule.footprint mode old, ?_, hframed⟩
    simp [footprint?, hrule, hmode, hread, Except.toOption]
  · rw [isInert, Kind.isInert_of_rule? hrule, if_neg Bool.false_ne_true]
    refine ⟨rule.footprint, ?_, C6000.framed_of_patch h⟩
    rw [footprint?, hrule]
    rfl

end Framed

/-- A relocation that fails leaves the segment as it was. One that succeeds leaves all of an inert
type's segment, and else everything but its footprint. -/
theorem patchInPlace_framed (machine : Machine) (type : UInt32) (order : ByteOrder) (offset : Nat)
    (inputs : Inputs) (bytes : Bytes) :
    let site : Site := ⟨bytes, offset, order⟩
    match patchInPlace machine type order offset inputs bytes with
    | (.error e, after) => patch machine type site inputs = .error e ∧ after = bytes
    | (.ok (), after) => patch machine type site inputs = .ok after ∧
      if isInert machine type then after = bytes
      else ∃ footprint ∈ footprint? machine type site inputs, Framed footprint site after := by
  intro site
  rw [patchInPlace_eq]
  cases hpatch : patch machine type ⟨bytes, offset, order⟩ inputs with
  | error e => exact ⟨rfl, rfl⟩
  | ok after => exact ⟨rfl, framed_of_patch hpatch⟩

/-- A call that becomes a BLX may change as a whole. -/
example : footprint? .arm 28 Arm.callSite Arm.toThumb = some ⟨.word, 0xffffffff⟩ := by
  decide +kernel

end TargetLink.Relocation
