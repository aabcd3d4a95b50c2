import Mathlib.Algebra.Order.Ring.Int
import TargetLink.Proofs.Layouts
import TargetLink.Relocation.Codec

/-!
# ARM fields are read back as they were written

Writing a value into a field and reading the field as an addend are two functions that know nothing
of each other.  They agree because of three facts about each field.

* Its layout is well formed and stays clear of the opcode bits that a write may change
  (`layout_wellFormed`, `opcodeBits_of_covers`), so the contents are the packed value, cut to the
  width of the field (`contents_insert`).
* A range check that suits the field (`Field.Suits`) accepts a value exactly if some contents stand
  for it (`accepts_of_represents`, `exists_represents`).
* What the opcode adds to the contents, the sign of a magnitude or bit one of a BLX, is what the
  write has put there (`withOpcode_insert_magnitude`, `withOpcode_insert_armBranch`).

The table of relocation types enters through `isCoherent_of_mem` alone.
-/

namespace TargetLink.Relocation.Arm

theorem span_eq (bits : Nat) : Check.span bits = 2 ^ bits := Nat.one_shiftLeft bits

theorem natCast_span (bits : Nat) : (Check.span bits : Int) = 2 ^ bits := by
  rw [span_eq, Int.natCast_pow]
  rfl

namespace Field

/-! ## Contents -/

/-- The bits of an instruction that name its instruction set or hold the sign of a magnitude. -/
def opcodeBits : Field → BitVec 32
  | armBranch => 0xff000000
  | thmBranch => 0x1000
  | thmAluPrel => 0x01f00000
  | thmPc12 => 0x00800000
  | _ => 0

theorem layout_wellFormed (field : Field) : field.layout.WellFormed field.cell := by
  cases field <;> decide

theorem width_le (field : Field) : field.width ≤ 32 := by
  cases field <;> decide

theorem opcodeBits_of_covers (field : Field) :
    ∀ slice ∈ field.layout, ∀ i < 8 * field.cell.size, slice.Covers i →
      field.opcodeBits.getLsbD i = false := by
  cases field <;> decide

theorem set_and_not (instruction mask : BitVec 32) {opcode : BitVec 32}
    (h : opcode &&& ~~~mask = 0#32) :
    (instruction ||| opcode) &&& ~~~mask = instruction &&& ~~~mask := by
  rw [BitVec.and_or_distrib_right, h, BitVec.or_zero]

theorem replace_and_not (instruction mask : BitVec 32) {opcode : BitVec 32}
    (h : opcode &&& ~~~mask = 0#32) :
    ((instruction &&& ~~~mask) ||| opcode) &&& ~~~mask = instruction &&& ~~~mask := by
  rw [set_and_not _ _ h, BitVec.and_assoc, BitVec.and_self]

/-- A change of the opcode leaves the other bits of the instruction alone. -/
theorem setOpcode_and_not (field : Field) (mode : SwitchMode) (v : Int) (instruction : BitVec 32) :
    field.setOpcode mode v instruction &&& ~~~field.opcodeBits =
      instruction &&& ~~~field.opcodeBits := by
  unfold setOpcode
  split
  · exact replace_and_not _ 0xff000000 (by split <;> decide)
  · exact replace_and_not _ 0xff000000 (by decide)
  · exact (BitVec.and_assoc _ _ _).trans (by rw [opcodeBits, BitVec.and_self])
  · exact set_and_not _ _ (by decide)
  · exact replace_and_not _ _ (by split <;> decide)
  · exact replace_and_not _ _ (by split <;> decide)
  · rfl

theorem getLsbD_setOpcode (field : Field) (mode : SwitchMode) (v : Int) (instruction : BitVec 32)
    {i : Nat} (hi : i < 32) (hfree : field.opcodeBits.getLsbD i = false) :
    (field.setOpcode mode v instruction).getLsbD i = instruction.getLsbD i := by
  have hbit := congrArg (·.getLsbD i) (field.setOpcode_and_not mode v instruction)
  simpa only [BitVec.getLsbD_and, BitVec.getLsbD_not, hi, hfree, decide_true, Bool.not_false,
    Bool.and_true] using hbit

/-- The bits that are stored inverted are turned back, and cutting the field comes to the same
before and after. -/
theorem toggle_toggle (field : Field) (bits : BitVec 32) :
    field.toggle (field.toggle bits &&& lowOnes field.width) = bits &&& lowOnes field.width := by
  cases field
  case thmBranch =>
    have hwidth : thmBranch.width = 24 := rfl
    have hsign : ∀ word : BitVec 32, (word &&& lowOnes 24).getLsbD 23 = word.getLsbD 23 := by
      intro word
      simp [getLsbD_lowOnes]
    rw [hwidth]
    unfold toggle
    by_cases h : bits.getLsbD 23
    · simp only [if_pos h]
      rw [if_pos (by rw [hsign, h])]
    · have hflipped : (bits ^^^ 0x600000).getLsbD 23 = bits.getLsbD 23 := by simp
      simp only [if_neg h]
      rw [if_neg (by rw [hsign, hflipped]; exact h)]
      have hinside : (0x600000 : BitVec 32) &&& lowOnes 24 = 0x600000 := by decide
      apply BitVec.eq_of_getLsbD_eq
      intro i hi
      have hbit := congrArg (·.getLsbD i) hinside
      simp only [BitVec.getLsbD_xor, BitVec.getLsbD_and] at hbit ⊢
      revert hbit
      cases bits.getLsbD i <;> cases (0x600000 : BitVec 32).getLsbD i <;>
        cases (lowOnes 24).getLsbD i <;> decide
  all_goals rfl

/-- The number that a field of an instruction holds. -/
def contents (field : Field) (instruction : BitVec 32) : Int :=
  let bits : Int := (field.toggle (field.layout.get instruction)).toNat
  if field.isSigned then bits.bmod (Check.span field.width) else bits

theorem extract_eq (field : Field) (instruction : BitVec 32) :
    field.extract instruction =
      field.withOpcode instruction (field.contents instruction * Check.span field.readShift) := rfl

/-- The contents of a field do not depend on anything outside of its cell. -/
theorem contents_and_lowOnes (field : Field) (instruction : BitVec 32) :
    field.contents (instruction &&& lowOnes (8 * field.cell.size)) =
      field.contents instruction := by
  rw [contents, contents, field.layout_wellFormed.get_inside]

theorem toNat_ofInt_and_lowOnes (x : Int) {width : Nat} (h : width ≤ 32) :
    ((BitVec.ofInt 32 x &&& lowOnes width).toNat : Int) = x % Check.span width := by
  have hdvd : ((2 ^ width : Nat) : Int) ∣ ((2 ^ 32 : Nat) : Int) :=
    Int.natCast_dvd_natCast.mpr (Nat.pow_dvd_pow 2 h)
  have hpos : (0 : Int) ≤ x % ((2 ^ 32 : Nat) : Int) := Int.emod_nonneg _ (by decide)
  rw [toNat_and_lowOnes _ h, BitVec.toNat_ofInt, span_eq, Int.natCast_mod,
    Int.toNat_of_nonneg hpos, Int.emod_emod_of_dvd _ hdvd]

/-- A field that was written holds the packed value, cut to its width. -/
theorem contents_insert (field : Field) (mode : SwitchMode) (v : Int) (instruction : BitVec 32) :
    field.contents (field.insert mode v instruction) =
      if field.isSigned then (field.pack v).bmod (Check.span field.width)
      else field.pack v % Check.span field.width := by
  have hopcode : field.layout.get (field.insert mode v instruction) =
      field.layout.get
        (field.layout.put (field.toggle (BitVec.ofInt 32 (field.pack v))) instruction) :=
    field.layout_wellFormed.get_congr fun slice hslice i hi hcovers =>
      field.getLsbD_setOpcode _ _ _
        (Nat.lt_of_lt_of_le hi (Layout.WellFormed.size_le field.cell))
        (field.opcodeBits_of_covers slice hslice i hi hcovers)
  have hbits : ((field.toggle (field.layout.get (field.insert mode v instruction))).toNat : Int) =
      field.pack v % Check.span field.width := by
    rw [hopcode, field.layout_wellFormed.get_put]
    have hcut : field.toggle (field.toggle (BitVec.ofInt 32 (field.pack v)) &&&
        lowOnes field.layout.width) = BitVec.ofInt 32 (field.pack v) &&& lowOnes field.width :=
      field.toggle_toggle _
    rw [hcut, toNat_ofInt_and_lowOnes _ field.width_le]
  rw [contents, hbits, Int.emod_bmod]

theorem contents_bounds_of_signed {field : Field} (h : field.isSigned) (instruction : BitVec 32) :
    -Check.span (field.width - 1) ≤ field.contents instruction ∧
      field.contents instruction < Check.span (field.width - 1) := by
  have hspan : Check.span field.width = 2 * Check.span (field.width - 1) := by
    cases field <;> decide
  have hpos : 0 < Check.span field.width := by rw [span_eq]; exact Nat.two_pow_pos _
  rw [contents, if_pos h]
  refine ⟨?_, ?_⟩
  · have := Int.le_bmod (x := (field.toggle (field.layout.get instruction)).toNat) hpos
    omega
  · have := Int.bmod_lt (x := (field.toggle (field.layout.get instruction)).toNat) hpos
    omega

theorem contents_bounds_of_unsigned {field : Field} (h : field.isSigned = false)
    (instruction : BitVec 32) :
    0 ≤ field.contents instruction ∧ field.contents instruction < Check.span field.width := by
  have htoggle : field.toggle (field.layout.get instruction) = field.layout.get instruction := by
    cases field <;> first | rfl | cases h
  have hcut : field.layout.get instruction &&& lowOnes field.width =
      field.layout.get instruction := field.layout_wellFormed.get_and_lowOnes instruction
  have hlt : (field.layout.get instruction).toNat < Check.span field.width := by
    rw [← hcut, toNat_and_lowOnes _ field.width_le, span_eq]
    exact Nat.mod_lt _ (Nat.two_pow_pos _)
  rw [contents, if_neg (by simp [h]), htoggle]
  omega

/-! ## What the opcode adds -/

/-- Bits that were replaced are the new ones. -/
theorem replace_and (instruction mask opcode chosen : BitVec 32)
    (h : ~~~mask &&& chosen = 0#32) :
    ((instruction &&& ~~~mask) ||| opcode) &&& chosen = opcode &&& chosen := by
  rw [BitVec.and_or_distrib_right, BitVec.and_assoc, h, BitVec.and_zero, BitVec.zero_or]

/-- A replaced top byte is the new one. -/
theorem replace_ushiftRight (instruction opcode : BitVec 32) {n : Nat} (h : 24 ≤ n) :
    ((instruction &&& 0x00ffffff) ||| opcode) >>> n = opcode >>> n := by
  have hlow : (0x00ffffff : BitVec 32) >>> n = 0#32 := by
    apply BitVec.eq_of_toNat_eq
    rw [BitVec.toNat_ushiftRight, Nat.shiftRight_eq_div_pow]
    exact Nat.div_eq_of_lt
      (Nat.lt_of_lt_of_le (by decide) (Nat.pow_le_pow_right Nat.two_pos h))
  rw [BitVec.ushiftRight_or_distrib, BitVec.ushiftRight_and_distrib, hlow, BitVec.and_zero,
    BitVec.zero_or]

/-- The opcode of an ARM branch is none of its field. -/
theorem put_ushiftRight (field instruction : BitVec 32) {n : Nat} (h : 24 ≤ n) :
    armBranch.layout.put field instruction >>> n = instruction >>> n := by
  apply BitVec.eq_of_getLsbD_eq
  intro i _
  rw [BitVec.getLsbD_ushiftRight, BitVec.getLsbD_ushiftRight]
  by_cases hi : n + i < 32
  · refine Layout.getLsbD_put_of_not_covers _ _ _ hi ?_
    simp only [layout, List.mem_singleton, forall_eq, Slice.Covers]
    omega
  · rw [BitVec.getLsbD_of_ge _ _ (Nat.not_lt.mp hi), BitVec.getLsbD_of_ge _ _ (Nat.not_lt.mp hi)]

/-- BLX is written only for a call that changes the instruction set. -/
theorem exchange_of_written {mode : SwitchMode} {v : Int} {instruction : BitVec 32}
    (hplain : mode = .keep → instruction >>> 28 ≠ 0xf)
    (hwritten : armBranch.insert mode v instruction >>> 28 = 0xf) : mode = .exchange := by
  cases mode with
  | keep => exact absurd ((put_ushiftRight _ _ (by decide)).symm.trans hwritten) (hplain rfl)
  | exchange => rfl
  | link => exact absurd ((replace_ushiftRight _ _ (by decide)).symm.trans hwritten) (by decide)

/-- BLX keeps bit one of the value in its opcode. -/
theorem getLsbD_insert_exchange (v : Int) (instruction : BitVec 32) :
    (armBranch.insert .exchange v instruction).getLsbD 24 = decide (v / 2 % 2 = 1) := by
  have hclear : (0x00ffffff : BitVec 32).getLsbD 24 = false := by decide
  simp only [insert, setOpcode, BitVec.getLsbD_or, BitVec.getLsbD_and, hclear, Bool.and_false,
    Bool.false_or]
  by_cases hodd : v / 2 % 2 = 1
  · rw [if_pos hodd, decide_eq_true hodd]
    decide
  · rw [if_neg hodd, decide_eq_false hodd]
    decide

theorem withOpcode_insert_armBranch {mode : SwitchMode} {v : Int} {instruction : BitVec 32}
    (hplain : mode = .keep → instruction >>> 28 ≠ 0xf) (addend : Int) :
    armBranch.withOpcode (armBranch.insert mode v instruction) addend =
      if armBranch.insert mode v instruction >>> 28 = 0xf then addend + v / 2 % 2 * 2
      else addend := by
  unfold withOpcode
  by_cases hwritten : armBranch.insert mode v instruction >>> 28 = 0xf
  · obtain rfl := exchange_of_written hplain hwritten
    simp only [hwritten, getLsbD_insert_exchange, decide_eq_true_eq, true_and, if_true]
    split <;> omega
  · simp only [hwritten, false_and, if_false]

/-- An ADR subtracts if the value was negative. -/
theorem insert_thmAluPrel_and (mode : SwitchMode) (v : Int) (instruction : BitVec 32) :
    thmAluPrel.insert mode v instruction &&& 0x00a00000 = if v < 0 then 0x00a00000 else 0 := by
  have hreplace := replace_and
    (thmAluPrel.layout.put (thmAluPrel.toggle (BitVec.ofInt 32 (thmAluPrel.pack v))) instruction)
    0x01f00000 (if v < 0 then 0x00a00000 else 0) 0x00a00000 (by decide)
  rw [insert, setOpcode, hreplace]
  split <;> decide

/-- A literal load goes up unless the value was negative. -/
theorem insert_thmPc12_and (mode : SwitchMode) (v : Int) (instruction : BitVec 32) :
    thmPc12.insert mode v instruction &&& 0x00800000 = if v < 0 then 0 else 0x00800000 := by
  have hreplace := replace_and
    (thmPc12.layout.put (thmPc12.toggle (BitVec.ofInt 32 (thmPc12.pack v))) instruction)
    0x00800000 (if v < 0 then 0 else 0x00800000) 0x00800000 (by decide)
  rw [insert, setOpcode, hreplace]
  split <;> decide

/-- The sign of a magnitude comes from the opcode. -/
theorem withOpcode_insert_magnitude {field : Field} (hmagnitude : field.isMagnitude)
    (mode : SwitchMode) (v : Int) (instruction : BitVec 32) (addend : Int) :
    field.withOpcode (field.insert mode v instruction) addend =
      if v < 0 then -addend else addend := by
  cases field
  case thmAluPrel =>
    rw [withOpcode, insert_thmAluPrel_and]
    by_cases hneg : v < 0
    · rw [if_pos hneg, if_pos hneg, if_neg (by decide)]
    · rw [if_neg hneg, if_neg hneg, if_pos rfl]
  case thmPc12 =>
    rw [withOpcode, insert_thmPc12_and]
    by_cases hneg : v < 0
    · rw [if_pos hneg, if_pos hneg, if_pos rfl]
    · rw [if_neg hneg, if_neg hneg, if_neg (by decide)]
  all_goals cases hmagnitude

/-- The other fields get nothing from the opcode. -/
theorem withOpcode_eq_self {field : Field} (hbranch : field ≠ armBranch)
    (hmagnitude : field.isMagnitude = false) (instruction : BitVec 32) (addend : Int) :
    field.withOpcode instruction addend = addend := by
  cases field <;> first | rfl | exact absurd rfl hbranch | cases hmagnitude

/-- All that an opcode can do to an addend. -/
theorem withOpcode_cases (field : Field) (instruction : BitVec 32) (addend : Int) :
    field.withOpcode instruction addend = addend ∨
      field = armBranch ∧ field.withOpcode instruction addend = addend + 2 ∨
      field.isMagnitude ∧ field.withOpcode instruction addend = -addend := by
  unfold withOpcode
  split
  case h_1 => split <;> simp
  case h_2 => split <;> simp [isMagnitude]
  case h_3 => split <;> simp [isMagnitude]
  case h_4 => exact .inl rfl

theorem and_lowOnes_word (instruction : BitVec 32) :
    instruction &&& lowOnes (8 * 4) = instruction := by
  have hall : lowOnes (8 * 4) = BitVec.allOnes 32 := by decide
  rw [hall, BitVec.and_allOnes]

/-- A field whose opcode adds something stands in a whole word. -/
theorem size_or_no_opcode (field : Field) :
    field.cell.size = 4 ∨ field ≠ armBranch ∧ field.isMagnitude = false := by
  cases field <;> decide

/-- Cutting an instruction to the size of its cell does not change what it is read as. -/
theorem extract_and_lowOnes (field : Field) (instruction : BitVec 32) :
    field.extract (instruction &&& lowOnes (8 * field.cell.size)) = field.extract instruction := by
  rw [extract_eq, extract_eq, contents_and_lowOnes]
  rcases field.size_or_no_opcode with hsize | ⟨hbranch, hmagnitude⟩
  · rw [hsize, and_lowOnes_word]
  · rw [withOpcode_eq_self hbranch hmagnitude, withOpcode_eq_self hbranch hmagnitude]

/-! ## Values and their checks -/

/-- Whether a field is read back as a signed number of its own width, whatever it was written
with. -/
def isCut : Field → Bool
  | half | byte | movw | movt | thmMovw | thmMovt => true
  | _ => false

/-- A value without the low bits that a field leaves out. -/
def cleared (field : Field) (v : Int) : Int := v / 2 ^ field.shift * 2 ^ field.shift

/-- The addend that a field holds after a value was written into it. -/
def readBack (field : Field) (written : BitVec 32) (v : Int) : Int :=
  if field.isCut then (v / 2 ^ field.shift).bmod (2 ^ field.width)
  else if field = armBranch ∧ written >>> 28 = 0xf then v / 2 * 2
  else field.cleared v

theorem readBack_and_lowOnes (field : Field) (written : BitVec 32) (v : Int) :
    field.readBack (written &&& lowOnes (8 * field.cell.size)) v = field.readBack written v := by
  rcases field.size_or_no_opcode with hsize | ⟨hbranch, -⟩
  · rw [hsize, and_lowOnes_word]
  · simp only [readBack, hbranch, false_and, if_false]

/-- The checks that tell what a field can hold. -/
def Suits (field : Field) : Check → Prop
  | .unchecked => field = word ∨ field.isCut
  | .signed bits => bits = field.width ∧ field.isSigned ∧ ¬field.isCut
  | .unsigned bits => bits = field.width ∧ ¬field.isSigned
  | .either bits => bits = field.width ∧ field.isCut ∧ field.shift = 0

instance (field : Field) : (check : Check) → Decidable (field.Suits check)
  | .unchecked => inferInstanceAs (Decidable (_ ∨ _))
  | .signed _ | .unsigned _ | .either _ => inferInstanceAs (Decidable (_ ∧ _))

/-- An addend stands for a value that has lost the bits the field leaves out. Under the lenient
check the contents may as well be unsigned. -/
def Represents (field : Field) (check : Check) (addend v : Int) : Prop :=
  addend = field.cleared v ∨
    check = .either field.width ∧ addend % 2 ^ field.width = field.cleared v

theorem pack_eq {field : Field} (hmagnitude : field.isMagnitude = false) (v : Int) :
    field.pack v = v / 2 ^ field.shift := by
  rw [pack, hmagnitude, Int.shiftRight_eq_div_pow, Int.natCast_pow]
  rfl

theorem shift_of_isMagnitude {field : Field} (hmagnitude : field.isMagnitude) :
    field.shift = 0 := by
  cases field <;> first | rfl | cases hmagnitude

theorem pack_magnitude {field : Field} (hmagnitude : field.isMagnitude) (v : Int) :
    field.pack v = v.natAbs := by
  rw [pack, if_pos hmagnitude, shift_of_isMagnitude hmagnitude, Int.shiftRight_zero]

theorem cleared_magnitude {field : Field} (hmagnitude : field.isMagnitude) (v : Int) :
    field.cleared v = v := by
  rw [cleared, shift_of_isMagnitude hmagnitude, Int.pow_zero, Int.ediv_one, Int.mul_one]

theorem readShift_eq {field : Field} (hcut : ¬field.isCut) : field.readShift = field.shift := by
  cases field <;> first | rfl | exact absurd rfl hcut

theorem isSigned_of_isCut {field : Field} (hcut : field.isCut) :
    field.isSigned ∧ field.isMagnitude = false ∧ field.readShift = 0 ∧ field ≠ armBranch := by
  cases field <;> first | decide | cases hcut

/-- The contents stand for all of a value that its check accepts. -/
theorem contents_insert_of_accepts {field : Field} {check : Check} {v : Int}
    (hsuits : field.Suits check) (haccepts : check.Accepts (field.pack v)) (hcut : ¬field.isCut)
    (hword : check = .unchecked → -2 ^ 31 ≤ v ∧ v < 2 ^ 31) (mode : SwitchMode)
    (instruction : BitVec 32) :
    field.contents (field.insert mode v instruction) = field.pack v := by
  have hspan : (Check.span field.width : Int) = 2 * Check.span (field.width - 1) := by
    cases field <;> decide
  have hpos : 0 < Check.span field.width := by rw [span_eq]; exact Nat.two_pow_pos _
  have hsigned (hlow : -Check.span (field.width - 1) ≤ field.pack v)
      (hhigh : field.pack v < Check.span (field.width - 1)) :
      (field.pack v).bmod (Check.span field.width) = field.pack v := by
    rw [Int.bmod_eq_iff hpos]
    refine ⟨by omega, by omega, ?_⟩
    rw [Int.sub_self]
    exact Int.dvd_zero _
  rw [contents_insert]
  cases check with
  | unchecked =>
    obtain rfl : field = word := hsuits.resolve_right hcut
    have hpack : word.pack v = v := Int.shiftRight_zero v
    have hrange : (Check.span (word.width - 1) : Int) = 2 ^ 31 := by decide
    obtain ⟨hlow, hhigh⟩ := hword rfl
    exact hsigned (by rw [hpack, hrange]; exact hlow) (by rw [hpack, hrange]; exact hhigh)
  | signed bits =>
    obtain ⟨rfl, hkind, -⟩ := hsuits
    rw [if_pos hkind]
    exact hsigned haccepts.1 haccepts.2
  | unsigned bits =>
    obtain ⟨rfl, hkind⟩ := hsuits
    rw [if_neg hkind]
    exact Int.emod_eq_of_lt haccepts.1 haccepts.2
  | either bits => exact absurd hsuits.2.1 hcut

/-- The fields that cut a value are read back as the numbers of their width. -/
theorem extract_insert_of_isCut {field : Field} (hcut : field.isCut) (mode : SwitchMode) (v : Int)
    (instruction : BitVec 32) :
    field.extract (field.insert mode v instruction) =
      (v / 2 ^ field.shift).bmod (2 ^ field.width) := by
  obtain ⟨hsigned, hmagnitude, hshift, hbranch⟩ := isSigned_of_isCut hcut
  rw [extract_eq, withOpcode_eq_self hbranch hmagnitude, contents_insert, if_pos hsigned, hshift,
    pack_eq hmagnitude, span_eq]
  exact Int.mul_one _

/-- What a field is read back as after a value that its check accepts was written into it. -/
theorem extract_insert {field : Field} {check : Check} {mode : SwitchMode} {v : Int}
    {instruction : BitVec 32} (hsuits : field.Suits check)
    (haccepts : check.Accepts (field.pack v))
    (hword : check = .unchecked → -2 ^ 31 ≤ v ∧ v < 2 ^ 31)
    (hplain : field = armBranch → mode = .keep → instruction >>> 28 ≠ 0xf) :
    field.extract (field.insert mode v instruction) =
      field.readBack (field.insert mode v instruction) v := by
  unfold readBack
  by_cases hcut : field.isCut
  · rw [if_pos hcut, extract_insert_of_isCut hcut]
  rw [if_neg hcut, extract_eq, contents_insert_of_accepts hsuits haccepts hcut hword,
    readShift_eq hcut, natCast_span]
  by_cases hbranch : field = armBranch
  · subst hbranch
    have hpack : armBranch.pack v = v / 4 := pack_eq rfl v
    have hcleared : armBranch.cleared v = v / 4 * 4 := rfl
    rw [withOpcode_insert_armBranch (hplain rfl), hpack, hcleared]
    simp only [true_and, shift]
    split <;> omega
  rw [if_neg fun h => hbranch h.1]
  by_cases hmagnitude : field.isMagnitude
  · rw [withOpcode_insert_magnitude hmagnitude, pack_magnitude hmagnitude,
      cleared_magnitude hmagnitude, shift_of_isMagnitude hmagnitude]
    split <;> omega
  · have hplus : field.isMagnitude = false := by simpa using hmagnitude
    rw [withOpcode_eq_self hbranch hplus, pack_eq hplus]
    rfl

/-! ## What a check accepts -/

theorem isMagnitude_of_isSigned {field : Field} (h : field.isSigned) :
    field.isMagnitude = false := by
  cases field <;> first | rfl | cases h

theorem two_pow_ne_zero (n : Nat) : (2 : Int) ^ n ≠ 0 := Int.ne_of_gt (Int.pow_pos (by decide))

/-- The contents that an uncut value is read back from. A BLX that adds to the contents is never
read as a cleared value. -/
theorem contents_of_extract_eq {field : Field} {instruction : BitVec 32} {v : Int}
    (hmagnitude : field.isMagnitude = false) (hcut : ¬field.isCut)
    (h : field.extract instruction = field.cleared v) :
    field.contents instruction = field.pack v := by
  rw [extract_eq, readShift_eq hcut, natCast_span] at h
  rw [pack_eq hmagnitude]
  rcases field.withOpcode_cases instruction (field.contents instruction * 2 ^ field.shift) with
    hsame | ⟨rfl, hmore⟩ | ⟨hsign, -⟩
  · exact Int.eq_of_mul_eq_mul_right (two_pow_ne_zero _) (hsame.symm.trans h)
  · rw [hmore] at h
    simp only [cleared, shift] at h ⊢
    omega
  · rw [hmagnitude] at hsign
    cases hsign

/-- A value is accepted if some contents of the field stand for it. -/
theorem accepts_of_represents {field : Field} {check : Check} (hsuits : field.Suits check)
    {instruction : BitVec 32} {v : Int}
    (h : field.Represents check (field.extract instruction) v) :
    check.Accepts (field.pack v) := by
  cases check with
  | unchecked => trivial
  | signed bits =>
    obtain ⟨rfl, hsigned, hcut⟩ := hsuits
    have hexact := h.resolve_right fun heither => by cases heither.1
    rw [← contents_of_extract_eq (isMagnitude_of_isSigned hsigned) hcut hexact]
    exact contents_bounds_of_signed hsigned instruction
  | unsigned bits =>
    obtain ⟨rfl, hunsigned⟩ := hsuits
    have hcut : ¬field.isCut := fun hcut => hunsigned (isSigned_of_isCut hcut).1
    have hexact := h.resolve_right fun heither => by cases heither.1
    have hbounds := contents_bounds_of_unsigned (by simpa using hunsigned) instruction
    by_cases hmagnitude : field.isMagnitude
    · have hbranch : field ≠ armBranch := by rintro rfl; cases hmagnitude
      have hsign := field.withOpcode_cases instruction (field.contents instruction * 2 ^ 0)
      rw [extract_eq, readShift_eq hcut, natCast_span, cleared_magnitude hmagnitude,
        shift_of_isMagnitude hmagnitude] at hexact
      rw [pack_magnitude hmagnitude]
      rcases hsign with hsame | ⟨hbranch', -⟩ | ⟨-, hneg⟩
      · constructor <;> omega
      · exact absurd hbranch' hbranch
      · constructor <;> omega
    · rw [← contents_of_extract_eq (by simpa using hmagnitude) hcut hexact]
      exact hbounds
  | either bits =>
    obtain ⟨rfl, hcut, hshift⟩ := hsuits
    obtain ⟨hsigned, hmagnitude, hread, hbranch⟩ := isSigned_of_isCut hcut
    have hbounds := contents_bounds_of_signed hsigned instruction
    have hspan : (Check.span field.width : Int) = 2 * Check.span (field.width - 1) := by
      cases field <;> decide
    have hextract : field.extract instruction = field.contents instruction := by
      rw [extract_eq, withOpcode_eq_self hbranch hmagnitude, hread]
      exact Int.mul_one _
    have hcleared : field.cleared v = field.pack v := by
      rw [pack_eq hmagnitude, cleared, hshift]
      exact Int.mul_one _
    rw [Represents, hextract, hcleared, ← natCast_span] at h
    rcases h with hexact | ⟨-, hmod⟩
    · rw [← hexact]
      exact ⟨hbounds.1, by omega⟩
    · rw [← hmod]
      have hpos : (0 : Int) < Check.span field.width := by omega
      have hlow := Int.emod_nonneg (field.contents instruction) (Int.ne_of_gt hpos)
      exact ⟨by omega, Int.emod_lt_of_pos _ hpos⟩

theorem cleared_cleared (field : Field) (v : Int) :
    field.cleared (field.cleared v) = field.cleared v := by
  rw [cleared, cleared, Int.mul_ediv_cancel _ (two_pow_ne_zero _)]

theorem pack_cleared (field : Field) (v : Int) : field.pack (field.cleared v) = field.pack v := by
  by_cases hmagnitude : field.isMagnitude
  · rw [cleared_magnitude hmagnitude]
  · have hplus : field.isMagnitude = false := by simpa using hmagnitude
    rw [pack_eq hplus, pack_eq hplus, cleared, Int.mul_ediv_cancel _ (two_pow_ne_zero _)]

theorem readBack_cleared {field : Field} (hcut : ¬field.isCut) (written : BitVec 32) (v : Int) :
    field.readBack written (field.cleared v) = field.cleared v := by
  rw [readBack, if_neg hcut]
  split
  case isTrue h =>
    obtain ⟨rfl, -⟩ := h
    simp only [cleared, shift]
    omega
  case isFalse => exact field.cleared_cleared v

/-- A value that a check accepts has contents that stand for it. -/
theorem exists_represents {field : Field} {check : Check} {mode : SwitchMode} {v : Int}
    {instruction : BitVec 32} (hsuits : field.Suits check) (hchecked : check ≠ .unchecked)
    (haccepts : check.Accepts (field.pack v))
    (hplain : field = armBranch → mode = .keep → instruction >>> 28 ≠ 0xf) :
    ∃ written,
      field.Represents check (field.extract (field.insert mode written instruction)) v := by
  by_cases hcut : field.isCut
  · refine ⟨v, ?_⟩
    obtain ⟨hsigned, hmagnitude, -, -⟩ := isSigned_of_isCut hcut
    cases check with
    | unchecked => exact absurd rfl hchecked
    | signed bits => exact absurd hcut hsuits.2.2
    | unsigned bits => exact absurd hsigned hsuits.2
    | either bits =>
      obtain ⟨rfl, -, hshift⟩ := hsuits
      have hspan : (Check.span field.width : Int) = 2 * Check.span (field.width - 1) := by
        cases field <;> decide
      have hpos : 0 < Check.span field.width := by rw [span_eq]; exact Nat.two_pow_pos _
      obtain ⟨hlow, hhigh⟩ := haccepts
      rw [pack_eq hmagnitude, hshift, Int.pow_zero, Int.ediv_one] at hlow hhigh
      rw [extract_insert_of_isCut hcut, Represents, cleared, hshift, Int.pow_zero, Int.ediv_one,
        Int.mul_one, ← span_eq, ← natCast_span]
      by_cases hsmall : v < Check.span (field.width - 1)
      · left
        rw [Int.bmod_eq_iff hpos]
        exact ⟨by omega, by omega, by rw [Int.sub_self]; exact Int.dvd_zero _⟩
      · right
        rw [Int.bmod_emod]
        exact ⟨rfl, Int.emod_eq_of_lt (by omega) hhigh⟩
  · refine ⟨field.cleared v, .inl ?_⟩
    rw [extract_insert hsuits (by rwa [pack_cleared]) (fun h => absurd h hchecked) hplain,
      readBack_cleared hcut]

/-- The addend that a field holds is a 32-bit number. -/
theorem extract_bounds (field : Field) (instruction : BitVec 32) :
    -2 ^ 31 ≤ field.extract instruction ∧ field.extract instruction < 2 ^ 31 := by
  rw [extract_eq]
  cases hsigned : field.isSigned
  · have hbounds := contents_bounds_of_unsigned hsigned instruction
    cases field <;> cases hsigned <;>
      simp only [withOpcode, readShift, shift, natCast_span, width, Layout.width, layout,
        List.foldr] at hbounds ⊢ <;>
      omega
  · have hbounds := contents_bounds_of_signed hsigned instruction
    cases field <;> cases hsigned <;>
      simp only [withOpcode, readShift, shift, natCast_span, width, Layout.width, layout,
        List.foldr] at hbounds ⊢ <;>
      omega

end Field

/-! ## Relocation types -/

/-- R_ARM_PC24 and R_ARM_JUMP24. -/
def jumpTypes : List UInt32 := [1, 29]

/-- A rule of a type whose check suits its field, and which changes the instruction set only of
the branches. -/
def Rule.Coherent (rule : Rule) (type : UInt32) : Prop :=
  match rule.encoding with
  | .field field check =>
    field.Suits check ∧ (rule.switch = .armCall → field = .armBranch) ∧
      (rule.switch = .thumbCall → field = .thmBranch) ∧
      (field = .armBranch → rule.switch = .armCall ∨ rule.switch = .armJump ∧ type ∈ jumpTypes)
  | .group .. => True

instance (type : UInt32) : (rule : Rule) → Decidable (rule.Coherent type)
  | ⟨_, .field _ _, _⟩ => inferInstanceAs (Decidable (_ ∧ _))
  | ⟨_, .group .., _⟩ => inferInstanceAs (Decidable True)

/-- Whether the rule of a row is a coherent one, if it has a rule. -/
def isCoherent (kind : Kind Rule) : Bool :=
  match kind.treatment with
  | .patch rule => rule.Coherent kind.number
  | _ => true

theorem isCoherent_of_mem : ∀ kind ∈ kinds, isCoherent kind := by
  decide

section Patch

variable {type : UInt32} {formula : Formula} {field : Field} {check : Check} {switch : Switch}
  {site : Site} {inputs : Inputs} {mode : SwitchMode} {instruction : BitVec 32}

theorem coherent_of_rule? {rule : Rule} (h : Kind.rule? kinds type = some rule) :
    rule.Coherent type := by
  obtain ⟨kind, hmem, htype, hrule⟩ := Kind.exists_mem_of_rule? h
  have hcoherent := isCoherent_of_mem kind hmem
  simpa only [isCoherent, hrule, htype, decide_eq_true_eq] using hcoherent

/-- Members of groups do not change the instruction set. -/
def isPlainMember (kind : Kind Rule) : Bool :=
  match kind.treatment with
  | .patch ⟨_, .group .., switch⟩ => switch = .none
  | _ => true

theorem isPlainMember_of_mem : ∀ kind ∈ kinds, isPlainMember kind := by
  decide

theorem switch_of_group {rule : Rule} {members : GroupClass} {index : Nat}
    {concluding : Bool} (hrule : Kind.rule? kinds type = some rule)
    (hencoding : rule.encoding = .group members index concluding) : rule.switch = .none := by
  obtain ⟨kind, hmem, -, hpatch⟩ := Kind.exists_mem_of_rule? hrule
  have hplain := isPlainMember_of_mem kind hmem
  obtain ⟨formula, encoding, switch⟩ := rule
  obtain rfl : encoding = _ := hencoding
  simpa [isPlainMember, hpatch] using hplain

theorem patch_eq_of_rule? {rule : Rule} (h : Kind.rule? kinds type = some rule) :
    patch .arm type site inputs = rule.patch (typeName .arm type) site inputs := by
  simp only [patch, Kind.treatmentOf_of_rule? h]

/-- Inside the segment a change of the instruction set can fail for want of a veneer alone. -/
theorem switchMode_cases (name : String)
    (harm : switch = .armCall → ∃ instruction, Cell.word.read site = .ok instruction)
    (hthumb : switch = .thumbCall → ∃ instruction, Cell.thumbPair.read site = .ok instruction) :
    (∃ mode, switchMode switch name site inputs = .ok mode) ∨
      switchMode switch name site inputs =
        .error (.relocation (.needsVeneer name inputs.place)) := by
  cases switch with
  | none => exact .inl ⟨_, rfl⟩
  | armCall =>
    obtain ⟨instruction, hread⟩ := harm rfl
    simp only [switchMode, hread, bind, Except.bind, pure, Except.pure]
    split
    · split
      · exact .inl ⟨_, rfl⟩
      · exact .inr rfl
    · split <;> exact .inl ⟨_, rfl⟩
  | armJump =>
    simp only [switchMode]
    split
    · exact .inr rfl
    · exact .inl ⟨_, rfl⟩
  | thumbCall =>
    obtain ⟨instruction, hread⟩ := hthumb rfl
    simp only [switchMode, hread, bind, Except.bind, pure, Except.pure]
    split
    · exact .inl ⟨_, rfl⟩
    · split <;> exact .inl ⟨_, rfl⟩
  | thumbJump =>
    simp only [switchMode]
    split
    · exact .inr rfl
    · exact .inl ⟨_, rfl⟩

/-- A call that stays what it was is no BLX. -/
theorem plain_of_keep {name : String}
    (hmode : switchMode .armCall name site inputs = .ok .keep)
    (hread : Cell.word.read site = .ok instruction) : instruction >>> 28 ≠ 0xf := by
  simp only [switchMode, hread, bind, Except.bind, pure, Except.pure] at hmode
  split at hmode
  · split at hmode <;> cases hmode
  · split at hmode
    case isTrue => cases hmode
    case isFalse hplain => exact hplain

/-- A formula gives a 32-bit number. -/
theorem eval_bounds (formula : Formula) (inputs : Inputs) :
    -2 ^ 31 ≤ formula.eval inputs ∧ formula.eval inputs < 2 ^ 31 := by
  have hpos : 0 < UInt32.size := by decide
  have hsize : (UInt32.size : Int) = 2 ^ 32 := by decide
  unfold Formula.eval wrapWord
  exact ⟨Int.le_trans (by rw [hsize]; decide) (Int.le_bmod hpos),
    Int.lt_of_lt_of_le (Int.bmod_lt hpos) (by rw [hsize]; decide)⟩

/-- The value of every field but that of a Thumb branch is a 32-bit number. -/
theorem value_bounds (hthumb : field ≠ .thmBranch) :
    -2 ^ 31 ≤ Rule.value ⟨formula, .field field check, switch⟩ mode inputs ∧
      Rule.value ⟨formula, .field field check, switch⟩ mode inputs < 2 ^ 31 := by
  have hvalue : Rule.value ⟨formula, .field field check, switch⟩ mode inputs =
      formula.eval inputs := by
    unfold Rule.value
    split
    case h_1 _ heq => exact absurd (Encoding.field.inj heq).1 hthumb
    case h_2 => rfl
  rw [hvalue]
  exact eval_bounds formula inputs

/-- What a rule for a field does once the instruction set is settled. -/
theorem patch_eq
    (hmode : switchMode switch (typeName .arm type) site inputs = .ok mode)
    (hread : field.cell.read site = .ok instruction)
    (hrule : Kind.rule? kinds type = some ⟨formula, .field field check, switch⟩) :
    let v := Rule.value ⟨formula, .field field check, switch⟩ mode inputs
    patch .arm type site inputs =
      if check.Accepts (field.pack v) then
        .ok (field.cell.write site (field.insert mode v instruction))
      else .error (.relocationOverflow (typeName .arm type) inputs.place v) := by
  intro v
  rw [patch_eq_of_rule? hrule, Rule.patch_eq, hmode]
  simp only [bind, Except.bind, hread, pure, Except.pure]
  rfl

/-- What a cell reads as an addend after an instruction was written into it. -/
theorem storedAddend_write
    (hrule : Kind.rule? kinds type = some ⟨formula, .field field check, switch⟩)
    (hfit : site.offset + field.cell.size ≤ site.bytes.length) (written : BitVec 32) :
    ∃ addend, storedAddend .arm type { site with bytes := field.cell.write site written } =
      .ok addend ∧ addend.toInt = field.extract written := by
  have hread := field.cell.read_write site written hfit
  refine ⟨Int32.ofInt (field.extract written), ?_, ?_⟩
  · simp only [storedAddend, hrule, Rule.storedAddend, hread, bind, Except.bind, pure, Except.pure,
      Field.extract_and_lowOnes]
  · exact Int32.toInt_ofInt_of_le (field.extract_bounds written).1 (field.extract_bounds written).2

/-- An addend in a cell is what some instruction is read as. -/
theorem exists_extract_of_storedAddend {addend : Int32}
    (hrule : Kind.rule? kinds type = some ⟨formula, .field field check, switch⟩)
    (h : storedAddend .arm type site = .ok addend) :
    ∃ instruction, addend.toInt = field.extract instruction := by
  simp only [storedAddend, hrule, Rule.storedAddend, bind, Except.bind] at h
  cases hread : field.cell.read site with
  | error e =>
    rw [hread] at h
    cases h
  | ok instruction =>
    rw [hread] at h
    cases h
    exact ⟨instruction, Int32.toInt_ofInt_of_le (field.extract_bounds instruction).1
      (field.extract_bounds instruction).2⟩

/-- A value is rejected exactly if no contents of the cell stand for it. -/
theorem not_accepts_iff
    (hrule : Kind.rule? kinds type = some ⟨formula, .field field check, switch⟩)
    (hsuits : field.Suits check) (hfit : site.offset + field.cell.size ≤ site.bytes.length)
    (hplain : field = .armBranch → mode = .keep → instruction >>> 28 ≠ 0xf) (v : Int) :
    ¬check.Accepts (field.pack v) ↔
      check ≠ .unchecked ∧ ∀ (bytes : Bytes) (addend : Int32),
        bytes.length = site.bytes.length →
        storedAddend .arm type { site with bytes := bytes } = .ok addend →
        ¬field.Represents check addend.toInt v := by
  constructor
  · intro hrejected
    refine ⟨by rintro rfl; exact hrejected trivial, fun bytes addend _ hstored hstands => ?_⟩
    obtain ⟨other, hother⟩ := exists_extract_of_storedAddend hrule hstored
    rw [hother] at hstands
    exact hrejected (Field.accepts_of_represents hsuits hstands)
  · rintro ⟨hchecked, hnone⟩ haccepts
    obtain ⟨written, hstands⟩ := Field.exists_represents hsuits hchecked haccepts hplain
    obtain ⟨addend, hstored, haddend⟩ :=
      storedAddend_write hrule hfit (field.insert mode written instruction)
    rw [← haddend] at hstands
    exact hnone _ addend (field.cell.length_write site _) hstored hstands

/-- Inside the segment a relocation that needs no veneer settles on an instruction set, and BLX
stays BLX only if the call is exchanged. -/
theorem exists_mode
    (hrule : Kind.rule? kinds type = some ⟨formula, .field field check, switch⟩)
    (hread : field.cell.read site = .ok instruction)
    (hveneer : patch .arm type site inputs ≠
      .error (.relocation (.needsVeneer (typeName .arm type) inputs.place)))
    (hbranch : type ∈ jumpTypes → instruction >>> 28 ≠ 0xf) :
    ∃ mode, switchMode switch (typeName .arm type) site inputs = .ok mode ∧
      (field = .armBranch → mode = .keep → instruction >>> 28 ≠ 0xf) := by
  obtain ⟨-, harm, hthumb, hswitch⟩ := coherent_of_rule? hrule
  have hword : switch = .armCall → Cell.word.read site = .ok instruction := by
    intro h
    rw [harm h] at hread
    exact hread
  have hpair : switch = .thumbCall → Cell.thumbPair.read site = .ok instruction := by
    intro h
    rw [hthumb h] at hread
    exact hread
  rcases switchMode_cases (typeName .arm type) (fun h => ⟨_, hword h⟩) fun h => ⟨_, hpair h⟩ with
    ⟨mode, hmode⟩ | herror
  · refine ⟨mode, hmode, ?_⟩
    rintro hfield rfl
    rcases hswitch hfield with rfl | ⟨-, hjump⟩
    · exact plain_of_keep hmode (hword rfl)
    · exact hbranch hjump
  · refine absurd ?_ hveneer
    rw [patch_eq_of_rule? hrule, Rule.patch_eq, herror]
    rfl

end Patch

/-- A relocation overflows exactly if no contents of its field stand for the value, and otherwise
it stores what is read back as the value, as far as the field can hold it. -/
theorem patch_field_exact (type : UInt32) (formula : Formula) (field : Field) (check : Check)
    (switch : Switch) (site : Site) (inputs : Inputs)
    (hrule : Kind.rule? kinds type = some ⟨formula, .field field check, switch⟩)
    (hfit : site.offset + field.cell.size ≤ site.bytes.length)
    (hveneer : patch .arm type site inputs ≠
      .error (.relocation (.needsVeneer (typeName .arm type) inputs.place)))
    (hbranch : type ∈ jumpTypes → ∀ instruction, field.cell.read site = .ok instruction →
      instruction >>> 28 ≠ 0xf) :
    ∃ mode, switchMode switch (typeName .arm type) site inputs = .ok mode ∧
      let v := Rule.value ⟨formula, .field field check, switch⟩ mode inputs
      let overflow : LoadError := .relocationOverflow (typeName .arm type) inputs.place v
      (patch .arm type site inputs = .error overflow ↔
        check ≠ .unchecked ∧ ∀ (bytes : Bytes) (addend : Int32),
          bytes.length = site.bytes.length →
          storedAddend .arm type { site with bytes := bytes } = .ok addend →
          ¬field.Represents check addend.toInt v) ∧
      (patch .arm type site inputs ≠ .error overflow →
        ∃ (bytes : Bytes) (written : BitVec 32) (addend : Int32),
          patch .arm type site inputs = .ok bytes ∧
          field.cell.read { site with bytes := bytes } = .ok written ∧
          storedAddend .arm type { site with bytes := bytes } = .ok addend ∧
          addend.toInt = field.readBack written v) := by
  obtain ⟨instruction, hread⟩ := field.cell.exists_read site hfit
  have hsuits : field.Suits check := (coherent_of_rule? hrule).1
  obtain ⟨mode, hmode, hplain⟩ :=
    exists_mode hrule hread hveneer fun h => hbranch h instruction hread
  refine ⟨mode, hmode, ?_⟩
  intro v overflow
  have hpatch : patch .arm type site inputs = if check.Accepts (field.pack v) then
      .ok (field.cell.write site (field.insert mode v instruction)) else .error overflow :=
    patch_eq hmode hread hrule
  have hoverflow : patch .arm type site inputs = .error overflow ↔
      ¬check.Accepts (field.pack v) := by
    rw [hpatch]
    split
    case isTrue h => simp [h]
    case isFalse h => simp [h]
  rw [← not_accepts_iff hrule hsuits hfit hplain]
  refine ⟨hoverflow, fun haccepted => ?_⟩
  have haccepts : check.Accepts (field.pack v) := not_not.mp (mt hoverflow.mpr haccepted)
  have hbounds (hunchecked : check = .unchecked) : -2 ^ 31 ≤ v ∧ v < 2 ^ 31 := by
    refine value_bounds ?_
    rintro rfl
    rw [hunchecked] at hsuits
    revert hsuits
    decide
  obtain ⟨addend, hstored, haddend⟩ :=
    storedAddend_write hrule hfit (field.insert mode v instruction)
  refine ⟨_, _, addend, by rw [hpatch, if_pos haccepts], field.cell.read_write site _ hfit, hstored,
    ?_⟩
  rw [haddend, field.readBack_and_lowOnes, Field.extract_insert hsuits haccepts hbounds hplain]

/-- An ARM call. -/
def callSite : Site := ⟨[0, 0, 0, 0xeb], 0, .little⟩

/-- The operands of a call to a Thumb function that starts two bytes behind a word. -/
def toThumb : Inputs :=
  { symbol := 0x8100, thumb := true, function := true, addend := -6, place := 0x8000 }

/-- The call becomes a BLX, which keeps bit one of the distance. -/
theorem patch_call_exact :
    ∃ (bytes : Bytes) (written : BitVec 32) (addend : Int32),
      patch .arm 28 callSite toThumb = .ok bytes ∧
      Cell.word.read { callSite with bytes := bytes } = .ok written ∧
      storedAddend .arm 28 { callSite with bytes := bytes } = .ok addend ∧
      addend.toInt = Field.armBranch.readBack written 251 := by
  obtain ⟨mode, hmode, -, hback⟩ := patch_field_exact 28 .prelThumb .armBranch (.signed 24) .armCall
    callSite toThumb rfl (by decide) (by decide) (fun hjump => absurd hjump (by decide))
  have hexchange : switchMode .armCall (typeName .arm 28) callSite toThumb = .ok .exchange := rfl
  obtain rfl : SwitchMode.exchange = mode := Except.ok.inj (hexchange.symm.trans hmode)
  exact hback (by decide)

end TargetLink.Relocation.Arm
