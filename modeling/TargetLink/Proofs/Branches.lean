import TargetLink.Proofs.Footprints

/-!
# Where a relocated branch goes

A relocation writes the distance to its target into a branch and may exchange the instruction on the
way.  What the result does is read off the instruction alone (`Branch`): the address it goes to, its
condition, and whether it is a call or changes the instruction set.

* `Arm.exists_insert_of_patch`: a relocation that succeeds has settled on a mode and has inserted a
  value that the check accepts.
* `Arm.emod_eval_prelThumb`: modulo the address space that value is the distance from the place.
* `Arm.ofArm?_insert` and `Arm.ofThumb?_insert`: what the inserted value makes of a branch.
* `Arm.switchMode_armCall` and its like: what each mode says of the instruction and of its target.

A branch goes astray in three ways, which the results leave out.  The ARM types for jumps never look at
the opcode, so a BLX stays one and keeps the old bit one of its offset.  A conditional call that becomes
a BLX loses its condition.  And a Thumb BLX that is kept counts from its place, even if that is no word.
-/

namespace TargetLink.Relocation

/-- What a branch instruction does. -/
structure Branch where
  /-- Where it goes, without the bit that tells Thumb code. -/
  target : UInt32
  /-- Whether it leaves a return address. -/
  isCall : Bool
  /-- Whether it goes on in the other instruction set. -/
  isExchange : Bool
  condition : BitVec 4
  deriving DecidableEq, Repr

namespace Branch

/-- The condition of an instruction that is always executed. -/
def always : BitVec 4 := 0xe

/-- The branch of the top byte of an ARM instruction whose offset leads to an address. The condition
that no instruction has stands for BLX, which keeps bit one of its offset in the opcode. -/
def ofOpcode? (opcode : BitVec 32) (reached : Int) : Option Branch :=
  if opcode &&& 0xe ≠ 0xa then none
  else if opcode >>> 4 = 0xf then
    some ⟨UInt32.ofInt (reached + if opcode.getLsbD 0 then 2 else 0), true, true, always⟩
  else some ⟨UInt32.ofInt reached, opcode.getLsbD 0, false, (opcode >>> 4).setWidth 4⟩

/-- The branch of an ARM instruction at a place, if it is B, BL or BLX. The program counter is two
instructions ahead. -/
def ofArm? (place : UInt32) (instruction : BitVec 32) : Option Branch :=
  ofOpcode? (instruction >>> 24) (place.toNat + 8 + 4 * (instruction.setWidth 24).toInt)

/-- The branch of a Thumb BL or BLX at a place, whose offset has been decoded. BLX counts from the
word of the program counter and is undefined if the lowest bit of the pair is set. -/
def ofThumb? (place : UInt32) (pair : BitVec 32) (offset : Int32) : Option Branch :=
  if pair &&& 0xf800c000 ≠ 0xf000c000 then none
  else if pair.getLsbD 12 then
    some ⟨UInt32.ofInt (place.toNat + 4 + offset.toInt), true, false, always⟩
  else if pair.getLsbD 0 then none
  else some ⟨UInt32.ofInt ((place.toNat + 4) / 4 * 4 + offset.toInt), true, true, always⟩

end Branch

/-! ## Addresses -/

theorem ofInt_eq_of_emod_eq {a b : Int} (h : a % 2 ^ 32 = b % 2 ^ 32) :
    UInt32.ofInt a = UInt32.ofInt b := by
  unfold UInt32.ofInt
  rw [h]

theorem toNat_ofInt (v : Int) : ((UInt32.ofInt v).toNat : Int) = v % 2 ^ 32 := by
  unfold UInt32.ofInt
  rw [UInt32.toNat_ofNat']
  omega

/-- An address without the bit that tells Thumb code is even. -/
theorem ofInt_and_not_one (v : Int) : UInt32.ofInt v &&& ~~~1 = UInt32.ofInt (v / 2 * 2) := by
  have hmask : (~~~1 : UInt32).toBitVec = BitVec.allOnes 32 <<< 1 := by decide
  have heven : (UInt32.ofInt v &&& ~~~1).toNat = (UInt32.ofInt v).toNat / 2 * 2 := by
    have hlt := (UInt32.ofInt v).toNat_lt
    rw [← UInt32.toNat_toBitVec, UInt32.toBitVec_and, hmask, ← BitVec.shiftLeft_ushiftRight,
      BitVec.toNat_shiftLeft, BitVec.toNat_ushiftRight, UInt32.toNat_toBitVec,
      Nat.shiftLeft_eq, Nat.shiftRight_eq_div_pow]
    omega
  apply UInt32.toNat_inj.mp
  have hleft := toNat_ofInt v
  have hright := toNat_ofInt (v / 2 * 2)
  rw [heven]
  omega

/-- Bits that a change leaves alone. -/
theorem AgreeOff.and_eq {mask chosen old new : BitVec 32} (h : AgreeOff mask old new)
    (hoff : mask &&& chosen = 0#32) : new &&& chosen = old &&& chosen := by
  apply BitVec.eq_of_getLsbD_eq
  intro i hi
  have hbit := congrArg (·.getLsbD i) hoff
  simp only [BitVec.getLsbD_and, BitVec.getLsbD_zero, Bool.and_eq_false_iff] at hbit ⊢
  rcases hbit with hmask | hchosen
  · rw [h i hi hmask]
  · rw [hchosen, Bool.and_false, Bool.and_false]

/-- A cell of four bytes reads back all of what was written into it. -/
theorem Cell.read_write_whole {cell : Cell} (hsize : cell.size = 4) (site : Site)
    (contents : BitVec 32) (hfit : site.offset + cell.size ≤ site.bytes.length) :
    cell.read { site with bytes := cell.write site contents } = .ok contents := by
  rw [cell.read_write site contents hfit, hsize, Arm.Field.and_lowOnes_word]

namespace Arm

/-! ## The value of a branch -/

/-- Modulo the address space the value is the distance from the place. -/
theorem emod_eval_prelThumb (inputs : Inputs) :
    Formula.prelThumb.eval inputs % 2 ^ 32 =
      (withThumbBit inputs.target inputs.thumb - inputs.place.toNat) % 2 ^ 32 := by
  have hsize : ((UInt32.size : Nat) : Int) = 2 ^ 32 := by decide
  rw [← hsize]
  exact Int.bmod_emod

theorem withThumbBit_false (v : Int) : withThumbBit v false = v := if_neg (by simp)

theorem withThumbBit_true (v : Int) : withThumbBit v true = v / 2 * 2 + 1 := by
  simp only [withThumbBit, true_and]
  split <;> omega

section Patch

variable {type : UInt32} {formula : Formula} {field : Field} {check : Check} {switch : Switch}
  {name : String} {site : Site} {inputs : Inputs} {mode : SwitchMode} {old : BitVec 32}
  {bytes : Bytes}

/-- A relocation that succeeds has inserted a value that its check accepts. -/
theorem exists_insert_of_patch
    (hrule : Kind.rule? kinds type = some ⟨formula, .field field check, switch⟩)
    (hread : field.cell.read site = .ok old) (h : patch .arm type site inputs = .ok bytes) :
    ∃ mode, switchMode switch (typeName .arm type) site inputs = .ok mode ∧
      let v := Rule.value ⟨formula, .field field check, switch⟩ mode inputs
      check.Accepts (field.pack v) ∧ bytes = field.cell.write site (field.insert mode v old) := by
  have hbind := h
  rw [patch_eq_of_rule? hrule, Rule.patch_eq] at hbind
  obtain ⟨mode, hmode, -⟩ := exists_of_bind_eq_ok hbind
  rw [patch_eq hmode hread hrule] at h
  split at h
  case isTrue haccepts => exact ⟨mode, hmode, haccepts, (Except.ok.inj h).symm⟩
  case isFalse => cases h

/-- An ARM call is exchanged when it goes to Thumb code, and BLX is undone when it does not. -/
theorem switchMode_armCall (hread : Cell.word.read site = .ok old)
    (h : switchMode .armCall name site inputs = .ok mode) :
    mode = .exchange ∧ inputs.thumb = true ∧ (old >>> 28 = 0xf ∨ old.getLsbD 24 = true) ∨
      mode = .link ∧ inputs.thumb = false ∧ old >>> 28 = 0xf ∨
      mode = .keep ∧ inputs.thumb = false ∧ old >>> 28 ≠ 0xf := by
  simp only [switchMode, hread, bind, Except.bind, pure, Except.pure] at h
  cases hthumb : inputs.thumb with
  | true =>
    rw [hthumb, if_pos rfl] at h
    split at h
    case isTrue hcall => exact .inl ⟨(Except.ok.inj h).symm, rfl, by simpa using hcall⟩
    case isFalse => cases h
  | false =>
    rw [hthumb, if_neg Bool.false_ne_true] at h
    split at h
    case isTrue hexchange => exact .inr (.inl ⟨(Except.ok.inj h).symm, rfl, hexchange⟩)
    case isFalse hplain => exact .inr (.inr ⟨(Except.ok.inj h).symm, rfl, hplain⟩)

/-- Jumps are relocated only to code of their own instruction set. -/
theorem switchMode_armJump (h : switchMode .armJump name site inputs = .ok mode) :
    mode = .keep ∧ inputs.thumb = false := by
  simp only [switchMode] at h
  split at h
  case isTrue => cases h
  case isFalse hthumb => exact ⟨(Except.ok.inj h).symm, by simpa using hthumb⟩

/-- A Thumb call becomes BLX when it goes to an ARM function, and BL when it goes to Thumb code. -/
theorem switchMode_thumbCall (hread : Cell.thumbPair.read site = .ok old)
    (h : switchMode .thumbCall name site inputs = .ok mode) :
    mode = .exchange ∧ inputs.function = true ∧ inputs.thumb = false ∨
      mode = .link ∧ inputs.thumb = true ∨
      mode = .keep ∧ (inputs.function = true → inputs.thumb = true) ∧
        (inputs.thumb = true → old.getLsbD 12 = true) := by
  simp only [switchMode, hread, bind, Except.bind, pure, Except.pure] at h
  cases hthumb : inputs.thumb <;> cases hfunction : inputs.function <;>
    cases hlink : old.getLsbD 12 <;> simp_all

end Patch

/-! ## ARM branches -/

/-- R_ARM_PC24, R_ARM_PLT32, R_ARM_CALL and R_ARM_JUMP24. -/
def branchTypes : List UInt32 := [1, 27, 28, 29]

theorem exists_rule_of_branchTypes {type : UInt32} (h : type ∈ branchTypes) :
    ∃ switch, Kind.rule? kinds type = some ⟨.prelThumb, .field .armBranch (.signed 24), switch⟩ ∧
      (switch = .armCall ∨ switch = .armJump ∧ type ∈ jumpTypes) := by
  simp only [branchTypes, List.mem_cons, List.not_mem_nil, or_false] at h
  rcases h with rfl | rfl | rfl | rfl
  · exact ⟨.armJump, rfl, .inr ⟨rfl, by decide⟩⟩
  · exact ⟨.armCall, rfl, .inl rfl⟩
  · exact ⟨.armCall, rfl, .inl rfl⟩
  · exact ⟨.armJump, rfl, .inr ⟨rfl, by decide⟩⟩

/-- The field of an ARM branch is the low part of the instruction. -/
theorem contents_armBranch (instruction : BitVec 32) :
    Field.armBranch.contents instruction = (instruction.setWidth 24).toInt := by
  have hget : (Field.armBranch.layout.get instruction).toNat = instruction.toNat % 2 ^ 24 :=
    (C6000.toNat_get_slice instruction (by decide)).trans (by rw [Nat.pow_zero, Nat.div_one])
  have hsigned : Field.armBranch.isSigned := rfl
  have hstored : Field.armBranch.toggle (Field.armBranch.layout.get instruction) =
      Field.armBranch.layout.get instruction := rfl
  have hwidth : Field.armBranch.width = 24 := rfl
  rw [Field.contents, if_pos hsigned, hstored, hget, hwidth, span_eq, BitVec.toInt_setWidth,
    Int.natCast_mod]
  exact Int.emod_bmod _ _

/-- The top byte of an ARM branch after a write. -/
theorem opcode_insert (mode : SwitchMode) (v : Int) (old : BitVec 32) :
    Field.armBranch.insert mode v old >>> 24 =
      match mode with
      | .keep => old >>> 24
      | .exchange => if v / 2 % 2 = 1 then 0xfb else 0xfa
      | .link => 0xeb := by
  cases mode with
  | keep => exact Field.put_ushiftRight _ _ (Nat.le_refl 24)
  | exchange =>
    refine (Field.replace_ushiftRight _ _ (Nat.le_refl 24)).trans ?_
    dsimp only
    split <;> decide
  | link =>
    have hopcode : (0xeb000000 : BitVec 32) >>> 24 = 0xeb := by decide
    exact (Field.replace_ushiftRight _ _ (Nat.le_refl 24)).trans hopcode

/-- An ARM branch after a write that its check accepts. -/
theorem ofArm?_insert {mode : SwitchMode} {v : Int} (place : UInt32) (old : BitVec 32)
    (haccepts : (Check.signed 24).Accepts (Field.armBranch.pack v)) :
    Branch.ofArm? place (Field.armBranch.insert mode v old) =
      Branch.ofOpcode? (Field.armBranch.insert mode v old >>> 24) (place.toNat + 8 + 4 * (v / 4)) := by
  have hcontents : Field.armBranch.contents (Field.armBranch.insert mode v old) = v / 4 :=
    (Field.contents_insert_of_accepts (by decide) haccepts (by decide) (by rintro ⟨⟩) mode old).trans
      (Field.pack_eq rfl v)
  rw [Branch.ofArm?, ← contents_armBranch, hcontents]

end Arm

namespace Branch

open Arm

variable {opcode : BitVec 32} {reached : Int} {before : Branch}

/-- A branch that is no BLX goes elsewhere if its offset changes, and stays what it is. -/
theorem ofOpcode?_retarget (h : ofOpcode? opcode reached = some before)
    (hplain : before.isExchange = false) (reached' : Int) :
    ofOpcode? opcode reached' = some { before with target := UInt32.ofInt reached' } := by
  unfold ofOpcode? at h ⊢
  split at h
  case isTrue => cases h
  case isFalse hbranch =>
    rw [if_neg hbranch]
    split at h
    case isTrue =>
      obtain rfl := Option.some.inj h
      cases hplain
    case isFalse hconditional =>
      obtain rfl := Option.some.inj h
      rw [if_neg hconditional]

/-- The two forms of BLX. -/
theorem ofOpcode?_exchange (v reached : Int) :
    ofOpcode? (if v / 2 % 2 = 1 then 0xfb else 0xfa) reached =
      some ⟨UInt32.ofInt (reached + if v / 2 % 2 = 1 then 2 else 0), true, true, always⟩ := by
  split <;> rfl

/-- BL is executed always. -/
theorem ofOpcode?_link (reached : Int) :
    ofOpcode? 0xeb reached = some ⟨UInt32.ofInt reached, true, false, always⟩ := rfl

/-- What the opcode tells of a branch: the condition that no instruction has stands for BLX. -/
theorem of_ofArm? {place : UInt32} {word : BitVec 32} (h : ofArm? place word = some before) :
    (before.isExchange = true ↔ word >>> 28 = 0xf) ∧
      (before.isCall = true ↔ word >>> 28 = 0xf ∨ word.getLsbD 24 = true) ∧
      (before.isExchange = true → before.condition = always) := by
  have hcondition : word >>> 24 >>> 4 = word >>> 28 := (BitVec.shiftRight_add word 24 4).symm
  have hlink : (word >>> 24).getLsbD 0 = word.getLsbD 24 := BitVec.getLsbD_ushiftRight _ _ _
  unfold ofArm? ofOpcode? at h
  rw [hcondition, hlink] at h
  split at h
  case isTrue => cases h
  case isFalse =>
    split at h
    case isTrue hexchange =>
      obtain rfl := Option.some.inj h
      exact ⟨iff_of_true rfl hexchange, iff_of_true rfl (.inl hexchange), fun _ => rfl⟩
    case isFalse hplain =>
      obtain rfl := Option.some.inj h
      exact ⟨iff_of_false Bool.false_ne_true hplain, (or_iff_right hplain).symm,
        fun h => absurd h Bool.false_ne_true⟩

end Branch

namespace Arm

/-- Without the bit that tells Thumb code the distance between two words is a multiple of four. -/
theorem reached_armStraight {inputs : Inputs} {v : Int}
    (hdistance : v % 2 ^ 32 =
      (withThumbBit inputs.target inputs.thumb - inputs.place.toNat) % 2 ^ 32)
    (hplace : inputs.place.toNat % 4 = 0) (htarget : inputs.target % 4 = 0)
    (hthumb : inputs.thumb = false) :
    UInt32.ofInt (inputs.place.toNat + 8 + 4 * (v / 4)) =
      UInt32.ofInt ((inputs.target + 8) / 2 * 2) := by
  rw [hthumb, withThumbBit_false] at hdistance
  refine ofInt_eq_of_emod_eq ?_
  omega

/-- BLX keeps bit one of the distance, and only the bit that tells Thumb code is lost. -/
theorem reached_armExchange {inputs : Inputs} {v : Int}
    (hdistance : v % 2 ^ 32 =
      (withThumbBit inputs.target inputs.thumb - inputs.place.toNat) % 2 ^ 32)
    (hplace : inputs.place.toNat % 4 = 0) (hthumb : inputs.thumb = true) :
    UInt32.ofInt (inputs.place.toNat + 8 + 4 * (v / 4) + if v / 2 % 2 = 1 then 2 else 0) =
      UInt32.ofInt ((inputs.target + 8) / 2 * 2) := by
  rw [hthumb, withThumbBit_true] at hdistance
  refine ofInt_eq_of_emod_eq ?_
  split <;> omega

/-- What a relocation makes of an ARM branch: it reaches the target in the right instruction set,
and a call stays a call, a jump a jump. A jump may not be a BLX before, and a call that is exchanged may
not be a conditional one. -/
theorem branch_of_patch (type : UInt32) (site : Site) (inputs : Inputs) (old : BitVec 32)
    (before : Branch) (bytes : Bytes) (htype : type ∈ branchTypes)
    (hread : Cell.word.read site = .ok old) (hbefore : Branch.ofArm? inputs.place old = some before)
    (hplace : inputs.place.toNat % 4 = 0)
    (htarget : inputs.target % (if inputs.thumb then 2 else 4) = 0)
    (hjump : type ∈ jumpTypes → before.isExchange = false)
    (hcall : before.isCall = true → inputs.thumb = true → before.condition = Branch.always)
    (hpatch : patch .arm type site inputs = .ok bytes) :
    ∃ new, Cell.word.read { site with bytes := bytes } = .ok new ∧
      Branch.ofArm? inputs.place new =
        some { before with
          target := UInt32.ofInt (inputs.target + 8) &&& ~~~1
          isExchange := inputs.thumb } := by
  obtain ⟨switch, hrule, hswitch⟩ := exists_rule_of_branchTypes htype
  obtain ⟨mode, hmode, haccepts, rfl⟩ := exists_insert_of_patch hrule hread hpatch
  obtain ⟨hexchange, hcalls, halways⟩ := Branch.of_ofArm? hbefore
  have hvalue : Rule.value ⟨.prelThumb, .field .armBranch (.signed 24), switch⟩ mode inputs =
      Formula.prelThumb.eval inputs := rfl
  rw [hvalue] at haccepts ⊢
  have hdistance := emod_eval_prelThumb inputs
  generalize Formula.prelThumb.eval inputs = v at haccepts hdistance
  refine ⟨_, Cell.read_write_whole rfl site _ (Cell.fits_of_read hread), ?_⟩
  rw [ofArm?_insert _ _ haccepts, opcode_insert, ofInt_and_not_one]
  have hstraight (hthumb : inputs.thumb = false) :
      UInt32.ofInt (inputs.place.toNat + 8 + 4 * (v / 4)) =
        UInt32.ofInt ((inputs.target + 8) / 2 * 2) := by
    rw [hthumb, if_neg Bool.false_ne_true] at htarget
    exact reached_armStraight hdistance hplace htarget hthumb
  have hkeep (hthumb : inputs.thumb = false) (hplain : before.isExchange = false) :
      Branch.ofOpcode? (old >>> 24) (inputs.place.toNat + 8 + 4 * (v / 4)) =
        some { before with
          target := UInt32.ofInt ((inputs.target + 8) / 2 * 2)
          isExchange := inputs.thumb } := by
    rw [Branch.ofOpcode?_retarget hbefore hplain, hstraight hthumb, hthumb, ← hplain]
  rcases hswitch with rfl | ⟨rfl, hjumpType⟩
  · rcases switchMode_armCall hread hmode with ⟨rfl, hthumb, hcalled⟩ | ⟨rfl, hthumb, hblx⟩ |
      ⟨rfl, hthumb, hplain⟩
    · have hcall' := hcalls.mpr hcalled
      dsimp only
      rw [Branch.ofOpcode?_exchange, reached_armExchange hdistance hplace hthumb, hthumb,
        ← hcall hcall' hthumb, ← hcall']
    · have hexchanged := hexchange.mpr hblx
      dsimp only
      rw [Branch.ofOpcode?_link, hstraight hthumb, hthumb, ← halways hexchanged,
        ← hcalls.mpr (.inl hblx)]
    · exact hkeep hthumb (by simpa using mt hexchange.mp hplain)
  · obtain ⟨rfl, hthumb⟩ := switchMode_armJump hmode
    exact hkeep hthumb (hjump hjumpType)

/-- A call on the condition that two numbers differ. -/
def conditionalCall : Site := ⟨[0xfe, 0xff, 0xff, 0x1b], 0, .little⟩

/-- A BLX whose opcode holds bit one of the offset. -/
def exchangingCall : Site := ⟨[0xfe, 0xff, 0xff, 0xfb], 0, .little⟩

/-- The operands of a branch from 0x8000 to 0x9000. -/
def ahead (thumb : Bool) : Inputs :=
  { symbol := 0x9000, thumb := thumb, function := true, addend := -8, place := 0x8000 }

theorem branch_of_patch_call :
    patch .arm 28 callSite toThumb = .ok [0x3e, 0, 0, 0xfb] ∧
      Branch.ofArm? 0x8000 0xfb00003e = some ⟨0x8102, true, true, Branch.always⟩ := by
  have hpatch : patch .arm 28 callSite toThumb = .ok [0x3e, 0, 0, 0xfb] := by decide
  obtain ⟨new, hnew, hbranch⟩ := branch_of_patch 28 callSite toThumb 0xeb000000
    ⟨0x8008, true, false, Branch.always⟩ _ (by decide) rfl (by decide) (by decide) (by decide)
    (by decide) (by decide) hpatch
  obtain rfl : 0xfb00003e = new := Except.ok.inj hnew
  exact ⟨hpatch, hbranch⟩

/-- Without its provisos the statement fails twice: a conditional call to Thumb code is made always, and
a BLX under the type of a jump to ARM code stays a BLX and goes two bytes too far. -/
theorem branch_astray :
    (patch .arm 28 conditionalCall (ahead true) = .ok [0xfe, 0x03, 0, 0xfa] ∧
      Branch.ofArm? 0x8000 0x1bfffffe = some ⟨0x8000, true, false, 1⟩ ∧
      Branch.ofArm? 0x8000 0xfa0003fe = some ⟨0x9000, true, true, Branch.always⟩) ∧
    patch .arm 1 exchangingCall (ahead false) = .ok [0xfe, 0x03, 0, 0xfb] ∧
      Branch.ofArm? 0x8000 0xfb0003fe = some ⟨0x9002, true, true, Branch.always⟩ := by
  decide

/-! ## Thumb calls -/

theorem rule?_thumbCall :
    Kind.rule? kinds 10 = some ⟨.prelThumb, .field .thmBranch (.signed 24), .thumbCall⟩ := rfl

/-- The opcode of a Thumb call is its one bit that tells BL from BLX. -/
theorem switchedBits_thmBranch (mode : SwitchMode) (old : BitVec 32) :
    Field.thmBranch.switchedBits mode old = if mode = .keep then 0 else 0x1000 := by
  cases mode <;> rfl

/-- Writing a Thumb branch leaves alone what makes it one. -/
theorem prefix_insert (mode : SwitchMode) (v : Int) (old : BitVec 32) :
    Field.thmBranch.insert mode v old &&& 0xf800c000 = old &&& 0xf800c000 := by
  refine (Field.thmBranch.agreeOff_insert mode v old).and_eq ?_
  rw [switchedBits_thmBranch]
  cases mode <;> decide

/-- The bit that tells BL from BLX after a write. -/
theorem getLsbD_insert_link (mode : SwitchMode) (v : Int) (old : BitVec 32) :
    (Field.thmBranch.insert mode v old).getLsbD 12 =
      match mode with
      | .keep => old.getLsbD 12
      | .exchange => false
      | .link => true := by
  cases mode with
  | keep =>
    refine Field.thmBranch.agreeOff_insert .keep v old 12 (by decide) ?_
    rw [switchedBits_thmBranch]
    decide
  | exchange =>
    simp only [Field.insert, Field.setOpcode, BitVec.getLsbD_and]
    exact Bool.and_false _
  | link =>
    simp only [Field.insert, Field.setOpcode, BitVec.getLsbD_or]
    exact Bool.or_true _

/-- The lowest bit of a Thumb branch is bit one of its offset. -/
theorem getLsbD_insert_lowest (mode : SwitchMode) (v : Int) (old : BitVec 32) :
    (Field.thmBranch.insert mode v old).getLsbD 0 = decide (v / 2 % 2 = 1) := by
  have hput := Layout.getLsbD_put_of_covers Field.thmBranch.layout_wellFormed.apart
    (Field.thmBranch.toggle (BitVec.ofInt 32 (Field.thmBranch.pack v))) old
    (List.mem_cons_self : (⟨0, 0, 11⟩ : Slice) ∈ Field.thmBranch.layout) (by decide : 0 < 32)
    (by decide)
  have htoggle (bits : BitVec 32) :
      (Field.thmBranch.toggle bits).getLsbD 0 = bits.getLsbD 0 := by
    unfold Field.toggle
    dsimp only
    split <;> simp
  have hpack : Field.thmBranch.pack v = v / 2 := Field.pack_eq rfl v
  have hbit : (BitVec.ofInt 32 (Field.thmBranch.pack v)).getLsbD 0 = decide (v / 2 % 2 = 1) := by
    rw [hpack, BitVec.getLsbD, BitVec.toNat_ofInt, Nat.testBit_zero, decide_eq_decide]
    omega
  rw [Field.insert, Field.getLsbD_setOpcode _ _ _ _ (by decide) (by decide), hput]
  exact (htoggle _).trans hbit

/-- A Thumb branch after a write: what its offset leads to is undefined only for a BLX that has bit one
of the offset set. -/
theorem ofThumb?_insert {mode : SwitchMode} {v : Int} (place : UInt32) {old : BitVec 32}
    {offset : Int32} (hcall : old &&& 0xf800c000 = 0xf000c000) (hoffset : offset.toInt = v / 2 * 2)
    {isLink : Bool} (hlink : (Field.thmBranch.insert mode v old).getLsbD 12 = isLink)
    (heven : isLink = false → v % 4 = 0) :
    Branch.ofThumb? place (Field.thmBranch.insert mode v old) offset =
      some ⟨UInt32.ofInt ((if isLink then (place.toNat + 4 : Int) else (place.toNat + 4) / 4 * 4) +
        v / 2 * 2), true, !isLink, Branch.always⟩ := by
  rw [Branch.ofThumb?, prefix_insert, if_neg (not_not.mpr hcall), hlink, getLsbD_insert_lowest,
    hoffset]
  cases isLink with
  | true => rfl
  | false =>
    have hlow : ¬v / 2 % 2 = 1 := by
      have := heven rfl
      omega
    rw [decide_eq_false hlow]
    rfl

/-- BL leads to Thumb code and BLX to code that is not; a BLX was exchanged or was one before. -/
theorem link_of_switchMode {name : String} {site : Site} {inputs : Inputs} {mode : SwitchMode}
    {old : BitVec 32} (hread : Cell.thumbPair.read site = .ok old)
    (hmode : switchMode .thumbCall name site inputs = .ok mode) (v : Int) {isLink : Bool}
    (hlink : (Field.thmBranch.insert mode v old).getLsbD 12 = isLink) :
    (inputs.thumb = true → isLink = true) ∧ (mode = .exchange → isLink = false) ∧
      (inputs.function = true → inputs.thumb = false → isLink = false) ∧
      (isLink = false → mode = .exchange ∨ old.getLsbD 12 = false ∧ inputs.function = false) := by
  rw [getLsbD_insert_link] at hlink
  rcases switchMode_thumbCall hread hmode with ⟨rfl, hfunction, hthumb⟩ | ⟨rfl, hthumb⟩ |
    ⟨rfl, hstays, hplain⟩
  · obtain rfl : false = isLink := hlink
    simp [hthumb]
  · obtain rfl : true = isLink := hlink
    simp [hthumb]
  · obtain rfl : old.getLsbD 12 = isLink := hlink
    cases hthumb : inputs.thumb <;> cases hfunction : inputs.function <;> simp_all

/-- The value of a Thumb call, which counts from a word only in the one mode. -/
theorem value_thumbCall (mode : SwitchMode) (inputs : Inputs) :
    Rule.value ⟨.prelThumb, .field .thmBranch (.signed 24), .thumbCall⟩ mode inputs =
      if mode = .exchange then
        (Formula.prelThumb.eval inputs + inputs.place.toNat % 4 / 2 * 2) / 4 * 4
      else Formula.prelThumb.eval inputs := by
  cases mode <;> rfl

/-- The target of a Thumb call whose offset is its value without the lowest bit. -/
theorem reached_thumbCall {mode : SwitchMode} {inputs : Inputs} {v : Int} {isLink : Bool}
    (hvalue : Rule.value ⟨.prelThumb, .field .thmBranch (.signed 24), .thumbCall⟩ mode inputs = v)
    (hplace : inputs.place.toNat % 2 = 0) (htarget : inputs.thumb = false → inputs.target % 4 = 0)
    (hthumb : inputs.thumb = true → isLink = true) (hexchange : mode = .exchange → isLink = false)
    (hblx : isLink = false → mode = .exchange ∨ inputs.place.toNat % 4 = 0) :
    (isLink = false → v % 4 = 0) ∧
      UInt32.ofInt ((if isLink then (inputs.place.toNat + 4 : Int)
        else (inputs.place.toNat + 4) / 4 * 4) + v / 2 * 2) =
      UInt32.ofInt ((inputs.target + 4) / 2 * 2) := by
  have hdistance := emod_eval_prelThumb inputs
  rw [value_thumbCall] at hvalue
  cases isLink with
  | true =>
    rw [if_neg fun h => Bool.noConfusion (hexchange h)] at hvalue
    refine ⟨by rintro ⟨⟩, ofInt_eq_of_emod_eq ?_⟩
    rw [if_pos rfl]
    cases hthumb' : inputs.thumb with
    | true =>
      rw [hthumb', withThumbBit_true] at hdistance
      omega
    | false =>
      have hword := htarget hthumb'
      rw [hthumb', withThumbBit_false] at hdistance
      omega
  | false =>
    have hthumb' : inputs.thumb = false := by simpa using hthumb
    have hword := htarget hthumb'
    rw [hthumb', withThumbBit_false] at hdistance
    -- either way the value is the distance from the word that holds the place
    have hcounted : v = (Formula.prelThumb.eval inputs + inputs.place.toNat % 4 / 2 * 2) / 4 * 4 := by
      rw [← hvalue]
      split
      case isTrue => rfl
      case isFalse hmode =>
        have haligned := (hblx rfl).resolve_left hmode
        omega
    refine ⟨fun _ => by omega, ofInt_eq_of_emod_eq ?_⟩
    rw [if_neg Bool.false_ne_true]
    omega

/-- What a relocation makes of a Thumb call: it reaches the target in the right instruction set. A BLX
that is kept has to stand at the start of a word. -/
theorem thumbCall_of_patch (site : Site) (inputs : Inputs) (old : BitVec 32) (bytes : Bytes)
    (hread : Cell.thumbPair.read site = .ok old) (hcall : old &&& 0xf800c000 = 0xf000c000)
    (hplace : inputs.place.toNat % 2 = 0)
    (htarget : inputs.thumb = false → inputs.target % 4 = 0)
    (hkept : old.getLsbD 12 = false → inputs.thumb = false → inputs.function = false →
      inputs.place.toNat % 4 = 0)
    (hpatch : patch .arm 10 site inputs = .ok bytes) :
    ∃ (new : BitVec 32) (offset : Int32) (branch : Branch),
      Cell.thumbPair.read { site with bytes := bytes } = .ok new ∧
      storedAddend .arm 10 { site with bytes := bytes } = .ok offset ∧
      Branch.ofThumb? inputs.place new offset = some branch ∧
      branch.target = UInt32.ofInt (inputs.target + 4) &&& ~~~1 ∧
      (inputs.thumb = true → branch.isExchange = false) ∧
      (inputs.function = true → inputs.thumb = false → branch.isExchange = true) := by
  obtain ⟨mode, hmode, haccepts, rfl⟩ := exists_insert_of_patch rule?_thumbCall hread hpatch
  generalize hvalue : Rule.value ⟨.prelThumb, .field .thmBranch (.signed 24), .thumbCall⟩ mode
    inputs = v at haccepts
  have hfit : site.offset + Cell.thumbPair.size ≤ site.bytes.length := Cell.fits_of_read hread
  have hnew := Cell.read_write_whole rfl site (Field.thmBranch.insert mode v old) hfit
  obtain ⟨offset, hstored, hextract⟩ := storedAddend_write rule?_thumbCall hfit
    (Field.thmBranch.insert mode v old)
  have hoffset : offset.toInt = v / 2 * 2 := by
    rw [hextract, Field.extract_insert (by decide) haccepts (by rintro ⟨⟩) (by rintro ⟨⟩)]
    rfl
  generalize hlink : (Field.thmBranch.insert mode v old).getLsbD 12 = isLink
  obtain ⟨hthumb, hexchange, hfunction, hblx⟩ := link_of_switchMode hread hmode v hlink
  have haligned (h : isLink = false) : mode = .exchange ∨ inputs.place.toNat % 4 = 0 := by
    refine (hblx h).imp_right fun ⟨hold, hplain⟩ => hkept hold ?_ hplain
    by_contra hthumb'
    rw [hthumb (by simpa using hthumb')] at h
    cases h
  obtain ⟨heven, hreached⟩ :=
    reached_thumbCall hvalue hplace htarget hthumb hexchange haligned
  refine ⟨_, offset, _, hnew, hstored, ofThumb?_insert _ hcall hoffset hlink heven, ?_, ?_, ?_⟩
  · rw [ofInt_and_not_one, hreached]
  · intro h
    rw [hthumb h]
    rfl
  · intro h h'
    rw [hfunction h h']
    rfl

/-- A Thumb BL, and a BLX in its place. -/
def thumbSite (exchange : Bool) : Site := ⟨[0, 0xf0, 0, if exchange then 0xe8 else 0xf8], 0, .little⟩

/-- The operands of a call from the second half of a word to ARM code. -/
def toWord (function : Bool) : Inputs :=
  { symbol := 0x10000, function := function, addend := -4, place := 0x8002 }

theorem thumbCall_of_patch_exchange :
    ∃ (bytes : Bytes) (new : BitVec 32) (offset : Int32) (branch : Branch),
      patch .arm 10 (thumbSite false) (toWord true) = .ok bytes ∧
      Cell.thumbPair.read { thumbSite false with bytes := bytes } = .ok new ∧
      storedAddend .arm 10 { thumbSite false with bytes := bytes } = .ok offset ∧
      Branch.ofThumb? 0x8002 new offset = some branch ∧
      branch.target = 0x10000 ∧ branch.isExchange = true := by
  have hpatch : patch .arm 10 (thumbSite false) (toWord true) = .ok [0x07, 0xf0, 0xfe, 0xef] := by
    decide
  obtain ⟨new, offset, branch, hnew, hoffset, hbranch, htarget, -, hexchange⟩ :=
    thumbCall_of_patch (thumbSite false) (toWord true) 0xf000f800 _ rfl (by decide) (by decide)
      (by decide) (by decide) hpatch
  exact ⟨_, new, offset, branch, hpatch, hnew, hoffset, hbranch, htarget, hexchange rfl rfl⟩

/-- A BLX that is kept in the second half of a word counts from the place and not from its word: it is
undefined, and what it holds is two bytes short. -/
theorem thumbCall_short :
    patch .arm 10 (thumbSite true) (toWord false) = .ok [0x07, 0xf0, 0xfd, 0xef] ∧
      storedAddend .arm 10 ⟨[0x07, 0xf0, 0xfd, 0xef], 0, .little⟩ = .ok 0x7ffa ∧
      Branch.ofThumb? 0x8002 0xf007effd 0x7ffa = none ∧
      UInt32.ofInt ((0x8002 + 4) / 4 * 4 + 0x7ffa) = 0xfffe := by
  decide +kernel

end Arm

end TargetLink.Relocation
