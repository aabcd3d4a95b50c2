import TargetLink.Proofs.Branches
import TargetLink.Proofs.ScaledFields

/-!
# Values in two halves

An address that no instruction can hold is loaded by two: one gets the low half of the value and the other
one the high half, by a relocation type each.  The operands are the same, but the formulas are not: on ARM
only the low half is marked as Thumb code.  The mark never carries over into the high half, because the
address that is taken off is even (`Arm.div_two_eval_unmarked`).  On the C6000 the two types of a pair
scale their value alike, with another sixteen bits for the high half.

`patch_halves` reads the immediates of both instructions as their manuals give them and joins them again.
-/

namespace TargetLink.Relocation

/-! ## Instructions that hold one half -/

/-- The instructions that load one half of a register. -/
inductive HalfForm
  /-- MOVW and MOVT in ARM code. -/
  | arm
  /-- MOVW and MOVT in Thumb code. -/
  | thumb
  /-- MVK, MVKL and MVKH. -/
  | c6000
  deriving DecidableEq, Repr

namespace HalfForm

def machine : HalfForm → Machine
  | arm | thumb => .arm
  | c6000 => .c6000

def cell : HalfForm → Cell
  | arm | c6000 => .word
  | thumb => .thumbPair

/-- The immediate of an instruction. -/
def immediate (form : HalfForm) (instruction : BitVec 32) : BitVec 16 :=
  match form with
  | arm => instruction.extractLsb' 16 4 ++ instruction.extractLsb' 0 12
  | thumb =>
    instruction.extractLsb' 16 4 ++ instruction.extractLsb' 26 1 ++ instruction.extractLsb' 12 3 ++
      instruction.extractLsb' 0 8
  | c6000 => instruction.extractLsb' 7 16

/-- Where relocations put the immediate. -/
def layout : HalfForm → Layout
  | arm => Arm.Field.movw.layout
  | thumb => Arm.Field.thmMovw.layout
  | c6000 => [⟨0, 7, 16⟩]

theorem layout_wellFormed (form : HalfForm) : form.layout.WellFormed form.cell := by
  cases form <;> decide

/-- The bits of an immediate stand where relocations put them. -/
theorem immediate_eq (form : HalfForm) (instruction : BitVec 32) :
    form.immediate instruction = (form.layout.get instruction).setWidth 16 := by
  apply BitVec.eq_of_getLsbD_eq
  intro i hi
  rw [BitVec.getLsbD_setWidth, decide_eq_true hi, Bool.true_and, Bool.eq_iff_iff,
    Layout.getLsbD_get _ _ (by omega)]
  cases form with
  | arm | thumb =>
    simp only [immediate, layout, Arm.Field.layout, List.mem_cons, List.not_mem_nil, or_false,
      exists_eq_or_imp, exists_eq_left, Slice.Holds, BitVec.getLsbD_append, BitVec.getLsbD_extractLsb']
    grind
  | c6000 =>
    simp only [immediate, layout, List.mem_singleton, exists_eq_left, Slice.Holds,
      BitVec.getLsbD_extractLsb']
    grind

/-- An immediate that was written is the number, cut to sixteen bits. -/
theorem immediate_put (form : HalfForm) (x : Int) (old : BitVec 32) :
    form.immediate (form.layout.put (BitVec.ofInt 32 x) old) = BitVec.ofInt 16 x := by
  have hwidth : Layout.width form.layout = 16 := by cases form <;> rfl
  have hcut := Arm.Field.toNat_ofInt_and_lowOnes x (by decide : 16 ≤ 32)
  rw [Arm.natCast_span] at hcut
  rw [immediate_eq, form.layout_wellFormed.get_put, hwidth]
  apply BitVec.eq_of_toNat_eq
  rw [BitVec.toNat_setWidth, BitVec.toNat_ofInt]
  omega

/-- The two halves of a number, joined again. -/
theorem ofInt_append {high low : Int} (h : high % 2 ^ 16 = low / 2 ^ 16 % 2 ^ 16) :
    BitVec.ofInt 16 high ++ BitVec.ofInt 16 low = BitVec.ofInt 32 low := by
  apply BitVec.eq_of_toNat_eq
  rw [BitVec.toNat_append, BitVec.toNat_ofInt, BitVec.toNat_ofInt, BitVec.toNat_ofInt,
    ← Nat.shiftLeft_add_eq_or_of_lt (by omega), Nat.shiftLeft_eq]
  omega

end HalfForm

/-! ## Values -/

/-- The value that a relocation type computes. -/
def computed (machine : Machine) (type : UInt32) (inputs : Inputs) : Except LoadError Int :=
  match machine with
  | .arm =>
    match Kind.rule? Arm.kinds type with
    | some rule => .ok (rule.formula.eval inputs)
    | none => .error (.unsupportedRelocation machine type)
  | .c6000 =>
    match Kind.rule? C6000.kinds type with
    | some rule => rule.formula.eval (typeName machine type) inputs
    | none => .error (.unsupportedRelocation machine type)

namespace Arm

/-- A formula without the bit that tells Thumb code. -/
def Formula.unmarked : Formula → Formula
  | absThumb => abs
  | prelThumb => prel
  | prelAlignedThumb => prelAligned
  | sbrelThumb => sbrel
  | formula => formula

theorem div_two_wrapWord (v : Int) : wrapWord v / 2 % 2 ^ 31 = v / 2 % 2 ^ 31 := by
  have hsize : ((UInt32.size : Nat) : Int) = 2 ^ 32 := by decide
  have hwrap : wrapWord v % 2 ^ 32 = v % 2 ^ 32 := by
    rw [← hsize]
    exact Int.bmod_emod
  omega

/-- The mark of Thumb code stays in the lowest bit when something even is taken off. -/
theorem div_two_withThumbBit_sub (v : Int) (thumb : Bool) {even : Int} (heven : even % 2 = 0) :
    (withThumbBit v thumb - even) / 2 = (v - even) / 2 := by
  unfold withThumbBit
  split <;> omega

/-- Above its lowest bit the value is the same with and without the mark of Thumb code. -/
theorem div_two_eval_unmarked (formula : Formula) {inputs : Inputs}
    (hplace : inputs.place.toNat % 2 = 0) (hbase : inputs.staticBase.toNat % 2 = 0) :
    formula.unmarked.eval inputs / 2 % 2 ^ 31 = formula.eval inputs / 2 % 2 ^ 31 := by
  unfold Formula.eval
  rw [div_two_wrapWord, div_two_wrapWord]
  have hmark (even : Int) (heven : even % 2 = 0) :
      (inputs.target - even) / 2 % 2 ^ 31 =
        (withThumbBit inputs.target inputs.thumb - even) / 2 % 2 ^ 31 := by
    rw [div_two_withThumbBit_sub _ _ heven]
  cases formula with
  | abs | prel | prelAligned | sbrel => rfl
  | absThumb =>
    -- An address is the distance from zero.
    have hplain := hmark 0 rfl
    rw [Int.sub_zero, Int.sub_zero] at hplain
    exact hplain
  | prelThumb => exact hmark _ (by omega)
  | prelAlignedThumb => exact hmark _ (by omega)
  | sbrelThumb => exact hmark _ (by omega)

end Arm

/-! ## Types that fill an immediate -/

/-- What a type does that fills an immediate with sixteen bits of its value. -/
def HalfForm.Fills (form : HalfForm) (type : UInt32) (shift : Nat) (check : Check) : Prop :=
  ∀ (site : Site) (inputs : Inputs) (v : Int), site.offset + 4 ≤ site.bytes.length →
    computed form.machine type inputs = .ok v →
      if check.Accepts (v >>> shift) then
        ∃ bytes word, patch form.machine type site inputs = .ok bytes ∧
          form.cell.read { site with bytes } = .ok word ∧
          form.immediate word = BitVec.ofInt 16 (v >>> shift)
      else patch form.machine type site inputs =
        .error (.relocationOverflow (typeName form.machine type) inputs.place v)

theorem HalfForm.size_cell (form : HalfForm) : form.cell.size = 4 := by
  cases form <;> rfl

/-- What is left to show once a type is known to write an immediate. -/
theorem HalfForm.fills_of_patch_eq {form : HalfForm} {type : UInt32} {shift : Nat} {check : Check}
    (h : ∀ (site : Site) (inputs : Inputs) (v : Int) (old : BitVec 32),
      form.cell.read site = .ok old → computed form.machine type inputs = .ok v →
        patch form.machine type site inputs =
          if check.Accepts (v >>> shift) then
            .ok (form.cell.write site (form.layout.put (BitVec.ofInt 32 (v >>> shift)) old))
          else .error (.relocationOverflow (typeName form.machine type) inputs.place v)) :
    form.Fills type shift check := by
  intro site inputs v hfit hv
  have hfit' : site.offset + form.cell.size ≤ site.bytes.length := form.size_cell.symm ▸ hfit
  obtain ⟨old, hread⟩ := form.cell.exists_read site hfit'
  rw [h site inputs v old hread hv]
  split
  case isTrue =>
    exact ⟨_, _, rfl, Cell.read_write_whole form.size_cell site _ hfit', form.immediate_put _ old⟩
  case isFalse => rfl

namespace Arm

/-- An ARM field that is the immediate of a form. -/
structure Field.IsHalf (field : Field) (form : HalfForm) (shift : Nat) : Prop where
  machine : form.machine = .arm
  cell : field.cell = form.cell
  pack (v : Int) : field.pack v = v >>> shift
  value (formula : Formula) (check : Check) (inputs : Inputs) :
    Rule.value ⟨formula, .field field check, .none⟩ .keep inputs = formula.eval inputs
  insert (v : Int) (old : BitVec 32) :
    field.insert .keep v old = form.layout.put (BitVec.ofInt 32 (v >>> shift)) old

theorem Field.IsHalf.fills {field : Field} {form : HalfForm} {shift : Nat}
    (hhalf : field.IsHalf form shift) {type : UInt32} {formula : Formula} {check : Check}
    (hrule : Kind.rule? kinds type = some ⟨formula, .field field check, .none⟩) :
    form.Fills type shift check := by
  refine HalfForm.fills_of_patch_eq fun site inputs v old hread hv => ?_
  rw [hhalf.machine] at hv ⊢
  rw [computed, hrule] at hv
  obtain rfl : formula.eval inputs = v := Except.ok.inj hv
  rw [← hhalf.cell] at hread ⊢
  rw [patch_eq rfl hread hrule, hhalf.value, hhalf.pack, hhalf.insert]

end Arm

theorem C6000.fills {type : UInt32} {formula : C6000.Formula} {shift : Nat}
    (hrule : Kind.rule? C6000.kinds type = some ⟨formula, shift, .word, 7, 16, .unchecked⟩) :
    HalfForm.c6000.Fills type shift .unchecked := by
  refine HalfForm.fills_of_patch_eq fun site inputs v old hread hv => ?_
  have heval : computed .c6000 type inputs = .ok v := hv
  rw [computed, hrule] at heval
  exact patch_eq hrule heval hread

/-! ## Pairs -/

/-- Two relocation types that put one value into two instructions. -/
structure HalfPair where
  form : HalfForm
  low : UInt32
  high : UInt32
  /-- How many low bits of the value the pair leaves out. -/
  scale : Nat
  /-- Which values the low half is meant for. -/
  check : Check
  deriving DecidableEq, Repr

/-- MOVW and MOVT with an address, with a distance from the place, and with one from the static base. -/
def armPairs : List HalfPair := [
  ⟨.arm, 43, 44, 0, .unchecked⟩,
  ⟨.arm, 45, 46, 0, .unchecked⟩,
  ⟨.arm, 84, 85, 0, .unchecked⟩,
  ⟨.arm, 86, 85, 0, .either 16⟩,
  ⟨.thumb, 47, 48, 0, .unchecked⟩,
  ⟨.thumb, 49, 50, 0, .unchecked⟩,
  ⟨.thumb, 87, 88, 0, .unchecked⟩,
  ⟨.thumb, 89, 88, 0, .either 16⟩]

/-- The pairs L16 and H16: an address, a distance from the fetch packet, distances from the static base
in bytes, halfwords and words, and the distance of an entry of the global offset table. -/
def c6000Pairs : List HalfPair := [
  ⟨.c6000, 9, 10, 0, .unchecked⟩,
  ⟨.c6000, 30, 29, 0, .unchecked⟩,
  ⟨.c6000, 15, 18, 0, .unchecked⟩,
  ⟨.c6000, 16, 19, 1, .unchecked⟩,
  ⟨.c6000, 17, 20, 2, .unchecked⟩,
  ⟨.c6000, 22, 23, 2, .unchecked⟩]

theorem exists_rules_of_armPairs {pair : HalfPair} (h : pair ∈ armPairs) :
    pair.scale = 0 ∧ ∃ formula lowField highField,
      Kind.rule? Arm.kinds pair.low = some ⟨formula, .field lowField pair.check, .none⟩ ∧
      Kind.rule? Arm.kinds pair.high = some ⟨formula.unmarked, .field highField .unchecked, .none⟩ ∧
      lowField.IsHalf pair.form 0 ∧ highField.IsHalf pair.form 16 := by
  have hmovw : Arm.Field.movw.IsHalf .arm 0 :=
    ⟨rfl, rfl, fun _ => rfl, fun _ _ _ => rfl, fun _ _ => rfl⟩
  have hmovt : Arm.Field.movt.IsHalf .arm 16 :=
    ⟨rfl, rfl, fun _ => rfl, fun _ _ _ => rfl, fun _ _ => rfl⟩
  have hthmMovw : Arm.Field.thmMovw.IsHalf .thumb 0 :=
    ⟨rfl, rfl, fun _ => rfl, fun _ _ _ => rfl, fun _ _ => rfl⟩
  have hthmMovt : Arm.Field.thmMovt.IsHalf .thumb 16 :=
    ⟨rfl, rfl, fun _ => rfl, fun _ _ _ => rfl, fun _ _ => rfl⟩
  simp only [armPairs, List.mem_cons, List.not_mem_nil, or_false] at h
  rcases h with rfl | rfl | rfl | rfl | rfl | rfl | rfl | rfl
  · exact ⟨rfl, .absThumb, _, _, rfl, rfl, hmovw, hmovt⟩
  · exact ⟨rfl, .prelThumb, _, _, rfl, rfl, hmovw, hmovt⟩
  · exact ⟨rfl, .sbrelThumb, _, _, rfl, rfl, hmovw, hmovt⟩
  · exact ⟨rfl, .sbrelThumb, _, _, rfl, rfl, hmovw, hmovt⟩
  · exact ⟨rfl, .absThumb, _, _, rfl, rfl, hthmMovw, hthmMovt⟩
  · exact ⟨rfl, .prelThumb, _, _, rfl, rfl, hthmMovw, hthmMovt⟩
  · exact ⟨rfl, .sbrelThumb, _, _, rfl, rfl, hthmMovw, hthmMovt⟩
  · exact ⟨rfl, .sbrelThumb, _, _, rfl, rfl, hthmMovw, hthmMovt⟩

theorem exists_rules_of_c6000Pairs {pair : HalfPair} (h : pair ∈ c6000Pairs) :
    ∃ formula : C6000.Formula, formula ≠ .dsbtIndex ∧ pair.form = .c6000 ∧ pair.check = .unchecked ∧
      Kind.rule? C6000.kinds pair.low = some ⟨formula, pair.scale, .word, 7, 16, .unchecked⟩ ∧
      Kind.rule? C6000.kinds pair.high = some ⟨formula, pair.scale + 16, .word, 7, 16, .unchecked⟩ := by
  simp only [c6000Pairs, List.mem_cons, List.not_mem_nil, or_false] at h
  rcases h with rfl | rfl | rfl | rfl | rfl | rfl
  · exact ⟨.abs, by decide, rfl, rfl, rfl, rfl⟩
  · exact ⟨.fetchPacket, by decide, rfl, rfl, rfl, rfl⟩
  · exact ⟨.sbrel, by decide, rfl, rfl, rfl, rfl⟩
  · exact ⟨.sbrel, by decide, rfl, rfl, rfl, rfl⟩
  · exact ⟨.sbrel, by decide, rfl, rfl, rfl, rfl⟩
  · exact ⟨.sbrel, by decide, rfl, rfl, rfl, rfl⟩

namespace HalfPair

/-- Two types that fill their immediates with one number, of which the high half has the upper bits. -/
structure Joins (pair : HalfPair) (inputs : Inputs) (v w : Int) : Prop where
  fillsLow : pair.form.Fills pair.low pair.scale pair.check
  fillsHigh : pair.form.Fills pair.high (pair.scale + 16) .unchecked
  low : computed pair.form.machine pair.low inputs = .ok v
  high : computed pair.form.machine pair.high inputs = .ok w
  upper : w >>> (pair.scale + 16) % 2 ^ 16 = v >>> pair.scale / 2 ^ 16 % 2 ^ 16

theorem exists_joins_of_armPairs {pair : HalfPair} (h : pair ∈ armPairs) {inputs : Inputs}
    (hplace : inputs.place.toNat % 2 = 0) (hbase : inputs.staticBase.toNat % 2 = 0) :
    ∃ v w, pair.Joins inputs v w := by
  obtain ⟨hscale, formula, lowField, highField, hlow, hhigh, hlowHalf, hhighHalf⟩ :=
    exists_rules_of_armPairs h
  have hupper := Arm.div_two_eval_unmarked formula hplace hbase
  refine ⟨formula.eval inputs, formula.unmarked.eval inputs, ?_, ?_, ?_, ?_, ?_⟩
  · rw [hscale]
    exact hlowHalf.fills hlow
  · rw [hscale]
    exact hhighHalf.fills hhigh
  · rw [hlowHalf.machine, computed, hlow]
  · rw [hlowHalf.machine, computed, hhigh]
  · rw [hscale, Nat.zero_add, Int.shiftRight_zero, Int.shiftRight_eq_div_pow]
    omega

theorem exists_joins_of_c6000Pairs {pair : HalfPair} (h : pair ∈ c6000Pairs) (inputs : Inputs) :
    ∃ v w, pair.Joins inputs v w := by
  obtain ⟨formula, hformula, hform, hcheck, hlow, hhigh⟩ := exists_rules_of_c6000Pairs h
  obtain ⟨v, heval⟩ : ∃ v, ∀ name, formula.eval name inputs = .ok v := by
    cases formula with
    | abs | fetchPacket | prel | sbrel => exact ⟨_, fun _ => rfl⟩
    | dsbtIndex => exact absurd rfl hformula
  refine ⟨v, v, ?_, ?_, ?_, ?_, ?_⟩
  · rw [hform, hcheck]
    exact C6000.fills hlow
  · rw [hform]
    exact C6000.fills hhigh
  · rw [hform]
    simp only [HalfForm.machine, computed, hlow, heval]
  · rw [hform]
    simp only [HalfForm.machine, computed, hhigh, heval]
  · rw [Int.shiftRight_add, Int.shiftRight_eq_div_pow _ 16]
    rfl

end HalfPair

/-- The pairs of both machines. -/
def halfPairs : List HalfPair := armPairs ++ c6000Pairs

/-- The two instructions of a pair hold the two halves of one value. The high half is always written, and
the low half unless the value is out of its range. On ARM nothing odd may be taken off, or the mark of
Thumb code would be carried. -/
theorem patch_halves (pair : HalfPair) (inputs : Inputs) (low high : Site) (hpair : pair ∈ halfPairs)
    (heven : pair.form.machine = .arm →
      inputs.place.toNat % 2 = 0 ∧ inputs.staticBase.toNat % 2 = 0)
    (hlow : low.offset + 4 ≤ low.bytes.length) (hhigh : high.offset + 4 ≤ high.bytes.length) :
    let machine := pair.form.machine
    ∃ v highBytes highWord, computed machine pair.low inputs = .ok v ∧
      patch machine pair.high high inputs = .ok highBytes ∧
      pair.form.cell.read { high with bytes := highBytes } = .ok highWord ∧
      if pair.check.Accepts (v >>> pair.scale) then
        ∃ lowBytes lowWord, patch machine pair.low low inputs = .ok lowBytes ∧
          pair.form.cell.read { low with bytes := lowBytes } = .ok lowWord ∧
          pair.form.immediate highWord ++ pair.form.immediate lowWord =
            BitVec.ofInt 32 (v >>> pair.scale)
      else patch machine pair.low low inputs =
        .error (.relocationOverflow (typeName machine pair.low) inputs.place v) := by
  intro machine
  obtain ⟨v, w, hjoins⟩ : ∃ v w, pair.Joins inputs v w := by
    rcases List.mem_append.mp hpair with harm | hc6000
    · have hmachine : pair.form.machine = .arm := by
        obtain ⟨-, -, lowField, -, -, -, hhalf, -⟩ := exists_rules_of_armPairs harm
        exact hhalf.machine
      exact HalfPair.exists_joins_of_armPairs harm (heven hmachine).1 (heven hmachine).2
    · exact HalfPair.exists_joins_of_c6000Pairs hc6000 inputs
  obtain ⟨highBytes, highWord, hhighPatch, hhighRead, hhighHalf⟩ :=
    hjoins.fillsHigh high inputs w hhigh hjoins.high
  refine ⟨v, highBytes, highWord, hjoins.low, hhighPatch, hhighRead, ?_⟩
  have hfill := hjoins.fillsLow low inputs v hlow hjoins.low
  split at hfill
  case isTrue haccepts =>
    obtain ⟨lowBytes, lowWord, hlowPatch, hlowRead, hlowHalf⟩ := hfill
    rw [if_pos haccepts]
    refine ⟨lowBytes, lowWord, hlowPatch, hlowRead, ?_⟩
    rw [hhighHalf, hlowHalf]
    exact HalfForm.ofInt_append hjoins.upper
  case isFalse hrejected =>
    rw [if_neg hrejected]
    exact hfill

/-- The operands of a pair that loads the distance to a Thumb function. -/
def toThumbFunction : Inputs := { symbol := 0x12348000, thumb := true, place := 0x1002 }

def movwSite : Site := ⟨[0x40, 0xf2, 0, 0], 0, .little⟩

def movtSite : Site := ⟨[0xc0, 0xf2, 0, 0], 0, .little⟩

theorem patch_halves_thumb :
    ∃ lowBytes lowWord highBytes highWord,
      patch .arm 49 movwSite toThumbFunction = .ok lowBytes ∧
      patch .arm 50 movtSite toThumbFunction = .ok highBytes ∧
      Cell.thumbPair.read { movwSite with bytes := lowBytes } = .ok lowWord ∧
      Cell.thumbPair.read { movtSite with bytes := highBytes } = .ok highWord ∧
      HalfForm.thumb.immediate highWord ++ HalfForm.thumb.immediate lowWord = 0x12346fff#32 := by
  obtain ⟨v, highBytes, highWord, hv, hhigh, hhighRead, hlow⟩ :=
    patch_halves ⟨.thumb, 49, 50, 0, .unchecked⟩ toThumbFunction movwSite movtSite (by decide)
      (by decide) (by decide) (by decide)
  have hvalue : computed .arm 49 toThumbFunction = .ok 0x12346fff := rfl
  obtain rfl : (0x12346fff : Int) = v := Except.ok.inj (hvalue.symm.trans hv)
  obtain ⟨lowBytes, lowWord, hlow, hlowRead, hjoined⟩ := (if_pos trivial).mp hlow
  exact ⟨lowBytes, lowWord, highBytes, highWord, hlow, hhigh, hlowRead, hhighRead, hjoined⟩

end TargetLink.Relocation
