import TargetLink.Proofs.Branches
import TargetLink.Proofs.ScaledFields

/-!
# Relocating again

A relocation that is applied twice with the same operands leaves what the first application left
(`patch_again`).  The second one reads what the first one wrote, and three facts make it write the same.

* The instruction set: a call that was exchanged is exchanged again, and one that was changed back to BL
  is kept (`Arm.switchMode_again`), so the value is the same (`Arm.value_again`).
* The field: an instruction that holds a field already is not changed by writing it
  (`Layout.WellFormed.put_written`, `Arm.Field.setOpcode_again`).
* The rest: what a member of a group becomes depends on the bits that it keeps alone
  (`Group.patch?_congr`).
-/

namespace TargetLink

/-- Of two stores to the same bytes the second one stays. -/
theorem Bytes.overwrite_again (block : Bytes) (offset : Nat) {part part' : Bytes}
    (hlength : part.length = part'.length) :
    (block.overwrite offset part).overwrite offset part' = block.overwrite offset part' := by
  refine ext_inside (by simp) fun i hi => ?_
  simp only [length_overwrite] at hi
  rw [getElem?_overwrite _ _ _ _ (by rwa [length_overwrite]), getElem?_overwrite _ _ _ _ hi,
    getElem?_overwrite _ _ _ _ hi, hlength]
  split <;> rfl

/-- A number is spelled by its low bytes. -/
theorem ByteOrder.encode_mod (order : ByteOrder) (width n : Nat) :
    order.encode width (n % 256 ^ width) = order.encode width n := by
  have hspelled := order.encode_decode (order.encode width n)
  rwa [length_encode, decode_encode] at hspelled

namespace Relocation

namespace Cell

theorem write_write (cell : Cell) (site : Site) (contents contents' : BitVec 32) :
    cell.write { site with bytes := cell.write site contents } contents' =
      cell.write site contents' :=
  site.bytes.overwrite_again site.offset (by rw [length_encode, length_encode])

/-- A cell stores its low bits. -/
theorem write_inside (cell : Cell) (site : Site) (contents : BitVec 32) :
    cell.write site (contents &&& lowOnes (8 * cell.size)) = cell.write site contents := by
  have hcut : (contents &&& lowOnes (8 * cell.size)).toNat = contents.toNat % 256 ^ cell.size := by
    rw [toNat_and_lowOnes _ (Layout.WellFormed.size_le cell), Nat.pow_mul]
  rw [write, write]
  congr 1
  cases cell with
  | byte => exact (congrArg (site.order.encode 1) hcut).trans (site.order.encode_mod 1 _)
  | half => exact (congrArg (site.order.encode 2) hcut).trans (site.order.encode_mod 2 _)
  | word => exact (congrArg (site.order.encode 4) hcut).trans (site.order.encode_mod 4 _)
  | thumbPair => rw [size, Arm.Field.and_lowOnes_word]

end Cell

/-! ## Fields that are written again -/

theorem Slice.put_eq_self {slice : Slice} {field word : BitVec 32}
    (h : ∀ i < 32, slice.Covers i →
      word.getLsbD i = field.getLsbD (slice.source + (i - slice.target))) :
    slice.put field word = word := by
  apply BitVec.eq_of_getLsbD_eq
  intro i hi
  rw [slice.getLsbD_put field word hi]
  split
  case isTrue hcovers => exact (h i hi hcovers).symm
  case isFalse => rfl

namespace Layout

/-- A word that holds a field is not changed by writing it. -/
theorem put_eq_self {layout : Layout} {field word : BitVec 32}
    (h : ∀ slice ∈ layout, ∀ i < 32, slice.Covers i →
      word.getLsbD i = field.getLsbD (slice.source + (i - slice.target))) :
    layout.put field word = word := by
  induction layout with
  | nil => rfl
  | cons slice rest ih =>
    obtain ⟨hslice, hrest⟩ := List.forall_mem_cons.mp h
    rw [put, List.foldl_cons, Slice.put_eq_self hslice]
    exact ih hrest

/-- A field that was written is not written again, whatever else has changed in its cell. -/
theorem WellFormed.put_written {layout : Layout} {cell : Cell} (h : layout.WellFormed cell)
    {field new : BitVec 32} (old : BitVec 32)
    (hkept : ∀ slice ∈ layout, ∀ i < 32, slice.Covers i →
      new.getLsbD i = (layout.put field old).getLsbD i) :
    layout.put field (new &&& lowOnes (8 * cell.size)) = new &&& lowOnes (8 * cell.size) := by
  refine put_eq_self fun slice hslice i hi hcovers => ?_
  have hcell : i < 8 * cell.size := Nat.lt_of_lt_of_le hcovers.2 (h.inCell slice hslice)
  rw [BitVec.getLsbD_and, getLsbD_lowOnes, decide_eq_true hi, decide_eq_true hcell, Bool.and_true,
    Bool.and_true, hkept slice hslice i hi hcovers]
  exact getLsbD_put_of_covers h.apart field old hslice hi hcovers

end Layout

namespace Arm

namespace Field

/-- An opcode that was set is not changed by setting it again. -/
theorem setOpcode_setOpcode (field : Field) (mode : SwitchMode) (v : Int) (instruction : BitVec 32) :
    field.setOpcode mode v (field.setOpcode mode v instruction) =
      field.setOpcode mode v instruction := by
  cases field
  case armBranch =>
    cases mode with
    | keep => rfl
    | exchange => exact congrArg (· ||| _) (replace_and_not _ 0xff000000 (by split <;> decide))
    | link => exact congrArg (· ||| _) (replace_and_not _ 0xff000000 (by decide))
  case thmBranch =>
    cases mode with
    | keep => rfl
    | exchange => exact (BitVec.and_assoc _ _ _).trans (by rw [BitVec.and_self]; rfl)
    | link => exact (BitVec.or_assoc _ _ _).trans (by rw [BitVec.or_self]; rfl)
  case thmAluPrel => exact congrArg (· ||| _) (replace_and_not _ _ (by split <;> decide))
  case thmPc12 => exact congrArg (· ||| _) (replace_and_not _ _ (by split <;> decide))
  all_goals rfl

/-- Nor is it changed by a branch that keeps its instruction set. -/
theorem setOpcode_again (field : Field) {mode mode' : SwitchMode} (hmode : mode' = mode ∨ mode' = .keep)
    (v : Int) (instruction : BitVec 32) :
    field.setOpcode mode' v (field.setOpcode mode v instruction) =
      field.setOpcode mode v instruction := by
  have hsame := field.setOpcode_setOpcode mode v instruction
  rcases hmode with rfl | rfl
  · exact hsame
  · -- The sign of a magnitude is written in every mode, the opcode of a branch in none that keeps it.
    cases field
    case thmAluPrel => exact hsame
    case thmPc12 => exact hsame
    all_goals rfl

/-- Only instructions of four bytes have an opcode that goes with their field. -/
theorem setOpcode_of_size_ne {field : Field} (h : field.cell.size ≠ 4) (mode : SwitchMode) (v : Int)
    (instruction : BitVec 32) : field.setOpcode mode v instruction = instruction := by
  cases field <;> first | rfl | exact absurd rfl h

/-- An instruction that was changed and is read back is not changed by the same value. -/
theorem insert_again (field : Field) {mode mode' : SwitchMode} (hmode : mode' = mode ∨ mode' = .keep)
    (v : Int) (old : BitVec 32) :
    let new := field.insert mode v old &&& lowOnes (8 * field.cell.size)
    field.insert mode' v new = new := by
  intro new
  have hput : field.layout.put (field.toggle (BitVec.ofInt 32 (field.pack v))) new = new := by
    refine field.layout_wellFormed.put_written old fun slice hslice i hi hcovers => ?_
    have hcell : i < 8 * field.cell.size :=
      Nat.lt_of_lt_of_le hcovers.2 (field.layout_wellFormed.inCell slice hslice)
    exact field.getLsbD_setOpcode mode v _ hi
      (field.opcodeBits_of_covers slice hslice i hcell hcovers)
  rw [insert, hput]
  by_cases hsize : field.cell.size = 4
  · have hwhole : new = field.insert mode v old := by
      simp only [new, hsize, and_lowOnes_word]
    rw [hwhole]
    exact field.setOpcode_again hmode v _
  · exact setOpcode_of_size_ne hsize mode' v new

end Field

/-! ## Branches that are relocated again -/

section Switch

variable {type : UInt32} {name : String} {site : Site} {inputs : Inputs} {formula : Formula}
  {field : Field} {check : Check} {switch : Switch} {mode mode' : SwitchMode} {old : BitVec 32}

/-- The condition of an ARM branch after a write. -/
theorem condition_insert (mode : SwitchMode) (v : Int) (old : BitVec 32) :
    Field.armBranch.insert mode v old >>> 28 =
      match mode with
      | .keep => old >>> 28
      | .exchange => 0xf
      | .link => 0xe := by
  have hshift (word : BitVec 32) : word >>> 28 = word >>> 24 >>> 4 := BitVec.shiftRight_add word 24 4
  rw [hshift, opcode_insert, hshift]
  cases mode with
  | keep => rfl
  | exchange =>
    dsimp only
    split <;> rfl
  | link => exact (by decide : (0xeb : BitVec 32) >>> 4 = 0xe)

/-- A BLX to Thumb code stays one. -/
theorem switchMode_of_blx (hread : Cell.word.read site = .ok old) (hblx : old >>> 28 = 0xf)
    (hto : inputs.thumb = true) : switchMode .armCall name site inputs = .ok .exchange := by
  simp [switchMode, hread, hblx, hto, bind, Except.bind, pure, Except.pure]

/-- A BL to ARM code stays one. -/
theorem switchMode_of_not_blx (hread : Cell.word.read site = .ok old) (hplain : old >>> 28 ≠ 0xf)
    (hto : inputs.thumb = false) : switchMode .armCall name site inputs = .ok .keep := by
  simp only [switchMode, hread, hto, bind, Except.bind, pure, Except.pure]
  exact (if_neg Bool.false_ne_true).trans (if_neg hplain)

/-- A Thumb call of an ARM function becomes a BLX, whatever it was. -/
theorem switchMode_of_armFunction (hread : Cell.thumbPair.read site = .ok old)
    (hfunction : inputs.function = true) (hto : inputs.thumb = false) :
    switchMode .thumbCall name site inputs = .ok .exchange := by
  simp [switchMode, hread, hfunction, hto, bind, Except.bind, pure, Except.pure]

/-- A Thumb call is kept unless it goes to an ARM function, or is a BLX and goes to Thumb code. -/
theorem switchMode_of_linked (hread : Cell.thumbPair.read site = .ok old)
    (hto : inputs.function = true → inputs.thumb = true)
    (hlink : inputs.thumb = true → old.getLsbD 12 = true) :
    switchMode .thumbCall name site inputs = .ok .keep := by
  cases hthumb : inputs.thumb <;> cases hfunction : inputs.function <;>
    simp_all [switchMode, bind, Except.bind, pure, Except.pure]

/-- Which mode a relocated branch settles on: what was exchanged is exchanged again, and what was
changed back to BL is kept. -/
theorem switchMode_again
    (hrule : Kind.rule? kinds type = some ⟨formula, .field field check, switch⟩)
    (hread : field.cell.read site = .ok old)
    (hmode : switchMode switch name site inputs = .ok mode) (v : Int) :
    ∃ mode', switchMode switch name
        { site with bytes := field.cell.write site (field.insert mode v old) } inputs = .ok mode' ∧
      (mode' = mode ∨ mode = .link ∧ mode' = .keep) := by
  obtain ⟨-, harm, hthumb, -⟩ := coherent_of_rule? hrule
  have hfit := Cell.fits_of_read hread
  cases switch with
  | none => exact ⟨mode, hmode, .inl rfl⟩
  | armJump => exact ⟨mode, hmode, .inl rfl⟩
  | thumbJump => exact ⟨mode, hmode, .inl rfl⟩
  | armCall =>
    obtain rfl : field = .armBranch := harm rfl
    have hnew : Cell.word.read _ = .ok (Field.armBranch.insert mode v old) :=
      Cell.read_write_whole rfl site _ hfit
    have hcondition := condition_insert mode v old
    rcases switchMode_armCall hread hmode with ⟨rfl, hto, -⟩ | ⟨rfl, hto, -⟩ | ⟨rfl, hto, hplain⟩
    · exact ⟨.exchange, switchMode_of_blx hnew hcondition hto, .inl rfl⟩
    · -- What was a BLX is now an unconditional BL, which a second look keeps.
      have halways : (0xe : BitVec 32) ≠ 0xf := by decide
      exact ⟨.keep, switchMode_of_not_blx hnew (hcondition.trans_ne halways) hto, .inr ⟨rfl, rfl⟩⟩
    · exact ⟨.keep, switchMode_of_not_blx hnew (hcondition.trans_ne hplain) hto, .inl rfl⟩
  | thumbCall =>
    obtain rfl : field = .thmBranch := hthumb rfl
    have hnew : Cell.thumbPair.read _ = .ok (Field.thmBranch.insert mode v old) :=
      Cell.read_write_whole rfl site _ hfit
    have hlink := getLsbD_insert_link mode v old
    rcases switchMode_thumbCall hread hmode with ⟨rfl, hfunction, hto⟩ | ⟨rfl, hto⟩ |
      ⟨rfl, hto, hplain⟩
    · exact ⟨.exchange, switchMode_of_armFunction hnew hfunction hto, .inl rfl⟩
    · exact ⟨.keep, switchMode_of_linked hnew (fun _ => hto) fun _ => hlink, .inr ⟨rfl, rfl⟩⟩
    · exact ⟨.keep, switchMode_of_linked hnew hto fun h => hlink.trans (hplain h), .inl rfl⟩

/-- The value of a branch that was changed back is that of one that is kept. -/
theorem value_again (rule : Rule) (inputs : Inputs)
    (h : mode' = mode ∨ mode = .link ∧ mode' = .keep) :
    rule.value mode' inputs = rule.value mode inputs := by
  rcases h with rfl | ⟨rfl, rfl⟩
  · rfl
  · obtain ⟨formula, encoding, switch⟩ := rule
    cases encoding with
    | group => rfl
    | field field => cases field <;> rfl

end Switch

end Arm

/-! ## Groups that are relocated again -/

namespace Group

/-- What a member of a group becomes depends on the bits that it keeps. -/
theorem patch?_congr {members : GroupClass} {old new : BitVec 32}
    (h : AgreeOff (members.bits ||| members.opcodeBits) old new) (index : Nat) (concluding : Bool)
    (v : Int) : patch? members index concluding new v = patch? members index concluding old v := by
  unfold patch? withOffset
  cases members with
  | alu => rw [h.and_eq (by decide : _ &&& ~~~(opcodeMask ||| 0xfff) = 0#32)]
  | ldr => rw [h.and_eq (by decide : _ &&& ~~~(upBit ||| 0xfff) = 0#32)]
  | ldrs => rw [h.and_eq (by decide : _ &&& ~~~(upBit ||| 0xf0f) = 0#32)]
  | ldc => rw [h.and_eq (by decide : _ &&& ~~~(upBit ||| 0xff) = 0#32)]

end Group

/-! ## Rules that are applied again -/

section Patch

variable {name : String} {site : Site} {inputs : Inputs} {after : Bytes}

theorem Arm.patch_again {type : UInt32} {rule : Rule} (hrule : Kind.rule? kinds type = some rule)
    (h : rule.patch name site inputs = .ok after) :
    rule.patch name { site with bytes := after } inputs = .ok after := by
  rw [Rule.patch_eq] at h ⊢
  obtain ⟨mode, hmode, h⟩ := exists_of_bind_eq_ok h
  obtain ⟨formula, encoding, switch⟩ := rule
  cases encoding with
  | group members index concluding =>
    obtain rfl : switch = .none := switch_of_group hrule rfl
    obtain ⟨old, hread, h⟩ := exists_of_bind_eq_ok h
    split at h
    case h_2 => cases h
    case h_1 new hnew =>
      obtain rfl := Except.ok.inj h
      have hreread : Cell.word.read _ = .ok new :=
        Cell.read_write_whole rfl site new (Cell.fits_of_read hread)
      -- The sign and the magnitude come from the operands, so only what the member keeps is read.
      have hbounds := eval_bounds formula inputs
      have hvalue : (formula.eval inputs).natAbs < 2 ^ 32 := by omega
      have hkept := Group.patch?_congr (Group.agreeOff_patch? hvalue hnew) index concluding
        (formula.eval inputs)
      refine bind_eq_ok_iff.mpr ⟨mode, hmode, bind_eq_ok_iff.mpr ⟨new, hreread, ?_⟩⟩
      have hagain := hkept.trans hnew
      dsimp only [Rule.value]
      rw [hagain]
      exact congrArg Except.ok (Cell.word.write_write site new new)
  | field field check =>
    dsimp only at h
    split at h
    case isFalse => cases h
    case isTrue haccepts =>
      obtain ⟨old, hread, h⟩ := exists_of_bind_eq_ok h
      obtain rfl := Except.ok.inj h
      generalize hv : Rule.value ⟨formula, .field field check, switch⟩ mode inputs = v at haccepts
      obtain ⟨mode', hmode', hsettled⟩ := switchMode_again hrule hread hmode v
      have hreread := field.cell.read_write site (field.insert mode v old) (Cell.fits_of_read hread)
      refine bind_eq_ok_iff.mpr ⟨mode', hmode', ?_⟩
      dsimp only
      rw [value_again _ inputs hsettled, hv, if_pos haccepts]
      refine bind_eq_ok_iff.mpr ⟨_, hreread, congrArg Except.ok ?_⟩
      have hmode'' : mode' = mode ∨ mode' = .keep := hsettled.imp_right And.right
      rw [Field.insert_again field hmode'' v old]
      exact (field.cell.write_write site _ _).trans (field.cell.write_inside site _)

theorem C6000.patch_again {type : UInt32} {rule : Rule} (hrule : Kind.rule? kinds type = some rule)
    (h : rule.patch name site inputs = .ok after) :
    rule.patch name { site with bytes := after } inputs = .ok after := by
  obtain ⟨v, heval, h⟩ := exists_of_bind_eq_ok h
  split at h
  case isFalse => cases h
  case isTrue haccepts =>
    obtain ⟨old, hread, h⟩ := exists_of_bind_eq_ok h
    obtain rfl := Except.ok.inj h
    have hlayout := (coherent_of_rule? hrule).2.1
    have hreread := rule.cell.read_write site
      (rule.layout.put (BitVec.ofInt 32 (rule.pack v)) old) (Cell.fits_of_read hread)
    refine bind_eq_ok_iff.mpr ⟨v, heval, ?_⟩
    dsimp only
    rw [if_pos haccepts]
    refine bind_eq_ok_iff.mpr ⟨_, hreread, congrArg Except.ok ?_⟩
    rw [hlayout.put_written old fun _ _ _ _ _ => rfl]
    exact (rule.cell.write_write site _ _).trans (rule.cell.write_inside site _)

end Patch

/-- A relocation that is applied again to what it left changes nothing. -/
theorem patch_again (machine : Machine) (type : UInt32) (site : Site) (inputs : Inputs)
    (after : Bytes) (h : patch machine type site inputs = .ok after) :
    patch machine type { site with bytes := after } inputs = .ok after := by
  rw [patch_eq_ok_iff] at h ⊢
  obtain ⟨hinert, -⟩ | ⟨rule, hmachine, hrule, h⟩ | ⟨rule, hmachine, hrule, h⟩ := h
  · exact .inl ⟨hinert, rfl⟩
  · exact .inr (.inl ⟨rule, hmachine, hrule, Arm.patch_again hrule h⟩)
  · exact .inr (.inr ⟨rule, hmachine, hrule, C6000.patch_again hrule h⟩)

/-- A relocation that succeeds succeeds again on the segment that it left, and changes nothing. -/
theorem patchInPlace_again (machine : Machine) (type : UInt32) (order : ByteOrder) (offset : Nat)
    (inputs : Inputs) (before after : Bytes)
    (h : patchInPlace machine type order offset inputs before = (.ok (), after)) :
    patchInPlace machine type order offset inputs after = (.ok (), after) := by
  rw [patchInPlace_eq] at h ⊢
  cases hpatch : patch machine type ⟨before, offset, order⟩ inputs with
  | error e =>
    rw [hpatch] at h
    cases h
  | ok bytes =>
    rw [hpatch] at h
    obtain rfl : bytes = after := congrArg Prod.snd h
    rw [patch_again machine type ⟨before, offset, order⟩ inputs bytes hpatch]
    rfl

/-- A call that has become a BLX stays one. -/
theorem patchInPlace_again_exchange :
    patchInPlace .arm 28 .little 0 Arm.toThumb [0, 0, 0, 0xeb] = (.ok (), [0x3e, 0, 0, 0xfb]) ∧
      patchInPlace .arm 28 .little 0 Arm.toThumb [0x3e, 0, 0, 0xfb] =
        (.ok (), [0x3e, 0, 0, 0xfb]) := by
  have hpatch : patch .arm 28 Arm.callSite Arm.toThumb = .ok [0x3e, 0, 0, 0xfb] := by decide
  have hfirst : patchInPlace .arm 28 .little 0 Arm.toThumb [0, 0, 0, 0xeb] =
      (.ok (), [0x3e, 0, 0, 0xfb]) :=
    (patchInPlace_eq ..).trans (congrArg (settle _) hpatch)
  exact ⟨hfirst, patchInPlace_again .arm 28 .little 0 Arm.toThumb _ _ hfirst⟩

end Relocation

end TargetLink
