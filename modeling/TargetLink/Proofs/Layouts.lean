import Mathlib.Data.Nat.Bitwise
import TargetLink.Relocation.Cell

/-!
# Reading back what was written into a cell

A field survives being scattered over an instruction when its layout is well formed: the slices
stand apart from each other inside the cell, and together they hold every bit of the field.

* `Layout.get_put`: the contents read back are the field, cut to the width of the layout.
* `Layout.get_congr`: the contents depend on the bits under the slices alone, whatever is done to
  the rest of the instruction.
* `Cell.read_write`: a cell reads back what was written into it, cut to the size of the cell.

What the layouts of a machine have to satisfy is decidable, so a table of them is checked by
evaluation.
-/

namespace TargetLink

namespace Bytes

/-- A stretch of a block that lies inside the bytes written last. -/
theorem window_overwrite (block : Bytes) (offset : Nat) (front part back : Bytes)
    (hfit : offset + (front ++ part ++ back).length ≤ block.length) :
    (block.overwrite offset (front ++ part ++ back)).window (offset + front.length) part.length =
      some part := by
  simp only [List.length_append] at hfit
  have hroom : offset + front.length + part.length ≤ block.length := by omega
  rw [window, length_overwrite, if_pos hroom, Option.some_inj]
  apply List.ext_getElem?
  intro i
  rw [List.getElem?_take, List.getElem?_drop]
  by_cases hi : i < part.length
  · rw [if_pos hi, getElem?_overwrite _ _ _ _ (by omega), if_pos]
    · have hsub : offset + front.length + i - offset = front.length + i := by omega
      rw [hsub, List.append_assoc, List.getElem?_append_right (by omega),
        List.getElem?_append_left (by omega), Nat.add_sub_cancel_left]
    · simp only [List.length_append]
      omega
  · rw [if_neg hi, List.getElem?_eq_none (by omega)]

end Bytes

namespace Relocation

theorem toNat_and_lowOnes (field : BitVec 32) {width : Nat} (h : width ≤ 32) :
    (field &&& lowOnes width).toNat = field.toNat % 2 ^ width := by
  have hlow : 2 ^ width - 1 < 2 ^ 32 :=
    Nat.lt_of_lt_of_le (Nat.sub_lt (Nat.two_pow_pos width) Nat.one_pos)
      (Nat.pow_le_pow_right Nat.two_pos h)
  rw [BitVec.toNat_and, lowOnes, BitVec.toNat_ofNat, Nat.one_shiftLeft, Nat.mod_eq_of_lt hlow,
    Nat.and_two_pow_sub_one_eq_mod]

/-! ## Slices -/

namespace Slice

/-- The bits of the field that a slice holds. -/
def Holds (slice : Slice) (i : Nat) : Prop := slice.source ≤ i ∧ i < slice.source + slice.width

instance (slice : Slice) (i : Nat) : Decidable (slice.Holds i) :=
  inferInstanceAs (Decidable (_ ∧ _))

/-- Slices that have no bit of the word in common. -/
def Apart (slice other : Slice) : Prop :=
  slice.target + slice.width ≤ other.target ∨ other.target + other.width ≤ slice.target

instance (slice other : Slice) : Decidable (slice.Apart other) :=
  inferInstanceAs (Decidable (_ ∨ _))

theorem Apart.not_covers {slice other : Slice} (h : slice.Apart other) {i : Nat}
    (hi : slice.Covers i) : ¬ other.Covers i := by
  unfold Apart at h
  unfold Covers at *
  omega

/-- The place in the word of a bit of the field. -/
theorem Holds.covers {slice : Slice} {i : Nat} (h : slice.Holds i) :
    slice.Covers (slice.target + (i - slice.source)) := by
  unfold Holds at h
  unfold Covers
  omega

end Slice

/-! ## Layouts -/

namespace Layout

/-- A layout whose slices share no bit of the cell and hold all of the field. -/
structure WellFormed (layout : Layout) (cell : Cell) : Prop where
  apart : layout.Pairwise Slice.Apart
  inCell : ∀ slice ∈ layout, slice.target + slice.width ≤ 8 * cell.size
  bounded : ∀ slice ∈ layout, slice.source + slice.width ≤ layout.width
  complete : ∀ i < layout.width, ∃ slice ∈ layout, slice.Holds i

instance (layout : Layout) (cell : Cell) : Decidable (layout.WellFormed cell) :=
  decidable_of_iff
    (layout.Pairwise Slice.Apart ∧ (∀ slice ∈ layout, slice.target + slice.width ≤ 8 * cell.size) ∧
      (∀ slice ∈ layout, slice.source + slice.width ≤ layout.width) ∧
      ∀ i < layout.width, ∃ slice ∈ layout, slice.Holds i)
    ⟨fun ⟨hapart, hcell, hbounded, hcomplete⟩ => ⟨hapart, hcell, hbounded, hcomplete⟩,
      fun h => ⟨h.apart, h.inCell, h.bounded, h.complete⟩⟩

variable {layout : Layout} {cell : Cell}

/-- A bit of the contents, as the slices give it. -/
theorem getLsbD_get (layout : Layout) (word : BitVec 32) {i : Nat} (hi : i < 32) :
    (layout.get word).getLsbD i = true ↔
      ∃ slice ∈ layout, slice.Holds i ∧
        word.getLsbD (slice.target + (i - slice.source)) = true := by
  have hfold : ∀ field : BitVec 32,
      (layout.foldl (fun field slice => field ||| slice.get word) field).getLsbD i = true ↔
        field.getLsbD i = true ∨ ∃ slice ∈ layout, (slice.get word).getLsbD i = true := by
    induction layout with
    | nil => simp
    | cons slice rest ih =>
      intro field
      simp only [List.foldl_cons, ih, BitVec.getLsbD_or, Bool.or_eq_true, List.mem_cons,
        exists_eq_or_imp, or_assoc]
  have hzero : (0 : BitVec 32).getLsbD i ≠ true := by simp
  rw [get, hfold, or_iff_right hzero]
  simp only [Slice.getLsbD_get _ _ hi, Bool.and_eq_true, decide_eq_true_eq, Slice.Holds]

/-- A bit of the word under a slice is the bit of the field that the slice sends there. -/
theorem getLsbD_put_of_covers (hapart : layout.Pairwise Slice.Apart) (field word : BitVec 32)
    {slice : Slice} (hmem : slice ∈ layout) {i : Nat} (hi : i < 32) (hcovers : slice.Covers i) :
    (layout.put field word).getLsbD i = field.getLsbD (slice.source + (i - slice.target)) := by
  induction layout generalizing word with
  | nil => cases hmem
  | cons first rest ih =>
    obtain ⟨hfirst, hrest⟩ := List.pairwise_cons.mp hapart
    rcases List.mem_cons.mp hmem with rfl | hmem
    · -- No later slice touches what the first one has written.
      have hlater := getLsbD_put_of_not_covers rest field (slice.put field word) hi
        fun other hother => (hfirst other hother).not_covers hcovers
      rw [Slice.getLsbD_put _ _ _ hi, if_pos hcovers] at hlater
      exact hlater
    · exact ih hrest (first.put field word) hmem

namespace WellFormed

theorem size_le (cell : Cell) : 8 * cell.size ≤ 32 := by
  cases cell <;> decide

/-- The place of a bit of the field lies inside the word. -/
theorem target_lt (h : layout.WellFormed cell) {slice : Slice} (hmem : slice ∈ layout) {i : Nat}
    (hholds : slice.Holds i) : slice.target + (i - slice.source) < 32 := by
  have hcell := h.inCell slice hmem
  have hsize := size_le cell
  have hlt := hholds.covers.2
  omega

/-- A field that was written is read back, cut to the width of its layout. -/
theorem get_put (h : layout.WellFormed cell) (field word : BitVec 32) :
    layout.get (layout.put field word) = field &&& lowOnes layout.width := by
  apply BitVec.eq_of_getLsbD_eq
  intro i hi
  rw [Bool.eq_iff_iff, getLsbD_get _ _ hi, BitVec.getLsbD_and, getLsbD_lowOnes, Bool.and_eq_true,
    Bool.and_eq_true, decide_eq_true_eq, decide_eq_true_eq]
  have hbit : ∀ slice ∈ layout, slice.Holds i →
      (layout.put field word).getLsbD (slice.target + (i - slice.source)) = field.getLsbD i := by
    intro slice hmem hholds
    rw [getLsbD_put_of_covers h.apart field word hmem (h.target_lt hmem hholds) hholds.covers]
    congr 1
    have hle := hholds.1
    omega
  constructor
  · rintro ⟨slice, hmem, hholds, hset⟩
    exact ⟨hbit slice hmem hholds ▸ hset, hi, Nat.lt_of_lt_of_le hholds.2 (h.bounded slice hmem)⟩
  · rintro ⟨hset, -, hwidth⟩
    obtain ⟨slice, hmem, hholds⟩ := h.complete i hwidth
    exact ⟨slice, hmem, hholds, (hbit slice hmem hholds).trans hset⟩

/-- The contents of a field depend on the bits under its slices alone. -/
theorem get_congr (h : layout.WellFormed cell) {word word' : BitVec 32}
    (hsame : ∀ slice ∈ layout, ∀ i < 8 * cell.size, slice.Covers i →
      word.getLsbD i = word'.getLsbD i) :
    layout.get word = layout.get word' := by
  apply BitVec.eq_of_getLsbD_eq
  intro i hi
  rw [Bool.eq_iff_iff, getLsbD_get _ _ hi, getLsbD_get _ _ hi]
  have hbit : ∀ slice ∈ layout, slice.Holds i →
      word.getLsbD (slice.target + (i - slice.source)) =
        word'.getLsbD (slice.target + (i - slice.source)) := fun slice hmem hholds =>
    hsame slice hmem _ (Nat.lt_of_lt_of_le hholds.covers.2 (h.inCell slice hmem)) hholds.covers
  constructor <;> rintro ⟨slice, hmem, hholds, hset⟩
  · exact ⟨slice, hmem, hholds, hbit slice hmem hholds ▸ hset⟩
  · exact ⟨slice, hmem, hholds, (hbit slice hmem hholds).trans hset⟩

/-- The contents of a field do not depend on anything outside of its cell. -/
theorem get_inside (h : layout.WellFormed cell) (word : BitVec 32) :
    layout.get (word &&& lowOnes (8 * cell.size)) = layout.get word := by
  refine h.get_congr fun slice _ i hi _ => ?_
  have hi' : i < 32 := Nat.lt_of_lt_of_le hi (size_le cell)
  simp only [BitVec.getLsbD_and, getLsbD_lowOnes, hi, hi', decide_true, Bool.and_true]

theorem get_and_lowOnes (h : layout.WellFormed cell) (word : BitVec 32) :
    layout.get word &&& lowOnes layout.width = layout.get word := by
  apply BitVec.eq_of_getLsbD_eq
  intro i hi
  rw [BitVec.getLsbD_and, getLsbD_lowOnes, Bool.eq_iff_iff, Bool.and_eq_true, Bool.and_eq_true,
    decide_eq_true_eq, decide_eq_true_eq, and_iff_left_iff_imp]
  intro hset
  obtain ⟨slice, hmem, hholds, -⟩ := (getLsbD_get _ _ hi).mp hset
  exact ⟨hi, Nat.lt_of_lt_of_le hholds.2 (h.bounded slice hmem)⟩

end WellFormed

end Layout

/-! ## Cells -/

namespace Cell

theorem unit_eq_ok_of_window {bytes part : Bytes} {order : ByteOrder} {offset width : Nat}
    (h : bytes.window offset width = some part) :
    unit bytes order offset width = .ok (order.decode part) := by
  rw [unit, h]

theorem exists_unit (bytes : Bytes) (order : ByteOrder) (offset width : Nat)
    (hfit : offset + width ≤ bytes.length) : ∃ n, unit bytes order offset width = .ok n :=
  ⟨_, unit_eq_ok_of_window (if_pos hfit)⟩

/-- A cell inside the segment can be read. -/
theorem exists_read (cell : Cell) (site : Site)
    (hfit : site.offset + cell.size ≤ site.bytes.length) :
    ∃ contents, cell.read site = .ok contents := by
  cases cell with
  | byte =>
    obtain ⟨n, hn⟩ := exists_unit site.bytes site.order site.offset 1 hfit
    exact ⟨_, by simp only [read, hn]; rfl⟩
  | half =>
    obtain ⟨n, hn⟩ := exists_unit site.bytes site.order site.offset 2 hfit
    exact ⟨_, by simp only [read, hn]; rfl⟩
  | word =>
    obtain ⟨n, hn⟩ := exists_unit site.bytes site.order site.offset 4 hfit
    exact ⟨_, by simp only [read, hn]; rfl⟩
  | thumbPair =>
    simp only [size] at hfit
    obtain ⟨first, hfirst⟩ := exists_unit site.bytes site.order site.offset 2 (by omega)
    obtain ⟨second, hsecond⟩ := exists_unit site.bytes site.order (site.offset + 2) 2 (by omega)
    exact ⟨_, by simp only [read, hfirst, hsecond]; rfl⟩

/-- The number that stands where it was written among other bytes. -/
theorem unit_overwrite (block : Bytes) (order : ByteOrder) (offset width n : Nat)
    (front back : Bytes)
    (hfit : offset + (front ++ order.encode width n ++ back).length ≤ block.length) :
    unit (block.overwrite offset (front ++ order.encode width n ++ back)) order
        (offset + front.length) width =
      .ok (n % 256 ^ width) := by
  have hwindow := Bytes.window_overwrite block offset front (order.encode width n) back hfit
  rw [ByteOrder.length_encode] at hwindow
  rw [unit_eq_ok_of_window hwindow, ByteOrder.decode_encode]
  rfl

/-- The number of a cell that is one unit. -/
theorem unit_overwrite_self (block : Bytes) (order : ByteOrder) (offset width n : Nat)
    (hfit : offset + width ≤ block.length) :
    unit (block.overwrite offset (order.encode width n)) order offset width =
      .ok (n % 256 ^ width) := by
  have hunit := unit_overwrite block order offset width n [] [] (by simpa using hfit)
  simpa using hunit

/-- A cell reads back what was written into it, cut to its size. -/
theorem read_write (cell : Cell) (site : Site) (contents : BitVec 32)
    (hfit : site.offset + cell.size ≤ site.bytes.length) :
    cell.read { site with bytes := cell.write site contents } =
      .ok (contents &&& lowOnes (8 * cell.size)) := by
  have hcut : BitVec.ofNat 32 (contents.toNat % 256 ^ cell.size) =
      contents &&& lowOnes (8 * cell.size) := by
    apply BitVec.eq_of_toNat_eq
    have hmod : contents.toNat % 2 ^ (8 * cell.size) < 2 ^ 32 :=
      Nat.lt_of_le_of_lt (Nat.mod_le _ _) contents.isLt
    rw [toNat_and_lowOnes _ (Layout.WellFormed.size_le cell), BitVec.toNat_ofNat,
      Nat.mod_eq_of_lt (by rwa [Nat.pow_mul] at hmod), Nat.pow_mul]
  rw [← hcut]
  cases cell with
  | byte => simp only [read, write, encode, unit_overwrite_self _ _ _ 1 _ hfit]; rfl
  | half => simp only [read, write, encode, unit_overwrite_self _ _ _ 2 _ hfit]; rfl
  | word => simp only [read, write, encode, unit_overwrite_self _ _ _ 4 _ hfit]; rfl
  | thumbPair =>
    simp only [size] at hfit ⊢
    have hfirst := unit_overwrite site.bytes site.order site.offset 2 (contents.toNat / 0x10000) []
      (site.order.encode 2 (contents.toNat % 0x10000)) (by simpa using hfit)
    have hsecond := unit_overwrite site.bytes site.order site.offset 2 (contents.toNat % 0x10000)
      (site.order.encode 2 (contents.toNat / 0x10000)) [] (by simpa using hfit)
    simp only [List.nil_append, List.append_nil, List.length_nil, Nat.add_zero,
      ByteOrder.length_encode] at hfirst hsecond
    simp only [read, write, encode, hfirst, hsecond]
    have hhalves :
        contents.toNat / 0x10000 % 256 ^ 2 * 0x10000 + contents.toNat % 0x10000 % 256 ^ 2 =
          contents.toNat % 256 ^ 4 := by
      have := contents.isLt
      omega
    exact congrArg (fun n => Except.ok (BitVec.ofNat 32 n)) hhalves

end Cell

end Relocation

end TargetLink
