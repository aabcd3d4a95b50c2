import TargetLink.Proofs.InPlace
import TargetLink.Proofs.Reapplication
import TargetLink.Proofs.Reordering

/-!
# A byte order is only a spelling

The same segment in the other byte order has the bytes of each unit reversed.  A relocation knows the
units of its cell alone: the byte, the halfword or the word, and each of the two halfwords of a 32-bit
Thumb instruction (`Cell.swap`).  If these are reversed, the cell is read alike in the other order
(`Cell.read_swap`), and what is written into it is spelled in reverse (`Cell.write_swap`).  Everything
else that a relocation does it finds from the contents of the cell, so it does the same in both orders
(`patchInPlace_swap`).
-/

namespace TargetLink

namespace ByteOrder

def opposite : ByteOrder → ByteOrder
  | little => big
  | big => little

theorem decode_opposite (order : ByteOrder) (part : Bytes) :
    order.opposite.decode part.reverse = order.decode part := by
  cases order with
  | little => exact congrArg ofLittle part.reverse_reverse
  | big => rfl

theorem encode_opposite (order : ByteOrder) (width n : Nat) :
    order.opposite.encode width n = (order.encode width n).reverse := by
  cases order with
  | little => rfl
  | big => exact (List.reverse_reverse _).symm

end ByteOrder

namespace Bytes

/-! ## Stretches in reverse -/

/-- A stretch that is stored elsewhere does not change what is read here. -/
theorem window_overwrite_of_apart (block part : Bytes) {offset offset' width : Nat}
    (hapart : offset' + part.length ≤ offset ∨ offset + width ≤ offset') :
    (block.overwrite offset' part).window offset width = block.window offset width :=
  window_congr (length_overwrite _ _ _) fun i hle hlt =>
    getElem?_overwrite_of_outside _ (by omega)

/-- What is stored inside a block is read again. -/
theorem window_overwrite_self (block part : Bytes) {offset : Nat}
    (hfit : offset + part.length ≤ block.length) :
    (block.overwrite offset part).window offset part.length = some part := by
  have hwindow := block.window_overwrite offset [] part [] (by simpa using hfit)
  simpa using hwindow

/-- The block with the `width` bytes from `offset` on in reverse, if all of them lie inside. -/
def reverseAt (block : Bytes) (offset width : Nat) : Bytes :=
  match block.window offset width with
  | some part => block.overwrite offset part.reverse
  | none => block

section Reverse

variable (block : Bytes) {offset width : Nat}

theorem reverseAt_of_window {part : Bytes} (h : block.window offset width = some part) :
    block.reverseAt offset width = block.overwrite offset part.reverse := by
  rw [reverseAt, h]

@[simp] theorem length_reverseAt : (block.reverseAt offset width).length = block.length := by
  unfold reverseAt
  split
  · exact length_overwrite _ _ _
  · rfl

theorem window_reverseAt_self :
    (block.reverseAt offset width).window offset width =
      (block.window offset width).map List.reverse := by
  cases hwindow : block.window offset width with
  | none => rw [reverseAt, hwindow, hwindow, Option.map_none]
  | some part =>
    have hfit : offset + width ≤ block.length := (Option.ite_none_right_eq_some.mp hwindow).1
    obtain rfl : part.length = width := length_window hwindow
    have hback := block.window_overwrite_self part.reverse (by rwa [List.length_reverse])
    rw [List.length_reverse] at hback
    rw [reverseAt_of_window _ hwindow, hback, Option.map_some]

theorem window_reverseAt_of_apart {offset' width' : Nat}
    (hapart : offset' + width' ≤ offset ∨ offset + width ≤ offset') :
    (block.reverseAt offset' width').window offset width = block.window offset width := by
  cases hwindow : block.window offset' width' with
  | none => rw [reverseAt, hwindow]
  | some part =>
    rw [reverseAt_of_window _ hwindow]
    refine window_overwrite_of_apart _ _ ?_
    rwa [List.length_reverse, length_window hwindow]

/-- A stretch that is replaced as a whole may be reversed before or after. -/
theorem reverseAt_overwrite_self {part : Bytes} (hlength : part.length = width)
    (hfit : offset + width ≤ block.length) :
    (block.overwrite offset part).reverseAt offset width =
      (block.reverseAt offset width).overwrite offset part.reverse := by
  subst hlength
  obtain ⟨old, hold⟩ : ∃ old, block.window offset part.length = some old := ⟨_, if_pos hfit⟩
  have hlength : part.length = part.reverse.length := List.length_reverse.symm
  rw [reverseAt_of_window _ (block.window_overwrite_self part hfit), reverseAt_of_window _ hold,
    overwrite_again _ _ hlength, overwrite_again]
  rw [List.length_reverse, List.length_reverse, length_window hold]

theorem reverseAt_overwrite_of_apart {offset' : Nat} {part : Bytes}
    (hapart : offset' + part.length ≤ offset ∨ offset + width ≤ offset') :
    (block.overwrite offset' part).reverseAt offset width =
      (block.reverseAt offset width).overwrite offset' part := by
  rw [reverseAt, window_overwrite_of_apart _ _ hapart]
  cases hwindow : block.window offset width with
  | none => rw [reverseAt, hwindow]
  | some old =>
    rw [reverseAt_of_window _ hwindow]
    refine overwrite_comm _ ?_
    rwa [List.length_reverse, length_window hwindow]

/-- The same for two stretches of which one follows the other. -/
theorem reverseAt_overwrite_overwrite {front back : Bytes} {width' : Nat}
    (hfront : front.length = width) (hback : back.length = width')
    (hfit : offset + width + width' ≤ block.length) :
    (((block.overwrite offset front).overwrite (offset + width) back).reverseAt offset
        width).reverseAt (offset + width) width' =
      (((block.reverseAt offset width).reverseAt (offset + width) width').overwrite offset
        front.reverse).overwrite (offset + width) back.reverse := by
  have hfirst : offset + width ≤ block.length := Nat.le_of_add_right_le hfit
  have hsecond : offset + width + width' ≤
      ((block.reverseAt offset width).overwrite offset front.reverse).length := by simpa using hfit
  rw [reverseAt_overwrite_of_apart _ (.inr (Nat.le_refl _)), reverseAt_overwrite_self _ hfront hfirst,
    reverseAt_overwrite_self _ hback hsecond, reverseAt_overwrite_of_apart]
  exact .inl (by rw [List.length_reverse, hfront])

end Reverse

end Bytes

namespace Relocation

namespace Cell

/-! ## Cells in the other byte order -/

/-- A number is read alike from its bytes in reverse. -/
theorem unit_opposite {block block' : Bytes} (order : ByteOrder) {offset width : Nat}
    (hwindow : block'.window offset width = (block.window offset width).map List.reverse) :
    unit block' order.opposite offset width = unit block order offset width := by
  rw [unit, unit, hwindow]
  cases block.window offset width with
  | none => rfl
  | some part => exact congrArg Except.ok (order.decode_opposite part)

/-- The segment with the bytes of each unit of the cell in reverse. -/
def swap (cell : Cell) (offset : Nat) (block : Bytes) : Bytes :=
  match cell with
  | byte => block
  | half => block.reverseAt offset 2
  | word => block.reverseAt offset 4
  | thumbPair => (block.reverseAt offset 2).reverseAt (offset + 2) 2

variable (cell : Cell) (order : ByteOrder) (offset : Nat) (block : Bytes)

/-- A swapped cell holds the same in the other byte order. -/
theorem read_swap :
    cell.read ⟨cell.swap offset block, offset, order.opposite⟩ = cell.read ⟨block, offset, order⟩ := by
  cases cell with
  | byte =>
    have hone : block.window offset 1 = (block.window offset 1).map List.reverse := by
      cases hwindow : block.window offset 1 with
      | none => rfl
      | some part =>
        obtain ⟨b, rfl⟩ := List.length_eq_one_iff.mp (Bytes.length_window hwindow)
        rfl
    simp only [read, swap, unit_opposite order hone]
  | half => simp only [read, swap, unit_opposite order block.window_reverseAt_self]
  | word => simp only [read, swap, unit_opposite order block.window_reverseAt_self]
  | thumbPair =>
    have hfirst : ((block.reverseAt offset 2).reverseAt (offset + 2) 2).window offset 2 =
        (block.window offset 2).map List.reverse := by
      rw [Bytes.window_reverseAt_of_apart _ (.inr (Nat.le_refl _)), Bytes.window_reverseAt_self]
    have hsecond : ((block.reverseAt offset 2).reverseAt (offset + 2) 2).window (offset + 2) 2 =
        (block.window (offset + 2) 2).map List.reverse := by
      rw [Bytes.window_reverseAt_self, Bytes.window_reverseAt_of_apart _ (.inl (Nat.le_refl _))]
    simp only [read, swap, unit_opposite order hfirst, unit_opposite order hsecond]

/-- What is written into a swapped cell in the other byte order is what is written, swapped. -/
theorem write_swap (contents : BitVec 32) (hfit : offset + cell.size ≤ block.length) :
    cell.write ⟨cell.swap offset block, offset, order.opposite⟩ contents =
      cell.swap offset (cell.write ⟨block, offset, order⟩ contents) := by
  cases cell with
  | byte =>
    have hone : order.opposite.encode 1 contents.toNat = order.encode 1 contents.toNat := by
      cases order <;> rfl
    exact congrArg (block.overwrite offset) hone
  | half =>
    have hreverse := block.reverseAt_overwrite_self (order.length_encode 2 contents.toNat) hfit
    rw [← order.encode_opposite] at hreverse
    exact hreverse.symm
  | word =>
    have hreverse := block.reverseAt_overwrite_self (order.length_encode 4 contents.toNat) hfit
    rw [← order.encode_opposite] at hreverse
    exact hreverse.symm
  | thumbPair =>
    rw [write_thumbPair, write_thumbPair, order.encode_opposite, order.encode_opposite]
    exact (block.reverseAt_overwrite_overwrite (order.length_encode _ _) (order.length_encode _ _)
      hfit).symm

end Cell

/-! ## Relocations in the other byte order -/

section Spelling

variable {machine : Machine} {type : UInt32}

/-- A relocation without a cell looks at no byte. -/
theorem patch_of_cell?_eq_none (hcell : cell? machine type = none) (site : Site) (inputs : Inputs) :
    patch machine type site inputs =
      if isInert machine type then .ok site.bytes else .error (.unsupportedRelocation machine type) := by
  unfold patch isInert
  cases machine with
  | arm =>
    rw [Kind.treatmentOf_of_rule?_eq_none (Option.map_eq_none_iff.mp hcell)]
    cases Kind.isInert Arm.kinds type <;> rfl
  | c6000 =>
    rw [Kind.treatmentOf_of_rule?_eq_none (Option.map_eq_none_iff.mp hcell)]
    cases Kind.isInert C6000.kinds type <;> rfl

/-- The segment with the bytes of each unit that a relocation patches in reverse. -/
def swap (machine : Machine) (type : UInt32) (offset : Nat) (block : Bytes) : Bytes :=
  match cell? machine type with
  | some cell => cell.swap offset block
  | none => block

theorem swap_of_cell? {cell : Cell} (hcell : cell? machine type = some cell) (offset : Nat) :
    swap machine type offset = cell.swap offset := by
  funext block
  rw [swap, hcell]

theorem settle_swap (order : ByteOrder) (offset : Nat) (inputs : Inputs) (block : Bytes) :
    settle (swap machine type offset block)
        (patch machine type ⟨swap machine type offset block, offset, order.opposite⟩ inputs) =
      (settle block (patch machine type ⟨block, offset, order⟩ inputs)).map id
        (swap machine type offset) := by
  cases hcell : cell? machine type with
  | none =>
    rw [patch_of_cell?_eq_none hcell, patch_of_cell?_eq_none hcell]
    split <;> rfl
  | some cell =>
    rw [swap_of_cell? hcell]
    have hread := cell.read_swap order offset block
    rcases determines_patch hcell inputs ⟨block, offset, order⟩ with
      ⟨e, hfails⟩ | ⟨old, new, hold, hstores⟩
    · dsimp only at hfails
      rw [hfails _ hread, hfails _ rfl]
      rfl
    · dsimp only at hstores
      rw [hstores _ (hread.trans hold), hstores _ hold,
        cell.write_swap order offset block new (Cell.fits_of_read hold)]
      rfl

end Spelling

/-- A relocation does the same in either byte order: to the swapped segment it does in the other order
what it does to the segment, swapped, or fails alike; and it finds the same addend. -/
theorem patchInPlace_swap (machine : Machine) (type : UInt32) (order : ByteOrder) (offset : Nat)
    (inputs : Inputs) (block : Bytes) :
    patchInPlace machine type order.opposite offset inputs (swap machine type offset block) =
        (patchInPlace machine type order offset inputs block).map id (swap machine type offset) ∧
      storedAddend machine type ⟨swap machine type offset block, offset, order.opposite⟩ =
        storedAddend machine type ⟨block, offset, order⟩ := by
  constructor
  · rw [patchInPlace_eq, patchInPlace_eq]
    exact settle_swap order offset inputs block
  · refine storedAddend_congr fun cell hcell => ?_
    rw [swap_of_cell? hcell]
    exact cell.read_swap order offset block

/-- Each halfword of a Thumb call is reversed by itself. -/
example : swap .arm 10 0 [0x00, 0xf0, 0x01, 0xf8] = [0xf0, 0x00, 0xf8, 0x01] := by decide

end Relocation

end TargetLink
