/-!
# Bit layouts

An instruction keeps the bits of one field in several places.  A slice sends a run of consecutive
bits of the field to consecutive bits of the instruction word, and a layout is the list of the
slices of a field.  `Layout.put` writes a field into a word and `Layout.get` reads it back;
`Slice.getLsbD_put` and `Slice.getLsbD_get` say what each does bit by bit.
-/

namespace TargetLink.Relocation

/-- Consecutive bits of a field and their place in an instruction word. -/
structure Slice where
  /-- The lowest bit of the field that the slice holds. -/
  source : Nat
  /-- Where that bit stands in the word. -/
  target : Nat
  width : Nat
  deriving DecidableEq, Repr

def lowOnes (width : Nat) : BitVec 32 := BitVec.ofNat 32 ((1 <<< width) - 1)

theorem getLsbD_lowOnes (width i : Nat) :
    (lowOnes width).getLsbD i = (decide (i < 32) && decide (i < width)) := by
  simp [lowOnes, Nat.one_shiftLeft, BitVec.getLsbD_ofNat, Nat.testBit_two_pow_sub_one]

namespace Slice

/-- The bits of the word that the slice takes up. -/
def mask (slice : Slice) : BitVec 32 := lowOnes slice.width <<< slice.target

/-- The word with the bits of the slice taken from the field. -/
def put (slice : Slice) (field word : BitVec 32) : BitVec 32 :=
  (word &&& ~~~slice.mask) |||
    (((field >>> slice.source) &&& lowOnes slice.width) <<< slice.target)

/-- The bits of the slice in the word, at their place in the field. -/
def get (slice : Slice) (word : BitVec 32) : BitVec 32 :=
  ((word >>> slice.target) &&& lowOnes slice.width) <<< slice.source

def Covers (slice : Slice) (i : Nat) : Prop := slice.target ≤ i ∧ i < slice.target + slice.width

instance (slice : Slice) (i : Nat) : Decidable (slice.Covers i) :=
  inferInstanceAs (Decidable (_ ∧ _))

theorem getLsbD_mask (slice : Slice) (i : Nat) :
    slice.mask.getLsbD i = (decide (i < 32) && decide (slice.Covers i)) := by
  simp only [mask, BitVec.getLsbD_shiftLeft, getLsbD_lowOnes, Covers]
  by_cases h32 : i < 32
  · by_cases hlow : i < slice.target
    · simp [h32, hlow, Nat.not_le.mpr hlow]
    · have hle : slice.target ≤ i := Nat.le_of_not_lt hlow
      have hwidth : (i - slice.target < slice.width) = (i < slice.target + slice.width) := by
        apply propext; omega
      have hsub : i - slice.target < 32 := by omega
      simp [h32, hlow, hle, hwidth, hsub]
  · simp [h32]

/-- A written slice holds the bits of the field, and every other bit is the old one. -/
theorem getLsbD_put (slice : Slice) (field word : BitVec 32) {i : Nat} (hi : i < 32) :
    (slice.put field word).getLsbD i =
      if slice.Covers i then field.getLsbD (slice.source + (i - slice.target))
      else word.getLsbD i := by
  simp only [put, BitVec.getLsbD_or, BitVec.getLsbD_and, BitVec.getLsbD_not, getLsbD_mask,
    BitVec.getLsbD_shiftLeft, BitVec.getLsbD_ushiftRight, getLsbD_lowOnes, hi, decide_true,
    Bool.true_and]
  by_cases hc : slice.Covers i
  · have hle : ¬ i < slice.target := Nat.not_lt.mpr hc.1
    have hin : i - slice.target < slice.width := by have := hc.2; omega
    have h32 : i - slice.target < 32 := by omega
    simp [hc, hle, hin, h32]
  · rw [if_neg hc]
    by_cases hle : i < slice.target
    · simp [hc, hle]
    · have hout : ¬ i - slice.target < slice.width := fun h =>
        hc ⟨Nat.le_of_not_lt hle, by omega⟩
      simp [hc, hout]

/-- A slice is read to the place in the field that it was written from. -/
theorem getLsbD_get (slice : Slice) (word : BitVec 32) {i : Nat} (hi : i < 32) :
    (slice.get word).getLsbD i =
      (decide (slice.source ≤ i ∧ i < slice.source + slice.width) &&
        word.getLsbD (slice.target + (i - slice.source))) := by
  simp only [get, BitVec.getLsbD_and, BitVec.getLsbD_shiftLeft, BitVec.getLsbD_ushiftRight,
    getLsbD_lowOnes, hi, decide_true, Bool.true_and]
  by_cases hle : i < slice.source
  · simp [hle, Nat.not_le.mpr hle]
  · have hge : slice.source ≤ i := Nat.le_of_not_lt hle
    have hwidth : (i - slice.source < slice.width) = (i < slice.source + slice.width) := by
      apply propext; omega
    have h32 : i - slice.source < 32 := by omega
    simp [hle, hge, hwidth, h32, Bool.and_comm]

end Slice

/-- Where the bits of a field stand in an instruction word. -/
abbrev Layout := List Slice

namespace Layout

def width (layout : Layout) : Nat := layout.foldr (·.width + ·) 0

def put (layout : Layout) (field word : BitVec 32) : BitVec 32 :=
  layout.foldl (fun w slice => slice.put field w) word

def get (layout : Layout) (word : BitVec 32) : BitVec 32 :=
  layout.foldl (fun field slice => field ||| slice.get word) 0

/-- Bits that no slice takes up survive a write. -/
theorem getLsbD_put_of_not_covers (layout : Layout) (field word : BitVec 32) {i : Nat}
    (hi : i < 32) (h : ∀ slice ∈ layout, ¬ slice.Covers i) :
    (layout.put field word).getLsbD i = word.getLsbD i := by
  induction layout generalizing word with
  | nil => rfl
  | cons slice rest ih =>
    have hrest := ih (slice.put field word) fun s hs => h s (by simp [hs])
    have hhead := slice.getLsbD_put field word hi
    rw [if_neg (h slice (by simp))] at hhead
    simpa [put, hhead] using hrest

end Layout

end TargetLink.Relocation
