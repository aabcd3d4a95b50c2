/-!
# Byte blocks and byte orders

A block of bytes is a list; file images, staged segments and target memory are all blocks.
`window` reads a stretch of a block only when the whole stretch lies inside it, and `overwrite`
replaces bytes without ever changing the length of the block.

A byte order says how a number is spelled in a run of bytes. `toLittle` and `ofLittle` are the
little endian spelling; the big endian one is its reverse, so every law about one order gives the
law about the other.  `decode_encode` and `encode_decode` say that spelling and reading are
inverse.
-/

namespace TargetLink

abbrev Bytes := List UInt8

/-- The order in which the bytes of a number are stored. -/
inductive ByteOrder
  | little
  | big
  deriving DecidableEq, Repr, Inhabited

/-! ## Numbers as runs of bytes -/

/-- The `width` low bytes of a number, the lowest one first. -/
def toLittle : (width : Nat) → Nat → List UInt8
  | 0, _ => []
  | width + 1, n => UInt8.ofNat n :: toLittle width (n / 256)

/-- The number that a run of bytes spells, the lowest byte first. -/
def ofLittle : List UInt8 → Nat
  | [] => 0
  | b :: bs => b.toNat + 256 * ofLittle bs

@[simp] theorem length_toLittle (width n : Nat) : (toLittle width n).length = width := by
  induction width generalizing n with
  | zero => rfl
  | succ width ih => simp [toLittle, ih]

theorem ofLittle_toLittle (width n : Nat) : ofLittle (toLittle width n) = n % Nat.pow 256 width := by
  induction width generalizing n with
  | zero => simp [toLittle, ofLittle, Nat.mod_one]
  | succ width ih =>
    have hpow : Nat.pow 256 (width + 1) = 256 * Nat.pow 256 width := Nat.mul_comm _ _
    simp only [toLittle, ofLittle, ih, UInt8.toNat_ofNat']
    rw [hpow, Nat.mod_mul]

theorem toLittle_ofLittle (bs : List UInt8) : toLittle bs.length (ofLittle bs) = bs := by
  induction bs with
  | nil => rfl
  | cons b bs ih =>
    have hb : b.toNat < 256 := b.toNat_lt
    have hdiv : (b.toNat + 256 * ofLittle bs) / 256 = ofLittle bs := by omega
    have hmod : UInt8.ofNat (b.toNat + 256 * ofLittle bs) = b := by
      apply UInt8.toNat_inj.mp
      simp only [UInt8.toNat_ofNat']
      omega
    simp only [List.length_cons, toLittle, ofLittle, hdiv, hmod, ih]

namespace ByteOrder

/-- The `width` low bytes of a number in this order. -/
def encode (order : ByteOrder) (width n : Nat) : List UInt8 :=
  match order with
  | .little => toLittle width n
  | .big => (toLittle width n).reverse

/-- The number that a run of bytes spells in this order. -/
def decode (order : ByteOrder) (bs : List UInt8) : Nat :=
  match order with
  | .little => ofLittle bs
  | .big => ofLittle bs.reverse

@[simp] theorem length_encode (order : ByteOrder) (width n : Nat) :
    (order.encode width n).length = width := by
  cases order <;> simp [encode]

theorem decode_encode (order : ByteOrder) (width n : Nat) :
    order.decode (order.encode width n) = n % Nat.pow 256 width := by
  cases order <;> simp [encode, decode, ofLittle_toLittle]

theorem encode_decode (order : ByteOrder) (bs : List UInt8) :
    order.encode bs.length (order.decode bs) = bs := by
  cases order with
  | little => exact toLittle_ofLittle bs
  | big =>
    have h := toLittle_ofLittle bs.reverse
    rw [List.length_reverse] at h
    simp [encode, decode, h]

def encodeWords (order : ByteOrder) (words : List UInt32) : Bytes :=
  words.flatMap fun word => order.encode 4 word.toNat

theorem length_encodeWords (order : ByteOrder) (words : List UInt32) :
    (order.encodeWords words).length = 4 * words.length := by
  induction words with
  | nil => rfl
  | cons word words ih =>
    simp only [encodeWords, List.flatMap_cons, List.length_append, length_encode,
      List.length_cons] at ih ⊢
    omega

end ByteOrder

namespace Bytes

/-! ## Stretches of a block -/

def zeros (size : Nat) : Bytes := List.replicate size 0

/-- The `width` bytes from `offset` on, if all of them lie inside the block. -/
def window (block : Bytes) (offset width : Nat) : Option Bytes :=
  if offset + width ≤ block.length then some ((block.drop offset).take width) else none

/-- Replaces the bytes from `offset` on. Bytes that would fall behind the end are dropped. -/
def overwrite (block : Bytes) (offset : Nat) (bs : Bytes) : Bytes :=
  block.take offset ++ bs.take (block.length - offset) ++ block.drop (offset + bs.length)

theorem length_window {block part : Bytes} {offset width : Nat}
    (h : block.window offset width = some part) : part.length = width := by
  unfold window at h
  split at h
  next hfit =>
    cases h
    rw [List.length_take, List.length_drop]
    omega
  next => cases h

@[simp] theorem length_overwrite (block : Bytes) (offset : Nat) (bs : Bytes) :
    (block.overwrite offset bs).length = block.length := by
  simp only [overwrite, List.length_append, List.length_take, List.length_drop]
  omega

/-- A byte of an overwritten block is the new one inside the stretch and the old one elsewhere. -/
theorem getElem?_overwrite (block : Bytes) (offset : Nat) (bs : Bytes) (i : Nat)
    (hi : i < block.length) :
    (block.overwrite offset bs)[i]? =
      if offset ≤ i ∧ i < offset + bs.length then bs[i - offset]? else block[i]? := by
  simp only [overwrite, List.append_assoc, List.getElem?_append, List.length_take,
    List.getElem?_take, List.getElem?_drop]
  by_cases hlow : i < offset
  · rw [if_pos (by omega), if_pos hlow, if_neg (by omega)]
  · rw [if_neg (by omega)]
    have hoff : min offset block.length = offset := by omega
    rw [hoff]
    by_cases hin : i < offset + bs.length
    · rw [if_pos (by omega), if_pos (by omega), if_pos (by omega)]
    · rw [if_neg (by omega), if_neg (by omega)]
      congr 1
      omega

/-- Bytes outside of the stretch stay. -/
theorem getElem?_overwrite_of_outside (block : Bytes) {offset : Nat} {bs : Bytes} {i : Nat}
    (hout : i < offset ∨ offset + bs.length ≤ i) : (block.overwrite offset bs)[i]? = block[i]? := by
  by_cases hi : i < block.length
  · rw [getElem?_overwrite _ _ _ _ hi, if_neg (by omega)]
  · rw [List.getElem?_eq_none (by simpa using hi), List.getElem?_eq_none (by simpa using hi)]

/-- Blocks of one length are equal if the bytes inside are. -/
theorem ext_inside {block block' : Bytes} (hlength : block.length = block'.length)
    (h : ∀ i < block.length, block[i]? = block'[i]?) : block = block' := by
  apply List.ext_getElem?
  intro i
  by_cases hi : i < block.length
  · exact h i hi
  · rw [List.getElem?_eq_none (by omega), List.getElem?_eq_none (by omega)]

/-! ## Numbers in a block -/

/-- The number of `width` bytes at `offset`. Bytes behind the end are left out. -/
def numberAt (block : Bytes) (order : ByteOrder) (offset width : Nat) : Nat :=
  order.decode ((block.drop offset).take width)

def halfAt (block : Bytes) (order : ByteOrder) (offset : Nat) : UInt16 :=
  UInt16.ofNat (block.numberAt order offset 2)

def wordAt (block : Bytes) (order : ByteOrder) (offset : Nat) : UInt32 :=
  UInt32.ofNat (block.numberAt order offset 4)

/-- The 32-bit numbers of a block, in order. A partial number at the end is left out. -/
def words (block : Bytes) (order : ByteOrder) : List UInt32 :=
  (List.range (block.length / 4)).map fun i => block.wordAt order (4 * i)

end Bytes

end TargetLink
