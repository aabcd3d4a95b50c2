import TargetLink.Proofs.Characters
import TargetLink.Proofs.Encodings
import TargetLink.Loader.Arguments
import Mathlib.Algebra.GroupWithZero.Nat

/-!
# Reading an argument block back

A program finds its arguments in the block that the loader leaves it: their number, a pointer to each and a
null pointer, and the strings themselves (`Arguments.Presents`).  A block is made exactly when the area has
room for all of that, and it fills the room it was counted to need (`Arguments.encode_presents`).

The pointers are computed from a running address and the strings are joined apart from them.  What ties the
two is `Arguments.startOf`, the place of a string counted from the start of the block.
-/

namespace TargetLink.Arguments

variable {base capacity : UInt32} {order : ByteOrder} {arguments : List String} {block : Bytes}
  {i j : Nat} {argument : String}

/-! ## Where the strings stand -/

/-- Where an argument stands in the block. -/
def startOf (arguments : List String) (i : Nat) : Nat :=
  headerSize arguments + ((arguments.take i).flatMap terminated).length

theorem length_terminated (argument : String) : (terminated argument).length = argument.utf8ByteSize + 1 := by
  rw [terminated, List.length_append]
  rfl

theorem blockSize_eq_sum (arguments : List String) : blockSize arguments =
    4 * (arguments.length + 2) + (arguments.map fun argument => argument.utf8ByteSize + 1).sum := by
  rw [blockSize, headerSize, List.length_flatMap]
  congr 2
  exact List.map_congr_left fun argument _ => length_terminated argument

theorem startOf_succ (h : arguments[i]? = some argument) :
    startOf arguments (i + 1) = startOf arguments i + argument.utf8ByteSize + 1 := by
  rw [startOf, List.take_add_one, h, Option.toList_some, List.flatMap_append, List.length_append,
    List.flatMap_singleton, length_terminated, ← Nat.add_assoc]
  rfl

theorem startOf_mono (arguments : List String) (h : i ≤ j) : startOf arguments i ≤ startOf arguments j := by
  obtain ⟨k, rfl⟩ := Nat.exists_eq_add_of_le h
  rw [startOf, startOf, List.take_add, List.flatMap_append, List.length_append]
  omega

theorem headerSize_le_startOf (arguments : List String) (i : Nat) :
    headerSize arguments ≤ startOf arguments i :=
  Nat.le_add_right _ _

theorem startOf_le_blockSize (arguments : List String) (i : Nat) :
    startOf arguments i ≤ blockSize arguments := by
  have hall : startOf arguments arguments.length = blockSize arguments := by
    rw [startOf, List.take_length, blockSize]
  rcases Nat.le_total i arguments.length with hi | hi
  · exact hall ▸ startOf_mono arguments hi
  · have hend : startOf arguments i = blockSize arguments := by
      rw [startOf, List.take_of_length_le hi, blockSize]
    exact Nat.le_of_eq hend

/-! ## The pointers -/

theorem length_pointers (address : UInt32) (arguments : List String) :
    (pointers address arguments).length = arguments.length := by
  induction arguments generalizing address with
  | nil => rfl
  | cons first rest ih => rw [pointers, List.length_cons, ih, List.length_cons]

/-- A pointer is the running address behind the strings in front of it. -/
theorem getElem?_pointers (h : arguments[i]? = some argument) (address : UInt32) :
    (pointers address arguments)[i]? =
      some (address + UInt32.ofNat ((arguments.take i).flatMap terminated).length) := by
  induction arguments generalizing i address with
  | nil => cases h
  | cons first rest ih =>
    cases i with
    | zero => exact congrArg some (UInt32.add_zero address).symm
    | succ i =>
      rw [pointers, List.getElem?_cons_succ, ih h, List.take_succ_cons, List.flatMap_cons, List.length_append,
        UInt32.ofNat_add, UInt32.add_assoc]

/-! ## The words in front of the strings -/

/-- The number of arguments, a pointer to each and the null pointer. -/
def header (base : UInt32) (arguments : List String) : List UInt32 :=
  UInt32.ofNat arguments.length ::
    (pointers (base + UInt32.ofNat (headerSize arguments)) arguments ++ [0])

/-- The words and the strings. -/
def blockOf (base : UInt32) (order : ByteOrder) (arguments : List String) : Bytes :=
  order.encodeWords (header base arguments) ++ arguments.flatMap terminated

theorem encode_eq (base capacity : UInt32) (arguments : List String) (order : ByteOrder) :
    encode base capacity arguments order =
      if capacity.toNat < blockSize arguments then
        .error (.memory (.argumentsTooLong (blockSize arguments) capacity))
      else .ok (blockOf base order arguments) :=
  rfl

theorem length_encodeWords_header (order : ByteOrder) (base : UInt32) (arguments : List String) :
    (order.encodeWords (header base arguments)).length = headerSize arguments := by
  rw [ByteOrder.length_encodeWords, header, List.length_cons, List.length_append, length_pointers]
  rfl

@[simp] theorem length_blockOf (base : UInt32) (order : ByteOrder) (arguments : List String) :
    (blockOf base order arguments).length = blockSize arguments := by
  rw [blockOf, List.length_append, length_encodeWords_header, blockSize]

/-- Behind its start stands the argument with its zero, and then the ones that follow it. -/
theorem drop_startOf (base : UInt32) (order : ByteOrder) (h : arguments[i]? = some argument) :
    (blockOf base order arguments).drop (startOf arguments i) =
      terminated argument ++ (arguments.drop (i + 1)).flatMap terminated := by
  obtain ⟨hi, rfl⟩ := List.getElem?_eq_some_iff.mp h
  have hsplit : arguments.flatMap terminated =
      (arguments.take i).flatMap terminated ++ (arguments.drop i).flatMap terminated := by
    rw [← List.flatMap_append, List.take_append_drop]
  rw [startOf, blockOf, ← length_encodeWords_header order base arguments, ← List.drop_drop,
    List.drop_left' rfl, hsplit, List.drop_left' rfl, List.drop_eq_getElem_cons hi, List.flatMap_cons]

theorem getElem?_header_pointer (base : UInt32) (h : arguments[i]? = some argument) :
    (header base arguments)[i + 1]? = some (base + UInt32.ofNat (startOf arguments i)) := by
  have hi : i < arguments.length := (List.getElem?_eq_some_iff.mp h).1
  rw [header, List.getElem?_cons_succ, List.getElem?_append_left (by rwa [length_pointers]),
    getElem?_pointers h, UInt32.add_assoc, ← UInt32.ofNat_add, startOf]

theorem getElem?_header_null (base : UInt32) (arguments : List String) :
    (header base arguments)[arguments.length + 1]? = some 0 := by
  rw [header, List.getElem?_cons_succ, List.getElem?_append_right (Nat.le_of_eq (length_pointers _ _)),
    length_pointers, Nat.sub_self]
  rfl

/-! ## What a program finds -/

/-- Where a pointer of a block leads, counted from the start of the area. -/
def target (block : Bytes) (order : ByteOrder) (base : UInt32) (i : Nat) : UInt32 :=
  block.wordAt order (4 * (i + 1)) - base

/-- A program that is given the block finds its arguments there. -/
structure Presents (base : UInt32) (order : ByteOrder) (arguments : List String) (block : Bytes) : Prop where
  count : (block.wordAt order 0).toNat = arguments.length
  null : block.wordAt order (4 * (arguments.length + 1)) = 0
  /-- Each pointer leads to the bytes of its argument with a zero behind them. -/
  bytes : ∀ i argument, arguments[i]? = some argument →
    block.window (target block order base i).toNat (argument.utf8ByteSize + 1) =
      some (argument.toUTF8.data.toList ++ [0])
  /-- What is read there up to the first zero is the argument. -/
  strings : ∀ i argument, arguments[i]? = some argument →
    ObjectFile.stringAt block (target block order base i) = .ok argument
  /-- The strings stand behind the words. -/
  behind : ∀ i < arguments.length, 4 * (arguments.length + 2) ≤ (target block order base i).toNat
  /-- The zero of a string stands in front of the next one. -/
  apart : ∀ i j argument, i < j → j < arguments.length → arguments[i]? = some argument →
    (target block order base i).toNat + argument.utf8ByteSize < (target block order base j).toNat

/-- A terminated string is read up to its zero. -/
theorem stringAt_of_drop {strings rest : Bytes} {offset : UInt32} (hoffset : offset.toNat ≤ strings.length)
    (hplain : '\x00' ∉ argument.toList) (h : strings.drop offset.toNat = terminated argument ++ rest) :
    ObjectFile.stringAt strings offset = .ok argument := by
  have hplain : ∀ b ∈ argument.toUTF8.data.toList, (b != 0) = true := fun b hb =>
    bne_iff_ne.mpr fun hzero => Utf8.zero_notMem_toUTF8 hplain (hzero ▸ hb)
  have htail : strings.drop offset.toNat = argument.toUTF8.data.toList ++ 0 :: rest := by
    rw [h, terminated, List.append_assoc, List.singleton_append]
  have hrun : (strings.drop offset.toNat).takeWhile (· != 0) = argument.toUTF8.data.toList := by
    rw [htail, List.takeWhile_append_of_pos hplain, List.takeWhile_cons_of_neg (by decide), List.append_nil]
  unfold ObjectFile.stringAt
  rw [if_neg (Nat.not_lt.mpr hoffset)]
  dsimp only
  rw [if_pos (by rw [htail]; simp), hrun, Utf8.decode_toUTF8]

section

variable (base : UInt32) (order : ByteOrder) (hfits : blockSize arguments < UInt32.size)

include hfits

/-- A pointer leads to where its argument stands. -/
theorem toNat_target (h : arguments[i]? = some argument) :
    (target (blockOf base order arguments) order base i).toNat = startOf arguments i := by
  have hstart := Nat.lt_of_le_of_lt (startOf_le_blockSize arguments i) hfits
  rw [target, blockOf, ByteOrder.wordAt_encodeWords (getElem?_header_pointer base h), UInt32.add_comm,
    UInt32.add_sub_cancel, UInt32.toNat_ofNat', Nat.mod_eq_of_lt hstart]

theorem toNat_count : ((blockOf base order arguments).wordAt order 0).toNat = arguments.length := by
  have hcount : (header base arguments)[0]? = some (UInt32.ofNat arguments.length) := rfl
  have hsize : arguments.length < UInt32.size := by
    have hwords := Nat.le_trans (headerSize_le_startOf arguments 0) (startOf_le_blockSize arguments 0)
    rw [headerSize] at hwords
    omega
  rw [blockOf, ← Nat.mul_zero 4, ByteOrder.wordAt_encodeWords hcount, UInt32.toNat_ofNat',
    Nat.mod_eq_of_lt hsize]

theorem presents_of_fits (hplain : ∀ argument ∈ arguments, '\x00' ∉ argument.toList) :
    Presents base order arguments (blockOf base order arguments) := by
  have hlength := length_blockOf base order arguments
  refine ⟨toNat_count base order hfits, ?_, ?_, ?_, ?_, ?_⟩
  · exact ByteOrder.wordAt_encodeWords (getElem?_header_null base arguments) _
  · intro i argument hi
    have hend := startOf_le_blockSize arguments (i + 1)
    rw [startOf_succ hi, Nat.add_assoc, ← hlength] at hend
    rw [toNat_target base order hfits hi, Bytes.window, if_pos hend, drop_startOf base order hi,
      List.take_left' (length_terminated argument)]
    rfl
  · intro i argument hi
    have hle := startOf_le_blockSize arguments i
    have hdrop := drop_startOf base order hi
    rw [← hlength, ← toNat_target base order hfits hi] at hle
    rw [← toNat_target base order hfits hi] at hdrop
    exact stringAt_of_drop hle (hplain argument (List.mem_of_getElem? hi)) hdrop
  · intro i hi
    rw [toNat_target base order hfits (List.getElem?_eq_getElem hi)]
    exact headerSize_le_startOf arguments i
  · intro i j argument hij hj hi
    have hnext := startOf_mono arguments (show i + 1 ≤ j from hij)
    rw [startOf_succ hi] at hnext
    rw [toNat_target base order hfits hi, toNat_target base order hfits (List.getElem?_eq_getElem hj)]
    omega

end

/-- A block is refused exactly when the area is too small for its words and its strings.  Otherwise it fills
just that many bytes, and presents the arguments. -/
theorem encode_presents (base capacity : UInt32) (order : ByteOrder) {arguments : List String}
    (hplain : ∀ argument ∈ arguments, '\x00' ∉ argument.toList) :
    let size := 4 * (arguments.length + 2) + (arguments.map fun argument => argument.utf8ByteSize + 1).sum
    ((∃ error, encode base capacity arguments order = .error error) ↔ capacity.toNat < size) ∧
      (size ≤ capacity.toNat → ∃ block, encode base capacity arguments order = .ok block ∧
        block.length = size ∧ Presents base order arguments block) := by
  intro size
  have hsize : blockSize arguments = size := blockSize_eq_sum arguments
  rw [← hsize, encode_eq]
  refine ⟨?_, fun hroom => ⟨_, if_neg (Nat.not_lt.mpr hroom), ?_, ?_⟩⟩
  · constructor
    · rintro ⟨error, herror⟩
      by_contra hroom
      rw [if_neg hroom] at herror
      cases herror
    · intro hsmall
      exact ⟨_, if_pos hsmall⟩
  · exact length_blockOf base order arguments
  · exact presents_of_fits base order (Nat.lt_of_le_of_lt hroom capacity.toNat_lt) hplain

/-- An empty argument and one of two bytes, in an area that wraps around the end of the address space. -/
theorem encode_presents_wrapping :
    (∀ argument ∈ ["", "é"], '\x00' ∉ argument.toList) ∧
      ∃ block, encode 0xfffffff0 20 ["", "é"] .big = .ok block ∧ block.length = 20 ∧
        Presents 0xfffffff0 .big ["", "é"] block := by
  have hplain : ∀ argument ∈ ["", "é"], '\x00' ∉ argument.toList := by decide
  exact ⟨hplain, (encode_presents 0xfffffff0 20 .big hplain).2 (by decide)⟩

end TargetLink.Arguments
