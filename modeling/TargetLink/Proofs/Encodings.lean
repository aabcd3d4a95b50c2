import TargetLink.Elf.ObjectFile
import Mathlib.Data.List.Basic

/-!
# Words and dynamic tables that are read back

Encoded words are read back from their places (`ByteOrder.wordAt_encodeWords`), and a dynamic table that
ends at its only null entry is decoded from its encoding, whatever follows it
(`DynamicEntry.decodeTable_encodeTable`).  Every decoded table ends so (`DynamicEntry.exists_of_decodeTable`).
-/

namespace TargetLink

/-! ## Words -/

namespace ByteOrder

variable {order : ByteOrder} {words : List UInt32} {k : Nat} {word : UInt32}

/-- A word of a table is read from its place, whatever follows the table. -/
theorem wordAt_encodeWords (h : words[k]? = some word) (rest : Bytes) :
    (order.encodeWords words ++ rest).wordAt order (4 * k) = word := by
  have hbytes : ((order.encodeWords words ++ rest).drop (4 * k)).take 4 = order.encode 4 word.toNat := by
    induction words generalizing k with
    | nil => cases h
    | cons first words ih =>
      rw [encodeWords, List.flatMap_cons, ← encodeWords, List.append_assoc]
      cases k with
      | zero =>
        obtain rfl := Option.some.inj h
        rw [Nat.mul_zero, List.drop_zero, List.take_left' (length_encode _ _ _)]
      | succ k =>
        rw [Nat.mul_succ, Nat.add_comm, ← List.drop_drop, List.drop_left' (length_encode _ _ _)]
        exact ih h
  have hword : order.decode (order.encode 4 word.toNat) = word.toNat := by
    rw [decode_encode]
    exact Nat.mod_eq_of_lt word.toNat_lt
  rw [Bytes.wordAt, Bytes.numberAt, hbytes, hword, UInt32.ofNat_toNat]

end ByteOrder

/-! ## Dynamic tables -/

namespace DynamicEntry

variable {order : ByteOrder} {entries : List DynamicEntry} {entry : DynamicEntry} {bytes : Bytes}

/-- The table ends at its only null entry. -/
def NullEnded (entries : List DynamicEntry) : Prop :=
  ∃ init last, entries = init ++ [last] ∧ last.tag = DynamicTag.null ∧
    ∀ entry ∈ init, entry.tag ≠ DynamicTag.null

theorem length_encodeTable (entries : List DynamicEntry) (order : ByteOrder) :
    (encodeTable entries order).length = 8 * entries.length := by
  have hwords : (entries.flatMap fun entry => [entry.tag, entry.value]).length = 2 * entries.length := by
    induction entries with
    | nil => rfl
    | cons entry entries ih =>
      simp only [List.flatMap_cons, List.length_append, List.length_cons, List.length_nil, ih]
      omega
  rw [encodeTable, ByteOrder.length_encodeWords, hwords]
  omega

/-- A decoded table is a beginning of the entries that its bytes spell, and ends with the first null one. -/
theorem exists_of_decodeTable (h : decodeTable bytes order = .ok entries) :
    entries = ((List.range entries.length).map fun i => decode bytes order (i * size)) ∧
      entries.length ≤ bytes.length / size ∧ NullEnded entries := by
  unfold decodeTable at h
  dsimp only at h
  split at h
  · rename_i last hlast
    obtain ⟨hbound, hnull, hbefore⟩ := List.findIdx?_eq_some_iff_getElem.mp hlast
    have htable := Except.ok.inj h
    generalize hall : ((List.range (bytes.length / size)).map fun i => decode bytes order (i * size)) = all
      at *
    have hlength : entries.length = last + 1 := by
      rw [← htable, List.length_take]
      omega
    have hfits : last < bytes.length / size := by
      rwa [← hall, List.length_map, List.length_range] at hbound
    refine ⟨?_, hlength ▸ hfits, all.take last, all[last], ?_, eq_of_beq hnull, ?_⟩
    · rw [hlength, ← htable, ← hall, ← List.map_take, List.take_range, Nat.min_eq_left hfits]
    · rw [← htable, List.take_succ_eq_append_getElem hbound]
    · intro entry hentry htag
      obtain ⟨i, hi, rfl⟩ := List.mem_take_iff_getElem.mp hentry
      exact hbefore i (by omega) (beq_iff_eq.mpr htag)
  · cases h

theorem NullEnded.findIdx?_append (h : NullEnded entries) (rest : List DynamicEntry) :
    (entries ++ rest).findIdx? (·.tag == DynamicTag.null) = some (entries.length - 1) := by
  obtain ⟨init, last, rfl, hlast, hinit⟩ := h
  have hnone : init.findIdx? (·.tag == DynamicTag.null) = none :=
    List.findIdx?_eq_none_iff.mpr fun entry hentry => beq_false_of_ne (hinit entry hentry)
  rw [List.append_assoc, List.findIdx?_append, hnone, Option.none_or, List.singleton_append,
    List.findIdx?_cons, if_pos (beq_iff_eq.mpr hlast), List.length_append]
  exact congrArg some (Nat.zero_add _)

theorem NullEnded.length_pos (h : NullEnded entries) : 0 < entries.length := by
  obtain ⟨init, last, rfl, -⟩ := h
  rw [List.length_append]
  exact Nat.succ_pos _

/-- The words of an entry stand at its place among the words of the table. -/
theorem getElem?_words {i k : Nat} (h : entries[i]? = some entry) (hk : k < 2) :
    (entries.flatMap fun entry => [entry.tag, entry.value])[2 * i + k]? = [entry.tag, entry.value][k]? := by
  induction entries generalizing i with
  | nil => cases h
  | cons first entries ih =>
    rw [List.flatMap_cons]
    cases i with
    | zero =>
      obtain rfl := Option.some.inj h
      rw [Nat.mul_zero, Nat.zero_add, List.getElem?_append_left hk]
    | succ i =>
      rw [← ih h, Nat.mul_succ, Nat.add_right_comm]
      rfl

/-- An entry of a table is read from its place, whatever follows the table. -/
theorem decode_encodeTable {i : Nat} (h : entries[i]? = some entry) (rest : Bytes) :
    decode (encodeTable entries order ++ rest) order (i * size) = entry := by
  have htag := getElem?_words h Nat.zero_lt_two
  have hvalue := getElem?_words h Nat.one_lt_two
  rw [decode, encodeTable, show i * size = 4 * (2 * i + 0) by rw [size]; omega,
    ByteOrder.wordAt_encodeWords htag rest, show 4 * (2 * i + 0) + 4 = 4 * (2 * i + 1) by omega,
    ByteOrder.wordAt_encodeWords hvalue rest]

/-- A table that ends at its only null entry is read back, whatever follows it. -/
theorem decodeTable_encodeTable (h : NullEnded entries) (rest : Bytes) :
    decodeTable (encodeTable entries order ++ rest) order = .ok entries := by
  have hfits : entries.length ≤ (encodeTable entries order ++ rest).length / size := by
    rw [List.length_append, length_encodeTable, size]
    omega
  have htake : (((List.range ((encodeTable entries order ++ rest).length / size)).map fun i =>
      decode (encodeTable entries order ++ rest) order (i * size)).take entries.length) = entries := by
    rw [← List.map_take, List.take_range, Nat.min_eq_left hfits]
    refine List.ext_getElem? fun i => ?_
    by_cases hi : i < entries.length
    · rw [List.getElem?_map, List.getElem?_range hi, Option.map_some,
        decode_encodeTable (List.getElem?_eq_getElem hi), List.getElem?_eq_getElem hi]
    · rw [List.getElem?_eq_none (by simpa using hi), List.getElem?_eq_none (by omega)]
  unfold decodeTable
  dsimp only
  generalize ((List.range _).map _ : List DynamicEntry) = all at htake ⊢
  rw [← List.take_append_drop entries.length all, htake, h.findIdx?_append]
  dsimp only
  rw [Nat.sub_add_cancel h.length_pos, List.take_left' rfl]

end DynamicEntry

end TargetLink
