import TargetLink.Text.Utf8
import Mathlib.Data.List.Basic

/-!
# Names that are read back

`Utf8.decode` reads any bytes.  On the bytes of a string it gives that string
(`Utf8.decode_toUTF8`): each character is read from its own one to four bytes, whatever follows, and a zero
byte stands in the spelling of the zero character only.
-/

namespace TargetLink.Utf8

variable {bits missing n : Nat} {low high b : UInt8}

/-! ## Bytes of a character -/

theorem toList_toUTF8 (s : String) : s.toUTF8.data.toList = s.toList.flatMap String.utf8EncodeChar := by
  rw [String.toUTF8_eq_toByteArray, ← String.utf8Encode_toList, List.utf8Encode,
    List.toList_data_toByteArray]

/-- The number of a byte that goes on with a character. -/
theorem toNat_continuation (n : Nat) : (UInt8.ofNat (n % 64 + 128)).toNat = n % 64 + 128 := by
  rw [UInt8.toNat_ofNat', Nat.mod_eq_of_lt]
  omega

theorem continuation_bounds (n : Nat) : (0x80 : UInt8).toNat ≤ (UInt8.ofNat (n % 64 + 128)).toNat ∧
    (UInt8.ofNat (n % 64 + 128)).toNat ≤ (0xbf : UInt8).toNat := by
  rw [toNat_continuation]
  simp only [UInt8.reduceToNat]
  omega

theorem ofNat_ne_zero (h : n % 256 ≠ 0) : UInt8.ofNat n ≠ 0 := by
  intro hzero
  apply h
  rw [← UInt8.toNat_ofNat', hzero]
  rfl

/-- Only the zero character is spelled with a zero byte. -/
theorem zero_notMem_utf8EncodeChar {c : Char} (h : c ≠ '\x00') : 0 ∉ String.utf8EncodeChar c := by
  have hzero : c.val.toNat ≠ 0 := fun hzero => h (Char.ext (UInt32.toNat_inj.mp hzero))
  unfold String.utf8EncodeChar
  generalize c.val.toNat = n at hzero
  dsimp only
  split
  · rw [List.mem_singleton]
    exact (ofNat_ne_zero (by omega)).symm
  · -- every byte of a longer spelling has its high bit set
    have hhigh : ∀ k, 128 ≤ k % 256 → (0 : UInt8) ≠ UInt8.ofNat k :=
      fun k hk => (ofNat_ne_zero (by omega)).symm
    split
    · simp only [List.mem_cons, List.not_mem_nil, or_false, not_or]
      exact ⟨hhigh _ (by omega), hhigh _ (by omega)⟩
    · split
      · simp only [List.mem_cons, List.not_mem_nil, or_false, not_or]
        exact ⟨hhigh _ (by omega), hhigh _ (by omega), hhigh _ (by omega)⟩
      · simp only [List.mem_cons, List.not_mem_nil, or_false, not_or]
        exact ⟨hhigh _ (by omega), hhigh _ (by omega), hhigh _ (by omega), hhigh _ (by omega)⟩

/-! ## Steps of the reader -/

theorem decodeFrom_start {unfinished : Unfinished} (h : start b = .inr unfinished) (bs : List UInt8) :
    decodeFrom none (b :: bs) = decodeFrom (some unfinished) bs := by
  rw [decodeFrom, h]

theorem decodeFrom_next (h : low.toNat ≤ b.toNat ∧ b.toNat ≤ high.toNat) (bs : List UInt8) :
    decodeFrom (some ⟨bits, missing + 2, low, high⟩) (b :: bs) =
      decodeFrom (some ⟨bits * 64 + b.toNat % 64, missing + 1, 0x80, 0xbf⟩) bs := by
  rw [decodeFrom, if_pos (by rwa [UInt8.le_iff_toNat_le, UInt8.le_iff_toNat_le])]
  exact if_neg (show ¬missing + 2 ≤ 1 by omega)

theorem decodeFrom_last (h : low.toNat ≤ b.toNat ∧ b.toNat ≤ high.toNat) (bs : List UInt8) :
    decodeFrom (some ⟨bits, 1, low, high⟩) (b :: bs) =
      Char.ofNat (bits * 64 + b.toNat % 64) :: decodeFrom none bs := by
  rw [decodeFrom, if_pos (by rwa [UInt8.le_iff_toNat_le, UInt8.le_iff_toNat_le])]
  exact if_pos (Nat.le_refl 1)

theorem start_two (hle : 0x7f < n) (hlt : n ≤ 0x7ff) :
    start (UInt8.ofNat (n / 64 % 32 + 192)) = .inr ⟨n / 64, 1, 0x80, 0xbf⟩ := by
  have hn : (UInt8.ofNat (n / 64 % 32 + 192)).toNat = n / 64 + 192 := by
    rw [UInt8.toNat_ofNat']
    omega
  have hbits : (n / 64 + 192) % 32 = n / 64 := by omega
  unfold start
  dsimp only
  rw [hn, if_neg (by omega), if_neg (by omega), if_pos (by omega), hbits]

/-- The second byte of a long character stays in the range that the first one leaves it: the number is
neither small enough for fewer bytes nor a surrogate. -/
theorem start_three (hle : 0x7ff < n) (hlt : n ≤ 0xffff) (hvalid : n.isValidChar) :
    ∃ low high : UInt8, start (UInt8.ofNat (n / 4096 % 16 + 224)) = .inr ⟨n / 4096, 2, low, high⟩ ∧
      low.toNat ≤ n / 64 % 64 + 128 ∧ n / 64 % 64 + 128 ≤ high.toNat := by
  have hn : (UInt8.ofNat (n / 4096 % 16 + 224)).toNat = n / 4096 + 224 := by
    rw [UInt8.toNat_ofNat']
    omega
  have hbits : (n / 4096 + 224) % 16 = n / 4096 := by omega
  unfold Nat.isValidChar at hvalid
  unfold start
  dsimp only
  rw [hn, if_neg (by omega), if_neg (by omega), if_neg (by omega), hbits]
  split
  · exact ⟨_, _, rfl, by simp only [UInt8.reduceToNat]; omega⟩
  · split
    · exact ⟨_, _, rfl, by simp only [UInt8.reduceToNat]; omega⟩
    · rw [if_pos (by omega)]
      exact ⟨_, _, rfl, by simp only [UInt8.reduceToNat]; omega⟩

/-- The same for four bytes, where the number is not too large for a character. -/
theorem start_four (hle : 0xffff < n) (hvalid : n.isValidChar) :
    ∃ low high : UInt8, start (UInt8.ofNat (n / 262144 % 8 + 240)) = .inr ⟨n / 262144, 3, low, high⟩ ∧
      low.toNat ≤ n / 4096 % 64 + 128 ∧ n / 4096 % 64 + 128 ≤ high.toNat := by
  unfold Nat.isValidChar at hvalid
  have hn : (UInt8.ofNat (n / 262144 % 8 + 240)).toNat = n / 262144 + 240 := by
    rw [UInt8.toNat_ofNat']
    omega
  have hbits : (n / 262144 + 240) % 8 = n / 262144 := by omega
  unfold start
  dsimp only
  rw [hn, if_neg (by omega), if_neg (by omega), if_neg (by omega), if_neg (by omega), if_neg (by omega),
    if_neg (by omega), hbits]
  split
  · exact ⟨_, _, rfl, by simp only [UInt8.reduceToNat]; omega⟩
  · split
    · exact ⟨_, _, rfl, by simp only [UInt8.reduceToNat]; omega⟩
    · rw [if_pos (by omega)]
      exact ⟨_, _, rfl, by simp only [UInt8.reduceToNat]; omega⟩

/-! ## Characters and strings -/

/-- A character is read from its bytes, whatever follows them. -/
theorem decodeFrom_utf8EncodeChar (c : Char) (bs : List UInt8) :
    decodeFrom none (String.utf8EncodeChar c ++ bs) = c :: decodeFrom none bs := by
  have hvalid : c.val.toNat.isValidChar := c.valid
  have hc : Char.ofNat c.val.toNat = c := Char.ofNat_toNat c
  unfold String.utf8EncodeChar
  generalize c.val.toNat = n at *
  dsimp only
  subst hc
  split
  · have hbyte : (UInt8.ofNat n).toNat = n := by
      rw [UInt8.toNat_ofNat', Nat.mod_eq_of_lt (by omega)]
    have hstart : start (UInt8.ofNat n) = .inl (Char.ofNat n) := by
      unfold start
      dsimp only
      rw [hbyte, if_pos (by omega)]
    rw [List.singleton_append, decodeFrom, hstart]
  · simp only [apply_ite (· ++ bs), List.cons_append, List.nil_append]
    split
    · rw [decodeFrom_start (start_two (by omega) (by omega)), decodeFrom_last (continuation_bounds n),
        toNat_continuation]
      congr 2
      omega
    · split
      · obtain ⟨low, high, hstart, hsecond⟩ := start_three (by omega) (by omega) hvalid
        rw [← toNat_continuation] at hsecond
        rw [decodeFrom_start hstart, decodeFrom_next hsecond, decodeFrom_last (continuation_bounds n),
          toNat_continuation, toNat_continuation]
        congr 2
        omega
      · obtain ⟨low, high, hstart, hsecond⟩ := start_four (by omega) hvalid
        rw [← toNat_continuation] at hsecond
        rw [decodeFrom_start hstart, decodeFrom_next hsecond, decodeFrom_next (continuation_bounds _),
          decodeFrom_last (continuation_bounds n), toNat_continuation, toNat_continuation, toNat_continuation]
        congr 2
        omega

/-- Reading the bytes of a string gives the string. -/
theorem decode_toUTF8 (s : String) : decode s.toUTF8.data.toList = s := by
  have hchars : ∀ cs : List Char, decodeFrom none (cs.flatMap String.utf8EncodeChar) = cs := by
    intro cs
    induction cs with
    | nil => rfl
    | cons c cs ih => rw [List.flatMap_cons, decodeFrom_utf8EncodeChar, ih]
  rw [decode, toList_toUTF8, hchars, String.ofList_toList]

/-- Only strings with the zero character have a zero among their bytes. -/
theorem zero_notMem_toUTF8 {s : String} (h : '\x00' ∉ s.toList) : 0 ∉ s.toUTF8.data.toList := by
  rw [toList_toUTF8, List.mem_flatMap]
  rintro ⟨c, hc, hzero⟩
  exact zero_notMem_utf8EncodeChar (fun hnul => h (hnul ▸ hc)) hzero

end TargetLink.Utf8
