import TargetLink.Proofs.GroupSequences
import Mathlib.Data.Int.ModEq

/-!
# The addends of instruction groups

A member of a group holds a magnitude, and its opcode or its direction bit says whether the addend is the
magnitude or its negative.  An eight-bit immediate can be rotated to anywhere in the word, so the magnitude
of an ALU instruction covers numbers that no signed word holds.  Read as a signed word it is still the same
number modulo 2 ^ 32, and so is its negative (`Group.addend_congruent`).  Only one magnitude has a negative
that no signed word holds, and a SUB can spell it in four ways (`Group.decodeImmediate_eq_intMin_iff`).
-/

namespace TargetLink.Relocation.Group

/-! ## Magnitude and sign -/

/-- What the offset field of an instruction stands for. -/
def magnitude (members : GroupClass) (instruction : BitVec 32) : BitVec 32 :=
  match members with
  | .alu => decodeImmediate instruction
  | .ldr => instruction &&& 0xfff
  | .ldrs => ((instruction >>> 4) &&& 0xf0) ||| (instruction &&& 0xf)
  | .ldc => (instruction &&& 0xff) <<< 2

/-- Whether an instruction takes its magnitude away: a SUB, or a load or store that counts down. -/
def subtracts (members : GroupClass) (instruction : BitVec 32) : Bool :=
  match members with
  | .alu => instruction &&& opcodeMask == subOpcode
  | .ldr | .ldrs | .ldc => instruction &&& upBit == 0

/-- An ALU instruction that is neither ADD nor SUB has no addend. -/
def Rejects (members : GroupClass) (instruction : BitVec 32) : Prop :=
  members = .alu ∧ instruction &&& opcodeMask ≠ addOpcode ∧ instruction &&& opcodeMask ≠ subOpcode

/-- The number that an instruction adds, without a limit to its size. -/
def contribution (members : GroupClass) (instruction : BitVec 32) : Int :=
  if subtracts members instruction then -(magnitude members instruction).toNat
  else (magnitude members instruction).toNat

/-- The magnitude is negated, and the negative of the signed word that it is read as is no signed word. -/
def NegationOverflows (members : GroupClass) (instruction : BitVec 32) : Prop :=
  subtracts members instruction ∧ 2 ^ 31 ≤ -(magnitude members instruction).toInt

variable {members : GroupClass} {instruction : BitVec 32}

theorem addend_of_rejects (h : Rejects members instruction) :
    addend members instruction = .error (.relocation (.notAddOrSub (UInt32.ofBitVec instruction))) := by
  obtain ⟨rfl, hadd, hsub⟩ := h
  rw [addend]
  dsimp only
  rw [if_neg hadd, if_neg hsub]

/-- Every other instruction gives its magnitude, as a signed word that may be negated. -/
theorem addend_of_not_rejects (h : ¬Rejects members instruction) :
    addend members instruction = .ok (if subtracts members instruction
      then -Int32.ofBitVec (magnitude members instruction)
      else Int32.ofBitVec (magnitude members instruction)) := by
  cases members with
  | alu =>
    by_cases hadd : instruction &&& opcodeMask = addOpcode
    · have hnot : (addOpcode == subOpcode) = false := by decide
      simp [addend, subtracts, magnitude, hadd, hnot]
    · have hsub : instruction &&& opcodeMask = subOpcode := by
        by_contra hsub
        exact h ⟨rfl, hadd, hsub⟩
      have hnot : subOpcode ≠ addOpcode := by decide
      simp [addend, subtracts, magnitude, hsub, hnot]
  | ldr => rfl
  | ldrs => rfl
  | ldc => rfl

/-- A word that is turned and turned back. -/
theorem rotateLeft_rotateRight (word : BitVec 32) {bits : Nat} (h : bits < 32) :
    (word.rotateRight bits).rotateLeft bits = word := by
  apply BitVec.eq_of_getLsbD_eq
  intro i hi
  rw [BitVec.getLsbD_rotateLeft_of_le h, BitVec.getLsbD_rotateRight_of_lt h,
    BitVec.getLsbD_rotateRight_of_lt h]
  by_cases hlow : i < bits
  · have hout : ¬32 - bits + i < 32 - bits := by omega
    have hin : 32 - bits + i < 32 := by omega
    rw [decide_eq_true hlow, decide_eq_false hout, decide_eq_true hin, cond_true, cond_false, Bool.true_and,
      Nat.add_sub_cancel_left]
  · have hin : i - bits < 32 - bits := by omega
    have hsum : bits + (i - bits) = i := by omega
    rw [decide_eq_false hlow, decide_eq_true hi, decide_eq_true hin, cond_false, cond_true, Bool.true_and,
      hsum]

/-- A byte that is turned to the smallest signed word. -/
theorem rotateRight_eq_intMin_iff {turn : Nat} (hturn : turn < 16) {low : Nat} (hlow : low < 0x100) :
    (BitVec.ofNat 32 low).rotateRight (2 * turn) = BitVec.intMin 32 ↔
      turn * 0x100 + low ∈ [0x102, 0x208, 0x320, 0x480] := by
  have hbyte : ∀ turn < 16, ((BitVec.intMin 32).rotateLeft (2 * turn)).toNat < 0x100 →
      turn * 0x100 + ((BitVec.intMin 32).rotateLeft (2 * turn)).toNat ∈ [0x102, 0x208, 0x320, 0x480] := by
    decide
  constructor
  · intro hturned
    have hinside : 2 * turn < 32 := by omega
    have hback := rotateLeft_rotateRight (BitVec.ofNat 32 low) hinside
    rw [hturned] at hback
    have hvalue := congrArg BitVec.toNat hback
    rw [BitVec.toNat_ofNat, Nat.mod_eq_of_lt (by omega)] at hvalue
    have hlisted := hbyte turn hturn
    rw [hvalue] at hlisted
    exact hlisted hlow
  · intro hlisted
    have hfour : (turn = 1 ∧ low = 2) ∨ (turn = 2 ∧ low = 8) ∨ (turn = 3 ∧ low = 0x20) ∨
        (turn = 4 ∧ low = 0x80) := by
      simp only [List.mem_cons, List.not_mem_nil, or_false] at hlisted
      omega
    rcases hfour with ⟨rfl, rfl⟩ | ⟨rfl, rfl⟩ | ⟨rfl, rfl⟩ | ⟨rfl, rfl⟩ <;> decide

/-- In four ways an immediate stands for the magnitude of the smallest signed word. -/
theorem decodeImmediate_eq_intMin_iff : decodeImmediate instruction = BitVec.intMin 32 ↔
    (instruction &&& 0xfff).toNat ∈ [0x102, 0x208, 0x320, 0x480] := by
  have hones : (0xfff : BitVec 32) = lowOnes 12 := by decide
  have hlt : (instruction &&& 0xfff).toNat < 0x1000 := by
    rw [hones, toNat_and_lowOnes _ (by decide)]
    exact Nat.mod_lt _ (by decide)
  generalize himmediate : (instruction &&& 0xfff).toNat = immediate at hlt ⊢
  have hturn : immediate / 0x100 < 16 := by omega
  have hlow : immediate % 0x100 < 0x100 := by omega
  have hsplit : immediate / 0x100 * 0x100 + immediate % 0x100 = immediate := by omega
  have hfield : instruction &&& 0xfff = BitVec.ofNat 32 immediate &&& 0xfff := by
    rw [← himmediate, BitVec.ofNat_toNat, BitVec.setWidth_eq, BitVec.and_assoc, BitVec.and_self]
  obtain ⟨hbyte, hrotation⟩ := decodeImmediate_fields hturn hlow
  rw [hsplit] at hbyte hrotation
  rw [decodeImmediate_congr hfield, decodeImmediate, hbyte, hrotation,
    rotateRight_eq_intMin_iff hturn hlow, hsplit]

/-! ## Negation -/

/-- Only the smallest signed word has a negative that is too large. -/
theorem le_neg_toInt_iff {word : BitVec 32} : 2 ^ 31 ≤ -word.toInt ↔ word = BitVec.intMin 32 := by
  have hlow : -2 ^ 31 ≤ word.toInt := word.le_toInt
  have hmin : (BitVec.intMin 32).toInt = -2 ^ 31 := BitVec.toInt_intMin_of_pos (by decide)
  rw [← BitVec.toInt_inj, hmin]
  omega

/-- The magnitudes of loads and stores have at most twelve bits. -/
theorem magnitude_ne_intMin (h : members ≠ .alu) : magnitude members instruction ≠ BitVec.intMin 32 := by
  intro hmin
  have hsign : (magnitude members instruction).getLsbD 31 = true := by rw [hmin]; decide
  cases members with
  | alu => exact h rfl
  | ldr => simp [magnitude] at hsign
  | ldrs => simp [magnitude] at hsign
  | ldc => simp [magnitude] at hsign

theorem negationOverflows_iff : NegationOverflows members instruction ↔
    members = .alu ∧ instruction &&& opcodeMask = subOpcode ∧
      (instruction &&& 0xfff).toNat ∈ [0x102, 0x208, 0x320, 0x480] := by
  rw [NegationOverflows, le_neg_toInt_iff]
  by_cases halu : members = .alu
  · subst halu
    rw [magnitude, decodeImmediate_eq_intMin_iff]
    simp [subtracts]
  · simp [halu, magnitude_ne_intMin halu]

/-- A word is the same number modulo 2 ^ 32 whether it is read with or without a sign. -/
theorem toInt_modEq (word : BitVec 32) : word.toInt ≡ word.toNat [ZMOD 2 ^ 32] := by
  rw [BitVec.toInt_eq_toNat_bmod]
  exact Int.bmod_emod

theorem neg_toInt_modEq (word : BitVec 32) : (-word).toInt ≡ -word.toInt [ZMOD 2 ^ 32] := by
  rw [BitVec.toInt_neg]
  exact Int.bmod_emod

/-- The addend of an instruction is what it contributes, as a signed word.  It is found by reading the
magnitude as a signed word, which may be negated; the negation is exact unless the instruction is one of the
four SUB immediates of 2 ^ 31, where it comes out as the number that was negated. -/
theorem addend_congruent (members : GroupClass) (instruction : BitVec 32) :
    (Rejects members instruction ∧ addend members instruction =
        .error (.relocation (.notAddOrSub (UInt32.ofBitVec instruction))) ∨
      ¬Rejects members instruction ∧ ∃ a, addend members instruction = .ok a ∧
        a.toInt ≡ contribution members instruction [ZMOD 2 ^ 32] ∧
        (NegationOverflows members instruction ∧ a.toInt = -2 ^ 31 ∨
          ¬NegationOverflows members instruction ∧
            a.toInt = if subtracts members instruction then -(magnitude members instruction).toInt
              else (magnitude members instruction).toInt)) ∧
    (NegationOverflows members instruction ↔
      members = .alu ∧ instruction &&& opcodeMask = subOpcode ∧
        (instruction &&& 0xfff).toNat ∈ [0x102, 0x208, 0x320, 0x480]) := by
  refine ⟨?_, negationOverflows_iff⟩
  by_cases hrejects : Rejects members instruction
  · exact .inl ⟨hrejects, addend_of_rejects hrejects⟩
  refine .inr ⟨hrejects, _, addend_of_not_rejects hrejects, ?_⟩
  have hmod := toInt_modEq (magnitude members instruction)
  unfold contribution NegationOverflows
  rw [le_neg_toInt_iff]
  cases subtracts members instruction with
  | false => exact ⟨hmod, .inr ⟨fun h => Bool.false_ne_true h.1, rfl⟩⟩
  | true =>
    refine ⟨(neg_toInt_modEq _).trans hmod.neg, ?_⟩
    by_cases hmin : magnitude members instruction = BitVec.intMin 32
    · refine .inl ⟨⟨rfl, hmin⟩, ?_⟩
      rw [hmin]
      decide
    · exact .inr ⟨fun h => hmin h.2, BitVec.toInt_neg_of_ne_intMin hmin⟩

/-- Subtracting 2 ^ 31 from the program counter negates the smallest signed word. -/
theorem smallest_negated :
    NegationOverflows .alu 0xe24f0102 ∧ addend .alu 0xe24f0102 = .ok Int32.minValue ∧
      storedAddend .arm 58 ⟨[0x02, 0x01, 0x4f, 0xe2], 0, .little⟩ = .ok Int32.minValue := by
  refine ⟨⟨by decide, by decide⟩, by decide, by decide⟩

end TargetLink.Relocation.Group
