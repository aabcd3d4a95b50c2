import TargetLink.Proofs.Regions
import Mathlib.Data.Nat.ModEq

/-!
# The search for heap memory

The search raises a candidate to the next address that keeps the offset of the segment into its
alignment, and if a region is in the way, the end of the region is the next candidate.  Both steps lead
upwards, so the search stays behind its first candidate.  The one exception is a region that reaches the
end of the address space (`Memory.Topped`): behind it the search starts over at zero.
-/

namespace TargetLink

namespace Memory

/-! ## Alignments -/

theorem isPowerOfTwo_iff {align : UInt32} :
    align.toNat.isPowerOfTwo ↔ align ≠ 0 ∧ align &&& (align - 1) = 0 := by
  by_cases hzero : align = 0
  · subst hzero
    refine iff_of_false (fun ⟨k, hk⟩ => ?_) fun h => h.1 rfl
    exact absurd hk.symm (Nat.pow_pos Nat.two_pos).ne'
  · have hne : align.toNat ≠ 0 := fun h => hzero (UInt32.toNat_inj.mp h)
    have hone : (1 : UInt32) ≤ align := UInt32.le_iff_toNat_le.mpr (Nat.pos_of_ne_zero hne)
    rw [← Nat.and_sub_one_eq_zero_iff_isPowerOfTwo hne, ← UInt32.toNat_inj, UInt32.toNat_and,
      UInt32.toNat_sub_of_le _ _ hone]
    exact (and_iff_right hzero).symm

theorem alignment_eq (request : AllocRequest) : alignment request =
    if request.align.toNat.isPowerOfTwo then request.align.toNat else 4 := by
  unfold alignment
  simp only [isPowerOfTwo_iff]

/-- The address space is made up of whole alignments. -/
theorem alignment_dvd (request : AllocRequest) : alignment request ∣ UInt32.size := by
  rw [alignment_eq]
  split
  · rename_i hpower
    obtain ⟨k, hk⟩ := hpower
    have hlt : 2 ^ k < 2 ^ 32 := hk ▸ request.align.toNat_lt
    rw [hk]
    exact Nat.pow_dvd_pow 2 (Nat.le_of_lt ((Nat.pow_lt_pow_iff_right (by decide)).mp hlt))
  · decide

/-- A raised address lies behind the candidate and inside the address space. -/
theorem raised_bounds {align candidate : Nat} (offset : Nat) (hdvd : align ∣ UInt32.size)
    (hroom : candidate + (align - 1) < UInt32.size) :
    let address := (candidate + (align - 1)) / align * align + offset % align
    candidate ≤ address ∧ address < UInt32.size ∧ address ≡ offset [MOD align] := by
  have hpos : 0 < align := Nat.pos_of_dvd_of_pos hdvd (by decide)
  obtain ⟨count, hcount⟩ := hdvd
  have hoffset := Nat.mod_lt offset hpos
  have hup : candidate + (align - 1) < (candidate + (align - 1)) / align * align + align :=
    Nat.lt_div_mul_add hpos
  -- the multiple below is not the last one, so that a whole alignment fits behind it
  have hdown : (candidate + (align - 1)) / align * align + align ≤ UInt32.size := by
    have hlt : (candidate + (align - 1)) / align < count :=
      Nat.div_lt_of_lt_mul (hcount ▸ hroom)
    calc (candidate + (align - 1)) / align * align + align
        = ((candidate + (align - 1)) / align + 1) * align := (Nat.succ_mul _ _).symm
      _ ≤ count * align := Nat.mul_le_mul_right align hlt
      _ = UInt32.size := by rw [hcount, Nat.mul_comm]
  refine ⟨by omega, by omega, ?_⟩
  exact (Nat.mul_add_mod' _ _ _).trans (Nat.mod_mod _ _)

/-! ## Searching -/

variable {memory memory' : Memory} {request : AllocRequest} {candidate address base cursor : UInt32}

/-- The segment of a request fits at an address of the heap window. -/
structure Suits (memory : Memory) (request : AllocRequest) (address : UInt32) : Prop where
  ends : address.toNat + request.memorySize.toNat ≤ memory.heapEnd.toNat
  aligned : address.toNat ≡ request.address.toNat [MOD alignment request]

/-- A region that starts below the end of the heap window reaches the end of the address space. -/
def Topped (memory : Memory) : Prop :=
  ∃ region ∈ memory.regions, region.start < memory.heapEnd ∧ region.limit = UInt32.size

instance (memory : Memory) : Decidable memory.Topped :=
  inferInstanceAs (Decidable (∃ _ ∈ _, _))

/-- One step of the search finds an address behind the candidate, or a region that ends there. -/
theorem probe_spec (memory : Memory) (request : AllocRequest) (candidate : UInt32) :
    match memory.probe request candidate with
    | .free address => memory.Suits request address ∧ candidate ≤ address
    | .full => True
    | .blocked next => ∃ region ∈ memory.regions, next = UInt32.ofNat region.limit ∧
        region.start < memory.heapEnd ∧ candidate.toNat < region.limit := by
  unfold probe
  dsimp only
  by_cases hroom : candidate.toNat + (alignment request - 1) ≥ UInt32.size
  · rw [if_pos hroom]
    trivial
  rw [if_neg hroom]
  obtain ⟨hle, hlt, hmod⟩ := raised_bounds request.address.toNat (alignment_dvd request)
    (Nat.not_le.mp hroom)
  generalize (candidate.toNat + (alignment request - 1)) / alignment request * alignment request +
    request.address.toNat % alignment request = raised at hle hlt hmod ⊢
  have hraised : (UInt32.ofNat raised).toNat = raised := UInt32.toNat_ofNat_of_lt' hlt
  rw [hraised]
  by_cases hfull : raised + request.memorySize.toNat > memory.heapEnd.toNat
  · rw [if_pos hfull]
    trivial
  rw [if_neg hfull]
  cases hcollision : memory.collision? (UInt32.ofNat raised) request.memorySize with
  | none =>
    refine ⟨⟨?_, ?_⟩, UInt32.le_iff_toNat_le.mpr ?_⟩
    · rw [hraised]
      exact Nat.not_lt.mp hfull
    · rwa [hraised]
    · rwa [hraised]
  | some region =>
    have hmeets := List.find?_some hcollision
    simp only [Region.meets, Bool.and_eq_true, decide_eq_true_eq, hraised] at hmeets
    exact ⟨region, List.mem_of_find?_eq_some hcollision, rfl, UInt32.lt_iff_toNat_lt.mpr (by omega),
      by omega⟩

/-- The search stays behind its first candidate, but for a region at the end of the address space. -/
theorem WellFormed.search_spec (h : memory.WellFormed) {steps : Nat}
    (hsearch : memory.search request steps candidate = some address)
    (hbase : base ≤ candidate ∨ memory.Topped) :
    memory.Suits request address ∧ (base ≤ address ∨ memory.Topped) := by
  induction steps generalizing candidate with
  | zero => cases hsearch
  | succ steps ih =>
    have hprobe := probe_spec memory request candidate
    rw [search] at hsearch
    split at hsearch
    · rename_i found hfound
      obtain rfl := Option.some.inj hsearch
      rw [hfound] at hprobe
      exact ⟨hprobe.1, hbase.imp_left fun hle => UInt32.le_trans hle hprobe.2⟩
    · cases hsearch
    · rename_i next hnext
      rw [hnext] at hprobe
      obtain ⟨region, hregion, rfl, hstart, hbehind⟩ := hprobe
      refine ih hsearch ?_
      rcases Nat.lt_or_eq_of_le (h.fits region hregion) with hlt | heq
      · refine hbase.imp_left fun hle => UInt32.le_iff_toNat_le.mpr ?_
        rw [UInt32.toNat_ofNat_of_lt' hlt]
        exact (UInt32.le_iff_toNat_le.mp hle).trans (Nat.le_of_lt hbehind)
      · exact Or.inr ⟨region, hregion, hstart, heq⟩

/-- Where a request goes. A relocatable one leaves the cursor behind its segment, any other one does
not move it. -/
theorem WellFormed.place_spec (h : memory.WellFormed)
    (hplace : memory.place request = .ok (address, cursor))
    (hbase : base ≤ memory.cursor ∨ memory.Topped) :
    (base ≤ cursor ∨ memory.Topped) ∧ (request.relocatable = true →
      memory.Suits request address ∧ (base ≤ address ∨ memory.Topped)) := by
  unfold place at hplace
  split at hplace
  · split at hplace
    · rename_i found hsearch
      obtain ⟨rfl, rfl⟩ := Prod.mk.inj (Except.ok.inj hplace)
      have hfound := h.search_spec hsearch hbase
      refine ⟨hfound.2.imp_left fun hle => UInt32.le_iff_toNat_le.mpr ?_, fun _ => hfound⟩
      have hends := hfound.1.ends
      have hlt := memory.heapEnd.toNat_lt
      rw [UInt32.toNat_add, Nat.mod_eq_of_lt (by omega)]
      exact (UInt32.le_iff_toNat_le.mp hle).trans (Nat.le_add_right _ _)
    · cases hplace
  · rename_i hfixed
    split at hplace
    · cases hplace
    · split at hplace
      · cases hplace
      · obtain ⟨rfl, rfl⟩ := Prod.mk.inj (Except.ok.inj hplace)
        exact ⟨hbase, fun hrelocatable => absurd hrelocatable hfixed⟩

theorem frame_of_allocate {allocation : Allocation}
    (h : memory.allocate request = .ok (allocation, memory')) :
    memory'.heapEnd = memory.heapEnd ∧ memory'.nextToken = memory.nextToken + 1 := by
  obtain ⟨⟨address, cursor⟩, -, hrest⟩ := exists_of_bind_eq_ok h
  obtain ⟨-, rfl⟩ := Prod.mk.inj (Except.ok.inj hrest)
  exact ⟨rfl, rfl⟩

/-- Allocating keeps to the heap window as placing does. -/
theorem WellFormed.allocate_window (h : memory.WellFormed) {allocation : Allocation}
    (hallocate : memory.allocate request = .ok (allocation, memory'))
    (hbase : base ≤ memory.cursor ∨ memory.Topped) :
    (base ≤ memory'.cursor ∨ memory.Topped) ∧ (request.relocatable = true →
      memory.Suits request allocation.address ∧ (base ≤ allocation.address ∨ memory.Topped)) := by
  obtain ⟨⟨address, cursor⟩, hplace, hrest⟩ := exists_of_bind_eq_ok hallocate
  obtain ⟨rfl, rfl⟩ := Prod.mk.inj (Except.ok.inj hrest)
  exact h.place_spec hplace hbase

end Memory

end TargetLink
