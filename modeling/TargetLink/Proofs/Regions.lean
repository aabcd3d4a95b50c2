import TargetLink.Proofs.Steps
import TargetLink.Target.Memory
import Mathlib.Data.List.Pairwise

/-!
# What regions of target memory keep

The regions of a well-formed memory lie one behind the other.  A region belongs to the allocation with
its address and its token (`Memory.Hosts`).  Storing bytes leaves every region where it is and as long
as it is, allocating and releasing leave the other regions alone.

`Memory.Keeps exposed before after` says of an allocation that its region stays, and that it keeps its
bytes except at the addresses that are exposed.
-/

namespace TargetLink

namespace Region

/-- A region begins and ends before the other one begins. -/
def Before (region other : Region) : Prop :=
  region.start.toNat < other.start.toNat ∧ region.limit ≤ other.start.toNat

/-- Two regions that do not meet lie one behind the other. Only one without bytes may begin where
the other one does. -/
theorem before_or_before {region other : Region}
    (hfree : ¬(other.start.toNat < region.limit ∧ region.start.toNat < other.limit)) :
    other.Before region ∨ region.Before other ∨
      other.start = region.start ∧ (other.bytes = [] ∨ region.bytes = []) := by
  have hempty : other.bytes.length = 0 ∨ region.bytes.length = 0 →
      other.bytes = [] ∨ region.bytes = [] :=
    Or.imp List.eq_nil_of_length_eq_zero List.eq_nil_of_length_eq_zero
  unfold Before
  unfold limit at *
  rcases Nat.lt_trichotomy other.start.toNat region.start.toNat with hlt | heq | hgt
  · exact Or.inl (by omega)
  · exact Or.inr (Or.inr ⟨UInt32.toNat_inj.mp heq, hempty (by omega)⟩)
  · exact Or.inr (Or.inl (by omega))

/-- The range from an address on lies inside the region. -/
def Spans (region : Region) (address : UInt32) (size : Nat) : Prop :=
  region.start.toNat ≤ address.toNat ∧ address.toNat + size ≤ region.limit

end Region

namespace Memory

/-- Regions lie in the address space, one behind the other, and their tokens were given away. -/
structure WellFormed (memory : Memory) : Prop where
  ordered : memory.regions.Pairwise Region.Before
  fits : ∀ region ∈ memory.regions, region.limit ≤ UInt32.size
  issued : ∀ region ∈ memory.regions, region.token < memory.nextToken

variable {memory memory' : Memory} {region other : Region} {regions : List Region}
  {address : UInt32} {size : Nat} {bytes : Bytes}

namespace WellFormed

theorem apart (h : memory.WellFormed) (hregion : region ∈ memory.regions)
    (hother : other ∈ memory.regions) (hne : region ≠ other) :
    region.Before other ∨ other.Before region := by
  have hordered : memory.regions.Pairwise fun r s => r.Before s ∨ s.Before r :=
    h.ordered.imp Or.inl
  have : Std.Symm fun r s : Region => r.Before s ∨ s.Before r := ⟨fun _ _ => Or.symm⟩
  exact hordered.forall hregion hother hne

theorem eq_of_start_eq (h : memory.WellFormed) (hregion : region ∈ memory.regions)
    (hother : other ∈ memory.regions) (hstart : region.start = other.start) : region = other := by
  by_contra hne
  rcases h.apart hregion hother hne with hbefore | hbefore
  · exact absurd hbefore.1 (hstart ▸ Nat.lt_irrefl _)
  · exact absurd hbefore.1 (hstart ▸ Nat.lt_irrefl _)

/-- An address lies in one region only. -/
theorem eq_of_owned (h : memory.WellFormed) (hregion : region ∈ memory.regions)
    (hother : other ∈ memory.regions) {address : Nat} (hle : region.start.toNat ≤ address)
    (hlt : address < region.limit) (hle' : other.start.toNat ≤ address) (hlt' : address < other.limit) :
    region = other := by
  by_contra hne
  rcases h.apart hregion hother hne with hbefore | hbefore
  · have := hbefore.2
    omega
  · have := hbefore.2
    omega

/-! ## Reading and writing -/

/-- A range that begins inside a region belongs to it, or to no region. -/
theorem regionOf? (h : memory.WellFormed) (hregion : region ∈ memory.regions)
    (hle : region.start ≤ address) (hlt : address.toNat < region.limit) :
    memory.regionOf? address size =
      if address.toNat + size ≤ region.limit then some region else none := by
  obtain ⟨first, rest, hregions⟩ := List.append_of_mem hregion
  have hrest : rest.filter (·.start ≤ address) = [] := by
    apply List.filter_eq_nil_iff.mpr
    intro other hother
    have hbefore : region.Before other := by
      have hordered := h.ordered
      rw [hregions] at hordered
      exact (List.pairwise_cons.mp (List.pairwise_append.mp hordered).2.1).1 other hother
    have hstart := hbefore.2
    simp only [decide_eq_true_eq, UInt32.le_iff_toNat_le]
    omega
  have hfilter : memory.regions.filter (·.start ≤ address) =
      first.filter (·.start ≤ address) ++ [region] := by
    rw [hregions, List.filter_append, List.filter_cons_of_pos (by simpa using hle), hrest]
  rw [Memory.regionOf?, hfilter, List.getLast?_concat]

/-- A byte of memory is a byte of the region that it lies in. -/
theorem load?_byte (h : memory.WellFormed) (hregion : region ∈ memory.regions)
    (hle : region.start ≤ address) (hlt : address.toNat < region.limit) :
    memory.load? address 1 = region.bytes[address.toNat - region.start.toNat]?.map ([·]) := by
  have hstart := UInt32.le_iff_toNat_le.mp hle
  have hindex : address.toNat - region.start.toNat < region.bytes.length := by
    unfold Region.limit at hlt
    omega
  rw [load?, h.regionOf? hregion hle hlt, if_pos (by omega), Option.bind_some, Bytes.window,
    if_pos (by omega), List.getElem?_eq_getElem hindex, List.drop_eq_getElem_cons hindex]
  rfl

end WellFormed

/-- What storing in a region makes of a region. -/
def overwritten (region : Region) (address : UInt32) (bytes : Bytes) (other : Region) : Region :=
  if other.start = region.start then
    { other with bytes := other.bytes.overwrite (address.toNat - other.start.toNat) bytes }
  else other

/-- The region that a range is looked up in holds all of it. -/
theorem spans_of_regionOf? (h : memory.regionOf? address size = some region) :
    region ∈ memory.regions ∧ region.Spans address size := by
  unfold Memory.regionOf? at h
  split at h
  · rename_i found hlast
    obtain ⟨hroom, heq⟩ := Option.ite_none_right_eq_some.mp h
    obtain rfl := Option.some.inj heq
    obtain ⟨hmem, hstart⟩ := List.mem_filter.mp (List.mem_of_getLast? hlast)
    exact ⟨hmem, UInt32.le_iff_toNat_le.mp (of_decide_eq_true hstart), hroom⟩
  · cases h

/-- Bytes are stored in one region, which has room for all of them. -/
theorem exists_region_of_store? (h : memory.store? address bytes = some memory') :
    ∃ region, memory.regionOf? address bytes.length = some region ∧ region.start ≤ address ∧
      address.toNat + bytes.length ≤ region.limit ∧
      memory' = { memory with regions := memory.regions.map (overwritten region address bytes) } := by
  obtain ⟨region, hregion, rfl⟩ := Option.map_eq_some_iff.mp h
  obtain ⟨-, hle, hroom⟩ := spans_of_regionOf? hregion
  exact ⟨region, hregion, UInt32.le_iff_toNat_le.mpr hle, hroom, rfl⟩

theorem overwritten_frame : (overwritten region address bytes other).start = other.start ∧
    (overwritten region address bytes other).token = other.token ∧
    (overwritten region address bytes other).limit = other.limit := by
  unfold overwritten
  split
  · exact ⟨rfl, rfl, by simp [Region.limit]⟩
  · exact ⟨rfl, rfl, rfl⟩

theorem length_overwritten :
    (overwritten region address bytes other).bytes.length = other.bytes.length := by
  unfold overwritten
  split
  · exact Bytes.length_overwrite _ _ _
  · rfl

theorem WellFormed.store (h : memory.WellFormed)
    (hstore : memory.store? address bytes = some memory') : memory'.WellFormed := by
  obtain ⟨region, -, -, -, rfl⟩ := exists_region_of_store? hstore
  refine ⟨List.pairwise_map.mpr (h.ordered.imp ?_), ?_, ?_⟩
  · intro r s hbefore
    unfold Region.Before
    rw [overwritten_frame.1, overwritten_frame.1, overwritten_frame.2.2]
    exact hbefore
  · intro r' hr'
    obtain ⟨r, hr, rfl⟩ := List.mem_map.mp hr'
    rw [overwritten_frame.2.2]
    exact h.fits r hr
  · intro r' hr'
    obtain ⟨r, hr, rfl⟩ := List.mem_map.mp hr'
    rw [overwritten_frame.2.1]
    exact h.issued r hr

/-! ## Placing and releasing -/

theorem mem_of_mem_insertRegion (h : other ∈ insertRegion region regions) :
    other = region ∨ other ∈ regions := by
  induction regions with
  | nil => exact Or.inl (List.mem_singleton.mp h)
  | cons r rest ih =>
    rw [insertRegion] at h
    split at h
    · rcases List.mem_cons.mp h with rfl | hrest
      · exact Or.inr List.mem_cons_self
      · exact (ih hrest).imp_right (List.mem_cons_of_mem r)
    · split at h
      · exact (List.mem_cons.mp h).imp_right (List.mem_cons_of_mem r)
      · exact List.mem_cons.mp h

theorem pairwise_insertRegion (h : regions.Pairwise Region.Before)
    (hfree : ∀ r ∈ regions, r.Before region ∨ region.Before r ∨ r.start = region.start) :
    (insertRegion region regions).Pairwise Region.Before := by
  -- a region that does not begin before the new one lies behind it, or it begins where it does
  have hbehind : ∀ r ∈ regions, region.start.toNat < r.start.toNat → region.Before r := by
    intro r hr hlt
    rcases hfree r hr with hbefore | hbefore | heq
    · exact absurd hbefore.1 (by omega)
    · exact hbefore
    · exact absurd hlt (heq ▸ Nat.lt_irrefl _)
  induction regions with
  | nil => exact List.pairwise_singleton _ _
  | cons r rest ih =>
    obtain ⟨hfirst, hrest⟩ := List.pairwise_cons.mp h
    have hr := hfree r List.mem_cons_self
    have hafter : ∀ s ∈ rest, region.start.toNat < r.start.toNat ∨ r.start = region.start →
        region.Before s := by
      intro s hs hle
      refine hbehind s (List.mem_cons_of_mem r hs) ?_
      have hlt := (hfirst s hs).1
      rcases hle with hle | heq
      · omega
      · exact heq ▸ hlt
    rw [insertRegion]
    split
    · rename_i hlt
      have hstart := UInt32.lt_iff_toNat_lt.mp hlt
      refine List.pairwise_cons.mpr ⟨fun s hs => ?_, ih hrest
        (fun s hs => hfree s (List.mem_cons_of_mem r hs))
        fun s hs => hbehind s (List.mem_cons_of_mem r hs)⟩
      rcases mem_of_mem_insertRegion hs with rfl | hs
      · rcases hr with hbefore | hbefore | heq
        · exact hbefore
        · exact absurd hbefore.1 (by omega)
        · exact absurd hstart (heq ▸ Nat.lt_irrefl _)
      · exact hfirst s hs
    · rename_i hge
      split
      · rename_i heq
        exact List.pairwise_cons.mpr ⟨fun s hs => hafter s hs (Or.inr heq), hrest⟩
      · rename_i hne
        have hlt : region.start.toNat < r.start.toNat := by
          have hne' : r.start.toNat ≠ region.start.toNat := fun heq => hne (UInt32.toNat_inj.mp heq)
          rw [UInt32.lt_iff_toNat_lt] at hge
          omega
        refine List.pairwise_cons.mpr ⟨fun s hs => ?_, h⟩
        rcases List.mem_cons.mp hs with rfl | hs
        · exact hbehind s List.mem_cons_self hlt
        · exact hafter s hs (Or.inl hlt)

/-- An inserted region takes the place of the one that begins where it does. -/
theorem perm_insertRegion (h : regions.Pairwise Region.Before) :
    (insertRegion region regions).Perm (region :: regions.filter (·.start ≠ region.start)) := by
  induction regions with
  | nil => exact List.Perm.refl _
  | cons r rest ih =>
    obtain ⟨hfirst, hrest⟩ := List.pairwise_cons.mp h
    -- what lies behind `r` does not begin where the inserted region does, unless `r` begins before
    have hlater (hle : region.start ≤ r.start) : rest.filter (·.start ≠ region.start) = rest := by
      refine List.filter_eq_self.mpr fun s hs => ?_
      have hlt := (hfirst s hs).1
      have hle' := UInt32.le_iff_toNat_le.mp hle
      refine decide_eq_true fun heq => ?_
      rw [heq] at hlt
      omega
    rw [insertRegion]
    split
    · rename_i hlt
      have hne : r.start ≠ region.start := UInt32.ne_of_lt hlt
      rw [List.filter_cons_of_pos (by simpa using hne)]
      exact ((ih hrest).cons r).trans (List.Perm.swap _ _ _)
    · rename_i hge
      have hle := UInt32.not_lt.mp hge
      split
      · rename_i heq
        rw [List.filter_cons_of_neg (by simpa using heq), hlater hle]
      · rename_i hne
        rw [List.filter_cons_of_pos (by simpa using hne), hlater hle]

/-- The addresses of a request that is placed lie in the address space, and no region meets them. -/
structure Free (memory : Memory) (address size : UInt32) : Prop where
  fits : address.toNat + size.toNat ≤ UInt32.size
  unmet : ∀ region ∈ memory.regions, region.meets address size = false

theorem unmet_of_collision? {size : UInt32} (h : memory.collision? address size = none) :
    ∀ region ∈ memory.regions, region.meets address size = false := by
  intro region hregion
  simpa using List.find?_eq_none.mp h region hregion

theorem free_of_probe {request : AllocRequest} {candidate : UInt32}
    (h : memory.probe request candidate = .free address) :
    memory.Free address request.memorySize := by
  unfold probe at h
  dsimp only at h
  split at h
  · cases h
  split at h
  · cases h
  rename_i hfits
  split at h
  · cases h
  rename_i hcollision
  obtain rfl := Probe.free.inj h
  refine ⟨?_, unmet_of_collision? hcollision⟩
  have hend := memory.heapEnd.toNat_lt_size
  omega

theorem free_of_search {request : AllocRequest} {steps : Nat} {candidate : UInt32}
    (h : memory.search request steps candidate = some address) :
    memory.Free address request.memorySize := by
  induction steps generalizing candidate with
  | zero => cases h
  | succ steps ih =>
    rw [search] at h
    split at h
    · rename_i hprobe
      exact Option.some.inj h ▸ free_of_probe hprobe
    · cases h
    · exact ih h

theorem free_of_place {request : AllocRequest} {cursor : UInt32}
    (h : memory.place request = .ok (address, cursor)) :
    memory.Free address request.memorySize := by
  unfold place at h
  split at h
  · split at h
    · rename_i hsearch
      obtain rfl := (Prod.mk.inj (Except.ok.inj h)).1
      exact free_of_search hsearch
    · cases h
  · split at h
    · cases h
    · rename_i hfits
      split at h
      · cases h
      · rename_i hcollision
        obtain rfl := (Prod.mk.inj (Except.ok.inj h)).1
        exact ⟨Nat.not_lt.mp hfits, unmet_of_collision? hcollision⟩

/-- The region of an allocation has these bytes. -/
def Hosts (memory : Memory) (allocation : Allocation) (bytes : Bytes) : Prop :=
  (⟨allocation.address, allocation.token, bytes⟩ : Region) ∈ memory.regions

/-- What allocating does. A region that begins at the address of the new one gives way to it, and
then one of the two is empty. -/
structure Allocated (memory : Memory) (request : AllocRequest) (allocation : Allocation)
    (memory' : Memory) : Prop where
  wellFormed : memory'.WellFormed
  free : memory.Free allocation.address allocation.size
  size : allocation.size = request.memorySize
  token : allocation.token = memory.nextToken
  regions : memory'.regions.Perm
    (⟨allocation.address, allocation.token, Bytes.zeros allocation.size.toNat⟩ ::
      memory.regions.filter (·.start ≠ allocation.address))
  replaced : ∀ region ∈ memory.regions, region.start = allocation.address →
    region.bytes = [] ∨ allocation.size = 0

namespace Allocated

variable {request : AllocRequest} {allocation : Allocation}

theorem hosts (h : Allocated memory request allocation memory') :
    memory'.Hosts allocation (Bytes.zeros allocation.size.toNat) :=
  h.regions.mem_iff.mpr List.mem_cons_self

theorem kept (h : Allocated memory request allocation memory') (hmem : region ∈ memory.regions)
    (hstart : region.start ≠ allocation.address) : region ∈ memory'.regions :=
  h.regions.mem_iff.mpr (List.mem_cons_of_mem _ (List.mem_filter.mpr ⟨hmem, by simpa using hstart⟩))

end Allocated

theorem WellFormed.allocate (h : memory.WellFormed) {request : AllocRequest}
    {allocation : Allocation} (hallocate : memory.allocate request = .ok (allocation, memory')) :
    Allocated memory request allocation memory' := by
  obtain ⟨⟨address, cursor⟩, hplace, hrest⟩ := exists_of_bind_eq_ok hallocate
  obtain ⟨rfl, rfl⟩ := Prod.mk.inj (Except.ok.inj hrest)
  have hfree := free_of_place hplace
  generalize hregion : (⟨address, memory.nextToken, Bytes.zeros request.memorySize.toNat⟩ : Region)
    = region
  have hlength : region.bytes.length = request.memorySize.toNat := by
    rw [← hregion]
    exact List.length_replicate
  have hstart : region.start = address := hregion ▸ rfl
  have hapart : ∀ other ∈ memory.regions, other.Before region ∨ region.Before other ∨
      other.start = region.start ∧ (other.bytes = [] ∨ region.bytes = []) := by
    intro other hother
    refine Region.before_or_before ?_
    have hunmet := hfree.unmet other hother
    simp only [Region.meets, Bool.and_eq_false_iff, decide_eq_false_iff_not] at hunmet
    simp only [Region.limit, hstart, hlength] at hunmet ⊢
    omega
  constructor
  case wellFormed =>
    refine ⟨pairwise_insertRegion h.ordered fun other hother =>
      (hapart other hother).imp_right (Or.imp_right And.left), fun r hr => ?_, fun r hr => ?_⟩
    · rcases mem_of_mem_insertRegion hr with rfl | hold
      · rw [Region.limit, hstart, hlength]
        exact hfree.fits
      · exact h.fits r hold
    · rcases mem_of_mem_insertRegion hr with rfl | hold
      · rw [← hregion]
        exact Nat.lt_succ_self _
      · exact Nat.lt_succ_of_lt (h.issued r hold)
  case free => exact hfree
  case size => rfl
  case token => rfl
  case regions =>
    subst hregion
    exact perm_insertRegion h.ordered
  case replaced =>
    intro other hother heq
    rcases hapart other hother with hbefore | hbefore | ⟨-, hempty⟩
    · exact absurd hbefore.1 (by rw [heq, hstart]; exact Nat.lt_irrefl _)
    · exact absurd hbefore.1 (by rw [heq, hstart]; exact Nat.lt_irrefl _)
    · refine hempty.imp_right fun hnil => UInt32.toNat_inj.mp ?_
      rw [hnil] at hlength
      exact hlength.symm

theorem WellFormed.release (h : memory.WellFormed) (allocation : Allocation) :
    (memory.release allocation).WellFormed where
  ordered := h.ordered.sublist List.filter_sublist
  fits region hregion := h.fits region (List.mem_filter.mp hregion).1
  issued region hregion := h.issued region (List.mem_filter.mp hregion).1

theorem mem_release {allocation : Allocation} (hregion : region ∈ memory.regions)
    (hother : region.start ≠ allocation.address ∨ region.token ≠ allocation.token) :
    region ∈ (memory.release allocation).regions := by
  refine List.mem_filter.mpr ⟨hregion, ?_⟩
  rcases hother with hstart | htoken
  · simp [hstart]
  · simp [htoken]

/-! ## The bytes of an allocation -/

/-- The region of an allocation stays and keeps its bytes, but for those at exposed addresses. -/
def Keeps (exposed : Nat → Prop) (before after : Memory) (allocation : Allocation) : Prop :=
  ∀ bytes, before.Hosts allocation bytes → ∃ bytes', after.Hosts allocation bytes' ∧
    bytes'.length = bytes.length ∧
    ∀ i < bytes.length, ¬exposed (allocation.address.toNat + i) → bytes'[i]? = bytes[i]?

variable {exposed : Nat → Prop} {middle : Memory} {allocation : Allocation}

namespace Keeps

protected theorem refl : Keeps exposed memory memory allocation :=
  fun bytes hhosts => ⟨bytes, hhosts, rfl, fun _ _ _ => rfl⟩

protected theorem trans (hfirst : Keeps exposed memory middle allocation)
    (hsecond : Keeps exposed middle memory' allocation) :
    Keeps exposed memory memory' allocation := by
  intro bytes hhosts
  obtain ⟨bytes', hhosts', hlength', hsame'⟩ := hfirst bytes hhosts
  obtain ⟨bytes'', hhosts'', hlength'', hsame''⟩ := hsecond bytes' hhosts'
  refine ⟨bytes'', hhosts'', hlength''.trans hlength', fun i hi hshut => ?_⟩
  exact (hsame'' i (hlength' ▸ hi) hshut).trans (hsame' i hi hshut)

theorem of_hosts (h : ∀ bytes, memory.Hosts allocation bytes → memory'.Hosts allocation bytes) :
    Keeps exposed memory memory' allocation :=
  fun bytes hhosts => ⟨bytes, h bytes hhosts, rfl, fun _ _ _ => rfl⟩

/-- Storing changes bytes at its own addresses only. -/
theorem of_store (hstore : memory.store? address bytes = some memory')
    (hexposed : ∀ i < bytes.length, exposed (address.toNat + i)) :
    Keeps exposed memory memory' allocation := by
  intro old hhosts
  obtain ⟨region, -, hle, -, rfl⟩ := exists_region_of_store? hstore
  have hmem := List.mem_map_of_mem (f := overwritten region address bytes) hhosts
  unfold overwritten at hmem
  by_cases hstart : allocation.address = region.start
  · rw [if_pos hstart] at hmem
    refine ⟨_, hmem, Bytes.length_overwrite _ _ _, fun i hi hshut => ?_⟩
    rw [Bytes.getElem?_overwrite _ _ _ _ hi, if_neg]
    rintro ⟨hlow, hhigh⟩
    have hstart' := UInt32.le_iff_toNat_le.mp (hstart ▸ hle)
    dsimp only at hlow hhigh
    refine hshut ?_
    have hinside := hexposed (allocation.address.toNat + i - address.toNat) (by omega)
    rwa [show address.toNat + (allocation.address.toNat + i - address.toNat) =
      allocation.address.toNat + i by omega] at hinside
  · rw [if_neg hstart] at hmem
    exact ⟨old, hmem, rfl, fun _ _ _ => rfl⟩

end Keeps

end Memory

end TargetLink
