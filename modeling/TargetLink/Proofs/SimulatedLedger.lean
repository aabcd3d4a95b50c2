import TargetLink.Proofs.Ledger
import TargetLink.Proofs.Regions
import TargetLink.Target.Simulated
import Mathlib.Data.Multiset.ZeroCons

/-!
# The ledger of the simulated target

An allocation that is out has a region of its size, which is not empty, and no two allocations share
one (`Memory.Holds`).  This is a ledger: every call that hands out or takes back memory keeps it right
(`SimulatedTarget.ledger`), and on the way the regions of all other allocations keep their bytes.
-/

namespace TargetLink

namespace Memory

/-- The allocation has a region of its size, which is not empty. -/
def Hosted (memory : Memory) (allocation : Allocation) : Prop :=
  ∃ bytes, memory.Hosts allocation bytes ∧ bytes.length = allocation.size.toNat ∧ bytes ≠ []

/-- Allocations keep their regions, and their bytes but for those at exposed addresses. -/
def KeepsAll (exposed : Nat → Prop) (old : Multiset Allocation) (before after : Memory) : Prop :=
  ∀ allocation ∈ old, Keeps exposed before after allocation

namespace KeepsAll

variable {exposed : Nat → Prop} {old : Multiset Allocation} {before middle after : Memory}

protected theorem refl : KeepsAll exposed old before before := fun _ _ => Keeps.refl

protected theorem trans (hfirst : KeepsAll exposed old before middle)
    (hsecond : KeepsAll exposed old middle after) : KeepsAll exposed old before after :=
  fun allocation hmem => (hfirst allocation hmem).trans (hsecond allocation hmem)

end KeepsAll

/-- The allocations that are out have regions of their own. -/
structure Holds (memory : Memory) (live : Multiset Allocation) : Prop where
  wellFormed : memory.WellFormed
  distinct : live.Nodup
  hosted : ∀ allocation ∈ live, memory.Hosted allocation

namespace Holds

variable {memory memory' : Memory} {live live' : Multiset Allocation} {allocation other : Allocation}
  {exposed : Nat → Prop} {address : UInt32} {bytes : Bytes}

theorem mono (h : memory.Holds live) (hle : live' ≤ live) : memory.Holds live' :=
  ⟨h.wellFormed, Multiset.nodup_of_le hle h.distinct,
    fun allocation hmem => h.hosted allocation (Multiset.mem_of_le hle hmem)⟩

theorem congr (h : memory.Holds live) (hwellFormed : memory'.WellFormed)
    (hkept : KeepsAll exposed live memory memory') : memory'.Holds live := by
  refine ⟨hwellFormed, h.distinct, fun allocation hmem => ?_⟩
  obtain ⟨bytes, hhosts, hlength, hbytes⟩ := h.hosted allocation hmem
  obtain ⟨bytes', hhosts', hlength', -⟩ := hkept allocation hmem bytes hhosts
  refine ⟨bytes', hhosts', hlength'.trans hlength, fun hnil => hbytes ?_⟩
  rw [hnil] at hlength'
  exact List.eq_nil_of_length_eq_zero hlength'.symm

/-- Two allocations that are out do not share their address. -/
theorem eq_of_address_eq (h : memory.Holds live) (hmem : allocation ∈ live) (hother : other ∈ live)
    (haddress : allocation.address = other.address) : allocation = other := by
  obtain ⟨bytes, hhosts, hlength, -⟩ := h.hosted allocation hmem
  obtain ⟨bytes', hhosts', hlength', -⟩ := h.hosted other hother
  obtain ⟨-, htoken, rfl⟩ := Region.mk.inj (h.wellFormed.eq_of_start_eq hhosts hhosts' haddress)
  have hsize := UInt32.toNat_inj.mp (hlength.symm.trans hlength')
  cases allocation
  cases other
  simp_all

/-! ## Calls -/

theorem allocate (exposed : Nat → Prop) (h : memory.Holds live) {request : AllocRequest}
    (hsize : request.memorySize ≠ 0) (hallocate : memory.allocate request = .ok (allocation, memory')) :
    memory'.Holds (allocation ::ₘ live) ∧ KeepsAll exposed live memory memory' := by
  have hdone := h.wellFormed.allocate hallocate
  have hsize' : allocation.size ≠ 0 := hdone.size ▸ hsize
  have hkept : KeepsAll exposed live memory memory' := by
    intro old hold bytes hhosts
    obtain ⟨bytes', hhosts', -, hbytes⟩ := h.hosted old hold
    have heq := h.wellFormed.eq_of_start_eq hhosts hhosts' rfl
    obtain rfl : bytes = bytes' := congrArg Region.bytes heq
    have hstart : old.address ≠ allocation.address := fun heq =>
      (hdone.replaced _ hhosts heq).elim hbytes hsize'
    exact ⟨bytes, hdone.kept hhosts hstart, rfl, fun _ _ _ => rfl⟩
  have hrest := h.congr hdone.wellFormed hkept
  refine ⟨⟨hdone.wellFormed, Multiset.nodup_cons.mpr ⟨fun hmem => ?_, h.distinct⟩, ?_⟩, hkept⟩
  · -- the token of the new allocation was not given away before
    obtain ⟨bytes, hhosts, -⟩ := h.hosted allocation hmem
    have hissued := h.wellFormed.issued _ hhosts
    rw [hdone.token] at hissued
    exact Nat.lt_irrefl _ hissued
  · refine Multiset.forall_mem_cons.mpr ⟨?_, hrest.hosted⟩
    refine ⟨_, hdone.hosts, List.length_replicate, fun hnil => hsize' (UInt32.toNat_inj.mp ?_)⟩
    exact List.replicate_eq_nil_iff _ |>.mp hnil

theorem release (exposed : Nat → Prop) (h : memory.Holds (allocation ::ₘ live)) :
    (memory.release allocation).Holds live ∧
      KeepsAll exposed live memory (memory.release allocation) := by
  have hkept : KeepsAll exposed live memory (memory.release allocation) := by
    intro old hold
    refine Keeps.of_hosts fun bytes hhosts => mem_release hhosts (Or.inl fun haddress => ?_)
    have heq := h.eq_of_address_eq (Multiset.mem_cons_of_mem hold) (Multiset.mem_cons_self _ _) haddress
    exact (Multiset.nodup_cons.mp h.distinct).1 (heq ▸ hold)
  exact ⟨(h.mono (Multiset.le_cons_self _ _)).congr (h.wellFormed.release allocation) hkept, hkept⟩

theorem store (h : memory.Holds live) (hstore : memory.store? address bytes = some memory') :
    memory'.Holds live :=
  have hkept : KeepsAll (fun _ => True) live memory memory' :=
    fun _ _ => Keeps.of_store hstore fun _ _ => trivial
  h.congr (h.wellFormed.store hstore) hkept

/-- What is stored at the address of an allocation is stored in its region. -/
theorem keeps_of_store (h : memory.Holds live) (hmem : allocation ∈ live) (hother : other ∈ live)
    (hne : allocation ≠ other) (hstore : memory.store? other.address bytes = some memory') :
    Keeps exposed memory memory' allocation := by
  obtain ⟨own, hown, -, hbytes⟩ := h.hosted other hother
  obtain ⟨region, hregion, -, -, rfl⟩ := exists_region_of_store? hstore
  have hlt : other.address.toNat < (⟨other.address, other.token, own⟩ : Region).limit :=
    Nat.lt_add_of_pos_right (List.length_pos_iff.mpr hbytes)
  rw [h.wellFormed.regionOf? hown (UInt32.le_refl _) hlt] at hregion
  obtain ⟨-, heq⟩ := Option.ite_none_right_eq_some.mp hregion
  obtain rfl := Option.some.inj heq
  refine Keeps.of_hosts fun old hhosts => ?_
  have hkept := List.mem_map_of_mem (f := overwritten ⟨other.address, other.token, own⟩ other.address
    bytes) hhosts
  rwa [overwritten, if_neg fun haddress => hne (h.eq_of_address_eq hmem hother haddress)] at hkept

end Holds

end Memory

namespace SimulatedTarget

variable {target : SimulatedTarget}

theorem allocate_apply (request : AllocRequest) (target : SimulatedTarget) :
    Client.allocate request target = match target.memory.allocate request with
      | .ok (allocation, memory) => (.ok allocation, { target with memory })
      | .error e => (.error e, target) := by
  change SimulatedTarget.allocate request target = _
  simp only [SimulatedTarget.allocate, LoadM.bind_apply, LoadM.get_apply, LoadM.ofExcept_apply]
  rcases target.memory.allocate request with e | ⟨allocation, memory⟩ <;> rfl

theorem write_apply (address : UInt32) (bytes : Bytes) (target : SimulatedTarget) :
    Client.write address bytes target = match target.memory.store? address bytes with
      | some memory => (.ok (), { target with memory })
      | none => (.error (.memory (.unmappedWrite bytes.length address)), target) := by
  change SimulatedTarget.write address bytes target = _
  simp only [SimulatedTarget.write, LoadM.bind_apply, LoadM.get_apply]
  cases target.memory.store? address bytes <;> rfl

theorem read_apply (address : UInt32) (size : Nat) (target : SimulatedTarget) :
    Client.read address size target = match target.memory.load? address size with
      | some bytes => (.ok bytes, target)
      | none => (.error (.memory (.unmappedRead size address)), target) := by
  change SimulatedTarget.read address size target = _
  simp only [SimulatedTarget.read, LoadM.bind_apply, LoadM.get_apply]
  cases target.memory.load? address size <;> rfl

theorem read_unchanged (address : UInt32) (size : Nat) (target : SimulatedTarget) :
    (Client.read address size target).2 = target := by
  rw [read_apply]
  cases target.memory.load? address size <;> rfl

theorem copy_apply (image : Image) (request : CopyRequest) (target : SimulatedTarget) :
    Client.copy image request target = (request.stage image, target) := by
  change SimulatedTarget.copy image request target = _
  rw [SimulatedTarget.copy, LoadM.ofExcept_apply]

theorem copy_unchanged (image : Image) (request : CopyRequest) (target : SimulatedTarget) :
    (Client.copy image request target).2 = target := by
  rw [copy_apply]

/-- Releasing what is not live takes no region away either. -/
theorem memory_release (allocation : Allocation) (target : SimulatedTarget) :
    (Client.release allocation target).2.memory = target.memory.release allocation := by
  change SimulatedTarget.memory (if target.memory.isLive allocation then _ else _) = _
  split
  · rfl
  · rename_i hlive
    have hkept : ∀ region ∈ target.memory.regions,
        (!(region.start == allocation.address && region.token == allocation.token)) = true := by
      simpa [Memory.isLive, imp_iff_not_or] using hlive
    rw [Memory.release, List.filter_eq_self.mpr hkept]

theorem unchanged_of_allocate_error {request : AllocRequest} {e : LoadError}
    (h : (Client.allocate request target).1 = .error e) :
    (Client.allocate request target).2 = target := by
  rw [allocate_apply] at h ⊢
  rcases hanswer : target.memory.allocate request with e' | ⟨new, memory⟩
  · rfl
  · rw [hanswer] at h
    cases h

variable {live : Multiset Allocation} {allocation : Allocation}

theorem holds_allocate (exposed : Nat → Prop) {request : AllocRequest}
    (hsize : request.memorySize ≠ 0) (h : target.memory.Holds live)
    (hok : (Client.allocate request target).1 = .ok allocation) :
    (Client.allocate request target).2.memory.Holds (allocation ::ₘ live) ∧
      Memory.KeepsAll exposed live target.memory (Client.allocate request target).2.memory := by
  rw [allocate_apply] at hok ⊢
  rcases hanswer : target.memory.allocate request with e | ⟨new, memory⟩ <;> rw [hanswer] at hok
  · cases hok
  · obtain rfl := Except.ok.inj hok
    exact h.allocate exposed hsize hanswer

theorem holds_release (exposed : Nat → Prop) (h : target.memory.Holds (allocation ::ₘ live)) :
    (Client.release allocation target).2.memory.Holds live ∧
      Memory.KeepsAll exposed live target.memory (Client.release allocation target).2.memory := by
  rw [memory_release]
  exact h.release exposed

theorem holds_write (h : target.memory.Holds live) (address : UInt32) (bytes : Bytes) :
    (Client.write address bytes target).2.memory.Holds live := by
  rw [write_apply]
  cases hstore : target.memory.store? address bytes with
  | none => exact h
  | some memory => exact h.store hstore

/-- What is out of the simulated target has regions of its own. -/
def ledger : Ledger SimulatedTarget where
  holds target live := target.memory.Holds live
  allocate hsize h hok := (holds_allocate (fun _ => True) hsize h hok).1
  allocate_error h herror := by
    rw [unchanged_of_allocate_error herror]
    exact h
  release h := (holds_release (fun _ => True) h).1
  copy h := by
    rw [copy_unchanged]
    exact h
  write h := holds_write h _ _
  read h := by
    rw [read_unchanged]
    exact h
  execute h := h
  openDependent h := h

end SimulatedTarget

end TargetLink
