import TargetLink.Proofs.Isolation
import TargetLink.Proofs.Views

/-!
# Where modules live

The segments of resident modules lie in the address space, and no two of them have an address in common
(`Module.Laid`).  In the memory of the simulated target every segment is one region, so a range of a
segment is read as a whole (`Module.Lodged.load?_of_reads`).  Placing a graph lodges its modules so, and
from there on no segment moves.
-/

namespace TargetLink

open TargetLink.Module (handlesOf allocationsOf)

/-- The segments have no address in common. -/
def Segment.Apart (segment other : Segment) : Prop :=
  ∀ address, segment.Owns address → ¬other.Owns address

theorem Segment.Apart.symm {segment other : Segment} (h : segment.Apart other) :
    other.Apart segment :=
  fun address hother howns => h address howns hother

/-- Ranges in segments that are apart are apart. -/
theorem Segment.Apart.beside {segment other : Segment} (h : segment.Apart other)
    {address address' : UInt32} {size size' : Nat} (hfits : segment.Fits) (hfits' : other.Fits)
    (hspans : segment.Spans address size) (hspans' : other.Spans address' size') {i : Nat}
    (hi : i < size) :
    address.toNat + i < address'.toNat ∨ address'.toNat + size' ≤ address.toNat + i := by
  by_contra hinside
  have howns' := hspans'.owns hfits' (i := address.toNat + i - address'.toNat) (by omega)
  rw [show address'.toNat + (address.toNat + i - address'.toNat) = address.toNat + i by omega]
    at howns'
  exact h _ (hspans.owns hfits hi) howns'

/-- Modules under handles of their own, with segments in addresses of their own. -/
structure Module.Laid (modules : List Module) : Prop where
  distinct : (handlesOf modules).Nodup
  fits : ∀ m ∈ modules, ∀ segment ∈ m.segments, segment.Fits
  apart : (modules.flatMap (·.segments)).Pairwise Segment.Apart

namespace Module.Laid

variable {modules : List Module} {m n : Module}

theorem apart_within (h : Laid modules) (hm : m ∈ modules) : m.segments.Pairwise Segment.Apart :=
  (List.pairwise_flatMap.mp h.apart).1 m hm

theorem apart_of_ne (h : Laid modules) (hm : m ∈ modules) (hn : n ∈ modules)
    (hne : m.handle ≠ n.handle) {segment other : Segment} (hsegment : segment ∈ m.segments)
    (hother : other ∈ n.segments) : segment.Apart other := by
  have hsymm : Std.Symm fun m n : Module =>
      ∀ segment ∈ m.segments, ∀ other ∈ n.segments, segment.Apart other :=
    ⟨fun _ _ hapart segment hsegment other hother => (hapart other hother segment hsegment).symm⟩
  exact (List.pairwise_flatMap.mp h.apart).2.forall hm hn
    (fun heq => hne (congrArg (·.handle) heq)) segment hsegment other hother

end Module.Laid

namespace Memory.Holds

variable {memory : Memory} {live : Multiset Allocation} {segment : Segment}

/-- The memory of a segment is one region. -/
theorem exists_region (h : memory.Holds live) (hmem : segment.allocation ∈ live)
    (hsize : segment.allocation.size = segment.memorySize) :
    ∃ region ∈ memory.regions, region.start = segment.address ∧
      region.limit = segment.address.toNat + segment.memorySize.toNat := by
  obtain ⟨bytes, hhosts, hlength, -⟩ := h.hosted _ hmem
  refine ⟨_, hhosts, rfl, ?_⟩
  rw [← hsize, ← hlength]
  rfl

theorem fits (h : memory.Holds live) (hmem : segment.allocation ∈ live)
    (hsize : segment.allocation.size = segment.memorySize) : segment.Fits := by
  obtain ⟨region, hregion, -, hlimit⟩ := h.exists_region hmem hsize
  exact hlimit.symm.le.trans (h.wellFormed.fits region hregion)

end Memory.Holds

namespace Module

variable {modules : List Module} {m : Module} {segment : Segment} {memory memory' : Memory}

theorem mem_allocationsOf (hm : m ∈ modules) (hsegment : segment ∈ m.segments) :
    segment.allocation ∈ allocationsOf modules :=
  List.mem_flatMap.mpr ⟨m, hm, List.mem_map_of_mem hsegment⟩

/-- The memory of every segment is its own. -/
structure Lodged (modules : List Module) (memory : Memory) : Prop where
  laid : Laid modules
  holds : memory.Holds (allocationsOf modules)
  sized : ∀ m ∈ modules, ∀ segment ∈ m.segments, segment.allocation.size = segment.memorySize

namespace Lodged

theorem of_holds (hdistinct : (handlesOf modules).Nodup) (hholds : memory.Holds (allocationsOf modules))
    (hsized : ∀ m ∈ modules, ∀ segment ∈ m.segments, segment.allocation.size = segment.memorySize) :
    Lodged modules memory := by
  refine ⟨⟨hdistinct, fun m hm segment hsegment =>
    hholds.fits (mem_allocationsOf hm hsegment) (hsized m hm segment hsegment), ?_⟩, hholds, hsized⟩
  have hown : (modules.flatMap (·.segments)).Pairwise fun s t => s.allocation ≠ t.allocation := by
    have hnodup := hholds.distinct
    rw [allocationsOf, ← List.map_flatMap] at hnodup
    exact List.pairwise_map.mp (Multiset.coe_nodup.mp hnodup)
  refine hown.imp_of_mem fun {segment other} hsegment hother hne address howns howns' => hne ?_
  obtain ⟨m, hm, hsegment⟩ := List.mem_flatMap.mp hsegment
  obtain ⟨n, hn, hother⟩ := List.mem_flatMap.mp hother
  refine hholds.eq_of_owned (mem_allocationsOf hm hsegment) (mem_allocationsOf hn hother) howns.1 ?_
    howns'.1 ?_
  · rw [hsized m hm segment hsegment]
    exact howns.2
  · rw [hsized n hn other hother]
    exact howns'.2

/-- What is seen in a range of a segment is what is read there. -/
theorem exists_load? (h : Lodged modules memory) (hm : m ∈ modules) (hsegment : segment ∈ m.segments)
    {address : UInt32} {size : Nat} (hspans : segment.Spans address size) (hsize : 0 < size) :
    ∃ bytes, memory.load? address size = some bytes ∧ bytes.length = size ∧
      ∀ i < size, ∀ byte, memory.view (address.toNat + i) byte → bytes[i]? = some byte := by
  obtain ⟨region, hregion, hstart, hlimit⟩ := h.holds.exists_region (mem_allocationsOf hm hsegment)
    (h.sized m hm segment hsegment)
  obtain ⟨hle, hend⟩ := hspans.range (h.laid.fits m hm segment hsegment)
  exact h.holds.wellFormed.exists_load? hregion (hstart ▸ hle) (hlimit ▸ hend) hsize

theorem load?_of_reads (h : Lodged modules memory) (hm : m ∈ modules)
    (hsegment : segment ∈ m.segments) {address : UInt32} {bytes : Bytes}
    (hspans : segment.Spans address bytes.length) (hbytes : 0 < bytes.length)
    (hreads : memory.view.Reads address.toNat bytes) :
    memory.load? address bytes.length = some bytes := by
  obtain ⟨found, hload, hlength, hseen⟩ := h.exists_load? hm hsegment hspans hbytes
  rw [hload, Option.some_inj]
  apply List.ext_getElem?
  intro i
  by_cases hi : i < bytes.length
  · have hbyte := List.getElem?_eq_getElem hi
    rw [hbyte]
    exact hseen i hi _ (hreads i _ hbyte)
  · rw [List.getElem?_eq_none (by omega), List.getElem?_eq_none (by omega)]

end Lodged

end Module

/-! ## Placing a graph -/

/-- The modules of a placed graph are lodged. -/
theorem Loading.lodged_of_place {start : Loader SimulatedTarget}
    (hstart : start.Sound SimulatedTarget.ledger) (hhoused : start.Housed) {image : Image}
    {placed : Handle × Handle} {loading : Loading SimulatedTarget}
    (h : place image { loader := start } = (.ok placed, loading)) :
    Module.Lodged loading.loader.modules loading.loader.client.memory := by
  have hplaced := ((place_triple hstart image).ok rfl h).1
  refine .of_holds hplaced.distinct hplaced.toBooks.memory_holds fun m hm segment hsegment => ?_
  apply SimulatedTarget.size_of_granted
  have hwalked := walked_place image { loader := start }
  rw [h] at hwalked
  exact (hwalked.segments segment (List.mem_flatMap.mpr ⟨m, hm, hsegment⟩)).elim (hhoused segment) id

end TargetLink
