import TargetLink.Module.Draft
import TargetLink.Proofs.SimulatedLedger
import Mathlib.Data.List.Forall2

/-!
# Bytes at final addresses

A byte of a new module is a byte of a staged segment first and a byte of target memory later.  A
`View` says which byte is seen at which final address, so that both are spoken of in one way:
`Segment.view` is the view of segments with staged contents, and `Memory.view` that of target memory.

Storing bytes lays them over a view, and whatever lies beside them is seen as before (`View.Overlay`).
`Draft.overlay_stageIn` says so of staged contents and `Memory.overlay_store` of target memory.
-/

namespace TargetLink

/-- Which byte is seen at which final address. -/
def View := Nat → UInt8 → Prop

namespace View

/-- These bytes are seen from the address on. -/
def Reads (view : View) (address : Nat) (bytes : Bytes) : Prop :=
  ∀ i byte, bytes[i]? = some byte → view (address + i) byte

/-- Bytes were laid over a view at an address. Beside them nothing changed. -/
structure Overlay (before after : View) (address : Nat) (bytes : Bytes) : Prop where
  fresh : after.Reads address bytes
  kept : ∀ a byte, (a < address ∨ address + bytes.length ≤ a) → before a byte → after a byte

theorem or_comm (view other : View) :
    (fun address byte => view address byte ∨ other address byte) =
      fun address byte => other address byte ∨ view address byte :=
  funext fun _ => funext fun _ => propext Or.comm

variable {before after : View} {address : Nat} {bytes : Bytes}

theorem Reads.mono (h : before.Reads address bytes)
    (hkept : ∀ i < bytes.length, ∀ byte, before (address + i) byte → after (address + i) byte) :
    after.Reads address bytes :=
  fun i byte hbyte => hkept i (List.getElem?_eq_some_iff.mp hbyte).1 byte (h i byte hbyte)

end View

/-! ## Staged segments -/

namespace Segment

variable {segment : Segment} {segments : List Segment} {blocks : List Bytes} {address : UInt32}
  {size : Nat}

/-- The final address is one of the segment's. -/
def Owns (segment : Segment) (address : Nat) : Prop :=
  segment.address.toNat ≤ address ∧ address < segment.address.toNat + segment.memorySize.toNat

/-- The range from a final address on lies inside the segment. -/
def Spans (segment : Segment) (address : UInt32) (size : Nat) : Prop :=
  segment.contains address ∧ (address - segment.address).toNat + size ≤ segment.memorySize.toNat

instance (segment : Segment) (address : UInt32) (size : Nat) :
    Decidable (segment.Spans address size) :=
  inferInstanceAs (Decidable (_ ∧ _))

/-- The segment ends inside the address space. -/
def Fits (segment : Segment) : Prop :=
  segment.address.toNat + segment.memorySize.toNat ≤ UInt32.size

/-- An address in a segment that does not wrap around lies behind its start. -/
theorem toNat_sub_of_contains (hfits : segment.Fits) (h : segment.contains address) :
    segment.address.toNat ≤ address.toNat ∧
      (address - segment.address).toNat = address.toNat - segment.address.toNat := by
  have hlt : (address - segment.address).toNat < segment.memorySize.toNat :=
    UInt32.lt_iff_toNat_lt.mp (of_decide_eq_true h)
  unfold Fits UInt32.size at hfits
  have haddress := address.toNat_lt
  have hstart := segment.address.toNat_lt
  rw [UInt32.toNat_sub] at hlt ⊢
  omega

theorem Spans.range (h : segment.Spans address size) (hfits : segment.Fits) :
    segment.address.toNat ≤ address.toNat ∧
      address.toNat + size ≤ segment.address.toNat + segment.memorySize.toNat := by
  obtain ⟨hle, hsub⟩ := toNat_sub_of_contains hfits h.1
  have hroom := h.2
  omega

theorem Spans.owns (h : segment.Spans address size) (hfits : segment.Fits) {i : Nat} (hi : i < size) :
    segment.Owns (address.toNat + i) := by
  have hrange := h.range hfits
  unfold Owns
  omega

/-- A part of a range inside a segment lies inside the segment. -/
theorem Spans.within (h : segment.Spans address size) (hfits : segment.Fits) {offset part : Nat}
    (hpart : 0 < part) (hroom : offset + part ≤ size) :
    (address + UInt32.ofNat offset).toNat = address.toNat + offset ∧
      segment.Spans (address + UInt32.ofNat offset) part := by
  obtain ⟨hle, hend⟩ := h.range hfits
  unfold Fits UInt32.size at hfits
  have hplace : (address + UInt32.ofNat offset).toNat = address.toNat + offset := by
    rw [UInt32.toNat_add, UInt32.toNat_ofNat']
    omega
  have hstart := segment.address.toNat_lt
  have hsub : (address + UInt32.ofNat offset - segment.address).toNat =
      address.toNat + offset - segment.address.toNat := by
    rw [UInt32.toNat_sub, hplace]
    omega
  refine ⟨hplace, decide_eq_true (UInt32.lt_iff_toNat_lt.mpr ?_), ?_⟩
  · rw [hsub]
    omega
  · rw [hsub]
    omega

/-- The blocks are the contents of the segments, each as long as the memory of its segment. -/
abbrev Fill (segments : List Segment) (blocks : List Bytes) : Prop :=
  List.Forall₂ (fun segment block => segment.Fits ∧ block.length = segment.memorySize.toNat)
    segments blocks

/-- The view of one segment with its contents. -/
def blockView (segment : Segment) (block : Bytes) : View := fun address byte =>
  segment.address.toNat ≤ address ∧ block[address - segment.address.toNat]? = some byte

/-- The view of segments with staged contents. -/
def view (segments : List Segment) (blocks : List Bytes) : View := fun address byte =>
  ∃ entry ∈ segments.zip blocks, blockView entry.1 entry.2 address byte

theorem view_cons {block : Bytes} {address : Nat} {byte : UInt8} :
    view (segment :: segments) (block :: blocks) address byte ↔
      blockView segment block address byte ∨ view segments blocks address byte := by
  simp only [view, List.zip_cons_cons, List.mem_cons, exists_eq_or_imp]

theorem view_cons_eq {block : Bytes} : view (segment :: segments) (block :: blocks) =
    fun address byte => segment.blockView block address byte ∨ view segments blocks address byte :=
  funext fun _ => funext fun _ => propext view_cons

end Segment

namespace Draft

open Segment (Fill view_cons)

variable {segment : Segment} {segments : List Segment} {blocks blocks' : List Bytes}
  {address : UInt32} {bytes : Bytes}

/-- A segment that spans a range has room for its bytes. -/
theorem exists_stageIn (hfill : Fill segments blocks) (hsegment : segment ∈ segments)
    (hspans : segment.Spans address bytes.length) :
    ∃ blocks', stageIn address bytes segments blocks = some blocks' := by
  induction hfill with
  | nil => cases hsegment
  | @cons first block segments blocks hfirst _ ih =>
    rw [stageIn]
    split
    · exact ⟨_, rfl⟩
    · rename_i hroom
      rcases List.mem_cons.mp hsegment with rfl | hrest
      · exact absurd ⟨hspans.1, hfirst.2 ▸ hspans.2⟩ hroom
      · obtain ⟨rest, hstage⟩ := ih hrest
        exact ⟨block :: rest, by rw [hstage, Option.map_some]⟩

theorem fill_stageIn (hfill : Fill segments blocks)
    (h : stageIn address bytes segments blocks = some blocks') : Fill segments blocks' := by
  induction hfill generalizing blocks' with
  | nil => cases h
  | @cons first block segments blocks hfirst hrest ih =>
    rw [stageIn] at h
    split at h
    · obtain rfl := Option.some.inj h
      exact .cons ⟨hfirst.1, (Bytes.length_overwrite _ _ _).trans hfirst.2⟩ hrest
    · obtain ⟨rest, hstage, rfl⟩ := Option.map_eq_some_iff.mp h
      exact .cons hfirst (ih hstage)

/-- Bytes that are staged lie over the staged contents. -/
theorem overlay_stageIn (hfill : Fill segments blocks)
    (h : stageIn address bytes segments blocks = some blocks') :
    View.Overlay (Segment.view segments blocks) (Segment.view segments blocks') address.toNat bytes := by
  induction hfill generalizing blocks' with
  | nil => cases h
  | @cons first block segments blocks hfirst _ ih =>
    rw [stageIn] at h
    split at h
    · rename_i hroom
      obtain rfl := Option.some.inj h
      obtain ⟨hle, hsub⟩ := Segment.toNat_sub_of_contains hfirst.1 hroom.1
      rw [hsub] at hroom ⊢
      constructor
      case fresh =>
        intro i byte hbyte
        have hi := (List.getElem?_eq_some_iff.mp hbyte).1
        refine view_cons.mpr (Or.inl ⟨by omega, ?_⟩)
        rw [Bytes.getElem?_overwrite _ _ _ _ (by omega), if_pos (by omega)]
        rwa [show address.toNat + i - first.address.toNat - (address.toNat - first.address.toNat) = i
          by omega]
      case kept =>
        intro a byte hbeside hseen
        rcases view_cons.mp hseen with ⟨hbehind, hbyte⟩ | hseen
        · have ha := (List.getElem?_eq_some_iff.mp hbyte).1
          refine view_cons.mpr (Or.inl ⟨hbehind, ?_⟩)
          rwa [Bytes.getElem?_overwrite _ _ _ _ ha, if_neg (by omega)]
        · exact view_cons.mpr (Or.inr hseen)
    · obtain ⟨rest, hstage, rfl⟩ := Option.map_eq_some_iff.mp h
      have hrest := ih hstage
      constructor
      case fresh => exact fun i byte hbyte => view_cons.mpr (Or.inr (hrest.fresh i byte hbyte))
      case kept =>
        intro a byte hbeside hseen
        exact view_cons.mpr ((view_cons.mp hseen).imp_right (hrest.kept a byte hbeside))

end Draft

/-! ## Target memory -/

namespace Memory

variable {memory memory' : Memory} {region other : Region} {address : UInt32} {bytes : Bytes}

/-- The view of target memory. -/
def view (memory : Memory) : View := fun address byte =>
  ∃ region ∈ memory.regions, region.start.toNat ≤ address ∧
    region.bytes[address - region.start.toNat]? = some byte

/-- Bytes that are stored lie over target memory. -/
theorem overlay_store (h : memory.store? address bytes = some memory') :
    View.Overlay memory.view memory'.view address.toNat bytes := by
  obtain ⟨region, hregion, hle, hlimit, rfl⟩ := exists_region_of_store? h
  have hstart := UInt32.le_iff_toNat_le.mp hle
  unfold Region.limit at hlimit
  constructor
  case fresh =>
    intro i byte hbyte
    have hi := (List.getElem?_eq_some_iff.mp hbyte).1
    refine ⟨_, List.mem_map_of_mem ((spans_of_regionOf? hregion).1), ?_⟩
    rw [overwritten, if_pos rfl]
    refine ⟨by dsimp only; omega, ?_⟩
    dsimp only
    rw [Bytes.getElem?_overwrite _ _ _ _ (by omega), if_pos (by omega)]
    rwa [show address.toNat + i - region.start.toNat - (address.toNat - region.start.toNat) = i
      by omega]
  case kept =>
    rintro a byte hbeside ⟨other, hother, hbehind, hbyte⟩
    have ha := (List.getElem?_eq_some_iff.mp hbyte).1
    refine ⟨_, List.mem_map_of_mem hother, ?_⟩
    unfold overwritten
    split
    · rename_i hsame
      refine ⟨hbehind, ?_⟩
      rw [← hsame] at hstart
      dsimp only
      rwa [Bytes.getElem?_overwrite _ _ _ _ ha, if_neg (by omega)]
    · exact ⟨hbehind, hbyte⟩

/-- What is seen in a range that one region holds is what is read there. -/
theorem WellFormed.exists_load? (h : memory.WellFormed) (hregion : region ∈ memory.regions)
    (hle : region.start.toNat ≤ address.toNat) {size : Nat}
    (hlimit : address.toNat + size ≤ region.limit) (hsize : 0 < size) :
    ∃ bytes, memory.load? address size = some bytes ∧ bytes.length = size ∧
      ∀ i < size, ∀ byte, memory.view (address.toNat + i) byte → bytes[i]? = some byte := by
  rw [load?, h.regionOf? hregion (UInt32.le_iff_toNat_le.mpr hle) (by omega), if_pos hlimit,
    Option.bind_some, Bytes.window]
  unfold Region.limit at hlimit
  rw [if_pos (by omega)]
  refine ⟨_, rfl, ?_, ?_⟩
  · rw [List.length_take, List.length_drop]
    omega
  · rintro i hi byte ⟨other, hother, hle', hbyte⟩
    have hlt' := (List.getElem?_eq_some_iff.mp hbyte).1
    have hstart : region.start.toNat ≤ address.toNat + i := by omega
    have hend : address.toNat + i < region.limit ∧ address.toNat + i < other.limit := by
      unfold Region.limit
      omega
    obtain rfl := h.eq_of_owned hregion hother hstart hend.1 hle' hend.2
    rw [List.getElem?_take, if_pos hi, List.getElem?_drop, ← hbyte]
    congr 1
    omega

/-- Two allocations that are out have no address in common. -/
theorem Holds.eq_of_owned {live : Multiset Allocation} (h : memory.Holds live)
    {allocation other : Allocation} (hmem : allocation ∈ live) (hother : other ∈ live) {address : Nat}
    (hle : allocation.address.toNat ≤ address)
    (hlt : address < allocation.address.toNat + allocation.size.toNat)
    (hle' : other.address.toNat ≤ address)
    (hlt' : address < other.address.toNat + other.size.toNat) : allocation = other := by
  obtain ⟨bytes, hhosts, hlength, -⟩ := h.hosted allocation hmem
  obtain ⟨bytes', hhosts', hlength', -⟩ := h.hosted other hother
  rw [← hlength] at hlt
  rw [← hlength'] at hlt'
  have hsame := h.wellFormed.eq_of_owned hhosts hhosts' hle hlt hle' hlt'
  exact h.eq_of_address_eq hmem hother (congrArg Region.start hsame)

end Memory

end TargetLink
