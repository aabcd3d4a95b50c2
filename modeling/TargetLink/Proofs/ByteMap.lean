import TargetLink.Proofs.TargetRuns

/-!
# Target memory is one map of bytes

A range is looked up in the region that begins nearest below it.  Since regions lie one behind the other,
that finds a region whenever the range lies inside one (`Memory.WellFormed.isSome_regionOf?`).  So
memory is read and written as one map of bytes that is defined where regions are: what is written shows
in every later read that meets it, and nowhere else (`Memory.WellFormed.load?_store`).

A token is not used twice, so an allocation that was given back is gone for good
(`Memory.Retired`), whatever is placed at its address later.
-/

namespace TargetLink

/-- The bytes of a range from `start` on, after new bytes were laid over memory at an address. -/
def Bytes.laidOver (new : Bytes) (address start : Nat) (old : Bytes) : Bytes :=
  old.mapIdx fun i byte =>
    if address ≤ start + i then new[start + i - address]?.getD byte else byte

/-- A stretch of a block after new bytes replaced the old ones wherever they meet it. -/
theorem Bytes.window_laidOver {block block' bytes : Bytes} {base address offset width : Nat}
    (hlength : block'.length = block.length)
    (hbyte : ∀ i < block.length, block'[i]? =
      if address ≤ base + i ∧ base + i < address + bytes.length
      then bytes[base + i - address]? else block[i]?) :
    block'.window offset width =
      (block.window offset width).map (bytes.laidOver address (base + offset)) := by
  unfold window
  rw [hlength]
  split
  · rename_i hroom
    rw [Option.map_some, Option.some_inj]
    apply List.ext_getElem?
    intro i
    rw [laidOver, List.getElem?_mapIdx, List.getElem?_take, List.getElem?_take]
    split
    · rename_i hi
      have hold := List.getElem?_eq_getElem (l := block) (i := offset + i) (by omega)
      rw [List.getElem?_drop, List.getElem?_drop, hbyte _ (by omega), hold, Option.map_some,
        Nat.add_assoc base]
      by_cases hlow : address ≤ base + (offset + i)
      · rw [if_pos hlow]
        by_cases hhigh : base + (offset + i) < address + bytes.length
        · rw [if_pos ⟨hlow, hhigh⟩, List.getElem?_eq_getElem (by omega), Option.getD_some]
        · rw [if_neg fun hinside => hhigh hinside.2, List.getElem?_eq_none (by omega),
            Option.getD_none]
      · rw [if_neg fun hinside => hlow hinside.1, if_neg hlow]
    · rfl
  · rfl

namespace Memory

variable {memory memory' : Memory} {region other : Region} {address start : UInt32} {size : Nat}
  {bytes : Bytes}

/-! ## Lookup -/

/-- A range inside a region is found. An empty one at its end may be found in the region behind it. -/
theorem WellFormed.isSome_regionOf? (h : memory.WellFormed) (hregion : region ∈ memory.regions)
    (hspans : region.Spans address size) : (memory.regionOf? address size).isSome := by
  obtain ⟨hle, hroom⟩ := hspans
  have hmem : region ∈ memory.regions.filter (·.start ≤ address) :=
    List.mem_filter.mpr ⟨hregion, decide_eq_true (UInt32.le_iff_toNat_le.mpr hle)⟩
  have hordered := h.ordered.sublist (List.filter_sublist (p := (·.start ≤ address)))
  unfold Memory.regionOf?
  split
  · rename_i nearest hlast
    obtain ⟨before, hfilter⟩ := List.getLast?_eq_some_iff.mp hlast
    rw [hfilter] at hmem hordered
    rcases List.mem_append.mp hmem with hbefore | hsame
    · have hahead := (List.pairwise_append.mp hordered).2.2 region hbefore nearest
        List.mem_cons_self
      have hnearest := List.mem_filter.mp (List.mem_of_getLast? hlast)
      have hstart := UInt32.le_iff_toNat_le.mp (of_decide_eq_true hnearest.2)
      have hend := hahead.2
      have hfits : address.toNat + size ≤ nearest.limit := by
        unfold Region.limit at *
        omega
      rw [if_pos hfits]
      rfl
    · rw [List.mem_singleton.mp hsame] at hroom
      rw [if_pos hroom]
      rfl
  · rename_i hnone
    rw [List.getLast?_eq_none_iff.mp hnone] at hmem
    cases hmem

theorem WellFormed.isSome_regionOf?_iff (h : memory.WellFormed) :
    (memory.regionOf? address size).isSome ↔ ∃ region ∈ memory.regions, region.Spans address size := by
  refine ⟨fun hsome => ?_, fun ⟨region, hregion, hspans⟩ => h.isSome_regionOf? hregion hspans⟩
  obtain ⟨region, hfound⟩ := Option.isSome_iff_exists.mp hsome
  exact ⟨region, spans_of_regionOf? hfound⟩

theorem isSome_store? :
    (memory.store? address bytes).isSome = (memory.regionOf? address bytes.length).isSome :=
  Option.isSome_map

/-- A range inside a region is read there. -/
theorem isSome_load? : (memory.load? address size).isSome = (memory.regionOf? address size).isSome := by
  unfold load?
  cases hfound : memory.regionOf? address size with
  | none => rfl
  | some region =>
    obtain ⟨-, hle, hroom⟩ := spans_of_regionOf? hfound
    unfold Region.limit at hroom
    rw [Option.bind_some, Bytes.window, if_pos (by omega)]
    rfl

/-! ## Reading what was written -/

/-- Storing does not change which region a range is looked up in. -/
theorem regionOf?_map_overwritten :
    ({ memory with regions := memory.regions.map (overwritten region address bytes) } :
      Memory).regionOf? start size =
    (memory.regionOf? start size).map (overwritten region address bytes) := by
  have hfilter : (memory.regions.map (overwritten region address bytes)).filter (·.start ≤ start) =
      (memory.regions.filter (·.start ≤ start)).map (overwritten region address bytes) := by
    rw [List.filter_map]
    congr 2
    funext other
    simp only [Function.comp_apply, overwritten_frame.1]
  unfold Memory.regionOf?
  rw [hfilter, List.getLast?_map]
  cases (memory.regions.filter (·.start ≤ start)).getLast? with
  | none => rfl
  | some nearest =>
    simp only [Option.map_some, overwritten_frame.2.2]
    split
    · rfl
    · rfl

/-- A byte of a region after bytes were stored is a new one where they were stored, and else the old
one. -/
theorem WellFormed.getElem?_overwritten (h : memory.WellFormed) (hregion : region ∈ memory.regions)
    (hspans : region.Spans address bytes.length) (hother : other ∈ memory.regions) {i : Nat}
    (hi : i < other.bytes.length) : (overwritten region address bytes other).bytes[i]? =
      if address.toNat ≤ other.start.toNat + i ∧ other.start.toNat + i < address.toNat + bytes.length
      then bytes[other.start.toNat + i - address.toNat]? else other.bytes[i]? := by
  obtain ⟨hle, hroom⟩ := hspans
  unfold overwritten
  split
  · rename_i hstart
    rw [hstart, Bytes.getElem?_overwrite _ _ _ _ hi]
    by_cases hinside : address.toNat ≤ region.start.toNat + i ∧
        region.start.toNat + i < address.toNat + bytes.length
    · rw [if_pos (by omega), if_pos hinside]
      congr 1
      omega
    · rw [if_neg (by omega), if_neg hinside]
  · -- the stored bytes lie in another region, and no address belongs to both
    rename_i hstart
    rw [if_neg]
    rintro ⟨hlow, hhigh⟩
    refine hstart (congrArg Region.start ?_)
    exact (h.eq_of_owned hregion hother (hle.trans hlow) (Nat.lt_of_lt_of_le hhigh hroom)
      (Nat.le_add_right _ _) (Nat.add_lt_add_left hi _)).symm

/-- What is read after bytes were stored is what was read before, with the bytes laid over it. -/
theorem WellFormed.load?_store (h : memory.WellFormed)
    (hstore : memory.store? address bytes = some memory') : memory'.load? start size =
      (memory.load? start size).map (bytes.laidOver address.toNat start.toNat) := by
  obtain ⟨region, hfound, -, -, rfl⟩ := exists_region_of_store? hstore
  obtain ⟨hregion, hspans⟩ := spans_of_regionOf? hfound
  rw [load?, load?, regionOf?_map_overwritten]
  cases hnearest : memory.regionOf? start size with
  | none => rfl
  | some other =>
    obtain ⟨hother, hle, -⟩ := spans_of_regionOf? hnearest
    simp only [Option.map_some, Option.bind_some, overwritten_frame.1]
    have hbyte := fun i hi => h.getElem?_overwritten hregion hspans hother (i := i) hi
    rw [Bytes.window_laidOver length_overwritten hbyte, Nat.add_sub_cancel' hle]

/-- The two low bytes of a word show at the end of a range that begins before it. -/
example : let memory : Memory := { regions := [⟨0x8000, 1, Bytes.zeros 16⟩] }
    (memory.store? 0x8004 [1, 2, 3, 4]).bind (·.load? 0x8002 4) = some [0, 0, 1, 2] := by
  decide

/-! ## What was given back -/

/-- The allocation has no region, and its token was given away. -/
structure Retired (memory : Memory) (old : Allocation) : Prop where
  issued : old.token < memory.nextToken
  gone : ∀ region ∈ memory.regions, region.start = old.address → region.token ≠ old.token

variable {old : Allocation}

theorem retired_release (h : old.token < memory.nextToken) : (memory.release old).Retired old := by
  refine ⟨h, fun region hregion hstart htoken => ?_⟩
  have hother := (List.mem_filter.mp hregion).2
  simp [hstart, htoken] at hother

namespace Retired

/-- A new region has a token of its own. -/
theorem allocate (h : memory.Retired old) {request : AllocRequest} {new : Allocation}
    (hallocate : memory.allocate request = .ok (new, memory')) : memory'.Retired old := by
  obtain ⟨⟨address, cursor⟩, -, hrest⟩ := exists_of_bind_eq_ok hallocate
  obtain ⟨rfl, rfl⟩ := Prod.mk.inj (Except.ok.inj hrest)
  refine ⟨Nat.lt_succ_of_lt h.issued, fun region hregion hstart => ?_⟩
  rcases mem_of_mem_insertRegion hregion with rfl | hold
  · exact Nat.ne_of_gt h.issued
  · exact h.gone region hold hstart

theorem release (h : memory.Retired old) (allocation : Allocation) :
    (memory.release allocation).Retired old :=
  ⟨h.issued, fun region hregion => h.gone region (List.mem_filter.mp hregion).1⟩

theorem store (h : memory.Retired old) (hstore : memory.store? address bytes = some memory') :
    memory'.Retired old := by
  obtain ⟨region, -, -, -, rfl⟩ := exists_region_of_store? hstore
  refine ⟨h.issued, fun other hother => ?_⟩
  obtain ⟨before, hbefore, rfl⟩ := List.mem_map.mp hother
  rw [overwritten_frame.1, overwritten_frame.2.1]
  exact h.gone before hbefore

end Retired

end Memory

namespace SimulatedTarget

variable {recorded : Recorded SimulatedTarget} {old : Allocation}

theorem retired_serve (h : recorded.client.memory.Retired old) (call : TargetCall) :
    (serve recorded call).client.memory.Retired old := by
  rcases serve_cases recorded call with ⟨request, new, hallocate, -⟩ | ⟨-, hmemory⟩
  · exact h.allocate hallocate
  · rcases hmemory with hsame | ⟨allocation, hrelease⟩ | ⟨address, bytes, hstore⟩
    · exact hsame ▸ h
    · exact hrelease ▸ h.release allocation
    · exact h.store hstore

/-- What was given back does not return. -/
theorem retired_foldl (calls : List TargetCall) (h : recorded.client.memory.Retired old) :
    (calls.foldl serve recorded).client.memory.Retired old := by
  induction calls generalizing recorded with
  | nil => exact h
  | cons call calls ih => exact ih (retired_serve h call)

theorem release_unchanged {target : SimulatedTarget}
    (h : ∀ region ∈ target.memory.regions, region.start = old.address → region.token ≠ old.token) :
    (Client.release old target).2 = target := by
  change (if target.memory.isLive old then _ else target) = target
  refine if_neg fun hlive => ?_
  obtain ⟨region, hregion, hsame⟩ := List.any_eq_true.mp hlive
  simp only [Bool.and_eq_true, beq_iff_eq] at hsame
  exact h region hregion hsame.1 hsame.2

/-- After any run, memory is one map of bytes. Writing and reading succeed exactly for the ranges inside
one region, and no region wraps around. What was written lies over the bytes that were there, whatever
range is read, and a call that fails changes nothing. Nothing comes of releasing what has no region, and
an allocation that was released once has none ever again. -/
theorem memory_byte_map (base limit : UInt32) (files : Directory) (searchPaths : List Directory)
    (calls : List TargetCall) :
    let recorded := (fresh base limit files searchPaths).onRecord calls
    let target := recorded.client
    let mapped (address : UInt32) (size : Nat) : Prop :=
      ∃ region ∈ target.memory.regions, region.Spans address size
    (∀ region ∈ target.memory.regions, region.limit ≤ UInt32.size) ∧
    (∀ address bytes, match Client.write address bytes target with
      | (.ok _, after) => mapped address bytes.length ∧ ∀ start size,
          after.memory.load? start size =
            (target.memory.load? start size).map (bytes.laidOver address.toNat start.toNat)
      | (.error _, after) => ¬mapped address bytes.length ∧ after = target) ∧
    (∀ address size, match Client.read address size target with
      | (.ok bytes, after) =>
          mapped address size ∧ target.memory.load? address size = some bytes ∧ after = target
      | (.error _, after) => ¬mapped address size ∧ after = target) ∧
    (∀ old, (∀ region ∈ target.memory.regions, region.start = old.address →
      region.token ≠ old.token) → (Client.release old target).2 = target) ∧
    ∀ old ∈ granted recorded.events, ∀ later,
      let final := ((fresh base limit files searchPaths).onRecord
        (calls ++ .release old :: later)).client
      (Client.release old final).2 = final := by
  intro recorded target mapped
  have hreached := reached_onRecord base limit files searchPaths calls
  have hmapped : ∀ address size, (target.memory.regionOf? address size).isSome ↔ mapped address size :=
    fun _ _ => hreached.wellFormed.isSome_regionOf?_iff
  refine ⟨hreached.wellFormed.fits, fun address bytes => ?_, fun address size => ?_,
    fun old => release_unchanged, fun old hold later => release_unchanged ?_⟩
  · rw [write_apply, ← hmapped, ← Memory.isSome_store?]
    cases hstore : target.memory.store? address bytes with
    | none => exact ⟨Bool.false_ne_true, rfl⟩
    | some memory => exact ⟨rfl, fun start size => hreached.wellFormed.load?_store hstore⟩
  · rw [read_apply, ← hmapped, ← Memory.isSome_load?]
    cases hload : target.memory.load? address size with
    | none => exact ⟨Bool.false_ne_true, rfl⟩
    | some bytes => exact ⟨rfl, rfl, rfl⟩
  · rw [onRecord, List.foldl_append, List.foldl_cons]
    refine (retired_foldl later ?_).gone
    change (Client.release old recorded.client).2.memory.Retired old
    rw [memory_release]
    exact Memory.retired_release (hreached.issued old hold)

end SimulatedTarget

end TargetLink
