import TargetLink.Proofs.HeapSearch
import TargetLink.Proofs.SimulatedLedger
import TargetLink.Proofs.TargetMemory
import TargetLink.Target.Run

/-!
# What every run of the simulated target keeps

Whatever is asked of a target, its memory stays well-formed, each of its regions is that of an allocation
on record, and no token is used twice (`Memory.Reached`).  Two results on allocating follow.  An
allocation gets memory of its own, but it takes the place of a region at its address if one of the two is
empty (`SimulatedTarget.allocate_replaces_empty`).  And a relocatable segment is placed in the heap
window, but it may be placed below it once an allocation has reached the end of the address space
(`SimulatedTarget.relocatable_in_window`).
-/

namespace TargetLink

theorem granted_concat (events : List Event) (event : Event) :
    granted (events ++ [event]) = granted events ++ event.granted?.toList := by
  rw [granted, List.filterMap_append, ← granted, ← granted, granted_cons]
  exact congrArg _ (List.append_nil _)

/-- An allocation that starts below the end of the heap window reached the end of the address space. -/
def ReachesTop (limit : UInt32) (grants : List Allocation) : Prop :=
  ∃ old ∈ grants, old.address < limit ∧ old.address.toNat + old.size.toNat = UInt32.size

instance (limit : UInt32) (grants : List Allocation) : Decidable (ReachesTop limit grants) :=
  inferInstanceAs (Decidable (∃ _ ∈ _, _))

/-- A region that gives way to an allocation: both begin at the same address, and one is empty. -/
def Region.GivesWay (region : Region) (new : Allocation) : Prop :=
  region.start = new.address ∧ (region.bytes = [] ∨ new.size = 0)

instance (region : Region) (new : Allocation) : Decidable (region.GivesWay new) :=
  inferInstanceAs (Decidable (_ ∧ _))

namespace Memory

/-- Memory that calls led to from a heap window `[base, limit)`, with all that they allocated. -/
structure Reached (base limit : UInt32) (grants : List Allocation) (memory : Memory) : Prop where
  wellFormed : memory.WellFormed
  issued : ∀ old ∈ grants, old.token < memory.nextToken
  granted : ∀ region ∈ memory.regions, ∃ old ∈ grants, old.address = region.start ∧
    old.token = region.token ∧ old.size.toNat = region.bytes.length
  heapEnd : memory.heapEnd = limit
  cursor : base ≤ memory.cursor ∨ ReachesTop limit grants

namespace Allocated

variable {memory memory' : Memory} {request : AllocRequest} {new : Allocation}

/-- Every region ends before a new allocation or begins behind it. -/
theorem disjoint (h : Allocated memory request new memory') : ∀ region ∈ memory.regions,
    region.limit ≤ new.address.toNat ∨
      new.address.toNat + new.size.toNat ≤ region.start.toNat := by
  intro region hregion
  have hunmet := h.free.unmet region hregion
  simp only [Region.meets, Bool.and_eq_false_iff, decide_eq_false_iff_not, Nat.not_lt] at hunmet
  exact hunmet.symm

/-- All regions stay but those that give way to the new one. -/
theorem regions_givesWay (h : Allocated memory request new memory') :
    memory'.regions.Perm (⟨new.address, new.token, Bytes.zeros new.size.toNat⟩ ::
      memory.regions.filter (¬·.GivesWay new)) := by
  have hfilter : memory.regions.filter (·.start ≠ new.address) =
      memory.regions.filter (¬·.GivesWay new) := by
    refine List.filter_congr fun region hregion => decide_eq_decide.mpr (not_congr ?_)
    exact ⟨fun hstart => ⟨hstart, h.replaced region hregion hstart⟩, And.left⟩
  exact hfilter ▸ h.regions

theorem length_regions (h : Allocated memory request new memory') :
    memory'.regions.length + memory.regions.countP (·.GivesWay new) = memory.regions.length + 1 := by
  have hlength := h.regions_givesWay.length_eq
  have hcount := List.length_eq_countP_add_countP (·.GivesWay new) (l := memory.regions)
  rw [List.length_cons, ← List.countP_eq_length_filter] at hlength
  simp only [decide_eq_true_eq] at hcount
  omega

end Allocated

namespace Reached

variable {base limit : UInt32} {grants : List Allocation} {memory memory' : Memory}

theorem reachesTop (h : memory.Reached base limit grants) (htop : memory.Topped) :
    ReachesTop limit grants := by
  obtain ⟨region, hregion, hstart, hlimit⟩ := htop
  obtain ⟨old, hold, haddress, -, hsize⟩ := h.granted region hregion
  exact ⟨old, hold, haddress ▸ h.heapEnd ▸ hstart, by rw [haddress, hsize]; exact hlimit⟩

/-- What allocating does to the heap window of a run. -/
theorem allocate_window (h : memory.Reached base limit grants) {request : AllocRequest}
    {new : Allocation} (hallocate : memory.allocate request = .ok (new, memory')) :
    (base ≤ memory'.cursor ∨ ReachesTop limit grants) ∧ (request.relocatable = true →
      memory.Suits request new.address ∧ (base ≤ new.address ∨ ReachesTop limit grants)) := by
  by_cases htop : ReachesTop limit grants
  · refine ⟨Or.inr htop, fun hrelocatable => ?_⟩
    have hwindow := h.wellFormed.allocate_window hallocate (Or.inl (UInt32.le_refl memory.cursor))
    exact ⟨(hwindow.2 hrelocatable).1, Or.inr htop⟩
  · have hwindow := h.wellFormed.allocate_window hallocate (Or.inl (h.cursor.resolve_right htop))
    exact ⟨hwindow.1.imp_right h.reachesTop,
      fun hrelocatable => (hwindow.2 hrelocatable).imp_right (Or.imp_right h.reachesTop)⟩

theorem allocate (h : memory.Reached base limit grants) {request : AllocRequest} {new : Allocation}
    (hallocate : memory.allocate request = .ok (new, memory')) :
    memory'.Reached base limit (grants ++ [new]) := by
  have hdone := h.wellFormed.allocate hallocate
  obtain ⟨hheapEnd, hnextToken⟩ := Memory.frame_of_allocate hallocate
  constructor
  case wellFormed => exact hdone.wellFormed
  case issued =>
    intro old hold
    rw [hnextToken]
    rcases List.mem_append.mp hold with hold | hnew
    · exact Nat.lt_succ_of_lt (h.issued old hold)
    · rw [List.mem_singleton.mp hnew, hdone.token]
      exact Nat.lt_succ_self _
  case granted =>
    intro region hregion
    rcases List.mem_cons.mp (hdone.regions.mem_iff.mp hregion) with rfl | hkept
    · exact ⟨new, List.mem_append_right _ List.mem_cons_self, rfl, rfl, List.length_replicate.symm⟩
    · obtain ⟨old, hold, hsame⟩ := h.granted region (List.mem_filter.mp hkept).1
      exact ⟨old, List.mem_append_left _ hold, hsame⟩
  case heapEnd => exact hheapEnd.trans h.heapEnd
  case cursor =>
    refine (h.allocate_window hallocate).1.imp_right fun ⟨old, hold, htop⟩ => ?_
    exact ⟨old, List.mem_append_left _ hold, htop⟩

theorem release (h : memory.Reached base limit grants) (allocation : Allocation) :
    (memory.release allocation).Reached base limit grants where
  wellFormed := h.wellFormed.release allocation
  issued := h.issued
  granted region hregion := h.granted region (List.mem_filter.mp hregion).1
  heapEnd := h.heapEnd
  cursor := h.cursor

theorem store (h : memory.Reached base limit grants) {address : UInt32} {bytes : Bytes}
    (hstore : memory.store? address bytes = some memory') : memory'.Reached base limit grants := by
  have hwellFormed := h.wellFormed.store hstore
  obtain ⟨region, -, -, -, rfl⟩ := exists_region_of_store? hstore
  refine ⟨hwellFormed, h.issued, fun other hother => ?_, h.heapEnd, h.cursor⟩
  obtain ⟨before, hbefore, rfl⟩ := List.mem_map.mp hother
  obtain ⟨old, hold, haddress, htoken, hsize⟩ := h.granted before hbefore
  exact ⟨old, hold, haddress.trans overwritten_frame.1.symm, htoken.trans overwritten_frame.2.1.symm,
    hsize.trans length_overwritten.symm⟩

end Reached

end Memory

namespace SimulatedTarget

open Memory (Reached)

variable {base limit : UInt32} {recorded : Recorded SimulatedTarget}

/-! ## Runs -/

theorem serve_allocate (request : AllocRequest) : serve recorded (.allocate request) =
    ⟨(Client.allocate request recorded.client).2,
      recorded.events ++ [.allocate request (Client.allocate request recorded.client).1]⟩ := rfl

theorem serve_write (address : UInt32) (bytes : Bytes) : serve recorded (.write address bytes) =
    ⟨(Client.write address bytes recorded.client).2,
      recorded.events ++ [.write address bytes (Client.write address bytes recorded.client).1]⟩ := rfl

/-- What a call does to memory: it allocates, releases or stores there, or leaves it alone. Nothing but
a successful allocation is granted. -/
theorem serve_cases (recorded : Recorded SimulatedTarget) (call : TargetCall) :
    (∃ request new, recorded.client.memory.allocate request =
        .ok (new, (serve recorded call).client.memory) ∧
      granted (serve recorded call).events = granted recorded.events ++ [new]) ∨
    granted (serve recorded call).events = granted recorded.events ∧
      ((serve recorded call).client.memory = recorded.client.memory ∨
        (∃ allocation, (serve recorded call).client.memory =
          recorded.client.memory.release allocation) ∨
        ∃ address bytes, recorded.client.memory.store? address bytes =
          some (serve recorded call).client.memory) := by
  have hquiet : ∀ event : Event, event.granted? = none →
      granted (recorded.events ++ [event]) = granted recorded.events := by
    intro event hnone
    rw [granted_concat, hnone, Option.toList_none, List.append_nil]
  cases call with
  | register name image => exact Or.inr ⟨rfl, Or.inl rfl⟩
  | allocate request =>
    rw [serve_allocate, allocate_apply]
    rcases hanswer : recorded.client.memory.allocate request with e | ⟨new, memory⟩
    · exact Or.inr ⟨hquiet _ rfl, Or.inl rfl⟩
    · exact Or.inl ⟨request, new, hanswer, granted_concat _ _⟩
  | release allocation =>
    exact Or.inr ⟨hquiet _ rfl, Or.inr (Or.inl ⟨allocation, memory_release _ _⟩)⟩
  | copy image request =>
    exact Or.inr ⟨hquiet _ rfl, Or.inl (congrArg (·.memory) (copy_unchanged _ _ recorded.client))⟩
  | write address bytes =>
    rw [serve_write, write_apply]
    refine Or.inr ⟨hquiet _ rfl, ?_⟩
    cases hstore : recorded.client.memory.store? address bytes with
    | none => exact Or.inl rfl
    | some memory => exact Or.inr (Or.inr ⟨address, bytes, hstore⟩)
  | read address size =>
    exact Or.inr ⟨hquiet _ rfl, Or.inl (congrArg (·.memory) (read_unchanged _ _ recorded.client))⟩
  | execute address => exact Or.inr ⟨hquiet _ rfl, Or.inl rfl⟩
  | openDependent name => exact Or.inr ⟨hquiet _ rfl, Or.inl rfl⟩

/-- Every call keeps memory in good order. -/
theorem reached_serve (h : recorded.client.memory.Reached base limit (granted recorded.events))
    (call : TargetCall) :
    (serve recorded call).client.memory.Reached base limit (granted (serve recorded call).events) := by
  rcases serve_cases recorded call with ⟨request, new, hallocate, hgranted⟩ | ⟨hgranted, hmemory⟩
  · exact hgranted ▸ h.allocate hallocate
  · rw [hgranted]
    rcases hmemory with hsame | ⟨allocation, hrelease⟩ | ⟨address, bytes, hstore⟩
    · exact hsame ▸ h
    · exact hrelease ▸ h.release allocation
    · exact h.store hstore

theorem reached_foldl (calls : List TargetCall)
    (h : recorded.client.memory.Reached base limit (granted recorded.events)) :
    (calls.foldl serve recorded).client.memory.Reached base limit
      (granted (calls.foldl serve recorded).events) := by
  induction calls generalizing recorded with
  | nil => exact h
  | cons call calls ih => exact ih (reached_serve h call)

/-- Every run keeps memory in good order. -/
theorem reached_onRecord (base limit : UInt32) (files : Directory) (searchPaths : List Directory)
    (calls : List TargetCall) :
    ((fresh base limit files searchPaths).onRecord calls).client.memory.Reached base limit
      (granted ((fresh base limit files searchPaths).onRecord calls).events) := by
  refine reached_foldl calls ⟨⟨List.Pairwise.nil, ?_, ?_⟩, ?_, ?_, rfl, Or.inl (UInt32.le_refl _)⟩
  · exact fun _ h => nomatch h
  · exact fun _ h => nomatch h
  · exact fun _ h => nomatch h
  · exact fun _ h => nomatch h

/-! ## Allocating -/

/-- After any run, every region is that of an allocation on record. A new allocation gets zeroed memory
of its own and a token of its own. One more region is live and the others stay, but for one at the same
address if it or the new one is empty. A request that fails changes nothing. -/
theorem allocate_replaces_empty (base limit : UInt32) (files : Directory)
    (searchPaths : List Directory) (calls : List TargetCall) (request : AllocRequest) :
    let recorded := (fresh base limit files searchPaths).onRecord calls
    let before := recorded.client
    (∀ region ∈ before.memory.regions, ∃ old ∈ granted recorded.events, old.address = region.start ∧
      old.token = region.token ∧ old.size.toNat = region.bytes.length) ∧
    match Client.allocate request before with
    | (.error _, after) => after = before
    | (.ok new, after) =>
      new.size = request.memorySize ∧
      new.address.toNat + new.size.toNat ≤ UInt32.size ∧
      (∀ old ∈ granted recorded.events, old.token ≠ new.token) ∧
      (∀ region ∈ before.memory.regions, region.limit ≤ new.address.toNat ∨
        new.address.toNat + new.size.toNat ≤ region.start.toNat) ∧
      after.memory.regions.Perm (⟨new.address, new.token, Bytes.zeros new.size.toNat⟩ ::
        before.memory.regions.filter (¬·.GivesWay new)) ∧
      after.allocations + before.memory.regions.countP (·.GivesWay new) = before.allocations + 1 := by
  intro recorded before
  have hreached := reached_onRecord base limit files searchPaths calls
  refine ⟨hreached.granted, ?_⟩
  rw [allocate_apply]
  rcases hanswer : before.memory.allocate request with e | ⟨new, memory⟩
  · rfl
  · have hdone := hreached.wellFormed.allocate hanswer
    refine ⟨hdone.size, hdone.free.fits, fun old hold => ?_, hdone.disjoint, hdone.regions_givesWay,
      hdone.length_regions⟩
    rw [hdone.token]
    exact Nat.ne_of_lt (hreached.issued old hold)

/-- An empty segment at the address of an allocation takes its place, and its four bytes are gone. -/
theorem allocate_replaces_full :
    let request (size : UInt32) : AllocRequest :=
      ⟨0x8000, size, 0, 0, 1, false, true, false⟩
    let before := ((fresh 0x10000000 0xf0000000 [] []).onRecord
      [.allocate (request 4), .write 0x8000 [1, 2, 3, 4]]).client
    let after := (Client.allocate (request 0) before).2
    (Client.allocate (request 0) before).1 = .ok ⟨0x8000, 0, 2⟩ ∧
      before.allocations = 1 ∧ before.memory.load? 0x8000 4 = some [1, 2, 3, 4] ∧
      after.allocations = 1 ∧ after.memory.load? 0x8000 4 = none := by
  decide +kernel

/-- After any run, a relocatable segment is placed below the end of the heap window, beside all live
regions and with its offset into the alignment kept. It is placed behind the base of the window, unless
an allocation that started below the end of the window reached the end of the address space. -/
theorem relocatable_in_window (base limit : UInt32) (files : Directory)
    (searchPaths : List Directory) (calls : List TargetCall) {request : AllocRequest}
    {new : Allocation} (hrelocatable : request.relocatable = true)
    (hok : (Client.allocate request
      ((fresh base limit files searchPaths).onRecord calls).client).1 = .ok new) :
    let recorded := (fresh base limit files searchPaths).onRecord calls
    (base ≤ new.address ∨ ReachesTop limit (granted recorded.events)) ∧
      new.address.toNat + request.memorySize.toNat ≤ limit.toNat ∧
      new.address.toNat ≡ request.address.toNat
        [MOD if request.align.toNat.isPowerOfTwo then request.align.toNat else 4] ∧
      ∀ region ∈ recorded.client.memory.regions, region.limit ≤ new.address.toNat ∨
        new.address.toNat + request.memorySize.toNat ≤ region.start.toNat := by
  intro recorded
  have hreached := reached_onRecord base limit files searchPaths calls
  rw [allocate_apply] at hok
  rcases hanswer : recorded.client.memory.allocate request with e | ⟨found, memory⟩
  · rw [hanswer] at hok
    cases hok
  · rw [hanswer] at hok
    obtain rfl := Except.ok.inj hok
    have hdone := hreached.wellFormed.allocate hanswer
    obtain ⟨hsuits, hbase⟩ := (hreached.allocate_window hanswer).2 hrelocatable
    refine ⟨hbase, hreached.heapEnd ▸ hsuits.ends, ?_, hdone.size ▸ hdone.disjoint⟩
    rw [← Memory.alignment_eq]
    exact hsuits.aligned

/-- A fixed region at the base of the window is skipped, and the offset 4 into the alignment is kept. -/
theorem relocatable_in_window_of_fixed :
    let request (address size align : UInt32) (relocatable : Bool) : AllocRequest :=
      ⟨address, size, 0, 0, align, false, true, relocatable⟩
    let calls : List TargetCall := [.allocate (request 0x20000000 8 1 false)]
    let new : Allocation := ⟨0x20000014, 8, 2⟩
    (Client.allocate (request 4 8 16 true)
        ((fresh 0x20000000 0x20001000 [] []).onRecord calls).client).1 = .ok new ∧
      0x20000000 ≤ new.address ∧ new.address.toNat + 8 ≤ 0x20001000 ∧
      new.address.toNat ≡ 4 [MOD 16] := by
  intro request calls new
  have hok : (Client.allocate (request 4 8 16 true)
      ((fresh 0x20000000 0x20001000 [] []).onRecord calls).client).1 = .ok new := by decide +kernel
  obtain ⟨hbase, hends, haligned, -⟩ := relocatable_in_window _ _ _ _ _ rfl hok
  rw [if_pos ⟨4, rfl⟩] at haligned
  exact ⟨hok, hbase.resolve_right (by decide +kernel), hends, haligned⟩

/-- A fixed region fills the window and reaches the end of the address space. The search starts over and
places the segment at zero. -/
theorem relocatable_below_window :
    let request (address size : UInt32) (relocatable : Bool) : AllocRequest :=
      ⟨address, size, 0, 0, 1, false, true, relocatable⟩
    let base : UInt32 := 0xfffffff0
    let target := ((fresh base 0xffffffff [] []).onRecord [.allocate (request base 16 false)]).client
    let new : Allocation := ⟨0, 4, 2⟩
    (Client.allocate (request 0 4 true) target).1 = .ok new ∧ ¬base ≤ new.address := by
  decide +kernel

end SimulatedTarget

end TargetLink
