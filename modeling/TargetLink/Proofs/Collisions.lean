import TargetLink.Proofs.TargetRuns

/-!
# The search for heap memory ends

A search for heap memory goes on from collision to collision, and `Memory.search` gives it a number of
steps.  Here nothing bounds it (`Memory.Settles`).

* `Memory.Settles.collisions_le`: a search that ends collides with every region once at most, so the
  steps that are given are enough (`Memory.Settles.search`).
* `Memory.WellFormed.lt_or_zero_of_blocked`: a collision leads upwards, unless a region that reaches the
  end of the address space makes the search start over at zero.
* `Memory.WellFormed.exists_settles`: without such a region every search ends.
* `SimulatedTarget.Reachable.wellFormed`: the regions keep their order whatever is asked of a target, and
  whenever its heap window is set.

With such a region a search may go round in a circle for ever (`Memory.Settles.not_of_circle`).
-/

namespace TargetLink

namespace Memory

/-- The search from a candidate on ends after some collisions, with a free address or without one. -/
inductive Settles (memory : Memory) (request : AllocRequest) :
    UInt32 → Nat → Option UInt32 → Prop
  | free {candidate address : UInt32} (h : memory.probe request candidate = .free address) :
      Settles memory request candidate 0 (some address)
  | full {candidate : UInt32} (h : memory.probe request candidate = .full) :
      Settles memory request candidate 0 none
  | blocked {candidate next : UInt32} {collisions : Nat} {found : Option UInt32}
      (h : memory.probe request candidate = .blocked next)
      (hrest : Settles memory request next collisions found) :
      Settles memory request candidate (collisions + 1) found

variable {memory : Memory} {request : AllocRequest} {candidate next : UInt32} {collisions : Nat}
  {found : Option UInt32}

namespace Settles

/-- A search ends in one way. -/
theorem unique {collisions' : Nat} {found' : Option UInt32}
    (h : memory.Settles request candidate collisions found)
    (h' : memory.Settles request candidate collisions' found') :
    collisions = collisions' ∧ found = found' := by
  induction h generalizing collisions' with
  | free hprobe =>
    cases h' with
    | free hprobe' =>
      obtain rfl := Probe.free.inj (hprobe.symm.trans hprobe')
      exact ⟨rfl, rfl⟩
    | full hprobe' => cases hprobe.symm.trans hprobe'
    | blocked hprobe' => cases hprobe.symm.trans hprobe'
  | full hprobe =>
    cases h' with
    | free hprobe' => cases hprobe.symm.trans hprobe'
    | full => exact ⟨rfl, rfl⟩
    | blocked hprobe' => cases hprobe.symm.trans hprobe'
  | blocked hprobe _ ih =>
    cases h' with
    | free hprobe' => cases hprobe.symm.trans hprobe'
    | full hprobe' => cases hprobe.symm.trans hprobe'
    | blocked hprobe' hrest' =>
      obtain rfl := Probe.blocked.inj (hprobe.symm.trans hprobe')
      obtain ⟨rfl, rfl⟩ := ih hrest'
      exact ⟨rfl, rfl⟩

/-- With more steps than collisions the search comes to its end. -/
theorem search (h : memory.Settles request candidate collisions found) {steps : Nat}
    (hsteps : collisions < steps) : memory.search request steps candidate = found := by
  induction h generalizing steps with
  | free hprobe =>
    obtain ⟨steps, rfl⟩ := Nat.exists_eq_add_one_of_ne_zero (Nat.ne_of_gt hsteps)
    rw [Memory.search, hprobe]
  | full hprobe =>
    obtain ⟨steps, rfl⟩ := Nat.exists_eq_add_one_of_ne_zero (Nat.ne_of_gt hsteps)
    rw [Memory.search, hprobe]
  | blocked hprobe _ ih =>
    obtain ⟨steps, rfl⟩ := Nat.exists_eq_add_one_of_ne_zero (Nat.ne_of_gt (Nat.zero_lt_of_lt hsteps))
    rw [Memory.search, hprobe]
    exact ih (Nat.lt_of_succ_lt_succ hsteps)

/-- A search that comes back to its candidate does not end. -/
theorem not_of_circle {back : UInt32} (hthere : memory.probe request candidate = .blocked back)
    (hback : memory.probe request back = .blocked candidate) :
    ¬memory.Settles request candidate collisions found := by
  intro h
  have hround : memory.Settles request candidate (collisions + 1 + 1) found :=
    .blocked hthere (.blocked hback h)
  have hcount := (h.unique hround).1
  omega

/-- The candidates that follow a collision are ends of regions, and no two of them are equal: from each
of them on fewer collisions are left. -/
theorem exists_visited (h : memory.Settles request candidate collisions found) :
    ∃ visited : List UInt32, visited.length = collisions ∧ visited.Nodup ∧
      (∀ next ∈ visited, ∃ left < collisions, memory.Settles request next left found) ∧
      ∀ next ∈ visited, next ∈ memory.regions.map fun region => UInt32.ofNat region.limit := by
  induction h with
  | free => exact ⟨[], rfl, List.nodup_nil, by simp, by simp⟩
  | full => exact ⟨[], rfl, List.nodup_nil, by simp, by simp⟩
  | @blocked candidate next collisions found hprobe hrest ih =>
    obtain ⟨visited, rfl, hnodup, hleft, hends⟩ := ih
    have hspec := probe_spec memory request candidate
    rw [hprobe] at hspec
    obtain ⟨region, hregion, rfl, -, -⟩ := hspec
    refine ⟨UInt32.ofNat region.limit :: visited, rfl, List.nodup_cons.mpr ⟨fun hmem => ?_, hnodup⟩,
      List.forall_mem_cons.mpr ⟨⟨_, Nat.lt_succ_self _, hrest⟩, fun other hother => ?_⟩,
      List.forall_mem_cons.mpr ⟨List.mem_map_of_mem hregion, hends⟩⟩
    · obtain ⟨left, hlt, hagain⟩ := hleft _ hmem
      exact absurd (hagain.unique hrest).1 (Nat.ne_of_lt hlt)
    · obtain ⟨left, hlt, hother⟩ := hleft other hother
      exact ⟨left, Nat.lt_succ_of_lt hlt, hother⟩

/-- A search that ends collides with every region once at most. -/
theorem collisions_le (h : memory.Settles request candidate collisions found) :
    collisions ≤ memory.regions.length := by
  obtain ⟨visited, rfl, hnodup, -, hends⟩ := h.exists_visited
  have hsub : visited.Subperm (memory.regions.map fun region => UInt32.ofNat region.limit) :=
    hnodup.subperm hends
  simpa only [List.length_map] using hsub.length_le

end Settles

/-- A collision leads upwards, unless a region reaches the end of the address space: behind it the search
starts over. -/
theorem WellFormed.lt_or_zero_of_blocked (h : memory.WellFormed)
    (hblocked : memory.probe request candidate = .blocked next) :
    candidate < next ∨ next = 0 ∧ memory.Topped := by
  have hspec := probe_spec memory request candidate
  rw [hblocked] at hspec
  obtain ⟨region, hregion, rfl, hstart, hbehind⟩ := hspec
  rcases Nat.lt_or_eq_of_le (h.fits region hregion) with hlt | htop
  · left
    rw [UInt32.lt_iff_toNat_lt, UInt32.toNat_ofNat_of_lt' hlt]
    exact hbehind
  · exact .inr ⟨by rw [htop]; rfl, region, hregion, hstart, htop⟩

/-- Without a region that reaches the end of the address space every search ends. -/
theorem WellFormed.exists_settles (h : memory.WellFormed) (hopen : ¬memory.Topped)
    (request : AllocRequest) (candidate : UInt32) :
    ∃ collisions found, memory.Settles request candidate collisions found := by
  -- what is left of the address space shrinks with every collision
  induction hroom : UInt32.size - candidate.toNat using Nat.strong_induction_on
    generalizing candidate with
  | _ room ih =>
    cases hprobe : memory.probe request candidate with
    | free address => exact ⟨0, some address, .free hprobe⟩
    | full => exact ⟨0, none, .full hprobe⟩
    | blocked next =>
      have hup := (h.lt_or_zero_of_blocked hprobe).resolve_right fun htop => hopen htop.2
      have hlt := UInt32.lt_iff_toNat_lt.mp hup
      have hend := next.toNat_lt
      obtain ⟨collisions, found, hrest⟩ := ih (UInt32.size - next.toNat)
        (by unfold UInt32.size at *; omega) next rfl
      exact ⟨collisions + 1, found, .blocked hprobe hrest⟩

/-- What becomes of a relocatable request is what the search ends with. -/
theorem Settles.allocate (h : memory.Settles request memory.cursor collisions found)
    (hrelocatable : request.relocatable = true) :
    (memory.allocate request).map (·.1) = match found with
      | some address => .ok ⟨address, request.memorySize, memory.nextToken⟩
      | none => .error (.memory (.noRoom request.memorySize)) := by
  have hsearch := h.search (Nat.lt_succ_of_le h.collisions_le)
  unfold Memory.allocate place
  rw [if_pos hrelocatable, hsearch]
  cases found <;> rfl

end Memory

namespace SimulatedTarget

/-! ## Targets in use -/

/-- A target in use. Whoever holds it may set the heap window and add to the search paths between any two
calls. -/
inductive Reachable : SimulatedTarget → Prop
  | start (files : Directory) (searchPaths : List Directory) : Reachable { files, searchPaths }
  | heap {target : SimulatedTarget} (h : Reachable target) (base limit : UInt32) :
      Reachable (target.withHeap base limit)
  | searchPath {target : SimulatedTarget} (h : Reachable target) (directory : Directory) :
      Reachable { target with searchPaths := target.searchPaths ++ [directory] }
  | call {recorded : Recorded SimulatedTarget} (h : Reachable recorded.client) (call : TargetCall) :
      Reachable (serve recorded call).client

namespace Reachable

variable {target : SimulatedTarget} {recorded : Recorded SimulatedTarget}

/-- The heap window does not matter to the order of the regions. -/
theorem wellFormed (h : target.Reachable) : target.memory.WellFormed := by
  induction h with
  | start => exact ⟨.nil, nofun, nofun⟩
  | heap _ _ _ ih => exact ⟨ih.ordered, ih.fits, ih.issued⟩
  | searchPath _ _ ih => exact ih
  | @call recorded _ call ih =>
    rcases serve_cases recorded call with ⟨request, new, hallocate, -⟩ | ⟨-, hmemory⟩
    · exact (ih.allocate hallocate).wellFormed
    · rcases hmemory with hsame | ⟨allocation, hrelease⟩ | ⟨address, bytes, hstore⟩
      · exact hsame ▸ ih
      · exact hrelease ▸ ih.release allocation
      · exact ih.store hstore

theorem foldl (h : recorded.client.Reachable) (calls : List TargetCall) :
    (calls.foldl serve recorded).client.Reachable := by
  induction calls generalizing recorded with
  | nil => exact h
  | cons call calls ih => exact ih (.call h call)

/-- Every run of a fresh target leads to one in use. -/
theorem onRecord (base limit : UInt32) (files : Directory) (searchPaths : List Directory)
    (calls : List TargetCall) :
    ((fresh base limit files searchPaths).onRecord calls).client.Reachable :=
  foldl (.heap (.start files searchPaths) base limit) calls

end Reachable

/-- A search for heap memory ends if no region that starts below the end of the window reaches the end of
the address space: every collision leads upwards, there are no more of them than regions, and the request
is answered with the free address that was found or for want of room. -/
theorem heap_search_ends {target : SimulatedTarget} (htarget : target.Reachable)
    {request : AllocRequest} (hrelocatable : request.relocatable = true)
    (hopen : ¬target.memory.Topped) :
    (∀ candidate next, target.memory.probe request candidate = .blocked next → candidate < next) ∧
    ∃ (collisions : Nat) (found : Option UInt32),
      target.memory.Settles request target.memory.cursor collisions found ∧
      collisions ≤ target.memory.regions.length ∧
      match found with
      | some address =>
        (Client.allocate request target).1 =
          .ok ⟨address, request.memorySize, target.memory.nextToken⟩ ∧
        ∀ region ∈ target.memory.regions, region.meets address request.memorySize = false
      | none => (Client.allocate request target).1 = .error (.memory (.noRoom request.memorySize)) := by
  have hwellFormed := htarget.wellFormed
  refine ⟨fun candidate next hblocked =>
    (hwellFormed.lt_or_zero_of_blocked hblocked).resolve_right fun htop => hopen htop.2, ?_⟩
  obtain ⟨collisions, found, hsettles⟩ :=
    hwellFormed.exists_settles hopen request target.memory.cursor
  refine ⟨collisions, found, hsettles, hsettles.collisions_le, ?_⟩
  have hanswer := hsettles.allocate hrelocatable
  rw [allocate_apply]
  cases hallocate : target.memory.allocate request with
  | error e =>
    rw [hallocate] at hanswer
    cases found with
    | none => exact hanswer
    | some address => cases hanswer
  | ok answer =>
    obtain ⟨new, memory⟩ := answer
    rw [hallocate] at hanswer
    cases found with
    | none => cases hanswer
    | some address =>
      obtain rfl := Except.ok.inj hanswer
      exact ⟨rfl, (hwellFormed.allocate hallocate).free.unmet⟩

/-- The region at the base of the window is skipped. -/
theorem heap_search_ends_behind_fixed :
    let request (address size align : UInt32) (relocatable : Bool) : AllocRequest :=
      ⟨address, size, 0, 0, align, false, true, relocatable⟩
    let target := ((fresh 0x20000000 0x20001000 [] []).onRecord
      [.allocate (request 0x20000000 8 1 false)]).client
    target.memory.Settles (request 4 8 16 true) 0x20000000 1 (some 0x20000014) := by
  intro request target
  have htarget : target.Reachable := .onRecord _ _ _ _ _
  have hrelocatable : (request 4 8 16 true).relocatable = true := rfl
  obtain ⟨-, collisions, found, hsettles, -, -⟩ :=
    heap_search_ends htarget hrelocatable (by decide +kernel)
  have hblocked : target.memory.probe (request 4 8 16 true) 0x20000000 = .blocked 0x20000008 := by
    decide +kernel
  have hfree : target.memory.probe (request 4 8 16 true) 0x20000008 = .free 0x20000014 := by
    decide +kernel
  obtain ⟨rfl, rfl⟩ := hsettles.unique (.blocked hblocked (.free hfree))
  exact hsettles

/-- Two fixed regions send the search back and forth: behind the one in the middle of the address space
the next aligned address is the one at its end, and behind that one the search starts over at zero. -/
theorem search_in_circle :
    let request (address size align : UInt32) (relocatable : Bool) : AllocRequest :=
      ⟨address, size, 0, 0, align, false, true, relocatable⟩
    let target := ((fresh 0 0xffffffff [] []).onRecord
      [.allocate (request 0x7ffffff0 4 1 false), .allocate (request 0xfffffff0 16 1 false)]).client
    let stuck := request 0x7ffffff0 4 0x80000000 true
    target.Reachable ∧ target.memory.probe stuck 0x7ffffff4 = .blocked 0 ∧
      ∀ collisions found, ¬target.memory.Settles stuck target.memory.cursor collisions found := by
  intro request target stuck
  have hup : target.memory.probe stuck 0 = .blocked 0x7ffffff4 := by decide +kernel
  have hdown : target.memory.probe stuck 0x7ffffff4 = .blocked 0 := by decide +kernel
  exact ⟨.onRecord _ _ _ _ _, hdown, fun _ _ => Memory.Settles.not_of_circle hup hdown⟩

end SimulatedTarget

end TargetLink
