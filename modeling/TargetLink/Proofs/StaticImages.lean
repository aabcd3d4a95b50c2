import TargetLink.Proofs.StaticCalls
import TargetLink.Proofs.TableViews

/-!
# Static images are loaded verbatim

A static image is found in target memory as its file describes it: every segment lies where it was linked,
with its part of the file followed by zeros, and nothing of it runs (`Loader.load_static`).  A client that
hands memory out elsewhere gets it back at once, and the load fails.
-/

namespace TargetLink

open TargetLink.Module (handlesOf allocationsOf)
open LoadM (Triple Within bind_apply)

/-! ## Contents of segments -/

/-- What is staged for a segment is the part of the file, followed by zeros. -/
theorem CopyRequest.eq_of_stage {request : CopyRequest} {image block part : Bytes}
    (h : request.stage image = .ok block)
    (hpart : image.window request.fileOffset.toNat request.fileSize.toNat = some part) :
    block = part ++ Bytes.zeros (request.memorySize.toNat - request.fileSize.toNat) := by
  unfold stage at h
  split at h
  · cases h
  · dsimp only at h
    split at h
    · rename_i found hfound
      obtain rfl := Except.ok.inj h
      congr 1
      split at hfound
      · rename_i hnone
        have hlength := Bytes.length_window hpart
        rw [List.eq_nil_of_length_eq_zero (hlength.trans hnone)]
        exact (Option.some.inj hfound).symm
      · exact Option.some.inj (hfound.symm.trans hpart)
    · cases h

/-- The segment of a header lies where it was linked, and target memory holds its part of the file there,
followed by zeros. -/
structure Segment.Mirrors (image : Image) (memory : Memory) (header : ProgramHeader) (segment : Segment) :
    Prop where
  linkAddress : segment.linkAddress = header.address
  address : segment.address = header.address
  delta : segment.delta = 0
  memorySize : segment.memorySize = header.memorySize
  fileSize : segment.fileSize = header.fileSize
  contents : ∃ part, Bytes.window image header.offset.toNat header.fileSize.toNat = some part ∧
    memory.load? header.address header.memorySize.toNat =
      some (part ++ Bytes.zeros (header.memorySize.toNat - header.fileSize.toNat))

namespace Loading

variable {header : ProgramHeader} {segment : Segment} {block : Bytes} {image : Image}
  {modules : List Module} {m : Module} {memory : Memory}

theorem Staged.length_eq (h : Staged SimulatedTarget image header block) :
    block.length = header.memorySize.toNat := by
  obtain ⟨client, hcopy⟩ := h
  rw [SimulatedTarget.copy_apply] at hcopy
  exact CopyRequest.length_of_stage hcopy

theorem Follows.memorySize_eq {σ : Type} [Client σ] (h : Follows σ header segment) :
    segment.memorySize = header.memorySize := by
  obtain ⟨allocation, client, rfl, -, -⟩ := h
  rfl

theorem Follows.size_eq (h : Follows SimulatedTarget header segment) :
    segment.allocation.size = segment.memorySize := by
  obtain ⟨allocation, client, rfl, -, hanswer⟩ := h
  exact SimulatedTarget.size_of_granted ⟨header.request false, client, hanswer, rfl⟩

/-- A segment whose contents are seen in target memory is there as the file has it. -/
theorem Follows.mirrors (h : Follows SimulatedTarget header segment)
    (hstaged : Staged SimulatedTarget image header block) (hsize : header.memorySize ≠ 0)
    (hpart : ∃ part, Bytes.window image header.offset.toNat header.fileSize.toNat = some part)
    (hlodged : Module.Lodged modules memory) (hm : m ∈ modules) (hsegment : segment ∈ m.segments)
    (hseen : ∀ a byte, segment.blockView block a byte → memory.view a byte) :
    segment.Mirrors image memory header := by
  have hlength := hstaged.length_eq
  obtain ⟨client, hcopy⟩ := hstaged
  obtain ⟨allocation, client, rfl, hplace, hanswer⟩ := h
  have haddress : (header.segmentIn allocation).address = header.address := hplace
  have hsome : 0 < header.memorySize.toNat := Nat.pos_of_ne_zero fun hzero =>
    hsize (UInt32.toNat_inj.mp hzero)
  refine ⟨rfl, haddress, ?_, rfl, rfl, ?_⟩
  · rw [Segment.delta, haddress]
    exact UInt32.sub_self header.address
  obtain ⟨part, hpart⟩ := hpart
  refine ⟨part, hpart, ?_⟩
  rw [SimulatedTarget.copy_apply] at hcopy
  have hblock : block = part ++
      Bytes.zeros (header.memorySize.toNat - header.fileSize.toNat) :=
    CopyRequest.eq_of_stage hcopy hpart
  rw [← hblock, ← haddress, ← hlength]
  refine hlodged.load?_of_reads hm hsegment ⟨?_, ?_⟩ (hlength.symm ▸ hsome) fun i byte hbyte => ?_
  · exact decide_eq_true (by rwa [UInt32.sub_self, UInt32.lt_iff_toNat_lt])
  · rw [UInt32.sub_self, hlength]
    exact (Nat.zero_add _).le
  · refine hseen _ byte ⟨Nat.le_add_right _ _, ?_⟩
    rwa [Nat.add_sub_cancel_left]

/-- All segments of a module whose contents are seen in target memory are there as the file has them. -/
theorem forall_mirrors {file : ObjectFile} (hread : ObjectFile.read image = .ok file)
    (hlodged : Module.Lodged modules memory) (hm : m ∈ modules)
    {headers : List ProgramHeader} (hheaders : ∀ header ∈ headers, header ∈ file.loadHeaders)
    {segments : List Segment} (hfollow : List.Forall₂ (Follows SimulatedTarget) headers segments)
    {blocks : List Bytes} (hstaged : List.Forall₂ (Staged SimulatedTarget image) headers blocks)
    (hsegments : ∀ segment ∈ segments, segment ∈ m.segments)
    (hseen : ∀ a byte, Segment.view segments blocks a byte → memory.view a byte) :
    List.Forall₂ (Segment.Mirrors image memory) headers segments := by
  induction hfollow generalizing blocks with
  | nil => exact .nil
  | @cons header segment headers segments hfollows _ ih =>
    obtain ⟨block, blocks, hblock, hblocks, rfl⟩ := List.forall₂_cons_left_iff.mp hstaged
    obtain ⟨hheader, hheaders⟩ := List.forall_mem_cons.mp hheaders
    obtain ⟨hsegment, hsegments⟩ := List.forall_mem_cons.mp hsegments
    refine .cons ?_ (ih hheaders hblocks hsegments fun a byte hbyte =>
      hseen a byte (Segment.view_cons.mpr (Or.inr hbyte)))
    exact hfollows.mirrors hblock (memorySize_ne_zero hheader)
      (ObjectFile.exists_window_of_read hread hheader) hlodged hm hsegment
      fun a byte hbyte => hseen a byte (Segment.view_cons.mpr (Or.inl hbyte))

variable {start : Loader SimulatedTarget} {file : ObjectFile} {draft : Draft}

/-- The memory of a static module is its own. -/
theorem Seated.lodged (h : Seated start image file m draft)
    (hholds : memory.Holds ((m.segments.map (·.allocation) : List Allocation) + 0)) :
    Module.Lodged [m] memory := by
  have hsized : ∀ segment ∈ m.segments, segment.allocation.size = segment.memorySize :=
    ((List.forall₂_and_left (R := fun _ _ => True) _ _).mp
      (h.segments.imp fun _ _ hfollows => ⟨hfollows.size_eq, trivial⟩).flip).1
  refine .of_holds (List.nodup_singleton _) ?_ (List.forall_mem_singleton.mpr hsized)
  simpa [allocationsOf] using hholds

/-- What is staged of a static module fills its segments. -/
theorem Seated.fill (h : Seated start image file m draft) (hlodged : Module.Lodged [m] memory) :
    Segment.Fill m.segments draft.staged := by
  refine Segment.fill_of_lengths (hlodged.laid.fits m List.mem_cons_self) ?_
  have hsegments : file.loadHeaders.map (·.memorySize.toNat) = m.segments.map (·.memorySize.toNat) := by
    rw [← List.forall₂_eq_eq_eq, List.forall₂_map_left_iff, List.forall₂_map_right_iff]
    exact h.segments.imp fun _ _ hfollows => congrArg _ hfollows.memorySize_eq.symm
  have hblocks : file.loadHeaders.map (·.memorySize.toNat) = draft.staged.map (·.length) := by
    rw [← List.forall₂_eq_eq_eq, List.forall₂_map_left_iff, List.forall₂_map_right_iff]
    exact h.staged.imp fun _ _ hstaged => hstaged.length_eq.symm
  exact hblocks.symm.trans hsegments

/-! ## Loads on the simulated target -/

section Simulated

variable {before after : SimulatedTarget}

theorem executed_of_served (h : Relation.ReflTransGen Served before after) :
    after.executed = before.executed := by
  have hallocate (request : AllocRequest) (target : SimulatedTarget) :
      (Client.allocate request target).2.executed = target.executed := by
    rw [SimulatedTarget.allocate_apply]
    split <;> rfl
  have hrelease (allocation : Allocation) (target : SimulatedTarget) :
      (Client.release allocation target).2.executed = target.executed := by
    change SimulatedTarget.executed (if target.memory.isLive allocation then _ else _) = _
    split <;> rfl
  induction h with
  | refl => rfl
  | tail _ hlast ih =>
    rw [← ih]
    cases hlast with
    | allocate => exact hallocate _ _
    | refuse => exact (hrelease _ _).trans (hallocate _ _)
    | copy => rw [SimulatedTarget.copy_unchanged]
    | openDependent => rfl

theorem executed_of_filled (h : Filled before after) : after.executed = before.executed := by
  induction h with
  | refl => rfl
  | tail _ hlast ih =>
    obtain ⟨address, bytes, rfl⟩ := hlast
    rw [SimulatedTarget.write_apply]
    split <;> exact ih

theorem holds_of_filled {live : Multiset Allocation} (h : Filled before after)
    (hholds : before.memory.Holds live) : after.memory.Holds live := by
  induction h with
  | refl => exact hholds
  | tail _ hlast ih =>
    obtain ⟨address, bytes, rfl⟩ := hlast
    exact SimulatedTarget.holds_write ih address bytes

end Simulated

end Loading

namespace Loader

variable {before : Loader SimulatedTarget} {image : Image} {file : ObjectFile}

/-- A static module was added, its segments are in target memory as the file has them, and nothing was run
and no slot was asked for. -/
structure Hosts (before : Loader SimulatedTarget) (image : Image) (file : ObjectFile) (handle : Handle)
    (after : Loader SimulatedTarget) (m : Module) : Prop where
  modules : after.modules = before.modules ++ [m]
  resident : after.module? handle = some m
  entry : m.entry = file.header.entry
  segments : List.Forall₂ (Segment.Mirrors image after.client.memory) file.loadHeaders m.segments
  executed : after.client.executed = before.client.executed
  dsbt : after.dsbt = before.dsbt

theorem load_hosts (hsound : before.Sound Ledger.blank) (hmemory : before.client.memory.WellFormed)
    (hread : ObjectFile.read image = .ok file)
    (hstatic : ∀ header ∈ file.programHeaders, header.isDynamic = false) {arguments : List String}
    {handle : Handle} (hload : (before.load image arguments).1 = .ok handle) :
    ∃ m, before.Hosts image file handle (before.load image arguments).2 m := by
  obtain ⟨root, middle, after, hready, hcomplete, hmodules, hdsbt, hclient⟩ :=
    exists_ready_of_load_ok hload
  obtain ⟨placed, hplace, hprepare⟩ := exists_placed_of_ready hready
  have hholds : SimulatedTarget.ledger.holds before.client 0 :=
    ⟨hmemory, Multiset.nodup_zero, by simp⟩
  have hbare := ObjectFile.bare_of_read hread hstatic
  obtain ⟨m, draft, hroot, hseated, hraised⟩ :=
    (Loading.place_seated hread hbare (fun m hm => hsound.accounted.below m hm) hholds).ok rfl hplace
  obtain ⟨rfl, rfl⟩ := Prod.mk.inj hroot
  have hwalked := Loading.walked_place image { loader := before }
  rw [hplace] at hwalked
  -- what is prepared is what was placed, but for the tables of other modules
  have hprepared := (Loading.prepare_stores (hraised.inert hsound hseated) m.handle).ok rfl hprepare
  have hmiddle : middle.loader.modules = before.modules ++ [m] :=
    hprepared.modules.trans hraised.modules
  have hlodged := hseated.lodged (Loading.holds_of_filled hprepared.filled hraised.holds)
  have hfind : Module.find? middle.loader.modules draft.handle = some m := by
    rw [hmiddle, hseated.handle]
    exact Module.find?_last hseated.fresh
  rw [hprepared.pending, hraised.pending, Loading.complete_eq_of_bare hseated.bare] at hcomplete
  obtain ⟨memory, rfl, hwrites⟩ := (Loading.writeSegments_writes draft hfind
    (hseated.fill hlodged) (hlodged.laid.apart_within List.mem_cons_self)).ok rfl hcomplete
  have hmodules' := hmodules.trans hmiddle
  refine ⟨m, hmodules', ?_, hseated.entry, ?_, ?_, ?_⟩
  · obtain ⟨root, hhandles, hroot⟩ := (load_ok hsound hload).handles
    have hresident : m.handle ∈ handlesOf (before.load image arguments).2.modules :=
      hmodules' ▸ Module.handle_mem (List.mem_append_right _ List.mem_cons_self)
    rw [module?, hhandles, List.lookup_cons, beq_self_eq_true, ← hroot hresident, hmodules']
    exact Module.find?_last hseated.fresh
  · rw [hclient]
    exact Loading.forall_mirrors hread ⟨hlodged.laid, hwrites.holds _ hlodged.holds, hlodged.sized⟩
      List.mem_cons_self (fun _ => id) hseated.segments hseated.staged (fun _ => id) hwrites.fresh
  · rw [hclient]
    exact (Loading.executed_of_filled hprepared.filled).trans
      (Loading.executed_of_served hwalked.served)
  · exact hdsbt.trans (hprepared.dsbt.trans hraised.dsbt)

/-- A load of a static image that succeeds on the simulated target, whatever was done before and whatever
its memory is, leaves the image in target memory verbatim, runs nothing and asks for no slot.

Any client is asked for memory for the segments of the image only.  Nothing is run.  A client that hands
memory out at another address than that of the segment makes the load fail; it gets this memory back at
once, and after that the memory of earlier segments. -/
theorem load_static (image : Image) (file : ObjectFile) (hread : ObjectFile.read image = .ok file)
    (hstatic : ∀ header ∈ file.programHeaders, header.isDynamic = false) (arguments : List String) :
    (∀ (target : SimulatedTarget) (policy : LookupPolicy) (requests : List (Request SimulatedTarget)),
      let before := (fresh target policy).run requests
      before.client.memory.WellFormed → ∀ handle, (before.load image arguments).1 = .ok handle →
        ∃ m, before.Hosts image file handle (before.load image arguments).2 m) ∧
    (∀ (σ : Type) [Client σ] (client : σ) (policy : LookupPolicy) (requests : List (Request σ)),
      let before := onRecord client policy requests
      let after := (before.load image arguments).2
      ∃ calls, after.client.events = before.client.events ++ calls ∧ (∀ call ∈ calls, call.isStill) ∧
        ∀ first request answer rest, calls = first ++ .allocate request answer :: rest →
          request ∈ file.loadHeaders.map (·.request false) ∧
          ∀ allocation, answer = .ok allocation → allocation.address ≠ request.address →
            (∃ e, (before.load image arguments).1 = .error e) ∧
            ∃ others, rest = .release allocation :: others ∧ ∀ call ∈ others, call.isRelease) := by
  constructor
  · intro target policy requests before hmemory handle hload
    exact load_hosts (run_blank_sound target policy requests) hmemory hread hstatic hload
  · intro σ _ client policy requests before after
    have hsound : before.Sound Ledger.blank := run_blank_sound _ policy _
    obtain ⟨calls, hcalls, hkind⟩ :=
      load_calls hsound hread (ObjectFile.bare_of_read hread hstatic) arguments
    refine ⟨calls, hcalls, ?_, fun first request answer rest hsplit => ?_⟩
    · exact hkind.elim Straight.isStill fun hturned => hturned.1.isStill
    rcases hkind with hstraight | ⟨hturned, hfails⟩
    · have hmem : .allocate request answer ∈ calls := hsplit ▸ by simp
      obtain ⟨hheader, hsame⟩ := hstraight.granted hmem
      exact ⟨hheader, fun allocation hok hne => absurd (hsame allocation hok) hne⟩
    · obtain ⟨hheader, hback⟩ := hturned.granted hsplit
      exact ⟨hheader, fun allocation hok hne => ⟨hfails, hback allocation hok hne⟩⟩

/-- The file of the smallest image. -/
def bareFile : ObjectFile where
  header := FileHeader.decode bareImage .little
  order := .little
  machine := .arm
  programHeaders := [ProgramHeader.decode bareImage .little 52]

/-- The smallest image is loaded to `0x1000`.  A client that has room at `0x2000` only gets it back. -/
theorem load_static_bareImage :
    (∃ m, (fresh ({} : SimulatedTarget) .direct).Hosts bareImage bareFile 1
      ((fresh ({} : SimulatedTarget) .direct).load bareImage []).2 m) ∧
    let before := onRecord ({ client := {}, schedule := { misplaced := [0] } } :
      Scheduled SimulatedTarget) .direct []
    (∃ e, (before.load bareImage []).1 = .error e) ∧
      ∃ request allocation, allocation.address = 0x2000 ∧
        (before.load bareImage []).2.client.events =
          [.allocate request (.ok allocation), .release allocation] := by
  have hread : ObjectFile.read bareImage = .ok bareFile := by decide +kernel
  have hempty : ({} : SimulatedTarget).memory.WellFormed :=
    ⟨.nil, by rintro _ ⟨⟩, by rintro _ ⟨⟩⟩
  have hload := load_static bareImage bareFile hread (by decide) []
  refine ⟨hload.1 {} .direct [] hempty 1 (by decide +kernel), ?_⟩
  intro before
  obtain ⟨calls, hcalls, -, hgranted⟩ := hload.2 (Scheduled SimulatedTarget)
    { client := {}, schedule := { misplaced := [0] } } .direct []
  have hevents : (before.load bareImage []).2.client.events =
      [.allocate ⟨0x1000, 8, 4, 0, 4, true, false, false⟩ (.ok ⟨0x2000, 8, 1⟩),
        .release ⟨0x2000, 8, 1⟩] := by
    rfl
  obtain ⟨-, hback⟩ := hgranted [] _ _ _ (hcalls.symm.trans hevents)
  exact ⟨(hback _ rfl (by decide)).1, _, _, rfl, hevents⟩

end Loader

end TargetLink
