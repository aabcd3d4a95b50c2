import TargetLink.Proofs.Homes
import TargetLink.Proofs.LinkRanges
import TargetLink.Proofs.Origins
import TargetLink.Proofs.TableViews

/-!
# Dynamic tables in target memory

The dynamic table of a file is changed twice before it is written back: its addresses move when the module
is placed, and the slot is noted in it when the claims are bound.  `ObjectFile.Retables` says what both make
of it, entry by entry.  Neither touches a tag, so what is written back still ends at its only null entry
and can be read again as it was read from the file (`Loader.load_dynamicTables`).
-/

namespace TargetLink

open TargetLink.Module (handlesOf)

/-! ## Addresses of segments that stand apart -/

namespace Segment

variable {segment : Segment} {segments : List Segment} {link : UInt32} {size : Nat}

/-- The range from a link-time address on lies inside the segment. -/
def SpansLink (segment : Segment) (link : UInt32) (size : Nat) : Prop :=
  segment.containsLink link ∧ (link - segment.linkAddress).toNat + size ≤ segment.memorySize.toNat

instance (segment : Segment) (link : UInt32) (size : Nat) : Decidable (segment.SpansLink link size) :=
  inferInstanceAs (Decidable (_ ∧ _))

/-- A range of a segment moves with it. -/
theorem SpansLink.spans (h : segment.SpansLink link size) : segment.Spans (link + segment.delta) size := by
  have hsub : link + segment.delta - segment.address = link - segment.linkAddress := by
    unfold delta
    grind
  refine ⟨?_, ?_⟩
  · rw [contains_add_delta]
    exact h.1
  · rw [hsub]
    exact h.2

/-- The search for a link-time address finds the segment that it lies in. -/
theorem find?_of_containsLink (hapart : segments.Pairwise LinkApart) (hsegment : segment ∈ segments)
    (h : segment.containsLink link) : segments.find? (·.containsLink link) = some segment := by
  have hsome : (segments.find? (·.containsLink link)).isSome := List.find?_isSome.mpr ⟨segment, hsegment, h⟩
  obtain ⟨other, hother⟩ := Option.isSome_iff_exists.mp hsome
  obtain ⟨i, hi⟩ := List.getElem?_of_mem (List.mem_of_find?_eq_some hother)
  obtain ⟨j, hj⟩ := List.getElem?_of_mem hsegment
  have hcontains : other.containsLink link := by simpa using List.find?_some hother
  obtain rfl := Draft.eq_of_containsLink hapart hi hj hcontains h
  rw [hother, ← hi, hj]

end Segment

/-! ## Entries -/

namespace DynamicEntry

variable {machine : Machine} {segments : List Segment} {entry : DynamicEntry}
  {entries others : List DynamicEntry} {position? index? : Option Nat}

/-- What placing the module makes of an entry: an address that is not null moves with the segment that it
lies in, and everything else stays. -/
structure Moves (machine : Machine) (segments : List Segment) (entry moved : DynamicEntry) : Prop where
  tag : moved.tag = entry.tag
  inside : DynamicTag.isAddress machine entry.tag → entry.value ≠ 0 → ∀ segment ∈ segments,
    segment.containsLink entry.value → moved.value = entry.value + segment.delta
  outside : (DynamicTag.isAddress machine entry.tag → entry.value ≠ 0 → ∀ segment ∈ segments,
    ¬segment.containsLink entry.value) → moved = entry

theorem tag_moveEntry (machine : Machine) (segments : List Segment) (entry : DynamicEntry) :
    (Draft.moveEntry machine segments entry).tag = entry.tag := by
  unfold Draft.moveEntry
  split <;> rfl

theorem moves_moveEntry (hapart : segments.Pairwise Segment.LinkApart) (entry : DynamicEntry) :
    entry.Moves machine segments (Draft.moveEntry machine segments entry) := by
  refine ⟨tag_moveEntry machine segments entry, fun haddress hvalue segment hsegment hcontains => ?_,
    fun houtside => ?_⟩
  · rw [Draft.moveEntry_eq, translate, if_pos (by simp [haddress, hvalue]), Segment.translate,
      Segment.find?_of_containsLink hapart hsegment hcontains]
  · rw [Draft.moveEntry_eq, translate]
    split
    · rename_i hmoves
      obtain ⟨haddress, hvalue⟩ := Bool.and_eq_true_iff.mp hmoves
      have hnone : segments.find? (·.containsLink entry.value) = none :=
        List.find?_eq_none.mpr (houtside haddress (bne_iff_ne.mp hvalue))
      rw [Segment.translate, hnone]
    · rfl

theorem getElem?_noteSlot (entries : List DynamicEntry) (position index : Nat) :
    (noteSlot entries (some position) (some index))[position]? =
      entries[position]?.map fun entry => { entry with value := UInt32.ofNat index } :=
  List.getElem?_modify_eq _ _ _

/-- The slot is noted in one entry only. -/
theorem getElem?_noteSlot_of_ne {i : Nat} (h : index?.isSome → position? ≠ some i) :
    (noteSlot entries position? index?)[i]? = entries[i]? := by
  unfold noteSlot
  split
  · rename_i position
    have hne : position ≠ i := fun heq => h rfl (congrArg some heq)
    rw [List.getElem?_modify]
    simp only [if_neg hne, Option.map_eq_map, Option.map_id']
  · rfl

theorem tags_noteSlot (entries : List DynamicEntry) (position? index? : Option Nat) :
    (noteSlot entries position? index?).map (·.tag) = entries.map (·.tag) := by
  refine List.ext_getElem? fun i => ?_
  rw [List.getElem?_map, List.getElem?_map]
  by_cases hnoted : index?.isSome ∧ position? = some i
  · obtain ⟨index, rfl⟩ := Option.isSome_iff_exists.mp hnoted.1
    rw [hnoted.2, getElem?_noteSlot, Option.map_map]
    rfl
  · rw [getElem?_noteSlot_of_ne fun hindex hposition => hnoted ⟨hindex, hposition⟩]

/-- Where a table ends is a matter of its tags. -/
theorem NullEnded.of_tags (h : NullEnded entries) (htags : others.map (·.tag) = entries.map (·.tag)) :
    NullEnded others := by
  obtain ⟨init, last, rfl, hlast, hinit⟩ := h
  rw [List.map_append] at htags
  obtain ⟨others, ending, rfl, hothers, hending⟩ := List.map_eq_append_iff.mp htags
  obtain ⟨done, rfl, hdone⟩ := List.map_eq_singleton_iff.mp hending
  refine ⟨others, done, rfl, hdone.trans hlast, fun entry hentry => ?_⟩
  obtain ⟨origin, horigin, htag⟩ := List.mem_map.mp (hothers ▸ List.mem_map_of_mem hentry)
  exact htag ▸ hinit origin horigin

end DynamicEntry

/-! ## Tables -/

theorem ObjectFile.isRelocatable_of_dynamicAddress {file : ObjectFile} {link : UInt32}
    (h : file.dynamicAddress = some link) : file.isRelocatable = true := by
  rw [isRelocatable, h, Option.isSome_some]

/-- The dynamic table of a file after its segments were placed and its slot was assigned: the first entry
for the slot has it if the module asks for one, and every other entry has moved. -/
structure ObjectFile.Retables (file : ObjectFile) (segments : List Segment) (index? : Option Nat)
    (entries : List DynamicEntry) : Prop where
  length : entries.length = file.dynamic.length
  moved : ∀ i entry, file.dynamic[i]? = some entry →
    (file.dsbt.isSome → file.dynamic.findIdx? (·.tag == DynamicTag.dsbtIndex) ≠ some i) →
      ∃ done, entries[i]? = some done ∧ entry.Moves file.machine segments done
  noted : file.dsbt.isSome → ∀ i, file.dynamic.findIdx? (·.tag == DynamicTag.dsbtIndex) = some i →
    ∃ done, entries[i]? = some done ∧ done.tag = DynamicTag.dsbtIndex ∧ index? = some done.value.toNat

namespace Draft

variable {draft : Draft} {modules : List Module} {dsbt : Dsbt} {m : Module}

section

variable (h : draft.Settled modules dsbt) (hfind : Module.find? modules draft.handle = some m)
  (hrelocatable : draft.file.isRelocatable)

include h hfind hrelocatable

theorem Settled.dynamic_eq : draft.dynamic =
    DynamicEntry.noteSlot (draft.file.dynamic.map (moveEntry draft.file.machine m.segments))
      (draft.file.dynamic.findIdx? (·.tag == DynamicTag.dsbtIndex)) (dsbt.index? draft.handle) := by
  obtain ⟨n, hn, hdynamic⟩ := h.table
  obtain rfl := Option.some.inj (hfind.symm.trans hn)
  rw [hdynamic, ObjectFile.movedTable, if_pos hrelocatable]

theorem Settled.tags : draft.dynamic.map (·.tag) = draft.file.dynamic.map (·.tag) := by
  rw [h.dynamic_eq hfind hrelocatable, DynamicEntry.tags_noteSlot, List.map_map]
  exact List.map_congr_left fun entry _ => DynamicEntry.tag_moveEntry draft.file.machine m.segments entry

theorem Settled.retables (hconsistent : dsbt.Consistent)
    (hapart : m.segments.Pairwise Segment.LinkApart) :
    draft.file.Retables m.segments (dsbt.index? draft.handle) draft.dynamic := by
  have hdynamic := h.dynamic_eq hfind hrelocatable
  refine ⟨h.length_dynamic, fun i entry hentry hother => ?_, fun hclaims i hi => ?_⟩
  · rw [← h.bound] at hother
    rw [hdynamic, DynamicEntry.getElem?_noteSlot_of_ne hother, List.getElem?_map, hentry]
    exact ⟨_, rfl, DynamicEntry.moves_moveEntry hapart entry⟩
  · rw [← h.bound] at hclaims
    obtain ⟨index, hindex⟩ := Option.isSome_iff_exists.mp hclaims
    obtain ⟨hlt, htag, -⟩ := List.findIdx?_eq_some_iff_getElem.mp hi
    rw [hdynamic, hi, hindex, DynamicEntry.getElem?_noteSlot, List.getElem?_map,
      List.getElem?_eq_getElem hlt]
    refine ⟨_, rfl, (DynamicEntry.tag_moveEntry _ _ _).trans (eq_of_beq htag), ?_⟩
    rw [Loading.toNat_ofNat_of_index? hconsistent hindex]

end

/-- The dynamic table is written back where its segment went. -/
theorem dynamicHome?_eq {segment : Segment} {link : UInt32} (hlink : draft.file.dynamicAddress = some link)
    (hapart : m.segments.Pairwise Segment.LinkApart) (hsegment : segment ∈ m.segments)
    (hspans : segment.SpansLink link (8 * draft.dynamic.length)) :
    draft.dynamicHome? m.segments = some (link + segment.delta) := by
  have hrelocatable := ObjectFile.isRelocatable_of_dynamicAddress hlink
  rw [dynamicHome?, if_pos hrelocatable, movedDynamic?, hlink, Option.bind_some,
    Segment.find?_of_containsLink hapart hsegment hspans.1, Option.map_some, Option.filter_some, if_pos]
  exact List.any_eq_true.mpr ⟨segment, hsegment, decide_eq_true hspans.spans⟩

end Draft

/-! ## Reading tables again -/

/-- The dynamic table of a file that is read ends at its only null entry. -/
theorem ObjectFile.nullEnded_of_read {image : Image} {file : ObjectFile} {link : UInt32}
    (h : ObjectFile.read image = .ok file) (hlink : file.dynamicAddress = some link) :
    DynamicEntry.NullEnded file.dynamic := by
  obtain ⟨_, order, _, headers, -, -, -, h⟩ := exists_of_read h
  split at h
  · subst h
    cases hlink
  · obtain ⟨bytes, dynamic, -, hdynamic, hread⟩ := h
    obtain ⟨-, -, -, -, -, -, -, -, -, -, -, -, -, -, -, -, rfl⟩ := exists_of_readDynamic hread
    exact (DynamicEntry.exists_of_decodeTable hdynamic).2.2

/-- A shorter read of the same address reads the beginning. -/
theorem Memory.load?_take {memory : Memory} {address : UInt32} {size part : Nat} {bytes : Bytes}
    (h : memory.load? address size = some bytes) (hpart : part ≤ size) :
    memory.load? address part = some (bytes.take part) := by
  obtain ⟨region, hregion, hwindow⟩ := Option.bind_eq_some_iff.mp h
  have hshort : memory.regionOf? address part = some region := by
    unfold regionOf? at hregion ⊢
    split at hregion
    · split at hregion
      · obtain rfl := Option.some.inj hregion
        exact if_pos (by omega)
      · cases hregion
    · cases hregion
  have hlength := Bytes.length_window hwindow
  have hbeginning : bytes.window 0 part = some (bytes.take part) := if_pos (by omega)
  rw [load?, hshort, Option.bind_some, ← hbeginning, Bytes.window_window hwindow (by omega), Nat.add_zero]

namespace Loading

variable {middle after : Loading SimulatedTarget} {root : Handle} {arguments : List String} {m : Module}
  {draft : Draft}

/-- The dynamic table of a draft was linked inside a segment, and neither the relocations of the module nor
the arguments are stored over it. -/
def LeavesDynamic (loading : Loading SimulatedTarget) (root : Handle) (arguments : List String)
    (m : Module) (draft : Draft) (link : UInt32) (segment : Segment) : Prop :=
  let size := 8 * draft.file.dynamic.length
  draft.file.dynamicAddress = some link ∧ segment ∈ m.segments ∧ segment.SpansLink link size ∧
    ∀ i < size, ¬loading.Argued root arguments ((link + segment.delta).toNat + i) ∧
      ∀ patch ∈ draft.patches m.segments, ¬patch.Touches ((link + segment.delta).toNat + i)

instance (loading : Loading SimulatedTarget) (root : Handle) (arguments : List String) (m : Module)
    (draft : Draft) (link : UInt32) (segment : Segment) :
    Decidable (loading.LeavesDynamic root arguments m draft link segment) :=
  inferInstanceAs (Decidable (_ ∧ _ ∧ _ ∧ ∀ i < 8 * draft.file.dynamic.length, _))

/-- The dynamic table of a draft is read again from target memory with its addresses moved and its slot
noted, however much is read from its beginning on, if nothing was stored over it. -/
def ShowsDynamic (loading : Loading SimulatedTarget) (root : Handle) (arguments : List String)
    (dsbt : Dsbt) (memory : Memory) (m : Module) (draft : Draft) : Prop :=
  ∀ link segment, loading.LeavesDynamic root arguments m draft link segment →
    let size := 8 * draft.file.dynamic.length
    ∃ entries, draft.file.Retables m.segments (dsbt.index? m.handle) entries ∧
      (memory.load? (link + segment.delta) size).isSome ∧
      ∀ length bytes, size ≤ length → memory.load? (link + segment.delta) length = some bytes →
        DynamicEntry.decodeTable bytes m.order = .ok entries

section

variable (h : Landed middle root arguments after)
  (hwritten : WrittenBack middle.loader.modules middle.loader.dsbt middle)
  (hdraft : draft ∈ middle.session.pending)
  (hfind : Module.find? middle.loader.modules draft.handle = some m)

include h hwritten hdraft hfind

/-- The dynamic table that was written back is in target memory once the graph is completed, unless a patch
or an argument is stored over it. -/
theorem Landed.load_dynamic {home : UInt32} (hhome : draft.dynamicHome? m.segments = some home)
    (hpositive : 0 < draft.dynamic.length)
    (hshut : ∀ i < 8 * draft.dynamic.length, ¬middle.Argued root arguments (home.toNat + i) ∧
      ∀ patch ∈ draft.patches m.segments, ¬patch.Touches (home.toNat + i)) :
    after.loader.client.memory.load? home (8 * draft.dynamic.length) =
      some (DynamicEntry.encodeTable draft.dynamic m.order) := by
  have hlodged := h.lodged hwritten.lodged
  have hm : m ∈ after.loader.modules := h.modules ▸ (Module.mem_of_find? hfind).1
  have horder := (find_of_settled (hwritten.settled draft hdraft) hfind).1
  have hlength := DynamicEntry.length_encodeTable draft.dynamic m.order
  obtain ⟨blocks, hrelocated, hseen⟩ := h.written draft hdraft m hfind
  obtain ⟨segment, hsegment, hspans⟩ := Draft.exists_spans_of_dynamicHome? hhome
  have hstored := hwritten.dynamics draft hdraft m hfind home hhome
  rw [← horder] at hstored
  rw [← hlength] at hspans hshut ⊢
  refine hlodged.load?_of_reads hm hsegment hspans (by omega) fun i byte hbyte => ?_
  obtain ⟨hargued, hunpatched⟩ := hshut i (List.getElem?_eq_some_iff.mp hbyte).1
  exact hseen _ byte (hrelocated.patched.kept hunpatched (hstored i byte hbyte)) hargued

theorem Landed.showsDynamic (hconsistent : middle.loader.dsbt.Consistent)
    (hended : DynamicEntry.NullEnded draft.file.dynamic) (hapart : m.segments.Pairwise Segment.LinkApart) :
    middle.ShowsDynamic root arguments middle.loader.dsbt after.loader.client.memory m draft := by
  rintro link segment ⟨hlink, hsegment, hspans, hshut⟩
  have hsettled := hwritten.settled draft hdraft
  have hrelocatable := ObjectFile.isRelocatable_of_dynamicAddress hlink
  have hretables := hsettled.retables hfind hrelocatable hconsistent hapart
  rw [← (Module.mem_of_find? hfind).2] at hretables
  rw [← hsettled.length_dynamic] at hspans hshut ⊢
  have hended' := hended.of_tags (hsettled.tags hfind hrelocatable)
  have hload := h.load_dynamic hwritten hdraft hfind (Draft.dynamicHome?_eq hlink hapart hsegment hspans)
    hended'.length_pos hshut
  refine ⟨draft.dynamic, hretables, by rw [hload, Option.isSome_some], fun length bytes hle hbytes => ?_⟩
  have hbeginning := Memory.load?_take hbytes hle
  rw [hload, Option.some_inj] at hbeginning
  rw [← List.take_append_drop (8 * draft.dynamic.length) bytes, ← hbeginning]
  exact DynamicEntry.decodeTable_encodeTable hended' _

end

end Loading

namespace Loader

/-- A module that was loaded is that of a file which the load read, and its dynamic table is that of the
file, moved and with its slot noted. -/
def ShowsDynamic (loader : Loader SimulatedTarget) (image : Image) (arguments : List String)
    (after : Loader SimulatedTarget) (m : Module) : Prop :=
  let ready := Loading.ready image { loader }
  ∃ placed ∈ ready.1.toOption, ∃ draft ∈ ready.2.session.pending, draft.handle = m.handle ∧
    (∃ source, Loading.Delivered image loader.client source ∧ ObjectFile.read source = .ok draft.file) ∧
    ready.2.ShowsDynamic placed.1 arguments after.dsbt after.client.memory m draft

/-- A load that succeeds wrote the dynamic tables of its drafts back and completed the graph from there. -/
theorem exists_written_of_load_ok {loader : Loader SimulatedTarget}
    (hsound : loader.Sound SimulatedTarget.ledger) (hhoused : loader.Housed) (hfounded : loader.Founded)
    {image : Image} {arguments : List String} {handle : Handle}
    (hload : (loader.load image arguments).1 = .ok handle) : ∃ root middle completed,
      Loading.ready image { loader } = (.ok (root, handle), middle) ∧
      Loading.WrittenBack middle.loader.modules middle.loader.dsbt middle ∧
      (∀ draft ∈ middle.session.pending, ∃ source, Loading.Delivered image loader.client source ∧
        ObjectFile.read source = .ok draft.file) ∧
      Loading.Landed middle root arguments completed ∧
      (loader.load image arguments).2.modules = middle.loader.modules ∧
      (loader.load image arguments).2.dsbt = middle.loader.dsbt ∧
      (loader.load image arguments).2.client = completed.loader.client := by
  obtain ⟨root, middle, completed, hready, hcomplete, hmodules, hdsbt, hclient⟩ :=
    exists_ready_of_load_ok hload
  obtain ⟨placed, hplace, hprepare⟩ := exists_placed_of_ready hready
  have hlodged := Loading.lodged_of_place hsound hhoused hplace
  have hgrounded := (Loading.place_grounded hfounded hsound.accounted.below image).ok rfl hplace
  have hwritten := (Loading.prepare_writtenBack hlodged hgrounded root).ok rfl hprepare
  rw [← hwritten.modules_eq, ← hwritten.dsbt_eq] at hwritten
  have hlanded := landed_of_ready hsound hready hwritten.toStaging hcomplete
  exact ⟨root, middle, completed, hready, hwritten, Loading.delivered_of_prepare hplace hprepare, hlanded,
    hmodules, hdsbt, hclient⟩

/-- After any run on the simulated target, the dynamic table of every new module whose segments were linked
apart is read from target memory after a load that succeeds: it is the table of the file, with its addresses
moved and the slot noted, unless the relocations of the module or the arguments are stored over it. -/
theorem load_dynamicTables (target : SimulatedTarget) (htarget : target.memory.WellFormed)
    (policy : LookupPolicy) {requests : List (Request SimulatedTarget)}
    (hfair : ∀ request ∈ requests, Fair SimulatedTarget.ledger request) :
    let before := (fresh target policy).run requests
    ∀ image arguments handle, (before.load image arguments).1 = .ok handle →
    let after := (before.load image arguments).2
    ∀ m ∈ after.modules, m.handle ∉ handlesOf before.modules →
      m.segments.Pairwise Segment.LinkApart → before.ShowsDynamic image arguments after m := by
  have hfresh : (fresh target policy).Sound SimulatedTarget.ledger :=
    fresh_sound policy ⟨htarget, Multiset.nodup_zero, by simp⟩
  have hsound := run_sound hfresh hfair
  have hhoused : ((fresh target policy).run requests).Housed :=
    housed_run hfresh (by rintro _ ⟨⟩) hfair
  have hfounded := founded_run hfresh (founded_fresh target policy) hfair
  generalize (fresh target policy).run requests = before at hsound hhoused hfounded
  intro _ image arguments handle hload after m hm hnew hapart
  have hafter : after.Founded := founded_load hsound hfounded image arguments
  obtain ⟨root, middle, completed, hready, hwritten, hdelivered, hlanded, hmodules, hdsbt, hclient⟩ :=
    exists_written_of_load_ok hsound hhoused hfounded hload
  have hm' : m ∈ middle.loader.modules := hmodules ▸ hm
  have horder := (Loading.ready_inOrder hsound image).ok rfl hready
  obtain ⟨draft, hdraft, hown⟩ := List.mem_map.mp
    ((horder.mem_iff m.handle).mpr ⟨Module.handle_mem hm', hnew⟩)
  have hfind : Module.find? middle.loader.modules draft.handle = some m :=
    hown ▸ Module.find?_of_mem hwritten.lodged.laid.distinct hm'
  obtain ⟨source, hsource, hread⟩ := hdelivered draft hdraft
  unfold ShowsDynamic
  rw [hready]
  refine ⟨(root, handle), rfl, draft, hdraft, hown, ⟨source, hsource, hread⟩, ?_⟩
  rw [hclient, hdsbt]
  rintro link segment hleaves
  exact hlanded.showsDynamic hwritten hdraft hfind (hdsbt ▸ hafter.consistent)
    (ObjectFile.nullEnded_of_read hread hleaves.1) hapart link segment hleaves

/-- A module with a private table for two slots that takes any slot and has a note of it, and with a
relocation. -/
def notedObject : SampleObject where
  machine := 140
  data := [0, 0, 0, SampleObject.dataOffset + 8, 1, 0x200]
  names := [[0x62]]
  tags := [(DynamicTag.dsbtBase, SampleObject.dataOffset), (DynamicTag.dsbtSize, 2),
    (DynamicTag.dsbtIndex, Dsbt.anyIndex), (DynamicTag.rela, SampleObject.dataOffset + 12),
    (DynamicTag.relaSize, 12), (DynamicTag.relaEntry, 12)]

/-- Loading `b` behind a resident `a` moves the addresses in the dynamic table of `b`, all of one segment, and
notes slot 1 there. -/
theorem load_dynamicTables_of_noted :
    let before := (fresh ({} : SimulatedTarget) .direct).run [.load (tabledObject 0x61 2).image []]
    let b := notedObject.image
    let ready := Loading.ready b { loader := before }
    let after := (before.load b []).2
    (∃ m ∈ after.modules, m.handle = 2 ∧ ∃ draft ∈ ready.2.session.pending, draft.handle = 2 ∧
      (draft.patches m.segments).length = 1 ∧
      ∃ link ∈ draft.file.dynamicAddress, ∃ segment ∈ m.segments,
        ready.2.LeavesDynamic 2 [] m draft link segment ∧
        (draft.file.dynamic.map fun entry => (entry.tag, entry.value)) =
          [(4, 0x8c), (6, 0x94), (11, 16), (5, 0xa4), (10, 3), (14, 1), (0x70000000, 0x74), (0x70000001, 2),
            (0x70000003, 0xffffffff), (7, 0x80), (8, 12), (9, 12), (0, 0)] ∧
        ∃ bytes ∈ after.client.memory.load? (link + segment.delta) 104,
          ∃ entries ∈ (DynamicEntry.decodeTable bytes m.order).toOption,
            (entries.map fun entry => (entry.tag, entry.value)) =
              [(4, 0x1000016c), (6, 0x10000174), (11, 16), (5, 0x10000184), (10, 3), (14, 1),
                (0x70000000, 0x10000154), (0x70000001, 2), (0x70000003, 1), (7, 0x10000160), (8, 12), (9, 12),
                (0, 0)]) ∧
      ∀ m ∈ after.modules, m.handle ∉ handlesOf before.modules → before.ShowsDynamic b [] after m := by
  have hempty : ({} : SimulatedTarget).memory.WellFormed :=
    ⟨.nil, by rintro _ ⟨⟩, by rintro _ ⟨⟩⟩
  have hfair : ∀ request ∈ [Request.load (tabledObject 0x61 2).image []],
      Fair SimulatedTarget.ledger request :=
    fun request hmem => List.mem_singleton.mp hmem ▸ trivial
  have hsingle : ∀ m ∈ (((fresh ({} : SimulatedTarget) .direct).run
      [.load (tabledObject 0x61 2).image []]).load notedObject.image []).2.modules,
      ∃ segment ∈ m.segments.head?, m.segments = [segment] := by
    decide +kernel
  refine ⟨by decide +kernel, fun m hm hnew => ?_⟩
  obtain ⟨segment, -, hsegments⟩ := hsingle m hm
  exact load_dynamicTables {} hempty .direct hfair notedObject.image [] 2 (by decide +kernel) m hm hnew
    (hsegments ▸ List.pairwise_singleton _ _)

end Loader

end TargetLink
