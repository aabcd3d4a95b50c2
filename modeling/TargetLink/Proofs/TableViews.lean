import TargetLink.Proofs.Flush
import TargetLink.Proofs.SampleObjects

/-!
# The views of the table of static bases

After a load the same assignment of slots can be read in four places: in the table of the loader, in the
private tables of the bound modules, in the dynamic tables of the new modules, and in the fields of their
slot relocations.  Where nothing else is stored over them, they agree (`Loader.load_tables`).

The private table of a new module is staged first; its dynamic table, its relocations and the arguments
are stored after that.  A field of a slot relocation can be changed by a later relocation, and dynamic
entries and fields by the arguments, so these have to stay away from what is read.
-/

namespace TargetLink

open TargetLink.Module (handlesOf)
open LoadM (Triple)

/-! ## Where slots are noted -/

namespace Draft

/-- Relocating the module or writing its dynamic table back stores at this address. -/
def Rewrites (draft : Draft) (segments : List Segment) (address : Nat) : Prop :=
  (∃ patch ∈ draft.patches segments, patch.Touches address) ∨
    ∃ home ∈ draft.dynamicHome? segments,
      home.toNat ≤ address ∧ address < home.toNat + 8 * draft.dynamic.length

instance (draft : Draft) (segments : List Segment) (address : Nat) :
    Decidable (draft.Rewrites segments address) :=
  inferInstanceAs (Decidable ((∃ patch ∈ draft.patches segments, _) ∨
    ∃ home ∈ draft.dynamicHome? segments, _))

/-- The position of the dynamic entry that receives the slot of the module. -/
def slotEntry? (draft : Draft) : Option Nat :=
  draft.file.dynamic.findIdx? (·.tag == DynamicTag.dsbtIndex)

/-- The final address of the slot in the dynamic table, if the table has room for it and is written
back. -/
def slotNote? (draft : Draft) (segments : List Segment) : Option UInt32 :=
  (draft.dynamicHome? segments).bind fun home =>
    draft.slotEntry?.map fun position => home + UInt32.ofNat (8 * position + 4)

variable {draft : Draft} {segments : List Segment}

theorem exists_spans_of_dynamicHome? {home : UInt32} (h : draft.dynamicHome? segments = some home) :
    ∃ segment ∈ segments, segment.Spans home (8 * draft.dynamic.length) := by
  unfold dynamicHome? at h
  split at h
  · obtain ⟨segment, hsegment, hspans⟩ := List.any_eq_true.mp (Option.filter_eq_some_iff.mp h).2
    exact ⟨segment, hsegment, of_decide_eq_true hspans⟩
  · cases h

end Draft

/-! ## Encoded tables -/

theorem ByteOrder.getElem?_encodeWords (order : ByteOrder) {words : List UInt32} {k : Nat}
    {word : UInt32} (h : words[k]? = some word) {i : Nat} (hi : i < 4) :
    (order.encodeWords words)[4 * k + i]? = (order.encode 4 word.toNat)[i]? := by
  induction words generalizing k with
  | nil => cases h
  | cons first words ih =>
    rw [encodeWords, List.flatMap_cons, ← encodeWords]
    cases k with
    | zero =>
      obtain rfl := Option.some.inj h
      rw [Nat.mul_zero, Nat.zero_add, List.getElem?_append_left (by rwa [length_encode])]
    | succ k =>
      rw [List.getElem?_append_right (by rw [length_encode]; omega), length_encode, ← ih h]
      congr 1
      omega

/-- The value of a dynamic entry stands behind its tag. -/
theorem DynamicEntry.getElem?_encodeTable (order : ByteOrder) {entries : List DynamicEntry}
    {position : Nat} {entry : DynamicEntry} (h : entries[position]? = some entry) {i : Nat}
    (hi : i < 4) : (encodeTable entries order)[8 * position + 4 + i]? =
      (order.encode 4 entry.value.toNat)[i]? := by
  have hvalue := getElem?_words h Nat.one_lt_two
  rw [encodeTable, ← order.getElem?_encodeWords hvalue hi]
  congr 1
  omega

/-! ## Loads that succeed -/

namespace Loading

variable {modules : List Module} {dsbt : Dsbt} {middle after : Loading SimulatedTarget}
  {root : Handle} {arguments : List String} {m : Module}

/-- The private table of a claim lies inside one segment of its module, and neither the module's own
dynamic table and relocations nor the arguments are stored over it. -/
def LeavesTable (loading : Loading SimulatedTarget) (root : Handle) (arguments : List String)
    (claim : Dsbt.Claim) : Prop :=
  let size := 4 * loading.loader.dsbt.slots.length
  ∃ m ∈ loading.loader.modules, m.handle = claim.handle ∧
    (∃ segment ∈ m.segments, segment.Spans claim.base size) ∧
    ∀ i < size, ¬loading.Argued root arguments (claim.base.toNat + i) ∧
      ∀ draft ∈ loading.session.pending, draft.handle = m.handle →
        ¬draft.Rewrites m.segments (claim.base.toNat + i)

instance (loading : Loading SimulatedTarget) (root : Handle) (arguments : List String)
    (claim : Dsbt.Claim) : Decidable (loading.LeavesTable root arguments claim) :=
  inferInstanceAs (Decidable (∃ m ∈ loading.loader.modules, _))

theorem Landed.lodged (h : Landed middle root arguments after)
    (hlodged : Module.Lodged middle.loader.modules middle.loader.client.memory) :
    Module.Lodged after.loader.modules after.loader.client.memory := by
  rw [h.modules]
  exact { hlodged with holds := h.holds _ hlodged.holds }

/-- The private table of a bound module holds the table once the graph is completed. -/
theorem Landed.reads_table (h : Landed middle root arguments after)
    (hprepared : Prepared middle.loader.modules middle.loader.dsbt middle)
    {entry : Nat × Dsbt.Claim} (hentry : entry ∈ middle.loader.dsbt.entries)
    (hm : m ∈ middle.loader.modules) (hhandle : m.handle = entry.2.handle) {segment : Segment}
    (hsegment : segment ∈ m.segments)
    (hspans : segment.Spans entry.2.base (4 * middle.loader.dsbt.slots.length))
    (hleft : ∀ i < 4 * middle.loader.dsbt.slots.length,
      ¬middle.Argued root arguments (entry.2.base.toNat + i) ∧
        ∀ draft ∈ middle.session.pending, draft.handle = m.handle →
          ¬draft.Rewrites m.segments (entry.2.base.toNat + i)) :
    after.loader.client.memory.view.Reads entry.2.base.toNat
      (m.order.encodeWords middle.loader.dsbt.table) := by
  have hlaid := hprepared.lodged.laid
  have hready := hprepared.tables entry hentry m hm hhandle ?_
  · cases hnew : middle.session.pending.find? (·.handle == m.handle) with
    | some draft =>
      obtain ⟨hdraft, hown⟩ := mem_of_find_pending hnew
      have hfind : Module.find? middle.loader.modules draft.handle = some m :=
        hown ▸ Module.find?_of_mem hlaid.distinct hm
      obtain ⟨blocks, hrelocated, hseen⟩ := h.written draft hdraft m hfind
      rw [moduleView_new hnew] at hready
      refine hready.mono fun i hi byte hbyte => ?_
      rw [length_encode_table] at hi
      obtain ⟨hshut, hunwritten⟩ := hleft i hi
      refine hseen _ byte (hrelocated.patched.kept (fun patch hpatch htouches => ?_) hbyte) hshut
      exact hunwritten draft hdraft hown (Or.inl ⟨patch, hpatch, htouches⟩)
    | none =>
      rw [moduleView_old hnew] at hready
      refine hready.mono fun i hi byte => ?_
      rw [length_encode_table] at hi
      refine h.kept _ byte ?_ (hleft i hi).1
      -- the address belongs to a module that is not new
      rintro draft hdraft ⟨n, hfind, other, hother, howns⟩
      obtain ⟨hn, hown⟩ := Module.mem_of_find? hfind
      have hne : m.handle ≠ n.handle := by
        intro heq
        have habsent := List.find?_eq_none.mp hnew draft hdraft
        simp [← hown, heq] at habsent
      exact hlaid.apart_of_ne hm hn hne hsegment hother _
        (hspans.owns (hlaid.fits m hm segment hsegment) hi) howns
  · intro draft hdraft hown home hhome i hi
    have hunwritten := (hleft i hi).2 draft hdraft hown
    by_contra hinside
    exact hunwritten (Or.inr ⟨home, hhome, by omega, by omega⟩)

/-! ## New modules -/

/-- The slot of a new module is what its dynamic table and its code say in target memory, as far as
nothing was stored over them. -/
structure ShowsSlot (loading : Loading SimulatedTarget) (root : Handle) (arguments : List String)
    (dsbt : Dsbt) (memory : Memory) (m : Module) (draft : Draft) : Prop where
  note : ∀ index, dsbt.index? m.handle = some index → ∀ place ∈ draft.slotNote? m.segments,
    (∀ i < 4, ¬loading.Argued root arguments (place.toNat + i) ∧
      ∀ patch ∈ draft.patches m.segments, ¬patch.Touches (place.toNat + i)) →
    memory.load? place 4 = some (m.order.encode 4 index)
  field : ∀ earlier patch later, draft.patches m.segments = earlier ++ patch :: later →
    patch.StoresSlot →
    (∀ i, i = 1 ∨ i = 2 → ¬loading.Argued root arguments (patch.address.toNat + i) ∧
      ∀ other ∈ later, ¬other.Touches (patch.address.toNat + i)) →
    ∃ index bytes, dsbt.index? m.handle = some index ∧
      memory.load? patch.address 4 = some bytes ∧
      Relocation.C6000.slotIn (m.order.decode bytes) = index

/-- A slot fits into a word. -/
theorem toNat_ofNat_of_index? {handle : Handle} {index : Nat} (hconsistent : dsbt.Consistent)
    (h : dsbt.index? handle = some index) : (UInt32.ofNat index).toNat = index := by
  obtain ⟨claim, hslot, -⟩ := hconsistent.index?_eq_some_iff.mp h
  have hlt := Dsbt.lt_of_claimAt? hslot
  have hshort := hconsistent.short
  exact UInt32.toNat_ofNat_of_lt' (by omega)

section

variable (h : Landed middle root arguments after)
  (hconsistent : middle.loader.dsbt.Consistent)
  (hprepared : Prepared middle.loader.modules middle.loader.dsbt middle) {draft : Draft}
  (hdraft : draft ∈ middle.session.pending)
  (hfind : Module.find? middle.loader.modules draft.handle = some m)

include h hconsistent hprepared hdraft hfind

/-- The dynamic entry that receives the slot holds it, unless a patch or an argument is stored there. -/
theorem Landed.load_note {index : Nat} (hindex : middle.loader.dsbt.index? m.handle = some index)
    {place : UInt32} (hplace : place ∈ draft.slotNote? m.segments)
    (hshut : ∀ i < 4, ¬middle.Argued root arguments (place.toNat + i) ∧
      ∀ patch ∈ draft.patches m.segments, ¬patch.Touches (place.toNat + i)) :
    after.loader.client.memory.load? place 4 = some (m.order.encode 4 index) := by
  have hlodged := h.lodged hprepared.lodged
  obtain ⟨hm, hhandle⟩ := Module.mem_of_find? hfind
  have hm' : m ∈ after.loader.modules := h.modules ▸ hm
  have hfits := hprepared.lodged.laid.fits m hm
  have hsettled := hprepared.settled draft hdraft
  have horder := (find_of_settled hsettled hfind).1
  obtain ⟨blocks, hrelocated, hseen⟩ := h.written draft hdraft m hfind
  obtain ⟨home, hhome, hplace⟩ := Option.bind_eq_some_iff.mp hplace
  obtain ⟨position, hposition, rfl⟩ := Option.map_eq_some_iff.mp hplace
  obtain ⟨entry, hentry, hvalue⟩ := hsettled.noted (hhandle ▸ hindex) hposition
  obtain ⟨segment, hsegment, hspans⟩ := Draft.exists_spans_of_dynamicHome? hhome
  have hlt := (List.getElem?_eq_some_iff.mp hentry).1
  obtain ⟨hplace, hroom⟩ : (home + UInt32.ofNat (8 * position + 4)).toNat =
      home.toNat + (8 * position + 4) ∧ segment.Spans (home + UInt32.ofNat (8 * position + 4)) 4 :=
    hspans.within (hfits segment hsegment) (by omega) (by omega)
  have hreads : after.loader.client.memory.view.Reads (home + UInt32.ofNat (8 * position + 4)).toNat
      (m.order.encode 4 index) := by
    intro i byte hbyte
    have hi := (List.getElem?_eq_some_iff.mp hbyte).1
    rw [ByteOrder.length_encode] at hi
    obtain ⟨hargued, hunpatched⟩ := hshut i hi
    refine hseen _ byte (hrelocated.patched.kept hunpatched ?_) hargued
    rw [hplace, Nat.add_assoc]
    refine hprepared.dynamics draft hdraft m hfind home hhome _ byte ?_
    rw [DynamicEntry.getElem?_encodeTable _ hentry hi, hvalue,
      toNat_ofNat_of_index? hconsistent hindex, ← horder]
    exact hbyte
  have hlength : (m.order.encode 4 index).length = 4 := ByteOrder.length_encode _ _ _
  have hload := hlodged.load?_of_reads hm' hsegment (hlength.symm ▸ hroom) (by omega) hreads
  rwa [hlength] at hload

/-- The cell of a slot relocation holds the slot, unless a later patch or an argument is stored there. -/
theorem Landed.load_field {earlier later : List Draft.Patch} {patch : Draft.Patch}
    (hsplit : draft.patches m.segments = earlier ++ patch :: later) (hslot : patch.StoresSlot)
    (hshut : ∀ i, i = 1 ∨ i = 2 → ¬middle.Argued root arguments (patch.address.toNat + i) ∧
      ∀ other ∈ later, ¬other.Touches (patch.address.toNat + i)) :
    ∃ index bytes, middle.loader.dsbt.index? m.handle = some index ∧
      after.loader.client.memory.load? patch.address 4 = some bytes ∧
      Relocation.C6000.slotIn (m.order.decode bytes) = index := by
  have hlodged := h.lodged hprepared.lodged
  obtain ⟨hm, hhandle⟩ := Module.mem_of_find? hfind
  have hm' : m ∈ after.loader.modules := h.modules ▸ hm
  have hsettled := hprepared.settled draft hdraft
  have horder := (find_of_settled hsettled hfind).1
  obtain ⟨blocks, hrelocated, hseen⟩ := h.written draft hdraft m hfind
  have hpatched := hrelocated.patched
  rw [hsplit] at hpatched
  obtain ⟨hspans, slot, word, hsome, hword, hstored⟩ := hpatched.exists_slot hslot
  rw [hsettled.slot, hhandle.symm] at hsome
  obtain ⟨index, hindex, rfl⟩ := Option.map_eq_some_iff.mp hsome
  have hpatch : patch ∈ draft.patches m.segments := by simp [hsplit]
  have hsegment := Draft.segment_mem_of_patches hpatch
  obtain ⟨bytes, hload, hlength, hbytes⟩ := hlodged.exists_load? hm' hsegment hspans (by omega)
  refine ⟨index, bytes, hindex, hload, ?_⟩
  rw [horder, Relocation.C6000.slotIn_decode draft.file.order word hlength, hword,
    toNat_ofNat_of_index? hconsistent hindex]
  intro i hi
  obtain ⟨hargued, hunpatched⟩ := hshut i hi
  have hlt : i < (draft.file.order.encode 4 word).length := by
    rw [ByteOrder.length_encode]
    omega
  have hbyte := List.getElem?_eq_getElem hlt
  rw [hbyte]
  exact hbytes i (by omega) _ (hseen _ _ (hstored i _ hunpatched hbyte) hargued)

theorem Landed.showsSlot :
    middle.ShowsSlot root arguments middle.loader.dsbt after.loader.client.memory m draft where
  note _ hindex _ hplace hshut :=
    h.load_note hconsistent hprepared hdraft hfind hindex hplace hshut
  field _ _ _ hsplit hslot hshut :=
    h.load_field hconsistent hprepared hdraft hfind hsplit hslot hshut

end

end Loading

namespace Loader

/-- A bound entry of the table is what its module shows in target memory. -/
structure ShowsTable (loader : Loader SimulatedTarget) (entry : Nat × Dsbt.Claim) (m : Module) :
    Prop where
  handle : m.handle = entry.2.handle
  index : loader.dsbt.index? m.handle = some entry.1
  stored : loader.client.memory.load? entry.2.base (4 * loader.dsbt.table.length) =
    some (m.order.encodeWords loader.dsbt.table)
  staticBase : loader.dsbt.table[entry.1]? = some m.staticBase
  room : loader.dsbt.table.length ≤ entry.2.size.toNat

/-- The private table of a claim is left alone once it is staged, whatever root is found. -/
def LeavesTable (loader : Loader SimulatedTarget) (image : Image) (arguments : List String)
    (claim : Dsbt.Claim) : Prop :=
  let ready := Loading.ready image { loader }
  ∃ placed ∈ ready.1.toOption, ready.2.LeavesTable placed.1 arguments claim

instance (loader : Loader SimulatedTarget) (image : Image) (arguments : List String)
    (claim : Dsbt.Claim) : Decidable (loader.LeavesTable image arguments claim) :=
  inferInstanceAs (Decidable (∃ placed ∈ (Loading.ready image { loader }).1.toOption, _))

/-- The slot of a module that was loaded is what its dynamic table and its code say after the load. -/
def ShowsSlot (loader : Loader SimulatedTarget) (image : Image) (arguments : List String)
    (after : Loader SimulatedTarget) (m : Module) : Prop :=
  let ready := Loading.ready image { loader }
  ∃ placed ∈ ready.1.toOption, ∃ draft ∈ ready.2.session.pending, draft.handle = m.handle ∧
    ready.2.ShowsSlot placed.1 arguments after.dsbt after.client.memory m draft

variable {loader : Loader SimulatedTarget}

/-- A graph that is ready was placed and prepared. -/
theorem exists_placed_of_ready {image : Image} {root handle : Handle}
    {middle : Loading SimulatedTarget}
    (h : Loading.ready image { loader } = (.ok (root, handle), middle)) :
    ∃ placed, Loading.place image { loader } = (.ok (root, handle), placed) ∧
      Loading.prepare root placed = (.ok (), middle) := by
  rw [Loading.ready, LoadM.bind_apply] at h
  rcases hplace : Loading.place image { loader } with ⟨e | ⟨root', handle'⟩, placed⟩ <;>
    rw [hplace] at h
  · cases h
  · simp only [LoadM.bind_apply] at h
    rcases hprepare : Loading.prepare root' placed with ⟨e | ⟨⟩, middle'⟩ <;> rw [hprepare] at h
    · cases h
    · obtain ⟨heq, rfl⟩ := Prod.mk.inj h
      obtain ⟨rfl, rfl⟩ := Prod.mk.inj (Except.ok.inj heq)
      exact ⟨placed, rfl, hprepare⟩

/-- A load that succeeds made its graph ready and completed it. -/
theorem exists_ready_of_load_ok {image : Image} {arguments : List String} {handle : Handle}
    (h : (loader.load image arguments).1 = .ok handle) : ∃ root middle after,
      Loading.ready image { loader } = (.ok (root, handle), middle) ∧
      Loading.complete root arguments middle.session.pending middle = (.ok (), after) ∧
      (loader.load image arguments).2.modules = middle.loader.modules ∧
      (loader.load image arguments).2.dsbt = middle.loader.dsbt ∧
      (loader.load image arguments).2.client = after.loader.client := by
  rw [load_apply] at h ⊢
  rcases hready : Loading.ready image { loader } with ⟨e | ⟨root, handle'⟩, middle⟩ <;> rw [hready] at h
  · cases h
  · have halong := Loading.along_complete (fun _ _ => True) middle root arguments
      middle.session.pending (fun _ _ _ _ _ _ _ => trivial) fun _ _ _ _ _ _ => trivial
    dsimp only at h ⊢
    rcases hcomplete : Loading.complete root arguments middle.session.pending middle with
      ⟨e | ⟨⟩, after⟩ <;> rw [hcomplete] at h halong
    · cases h
    · obtain rfl := Except.ok.inj h
      exact ⟨root, middle, after, rfl, hcomplete, halong.modules, halong.dsbt, rfl⟩

/-- A graph that is ready is prepared, if every private table lies inside one segment of its module. -/
theorem prepared_of_ready (hsound : loader.Sound SimulatedTarget.ledger) (hhoused : loader.Housed)
    (hfounded : loader.Founded) {image : Image} {root handle : Handle}
    {middle : Loading SimulatedTarget}
    (h : Loading.ready image { loader } = (.ok (root, handle), middle))
    (hhomed : middle.loader.dsbt.Homed middle.loader.modules) :
    middle.loader.dsbt.tooSmall? = none ∧
      Loading.Prepared middle.loader.modules middle.loader.dsbt middle := by
  obtain ⟨placed, hplace, hprepare⟩ := exists_placed_of_ready h
  have hlodged := Loading.lodged_of_place hsound hhoused hplace
  have hgrounded := (Loading.place_grounded hfounded hsound.accounted.below image).ok rfl hplace
  have halong := Loading.along_prepare root placed
  rw [hprepare] at halong
  have hmodules : middle.loader.modules = placed.loader.modules := halong.modules
  have hdsbt : middle.loader.dsbt = placed.loader.dsbt.assign := halong.dsbt
  rw [hmodules, hdsbt] at hhomed ⊢
  exact (Loading.prepare_prepared hlodged hgrounded hhomed root).ok rfl hprepare

/-- No private table is too small for the table that is stored in it. -/
theorem room_of_tooSmall? {dsbt : Dsbt} (h : dsbt.tooSmall? = none) {entry : Nat × Dsbt.Claim}
    (hentry : entry ∈ dsbt.entries) : dsbt.table.length ≤ entry.2.size.toNat := by
  have hnot := List.find?_eq_none.mp h entry.2 (List.mem_map_of_mem hentry)
  rw [dsbt.length_table]
  simpa using hnot

/-- The table holds the static base of the module that a slot is bound to. -/
theorem Founded.table_eq (h : loader.Founded) {entry : Nat × Dsbt.Claim}
    (hentry : entry ∈ loader.dsbt.entries) {m : Module} (hm : m ∈ loader.modules)
    (hdistinct : (handlesOf loader.modules).Nodup) (hhandle : m.handle = entry.2.handle) :
    loader.dsbt.table[entry.1]? = some m.staticBase := by
  have hslot := Dsbt.mem_entries.mp hentry
  obtain ⟨placement, hmem, hown, hbase⟩ :=
    h.based entry.2 (Dsbt.mem_claims.mpr (Or.inr ⟨entry.1, hslot⟩))
  obtain ⟨n, hn, rfl⟩ := List.mem_map.mp hmem
  obtain rfl := Module.eq_of_handle_eq hdistinct hn hm (hown.trans hhandle.symm)
  rw [Dsbt.table, List.getElem?_map, Option.join_eq_some_iff.mp hslot, Option.map_some]
  exact congrArg some hbase.symm

/-- What is seen of the table in a private table is what the module shows. -/
theorem Founded.showsTable (h : loader.Founded)
    (hlodged : Module.Lodged loader.modules loader.client.memory)
    (hroom : loader.dsbt.tooSmall? = none) {entry : Nat × Dsbt.Claim}
    (hentry : entry ∈ loader.dsbt.entries) {m : Module} (hm : m ∈ loader.modules)
    (hhandle : m.handle = entry.2.handle) {segment : Segment} (hsegment : segment ∈ m.segments)
    (hspans : segment.Spans entry.2.base (4 * loader.dsbt.slots.length))
    (hreads : loader.client.memory.view.Reads entry.2.base.toNat
      (m.order.encodeWords loader.dsbt.table)) : loader.ShowsTable entry m := by
  have hslot := Dsbt.mem_entries.mp hentry
  have hpositive := Dsbt.lt_of_claimAt? hslot
  have hlength := Loading.length_encode_table m.order loader.dsbt
  have hstored := hlodged.load?_of_reads hm hsegment (hlength.symm ▸ hspans) (by omega) hreads
  exact {
    handle := hhandle
    index := h.consistent.index?_eq_some_iff.mpr ⟨_, hslot, hhandle.symm⟩
    stored := by rwa [hlength, ← loader.dsbt.length_table] at hstored
    staticBase := h.table_eq hentry hm hlodged.laid.distinct hhandle
    room := room_of_tooSmall? hroom hentry }

/-- A graph that was ready with settled drafts is in target memory once it is completed. -/
theorem landed_of_ready (hsound : loader.Sound SimulatedTarget.ledger) {image : Image}
    {placed : Handle × Handle} {middle completed : Loading SimulatedTarget}
    (hready : Loading.ready image { loader } = (.ok placed, middle))
    (hstaging : Loading.Staging middle.loader.modules middle.loader.dsbt middle) {root : Handle}
    {arguments : List String}
    (hcomplete : Loading.complete root arguments middle.session.pending middle = (.ok (), completed)) :
    Loading.Landed middle root arguments completed := by
  have horder := (Loading.ready_inOrder hsound image).ok rfl hready
  refine (Loading.complete_landed hstaging.lodged.laid horder.once (fun draft hdraft => ?_) root
    arguments).ok rfl hcomplete
  obtain ⟨m, hfind, -, hfill⟩ := (hstaging.settled draft hdraft).placed
  exact ⟨m, hfind, hfill⟩

/-- A load that succeeds and leaves the private tables alone was ready with the table stored in all of
them, and was completed from there. -/
theorem exists_landed_of_load_ok (hsound : loader.Sound SimulatedTarget.ledger)
    (hhoused : loader.Housed) (hfounded : loader.Founded) {image : Image} {arguments : List String}
    {handle : Handle} (hload : (loader.load image arguments).1 = .ok handle)
    (hleaves : ∀ entry ∈ (loader.load image arguments).2.dsbt.entries,
      loader.LeavesTable image arguments entry.2) : ∃ root middle completed,
      Loading.ready image { loader } = (.ok (root, handle), middle) ∧
      (∀ entry ∈ middle.loader.dsbt.entries, middle.LeavesTable root arguments entry.2) ∧
      middle.loader.dsbt.tooSmall? = none ∧
      Loading.Prepared middle.loader.modules middle.loader.dsbt middle ∧
      Loading.Landed middle root arguments completed ∧
      (loader.load image arguments).2.modules = middle.loader.modules ∧
      (loader.load image arguments).2.dsbt = middle.loader.dsbt ∧
      (loader.load image arguments).2.client = completed.loader.client := by
  obtain ⟨root, middle, completed, hready, hcomplete, hmodules, hdsbt, hclient⟩ :=
    exists_ready_of_load_ok hload
  have hleaves' : ∀ entry ∈ middle.loader.dsbt.entries,
      middle.LeavesTable root arguments entry.2 := by
    intro entry hentry
    obtain ⟨placed, hplaced, hleaves⟩ := hleaves entry (by rwa [hdsbt])
    rw [hready] at hplaced hleaves
    obtain rfl : (root, handle) = placed := Option.some.inj hplaced
    exact hleaves
  have hhomed : middle.loader.dsbt.Homed middle.loader.modules := fun entry hentry =>
    have ⟨m, hm, hhandle, hinside, _⟩ := hleaves' entry hentry
    ⟨m, hm, hhandle, hinside⟩
  obtain ⟨hroom, hprepared⟩ := prepared_of_ready hsound hhoused hfounded hready hhomed
  have hlanded := landed_of_ready hsound hready hprepared.toStaging hcomplete
  exact ⟨root, middle, completed, hready, hleaves', hroom, hprepared, hlanded, hmodules, hdsbt,
    hclient⟩

/-- After any run on the simulated target, all views of the table of static bases agree after a load
that succeeds and leaves the private tables alone: every bound module shows the table in target memory,
and every new module shows its slot. -/
theorem load_tables (target : SimulatedTarget) (htarget : target.memory.WellFormed)
    (policy : LookupPolicy) {requests : List (Request SimulatedTarget)}
    (hfair : ∀ request ∈ requests, Fair SimulatedTarget.ledger request) :
    let before := (fresh target policy).run requests
    ∀ image arguments handle, (before.load image arguments).1 = .ok handle →
    let after := (before.load image arguments).2
    (∀ entry ∈ after.dsbt.entries, before.LeavesTable image arguments entry.2) →
      (∀ entry ∈ after.dsbt.entries, ∃ m ∈ after.modules, after.ShowsTable entry m) ∧
      ∀ m ∈ after.modules, m.handle ∉ handlesOf before.modules →
        before.ShowsSlot image arguments after m := by
  have hfresh : (fresh target policy).Sound SimulatedTarget.ledger :=
    fresh_sound policy ⟨htarget, Multiset.nodup_zero, by simp⟩
  have hsound := run_sound hfresh hfair
  have hhoused : ((fresh target policy).run requests).Housed :=
    housed_run hfresh (by rintro _ ⟨⟩) hfair
  have hfounded := founded_run hfresh (founded_fresh target policy) hfair
  generalize (fresh target policy).run requests = before at hsound hhoused hfounded
  intro _ image arguments handle hload after hleaves
  have hafter : after.Founded := founded_load hsound hfounded image arguments
  obtain ⟨root, middle, completed, hready, hleaves', hroom, hprepared, hlanded, hmodules, hdsbt,
    hclient⟩ := exists_landed_of_load_ok hsound hhoused hfounded hload hleaves
  have hlaid := hprepared.lodged.laid
  have hconsistent : middle.loader.dsbt.Consistent := hdsbt ▸ hafter.consistent
  have hlodged : Module.Lodged after.modules after.client.memory := by
    have h := hlanded.lodged hprepared.lodged
    rwa [hlanded.modules, ← hmodules, ← hclient] at h
  constructor
  · intro entry hentry
    have hentry' : entry ∈ middle.loader.dsbt.entries := hdsbt ▸ hentry
    obtain ⟨m, hm, hhandle, ⟨segment, hsegment, hspans⟩, hleft⟩ := hleaves' entry hentry'
    have hm' : m ∈ after.modules := hmodules ▸ hm
    have hreads := hlanded.reads_table hprepared hentry' hm hhandle hsegment hspans hleft
    rw [← hclient, ← hdsbt] at hreads
    rw [← hdsbt] at hspans hroom
    exact ⟨m, hm', hafter.showsTable hlodged hroom hentry hm' hhandle hsegment hspans hreads⟩
  · intro m hm hnew
    have hm' : m ∈ middle.loader.modules := hmodules ▸ hm
    have horder := (Loading.ready_inOrder hsound image).ok rfl hready
    obtain ⟨draft, hdraft, hown⟩ := List.mem_map.mp
      ((horder.mem_iff m.handle).mpr ⟨Module.handle_mem hm', hnew⟩)
    have hfind : Module.find? middle.loader.modules draft.handle = some m :=
      hown ▸ Module.find?_of_mem hlaid.distinct hm'
    unfold ShowsSlot
    rw [hready]
    refine ⟨(root, handle), rfl, draft, hdraft, hown, ?_⟩
    rw [hclient, hdsbt]
    exact hlanded.showsSlot hconsistent hprepared hdraft hfind

/-- A module with a private table for two slots, a note of its slot, and a cell for relocations. -/
def slottedObject (relocations : List (UInt32 × UInt32))
    (symbols : List (UInt32 × UInt32 × UInt32)) : SampleObject where
  machine := 140
  data := [0, 0, 0] ++ relocations.flatMap fun (type, addend) =>
    [SampleObject.dataOffset + 8, type, addend]
  symbols
  names := [[0x62], Draft.argumentsSymbol.toUTF8.data.toList]
  tags := [(DynamicTag.dsbtBase, SampleObject.dataOffset), (DynamicTag.dsbtSize, 2),
    (DynamicTag.dsbtIndex, 1), (DynamicTag.rela, SampleObject.dataOffset + 12),
    (DynamicTag.relaSize, UInt32.ofNat (12 * relocations.length)), (DynamicTag.relaEntry, 12)]

/-- Loading `b` behind a resident `a` brings both private tables up to date. -/
theorem load_tables_of_slotted :
    let before := (fresh ({} : SimulatedTarget) .direct).run [.load (tabledObject 0x61 2).image []]
    let b := (slottedObject [(24, 0)] []).image
    let after := (before.load b []).2
    after.dsbt.table = [0x10000074, 0x10000154] ∧
      (∀ entry ∈ after.dsbt.entries, ∃ m ∈ after.modules, after.ShowsTable entry m) ∧
      ∀ m ∈ after.modules, m.handle ∉ handlesOf before.modules →
        before.ShowsSlot b [] after m := by
  have hempty : ({} : SimulatedTarget).memory.WellFormed :=
    ⟨.nil, by rintro _ ⟨⟩, by rintro _ ⟨⟩⟩
  have hfair : ∀ request ∈ [Request.load (tabledObject 0x61 2).image []],
      Fair SimulatedTarget.ledger request :=
    fun request hmem => List.mem_singleton.mp hmem ▸ trivial
  refine ⟨by decide +kernel, ?_⟩
  exact load_tables {} hempty .direct hfair (slottedObject [(24, 0)] []).image [] 2
    (by decide +kernel) (by decide +kernel)

/-- Something else can be stored where a slot was stored: a later relocation of the same cell, or the
arguments over the cell or over the dynamic entry.  The slot is 1 each time, and 2 is read there. -/
theorem load_hides_slot :
    let before := fresh ({} : SimulatedTarget) .direct
    (let image := (slottedObject [(24, 0), (1, 0x200)] []).image
      let after := (before.load image []).2
      (before.load image []).1 = .ok 1 ∧
        (∀ entry ∈ after.dsbt.entries, before.LeavesTable image [] entry.2) ∧
        after.dsbt.index? 1 = some 1 ∧
        (∃ draft ∈ (Loading.ready image { loader := before }).2.session.pending,
          ∃ m ∈ after.modules, ∃ patch ∈ draft.patches m.segments,
            patch.StoresSlot ∧ patch.address = 0x1000007c) ∧
        (after.client.memory.load? 0x1000007c 4).map (ByteOrder.little.decode ·) = some 0x200 ∧
        Relocation.C6000.slotIn 0x200 = 2) ∧
    (let image := (slottedObject [(24, 0)] [(3, 0x7d, 0x00010011)]).image.set 172 20
      let after := (before.load image ["a", "b"]).2
      (before.load image ["a", "b"]).1 = .ok 1 ∧
        (∀ entry ∈ after.dsbt.entries, before.LeavesTable image ["a", "b"] entry.2) ∧
        after.dsbt.index? 1 = some 1 ∧
        (∃ draft ∈ (Loading.ready image { loader := before }).2.session.pending,
          ∃ m ∈ after.modules, (draft.patches m.segments).length = 1 ∧
            ∃ patch ∈ draft.patches m.segments, patch.StoresSlot ∧ patch.address = 0x1000007c) ∧
        (after.client.memory.load? 0x1000007c 4).map (ByteOrder.little.decode ·) = some 0x200) ∧
    (let image := (slottedObject [(24, 0)] [(3, 0x106, 0x00010011)]).image.set 172 20
      let after := (before.load image ["a", "b"]).2
      (before.load image ["a", "b"]).1 = .ok 1 ∧
        (∀ entry ∈ after.dsbt.entries, before.LeavesTable image ["a", "b"] entry.2) ∧
        after.dsbt.index? 1 = some 1 ∧
        (∃ draft ∈ (Loading.ready image { loader := before }).2.session.pending,
          ∃ m ∈ after.modules, draft.slotNote? m.segments = some 0x10000106 ∧
            ∀ i < 4, ∀ patch ∈ draft.patches m.segments, ¬patch.Touches (0x10000106 + i)) ∧
        after.client.memory.load? 0x10000106 4 = some (ByteOrder.little.encode 4 2)) := by
  refine ⟨?_, ?_, ?_⟩
  · decide +kernel
  · decide +kernel
  · decide +kernel

end Loader

end TargetLink
