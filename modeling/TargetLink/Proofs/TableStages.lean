import TargetLink.Proofs.Encodings
import TargetLink.Proofs.Founded
import TargetLink.Proofs.Lodging
import TargetLink.Proofs.Patches

/-!
# Staging the table of static bases

The table of static bases is stored for every bound module, among the staged contents of a new module
and in target memory for an old one.  `Loading.moduleView` is what is seen of a module wherever its bytes
are, so storing the table is one case: it lies over the view of its module and beside those of the
other modules (`Loading.writeTable_lays`).  The dynamic tables of new modules are stored after that.
-/

namespace TargetLink

open TargetLink.Module (handlesOf allocationsOf)
open LoadM (Triple Within bind_apply)

/-! ## Drafts with slots -/

theorem Segment.fill_of_lengths {segments : List Segment} {blocks : List Bytes}
    (hfits : ∀ segment ∈ segments, segment.Fits)
    (h : blocks.map (·.length) = segments.map (·.memorySize.toNat)) : Fill segments blocks := by
  induction segments generalizing blocks with
  | nil =>
    obtain rfl := List.map_eq_nil_iff.mp h
    exact .nil
  | cons segment segments ih =>
    obtain ⟨block, blocks, rfl, hlength, hrest⟩ := List.map_eq_cons_iff.mp h
    obtain ⟨hfirst, hfits⟩ := List.forall_mem_cons.mp hfits
    exact .cons ⟨hfirst, hlength⟩ (ih hfits hrest)

/-- Entries with the slot of their module in the one that receives it. -/
def DynamicEntry.noteSlot (entries : List DynamicEntry) (position? index? : Option Nat) :
    List DynamicEntry :=
  match index?, position? with
  | some index, some position =>
    entries.modify position fun entry => { entry with value := UInt32.ofNat index }
  | _, _ => entries

@[simp] theorem DynamicEntry.length_noteSlot (entries : List DynamicEntry) (position? index? : Option Nat) :
    (noteSlot entries position? index?).length = entries.length := by
  unfold noteSlot
  split
  · exact List.length_modify _ _ _
  · rfl

namespace ObjectFile

/-- The dynamic table of a file whose segments are placed. Only a relocatable module moves. -/
def movedTable (file : ObjectFile) (segments : List Segment) : List DynamicEntry :=
  if file.isRelocatable then file.dynamic.map (Draft.moveEntry file.machine segments) else file.dynamic

@[simp] theorem length_movedTable (file : ObjectFile) (segments : List Segment) :
    (file.movedTable segments).length = file.dynamic.length := by
  unfold movedTable
  split
  · exact List.length_map _
  · rfl

end ObjectFile

namespace Draft

/-- The draft of a module whose claim is bound: its contents fill the segments, it knows its slot, and its
dynamic table is the moved one of its file with the slot. -/
structure Settled (modules : List Module) (dsbt : Dsbt) (draft : Draft) : Prop where
  placed : ∃ m, Module.find? modules draft.handle = some m ∧ m.order = draft.file.order ∧
    Segment.Fill m.segments draft.staged
  slot : draft.dsbtIndex = (dsbt.index? draft.handle).map UInt32.ofNat
  bound : (dsbt.index? draft.handle).isSome = draft.file.dsbt.isSome
  table : ∃ m, Module.find? modules draft.handle = some m ∧ draft.dynamic =
    DynamicEntry.noteSlot (draft.file.movedTable m.segments)
      (draft.file.dynamic.findIdx? (·.tag == DynamicTag.dsbtIndex)) (dsbt.index? draft.handle)

variable {draft : Draft} {dsbt : Dsbt}

theorem Settled.length_dynamic {modules : List Module} (h : draft.Settled modules dsbt) :
    draft.dynamic.length = draft.file.dynamic.length := by
  obtain ⟨m, -, hdynamic⟩ := h.table
  rw [hdynamic, DynamicEntry.length_noteSlot, ObjectFile.length_movedTable]

/-- The dynamic entry that receives the slot holds it. -/
theorem Settled.noted {modules : List Module} (h : draft.Settled modules dsbt) {index position : Nat}
    (hindex : dsbt.index? draft.handle = some index)
    (hposition : draft.file.dynamic.findIdx? (·.tag == DynamicTag.dsbtIndex) = some position) :
    ∃ entry, draft.dynamic[position]? = some entry ∧ entry.value = UInt32.ofNat index := by
  obtain ⟨m, -, hdynamic⟩ := h.table
  have hlt : position < (draft.file.movedTable m.segments).length := by
    rw [ObjectFile.length_movedTable]
    exact (List.findIdx?_eq_some_iff_getElem.mp hposition).1
  rw [hdynamic, hindex, hposition, DynamicEntry.noteSlot, List.getElem?_modify_eq,
    List.getElem?_eq_getElem hlt]
  exact ⟨_, rfl, rfl⟩

theorem withSlot_of_none (h : draft.dsbt = none) : draft.withSlot dsbt = draft := by
  rw [withSlot, h]

/-- A draft with a claim gets its slot, also in the dynamic entry that receives it. -/
theorem withSlot_of_some (dsbt : Dsbt) {info : DsbtInfo} (h : draft.dsbt = some info) :
    draft.withSlot dsbt = { draft with
      dsbtIndex := (dsbt.index? draft.handle).map UInt32.ofNat
      dynamic := DynamicEntry.noteSlot draft.dynamic info.indexEntry (dsbt.index? draft.handle) } := by
  unfold withSlot DynamicEntry.noteSlot
  rw [h]
  dsimp only
  cases dsbt.index? draft.handle <;> cases info.indexEntry <;> rfl

/-- What the draft of a module has of its file. -/
theorem Portrays.ofFile {placement : Module.Placement} (h : draft.Portrays placement) :
    draft.dynamic = draft.file.movedTable placement.segments ∧
      draft.dsbt.isSome = draft.file.dsbt.isSome := by
  obtain ⟨name, staged, heq⟩ := h.placed
  generalize draft.file = file at heq
  subst heq
  unfold ofPlaced ObjectFile.movedTable
  split
  · exact ⟨rfl, Option.isSome_map⟩
  · exact ⟨rfl, rfl⟩

variable {σ : Type} {loader : Loader σ}

/-- The claims of drafts are the ones that get slots. -/
theorem bound_assign (hconsistent : loader.dsbt.Consistent) (h : Loader.Portrayed draft loader) :
    (loader.dsbt.assign.index? draft.handle).isSome = draft.dsbt.isSome := by
  have hbinds := hconsistent.assign
  cases hclaim : draft.claim? with
  | none =>
    rw [Option.map_eq_none_iff.mp hclaim, Option.isSome_none, Option.isSome_eq_false_iff,
      Option.isNone_iff_eq_none]
    by_contra hsome
    obtain ⟨index, hindex⟩ := Option.ne_none_iff_exists'.mp hsome
    obtain ⟨claim, hslot, hhandle⟩ := hbinds.consistent.index?_eq_some_iff.mp hindex
    have hmem := hbinds.claims.mem_iff.mp (Dsbt.mem_claims.mpr (Or.inr ⟨index, hslot⟩))
    cases hclaim.symm.trans (h.claimed claim hmem hhandle)
  | some claim =>
    obtain ⟨info, hinfo, rfl⟩ := Option.map_eq_some_iff.mp hclaim
    obtain ⟨slot, hslot, -⟩ := hconsistent.bound (h.registered _ hclaim)
    rw [hinfo, hbinds.consistent.index?_eq_some_iff.mpr ⟨_, hslot, rfl⟩]
    rfl

/-- Once the claims are bound, the draft of a new module is settled. -/
theorem settled_withSlot (hlaid : Module.Laid loader.modules) (hconsistent : loader.dsbt.Consistent)
    (h : Loader.Portrayed draft loader) :
    (draft.withSlot loader.dsbt.assign).Settled loader.modules loader.dsbt.assign := by
  obtain ⟨placement, hmem, hportrays⟩ := h.portrays
  obtain ⟨m, hm, rfl⟩ := List.mem_map.mp hmem
  have hfind : Module.find? loader.modules draft.handle = some m := by
    rw [hportrays.handle]
    exact Module.find?_of_mem hlaid.distinct hm
  have hfill : Segment.Fill m.segments draft.staged :=
    Segment.fill_of_lengths (hlaid.fits m hm) hportrays.filled
  have hbound := bound_assign hconsistent h
  obtain ⟨hdynamic, hdsbt⟩ := hportrays.ofFile
  cases hinfo : draft.dsbt with
  | none =>
    rw [hinfo, Option.isSome_none, Option.isSome_eq_false_iff, Option.isNone_iff_eq_none] at hbound
    rw [withSlot_of_none hinfo]
    refine ⟨⟨m, hfind, hportrays.order.symm, hfill⟩, ?_, ?_, m, hfind, ?_⟩
    · rw [hportrays.unbound, hbound, Option.map_none]
    · rw [hbound, ← hdsbt, hinfo, Option.isSome_none, Option.isSome_none]
    · rw [hbound]
      exact hdynamic
  | some info =>
    rw [withSlot_of_some loader.dsbt.assign hinfo]
    refine ⟨⟨m, hfind, hportrays.order.symm, hfill⟩, rfl, hbound.trans hdsbt, m, hfind, ?_⟩
    dsimp only
    rw [hdynamic, hportrays.indexEntry info hinfo]
    rfl

end Draft

/-! ## Storing the table -/

namespace Loading

/-- What is seen of a module: its staged contents while it is new, target memory otherwise. -/
def moduleView (loading : Loading SimulatedTarget) (m : Module) : View :=
  match loading.session.pending.find? (·.handle == m.handle) with
  | some draft => Segment.view m.segments draft.staged
  | none => loading.loader.client.memory.view

theorem moduleView_new {loading : Loading SimulatedTarget} {m : Module} {draft : Draft}
    (h : loading.session.pending.find? (·.handle == m.handle) = some draft) :
    loading.moduleView m = Segment.view m.segments draft.staged := by
  rw [moduleView, h]

theorem moduleView_old {loading : Loading SimulatedTarget} {m : Module}
    (h : loading.session.pending.find? (·.handle == m.handle) = none) :
    loading.moduleView m = loading.loader.client.memory.view := by
  rw [moduleView, h]

/-- A change to drafts that keeps their handles leaves every draft in its place. -/
theorem find?_map_drafts {change : Draft → Draft} {pending : List Draft} (handle : Handle)
    (h : ∀ draft ∈ pending, (change draft).handle = draft.handle) :
    (pending.map change).find? (·.handle == handle) =
      (pending.find? (·.handle == handle)).map change := by
  rw [List.find?_map]
  congr 1
  induction pending with
  | nil => rfl
  | cons draft pending ih =>
    obtain ⟨hfirst, hrest⟩ := List.forall_mem_cons.mp h
    rw [List.find?_cons, List.find?_cons, Function.comp_apply, hfirst, ih hrest]

/-- What is seen once drafts were exchanged, each for one of the same module. -/
theorem moduleView_map {loading : Loading SimulatedTarget} {change : Draft → Draft}
    (h : ∀ draft ∈ loading.session.pending, (change draft).handle = draft.handle) (m : Module) :
    let after := { loading with session := { loading.session with
      pending := loading.session.pending.map change } }
    after.moduleView m =
      match loading.session.pending.find? (·.handle == m.handle) with
      | some draft => Segment.view m.segments (change draft).staged
      | none => loading.loader.client.memory.view := by
  dsimp only [moduleView]
  rw [find?_map_drafts m.handle h]
  cases loading.session.pending.find? (·.handle == m.handle) <;> rfl

/-- What holds of the drafts and of target memory while the table is stored. -/
structure Staging (modules : List Module) (dsbt : Dsbt) (loading : Loading SimulatedTarget) :
    Prop where
  modules_eq : loading.loader.modules = modules
  dsbt_eq : loading.loader.dsbt = dsbt
  lodged : Module.Lodged modules loading.loader.client.memory
  settled : ∀ draft ∈ loading.session.pending, draft.Settled modules dsbt

/-- Bytes were laid over what is seen of a module, and beside what is seen of every other one. -/
structure Lays (modules : List Module) (m : Module) (address : Nat) (bytes : Bytes)
    (before after : Loading SimulatedTarget) : Prop where
  fresh : (after.moduleView m).Reads address bytes
  kept : ∀ n ∈ modules, ∀ a byte, (a < address ∨ address + bytes.length ≤ a) →
    before.moduleView n a byte → after.moduleView n a byte

variable {modules : List Module} {dsbt : Dsbt} {before : Loading SimulatedTarget} {m : Module}
  {address : UInt32} {bytes : Bytes} {draft : Draft}

theorem find_of_settled (hdraft : draft.Settled modules dsbt)
    (hfind : Module.find? modules draft.handle = some m) : m.order = draft.file.order ∧
      Segment.Fill m.segments draft.staged := by
  obtain ⟨n, hn, horder, hfill⟩ := hdraft.placed
  obtain rfl := Option.some.inj (hfind.symm.trans hn)
  exact ⟨horder, hfill⟩

/-- Exchanging the draft of a module changes what is seen of that module only. -/
theorem moduleView_exchange
    (hdraft : before.session.pending.find? (·.handle == m.handle) = some draft) {done : Draft}
    (hhandle : done.handle = m.handle) :
    let after := { before with session := { before.session with
      pending := before.session.pending.map fun d : Draft => if d.handle = m.handle then done else d } }
    after.moduleView m = Segment.view m.segments done.staged ∧
      ∀ n : Module, n.handle ≠ m.handle → after.moduleView n = before.moduleView n := by
  intro after
  have hkeeps : ∀ d ∈ before.session.pending,
      (if d.handle = m.handle then done else d).handle = d.handle := by
    intro d _
    split
    · rename_i heq
      exact hhandle.trans heq.symm
    · rfl
  constructor
  · rw [moduleView_map hkeeps, hdraft]
    dsimp only
    rw [if_pos (mem_of_find_pending hdraft).2]
  · intro n hne
    rw [moduleView_map hkeeps]
    unfold moduleView
    cases hother : before.session.pending.find? (·.handle == n.handle) with
    | none => rfl
    | some d =>
      dsimp only
      rw [if_neg ((mem_of_find_pending hother).2 ▸ hne)]

/-- Bytes that are stored in the staged contents of a module lie over its view. -/
theorem stagePending_lays (h : Staging modules dsbt before) (hm : m ∈ modules)
    {pending : List Draft}
    (hstage : stagePending modules m.handle address bytes before.session.pending = some pending) :
    let after := { before with session := { before.session with pending } }
    Staging modules dsbt after ∧ Lays modules m address.toNat bytes before after := by
  have hfind : Module.find? modules m.handle = some m := Module.find?_of_mem h.lodged.laid.distinct hm
  obtain ⟨n, draft, done, hn, hdraft, hdone, rfl⟩ := exists_staged_of_stagePending hstage
  obtain rfl := Option.some.inj (hfind.symm.trans hn)
  obtain ⟨staged, hstaged, rfl⟩ := Option.map_eq_some_iff.mp hdone
  obtain ⟨hmem, hhandle⟩ := mem_of_find_pending hdraft
  obtain ⟨horder, hfill⟩ := find_of_settled (h.settled draft hmem) (hhandle ▸ hfind)
  have hoverlay := Draft.overlay_stageIn hfill hstaged
  obtain ⟨hself, hothers⟩ :=
    moduleView_exchange hdraft (show ({ draft with staged } : Draft).handle = m.handle from hhandle)
  intro after
  refine ⟨{ h with settled := ?_ }, ?_, ?_⟩
  · intro d hd
    obtain ⟨other, hother, rfl⟩ := List.mem_map.mp hd
    split
    · exact { h.settled draft hmem with
        placed := ⟨m, hhandle ▸ hfind, horder, Draft.fill_stageIn hfill hstaged⟩ }
    · exact h.settled other hother
  · rw [hself]
    exact hoverlay.fresh
  · intro n hn a byte hbeside hseen
    by_cases heq : n.handle = m.handle
    · obtain rfl := Module.eq_of_handle_eq h.lodged.laid.distinct hn hm heq
      rw [moduleView_new hdraft] at hseen
      rw [hself]
      exact hoverlay.kept a byte hbeside hseen
    · rwa [hothers n heq]

/-- Storing bytes in target memory changes no draft. -/
theorem Staging.store (h : Staging modules dsbt before) {memory : Memory}
    (hstore : before.loader.client.memory.store? address bytes = some memory) :
    Staging modules dsbt { before with loader :=
      { before.loader with client := { before.loader.client with memory } } } :=
  { h with lodged := { h.lodged with holds := h.lodged.holds.store hstore } }

/-- Bytes that are stored in target memory lie over the view of an old module. -/
theorem store_lays (h : Staging modules dsbt before)
    (hold : before.session.pending.find? (·.handle == m.handle) = none) {memory : Memory}
    (hstore : before.loader.client.memory.store? address bytes = some memory) :
    let after := { before with loader :=
      { before.loader with client := { before.loader.client with memory } } }
    Staging modules dsbt after ∧ Lays modules m address.toNat bytes before after := by
  intro after
  have hoverlay := Memory.overlay_store hstore
  have hsame : after.session.pending = before.session.pending := rfl
  refine ⟨h.store hstore, ?_, ?_⟩
  · rw [← hsame] at hold
    rw [moduleView_old hold]
    exact hoverlay.fresh
  · intro n _ a byte hbeside hseen
    cases hnew : before.session.pending.find? (·.handle == n.handle) with
    | some draft =>
      rw [moduleView_new hnew] at hseen
      rw [← hsame] at hnew
      rwa [moduleView_new hnew]
    | none =>
      rw [moduleView_old hnew] at hseen
      rw [← hsame] at hnew
      rw [moduleView_old hnew]
      exact hoverlay.kept a byte hbeside hseen

/-- Storing the table for a module whose private table lies inside one of its segments. -/
theorem writeTable_lays (h : Staging modules dsbt before) {claim : Dsbt.Claim}
    {table : List UInt32} (hm : m ∈ modules) (hhandle : m.handle = claim.handle)
    (hinside : ∃ segment ∈ m.segments, segment.Spans claim.base (4 * table.length)) :
    Triple (· = before) (writeTable claim table)
      (fun _ after => Staging modules dsbt after ∧
        Lays modules m claim.base.toNat (m.order.encodeWords table) before after)
      fun _ => True := by
  refine Triple.get_bind fun loading hloading => ?_
  obtain rfl : loading = before := hloading
  have hfind : Module.find? modules m.handle = some m := Module.find?_of_mem h.lodged.laid.distinct hm
  dsimp only
  rw [h.modules_eq, ← hhandle, hfind, Option.map_some, Option.getD_some]
  cases hstage : stagePending modules m.handle claim.base (m.order.encodeWords table)
      loading.session.pending with
  | some pending =>
    refine Triple.modify fun s hs => ?_
    rw [show s = loading from hs]
    exact stagePending_lays h hm hstage
  | none =>
    have hold : loading.session.pending.find? (·.handle == m.handle) = none := by
      by_contra hnew
      obtain ⟨draft, hdraft⟩ := Option.ne_none_iff_exists'.mp hnew
      obtain ⟨hmem, hown⟩ := mem_of_find_pending hdraft
      have hfill := (find_of_settled (h.settled draft hmem) (hown ▸ hfind)).2
      obtain ⟨segment, hsegment, hspans⟩ := hinside
      rw [← ByteOrder.length_encodeWords m.order] at hspans
      obtain ⟨staged, hstaged⟩ := Draft.exists_stageIn hfill hsegment hspans
      simp [stagePending, hdraft, hfind, Draft.stage?, hstaged] at hstage
    intro s hs
    rw [show s = loading from hs]
    dsimp only
    rw [onClient_apply, SimulatedTarget.write_apply]
    cases hstore : loading.loader.client.memory.store? claim.base (m.order.encodeWords table) with
    | none => trivial
    | some memory => exact store_lays h hold hstore

/-- Wherever the table is stored, the drafts stay settled. -/
theorem writeTable_staging (claim : Dsbt.Claim) (table : List UInt32) :
    Triple (Staging modules dsbt) (writeTable claim table) (fun _ => Staging modules dsbt)
      fun _ => True := by
  refine Triple.get_bind fun loading h => ?_
  dsimp only
  rw [h.modules_eq]
  split
  · rename_i pending hstage
    obtain ⟨m, -, -, hfind, -⟩ := exists_staged_of_stagePending hstage
    obtain ⟨hm, hhandle⟩ := Module.mem_of_find? hfind
    rw [← hhandle] at hstage
    refine Triple.modify fun s hs => ?_
    rw [show s = loading from hs]
    exact (stagePending_lays h hm hstage).1
  · intro s hs
    rw [show s = loading from hs, onClient_apply, SimulatedTarget.write_apply]
    generalize ByteOrder.encodeWords _ table = bytes
    cases hstore : loading.loader.client.memory.store? claim.base bytes with
    | none => trivial
    | some memory => exact h.store hstore

theorem writeTables_staging :
    Triple (Staging modules dsbt) writeTables (fun _ => Staging modules dsbt) fun _ => True := by
  refine Triple.get_bind fun loading h => ?_
  unfold Dsbt.updateAll
  split
  · exact Triple.throw fun _ _ => trivial
  · refine (Triple.forM fun entry _ => writeTable_staging _ _).strengthen fun s hs => ?_
    rw [show s = loading from hs]
    exact h

end Loading

@[simp] theorem Dsbt.length_table (dsbt : Dsbt) : dsbt.table.length = dsbt.slots.length := by
  rw [table, List.length_map]

/-- Every private table lies inside one segment of its module. -/
def Dsbt.Homed (dsbt : Dsbt) (modules : List Module) : Prop :=
  ∀ entry ∈ dsbt.entries, ∃ m ∈ modules, m.handle = entry.2.handle ∧
    ∃ segment ∈ m.segments, segment.Spans entry.2.base (4 * dsbt.slots.length)

namespace Loading

variable {modules : List Module} {dsbt : Dsbt} {before : Loading SimulatedTarget}

/-- What holds once the table was stored for these entries. -/
structure Tabled (modules : List Module) (dsbt : Dsbt)
    (done : List (Nat × Dsbt.Claim)) (loading : Loading SimulatedTarget) : Prop
    extends Staging modules dsbt loading where
  shown : ∀ entry ∈ done, ∀ m ∈ modules, m.handle = entry.2.handle →
    (loading.moduleView m).Reads entry.2.base.toNat (m.order.encodeWords dsbt.table)

theorem length_encode_table (order : ByteOrder) (dsbt : Dsbt) :
    (order.encodeWords dsbt.table).length = 4 * dsbt.slots.length := by
  rw [ByteOrder.length_encodeWords, dsbt.length_table]

/-- Private tables of two modules do not hide each other. -/
theorem writeTable_tabled (hdistinct : (dsbt.entries.map (·.2.handle)).Nodup)
    (hhomed : dsbt.Homed modules) {done rest : List (Nat × Dsbt.Claim)} {entry : Nat × Dsbt.Claim}
    (hsplit : dsbt.entries = done ++ entry :: rest) :
    Triple (Tabled modules dsbt done) (writeTable entry.2 dsbt.table)
      (fun _ => Tabled modules dsbt (done ++ [entry])) fun _ => True := by
  intro before h
  have hentry : entry ∈ dsbt.entries := by simp [hsplit]
  obtain ⟨m, hm, hhandle, segment, hsegment, hspans⟩ := hhomed entry hentry
  have hinside : segment.Spans entry.2.base (4 * dsbt.table.length) := by rwa [dsbt.length_table]
  refine (writeTable_lays h.toStaging hm hhandle ⟨segment, hsegment, hinside⟩).weaken
    (fun _ after hafter => ⟨hafter.1, ?_⟩) (fun _ h => h) before rfl
  obtain ⟨hstaging, hlays⟩ := hafter
  have hfits := h.lodged.laid.fits
  intro other hother n hn hhandle'
  rcases List.mem_append.mp hother with hdone | hlast
  · obtain ⟨n', hn', heq, segment', hsegment', hspans'⟩ := hhomed other (by simp [hsplit, hdone])
    obtain rfl := Module.eq_of_handle_eq h.lodged.laid.distinct hn hn' (hhandle'.trans heq.symm)
    have hne : n.handle ≠ m.handle := by
      rw [hsplit, List.map_append, List.map_cons, List.nodup_append] at hdistinct
      rw [hhandle', hhandle]
      exact hdistinct.2.2 _ (List.mem_map_of_mem hdone) _ List.mem_cons_self
    refine (h.shown other hdone n hn hhandle').mono fun i hi byte => hlays.kept n hn _ byte ?_
    rw [length_encode_table] at hi ⊢
    exact (h.lodged.laid.apart_of_ne hn hm hne hsegment' hsegment).beside
      (hfits n hn segment' hsegment') (hfits m hm segment hsegment) hspans' hspans hi
  · obtain rfl := List.mem_singleton.mp hlast
    obtain rfl := Module.eq_of_handle_eq h.lodged.laid.distinct hn hm (hhandle'.trans hhandle.symm)
    exact hlays.fresh

/-- Every bound module gets the table, if no private table is too small. -/
theorem writeTables_tabled (hconsistent : dsbt.Consistent) (hhomed : dsbt.Homed modules) :
    Triple (Staging modules dsbt) writeTables
      (fun _ after => dsbt.tooSmall? = none ∧ Tabled modules dsbt dsbt.entries after)
      fun _ => True := by
  refine Triple.get_bind fun loading h => ?_
  rw [h.dsbt_eq]
  unfold Dsbt.updateAll
  split
  · exact Triple.throw fun _ _ => trivial
  · rename_i hroom
    have hdistinct : (dsbt.entries.map (·.2.handle)).Nodup := hconsistent.nodup_entries
    have hloop := Triple.forM_split (I := Tabled modules dsbt) dsbt.entries
      fun done entry rest hsplit => writeTable_tabled hdistinct hhomed hsplit
    refine (hloop.weaken (fun _ _ htabled => ⟨hroom, htabled⟩) fun _ h => h).strengthen ?_
    intro s hs
    rw [show s = loading from hs]
    exact ⟨h, by rintro _ ⟨⟩⟩

end Loading

/-! ## Storing dynamic tables -/

namespace Draft

variable {draft : Draft} {segments : List Segment}

/-- The final address of the dynamic table. -/
def movedDynamic? (draft : Draft) (segments : List Segment) : Option UInt32 :=
  draft.file.dynamicAddress.bind fun link =>
    (segments.find? (·.containsLink link)).map fun segment => link + segment.delta

/-- Where the dynamic table is written back: at its final address, if the module is relocatable and one
of its segments holds the whole table. -/
def dynamicHome? (draft : Draft) (segments : List Segment) : Option UInt32 :=
  if draft.file.isRelocatable then
    (draft.movedDynamic? segments).filter fun home =>
      segments.any fun segment => segment.Spans home (8 * draft.dynamic.length)
  else none

/-- Bytes are staged in a segment that spans their range. -/
theorem exists_spans_of_stageIn {address : UInt32} {bytes : Bytes} {blocks blocks' : List Bytes}
    (hfill : Segment.Fill segments blocks) (h : stageIn address bytes segments blocks = some blocks') :
    ∃ segment ∈ segments, segment.Spans address bytes.length := by
  induction hfill generalizing blocks' with
  | nil => cases h
  | @cons first block segments blocks hfirst _ ih =>
    rw [stageIn] at h
    split at h
    · rename_i hroom
      exact ⟨first, List.mem_cons_self, hroom.1, hfirst.2 ▸ hroom.2⟩
    · obtain ⟨rest, hrest, -⟩ := Option.map_eq_some_iff.mp h
      obtain ⟨segment, hsegment, hspans⟩ := ih hrest
      exact ⟨segment, List.mem_cons_of_mem _ hsegment, hspans⟩

/-- What writing the dynamic table back makes of a draft. -/
structure WritesBack (segments : List Segment) (draft done : Draft) : Prop where
  same : ∃ staged, done = { draft with staged }
  fill : Segment.Fill segments done.staged
  kept : ∀ a byte, (∀ home ∈ draft.dynamicHome? segments,
      a < home.toNat ∨ home.toNat + 8 * draft.dynamic.length ≤ a) →
    Segment.view segments draft.staged a byte → Segment.view segments done.staged a byte
  stored : ∀ home ∈ draft.dynamicHome? segments, (Segment.view segments done.staged).Reads home.toNat
    (DynamicEntry.encodeTable draft.dynamic draft.file.order)

theorem WritesBack.settled {modules : List Module} {dsbt : Dsbt} {m : Module} {done : Draft}
    (h : draft.WritesBack m.segments done) (hsettled : draft.Settled modules dsbt)
    (hfind : Module.find? modules draft.handle = some m) : done.Settled modules dsbt := by
  obtain ⟨n, hn, horder, -⟩ := hsettled.placed
  obtain rfl := Option.some.inj (hfind.symm.trans hn)
  obtain ⟨staged, rfl⟩ := h.same
  exact { hsettled with placed := ⟨m, hfind, horder, h.fill⟩ }

theorem writesBack_of_none (hfill : Segment.Fill segments draft.staged)
    (h : draft.dynamicHome? segments = none) : draft.WritesBack segments draft := by
  refine ⟨⟨draft.staged, rfl⟩, hfill, fun _ _ _ => id, ?_⟩
  rw [h]
  rintro _ ⟨⟩

theorem writesBack_withDynamicStaged (hrelocatable : draft.file.isRelocatable)
    (hfill : Segment.Fill segments draft.staged) :
    draft.WritesBack segments (draft.withDynamicStaged segments) := by
  have hhome : draft.dynamicHome? segments = (draft.movedDynamic? segments).filter fun home =>
      segments.any fun segment => segment.Spans home (8 * draft.dynamic.length) := by
    rw [dynamicHome?, if_pos hrelocatable]
  have hlength := DynamicEntry.length_encodeTable draft.dynamic draft.file.order
  unfold withDynamicStaged
  rw [← movedDynamic?]
  dsimp only
  cases hmoved : draft.movedDynamic? segments with
  | none => exact writesBack_of_none hfill (by rw [hhome, hmoved, Option.filter_none])
  | some address =>
    rw [hmoved] at hhome
    dsimp only [stage?]
    cases hstage : stageIn address (DynamicEntry.encodeTable draft.dynamic draft.file.order) segments
        draft.staged with
    | none =>
      refine writesBack_of_none hfill ?_
      rw [hhome, Option.filter_eq_none_iff]
      rintro _ ⟨⟩ hany
      obtain ⟨segment, hsegment, hspans⟩ := List.any_eq_true.mp hany
      obtain ⟨staged, hstaged⟩ := exists_stageIn hfill hsegment (hlength ▸ of_decide_eq_true hspans)
      rw [hstage] at hstaged
      cases hstaged
    | some staged =>
      have hoverlay := overlay_stageIn hfill hstage
      obtain ⟨segment, hsegment, hspans⟩ := exists_spans_of_stageIn hfill hstage
      have hsome : draft.dynamicHome? segments = some address := by
        rw [hhome, Option.filter_some, if_pos]
        exact List.any_eq_true.mpr ⟨segment, hsegment, decide_eq_true (hlength ▸ hspans)⟩
      refine ⟨⟨staged, rfl⟩, fill_stageIn hfill hstage, fun a byte hbeside => ?_, ?_⟩
      · exact hoverlay.kept a byte (hlength ▸ hbeside address hsome)
      · intro home hmem
        obtain rfl := Option.some.inj (hsome.symm.trans hmem)
        exact hoverlay.fresh

/-- The draft with its dynamic table written back. -/
def withDynamicIn (modules : List Module) (draft : Draft) : Draft :=
  match Module.find? modules draft.handle with
  | some m => if draft.file.isRelocatable then draft.withDynamicStaged m.segments else draft
  | none => draft

theorem writesBack_withDynamicIn {modules : List Module} {m : Module}
    (hfind : Module.find? modules draft.handle = some m)
    (hfill : Segment.Fill m.segments draft.staged) :
    draft.WritesBack m.segments (draft.withDynamicIn modules) := by
  rw [withDynamicIn, hfind]
  dsimp only
  split
  · rename_i hrelocatable
    exact writesBack_withDynamicStaged hrelocatable hfill
  · rename_i hstatic
    exact writesBack_of_none hfill (if_neg hstatic)

end Draft

namespace Loading

variable {modules : List Module} {dsbt : Dsbt} {placed : Loading SimulatedTarget}

/-- The dynamic tables of drafts whose modules are resident are written back. -/
theorem stageDynamics_apply {loading : Loading SimulatedTarget}
    (h : ∀ draft ∈ loading.session.pending,
      ∃ m, Module.find? loading.loader.modules draft.handle = some m) :
    stageDynamics loading = (.ok (), { loading with session := { loading.session with
      pending := loading.session.pending.map (Draft.withDynamicIn loading.loader.modules) } }) := by
  simp only [stageDynamics, bind_apply, LoadM.get_apply]
  rw [LoadM.mapM_apply (f := Draft.withDynamicIn loading.loader.modules)]
  · rfl
  · intro draft hdraft
    obtain ⟨m, hfind⟩ := h draft hdraft
    rw [Draft.withDynamicIn, hfind]
    dsimp only
    split
    · simp only [resident, bind_apply, LoadM.get_apply, hfind, LoadM.pure_apply]
    · rfl

/-- What holds once the dynamic tables are written back. -/
structure WrittenBack (modules : List Module) (dsbt : Dsbt) (loading : Loading SimulatedTarget) : Prop
    extends Staging modules dsbt loading where
  dynamics : ∀ draft ∈ loading.session.pending, ∀ m,
    Module.find? modules draft.handle = some m → ∀ home ∈ draft.dynamicHome? m.segments,
      (Segment.view m.segments draft.staged).Reads home.toNat
        (DynamicEntry.encodeTable draft.dynamic draft.file.order)

/-- What holds once a graph is prepared. -/
structure Prepared (modules : List Module) (dsbt : Dsbt) (loading : Loading SimulatedTarget) : Prop
    extends WrittenBack modules dsbt loading where
  tables : ∀ entry ∈ dsbt.entries, ∀ m ∈ modules, m.handle = entry.2.handle →
    (∀ draft ∈ loading.session.pending, draft.handle = m.handle →
      ∀ home ∈ draft.dynamicHome? m.segments, ∀ i < 4 * dsbt.slots.length,
        entry.2.base.toNat + i < home.toNat ∨
          home.toNat + 8 * draft.dynamic.length ≤ entry.2.base.toNat + i) →
    (loading.moduleView m).Reads entry.2.base.toNat (m.order.encodeWords dsbt.table)

section

variable {before : Loading SimulatedTarget} (h : Staging modules dsbt before)

include h

theorem Staging.writesBack : ∀ draft ∈ before.session.pending, ∀ m,
    Module.find? modules draft.handle = some m →
      draft.WritesBack m.segments (draft.withDynamicIn modules) :=
  fun draft hdraft _ hfind =>
    Draft.writesBack_withDynamicIn hfind (find_of_settled (h.settled draft hdraft) hfind).2

theorem Staging.withDynamicIn_eq : ∀ draft ∈ before.session.pending,
    ∃ staged, draft.withDynamicIn modules = { draft with staged } := by
  intro draft hdraft
  obtain ⟨m, hfind, -⟩ := (h.settled draft hdraft).placed
  exact (h.writesBack draft hdraft m hfind).same

theorem Staging.stageDynamics_eq : stageDynamics before =
    (.ok (), { before with session := { before.session with
      pending := before.session.pending.map (Draft.withDynamicIn modules) } }) := by
  rw [stageDynamics_apply, h.modules_eq]
  intro draft hdraft
  obtain ⟨m, hfind, -⟩ := (h.settled draft hdraft).placed
  exact ⟨m, h.modules_eq ▸ hfind⟩

theorem Staging.writtenBack : WrittenBack modules dsbt { before with session := { before.session with
    pending := before.session.pending.map (Draft.withDynamicIn modules) } } := by
  refine ⟨{ h with settled := ?_ }, ?_⟩
  · intro done hdone
    obtain ⟨draft, hdraft, rfl⟩ := List.mem_map.mp hdone
    have hsettled := h.settled draft hdraft
    obtain ⟨m, hfind, -⟩ := hsettled.placed
    exact (h.writesBack draft hdraft m hfind).settled hsettled hfind
  · intro done hdone m hfind home hhome
    obtain ⟨draft, hdraft, rfl⟩ := List.mem_map.mp hdone
    obtain ⟨staged, heq⟩ := h.withDynamicIn_eq draft hdraft
    have hfind' : Module.find? modules draft.handle = some m := by
      rwa [heq] at hfind
    have hstored := (h.writesBack draft hdraft m hfind').stored
    rw [heq] at hhome hstored ⊢
    exact hstored home hhome

end

/-- Dynamic tables are written back beside the private tables. -/
theorem stageDynamics_prepared :
    Triple (Tabled modules dsbt dsbt.entries) stageDynamics (fun _ => Prepared modules dsbt)
      fun _ => True := by
  intro before h
  rw [h.toStaging.stageDynamics_eq]
  refine ⟨h.toStaging.writtenBack, ?_⟩
  intro entry hentry m hm hhandle hbeside
  have hshown := h.shown entry hentry m hm hhandle
  have hkeeps : ∀ draft ∈ before.session.pending,
      (draft.withDynamicIn modules).handle = draft.handle := by
    intro draft hdraft
    obtain ⟨staged, heq⟩ := h.toStaging.withDynamicIn_eq draft hdraft
    rw [heq]
  rw [moduleView_map hkeeps]
  cases hnew : before.session.pending.find? (·.handle == m.handle) with
  | none => rwa [moduleView_old hnew] at hshown
  | some draft =>
    rw [moduleView_new hnew] at hshown
    obtain ⟨hdraft, hown⟩ := mem_of_find_pending hnew
    have hfind : Module.find? modules draft.handle = some m :=
      hown ▸ Module.find?_of_mem h.lodged.laid.distinct hm
    have hwrite := h.toStaging.writesBack draft hdraft m hfind
    obtain ⟨staged, heq⟩ := hwrite.same
    refine hshown.mono fun i hi byte => hwrite.kept _ byte fun home hhome => ?_
    rw [length_encode_table] at hi
    have hapart := hbeside (draft.withDynamicIn modules) (List.mem_map_of_mem hdraft)
      ((hkeeps draft hdraft).trans hown)
    rw [heq] at hapart
    exact hapart home hhome i hi

/-- Binding the claims settles the drafts of a placed graph. -/
theorem bindSlots_staging (hlodged : Module.Lodged placed.loader.modules placed.loader.client.memory)
    (hgrounded : Grounded placed) :
    Triple (· = placed) bindSlots
      (fun _ => Staging placed.loader.modules placed.loader.dsbt.assign) fun _ => True := by
  refine Triple.modify fun s hs => ?_
  rw [show s = placed from hs]
  refine ⟨rfl, rfl, hlodged, fun settled hsettled => ?_⟩
  obtain ⟨draft, hdraft, rfl⟩ := List.mem_map.mp hsettled
  exact Draft.settled_withSlot hlodged.laid hgrounded.consistent (hgrounded.portrayed draft hdraft)

/-- The dynamic tables of a placed graph are written back, wherever the private tables lie. -/
theorem prepare_writtenBack (hlodged : Module.Lodged placed.loader.modules placed.loader.client.memory)
    (hgrounded : Grounded placed) (root : Handle) :
    Triple (· = placed) (prepare root)
      (fun _ => WrittenBack placed.loader.modules placed.loader.dsbt.assign) fun _ => True := by
  refine (bindSlots_staging hlodged hgrounded).bind fun _ => writeTables_staging.bind fun _ => ?_
  refine Triple.bind (R := fun _ => WrittenBack placed.loader.modules placed.loader.dsbt.assign) ?_
    fun _ => Triple.modify fun middle hmiddle => { hmiddle with }
  intro before h
  rw [h.stageDynamics_eq]
  exact h.writtenBack

/-- A placed graph is prepared if every private table lies inside one segment of its module. -/
theorem prepare_prepared (hlodged : Module.Lodged placed.loader.modules placed.loader.client.memory)
    (hgrounded : Grounded placed) (hhomed : placed.loader.dsbt.assign.Homed placed.loader.modules)
    (root : Handle) :
    Triple (· = placed) (prepare root)
      (fun _ middle => placed.loader.dsbt.assign.tooSmall? = none ∧
        Prepared placed.loader.modules placed.loader.dsbt.assign middle) fun _ => True := by
  have hconsistent := hgrounded.consistent.assign.consistent
  refine (bindSlots_staging hlodged hgrounded).bind fun _ =>
    (writeTables_tabled hconsistent hhomed).bind fun _ => ?_
  rintro s ⟨hroom, htabled⟩
  refine (stageDynamics_prepared.bind fun _ => Triple.modify fun middle hmiddle => ?_) s htabled
  exact ⟨hroom, { hmiddle with }⟩

end Loading

end TargetLink
