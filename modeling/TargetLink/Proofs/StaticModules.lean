import TargetLink.Proofs.TableStages

/-!
# Static modules

A file without a dynamic table says where its segments are and where it is entered, and nothing else
(`ObjectFile.Bare`).  Its module needs no other one, has no symbols and no functions, and makes no claim on
the table of static bases.  So it is always a new module, placed segment by segment at the addresses it was
linked at (`Loading.place_seated`), and what follows its placement does nothing but store bytes
(`Loading.OnlyStores`): the tables of the modules that were there before, and its own segments.
-/

namespace TargetLink

open TargetLink.Module (handlesOf)
open LoadM (Triple Within bind_apply)

/-! ## Files -/

namespace ObjectFile

/-- The file has no dynamic table and nothing that such a table points to. -/
structure Bare (file : ObjectFile) : Prop where
  fixed : file.isRelocatable = false
  dynamic : file.dynamic = []
  symbols : file.symbols = []
  needed : file.needed = []
  unnamed : file.ownName? = none
  unclaimed : file.dsbt = none

variable {image : Image} {file : ObjectFile}

theorem bare_of_read (h : ObjectFile.read image = .ok file)
    (hstatic : ∀ header ∈ file.programHeaders, header.isDynamic = false) : file.Bare := by
  obtain ⟨header, order, machine, headers, -, h⟩ := eq_of_read h
  split at h
  · subst h
    exact ⟨rfl, rfl, rfl, rfl, rfl, rfl⟩
  · rename_i table htable
    obtain ⟨dynamic, symbols, names, rel, rela, plt, rfl⟩ := h
    have hdynamic := List.find?_some htable
    rw [hstatic table (List.mem_of_find?_eq_some htable)] at hdynamic
    cases hdynamic

/-- The part of every segment to load is inside the file and no longer than the memory of the segment. -/
theorem checked_of_read (h : ObjectFile.read image = .ok file) {header : ProgramHeader}
    (hheader : header ∈ file.programHeaders) (hload : header.isLoad = true) :
    header.fileSize ≤ header.memorySize ∧
      image.contains header.offset.toNat header.fileSize.toNat = true := by
  obtain ⟨_, _, _, headers, hcheck, h⟩ := eq_of_read h
  have hheaders : file.programHeaders = headers := by
    split at h
    · rw [h]
    · obtain ⟨dynamic, symbols, names, rel, rela, plt, rfl⟩ := h
      rfl
  have hinside := eq_ok_of_forM_eq_ok hcheck header (List.mem_filter.mpr ⟨hheaders ▸ hheader, hload⟩)
  dsimp only at hinside
  split at hinside
  · cases hinside
  · rename_i hsize
    split at hinside
    · cases hinside
    · rename_i hcontains
      exact ⟨UInt32.not_lt.mp hsize, by simpa using hcontains⟩

/-- The file has the part of every segment to load. -/
theorem exists_window_of_read (h : ObjectFile.read image = .ok file) {header : ProgramHeader}
    (hheader : header ∈ file.loadHeaders) :
    ∃ part, Bytes.window image header.offset.toNat header.fileSize.toNat = some part := by
  obtain ⟨hmem, hkept⟩ := List.mem_filter.mp hheader
  have hcontains := (checked_of_read h hmem (Bool.and_eq_true_iff.mp hkept).1).2
  exact ⟨_, if_pos (by simpa [Image.contains] using hcontains)⟩

end ObjectFile

namespace Draft

/-- The draft has no tables. -/
structure Bare (draft : Draft) : Prop where
  fixed : draft.file.isRelocatable = false
  dynamic : draft.dynamic = []
  symbols : draft.symbols = []
  unclaimed : draft.dsbt = none

variable {file : ObjectFile}

theorem ofPlaced_of_bare (h : file.Bare) (handle : Handle) (name : String) (segments : List Segment)
    (staged : List Bytes) : ofPlaced handle name file segments staged =
      { handle, name, file, symbols := [], dynamic := [], dsbt := none, staged } := by
  rw [ofPlaced, h.fixed, h.dynamic, h.symbols, h.unclaimed]
  rfl

end Draft

/-! ## Placing a segment -/

namespace Loading

variable {σ : Type} [Client σ]

variable (σ) in
/-- The client handed out the segment of the header where it was linked. -/
def Follows (header : ProgramHeader) (segment : Segment) : Prop :=
  ∃ allocation client, segment = header.segmentIn allocation ∧
    allocation.address = header.address ∧
    (Client.allocate (header.request false) (client : σ)).1 = .ok allocation

variable (σ) in
/-- The client read the contents of the segment of the header. -/
def Staged (image : Image) (header : ProgramHeader) (block : Bytes) : Prop :=
  ∃ client : σ, (Client.copy image header.part client).1 = .ok block

/-- A module stands behind those of a loader, some drafts wait to be completed, and nothing else was
done but to take its handle.  Its segments own their memory; `extra` is out beside them. -/
structure Raised (ledger : Ledger σ) (start : Loader σ) (drafts : List Draft)
    (extra : Multiset Allocation) (m : Module) (loading : Loading σ) : Prop where
  modules : loading.loader.modules = start.modules ++ [m]
  handles : loading.loader.handles = start.handles
  dsbt : loading.loader.dsbt = start.dsbt
  pending : loading.session.pending = drafts
  created : loading.session.created = [m.handle]
  holds : ledger.holds loading.loader.client
    ((m.segments.map (·.allocation) : List Allocation) + extra)

variable {ledger : Ledger σ} {start : Loader σ} {m : Module} {image : Image} {file : ObjectFile}
  {loading : Loading σ} {drafts : List Draft}

/-- The new module is the one that changes. -/
theorem Raised.update {extra extra' : Multiset Allocation}
    (h : Raised ledger start drafts extra m loading) (hnew : m.handle ∉ handlesOf start.modules)
    (change : Module → Module) (hhandle : (change m).handle = m.handle)
    (hholds : ledger.holds loading.loader.client
      (((change m).segments.map (·.allocation) : List Allocation) + extra')) :
    Raised ledger start drafts extra' (change m)
      { loading with loader := loading.loader.update m.handle change } := by
  refine { h with modules := ?_, created := by rw [h.created, hhandle], holds := hholds }
  rw [Loader.update, h.modules, Loader.updateModule_append hnew, Loader.updateModule, if_pos rfl]

/-- Placing a segment puts it where it was linked. -/
theorem placeSegment_raised (hnew : m.handle ∉ handlesOf start.modules) {header : ProgramHeader}
    (hsize : header.memorySize ≠ 0) :
    Triple (Raised ledger start drafts 0 m) (placeSegment m.handle image false header)
      (fun block s => ∃ segment, Follows σ header segment ∧ Staged σ image header block ∧
        Raised ledger start drafts 0 { m with segments := m.segments ++ [segment] } s)
      fun _ => True := by
  have hfull : (header.request false).memorySize ≠ 0 := hsize
  refine placeSegment_cases (R := fun allocation s => Raised ledger start drafts {allocation} m s ∧
    ∃ client : σ, (Client.allocate (header.request false) client).1 = .ok allocation)
    ?allocate (fun _ _ _ _ => ?refuse) fun allocation hplace => ?place
  case allocate =>
    intro loading h
    rw [onClient_apply]
    cases hanswer : (Client.allocate (header.request false) loading.loader.client).1 with
    | error e => trivial
    | ok allocation =>
      refine ⟨{ h with holds := ?_ }, _, hanswer⟩
      have hholds := ledger.allocate hfull h.holds hanswer
      rwa [Multiset.add_zero, ← Multiset.singleton_add, Multiset.add_comm] at hholds
  case refuse => split <;> trivial
  case place =>
    rintro loading ⟨h, client, hanswer⟩
    refine (Triple.bind (R := fun _ => Raised ledger start drafts 0
      { m with segments := m.segments ++ [header.segmentIn allocation] }) ?_ fun _ s hs => ?_) loading h
    · refine Triple.modify fun s hs => hs.update hnew
        (fun m => { m with segments := m.segments ++ [header.segmentIn allocation] }) rfl ?_
      rw [List.map_append, ← Multiset.coe_add, Multiset.add_zero]
      exact hs.holds
    · rw [onClient_apply]
      cases hcopy : (Client.copy image header.part s.loader.client).1 with
      | error e => trivial
      | ok block =>
        exact ⟨_, ⟨allocation, client, rfl, hplace rfl, hanswer⟩, ⟨_, hcopy⟩,
          { hs with holds := ledger.copy hs.holds }⟩

/-- Placing the segments one after the other. -/
theorem placeAll_raised (hnew : m.handle ∉ handlesOf start.modules) {headers : List ProgramHeader}
    (hsizes : ∀ header ∈ headers, header.memorySize ≠ 0) :
    Triple (Raised ledger start drafts 0 m) (headers.mapM (placeSegment m.handle image false))
      (fun blocks s => ∃ segments, List.Forall₂ (Follows σ) headers segments ∧
        List.Forall₂ (Staged σ image) headers blocks ∧
        Raised ledger start drafts 0 { m with segments := m.segments ++ segments } s) fun _ => True := by
  induction headers generalizing m with
  | nil => exact Triple.pure fun s h => ⟨[], .nil, .nil, by rwa [List.append_nil]⟩
  | cons header headers ih =>
    obtain ⟨hsize, hsizes⟩ := List.forall_mem_cons.mp hsizes
    rw [List.mapM_cons]
    refine (placeSegment_raised hnew hsize).bind fun block => ?_
    rintro s ⟨segment, hfollows, hstaged, hraised⟩
    refine ((ih (m := { m with segments := m.segments ++ [segment] }) hnew hsizes).bind
      fun blocks => ?_) s hraised
    refine Triple.pure ?_
    rintro t ⟨segments, hfollow, hstage, hraised⟩
    refine ⟨segment :: segments, .cons hfollows hfollow, .cons hstaged hstage, ?_⟩
    rwa [List.append_assoc, List.singleton_append] at hraised

/-- What holds of a static module from its placement on. -/
structure Seated (start : Loader σ) (image : Image) (file : ObjectFile) (m : Module) (draft : Draft) :
    Prop where
  bare : draft.Bare
  handle : draft.handle = m.handle
  fresh : m.handle ∉ handlesOf start.modules
  entry : m.entry = file.header.entry
  segments : List.Forall₂ (Follows σ) file.loadHeaders m.segments
  staged : List.Forall₂ (Staged σ image) file.loadHeaders draft.staged

/-! ## Placing a module -/

/-- A load has found its file, and nothing else happened. -/
structure Begun (start : Loader σ) (loading : Loading σ) : Prop where
  loader : loading.loader = start
  pending : loading.session.pending = []
  created : loading.session.created = []

omit [Client σ] in
theorem reuseOwn_eq (h : file.ownName? = none) :
    (reuseOwn file : LoadM (Loading σ) (Option Handle)) = pure none := by
  rw [reuseOwn, h]

theorem addModule_raised (hbelow : ∀ m ∈ start.modules, m.handle < start.nextHandle)
    (hholds : ledger.holds start.client 0) (requested : Option String) :
    Triple (Begun start) (addModule file requested)
      (fun added s => ∃ m, m.handle = added.1 ∧ m.handle ∉ handlesOf start.modules ∧
        m.segments = [] ∧ Raised ledger start [] 0 m s) fun _ => True := by
  rintro s ⟨rfl, hpending, hcreated⟩
  simp only [addModule, bind_apply, newHandle_apply]
  by_cases hlast : s.loader.nextHandle = Loader.lastHandle
  · rw [if_pos hlast]
    trivial
  · rw [if_neg hlast]
    refine ⟨_, rfl, fun hmem => ?_, rfl, rfl, rfl, rfl, hpending, ?_, hholds⟩
    · obtain ⟨m, hm, hhandle⟩ := Module.exists_of_mem_handlesOf hmem
      exact absurd (hhandle ▸ hbelow m hm) (UInt32.lt_irrefl _)
    · exact congrArg (· ++ [s.loader.nextHandle]) hcreated

/-- A static module is placed with the segments of its file. -/
theorem placeSegments_raised (hbare : file.Bare) (hnew : m.handle ∉ handlesOf start.modules)
    (hempty : m.segments = []) :
    Triple (Raised ledger start [] 0 m) (placeSegments m.handle image file)
      (fun blocks s => ∃ segments, List.Forall₂ (Follows σ) file.loadHeaders segments ∧
        List.Forall₂ (Staged σ image) file.loadHeaders blocks ∧
        Raised ledger start [] 0 { m with segments } s) fun _ => True := by
  refine (resident_keeps (fun _ _ => trivial) m.handle).bind fun _ => ?_
  rw [hbare.fixed]
  refine (placeAll_raised hnew fun _ => memorySize_ne_zero).weaken ?_ fun _ h => h
  rintro blocks s ⟨segments, hfollow, hstage, hraised⟩
  rw [hempty, List.nil_append] at hraised
  exact ⟨segments, hfollow, hstage, hraised⟩

/-- Its draft has no tables, and it claims no slot. -/
theorem draftModule_seated (hbare : file.Bare) (hnew : m.handle ∉ handlesOf start.modules)
    (name : String) {staged : List Bytes}
    (hsegments : List.Forall₂ (Follows σ) file.loadHeaders m.segments)
    (hstaged : List.Forall₂ (Staged σ image) file.loadHeaders staged) :
    Triple (Raised ledger start [] 0 m) (draftModule m.handle name file staged)
      (fun draft s => ∃ m', m'.handle = m.handle ∧ Seated start image file m' draft ∧
        Raised ledger start [] 0 m' s) fun _ => True := by
  unfold draftModule
  refine Triple.bind (R := fun found s => found = m ∧ Raised ledger start [] 0 m s) ?_ fun found => ?_
  · intro s h
    have hfind : Module.find? s.loader.modules m.handle = some m := h.modules ▸ Module.find?_last hnew
    simpa only [resident, bind_apply, LoadM.get_apply, hfind, LoadM.pure_apply, true_and] using h
  rintro s ⟨rfl, h⟩
  generalize hdraft : Draft.ofPlaced found.handle name file found.segments staged = draft
  rw [Draft.ofPlaced_of_bare hbare] at hdraft
  have hplain : draft.Bare := hdraft ▸ ⟨hbare.fixed, rfl, rfl, rfl⟩
  refine Triple.bind (R := fun _ => Raised ledger start [] 0 (describe draft found))
    (Triple.modify fun s hs => hs.update hnew (describe draft) rfl hs.holds) (fun _ => ?_) s h
  rw [Draft.claim?, hplain.unclaimed, Option.map_none]
  refine Triple.pure fun s hs =>
    ⟨describe draft found, rfl, ⟨hplain, hdraft ▸ rfl, hnew, ?_, hsegments, ?_⟩, hs⟩
  · rw [← hdraft]
    change Draft.placedEntry file found.segments = _
    rw [Draft.placedEntry, hbare.fixed]
    rfl
  · rw [← hdraft]
    exact hstaged

/-- A static file is entered as a new module. -/
theorem enter_seated (hread : ObjectFile.read image = .ok file) (hbare : file.Bare)
    (hbelow : ∀ m ∈ start.modules, m.handle < start.nextHandle) (hholds : ledger.holds start.client 0) :
    Triple (· = { loader := start }) (enter image none)
      (fun entered s => ∃ m draft, entered = .inr (m.handle, file, draft) ∧
        Seated start image file m draft ∧ Raised ledger start [] 0 m s) fun _ => True := by
  refine Triple.bind (R := fun found s => found = file ∧ s = { loader := start })
    (Triple.ofExcept (fun found s hfound hs => ⟨?_, hs⟩) fun _ _ => trivial) ?_
  · exact Except.ok.inj (hfound.symm.trans hread)
  rintro _ s ⟨rfl, rfl⟩
  refine Triple.get_bind (P := (· = { loader := start })) (fun s hs => ?_) _ rfl
  obtain rfl := hs
  refine Triple.bind (R := fun _ s => s = { loader := start })
    (Triple.ofExcept (fun _ _ _ hs => hs) fun _ _ => trivial) fun _ => ?_
  refine Triple.bind (R := fun _ => Begun start)
    (Triple.modify fun s hs => ⟨by rw [hs], by rw [hs], by rw [hs]⟩) fun _ => ?_
  rw [reuseOwn_eq hbare.unnamed, pure_bind]
  refine (addModule_raised hbelow hholds none).bind fun ⟨handle, name⟩ => ?_
  rintro s ⟨m, rfl, hnew, hempty, hraised⟩
  refine ((placeSegments_raised hbare hnew hempty).bind fun staged => ?_) s hraised
  rintro t ⟨segments, hfollow, hstage, hplaced⟩
  refine ((draftModule_seated (m := { m with segments }) hbare hnew name hfollow hstage).bind
    fun draft => ?_) t hplaced
  rintro u ⟨m', hhandle, hseated, hraised'⟩
  exact ⟨m', draft, by rw [hhandle], hseated, { hraised' with }⟩

/-- Placing a static file places one module. -/
theorem place_seated (hread : ObjectFile.read image = .ok file) (hbare : file.Bare)
    (hbelow : ∀ m ∈ start.modules, m.handle < start.nextHandle) (hholds : ledger.holds start.client 0) :
    Triple (· = { loader := start }) (place image)
      (fun placed s => ∃ m draft, placed = (m.handle, m.handle) ∧
        Seated start image file m draft ∧ Raised ledger start [draft] 0 m s) fun _ => True := by
  refine Triple.get_bind fun s hs => ?_
  obtain rfl := hs
  obtain ⟨depth, hdepth⟩ : ∃ depth, UInt32.size - start.nextHandle.toNat = depth + 1 :=
    Nat.exists_eq_succ_of_ne_zero (Nat.sub_ne_zero_of_lt start.nextHandle.toNat_lt)
  rw [hdepth, loadModule_succ]
  refine Triple.bind (R := fun root s => ∃ m draft, root = m.handle ∧
    Seated start image file m draft ∧ Raised ledger start [draft] 0 m s) ?_ fun root => ?_
  · refine (enter_seated hread hbare hbelow hholds).bind fun entered => ?_
    rintro s ⟨m, draft, rfl, hseated, hraised⟩
    dsimp only
    rw [hbare.needed]
    refine ⟨m, draft, rfl, hseated, { hraised with pending := ?_ }⟩
    exact congrArg (· ++ [draft]) hraised.pending
  · refine Triple.get_bind fun s hs => ?_
    obtain ⟨m, draft, rfl, hseated, hraised⟩ := hs
    rw [hraised.created, if_pos (by simp), pure_bind]
    exact Triple.pure fun t ht => ⟨m, draft, rfl, hseated, ht ▸ hraised⟩

/-! ## After its placement -/

/-- Bytes were stored, and nothing else was asked of the client. -/
abbrev Filled : σ → σ → Prop :=
  Relation.ReflTransGen fun before after =>
    ∃ address bytes, after = (Client.write address bytes before).2

/-- Bytes were stored. Modules, table and drafts are what they were. -/
structure OnlyStores (before after : Loading σ) : Prop where
  filled : Filled before.loader.client after.loader.client
  modules : after.loader.modules = before.loader.modules
  dsbt : after.loader.dsbt = before.loader.dsbt
  pending : after.session.pending = before.session.pending

instance : IsPreorder (Loading σ) OnlyStores where
  refl _ := ⟨.refl, rfl, rfl, rfl⟩
  trans _ _ _ hfirst hsecond := ⟨hfirst.filled.trans hsecond.filled,
    hsecond.modules.trans hfirst.modules, hsecond.dsbt.trans hfirst.dsbt,
    hsecond.pending.trans hfirst.pending⟩

/-- Nothing waits for a slot, and the new modules are static. -/
structure Inert (loading : Loading σ) : Prop where
  idle : loading.loader.dsbt.pending = []
  bare : ∀ draft ∈ loading.session.pending, draft.Bare
  unclaimed : ∀ draft ∈ loading.session.pending, ∀ entry ∈ loading.loader.dsbt.entries,
    draft.handle ≠ entry.2.handle

theorem Raised.inert {draft : Draft} (h : Raised ledger start [draft] 0 m loading)
    (hsound : start.Sound Ledger.blank) (hseated : Seated start image file m draft) : Inert loading where
  idle := h.dsbt ▸ hsound.idle
  bare other hother := by
    rw [h.pending, List.mem_singleton] at hother
    exact hother ▸ hseated.bare
  unclaimed other hother entry hentry heq := by
    rw [h.pending, List.mem_singleton] at hother
    rw [h.dsbt] at hentry
    have hbound := hsound.bound entry hentry
    rw [← heq, hother, hseated.handle] at hbound
    exact hseated.fresh hbound

variable {origin : Loading σ}

omit [Client σ] in
theorem bindSlots_inert (h : Inert loading) : bindSlots loading = (.ok (), loading) := by
  have hpending : loading.session.pending.map (·.withSlot loading.loader.dsbt) =
      loading.session.pending := by
    refine (List.map_congr_left fun draft hdraft => ?_).trans (List.map_id _)
    exact Draft.withSlot_of_none (h.bare draft hdraft).unclaimed
  have hassign := Dsbt.assign_of_pending h.idle
  refine Prod.ext rfl ?_
  change { loading with
    loader := { loading.loader with dsbt := loading.loader.dsbt.assign }
    session := { loading.session with
      pending := loading.session.pending.map fun draft =>
        draft.withSlot loading.loader.dsbt.assign } } = loading
  rw [hassign, hpending]

theorem write_stores (address : UInt32) (bytes : Bytes) :
    Within OnlyStores (onClient (Client.write address bytes) : LoadM (Loading σ) Unit) :=
  fun _ => ⟨.single ⟨address, bytes, rfl⟩, rfl, rfl, rfl⟩

/-- The table is stored in the private tables of modules that are not new. -/
theorem writeTable_stores (h : Inert origin) {entry : Nat × Dsbt.Claim}
    (hentry : entry ∈ origin.loader.dsbt.entries) (table : List UInt32) :
    Triple (OnlyStores origin) (writeTable entry.2 table) (fun _ => OnlyStores origin)
      (OnlyStores origin) := by
  refine Triple.get_bind fun loading hstores => ?_
  have hold : loading.session.pending.find? (·.handle == entry.2.handle) = none := by
    rw [hstores.pending]
    refine List.find?_eq_none.mpr fun draft hdraft => ?_
    simpa using h.unclaimed draft hdraft entry hentry
  have hnone : ∀ modules address bytes,
      stagePending modules entry.2.handle address bytes loading.session.pending = none := by
    intro modules address bytes
    rw [stagePending, hold]
    rfl
  dsimp only
  rw [hnone]
  exact ((write_stores _ _).since origin).strengthen fun s hs => hs ▸ hstores

theorem writeTables_stores (h : Inert origin) :
    Triple (OnlyStores origin) writeTables (fun _ => OnlyStores origin) (OnlyStores origin) := by
  refine Triple.get_bind fun loading hstores => ?_
  rw [hstores.dsbt]
  unfold Dsbt.updateAll
  split
  · exact Triple.throw fun s hs => hs ▸ hstores
  · exact (Triple.forM fun entry hentry => writeTable_stores h hentry _).strengthen
      fun s hs => hs ▸ hstores

omit [Client σ] in
theorem stageDynamics_inert (h : ∀ draft ∈ loading.session.pending, draft.Bare) :
    stageDynamics loading = (.ok (), loading) := by
  simp only [stageDynamics, bind_apply, LoadM.get_apply]
  rw [LoadM.mapM_apply (f := id) fun draft hdraft => ?_, List.map_id]
  · rfl
  · rw [(h draft hdraft).fixed]
    rfl

/-- Preparing static modules writes the tables of others. -/
theorem prepare_stores (h : Inert origin) (root : Handle) :
    Triple (· = origin) (prepare root) (fun _ => OnlyStores origin) (OnlyStores origin) := by
  refine Triple.bind (R := fun _ => OnlyStores origin) ?_ fun _ => ?_
  · intro s hs
    have hrefl : OnlyStores origin origin := Std.Refl.refl origin
    rwa [show s = origin from hs, bindSlots_inert h]
  refine (writeTables_stores h).bind fun _ => ?_
  refine Triple.bind (R := fun _ => OnlyStores origin) ?_ fun _ => ?_
  · intro loading hstores
    rw [stageDynamics_inert (hstores.pending ▸ h.bare)]
    exact hstores
  · exact Within.since (fun _ => ⟨.refl, rfl, rfl, rfl⟩) origin

theorem writeSegments_stores (draft : Draft) :
    Within OnlyStores (writeSegments draft : LoadM (Loading σ) Unit) := by
  refine Within.bind (Within.of_unchanged (resident_unchanged draft.handle)) fun m => ?_
  exact Within.forM fun entry => write_stores _ _

/-- A static module is written as it is, and runs nothing. -/
theorem complete_eq_of_bare {draft : Draft} (h : draft.Bare) (root : Handle) (arguments : List String) :
    (complete root arguments [draft] : LoadM (Loading σ) Unit) = writeSegments draft := by
  have hnone (tag : UInt32) : DynamicEntry.find? draft.dynamic tag = none := by
    rw [h.dynamic]
    rfl
  have harray (addressTag sizeTag : UInt32) : draft.functions? addressTag sizeTag = none := by
    rw [Draft.functions?, hnone]
  have hrelocate : (relocateAndWrite draft : LoadM (Loading σ) Unit) = writeSegments draft := by
    rw [relocateAndWrite, h.fixed]
    rfl
  have hpreinit : (runPreinit draft : LoadM (Loading σ) Unit) = pure () := by
    rw [runPreinit, Draft.preinitArray?, harray]
    rfl
  have harguments : (passArguments root arguments draft : LoadM (Loading σ) Unit) = pure () := by
    rw [passArguments, writeArguments, h.symbols]
    exact ite_self _
  have hinitializers : (runInitializers root arguments draft : LoadM (Loading σ) Unit) = pure () := by
    rw [runInitializers_eq, harguments, runInit, Draft.init?, Draft.function?, hnone,
      Draft.initArray?, harray]
    rfl
  unfold complete
  rw [List.filter_cons, List.filter_nil]
  split
  · simp only [List.forM, hrelocate, hpreinit, hinitializers, pure_bind, bind_pure_unit]
  · simp only [List.forM, hrelocate, hinitializers, pure_bind, bind_pure_unit]

end Loading

end TargetLink
