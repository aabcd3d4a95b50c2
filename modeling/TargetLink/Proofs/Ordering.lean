import TargetLink.Proofs.Completion

/-!
# The order of a graph

The modules of a graph are completed in the order of their drafts.  No step after the last module was
placed changes the outline of a draft (`Loading.Restaged`), so the drafts of a graph that is ready are
those of the new modules, and each new module comes after the new ones that it needs
(`Loading.ready_inOrder`).
-/

namespace TargetLink

open TargetLink.Module (handlesOf needsOf)
open LoadM (Triple Within)

/-! ## Preparing a graph -/

theorem Draft.outline_withSlot (draft : Draft) (dsbt : Dsbt) :
    (draft.withSlot dsbt).outline = draft.outline := by
  unfold Draft.withSlot
  split
  · rfl
  · split <;> rfl

theorem Draft.length_stageIn {address : UInt32} {bytes : Bytes} {segments : List Segment}
    {blocks staged : List Bytes} (h : Draft.stageIn address bytes segments blocks = some staged) :
    staged.length = blocks.length := by
  induction segments generalizing blocks staged with
  | nil => cases h
  | cons segment segments ih =>
    cases blocks with
    | nil => cases h
    | cons block blocks =>
      unfold Draft.stageIn at h
      simp only at h
      split at h
      · obtain rfl := Option.some.inj h
        rfl
      · obtain ⟨rest, hrest, rfl⟩ := Option.map_eq_some_iff.mp h
        rw [List.length_cons, List.length_cons, ih hrest]

theorem Draft.outline_stage {draft staged : Draft} {segments : List Segment} {address : UInt32}
    {bytes : Bytes} (h : draft.stage? segments address bytes = some staged) :
    staged.outline = draft.outline := by
  obtain ⟨blocks, hblocks, rfl⟩ := Option.map_eq_some_iff.mp h
  simp [Draft.outline, length_stageIn hblocks]

theorem Draft.outline_withDynamicStaged (draft : Draft) (segments : List Segment) :
    (draft.withDynamicStaged segments).outline = draft.outline := by
  unfold Draft.withDynamicStaged
  dsimp only
  split
  · rename_i address _
    cases hstage : draft.stage? segments address
        (DynamicEntry.encodeTable draft.dynamic draft.file.order) with
    | none => rfl
    | some staged => exact outline_stage hstage
  · rfl

namespace Loading

variable {σ : Type}

theorem mem_of_find_pending {drafts : List Draft} {handle : Handle} {draft : Draft}
    (h : drafts.find? (·.handle == handle) = some draft) : draft ∈ drafts ∧ draft.handle = handle :=
  ⟨List.mem_of_find?_eq_some h, by simpa using List.find?_some h⟩

/-- Bytes are stored among drafts by exchanging the draft of a handle for one that has staged them. -/
theorem exists_staged_of_stagePending {modules : List Module} {handle : Handle} {address : UInt32}
    {bytes : Bytes} {pending staged : List Draft}
    (h : stagePending modules handle address bytes pending = some staged) :
    ∃ m draft done, Module.find? modules handle = some m ∧
      pending.find? (·.handle == handle) = some draft ∧
      draft.stage? m.segments address bytes = some done ∧
      staged = pending.map fun d => if d.handle = handle then done else d := by
  obtain ⟨draft, hdraft, h⟩ := Option.bind_eq_some_iff.mp h
  obtain ⟨m, hm, h⟩ := Option.bind_eq_some_iff.mp h
  obtain ⟨done, hdone, h⟩ := Option.bind_eq_some_iff.mp h
  exact ⟨m, draft, done, hm, hdraft, hdone, (Option.some.inj h).symm⟩

/-- Storing bytes in the draft of a handle changes no outline, if it has one draft only. -/
theorem outlines_stagePending {modules : List Module} {handle : Handle} {address : UInt32}
    {bytes : Bytes} {pending staged : List Draft} (hdistinct : (pending.map (·.handle)).Nodup)
    (h : stagePending modules handle address bytes pending = some staged) :
    staged.map (·.outline) = pending.map (·.outline) := by
  obtain ⟨m, draft, done, -, hfind, hstage, rfl⟩ := exists_staged_of_stagePending h
  obtain ⟨hmem, hhandle⟩ := mem_of_find_pending hfind
  rw [List.map_map]
  refine List.map_congr_left fun other hother => ?_
  by_cases heq : other.handle = handle
  · obtain rfl := List.inj_on_of_nodup_map hdistinct hother hmem (heq.trans hhandle.symm)
    simp [hhandle, Draft.outline_stage hstage]
  · simp [heq]

/-- Drafts may change in what their outlines do not show, if no two of them are of one module. -/
structure Restaged (before after : Loading σ) : Prop where
  modules : after.loader.modules = before.loader.modules
  created : after.session.created = before.session.created
  drafted : (before.drafted.map (·.handle)).Nodup → after.drafted = before.drafted

instance : IsPreorder (Loading σ) Restaged where
  refl _ := ⟨rfl, rfl, fun _ => rfl⟩
  trans _ _ _ hfirst hsecond :=
    ⟨hsecond.modules.trans hfirst.modules, hsecond.created.trans hfirst.created, fun hdistinct =>
      (hsecond.drafted (hfirst.drafted hdistinct ▸ hdistinct)).trans (hfirst.drafted hdistinct)⟩

theorem Drafting.restaged {before after : Loading σ} (h : Drafting [] before)
    (hrestaged : Restaged before after) : Drafting [] after := by
  have hdistinct : (before.drafted.map (·.handle)).Nodup := by simpa using h.nodup
  exact h.congr (by rw [hrestaged.modules]) (by rw [hrestaged.modules]) hrestaged.created
    (hrestaged.drafted hdistinct)

theorem restaged_bindSlots : Within Restaged (bindSlots : LoadM (Loading σ) Unit) := by
  refine fun loading => ⟨rfl, rfl, fun _ => ?_⟩
  change (loading.session.pending.map _).map Draft.outline = loading.session.pending.map Draft.outline
  rw [List.map_map]
  exact List.map_congr_left fun draft _ => draft.outline_withSlot _

variable [Client σ]

theorem restaged_writeTable (claim : Dsbt.Claim) (table : List UInt32) :
    Within Restaged (writeTable claim table : LoadM (Loading σ) Unit) := by
  refine Within.get_bind fun loading => ?_
  cases hstaged : stagePending loading.loader.modules claim.handle claim.base _
      loading.session.pending with
  | some pending =>
    refine ⟨rfl, rfl, fun hdistinct => ?_⟩
    rw [handles_drafted] at hdistinct
    exact outlines_stagePending hdistinct hstaged
  | none => exact ⟨rfl, rfl, fun _ => rfl⟩

theorem restaged_writeTables : Within Restaged (writeTables : LoadM (Loading σ) Unit) := by
  refine Within.bind Within.get fun loading => ?_
  unfold Dsbt.updateAll
  split
  · exact Within.throw
  · exact Within.forM fun entry => restaged_writeTable entry.2 _

omit [Client σ] in
theorem restaged_stageDynamics : Within Restaged (stageDynamics : LoadM (Loading σ) Unit) := by
  refine Within.get_bind fun loading => ?_
  have hrounds : ∀ draft ∈ loading.session.pending,
      Triple (· = loading) (do
          if draft.file.isRelocatable then
            return draft.withDynamicStaged (← resident draft.handle).segments
          else return draft : LoadM (Loading σ) Draft)
        (fun draft' s => s = loading ∧ draft'.outline = draft.outline) (· = loading) := by
    intro draft _
    split
    · exact (resident_keeps (fun _ hs => hs) draft.handle).bind fun m =>
        Triple.pure fun _ hs => ⟨hs, draft.outline_withDynamicStaged m.segments⟩
    · exact Triple.pure fun _ hs => ⟨hs, rfl⟩
  refine Within.of_triple (((Triple.mapM_view hrounds).weaken (fun _ _ h => h) ?_).bind fun pending => ?_)
  · intro s hs
    rw [show s = loading from hs]
    exact Std.Refl.refl loading
  · refine Triple.modify fun s h => ?_
    obtain ⟨rfl, houtlines⟩ := h
    exact ⟨rfl, rfl, fun _ => houtlines⟩

theorem restaged_prepare (root : Handle) :
    Within Restaged (prepare root : LoadM (Loading σ) Unit) := by
  refine Within.bind restaged_bindSlots fun _ => ?_
  refine Within.bind restaged_writeTables fun _ => ?_
  exact Within.bind restaged_stageDynamics fun _ _ => ⟨rfl, rfl, fun _ => rfl⟩

theorem ready_drafting {ledger : Ledger σ} {start : Loader σ} (hstart : start.Sound ledger)
    (image : Image) :
    Triple (· = { loader := start }) (ready image) (fun _ => Drafting []) fun _ => True := by
  have hplaced := (place_triple hstart image).weaken (fun _ _ h => h.2) fun _ _ => trivial
  refine hplaced.bind fun placed => Triple.bind (R := fun _ => Drafting []) ?_ fun _ =>
    Triple.pure fun _ h => h
  exact (restaged_prepare placed.1).triple (fun _ _ h hrestaged => h.restaged hrestaged)
    fun _ _ => trivial

/-! ## The order of a graph -/

/-- The drafts are those of the modules that were not there before, one for each, and a module comes
after the new modules that it needs. -/
structure InOrder (before modules : List Module) (drafts : List Draft) : Prop where
  mem_iff : ∀ handle, handle ∈ drafts.map (·.handle) ↔
    handle ∈ handlesOf modules ∧ handle ∉ handlesOf before
  once : (drafts.map (·.handle)).Nodup
  matched : ∀ draft ∈ drafts, ∃ m ∈ modules, m.outline = draft.outline
  sorted : ∀ earlier draft later, drafts = earlier ++ draft :: later →
    ∀ d, Module.Needs modules draft.handle d → d ∉ handlesOf before → d ∈ earlier.map (·.handle)

theorem Drafting.inOrder {ledger : Ledger σ} {start : Loader σ} {root handle : Handle}
    {app : Option Handle} {loading : Loading σ} (hstart : start.Sound ledger)
    (h : Drafting [] loading) (hfinishing : Finishing ledger start root handle app loading) :
    InOrder start.modules loading.loader.modules loading.session.pending := by
  have hcreated : (loading.session.pending.map (·.handle)).Perm loading.session.created := by
    rw [← handles_drafted]
    simpa using h.created
  have hnew : ∀ {handle}, handle ∈ loading.session.created → handle ∉ handlesOf start.modules :=
    fun hmem hold => Books.start_below hstart hold (hfinishing.created _ hmem)
  constructor
  case mem_iff =>
    intro handle
    rw [hcreated.mem_iff]
    exact ⟨fun hmem => ⟨hfinishing.resident_of_created hmem, hnew hmem⟩,
      fun ⟨hresident, hfresh⟩ => hfinishing.mem_created hresident hfresh⟩
  case once => exact hcreated.nodup_iff.mpr h.once
  case matched =>
    intro draft hdraft
    have houtline : draft.outline ∈ loading.drafted ++ [] :=
      List.mem_append_left _ (List.mem_map_of_mem hdraft)
    exact List.mem_map.mp (h.matched _ houtline)
  case sorted =>
    intro earlier draft later hsplit d hneeds hfresh
    have hresident : d ∈ handlesOf loading.loader.modules :=
      hfinishing.accounted.needed_resident hneeds.mem_needsOf
    have hmem : d ∈ loading.session.pending.map (·.handle) :=
      hcreated.mem_iff.mpr (hfinishing.mem_created hresident hfresh)
    have hsorted := h.sorted
    rw [handles_drafted, hsplit, List.map_append, List.map_cons, List.pairwise_append] at hsorted
    rw [hsplit, List.map_append, List.map_cons, List.mem_append, List.mem_cons] at hmem
    rcases hmem with hearlier | rfl | hlater
    · exact hearlier
    · -- A module does not need itself.
      obtain ⟨m, hm, hhandle, hneeded⟩ := hneeds
      obtain ⟨rank, hrank⟩ := hfinishing.acyclic
      exact absurd (hrank m hm _ hneeded) (hhandle ▸ Nat.lt_irrefl _)
    · exact absurd hneeds ((List.pairwise_cons.mp hsorted.2.1).1 d hlater)

/-- The drafts of a graph that is ready are in order. -/
theorem ready_inOrder {ledger : Ledger σ} {start : Loader σ} (hstart : start.Sound ledger)
    (image : Image) :
    Triple (· = { loader := start }) (ready image)
      (fun _ loading => InOrder start.modules loading.loader.modules loading.session.pending)
      fun _ => True := by
  have hready := ((ready_triple hstart image).weaken (fun _ _ h => h) fun _ _ => trivial).and
    (ready_drafting hstart image)
  exact (hready.strengthen fun _ h => ⟨h, h⟩).weaken (fun _ _ h => h.2.inOrder hstart h.1)
    fun _ h => h

end Loading

end TargetLink
