import TargetLink.Proofs.Placement

/-!
# The order of the drafts

While a graph is placed the loader keeps a draft of every new module that is complete, in the order
in which the modules became complete.  `Loading.Drafting opened` says what holds of the drafts while
the modules `opened` are not complete: together they are the modules that the load created, a draft
has the outline of its module, and the created modules that a module needs are drafted before it.

Placing a graph keeps the books and the order of the drafts (`Loading.loadModule_triple`).
-/

namespace TargetLink

open TargetLink.Module (handlesOf needsOf allocationsOf)
open LoadM (Triple Within)

/-- What a draft and its module agree on. -/
structure Outline where
  handle : Handle
  isExecutable : Bool
  order : ByteOrder
  segments : Nat

def Module.outline (m : Module) : Outline :=
  ⟨m.handle, m.isExecutable, m.order, m.segments.length⟩

def Draft.outline (draft : Draft) : Outline :=
  ⟨draft.handle, draft.file.isExecutable, draft.file.order, draft.staged.length⟩

/-- The outline of a module of a file. -/
def ObjectFile.outline (file : ObjectFile) (handle : Handle) (segments : Nat) : Outline :=
  ⟨handle, file.isExecutable, file.order, segments⟩

/-- One of the modules has the first handle and needs the second one. -/
def Module.Needs (modules : List Module) (handle needed : Handle) : Prop :=
  ∃ m ∈ modules, m.handle = handle ∧ needed ∈ m.dependencies

theorem Module.Needs.mem_needsOf {modules : List Module} {handle needed : Handle}
    (h : Needs modules handle needed) : needed ∈ needsOf modules := by
  obtain ⟨m, hm, -, hneeds⟩ := h
  exact List.mem_flatMap.mpr ⟨m, hm, hneeds⟩

theorem Module.Needs.mem_handlesOf {modules : List Module} {handle needed : Handle}
    (h : Needs modules handle needed) : handle ∈ handlesOf modules := by
  obtain ⟨m, hm, rfl, -⟩ := h
  exact handle_mem hm

/-- The edges from a module. -/
abbrev Module.edges (m : Module) : Handle × List Handle := (m.handle, m.dependencies)

theorem Module.needs_congr {modules modules' : List Module}
    (h : modules'.map edges = modules.map edges) {handle needed : Handle} :
    Needs modules' handle needed ↔ Needs modules handle needed := by
  have hiff : ∀ ms : List Module, Needs ms handle needed ↔
      ∃ edge ∈ ms.map edges, edge.1 = handle ∧ needed ∈ edge.2 := by
    intro ms
    simp [Needs]
  rw [hiff, hiff, h]

theorem Module.handlesOf_eq_of_outlines {modules modules' : List Module}
    (h : modules'.map outline = modules.map outline) : handlesOf modules' = handlesOf modules := by
  have hview : ∀ ms : List Module, handlesOf ms = (ms.map outline).map (·.handle) := by
    intro ms
    rw [List.map_map]
    rfl
  rw [hview, hview, h]

namespace Loading

variable {σ : Type}

/-- The outlines of the drafts of a load. -/
def drafted (loading : Loading σ) : List Outline := loading.session.pending.map (·.outline)

theorem handles_drafted (loading : Loading σ) :
    loading.drafted.map (·.handle) = loading.session.pending.map (·.handle) := by
  rw [drafted, List.map_map]
  rfl

/-- What holds of the drafts while the modules `opened` are not complete. -/
structure Drafting (opened : List Outline) (loading : Loading σ) : Prop where
  distinct : (handlesOf loading.loader.modules).Nodup
  once : loading.session.created.Nodup
  created : ((loading.drafted ++ opened).map (·.handle)).Perm loading.session.created
  matched : ∀ o ∈ loading.drafted ++ opened, o ∈ loading.loader.modules.map Module.outline
  closed : ∀ o ∈ loading.drafted ++ opened, ∀ d, Module.Needs loading.loader.modules o.handle d →
    d ∈ loading.session.created → d ∈ loading.drafted.map (·.handle)
  sorted : (loading.drafted.map (·.handle)).Pairwise
    fun first second => ¬Module.Needs loading.loader.modules first second

namespace Drafting

variable {opened : List Outline} {loading loading' : Loading σ} {o : Outline}

theorem begin {start : Loader σ} (hdistinct : (handlesOf start.modules).Nodup) :
    Drafting [] { loader := start } where
  distinct := hdistinct
  once := List.nodup_nil
  created := .refl _
  matched := by simp [drafted]
  closed := by simp [drafted]
  sorted := .nil

theorem nodup (h : Drafting opened loading) :
    ((loading.drafted ++ opened).map (·.handle)).Nodup :=
  h.created.nodup_iff.mpr h.once

/-- A module that is complete is drafted if the load created it. -/
theorem mem_drafted (h : Drafting opened loading) {found : Handle}
    (hcomplete : found ∉ opened.map (·.handle)) (hcreated : found ∈ loading.session.created) :
    found ∈ loading.drafted.map (·.handle) := by
  have hmem := h.created.mem_iff.mpr hcreated
  rw [List.map_append, List.mem_append] at hmem
  exact hmem.resolve_right hcomplete

/-- What the drafts do not show may change. -/
theorem congr (h : Drafting opened loading)
    (houtlines : loading'.loader.modules.map Module.outline =
      loading.loader.modules.map Module.outline)
    (hedges : loading'.loader.modules.map Module.edges = loading.loader.modules.map Module.edges)
    (hcreated : loading'.session.created = loading.session.created)
    (hdrafted : loading'.drafted = loading.drafted) : Drafting opened loading' := by
  constructor
  · rw [Module.handlesOf_eq_of_outlines houtlines]
    exact h.distinct
  · rw [hcreated]
    exact h.once
  · rw [hcreated, hdrafted]
    exact h.created
  · rw [hdrafted, houtlines]
    exact h.matched
  · rw [hcreated, hdrafted]
    exact fun o ho d hd => h.closed o ho d ((Module.needs_congr hedges).mp hd)
  · rw [hdrafted]
    exact h.sorted.imp fun hnot hd => hnot ((Module.needs_congr hedges).mp hd)

/-- The modules that are complete or opened have different handles. -/
theorem handle_ne (h : Drafting (opened ++ [o]) loading) {other : Outline}
    (hother : other ∈ loading.drafted ++ opened) : other.handle ≠ o.handle := by
  have hnodup := h.nodup
  rw [← List.append_assoc, List.map_append, List.nodup_append'] at hnodup
  intro heq
  exact hnodup.2.2 (List.mem_map_of_mem hother) (by simp [heq])

/-- A new module is opened. -/
theorem addModule (h : Drafting opened loading) {m : Module}
    (hfresh : m.handle ∉ handlesOf loading.loader.modules)
    (hunneeded : m.handle ∉ needsOf loading.loader.modules) (hneeds : m.dependencies = []) :
    Drafting (opened ++ [m.outline])
      { loader := { loading.loader with modules := loading.loader.modules ++ [m] }
        session := { loading.session with created := loading.session.created ++ [m.handle] } } := by
  have hsame : ∀ {handle needed : Handle},
      Module.Needs (loading.loader.modules ++ [m]) handle needed →
        Module.Needs loading.loader.modules handle needed := by
    rintro handle needed ⟨n, hn, hhandle, hneeded⟩
    rcases List.mem_append.mp hn with hold | hlast
    · exact ⟨n, hold, hhandle, hneeded⟩
    · rw [List.mem_singleton.mp hlast, hneeds] at hneeded
      cases hneeded
  have hnotin : m.handle ∉ loading.session.created := by
    intro hmem
    obtain ⟨o, ho, heq⟩ := List.mem_map.mp (h.created.mem_iff.mpr hmem)
    obtain ⟨n, hn, rfl⟩ := List.mem_map.mp (h.matched o ho)
    exact hfresh (heq ▸ Module.handle_mem hn)
  constructor
  case distinct =>
    rw [Module.handlesOf_append, List.nodup_append']
    refine ⟨h.distinct, List.nodup_singleton _, ?_⟩
    simpa using hfresh
  case once =>
    refine List.nodup_append'.mpr ⟨h.once, List.nodup_singleton _, ?_⟩
    simpa using hnotin
  case created =>
    change ((loading.drafted ++ (opened ++ [m.outline])).map (·.handle)).Perm _
    rw [← List.append_assoc, List.map_append]
    exact h.created.append_right _
  case matched =>
    change ∀ o ∈ loading.drafted ++ (opened ++ [m.outline]), _
    rw [← List.append_assoc, List.map_append]
    intro o ho
    rcases List.mem_append.mp ho with hold | hlast
    · exact List.mem_append_left _ (h.matched o hold)
    · exact List.mem_append_right _ hlast
  case closed =>
    change ∀ o ∈ loading.drafted ++ (opened ++ [m.outline]), _
    rw [← List.append_assoc]
    intro o ho d hd hcreated
    have hold := hsame hd
    have hd' : d ∈ loading.session.created := by
      refine (List.mem_append.mp hcreated).resolve_right fun hlast => hunneeded ?_
      exact List.mem_singleton.mp hlast ▸ hold.mem_needsOf
    rcases List.mem_append.mp ho with hmem | hlast
    · exact h.closed o hmem d hold hd'
    · obtain rfl := List.mem_singleton.mp hlast
      exact absurd hold.mem_handlesOf hfresh
  case sorted => exact h.sorted.imp fun hnot hd => hnot (hsame hd)

/-- The last opened module gets a segment. -/
theorem addSegment (h : Drafting (opened ++ [o]) loading) (segment : Segment) :
    Drafting (opened ++ [{ o with segments := o.segments + 1 }])
      { loading with loader := loading.loader.update o.handle fun m =>
          { m with segments := m.segments ++ [segment] } } := by
  have hmap : Loader.updateModule o.handle (fun m => { m with segments := m.segments ++ [segment] })
      loading.loader.modules = loading.loader.modules.map fun m =>
        if m.handle = o.handle then { m with segments := m.segments ++ [segment] } else m :=
    Loader.updateModule_eq_map h.distinct
  have hedges : (Loader.updateModule o.handle (fun m =>
      { m with segments := m.segments ++ [segment] }) loading.loader.modules).map Module.edges =
        loading.loader.modules.map Module.edges :=
    Loader.map_updateModule fun _ => rfl
  have hmem : ∀ other ∈ loading.drafted ++ (opened ++ [{ o with segments := o.segments + 1 }]),
      other ∈ loading.drafted ++ opened ∨ other = { o with segments := o.segments + 1 } := by
    intro other hother
    rw [← List.append_assoc] at hother
    exact (List.mem_append.mp hother).imp_right List.mem_singleton.mp
  have hold : ∀ other ∈ loading.drafted ++ opened, other ∈ loading.drafted ++ (opened ++ [o]) := by
    intro other hother
    rw [← List.append_assoc]
    exact List.mem_append_left _ hother
  have hlast : o ∈ loading.drafted ++ (opened ++ [o]) := by simp
  constructor
  case distinct =>
    rw [Loader.update, Loader.handlesOf_updateModule]
    · exact h.distinct
    · intro m
      rfl
  case once => exact h.once
  case created => simpa [drafted] using h.created
  case matched =>
    intro other hother
    rw [Loader.update, hmap, List.map_map]
    rcases hmem other hother with hother | rfl
    · obtain ⟨m, hm, rfl⟩ := List.mem_map.mp (h.matched other (hold other hother))
      refine List.mem_map.mpr ⟨m, hm, ?_⟩
      have hne : m.handle ≠ o.handle := h.handle_ne hother
      simp [hne]
    · obtain ⟨m, hm, rfl⟩ := List.mem_map.mp (h.matched o hlast)
      exact List.mem_map.mpr ⟨m, hm, by simp [Module.outline]⟩
  case closed =>
    intro other hother d hd hcreated
    have hd' := (Module.needs_congr hedges).mp hd
    rcases hmem other hother with hother | rfl
    · exact h.closed other (hold other hother) d hd' hcreated
    · exact h.closed o hlast d hd' hcreated
  case sorted => exact h.sorted.imp fun hnot hd => hnot ((Module.needs_congr hedges).mp hd)

/-- An opened module needs a module that is complete. -/
theorem addDependency (h : Drafting (opened ++ [o]) loading) {found : Handle}
    (hfound : found ∈ loading.session.created → found ∈ loading.drafted.map (·.handle)) :
    Drafting (opened ++ [o]) (withDependency o.handle found loading) := by
  have houtlines : (Loader.updateModule o.handle (fun m =>
      { m with dependencies := m.dependencies ++ [found] }) loading.loader.modules).map
        Module.outline = loading.loader.modules.map Module.outline :=
    Loader.map_updateModule fun _ => rfl
  have hneeds : ∀ {handle needed : Handle}, Module.Needs (Loader.updateModule o.handle (fun m =>
      { m with dependencies := m.dependencies ++ [found] }) loading.loader.modules) handle needed →
        Module.Needs loading.loader.modules handle needed ∨ handle = o.handle ∧ needed = found := by
    rintro handle needed ⟨m', hm', rfl, hneeded⟩
    obtain ⟨m, hm, rfl | ⟨hhandle, rfl⟩⟩ := Loader.exists_of_mem_updateModule hm'
    · exact Or.inl ⟨m', hm, rfl, hneeded⟩
    · rcases List.mem_append.mp hneeded with hold | hnew
      · exact Or.inl ⟨m, hm, rfl, hold⟩
      · exact Or.inr ⟨hhandle, List.mem_singleton.mp hnew⟩
  constructor
  case distinct =>
    rw [withDependency, Loader.update, Module.handlesOf_eq_of_outlines houtlines]
    exact h.distinct
  case once => exact h.once
  case created => exact h.created
  case matched =>
    intro other hother
    rw [withDependency, Loader.update, houtlines]
    exact h.matched other hother
  case closed =>
    intro other hother d hd hcreated
    rcases hneeds hd with hold | ⟨-, rfl⟩
    · exact h.closed other hother d hold hcreated
    · exact hfound hcreated
  case sorted =>
    refine h.sorted.imp_of_mem fun hfirst _ hnot hd => ?_
    rcases hneeds hd with hold | ⟨heq, -⟩
    · exact hnot hold
    · obtain ⟨other, hother, hhandle⟩ := List.mem_map.mp hfirst
      exact h.handle_ne (List.mem_append_left _ hother) (hhandle.trans heq)

/-- The last opened module is complete, and no module needs it yet. -/
theorem close (h : Drafting (opened ++ [o]) loading) {draft : Draft} (hdraft : draft.outline = o)
    (hunneeded : o.handle ∉ needsOf loading.loader.modules) (inProgress : List String) :
    Drafting opened { loading with session := { loading.session with
      inProgress, pending := loading.session.pending ++ [draft] } } := by
  have hdrafted : drafted { loading with session := { loading.session with
      inProgress, pending := loading.session.pending ++ [draft] } } = loading.drafted ++ [o] := by
    simp [drafted, hdraft]
  have hperm : ((loading.drafted ++ [o]) ++ opened).Perm (loading.drafted ++ (opened ++ [o])) := by
    rw [List.append_assoc]
    exact List.perm_append_comm.append_left _
  constructor
  case distinct => exact h.distinct
  case once => exact h.once
  case created =>
    rw [hdrafted]
    exact (hperm.map _).trans h.created
  case matched =>
    rw [hdrafted]
    exact fun other hother => h.matched other (hperm.mem_iff.mp hother)
  case closed =>
    rw [hdrafted]
    intro other hother d hd hcreated
    rw [List.map_append]
    exact List.mem_append_left _ (h.closed other (hperm.mem_iff.mp hother) d hd hcreated)
  case sorted =>
    rw [hdrafted, List.map_append, List.pairwise_append]
    refine ⟨h.sorted, List.pairwise_singleton _ _, fun first _ second hsecond hd => ?_⟩
    rw [List.map_singleton] at hsecond
    exact hunneeded (List.mem_singleton.mp hsecond ▸ hd.mem_needsOf)

end Drafting

/-! ## Steps that the drafts do not show -/

/-- Nothing moved that the drafts show. -/
structure Alike (before after : Loading σ) : Prop where
  outlines : after.loader.modules.map Module.outline = before.loader.modules.map Module.outline
  edges : after.loader.modules.map Module.edges = before.loader.modules.map Module.edges
  created : after.session.created = before.session.created
  drafted : after.drafted = before.drafted

instance : IsPreorder (Loading σ) Alike where
  refl _ := ⟨rfl, rfl, rfl, rfl⟩
  trans _ _ _ hfirst hsecond :=
    ⟨hsecond.outlines.trans hfirst.outlines, hsecond.edges.trans hfirst.edges,
      hsecond.created.trans hfirst.created, hsecond.drafted.trans hfirst.drafted⟩

theorem Drafting.alike {opened : List Outline} {before after : Loading σ}
    (h : Drafting opened before) (halike : Alike before after) : Drafting opened after :=
  h.congr halike.outlines halike.edges halike.created halike.drafted

theorem alike_onClient {α : Type} (step : LoadM σ α) : Within Alike (onClient step) :=
  fun _ => ⟨rfl, rfl, rfl, rfl⟩

theorem alike_newHandle : Within Alike (onLoader Loader.newHandle : LoadM (Loading σ) Handle) := by
  intro loading
  rw [newHandle_apply]
  split
  · exact Std.Refl.refl loading
  · exact ⟨rfl, rfl, rfl, rfl⟩

theorem alike_modifySession {change : Session → Session}
    (h : ∀ session, (change session).created = session.created ∧
      (change session).pending = session.pending) :
    Within Alike (modifySession change : LoadM (Loading σ) Unit) :=
  fun loading => ⟨rfl, rfl, (h loading.session).1,
    congrArg (List.map Draft.outline) (h loading.session).2⟩

theorem alike_resident (handle : Handle) :
    Within Alike (resident handle : LoadM (Loading σ) Module) :=
  Within.of_unchanged (resident_unchanged handle)

theorem alike_reuse (name : String) : Within Alike (reuse name : LoadM (Loading σ) _) := by
  intro loading
  rw [reuse_apply]
  split
  · exact Std.Refl.refl loading
  · refine ⟨Loader.map_updateModule fun _ => rfl, Loader.map_updateModule fun _ => rfl, ?_, ?_⟩
    · split <;> rfl
    · unfold drafted
      split <;> rfl

theorem alike_reuseOwn (file : ObjectFile) :
    Within Alike (reuseOwn file : LoadM (Loading σ) _) := by
  unfold reuseOwn
  split
  · exact Within.pure
  · exact Within.bind Within.get fun loading => Within.throw_if (alike_reuse _)

theorem alike_triple {α : Type} {opened : List Outline} {step : LoadM (Loading σ) α}
    (hstep : Within Alike step) :
    Triple (Drafting opened) step (fun _ => Drafting opened) fun _ => True :=
  hstep.triple (fun _ _ h halike => h.alike halike) fun _ _ => trivial

theorem outline_ofPlaced (handle : Handle) (name : String) (file : ObjectFile)
    (segments : List Segment) (staged : List Bytes) :
    (Draft.ofPlaced handle name file segments staged).outline =
      file.outline handle staged.length := by
  unfold Draft.ofPlaced
  split <;> rfl

/-! ## Placing a module and what it needs -/

theorem draftModule_drafting {opened : List Outline} (handle : Handle) (name : String)
    (file : ObjectFile) (staged : List Bytes) :
    Triple (Drafting opened) (draftModule handle name file staged : LoadM (Loading σ) Draft)
      (fun draft loading => Drafting opened loading ∧
        draft.outline = file.outline handle staged.length) fun _ => True := by
  refine (alike_triple (alike_resident handle)).bind fun m => ?_
  have houtline := outline_ofPlaced handle name file m.segments staged
  generalize Draft.ofPlaced handle name file m.segments staged = draft at houtline
  have hdescribe : Within Alike (modifyModule handle (describe draft) : LoadM (Loading σ) Unit) :=
    fun _ => ⟨Loader.map_updateModule fun _ => rfl, Loader.map_updateModule fun _ => rfl, rfl, rfl⟩
  refine (alike_triple hdescribe).bind fun _ => ?_
  cases draft.claim? with
  | none => exact Triple.pure fun _ h => ⟨h, houtline⟩
  | some claim =>
    refine Triple.get_bind fun loading h => ?_
    refine Triple.bind (R := fun _ s => s = loading)
      (Triple.ofExcept (fun _ _ _ hs => hs) fun _ _ => trivial) fun dsbt => ?_
    rintro _ rfl
    exact ⟨h.alike ⟨rfl, rfl, rfl, rfl⟩, houtline⟩

variable [Client σ]

theorem placeSegment_drafting {opened : List Outline} (handle : Handle) (image : Image)
    (file : ObjectFile) (header : ProgramHeader) (count : Nat) :
    Triple (Drafting (opened ++ [file.outline handle count]))
      (placeSegment handle image file.isRelocatable header : LoadM (Loading σ) Bytes)
      (fun _ => Drafting (opened ++ [file.outline handle (count + 1)])) fun _ => True := by
  refine placeSegment_cases (alike_triple (alike_onClient _)) (fun allocation _ => ?_)
    fun allocation _ => ?_
  · exact (alike_triple (alike_onClient _)).weaken (fun _ _ _ => trivial) fun _ h => h
  · exact Triple.bind (Triple.modify fun _ h => h.addSegment _) fun _ =>
      alike_triple (alike_onClient _)

theorem placeSegments_drafting {opened : List Outline} (handle : Handle) (image : Image)
    (file : ObjectFile) :
    Triple (Drafting (opened ++ [file.outline handle 0]))
      (placeSegments handle image file : LoadM (Loading σ) (List Bytes))
      (fun staged => Drafting (opened ++ [file.outline handle staged.length])) fun _ => True := by
  have hrounds : ∀ header ∈ file.loadHeaders, ∀ count,
      Triple (Drafting (opened ++ [file.outline handle count]))
        (placeSegment handle image file.isRelocatable header : LoadM (Loading σ) Bytes)
        (fun _ => Drafting (opened ++ [file.outline handle (count + 1)])) fun _ => True :=
    fun header _ count => placeSegment_drafting handle image file header count
  have hloop := Triple.mapM_count hrounds 0
  simp only [Nat.zero_add] at hloop
  exact (resident_keeps (fun _ _ => trivial) handle).bind fun _ => hloop

variable {ledger : Ledger σ} {start : Loader σ} {held : List Handle}
  {opened : List (Handle × String)} {names : List String} {outlines : List Outline}
  {pending : List Draft} {handle : Handle}

theorem addModule_drafting (file : ObjectFile) (requested : Option String) :
    Triple (fun s => Placing ledger start 0 held opened names s ∧ Drafting outlines s)
      (addModule file requested)
      (fun added => Drafting (outlines ++ [file.outline added.1 0]))
      (Undoable ledger start) := by
  refine (alike_newHandle.keep newHandle_triple fun _ _ halike h => h.alike halike).bind ?_
  rintro handle loading ⟨⟨hplacing, hfresh, -⟩, h⟩
  exact h.addModule (m := {
    name := file.ownName?.getD (requested.getD (Loader.defaultName handle))
    handle
    policy := (LookupPolicy.ofOsAbi? file.header.osAbi).getD loading.loader.policy
    machine := file.machine
    order := file.order
    isExecutable := file.isExecutable }) hfresh.notMem
    (fun hmem => hfresh.notMem (hplacing.accounted.needed_resident hmem)) rfl

/-- Closing a module keeps the drafts in order, if no module needs it yet. -/
theorem closeModule_drafting {name : String} (hnew : handle ∉ handlesOf start.modules)
    (hnotopened : handle ∉ opened.map (·.1)) {draft : Draft} (hdraft : draft.handle = handle) :
    Triple (fun s => Placing ledger start 0 (handle :: held) (opened ++ [(handle, name)])
        ((opened ++ [(handle, name)]).map (·.2)) s ∧ Drafting (outlines ++ [draft.outline]) s)
      (modifySession fun s => { s with
        inProgress := s.inProgress.dropLast
        pending := s.pending ++ [draft] })
      (fun _ s => Found ledger start held opened pending handle s ∧ Drafting outlines s)
      (Undoable ledger start) := by
  refine Triple.modify fun s h => ⟨closeModule_triple hnew hnotopened draft s h.1, ?_⟩
  refine h.2.close rfl ?_ _
  rw [show draft.outline.handle = handle from hdraft]
  exact h.1.unneeded (handle, name) (by simp)

/-! ## Placing a graph -/

/-- What a load of a needed module does, whatever was complete before it. -/
abbrev Loads (ledger : Ledger σ) (start : Loader σ) (opened : List (Handle × String))
    (outlines : List Outline) (load : Image → LoadM (Loading σ) Handle) : Prop :=
  ∀ held pending image,
    Triple (fun s => Ready ledger start held opened pending s ∧ Drafting outlines s) (load image)
      (fun handle s => Found ledger start held opened pending handle s ∧ Drafting outlines s)
      (Undoable ledger start)

theorem loadDependency_triple (hstart : start.Sound ledger)
    {load : Image → LoadM (Loading σ) Handle} (hload : Loads ledger start opened outlines load)
    (name : String) :
    Triple (fun s => Ready ledger start held opened pending s ∧ Drafting outlines s)
      (loadDependency load name)
      (fun handle s => Found ledger start held opened pending handle s ∧ Drafting outlines s)
      (Undoable ledger start) := by
  refine Triple.get_bind fun loading h => ?_
  refine Triple.throw_if (fun _ _ heq => heq ▸ h.1.undoable) fun hname => ?_
  have hfree : name ∉ opened.map (·.2) := by
    rw [← h.1.inProgress]
    simpa using hname
  refine (((alike_reuse name).keep (reuse_triple hstart hfree) fun _ _ halike h =>
    h.alike halike).strengthen fun s (hs : s = loading) => hs ▸ h).bind fun found => ?_
  cases found with
  | some handle => exact Triple.pure fun _ hfound => hfound
  | none =>
    have hopen : Triple (fun s => Ready ledger start held opened pending s ∧ Drafting outlines s)
        (onClient (liftM (Client.openDependent name : StateM σ (Option Image))))
        (fun _ s => Ready ledger start held opened pending s ∧ Drafting outlines s)
        (Undoable ledger start) := fun loading h =>
      ⟨⟨h.1.quiet (ledger.quiet_openDependent name loading.loader.client), h.1.pending_eq⟩,
        h.2.alike ⟨rfl, rfl, rfl, rfl⟩⟩
    refine hopen.bind fun image => ?_
    cases image with
    | none => exact Triple.throw fun _ h => h.1.undoable
    | some image => exact hload held pending image

/-- The dependencies of an incomplete module are loaded one after the other. -/
theorem loadDependencies_triple (hstart : start.Sound ledger) {o : Outline}
    (houtlines : (outlines ++ [o]).map (·.handle) = opened.map (·.1))
    {load : String → Image → LoadM (Loading σ) Handle}
    (hload : ∀ name, Loads ledger start opened (outlines ++ [o]) (load name))
    (hnew : o.handle ∉ handlesOf start.modules) (hheld : o.handle ∈ held) (needed : List String) :
    Triple (fun s => Placing ledger start 0 held opened (opened.map (·.2)) s ∧
        Drafting (outlines ++ [o]) s)
      (needed.forM fun name => do
        let found ← loadDependency (load name) name
        addDependency o.handle found)
      (fun _ s => Placing ledger start 0 held opened (opened.map (·.2)) s ∧
        Drafting (outlines ++ [o]) s)
      (Undoable ledger start) := by
  have hopened : o.handle ∈ opened.map (·.1) := by
    rw [← houtlines]
    simp
  refine Triple.forM fun name _ loading h => ?_
  refine ((loadDependency_triple hstart (hload name) name).bind fun found => ?_) loading
    ⟨⟨h.1, rfl⟩, h.2⟩
  refine addDependency_triple (fun s hfound => hfound.1.undoable) fun s hfound => ⟨?_, ?_⟩
  · exact hfound.1.addDependency hnew
      (hfound.1.accounted.resident (List.mem_cons_of_mem found hheld)) hopened hfound.1.complete
  · exact hfound.2.addDependency fun hcreated =>
      hfound.2.mem_drafted (houtlines ▸ hfound.1.complete) hcreated

theorem loadModule_triple (hstart : start.Sound ledger) (depth : Nat) (requested : Option String)
    (houtlines : outlines.map (·.handle) = opened.map (·.1)) :
    Loads ledger start opened outlines (loadModule depth · requested) := by
  induction depth generalizing opened outlines requested with
  | zero => exact fun _ _ _ => Triple.throw fun _ h => h.1.undoable
  | succ depth ih =>
    intro held pending image
    refine Triple.bind
      (R := fun _ s => Ready ledger start held opened pending s ∧ Drafting outlines s)
      (Triple.ofExcept (fun _ _ _ h => h) fun _ h => h.1.undoable) fun file => ?_
    refine Triple.get_bind fun loading h => ?_
    refine Triple.bind (R := fun _ => (· = loading))
      (Triple.ofExcept (fun _ _ _ heq => heq) fun _ heq => heq ▸ h.1.undoable) fun _ => ?_
    refine (((noteMachine_triple file.machine).and (alike_triple (alike_modifySession fun _ =>
      ⟨rfl, rfl⟩))).strengthen fun s (hs : s = loading) => hs ▸ h).bind fun _ => ?_
    refine ((alike_reuseOwn file).keep (reuseOwn_triple hstart file) fun _ _ halike h =>
      h.alike halike).bind fun found => ?_
    cases found with
    | some handle => exact Triple.pure fun _ hfound => hfound
    | none =>
      refine (((addModule_triple hstart file requested).and
        (addModule_drafting file requested)).strengthen fun s hs =>
          ⟨hs.1.toPlacing, hs.1.toPlacing, hs.2⟩).bind ?_
      rintro ⟨handle, name⟩ s ⟨⟨hplacing, hnew, hnotopened⟩, hdrafting⟩
      have hheld : handle ∈ handle :: held := List.mem_cons_self
      -- What is known of the handle is no longer a matter of the state.
      refine (?_ : Triple (fun s => Placing ledger start 0 (handle :: held)
        (opened ++ [(handle, name)]) (opened.map (·.2)) s ∧
          Drafting (outlines ++ [file.outline handle 0]) s) _ _ _) s ⟨hplacing, hdrafting⟩
      refine ((placeSegments_triple hnew hheld image file).and
        (placeSegments_drafting handle image file)).bind fun staged => ?_
      refine ((draftModule_triple hnew hheld name file staged).and
        (draftModule_drafting handle name file staged)).bind fun draft => ?_
      rintro s ⟨hplacing, hdrafting, hdraft⟩
      have hhandle : draft.handle = handle := congrArg (·.handle) hdraft
      have hopened : (outlines ++ [draft.outline]).map (·.handle) =
          (opened ++ [(handle, name)]).map (·.1) := by
        simp [houtlines, hdraft, ObjectFile.outline]
      rw [← hdraft] at hdrafting
      refine (?_ : Triple (fun s => Placing ledger start 0 (handle :: held)
        (opened ++ [(handle, name)]) (opened.map (·.2)) s ∧ Drafting (outlines ++ [draft.outline]) s)
        _ _ _) s ⟨hplacing, hdrafting⟩
      refine Triple.bind (R := fun _ s => Placing ledger start 0 (handle :: held)
          (opened ++ [(handle, name)]) ((opened ++ [(handle, name)]).map (·.2)) s ∧
            Drafting (outlines ++ [draft.outline]) s)
        (Triple.modify fun s h => ?_) fun _ => ?_
      · exact ⟨h.1.session rfl rfl (by simp [h.1.inProgress]), h.2.alike ⟨rfl, rfl, rfl, rfl⟩⟩
      obtain rfl : draft.outline.handle = handle := hhandle
      refine (loadDependencies_triple hstart hopened (fun name => ih (some name) hopened) hnew hheld
        file.needed).bind fun _ => ?_
      exact (closeModule_drafting hnew hnotopened rfl).bind fun _ => Triple.pure fun _ h => h

end Loading

end TargetLink
