import TargetLink.Proofs.Denotation
import TargetLink.Proofs.Names

/-!
# Loading what is resident

A load of a file whose module is resident under the file's own name gives the module one more reference
under a new handle.  The client is asked for nothing but to write tables of static bases
(`Loader.load_shared`).  Any number of such loads add up (`Loader.shared_of_answers`), and the module
stays, with its memory and its terminators, until the last of all references is dropped
(`Loader.run_shared`).
-/

namespace TargetLink

open TargetLink.Module (handlesOf needsOf allocationsOf)
open LoadM (Triple Within)

/-- The file has a name of its own, and it is this one. -/
def ObjectFile.Bears (image : Image) (name : String) : Prop :=
  ∃ file, ObjectFile.read image = .ok file ∧ file.ownName? = some name

/-- In a list with distinct names a name names one module. -/
theorem Module.find?_name {modules : List Module} (hdistinct : (modules.map (·.name)).Nodup)
    {m : Module} (hm : m ∈ modules) : modules.find? (·.name == m.name) = some m := by
  cases hfind : modules.find? (·.name == m.name) with
  | none => simpa using List.find?_eq_none.mp hfind m hm
  | some n =>
    have hname : n.name = m.name := by simpa using List.find?_some hfind
    rw [List.inj_on_of_nodup_map hdistinct (List.mem_of_find?_eq_some hfind) hm hname]

/-- A module with some more references. -/
def Module.used (count : Nat) (m : Module) : Module := { m with useCount := m.useCount + count }

@[simp] theorem Module.label_used (count : Nat) (m : Module) : (m.used count).label = m.label := rfl

@[simp] theorem Module.used_zero (m : Module) : m.used 0 = m := rfl

@[simp] theorem Module.used_used (count count' : Nat) (m : Module) :
    (m.used count).used count' = m.used (count + count') := by
  rw [used, used, used, Nat.add_assoc]

namespace Loading

variable {σ : Type} [Client σ]

/-! ## A load that finds its root resident -/

/-- A load that only used a module once more. -/
def sharing (loader : Loader σ) (m : Module) (machine : Machine) : Loading σ where
  loader := loader.update m.handle (Module.used 1)
  session := { machine := some machine, reused := [m.handle] }

variable {loader : Loader σ} {image : Image} {file : ObjectFile} {m : Module}

theorem enter_shared (hread : ObjectFile.read image = .ok file) (hown : file.ownName? = some m.name)
    (hfind : loader.modules.find? (·.name == m.name) = some m) (requested : Option String) :
    Triple (· = { loader }) (enter image requested)
      (fun entered after => entered = .inl m.handle ∧ after = sharing loader m file.machine)
      fun _ => True := by
  refine Triple.bind (R := fun found s => found = file ∧ s = { loader })
    (Triple.ofExcept (fun found _ hfound hs => ⟨?_, hs⟩) fun _ _ => trivial) fun found => ?_
  · exact Except.ok.inj (hfound.symm.trans hread)
  refine Triple.get_bind fun begun hbegun => ?_
  obtain ⟨rfl, rfl⟩ := hbegun
  refine Triple.bind (R := fun _ s => s = { loader })
    (Triple.ofExcept (fun _ _ _ hs => hs) fun _ _ => trivial) fun _ => ?_
  refine Triple.bind (R := fun _ s => s = { loader, session := { machine := some found.machine } })
    (Triple.modify fun s hs => hs ▸ rfl) fun _ => ?_
  refine Triple.bind (R := fun entered s => entered = some m.handle ∧
    s = sharing loader m found.machine) ?_ fun entered => ?_
  · rintro s rfl
    have hrun : reuseOwn found { loader, session := { machine := some found.machine } } =
        (.ok (some m.handle), sharing loader m found.machine) := by
      simp only [reuseOwn, hown]
      change reuse m.name _ = _
      simp only [reuse_apply, hfind]
      rfl
    rw [hrun]
    exact ⟨rfl, rfl⟩
  · rintro s ⟨rfl, hs⟩
    exact ⟨rfl, hs⟩

/-- The root is not new, so the load takes a handle for it. -/
theorem place_shared (hread : ObjectFile.read image = .ok file) (hown : file.ownName? = some m.name)
    (hfind : loader.modules.find? (·.name == m.name) = some m) :
    Triple (· = { loader }) (place image)
      (fun placed after => placed = (m.handle, loader.nextHandle) ∧
        after = sharing { loader with nextHandle := loader.nextHandle + 1 } m file.machine)
      fun _ => True := by
  obtain ⟨depth, hdepth⟩ : ∃ depth, UInt32.size - loader.nextHandle.toNat = depth + 1 :=
    Nat.exists_eq_add_one.mpr (Nat.sub_pos_of_lt (UInt32.toNat_lt_size _))
  refine Triple.get_bind fun begun hbegun => ?_
  obtain rfl : begun = { loader } := hbegun
  rw [hdepth, loadModule_succ]
  refine Triple.bind (R := fun root s => root = m.handle ∧ s = sharing loader m file.machine) ?_
    fun root => ?_
  · refine (enter_shared hread hown hfind none).bind fun entered => ?_
    rintro s ⟨rfl, hs⟩
    exact ⟨rfl, hs⟩
  · refine Triple.get_bind fun s ⟨hroot, hs⟩ => ?_
    have hnew : s.session.created.contains root = false := by
      rw [hs]
      rfl
    rw [hnew, if_neg Bool.false_ne_true]
    refine Triple.bind (R := fun handle s => handle = loader.nextHandle ∧
      s = sharing { loader with nextHandle := loader.nextHandle + 1 } m file.machine) ?_ fun handle => ?_
    · rintro t rfl
      subst hs
      rw [newHandle_apply]
      by_cases hlast : (sharing loader m file.machine).loader.nextHandle = Loader.lastHandle
      · rw [if_pos hlast]
        trivial
      · rw [if_neg hlast]
        exact ⟨rfl, rfl⟩
    · rintro s ⟨rfl, hs⟩
      exact ⟨by rw [hroot], hs⟩

/-- Modules and handles are as they were, and a load that placed nothing has nothing to complete. -/
structure Idle (before after : Loading (Recorded σ)) : Prop where
  calls : Makes Event.isWrite before after
  modules : after.loader.modules = before.loader.modules
  handles : after.loader.handles = before.loader.handles
  pending : before.session.pending = [] → after.session.pending = []

omit [Client σ] in
instance : IsPreorder (Loading (Recorded σ)) Idle where
  refl loading := ⟨Std.Refl.refl loading, rfl, rfl, id⟩
  trans before middle after hfirst hsecond :=
    ⟨IsTrans.trans before middle after hfirst.calls hsecond.calls,
      hsecond.modules.trans hfirst.modules, hsecond.handles.trans hfirst.handles,
      hsecond.pending ∘ hfirst.pending⟩

theorem idle_of_stirs {step : LoadM (Loading (Recorded σ)) Unit}
    (hstirs : Within (Stirs Ledger.blank) step) (hcalls : Within (Makes Event.isWrite) step) :
    Within Idle step := by
  intro loading
  obtain ⟨client, pending, -, hnone, heq⟩ := hstirs loading
  refine ⟨hcalls loading, ?_, ?_, ?_⟩ <;> rw [heq]
  exact hnone

theorem idle_prepare (root : Handle) :
    Within Idle (prepare root : LoadM (Loading (Recorded σ)) Unit) := by
  refine Within.bind (fun loading => ⟨Makes.of_log_eq rfl, rfl, rfl, ?_⟩) fun _ => ?_
  · exact fun hnone => List.map_eq_nil_iff.mpr hnone
  refine Within.bind (idle_of_stirs stirs_writeTables makes_writeTables) fun _ => ?_
  refine Within.bind (idle_of_stirs stirs_stageDynamics makes_stageDynamics) fun _ => ?_
  exact fun _ => ⟨Makes.of_log_eq rfl, rfl, rfl, id⟩

theorem ready_shared {loader : Loader (Recorded σ)} (hread : ObjectFile.read image = .ok file)
    (hown : file.ownName? = some m.name)
    (hfind : loader.modules.find? (·.name == m.name) = some m) :
    Triple (· = { loader }) (ready image)
      (fun placed after => placed.1 = m.handle ∧
        Idle (sharing { loader with nextHandle := loader.nextHandle + 1 } m file.machine) after)
      fun _ => True := by
  refine (place_shared hread hown hfind).bind fun placed => ?_
  refine Triple.bind (R := fun _ after => placed.1 = m.handle ∧
    Idle (sharing { loader with nextHandle := loader.nextHandle + 1 } m file.machine) after) ?_
    fun _ => Triple.pure fun _ h => h
  refine ((idle_prepare placed.1).triple (P := fun after => placed.1 = m.handle ∧ Idle
    (sharing { loader with nextHandle := loader.nextHandle + 1 } m file.machine) after) ?_
    fun _ _ => trivial).strengthen ?_
  · exact fun before after h hidle => ⟨h.1, IsTrans.trans _ before after h.2 hidle⟩
  · rintro _ ⟨rfl, rfl⟩
    exact ⟨rfl, Std.Refl.refl _⟩

end Loading

namespace Loader

variable {σ : Type} [Client σ] {loader before middle after : Loader (Recorded σ)} {target : Handle}
  {handles : List Handle} {m : Module}

/-- Loads that found their roots resident: each gave one module one more reference, under a handle that
was not taken before, and nothing was done to the target but that tables were written. -/
structure Shared (target : Handle) (handles : List Handle) (before after : Loader (Recorded σ)) :
    Prop where
  calls : Makes Event.isWrite before after
  modules : after.modules = updateModule target (Module.used handles.length) before.modules
  entries : after.handles = (handles.map (·, target)).reverse ++ before.handles
  nextHandle : before.nextHandle ≤ after.nextHandle
  fresh : ∀ handle ∈ handles, before.nextHandle ≤ handle ∧ handle < after.nextHandle
  distinct : handles.Nodup

namespace Shared

omit [Client σ] in
protected theorem refl (loader : Loader (Recorded σ)) (target : Handle) :
    Shared target [] loader loader where
  calls := Std.Refl.refl loader
  modules := (updateModule_id Module.used_zero).symm
  entries := rfl
  nextHandle := UInt32.le_refl _
  fresh := by simp
  distinct := List.nodup_nil

omit [Client σ] in
protected theorem trans {first rest : List Handle} (hfirst : Shared target first before middle)
    (hrest : Shared target rest middle after) :
    Shared target (first ++ rest) before after where
  calls := IsTrans.trans before middle after hfirst.calls hrest.calls
  modules := by
    have hkept (m : Module) : (m.used first.length).handle = m.handle := rfl
    rw [hrest.modules, hfirst.modules, updateModule_updateModule hkept, List.length_append]
    exact congrArg (updateModule target · before.modules) (funext (Module.used_used _ _))
  entries := by
    rw [hrest.entries, hfirst.entries, List.map_append, List.reverse_append, List.append_assoc]
  nextHandle := UInt32.le_trans hfirst.nextHandle hrest.nextHandle
  fresh handle hhandle := by
    rcases List.mem_append.mp hhandle with hold | hnew
    · exact (hfirst.fresh handle hold).imp_right (UInt32.lt_of_lt_of_le · hrest.nextHandle)
    · exact (hrest.fresh handle hnew).imp_left (UInt32.le_trans hfirst.nextHandle)
  distinct := by
    refine List.nodup_append.mpr ⟨hfirst.distinct, hrest.distinct, ?_⟩
    rintro handle hold _ hnew rfl
    exact UInt32.not_le.mpr (hfirst.fresh handle hold).2 (hrest.fresh handle hnew).1

end Shared

open Loading in
theorem load_used (hdistinct : (loader.modules.map (·.name)).Nodup) (hm : m ∈ loader.modules)
    {image : Image} (hbears : ObjectFile.Bears image m.name) {arguments : List String}
    {handle : Handle} (hload : (loader.load image arguments).1 = .ok handle) :
    Makes Event.isWrite loader (loader.load image arguments).2 ∧
      (loader.load image arguments).2.modules =
        updateModule m.handle (Module.used 1) loader.modules ∧
      (loader.load image arguments).2.handles = (handle, m.handle) :: loader.handles := by
  obtain ⟨file, hread, hown⟩ := hbears
  have hready := ready_shared hread hown (Module.find?_name hdistinct hm) { loader } rfl
  rw [load_apply] at hload ⊢
  rcases hrun : ready image { loader } with ⟨e | ⟨root, new⟩, begun⟩ <;> rw [hrun] at hready hload
  · cases hload
  obtain ⟨rfl, hidle⟩ := hready
  have hcomplete : complete m.handle arguments begun.session.pending begun = (.ok (), begun) := by
    rw [hidle.pending rfl]
    rfl
  dsimp only at hload ⊢
  rw [hcomplete] at hload ⊢
  obtain rfl : new = handle := Except.ok.inj hload
  exact ⟨hidle.calls, hidle.modules, congrArg _ hidle.handles⟩

/-- A load of a file whose module is resident only uses it once more. -/
theorem load_shared {ledger : Ledger (Recorded σ)} (hsound : loader.Sound ledger)
    (hdistinct : (loader.modules.map (·.name)).Nodup) (hm : m ∈ loader.modules) {image : Image}
    (hbears : ObjectFile.Bears image m.name) {arguments : List String} {handle : Handle}
    (hload : (loader.load image arguments).1 = .ok handle) :
    Shared m.handle [handle] loader (loader.load image arguments).2 := by
  obtain ⟨hcalls, hmodules, hentries⟩ := load_used hdistinct hm hbears hload
  have hanswer : loader.answer? (.load image arguments) = some handle :=
    congrArg Except.toOption hload
  have hfresh : loader.nextHandle ≤ handle ∧ handle < (loader.load image arguments).2.nextHandle :=
    answer_fresh hsound hanswer
  exact {
    calls := hcalls
    modules := hmodules
    entries := hentries
    nextHandle := (persists_serve hsound (.load image arguments)).nextHandle
    fresh := by simpa using hfresh
    distinct := List.nodup_singleton handle }

/-- The handles that a run answers with. -/
def answers {σ : Type} [Client σ] (loader : Loader σ) : List (Request σ) → List (Option Handle)
  | [] => []
  | request :: requests => loader.answer? request :: (loader.serve request).answers requests

/-- The requests to load some files with their arguments. -/
def loadAll {σ : Type} (loads : List (Image × List String)) : List (Request σ) :=
  loads.map fun load => .load load.1 load.2

theorem fair_loadAll {σ : Type} [Client σ] {ledger : Ledger σ} (loads : List (Image × List String)) :
    ∀ request ∈ loadAll loads, Fair ledger request := by
  intro request hrequest
  obtain ⟨load, -, rfl⟩ := List.mem_map.mp hrequest
  trivial

/-- Any number of loads that find the same module resident add up. -/
theorem shared_of_answers {ledger : Ledger (Recorded σ)} (hsound : loader.Sound ledger)
    (hdistinct : (loader.modules.map (·.name)).Nodup) (hm : m ∈ loader.modules)
    {loads : List (Image × List String)} (hbears : ∀ load ∈ loads, ObjectFile.Bears load.1 m.name)
    (hanswers : loader.answers (loadAll loads) = handles.map some) :
    Shared m.handle handles loader (loader.run (loadAll loads)) := by
  induction loads generalizing loader m handles with
  | nil =>
    obtain rfl : handles = [] := List.map_eq_nil_iff.mp hanswers.symm
    exact Shared.refl loader m.handle
  | cons load loads ih =>
    obtain ⟨hfirst, hrest⟩ := List.forall_mem_cons.mp hbears
    obtain ⟨handle, handles, rfl, hanswer, hothers⟩ := List.map_eq_cons_iff.mp hanswers.symm
    have hshared := load_shared hsound hdistinct hm hfirst (Except.eq_ok_of_toOption hanswer.symm)
    have hlabels : (loader.load load.1 load.2).2.modules.map Module.label =
        loader.modules.map Module.label := by
      rw [hshared.modules, map_updateModule (Module.label_used _)]
    obtain ⟨n, hn, hlabel⟩ : ∃ n ∈ (loader.load load.1 load.2).2.modules, n.label = m.label :=
      List.mem_map.mp (hlabels ▸ List.mem_map_of_mem hm)
    obtain ⟨hhandle, hname⟩ := Prod.mk.inj hlabel
    have hnames := congrArg (List.map Prod.snd) hlabels
    simp only [List.map_map] at hnames
    refine hshared.trans (hhandle ▸ ih (load_sound hsound load.1 load.2) ?_ hn ?_ hothers.symm)
    · exact hnames ▸ hdistinct
    · exact hname ▸ hrest

/-! ## Until the last reference is dropped -/

section Dropping

variable {σ : Type} {loader : Loader σ} {handle : Handle}

/-- A handle leads to the module, or a resident module needs it. -/
def Referenced (loader : Loader σ) (handle : Handle) : Prop :=
  (∃ entry ∈ loader.handles, entry.2 = handle) ∨ ∃ m ∈ loader.modules, handle ∈ m.dependencies

theorem referenced_iff : loader.Referenced handle ↔ handle ∈ loader.references := by
  simp [Referenced, references, Module.needsOf]

/-- The resident modules are those that something refers to. -/
theorem Accounted.resident_iff (h : loader.Accounted []) :
    handle ∈ handlesOf loader.modules ↔ loader.Referenced handle := by
  rw [referenced_iff]
  refine ⟨fun hmem => ?_, h.balanced.resident handle⟩
  obtain ⟨m, hm, rfl⟩ := Module.exists_of_mem_handlesOf hmem
  exact referenced_iff.mp (h.exists_user hm)

/-- A loader that forgot a handle. -/
def withoutHandle (loader : Loader σ) (handle : Handle) : Loader σ :=
  { loader with handles := loader.handles.filter (·.1 != handle) }

theorem lookup_of_mem {entries : List (Handle × Handle)} (hkeys : (entries.map (·.1)).Nodup)
    {entry : Handle × Handle} (hentry : entry ∈ entries) : entries.lookup entry.1 = some entry.2 := by
  cases hlookup : entries.lookup entry.1 with
  | none =>
    have habsent := List.lookup_eq_none_iff.mp hlookup entry hentry
    simp at habsent
  | some root =>
    have hfound : (entry.1, root) ∈ entries :=
      (perm_of_lookup hkeys hlookup).mem_iff.mpr List.mem_cons_self
    exact congrArg (some ·.2) (List.inj_on_of_nodup_map hkeys hfound hentry rfl)

variable [Client σ] {ledger : Ledger σ}

/-- Giving a reference up that is not the last one of its module only counts it off. -/
theorem unload_referenced (hsound : loader.Sound ledger) {entry : Handle × Handle}
    (hentry : entry ∈ loader.handles)
    (hothers : (loader.withoutHandle entry.1).Referenced entry.2) :
    loader.unload entry.1 = (.ok false, (loader.withoutHandle entry.1).update entry.2
      fun m => { m with useCount := m.useCount - 1 }) := by
  have hlookup := lookup_of_mem hsound.accounted.keys hentry
  have hheld := hsound.accounted.takeHandle hlookup
  obtain ⟨m, hm, hhandle⟩ :=
    Module.exists_of_mem_handlesOf (hsound.accounted.target_resident hentry)
  have huse : 1 < m.useCount := by
    rw [hheld.balanced.counted m hm, hhandle, List.singleton_append, List.count_cons_self]
    exact Nat.succ_lt_succ (List.count_pos_iff.mpr (referenced_iff.mp hothers))
  obtain ⟨depth, hdepth⟩ := Nat.exists_eq_add_one.mpr (List.length_pos_of_mem hm)
  simp only [unload, unloadStep, LoadM.bind_apply, LoadM.get_apply, hlookup, LoadM.set_apply]
  rw [hdepth]
  exact release_shared (hhandle ▸ Module.find?_of_mem hsound.accounted.distinct hm) huse

theorem entry_serve (hsound : loader.Sound ledger) {entry : Handle × Handle}
    (hentry : entry ∈ loader.handles) {request : Request σ} (hkept : request ≠ .unload entry.1) :
    entry ∈ (loader.serve request).handles := by
  have houtcome := serve_outcome hsound request
  generalize loader.serve request = after at *
  cases houtcome with
  | loaded _ hgrown =>
    obtain ⟨root, hhandles, -⟩ := hgrown.handles
    exact hhandles ▸ List.mem_cons_of_mem _ hentry
  | failed hrestored => exact hrestored.handles ▸ hentry
  | registered h =>
    obtain ⟨-, -, m, -, -, rfl⟩ := h
    exact List.mem_cons_of_mem _ hentry
  | @unloaded handle _ _ _ hleaves =>
    refine hleaves.handles ▸ List.mem_filter.mpr ⟨hentry, ?_⟩
    simpa using fun heq : entry.1 = handle => hkept (heq ▸ rfl)
  | refused => exact hentry
  | changed => exact hentry

/-- A handle leads where it led until it is given up. -/
theorem entry_run (hsound : loader.Sound ledger) {entry : Handle × Handle}
    (hentry : entry ∈ loader.handles) {requests : List (Request σ)}
    (hfair : ∀ request ∈ requests, Fair ledger request) (hkept : .unload entry.1 ∉ requests) :
    entry ∈ (loader.run requests).handles :=
  run_keeps (P := fun loader => entry ∈ loader.handles) hsound hfair (fun _ hmem _ hsound hentry =>
    entry_serve hsound hentry fun heq => hkept (heq ▸ hmem)) hentry

end Dropping

/-- The module is resident with its segments and its terminators, and the client has all its memory
out. -/
def Lives (m : Module) (loader : Loader (Recorded σ)) : Prop :=
  (∃ n ∈ loader.modules, n.uncounted = m.uncounted) ∧
    ∃ live, loader.client.live? = some live ∧ allocationsOf [m] ≤ live

/-- What a run leaves of a module: it lives as long as something refers to it, a handle refers to it
until it is given up, and giving up one that is not the last does nothing to the target. -/
structure Outlasts (m : Module) (before : Loader (Recorded σ)) (requests : List (Request (Recorded σ)))
    (after : Loader (Recorded σ)) : Prop where
  referred : ∀ entry ∈ before.handles, .unload entry.1 ∉ requests → entry ∈ after.handles
  resident : m.handle ∈ handlesOf after.modules ↔ after.Referenced m.handle
  lives : m.handle ∈ handlesOf after.modules → after.Lives m
  quiet : ∀ entry ∈ after.handles, entry.2 = m.handle →
    (after.withoutHandle entry.1).Referenced m.handle →
      (after.unload entry.1).1 = .ok false ∧ (after.unload entry.1).2.client = after.client

theorem lives_of_resident {held : List Handle} (hbefore : before.Accounted held)
    (hpersists : Persists before after) (hafter : after.Sound Recorded.ledger)
    (hm : m ∈ before.modules) (hresident : m.handle ∈ handlesOf after.modules) : after.Lives m := by
  obtain ⟨n, hn, hhandle⟩ := Module.exists_of_mem_handlesOf hresident
  have hsame := hpersists.uncounted_eq hbefore hm hn hhandle.symm
  refine ⟨⟨n, hn, hsame.symm⟩, _, hafter.holds, ?_⟩
  have hsegments : m.segments = n.segments := congrArg (·.segments) hsame
  rw [Module.allocationsOf_eraseP (Module.find?_of_mem hafter.accounted.distinct hn),
    Module.allocationsOf_cons, ← hsegments]
  exact Multiset.add_le_add_iff_left.mpr (Multiset.zero_le _)

theorem outlasts_run (hbefore : before.Sound Recorded.ledger) (hm : m ∈ before.modules)
    (hpersists : Persists before loader) (hsound : loader.Sound Recorded.ledger)
    (later : List (Request σ)) :
    Outlasts m loader (later.map .recorded) (loader.run (later.map .recorded)) := by
  have hfair : ∀ request ∈ later.map .recorded, Fair Recorded.ledger request :=
    fair_recorded (fun _ h => h) later
  have hlast := run_sound hsound hfair
  exact {
    referred := fun entry hentry hkept => entry_run hsound hentry hfair hkept
    resident := hlast.accounted.resident_iff
    lives := lives_of_resident hbefore.accounted
      (IsTrans.trans before loader _ hpersists (persists_run hsound hfair)) hlast hm
    quiet := by
      rintro entry hentry htarget hothers
      rw [unload_referenced hlast hentry (htarget ▸ hothers)]
      exact ⟨rfl, rfl⟩ }

/-- After any run of loads of plain files and of unloads all resident modules have different names.  A
load of a file whose own name is that of a resident module then uses that module once more, however
often this is done, and the module lives until its last reference is gone. -/
theorem run_shared (client : σ) (policy : LookupPolicy) (requests : List (Request σ))
    (hrequests : ∀ request ∈ requests, request.Plain)
    (hopened : (onRecord client policy requests).client.Plain) :
    let loader := onRecord client policy requests
    (loader.modules.map (·.name)).Nodup ∧
    ∀ m ∈ loader.modules, ∀ loads : List (Image × List String),
      (∀ load ∈ loads, ObjectFile.Bears load.1 m.name) →
      ∀ handles : List Handle, loader.answers (loadAll loads) = handles.map some →
        let shared := loader.run (loadAll loads)
        Shared m.handle handles loader shared ∧
        (∀ handle ∈ handles, handle ∉ (fresh { client } policy).seen (requests.map .recorded)) ∧
        ∀ later : List (Request σ), Outlasts m shared (later.map .recorded)
          (shared.run (later.map .recorded)) := by
  intro loader
  have hblank : (fresh ({ client } : Recorded σ) policy).Sound Ledger.blank :=
    fresh_sound policy trivial
  have hsound : loader.Sound Recorded.ledger := onRecord_sound client policy requests
  have hnamed : loader.Named := by
    refine named_run hblank ⟨List.nodup_nil, ?_⟩ hrequests hopened
    simp [fresh]
  refine ⟨hnamed.distinct, fun m hm loads hbears handles hanswers => ?_⟩
  have hshared := shared_of_answers hsound hnamed.distinct hm hbears hanswers
  refine ⟨hshared, fun handle hhandle hseen => ?_, fun later => ?_⟩
  · have hbelow := seen_below hblank (fun request _ => fair_blank request) handle hseen
    exact UInt32.not_le.mpr hbelow (hshared.fresh handle hhandle).1
  · exact outlasts_run hsound hm (persists_run hsound (fair_loadAll loads))
      (run_sound hsound (fair_loadAll loads)) later

/-- Two loads of a provider that was opened for its user; it lives after the user and one of the two
handles are gone. -/
theorem run_shared_of_provider :
    let loader := onRecord providing .direct [.load boundNeeding.image []]
    let shared := loader.run (loadAll [(boundProvider.image, []), (boundProvider.image, [])])
    let last := shared.run [.unload 1, .unload 3]
    ∃ m ∈ loader.modules, m.handle = 2 ∧ Shared 2 [3, 4] loader shared ∧
      (4, 2) ∈ last.handles ∧ last.Lives m := by
  have hnames : ∀ image ∈ [boundNeeding.image, boundProvider.image], ∀ name ∈ ObjectFile.names image,
      name.toList.head? ≠ some '<' := by
    decide +kernel
  have hplain : ∀ image ∈ [boundNeeding.image, boundProvider.image], ObjectFile.Plain image :=
    fun image himage => ObjectFile.plain_of_head? (hnames image himage)
  have hrun : let loader := onRecord providing .direct [.load boundNeeding.image []]
      let loads := [(boundProvider.image, []), (boundProvider.image, [])]
      let last := (loader.run (loadAll loads)).run ([.unload 1, .unload 3].map Request.recorded)
      loader.client.events.filterMap (fun event => match event with
        | .openDependent _ answer => answer
        | _ => none) = [boundProvider.image] ∧
      loader.modules.map Module.label = [(1, "b"), (2, "a")] ∧
      loader.answers (loadAll loads) = [3, 4].map some ∧
      ((4, 2) ∈ last.handles ∧ 2 ∈ handlesOf last.modules) := by
    decide +kernel
  have hbears : ObjectFile.Bears boundProvider.image "a" := by
    have hown : ((ObjectFile.read boundProvider.image).toOption.bind (·.ownName?)) = some "a" := by
      decide +kernel
    obtain ⟨file, hfile, hname⟩ := Option.bind_eq_some_iff.mp hown
    exact ⟨file, Except.eq_ok_of_toOption hfile, hname⟩
  have hrequests : ∀ request ∈ [Request.load (σ := SimulatedTarget) boundNeeding.image []],
      request.Plain := by
    simpa [Request.Plain] using hplain _ List.mem_cons_self
  have hshared := run_shared providing .direct [.load boundNeeding.image []] hrequests
  dsimp only at hrun hshared ⊢
  generalize onRecord providing .direct [.load boundNeeding.image []] = loader at *
  obtain ⟨hopened, hlabels, hanswers, hentry, hresident⟩ := hrun
  obtain ⟨-, hshared⟩ := hshared fun name image hmem => by
    have himage : image ∈ [boundProvider.image] := by
      rw [← hopened]
      exact List.mem_filterMap.mpr ⟨_, hmem, rfl⟩
    exact hplain image (List.mem_cons_of_mem _ himage)
  obtain ⟨m, hm, hlabel⟩ : ∃ m ∈ loader.modules, m.label = (2, "a") :=
    List.mem_map.mp (by simp [hlabels])
  obtain ⟨hhandle, hname⟩ := Prod.mk.inj hlabel
  obtain ⟨hfirst, -, hlast⟩ := hshared m hm [(boundProvider.image, []), (boundProvider.image, [])]
    (by simpa [hname] using hbears) [3, 4] hanswers
  refine ⟨m, hm, hhandle, hhandle ▸ hfirst, hentry, ?_⟩
  exact (hlast [.unload 1, .unload 3]).lives (hhandle ▸ hresident)

end Loader

end TargetLink
