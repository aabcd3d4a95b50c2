import TargetLink.Proofs.Drafting
import TargetLink.Proofs.Phases

/-!
# Completing a load

Between binding the waiting claims and handing out a handle, a load moves only the state of the
client and the drafts (`Loading.Stirs`): no resident module changes any more.  The start of searches
is set while something can still fail, but only a load with a new root can fail then, so the load
stays `Loading.Undoable`.

What a load that succeeds did to its loader is `Loader.Grown`.
-/

namespace TargetLink

open TargetLink.Module (handlesOf needsOf allocationsOf)
open LoadM (Triple Within)

namespace Loading

variable {σ : Type} [Client σ] {ledger : Ledger σ} {start : Loader σ} {root handle : Handle}
  {app : Option Handle}

/-! ## Steps that move the client and the drafts only -/

/-- The client moved quietly, and drafts changed without any where there was none. -/
def Stirs (ledger : Ledger σ) (before after : Loading σ) : Prop :=
  ∃ client pending, ledger.Quiet before.loader.client client ∧
    (before.session.pending = [] → pending = []) ∧
    after = { loader := { before.loader with client }, session := { before.session with pending } }

instance : IsPreorder (Loading σ) (Stirs ledger) where
  refl loading := ⟨_, _, Std.Refl.refl loading.loader.client, id, rfl⟩
  trans := by
    rintro first _ _ ⟨_, _, hclient, hpending, rfl⟩ ⟨_, _, hclient', hpending', rfl⟩
    exact ⟨_, _, IsTrans.trans _ _ _ hclient hclient', hpending' ∘ hpending, rfl⟩

theorem stirs_onClient {α : Type} {step : LoadM σ α} (hstep : Within ledger.Quiet step) :
    Within (Stirs ledger) (onClient step) :=
  fun loading => ⟨_, _, hstep loading.loader.client, id, rfl⟩

theorem stirs_pending {pending : List Draft} {loading : Loading σ}
    (h : loading.session.pending = [] → pending = []) :
    Stirs ledger loading { loading with session := { loading.session with pending } } :=
  ⟨_, pending, Std.Refl.refl loading.loader.client, h, rfl⟩

theorem stirs_resident : Within (Stirs ledger) (resident handle) :=
  Within.of_unchanged (resident_unchanged handle)

theorem stagePending_nil {modules : List Module} {address : UInt32} {bytes : Bytes} :
    stagePending modules handle address bytes [] = none := rfl

theorem stirs_writeTable (claim : Dsbt.Claim) (table : List UInt32) :
    Within (Stirs ledger) (writeTable claim table) := by
  refine Within.get_bind fun loading => ?_
  cases hstaged : stagePending loading.loader.modules claim.handle claim.base _
      loading.session.pending with
  | some pending =>
    apply stirs_pending
    intro hnone
    rw [hnone, stagePending_nil] at hstaged
    cases hstaged
  | none => exact stirs_onClient (ledger.quiet_write _ _) loading

theorem stirs_writeTables : Within (Stirs ledger) (writeTables : LoadM (Loading σ) Unit) := by
  refine Within.bind Within.get fun loading => ?_
  unfold Dsbt.updateAll
  split
  · exact Within.throw
  · exact Within.forM fun entry => stirs_writeTable entry.2 _

theorem stirs_stageDynamics : Within (Stirs ledger) (stageDynamics : LoadM (Loading σ) Unit) := by
  have hbody : ∀ draft : Draft, Within (Stirs ledger) (do
      if draft.file.isRelocatable then
        return draft.withDynamicStaged (← resident draft.handle).segments
      else return draft : LoadM (Loading σ) Draft) := by
    intro draft
    split
    · exact Within.bind stirs_resident fun _ => Within.pure
    · exact Within.pure
  refine Within.get_bind fun loading => ?_
  cases hpending : loading.session.pending with
  | nil => exact stirs_pending fun _ => rfl
  | cons draft drafts =>
    refine Within.bind_at (Within.mapM (fun draft _ => hbody draft) loading) fun pending after hmoved => ?_
    obtain ⟨client, -, hquiet, -, rfl⟩ := hmoved
    exact ⟨client, pending, hquiet, by simp [hpending], rfl⟩

theorem stirs_writeSegments (draft : Draft) :
    Within (Stirs ledger) (writeSegments draft : LoadM (Loading σ) Unit) :=
  Within.bind stirs_resident fun _ =>
    Within.forM fun _ => stirs_onClient (ledger.quiet_write _ _)

theorem stirs_relocateAndWrite (draft : Draft) :
    Within (Stirs ledger) (relocateAndWrite draft : LoadM (Loading σ) Unit) := by
  unfold relocateAndWrite
  split
  · exact Within.bind Within.get fun _ => Within.bind Within.ofExcept fun _ =>
      stirs_writeSegments _
  · exact stirs_writeSegments draft

theorem stirs_runArray? (array : Option AddressArray) (order : ByteOrder) :
    Within (Stirs ledger) (runArray? array order : LoadM (Loading σ) Unit) := by
  cases array with
  | some array => exact stirs_onClient (ledger.quiet_runArray _ _ _)
  | none => exact Within.pure

theorem stirs_writeArguments (draft : Draft) (arguments : List String) :
    Within (Stirs ledger) (writeArguments draft arguments : LoadM (Loading σ) Unit) := by
  unfold writeArguments
  split
  · exact Within.bind Within.ofExcept fun _ => stirs_onClient (ledger.quiet_write _ _)
  · exact Within.pure

theorem stirs_runInitializers (arguments : List String) (draft : Draft) :
    Within (Stirs ledger) (runInitializers root arguments draft : LoadM (Loading σ) Unit) := by
  rw [runInitializers_eq]
  refine Within.bind ?_ fun _ => Within.bind ?_ fun _ => stirs_runArray? _ _
  · unfold passArguments
    split
    · exact stirs_writeArguments draft arguments
    · exact Within.pure
  · unfold runInit
    split
    · exact stirs_onClient (ledger.quiet_execute _)
    · exact Within.pure

/-! ## From the last placed module to the last initializer -/

/-- What holds when a whole graph is placed and the handle of the load is known. -/
structure Placed (ledger : Ledger σ) (start : Loader σ) (root handle : Handle)
    (loading : Loading σ) : Prop
    extends Placing ledger start 0 [root] [] [] loading where
  placed : loading.session.pending = [] ∨ root ∈ loading.session.created
  new : start.nextHandle ≤ handle
  own : handle ∈ handlesOf loading.loader.modules → handle = root
  below : handle < loading.loader.nextHandle

/-- What holds once the claims are bound; searches start at `app`. -/
structure Finishing (ledger : Ledger σ) (start : Loader σ) (root handle : Handle)
    (app : Option Handle) (loading : Loading σ) : Prop
    extends Books ledger start 0 loading where
  accounted : loading.loader.Accounted [root]
  acyclic : Module.Acyclic loading.loader.modules
  idle : loading.loader.dsbt.pending = []
  app_eq : loading.loader.app = app
  placed : loading.session.pending = [] ∨ root ∈ loading.session.created
  new : start.nextHandle ≤ handle
  own : handle ∈ handlesOf loading.loader.modules → handle = root
  below : handle < loading.loader.nextHandle

namespace Finishing

variable {loading : Loading σ}

theorem stirs {after : Loading σ} (h : Finishing ledger start root handle app loading)
    (hstirs : Stirs ledger loading after) : Finishing ledger start root handle app after := by
  obtain ⟨client, pending, hquiet, hnone, rfl⟩ := hstirs
  exact { h with
    toBooks := (h.toBooks.client (hquiet _ h.holds)).session rfl rfl
    accounted := h.accounted.congr rfl rfl (UInt32.le_refl _)
    placed := h.placed.imp_left hnone }

theorem undoable (h : Finishing ledger start root handle start.app loading) :
    Undoable ledger start loading :=
  { h with app := Or.inl h.app_eq }

/-- Once the start of searches is set, a failure can be undone if the root is new. -/
theorem undoable_of_created (h : Finishing ledger start root handle (start.app <|> some root) loading)
    (hcreated : root ∈ loading.session.created) : Undoable ledger start loading := by
  refine { h with app := ?_ }
  have happ := h.app_eq
  cases hstart : start.app with
  | some first =>
    rw [hstart] at happ
    exact Or.inl happ
  | none =>
    rw [hstart] at happ
    exact Or.inr ⟨rfl, root, hcreated, happ⟩

/-- A step that only stirs keeps what holds while a load is completed. -/
theorem triple {α : Type} {step : LoadM (Loading σ) α} (hstep : Within (Stirs ledger) step) :
    Triple (Finishing ledger start root handle start.app) step
      (fun _ => Finishing ledger start root handle start.app) (Undoable ledger start) :=
  hstep.triple (fun _ _ h => h.stirs) fun _ h => h.undoable

theorem triple_of_created {α : Type} {step : LoadM (Loading σ) α}
    (h : Finishing ledger start root handle (start.app <|> some root) loading)
    (hcreated : root ∈ loading.session.created) (hstep : Within (Stirs ledger) step) :
    Triple (· = loading) step
      (fun _ => Finishing ledger start root handle (start.app <|> some root))
      (Undoable ledger start) := by
  intro s hs
  rw [show s = loading from hs]
  have hstirs := hstep loading
  rcases hrun : step loading with ⟨e | a, after⟩ <;> rw [hrun] at hstirs
  · refine (h.stirs hstirs).undoable_of_created ?_
    obtain ⟨client, pending, -, -, rfl⟩ := hstirs
    exact hcreated
  · exact h.stirs hstirs

end Finishing

theorem bindSlots_triple : Triple (Placed ledger start root handle) bindSlots
    (fun _ => Finishing ledger start root handle start.app) (Undoable ledger start) := by
  refine Triple.modify fun loading h => ?_
  exact {
    toBooks := h.toBooks.assign.session rfl rfl
    accounted := h.accounted.congr rfl rfl (UInt32.le_refl _)
    acyclic := h.acyclic
    idle := Dsbt.pending_assign _
    app_eq := h.app
    placed := h.placed.imp_left fun hnone => by simp [hnone]
    new := h.new
    own := h.own
    below := h.below }

theorem chooseApp_triple : Triple (Finishing ledger start root handle start.app) (chooseApp root)
    (fun _ => Finishing ledger start root handle (start.app <|> some root))
    (Undoable ledger start) := by
  refine Triple.modify fun loading h => ?_
  exact { h with
    accounted := h.accounted.congr rfl rfl (UInt32.le_refl _)
    app_eq := by rw [← h.app_eq] }

theorem prepare_triple : Triple (Placed ledger start root handle) (prepare root)
    (fun _ => Finishing ledger start root handle (start.app <|> some root))
    (Undoable ledger start) := by
  refine bindSlots_triple.bind fun _ => ?_
  refine (Finishing.triple stirs_writeTables).bind fun _ => ?_
  exact (Finishing.triple stirs_stageDynamics).bind fun _ => chooseApp_triple

theorem place_triple (hstart : start.Sound ledger) (image : Image) :
    Triple (· = { loader := start }) (place image)
      (fun placed s => Placed ledger start placed.1 placed.2 s ∧ Drafting [] s)
      (Undoable ledger start) := by
  refine Triple.get_bind fun begun hbegun => ?_
  have hload : Loads ledger start [] []
      (loadModule (UInt32.size - begun.loader.nextHandle.toNat) · none) :=
    loadModule_triple hstart _ none rfl
  refine ((hload [] [] image).strengthen fun s hs => ?_).bind fun root =>
    Triple.get_bind fun loading h => ?_
  · rw [show s = begun from hs, hbegun]
    exact ⟨⟨Placing.begin hstart, rfl⟩, Drafting.begin hstart.accounted.distinct⟩
  obtain ⟨h, hdrafting⟩ := h
  have hresident : root ∈ handlesOf loading.loader.modules :=
    h.accounted.resident List.mem_cons_self
  by_cases hcreated : loading.session.created.contains root = true
  · rw [if_pos hcreated]
    have hmem : root ∈ loading.session.created := by simpa using hcreated
    refine Triple.pure fun s hs => ?_
    rw [show s = loading from hs]
    exact ⟨⟨h.toPlacing, h.placed, h.created root hmem, fun _ => rfl,
      h.accounted.handle_below hresident⟩, hdrafting⟩
  · rw [if_neg hcreated]
    have hnotin : root ∉ loading.session.created := by simpa using hcreated
    have hplaced : loading.session.pending = [] := h.placed.resolve_right hnotin
    refine Triple.bind (R := fun handle s => Placed ledger start root handle s ∧ Drafting [] s)
      (fun s hs => ?_) fun handle => Triple.pure fun _ h => h
    rw [show s = loading from hs, newHandle_apply]
    by_cases hlast : loading.loader.nextHandle = Loader.lastHandle
    · rw [if_pos hlast]
      exact h.undoable
    · rw [if_neg hlast]
      have hfresh := h.accounted.fresh_nextHandle hlast
      exact ⟨⟨h.newHandle hlast, Or.inl hplaced, h.nextHandle, fun hmem => absurd hmem hfresh.notMem,
        hfresh.below⟩, hdrafting.alike ⟨rfl, rfl, rfl, rfl⟩⟩

/-- A load whose graph is ready knows where searches start, and nothing waits any more. -/
theorem ready_triple (hstart : start.Sound ledger) (image : Image) :
    Triple (· = { loader := start }) (ready image)
      (fun placed => Finishing ledger start placed.1 placed.2 (start.app <|> some placed.1))
      (Undoable ledger start) := by
  have hplaced := (place_triple hstart image).weaken (fun _ _ h => h.1) fun _ h => h
  exact hplaced.bind fun _ => prepare_triple.bind fun _ => Triple.pure fun _ h => h

theorem stirs_complete (arguments : List String) (pending : List Draft) :
    Within (Stirs ledger) (complete root arguments pending : LoadM (Loading σ) Unit) := by
  refine Within.bind (Within.forM stirs_relocateAndWrite) fun _ => ?_
  refine Within.bind (Within.forM fun draft => stirs_runArray? _ _) fun _ => ?_
  exact Within.forM (stirs_runInitializers arguments)

theorem complete_triple (arguments : List String) {loading : Loading σ}
    (h : Finishing ledger start root handle (start.app <|> some root) loading) :
    Triple (· = loading) (complete root arguments loading.session.pending)
      (fun _ => Finishing ledger start root handle (start.app <|> some root))
      (Undoable ledger start) := by
  rcases h.placed with hnone | hcreated
  · rw [hnone]
    exact Triple.pure fun _ heq => heq ▸ h
  · exact h.triple_of_created hcreated (stirs_complete arguments _)

end Loading

namespace Loader

variable {σ : Type} [Client σ] {ledger : Ledger σ} {start : Loader σ}

/-- What a load that succeeded did: it used some old modules again, put new ones behind them, and
handed out a handle of the root. -/
structure Grown (ledger : Ledger σ) (start : Loader σ) (handle : Handle) (loaded : Loader σ) : Prop
    extends Sound ledger loaded where
  nextHandle : start.nextHandle ≤ loaded.nextHandle
  modules : ∃ reused new, loaded.modules = start.modules.map (Loading.raised reused) ++ new ∧
    ∀ m ∈ new, start.nextHandle ≤ m.handle
  handles : ∃ root, loaded.handles = (handle, root) :: start.handles ∧
    (handle ∈ handlesOf loaded.modules → handle = root)
  new : start.nextHandle ≤ handle
  entries : loaded.dsbt.entries.filter (fun entry => entry.2.handle < start.nextHandle) =
    start.dsbt.entries

end Loader

namespace Loading

variable {σ : Type} [Client σ] {ledger : Ledger σ} {start : Loader σ} {root handle : Handle}

theorem Finishing.grown {loading : Loading σ} (hstart : start.Sound ledger)
    (h : Finishing ledger start root handle (start.app <|> some root) loading)
    (machine : Option Machine) :
    Loader.Grown ledger start handle { loading.loader with
      machine, handles := (handle, root) :: loading.loader.handles } where
  accounted := by
    have hkey : handle ∉ loading.loader.handles.map (·.1) :=
      h.handles ▸ hstart.accounted.key_of_le h.new
    exact (h.accounted.addHandle hkey h.below).congr rfl rfl (UInt32.le_refl _)
  acyclic := h.acyclic
  idle := h.idle
  bound := by
    intro entry hentry
    by_cases hle : start.nextHandle ≤ entry.2.handle
    · exact h.resident_of_created (h.bound entry hentry hle)
    · refine h.resident_of_start (hstart.bound entry ?_)
      rw [← h.entries]
      exact List.mem_filter.mpr ⟨hentry, by simpa using hle⟩
  app := by
    intro first hfirst
    have hroot : root ∈ handlesOf loading.loader.modules :=
      h.accounted.resident List.mem_cons_self
    have happ : (start.app <|> some root) = some first := h.app_eq.symm.trans hfirst
    cases hold : start.app with
    | some old =>
      rw [hold] at happ
      obtain rfl : old = first := Option.some.inj happ
      exact h.resident_of_start (hstart.app old hold)
    | none =>
      rw [hold] at happ
      obtain rfl : root = first := Option.some.inj happ
      exact hroot
  functionless := by
    intro m hm hsymbols
    obtain ⟨new, hmodules, hcreated⟩ := h.modules
    rcases List.mem_append.mp (hmodules ▸ hm) with hold | hnew
    · obtain ⟨old, hmem, rfl⟩ := List.mem_map.mp hold
      exact hstart.functionless old hmem hsymbols
    · have hle := h.created m.handle (hcreated ▸ Module.handle_mem hnew)
      rw [h.whole m hm hle] at hsymbols
      cases hsymbols
  holds := by
    have hholds := h.holds
    rwa [Multiset.add_zero] at hholds
  nextHandle := h.nextHandle
  modules := by
    obtain ⟨new, hmodules, hcreated⟩ := h.modules
    refine ⟨loading.session.reused, new, hmodules, fun m hm => ?_⟩
    exact h.created m.handle (hcreated ▸ Module.handle_mem hm)
  handles := ⟨root, by rw [h.handles], h.own⟩
  new := h.new
  entries := h.entries

theorem loadGraph_triple (hstart : start.Sound ledger) (image : Image) (arguments : List String) :
    Triple (· = { loader := start }) (loadGraph image arguments)
      (fun handle loading => Loader.Grown ledger start handle { loading.loader with
        machine := loading.loader.machine <|> loading.session.machine })
      (Undoable ledger start) := by
  rw [loadGraph_eq]
  refine (ready_triple hstart image).bind ?_
  rintro ⟨root, handle⟩
  refine Triple.get_bind fun loading h => ?_
  refine (complete_triple arguments h).bind fun _ => ?_
  exact fun loading h => h.grown hstart _

end Loading

end TargetLink
