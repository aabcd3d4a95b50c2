import TargetLink.Proofs.FailedTable
import TargetLink.Proofs.Portraits
import TargetLink.Proofs.Stores

/-!
# Founded claims over runs

Whatever a loader is asked, its table of static bases stays in order, and every claim on it carries the
static base of the resident module that it is for (`Loader.founded_run`).
-/

namespace TargetLink

open LoadM (Triple Within bind_apply)

namespace Loading

variable {σ : Type} [Client σ]

/-- Undoing a load releases the claims of its modules. -/
theorem consistent_abort {loading : Loading σ} (h : loading.loader.dsbt.Consistent) :
    loading.abort.dsbt.Consistent := by
  have hdrop : ∀ (handles : List Handle) (loader : Loader σ),
      (handles.foldl dropReuse loader).dsbt = loader.dsbt := by
    intro handles
    induction handles with
    | nil => exact fun _ => rfl
    | cons handle handles ih => exact fun loader => ih (dropReuse loader handle)
  have hdiscard : ∀ (loader : Loader σ) (handle : Handle),
      (discard loader handle).dsbt = loader.dsbt.release handle := by
    intro loader handle
    unfold discard
    cases Module.find? loader.modules handle with
    | none => simp
    | some m => simp
  rw [abort, hdrop]
  generalize loading.session.created.reverse = handles
  generalize loading.loader = loader at h
  induction handles generalizing loader with
  | nil => exact h
  | cons handle handles ih =>
    refine ih (discard loader handle) ?_
    rw [hdiscard]
    exact h.release handle

end Loading

namespace Loader

variable {σ : Type} [Client σ]

/-! ## Unloading -/

/-- The table stays in order. -/
def Orders (before after : Loader σ) : Prop := before.dsbt.Consistent → after.dsbt.Consistent

omit [Client σ] in
instance : IsPreorder (Loader σ) Orders where
  refl _ := id
  trans _ _ _ hfirst hsecond := hsecond ∘ hfirst

theorem orders_release (depth : Nat) (handle : Handle) :
    Within Orders (release depth handle : LoadM (Loader σ) Bool) := by
  induction depth generalizing handle with
  | zero => exact Within.throw
  | succ depth ih =>
    intro loader
    cases hfind : Module.find? loader.modules handle with
    | none =>
      simp only [release, bind_apply, LoadM.get_apply, hfind]
      exact id
    | some m =>
      by_cases huse : 1 < m.useCount
      · rw [release_shared hfind huse]
        exact id
      · rw [release_last hfind huse]
        -- what follows the termination of the module starts from its table
        refine fun hs => Within.bind (R := Orders) (Within.mapM fun dependency _ s => ?_)
          (fun answers => ?_) _ hs
        · rw [LoadM.observe_apply]
          exact ih dependency s
        · refine Within.bind (fun s hs => ?_) fun _ => ?_
          · have hforget : (s.forget m).dsbt = s.dsbt.release m.handle := by simp [forget]
            change (s.forget m).dsbt.Consistent
            rw [hforget]
            exact hs.release m.handle
          · split
            · exact Within.throw
            · exact Within.pure

theorem consistent_unload {loader : Loader σ} (h : loader.dsbt.Consistent) (handle : Handle) :
    (loader.unload handle).2.dsbt.Consistent := by
  simp only [unload, unloadStep, bind_apply, LoadM.get_apply]
  cases loader.handles.lookup handle with
  | none => exact h
  | some target =>
    simp only [bind_apply, LoadM.set_apply]
    exact orders_release _ target _ h

/-! ## Runs -/

variable {loader : Loader SimulatedTarget}

omit [Client σ] in
theorem placements_congr {loader other : Loader σ} (h : other.modules = loader.modules) :
    other.placements = loader.placements :=
  congrArg (List.map Module.placement) h

/-- A load that succeeds leaves the table that was bound once its graph was placed. -/
theorem exists_placed_of_load_ok {image : Image} {arguments : List String} {handle : Handle}
    (h : (loader.load image arguments).1 = .ok handle) : ∃ found placed,
      Loading.place image { loader } = (.ok found, placed) ∧
      (loader.load image arguments).2.dsbt = placed.loader.dsbt.assign := by
  have hdsbt := Loading.loadGraph_dsbt image arguments { loader }
  unfold load at h ⊢
  rcases hplace : Loading.place image { loader } with ⟨e | found, placed⟩ <;> rw [hplace] at hdsbt
  · dsimp only at hdsbt
    rw [hdsbt] at h
    cases h
  · refine ⟨found, placed, rfl, ?_⟩
    rcases hrun : Loading.loadGraph image arguments { loader } with ⟨e | new, loading⟩ <;>
      rw [hrun] at hdsbt h
    · cases h
    · exact hdsbt

theorem founded_load (hsound : loader.Sound SimulatedTarget.ledger) (h : loader.Founded)
    (image : Image) (arguments : List String) : (loader.load image arguments).2.Founded := by
  have hplaced := Loading.place_grounded h hsound.accounted.below image
  cases hload : (loader.load image arguments).1 with
  | ok handle =>
    obtain ⟨found, placed, hplace, hdsbt⟩ := exists_placed_of_load_ok hload
    have hgrounded := hplaced.ok rfl hplace
    have hbinds := hgrounded.consistent.assign
    have hmodules : (loader.load image arguments).2.placements = placed.loader.placements :=
      placements_congr (by rw [modules_of_load_ok hload, hplace])
    refine ⟨hdsbt ▸ hbinds.consistent, fun claim hclaim => ?_⟩
    rw [hdsbt] at hclaim
    rw [hmodules]
    exact hgrounded.based claim (hbinds.claims.mem_iff.mp hclaim)
  | error e =>
    have hrestored := load_error hsound hload
    have hdsbt := Loading.loadGraph_dsbt image arguments { loader }
    have htidy : (Loading.loadGraph image arguments { loader }).2.loader.dsbt.Consistent := by
      rcases hplace : Loading.place image { loader } with ⟨e | found, placed⟩ <;> rw [hplace] at hdsbt
      · rw [hdsbt]
        exact hplaced.error rfl hplace
      · rw [hdsbt]
        exact (hplaced.ok rfl hplace).consistent.assign.consistent
    have hclaims : (loader.load image arguments).2.dsbt.claims = loader.dsbt.claims := by
      rw [Dsbt.claims, Dsbt.claims, hrestored.entries, hrestored.idle, hsound.idle]
    refine ⟨?_, ?_⟩
    · unfold load at hload ⊢
      rcases hrun : Loading.loadGraph image arguments { loader } with ⟨e' | new, loading⟩ <;>
        rw [hrun] at hload htidy
      · exact Loading.consistent_abort htidy
      · cases hload
    · rw [hclaims, placements_congr hrestored.modules]
      exact h.based

theorem founded_unload (hsound : loader.Sound SimulatedTarget.ledger) (h : loader.Founded)
    (handle : Handle) : (loader.unload handle).2.Founded := by
  refine ⟨consistent_unload h.consistent handle, ?_⟩
  cases hlookup : loader.handles.lookup handle with
  | none =>
    rw [unload_unknown hlookup]
    exact h.based
  | some root =>
    obtain ⟨left, gone, steps, after, hrun, hleaves, -⟩ := unload_eq hsound hlookup
    rw [hrun]
    intro claim hclaim
    have hidle : after.dsbt.pending = [] := by
      rw [hleaves.pending]
      exact List.filter_eq_nil_iff.mpr (by simp [hsound.idle])
    rw [Dsbt.claims, hidle, List.nil_append, hleaves.entries] at hclaim
    obtain ⟨entry, hentry, rfl⟩ := List.mem_map.mp hclaim
    obtain ⟨hentry, hstayed⟩ := List.mem_filter.mp hentry
    obtain ⟨placement, hmem, hhandle, hbase⟩ :=
      h.based entry.2 (List.mem_append_right _ (List.mem_map_of_mem hentry))
    obtain ⟨n, hn, rfl⟩ := List.mem_map.mp hmem
    have hkept : n.uncounted ∈ after.modules.map Module.uncounted := by
      rw [hleaves.modules, List.mem_filter]
      refine ⟨List.mem_map_of_mem hn, decide_eq_true ?_⟩
      exact fun hgone => of_decide_eq_true hstayed (hhandle ▸ hgone)
    obtain ⟨m, hm, heq⟩ := List.mem_map.mp hkept
    refine ⟨m.placement, List.mem_map_of_mem hm, ?_, ?_⟩
    · exact (congrArg (·.handle) heq).trans hhandle
    · exact (congrArg (·.staticBase) heq).trans hbase

theorem founded_serve (hsound : loader.Sound SimulatedTarget.ledger) (h : loader.Founded)
    (request : Request SimulatedTarget) : (loader.serve request).Founded := by
  cases request with
  | load image arguments => exact founded_load hsound h image arguments
  | loadSymbolsOnly image =>
    cases hload : (loader.loadSymbolsOnly image).1 with
    | ok handle =>
      obtain ⟨-, -, -, m, -, -, hafter⟩ := loadSymbolsOnly_ok hsound hload
      rw [serve, hafter]
      refine ⟨h.consistent, fun claim hclaim => ?_⟩
      obtain ⟨placement, hmem, heq⟩ := h.based claim hclaim
      refine ⟨placement, ?_, heq⟩
      rw [placements, List.map_append]
      exact List.mem_append_left _ hmem
    | error e =>
      rw [serve, loadSymbolsOnly_error hsound hload]
      exact h
  | unload handle => exact founded_unload hsound h handle
  | client change => exact ⟨h.consistent, h.based⟩

theorem founded_run (hsound : loader.Sound SimulatedTarget.ledger) (h : loader.Founded)
    {requests : List (Request SimulatedTarget)}
    (hfair : ∀ request ∈ requests, Fair SimulatedTarget.ledger request) :
    (loader.run requests).Founded :=
  run_keeps hsound hfair (fun request _ _ hsound h => founded_serve hsound h request) h

theorem founded_fresh (target : SimulatedTarget) (policy : LookupPolicy) :
    (fresh target policy).Founded :=
  ⟨Dsbt.consistent_empty, by rintro _ ⟨⟩⟩

end Loader

end TargetLink
