import TargetLink.Loader.Run
import TargetLink.Proofs.Completion
import TargetLink.Proofs.Release

/-!
# Every run keeps a loader in good order

One lemma for each request says what it leaves (`Loader.Outcome` has them all), and what every request
keeps holds after any run (`Loader.run_keeps`), first of all that the loader is sound
(`Loader.run_sound`).
-/

namespace TargetLink

open TargetLink.Module (handlesOf needsOf allocationsOf)
open LoadM (Triple Within)

namespace Loader

variable {σ : Type} [Client σ] {ledger : Ledger σ} {loader : Loader σ}

/-! ## Loading -/

/-- A load that succeeds grows the loader. -/
theorem load_ok (hsound : loader.Sound ledger) {image : Image} {arguments : List String}
    {handle : Handle} (hload : (loader.load image arguments).1 = .ok handle) :
    Grown ledger loader handle (loader.load image arguments).2 := by
  have htriple := Loading.loadGraph_triple hsound image arguments
  unfold load at hload ⊢
  rcases hrun : Loading.loadGraph image arguments { loader } with ⟨e | new, loading⟩
  · rw [hrun] at hload
    cases hload
  · rw [hrun] at hload
    obtain rfl : new = handle := Except.ok.inj hload
    exact htriple.ok rfl hrun

/-- A load that fails restores the loader. -/
theorem load_error (hsound : loader.Sound ledger) {image : Image} {arguments : List String}
    {e : LoadError} (hload : (loader.load image arguments).1 = .error e) :
    Loading.Restored ledger loader (loader.load image arguments).2 := by
  have htriple := Loading.loadGraph_triple hsound image arguments
  unfold load at hload ⊢
  rcases hrun : Loading.loadGraph image arguments { loader } with ⟨e | new, loading⟩
  · exact (htriple.error rfl hrun).abort hsound
  · rw [hrun] at hload
    cases hload

theorem load_sound (hsound : loader.Sound ledger) (image : Image) (arguments : List String) :
    (loader.load image arguments).2.Sound ledger := by
  cases hload : (loader.load image arguments).1 with
  | ok handle => exact (load_ok hsound hload).toSound
  | error e => exact (load_error hsound hload).sound hsound

/-! ## Registering symbols -/

/-- A module that owns no memory may be added under a fresh handle. -/
theorem Sound.addModule (hsound : loader.Sound ledger) {m : Module}
    (hlast : loader.nextHandle ≠ lastHandle) (hhandle : m.handle = loader.nextHandle)
    (huse : m.useCount = 1) (hneeds : m.dependencies = []) (hsegments : m.segments = [])
    (hfini : m.fini = none ∧ m.finiArray = none) (machine : Option Machine) :
    { loader with
      machine
      nextHandle := loader.nextHandle + 1
      modules := loader.modules ++ [m]
      handles := (loader.nextHandle, loader.nextHandle) :: loader.handles }.Sound ledger := by
  have hnext : loader.nextHandle ≤ loader.nextHandle + 1 := UInt32.le_of_lt (lt_add_one hlast)
  have hfresh := hsound.accounted.fresh_nextHandle hlast
  have hgrown : { loader with nextHandle := loader.nextHandle + 1 }.Accounted [] :=
    hsound.accounted.congr rfl rfl hnext
  have hmodule := hgrown.addModule (m := m) (hhandle ▸ hfresh.notMem) (hhandle ▸ hfresh.below)
    huse hneeds
  rw [hhandle] at hmodule
  have hkept : ∀ handle ∈ handlesOf loader.modules, handle ∈ handlesOf (loader.modules ++ [m]) :=
    fun handle hmem => Module.handlesOf_append _ _ ▸ List.mem_append_left _ hmem
  refine ⟨?_, hsound.acyclic.addModule hneeds, hsound.idle, ?_, ?_, ?_, ?_⟩
  · exact (hmodule.addHandle hfresh.key hfresh.below).congr rfl rfl (UInt32.le_refl _)
  · intro entry hentry
    exact hkept _ (hsound.bound entry hentry)
  · intro first hfirst
    exact hkept _ (hsound.app first hfirst)
  · intro n hn hsymbols
    rcases List.mem_append.mp hn with hold | hnew
    · exact hsound.functionless n hold hsymbols
    · exact List.mem_singleton.mp hnew ▸ hfini
  · have hnone : allocationsOf [m] = 0 := by
      simp [allocationsOf, hsegments]
    change ledger.holds loader.client (allocationsOf (loader.modules ++ [m]))
    rw [Module.allocationsOf_append, hnone, Multiset.add_zero]
    exact hsound.holds

/-- Registering symbols adds one module under the next handle, if its machine goes with the one that the
loader works for. -/
def Registered (handle : Handle) (loader after : Loader σ) : Prop :=
  loader.nextHandle ≠ lastHandle ∧ handle = loader.nextHandle ∧ ∃ m : Module,
    m.handle = loader.nextHandle ∧ checkMachine loader.machine m.machine = .ok () ∧ after = { loader with
      machine := some m.machine
      nextHandle := loader.nextHandle + 1
      modules := loader.modules ++ [m]
      handles := (loader.nextHandle, loader.nextHandle) :: loader.handles }

theorem loadSymbolsOnly_triple (hsound : loader.Sound ledger) (image : Image) :
    Triple (· = loader) (loadSymbolsStep image)
      (fun handle after => after.Sound ledger ∧ Registered handle loader after) (· = loader) := by
  refine Triple.bind (R := fun _ => (· = loader))
    (Triple.ofExcept (fun _ _ _ heq => heq) fun _ heq => heq) fun file => ?_
  refine Triple.get_bind fun s hs => ?_
  obtain rfl : s = loader := hs
  refine Triple.bind (R := fun _ t => checkMachine s.machine file.machine = .ok () ∧ t = s)
    (Triple.ofExcept (fun _ _ hcheck heq => ⟨hcheck, heq⟩) fun _ heq => heq) fun _ => ?_
  refine Triple.bind (R := fun handle after => checkMachine s.machine file.machine = .ok () ∧
    s.nextHandle ≠ lastHandle ∧ handle = s.nextHandle ∧
      after = { s with nextHandle := s.nextHandle + 1 }) ?_ fun handle => ?_
  · rintro t ⟨hcheck, ht⟩
    rw [ht, newHandle_apply]
    by_cases hlast : s.nextHandle = lastHandle
    · rw [if_pos hlast]
    · rw [if_neg hlast]
      exact ⟨hcheck, hlast, rfl, rfl⟩
  · rintro _ ⟨hcheck, hlast, rfl, rfl⟩
    exact ⟨hsound.addModule hlast rfl rfl rfl rfl ⟨rfl, rfl⟩ _, hlast, rfl, _, rfl, hcheck, rfl⟩

theorem loadSymbolsOnly_ok (hsound : loader.Sound ledger) {image : Image} {handle : Handle}
    (hload : (loader.loadSymbolsOnly image).1 = .ok handle) :
    (loader.loadSymbolsOnly image).2.Sound ledger ∧
      Registered handle loader (loader.loadSymbolsOnly image).2 :=
  (loadSymbolsOnly_triple hsound image).ok rfl (Prod.ext hload rfl)

theorem loadSymbolsOnly_error (hsound : loader.Sound ledger) {image : Image} {e : LoadError}
    (hload : (loader.loadSymbolsOnly image).1 = .error e) :
    (loader.loadSymbolsOnly image).2 = loader :=
  (loadSymbolsOnly_triple hsound image).error rfl (Prod.ext hload rfl)

theorem loadSymbolsOnly_sound (hsound : loader.Sound ledger) (image : Image) :
    (loader.loadSymbolsOnly image).2.Sound ledger := by
  cases hload : (loader.loadSymbolsOnly image).1 with
  | ok handle => exact (loadSymbolsOnly_ok hsound hload).1
  | error e =>
    rw [loadSymbolsOnly_error hsound hload]
    exact hsound

/-! ## Unloading -/

theorem unload_sound (hsound : loader.Sound ledger) (handle : Handle) :
    (loader.unload handle).2.Sound ledger := by
  cases hlookup : loader.handles.lookup handle with
  | none =>
    rw [unload_unknown hlookup]
    exact hsound
  | some root =>
    obtain ⟨left, gone, steps, after, hrun, hleaves, -⟩ := unload_eq hsound hlookup
    rw [hrun]
    exact hleaves.sound hsound

theorem holds_destroy (modules : List Module) {client : σ} {live : Multiset Allocation}
    (h : ledger.holds client (allocationsOf modules + live)) :
    ledger.holds (modules.foldl (fun client m => giveBack m.segments client) client) live :=
  Loading.giveBack_modules_of_release ledger.holds ledger.release modules h

/-! ## Runs -/

/-- The embedder leaves the ledger alone. -/
def Fair (ledger : Ledger σ) : Request σ → Prop
  | .client change => ∀ client, ledger.Quiet client (change client)
  | _ => True

theorem fresh_sound {client : σ} (policy : LookupPolicy) (hholds : ledger.holds client 0) :
    (fresh client policy).Sound ledger where
  accounted := {
    balanced := ⟨List.nodup_nil, by simp [references, fresh], by simp [fresh], by simp [fresh]⟩
    below := by simp [fresh]
    keys := List.nodup_nil
    keys_below := by simp [fresh] }
  acyclic := ⟨fun _ => 0, by simp [fresh]⟩
  idle := rfl
  bound := by simp [fresh, Dsbt.entries]
  app := by simp [fresh]
  functionless := by simp [fresh]
  holds := hholds

theorem serve_sound (hsound : loader.Sound ledger) {request : Request σ}
    (hfair : Fair ledger request) : (loader.serve request).Sound ledger := by
  cases request with
  | load image arguments => exact load_sound hsound image arguments
  | loadSymbolsOnly image => exact loadSymbolsOnly_sound hsound image
  | unload handle => exact unload_sound hsound handle
  | client change =>
    exact { hsound with
      accounted := hsound.accounted.congr rfl rfl (UInt32.le_refl _)
      holds := hfair _ _ hsound.holds }

/-- What every request keeps as long as the loader is sound, a run keeps. -/
theorem run_keeps {P : Loader σ → Prop} (hsound : loader.Sound ledger) {requests : List (Request σ)}
    (hfair : ∀ request ∈ requests, Fair ledger request)
    (hserve : ∀ request ∈ requests, ∀ loader : Loader σ, loader.Sound ledger → P loader →
      P (loader.serve request)) (hP : P loader) : P (loader.run requests) := by
  induction requests generalizing loader with
  | nil => exact hP
  | cons request requests ih =>
    obtain ⟨hfirst, hrest⟩ := List.forall_mem_cons.mp hfair
    obtain ⟨hserve, hothers⟩ := List.forall_mem_cons.mp hserve
    exact ih (serve_sound hsound hfirst) hrest hothers (hserve loader hsound hP)

theorem run_sound (hsound : loader.Sound ledger) {requests : List (Request σ)}
    (hfair : ∀ request ∈ requests, Fair ledger request) : (loader.run requests).Sound ledger :=
  run_keeps hsound hfair (fun request hmem _ hsound _ => serve_sound hsound (hfair request hmem)) hsound

/-- All that a request may leave of a sound loader. -/
inductive Outcome (ledger : Ledger σ) (loader : Loader σ) : Request σ → Loader σ → Prop
  | loaded {image : Image} {arguments : List String} {handle : Handle} {after : Loader σ} :
      loader.load image arguments = (.ok handle, after) → Grown ledger loader handle after →
      Outcome ledger loader (.load image arguments) after
  | failed {image : Image} {arguments : List String} {after : Loader σ} :
      Loading.Restored ledger loader after → Outcome ledger loader (.load image arguments) after
  | registered {image : Image} {handle : Handle} {after : Loader σ} :
      Registered handle loader after → Outcome ledger loader (.loadSymbolsOnly image) after
  | unloaded {handle : Handle} {gone : List Handle} {steps : List Leave} {after : Loader σ} :
      Leaves ledger gone steps []
        { loader with handles := loader.handles.filter (·.1 != handle) } after →
      Outcome ledger loader (.unload handle) after
  | refused {request : Request σ} : Outcome ledger loader request loader
  | changed {change : σ → σ} :
      Outcome ledger loader (.client change) { loader with client := change loader.client }

theorem serve_outcome (hsound : loader.Sound ledger) (request : Request σ) :
    Outcome ledger loader request (loader.serve request) := by
  cases request with
  | load image arguments =>
    cases hload : (loader.load image arguments).1 with
    | ok handle => exact .loaded (Prod.ext hload rfl) (load_ok hsound hload)
    | error e => exact .failed (load_error hsound hload)
  | loadSymbolsOnly image =>
    cases hload : (loader.loadSymbolsOnly image).1 with
    | ok handle => exact .registered (loadSymbolsOnly_ok hsound hload).2
    | error e =>
      rw [serve, loadSymbolsOnly_error hsound hload]
      exact .refused
  | unload handle =>
    cases hlookup : loader.handles.lookup handle with
    | none =>
      rw [serve, unload_unknown hlookup]
      exact .refused
    | some root =>
      obtain ⟨left, gone, steps, after, hrun, hleaves, -⟩ := unload_eq hsound hlookup
      rw [serve, hrun]
      exact .unloaded hleaves
  | client change => exact .changed

/-- Nothing is asked of an embedder whose client is not known. -/
theorem fair_blank (request : Request σ) : Fair Ledger.blank request := by
  cases request with
  | client change => exact fun _ _ h => h
  | _ => trivial

/-- A run of any client, of which nothing is known. -/
theorem run_blank_sound (client : σ) (policy : LookupPolicy) (requests : List (Request σ)) :
    ((fresh client policy).run requests).Sound Ledger.blank :=
  run_sound (fresh_sound policy trivial) fun request _ => fair_blank request

/-- What an embedder does beside the record shows in no ledger that reads the record alone. -/
theorem fair_recorded {ledger : Ledger (Recorded σ)}
    (hrecord : ∀ {recorded live} (client : σ), ledger.holds recorded live →
      ledger.holds { recorded with client } live) (requests : List (Request σ)) :
    ∀ request ∈ requests.map .recorded, Fair ledger request := by
  intro request hrequest
  obtain ⟨request, -, rfl⟩ := List.mem_map.mp hrequest
  cases request with
  | client change => exact fun _ _ h => hrecord _ h
  | _ => trivial

/-- A run of any client from the beginning of its record. -/
theorem onRecord_sound (client : σ) (policy : LookupPolicy) (requests : List (Request σ)) :
    (onRecord client policy requests).Sound Recorded.ledger :=
  run_sound (fresh_sound policy rfl) (fair_recorded (fun _ h => h) requests)

/-! ## A smallest image -/

/-- A static program for ARM whose only segment has eight bytes at `0x1000`. -/
def bareImage : Image :=
  [0x7f, 0x45, 0x4c, 0x46, 1, 1, 1, 0, 0, 0, 0, 0, 0, 0, 0, 0,
    2, 0, 40, 0, 1, 0, 0, 0, 0, 0x10, 0, 0, 52, 0, 0, 0, 0, 0, 0, 0, 0, 0, 0, 0,
    52, 0, 32, 0, 1, 0, 0, 0, 0, 0, 0, 0,
    1, 0, 0, 0, 0, 0, 0, 0, 0, 0x10, 0, 0, 0, 0x10, 0, 0, 4, 0, 0, 0, 8, 0, 0, 0,
    5, 0, 0, 0, 4, 0, 0, 0]

/-! ## Use counts -/

/-- Every module is used as often as handles lead to it and resident modules need it. -/
structure References (loader : Loader σ) : Prop where
  handles_distinct : (handlesOf loader.modules).Nodup
  keys_distinct : (loader.handles.map (·.1)).Nodup
  below_nextHandle : ∀ m ∈ loader.modules, m.handle < loader.nextHandle
  target_resident : ∀ entry ∈ loader.handles, entry.2 ∈ handlesOf loader.modules
  needed_resident : ∀ m ∈ loader.modules, ∀ needed ∈ m.dependencies,
    needed ∈ handlesOf loader.modules
  used : ∀ m ∈ loader.modules, 1 ≤ m.useCount
  counted : ∀ m ∈ loader.modules, m.useCount =
    loader.handles.countP (·.2 == m.handle) + (needsOf loader.modules).count m.handle

/-- After every run, whatever failed in it, use counts are right. -/
theorem run_references (client : σ) (policy : LookupPolicy) (requests : List (Request σ)) :
    ((fresh client policy).run requests).References := by
  have haccounted := (run_blank_sound client policy requests).accounted
  generalize (fresh client policy).run requests = loader at haccounted
  refine ⟨haccounted.distinct, haccounted.keys, haccounted.below,
    fun entry hentry => haccounted.target_resident hentry, ?_, haccounted.balanced.used, ?_⟩
  · intro m hm needed hneeded
    exact haccounted.needed_resident (List.mem_flatMap.mpr ⟨m, hm, hneeded⟩)
  · intro m hm
    rw [haccounted.balanced.counted m hm, List.nil_append, references, List.count_append,
      List.count_eq_countP, List.countP_map]
    rfl

end Loader

end TargetLink
