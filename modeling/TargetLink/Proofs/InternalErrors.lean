import TargetLink.Proofs.Failures
import TargetLink.Proofs.Initializers
import TargetLink.Proofs.SampleObjects

/-!
# Internal errors

An operation fails with an internal error when one of the invariants of the loader is broken: a handle
without a module, a module without its blocks, a member of a group without a field.  None of them ever
is, whatever the files are and whichever calls fail, as long as the client itself does not answer with
such an error (`Candid`).  The only internal error that is left tells of a C6000 file with a relocation
that has no addend (`Loader.run_internal`).

* `LoadM.Ends P step Q F`: from every state with `P` the step ends with `Q`, or it fails with an error
  that has `F`.
-/

namespace TargetLink

open TargetLink.Module (handlesOf)
open LoadM (Triple Within bind_apply get_apply)
open LoadError (Regular)

variable {σ α β : Type}

/-! ## The errors of a step -/

namespace LoadM

variable {P P' : σ → Prop} {Q Q' : α → σ → Prop} {E : σ → Prop} {F F' : LoadError → Prop}
  {step : LoadM σ α}

/-- From every state with `P` the step ends with `Q`, or it fails with an error that has `F`. -/
def Ends (P : σ → Prop) (step : LoadM σ α) (Q : α → σ → Prop) (F : LoadError → Prop) : Prop :=
  ∀ s, P s → match step s with
    | (.ok a, t) => Q a t
    | (.error e, _) => F e

namespace Ends

theorem failsWith (h : Ends P step Q F) {s : σ} (hs : P s) : FailsWith F (step s).1 := by
  intro e he
  have := h s hs
  rcases hrun : step s with ⟨e' | a, t⟩ <;> rw [hrun] at this he
  · exact Except.error.inj he ▸ this
  · cases he

/-- For the errors it does not matter where a step ends. -/
theorem failsWith_of_eq {s : σ} (h : Ends (· = s) step (fun _ _ => True) F) :
    FailsWith F (step s).1 :=
  h.failsWith rfl

/-- What is known of the errors of a step and of its states holds together. -/
theorem of_triple (h : Triple P step Q E) (hF : ∀ s, P s → FailsWith F (step s).1) :
    Ends P step Q F := by
  intro s hs
  have hdone := h s hs
  have hfails := hF s hs
  rcases hrun : step s with ⟨e | a, t⟩ <;> rw [hrun] at hdone hfails
  · exact hfails e rfl
  · exact hdone

/-- What is known of the errors alone. -/
theorem of_failsWith (h : ∀ s, P s → FailsWith F (step s).1) :
    Ends P step (fun _ _ => True) F := by
  intro s hs
  have hfails := h s hs
  rcases hrun : step s with ⟨e | a, t⟩ <;> rw [hrun] at hfails
  · exact hfails e rfl
  · trivial

theorem strengthen (h : Ends P step Q F) (hP : ∀ s, P' s → P s) : Ends P' step Q F :=
  fun s hs => h s (hP s hs)

theorem weaken (h : Ends P step Q F) (hQ : ∀ a s, Q a s → Q' a s) (hF : ∀ e, F e → F' e) :
    Ends P step Q' F' := by
  intro s hs
  have := h s hs
  rcases hrun : step s with ⟨e | a, t⟩ <;> rw [hrun] at this
  · exact hF e this
  · exact hQ a t this

protected theorem pure {a : α} (h : ∀ s, P s → Q a s) : Ends P (pure a) Q F := h

protected theorem throw {e : LoadError} (h : F e) : Ends P (throw e) Q F := fun _ _ => h

protected theorem modify {f : σ → σ} {Q : Unit → σ → Prop} (h : ∀ s, P s → Q () (f s)) :
    Ends P (modify f) Q F := h

protected theorem ofExcept {result : Except LoadError α} (h : FailsWith F result)
    (hok : ∀ a s, result = .ok a → P s → Q a s) : Ends P (MonadExcept.ofExcept result) Q F := by
  intro s hs
  rw [ofExcept_apply]
  cases result with
  | ok a => exact hok a s rfl hs
  | error e => exact h e rfl

protected theorem bind {R : α → σ → Prop} {next : α → LoadM σ β} {Q : β → σ → Prop}
    (hstep : Ends P step R F) (hnext : ∀ a, Ends (R a) (next a) Q F) :
    Ends P (step >>= next) Q F := by
  intro s hs
  have := hstep s hs
  rw [bind_apply]
  rcases hrun : step s with ⟨e | a, t⟩ <;> rw [hrun] at this
  · exact this
  · exact hnext a t this

/-- What follows a look at the state may be shown for that state alone. -/
theorem get_bind {next : σ → LoadM σ β} {Q : β → σ → Prop}
    (h : ∀ s, P s → Ends (· = s) (next s) Q F) : Ends P (get >>= next) Q F := by
  intro s hs
  rw [bind_apply, get_apply]
  exact h s hs s rfl

/-- A guard in front of a step throws or lets the step pass. -/
theorem throw_if {c : Prop} [Decidable c] {e : LoadError} {next : PUnit → LoadM σ α} (he : F e)
    (hnext : Ends P (next ()) Q F) : Ends P (if c then throw e >>= next else next ()) Q F := by
  split
  · exact Ends.throw he
  · exact hnext

theorem forM {xs : List β} {body : β → LoadM σ Unit}
    (h : ∀ x ∈ xs, Ends P (body x) (fun _ => P) F) : Ends P (xs.forM body) (fun _ => P) F := by
  induction xs with
  | nil => exact Ends.pure fun _ hs => hs
  | cons x xs ih =>
    obtain ⟨hfirst, hrest⟩ := List.forall_mem_cons.mp h
    exact hfirst.bind fun _ => ih hrest

theorem mapM {xs : List β} {body : β → LoadM σ α}
    (h : ∀ x ∈ xs, Ends P (body x) (fun _ => P) F) : Ends P (xs.mapM body) (fun _ => P) F := by
  induction xs with
  | nil => exact Ends.pure fun _ hs => hs
  | cons x xs ih =>
    obtain ⟨hfirst, hrest⟩ := List.forall_mem_cons.mp h
    rw [List.mapM_cons]
    exact hfirst.bind fun _ => (ih hrest).bind fun _ => Ends.pure fun _ hs => hs

end Ends

end LoadM

open LoadM (Ends)

/-- A client that never answers with an internal error of the loader. -/
class Candid (σ : Type) [Client σ] : Prop where
  allocate (request : AllocRequest) (client : σ) :
    FailsWith Regular (Client.allocate request client).1
  copy (image : Image) (request : CopyRequest) (client : σ) :
    FailsWith Regular (Client.copy image request client).1
  write (address : UInt32) (bytes : Bytes) (client : σ) :
    FailsWith Regular (Client.write address bytes client).1
  read (address : UInt32) (size : Nat) (client : σ) :
    FailsWith Regular (Client.read address size client).1
  execute (address : UInt32) (client : σ) : FailsWith Regular (Client.execute address client).1

theorem CopyRequest.failsWith_stage (request : CopyRequest) (image : Image) :
    FailsWith Regular (request.stage image) := by
  unfold CopyRequest.stage
  split
  · exact FailsWith.error nofun
  · dsimp only
    split
    · exact FailsWith.ok
    · exact FailsWith.error nofun

theorem Memory.failsWith_place (memory : Memory) (request : AllocRequest) :
    FailsWith Regular (memory.place request) := by
  unfold Memory.place
  split
  · split
    · exact FailsWith.ok
    · exact FailsWith.error nofun
  · split
    · exact FailsWith.error nofun
    · split
      · exact FailsWith.error nofun
      · exact FailsWith.ok

instance : Candid SimulatedTarget where
  allocate request target := by
    change FailsWith Regular (SimulatedTarget.allocate request target).1
    have hplaced : FailsWith Regular (target.memory.allocate request) :=
      (Memory.failsWith_place _ _).bind fun _ _ => FailsWith.pure
    refine Ends.failsWith_of_eq ?_
    refine Ends.get_bind fun _ hs => Ends.bind (R := fun _ _ => True)
      (Ends.ofExcept (hs ▸ hplaced) fun _ _ _ _ => trivial) fun _ => ?_
    exact fun _ _ => trivial
  copy image request target := by
    change FailsWith Regular (SimulatedTarget.copy image request target).1
    exact Ends.failsWith_of_eq <|
      Ends.ofExcept (CopyRequest.failsWith_stage request image) fun _ _ _ _ => trivial
  write address bytes target := by
    change FailsWith Regular (SimulatedTarget.write address bytes target).1
    refine Ends.failsWith_of_eq ?_
    refine Ends.get_bind fun target _ => ?_
    split
    · exact fun _ _ => trivial
    · exact Ends.throw nofun
  read address size target := by
    change FailsWith Regular (SimulatedTarget.read address size target).1
    refine Ends.failsWith_of_eq ?_
    refine Ends.get_bind fun target _ => ?_
    split
    · exact fun _ _ => trivial
    · exact Ends.throw nofun
  execute _ _ := FailsWith.ok

namespace Loading

variable [Client σ] {handles : List Handle} {handle : Handle} {F : LoadError → Prop}

/-! ## While a graph is placed -/

/-- The handles are those of resident modules. -/
def Hosts (handles : List Handle) (loading : Loading σ) : Prop :=
  ∀ handle ∈ handles, handle ∈ handlesOf loading.loader.modules

omit [Client σ] in
/-- A handle that is known to be there is found. -/
theorem ends_resident {P : Loading σ → Prop}
    (h : ∀ loading, P loading → handle ∈ handlesOf loading.loader.modules) :
    Ends P (resident handle) (fun _ => P) F := by
  refine Ends.get_bind fun loading hloading => ?_
  obtain ⟨m, -, -, hfind⟩ := Module.exists_find? (h loading hloading)
  rw [hfind]
  exact Ends.pure fun s hs => hs ▸ hloading

omit [Client σ] in
theorem Hosts.update {loading : Loading σ} (h : Hosts handles loading) {change : Module → Module}
    (hchange : ∀ m, (change m).handle = m.handle) (session : Session) :
    Hosts handles { loader := loading.loader.update handle change, session } := by
  intro host hhost
  change host ∈ handlesOf (Loader.updateModule handle change loading.loader.modules)
  rw [Loader.handlesOf_updateModule hchange]
  exact h host hhost

omit [Client σ] in
theorem ends_modifyModule {change : Module → Module} (hchange : ∀ m, (change m).handle = m.handle) :
    Ends (Hosts handles) (modifyModule handle change : LoadM (Loading σ) Unit)
      (fun _ => Hosts handles) F :=
  Ends.modify fun loading h => h.update hchange loading.session

omit [Client σ] in
theorem ends_onClient {P : Loading σ → Prop} {step : LoadM σ α}
    (hstep : ∀ client, FailsWith Regular (step client).1)
    (hP : ∀ loading client, P loading →
      P { loading with loader := { loading.loader with client } }) :
    Ends P (onClient step) (fun _ => P) Regular := by
  intro loading h
  have hanswer := hstep loading.loader.client
  rw [onClient_apply]
  cases hresult : (step loading.loader.client).1 with
  | ok a => exact hP loading _ h
  | error e => exact hanswer e hresult

omit [Client σ] in
theorem ends_ask {step : LoadM σ α} (hstep : ∀ client, FailsWith Regular (step client).1) :
    Ends (Hosts handles) (onClient step) (fun _ => Hosts handles) Regular :=
  ends_onClient hstep fun _ _ h => h

omit [Client σ] in
theorem ends_reuse (name : String) :
    Ends (Hosts handles) (reuse name : LoadM (Loading σ) _) (fun _ => Hosts handles) Regular := by
  intro loading h
  rw [reuse_apply]
  cases loading.loader.modules.find? (·.name == name) with
  | none => exact h
  | some m =>
    have hused : ∀ m : Module, { m with useCount := m.useCount + 1 }.handle = m.handle := fun _ => rfl
    exact h.update hused _

omit [Client σ] in
theorem ends_reuseOwn (file : ObjectFile) :
    Ends (Hosts handles) (reuseOwn file : LoadM (Loading σ) _) (fun _ => Hosts handles) Regular := by
  unfold reuseOwn
  split
  · exact Ends.pure fun _ h => h
  · exact Ends.get_bind fun loading h =>
      Ends.throw_if nofun ((ends_reuse _).strengthen fun s hs => hs ▸ h)

omit [Client σ] in
theorem ends_newHandle {P : Loading σ → Prop} (hP : ∀ loading nextHandle, P loading →
      P { loading with loader := { loading.loader with nextHandle } }) :
    Ends P (onLoader Loader.newHandle) (fun _ => P) Regular := by
  intro loading h
  rw [newHandle_apply]
  by_cases hlast : loading.loader.nextHandle = Loader.lastHandle
  · rw [if_pos hlast]
    exact nofun
  · rw [if_neg hlast]
    exact hP loading _ h

omit [Client σ] in
theorem ends_addModule (file : ObjectFile) (requested : Option String) :
    Ends (Hosts handles) (addModule file requested : LoadM (Loading σ) _)
      (fun added => Hosts (added.1 :: handles)) Regular := by
  refine (ends_newHandle fun _ _ h => h).bind fun handle => ?_
  refine Ends.bind (R := fun _ => Hosts (handle :: handles)) (Ends.modify fun loading h => ?_)
    fun _ => Ends.pure fun _ h => h
  intro host hhost
  change host ∈ handlesOf (loading.loader.modules ++ _)
  rw [Module.handlesOf_append]
  rcases List.mem_cons.mp hhost with rfl | hold
  · exact List.mem_append_right _ (List.mem_singleton_self _)
  · exact List.mem_append_left _ (h host hold)

variable [Candid σ]

theorem ends_placeSegments (hhandle : handle ∈ handles) (image : Image) (file : ObjectFile) :
    Ends (Hosts handles) (placeSegments handle image file : LoadM (Loading σ) (List Bytes))
      (fun _ => Hosts handles) Regular := by
  refine (ends_resident fun _ h => h handle hhandle).bind fun _ => Ends.mapM fun header _ => ?_
  refine (ends_ask (Candid.allocate _)).bind fun allocation => ?_
  dsimp only
  split
  · refine Ends.bind (R := fun _ => Hosts handles) ?_ fun _ => Ends.throw nofun
    exact fun _ h => h
  · refine Ends.bind (R := fun _ => Hosts handles) ?_ fun _ => ends_ask (Candid.copy _ _)
    exact ends_modifyModule fun _ => rfl

omit [Client σ] [Candid σ] in
theorem ends_draftModule (hhandle : handle ∈ handles) (name : String) (file : ObjectFile)
    (staged : List Bytes) :
    Ends (Hosts handles) (draftModule handle name file staged : LoadM (Loading σ) Draft)
      (fun _ => Hosts handles) Regular := by
  refine (ends_resident fun _ h => h handle hhandle).bind fun m => ?_
  generalize Draft.ofPlaced handle name file m.segments staged = draft
  have hdescribe : ∀ m : Module, (describe draft m).handle = m.handle := fun _ => rfl
  refine (ends_modifyModule hdescribe).bind fun _ => ?_
  cases draft.claim? with
  | none => exact Ends.pure fun _ h => h
  | some claim =>
    refine Ends.get_bind fun loading h => ?_
    refine Ends.bind (R := fun _ s => s = loading)
      (Ends.ofExcept (Dsbt.failsWith_register _ _) fun _ _ _ hs => hs) fun dsbt => ?_
    exact Ends.bind (R := fun _ => Hosts handles) (fun s hs => h) fun _ => Ends.pure fun _ h => h

/-- A new module is there when its tables are read. -/
theorem ends_enter (image : Image) (requested : Option String) :
    Ends (Hosts handles) (enter image requested : LoadM (Loading σ) _)
      (fun entered loading => Hosts handles loading ∧ ∀ handle file draft,
        entered = .inr (handle, file, draft) → Hosts (handle :: handles) loading) Regular := by
  refine Ends.bind (R := fun _ => Hosts handles)
    (Ends.ofExcept ((ObjectFile.failsWith_read image).mono fun _ => LoadError.IsFormat.regular)
      fun _ _ _ h => h) fun file => ?_
  refine Ends.get_bind fun loading h => ?_
  refine Ends.bind (R := fun _ => Hosts handles)
    (Ends.ofExcept (Loader.failsWith_checkMachine _ _) fun _ _ _ hs => hs ▸ h) fun _ => ?_
  refine Ends.bind (R := fun _ => Hosts handles) (Ends.modify fun _ h => h) fun _ => ?_
  refine (ends_reuseOwn file).bind fun found => ?_
  cases found with
  | some handle => exact Ends.pure fun _ h => ⟨h, fun _ _ _ heq => nomatch heq⟩
  | none =>
    refine (ends_addModule file requested).bind fun ⟨handle, name⟩ => ?_
    refine (ends_placeSegments List.mem_cons_self image file).bind fun staged => ?_
    refine (ends_draftModule List.mem_cons_self name file staged).bind fun draft => ?_
    refine Ends.bind (R := fun _ => Hosts (handle :: handles)) (Ends.modify fun _ h => h) fun _ => ?_
    refine Ends.pure fun _ h => ⟨fun host hhost => h host (List.mem_cons_of_mem _ hhost), ?_⟩
    rintro _ _ _ ⟨⟩
    exact h

omit [Candid σ] in
theorem ends_need {load : String → Image → LoadM (Loading σ) Handle} (hhandle : handle ∈ handles)
    (hload : ∀ name image, Ends (Hosts handles) (load name image) (fun _ => Hosts handles) Regular)
    (name : String) :
    Ends (Hosts handles) (need handle load name) (fun _ => Hosts handles) Regular := by
  refine Ends.bind (R := fun _ => Hosts handles) ?_ fun found =>
    (ends_resident fun _ h => h handle hhandle).bind fun _ => ends_modifyModule fun _ => rfl
  refine Ends.get_bind fun loading h => Ends.throw_if nofun ?_
  refine ((ends_reuse name).strengthen fun s hs => hs ▸ h).bind fun found => ?_
  cases found with
  | some handle => exact Ends.pure fun _ h => h
  | none =>
    refine Ends.bind (R := fun _ => Hosts handles) (fun _ h => h) fun answer => ?_
    cases answer with
    | some image => exact hload name image
    | none => exact Ends.throw nofun

/-- Placing a module, with all that it needs, has no internal error. -/
theorem ends_loadModule (depth : Nat) (image : Image) (requested : Option String) :
    Ends (Hosts handles) (loadModule depth image requested : LoadM (Loading σ) Handle)
      (fun _ => Hosts handles) Regular := by
  induction depth generalizing handles image requested with
  | zero => exact Ends.throw nofun
  | succ depth ih =>
    rw [loadModule_succ]
    refine (ends_enter image requested).bind fun entered => ?_
    rcases entered with handle | ⟨handle, file, draft⟩
    · exact Ends.pure fun _ h => h.1
    · refine Ends.strengthen (P := Hosts (handle :: handles)) ?_ fun _ h => h.2 _ _ _ rfl
      refine (Ends.forM fun name _ => ends_need List.mem_cons_self
        (fun name image => ih image (some name)) name).bind fun _ => ?_
      refine Ends.bind (R := fun _ => Hosts (handle :: handles)) (Ends.modify fun _ h => h) fun _ => ?_
      exact Ends.pure fun _ h host hhost => h host (List.mem_cons_of_mem _ hhost)

theorem failsWith_place (loader : Loader σ) (image : Image) :
    FailsWith Regular (place image { loader }).1 := by
  refine Ends.failsWith (P := Hosts []) (Q := fun _ => Hosts []) ?_ nofun
  refine Ends.get_bind fun begun hbegun => ?_
  refine ((ends_loadModule _ image none).strengthen fun s hs => hs ▸ hbegun).bind fun root => ?_
  refine Ends.get_bind fun loading h => ?_
  split
  · exact Ends.pure fun s hs => hs ▸ h
  · refine Ends.bind (R := fun _ => Hosts []) ?_ fun _ => Ends.pure fun _ h => h
    exact (ends_newHandle fun _ _ h => h).strengthen fun s hs => hs ▸ h

/-! ## When the graph is placed -/

omit [Client σ] [Candid σ] in
theorem Drafting.mem_handlesOf {loading : Loading σ} (h : Drafting [] loading) {draft : Draft}
    (hdraft : draft ∈ loading.session.pending) : draft.handle ∈ handlesOf loading.loader.modules := by
  have houtline : draft.outline ∈ loading.drafted ++ [] :=
    List.mem_append_left _ (List.mem_map_of_mem hdraft)
  obtain ⟨m, hm, hsame⟩ := List.mem_map.mp (h.matched _ houtline)
  have hhandle : m.handle = draft.handle := congrArg (·.handle) hsame
  exact hhandle ▸ Module.handle_mem hm

theorem failsWith_writeTables (loading : Loading σ) : FailsWith Regular (writeTables loading).1 := by
  refine Ends.failsWith_of_eq ?_
  refine Ends.get_bind fun loading _ => ?_
  unfold Dsbt.updateAll
  split
  · exact Ends.throw nofun
  · refine Ends.strengthen (P := fun _ => True) (Ends.forM fun entry _ => ?_) fun _ _ => trivial
    refine Ends.get_bind fun loading _ => ?_
    dsimp only
    split
    · exact Ends.modify fun _ _ => trivial
    · exact (ends_onClient (Candid.write _ _) fun _ _ h => h).strengthen fun _ _ => trivial

omit [Client σ] [Candid σ] in
theorem failsWith_stageDynamics {loading : Loading σ} (h : Drafting [] loading) :
    FailsWith Regular (stageDynamics loading).1 := by
  refine Ends.failsWith_of_eq ?_
  refine Ends.get_bind fun s hs => ?_
  refine Ends.bind (R := fun _ => (· = s)) (Ends.mapM fun draft hdraft => ?_) fun _ =>
    Ends.modify fun _ _ => trivial
  split
  · refine (ends_resident fun t ht => ?_).bind fun _ => Ends.pure fun _ ht => ht
    obtain rfl : t = s := ht
    obtain rfl : t = loading := hs
    exact h.mem_handlesOf hdraft
  · exact Ends.pure fun _ ht => ht

theorem failsWith_ready {ledger : Ledger σ} {loader : Loader σ} (hsound : loader.Sound ledger)
    (image : Image) : FailsWith Regular (ready image { loader }).1 := by
  refine Ends.failsWith_of_eq ?_
  have hplaced := ((place_triple hsound image).weaken (fun _ _ h => h.2) fun _ _ => trivial :
    Triple _ _ (fun _ => Drafting []) fun _ => True)
  refine (Ends.of_triple hplaced fun s hs => hs ▸ failsWith_place loader image).bind fun placed => ?_
  have hkeep {step : LoadM (Loading σ) Unit} (h : Within Restaged step) :
      Triple (Drafting []) step (fun _ => Drafting []) fun _ => True :=
    h.triple (fun _ _ h hrestaged => h.restaged hrestaged) fun _ _ => trivial
  refine Ends.bind (R := fun _ => Drafting []) ?_ fun _ => Ends.pure fun _ _ => trivial
  refine Ends.bind (Ends.of_triple (hkeep restaged_bindSlots) fun _ _ => FailsWith.ok) fun _ => ?_
  refine Ends.bind (Ends.of_triple (hkeep restaged_writeTables) fun loading _ =>
    failsWith_writeTables loading) fun _ => ?_
  refine Ends.bind (Ends.of_triple (hkeep restaged_stageDynamics) fun _ h =>
    failsWith_stageDynamics h) fun _ => ?_
  exact Ends.modify fun _ h => h.restaged ⟨rfl, rfl, fun _ => rfl⟩

/-! ## While the modules are completed -/

variable {modules : List Module} {app : Option Handle}

omit [Client σ] [Candid σ] in
theorem ends_settled {step : LoadM σ α} (hstep : ∀ client, FailsWith Regular (step client).1)
    (hF : ∀ e, Regular e → F e) :
    Ends (Settled modules app) (onClient step) (fun _ => Settled modules app) F :=
  (ends_onClient hstep fun _ _ h => h).weaken (fun _ _ h => h) hF

theorem ends_writeSegments {draft : Draft} (hresident : draft.handle ∈ handlesOf modules)
    (hF : ∀ e, Regular e → F e) :
    Ends (Settled modules app) (writeSegments draft : LoadM (Loading σ) Unit)
      (fun _ => Settled modules app) F := by
  refine (ends_resident fun loading h => ?_).bind fun m => Ends.forM fun entry _ => ?_
  · rw [h.1]
    exact hresident
  · exact ends_settled (Candid.write _ _) hF

/-- Relocating a module is the one place where an internal error is left. -/
theorem ends_relocateAndWrite {draft : Draft} (hdistinct : (handlesOf modules).Nodup)
    (hmatched : ∃ m ∈ modules, m.outline = draft.outline)
    (hF : ∀ e, Regular e → F e)
    (hlacks : ∀ e, draft.file.isRelocatable → draft.file.LacksAddend e → F e) :
    Ends (Settled modules app) (relocateAndWrite draft : LoadM (Loading σ) Unit)
      (fun _ => Settled modules app) F := by
  obtain ⟨m, hm, houtline⟩ := hmatched
  have hhandle : m.handle = draft.handle := congrArg (·.handle) houtline
  have hresident : draft.handle ∈ handlesOf modules := hhandle ▸ Module.handle_mem hm
  unfold relocateAndWrite
  split
  · rename_i hrelocatable
    refine Ends.get_bind fun loading hsettled => ?_
    obtain ⟨rfl, rfl⟩ := hsettled
    have hfails := Draft.failsWith_relocate (hhandle ▸ Module.find?_of_mem hdistinct hm)
      (congrArg (·.segments) houtline).symm loading.loader.app
    refine Ends.bind (R := fun relocated s => relocated.1.handle = draft.handle ∧ s = loading)
      (Ends.ofExcept (hfails.mono fun e he => he.elim (hF e) (hlacks e hrelocatable)) ?_)
      fun relocated => ?_
    · rintro ⟨done, applied⟩ s hdone hs
      obtain ⟨staged, -, rfl⟩ := Draft.exists_staged_of_relocate hdone
      exact ⟨rfl, hs⟩
    · rintro s ⟨hsame, rfl⟩
      exact ends_writeSegments (hsame ▸ hresident) hF s ⟨rfl, rfl⟩
  · exact ends_writeSegments hresident hF

theorem failsWith_runArray (array : AddressArray) (order : ByteOrder) (reverse : Bool) (client : σ) :
    FailsWith Regular (Loader.runArray array order reverse client).1 := by
  refine Ends.failsWith_of_eq ?_
  refine (Ends.of_failsWith fun s _ => Candid.read _ _ s).bind fun bytes => ?_
  exact Ends.forM fun address _ => Ends.of_failsWith fun s _ => Candid.execute address s

theorem ends_runArray? (array : Option AddressArray) (order : ByteOrder)
    (hF : ∀ e, Regular e → F e) :
    Ends (Settled modules app) (runArray? array order : LoadM (Loading σ) Unit)
      (fun _ => Settled modules app) F := by
  cases array with
  | some array => exact ends_settled (failsWith_runArray array order false) hF
  | none => exact Ends.pure fun _ h => h

theorem ends_runInitializers (root : Handle) (arguments : List String) (draft : Draft)
    (hF : ∀ e, Regular e → F e) :
    Ends (Settled modules app) (runInitializers root arguments draft : LoadM (Loading σ) Unit)
      (fun _ => Settled modules app) F := by
  rw [runInitializers_eq]
  refine Ends.bind (R := fun _ => Settled modules app) ?_ fun _ =>
    Ends.bind (R := fun _ => Settled modules app) ?_ fun _ => ends_runArray? _ _ hF
  · unfold passArguments writeArguments
    split
    · split
      · refine Ends.bind (R := fun _ => Settled modules app)
          (Ends.ofExcept ((Arguments.failsWith_encode _ _ _ _).mono hF) fun _ _ _ h => h) fun block => ?_
        exact ends_settled (Candid.write _ _) hF
      · exact Ends.pure fun _ h => h
    · exact Ends.pure fun _ h => h
  · unfold runInit
    split
    · exact ends_settled (Candid.execute _) hF
    · exact Ends.pure fun _ h => h

/-- What an internal error of a load tells: one of its files lacks an addend. -/
theorem ends_complete {before : List Module} {pending : List Draft} (root : Handle)
    (arguments : List String) (hdistinct : (handlesOf modules).Nodup)
    (horder : InOrder before modules pending) :
    Ends (Settled modules app) (complete root arguments pending : LoadM (Loading σ) Unit)
      (fun _ => Settled modules app)
      fun e => Regular e ∨ ∃ draft ∈ pending, draft.file.isRelocatable ∧ draft.file.LacksAddend e := by
  have hregular (e : LoadError) (h : Regular e) : Regular e ∨
      ∃ draft ∈ pending, draft.file.isRelocatable ∧ draft.file.LacksAddend e :=
    Or.inl h
  refine (Ends.forM fun draft hdraft => ?_).bind fun _ =>
    (Ends.forM fun draft _ => ends_runArray? _ _ hregular).bind fun _ =>
      Ends.forM fun draft _ => ends_runInitializers root arguments draft hregular
  exact ends_relocateAndWrite hdistinct (horder.matched draft hdraft) hregular
    fun e hrelocatable hlacks => Or.inr ⟨draft, hdraft, hrelocatable, hlacks⟩

end Loading

namespace Loader

variable [Client σ] [Candid σ] {loader : Loader σ} {ledger : Ledger σ}

open Loading in
theorem failsWith_load (hsound : loader.Sound ledger) (image : Image) (arguments : List String) :
    FailsWith (fun e => Regular e ∨ ∃ draft ∈ (ready image { loader }).2.session.pending,
        draft.file.isRelocatable ∧ draft.file.LacksAddend e)
      (loader.load image arguments).1 := by
  have hready := failsWith_ready hsound image
  have horder := ready_inOrder hsound image { loader } rfl
  have hdistinct := ready_triple hsound image { loader } rfl
  rw [load_apply]
  rcases hrun : ready image { loader } with ⟨e | ⟨root, handle⟩, middle⟩ <;>
    rw [hrun] at hready horder hdistinct
  · exact FailsWith.error (Or.inl (hready e rfl))
  · have hcomplete : FailsWith _ (complete root arguments middle.session.pending middle).1 :=
      (ends_complete root arguments hdistinct.distinct horder).failsWith ⟨rfl, rfl⟩
    dsimp only
    rcases hdone : complete root arguments middle.session.pending middle with ⟨e | ⟨⟩, after⟩ <;>
      rw [hdone] at hcomplete
    · exact FailsWith.error (hcomplete e rfl)
    · exact FailsWith.ok

omit [Client σ] [Candid σ] in
theorem failsWith_loadSymbolsOnly (loader : Loader σ) (image : Image) :
    FailsWith Regular (loader.loadSymbolsOnly image).1 := by
  refine Ends.failsWith_of_eq ?_
  refine Ends.bind (R := fun _ _ => True)
    (Ends.ofExcept ((ObjectFile.failsWith_read image).mono fun _ => LoadError.IsFormat.regular)
      fun _ _ _ _ => trivial) fun file => ?_
  refine Ends.get_bind fun s _ => ?_
  refine Ends.bind (R := fun _ _ => True)
    (Ends.ofExcept (failsWith_checkMachine _ _) fun _ _ _ _ => trivial) fun _ => ?_
  refine (Ends.of_failsWith fun t _ => ?_).bind fun handle => Ends.bind (R := fun _ _ => True)
    (Ends.modify fun _ _ => trivial) fun _ => Ends.pure fun _ _ => trivial
  rw [newHandle_apply]
  split
  · exact FailsWith.error nofun
  · exact FailsWith.ok

omit [Candid σ] in
theorem failsWith_unload (hsound : loader.Sound ledger) (handle : Handle) :
    FailsWith Regular (loader.unload handle).1 := by
  cases hlookup : loader.handles.lookup handle with
  | none =>
    rw [unload_unknown hlookup]
    exact FailsWith.error nofun
  | some root =>
    obtain ⟨left, gone, steps, after, hrun, -⟩ := unload_eq hsound hlookup
    rw [hrun]
    exact FailsWith.ok

/-- After any run of a candid client an internal error of a load tells that a C6000 file of the load
leaves the addend of a relocation to its cell.  Nothing else has an internal error. -/
theorem run_internal (client : σ) (policy : LookupPolicy) (requests : List (Request σ)) :
    let loader := (fresh client policy).run requests
    (∀ image arguments fault, (loader.load image arguments).1 = .error (.internal fault) →
      ∃ draft ∈ (Loading.ready image { loader }).2.session.pending,
        draft.file.isRelocatable ∧ draft.file.LacksAddend (.internal fault)) ∧
    (∀ image, FailsWith Regular (loader.loadSymbolsOnly image).1) ∧
    ∀ handle, FailsWith Regular (loader.unload handle).1 := by
  intro loader
  have hsound : loader.Sound Ledger.blank := run_blank_sound client policy requests
  refine ⟨fun image arguments fault hload => ?_, failsWith_loadSymbolsOnly loader,
    failsWith_unload hsound⟩
  exact (failsWith_load hsound image arguments _ hload).resolve_left fun hregular => hregular fault rfl

/-- A C6000 file with a relocation that has no addend. -/
def withoutAddend : SampleObject where
  machine := 140
  data := [0]
  symbols := [(3, SampleObject.dataOffset, 0x00010011)]
  rel := [(SampleObject.dataOffset, 0x101)]
  names := [[0x61], [0x66]]

/-- The load of such a file fails with the one internal error that is left. -/
theorem run_internal_of_rel :
    let loader := (fresh ({} : SimulatedTarget) .direct).run []
    (loader.load withoutAddend.image []).1 = .error (.internal (.storedAddend "R_C6000_ABS32")) ∧
    ∃ draft ∈ (Loading.ready withoutAddend.image { loader }).2.session.pending,
      draft.file.isRelocatable ∧
      draft.file.LacksAddend (.internal (.storedAddend "R_C6000_ABS32")) := by
  have hload : ((fresh ({} : SimulatedTarget) .direct).load withoutAddend.image []).1 =
      .error (.internal (.storedAddend "R_C6000_ABS32")) := by decide +kernel
  exact ⟨hload, (run_internal ({} : SimulatedTarget) .direct []).1 _ _ _ hload⟩

end Loader

end TargetLink
