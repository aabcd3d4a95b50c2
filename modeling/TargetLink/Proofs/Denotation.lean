import TargetLink.Proofs.Bindings
import TargetLink.Proofs.Turns

/-!
# What a handle denotes

One counter gives handles to modules and to the loads that find a module resident.  A handle of the
second kind is an alias: it leads to its module as long as it can be given up, and to nothing
afterwards, since no module has it for its own (`Loader.Owned`).  Handles that were seen once, if only
while a load was about to fail, are below the counter from then on (`Loader.seen_below`).  So no handle
is given out twice, and none comes to denote another module (`Loader.run_denotes`).
-/

namespace TargetLink

open TargetLink.Module (handlesOf)

theorem Except.eq_ok_of_toOption {ε α : Type} {result : Except ε α} {a : α}
    (h : result.toOption = some a) : result = .ok a := by
  cases result with
  | error e => cases h
  | ok b => exact congrArg Except.ok (Option.some.inj h)

namespace Loading

variable {σ : Type} [Client σ]

/-- Undoing a load does not give its handles back. -/
theorem nextHandle_abort (loading : Loading σ) :
    loading.abort.nextHandle = loading.loader.nextHandle := by
  have hdrop (reused : List Handle) (loader : Loader σ) :
      (reused.foldl dropReuse loader).nextHandle = loader.nextHandle := by
    induction reused generalizing loader with
    | nil => rfl
    | cons handle reused ih => exact ih (dropReuse loader handle)
  have hdiscard (created : List Handle) (loader : Loader σ) :
      (created.foldl discard loader).nextHandle = loader.nextHandle := by
    induction created generalizing loader with
    | nil => rfl
    | cons handle created ih =>
      rw [List.foldl_cons, ih, discard, Loader.withoutApp_nextHandle]
      cases Module.find? loader.modules handle <;> rfl
  exact (hdrop _ _).trans (hdiscard _ _)

end Loading

namespace Loader

variable {σ : Type}

/-! ## The modules that handles lead to -/

/-- A handle that is given out and a module's own are not mixed up: no module has an alias. -/
def Owned (loader : Loader σ) : Prop :=
  ∀ entry ∈ loader.handles, entry.1 ∈ handlesOf loader.modules → entry.2 = entry.1

theorem module?_eq_some {loader : Loader σ} {handle : Handle} {m : Module}
    (h : loader.module? handle = some m) :
    m ∈ loader.modules ∧ ((handle, m.handle) ∈ loader.handles ∨ m.handle = handle) := by
  obtain ⟨hm, hhandle⟩ := Module.mem_of_find? h
  refine ⟨hm, ?_⟩
  cases hlookup : loader.handles.lookup handle with
  | none =>
    rw [hlookup] at hhandle
    exact Or.inr hhandle
  | some root =>
    obtain ⟨before, after, heq, -⟩ := List.lookup_eq_some_iff.mp hlookup
    rw [hlookup] at hhandle
    refine Or.inl ?_
    rw [heq, hhandle]
    simp

variable {before after : Loader σ}

theorem Persists.owned (h : Persists before after) (hbefore : before.Owned)
    (hnew : ∀ entry ∈ after.handles, before.nextHandle ≤ entry.1 →
      entry.1 ∈ handlesOf after.modules → entry.2 = entry.1) : after.Owned := by
  intro entry hentry hmem
  by_cases hold : before.nextHandle ≤ entry.1
  · exact hnew entry hentry hold hmem
  · have hlt := UInt32.not_le.mp hold
    obtain ⟨m, hm, hhandle⟩ := Module.exists_of_mem_handlesOf hmem
    obtain ⟨n, hn, hsame⟩ := h.kept m hm (hhandle ▸ hlt)
    have hresident : n.handle = entry.1 := (congrArg (·.handle) hsame).trans hhandle
    exact hbefore entry (h.entries entry hentry hlt) (hresident ▸ Module.handle_mem hn)

/-- A handle that leads to a module before and after leads to the same one. -/
theorem Persists.module?_eq {held : List Handle} (h : Persists before after)
    (hbefore : before.Accounted held) (howned : before.Owned) {handle : Handle} {m n : Module}
    (hm : before.module? handle = some m) (hn : after.module? handle = some n) :
    n.uncounted = m.uncounted := by
  obtain ⟨hmem, hleads⟩ := module?_eq_some hm
  obtain ⟨hmem', hleads'⟩ := module?_eq_some hn
  have hold : handle < before.nextHandle := by
    rcases hleads with hentry | rfl
    · exact hbefore.keys_below _ hentry
    · exact hbefore.below m hmem
  suffices hhandle : m.handle = n.handle from (h.uncounted_eq hbefore hmem hmem' hhandle).symm
  rcases hleads' with hentry' | rfl
  · have hkept := h.entries _ hentry' hold
    rcases hleads with hentry | rfl
    · exact congrArg Prod.snd (List.inj_on_of_nodup_map hbefore.keys hentry hkept rfl)
    · exact (howned _ hkept (Module.handle_mem hmem)).symm
  · -- The handle is the module's own now, so it was its own before.
    rcases hleads with hentry | heq
    · obtain ⟨k, hk, hsame⟩ := h.kept n hmem' hold
      have hresident : k.handle = n.handle := congrArg (·.handle) hsame
      exact howned _ hentry (hresident ▸ Module.handle_mem hk)
    · exact heq

variable [Client σ] {loader : Loader σ} {ledger : Ledger σ}

theorem owned_serve (hsound : loader.Sound ledger) (howned : loader.Owned) (request : Request σ) :
    (loader.serve request).Owned := by
  have houtcome := serve_outcome hsound request
  have hold : ∀ entry ∈ loader.handles, ¬loader.nextHandle ≤ entry.1 := fun entry hentry =>
    UInt32.not_le.mpr (hsound.accounted.keys_below entry hentry)
  refine houtcome.persists.owned howned fun entry hentry hnew hmem => ?_
  generalize loader.serve request = after at *
  cases houtcome with
  | loaded _ hgrown =>
    obtain ⟨root, hhandles, hown⟩ := hgrown.handles
    rcases List.mem_cons.mp (hhandles ▸ hentry) with rfl | hentry
    · exact (hown hmem).symm
    · exact absurd hnew (hold entry hentry)
  | failed hrestored => exact absurd hnew (hold entry (hrestored.handles ▸ hentry))
  | registered h =>
    obtain ⟨-, -, m, -, -, rfl⟩ := h
    rcases List.mem_cons.mp hentry with rfl | hentry
    · rfl
    · exact absurd hnew (hold entry hentry)
  | unloaded hleaves =>
    exact absurd hnew (hold entry (List.mem_filter.mp (hleaves.handles ▸ hentry)).1)
  | refused => exact absurd hnew (hold entry hentry)
  | changed => exact absurd hnew (hold entry hentry)

theorem owned_run (hsound : loader.Sound ledger) (howned : loader.Owned)
    {requests : List (Request σ)} (hfair : ∀ request ∈ requests, Fair ledger request) :
    (loader.run requests).Owned :=
  run_keeps hsound hfair (fun request _ _ hsound howned => owned_serve hsound howned request) howned

/-! ## The handles that a run shows -/

/-- The handle that a request answers with. -/
def answer? (loader : Loader σ) : Request σ → Option Handle
  | .load image arguments => (loader.load image arguments).1.toOption
  | .loadSymbolsOnly image => (loader.loadSymbolsOnly image).1.toOption
  | .unload _ | .client _ => none

/-- The handles of all modules that are resident at some moment of a request, also of those that a load
places before it fails. -/
def lodged (loader : Loader σ) : Request σ → List Handle
  | .load image arguments =>
    handlesOf (Loading.loadGraph image arguments { loader }).2.loader.modules
  | .loadSymbolsOnly image => handlesOf (loader.loadSymbolsOnly image).2.modules
  | .unload _ | .client _ => handlesOf loader.modules

/-- The handles that a run answers with and those of the modules that are resident meanwhile. -/
def seen (loader : Loader σ) : List (Request σ) → List Handle
  | [] => []
  | request :: requests =>
    (loader.answer? request).toList ++ loader.lodged request ++ (loader.serve request).seen requests

theorem nextHandle_load (image : Image) (arguments : List String) :
    (loader.load image arguments).2.nextHandle =
      (Loading.loadGraph image arguments { loader }).2.loader.nextHandle := by
  unfold load
  rcases Loading.loadGraph image arguments { loader } with ⟨e | handle, loading⟩
  · exact Loading.nextHandle_abort loading
  · rfl

theorem lodged_below (hsound : loader.Sound ledger) (request : Request σ) :
    ∀ handle ∈ loader.lodged request, handle < (loader.serve request).nextHandle := by
  intro handle hhandle
  have hnext := (persists_serve hsound request).nextHandle
  cases request with
  | load image arguments =>
    obtain ⟨m, hm, rfl⟩ := Module.exists_of_mem_handlesOf hhandle
    rw [serve, nextHandle_load]
    refine Loading.loadGraph_keeps (P := fun loading => ∀ m ∈ loading.loader.modules,
      m.handle < loading.loader.nextHandle) image arguments Loading.Turn.below ?_
      hsound.accounted.below m hm
    intro s t hstanding hs
    have hmodules : t.loader.modules = s.loader.modules := congrArg (·.1) hstanding
    have hcounter : t.loader.nextHandle = s.loader.nextHandle := congrArg (·.2.1) hstanding
    rwa [hmodules, hcounter]
  | loadSymbolsOnly image =>
    exact (loadSymbolsOnly_sound hsound image).accounted.handle_below hhandle
  | unload => exact UInt32.lt_of_lt_of_le (hsound.accounted.handle_below hhandle) hnext
  | client => exact hsound.accounted.handle_below hhandle

/-- A request answers with a handle that was not taken before. -/
theorem answer_fresh (hsound : loader.Sound ledger) {request : Request σ} {handle : Handle}
    (hanswer : loader.answer? request = some handle) :
    loader.nextHandle ≤ handle ∧ handle < (loader.serve request).nextHandle := by
  cases request with
  | load image arguments =>
    have hgrown := load_ok hsound (Except.eq_ok_of_toOption hanswer)
    obtain ⟨root, hhandles, -⟩ := hgrown.handles
    exact ⟨hgrown.new, hgrown.accounted.keys_below (handle, root) (hhandles ▸ List.mem_cons_self)⟩
  | loadSymbolsOnly image =>
    obtain ⟨-, hlast, rfl, m, -, -, hafter⟩ :=
      loadSymbolsOnly_ok hsound (Except.eq_ok_of_toOption hanswer)
    rw [serve, hafter]
    exact ⟨UInt32.le_refl _, lt_add_one hlast⟩
  | unload => cases hanswer
  | client => cases hanswer

/-- The counter is above every handle that was seen. -/
theorem seen_below (hsound : loader.Sound ledger) {requests : List (Request σ)}
    (hfair : ∀ request ∈ requests, Fair ledger request) :
    ∀ handle ∈ loader.seen requests, handle < (loader.run requests).nextHandle := by
  induction requests generalizing loader with
  | nil => exact fun _ hnone => nomatch hnone
  | cons request requests ih =>
    intro handle hhandle
    obtain ⟨hfirst, hrest⟩ := List.forall_mem_cons.mp hfair
    have hserved := serve_sound hsound hfirst
    rcases List.mem_append.mp hhandle with hhandle | hlater
    · refine UInt32.lt_of_lt_of_le ?_ (persists_run hserved hrest).nextHandle
      rcases List.mem_append.mp hhandle with hanswer | hlodged
      · exact (answer_fresh hsound (Option.mem_toList.mp hanswer)).2
      · exact lodged_below hsound request handle hlodged
    · exact ih hserved hrest handle hlater

/-- After any run of any client a request never answers with a handle that was seen before.  And whenever
a handle leads to a module at two moments, it leads to the same one, which was resident all the time
between them. -/
theorem run_denotes (client : σ) (policy : LookupPolicy) (requests : List (Request σ)) :
    let loader := (fresh client policy).run requests
    (∀ request handle, loader.answer? request = some handle →
      handle ∉ (fresh client policy).seen requests) ∧
    ∀ later handle m n, loader.module? handle = some m → (loader.run later).module? handle = some n →
      n.uncounted = m.uncounted ∧
        ∀ between, between <+: later → ∃ k ∈ (loader.run between).modules, k.uncounted = m.uncounted := by
  intro loader
  have hfair (requests : List (Request σ)) : ∀ request ∈ requests, Fair Ledger.blank request :=
    fun request _ => fair_blank request
  have hfresh : (fresh client policy).Sound Ledger.blank := fresh_sound policy trivial
  have hsound : loader.Sound Ledger.blank := run_blank_sound client policy requests
  have howned : loader.Owned := by
    refine owned_run hfresh ?_ (hfair requests)
    simp [Owned, fresh]
  constructor
  · intro request handle hanswer hseen
    exact UInt32.not_le.mpr (seen_below hfresh (hfair requests) handle hseen)
      (answer_fresh hsound hanswer).1
  · intro later handle m n hm hn
    have hsame := (persists_run hsound (hfair later)).module?_eq hsound.accounted howned hm hn
    refine ⟨hsame, ?_⟩
    rintro between ⟨rest, rfl⟩
    have hmiddle : (loader.run between).Sound Ledger.blank := run_sound hsound (hfair between)
    have hlast : (loader.run (between ++ rest)) = (loader.run between).run rest := List.foldl_append
    rw [hlast] at hn
    obtain ⟨k, hk, hkept⟩ := (persists_run hmiddle (hfair rest)).kept n (module?_eq_some hn).1 <| by
      have hhandle : n.handle = m.handle := congrArg (·.handle) hsame
      rw [hhandle]
      exact UInt32.lt_of_lt_of_le (hsound.accounted.below m (module?_eq_some hm).1)
        (persists_run hsound (hfair between)).nextHandle
    exact ⟨k, hk, hkept.trans hsame⟩

/-- Requests after which handle 3 is an alias of module 2, which module 1 needs, and handle 4 was lost
by a load that failed. -/
def aliasing : List (Request SimulatedTarget) :=
  [.load boundNeeding.image [], .load boundProvider.image [],
    .load { boundNeeding with names := [[0x63], [0x66], [0x64]] : SampleObject }.image [],
    .loadSymbolsOnly bareImage]

/-- The alias leads to no module any more once it was given up, and module 2 stays. -/
theorem run_denotes_of_alias :
    let loader := (fresh providing .direct).run aliasing
    (loader.answer? (.load boundProvider.image []) = some 6 ∧
      (6 : Handle) ∉ (fresh providing .direct).seen aliasing) ∧
    (loader.run [.unload 3]).module? 3 = none ∧
    ∃ m n, loader.module? 2 = some m ∧ (loader.run [.unload 3]).module? 2 = some n ∧
      n.uncounted = m.uncounted := by
  obtain ⟨hnew, hsame⟩ := run_denotes providing .direct aliasing
  have hanswer : ((fresh providing .direct).run aliasing).answer? (.load boundProvider.image []) =
      some 6 := by
    decide +kernel
  have hbefore : (((fresh providing .direct).run aliasing).module? 2).isSome := by decide +kernel
  have hafter : ((((fresh providing .direct).run aliasing).run [.unload 3]).module? 2).isSome := by
    decide +kernel
  obtain ⟨m, hm⟩ := Option.isSome_iff_exists.mp hbefore
  obtain ⟨n, hn⟩ := Option.isSome_iff_exists.mp hafter
  refine ⟨⟨hanswer, hnew _ 6 hanswer⟩, by decide +kernel, m, n, hm, hn, ?_⟩
  exact (hsame [.unload 3] 2 m n hm hn).1

end Loader

end TargetLink
