import TargetLink.Proofs.Runs
import TargetLink.Proofs.Searching

/-!
# What requests leave of the resident modules

No request changes a resident module in anything but its use count, and no handle is given out a second
time.  So a module that is there with a handle that was taken before was there before, and a handle
that was given out before leads where it led (`Loader.Persists`).  A module stays as long as one that
leads to it (`Loader.Persists.resident_of_leads`).
-/

namespace TargetLink

open TargetLink.Module (handlesOf)

namespace Loader

variable {σ : Type}

/-- The modules that are still there are as they were but for their use counts, handles that can still
be given up lead where they led, and no handle is given out again. -/
structure Persists (before after : Loader σ) : Prop where
  nextHandle : before.nextHandle ≤ after.nextHandle
  kept : ∀ m ∈ after.modules, m.handle < before.nextHandle →
    ∃ n ∈ before.modules, n.uncounted = m.uncounted
  entries : ∀ entry ∈ after.handles, entry.1 < before.nextHandle → entry ∈ before.handles

instance : IsPreorder (Loader σ) Persists where
  refl _ := ⟨UInt32.le_refl _, fun m hm _ => ⟨m, hm, rfl⟩, fun _ hentry _ => hentry⟩
  trans _ _ _ hfirst hsecond := by
    refine ⟨UInt32.le_trans hfirst.nextHandle hsecond.nextHandle, fun m hm hold => ?_,
      fun entry hentry hold => ?_⟩
    · obtain ⟨n, hn, hsame⟩ := hsecond.kept m hm (UInt32.lt_of_lt_of_le hold hfirst.nextHandle)
      have hhandle : n.handle = m.handle := congrArg (·.handle) hsame
      obtain ⟨o, ho, hsame'⟩ := hfirst.kept n hn (hhandle ▸ hold)
      exact ⟨o, ho, hsame'.trans hsame⟩
    · exact hfirst.entries entry
        (hsecond.entries entry hentry (UInt32.lt_of_lt_of_le hold hfirst.nextHandle)) hold

namespace Persists

variable {before after : Loader σ}

/-- A module that is still there is the one that had its handle. -/
theorem uncounted_eq {held : List Handle} (h : Persists before after)
    (hbefore : before.Accounted held) {m n : Module} (hn : n ∈ before.modules)
    (hm : m ∈ after.modules) (hhandle : n.handle = m.handle) : n.uncounted = m.uncounted := by
  obtain ⟨n', hn', hsame⟩ := h.kept m hm (hhandle ▸ hbefore.below n hn)
  obtain rfl : n' = n := Module.eq_of_handle_eq hbefore.distinct hn' hn
    ((congrArg (·.handle) hsame).trans hhandle.symm)
  exact hsame

end Persists

theorem find?_graph {modules : List Module} (hdistinct : (handlesOf modules).Nodup) {m : Module}
    (hm : m ∈ modules) : (Module.graph modules).find? m.handle = some m.node := by
  rw [Module.find?_graph_eq, Module.find?_of_mem hdistinct hm, Option.map_some]

theorem dependencies_graph {modules : List Module} (hdistinct : (handlesOf modules).Nodup)
    {m : Module} (hm : m ∈ modules) :
    (Module.graph modules).dependencies m.handle = m.dependencies :=
  Module.dependencies_graph_of_find? (Module.find?_of_mem hdistinct hm)

/-- A module stays as long as one that leads to it. -/
theorem Persists.resident_of_leads {before after : Loader σ} {held held' : List Handle}
    (h : Persists before after) (hbefore : before.Accounted held) (hafter : after.Accounted held')
    {handle needed : Handle}
    (hleads : (Module.graph before.modules).Leads handle needed)
    (hold : handle ∈ handlesOf before.modules) (hresident : handle ∈ handlesOf after.modules) :
    needed ∈ handlesOf after.modules := by
  suffices hboth : needed ∈ handlesOf before.modules ∧ needed ∈ handlesOf after.modules from hboth.2
  induction hleads with
  | refl => exact ⟨hold, hresident⟩
  | tail _ hedge ih =>
    obtain ⟨n, hn, rfl⟩ := Module.exists_of_mem_handlesOf ih.1
    obtain ⟨m, hm, hhandle⟩ := Module.exists_of_mem_handlesOf ih.2
    have hneeds : n.dependencies = m.dependencies :=
      congrArg (·.dependencies) (h.uncounted_eq hbefore hn hm hhandle.symm)
    rw [dependencies_graph hbefore.distinct hn] at hedge
    constructor
    · exact hbefore.needed_resident (List.mem_flatMap.mpr ⟨n, hn, hedge⟩)
    · exact hafter.needed_resident (List.mem_flatMap.mpr ⟨m, hm, hneeds ▸ hedge⟩)

variable [Client σ] {loader : Loader σ}

omit [Client σ] in
/-- New modules behind old ones that gained references leave the old ones alone. -/
theorem persists_of_raised {loaded : Loader σ} {reused : List Handle} {new : List Module}
    (hnext : loader.nextHandle ≤ loaded.nextHandle)
    (hmodules : loaded.modules = loader.modules.map (Loading.raised reused) ++ new)
    (hnew : ∀ m ∈ new, loader.nextHandle ≤ m.handle)
    (hentries : ∀ entry ∈ loaded.handles, entry.1 < loader.nextHandle → entry ∈ loader.handles) :
    Persists loader loaded := by
  refine ⟨hnext, fun m hm hold => ?_, hentries⟩
  rw [hmodules] at hm
  rcases List.mem_append.mp hm with hm | hm
  · obtain ⟨n, hn, rfl⟩ := List.mem_map.mp hm
    exact ⟨n, hn, rfl⟩
  · exact absurd (hnew m hm) (UInt32.not_le.mpr hold)

theorem Grown.persists {ledger : Ledger σ} {handle : Handle} {loaded : Loader σ}
    (h : Grown ledger loader handle loaded) : Persists loader loaded := by
  obtain ⟨reused, new, hmodules, hnew⟩ := h.modules
  obtain ⟨root, hhandles, -⟩ := h.handles
  refine persists_of_raised h.nextHandle hmodules hnew fun entry hentry hold => ?_
  rw [hhandles] at hentry
  rcases List.mem_cons.mp hentry with rfl | hentry
  · exact absurd h.new (UInt32.not_le.mpr hold)
  · exact hentry

/-- So it is at every moment of a load. -/
theorem persists_of_books {ledger : Ledger σ} {extra : Multiset Allocation} {loading : Loading σ}
    (h : Loading.Books ledger loader extra loading) : Persists loader loading.loader := by
  obtain ⟨new, hmodules, hcreated⟩ := h.modules
  refine persists_of_raised h.nextHandle hmodules (fun m hm => ?_) fun entry hentry _ =>
    h.handles ▸ hentry
  exact h.created m.handle (hcreated ▸ Module.handle_mem hm)

theorem Outcome.persists {ledger : Ledger σ} {request : Request σ} {after : Loader σ}
    (h : Outcome ledger loader request after) : Persists loader after := by
  cases h with
  | loaded _ hgrown => exact hgrown.persists
  | failed hrestored =>
    exact ⟨hrestored.nextHandle, fun m hm _ => ⟨m, hrestored.modules ▸ hm, rfl⟩,
      fun entry hentry _ => hrestored.handles ▸ hentry⟩
  | registered h =>
    obtain ⟨hlast, -, new, hnew, -, rfl⟩ := h
    refine ⟨UInt32.le_of_lt (lt_add_one hlast), fun m hm hold => ?_, fun entry hentry hold => ?_⟩
    · rcases List.mem_append.mp hm with hm | hm
      · exact ⟨m, hm, rfl⟩
      · rw [List.mem_singleton.mp hm, hnew] at hold
        exact absurd hold (UInt32.lt_irrefl _)
    · rcases List.mem_cons.mp hentry with rfl | hentry
      · exact absurd hold (UInt32.lt_irrefl _)
      · exact hentry
  | unloaded hleaves =>
    refine ⟨UInt32.le_of_eq hleaves.nextHandle.symm, fun m hm _ => ?_, fun entry hentry _ => ?_⟩
    · obtain ⟨n, hn, -, huncounted⟩ := hleaves.exists_uncounted hm
      exact ⟨n, hn, huncounted⟩
    · exact (List.mem_filter.mp (hleaves.handles ▸ hentry)).1
  | refused => exact Std.Refl.refl loader
  | changed => exact ⟨UInt32.le_refl _, fun m hm _ => ⟨m, hm, rfl⟩, fun _ hentry _ => hentry⟩

theorem persists_serve {ledger : Ledger σ} (hsound : loader.Sound ledger) (request : Request σ) :
    Persists loader (loader.serve request) :=
  (serve_outcome hsound request).persists

theorem persists_run {ledger : Ledger σ} (hsound : loader.Sound ledger)
    {requests : List (Request σ)} (hfair : ∀ request ∈ requests, Fair ledger request) :
    Persists loader (loader.run requests) :=
  run_keeps hsound hfair (fun request _ _ hsound hpersists =>
    IsTrans.trans _ _ _ hpersists (persists_serve hsound request)) (Std.Refl.refl loader)

end Loader

end TargetLink
