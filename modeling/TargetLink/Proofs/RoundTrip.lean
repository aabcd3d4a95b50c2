import TargetLink.Proofs.Runs
import TargetLink.Proofs.SampleObjects

/-!
# Unloading undoes loading

A load that succeeds adds modules behind the old ones and references to them.  Dropping the handle
that it gave out makes the new modules leave and takes those references back, whatever graph the load
met: a module leaves or stays with the modules that need it, so both halves of the argument go from
the users of a module to the module (`Module.Acyclic.induct_users`).
-/

namespace TargetLink

open TargetLink.Module (handlesOf needsOf allocationsOf)

namespace Loader

variable {σ : Type} [Client σ] {ledger : Ledger σ} {start loaded after : Loader σ}
  {handle root : Handle} {gone : List Handle}

theorem Grown.filter_handles (hstart : start.Sound ledger) (h : Grown ledger start handle loaded) :
    loaded.handles.filter (·.1 != handle) = start.handles := by
  obtain ⟨root, hhandles, -⟩ := h.handles
  have hothers : ∀ entry ∈ start.handles, (entry.1 != handle) = true := by
    intro entry hentry
    have hne : entry.1 ≠ handle := fun heq =>
      hstart.accounted.key_of_le h.new (List.mem_map.mpr ⟨entry, hentry, heq⟩)
    simpa using hne
  rw [hhandles, List.filter_cons_of_neg (by simp), List.filter_eq_self.mpr hothers]

/-- A module of the grown loader is an old one with more references or a new one. -/
theorem Grown.old_or_new (h : Grown ledger start handle loaded) {m : Module}
    (hm : m ∈ loaded.modules) :
    (∃ old ∈ start.modules, old.handle = m.handle ∧ old.dependencies = m.dependencies) ∨
      start.nextHandle ≤ m.handle := by
  obtain ⟨reused, new, hmodules, hnew⟩ := h.modules
  rw [hmodules, List.mem_append] at hm
  rcases hm with hold | hmem
  · obtain ⟨old, hmem, rfl⟩ := List.mem_map.mp hold
    exact Or.inl ⟨old, hmem, rfl, rfl⟩
  · exact Or.inr (hnew m hmem)

section

variable (hstart : start.Sound ledger) (hgrown : Grown ledger start handle loaded)
  (hreleased : Released ledger gone [] { loaded with handles := start.handles } after)

include hstart hgrown hreleased

/-- An old module is still referred to by an old handle or an old module. -/
theorem old_stays : ∀ m ∈ start.modules, m.handle ∉ gone := by
  refine hstart.acyclic.induct_users ?_
  intro m hm ih
  obtain ⟨reused, new, hmodules, -⟩ := hgrown.modules
  have hresident : m.handle ∈ handlesOf after.modules := by
    rcases hstart.accounted.exists_user hm with ⟨entry, hentry, hleads⟩ | ⟨n, hn, hneeds⟩
    · rw [← hleads]
      exact hreleased.accounted.target_resident (hreleased.handles ▸ hentry)
    · have hraised : Loading.raised reused n ∈ loaded.modules :=
        hmodules ▸ List.mem_append_left new (List.mem_map_of_mem hn)
      obtain ⟨n', hn', -, hsame⟩ := hreleased.exists_mem hraised (ih n hn hneeds)
      refine hreleased.accounted.needed_resident (List.mem_flatMap.mpr ⟨n', hn', ?_⟩)
      rw [hsame]
      exact hneeds
  exact (hreleased.mem_handlesOf.mp hresident).2

/-- A new module is referred to by new modules only, which leave as well. -/
theorem new_leaves : ∀ m ∈ loaded.modules, start.nextHandle ≤ m.handle → m.handle ∈ gone := by
  refine hgrown.acyclic.induct_users ?_
  intro m hm ih hnew
  by_contra hgone
  have hold : m.handle ∉ handlesOf start.modules :=
    fun hmem => UInt32.not_le.mpr (hstart.accounted.handle_below hmem) hnew
  obtain ⟨m', hm', hhandle, -⟩ := hreleased.exists_mem hm hgone
  rcases hreleased.accounted.exists_user hm' with ⟨entry, hentry, hleads⟩ | ⟨n', hn', hneeds⟩
  · rw [hreleased.handles] at hentry
    rw [hhandle] at hleads
    exact hold (hleads ▸ hstart.accounted.target_resident hentry)
  · obtain ⟨n, hn, -, hsame, hstays⟩ := hreleased.exists_of_mem hn'
    rw [hhandle, ← hsame] at hneeds
    rcases hgrown.old_or_new hn with ⟨old, hmem, -, hneedsOld⟩ | hlater
    · refine hold (hstart.accounted.needed_resident (List.mem_flatMap.mpr ⟨old, hmem, ?_⟩))
      rwa [hneedsOld]
    · exact hstays (ih n hn hneeds hlater)

theorem uncounted_eq :
    after.modules.map Module.uncounted = start.modules.map Module.uncounted := by
  obtain ⟨reused, new, hmodules, hnew⟩ := hgrown.modules
  have hold : ∀ m ∈ start.modules, m.handle ∉ gone := old_stays hstart hgrown hreleased
  have hgone : ∀ m ∈ new, m.handle ∈ gone := fun m hm =>
    new_leaves hstart hgrown hreleased m (hmodules ▸ List.mem_append_right _ hm) (hnew m hm)
  have hraised : (start.modules.map (Loading.raised reused)).map Module.uncounted =
      start.modules.map Module.uncounted := by
    rw [List.map_map]
    rfl
  rw [hreleased.modules, hmodules, List.map_append, hraised, List.filter_append]
  have hkept : (start.modules.map Module.uncounted).filter (·.handle ∉ gone) =
      start.modules.map Module.uncounted := by
    apply List.filter_eq_self.mpr
    intro m hm
    obtain ⟨n, hn, rfl⟩ := List.mem_map.mp hm
    exact decide_eq_true (hold n hn)
  have hnone : (new.map Module.uncounted).filter (·.handle ∉ gone) = [] := by
    apply List.filter_eq_nil_iff.mpr
    intro m hm
    obtain ⟨n, hn, rfl⟩ := List.mem_map.mp hm
    intro hkept
    exact of_decide_eq_true hkept (hgone n hn)
  rw [hkept, hnone, List.append_nil]

/-- Use counts follow from the references, so they are the old ones too. -/
theorem modules_eq : after.modules = start.modules := by
  have huncounted := uncounted_eq hstart hgrown hreleased
  have hreferences : after.references = start.references := by
    rw [references, references, hreleased.handles, Module.needsOf_eq_of_uncounted huncounted]
  have hbalanced := hreleased.accounted.balanced
  rw [hreferences] at hbalanced
  exact hstart.accounted.balanced.eq_of_uncounted hbalanced huncounted

theorem entries_eq : after.dsbt.entries = start.dsbt.entries := by
  rw [hreleased.entries, ← hgrown.entries]
  apply List.filter_congr
  intro entry hentry
  obtain ⟨m, hm, hhandle⟩ := Module.exists_of_mem_handlesOf (hgrown.bound entry hentry)
  rw [Bool.eq_iff_iff, decide_eq_true_iff, decide_eq_true_iff, ← hhandle]
  constructor
  · intro hstays
    exact UInt32.not_le.mp fun hnew => hstays (new_leaves hstart hgrown hreleased m hm hnew)
  · intro hbelow hleaves
    rcases hgrown.old_or_new hm with ⟨old, hmem, hsame, -⟩ | hnew
    · exact old_stays hstart hgrown hreleased old hmem (hsame ▸ hleaves)
    · exact UInt32.not_le.mpr hbelow hnew

end

/-- Giving up the handle of a load leaves the loader that the load began with. -/
theorem unload_grown (hstart : start.Sound ledger) (hgrown : Grown ledger start handle loaded) :
    ∃ root, loaded.handles.lookup handle = some root ∧
      (loaded.unload handle).1 = .ok (root ∉ handlesOf start.modules) ∧
      (loaded.unload handle).2.modules = start.modules ∧
      (loaded.unload handle).2.handles = start.handles ∧
      (loaded.unload handle).2.dsbt.entries = start.dsbt.entries ∧
      ledger.holds (loaded.unload handle).2.client (allocationsOf start.modules) := by
  obtain ⟨root, hhandles, -⟩ := hgrown.handles
  have hlookup : loaded.handles.lookup handle = some root := by
    rw [hhandles, List.lookup_cons_self]
  obtain ⟨left, gone, steps, after, hrun, hleaves, hleft⟩ := unload_eq hgrown.toSound hlookup
  have hreleased := hleaves.toReleased
  rw [hgrown.filter_handles hstart] at hreleased
  have hmodules := modules_eq hstart hgrown hreleased
  have hholds := hreleased.holds 0 (by simpa using hgrown.holds)
  refine ⟨root, hlookup, ?_⟩
  have hroot : root ∈ handlesOf loaded.modules :=
    hgrown.accounted.target_resident (hhandles ▸ List.mem_cons_self)
  have hstays : root ∈ handlesOf after.modules ↔ root ∈ handlesOf loaded.modules ∧ root ∉ gone :=
    hreleased.mem_handlesOf
  rw [hmodules] at hstays
  rw [hrun]
  refine ⟨congrArg Except.ok ?_, hmodules, hreleased.handles,
    entries_eq hstart hgrown hreleased, ?_⟩
  · rw [Bool.eq_iff_iff, hleft, decide_eq_true_iff, hstays]
    simp [hroot]
  · rwa [hmodules, Multiset.add_zero] at hholds

/-- After any run, giving up the handle of a load that succeeded undoes the load. The answer is
whether the module of the handle was new. -/
theorem unload_undoes_load (client : σ) (policy : LookupPolicy) (requests : List (Request σ))
    (image : Image) (arguments : List String) (handle : Handle) :
    let loader := onRecord client policy requests
    let loaded := (loader.load image arguments).2
    let unloaded := loaded.unload handle
    (loader.load image arguments).1 = .ok handle →
      ∃ root live, loaded.handles.lookup handle = some root ∧
        unloaded.1 = .ok (decide (root ∉ handlesOf loader.modules)) ∧
        unloaded.2.modules = loader.modules ∧
        unloaded.2.handles = loader.handles ∧
        unloaded.2.dsbt.entries = loader.dsbt.entries ∧
        loader.client.live? = some live ∧ unloaded.2.client.live? = some live := by
  have hsound := onRecord_sound client policy requests
  generalize onRecord client policy requests = loader at hsound
  intro loader' loaded unloaded hload
  obtain ⟨root, hlookup, hanswer, hmodules, hhandles, hentries, hlive⟩ :=
    unload_grown hsound (load_ok hsound hload)
  exact ⟨root, _, hlookup, hanswer, hmodules, hhandles, hentries, hsound.holds, hlive⟩

/-- The load of `b` reuses `a` and claims a second slot. Unloading `b` frees its slot and leaves `a` with
one reference again. -/
theorem unload_undoes_load_of_needed :
    let loader := onRecord tabledTarget .direct [.load (tabledObject 0x61 2).image []]
    let loaded := (loader.load tabledUser.image []).2
    (loader.load tabledUser.image []).1 = .ok 2 ∧
      loader.modules.map (·.useCount) = [1] ∧ loaded.modules.map (·.useCount) = [2, 1] ∧
      loader.dsbt.entries.map (·.1) = [0] ∧ loaded.dsbt.entries.map (·.1) = [0, 1] ∧
      ∃ root live, loaded.handles.lookup 2 = some root ∧
        (loaded.unload 2).1 = .ok (decide (root ∉ handlesOf loader.modules)) ∧
        (loaded.unload 2).2.modules = loader.modules ∧
        (loaded.unload 2).2.handles = loader.handles ∧
        (loaded.unload 2).2.dsbt.entries = loader.dsbt.entries ∧
        loader.client.live? = some live ∧ (loaded.unload 2).2.client.live? = some live := by
  refine ⟨by decide +kernel, by decide +kernel, by decide +kernel, by decide +kernel,
    by decide +kernel, ?_⟩
  exact unload_undoes_load tabledTarget .direct [.load (tabledObject 0x61 2).image []]
    tabledUser.image [] 2 (by decide +kernel)

end Loader

end TargetLink
