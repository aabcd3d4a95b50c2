import TargetLink.Proofs.Departure
import TargetLink.Proofs.Leaving

/-!
# Dropping a reference

Where references are accounted for, dropping a held one never fails, whatever the client answers
(`Loader.release_eq`).  Modules leave in order (`Loader.Leaves`), and those that stay change in nothing
but their use counts (`Loader.Released`).
-/

namespace TargetLink

open TargetLink.Module (handlesOf needsOf allocationsOf)
open LoadM (Triple Within)

namespace Loader

variable {σ : Type} [Client σ] {ledger : Ledger σ} {gone gone' held held' : List Handle}
  {loader before middle after : Loader σ} {handle : Handle} {steps steps' : List Leave}

/-- Some modules left, the others changed in nothing but their use counts, and the memory of those
that left was given back. The references in `held` are still held. -/
structure Released (ledger : Ledger σ) (gone held : List Handle) (before after : Loader σ) : Prop
    extends Parted gone before after where
  modules : after.modules.map Module.uncounted =
    (before.modules.map Module.uncounted).filter (·.handle ∉ gone)
  accounted : after.Accounted held
  holds : ∀ extra, ledger.holds before.client (allocationsOf before.modules + extra) →
    ledger.holds after.client (allocationsOf after.modules + extra)

namespace Released

protected theorem refl (h : loader.Accounted held) : Released ledger [] held loader loader where
  toParted := Parted.of_eq rfl rfl rfl rfl rfl
  modules := by simp
  accounted := h
  holds _ h := h

protected theorem trans (hfirst : Released ledger gone held before middle)
    (hsecond : Released ledger gone' held' middle after) :
    Released ledger (gone ++ gone') held' before after where
  toParted := hfirst.toParted.trans hsecond.toParted
  modules := by
    rw [hsecond.modules, hfirst.modules, List.filter_filter]
    apply List.filter_congr
    intro m _
    simp [Bool.and_comm]
  accounted := hsecond.accounted
  holds extra h := hsecond.holds extra (hfirst.holds extra h)

theorem length_le (h : Released ledger gone held before after) :
    after.modules.length ≤ before.modules.length := by
  have hlength := congrArg List.length h.modules
  rw [List.length_map] at hlength
  rw [hlength, ← before.modules.length_map Module.uncounted]
  exact List.length_filter_le _ _

/-- A module that stayed differs in its use count at most. -/
theorem exists_uncounted (h : Released ledger gone held before after) {m : Module}
    (hm : m ∈ after.modules) : ∃ n ∈ before.modules, n.handle ∉ gone ∧
      n.uncounted = m.uncounted := by
  have hmem := List.mem_map_of_mem (f := Module.uncounted) hm
  rw [h.modules, List.mem_filter] at hmem
  obtain ⟨hmem, hgone⟩ := hmem
  obtain ⟨n, hn, heq⟩ := List.mem_map.mp hmem
  have hhandle : n.handle = m.handle := congrArg (·.handle) heq
  refine ⟨n, hn, ?_, heq⟩
  rw [hhandle]
  exact of_decide_eq_true hgone

theorem exists_of_mem (h : Released ledger gone held before after) {m : Module}
    (hm : m ∈ after.modules) : ∃ n ∈ before.modules, n.handle = m.handle ∧
      n.dependencies = m.dependencies ∧ n.handle ∉ gone := by
  obtain ⟨n, hn, hgone, heq⟩ := h.exists_uncounted hm
  exact ⟨n, hn, congrArg (·.handle) heq, congrArg (·.dependencies) heq, hgone⟩

theorem exists_mem (h : Released ledger gone held before after) {n : Module}
    (hn : n ∈ before.modules) (hgone : n.handle ∉ gone) : ∃ m ∈ after.modules,
      m.handle = n.handle ∧ m.dependencies = n.dependencies := by
  have hmem : n.uncounted ∈ after.modules.map Module.uncounted := by
    rw [h.modules, List.mem_filter]
    exact ⟨List.mem_map_of_mem hn, decide_eq_true hgone⟩
  obtain ⟨m, hm, heq⟩ := List.mem_map.mp hmem
  exact ⟨m, hm, congrArg (·.handle) heq, congrArg (·.dependencies) heq⟩

theorem mem_handlesOf (h : Released ledger gone held before after) :
    handle ∈ handlesOf after.modules ↔ handle ∈ handlesOf before.modules ∧ handle ∉ gone := by
  constructor
  · intro hmem
    obtain ⟨m, hm, rfl⟩ := Module.exists_of_mem_handlesOf hmem
    obtain ⟨n, hn, heq, -, hgone⟩ := h.exists_of_mem hm
    exact ⟨heq ▸ Module.handle_mem hn, heq ▸ hgone⟩
  · rintro ⟨hmem, hgone⟩
    obtain ⟨n, hn, rfl⟩ := Module.exists_of_mem_handlesOf hmem
    obtain ⟨m, hm, heq, -⟩ := h.exists_mem hn hgone
    exact heq ▸ Module.handle_mem hm

end Released

/-- Some modules left in order, by steps that are all that the client saw. -/
structure Leaves (ledger : Ledger σ) (gone : List Handle) (steps : List Leave) (held : List Handle)
    (before after : Loader σ) : Prop extends Released ledger gone held before after where
  orderly : Orderly gone (before.modules.map Module.uncounted) steps
  client : after.client = steps.foldl Leave.run before.client

namespace Leaves

protected theorem refl (h : loader.Accounted held) : Leaves ledger [] [] held loader loader where
  toReleased := Released.refl h
  orderly := Orderly.nil _
  client := rfl

/-- No module that stayed needs one that left, so one departure can follow another. -/
protected theorem trans (hfirst : Leaves ledger gone steps held before middle)
    (hsecond : Leaves ledger gone' steps' held' middle after) :
    Leaves ledger (gone ++ gone') (steps ++ steps') held' before after where
  toReleased := hfirst.toReleased.trans hsecond.toReleased
  orderly := by
    refine hfirst.orderly.append (hfirst.modules ▸ hsecond.orderly) ?_
    intro m hm hstayed d hneeds
    obtain ⟨n, hn, rfl⟩ := List.mem_map.mp hm
    obtain ⟨n', hn', -, hsame⟩ := hfirst.exists_mem hn hstayed
    have hresident : d ∈ handlesOf middle.modules :=
      hfirst.accounted.needed_resident (List.mem_flatMap.mpr ⟨n', hn', hsame ▸ hneeds⟩)
    exact (hfirst.mem_handlesOf.mp hresident).2
  client := by rw [hsecond.client, hfirst.client, List.foldl_append]

end Leaves

/-! ## One module -/

/-- A loader whose list a module left, while its client went on. -/
def withoutModule (loader : Loader σ) (handle : Handle) (client : σ) : Loader σ :=
  { loader with client, modules := loader.modules.eraseP (·.handle == handle) }

theorem release_shared {depth : Nat} {m : Module}
    (hfind : Module.find? loader.modules handle = some m) (huse : 1 < m.useCount) :
    release (depth + 1) handle loader =
      (.ok false, loader.update handle fun m => { m with useCount := m.useCount - 1 }) := by
  simp only [release, LoadM.bind_apply, LoadM.get_apply, hfind, if_pos huse]
  rfl

/-- Giving up a module that is not needed any more: it is terminated, what it needs is released, and
then its memory is given back. -/
theorem release_last {depth : Nat} {m : Module}
    (hfind : Module.find? loader.modules handle = some m) (huse : ¬1 < m.useCount) :
    release (depth + 1) handle loader =
      (do
        let answers ← m.dependencies.mapM fun dependency => (release depth dependency).observe
        modify fun loader => loader.forget m
        match firstError? answers with
        | some e => throw e
        | none => return true : LoadM (Loader σ) Bool)
      (loader.withoutModule handle (Leave.run loader.client (.terminate m))) := by
  cases hsymbols : m.symbolsOnly with
  | true =>
    simp only [release, LoadM.bind_apply, LoadM.get_apply, hfind, if_neg huse, LoadM.set_apply,
      hsymbols, Bool.not_true, Bool.false_eq_true, if_false, Leave.run, if_true]
    rfl
  | false =>
    simp only [release, LoadM.bind_apply, LoadM.get_apply, hfind, if_neg huse, LoadM.set_apply,
      hsymbols, Bool.not_false, if_true, LoadM.observe_apply, onClient, LoadM.zoom_apply, Leave.run,
      Bool.false_eq_true, if_false]
    rfl

theorem released_shared (h : loader.Accounted (handle :: held)) {m : Module}
    (hfind : Module.find? loader.modules handle = some m) (huse : 1 < m.useCount) :
    Released ledger [] held loader
      (loader.update handle fun m => { m with useCount := m.useCount - 1 }) where
  toParted := Parted.of_eq rfl rfl rfl rfl rfl
  modules := by
    have hview : (updateModule handle (fun m => { m with useCount := m.useCount - 1 })
        loader.modules).map Module.uncounted = loader.modules.map Module.uncounted :=
      map_updateModule fun _ => rfl
    rw [update, hview]
    simp
  accounted := by
    obtain ⟨hm, hhandle⟩ := Module.mem_of_find? hfind
    exact h.dropReference hm hhandle huse
  holds extra hextra := by
    rw [update, allocationsOf_updateModule]
    · exact hextra
    · intro m
      rfl

theorem leaves_shared (h : loader.Accounted (handle :: held)) {m : Module}
    (hfind : Module.find? loader.modules handle = some m) (huse : 1 < m.useCount) :
    Leaves ledger [] [] held loader
      (loader.update handle fun m => { m with useCount := m.useCount - 1 }) where
  toReleased := released_shared h hfind huse
  orderly := Orderly.nil _
  client := rfl

theorem forget_modules (loader : Loader σ) (m : Module) :
    (loader.forget m).modules = loader.modules :=
  withoutApp_modules _ _

theorem parted_forget (loader : Loader σ) (m : Module) :
    Parted [m.handle] loader (loader.forget m) := by
  have hmemory : Parted [] loader
      { loader with client := giveBack m.segments loader.client } :=
    Parted.of_eq rfl rfl rfl rfl rfl
  exact hmemory.trans (parted_withoutApp _ m.handle)

omit [Client σ] in
theorem uncounted_withoutModule (h : loader.Accounted held) (handle : Handle) (client : σ) :
    (loader.withoutModule handle client).modules.map Module.uncounted =
      (loader.modules.map Module.uncounted).filter (·.handle != handle) := by
  rw [withoutModule, Module.eraseP_eq_filter h.distinct, List.filter_map]
  rfl

/-- What is left when a module is gone and everything that it needs was released. -/
theorem released_last (h : loader.Accounted (handle :: held)) {m : Module}
    (hfind : Module.find? loader.modules handle = some m) {client : σ}
    (hquiet : ledger.Quiet loader.client client)
    (hrest : Released ledger gone held (loader.withoutModule handle client) middle) :
    Released ledger (gone ++ [handle]) held loader (middle.forget m) := by
  obtain rfl : m.handle = handle := (Module.mem_of_find? hfind).2
  have hgone : Parted [] loader (loader.withoutModule m.handle client) :=
    Parted.of_eq rfl rfl rfl rfl rfl
  have hforget := parted_forget middle m
  constructor
  case toParted => exact (hgone.trans hrest.toParted).trans hforget
  case modules =>
    rw [forget_modules, hrest.modules, uncounted_withoutModule h, List.filter_filter]
    refine List.filter_congr fun n _ => ?_
    rw [Bool.eq_iff_iff]
    simp
  case accounted =>
    refine hrest.accounted.congr ?_ hforget.handles ?_
    · rw [forget_modules]
    · rw [hforget.nextHandle]
      exact UInt32.le_refl _
  case holds =>
    intro extra hextra
    rw [forget_modules, forget, withoutApp_client]
    refine ledger.holds_giveBack ?_
    rw [← Multiset.add_assoc, Multiset.add_comm _ (allocationsOf middle.modules), Multiset.add_assoc]
    -- the memory of the module is still out while what it needs is released
    refine hrest.holds _ (hquiet _ ?_)
    rw [Module.allocationsOf_eraseP hfind, Multiset.add_comm _ (allocationsOf (List.eraseP _ _)),
      Multiset.add_assoc] at hextra
    exact hextra

/-- A module leaves around what it needs. -/
theorem leaves_last (h : loader.Accounted (handle :: held)) {m : Module}
    (hfind : Module.find? loader.modules handle = some m) (huse : ¬1 < m.useCount)
    (hrest : Leaves ledger gone steps held
      (loader.withoutModule handle (Leave.run loader.client (.terminate m))) middle) :
    Leaves ledger (gone ++ [handle])
      (.terminate m.uncounted :: steps ++ [.giveBack m.uncounted]) held loader
      (middle.forget m) where
  toReleased := released_last h hfind (Leave.quiet_terminate ledger m loader.client) hrest.toReleased
  orderly := by
    obtain ⟨hm, hhandle⟩ := Module.mem_of_find? hfind
    obtain rfl : m.handle = handle := hhandle
    have hdistinct : (handlesOf (loader.modules.map Module.uncounted)).Nodup := by
      rw [handlesOf, List.map_map]
      exact h.distinct
    have hunneeded : m.handle ∉ needsOf (loader.modules.map Module.uncounted) := by
      rw [needsOf, List.flatMap_map]
      exact h.unneeded hm rfl huse
    have horderly := hrest.orderly
    rw [uncounted_withoutModule h] at horderly
    exact horderly.around (List.mem_map_of_mem hm) hdistinct hunneeded
  client := by
    rw [forget, withoutApp_client, List.foldl_append, List.foldl_cons]
    change giveBack m.segments middle.client = giveBack m.segments _
    rw [hrest.client]
    rfl

/-- Dropping the references of a module one after the other. -/
theorem releaseAll_eq {depth : Nat}
    (hrelease : ∀ (handle : Handle) (held : List Handle) (loader : Loader σ),
      loader.Accounted (handle :: held) → loader.modules.length ≤ depth →
        ∃ left gone steps after, release depth handle loader = (.ok left, after) ∧
          Leaves ledger gone steps held loader after ∧ (left = true ↔ handle ∈ gone))
    (needed : List Handle) (h : loader.Accounted (needed ++ held))
    (hdepth : loader.modules.length ≤ depth) :
    ∃ answers gone steps after,
      needed.mapM (fun dependency => (release depth dependency).observe) loader =
        (.ok answers, after) ∧
      firstError? answers = none ∧ Leaves ledger gone steps held loader after := by
  induction needed generalizing loader with
  | nil => exact ⟨[], [], [], loader, rfl, rfl, Leaves.refl h⟩
  | cons dependency needed ih =>
    obtain ⟨left, gone, steps, middle, hrun, hleaves, -⟩ :=
      hrelease dependency (needed ++ held) loader h hdepth
    obtain ⟨answers, gone', steps', after, hruns, hnone, hrest⟩ :=
      ih hleaves.accounted (hleaves.length_le.trans hdepth)
    refine ⟨.ok left :: answers, gone ++ gone', steps ++ steps', after, ?_, ?_,
      hleaves.trans hrest⟩
    · rw [List.mapM_cons, LoadM.bind_apply, LoadM.observe_apply, hrun]
      simp only [LoadM.bind_apply, hruns]
      rfl
    · exact hnone

/-- Dropping a held reference succeeds, and it says whether the module left. -/
theorem release_eq (ledger : Ledger σ) (depth : Nat) (handle : Handle) (held : List Handle)
    (loader : Loader σ) (h : loader.Accounted (handle :: held))
    (hdepth : loader.modules.length ≤ depth) :
    ∃ left gone steps after, release depth handle loader = (.ok left, after) ∧
      Leaves ledger gone steps held loader after ∧ (left = true ↔ handle ∈ gone) := by
  induction depth generalizing handle held loader with
  | zero =>
    have hresident := h.resident List.mem_cons_self
    rw [List.length_eq_zero_iff.mp (Nat.le_zero.mp hdepth)] at hresident
    cases hresident
  | succ depth ih =>
    obtain ⟨m, hm, hhandle, hfind⟩ := Module.exists_find? (h.resident List.mem_cons_self)
    by_cases huse : 1 < m.useCount
    · refine ⟨false, [], [], _, release_shared hfind huse, leaves_shared h hfind huse, ?_⟩
      simp
    · have hremoved : (loader.withoutModule handle
          (Leave.run loader.client (.terminate m))).Accounted (m.dependencies ++ held) :=
        (h.removeModule hfind huse).congr rfl rfl (UInt32.le_refl _)
      have hlength : (loader.withoutModule handle
          (Leave.run loader.client (.terminate m))).modules.length ≤ depth := by
        have hperm := (Module.perm_of_find? hfind).length_eq
        rw [List.length_cons] at hperm
        change (loader.modules.eraseP (·.handle == handle)).length ≤ depth
        omega
      obtain ⟨answers, gone, steps, middle, hruns, hnone, hrest⟩ :=
        releaseAll_eq ih m.dependencies hremoved hlength
      refine ⟨true, gone ++ [handle], _, middle.forget m, ?_, leaves_last h hfind huse hrest, ?_⟩
      · rw [release_last hfind huse, LoadM.bind_apply, hruns]
        simp only [LoadM.bind_apply, hnone]
        rfl
      · simp

/-! ## One handle -/

theorem unload_unknown (hlookup : loader.handles.lookup handle = none) :
    loader.unload handle = (.error (.unknownHandle handle), loader) := by
  simp only [unload, unloadStep, LoadM.bind_apply, LoadM.get_apply, hlookup]
  rfl

/-- Giving up a handle succeeds, and it says whether its module left. -/
theorem unload_eq (hsound : loader.Sound ledger) {root : Handle}
    (hlookup : loader.handles.lookup handle = some root) :
    ∃ left gone steps after, loader.unload handle = (.ok left, after) ∧
      Leaves ledger gone steps [] { loader with
        handles := loader.handles.filter (·.1 != handle) } after ∧
      (left = true ↔ root ∈ gone) := by
  obtain ⟨left, gone, steps, after, hrun, hleaves⟩ :=
    release_eq ledger loader.modules.length root [] _ (hsound.accounted.takeHandle hlookup) le_rfl
  refine ⟨left, gone, steps, after, ?_, hleaves⟩
  simp only [unload, unloadStep, LoadM.bind_apply, LoadM.get_apply, hlookup, LoadM.set_apply]
  exact hrun

theorem Released.sound {handles : List (Handle × Handle)} (hsound : loader.Sound ledger)
    (h : Released ledger gone [] { loader with handles } after) : after.Sound ledger where
  accounted := h.accounted
  acyclic := by
    apply hsound.acyclic.mono
    intro m hm
    obtain ⟨n, hn, hhandle, hneeds, -⟩ := h.exists_of_mem hm
    exact ⟨n, hn, hhandle.symm, hneeds.symm⟩
  idle := by
    rw [h.pending, hsound.idle]
    rfl
  bound := by
    intro entry hentry
    rw [h.entries, List.mem_filter] at hentry
    exact h.mem_handlesOf.mpr ⟨hsound.bound entry hentry.1, of_decide_eq_true hentry.2⟩
  app := by
    intro first hfirst
    obtain ⟨hbefore, hgone⟩ := (h.app first).mp hfirst
    exact h.mem_handlesOf.mpr ⟨hsound.app first hbefore, hgone⟩
  functionless := by
    intro m hm hsymbols
    obtain ⟨n, hn, -, heq⟩ := h.exists_uncounted hm
    obtain ⟨hfini, harray⟩ := hsound.functionless n hn ((congrArg (·.symbolsOnly) heq).trans hsymbols)
    exact ⟨(congrArg (·.fini) heq).symm.trans hfini,
      (congrArg (·.finiArray) heq).symm.trans harray⟩
  holds := by
    have hholds := h.holds 0 (by simpa using hsound.holds)
    rwa [Multiset.add_zero] at hholds

end Loader

end TargetLink
