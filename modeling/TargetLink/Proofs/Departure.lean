import TargetLink.Proofs.Books
import Mathlib.Data.List.Induction

/-!
# Modules that leave

A module leaves when a load is undone or when its last reference goes.  Either way the loader forgets
its slot and its role as the application, and nothing else that is not its own
(`Loader.Parted`).

Undoing a load lets the new modules leave and takes the references back that the old ones gained
(`Loading.Undoable.abort`).
-/

namespace TargetLink

open TargetLink.Module (handlesOf needsOf allocationsOf)

namespace Loader

variable {σ : Type}

/-- What else changed while some modules left: their slots are free, and searches do not start at
them. -/
structure Parted (gone : List Handle) (before after : Loader σ) : Prop where
  handles : after.handles = before.handles
  nextHandle : after.nextHandle = before.nextHandle
  machine : after.machine = before.machine
  app : ∀ first, after.app = some first ↔ before.app = some first ∧ first ∉ gone
  entries : after.dsbt.entries = before.dsbt.entries.filter (·.2.handle ∉ gone)
  pending : after.dsbt.pending = before.dsbt.pending.filter (·.handle ∉ gone)

namespace Parted

variable {gone gone' : List Handle} {before middle after : Loader σ}

theorem of_eq (hhandles : after.handles = before.handles)
    (hnext : after.nextHandle = before.nextHandle) (hmachine : after.machine = before.machine)
    (happ : after.app = before.app) (hdsbt : after.dsbt = before.dsbt) :
    Parted [] before after := by
  refine ⟨hhandles, hnext, hmachine, ?_, ?_, ?_⟩
  · simp [happ]
  · simp [hdsbt]
  · simp [hdsbt]

theorem trans (hfirst : Parted gone before middle) (hsecond : Parted gone' middle after) :
    Parted (gone ++ gone') before after := by
  refine ⟨hsecond.handles.trans hfirst.handles, hsecond.nextHandle.trans hfirst.nextHandle,
    hsecond.machine.trans hfirst.machine, ?_, ?_, ?_⟩
  · intro first
    rw [hsecond.app, hfirst.app, List.mem_append, not_or, and_assoc]
  · rw [hsecond.entries, hfirst.entries, List.filter_filter]
    apply List.filter_congr
    intro entry _
    simp [Bool.and_comm]
  · rw [hsecond.pending, hfirst.pending, List.filter_filter]
    apply List.filter_congr
    intro claim _
    simp [Bool.and_comm]

end Parted

section withoutApp

variable (loader : Loader σ) (handle : Handle)

@[simp] theorem withoutApp_client : (loader.withoutApp handle).client = loader.client := by
  unfold withoutApp
  split <;> rfl

@[simp] theorem withoutApp_modules : (loader.withoutApp handle).modules = loader.modules := by
  unfold withoutApp
  split <;> rfl

@[simp] theorem withoutApp_handles : (loader.withoutApp handle).handles = loader.handles := by
  unfold withoutApp
  split <;> rfl

@[simp] theorem withoutApp_nextHandle :
    (loader.withoutApp handle).nextHandle = loader.nextHandle := by
  unfold withoutApp
  split <;> rfl

@[simp] theorem withoutApp_machine : (loader.withoutApp handle).machine = loader.machine := by
  unfold withoutApp
  split <;> rfl

@[simp] theorem withoutApp_dsbt : (loader.withoutApp handle).dsbt = loader.dsbt := by
  unfold withoutApp
  split <;> rfl

theorem withoutApp_app_eq_some {first : Handle} :
    (loader.withoutApp handle).app = some first ↔ loader.app = some first ∧ first ≠ handle := by
  unfold withoutApp
  by_cases happ : loader.app = some handle
  · rw [if_pos happ, happ]
    simp [eq_comm]
  · rw [if_neg happ, iff_self_and]
    rintro hfirst rfl
    exact happ hfirst

theorem parted_withoutApp : Parted [handle] loader
    ({ loader with dsbt := loader.dsbt.release handle }.withoutApp handle) where
  handles := withoutApp_handles _ _
  nextHandle := withoutApp_nextHandle _ _
  machine := withoutApp_machine _ _
  app first := by rw [withoutApp_app_eq_some, List.mem_singleton]
  entries := by
    rw [withoutApp_dsbt, Dsbt.entries_release]
    apply List.filter_congr
    intro entry _
    rw [Bool.eq_iff_iff]
    simp
  pending := by
    rw [withoutApp_dsbt, Dsbt.pending_release]
    apply List.filter_congr
    intro claim _
    rw [Bool.eq_iff_iff]
    simp

end withoutApp

end Loader

/-! ## Undoing a load -/

namespace Loading

variable {σ : Type}

theorem dropReuse_modules {loader : Loader σ} {modules : List Module} {handle : Handle}
    {reused : List Handle} (hdistinct : (handlesOf modules).Nodup)
    (hused : ∀ m ∈ modules, 0 < m.useCount)
    (hmodules : loader.modules = modules.map (raised (handle :: reused))) :
    (dropReuse loader handle).modules = modules.map (raised reused) := by
  rw [dropReuse, Loader.update, hmodules,
    Loader.updateModule_eq_map (by rwa [handlesOf_map_raised]), List.map_map]
  apply List.map_congr_left
  intro m hm
  have := hused m hm
  by_cases hhandle : m.handle = handle
  · simp only [Function.comp, raised, hhandle, if_true, List.count_cons_self, Module.mk.injEq,
      true_and, and_true]
    omega
  · simp [raised, hhandle, List.count_cons_of_ne (Ne.symm hhandle)]

/-- Dropping every reference that a load added leaves the old modules as they were. -/
theorem dropReuses_modules {modules : List Module} (hdistinct : (handlesOf modules).Nodup)
    (hused : ∀ m ∈ modules, 0 < m.useCount) (reused : List Handle) {loader : Loader σ}
    (hmodules : loader.modules = modules.map (raised reused)) :
    reused.foldl dropReuse loader = { loader with modules } := by
  induction reused generalizing loader with
  | nil =>
    rw [raised_nil, List.map_id] at hmodules
    rw [List.foldl_nil, ← hmodules]
  | cons handle reused ih =>
    rw [List.foldl_cons, ih (dropReuse_modules hdistinct hused hmodules)]
    rfl

variable [Client σ] {ledger : Ledger σ} {start : Loader σ}

/-- Where a release takes one allocation off, giving the memory of modules back takes all of theirs
off. -/
theorem giveBack_modules_of_release (holds : σ → Multiset Allocation → Prop)
    (hrelease : ∀ {client live allocation}, holds client (allocation ::ₘ live) →
      holds (Client.release allocation client).2 live)
    (modules : List Module) {client : σ} {live : Multiset Allocation}
    (h : holds client (allocationsOf modules + live)) :
    holds (modules.foldl (fun client m => Loader.giveBack m.segments client) client) live := by
  induction modules generalizing client with
  | nil => simpa [allocationsOf] using h
  | cons m modules ih =>
    rw [Module.allocationsOf_cons, Multiset.add_assoc] at h
    exact ih (Ledger.giveBack_of_release holds hrelease h)

/-- What is left after the modules behind the old ones left, the last one first. -/
structure Discarded (old new : List Module) (before after : Loader σ) : Prop
    extends Loader.Parted (handlesOf new).reverse before after where
  modules : after.modules = old
  client : after.client =
    new.reverse.foldl (fun client m => Loader.giveBack m.segments client) before.client

theorem discard_last {loader : Loader σ} {old : List Module} {m : Module}
    (hmodules : loader.modules = old ++ [m]) (hdistinct : (handlesOf loader.modules).Nodup) :
    Discarded old [m] loader (discard loader m.handle) := by
  have hm : m ∈ loader.modules := hmodules ▸ List.mem_append_right old List.mem_cons_self
  have hrest : loader.modules.eraseP (·.handle == m.handle) = old := by
    rw [hmodules, Module.handlesOf_append, List.nodup_append'] at hdistinct
    have hothers : ∀ n ∈ old, ¬(n.handle == m.handle) = true := by
      intro n hn heq
      refine hdistinct.2.2 (Module.handle_mem hn) ?_
      simpa using heq
    rw [hmodules, List.eraseP_append_right _ hothers]
    simp
  have heq : discard loader m.handle = { loader with
      modules := old
      client := Loader.giveBack m.segments loader.client
      dsbt := loader.dsbt.release m.handle }.withoutApp m.handle := by
    rw [discard, Module.find?_of_mem hdistinct hm]
    simp only [hrest]
  have hkept : Loader.Parted [] loader
      { loader with modules := old, client := Loader.giveBack m.segments loader.client } :=
    Loader.Parted.of_eq rfl rfl rfl rfl rfl
  rw [heq]
  exact {
    toParted := hkept.trans (Loader.parted_withoutApp _ m.handle)
    modules := Loader.withoutApp_modules _ _
    client := Loader.withoutApp_client _ _ }

theorem discard_all {loader : Loader σ} {old new : List Module}
    (hmodules : loader.modules = old ++ new) (hdistinct : (handlesOf loader.modules).Nodup) :
    Discarded old new loader ((handlesOf new).reverse.foldl discard loader) := by
  induction new using List.reverseRecOn generalizing loader with
  | nil =>
    rw [List.append_nil] at hmodules
    exact {
      toParted := Loader.Parted.of_eq rfl rfl rfl rfl rfl
      modules := hmodules
      client := rfl }
  | append_singleton new m ih =>
    rw [← List.append_assoc] at hmodules
    have hlast := discard_last hmodules hdistinct
    rw [hmodules, Module.handlesOf_append] at hdistinct
    have hrest := ih hlast.modules (hlast.modules ▸ hdistinct.of_append_left)
    have hparted := hlast.toParted.trans hrest.toParted
    rw [Module.handlesOf_append, List.reverse_append]
    refine { toParted := ?_, modules := hrest.modules, client := ?_ }
    · rw [Module.handlesOf_append, List.reverse_append]
      exact hparted
    · refine hrest.client.trans ?_
      rw [hlast.client, ← List.foldl_append, List.reverse_append]

/-- What a load that failed leaves: the loader as it was, but for handles that are not given out
again. -/
structure Restored (ledger : Ledger σ) (start after : Loader σ) : Prop where
  modules : after.modules = start.modules
  handles : after.handles = start.handles
  nextHandle : start.nextHandle ≤ after.nextHandle
  machine : after.machine = start.machine
  app : after.app = start.app
  entries : after.dsbt.entries = start.dsbt.entries
  idle : after.dsbt.pending = []
  holds : ledger.holds after.client (allocationsOf start.modules)

theorem Restored.sound {after : Loader σ} (hstart : start.Sound ledger)
    (h : Restored ledger start after) : after.Sound ledger where
  accounted := hstart.accounted.congr (by rw [h.modules]) h.handles h.nextHandle
  acyclic := h.modules ▸ hstart.acyclic
  idle := h.idle
  bound := by
    rw [h.entries, h.modules]
    exact hstart.bound
  app := by
    rw [h.app, h.modules]
    exact hstart.app
  functionless := h.modules ▸ hstart.functionless
  holds := h.modules ▸ h.holds

/-- Undoing a load gives back what the new modules have. -/
theorem client_abort {loading : Loading σ} {old new : List Module}
    (hmodules : loading.loader.modules = old ++ new)
    (hcreated : handlesOf new = loading.session.created)
    (hdistinct : (handlesOf loading.loader.modules).Nodup) : loading.abort.client =
      new.reverse.foldl (fun client m => Loader.giveBack m.segments client) loading.loader.client := by
  have hdrop : ∀ (handles : List Handle) (loader : Loader σ),
      (handles.foldl dropReuse loader).client = loader.client := by
    intro handles
    induction handles with
    | nil => exact fun _ => rfl
    | cons handle handles ih => exact fun loader => ih (dropReuse loader handle)
  rw [abort, hdrop, ← hcreated]
  exact (discard_all hmodules hdistinct).client

theorem allocationsOf_reverse (modules : List Module) :
    allocationsOf modules.reverse = allocationsOf modules := by
  rw [allocationsOf, allocationsOf, Multiset.coe_eq_coe]
  exact (List.reverse_perm modules).flatMap_right _

theorem Undoable.abort {loading : Loading σ} (hstart : start.Sound ledger)
    (h : Undoable ledger start loading) : Restored ledger start loading.abort := by
  obtain ⟨new, hmodules, hcreated⟩ := h.modules
  have hgone := discard_all hmodules h.distinct
  have hclient := client_abort hmodules hcreated h.distinct
  rw [hcreated] at hgone
  have habort : loading.abort = { loading.session.created.reverse.foldl discard loading.loader with
      modules := start.modules } :=
    dropReuses_modules hstart.accounted.distinct hstart.accounted.balanced.used _ hgone.modules
  rw [habort] at hclient ⊢
  have hparted := hcreated ▸ hgone.toParted
  constructor
  case modules => rfl
  case handles => exact hparted.handles.trans h.handles
  case nextHandle => exact hparted.nextHandle ▸ h.nextHandle
  case machine => exact hparted.machine.trans h.machine
  case app =>
    apply Option.ext
    intro first
    rw [hparted.app, List.mem_reverse, ← h.start_app_eq_some hstart]
  case entries =>
    rw [hparted.entries, ← h.filter_entries_created]
    simp only [List.mem_reverse]
  case idle =>
    rw [hparted.pending]
    apply List.filter_eq_nil_iff.mpr
    intro claim hclaim
    simpa using h.waiting claim hclaim
  case holds =>
    have hholds := h.holds
    rw [Multiset.add_zero, hmodules, Module.allocationsOf_append, allocationsOf_map_raised,
      Multiset.add_comm, ← allocationsOf_reverse new] at hholds
    rw [hclient]
    exact giveBack_modules_of_release ledger.holds ledger.release new.reverse hholds

end Loading

end TargetLink
