import TargetLink.Proofs.Ledger
import TargetLink.Proofs.Residents
import TargetLink.Proofs.Slots

/-!
# Loaders in good order

`Loader.Accounted held` is the law of references for a loader: the references of its handles, of its
modules, and those that are `held` by neither for the moment.  `Loader.Sound` is what holds between
the operations of a loader: nothing is held, modules need each other without a circle, no claim
waits, only resident modules are bound, start searches or own target memory, and a module of which
only the symbols are known has no function to run.
-/

namespace TargetLink

open TargetLink.Module (handlesOf needsOf allocationsOf)

namespace Loader

variable {σ : Type}

theorem lt_add_one {handle : Handle} (h : handle ≠ lastHandle) : handle < handle + 1 := by
  have hlast : handle.toNat ≠ 0xffffffff := fun heq => h (UInt32.toNat_inj.mp heq)
  have hbound := handle.toNat_lt
  rw [UInt32.lt_iff_toNat_lt, UInt32.toNat_add, UInt32.toNat_one]
  omega

theorem newHandle_apply (loader : Loader σ) : newHandle loader =
    if loader.nextHandle = lastHandle then (.error .handlesExhausted, loader)
    else (.ok loader.nextHandle, { loader with nextHandle := loader.nextHandle + 1 }) := by
  by_cases hlast : loader.nextHandle = lastHandle
  · simp [newHandle, LoadM.bind_apply, hlast]
  · simp only [newHandle, LoadM.bind_apply, LoadM.get_apply, if_neg hlast, LoadM.pure_apply,
      LoadM.set_apply]

theorem checkMachine_eq_ok {locked : Option Machine} {found : Machine}
    (h : checkMachine locked found = .ok ()) : ∀ machine, locked = some machine → machine = found := by
  rintro machine rfl
  by_contra hne
  simp [checkMachine, hne] at h

/-- The references of a loader: those of its handles and those of its modules. -/
def references (loader : Loader σ) : List Handle :=
  loader.handles.map (·.2) ++ needsOf loader.modules

/-- The law of references, while some are held by neither a handle nor a module. -/
structure Accounted (held : List Handle) (loader : Loader σ) : Prop where
  balanced : Balanced (held ++ loader.references) loader.modules
  below : ∀ m ∈ loader.modules, m.handle < loader.nextHandle
  keys : (loader.handles.map (·.1)).Nodup
  keys_below : ∀ entry ∈ loader.handles, entry.1 < loader.nextHandle

/-- A handle that can be given to a module or handed out. -/
structure Fresh (handle : Handle) (loader : Loader σ) : Prop where
  notMem : handle ∉ handlesOf loader.modules
  key : handle ∉ loader.handles.map (·.1)
  below : handle < loader.nextHandle

theorem perm_of_lookup {entries : List (Handle × Handle)} {handle root : Handle}
    (hkeys : (entries.map (·.1)).Nodup) (hlookup : entries.lookup handle = some root) :
    entries.Perm ((handle, root) :: entries.filter (·.1 != handle)) := by
  induction entries with
  | nil => cases hlookup
  | cons entry entries ih =>
    obtain ⟨key, target⟩ := entry
    obtain ⟨hnotin, hrest⟩ := List.nodup_cons.mp hkeys
    by_cases hkey : key = handle
    · subst hkey
      have hothers : ∀ other ∈ entries, (other.1 != key) = true := by
        intro other hother
        have hne : other.1 ≠ key :=
          fun heq => hnotin (List.mem_map.mpr ⟨other, hother, heq⟩)
        simpa using hne
      rw [List.lookup_cons_self] at hlookup
      obtain rfl := Option.some.inj hlookup
      simp [List.filter_eq_self.mpr hothers]
    · rw [List.lookup_cons, beq_eq_false_iff_ne.mpr (Ne.symm hkey)] at hlookup
      rw [List.filter_cons_of_pos (by simpa using hkey)]
      exact ((ih hrest hlookup).cons (key, target)).trans (List.Perm.swap _ _ _)

namespace Accounted

variable {held : List Handle} {loader loader' : Loader σ} {handle : Handle}

theorem distinct (h : loader.Accounted held) : (handlesOf loader.modules).Nodup :=
  h.balanced.distinct

theorem resident (h : loader.Accounted held) (hheld : handle ∈ held) :
    handle ∈ handlesOf loader.modules :=
  h.balanced.resident handle (List.mem_append_left _ hheld)

theorem handle_below (h : loader.Accounted held) (hresident : handle ∈ handlesOf loader.modules) :
    handle < loader.nextHandle := by
  obtain ⟨m, hm, rfl⟩ := Module.exists_of_mem_handlesOf hresident
  exact h.below m hm

/-- A handle that was not taken yet was not handed out. -/
theorem key_of_le (h : loader.Accounted held) (hnew : loader.nextHandle ≤ handle) :
    handle ∉ loader.handles.map (·.1) := by
  intro hmem
  obtain ⟨entry, hentry, rfl⟩ := List.mem_map.mp hmem
  exact UInt32.not_le.mpr (h.keys_below entry hentry) hnew

theorem fresh_nextHandle (h : loader.Accounted held) (hlast : loader.nextHandle ≠ lastHandle) :
    Fresh loader.nextHandle { loader with nextHandle := loader.nextHandle + 1 } where
  notMem hmem := UInt32.lt_irrefl _ (h.handle_below hmem)
  key := h.key_of_le (UInt32.le_refl _)
  below := lt_add_one hlast

theorem needed_resident (h : loader.Accounted held) (hneeded : handle ∈ needsOf loader.modules) :
    handle ∈ handlesOf loader.modules :=
  h.balanced.resident handle
    (List.mem_append_right held (List.mem_append_right _ hneeded))

theorem target_resident (h : loader.Accounted held) {entry : Handle × Handle}
    (hentry : entry ∈ loader.handles) : entry.2 ∈ handlesOf loader.modules :=
  h.balanced.resident entry.2
    (List.mem_append_right held (List.mem_append_left _ (List.mem_map_of_mem hentry)))

theorem resident_of_lookup (h : loader.Accounted held) {root : Handle}
    (hlookup : loader.handles.lookup handle = some root) : root ∈ handlesOf loader.modules :=
  h.target_resident ((perm_of_lookup h.keys hlookup).mem_iff.mpr List.mem_cons_self)

/-- Every module is referred to by a handle or by a module that needs it. -/
theorem exists_user (h : loader.Accounted []) {m : Module} (hm : m ∈ loader.modules) :
    (∃ entry ∈ loader.handles, entry.2 = m.handle) ∨
      ∃ n ∈ loader.modules, m.handle ∈ n.dependencies := by
  have hcount := h.balanced.counted m hm
  have hused := h.balanced.used m hm
  have hmem : m.handle ∈ loader.references := List.count_pos_iff.mp (hcount ▸ hused)
  rcases List.mem_append.mp hmem with hhandle | hneeded
  · exact Or.inl (List.mem_map.mp hhandle)
  · exact Or.inr (List.mem_flatMap.mp hneeded)

theorem congr (h : loader.Accounted held)
    (hties : loader'.modules.map Module.ties = loader.modules.map Module.ties)
    (hhandles : loader'.handles = loader.handles)
    (hnext : loader.nextHandle ≤ loader'.nextHandle) : loader'.Accounted held := by
  have hreferences : loader'.references = loader.references := by
    rw [references, references, hhandles, Module.needsOf_eq_of_ties hties]
  constructor
  · rw [hreferences]
    exact h.balanced.congr_of_ties hties
  · intro m' hm'
    obtain ⟨m, hm, heq⟩ := Module.exists_of_ties hties hm'
    simp only [Prod.mk.injEq] at heq
    rw [← heq.1]
    exact UInt32.lt_of_lt_of_le (h.below m hm) hnext
  · rw [hhandles]
    exact h.keys
  · rw [hhandles]
    intro entry hentry
    exact UInt32.lt_of_lt_of_le (h.keys_below entry hentry) hnext

theorem addReference (h : loader.Accounted held) (hhandle : handle ∈ handlesOf loader.modules) :
    (loader.update handle fun m => { m with useCount := m.useCount + 1 }).Accounted
      (handle :: held) := by
  constructor
  · rw [references, update, needsOf_updateModule]
    · exact h.balanced.addReference hhandle
    · intro m
      rfl
  · intro m' hm'
    obtain ⟨m, hm, rfl | ⟨-, rfl⟩⟩ := exists_of_mem_updateModule hm'
    · exact h.below m' hm
    · exact h.below m hm
  · exact h.keys
  · exact h.keys_below

/-- A new module is held until something refers to it. -/
theorem addModule (h : loader.Accounted held) {m : Module}
    (hfresh : m.handle ∉ handlesOf loader.modules) (hbelow : m.handle < loader.nextHandle)
    (huse : m.useCount = 1) (hneeds : m.dependencies = []) :
    { loader with modules := loader.modules ++ [m] }.Accounted (m.handle :: held) := by
  have hreferences : { loader with modules := loader.modules ++ [m] }.references =
      loader.references := by
    simp [references, needsOf, hneeds]
  constructor
  · rw [hreferences]
    exact h.balanced.addModule hfresh huse
  · intro n hn
    rcases List.mem_append.mp hn with hold | hnew
    · exact h.below n hold
    · obtain rfl := List.mem_singleton.mp hnew
      exact hbelow
  · exact h.keys
  · exact h.keys_below

/-- A held reference can be handed to a module, which then needs what it refers to. -/
theorem addDependency {found : Handle} (h : loader.Accounted (found :: held))
    (hhandle : handle ∈ handlesOf loader.modules) :
    (loader.update handle fun m =>
      { m with dependencies := m.dependencies ++ [found] }).Accounted held := by
  have hmodules : Balanced (found :: held ++ loader.references) (updateModule handle
      (fun m => { m with dependencies := m.dependencies ++ [found] }) loader.modules) := by
    refine h.balanced.congr (map_updateModule fun _ => rfl) ?_
    intro m' hm'
    obtain ⟨m, hm, rfl | ⟨-, rfl⟩⟩ := exists_of_mem_updateModule hm'
    · exact ⟨m', hm, rfl, rfl⟩
    · exact ⟨m, hm, rfl, rfl⟩
  constructor
  · have hmoved : (found :: held ++ loader.references).Perm
        (held ++ (loader.handles.map (·.2) ++ (found :: needsOf loader.modules))) := by
      rw [references, ← List.append_assoc, ← List.append_assoc]
      exact List.perm_middle.symm
    have hneeds : (needsOf (updateModule handle (fun m =>
        { m with dependencies := m.dependencies ++ [found] }) loader.modules)).Perm
          (found :: needsOf loader.modules) :=
      needsOf_updateModule_append hhandle
    exact hmodules.perm (hmoved.trans ((hneeds.symm.append_left _).append_left _))
  · intro m' hm'
    obtain ⟨m, hm, heq | ⟨-, heq⟩⟩ := exists_of_mem_updateModule hm'
    · exact heq ▸ h.below m hm
    · exact heq ▸ h.below m hm
  · exact h.keys
  · exact h.keys_below

theorem dropReference (h : loader.Accounted (handle :: held)) {m : Module}
    (hm : m ∈ loader.modules) (hhandle : m.handle = handle) (huse : 1 < m.useCount) :
    (loader.update handle fun m => { m with useCount := m.useCount - 1 }).Accounted held := by
  constructor
  · rw [references, update, needsOf_updateModule]
    · exact h.balanced.dropReference hm hhandle huse
    · intro m
      rfl
  · intro n' hn'
    obtain ⟨n, hn, rfl | ⟨-, rfl⟩⟩ := exists_of_mem_updateModule hn'
    · exact h.below n' hn
    · exact h.below n hn
  · exact h.keys
  · exact h.keys_below

/-- No module needs one that leaves with the reference that is held. -/
theorem unneeded (h : loader.Accounted (handle :: held)) {m : Module} (hm : m ∈ loader.modules)
    (hhandle : m.handle = handle) (huse : ¬1 < m.useCount) : handle ∉ needsOf loader.modules := by
  intro hmem
  refine h.balanced.notMem_of_last hm hhandle huse ?_
  exact List.mem_append_right held (List.mem_append_right _ hmem)

/-- The references of a module that leaves are held until they are dropped in turn. -/
theorem removeModule (h : loader.Accounted (handle :: held)) {m : Module}
    (hfind : Module.find? loader.modules handle = some m) (huse : ¬1 < m.useCount) :
    { loader with modules := loader.modules.eraseP (·.handle == handle) }.Accounted
      (m.dependencies ++ held) := by
  obtain ⟨hm, hhandle⟩ := Module.mem_of_find? hfind
  have hneeds := Module.needsOf_eraseP hfind
  refine ⟨?_, fun n hn => h.below n (List.mem_of_mem_eraseP hn), h.keys, h.keys_below⟩
  have hbalanced := h.balanced.removeModule hm hhandle huse
  rw [← Module.eraseP_eq_filter h.distinct] at hbalanced
  refine hbalanced.perm ?_
  have hmoved : (held ++ (loader.handles.map (·.2) ++ needsOf loader.modules)).Perm
      (held ++ (m.dependencies ++ (loader.handles.map (·.2) ++
        needsOf (loader.modules.eraseP (·.handle == handle))))) :=
    ((hneeds.append_left _).trans (List.perm_append_comm_assoc _ _ _)).append_left held
  refine hmoved.trans ((List.perm_append_comm_assoc _ _ _).trans ?_)
  rw [references, List.append_assoc]

/-- A held reference can be handed out under a new handle. -/
theorem addHandle {root : Handle} (h : loader.Accounted (root :: held))
    (hhandle : handle ∉ loader.handles.map (·.1)) (hbelow : handle < loader.nextHandle) :
    { loader with handles := (handle, root) :: loader.handles }.Accounted held := by
  constructor
  · exact h.balanced.perm List.perm_middle.symm
  · exact h.below
  · exact List.nodup_cons.mpr ⟨hhandle, h.keys⟩
  · exact List.forall_mem_cons.mpr ⟨hbelow, h.keys_below⟩

/-- The reference of a handle that is given up is held until it is dropped. -/
theorem takeHandle {root : Handle} (h : loader.Accounted held)
    (hlookup : loader.handles.lookup handle = some root) :
    { loader with handles := loader.handles.filter (·.1 != handle) }.Accounted (root :: held) := by
  have hperm := perm_of_lookup h.keys hlookup
  have hkept : ∀ entry ∈ loader.handles.filter (·.1 != handle), entry ∈ loader.handles :=
    fun _ hentry => (List.mem_filter.mp hentry).1
  refine ⟨h.balanced.perm ?_, h.below, ?_, fun entry hentry => h.keys_below entry (hkept _ hentry)⟩
  · have hmoved : (held ++ loader.references).Perm
        (held ++ (root :: ((loader.handles.filter (·.1 != handle)).map (·.2) ++
          needsOf loader.modules))) :=
      ((hperm.map (·.2)).append_right _).append_left held
    exact hmoved.trans List.perm_middle
  · exact h.keys.sublist (List.filter_sublist.map _)

end Accounted

/-! ## Between operations -/

variable [Client σ]

/-- What holds of a loader between its operations. -/
structure Sound (ledger : Ledger σ) (loader : Loader σ) : Prop where
  accounted : loader.Accounted []
  acyclic : Module.Acyclic loader.modules
  idle : loader.dsbt.pending = []
  bound : ∀ entry ∈ loader.dsbt.entries, entry.2.handle ∈ handlesOf loader.modules
  app : ∀ handle, loader.app = some handle → handle ∈ handlesOf loader.modules
  functionless : ∀ m ∈ loader.modules, m.symbolsOnly = true → m.fini = none ∧ m.finiArray = none
  holds : ledger.holds loader.client (allocationsOf loader.modules)

end Loader

end TargetLink
