import TargetLink.Loader.State
import Mathlib.Data.List.Count
import Mathlib.Data.List.Perm.Basic
import Mathlib.Data.List.Nodup
import Mathlib.Data.Multiset.AddSub

/-!
# Resident modules and the references to them

The operations on a list of modules find a module by its handle.  Where handles are distinct,
changing a module is a `map` and removing one is a `filter`.

`Balanced references modules` is the law of use counts: every reference leads to a module of the
list, every module is referred to, and its use count is the number of references to it.  The
references are any list, so the law can be followed through a load or an unload, while some
references are held by neither a handle nor a module.
-/

namespace TargetLink

namespace Module

/-- The handles of some modules. -/
abbrev handlesOf (modules : List Module) : List Handle := modules.map (·.handle)

/-- The references that some modules hold, each as often as it is held. -/
abbrev needsOf (modules : List Module) : List Handle := modules.flatMap (·.dependencies)

theorem handlesOf_cons (m : Module) (modules : List Module) :
    handlesOf (m :: modules) = m.handle :: handlesOf modules := rfl

theorem handlesOf_append (old new : List Module) :
    handlesOf (old ++ new) = handlesOf old ++ handlesOf new := List.map_append

/-- What the law of references reads of a module. -/
abbrev ties (m : Module) : Handle × Nat × List Handle := (m.handle, m.useCount, m.dependencies)

theorem handlesOf_eq_of_ties {modules modules' : List Module}
    (h : modules'.map ties = modules.map ties) : handlesOf modules' = handlesOf modules := by
  have hfst : ∀ ms : List Module, handlesOf ms = (ms.map ties).map Prod.fst := by
    intro ms
    rw [List.map_map]
    rfl
  rw [hfst, hfst, h]

theorem needsOf_congr {modules modules' : List Module}
    (h : modules'.map (·.dependencies) = modules.map (·.dependencies)) :
    needsOf modules' = needsOf modules := by
  rw [needsOf, needsOf, List.flatMap_def, List.flatMap_def, h]

theorem needsOf_eq_of_ties {modules modules' : List Module}
    (h : modules'.map ties = modules.map ties) : needsOf modules' = needsOf modules := by
  have hsnd : ∀ ms : List Module, ms.map (·.dependencies) = (ms.map ties).map (·.2.2) := by
    intro ms
    rw [List.map_map]
    rfl
  exact needsOf_congr (by rw [hsnd, hsnd, h])

theorem exists_of_ties {modules modules' : List Module}
    (h : modules'.map ties = modules.map ties) {m' : Module} (hm' : m' ∈ modules') :
    ∃ m ∈ modules, m.ties = m'.ties :=
  List.mem_map.mp (h ▸ List.mem_map_of_mem hm')

/-- A module without its use count. -/
def uncounted (m : Module) : Module := { m with useCount := 0 }

theorem needsOf_eq_of_uncounted {modules modules' : List Module}
    (h : modules'.map uncounted = modules.map uncounted) : needsOf modules' = needsOf modules := by
  have hview : ∀ ms : List Module, ms.map (·.dependencies) =
      (ms.map uncounted).map (·.dependencies) := by
    intro ms
    rw [List.map_map]
    rfl
  exact needsOf_congr (by rw [hview modules', hview modules, h])

/-- The allocations of all segments of some modules. -/
def allocationsOf (modules : List Module) : Multiset Allocation :=
  (modules.flatMap fun m => m.segments.map (·.allocation) : List Allocation)

theorem allocationsOf_cons (m : Module) (modules : List Module) :
    allocationsOf (m :: modules) =
      (m.segments.map (·.allocation) : List Allocation) + allocationsOf modules := by
  rw [allocationsOf, List.flatMap_cons, ← Multiset.coe_add, allocationsOf]

theorem allocationsOf_append (old new : List Module) :
    allocationsOf (old ++ new) = allocationsOf old + allocationsOf new := by
  rw [allocationsOf, List.flatMap_append, ← Multiset.coe_add, allocationsOf, allocationsOf]

theorem allocationsOf_congr {modules modules' : List Module}
    (h : modules'.map (·.segments) = modules.map (·.segments)) :
    allocationsOf modules' = allocationsOf modules := by
  have hsegments : ∀ ms : List Module, ms.flatMap (fun m => m.segments.map (·.allocation)) =
      (ms.map (·.segments)).flatMap fun segments => segments.map (·.allocation) := by
    intro ms
    rw [List.flatMap_map]
  rw [allocationsOf, allocationsOf, hsegments, hsegments, h]

variable {modules : List Module} {handle : Handle}

theorem exists_of_mem_handlesOf (h : handle ∈ handlesOf modules) :
    ∃ m ∈ modules, m.handle = handle :=
  List.mem_map.mp h

theorem handle_mem {m : Module} (h : m ∈ modules) : m.handle ∈ handlesOf modules :=
  List.mem_map_of_mem h

/-- In a list with distinct handles a handle names one module. -/
theorem eq_of_handle_eq (hdistinct : (handlesOf modules).Nodup) {m n : Module} (hm : m ∈ modules)
    (hn : n ∈ modules) (h : m.handle = n.handle) : m = n :=
  List.inj_on_of_nodup_map hdistinct hm hn h

theorem mem_of_find? {m : Module} (h : find? modules handle = some m) :
    m ∈ modules ∧ m.handle = handle :=
  ⟨List.mem_of_find?_eq_some h, by simpa using List.find?_some h⟩

theorem exists_find? (h : handle ∈ handlesOf modules) :
    ∃ m ∈ modules, m.handle = handle ∧ find? modules handle = some m := by
  cases hfind : find? modules handle with
  | some m =>
    obtain ⟨hm, hhandle⟩ := mem_of_find? hfind
    exact ⟨m, hm, hhandle, rfl⟩
  | none =>
    obtain ⟨m, hm, hhandle⟩ := exists_of_mem_handlesOf h
    have := List.find?_eq_none.mp hfind m hm
    simp [hhandle] at this

theorem find?_of_mem (hdistinct : (handlesOf modules).Nodup) {m : Module} (hm : m ∈ modules) :
    find? modules m.handle = some m := by
  obtain ⟨n, hn, hhandle, hfind⟩ := exists_find? (handle_mem hm)
  rw [hfind, eq_of_handle_eq hdistinct hn hm hhandle]

theorem find?_last {m : Module} (h : m.handle ∉ handlesOf modules) :
    find? (modules ++ [m]) m.handle = some m := by
  have hnone : modules.find? (·.handle == m.handle) = none := by
    refine List.find?_eq_none.mpr fun n hn heq => h ?_
    exact beq_iff_eq.mp heq ▸ handle_mem hn
  rw [find?, List.find?_append, hnone]
  simp

theorem perm_of_find? {m : Module} (h : find? modules handle = some m) :
    modules.Perm (m :: modules.eraseP (·.handle == handle)) := by
  induction modules with
  | nil => cases h
  | cons n modules ih =>
    rw [find?, List.find?_cons] at h
    cases hn : n.handle == handle with
    | true =>
      rw [hn] at h
      obtain rfl := Option.some.inj h
      simp [hn]
    | false =>
      rw [hn] at h
      rw [List.eraseP_cons_of_neg (by simp [hn])]
      exact ((ih h).cons n).trans (List.Perm.swap m n _)

theorem needsOf_eraseP {m : Module} (h : find? modules handle = some m) :
    (needsOf modules).Perm (m.dependencies ++ needsOf (modules.eraseP (·.handle == handle))) := by
  have hperm := (perm_of_find? h).flatMap_right (·.dependencies)
  rwa [List.flatMap_cons] at hperm

theorem allocationsOf_eraseP {m : Module} (h : find? modules handle = some m) :
    allocationsOf modules = (m.segments.map (·.allocation) : List Allocation) +
      allocationsOf (modules.eraseP (·.handle == handle)) := by
  rw [← allocationsOf_cons]
  exact Multiset.coe_eq_coe.mpr ((perm_of_find? h).flatMap_right _)

theorem eraseP_eq_filter (hdistinct : (handlesOf modules).Nodup) (handle : Handle) :
    modules.eraseP (·.handle == handle) = modules.filter (·.handle != handle) := by
  induction modules with
  | nil => rfl
  | cons m modules ih =>
    obtain ⟨hnotin, hrest⟩ := List.nodup_cons.mp hdistinct
    by_cases hm : m.handle = handle
    · have hothers : ∀ n ∈ modules, (n.handle != handle) = true := by
        intro n hn
        simp only [bne_iff_ne, ne_eq]
        intro heq
        have hmem := handle_mem hn
        rw [heq, ← hm] at hmem
        exact hnotin hmem
      simp [hm, List.filter_eq_self.mpr hothers]
    · simp [hm, ih hrest]

end Module

namespace Loader

open TargetLink.Module (handlesOf needsOf allocationsOf)

variable {modules : List Module} {handle : Handle} {change : Module → Module}

theorem updateModule_of_notMem (h : handle ∉ handlesOf modules) :
    updateModule handle change modules = modules := by
  induction modules with
  | nil => rfl
  | cons m modules ih =>
    rw [Module.handlesOf_cons, List.mem_cons, not_or] at h
    rw [updateModule, if_neg (Ne.symm h.1), ih h.2]

theorem updateModule_eq_map (hdistinct : (handlesOf modules).Nodup) :
    updateModule handle change modules =
      modules.map fun m => if m.handle = handle then change m else m := by
  induction modules with
  | nil => rfl
  | cons m modules ih =>
    obtain ⟨hnotin, hrest⟩ := List.nodup_cons.mp hdistinct
    rw [updateModule, List.map_cons, ← ih hrest]
    split
    · rename_i hm
      rw [updateModule_of_notMem (hm ▸ hnotin)]
    · rfl

theorem updateModule_append {old new : List Module} (h : handle ∉ handlesOf old) :
    updateModule handle change (old ++ new) = old ++ updateModule handle change new := by
  induction old with
  | nil => rfl
  | cons m old ih =>
    rw [Module.handlesOf_cons, List.mem_cons, not_or] at h
    rw [List.cons_append, updateModule, if_neg (Ne.symm h.1), ih h.2, List.cons_append]

theorem updateModule_append_left {old new : List Module} (h : handle ∉ handlesOf new) :
    updateModule handle change (old ++ new) = updateModule handle change old ++ new := by
  induction old with
  | nil => exact updateModule_of_notMem h
  | cons m old ih =>
    rw [List.cons_append, updateModule, updateModule]
    split
    · rfl
    · rw [ih, List.cons_append]

theorem updateModule_id (h : ∀ m, change m = m) : updateModule handle change modules = modules := by
  induction modules with
  | nil => rfl
  | cons m modules ih => rw [updateModule, h, ih, ite_self]

/-- Two changes of the same module are one. -/
theorem updateModule_updateModule {change' : Module → Module} (h : ∀ m, (change m).handle = m.handle) :
    updateModule handle change' (updateModule handle change modules) =
      updateModule handle (change' ∘ change) modules := by
  induction modules with
  | nil => rfl
  | cons m modules ih =>
    by_cases hm : m.handle = handle
    · simp only [updateModule, if_pos hm, if_pos ((h m).trans hm), Function.comp_apply]
    · simp only [updateModule, if_neg hm, ih]

/-- The module that is found is the one that was changed. -/
theorem find?_updateModule (h : ∀ m, (change m).handle = m.handle) :
    Module.find? (updateModule handle change modules) handle =
      (Module.find? modules handle).map change := by
  unfold Module.find?
  induction modules with
  | nil => rfl
  | cons m modules ih =>
    by_cases hm : m.handle = handle
    · rw [updateModule, if_pos hm, List.find?_cons_of_pos (by simp [h, hm]),
        List.find?_cons_of_pos (by simp [hm]), Option.map_some]
    · rw [updateModule, if_neg hm, List.find?_cons_of_neg (by simp [hm]),
        List.find?_cons_of_neg (by simp [hm]), ih]

/-- A change of a module does not show in what the change keeps. -/
theorem map_updateModule {β : Type} {view : Module → β} (h : ∀ m, view (change m) = view m) :
    (updateModule handle change modules).map view = modules.map view := by
  induction modules with
  | nil => rfl
  | cons m modules ih =>
    rw [updateModule]
    split
    · rw [List.map_cons, List.map_cons, h]
    · rw [List.map_cons, List.map_cons, ih]

theorem handlesOf_updateModule (h : ∀ m, (change m).handle = m.handle) :
    handlesOf (updateModule handle change modules) = handlesOf modules :=
  map_updateModule h

theorem needsOf_updateModule (h : ∀ m, (change m).dependencies = m.dependencies) :
    needsOf (updateModule handle change modules) = needsOf modules :=
  Module.needsOf_congr (map_updateModule h)

theorem allocationsOf_updateModule (h : ∀ m, (change m).segments = m.segments) :
    allocationsOf (updateModule handle change modules) = allocationsOf modules :=
  Module.allocationsOf_congr (map_updateModule h)

theorem exists_of_mem_updateModule {m' : Module} (h : m' ∈ updateModule handle change modules) :
    ∃ m ∈ modules, m' = m ∨ m.handle = handle ∧ m' = change m := by
  induction modules with
  | nil => cases h
  | cons m modules ih =>
    rw [updateModule] at h
    split at h
    · rename_i hm
      rcases List.mem_cons.mp h with rfl | hmem
      · exact ⟨m, List.mem_cons_self, Or.inr ⟨hm, rfl⟩⟩
      · exact ⟨m', List.mem_cons_of_mem m hmem, Or.inl rfl⟩
    · rcases List.mem_cons.mp h with rfl | hmem
      · exact ⟨m', List.mem_cons_self, Or.inl rfl⟩
      · obtain ⟨n, hn, heq⟩ := ih hmem
        exact ⟨n, List.mem_cons_of_mem m hn, heq⟩

theorem exists_mem_updateModule {m : Module} (h : m ∈ modules) (handle : Handle)
    (change : Module → Module) :
    ∃ m' ∈ updateModule handle change modules, m' = m ∨ m' = change m := by
  induction modules with
  | nil => cases h
  | cons n modules ih =>
    rw [updateModule]
    rcases List.mem_cons.mp h with rfl | hmem
    · split
      · exact ⟨change m, List.mem_cons_self, Or.inr rfl⟩
      · exact ⟨m, List.mem_cons_self, Or.inl rfl⟩
    · split
      · exact ⟨m, List.mem_cons_of_mem _ hmem, Or.inl rfl⟩
      · obtain ⟨m', hm', heq⟩ := ih hmem
        exact ⟨m', List.mem_cons_of_mem n hm', heq⟩

theorem needsOf_updateModule_append {found : Handle} (h : handle ∈ handlesOf modules) :
    (needsOf (updateModule handle
        (fun m => { m with dependencies := m.dependencies ++ [found] }) modules)).Perm
      (found :: needsOf modules) := by
  induction modules with
  | nil => cases h
  | cons m modules ih =>
    rw [updateModule]
    split
    · simp only [needsOf, List.flatMap_cons, List.append_assoc, List.singleton_append]
      exact List.perm_middle
    · rename_i hne
      have hmem := (List.mem_cons.mp h).resolve_left (Ne.symm hne)
      simp only [needsOf, List.flatMap_cons]
      exact ((ih hmem).append_left _).trans List.perm_middle

theorem allocationsOf_updateModule_append {segment : Segment}
    (h : handle ∈ handlesOf modules) :
    allocationsOf
        (updateModule handle (fun m => { m with segments := m.segments ++ [segment] }) modules) =
      segment.allocation ::ₘ allocationsOf modules := by
  induction modules with
  | nil => cases h
  | cons m modules ih =>
    rw [updateModule]
    split
    · rw [Module.allocationsOf_cons, Module.allocationsOf_cons, List.map_append,
        ← Multiset.coe_add, ← Multiset.singleton_add, ← Multiset.add_assoc]
      congr 1
      exact Multiset.add_comm _ _
    · rename_i hne
      have hmem := (List.mem_cons.mp h).resolve_left (Ne.symm hne)
      rw [Module.allocationsOf_cons, Module.allocationsOf_cons, ih hmem, Multiset.add_cons]

end Loader

/-! ## Use counts -/

/-- Every reference leads to a module, and every module is used as often as it is referred to, at
least once. -/
structure Balanced (references : List Handle) (modules : List Module) : Prop where
  distinct : (Module.handlesOf modules).Nodup
  resident : ∀ h ∈ references, h ∈ Module.handlesOf modules
  counted : ∀ m ∈ modules, m.useCount = references.count m.handle
  used : ∀ m ∈ modules, 0 < m.useCount

namespace Balanced

open TargetLink.Module (handlesOf needsOf)

variable {references references' : List Handle} {modules modules' : List Module} {handle : Handle}

theorem perm (h : Balanced references modules) (hperm : references.Perm references') :
    Balanced references' modules where
  distinct := h.distinct
  resident r hr := h.resident r (hperm.mem_iff.mpr hr)
  counted m hm := (h.counted m hm).trans (hperm.count_eq m.handle)
  used := h.used

theorem congr (h : Balanced references modules)
    (hhandles : handlesOf modules' = handlesOf modules)
    (huse : ∀ m' ∈ modules', ∃ m ∈ modules, m.handle = m'.handle ∧ m.useCount = m'.useCount) :
    Balanced references modules' := by
  constructor
  · rw [hhandles]
    exact h.distinct
  · rw [hhandles]
    exact h.resident
  · intro m' hm'
    obtain ⟨m, hm, hhandle, hcount⟩ := huse m' hm'
    rw [← hhandle, ← hcount]
    exact h.counted m hm
  · intro m' hm'
    obtain ⟨m, hm, -, hcount⟩ := huse m' hm'
    rw [← hcount]
    exact h.used m hm

theorem congr_of_ties (h : Balanced references modules)
    (hties : modules'.map Module.ties = modules.map Module.ties) :
    Balanced references modules' := by
  apply h.congr (Module.handlesOf_eq_of_ties hties)
  intro m' hm'
  obtain ⟨m, hm, heq⟩ := Module.exists_of_ties hties hm'
  simp only [Prod.mk.injEq] at heq
  exact ⟨m, hm, heq.1, heq.2.1⟩

/-- The use count of one module follows the references to it. -/
theorem recount (h : Balanced references modules) (count : Nat → Nat)
    (hresident : ∀ r ∈ references', r ∈ handlesOf modules)
    (hchanged : ∀ m ∈ modules, m.handle = handle →
      count m.useCount = references'.count handle ∧ 0 < count m.useCount)
    (hothers : ∀ other, other ≠ handle → references'.count other = references.count other) :
    Balanced references'
      (Loader.updateModule handle (fun m => { m with useCount := count m.useCount }) modules) := by
  constructor
  · rw [Loader.handlesOf_updateModule]
    · exact h.distinct
    · intro m
      rfl
  · rw [Loader.handlesOf_updateModule]
    · exact hresident
    · intro m
      rfl
  · rw [Loader.updateModule_eq_map h.distinct]
    intro m' hm'
    obtain ⟨m, hm, rfl⟩ := List.mem_map.mp hm'
    by_cases heq : m.handle = handle
    · simpa [heq] using (hchanged m hm heq).1
    · simpa [heq, hothers m.handle heq] using h.counted m hm
  · rw [Loader.updateModule_eq_map h.distinct]
    intro m' hm'
    obtain ⟨m, hm, rfl⟩ := List.mem_map.mp hm'
    by_cases heq : m.handle = handle
    · simpa [heq] using (hchanged m hm heq).2
    · simpa [heq] using h.used m hm

theorem addReference (h : Balanced references modules) (hhandle : handle ∈ handlesOf modules) :
    Balanced (handle :: references)
      (Loader.updateModule handle (fun m => { m with useCount := m.useCount + 1 }) modules) := by
  refine h.recount (· + 1) ?_ ?_ ?_
  · intro r hr
    rcases List.mem_cons.mp hr with rfl | hr
    · exact hhandle
    · exact h.resident r hr
  · intro m hm heq
    rw [List.count_cons_self, h.counted m hm, heq]
    simp
  · intro other hother
    exact List.count_cons_of_ne (Ne.symm hother)

theorem addModule (h : Balanced references modules) {m : Module}
    (hfresh : m.handle ∉ handlesOf modules) (huse : m.useCount = 1) :
    Balanced (m.handle :: references) (modules ++ [m]) := by
  have hunused : references.count m.handle = 0 :=
    List.count_eq_zero.mpr fun hmem => hfresh (h.resident _ hmem)
  constructor
  · rw [Module.handlesOf_append, List.nodup_append']
    refine ⟨h.distinct, List.nodup_singleton _, ?_⟩
    simpa using hfresh
  · intro r hr
    rw [Module.handlesOf_append, List.mem_append]
    rcases List.mem_cons.mp hr with rfl | hr
    · exact Or.inr List.mem_cons_self
    · exact Or.inl (h.resident r hr)
  · intro n hn
    rcases List.mem_append.mp hn with hold | hnew
    · have hne : m.handle ≠ n.handle := fun heq => hfresh (heq ▸ Module.handle_mem hold)
      rw [List.count_cons_of_ne hne]
      exact h.counted n hold
    · obtain rfl := List.mem_singleton.mp hnew
      rw [List.count_cons_self, hunused, huse]
  · intro n hn
    rcases List.mem_append.mp hn with hold | hnew
    · exact h.used n hold
    · obtain rfl := List.mem_singleton.mp hnew
      omega

/-- A module that is used more than once stays when a reference to it goes. -/
theorem dropReference (h : Balanced (handle :: references) modules) {m : Module} (hm : m ∈ modules)
    (hhandle : m.handle = handle) (huse : 1 < m.useCount) :
    Balanced references
      (Loader.updateModule handle (fun m => { m with useCount := m.useCount - 1 }) modules) := by
  refine h.recount (· - 1) ?_ ?_ ?_
  · intro r hr
    exact h.resident r (List.mem_cons_of_mem handle hr)
  · intro n hn heq
    obtain rfl := Module.eq_of_handle_eq h.distinct hm hn (hhandle.trans heq.symm)
    have hcount := h.counted m hm
    rw [hhandle, List.count_cons_self] at hcount
    omega
  · intro other hother
    exact (List.count_cons_of_ne (Ne.symm hother)).symm

/-- A module that is used once is not referred to when that reference goes. -/
theorem notMem_of_last (h : Balanced (handle :: references) modules) {m : Module} (hm : m ∈ modules)
    (hhandle : m.handle = handle) (huse : ¬1 < m.useCount) : handle ∉ references := by
  have hcount := h.counted m hm
  rw [hhandle, List.count_cons_self] at hcount
  exact List.count_eq_zero.mp (by omega)

/-- A module leaves with the last reference to it. -/
theorem removeModule (h : Balanced (handle :: references) modules) {m : Module} (hm : m ∈ modules)
    (hhandle : m.handle = handle) (huse : ¬1 < m.useCount) :
    Balanced references (modules.filter (·.handle != handle)) := by
  have hunused := h.notMem_of_last hm hhandle huse
  have hmem : ∀ n, n ∈ modules.filter (·.handle != handle) ↔ n ∈ modules ∧ n.handle ≠ handle := by
    simp
  constructor
  · exact h.distinct.sublist (List.filter_sublist.map _)
  · intro r hr
    obtain ⟨n, hn, rfl⟩ := Module.exists_of_mem_handlesOf (h.resident r (List.mem_cons_of_mem _ hr))
    exact Module.handle_mem ((hmem n).mpr ⟨hn, fun heq => hunused (heq ▸ hr)⟩)
  · intro n hn
    obtain ⟨hn, hne⟩ := (hmem n).mp hn
    rw [h.counted n hn, List.count_cons_of_ne (Ne.symm hne)]
  · intro n hn
    exact h.used n ((hmem n).mp hn).1

/-- Use counts follow from the references. -/
theorem eq_of_uncounted (h : Balanced references modules) (h' : Balanced references modules')
    (heq : modules'.map Module.uncounted = modules.map Module.uncounted) : modules' = modules := by
  have hrecount : ∀ ms, Balanced references ms → ms =
      (ms.map Module.uncounted).map fun m => { m with useCount := references.count m.handle } := by
    intro ms hms
    rw [List.map_map]
    refine (List.map_id ms).symm.trans (List.map_congr_left fun m hm => ?_)
    simp [Module.uncounted, ← hms.counted m hm]
  rw [hrecount modules' h', heq, ← hrecount modules h]

end Balanced

/-! ## Circles -/

/-- The modules can be ranked so that each needs only modules below it. -/
def Module.Acyclic (modules : List Module) : Prop :=
  ∃ rank : Handle → Nat, ∀ m ∈ modules, ∀ d ∈ m.dependencies, rank d < rank m.handle

namespace Module.Acyclic

variable {modules modules' : List Module} {handle found : Handle}

theorem mono (h : Acyclic modules) (hsub : ∀ m' ∈ modules', ∃ m ∈ modules,
    m'.handle = m.handle ∧ m'.dependencies = m.dependencies) : Acyclic modules' := by
  obtain ⟨rank, hrank⟩ := h
  refine ⟨rank, fun m' hm' => ?_⟩
  obtain ⟨m, hm, hhandle, hneeds⟩ := hsub m' hm'
  rw [hhandle, hneeds]
  exact hrank m hm

theorem congr (h : Acyclic modules)
    (hties : modules'.map Module.ties = modules.map Module.ties) : Acyclic modules' := by
  apply h.mono
  intro m' hm'
  obtain ⟨m, hm, heq⟩ := Module.exists_of_ties hties hm'
  simp only [Prod.mk.injEq] at heq
  exact ⟨m, hm, heq.1.symm, heq.2.2.symm⟩

theorem addModule (h : Acyclic modules) {m : Module} (hneeds : m.dependencies = []) :
    Acyclic (modules ++ [m]) := by
  obtain ⟨rank, hrank⟩ := h
  refine ⟨rank, fun n hn d hd => ?_⟩
  rcases List.mem_append.mp hn with hold | hnew
  · exact hrank n hold d hd
  · obtain rfl := List.mem_singleton.mp hnew
    rw [hneeds] at hd
    cases hd

/-- A module that no module needs may come to need any other one: it is ranked above everything
that it needs. -/
theorem addDependency (h : Acyclic modules) (hdistinct : (handlesOf modules).Nodup)
    (hunneeded : handle ∉ needsOf modules) (hfound : found ≠ handle) :
    Acyclic (Loader.updateModule handle
      (fun m => { m with dependencies := m.dependencies ++ [found] }) modules) := by
  obtain ⟨rank, hrank⟩ := h
  refine ⟨fun d => if d = handle then max (rank handle) (rank found + 1) else rank d, ?_⟩
  have hother : ∀ m ∈ modules, ∀ d ∈ m.dependencies, d ≠ handle := by
    rintro m hm d hd rfl
    exact hunneeded (List.mem_flatMap.mpr ⟨m, hm, hd⟩)
  rw [Loader.updateModule_eq_map hdistinct]
  intro m' hm' d hd
  obtain ⟨m, hm, rfl⟩ := List.mem_map.mp hm'
  by_cases hself : m.handle = handle
  · simp only [hself, if_true] at hd ⊢
    rcases List.mem_append.mp hd with hd | hd
    · have := hrank m hm d hd
      rw [if_neg (hother m hm d hd)]
      rw [hself] at this
      omega
    · obtain rfl := List.mem_singleton.mp hd
      rw [if_neg hfound]
      omega
  · simp only [hself, if_false] at hd ⊢
    rw [if_neg (hother m hm d hd)]
    exact hrank m hm d hd

/-- What holds of a module if it holds of all modules that need it holds of every module. -/
theorem induct_users (h : Acyclic modules) {P : Module → Prop}
    (hstep : ∀ m ∈ modules, (∀ n ∈ modules, m.handle ∈ n.dependencies → P n) → P m) :
    ∀ m ∈ modules, P m := by
  obtain ⟨rank, hrank⟩ := h
  obtain ⟨bound, hbound⟩ : ∃ bound, ∀ m ∈ modules, rank m.handle ≤ bound :=
    ⟨(modules.map (rank ·.handle)).max?.getD 0,
      fun m hm => List.le_max?_getD_of_mem (List.mem_map_of_mem hm)⟩
  intro m hm
  induction hdistance : bound - rank m.handle using Nat.strongRecOn generalizing m with
  | ind distance ih =>
    refine hstep m hm fun n hn hneeds => ih _ ?_ n hn rfl
    have hlower := hrank n hn m.handle hneeds
    have hupper := hbound n hn
    omega

end Module.Acyclic

end TargetLink
