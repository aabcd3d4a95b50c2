import TargetLink.Loader.Session
import TargetLink.Proofs.Accounting

/-!
# The books of a load

`Loading.Books ledger start` relates a loader in the middle of a load to the loader that the load
began with.  The old modules stand in front, unchanged but for the references that the books note as
reused; the new ones follow and are those that the books note as created.  Handles, machine and the
bound claims of old modules are as they were.  This holds at every point where a load can fail, and it
is all that undoing the load needs.

`Loading.Placing` adds what holds while a graph is placed and nothing has failed: the law of
references, no circles, and that no module needs one whose dependencies are still being loaded.
-/

namespace TargetLink

open TargetLink.Module (handlesOf needsOf allocationsOf)

namespace Loading

variable {σ : Type}

/-- A module with the references that a load added to it. -/
def raised (reused : List Handle) (m : Module) : Module :=
  { m with useCount := m.useCount + reused.count m.handle }

@[simp] theorem raised_nil : raised [] = id := rfl

theorem handlesOf_map_raised (reused : List Handle) (modules : List Module) :
    handlesOf (modules.map (raised reused)) = handlesOf modules := by
  rw [handlesOf, List.map_map]
  rfl

theorem allocationsOf_map_raised (reused : List Handle) (modules : List Module) :
    allocationsOf (modules.map (raised reused)) = allocationsOf modules := by
  refine Module.allocationsOf_congr ?_
  rw [List.map_map]
  rfl

theorem map_raised_append {modules : List Module} (hdistinct : (handlesOf modules).Nodup)
    (reused : List Handle) (handle : Handle) :
    Loader.updateModule handle (fun m => { m with useCount := m.useCount + 1 })
        (modules.map (raised reused)) = modules.map (raised (reused ++ [handle])) := by
  rw [Loader.updateModule_eq_map (by rwa [handlesOf_map_raised]), List.map_map]
  apply List.map_congr_left
  intro m _
  by_cases hm : m.handle = handle
  · subst hm
    simp [raised, List.count_append, Nat.add_assoc]
  · have hne : handle ≠ m.handle := Ne.symm hm
    simp [raised, List.count_append, hm, hne]

/-- The load after a resident module came to need another one. -/
def withDependency (handle found : Handle) (loading : Loading σ) : Loading σ :=
  { loading with
    loader := loading.loader.update handle fun m =>
      { m with dependencies := m.dependencies ++ [found] } }

variable [Client σ]

/-- What a load did to the loader that it began with. The allocations `extra` belong to no module
yet. -/
structure Books (ledger : Ledger σ) (start : Loader σ) (extra : Multiset Allocation)
    (loading : Loading σ) : Prop where
  modules : ∃ new, loading.loader.modules = start.modules.map (raised loading.session.reused) ++ new ∧
    handlesOf new = loading.session.created
  distinct : (handlesOf loading.loader.modules).Nodup
  created : ∀ h ∈ loading.session.created, start.nextHandle ≤ h
  nextHandle : start.nextHandle ≤ loading.loader.nextHandle
  handles : loading.loader.handles = start.handles
  machine : loading.loader.machine = start.machine
  unclashing : loading.loader.dsbt.Unclashing
  waiting : ∀ claim ∈ loading.loader.dsbt.pending, claim.handle ∈ loading.session.created
  entries : loading.loader.dsbt.entries.filter (fun entry => entry.2.handle < start.nextHandle) =
    start.dsbt.entries
  bound : ∀ entry ∈ loading.loader.dsbt.entries, start.nextHandle ≤ entry.2.handle →
    entry.2.handle ∈ loading.session.created
  whole : ∀ m ∈ loading.loader.modules, start.nextHandle ≤ m.handle → m.symbolsOnly = false
  holds : ledger.holds loading.loader.client (allocationsOf loading.loader.modules + extra)

namespace Books

variable {ledger : Ledger σ} {start : Loader σ} {extra extra' : Multiset Allocation}
  {loading : Loading σ} {handle : Handle} {change : Module → Module}

theorem start_below (hstart : start.Sound ledger) (hhandle : handle ∈ handlesOf start.modules) :
    ¬start.nextHandle ≤ handle :=
  UInt32.not_le.mpr (hstart.accounted.handle_below hhandle)

theorem begin (hstart : start.Sound ledger) : Books ledger start 0 { loader := start } where
  modules := ⟨[], by simp, rfl⟩
  distinct := hstart.accounted.distinct
  created := by simp
  nextHandle := UInt32.le_refl _
  handles := rfl
  machine := rfl
  unclashing := Dsbt.unclashing_of_pending hstart.idle
  waiting := by simp [hstart.idle]
  entries := by
    apply List.filter_eq_self.mpr
    intro entry hentry
    simpa using hstart.accounted.handle_below (hstart.bound entry hentry)
  bound := fun entry hentry hle => absurd hle (start_below hstart (hstart.bound entry hentry))
  whole := fun _ hm hle => absurd hle (start_below hstart (Module.handle_mem hm))
  holds := by simpa using hstart.holds

theorem mem_created (h : Books ledger start extra loading)
    (hresident : handle ∈ handlesOf loading.loader.modules)
    (hnew : handle ∉ handlesOf start.modules) : handle ∈ loading.session.created := by
  obtain ⟨new, hmodules, hcreated⟩ := h.modules
  rw [hmodules, Module.handlesOf_append, handlesOf_map_raised] at hresident
  rw [← hcreated]
  exact (List.mem_append.mp hresident).resolve_left hnew

theorem resident_of_start (h : Books ledger start extra loading)
    (hold : handle ∈ handlesOf start.modules) : handle ∈ handlesOf loading.loader.modules := by
  obtain ⟨new, hmodules, -⟩ := h.modules
  rw [hmodules, Module.handlesOf_append, handlesOf_map_raised]
  exact List.mem_append_left _ hold

theorem resident_of_created (h : Books ledger start extra loading)
    (hnew : handle ∈ loading.session.created) : handle ∈ handlesOf loading.loader.modules := by
  obtain ⟨new, hmodules, hcreated⟩ := h.modules
  rw [hmodules, Module.handlesOf_append, hcreated]
  exact List.mem_append_right _ hnew

theorem mem_start (h : Books ledger start extra loading)
    (hresident : handle ∈ handlesOf loading.loader.modules)
    (hold : handle ∉ loading.session.created) : handle ∈ handlesOf start.modules := by
  by_contra hnew
  exact hold (h.mem_created hresident hnew)

/-- The entries that are not of new modules are the old ones. -/
theorem filter_entries_created (h : Books ledger start extra loading) :
    loading.loader.dsbt.entries.filter (·.2.handle ∉ loading.session.created) =
      start.dsbt.entries := by
  rw [← h.entries]
  apply List.filter_congr
  intro entry hentry
  rw [Bool.eq_iff_iff, decide_eq_true_iff, decide_eq_true_iff]
  constructor
  · intro hnotin
    exact UInt32.not_le.mp fun hle => hnotin (h.bound entry hentry hle)
  · intro hlt hmem
    exact UInt32.not_le.mpr hlt (h.created _ hmem)

/-- The client may do anything that leaves its ledger right. -/
theorem client (h : Books ledger start extra loading) {client : σ}
    (hholds : ledger.holds client (allocationsOf loading.loader.modules + extra')) :
    Books ledger start extra' { loading with loader := { loading.loader with client } } :=
  { h with holds := hholds }

theorem whole_update (h : Books ledger start extra loading)
    (hhandle : ∀ m, (change m).handle = m.handle)
    (hsymbols : ∀ m, (change m).symbolsOnly = m.symbolsOnly) :
    ∀ m ∈ (loading.loader.update handle change).modules, start.nextHandle ≤ m.handle →
      m.symbolsOnly = false := by
  intro m' hm' hle
  obtain ⟨m, hm, rfl | ⟨-, rfl⟩⟩ := Loader.exists_of_mem_updateModule hm'
  · exact h.whole m' hm hle
  · rw [hsymbols]
    exact h.whole m hm (hhandle m ▸ hle)

/-- A new module may change in everything but its handle and its kind. -/
theorem update (h : Books ledger start extra loading) (hnew : handle ∉ handlesOf start.modules)
    (hhandle : ∀ m, (change m).handle = m.handle)
    (hsymbols : ∀ m, (change m).symbolsOnly = m.symbolsOnly)
    (hholds : ledger.holds loading.loader.client
      (allocationsOf (Loader.updateModule handle change loading.loader.modules) + extra')) :
    Books ledger start extra' { loading with loader := loading.loader.update handle change } := by
  refine { h with
    modules := ?_, distinct := ?_, whole := h.whole_update hhandle hsymbols, holds := hholds }
  · obtain ⟨new, hmodules, hcreated⟩ := h.modules
    refine ⟨Loader.updateModule handle change new, ?_, ?_⟩
    · rw [Loader.update, hmodules]
      exact Loader.updateModule_append (by rwa [handlesOf_map_raised])
    · rw [← hcreated]
      exact Loader.handlesOf_updateModule hhandle
  · rw [Loader.update, Loader.handlesOf_updateModule hhandle]
    exact h.distinct

/-- A resident module of the start is noted each time it is used again. -/
theorem noteReuse (h : Books ledger start extra loading) (hstart : start.Sound ledger)
    (hold : handle ∈ handlesOf start.modules) :
    Books ledger start extra
      { loader := loading.loader.update handle fun m => { m with useCount := m.useCount + 1 }
        session := { loading.session with reused := loading.session.reused ++ [handle] } } := by
  refine { h with
    modules := ?_, distinct := ?_, whole := h.whole_update (fun _ => rfl) fun _ => rfl, holds := ?_ }
  · obtain ⟨new, hmodules, hcreated⟩ := h.modules
    have hnotin : handle ∉ handlesOf new := by
      intro hmem
      exact start_below hstart hold (h.created handle (hcreated ▸ hmem))
    refine ⟨new, ?_, hcreated⟩
    rw [Loader.update, hmodules, ← map_raised_append hstart.accounted.distinct]
    exact Loader.updateModule_append_left hnotin
  · rw [Loader.update, Loader.handlesOf_updateModule]
    · exact h.distinct
    · intro m
      rfl
  · rw [Loader.update, Loader.allocationsOf_updateModule]
    · exact h.holds
    · intro m
      rfl

/-- A module under a fresh handle is new. -/
theorem addModule (h : Books ledger start extra loading) {m : Module}
    (hfresh : m.handle ∉ handlesOf loading.loader.modules) (hnew : start.nextHandle ≤ m.handle)
    (hsegments : m.segments = []) (hsymbols : m.symbolsOnly = false) :
    Books ledger start extra
      { loader := { loading.loader with modules := loading.loader.modules ++ [m] }
        session := { loading.session with created := loading.session.created ++ [m.handle] } } := by
  refine { h with modules := ?_, distinct := ?_, created := ?_, waiting := ?_, bound := ?_,
                  whole := ?_, holds := ?_ }
  · obtain ⟨new, hmodules, hcreated⟩ := h.modules
    refine ⟨new ++ [m], ?_, ?_⟩
    · rw [hmodules, List.append_assoc]
    · rw [Module.handlesOf_append, hcreated]
      rfl
  · rw [Module.handlesOf_append, List.nodup_append']
    refine ⟨h.distinct, List.nodup_singleton _, ?_⟩
    simpa using hfresh
  · intro handle hhandle
    rcases List.mem_append.mp hhandle with hold | hlast
    · exact h.created handle hold
    · exact List.mem_singleton.mp hlast ▸ hnew
  · intro claim hclaim
    exact List.mem_append_left _ (h.waiting claim hclaim)
  · intro entry hentry hle
    exact List.mem_append_left _ (h.bound entry hentry hle)
  · intro n hn hle
    rcases List.mem_append.mp hn with hold | hlast
    · exact h.whole n hold hle
    · exact List.mem_singleton.mp hlast ▸ hsymbols
  · have hnone : allocationsOf [m] = 0 := by
      simp [allocationsOf, hsegments]
    rw [Module.allocationsOf_append, hnone]
    simpa using h.holds

/-- A new module may claim a slot. -/
theorem register (h : Books ledger start extra loading) {claim : Dsbt.Claim} {dsbt : Dsbt}
    (hregister : loading.loader.dsbt.register claim = .ok dsbt)
    (hnew : claim.handle ∈ loading.session.created) :
    Books ledger start extra { loading with loader := { loading.loader with dsbt } } := by
  have heq := Dsbt.register_eq hregister
  refine { h with unclashing := ?_, waiting := ?_, entries := ?_, bound := ?_ }
  · exact h.unclashing.register hregister
  · intro other hother
    rw [heq] at hother
    rcases List.mem_append.mp hother with hold | hlast
    · exact h.waiting other hold
    · exact List.mem_singleton.mp hlast ▸ hnew
  · rw [heq]
    exact h.entries
  · rw [heq]
    exact h.bound

/-- Binding all claims adds entries of new modules only. -/
theorem assign (h : Books ledger start extra loading) :
    Books ledger start extra
      { loading with loader := { loading.loader with dsbt := loading.loader.dsbt.assign } } := by
  refine { h with unclashing := ?_, waiting := ?_, entries := ?_, bound := ?_ }
  · exact Dsbt.unclashing_of_pending (Dsbt.pending_assign _)
  · simp
  · rw [← h.entries]
    apply h.unclashing.filter_entries_assign (fun claim => claim.handle < start.nextHandle)
    intro claim hclaim
    simpa using h.created claim.handle (h.waiting claim hclaim)
  · intro entry hentry hle
    by_contra hnotin
    have hkept := h.unclashing.filter_entries_assign
      (fun claim => claim.handle ∉ loading.session.created) fun claim hclaim => by
        simpa using h.waiting claim hclaim
    have hmem : entry ∈ loading.loader.dsbt.assign.entries.filter
        fun e => e.2.handle ∉ loading.session.created :=
      List.mem_filter.mpr ⟨hentry, by simpa using hnotin⟩
    rw [hkept] at hmem
    exact hnotin (h.bound entry (List.mem_filter.mp hmem).1 hle)

/-- The rest of the bookkeeping of a session is free. -/
theorem session {session : Session} (h : Books ledger start extra loading)
    (hcreated : session.created = loading.session.created)
    (hreused : session.reused = loading.session.reused) :
    Books ledger start extra { loading with session } := by
  refine { h with modules := ?_, created := ?_, waiting := ?_, bound := ?_ }
  · rw [hcreated, hreused]
    exact h.modules
  · rw [hcreated]
    exact h.created
  · rw [hcreated]
    exact h.waiting
  · rw [hcreated]
    exact h.bound

end Books

/-! ## While a graph is placed -/

/-- What holds while a graph is placed and nothing has failed. The new modules that are not
complete are `opened`, the outermost first, with their names; `names` are those that count as in
progress. -/
structure Placing (ledger : Ledger σ) (start : Loader σ) (extra : Multiset Allocation)
    (held : List Handle) (opened : List (Handle × String)) (names : List String)
    (loading : Loading σ) : Prop
    extends Books ledger start extra loading where
  app : loading.loader.app = start.app
  accounted : loading.loader.Accounted held
  acyclic : Module.Acyclic loading.loader.modules
  inProgress : loading.session.inProgress = names
  named : ∀ o ∈ opened, ∃ m ∈ loading.loader.modules, m.handle = o.1 ∧ m.name = o.2
  unneeded : ∀ o ∈ opened, o.1 ∉ needsOf loading.loader.modules

namespace Placing

variable {ledger : Ledger σ} {start : Loader σ} {extra extra' : Multiset Allocation}
  {held : List Handle} {opened : List (Handle × String)} {loading : Loading σ}
  {names : List String} {handle : Handle} {change : Module → Module}

theorem begin (hstart : start.Sound ledger) :
    Placing ledger start 0 [] [] [] { loader := start } where
  toBooks := Books.begin hstart
  app := rfl
  accounted := hstart.accounted
  acyclic := hstart.acyclic
  inProgress := rfl
  named := by simp
  unneeded := by simp

theorem client (h : Placing ledger start extra held opened names loading) {client : σ}
    (hholds : ledger.holds client (allocationsOf loading.loader.modules + extra')) :
    Placing ledger start extra' held opened names
      { loading with loader := { loading.loader with client } } :=
  { h with
    toBooks := h.toBooks.client hholds
    accounted := h.accounted.congr rfl rfl (UInt32.le_refl _) }

theorem quiet (h : Placing ledger start extra held opened names loading) {client : σ}
    (hquiet : ledger.Quiet loading.loader.client client) :
    Placing ledger start extra held opened names
      { loading with loader := { loading.loader with client } } :=
  h.client (hquiet _ h.holds)

theorem named_update (h : Placing ledger start extra held opened names loading)
    (hhandle : ∀ m, (change m).handle = m.handle) (hname : ∀ m, (change m).name = m.name) :
    ∀ o ∈ opened, ∃ m ∈ (loading.loader.update handle change).modules,
      m.handle = o.1 ∧ m.name = o.2 := by
  intro o ho
  obtain ⟨m, hm, heq⟩ := h.named o ho
  obtain ⟨m', hm', rfl | rfl⟩ := Loader.exists_mem_updateModule hm handle change
  · exact ⟨m', hm', heq⟩
  · exact ⟨change m, hm', (hhandle m).trans heq.1, (hname m).trans heq.2⟩

/-- A new module may change in whatever neither its references, its name nor its kind show. -/
theorem update (h : Placing ledger start extra held opened names loading)
    (hnew : handle ∉ handlesOf start.modules) (hties : ∀ m, (change m).ties = m.ties)
    (hname : ∀ m, (change m).name = m.name)
    (hsymbols : ∀ m, (change m).symbolsOnly = m.symbolsOnly)
    (hholds : ledger.holds loading.loader.client
      (allocationsOf (Loader.updateModule handle change loading.loader.modules) + extra')) :
    Placing ledger start extra' held opened names
      { loading with loader := loading.loader.update handle change } := by
  have hmap : (loading.loader.update handle change).modules.map Module.ties =
      loading.loader.modules.map Module.ties :=
    Loader.map_updateModule hties
  refine { h with
    toBooks := h.toBooks.update hnew (fun m => congrArg Prod.fst (hties m)) hsymbols hholds
    accounted := h.accounted.congr hmap rfl (UInt32.le_refl _)
    acyclic := h.acyclic.congr hmap
    named := h.named_update (fun m => congrArg Prod.fst (hties m)) hname
    unneeded := fun o ho => ?_ }
  rw [Module.needsOf_eq_of_ties hmap]
  exact h.unneeded o ho

/-- A resident module that is not being loaded may be used again. -/
theorem reuse (h : Placing ledger start extra held opened names loading) (hstart : start.Sound ledger)
    (hresident : handle ∈ handlesOf loading.loader.modules) :
    Placing ledger start extra (handle :: held) opened names
      { loader := loading.loader.update handle fun m => { m with useCount := m.useCount + 1 }
        session := if loading.session.created.contains handle then loading.session
          else { loading.session with reused := loading.session.reused ++ [handle] } } := by
  have hneeds : needsOf (loading.loader.update handle
      fun m => { m with useCount := m.useCount + 1 }).modules = needsOf loading.loader.modules :=
    Loader.needsOf_updateModule fun _ => rfl
  have hallocations : allocationsOf (Loader.updateModule handle
      (fun m => { m with useCount := m.useCount + 1 }) loading.loader.modules) =
        allocationsOf loading.loader.modules :=
    Loader.allocationsOf_updateModule fun _ => rfl
  have hacyclic : Module.Acyclic (loading.loader.update handle
      fun m => { m with useCount := m.useCount + 1 }).modules := by
    apply h.acyclic.mono
    intro m' hm'
    obtain ⟨m, hm, rfl | ⟨-, rfl⟩⟩ := Loader.exists_of_mem_updateModule hm'
    · exact ⟨m', hm, rfl, rfl⟩
    · exact ⟨m, hm, rfl, rfl⟩
  have hunneeded := hneeds ▸ h.unneeded
  cases hcreated : loading.session.created.contains handle with
  | true =>
    have hmem : handle ∈ loading.session.created := by simpa using hcreated
    have hnew : handle ∉ handlesOf start.modules :=
      fun hold => Books.start_below hstart hold (h.created handle hmem)
    exact {
      toBooks := h.toBooks.update hnew (fun _ => rfl) (fun _ => rfl) (hallocations.symm ▸ h.holds)
      app := h.app
      accounted := h.accounted.addReference hresident
      acyclic := hacyclic
      inProgress := h.inProgress
      named := h.named_update (fun _ => rfl) fun _ => rfl
      unneeded := hunneeded }
  | false =>
    have hnotin : handle ∉ loading.session.created := by simpa using hcreated
    exact {
      toBooks := h.toBooks.noteReuse hstart (h.mem_start hresident hnotin)
      app := h.app
      accounted := h.accounted.addReference hresident
      acyclic := hacyclic
      inProgress := h.inProgress
      named := h.named_update (fun _ => rfl) fun _ => rfl
      unneeded := hunneeded }

/-- A new module is held, and it is not needed yet. -/
theorem addModule (h : Placing ledger start extra held opened names loading) {m : Module}
    (hfresh : Loader.Fresh m.handle loading.loader) (hnew : start.nextHandle ≤ m.handle)
    (huse : m.useCount = 1) (hneeds : m.dependencies = []) (hsegments : m.segments = [])
    (hsymbols : m.symbolsOnly = false) :
    Placing ledger start extra (m.handle :: held) (opened ++ [(m.handle, m.name)]) names
      { loader := { loading.loader with modules := loading.loader.modules ++ [m] }
        session := { loading.session with created := loading.session.created ++ [m.handle] } } where
  toBooks := h.toBooks.addModule hfresh.notMem hnew hsegments hsymbols
  app := h.app
  accounted := h.accounted.addModule hfresh.notMem hfresh.below huse hneeds
  acyclic := h.acyclic.addModule hneeds
  inProgress := h.inProgress
  named o ho := by
    rcases List.mem_append.mp ho with ho | ho
    · obtain ⟨n, hn, heq⟩ := h.named o ho
      exact ⟨n, List.mem_append_left _ hn, heq⟩
    · obtain rfl := List.mem_singleton.mp ho
      exact ⟨m, List.mem_append_right _ List.mem_cons_self, rfl, rfl⟩
  unneeded o ho := by
    have hnone : needsOf (loading.loader.modules ++ [m]) = needsOf loading.loader.modules := by
      simp [needsOf, hneeds]
    rw [hnone]
    rcases List.mem_append.mp ho with ho | ho
    · exact h.unneeded o ho
    · obtain rfl := List.mem_singleton.mp ho
      intro hmem
      exact hfresh.notMem (h.accounted.needed_resident hmem)

theorem register (h : Placing ledger start extra held opened names loading) {claim : Dsbt.Claim}
    {dsbt : Dsbt} (hregister : loading.loader.dsbt.register claim = .ok dsbt)
    (hnew : claim.handle ∈ loading.session.created) :
    Placing ledger start extra held opened names
      { loading with loader := { loading.loader with dsbt } } :=
  { h with
    toBooks := h.toBooks.register hregister hnew
    accounted := h.accounted.congr rfl rfl (UInt32.le_refl _) }

/-- A held reference to a complete module may be handed to one that is not complete. -/
theorem addDependency {found : Handle}
    (h : Placing ledger start extra (found :: held) opened names loading)
    (hnew : handle ∉ handlesOf start.modules) (hresident : handle ∈ handlesOf loading.loader.modules)
    (hopened : handle ∈ opened.map (·.1)) (hfound : found ∉ opened.map (·.1)) :
    Placing ledger start extra held opened names (withDependency handle found loading) := by
  have hallocations : allocationsOf (Loader.updateModule handle
      (fun m => { m with dependencies := m.dependencies ++ [found] }) loading.loader.modules) =
        allocationsOf loading.loader.modules :=
    Loader.allocationsOf_updateModule fun _ => rfl
  have hunneeded : handle ∉ needsOf loading.loader.modules := by
    obtain ⟨o, ho, rfl⟩ := List.mem_map.mp hopened
    exact h.unneeded o ho
  have hne : found ≠ handle := fun heq => hfound (heq ▸ hopened)
  refine {
    toBooks := h.toBooks.update hnew (fun _ => rfl) (fun _ => rfl) (hallocations.symm ▸ h.holds)
    app := h.app
    accounted := h.accounted.addDependency hresident
    acyclic := h.acyclic.addDependency h.distinct hunneeded hne
    inProgress := h.inProgress
    named := h.named_update (fun _ => rfl) fun _ => rfl
    unneeded := fun o ho hmem => ?_ }
  rcases List.mem_cons.mp ((Loader.needsOf_updateModule_append hresident).mem_iff.mp hmem)
    with heq | hmem
  · exact hfound (heq ▸ List.mem_map_of_mem ho)
  · exact h.unneeded o ho hmem

/-- The bookkeeping of a session is free but for the names that count as in progress. -/
theorem session {session : Session} {names' : List String}
    (h : Placing ledger start extra held opened names loading)
    (hcreated : session.created = loading.session.created)
    (hreused : session.reused = loading.session.reused) (hnames : session.inProgress = names') :
    Placing ledger start extra held opened names' { loading with session } where
  toBooks := h.toBooks.session hcreated hreused
  app := h.app
  accounted := h.accounted
  acyclic := h.acyclic
  inProgress := hnames
  named := h.named
  unneeded := h.unneeded

theorem complete {o : Handle × String}
    (h : Placing ledger start extra held (opened ++ [o]) names loading) :
    Placing ledger start extra held opened names loading :=
  { h with
    named := fun o ho => h.named o (List.mem_append_left _ ho)
    unneeded := fun o ho => h.unneeded o (List.mem_append_left _ ho) }

end Placing

/-! ## When a load fails -/

/-- What a load leaves behind when it fails: its books, and the start of searches moved at most from
nowhere to a new module. -/
structure Undoable (ledger : Ledger σ) (start : Loader σ) (loading : Loading σ) : Prop
    extends Books ledger start 0 loading where
  app : loading.loader.app = start.app ∨
    start.app = none ∧ ∃ h ∈ loading.session.created, loading.loader.app = some h

/-- Searches start where they did, unless they start at a new module. -/
theorem Undoable.start_app_eq_some {ledger : Ledger σ} {start : Loader σ} {loading : Loading σ}
    (hstart : start.Sound ledger) (h : Undoable ledger start loading) {first : Handle} :
    start.app = some first ↔
      loading.loader.app = some first ∧ first ∉ loading.session.created := by
  rcases h.app with happ | ⟨hnone, root, hroot, happ⟩
  · rw [happ, iff_self_and]
    intro hfirst hmem
    exact Books.start_below hstart (hstart.app first hfirst) (h.created first hmem)
  · rw [happ, hnone]
    simp only [Option.some.injEq, reduceCtorEq, false_iff, not_and, not_not]
    rintro rfl
    exact hroot

theorem Placing.undoable {ledger : Ledger σ} {start : Loader σ} {held : List Handle}
    {opened : List (Handle × String)} {names : List String} {loading : Loading σ}
    (h : Placing ledger start 0 held opened names loading) : Undoable ledger start loading :=
  { h with app := Or.inl h.app }

end Loading

end TargetLink
