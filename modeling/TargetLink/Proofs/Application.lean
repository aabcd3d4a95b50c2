import TargetLink.Proofs.Discovery
import TargetLink.Proofs.Bindings
import TargetLink.Proofs.Turns

/-!
# The machine and the application of a loader

All resident modules are for one machine, to which the loader is committed from then on
(`Loader.Locked`).  A load notes the machine of its files on its own, and the loader takes it over when
the load succeeds.

Breadth-first searches start at the application.  The modules that it leads to never come to need other
modules, and they stay as long as it stays, so a search that finds a definition among them finds the
same one at any later time (`Loader.Persists.globalLookup_app`).
-/

namespace TargetLink

open TargetLink.Module (handlesOf)

namespace SymbolGraph

variable {graph graph' : SymbolGraph} {start : Handle}

/-- A module leads to one that exports a name. -/
def Offers (graph : SymbolGraph) (start : Handle) (name : String) : Prop :=
  ∃ handle, graph.Leads start handle ∧ graph.Exports name handle

/-- A graph says the same of every module that a module leads to in another one. -/
def Covers (graph' graph : SymbolGraph) (start : Handle) : Prop :=
  ∀ handle, graph.Leads start handle → graph'.find? handle = graph.find? handle

namespace Covers

theorem dependencies (h : Covers graph' graph start) {handle : Handle}
    (hleads : graph.Leads start handle) : graph'.dependencies handle = graph.dependencies handle := by
  rw [SymbolGraph.dependencies, SymbolGraph.dependencies, h handle hleads]

theorem findExport (h : Covers graph' graph start) {handle : Handle}
    (hleads : graph.Leads start handle) (name : String) :
    graph'.findExport handle name = graph.findExport handle name := by
  rw [SymbolGraph.findExport, SymbolGraph.findExport, h handle hleads]

theorem leads (h : Covers graph' graph start) {handle : Handle} (hleads : graph.Leads start handle) :
    graph'.Leads start handle := by
  induction hleads with
  | refl => exact .refl
  | tail hbefore hneeded ih => exact ih.tail (h.dependencies hbefore ▸ hneeded)

theorem route_iff (h : Covers graph' graph start) {scope : Handle → Prop} {route : List Nat}
    {handle : Handle} : graph'.Route scope start route handle ↔ graph.Route scope start route handle := by
  constructor
  · intro hroute
    induction hroute with
    | here hscope => exact .here hscope
    | along _ hneeded hscope ih => exact .along ih (h.dependencies ih.leads ▸ hneeded) hscope
  · intro hroute
    induction hroute with
    | here hscope => exact .here hscope
    | along hbefore hneeded hscope ih =>
      exact .along ih (h.dependencies hbefore.leads ▸ hneeded) hscope

theorem trans {graph'' : SymbolGraph} (h' : Covers graph'' graph' start) (h : Covers graph' graph start) :
    Covers graph'' graph start :=
  fun handle hleads => (h' handle (h.leads hleads)).trans (h handle hleads)

/-- What a search from the module discovers first does not depend on the rest of the graph. -/
theorem discoversFirst (h : Covers graph' graph start) {name : String} {first : Handle}
    (hfirst : graph.DiscoversFirst (fun _ => True) (graph.Exports name) start first) :
    graph'.DiscoversFirst (fun _ => True) (graph'.Exports name) start first := by
  have hexports {route : List Nat} {handle : Handle}
      (hroute : graph.Route (fun _ => True) start route handle) :
      graph'.Exports name handle ↔ graph.Exports name handle := by
    rw [Exports, Exports, h.findExport hroute.leads]
  obtain ⟨route, hroute, hgood, hleast⟩ := hfirst
  refine ⟨route, h.route_iff.mpr hroute, (hexports hroute).mpr hgood, fun route' other hother hgood' => ?_⟩
  have hother' := h.route_iff.mp hother
  exact hleast route' other hother' ((hexports hother').mp hgood')

/-- So it does not show in a search for what the application leads to. -/
theorem globalLookup (h : Covers graph' graph start) {name : String}
    (hoffers : graph.Offers start name) (requester requester' : Handle) :
    graph'.globalLookup .breadthFirst requester' (some start) name =
      graph.globalLookup .breadthFirst requester (some start) name := by
  obtain ⟨first, definition, hfirst, hdefinition, hfound⟩ := globalLookup_of_app rfl hoffers
  obtain ⟨handle, hleads, hexports⟩ := hoffers
  have hexports' : graph'.Exports name handle := by rwa [Exports, h.findExport hleads]
  obtain ⟨first', definition', hfirst', hdefinition', hfound'⟩ :=
    globalLookup_of_app rfl ⟨handle, h.leads hleads, hexports'⟩
  obtain rfl := (h.discoversFirst hfirst).unique hfirst'
  obtain ⟨route, hroute, -⟩ := hfirst
  rw [h.findExport hroute.leads] at hdefinition'
  rw [hfound', hfound, Option.some.inj (hdefinition.symm.trans hdefinition')]

end Covers

end SymbolGraph

namespace Loader

variable {σ : Type} {before after : Loader σ}

/-- What a module leads to is as it was, as long as the module is there. -/
theorem Persists.covers {held held' : List Handle} (h : Persists before after)
    (hbefore : before.Accounted held) (hafter : after.Accounted held') {start : Handle}
    (hold : start ∈ handlesOf before.modules) (hresident : start ∈ handlesOf after.modules) :
    (Module.graph after.modules).Covers (Module.graph before.modules) start := by
  intro handle hleads
  obtain ⟨m, hm, rfl⟩ := Module.exists_of_mem_handlesOf
    (h.resident_of_leads hbefore hafter hleads hold hresident)
  have hthen : m.handle ∈ handlesOf before.modules :=
    (Std.Refl.refl before : Persists before before).resident_of_leads hbefore hbefore hleads hold hold
  obtain ⟨n, hn, hhandle⟩ := Module.exists_of_mem_handlesOf hthen
  have hnode : n.uncounted.node = m.uncounted.node :=
    congrArg Module.node (h.uncounted_eq hbefore hn hm hhandle)
  rw [find?_graph hafter.distinct hm, ← hhandle, find?_graph hbefore.distinct hn]
  exact congrArg some hnode.symm

variable [Client σ] {loader : Loader σ} {ledger : Ledger σ}

/-! ## The machine -/

/-- All modules are for the machine that the loader is committed to. -/
def Locked (loader : Loader σ) : Prop := ∀ m ∈ loader.modules, loader.machine = some m.machine

theorem locked_load (hlocked : loader.Locked) {image : Image} {arguments : List String}
    {handle : Handle} {after : Loader σ}
    (hload : loader.load image arguments = (.ok handle, after)) : after.Locked := by
  have huniform : (Loading.loadGraph image arguments { loader }).2.Uniform := by
    refine Loading.loadGraph_keeps image arguments Loading.Turn.uniform Loading.Uniform.congr ?_
    exact fun m hm => (Loading.lock_begin loader).trans (hlocked m hm)
  rw [eq_of_load_ok hload]
  exact huniform

theorem locked_serve (hsound : loader.Sound ledger) (hlocked : loader.Locked) (request : Request σ) :
    (loader.serve request).Locked := by
  have houtcome := serve_outcome hsound request
  generalize loader.serve request = after at *
  cases houtcome with
  | loaded hload => exact locked_load hlocked hload
  | failed hrestored =>
    intro m hm
    rw [hrestored.machine]
    exact hlocked m (hrestored.modules ▸ hm)
  | registered h =>
    obtain ⟨-, -, new, -, hcheck, rfl⟩ := h
    intro m hm
    rcases List.mem_append.mp hm with hm | hm
    · exact congrArg some (checkMachine_eq_ok hcheck m.machine (hlocked m hm)).symm
    · rw [List.mem_singleton.mp hm]
  | unloaded hleaves =>
    intro m hm
    obtain ⟨n, hn, -, hsame⟩ := hleaves.exists_uncounted hm
    have hmachine : n.machine = m.machine := congrArg (·.machine) hsame
    rw [hleaves.machine, ← hmachine]
    exact hlocked n hn
  | refused => exact hlocked
  | changed => exact hlocked

theorem locked_run (hsound : loader.Sound ledger) (hlocked : loader.Locked)
    {requests : List (Request σ)} (hfair : ∀ request ∈ requests, Fair ledger request) :
    (loader.run requests).Locked :=
  run_keeps hsound hfair (fun request _ _ hsound hlocked => locked_serve hsound hlocked request) hlocked

/-- A loader stays committed to its machine. -/
theorem machine_serve (hsound : loader.Sound ledger) {machine : Machine}
    (hmachine : loader.machine = some machine) (request : Request σ) :
    (loader.serve request).machine = some machine := by
  have houtcome := serve_outcome hsound request
  generalize loader.serve request = after at *
  cases houtcome with
  | @loaded image arguments _ _ hload =>
    rw [eq_of_load_ok hload]
    refine Loading.loadGraph_keeps (P := fun loading => loading.lock = some machine) image arguments
      Loading.Turn.lock_eq_some (fun hstanding hs => ?_) ?_
    · exact (Loading.lock_eq_of_standing hstanding).trans hs
    · exact (Loading.lock_begin loader).trans hmachine
  | failed hrestored => exact hrestored.machine.trans hmachine
  | registered h =>
    obtain ⟨-, -, new, -, hcheck, rfl⟩ := h
    exact congrArg some (checkMachine_eq_ok hcheck machine hmachine).symm
  | unloaded hleaves => exact hleaves.machine.trans hmachine
  | refused => exact hmachine
  | changed => exact hmachine

theorem machine_run (hsound : loader.Sound ledger) {machine : Machine}
    (hmachine : loader.machine = some machine) {requests : List (Request σ)}
    (hfair : ∀ request ∈ requests, Fair ledger request) :
    (loader.run requests).machine = some machine :=
  run_keeps (P := fun loader => loader.machine = some machine) hsound hfair
    (fun request _ _ hsound hmachine => machine_serve hsound hmachine request) hmachine

/-! ## The application -/

/-- A graph that is ready is searched from the application that the loader has. -/
theorem ready_covers (hsound : loader.Sound ledger) {image : Image} {placed : Handle × Handle}
    (hready : (Loading.ready image { loader }).1 = .ok placed) {start : Handle}
    (happ : loader.app = some start) :
    let middle := (Loading.ready image { loader }).2
    middle.loader.app = some start ∧
      (Module.graph middle.loader.modules).Covers (Module.graph loader.modules) start := by
  intro middle
  have hfinishing := (Loading.ready_triple hsound image).ok rfl (Prod.ext hready rfl)
  have hmiddle : middle.loader.app = some start := by
    rw [hfinishing.app_eq, happ]
    rfl
  have hold : start ∈ handlesOf loader.modules := hsound.app start happ
  exact ⟨hmiddle, (persists_of_books hfinishing.toBooks).covers hsound.accounted hfinishing.accounted
    hold (hfinishing.toBooks.resident_of_start hold)⟩

/-- What a module finds breadth first while searches start at `start`. -/
def search (start : Handle) (modules : List Module) (requester : Handle) (name : String) :
    Option (Handle × Symbol) :=
  (Module.graph modules).globalLookup .breadthFirst requester (some start) name

/-- After any run of any client all modules are for one machine, the one that the loader is committed to,
and searches start at a resident module or nowhere.  No later request changes the machine.  If
searches start at the same module after some more requests, then whatever a search found among the
modules that this one leads to is found as before, also while another load relocates its modules. -/
theorem run_application (client : σ) (policy : LookupPolicy) (requests later : List (Request σ)) :
    let loader := (fresh client policy).run requests
    let after := loader.run later
    (∀ m ∈ loader.modules, loader.machine = some m.machine) ∧
    (∀ machine, loader.machine = some machine → after.machine = some machine) ∧
    ∀ start, loader.app = some start → start ∈ handlesOf loader.modules ∧
      (after.app = some start → ∀ name, (Module.graph loader.modules).Offers start name →
        (∀ requester requester', search start after.modules requester' name =
          search start loader.modules requester name) ∧
        ∀ image placed, (Loading.ready image { loader := after }).1 = .ok placed →
          let middle := (Loading.ready image { loader := after }).2
          middle.loader.app = some start ∧ ∀ requester requester',
            search start middle.loader.modules requester' name =
              search start loader.modules requester name) := by
  intro loader after
  have hfair : ∀ request ∈ later, Fair Ledger.blank request := fun request _ => fair_blank request
  have hsound : loader.Sound Ledger.blank := run_blank_sound client policy requests
  have hafter : after.Sound Ledger.blank := run_sound hsound hfair
  have hlocked : loader.Locked := locked_run (fresh_sound policy trivial) (by simp [Locked, fresh])
    fun request _ => fair_blank request
  refine ⟨hlocked, fun machine hmachine => machine_run hsound hmachine hfair, fun start happ => ?_⟩
  have hold := hsound.app start happ
  refine ⟨hold, fun happ' name hoffers => ?_⟩
  have hcovers : (Module.graph after.modules).Covers (Module.graph loader.modules) start :=
    (persists_run hsound hfair).covers hsound.accounted hafter.accounted hold (hafter.app start happ')
  refine ⟨hcovers.globalLookup hoffers, fun image placed hready => ?_⟩
  obtain ⟨hmiddle, hcovers'⟩ := ready_covers hafter hready happ'
  exact ⟨hmiddle, (hcovers'.trans hcovers).globalLookup hoffers⟩

/-- The provider is the application. It is found while a user of it is loaded, and after the user was
unloaded and is loaded again. -/
theorem run_application_of_provider :
    let loader := (fresh ({} : SimulatedTarget) .direct).run [.load boundProvider.image []]
    let after := loader.run [.load boundUser.image [], .unload 2]
    let middle := (Loading.ready boundUser.image { loader := after }).2
    (∀ m ∈ loader.modules, loader.machine = some m.machine) ∧
      (loader.machine = some .arm ∧ after.machine = some .arm) ∧
      (loader.app = some 1 ∧ after.app = some 1 ∧ middle.loader.app = some 1) ∧
      (search 1 loader.modules 1 "f").map Prod.fst = some 1 ∧
      search 1 after.modules 3 "f" = search 1 loader.modules 1 "f" ∧
      search 1 middle.loader.modules 3 "f" = search 1 loader.modules 1 "f" := by
  have hrun := run_application ({} : SimulatedTarget) .direct [.load boundProvider.image []]
    [.load boundUser.image [], .unload 2]
  have hbefore : let loader := (fresh ({} : SimulatedTarget) .direct).run [.load boundProvider.image []]
      let after := loader.run [.load boundUser.image [], .unload 2]
      (loader.machine = some .arm ∧ loader.app = some 1 ∧ after.app = some 1) ∧
        (Module.graph loader.modules).Exports "f" 1 ∧
        (search 1 loader.modules 1 "f").map Prod.fst = some 1 ∧
        (Loading.ready boundUser.image { loader := after }).1 = .ok (3, 3) := by
    decide +kernel
  dsimp only at hrun hbefore ⊢
  -- The runs are not to be unfolded any more.
  generalize (fresh ({} : SimulatedTarget) .direct).run [.load boundProvider.image []] = loader at *
  generalize loader.run [.load boundUser.image [], .unload 2] = after at *
  obtain ⟨⟨hmachine, happ, happ'⟩, hexports, hfirst, hready⟩ := hbefore
  obtain ⟨hlocked, hkept, hstart⟩ := hrun
  obtain ⟨-, hfound⟩ := hstart 1 happ
  obtain ⟨hafter, hmiddle⟩ := hfound happ' "f" ⟨1, .refl, hexports⟩
  obtain ⟨hmiddleApp, hsame⟩ := hmiddle boundUser.image (3, 3) hready
  exact ⟨hlocked, ⟨hmachine, hkept .arm hmachine⟩, ⟨happ, happ', hmiddleApp⟩, hfirst, hafter 1 3,
    hsame 1 3⟩

end Loader

end TargetLink
