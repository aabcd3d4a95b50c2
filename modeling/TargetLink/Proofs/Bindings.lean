import TargetLink.Proofs.Persistence
import TargetLink.Proofs.SampleObjects
import TargetLink.Target.Simulated

/-!
# What relocated modules are bound to

A relocation stores the value of a definition of another module (`Draft.providers`), and nothing but
use counts keeps that module.  A module stays as long as one that leads to it does, since the modules
of a loader never come to need other modules (`Loader.Persists`).  So a provider that its user leads to
stays as long as the user; one that only the application leads to stays as long as the application.
-/

namespace TargetLink

open TargetLink.Module (handlesOf)

namespace Draft

/-- The module whose definition a relocation of a module takes its value from. -/
def provider? (draft : Draft) (modules : List Module) (app : Option Handle) (m : Module)
    (entry : RelocationEntry) : Option Handle :=
  if Relocation.isInert draft.file.machine entry.type ∨
      Relocation.isRelative draft.file.machine entry.type ∨ entry.symbol = 0 then none
  else
    ((Module.graph modules).binding? m.policy m.handle app draft.symbols entry.symbol).map (·.1)

/-- The modules whose definitions the relocations of a module take their values from. -/
def providers (draft : Draft) (modules : List Module) (app : Option Handle) : List Handle :=
  match Module.find? modules draft.handle with
  | none => []
  | some m =>
    if draft.file.isRelocatable then
      (draft.file.rel ++ draft.file.rela ++ draft.file.plt).filterMap (draft.provider? modules app m)
    else []

theorem leads_of_mem_providers {draft : Draft} {modules : List Module} {app : Option Handle}
    {provider : Handle} (h : provider ∈ draft.providers modules app) :
    ∃ m, Module.find? modules draft.handle = some m ∧
      ((Module.graph modules).Leads draft.handle provider ∨ m.policy = .breadthFirst ∧
        ∃ start, app = some start ∧ (Module.graph modules).Leads start provider) := by
  unfold providers at h
  split at h
  · cases h
  · rename_i m hfind
    refine ⟨m, hfind, ?_⟩
    split at h
    · obtain ⟨entry, -, hprovider⟩ := List.mem_filterMap.mp h
      obtain ⟨-, hbinding⟩ := Option.ite_none_left_eq_some.mp hprovider
      obtain ⟨⟨found, definition⟩, hfound, rfl⟩ := Option.map_eq_some_iff.mp hbinding
      rw [← (Module.mem_of_find? hfind).2]
      exact SymbolGraph.leads_of_binding hfound
    · cases h

end Draft

namespace Loader

variable {σ : Type}

variable [Client σ] {loader : Loader σ}

/-- A load that succeeds leaves the modules of its graph, and the start of searches, as they were when
the graph was ready. -/
theorem load_ready {image : Image} {arguments : List String} {handle : Handle}
    (hload : (loader.load image arguments).1 = .ok handle) :
    let middle := (Loading.ready image { loader }).2
    (loader.load image arguments).2.modules = middle.loader.modules ∧
      (loader.load image arguments).2.app = middle.loader.app := by
  rw [load_apply] at hload ⊢
  rcases hready : Loading.ready image { loader } with ⟨e | ⟨root, new⟩, middle⟩ <;>
    rw [hready] at hload
  · cases hload
  · have hstirs : Loading.Stirs Ledger.blank middle
        (Loading.complete root arguments middle.session.pending middle).2 :=
      Loading.stirs_complete arguments _ middle
    dsimp only at hload ⊢
    rcases hrun : Loading.complete root arguments middle.session.pending middle with ⟨e | ⟨⟩, after⟩ <;>
      rw [hrun] at hstirs hload
    · cases hload
    · obtain ⟨client, pending, -, -, rfl⟩ := hstirs
      exact ⟨rfl, rfl⟩

/-- After any run: a provider stays as long as the module that was bound to it.  The exceptions are
providers that a breadth-first search found through the application alone, once that is gone. -/
theorem provider_stays (client : σ) (policy : LookupPolicy) (earlier later : List (Request σ))
    (image : Image) (arguments : List String) :
    let before := (fresh client policy).run earlier
    let middle := (Loading.ready image { loader := before }).2
    let after := (before.load image arguments).2.run later
    ∀ handle, (before.load image arguments).1 = .ok handle →
      ∀ draft ∈ middle.session.pending,
        ∀ provider ∈ draft.providers middle.loader.modules middle.loader.app,
          draft.handle ∈ handlesOf after.modules →
            provider ∈ handlesOf after.modules ∨
              ∃ m start, Module.find? middle.loader.modules draft.handle = some m ∧
                m.policy = .breadthFirst ∧ middle.loader.app = some start ∧
                ¬(Module.graph middle.loader.modules).Leads draft.handle provider ∧
                (Module.graph middle.loader.modules).Leads start provider ∧
                start ∉ handlesOf after.modules := by
  intro before middle after handle hload draft _ provider hprovider hresident
  have hsound : before.Sound Ledger.blank := run_blank_sound client policy earlier
  have hfair : ∀ request ∈ later, Fair Ledger.blank request := fun request _ => fair_blank request
  have hloaded := (load_ok hsound hload).toSound
  have hafter : after.Sound Ledger.blank := run_sound hloaded hfair
  obtain ⟨hmodules, happ⟩ := load_ready hload
  have hstays : ∀ first, (Module.graph middle.loader.modules).Leads first provider →
      first ∈ handlesOf middle.loader.modules → first ∈ handlesOf after.modules →
        provider ∈ handlesOf after.modules := by
    intro first hleads hold hstill
    rw [← hmodules] at hleads hold
    exact (persists_run hloaded hfair).resident_of_leads hloaded.accounted hafter.accounted hleads
      hold hstill
  obtain ⟨m, hfind, hleads⟩ := Draft.leads_of_mem_providers hprovider
  obtain ⟨hm, hhandle⟩ := Module.mem_of_find? hfind
  have hold : draft.handle ∈ handlesOf middle.loader.modules := hhandle ▸ Module.handle_mem hm
  by_cases hown : (Module.graph middle.loader.modules).Leads draft.handle provider
  · exact Or.inl (hstays _ hown hold hresident)
  · obtain ⟨hpolicy, start, hstart, hfar⟩ := hleads.resolve_left hown
    by_cases hstill : start ∈ handlesOf after.modules
    · have hbegan : start ∈ handlesOf middle.loader.modules :=
        hmodules ▸ hloaded.app start (happ.trans hstart)
      exact Or.inl (hstays start hfar hbegan hstill)
    · exact Or.inr ⟨m, start, hfind, hpolicy, hstart, hown, hfar, hstill⟩

/-- A module that defines the function `f`. -/
def boundProvider : SampleObject where
  osAbi := 3
  data := [0]
  symbols := [(3, SampleObject.dataOffset, 0x00010011)]
  names := [[0x61], [0x66]]

/-- A module with a cell for the address of `f`, which is searched for breadth first.  It does not say
which module defines it. -/
def boundUser : SampleObject where
  osAbi := 3
  data := [0]
  symbols := [(3, 0, 0x00000010)]
  rel := [(SampleObject.dataOffset, 0x102)]
  names := [[0x62], [0x66]]

/-- A user that needs the provider and searches nowhere else. -/
def boundNeeding : SampleObject :=
  { boundUser with
    osAbi := 0
    names := boundUser.names ++ [[0x61]]
    tags := [(DynamicTag.needed, 5)] }

/-- A target that finds the provider. -/
def providing : SimulatedTarget := ({} : SimulatedTarget).register "a" boundProvider.image

/-- A provider that its user needs stays when it is loaded and unloaded on its own. -/
theorem provider_stays_of_needed :
    let before := (fresh providing .direct).run []
    let middle := (Loading.ready boundNeeding.image { loader := before }).2
    let after := (before.load boundNeeding.image []).2.run [.load boundProvider.image [], .unload 3]
    (before.load boundNeeding.image []).1 = .ok 1 ∧
      (∃ draft ∈ middle.session.pending, draft.handle = 1 ∧
        2 ∈ draft.providers middle.loader.modules middle.loader.app) ∧
      2 ∈ handlesOf after.modules := by
  have hstays := provider_stays providing .direct [] [.load boundProvider.image [], .unload 3]
    boundNeeding.image [] 1
  have hload : (((fresh providing .direct).run []).load boundNeeding.image []).1 = .ok 1 := by
    decide +kernel
  have hbound : let middle := (Loading.ready boundNeeding.image
        { loader := (fresh providing .direct).run [] }).2
      (∃ draft ∈ middle.session.pending, draft.handle = 1 ∧
        2 ∈ draft.providers middle.loader.modules middle.loader.app) ∧
      (Module.find? middle.loader.modules 1).map (·.policy) = some .direct := by
    decide +kernel
  have hresident : 1 ∈ handlesOf ((((fresh providing .direct).run []).load boundNeeding.image
      []).2.run [.load boundProvider.image [], .unload 3]).modules := by
    decide +kernel
  dsimp only at hbound ⊢
  -- The two loads are not to be unfolded any more.
  generalize ((fresh providing .direct).run []).load boundNeeding.image [] = loaded at *
  generalize (Loading.ready boundNeeding.image { loader := (fresh providing .direct).run [] }).2 =
    middle at *
  obtain ⟨⟨draft, hdraft, hhandle, hprovider⟩, hdirect⟩ := hbound
  refine ⟨hload, ⟨draft, hdraft, hhandle, hprovider⟩, ?_⟩
  refine (hstays hload draft hdraft 2 hprovider (hhandle ▸ hresident)).resolve_right ?_
  rintro ⟨m, start, hfind, hpolicy, -⟩
  rw [← hhandle, hfind, Option.map_some, hpolicy] at hdirect
  cases hdirect

/-- A user that is bound to a provider only because that is the application: nothing keeps the
provider, and its address stays in the cell of the user. -/
theorem provider_leaves :
    let before := (fresh ({} : SimulatedTarget) .direct).run [.load boundProvider.image []]
    let middle := (Loading.ready boundUser.image { loader := before }).2
    let after := before.run [.load boundUser.image [], .unload 1]
    handlesOf before.modules = [1] ∧ (before.load boundUser.image []).1 = .ok 2 ∧
      middle.session.pending.map (fun draft =>
        (draft.handle, draft.providers middle.loader.modules middle.loader.app)) = [(2, [1])] ∧
      handlesOf after.modules = [2] ∧
      after.client.memory.load? 0x10000154 4 = some [0x74, 0, 0, 0x10] := by
  decide +kernel

end Loader

end TargetLink
