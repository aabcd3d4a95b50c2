import TargetLink.Proofs.Calls
import TargetLink.Proofs.Runs
import TargetLink.Proofs.SampleObjects
import TargetLink.Target.Simulated

/-!
# Unloading in order

Giving up a handle never fails.  What the client sees of it are the departures of the modules that
leave (`Leave.Calls`), in their order (`Orderly`): the terminators of a module in one attempt, whatever
becomes of it, then what the modules that it needs have to go through, and then the memory of the
module.
-/

namespace TargetLink

open TargetLink.Module (handlesOf)

/-- The calls that run the terminators of a module in one attempt: the functions of its array
backwards, then the single one. -/
def Terminated (m : Module) (calls : List Event) : Prop :=
  match m.finiArray with
  | none => Attempt m.fini.toList calls
  | some array =>
    (∃ e, calls = [.read array.address array.size.toNat (.error e)]) ∨
      ∃ bytes rest, calls = .read array.address array.size.toNat (.ok bytes) :: rest ∧
        Attempt (functionsIn bytes m.order true ++ m.fini.toList) rest

/-- What the client sees of a step. -/
def Leave.Calls : Leave → List Event → Prop
  | terminate m, calls => Terminated m calls
  | giveBack m, calls => calls = m.segments.map (.release ·.allocation)

namespace Loader

variable {σ : Type} [Client σ]

/-- The single terminator is run when all functions of the array returned. -/
theorem performs_fini (m : Module) :
    LoadM.Performs (fun _ => True)
      (match m.fini with
        | some address => Client.execute address
        | none => pure () : LoadM (Recorded σ) Unit)
      (fun _ calls => calls = ran m.fini.toList) (Stopped m.fini.toList) := by
  cases m.fini with
  | none => exact LoadM.Performs.pure rfl
  | some address =>
    refine (LoadM.performs_execute address).weaken (fun _ _ h => h) ?_
    rintro _ ⟨e, rfl⟩
    exact ⟨[], address, [], e, rfl, rfl⟩

theorem performs_runFini (m : Module) :
    LoadM.Performs (fun _ => True) (Loader.runFini m : LoadM (Recorded σ) Unit)
      (fun _ => Terminated m) (Terminated m) := by
  have hfini := @performs_fini σ _ m
  unfold Loader.runFini Terminated
  cases harray : m.finiArray with
  | none => exact hfini.weaken (fun _ _ h => Or.inl h) fun _ h => Or.inr h
  | some array =>
    have hrun := @performs_runArray σ _ array m.order true
    refine (hrun.weaken (fun _ _ h => h) ?_).bind ?_
    · rintro _ (⟨e, rfl⟩ | ⟨bytes, rest, rfl, hstopped⟩)
      · exact Or.inl ⟨e, rfl⟩
      · exact Or.inr ⟨bytes, rest, rfl, Or.inr (hstopped.append _)⟩
    · rintro _ _ ⟨bytes, rfl⟩
      refine hfini.weaken ?_ ?_
      · rintro _ _ rfl
        exact Or.inr ⟨bytes, _, rfl, Or.inl List.map_append.symm⟩
      · intro calls hstopped
        exact Or.inr ⟨bytes, _, rfl, Or.inr (hstopped.ran_append _)⟩

theorem events_giveBack (segments : List Segment) (recorded : Recorded σ) :
    (giveBack segments recorded).events =
      recorded.events ++ segments.map (.release ·.allocation) := by
  induction segments generalizing recorded with
  | nil => exact (List.append_nil _).symm
  | cons segment segments ih =>
    refine (ih _).trans ?_
    rw [List.map_cons, ← List.singleton_append, ← List.append_assoc]
    rfl

/-- A step makes its calls. -/
theorem events_leave (step : Leave) (recorded : Recorded σ)
    (hstep : ∀ m, step = .terminate m → m.symbolsOnly = true → m.fini = none ∧ m.finiArray = none) :
    ∃ calls, (Leave.run recorded step).events = recorded.events ++ calls ∧ step.Calls calls := by
  cases step with
  | giveBack m => exact ⟨_, events_giveBack m.segments recorded, rfl⟩
  | terminate m =>
    cases hsymbols : m.symbolsOnly with
    | true =>
      obtain ⟨hfini, harray⟩ := hstep m rfl hsymbols
      refine ⟨[], by simp [Leave.run, hsymbols], ?_⟩
      change Terminated m []
      rw [Terminated, harray, hfini]
      exact Or.inl rfl
    | false =>
      obtain ⟨calls, hcalls, -, hdone⟩ := performs_runFini m recorded trivial
      have hrun : Leave.run recorded (.terminate m) = (runFini m recorded).2 := by
        simp [Leave.run, hsymbols]
      refine ⟨calls, hrun ▸ hcalls, ?_⟩
      split at hdone
      · exact hdone
      · exact hdone

/-- Steps make their calls one after the other. -/
theorem events_leaves (steps : List Leave) (recorded : Recorded σ)
    (hsteps : ∀ m, .terminate m ∈ steps → m.symbolsOnly = true →
      m.fini = none ∧ m.finiArray = none) :
    ∃ calls, (steps.foldl Leave.run recorded).events = recorded.events ++ calls.flatten ∧
      List.Forall₂ Leave.Calls steps calls := by
  induction steps generalizing recorded with
  | nil => exact ⟨[], (List.append_nil _).symm, .nil⟩
  | cons step steps ih =>
    obtain ⟨first, hfirst, hcalls⟩ := events_leave step recorded fun m heq hsymbols =>
      hsteps m (heq ▸ List.mem_cons_self) hsymbols
    obtain ⟨rest, hrest, hall⟩ := ih (Leave.run recorded step) fun m hm hsymbols =>
      hsteps m (List.mem_cons_of_mem _ hm) hsymbols
    refine ⟨first :: rest, ?_, .cons hcalls hall⟩
    rw [List.foldl_cons, hrest, hfirst, List.flatten_cons, List.append_assoc]

/-- After any run, giving up a handle succeeds, whatever the client answers, and says whether its
module left.  Its calls are those of the modules that leave, each of them terminated before what it
needs is; the other modules change in their use counts only. -/
theorem unload_orderly (client : σ) (policy : LookupPolicy) (requests : List (Request σ))
    (handle root : Handle) :
    let loader := onRecord client policy requests
    loader.handles.lookup handle = some root →
      ∃ left after steps calls, loader.unload handle = (.ok left, after) ∧
        (left = true ↔ root ∉ handlesOf after.modules) ∧
        after.modules.map Module.uncounted =
          (loader.modules.map Module.uncounted).filter (·.handle ∈ handlesOf after.modules) ∧
        after.client.events = loader.client.events ++ calls.flatten ∧
        List.Forall₂ Leave.Calls steps calls ∧
        Orderly ((handlesOf loader.modules).filter (· ∉ handlesOf after.modules))
          (loader.modules.map Module.uncounted) steps := by
  have hsound := onRecord_sound client policy requests
  generalize onRecord client policy requests = loader at hsound
  intro loader' hlookup
  obtain ⟨left, gone, steps, after, hrun, hleaves, hleft⟩ := unload_eq hsound hlookup
  have hstays : ∀ h ∈ handlesOf loader.modules, (h ∈ handlesOf after.modules ↔ h ∉ gone) := by
    intro h hresident
    rw [hleaves.mem_handlesOf]
    exact and_iff_right hresident
  obtain ⟨calls, hevents, hcalls⟩ := events_leaves steps loader.client fun m hm hsymbols => by
    obtain ⟨n, hn, rfl⟩ := List.mem_map.mp ((hleaves.orderly.terminated m).mp hm).1
    exact hsound.functionless n hn hsymbols
  have hroot := hsound.accounted.resident_of_lookup hlookup
  refine ⟨left, after, steps, calls, hrun, ?_, ?_, ?_, hcalls, ?_⟩
  · rw [hleft, hstays root hroot, not_not]
  · rw [hleaves.modules]
    refine List.filter_congr fun m hm => ?_
    obtain ⟨n, hn, rfl⟩ := List.mem_map.mp hm
    exact decide_eq_decide.mpr (hstays n.handle (Module.handle_mem hn)).symm
  · rw [hleaves.client]
    exact hevents
  · refine hleaves.orderly.congr fun m hm => ?_
    obtain ⟨n, hn, rfl⟩ := List.mem_map.mp hm
    have hresident : n.handle ∈ handlesOf loader.modules := Module.handle_mem hn
    change n.handle ∈ _ ↔ n.handle ∈ gone
    rw [List.mem_filter, decide_eq_true_iff, hstays _ hresident, not_not]
    exact and_iff_right hresident

/-- Terminators in the data of a module: an array of two words and a single one. -/
def terminatorTags : List (UInt32 × UInt32) :=
  [(DynamicTag.finiArray, SampleObject.dataOffset), (DynamicTag.finiArraySize, 8),
    (DynamicTag.fini, SampleObject.dataOffset)]

/-- A module that needs the one named `b`. Only the first word of its array is a function. -/
def terminatedRoot : SampleObject where
  data := [0x11, 0]
  names := [[0x61], [0x62]]
  tags := (DynamicTag.needed, 3) :: terminatorTags

def terminatedNeeded : SampleObject where
  data := [0x21, 0x22]
  names := [[0x62]]
  tags := terminatorTags

/-- Both modules leave, and the terminators of the one that needs the other run first. -/
theorem unload_orderly_of_needed :
    let target := ({} : SimulatedTarget).register "b" terminatedNeeded.image
    let loader := onRecord target .direct [.load terminatedRoot.image []]
    loader.handles.lookup 1 = some 1 ∧
      (loader.unload 1).2.client.client.executed = [0x11, 0x10000074, 0x22, 0x21, 0x10000168] ∧
      ∃ left after steps calls, loader.unload 1 = (.ok left, after) ∧
        after.client.events = loader.client.events ++ calls.flatten ∧
        List.Forall₂ Leave.Calls steps calls ∧
        Orderly ((handlesOf loader.modules).filter (· ∉ handlesOf after.modules))
          (loader.modules.map Module.uncounted) steps := by
  refine ⟨by decide +kernel, by decide +kernel, ?_⟩
  obtain ⟨left, after, steps, calls, hrun, -, -, hevents, hcalls, horderly⟩ :=
    unload_orderly (({} : SimulatedTarget).register "b" terminatedNeeded.image) .direct
      [.load terminatedRoot.image []] 1 1 (by decide +kernel)
  exact ⟨left, after, steps, calls, hrun, hevents, hcalls, horderly⟩

end Loader

end TargetLink
