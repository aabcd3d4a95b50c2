import TargetLink.Proofs.Phases
import TargetLink.Proofs.Runs
import TargetLink.Proofs.SampleObjects
import TargetLink.Target.Scheduled

/-!
# A load that fails changes nothing

Whatever a load did before it failed, and wherever it failed, everything that can be asked of the
loader is as it was, and the client has got back what it handed out.  Handles are the one exception:
those that the load took are not given out again.
-/

namespace TargetLink

namespace Loader

variable {σ : Type}

/-- Nothing changed that a loader is asked for, and no memory was gained or lost. -/
structure Unchanged (before after : Loader (Recorded σ)) : Prop where
  modules : after.modules = before.modules
  handles : after.handles = before.handles
  machine : after.machine = before.machine
  app : after.app = before.app
  entries : after.dsbt.entries = before.dsbt.entries
  idle_before : before.dsbt.pending = []
  idle_after : after.dsbt.pending = []
  live : ∃ live, before.client.live? = some live ∧ after.client.live? = some live

variable [Client σ]

/-- After any run, a load that fails leaves the loader as it was. -/
theorem failed_load_unchanged (client : σ) (policy : LookupPolicy) (requests : List (Request σ)) :
    let loader := onRecord client policy requests
    (∀ image arguments e, (loader.load image arguments).1 = .error e →
      Unchanged loader (loader.load image arguments).2) ∧
    ∀ image e, (loader.loadSymbolsOnly image).1 = .error e →
      (loader.loadSymbolsOnly image).2 = loader := by
  have hsound := onRecord_sound client policy requests
  generalize onRecord client policy requests = loader at hsound
  constructor
  · intro image arguments e hload
    have hrestored := load_error hsound hload
    exact {
      modules := hrestored.modules
      handles := hrestored.handles
      machine := hrestored.machine
      app := hrestored.app
      entries := hrestored.entries
      idle_before := hsound.idle
      idle_after := hrestored.idle
      live := ⟨_, hsound.holds, hrestored.holds⟩ }
  · intro image e hload
    exact loadSymbolsOnly_error hsound hload

/-- The load of `b` fails when `b` is written; by then it has reused `a` and bound a slot for `b`. An
image without a header fails as well. -/
theorem failed_load_unchanged_of_failed_write :
    let target : Scheduled SimulatedTarget :=
      { client := tabledTarget, schedule := { failing := [(.write, 2)] } }
    let loader := onRecord target .direct [.load (tabledObject 0x61 2).image []]
    let ready := (Loading.ready tabledUser.image { loader }).2.loader
    (loader.load tabledUser.image []).1 =
        .error (.memory (.reported "injected write failure #2")) ∧
      loader.modules.map (·.useCount) = [1] ∧ ready.modules.map (·.useCount) = [2, 1] ∧
      loader.dsbt.entries.map (·.1) = [0] ∧ ready.dsbt.entries.map (·.1) = [0, 1] ∧
      Unchanged loader (loader.load tabledUser.image []).2 ∧
      (loader.loadSymbolsOnly []).2 = loader := by
  refine ⟨by decide +kernel, by decide +kernel, by decide +kernel, by decide +kernel,
    by decide +kernel, ?_, ?_⟩
  · exact (failed_load_unchanged _ .direct [.load (tabledObject 0x61 2).image []]).1
      tabledUser.image [] (.memory (.reported "injected write failure #2")) (by decide +kernel)
  · exact (failed_load_unchanged _ .direct [.load (tabledObject 0x61 2).image []]).2 []
      (.invalidElf (.outOfFile 0 52 0)) (by decide +kernel)

end Loader

end TargetLink
