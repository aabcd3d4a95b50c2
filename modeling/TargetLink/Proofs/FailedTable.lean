import TargetLink.Proofs.Calls
import TargetLink.Proofs.Runs
import TargetLink.Proofs.SampleObjects
import TargetLink.Target.Scheduled
import TargetLink.Target.Simulated

/-!
# What a failed load leaves of the table of static bases

Undoing a load takes its claims off the table, but nothing makes the table shorter again: slots that
the load opened stay behind, free.  No slot is opened while a graph is placed, so a load that fails
there leaves the table as it was, and it has written nothing yet.
-/

namespace TargetLink

open LoadM (Within)

namespace Loading

variable {σ : Type} [Client σ]

theorem dsbt_of_stirs {α : Type} {step : LoadM (Loading σ) α}
    (h : Within (Stirs Ledger.blank) step) (loading : Loading σ) :
    (step loading).2.loader.dsbt = loading.loader.dsbt := by
  obtain ⟨client, pending, -, -, heq⟩ := h loading
  rw [heq]

/-- Preparing a graph binds the waiting claims; nothing else happens to the table. -/
theorem dsbt_prepare (root : Handle) (loading : Loading σ) :
    (prepare root loading).2.loader.dsbt = loading.loader.dsbt.assign := by
  have hrest : Within (LoadM.Same fun s : Loading σ => s.loader.dsbt)
      (do writeTables; stageDynamics; chooseApp root) := by
    refine Within.bind (dsbt_of_stirs stirs_writeTables) fun _ => ?_
    exact Within.bind (dsbt_of_stirs stirs_stageDynamics) fun _ _ => rfl
  exact hrest (bindSlots loading).2

/-- A load fails while its graph is placed, or it binds the claims that wait then. -/
theorem loadGraph_dsbt (image : Image) (arguments : List String) (loading : Loading σ) :
    match place image loading with
    | (.error e, placed) => loadGraph image arguments loading = (.error e, placed)
    | (.ok _, placed) => (loadGraph image arguments loading).2.loader.dsbt =
        placed.loader.dsbt.assign := by
  rw [loadGraph_apply, ready, LoadM.bind_apply]
  rcases place image loading with ⟨e | ⟨root, handle⟩, placed⟩
  · rfl
  · have hprepared := dsbt_prepare root placed
    simp only [LoadM.bind_apply]
    rcases hprepare : prepare root placed with ⟨e | ⟨⟩, middle⟩ <;> rw [hprepare] at hprepared
    · exact hprepared
    · have hcompleted : (complete root arguments middle.session.pending middle).2.loader.dsbt =
          middle.loader.dsbt :=
        dsbt_of_stirs (stirs_complete arguments _) middle
      simp only [LoadM.pure_apply]
      rcases hcomplete : complete root arguments middle.session.pending middle with ⟨e | ⟨⟩, last⟩ <;>
        rw [hcomplete] at hcompleted
      · exact hcompleted.trans hprepared
      · exact hcompleted.trans hprepared

/-! ## Undoing a load -/

theorem length_slots_discard (loader : Loader σ) (handle : Handle) :
    (discard loader handle).dsbt.slots.length = loader.dsbt.slots.length := by
  unfold discard
  cases Module.find? loader.modules handle with
  | none => simp
  | some m => simp

theorem length_slots_abort (loading : Loading σ) :
    loading.abort.dsbt.slots.length = loading.loader.dsbt.slots.length := by
  have hdrop : ∀ (handles : List Handle) (loader : Loader σ),
      (handles.foldl dropReuse loader).dsbt = loader.dsbt := by
    intro handles
    induction handles with
    | nil => exact fun _ => rfl
    | cons handle handles ih => exact fun loader => ih (dropReuse loader handle)
  have hdiscard : ∀ (handles : List Handle) (loader : Loader σ),
      (handles.foldl discard loader).dsbt.slots.length = loader.dsbt.slots.length := by
    intro handles
    induction handles with
    | nil => exact fun _ => rfl
    | cons handle handles ih =>
      exact fun loader => (ih (discard loader handle)).trans (length_slots_discard loader handle)
  rw [abort, hdrop, hdiscard]

end Loading

namespace Loader

variable {σ : Type} [Client σ] {loader : Loader (Recorded σ)} {image : Image}
  {arguments : List String}

theorem load_of_error {e : LoadError} (h : (loader.load image arguments).1 = .error e) :
    (loader.load image arguments).2 = (Loading.loadGraph image arguments { loader }).2.abort := by
  unfold load at h ⊢
  rcases hrun : Loading.loadGraph image arguments { loader } with ⟨e' | handle, loading⟩
  · rfl
  · rw [hrun] at h
    cases h

/-- What a failed load leaves of the table is what was there, and free slots. -/
theorem slots_of_restored {ledger : Ledger (Recorded σ)} {after : Loader (Recorded σ)}
    (hrestored : Loading.Restored ledger loader after)
    (hlength : loader.dsbt.slots.length ≤ after.dsbt.slots.length) :
    after.dsbt.slots = loader.dsbt.slots ++
      List.replicate (after.dsbt.slots.length - loader.dsbt.slots.length) none :=
  Dsbt.eq_append_free hrestored.entries hlength

theorem slots_eq_of_restored {ledger : Ledger (Recorded σ)} {after : Loader (Recorded σ)}
    (hrestored : Loading.Restored ledger loader after)
    (hlength : after.dsbt.slots.length = loader.dsbt.slots.length) :
    after.dsbt.slots = loader.dsbt.slots := by
  simpa [hlength] using slots_of_restored hrestored hlength.ge

/-- After any run, a load that fails keeps every slot of the table and may leave free ones behind
them.  It leaves none if it fails while its graph is placed, and then it has not written to the target
either, or if no module of its graph claims a slot. -/
theorem failed_load_table (client : σ) (policy : LookupPolicy) (requests : List (Request σ)) :
    let loader := onRecord client policy requests
    ∀ image arguments e, (loader.load image arguments).1 = .error e →
      let after := (loader.load image arguments).2
      (∃ free, after.dsbt.slots = loader.dsbt.slots ++ List.replicate free none ∧
        after.dsbt.table = loader.dsbt.table ++ List.replicate free 0) ∧
      match Loading.place image { loader } with
      | (.error _, _) =>
        after.dsbt.slots = loader.dsbt.slots ∧ after.dsbt.table = loader.dsbt.table ∧
          Makes Event.isPlacing loader after
      | (.ok _, placed) => placed.loader.dsbt.pending = [] →
        after.dsbt.slots = loader.dsbt.slots ∧ after.dsbt.table = loader.dsbt.table := by
  have hsound := onRecord_sound client policy requests
  generalize onRecord client policy requests = loader at hsound
  intro loader' image arguments e hload after
  have hrestored := load_error hsound hload
  have hplaces := Loading.places_place image { loader }
  have hdsbt := Loading.loadGraph_dsbt image arguments { loader }
  have hlength := Loading.length_slots_abort (Loading.loadGraph image arguments { loader }).2
  rw [← load_of_error hload] at hlength
  rcases hplace : Loading.place image { loader } with ⟨e' | placed, middle⟩ <;>
    rw [hplace] at hplaces hdsbt
  · have hsame := slots_eq_of_restored hrestored (by rw [hlength, hdsbt, hplaces.1])
    have hmakes : Makes Event.isPlacing loader after := by
      have habort := Loading.makes_abort (Loading.loadGraph image arguments { loader }).2
      rw [← load_of_error hload, hdsbt] at habort
      exact IsTrans.trans loader middle.loader after hplaces.2 habort
    have htable := Dsbt.table_congr hsame
    exact ⟨⟨0, by simpa using hsame, by simpa using htable⟩, hsame, htable, hmakes⟩
  · have hassign : after.dsbt.slots.length = middle.loader.dsbt.assign.slots.length := by
      rw [hlength, hdsbt]
    refine ⟨?_, fun hidle => ?_⟩
    · have hle := middle.loader.dsbt.length_slots_assign
      rw [← hassign, hplaces.1] at hle
      have hslots := slots_of_restored hrestored hle
      exact ⟨_, hslots, Dsbt.table_append_free hslots⟩
    · have hsame := slots_eq_of_restored hrestored (by
        rw [hassign, Dsbt.slots_assign_of_pending hidle, hplaces.1])
      exact ⟨hsame, Dsbt.table_congr hsame⟩

/-- The table of `a` is too small for `b` as well, so `b` is rejected. -/
theorem failed_load_table_of_rejected :
    let a := (tabledObject 0x61 1).image
    let b := (tabledObject 0x62 2).image
    let loader := onRecord ({} : SimulatedTarget) .direct [.load a []]
    let after := (loader.load b []).2
    (loader.load b []).1 = .error (.dsbt (.tableTooSmall "a" 1 2)) ∧
      ∃ free, after.dsbt.slots = loader.dsbt.slots ++ List.replicate free none ∧
        after.dsbt.table = loader.dsbt.table ++ List.replicate free 0 := by
  refine ⟨by decide +kernel, ?_⟩
  obtain ⟨hslots, -⟩ := failed_load_table ({} : SimulatedTarget) .direct
    [.load (tabledObject 0x61 1).image []] (tabledObject 0x62 2).image []
    (.dsbt (.tableTooSmall "a" 1 2)) (by decide +kernel)
  exact hslots

/-- The table does not get its length back: the slot that `b` was to have is left, and the table of
`a` stays too small for every later load.  If `b` fails once the tables are written, the private
table of `a` keeps the static base of `b`. -/
theorem failed_load_table_grows :
    (let loader := onRecord ({} : SimulatedTarget) .direct [.load (tabledObject 0x61 1).image []]
      let after := (loader.load (tabledObject 0x62 2).image []).2
      let plain := { machine := 140, names := [[0x63]] : SampleObject }.image
      (loader.load (tabledObject 0x62 2).image []).1 = .error (.dsbt (.tableTooSmall "a" 1 2)) ∧
        loader.dsbt.table = [0x10000074] ∧ after.dsbt.table = [0x10000074, 0] ∧
        (loader.load plain []).1 = .ok 2 ∧
        (after.load plain []).1 = .error (.dsbt (.tableTooSmall "a" 1 2))) ∧
    (let target : Scheduled SimulatedTarget :=
        { client := {}, schedule := { failing := [(.write, 2)] } }
      let loader := onRecord target .direct [.load (tabledObject 0x61 2).image []]
      let after := (loader.load (tabledObject 0x62 2).image []).2
      (loader.load (tabledObject 0x62 2).image []).1 =
          .error (.memory (.reported "injected write failure #2")) ∧
        loader.client.client.client.memory.load? 0x10000074 8 =
          some [0x74, 0, 0, 0x10, 0, 0, 0, 0] ∧
        after.client.client.client.memory.load? 0x10000074 8 =
          some [0x74, 0, 0, 0x10, 0x54, 1, 0, 0x10]) := by
  decide +kernel

end Loader

end TargetLink
