import TargetLink.Proofs.Runs
import TargetLink.Target.Scheduled
import TargetLink.Target.Simulated
import Mathlib.Data.Multiset.AddSub

/-!
# Target memory is neither lost nor given back twice

The record of a client tells what the loader was granted and what it returned.  Between two requests
what is out is exactly the memory of the segments of resident modules, and at no point of the record
more was returned than granted.
-/

namespace TargetLink

/-- The allocation that a call handed out, if it did. -/
def Event.granted? : Event → Option Allocation
  | allocate _ (.ok allocation) => some allocation
  | _ => none

/-- The allocation that a call gave back, if it did. -/
def Event.returned? : Event → Option Allocation
  | release allocation => some allocation
  | _ => none

/-- The allocations that some calls handed out, each as often as it was handed out. -/
def granted (events : List Event) : List Allocation := events.filterMap Event.granted?

/-- The allocations that some calls gave back, each as often as it was given back. -/
def returned (events : List Event) : List Allocation := events.filterMap Event.returned?

/-- Nothing was handed out that was still out. -/
def Exclusive (events : List Event) : Prop :=
  ∀ i, (hi : i < events.length) → ∀ new ∈ events[i].granted?,
    new ∉ (granted (events.take i)).diff (returned (events.take i))

instance : DecidablePred Exclusive := fun events =>
  inferInstanceAs (Decidable (∀ i, (hi : i < events.length) → ∀ new ∈ events[i].granted?, _))

/-! ## What one call does -/

/-- A call hands something out, gives back what is out, or leaves memory alone. -/
theorem Event.book_cases {live live' : Multiset Allocation} {event : Event}
    (h : event.book live = some live') :
    (∃ new, event.granted? = some new ∧ event.returned? = none ∧ live' = new ::ₘ live) ∨
      (∃ old ∈ live, event.granted? = none ∧ event.returned? = some old ∧
        live' = live.erase old) ∨
      (event.granted? = none ∧ event.returned? = none ∧ live' = live) := by
  cases event with
  | allocate request answer =>
    cases answer with
    | error e =>
      obtain rfl := Option.some.inj h
      exact Or.inr (Or.inr ⟨rfl, rfl, rfl⟩)
    | ok new =>
      obtain rfl := Option.some.inj h
      exact Or.inl ⟨new, rfl, rfl, rfl⟩
  | release old =>
    change (if old ∈ live then some (live.erase old) else none) = some live' at h
    by_cases hmem : old ∈ live
    · rw [if_pos hmem] at h
      obtain rfl := Option.some.inj h
      exact Or.inr (Or.inl ⟨old, hmem, rfl, rfl, rfl⟩)
    · rw [if_neg hmem] at h
      cases h
  | _ =>
    obtain rfl := Option.some.inj h
    exact Or.inr (Or.inr ⟨rfl, rfl, rfl⟩)

theorem Event.count_book {live live' : Multiset Allocation} {event : Event}
    (h : event.book live = some live') (allocation : Allocation) :
    event.granted?.toList.count allocation + live.count allocation =
      event.returned?.toList.count allocation + live'.count allocation := by
  rcases event.book_cases h with ⟨new, hgranted, hreturned, rfl⟩ |
    ⟨old, hmem, hgranted, hreturned, rfl⟩ | ⟨hgranted, hreturned, rfl⟩
  · rw [hgranted, hreturned, Multiset.count_cons]
    simp only [Option.toList_some, Option.toList_none, List.count_singleton, List.count_nil,
      beq_iff_eq, @eq_comm _ new]
    omega
  · have hlive := congrArg (Multiset.count allocation) (Multiset.cons_erase hmem)
    rw [Multiset.count_cons] at hlive
    rw [hgranted, hreturned]
    simp only [Option.toList_some, Option.toList_none, List.count_singleton, List.count_nil,
      beq_iff_eq, @eq_comm _ old]
    omega
  · rw [hgranted, hreturned]

/-! ## What a record says -/

theorem granted_cons (event : Event) (events : List Event) :
    granted (event :: events) = event.granted?.toList ++ granted events := by
  rw [granted, List.filterMap_cons]
  cases event.granted? <;> rfl

theorem returned_cons (event : Event) (events : List Event) :
    returned (event :: events) = event.returned?.toList ++ returned events := by
  rw [returned, List.filterMap_cons]
  cases event.returned? <;> rfl

/-- A record that has an answer balances. -/
theorem count_granted_add {events : List Event} {live live' : Multiset Allocation}
    (h : events.foldlM Event.book live = some live') (allocation : Allocation) :
    (granted events).count allocation + live.count allocation =
      (returned events).count allocation + live'.count allocation := by
  induction events generalizing live with
  | nil =>
    obtain rfl := Option.some.inj h
    rfl
  | cons event events ih =>
    obtain ⟨middle, hfirst, hrest⟩ := Option.bind_eq_some_iff.mp h
    have hevent := Event.count_book hfirst allocation
    have hevents := ih hrest
    rw [granted_cons, returned_cons, List.count_append, List.count_append]
    omega

/-- No part of such a record returns more than it was granted. -/
theorem count_returned_le {events : List Event} {live : Multiset Allocation}
    (h : events.foldlM Event.book 0 = some live) {earlier : List Event}
    (hearlier : earlier <+: events) (allocation : Allocation) :
    (returned earlier).count allocation ≤ (granted earlier).count allocation := by
  obtain ⟨later, rfl⟩ := hearlier
  rw [List.foldlM_append] at h
  obtain ⟨middle, hmiddle, -⟩ := Option.bind_eq_some_iff.mp h
  have hbalance := count_granted_add hmiddle allocation
  rw [Multiset.count_zero] at hbalance
  omega

/-- What a record says is out was granted and not returned. -/
theorem granted_perm {events : List Event} {live : List Allocation}
    (h : events.foldlM Event.book 0 = some ↑live) :
    (granted events).Perm (returned events ++ live) := by
  apply List.perm_iff_count.mpr
  intro allocation
  have hbalance := count_granted_add h allocation
  rw [Multiset.count_zero, Multiset.coe_count] at hbalance
  rw [List.count_append]
  omega

theorem Exclusive.init {events : List Event} {event : Event}
    (h : Exclusive (events ++ [event])) : Exclusive events := by
  intro i hi new hnew
  have hlonger : i < (events ++ [event]).length := by
    rw [List.length_append]
    omega
  have hout := h i hlonger new
  rw [List.getElem_append_left hi, List.take_append_of_le_length (Nat.le_of_lt hi)] at hout
  exact hout hnew

theorem Exclusive.last {events : List Event} {event : Event} (h : Exclusive (events ++ [event]))
    {new : Allocation} (hnew : event.granted? = some new) :
    new ∉ (granted events).diff (returned events) := by
  have hout := h events.length (by simp) new
  rw [List.getElem_concat_length rfl, List.take_left] at hout
  exact hout hnew

/-- What is out is out once, if nothing was handed out again before it came back. -/
theorem Exclusive.nodup {events : List Event} (hexclusive : Exclusive events)
    {live : Multiset Allocation} (h : events.foldlM Event.book 0 = some live) : live.Nodup := by
  -- the last call is the one to look at: it is exclusive with respect to all calls before it
  induction events using List.reverseRecOn generalizing live with
  | nil =>
    obtain rfl := Option.some.inj h
    exact Multiset.nodup_zero
  | append_singleton events event ih =>
    rw [List.foldlM_append] at h
    obtain ⟨middle, hmiddle, hlast⟩ := Option.bind_eq_some_iff.mp h
    obtain ⟨live', hbook, heq⟩ := Option.bind_eq_some_iff.mp hlast
    obtain rfl := Option.some.inj heq
    have hnodup := ih hexclusive.init hmiddle
    rcases event.book_cases hbook with ⟨new, hgranted, -, rfl⟩ | ⟨old, -, -, -, rfl⟩ | ⟨-, -, rfl⟩
    · refine Multiset.nodup_cons.mpr ⟨fun hmem => hexclusive.last hgranted ?_, hnodup⟩
      have hbalance := count_granted_add hmiddle new
      have hcount := Multiset.count_pos.mpr hmem
      rw [Multiset.count_zero] at hbalance
      rw [← List.count_pos_iff, List.count_diff]
      omega
    · exact hnodup.erase old
    · exact hnodup

namespace Loader

variable {σ : Type}

/-- The allocations of the segments of all resident modules. -/
def segmentAllocations (loader : Loader σ) : List Allocation :=
  loader.modules.flatMap fun m => m.segments.map (·.allocation)

variable [Client σ]

theorem events_prefix_giveBack (segments : List Segment) (recorded : Recorded σ) :
    recorded.events <+: (giveBack segments recorded).events := by
  induction segments generalizing recorded with
  | nil => exact List.prefix_rfl
  | cons segment segments ih =>
    have hfirst : recorded.events <+: (Client.release segment.allocation recorded).2.events :=
      List.prefix_append _ _
    exact hfirst.trans (ih _)

theorem events_prefix_destroy (loader : Loader (Recorded σ)) :
    loader.client.events <+: loader.destroy.events := by
  obtain ⟨client, modules⟩ := loader
  unfold destroy
  dsimp only
  induction modules generalizing client with
  | nil => exact List.prefix_rfl
  | cons m modules ih => exact (events_prefix_giveBack m.segments client).trans (ih _)

/-- After any run the segments of resident modules are what was granted and not returned, a segment
for each grant; none is shared if the client hands nothing out that is still out.  Nothing is
returned that is not out, and destroying the loader returns the rest. -/
theorem memory_accounted (client : σ) (policy : LookupPolicy) (requests : List (Request σ)) :
    let loader := onRecord client policy requests
    let events := loader.client.events
    (granted events).Perm (returned events ++ loader.segmentAllocations) ∧
      (Exclusive events → loader.segmentAllocations.Nodup) ∧
      (∀ earlier, earlier <+: loader.destroy.events → ∀ allocation,
        (returned earlier).count allocation ≤ (granted earlier).count allocation) ∧
      events <+: loader.destroy.events ∧
      (granted loader.destroy.events).Perm (returned loader.destroy.events) := by
  have hsound := onRecord_sound client policy requests
  generalize onRecord client policy requests = loader at hsound
  intro loader' events
  have hperm : (granted events).Perm (returned events ++ loader.segmentAllocations) :=
    granted_perm hsound.holds
  have hdestroyed : loader.destroy.live? = some 0 := by
    have hholds := hsound.holds
    rw [← Multiset.add_zero (Module.allocationsOf loader.modules)] at hholds
    exact holds_destroy loader.modules hholds
  refine ⟨hperm, fun hexclusive => ?_, fun earlier hearlier => count_returned_le hdestroyed hearlier,
    events_prefix_destroy loader, ?_⟩
  · exact Multiset.coe_nodup.mp (hexclusive.nodup hsound.holds)
  · have hrest : (granted loader.destroy.events).Perm (returned loader.destroy.events ++ []) :=
      granted_perm hdestroyed
    rwa [List.append_nil] at hrest

/-- The first load gets its segment at a wrong address and gives it back; the second one keeps its
own until the loader is destroyed. -/
theorem memory_accounted_of_misplaced :
    let target : Scheduled SimulatedTarget := { client := {}, schedule := { misplaced := [0] } }
    let loader := onRecord target .direct [.load bareImage [], .load bareImage []]
    (granted loader.client.events).map (·.address) = [0x2000, 0x1000] ∧
      (returned loader.client.events).map (·.address) = [0x2000] ∧
      loader.segmentAllocations.Nodup ∧
      (granted loader.destroy.events).Perm (returned loader.destroy.events) := by
  refine ⟨by decide +kernel, by decide +kernel, ?_, ?_⟩
  · exact (memory_accounted _ .direct [.load bareImage [], .load bareImage []]).2.1
      (by decide +kernel)
  · exact (memory_accounted _ .direct [.load bareImage [], .load bareImage []]).2.2.2.2

end Loader

end TargetLink
