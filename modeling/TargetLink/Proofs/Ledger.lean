import TargetLink.Loader.Unload
import TargetLink.Proofs.Steps
import TargetLink.Target.Recorded
import Mathlib.Data.Multiset.AddSub

/-!
# Who owns target memory

A ledger says which allocations a client has handed out and not got back.  What a ledger counts
changes with `allocate` and `release` only; every other call is quiet.  Proofs about the loader are
written against any ledger, so the same proof serves a client of which nothing is known
(`Ledger.blank`) and one whose calls are all on record (`Recorded.ledger`).

The record of a client is read by `Recorded.live?`.  It adds up the grants and takes the returns
off, and it has no answer as soon as something is given back that is not out: a record with an answer
has no double release in it.
-/

namespace TargetLink

/-- Says of the states of a client which allocations are out. An allocation that was handed out
twice is out twice. Nothing is said of an answer to an empty request. -/
structure Ledger (σ : Type) [Client σ] where
  holds : σ → Multiset Allocation → Prop
  allocate : ∀ {client live request allocation}, request.memorySize ≠ 0 → holds client live →
    (Client.allocate request client).1 = .ok allocation →
      holds (Client.allocate request client).2 (allocation ::ₘ live)
  allocate_error : ∀ {client live request e}, holds client live →
    (Client.allocate request client).1 = .error e → holds (Client.allocate request client).2 live
  release : ∀ {client live allocation}, holds client (allocation ::ₘ live) →
    holds (Client.release allocation client).2 live
  copy : ∀ {client live image request}, holds client live →
    holds (Client.copy image request client).2 live
  write : ∀ {client live address bytes}, holds client live →
    holds (Client.write address bytes client).2 live
  read : ∀ {client live address size}, holds client live →
    holds (Client.read address size client).2 live
  execute : ∀ {client live address}, holds client live →
    holds (Client.execute address client).2 live
  openDependent : ∀ {client live name}, holds client live →
    holds (Client.openDependent name client).2 live

namespace Ledger

variable {σ : Type} [Client σ]

/-- The ledger of a client of which nothing is known. -/
def blank : Ledger σ where
  holds _ _ := True
  allocate _ _ _ := trivial
  allocate_error _ _ := trivial
  release _ := trivial
  copy _ := trivial
  write _ := trivial
  read _ := trivial
  execute _ := trivial
  openDependent _ := trivial

variable (ledger : Ledger σ)

/-- Nothing moved between two states of a client. -/
def Quiet (before after : σ) : Prop := ∀ live, ledger.holds before live → ledger.holds after live

instance : IsPreorder σ ledger.Quiet where
  refl _ _ h := h
  trans _ _ _ hfirst hsecond live h := hsecond live (hfirst live h)

/-! ## Quiet calls -/

theorem quiet_copy (image : Image) (request : CopyRequest) :
    LoadM.Within ledger.Quiet (Client.copy image request) := fun _ _ h => ledger.copy h

theorem quiet_write (address : UInt32) (bytes : Bytes) :
    LoadM.Within ledger.Quiet (Client.write address bytes) := fun _ _ h => ledger.write h

theorem quiet_read (address : UInt32) (size : Nat) :
    LoadM.Within ledger.Quiet (Client.read address size) := fun _ _ h => ledger.read h

theorem quiet_execute (address : UInt32) :
    LoadM.Within ledger.Quiet (Client.execute address) := fun _ _ h => ledger.execute h

theorem quiet_openDependent (name : String) : LoadM.Within ledger.Quiet
    (liftM (Client.openDependent name : StateM σ (Option Image))) :=
  fun _ _ h => ledger.openDependent h

theorem quiet_runArray (array : AddressArray) (order : ByteOrder) (reverse : Bool) :
    LoadM.Within ledger.Quiet (Loader.runArray array order reverse) := by
  unfold Loader.runArray
  refine LoadM.Within.bind (ledger.quiet_read _ _) fun _ => ?_
  exact LoadM.Within.forM ledger.quiet_execute

theorem quiet_runFini (mod : Module) : LoadM.Within ledger.Quiet (Loader.runFini mod) := by
  unfold Loader.runFini
  have harray {array : AddressArray} := ledger.quiet_runArray array mod.order true
  cases mod.finiArray with
  | some array =>
    cases mod.fini with
    | some address => exact LoadM.Within.bind harray fun _ => ledger.quiet_execute address
    | none => exact LoadM.Within.bind harray fun _ => LoadM.Within.pure
  | none =>
    cases mod.fini with
    | some address => exact ledger.quiet_execute address
    | none => exact LoadM.Within.pure

/-! ## Giving memory back -/

/-- Where a release takes one allocation off, giving segments back takes their allocations off. -/
theorem giveBack_of_release (holds : σ → Multiset Allocation → Prop)
    (hrelease : ∀ {client live allocation}, holds client (allocation ::ₘ live) →
      holds (Client.release allocation client).2 live)
    {segments : List Segment} {client : σ} {live : Multiset Allocation}
    (h : holds client ((segments.map (·.allocation) : List Allocation) + live)) :
    holds (Loader.giveBack segments client) live := by
  induction segments generalizing client with
  | nil => simpa [Loader.giveBack] using h
  | cons segment segments ih =>
    refine ih (hrelease ?_)
    simpa [← Multiset.cons_coe] using h

/-- Giving segments back takes exactly their allocations off. -/
theorem holds_giveBack {segments : List Segment} {client : σ} {live : Multiset Allocation}
    (h : ledger.holds client ((segments.map (·.allocation) : List Allocation) + live)) :
    ledger.holds (Loader.giveBack segments client) live :=
  giveBack_of_release ledger.holds ledger.release h

end Ledger

/-! ## The ledger of a recorded client -/

/-- The allocations that are out after an event. Giving back what is not out has no answer. -/
def Event.book (live : Multiset Allocation) : Event → Option (Multiset Allocation)
  | allocate _ (.ok allocation) => some (allocation ::ₘ live)
  | release allocation => if allocation ∈ live then some (live.erase allocation) else none
  | _ => some live

namespace Recorded

variable {σ : Type}

/-- The allocations that the wrapped client handed out and did not get back. -/
def live? (recorded : Recorded σ) : Option (Multiset Allocation) :=
  recorded.events.foldlM Event.book 0

theorem live?_append {recorded : Recorded σ} {live : Multiset Allocation} {client : σ}
    {event : Event} (h : recorded.live? = some live) :
    live? { client, events := recorded.events ++ [event] } = event.book live := by
  unfold live? at h ⊢
  rw [List.foldlM_append, h]
  exact Option.bind_fun_some _

variable [Client σ]

/-- The record of a client is a ledger. -/
def ledger : Ledger (Recorded σ) where
  holds recorded live := recorded.live? = some live
  allocate := by
    intro recorded live request allocation _ h hok
    have hanswer : (Client.allocate request recorded.client).1 = .ok allocation := hok
    refine (live?_append h).trans ?_
    change (Event.allocate request (Client.allocate request recorded.client).1).book live = _
    rw [hanswer]
    rfl
  allocate_error := by
    intro recorded live request e h herror
    have hanswer : (Client.allocate request recorded.client).1 = .error e := herror
    refine (live?_append h).trans ?_
    change (Event.allocate request (Client.allocate request recorded.client).1).book live = _
    rw [hanswer]
    rfl
  release := by
    intro recorded live allocation h
    refine (live?_append h).trans ?_
    simp [Event.book]
  copy h := live?_append h
  write h := live?_append h
  read h := live?_append h
  execute h := live?_append h
  openDependent h := live?_append h

/-- A record begins with what it began with once, whatever is out. -/
def since (events : List Event) : Ledger (Recorded σ) where
  holds recorded _ := events <+: recorded.events
  allocate _ h _ := h.trans (List.prefix_append _ _)
  allocate_error h _ := h.trans (List.prefix_append _ _)
  release h := h.trans (List.prefix_append _ _)
  copy h := h.trans (List.prefix_append _ _)
  write h := h.trans (List.prefix_append _ _)
  read h := h.trans (List.prefix_append _ _)
  execute h := h.trans (List.prefix_append _ _)
  openDependent h := h.trans (List.prefix_append _ _)

end Recorded

end TargetLink
