import TargetLink.Target.Client

/-!
# Recorded clients

Wraps a client so that every call and its answer are noted, in order.  The wrapped client sees the
same calls and gives the same answers as it would alone.
-/

namespace TargetLink

inductive Event
  | allocate (request : AllocRequest) (answer : Except LoadError Allocation)
  | release (allocation : Allocation)
  | copy (request : CopyRequest) (answer : Except LoadError Bytes)
  | write (address : UInt32) (bytes : Bytes) (answer : Except LoadError Unit)
  | read (address : UInt32) (size : Nat) (answer : Except LoadError Bytes)
  | execute (address : UInt32) (answer : Except LoadError Unit)
  | openDependent (name : String) (answer : Option Image)

/-- A client and the calls that it got. -/
structure Recorded (σ : Type) where
  client : σ
  events : List Event := []

namespace Recorded

variable {σ : Type} [Client σ]

/-- Runs a step of the wrapped client and notes it with its answer. -/
def noting {α : Type} (step : LoadM σ α) (event : Except LoadError α → Event) :
    LoadM (Recorded σ) α := fun recorded =>
  let (answer, client) := step recorded.client
  (answer, { client, events := recorded.events ++ [event answer] })

/-- Runs a step of the wrapped client that cannot fail and notes it with its answer. -/
def notingAnswer {α : Type} (step : StateM σ α) (event : α → Event) :
    StateM (Recorded σ) α := fun recorded =>
  let (answer, client) := step recorded.client
  (answer, { client, events := recorded.events ++ [event answer] })

instance : Client (Recorded σ) where
  allocate request := noting (Client.allocate request) (.allocate request)
  release allocation := notingAnswer (Client.release allocation) fun _ => .release allocation
  copy image request := noting (Client.copy image request) (.copy request)
  write address bytes := noting (Client.write address bytes) (.write address bytes)
  read address size := noting (Client.read address size) (.read address size)
  execute address := noting (Client.execute address) (.execute address)
  openDependent name := notingAnswer (Client.openDependent name) (.openDependent name)

end Recorded

end TargetLink
