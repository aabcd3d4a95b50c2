import TargetLink.Target.Client

/-!
# Clients that fail on schedule

Wraps a client so that chosen calls fail without reaching it, to see how a loader copes.  The calls
of each operation are counted from zero; failed calls count too.  A chosen allocation can also be
moved to another address than the one that was asked for.
-/

namespace TargetLink

inductive Operation
  | allocate
  | copy
  | write
  | read
  | execute
  deriving DecidableEq, Repr

namespace Operation

def name : Operation → String
  | allocate => "allocate"
  | copy => "copy"
  | write => "write"
  | read => "read"
  | execute => "execute"

end Operation

/-- Which calls fail and which allocations are moved. -/
structure Schedule where
  failing : List (Operation × Nat) := []
  misplaced : List Nat := []
  deriving DecidableEq, Repr

/-- A client, its schedule, and the number of calls of each operation so far. -/
structure Scheduled (σ : Type) where
  client : σ
  schedule : Schedule := {}
  calls : Operation → Nat := fun _ => 0

namespace Scheduled

variable {σ : Type} [Client σ]

/-- How far a misplaced allocation is moved. -/
def displacement : UInt32 := 0x1000

/-- Counts a call and runs it, unless it is to fail. The step gets the number of the call. -/
def attempt {α : Type} (operation : Operation) (step : Nat → LoadM σ α) :
    LoadM (Scheduled σ) α := fun scheduled =>
  let number := scheduled.calls operation
  let counted := { scheduled with
    calls := fun o => if o = operation then number + 1 else scheduled.calls o }
  if scheduled.schedule.failing.contains (operation, number) then
    (.error (.memory (.reported s!"injected {operation.name} failure #{number}")), counted)
  else
    let (answer, client) := step number scheduled.client
    (answer, { counted with client })

/-- Runs a step that never fails on schedule. -/
def passing {α : Type} (step : StateM σ α) : StateM (Scheduled σ) α := fun scheduled =>
  let (answer, client) := step scheduled.client
  (answer, { scheduled with client })

/-- An allocation request as it is passed on. -/
def divert (schedule : Schedule) (number : Nat) (request : AllocRequest) : AllocRequest :=
  if schedule.misplaced.contains number then
    { request with address := request.address + displacement }
  else request

instance : Client (Scheduled σ) where
  allocate request := fun scheduled =>
    attempt .allocate
      (fun number => Client.allocate (divert scheduled.schedule number request)) scheduled
  release allocation := passing (Client.release allocation)
  copy image request := attempt .copy fun _ => Client.copy image request
  write address bytes := attempt .write fun _ => Client.write address bytes
  read address size := attempt .read fun _ => Client.read address size
  execute address := attempt .execute fun _ => Client.execute address
  openDependent name := passing (Client.openDependent name)

end Scheduled

end TargetLink
