import TargetLink.Target.Recorded
import TargetLink.Target.Simulated

/-!
# Runs of the simulated target

A target starts with a heap window and no memory in use, and answers one call after the other.  Every
call of a client is on record, so the record tells what was ever allocated.
-/

namespace TargetLink

/-- What is asked of a target. -/
inductive TargetCall
  | register (name : String) (image : Image)
  | allocate (request : AllocRequest)
  | release (allocation : Allocation)
  | copy (image : Image) (request : CopyRequest)
  | write (address : UInt32) (bytes : Bytes)
  | read (address : UInt32) (size : Nat)
  | execute (address : UInt32)
  | openDependent (name : String)

namespace SimulatedTarget

/-- A target that has answered no call. It places relocatable segments in `[base, limit)`. -/
def fresh (base limit : UInt32) (files : Directory) (searchPaths : List Directory) :
    SimulatedTarget :=
  ({ files, searchPaths } : SimulatedTarget).withHeap base limit

/-- The target after a call, whatever the answer. -/
def serve (recorded : Recorded SimulatedTarget) : TargetCall → Recorded SimulatedTarget
  | .register name image => { recorded with client := recorded.client.register name image }
  | .allocate request => (Client.allocate request recorded).2
  | .release allocation => (Client.release allocation recorded).2
  | .copy image request => (Client.copy image request recorded).2
  | .write address bytes => (Client.write address bytes recorded).2
  | .read address size => (Client.read address size recorded).2
  | .execute address => (Client.execute address recorded).2
  | .openDependent name => (Client.openDependent name recorded).2

/-- A target after some calls, with their answers. -/
def onRecord (target : SimulatedTarget) (calls : List TargetCall) : Recorded SimulatedTarget :=
  calls.foldl serve { client := target }

end SimulatedTarget

end TargetLink
