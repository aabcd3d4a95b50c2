import TargetLink.Elf.Header

/-!
# Clients

A client gives the loader access to object files and to the memory of the target.  The loader
knows nothing of a client but these operations: the client keeps a state of its own, answers any
call as it likes and may let any call fail, except that it takes released memory back silently.
-/

namespace TargetLink

/-- A request for target memory that will hold one segment. -/
structure AllocRequest where
  address : UInt32
  memorySize : UInt32
  fileSize : UInt32
  fileOffset : UInt32
  align : UInt32
  executable : Bool
  writable : Bool
  relocatable : Bool
  deriving DecidableEq, Repr

/-- Target memory that a client handed out for one segment. -/
structure Allocation where
  address : UInt32
  size : UInt32
  /-- Tells the client its allocations apart. -/
  token : Nat
  deriving DecidableEq, Repr

/-- The part of a file that fills the memory of a segment; what follows it is zero. -/
structure CopyRequest where
  fileOffset : UInt32
  fileSize : UInt32
  memorySize : UInt32
  deriving DecidableEq, Repr

/-- What a loader asks of its client. -/
class Client (σ : Type) where
  /-- Reserves target memory. A segment that is not relocatable belongs at its address. -/
  allocate : AllocRequest → LoadM σ Allocation
  release : Allocation → StateM σ Unit
  /-- Stages the contents of a segment. -/
  copy : Image → CopyRequest → LoadM σ Bytes
  write : UInt32 → Bytes → LoadM σ Unit
  /-- The bytes of a range. A size below `2 ^ 64 - 2 ^ 32` is assumed, so that the end of the range
  fits in 64 bits; the loader reads arrays only, whose sizes are 32-bit numbers. -/
  read : UInt32 → Nat → LoadM σ Bytes
  execute : UInt32 → LoadM σ Unit
  /-- Finds the object file of a dependency. -/
  openDependent : String → StateM σ (Option Image)

/-- The bytes that a copy stages: the part of the file, followed by zeros. A part of no bytes may
lie anywhere. -/
def CopyRequest.stage (request : CopyRequest) (image : Image) : Except LoadError Bytes :=
  if request.fileSize > request.memorySize then
    .error (.invalidElf (.copyTooLong request.fileSize request.memorySize))
  else
    let length := request.fileSize.toNat
    let part := if length = 0 then some [] else
      Bytes.window image request.fileOffset.toNat length
    match part with
    | some part => .ok (part ++ Bytes.zeros (request.memorySize.toNat - length))
    | none => .error .io

/-- A staged segment is as long as its memory. -/
theorem CopyRequest.length_of_stage {request : CopyRequest} {image : Image} {bytes : Bytes}
    (h : request.stage image = .ok bytes) : bytes.length = request.memorySize.toNat := by
  unfold stage at h
  split at h
  next => cases h
  next hle =>
    have hfits : request.fileSize.toNat ≤ request.memorySize.toNat := by
      simpa [UInt32.lt_iff_toNat_lt] using hle
    simp only at h
    split at h
    next part hpart =>
      have hsize : part.length = request.fileSize.toNat := by
        split at hpart
        next hzero => cases hpart; simp [hzero]
        next => exact Bytes.length_window hpart
      cases h
      rw [List.length_append, hsize, Bytes.zeros, List.length_replicate]
      omega
    next => cases h

end TargetLink
