import TargetLink.Module.Relocate
import TargetLink.Relocation.InPlace

/-!
# Relocating the buffers of a draft

`Draft.relocate` answers with the new contents of all segments.  A loader that keeps one buffer for each
segment patches these buffers, and what was patched stays patched when a later relocation fails.
`Draft.relocateInPlace` takes these steps.
-/

namespace TargetLink

namespace Draft

/-- What the relocations of a draft have in common. -/
def linkage (draft : Draft) (modules : List Module) (app : Option Handle) (mod : Module) : Linkage :=
  { mod, app
    graph := Module.graph modules
    machine := draft.file.machine
    order := draft.file.order
    symbols := draft.symbols
    dsbtIndex := draft.dsbtIndex }

/-- How many relocations were applied and how many lack a symbol. -/
structure Counts where
  applied : Nat
  unresolved : Nat
  deriving DecidableEq, Repr

namespace Linkage

/-- Applies a relocation to the buffer of its segment. -/
def applyInPlace (linkage : Linkage) (segment : Segment) (entry : RelocationEntry) :
    LoadM Bytes Unit := do
  if Relocation.isInert linkage.machine entry.type then
    return
  let block ← get
  let offset := entry.offset - segment.linkAddress
  let addend ← MonadExcept.ofExcept <| match entry.addend with
    | some addend => .ok addend
    | none =>
      Relocation.storedAddend linkage.machine entry.type ⟨block, offset.toNat, linkage.order⟩
  let inputs ← MonadExcept.ofExcept (linkage.inputs entry (segment.address + offset) addend)
  Relocation.patchInPlace linkage.machine entry.type linkage.order offset.toNat inputs

/-- Applies a relocation, or counts it if its symbol has no value. -/
def stepInPlace (linkage : Linkage) (segment : Segment) (counts : Counts)
    (entry : RelocationEntry) : LoadM Bytes Counts := do
  match ← (linkage.applyInPlace segment entry).observe with
  | .ok () => return { counts with applied := counts.applied + 1 }
  | .error (.symbolResolution _) => return { counts with unresolved := counts.unresolved + 1 }
  | .error e => throw e

end Linkage

/-- Relocates the buffers of the segments from position `position` on. -/
def relocateEachInPlace (linkage : Linkage) (file : ObjectFile) (pltHome : Option Nat) :
    (position : Nat) → List Segment → Counts → LoadM (List Bytes) Counts
  | position, segment :: segments, counts => do
    match ← get with
    | [] => return counts
    | block :: blocks =>
      let entries := entriesOf file segment (pltHome = some position)
      let counts ← (entries.foldlM (linkage.stepInPlace segment) counts).zoom
        (fun _ => block) (fun block _ => block :: blocks)
      (relocateEachInPlace linkage file pltHome (position + 1) segments counts).zoom
        List.tail (fun rest buffers => buffers.take 1 ++ rest)
  | _, [], counts => return counts

/-- Applies every relocation of a draft to the buffers of its segments; the answer is their number. -/
def relocateInPlace (draft : Draft) (modules : List Module) (app : Option Handle) :
    LoadM (List Bytes) Nat := do
  match Module.find? modules draft.handle with
  | none => throw (.internal (.notListed draft.name))
  | some mod =>
    let staged ← get
    if staged.length ≠ mod.segments.length then
      throw (.internal (.stagedCount mod.name staged.length mod.segments.length))
    let pltHome ← MonadExcept.ofExcept (checkHomes draft.file mod.segments)
    let counts ← relocateEachInPlace (draft.linkage modules app mod) draft.file pltHome 0 mod.segments
      ⟨0, 0⟩
    if counts.unresolved > 0 then
      throw (.symbolResolution (.unresolvedReferences counts.unresolved mod.name))
    return counts.applied

end Draft

end TargetLink
