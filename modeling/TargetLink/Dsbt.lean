import TargetLink.Symbol
import TargetLink.Error

/-!
# The table of static bases

Position independent C6000 code finds its data through a table that holds the static base of every
loaded module; each module owns a private copy.  A module claims a slot of the table, either one
that was chosen when it was linked or any free one.  Claims are registered first and bound to slots
together, the specific ones before the others, so that a specific claim is never in the way of a
general one of the same load.
-/

namespace TargetLink

/-- A module's claim on a slot. -/
structure Dsbt.Claim where
  name : String
  handle : Handle
  /-- How many slots the private table of the module holds. -/
  size : UInt32
  base : UInt32
  staticBase : UInt32
  /-- The slot the module was linked for, or `Dsbt.anyIndex`. -/
  requested : UInt32
  deriving DecidableEq, Repr

/-- The master table of static bases. -/
structure Dsbt where
  /-- Claims that wait for their slots, in the order of their registration. -/
  pending : List Dsbt.Claim := []
  /-- What each slot holds. A bound claim does not note its index: it is the position of its slot. -/
  slots : List (Option Dsbt.Claim) := []
  /-- No slot below this one is free. -/
  firstFree : Nat := 0
  deriving DecidableEq, Repr, Inhabited

namespace Dsbt

/-- The request of a module that takes any slot. -/
def anyIndex : UInt32 := 0xffffffff

def Claim.isSpecific (claim : Claim) : Bool := claim.requested != anyIndex

/-- The bound claims with their slots, in the order of the slots. -/
def entries (dsbt : Dsbt) : List (Nat × Claim) :=
  dsbt.slots.zipIdx.filterMap fun (slot, index) => slot.map (index, ·)

def index? (dsbt : Dsbt) (handle : Handle) : Option Nat :=
  (dsbt.entries.find? (·.2.handle == handle)).map (·.1)

/-- The static base of every slot, zero for a free one. -/
def table (dsbt : Dsbt) : List UInt32 :=
  dsbt.slots.map fun slot => (slot.map (·.staticBase)).getD 0

def claimAt? (dsbt : Dsbt) (index : Nat) : Option Claim := (dsbt.slots[index]?).join

/-- Why a specific claim cannot be registered, if so: its slot lies behind its own table, another
waiting claim asks for the same slot, or the slot is bound. -/
def conflict? (dsbt : Dsbt) (claim : Claim) : Option DsbtFault :=
  if claim.requested ≥ claim.size then
    some (.indexOutsideTable claim.name claim.requested claim.size)
  else
    match dsbt.pending.find? (·.requested == claim.requested) with
    | some other => some (.bothRequest other.name claim.name claim.requested)
    | none =>
      (dsbt.claimAt? claim.requested.toNat).map fun owner =>
        .slotBound claim.name claim.requested owner.name

def knows (dsbt : Dsbt) (handle : Handle) : Bool :=
  dsbt.pending.any (·.handle == handle) || dsbt.entries.any (·.2.handle == handle)

/-- Registers a claim. A rejected claim changes nothing. -/
def register (dsbt : Dsbt) (claim : Claim) : Except LoadError Dsbt :=
  if dsbt.knows claim.handle then
    .error (.dsbt (.alreadyRequested claim.name))
  else
    match if claim.isSpecific then dsbt.conflict? claim else none with
    | some fault => .error (.dsbt fault)
    | none => .ok { dsbt with pending := dsbt.pending ++ [claim] }

/-- Binds a claim to a slot. The table grows as far as it has to. -/
def bindAt (dsbt : Dsbt) (index : Nat) (claim : Claim) : Dsbt :=
  let grown := dsbt.slots ++ List.replicate (index + 1 - dsbt.slots.length) none
  { dsbt with slots := grown.set index (some claim) }

/-- The first free slot from the cursor on; the one behind the table if none is free. -/
def nextFree (dsbt : Dsbt) : Nat :=
  dsbt.firstFree + ((dsbt.slots.drop dsbt.firstFree).takeWhile (·.isSome)).length

def bindNext (dsbt : Dsbt) (claim : Claim) : Dsbt :=
  let index := dsbt.nextFree
  { dsbt.bindAt index claim with firstFree := index + 1 }

/-- Binds every waiting claim to a slot, the specific ones first. -/
def assign (dsbt : Dsbt) : Dsbt :=
  let specific := dsbt.pending.filter (·.isSpecific)
  let general := dsbt.pending.filter (!·.isSpecific)
  let emptied := { dsbt with pending := [] }
  let placed := specific.foldl (fun d claim => d.bindAt claim.requested.toNat claim) emptied
  general.foldl bindNext placed

/-- Drops the claim of a module, waiting or bound. Its slot becomes free; the table keeps its
length. -/
def release (dsbt : Dsbt) (handle : Handle) : Dsbt :=
  let isOwn := fun slot : Option Claim => slot.any (·.handle == handle)
  let freed := dsbt.slots.findIdx isOwn
  { pending := dsbt.pending.filter (·.handle != handle)
    slots := dsbt.slots.map fun slot => if isOwn slot then none else slot
    firstFree := if freed < dsbt.slots.length then min dsbt.firstFree freed else dsbt.firstFree }

/-- The first module whose private table is too small for the slots in use. -/
def tooSmall? (dsbt : Dsbt) : Option Claim :=
  (dsbt.entries.map (·.2)).find? (·.size.toNat < dsbt.slots.length)

/-- Hands the table to every bound module, in the order of the slots. Nothing is handed out if some
private table is too small. -/
def updateAll {m : Type → Type} [Monad m] [MonadExceptOf LoadError m] (dsbt : Dsbt)
    (sink : Claim → List UInt32 → m Unit) : m Unit :=
  match dsbt.tooSmall? with
  | some claim => throw (.dsbt (.tableTooSmall claim.name claim.size dsbt.slots.length))
  | none => dsbt.entries.forM fun entry => sink entry.2 dsbt.table

end Dsbt

end TargetLink
