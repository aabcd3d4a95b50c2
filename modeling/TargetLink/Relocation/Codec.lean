import TargetLink.Relocation.Arm
import TargetLink.Relocation.C6000

/-!
# The relocations of a machine

One interface to the relocation types of both machines.  A relocation either changes its cell and
nothing else, or fails and changes nothing.
-/

namespace TargetLink.Relocation

def typeName? (machine : Machine) (type : UInt32) : Option String :=
  match machine with
  | .arm => (Kind.find? Arm.kinds type).map (·.name)
  | .c6000 => (Kind.find? C6000.kinds type).map (·.name)

/-- The name of a relocation type in messages. -/
def typeName (machine : Machine) (type : UInt32) : String :=
  (typeName? machine type).getD <| match machine with
    | .arm => "R_ARM_<unknown>"
    | .c6000 => "R_C6000_<unknown>"

def isInert (machine : Machine) (type : UInt32) : Bool :=
  match machine with
  | .arm => Kind.isInert Arm.kinds type
  | .c6000 => Kind.isInert C6000.kinds type

/-- Whether the addend of a relocation type is a link-time address that moves with its segment. -/
def isRelative (machine : Machine) (type : UInt32) : Bool :=
  match machine with
  | .arm => type == Arm.relativeType
  | .c6000 => false

/-- The addend that the cell at a site holds. C6000 addends never stand in the cell. -/
def storedAddend (machine : Machine) (type : UInt32) (site : Site) : Except LoadError Int32 :=
  match machine with
  | .arm =>
    match Kind.rule? Arm.kinds type with
    | some rule => rule.storedAddend site
    | none => .error (.unsupportedRelocation machine type)
  | .c6000 => .error (.internal (.storedAddend (typeName machine type)))

def patch (machine : Machine) (type : UInt32) (site : Site) (inputs : Inputs) :
    Except LoadError Bytes :=
  let name := typeName machine type
  match machine with
  | .arm =>
    match Kind.treatmentOf Arm.kinds type with
    | .inert => .ok site.bytes
    | .unsupported => .error (.unsupportedRelocation machine type)
    | .patch rule => rule.patch name site inputs
  | .c6000 =>
    match Kind.treatmentOf C6000.kinds type with
    | .inert => .ok site.bytes
    | .unsupported => .error (.unsupportedRelocation machine type)
    | .patch rule => rule.patch name site inputs

end TargetLink.Relocation
