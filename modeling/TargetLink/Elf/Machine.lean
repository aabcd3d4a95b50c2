/-!
# Target machines

The loader serves two processor families, each with its own relocation types and its own dynamic
tags.  An object file names its machine, its kind and its operating system ABI by number.
-/

namespace TargetLink

/-- The processor families that modules can be loaded for. -/
inductive Machine
  | arm
  | c6000
  deriving DecidableEq, Repr, Inhabited

namespace Machine

def ofNumber? (number : UInt16) : Option Machine :=
  if number = 40 then some .arm
  else if number = 140 then some .c6000
  else none

def name : Machine → String
  | arm => "ARM"
  | c6000 => "C6000"

end Machine

def executableType : UInt16 := 2

def sharedObjectType : UInt16 := 3

/-- How a reference that another module may answer is searched for. -/
inductive LookupPolicy
  /-- Only in the modules that the referring module names as needed, in order. -/
  | direct
  /-- In the whole dependency graph, breadth first, starting at the application. -/
  | breadthFirst
  deriving DecidableEq, Repr, Inhabited

/-- The policy that an operating system ABI asks for: GNU and C6000 Linux search breadth first. -/
def LookupPolicy.ofOsAbi? (osAbi : UInt8) : Option LookupPolicy :=
  if osAbi = 3 ∨ osAbi = 65 then some .breadthFirst else none

end TargetLink
