import TargetLink.Bytes
import TargetLink.Error

/-!
# Program arguments

The arguments of a program are written to an area of its memory as a block: their number, a pointer
to each of them, a null pointer, and the strings, each ended by a zero byte.
-/

namespace TargetLink.Arguments

/-- The bytes of an argument with the zero that ends it. -/
def terminated (argument : String) : Bytes := argument.toUTF8.data.toList ++ [0]

def headerSize (arguments : List String) : Nat := 4 * (arguments.length + 2)

def blockSize (arguments : List String) : Nat :=
  headerSize arguments + (arguments.flatMap terminated).length

/-- The addresses of strings that follow each other from an address on. -/
def pointers (address : UInt32) : List String → List UInt32
  | [] => []
  | argument :: rest =>
    address :: pointers (address + UInt32.ofNat (terminated argument).length) rest

/-- The block of arguments for an area at `base` that holds `capacity` bytes. -/
def encode (base capacity : UInt32) (arguments : List String) (order : ByteOrder) :
    Except LoadError Bytes :=
  if blockSize arguments > capacity.toNat then
    .error (.memory (.argumentsTooLong (blockSize arguments) capacity))
  else
    let words := UInt32.ofNat arguments.length ::
      pointers (base + UInt32.ofNat (headerSize arguments)) arguments ++ [0]
    .ok (order.encodeWords words ++ arguments.flatMap terminated)

end TargetLink.Arguments
