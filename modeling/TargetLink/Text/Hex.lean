/-!
# Hexadecimal numbers in messages

Addresses and sizes are written as `0x` and lowercase digits without leading zeros; instruction
words are padded to eight digits.  A negative 64-bit value is written by its two's complement.
-/

namespace TargetLink

def hexDigits (n : Nat) : List Char := Nat.toDigits 16 n

/-- A number as `0x` and its hexadecimal digits. -/
def hex (n : Nat) : String := String.ofList ('0' :: 'x' :: hexDigits n)

/-- An instruction word as `0x` and eight hexadecimal digits. -/
def hexWord (n : Nat) : String :=
  let shown := hexDigits n
  String.ofList ('0' :: 'x' :: (List.replicate (8 - shown.length) '0' ++ shown))

/-- A signed 64-bit value as the hexadecimal number of its two's complement. -/
def hexSigned (n : Int) : String := hex (BitVec.ofInt 64 n).toNat

end TargetLink
