/-!
# Packed words

ELF packs a relocation's symbol and type into one word, and a symbol's binding and type into one
byte.
-/

namespace TargetLink

namespace RelocationInfo

def symbol (info : UInt32) : UInt32 := info >>> 8

def type (info : UInt32) : UInt32 := info &&& 0xff

/-- Packs a symbol index and a type. Only the low bits of each have room. -/
def pack (symbol type : UInt32) : UInt32 := (symbol <<< 8) ||| (type &&& 0xff)

end RelocationInfo

namespace SymbolInfo

def bind (info : UInt8) : UInt8 := info >>> 4

def type (info : UInt8) : UInt8 := info &&& 0xf

/-- Packs a binding and a symbol type. Only the low four bits of each have room. -/
def pack (bind type : UInt8) : UInt8 := (bind <<< 4) ||| (type &&& 0xf)

def visibility (other : UInt8) : UInt8 := other &&& 7

/-- The binding of symbols that only their own module sees. -/
def localBind : UInt8 := 0

/-- The binding of symbols that need no definition. -/
def weakBind : UInt8 := 2

def functionType : UInt8 := 2

/-- The visibility of symbols that other modules may replace. -/
def defaultVisibility : UInt8 := 0

end SymbolInfo

end TargetLink
