import TargetLink.Elf.Info
import TargetLink.Elf.Machine

/-!
# Symbols

A symbol names an address of a module.  Until its module is placed the address is the one the
module was linked at; placing moves it by the distance its segment moved and marks it absolute, so
that it is never moved a second time.
-/

namespace TargetLink

/-- Names a loaded module towards the client. -/
abbrev Handle := UInt32

structure Symbol where
  name : String
  value : UInt32
  size : UInt32
  info : UInt8
  other : UInt8
  sectionIndex : UInt16
  deriving DecidableEq, Repr, Inhabited

namespace Symbol

/-- The section index of references without a definition. -/
def undefinedSection : UInt16 := 0

/-- The section index of symbols whose value is a final address. -/
def absoluteSection : UInt16 := 0xfff1

def bind (symbol : Symbol) : UInt8 := SymbolInfo.bind symbol.info

def type (symbol : Symbol) : UInt8 := SymbolInfo.type symbol.info

def visibility (symbol : Symbol) : UInt8 := SymbolInfo.visibility symbol.other

def isDefined (symbol : Symbol) : Bool := symbol.sectionIndex != undefinedSection

def isLocal (symbol : Symbol) : Bool := symbol.bind == SymbolInfo.localBind

def isWeak (symbol : Symbol) : Bool := symbol.bind == SymbolInfo.weakBind

def isFunction (symbol : Symbol) : Bool := symbol.type == SymbolInfo.functionType

/-- Whether a definition in another module may take the place of the symbol. -/
def isPreemptible (symbol : Symbol) : Bool :=
  !symbol.isLocal && symbol.visibility == SymbolInfo.defaultVisibility

def isAbsolute (symbol : Symbol) : Bool := symbol.sectionIndex == absoluteSection

/-- Whether moving `[start, start + size)` moves the symbol. -/
def movesWith (symbol : Symbol) (start size : UInt32) : Bool :=
  symbol.isDefined && !symbol.isAbsolute && symbol.value - start < size

/-- The symbol after `[start, start + size)` moved by `delta`. -/
def move (start size delta : UInt32) (symbol : Symbol) : Symbol :=
  if symbol.movesWith start size then
    { symbol with value := symbol.value + delta, sectionIndex := absoluteSection }
  else symbol

/-- A symbol that holds a final address stays where it is. -/
theorem move_of_isAbsolute {symbol : Symbol} (h : symbol.isAbsolute = true)
    (start size delta : UInt32) : symbol.move start size delta = symbol := by
  simp [move, movesWith, h]

end Symbol

/-- A symbol table after `[start, start + size)` moved by `delta`. -/
def moveSymbols (symbols : List Symbol) (start size delta : UInt32) : List Symbol :=
  symbols.map (Symbol.move start size delta)

/-- How many symbols of a table move with `[start, start + size)`. -/
def movingSymbols (symbols : List Symbol) (start size : UInt32) : Nat :=
  symbols.countP (·.movesWith start size)

end TargetLink
