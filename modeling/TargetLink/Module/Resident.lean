import TargetLink.Module.Segment
import TargetLink.Symbol.Lookup

/-!
# Resident modules

A module that the loader keeps: its segments in target memory, the modules it needs, and the
symbols that it offers to others.

The symbols are the global ones of its table, and an index leads from a name to the first
definition of that name, so that a later duplicate never hides an earlier one.
-/

namespace TargetLink

/-- A module that the loader keeps. -/
structure Module where
  name : String
  handle : Handle
  /-- The references to the module. The count has no bound here; that it fits in 32 bits assumes fewer
  than `2 ^ 32` references. -/
  useCount : Nat := 1
  machine : Machine
  order : ByteOrder
  isExecutable : Bool
  entry : UInt32 := 0
  /-- The global symbols that have a name, in the order of the symbol table. -/
  symbols : List Symbol := []
  /-- The defined names, each with the position of its first definition. -/
  exports : List (String × Nat) := []
  segments : List Segment := []
  dependencies : List Handle := []
  policy : LookupPolicy
  staticBase : UInt32 := 0
  fini : Option UInt32 := none
  finiArray : Option AddressArray := none
  /-- Only the symbols are known; nothing of the module lives in target memory. -/
  symbolsOnly : Bool := false
  deriving DecidableEq, Repr

namespace Module

/-- The symbols of a table that other modules may see. -/
def globalSymbols (table : List Symbol) : List Symbol :=
  table.filter fun symbol => !symbol.isLocal && !symbol.name.isEmpty

/-- The index with the symbol at a position, unless it has no definition or its name is taken. -/
def indexSymbol (index : List (String × Nat)) (entry : Symbol × Nat) : List (String × Nat) :=
  let (symbol, position) := entry
  if symbol.isDefined && (index.lookup symbol.name).isNone then
    index ++ [(symbol.name, position)]
  else index

/-- The names that a list of symbols defines, each with the position of its first definition. -/
def exportIndex (symbols : List Symbol) : List (String × Nat) :=
  symbols.zipIdx.foldl indexSymbol []

/-- The module with the global symbols of a table in place of its own. -/
def withSymbols (mod : Module) (table : List Symbol) : Module :=
  let symbols := globalSymbols table
  { mod with symbols, exports := exportIndex symbols }

def findExport (mod : Module) (name : String) : Option Symbol :=
  (mod.exports.lookup name).bind (mod.symbols[·]?)

def entryNames (mod : Module) : List String :=
  (mod.symbols.filter (·.isDefined)).map (·.name)

def node (mod : Module) : SymbolGraph.Node where
  handle := mod.handle
  dependencies := mod.dependencies
  exports := mod.findExport

def graph (modules : List Module) : SymbolGraph := ⟨modules.map node⟩

def find? (modules : List Module) (handle : Handle) : Option Module :=
  modules.find? (·.handle == handle)

end Module

end TargetLink
