import TargetLink.Module.Draft
import TargetLink.Relocation.Codec

/-!
# Relocating a draft

Every relocation of a module is applied to the host copy of the one segment that contains its cell.
A segment gets the relocations of its REL table first, then those of its RELA table; the relocations
of the procedure linkage table follow, all of them in the segment of the first one.

A relocation whose symbol has no value does not stop the others: such relocations are counted and
reported together.  Any other failure ends the pass.
-/

namespace TargetLink

namespace Draft

/-- What the relocations of one module have in common. -/
structure Linkage where
  mod : Module
  graph : SymbolGraph
  app : Option Handle
  machine : Machine
  order : ByteOrder
  symbols : List Symbol
  dsbtIndex : Option UInt32

namespace Linkage

/-- The operands of a relocation that refers to a symbol. On ARM the lowest bit of a function's
value says that it is a Thumb function. -/
def withSymbol (linkage : Linkage) (resolution : Resolution) (inputs : Relocation.Inputs) :
    Relocation.Inputs :=
  let function := SymbolInfo.type resolution.info == SymbolInfo.functionType
  let thumb := linkage.mod.machine = .arm && function && resolution.value &&& 1 != 0
  { inputs with
    function
    thumb
    symbol := if thumb then resolution.value &&& ~~~1 else resolution.value }

def inputs (linkage : Linkage) (entry : RelocationEntry) (place : UInt32) (addend : Int32) :
    Except LoadError Relocation.Inputs := do
  let plain : Relocation.Inputs :=
    { addend, place, staticBase := linkage.mod.staticBase, dsbtIndex := linkage.dsbtIndex }
  if Relocation.isRelative linkage.machine entry.type then
    return { plain with symbol := Segment.shiftOf linkage.mod.segments addend.toUInt32 }
  else if entry.symbol = 0 then
    return plain
  else
    let resolution ← linkage.graph.resolve linkage.mod.policy linkage.mod.handle linkage.app
      linkage.symbols entry.symbol
    return linkage.withSymbol resolution plain

def apply (linkage : Linkage) (segment : Segment) (block : Bytes) (entry : RelocationEntry) :
    Except LoadError Bytes := do
  if Relocation.isInert linkage.machine entry.type then
    return block
  let offset := entry.offset - segment.linkAddress
  let site : Relocation.Site := ⟨block, offset.toNat, linkage.order⟩
  let addend ← match entry.addend with
    | some addend => pure addend
    | none => Relocation.storedAddend linkage.machine entry.type site
  let inputs ← linkage.inputs entry (segment.address + offset) addend
  Relocation.patch linkage.machine entry.type site inputs

end Linkage

/-- A segment's contents and the numbers of relocations that were applied and that lack a symbol. -/
structure Tally where
  block : Bytes
  applied : Nat
  unresolved : Nat
  deriving DecidableEq, Repr

/-- Applies one relocation, or counts it if its symbol has no value. -/
def Tally.step (linkage : Linkage) (segment : Segment) (tally : Tally) (entry : RelocationEntry) :
    Except LoadError Tally :=
  match linkage.apply segment tally.block entry with
  | .ok block => .ok { tally with block, applied := tally.applied + 1 }
  | .error (.symbolResolution _) => .ok { tally with unresolved := tally.unresolved + 1 }
  | .error e => .error e

/-- The relocations of a file whose cells lie in a segment, in the order in which they are
applied. -/
def entriesOf (file : ObjectFile) (segment : Segment) (holdsPlt : Bool) : List RelocationEntry :=
  (file.rel ++ file.rela ++ if holdsPlt then file.plt else []).filter
    fun entry => segment.containsLink entry.offset

/-- The position of the first segment that contains the cell of a relocation. -/
def homeOf? (segments : List Segment) (entry : RelocationEntry) : Option Nat :=
  segments.findIdx? (·.containsLink entry.offset)

/-- Every relocation patches some segment, and those of the procedure linkage table all patch the
segment of the first one, whose position is the answer. -/
def checkHomes (file : ObjectFile) (segments : List Segment) : Except LoadError (Option Nat) := do
  let entries := file.rel ++ file.rela ++ file.plt
  match entries.find? fun entry => (homeOf? segments entry).isNone with
  | some entry =>
    throw (.relocation
      (.noSegment (Relocation.typeName file.machine entry.type) entry.offset))
  | none =>
    let home := file.plt.head?.bind (homeOf? segments)
    match file.plt.find? fun entry => homeOf? segments entry ≠ home with
    | some stray => throw (.relocation (.strayPlt stray.offset))
    | none => return home

/-- The relocated contents of the segments from position `position` on, and the totals so far. -/
def relocateFrom (linkage : Linkage) (file : ObjectFile) (pltHome : Option Nat) :
    (position : Nat) → List Segment → List Bytes → (applied unresolved : Nat) →
      Except LoadError (List Bytes × Nat × Nat)
  | position, segment :: segments, block :: blocks, applied, unresolved => do
    let entries := entriesOf file segment (pltHome = some position)
    let tally ← entries.foldlM (Tally.step linkage segment) ⟨block, applied, unresolved⟩
    let (blocks, totals) ← relocateFrom linkage file pltHome (position + 1) segments blocks
      tally.applied tally.unresolved
    return (tally.block :: blocks, totals)
  | _, _, blocks, applied, unresolved => .ok (blocks, applied, unresolved)

/-- The draft with every relocation applied to its staged contents, and their number. -/
def relocate (draft : Draft) (modules : List Module) (app : Option Handle) :
    Except LoadError (Draft × Nat) := do
  match Module.find? modules draft.handle with
  | none => throw (.internal (.notListed draft.name))
  | some mod =>
    if draft.staged.length ≠ mod.segments.length then
      throw (.internal (.stagedCount mod.name draft.staged.length mod.segments.length))
    let pltHome ← checkHomes draft.file mod.segments
    let linkage : Linkage :=
      { mod, app
        graph := Module.graph modules
        machine := draft.file.machine
        order := draft.file.order
        symbols := draft.symbols
        dsbtIndex := draft.dsbtIndex }
    let (staged, applied, unresolved) ←
      relocateFrom linkage draft.file pltHome 0 mod.segments draft.staged 0 0
    if unresolved > 0 then
      throw (.symbolResolution (.unresolvedReferences unresolved mod.name))
    return ({ draft with staged }, applied)

end Draft

end TargetLink
