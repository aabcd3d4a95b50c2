import TargetLink.Proofs.ExactlyOnce
import TargetLink.Proofs.Residents
import TargetLink.Proofs.Searching

/-!
# What a module sees under the direct policy

A module with the direct policy looks its references up in the modules that it needs, and nowhere else.
So of all resident modules its relocation reads the module itself and what the modules that it needs
export (`Module.Alike`): every reference gets the same answer (`Module.Alike.resolve_eq`), every relocation
the same operands (`Draft.inputs_alike`), and so step for step the buffers become the same
(`Draft.relocateInPlace_direct`).  The other modules, their order and the application do not matter.  The
name of the module stands in two messages; the rest of what a run comes to does not depend on it.
-/

namespace TargetLink

/-! ## References -/

namespace SymbolGraph

variable {graph graph' : SymbolGraph} {policy : LookupPolicy} {requester : Handle}
  {app app' : Option Handle}

/-- A direct search reads the list of needed modules and what these export. -/
theorem globalLookup_direct
    (hneeds : graph'.dependencies requester = graph.dependencies requester)
    (hexports : ∀ needed ∈ graph.dependencies requester, ∀ name,
      graph'.findExport needed name = graph.findExport needed name) (name : String) :
    graph'.globalLookup .direct requester app' name = graph.globalLookup .direct requester app name := by
  unfold globalLookup searchOrder
  dsimp only
  rw [hneeds, ← List.head?_filterMap, ← List.head?_filterMap]
  congr 1
  refine List.filterMap_congr fun needed hneeded => ?_
  rw [hexports needed hneeded]

/-- References that are searched for with the same success get the same answers. -/
theorem resolve_congr
    (hlookup : ∀ name, graph'.globalLookup policy requester app' name =
      graph.globalLookup policy requester app name) (symbols : List Symbol) (index : UInt32) :
    graph'.resolve policy requester app' symbols index =
      graph.resolve policy requester app symbols index := by
  unfold resolve
  simp only [hlookup]

end SymbolGraph

namespace Module

/-- Two modules, each in its list, that a direct search cannot tell apart: they are alike themselves, up to
what relocating does not read, and what they need exports the same definitions. -/
structure Alike (modules modules' : List Module) (mod mod' : Module) : Prop where
  segments : mod'.segments = mod.segments
  dependencies : mod'.dependencies = mod.dependencies
  staticBase : mod'.staticBase = mod.staticBase
  machine : mod'.machine = mod.machine
  exports : ∀ needed ∈ mod.dependencies, ∀ name,
    (find? modules' needed).bind (·.findExport name) = (find? modules needed).bind (·.findExport name)

/-- Their references get the same answers. -/
theorem Alike.resolve_eq {modules modules' : List Module} {mod mod' : Module}
    (h : Alike modules modules' mod mod') {handle : Handle} (hfind : find? modules handle = some mod)
    (hfind' : find? modules' handle = some mod') (app app' : Option Handle) (symbols : List Symbol)
    (index : UInt32) :
    (graph modules').resolve .direct handle app' symbols index =
      (graph modules).resolve .direct handle app symbols index := by
  have hneeds : (graph modules').dependencies handle = (graph modules).dependencies handle := by
    rw [dependencies_graph_of_find? hfind, dependencies_graph_of_find? hfind', h.dependencies]
  refine SymbolGraph.resolve_congr
    (SymbolGraph.globalLookup_direct hneeds fun needed hneeded name => ?_) symbols index
  rw [dependencies_graph_of_find? hfind] at hneeded
  rw [findExport_graph, findExport_graph, h.exports needed hneeded]

end Module

/-! ## Relocations -/

/-- The error without the name of the module that was relocated. -/
def LoadError.unowned : LoadError → LoadError
  | .symbolResolution (.unresolvedReferences count _) => .symbolResolution (.unresolvedReferences count "")
  | .internal (.stagedCount _ staged segments) => .internal (.stagedCount "" staged segments)
  | e => e

namespace Draft

section Congruence

variable {linkage linkage' : Linkage}

/-- A step reads the machine, the byte order and the operands of its relocation. -/
theorem stepInPlace_congr (hmachine : linkage'.machine = linkage.machine)
    (horder : linkage'.order = linkage.order) (hinputs : linkage'.inputs = linkage.inputs) :
    linkage'.stepInPlace = linkage.stepInPlace := by
  funext segment counts entry
  simp only [Linkage.stepInPlace, Linkage.applyInPlace, hmachine, horder, hinputs]

/-- A run through the segments consists of its steps. -/
theorem relocateEachInPlace_congr (hsteps : linkage'.stepInPlace = linkage.stepInPlace)
    (file : ObjectFile) (home : Option Nat) (position : Nat) (segments : List Segment)
    (counts : Counts) :
    relocateEachInPlace linkage' file home position segments counts =
      relocateEachInPlace linkage file home position segments counts := by
  induction segments generalizing position counts with
  | nil => rfl
  | cons segment segments ih => simp only [relocateEachInPlace, hsteps, ih]

end Congruence

/-- The operands of a relocation are the same in both lists. -/
theorem inputs_alike {draft : Draft} {modules modules' : List Module} {mod mod' : Module}
    (halike : Module.Alike modules modules' mod mod')
    (hfind : Module.find? modules draft.handle = some mod)
    (hfind' : Module.find? modules' draft.handle = some mod')
    (hdirect : mod.policy = .direct) (hdirect' : mod'.policy = .direct) (app app' : Option Handle) :
    (draft.linkage modules' app' mod').inputs = (draft.linkage modules app mod).inputs := by
  have hhandle : mod.handle = draft.handle := (Module.mem_of_find? hfind).2
  have hhandle' : mod'.handle = draft.handle := (Module.mem_of_find? hfind').2
  funext entry place addend
  unfold Linkage.inputs Linkage.withSymbol linkage
  dsimp only
  rw [hdirect, hdirect', hhandle, hhandle', halike.segments, halike.staticBase, halike.machine,
    halike.resolve_eq hfind hfind' app app']

/-- Relocating a module with the direct policy reads, of all resident modules, the module itself and what
the modules that it needs export.  Whatever else is resident, in whatever order, and whatever the
application is, the buffers become the same and so does the answer, but for the name of the module in an
error. -/
theorem relocateInPlace_direct (draft : Draft) (modules modules' : List Module)
    (app app' : Option Handle) (mod mod' : Module) (staged : List Bytes)
    (hfind : Module.find? modules draft.handle = some mod)
    (hfind' : Module.find? modules' draft.handle = some mod')
    (hdirect : mod.policy = .direct) (hdirect' : mod'.policy = .direct)
    (halike : Module.Alike modules modules' mod mod') :
    let run := draft.relocateInPlace modules app staged
    let run' := draft.relocateInPlace modules' app' staged
    run'.2 = run.2 ∧ run'.1.mapError LoadError.unowned = run.1.mapError LoadError.unowned ∧
      (mod'.name = mod.name → run' = run) := by
  have hinputs := inputs_alike halike hfind hfind' hdirect hdirect' app app'
  have hsteps : (draft.linkage modules' app' mod').stepInPlace =
      (draft.linkage modules app mod).stepInPlace := stepInPlace_congr rfl rfl hinputs
  intro run run'
  have hown : run = _ := relocateInPlace_eq hfind app staged
  have hother : run' = _ := relocateInPlace_eq hfind' app' staged
  simp only [halike.segments, relocateEachInPlace_congr hsteps] at hother
  have hsame : run'.2 = run.2 ∧
      run'.1.mapError LoadError.unowned = run.1.mapError LoadError.unowned := by
    rw [hown, hother]
    split
    · exact ⟨rfl, rfl⟩
    · cases checkHomes draft.file mod.segments with
      | error e => exact ⟨rfl, rfl⟩
      | ok home =>
        refine ⟨rfl, ?_⟩
        dsimp only
        cases (relocateEachInPlace (draft.linkage modules app mod) draft.file home 0 mod.segments ⟨0, 0⟩
          staged).1 with
        | error e => rfl
        | ok counts =>
          dsimp only [Except.bind]
          split <;> rfl
  exact ⟨hsame.1, hsame.2, fun hname => by rw [hown, hother, hname]⟩

/-- A module that exports functions. -/
def exporting (handle : Handle) (functions : List (String × UInt32)) : Module :=
  ({ twoWords with handle } : Module).withSymbols
    (functions.map fun (name, value) => ⟨name, value, 4, 0x12, 0, 1⟩)

/-- A module and the one that it needs, by themselves and among others of which the first one, the
application, also exports what is referred to. -/
theorem relocateInPlace_direct_exporting :
    let mod := { twoWords with dependencies := [2] }
    let draft := { ofRelocations [⟨0x1000, 2, 1, some 0⟩, ⟨0x2000, 2, 2, some 0⟩] with
      symbols := [⟨"", 0, 0, 0, 0, 0⟩, ⟨"f", 0, 0, 0x12, 0, 0⟩, ⟨"g", 0, 0, 0x12, 0, 0⟩] }
    let modules := [mod, exporting 2 [("f", 0x4000)]]
    let modules' := [exporting 3 [("f", 0x8000), ("g", 0xa000)], { mod with useCount := 7 },
      { exporting 2 [("f", 0x4000)] with dependencies := [3] }]
    Module.Alike modules modules' mod { mod with useCount := 7 } ∧
      draft.relocateInPlace modules none draft.staged =
        (.error (.symbolResolution (.unresolvedReferences 1 "words")), [[0, 0x40, 0, 0], [0, 0x10, 0, 0]]) ∧
      draft.relocateInPlace modules' (some 3) draft.staged =
        draft.relocateInPlace modules none draft.staged := by
  intro mod draft modules modules'
  have halike : Module.Alike modules modules' mod { mod with useCount := 7 } := by
    refine ⟨rfl, rfl, rfl, rfl, fun needed hneeded name => ?_⟩
    obtain rfl := List.mem_singleton.mp hneeded
    rfl
  obtain ⟨-, -, hsame⟩ := relocateInPlace_direct draft modules modules' none (some 3) mod _ draft.staged
    rfl rfl rfl rfl halike
  exact ⟨halike, by decide +kernel, hsame rfl⟩

end Draft

end TargetLink
