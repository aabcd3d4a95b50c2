import TargetLink.Proofs.Exports
import TargetLink.Proofs.Searching

/-!
# What visibility decides

The visibility of a symbol is read in one place: a reference whose own symbol is not of default visibility
is not searched for.  A definition is offered to other modules by its binding alone
(`Module.findExport_withSymbols`).  So what is local never answers another module, and a hidden definition
that is not local is found like any other: every answer is the same as if all definitions had default
visibility (`SymbolGraph.resolve_mapExports`).
-/

namespace TargetLink

/-! ## Graphs with other definitions -/

namespace SymbolGraph

variable {graph : SymbolGraph} {f : Symbol → Symbol}

/-- The graph with other definitions under the same names. -/
def mapExports (f : Symbol → Symbol) (graph : SymbolGraph) : SymbolGraph where
  nodes := graph.nodes.map fun node => { node with exports := fun name => (node.exports name).map f }

theorem find?_mapExports (f : Symbol → Symbol) (graph : SymbolGraph) (handle : Handle) :
    (graph.mapExports f).find? handle = (graph.find? handle).map fun node =>
      { node with exports := fun name => (node.exports name).map f } :=
  List.find?_map

theorem dependencies_mapExports (f : Symbol → Symbol) (graph : SymbolGraph) (handle : Handle) :
    (graph.mapExports f).dependencies handle = graph.dependencies handle := by
  rw [dependencies, dependencies, find?_mapExports, Option.map_map]
  rfl

theorem findExport_mapExports (f : Symbol → Symbol) (graph : SymbolGraph) (handle : Handle)
    (name : String) :
    (graph.mapExports f).findExport handle name = (graph.findExport handle name).map f := by
  rw [findExport, findExport, find?_mapExports]
  cases graph.find? handle <;> rfl

/-- A walk does not look at definitions. -/
theorem walk_mapExports (f : Symbol → Symbol) (graph : SymbolGraph) (budget : Nat)
    (visited queue : List Handle) :
    (graph.mapExports f).walk budget visited queue = graph.walk budget visited queue := by
  induction budget generalizing visited queue with
  | zero => rfl
  | succ budget ih =>
    rw [walk, walk]
    induction queue with
    | nil => rfl
    | cons handle queue ihq =>
      rw [advance, advance, find?_mapExports]
      split
      · exact ihq
      · cases graph.find? handle with
        | none => exact ihq
        | some node => exact ih _ _

theorem searchOrder_mapExports (f : Symbol → Symbol) (graph : SymbolGraph) (policy : LookupPolicy)
    (requester : Handle) (app : Option Handle) :
    (graph.mapExports f).searchOrder policy requester app = graph.searchOrder policy requester app := by
  cases policy with
  | direct => exact dependencies_mapExports f graph requester
  | breadthFirst =>
    have hwalk (visited queue : List Handle) :
        (graph.mapExports f).traverse visited queue = graph.traverse visited queue := by
      rw [traverse, walk_mapExports, mapExports, List.length_map]
      rfl
    rw [searchOrder, hwalk, hwalk]
    rfl

/-- The same module is found, with its other definition. -/
theorem globalLookup_mapExports (f : Symbol → Symbol) (graph : SymbolGraph) (policy : LookupPolicy)
    (requester : Handle) (app : Option Handle) (name : String) :
    (graph.mapExports f).globalLookup policy requester app name =
      (graph.globalLookup policy requester app name).map fun (handle, symbol) => (handle, f symbol) := by
  rw [globalLookup, globalLookup, searchOrder_mapExports, List.map_findSome?]
  congr 1
  funext handle
  rw [findExport_mapExports]
  simp [Function.comp_def]

/-- A reference is answered from the value and the type of a definition, and from nothing else. -/
theorem resolve_mapExports (hsame : ∀ symbol, Resolution.ofSymbol (f symbol) = .ofSymbol symbol)
    (graph : SymbolGraph) (policy : LookupPolicy) (requester : Handle) (app : Option Handle)
    (symbols : List Symbol) (index : UInt32) :
    (graph.mapExports f).resolve policy requester app symbols index =
      graph.resolve policy requester app symbols index := by
  unfold resolve
  cases symbols[index.toNat]? with
  | none => rfl
  | some symbol =>
    dsimp only
    rw [globalLookup_mapExports]
    cases graph.globalLookup policy requester app symbol.name with
    | none => rfl
    | some found => simp [hsame]

/-- The same module answers a reference. -/
theorem provider_mapExports (f : Symbol → Symbol) (graph : SymbolGraph) (policy : LookupPolicy)
    (requester : Handle) (app : Option Handle) (symbols : List Symbol) (index : UInt32) :
    ((graph.mapExports f).binding? policy requester app symbols index).map (·.1) =
      (graph.binding? policy requester app symbols index).map (·.1) := by
  unfold binding?
  cases symbols[index.toNat]? with
  | none => rfl
  | some symbol =>
    rw [Option.bind_some, Option.bind_some, globalLookup_mapExports]
    cases symbol.isPreemptible with
    | false => rfl
    | true => cases graph.globalLookup policy requester app symbol.name <;> rfl

end SymbolGraph

/-! ## Hidden definitions -/

namespace Symbol

/-- Whether a symbol has the visibility hidden or internal. -/
def isHidden (symbol : Symbol) : Bool := symbol.visibility == 2 || symbol.visibility == 1

/-- The symbol with default visibility. -/
def exposed (symbol : Symbol) : Symbol := { symbol with other := SymbolInfo.defaultVisibility }

end Symbol

namespace SymbolGraph

variable {modules : List (Module × List Symbol)} {policy : LookupPolicy}
  {requester provider : Handle} {app : Option Handle} {symbols : List Symbol} {index : UInt32}
  {definition : Symbol}

/-- The graph of modules that were given symbol tables. -/
def ofTables (modules : List (Module × List Symbol)) : SymbolGraph :=
  Module.graph (modules.map fun (m, table) => m.withSymbols table)

theorem find?_ofTables (modules : List (Module × List Symbol)) (handle : Handle) :
    (ofTables modules).find? handle = (modules.find? (·.1.handle == handle)).map
      fun (m, table) => (m.withSymbols table).node := by
  rw [ofTables, Module.graph, find?, List.find?_map, List.find?_map, Option.map_map]
  rfl

/-- Exposing all definitions of the tables exposes what the modules offer. -/
theorem ofTables_exposed (modules : List (Module × List Symbol)) :
    ofTables (modules.map fun (m, table) => (m, table.map Symbol.exposed)) =
      (ofTables modules).mapExports Symbol.exposed := by
  have hoffer (m : Module) (table : List Symbol) (name : String) :
      (m.withSymbols (table.map Symbol.exposed)).findExport name =
        ((m.withSymbols table).findExport name).map Symbol.exposed := by
    rw [Module.findExport_withSymbols, Module.findExport_withSymbols, Module.globalSymbols,
      List.filter_map, Draft.definitionIn?, List.find?_map]
    rfl
  simp only [ofTables, Module.graph, mapExports, List.map_map]
  congr 1
  refine List.map_congr_left fun tabled _ => ?_
  simp only [Function.comp_apply, Module.node]
  congr 1
  exact funext (hoffer tabled.1 tabled.2)

/-- What answers a reference of another module was searched for, and its module offers it. -/
theorem findExport_of_binding
    (h : (ofTables modules).binding? policy requester app symbols index = some (provider, definition))
    (hother : provider ≠ requester) : ∃ reference, symbols[index.toNat]? = some reference ∧
      reference.isPreemptible ∧
      (ofTables modules).findExport provider reference.name = some definition := by
  obtain ⟨reference, hreference, h⟩ := Option.bind_eq_some_iff.mp h
  rcases Option.or_eq_some_iff.mp h with hfound | ⟨-, hown⟩
  · obtain ⟨hpreemptible, hfound⟩ := Option.ite_none_right_eq_some.mp hfound
    obtain ⟨found, -, hfirst⟩ := List.exists_of_findSome?_eq_some hfound
    obtain ⟨_, hexport, heq⟩ := Option.map_eq_some_iff.mp hfirst
    obtain ⟨rfl, rfl⟩ := Prod.mk.inj heq
    exact ⟨reference, hreference, hpreemptible, hexport⟩
  · obtain ⟨-, hown⟩ := Option.ite_none_right_eq_some.mp hown
    exact absurd (congrArg Prod.fst (Option.some.inj hown)).symm hother

/-- A definition of one module answers a reference of another one only if it is not local; it is the first
definition of the name in its table that is not, and the symbol of the reference has default visibility.
The visibility of definitions plays no part: a reference gets the same answer from the same module if all
definitions of all modules have default visibility.  So a hidden definition that is not local answers where
one of default visibility in its place would. -/
theorem resolve_unhidden (modules : List (Module × List Symbol)) (policy : LookupPolicy)
    (requester : Handle) (app : Option Handle) (symbols : List Symbol) (index : UInt32) :
    let graph := ofTables modules
    let exposed := ofTables (modules.map fun (m, table) => (m, table.map Symbol.exposed))
    (∀ provider definition,
      graph.binding? policy requester app symbols index = some (provider, definition) →
      graph.resolve policy requester app symbols index = .ok (.ofSymbol definition) ∧
      (provider ≠ requester → definition.isLocal = false ∧ ∃ reference m table,
        symbols[index.toNat]? = some reference ∧ reference.isPreemptible ∧
        modules.find? (·.1.handle == provider) = some (m, table) ∧
        Draft.definitionIn? (Module.globalSymbols table) reference.name = some definition)) ∧
    exposed.resolve policy requester app symbols index =
      graph.resolve policy requester app symbols index ∧
    (exposed.binding? policy requester app symbols index).map (·.1) =
      (graph.binding? policy requester app symbols index).map (·.1) := by
  intro graph exposed
  have hexposed : exposed = graph.mapExports Symbol.exposed := ofTables_exposed modules
  refine ⟨fun provider definition hbinding => ⟨by rw [resolve_eq, hbinding], fun hother => ?_⟩, ?_, ?_⟩
  · obtain ⟨reference, hreference, hpreemptible, hexport⟩ := findExport_of_binding hbinding hother
    obtain ⟨node, hnode, hoffer⟩ := Option.bind_eq_some_iff.mp hexport
    rw [find?_ofTables] at hnode
    obtain ⟨⟨m, table⟩, hfind, rfl⟩ := Option.map_eq_some_iff.mp hnode
    have hfirst := (Module.findExport_withSymbols m table reference.name).symm.trans hoffer
    have hglobal := (List.mem_filter.mp (List.mem_of_find?_eq_some hfirst)).2
    exact ⟨by simpa using (Bool.and_eq_true_iff.mp hglobal).1, reference, m, table, hreference,
      hpreemptible, hfind, hfirst⟩
  · rw [hexposed]
    exact resolve_mapExports (f := Symbol.exposed) (fun _ => rfl) graph policy requester app symbols index
  · rw [hexposed]
    exact provider_mapExports Symbol.exposed graph policy requester app symbols index

/-- Two modules of which the first one needs the second one. -/
def needing (table : List Symbol) : List (Module × List Symbol) :=
  let plain : Module :=
    { name := "", handle := 2, machine := .arm, order := .little, isExecutable := false, policy := .direct }
  [({ plain with handle := 1, dependencies := [2] }, []), (plain, table)]

/-- A function that is hidden but not local. -/
def hiddenFunction : Symbol := ⟨"f", 0x2000, 4, 0x12, 2, 1⟩

/-- A symbol table that refers to a function elsewhere. -/
def functionReference : List Symbol := [⟨"f", 0, 0, 0x12, 0, 0⟩]

theorem resolve_unhidden_needing :
    (ofTables (needing [hiddenFunction])).resolve .direct 1 none functionReference 0 =
        .ok (.ofSymbol hiddenFunction) ∧
      ∃ m table, (needing [hiddenFunction]).find? (·.1.handle == 2) = some (m, table) ∧
        Draft.definitionIn? (Module.globalSymbols table) "f" = some hiddenFunction := by
  obtain ⟨hanswers, -⟩ := resolve_unhidden (needing [hiddenFunction]) .direct 1 none functionReference 0
  obtain ⟨hresolve, hprovider⟩ := hanswers 2 hiddenFunction (by decide)
  obtain ⟨-, reference, m, table, hreference, -, hfind, hfirst⟩ := hprovider (by decide)
  obtain rfl := Option.some.inj hreference
  exact ⟨hresolve, m, table, hfind, hfirst⟩

/-- A hidden definition answers a reference of the module that needs its module. -/
theorem hidden_answers :
    hiddenFunction.isHidden ∧
    (ofTables (needing [hiddenFunction])).binding? .direct 1 none functionReference 0 =
      some (2, hiddenFunction) ∧
    (ofTables (needing [hiddenFunction])).resolve .direct 1 none functionReference 0 =
      .ok ⟨0x2000, 0x12, false⟩ := by
  refine ⟨by decide, by decide, rfl⟩

end SymbolGraph

end TargetLink
