import TargetLink.Module.Relocate
import Mathlib.Logic.Relation

/-!
# Where references are bound

`SymbolGraph.binding?` names the module whose definition answers a reference; `resolve_eq` says what
becomes of the reference in terms of it.  A search only finds modules that the module of the reference
or the application leads to along the modules that they need (`SymbolGraph.leads_of_binding`).
-/

namespace TargetLink

namespace SymbolGraph

variable {graph : SymbolGraph} {policy : LookupPolicy} {requester handle : Handle}
  {app : Option Handle} {symbols : List Symbol} {index : UInt32}

/-- The definition that a reference binds to and the module that provides it. A reference that cannot
be replaced is not searched for. -/
def binding? (graph : SymbolGraph) (policy : LookupPolicy) (requester : Handle)
    (app : Option Handle) (symbols : List Symbol) (index : UInt32) : Option (Handle × Symbol) :=
  symbols[index.toNat]?.bind fun symbol =>
    (if symbol.isPreemptible then graph.globalLookup policy requester app symbol.name else none).or
      (if symbol.isDefined then some (requester, symbol) else none)

theorem resolve_eq : graph.resolve policy requester app symbols index =
    match graph.binding? policy requester app symbols index, symbols[index.toNat]? with
    | some (_, definition), _ => .ok (.ofSymbol definition)
    | none, none => .error (.symbolResolution (.indexOutOfBounds index symbols.length))
    | none, some symbol =>
      if !symbol.isPreemptible then .error (.symbolResolution (.noOwnDefinition symbol.name))
      else if symbol.isWeak then .ok ⟨0, symbol.info, true⟩
      else .error (.symbolResolution (.unresolved symbol.name)) := by
  unfold resolve binding?
  cases symbols[index.toNat]? with
  | none => rfl
  | some symbol =>
    cases hpreemptible : symbol.isPreemptible with
    | false => cases hdefined : symbol.isDefined <;> simp [hpreemptible, hdefined]
    | true =>
      cases hfound : graph.globalLookup policy requester app symbol.name with
      | some found => simp [hpreemptible, hfound]
      | none => cases hdefined : symbol.isDefined <;> simp [hpreemptible, hfound, hdefined]

/-! ## Where a search gets to -/

/-- One module needs another one, or something that it needs leads there. -/
def Leads (graph : SymbolGraph) : Handle → Handle → Prop :=
  Relation.ReflTransGen fun handle needed => needed ∈ graph.dependencies handle

theorem dependencies_of_find? {node : Node} (h : graph.find? handle = some node) :
    graph.dependencies handle = node.dependencies := by
  rw [dependencies, h, Option.map_some, Option.getD_some]

/-- What a walk discovers is reached from its queue. -/
theorem leads_of_mem_walk {budget : Nat} {visited queue : List Handle}
    (h : handle ∈ graph.walk budget visited queue) :
    handle ∈ visited ∨ ∃ start ∈ queue, graph.Leads start handle := by
  induction budget generalizing visited queue with
  | zero => exact Or.inl h
  | succ budget ihbudget =>
    rw [walk] at h
    induction queue with
    | nil => exact Or.inl h
    | cons first queue ih =>
      have hskip : handle ∈ graph.advance (graph.walk budget) visited queue →
          handle ∈ visited ∨ ∃ start ∈ first :: queue, graph.Leads start handle := by
        intro h
        rcases ih h with hvisited | ⟨start, hstart, hleads⟩
        · exact Or.inl hvisited
        · exact Or.inr ⟨start, List.mem_cons_of_mem first hstart, hleads⟩
      rw [advance] at h
      split at h
      · exact hskip h
      · split at h
        · exact hskip h
        · rename_i node hfind
          rcases ihbudget h with hvisited | ⟨start, hstart, hleads⟩
          · rcases List.mem_append.mp hvisited with hold | hnew
            · exact Or.inl hold
            · exact Or.inr ⟨first, List.mem_cons_self, List.mem_singleton.mp hnew ▸ .refl⟩
          · rcases List.mem_append.mp hstart with hqueued | hneeded
            · exact Or.inr ⟨start, List.mem_cons_of_mem first hqueued, hleads⟩
            · refine Or.inr ⟨first, List.mem_cons_self, hleads.head ?_⟩
              rw [dependencies_of_find? hfind]
              exact (List.mem_filter.mp hneeded).1

/-- A search gets to modules that the requester leads to, and a breadth-first one also to those that
the application leads to. -/
theorem leads_of_mem_searchOrder (h : handle ∈ graph.searchOrder policy requester app) :
    graph.Leads requester handle ∨
      policy = .breadthFirst ∧ ∃ start, app = some start ∧ graph.Leads start handle := by
  cases policy with
  | direct => exact Or.inl (.single h)
  | breadthFirst =>
    rcases leads_of_mem_walk h with hfirst | ⟨start, hstart, hleads⟩
    · rcases leads_of_mem_walk hfirst with hnone | ⟨start, hstart, hleads⟩
      · cases hnone
      · exact Or.inr ⟨rfl, start, Option.mem_toList.mp hstart, hleads⟩
    · exact Or.inl (List.mem_singleton.mp hstart ▸ hleads)

/-- So does every binding. -/
theorem leads_of_binding {definition : Symbol}
    (h : graph.binding? policy requester app symbols index = some (handle, definition)) :
    graph.Leads requester handle ∨
      policy = .breadthFirst ∧ ∃ start, app = some start ∧ graph.Leads start handle := by
  obtain ⟨symbol, -, h⟩ := Option.bind_eq_some_iff.mp h
  rcases Option.or_eq_some_iff.mp h with hfound | ⟨-, hown⟩
  · obtain ⟨-, hfound⟩ := Option.ite_none_right_eq_some.mp hfound
    obtain ⟨found, hmem, hexport⟩ := List.exists_of_findSome?_eq_some hfound
    obtain ⟨_, -, heq⟩ := Option.map_eq_some_iff.mp hexport
    obtain rfl : found = handle := congrArg Prod.fst heq
    exact leads_of_mem_searchOrder hmem
  · obtain ⟨-, heq⟩ := Option.ite_none_right_eq_some.mp hown
    obtain rfl : requester = handle := congrArg Prod.fst (Option.some.inj heq)
    exact Or.inl .refl

end SymbolGraph

/-! ## The graph of a list of modules -/

namespace Module

variable {modules : List Module} {handle : Handle}

theorem find?_graph_eq (modules : List Module) (handle : Handle) :
    (graph modules).find? handle = (find? modules handle).map (·.node) :=
  List.find?_map

theorem dependencies_graph_of_find? {mod : Module} (hfind : find? modules handle = some mod) :
    (graph modules).dependencies handle = mod.dependencies :=
  SymbolGraph.dependencies_of_find? (by rw [find?_graph_eq, hfind]; rfl)

theorem findExport_graph (modules : List Module) (handle : Handle) (name : String) :
    (graph modules).findExport handle name = (find? modules handle).bind (·.findExport name) := by
  rw [SymbolGraph.findExport, find?_graph_eq]
  cases find? modules handle <;> rfl

end Module

end TargetLink
