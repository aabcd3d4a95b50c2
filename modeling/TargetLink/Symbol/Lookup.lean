import TargetLink.Symbol
import TargetLink.Error

/-!
# Which definition a reference binds to

The modules of a loader form a graph along the modules they need.  A reference that another module
may answer is searched for in the direct dependencies of its module or, breadth first, in
everything that the application reaches and then in everything that the module itself reaches.

`traverse` lists modules in the order in which a breadth-first walk discovers them.  The walk ends
on every graph, cyclic or not, because it discovers each module once; `traverse_cons` is its
equation, without any bound.
-/

namespace TargetLink

structure SymbolGraph.Node where
  handle : Handle
  dependencies : List Handle
  /-- The definition it exports under a name. -/
  exports : String → Option Symbol

/-- Modules whose exported symbols answer references. The first node with a handle is the module of
that handle. -/
structure SymbolGraph where
  nodes : List SymbolGraph.Node

namespace SymbolGraph

def find? (graph : SymbolGraph) (handle : Handle) : Option Node :=
  graph.nodes.find? (·.handle == handle)

/-- The modules that a module needs, none for an unknown handle. -/
def dependencies (graph : SymbolGraph) (handle : Handle) : List Handle :=
  ((graph.find? handle).map (·.dependencies)).getD []

/-- The definition that a module exports under a name, none for an unknown handle. -/
def findExport (graph : SymbolGraph) (handle : Handle) (name : String) : Option Symbol :=
  (graph.find? handle).bind (·.exports name)

/-- The nodes that are not among the visited handles. -/
def unvisited (graph : SymbolGraph) (visited : List Handle) : List Node :=
  graph.nodes.filter fun node => !visited.contains node.handle

theorem length_unvisited_lt {graph : SymbolGraph} {visited : List Handle} {handle : Handle}
    {node : Node} (hfind : graph.find? handle = some node)
    (hnew : visited.contains handle = false) :
    (graph.unvisited (visited ++ [handle])).length < (graph.unvisited visited).length := by
  have hmem : node ∈ graph.nodes := List.mem_of_find?_eq_some hfind
  have hhandle : node.handle = handle := by
    have := List.find?_some hfind
    simpa using this
  have hsplit : graph.unvisited (visited ++ [handle]) =
      (graph.unvisited visited).filter (·.handle != handle) := by
    simp only [unvisited, List.filter_filter]
    congr 1
    funext n
    simp only [List.contains_append, Bool.not_or, List.contains_cons, List.contains_nil,
      Bool.or_false, bne]
    exact Bool.and_comm _ _
  rw [hsplit]
  refine List.length_filter_lt_length_iff_exists.mpr ⟨node, ?_, ?_⟩
  · simp only [unvisited, List.mem_filter]
    exact ⟨hmem, by simpa [hhandle] using hnew⟩
  · simp [hhandle]

/-- Takes handles from a queue up to the first one that leads to a module which was not visited.
That module is visited and the modules that it needs join the queue; `next` does the rest. -/
def advance (graph : SymbolGraph) (next : List Handle → List Handle → List Handle)
    (visited : List Handle) : List Handle → List Handle
  | [] => visited
  | handle :: queue =>
    if visited.contains handle then advance graph next visited queue
    else
      match graph.find? handle with
      | none => advance graph next visited queue
      | some node =>
        next (visited ++ [handle])
          (queue ++ node.dependencies.filter fun d => !(visited ++ [handle]).contains d)

/-- A walk that discovers fewer than `budget` modules. -/
def walk (graph : SymbolGraph) : (budget : Nat) → List Handle → List Handle → List Handle
  | 0, visited, _ => visited
  | budget + 1, visited, queue => graph.advance (graph.walk budget) visited queue

/-- The visited modules followed by those that a breadth-first walk from the queue discovers, in
the order of their discovery. -/
def traverse (graph : SymbolGraph) (visited queue : List Handle) : List Handle :=
  graph.walk (graph.nodes.length + 1) visited queue

/-- Two budgets that both exceed the number of modules to discover make no difference. -/
theorem walk_eq_walk {graph : SymbolGraph} {a b : Nat} {visited queue : List Handle}
    (ha : (graph.unvisited visited).length < a) (hb : (graph.unvisited visited).length < b) :
    graph.walk a visited queue = graph.walk b visited queue := by
  induction a generalizing b visited queue with
  | zero => exact absurd ha (Nat.not_lt_zero _)
  | succ a ih =>
    cases b with
    | zero => exact absurd hb (Nat.not_lt_zero _)
    | succ b =>
      simp only [walk]
      induction queue with
      | nil => rfl
      | cons handle queue ihq =>
        simp only [advance]
        split
        next => exact ihq
        next hnew =>
          split
          next => exact ihq
          next node hfind =>
            have hlt := length_unvisited_lt hfind (by simpa using hnew)
            exact ih (by omega) (by omega)

theorem length_unvisited_le (graph : SymbolGraph) (visited : List Handle) :
    (graph.unvisited visited).length ≤ graph.nodes.length :=
  List.length_filter_le _ _

@[simp] theorem traverse_nil (graph : SymbolGraph) (visited : List Handle) :
    graph.traverse visited [] = visited := rfl

/-- One step of a breadth-first walk. -/
theorem traverse_cons (graph : SymbolGraph) (visited : List Handle) (handle : Handle)
    (queue : List Handle) :
    graph.traverse visited (handle :: queue) =
      if visited.contains handle then graph.traverse visited queue
      else
        match graph.find? handle with
        | none => graph.traverse visited queue
        | some node =>
          graph.traverse (visited ++ [handle])
            (queue ++ node.dependencies.filter fun d => !(visited ++ [handle]).contains d) := by
  have hstep : graph.traverse visited (handle :: queue) =
      graph.advance (graph.walk graph.nodes.length) visited (handle :: queue) := rfl
  rw [hstep, advance]
  split
  next => rfl
  next hnew =>
    split
    next => rfl
    next node hfind =>
      have hlt := length_unvisited_lt hfind (by simpa using hnew)
      have hle := graph.length_unvisited_le visited
      exact walk_eq_walk (by omega) (by omega)

/-- The modules that a reference of `requester` is searched in, in order. -/
def searchOrder (graph : SymbolGraph) (policy : LookupPolicy) (requester : Handle)
    (app : Option Handle) : List Handle :=
  match policy with
  | .direct => graph.dependencies requester
  | .breadthFirst => graph.traverse (graph.traverse [] app.toList) [requester]

/-- The first module of the search order that exports a name, and its definition. -/
def globalLookup (graph : SymbolGraph) (policy : LookupPolicy) (requester : Handle)
    (app : Option Handle) (name : String) : Option (Handle × Symbol) :=
  (graph.searchOrder policy requester app).findSome? fun handle =>
    (graph.findExport handle name).map (handle, ·)

end SymbolGraph

/-- The value that a reference binds to. -/
structure Resolution where
  value : UInt32
  info : UInt8
  /-- A weak reference that nobody defines; its value is zero. -/
  missingWeak : Bool
  deriving DecidableEq, Repr

namespace Resolution

def ofSymbol (symbol : Symbol) : Resolution := ⟨symbol.value, symbol.info, false⟩

end Resolution

namespace SymbolGraph

/-- Resolves the symbol with a given index in the table of `requester`.

A symbol that cannot be replaced binds to its own definition. Any other binds to the definition
that the search finds, else to its own one, else, if it is weak, to zero. -/
def resolve (graph : SymbolGraph) (policy : LookupPolicy) (requester : Handle)
    (app : Option Handle) (symbols : List Symbol) (index : UInt32) :
    Except LoadError Resolution :=
  match symbols[index.toNat]? with
  | none => .error (.symbolResolution (.indexOutOfBounds index symbols.length))
  | some symbol =>
    if !symbol.isPreemptible then
      if symbol.isDefined then .ok (.ofSymbol symbol)
      else .error (.symbolResolution (.noOwnDefinition symbol.name))
    else
      match graph.globalLookup policy requester app symbol.name with
      | some (_, definition) => .ok (.ofSymbol definition)
      | none =>
        if symbol.isDefined then .ok (.ofSymbol symbol)
        else if symbol.isWeak then .ok ⟨0, symbol.info, true⟩
        else .error (.symbolResolution (.unresolved symbol.name))

end SymbolGraph

end TargetLink
