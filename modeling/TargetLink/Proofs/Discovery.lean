import TargetLink.Proofs.Searching
import Mathlib.Data.List.Shortlex
import Mathlib.Data.List.Infix

/-!
# The order of discovery

A route leads from a module along the modules that it needs; it names a position in one dependency
list after the other (`SymbolGraph.Route`).  Routes have an order: short ones come before long ones,
and of two that are equally long the one comes first that takes the earlier position where they part.
This is the order in which a breadth-first walk gets to the ends of routes, so it discovers first what
the least route leads to (`SymbolGraph.DiscoversFirst`).

The walk itself neither follows a route twice nor visits a module twice.  `Settled.step` says that this
does not show: it goes on as if nothing had been visited before, as long as what the visited modules
need is visited or in the queue (`SymbolGraph.Settled`).  So it comes to the ends of all routes of one
length before it comes to longer ones (`Settled.advance_ends`).
-/

namespace TargetLink

namespace SymbolGraph

variable {graph : SymbolGraph} {visited queue front : List Handle} {start handle : Handle}

/-! ## Routes -/

/-- A route from a module to another one through modules in scope. -/
inductive Route (graph : SymbolGraph) (scope : Handle → Prop) (start : Handle) :
    List Nat → Handle → Prop
  | here : scope start → Route graph scope start [] start
  | along {route : List Nat} {handle needed : Handle} {position : Nat} :
      Route graph scope start route handle →
      (graph.dependencies handle)[position]? = some needed → scope needed →
      Route graph scope start (route ++ [position]) needed

/-- Of the modules in scope with a property, a breadth-first search discovers this one first: no route
to another one is shorter, and none that is equally long comes before. -/
def DiscoversFirst (graph : SymbolGraph) (scope good : Handle → Prop) (start first : Handle) : Prop :=
  ∃ route, graph.Route scope start route first ∧ good first ∧
    ∀ route' other, graph.Route scope start route' other → good other →
      route = route' ∨ List.Shortlex (· < ·) route route'

namespace Route

variable {scope : Handle → Prop} {route : List Nat}

theorem leads (h : graph.Route scope start route handle) : graph.Leads start handle := by
  induction h with
  | here => exact .refl
  | along _ hneeded _ ih => exact ih.tail (List.mem_of_getElem? hneeded)

/-- A route has one end. -/
theorem eq_end {other : Handle} (h : graph.Route scope start route handle)
    (hother : graph.Route scope start route other) : handle = other := by
  induction h generalizing other with
  | here =>
    generalize hroute : ([] : List Nat) = route at hother
    cases hother with
    | here => rfl
    | along => simp at hroute
  | @along route handle needed position _ hneeded _ ih =>
    generalize hlonger : route ++ [position] = longer at hother
    cases hother with
    | here => simp at hlonger
    | along hbefore hneeded' =>
      obtain ⟨rfl, hposition⟩ := List.append_inj' hlonger rfl
      obtain rfl := List.singleton_inj.mp hposition
      obtain rfl := ih hbefore
      exact Option.some.inj (hneeded.symm.trans hneeded')

/-- A route to a module that nothing outside of a scope leads to stays inside. -/
theorem confine {scope' : Handle → Prop} (h : graph.Route scope start route handle)
    (hscope : ∀ {first last}, graph.Leads first last → scope' last → scope' first)
    (hend : scope' handle) : graph.Route scope' start route handle := by
  induction h with
  | here => exact .here hend
  | along _ hneeded _ ih =>
    have hbefore := hscope (.single (List.mem_of_getElem? hneeded)) hend
    exact .along (ih hbefore) hneeded hend

end Route

/-- The first module that a search discovers is unique. -/
theorem DiscoversFirst.unique {scope good : Handle → Prop} {first first' : Handle}
    (h : graph.DiscoversFirst scope good start first)
    (h' : graph.DiscoversFirst scope good start first') : first = first' := by
  obtain ⟨route, hroute, hgood, hleast⟩ := h
  obtain ⟨route', hroute', hgood', hleast'⟩ := h'
  have hsame : route = route' := by
    rcases hleast route' first' hroute' hgood' with heq | hlt
    · exact heq
    · rcases hleast' route first hroute hgood with heq | hgt
      · exact heq.symm
      · exact absurd hgt (asymm_of (List.Shortlex (· < ·)) hlt)
  exact Route.eq_end hroute (hsame ▸ hroute')

/-! ## Routes of one length -/

/-- The routes of a length with their ends, in order. -/
def routes (graph : SymbolGraph) (start : Handle) : Nat → List (List Nat × Handle)
  | 0 => [([], start)]
  | length + 1 => (routes graph start length).flatMap fun (route, handle) =>
      (graph.dependencies handle).zipIdx.map fun (needed, position) => (route ++ [position], needed)

theorem mem_routes {length : Nat} {route : List Nat} :
    (route, handle) ∈ graph.routes start length ↔
      route.length = length ∧ graph.Route (fun _ => True) start route handle := by
  induction length generalizing route handle with
  | zero =>
    constructor
    · intro h
      obtain ⟨rfl, rfl⟩ := Prod.mk.inj (List.mem_singleton.mp h)
      exact ⟨rfl, .here trivial⟩
    · rintro ⟨hlength, hroute⟩
      cases hroute with
      | here => exact List.mem_cons_self
      | along => simp at hlength
  | succ length ih =>
    simp only [routes, List.mem_flatMap, List.mem_map, Prod.exists, Prod.mk.injEq,
      List.mem_zipIdx_iff_getElem?]
    constructor
    · rintro ⟨before, last, hbefore, needed, position, hneeded, rfl, rfl⟩
      obtain ⟨hlength, hroute⟩ := ih.mp hbefore
      exact ⟨by simp [hlength], hroute.along hneeded trivial⟩
    · rintro ⟨hlength, hroute⟩
      cases hroute with
      | here => cases hlength
      | @along before last needed position hbefore hneeded =>
        have hshorter : before.length = length := by simpa using hlength
        exact ⟨before, last, ih.mpr ⟨hshorter, hbefore⟩, handle, position, hneeded, rfl, rfl⟩

theorem lex_append {first second : List Nat} (hlength : first.length = second.length)
    (h : List.Lex (· < ·) first second) (more more' : List Nat) :
    List.Lex (· < ·) (first ++ more) (second ++ more') := by
  induction h with
  | nil => cases hlength
  | cons _ ih => exact .cons (ih (by simpa using hlength))
  | rel hlt => exact .rel hlt

theorem pairwise_routes (length : Nat) :
    (graph.routes start length).Pairwise fun r s => List.Lex (· < ·) r.1 s.1 := by
  induction length with
  | zero => exact List.pairwise_singleton _ _
  | succ length ih =>
    refine List.pairwise_flatMap.mpr ⟨fun r _ => ?_, ?_⟩
    · have hpositions : ((graph.dependencies r.2).zipIdx.map Prod.snd).Pairwise (· < ·) := by
        rw [List.zipIdx_map_snd]
        exact List.pairwise_lt_range'
      refine List.pairwise_map.mpr ((List.pairwise_map.mp hpositions).imp ?_)
      intro d e hlt
      exact .append_left _ (.rel hlt) _
    · refine ih.imp_of_mem ?_
      intro r s hr hs hlt x hx y hy
      obtain ⟨d, -, rfl⟩ := List.mem_map.mp hx
      obtain ⟨e, -, rfl⟩ := List.mem_map.mp hy
      have hlength : r.1.length = s.1.length := (mem_routes.mp hr).1.trans (mem_routes.mp hs).1.symm
      exact lex_append hlength hlt _ _

/-! ## What a walk may skip -/

/-- What a module needs of which nothing is known is nothing. -/
theorem dependencies_of_unknown (h : graph.find? handle = none) : graph.dependencies handle = [] := by
  rw [dependencies, h]
  rfl

/-- Nothing is lost if the module is dropped from the rest of the queue: it is visited, it stands in the
queue, or nothing is known of it. -/
def Covered (graph : SymbolGraph) (visited queue : List Handle) (handle : Handle) : Prop :=
  handle ∈ visited ∨ handle ∈ queue ∨ graph.find? handle = none

namespace Covered

variable {first : Handle}

theorem append (h : graph.Covered visited queue handle) (more : List Handle) :
    graph.Covered visited (queue ++ more) handle :=
  h.imp_right (Or.imp_left (List.mem_append_left more))

/-- A module that the walk passes over covers nothing. -/
theorem pass (h : graph.Covered visited (first :: queue) handle)
    (hfirst : first ∈ visited ∨ graph.find? first = none) : graph.Covered visited queue handle := by
  rcases h with hvisited | hmem | hunknown
  · exact Or.inl hvisited
  · rcases List.mem_cons.mp hmem with rfl | hqueue
    · exact hfirst.imp_right Or.inr
    · exact Or.inr (Or.inl hqueue)
  · exact Or.inr (Or.inr hunknown)

theorem visit (h : graph.Covered visited (first :: queue) handle) (more : List Handle) :
    graph.Covered (visited ++ [first]) (queue ++ more) handle := by
  rcases h with hvisited | hmem | hunknown
  · exact Or.inl (List.mem_append_left _ hvisited)
  · rcases List.mem_cons.mp hmem with rfl | hqueue
    · exact Or.inl List.mem_concat_self
    · exact Or.inr (Or.inl (List.mem_append_left more hqueue))
  · exact Or.inr (Or.inr hunknown)

end Covered

/-- The walk passes over a module that it visited, and over one of which nothing is known. -/
theorem traverse_pass (h : handle ∈ visited ∨ graph.find? handle = none) :
    graph.traverse visited (handle :: queue) = graph.traverse visited queue := by
  rw [traverse_cons]
  split
  · rfl
  · rename_i hnew
    rw [h.resolve_left (by simpa using hnew)]

/-- A new module is visited, and what it needs joins the queue. -/
theorem traverse_visit {node : Node} (hfind : graph.find? handle = some node)
    (hnew : handle ∉ visited) : graph.traverse visited (handle :: queue) =
      graph.traverse (visited ++ [handle])
        (queue ++ (graph.dependencies handle).filter fun d => !(visited ++ [handle]).contains d) := by
  rw [traverse_cons, if_neg (by simpa using hnew), hfind, dependencies_of_find? hfind]

/-- Every round of a walk passes over the first module of the queue or visits it. -/
theorem induct_traverse {motive : List Handle → List Handle → Prop}
    (nil : ∀ visited, motive visited [])
    (pass : ∀ visited handle queue, handle ∈ visited ∨ graph.find? handle = none →
      motive visited queue → motive visited (handle :: queue))
    (visit : ∀ visited handle node queue, graph.find? handle = some node → handle ∉ visited →
      (∀ queue, motive (visited ++ [handle]) queue) → motive visited (handle :: queue))
    (visited queue : List Handle) : motive visited queue := by
  induction hcount : (graph.unvisited visited).length using Nat.strong_induction_on
    generalizing visited queue with
  | _ count ihvisited =>
  induction queue with
  | nil => exact nil visited
  | cons handle queue ih =>
    by_cases hvisited : handle ∈ visited
    · exact pass visited handle queue (Or.inl hvisited) ih
    · cases hfind : graph.find? handle with
      | none => exact pass visited handle queue (Or.inr hfind) ih
      | some node =>
        have hlt := length_unvisited_lt hfind (by simpa using hvisited)
        exact visit visited handle node queue hfind hvisited fun next =>
          ihvisited _ (hcount ▸ hlt) _ next rfl

theorem traverse_drop (h : graph.Covered visited front handle) :
    graph.traverse visited (front ++ handle :: queue) = graph.traverse visited (front ++ queue) := by
  induction visited, front using graph.induct_traverse generalizing queue with
  | nil visited => exact traverse_pass (h.imp_right fun h => h.resolve_left List.not_mem_nil)
  | pass visited first front hfirst ih =>
    rw [List.cons_append, List.cons_append, traverse_pass hfirst, traverse_pass hfirst]
    exact ih (h.pass hfirst)
  | visit visited first node front hfind hnew ih =>
    rw [List.cons_append, List.cons_append, traverse_visit hfind hnew, traverse_visit hfind hnew,
      List.append_assoc, List.cons_append, List.append_assoc]
    refine ih front ?_
    simpa using h.visit []

theorem traverse_drop_all {more : List Handle}
    (h : ∀ handle ∈ more, graph.Covered visited queue handle) :
    graph.traverse visited (queue ++ more) = graph.traverse visited queue := by
  induction more with
  | nil => rw [List.append_nil]
  | cons handle more ih =>
    rw [traverse_drop (h handle List.mem_cons_self)]
    exact ih fun other hother => h other (List.mem_cons_of_mem handle hother)

/-- It makes no difference whether visited modules join the queue. -/
theorem traverse_filter (more : List Handle) :
    graph.traverse visited (queue ++ more.filter fun d => !visited.contains d) =
      graph.traverse visited (queue ++ more) := by
  induction more generalizing queue with
  | nil => rfl
  | cons handle more ih =>
    by_cases hvisited : handle ∈ visited
    · rw [List.filter_cons_of_neg (by simpa using hvisited), traverse_drop (Or.inl hvisited)]
      exact ih
    · rw [List.filter_cons_of_pos (by simpa using hvisited),
        List.append_cons queue handle (more.filter _), List.append_cons queue handle more]
      exact ih

/-- What a walk starts with it keeps. -/
theorem prefix_traverse (visited queue : List Handle) : visited <+: graph.traverse visited queue := by
  induction visited, queue using graph.induct_traverse with
  | nil visited => exact List.prefix_rfl
  | pass visited handle queue hhandle ih =>
    rw [traverse_pass hhandle]
    exact ih
  | visit visited handle node queue hfind hnew ih =>
    rw [traverse_visit hfind hnew]
    exact (List.prefix_append _ _).trans (ih _)

/-! ## A walk without memory -/

/-- All that the visited modules need is covered. -/
def Settled (graph : SymbolGraph) (visited queue : List Handle) : Prop :=
  ∀ handle ∈ visited, ∀ needed ∈ graph.dependencies handle, graph.Covered visited queue needed

namespace Settled

theorem nil (queue : List Handle) : graph.Settled [] queue := by
  rintro _ ⟨⟩

theorem append (h : graph.Settled visited queue) (more : List Handle) :
    graph.Settled visited (queue ++ more) :=
  fun handle hhandle needed hneeded => (h handle hhandle needed hneeded).append more

theorem pass (h : graph.Settled visited (handle :: queue))
    (hhandle : handle ∈ visited ∨ graph.find? handle = none) : graph.Settled visited queue :=
  fun other hother needed hneeded => (h other hother needed hneeded).pass hhandle

theorem visit (h : graph.Settled visited (handle :: queue)) :
    graph.Settled (visited ++ [handle]) (queue ++ graph.dependencies handle) := by
  intro other hother needed hneeded
  rcases List.mem_append.mp hother with hold | hnew
  · exact (h other hold needed hneeded).visit _
  · obtain rfl := List.mem_singleton.mp hnew
    exact Or.inr (Or.inl (List.mem_append_right queue hneeded))

/-- When a walk is over, all that its modules need was visited. -/
theorem traverse (h : graph.Settled visited queue) :
    graph.Settled (graph.traverse visited queue) [] := by
  induction visited, queue using graph.induct_traverse with
  | nil visited => exact h
  | pass visited handle queue hhandle ih =>
    rw [traverse_pass hhandle]
    exact ih (h.pass hhandle)
  | visit visited handle node queue hfind hnew ih =>
    rw [traverse_visit hfind hnew, traverse_filter]
    exact ih _ h.visit

/-- A walk goes on as if the first module of its queue had not been visited before. -/
theorem step (h : graph.Settled visited (handle :: queue)) :
    ∃ visited', visited' ⊆ visited ++ [handle] ∧
      graph.Settled visited' (queue ++ graph.dependencies handle) ∧
      graph.traverse visited (handle :: queue) =
        graph.traverse visited' (queue ++ graph.dependencies handle) := by
  by_cases hvisited : handle ∈ visited
  · refine ⟨visited, List.subset_append_left _ _, (h.pass (Or.inl hvisited)).append _, ?_⟩
    rw [traverse_pass (Or.inl hvisited), traverse_drop_all]
    exact fun needed hneeded => (h handle hvisited needed hneeded).pass (Or.inl hvisited)
  · cases hfind : graph.find? handle with
    | none =>
      refine ⟨visited, List.subset_append_left _ _, (h.pass (Or.inr hfind)).append _, ?_⟩
      rw [traverse_pass (Or.inr hfind), dependencies_of_unknown hfind, List.append_nil]
    | some node =>
      refine ⟨visited ++ [handle], List.Subset.refl _, h.visit, ?_⟩
      rw [traverse_visit hfind hvisited, traverse_filter]

/-- A walk may pass over the modules at the front of its queue that have not got what is looked for. -/
theorem advance {β : Type} {f : Handle → Option β} (front : List Handle)
    (h : graph.Settled visited (front ++ queue)) (hvisited : ∀ v ∈ visited, f v = none)
    (hfront : ∀ v ∈ front, f v = none) :
    ∃ visited', (∀ v ∈ visited', f v = none) ∧
      graph.Settled visited' (queue ++ front.flatMap graph.dependencies) ∧
      graph.traverse visited (front ++ queue) =
        graph.traverse visited' (queue ++ front.flatMap graph.dependencies) := by
  induction front generalizing visited queue with
  | nil => exact ⟨visited, hvisited, by simpa using h, by simp⟩
  | cons handle front ih =>
    obtain ⟨hhandle, hfront⟩ := List.forall_mem_cons.mp hfront
    rw [List.cons_append] at h ⊢
    obtain ⟨visited₁, hsub, hsettled, heq⟩ := step h
    rw [List.append_assoc] at hsettled heq
    have hvisited₁ : ∀ v ∈ visited₁, f v = none := by
      intro v hv
      rcases List.mem_append.mp (hsub hv) with hold | hnew
      · exact hvisited v hold
      · exact List.mem_singleton.mp hnew ▸ hhandle
    obtain ⟨visited₂, hvisited₂, hsettled₂, heq₂⟩ := ih hsettled hvisited₁ hfront
    rw [List.flatMap_cons, ← List.append_assoc]
    exact ⟨visited₂, hvisited₂, hsettled₂, heq.trans heq₂⟩

end Settled

/-- The modules at the ends of the routes of a length. -/
def ends (graph : SymbolGraph) (start : Handle) (length : Nat) : List Handle :=
  (graph.routes start length).map Prod.snd

theorem ends_succ (length : Nat) :
    graph.ends start (length + 1) = (graph.ends start length).flatMap graph.dependencies := by
  simp only [ends, routes, List.map_flatMap, List.flatMap_map, List.map_map]
  congr 1
  funext r
  exact List.zipIdx_map_fst _ _

/-- A walk may pass over all modules that are nearer than the first one that has what is looked for. -/
theorem Settled.advance_ends {β : Type} {f : Handle → Option β} (h : graph.Settled visited [start])
    (hvisited : ∀ v ∈ visited, f v = none) {length : Nat}
    (hnear : ∀ shorter < length, ∀ v ∈ graph.ends start shorter, f v = none) :
    ∃ visited', (∀ v ∈ visited', f v = none) ∧ graph.Settled visited' (graph.ends start length) ∧
      graph.traverse visited [start] = graph.traverse visited' (graph.ends start length) := by
  induction length with
  | zero => exact ⟨visited, hvisited, h, rfl⟩
  | succ length ih =>
    obtain ⟨visited₁, hvisited₁, hsettled, heq⟩ := ih fun shorter hlt => hnear shorter (by omega)
    obtain ⟨visited₂, hvisited₂, hsettled₂, heq₂⟩ := Settled.advance (graph.ends start length)
      (by rwa [List.append_nil]) hvisited₁ (hnear length (Nat.lt_succ_self _))
    rw [List.append_nil, List.nil_append] at heq₂
    rw [ends_succ]
    exact ⟨visited₂, hvisited₂, hsettled₂, heq.trans heq₂⟩

/-- A walk finds what is looked for at the end of the first route of the least length. -/
theorem Settled.findSome?_traverse {β : Type} {f : Handle → Option β}
    (h : graph.Settled visited [start]) (hvisited : ∀ v ∈ visited, f v = none)
    (hunknown : ∀ handle, graph.find? handle = none → f handle = none) {length : Nat}
    (hnear : ∀ shorter < length, ∀ v ∈ graph.ends start shorter, f v = none)
    {before after : List Handle} {first : Handle} {b : β}
    (hends : graph.ends start length = before ++ first :: after) (hbefore : ∀ v ∈ before, f v = none)
    (hfirst : f first = some b) : (graph.traverse visited [start]).findSome? f = some b := by
  obtain ⟨visited₁, hvisited₁, hsettled, heq⟩ := h.advance_ends hvisited hnear
  rw [hends] at hsettled heq
  obtain ⟨visited₂, hvisited₂, -, heq₂⟩ := hsettled.advance before hvisited₁ hbefore
  have hnew : first ∉ visited₂ := by
    intro hmem
    have hnone := hvisited₂ first hmem
    rw [hfirst] at hnone
    cases hnone
  cases hfind : graph.find? first with
  | none =>
    have hnone := hunknown first hfind
    rw [hfirst] at hnone
    cases hnone
  | some node =>
    rw [heq, heq₂, List.cons_append, traverse_visit hfind hnew]
    obtain ⟨rest, hrest⟩ := graph.prefix_traverse (visited₂ ++ [first]) (after ++
      before.flatMap graph.dependencies ++
        (graph.dependencies first).filter fun d => !(visited₂ ++ [first]).contains d)
    rw [← hrest, List.append_assoc, List.findSome?_append, List.findSome?_eq_none_iff.mpr hvisited₂,
      Option.none_or, List.singleton_append, List.findSome?_cons, hfirst]

/-! ## Breadth-first searches -/

/-- The module offers a definition under a name. -/
def Exports (graph : SymbolGraph) (name : String) (handle : Handle) : Prop :=
  (graph.findExport handle name).isSome

instance (graph : SymbolGraph) (name : String) (handle : Handle) :
    Decidable (graph.Exports name handle) :=
  inferInstanceAs (Decidable (_ = true))

theorem Leads.exists_route (h : graph.Leads start handle) :
    ∃ route, graph.Route (fun _ => True) start route handle := by
  induction h with
  | refl => exact ⟨[], .here trivial⟩
  | tail _ hneeded ih =>
    obtain ⟨route, hroute⟩ := ih
    obtain ⟨position, hposition⟩ := List.mem_iff_getElem?.mp hneeded
    exact ⟨route ++ [position], hroute.along hposition trivial⟩

/-- Of the modules with a property that a module leads to, one is at the end of a least route. -/
theorem exists_least_route {good : Handle → Prop} [DecidablePred good]
    (h : ∃ handle, graph.Leads start handle ∧ good handle) :
    ∃ length before route first after,
      graph.routes start length = before ++ (route, first) :: after ∧ good first ∧
      (∀ r ∈ before, ¬good r.2) ∧ ∀ shorter < length, ∀ r ∈ graph.routes start shorter, ¬good r.2 := by
  have hlength : ∃ length, ∃ r ∈ graph.routes start length, good r.2 := by
    obtain ⟨handle, hleads, hgood⟩ := h
    obtain ⟨route, hroute⟩ := hleads.exists_route
    exact ⟨route.length, (route, handle), mem_routes.mpr ⟨rfl, hroute⟩, hgood⟩
  obtain ⟨r, hr, hgood⟩ := Nat.find_spec hlength
  obtain ⟨⟨route, first⟩, hfound⟩ : ∃ found, (graph.routes start (Nat.find hlength)).find?
      (fun r => decide (good r.2)) = some found :=
    Option.isSome_iff_exists.mp (List.find?_isSome.mpr ⟨r, hr, decide_eq_true hgood⟩)
  obtain ⟨hfirst, before, after, hroutes, hbefore⟩ := List.find?_eq_some_iff_append.mp hfound
  refine ⟨_, before, route, first, after, hroutes, of_decide_eq_true hfirst, ?_, ?_⟩
  · exact fun s hs => by simpa using hbefore s hs
  · exact fun shorter hlt s hs hs' => Nat.find_min hlength hlt ⟨s, hs, hs'⟩

theorem discoversFirst_of_routes {good : Handle → Prop} {length : Nat}
    {before after : List (List Nat × Handle)} {route : List Nat} {first : Handle}
    (hroutes : graph.routes start length = before ++ (route, first) :: after) (hfirst : good first)
    (hbefore : ∀ r ∈ before, ¬good r.2)
    (hnear : ∀ shorter < length, ∀ r ∈ graph.routes start shorter, ¬good r.2) :
    graph.DiscoversFirst (fun _ => True) good start first := by
  have hmem : (route, first) ∈ graph.routes start length := by simp [hroutes]
  obtain ⟨hlength, hroute⟩ := mem_routes.mp hmem
  refine ⟨route, hroute, hfirst, fun route' other hroute' hother => ?_⟩
  rcases Nat.lt_trichotomy route'.length length with hlt | heq | hgt
  · exact absurd hother (hnear _ hlt (route', other) (mem_routes.mpr ⟨rfl, hroute'⟩))
  · have hmem' : (route', other) ∈ graph.routes start length := mem_routes.mpr ⟨heq, hroute'⟩
    have hordered : (graph.routes start length).Pairwise fun r s => List.Lex (· < ·) r.1 s.1 :=
      graph.pairwise_routes length
    rw [hroutes] at hmem' hordered
    rcases List.mem_append.mp hmem' with hmem' | hmem'
    · exact absurd hother (hbefore _ hmem')
    · rcases List.mem_cons.mp hmem' with hsame | hafter
      · exact Or.inl (congrArg Prod.fst hsame).symm
      · have hlt := (List.pairwise_cons.mp (List.pairwise_append.mp hordered).2.1).1 _ hafter
        exact Or.inr (List.Shortlex.of_lex (hlength.trans heq.symm) hlt)
  · exact Or.inr (List.Shortlex.of_length_lt (hlength ▸ hgt))

/-- What a walk looks for when it looks for the definition of a name. -/
def definitionAt (graph : SymbolGraph) (name : String) (handle : Handle) : Option (Handle × Symbol) :=
  (graph.findExport handle name).map (handle, ·)

theorem definitionAt_eq_none {name : String} (h : ¬graph.Exports name handle) :
    graph.definitionAt name handle = none := by
  simpa [definitionAt, Exports] using h

/-- A walk that starts at a module which leads to one that exports a name finds the one that is
discovered first, if those that it visited before do not export it. -/
theorem exists_discoversFirst {name : String} (h : graph.Settled visited [start])
    (hvisited : ∀ v ∈ visited, ¬graph.Exports name v)
    (hreach : ∃ handle, graph.Leads start handle ∧ graph.Exports name handle) :
    ∃ first definition, graph.DiscoversFirst (fun _ => True) (graph.Exports name) start first ∧
      graph.findExport first name = some definition ∧
      (graph.traverse visited [start]).findSome? (graph.definitionAt name) =
        some (first, definition) := by
  obtain ⟨length, before, route, first, after, hroutes, hfirst, hbefore, hnear⟩ :=
    exists_least_route hreach
  obtain ⟨definition, hdefinition⟩ := Option.isSome_iff_exists.mp hfirst
  have hends : graph.ends start length = before.map Prod.snd ++ first :: after.map Prod.snd := by
    rw [ends, hroutes, List.map_append, List.map_cons]
  have hnone : ∀ {routes : List (List Nat × Handle)}, (∀ r ∈ routes, ¬graph.Exports name r.2) →
      ∀ v ∈ routes.map Prod.snd, graph.definitionAt name v = none := by
    intro routes hroutes v hv
    obtain ⟨r, hr, rfl⟩ := List.mem_map.mp hv
    exact definitionAt_eq_none (hroutes r hr)
  have hunknown : ∀ v, graph.find? v = none → graph.definitionAt name v = none := by
    intro v hv
    simp [definitionAt, findExport, hv]
  refine ⟨first, definition, discoversFirst_of_routes hroutes hfirst hbefore hnear, hdefinition, ?_⟩
  exact h.findSome?_traverse (fun v hv => definitionAt_eq_none (hvisited v hv)) hunknown
    (fun shorter hlt => hnone (hnear shorter hlt)) hends (hnone hbefore)
    (by rw [definitionAt, hdefinition, Option.map_some])

theorem Route.mono {scope scope' : Handle → Prop} {route : List Nat}
    (h : graph.Route scope start route handle) (hscope : ∀ handle, scope handle → scope' handle) :
    graph.Route scope' start route handle := by
  induction h with
  | here hstart => exact .here (hscope _ hstart)
  | along _ hneeded hend ih => exact .along ih hneeded (hscope _ hend)

/-- A search for modules that only modules in a scope lead to may be confined to the scope. -/
theorem DiscoversFirst.confine {scope good : Handle → Prop} {first : Handle}
    (h : graph.DiscoversFirst (fun _ => True) good start first)
    (hscope : ∀ {first last}, graph.Leads first last → scope last → scope first)
    (hgood : ∀ handle, good handle → scope handle) : graph.DiscoversFirst scope good start first := by
  obtain ⟨route, hroute, hfirst, hleast⟩ := h
  refine ⟨route, hroute.confine hscope (hgood first hfirst), hfirst, fun route' other hroute' => ?_⟩
  exact hleast route' other (hroute'.mono fun _ _ => trivial)

variable {app : Option Handle} {requester : Handle} {name : String}

/-- What a breadth-first search answers is exported, and the application or the requester leads to it. -/
theorem leads_of_globalLookup {first : Handle} {definition : Symbol}
    (h : graph.globalLookup .breadthFirst requester app name = some (first, definition)) :
    graph.findExport first name = some definition ∧
      (graph.Leads requester first ∨ ∃ start ∈ app, graph.Leads start first) := by
  obtain ⟨found, hmem, hexport⟩ := List.exists_of_findSome?_eq_some h
  obtain ⟨_, hdefinition, heq⟩ := Option.map_eq_some_iff.mp hexport
  obtain ⟨rfl, rfl⟩ := Prod.mk.inj heq
  exact ⟨hdefinition, (leads_of_mem_searchOrder hmem).imp_right And.right⟩

/-- The application answers first, and its answer does not depend on the requester. -/
theorem globalLookup_of_app (happ : start ∈ app)
    (hreach : ∃ handle, graph.Leads start handle ∧ graph.Exports name handle) :
    ∃ first definition, graph.DiscoversFirst (fun _ => True) (graph.Exports name) start first ∧
      graph.findExport first name = some definition ∧
      ∀ requester, graph.globalLookup .breadthFirst requester app name = some (first, definition) := by
  obtain rfl := Option.mem_def.mp happ
  obtain ⟨first, definition, hdiscovers, hdefinition, hfound⟩ :=
    exists_discoversFirst (Settled.nil [start]) (by rintro _ ⟨⟩) hreach
  refine ⟨first, definition, hdiscovers, hdefinition, fun requester => ?_⟩
  obtain ⟨rest, hrest⟩ := graph.prefix_traverse (graph.traverse [] [start]) [requester]
  rw [globalLookup, searchOrder, Option.toList_some, ← hrest, List.findSome?_append]
  exact Option.or_eq_some_iff.mpr (Or.inl hfound)

/-- A requester gets an answer of its own if the application leads to no module that has one. -/
theorem globalLookup_of_requester
    (happ : ∀ handle, graph.Exports name handle → ∀ start ∈ app, ¬graph.Leads start handle)
    (hreach : ∃ handle, graph.Leads requester handle ∧ graph.Exports name handle) :
    ∃ first definition, graph.DiscoversFirst (fun handle => ∀ start ∈ app, ¬graph.Leads start handle)
        (graph.Exports name) requester first ∧ graph.findExport first name = some definition ∧
      graph.globalLookup .breadthFirst requester app name = some (first, definition) := by
  have hvisited : ∀ v ∈ graph.traverse [] app.toList, ¬graph.Exports name v := by
    intro v hv hexports
    rcases leads_of_mem_walk hv with hnone | ⟨start, hstart, hleads⟩
    · cases hnone
    · exact happ v hexports start (Option.mem_toList.mp hstart) hleads
  have hsettled : graph.Settled (graph.traverse [] app.toList) [requester] :=
    (Settled.nil app.toList).traverse.append [requester]
  obtain ⟨first, definition, hdiscovers, hdefinition, hfound⟩ :=
    exists_discoversFirst hsettled hvisited hreach
  refine ⟨first, definition, hdiscovers.confine ?_ happ, hdefinition, hfound⟩
  exact fun hleads hlast start hstart hfirst => hlast start hstart (hfirst.trans hleads)

theorem isSome_globalLookup_iff :
    (graph.globalLookup .breadthFirst requester app name).isSome ↔
      ∃ handle, graph.Exports name handle ∧
        (graph.Leads requester handle ∨ ∃ start ∈ app, graph.Leads start handle) := by
  constructor
  · intro h
    obtain ⟨⟨first, definition⟩, hfound⟩ := Option.isSome_iff_exists.mp h
    obtain ⟨hdefinition, hleads⟩ := leads_of_globalLookup hfound
    exact ⟨first, by rw [Exports, hdefinition]; rfl, hleads⟩
  · rintro ⟨handle, hexports, hleads⟩
    by_cases happ : ∃ start ∈ app, ∃ other, graph.Leads start other ∧ graph.Exports name other
    · obtain ⟨start, hstart, hreach⟩ := happ
      obtain ⟨first, definition, -, -, hfound⟩ := globalLookup_of_app hstart hreach
      exact Option.isSome_iff_exists.mpr ⟨_, hfound requester⟩
    · have hapart : ∀ other, graph.Exports name other → ∀ start ∈ app, ¬graph.Leads start other :=
        fun other hother start hstart h => happ ⟨start, hstart, other, h, hother⟩
      have hrequester : graph.Leads requester handle := hleads.resolve_right fun ⟨start, hstart, h⟩ =>
        hapart handle hexports start hstart h
      obtain ⟨first, definition, -, -, hfound⟩ :=
        globalLookup_of_requester hapart ⟨handle, hrequester, hexports⟩
      exact Option.isSome_iff_exists.mpr ⟨_, hfound⟩

theorem globalLookup_eq_some_iff
    (happ : ∀ handle, graph.Exports name handle → ∀ start ∈ app, ¬graph.Leads start handle)
    {first : Handle} {definition : Symbol} :
    graph.globalLookup .breadthFirst requester app name = some (first, definition) ↔
      graph.DiscoversFirst (fun handle => ∀ start ∈ app, ¬graph.Leads start handle)
        (graph.Exports name) requester first ∧ graph.findExport first name = some definition := by
  constructor
  · intro hfound
    obtain ⟨hdefinition, hleads⟩ := leads_of_globalLookup hfound
    have hexports : graph.Exports name first := by
      rw [Exports, hdefinition]
      rfl
    have hrequester : graph.Leads requester first := hleads.resolve_right fun ⟨start, hstart, h⟩ =>
      happ first hexports start hstart h
    obtain ⟨first', definition', hdiscovers, hdefinition', hfound'⟩ :=
      globalLookup_of_requester happ ⟨first, hrequester, hexports⟩
    obtain ⟨rfl, rfl⟩ := Prod.mk.inj (Option.some.inj (hfound'.symm.trans hfound))
    exact ⟨hdiscovers, hdefinition'⟩
  · rintro ⟨hdiscovers, hdefinition⟩
    obtain ⟨route, hroute, hexports, -⟩ := id hdiscovers
    obtain ⟨first', definition', hdiscovers', hdefinition', hfound⟩ :=
      globalLookup_of_requester happ ⟨first, hroute.leads, hexports⟩
    obtain rfl := hdiscovers.unique hdiscovers'
    rw [hfound, Option.some.inj (hdefinition'.symm.trans hdefinition)]

/-- A breadth-first search ends on every graph, since no walk visits more modules than the graph has.
It finds a name exactly if a module that the application or the requester leads to exports it.  If the
application leads to such a module, the answer is the first one that is discovered from the
application, whoever asks; otherwise it is the first one that is discovered from the requester among
the modules that the application does not lead to. -/
theorem breadthFirst_discovers (graph : SymbolGraph) (app : Option Handle) (requester : Handle)
    (name : String) :
    let lookup := fun requester => graph.globalLookup .breadthFirst requester app name
    let apart := fun handle => ∀ start ∈ app, ¬graph.Leads start handle
    (∀ budget visited queue, graph.nodes.length < budget →
      graph.walk budget visited queue = graph.traverse visited queue) ∧
    ((lookup requester).isSome ↔ ∃ handle, graph.Exports name handle ∧
      (graph.Leads requester handle ∨ ∃ start ∈ app, graph.Leads start handle)) ∧
    (∀ start ∈ app, (∃ handle, graph.Leads start handle ∧ graph.Exports name handle) →
      ∃ first definition, graph.DiscoversFirst (fun _ => True) (graph.Exports name) start first ∧
        graph.findExport first name = some definition ∧
        ∀ requester, lookup requester = some (first, definition)) ∧
    ((∀ handle, graph.Exports name handle → apart handle) → ∀ first definition,
      lookup requester = some (first, definition) ↔
        graph.DiscoversFirst apart (graph.Exports name) requester first ∧
          graph.findExport first name = some definition) := by
  intro lookup apart
  refine ⟨fun budget visited queue hbudget => ?_, isSome_globalLookup_iff, fun start hstart hreach => ?_,
    fun happ first definition => ?_⟩
  · have hle := graph.length_unvisited_le visited
    exact walk_eq_walk (by omega) (by omega)
  · exact globalLookup_of_app hstart hreach
  · exact globalLookup_eq_some_iff happ

/-- Modules 1 and 2 need each other. Module 4 is further from the application 1 than module 3, also when
it asks itself. -/
example :
    let definition : Symbol := ⟨"f", 0x20, 0, 0x12, 0, 1⟩
    let offer := fun name => if name = "f" then some definition else none
    let graph : SymbolGraph := ⟨[⟨1, [2, 3], fun _ => none⟩, ⟨2, [1, 4], fun _ => none⟩, ⟨3, [], offer⟩,
      ⟨4, [], offer⟩]⟩
    graph.globalLookup .breadthFirst 4 (some 1) "f" = some (3, definition) := by
  decide +kernel

end SymbolGraph

end TargetLink
