import TargetLink.Module.Draft

/-!
# The index of exported names

A module keeps the global symbols of its table and an index that leads from a name to a position among
them.  A symbol joins the index unless it has no definition or its name is taken (`indexSymbol`), so the
entries are the first definitions and no others (`mem_exportIndex`), and looking a name up gives what a
search through the symbols would find (`findExport_withSymbols`).
-/

namespace TargetLink

namespace Module

variable {index : List (String × Nat)} {name : String} {position : Nat}

/-! ## Looking names up -/

/-- A symbol joins the index unless it has no definition or its name is taken. -/
theorem lookup_indexSymbol (index : List (String × Nat)) (symbol : Symbol) (position : Nat)
    (name : String) : (indexSymbol index (symbol, position)).lookup name =
      (index.lookup name).or
        (if symbol.name == name && symbol.isDefined then some position else none) := by
  rw [indexSymbol]
  by_cases hname : symbol.name = name
  · subst hname
    cases symbol.isDefined <;> cases htaken : index.lookup symbol.name <;>
      simp [htaken, List.lookup_append]
  · have hother : (name == symbol.name) = false := by simpa using Ne.symm hname
    split <;> simp [List.lookup_append, List.lookup_cons, hname, hother]

/-- The index of a symbol table leads to the first definition of a name. -/
theorem lookup_foldl_indexSymbol (symbols : List Symbol) (start : Nat) (index : List (String × Nat))
    (name : String) : ((symbols.zipIdx start).foldl indexSymbol index).lookup name =
      (index.lookup name).or ((symbols.findIdx? fun symbol => symbol.name == name && symbol.isDefined).map
        (· + start)) := by
  induction symbols generalizing start index with
  | nil => simp
  | cons symbol symbols ih =>
    rw [List.zipIdx_cons, List.foldl_cons, ih, lookup_indexSymbol, Option.or_assoc, List.findIdx?_cons]
    congr 1
    split
    · simp
    · simp [Nat.add_comm, Nat.add_left_comm, Function.comp_def]

/-- A module offers the first definition of a name among its global symbols. -/
theorem findExport_withSymbols (m : Module) (table : List Symbol) (name : String) :
    (m.withSymbols table).findExport name = Draft.definitionIn? (globalSymbols table) name := by
  have hindex := lookup_foldl_indexSymbol (globalSymbols table) 0 [] name
  rw [Draft.definitionIn?, List.find?_eq_bind_findIdx?_getElem?]
  rw [findExport, withSymbols, exportIndex, hindex]
  simp

/-! ## The entries -/

/-- The entries after a symbol came are the old ones and, if it joined, its own. -/
theorem mem_indexSymbol {symbol : Symbol} {start : Nat} :
    (name, position) ∈ indexSymbol index (symbol, start) ↔ (name, position) ∈ index ∨
      index.lookup name = none ∧ (symbol.name == name && symbol.isDefined) ∧ position = start := by
  simp only [indexSymbol, Bool.and_eq_true, Option.isNone_iff_eq_none, beq_iff_eq]
  by_cases hjoins : symbol.isDefined = true ∧ index.lookup symbol.name = none
  · rw [if_pos hjoins, List.mem_append, List.mem_singleton, Prod.mk.injEq]
    constructor
    · rintro (hold | ⟨rfl, rfl⟩)
      · exact .inl hold
      · exact .inr ⟨hjoins.2, ⟨rfl, hjoins.1⟩, rfl⟩
    · rintro (hold | ⟨-, ⟨rfl, -⟩, rfl⟩)
      · exact .inl hold
      · exact .inr ⟨rfl, rfl⟩
  · rw [if_neg hjoins]
    refine (or_iff_left ?_).symm
    rintro ⟨hfree, ⟨rfl, hdefined⟩, -⟩
    exact hjoins ⟨hdefined, hfree⟩

/-- The entries of the index of a symbol table are the first definitions of names that were free. -/
theorem mem_foldl_indexSymbol {symbols : List Symbol} {start : Nat} :
    (name, position) ∈ (symbols.zipIdx start).foldl indexSymbol index ↔ (name, position) ∈ index ∨
      index.lookup name = none ∧
        (symbols.findIdx? fun symbol => symbol.name == name && symbol.isDefined).map (· + start) =
          some position := by
  induction symbols generalizing start index with
  | nil => simp
  | cons symbol symbols ih =>
    rw [List.zipIdx_cons, List.foldl_cons, ih, mem_indexSymbol, lookup_indexSymbol, List.findIdx?_cons]
    cases hnames : symbol.name == name && symbol.isDefined with
    | true => simp [eq_comm (a := position)]
    | false =>
      have hnext : (· + start) ∘ (· + 1) = (· + (start + 1)) :=
        funext fun i => Nat.succ_add_eq_add_succ i start
      simp [hnext]

/-- A position is stored under a name exactly if the first definition of the name stands there. -/
theorem mem_exportIndex {symbols : List Symbol} :
    (name, position) ∈ exportIndex symbols ↔ ∃ symbol, symbols[position]? = some symbol ∧
      symbol.name = name ∧ symbol.isDefined ∧
      ∀ earlier < position, ∀ other, symbols[earlier]? = some other →
        other.name = name → other.isDefined = false := by
  rw [exportIndex, mem_foldl_indexSymbol]
  simp only [List.not_mem_nil, List.lookup_nil, Nat.add_zero, Option.map_id', false_or, true_and,
    List.findIdx?_eq_some_iff_getElem, List.getElem?_eq_some_iff, Bool.and_eq_true, beq_iff_eq]
  constructor
  · rintro ⟨hinside, ⟨hname, hdefined⟩, hfirst⟩
    refine ⟨_, ⟨hinside, rfl⟩, hname, hdefined, ?_⟩
    rintro earlier hearlier _ ⟨_, rfl⟩ hother
    exact Bool.eq_false_iff.mpr fun hdefined => hfirst earlier hearlier ⟨hother, hdefined⟩
  · rintro ⟨_, ⟨hinside, rfl⟩, hname, hdefined, hfirst⟩
    refine ⟨hinside, ⟨hname, hdefined⟩, fun earlier hearlier ⟨hother, htaken⟩ => ?_⟩
    rw [hfirst earlier hearlier _ ⟨_, rfl⟩ hother] at htaken
    cases htaken

/-! ## Taking a symbol table over -/

/-- A module that takes a symbol table over keeps the symbols of it that are not local and have a name, in
their order, and forgets the symbols and the index that it had.  Looking a name up is a search for the first
of the kept symbols that defines it: the index holds the places of the first definitions and no other entry,
so every place is inside the list. -/
theorem withSymbols_indexed (m : Module) (table : List Symbol) :
    let kept := m.withSymbols table
    kept.symbols =
      table.filter (fun symbol => symbol.bind ≠ SymbolInfo.localBind ∧ symbol.name ≠ "") ∧
    (∀ name, kept.findExport name =
      kept.symbols.find? fun symbol => symbol.name == name && symbol.isDefined) ∧
    (∀ name position, (name, position) ∈ kept.exports ↔
      ∃ symbol, kept.symbols[position]? = some symbol ∧ symbol.name = name ∧ symbol.isDefined ∧
        ∀ earlier < position, ∀ other, kept.symbols[earlier]? = some other →
          other.name = name → other.isDefined = false) ∧
    (∀ entry ∈ kept.exports, entry.2 < kept.symbols.length) ∧
    ∀ earlier, (m.withSymbols earlier).withSymbols table = kept := by
  intro kept
  refine ⟨?_, findExport_withSymbols m table, fun name position => mem_exportIndex, ?_, fun _ => rfl⟩
  · refine List.filter_congr fun symbol _ => ?_
    rw [Bool.eq_iff_iff]
    simp [Symbol.isLocal]
  · rintro ⟨name, position⟩ hentry
    obtain ⟨symbol, hsymbol, -⟩ := mem_exportIndex.mp hentry
    exact (List.getElem?_eq_some_iff.mp hsymbol).1

end Module

end TargetLink
