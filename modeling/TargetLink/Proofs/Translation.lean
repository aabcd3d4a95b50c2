import TargetLink.Proofs.Placement

/-!
# Translating addresses

When a module is placed, every address that its file was linked at is translated: it moves with the first
segment that contains it (`Segment.translate`).  Three mechanisms do so.

* A symbol is offered to one segment after the other and is marked as absolute once it has moved
  (`Symbol.foldl_moveWith`).
* The entry point keeps a mark beside it (`Draft.address_foldl_move`).
* For a dynamic entry the segment is looked up (`Draft.moveEntry_eq`).

The first two change what they look at on the way, and the marks are why they agree with the search: what
has moved into the range of a later segment stays.  The segments may overlap, wrap around, and come in any
order.
-/

namespace TargetLink

open LoadM (Triple bind_apply)

/-! ## The first segment of an address -/

namespace Segment

/-- The final address of a link-time address. -/
def translate (segments : List Segment) (address : UInt32) : UInt32 :=
  match segments.find? (·.containsLink address) with
  | some segment => address + segment.delta
  | none => address

theorem add_shiftOf (segments : List Segment) (address : UInt32) :
    address + shiftOf segments address = translate segments address := by
  unfold shiftOf translate
  cases segments.find? (·.containsLink address) with
  | none => exact UInt32.add_zero address
  | some segment => rfl

theorem translate_cons (segment : Segment) (segments : List Segment) (address : UInt32) :
    translate (segment :: segments) address =
      if segment.containsLink address then address + segment.delta
      else translate segments address := by
  rw [translate, List.find?_cons]
  cases segment.containsLink address <;> rfl

end Segment

/-! ## Symbols -/

namespace Symbol

/-- Whether the value of a symbol is a link-time address. -/
def isMovable (symbol : Symbol) : Bool := symbol.isDefined && !symbol.isAbsolute

/-- A symbol after its module was placed. Only definitions move, and only with a segment that contains
them. -/
def translate (segments : List Segment) (symbol : Symbol) : Symbol :=
  if symbol.isMovable then
    match segments.find? (·.containsLink symbol.value) with
    | some segment =>
      { symbol with value := symbol.value + segment.delta, sectionIndex := absoluteSection }
    | none => symbol
  else symbol

/-- A symbol that comes past a segment. -/
def moveWith (symbol : Symbol) (segment : Segment) : Symbol :=
  symbol.move segment.linkAddress segment.memorySize segment.delta

theorem moveWith_eq (symbol : Symbol) (segment : Segment) :
    symbol.moveWith segment =
      if symbol.isMovable && segment.containsLink symbol.value then
        { symbol with value := symbol.value + segment.delta, sectionIndex := absoluteSection }
      else symbol := rfl

/-- What holds a final address is moved by no segment. -/
theorem foldl_moveWith_of_isAbsolute {symbol : Symbol} (h : symbol.isAbsolute = true)
    (segments : List Segment) : segments.foldl moveWith symbol = symbol := by
  induction segments with
  | nil => rfl
  | cons segment segments ih =>
    rw [List.foldl_cons, moveWith, move_of_isAbsolute h]
    exact ih

/-- A symbol that comes past all segments moves with the first one that contains it. -/
theorem foldl_moveWith (segments : List Segment) (symbol : Symbol) :
    segments.foldl moveWith symbol = symbol.translate segments := by
  induction segments with
  | nil => exact (ite_self symbol).symm
  | cons segment segments ih =>
    rw [List.foldl_cons, moveWith_eq]
    split
    case isTrue hmoves =>
      -- It is absolute from here on, whatever its new value means to the other segments.
      obtain ⟨hmovable, hcontains⟩ := Bool.and_eq_true_iff.mp hmoves
      rw [foldl_moveWith_of_isAbsolute rfl, translate, if_pos hmovable, List.find?_cons, hcontains]
    case isFalse hstays =>
      rw [ih, translate, translate]
      by_cases hmovable : symbol.isMovable
      · have houtside : segment.containsLink symbol.value = false := by
          simpa only [hmovable, Bool.true_and, Bool.not_eq_true] using hstays
        rw [if_pos hmovable, if_pos hmovable, List.find?_cons, houtside]
      · rw [if_neg hmovable, if_neg hmovable]

/-- A symbol that has moved holds a final address. -/
theorem isAbsolute_translate {segments : List Segment} {symbol : Symbol} (hmovable : symbol.isMovable)
    (hinside : ∃ segment ∈ segments, segment.containsLink symbol.value) :
    (symbol.translate segments).isAbsolute = true := by
  obtain ⟨segment, hfind⟩ := Option.isSome_iff_exists.mp (List.find?_isSome.mpr hinside)
  rw [translate, if_pos hmovable, hfind]
  rfl

end Symbol

namespace Draft

theorem moveAll_eq_map (segments : List Segment) (symbols : List Symbol) :
    moveAll segments symbols = symbols.map (Symbol.translate segments) := by
  have hfold : moveAll segments symbols = symbols.map (segments.foldl Symbol.moveWith) := by
    induction segments generalizing symbols with
    | nil => exact (List.map_id' symbols).symm
    | cons segment segments ih =>
      exact (ih _).trans (List.map_map ..)
  rw [hfold]
  exact List.map_congr_left fun symbol _ => symbol.foldl_moveWith segments

/-! ## The entry point -/

theorem foldl_move_of_hasMoved {entry : EntryPoint} (h : entry.hasMoved = true)
    (segments : List Segment) : segments.foldl EntryPoint.move entry = entry := by
  induction segments with
  | nil => rfl
  | cons segment segments ih =>
    rw [List.foldl_cons, EntryPoint.move, h]
    exact ih

/-- An entry point that comes past all segments moves with the first one that contains it. -/
theorem address_foldl_move (segments : List Segment) (address : UInt32) :
    (segments.foldl EntryPoint.move ⟨address, false⟩).address =
      Segment.translate segments address := by
  induction segments with
  | nil => rfl
  | cons segment segments ih =>
    rw [List.foldl_cons, EntryPoint.move, Segment.translate_cons, Bool.not_false, Bool.true_and]
    split
    case isTrue => rw [foldl_move_of_hasMoved rfl]
    case isFalse => exact ih

end Draft

/-! ## Dynamic entries -/

/-- A dynamic entry after its module was placed. Only addresses move, and null is none. -/
def DynamicEntry.translate (machine : Machine) (segments : List Segment) (entry : DynamicEntry) :
    DynamicEntry :=
  if DynamicTag.isAddress machine entry.tag && entry.value != 0 then
    { entry with value := Segment.translate segments entry.value }
  else entry

theorem Draft.moveEntry_eq (machine : Machine) (segments : List Segment) (entry : DynamicEntry) :
    moveEntry machine segments entry = entry.translate machine segments := by
  rw [moveEntry, Segment.add_shiftOf]
  rfl

/-! ## Placed modules -/

namespace Draft

theorem staged_ofPlaced (handle : Handle) (name : String) (file : ObjectFile) (segments : List Segment)
    (staged : List Bytes) : (ofPlaced handle name file segments staged).staged = staged := by
  unfold ofPlaced
  split <;> rfl

theorem symbols_ofPlaced {file : ObjectFile} (hrelocatable : file.isRelocatable = true) (handle : Handle)
    (name : String) (segments : List Segment) (staged : List Bytes) :
    (ofPlaced handle name file segments staged).symbols =
      file.symbols.map (Symbol.translate segments) := by
  rw [ofPlaced, if_pos hrelocatable]
  exact moveAll_eq_map segments file.symbols

theorem dynamic_ofPlaced {file : ObjectFile} (hrelocatable : file.isRelocatable = true) (handle : Handle)
    (name : String) (segments : List Segment) (staged : List Bytes) :
    (ofPlaced handle name file segments staged).dynamic =
      file.dynamic.map (DynamicEntry.translate file.machine segments) := by
  rw [ofPlaced, if_pos hrelocatable]
  exact List.map_congr_left fun entry _ => moveEntry_eq file.machine segments entry

theorem placedEntry_eq {file : ObjectFile} (hrelocatable : file.isRelocatable = true)
    (segments : List Segment) :
    placedEntry file segments = Segment.translate segments file.header.entry := by
  rw [placedEntry, if_pos hrelocatable, address_foldl_move]

/-- Moving a table again changes nothing that has moved. -/
theorem moveAll_again {segments : List Segment} {symbols : List Symbol} {i : Nat} {symbol : Symbol}
    (hsymbol : symbols[i]? = some symbol) (hmovable : symbol.isMovable)
    (hinside : ∃ segment ∈ segments, segment.containsLink symbol.value) (again : List Segment) :
    (moveAll again (symbols.map (Symbol.translate segments)))[i]? =
      (symbols.map (Symbol.translate segments))[i]? := by
  have hfinal := Symbol.isAbsolute_translate hmovable hinside
  have hstays := Symbol.foldl_moveWith_of_isAbsolute hfinal again
  rw [Symbol.foldl_moveWith] at hstays
  rw [moveAll_eq_map, List.getElem?_map, List.getElem?_map, hsymbol, Option.map_some,
    Option.map_some, hstays]

end Draft

namespace Loading

variable {σ : Type}

/-- Drafting a module answers with its draft, and describes its resident side even when its claim is
turned down. -/
theorem draftModule_describes {handle : Handle} {m : Module} (name : String) (file : ObjectFile)
    (staged : List Bytes) :
    let draft := Draft.ofPlaced handle name file m.segments staged
    let described (s : Loading σ) := Module.find? s.loader.modules handle = some (describe draft m)
    Triple (fun s => Module.find? s.loader.modules handle = some m)
      (draftModule handle name file staged) (fun found s => found = draft ∧ described s) described := by
  intro draft described
  unfold draftModule
  refine Triple.bind (R := fun found s => found = m ∧ Module.find? s.loader.modules handle = some m) ?_
    fun found => ?_
  · intro s hm
    simp only [resident, bind_apply, LoadM.get_apply, hm, LoadM.pure_apply, true_and]
  rintro s ⟨rfl, hm⟩
  refine Triple.bind (P := fun s => Module.find? s.loader.modules handle = some found)
    (R := fun _ => described) (Triple.modify fun s hm => ?_) (fun _ => ?_) s hm
  · have hhandle : ∀ m : Module, (describe draft m).handle = m.handle := fun _ => rfl
    exact (Loader.find?_updateModule hhandle).trans (congrArg (Option.map (describe draft)) hm)
  · cases hclaim : draft.claim? with
    | none => exact Triple.pure fun s hs => ⟨rfl, hs⟩
    | some claim =>
      refine Triple.get_bind fun s hs => ?_
      refine Triple.bind (R := fun _ t => t = s) (Triple.ofExcept (fun _ _ _ ht => ht) fun t ht => ?_)
        fun dsbt => ?_
      · exact ht ▸ hs
      · rintro _ rfl
        exact ⟨rfl, hs⟩

/-- A relocatable module after it was placed: its symbols, its entry point and its dynamic table are
translated by the same segments, and what has moved is not moved again. -/
theorem draftModule_translates (handle : Handle) (m : Module) (name : String) (file : ObjectFile)
    (staged : List Bytes) (hrelocatable : file.isRelocatable = true) :
    let symbols := file.symbols.map (Symbol.translate m.segments)
    let placed (s : Loading σ) := ∃ described, Module.find? s.loader.modules handle = some described ∧
      described.segments = m.segments ∧
      described.entry = Segment.translate m.segments file.header.entry ∧
      described.symbols = Module.globalSymbols (symbols.drop file.firstGlobal)
    Triple (fun s => Module.find? s.loader.modules handle = some m)
      (draftModule handle name file staged)
      (fun draft s => placed s ∧ draft.symbols = symbols ∧
        draft.dynamic = file.dynamic.map (DynamicEntry.translate file.machine m.segments) ∧
        ∀ (again : List Segment) (i : Nat) (symbol : Symbol), file.symbols[i]? = some symbol →
          symbol.isMovable → (∃ segment ∈ m.segments, segment.containsLink symbol.value) →
            (Draft.moveAll again draft.symbols)[i]? = draft.symbols[i]?)
      placed := by
  intro symbols placed
  have hsymbols := Draft.symbols_ofPlaced hrelocatable handle name m.segments staged
  have hfile := Draft.file_ofPlaced handle name file m.segments staged
  have hplaced (s : Loading σ) (hs : Module.find? s.loader.modules handle =
      some (describe (Draft.ofPlaced handle name file m.segments staged) m)) : placed s := by
    refine ⟨_, hs, rfl, ?_, ?_⟩
    · exact (congrArg (Draft.placedEntry · m.segments) hfile).trans
        (Draft.placedEntry_eq hrelocatable m.segments)
    · rw [describe, hsymbols, hfile]
      rfl
  refine (draftModule_describes name file staged).weaken ?_ hplaced
  rintro draft s ⟨rfl, hs⟩
  refine ⟨hplaced s hs, hsymbols, Draft.dynamic_ofPlaced hrelocatable handle name m.segments staged,
    fun again i symbol hsymbol hmovable hinside => ?_⟩
  rw [hsymbols]
  exact Draft.moveAll_again hsymbol hmovable hinside again

/-- Two segments of which the second one was linked where the first one is placed. -/
def chained : Module where
  name := "chained"
  handle := 1
  machine := .arm
  order := .little
  isExecutable := false
  policy := .direct
  segments := [⟨0x1000, 0x1000, 0, 6, ⟨0x5000, 0x1000, 0⟩⟩, ⟨0x5000, 0x1000, 0, 6, ⟨0x9000, 0x1000, 1⟩⟩]

/-- A file whose entry point and symbol were linked into the first segment. -/
def chainedFile : ObjectFile where
  header := { (default : FileHeader) with entry := 0x1100 }
  order := .little
  machine := .arm
  programHeaders := []
  dynamicAddress := some 0x1000
  dynamic := [⟨DynamicTag.init, 0x1004⟩, ⟨DynamicTag.init, 0⟩, ⟨DynamicTag.relSize, 0x1004⟩]
  symbols := [⟨"function", 0x1ffc, 0, 0x12, 0, 1⟩, ⟨"absent", 0x1000, 0, 0x12, 0, 0⟩]

/-- What moved into the second segment has not moved with it. -/
theorem draftModule_translates_chained :
    ∃ draft after described,
      draftModule 1 "chained" chainedFile [] (⟨{ client := (), modules := [chained] }, {}⟩ : Loading Unit) =
        (.ok draft, after) ∧
      draft.symbols = [⟨"function", 0x5ffc, 0, 0x12, 0, 0xfff1⟩, ⟨"absent", 0x1000, 0, 0x12, 0, 0⟩] ∧
      draft.dynamic = [⟨DynamicTag.init, 0x5004⟩, ⟨DynamicTag.init, 0⟩, ⟨DynamicTag.relSize, 0x1004⟩] ∧
      Module.find? after.loader.modules 1 = some described ∧ described.entry = 0x5100 ∧
      (Draft.moveAll chained.segments draft.symbols)[0]? = draft.symbols[0]? := by
  have hplaced := draftModule_translates 1 chained "chained" chainedFile [] rfl
    (⟨{ client := (), modules := [chained] }, {}⟩ : Loading Unit) rfl
  rcases hrun : draftModule 1 "chained" chainedFile []
    (⟨{ client := (), modules := [chained] }, {}⟩ : Loading Unit) with ⟨e | draft, after⟩
  · cases hrun
  · rw [hrun] at hplaced
    obtain ⟨⟨described, hfind, -, hentry, -⟩, hsymbols, hdynamic, hagain⟩ := hplaced
    exact ⟨draft, after, described, rfl, hsymbols.trans (by decide), hdynamic.trans (by decide), hfind,
      hentry.trans (by decide),
      hagain chained.segments 0 _ rfl (by decide) ⟨_, List.mem_cons_self, by decide⟩⟩

end Loading

end TargetLink
