import TargetLink.Loader.Load

/-!
# The errors of what asks no client

`FailsWith F answer` says which errors an answer may be.  Reading a file fails with a fault of its
format only (`ObjectFile.failsWith_read`).  A relocation fails because of its symbol, its field or its
value; an internal error comes from one place only: an addend that a C6000 module leaves to its cell
(`Draft.failsWith_relocate`).  Nothing asks a member of an instruction group for its plain field.
-/

namespace TargetLink

variable {α β : Type} {F G : LoadError → Prop}

/-- Every error of the answer has `F`. -/
def FailsWith (F : LoadError → Prop) (answer : Except LoadError α) : Prop :=
  ∀ e, answer = .error e → F e

namespace FailsWith

theorem ok {a : α} : FailsWith F (.ok a) := fun _ h => nomatch h

theorem error {e : LoadError} (h : F e) : FailsWith F (.error e : Except LoadError α) := by
  rintro _ ⟨⟩
  exact h

protected theorem pure {a : α} : FailsWith F (pure a) := ok

protected theorem throw {e : LoadError} (h : F e) : FailsWith F (throw e : Except LoadError α) :=
  error h

theorem mono {answer : Except LoadError α} (h : FailsWith F answer) (hF : ∀ e, F e → G e) :
    FailsWith G answer :=
  fun e heq => hF e (h e heq)

protected theorem bind {answer : Except LoadError α} {next : α → Except LoadError β}
    (h : FailsWith F answer) (hnext : ∀ a, answer = .ok a → FailsWith F (next a)) :
    FailsWith F (answer >>= next) := by
  cases answer with
  | ok a => exact hnext a rfl
  | error e => exact error (h e rfl)

/-- A guard in front of a step throws or lets the step pass. -/
theorem throw_if {c : Prop} [Decidable c] {e : LoadError} {next : PUnit → Except LoadError α}
    (he : F e) (hnext : FailsWith F (next ())) :
    FailsWith F (if c then throw e >>= next else next ()) := by
  split
  · exact error he
  · exact hnext

theorem forM {xs : List β} {body : β → Except LoadError PUnit}
    (h : ∀ x ∈ xs, FailsWith F (body x)) : FailsWith F (xs.forM body) := by
  induction xs with
  | nil => exact FailsWith.pure
  | cons x xs ih =>
    obtain ⟨hfirst, hrest⟩ := List.forall_mem_cons.mp h
    exact hfirst.bind fun _ _ => ih hrest

theorem mapM {xs : List β} {body : β → Except LoadError α}
    (h : ∀ x ∈ xs, FailsWith F (body x)) : FailsWith F (xs.mapM body) := by
  induction xs with
  | nil => exact FailsWith.pure
  | cons x xs ih =>
    obtain ⟨hfirst, hrest⟩ := List.forall_mem_cons.mp h
    rw [List.mapM_cons]
    exact hfirst.bind fun _ _ => (ih hrest).bind fun _ _ => FailsWith.pure

theorem foldlM {xs : List β} {step : α → β → Except LoadError α} {a : α}
    (h : ∀ a, ∀ x ∈ xs, FailsWith F (step a x)) : FailsWith F (xs.foldlM step a) := by
  induction xs generalizing a with
  | nil => exact FailsWith.pure
  | cons x xs ih =>
    rw [List.foldlM_cons]
    exact (h a x List.mem_cons_self).bind fun b _ =>
      ih fun a y hy => h a y (List.mem_cons_of_mem x hy)

end FailsWith

/-! ## Reading a file -/

/-- The file is malformed. -/
def LoadError.IsFormat (e : LoadError) : Prop := ∃ fault, e = .invalidElf fault

theorem LoadError.isFormat (fault : FormatFault) : IsFormat (.invalidElf fault) := ⟨fault, rfl⟩

open LoadError (IsFormat isFormat)

namespace Image

theorem failsWith_read (image : Image) (offset length : Nat) :
    FailsWith IsFormat (image.read offset length) := by
  unfold read
  split
  · exact FailsWith.ok
  · exact FailsWith.error (isFormat _)

theorem failsWith_identify (bytes : Bytes) : FailsWith IsFormat (identify bytes) := by
  unfold identify
  repeat' apply FailsWith.throw_if (isFormat _)
  split
  · exact FailsWith.pure
  · split
    · exact FailsWith.pure
    · exact FailsWith.throw (isFormat _)

theorem failsWith_header (image : Image) : FailsWith IsFormat image.header := by
  refine (failsWith_read _ _ _).bind fun bytes _ => (failsWith_identify bytes).bind fun order _ => ?_
  refine FailsWith.throw_if (isFormat _) ?_
  split
  · exact FailsWith.throw (isFormat _)
  · exact FailsWith.throw_if (isFormat _) FailsWith.pure

theorem failsWith_programHeaders (image : Image) (header : FileHeader) (order : ByteOrder) :
    FailsWith IsFormat (image.programHeaders header order) :=
  (failsWith_read _ _ _).bind fun _ _ => FailsWith.pure

end Image

namespace ObjectFile

variable (image : Image) (headers : List ProgramHeader) (order : ByteOrder)

theorem failsWith_readTable (address length : UInt32) :
    FailsWith IsFormat (readTable image headers address length) := by
  have hoffset : FailsWith IsFormat (fileOffset headers address length) := by
    unfold fileOffset
    dsimp only
    split
    · exact FailsWith.ok
    · exact FailsWith.error (isFormat _)
  unfold readTable
  split
  · exact FailsWith.pure
  · exact hoffset.bind fun offset _ => Image.failsWith_read image offset _

theorem failsWith_stringAt (strings : Bytes) (offset : UInt32) :
    FailsWith IsFormat (stringAt strings offset) := by
  unfold stringAt
  dsimp only
  split
  · exact FailsWith.error (isFormat _)
  · split
    · exact FailsWith.ok
    · exact FailsWith.error (isFormat _)

theorem failsWith_readSymbols (dynamic : List DynamicEntry) (strings : Bytes) :
    FailsWith IsFormat (readSymbols image headers order dynamic strings) := by
  refine (failsWith_readTable _ _ _ _).bind fun hash _ => ?_
  refine FailsWith.throw_if (isFormat _) ?_
  refine (failsWith_readTable _ _ _ _).bind fun table _ => FailsWith.mapM fun i _ => ?_
  exact (failsWith_stringAt _ _).bind fun _ _ => FailsWith.pure

theorem failsWith_extend (strings : Bytes) (names : Names) (entry : DynamicEntry) :
    FailsWith IsFormat (names.extend strings entry) := by
  unfold Names.extend
  split
  · refine (failsWith_stringAt _ _).bind fun name _ => ?_
    split
    · exact FailsWith.pure
    · exact FailsWith.pure
  · split
    · exact (failsWith_stringAt _ _).bind fun _ _ => FailsWith.pure
    · exact FailsWith.pure

theorem failsWith_pltTable? (machine : Machine) (dynamic : List DynamicEntry) :
    FailsWith IsFormat (pltTable? machine dynamic) := by
  unfold pltTable?
  dsimp only
  split
  · split
    · exact FailsWith.ok
    · split
      · exact FailsWith.ok
      · split
        · exact FailsWith.ok
        · split
          · exact FailsWith.ok
          · exact FailsWith.error (isFormat _)
  · exact FailsWith.ok

theorem failsWith_readRelocations (address size : UInt32) (withAddend : Bool)
    (exclude : Option PltTable) :
    FailsWith IsFormat (readRelocations image headers order address size withAddend exclude) := by
  unfold readRelocations
  refine FailsWith.throw_if (isFormat _) ?_
  exact (failsWith_readTable _ _ _ _).bind fun _ _ => FailsWith.pure

theorem failsWith_readTagged (dynamic : List DynamicEntry) (addressTag sizeTag : UInt32)
    (withAddend : Bool) (exclude : Option PltTable) :
    FailsWith IsFormat
      (readTagged image headers order dynamic addressTag sizeTag withAddend exclude) := by
  unfold readTagged
  split
  · exact failsWith_readRelocations _ _ _ _ _ _ _
  · exact FailsWith.ok

theorem failsWith_checkSegments : FailsWith IsFormat (checkSegments image headers) := by
  refine FailsWith.forM fun header _ => FailsWith.throw_if (isFormat _) ?_
  split
  · exact FailsWith.throw (isFormat _)
  · exact FailsWith.pure

theorem failsWith_checkDynamic (objectType : UInt16) (dynamic : List DynamicEntry) :
    FailsWith IsFormat (checkDynamic objectType dynamic) := by
  refine FailsWith.bind (FailsWith.forM fun entry _ => ?_) fun _ _ => FailsWith.forM fun size _ => ?_
  · split
    · exact FailsWith.throw (isFormat _)
    · exact FailsWith.pure
  · dsimp only
    split
    · split
      · exact FailsWith.throw (isFormat _)
      · exact FailsWith.pure
    · exact FailsWith.pure

theorem failsWith_readDynamic (file : ObjectFile) (dynamic : List DynamicEntry) :
    FailsWith IsFormat (readDynamic image file dynamic) := by
  refine (failsWith_checkDynamic _ _).bind fun _ _ => ?_
  refine (failsWith_readTable _ _ _ _).bind fun strings _ => ?_
  refine (failsWith_readSymbols _ _ _ _ _).bind fun symbols _ => ?_
  refine (FailsWith.foldlM fun names entry _ => failsWith_extend _ _ _).bind fun names _ => ?_
  refine FailsWith.throw_if (isFormat _) ?_
  refine (failsWith_pltTable? _ _).bind fun plt _ => ?_
  refine (failsWith_readTagged _ _ _ _ _ _ _ _).bind fun rel _ => ?_
  refine (failsWith_readTagged _ _ _ _ _ _ _ _).bind fun rela _ => ?_
  cases plt with
  | none => exact FailsWith.pure
  | some table => exact (failsWith_readRelocations _ _ _ _ _ _ _).bind fun _ _ => FailsWith.pure

/-- A file that cannot be read is malformed. -/
theorem failsWith_read : FailsWith IsFormat (read image) := by
  refine (Image.failsWith_header image).bind fun ⟨header, order, machine⟩ _ => ?_
  refine (Image.failsWith_programHeaders _ _ _).bind fun headers _ => ?_
  refine (failsWith_checkSegments _ _).bind fun _ _ => ?_
  dsimp only
  split
  · exact FailsWith.pure
  · refine (Image.failsWith_read _ _ _).bind fun bytes _ => ?_
    refine FailsWith.bind ?_ fun dynamic _ => failsWith_readDynamic _ _ _
    unfold DynamicEntry.decodeTable
    dsimp only
    split
    · exact FailsWith.ok
    · exact FailsWith.error (isFormat _)

end ObjectFile

/-! ## Relocating a module -/

/-- The error is not one that the loader means to keep from arising. -/
def LoadError.Regular (e : LoadError) : Prop := ∀ fault, e ≠ .internal fault

open LoadError (Regular)

theorem LoadError.IsFormat.regular {e : LoadError} (h : e.IsFormat) : e.Regular := by
  rintro fault rfl
  obtain ⟨fault, h⟩ := h
  cases h

/-- The error is one of a cell that cannot be patched, whatever the symbol is: it has no room or the
wrong instruction, the value does not fit, the type is not known or the module has no slot. -/
def LoadError.OfRelocation : LoadError → Prop
  | .relocation _ | .relocationOverflow .. | .unsupportedRelocation .. | .dsbt _ => True
  | _ => False

open LoadError (OfRelocation)

theorem LoadError.OfRelocation.regular {e : LoadError} (h : e.OfRelocation) : e.Regular := by
  rintro fault rfl
  exact h

/-- The error of a C6000 file that leaves the addend of a relocation to the cell, where the relocations
of that machine do not keep it. -/
def ObjectFile.LacksAddend (file : ObjectFile) (e : LoadError) : Prop :=
  file.machine = .c6000 ∧ ∃ entry ∈ file.rel ++ file.rela ++ file.plt, entry.addend = none ∧
    Relocation.isInert .c6000 entry.type = false ∧
    e = .internal (.storedAddend (Relocation.typeName .c6000 entry.type))

namespace Relocation

variable {name : String} {site : Site} {inputs : Inputs}

theorem Cell.failsWith_read (cell : Cell) (site : Site) : FailsWith OfRelocation (cell.read site) := by
  have hunit (offset width : Nat) :
      FailsWith OfRelocation (unit site.bytes site.order offset width) := by
    unfold unit
    split
    · exact FailsWith.ok
    · exact FailsWith.error trivial
  cases cell with
  | thumbPair => exact (hunit _ _).bind fun _ _ => (hunit _ _).bind fun _ _ => FailsWith.pure
  | _ => exact (hunit _ _).bind fun _ _ => FailsWith.pure

theorem Group.failsWith_addend (members : GroupClass) (instruction : BitVec 32) :
    FailsWith OfRelocation (addend members instruction) := by
  unfold addend
  cases members with
  | alu =>
    dsimp only
    split
    · exact FailsWith.ok
    · split
      · exact FailsWith.ok
      · exact FailsWith.error trivial
  | _ => exact FailsWith.ok

namespace Arm

theorem failsWith_switchMode (switch : Switch) :
    FailsWith OfRelocation (switchMode switch name site inputs) := by
  cases switch with
  | none => exact FailsWith.ok
  | armCall =>
    refine (Cell.failsWith_read _ _).bind fun instruction _ => ?_
    dsimp only
    split
    · split
      · exact FailsWith.pure
      · exact FailsWith.throw trivial
    · split
      · exact FailsWith.pure
      · exact FailsWith.pure
  | armJump =>
    unfold switchMode
    dsimp only
    split
    · exact FailsWith.error trivial
    · exact FailsWith.ok
  | thumbCall =>
    refine (Cell.failsWith_read _ _).bind fun instruction _ => ?_
    split
    · exact FailsWith.pure
    · split
      · exact FailsWith.pure
      · exact FailsWith.pure
  | thumbJump =>
    unfold switchMode
    dsimp only
    split
    · exact FailsWith.error trivial
    · exact FailsWith.ok

/-- The plain field of a rule is only asked for if the rule has one. -/
theorem failsWith_patch (rule : Rule) : FailsWith OfRelocation (rule.patch name site inputs) := by
  rw [Rule.patch_eq]
  refine (failsWith_switchMode _).bind fun mode _ => ?_
  dsimp only
  split
  · refine (Cell.failsWith_read _ _).bind fun instruction _ => ?_
    split
    · exact FailsWith.pure
    · exact FailsWith.throw trivial
  · split
    · exact (Cell.failsWith_read _ _).bind fun _ _ => FailsWith.pure
    · exact FailsWith.throw trivial

theorem failsWith_storedAddend (rule : Rule) : FailsWith OfRelocation (rule.storedAddend site) := by
  unfold Rule.storedAddend
  split
  · exact (Cell.failsWith_read _ _).bind fun _ _ => Group.failsWith_addend _ _
  · exact (Cell.failsWith_read _ _).bind fun _ _ => FailsWith.pure

end Arm

theorem C6000.failsWith_patch (rule : C6000.Rule) : FailsWith OfRelocation (rule.patch name site inputs) := by
  refine FailsWith.bind ?_ fun v _ => ?_
  · unfold C6000.Formula.eval
    cases rule.formula with
    | dsbtIndex =>
      dsimp only
      split
      · exact FailsWith.ok
      · exact FailsWith.error trivial
    | _ => exact FailsWith.ok
  · split
    · exact (Cell.failsWith_read _ _).bind fun _ _ => FailsWith.pure
    · exact FailsWith.throw trivial

theorem failsWith_patch (machine : Machine) (type : UInt32) (site : Site) (inputs : Inputs) :
    FailsWith OfRelocation (patch machine type site inputs) := by
  unfold patch
  cases machine with
  | arm =>
    dsimp only
    split
    · exact FailsWith.ok
    · exact FailsWith.error trivial
    · exact Arm.failsWith_patch _
  | c6000 =>
    dsimp only
    split
    · exact FailsWith.ok
    · exact FailsWith.error trivial
    · exact C6000.failsWith_patch _

/-- Only a C6000 cell is asked for an addend in vain. -/
theorem failsWith_storedAddend (machine : Machine) (type : UInt32) (site : Site) :
    FailsWith (fun e => e.OfRelocation ∨
        machine = .c6000 ∧ e = .internal (.storedAddend (typeName .c6000 type)))
      (storedAddend machine type site) := by
  unfold storedAddend
  cases machine with
  | arm =>
    dsimp only
    split
    · exact (Arm.failsWith_storedAddend _).mono fun _ => Or.inl
    · exact FailsWith.error (Or.inl trivial)
  | c6000 => exact FailsWith.error (Or.inr ⟨rfl, rfl⟩)

end Relocation

namespace Draft

theorem failsWith_resolve (graph : SymbolGraph) (policy : LookupPolicy) (requester : Handle)
    (app : Option Handle) (symbols : List Symbol) (index : UInt32) :
    FailsWith Regular (graph.resolve policy requester app symbols index) := by
  unfold SymbolGraph.resolve
  split
  · exact FailsWith.error nofun
  · split
    · split
      · exact FailsWith.ok
      · exact FailsWith.error nofun
    · split
      · exact FailsWith.ok
      · split
        · exact FailsWith.ok
        · split
          · exact FailsWith.ok
          · exact FailsWith.error nofun

variable {linkage : Linkage} {file : ObjectFile}

theorem failsWith_apply (hmachine : linkage.machine = file.machine) {entry : RelocationEntry}
    (hentry : entry ∈ file.rel ++ file.rela ++ file.plt) (segment : Segment) (block : Bytes) :
    FailsWith (fun e => e.Regular ∨ file.LacksAddend e) (linkage.apply segment block entry) := by
  unfold Linkage.apply
  split
  · exact FailsWith.pure
  · rename_i hinert
    have hregular {α : Type} {answer : Except LoadError α} (h : FailsWith Regular answer) :
        FailsWith (fun e => e.Regular ∨ file.LacksAddend e) answer :=
      h.mono fun _ => Or.inl
    have hinputs (place : UInt32) (addend : Int32) :
        FailsWith Regular (linkage.inputs entry place addend) := by
      unfold Linkage.inputs
      dsimp only
      split
      · exact FailsWith.pure
      · split
        · exact FailsWith.pure
        · exact (failsWith_resolve _ _ _ _ _ _).bind fun _ _ => FailsWith.pure
    have hpatch (place : UInt32) (site : Relocation.Site) (addend : Int32) := hregular
      ((hinputs place addend).bind fun inputs _ =>
        (Relocation.failsWith_patch linkage.machine entry.type site inputs).mono
          fun _ => OfRelocation.regular)
    dsimp only
    split
    · exact hpatch _ _ _
    · rename_i hnone
      refine ((Relocation.failsWith_storedAddend _ _ _).mono fun e he =>
        he.imp OfRelocation.regular ?_).bind fun addend _ => hpatch _ _ addend
      rintro ⟨hc6000, rfl⟩
      exact ⟨hmachine.symm.trans hc6000, entry, hentry, hnone, by simpa [hc6000] using hinert, rfl⟩

theorem failsWith_relocateFrom (hmachine : linkage.machine = file.machine) (pltHome : Option Nat)
    (position : Nat) (segments : List Segment) (blocks : List Bytes) (applied unresolved : Nat) :
    FailsWith (fun e => e.Regular ∨ file.LacksAddend e)
      (relocateFrom linkage file pltHome position segments blocks applied unresolved) := by
  induction segments generalizing position blocks applied unresolved with
  | nil => exact FailsWith.ok
  | cons segment segments ih =>
    cases blocks with
    | nil => exact FailsWith.ok
    | cons block blocks =>
      refine FailsWith.bind (FailsWith.foldlM fun tally entry hentry => ?_) fun tally _ =>
        (ih _ _ _ _).bind fun _ _ => FailsWith.pure
      have hmem : entry ∈ file.rel ++ file.rela ++ file.plt := by
        have hkept := (List.mem_filter.mp hentry).1
        split at hkept
        · exact hkept
        · exact List.mem_append_left _ (by simpa using hkept)
      have happly := failsWith_apply hmachine hmem segment tally.block
      unfold Tally.step
      split
      · exact FailsWith.ok
      · exact FailsWith.ok
      · rename_i e _ he
        exact FailsWith.error (happly e he)

theorem failsWith_checkHomes (file : ObjectFile) (segments : List Segment) :
    FailsWith OfRelocation (checkHomes file segments) := by
  unfold checkHomes
  dsimp only
  split
  · exact FailsWith.throw trivial
  · split
    · exact FailsWith.throw trivial
    · exact FailsWith.pure

/-- A module that is listed and has a block for each of its segments has no internal error but that of
an addend that is not where its file says. -/
theorem failsWith_relocate {draft : Draft} {modules : List Module} {m : Module}
    (hfind : Module.find? modules draft.handle = some m)
    (hstaged : draft.staged.length = m.segments.length) (app : Option Handle) :
    FailsWith (fun e => e.Regular ∨ draft.file.LacksAddend e) (draft.relocate modules app) := by
  unfold relocate
  rw [hfind]
  dsimp only
  rw [if_neg fun hne => hne hstaged]
  refine ((failsWith_checkHomes _ _).mono fun _ h => Or.inl h.regular).bind fun home _ => ?_
  refine (failsWith_relocateFrom rfl _ _ _ _ _ _).bind fun relocated _ => ?_
  exact FailsWith.throw_if (Or.inl nofun) FailsWith.pure

end Draft

/-! ## Claims and arguments -/

theorem Dsbt.failsWith_register (dsbt : Dsbt) (claim : Claim) :
    FailsWith LoadError.Regular (dsbt.register claim) := by
  unfold register
  split
  · exact FailsWith.error nofun
  · split
    · exact FailsWith.error nofun
    · exact FailsWith.ok

theorem Arguments.failsWith_encode (base capacity : UInt32) (arguments : List String)
    (order : ByteOrder) : FailsWith LoadError.Regular (encode base capacity arguments order) := by
  unfold encode
  split
  · exact FailsWith.error nofun
  · exact FailsWith.ok

theorem Loader.failsWith_checkMachine (locked : Option Machine) (found : Machine) :
    FailsWith LoadError.Regular (checkMachine locked found) := by
  unfold checkMachine
  split
  · split
    · exact FailsWith.ok
    · exact FailsWith.error nofun
  · exact FailsWith.ok

end TargetLink
