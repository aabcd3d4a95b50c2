import TargetLink.Proofs.ArmFields
import TargetLink.Proofs.ExactlyOnce

/-!
# Relocations of different cells commute

A relocation reads and writes its own cell only: what it stores depends on the contents of that cell and
on nothing else of the segment (`Linkage.Applies.elsewhere`).  Two relocations whose cells share no byte
may therefore be exchanged (`Linkage.Applies.comm`), and so a walk may take its relocations in any order
(`Walk.perm`).  The home of the procedure linkage table is that of its first entry, but all its entries
share it.
-/

namespace TargetLink

/-! ## Stores that share no byte -/

namespace Bytes

/-- A stretch of a block depends on the bytes that it holds. -/
theorem window_congr {block block' : Bytes} (hlength : block.length = block'.length)
    {offset width : Nat} (hsame : ∀ i, offset ≤ i → i < offset + width → block[i]? = block'[i]?) :
    block.window offset width = block'.window offset width := by
  unfold window
  rw [hlength]
  split
  · congr 1
    apply List.ext_getElem?
    intro i
    rw [List.getElem?_take, List.getElem?_take, List.getElem?_drop, List.getElem?_drop]
    split
    · exact hsame _ (Nat.le_add_right offset i) (by omega)
    · rfl
  · rfl

/-- Bytes that go to different places may be stored in either order. -/
theorem overwrite_comm (block : Bytes) {offset offset' : Nat} {part part' : Bytes}
    (hapart : offset + part.length ≤ offset' ∨ offset' + part'.length ≤ offset) :
    (block.overwrite offset part).overwrite offset' part' =
      (block.overwrite offset' part').overwrite offset part := by
  refine ext_inside (by simp) fun i hi => ?_
  simp only [length_overwrite] at hi
  rw [getElem?_overwrite _ _ _ _ (by rwa [length_overwrite]), getElem?_overwrite _ _ _ _ hi,
    getElem?_overwrite _ _ _ _ (by rwa [length_overwrite]), getElem?_overwrite _ _ _ _ hi]
  by_cases hpart : offset ≤ i ∧ i < offset + part.length
  · rw [if_pos hpart, if_pos hpart, if_neg (by omega)]
  · rw [if_neg hpart, if_neg hpart]

end Bytes

namespace Relocation

namespace Cell

variable {cell : Cell}

theorem unit_congr {bytes bytes' : Bytes} {order : ByteOrder} {offset width : Nat}
    (h : bytes.window offset width = bytes'.window offset width) :
    unit bytes order offset width = unit bytes' order offset width := by
  rw [unit, unit, h]

/-- What a cell reads depends on its bytes. -/
theorem read_congr {block block' : Bytes} {order : ByteOrder} {offset : Nat}
    (hlength : block.length = block'.length)
    (hsame : ∀ i, offset ≤ i → i < offset + cell.size → block[i]? = block'[i]?) :
    cell.read ⟨block, offset, order⟩ = cell.read ⟨block', offset, order⟩ := by
  have hunit : ∀ start width, offset ≤ start → start + width ≤ offset + cell.size →
      unit block order start width = unit block' order start width := fun start width hstart hend =>
    unit_congr (Bytes.window_congr hlength fun i hle hlt => hsame i (by omega) (by omega))
  cases cell with
  | byte => simp only [read, hunit offset 1 (Nat.le_refl _) (Nat.le_refl _)]
  | half => simp only [read, hunit offset 2 (Nat.le_refl _) (Nat.le_refl _)]
  | word => simp only [read, hunit offset 4 (Nat.le_refl _) (Nat.le_refl _)]
  | thumbPair =>
    simp only [read, hunit offset 2 (Nat.le_refl _) (Nat.le_add_right _ 2),
      hunit (offset + 2) 2 (Nat.le_add_right _ 2) (Nat.le_refl _)]

/-- A cell is not affected by what is written into another one. -/
theorem read_write_of_apart {other : Cell} {block : Bytes} {order : ByteOrder} {offset offset' : Nat}
    (hapart : offset + other.size ≤ offset' ∨ offset' + cell.size ≤ offset) (contents : BitVec 32) :
    cell.read ⟨other.write ⟨block, offset, order⟩ contents, offset', order⟩ =
      cell.read ⟨block, offset', order⟩ :=
  read_congr (length_write _ _ _) fun i hle hlt =>
    other.getElem?_write_of_outside ⟨block, offset, order⟩ contents (by dsimp only; omega)

end Cell

/-! ## What a relocation depends on -/

/-- A relocation is determined by the contents of a cell: wherever the cell holds the same it fails alike,
or stores the same there. -/
def Cell.Determines (cell : Cell) (relocate : Site → Except LoadError Bytes) : Prop :=
  ∀ site, (∃ e, ∀ site', cell.read site' = cell.read site → relocate site' = .error e) ∨
    ∃ old new, cell.read site = .ok old ∧
      ∀ site', cell.read site' = .ok old → relocate site' = .ok (cell.write site' new)

namespace Cell.Determines

variable {cell : Cell}

theorem error (e : LoadError) : cell.Determines fun _ => .error e :=
  fun _ => .inl ⟨e, fun _ _ => rfl⟩

/-- What replaces the contents is found from them. -/
theorem replace {answer : Site → BitVec 32 → Except LoadError Bytes}
    (change : BitVec 32 → Except LoadError (BitVec 32))
    (hanswer : ∀ site old, answer site old = (change old).map (cell.write site)) :
    cell.Determines fun site => cell.read site >>= answer site := by
  intro site
  cases hread : cell.read site with
  | error e => exact .inl ⟨e, fun site' hsame => congrArg (· >>= _) hsame⟩
  | ok old =>
    have hafter : ∀ site', cell.read site' = .ok old →
        (cell.read site' >>= answer site') = (change old).map (cell.write site') :=
      fun site' hsame => (congrArg (· >>= _) hsame).trans (hanswer site' old)
    cases hchange : change old with
    | error e =>
      rw [hchange] at hafter
      exact .inl ⟨e, hafter⟩
    | ok new =>
      rw [hchange] at hafter
      exact .inr ⟨old, new, rfl, hafter⟩

/-- What comes first may look at the cell, too. -/
theorem bind {α : Type} {choose : Site → Except LoadError α} {next : α → Site → Except LoadError Bytes}
    (hchoose : ∀ site site', cell.read site' = cell.read site → choose site' = choose site)
    (hnext : ∀ a, cell.Determines (next a)) :
    cell.Determines fun site => choose site >>= fun a => next a site := by
  intro site
  cases hchosen : choose site with
  | error e => exact .inl ⟨e, fun site' hsame => congrArg (· >>= _) ((hchoose _ _ hsame).trans hchosen)⟩
  | ok a =>
    have hafter : ∀ site', cell.read site' = cell.read site →
        (choose site' >>= fun a => next a site') = next a site' :=
      fun site' hsame => congrArg (· >>= _) ((hchoose _ _ hsame).trans hchosen)
    rcases hnext a site with ⟨e, hfails⟩ | ⟨old, new, hread, hstores⟩
    · exact .inl ⟨e, fun site' hsame => (hafter site' hsame).trans (hfails site' hsame)⟩
    · exact .inr ⟨old, new, hread, fun site' hsame =>
        (hafter site' (hsame.trans hread.symm)).trans (hstores site' hsame)⟩

end Cell.Determines

section Local

variable {machine : Machine} {type : UInt32} {name : String} {inputs : Inputs} {site site' : Site}
  {cell : Cell} {after : Bytes}

/-- The instruction set is changed by looking at the cell that is patched. -/
theorem Arm.switchMode_congr {rule : Arm.Rule} (hrule : Kind.rule? Arm.kinds type = some rule)
    (hread : rule.cell.read site' = rule.cell.read site) :
    switchMode rule.switch name site' inputs = switchMode rule.switch name site inputs := by
  have hcoherent := coherent_of_rule? hrule
  unfold Rule.Coherent at hcoherent
  unfold Rule.cell at hread
  cases hencoding : rule.encoding with
  | group => rw [switch_of_group hrule hencoding]; rfl
  | field field check =>
    rw [hencoding] at hcoherent hread
    obtain ⟨-, harm, hthumb, -⟩ := hcoherent
    cases hswitch : rule.switch with
    | armCall =>
      obtain rfl : field = .armBranch := harm hswitch
      exact congrArg (· >>= _) hread
    | thumbCall =>
      obtain rfl : field = .thmBranch := hthumb hswitch
      exact congrArg (· >>= _) hread
    | _ => rfl

/-- What a rule does is found from the contents of its cell. -/
theorem Arm.determines_patch {rule : Arm.Rule} (hrule : Kind.rule? Arm.kinds type = some rule)
    (inputs : Inputs) : rule.cell.Determines fun site => rule.patch name site inputs := by
  simp only [Rule.patch_eq]
  refine .bind (fun _ _ => switchMode_congr hrule) fun mode => ?_
  obtain ⟨formula, encoding, switch⟩ := rule
  cases encoding with
  | group members index concluding =>
    generalize Rule.value ⟨formula, .group members index concluding, switch⟩ mode inputs = v
    refine .replace (fun old => (Group.patch? members index concluding old v).elim
      (.error (.relocationOverflow name inputs.place v)) .ok) fun site old => ?_
    cases Group.patch? members index concluding old v <;> rfl
  | field field check =>
    dsimp only
    split
    · exact .replace (fun old => .ok (field.insert mode _ old)) fun _ _ => rfl
    · exact .error _

theorem C6000.determines_patch (rule : C6000.Rule) (inputs : Inputs) :
    rule.cell.Determines fun site => rule.patch name site inputs := by
  refine .bind (fun _ _ _ => rfl) fun v => ?_
  dsimp only
  split
  · exact .replace (fun old => .ok (rule.layout.put (BitVec.ofInt 32 (rule.pack v)) old)) fun _ _ => rfl
  · exact .error _

/-- What a relocation does is found from the contents of its cell, on either machine. -/
theorem determines_patch (hcell : cell? machine type = some cell) (inputs : Inputs) :
    cell.Determines fun site => patch machine type site inputs := by
  unfold patch
  cases machine with
  | arm =>
    obtain ⟨rule, hrule, rfl⟩ := Option.map_eq_some_iff.mp hcell
    rw [Kind.treatmentOf_of_rule? hrule]
    exact Arm.determines_patch hrule inputs
  | c6000 =>
    obtain ⟨rule, hrule, rfl⟩ := Option.map_eq_some_iff.mp hcell
    rw [Kind.treatmentOf_of_rule? hrule]
    exact C6000.determines_patch rule inputs

/-- What a relocation stores is found from the contents of its cell. -/
theorem patch_elsewhere (hactive : isInert machine type = false)
    (h : patch machine type site inputs = .ok after) :
    ∃ cell old new, cell? machine type = some cell ∧ cell.read site = .ok old ∧
      after = cell.write site new ∧
      ∀ site', cell.read site' = .ok old →
        patch machine type site' inputs = .ok (cell.write site' new) := by
  obtain ⟨cell, -, hcell, -⟩ := exists_write_of_patch hactive h
  rcases determines_patch hcell inputs site with ⟨e, hfails⟩ | ⟨old, new, hread, hstores⟩
  · have hfailed := h.symm.trans (hfails site rfl)
    cases hfailed
  · exact ⟨cell, old, new, hcell, hread, Except.ok.inj (h.symm.trans (hstores site hread)), hstores⟩

/-- The addend in a cell is found from its contents. -/
theorem storedAddend_congr
    (hread : ∀ cell ∈ cell? machine type, cell.read site' = cell.read site) :
    storedAddend machine type site' = storedAddend machine type site := by
  unfold storedAddend
  unfold cell? at hread
  cases machine with
  | arm =>
    dsimp only at hread ⊢
    cases hrule : Kind.rule? Arm.kinds type with
    | none => rfl
    | some rule =>
      have hcell := hread rule.cell (by rw [hrule, Option.map_some, Option.mem_def])
      unfold Arm.Rule.cell at hcell
      dsimp only
      unfold Arm.Rule.storedAddend
      split <;> rename_i hencoding <;> rw [hencoding] at hcell <;> rw [hcell]
  | c6000 => rfl

end Local

end Relocation

/-! ## Relocations that patch different cells -/

/-- The link-time addresses that a relocation patches. -/
def RelocationEntry.patched (machine : Machine) (entry : RelocationEntry) : List UInt32 :=
  match Relocation.cell? machine entry.type with
  | some cell => (List.range cell.size).map fun i => entry.offset + UInt32.ofNat i
  | none => []

/-- Relocations that patch no address in common. -/
def RelocationEntry.Apart (machine : Machine) (entry other : RelocationEntry) : Prop :=
  ∀ address ∈ entry.patched machine, address ∉ other.patched machine

instance (machine : Machine) (entry other : RelocationEntry) : Decidable (entry.Apart machine other) :=
  List.decidableBAll _ _

theorem RelocationEntry.Apart.symm {machine : Machine} {entry other : RelocationEntry}
    (h : entry.Apart machine other) : other.Apart machine entry :=
  fun address hother hentry => h address hentry hother

namespace Draft

namespace Linkage

variable {linkage : Linkage} {segment : Segment} {entry other : RelocationEntry}
  {before middle after : Bytes}

/-- An address inside the cell of a relocation is one that it patches. -/
theorem mem_patched (segment : Segment) {machine : Machine} {cell : Relocation.Cell}
    (hcell : Relocation.cell? machine entry.type = some cell) {i : Nat}
    (hle : (entry.offset - segment.linkAddress).toNat ≤ i)
    (hlt : i < (entry.offset - segment.linkAddress).toNat + cell.size) :
    segment.linkAddress + UInt32.ofNat i ∈ entry.patched machine := by
  rw [RelocationEntry.patched, hcell]
  refine List.mem_map.mpr ⟨i - (entry.offset - segment.linkAddress).toNat,
    List.mem_range.mpr (by omega), ?_⟩
  have hsum : UInt32.ofNat i = (entry.offset - segment.linkAddress) +
      UInt32.ofNat (i - (entry.offset - segment.linkAddress).toNat) := by
    conv_lhs => rw [← Nat.add_sub_cancel' hle, UInt32.ofNat_add, UInt32.ofNat_toNat]
  rw [hsum]
  generalize UInt32.ofNat (i - (entry.offset - segment.linkAddress).toNat) = distance
  grind

/-- The cells of relocations that stand apart do not overlap in their segment. -/
theorem cells_apart (segment : Segment) {machine : Machine} (hapart : entry.Apart machine other)
    {cell cell' : Relocation.Cell} (hcell : Relocation.cell? machine entry.type = some cell)
    (hcell' : Relocation.cell? machine other.type = some cell') :
    (entry.offset - segment.linkAddress).toNat + cell.size ≤
        (other.offset - segment.linkAddress).toNat ∨
      (other.offset - segment.linkAddress).toNat + cell'.size ≤
        (entry.offset - segment.linkAddress).toNat := by
  by_contra hoverlap
  have hpos : 0 < cell.size := by cases cell <;> decide
  have hpos' : 0 < cell'.size := by cases cell' <;> decide
  -- The higher one of the two first bytes lies in both cells.
  generalize hi : max (entry.offset - segment.linkAddress).toNat
    (other.offset - segment.linkAddress).toNat = i
  exact hapart _ (mem_patched segment (i := i) hcell (by omega) (by omega))
    (mem_patched segment hcell' (by omega) (by omega))

/-- A relocation that is applied patches its cell by what stands there, wherever else the segment
differs. -/
theorem Applies.elsewhere (h : linkage.Applies segment entry before after)
    (hactive : Relocation.isInert linkage.machine entry.type = false) :
    ∃ cell old new, Relocation.cell? linkage.machine entry.type = some cell ∧
      cell.read (linkage.site segment entry before) = .ok old ∧
      after = cell.write (linkage.site segment entry before) new ∧
      ∀ block, cell.read (linkage.site segment entry block) = .ok old →
        linkage.Applies segment entry block (cell.write (linkage.site segment entry block) new) := by
  cases h with
  | inert hinert =>
    rw [hinert] at hactive
    cases hactive
  | patch _ haddend hinputs hpatch =>
    obtain ⟨cell, old, new, hcell, hread, hafter, helse⟩ :=
      Relocation.patch_elsewhere hactive hpatch
    refine ⟨cell, old, new, hcell, hread, hafter, fun block hblock =>
      .patch hactive ?_ hinputs (helse _ hblock)⟩
    rw [← haddend]
    unfold addendOf
    split
    · rfl
    · refine Relocation.storedAddend_congr fun cell' hcell' => ?_
      rw [hcell, Option.mem_some_iff] at hcell'
      rw [← hcell']
      exact hblock.trans hread.symm

/-- Relocations that patch different cells may be applied in either order. -/
theorem Applies.comm (hapart : entry.Apart linkage.machine other)
    (hfirst : linkage.Applies segment entry before middle)
    (hsecond : linkage.Applies segment other middle after) :
    ∃ middle', linkage.Applies segment other before middle' ∧
      linkage.Applies segment entry middle' after := by
  cases hinert : Relocation.isInert linkage.machine entry.type with
  | true =>
    have happly := apply_eq_ok_iff.mpr hfirst
    rw [apply_of_inert hinert] at happly
    obtain rfl := Except.ok.inj happly
    exact ⟨after, hsecond, .inert hinert⟩
  | false =>
    cases hinert' : Relocation.isInert linkage.machine other.type with
    | true =>
      have happly := apply_eq_ok_iff.mpr hsecond
      rw [apply_of_inert hinert'] at happly
      obtain rfl := Except.ok.inj happly
      exact ⟨before, .inert hinert', hfirst⟩
    | false =>
      obtain ⟨cell, old, new, hcell, hread, rfl, helse⟩ := hfirst.elsewhere hinert
      obtain ⟨cell', old', new', hcell', hread', rfl, helse'⟩ := hsecond.elsewhere hinert'
      have hcells := cells_apart segment hapart hcell hcell'
      have hother : cell'.read (linkage.site segment other before) = .ok old' :=
        (Relocation.Cell.read_write_of_apart hcells new).symm.trans hread'
      refine ⟨_, helse' before hother, ?_⟩
      have hentry : cell.read (linkage.site segment entry
          (cell'.write (linkage.site segment other before) new')) = .ok old :=
        (Relocation.Cell.read_write_of_apart hcells.symm new').trans hread
      have hcomm : cell'.write (linkage.site segment other
            (cell.write (linkage.site segment entry before) new)) new' =
          cell.write (linkage.site segment entry
            (cell'.write (linkage.site segment other before) new')) new :=
        Bytes.overwrite_comm before <| by
          rw [Relocation.Cell.length_encode, Relocation.Cell.length_encode]
          exact hcells
      rw [hcomm]
      exact helse _ hentry

end Linkage

/-! ## Walks and passes -/

variable {linkage : Linkage} {segment : Segment}

/-- A walk that skips nothing may take its relocations in any order. -/
theorem Walk.perm {entries entries' : List RelocationEntry} (hperm : entries.Perm entries')
    (hapart : entries.Pairwise (RelocationEntry.Apart linkage.machine)) {before after : Bytes}
    (h : Walk linkage segment entries before after 0) :
    Walk linkage segment entries' before after 0 := by
  induction hperm generalizing before with
  | nil => exact h
  | cons entry _ ih =>
    cases h with
    | applied hfirst hrest => exact .applied hfirst (ih (List.pairwise_cons.mp hapart).2 hrest)
  | swap entry other entries =>
    cases h with
    | applied hfirst hrest =>
      cases hrest with
      | applied hsecond hrest =>
        have hpair := (List.pairwise_cons.mp hapart).1 entry List.mem_cons_self
        obtain ⟨middle, hsecond', hfirst'⟩ := hfirst.comm hpair hsecond
        exact .applied hsecond' (.applied hfirst' hrest)
  | trans hfirst _ ihfirst ihsecond =>
    exact ihsecond (hfirst.pairwise hapart fun h => h.symm) (ihfirst hapart h)

/-- Schedules of the same segments with the same relocations, in any order. -/
def Schedule.Reordered : Schedule → Schedule → Prop :=
  List.Forall₂ fun first second => first.1 = second.1 ∧ first.2.Perm second.2

theorem Schedule.Reordered.size_eq {schedule schedule' : Schedule}
    (h : schedule.Reordered schedule') : schedule.size = schedule'.size := by
  induction h with
  | nil => rfl
  | cons hfirst _ ih => rw [Schedule.size_cons, Schedule.size_cons, ih, hfirst.2.length_eq]

/-- A pass that skips nothing may take the relocations of each segment in any order. -/
theorem Pass.reorder {schedule schedule' : Schedule} (hsame : schedule.Reordered schedule')
    (hapart : ∀ part ∈ schedule, part.2.Pairwise (RelocationEntry.Apart linkage.machine))
    {blocks blocks' : List Bytes} {count : Nat} (hnone : count = 0)
    (h : Pass linkage schedule blocks blocks' count) : Pass linkage schedule' blocks blocks' 0 := by
  induction h generalizing schedule' with
  | nil =>
    cases hsame
    exact .nil
  | @cons segment entries schedule before after blocks blocks' count others hwalk _ ih =>
    obtain ⟨rfl, rfl⟩ := Nat.add_eq_zero_iff.mp hnone
    cases hsame with
    | @cons _ part _ rest hpart hrest =>
      obtain ⟨segment', entries'⟩ := part
      obtain ⟨rfl, hperm⟩ := hpart
      obtain ⟨hfirst, hothers⟩ := List.forall_mem_cons.mp hapart
      exact .cons (hwalk.perm hperm hfirst) (ih hrest hothers rfl)

/-! ## Permuted tables -/

section Tables

variable {file file' : ObjectFile} {segments : List Segment}

/-- Two files with the same relocations in each table. -/
structure SameTables (file file' : ObjectFile) : Prop where
  rel : file.rel.Perm file'.rel
  rela : file.rela.Perm file'.rela
  plt : file.plt.Perm file'.plt

variable (hsame : SameTables file file')

include hsame

/-- The relocations of the linkage table keep their home: it is that of each of them. -/
theorem SameTables.checkHomes_eq_ok {home : Option Nat} (h : checkHomes file segments = .ok home) :
    checkHomes file' segments = .ok home := by
  obtain ⟨hplaced, htogether, hhome⟩ := checkHomes_eq_ok_iff.mp h
  refine checkHomes_eq_ok_iff.mpr ⟨fun entry hentry => ?_, fun entry hentry => ?_, ?_⟩
  · exact hplaced entry
      (((hsame.rel.append hsame.rela).append hsame.plt).mem_iff.mpr hentry)
  · exact htogether entry (hsame.plt.mem_iff.mpr hentry)
  · cases hplt : file'.plt with
    | nil =>
      have hempty : file.plt = [] := List.Perm.eq_nil (hplt ▸ hsame.plt)
      rw [hhome, hempty]
    | cons first rest =>
      exact (htogether first (hsame.plt.mem_iff.mpr (hplt ▸ List.mem_cons_self))).symm

theorem SameTables.scheduleFrom_reordered (segments : List Segment) (home : Option Nat) (position : Nat) :
    (scheduleFrom file home position segments).Reordered
      (scheduleFrom file' home position segments) := by
  unfold scheduleFrom Schedule.Reordered
  rw [List.forall₂_map_left_iff, List.forall₂_map_right_iff, List.forall₂_same]
  rintro ⟨segment, i⟩ -
  refine ⟨rfl, ((hsame.rel.append hsame.rela).append ?_).filter _⟩
  split
  · exact hsame.plt
  · exact .nil

omit hsame in
theorem pairwise_of_mem_scheduleFrom {machine : Machine}
    (hapart : (file.rel ++ file.rela ++ file.plt).Pairwise (RelocationEntry.Apart machine))
    {home : Option Nat} {position : Nat} :
    ∀ part ∈ scheduleFrom file home position segments,
      part.2.Pairwise (RelocationEntry.Apart machine) := by
  intro part hpart
  obtain ⟨⟨segment, i⟩, -, rfl⟩ := List.mem_map.mp hpart
  refine (hapart.sublist ?_).filter _
  refine List.Sublist.append_left ?_ _
  split
  · exact List.Sublist.refl _
  · exact List.nil_sublist _

end Tables

/-- The draft with other tables of relocations. -/
def withTables (draft : Draft) (rel rela plt : List RelocationEntry) : Draft :=
  { draft with file := { draft.file with rel, rela, plt } }

/-- The order of the relocations in each table does not matter if they patch different cells. -/
theorem relocate_reordered (draft done : Draft) (modules : List Module) (app : Option Handle)
    (count : Nat) (rel rela plt : List RelocationEntry)
    (hapart : (draft.file.rel ++ draft.file.rela ++ draft.file.plt).Pairwise
      (RelocationEntry.Apart draft.file.machine))
    (h : draft.relocate modules app = .ok (done, count))
    (hrel : rel.Perm draft.file.rel) (hrela : rela.Perm draft.file.rela)
    (hplt : plt.Perm draft.file.plt) :
    (draft.withTables rel rela plt).relocate modules app =
      .ok (done.withTables rel rela plt, count) := by
  have hsame : SameTables draft.file (draft.withTables rel rela plt).file :=
    ⟨hrel.symm, hrela.symm, hplt.symm⟩
  cases hfind : Module.find? modules draft.handle with
  | none =>
    rw [relocate, hfind] at h
    cases h
  | some mod =>
    obtain ⟨home, staged, hhomes, hpass, rfl, rfl⟩ := (relocate_eq_ok_iff hfind).mp h
    have hreordered := hsame.scheduleFrom_reordered mod.segments home 0
    have hfind' : Module.find? modules (draft.withTables rel rela plt).handle = some mod := hfind
    refine (relocate_eq_ok_iff hfind').mpr ⟨home, staged, hsame.checkHomes_eq_ok hhomes, ?_,
      hreordered.size_eq, rfl⟩
    exact hpass.reorder hreordered (pairwise_of_mem_scheduleFrom hapart) rfl

/-- One segment of four words. -/
def fourWords : Module :=
  { twoWords with segments := [⟨0x1000, 16, 4, 6, ⟨0x5000, 16, 0⟩⟩] }

/-- A draft of an address, a call, and the two moves of an address into a register. -/
def ofFourWords (rel rela : List RelocationEntry) : Draft :=
  { (ofRelocations []).withTables rel rela [] with
    staged := [[0, 0x10, 0, 0, 0xfe, 0xff, 0xff, 0xeb, 0, 0, 0, 0xe3, 0, 0, 0x40, 0xe3]] }

/-- The address and the call change places in one table and the moves in the other. -/
theorem fields_reordered :
    let address : RelocationEntry := ⟨0x1000, 23, 0, none⟩
    let call : RelocationEntry := ⟨0x1004, 28, 0, none⟩
    let low : RelocationEntry := ⟨0x1008, 43, 0, some 0x60001234⟩
    let high : RelocationEntry := ⟨0x100c, 44, 0, some 0x60001234⟩
    (ofFourWords [call, address] [high, low]).relocate [fourWords] none =
      .ok ({ ofFourWords [call, address] [high, low] with
        staged := [[0, 0x50, 0, 0, 0xfd, 0xeb, 0xff, 0xeb, 0x34, 0x02, 0x01, 0xe3, 0, 0, 0x46, 0xe3]]
      }, 4) := by
  intro address call low high
  have hapart : [address, call, low, high].Pairwise (RelocationEntry.Apart .arm) := by decide
  have hrun : (ofFourWords [address, call] [low, high]).relocate [fourWords] none =
      .ok ({ ofFourWords [address, call] [low, high] with
        staged := [[0, 0x50, 0, 0, 0xfd, 0xeb, 0xff, 0xeb, 0x34, 0x02, 0x01, 0xe3, 0, 0, 0x46, 0xe3]]
      }, 4) := by
    decide +kernel
  exact relocate_reordered _ _ [fourWords] none 4 [call, address] [high, low] [] hapart hrun
    (by decide) (by decide) .nil

end Draft

end TargetLink
