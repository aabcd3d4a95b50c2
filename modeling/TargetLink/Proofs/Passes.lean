import TargetLink.Module.RelocateInPlace
import TargetLink.Proofs.Failures
import TargetLink.Proofs.Patches

/-!
# Relocating is a pass over the segments

Relocating a draft is a pass over its segments, and in each segment a walk through the relocations whose
cells lie in it.  A walk applies a relocation or skips it for want of its symbol (`Walk`), and nothing
else: `foldlM_step_iff` reads the loop over one segment as a walk, `relocateFrom_iff` the loop over all
of them as a pass (`Pass`).  `relocate_eq_ok_iff` and `relocate_eq_unresolved_iff` say what a pass comes
to for the whole module.
-/

namespace TargetLink

namespace Draft

/-! ## One relocation -/

namespace Linkage

variable {linkage : Linkage} {segment : Segment} {entry : RelocationEntry}
  {entries : List RelocationEntry} {block before after : Bytes}

/-- Where a relocation patches its segment. -/
def site (linkage : Linkage) (segment : Segment) (entry : RelocationEntry) (block : Bytes) :
    Relocation.Site :=
  ⟨block, (entry.offset - segment.linkAddress).toNat, linkage.order⟩

/-- The addend of a relocation is its own, or stands in its cell. -/
def addendOf (linkage : Linkage) (segment : Segment) (entry : RelocationEntry) (block : Bytes) :
    Except LoadError Int32 :=
  match entry.addend with
  | some addend => .ok addend
  | none => Relocation.storedAddend linkage.machine entry.type (linkage.site segment entry block)

/-- A relocation is applied to the contents of a segment: it has nothing to do, or it patches its cell
for the place where the cell went. -/
inductive Applies (linkage : Linkage) (segment : Segment) (entry : RelocationEntry) (before : Bytes) :
    Bytes → Prop
  | inert (h : Relocation.isInert linkage.machine entry.type = true) :
    Applies linkage segment entry before before
  | patch {addend : Int32} {inputs : Relocation.Inputs} {after : Bytes}
    (hactive : Relocation.isInert linkage.machine entry.type = false)
    (haddend : linkage.addendOf segment entry before = .ok addend)
    (hinputs : linkage.inputs entry (entry.offset + segment.delta) addend = .ok inputs)
    (hpatch : Relocation.patch linkage.machine entry.type (linkage.site segment entry before) inputs =
      .ok after) :
    Applies linkage segment entry before after

/-- The symbol of a relocation has no value. -/
def LacksSymbol (linkage : Linkage) (entry : RelocationEntry) : Prop :=
  entry.symbol ≠ 0 ∧ ∃ fault, linkage.graph.resolve linkage.mod.policy linkage.mod.handle linkage.app
    linkage.symbols entry.symbol = .error (.symbolResolution fault)

/-- A relocation fails for want of its symbol: its type patches a cell and asks for a symbol, the addend
is there, and the symbol has no value. -/
structure Unresolved (linkage : Linkage) (segment : Segment) (entry : RelocationEntry)
    (block : Bytes) : Prop where
  active : Relocation.isInert linkage.machine entry.type = false
  addend : ∃ addend, linkage.addendOf segment entry block = .ok addend
  symbolic : Relocation.isRelative linkage.machine entry.type = false
  lacking : linkage.LacksSymbol entry

/-- The place of a cell is where its link-time address moves with the segment. -/
theorem place_eq (segment : Segment) (offset : UInt32) :
    segment.address + (offset - segment.linkAddress) = offset + segment.delta := by
  unfold Segment.delta
  grind

theorem apply_of_inert (h : Relocation.isInert linkage.machine entry.type = true) :
    linkage.apply segment block entry = .ok block := by
  rw [apply, h, if_pos rfl]
  rfl

/-- A relocation that is not inert takes three steps. -/
theorem apply_of_active (h : Relocation.isInert linkage.machine entry.type = false) :
    linkage.apply segment block entry = (do
      let addend ← linkage.addendOf segment entry block
      let inputs ← linkage.inputs entry (entry.offset + segment.delta) addend
      Relocation.patch linkage.machine entry.type (linkage.site segment entry block) inputs) := by
  rw [apply, h, if_neg Bool.false_ne_true, addendOf]
  dsimp only
  rw [place_eq]
  cases entry.addend with
  | some addend => rfl
  | none => rfl

theorem apply_eq_ok_iff :
    linkage.apply segment before entry = .ok after ↔ linkage.Applies segment entry before after := by
  cases hinert : Relocation.isInert linkage.machine entry.type with
  | true =>
    rw [apply_of_inert hinert]
    constructor
    · intro h
      obtain rfl := Except.ok.inj h
      exact .inert hinert
    · rintro (_ | ⟨hactive⟩)
      · rfl
      · rw [hinert] at hactive
        cases hactive
  | false =>
    rw [apply_of_active hinert]
    simp only [bind_eq_ok_iff]
    constructor
    · rintro ⟨addend, haddend, inputs, hinputs, hpatch⟩
      exact .patch hinert haddend hinputs hpatch
    · rintro (hother | ⟨-, haddend, hinputs, hpatch⟩)
      · rw [hinert] at hother
        cases hother
      · exact ⟨_, haddend, _, hinputs, hpatch⟩

/-- A symbol that cannot be resolved is the only fault of the operands. -/
theorem inputs_eq_error_iff {place : UInt32} {addend : Int32} {e : LoadError} :
    linkage.inputs entry place addend = .error e ↔
      Relocation.isRelative linkage.machine entry.type = false ∧ entry.symbol ≠ 0 ∧
        linkage.graph.resolve linkage.mod.policy linkage.mod.handle linkage.app linkage.symbols
          entry.symbol = .error e := by
  unfold Linkage.inputs
  dsimp only
  cases Relocation.isRelative linkage.machine entry.type with
  | true => simp [pure, Except.pure]
  | false =>
    by_cases hsymbol : entry.symbol = 0
    · simp [hsymbol, pure, Except.pure]
    · cases linkage.graph.resolve linkage.mod.policy linkage.mod.handle linkage.app linkage.symbols
        entry.symbol <;> simp [hsymbol, bind, Except.bind, pure, Except.pure]

theorem addendOf_ne_symbolResolution (fault : SymbolFault) :
    linkage.addendOf segment entry block ≠ .error (.symbolResolution fault) := by
  intro h
  unfold addendOf at h
  split at h
  · cases h
  · rcases Relocation.failsWith_storedAddend _ _ _ _ h with hrelocation | ⟨-, hinternal⟩
    · exact hrelocation
    · cases hinternal

theorem apply_eq_symbolResolution_iff :
    (∃ fault, linkage.apply segment block entry = .error (.symbolResolution fault)) ↔
      linkage.Unresolved segment entry block := by
  cases hinert : Relocation.isInert linkage.machine entry.type with
  | true =>
    rw [apply_of_inert hinert]
    constructor
    · rintro ⟨fault, h⟩
      cases h
    · rintro ⟨hactive, -, -, -⟩
      rw [hinert] at hactive
      cases hactive
  | false =>
    rw [apply_of_active hinert]
    simp only [bind_eq_error_iff, inputs_eq_error_iff]
    constructor
    · rintro ⟨fault, haddend | ⟨addend, haddend, hinputs | ⟨inputs, -, hpatch⟩⟩⟩
      · exact absurd haddend (addendOf_ne_symbolResolution fault)
      · exact ⟨hinert, ⟨addend, haddend⟩, hinputs.1, hinputs.2.1, fault, hinputs.2.2⟩
      · exact (Relocation.failsWith_patch _ _ _ _ _ hpatch).elim
    · rintro ⟨-, ⟨addend, haddend⟩, hsymbolic, hsymbol, fault, hresolve⟩
      exact ⟨fault, .inr ⟨addend, haddend, .inl ⟨hsymbolic, hsymbol, hresolve⟩⟩⟩

end Linkage

/-! ## The relocations of a segment -/

/-- Relocations are applied to the contents of a segment one after the other, but for some that lack
their symbol; the last argument counts these. -/
inductive Walk (linkage : Linkage) (segment : Segment) :
    List RelocationEntry → Bytes → Bytes → Nat → Prop
  | nil (block : Bytes) : Walk linkage segment [] block block 0
  | applied {entry : RelocationEntry} {entries : List RelocationEntry} {before middle after : Bytes}
    {count : Nat} (hfirst : linkage.Applies segment entry before middle)
    (hrest : Walk linkage segment entries middle after count) :
    Walk linkage segment (entry :: entries) before after count
  | skipped {entry : RelocationEntry} {entries : List RelocationEntry} {before after : Bytes}
    {count : Nat} (hfirst : linkage.Unresolved segment entry before)
    (hrest : Walk linkage segment entries before after count) :
    Walk linkage segment (entry :: entries) before after (count + 1)

variable {linkage : Linkage} {segment : Segment} {entry : RelocationEntry}
  {entries : List RelocationEntry}

theorem Walk.count_le {before after : Bytes} {count : Nat}
    (h : Walk linkage segment entries before after count) : count ≤ entries.length := by
  induction h with
  | nil => exact Nat.le_refl 0
  | applied _ _ ih => exact Nat.le_succ_of_le ih
  | skipped _ _ ih => exact Nat.succ_le_succ ih

theorem step_eq_ok_iff {tally tally' : Tally} :
    tally.step linkage segment entry = .ok tally' ↔
      linkage.Applies segment entry tally.block tally'.block ∧
          tally'.applied = tally.applied + 1 ∧ tally'.unresolved = tally.unresolved ∨
        linkage.Unresolved segment entry tally.block ∧
          tally' = { tally with unresolved := tally.unresolved + 1 } := by
  obtain ⟨block', applied', unresolved'⟩ := tally'
  rw [← Linkage.apply_eq_ok_iff, ← Linkage.apply_eq_symbolResolution_iff]
  unfold Tally.step
  split
  case h_1 happly =>
    simp [happly, eq_comm]
  case h_2 fault happly =>
    simp [happly, eq_comm]
  case h_3 e hother happly =>
    simp only [happly]
    constructor
    · nofun
    · rintro (⟨⟨⟩, -⟩ | ⟨⟨fault, hfault⟩, -⟩)
      exact (hother fault (Except.error.inj hfault)).elim

/-- The loop over the relocations of a segment is a walk. -/
theorem foldlM_step_iff {tally tally' : Tally} :
    entries.foldlM (Tally.step linkage segment) tally = .ok tally' ↔
      ∃ count, Walk linkage segment entries tally.block tally'.block count ∧
        tally'.unresolved = tally.unresolved + count ∧
        tally'.applied + count = tally.applied + entries.length := by
  induction entries generalizing tally with
  | nil =>
    constructor
    · intro h
      obtain rfl := Except.ok.inj h
      exact ⟨0, .nil _, rfl, rfl⟩
    · rintro ⟨count, hwalk, hunresolved, happlied⟩
      obtain ⟨block, applied, unresolved⟩ := tally
      obtain ⟨block', applied', unresolved'⟩ := tally'
      cases hwalk
      obtain rfl : unresolved' = unresolved := hunresolved
      obtain rfl : applied' = applied := happlied
      rfl
  | cons entry entries ih =>
    rw [List.foldlM_cons, bind_eq_ok_iff]
    simp only [ih, step_eq_ok_iff, List.length_cons]
    constructor
    · rintro ⟨middle, hstep, count, hwalk, hunresolved, happlied⟩
      rcases hstep with ⟨hfirst, happlied', hunresolved'⟩ | ⟨hfirst, rfl⟩
      · exact ⟨count, .applied hfirst hwalk, by omega, by omega⟩
      · exact ⟨count + 1, .skipped hfirst hwalk, by dsimp only at *; omega, by dsimp only at *; omega⟩
    · rintro ⟨count, hwalk, hunresolved, happlied⟩
      cases hwalk with
      | @applied _ _ _ middle _ _ hfirst hrest =>
        exact ⟨⟨middle, tally.applied + 1, tally.unresolved⟩, .inl ⟨hfirst, rfl, rfl⟩, count, hrest,
          hunresolved, by dsimp only; omega⟩
      | @skipped _ _ _ _ count hfirst hrest =>
        exact ⟨{ tally with unresolved := tally.unresolved + 1 }, .inr ⟨hfirst, rfl⟩, count, hrest,
          by dsimp only; omega, by dsimp only; omega⟩

/-! ## All segments -/

/-- The relocations of every segment, in order. -/
abbrev Schedule := List (Segment × List RelocationEntry)

/-- How many relocations a schedule has. -/
def Schedule.size (schedule : Schedule) : Nat := (schedule.flatMap (·.2)).length

theorem Schedule.size_cons (segment : Segment) (entries : List RelocationEntry) (schedule : Schedule) :
    Schedule.size ((segment, entries) :: schedule) = entries.length + schedule.size := by
  rw [size, List.flatMap_cons, List.length_append]
  rfl

/-- A walk in each segment; the last argument counts the relocations that lack their symbol. -/
inductive Pass (linkage : Linkage) : Schedule → List Bytes → List Bytes → Nat → Prop
  | nil : Pass linkage [] [] [] 0
  | cons {segment : Segment} {entries : List RelocationEntry} {schedule : Schedule}
    {before after : Bytes} {blocks blocks' : List Bytes} {count others : Nat}
    (hwalk : Walk linkage segment entries before after count)
    (hrest : Pass linkage schedule blocks blocks' others) :
    Pass linkage ((segment, entries) :: schedule) (before :: blocks) (after :: blocks')
      (count + others)

theorem Pass.length {schedule : Schedule} {blocks blocks' : List Bytes} {count : Nat}
    (h : Pass linkage schedule blocks blocks' count) : blocks.length = schedule.length := by
  induction h with
  | nil => rfl
  | cons _ _ ih => rw [List.length_cons, List.length_cons, ih]

theorem Pass.count_le {schedule : Schedule} {blocks blocks' : List Bytes} {count : Nat}
    (h : Pass linkage schedule blocks blocks' count) : count ≤ schedule.size := by
  induction h with
  | nil => exact Nat.le_refl 0
  | @cons _ entries schedule _ _ _ _ _ _ hwalk _ ih =>
    rw [Schedule.size_cons]
    exact Nat.add_le_add hwalk.count_le ih

/-- The relocations of the segments from a position on, as they are applied. -/
def scheduleFrom (file : ObjectFile) (pltHome : Option Nat) (position : Nat)
    (segments : List Segment) : Schedule :=
  (segments.zipIdx position).map fun (segment, position) =>
    (segment, entriesOf file segment (pltHome = some position))

theorem scheduleFrom_cons (file : ObjectFile) (pltHome : Option Nat) (position : Nat)
    (segment : Segment) (segments : List Segment) :
    scheduleFrom file pltHome position (segment :: segments) =
      (segment, entriesOf file segment (pltHome = some position)) ::
        scheduleFrom file pltHome (position + 1) segments := by
  rw [scheduleFrom, List.zipIdx_cons, List.map_cons]
  rfl

/-- The loop over the segments is a pass. -/
theorem relocateFrom_iff {file : ObjectFile} {pltHome : Option Nat} {position : Nat}
    {segments : List Segment} {blocks blocks' : List Bytes} {applied unresolved : Nat}
    {totals : Nat × Nat} (hlength : blocks.length = segments.length) :
    relocateFrom linkage file pltHome position segments blocks applied unresolved =
        .ok (blocks', totals) ↔
      ∃ count, Pass linkage (scheduleFrom file pltHome position segments) blocks blocks' count ∧
        totals.2 = unresolved + count ∧
        totals.1 + count = applied + (scheduleFrom file pltHome position segments).size := by
  induction segments generalizing position blocks blocks' applied unresolved with
  | nil =>
    obtain rfl := List.eq_nil_of_length_eq_zero hlength
    obtain ⟨applied', unresolved'⟩ := totals
    constructor
    · intro h
      obtain ⟨rfl, htotals⟩ := Prod.mk.inj (Except.ok.inj h)
      obtain ⟨rfl, rfl⟩ := Prod.mk.inj htotals
      exact ⟨0, .nil, rfl, rfl⟩
    · rintro ⟨count, hpass, hunresolved, happlied⟩
      cases hpass
      obtain rfl : unresolved' = unresolved := hunresolved
      obtain rfl : applied' = applied := happlied
      rfl
  | cons segment segments ih =>
    obtain ⟨block, blocks, rfl⟩ := List.exists_cons_of_length_eq_add_one hlength
    have hlength' : blocks.length = segments.length := Nat.succ.inj hlength
    rw [relocateFrom, scheduleFrom_cons]
    simp only [bind_eq_ok_iff, foldlM_step_iff, Schedule.size_cons]
    constructor
    · rintro ⟨tally, ⟨count, hwalk, hunresolved, happlied⟩, ⟨rest, totals'⟩, hfrom, h⟩
      obtain ⟨rfl, rfl⟩ := Prod.mk.inj (Except.ok.inj h)
      obtain ⟨others, hpass, hunresolved', happlied'⟩ := (ih hlength').mp hfrom
      exact ⟨count + others, .cons hwalk hpass, by omega, by omega⟩
    · rintro ⟨total, hpass, hunresolved, happlied⟩
      cases hpass with
      | @cons _ _ _ _ after _ rest count others hwalk hrest =>
        have hcount := hwalk.count_le
        refine ⟨⟨after, applied + (entriesOf file segment (pltHome = some position)).length - count,
          unresolved + count⟩, ⟨count, hwalk, rfl, by dsimp only; omega⟩, (rest, totals),
          (ih hlength').mpr ⟨others, hrest, by dsimp only; omega, by dsimp only; omega⟩, rfl⟩

/-! ## The whole module -/

variable {file : ObjectFile} {segments : List Segment}

/-- The check of the homes succeeds if every relocation has a home, and those of the procedure linkage
table all have that of the first one. -/
theorem checkHomes_eq_ok_iff {home : Option Nat} :
    checkHomes file segments = .ok home ↔
      (∀ entry ∈ file.rel ++ file.rela ++ file.plt, (homeOf? segments entry).isSome) ∧
        (∀ entry ∈ file.plt, homeOf? segments entry = home) ∧
        home = file.plt.head?.bind (homeOf? segments) := by
  unfold checkHomes
  dsimp only
  split
  case h_1 entry hlost =>
    have hnone := List.find?_some hlost
    refine ⟨nofun, fun ⟨hplaced, _⟩ => ?_⟩
    have hsome := hplaced entry (List.mem_of_find?_eq_some hlost)
    rw [Option.isNone_iff_eq_none.mp hnone] at hsome
    cases hsome
  case h_2 hfound =>
    have hplaced : ∀ entry ∈ file.rel ++ file.rela ++ file.plt, (homeOf? segments entry).isSome := by
      intro entry hentry
      have hsome := List.find?_eq_none.mp hfound entry hentry
      rwa [Bool.not_eq_true, Option.isNone_eq_false_iff] at hsome
    split
    case h_1 stray hstray =>
      have hstop := List.find?_some hstray
      have haway := of_decide_eq_true hstop
      refine ⟨nofun, fun ⟨_, htogether, hhome⟩ => ?_⟩
      exact absurd ((htogether stray (List.mem_of_find?_eq_some hstray)).trans hhome) haway
    case h_2 hnone =>
      have htogether : ∀ entry ∈ file.plt,
          homeOf? segments entry = file.plt.head?.bind (homeOf? segments) := by
        intro entry hentry
        have hsame := List.find?_eq_none.mp hnone entry hentry
        exact not_not.mp (mt decide_eq_true hsame)
      constructor
      · intro h
        obtain rfl := Except.ok.inj h
        exact ⟨hplaced, htogether, rfl⟩
      · rintro ⟨-, -, rfl⟩
        rfl

/-- Relocations that lack their symbol do not end the loop over the segments. -/
theorem relocateFrom_ne_symbolResolution {home : Option Nat} {position : Nat} {blocks : List Bytes}
    {applied unresolved : Nat} : FailsWith (fun e => ∀ fault, e ≠ .symbolResolution fault)
      (relocateFrom linkage file home position segments blocks applied unresolved) := by
  induction segments generalizing position blocks applied unresolved with
  | nil => exact FailsWith.ok
  | cons segment segments ih =>
    cases blocks with
    | nil => exact FailsWith.ok
    | cons block blocks =>
      refine (FailsWith.foldlM fun tally entry _ => ?_).bind fun tally _ =>
        ih.bind fun _ _ => FailsWith.pure
      unfold Tally.step
      split
      · exact FailsWith.ok
      · exact FailsWith.ok
      case h_3 hother _ => exact FailsWith.error fun fault he => hother fault he

/-- What a pass over a draft comes to. -/
def verdict (draft : Draft) (mod : Module) (applied : Nat) (staged : List Bytes) (count : Nat) :
    Except LoadError (Draft × Nat) :=
  if count > 0 then .error (.symbolResolution (.unresolvedReferences count mod.name))
  else .ok ({ draft with staged }, applied)

section Relocate

variable {draft done : Draft} {modules : List Module} {app : Option Handle} {mod : Module}
  (hfind : Module.find? modules draft.handle = some mod)

include hfind

theorem relocate_eq : draft.relocate modules app =
    if draft.staged.length ≠ mod.segments.length then
      .error (.internal (.stagedCount mod.name draft.staged.length mod.segments.length))
    else (do
      let home ← checkHomes draft.file mod.segments
      let (staged, applied, unresolved) ←
        relocateFrom (draft.linkage modules app mod) draft.file home 0 mod.segments draft.staged 0 0
      draft.verdict mod applied staged unresolved) := by
  unfold relocate verdict
  rw [hfind]
  rfl

/-- Relocating a draft is a pass, unless it fails for another reason than for want of symbols. -/
theorem relocate_eq_iff {answer : Except LoadError (Draft × Nat)}
    (hanswer : FailsWith (fun e => ∃ fault, e = .symbolResolution fault) answer) :
    draft.relocate modules app = answer ↔
      ∃ home staged count, checkHomes draft.file mod.segments = .ok home ∧
        Pass (draft.linkage modules app mod) (scheduleFrom draft.file home 0 mod.segments)
          draft.staged staged count ∧
        answer = draft.verdict mod
          ((scheduleFrom draft.file home 0 mod.segments).size - count) staged count := by
  rw [relocate_eq hfind]
  constructor
  · rintro rfl
    split at hanswer
    case isTrue =>
      obtain ⟨fault, hfault⟩ := hanswer _ rfl
      cases hfault
    case isFalse hlength =>
      rw [if_neg hlength]
      cases hhomes : checkHomes draft.file mod.segments with
      | error e =>
        obtain ⟨fault, rfl⟩ := hanswer e (bind_eq_error_iff.mpr (.inl hhomes))
        exact (failsWith_checkHomes _ _ _ hhomes).elim
      | ok home =>
        cases hfrom : relocateFrom (draft.linkage modules app mod) draft.file home 0 mod.segments
          draft.staged 0 0 with
        | error e =>
          obtain ⟨fault, rfl⟩ := hanswer e
            (bind_eq_error_iff.mpr (.inr ⟨home, hhomes, bind_eq_error_iff.mpr (.inl hfrom)⟩))
          exact absurd rfl (relocateFrom_ne_symbolResolution _ hfrom fault)
        | ok result =>
          obtain ⟨staged, applied, unresolved⟩ := result
          obtain ⟨count, hpass, hunresolved, happlied⟩ :=
            (relocateFrom_iff (not_not.mp hlength)).mp hfrom
          obtain rfl : unresolved = count := by simpa using hunresolved
          obtain rfl : applied = (scheduleFrom draft.file home 0 mod.segments).size - unresolved := by
            dsimp only at happlied
            omega
          refine ⟨home, staged, unresolved, rfl, hpass, ?_⟩
          simp only [bind, Except.bind, hfrom]
  · rintro ⟨home, staged, count, hhomes, hpass, rfl⟩
    have hlength : draft.staged.length = mod.segments.length := by
      rw [hpass.length, scheduleFrom, List.length_map, List.length_zipIdx]
    have hcount := hpass.count_le
    have hfrom : relocateFrom (draft.linkage modules app mod) draft.file home 0 mod.segments
        draft.staged 0 0 =
        .ok (staged, (scheduleFrom draft.file home 0 mod.segments).size - count, count) :=
      (relocateFrom_iff hlength).mpr
        ⟨count, hpass, (Nat.zero_add count).symm, by dsimp only; omega⟩
    rw [if_neg (not_not_intro hlength), hhomes]
    simp only [bind, Except.bind, hfrom]

theorem relocate_eq_ok_iff {count : Nat} :
    draft.relocate modules app = .ok (done, count) ↔
      ∃ home staged, checkHomes draft.file mod.segments = .ok home ∧
        Pass (draft.linkage modules app mod) (scheduleFrom draft.file home 0 mod.segments)
          draft.staged staged 0 ∧
        count = (scheduleFrom draft.file home 0 mod.segments).size ∧
        done = { draft with staged } := by
  rw [relocate_eq_iff hfind FailsWith.ok]
  constructor
  · rintro ⟨home, staged, unresolved, hhomes, hpass, hverdict⟩
    unfold verdict at hverdict
    split at hverdict
    case isTrue => cases hverdict
    case isFalse hnone =>
      obtain rfl : unresolved = 0 := by omega
      obtain ⟨rfl, rfl⟩ := Prod.mk.inj (Except.ok.inj hverdict)
      exact ⟨home, staged, hhomes, hpass, rfl, rfl⟩
  · rintro ⟨home, staged, hhomes, hpass, rfl, rfl⟩
    exact ⟨home, staged, 0, hhomes, hpass, rfl⟩

theorem relocate_eq_unresolved_iff {fault : SymbolFault} :
    draft.relocate modules app = .error (.symbolResolution fault) ↔
      ∃ home staged count, checkHomes draft.file mod.segments = .ok home ∧ 0 < count ∧
        Pass (draft.linkage modules app mod) (scheduleFrom draft.file home 0 mod.segments)
          draft.staged staged count ∧
        fault = .unresolvedReferences count mod.name := by
  rw [relocate_eq_iff hfind (FailsWith.error ⟨fault, rfl⟩)]
  constructor
  · rintro ⟨home, staged, count, hhomes, hpass, hverdict⟩
    unfold verdict at hverdict
    split at hverdict
    case isTrue hsome =>
      obtain rfl := LoadError.symbolResolution.inj (Except.error.inj hverdict)
      exact ⟨home, staged, count, hhomes, hsome, hpass, rfl⟩
    case isFalse => cases hverdict
  · rintro ⟨home, staged, count, hhomes, hsome, hpass, rfl⟩
    refine ⟨home, staged, count, hhomes, hpass, ?_⟩
    rw [verdict, if_pos hsome]

end Relocate

end Draft

end TargetLink
