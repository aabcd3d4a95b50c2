import TargetLink.Proofs.Reordering

/-!
# Relocations that do nothing

Some types of relocations, such as `R_ARM_NONE`, modify nothing.  Relocations of these types may be woven
into the tables of a module: what the other ones do, and whether they fail, stays the same
(`Draft.relocate_padded`).  They still take part in the checks that come before all relocations.  One that
lies in no segment, or that stands in the procedure linkage table and lies in another segment than the others
there, stops the module before its buffers are touched.
-/

namespace TargetLink

open LoadM (bind_apply)

/-! ## Lists with additions -/

/-- A list into which other elements were woven. -/
inductive Woven {α : Type} : (added own woven : List α) → Prop
  | nil : Woven [] [] []
  | own (a : α) {added own woven : List α} (h : Woven added own woven) : Woven added (a :: own) (a :: woven)
  | added (a : α) {added own woven : List α} (h : Woven added own woven) :
    Woven (a :: added) own (a :: woven)

namespace Woven

variable {α : Type} {added own woven added' own' woven' : List α} {a : α}

theorem mem_iff (h : Woven added own woven) : a ∈ woven ↔ a ∈ added ∨ a ∈ own := by
  induction h with
  | nil => simp
  | own b _ ih => rw [List.mem_cons, List.mem_cons, ih, or_left_comm]
  | added b _ ih => rw [List.mem_cons, List.mem_cons, ih, or_assoc]

theorem eq_of_nil (h : Woven [] own woven) : woven = own := by
  generalize hnone : ([] : List α) = added at h
  induction h with
  | nil => rfl
  | own a _ ih => rw [ih hnone]
  | added => cases hnone

theorem append (h : Woven added own woven) (h' : Woven added' own' woven') :
    Woven (added ++ added') (own ++ own') (woven ++ woven') := by
  induction h with
  | nil => exact h'
  | own a _ ih => exact .own a ih
  | added a _ ih => exact .added a ih

theorem filter (h : Woven added own woven) (p : α → Bool) :
    Woven (added.filter p) (own.filter p) (woven.filter p) := by
  induction h with
  | nil => exact .nil
  | own a _ ih =>
    rw [List.filter_cons, List.filter_cons]
    split
    · exact .own a ih
    · exact ih
  | added a _ ih =>
    rw [List.filter_cons, List.filter_cons]
    split
    · exact .added a ih
    · exact ih

/-- A search passes over what was added if it does not look for it. -/
theorem find?_eq (h : Woven added own woven) {p : α → Bool} (hadded : ∀ a ∈ added, p a = false) :
    woven.find? p = own.find? p := by
  induction h with
  | nil => rfl
  | own a _ ih => rw [List.find?_cons, List.find?_cons, ih hadded]
  | added a _ ih =>
    obtain ⟨hfirst, hrest⟩ := List.forall_mem_cons.mp hadded
    rw [List.find?_cons, hfirst, ih hrest]

end Woven

namespace Draft

/-! ## Counting inert relocations -/

/-- Counts with some more relocations that were applied. -/
def Counts.raise (count : Nat) (counts : Counts) : Counts :=
  { counts with applied := counts.applied + count }

/-- A run that has applied some more relocations. -/
def raised {σ : Type} (count : Nat) (run : Except LoadError Counts × σ) : Except LoadError Counts × σ :=
  (run.1.map (Counts.raise count), run.2)

section Steps

variable {linkage : Linkage} {segment : Segment} {counts : Counts} {entry : RelocationEntry}
  {block : Bytes} {count : Nat}

theorem stepInPlace_raise : linkage.stepInPlace segment (counts.raise count) entry block =
    raised count (linkage.stepInPlace segment counts entry block) := by
  simp only [Linkage.stepInPlace, bind_apply, LoadM.observe_apply]
  rcases linkage.applyInPlace segment entry block with ⟨e | ⟨⟩, block'⟩
  · cases e <;> rfl
  · dsimp only [LoadM.pure_apply, raised, Except.map, Counts.raise]
    rw [Nat.add_right_comm]

theorem stepInPlace_of_isInert (h : Relocation.isInert linkage.machine entry.type = true) :
    linkage.stepInPlace segment counts entry block = (.ok (counts.raise 1), block) := by
  simp only [Linkage.stepInPlace, bind_apply, LoadM.observe_apply, applyInPlace_apply,
    Linkage.apply_of_inert h]
  rfl

/-- Inert relocations among those of a segment are counted, and that is all. -/
theorem foldlM_stepInPlace_woven {added own woven : List RelocationEntry} (h : Woven added own woven)
    (hinert : ∀ entry ∈ added, Relocation.isInert linkage.machine entry.type = true) :
    woven.foldlM (linkage.stepInPlace segment) (counts.raise count) block =
      raised (added.length + count) (own.foldlM (linkage.stepInPlace segment) counts block) := by
  induction h generalizing counts count block with
  | nil => rw [List.length_nil, Nat.zero_add]; rfl
  | own entry _ ih =>
    rw [List.foldlM_cons, List.foldlM_cons, bind_apply, bind_apply, stepInPlace_raise]
    rcases linkage.stepInPlace segment counts entry block with ⟨e | counts', block'⟩
    · rfl
    · exact ih hinert
  | @added entry _ _ woven _ ih =>
    obtain ⟨hfirst, hrest⟩ := List.forall_mem_cons.mp hinert
    rw [List.foldlM_cons, bind_apply, stepInPlace_of_isInert hfirst, List.length_cons,
      Nat.succ_add_eq_add_succ]
    change woven.foldlM (linkage.stepInPlace segment) (counts.raise (count + 1)) block = _
    exact ih hrest

end Steps

/-! ## Padded tables -/

/-- Relocations for each table of a file. -/
structure Tables where
  rel : List RelocationEntry := []
  rela : List RelocationEntry := []
  plt : List RelocationEntry := []

def Tables.all (tables : Tables) : List RelocationEntry := tables.rel ++ tables.rela ++ tables.plt

/-- A file has the tables of another one with further relocations in them. -/
structure Padded (added : Tables) (file padded : ObjectFile) : Prop where
  machine : padded.machine = file.machine
  rel : Woven added.rel file.rel padded.rel
  rela : Woven added.rela file.rela padded.rela
  plt : Woven added.plt file.plt padded.plt

/-- Further relocations pass the checks that come before all relocations: each of them lies in a segment, and
one for the procedure linkage table lies where every other entry of that table lies. -/
structure Unobtrusive (segments : List Segment) (added : Tables) (plt : List RelocationEntry) : Prop where
  placed : ∀ entry ∈ added.all, ∃ segment ∈ segments, segment.containsLink entry.offset
  together : ∀ entry ∈ added.plt, ∀ other ∈ plt, homeOf? segments entry = homeOf? segments other

/-- Entries of the linkage table that have one home are not astray. -/
theorem find?_stray_eq_none {segments : List Segment} {plt : List RelocationEntry} {home : Option Nat}
    (h : ∀ entry ∈ plt, homeOf? segments entry = home) :
    (plt.find? fun entry => homeOf? segments entry ≠ plt.head?.bind (homeOf? segments)) = none ∧
      (plt.head?.bind (homeOf? segments) = home ∨ plt = []) := by
  cases plt with
  | nil => exact ⟨rfl, .inr rfl⟩
  | cons first rest =>
    have hhome : homeOf? segments first = home := h first List.mem_cons_self
    rw [List.head?_cons, Option.bind_some, hhome]
    refine ⟨List.find?_eq_none.mpr fun entry hentry hstray => ?_, .inl rfl⟩
    exact of_decide_eq_true hstray (h entry hentry)

section Padded

variable {added : Tables} {file padded : ObjectFile} {segments : List Segment}
  (hpadded : Padded added file padded)

include hpadded

theorem Padded.all : Woven added.all (file.rel ++ file.rela ++ file.plt)
    (padded.rel ++ padded.rela ++ padded.plt) :=
  (hpadded.rel.append hpadded.rela).append hpadded.plt

/-- The relocations of a segment are padded as well.  Where the procedure linkage table of the file is empty,
it does not matter which segment it belongs to. -/
theorem Padded.entriesOf_woven (segment : Segment) (holds holds' : Bool)
    (h : holds' = holds ∨ file.plt = []) : ∃ others,
      Woven others (entriesOf file segment holds) (entriesOf padded segment holds') ∧
      ∀ entry ∈ others, entry ∈ added.all := by
  have hplt : Woven (if holds' then added.plt else []) (if holds then file.plt else [])
      (if holds' then padded.plt else []) := by
    have hown : (if holds then file.plt else []) = if holds' then file.plt else [] := by
      rcases h with rfl | hempty
      · rfl
      · rw [hempty, ite_self, ite_self]
    rw [hown]
    split
    · exact hpadded.plt
    · exact .nil
  refine ⟨_, ((hpadded.rel.append hpadded.rela).append hplt).filter _, fun entry hentry => ?_⟩
  have hmem := (List.mem_filter.mp hentry).1
  rw [Tables.all]
  split at hmem
  · exact hmem
  · rw [List.append_nil] at hmem
    exact List.mem_append_left _ hmem

/-- Inert relocations do not change what the other ones do to the buffers. -/
theorem Padded.relocateEachInPlace_eq {linkage : Linkage}
    (hinert : ∀ entry ∈ added.all, Relocation.isInert linkage.machine entry.type = true)
    {home home' : Option Nat} (hhome : home' = home ∨ file.plt = []) (position : Nat)
    (segments : List Segment) (blocks : List Bytes) : ∃ count, ∀ counts more,
      relocateEachInPlace linkage padded home' position segments (counts.raise more) blocks =
        raised (count + more)
          (relocateEachInPlace linkage file home position segments counts blocks) := by
  induction segments generalizing position blocks with
  | nil => exact ⟨0, fun counts more => by rw [Nat.zero_add]; rfl⟩
  | cons segment segments ih =>
    cases blocks with
    | nil => exact ⟨0, fun counts more => by rw [Nat.zero_add]; rfl⟩
    | cons block blocks =>
      obtain ⟨others, hwoven, hothers⟩ := hpadded.entriesOf_woven segment (home = some position)
        (home' = some position) (hhome.imp_left fun heq => by rw [heq])
      obtain ⟨count, hrest⟩ := ih (position + 1) blocks
      refine ⟨count + others.length, fun counts more => ?_⟩
      have hfirst : (entriesOf padded segment (home' = some position)).foldlM
          (linkage.stepInPlace segment) (counts.raise more) block =
          raised (others.length + more) ((entriesOf file segment (home = some position)).foldlM
            (linkage.stepInPlace segment) counts block) :=
        foldlM_stepInPlace_woven hwoven fun entry hentry => hinert entry (hothers entry hentry)
      rw [relocateEachInPlace, relocateEachInPlace]
      simp only [bind_apply, LoadM.get_apply, LoadM.zoom_apply, hfirst]
      rcases (entriesOf file segment _).foldlM (linkage.stepInPlace segment) counts block with
        ⟨e | counts', block'⟩
      · rfl
      · dsimp only [raised, Except.map, List.tail]
        rw [hrest, Nat.add_assoc]
        rfl

/-- Relocations that pass the checks do not change what the checks come to. -/
theorem Padded.checkHomes_eq (h : Unobtrusive segments added padded.plt) :
    (∃ e, checkHomes file segments = .error e ∧ checkHomes padded segments = .error e) ∨
      ∃ home home', checkHomes file segments = .ok home ∧
        checkHomes padded segments = .ok home' ∧ (home' = home ∨ file.plt = []) := by
  have hplaced :
      (padded.rel ++ padded.rela ++ padded.plt).find? (fun entry => (homeOf? segments entry).isNone) =
        (file.rel ++ file.rela ++ file.plt).find? fun entry => (homeOf? segments entry).isNone := by
    refine hpadded.all.find?_eq fun entry hentry => ?_
    rw [← Option.not_isSome, homeOf?_isSome_iff.mpr (h.placed entry hentry)]
    rfl
  unfold checkHomes
  dsimp only
  rw [hplaced, hpadded.machine]
  split
  · exact .inl ⟨_, rfl, rfl⟩
  cases hadded : added.plt with
  | nil =>
    have hplt : padded.plt = file.plt := Woven.eq_of_nil (hadded ▸ hpadded.plt)
    rw [hplt]
    split
    · exact .inl ⟨_, rfl, rfl⟩
    · exact .inr ⟨_, _, rfl, rfl, .inl rfl⟩
  | cons first rest =>
    have hfirst : first ∈ added.plt := hadded ▸ List.mem_cons_self
    have htogether : ∀ entry ∈ padded.plt, homeOf? segments entry = homeOf? segments first :=
      fun entry hentry => (h.together first hfirst entry hentry).symm
    obtain ⟨hstray', hhome'⟩ := find?_stray_eq_none htogether
    obtain ⟨hstray, hhome⟩ := find?_stray_eq_none fun entry hentry =>
      htogether entry (hpadded.plt.mem_iff.mpr (.inr hentry))
    rw [hstray, hstray']
    refine .inr ⟨_, _, rfl, rfl, hhome.imp_left fun heq => ?_⟩
    exact (hhome'.resolve_right (List.ne_nil_of_mem (hpadded.plt.mem_iff.mpr (.inl hfirst)))).trans heq.symm

/-- Where the checks of a padded file succeed, the further relocations pass them. -/
theorem Padded.unobtrusive {home : Option Nat} (h : checkHomes padded segments = .ok home) :
    Unobtrusive segments added padded.plt := by
  obtain ⟨hplaced, htogether, -⟩ := checkHomes_eq_ok_iff.mp h
  refine ⟨fun entry hentry => ?_, fun entry hentry other hother => ?_⟩
  · exact homeOf?_isSome_iff.mp (hplaced entry (hpadded.all.mem_iff.mpr (.inl hentry)))
  · exact (htogether entry (hpadded.plt.mem_iff.mpr (.inl hentry))).trans (htogether other hother).symm

end Padded

theorem exists_relocation_of_checkHomes {file : ObjectFile} {segments : List Segment} {e : LoadError}
    (h : checkHomes file segments = .error e) : ∃ fault, e = .relocation fault := by
  unfold checkHomes at h
  dsimp only at h
  split at h
  · exact ⟨_, (Except.error.inj h).symm⟩
  · split at h
    · exact ⟨_, (Except.error.inj h).symm⟩
    · cases h

/-! ## Padded drafts -/

/-- Relocating a draft comes to what relocating its buffers comes to. -/
theorem relocate_eq_inPlace (draft : Draft) (modules : List Module) (app : Option Handle) :
    let run := draft.relocateInPlace modules app draft.staged
    draft.relocate modules app = run.1.map fun applied => ({ draft with staged := run.2 }, applied) := by
  have hagrees := relocateInPlace_agrees draft modules app
  cases hrelocate : draft.relocate modules app with
  | error e =>
    rw [hrelocate] at hagrees
    dsimp only
    rw [show (draft.relocateInPlace modules app draft.staged).1 = .error e from hagrees]
    rfl
  | ok answer =>
    obtain ⟨done, applied⟩ := answer
    rw [hrelocate] at hagrees
    have hrun : draft.relocateInPlace modules app draft.staged = (.ok applied, done.staged) := hagrees
    have hdone : done = { draft with staged := done.staged } := by
      cases hfind : Module.find? modules draft.handle with
      | none =>
        rw [relocate, hfind] at hrelocate
        cases hrelocate
      | some mod =>
        obtain ⟨_, staged, -, -, -, rfl⟩ := (relocate_eq_ok_iff hfind).mp hrelocate
        rfl
    dsimp only
    rw [hrun, Except.map, ← hdone]

section Run

variable {draft : Draft} {modules : List Module} {mod : Module}
  (hfind : Module.find? modules draft.handle = some mod) (app : Option Handle) (staged : List Bytes)

include hfind

/-- A draft whose relocations fail the checks fails before its buffers are touched. -/
theorem relocateInPlace_of_unhomed (hcount : staged.length = mod.segments.length)
    (hhomes : ∀ home, checkHomes draft.file mod.segments ≠ .ok home) :
    ∃ fault, draft.relocateInPlace modules app staged = (.error (.relocation fault), staged) := by
  rw [relocateInPlace_eq hfind, if_neg (not_not_intro hcount)]
  cases hcheck : checkHomes draft.file mod.segments with
  | ok home => exact absurd hcheck (hhomes home)
  | error e =>
    obtain ⟨fault, rfl⟩ := exists_relocation_of_checkHomes hcheck
    exact ⟨fault, rfl⟩

/-- Inert relocations that pass the checks only add to the count of those that were applied. -/
theorem Padded.run_eq {added : Tables} {rel rela plt : List RelocationEntry}
    (hpadded : Padded added draft.file (draft.withTables rel rela plt).file)
    (hinert : ∀ entry ∈ added.all, Relocation.isInert draft.file.machine entry.type = true)
    (hpasses : Unobtrusive mod.segments added plt) : ∃ count,
      (draft.withTables rel rela plt).relocateInPlace modules app staged =
        ((draft.relocateInPlace modules app staged).1.map (· + count),
          (draft.relocateInPlace modules app staged).2) := by
  have hfind' : Module.find? modules (draft.withTables rel rela plt).handle = some mod := hfind
  have hlinkage : (draft.withTables rel rela plt).linkage modules app mod = draft.linkage modules app mod :=
    rfl
  rw [relocateInPlace_eq hfind, relocateInPlace_eq hfind', hlinkage]
  split
  · exact ⟨0, rfl⟩
  rcases hpadded.checkHomes_eq hpasses with ⟨e, hown, hother⟩ | ⟨home, home', hown, hother, hhome⟩
  · rw [hown, hother]
    exact ⟨0, rfl⟩
  · have hinert' : ∀ entry ∈ added.all,
        Relocation.isInert (draft.linkage modules app mod).machine entry.type = true := hinert
    obtain ⟨count, heach⟩ := hpadded.relocateEachInPlace_eq hinert' hhome 0 mod.segments staged
    have hrun : relocateEachInPlace (draft.linkage modules app mod) (draft.withTables rel rela plt).file
        home' 0 mod.segments ⟨0, 0⟩ staged =
          raised count (relocateEachInPlace (draft.linkage modules app mod) draft.file home 0 mod.segments
            ⟨0, 0⟩ staged) := heach ⟨0, 0⟩ 0
    refine ⟨count, ?_⟩
    rw [hown, hother]
    dsimp only
    rw [hrun]
    rcases relocateEachInPlace (draft.linkage modules app mod) draft.file home 0 mod.segments ⟨0, 0⟩ staged
      with ⟨e | counts, staged'⟩
    · rfl
    · dsimp only [raised, Except.map, Except.bind, Counts.raise]
      split <;> rfl

end Run

/-- Relocations of inert types may be woven into the tables of a draft: as long as they pass the checks that
come before all relocations, they only add to the count of those that were applied.  Otherwise the draft fails
before its buffers are touched, as it does when its own relocations fail the checks. -/
theorem relocate_padded (draft : Draft) (modules : List Module) (app : Option Handle) (mod : Module)
    (hfind : Module.find? modules draft.handle = some mod) (added : Tables)
    (rel rela plt : List RelocationEntry)
    (hpadded : Padded added draft.file (draft.withTables rel rela plt).file)
    (hinert : ∀ entry ∈ added.all, Relocation.isInert draft.file.machine entry.type = true) :
    let padded := draft.withTables rel rela plt
    let run (draft : Draft) : Except LoadError Nat × List Bytes :=
      draft.relocateInPlace modules app draft.staged
    (Unobtrusive mod.segments added plt → ∃ count,
      run padded = ((run draft).1.map (· + count), (run draft).2) ∧
      padded.relocate modules app = (draft.relocate modules app).map fun (done, applied) =>
        (done.withTables rel rela plt, applied + count)) ∧
    (draft.staged.length ≠ mod.segments.length → run padded = run draft) ∧
    (¬Unobtrusive mod.segments added plt → draft.staged.length = mod.segments.length →
      (∃ fault, run padded = (.error (.relocation fault), draft.staged) ∧
        padded.relocate modules app = .error (.relocation fault)) ∧
      ((∀ home, checkHomes draft.file mod.segments ≠ .ok home) →
        ∃ fault, run draft = (.error (.relocation fault), draft.staged))) := by
  intro padded run
  have hfind' : Module.find? modules padded.handle = some mod := hfind
  have hanswer (other : Draft) : other.relocate modules app =
      (run other).1.map fun applied => ({ other with staged := (run other).2 }, applied) :=
    relocate_eq_inPlace other modules app
  refine ⟨fun hpasses => ?_, fun hcount => ?_, fun hbreaks hcount => ⟨?_, ?_⟩⟩
  · obtain ⟨count, hrun⟩ := hpadded.run_eq hfind app draft.staged hinert hpasses
    have hrun' : run padded = ((run draft).1.map (· + count), (run draft).2) := hrun
    refine ⟨count, hrun', ?_⟩
    rw [hanswer padded, hanswer draft, hrun']
    rcases run draft with ⟨e | applied, staged⟩
    · rfl
    · rfl
  · have hown := relocateInPlace_eq hfind app draft.staged
    have hother := relocateInPlace_eq hfind' app draft.staged
    rw [if_pos hcount] at hown hother
    exact hother.trans hown.symm
  · obtain ⟨fault, hrun⟩ := relocateInPlace_of_unhomed hfind' app draft.staged hcount fun home hhomes =>
      hbreaks (hpadded.unobtrusive hhomes)
    refine ⟨fault, hrun, ?_⟩
    rw [hanswer padded, show run padded = (.error (.relocation fault), draft.staged) from hrun]
    rfl
  · exact relocateInPlace_of_unhomed hfind app draft.staged hcount

/-- A word that is moved, among inert relocations of every table, and behind one that lies nowhere. -/
theorem relocate_padded_words :
    let draft := ofRelocations [⟨0x1000, 23, 0, none⟩]
    let run (draft : Draft) : Except LoadError Nat × List Bytes :=
      draft.relocateInPlace [twoWords] none draft.staged
    run draft = (.ok 1, [[0, 0x90, 0, 0], [0, 0x10, 0, 0]]) ∧
      (∃ count, run (draft.withTables [⟨0x2001, 0, 9, none⟩, ⟨0x1000, 23, 0, none⟩]
        [⟨0x1003, 40, 0, some 5⟩] [⟨0x2002, 0, 0, none⟩]) =
          ((run draft).1.map (· + count), (run draft).2)) ∧
      ∃ fault, run (draft.withTables [⟨0, 0, 0, none⟩, ⟨0x1000, 23, 0, none⟩] [] []) =
        (.error (.relocation fault), draft.staged) := by
  intro draft run
  have hwoven : Padded ⟨[⟨0x2001, 0, 9, none⟩], [⟨0x1003, 40, 0, some 5⟩], [⟨0x2002, 0, 0, none⟩]⟩
      draft.file (draft.withTables [⟨0x2001, 0, 9, none⟩, ⟨0x1000, 23, 0, none⟩]
        [⟨0x1003, 40, 0, some 5⟩] [⟨0x2002, 0, 0, none⟩]).file :=
    ⟨rfl, .added _ (.own _ .nil), .added _ .nil, .added _ .nil⟩
  have hlost : Padded ⟨[⟨0, 0, 0, none⟩], [], []⟩ draft.file
      (draft.withTables [⟨0, 0, 0, none⟩, ⟨0x1000, 23, 0, none⟩] [] []).file :=
    ⟨rfl, .added _ (.own _ .nil), .nil, .nil⟩
  have hbreaks : ¬Unobtrusive twoWords.segments ⟨[⟨0, 0, 0, none⟩], [], []⟩ [] := fun h =>
    absurd (h.placed ⟨0, 0, 0, none⟩ List.mem_cons_self) (by decide)
  obtain ⟨count, hrun, -⟩ := (relocate_padded draft [twoWords] none twoWords rfl _ _ _ _ hwoven
    (by decide)).1 ⟨by decide, by decide⟩
  obtain ⟨fault, hfault, -⟩ := ((relocate_padded draft [twoWords] none twoWords rfl _ _ _ _ hlost
    (by decide)).2.2 hbreaks rfl).1
  exact ⟨by decide +kernel, ⟨count, hrun⟩, fault, hfault⟩

/-- An inert relocation that lies in no segment stops a draft that was relocated without it, and so does one
of the procedure linkage table that lies in another segment than the other one there. -/
theorem inert_relocation_rejected :
    (let draft := ofRelocations [⟨0x1000, 23, 0, none⟩]
      let padded := draft.withTables [⟨0, 0, 0, none⟩, ⟨0x1000, 23, 0, none⟩] [] []
      Padded ⟨[⟨0, 0, 0, none⟩], [], []⟩ draft.file padded.file ∧ Relocation.isInert .arm 0 ∧
        draft.relocateInPlace [twoWords] none draft.staged =
          (.ok 1, [[0, 0x90, 0, 0], [0, 0x10, 0, 0]]) ∧
        padded.relocateInPlace [twoWords] none draft.staged =
          (.error (.relocation (.noSegment "R_ARM_NONE" 0)), draft.staged)) ∧
    (let draft := (ofRelocations []).withTables [] [] [⟨0x1000, 23, 0, none⟩]
      let padded := draft.withTables [] [] [⟨0x1000, 23, 0, none⟩, ⟨0x2000, 0, 0, none⟩]
      Padded ⟨[], [], [⟨0x2000, 0, 0, none⟩]⟩ draft.file padded.file ∧
        draft.relocateInPlace [twoWords] none draft.staged =
          (.ok 1, [[0, 0x90, 0, 0], [0, 0x10, 0, 0]]) ∧
        padded.relocateInPlace [twoWords] none draft.staged =
          (.error (.relocation (.strayPlt 0x2000)), draft.staged)) :=
  ⟨⟨⟨rfl, .added _ (.own _ .nil), .nil, .nil⟩, rfl, rfl, rfl⟩,
    ⟨rfl, .nil, .nil, .own _ (.added _ .nil)⟩, rfl, rfl⟩

end Draft

end TargetLink
