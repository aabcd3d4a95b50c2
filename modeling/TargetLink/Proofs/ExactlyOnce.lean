import TargetLink.Proofs.Homes
import TargetLink.Proofs.InPlace

/-!
# Every relocation is applied once

`relocate_exactly_once` puts together what relocating a draft comes to.  A loader that keeps one buffer
for each segment ends in the same way (`relocateInPlace_agrees`): a relocation in place stores all or
nothing, and the homes are checked before the first one.
-/

namespace TargetLink

namespace Draft

/-! ## In place -/

section InPlace

variable {α β σ τ υ ρ : Type}

/-- A run in place ends like the answer that is given at once. What it leaves of the buffers when it
fails is not said. -/
def Agrees (view : τ → α × σ) (answer : Except LoadError τ) (run : Except LoadError α × σ) : Prop :=
  match answer with
  | .ok t => run = (.ok (view t).1, (view t).2)
  | .error e => run.1 = .error e

variable {view : τ → α × σ} {view' : υ → β × σ} {answer : Except LoadError τ} {step : LoadM σ α} {s : σ}

theorem Agrees.bind {next : α → LoadM σ β} {answer' : τ → Except LoadError υ}
    (h : Agrees view answer (step s))
    (hnext : ∀ t, answer = .ok t → Agrees view' (answer' t) (next (view t).1 (view t).2)) :
    Agrees view' (answer >>= answer') ((step >>= next) s) := by
  rw [LoadM.bind_apply]
  rcases hrun : step s with ⟨result, s'⟩
  rw [hrun] at h
  cases answer with
  | error e =>
    obtain rfl : result = .error e := h
    rfl
  | ok t =>
    obtain ⟨rfl, rfl⟩ := Prod.mk.inj h
    exact hnext t rfl

/-- A check that leaves the buffers alone. -/
theorem Agrees.ofExcept (answer : Except LoadError α) (s : σ) :
    Agrees (·, s) answer ((MonadExcept.ofExcept answer : LoadM σ α) s) := by
  rw [LoadM.ofExcept_apply]
  cases answer <;> rfl

theorem Agrees.zoom (part : ρ → σ) (replace : σ → ρ → ρ) {r : ρ}
    (h : Agrees view answer (step (part r))) :
    Agrees (fun t => ((view t).1, replace (view t).2 r)) answer (step.zoom part replace r) := by
  rw [LoadM.zoom_apply]
  rcases hrun : step (part r) with ⟨result, s'⟩
  rw [hrun] at h
  cases answer with
  | error e => exact h
  | ok t =>
    obtain ⟨rfl, rfl⟩ := Prod.mk.inj h
    rfl

theorem Agrees.map (f : τ → υ) {run : Except LoadError β × σ} {view : υ → β × σ}
    (h : Agrees (fun t => view (f t)) answer run) :
    Agrees view (answer >>= fun t => pure (f t)) run := by
  cases answer with
  | error e => exact h
  | ok t => exact h

end InPlace

theorem applyInPlace_apply (linkage : Linkage) (segment : Segment) (entry : RelocationEntry)
    (block : Bytes) : linkage.applyInPlace segment entry block =
      Relocation.settle block (linkage.apply segment block entry) := by
  cases hinert : Relocation.isInert linkage.machine entry.type with
  | true =>
    rw [Linkage.apply_of_inert hinert, Linkage.applyInPlace, if_pos hinert]
    rfl
  | false =>
    rw [Linkage.apply_of_active hinert, Linkage.applyInPlace, hinert, if_neg Bool.false_ne_true,
      LoadM.bind_apply, LoadM.get_apply, Linkage.place_eq]
    refine Relocation.settle_bind fun addend _ => ?_
    refine Relocation.settle_bind fun inputs _ => ?_
    exact Relocation.patchInPlace_eq _ _ _ _ _ _

def Tally.view (tally : Tally) : Counts × Bytes := (⟨tally.applied, tally.unresolved⟩, tally.block)

theorem stepInPlace_agrees (linkage : Linkage) (segment : Segment) (entry : RelocationEntry)
    (tally : Tally) :
    Agrees Tally.view (tally.step linkage segment entry)
      (linkage.stepInPlace segment tally.view.1 entry tally.block) := by
  rw [Linkage.stepInPlace, LoadM.bind_apply, LoadM.observe_apply, applyInPlace_apply]
  unfold Tally.step
  cases happly : linkage.apply segment tally.block entry with
  | ok block => rfl
  | error e => cases e <;> rfl

theorem foldlM_stepInPlace_agrees (linkage : Linkage) (segment : Segment)
    (entries : List RelocationEntry) (tally : Tally) :
    Agrees Tally.view (entries.foldlM (Tally.step linkage segment) tally)
      (entries.foldlM (linkage.stepInPlace segment) tally.view.1 tally.block) := by
  induction entries generalizing tally with
  | nil => rfl
  | cons entry entries ih =>
    rw [List.foldlM_cons, List.foldlM_cons]
    exact (stepInPlace_agrees linkage segment entry tally).bind fun tally' _ => ih tally'

theorem relocateEachInPlace_agrees (linkage : Linkage) (file : ObjectFile) (home : Option Nat)
    (position : Nat) (segments : List Segment) (blocks : List Bytes) (counts : Counts) :
    Agrees (fun (blocks, applied, unresolved) => ((⟨applied, unresolved⟩ : Counts), blocks))
      (relocateFrom linkage file home position segments blocks counts.applied counts.unresolved)
      (relocateEachInPlace linkage file home position segments counts blocks) := by
  induction segments generalizing position blocks counts with
  | nil => rfl
  | cons segment segments ih =>
    cases blocks with
    | nil => rfl
    | cons block blocks =>
      rw [relocateFrom, relocateEachInPlace, LoadM.bind_apply, LoadM.get_apply]
      have hsegment := foldlM_stepInPlace_agrees linkage segment
        (entriesOf file segment (home = some position)) ⟨block, counts.applied, counts.unresolved⟩
      refine Agrees.bind (hsegment.zoom (fun _ => block) (fun block _ => block :: blocks))
        fun tally _ => ?_
      have hrest := (ih (position + 1) blocks ⟨tally.applied, tally.unresolved⟩).zoom List.tail
        (fun rest buffers => buffers.take 1 ++ rest) (r := tally.block :: blocks)
      exact Agrees.map (fun (rest : List Bytes × Nat × Nat) => (tally.block :: rest.1, rest.2)) hrest

/-- Relocating the buffers comes to the same as relocating the draft. -/
theorem relocateInPlace_agrees (draft : Draft) (modules : List Module) (app : Option Handle) :
    Agrees (fun (done, count) => (count, done.staged)) (draft.relocate modules app)
      (draft.relocateInPlace modules app draft.staged) := by
  cases hfind : Module.find? modules draft.handle with
  | none =>
    rw [relocate, relocateInPlace, hfind]
    rfl
  | some mod =>
    rw [relocate_eq hfind, relocateInPlace, hfind]
    dsimp only
    rw [LoadM.bind_apply, LoadM.get_apply]
    dsimp only
    split
    case isTrue => rfl
    case isFalse =>
      refine Agrees.bind (Agrees.ofExcept (checkHomes draft.file mod.segments) draft.staged)
        fun home _ => ?_
      refine (relocateEachInPlace_agrees (draft.linkage modules app mod) draft.file home 0 mod.segments
        draft.staged ⟨0, 0⟩).bind fun (staged, applied, unresolved) _ => ?_
      unfold verdict
      dsimp only
      split
      · rfl
      · rfl

section Run

variable {draft : Draft} {modules : List Module} {mod : Module}
  (hfind : Module.find? modules draft.handle = some mod) (app : Option Handle) (staged : List Bytes)

include hfind

/-- A run of a module: the checks, then the segments one after the other. -/
theorem relocateInPlace_eq : draft.relocateInPlace modules app staged =
    if staged.length ≠ mod.segments.length then
      (.error (.internal (.stagedCount mod.name staged.length mod.segments.length)), staged)
    else match checkHomes draft.file mod.segments with
      | .error e => (.error e, staged)
      | .ok home =>
        let run :=
          relocateEachInPlace (draft.linkage modules app mod) draft.file home 0 mod.segments ⟨0, 0⟩ staged
        (run.1.bind fun counts =>
          if counts.unresolved > 0 then
            .error (.symbolResolution (.unresolvedReferences counts.unresolved mod.name))
          else .ok counts.applied, run.2) := by
  rw [relocateInPlace, hfind]
  dsimp only
  rw [LoadM.bind_apply, LoadM.get_apply]
  dsimp only
  split
  · rfl
  · rw [LoadM.bind_apply, LoadM.ofExcept_apply]
    cases checkHomes draft.file mod.segments with
    | error e => rfl
    | ok home =>
      dsimp only
      rw [LoadM.bind_apply]
      rcases relocateEachInPlace (draft.linkage modules app mod) draft.file home 0 mod.segments ⟨0, 0⟩ staged
        with ⟨e | counts, staged'⟩
      · rfl
      · dsimp only [Except.bind]
        split <;> rfl

/-- A relocation without a home fails before the first buffer is patched. -/
theorem relocateInPlace_of_checkHomes {e : LoadError}
    (hhomes : checkHomes draft.file mod.segments = .error e) :
    ∃ e, draft.relocateInPlace modules app staged = (.error e, staged) := by
  rw [relocateInPlace_eq hfind, hhomes]
  split <;> exact ⟨_, rfl⟩

end Run

/-! ## Each once -/

/-- A draft whose segments stand apart is relocated by applying each of its relocations once, in the
segment that holds its cell, or it is not relocated.

If nothing but symbols is lacking, the answer is how many relocations lack theirs.  A relocation without
a home leaves the buffers as they are. -/
theorem relocate_exactly_once (draft : Draft) (modules : List Module) (app : Option Handle)
    (mod : Module) (hfind : Module.find? modules draft.handle = some mod)
    (hapart : mod.segments.Pairwise Segment.LinkApart) :
    (∀ done count, draft.relocate modules app = .ok (done, count) ↔
      Homed draft.file mod.segments ∧
        count = (draft.file.rel ++ draft.file.rela ++ draft.file.plt).length ∧
        ∃ staged, Pass (draft.linkage modules app mod) (schedule draft.file mod.segments)
          draft.staged staged 0 ∧ done = { draft with staged }) ∧
    (∀ fault, draft.relocate modules app = .error (.symbolResolution fault) ↔
      Homed draft.file mod.segments ∧ ∃ count staged, 0 < count ∧
        Pass (draft.linkage modules app mod) (schedule draft.file mod.segments)
          draft.staged staged count ∧ fault = .unresolvedReferences count mod.name) ∧
    (Homed draft.file mod.segments →
      ((schedule draft.file mod.segments).flatMap (·.2)).Perm
        (draft.file.rel ++ draft.file.rela ++ draft.file.plt)) ∧
    Agrees (fun (done, count) => (count, done.staged)) (draft.relocate modules app)
      (draft.relocateInPlace modules app draft.staged) ∧
    (¬Homed draft.file mod.segments →
      ∃ e, draft.relocateInPlace modules app draft.staged = (.error e, draft.staged)) := by
  have hperm (hhomed : Homed draft.file mod.segments) :
      ((schedule draft.file mod.segments).flatMap (·.2)).Perm
        (draft.file.rel ++ draft.file.rela ++ draft.file.plt) := by
    rw [schedule, List.flatMap_map]
    exact flatMap_filter_perm hapart hhomed.placed
  refine ⟨fun done count => ?_, fun fault => ?_, hperm, relocateInPlace_agrees draft modules app,
    fun hlost => ?_⟩
  · rw [relocate_eq_ok_iff hfind]
    constructor
    · rintro ⟨home, staged, hhomes, hpass, hcount, hdone⟩
      have hhomed := (exists_checkHomes_iff hapart).mp ⟨home, hhomes⟩
      rw [scheduleFrom_eq hapart hhomes] at hpass hcount
      exact ⟨hhomed, hcount.trans (hperm hhomed).length_eq, staged, hpass, hdone⟩
    · rintro ⟨hhomed, hcount, staged, hpass, hdone⟩
      obtain ⟨home, hhomes⟩ := (exists_checkHomes_iff hapart).mpr hhomed
      refine ⟨home, staged, hhomes, ?_, ?_, hdone⟩ <;> rw [scheduleFrom_eq hapart hhomes]
      · exact hpass
      · exact hcount.trans (hperm hhomed).length_eq.symm
  · rw [relocate_eq_unresolved_iff hfind]
    constructor
    · rintro ⟨home, staged, count, hhomes, hsome, hpass, hfault⟩
      rw [scheduleFrom_eq hapart hhomes] at hpass
      exact ⟨(exists_checkHomes_iff hapart).mp ⟨home, hhomes⟩, count, staged, hsome, hpass, hfault⟩
    · rintro ⟨hhomed, count, staged, hsome, hpass, hfault⟩
      obtain ⟨home, hhomes⟩ := (exists_checkHomes_iff hapart).mpr hhomed
      refine ⟨home, staged, count, hhomes, hsome, ?_, hfault⟩
      rwa [scheduleFrom_eq hapart hhomes]
  · cases hhomes : checkHomes draft.file mod.segments with
    | ok home => exact absurd ((exists_checkHomes_iff hapart).mp ⟨home, hhomes⟩) hlost
    | error e => exact relocateInPlace_of_checkHomes hfind app draft.staged hhomes

/-- Two segments of one word each. -/
def twoWords : Module where
  name := "words"
  handle := 1
  machine := .arm
  order := .little
  isExecutable := false
  policy := .direct
  segments := [⟨0x1000, 4, 4, 6, ⟨0x5000, 4, 0⟩⟩, ⟨0x2000, 4, 4, 6, ⟨0x9000, 4, 1⟩⟩]

/-- A draft of two words without symbols. Each word is the address of the other one. -/
def ofRelocations (rel : List RelocationEntry) : Draft where
  handle := 1
  name := "words"
  file := { header := default, order := .little, machine := .arm, programHeaders := [], rel }
  symbols := []
  dynamic := []
  dsbt := none
  staged := [[0, 0x20, 0, 0], [0, 0x10, 0, 0]]

theorem twoWords_apart : twoWords.segments.Pairwise Segment.LinkApart := by
  refine .cons ?_ (.cons nofun .nil)
  intro other hother address hfirst hsecond
  obtain rfl := List.mem_singleton.mp hother
  simp only [Segment.containsLink, decide_eq_true_eq, UInt32.lt_iff_toNat_lt, UInt32.toNat_sub,
    UInt32.reduceToNat] at hfirst hsecond
  omega

/-- A word that is moved and one that waits for a symbol. -/
theorem one_of_two_unresolved :
    let draft := ofRelocations [⟨0x1000, 23, 0, none⟩, ⟨0x2000, 2, 5, none⟩]
    Homed draft.file twoWords.segments ∧ ∃ count staged, 0 < count ∧
      Pass (draft.linkage [twoWords] none twoWords) (schedule draft.file twoWords.segments)
        draft.staged staged count ∧
      SymbolFault.unresolvedReferences 1 "words" = .unresolvedReferences count "words" :=
  ((relocate_exactly_once _ [twoWords] none twoWords rfl twoWords_apart).2.1 _).mp rfl

/-- A symbol that has no value is not missed by a relocation that does not get as far as asking for it:
one that has nothing to do, one that only moves an address, and one whose addend is cut off. -/
theorem lacking_symbols_not_counted :
    (∀ entry ∈ ([⟨0x1000, 0, 5, none⟩, ⟨0x1000, 23, 5, none⟩, ⟨0x1002, 2, 5, none⟩] :
        List RelocationEntry),
      ((ofRelocations [entry]).linkage [twoWords] none twoWords).LacksSymbol entry) ∧
    (ofRelocations [⟨0x1000, 0, 5, none⟩]).relocate [twoWords] none =
      .ok (ofRelocations [⟨0x1000, 0, 5, none⟩], 1) ∧
    (ofRelocations [⟨0x1000, 23, 5, none⟩]).relocate [twoWords] none =
      .ok ({ ofRelocations [⟨0x1000, 23, 5, none⟩] with
        staged := [[0, 0x90, 0, 0], [0, 0x10, 0, 0]] }, 1) ∧
    (ofRelocations [⟨0x1002, 2, 5, none⟩]).relocate [twoWords] none =
      .error (.relocation (.fieldOutside 2 4)) := by
  refine ⟨?_, rfl, rfl, rfl⟩
  simp only [List.forall_mem_cons, List.not_mem_nil, false_implies, implies_true, and_true]
  exact ⟨⟨by decide, _, rfl⟩, ⟨by decide, _, rfl⟩, ⟨by decide, _, rfl⟩⟩

end Draft

end TargetLink
