import TargetLink.Proofs.TableStages

/-!
# Writing new modules to the target

Completing a graph writes the relocated contents of every new module to its segments.  The segments are
apart, so nothing that was written is written over (`Writes`), and the loop over the new modules leaves
each of them in target memory as it was relocated (`Loading.Flushed`).  Of what follows, only the
arguments of the root are stored (`Loading.complete_landed`).
-/

namespace TargetLink

open LoadM (Triple Within bind_apply)

/-! ## Writing segments -/

namespace Segment

variable {segment : Segment} {segments : List Segment} {block : Bytes} {blocks : List Bytes}
  {before middle after : Memory}

theorem owns_of_blockView (hlength : block.length = segment.memorySize.toNat) {address : Nat}
    {byte : UInt8} (h : segment.blockView block address byte) : segment.Owns address := by
  have hlt := (List.getElem?_eq_some_iff.mp h.2).1
  have hle := h.1
  unfold Owns
  omega

/-- What is seen of segments is seen in one of them. -/
theorem Fill.exists_owner (h : Fill segments blocks) {address : Nat} {byte : UInt8}
    (hseen : view segments blocks address byte) : ∃ segment ∈ segments, segment.Owns address := by
  induction h with
  | nil =>
    obtain ⟨entry, hentry, -⟩ := hseen
    cases hentry
  | @cons first block segments blocks hfirst _ ih =>
    rcases view_cons.mp hseen with hblock | hrest
    · exact ⟨first, List.mem_cons_self, owns_of_blockView hfirst.2 hblock⟩
    · obtain ⟨segment, hsegment, howns⟩ := ih hrest
      exact ⟨segment, List.mem_cons_of_mem _ hsegment, howns⟩

/-- Contents were written to segments. Beside the segments nothing changed. -/
structure Writes (segments : List Segment) (blocks : List Bytes) (before after : Memory) : Prop where
  holds : ∀ live, before.Holds live → after.Holds live
  fresh : ∀ a byte, view segments blocks a byte → after.view a byte
  kept : ∀ a byte, (∀ segment ∈ segments, ¬segment.Owns a) → before.view a byte → after.view a byte

theorem writes_nil : Writes [] [] before before := by
  refine ⟨fun _ => id, ?_, fun _ _ _ => id⟩
  rintro a byte ⟨entry, hentry, -⟩
  cases hentry

/-- Writing a segment and then others that are apart from it. -/
theorem Writes.cons (hlength : block.length = segment.memorySize.toNat)
    (hapart : ∀ other ∈ segments, segment.Apart other)
    (hstore : before.store? segment.address block = some middle)
    (hrest : Writes segments blocks middle after) :
    Writes (segment :: segments) (block :: blocks) before after := by
  have hoverlay := Memory.overlay_store hstore
  constructor
  case holds => exact fun live hlive => hrest.holds live (hlive.store hstore)
  case fresh =>
    intro a byte hseen
    rcases view_cons.mp hseen with hblock | hseen
    · have howns := owns_of_blockView hlength hblock
      refine hrest.kept a byte (fun other hother => hapart other hother a howns) ?_
      have hfresh := hoverlay.fresh _ byte hblock.2
      rwa [Nat.add_sub_cancel' hblock.1] at hfresh
    · exact hrest.fresh a byte hseen
  case kept =>
    intro a byte hbeside hseen
    obtain ⟨hfirst, hothers⟩ := List.forall_mem_cons.mp hbeside
    refine hrest.kept a byte hothers (hoverlay.kept a byte ?_ hseen)
    unfold Owns at hfirst
    omega

end Segment

namespace Loading

open Segment (Writes)

variable {loading : Loading SimulatedTarget} {m : Module} {draft : Draft}

/-- A loading with other target memory. -/
def withMemory (loading : Loading SimulatedTarget) (memory : Memory) : Loading SimulatedTarget :=
  { loading with loader := { loading.loader with client := { loading.loader.client with memory } } }

theorem writeBlocks_writes {segments : List Segment} {blocks : List Bytes}
    (hfill : Segment.Fill segments blocks) (hapart : segments.Pairwise Segment.Apart)
    (loading : Loading SimulatedTarget) :
    Triple (· = loading) ((segments.zip blocks).forM fun (segment, block) =>
        onClient (Client.write segment.address block))
      (fun _ after => ∃ memory, after = loading.withMemory memory ∧
        Writes segments blocks loading.loader.client.memory memory) fun _ => True := by
  induction hfill generalizing loading with
  | nil => exact Triple.pure fun s hs => ⟨_, hs, Segment.writes_nil⟩
  | @cons segment block segments blocks hfirst _ ih =>
    obtain ⟨hsegment, hrest⟩ := List.pairwise_cons.mp hapart
    refine Triple.bind (R := fun _ after => ∃ memory, after = loading.withMemory memory ∧
      loading.loader.client.memory.store? segment.address block = some memory) ?_ fun _ => ?_
    · intro s hs
      rw [show s = loading from hs]
      dsimp only
      rw [onClient_apply, SimulatedTarget.write_apply]
      cases hstore : loading.loader.client.memory.store? segment.address block with
      | none => trivial
      | some memory => exact ⟨memory, rfl, rfl⟩
    · rintro s ⟨middle, rfl, hstore⟩
      refine (ih hrest (loading.withMemory middle)).weaken ?_ (fun _ h => h) _ rfl
      rintro _ after ⟨memory, rfl, hwrites⟩
      exact ⟨memory, rfl, hwrites.cons hfirst.2 hsegment hstore⟩

theorem writeSegments_writes (draft : Draft)
    (hfind : Module.find? loading.loader.modules draft.handle = some m)
    (hfill : Segment.Fill m.segments draft.staged) (hapart : m.segments.Pairwise Segment.Apart) :
    Triple (· = loading) (writeSegments draft)
      (fun _ after => ∃ memory, after = loading.withMemory memory ∧
        Writes m.segments draft.staged loading.loader.client.memory memory) fun _ => True := by
  refine Triple.bind (R := fun found s => found = m ∧ s = loading) ?_ fun found => ?_
  · intro s hs
    rw [show s = loading from hs]
    simp only [resident, bind_apply, LoadM.get_apply, hfind, LoadM.pure_apply, and_self]
  · rintro s ⟨rfl, rfl⟩
    exact writeBlocks_writes hfill hapart s s rfl

/-- A new module is written as it was relocated. -/
theorem relocateAndWrite_writes
    (hfind : Module.find? loading.loader.modules draft.handle = some m)
    (hfill : Segment.Fill m.segments draft.staged) (hapart : m.segments.Pairwise Segment.Apart) :
    Triple (· = loading) (relocateAndWrite draft)
      (fun _ after => ∃ memory blocks, after = loading.withMemory memory ∧
        draft.Relocated m.segments blocks ∧
        Writes m.segments blocks loading.loader.client.memory memory) fun _ => True := by
  unfold relocateAndWrite
  split
  · rename_i hrelocatable
    refine Triple.get_bind fun s hs => ?_
    obtain rfl : s = loading := hs
    refine Triple.bind (R := fun relocated t => t = s ∧
      draft.relocate s.loader.modules s.loader.app = .ok relocated) ?_ ?_
    · exact Triple.ofExcept (fun _ _ hrelocate ht => ⟨ht, hrelocate⟩) fun _ _ => trivial
    · rintro ⟨done, applied⟩ t ⟨rfl, hrelocate⟩
      have hrelocated := Draft.relocated_of_relocate hrelocatable hfind hfill hrelocate
      obtain ⟨staged, -, rfl⟩ := Draft.exists_staged_of_relocate hrelocate
      refine (writeSegments_writes { draft with staged } hfind hrelocated.fill hapart).weaken ?_
        (fun _ h => h) t rfl
      rintro _ after ⟨memory, rfl, hwrites⟩
      exact ⟨memory, staged, rfl, hrelocated, hwrites⟩
  · rename_i hstatic
    refine (writeSegments_writes draft hfind hfill hapart).weaken ?_ fun _ h => h
    rintro _ after ⟨memory, rfl, hwrites⟩
    refine ⟨memory, draft.staged, rfl, ⟨hfill, ?_⟩, hwrites⟩
    rw [Draft.patches, if_neg hstatic]
    exact .nil

end Loading

/-! ## Writing all new modules -/

/-- The address is one of the module of a draft. -/
def Draft.Occupies (draft : Draft) (modules : List Module) (address : Nat) : Prop :=
  ∃ m, Module.find? modules draft.handle = some m ∧ ∃ segment ∈ m.segments, segment.Owns address

namespace Loading

open Segment (Writes)

variable {origin loading : Loading SimulatedTarget} {drafts : List Draft}

/-- What holds once these new modules are written. -/
structure Flushed (origin : Loading SimulatedTarget) (done : List Draft)
    (loading : Loading SimulatedTarget) : Prop where
  same : ∃ memory, loading = origin.withMemory memory
  holds : ∀ live, origin.loader.client.memory.Holds live → loading.loader.client.memory.Holds live
  written : ∀ draft ∈ done, ∀ m, Module.find? origin.loader.modules draft.handle = some m →
    ∃ blocks, draft.Relocated m.segments blocks ∧ ∀ a byte, Segment.view m.segments blocks a byte →
      loading.loader.client.memory.view a byte
  kept : ∀ a byte, (∀ draft ∈ done, ¬draft.Occupies origin.loader.modules a) →
    origin.loader.client.memory.view a byte → loading.loader.client.memory.view a byte

theorem flushed_nil : Flushed origin [] origin :=
  ⟨⟨_, rfl⟩, fun _ => id, by rintro _ ⟨⟩, fun _ _ _ => id⟩

/-- Writing one more new module leaves those that are written alone. -/
theorem Flushed.snoc (hlaid : Module.Laid origin.loader.modules) {done : List Draft} {draft : Draft}
    (hdistinct : ∀ other ∈ done, other.handle ≠ draft.handle) {m : Module}
    (hfind : Module.find? origin.loader.modules draft.handle = some m)
    (h : Flushed origin done loading) {blocks : List Bytes} {memory : Memory}
    (hrelocated : draft.Relocated m.segments blocks)
    (hwrites : Writes m.segments blocks loading.loader.client.memory memory) :
    Flushed origin (done ++ [draft]) (loading.withMemory memory) := by
  obtain ⟨hm, hhandle⟩ := Module.mem_of_find? hfind
  constructor
  case same =>
    obtain ⟨before, rfl⟩ := h.same
    exact ⟨memory, rfl⟩
  case holds => exact fun live hlive => hwrites.holds live (h.holds live hlive)
  case written =>
    intro other hother n hfind'
    rcases List.mem_append.mp hother with hdone | hlast
    · obtain ⟨hn, hhandle'⟩ := Module.mem_of_find? hfind'
      obtain ⟨blocks', hrelocated', hseen⟩ := h.written other hdone n hfind'
      refine ⟨blocks', hrelocated', fun a byte hbyte => hwrites.kept a byte ?_ (hseen a byte hbyte)⟩
      obtain ⟨segment, hsegment, howns⟩ := hrelocated'.fill.exists_owner hbyte
      have hne : n.handle ≠ m.handle := by
        rw [hhandle', hhandle]
        exact hdistinct other hdone
      exact fun segment' hsegment' =>
        hlaid.apart_of_ne hn hm hne hsegment hsegment' a howns
    · obtain rfl := List.mem_singleton.mp hlast
      obtain rfl := Option.some.inj (hfind.symm.trans hfind')
      exact ⟨blocks, hrelocated, hwrites.fresh⟩
  case kept =>
    intro a byte hbeside hseen
    refine hwrites.kept a byte (fun segment hsegment howns => ?_) (h.kept a byte ?_ hseen)
    · exact hbeside draft (by simp) ⟨m, hfind, segment, hsegment, howns⟩
    · exact fun other hother => hbeside other (List.mem_append_left _ hother)

theorem relocateAll_flushed (hlaid : Module.Laid origin.loader.modules)
    (hdistinct : (drafts.map (·.handle)).Nodup)
    (hplaced : ∀ draft ∈ drafts, ∃ m, Module.find? origin.loader.modules draft.handle = some m ∧
      Segment.Fill m.segments draft.staged) :
    Triple (Flushed origin []) (drafts.forM relocateAndWrite) (fun _ => Flushed origin drafts)
      fun _ => True := by
  refine Triple.forM_split drafts fun done draft rest hsplit loading h => ?_
  obtain ⟨m, hfind, hfill⟩ := hplaced draft (by simp [hsplit])
  obtain ⟨hm, -⟩ := Module.mem_of_find? hfind
  have hfind' : Module.find? loading.loader.modules draft.handle = some m := by
    obtain ⟨before, rfl⟩ := h.same
    exact hfind
  refine (relocateAndWrite_writes hfind' hfill (hlaid.apart_within hm)).weaken ?_ (fun _ h => h)
    loading rfl
  rintro _ after ⟨memory, blocks, rfl, hrelocated, hwrites⟩
  refine h.snoc hlaid (fun other hother => ?_) hfind hrelocated hwrites
  rw [hsplit, List.map_append, List.map_cons, List.nodup_append] at hdistinct
  exact hdistinct.2.2 _ (List.mem_map_of_mem hother) _ List.mem_cons_self

/-! ## Completing a graph -/

section Stores

variable {wanted : UInt32 → Bytes → Prop} {before after : SimulatedTarget}

theorem holds_of_stores {live : Multiset Allocation} (hstores : Stores wanted before after)
    (h : before.memory.Holds live) : after.memory.Holds live := by
  induction hstores with
  | refl => exact h
  | tail _ hlast ih =>
    cases hlast with
    | write client hwanted => exact SimulatedTarget.holds_write ih _ _
    | read client address size => rwa [SimulatedTarget.read_unchanged]
    | execute client address => exact ih

/-- A byte beside all that is stored is kept. -/
theorem view_of_stores (hstores : Stores wanted before after) {a : Nat} {byte : UInt8}
    (hbeside : ∀ address bytes, wanted address bytes →
      a < address.toNat ∨ address.toNat + bytes.length ≤ a)
    (h : before.memory.view a byte) : after.memory.view a byte := by
  induction hstores with
  | refl => exact h
  | @tail middle after _ hlast ih =>
    cases hlast with
    | @write address bytes _ hwanted =>
      rw [SimulatedTarget.write_apply]
      cases hstore : middle.memory.store? address bytes with
      | none => exact ih
      | some memory =>
        exact (Memory.overlay_store hstore).kept a byte (hbeside address bytes hwanted) ih
    | read client address size => rwa [SimulatedTarget.read_unchanged]
    | execute client address => exact ih

end Stores

/-- The address is one of the arguments of the root. -/
def Argued (loading : Loading SimulatedTarget) (root : Handle) (arguments : List String)
    (address : Nat) : Prop :=
  ∃ draft ∈ loading.session.pending, draft.handle = root ∧ draft.Receives arguments address

instance (loading : Loading SimulatedTarget) (root : Handle) (arguments : List String)
    (address : Nat) : Decidable (loading.Argued root arguments address) :=
  inferInstanceAs (Decidable (∃ draft ∈ loading.session.pending, _))

/-- What holds once a graph is completed. -/
structure Landed (origin : Loading SimulatedTarget) (root : Handle) (arguments : List String)
    (loading : Loading SimulatedTarget) : Prop where
  modules : loading.loader.modules = origin.loader.modules
  dsbt : loading.loader.dsbt = origin.loader.dsbt
  holds : ∀ live, origin.loader.client.memory.Holds live → loading.loader.client.memory.Holds live
  written : ∀ draft ∈ origin.session.pending, ∀ m,
    Module.find? origin.loader.modules draft.handle = some m →
      ∃ blocks, draft.Relocated m.segments blocks ∧ ∀ a byte, Segment.view m.segments blocks a byte →
        ¬origin.Argued root arguments a → loading.loader.client.memory.view a byte
  kept : ∀ a byte, (∀ draft ∈ origin.session.pending, ¬draft.Occupies origin.loader.modules a) →
    ¬origin.Argued root arguments a → origin.loader.client.memory.view a byte →
      loading.loader.client.memory.view a byte

/-- Completing a graph leaves every new module in target memory as it was relocated, but for the
arguments, and leaves the other modules alone. -/
theorem complete_landed (hlaid : Module.Laid origin.loader.modules)
    (hdistinct : (origin.session.pending.map (·.handle)).Nodup)
    (hplaced : ∀ draft ∈ origin.session.pending,
      ∃ m, Module.find? origin.loader.modules draft.handle = some m ∧
        Segment.Fill m.segments draft.staged) (root : Handle) (arguments : List String) :
    Triple (· = origin) (complete root arguments origin.session.pending)
      (fun _ => Landed origin root arguments) fun _ => True := by
  refine Triple.bind (R := fun _ => Flushed origin origin.session.pending) ?_ fun _ flushed h => ?_
  · exact (relocateAll_flushed hlaid hdistinct hplaced).strengthen fun s hs => hs ▸ flushed_nil
  have halong : Triple (Along (fun address bytes => ∃ draft ∈ origin.session.pending,
      draft.handle = root ∧ WantsArguments arguments draft address bytes) flushed)
      (startUp root arguments origin.session.pending) (fun _ => Along _ flushed)
      (Along _ flushed) :=
    along_startUp fun draft hdraft hroot address bytes hwants => ⟨draft, hdraft, hroot, hwants⟩
  refine (halong.weaken (fun _ after hafter => ?_) fun _ _ => trivial) flushed (Std.Refl.refl flushed)
  have hbeside : ∀ {a : Nat}, ¬origin.Argued root arguments a → ∀ address (bytes : Bytes),
      (∃ draft ∈ origin.session.pending, draft.handle = root ∧
        WantsArguments arguments draft address bytes) →
      a < address.toNat ∨ address.toNat + bytes.length ≤ a := by
    rintro a hshut address bytes ⟨draft, hdraft, hroot, hlength, area, harea, rfl⟩
    by_contra hinside
    exact hshut ⟨draft, hdraft, hroot, area, harea, by omega, by omega⟩
  have hsame : flushed.loader.modules = origin.loader.modules ∧
      flushed.loader.dsbt = origin.loader.dsbt := by
    obtain ⟨memory, rfl⟩ := h.same
    exact ⟨rfl, rfl⟩
  refine ⟨hafter.modules.trans hsame.1, hafter.dsbt.trans hsame.2, fun live hlive =>
    holds_of_stores hafter.stores (h.holds live hlive), fun draft hdraft m hfind => ?_, ?_⟩
  · obtain ⟨blocks, hrelocated, hseen⟩ := h.written draft hdraft m hfind
    exact ⟨blocks, hrelocated, fun a byte hbyte hshut =>
      view_of_stores hafter.stores (hbeside hshut) (hseen a byte hbyte)⟩
  · exact fun a byte hunowned hshut hseen =>
      view_of_stores hafter.stores (hbeside hshut) (h.kept a byte hunowned hseen)

end Loading

end TargetLink
