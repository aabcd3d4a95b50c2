import TargetLink.Proofs.SampleObjects
import TargetLink.Proofs.SimulatedLedger
import TargetLink.Proofs.Stores
import Mathlib.Data.Multiset.UnionInter

/-!
# Resident modules are left alone

The memory of every segment was handed out for it (`Loader.Housed`), and on the simulated target it is
memory of its own.  A load gets new memory for its new modules and gives none back but that, so the
regions of the modules that were resident before stay where they are (`Loading.Guards`).  What a load
stores there it stores at addresses that it takes from an image: those of the private tables of bound
modules and of the arguments of the root (`Loader.Exposed`).
-/

namespace TargetLink

open TargetLink.Module (handlesOf allocationsOf)
open LoadM (Triple Within bind_apply)

/-! ## The memory of segments -/

namespace Loader

variable {σ : Type} [Client σ] {ledger : Ledger σ} {loader : Loader σ}

/-- The memory of every segment was handed out for it. -/
def Housed (loader : Loader σ) : Prop := ∀ segment ∈ loader.segments, Loading.Granted σ segment

omit [Client σ] in
theorem segments_loadSymbolsOnly (loader : Loader σ) (image : Image) :
    (loader.loadSymbolsOnly image).2.segments = loader.segments := by
  have hsame : Within (LoadM.Same (segments (σ := σ))) (loadSymbolsStep image) := by
    refine Within.bind Within.ofExcept fun file => Within.bind Within.get fun before => ?_
    refine Within.bind Within.ofExcept fun _ => Within.bind (fun before => ?_) fun handle => ?_
    · rw [newHandle_apply]
      split <;> rfl
    · refine Within.bind (fun before => ?_) fun _ => Within.pure
      exact (List.flatMap_append).trans (List.append_nil _)
  exact hsame loader

theorem housed_serve (hsound : loader.Sound ledger) (h : loader.Housed) (request : Request σ) :
    (loader.serve request).Housed := by
  cases request with
  | load image arguments =>
    intro segment hsegment
    cases hload : (loader.load image arguments).1 with
    | ok handle =>
      rw [serve, segments, modules_of_load_ok hload] at hsegment
      exact ((Loading.walked_place image { loader }).segments segment hsegment).elim (h segment) id
    | error e =>
      rw [serve, segments, (load_error hsound hload).modules] at hsegment
      exact h segment hsegment
  | loadSymbolsOnly image =>
    intro segment hsegment
    rw [serve, segments_loadSymbolsOnly] at hsegment
    exact h segment hsegment
  | unload handle =>
    intro segment hsegment
    cases hlookup : loader.handles.lookup handle with
    | none =>
      rw [serve, unload_unknown hlookup] at hsegment
      exact h segment hsegment
    | some root =>
      obtain ⟨left, gone, steps, after, hrun, hleaves, -⟩ := unload_eq hsound hlookup
      rw [serve, hrun] at hsegment
      obtain ⟨m, hm, hmem⟩ := List.mem_flatMap.mp hsegment
      obtain ⟨n, hn, -, huncounted⟩ := hleaves.exists_uncounted hm
      refine h segment (List.mem_flatMap.mpr ⟨n, hn, ?_⟩)
      rwa [show n.segments = m.segments from congrArg (·.segments) huncounted]
  | client change => exact h

theorem housed_run (hsound : loader.Sound ledger) (h : loader.Housed) {requests : List (Request σ)}
    (hfair : ∀ request ∈ requests, Fair ledger request) : (loader.run requests).Housed :=
  run_keeps hsound hfair (fun request _ _ hsound h => housed_serve hsound h request) h

end Loader

/-! ## The addresses that an image names -/

/-- The address is one of the private table of a bound module. -/
def Dsbt.Covers (dsbt : Dsbt) (address : Nat) : Prop :=
  ∃ entry ∈ dsbt.entries, entry.2.base.toNat ≤ address ∧
    address < entry.2.base.toNat + 4 * dsbt.slots.length

instance (dsbt : Dsbt) (address : Nat) : Decidable (dsbt.Covers address) :=
  inferInstanceAs (Decidable (∃ entry ∈ dsbt.entries, _))

/-- The address is one of the arguments of a root. -/
def Draft.Receives (root : Draft) (arguments : List String) (address : Nat) : Prop :=
  ∃ area ∈ Draft.definitionIn? root.symbols Draft.argumentsSymbol, area.value.toNat ≤ address ∧
    address < area.value.toNat + Arguments.blockSize arguments

instance (root : Draft) (arguments : List String) (address : Nat) :
    Decidable (root.Receives arguments address) :=
  inferInstanceAs (Decidable (∃ area ∈ Draft.definitionIn? root.symbols Draft.argumentsSymbol, _))

/-! ## Steps that keep bytes -/

namespace Loading

open Memory (Keeps KeepsAll)

/-- The allocations that are out keep their regions, and the old ones their bytes. -/
structure Guards (exposed : Nat → Prop) (live old : Multiset Allocation)
    (before after : SimulatedTarget) : Prop where
  holds : after.memory.Holds live
  kept : KeepsAll exposed old before.memory after.memory

variable {exposed : Nat → Prop} {live old : Multiset Allocation} {before after : SimulatedTarget}

/-- What every call guards a number of calls guards. -/
theorem guards_of_calls {call : SimulatedTarget → SimulatedTarget → Prop}
    (hcall : ∀ before after, before.memory.Holds live → call before after →
      Guards exposed live old before after)
    (h : before.memory.Holds live) (hcalls : Relation.ReflTransGen call before after) :
    Guards exposed live old before after := by
  induction hcalls with
  | refl => exact ⟨h, KeepsAll.refl⟩
  | tail _ hlast ih =>
    have hguards := hcall _ _ ih.holds hlast
    exact ⟨hguards.holds, ih.kept.trans hguards.kept⟩

/-- Placing a graph asks for new memory and gives none back but that. -/
theorem guards_served (h : before.memory.Holds old) (hserved : Served before after) :
    Guards exposed old old before after := by
  cases hserved with
  | @allocate request hsize =>
    cases hanswer : (Client.allocate request before).1 with
    | error e =>
      rw [SimulatedTarget.unchanged_of_allocate_error hanswer]
      exact ⟨h, KeepsAll.refl⟩
    | ok allocation =>
      obtain ⟨hholds, hkept⟩ := SimulatedTarget.holds_allocate exposed hsize h hanswer
      exact ⟨hholds.mono (Multiset.le_cons_self _ _), hkept⟩
  | refuse hsize hok =>
    obtain ⟨hholds, hkept⟩ := SimulatedTarget.holds_allocate exposed hsize h hok
    obtain ⟨hholds', hkept'⟩ := SimulatedTarget.holds_release exposed hholds
    exact ⟨hholds', hkept.trans hkept'⟩
  | copy image request =>
    rw [SimulatedTarget.copy_unchanged]
    exact ⟨h, KeepsAll.refl⟩
  | openDependent name => exact ⟨h, KeepsAll.refl⟩

/-- What is stored at exposed addresses or in the region of another allocation leaves the bytes of the
old ones alone. -/
theorem guards_stored {wanted : UInt32 → Bytes → Prop}
    (hwanted : ∀ address bytes, wanted address bytes →
      (∀ i < bytes.length, exposed (address.toNat + i)) ∨
        ∃ other ∈ live, other ∉ old ∧ other.address = address)
    (hold : old ≤ live) (h : before.memory.Holds live) (hstored : Stored wanted before after) :
    Guards exposed live old before after := by
  cases hstored with
  | @write address bytes _ hwants =>
    refine ⟨SimulatedTarget.holds_write h address bytes, fun allocation hmem => ?_⟩
    rw [SimulatedTarget.write_apply]
    cases hstore : before.memory.store? address bytes with
    | none => exact Keeps.refl
    | some memory =>
      rcases hwanted address bytes hwants with hexposed | ⟨other, hother, hnew, rfl⟩
      · exact Keeps.of_store hstore hexposed
      · exact h.keeps_of_store (Multiset.mem_of_le hold hmem) hother
          (fun heq => hnew (heq ▸ hmem)) hstore
  | read =>
    rw [SimulatedTarget.read_unchanged]
    exact ⟨h, KeepsAll.refl⟩
  | execute => exact ⟨h, KeepsAll.refl⟩

/-! ## The phases of a load -/

variable {start : Loader SimulatedTarget} {loading : Loading SimulatedTarget}

/-- The old allocations are among those that are out. -/
theorem allocationsOf_le (h : Books SimulatedTarget.ledger start 0 loading) :
    allocationsOf start.modules ≤ allocationsOf loading.loader.modules := by
  obtain ⟨new, hmodules, -⟩ := h.modules
  rw [hmodules, Module.allocationsOf_append, allocationsOf_map_raised]
  exact Multiset.le_add_right _ _

theorem Books.memory_holds (h : Books SimulatedTarget.ledger start 0 loading) :
    loading.loader.client.memory.Holds (allocationsOf loading.loader.modules) := by
  have hholds : loading.loader.client.memory.Holds (allocationsOf loading.loader.modules + 0) :=
    h.holds
  rwa [Multiset.add_zero] at hholds

/-- The memory of a new module is not memory of an old one. -/
theorem Books.notMem_allocationsOf (h : Books SimulatedTarget.ledger start 0 loading) {m : Module}
    (hm : m ∈ loading.loader.modules) (hnew : m.handle ∉ handlesOf start.modules)
    {segment : Segment} (hsegment : segment ∈ m.segments) :
    segment.allocation ∉ allocationsOf start.modules := by
  obtain ⟨new, hmodules, -⟩ := h.modules
  have hdistinct := h.memory_holds.distinct
  rw [hmodules, Module.allocationsOf_append, allocationsOf_map_raised] at hdistinct
  have hmem : m ∈ new := by
    refine (List.mem_append.mp (hmodules ▸ hm)).resolve_left fun hold => hnew ?_
    rw [← handlesOf_map_raised loading.session.reused]
    exact Module.handle_mem hold
  have hown : segment.allocation ∈ allocationsOf new :=
    List.mem_flatMap.mpr ⟨m, hmem, List.mem_map_of_mem hsegment⟩
  exact fun hold => Multiset.disjoint_left.mp (Multiset.disjoint_of_nodup_add hdistinct) hold hown

/-- Placing a graph stores nothing. -/
theorem keeps_place (exposed : Nat → Prop) (hstart : start.Sound SimulatedTarget.ledger)
    (image : Image) :
    KeepsAll exposed (allocationsOf start.modules) start.client.memory
      (place image { loader := start }).2.loader.client.memory :=
  (guards_of_calls (fun _ _ => guards_served) hstart.holds
    (walked_place image { loader := start }).served).kept

/-- Preparing a graph stores in private tables only. -/
theorem keeps_prepare (root : Handle) (h : Books SimulatedTarget.ledger start 0 loading)
    (hexposed : ∀ address, (prepare root loading).2.loader.dsbt.Covers address → exposed address) :
    KeepsAll exposed (allocationsOf start.modules) loading.loader.client.memory
      (prepare root loading).2.loader.client.memory := by
  have halong := along_prepare root loading
  refine (guards_of_calls (fun _ _ => guards_stored ?_ (allocationsOf_le h)) h.memory_holds
    halong.stores).kept
  rintro _ bytes ⟨hlength, entry, hentry, rfl⟩
  refine Or.inl fun i hi => hexposed _ ⟨entry, ?_, by omega, ?_⟩
  · rw [halong.dsbt]
    exact hentry
  · have hslots : (prepare root loading).2.loader.dsbt.slots.length =
        loading.loader.dsbt.assign.slots.length := congrArg (·.slots.length) halong.dsbt
    omega

theorem keeps_ready (hstart : start.Sound SimulatedTarget.ledger) (image : Image)
    (hexposed : ∀ address, (ready image { loader := start }).2.loader.dsbt.Covers address →
      exposed address) :
    KeepsAll exposed (allocationsOf start.modules) start.client.memory
      (ready image { loader := start }).2.loader.client.memory := by
  have hplaced := keeps_place exposed hstart image
  have htriple := place_triple hstart image
  rw [ready_state] at hexposed ⊢
  rcases hrun : place image { loader := start } with ⟨e | ⟨root, handle⟩, placed⟩ <;>
    rw [hrun] at hplaced hexposed
  · exact hplaced
  · have hbooks := (htriple.ok rfl hrun).1.toBooks
    exact hplaced.trans (keeps_prepare root hbooks hexposed)

/-- Completing the new modules stores in their own memory and in the area for the arguments. -/
theorem keeps_complete {root : Handle} {arguments : List String}
    (h : Books SimulatedTarget.ledger start 0 loading)
    (horder : InOrder start.modules loading.loader.modules loading.session.pending)
    (hexposed : ∀ draft ∈ loading.session.pending, draft.handle = root → ∀ address,
      draft.Receives arguments address → exposed address) :
    KeepsAll exposed (allocationsOf start.modules) loading.loader.client.memory
      (complete root arguments loading.session.pending loading).2.loader.client.memory := by
  have halong := along_complete (fun address bytes =>
    (∃ m ∈ loading.loader.modules, m.handle ∉ handlesOf start.modules ∧
      WantsSegment m address bytes) ∨
    ∃ draft ∈ loading.session.pending, draft.handle = root ∧
      WantsArguments arguments draft address bytes) loading root arguments loading.session.pending
    ?_ ?_
  · refine (guards_of_calls (fun _ _ => guards_stored ?_ (allocationsOf_le h)) h.memory_holds
      halong.stores).kept
    rintro address bytes (⟨m, hm, hnew, segment, hsegment, rfl⟩ | ⟨draft, hdraft, hroot, hwants⟩)
    · refine Or.inr ⟨segment.allocation, ?_, h.notMem_allocationsOf hm hnew hsegment, rfl⟩
      exact List.mem_flatMap.mpr ⟨m, hm, List.mem_map_of_mem hsegment⟩
    · obtain ⟨hlength, area, harea, rfl⟩ := hwants
      refine Or.inl fun i hi => hexposed draft hdraft hroot _ ⟨area, harea, by omega, by omega⟩
  · intro draft hdraft m hfind address bytes hwants
    obtain ⟨hm, hhandle⟩ := Module.mem_of_find? hfind
    have hnew := ((horder.mem_iff draft.handle).mp (List.mem_map_of_mem hdraft)).2
    exact Or.inl ⟨m, hm, hhandle ▸ hnew, hwants⟩
  · exact fun draft hdraft hroot address bytes hwants => Or.inr ⟨draft, hdraft, hroot, hwants⟩

/-- Undoing a load gives the memory of new modules back. -/
theorem keeps_abort (exposed : Nat → Prop) (h : Undoable SimulatedTarget.ledger start loading) :
    KeepsAll exposed (allocationsOf start.modules) loading.loader.client.memory
      loading.abort.client.memory := by
  obtain ⟨new, hmodules, hcreated⟩ := h.modules
  have hholds := h.memory_holds
  rw [hmodules, Module.allocationsOf_append, allocationsOf_map_raised, Multiset.add_comm,
    ← allocationsOf_reverse new] at hholds
  rw [client_abort hmodules hcreated h.distinct]
  generalize allocationsOf start.modules = old at hholds ⊢
  have hrelease : ∀ {client : SimulatedTarget} {live : Multiset Allocation} {allocation : Allocation},
      Guards exposed (allocation ::ₘ live + old) old loading.loader.client client →
      Guards exposed (live + old) old loading.loader.client (Client.release allocation client).2 := by
    intro client live allocation hguards
    have hholds := hguards.holds
    rw [Multiset.cons_add] at hholds
    obtain ⟨hrest, hkept⟩ := SimulatedTarget.holds_release exposed hholds
    exact ⟨hrest, hguards.kept.trans fun a ha => hkept a (Multiset.mem_add.mpr (Or.inr ha))⟩
  have hbegun : Guards exposed (allocationsOf new.reverse + 0 + old) old loading.loader.client
      loading.loader.client := ⟨by rwa [Multiset.add_zero], KeepsAll.refl⟩
  exact (giveBack_modules_of_release
    (fun target live => Guards exposed (live + old) old loading.loader.client target)
    hrelease new.reverse hbegun).kept

end Loading

/-! ## Loads -/

namespace Loader

variable {loader : Loader SimulatedTarget}

/-- The addresses that a load may store at because an image says so: those of the private tables of
the modules that are bound when its graph is ready, and those of the arguments of a new root. -/
def Exposed (loader : Loader SimulatedTarget) (image : Image) (arguments : List String)
    (address : Nat) : Prop :=
  let ready := Loading.ready image { loader }
  ready.2.loader.dsbt.Covers address ∨ ∃ placed ∈ ready.1.toOption,
    ∃ draft ∈ ready.2.session.pending, draft.handle = placed.1 ∧ draft.Receives arguments address

instance (loader : Loader SimulatedTarget) (image : Image) (arguments : List String)
    (address : Nat) : Decidable (loader.Exposed image arguments address) :=
  inferInstanceAs (Decidable (_ ∨ ∃ placed ∈ (Loading.ready image { loader }).1.toOption, _))

/-- Whether a load succeeds or fails, the old allocations keep the bytes that are not exposed. -/
theorem load_keeps (hsound : loader.Sound SimulatedTarget.ledger) (image : Image)
    (arguments : List String) :
    Memory.KeepsAll (loader.Exposed image arguments) (allocationsOf loader.modules)
      loader.client.memory (loader.load image arguments).2.client.memory := by
  have hready : Memory.KeepsAll (loader.Exposed image arguments) (allocationsOf loader.modules)
      loader.client.memory (Loading.ready image { loader }).2.loader.client.memory :=
    Loading.keeps_ready hsound image fun _ => Or.inl
  have htriple := Loading.ready_triple hsound image
  have hordered := Loading.ready_inOrder hsound image
  rw [load_apply]
  rcases hrun : Loading.ready image { loader } with ⟨e | ⟨root, handle⟩, middle⟩ <;> rw [hrun] at hready
  · have habort := Loading.keeps_abort (loader.Exposed image arguments)
      (htriple.error rfl hrun)
    exact hready.trans habort
  · have hfinishing := htriple.ok rfl hrun
    have hreceives : ∀ draft ∈ middle.session.pending, draft.handle = root → ∀ address,
        draft.Receives arguments address → loader.Exposed image arguments address := by
      intro draft hdraft hroot address hreceives
      unfold Exposed
      rw [hrun]
      exact Or.inr ⟨(root, handle), rfl, draft, hdraft, hroot, hreceives⟩
    have hcomplete := Loading.keeps_complete hfinishing.toBooks (hordered.ok rfl hrun) hreceives
    have hlast := Loading.complete_triple arguments hfinishing
    rcases hfinish : Loading.complete root arguments middle.session.pending middle with
      ⟨e | ⟨⟩, after⟩ <;> rw [hfinish] at hcomplete <;> simp only [hfinish]
    · have habort := Loading.keeps_abort (loader.Exposed image arguments)
        (hlast.error rfl hfinish)
      exact (hready.trans hcomplete).trans habort
    · exact hready.trans hcomplete

end Loader

/-- The memory that the simulated target hands out for a segment has its size. -/
theorem SimulatedTarget.size_of_granted {segment : Segment} (h : Loading.Granted SimulatedTarget segment) :
    segment.allocation.size = segment.memorySize := by
  obtain ⟨request, target, hok, hsize⟩ := h
  rw [SimulatedTarget.allocate_apply] at hok
  rcases hallocate : target.memory.allocate request with e | ⟨allocation, memory⟩ <;>
    rw [hallocate] at hok
  · cases hok
  · obtain rfl := Except.ok.inj hok
    obtain ⟨place, -, hplaced⟩ := exists_of_bind_eq_ok hallocate
    rw [← hsize, ← (Prod.mk.inj (Except.ok.inj hplaced)).1]

namespace Memory

variable {exposed : Nat → Prop} {memory memory' : Memory} {allocation : Allocation}
  {address : UInt32}

/-- A byte that is not exposed is the same before and after. -/
theorem Keeps.exists_byte (h : Keeps exposed memory memory' allocation)
    (hhosted : memory.Hosted allocation) (hwellFormed : memory.WellFormed)
    (hwellFormed' : memory'.WellFormed) (hinside : address - allocation.address < allocation.size)
    (hshut : ¬exposed address.toNat) :
    ∃ byte, memory.load? address 1 = some [byte] ∧ memory'.load? address 1 = some [byte] := by
  obtain ⟨bytes, hhosts, hlength, -⟩ := hhosted
  obtain ⟨bytes', hhosts', hlength', hsame⟩ := h bytes hhosts
  have hrange : allocation.address.toNat ≤ address.toNat ∧
      address.toNat < allocation.address.toNat + bytes.length := by
    have hfits := hwellFormed.fits _ hhosts
    have hlt := UInt32.lt_iff_toNat_lt.mp hinside
    rw [UInt32.toNat_sub] at hlt
    have := address.toNat_lt
    simp only [Region.limit, UInt32.size] at hfits
    omega
  obtain ⟨hle, hlt⟩ := hrange
  have hindex : address.toNat - allocation.address.toNat < bytes.length := by omega
  have hshut' : ¬exposed (allocation.address.toNat + (address.toNat - allocation.address.toNat)) := by
    rwa [Nat.add_sub_cancel' hle]
  refine ⟨bytes[address.toNat - allocation.address.toNat], ?_, ?_⟩
  · rw [hwellFormed.load?_byte hhosts (UInt32.le_iff_toNat_le.mpr hle) hlt,
      List.getElem?_eq_getElem hindex, Option.map_some]
  · rw [hwellFormed'.load?_byte hhosts' (UInt32.le_iff_toNat_le.mpr hle)
      (by simpa only [Region.limit, hlength'] using hlt), hsame _ hindex hshut',
      List.getElem?_eq_getElem hindex, Option.map_some]

end Memory

namespace Loader

/-- After any run on the simulated target, a load leaves every byte of the resident modules alone that
is not exposed, whether it succeeds or fails. -/
theorem load_isolated (target : SimulatedTarget) (htarget : target.memory.WellFormed)
    (policy : LookupPolicy) {requests : List (Request SimulatedTarget)}
    (hfair : ∀ request ∈ requests, Fair SimulatedTarget.ledger request) :
    let before := (fresh target policy).run requests
    ∀ image arguments, let after := (before.load image arguments).2
    ∀ m ∈ before.modules, ∀ segment ∈ m.segments, ∀ address, segment.contains address →
      ¬before.Exposed image arguments address.toNat →
        ∃ byte, before.client.memory.load? address 1 = some [byte] ∧
          after.client.memory.load? address 1 = some [byte] := by
  have hfresh : (fresh target policy).Sound SimulatedTarget.ledger :=
    fresh_sound policy ⟨htarget, Multiset.nodup_zero, by simp⟩
  have hsound := run_sound hfresh hfair
  have hhoused : ((fresh target policy).run requests).Housed :=
    housed_run hfresh (by rintro _ ⟨⟩) hfair
  generalize (fresh target policy).run requests = before at hsound hhoused
  intro _ image arguments after m hm segment hsegment address hcontains hshut
  have hmem : segment.allocation ∈ allocationsOf before.modules :=
    List.mem_flatMap.mpr ⟨m, hm, List.mem_map_of_mem hsegment⟩
  have hsize := SimulatedTarget.size_of_granted (hhoused segment (List.mem_flatMap.mpr ⟨m, hm, hsegment⟩))
  refine (load_keeps hsound image arguments _ hmem).exists_byte (hsound.holds.hosted _ hmem)
    hsound.holds.wellFormed (load_sound hsound image arguments).holds.wellFormed ?_ hshut
  rw [hsize]
  exact of_decide_eq_true hcontains

/-- Loading `b` with a private table in its own data leaves every byte of `a` alone. -/
theorem load_isolated_of_own_table :
    let a := { machine := 140, data := [1, 2], names := [[0x61]] : SampleObject }.image
    let b := (tabledObject 0x62 1).image
    let before := (fresh ({} : SimulatedTarget) .direct).run [.load a []]
    let after := (before.load b []).2
    (after.modules.map (·.name)) = ["a", "b"] ∧
      ∃ byte, before.client.memory.load? 0x10000074 1 = some [byte] ∧
        after.client.memory.load? 0x10000074 1 = some [byte] := by
  intro a b
  have hresident : ∃ m ∈ ((fresh ({} : SimulatedTarget) .direct).run [.load a []]).modules,
      ∃ segment ∈ m.segments, segment.contains 0x10000074 := by
    decide +kernel
  obtain ⟨m, hm, segment, hsegment, hcontains⟩ := hresident
  have hempty : ({} : SimulatedTarget).memory.WellFormed :=
    ⟨.nil, by rintro _ ⟨⟩, by rintro _ ⟨⟩⟩
  have hfair : ∀ request ∈ [Request.load a []], Fair SimulatedTarget.ledger request :=
    fun request hmem => List.mem_singleton.mp hmem ▸ trivial
  refine ⟨by decide +kernel, ?_⟩
  exact load_isolated {} hempty .direct hfair b [] m hm segment hsegment 0x10000074 hcontains
    (by decide +kernel)

/-- The image of a module may name a private table that lies in another module, and the table is
stored there. -/
theorem load_overwrites_resident :
    let a := { machine := 140, data := [1, 2], names := [[0x61]] : SampleObject }.image
    let b := { machine := 140, names := [[0x62]], tags :=
      [(DynamicTag.dsbtBase, 0x10000074), (DynamicTag.dsbtSize, 1)] : SampleObject }.image
    let before := (fresh ({} : SimulatedTarget) .direct).run [.load a []]
    let after := (before.load b []).2
    before.dsbt.entries = [] ∧
      (∃ m ∈ before.modules, ∃ segment ∈ m.segments, segment.contains 0x10000074) ∧
      before.client.memory.load? 0x10000074 1 = some [1] ∧
      after.client.memory.load? 0x10000074 1 = some [0x74] := by
  decide +kernel

end Loader

end TargetLink
