import TargetLink.Proofs.Initializers
import TargetLink.Proofs.Ledger
import Mathlib.Logic.Relation

/-!
# What a load stores

Once a graph is placed, a client is only asked to store bytes, to read and to run functions
(`Stored`).  What is stored is known before: the table of static bases in the private tables of the
bound modules (`Loading.WantsTable`), the segments of the new modules (`Loading.WantsSegment`), and the
arguments of the root (`Loading.WantsArguments`).

`Loading.Along` follows the client from a state on in which the claims are bound; modules and table stay
as they are there.
-/

namespace TargetLink

open LoadM (Triple Within bind_apply)

variable {σ : Type} [Client σ]

/-- What a client is asked once a graph is placed. -/
inductive Stored (wanted : UInt32 → Bytes → Prop) : σ → σ → Prop
  | write {address : UInt32} {bytes : Bytes} (client : σ) : wanted address bytes →
      Stored wanted client (Client.write address bytes client).2
  | read (client : σ) (address : UInt32) (size : Nat) :
      Stored wanted client (Client.read address size client).2
  | execute (client : σ) (address : UInt32) : Stored wanted client (Client.execute address client).2

/-- A client stores bytes that are wanted, and nothing else in target memory changes. -/
abbrev Stores (wanted : UInt32 → Bytes → Prop) : σ → σ → Prop :=
  Relation.ReflTransGen (Stored wanted)

section Stores

variable {wanted : UInt32 → Bytes → Prop}

theorem stores_write {address : UInt32} {bytes : Bytes} (h : wanted address bytes) :
    Within (Stores wanted) (Client.write address bytes : LoadM σ Unit) :=
  fun client => .single (.write client h)

theorem stores_execute (address : UInt32) :
    Within (Stores wanted) (Client.execute address : LoadM σ Unit) :=
  fun client => .single (.execute client address)

theorem stores_runArray (array : AddressArray) (order : ByteOrder) (reverse : Bool) :
    Within (Stores wanted) (Loader.runArray array order reverse : LoadM σ Unit) := by
  unfold Loader.runArray
  refine Within.bind (fun client => .single (.read client _ _)) fun bytes => ?_
  exact Within.forM fun address => stores_execute address

end Stores

namespace Loading

/-- The client stores what is wanted; modules and table stay as they are. -/
structure Along (wanted : UInt32 → Bytes → Prop) (before after : Loading σ) : Prop where
  modules : after.loader.modules = before.loader.modules
  dsbt : after.loader.dsbt = before.loader.dsbt
  stores : Stores wanted before.loader.client after.loader.client

instance (wanted : UInt32 → Bytes → Prop) : IsPreorder (Loading σ) (Along wanted) where
  refl _ := ⟨rfl, rfl, .refl⟩
  trans _ _ _ hfirst hsecond := ⟨hsecond.modules.trans hfirst.modules,
    hsecond.dsbt.trans hfirst.dsbt, hfirst.stores.trans hsecond.stores⟩

variable {wanted : UInt32 → Bytes → Prop} {origin : Loading σ}

theorem along_onClient {α : Type} {step : LoadM σ α} (h : Within (Stores wanted) step) :
    Within (Along wanted) (onClient step) :=
  fun loading => ⟨rfl, rfl, h loading.loader.client⟩

theorem along_modifySession (change : Session → Session) :
    Within (Along wanted) (modifySession change : LoadM (Loading σ) Unit) :=
  fun _ => ⟨rfl, rfl, .refl⟩

theorem along_resident (handle : Handle) :
    Within (Along wanted) (resident handle : LoadM (Loading σ) Module) :=
  Within.of_unchanged (resident_unchanged handle)

/-- A step that goes along goes on from wherever an earlier one led. -/
theorem Along.triple {α : Type} {step : LoadM (Loading σ) α} (h : Within (Along wanted) step) :
    Triple (Along wanted origin) step (fun _ => Along wanted origin) (Along wanted origin) :=
  h.since origin

/-! ## The table of static bases -/

/-- The table of static bases, for one of the modules that are bound. -/
def WantsTable (dsbt : Dsbt) (address : UInt32) (bytes : Bytes) : Prop :=
  bytes.length = 4 * dsbt.slots.length ∧ ∃ entry ∈ dsbt.entries, entry.2.base = address

theorem along_writeTable {claim : Dsbt.Claim} {table : List UInt32}
    (h : ∀ bytes, bytes.length = 4 * table.length → wanted claim.base bytes) :
    Within (Along wanted) (writeTable claim table : LoadM (Loading σ) Unit) := by
  refine Within.bind Within.get fun loading => ?_
  dsimp only
  split
  · exact along_modifySession _
  · exact along_onClient (stores_write (h _ (ByteOrder.length_encodeWords _ _)))

theorem along_writeTables (origin : Loading σ) :
    Triple (Along (WantsTable origin.loader.dsbt) origin) writeTables
      (fun _ => Along (WantsTable origin.loader.dsbt) origin)
      (Along (WantsTable origin.loader.dsbt) origin) := by
  refine Triple.get_bind fun loading halong => ?_
  have hkeep : ∀ {s : Loading σ}, s = loading → Along (WantsTable origin.loader.dsbt) origin s :=
    fun heq => heq ▸ halong
  rw [halong.dsbt]
  unfold Dsbt.updateAll
  split
  · exact Triple.throw fun _ => hkeep
  · refine (Triple.forM fun entry hentry => Along.triple (along_writeTable ?_)).strengthen
      fun _ => hkeep
    intro bytes hlength
    exact ⟨hlength.trans (by rw [Dsbt.table, List.length_map]), entry, hentry, rfl⟩

theorem along_stageDynamics :
    Within (Along wanted) (stageDynamics : LoadM (Loading σ) Unit) := by
  refine Within.bind Within.get fun loading => ?_
  refine Within.bind (Within.mapM fun draft _ => ?_) fun _ => along_modifySession _
  split
  · exact Within.bind (along_resident draft.handle) fun _ => Within.pure
  · exact Within.pure

/-- Preparing a graph stores the table of static bases in private tables. -/
theorem along_prepare (root : Handle) (placed : Loading σ) :
    Along (WantsTable placed.loader.dsbt.assign) (bindSlots placed).2 (prepare root placed).2 := by
  refine Within.of_triple (R := fun _ => Along (WantsTable (bindSlots placed).2.loader.dsbt)
    (bindSlots placed).2) (s := placed) ?_
  refine Triple.bind (R := fun _ => Along (WantsTable (bindSlots placed).2.loader.dsbt)
    (bindSlots placed).2) ?_ fun _ => ?_
  · refine Triple.modify fun s hs => ?_
    rw [show s = placed from hs]
    exact Std.Refl.refl (bindSlots placed).2
  · refine (along_writeTables _).bind fun _ => ?_
    refine (Along.triple along_stageDynamics).bind fun _ => Along.triple ?_
    exact fun _ => ⟨rfl, rfl, .refl⟩

/-- A graph that is ready was placed and prepared. -/
theorem ready_state (image : Image) (loading : Loading σ) :
    (ready image loading).2 = match place image loading with
      | (.error _, placed) => placed
      | (.ok (root, _), placed) => (prepare root placed).2 := by
  rw [ready, bind_apply]
  rcases place image loading with ⟨e | ⟨root, handle⟩, placed⟩
  · rfl
  · simp only [bind_apply]
    rcases prepare root placed with ⟨e | ⟨⟩, middle⟩ <;> rfl

/-! ## Segments and arguments -/

/-- The contents of a segment of a module. -/
def WantsSegment (m : Module) (address : UInt32) (_ : Bytes) : Prop :=
  ∃ segment ∈ m.segments, segment.address = address

/-- The arguments for the area of a root. -/
def WantsArguments (arguments : List String) (root : Draft) (address : UInt32) (bytes : Bytes) :
    Prop :=
  bytes.length = Arguments.blockSize arguments ∧
    ∃ area, Draft.definitionIn? root.symbols Draft.argumentsSymbol = some area ∧ area.value = address

theorem along_writeSegments (draft : Draft)
    (h : ∀ m, Module.find? origin.loader.modules draft.handle = some m → ∀ address bytes,
      WantsSegment m address bytes → wanted address bytes) :
    Triple (Along wanted origin) (writeSegments draft) (fun _ => Along wanted origin)
      (Along wanted origin) := by
  refine Triple.bind (R := fun m s => Along wanted origin s ∧
    Module.find? origin.loader.modules draft.handle = some m) ?_ fun m => ?_
  · refine Triple.get_bind fun loading halong => ?_
    rw [halong.modules]
    cases Module.find? origin.loader.modules draft.handle with
    | some m => exact Triple.pure fun _ heq => ⟨heq ▸ halong, rfl⟩
    | none => exact Triple.throw fun _ heq => heq ▸ halong
  · rintro s ⟨halong, hfind⟩
    refine Triple.forM (fun entry hentry => Along.triple (along_onClient (stores_write ?_))) s halong
    exact h m hfind _ _ ⟨entry.1, (List.of_mem_zip hentry).1, rfl⟩

theorem along_relocateAndWrite {draft : Draft}
    (h : ∀ m, Module.find? origin.loader.modules draft.handle = some m → ∀ address bytes,
      WantsSegment m address bytes → wanted address bytes) :
    Triple (Along wanted origin) (relocateAndWrite draft) (fun _ => Along wanted origin)
      (Along wanted origin) := by
  unfold relocateAndWrite
  split
  · refine Triple.get_bind fun loading halong => ?_
    refine Triple.bind (R := fun relocated s => Along wanted origin s ∧
      draft.relocate loading.loader.modules loading.loader.app = .ok relocated) ?_ ?_
    · exact Triple.ofExcept (fun _ _ hrelocate heq => ⟨heq ▸ halong, hrelocate⟩)
        fun _ heq => heq ▸ halong
    · rintro ⟨done, applied⟩ s ⟨hs, hrelocate⟩
      obtain ⟨staged, -, rfl⟩ := Draft.exists_staged_of_relocate hrelocate
      exact along_writeSegments { draft with staged } h s hs
  · exact along_writeSegments draft h

theorem along_runArray? (array : Option AddressArray) (order : ByteOrder) :
    Within (Along wanted) (runArray? array order : LoadM (Loading σ) Unit) := by
  cases array with
  | none => exact Within.pure
  | some array => exact along_onClient (stores_runArray array order false)

theorem length_of_encode {base capacity : UInt32} {arguments : List String} {order : ByteOrder}
    {block : Bytes} (h : Arguments.encode base capacity arguments order = .ok block) :
    block.length = Arguments.blockSize arguments := by
  have hpointers : ∀ (address : UInt32) (arguments : List String),
      (Arguments.pointers address arguments).length = arguments.length := by
    intro address arguments
    induction arguments generalizing address with
    | nil => rfl
    | cons argument rest ih => exact congrArg (· + 1) (ih _)
  unfold Arguments.encode at h
  split at h
  · cases h
  · obtain rfl := Except.ok.inj h
    simp [ByteOrder.length_encodeWords, hpointers, Arguments.blockSize, Arguments.headerSize]

theorem along_writeArguments {arguments : List String} {draft : Draft}
    (h : ∀ address bytes, WantsArguments arguments draft address bytes → wanted address bytes) :
    Within (Along wanted) (writeArguments draft arguments : LoadM (Loading σ) Unit) := by
  unfold writeArguments
  cases harea : Draft.definitionIn? draft.symbols Draft.argumentsSymbol with
  | none => exact Within.pure
  | some area =>
    intro loading
    dsimp only
    rw [bind_apply, LoadM.ofExcept_apply]
    cases hencode : Arguments.encode area.value area.size arguments draft.file.order with
    | error e => exact Std.Refl.refl loading
    | ok block =>
      have hwants := h _ _ ⟨length_of_encode hencode, area, harea, rfl⟩
      exact along_onClient (stores_write hwants) loading

theorem along_runInitializers {root : Handle} {arguments : List String} {draft : Draft}
    (h : draft.handle = root → ∀ address bytes, WantsArguments arguments draft address bytes →
      wanted address bytes) :
    Within (Along wanted) (runInitializers root arguments draft : LoadM (Loading σ) Unit) := by
  rw [runInitializers_eq]
  refine Within.bind ?_ fun _ => Within.bind ?_ fun _ => along_runArray? _ _
  · unfold passArguments
    split
    · rename_i hroot
      exact along_writeArguments (h hroot)
    · exact Within.pure
  · unfold runInit
    split
    · exact along_onClient (stores_execute _)
    · exact Within.pure

/-- The initializers of new modules, those that come before all others first. -/
def startUp (root : Handle) (arguments : List String) (drafts : List Draft) :
    LoadM (Loading σ) Unit := do
  (drafts.filter (·.file.isExecutable)).forM runPreinit
  drafts.forM (runInitializers root arguments)

/-- Initializing new modules stores the arguments of the root. -/
theorem along_startUp {root : Handle} {arguments : List String} {drafts : List Draft}
    (h : ∀ draft ∈ drafts, draft.handle = root → ∀ address bytes,
      WantsArguments arguments draft address bytes → wanted address bytes) :
    Triple (Along wanted origin) (startUp root arguments drafts) (fun _ => Along wanted origin)
      (Along wanted origin) := by
  refine Triple.bind (R := fun _ => Along wanted origin) ?_ fun _ => ?_
  · exact Triple.forM fun draft _ => Along.triple (along_runArray? _ _)
  · exact Triple.forM fun draft hdraft => Along.triple (along_runInitializers (h draft hdraft))

/-- Completing the new modules stores their segments, and the arguments of the root. -/
theorem along_complete (wanted : UInt32 → Bytes → Prop) (origin : Loading σ) (root : Handle)
    (arguments : List String) (drafts : List Draft)
    (hsegments : ∀ draft ∈ drafts, ∀ m, Module.find? origin.loader.modules draft.handle = some m →
      ∀ address bytes, WantsSegment m address bytes → wanted address bytes)
    (harguments : ∀ draft ∈ drafts, draft.handle = root → ∀ address bytes,
      WantsArguments arguments draft address bytes → wanted address bytes) :
    Along wanted origin (complete root arguments drafts origin).2 := by
  refine Within.of_triple (R := fun _ => Along wanted origin) (s := origin) ?_
  refine Triple.strengthen (P := Along wanted origin) ?_ fun _ heq => heq ▸ Std.Refl.refl _
  refine Triple.bind (R := fun _ => Along wanted origin) ?_ fun _ => along_startUp harguments
  exact Triple.forM fun draft hdraft => along_relocateAndWrite (hsegments draft hdraft)

/-- After the last module of a graph is placed no module changes any more. -/
theorem modules_ready (image : Image) (loading : Loading σ) :
    (ready image loading).2.loader.modules = (place image loading).2.loader.modules := by
  rw [ready_state]
  rcases place image loading with ⟨e | ⟨root, handle⟩, placed⟩
  · rfl
  · exact (along_prepare root placed).modules

end Loading

/-- The modules of a load that succeeds are those that were there when its graph was placed. -/
theorem Loader.modules_of_load_ok {loader : Loader σ} {image : Image} {arguments : List String}
    {handle : Handle} (h : (loader.load image arguments).1 = .ok handle) :
    (loader.load image arguments).2.modules =
      (Loading.place image { loader }).2.loader.modules := by
  have hready := Loading.modules_ready image { loader }
  rw [load_apply] at h ⊢
  rcases hrun : Loading.ready image { loader } with ⟨e | ⟨root, handle'⟩, middle⟩ <;>
    rw [hrun] at h hready
  · cases h
  · have halong := Loading.along_complete (fun _ _ => True) middle root arguments
      middle.session.pending (fun _ _ _ _ _ _ _ => trivial) fun _ _ _ _ _ _ => trivial
    rcases hcomplete : Loading.complete root arguments middle.session.pending middle with
      ⟨e | ⟨⟩, after⟩ <;> rw [hcomplete] at halong <;> simp only [hcomplete] at h ⊢
    · cases h
    · exact halong.modules.trans hready

end TargetLink
