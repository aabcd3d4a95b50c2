import TargetLink.Proofs.Ordering
import TargetLink.Proofs.Portraits
import TargetLink.Proofs.Turns

/-!
# Where the new modules come from

The draft of a new module is that of a file which the load read: its own one, or one that the client opened
before (`Loading.Sourced`).  Nothing after the last module was placed exchanges the file of a draft
(`Loading.Refiled`).  A simulated target opens the same files all along, so the files of a graph that is
prepared are those that the target had when the load began (`Loading.delivered_of_prepare`).
-/

namespace TargetLink

open LoadM (Triple Within Same)
open Relation (ReflTransGen)

/-- What holds of every answer of what comes next holds whatever was done before. -/
theorem LoadM.Triple.bind_next {σ α β : Type} {P : σ → Prop} {step : LoadM σ α} {next : α → LoadM σ β}
    {Q : β → σ → Prop} (h : ∀ a, Triple (fun _ => True) (next a) Q fun _ => True) :
    Triple P (step >>= next) Q fun _ => True := by
  refine Triple.bind (R := fun _ _ => True) (fun s _ => ?_) h
  split <;> trivial

theorem Draft.file_withDynamicStaged (draft : Draft) (segments : List Segment) :
    (draft.withDynamicStaged segments).file = draft.file := by
  unfold Draft.withDynamicStaged
  dsimp only
  split
  · rename_i address _
    cases hstage : draft.stage? segments address
        (DynamicEntry.encodeTable draft.dynamic draft.file.order) with
    | none => rfl
    | some staged =>
      obtain ⟨blocks, -, rfl⟩ := Option.map_eq_some_iff.mp hstage
      rfl
  · rfl

namespace Loading

variable {σ : Type}

/-- The drafts that wait for the rest of the graph. -/
def pending (loading : Loading σ) : List Draft := loading.session.pending

/-! ## Steps that draft nothing -/

theorem pending_reuse (name : String) : Within (Same pending) (reuse name : LoadM (Loading σ) _) := by
  intro loading
  rw [reuse_apply]
  split
  · rfl
  · dsimp only [Same, pending]
    split <;> rfl

theorem pending_newHandle :
    Within (Same pending) (onLoader Loader.newHandle : LoadM (Loading σ) Handle) := by
  intro loading
  rw [newHandle_apply]
  split <;> rfl

theorem pending_draftModule (handle : Handle) (name : String) (file : ObjectFile) (staged : List Bytes) :
    Within (Same pending) (draftModule handle name file staged : LoadM (Loading σ) _) := by
  unfold draftModule
  refine Within.bind (Within.of_unchanged (resident_unchanged handle)) fun m => ?_
  refine Within.bind (fun _ => rfl) fun _ => ?_
  generalize Draft.ofPlaced handle name file m.segments staged = draft
  cases draft.claim? with
  | none => exact Within.pure
  | some claim =>
    refine Within.get_bind fun loading => ?_
    rw [LoadM.bind_apply, LoadM.ofExcept_apply]
    cases loading.loader.dsbt.register claim <;> rfl

theorem draftModule_file (handle : Handle) (name : String) (file : ObjectFile) (staged : List Bytes) :
    Triple (fun _ => True) (draftModule handle name file staged : LoadM (Loading σ) Draft)
      (fun draft _ => draft.file = file) fun _ => True := by
  refine Triple.bind_next fun m => ?_
  have hfile := Draft.file_ofPlaced handle name file m.segments staged
  generalize Draft.ofPlaced handle name file m.segments staged = draft at hfile ⊢
  refine Triple.bind_next fun _ => ?_
  cases draft.claim? with
  | none => exact Triple.pure fun _ _ => hfile
  | some claim =>
    exact Triple.bind_next fun _ => Triple.bind_next fun _ => Triple.bind_next fun _ =>
      Triple.pure fun _ _ => hfile

variable [Client σ]

theorem pending_placeSegment (handle : Handle) (image : Image) (relocatable : Bool)
    (header : ProgramHeader) :
    Within (Same pending) (placeSegment handle image relocatable header : LoadM (Loading σ) Bytes) := by
  have hclient {α : Type} (step : LoadM σ α) :
      Within (Same pending) (onClient step : LoadM (Loading σ) α) := fun _ => rfl
  unfold placeSegment
  refine Within.bind (hclient _) fun allocation => ?_
  split
  · exact Within.bind (hclient _) fun _ => Within.throw
  · exact Within.bind (fun _ => rfl) fun _ => hclient _

/-- A module that is entered is not drafted before the modules that it needs. -/
theorem pending_enter (image : Image) (requested : Option String) :
    Within (Same pending) (enter image requested : LoadM (Loading σ) _) := by
  refine Within.bind Within.ofExcept fun file => Within.bind Within.get fun loading => ?_
  refine Within.bind Within.ofExcept fun _ => Within.bind (fun _ => rfl) fun _ => ?_
  have hreuse : Within (Same pending) (reuseOwn file : LoadM (Loading σ) _) := by
    unfold reuseOwn
    split
    · exact Within.pure
    · exact Within.bind Within.get fun loading => Within.throw_if (pending_reuse _)
  refine Within.bind hreuse fun found => ?_
  cases found with
  | some handle => exact Within.pure
  | none =>
    have hadd : Within (Same pending) (addModule file requested : LoadM (Loading σ) _) :=
      Within.bind pending_newHandle fun _ => Within.bind (fun _ => rfl) fun _ => Within.pure
    refine Within.bind hadd fun added => ?_
    refine Within.bind (Within.bind (Within.of_unchanged (resident_unchanged _)) fun _ =>
      Within.mapM fun header _ => pending_placeSegment _ _ _ _) fun staged => ?_
    exact Within.bind (pending_draftModule _ _ file staged) fun draft =>
      Within.bind (fun _ => rfl) fun _ => Within.pure

/-- What was entered is the draft of the file that was read. -/
theorem enter_file (image : Image) (requested : Option String) :
    Triple (fun _ => True) (enter image requested : LoadM (Loading σ) _)
      (fun entered _ => ∀ handle file draft, entered = .inr (handle, file, draft) →
        ObjectFile.read image = .ok draft.file) fun _ => True := by
  refine Triple.bind (R := fun file _ => ObjectFile.read image = .ok file)
    (Triple.ofExcept (fun _ _ hread _ => hread) fun _ _ => trivial) fun file => ?_
  by_cases hread : ObjectFile.read image = .ok file
  · refine Triple.bind_next fun loading => Triple.bind_next fun _ => Triple.bind_next fun _ =>
      Triple.bind_next fun found => ?_
    cases found with
    | some handle => exact Triple.pure fun _ _ _ _ _ heq => nomatch heq
    | none =>
      refine Triple.bind_next fun added => Triple.bind_next fun staged => ?_
      refine (draftModule_file _ _ file staged).bind fun draft => ?_
      refine Triple.bind (R := fun _ _ => draft.file = file) (Triple.modify fun _ h => h) fun _ => ?_
      refine Triple.pure fun _ hfile _ _ _ heq => ?_
      obtain ⟨-, -, rfl⟩ := Prod.mk.inj (Sum.inr.inj heq)
      rw [hread, hfile]
  · exact fun _ h => absurd h hread

/-! ## Placing a graph -/

/-- The drafts are those of files that the load read. -/
def Sourced (root : Image) (loading : Loading σ) : Prop :=
  ∀ draft ∈ loading.session.pending, ∃ source, Source root loading.loader.client source ∧
    ObjectFile.read source = .ok draft.file

variable {root image : Image} {before after : Loading σ}

theorem Sourced.mono (h : Sourced root before) (hpending : Same pending before after)
    (hserved : ReflTransGen Served before.loader.client after.loader.client) : Sourced root after := by
  intro draft hdraft
  rw [show after.session.pending = before.session.pending from hpending] at hdraft
  obtain ⟨source, hsource, hread⟩ := h draft hdraft
  exact ⟨source, hsource.mono hserved, hread⟩

/-- Steps that draft nothing while the client serves. -/
theorem sourced_within {α : Type} {step : LoadM (Loading σ) α} (hpending : Within (Same pending) step)
    (hwalked : Within Walked step) :
    Triple (Sourced root) step (fun _ => Sourced root) fun _ => True := by
  refine Within.triple (R := fun before after => Same pending before after ∧ Walked before after)
    (fun loading => ⟨hpending loading, hwalked loading⟩) (fun _ _ h hsame => ?_) fun _ _ => trivial
  exact h.mono hsame.1 hsame.2.served

theorem enter_sourced (image : Image) (requested : Option String) :
    Triple (Sourced root) (enter image requested : LoadM (Loading σ) _)
      (fun entered s => Sourced root s ∧ ∀ handle file draft, entered = .inr (handle, file, draft) →
        ObjectFile.read image = .ok draft.file) fun _ => True :=
  ((sourced_within (pending_enter image requested) (walked_enter image requested)).and
    (enter_file image requested)).strengthen fun _ h => ⟨h, trivial⟩

theorem need_sourced {load : String → Image → LoadM (Loading σ) Handle}
    (hload : ∀ name opened, Triple (fun s => Sourced root s ∧ Source root s.loader.client opened)
      (load name opened) (fun _ => Sourced root) fun _ => True) (handle : Handle) (name : String) :
    Triple (Sourced root) (need handle load name) (fun _ => Sourced root) fun _ => True := by
  refine Triple.bind (R := fun _ => Sourced root) ?_ fun found =>
    addDependency_triple (fun _ _ => trivial) fun _ h => h
  refine Triple.get_bind fun loading h => ?_
  refine Triple.throw_if (fun _ _ _ => trivial) fun _ => ?_
  refine ((sourced_within (pending_reuse name) (walked_of_move (move_reuse name))).strengthen
    fun s hs => (show s = loading from hs) ▸ h).bind fun found => ?_
  cases found with
  | some handle => exact Triple.pure fun _ h => h
  | none =>
    refine Triple.bind (R := fun answer s => Sourced root s ∧
      ∀ opened, answer = some opened → Source root s.loader.client opened) ?_ fun answer => ?_
    · intro s hs
      refine ⟨hs.mono rfl (.single (.openDependent s.loader.client name)), fun opened heq => ?_⟩
      exact Or.inr ⟨name, s.loader.client, heq, .refl⟩
    · cases answer with
      | none => exact Triple.throw fun _ _ => trivial
      | some opened => exact (hload name opened).strengthen fun s hs => ⟨hs.1, hs.2 opened rfl⟩

theorem loadModule_sourced (depth : Nat) (image : Image) (requested : Option String) :
    Triple (fun s : Loading σ => Sourced root s ∧ Source root s.loader.client image)
      (loadModule depth image requested) (fun _ => Sourced root) fun _ => True := by
  induction depth generalizing image requested with
  | zero => exact Triple.throw fun _ _ => trivial
  | succ depth ih =>
    rw [loadModule_succ]
    have hkept (before after : Loading σ) (hwalked : Walked before after) :
        Source root before.loader.client image → Source root after.loader.client image :=
      fun h => h.mono hwalked.served
    refine ((walked_enter image requested).keep (enter_sourced image requested) hkept).bind
      fun entered => ?_
    rcases entered with handle | ⟨handle, file, draft⟩
    · exact Triple.pure fun _ h => h.1.1
    · rintro s ⟨⟨hsourced, hread⟩, hs⟩
      have hneeds : Triple (fun s => Sourced root s ∧ Source root s.loader.client image)
          (file.needed.forM (need handle fun name image => loadModule depth image (some name)))
          (fun _ s => Sourced root s ∧ Source root s.loader.client image) fun _ => True :=
        Triple.forM fun name _ =>
          (walked_need (fun name image => walked_loadModule depth image (some name)) handle name).keep
            (need_sourced (fun name image => ih image (some name)) handle name) hkept
      refine (hneeds.bind fun _ => ?_) s ⟨hsourced, hs⟩
      refine Triple.bind (R := fun _ => Sourced root) (Triple.modify fun after h => ?_) fun _ =>
        Triple.pure fun _ h => h
      intro other hother
      rcases List.mem_append.mp hother with hold | hlast
      · exact h.1 other hold
      · rw [List.mem_singleton.mp hlast]
        exact ⟨image, h.2, hread handle file draft rfl⟩

theorem place_sourced (loader : Loader σ) (image : Image) :
    Triple (· = { loader }) (place image) (fun _ => Sourced image) fun _ => True := by
  refine Triple.get_bind fun begun hbegun => ?_
  refine Triple.bind (R := fun _ => Sourced image) ?_ fun root => ?_
  · refine (loadModule_sourced _ image none).strengthen fun s hs => ?_
    rw [show s = begun from hs, hbegun]
    exact ⟨by rintro _ ⟨⟩, Or.inl rfl⟩
  · refine Triple.get_bind fun loading h => ?_
    split
    · exact Triple.pure fun s hs => hs ▸ h
    · refine Triple.bind (R := fun _ => Sourced image) ?_ fun _ => Triple.pure fun _ h => h
      exact (sourced_within pending_newHandle (walked_of_move move_newHandle)).strengthen
        fun s hs => hs ▸ h

/-! ## Preparing a graph -/

section

omit [Client σ]

/-- Every draft has the file of one that was there before. -/
def Refiled (before after : Loading σ) : Prop :=
  ∀ draft ∈ after.session.pending, ∃ other ∈ before.session.pending, other.file = draft.file

instance : IsPreorder (Loading σ) Refiled where
  refl _ draft hdraft := ⟨draft, hdraft, rfl⟩
  trans _ _ _ hfirst hsecond draft hdraft := by
    obtain ⟨other, hother, heq⟩ := hsecond draft hdraft
    obtain ⟨origin, horigin, heq'⟩ := hfirst other hother
    exact ⟨origin, horigin, heq'.trans heq⟩

theorem refiled_of_files (h : after.session.pending.map (·.file) = before.session.pending.map (·.file)) :
    Refiled before after := by
  intro draft hdraft
  have hmem := List.mem_map_of_mem (f := fun draft : Draft => draft.file) hdraft
  rw [h] at hmem
  exact List.mem_map.mp hmem

theorem refiled_bindSlots : Within Refiled (bindSlots : LoadM (Loading σ) Unit) := by
  refine fun loading => refiled_of_files ?_
  change (loading.session.pending.map _).map Draft.file = loading.session.pending.map Draft.file
  rw [List.map_map]
  refine List.map_congr_left fun draft _ => ?_
  dsimp only [Function.comp_apply, Draft.withSlot]
  split
  · rfl
  · split <;> rfl

theorem refiled_stageDynamics : Within Refiled (stageDynamics : LoadM (Loading σ) Unit) := by
  refine Within.get_bind fun loading => ?_
  have hrounds : ∀ draft ∈ loading.session.pending,
      Triple (· = loading) (do
          if draft.file.isRelocatable then
            return draft.withDynamicStaged (← resident draft.handle).segments
          else return draft : LoadM (Loading σ) Draft)
        (fun draft' s => s = loading ∧ draft'.file = draft.file) (· = loading) := by
    intro draft _
    split
    · exact (resident_keeps (fun _ hs => hs) draft.handle).bind fun m =>
        Triple.pure fun _ hs => ⟨hs, draft.file_withDynamicStaged m.segments⟩
    · exact Triple.pure fun _ hs => ⟨hs, rfl⟩
  refine Within.of_triple (((Triple.mapM_view hrounds).weaken (fun _ _ h => h) ?_).bind fun pending => ?_)
  · intro s hs
    rw [show s = loading from hs]
    exact Std.Refl.refl loading
  · refine Triple.modify fun s h => ?_
    obtain ⟨rfl, hfiles⟩ := h
    exact refiled_of_files hfiles

end

theorem refiled_writeTable (claim : Dsbt.Claim) (table : List UInt32) :
    Within Refiled (writeTable claim table : LoadM (Loading σ) Unit) := by
  refine Within.get_bind fun loading => ?_
  cases hstaged : stagePending loading.loader.modules claim.handle claim.base _
      loading.session.pending with
  | some pending =>
    intro draft hdraft
    obtain ⟨m, other, done, -, hfind, hstage, rfl⟩ := exists_staged_of_stagePending hstaged
    obtain ⟨origin, horigin, rfl⟩ := List.mem_map.mp hdraft
    split
    · obtain ⟨staged, -, rfl⟩ := Option.map_eq_some_iff.mp hstage
      exact ⟨other, (mem_of_find_pending hfind).1, rfl⟩
    · exact ⟨origin, horigin, rfl⟩
  | none => exact fun draft hdraft => ⟨draft, hdraft, rfl⟩

theorem refiled_prepare (root : Handle) :
    Within Refiled (prepare root : LoadM (Loading σ) Unit) := by
  have htables : Within Refiled (writeTables : LoadM (Loading σ) Unit) := by
    refine Within.bind Within.get fun loading => ?_
    unfold Dsbt.updateAll
    split
    · exact Within.throw
    · exact Within.forM fun entry => refiled_writeTable entry.2 _
  refine Within.bind refiled_bindSlots fun _ => Within.bind htables fun _ => ?_
  exact Within.bind refiled_stageDynamics fun _ loading draft hdraft => ⟨draft, hdraft, rfl⟩

/-! ## The files of a target -/

/-- The file is the one to load, or one that the target opens for a name. -/
def Delivered (root : Image) (target : SimulatedTarget) (source : Image) : Prop :=
  source = root ∨ ∃ name, target.open? name = some source

theorem Source.delivered {target after : SimulatedTarget} {root source : Image}
    (h : Source root after source) (hserved : ReflTransGen Served target after) :
    Delivered root target source := by
  have hsame {before after : SimulatedTarget} (h : ReflTransGen Served before after) :
      after.directories = before.directories := by
    induction h with
    | refl => rfl
    | tail _ hlast ih => exact (directories_of_served hlast).trans ih
  refine h.imp_right fun ⟨name, opening, hopened, hrest⟩ => ⟨name, ?_⟩
  have hdirectories : target.directories = opening.directories :=
    (hsame hserved).symm.trans (hsame hrest)
  change (opening.directories.findSome? (·.lookup name)) = some source at hopened
  rwa [← hdirectories] at hopened

/-- The drafts of a graph that is prepared are those of files that the load was given or that its target
had when it began. -/
theorem delivered_of_prepare {loader : Loader SimulatedTarget} {image : Image} {found : Handle × Handle}
    {root : Handle} {placed middle : Loading SimulatedTarget}
    (hplace : place image { loader } = (.ok found, placed))
    (hprepare : prepare root placed = (.ok (), middle)) :
    ∀ draft ∈ middle.session.pending, ∃ source, Delivered image loader.client source ∧
      ObjectFile.read source = .ok draft.file := by
  intro draft hdraft
  have hserved := (walked_place image { loader }).served
  have hrefiled := refiled_prepare root placed
  rw [hplace] at hserved
  rw [hprepare] at hrefiled
  obtain ⟨other, hother, heq⟩ := hrefiled draft hdraft
  obtain ⟨source, hsource, hread⟩ := (place_sourced loader image).ok rfl hplace other hother
  exact ⟨source, hsource.delivered hserved, heq ▸ hread⟩

end Loading

end TargetLink
