import TargetLink.Proofs.Phases
import TargetLink.Proofs.Placement
import Mathlib.Logic.Relation

/-!
# What placing a graph moves

Placing asks the client for memory, contents and files only (`Loading.Served`), takes handles, and
changes the books.  `Loading.Walked` says so of a whole graph, and `Loading.Move` of the steps between
two openings of a module: they show neither in what modules need nor in what is in progress.

A module is entered before the modules that it needs are looked for (`Loading.enter`).  Either it
turns out to be resident, or it is the last module from then on, with its name in progress and without
anything that it needs (`Loading.Entered`).
-/

namespace TargetLink

open LoadM (Triple Within bind_apply)

/-- What a module shows to those that need it, and what it needs itself. -/
abbrev Module.face (m : Module) : (Handle × String) × List Handle :=
  ((m.handle, m.name), m.dependencies)

/-- The segments of all resident modules. -/
def Loader.segments {σ : Type} (loader : Loader σ) : List Segment :=
  loader.modules.flatMap (·.segments)

theorem Loader.segments_update {σ : Type} {loader : Loader σ} {handle : Handle}
    {change : Module → Module} (h : ∀ m, (change m).segments = m.segments) :
    (loader.update handle change).segments = loader.segments := by
  simp only [segments, update, List.flatMap_def, map_updateModule h]

namespace Loading

variable {σ : Type}

def faces (loading : Loading σ) : List ((Handle × String) × List Handle) :=
  loading.loader.modules.map Module.face

variable [Client σ]

/-- How a client serves the placing of a graph. No request is empty, and no memory is given back but
memory that was handed out at the wrong address just before. -/
inductive Served : σ → σ → Prop
  | allocate {client : σ} {request : AllocRequest} : request.memorySize ≠ 0 →
      Served client (Client.allocate request client).2
  | refuse {client : σ} {request : AllocRequest} {allocation : Allocation} :
      request.memorySize ≠ 0 → (Client.allocate request client).1 = .ok allocation →
      Served client (Client.release allocation (Client.allocate request client).2).2
  | copy (client : σ) (image : Image) (request : CopyRequest) :
      Served client (Client.copy image request client).2
  | openDependent (client : σ) (name : String) : Served client (Client.openDependent name client).2

variable (σ) in
/-- The memory of the segment was handed out for a request of its size. -/
def Granted (segment : Segment) : Prop :=
  ∃ (request : AllocRequest) (client : σ),
    (Client.allocate request client).1 = .ok segment.allocation ∧
      request.memorySize = segment.memorySize

/-- What placing moves: the client serves it and grants the new segments, handles are taken, and no
slot is bound. -/
structure Walked (before after : Loading σ) : Prop where
  served : Relation.ReflTransGen Served before.loader.client after.loader.client
  segments : ∀ segment ∈ after.loader.segments,
    segment ∈ before.loader.segments ∨ Granted σ segment
  slots : after.loader.dsbt.slots = before.loader.dsbt.slots
  nextHandle : before.loader.nextHandle ≤ after.loader.nextHandle

instance : IsPreorder (Loading σ) Walked where
  refl _ := ⟨.refl, fun _ => Or.inl, rfl, UInt32.le_refl _⟩
  trans _ _ _ hfirst hsecond :=
    ⟨hfirst.served.trans hsecond.served,
      fun _ hsegment => (hsecond.segments _ hsegment).elim (hfirst.segments _) Or.inr,
      hsecond.slots.trans hfirst.slots, UInt32.le_trans hfirst.nextHandle hsecond.nextHandle⟩

/-- What placing moves between two openings of a module. -/
structure Move (before after : Loading σ) : Prop extends Walked before after where
  faces : after.faces = before.faces
  inProgress : after.session.inProgress = before.session.inProgress

instance : IsPreorder (Loading σ) Move where
  refl loading := ⟨Std.Refl.refl loading, rfl, rfl⟩
  trans before middle after hfirst hsecond :=
    ⟨IsTrans.trans before middle after hfirst.toWalked hsecond.toWalked,
      hsecond.faces.trans hfirst.faces, hsecond.inProgress.trans hfirst.inProgress⟩

/-! ## Steps of a module -/

theorem move_client {loading : Loading σ} {client : σ} (h : Served loading.loader.client client) :
    Move loading { loading with loader := { loading.loader with client } } :=
  ⟨⟨.single h, fun _ => Or.inl, rfl, UInt32.le_refl _⟩, rfl, rfl⟩

theorem walked_update {loading : Loading σ} {handle : Handle} {change : Module → Module}
    {session : Session} (h : ∀ m, (change m).segments = m.segments) :
    Walked loading { loader := loading.loader.update handle change, session } :=
  ⟨.refl, fun _ hsegment => Or.inl (Loader.segments_update h ▸ hsegment), rfl, UInt32.le_refl _⟩

/-- A module may change in what it neither shows nor owns. -/
theorem move_update {loading : Loading σ} {handle : Handle} {change : Module → Module}
    {session : Session} (h : ∀ m, (change m).face = m.face)
    (hsegments : ∀ m, (change m).segments = m.segments)
    (hsession : session.inProgress = loading.session.inProgress) :
    Move loading { loader := loading.loader.update handle change, session } :=
  ⟨walked_update hsegments, Loader.map_updateModule h, hsession⟩

theorem move_modifySession {change : Session → Session}
    (h : ∀ session, (change session).inProgress = session.inProgress) :
    Within Move (modifySession change : LoadM (Loading σ) Unit) :=
  fun loading => ⟨⟨.refl, fun _ => Or.inl, rfl, UInt32.le_refl _⟩, rfl, h loading.session⟩

theorem move_resident (handle : Handle) :
    Within Move (resident handle : LoadM (Loading σ) Module) :=
  Within.of_unchanged (resident_unchanged handle)

theorem move_newHandle : Within Move (onLoader Loader.newHandle : LoadM (Loading σ) Handle) := by
  intro loading
  rw [newHandle_apply]
  split
  · exact Std.Refl.refl loading
  · rename_i hlast
    exact ⟨⟨.refl, fun _ => Or.inl, rfl, UInt32.le_of_lt (Loader.lt_add_one hlast)⟩, rfl, rfl⟩

theorem move_reuse (name : String) : Within Move (reuse name : LoadM (Loading σ) _) := by
  intro loading
  rw [reuse_apply]
  split
  · exact Std.Refl.refl loading
  · refine move_update (fun _ => rfl) (fun _ => rfl) ?_
    split <;> rfl

theorem move_reuseOwn (file : ObjectFile) :
    Within Move (reuseOwn file : LoadM (Loading σ) _) := by
  unfold reuseOwn
  split
  · exact Within.pure
  · exact Within.bind Within.get fun loading => Within.throw_if (move_reuse _)

theorem move_addSegment {handle : Handle} {segment : Segment} (h : Granted σ segment) :
    Within Move (addSegment handle segment : LoadM (Loading σ) Unit) := by
  refine fun loading => ⟨⟨.refl, fun other hother => ?_, rfl, UInt32.le_refl _⟩,
    Loader.map_updateModule fun _ => rfl, rfl⟩
  obtain ⟨m', hm', hmem⟩ := List.mem_flatMap.mp hother
  obtain ⟨m, hm, rfl | ⟨-, rfl⟩⟩ := Loader.exists_of_mem_updateModule hm'
  · exact Or.inl (List.mem_flatMap.mpr ⟨m', hm, hmem⟩)
  · rcases List.mem_append.mp hmem with hold | hnew
    · exact Or.inl (List.mem_flatMap.mpr ⟨m, hm, hold⟩)
    · exact Or.inr (List.mem_singleton.mp hnew ▸ h)

theorem move_placeSegment (handle : Handle) (image : Image) (relocatable : Bool)
    {header : ProgramHeader} (hsize : header.memorySize ≠ 0) :
    Within Move (placeSegment handle image relocatable header : LoadM (Loading σ) Bytes) := by
  intro loading
  have hfull : (header.request relocatable).memorySize ≠ 0 := hsize
  rw [placeSegment_eq, bind_apply, onClient_apply]
  cases hanswer : (Client.allocate (header.request relocatable) loading.loader.client).1 with
  | error e => exact move_client (.allocate hfull)
  | ok allocation =>
    dsimp only
    split
    · exact move_client (.refuse hfull hanswer)
    · refine IsTrans.trans loading _ _ (move_client (.allocate hfull)) ?_
      refine Within.bind_at (move_addSegment ⟨header.request relocatable, _, hanswer, rfl⟩ _)
        fun _ middle hmiddle => ?_
      rw [onClient_apply]
      exact IsTrans.trans _ middle _ hmiddle (move_client (.copy _ image _))

theorem move_placeSegments (handle : Handle) (image : Image) (file : ObjectFile) :
    Within Move (placeSegments handle image file : LoadM (Loading σ) (List Bytes)) :=
  Within.bind (move_resident handle) fun _ => Within.mapM fun _ hheader =>
    move_placeSegment handle image _ (memorySize_ne_zero hheader)

theorem move_draftModule (handle : Handle) (name : String) (file : ObjectFile)
    (staged : List Bytes) :
    Within Move (draftModule handle name file staged : LoadM (Loading σ) _) := by
  unfold draftModule
  refine Within.bind (move_resident handle) fun m => ?_
  refine Within.bind (fun _ => move_update (fun _ => rfl) (fun _ => rfl) rfl) fun _ => ?_
  generalize Draft.ofPlaced handle name file m.segments staged = draft
  cases draft.claim? with
  | none => exact Within.pure
  | some claim =>
    refine Within.get_bind fun loading => ?_
    rw [bind_apply, LoadM.ofExcept_apply]
    cases hregister : loading.loader.dsbt.register claim with
    | error e => exact Std.Refl.refl loading
    | ok dsbt =>
      exact ⟨⟨.refl, fun _ => Or.inl, congrArg (·.slots) (Dsbt.register_eq hregister),
        UInt32.le_refl _⟩, rfl, rfl⟩

/-! ## Entering a module -/

/-- Reads a file. If its module is resident it is used again, and if not it is placed and opened. -/
def enter (image : Image) (requested : Option String) :
    LoadM (Loading σ) (Handle ⊕ Handle × ObjectFile × Draft) := do
  let file ← MonadExcept.ofExcept (ObjectFile.read image)
  let loading ← get
  MonadExcept.ofExcept
    (Loader.checkMachine (loading.loader.machine <|> loading.session.machine) file.machine)
  modifySession fun s => { s with machine := some file.machine }
  match ← reuseOwn file with
  | some handle => return .inl handle
  | none =>
    let (handle, name) ← addModule file requested
    let staged ← placeSegments handle image file
    let draft ← draftModule handle name file staged
    modifySession fun s => { s with inProgress := s.inProgress ++ [name] }
    return .inr (handle, file, draft)

/-- Notes which module a module needs next. -/
def need (handle : Handle) (load : String → Image → LoadM (Loading σ) Handle) (name : String) :
    LoadM (Loading σ) Unit := do
  let found ← loadDependency (load name) name
  addDependency handle found

/-- A module is complete. -/
def close (draft : Draft) : LoadM (Loading σ) Unit :=
  modifySession fun s => { s with
    inProgress := s.inProgress.dropLast
    pending := s.pending ++ [draft] }

/-- Places the module of a file, and what it needs with `load`. -/
def placeModule (load : Image → Option String → LoadM (Loading σ) Handle) (image : Image)
    (requested : Option String) : LoadM (Loading σ) Handle := do
  match ← enter image requested with
  | .inl handle => return handle
  | .inr (handle, file, draft) =>
    file.needed.forM (need handle fun name image => load image (some name))
    close draft
    return handle

theorem loadModule_succ (depth : Nat) (image : Image) (requested : Option String) :
    (loadModule (depth + 1) image requested : LoadM (Loading σ) Handle) =
      placeModule (loadModule depth) image requested := by
  unfold loadModule placeModule enter
  simp only [bind_assoc]
  refine bind_congr fun file => bind_congr fun loading => bind_congr fun _ => bind_congr fun _ =>
    bind_congr fun found => ?_
  cases found with
  | some handle => exact (pure_bind _ _).symm
  | none =>
    simp only [bind_assoc]
    rfl

/-! ## The walk of a graph -/

theorem walked_of_move {α : Type} {step : LoadM (Loading σ) α} (h : Within Move step) :
    Within Walked step :=
  h.mono fun _ _ => Move.toWalked

theorem walked_modifySession (change : Session → Session) :
    Within Walked (modifySession change : LoadM (Loading σ) Unit) :=
  fun _ => ⟨.refl, fun _ => Or.inl, rfl, UInt32.le_refl _⟩

theorem walked_addModule (file : ObjectFile) (requested : Option String) :
    Within Walked (addModule file requested : LoadM (Loading σ) _) := by
  refine Within.bind (walked_of_move move_newHandle) fun handle => ?_
  refine Within.bind (fun loading => ⟨.refl, fun segment hsegment => ?_, rfl, UInt32.le_refl _⟩)
    fun _ => Within.pure
  -- the new module has no segments yet
  obtain ⟨m, hm, hmem⟩ := List.mem_flatMap.mp hsegment
  rcases List.mem_append.mp hm with hold | hnew
  · exact Or.inl (List.mem_flatMap.mpr ⟨m, hold, hmem⟩)
  · rw [List.mem_singleton.mp hnew] at hmem
    cases hmem

theorem walked_enter (image : Image) (requested : Option String) :
    Within Walked (enter image requested : LoadM (Loading σ) _) := by
  refine Within.bind Within.ofExcept fun file => Within.bind Within.get fun loading => ?_
  refine Within.bind Within.ofExcept fun _ => ?_
  refine Within.bind (walked_of_move (move_modifySession fun _ => rfl)) fun _ => ?_
  refine Within.bind (walked_of_move (move_reuseOwn file)) fun found => ?_
  cases found with
  | some handle => exact Within.pure
  | none =>
    refine Within.bind (walked_addModule file requested) fun added => ?_
    refine Within.bind (walked_of_move (move_placeSegments _ image file)) fun staged => ?_
    refine Within.bind (walked_of_move (move_draftModule _ _ file staged)) fun draft => ?_
    exact Within.bind (walked_modifySession _) fun _ => Within.pure

theorem walked_need {load : String → Image → LoadM (Loading σ) Handle}
    (hload : ∀ name image, Within Walked (load name image)) (handle : Handle) (name : String) :
    Within Walked (need handle load name) := by
  refine Within.bind (Within.bind Within.get fun loading => Within.throw_if ?_) fun found =>
    within_addDependency fun _ => walked_update fun _ => rfl
  refine Within.bind (walked_of_move (move_reuse name)) fun found => ?_
  cases found with
  | some handle => exact Within.pure
  | none =>
    refine Within.bind (walked_of_move fun loading => move_client (.openDependent _ name))
      fun image => ?_
    cases image with
    | some image => exact hload name image
    | none => exact Within.throw

theorem walked_loadModule (depth : Nat) (image : Image) (requested : Option String) :
    Within Walked (loadModule depth image requested : LoadM (Loading σ) Handle) := by
  induction depth generalizing image requested with
  | zero => exact Within.throw
  | succ depth ih =>
    rw [loadModule_succ]
    refine Within.bind (walked_enter image requested) fun entered => ?_
    rcases entered with handle | ⟨handle, file, draft⟩
    · exact Within.pure
    · refine Within.bind (Within.forM (walked_need (fun name image => ih image (some name)) handle))
        fun _ => ?_
      exact Within.bind (walked_modifySession _) fun _ => Within.pure

theorem walked_place (image : Image) :
    Within Walked (place image : LoadM (Loading σ) (Handle × Handle)) := by
  refine Within.bind Within.get fun begun => ?_
  refine Within.bind (walked_loadModule _ image none) fun root => ?_
  refine Within.bind Within.get fun loading => ?_
  split
  · exact Within.pure
  · exact Within.bind (walked_of_move move_newHandle) fun _ => Within.pure

/-! ## What entering does -/

/-- The module of a file is placed since `before`, under a handle that was free, and the names `names`
are in progress besides. It is the last module and needs nothing yet. -/
structure Entered (before : Loading σ) (names : List String) (handle : Handle) (name : String)
    (after : Loading σ) : Prop extends Walked before after where
  fresh : before.loader.nextHandle ≤ handle
  below : handle < after.loader.nextHandle
  faces : after.faces = before.faces ++ [((handle, name), [])]
  inProgress : after.session.inProgress = before.session.inProgress ++ names

theorem Entered.move {before middle after : Loading σ} {names : List String} {handle : Handle}
    {name : String} (h : Entered before names handle name middle) (hmove : Move middle after) :
    Entered before names handle name after where
  toWalked := IsTrans.trans before middle after h.toWalked hmove.toWalked
  fresh := h.fresh
  below := UInt32.lt_of_lt_of_le h.below hmove.nextHandle
  faces := hmove.faces.trans h.faces
  inProgress := hmove.inProgress.trans h.inProgress

/-- The module of a name is found among the resident ones, or nothing is. -/
theorem reuse_move (before : Loading σ) (name : String) :
    Triple (Move before) (reuse name)
      (fun found after => Move before after ∧
        ∀ handle, found = some handle → ∃ m ∈ after.loader.modules, m.handle = handle ∧ m.name = name)
      fun _ => True := by
  intro middle hmove
  have hreuse := IsTrans.trans before middle _ hmove (move_reuse name middle)
  rw [reuse_apply] at hreuse ⊢
  cases hfind : middle.loader.modules.find? (·.name == name) with
  | none => exact ⟨hmove, fun _ hnone => by cases hnone⟩
  | some m =>
    rw [hfind] at hreuse
    refine ⟨hreuse, fun handle hsome => ?_⟩
    obtain rfl := Option.some.inj hsome
    have hname : m.name = name := by simpa using List.find?_some hfind
    obtain ⟨m', hm', heq⟩ := Loader.exists_mem_updateModule (List.mem_of_find?_eq_some hfind) m.handle
      fun m => { m with useCount := m.useCount + 1 }
    refine ⟨m', hm', ?_⟩
    rcases heq with rfl | rfl
    · exact ⟨rfl, hname⟩
    · exact ⟨rfl, hname⟩

/-- What is known once a file was looked for under its own name. -/
def Recognized (before : Loading σ) (file : ObjectFile) :
    Option Handle → Loading σ → Prop
  | some handle, after => Move before after ∧
    ∃ m ∈ after.loader.modules, m.handle = handle ∧ file.ownName? = some m.name
  | none, after => Move before after ∧
    ∀ name, file.ownName? = some name → name ∉ before.session.inProgress

theorem reuseOwn_move {before : Loading σ} (file : ObjectFile) :
    Triple (Move before) (reuseOwn file) (Recognized before file) fun _ => True := by
  unfold reuseOwn
  cases hown : file.ownName? with
  | none => exact Triple.pure fun after hmove => ⟨hmove, fun name hname => by simp [hown] at hname⟩
  | some name =>
    refine Triple.get_bind fun middle hmove => ?_
    refine Triple.throw_if (fun _ _ _ => trivial) fun hfree => ?_
    refine ((reuse_move _ name).strengthen fun s (hs : s = middle) => hs ▸ hmove).weaken ?_ fun _ h => h
    rintro (_ | handle) after ⟨hafter, hfound⟩
    · refine ⟨hafter, fun own hown' => ?_⟩
      obtain rfl : name = own := Option.some.inj (hown.symm.trans hown')
      rw [← hmove.inProgress]
      simpa using hfree
    · obtain ⟨m, hm, hhandle, hname⟩ := hfound handle rfl
      exact ⟨hafter, m, hm, hhandle, hown.trans (congrArg some hname.symm)⟩

theorem addModule_entered {before : Loading σ} (file : ObjectFile) (requested : Option String) :
    Triple (Move before) (addModule file requested)
      (fun added after => Entered before [] added.1 added.2 after ∧
        added.2 = file.ownName?.getD (requested.getD (Loader.defaultName added.1)))
      fun _ => True := by
  intro middle hmove
  have hwalked := IsTrans.trans before middle _ hmove.toWalked
    (walked_addModule file requested middle)
  simp only [addModule, bind_apply, newHandle_apply] at hwalked ⊢
  by_cases hlast : middle.loader.nextHandle = Loader.lastHandle
  · simp [hlast]
  · simp only [if_neg hlast] at hwalked ⊢
    refine ⟨⟨hwalked, hmove.nextHandle, Loader.lt_add_one hlast, ?_, ?_⟩, rfl⟩
    · exact (List.map_append).trans (congrArg (· ++ _) hmove.faces)
    · exact hmove.inProgress.trans (List.append_nil _).symm

/-- What is known once a file was entered. -/
def Admitted (before : Loading σ) (image : Image) (requested : Option String) :
    Handle ⊕ Handle × ObjectFile × Draft → Loading σ → Prop
  | .inl handle, after => Move before after ∧ ∃ file, ObjectFile.read image = .ok file ∧
    ∃ m ∈ after.loader.modules, m.handle = handle ∧ file.ownName? = some m.name
  | .inr (handle, file, _), after => ObjectFile.read image = .ok file ∧
    (∀ name, file.ownName? = some name → name ∉ before.session.inProgress) ∧
    ∃ name, name = file.ownName?.getD (requested.getD (Loader.defaultName handle)) ∧
      Entered before [name] handle name after

theorem enter_admitted (before : Loading σ) (image : Image) (requested : Option String) :
    Triple (· = before) (enter image requested) (Admitted before image requested) fun _ => True := by
  refine Triple.bind (R := fun file s => ObjectFile.read image = .ok file ∧ s = before)
    (Triple.ofExcept (fun _ _ hread hs => ⟨hread, hs⟩) fun _ _ => trivial) fun file => ?_
  refine Triple.get_bind fun loading h => ?_
  obtain ⟨hread, rfl⟩ := h
  refine Triple.bind (R := fun _ s => Move loading s)
    (Triple.ofExcept (fun _ s _ hs => hs ▸ Std.Refl.refl s) fun _ _ => trivial) fun _ => ?_
  refine Triple.bind (R := fun _ => Move loading) ?_ fun _ => ?_
  · refine Within.triple (move_modifySession ?_)
      (fun s t hs hmove => IsTrans.trans loading s t hs hmove) fun _ _ => trivial
    exact fun _ => rfl
  refine (reuseOwn_move file).bind fun found => ?_
  cases found with
  | some handle => exact Triple.pure fun s h => ⟨h.1, file, hread, h.2⟩
  | none =>
    rintro s ⟨hmove, hfree⟩
    refine ((addModule_entered file requested).bind fun added => ?_) s hmove
    obtain ⟨handle, name⟩ := added
    have hmoves {α : Type} {step : LoadM (Loading σ) α} (hstep : Within Move step) :
        Triple (fun s => Entered loading [] handle name s ∧
            name = file.ownName?.getD (requested.getD (Loader.defaultName handle))) step
          (fun _ s => Entered loading [] handle name s ∧
            name = file.ownName?.getD (requested.getD (Loader.defaultName handle))) fun _ => True :=
      hstep.triple (fun s t hs hmove => ⟨hs.1.move hmove, hs.2⟩) fun _ _ => trivial
    refine (hmoves (move_placeSegments handle image file)).bind fun staged => ?_
    refine (hmoves (move_draftModule handle name file staged)).bind fun draft => ?_
    refine Triple.bind (R := fun _ s => Entered loading [name] handle name s ∧
      name = file.ownName?.getD (requested.getD (Loader.defaultName handle))) ?_ fun _ => ?_
    · refine Triple.modify fun s hs => ⟨{ hs.1 with inProgress := ?_ }, hs.2⟩
      exact congrArg (· ++ [name]) (hs.1.inProgress.trans (List.append_nil _))
    · exact Triple.pure fun s hs => ⟨hread, hfree, name, hs.2, hs.1⟩

end Loading

end TargetLink
