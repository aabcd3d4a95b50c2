import TargetLink.Proofs.Books

/-!
# Placing a module keeps the books

One triple for each step of placing a module: from `Loading.Placing` it leads back to
`Loading.Placing`, or it fails and leaves the load `Loading.Undoable`.  What a step returns is a
reference that is held from then on.
-/

namespace TargetLink

open TargetLink.Module (handlesOf needsOf allocationsOf)
open LoadM (Triple Within)

namespace ProgramHeader

/-- What is asked of a client to get memory for a segment. -/
def request (header : ProgramHeader) (relocatable : Bool) : AllocRequest where
  address := header.address
  memorySize := header.memorySize
  fileSize := header.fileSize
  fileOffset := header.offset
  align := header.align
  executable := header.executable
  writable := header.writable
  relocatable

/-- What is asked of a client to get the contents of a segment. -/
def part (header : ProgramHeader) : CopyRequest where
  fileOffset := header.offset
  fileSize := header.fileSize
  memorySize := header.memorySize

/-- The segment of a header in memory that a client handed out. -/
def segmentIn (header : ProgramHeader) (allocation : Allocation) : Segment where
  linkAddress := header.address
  memorySize := header.memorySize
  fileSize := header.fileSize
  flags := header.flags
  allocation

end ProgramHeader

@[simp] theorem Draft.file_ofPlaced (handle : Handle) (name : String) (file : ObjectFile)
    (segments : List Segment) (staged : List Bytes) :
    (Draft.ofPlaced handle name file segments staged).file = file := by
  unfold Draft.ofPlaced
  split <;> rfl

namespace Loading

theorem handle_ofPlaced {handle : Handle} {name : String} {file : ObjectFile}
    {segments : List Segment} {staged : List Bytes} :
    (Draft.ofPlaced handle name file segments staged).handle = handle := by
  unfold Draft.ofPlaced
  split <;> rfl

theorem handle_of_claim? {draft : Draft} {claim : Dsbt.Claim} (h : draft.claim? = some claim) :
    claim.handle = draft.handle := by
  obtain ⟨info, -, rfl⟩ := Option.map_eq_some_iff.mp h
  rfl

variable {σ : Type}

/-- Adds a segment to a module. -/
def addSegment (handle : Handle) (segment : Segment) : LoadM (Loading σ) Unit :=
  modifyModule handle fun m => { m with segments := m.segments ++ [segment] }

/-! ## Running the steps of a load -/

theorem resident_unchanged (handle : Handle) (loading : Loading σ) :
    (resident handle loading).2 = loading := by
  simp only [resident, LoadM.bind_apply, LoadM.get_apply]
  cases Module.find? loading.loader.modules handle with
  | some m => rfl
  | none => rfl

/-- What holds when a module is looked up holds afterwards, whether it is found or not. -/
theorem resident_keeps {P E : Loading σ → Prop} (hE : ∀ s, P s → E s) (handle : Handle) :
    Triple P (resident handle) (fun _ => P) E :=
  Within.triple (R := fun before after => after = before) (resident_unchanged handle)
    (fun _ _ hs heq => heq ▸ hs) hE

theorem addDependency_triple {P E : Loading σ → Prop} {Q : Unit → Loading σ → Prop}
    {handle found : Handle} (hE : ∀ s, P s → E s)
    (hQ : ∀ s, P s → Q () (withDependency handle found s)) :
    Triple P (addDependency handle found) Q E :=
  (resident_keeps hE handle).bind fun _ => Triple.modify hQ

theorem within_addDependency {R : Loading σ → Loading σ → Prop} [IsPreorder (Loading σ) R]
    {handle found : Handle} (h : ∀ s, R s (withDependency handle found s)) :
    Within R (addDependency handle found) :=
  Within.bind (Within.of_unchanged (resident_unchanged handle)) fun _ => h

theorem onClient_apply {α : Type} (step : LoadM σ α) (loading : Loading σ) :
    onClient step loading = ((step loading.loader.client).1,
      { loading with loader := { loading.loader with
        client := (step loading.loader.client).2 } }) := rfl

theorem newHandle_apply (loading : Loading σ) :
    onLoader Loader.newHandle loading =
      if loading.loader.nextHandle = Loader.lastHandle then (.error .handlesExhausted, loading)
      else (.ok loading.loader.nextHandle, { loading with
        loader := { loading.loader with nextHandle := loading.loader.nextHandle + 1 } }) := by
  rw [onLoader, LoadM.zoom_apply, Loader.newHandle_apply]
  split <;> rfl

theorem reuse_apply (name : String) (loading : Loading σ) :
    reuse name loading = match loading.loader.modules.find? (·.name == name) with
      | none => (.ok none, loading)
      | some m => (.ok (some m.handle),
        { loader := loading.loader.update m.handle fun m => { m with useCount := m.useCount + 1 }
          session := if loading.session.created.contains m.handle then loading.session
            else { loading.session with reused := loading.session.reused ++ [m.handle] } }) := by
  simp only [reuse, LoadM.bind_apply, LoadM.get_apply]
  cases loading.loader.modules.find? (·.name == name) with
  | none => rfl
  | some m =>
    cases hcreated : loading.session.created.contains m.handle with
    | true => simp only [LoadM.bind_apply, hcreated]; rfl
    | false => simp only [LoadM.bind_apply, hcreated]; rfl

variable [Client σ] {ledger : Ledger σ} {start : Loader σ} {held : List Handle}
  {opened : List (Handle × String)} {names : List String} {handle : Handle} {pending : List Draft}

/-! ## Steps of the client -/

theorem quiet_triple {α : Type} {step : LoadM σ α} (hstep : Within ledger.Quiet step) :
    Triple (Placing ledger start 0 held opened names) (onClient step)
      (fun _ => Placing ledger start 0 held opened names) (Undoable ledger start) := by
  refine Within.triple (R := fun before after => ∃ client,
    ledger.Quiet before.loader.client client ∧
      after = { before with loader := { before.loader with client } }) ?_ ?_ ?_
  · intro loading
    exact ⟨_, hstep loading.loader.client, rfl⟩
  · rintro loading _ h ⟨client, hquiet, rfl⟩
    exact h.quiet hquiet
  · intro loading h
    exact h.undoable

theorem allocate_triple {request : AllocRequest} (hsize : request.memorySize ≠ 0) :
    Triple (Placing ledger start 0 held opened names) (onClient (Client.allocate request))
      (fun allocation => Placing ledger start {allocation} held opened names)
      (Undoable ledger start) := by
  intro loading h
  have hholds := h.holds
  rw [Multiset.add_zero] at hholds
  rw [onClient_apply]
  cases hanswer : (Client.allocate request loading.loader.client).1 with
  | ok allocation =>
    refine h.client ?_
    rw [Multiset.add_comm, Multiset.singleton_add]
    exact ledger.allocate hsize hholds hanswer
  | error e =>
    have hkept := ledger.allocate_error hholds hanswer
    rw [← Multiset.add_zero (allocationsOf _)] at hkept
    exact (h.client hkept).undoable

theorem release_triple (allocation : Allocation) :
    Triple (Placing ledger start {allocation} held opened names)
      (onClient (liftM (Client.release allocation : StateM σ Unit)))
      (fun _ => Placing ledger start 0 held opened names) (Undoable ledger start) := by
  intro loading h
  have hholds := h.holds
  rw [Multiset.add_comm, Multiset.singleton_add] at hholds
  refine h.client ?_
  rw [Multiset.add_zero]
  exact ledger.release hholds

/-! ## Using a resident module again -/

/-- What holds between the modules of a graph: the names of the incomplete ones are in progress. -/
structure Ready (ledger : Ledger σ) (start : Loader σ) (held : List Handle)
    (opened : List (Handle × String)) (pending : List Draft) (loading : Loading σ) : Prop
    extends Placing ledger start 0 held opened (opened.map (·.2)) loading where
  pending_eq : loading.session.pending = pending

/-- What holds when a complete module was found: there is no new draft unless that module is new. -/
structure Found (ledger : Ledger σ) (start : Loader σ) (held : List Handle)
    (opened : List (Handle × String)) (pending : List Draft) (handle : Handle)
    (loading : Loading σ) : Prop
    extends Placing ledger start 0 (handle :: held) opened (opened.map (·.2)) loading where
  complete : handle ∉ opened.map (·.1)
  placed : loading.session.pending = pending ∨ handle ∈ loading.session.created

/-- What holds after a module was looked for among the resident ones. -/
def Sought (ledger : Ledger σ) (start : Loader σ) (held : List Handle)
    (opened : List (Handle × String)) (pending : List Draft) :
    Option Handle → Loading σ → Prop
  | some handle => Found ledger start held opened pending handle
  | none => Ready ledger start held opened pending

theorem reuse_triple (hstart : start.Sound ledger) {name : String}
    (hname : name ∉ opened.map (·.2)) :
    Triple (Ready ledger start held opened pending) (reuse name)
      (Sought ledger start held opened pending) (Undoable ledger start) := by
  intro loading h
  rw [reuse_apply]
  cases hfind : loading.loader.modules.find? (·.name == name) with
  | none => exact h
  | some m =>
    have hm : m ∈ loading.loader.modules := List.mem_of_find?_eq_some hfind
    have hmname : m.name = name := by simpa using List.find?_some hfind
    refine ⟨h.reuse hstart (Module.handle_mem hm), ?_, Or.inl ?_⟩
    · intro hopened
      obtain ⟨o, ho, hhandle⟩ := List.mem_map.mp hopened
      obtain ⟨n, hn, hnhandle, hnname⟩ := h.named o ho
      obtain rfl := Module.eq_of_handle_eq h.distinct hm hn (hhandle.symm.trans hnhandle.symm)
      rw [← hmname, hnname] at hname
      exact hname (List.mem_map_of_mem ho)
    · rw [← h.pending_eq]
      split <;> rfl

/-! ## Placing one module -/

/-- Taking a handle makes it fresh. -/
theorem Placing.newHandle {loading : Loading σ}
    (h : Placing ledger start 0 held opened names loading)
    (hlast : loading.loader.nextHandle ≠ Loader.lastHandle) :
    Placing ledger start 0 held opened names { loading with
      loader := { loading.loader with nextHandle := loading.loader.nextHandle + 1 } } := by
  have hnext : loading.loader.nextHandle ≤ loading.loader.nextHandle + 1 :=
    UInt32.le_of_lt (Loader.lt_add_one hlast)
  exact { h with
    toBooks := { h.toBooks with nextHandle := UInt32.le_trans h.nextHandle hnext }
    accounted := h.accounted.congr rfl rfl hnext }

theorem newHandle_triple : Triple (Placing ledger start 0 held opened names)
    (onLoader Loader.newHandle)
    (fun handle loading => Placing ledger start 0 held opened names loading ∧
      Loader.Fresh handle loading.loader ∧ start.nextHandle ≤ handle)
    (Undoable ledger start) := by
  intro loading h
  rw [newHandle_apply]
  by_cases hlast : loading.loader.nextHandle = Loader.lastHandle
  · rw [if_pos hlast]
    exact h.undoable
  · rw [if_neg hlast]
    exact ⟨h.newHandle hlast, h.accounted.fresh_nextHandle hlast, h.nextHandle⟩

theorem memorySize_ne_zero {file : ObjectFile} {header : ProgramHeader}
    (h : header ∈ file.loadHeaders) : header.memorySize ≠ 0 := by
  have hkept := (List.mem_filter.mp h).2
  simp only [Bool.and_eq_true, bne_iff_ne] at hkept
  exact hkept.2

theorem placeSegment_eq (handle : Handle) (image : Image) (relocatable : Bool)
    (header : ProgramHeader) :
    (placeSegment handle image relocatable header : LoadM (Loading σ) Bytes) = (do
      let allocation ← onClient (Client.allocate (header.request relocatable))
      if !relocatable ∧ allocation.address ≠ header.address then
        onClient (liftM (Client.release allocation : StateM σ Unit))
        throw (.memory (.misplaced header.address allocation.address))
      addSegment handle (header.segmentIn allocation)
      onClient (Client.copy image header.part)) :=
  rfl

/-- A segment gets memory.  If it is static and the memory lies elsewhere it gives the memory back and the
load fails, otherwise it is added and its contents are fetched. -/
theorem placeSegment_cases {image : Image} {relocatable : Bool} {header : ProgramHeader}
    {P E : Loading σ → Prop} {R : Allocation → Loading σ → Prop} {Q : Bytes → Loading σ → Prop}
    (hallocate : Triple P (onClient (Client.allocate (header.request relocatable))) R E)
    (hrefuse : ∀ allocation, allocation.address ≠ header.address → Triple (R allocation)
      (onClient (liftM (Client.release allocation : StateM σ Unit))) (fun _ => E) E)
    (hplace : ∀ allocation, (relocatable = false → allocation.address = header.address) →
      Triple (R allocation)
        (do addSegment handle (header.segmentIn allocation); onClient (Client.copy image header.part))
        Q E) :
    Triple P (placeSegment handle image relocatable header) Q E := by
  rw [placeSegment_eq]
  refine hallocate.bind fun allocation => ?_
  by_cases hmisplaced : !relocatable ∧ allocation.address ≠ header.address
  · rw [if_pos hmisplaced]
    exact (hrefuse allocation hmisplaced.2).bind fun _ => Triple.throw fun _ h => h
  · rw [if_neg hmisplaced]
    exact hplace allocation fun hstatic => by simpa [hstatic] using hmisplaced

theorem placeSegment_triple (hnew : handle ∉ handlesOf start.modules) (hheld : handle ∈ held)
    (image : Image) (relocatable : Bool) {header : ProgramHeader} (hsize : header.memorySize ≠ 0) :
    Triple (Placing ledger start 0 held opened names)
      (placeSegment handle image relocatable header)
      (fun _ => Placing ledger start 0 held opened names) (Undoable ledger start) := by
  have hfull : (header.request relocatable).memorySize ≠ 0 := hsize
  refine placeSegment_cases (allocate_triple hfull) (fun allocation _ => ?_) fun allocation _ => ?_
  · exact (release_triple allocation).weaken (fun _ _ h => h.undoable) fun _ h => h
  refine Triple.bind (R := fun _ => Placing ledger start 0 held opened names) ?_
    fun _ => quiet_triple (ledger.quiet_copy _ _)
  refine Triple.modify fun loading h => ?_
  refine h.update hnew (fun _ => rfl) (fun _ => rfl) (fun _ => rfl) ?_
  rw [Loader.allocationsOf_updateModule_append (h.accounted.resident hheld), Multiset.add_zero,
    ← Multiset.singleton_add, Multiset.add_comm]
  exact h.holds

theorem placeSegments_triple (hnew : handle ∉ handlesOf start.modules) (hheld : handle ∈ held)
    (image : Image) (file : ObjectFile) :
    Triple (Placing ledger start 0 held opened names) (placeSegments handle image file)
      (fun _ => Placing ledger start 0 held opened names) (Undoable ledger start) :=
  (resident_keeps (fun _ h => h.undoable) handle).bind fun _ => Triple.mapM fun _ hheader =>
    placeSegment_triple hnew hheld image _ (memorySize_ne_zero hheader)

theorem draftModule_triple (hnew : handle ∉ handlesOf start.modules) (hheld : handle ∈ held)
    (name : String) (file : ObjectFile) (staged : List Bytes) :
    Triple (Placing ledger start 0 held opened names) (draftModule handle name file staged)
      (fun _ => Placing ledger start 0 held opened names) (Undoable ledger start) := by
  refine (resident_keeps (fun _ h => h.undoable) handle).bind fun m => ?_
  generalize hdraft : Draft.ofPlaced handle name file m.segments staged = draft
  have hhandle : draft.handle = handle := hdraft ▸ handle_ofPlaced
  have hdescribe : Triple (Placing ledger start 0 held opened names)
      (modifyModule handle (describe draft))
      (fun _ => Placing ledger start 0 held opened names) (Undoable ledger start) := by
    refine Triple.modify fun loading h => ?_
    refine h.update hnew (fun _ => rfl) (fun _ => rfl) (fun _ => rfl) ?_
    have hallocations : allocationsOf (Loader.updateModule handle (describe draft)
        loading.loader.modules) = allocationsOf loading.loader.modules :=
      Loader.allocationsOf_updateModule fun _ => rfl
    rw [hallocations]
    exact h.holds
  refine hdescribe.bind fun _ => ?_
  cases hclaim : draft.claim? with
  | none => exact Triple.pure fun _ h => h
  | some claim =>
    refine Triple.get_bind fun loading h => ?_
    refine Triple.bind (R := fun dsbt s => s = loading ∧ loading.loader.dsbt.register claim = .ok dsbt)
      ?_ fun dsbt => ?_
    · exact Triple.ofExcept (fun _ _ hregister hs => ⟨hs, hregister⟩) fun _ hs => hs ▸ h.undoable
    · rintro _ ⟨rfl, hregister⟩
      refine h.register hregister ?_
      rw [handle_of_claim? hclaim, hhandle]
      exact h.mem_created (h.accounted.resident hheld) hnew

theorem addModule_triple (hstart : start.Sound ledger) (file : ObjectFile)
    (requested : Option String) :
    Triple (Placing ledger start 0 held opened names) (addModule file requested)
      (fun added loading =>
        Placing ledger start 0 (added.1 :: held) (opened ++ [added]) names loading ∧
          added.1 ∉ handlesOf start.modules ∧ added.1 ∉ opened.map (·.1))
      (Undoable ledger start) := by
  refine newHandle_triple.bind fun handle => ?_
  rintro loading ⟨h, hfresh, hle⟩
  refine ⟨h.addModule (m := {
    name := file.ownName?.getD (requested.getD (Loader.defaultName handle))
    handle
    policy := (LookupPolicy.ofOsAbi? file.header.osAbi).getD loading.loader.policy
    machine := file.machine
    order := file.order
    isExecutable := file.isExecutable }) hfresh hle rfl rfl rfl rfl, ?_, ?_⟩
  · intro hold
    exact Books.start_below hstart hold hle
  · intro hopened
    obtain ⟨o, ho, hhandle⟩ := List.mem_map.mp hopened
    obtain ⟨m, hm, hmhandle, -⟩ := h.named o ho
    have hmem := Module.handle_mem hm
    rw [hmhandle, hhandle] at hmem
    exact hfresh.notMem hmem

/-! ## Around the dependencies -/

theorem reuseOwn_triple (hstart : start.Sound ledger) (file : ObjectFile) :
    Triple (Ready ledger start held opened pending) (reuseOwn file)
      (Sought ledger start held opened pending) (Undoable ledger start) := by
  unfold reuseOwn
  cases file.ownName? with
  | none => exact Triple.pure fun _ h => h
  | some name =>
    refine Triple.get_bind fun loading h => ?_
    refine Triple.throw_if (fun _ _ heq => heq ▸ h.undoable) fun hname => ?_
    refine (reuse_triple hstart ?_).strengthen fun _ heq => heq ▸ h
    rw [← h.inProgress]
    simpa using hname

theorem noteMachine_triple (machine : Machine) :
    Triple (Ready ledger start held opened pending)
      (modifySession fun s => { s with machine := some machine })
      (fun _ => Ready ledger start held opened pending) (Undoable ledger start) := by
  refine Triple.modify fun loading h => ?_
  exact ⟨h.session rfl rfl h.inProgress, h.pending_eq⟩

/-- A new module is complete once all its dependencies are. -/
theorem closeModule_triple {name : String} (hnew : handle ∉ handlesOf start.modules)
    (hnotopened : handle ∉ opened.map (·.1)) (draft : Draft) :
    Triple (Placing ledger start 0 (handle :: held) (opened ++ [(handle, name)])
        ((opened ++ [(handle, name)]).map (·.2)))
      (modifySession fun s => { s with
        inProgress := s.inProgress.dropLast
        pending := s.pending ++ [draft] })
      (fun _ => Found ledger start held opened pending handle) (Undoable ledger start) := by
  refine Triple.modify fun loading h => ?_
  have hnames : loading.session.inProgress.dropLast = opened.map (·.2) := by
    simp [h.inProgress]
  refine ⟨Placing.complete (h.session rfl rfl hnames), hnotopened, Or.inr ?_⟩
  exact h.mem_created (h.accounted.resident List.mem_cons_self) hnew

end Loading

end TargetLink
