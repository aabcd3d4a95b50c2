import TargetLink.Loader.State

/-!
# Placing a module graph

The first half of a load reads a file and everything that it needs, places the segments of every
new module in target memory, and registers claims on the table of static bases.  A module that is
already resident is not loaded again; it gains a reference.

A session keeps the books of one load: what it created and what it only used once more.  That is
what `Loading.abort` needs to undo it.
-/

namespace TargetLink

structure Session where
  /-- The new modules that are placed, dependencies before the modules that need them. -/
  pending : List Draft := []
  /-- The names of the modules whose dependencies are being loaded, the outermost first. -/
  inProgress : List String := []
  /-- The modules that this load created, in order. -/
  created : List Handle := []
  /-- The resident modules that gained a reference, once for each. -/
  reused : List Handle := []
  machine : Option Machine := none

/-- A loader in the middle of a load. -/
structure Loading (σ : Type) where
  loader : Loader σ
  session : Session := {}

namespace Loading

variable {σ : Type}

def onLoader {α : Type} (step : LoadM (Loader σ) α) : LoadM (Loading σ) α :=
  step.zoom (·.loader) fun loader loading => { loading with loader }

def onClient {α : Type} (step : LoadM σ α) : LoadM (Loading σ) α :=
  onLoader (Loader.onClient step)

def modifySession (change : Session → Session) : LoadM (Loading σ) Unit :=
  modify fun loading => { loading with session := change loading.session }

def modifyModule (handle : Handle) (change : Module → Module) : LoadM (Loading σ) Unit :=
  modify fun loading => { loading with loader := loading.loader.update handle change }

def resident (handle : Handle) : LoadM (Loading σ) Module := do
  match Module.find? (← get).loader.modules handle with
  | some mod => return mod
  | none => throw (.internal (.notResident handle))

/-! ## Using a resident module again -/

/-- Adds a reference to the resident module of a name, if there is one. A module that this load
created is not noted as reused, since undoing the load removes it. -/
def reuse (name : String) : LoadM (Loading σ) (Option Handle) := do
  let loading ← get
  match loading.loader.modules.find? (·.name == name) with
  | none => return none
  | some mod =>
    modifyModule mod.handle fun m => { m with useCount := m.useCount + 1 }
    if !loading.session.created.contains mod.handle then
      modifySession fun s => { s with reused := s.reused ++ [mod.handle] }
    return some mod.handle

/-! ## Placing one module -/

variable [Client σ]

/-- Places and stages one segment of a module. A static segment that the client puts elsewhere is
given back at once. -/
def placeSegment (handle : Handle) (image : Image) (relocatable : Bool) (header : ProgramHeader) :
    LoadM (Loading σ) Bytes := do
  let allocation ← onClient <| Client.allocate
    { address := header.address
      memorySize := header.memorySize
      fileSize := header.fileSize
      fileOffset := header.offset
      align := header.align
      executable := header.executable
      writable := header.writable
      relocatable }
  if !relocatable ∧ allocation.address ≠ header.address then
    onClient (liftM (Client.release allocation : StateM σ Unit))
    throw (.memory (.misplaced header.address allocation.address))
  modifyModule handle fun m => { m with
    segments := m.segments ++ [{
      linkAddress := header.address
      memorySize := header.memorySize
      fileSize := header.fileSize
      flags := header.flags
      allocation }] }
  onClient <| Client.copy image
    { fileOffset := header.offset
      fileSize := header.fileSize
      memorySize := header.memorySize }

def placeSegments (handle : Handle) (image : Image) (file : ObjectFile) :
    LoadM (Loading σ) (List Bytes) := do
  let _ ← resident handle
  file.loadHeaders.mapM (placeSegment handle image file.isRelocatable)

/-- The resident module of a draft with what its placement decided. -/
def describe (draft : Draft) (mod : Module) : Module :=
  { mod with
    entry := Draft.placedEntry draft.file mod.segments
    staticBase := draft.staticBase
    fini := draft.function? DynamicTag.fini
    finiArray := draft.functions? DynamicTag.finiArray DynamicTag.finiArraySize }.withSymbols
      (draft.symbols.drop draft.file.firstGlobal)

/-- Moves the tables of a placed module, completes its resident side and registers its claim. -/
def draftModule (handle : Handle) (name : String) (file : ObjectFile) (staged : List Bytes) :
    LoadM (Loading σ) Draft := do
  let mod ← resident handle
  let draft := Draft.ofPlaced handle name file mod.segments staged
  modifyModule handle (describe draft)
  match draft.claim? with
  | some claim =>
    let loading ← get
    let dsbt ← MonadExcept.ofExcept (loading.loader.dsbt.register claim)
    set { loading with loader := { loading.loader with dsbt } }
  | none => pure ()
  return draft

def addModule (file : ObjectFile) (requested : Option String) :
    LoadM (Loading σ) (Handle × String) := do
  let handle ← onLoader Loader.newHandle
  let name := file.ownName?.getD (requested.getD (Loader.defaultName handle))
  modify fun loading =>
    let policy := (LookupPolicy.ofOsAbi? file.header.osAbi).getD loading.loader.policy
    let mod : Module :=
      { name, handle, policy
        machine := file.machine
        order := file.order
        isExecutable := file.isExecutable }
    { loading with
      loader := { loading.loader with modules := loading.loader.modules ++ [mod] }
      session := { loading.session with created := loading.session.created ++ [handle] } }
  return (handle, name)

/-! ## Placing a graph -/

/-- Finds the module of a needed name: one that is being loaded would close a circle, a resident
one is used again, any other is opened and loaded. -/
def loadDependency (load : Image → LoadM (Loading σ) Handle) (name : String) :
    LoadM (Loading σ) Handle := do
  if (← get).session.inProgress.contains name then
    throw (.circularDependency name)
  match ← reuse name with
  | some handle => return handle
  | none =>
    match ← onClient (liftM (Client.openDependent name : StateM σ (Option Image))) with
    | some image => load image
    | none => throw (.dependencyNotFound name)

/-- The module of a file that is already known under the file's own name: one that is being loaded
would close a circle, a resident one is used again. -/
def reuseOwn (file : ObjectFile) : LoadM (Loading σ) (Option Handle) := do
  match file.ownName? with
  | none => return none
  | some name =>
    if (← get).session.inProgress.contains name then
      throw (.circularDependency name)
    reuse name

/-- Notes that a module needs another one. -/
def addDependency (handle found : Handle) : LoadM (Loading σ) Unit := do
  let _ ← resident handle
  modifyModule handle fun m => { m with dependencies := m.dependencies ++ [found] }

/-- Reads and places a module and everything that it needs.

A module takes a handle before its dependencies are loaded, so the number of handles that are left
bounds the depth. -/
def loadModule : (depth : Nat) → Image → Option String → LoadM (Loading σ) Handle
  | 0, _, _ => throw .handlesExhausted
  | depth + 1, image, requested => do
    let file ← MonadExcept.ofExcept (ObjectFile.read image)
    let loading ← get
    MonadExcept.ofExcept
      (Loader.checkMachine (loading.loader.machine <|> loading.session.machine) file.machine)
    modifySession fun s => { s with machine := some file.machine }
    match ← reuseOwn file with
    | some handle => return handle
    | none =>
      let (handle, name) ← addModule file requested
      let staged ← placeSegments handle image file
      let draft ← draftModule handle name file staged
      modifySession fun s => { s with inProgress := s.inProgress ++ [name] }
      file.needed.forM fun dependency => do
        let found ← loadDependency (loadModule depth · (some dependency)) dependency
        addDependency handle found
      modifySession fun s => { s with
        inProgress := s.inProgress.dropLast
        pending := s.pending ++ [draft] }
      return handle

/-! ## Undoing a load -/

/-- A loader without a module that a load created. -/
def discard (loader : Loader σ) (handle : Handle) : Loader σ :=
  let rest : Loader σ :=
    match Module.find? loader.modules handle with
    | some mod =>
      { loader with
        modules := loader.modules.eraseP (·.handle == handle)
        client := Loader.giveBack mod.segments loader.client }
    | none => loader
  { rest with dsbt := rest.dsbt.release handle }.withoutApp handle

/-- A loader without one reference that a load added to a resident module. -/
def dropReuse (loader : Loader σ) (handle : Handle) : Loader σ :=
  loader.update handle fun m => { m with useCount := max (m.useCount - 1) 1 }

/-- The loader without what the load did: new modules leave, the last one first, and resident ones
lose the references that they gained. -/
def abort (loading : Loading σ) : Loader σ :=
  loading.session.reused.foldl dropReuse
    (loading.session.created.reverse.foldl discard loading.loader)

end Loading

end TargetLink
