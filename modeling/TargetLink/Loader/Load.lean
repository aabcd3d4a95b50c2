import TargetLink.Loader.Arguments
import TargetLink.Loader.Session
import TargetLink.Module.Relocate

/-!
# Loading

Once a whole graph is placed, the second half of a load binds the claims on the table of static
bases, relocates every new module, writes it to the target, and runs the initializers, those of a
module after those of the modules that it needs.  No function runs before every new module is
relocated and written.

A load that fails in either half is undone.
-/

namespace TargetLink

namespace Loading

variable {σ : Type} [Client σ]

/-! ## Binding the table of static bases -/

/-- Binds all claims to slots and tells every new module its slot. -/
def bindSlots : LoadM (Loading σ) Unit :=
  modify fun loading =>
    let dsbt := loading.loader.dsbt.assign
    { loading with
      loader := { loading.loader with dsbt }
      session := { loading.session with
        pending := loading.session.pending.map (·.withSlot dsbt) } }

/-- The new modules with bytes stored in the staged contents of one of them, if it has room for
them. -/
def stagePending (modules : List Module) (handle : Handle) (address : UInt32) (bytes : Bytes)
    (pending : List Draft) : Option (List Draft) := do
  let draft ← pending.find? (·.handle == handle)
  let mod ← Module.find? modules handle
  let staged ← draft.stage? mod.segments address bytes
  return pending.map fun d => if d.handle = handle then staged else d

/-- Stores the table of static bases in the private table of a module: in its staged contents if it
is new and its private table lies there, in target memory otherwise. -/
def writeTable (claim : Dsbt.Claim) (table : List UInt32) : LoadM (Loading σ) Unit := do
  let loading ← get
  let modules := loading.loader.modules
  let order := ((Module.find? modules claim.handle).map (·.order)).getD .little
  let bytes := order.encodeWords table
  match stagePending modules claim.handle claim.base bytes loading.session.pending with
  | some pending => modifySession fun s => { s with pending }
  | none => onClient (Client.write claim.base bytes)

/-- Brings every private table of static bases up to date. -/
def writeTables : LoadM (Loading σ) Unit := do
  (← get).loader.dsbt.updateAll writeTable

/-! ## Relocating and writing -/

/-- Stores the moved dynamic tables of the new modules in their staged contents. -/
def stageDynamics : LoadM (Loading σ) Unit := do
  let pending ← (← get).session.pending.mapM fun draft => do
    if draft.file.isRelocatable then
      return draft.withDynamicStaged (← resident draft.handle).segments
    else return draft
  modifySession fun s => { s with pending }

def writeSegments (draft : Draft) : LoadM (Loading σ) Unit := do
  let mod ← resident draft.handle
  (mod.segments.zip draft.staged).forM fun (segment, block) =>
    onClient (Client.write segment.address block)

/-- Relocates a new module and writes it to the target. A static module is written as it is. -/
def relocateAndWrite (draft : Draft) : LoadM (Loading σ) Unit := do
  if draft.file.isRelocatable then
    let loader := (← get).loader
    let (draft, _) ← MonadExcept.ofExcept (draft.relocate loader.modules loader.app)
    writeSegments draft
  else writeSegments draft

/-! ## Initializers -/

def runArray? (array : Option AddressArray) (order : ByteOrder) : LoadM (Loading σ) Unit :=
  match array with
  | some array => onClient (Loader.runArray array order false)
  | none => pure ()

/-- Writes the program arguments to the area that a module has for them, if it has one. -/
def writeArguments (draft : Draft) (arguments : List String) : LoadM (Loading σ) Unit := do
  match Draft.definitionIn? draft.symbols Draft.argumentsSymbol with
  | some area =>
    let block ← MonadExcept.ofExcept
      (Arguments.encode area.value area.size arguments draft.file.order)
    onClient (Client.write area.value block)
  | none => pure ()

/-- Runs the initializers of a new module. The root gets its arguments first. -/
def runInitializers (root : Handle) (arguments : List String) (draft : Draft) :
    LoadM (Loading σ) Unit := do
  if draft.handle = root then
    writeArguments draft arguments
  match draft.init? with
  | some address => onClient (Client.execute address)
  | none => pure ()
  runArray? draft.initArray? draft.file.order

/-! ## The second half -/

/-- Binds, relocates, writes and initializes the new modules. -/
def finish (root : Handle) (arguments : List String) : LoadM (Loading σ) Unit := do
  bindSlots
  writeTables
  stageDynamics
  modify fun loading => { loading with
    loader := { loading.loader with app := loading.loader.app <|> some root } }
  let pending := (← get).session.pending
  pending.forM relocateAndWrite
  (pending.filter (·.file.isExecutable)).forM fun draft =>
    runArray? draft.preinitArray? draft.file.order
  pending.forM (runInitializers root arguments)

/-- Loads a file and everything that it needs. A root that was resident gets another handle. -/
def loadGraph (image : Image) (arguments : List String) : LoadM (Loading σ) Handle := do
  let root ← loadModule (UInt32.size - (← get).loader.nextHandle.toNat) image none
  let handle ← if (← get).session.created.contains root then pure root
    else onLoader Loader.newHandle
  finish root arguments
  modify fun loading => { loading with
    loader := { loading.loader with handles := (handle, root) :: loading.loader.handles } }
  return handle

end Loading

namespace Loader

variable {σ : Type}

/-- Loads a file and everything that it needs and runs the initializers. A load that fails changes
no resident module. -/
def load [Client σ] (loader : Loader σ) (image : Image) (arguments : List String) :
    Except LoadError Handle × Loader σ :=
  match Loading.loadGraph image arguments { loader } with
  | (.ok handle, loading) =>
    (.ok handle, { loading.loader with
      machine := loading.loader.machine <|> loading.session.machine })
  | (.error e, loading) => (.error e, loading.abort)

def loadSymbolsStep (image : Image) : LoadM (Loader σ) Handle := do
  let file ← MonadExcept.ofExcept (ObjectFile.read image)
  MonadExcept.ofExcept (checkMachine (← get).machine file.machine)
  let handle ← newHandle
  modify fun loader =>
    let staticBase := (Draft.definitionIn? file.symbols Draft.staticBaseSymbol).map (·.value)
    let mod : Module :=
      { handle
        name := file.ownName?.getD (defaultName handle)
        machine := file.machine
        order := file.order
        isExecutable := file.isExecutable
        policy := (LookupPolicy.ofOsAbi? file.header.osAbi).getD loader.policy
        entry := file.header.entry
        staticBase := staticBase.getD 0
        symbolsOnly := true }
    { loader with
      machine := some file.machine
      modules := loader.modules ++ [mod.withSymbols (file.symbols.drop file.firstGlobal)]
      handles := (handle, handle) :: loader.handles }
  return handle

/-- Registers the symbols of a module that is already present on the target. Nothing is placed and
no client is asked. -/
def loadSymbolsOnly (loader : Loader σ) (image : Image) : Except LoadError Handle × Loader σ :=
  loadSymbolsStep image loader

end Loader

end TargetLink
