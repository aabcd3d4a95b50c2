import TargetLink.Loader.Load
import TargetLink.Proofs.Steps

/-!
# The phases of a load

A load places its graph (`Loading.place`), brings the tables of static bases and the dynamic tables
up to date (`Loading.prepare`), and completes the modules: it relocates and writes all of them before
it runs any initializer (`Loading.complete`).  Between the last two phases the graph is ready: from
there on nothing but the client moves, so what is `Loading.ready` says which modules are relocated
against which graph, and in which order.
-/

namespace TargetLink

open LoadM (bind_apply)

namespace Loading

variable {σ : Type} [Client σ]

/-- Places the graph of an image. The answer is its root and the handle of the load. -/
def place (image : Image) : LoadM (Loading σ) (Handle × Handle) := do
  let root ← loadModule (UInt32.size - (← get).loader.nextHandle.toNat) image none
  let handle ← if (← get).session.created.contains root then pure root
    else onLoader Loader.newHandle
  return (root, handle)

/-- Searches start at the root, unless they start at a module already. -/
def chooseApp (root : Handle) : LoadM (Loading σ) Unit :=
  modify fun loading => { loading with
    loader := { loading.loader with app := loading.loader.app <|> some root } }

/-- What happens between placing the last module and relocating the first one. -/
def prepare (root : Handle) : LoadM (Loading σ) Unit := do
  bindSlots
  writeTables
  stageDynamics
  chooseApp root

/-- Places the graph of an image and prepares its modules for relocation. -/
def ready (image : Image) : LoadM (Loading σ) (Handle × Handle) := do
  let placed ← place image
  prepare placed.1
  return placed

/-- Writes the program arguments if the module is the root. -/
def passArguments (root : Handle) (arguments : List String) (draft : Draft) :
    LoadM (Loading σ) Unit :=
  if draft.handle = root then writeArguments draft arguments else pure ()

/-- Runs the single initializer of a module. -/
def runInit (draft : Draft) : LoadM (Loading σ) Unit :=
  match draft.init? with
  | some address => onClient (Client.execute address)
  | none => pure ()

theorem runInitializers_eq (root : Handle) (arguments : List String) (draft : Draft) :
    (runInitializers root arguments draft : LoadM (Loading σ) Unit) = (do
      passArguments root arguments draft
      runInit draft
      runArray? draft.initArray? draft.file.order) := by
  unfold runInitializers passArguments runInit
  cases draft.init? with
  | none => by_cases hroot : draft.handle = root <;> simp [hroot]
  | some address => by_cases hroot : draft.handle = root <;> simp [hroot]

def runPreinit (draft : Draft) : LoadM (Loading σ) Unit :=
  runArray? draft.preinitArray? draft.file.order

/-- Relocates and writes the new modules and runs their initializers. -/
def complete (root : Handle) (arguments : List String) (pending : List Draft) :
    LoadM (Loading σ) Unit := do
  pending.forM relocateAndWrite
  (pending.filter (·.file.isExecutable)).forM runPreinit
  pending.forM (runInitializers root arguments)

/-- Hands the root of a load out. -/
def handOut (root handle : Handle) (loading : Loading σ) : Loading σ :=
  { loading with
    loader := { loading.loader with handles := (handle, root) :: loading.loader.handles } }

theorem finish_eq (root : Handle) (arguments : List String) :
    (finish root arguments : LoadM (Loading σ) Unit) = (do
      prepare root
      complete root arguments (← get).session.pending) := by
  simp only [finish, prepare, complete, bind_assoc]
  rfl

theorem loadGraph_eq (image : Image) (arguments : List String) :
    (loadGraph image arguments : LoadM (Loading σ) Handle) = (do
      let placed ← ready image
      complete placed.1 arguments (← get).session.pending
      modify (handOut placed.1 placed.2)
      return placed.2) := by
  simp only [loadGraph, finish_eq, ready, place, bind_assoc, pure_bind]
  refine bind_congr fun begun => bind_congr fun root => bind_congr fun loading => ?_
  split
  · rw [pure_bind]
    rfl
  · rw [bind_assoc]
    rfl

/-- A load fails while its graph is made ready, fails while the modules are completed, or succeeds. -/
theorem loadGraph_apply (image : Image) (arguments : List String) (loading : Loading σ) :
    loadGraph image arguments loading = match ready image loading with
      | (.error e, after) => (.error e, after)
      | (.ok (root, handle), middle) =>
        match complete root arguments middle.session.pending middle with
        | (.error e, after) => (.error e, after)
        | (.ok (), after) => (.ok handle, handOut root handle after) := by
  rw [loadGraph_eq, bind_apply]
  rcases ready image loading with ⟨e | ⟨root, handle⟩, middle⟩
  · rfl
  · simp only [bind_apply, LoadM.get_apply]
    rcases complete root arguments middle.session.pending middle with ⟨e | ⟨⟩, after⟩
    · rfl
    · rfl

end Loading

open Loading in
theorem Loader.load_apply {σ : Type} [Client σ] (loader : Loader σ) (image : Image)
    (arguments : List String) :
    loader.load image arguments = match ready image { loader } with
      | (.error e, middle) => (.error e, middle.abort)
      | (.ok (root, handle), middle) =>
        match complete root arguments middle.session.pending middle with
        | (.error e, after) => (.error e, after.abort)
        | (.ok (), after) => (.ok handle, { (handOut root handle after).loader with
            machine := after.loader.machine <|> after.session.machine }) := by
  rw [load, loadGraph_apply]
  rcases ready image { loader } with ⟨e | ⟨root, handle⟩, middle⟩
  · rfl
  · dsimp only
    rcases complete root arguments middle.session.pending middle with ⟨e | ⟨⟩, after⟩
    · rfl
    · rfl

end TargetLink
