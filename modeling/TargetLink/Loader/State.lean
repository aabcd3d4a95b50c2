import TargetLink.Module.Draft

/-!
# Loaders

A loader owns the modules that are resident in the memory of one target.  Every successful load
hands out a new handle; a handle leads to a module, and several handles can lead to the same one.
A module stays as long as a handle or another module refers to it.
-/

namespace TargetLink

/-- A loader and the state of its client. -/
structure Loader (σ : Type) where
  client : σ
  /-- The resident modules, in the order of their arrival. -/
  modules : List Module := []
  /-- The handles that were handed out, with the modules that they lead to. -/
  handles : List (Handle × Handle) := []
  nextHandle : Handle := 1
  /-- The machine of all modules, once there was one. -/
  machine : Option Machine := none
  /-- The module that breadth-first searches start at. -/
  app : Option Handle := none
  dsbt : Dsbt := {}
  policy : LookupPolicy := .direct

namespace Loader

variable {σ : Type}

/-- The handle that is never handed out. -/
def lastHandle : Handle := 0xffffffff

def onClient {α : Type} (step : LoadM σ α) : LoadM (Loader σ) α :=
  step.zoom (·.client) fun client loader => { loader with client }

/-- Takes the next handle. Handles are never handed out twice. -/
def newHandle : LoadM (Loader σ) Handle := do
  let loader ← get
  if loader.nextHandle = lastHandle then
    throw .handlesExhausted
  set { loader with nextHandle := loader.nextHandle + 1 }
  return loader.nextHandle

def defaultName (handle : Handle) : String := s!"<module {handle.toNat}>"

/-- A machine that does not go with the one that the loader works for is an error. -/
def checkMachine (locked : Option Machine) (found : Machine) : Except LoadError Unit :=
  match locked with
  | some machine =>
    if machine = found then .ok () else .error (.invalidElf (.mixedMachines machine found))
  | none => .ok ()

/-- Modules with a change to the first one of a handle. -/
def updateModule (handle : Handle) (change : Module → Module) : List Module → List Module
  | [] => []
  | mod :: rest =>
    if mod.handle = handle then change mod :: rest else mod :: updateModule handle change rest

def update (loader : Loader σ) (handle : Handle) (change : Module → Module) : Loader σ :=
  { loader with modules := updateModule handle change loader.modules }

/-! ## Queries -/

/-- The module that a handle leads to. A module's own handle works too. -/
def module? (loader : Loader σ) (handle : Handle) : Option Module :=
  Module.find? loader.modules ((loader.handles.lookup handle).getD handle)

def symbolAddress? (loader : Loader σ) (handle : Handle) (name : String) : Option UInt32 :=
  ((loader.module? handle).bind (·.findExport name)).map (·.value)

def entryPoint? (loader : Loader σ) (handle : Handle) : Option UInt32 :=
  (loader.module? handle).map (·.entry)

def entryNames? (loader : Loader σ) (handle : Handle) : Option (List String) :=
  (loader.module? handle).map (·.entryNames)

/-! ## Giving memory back -/

/-- The client after it took the memory of some segments back. -/
def giveBack [Client σ] (segments : List Segment) (client : σ) : σ :=
  segments.foldl (fun c segment => (Client.release segment.allocation c).2) client

/-- A loader whose breadth-first searches no longer start at a module. -/
def withoutApp (loader : Loader σ) (handle : Handle) : Loader σ :=
  if loader.app = some handle then { loader with app := none } else loader

/-! ## Running functions -/

/-- The addresses of an array that stand for functions. -/
def isFunction (address : UInt32) : Bool := address != 0 && address != 0xffffffff

/-- Runs the functions of an array in target memory. -/
def runArray [Client σ] (array : AddressArray) (order : ByteOrder) (reverse : Bool) :
    LoadM σ Unit := do
  let bytes ← Client.read array.address array.size.toNat
  let functions := bytes.words order
  let functions := if reverse then functions.reverse else functions
  (functions.filter isFunction).forM Client.execute

end Loader

end TargetLink
