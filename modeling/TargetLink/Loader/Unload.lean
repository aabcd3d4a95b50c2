import TargetLink.Loader.State

/-!
# Unloading modules

Unloading drops one reference to a module.  When the last one is gone the module leaves: its
terminators run, the modules that it needs lose a reference each, and only then is its memory given
back.  Everything is given back even if a dependency fails; the first error is reported.
-/

namespace TargetLink.Loader

variable {σ : Type} [Client σ]

/-- Runs the terminators of a module: the functions of its array backwards, then the single one. -/
def runFini (mod : Module) : LoadM σ Unit := do
  match mod.finiArray with
  | some array => runArray array mod.order true
  | none => pure ()
  match mod.fini with
  | some address => Client.execute address
  | none => pure ()

/-- The loader without the traces that a removed module left: its memory, its slot, and its role as
the application. -/
def forget (loader : Loader σ) (mod : Module) : Loader σ :=
  { loader with
    client := giveBack mod.segments loader.client
    dsbt := loader.dsbt.release mod.handle }.withoutApp mod.handle

def firstError? (answers : List (Except LoadError Bool)) : Option LoadError :=
  answers.findSome? fun
    | .ok _ => none
    | .error e => some e

/-- Drops one reference to a module and says whether it left.

Each nested release happens after its caller removed a module, so the number of resident modules
bounds the depth; a release at depth zero has no module left to find. -/
def release : (depth : Nat) → Handle → LoadM (Loader σ) Bool
  | 0, handle => throw (.internal (.notResident handle))
  | depth + 1, handle => do
    let loader ← get
    match Module.find? loader.modules handle with
    | none => throw (.internal (.notResident handle))
    | some mod =>
      if mod.useCount > 1 then
        set (loader.update handle fun m => { m with useCount := m.useCount - 1 })
        return false
      else
        set { loader with modules := loader.modules.eraseP (·.handle == handle) }
        if !mod.symbolsOnly then
          let _ ← (onClient (runFini mod)).observe
        let answers ← mod.dependencies.mapM fun dependency => (release depth dependency).observe
        modify fun loader => loader.forget mod
        match firstError? answers with
        | some e => throw e
        | none => return true

/-- Gives a handle up and drops its reference. -/
def unloadStep (handle : Handle) : LoadM (Loader σ) Bool := do
  let loader ← get
  match loader.handles.lookup handle with
  | none => throw (.unknownHandle handle)
  | some target =>
    set { loader with handles := loader.handles.filter (·.1 != handle) }
    release loader.modules.length target

/-- Drops the reference of a handle; says whether the module left the target. -/
def unload (loader : Loader σ) (handle : Handle) : Except LoadError Bool × Loader σ :=
  unloadStep handle loader

/-- Gives the memory of every module back without running terminators. Leaves the client. -/
def destroy (loader : Loader σ) : σ :=
  loader.modules.foldl (fun client mod => giveBack mod.segments client) loader.client

end TargetLink.Loader
