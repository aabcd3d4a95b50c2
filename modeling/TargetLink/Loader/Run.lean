import TargetLink.Loader.Load
import TargetLink.Loader.Unload
import TargetLink.Target.Recorded

/-!
# Runs of a loader

A loader starts empty and serves one request after the other.  Between two requests its embedder may
do with the client as it likes.
-/

namespace TargetLink

inductive Request (σ : Type)
  | load (image : Image) (arguments : List String)
  | loadSymbolsOnly (image : Image)
  | unload (handle : Handle)
  /-- The embedder reaches for the client. -/
  | client (change : σ → σ)

/-- The request to a loader whose client is on record. What the embedder does is not recorded. -/
def Request.recorded {σ : Type} : Request σ → Request (Recorded σ)
  | load image arguments => load image arguments
  | loadSymbolsOnly image => loadSymbolsOnly image
  | unload handle => unload handle
  | client change => client fun recorded => { recorded with client := change recorded.client }

namespace Loader

variable {σ : Type}

/-- A loader that has served no request. -/
def fresh (client : σ) (policy : LookupPolicy) : Loader σ := { client, policy }

variable [Client σ]

/-- The loader after a request, whatever the answer. -/
def serve (loader : Loader σ) : Request σ → Loader σ
  | .load image arguments => (loader.load image arguments).2
  | .loadSymbolsOnly image => (loader.loadSymbolsOnly image).2
  | .unload handle => (loader.unload handle).2
  | .client change => { loader with client := change loader.client }

def run (loader : Loader σ) (requests : List (Request σ)) : Loader σ := requests.foldl serve loader

/-- A loader after some requests, with all calls that its client got. -/
def onRecord (client : σ) (policy : LookupPolicy) (requests : List (Request σ)) :
    Loader (Recorded σ) :=
  (fresh { client } policy).run (requests.map .recorded)

end Loader

end TargetLink
