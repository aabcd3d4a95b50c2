import TargetLink.Proofs.Departure
import TargetLink.Proofs.Moves
import TargetLink.Target.Recorded
import Mathlib.Data.List.Forall2

/-!
# The calls of a load

A step over a recorded client leaves the calls that it made at the end of the record.

* `Makes kind before after`: between two states there were calls of one kind only.
* `LoadM.Performs P step Q E`: the step keeps `P` and makes calls with `Q`, for the value that it
  returns, or it fails after calls with `E`.

Placing a graph neither writes nor runs anything (`Loading.places_place`), and preparing it only writes
(`Loading.makes_prepare`).
-/

namespace TargetLink

open LoadM (Within)

variable {σ τ α β : Type}

/-- States that carry the record of a client. -/
class Logged (τ : Type) where
  /-- The calls so far, in order. -/
  log : τ → List Event

export Logged (log)

instance : Logged (Recorded σ) := ⟨Recorded.events⟩

instance [Logged σ] : Logged (Loader σ) := ⟨fun loader => log loader.client⟩

instance [Logged σ] : Logged (Loading σ) := ⟨fun loading => log loading.loader⟩

/-! ## Calls of one kind -/

namespace Event

/-- Calls that find files and get memory. -/
def isPlacing : Event → Bool
  | allocate .. | release .. | copy .. | openDependent .. => true
  | write .. | read .. | execute .. => false

/-- Calls that run no function. -/
def isStill : Event → Bool
  | execute .. => false
  | _ => true

/-- Calls that store bytes in target memory. -/
def isWrite : Event → Bool
  | write .. => true
  | _ => false

/-- Calls that give memory back. -/
def isRelease : Event → Bool
  | release .. => true
  | _ => false

theorem isPlacing_of_isRelease {event : Event} (h : event.isRelease) : event.isPlacing := by
  cases event <;> first | rfl | cases h

theorem isStill_of_isWrite {event : Event} (h : event.isWrite) : event.isStill := by
  cases event <;> first | rfl | cases h

theorem isStill_of_isPlacing {event : Event} (h : event.isPlacing) : event.isStill := by
  cases event <;> first | rfl | cases h

end Event

/-- Between the two states there were calls of one kind only. -/
def Makes [Logged τ] (kind : Event → Bool) (before after : τ) : Prop :=
  ∃ calls, log after = log before ++ calls ∧ ∀ call ∈ calls, kind call

namespace Makes

variable [Logged τ] {kind kind' : Event → Bool} {before middle after : τ}

instance : IsPreorder τ (Makes kind) where
  refl _ := ⟨[], by simp, by simp⟩
  trans := by
    rintro first second third ⟨calls, hcalls, hkind⟩ ⟨calls', hcalls', hkind'⟩
    refine ⟨calls ++ calls', by rw [hcalls', hcalls, List.append_assoc], ?_⟩
    intro call hcall
    exact (List.mem_append.mp hcall).elim (hkind call) (hkind' call)

theorem mono (h : Makes kind before after) (hkinds : ∀ call, kind call → kind' call) :
    Makes kind' before after := by
  obtain ⟨calls, hcalls, hkind⟩ := h
  exact ⟨calls, hcalls, fun call hcall => hkinds call (hkind call hcall)⟩

theorem of_log_eq (h : log after = log before) : Makes kind before after :=
  ⟨[], by simp [h], by simp⟩

theorem noting {step : LoadM σ α} {event : Except LoadError α → Event}
    (h : ∀ answer, kind (event answer)) : Within (Makes kind) (Recorded.noting step event) := by
  intro recorded
  refine ⟨[event (step recorded.client).1], rfl, fun call hcall => ?_⟩
  rw [List.mem_singleton.mp hcall]
  exact h _

theorem notingAnswer {step : StateM σ α} {event : α → Event} (h : ∀ answer, kind (event answer))
    (recorded : Recorded σ) : Makes kind recorded (Recorded.notingAnswer step event recorded).2 := by
  refine ⟨[event (step recorded.client).1], rfl, fun call hcall => ?_⟩
  rw [List.mem_singleton.mp hcall]
  exact h _

theorem onClient {step : LoadM (Recorded σ) α} (h : Within (Makes kind) step) :
    Within (Makes kind) (Loading.onClient step) :=
  fun loading => h loading.loader.client

end Makes

/-! ## The calls of a step -/

namespace LoadM

variable [Logged τ] {P : τ → Prop} {step : LoadM τ α} {Q Q' : α → List Event → Prop}
  {E E' : List Event → Prop}

/-- From every state with `P` the step keeps `P` and makes calls with `Q`, or it fails after calls
with `E`. -/
def Performs (P : τ → Prop) (step : LoadM τ α) (Q : α → List Event → Prop)
    (E : List Event → Prop) : Prop :=
  ∀ s, P s → ∃ calls, log (step s).2 = log s ++ calls ∧ P (step s).2 ∧
    match (step s).1 with
    | .ok a => Q a calls
    | .error _ => E calls

namespace Performs

protected theorem pure {a : α} (h : Q a []) : Performs P (pure a) Q E :=
  fun _ hs => ⟨[], (List.append_nil _).symm, hs, h⟩

protected theorem throw {e : LoadError} (h : E []) : Performs P (throw e) Q E :=
  fun _ hs => ⟨[], (List.append_nil _).symm, hs, h⟩

protected theorem ofExcept {result : Except LoadError α} (hok : ∀ a, result = .ok a → Q a [])
    (herror : E []) : Performs P (MonadExcept.ofExcept result) Q E := by
  cases result with
  | ok a => exact Performs.pure (hok a rfl)
  | error e => exact Performs.throw herror

theorem weaken (h : Performs P step Q E) (hQ : ∀ a calls, Q a calls → Q' a calls)
    (hE : ∀ calls, E calls → E' calls) : Performs P step Q' E' := by
  intro s hs
  obtain ⟨calls, hcalls, hkept, hdone⟩ := h s hs
  refine ⟨calls, hcalls, hkept, ?_⟩
  cases hresult : (step s).1 with
  | ok a =>
    rw [hresult] at hdone
    exact hQ a calls hdone
  | error e =>
    rw [hresult] at hdone
    exact hE calls hdone

protected theorem bind {next : α → LoadM τ β} {R : α → List Event → Prop}
    {Q : β → List Event → Prop} (hstep : Performs P step R E)
    (hnext : ∀ a calls, R a calls → Performs P (next a) (fun b more => Q b (calls ++ more))
      fun more => E (calls ++ more)) : Performs P (step >>= next) Q E := by
  intro s hs
  obtain ⟨calls, hcalls, hkept, hdone⟩ := hstep s hs
  rw [bind_apply]
  rcases hrun : step s with ⟨e | a, t⟩ <;> rw [hrun] at hcalls hkept hdone
  · exact ⟨calls, hcalls, hkept, hdone⟩
  · obtain ⟨more, hmore, hkept', hdone'⟩ := hnext a calls hdone t hkept
    exact ⟨calls ++ more, by rw [hmore, hcalls, List.append_assoc], hkept', hdone'⟩

/-- A look at the state makes no call. -/
theorem get_bind {next : τ → LoadM τ β} {Q : β → List Event → Prop}
    (h : ∀ s, P s → Performs P (next s) Q E) : Performs P (get >>= next) Q E := by
  intro s hs
  rw [bind_apply, get_apply]
  exact h s hs s hs

/-- A loop makes the calls of its rounds, one round after the other. A round that fails is the last
one. -/
theorem forM {xs : List β} {body : β → LoadM τ Unit} {round part : β → List Event → Prop}
    (h : ∀ x ∈ xs, Performs P (body x) (fun _ => round x) (part x)) :
    Performs P (xs.forM body)
      (fun _ calls => ∃ rounds, List.Forall₂ round xs rounds ∧ calls = rounds.flatten)
      (fun calls => ∃ done x rest rounds last, xs = done ++ x :: rest ∧
        List.Forall₂ round done rounds ∧ part x last ∧ calls = rounds.flatten ++ last) := by
  induction xs with
  | nil => exact Performs.pure ⟨[], .nil, rfl⟩
  | cons x xs ih =>
    have hfirst : Performs P (body x) (fun _ => round x) fun calls =>
        ∃ done x' rest rounds last, x :: xs = done ++ x' :: rest ∧
          List.Forall₂ round done rounds ∧ part x' last ∧ calls = rounds.flatten ++ last :=
      (h x List.mem_cons_self).weaken (fun _ _ hround => hround) fun last hlast =>
        ⟨[], x, xs, [], last, rfl, .nil, hlast, rfl⟩
    refine hfirst.bind fun _ calls hround => ?_
    refine (ih fun y hy => h y (List.mem_cons_of_mem x hy)).weaken ?_ ?_
    · rintro _ more ⟨rounds, hrounds, rfl⟩
      exact ⟨calls :: rounds, .cons hround hrounds, rfl⟩
    · rintro more ⟨done, x', rest, rounds, last, rfl, hrounds, hlast, rfl⟩
      refine ⟨x :: done, x', rest, calls :: rounds, last, rfl, .cons hround hrounds, hlast, ?_⟩
      rw [List.flatten_cons, List.append_assoc]

end Performs

/-! ### Calls to a recorded client -/

theorem performs_noting {step : LoadM σ α} {event : Except LoadError α → Event} :
    Performs (fun _ => True) (Recorded.noting step event)
      (fun a calls => calls = [event (.ok a)]) fun calls => ∃ e, calls = [event (.error e)] := by
  intro recorded _
  refine ⟨[event (step recorded.client).1], rfl, trivial, ?_⟩
  change match (step recorded.client).1 with
    | .ok a => [event (step recorded.client).1] = [event (.ok a)]
    | .error _ => ∃ e, [event (step recorded.client).1] = [event (.error e)]
  cases (step recorded.client).1 with
  | ok a => rfl
  | error e => exact ⟨e, rfl⟩

variable [Client σ]

theorem performs_write (address : UInt32) (bytes : Bytes) :
    Performs (fun _ => True) (Client.write address bytes : LoadM (Recorded σ) Unit)
      (fun _ calls => calls = [.write address bytes (.ok ())])
      fun calls => ∃ e, calls = [.write address bytes (.error e)] :=
  performs_noting

theorem performs_read (address : UInt32) (size : Nat) :
    Performs (fun _ => True) (Client.read address size : LoadM (Recorded σ) Bytes)
      (fun bytes calls => calls = [.read address size (.ok bytes)])
      fun calls => ∃ e, calls = [.read address size (.error e)] :=
  performs_noting

theorem performs_execute (address : UInt32) :
    Performs (fun _ => True) (Client.execute address : LoadM (Recorded σ) Unit)
      (fun _ calls => calls = [.execute address (.ok ())])
      fun calls => ∃ e, calls = [.execute address (.error e)] :=
  performs_noting

omit [Client σ] in
/-- A step of the client within a load makes the calls of the step, if all that is to be kept does
not depend on the client. -/
theorem Performs.onClient {P : Loading (Recorded σ) → Prop} {step : LoadM (Recorded σ) α}
    (hstep : Performs (fun _ => True) step Q E)
    (hP : ∀ loading client, P loading →
      P { loading with loader := { loading.loader with client } }) :
    Performs P (Loading.onClient step) Q E := by
  intro loading hloading
  obtain ⟨calls, hcalls, -, hdone⟩ := hstep loading.loader.client trivial
  exact ⟨calls, hcalls, hP loading _ hloading, hdone⟩

end LoadM

/-! ### Running functions -/

/-- The calls that run some functions, all of which return. -/
def ran (functions : List UInt32) : List Event := functions.map (.execute · (.ok ()))

/-- The calls that run some functions up to one that fails. -/
def Stopped (functions : List UInt32) (calls : List Event) : Prop :=
  ∃ done address rest e, functions = done ++ address :: rest ∧
    calls = ran done ++ [.execute address (.error e)]

/-- The calls that run some functions in one attempt, which ends at the first one that fails. -/
def Attempt (functions : List UInt32) (calls : List Event) : Prop :=
  calls = ran functions ∨ Stopped functions calls

theorem Stopped.append {functions : List UInt32} {calls : List Event} (h : Stopped functions calls)
    (more : List UInt32) : Stopped (functions ++ more) calls := by
  obtain ⟨done, address, rest, e, rfl, rfl⟩ := h
  exact ⟨done, address, rest ++ more, e, by simp, rfl⟩

theorem Stopped.ran_append {functions : List UInt32} {calls : List Event}
    (h : Stopped functions calls) (first : List UInt32) :
    Stopped (first ++ functions) (ran first ++ calls) := by
  obtain ⟨done, address, rest, e, rfl, rfl⟩ := h
  exact ⟨first ++ done, address, rest, e, by simp, by simp [ran]⟩

theorem performs_executes [Client σ] (functions : List UInt32) :
    LoadM.Performs (fun _ => True)
      (functions.forM Client.execute : LoadM (Recorded σ) Unit)
      (fun _ calls => calls = ran functions) (Stopped functions) := by
  induction functions with
  | nil => exact LoadM.Performs.pure rfl
  | cons address functions ih =>
    refine LoadM.Performs.bind (R := fun _ calls => calls = [.execute address (.ok ())]) ?_ ?_
    · refine (LoadM.performs_execute address).weaken (fun _ _ h => h) ?_
      rintro _ ⟨e, rfl⟩
      exact ⟨[], address, functions, e, rfl, rfl⟩
    · rintro _ _ rfl
      refine ih.weaken ?_ fun calls h => h.ran_append [address]
      rintro _ _ rfl
      rfl

/-- The functions that the bytes of an array name, in the order in which they are run. -/
def functionsIn (bytes : Bytes) (order : ByteOrder) (reverse : Bool) : List UInt32 :=
  (if reverse then (bytes.words order).reverse else bytes.words order).filter Loader.isFunction

theorem performs_runArray [Client σ] (array : AddressArray) (order : ByteOrder) (reverse : Bool) :
    LoadM.Performs (fun _ => True)
      (Loader.runArray array order reverse : LoadM (Recorded σ) Unit)
      (fun _ calls => ∃ bytes, calls = .read array.address array.size.toNat (.ok bytes) ::
        ran (functionsIn bytes order reverse))
      (fun calls => (∃ e, calls = [.read array.address array.size.toNat (.error e)]) ∨
        ∃ bytes rest, calls = .read array.address array.size.toNat (.ok bytes) :: rest ∧
          Stopped (functionsIn bytes order reverse) rest) := by
  refine ((LoadM.performs_read _ _).weaken (fun _ _ h => h) fun _ h => Or.inl h).bind ?_
  rintro bytes _ rfl
  refine (performs_executes (functionsIn bytes order reverse)).weaken ?_ ?_
  · rintro _ _ rfl
    exact ⟨bytes, rfl⟩
  · intro rest hstopped
    exact Or.inr ⟨bytes, rest, rfl, hstopped⟩

/-! ## Placing a graph -/

namespace Loading

variable [Client σ]

theorem makes_release (allocation : Allocation) (recorded : Recorded σ) :
    Makes Event.isRelease recorded (Client.release allocation recorded).2 :=
  Makes.notingAnswer (fun _ => rfl) recorded

/-- A client that serves the placing of a graph gets placing calls. -/
theorem makes_served {before after : Recorded σ} (h : Served before after) :
    Makes Event.isPlacing before after := by
  have hallocate (request : AllocRequest) (recorded : Recorded σ) :
      Makes Event.isPlacing recorded (Client.allocate request recorded).2 :=
    Makes.noting (fun _ => rfl) recorded
  cases h with
  | allocate => exact hallocate _ before
  | refuse =>
    exact IsTrans.trans before _ _ (hallocate _ before)
      ((makes_release _ _).mono fun _ => Event.isPlacing_of_isRelease)
  | copy => exact Makes.noting (fun _ => rfl) before
  | openDependent => exact Makes.notingAnswer (fun _ => rfl) before

theorem Walked.makes {before after : Loading (Recorded σ)} (h : Walked before after) :
    Makes Event.isPlacing before after := by
  have hmakes : ∀ {recorded : Recorded σ}, Relation.ReflTransGen Served before.loader.client recorded →
      Makes Event.isPlacing before.loader.client recorded := by
    intro recorded hserved
    induction hserved with
    | refl => exact Std.Refl.refl before.loader.client
    | tail _ hlast ih => exact IsTrans.trans _ _ _ ih (makes_served hlast)
  exact hmakes h.served

/-- Placing leaves the slots of the table alone and makes placing calls only. -/
def Places (before after : Loading (Recorded σ)) : Prop :=
  after.loader.dsbt.slots = before.loader.dsbt.slots ∧ Makes Event.isPlacing before after

theorem places_place (image : Image) :
    Within Places (place image : LoadM (Loading (Recorded σ)) _) :=
  (walked_place image).mono fun _ _ h => ⟨h.slots, h.makes⟩

/-! ## Preparing it -/

theorem makes_writeTable (claim : Dsbt.Claim) (table : List UInt32) :
    Within (Makes Event.isWrite) (writeTable claim table : LoadM (Loading (Recorded σ)) Unit) := by
  refine Within.bind Within.get fun loading => ?_
  dsimp only
  split
  · exact fun _ => Makes.of_log_eq rfl
  · exact Makes.onClient (Makes.noting fun _ => rfl)

theorem makes_writeTables :
    Within (Makes Event.isWrite) (writeTables : LoadM (Loading (Recorded σ)) Unit) := by
  refine Within.bind Within.get fun loading => ?_
  unfold Dsbt.updateAll
  split
  · exact Within.throw
  · exact Within.forM fun entry => makes_writeTable entry.2 _

omit [Client σ] in
theorem makes_stageDynamics :
    Within (Makes Event.isWrite) (stageDynamics : LoadM (Loading (Recorded σ)) Unit) := by
  refine Within.bind Within.get fun loading => ?_
  refine Within.bind (Within.mapM fun draft _ => ?_) fun _ _ => Makes.of_log_eq rfl
  split
  · refine Within.bind (fun s => ?_) fun _ => Within.pure
    rw [resident_unchanged]
    exact Std.Refl.refl s
  · exact Within.pure

/-- Only the tables of modules that are there already are written. -/
theorem makes_prepare (root : Handle) :
    Within (Makes Event.isWrite) (prepare root : LoadM (Loading (Recorded σ)) Unit) := by
  refine Within.bind (fun _ => Makes.of_log_eq rfl) fun _ => ?_
  refine Within.bind makes_writeTables fun _ => ?_
  exact Within.bind makes_stageDynamics fun _ _ => Makes.of_log_eq rfl

/-- No function runs before a graph is ready. -/
theorem makes_ready (image : Image) :
    Within (Makes Event.isStill) (ready image : LoadM (Loading (Recorded σ)) (Handle × Handle)) := by
  refine Within.bind (fun loading => ?_) fun placed => ?_
  · exact (places_place image loading).2.mono fun _ => Event.isStill_of_isPlacing
  · refine Within.bind (fun loading => ?_) fun _ => Within.pure
    exact (makes_prepare placed.1 loading).mono fun _ => Event.isStill_of_isWrite

/-! ## Undoing a load -/

theorem makes_giveBack (segments : List Segment) (recorded : Recorded σ) :
    Makes Event.isRelease recorded (Loader.giveBack segments recorded) := by
  induction segments generalizing recorded with
  | nil => exact Std.Refl.refl recorded
  | cons segment segments ih =>
    exact IsTrans.trans recorded _ _ (makes_release segment.allocation recorded) (ih _)

theorem makes_discard (loader : Loader (Recorded σ)) (handle : Handle) :
    Makes Event.isRelease loader (discard loader handle) := by
  unfold discard
  cases Module.find? loader.modules handle with
  | none => exact Makes.of_log_eq (congrArg Recorded.events (Loader.withoutApp_client _ _))
  | some m =>
    obtain ⟨calls, hcalls, hkind⟩ := makes_giveBack m.segments loader.client
    refine ⟨calls, ?_, hkind⟩
    exact (congrArg Recorded.events (Loader.withoutApp_client _ _)).trans hcalls

/-- Undoing a load only gives memory back. -/
theorem releases_abort (loading : Loading (Recorded σ)) :
    Makes Event.isRelease loading.loader loading.abort := by
  have hdrop : ∀ (handles : List Handle) (loader : Loader (Recorded σ)),
      log (handles.foldl dropReuse loader) = log loader := by
    intro handles
    induction handles with
    | nil => exact fun _ => rfl
    | cons handle handles ih => exact fun loader => ih (dropReuse loader handle)
  have hdiscard : ∀ (handles : List Handle) (loader : Loader (Recorded σ)),
      Makes Event.isRelease loader (handles.foldl discard loader) := by
    intro handles
    induction handles with
    | nil => exact fun loader => Std.Refl.refl loader
    | cons handle handles ih =>
      exact fun loader => IsTrans.trans loader _ _ (makes_discard loader handle) (ih _)
  exact IsTrans.trans _ _ _ (hdiscard _ loading.loader) (Makes.of_log_eq (hdrop _ _))

theorem makes_abort (loading : Loading (Recorded σ)) :
    Makes Event.isPlacing loading.loader loading.abort :=
  (releases_abort loading).mono fun _ => Event.isPlacing_of_isRelease

end Loading

end TargetLink
