import TargetLink.Proofs.Initializers

/-!
# Loads that are rejected

A load can fail although the client does everything that it is asked for (`Event.fails`): then the
loader itself rejects it.  All its checks but one come before the first function runs.  The last one,
whether the arguments fit the area that the root has for them (`Loading.Unfit`), comes when it is the
root's turn to be initialized, so functions may have run by then (`Loading.Overlong`).

* `LoadM.Raises P step E`: whenever the step fails from a state with `P`, its error and its calls
  have `E`.
-/

namespace TargetLink

open LoadM (Performs bind_apply)

variable {σ τ α β : Type}

/-! ## Errors with the calls in front of them -/

namespace LoadM

variable [Logged τ] {P : τ → Prop} {step : LoadM τ α} {E E' : LoadError → List Event → Prop}

/-- Whenever the step fails from a state with `P`, its error and its calls have `E`. -/
def Raises (P : τ → Prop) (step : LoadM τ α) (E : LoadError → List Event → Prop) : Prop :=
  ∀ s, P s → ∀ e, (step s).1 = .error e → ∃ calls, log (step s).2 = log s ++ calls ∧ E e calls

namespace Raises

protected theorem pure {a : α} : Raises P (pure a) E := fun _ _ _ herror => nomatch herror

protected theorem ofExcept {result : Except LoadError α} (h : ∀ e, result = .error e → E e []) :
    Raises P (MonadExcept.ofExcept result) E := by
  intro s _ e herror
  rw [LoadM.ofExcept_apply] at herror ⊢
  exact ⟨[], (List.append_nil _).symm, h e herror⟩

theorem weaken (h : Raises P step E) (hE : ∀ e calls, E e calls → E' e calls) :
    Raises P step E' := by
  intro s hs e herror
  obtain ⟨calls, hcalls, hraised⟩ := h s hs e herror
  exact ⟨calls, hcalls, hE e calls hraised⟩

/-- What is known of the calls of a step that fails, whatever the error. -/
theorem of_performs {Q : α → List Event → Prop} {F : List Event → Prop}
    (h : Performs P step Q F) : Raises P step fun _ => F := by
  intro s hs e herror
  obtain ⟨calls, hcalls, -, hdone⟩ := h s hs
  rw [herror] at hdone
  exact ⟨calls, hcalls, hdone⟩

protected theorem bind {next : α → LoadM τ β} {R : α → List Event → Prop} {F : List Event → Prop}
    (hperforms : Performs P step R F) (hstep : Raises P step E)
    (hnext : ∀ a calls, R a calls → Raises P (next a) fun e more => E e (calls ++ more)) :
    Raises P (step >>= next) E := by
  intro s hs e herror
  obtain ⟨calls, hcalls, hkept, hdone⟩ := hperforms s hs
  have hraised := hstep s hs
  rw [bind_apply] at herror ⊢
  rcases hrun : step s with ⟨e' | a, t⟩ <;> rw [hrun] at herror hcalls hkept hdone hraised
  · obtain rfl := Except.error.inj herror
    exact hraised e' rfl
  · obtain ⟨more, hmore, hraised⟩ := hnext a calls hdone t hkept e herror
    exact ⟨calls ++ more, by rw [hmore, hcalls, List.append_assoc], hraised⟩

/-- A loop fails in one of its rounds, after the calls of the rounds before. -/
theorem forM {xs : List β} {body : β → LoadM τ Unit} {round : β → List Event → Prop}
    {F : β → List Event → Prop} {part : β → LoadError → List Event → Prop}
    (hperforms : ∀ x ∈ xs, Performs P (body x) (fun _ => round x) (F x))
    (hraises : ∀ x ∈ xs, Raises P (body x) (part x)) :
    Raises P (xs.forM body) fun e calls => ∃ done x rest rounds last, xs = done ++ x :: rest ∧
      List.Forall₂ round done rounds ∧ part x e last ∧ calls = rounds.flatten ++ last := by
  induction xs with
  | nil => exact LoadM.Raises.pure
  | cons x xs ih =>
    refine Raises.bind (hperforms x List.mem_cons_self)
      ((hraises x List.mem_cons_self).weaken fun e last hlast => ?_) fun _ calls hround => ?_
    · exact ⟨[], x, xs, [], last, rfl, .nil, hlast, rfl⟩
    · refine (ih (fun y hy => hperforms y (List.mem_cons_of_mem x hy)) fun y hy =>
        hraises y (List.mem_cons_of_mem x hy)).weaken ?_
      rintro e _ ⟨done, x', rest, rounds, last, rfl, hrounds, hlast, rfl⟩
      refine ⟨x :: done, x', rest, calls :: rounds, last, rfl, .cons hround hrounds, hlast, ?_⟩
      rw [List.flatten_cons, List.append_assoc]

end Raises

end LoadM

/-! ## Calls that fail -/

/-- The client fails to do what it is asked for. A file that it does not find is no failure. -/
def Event.fails : Event → Bool
  | .allocate _ (.error _) | .copy _ (.error _) | .write _ _ (.error _) | .read _ _ (.error _)
  | .execute _ (.error _) => true
  | _ => false

/-- One of the calls fails. -/
def Failing (calls : List Event) : Prop := ∃ call ∈ calls, call.fails

instance (calls : List Event) : Decidable (Failing calls) :=
  inferInstanceAs (Decidable (∃ call ∈ calls, call.fails))

instance (calls : List Event) : Decidable (Still calls) :=
  inferInstanceAs (Decidable (∀ call ∈ calls, call.isStill))

theorem Failing.append_right {calls : List Event} (h : Failing calls) (first : List Event) :
    Failing (first ++ calls) := by
  obtain ⟨call, hcall, hfails⟩ := h
  exact ⟨call, List.mem_append_right first hcall, hfails⟩

theorem Failing.append_left {calls : List Event} (h : Failing calls) (last : List Event) :
    Failing (calls ++ last) := by
  obtain ⟨call, hcall, hfails⟩ := h
  exact ⟨call, List.mem_append_left last hcall, hfails⟩

theorem Stopped.failing {functions : List UInt32} {calls : List Event}
    (h : Stopped functions calls) : Failing calls := by
  obtain ⟨done, address, rest, e, -, rfl⟩ := h
  exact ⟨.execute address (.error e), by simp, rfl⟩

/-- Arguments are rejected when they are too long for their area. -/
theorem Arguments.of_encode_eq_error {base capacity : UInt32} {arguments : List String}
    {order : ByteOrder} {e : LoadError} (h : encode base capacity arguments order = .error e) :
    capacity.toNat < blockSize arguments ∧
      e = .memory (.argumentsTooLong (blockSize arguments) capacity) := by
  unfold encode at h
  split at h
  · exact ⟨‹_›, (Except.error.inj h).symm⟩
  · cases h

namespace Loading

/-! ## The initializers -/

/-- The module has an area for the arguments, and it is too small for them. -/
def Unfit (arguments : List String) (draft : Draft) (e : LoadError) : Prop :=
  ∃ area, Draft.definitionIn? draft.symbols Draft.argumentsSymbol = some area ∧
    area.size.toNat < Arguments.blockSize arguments ∧
    e = .memory (.argumentsTooLong (Arguments.blockSize arguments) area.size)

variable [Client σ] {modules : List Module} {app : Option Handle}

theorem raises_runArray? (array : Option AddressArray) (order : ByteOrder) :
    LoadM.Raises (Settled modules app)
      (runArray? array order : LoadM (Loading (Recorded σ)) Unit) fun _ => Failing := by
  cases array with
  | none => exact LoadM.Raises.pure
  | some array =>
    refine (LoadM.Raises.of_performs
      (performs_onClient (performs_runArray array order false))).weaken ?_
    rintro _ _ (⟨e, rfl⟩ | ⟨bytes, rest, rfl, hstopped⟩)
    · exact ⟨_, List.mem_singleton_self _, rfl⟩
    · exact hstopped.failing.append_right [_]

theorem raises_runInit (draft : Draft) :
    LoadM.Raises (Settled modules app) (runInit draft : LoadM (Loading (Recorded σ)) Unit)
      fun _ => Failing := by
  unfold runInit
  cases draft.init? with
  | none => exact LoadM.Raises.pure
  | some address =>
    refine (LoadM.Raises.of_performs (performs_onClient (LoadM.performs_execute address))).weaken ?_
    rintro _ _ ⟨e, rfl⟩
    exact ⟨_, List.mem_singleton_self _, rfl⟩

theorem raises_writeArguments (draft : Draft) (arguments : List String) :
    LoadM.Raises (Settled modules app)
      (writeArguments draft arguments : LoadM (Loading (Recorded σ)) Unit)
      fun e calls => Failing calls ∨ Unfit arguments draft e ∧ calls = [] := by
  unfold writeArguments Unfit
  cases Draft.definitionIn? draft.symbols Draft.argumentsSymbol with
  | none => exact LoadM.Raises.pure
  | some area =>
    refine LoadM.Raises.bind (R := fun _ calls => calls = []) (F := (· = []))
      (Performs.ofExcept (fun _ _ => rfl) rfl)
      (LoadM.Raises.ofExcept fun e hencode => Or.inr ⟨⟨area, rfl, ?_⟩, rfl⟩) ?_
    · exact Arguments.of_encode_eq_error hencode
    · rintro block _ rfl
      refine (LoadM.Raises.of_performs
        (performs_onClient (LoadM.performs_write area.value block))).weaken ?_
      rintro _ _ ⟨e, rfl⟩
      exact Or.inl ⟨_, List.mem_singleton_self _, rfl⟩

theorem raises_passArguments (root : Handle) (arguments : List String) (draft : Draft) :
    LoadM.Raises (Settled modules app)
      (passArguments root arguments draft : LoadM (Loading (Recorded σ)) Unit)
      fun e calls => Failing calls ∨ (draft.handle = root ∧ Unfit arguments draft e) ∧ calls = [] := by
  unfold passArguments
  by_cases hroot : draft.handle = root
  · rw [if_pos hroot]
    refine (raises_writeArguments draft arguments).weaken fun e calls h => ?_
    exact h.imp_right fun ⟨hunfit, hnone⟩ => ⟨⟨hroot, hunfit⟩, hnone⟩
  · rw [if_neg hroot]
    exact LoadM.Raises.pure

/-- Initializing a module fails because a call fails, or in front of all calls. -/
theorem raises_runInitializers (root : Handle) (arguments : List String) (draft : Draft) :
    LoadM.Raises (Settled modules app)
      (runInitializers root arguments draft : LoadM (Loading (Recorded σ)) Unit)
      fun e calls => Failing calls ∨ (draft.handle = root ∧ Unfit arguments draft e) ∧ calls = [] := by
  rw [runInitializers_eq]
  refine LoadM.Raises.bind (performs_passArguments root arguments draft)
    (raises_passArguments root arguments draft) fun _ block _ => ?_
  refine LoadM.Raises.bind (performs_runInit draft)
    ((raises_runInit draft).weaken fun _ _ h => Or.inl (h.append_right _)) fun _ inits _ => ?_
  refine (raises_runArray? draft.initArray? draft.file.order).weaken fun _ _ h => Or.inl ?_
  exact (h.append_right _).append_right _

/-! ## All new modules -/

/-- All new modules are relocated and written, the early initializers of the new executables run, and
so do the initializers of the modules in front of the root, whose area the arguments do not fit. -/
def Overlong (modules : List Module) (app : Option Handle) (root : Handle) (arguments : List String)
    (drafts : List Draft) (e : LoadError) (calls : List Event) : Prop :=
  ∃ first draft rest written preinits inits, drafts = first ++ draft :: rest ∧
    draft.handle = root ∧ Unfit arguments draft e ∧
    List.Forall₂ (Written modules app) drafts written ∧
    List.Forall₂ (fun draft => ArrayRan draft.preinitArray? draft.file.order)
      (drafts.filter (·.file.isExecutable)) preinits ∧
    List.Forall₂ (Initialized root arguments) first inits ∧
    calls = written.flatten ++ preinits.flatten ++ inits.flatten

theorem raises_complete (root : Handle) (arguments : List String) {drafts : List Draft}
    (hdistinct : (Module.handlesOf modules).Nodup)
    (hmatched : ∀ draft ∈ drafts, ∃ m ∈ modules, m.outline = draft.outline) :
    LoadM.Raises (Settled modules app)
      (complete root arguments drafts : LoadM (Loading (Recorded σ)) Unit)
      fun e calls => Failing calls ∨ Still calls ∨
        Overlong modules app root arguments drafts e calls := by
  have hwrite := Performs.forM fun draft hdraft =>
    @performs_relocateAndWrite σ modules app _ draft hdistinct (hmatched draft hdraft)
  have hpreinit := fun draft (_ : draft ∈ drafts.filter (·.file.isExecutable)) =>
    @performs_runArray? σ modules app _ draft.preinitArray? draft.file.order
  refine LoadM.Raises.bind hwrite ((LoadM.Raises.of_performs hwrite).weaken ?_) ?_
  · rintro _ _ ⟨done, draft, rest, rounds, last, -, hall, hlast, rfl⟩
    exact Or.inr (Or.inl ((still_flatten hall fun _ _ h => h.still).append hlast))
  rintro _ _ ⟨written, hwritten, rfl⟩
  refine LoadM.Raises.bind (Performs.forM hpreinit) ((LoadM.Raises.forM hpreinit fun draft _ =>
    raises_runArray? draft.preinitArray? draft.file.order).weaken ?_) ?_
  · rintro _ _ ⟨done, draft, rest, rounds, last, -, -, hfailing, rfl⟩
    exact Or.inl ((hfailing.append_right _).append_right _)
  rintro _ _ ⟨preinits, hpreinits, rfl⟩
  refine (LoadM.Raises.forM (fun draft _ => performs_runInitializers root arguments draft)
    fun draft _ => raises_runInitializers root arguments draft).weaken ?_
  rintro e _ ⟨first, draft, rest, inits, last, hdrafts, hinits, hfailing | ⟨⟨hroot, hunfit⟩, rfl⟩, rfl⟩
  · exact Or.inl (((hfailing.append_right _).append_right _).append_right _)
  · refine Or.inr (Or.inr ⟨first, draft, rest, written, preinits, inits, hdrafts, hroot, hunfit,
      hwritten, hpreinits, hinits, ?_⟩)
    rw [List.append_nil, List.append_assoc]

/-! ## The whole load -/

/-- The load rejects its arguments, which do not fit the area of its root, and is undone. The calls up
to there are those of a load that gets to its root. -/
def ArgumentsRejected (before : Loader (Recorded σ)) (image : Image) (arguments : List String)
    (e : LoadError) (calls : List Event) : Prop :=
  ∃ root middle quiet rest undone, Readied before image root middle quiet ∧
    Overlong middle.loader.modules middle.loader.app root arguments middle.session.pending e rest ∧
    (∀ call ∈ undone, call.isPlacing) ∧ calls = quiet ++ rest ++ undone

variable {ledger : Ledger (Recorded σ)} {before : Loader (Recorded σ)}

/-- A load that fails has a call that fails, or it runs nothing, or it rejects its arguments. -/
theorem load_raises (hsound : before.Sound ledger) {image : Image} {arguments : List String}
    {e : LoadError} (herror : (before.load image arguments).1 = .error e) :
    ∃ calls, (before.load image arguments).2.client.events = before.client.events ++ calls ∧
      (Failing calls ∨ Still calls ∨ ArgumentsRejected before image arguments e calls) := by
  rw [Loader.load_apply] at herror ⊢
  rcases hready : ready image { loader := before } with ⟨e' | ⟨root, handle⟩, middle⟩ <;>
    rw [hready] at herror
  · obtain ⟨calls, hcalls, hstill⟩ := still_of_unready hready
    exact ⟨calls, hcalls, Or.inr (Or.inl hstill)⟩
  obtain ⟨quiet, hreadied⟩ := ready_readied hsound hready
  have hraises := raises_complete root arguments ((ready_triple hsound image).ok rfl hready).distinct
    hreadied.inOrder.matched middle ⟨rfl, rfl⟩
  dsimp only at herror ⊢
  rcases hrun : complete root arguments middle.session.pending middle with ⟨e' | ⟨⟩, after⟩ <;>
    rw [hrun] at herror hraises
  · obtain rfl := Except.error.inj herror
    obtain ⟨rest, hrest, hraised⟩ := hraises e' rfl
    obtain ⟨undone, hundone, hplacing⟩ := makes_abort after
    have hevents : after.abort.client.events = before.client.events ++ (quiet ++ rest ++ undone) := by
      rw [← List.append_assoc, ← List.append_assoc, ← hreadied.events]
      exact hundone.trans (congrArg (· ++ undone) hrest)
    refine ⟨quiet ++ rest ++ undone, hevents, ?_⟩
    rcases hraised with hfailing | hstill | hoverlong
    · exact Or.inl ((hfailing.append_right quiet).append_left undone)
    · refine Or.inr (Or.inl ((hreadied.still.append hstill).append fun call hcall => ?_))
      exact Event.isStill_of_isPlacing (hplacing call hcall)
    · exact Or.inr (Or.inr ⟨root, middle, quiet, rest, undone, hreadied, hoverlong, hplacing, rfl⟩)
  · cases herror

end Loading

namespace Loader

variable [Client σ]

/-- After any run, a load that fails although none of its calls does runs no function, with one
exception: if only the arguments are wrong, which do not fit the area of the root, the functions that
come before the initializers of the root have run. -/
theorem rejected_load_still (client : σ) (policy : LookupPolicy) (requests : List (Request σ))
    (image : Image) (arguments : List String) (e : LoadError) (calls : List Event) :
    let before := onRecord client policy requests
    let loaded := before.load image arguments
    loaded.1 = .error e → loaded.2.client.events = before.client.events ++ calls → ¬Failing calls →
      Still calls ∨ Loading.ArgumentsRejected before image arguments e calls := by
  intro before loaded herror hcalls hfailing
  obtain ⟨calls', hcalls', hraised⟩ :=
    Loading.load_raises (onRecord_sound client policy requests) herror
  obtain rfl : calls = calls' := List.append_cancel_left (hcalls.symm.trans hcalls')
  exact hraised.resolve_left hfailing

/-- The executable of `initializedRoot` with a reference that nothing defines. -/
def unresolvedRoot : SampleObject :=
  { initializedRoot with
    symbols := [(3, 0, 0x12)]
    rel := [(SampleObject.dataOffset, 0x102)] }

/-- Both modules have functions to run. A reference that cannot be resolved keeps them all from
running. -/
theorem rejected_load_still_of_unresolved :
    let before := onRecord (({} : SimulatedTarget).register "b" initializedNeeded.image) .direct []
    let loaded := before.load unresolvedRoot.image []
    let calls := loaded.2.client.events
    loaded.1 = .error (.symbolResolution (.unresolvedReferences 1 "a")) ∧ ¬Failing calls ∧
      calls ≠ [] ∧ loaded.2.client.client.executed = [] ∧
      (Still calls ∨ Loading.ArgumentsRejected before unresolvedRoot.image []
        (.symbolResolution (.unresolvedReferences 1 "a")) calls) := by
  have hraised := rejected_load_still (({} : SimulatedTarget).register "b" initializedNeeded.image)
    .direct [] unresolvedRoot.image [] (.symbolResolution (.unresolvedReferences 1 "a"))
  refine ⟨by decide +kernel, by decide +kernel, by decide +kernel, by decide +kernel, ?_⟩
  exact hraised _ (by decide +kernel) (List.nil_append _).symm (by decide +kernel)

/-- The executable of `initializedRoot` with an area for its arguments that holds nothing. -/
def crampedRoot : SampleObject :=
  { initializedRoot with
    names := initializedRoot.names ++
      [[0x5f, 0x5f, 0x63, 0x5f, 0x61, 0x72, 0x67, 0x73, 0x5f, 0x5f]]
    symbols := [(5, SampleObject.dataOffset, 0x10011)] }

/-- The early initializer of the executable and the initializers of the module that it needs run, and
then the load is rejected, although no call failed. -/
theorem rejected_load_runs :
    let target := ({} : SimulatedTarget).register "b" initializedNeeded.image
    let loaded := (onRecord target .direct []).load crampedRoot.image []
    loaded.1 = .error (.memory (.argumentsTooLong 8 0)) ∧ ¬Failing loaded.2.client.events ∧
      ¬Still loaded.2.client.events ∧
      loaded.2.client.client.executed = [0x11, 0x10000190, 0x21, 0x22] :=
  ⟨by decide +kernel, by decide +kernel, by decide +kernel, by decide +kernel⟩

end Loader

end TargetLink
