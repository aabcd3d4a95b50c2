import TargetLink.Proofs.Calls
import TargetLink.Proofs.Ordering
import TargetLink.Proofs.Runs
import TargetLink.Proofs.SampleObjects
import TargetLink.Target.Simulated

/-!
# Loading in order

The calls of a load follow its phases.  Up to the point where the graph is ready nothing runs
(`Loading.Readied`).  Then every new module is relocated and written (`Loading.Written`), and only
then do functions run: the early initializers of the new executables, and the initializers of every
new module (`Loading.Initialized`), each module after the new modules that it needs.
-/

namespace TargetLink

open TargetLink.Module (handlesOf)
open LoadM (Performs)

/-! ## Relocated contents -/

namespace Draft

theorem length_relocateFrom {linkage : Linkage} {file : ObjectFile} {pltHome : Option Nat}
    {position : Nat} {segments : List Segment} {blocks blocks' : List Bytes}
    {applied unresolved : Nat} {totals : Nat × Nat}
    (h : relocateFrom linkage file pltHome position segments blocks applied unresolved =
      .ok (blocks', totals)) : blocks'.length = blocks.length := by
  induction segments generalizing position blocks blocks' applied unresolved totals with
  | nil =>
    obtain ⟨rfl, -⟩ := Prod.mk.inj (Except.ok.inj h)
    rfl
  | cons segment segments ih =>
    cases blocks with
    | nil =>
      obtain ⟨rfl, -⟩ := Prod.mk.inj (Except.ok.inj h)
      rfl
    | cons block blocks =>
      obtain ⟨tally, -, h⟩ := exists_of_bind_eq_ok h
      obtain ⟨⟨rest, totals'⟩, hrest, h⟩ := exists_of_bind_eq_ok h
      obtain ⟨rfl, -⟩ := Prod.mk.inj (Except.ok.inj h)
      rw [List.length_cons, List.length_cons, ih hrest]

/-- Relocating a draft changes its staged contents and keeps one block for each segment. -/
theorem exists_staged_of_relocate {draft done : Draft} {modules : List Module} {app : Option Handle}
    {applied : Nat} (h : draft.relocate modules app = .ok (done, applied)) :
    ∃ staged, staged.length = draft.staged.length ∧ done = { draft with staged } := by
  unfold relocate at h
  cases hfind : Module.find? modules draft.handle with
  | none =>
    rw [hfind] at h
    cases h
  | some m =>
    rw [hfind] at h
    dsimp only at h
    split at h
    · cases h
    · obtain ⟨pltHome, -, h⟩ := exists_of_bind_eq_ok h
      obtain ⟨⟨staged, applied', unresolved⟩, hfrom, h⟩ := exists_of_bind_eq_ok h
      dsimp only at h
      split at h
      · cases h
      · obtain ⟨rfl, -⟩ := Prod.mk.inj (Except.ok.inj h)
        exact ⟨staged, length_relocateFrom hfrom, rfl⟩

end Draft

/-! ## Calls that run nothing -/

/-- No function runs. -/
def Still (calls : List Event) : Prop := ∀ call ∈ calls, call.isStill

theorem Still.append {first second : List Event} (hfirst : Still first) (hsecond : Still second) :
    Still (first ++ second) := fun call hcall =>
  (List.mem_append.mp hcall).elim (hfirst call) (hsecond call)

theorem still_flatten {α : Type} {xs : List α} {rounds : List (List Event)}
    {round : α → List Event → Prop} (h : List.Forall₂ round xs rounds)
    (hround : ∀ x calls, round x calls → Still calls) : Still rounds.flatten := by
  induction h with
  | nil => simp [Still]
  | cons hfirst _ ih => exact (hround _ _ hfirst).append ih

/-- A function that runs after calls that run nothing runs after all of them. -/
theorem Still.prefix_of_append_eq {first rest earlier later : List Event} {address : UInt32}
    {answer : Except LoadError Unit} (hfirst : Still first)
    (h : first ++ rest = earlier ++ .execute address answer :: later) :
    ∃ more, earlier = first ++ more := by
  rcases List.append_eq_append_iff.mp h with ⟨more, hearlier, -⟩ | ⟨more, hmiddle, hlater⟩
  · exact ⟨more, hearlier⟩
  · cases more with
    | nil => exact ⟨[], by simpa using hmiddle.symm⟩
    | cons call more =>
      obtain ⟨rfl, -⟩ := List.cons.inj hlater
      have hexecute := hfirst (.execute address answer) (by simp [hmiddle])
      cases hexecute

theorem flatten_of_forall₂_singleton {α β : Type} {f : α → β} {xs : List α} {rounds : List (List β)}
    (h : List.Forall₂ (fun x calls => calls = [f x]) xs rounds) : rounds.flatten = xs.map f := by
  induction h with
  | nil => rfl
  | cons hfirst _ ih => rw [List.flatten_cons, hfirst, ih, List.map_cons, List.singleton_append]

namespace Loading

variable {σ : Type}

/-! ## Writing the new modules -/

/-- The calls that write a segment of a module. -/
def writing (entry : Segment × Bytes) : Event := .write entry.1.address entry.2 (.ok ())

/-- The module of a draft is relocated, unless it is static, and all its segments are written. -/
def Written (modules : List Module) (app : Option Handle) (draft : Draft) (calls : List Event) :
    Prop :=
  ∃ m done, Module.find? modules draft.handle = some m ∧
    (if draft.file.isRelocatable then ∃ applied, draft.relocate modules app = .ok (done, applied)
      else done = draft) ∧
    done.staged.length = m.segments.length ∧ calls = (m.segments.zip done.staged).map writing

theorem Written.still {modules : List Module} {app : Option Handle} {draft : Draft}
    {calls : List Event} (h : Written modules app draft calls) : Still calls := by
  obtain ⟨m, done, -, -, -, rfl⟩ := h
  intro call hcall
  obtain ⟨entry, -, rfl⟩ := List.mem_map.mp hcall
  rfl

/-- The modules and the start of searches while the new modules are completed. -/
def Settled (modules : List Module) (app : Option Handle) (loading : Loading σ) : Prop :=
  loading.loader.modules = modules ∧ loading.loader.app = app

section Completing

variable {modules : List Module} {app : Option Handle} {handle : Handle}

theorem performs_resident :
    Performs (Settled modules app) (resident handle : LoadM (Loading (Recorded σ)) Module)
      (fun m calls => Module.find? modules handle = some m ∧ calls = []) (· = []) := by
  refine Performs.get_bind fun loading hsettled => ?_
  rw [hsettled.1]
  cases hfind : Module.find? modules handle with
  | some m => exact Performs.pure ⟨rfl, rfl⟩
  | none => exact Performs.throw rfl

theorem performs_onClient {α : Type} {step : LoadM (Recorded σ) α} {Q : α → List Event → Prop}
    {E : List Event → Prop} (h : Performs (fun _ => True) step Q E) :
    Performs (Settled modules app) (onClient step) Q E :=
  h.onClient fun _ _ hsettled => hsettled

variable [Client σ]

theorem performs_writeSegments (draft : Draft) :
    Performs (Settled modules app) (writeSegments draft : LoadM (Loading (Recorded σ)) Unit)
      (fun _ calls => ∃ m, Module.find? modules draft.handle = some m ∧
        calls = (m.segments.zip draft.staged).map writing) Still := by
  refine (performs_resident.weaken (fun _ _ h => h) fun calls h => ?_).bind ?_
  · rw [h]
    simp [Still]
  rintro m _ ⟨hfind, rfl⟩
  have hrounds : ∀ entry ∈ m.segments.zip draft.staged, Performs (Settled modules app)
      (onClient (Client.write entry.1.address entry.2) : LoadM (Loading (Recorded σ)) Unit)
      (fun _ calls => calls = [writing entry])
      fun calls => ∃ e, calls = [.write entry.1.address entry.2 (.error e)] :=
    fun entry _ => performs_onClient (LoadM.performs_write _ _)
  refine (Performs.forM hrounds).weaken ?_ ?_
  · rintro _ _ ⟨rounds, hall, rfl⟩
    exact ⟨m, hfind, flatten_of_forall₂_singleton hall⟩
  · rintro _ ⟨done, x, rest, rounds, last, -, hall, ⟨e, rfl⟩, rfl⟩
    refine (still_flatten hall fun _ _ h => ?_).append ?_
    · rw [h]
      simp [Still, writing, Event.isStill]
    · simp [Still, Event.isStill]

theorem performs_relocateAndWrite {draft : Draft} (hdistinct : (handlesOf modules).Nodup)
    (hmatched : ∃ m ∈ modules, m.outline = draft.outline) :
    Performs (Settled modules app) (relocateAndWrite draft : LoadM (Loading (Recorded σ)) Unit)
      (fun _ => Written modules app draft) Still := by
  have hlength : ∀ m, Module.find? modules draft.handle = some m →
      draft.staged.length = m.segments.length := by
    intro m hfind
    obtain ⟨n, hn, houtline⟩ := hmatched
    obtain ⟨hm, hhandle⟩ := Module.mem_of_find? hfind
    obtain rfl : n = m :=
      Module.eq_of_handle_eq hdistinct hn hm ((congrArg (·.handle) houtline).trans hhandle.symm)
    exact (congrArg (·.segments) houtline).symm
  unfold relocateAndWrite
  by_cases hrelocatable : draft.file.isRelocatable = true
  · rw [if_pos hrelocatable]
    refine Performs.get_bind fun loading hsettled => ?_
    obtain ⟨rfl, rfl⟩ := hsettled
    refine Performs.bind (R := fun relocated calls =>
      draft.relocate loading.loader.modules loading.loader.app = .ok relocated ∧ calls = []) (Performs.ofExcept (fun _ h => ⟨h, rfl⟩) (by simp [Still])) ?_
    rintro ⟨done, applied⟩ _ ⟨hrelocate, rfl⟩
    obtain ⟨staged, hstaged, rfl⟩ := Draft.exists_staged_of_relocate hrelocate
    refine (performs_writeSegments _).weaken ?_ fun _ h => h
    rintro _ _ ⟨m, hfind, rfl⟩
    refine ⟨m, _, hfind, ?_, hstaged.trans (hlength m hfind), rfl⟩
    rw [if_pos hrelocatable]
    exact ⟨applied, hrelocate⟩
  · rw [if_neg hrelocatable]
    refine (performs_writeSegments draft).weaken ?_ fun _ h => h
    rintro _ _ ⟨m, hfind, rfl⟩
    refine ⟨m, draft, hfind, ?_, hlength m hfind, rfl⟩
    rw [if_neg hrelocatable]

/-! ## Running the initializers -/

/-- The functions of an array, if there is one, are read and run. -/
def ArrayRan (array? : Option AddressArray) (order : ByteOrder) (calls : List Event) : Prop :=
  match array? with
  | none => calls = []
  | some array => ∃ bytes, calls =
      .read array.address array.size.toNat (.ok bytes) :: ran (functionsIn bytes order false)

/-- The arguments are written, if the module has an area for them. -/
def ArgumentsWritten (arguments : List String) (draft : Draft) (calls : List Event) : Prop :=
  match Draft.definitionIn? draft.symbols Draft.argumentsSymbol with
  | none => calls = []
  | some area => ∃ block, Arguments.encode area.value area.size arguments draft.file.order = .ok block ∧
      calls = [.write area.value block (.ok ())]

/-- The initializers of a module run: the single one, then the functions of its array. The root gets
its arguments first. -/
def Initialized (root : Handle) (arguments : List String) (draft : Draft) (calls : List Event) :
    Prop :=
  ∃ block array,
    (if draft.handle = root then ArgumentsWritten arguments draft block else block = []) ∧
    ArrayRan draft.initArray? draft.file.order array ∧ calls = block ++ ran draft.init?.toList ++ array

theorem performs_runArray? (array : Option AddressArray) (order : ByteOrder) :
    Performs (Settled modules app) (runArray? array order : LoadM (Loading (Recorded σ)) Unit)
      (fun _ => ArrayRan array order) fun _ => True := by
  cases array with
  | none => exact Performs.pure rfl
  | some array =>
    exact performs_onClient
      ((performs_runArray array order false).weaken (fun _ _ h => h) fun _ _ => trivial)

theorem performs_writeArguments (draft : Draft) (arguments : List String) :
    Performs (Settled modules app)
      (writeArguments draft arguments : LoadM (Loading (Recorded σ)) Unit)
      (fun _ => ArgumentsWritten arguments draft) fun _ => True := by
  unfold writeArguments ArgumentsWritten
  cases Draft.definitionIn? draft.symbols Draft.argumentsSymbol with
  | none => exact Performs.pure rfl
  | some area =>
    refine Performs.bind (R := fun block calls =>
      Arguments.encode area.value area.size arguments draft.file.order = .ok block ∧ calls = [])
      (Performs.ofExcept (fun _ h => ⟨h, rfl⟩) trivial) ?_
    rintro block _ ⟨hencode, rfl⟩
    refine (performs_onClient (LoadM.performs_write _ _)).weaken ?_ fun _ _ => trivial
    rintro _ _ rfl
    exact ⟨block, hencode, rfl⟩

theorem performs_passArguments (root : Handle) (arguments : List String) (draft : Draft) :
    Performs (Settled modules app)
      (passArguments root arguments draft : LoadM (Loading (Recorded σ)) Unit)
      (fun _ calls =>
        if draft.handle = root then ArgumentsWritten arguments draft calls else calls = [])
      fun _ => True := by
  unfold passArguments
  by_cases hroot : draft.handle = root
  · simp only [if_pos hroot]
    exact performs_writeArguments draft arguments
  · simp only [if_neg hroot]
    exact Performs.pure rfl

theorem performs_runInit (draft : Draft) :
    Performs (Settled modules app) (runInit draft : LoadM (Loading (Recorded σ)) Unit)
      (fun _ calls => calls = ran draft.init?.toList) fun _ => True := by
  unfold runInit
  cases draft.init? with
  | none => exact Performs.pure rfl
  | some address =>
    exact (performs_onClient (LoadM.performs_execute address)).weaken (fun _ _ h => h)
      fun _ _ => trivial

theorem performs_runInitializers (root : Handle) (arguments : List String) (draft : Draft) :
    Performs (Settled modules app)
      (runInitializers root arguments draft : LoadM (Loading (Recorded σ)) Unit)
      (fun _ => Initialized root arguments draft) fun _ => True := by
  rw [runInitializers_eq]
  refine (performs_passArguments root arguments draft).bind fun _ block hblock => ?_
  refine (performs_runInit draft).bind ?_
  rintro _ _ rfl
  refine (performs_runArray? draft.initArray? draft.file.order).weaken ?_ fun _ _ => trivial
  intro _ array harray
  exact ⟨block, array, hblock, harray, (List.append_assoc _ _ _).symm⟩

/-! ## All new modules -/

/-- The calls that complete the new modules: all of them are relocated and written, and then functions
run. -/
def Completed (modules : List Module) (app : Option Handle) (root : Handle) (arguments : List String)
    (drafts : List Draft) (calls : List Event) : Prop :=
  ∃ written preinits inits, List.Forall₂ (Written modules app) drafts written ∧
    List.Forall₂ (fun draft => ArrayRan draft.preinitArray? draft.file.order)
      (drafts.filter (·.file.isExecutable)) preinits ∧
    List.Forall₂ (Initialized root arguments) drafts inits ∧
    calls = written.flatten ++ preinits.flatten ++ inits.flatten

/-- Nothing runs, or all new modules are relocated and written first. -/
def Held (modules : List Module) (app : Option Handle) (drafts : List Draft) (calls : List Event) :
    Prop :=
  Still calls ∨ ∃ written more, List.Forall₂ (Written modules app) drafts written ∧
    calls = written.flatten ++ more

theorem performs_complete (root : Handle) (arguments : List String) {drafts : List Draft}
    (hdistinct : (handlesOf modules).Nodup)
    (hmatched : ∀ draft ∈ drafts, ∃ m ∈ modules, m.outline = draft.outline) :
    Performs (Settled modules app)
      (complete root arguments drafts : LoadM (Loading (Recorded σ)) Unit)
      (fun _ => Completed modules app root arguments drafts) (Held modules app drafts) := by
  have hwrite := Performs.forM fun draft hdraft =>
    @performs_relocateAndWrite σ modules app _ draft hdistinct (hmatched draft hdraft)
  have hpreinit := Performs.forM fun draft (_ : draft ∈ drafts.filter (·.file.isExecutable)) =>
    @performs_runArray? σ modules app _ draft.preinitArray? draft.file.order
  have hinit := Performs.forM fun draft (_ : draft ∈ drafts) =>
    @performs_runInitializers σ modules app _ root arguments draft
  refine Performs.bind (hwrite.weaken (fun _ _ h => h) ?_) ?_
  · rintro _ ⟨done, draft, rest, rounds, last, -, hall, hlast, rfl⟩
    exact Or.inl ((still_flatten hall fun _ _ h => h.still).append hlast)
  rintro _ _ ⟨written, hwritten, rfl⟩
  have hheld : ∀ more, Held modules app drafts (written.flatten ++ more) :=
    fun more => Or.inr ⟨written, more, hwritten, rfl⟩
  refine Performs.bind (hpreinit.weaken (fun _ _ h => h) fun _ _ => hheld _) ?_
  rintro _ _ ⟨preinits, hpreinits, rfl⟩
  refine hinit.weaken ?_ fun _ _ => hheld _
  rintro _ _ ⟨inits, hinits, rfl⟩
  exact ⟨written, preinits, inits, hwritten, hpreinits, hinits, (List.append_assoc _ _ _).symm⟩

end Completing

theorem Completed.held {modules : List Module} {app : Option Handle} {root : Handle}
    {arguments : List String} {drafts : List Draft} {calls : List Event}
    (h : Completed modules app root arguments drafts calls) : Held modules app drafts calls := by
  obtain ⟨written, preinits, inits, hwritten, -, -, rfl⟩ := h
  exact Or.inr ⟨written, preinits.flatten ++ inits.flatten, hwritten, List.append_assoc _ _ _⟩

/-- After calls that run nothing, whatever runs runs after all new modules are written. -/
theorem Held.before_execute {modules : List Module} {app : Option Handle} {drafts : List Draft}
    {first calls last earlier later : List Event} {address : UInt32} {result : Except LoadError Unit}
    (h : Held modules app drafts calls) (hfirst : Still first) (hlast : Still last)
    (hsplit : first ++ calls ++ last = earlier ++ .execute address result :: later) :
    ∃ written more, List.Forall₂ (Written modules app) drafts written ∧
      earlier = first ++ written.flatten ++ more := by
  rcases h with hstill | ⟨written, more, hwritten, rfl⟩
  · have hmem : .execute address result ∈ first ++ calls ++ last := by simp [hsplit]
    have hnever := (hfirst.append hstill).append hlast _ hmem
    cases hnever
  · have hwrites : Still (first ++ written.flatten) :=
      hfirst.append (still_flatten hwritten fun _ _ h => h.still)
    rw [List.append_assoc, List.append_assoc, ← List.append_assoc first] at hsplit
    obtain ⟨more, hearlier⟩ := hwrites.prefix_of_append_eq hsplit
    exact ⟨written, more, hwritten, hearlier⟩

/-! ## The whole load -/

variable [Client σ]

/-- The graph of a load is ready at `middle`, and the calls so far ran nothing. -/
structure Readied (before : Loader (Recorded σ)) (image : Image) (root : Handle)
    (middle : Loading (Recorded σ)) (calls : List Event) : Prop where
  ready : ∃ handle, ready image { loader := before } = (.ok (root, handle), middle)
  events : middle.loader.client.events = before.client.events ++ calls
  still : Still calls
  inOrder : InOrder before.modules middle.loader.modules middle.session.pending

variable {ledger : Ledger (Recorded σ)} {before : Loader (Recorded σ)}

theorem ready_readied (hsound : before.Sound ledger) {image : Image} {root handle : Handle}
    {middle : Loading (Recorded σ)}
    (hready : ready image { loader := before } = (.ok (root, handle), middle)) :
    ∃ quiet, Readied before image root middle quiet := by
  obtain ⟨quiet, hquiet, hstill⟩ := makes_ready image { loader := before }
  rw [hready] at hquiet
  exact ⟨quiet, ⟨handle, hready⟩, hquiet, hstill, (ready_inOrder hsound image).ok rfl hready⟩

/-- The calls of a load follow its phases: no function runs before all new modules are relocated and
written, and if the load succeeds, the functions that ran are the early initializers of the new
executables and then the initializers of all new modules, in their order. -/
structure Phased (before : Loader (Recorded σ)) (image : Image) (arguments : List String)
    (answer : Except LoadError Handle) (after : Loader (Recorded σ)) (calls : List Event) : Prop where
  events : after.client.events = before.client.events ++ calls
  before_execute : ∀ earlier address result later,
    calls = earlier ++ .execute address result :: later →
      ∃ root middle quiet written more, Readied before image root middle quiet ∧
        List.Forall₂ (Written middle.loader.modules middle.loader.app) middle.session.pending written ∧
        earlier = quiet ++ written.flatten ++ more
  completed : ∀ handle, answer = .ok handle →
    ∃ root middle quiet rest, Readied before image root middle quiet ∧
      Completed middle.loader.modules middle.loader.app root arguments middle.session.pending rest ∧
      calls = quiet ++ rest ∧ after.modules = middle.loader.modules ∧
      after.handles = (handle, root) :: before.handles

/-- A load that fails before its graph is ready runs nothing. -/
theorem still_of_unready {image : Image} {e : LoadError} {middle : Loading (Recorded σ)}
    (hready : ready image { loader := before } = (.error e, middle)) :
    ∃ calls, middle.abort.client.events = before.client.events ++ calls ∧ Still calls := by
  obtain ⟨quiet, hquiet, hstill⟩ := makes_ready image { loader := before }
  obtain ⟨aborted, haborted, hplacing⟩ := makes_abort middle
  rw [hready] at hquiet
  refine ⟨quiet ++ aborted, ?_, Still.append hstill fun call hcall =>
    Event.isStill_of_isPlacing (hplacing call hcall)⟩
  rw [← List.append_assoc]
  exact haborted.trans (congrArg (· ++ aborted) hquiet)

theorem phased_of_unready {image : Image} (arguments : List String) {e : LoadError}
    {middle : Loading (Recorded σ)} (hready : ready image { loader := before } = (.error e, middle)) :
    ∃ calls, Phased before image arguments (.error e) middle.abort calls := by
  obtain ⟨calls, hcalls, hnever⟩ := still_of_unready hready
  refine ⟨calls, hcalls, ?_, fun _ hanswer => by cases hanswer⟩
  intro earlier address result later hsplit
  have hexecute := hnever (.execute address result) (by simp [hsplit])
  cases hexecute

/-- From a graph that is ready on, the calls of a load are those that complete its modules. -/
theorem phased_of_ready (hsound : before.Sound ledger) {image : Image} (arguments : List String)
    {root handle : Handle} {middle : Loading (Recorded σ)}
    (hready : ready image { loader := before } = (.ok (root, handle), middle)) :
    ∃ calls, match complete root arguments middle.session.pending middle with
      | (.error e, after) => Phased before image arguments (.error e) after.abort calls
      | (.ok (), after) => ∀ machine, Phased before image arguments (.ok handle)
          { (handOut root handle after).loader with machine } calls := by
  obtain ⟨quiet, hreadied⟩ := ready_readied hsound hready
  have hfinishing := (ready_triple hsound image).ok rfl hready
  obtain ⟨rest, hrest, hsettled, hdone⟩ := performs_complete root arguments hfinishing.distinct
    hreadied.inOrder.matched middle ⟨rfl, rfl⟩
  have hstirs : Stirs ledger middle (complete root arguments middle.session.pending middle).2 :=
    stirs_complete arguments _ middle
  rcases hrun : complete root arguments middle.session.pending middle with ⟨e | ⟨⟩, after⟩ <;>
    rw [hrun] at hrest hsettled hdone hstirs
  · have hevents : after.loader.client.events = before.client.events ++ (quiet ++ rest) := by
      rw [← List.append_assoc, ← hreadied.events]
      exact hrest
    obtain ⟨aborted, haborted, hplacing⟩ := makes_abort after
    refine ⟨quiet ++ rest ++ aborted, ?_, ?_, fun _ hanswer => by cases hanswer⟩
    · rw [← List.append_assoc, ← hevents]
      exact haborted
    · intro earlier address result later hsplit
      obtain ⟨written, more, hwritten, hearlier⟩ := Held.before_execute hdone hreadied.still
        (fun call hcall => Event.isStill_of_isPlacing (hplacing call hcall)) hsplit
      exact ⟨root, middle, quiet, written, more, hreadied, hwritten, hearlier⟩
  · have hhandles : after.loader.handles = before.handles := by
      obtain ⟨client, pending, -, -, rfl⟩ := hstirs
      exact hfinishing.handles
    refine ⟨quiet ++ rest, fun machine => ⟨?_, ?_, ?_⟩⟩
    · rw [← List.append_assoc, ← hreadied.events]
      exact hrest
    · intro earlier address result later hsplit
      have hnone : Still [] := by simp [Still]
      obtain ⟨written, more, hwritten, hearlier⟩ := Held.before_execute (Completed.held hdone)
        hreadied.still hnone (by simpa using hsplit)
      exact ⟨root, middle, quiet, written, more, hreadied, hwritten, hearlier⟩
    · rintro _ ⟨⟩
      exact ⟨root, middle, quiet, rest, hreadied, hdone, rfl, hsettled.1,
        congrArg ((handle, root) :: ·) hhandles⟩

end Loading

namespace Loader

variable {σ : Type} [Client σ]

/-- After any run, whatever the client answers, the calls of a load follow its phases. -/
theorem load_phased (client : σ) (policy : LookupPolicy) (requests : List (Request σ))
    (image : Image) (arguments : List String) :
    let before := onRecord client policy requests
    ∃ calls, Loading.Phased before image arguments (before.load image arguments).1
      (before.load image arguments).2 calls := by
  have hsound := onRecord_sound client policy requests
  generalize onRecord client policy requests = loader at hsound
  intro before
  rw [load_apply]
  rcases hready : Loading.ready image { loader := before } with ⟨e | ⟨root, handle⟩, middle⟩
  · exact Loading.phased_of_unready arguments hready
  · obtain ⟨calls, hphased⟩ := Loading.phased_of_ready hsound arguments hready
    dsimp only
    rcases hrun : Loading.complete root arguments middle.session.pending middle with ⟨e | ⟨⟩, after⟩ <;>
      rw [hrun] at hphased
    · exact ⟨calls, hphased⟩
    · exact ⟨calls, hphased _⟩

/-- Initializers in the data of a module: a single one and an array of two words. -/
def initializerTags : List (UInt32 × UInt32) :=
  [(DynamicTag.init, SampleObject.dataOffset), (DynamicTag.initArray, SampleObject.dataOffset),
    (DynamicTag.initArraySize, 8)]

/-- An executable that needs the module named `b`. Only the first word of its arrays is a function. -/
def initializedRoot : SampleObject where
  type := 2
  data := [0x11, 0xffffffff]
  names := [[0x61], [0x62]]
  tags := [(DynamicTag.needed, 3), (DynamicTag.preinitArray, SampleObject.dataOffset),
    (DynamicTag.preinitArraySize, 8)] ++ initializerTags

def initializedNeeded : SampleObject where
  data := [0x21, 0x22]
  names := [[0x62]]
  tags := (DynamicTag.preinitArray, SampleObject.dataOffset) ::
    (DynamicTag.preinitArraySize, 8) :: initializerTags

/-- The early initializer of the executable runs first, then the initializers of the module that it
needs, and its own ones last. -/
theorem load_phased_of_needed :
    let target := ({} : SimulatedTarget).register "b" initializedNeeded.image
    let before := onRecord target .direct []
    let after := (before.load initializedRoot.image []).2
    (before.load initializedRoot.image []).1 = .ok 1 ∧
      after.client.client.executed = [0x11, 0x10000178, 0x21, 0x22, 0x10000074, 0x11] ∧
      ∃ root middle quiet rest, Loading.Readied before initializedRoot.image root middle quiet ∧
        Loading.Completed middle.loader.modules middle.loader.app root [] middle.session.pending
          rest ∧
        after.client.events = before.client.events ++ (quiet ++ rest) := by
  refine ⟨by decide +kernel, by decide +kernel, ?_⟩
  obtain ⟨calls, hphased⟩ := load_phased
    (({} : SimulatedTarget).register "b" initializedNeeded.image) .direct [] initializedRoot.image []
  obtain ⟨root, middle, quiet, rest, hreadied, hcompleted, hcalls, -⟩ :=
    hphased.completed 1 (by decide +kernel)
  exact ⟨root, middle, quiet, rest, hreadied, hcompleted, hcalls ▸ hphased.events⟩

end Loader

end TargetLink
