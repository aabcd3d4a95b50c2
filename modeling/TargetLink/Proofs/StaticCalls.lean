import TargetLink.Proofs.Calls
import TargetLink.Proofs.StaticModules

/-!
# The calls of a static load

A load of a static image asks for the memory and the contents of its segments, and stores bytes
(`Event.isFaithful`).  It looks for no other file, reads nothing and runs nothing.  A segment that gets
memory elsewhere ends the load: the memory is given back at once, and after that only the memory of earlier
segments is (`Loading.Refused`, `Loader.load_calls`).
-/

namespace TargetLink

open LoadM (Triple Within bind_apply)

namespace Event

/-- Calls that place segments of these headers where they were linked, fetch contents or store bytes. -/
def isFaithful (headers : List ProgramHeader) : Event → Bool
  | allocate request answer => decide (request ∈ headers.map (·.request false)) &&
      match answer with
      | .ok allocation => allocation.address == request.address
      | .error _ => true
  | copy .. | write .. => true
  | release .. | read .. | execute .. | openDependent .. => false

variable {headers : List ProgramHeader} {event : Event}

theorem isFaithful_of_isWrite (h : event.isWrite) : event.isFaithful headers := by
  cases event <;> first | rfl | cases h

/-- Memory is asked for the segments only, and what is handed out is where the segment was linked. -/
theorem isFaithful_allocate {request : AllocRequest} {answer : Except LoadError Allocation}
    (h : (allocate request answer).isFaithful headers) : request ∈ headers.map (·.request false) ∧
      ∀ allocation, answer = .ok allocation → allocation.address = request.address := by
  obtain ⟨hrequest, hplace⟩ := Bool.and_eq_true_iff.mp h
  refine ⟨of_decide_eq_true hrequest, ?_⟩
  rintro allocation rfl
  exact eq_of_beq hplace

theorem isStill_of_isFaithful (h : event.isFaithful headers) : event.isStill := by
  cases event <;> first | rfl | cases h

theorem isStill_of_isRelease (h : event.isRelease) : event.isStill :=
  isStill_of_isPlacing (isPlacing_of_isRelease h)

end Event

namespace Loading

variable {σ : Type} {headers : List ProgramHeader} {origin loading : Loading (Recorded σ)}

/-- Memory for one of the segments was handed out elsewhere and given back at once. -/
def Refused (headers : List ProgramHeader) (before after : Loading (Recorded σ)) : Prop :=
  ∃ first request allocation,
    log after = log before ++ (first ++ [.allocate request (.ok allocation), .release allocation]) ∧
    (∀ call ∈ first, call.isFaithful headers) ∧ request ∈ headers.map (·.request false) ∧
    allocation.address ≠ request.address

/-- How a load of a static image may end before its module is placed. -/
def Ended (headers : List ProgramHeader) (before after : Loading (Recorded σ)) : Prop :=
  Makes (Event.isFaithful headers) before after ∨ Refused headers before after

theorem faithful_triple {α : Type} {step : LoadM (Loading (Recorded σ)) α}
    (h : Within (Makes (Event.isFaithful headers)) step) :
    Triple (Makes (Event.isFaithful headers) origin) step
      (fun _ => Makes (Event.isFaithful headers) origin) (Ended headers origin) :=
  (h.since origin).weaken (fun _ _ h => h) fun _ => Or.inl

variable [Client σ] {image : Image} {file : ObjectFile} {header : ProgramHeader} {handle : Handle}

theorem allocate_faithful {request : AllocRequest} (hrequest : request ∈ headers.map (·.request false)) :
    Triple (Makes (Event.isFaithful headers) origin) (onClient (Client.allocate request))
      (fun allocation s => ∃ first, (∀ call ∈ first, call.isFaithful headers) ∧
        log s = log origin ++ (first ++ [.allocate request (.ok allocation)]))
      (Makes (Event.isFaithful headers) origin) := by
  rintro loading ⟨first, hfirst, hfaithful⟩
  have hlog : log (onClient (Client.allocate request) loading).2 = log origin ++ (first ++
      [.allocate request (onClient (Client.allocate request) loading).1]) := by
    rw [← List.append_assoc, ← hfirst]
    rfl
  rcases hrun : onClient (Client.allocate request) loading with ⟨e | allocation, t⟩ <;>
    rw [hrun] at hlog
  · refine ⟨_, hlog, List.forall_mem_append.mpr ⟨hfaithful, List.forall_mem_singleton.mpr ?_⟩⟩
    simpa [Event.isFaithful] using hrequest
  · exact ⟨first, hfaithful, hlog⟩

/-- A segment is placed where it was linked, or the load ends. -/
theorem placeSegment_faithful (hheader : header ∈ headers) :
    Triple (Makes (Event.isFaithful headers) origin) (placeSegment handle image false header)
      (fun _ => Makes (Event.isFaithful headers) origin) (Ended headers origin) := by
  have hrequest : header.request false ∈ headers.map (·.request false) := List.mem_map_of_mem hheader
  refine placeSegment_cases ((allocate_faithful hrequest).weaken (fun _ _ h => h) fun _ => Or.inl)
    ?refuse ?place
  case refuse =>
    rintro allocation hmisplaced s ⟨first, hfaithful, hlog⟩
    refine Or.inr ⟨first, header.request false, allocation, ?_, hfaithful, hrequest, hmisplaced⟩
    change log s ++ [.release allocation] = _
    rw [hlog, List.append_assoc, List.append_assoc]
    rfl
  case place =>
    rintro allocation hplace s ⟨first, hfaithful, hlog⟩
    have hkept : Makes (Event.isFaithful headers) origin s := by
      refine ⟨_, hlog, List.forall_mem_append.mpr ⟨hfaithful, List.forall_mem_singleton.mpr ?_⟩⟩
      rw [Event.isFaithful, decide_eq_true hrequest]
      exact beq_iff_eq.mpr (hplace rfl)
    refine faithful_triple (Within.bind (fun _ => Makes.of_log_eq rfl) fun _ => ?_) s hkept
    exact Makes.onClient (Makes.noting fun _ => rfl)

omit [Client σ] in
theorem makes_newHandle {kind : Event → Bool} :
    Within (Makes kind) (onLoader Loader.newHandle : LoadM (Loading (Recorded σ)) Handle) := by
  intro s
  rw [newHandle_apply]
  split <;> exact Makes.of_log_eq rfl

omit [Client σ] in
theorem makes_addModule {kind : Event → Bool} (file : ObjectFile) (requested : Option String) :
    Within (Makes kind) (addModule file requested : LoadM (Loading (Recorded σ)) (Handle × String)) :=
  makes_newHandle.bind fun _ => Within.bind (fun _ => Makes.of_log_eq rfl) fun _ => Within.pure

omit [Client σ] in
theorem makes_draftModule {kind : Event → Bool} (handle : Handle) (name : String) (file : ObjectFile)
    (staged : List Bytes) : Within (Makes kind)
      (draftModule handle name file staged : LoadM (Loading (Recorded σ)) Draft) := by
  refine Within.bind (Within.of_unchanged (resident_unchanged handle)) fun m => ?_
  refine Within.bind (fun _ => Makes.of_log_eq rfl) fun _ => ?_
  generalize Draft.ofPlaced handle name file m.segments staged = draft
  cases draft.claim? with
  | none => exact Within.pure
  | some claim =>
    refine Within.get_bind fun loading => ?_
    rw [bind_apply, LoadM.ofExcept_apply]
    cases loading.loader.dsbt.register claim with
    | error e => exact Makes.of_log_eq rfl
    | ok dsbt => exact Makes.of_log_eq rfl

/-- Entering a static file places its segments, and asks nothing else of the client. -/
theorem enter_faithful (hread : ObjectFile.read image = .ok file) (hbare : file.Bare) :
    Triple (Makes (Event.isFaithful file.loadHeaders) origin) (enter image none)
      (fun entered s => (∀ handle other draft, entered = .inr (handle, other, draft) → other = file) ∧
        Makes (Event.isFaithful file.loadHeaders) origin s)
      (Ended file.loadHeaders origin) := by
  refine Triple.bind (R := fun found s => found = file ∧
      Makes (Event.isFaithful file.loadHeaders) origin s)
    (Triple.ofExcept (fun found s hfound hs => ⟨?_, hs⟩) fun _ => Or.inl) ?_
  · exact Except.ok.inj (hfound.symm.trans hread)
  rintro found s ⟨rfl, hs⟩
  refine (Triple.bind (faithful_triple Within.get) fun loading => ?_) s hs
  refine (faithful_triple Within.ofExcept).bind fun _ => ?_
  refine (faithful_triple fun _ => Makes.of_log_eq rfl).bind fun _ => ?_
  rw [reuseOwn_eq hbare.unnamed, pure_bind]
  refine (faithful_triple (makes_addModule _ none)).bind fun ⟨handle, name⟩ => ?_
  refine Triple.bind (R := fun _ => Makes (Event.isFaithful found.loadHeaders) origin) ?_
    fun staged => ?_
  · refine (faithful_triple (Within.of_unchanged (resident_unchanged handle))).bind fun _ => ?_
    rw [hbare.fixed]
    exact Triple.mapM fun header hheader => placeSegment_faithful hheader
  refine (faithful_triple (makes_draftModule handle name _ staged)).bind fun draft => ?_
  refine (faithful_triple fun _ => Makes.of_log_eq rfl).bind fun _ => ?_
  exact Triple.pure fun s hs => ⟨by rintro _ _ _ ⟨⟩; rfl, hs⟩

/-- Placing a static file places its segments, and asks nothing else of the client. -/
theorem place_faithful (hread : ObjectFile.read image = .ok file) (hbare : file.Bare)
    (origin : Loading (Recorded σ)) :
    Triple (· = origin) (place image)
      (fun _ => Makes (Event.isFaithful file.loadHeaders) origin) (Ended file.loadHeaders origin) := by
  have hrefl : Makes (Event.isFaithful file.loadHeaders) origin origin := Std.Refl.refl origin
  refine Triple.strengthen (P := Makes (Event.isFaithful file.loadHeaders) origin) ?_
    fun s hs => hs ▸ hrefl
  refine (faithful_triple Within.get).bind fun begun => ?_
  refine Triple.bind (R := fun _ => Makes (Event.isFaithful file.loadHeaders) origin) ?_ fun root => ?_
  · generalize UInt32.size - begun.loader.nextHandle.toNat = depth
    cases depth with
    | zero => exact Triple.throw fun _ => Or.inl
    | succ depth =>
      rw [loadModule_succ]
      refine (enter_faithful hread hbare).bind fun entered => ?_
      rintro s ⟨hfile, hs⟩
      rcases entered with handle | ⟨handle, other, draft⟩
      · exact hs
      · obtain rfl := hfile handle other draft rfl
        dsimp only
        rw [hbare.needed]
        exact IsTrans.trans origin s _ hs (Makes.of_log_eq rfl)
  · refine (faithful_triple Within.get).bind fun loading => faithful_triple ?_
    split
    · exact Within.pure
    · exact makes_newHandle.bind fun _ => Within.pure

/-- Bytes are stored by calls that write. -/
theorem OnlyStores.faithful {before after : Loading (Recorded σ)} (h : OnlyStores before after) :
    Makes (Event.isFaithful headers) before after := by
  have hmakes : ∀ {recorded : Recorded σ}, Filled before.loader.client recorded →
      Makes Event.isWrite before.loader.client recorded := by
    intro recorded hfilled
    induction hfilled with
    | refl => exact Std.Refl.refl before.loader.client
    | @tail middle _ _ hlast ih =>
      obtain ⟨address, bytes, rfl⟩ := hlast
      exact IsTrans.trans _ middle _ ih (Makes.noting (fun _ => rfl) middle)
  exact Makes.mono (hmakes h.filled) fun _ => Event.isFaithful_of_isWrite

end Loading

/-! ## Loads -/

namespace Loader

variable {σ : Type} [Client σ] {before : Loader (Recorded σ)} {image : Image} {file : ObjectFile}

/-- Up to here segments were placed where they were linked, and from here on memory is given back. -/
def Straight (headers : List ProgramHeader) (calls : List Event) : Prop :=
  ∃ first others, calls = first ++ others ∧ (∀ call ∈ first, call.isFaithful headers) ∧
    ∀ call ∈ others, call.isRelease

/-- Memory for a segment was handed out elsewhere and given back at once, and then the rest was. -/
def TurnedDown (headers : List ProgramHeader) (calls : List Event) : Prop :=
  ∃ first request allocation others,
    calls = first ++ .allocate request (.ok allocation) :: .release allocation :: others ∧
    (∀ call ∈ first, call.isFaithful headers) ∧ (∀ call ∈ others, call.isRelease) ∧
    request ∈ headers.map (·.request false) ∧ allocation.address ≠ request.address

section Kinds

variable {headers : List ProgramHeader} {calls first rest : List Event} {request : AllocRequest}
  {answer : Except LoadError Allocation}

theorem Straight.isStill (h : Straight headers calls) : ∀ call ∈ calls, call.isStill := by
  obtain ⟨first, others, rfl, hfaithful, hrelease⟩ := h
  exact List.forall_mem_append.mpr
    ⟨fun call hcall => Event.isStill_of_isFaithful (hfaithful call hcall),
      fun call hcall => Event.isStill_of_isRelease (hrelease call hcall)⟩

theorem TurnedDown.isStill (h : TurnedDown headers calls) : ∀ call ∈ calls, call.isStill := by
  obtain ⟨first, request, allocation, others, rfl, hfaithful, hrelease, -, -⟩ := h
  refine List.forall_mem_append.mpr
    ⟨fun call hcall => Event.isStill_of_isFaithful (hfaithful call hcall), ?_⟩
  refine List.forall_mem_cons.mpr ⟨rfl, List.forall_mem_cons.mpr ⟨rfl, fun call hcall => ?_⟩⟩
  exact Event.isStill_of_isRelease (hrelease call hcall)

/-- A load that goes straight has its memory where the segments were linked. -/
theorem Straight.granted (h : Straight headers calls) (hmem : .allocate request answer ∈ calls) :
    request ∈ headers.map (·.request false) ∧
      ∀ allocation, answer = .ok allocation → allocation.address = request.address := by
  obtain ⟨first, others, rfl, hfaithful, hrelease⟩ := h
  rcases List.mem_append.mp hmem with hfirst | hothers
  · exact Event.isFaithful_allocate (hfaithful _ hfirst)
  · cases hrelease _ hothers

/-- A load that is turned down gives back at once what is elsewhere. -/
theorem TurnedDown.granted (h : TurnedDown headers calls)
    (hsplit : calls = first ++ .allocate request answer :: rest) :
    request ∈ headers.map (·.request false) ∧
      ∀ allocation, answer = .ok allocation → allocation.address ≠ request.address →
        ∃ others, rest = .release allocation :: others ∧ ∀ call ∈ others, call.isRelease := by
  obtain ⟨first', request', allocation', others, rfl, hfaithful, hrelease, hrequest, hplace⟩ := h
  have hbefore : .allocate request' (.ok allocation') ∉ first' := fun hmem =>
    hplace ((Event.isFaithful_allocate (hfaithful _ hmem)).2 _ rfl)
  have hbehind (request : AllocRequest) (answer : Except LoadError Allocation) :
      .allocate request answer ∉ Event.release allocation' :: others := by
    rintro (_ | ⟨_, hmem⟩)
    cases hrelease _ hmem
  have hmem : .allocate request answer ∈
      first' ++ .allocate request' (.ok allocation') :: .release allocation' :: others := by
    rw [hsplit]
    exact List.mem_append_right _ List.mem_cons_self
  rcases List.mem_append.mp hmem with hfirst | hmem
  · obtain ⟨hheader, hsame⟩ := Event.isFaithful_allocate (hfaithful _ hfirst)
    exact ⟨hheader, fun allocation hok hne => absurd (hsame allocation hok) hne⟩
  rcases List.mem_cons.mp hmem with hthis | hmem
  · obtain ⟨rfl, rfl⟩ := Event.allocate.inj hthis
    obtain ⟨-, -, rfl⟩ := (List.append_cons_inj_of_notMem hbefore (hbehind _ _)).mp hsplit
    refine ⟨hrequest, fun allocation hok _ => ?_⟩
    obtain rfl := Except.ok.inj hok
    exact ⟨others, rfl, hrelease⟩
  · exact absurd hmem (hbehind request answer)

end Kinds

/-- Undoing a load adds calls that give memory back. -/
theorem calls_of_abort {headers : List ProgramHeader} {loading : Loading (Recorded σ)}
    (h : Loading.Ended headers { loader := before } loading) :
    ∃ calls, log loading.abort = log before ++ calls ∧ (Straight headers calls ∨ TurnedDown headers calls) := by
  obtain ⟨others, hothers, hrelease⟩ := Loading.releases_abort loading
  rcases h with ⟨first, hfirst, hfaithful⟩ | ⟨first, request, allocation, hfirst, hfaithful, hrefused⟩
  · refine ⟨first ++ others, ?_, Or.inl ⟨first, others, rfl, hfaithful, hrelease⟩⟩
    rw [← List.append_assoc, hothers]
    exact congrArg (· ++ others) hfirst
  · refine ⟨first ++ .allocate request (.ok allocation) :: .release allocation :: others, ?_,
      Or.inr ⟨first, request, allocation, others, rfl, hfaithful, hrelease, hrefused⟩⟩
    rw [hothers]
    refine (congrArg (· ++ others) hfirst).trans ?_
    rw [List.append_assoc, List.append_assoc]
    rfl

/-- A load of a static image goes straight, or it is turned down and fails. -/
theorem load_calls (hsound : before.Sound Ledger.blank) (hread : ObjectFile.read image = .ok file)
    (hbare : file.Bare) (arguments : List String) :
    ∃ calls, log (before.load image arguments).2 = log before ++ calls ∧
      (Straight file.loadHeaders calls ∨
        TurnedDown file.loadHeaders calls ∧ ∃ e, (before.load image arguments).1 = .error e) := by
  have hholds : Ledger.blank.holds before.client 0 := trivial
  have hfaithful := Loading.place_faithful hread hbare { loader := before }
  have hplaced := Loading.place_seated hread hbare (fun m hm => hsound.accounted.below m hm) hholds
  have hfailed {loading : Loading (Recorded σ)} (e : LoadError)
      (h : Loading.Ended file.loadHeaders { loader := before } loading) :
      ∃ calls, log loading.abort = log before ++ calls ∧ (Straight file.loadHeaders calls ∨
        TurnedDown file.loadHeaders calls ∧ ∃ e', (Except.error e : Except LoadError Handle) = .error e') := by
    obtain ⟨calls, hcalls, hkind⟩ := calls_of_abort h
    exact ⟨calls, hcalls, hkind.imp id fun hturned => ⟨hturned, e, rfl⟩⟩
  rw [load_apply, Loading.ready, bind_apply]
  rcases hplace : Loading.place image { loader := before } with ⟨e | ⟨root, handle⟩, placed⟩
  · exact hfailed e (hfaithful.error rfl hplace)
  have hmakes := hfaithful.ok rfl hplace
  obtain ⟨m, draft, hroot, hseated, hraised⟩ := hplaced.ok rfl hplace
  have hprepared := Loading.prepare_stores (hraised.inert hsound hseated) root
  dsimp only
  rw [bind_apply]
  rcases hprepare : Loading.prepare root placed with ⟨e | ⟨⟩, middle⟩
  · have hstores := hprepared.error rfl hprepare
    exact hfailed e (Or.inl (IsTrans.trans _ placed _ hmakes hstores.faithful))
  have hstores := hprepared.ok rfl hprepare
  have hready := IsTrans.trans _ placed _ hmakes hstores.faithful
  have hwritten := Loading.writeSegments_stores draft middle
  dsimp only [LoadM.pure_apply]
  rw [hstores.pending, hraised.pending, Loading.complete_eq_of_bare hseated.bare]
  rcases hcomplete : Loading.writeSegments draft middle with ⟨e | ⟨⟩, after⟩ <;>
    rw [hcomplete] at hwritten
  · exact hfailed e (Or.inl (IsTrans.trans _ middle _ hready hwritten.faithful))
  · have hdone : Makes (Event.isFaithful file.loadHeaders) middle after := hwritten.faithful
    obtain ⟨calls, hcalls, hkind⟩ := IsTrans.trans _ middle _ hready hdone
    exact ⟨calls, hcalls, Or.inl ⟨calls, [], (List.append_nil _).symm, hkind, by simp⟩⟩

end Loader

end TargetLink
