import TargetLink.Proofs.Initializers

/-!
# No circles

No module is reached from itself along dependencies.  Ranks show it of every loader in good order
(`Module.Acyclic.not_transGen`), so all that is left to say of a load is that it notes what a module
needs: when a load succeeds, the dependencies of every new module answer the names that its file
needs, one by one (`Linked`).  New modules whose files need each other in a circle would close one, so
such a load does not succeed.

`Loading.Woven` follows the faces of the modules through the placing of a graph: the old ones stay in
front, and every complete new one is linked.
-/

namespace TargetLink

open TargetLink.Module (handlesOf)
open LoadM (Triple Within bind_apply)

/-- Along dependencies ranks go down. -/
theorem Module.Acyclic.not_transGen {modules : List Module} (h : Acyclic modules) (handle : Handle) :
    ¬Relation.TransGen (Needs modules) handle handle := by
  obtain ⟨rank, hrank⟩ := h
  have hdown : ∀ {first last : Handle}, Relation.TransGen (Needs modules) first last →
      rank last < rank first := by
    intro first last hpath
    induction hpath with
    | single hneeds =>
      obtain ⟨m, hm, rfl, hneeded⟩ := hneeds
      exact hrank m hm _ hneeded
    | tail _ hneeds ih =>
      obtain ⟨m, hm, rfl, hneeded⟩ := hneeds
      exact Nat.lt_trans (hrank m hm _ hneeded) ih
  exact fun hcircle => Nat.lt_irrefl _ (hdown hcircle)

/-! ## What the dependencies of a module stand for -/

/-- What a module shows to those that need it. -/
abbrev Module.label (m : Module) : Handle × String := (m.handle, m.name)

/-- A needed name is answered by a module of that name, or by the module of a file that the client
opened for it. -/
def Answers (calls : List Event) (labels : List (Handle × String)) (needed : String)
    (found : Handle) : Prop :=
  ∃ name, (found, name) ∈ labels ∧ (name = needed ∨ ∃ image file,
    .openDependent needed (some image) ∈ calls ∧ ObjectFile.read image = .ok file ∧
      name = file.ownName?.getD needed)

/-- Dependencies are those of a file that was to be loaded or that the client opened: they answer the
names that the file needs, one by one. -/
def Linked (image : Image) (calls : List Event) (labels : List (Handle × String))
    (dependencies : List Handle) : Prop :=
  ∃ source file, (source = image ∨ ∃ name, .openDependent name (some source) ∈ calls) ∧
    ObjectFile.read source = .ok file ∧ List.Forall₂ (Answers calls labels) file.needed dependencies

section Growing

variable {calls calls' : List Event} {labels labels' : List (Handle × String)}

theorem Answers.mono {needed : String} {found : Handle} (h : Answers calls labels needed found)
    (hcalls : calls ⊆ calls') (hlabels : labels ⊆ labels') : Answers calls' labels' needed found := by
  obtain ⟨name, hname, hneeded⟩ := h
  refine ⟨name, hlabels hname, hneeded.imp_right ?_⟩
  rintro ⟨image, file, hopened, hfile⟩
  exact ⟨image, file, hcalls hopened, hfile⟩

theorem Linked.mono {image image' : Image} {dependencies : List Handle}
    (h : Linked image' calls labels dependencies) (hcalls : calls ⊆ calls')
    (hlabels : labels ⊆ labels')
    (himage : image' = image ∨ ∃ name, .openDependent name (some image') ∈ calls') :
    Linked image calls' labels' dependencies := by
  obtain ⟨source, file, hsource, hread, hall⟩ := h
  refine ⟨source, file, ?_, hread, hall.imp fun _ _ h => h.mono hcalls hlabels⟩
  rcases hsource with rfl | ⟨name, hname⟩
  · exact himage
  · exact Or.inr ⟨name, hcalls hname⟩

end Growing

namespace Loader

variable {modules : List Module} {handle found : Handle} {name : String} {needs : List Handle}
  {old rest : List ((Handle × String) × List Handle)}

/-- What one module needs grows, in the place of that module. -/
theorem map_face_updateModule (hfaces : modules.map Module.face = old ++ ((handle, name), needs) :: rest)
    (hold : ∀ face ∈ old, face.1.1 ≠ handle) :
    (updateModule handle (fun m => { m with dependencies := m.dependencies ++ [found] })
      modules).map Module.face = old ++ ((handle, name), needs ++ [found]) :: rest := by
  induction old generalizing modules with
  | nil =>
    obtain ⟨m, modules, rfl, hm, rfl⟩ := List.map_eq_cons_iff.mp hfaces
    simp only [Module.face, Prod.mk.injEq] at hm
    obtain ⟨⟨rfl, rfl⟩, rfl⟩ := hm
    rw [updateModule, if_pos rfl]
    rfl
  | cons face old ih =>
    obtain ⟨m, modules, rfl, rfl, hrest⟩ := List.map_eq_cons_iff.mp hfaces
    obtain ⟨hne, hold⟩ := List.forall_mem_cons.mp hold
    rw [updateModule, if_neg hne, List.map_cons, ih hrest hold, List.cons_append]

end Loader

namespace Loading

variable {σ : Type}

def labels (loading : Loading σ) : List (Handle × String) :=
  loading.loader.modules.map Module.label

theorem labels_eq (loading : Loading σ) : loading.labels = loading.faces.map Prod.fst := by
  rw [labels, faces, List.map_map]
  rfl

/-- Every module was given its handle by the loader. -/
def Below (loading : Loading σ) : Prop :=
  ∀ label ∈ loading.labels, label.1 < loading.loader.nextHandle

/-! ## While a graph is placed -/

/-- Since `before` the client got `calls`, and the modules are the old ones, those with the faces
`first`, and after them complete ones. -/
structure Woven (image : Image) (before : Loading (Recorded σ)) (calls : List Event)
    (first : List ((Handle × String) × List Handle)) (after : Loading (Recorded σ)) : Prop where
  events : log after = log before ++ calls
  faces : ∃ rest, after.faces = before.faces ++ first ++ rest ∧
    ∀ face ∈ rest, Linked image calls after.labels face.2
  below : after.Below

namespace Woven

variable {image image' : Image} {before middle after : Loading (Recorded σ)}
  {calls calls' : List Event} {first : List ((Handle × String) × List Handle)}

theorem labels_subset (h : Woven image middle calls [] after) : middle.labels ⊆ after.labels := by
  obtain ⟨rest, hfaces, -⟩ := h.faces
  rw [labels_eq, labels_eq, hfaces, List.append_nil, List.map_append]
  exact List.subset_append_left _ _

/-- What is woven afterwards is complete, also if it comes from a file that was opened. -/
theorem trans (h : Woven image before calls first middle) (h' : Woven image' middle calls' [] after)
    (himage : image' = image ∨ ∃ name, .openDependent name (some image') ∈ calls ++ calls') :
    Woven image before (calls ++ calls') first after where
  events := by rw [h'.events, h.events, List.append_assoc]
  faces := by
    obtain ⟨rest, hfaces, hlinked⟩ := h.faces
    obtain ⟨rest', hfaces', hlinked'⟩ := h'.faces
    refine ⟨rest ++ rest', by rw [hfaces', hfaces]; simp, fun face hface => ?_⟩
    rcases List.mem_append.mp hface with hface | hface
    · exact (hlinked face hface).mono (List.subset_append_left _ _) h'.labels_subset (Or.inl rfl)
    · exact (hlinked' face hface).mono (List.subset_append_right _ _) (List.Subset.refl _) himage
  below := h'.below

variable [Client σ]

/-- Between two openings of a module no face changes. -/
theorem of_move (image : Image) (hbelow : middle.Below) (hmove : Move middle after) :
    ∃ calls, Woven image middle calls [] after := by
  obtain ⟨calls, hcalls, -⟩ := hmove.toWalked.makes
  have hfaces : after.faces = middle.faces := hmove.faces
  refine ⟨calls, hcalls, ⟨[], by simp [hfaces], by simp⟩, fun label hlabel => ?_⟩
  rw [labels_eq, hfaces, ← labels_eq] at hlabel
  exact UInt32.lt_of_lt_of_le (hbelow label hlabel) hmove.nextHandle

theorem move (h : Woven image before calls first middle) (hmove : Move middle after) :
    ∃ calls', Woven image before (calls ++ calls') first after := by
  obtain ⟨calls', h'⟩ := of_move image h.below hmove
  exact ⟨calls', h.trans h' (Or.inl rfl)⟩

/-- The client was asked for the file of a name. -/
theorem openDependent (hbelow : middle.Below) (needed : String) :
    Woven image middle
      [.openDependent needed (Client.openDependent needed middle.loader.client.client).1] []
      { middle with loader := { middle.loader with
        client := (Client.openDependent needed middle.loader.client).2 } } :=
  ⟨rfl, ⟨[], by simp [Loading.faces], by simp⟩, hbelow⟩

end Woven

/-- The module `handle` is open, and for each of some names it has the module that answers it. -/
def Weaving (image : Image) (before : Loading (Recorded σ)) (handle : Handle) (name : String)
    (needed : List String) (after : Loading (Recorded σ)) : Prop :=
  ∃ calls found, Woven image before calls [((handle, name), found)] after ∧
    List.Forall₂ (Answers calls after.labels) needed found

/-- What loading a file does that was requested under a name. -/
def Provides (before : Loading (Recorded σ)) (image : Image) (requested : Option String)
    (found : Handle) (after : Loading (Recorded σ)) : Prop :=
  (∃ calls, Woven image before calls [] after) ∧
    ∃ file name, ObjectFile.read image = .ok file ∧ (found, name) ∈ after.labels ∧
      ∀ needed, requested = some needed → name = file.ownName?.getD needed

variable [Client σ] {image : Image} {before : Loading (Recorded σ)} {handle : Handle} {name : String}
  {load : String → Image → LoadM (Loading (Recorded σ)) Handle}

/-- What the loads of needed modules do. -/
abbrev Providing (load : String → Image → LoadM (Loading (Recorded σ)) Handle) : Prop :=
  ∀ needed image before, before.Below →
    Triple (· = before) (load needed image) (Provides before image (some needed)) fun _ => True

/-- A module whose file the client opens answers the name that it was opened for. -/
theorem openDependency_woven (hload : Providing load) (hbelow : before.Below) (needed : String) :
    Triple (· = before)
      (do match ← onClient (liftM (Client.openDependent needed : StateM (Recorded σ) _)) with
        | some image => load needed image
        | none => throw (.dependencyNotFound needed))
      (fun answer after => ∃ source calls, Woven source before calls [] after ∧
        .openDependent needed (some source) ∈ calls ∧ Answers calls after.labels needed answer)
      fun _ => True := by
  refine Triple.bind (R := fun answer after => ∀ source, answer = some source →
    Woven source before [.openDependent needed (some source)] [] after) ?_ fun answer => ?_
  · rintro _ rfl source hsource
    exact hsource ▸ Woven.openDependent hbelow needed
  · cases answer with
    | none => exact Triple.throw fun _ _ => trivial
    | some source =>
      intro middle hopened
      have hwoven := hopened source rfl
      refine (hload needed source middle hwoven.below).weaken ?_ (fun _ h => h) middle rfl
      rintro answer after ⟨⟨calls, hrest⟩, file, name, hread, hlabel, hname⟩
      refine ⟨source, _, hwoven.trans hrest (Or.inl rfl), by simp, name, hlabel, Or.inr ?_⟩
      exact ⟨source, file, by simp, hread, hname needed rfl⟩

/-- What is found for a name answers it. -/
theorem loadDependency_weaving (hload : Providing load) (done : List String) (needed : String) :
    Triple (Weaving image before handle name done) (loadDependency (load needed) needed)
      (fun answer after => ∃ calls found, Woven image before calls [((handle, name), found)] after ∧
        List.Forall₂ (Answers calls after.labels) done found ∧
          Answers calls after.labels needed answer) fun _ => True := by
  refine Triple.get_bind fun loading ⟨calls, found, hwoven, hall⟩ => ?_
  refine Triple.throw_if (fun _ _ _ => trivial) fun _ => ?_
  have hgrow : ∀ {calls' source after}, Woven source loading calls' [] after →
      List.Forall₂ (Answers (calls ++ calls') after.labels) done found := fun h =>
    hall.imp fun _ _ hanswers => hanswers.mono (List.subset_append_left _ _) h.labels_subset
  refine ((reuse_move loading needed).strengthen fun s (hs : s = loading) =>
    hs ▸ Std.Refl.refl s).bind fun resident => ?_
  rintro middle ⟨hmove, hresident⟩
  obtain ⟨calls', hwoven'⟩ := Woven.of_move image hwoven.below hmove
  cases resident with
  | some answer =>
    obtain ⟨m, hm, rfl, rfl⟩ := hresident answer rfl
    exact ⟨calls ++ calls', found, hwoven.trans hwoven' (Or.inl rfl), hgrow hwoven',
      m.name, List.mem_map_of_mem hm, Or.inl rfl⟩
  | none =>
    refine (openDependency_woven hload hwoven'.below needed).weaken ?_ (fun _ h => h) middle rfl
    rintro answer after ⟨source, calls'', hopened, hmem, hanswers⟩
    have hmore : Woven image loading (calls' ++ calls'') [] after :=
      hwoven'.trans hopened (Or.inr ⟨needed, List.mem_append_right _ hmem⟩)
    refine ⟨calls ++ (calls' ++ calls''), found, hwoven.trans hmore (Or.inl rfl), hgrow hmore, ?_⟩
    refine hanswers.mono ?_ (List.Subset.refl _)
    exact List.subset_append_of_subset_right _ (List.subset_append_right _ _)

omit [Client σ] in
/-- The open module comes to need one module more. -/
theorem Woven.addDependency {calls : List Event} {found : List Handle} {after : Loading (Recorded σ)}
    (h : Woven image before calls [((handle, name), found)] after)
    (hfresh : ∀ face ∈ before.faces, face.1.1 ≠ handle) (answer : Handle) :
    let noted := withDependency handle answer after
    Woven image before calls [((handle, name), found ++ [answer])] noted ∧
      noted.labels = after.labels := by
  intro noted
  obtain ⟨rest, hfaces, hlinked⟩ := h.faces
  rw [List.append_assoc, List.singleton_append] at hfaces
  have hnoted : noted.faces = before.faces ++ ((handle, name), found ++ [answer]) :: rest :=
    Loader.map_face_updateModule hfaces hfresh
  have hlabels : noted.labels = after.labels := Loader.map_updateModule fun _ => rfl
  refine ⟨⟨h.events, ⟨rest, ?_, ?_⟩, ?_⟩, hlabels⟩
  · rw [hnoted, List.append_assoc, List.singleton_append]
  · rw [hlabels]
    exact hlinked
  · unfold Below
    rw [hlabels]
    exact h.below

/-- The open module notes what was found for the next name. -/
theorem need_weaving (hload : Providing load) (hfresh : ∀ face ∈ before.faces, face.1.1 ≠ handle)
    (done : List String) (needed : String) :
    Triple (Weaving image before handle name done) (need handle load needed)
      (fun _ => Weaving image before handle name (done ++ [needed])) fun _ => True := by
  refine (loadDependency_weaving hload done needed).bind fun answer => ?_
  refine addDependency_triple (fun _ _ => trivial)
    fun after ⟨calls, found, hwoven, hall, hanswers⟩ => ?_
  obtain ⟨hnoted, hlabels⟩ := hwoven.addDependency hfresh answer
  refine ⟨calls, found ++ [answer], hnoted, ?_⟩
  rw [hlabels]
  exact List.rel_append hall (.cons hanswers .nil)

omit [Client σ] in
/-- Once every name is answered the open module is complete. -/
theorem Weaving.close {file : ObjectFile} {after : Loading (Recorded σ)}
    (h : Weaving image before handle name file.needed after)
    (hread : ObjectFile.read image = .ok file) (session : Session) :
    let closed := { after with session }
    ∃ calls, Woven image before calls [] closed ∧ (handle, name) ∈ closed.labels := by
  intro closed
  obtain ⟨calls, found, hwoven, hall⟩ := h
  obtain ⟨rest, hfaces, hlinked⟩ := hwoven.faces
  have hclosed : closed.faces = before.faces ++ ((handle, name), found) :: rest := by
    rw [List.append_assoc, List.singleton_append] at hfaces
    exact hfaces
  have hlabel : (handle, name) ∈ closed.labels := by simp [labels_eq, hclosed]
  refine ⟨calls, ⟨hwoven.events, ⟨((handle, name), found) :: rest, ?_, ?_⟩, hwoven.below⟩, hlabel⟩
  · rw [hclosed, List.append_nil]
  · exact List.forall_mem_cons.mpr ⟨⟨image, file, Or.inl rfl, hread, hall⟩, hlinked⟩

theorem loadModule_woven (depth : Nat) (image : Image) (requested : Option String)
    {before : Loading (Recorded σ)} (hbelow : before.Below) :
    Triple (· = before) (loadModule depth image requested) (Provides before image requested)
      fun _ => True := by
  induction depth generalizing image requested before with
  | zero => exact Triple.throw fun _ _ => trivial
  | succ depth ih =>
    rw [loadModule_succ]
    refine (enter_admitted before image requested).bind fun entered => ?_
    rcases entered with handle | ⟨handle, file, draft⟩
    · refine Triple.pure fun after ⟨hmove, file, hread, m, hm, hhandle, hown⟩ => ?_
      refine ⟨Woven.of_move _ hbelow hmove, file, m.name, hread, ?_, fun needed _ => by simp [hown]⟩
      exact hhandle ▸ List.mem_map_of_mem hm
    · rintro middle ⟨hread, -, name, hname, hentered⟩
      have hfresh : ∀ face ∈ before.faces, face.1.1 ≠ handle := by
        rintro face hface rfl
        have hlt := hbelow face.1 (labels_eq before ▸ List.mem_map_of_mem hface)
        exact UInt32.not_le.mpr hlt hentered.fresh
      have hopen : Weaving image before handle name [] middle := by
        obtain ⟨calls, hcalls, -⟩ := hentered.toWalked.makes
        refine ⟨calls, [], ⟨hcalls, ⟨[], by simpa using hentered.faces, by simp⟩, ?_⟩, .nil⟩
        intro label hlabel
        rw [labels_eq, hentered.faces, List.map_append, ← labels_eq] at hlabel
        rcases List.mem_append.mp hlabel with hold | hlast
        · exact UInt32.lt_of_lt_of_le (hbelow label hold) hentered.nextHandle
        · exact List.mem_singleton.mp hlast ▸ hentered.below
      refine ((Triple.forM_done (need_weaving (fun needed image before hbelow =>
        ih image (some needed) hbelow) hfresh) [] file.needed).bind fun _ => ?_) middle hopen
      refine Triple.bind (R := fun _ => Provides before image requested handle) ?_ fun _ =>
        Triple.pure fun _ h => h
      refine Triple.modify fun after hopen => ?_
      obtain ⟨calls, hwoven, hlabel⟩ := hopen.close hread _
      refine ⟨⟨calls, hwoven⟩, file, name, hread, hlabel, fun needed hneeded => ?_⟩
      rw [hname, hneeded, Option.getD_some]

theorem place_woven (image : Image) {before : Loading (Recorded σ)} (hbelow : before.Below) :
    Triple (· = before) (place image) (fun _ after => ∃ calls, Woven image before calls [] after)
      fun _ => True := by
  refine Triple.get_bind fun begun hbegun => ?_
  obtain rfl : begun = before := hbegun
  refine (loadModule_woven _ image none hbelow).bind fun root => ?_
  refine Triple.get_bind fun placed ⟨⟨calls, hwoven⟩, _⟩ => ?_
  split
  · exact Triple.pure fun _ hs => hs ▸ ⟨calls, hwoven⟩
  · refine Triple.bind (R := fun _ after => ∃ calls, Woven image begun calls [] after) ?_ fun _ =>
      Triple.pure fun _ h => h
    refine (Within.triple move_newHandle (fun middle after h hmove => ?_)
      fun _ _ => trivial).strengthen fun s (hs : s = placed) => hs ▸ ⟨calls, hwoven⟩
    obtain ⟨calls, hwoven⟩ := h
    obtain ⟨calls', hwoven'⟩ := hwoven.move hmove
    exact ⟨_, hwoven'⟩

/-- When the graph of a load is ready, the old modules are as they were and the new ones are linked. -/
theorem ready_linked (image : Image) {before : Loading (Recorded σ)} (hbelow : before.Below) :
    Triple (· = before) (ready image)
      (fun _ after => ∃ calls new, log after = log before ++ calls ∧
        after.faces = before.faces ++ new ∧ ∀ face ∈ new, Linked image calls after.labels face.2)
      fun _ => True := by
  refine (place_woven image hbelow).bind fun placed => ?_
  rintro middle ⟨calls, hwoven⟩
  obtain ⟨new, hfaces, hlinked⟩ := hwoven.faces
  have hmodules := (restaged_prepare placed.1 middle).modules
  obtain ⟨more, hmore, -⟩ := makes_prepare placed.1 middle
  rw [bind_apply]
  rcases hrun : prepare placed.1 middle with ⟨e | ⟨⟩, after⟩ <;> rw [hrun] at hmodules hmore
  · trivial
  · have hsame : after.faces = middle.faces := congrArg (List.map Module.face) hmodules
    have hlabels : after.labels = middle.labels := by rw [labels_eq, labels_eq, hsame]
    refine ⟨calls ++ more, new, ?_, ?_, fun face hface => ?_⟩
    · rw [← List.append_assoc, ← hwoven.events]
      exact hmore
    · rw [hsame, hfaces, List.append_nil]
    · rw [hlabels]
      exact (hlinked face hface).mono (List.subset_append_left _ _) (List.Subset.refl _) (Or.inl rfl)

end Loading

namespace Loader

variable {σ : Type} [Client σ]

/-- After a load that succeeds, the modules that were not there before are linked. -/
theorem load_linked {ledger : Ledger (Recorded σ)} {before : Loader (Recorded σ)}
    (hsound : before.Sound ledger) {image : Image} {arguments : List String} {handle : Handle}
    (hload : (before.load image arguments).1 = .ok handle) :
    let after := (before.load image arguments).2
    ∃ calls, after.client.events = before.client.events ++ calls ∧ ∀ m ∈ after.modules,
      m.handle ∈ handlesOf before.modules ∨
        Linked image calls (after.modules.map Module.label) m.dependencies := by
  rw [load_apply] at hload ⊢
  rcases hready : Loading.ready image { loader := before } with ⟨e | ⟨root, new⟩, middle⟩ <;>
    rw [hready] at hload
  · cases hload
  have hbelow : Loading.Below { loader := before } := by
    intro label hlabel
    obtain ⟨m, hm, rfl⟩ := List.mem_map.mp hlabel
    exact hsound.accounted.below m hm
  obtain ⟨quiet, faces, hquiet, hfaces, hlinked⟩ := (Loading.ready_linked image hbelow).ok rfl hready
  obtain ⟨calls, hphased⟩ := Loading.phased_of_ready hsound arguments hready
  dsimp only at hload ⊢
  rcases hrun : Loading.complete root arguments middle.session.pending middle with ⟨e | ⟨⟩, after⟩ <;>
    rw [hrun] at hload hphased
  · cases hload
  · have hdone := hphased (after.loader.machine <|> after.session.machine)
    obtain ⟨root', middle', quiet', rest, hreadied, -, rfl, hmodules, -⟩ := hdone.completed new rfl
    obtain ⟨new', hready'⟩ := hreadied.ready
    obtain rfl : middle = middle' := congrArg Prod.snd (hready.symm.trans hready')
    obtain rfl : quiet = quiet' := List.append_cancel_left (hquiet.symm.trans hreadied.events)
    refine ⟨quiet ++ rest, hdone.events, fun m hm => ?_⟩
    rw [hmodules] at hm ⊢
    have hface : m.face ∈ middle.faces := List.mem_map_of_mem hm
    rw [hfaces] at hface
    rcases List.mem_append.mp hface with hold | hnew
    · obtain ⟨n, hn, heq⟩ := List.mem_map.mp hold
      simp only [Module.face, Prod.mk.injEq] at heq
      exact Or.inl (heq.1.1 ▸ Module.handle_mem hn)
    · exact Or.inr ((hlinked m.face hnew).mono (List.subset_append_left _ _)
        (List.Subset.refl _) (Or.inl rfl))

/-- After any run of any client no module is reached from itself along dependencies.  A load that
succeeds keeps it so, and notes in the new modules everything that their files need. -/
theorem run_acyclic (client : σ) (policy : LookupPolicy) (requests : List (Request σ)) :
    let before := onRecord client policy requests
    (∀ handle, ¬Relation.TransGen (Module.Needs before.modules) handle handle) ∧
      ∀ image arguments handle, (before.load image arguments).1 = .ok handle →
        let after := (before.load image arguments).2
        (∀ handle, ¬Relation.TransGen (Module.Needs after.modules) handle handle) ∧
          ∃ calls, after.client.events = before.client.events ++ calls ∧ ∀ m ∈ after.modules,
            m.handle ∈ handlesOf before.modules ∨
              Linked image calls (after.modules.map Module.label) m.dependencies := by
  have hsound := onRecord_sound client policy requests
  generalize onRecord client policy requests = loader at hsound
  intro before
  refine ⟨hsound.acyclic.not_transGen, fun image arguments handle hload => ?_⟩
  exact ⟨(load_ok hsound hload).acyclic.not_transGen, load_linked hsound hload⟩

/-- The executable of `initializedRoot` is loaded with the module that it needs. -/
theorem run_acyclic_of_needed :
    let before := onRecord (({} : SimulatedTarget).register "b" initializedNeeded.image) .direct []
    let after := (before.load initializedRoot.image []).2
    (before.load initializedRoot.image []).1 = .ok 1 ∧ after.modules.map (·.dependencies) = [[2], []] ∧
      (∀ handle, ¬Relation.TransGen (Module.Needs after.modules) handle handle) ∧
      ∃ calls, after.client.events = before.client.events ++ calls ∧ ∀ m ∈ after.modules,
        m.handle ∈ handlesOf before.modules ∨
          Linked initializedRoot.image calls (after.modules.map Module.label) m.dependencies := by
  have hload := (run_acyclic (({} : SimulatedTarget).register "b" initializedNeeded.image) .direct []).2
    initializedRoot.image [] 1
  exact ⟨by decide +kernel, by decide +kernel, hload (by decide +kernel)⟩

/-- The module of `initializedNeeded` when it needs the executable in turn. -/
example :
    let needed : SampleObject := { initializedNeeded with
      names := [[0x62], [0x61]], tags := (DynamicTag.needed, 3) :: initializedNeeded.tags }
    let target := (({} : SimulatedTarget).register "b" needed.image).register "a" initializedRoot.image
    (((onRecord target .direct []).load initializedRoot.image []).1 =
      .error (.circularDependency "a")) := by
  decide +kernel

end Loader

end TargetLink
