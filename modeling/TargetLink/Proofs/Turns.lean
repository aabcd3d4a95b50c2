import TargetLink.Proofs.Acyclicity
import TargetLink.Proofs.Nesting

/-!
# Placing a graph, turn by turn

Which modules are resident, under which names and for which machine, changes in two ways only while a
load runs: the load commits itself to the machine of a file, and a module arrives under the next
handle.  `Loading.Turn` says what holds at each of the two.  A graph is placed by a sequence of turns,
also if it cannot be placed completely (`Loading.place_turns`), and nothing that follows in a load
shows in the modules (`Loading.loadGraph_turns`).  So what every turn keeps, every load keeps.
-/

namespace TargetLink

open LoadM (Triple Within Same)
open Relation (ReflTransGen)

/-- What a module keeps from its arrival on. -/
abbrev Module.stamp (m : Module) : (Handle × String) × Machine := (m.label, m.machine)

namespace Loading

variable {σ : Type}

/-- The machine that a load is committed to, once there is one. -/
def lock (loading : Loading σ) : Option Machine := loading.loader.machine <|> loading.session.machine

/-- The stamps of the resident modules, and what the machine of the load is kept in. -/
def roster (loading : Loading σ) :
    List ((Handle × String) × Machine) × Option Machine × Option Machine :=
  (loading.loader.modules.map Module.stamp, loading.loader.machine, loading.session.machine)

variable [Client σ]

/-- Steps that neither change a roster nor leave the way in which a client serves. -/
structure Steady (before after : Loading σ) : Prop extends Walked before after where
  roster : after.roster = before.roster

/-- A file that a load reads: its own, or one that the client opened before. -/
def Source (root : Image) (client : σ) (image : Image) : Prop :=
  image = root ∨ ∃ name opening, (Client.openDependent name opening).1 = some image ∧
    ReflTransGen Served (Client.openDependent name opening).2 client

/-- A name that no resident module has and that a file knows which the load reads. -/
def Unused (root : Image) (loading : Loading σ) (name : String) : Prop :=
  name ∉ loading.loader.modules.map (·.name) ∧
    ∃ source, Source root loading.loader.client source ∧ name ∈ ObjectFile.names source

/-- What a load does to its modules and its machine. -/
inductive Turn (root : Image) : Loading σ → Loading σ → Prop
  | steady {before after : Loading σ} : Steady before after → Turn root before after
  | commit {loading : Loading σ} {machine : Machine} :
      Loader.checkMachine loading.lock machine = .ok () →
      Turn root loading
        { loading with session := { loading.session with machine := some machine } }
  | arrive {loading : Loading σ} {m : Module} :
      m.handle = loading.loader.nextHandle → loading.loader.nextHandle ≠ Loader.lastHandle →
      loading.lock = some m.machine →
      (m.name = Loader.defaultName m.handle ∨ Unused root loading m.name) →
      Turn root loading
        { loader := { loading.loader with
            nextHandle := loading.loader.nextHandle + 1
            modules := loading.loader.modules ++ [m] }
          session := { loading.session with created := loading.session.created ++ [m.handle] } }

instance : IsPreorder (Loading σ) Steady where
  refl loading := ⟨Std.Refl.refl loading, rfl⟩
  trans before middle after hfirst hsecond :=
    ⟨IsTrans.trans before middle after hfirst.toWalked hsecond.toWalked,
      hsecond.roster.trans hfirst.roster⟩

/-! ## Steps that no roster shows -/

theorem steady_of_move {α : Type} {step : LoadM (Loading σ) α} (hmove : Within Move step)
    (hroster : Within (Same roster) step) : Within Steady step :=
  fun loading => ⟨(hmove loading).toWalked, hroster loading⟩

omit [Client σ] in
theorem roster_update {loading : Loading σ} {handle : Handle} {change : Module → Module}
    {session : Session} (h : ∀ m, (change m).stamp = m.stamp)
    (hmachine : session.machine = loading.session.machine) :
    roster { loader := loading.loader.update handle change, session } = loading.roster := by
  have hstamps : (loading.loader.update handle change).modules.map Module.stamp =
      loading.loader.modules.map Module.stamp :=
    Loader.map_updateModule h
  rw [roster, roster, hstamps, hmachine]
  rfl

theorem steady_newHandle : Within Steady (onLoader Loader.newHandle : LoadM (Loading σ) Handle) := by
  refine steady_of_move move_newHandle fun loading => ?_
  rw [newHandle_apply]
  split
  · rfl
  · rfl

theorem steady_reuse (name : String) : Within Steady (reuse name : LoadM (Loading σ) _) := by
  refine steady_of_move (move_reuse name) fun loading => ?_
  rw [reuse_apply]
  split
  · rfl
  · refine roster_update (fun _ => rfl) ?_
    split <;> rfl

theorem roster_placeSegment (handle : Handle) (image : Image) (relocatable : Bool)
    (header : ProgramHeader) :
    Within (Same roster) (placeSegment handle image relocatable header : LoadM (Loading σ) Bytes) := by
  have hclient {α : Type} (step : LoadM σ α) :
      Within (Same roster) (onClient step : LoadM (Loading σ) α) := fun _ => rfl
  unfold placeSegment
  refine Within.bind (hclient _) fun allocation => ?_
  split
  · exact Within.bind (hclient _) fun _ => Within.throw
  · exact Within.bind (fun _ => roster_update (fun _ => rfl) rfl) fun _ => hclient _

theorem steady_placeSegments (handle : Handle) (image : Image) (file : ObjectFile) :
    Within Steady (placeSegments handle image file : LoadM (Loading σ) (List Bytes)) :=
  Within.bind (Within.of_unchanged (resident_unchanged handle)) fun _ => Within.mapM fun _ hheader =>
    steady_of_move (move_placeSegment handle image _ (memorySize_ne_zero hheader))
      (roster_placeSegment _ _ _ _)

theorem steady_draftModule (handle : Handle) (name : String) (file : ObjectFile)
    (staged : List Bytes) :
    Within Steady (draftModule handle name file staged : LoadM (Loading σ) _) := by
  refine steady_of_move (move_draftModule handle name file staged) ?_
  unfold draftModule
  refine Within.bind (Within.of_unchanged (resident_unchanged handle)) fun m => ?_
  refine Within.bind (fun _ => roster_update (fun _ => rfl) rfl) fun _ => ?_
  generalize Draft.ofPlaced handle name file m.segments staged = draft
  cases draft.claim? with
  | none => exact Within.pure
  | some claim =>
    refine Within.get_bind fun loading => ?_
    rw [LoadM.bind_apply, LoadM.ofExcept_apply]
    cases loading.loader.dsbt.register claim <;> rfl

theorem steady_modifySession {change : Session → Session}
    (h : ∀ session, (change session).machine = session.machine) :
    Within Steady (modifySession change : LoadM (Loading σ) Unit) := by
  refine fun loading => ⟨walked_modifySession change loading, ?_⟩
  change (_, _, (change loading.session).machine) = _
  rw [h]
  rfl

/-! ## A module and what it needs -/

variable {root image : Image} {start : Loading σ}

theorem Turn.served {before after : Loading σ} (h : Turn root before after) :
    ReflTransGen Served before.loader.client after.loader.client := by
  cases h with
  | steady h => exact h.served
  | commit => exact .refl
  | arrive => exact .refl

theorem Source.mono {before after : σ} (h : Source root before image)
    (hserved : ReflTransGen Served before after) : Source root after image :=
  h.imp_right fun ⟨name, opening, himage, hopened⟩ => ⟨name, opening, himage, hopened.trans hserved⟩

/-- Steps that no roster shows are turns. -/
theorem turns_of_steady {α : Type} {step : LoadM (Loading σ) α} (h : Within Steady step) :
    Triple (ReflTransGen (Turn root) start) step (fun _ => ReflTransGen (Turn root) start)
      (ReflTransGen (Turn root) start) :=
  h.triple (fun _ _ hturns hsteady => hturns.tail (.steady hsteady)) fun _ hturns => hturns

/-- What is known of a file when it is to be placed: the load has come by it, and if a name was asked
for, no module has it. -/
structure Brought (root : Image) (start : Loading σ) (image : Image) (requested : Option String)
    (loading : Loading σ) : Prop where
  turns : ReflTransGen (Turn root) start loading
  source : Source root loading.loader.client image
  requested : ∀ name, requested = some name → Unused root loading name

/-- No module has a name that was looked for in vain. -/
theorem reuse_steady (loading : Loading σ) (name : String) {E : Loading σ → Prop} :
    Triple (· = loading) (reuse name)
      (fun found after => Steady loading after ∧ (found = none →
        after = loading ∧ name ∉ loading.loader.modules.map (·.name))) E := by
  intro s hs
  obtain rfl : s = loading := hs
  have hsteady := steady_reuse name s
  rw [reuse_apply] at hsteady ⊢
  cases hfind : s.loader.modules.find? (·.name == name) with
  | none =>
    refine ⟨Std.Refl.refl s, fun _ => ⟨rfl, fun hmem => ?_⟩⟩
    obtain ⟨m, hm, hname⟩ := List.mem_map.mp hmem
    exact List.find?_eq_none.mp hfind m hm (by simpa using hname)
  | some m =>
    rw [hfind] at hsteady
    exact ⟨hsteady, fun hnone => nomatch hnone⟩

/-- What is known of a file that is not resident: the machine goes with that of the load, and no module
has a name that it may get. -/
structure Admissible (root : Image) (start : Loading σ) (file : ObjectFile)
    (requested : Option String) (loading : Loading σ) : Prop where
  turns : ReflTransGen (Turn root) start loading
  lock : loading.lock = some file.machine
  requested : ∀ name, requested = some name → Unused root loading name
  own : ∀ name, file.ownName? = some name → Unused root loading name

/-- A file is found under its own name, or no module has that name. -/
theorem reuseOwn_admissible {file : ObjectFile} {requested : Option String}
    (hread : ObjectFile.read image = .ok file) :
    Triple (fun loading => Brought root start image requested loading ∧
        loading.lock = some file.machine)
      (reuseOwn file)
      (fun found after => ReflTransGen (Turn root) start after ∧
        (found = none → Admissible root start file requested after))
      (ReflTransGen (Turn root) start) := by
  unfold reuseOwn
  cases hown : file.ownName? with
  | none =>
    refine Triple.pure fun loading ⟨h, hlock⟩ => ⟨h.turns, fun _ => ?_⟩
    exact ⟨h.turns, hlock, h.requested, fun name hname => by simp [hown] at hname⟩
  | some own =>
    refine Triple.get_bind fun loading ⟨h, hlock⟩ => ?_
    refine Triple.throw_if (fun _ _ heq => heq ▸ h.turns) fun _ => ?_
    refine (reuse_steady loading own).weaken (fun found after ⟨hsteady, hnone⟩ => ?_) fun _ hs => hs
    refine ⟨h.turns.tail (.steady hsteady), fun hfound => ?_⟩
    obtain ⟨rfl, hfree⟩ := hnone hfound
    refine ⟨h.turns, hlock, h.requested, fun name hname => ⟨?_, image, h.source, ?_⟩⟩
    · rwa [← Option.some.inj (hown.symm.trans hname)]
    · rw [ObjectFile.names, hread]
      exact List.mem_append_left _ (Option.mem_toList.mpr (Option.filter_eq_some_iff.mp hname).1)

theorem addModule_turns {file : ObjectFile} {requested : Option String} :
    Triple (Admissible root start file requested) (addModule file requested)
      (fun _ => ReflTransGen (Turn root) start) (ReflTransGen (Turn root) start) := by
  intro loading h
  simp only [addModule, LoadM.bind_apply, newHandle_apply]
  by_cases hlast : loading.loader.nextHandle = Loader.lastHandle
  · simpa only [if_pos hlast] using h.turns
  · simp only [if_neg hlast]
    refine h.turns.tail (.arrive (m := {
      name := file.ownName?.getD (requested.getD (Loader.defaultName loading.loader.nextHandle))
      handle := loading.loader.nextHandle
      policy := (LookupPolicy.ofOsAbi? file.header.osAbi).getD loading.loader.policy
      machine := file.machine
      order := file.order
      isExecutable := file.isExecutable }) rfl hlast h.lock ?_)
    dsimp only
    cases hown : file.ownName? with
    | some own => exact Or.inr (h.own own hown)
    | none =>
      cases hrequested : requested with
      | some name => exact Or.inr (h.requested name hrequested)
      | none => exact Or.inl rfl

omit [Client σ] in
/-- A load that commits itself to a machine that goes with its own one works for that machine. -/
theorem lock_commit {loading : Loading σ} {machine : Machine}
    (h : Loader.checkMachine loading.lock machine = .ok ()) :
    lock { loading with session := { loading.session with machine := some machine } } =
      some machine := by
  cases hlock : loading.loader.machine with
  | none => simp [lock, hlock]
  | some locked =>
    have hsame : locked = machine := Loader.checkMachine_eq_ok h locked (by simp [lock, hlock])
    simp [lock, hlock, hsame]

/-- Reading and placing the module of a file. -/
theorem enter_turns (requested : Option String) :
    Triple (Brought root start image requested) (enter image requested : LoadM (Loading σ) _)
      (fun entered after => ReflTransGen (Turn root) start after ∧
        ∀ handle file draft, entered = .inr (handle, file, draft) → ObjectFile.read image = .ok file)
      (ReflTransGen (Turn root) start) := by
  refine Triple.bind (R := fun file s => ObjectFile.read image = .ok file ∧
      Brought root start image requested s)
    (Triple.ofExcept (fun _ _ hread h => ⟨hread, h⟩) fun _ h => h.turns) fun file => ?_
  refine Triple.get_bind fun loading ⟨hread, h⟩ => ?_
  refine Triple.bind (R := fun _ s => Loader.checkMachine loading.lock file.machine = .ok () ∧
      s = loading)
    (Triple.ofExcept (fun _ _ hcheck hs => ⟨hcheck, hs⟩) fun _ hs => hs ▸ h.turns) fun _ => ?_
  refine Triple.bind (R := fun _ s => Brought root start image requested s ∧
    s.lock = some file.machine) ?_ fun _ => ?_
  · rintro s ⟨hcheck, rfl⟩
    exact ⟨⟨h.turns.tail (.commit hcheck), h.source, h.requested⟩, lock_commit hcheck⟩
  refine (reuseOwn_admissible hread).bind fun found => ?_
  cases found with
  | some handle => exact Triple.pure fun s hs => ⟨hs.1, fun _ _ _ heq => nomatch heq⟩
  | none =>
    refine (addModule_turns.strengthen fun s hs => hs.2 rfl).bind fun ⟨handle, name⟩ => ?_
    refine (turns_of_steady (steady_placeSegments handle image file)).bind fun staged => ?_
    refine (turns_of_steady (steady_draftModule handle name file staged)).bind fun draft => ?_
    have hprogress : Within Steady (modifySession fun s => { s with
        inProgress := s.inProgress ++ [name] } : LoadM (Loading σ) Unit) :=
      steady_modifySession fun _ => rfl
    refine (turns_of_steady hprogress).bind fun _ => Triple.pure fun s hs => ⟨hs, ?_⟩
    rintro _ _ _ ⟨⟩
    exact hread

/-- Loads that place what they are brought turn by turn. -/
abbrev Turning (root : Image) (start : Loading σ) (load : String → Image → LoadM (Loading σ) Handle) :
    Prop :=
  ∀ name image, Triple (Brought root start image (some name)) (load name image)
    (fun _ => ReflTransGen (Turn root) start) (ReflTransGen (Turn root) start)

theorem need_turns {load : String → Image → LoadM (Loading σ) Handle}
    (hload : Turning root start load) {name : String} (hname : name ∈ ObjectFile.names image)
    (handle : Handle) :
    Triple (fun loading => ReflTransGen (Turn root) start loading ∧
        Source root loading.loader.client image)
      (need handle load name) (fun _ => ReflTransGen (Turn root) start)
      (ReflTransGen (Turn root) start) := by
  refine Triple.bind (R := fun _ => ReflTransGen (Turn root) start) ?_ fun found =>
    turns_of_steady (within_addDependency fun _ =>
      ⟨walked_update fun _ => rfl, roster_update (fun _ => rfl) rfl⟩)
  refine Triple.get_bind fun loading ⟨hturns, hsource⟩ => ?_
  refine Triple.throw_if (fun _ _ heq => heq ▸ hturns) fun _ => ?_
  refine (reuse_steady loading name).bind fun found => ?_
  cases found with
  | some found => exact Triple.pure fun s hs => hturns.tail (.steady hs.1)
  | none =>
    refine Triple.bind (R := fun answer s => ReflTransGen (Turn root) start s ∧
        ∀ opened, answer = some opened → Brought root start opened (some name) s) ?_ fun answer => ?_
    · rintro s ⟨-, hnone⟩
      obtain ⟨rfl, hfree⟩ := hnone rfl
      have hopening := Served.openDependent s.loader.client name
      have hopened := hturns.tail (.steady ⟨(move_client hopening).toWalked, rfl⟩)
      refine ⟨hopened, fun opened heq => ⟨hopened, Or.inr ⟨name, s.loader.client, heq, .refl⟩, ?_⟩⟩
      rintro _ ⟨⟩
      exact ⟨hfree, image, hsource.mono (.single hopening), hname⟩
    · cases answer with
      | none => exact Triple.throw fun s hs => hs.1
      | some opened => exact (hload name opened).strengthen fun s hs => hs.2 opened rfl

theorem loadModule_turns (depth : Nat) (image : Image) (requested : Option String) :
    Triple (Brought root start image requested) (loadModule depth image requested)
      (fun _ => ReflTransGen (Turn root) start) (ReflTransGen (Turn root) start) := by
  induction depth generalizing image requested with
  | zero => exact Triple.throw fun _ h => h.turns
  | succ depth ih =>
    rw [loadModule_succ]
    have hsource (before after : Loading σ) (hwalked : Walked before after) :
        Source root before.loader.client image → Source root after.loader.client image :=
      fun h => h.mono hwalked.served
    have henter := (walked_enter image requested).keep
      (enter_turns requested : Triple (Brought root start image requested) _ _ _) hsource
    refine (henter.strengthen fun s h => ⟨h, h.source⟩).bind fun entered => ?_
    rcases entered with handle | ⟨handle, file, draft⟩
    · exact Triple.pure fun s hs => hs.1.1
    · rintro s ⟨⟨hturns, hread⟩, hs⟩
      have hneeded : ∀ name ∈ file.needed, name ∈ ObjectFile.names image := by
        intro name hname
        rw [ObjectFile.names, hread handle file draft rfl]
        exact List.mem_append_right _ hname
      have hneeds : Triple (fun s => ReflTransGen (Turn root) start s ∧
          Source root s.loader.client image)
          (file.needed.forM (need handle fun name image => loadModule depth image (some name)))
          (fun _ s => ReflTransGen (Turn root) start s ∧ Source root s.loader.client image)
          (ReflTransGen (Turn root) start) := by
        refine Triple.forM fun name hname => ?_
        have hkept := (walked_need (fun name image => walked_loadModule depth image (some name))
          handle name).keep (need_turns (fun name image => ih image (some name))
            (hneeded name hname) handle) hsource
        exact hkept.strengthen fun s h => ⟨h, h.2⟩
      refine (hneeds.bind fun _ => ?_) s ⟨hturns, hs⟩
      have hclose : Within Steady (close draft : LoadM (Loading σ) Unit) :=
        steady_modifySession fun _ => rfl
      exact ((turns_of_steady hclose).strengthen fun s h => h.1).bind fun _ =>
        Triple.pure fun _ h => h

/-! ## A whole load -/

/-- A graph is placed turn by turn, as far as it can be placed. -/
theorem place_turns (loader : Loader σ) (image : Image) :
    ReflTransGen (Turn image) { loader } (place image { loader }).2 := by
  refine Within.of_triple (R := ReflTransGen (Turn image)) ?_
  refine Triple.get_bind fun begun hbegun => ?_
  refine Triple.bind (R := fun _ => ReflTransGen (Turn image) { loader }) ?_ fun root => ?_
  · refine (loadModule_turns _ image none).strengthen fun s hs => ?_
    rw [show s = begun from hs, hbegun]
    exact ⟨.refl, Or.inl rfl, fun _ hname => nomatch hname⟩
  · refine Triple.get_bind fun loading h => ?_
    split
    · exact Triple.pure fun s hs => hs ▸ h
    · refine ((turns_of_steady steady_newHandle).strengthen fun s hs => hs ▸ h).bind fun handle => ?_
      exact Triple.pure fun _ h => h

/-- The modules, the handles that are left, and what the machine of the load is kept in. -/
def standing (loading : Loading σ) : List Module × Handle × Option Machine × Option Machine :=
  (loading.loader.modules, loading.loader.nextHandle, loading.loader.machine, loading.session.machine)

variable {ledger : Ledger σ}

/-- Nothing moved that the modules show, and no memory was handed out or given back. -/
def Stands (ledger : Ledger σ) (before after : Loading σ) : Prop :=
  standing after = standing before ∧ ledger.Quiet before.loader.client after.loader.client

instance : IsPreorder (Loading σ) (Stands ledger) where
  refl loading := ⟨rfl, Std.Refl.refl loading.loader.client⟩
  trans _ _ _ hfirst hsecond :=
    ⟨hsecond.1.trans hfirst.1, IsTrans.trans _ _ _ hfirst.2 hsecond.2⟩

theorem stands_of_stirs {α : Type} {step : LoadM (Loading σ) α}
    (h : Within (Stirs ledger) step) : Within (Stands ledger) step := by
  intro loading
  obtain ⟨client, pending, hquiet, -, heq⟩ := h loading
  rw [heq]
  exact ⟨rfl, hquiet⟩

theorem stands_prepare (root : Handle) :
    Within (Stands ledger) (prepare root : LoadM (Loading σ) Unit) := by
  refine Within.bind (fun loading => ⟨rfl, Std.Refl.refl loading.loader.client⟩) fun _ => ?_
  refine Within.bind (stands_of_stirs stirs_writeTables) fun _ => ?_
  refine Within.bind (stands_of_stirs stirs_stageDynamics) fun _ => ?_
  exact fun loading => ⟨rfl, Std.Refl.refl loading.loader.client⟩

/-- A load places its graph turn by turn, and what it does then shows in no module. -/
theorem loadGraph_turns (loader : Loader σ) (image : Image) (arguments : List String) :
    ∃ placed, ReflTransGen (Turn image) { loader } placed ∧
      ∀ ledger : Ledger σ, Stands ledger placed (loadGraph image arguments { loader }).2 := by
  refine ⟨_, place_turns loader image, fun ledger => ?_⟩
  have hrest : ∀ placed : Handle × Handle, Within (Stands ledger) (do
      prepare placed.1
      complete placed.1 arguments (← get).session.pending
      modify (handOut placed.1 placed.2)
      return placed.2 : LoadM (Loading σ) Handle) := by
    intro placed
    refine Within.bind (stands_prepare placed.1) fun _ => Within.bind Within.get fun loading => ?_
    refine Within.bind (stands_of_stirs (stirs_complete arguments _)) fun _ => ?_
    exact Within.bind (fun loading => ⟨rfl, Std.Refl.refl loading.loader.client⟩) fun _ => Within.pure
  simp only [loadGraph_eq, ready, bind_assoc, pure_bind]
  rw [LoadM.bind_apply]
  rcases place image { loader } with ⟨e | placed, loading⟩
  · exact Std.Refl.refl loading
  · exact hrest placed loading

/-! ## What every turn keeps -/

omit [Client σ] in
theorem exists_stamp {before after : Loading σ} (h : after.roster = before.roster) {m : Module}
    (hm : m ∈ after.loader.modules) : ∃ n ∈ before.loader.modules, n.stamp = m.stamp := by
  have hstamps : after.loader.modules.map Module.stamp = before.loader.modules.map Module.stamp :=
    congrArg Prod.fst h
  exact List.mem_map.mp (hstamps ▸ List.mem_map_of_mem hm)

omit [Client σ] in
theorem lock_eq_of_roster {before after : Loading σ} (h : after.roster = before.roster) :
    after.lock = before.lock := by
  have hmachines : (after.loader.machine, after.session.machine) =
      (before.loader.machine, before.session.machine) := congrArg Prod.snd h
  obtain ⟨hloader, hsession⟩ := Prod.mk.inj hmachines
  rw [lock, lock, hloader, hsession]

/-- Every module is there under a handle that was taken. -/
theorem Turn.below {before after : Loading σ} (h : Turn root before after)
    (hbefore : ∀ m ∈ before.loader.modules, m.handle < before.loader.nextHandle) :
    ∀ m ∈ after.loader.modules, m.handle < after.loader.nextHandle := by
  cases h with
  | steady h =>
    intro m hm
    obtain ⟨n, hn, hstamp⟩ := exists_stamp h.roster hm
    have hhandle : n.handle = m.handle := congrArg (·.1.1) hstamp
    exact hhandle ▸ UInt32.lt_of_lt_of_le (hbefore n hn) h.nextHandle
  | commit => exact hbefore
  | arrive hhandle hlast =>
    intro m hm
    rcases List.mem_append.mp hm with hold | hnew
    · exact UInt32.lt_trans (hbefore m hold) (Loader.lt_add_one hlast)
    · obtain rfl := List.mem_singleton.mp hnew
      rw [hhandle]
      exact Loader.lt_add_one hlast

/-- All modules are for the machine that the load is committed to. -/
def Uniform (loading : Loading σ) : Prop :=
  ∀ m ∈ loading.loader.modules, loading.lock = some m.machine

theorem Turn.lock_eq_some {before after : Loading σ} {machine : Machine} (h : Turn root before after)
    (hlock : before.lock = some machine) : after.lock = some machine := by
  cases h with
  | steady h => exact (lock_eq_of_roster h.roster).trans hlock
  | commit h => rw [lock_commit h, Loader.checkMachine_eq_ok h machine hlock]
  | arrive => exact hlock

theorem Turn.uniform {before after : Loading σ} (h : Turn root before after)
    (hbefore : before.Uniform) : after.Uniform := by
  intro m hm
  cases id h with
  | steady hsteady =>
    obtain ⟨n, hn, hstamp⟩ := exists_stamp hsteady.roster hm
    have hmachine : n.machine = m.machine := congrArg Prod.snd hstamp
    exact hmachine ▸ h.lock_eq_some (hbefore n hn)
  | commit => exact h.lock_eq_some (hbefore m hm)
  | arrive _ _ hlock =>
    rcases List.mem_append.mp hm with hold | hnew
    · exact hbefore m hold
    · obtain rfl := List.mem_singleton.mp hnew
      exact hlock

omit [Client σ] in
theorem lock_begin (loader : Loader σ) : lock { loader } = loader.machine := by
  cases hmachine : loader.machine <;> simp [lock, hmachine]

omit [Client σ] in
theorem lock_eq_of_standing {before after : Loading σ} (h : standing after = standing before) :
    after.lock = before.lock := by
  have hloader : after.loader.machine = before.loader.machine := congrArg (·.2.2.1) h
  have hsession : after.session.machine = before.session.machine := congrArg (·.2.2.2) h
  rw [lock, lock, hloader, hsession]

omit [Client σ] in
theorem Uniform.congr {before after : Loading σ} (h : standing after = standing before)
    (hbefore : before.Uniform) : after.Uniform := by
  have hmodules : after.loader.modules = before.loader.modules := congrArg (·.1) h
  intro m hm
  rw [lock_eq_of_standing h]
  exact hbefore m (hmodules ▸ hm)

/-- What every turn keeps holds of what turns lead to. -/
theorem keeps_of_turns {P : Loading σ → Prop} {before after : Loading σ}
    (h : ReflTransGen (Turn root) before after)
    (hturn : ∀ {s t : Loading σ}, Turn root s t → P s → P t) (hbefore : P before) : P after := by
  induction h with
  | refl => exact hbefore
  | tail _ hlast ih => exact hturn hlast ih

/-- If the modules show it besides, it holds of a whole load. -/
theorem loadGraph_keeps {P : Loading σ → Prop} {loader : Loader σ} (image : Image)
    (arguments : List String) (hturn : ∀ {s t : Loading σ}, Turn image s t → P s → P t)
    (hshown : ∀ {s t : Loading σ}, standing t = standing s → P s → P t) (hstart : P { loader }) :
    P (loadGraph image arguments { loader }).2 := by
  obtain ⟨placed, hturns, hstands⟩ := loadGraph_turns loader image arguments
  exact hshown (hstands Ledger.blank).1 (keeps_of_turns hturns hturn hstart)

end Loading

/-- A load that succeeds leaves its loader as the load has it, and commits it to the machine of the
load. -/
theorem Loader.eq_of_load_ok {σ : Type} [Client σ] {loader after : Loader σ} {image : Image}
    {arguments : List String} {handle : Handle}
    (hload : loader.load image arguments = (.ok handle, after)) :
    after = let loaded := (Loading.loadGraph image arguments { loader }).2
      { loaded.loader with machine := loaded.lock } := by
  unfold load at hload
  rcases hrun : Loading.loadGraph image arguments { loader } with ⟨e | new, loading⟩
  · rw [hrun] at hload
    cases hload
  · rw [hrun] at hload
    exact (congrArg Prod.snd hload).symm

end TargetLink
