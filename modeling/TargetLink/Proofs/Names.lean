import TargetLink.Proofs.Persistence
import TargetLink.Proofs.Turns

/-!
# The names of resident modules

A module is called as its file says, or else as it was asked for, or else by a name that the loader
makes from its handle.  A name of the first two kinds was looked for in vain just before the module
arrives (`Loading.Unused`), and the made names differ as handles do.  So all names are different as long
as no file knows a name that the loader may make (`Loader.named_run`).

Nothing of this holds of modules of which only the symbols are registered: those are not looked for.
-/

namespace TargetLink

open TargetLink.Module (handlesOf)
open LoadM (Within)
open Relation (ReflTransGen)

theorem Loader.defaultName_injective : Function.Injective Loader.defaultName := by
  intro handle other h
  have hdigits : "<module " ++ Nat.repr handle.toNat ++ ">" =
      "<module " ++ Nat.repr other.toNat ++ ">" := h
  rw [String.append_left_inj, String.append_right_inj, Nat.repr_eq_ofList_toDigits,
    Nat.repr_eq_ofList_toDigits, String.ofList_inj] at hdigits
  have hvalue := congrArg (Nat.ofDigitChars 10 · 0) hdigits
  simp only [Nat.ofDigitChars_ten_toDigits] at hvalue
  exact UInt32.toNat_inj.mp hvalue

/-- Names that the loader makes begin with a bracket. -/
theorem Loader.ne_defaultName {name : String} (h : name.toList.head? ≠ some '<') (handle : Handle) :
    name ≠ Loader.defaultName handle := by
  rintro rfl
  refine h ?_
  change (("<module " ++ toString handle.toNat) ++ ">").toList.head? = _
  simp

/-- The file knows no name that a loader makes. -/
def ObjectFile.Plain (image : Image) : Prop :=
  ∀ name ∈ ObjectFile.names image, ∀ handle, name ≠ Loader.defaultName handle

theorem ObjectFile.plain_of_head? {image : Image}
    (h : ∀ name ∈ ObjectFile.names image, name.toList.head? ≠ some '<') : ObjectFile.Plain image :=
  fun name hname => Loader.ne_defaultName (h name hname)

namespace Loader

variable {σ : Type}

/-- All modules have different names, and a name that the loader makes is made from the own handle of
its module. -/
structure Named (loader : Loader σ) : Prop where
  distinct : (loader.modules.map (·.name)).Nodup
  made : ∀ m ∈ loader.modules, ∀ handle, m.name = defaultName handle → handle = m.handle

theorem Named.mono {before after : Loader σ} (h : before.Named)
    (hlabels : (after.modules.map Module.label).Sublist (before.modules.map Module.label)) :
    after.Named where
  distinct := by
    have hnames := hlabels.map Prod.snd
    rw [List.map_map, List.map_map] at hnames
    exact h.distinct.sublist hnames
  made m hm handle hname := by
    obtain ⟨n, hn, hlabel⟩ :=
      List.mem_map.mp (hlabels.subset (List.mem_map_of_mem (f := Module.label) hm))
    obtain ⟨hhandle, hsame⟩ := Prod.mk.inj hlabel
    exact (h.made n hn handle (hsame.trans hname)).trans hhandle

theorem Named.congr {before after : Loader σ} (h : before.Named)
    (hlabels : after.modules.map Module.label = before.modules.map Module.label) : after.Named :=
  h.mono (hlabels ▸ List.Sublist.refl _)

/-- A module with a name that is not in use may arrive under a new handle. -/
theorem Named.addModule {loader : Loader σ} (h : loader.Named) {m : Module}
    (hfree : m.name ∉ loader.modules.map (·.name))
    (hmade : ∀ handle, m.name = defaultName handle → handle = m.handle) :
    { loader with modules := loader.modules ++ [m] }.Named where
  distinct := by
    have hnames : (loader.modules ++ [m]).map (·.name) = loader.modules.map (·.name) ++ [m.name] :=
      List.map_append
    rw [hnames, List.nodup_append']
    exact ⟨h.distinct, List.nodup_singleton _, by simpa using hfree⟩
  made n hn := by
    rcases List.mem_append.mp hn with hold | hnew
    · exact h.made n hold
    · exact List.mem_singleton.mp hnew ▸ hmade

end Loader

/-! ## While a graph is placed -/

/-- All files that were opened for dependencies are plain. -/
def Recorded.Plain {σ : Type} (recorded : Recorded σ) : Prop :=
  ∀ name image, .openDependent name (some image) ∈ recorded.events → ObjectFile.Plain image

theorem Recorded.Plain.of_prefix {σ : Type} {before after : Recorded σ} (h : after.Plain)
    (hbegins : before.events <+: after.events) : before.Plain :=
  fun name image hmem => h name image (hbegins.subset hmem)

namespace Loading

variable {σ : Type} [Client σ] {root : Image}

theorem events_of_served {before after : Recorded σ} (h : ReflTransGen Served before after) :
    before.events <+: after.events := by
  induction h with
  | refl => exact List.prefix_rfl
  | tail _ hlast ih =>
    obtain ⟨calls, hcalls, -⟩ := makes_served hlast
    exact ih.trans ⟨calls, hcalls.symm⟩

/-- What a load reads is its own file or on record. -/
theorem Source.plain {recorded : Recorded σ} {image : Image} (h : Source root recorded image)
    (hroot : ObjectFile.Plain root) (hrecorded : recorded.Plain) : ObjectFile.Plain image := by
  rcases h with rfl | ⟨name, opening, himage, hserved⟩
  · exact hroot
  · refine hrecorded name image ((events_of_served hserved).subset ?_)
    rw [← himage]
    exact List.mem_append_right _ List.mem_cons_self

/-- Below the counter all modules have different names, if what was opened so far is plain. -/
def Distinguished (loading : Loading (Recorded σ)) : Prop :=
  loading.loader.client.Plain →
    loading.loader.Named ∧ ∀ m ∈ loading.loader.modules, m.handle < loading.loader.nextHandle

theorem Turn.distinguished {before after : Loading (Recorded σ)} (hroot : ObjectFile.Plain root)
    (h : Turn root before after) (hbefore : before.Distinguished) : after.Distinguished := by
  intro hplain
  obtain ⟨hnamed, hbelow⟩ := hbefore (hplain.of_prefix (events_of_served h.served))
  refine ⟨?_, h.below hbelow⟩
  cases h with
  | steady h =>
    have hstamps := congrArg (List.map Prod.fst) (congrArg Prod.fst h.roster)
    simp only [roster, List.map_map] at hstamps
    exact hnamed.congr hstamps
  | commit => exact hnamed
  | @arrive m hhandle hlast hlock hname =>
    refine (hnamed.addModule ?_ ?_).congr rfl
    · rcases hname with hmade | ⟨hfree, -⟩
      · -- An older module with this name would have it from its own handle.
        intro hmem
        obtain ⟨n, hn, hsame⟩ := List.mem_map.mp hmem
        have hown := hnamed.made n hn m.handle (hsame.trans hmade)
        exact UInt32.lt_irrefl _ (hhandle ▸ hown ▸ hbelow n hn)
      · exact hfree
    · rcases hname with hmade | ⟨-, source, hsource, hknown⟩
      · exact fun handle heq => Loader.defaultName_injective (heq.symm.trans hmade)
      · exact fun handle heq => absurd heq (hsource.plain hroot hplain m.name hknown handle)

end Loading

/-! ## Runs -/

/-- The request loads nothing but plain files, and none for their symbols only. -/
def Request.Plain {σ : Type} : Request σ → Prop
  | .load image _ => ObjectFile.Plain image
  | .loadSymbolsOnly _ => False
  | .unload _ | .client _ => True

namespace Loader

variable {σ : Type} [Client σ] {loader : Loader (Recorded σ)} {ledger : Ledger (Recorded σ)}

/-- Records only grow. -/
theorem events_run (hsound : loader.Sound ledger) (requests : List (Request σ)) :
    loader.client.events <+: (loader.run (requests.map .recorded)).client.events := by
  have hbegin : loader.Sound (Recorded.since loader.client.events) :=
    { hsound with holds := List.prefix_rfl }
  exact (run_sound hbegin (fair_recorded (fun _ h => h) requests)).holds

theorem named_load (hsound : loader.Sound ledger) (hnamed : loader.Named) {image : Image}
    {arguments : List String} {handle : Handle} {after : Loader (Recorded σ)}
    (hload : loader.load image arguments = (.ok handle, after)) (himage : ObjectFile.Plain image)
    (hplain : after.client.Plain) : after.Named := by
  obtain ⟨placed, hturns, hstands⟩ := Loading.loadGraph_turns loader image arguments
  obtain rfl := eq_of_load_ok hload
  have hplaced : placed.Distinguished :=
    Loading.keeps_of_turns hturns (Loading.Turn.distinguished himage) fun _ =>
      ⟨hnamed, hsound.accounted.below⟩
  have hkept := hplain.of_prefix
    ((hstands (Recorded.since placed.loader.client.events)).2 0 List.prefix_rfl)
  have hsame := congrArg (·.1) (hstands Ledger.blank).1
  exact (hplaced hkept).1.congr (congrArg (List.map Module.label) hsame)

/-- A request for plain files keeps all names different. -/
theorem named_serve (hsound : loader.Sound ledger) (hnamed : loader.Named) {request : Request σ}
    (hrequest : request.Plain) (hplain : (loader.serve request.recorded).client.Plain) :
    (loader.serve request.recorded).Named := by
  have houtcome := serve_outcome hsound request.recorded
  generalize loader.serve request.recorded = after at *
  cases request with
  | load image arguments =>
    cases houtcome with
    | loaded hload => exact named_load hsound hnamed hload hrequest hplain
    | failed hrestored => exact hnamed.congr (by rw [hrestored.modules])
    | refused => exact hnamed
  | loadSymbolsOnly image => exact hrequest.elim
  | unload handle =>
    cases houtcome with
    | unloaded hleaves =>
      refine hnamed.mono ?_
      have hlabels := congrArg (List.map Module.label) hleaves.modules
      rw [List.map_map] at hlabels
      exact hlabels ▸ (List.filter_sublist.map Module.label).trans (by rw [List.map_map]; rfl)
    | refused => exact hnamed
  | client change =>
    cases houtcome with
    | refused => exact hnamed
    | changed => exact hnamed.congr rfl

theorem named_run (hsound : loader.Sound Ledger.blank) (hnamed : loader.Named)
    {requests : List (Request σ)} (hrequests : ∀ request ∈ requests, request.Plain)
    (hplain : (loader.run (requests.map .recorded)).client.Plain) :
    (loader.run (requests.map .recorded)).Named := by
  induction requests generalizing loader with
  | nil => exact hnamed
  | cons request requests ih =>
    obtain ⟨hfirst, hrest⟩ := List.forall_mem_cons.mp hrequests
    have hserved := serve_sound hsound (fair_blank request.recorded)
    exact ih hserved (named_serve hsound hnamed hfirst
      (hplain.of_prefix (events_run hserved requests))) hrest hplain

end Loader

end TargetLink
