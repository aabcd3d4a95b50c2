import TargetLink.Proofs.Runs
import TargetLink.Proofs.SlotRuns
import TargetLink.Proofs.Moves
import TargetLink.Proofs.SimulatedLedger

/-!
# Drafts, modules and claims

Placing decides the handle, the byte order, the segments and the static base of a module
(`Module.Placement`), and no later step changes them.  The draft of a module agrees with its placement
(`Draft.Portrays`), and a claim on the table of static bases carries the static base of the module that
it is for (`Loader.Founded`).  Placing looks up every claim that a draft makes, so once a graph is placed
all its drafts are portraits of their modules (`Loading.place_grounded`).
-/

namespace TargetLink

open TargetLink.Module (handlesOf)
open LoadM (Triple Within bind_apply)

/-- What placing decides about a module. -/
structure Module.Placement where
  handle : Handle
  order : ByteOrder
  segments : List Segment
  staticBase : UInt32

def Module.placement (m : Module) : Placement := ⟨m.handle, m.order, m.segments, m.staticBase⟩

/-- The draft is that of the module that was placed so. -/
structure Draft.Portrays (draft : Draft) (placement : Module.Placement) : Prop where
  handle : draft.handle = placement.handle
  order : draft.file.order = placement.order
  filled : draft.staged.map (·.length) = placement.segments.map (·.memorySize.toNat)
  dynamic : draft.dynamic.length = draft.file.dynamic.length
  unbound : draft.dsbtIndex = none
  indexEntry : ∀ info, draft.dsbt = some info →
    info.indexEntry = draft.file.dynamic.findIdx? (·.tag == DynamicTag.dsbtIndex)
  placed : ∃ name staged,
    draft = Draft.ofPlaced placement.handle name draft.file placement.segments staged

namespace ObjectFile

/-- Reading the dynamic table fills in the tables that it points to. -/
theorem exists_of_readDynamic {image : Image} {file done : ObjectFile} {dynamic : List DynamicEntry}
    (h : readDynamic image file dynamic = .ok done) :
    ∃ strings symbols names plt? rel rela plt, checkDynamic file.header.type dynamic = .ok () ∧
      readTable image file.programHeaders (DynamicEntry.findD dynamic DynamicTag.stringTable)
        (DynamicEntry.findD dynamic DynamicTag.stringSize) = .ok strings ∧
      readSymbols image file.programHeaders file.order dynamic strings = .ok symbols ∧
      dynamic.foldlM (Names.extend strings) {} = .ok names ∧
      ¬(names.soname.isNone ∧ file.header.type = sharedObjectType) ∧
      pltTable? file.machine dynamic = .ok plt? ∧
      readTagged image file.programHeaders file.order dynamic DynamicTag.rel DynamicTag.relSize false
        plt? = .ok rel ∧
      readTagged image file.programHeaders file.order dynamic DynamicTag.rela DynamicTag.relaSize true
        plt? = .ok rela ∧
      (match plt? with
        | some t => readRelocations image file.programHeaders file.order t.address t.size t.withAddend none
        | none => .ok []) = .ok plt ∧
      done = { file with
        dynamic, symbols, rel, rela, plt
        firstGlobal := globalStart file.machine dynamic symbols
        needed := Names.needed names
        soname := Names.soname names
        dsbt := dsbtInfo? file.machine dynamic } := by
  unfold readDynamic at h
  obtain ⟨⟨⟩, hcheck, h⟩ := exists_of_bind_eq_ok h
  obtain ⟨strings, hstrings, h⟩ := exists_of_bind_eq_ok h
  obtain ⟨symbols, hsymbols, h⟩ := exists_of_bind_eq_ok h
  obtain ⟨names, hnames, h⟩ := exists_of_bind_eq_ok h
  dsimp only at h
  split at h
  · cases h
  · rename_i hnamed
    obtain ⟨plt?, hplt?, h⟩ := exists_of_bind_eq_ok h
    obtain ⟨rel, hrel, h⟩ := exists_of_bind_eq_ok h
    obtain ⟨rela, hrela, h⟩ := exists_of_bind_eq_ok h
    cases plt? with
    | some table =>
      obtain ⟨plt, hplt, h⟩ := exists_of_bind_eq_ok h
      exact ⟨strings, symbols, names, _, rel, rela, plt, hcheck, hstrings, hsymbols, hnames, hnamed, hplt?,
        hrel, hrela, hplt, (Except.ok.inj h).symm⟩
    | none =>
      obtain ⟨plt, hplt, h⟩ := exists_of_bind_eq_ok h
      exact ⟨strings, symbols, names, _, rel, rela, plt, hcheck, hstrings, hsymbols, hnames, hnamed, hplt?,
        hrel, hrela, hplt, (Except.ok.inj h).symm⟩

/-- A file is what its headers say, with its dynamic table if it has one. Its segments are checked either
way. -/
theorem exists_of_read {image : Image} {file : ObjectFile} (h : ObjectFile.read image = .ok file) :
    ∃ header order machine headers, image.header = .ok (header, order, machine) ∧
      image.programHeaders header order = .ok headers ∧ checkSegments image headers = .ok () ∧
      match headers.find? (·.isDynamic) with
      | none => file = { header, order, machine, programHeaders := headers }
      | some table => ∃ bytes dynamic, image.read table.offset.toNat table.fileSize.toNat = .ok bytes ∧
          DynamicEntry.decodeTable bytes order = .ok dynamic ∧ readDynamic image
            { header, order, machine, programHeaders := headers, dynamicAddress := some table.address }
            dynamic = .ok file := by
  obtain ⟨⟨header, order, machine⟩, hheader, h⟩ := exists_of_bind_eq_ok h
  obtain ⟨headers, hheaders, h⟩ := exists_of_bind_eq_ok h
  obtain ⟨⟨⟩, hcheck, h⟩ := exists_of_bind_eq_ok h
  refine ⟨header, order, machine, headers, hheader, hheaders, hcheck, ?_⟩
  dsimp only at h
  cases hfind : headers.find? (·.isDynamic) with
  | none =>
    rw [hfind] at h
    exact (Except.ok.inj h).symm
  | some table =>
    rw [hfind] at h
    obtain ⟨bytes, hbytes, h⟩ := exists_of_bind_eq_ok h
    obtain ⟨dynamic, hdynamic, h⟩ := exists_of_bind_eq_ok h
    exact ⟨bytes, dynamic, hbytes, hdynamic, h⟩

theorem eq_of_read {image : Image} {file : ObjectFile} (h : ObjectFile.read image = .ok file) :
    ∃ header order machine headers, checkSegments image headers = .ok () ∧
      match headers.find? (·.isDynamic) with
      | none => file = { header, order, machine, programHeaders := headers }
      | some table => ∃ dynamic symbols names rel rela plt, file = {
          header, order, machine, dynamic, symbols, rel, rela, plt
          programHeaders := headers
          dynamicAddress := some table.address
          firstGlobal := globalStart machine dynamic symbols
          needed := Names.needed names
          soname := Names.soname names
          dsbt := dsbtInfo? machine dynamic } := by
  obtain ⟨header, order, machine, headers, -, -, hcheck, h⟩ := exists_of_read h
  refine ⟨header, order, machine, headers, hcheck, ?_⟩
  split at h
  · exact h
  · obtain ⟨-, dynamic, -, -, h⟩ := h
    obtain ⟨-, symbols, names, -, rel, rela, plt, -, -, -, -, -, -, -, -, -, h⟩ := exists_of_readDynamic h
    exact ⟨dynamic, symbols, names, rel, rela, plt, h⟩

/-- A file notes where its dynamic table has room for the slot of the module. -/
theorem indexEntry_of_read {image : Image} {file : ObjectFile} (h : ObjectFile.read image = .ok file)
    {info : DsbtInfo} (hinfo : file.dsbt = some info) :
    info.indexEntry = file.dynamic.findIdx? (·.tag == DynamicTag.dsbtIndex) := by
  obtain ⟨header, order, machine, headers, -, h⟩ := eq_of_read h
  split at h
  · subst h
    cases hinfo
  · obtain ⟨dynamic, symbols, names, rel, rela, plt, rfl⟩ := h
    dsimp only [dsbtInfo?] at hinfo
    split at hinfo
    · obtain ⟨base, -, rfl⟩ := Option.map_eq_some_iff.mp hinfo
      rfl
    · cases hinfo

end ObjectFile

/-! ## Founded claims -/

namespace Loader

variable {σ : Type} {loader before middle after : Loader σ}

def placements (loader : Loader σ) : List Module.Placement := loader.modules.map Module.placement

/-- The table is in order, and every claim carries the static base of the module that it is for. -/
structure Founded (loader : Loader σ) : Prop where
  consistent : loader.dsbt.Consistent
  based : ∀ claim ∈ loader.dsbt.claims, ∃ placement ∈ loader.placements,
    placement.handle = claim.handle ∧ placement.staticBase = claim.staticBase

/-- Modules and claims were added, those under handles that were free. -/
structure Extends (before after : Loader σ) : Prop where
  placements : ∀ placement ∈ before.placements, placement ∈ after.placements
  nextHandle : before.nextHandle ≤ after.nextHandle
  claims : ∀ claim ∈ after.dsbt.claims, claim ∈ before.dsbt.claims ∨ before.nextHandle ≤ claim.handle
  registered : ∀ claim ∈ before.dsbt.claims, claim ∈ after.dsbt.claims

protected theorem Extends.refl : Extends loader loader :=
  ⟨fun _ => id, UInt32.le_refl _, fun _ => Or.inl, fun _ => id⟩

protected theorem Extends.trans (hfirst : Extends before middle) (hsecond : Extends middle after) :
    Extends before after where
  placements placement hmem := hsecond.placements placement (hfirst.placements placement hmem)
  nextHandle := UInt32.le_trans hfirst.nextHandle hsecond.nextHandle
  claims claim hclaim := (hsecond.claims claim hclaim).elim (hfirst.claims claim)
    fun hle => Or.inr (UInt32.le_trans hfirst.nextHandle hle)
  registered claim hclaim := hsecond.registered claim (hfirst.registered claim hclaim)

/-- The draft is that of a resident module, and the claim for that module is its own. -/
structure Portrayed (draft : Draft) (loader : Loader σ) : Prop where
  portrays : ∃ placement ∈ loader.placements, draft.Portrays placement
  claimed : ∀ claim ∈ loader.dsbt.claims, claim.handle = draft.handle → draft.claim? = some claim
  registered : ∀ claim, draft.claim? = some claim → claim ∈ loader.dsbt.claims

theorem Portrayed.extends {draft : Draft} (h : Portrayed draft before) (hextends : Extends before after)
    (hbelow : ∀ placement ∈ before.placements, placement.handle < before.nextHandle) :
    Portrayed draft after := by
  obtain ⟨placement, hmem, hportrays⟩ := h.portrays
  refine ⟨⟨placement, hextends.placements placement hmem, hportrays⟩, fun claim hclaim hhandle => ?_,
    fun claim hclaim => hextends.registered claim (h.registered claim hclaim)⟩
  rcases hextends.claims claim hclaim with hold | hfresh
  · exact h.claimed claim hold hhandle
  · rw [hhandle, hportrays.handle] at hfresh
    exact absurd (hbelow placement hmem) (UInt32.not_lt.mpr hfresh)

end Loader

namespace Loading

open Loader (Extends Portrayed)

section Steps

variable {σ : Type} {origin before after : Loading σ}

/-- The claims are founded, handles are taken in order, and the drafts are portraits. -/
structure Grounded (loading : Loading σ) : Prop extends loading.loader.Founded where
  below : ∀ placement ∈ loading.loader.placements, placement.handle < loading.loader.nextHandle
  portrayed : ∀ draft ∈ loading.session.pending, Portrayed draft loading.loader

/-- Nothing changed that drafts and claims speak of. -/
structure Kept (before after : Loading σ) : Prop where
  placements : after.loader.placements = before.loader.placements
  dsbt : after.loader.dsbt = before.loader.dsbt
  pending : after.session.pending = before.session.pending
  nextHandle : before.loader.nextHandle ≤ after.loader.nextHandle

instance : IsPreorder (Loading σ) Kept where
  refl _ := ⟨rfl, rfl, rfl, UInt32.le_refl _⟩
  trans _ _ _ hfirst hsecond :=
    ⟨hsecond.placements.trans hfirst.placements, hsecond.dsbt.trans hfirst.dsbt,
      hsecond.pending.trans hfirst.pending, UInt32.le_trans hfirst.nextHandle hsecond.nextHandle⟩

theorem Kept.extends (h : Kept before after) : Extends before.loader after.loader where
  placements _ hmem := h.placements ▸ hmem
  nextHandle := h.nextHandle
  claims _ hclaim := Or.inl (h.dsbt ▸ hclaim)
  registered _ hclaim := h.dsbt ▸ hclaim

theorem Grounded.kept (h : Grounded before) (hkept : Kept before after) : Grounded after where
  consistent := hkept.dsbt ▸ h.consistent
  based := by
    rw [hkept.dsbt, hkept.placements]
    exact h.based
  below := by
    rw [hkept.placements]
    exact fun placement hmem => UInt32.lt_of_lt_of_le (h.below placement hmem) hkept.nextHandle
  portrayed := by
    rw [hkept.pending]
    exact fun draft hdraft => (h.portrayed draft hdraft).extends hkept.extends h.below

/-- A graph has grown since `origin`. -/
structure Grows (origin loading : Loading σ) : Prop where
  grounded : Grounded loading
  extended : Extends origin.loader loading.loader

/-- The table of a load that failed is in order. -/
abbrev Tidy (loading : Loading σ) : Prop := loading.loader.dsbt.Consistent

theorem Grows.kept (h : Grows origin before) (hkept : Kept before after) : Grows origin after :=
  ⟨h.grounded.kept hkept, h.extended.trans hkept.extends⟩

theorem grows_kept {α : Type} {step : LoadM (Loading σ) α} (hstep : Within Kept step) :
    Triple (Grows origin) step (fun _ => Grows origin) Tidy :=
  hstep.triple (fun _ _ h hkept => h.kept hkept) fun _ h => h.grounded.consistent

theorem Grows.triple {α : Type} {step : LoadM (Loading σ) α} (h : Grows origin before)
    (hstep : Within Kept step) : Triple (· = before) step (fun _ => Grows origin) Tidy :=
  (grows_kept hstep).strengthen fun _ hs => hs ▸ h

theorem kept_onClient {α : Type} (step : LoadM σ α) : Within Kept (onClient step) :=
  fun _ => ⟨rfl, rfl, rfl, UInt32.le_refl _⟩

theorem kept_modifySession {change : Session → Session}
    (h : ∀ session, (change session).pending = session.pending) :
    Within Kept (modifySession change : LoadM (Loading σ) Unit) :=
  fun loading => ⟨rfl, rfl, h loading.session, UInt32.le_refl _⟩

theorem kept_newHandle : Within Kept (onLoader Loader.newHandle : LoadM (Loading σ) Handle) := by
  intro loading
  rw [newHandle_apply]
  split
  · exact Std.Refl.refl loading
  · rename_i hlast
    exact ⟨rfl, rfl, rfl, UInt32.le_of_lt (Loader.lt_add_one hlast)⟩

theorem kept_update {loading : Loading σ} {handle : Handle} {change : Module → Module}
    {session : Session} (h : ∀ m, (change m).placement = m.placement)
    (hsession : session.pending = loading.session.pending) :
    Kept loading { loader := loading.loader.update handle change, session } :=
  ⟨Loader.map_updateModule h, rfl, hsession, UInt32.le_refl _⟩

theorem kept_reuse (name : String) : Within Kept (reuse name : LoadM (Loading σ) _) := by
  intro loading
  rw [reuse_apply]
  split
  · exact Std.Refl.refl loading
  · refine kept_update (fun _ => rfl) ?_
    split <;> rfl

theorem kept_reuseOwn (file : ObjectFile) : Within Kept (reuseOwn file : LoadM (Loading σ) _) := by
  unfold reuseOwn
  split
  · exact Within.pure
  · exact Within.bind Within.get fun loading => Within.throw_if (kept_reuse _)

/-! ## Placing one module -/

/-- A module of a file is placed since `origin`, and its segments have these sizes. -/
structure Opening (origin : Loading σ) (file : ObjectFile) (handle : Handle) (sizes : List Nat)
    (loading : Loading σ) : Prop where
  last : ∃ m, loading.loader.modules = origin.loader.modules ++ [m] ∧ m.handle = handle ∧
    m.order = file.order ∧ m.segments.map (·.memorySize.toNat) = sizes
  dsbt : loading.loader.dsbt = origin.loader.dsbt
  pending : loading.session.pending = origin.session.pending
  fresh : origin.loader.nextHandle ≤ handle
  below : handle < loading.loader.nextHandle

variable {file : ObjectFile} {handle : Handle} {sizes : List Nat} {loading : Loading σ}

theorem Opening.tidy (h : Opening origin file handle sizes loading) (horigin : Grounded origin) :
    Tidy loading := by
  rw [Tidy, h.dsbt]
  exact horigin.consistent

theorem Grounded.notMem (h : Grounded loading) (hle : loading.loader.nextHandle ≤ handle) :
    handle ∉ handlesOf loading.loader.modules := by
  intro hmem
  obtain ⟨m, hm, rfl⟩ := Module.exists_of_mem_handlesOf hmem
  exact absurd (h.below m.placement (List.mem_map_of_mem hm)) (UInt32.not_lt.mpr hle)

/-- The module that is placed may change in what its placement does not fix yet. -/
theorem Opening.update (h : Opening origin file handle sizes loading) (horigin : Grounded origin)
    {change : Module → Module} {sizes' : List Nat} (hhandle : ∀ m, (change m).handle = m.handle)
    (horder : ∀ m, (change m).order = m.order)
    (hsizes : ∀ m, m.segments.map (·.memorySize.toNat) = sizes →
      (change m).segments.map (·.memorySize.toNat) = sizes') :
    Opening origin file handle sizes'
      { loading with loader := loading.loader.update handle change } := by
  obtain ⟨m, hmodules, rfl, hfile, hsegments⟩ := h.last
  refine { h with last := ⟨change m, ?_, hhandle m, (horder m).trans hfile, hsizes m hsegments⟩ }
  rw [Loader.update, hmodules, Loader.updateModule_append (horigin.notMem h.fresh)]
  dsimp only
  rw [Loader.updateModule, if_pos rfl]

theorem addModule_opening (horigin : Grounded origin) (file : ObjectFile)
    (requested : Option String) :
    Triple (· = origin) (addModule file requested)
      (fun added => Opening origin file added.1 []) Tidy := by
  intro s hs
  obtain rfl : s = origin := hs
  simp only [addModule, bind_apply, newHandle_apply]
  by_cases hlast : s.loader.nextHandle = Loader.lastHandle
  · rw [if_pos hlast]
    exact horigin.consistent
  · rw [if_neg hlast]
    exact ⟨⟨_, rfl, rfl, rfl, rfl⟩, rfl, rfl, UInt32.le_refl _, Loader.lt_add_one hlast⟩

theorem opening_onClient {α : Type} (horigin : Grounded origin) (step : LoadM σ α) :
    Triple (Opening origin file handle sizes) (onClient step)
      (fun _ => Opening origin file handle sizes) Tidy := by
  refine Within.triple (R := fun before after => ∃ client,
    after = { before with loader := { before.loader with client } }) (fun loading => ⟨_, rfl⟩) ?_
    fun _ h => h.tidy horigin
  rintro loading _ h ⟨client, rfl⟩
  exact { h with }

end Steps

variable {origin : Loading SimulatedTarget} {file : ObjectFile} {handle : Handle}

theorem placeSegment_opening (horigin : Grounded origin) (image : Image) (relocatable : Bool)
    (header : ProgramHeader) (sizes : List Nat) :
    Triple (Opening origin file handle sizes) (placeSegment handle image relocatable header)
      (fun block => Opening origin file handle (sizes ++ [block.length])) Tidy := by
  refine placeSegment_cases (opening_onClient horigin _) (fun allocation _ => ?_) fun allocation _ => ?_
  · exact (opening_onClient horigin _).weaken (fun _ _ h => h.tidy horigin) fun _ h => h
  refine Triple.bind (R := fun _ => Opening origin file handle (sizes ++ [header.memorySize.toNat])) ?_
    fun _ loading h => ?_
  · refine Triple.modify fun loading h => ?_
    refine h.update horigin (fun _ => rfl) (fun _ => rfl) fun m hsizes => ?_
    rw [List.map_append, hsizes]
    rfl
  · rw [onClient_apply, SimulatedTarget.copy_apply]
    cases hstage : header.part.stage image with
    | error e => exact h.tidy horigin
    | ok block =>
      rw [show header.memorySize.toNat = block.length from (CopyRequest.length_of_stage hstage).symm] at h
      exact { h with }

theorem placeSegments_opening (horigin : Grounded origin) (image : Image) :
    Triple (Opening origin file handle []) (placeSegments handle image file)
      (fun staged => Opening origin file handle (staged.map (·.length))) Tidy := by
  refine (resident_keeps (fun _ h => h.tidy horigin) handle).bind fun _ => ?_
  refine Triple.mapM_done (I := fun staged => Opening origin file handle (staged.map List.length))
    (fun header _ done => ?_) []
  refine (placeSegment_opening horigin image _ header _).weaken (fun block s h => ?_) fun _ h => h
  rwa [List.map_append]

theorem portrays_ofPlaced {image : Image} (hread : ObjectFile.read image = .ok file) (name : String)
    {staged : List Bytes} {m : Module} (horder : m.order = file.order)
    (hsizes : m.segments.map (·.memorySize.toNat) = staged.map (·.length)) :
    (Draft.ofPlaced m.handle name file m.segments staged).Portrays m.placement := by
  have hplaced : ∃ name' staged', Draft.ofPlaced m.handle name file m.segments staged =
      Draft.ofPlaced m.handle name' (Draft.ofPlaced m.handle name file m.segments staged).file m.segments
        staged' := ⟨name, staged, by rw [Draft.file_ofPlaced]⟩
  unfold Draft.ofPlaced at hplaced ⊢
  split
  · rename_i hrelocatable
    rw [if_pos hrelocatable] at hplaced
    refine ⟨rfl, horder.symm, hsizes.symm, List.length_map _, rfl, fun info hinfo => ?_, hplaced⟩
    obtain ⟨info', hinfo', rfl⟩ := Option.map_eq_some_iff.mp hinfo
    have hentry := ObjectFile.indexEntry_of_read hread hinfo'
    exact hentry
  · rename_i hstatic
    rw [if_neg hstatic] at hplaced
    exact ⟨rfl, horder.symm, hsizes.symm, rfl, rfl,
      fun info hinfo => ObjectFile.indexEntry_of_read hread hinfo, hplaced⟩

theorem claim_of_claim? {draft : Draft} {claim : Dsbt.Claim} (h : draft.claim? = some claim) :
    claim.handle = draft.handle ∧ claim.staticBase = draft.staticBase := by
  obtain ⟨info, -, rfl⟩ := Option.map_eq_some_iff.mp h
  exact ⟨rfl, rfl⟩

/-- A graph has grown by one module if that module has a portrait and the only new claim is its own. -/
theorem grows_of_portrays (horigin : Grounded origin) {loading : Loading SimulatedTarget} {m : Module}
    {draft : Draft} (hmodules : loading.loader.modules = origin.loader.modules ++ [m])
    (hpending : loading.session.pending = origin.session.pending)
    (hfresh : origin.loader.nextHandle ≤ m.handle) (hbelow : m.handle < loading.loader.nextHandle)
    (hportrays : draft.Portrays m.placement) (hbase : m.staticBase = draft.staticBase)
    (hconsistent : loading.loader.dsbt.Consistent)
    (hperm : loading.loader.dsbt.claims.Perm (draft.claim?.toList ++ origin.loader.dsbt.claims)) :
    Grows origin loading ∧ Portrayed draft loading.loader := by
  have hclaims : ∀ claim, claim ∈ loading.loader.dsbt.claims ↔
      claim ∈ origin.loader.dsbt.claims ∨ draft.claim? = some claim := by
    intro claim
    rw [hperm.mem_iff, List.mem_append, Option.mem_toList, or_comm]
  have hplacements : loading.loader.placements = origin.loader.placements ++ [m.placement] := by
    rw [Loader.placements, hmodules, List.map_append]
    rfl
  have hlast : m.placement ∈ loading.loader.placements := by simp [hplacements]
  have hle : origin.loader.nextHandle ≤ loading.loader.nextHandle :=
    UInt32.le_of_lt (UInt32.lt_of_le_of_lt hfresh hbelow)
  have hextends : Extends origin.loader loading.loader := by
    refine ⟨fun placement hmem => ?_, hle, fun claim hclaim => ((hclaims claim).mp hclaim).imp_right ?_,
      fun claim hclaim => (hclaims claim).mpr (Or.inl hclaim)⟩
    · rw [hplacements]
      exact List.mem_append_left _ hmem
    · intro hown
      rw [(claim_of_claim? hown).1, hportrays.handle]
      exact hfresh
  refine ⟨⟨⟨⟨hconsistent, fun claim hclaim => ?_⟩, fun placement hmem => ?_, ?_⟩, hextends⟩,
    ⟨m.placement, hlast, hportrays⟩, fun claim hclaim hhandle => ?_,
    fun claim hclaim => (hclaims claim).mpr (Or.inr hclaim)⟩
  · rcases (hclaims claim).mp hclaim with hold | hown
    · obtain ⟨placement, hmem, heq⟩ := horigin.based claim hold
      exact ⟨placement, hextends.placements placement hmem, heq⟩
    · obtain ⟨hhandle, hstatic⟩ := claim_of_claim? hown
      exact ⟨m.placement, hlast, (hhandle.trans hportrays.handle).symm, hbase.trans hstatic.symm⟩
  · rw [hplacements] at hmem
    rcases List.mem_append.mp hmem with hold | hnew
    · exact UInt32.lt_of_lt_of_le (horigin.below placement hold) hle
    · rw [List.mem_singleton.mp hnew]
      exact hbelow
  · rw [hpending]
    exact fun other hother => (horigin.portrayed other hother).extends hextends horigin.below
  · -- an old claim is for an old module
    refine ((hclaims claim).mp hclaim).resolve_left fun hold => ?_
    obtain ⟨placement, hmem, heq, -⟩ := horigin.based claim hold
    have hlt := horigin.below placement hmem
    rw [heq, hhandle, hportrays.handle] at hlt
    exact absurd hlt (UInt32.not_lt.mpr hfresh)

/-- A placed module is described by its draft, and its claim is registered. -/
theorem draftModule_grows (horigin : Grounded origin) {image : Image}
    (hread : ObjectFile.read image = .ok file) (name : String) (staged : List Bytes) :
    Triple (Opening origin file handle (staged.map (·.length)))
      (draftModule handle name file staged)
      (fun draft s => Grows origin s ∧ Portrayed draft s.loader) Tidy := by
  intro loading h
  obtain ⟨m, hmodules, rfl, horder, hsizes⟩ := h.last
  have hnotin := horigin.notMem h.fresh
  have hfind : Module.find? loading.loader.modules m.handle = some m := by
    rw [hmodules]
    exact Module.find?_last hnotin
  have hresident : resident m.handle loading = (.ok m, loading) := by
    simp only [resident, bind_apply, LoadM.get_apply, hfind, LoadM.pure_apply]
  have hportrays : (Draft.ofPlaced m.handle name file m.segments staged).Portrays m.placement :=
    portrays_ofPlaced hread name horder hsizes
  rw [draftModule, bind_apply, hresident]
  dsimp only
  generalize Draft.ofPlaced m.handle name file m.segments staged = draft at hportrays
  have hportrays' : draft.Portrays (describe draft m).placement := { hportrays with }
  have hdescribed : Loader.updateModule m.handle (describe draft) loading.loader.modules =
      origin.loader.modules ++ [describe draft m] := by
    rw [hmodules, Loader.updateModule_append hnotin, Loader.updateModule, if_pos rfl]
  refine (Triple.bind (R := fun _ s => s = { loading with
      loader := loading.loader.update m.handle (describe draft) }) (P := (· = loading))
    (Triple.modify fun s hs => hs ▸ rfl) fun _ => ?_) loading rfl
  cases hclaim : draft.claim? with
  | none =>
    refine Triple.pure fun s hs => ?_
    rw [show s = _ from hs]
    refine grows_of_portrays horigin (m := describe draft m) hdescribed h.pending h.fresh h.below
      hportrays' rfl (h.tidy horigin) ?_
    rw [hclaim, ← h.dsbt]
    exact .refl _
  | some claim =>
    refine Triple.get_bind fun s hs => ?_
    subst hs
    refine Triple.bind (R := fun dsbt t => t = _ ∧ loading.loader.dsbt.register claim = .ok dsbt)
      (Triple.ofExcept (fun _ _ hregister ht => ⟨ht, hregister⟩) fun t ht => ?_) fun dsbt => ?_
    · rw [show t = _ from ht]
      exact h.tidy horigin
    · rintro _ ⟨rfl, hregister⟩
      refine grows_of_portrays horigin (m := describe draft m) hdescribed h.pending h.fresh h.below
        hportrays' rfl (Dsbt.Consistent.register (h.tidy horigin) hregister) ?_
      rw [hclaim, ← h.dsbt]
      exact Dsbt.perm_claims_register hregister

/-! ## Placing a graph -/

variable {middle after : Loading SimulatedTarget}

theorem Grows.trans (hfirst : Grows origin middle) (hsecond : Grows middle after) :
    Grows origin after :=
  ⟨hsecond.grounded, hfirst.extended.trans hsecond.extended⟩

theorem Grounded.grows (h : Grounded middle) : Grows middle middle := ⟨h, .refl⟩

/-- What is known once a file was entered. -/
def Welcomed (origin : Loading SimulatedTarget) :
    Handle ⊕ Handle × ObjectFile × Draft → Loading SimulatedTarget → Prop
  | .inl _, after => Grows origin after
  | .inr (_, _, draft), after => Grows origin after ∧ Portrayed draft after.loader

theorem enter_grows (image : Image) (requested : Option String) :
    Triple (Grows origin) (enter image requested) (Welcomed origin) Tidy := by
  refine Triple.bind (R := fun file s => ObjectFile.read image = .ok file ∧ Grows origin s)
    (Triple.ofExcept (fun _ _ hread h => ⟨hread, h⟩) fun _ h => h.grounded.consistent) fun file => ?_
  refine Triple.get_bind fun loading h => ?_
  obtain ⟨hread, hgrows⟩ := h
  refine Triple.bind (R := fun _ => Grows origin)
    (Triple.ofExcept (fun _ _ _ hs => hs ▸ hgrows) fun _ hs => hs ▸ hgrows.grounded.consistent)
    fun _ => ?_
  refine Triple.bind (R := fun _ => Grows origin) (grows_kept ?_) fun _ => ?_
  · exact kept_modifySession fun _ => rfl
  refine (grows_kept (kept_reuseOwn file)).bind fun found => ?_
  cases found with
  | some handle => exact Triple.pure fun _ h => h
  | none =>
    intro before hbefore
    have hgrounded := hbefore.grounded
    refine ((addModule_opening hgrounded file requested).bind fun added => ?_) before rfl
    refine (placeSegments_opening hgrounded image).bind fun staged => ?_
    refine (draftModule_grows hgrounded hread added.2 staged).bind fun draft => ?_
    refine Triple.bind (R := fun _ s => Grows origin s ∧ Portrayed draft s.loader) ?_ fun _ =>
      Triple.pure fun _ h => h
    refine Triple.modify fun s h => ?_
    have hkept : Kept s { s with session := { s.session with
        inProgress := s.session.inProgress ++ [added.2] } } := ⟨rfl, rfl, rfl, UInt32.le_refl _⟩
    exact ⟨hbefore.trans (h.1.kept hkept), h.2.extends hkept.extends h.1.grounded.below⟩

theorem need_grows {load : String → Image → LoadM (Loading SimulatedTarget) Handle}
    (hload : ∀ name image, Triple (Grows origin) (load name image) (fun _ => Grows origin) Tidy)
    (handle : Handle) (name : String) :
    Triple (Grows origin) (need handle load name) (fun _ => Grows origin) Tidy := by
  refine Triple.bind (R := fun _ => Grows origin) ?_ fun found =>
    addDependency_triple (fun _ h => h.grounded.consistent) fun s h =>
      h.kept (kept_update (fun _ => rfl) rfl)
  refine Triple.get_bind fun loading hgrows => ?_
  refine Triple.throw_if (fun _ _ hs => hs ▸ hgrows.grounded.consistent) fun _ => ?_
  refine (hgrows.triple (kept_reuse name)).bind fun found => ?_
  cases found with
  | some handle => exact Triple.pure fun _ h => h
  | none =>
    refine (grows_kept (kept_onClient _)).bind fun image => ?_
    cases image with
    | some image => exact hload name image
    | none => exact Triple.throw fun _ h => h.grounded.consistent

theorem close_grows (hmiddle : Grows origin middle) {draft : Draft}
    (hportrayed : Portrayed draft middle.loader) :
    Triple (Grows middle) (close draft) (fun _ => Grows origin) Tidy := by
  refine Triple.modify fun after h => ⟨{ h.grounded with portrayed := ?_ }, ?_⟩
  · intro other hother
    rcases List.mem_append.mp hother with hold | hlast
    · exact h.grounded.portrayed other hold
    · rw [List.mem_singleton.mp hlast]
      exact hportrayed.extends h.extended hmiddle.grounded.below
  · exact hmiddle.extended.trans h.extended

theorem loadModule_grows (depth : Nat) (image : Image) (requested : Option String) :
    Triple (Grows origin) (loadModule depth image requested) (fun _ => Grows origin) Tidy := by
  induction depth generalizing origin image requested with
  | zero => exact Triple.throw fun _ h => h.grounded.consistent
  | succ depth ih =>
    rw [loadModule_succ]
    refine (enter_grows image requested).bind fun entered => ?_
    rcases entered with handle | ⟨handle, file, draft⟩
    · exact Triple.pure fun _ h => h
    · rintro middle ⟨hmiddle, hportrayed⟩
      -- the needed modules grow the graph since the module was entered
      have hneeds : Triple (Grows middle)
          (file.needed.forM (need handle fun name image => loadModule depth image (some name)))
          (fun _ => Grows middle) Tidy :=
        Triple.forM fun name _ => need_grows (fun name image => ih image (some name)) handle name
      refine (hneeds.bind fun _ => ?_) middle hmiddle.grounded.grows
      exact (close_grows hmiddle hportrayed).bind fun _ => Triple.pure fun _ h => h

/-- Once a graph is placed, all its drafts are portraits of their modules. -/
theorem place_grounded {start : Loader SimulatedTarget} (hfounded : start.Founded)
    (hbelow : ∀ m ∈ start.modules, m.handle < start.nextHandle) (image : Image) :
    Triple (· = { loader := start }) (place image) (fun _ => Grounded) Tidy := by
  have hstart : Grounded { loader := start } := by
    refine { hfounded with below := fun placement hmem => ?_, portrayed := by rintro _ ⟨⟩ }
    obtain ⟨m, hm, rfl⟩ := List.mem_map.mp hmem
    exact hbelow m hm
  refine Triple.get_bind fun begun hbegun => ?_
  have hload : ∀ depth, Triple (· = begun) (loadModule depth image none)
      (fun _ => Grows { loader := start }) Tidy := by
    refine fun depth => (loadModule_grows depth image none).strengthen fun s hs => ?_
    rw [show s = begun from hs, show begun = _ from hbegun]
    exact hstart.grows
  refine (hload _).bind fun root => Triple.get_bind fun loading h => ?_
  split
  · exact Triple.pure fun _ hs => hs ▸ h.grounded
  · exact (h.triple kept_newHandle).bind fun handle => Triple.pure fun _ h => h.grounded

end Loading

end TargetLink
