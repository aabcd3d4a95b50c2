import TargetLink.Proofs.Slots
import Mathlib.Data.Finset.Card
import Mathlib.Data.Finset.Range
import Mathlib.Data.List.Perm.Basic

/-!
# Runs of the table of static bases

A table serves registrations, assignments and releases in any order (`Dsbt.run`).  What it keeps over
every run is `Dsbt.Consistent`.  A registration is checked against the slots of its time, and the
claims are bound later and together; between the two the slots that specific claims wait for stay free,
since nothing but an assignment takes a slot, and an assignment serves the specific claims first.

Binding a claim is one step from the claims that wait to the slots (`Consistent.bindSpecific`,
`Consistent.bindGeneral`).  An assignment is a list of such steps, so it takes no slot away
(`Consistent.assign`).
-/

namespace TargetLink.Dsbt

variable {dsbt : Dsbt} {claim : Claim} {handle : Handle} {slot : Nat}

/-! ## Requests -/

inductive Request
  | register (claim : Claim)
  | assign
  | release (handle : Handle)
  deriving DecidableEq

/-- The table after a request. A claim that is rejected changes nothing. -/
def serve (dsbt : Dsbt) : Request → Dsbt
  | .register claim =>
    match dsbt.register claim with
    | .ok registered => registered
    | .error _ => dsbt
  | .assign => dsbt.assign
  | .release handle => dsbt.release handle

def run (dsbt : Dsbt) (requests : List Request) : Dsbt := requests.foldl serve dsbt

/-! ## Slots and their numbers -/

theorem mem_entries {entry : Nat × Claim} :
    entry ∈ dsbt.entries ↔ dsbt.claimAt? entry.1 = some entry.2 := by
  obtain ⟨index, claim⟩ := entry
  simp only [entries, claimAt?, List.mem_filterMap, Prod.exists, List.mem_zipIdx_iff_getElem?,
    Option.map_eq_some_iff, Prod.mk.injEq, Option.join_eq_some_iff]
  constructor
  · rintro ⟨_, _, hslot, _, rfl, rfl, rfl⟩
    exact hslot
  · intro hslot
    exact ⟨some claim, index, hslot, claim, rfl, rfl, rfl⟩

theorem lt_of_claimAt? (h : dsbt.claimAt? slot = some claim) : slot < dsbt.slots.length :=
  (List.getElem?_eq_some_iff.mp (Option.join_eq_some_iff.mp h)).1

/-- The claims of a table, those that wait before those that are bound. -/
def claims (dsbt : Dsbt) : List Claim := dsbt.pending ++ dsbt.entries.map (·.2)

theorem mem_claims : claim ∈ dsbt.claims ↔
    claim ∈ dsbt.pending ∨ ∃ slot, dsbt.claimAt? slot = some claim := by
  simp [claims, mem_entries]

/-- A claim that is put into a free slot joins the bound ones. -/
theorem perm_entriesFrom_set (claim : Claim) (start index : Nat) (slots : List (Option Claim))
    (hfree : slots[index]? = some none) :
    ((entriesFrom start (slots.set index (some claim))).map (·.2)).Perm
      (claim :: (entriesFrom start slots).map (·.2)) := by
  induction slots generalizing start index with
  | nil => cases hfree
  | cons slot slots ih =>
    cases index with
    | zero =>
      obtain rfl : slot = none := by simpa using hfree
      exact .refl _
    | succ index =>
      have hrest := ih (start + 1) index (by simpa using hfree)
      cases slot with
      | none => exact hrest
      | some other => exact (hrest.cons other).trans (.swap claim other _)

theorem length_slots_bindAt_eq (dsbt : Dsbt) (index : Nat) (claim : Claim) :
    (dsbt.bindAt index claim).slots.length = max dsbt.slots.length (index + 1) := by
  simp only [bindAt, List.length_set, List.length_append, List.length_replicate]
  omega

theorem perm_entries_bindAt (claim : Claim) {index : Nat} (hfree : dsbt.claimAt? index = none) :
    ((dsbt.bindAt index claim).entries.map (·.2)).Perm (claim :: dsbt.entries.map (·.2)) := by
  have hgrown : (dsbt.slots ++
      List.replicate (index + 1 - dsbt.slots.length) none)[index]? = some none := by
    unfold claimAt? at hfree
    rw [List.getElem?_append]
    split
    · rename_i hlt
      rw [List.getElem?_eq_getElem hlt] at hfree ⊢
      exact congrArg some hfree
    · exact List.getElem?_eq_some_iff.mpr ⟨by simp; omega, by simp⟩
  have hperm := perm_entriesFrom_set claim 0 index _ hgrown
  rwa [entriesFrom_append_none] at hperm

/-- The slots that the cursor passes are bound. -/
theorem isSome_of_lt_takeWhile (slots : List (Option Claim)) {index : Nat}
    (h : index < (slots.takeWhile (·.isSome)).length) : slots[index]?.join.isSome := by
  induction slots generalizing index with
  | nil => cases h
  | cons slot slots ih =>
    cases slot with
    | none => cases h
    | some claim =>
      cases index with
      | zero => rfl
      | succ index => exact ih (by simpa using h)

theorem length_entriesFrom_of_full {start : Nat} {slots : List (Option Claim)}
    (h : ∀ slot ∈ slots, slot.isSome) : (entriesFrom start slots).length = slots.length := by
  induction slots generalizing start with
  | nil => rfl
  | cons slot slots ih =>
    obtain ⟨hslot, hslots⟩ := List.forall_mem_cons.mp h
    cases slot with
    | none => cases hslot
    | some claim => exact congrArg (· + 1) (ih hslots)

/-- There are no more handles than numbers for them. -/
theorem length_le_of_nodup {handles : List Handle} (h : handles.Nodup) :
    handles.length ≤ UInt32.size := by
  have hnumbers : (handles.map UInt32.toNat).Nodup :=
    h.map fun _ _ heq => UInt32.toNat_inj.mp heq
  have hsub : (handles.map UInt32.toNat).toFinset ⊆ Finset.range UInt32.size := by
    intro n hn
    obtain ⟨handle, -, rfl⟩ := List.mem_map.mp (List.mem_toFinset.mp hn)
    exact Finset.mem_range.mpr handle.toNat_lt_size
  have hcard := Finset.card_le_card hsub
  rwa [Finset.card_range, List.toFinset_card_of_nodup hnumbers, List.length_map] at hcard

/-! ## What a run keeps -/

/-- Specific claims wait for free slots of their own tables, each for another one; no handle has two
claims; bound claims have the slots that they asked for; and all slots below the cursor are bound. -/
structure Consistent (dsbt : Dsbt) : Prop where
  unclashing : dsbt.Unclashing
  inside : ∀ claim ∈ dsbt.pending, claim.isSpecific → claim.requested < claim.size
  distinct : (dsbt.claims.map (·.handle)).Nodup
  granted : ∀ slot claim, dsbt.claimAt? slot = some claim → claim.isSpecific →
    slot = claim.requested.toNat
  cursor : dsbt.firstFree ≤ dsbt.slots.length
  full : ∀ slot < dsbt.firstFree, (dsbt.claimAt? slot).isSome
  short : dsbt.slots.length ≤ UInt32.size

theorem consistent_empty : Consistent {} where
  unclashing := unclashing_of_pending rfl
  inside := by rintro _ ⟨⟩
  distinct := .nil
  granted := by rintro _ _ ⟨⟩
  cursor := Nat.le_refl 0
  full := by rintro _ ⟨⟩
  short := Nat.zero_le _

theorem Consistent.nodup_entries (h : dsbt.Consistent) :
    (dsbt.entries.map fun entry => entry.2.handle).Nodup := by
  have hbound := (List.nodup_append.mp (List.map_append ▸ h.distinct)).2.1
  rwa [List.map_map] at hbound

/-- No two slots are bound to claims of one handle. -/
theorem Consistent.eq_of_handle_eq (h : dsbt.Consistent) {other : Claim} {slot' : Nat}
    (hslot : dsbt.claimAt? slot = some claim) (hslot' : dsbt.claimAt? slot' = some other)
    (hhandle : claim.handle = other.handle) : slot = slot' ∧ claim = other := by
  have hmem : (slot, claim) ∈ dsbt.entries := mem_entries.mpr hslot
  have hmem' : (slot', other) ∈ dsbt.entries := mem_entries.mpr hslot'
  exact Prod.mk.inj (List.inj_on_of_nodup_map h.nodup_entries hmem hmem' hhandle)

/-- The slot of a module is the one that its claim is bound to. -/
theorem Consistent.index?_eq_some_iff (h : dsbt.Consistent) :
    dsbt.index? handle = some slot ↔
      ∃ claim, dsbt.claimAt? slot = some claim ∧ claim.handle = handle := by
  constructor
  · intro hindex
    obtain ⟨⟨index, claim⟩, hfind, rfl⟩ := Option.map_eq_some_iff.mp hindex
    exact ⟨claim, mem_entries.mp (List.mem_of_find?_eq_some hfind), by
      simpa using List.find?_some hfind⟩
  · rintro ⟨claim, hslot, rfl⟩
    obtain ⟨⟨index, other⟩, hfind⟩ : ∃ entry,
        dsbt.entries.find? (·.2.handle == claim.handle) = some entry :=
      Option.isSome_iff_exists.mp
        (List.find?_isSome.mpr ⟨(slot, claim), mem_entries.mpr hslot, beq_self_eq_true _⟩)
    have hother := mem_entries.mp (List.mem_of_find?_eq_some hfind)
    have hhandle : other.handle = claim.handle := by simpa using List.find?_some hfind
    rw [index?, hfind, Option.map_some, (h.eq_of_handle_eq hother hslot hhandle).1]

/-! ## Binding claims -/

/-- The table with these claims waiting. -/
def waiting (dsbt : Dsbt) (claims : List Claim) : Dsbt := { dsbt with pending := claims }

/-- From one table to the other claims are bound; none is lost and none leaves its slot. -/
structure Binds (before after : Dsbt) : Prop where
  consistent : after.Consistent
  claims : after.claims.Perm before.claims
  kept : ∀ slot claim, before.claimAt? slot = some claim → after.claimAt? slot = some claim

theorem Consistent.binds (h : dsbt.Consistent) : Binds dsbt dsbt :=
  ⟨h, .refl _, fun _ _ => id⟩

theorem Binds.trans {first second third : Dsbt} (h : Binds first second) (h' : Binds second third) :
    Binds first third :=
  ⟨h'.consistent, h'.claims.trans h.claims, fun slot claim hslot =>
    h'.kept slot claim (h.kept slot claim hslot)⟩

variable {rest : List Claim} {index : Nat}

theorem perm_claims_bindAt (hfree : dsbt.claimAt? index = none) :
    ((dsbt.bindAt index claim).waiting rest).claims.Perm (dsbt.waiting (claim :: rest)).claims :=
  ((perm_entries_bindAt claim hfree).append_left rest).trans List.perm_middle

theorem kept_bindAt (hfree : dsbt.claimAt? index = none) (slot : Nat) (other : Claim)
    (hslot : dsbt.claimAt? slot = some other) :
    (dsbt.bindAt index claim).claimAt? slot = some other := by
  rw [claimAt?_bindAt, if_neg]
  · exact hslot
  · rintro rfl
    rw [hfree] at hslot
    cases hslot

/-- A claim on one slot is bound to it. -/
theorem Consistent.bindSpecific (h : (dsbt.waiting (claim :: rest)).Consistent)
    (hspecific : claim.isSpecific) : Binds (dsbt.waiting (claim :: rest))
      ((dsbt.bindAt claim.requested.toNat claim).waiting rest) := by
  have hfree : dsbt.claimAt? claim.requested.toNat = none :=
    h.unclashing.free claim List.mem_cons_self hspecific
  have happart := h.unclashing.apart
  rw [waiting, List.filter_cons_of_pos hspecific] at happart
  obtain ⟨hothers, hrest⟩ := List.pairwise_cons.mp happart
  have hperm : ((dsbt.bindAt claim.requested.toNat claim).waiting rest).claims.Perm
      (dsbt.waiting (claim :: rest)).claims := perm_claims_bindAt hfree
  refine ⟨?_, hperm, kept_bindAt hfree⟩
  constructor
  case unclashing =>
    refine ⟨fun other hother hwaits => ?_, hrest⟩
    have hne : other.requested.toNat ≠ claim.requested.toNat := fun heq =>
      hothers other (List.mem_filter.mpr ⟨hother, hwaits⟩) (UInt32.toNat_inj.mp heq.symm)
    refine (claimAt?_bindAt _ _ _ _).trans ((if_neg hne).trans ?_)
    exact h.unclashing.free other (List.mem_cons_of_mem claim hother) hwaits
  case inside => exact fun other hother => h.inside other (List.mem_cons_of_mem claim hother)
  case distinct => exact (hperm.map _).nodup_iff.mpr h.distinct
  case granted =>
    intro slot other hslot hother
    have hslot := (claimAt?_bindAt dsbt _ _ _).symm.trans hslot
    split at hslot
    · exact Option.some.inj hslot ▸ ‹slot = _›
    · exact h.granted slot other hslot hother
  case cursor => exact Nat.le_trans h.cursor (length_slots_bindAt dsbt _ claim)
  case full =>
    intro slot hlt
    obtain ⟨other, hother⟩ := Option.isSome_iff_exists.mp (h.full slot hlt)
    exact Option.isSome_iff_exists.mpr ⟨other, kept_bindAt hfree slot other hother⟩
  case short =>
    have hlength := length_slots_bindAt_eq dsbt claim.requested.toNat claim
    have hshort : dsbt.slots.length ≤ UInt32.size := h.short
    have hrequested := claim.requested.toNat_lt_size
    show (dsbt.bindAt claim.requested.toNat claim).slots.length ≤ _
    omega

/-- The next free slot and all that is known of it. -/
theorem Consistent.nextFree (h : dsbt.Consistent) :
    dsbt.nextFree ≤ dsbt.slots.length ∧ ∀ slot < dsbt.nextFree, (dsbt.claimAt? slot).isSome := by
  have hcursor := h.cursor
  unfold Dsbt.nextFree
  constructor
  · have hpassed : ((dsbt.slots.drop dsbt.firstFree).takeWhile (·.isSome)).length ≤
        (dsbt.slots.drop dsbt.firstFree).length := (List.takeWhile_sublist _).length_le
    rw [List.length_drop] at hpassed
    omega
  · intro slot hlt
    by_cases hbelow : slot < dsbt.firstFree
    · exact h.full slot hbelow
    · have hlt' : slot - dsbt.firstFree <
          ((dsbt.slots.drop dsbt.firstFree).takeWhile (·.isSome)).length := by omega
      have hpassed := isSome_of_lt_takeWhile (dsbt.slots.drop dsbt.firstFree) hlt'
      rwa [List.getElem?_drop, Nat.add_sub_cancel' (Nat.not_lt.mp hbelow)] at hpassed

/-- A table without a free slot has room for one more claim, since every claim has a handle of its
own. -/
theorem Consistent.length_lt (h : (dsbt.waiting (claim :: rest)).Consistent)
    (hfull : ∀ slot < dsbt.slots.length, (dsbt.claimAt? slot).isSome) :
    dsbt.slots.length < UInt32.size := by
  have hslots : ∀ slot ∈ dsbt.slots, slot.isSome := by
    intro slot hslot
    obtain ⟨index, hindex, rfl⟩ := List.getElem_of_mem hslot
    have hbound := hfull index hindex
    rwa [claimAt?, List.getElem?_eq_getElem hindex] at hbound
  have hentries : dsbt.entries.length = dsbt.slots.length := length_entriesFrom_of_full hslots
  have hhandles := length_le_of_nodup h.distinct
  have hclaims : (dsbt.waiting (claim :: rest)).claims.length =
      rest.length + 1 + dsbt.entries.length := by
    simp only [claims, waiting, entries, List.length_append, List.length_cons, List.length_map]
  rw [List.length_map, hclaims] at hhandles
  omega

/-- A claim on any slot is bound to the next free one. -/
theorem Consistent.bindGeneral (h : (dsbt.waiting (claim :: rest)).Consistent)
    (hgeneral : ∀ other ∈ claim :: rest, other.isSpecific = false) :
    Binds (dsbt.waiting (claim :: rest)) ((dsbt.bindNext claim).waiting rest) := by
  obtain ⟨hclaim, hrest⟩ := List.forall_mem_cons.mp hgeneral
  have hfree := dsbt.claimAt?_nextFree
  obtain ⟨hle, hbelow⟩ : dsbt.nextFree ≤ dsbt.slots.length ∧
      ∀ slot < dsbt.nextFree, (dsbt.claimAt? slot).isSome := h.nextFree
  have hlength : (dsbt.bindAt dsbt.nextFree claim).slots.length =
      max dsbt.slots.length (dsbt.nextFree + 1) := length_slots_bindAt_eq dsbt _ claim
  have hperm : ((dsbt.bindNext claim).waiting rest).claims.Perm
      (dsbt.waiting (claim :: rest)).claims := perm_claims_bindAt hfree
  refine ⟨?_, hperm, kept_bindAt hfree⟩
  constructor
  case unclashing =>
    refine ⟨fun other hother hwaits => ?_, ?_⟩
    · rw [hrest other hother] at hwaits
      cases hwaits
    · rw [show ((dsbt.bindNext claim).waiting rest).pending = rest from rfl,
        List.filter_eq_nil_iff.mpr fun other hother => by simp [hrest other hother]]
      exact .nil
  case inside => exact fun other hother => h.inside other (List.mem_cons_of_mem claim hother)
  case distinct => exact (hperm.map _).nodup_iff.mpr h.distinct
  case granted =>
    intro slot other hslot hother
    have hslot := (claimAt?_bindAt dsbt _ _ _).symm.trans hslot
    split at hslot
    · rw [← Option.some.inj hslot, hclaim] at hother
      cases hother
    · exact h.granted slot other hslot hother
  case cursor =>
    show dsbt.nextFree + 1 ≤ (dsbt.bindAt dsbt.nextFree claim).slots.length
    omega
  case full =>
    intro slot hlt
    refine (congrArg Option.isSome (claimAt?_bindAt dsbt dsbt.nextFree slot claim)).trans ?_
    split
    · rfl
    · have hlt : slot < dsbt.nextFree + 1 := hlt
      exact hbelow slot (by omega)
  case short =>
    have hshort : dsbt.slots.length ≤ UInt32.size := h.short
    show (dsbt.bindAt dsbt.nextFree claim).slots.length ≤ _
    rcases Nat.lt_or_eq_of_le hle with hlt | heq
    · omega
    · have hroom := h.length_lt (heq ▸ hbelow)
      omega

theorem Consistent.bindSpecifics {specific : List Claim}
    (hspecific : ∀ claim ∈ specific, claim.isSpecific)
    (h : (dsbt.waiting (specific ++ rest)).Consistent) : Binds (dsbt.waiting (specific ++ rest))
      ((specific.foldl (fun d claim => d.bindAt claim.requested.toNat claim) dsbt).waiting rest) := by
  induction specific generalizing dsbt with
  | nil => exact h.binds
  | cons claim specific ih =>
    obtain ⟨hclaim, hspecific⟩ := List.forall_mem_cons.mp hspecific
    have hbinds := h.bindSpecific hclaim
    exact hbinds.trans (ih hspecific hbinds.consistent)

theorem Consistent.bindGenerals {general : List Claim}
    (hgeneral : ∀ claim ∈ general, claim.isSpecific = false)
    (h : (dsbt.waiting general).Consistent) :
    Binds (dsbt.waiting general) ((general.foldl bindNext dsbt).waiting []) := by
  induction general generalizing dsbt with
  | nil => exact h.binds
  | cons claim general ih =>
    have hbinds := h.bindGeneral hgeneral
    exact hbinds.trans (ih (List.forall_mem_cons.mp hgeneral).2 hbinds.consistent)

/-- The order in which claims wait makes no difference to what is kept. -/
theorem Consistent.reorder (h : dsbt.Consistent) : Binds dsbt (dsbt.waiting
    (dsbt.pending.filter (·.isSpecific) ++ dsbt.pending.filter (!·.isSpecific))) := by
  have hperm : (dsbt.pending.filter (·.isSpecific) ++
      dsbt.pending.filter (!·.isSpecific)).Perm dsbt.pending :=
    List.filter_append_perm (·.isSpecific) dsbt.pending
  have hclaims := hperm.append_right (dsbt.entries.map (·.2))
  refine ⟨?_, hclaims, fun _ _ => id⟩
  constructor
  case unclashing =>
    refine ⟨fun claim hclaim => h.unclashing.free claim (hperm.mem_iff.mp hclaim), ?_⟩
    rw [waiting, List.filter_append, List.filter_filter, List.filter_filter]
    simpa using h.unclashing.apart
  case inside => exact fun claim hclaim => h.inside claim (hperm.mem_iff.mp hclaim)
  case distinct => exact (hclaims.map _).nodup_iff.mpr h.distinct
  case granted => exact h.granted
  case cursor => exact h.cursor
  case full => exact h.full
  case short => exact h.short

/-- An assignment binds all claims that wait and takes no slot away. -/
theorem Consistent.assign (h : dsbt.Consistent) : Binds dsbt dsbt.assign := by
  have hordered := h.reorder
  have hemptied : ((dsbt.waiting []).waiting (dsbt.pending.filter (·.isSpecific) ++
      dsbt.pending.filter (!·.isSpecific))).Consistent := hordered.consistent
  have hspecific := hemptied.bindSpecifics fun claim hclaim => (List.mem_filter.mp hclaim).2
  have hgeneral := hspecific.consistent.bindGenerals fun claim hclaim => by
    simpa using (List.mem_filter.mp hclaim).2
  have hassign : dsbt.assign.waiting [] = dsbt.assign := by
    rw [waiting, ← pending_assign dsbt]
  exact hassign ▸ (hordered.trans hspecific).trans hgeneral

/-! ## Registering and releasing -/

theorem not_knows_of_register {registered : Dsbt} (h : dsbt.register claim = .ok registered) :
    ∀ other ∈ dsbt.claims, other.handle ≠ claim.handle := by
  have hnew : dsbt.knows claim.handle = false := by
    unfold register at h
    split at h
    · cases h
    · rename_i hunknown
      exact Bool.eq_false_iff.mpr hunknown
  simp only [knows, Bool.or_eq_false_iff, List.any_eq_false, beq_iff_eq] at hnew
  intro other hother
  rcases List.mem_append.mp hother with hpending | hbound
  · exact hnew.1 other hpending
  · obtain ⟨entry, hentry, rfl⟩ := List.mem_map.mp hbound
    exact hnew.2 entry hentry

theorem inside_of_register {registered : Dsbt} (h : dsbt.register claim = .ok registered)
    (hspecific : claim.isSpecific) : claim.requested < claim.size := by
  unfold register conflict? at h
  rw [if_pos hspecific] at h
  split at h
  · cases h
  · split at h
    · cases h
    · rename_i hconflict
      split at hconflict
      · cases hconflict
      · exact UInt32.not_le.mp ‹¬_›

theorem perm_claims_register {registered : Dsbt} (h : dsbt.register claim = .ok registered) :
    registered.claims.Perm (claim :: dsbt.claims) := by
  rw [register_eq h, claims, List.append_assoc]
  exact List.perm_middle

theorem Consistent.register (h : dsbt.Consistent) {registered : Dsbt}
    (hregister : dsbt.register claim = .ok registered) : registered.Consistent := by
  have hnew := not_knows_of_register hregister
  have hinside := inside_of_register hregister
  have hunclashing := h.unclashing.register hregister
  have hclaims := perm_claims_register hregister
  obtain rfl := register_eq hregister
  constructor
  case unclashing => exact hunclashing
  case inside =>
    intro other hother hspecific
    rcases List.mem_append.mp hother with hold | hlast
    · exact h.inside other hold hspecific
    · obtain rfl := List.mem_singleton.mp hlast
      exact hinside hspecific
  case distinct =>
    refine ((hclaims.map (·.handle)).nodup_iff).mpr (List.nodup_cons.mpr ⟨?_, h.distinct⟩)
    intro hmem
    obtain ⟨other, hother, heq⟩ := List.mem_map.mp hmem
    exact hnew other hother heq
  case granted => exact h.granted
  case cursor => exact h.cursor
  case full => exact h.full
  case short => exact h.short

theorem claimAt?_release (dsbt : Dsbt) (handle : Handle) (slot : Nat) :
    (dsbt.release handle).claimAt? slot = (dsbt.claimAt? slot).filter (·.handle != handle) := by
  unfold claimAt? release
  simp only [List.getElem?_map]
  rcases dsbt.slots[slot]? with _ | _ | claim
  · rfl
  · rfl
  · by_cases hown : claim.handle = handle <;> simp [hown, Option.filter]

theorem claims_release (dsbt : Dsbt) (handle : Handle) :
    (dsbt.release handle).claims = dsbt.claims.filter (·.handle != handle) := by
  rw [claims, claims, List.filter_append, entries_release, pending_release, List.filter_map]
  rfl

/-- The cursor goes back to the slot of the module, if that is below it. -/
theorem firstFree_release_le (dsbt : Dsbt) (handle : Handle) :
    (dsbt.release handle).firstFree ≤ dsbt.firstFree ∧
      ∀ {slot}, slot < dsbt.slots.length → slot < (dsbt.release handle).firstFree →
        (dsbt.claimAt? slot).any (·.handle == handle) = false := by
  unfold release
  constructor
  · dsimp only
    split
    · exact Nat.min_le_left _ _
    · exact Nat.le_refl _
  · intro slot hlength hlt
    dsimp only at hlt
    have hbefore : slot < dsbt.slots.findIdx fun slot => slot.any (·.handle == handle) := by
      split at hlt
      · exact Nat.lt_of_lt_of_le hlt (Nat.min_le_right _ _)
      · omega
    have hother := List.not_of_lt_findIdx hbefore
    rw [claimAt?, List.getElem?_eq_getElem hlength]
    exact hother

theorem Consistent.release (h : dsbt.Consistent) (handle : Handle) :
    (dsbt.release handle).Consistent := by
  have hstays : ∀ slot claim, (dsbt.release handle).claimAt? slot = some claim →
      dsbt.claimAt? slot = some claim := by
    intro slot claim hslot
    rw [claimAt?_release] at hslot
    exact (Option.filter_eq_some_iff.mp hslot).1
  constructor
  case unclashing =>
    refine ⟨fun claim hclaim hspecific => ?_, ?_⟩
    · rw [claimAt?_release, h.unclashing.free claim (List.mem_filter.mp hclaim).1 hspecific]
      rfl
    · exact h.unclashing.apart.sublist (List.filter_sublist.filter _)
  case inside => exact fun claim hclaim => h.inside claim (List.mem_filter.mp hclaim).1
  case distinct =>
    rw [claims_release]
    exact h.distinct.sublist (List.filter_sublist.map _)
  case granted => exact fun slot claim hslot => h.granted slot claim (hstays slot claim hslot)
  case cursor =>
    rw [length_slots_release]
    exact Nat.le_trans (firstFree_release_le dsbt handle).1 h.cursor
  case full =>
    intro slot hlt
    obtain ⟨hle, hbefore⟩ := firstFree_release_le dsbt handle
    obtain ⟨claim, hclaim⟩ := Option.isSome_iff_exists.mp (h.full slot (Nat.lt_of_lt_of_le hlt hle))
    have hother := hbefore (lt_of_claimAt? hclaim) hlt
    rw [hclaim] at hother
    rw [claimAt?_release, hclaim]
    simpa [Option.filter] using hother
  case short => rw [length_slots_release]; exact h.short

/-! ## Runs -/

theorem serve_register {e : LoadError} (h : dsbt.register claim = .error e) :
    dsbt.serve (.register claim) = dsbt := by
  rw [serve, h]

theorem Consistent.serve (h : dsbt.Consistent) (request : Request) :
    (dsbt.serve request).Consistent := by
  cases request with
  | register claim =>
    rw [Dsbt.serve]
    split
    · exact h.register ‹_›
    · exact h
  | assign => exact h.assign.consistent
  | release handle => exact h.release handle

theorem Consistent.run (h : dsbt.Consistent) (requests : List Request) :
    (dsbt.run requests).Consistent := by
  induction requests generalizing dsbt with
  | nil => exact h
  | cons request requests ih => exact ih (h.serve request)

/-- A claim stays on the table until its handle is released, and in its slot once it has one. -/
theorem Consistent.stays (h : dsbt.Consistent) {request : Request}
    (hkept : request ≠ .release claim.handle) :
    (claim ∈ dsbt.claims → claim ∈ (dsbt.serve request).claims) ∧
      ∀ slot, dsbt.claimAt? slot = some claim → (dsbt.serve request).claimAt? slot = some claim := by
  cases request with
  | register other =>
    rw [Dsbt.serve]
    split
    · rename_i registered hregister
      obtain rfl := register_eq hregister
      refine ⟨fun hclaim => mem_claims.mpr ?_, fun _ => id⟩
      exact (mem_claims.mp hclaim).imp_left (List.mem_append_left [other])
    · exact ⟨id, fun _ => id⟩
  | assign =>
    have hbinds := h.assign
    exact ⟨hbinds.claims.mem_iff.mpr, fun slot => hbinds.kept slot claim⟩
  | release handle =>
    have hne : claim.handle ≠ handle := fun heq => hkept (heq ▸ rfl)
    rw [Dsbt.serve, claims_release]
    refine ⟨fun hclaim => List.mem_filter.mpr ⟨hclaim, by simpa using hne⟩, fun slot hslot => ?_⟩
    rw [claimAt?_release, hslot]
    simp [Option.filter, hne]

theorem Consistent.stays_run (h : dsbt.Consistent) {requests : List Request}
    (hkept : .release claim.handle ∉ requests) :
    (claim ∈ dsbt.claims → claim ∈ (dsbt.run requests).claims) ∧
      ∀ slot, dsbt.claimAt? slot = some claim → (dsbt.run requests).claimAt? slot = some claim := by
  induction requests generalizing dsbt with
  | nil => exact ⟨id, fun _ => id⟩
  | cons request requests ih =>
    obtain ⟨hrequest, hrequests⟩ := not_or.mp (mt List.mem_cons.mpr hkept)
    obtain ⟨hclaims, hslots⟩ := h.stays (Ne.symm hrequest)
    obtain ⟨hclaims', hslots'⟩ := ih (h.serve request) hrequests
    exact ⟨fun hclaim => hclaims' (hclaims hclaim), fun slot hslot => hslots' slot (hslots slot hslot)⟩

/-- After an assignment a claim that was on the table has a slot, and the one that it asked for. -/
theorem Consistent.bound (h : dsbt.Consistent) (hclaim : claim ∈ dsbt.claims) :
    ∃ slot, dsbt.assign.claimAt? slot = some claim ∧
      (claim.isSpecific → slot = claim.requested.toNat) := by
  have hbinds := h.assign
  have hassigned := hbinds.claims.mem_iff.mpr hclaim
  rw [mem_claims, pending_assign] at hassigned
  obtain ⟨slot, hslot⟩ := hassigned.resolve_left List.not_mem_nil
  exact ⟨slot, hslot, hbinds.consistent.granted slot claim hslot⟩

/-- After any run of registrations, assignments and releases on a new table: a slot holds the claim
whose index it is, and the index is a 32-bit number; no two claims have one handle; the specific claims
that wait ask for different slots, all of them free and inside the tables of their modules; a bound
claim stays in its slot until its handle is released, and a registered one is bound by the next
assignment, to the slot that it asked for if it asked for one; no claim waits after an assignment; and a
registration that is rejected changes nothing.

A bound claim notes no index, so that a slot holds the claim whose index it is comes with the
representation.  What the first part leaves to prove is that the two ways to ask agree: `Dsbt.index?`
searches the table for a handle and stops at the first claim of that handle, which is the claim of the
slot because no other slot holds one of that handle; and that no run grows the table beyond what a
32-bit number counts. -/
theorem run_slots (requests : List Request) :
    let dsbt := run {} requests
    (∀ slot claim, (slot, claim) ∈ dsbt.entries → dsbt.claimAt? slot = some claim ∧
      dsbt.index? claim.handle = some slot ∧ (UInt32.ofNat slot).toNat = slot) ∧
    ((dsbt.pending ++ dsbt.entries.map (·.2)).map (·.handle)).Nodup ∧
    (dsbt.pending.filter (·.isSpecific)).Pairwise (·.requested ≠ ·.requested) ∧
    (∀ claim ∈ dsbt.pending, claim.isSpecific →
      dsbt.claimAt? claim.requested.toNat = none ∧ claim.requested < claim.size) ∧
    (∀ slot claim later, (slot, claim) ∈ dsbt.entries → .release claim.handle ∉ later →
      (slot, claim) ∈ (dsbt.run later).entries) ∧
    (∀ claim registered later, dsbt.register claim = .ok registered →
      .release claim.handle ∉ later → ∃ slot, (slot, claim) ∈ (registered.run later).assign.entries ∧
        (claim.isSpecific → slot = claim.requested.toNat)) ∧
    dsbt.assign.pending = [] ∧
    ∀ claim e, dsbt.register claim = .error e → dsbt.serve (.register claim) = dsbt := by
  intro dsbt
  have h : dsbt.Consistent := consistent_empty.run requests
  refine ⟨fun slot claim hentry => ?_, h.distinct, h.unclashing.apart, fun claim hclaim hspecific => ?_,
    fun slot claim later hentry hkept => ?_, fun claim registered later hregister hkept => ?_,
    pending_assign dsbt, fun claim e => serve_register⟩
  · have hslot := mem_entries.mp hentry
    refine ⟨hslot, h.index?_eq_some_iff.mpr ⟨claim, hslot, rfl⟩, UInt32.toNat_ofNat_of_lt ?_⟩
    exact Nat.lt_of_lt_of_le (lt_of_claimAt? hslot) h.short
  · exact ⟨h.unclashing.free claim hclaim hspecific, h.inside claim hclaim hspecific⟩
  · exact mem_entries.mpr ((h.stays_run hkept).2 slot (mem_entries.mp hentry))
  · have hregistered := h.register hregister
    have hclaim : claim ∈ registered.claims :=
      (perm_claims_register hregister).mem_iff.mpr List.mem_cons_self
    obtain ⟨slot, hslot, hasked⟩ :=
      (hregistered.run later).bound ((hregistered.stays_run hkept).1 hclaim)
    exact ⟨slot, mem_entries.mpr hslot, hasked⟩

/-- A specific claim is served before a general one that was registered first, and a released slot is
used again. -/
example :
    let claim := fun handle requested => (⟨"m", handle, 8, 0, 0, requested⟩ : Claim)
    (run {} [.register (claim 1 anyIndex), .register (claim 2 0), .assign, .release 2,
      .register (claim 3 anyIndex), .assign]).entries = [(0, claim 3 anyIndex), (1, claim 1 anyIndex)] := by
  decide

end TargetLink.Dsbt
