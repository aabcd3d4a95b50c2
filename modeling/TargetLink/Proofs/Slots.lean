import TargetLink.Dsbt
import Mathlib.Data.List.Basic

/-!
# Slots stay with their modules

Waiting claims never clash: a claim on one slot waits only for a slot that is free, and no two of
them wait for the same one (`Dsbt.Unclashing`).  So binding the waiting claims adds entries and
overwrites none (`Dsbt.Unclashing.filter_entries_assign`), and releasing a module takes away its
entries and no others (`Dsbt.entries_release`).
-/

namespace TargetLink.Dsbt

variable {dsbt : Dsbt}

/-! ## Slots and entries -/

/-- The bound claims of a part of the table that begins at a position. -/
def entriesFrom (start : Nat) (slots : List (Option Claim)) : List (Nat × Claim) :=
  (slots.zipIdx start).filterMap fun (slot, index) => slot.map (index, ·)

theorem entries_eq (dsbt : Dsbt) : dsbt.entries = entriesFrom 0 dsbt.slots := rfl

@[simp] theorem entriesFrom_nil (start : Nat) : entriesFrom start [] = [] := rfl

@[simp] theorem entriesFrom_cons_none (start : Nat) (slots : List (Option Claim)) :
    entriesFrom start (none :: slots) = entriesFrom (start + 1) slots := rfl

@[simp] theorem entriesFrom_cons_some (start : Nat) (claim : Claim) (slots : List (Option Claim)) :
    entriesFrom start (some claim :: slots) = (start, claim) :: entriesFrom (start + 1) slots := rfl

theorem entriesFrom_append_none (start count : Nat) (slots : List (Option Claim)) :
    entriesFrom start (slots ++ List.replicate count none) = entriesFrom start slots := by
  induction slots generalizing start with
  | nil =>
    induction count generalizing start with
    | zero => rfl
    | succ count ih => exact ih (start + 1)
  | cons slot slots ih =>
    cases slot with
    | none => exact ih (start + 1)
    | some claim => exact congrArg ((start, claim) :: ·) (ih (start + 1))

theorem entriesFrom_map_free (start : Nat) (isOwn : Claim → Bool) (slots : List (Option Claim)) :
    entriesFrom start (slots.map fun slot => if slot.any isOwn then none else slot) =
      (entriesFrom start slots).filter (!isOwn ·.2) := by
  induction slots generalizing start with
  | nil => rfl
  | cons slot slots ih =>
    cases slot with
    | none => simpa using ih (start + 1)
    | some claim => cases hown : isOwn claim <;> simp [hown, ih]

/-- A claim that is put into a free slot adds its own entry only. -/
theorem filter_entriesFrom_set (keep : Claim → Bool) {claim : Claim} (hkeep : keep claim = false)
    (start index : Nat) (slots : List (Option Claim)) (hfree : slots[index]?.join = none) :
    (entriesFrom start (slots.set index (some claim))).filter (keep ·.2) =
      (entriesFrom start slots).filter (keep ·.2) := by
  induction slots generalizing start index with
  | nil => rfl
  | cons slot slots ih =>
    cases index with
    | zero =>
      have hslot : slot = none := by simpa using hfree
      simp [hslot, hkeep]
    | succ index =>
      have hrest := ih (start + 1) index (by simpa using hfree)
      cases slot with
      | none => simpa using hrest
      | some other => cases hother : keep other <;> simp [hother, hrest]

/-- Binding a claim changes what its own slot holds. -/
theorem claimAt?_bindAt (dsbt : Dsbt) (index other : Nat) (claim : Claim) :
    (dsbt.bindAt index claim).claimAt? other =
      if other = index then some claim else dsbt.claimAt? other := by
  unfold claimAt? bindAt
  simp only [List.getElem?_set, List.length_append, List.length_replicate]
  by_cases hother : other = index
  · subst hother
    have hroom : other < dsbt.slots.length + (other + 1 - dsbt.slots.length) := by omega
    simp [hroom]
  · rw [if_neg (Ne.symm hother), if_neg hother, List.getElem?_append]
    split
    · rfl
    · rename_i hbehind
      rw [List.getElem?_replicate, List.getElem?_eq_none (by omega)]
      split <;> rfl

theorem filter_entries_bindAt (keep : Claim → Bool) {claim : Claim} (hkeep : keep claim = false)
    {index : Nat} (hfree : dsbt.claimAt? index = none) :
    (dsbt.bindAt index claim).entries.filter (keep ·.2) = dsbt.entries.filter (keep ·.2) := by
  have hgrown : (dsbt.slots ++
      List.replicate (index + 1 - dsbt.slots.length) none)[index]?.join = none := by
    rw [List.getElem?_append]
    split
    · exact hfree
    · rw [List.getElem?_replicate]
      split <;> rfl
  rw [entries_eq, entries_eq, bindAt, filter_entriesFrom_set keep hkeep 0 index _ hgrown,
    entriesFrom_append_none]

theorem join_getElem?_takeWhile_isSome (slots : List (Option Claim)) :
    slots[(slots.takeWhile (·.isSome)).length]?.join = none := by
  induction slots with
  | nil => rfl
  | cons slot slots ih =>
    cases slot with
    | none => rfl
    | some claim => simpa using ih

theorem claimAt?_nextFree (dsbt : Dsbt) : dsbt.claimAt? dsbt.nextFree = none := by
  unfold claimAt? nextFree
  rw [← List.getElem?_drop]
  exact join_getElem?_takeWhile_isSome _

theorem filter_entries_bindNext (keep : Claim → Bool) {claim : Claim} (hkeep : keep claim = false)
    (dsbt : Dsbt) : (dsbt.bindNext claim).entries.filter (keep ·.2) =
      dsbt.entries.filter (keep ·.2) :=
  filter_entries_bindAt keep hkeep dsbt.claimAt?_nextFree

/-! ## Waiting claims -/

/-- Claims that wait for one slot wait for different free slots. -/
structure Unclashing (dsbt : Dsbt) : Prop where
  free : ∀ claim ∈ dsbt.pending, claim.isSpecific → dsbt.claimAt? claim.requested.toNat = none
  apart : (dsbt.pending.filter (·.isSpecific)).Pairwise (·.requested ≠ ·.requested)

theorem unclashing_of_pending (h : dsbt.pending = []) : dsbt.Unclashing := by
  constructor
  · simp [h]
  · simp [h]

theorem register_eq {claim : Claim} {registered : Dsbt} (h : dsbt.register claim = .ok registered) :
    registered = { dsbt with pending := dsbt.pending ++ [claim] } := by
  unfold register at h
  split at h
  · cases h
  · split at h
    · cases h
    · exact (Except.ok.inj h).symm

/-- A specific claim that is registered asks for a free slot that no other claim waits for. -/
theorem free_of_register {claim : Claim} {registered : Dsbt}
    (h : dsbt.register claim = .ok registered) (hspecific : claim.isSpecific) :
    dsbt.claimAt? claim.requested.toNat = none ∧
      ∀ other ∈ dsbt.pending, other.requested ≠ claim.requested := by
  have hconflict : dsbt.conflict? claim = none := by
    unfold register at h
    rw [if_pos hspecific] at h
    split at h
    · cases h
    · split at h
      · cases h
      · assumption
  unfold conflict? at hconflict
  split at hconflict
  · cases hconflict
  · split at hconflict
    · cases hconflict
    · rename_i hfind
      refine ⟨Option.map_eq_none_iff.mp hconflict, fun other hother => ?_⟩
      simpa using List.find?_eq_none.mp hfind other hother

theorem Unclashing.register (h : dsbt.Unclashing) {claim : Claim} {registered : Dsbt}
    (hregister : dsbt.register claim = .ok registered) : registered.Unclashing := by
  have hclaim := free_of_register hregister
  rw [register_eq hregister]
  constructor
  · intro other hother hspecific
    rcases List.mem_append.mp hother with hold | hnew
    · exact h.free other hold hspecific
    · obtain rfl := List.mem_singleton.mp hnew
      exact (hclaim hspecific).1
  · rw [List.filter_append, List.pairwise_append]
    refine ⟨h.apart, List.Pairwise.sublist List.filter_sublist (List.pairwise_singleton ..), ?_⟩
    intro other hother new hnew
    obtain ⟨hnew, hspecific⟩ := List.mem_filter.mp hnew
    obtain rfl := List.mem_singleton.mp hnew
    exact (hclaim hspecific).2 other (List.mem_filter.mp hother).1

/-! ## Binding all waiting claims -/

/-- Claims on different free slots are bound without touching an entry. -/
theorem filter_entries_bindSpecific (keep : Claim → Bool) (claims : List Claim)
    (hkeep : ∀ claim ∈ claims, keep claim = false)
    (hfree : ∀ claim ∈ claims, dsbt.claimAt? claim.requested.toNat = none)
    (hapart : claims.Pairwise (·.requested ≠ ·.requested)) :
    (claims.foldl (fun d claim => d.bindAt claim.requested.toNat claim) dsbt).entries.filter
        (keep ·.2) = dsbt.entries.filter (keep ·.2) := by
  induction claims generalizing dsbt with
  | nil => rfl
  | cons claim claims ih =>
    obtain ⟨hother, hrest⟩ := List.pairwise_cons.mp hapart
    have hbound := filter_entries_bindAt keep (hkeep claim List.mem_cons_self)
      (hfree claim List.mem_cons_self)
    rw [List.foldl_cons, ← hbound]
    refine ih (fun c hc => hkeep c (List.mem_cons_of_mem claim hc)) (fun c hc => ?_) hrest
    have hne : c.requested.toNat ≠ claim.requested.toNat :=
      fun heq => hother c hc (UInt32.toNat_inj.mp heq.symm)
    rw [claimAt?_bindAt, if_neg hne]
    exact hfree c (List.mem_cons_of_mem claim hc)

theorem filter_entries_bindGeneral (keep : Claim → Bool) (claims : List Claim)
    (hkeep : ∀ claim ∈ claims, keep claim = false) (dsbt : Dsbt) :
    (claims.foldl bindNext dsbt).entries.filter (keep ·.2) = dsbt.entries.filter (keep ·.2) := by
  induction claims generalizing dsbt with
  | nil => rfl
  | cons claim claims ih =>
    rw [List.foldl_cons, ih (fun c hc => hkeep c (List.mem_cons_of_mem claim hc))]
    exact filter_entries_bindNext keep (hkeep claim List.mem_cons_self) dsbt

/-- Binding the waiting claims keeps every entry and adds entries of waiting claims only. -/
theorem Unclashing.filter_entries_assign (h : dsbt.Unclashing) (keep : Claim → Bool)
    (hkeep : ∀ claim ∈ dsbt.pending, keep claim = false) :
    dsbt.assign.entries.filter (keep ·.2) = dsbt.entries.filter (keep ·.2) := by
  have hfilter : ∀ p : Claim → Bool, ∀ claim ∈ dsbt.pending.filter p, keep claim = false :=
    fun p claim hclaim => hkeep claim (List.mem_filter.mp hclaim).1
  unfold assign
  rw [filter_entries_bindGeneral keep _ (hfilter _)]
  refine filter_entries_bindSpecific keep _ (hfilter _) (fun claim hclaim => ?_) h.apart
  obtain ⟨hmem, hspecific⟩ := List.mem_filter.mp hclaim
  exact h.free claim hmem hspecific

theorem pending_foldl {step : Dsbt → Claim → Dsbt}
    (hstep : ∀ d claim, (step d claim).pending = d.pending) (claims : List Claim) (dsbt : Dsbt) :
    (claims.foldl step dsbt).pending = dsbt.pending := by
  induction claims generalizing dsbt with
  | nil => rfl
  | cons claim claims ih => rw [List.foldl_cons, ih, hstep]

@[simp] theorem pending_assign (dsbt : Dsbt) : dsbt.assign.pending = [] := by
  unfold assign
  refine (pending_foldl (fun _ _ => ?_) _ _).trans (pending_foldl (fun _ _ => ?_) _ _)
  · rfl
  · rfl

/-! ## Releasing a module -/

theorem entries_release (dsbt : Dsbt) (handle : Handle) :
    (dsbt.release handle).entries = dsbt.entries.filter (·.2.handle != handle) :=
  entriesFrom_map_free 0 (·.handle == handle) dsbt.slots

@[simp] theorem pending_release (dsbt : Dsbt) (handle : Handle) :
    (dsbt.release handle).pending = dsbt.pending.filter (·.handle != handle) := rfl

/-! ## The length of the table -/

theorem length_slots_bindAt (dsbt : Dsbt) (index : Nat) (claim : Claim) :
    dsbt.slots.length ≤ (dsbt.bindAt index claim).slots.length := by
  simp only [bindAt, List.length_set, List.length_append]
  omega

theorem length_slots_foldl {step : Dsbt → Claim → Dsbt}
    (hstep : ∀ d claim, d.slots.length ≤ (step d claim).slots.length) (claims : List Claim)
    (dsbt : Dsbt) : dsbt.slots.length ≤ (claims.foldl step dsbt).slots.length := by
  induction claims generalizing dsbt with
  | nil => exact Nat.le_refl _
  | cons claim claims ih => exact Nat.le_trans (hstep dsbt claim) (ih _)

/-- Binding claims never makes the table shorter. -/
theorem length_slots_assign (dsbt : Dsbt) : dsbt.slots.length ≤ dsbt.assign.slots.length := by
  have hgeneral : ∀ d claim, d.slots.length ≤ (bindNext d claim).slots.length :=
    fun d claim => length_slots_bindAt d d.nextFree claim
  refine Nat.le_trans ?_ (length_slots_foldl hgeneral _ _)
  exact length_slots_foldl (fun d claim => length_slots_bindAt d claim.requested.toNat claim)
    (dsbt.pending.filter (·.isSpecific)) { dsbt with pending := [] }

/-- Where no claim waits there is nothing to bind. -/
theorem assign_of_pending (h : dsbt.pending = []) : dsbt.assign = dsbt := by
  cases dsbt
  simp_all [assign]

theorem slots_assign_of_pending (h : dsbt.pending = []) : dsbt.assign.slots = dsbt.slots := by
  rw [assign_of_pending h]

@[simp] theorem length_slots_release (dsbt : Dsbt) (handle : Handle) :
    (dsbt.release handle).slots.length = dsbt.slots.length :=
  List.length_map _

theorem le_of_mem_entriesFrom {start : Nat} {slots : List (Option Claim)} {entry : Nat × Claim}
    (h : entry ∈ entriesFrom start slots) : start ≤ entry.1 := by
  induction slots generalizing start with
  | nil => cases h
  | cons slot slots ih =>
    cases slot with
    | none =>
      rw [entriesFrom_cons_none] at h
      have := ih h
      omega
    | some claim =>
      rw [entriesFrom_cons_some] at h
      cases h with
      | head => exact Nat.le_refl start
      | tail _ h =>
        have := ih h
        omega

/-- A table that is longer and has the same entries has free slots behind the old ones. -/
theorem eq_append_free {start : Nat} {slots longer : List (Option Claim)}
    (hentries : entriesFrom start longer = entriesFrom start slots)
    (hlength : slots.length ≤ longer.length) :
    longer = slots ++ List.replicate (longer.length - slots.length) none := by
  induction longer generalizing start slots with
  | nil =>
    obtain rfl := List.length_eq_zero_iff.mp (Nat.le_zero.mp hlength)
    rfl
  | cons slot longer ih =>
    cases slots with
    | nil =>
      cases slot with
      | none => simpa [List.replicate_succ] using @ih _ [] hentries (Nat.zero_le _)
      | some claim => cases hentries
    | cons old slots =>
      have hrest := Nat.le_of_succ_le_succ hlength
      -- an entry of the rest lies behind the first slot, so the first slots hold the same
      have hbehind : ∀ (claim : Claim) (rest rest' : List (Option Claim)),
          entriesFrom (start + 1) rest ≠ (start, claim) :: entriesFrom (start + 1) rest' := by
        intro claim rest rest' heq
        have hmem : (start, claim) ∈ entriesFrom (start + 1) rest := heq ▸ List.mem_cons_self
        have := le_of_mem_entriesFrom hmem
        omega
      cases slot with
      | none =>
        cases old with
        | none => simpa using ih hentries hrest
        | some claim => exact absurd hentries (hbehind claim longer slots)
      | some claim =>
        cases old with
        | none => exact absurd hentries.symm (hbehind claim slots longer)
        | some other =>
          rw [entriesFrom_cons_some, entriesFrom_cons_some, List.cons.injEq, Prod.mk.injEq] at hentries
          obtain ⟨⟨-, rfl⟩, hentries⟩ := hentries
          simpa using ih hentries hrest

theorem table_congr {other : Dsbt} (h : other.slots = dsbt.slots) : other.table = dsbt.table := by
  rw [table, table, h]

theorem table_append_free {longer : Dsbt} {free : Nat}
    (h : longer.slots = dsbt.slots ++ List.replicate free none) :
    longer.table = dsbt.table ++ List.replicate free 0 := by
  simp [table, h]

end TargetLink.Dsbt
