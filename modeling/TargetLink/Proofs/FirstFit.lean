import TargetLink.Proofs.SlotRuns
import Mathlib.Data.Nat.Nth

/-!
# General claims take the first free slots

A claim on any slot is bound at a cursor that skips bound slots, is left behind by specific claims and
goes back when a slot below it is released.  None of this shows.  All slots below the cursor are bound
(`Dsbt.Consistent.full`), so the cursor comes to the slot that a scan of the whole table from slot zero
finds (`Dsbt.Consistent.slots_bindNext`), and an assignment fills slots one scan after the other
(`Dsbt.Consistent.slots_assign`).

The slots that the specific claims of an assignment leave free (`Dsbt.IsSpare`) have an order; there are
infinitely many of them, since a table can grow.  The general claims get the first ones, in the order of
their registration (`Dsbt.run_first_fit`).
-/

namespace TargetLink.Dsbt

/-! ## Scans from the first slot -/

/-- Slots with a claim in the first free one. They become longer only if none is free. -/
def putFirst (claim : Claim) : List (Option Claim) → List (Option Claim)
  | [] => [some claim]
  | none :: slots => some claim :: slots
  | some other :: slots => some other :: putFirst claim slots

/-- A slot of a table is free; so are all slots behind its end. -/
def IsFree (slots : List (Option Claim)) (slot : Nat) : Prop := slots[slot]?.join = none

variable {slots : List (Option Claim)} {slot index : Nat} {claim other : Claim}

/-- A table whose slots below a free one are bound gets its next claim there. -/
theorem putFirst_eq_set (hfree : IsFree slots index) (hbound : ∀ slot < index, ¬ IsFree slots slot) :
    putFirst claim slots =
      (slots ++ List.replicate (index + 1 - slots.length) none).set index (some claim) := by
  induction slots generalizing index with
  | nil =>
    cases index with
    | zero => rfl
    | succ index => exact absurd rfl (hbound 0 (Nat.succ_pos index))
  | cons first slots ih =>
    cases index with
    | zero =>
      obtain rfl : first = none := hfree
      simp [putFirst]
    | succ index =>
      obtain ⟨other, rfl⟩ : ∃ other, first = some other :=
        Option.ne_none_iff_exists'.mp (hbound 0 (Nat.succ_pos index))
      have hfreeRest : IsFree slots index := hfree
      have hrest := ih hfreeRest fun slot hlt => hbound (slot + 1) (by omega)
      simpa [putFirst] using hrest

/-! ## Free slots in order -/

theorem infinite_isFree (slots : List (Option Claim)) : (Set.ofPred (IsFree slots)).Infinite := by
  refine Set.infinite_of_forall_exists_gt fun slot => ⟨max slots.length (slot + 1), ?_, by omega⟩
  show slots[max slots.length (slot + 1)]?.join = none
  rw [List.getElem?_eq_none (Nat.le_max_left _ _)]
  rfl

/-- The first free slot comes before every other one. -/
theorem not_isFree_of_lt_nth_zero (h : slot < Nat.nth (IsFree slots) 0) : ¬ IsFree slots slot := by
  intro hfree
  rw [Nat.nth_zero] at h
  exact Nat.notMem_of_lt_sInf h hfree

theorem isFree_nth (slots : List (Option Claim)) (i : Nat) :
    IsFree slots (Nat.nth (IsFree slots) i) :=
  Nat.nth_mem_of_infinite (infinite_isFree slots) i

/-- A scan changes what the first free slot holds. -/
theorem getElem?_putFirst (claim : Claim) (slots : List (Option Claim)) (slot : Nat) :
    (putFirst claim slots)[slot]?.join =
      if slot = Nat.nth (IsFree slots) 0 then some claim else slots[slot]?.join := by
  rw [putFirst_eq_set (isFree_nth slots 0) fun _ => not_isFree_of_lt_nth_zero]
  exact claimAt?_bindAt { slots } _ slot claim

/-- The other free slots move up by one. -/
theorem nth_putFirst (claim : Claim) (slots : List (Option Claim)) (i : Nat) :
    Nat.nth (IsFree (putFirst claim slots)) i = Nat.nth (IsFree slots) (i + 1) := by
  have hinfinite := infinite_isFree slots
  have hmono := Nat.nth_strictMono hinfinite
  have hstill (slot : Nat) : IsFree (putFirst claim slots) slot ↔
      slot ≠ Nat.nth (IsFree slots) 0 ∧ IsFree slots slot := by
    rw [IsFree, getElem?_putFirst]
    split <;> simp_all [IsFree]
  have hrange : Set.range (Nat.nth (IsFree (putFirst claim slots))) =
      Set.range fun i => Nat.nth (IsFree slots) (i + 1) := by
    rw [Nat.range_nth_of_infinite (infinite_isFree _)]
    ext slot
    constructor
    · intro hfree
      obtain ⟨hne, hold⟩ := (hstill slot).mp hfree
      obtain ⟨j, rfl⟩ : slot ∈ Set.range (Nat.nth (IsFree slots)) :=
        Nat.range_nth_of_infinite hinfinite ▸ hold
      cases j with
      | zero => exact absurd rfl hne
      | succ j => exact ⟨j, rfl⟩
    · rintro ⟨j, rfl⟩
      exact (hstill _).mpr ⟨(hmono (Nat.succ_pos j)).ne', isFree_nth slots (j + 1)⟩
  have hmono' : StrictMono fun i => Nat.nth (IsFree slots) (i + 1) :=
    fun _ _ hlt => hmono (Nat.succ_lt_succ hlt)
  exact congrFun (((Nat.nth_strictMono (infinite_isFree _)).range_inj hmono').mp hrange) i

/-- Scans for one claim after the other give them the first free slots, in their order. -/
theorem getElem?_foldl_putFirst (claims : List Claim) (slots : List (Option Claim)) (slot : Nat)
    (claim : Claim) :
    (claims.foldl (fun slots claim => putFirst claim slots) slots)[slot]?.join = some claim ↔
      slots[slot]?.join = some claim ∨
        ∃ i, claims[i]? = some claim ∧ slot = Nat.nth (IsFree slots) i := by
  induction claims generalizing slots with
  | nil => simp
  | cons first claims ih =>
    rw [List.foldl_cons, ih, getElem?_putFirst]
    constructor
    · rintro (hslot | ⟨i, hclaim, rfl⟩)
      · split at hslot
        · exact Or.inr ⟨0, hslot, ‹_›⟩
        · exact Or.inl hslot
      · exact Or.inr ⟨i + 1, hclaim, nth_putFirst first slots i⟩
    · rintro (hslot | ⟨i, hclaim, rfl⟩)
      · have hne : slot ≠ Nat.nth (IsFree slots) 0 := by
          rintro rfl
          rw [isFree_nth slots 0] at hslot
          cases hslot
        exact Or.inl ((if_neg hne).trans hslot)
      · cases i with
        | zero => exact Or.inl ((if_pos rfl).trans hclaim)
        | succ i => exact Or.inr ⟨i, hclaim, (nth_putFirst first slots i).symm⟩

/-! ## The cursor -/

variable {dsbt : Dsbt} {claims rest : List Claim}

/-- Where all slots below the cursor are bound, the cursor comes to the slot that a scan finds. -/
theorem Consistent.slots_bindNext (h : (dsbt.waiting rest).Consistent) (claim : Claim) :
    (dsbt.bindNext claim).slots = putFirst claim dsbt.slots := by
  refine (putFirst_eq_set dsbt.claimAt?_nextFree fun slot hlt hfree => ?_).symm
  have hbound : (dsbt.claimAt? slot).isSome := h.nextFree.2 slot hlt
  rw [show dsbt.claimAt? slot = none from hfree] at hbound
  cases hbound

/-- The table after the specific claims that wait were bound. -/
def withSpecific (dsbt : Dsbt) : Dsbt :=
  (dsbt.pending.filter (·.isSpecific)).foldl (fun d claim => d.bindAt claim.requested.toNat claim)
    (dsbt.waiting [])

/-- The claims that wait for any slot, in the order of their registration. -/
def generalClaims (dsbt : Dsbt) : List Claim := dsbt.pending.filter (!·.isSpecific)

theorem Consistent.slots_bindGenerals (hgeneral : ∀ claim ∈ claims, claim.isSpecific = false)
    (h : (dsbt.waiting claims).Consistent) :
    (claims.foldl bindNext dsbt).slots =
      claims.foldl (fun slots claim => putFirst claim slots) dsbt.slots := by
  induction claims generalizing dsbt with
  | nil => rfl
  | cons claim claims ih =>
    have hbinds := h.bindGeneral hgeneral
    rw [List.foldl_cons, ih (List.forall_mem_cons.mp hgeneral).2 hbinds.consistent, List.foldl_cons,
      h.slots_bindNext claim]

/-- An assignment scans for one general claim after the other. -/
theorem Consistent.slots_assign (h : dsbt.Consistent) : dsbt.assign.slots =
    dsbt.generalClaims.foldl (fun slots claim => putFirst claim slots) dsbt.withSpecific.slots := by
  have hordered : ((dsbt.waiting []).waiting (dsbt.pending.filter (·.isSpecific) ++
      dsbt.generalClaims)).Consistent := h.reorder.consistent
  have hspecific := hordered.bindSpecifics fun claim hclaim => (List.mem_filter.mp hclaim).2
  exact hspecific.consistent.slots_bindGenerals fun claim hclaim => by
    simpa using (List.mem_filter.mp hclaim).2

/-! ## What specific claims leave -/

/-- A slot that is free and that no specific claim waits for. -/
def IsSpare (dsbt : Dsbt) (slot : Nat) : Prop :=
  dsbt.claimAt? slot = none ∧
    ∀ claim ∈ dsbt.pending, claim.isSpecific → claim.requested.toNat ≠ slot

/-- Claims on different free slots, bound one after the other. -/
theorem claimAt?_bindSpecifics (hapart : claims.Pairwise (·.requested ≠ ·.requested))
    (hfree : ∀ claim ∈ claims, dsbt.claimAt? claim.requested.toNat = none) :
    (claims.foldl (fun d claim => d.bindAt claim.requested.toNat claim) dsbt).claimAt? slot =
      some claim ↔
    dsbt.claimAt? slot = some claim ∨ claim ∈ claims ∧ claim.requested.toNat = slot := by
  induction claims generalizing dsbt with
  | nil => simp
  | cons first claims ih =>
    obtain ⟨hfirst, hapart⟩ := List.pairwise_cons.mp hapart
    obtain ⟨hfreeFirst, hfree⟩ := List.forall_mem_cons.mp hfree
    have hstill : ∀ claim ∈ claims,
        (dsbt.bindAt first.requested.toNat first).claimAt? claim.requested.toNat = none := by
      intro claim hclaim
      rw [claimAt?_bindAt, if_neg fun heq => hfirst claim hclaim (UInt32.toNat_inj.mp heq.symm)]
      exact hfree claim hclaim
    rw [List.foldl_cons, ih hapart hstill, claimAt?_bindAt]
    grind

theorem Consistent.claimAt?_withSpecific (h : dsbt.Consistent) (slot : Nat) (claim : Claim) :
    dsbt.withSpecific.claimAt? slot = some claim ↔ dsbt.claimAt? slot = some claim ∨
      claim ∈ dsbt.pending ∧ claim.isSpecific ∧ claim.requested.toNat = slot := by
  have hfree : ∀ claim ∈ dsbt.pending.filter (·.isSpecific),
      (dsbt.waiting []).claimAt? claim.requested.toNat = none := by
    intro claim hclaim
    obtain ⟨hwaits, hspecific⟩ := List.mem_filter.mp hclaim
    exact h.unclashing.free claim hwaits hspecific
  refine (claimAt?_bindSpecifics h.unclashing.apart hfree).trans ?_
  rw [List.mem_filter, and_assoc]
  rfl

theorem Consistent.isFree_withSpecific (h : dsbt.Consistent) :
    IsFree dsbt.withSpecific.slots = dsbt.IsSpare := by
  funext slot
  have hbound := h.claimAt?_withSpecific slot
  refine propext ⟨fun hfree => ⟨?_, fun claim hwaits hspecific hasked => ?_⟩, fun hspare => ?_⟩
  · refine Option.eq_none_iff_forall_ne_some.mpr fun claim hclaim => ?_
    cases hfree.symm.trans ((hbound claim).mpr (Or.inl hclaim))
  · cases hfree.symm.trans ((hbound claim).mpr (Or.inr ⟨hwaits, hspecific, hasked⟩))
  · refine Option.eq_none_iff_forall_ne_some.mpr fun claim hclaim => ?_
    rcases (hbound claim).mp hclaim with hold | ⟨hwaits, hspecific, hasked⟩
    · cases hspare.1.symm.trans hold
    · exact hspare.2 claim hwaits hspecific hasked

/-- After any run of registrations, assignments and releases on a new table: all slots below the cursor
are bound, and the cursor is not behind the end of the table.  An assignment fills the slots that a scan of
the whole table from the first slot finds for one general claim after the other, in the order of their
registration; a scan makes the table longer, by one slot, only if none is free.  So the bound claims stay,
the specific claims get the slots they ask for, and of all slots that this leaves free the first general
claim gets the lowest one, the second one the next, and so on. -/
theorem run_first_fit (requests : List Request) :
    let dsbt := run {} requests
    dsbt.firstFree ≤ dsbt.slots.length ∧
    (∀ slot < dsbt.firstFree, (dsbt.claimAt? slot).isSome) ∧
    dsbt.assign.slots =
      dsbt.generalClaims.foldl (fun slots claim => putFirst claim slots) dsbt.withSpecific.slots ∧
    ∀ slot claim, dsbt.assign.claimAt? slot = some claim ↔
      dsbt.claimAt? slot = some claim ∨
      (claim ∈ dsbt.pending ∧ claim.isSpecific ∧ claim.requested.toNat = slot) ∨
      ∃ i, dsbt.generalClaims[i]? = some claim ∧ slot = Nat.nth dsbt.IsSpare i := by
  intro dsbt
  have h : dsbt.Consistent := consistent_empty.run requests
  refine ⟨h.cursor, h.full, h.slots_assign, fun slot claim => ?_⟩
  have hfolded := getElem?_foldl_putFirst dsbt.generalClaims dsbt.withSpecific.slots slot claim
  rw [← h.slots_assign, h.isFree_withSpecific] at hfolded
  exact hfolded.trans ((or_congr_left (h.claimAt?_withSpecific slot claim)).trans or_assoc)

end TargetLink.Dsbt
