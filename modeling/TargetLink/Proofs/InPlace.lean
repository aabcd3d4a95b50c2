import TargetLink.Proofs.Layouts
import TargetLink.Proofs.Steps
import TargetLink.Relocation.InPlace

/-!
# Relocating in place stores all or nothing

A relocation in place may store the halves of an instruction one after the other, each store with a
check of its own.  No store fails after another one has succeeded: the cell was read before, and what
can be read lies inside the segment (`Cell.fits_of_read`).  So relocating in place comes to the same as
relocating at once (`patchInPlace_eq`), and a relocation that fails has stored nothing.
-/

namespace TargetLink

namespace Bytes

/-- Two stretches that are stored one behind the other are stored as one. -/
theorem overwrite_overwrite (block : Bytes) (offset : Nat) (front back : Bytes) :
    (block.overwrite offset front).overwrite (offset + front.length) back =
      block.overwrite offset (front ++ back) := by
  refine ext_inside (by simp) fun i hi => ?_
  simp only [length_overwrite] at hi
  rw [getElem?_overwrite _ _ _ _ (by rwa [length_overwrite]), getElem?_overwrite _ _ _ _ hi,
    getElem?_overwrite _ _ _ _ hi, List.length_append]
  by_cases hfront : i < offset + front.length
  · rw [if_neg (by omega)]
    by_cases hlow : offset ≤ i
    · rw [if_pos ⟨hlow, hfront⟩, if_pos (by omega), List.getElem?_append_left (by omega)]
    · rw [if_neg (by omega), if_neg (by omega)]
  · by_cases hback : i < offset + front.length + back.length
    · rw [if_pos (by omega), if_pos (by omega), List.getElem?_append_right (by omega)]
      congr 1
      omega
    · rw [if_neg (by omega), if_neg (by omega), if_neg (by omega)]

end Bytes

namespace Relocation

/-! ## In place and at once -/

/-- What becomes of a segment whose new contents are answered at once. -/
def settle (bytes : Bytes) : Except LoadError Bytes → Except LoadError Unit × Bytes
  | .ok after => (.ok (), after)
  | .error e => (.error e, bytes)

variable {order : ByteOrder} {offset : Nat} {bytes : Bytes}

/-- A check that leaves the segment alone comes before the same steps on both sides. -/
theorem settle_bind {α : Type} {result : Except LoadError α} {next : α → LoadM Bytes Unit}
    {answer : α → Except LoadError Bytes}
    (h : ∀ a, result = .ok a → next a bytes = settle bytes (answer a)) :
    ((MonadExcept.ofExcept result : LoadM Bytes α) >>= next) bytes =
      settle bytes (result >>= answer) := by
  rw [LoadM.bind_apply, LoadM.ofExcept_apply]
  cases result with
  | error e => rfl
  | ok a => exact h a rfl

namespace Cell

variable {cell : Cell}

theorem fits_of_unit {width n : Nat} (h : unit bytes order offset width = .ok n) :
    offset + width ≤ bytes.length := by
  unfold unit Bytes.window at h
  by_contra hlong
  rw [if_neg hlong] at h
  cases h

/-- A cell that can be read lies inside the segment. -/
theorem fits_of_read {site : Site} {contents : BitVec 32} (h : cell.read site = .ok contents) :
    site.offset + cell.size ≤ site.bytes.length := by
  cases cell with
  | byte =>
    obtain ⟨n, hunit, -⟩ := exists_of_bind_eq_ok h
    exact fits_of_unit hunit
  | half =>
    obtain ⟨n, hunit, -⟩ := exists_of_bind_eq_ok h
    exact fits_of_unit hunit
  | word =>
    obtain ⟨n, hunit, -⟩ := exists_of_bind_eq_ok h
    exact fits_of_unit hunit
  | thumbPair =>
    obtain ⟨first, -, hrest⟩ := exists_of_bind_eq_ok h
    obtain ⟨second, hunit, -⟩ := exists_of_bind_eq_ok hrest
    have hsecond : site.offset + 2 + 2 ≤ site.bytes.length := fits_of_unit hunit
    exact hsecond

theorem storeUnit_apply {width : Nat} (hfit : offset + width ≤ bytes.length) (n : Nat) :
    storeUnit order offset width n bytes =
      (.ok (), bytes.overwrite offset (order.encode width n)) := by
  rw [storeUnit, LoadM.bind_apply]
  simp only [LoadM.get_apply, if_pos hfit, LoadM.set_apply]

/-- The halfwords of a 32-bit Thumb instruction may be stored one after the other. -/
theorem write_thumbPair (bytes : Bytes) (offset : Nat) (order : ByteOrder) (contents : BitVec 32) :
    thumbPair.write ⟨bytes, offset, order⟩ contents =
      (bytes.overwrite offset (order.encode 2 (contents.toNat / 0x10000))).overwrite (offset + 2)
        (order.encode 2 (contents.toNat % 0x10000)) := by
  have hboth := bytes.overwrite_overwrite offset (order.encode 2 (contents.toNat / 0x10000))
    (order.encode 2 (contents.toNat % 0x10000))
  rw [ByteOrder.length_encode] at hboth
  exact hboth.symm

/-- A cell inside the segment is stored as a whole, in however many steps. -/
theorem store_apply (hfit : offset + cell.size ≤ bytes.length) (contents : BitVec 32) :
    cell.store order offset contents bytes =
      (.ok (), cell.write ⟨bytes, offset, order⟩ contents) := by
  cases cell with
  | byte => exact storeUnit_apply hfit _
  | half => exact storeUnit_apply hfit _
  | word => exact storeUnit_apply hfit _
  | thumbPair =>
    have hsecond : offset + 2 + 2 ≤ bytes.length := hfit
    have hfirst : offset + 2 ≤ bytes.length := by omega
    rw [store, LoadM.bind_apply, storeUnit_apply hfirst]
    dsimp only
    rw [storeUnit_apply (by rwa [Bytes.length_overwrite]), write_thumbPair]

theorem settle_fetch {next : BitVec 32 → LoadM Bytes Unit}
    {answer : BitVec 32 → Except LoadError Bytes}
    (h : ∀ old, cell.read ⟨bytes, offset, order⟩ = .ok old → next old bytes = settle bytes (answer old)) :
    (cell.fetch order offset >>= next) bytes =
      settle bytes (cell.read ⟨bytes, offset, order⟩ >>= answer) := by
  have hfetch : (cell.fetch order offset >>= next) bytes =
      ((MonadExcept.ofExcept (cell.read ⟨bytes, offset, order⟩) : LoadM Bytes (BitVec 32)) >>=
        next) bytes := by
    rw [fetch, LoadM.bind_apply, LoadM.bind_apply, LoadM.bind_apply, LoadM.get_apply]
  rw [hfetch]
  exact settle_bind h

theorem settle_store {old : BitVec 32} (hread : cell.read ⟨bytes, offset, order⟩ = .ok old)
    (contents : BitVec 32) :
    cell.store order offset contents bytes =
      settle bytes (.ok (cell.write ⟨bytes, offset, order⟩ contents)) :=
  store_apply (fits_of_read hread) contents

end Cell

variable {name : String} {inputs : Inputs}

theorem Arm.patchInPlace_apply (rule : Arm.Rule) :
    rule.patchInPlace name order offset inputs bytes =
      settle bytes (rule.patch name ⟨bytes, offset, order⟩ inputs) := by
  rw [Rule.patchInPlace, Rule.patch_eq, LoadM.bind_apply, LoadM.get_apply]
  refine settle_bind fun mode _ => ?_
  obtain ⟨formula, encoding, switch⟩ := rule
  cases encoding with
  | group members index concluding =>
    refine Cell.settle_fetch fun instruction hread => ?_
    cases Group.patch? members index concluding instruction
      (Rule.value ⟨formula, .group members index concluding, switch⟩ mode inputs) with
    | none => rfl
    | some patched => exact Cell.settle_store hread patched
  | field field check =>
    dsimp only
    split
    · exact Cell.settle_fetch fun instruction hread => Cell.settle_store hread _
    · rfl

theorem C6000.patchInPlace_apply (rule : C6000.Rule) :
    rule.patchInPlace name order offset inputs bytes =
      settle bytes (rule.patch name ⟨bytes, offset, order⟩ inputs) := by
  refine settle_bind fun v _ => ?_
  split
  · exact Cell.settle_fetch fun instruction hread => Cell.settle_store hread _
  · rfl

/-- Relocating in place comes to the same as relocating at once: a relocation that fails has stored
nothing. -/
theorem patchInPlace_eq (machine : Machine) (type : UInt32) (order : ByteOrder) (offset : Nat)
    (inputs : Inputs) (bytes : Bytes) :
    patchInPlace machine type order offset inputs bytes =
      settle bytes (patch machine type ⟨bytes, offset, order⟩ inputs) := by
  unfold patchInPlace patch
  cases machine with
  | arm =>
    dsimp only
    cases Kind.treatmentOf Arm.kinds type with
    | inert => rfl
    | unsupported => rfl
    | patch rule => exact Arm.patchInPlace_apply rule
  | c6000 =>
    dsimp only
    cases Kind.treatmentOf C6000.kinds type with
    | inert => rfl
    | unsupported => rfl
    | patch rule => exact C6000.patchInPlace_apply rule

end Relocation

end TargetLink
