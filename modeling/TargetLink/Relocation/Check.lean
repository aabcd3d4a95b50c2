/-!
# Range checks

A relocation computes a value that is cut to the width of a field.  Before it is cut, a check says
whether the field can represent it.
-/

namespace TargetLink.Relocation

inductive Check
  /-- Every value; what does not fit is cut off. -/
  | unchecked
  | signed (bits : Nat)
  | unsigned (bits : Nat)
  /-- Numbers that are signed or unsigned ones of the given width. -/
  | either (bits : Nat)
  deriving DecidableEq, Repr

namespace Check

/-- How many numbers have a given width. -/
def span (bits : Nat) : Nat := 1 <<< bits

def Accepts : Check → Int → Prop
  | unchecked, _ => True
  | signed bits, v => -span (bits - 1) ≤ v ∧ v < span (bits - 1)
  | unsigned bits, v => 0 ≤ v ∧ v < span bits
  | either bits, v => -span (bits - 1) ≤ v ∧ v < span bits

instance (check : Check) (v : Int) : Decidable (check.Accepts v) := by
  cases check <;> unfold Accepts <;> infer_instance

/-- What one of the two strict checks accepts, the lenient one accepts too. -/
theorem accepts_either {bits : Nat} {v : Int}
    (h : (signed bits).Accepts v ∨ (unsigned bits).Accepts v) : (either bits).Accepts v := by
  have hmono : span (bits - 1) ≤ span bits := by
    rw [span, span, Nat.one_shiftLeft, Nat.one_shiftLeft]
    exact Nat.pow_le_pow_right (by decide) (Nat.sub_le bits 1)
  simp only [Accepts] at *
  omega

end Check

end TargetLink.Relocation
