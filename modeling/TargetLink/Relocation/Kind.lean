import TargetLink.Bytes

/-!
# Relocation types

The relocation types of a machine form a table: each has its number, its ABI name and a treatment.
Types that only inform other tools are inert; types that a loader never meets in a linked module
are unsupported; the others have a rule that says how they patch their cell.

The operands of a rule are the same on every machine and are collected in `Inputs`.
-/

namespace TargetLink.Relocation

/-- What a loader does about a relocation type. -/
inductive Treatment (ρ : Type)
  | inert
  | unsupported
  | patch (rule : ρ)
  deriving Repr

structure Kind (ρ : Type) where
  number : UInt32
  name : String
  treatment : Treatment ρ
  deriving Repr

namespace Kind

variable {ρ : Type}

def find? (kinds : List (Kind ρ)) (number : UInt32) : Option (Kind ρ) :=
  kinds.find? (·.number == number)

/-- What is done about a type; numbers without a type are unsupported. -/
def treatmentOf (kinds : List (Kind ρ)) (number : UInt32) : Treatment ρ :=
  match find? kinds number with
  | some kind => kind.treatment
  | none => .unsupported

def isInert (kinds : List (Kind ρ)) (number : UInt32) : Bool :=
  match treatmentOf kinds number with
  | .inert => true
  | _ => false

def rule? (kinds : List (Kind ρ)) (number : UInt32) : Option ρ :=
  match treatmentOf kinds number with
  | .patch rule => some rule
  | _ => none

theorem treatmentOf_of_rule? {kinds : List (Kind ρ)} {number : UInt32} {rule : ρ}
    (h : rule? kinds number = some rule) : treatmentOf kinds number = .patch rule := by
  unfold rule? at h
  split at h
  case h_1 htreatment =>
    cases h
    exact htreatment
  case h_2 => cases h

/-- A type without a rule is inert, or nothing is known of it. -/
theorem treatmentOf_of_rule?_eq_none {kinds : List (Kind ρ)} {number : UInt32}
    (h : rule? kinds number = none) :
    treatmentOf kinds number = if isInert kinds number then .inert else .unsupported := by
  unfold rule? at h
  unfold isInert
  cases htreatment : treatmentOf kinds number with
  | inert => rfl
  | unsupported => rfl
  | patch rule =>
    rw [htreatment] at h
    cases h

/-- A rule stands in a row of its table. -/
theorem exists_mem_of_rule? {kinds : List (Kind ρ)} {number : UInt32} {rule : ρ}
    (h : rule? kinds number = some rule) :
    ∃ kind ∈ kinds, kind.number = number ∧ kind.treatment = .patch rule := by
  unfold rule? treatmentOf find? at h
  cases hfind : kinds.find? (·.number == number) with
  | none => simp [hfind] at h
  | some kind =>
    refine ⟨kind, List.mem_of_find?_eq_some hfind, by simpa using List.find?_some hfind, ?_⟩
    simp only [hfind] at h
    split at h
    case h_1 htreatment =>
      cases h
      exact htreatment
    case h_2 => cases h

end Kind

structure Inputs where
  /-- The value of the symbol, without the Thumb bit. -/
  symbol : UInt32 := 0
  thumb : Bool := false
  function : Bool := false
  addend : Int32 := 0
  /-- The final address of the patched cell. -/
  place : UInt32 := 0
  staticBase : UInt32 := 0
  /-- The module's slot in the table of static bases. -/
  dsbtIndex : Option UInt32 := none
  deriving DecidableEq, Repr

/-- A sum of addresses and addends, wrapped to the signed 32-bit numbers. -/
def wrapWord (v : Int) : Int := v.bmod UInt32.size

/-- The symbol plus the addend, before any wrapping. -/
def Inputs.target (inputs : Inputs) : Int := inputs.symbol.toNat + inputs.addend.toInt

end TargetLink.Relocation
