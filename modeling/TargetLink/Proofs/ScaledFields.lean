import TargetLink.Proofs.Footprints

/-!
# What a C6000 field keeps of a value

Every C6000 field is one run of bits that holds a value in the units of its type.  A type with a range
check accepts a value exactly if some contents of its field, read back by the sign rule of the check and
scaled up again, stand for it (`Rule.Holds`, `Rule.accepts_of_holds`), and then it stores such contents
(`Rule.holds_put`).

The check comes after the scaling, so nothing looks at the low bits that a scaled field leaves out: a
branch into the middle of an instruction is stored like a branch to its beginning.  Apart from these bits
no two values that are accepted are stored alike, unless the check takes numbers of either sign.
-/

namespace TargetLink.Relocation

/-! ## Checks as readings -/

namespace Check

/-- Whether the signed or the unsigned reading of a field is a number, whichever the check asks for. -/
def Reads (check : Check) (signedReading unsignedReading p : Int) : Prop :=
  match check with
  | .signed _ => signedReading = p
  | .unsigned _ => unsignedReading = p
  | .either _ | .unchecked => signedReading = p ∨ unsignedReading = p

instance (signedReading unsignedReading p : Int) :
    (check : Check) → Decidable (check.Reads signedReading unsignedReading p)
  | .signed _ | .unsigned _ => inferInstanceAs (Decidable (_ = _))
  | .either _ | .unchecked => inferInstanceAs (Decidable (_ ∨ _))

/-- A check for numbers of a width. Numbers of either sign are not scaled. -/
def Suits (check : Check) (width shift : Nat) : Prop :=
  match check with
  | .unchecked => True
  | .signed bits | .unsigned bits => bits = width
  | .either bits => bits = width ∧ shift = 0

instance (width shift : Nat) : (check : Check) → Decidable (check.Suits width shift)
  | .unchecked => inferInstanceAs (Decidable True)
  | .signed _ | .unsigned _ => inferInstanceAs (Decidable (_ = _))
  | .either _ => inferInstanceAs (Decidable (_ ∧ _))

theorem accepts_signed_iff {width : Nat} (hwidth : 0 < width) (p : Int) :
    (signed width).Accepts p ↔ p.bmod (2 ^ width) = p := by
  obtain ⟨n, rfl⟩ : ∃ n, width = n + 1 := ⟨width - 1, by omega⟩
  have hhalf : (span (n + 1 - 1) : Int) = (2 ^ n : Nat) := by rw [Nat.add_sub_cancel, Arm.span_eq]
  have hpow : 2 ^ (n + 1) = 2 * 2 ^ n := by rw [Nat.pow_succ, Nat.mul_comm]
  have hpos : 0 < 2 ^ n := Nat.two_pow_pos n
  rw [Accepts, hhalf, hpow, Int.bmod_eq_iff (by omega), Int.sub_self]
  constructor
  · rintro ⟨hlow, hhigh⟩
    exact ⟨by omega, by omega, Int.dvd_zero _⟩
  · rintro ⟨hlow, hhigh, -⟩
    exact ⟨by omega, by omega⟩

theorem accepts_unsigned_iff {width : Nat} (p : Int) :
    (unsigned width).Accepts p ↔ p % 2 ^ width = p := by
  have hpos : (0 : Int) < 2 ^ width := Int.pow_pos (by decide)
  rw [Accepts, Arm.natCast_span]
  constructor
  · rintro ⟨hlow, hhigh⟩
    exact Int.emod_eq_of_lt hlow hhigh
  · intro hself
    rw [← hself]
    exact ⟨Int.emod_nonneg _ (Int.ne_of_gt hpos), Int.emod_lt_of_pos _ hpos⟩

theorem accepts_either_iff {width : Nat} (hwidth : 0 < width) (p : Int) :
    (either width).Accepts p ↔ p.bmod (2 ^ width) = p ∨ p % 2 ^ width = p := by
  rw [← accepts_signed_iff hwidth, ← accepts_unsigned_iff]
  refine ⟨?_, accepts_either⟩
  rintro ⟨hlow, hhigh⟩
  by_cases hnegative : p < 0
  · exact .inl ⟨hlow, by omega⟩
  · exact .inr ⟨by omega, hhigh⟩

/-- A check accepts the numbers that are read back as themselves from a field of its width. -/
theorem accepts_iff_reads {check : Check} {width shift : Nat} (hchecked : check ≠ .unchecked)
    (hwidth : 0 < width) (hsuits : check.Suits width shift) (p : Int) :
    check.Accepts p ↔ check.Reads (p.bmod (2 ^ width)) (p % 2 ^ width) p := by
  cases check with
  | unchecked => exact absurd rfl hchecked
  | signed bits =>
    obtain rfl : bits = width := hsuits
    exact accepts_signed_iff hwidth p
  | unsigned bits =>
    obtain rfl : bits = width := hsuits
    exact accepts_unsigned_iff p
  | either bits =>
    obtain ⟨rfl, -⟩ := hsuits
    exact accepts_either_iff hwidth p

/-- A check tells numbers apart that a field of its width tells apart, unless it takes numbers of either
sign. -/
theorem eq_of_accepts {check : Check} {width shift : Nat} (hchecked : check ≠ .unchecked)
    (hwidth : 0 < width) (hsuits : check.Suits width shift) {p p' : Int} (haccepts : check.Accepts p)
    (haccepts' : check.Accepts p') (hsame : p % 2 ^ width = p' % 2 ^ width) :
    p = p' ∨ check = .either width := by
  have hbmod : p.bmod (2 ^ width) = p'.bmod (2 ^ width) := by
    have hpow : (2 : Int) ^ width = ((2 ^ width : Nat) : Int) := (Int.natCast_pow 2 _).symm
    rw [hpow] at hsame
    rw [← Int.emod_bmod p, hsame, Int.emod_bmod]
  rw [accepts_iff_reads hchecked hwidth hsuits] at haccepts haccepts'
  cases check with
  | unchecked => exact absurd rfl hchecked
  | signed => exact .inl (haccepts.symm.trans (hbmod.trans haccepts'))
  | unsigned => exact .inl (haccepts.symm.trans (hsame.trans haccepts'))
  | either => exact .inr (congrArg Check.either hsuits.1)

/-- A number that is read from a field is read back as itself. -/
theorem Reads.self {check : Check} {signedReading unsignedReading p : Int} {width : Nat}
    (h : check.Reads signedReading unsignedReading p)
    (hsigned : signedReading.bmod (2 ^ width) = signedReading)
    (hunsigned : unsignedReading % 2 ^ width = unsignedReading) :
    check.Reads (p.bmod (2 ^ width)) (p % 2 ^ width) p := by
  cases check with
  | signed => exact h ▸ hsigned
  | unsigned => exact h ▸ hunsigned
  | either | unchecked =>
    rcases h with rfl | rfl
    · exact .inl hsigned
    · exact .inr hunsigned

/-- Scaling does not change what is read. -/
theorem reads_mul_iff {check : Check} {signedReading unsignedReading p factor : Int}
    (hfactor : factor ≠ 0) :
    check.Reads (signedReading * factor) (unsignedReading * factor) (p * factor) ↔
      check.Reads signedReading unsignedReading p := by
  unfold Reads
  simp only [Int.mul_eq_mul_right_iff hfactor]

end Check

namespace C6000

namespace Rule

/-! ## Contents -/

/-- The contents of a field as an unsigned number. -/
def unsignedIn (rule : Rule) (word : BitVec 32) : Int := (rule.layout.get word).toNat

/-- The contents of a field as a signed number. -/
def signedIn (rule : Rule) (word : BitVec 32) : Int := (rule.unsignedIn word).bmod (2 ^ rule.width)

/-- Whether a field stands for a value: read back by the sign rule of the check and scaled up again, its
contents are the value. -/
def Holds (rule : Rule) (word : BitVec 32) (v : Int) : Prop :=
  rule.check.Reads (rule.signedIn word * 2 ^ rule.shift) (rule.unsignedIn word * 2 ^ rule.shift) v

instance (rule : Rule) (word : BitVec 32) (v : Int) : Decidable (rule.Holds word v) :=
  inferInstanceAs (Decidable (rule.check.Reads _ _ v))

/-- A value without the low bits that a field leaves out. -/
def cleared (rule : Rule) (v : Int) : Int := v / 2 ^ rule.shift * 2 ^ rule.shift

/-- A rule whose field lies in its cell and whose check is for numbers of the width of the field. -/
def Coherent (rule : Rule) : Prop :=
  0 < rule.width ∧ rule.layout.WellFormed rule.cell ∧ rule.check.Suits rule.width rule.shift

instance (rule : Rule) : Decidable rule.Coherent := inferInstanceAs (Decidable (_ ∧ _))

theorem cleared_eq (rule : Rule) (v : Int) : rule.cleared v = rule.pack v * 2 ^ rule.shift := by
  rw [cleared, pack, Int.shiftRight_eq_div_pow, Int.natCast_pow]
  rfl

/-- The contents of a field in the units of its type. -/
theorem holds_cleared_iff (rule : Rule) (word : BitVec 32) (v : Int) :
    rule.Holds word (rule.cleared v) ↔
      rule.check.Reads (rule.signedIn word) (rule.unsignedIn word) (rule.pack v) := by
  rw [Holds, cleared_eq, Check.reads_mul_iff (Arm.Field.two_pow_ne_zero _)]

section Coherent

variable {rule : Rule} (hcoherent : rule.Coherent)
include hcoherent

theorem width_le : rule.width ≤ 32 := by
  have hcell := hcoherent.2.1.inCell ⟨0, rule.lowBit, rule.width⟩ (List.mem_singleton.mpr rfl)
  have hsize := Layout.WellFormed.size_le rule.cell
  dsimp only at hcell
  omega

/-- The contents of a field do not depend on anything outside of its cell. -/
theorem unsignedIn_inside (word : BitVec 32) :
    rule.unsignedIn (word &&& lowOnes (8 * rule.cell.size)) = rule.unsignedIn word := by
  rw [unsignedIn, unsignedIn, hcoherent.2.1.get_inside]

theorem holds_inside (word : BitVec 32) (v : Int) :
    rule.Holds (word &&& lowOnes (8 * rule.cell.size)) v ↔ rule.Holds word v := by
  rw [Holds, Holds, signedIn, signedIn, unsignedIn_inside hcoherent]

/-- A field that was written holds the number, cut to its width. -/
theorem unsignedIn_put (x : Int) (old : BitVec 32) :
    rule.unsignedIn (rule.layout.put (BitVec.ofInt 32 x) old) = x % 2 ^ rule.width := by
  have hwidth : Layout.width rule.layout = rule.width := Nat.add_zero _
  rw [unsignedIn, hcoherent.2.1.get_put, hwidth,
    Arm.Field.toNat_ofInt_and_lowOnes x (width_le hcoherent), Arm.natCast_span]

theorem signedIn_put (x : Int) (old : BitVec 32) :
    rule.signedIn (rule.layout.put (BitVec.ofInt 32 x) old) = x.bmod (2 ^ rule.width) := by
  have hpow : (2 : Int) ^ rule.width = ((2 ^ rule.width : Nat) : Int) := (Int.natCast_pow 2 _).symm
  rw [signedIn, unsignedIn_put hcoherent, hpow]
  exact Int.emod_bmod _ _

/-- Contents are numbers of the width of their field. -/
theorem unsignedIn_emod (word : BitVec 32) :
    rule.unsignedIn word % 2 ^ rule.width = rule.unsignedIn word := by
  have hwidth : Layout.width rule.layout = rule.width := Nat.add_zero _
  have hcut := hcoherent.2.1.get_and_lowOnes word
  rw [hwidth] at hcut
  rw [unsignedIn, ← hcut, toNat_and_lowOnes _ (width_le hcoherent), Int.natCast_mod, Int.natCast_pow]
  exact Int.emod_emod_of_dvd _ (Int.dvd_refl _)

/-! ## What a check accepts -/

/-- A value that its check accepts is stored, without the low bits that the field leaves out. -/
theorem holds_put (hchecked : rule.check ≠ .unchecked) {v : Int}
    (haccepts : rule.check.Accepts (rule.pack v)) (old : BitVec 32) :
    rule.Holds (rule.layout.put (BitVec.ofInt 32 (rule.pack v)) old) (rule.cleared v) := by
  rw [holds_cleared_iff, unsignedIn_put hcoherent, signedIn_put hcoherent]
  exact (Check.accepts_iff_reads hchecked hcoherent.1 hcoherent.2.2 _).mp haccepts

/-- A value is accepted if some contents of the field stand for it. -/
theorem accepts_of_holds (hchecked : rule.check ≠ .unchecked) {v : Int} {word : BitVec 32}
    (h : rule.Holds word (rule.cleared v)) : rule.check.Accepts (rule.pack v) := by
  rw [holds_cleared_iff] at h
  rw [Check.accepts_iff_reads hchecked hcoherent.1 hcoherent.2.2]
  exact h.self Int.bmod_bmod (unsignedIn_emod hcoherent word)

end Coherent

end Rule

/-! ## Relocation types -/

/-- Whether the rule of a row is a coherent one, if it has a rule. -/
def isCoherent (kind : Kind Rule) : Bool :=
  match kind.treatment with
  | .patch rule => rule.Coherent
  | _ => true

theorem isCoherent_of_mem : ∀ kind ∈ kinds, isCoherent kind := by
  decide

theorem coherent_of_rule? {type : UInt32} {rule : Rule} (h : Kind.rule? kinds type = some rule) :
    rule.Coherent := by
  obtain ⟨kind, hmem, -, hrule⟩ := Kind.exists_mem_of_rule? h
  have hcoherent := isCoherent_of_mem kind hmem
  simpa only [isCoherent, hrule, decide_eq_true_eq] using hcoherent

section Patch

variable {type : UInt32} {rule : Rule} {site : Site} {inputs : Inputs} {v : Int} {old : BitVec 32}

theorem patch_eq_of_rule? (h : Kind.rule? kinds type = some rule) :
    patch .c6000 type site inputs = rule.patch (typeName .c6000 type) site inputs := by
  simp only [patch, Kind.treatmentOf_of_rule? h]

/-- What a rule does once its value is computed. -/
theorem patch_eq (hrule : Kind.rule? kinds type = some rule)
    (heval : rule.formula.eval (typeName .c6000 type) inputs = .ok v)
    (hread : rule.cell.read site = .ok old) :
    patch .c6000 type site inputs =
      if rule.check.Accepts (rule.pack v) then
        .ok (rule.cell.write site (rule.layout.put (BitVec.ofInt 32 (rule.pack v)) old))
      else .error (.relocationOverflow (typeName .c6000 type) inputs.place v) := by
  rw [patch_eq_of_rule? hrule, Rule.patch, heval]
  simp only [bind, Except.bind, hread, pure, Except.pure]
  rfl

/-- Two numbers are stored alike if they are equal up to the width of the field. -/
theorem write_put_eq_iff (hcoherent : rule.Coherent)
    (hfit : site.offset + rule.cell.size ≤ site.bytes.length) (x y : Int) :
    rule.cell.write site (rule.layout.put (BitVec.ofInt 32 x) old) =
        rule.cell.write site (rule.layout.put (BitVec.ofInt 32 y) old) ↔
      x % 2 ^ rule.width = y % 2 ^ rule.width := by
  constructor
  · intro hsame
    have hx := rule.cell.read_write site (rule.layout.put (BitVec.ofInt 32 x) old) hfit
    have hy := rule.cell.read_write site (rule.layout.put (BitVec.ofInt 32 y) old) hfit
    rw [hsame, hy, Except.ok.injEq] at hx
    have hcontents := congrArg rule.unsignedIn hx
    rwa [Rule.unsignedIn_inside hcoherent, Rule.unsignedIn_inside hcoherent,
      Rule.unsignedIn_put hcoherent, Rule.unsignedIn_put hcoherent, eq_comm] at hcontents
  · intro hsame
    have hcut : BitVec.ofInt 32 x &&& lowOnes rule.width = BitVec.ofInt 32 y &&& lowOnes rule.width := by
      apply BitVec.eq_of_toNat_eq
      have hx := Arm.Field.toNat_ofInt_and_lowOnes x (Rule.width_le hcoherent)
      have hy := Arm.Field.toNat_ofInt_and_lowOnes y (Rule.width_le hcoherent)
      rw [Arm.natCast_span] at hx hy
      omega
    have hput (z : Int) : rule.layout.put (BitVec.ofInt 32 z) old =
        (old &&& ~~~Slice.mask ⟨0, rule.lowBit, rule.width⟩) |||
          ((BitVec.ofInt 32 z &&& lowOnes rule.width) <<< rule.lowBit) := by
      simp only [Rule.layout, Layout.put, List.foldl_cons, List.foldl_nil, Slice.put,
        BitVec.ushiftRight_zero]
    rw [hput, hput, hcut]

/-- A relocation that succeeds has stored a value that its check accepts. -/
theorem exists_put_of_patch (hrule : Kind.rule? kinds type = some rule)
    (heval : rule.formula.eval (typeName .c6000 type) inputs = .ok v)
    (hread : rule.cell.read site = .ok old) {bytes : Bytes}
    (h : patch .c6000 type site inputs = .ok bytes) :
    rule.check.Accepts (rule.pack v) ∧
      bytes = rule.cell.write site (rule.layout.put (BitVec.ofInt 32 (rule.pack v)) old) := by
  rw [patch_eq hrule heval hread] at h
  split at h
  case isTrue haccepts => exact ⟨haccepts, (Except.ok.inj h).symm⟩
  case isFalse => cases h

end Patch

namespace Rule

/-- Values that a field tells apart, among those that its check accepts. -/
theorem pack_emod_eq_iff {rule : Rule} (hcoherent : rule.Coherent) (hchecked : rule.check ≠ .unchecked)
    {v v' : Int} (haccepts : rule.check.Accepts (rule.pack v))
    (haccepts' : rule.check.Accepts (rule.pack v')) :
    rule.pack v % 2 ^ rule.width = rule.pack v' % 2 ^ rule.width ↔
      rule.cleared v = rule.cleared v' ∨ rule.check = .either rule.width ∧
        rule.cleared v % 2 ^ rule.width = rule.cleared v' % 2 ^ rule.width := by
  obtain ⟨hpositive, -, hsuits⟩ := hcoherent
  have hunscaled (heither : rule.check = .either rule.width) (v : Int) :
      rule.cleared v = rule.pack v := by
    rw [heither] at hsuits
    rw [cleared_eq, hsuits.2, Int.pow_zero, Int.mul_one]
  constructor
  · intro hsame
    rcases Check.eq_of_accepts hchecked hpositive hsuits haccepts haccepts' hsame with hpack | heither
    · rw [cleared_eq, cleared_eq, hpack]
      exact .inl rfl
    · rw [hunscaled heither, hunscaled heither]
      exact .inr ⟨heither, hsame⟩
  · rintro (hcleared | ⟨heither, hsame⟩)
    · rw [cleared_eq, cleared_eq] at hcleared
      rw [Int.eq_of_mul_eq_mul_right (Arm.Field.two_pow_ne_zero _) hcleared]
    · rwa [hunscaled heither, hunscaled heither] at hsame

end Rule

/-- A type with a range check either fails or stores contents that stand for the value without the low
bits that the field leaves out, and it fails only if no contents do. Values that differ in other bits are
not stored alike, unless the check takes numbers of either sign. -/
theorem patch_checked_holds (type : UInt32) (rule : Rule) (site : Site)
    (hrule : Kind.rule? kinds type = some rule) (hchecked : rule.check ≠ .unchecked)
    (hfit : site.offset + rule.cell.size ≤ site.bytes.length) :
    let value (inputs : Inputs) := rule.formula.eval (typeName .c6000 type) inputs
    let patched (inputs : Inputs) := patch .c6000 type site inputs
    (∀ inputs,
      (∃ e, value inputs = .error e ∧ patched inputs = .error e) ∨
      ∃ v, value inputs = .ok v ∧
        ((patched inputs =
            .error (.relocationOverflow (typeName .c6000 type) inputs.place v) ∧
          ∀ word, ¬rule.Holds word (rule.cleared v)) ∨
        ∃ bytes word, patched inputs = .ok bytes ∧
          rule.cell.read { site with bytes } = .ok word ∧ rule.Holds word (rule.cleared v))) ∧
    ∀ inputs inputs' v v' bytes bytes', value inputs = .ok v → value inputs' = .ok v' →
      patched inputs = .ok bytes → patched inputs' = .ok bytes' →
      (bytes = bytes' ↔ rule.cleared v = rule.cleared v' ∨
        rule.check = .either rule.width ∧
          rule.cleared v % 2 ^ rule.width = rule.cleared v' % 2 ^ rule.width) := by
  intro value patched
  have hcoherent := coherent_of_rule? hrule
  obtain ⟨old, hread⟩ := rule.cell.exists_read site hfit
  refine ⟨fun inputs => ?_, fun inputs inputs' v v' bytes bytes' hv hv' hbytes hbytes' => ?_⟩
  · cases heval : value inputs with
    | error e =>
      refine .inl ⟨e, rfl, ?_⟩
      simp only [patched, patch_eq_of_rule? hrule, Rule.patch]
      exact congrArg (· >>= _) heval
    | ok v =>
      refine .inr ⟨v, rfl, ?_⟩
      simp only [patched, patch_eq hrule heval hread]
      by_cases haccepts : rule.check.Accepts (rule.pack v)
      · rw [if_pos haccepts]
        refine .inr ⟨_, _, rfl, rule.cell.read_write site _ hfit, ?_⟩
        rw [Rule.holds_inside hcoherent]
        exact Rule.holds_put hcoherent hchecked haccepts old
      · rw [if_neg haccepts]
        exact .inl ⟨rfl, fun word hholds =>
          haccepts (Rule.accepts_of_holds hcoherent hchecked hholds)⟩
  · obtain ⟨haccepts, rfl⟩ := exists_put_of_patch hrule hv hread hbytes
    obtain ⟨haccepts', rfl⟩ := exists_put_of_patch hrule hv' hread hbytes'
    rw [write_put_eq_iff hcoherent hfit]
    exact Rule.pack_emod_eq_iff hcoherent hchecked haccepts haccepts'

/-- The rule of R_C6000_PCR_S21. -/
def branchRule : Rule := ⟨.fetchPacket, 2, .word, 7, 21, .signed 21⟩

def branchSite : Site := ⟨[0x10, 0, 0, 0], 0, .little⟩

/-- The operands of a branch to the middle of an instruction. -/
def toMiddle : Inputs := { symbol := 0x1042, place := 0x1004 }

/-- The operands of a branch to the beginning of that instruction. -/
def toBeginning : Inputs := { symbol := 0x1040, place := 0x1004 }

theorem patch_checked_holds_branch :
    Kind.rule? kinds 4 = some branchRule ∧ branchRule.check ≠ .unchecked ∧
      ∃ bytes word, patch .c6000 4 branchSite toMiddle = .ok bytes ∧
        branchRule.cell.read { branchSite with bytes } = .ok word ∧ branchRule.Holds word 0x40 := by
  refine ⟨rfl, by decide, ?_⟩
  have hvalue : branchRule.formula.eval (typeName .c6000 4) toMiddle = .ok 0x42 := rfl
  have hstored : patch .c6000 4 branchSite toMiddle = .ok [0x10, 8, 0, 0] := rfl
  obtain ⟨e, herror, -⟩ | ⟨v, hv, ⟨hrejected, -⟩ | hholds⟩ :=
    (patch_checked_holds 4 branchRule branchSite rfl (by decide) (by decide)).1 toMiddle
  · cases hvalue.symm.trans herror
  · cases hstored.symm.trans hrejected
  · obtain rfl : (0x42 : Int) = v := Except.ok.inj (hvalue.symm.trans hv)
    exact hholds

/-- The distance to the middle of an instruction is accepted, and what is stored is the distance to its
beginning. -/
theorem patch_drops_low_bits :
    Kind.rule? kinds 4 = some branchRule ∧ branchRule.check = .signed 21 ∧
      branchRule.formula.eval (typeName .c6000 4) toMiddle = .ok 0x42 ∧
      branchRule.formula.eval (typeName .c6000 4) toBeginning = .ok 0x40 ∧
      patch .c6000 4 branchSite toMiddle = .ok [0x10, 8, 0, 0] ∧
      patch .c6000 4 branchSite toBeginning = .ok [0x10, 8, 0, 0] ∧
      branchRule.cell.read { branchSite with bytes := [0x10, 8, 0, 0] } = .ok 0x810 ∧
      ¬branchRule.Holds 0x810 0x42 :=
  ⟨rfl, rfl, rfl, rfl, rfl, rfl, rfl, by decide⟩

end C6000

end TargetLink.Relocation
