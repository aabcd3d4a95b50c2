import TargetLink.Loader.Run
import TargetLink.Proofs.Branches
import TargetLink.Proofs.Passes
import TargetLink.Proofs.SampleObjects
import TargetLink.Target.Simulated

/-!
# Branches to weak symbols that nobody defines

A weak reference that nobody defines resolves to zero (`SymbolGraph.resolve_weak`), and a branch is
relocated to address zero like to any other one.  So it is stored exactly if zero is within its reach
from where its segment was placed (`Relocation.BranchForm.Reaches`, `Relocation.storedIff_null`): the
program counter must lie around zero.  Farther away the branch overflows, and a Thumb jump to a function
fails in any case, since zero does not look like Thumb code.  Neither failure counts as a lacking symbol,
so one such branch ends the pass over its module.
-/

namespace TargetLink

/-- A weak reference that nobody defines resolves to zero. -/
theorem SymbolGraph.resolve_weak {graph : SymbolGraph} {policy : LookupPolicy} {requester : Handle}
    {app : Option Handle} {symbols : List Symbol} {index : UInt32} {symbol : Symbol}
    (hsymbol : symbols[index.toNat]? = some symbol) (hundefined : symbol.isDefined = false)
    (hpreemptible : symbol.isPreemptible = true) (hweak : symbol.isWeak = true)
    (hnobody : graph.globalLookup policy requester app symbol.name = none) :
    graph.resolve policy requester app symbols index = .ok ⟨0, symbol.info, true⟩ := by
  simp [resolve, hsymbol, hpreemptible, hnobody, hundefined, hweak]

namespace Relocation

/-! ## Reach -/

/-- The branches of both machines, by what they count from. -/
inductive BranchForm
  | arm
  | thumbCall
  | thumbJump
  | fetchPacket
  deriving DecidableEq, Repr

namespace BranchForm

def machine : BranchForm → Machine
  | arm | thumbCall | thumbJump => .arm
  | fetchPacket => .c6000

/-- R_ARM_PC24, R_ARM_PLT32, R_ARM_CALL and R_ARM_JUMP24; R_ARM_THM_CALL; R_ARM_THM_JUMP24;
R_C6000_PCR_S21. -/
def types : BranchForm → List UInt32
  | arm => Arm.branchTypes
  | thumbCall => [10]
  | thumbJump => [30]
  | fetchPacket => [4]

/-- The usual addend, which takes back how far the program counter is ahead of the place. -/
def bias : BranchForm → Int32
  | arm => -8
  | thumbCall | thumbJump => -4
  | fetchPacket => 0

/-- The address that a branch at a place counts from. A Thumb call to a function that is no Thumb code
becomes a BLX, which counts from a word. -/
def counter (form : BranchForm) (function : Bool) (place : UInt32) : Int :=
  let start : Int := match form with
    | arm | thumbJump => place.toNat
    | thumbCall => place.toNat - if function then (place.toNat : Int) % 4 / 2 * 2 else 0
    | fetchPacket => (place.toNat / 32 * 32 : Nat)
  start - form.bias.toInt

/-- A branch gets this power of two far. -/
def range : BranchForm → Nat
  | arm => 25
  | thumbCall | thumbJump => 24
  | fetchPacket => 22

/-- Address zero is within the reach of a branch, on either side of it, and in its instruction set. -/
def Reaches (form : BranchForm) (function : Bool) (place : UInt32) : Prop :=
  (form = thumbJump → function = false) ∧
    -2 ^ form.range < wrapWord (form.counter function place) ∧
    wrapWord (form.counter function place) ≤ 2 ^ form.range

instance (form : BranchForm) (function : Bool) (place : UInt32) :
    Decidable (form.Reaches function place) :=
  inferInstanceAs (Decidable (_ ∧ _))

end BranchForm

/-- An address is near zero if the way back from it is short. -/
theorem wrapWord_neg_iff {v distance : Int} (hpos : 0 < distance) (hsmall : distance ≤ 2 ^ 30) :
    -distance ≤ wrapWord (-v) ∧ wrapWord (-v) < distance ↔
      -distance < wrapWord v ∧ wrapWord v ≤ distance := by
  unfold wrapWord UInt32.size
  rw [Int.bmod_def, Int.bmod_def]
  split <;> split <;> omega

/-- To round the way back to a word does not lead out of a range of words, nor back into it. -/
theorem wrapWord_round_iff {v back distance : Int} (hback : 0 ≤ back ∧ back < 4)
    (hsmall : distance ≤ 2 ^ 30) (hwords : distance % 4 = 0) :
    -distance ≤ (wrapWord (-v) + back) / 4 * 4 ∧ (wrapWord (-v) + back) / 4 * 4 < distance ↔
      -distance ≤ wrapWord (-(v - back)) ∧ wrapWord (-(v - back)) < distance := by
  unfold wrapWord UInt32.size
  rw [Int.bmod_def, Int.bmod_def]
  split <;> split <;> omega

/-- What the way back has to fit into. -/
theorem BranchForm.reaches_iff {form : BranchForm} {function : Bool}
    (hset : form = .thumbJump → function = false) (place : UInt32) :
    form.Reaches function place ↔ -2 ^ form.range ≤ wrapWord (-form.counter function place) ∧
      wrapWord (-form.counter function place) < 2 ^ form.range := by
  have hsmall : (2 : Int) ^ form.range ≤ 2 ^ 30 := by cases form <;> decide
  rw [Reaches, and_iff_right hset, wrapWord_neg_iff (Int.pow_pos (by decide)) hsmall]

/-- A check of a value that is stored without its low bits. -/
theorem accepts_shiftRight_iff {bits shift range : Nat} (h : bits - 1 + shift = range) (v : Int) :
    (Check.signed bits).Accepts (v >>> shift) ↔ -2 ^ range ≤ v ∧ v < 2 ^ range := by
  have hpos : (0 : Int) < 2 ^ shift := Int.pow_pos (by decide)
  rw [Check.Accepts, Arm.natCast_span, Int.shiftRight_eq_div_pow, Int.natCast_pow, ← h, Int.pow_add,
    ← Int.neg_mul]
  exact and_congr (Int.le_ediv_iff_mul_le hpos) (Int.ediv_lt_iff_lt_mul hpos)

/-- A branch reaches zero if its check accepts the way back. -/
theorem BranchForm.reaches_iff_accepts {form : BranchForm} {function : Bool} {bits shift : Nat}
    (hrange : bits - 1 + shift = form.range) (hset : form = .thumbJump → function = false)
    (place : UInt32) : form.Reaches function place ↔
      (Check.signed bits).Accepts (wrapWord (-form.counter function place) >>> shift) := by
  rw [accepts_shiftRight_iff hrange, reaches_iff hset]

/-- A branch is stored under a condition, and otherwise it overflows or would need a veneer. -/
structure StoredIff (reaches : Prop) (name : String) (place : UInt32)
    (result : Except LoadError Bytes) : Prop where
  stored : reaches → ∃ bytes, result = .ok bytes
  failed : ¬reaches → result = .error (.relocation (.needsVeneer name place)) ∨
    ∃ v, result = .error (.relocationOverflow name place v)

theorem StoredIff.congr {reaches reaches' : Prop} {name : String} {place : UInt32}
    {result : Except LoadError Bytes} (h : StoredIff reaches name place result)
    (hiff : reaches' ↔ reaches) : StoredIff reaches' name place result :=
  ⟨fun hreaches => h.stored (hiff.mp hreaches), fun hfar => h.failed (mt hiff.mpr hfar)⟩

/-- What a relocation comes to that checks its value. -/
theorem StoredIff.of_ite {reaches : Prop} [Decidable reaches] {name : String} {place : UInt32}
    {result : Except LoadError Bytes} {bytes : Bytes} {v : Int}
    (h : result = if reaches then .ok bytes else .error (.relocationOverflow name place v)) :
    StoredIff reaches name place result :=
  ⟨fun hreaches => ⟨bytes, h.trans (if_pos hreaches)⟩,
    fun hfar => .inr ⟨v, h.trans (if_neg hfar)⟩⟩

/-- The operands of a branch to address zero. -/
structure Null (form : BranchForm) (inputs : Inputs) : Prop where
  symbol : inputs.symbol = 0
  thumb : inputs.thumb = false
  addend : inputs.addend = form.bias

theorem Null.target {form : BranchForm} {inputs : Inputs} (h : Null form inputs) :
    inputs.target = form.bias.toInt := by
  rw [Inputs.target, h.symbol, h.addend]
  exact Int.zero_add _

namespace Arm

section Null

variable {type : UInt32} {switch : Switch} {site : Site} {inputs : Inputs} {form : BranchForm}
  {mode : SwitchMode} {formula : Formula} {field : Field} {check : Check} {instruction : BitVec 32}

theorem eval_prelThumb_of_null (h : Null form inputs) :
    Formula.prelThumb.eval inputs = wrapWord (-(inputs.place.toNat - form.bias.toInt)) := by
  unfold Formula.eval
  dsimp only
  rw [h.thumb, withThumbBit_false, h.target]
  congr 1
  omega

/-- Once the instruction set is settled a field is stored if its check accepts the value. -/
theorem storedIff_accepts
    (hrule : Kind.rule? kinds type = some ⟨formula, .field field check, switch⟩)
    (hread : field.cell.read site = .ok instruction)
    (hmode : switchMode switch (typeName .arm type) site inputs = .ok mode) :
    StoredIff (check.Accepts (field.pack (Rule.value ⟨formula, .field field check, switch⟩ mode inputs)))
      (typeName .arm type) inputs.place (patch .arm type site inputs) :=
  .of_ite (patch_eq hmode hread hrule)

theorem pack_thmBranch (v : Int) : Field.thmBranch.pack v = v >>> (1 : Nat) := rfl

/-- An ARM branch to zero never needs a veneer. -/
theorem storedIff_armBranch (hnull : Null .arm inputs) (htype : type ∈ branchTypes)
    (hfit : site.offset + 4 ≤ site.bytes.length) :
    StoredIff (BranchForm.arm.Reaches inputs.function inputs.place) (typeName .arm type) inputs.place
      (patch .arm type site inputs) := by
  obtain ⟨instruction, hread⟩ := Cell.word.exists_read site hfit
  obtain ⟨switch, hrule, hswitch⟩ := exists_rule_of_branchTypes htype
  have hmode : ∃ mode, switchMode switch (typeName .arm type) site inputs = .ok mode := by
    rcases hswitch with rfl | ⟨rfl, -⟩
    · refine ⟨if instruction >>> 28 = 0xf then .link else .keep, ?_⟩
      simp only [switchMode, hread, hnull.thumb, bind, Except.bind, pure, Except.pure]
      rw [if_neg Bool.false_ne_true]
      exact (apply_ite Except.ok _ _ _).symm
    · exact ⟨.keep, by simp [switchMode, hnull.thumb]⟩
  obtain ⟨mode, hmode⟩ := hmode
  refine (storedIff_accepts hrule hread hmode).congr ?_
  have hvalue : Rule.value ⟨.prelThumb, .field .armBranch (.signed 24), switch⟩ mode inputs =
      wrapWord (-BranchForm.arm.counter inputs.function inputs.place) := eval_prelThumb_of_null hnull
  have hpack (v : Int) : Field.armBranch.pack v = v >>> (2 : Nat) := rfl
  have hrange : 24 - 1 + 2 = BranchForm.arm.range := rfl
  rw [BranchForm.reaches_iff_accepts hrange (by rintro ⟨⟩), hvalue, hpack]

/-- A Thumb call to zero never needs a veneer either. -/
theorem storedIff_thumbCall (hnull : Null .thumbCall inputs)
    (hfit : site.offset + 4 ≤ site.bytes.length) :
    StoredIff (BranchForm.thumbCall.Reaches inputs.function inputs.place) (typeName .arm 10)
      inputs.place (patch .arm 10 site inputs) := by
  have hrange : 24 - 1 + 1 = BranchForm.thumbCall.range := rfl
  obtain ⟨instruction, hread⟩ := Cell.thumbPair.exists_read site hfit
  cases hfunction : inputs.function with
  | false =>
    have hmode : switchMode .thumbCall (typeName .arm 10) site inputs = .ok .keep := by
      simp [switchMode, hread, hnull.thumb, hfunction, bind, Except.bind, pure, Except.pure]
    refine (storedIff_accepts rule?_thumbCall hread hmode).congr ?_
    have hvalue : Rule.value ⟨.prelThumb, .field .thmBranch (.signed 24), .thumbCall⟩ .keep inputs =
        wrapWord (-BranchForm.thumbCall.counter false inputs.place) :=
      (eval_prelThumb_of_null hnull).trans (by simp [BranchForm.counter])
    rw [BranchForm.reaches_iff_accepts hrange (by rintro ⟨⟩), hvalue, pack_thmBranch]
  | true =>
    have hmode : switchMode .thumbCall (typeName .arm 10) site inputs = .ok .exchange := by
      simp [switchMode, hread, hnull.thumb, hfunction, bind, Except.bind, pure, Except.pure]
    refine (storedIff_accepts rule?_thumbCall hread hmode).congr ?_
    have hvalue : Rule.value ⟨.prelThumb, .field .thmBranch (.signed 24), .thumbCall⟩ .exchange inputs =
        (wrapWord (-(inputs.place.toNat - BranchForm.thumbCall.bias.toInt)) +
          inputs.place.toNat % 4 / 2 * 2) / 4 * 4 := by
      rw [value_thumbCall, if_pos rfl, eval_prelThumb_of_null hnull]
    rw [BranchForm.reaches_iff (by rintro ⟨⟩), hvalue, pack_thmBranch, accepts_shiftRight_iff hrange]
    have hback : -BranchForm.thumbCall.counter true inputs.place =
        -(inputs.place.toNat - BranchForm.thumbCall.bias.toInt - inputs.place.toNat % 4 / 2 * 2) := by
      simp only [BranchForm.counter, if_true]
      omega
    rw [hback]
    exact (wrapWord_round_iff (by omega) (by decide) (by decide)).symm

/-- A Thumb jump cannot go to a function at zero, which is not Thumb code. -/
theorem storedIff_thumbJump (hnull : Null .thumbJump inputs)
    (hfit : site.offset + 4 ≤ site.bytes.length) :
    StoredIff (BranchForm.thumbJump.Reaches inputs.function inputs.place) (typeName .arm 30)
      inputs.place (patch .arm 30 site inputs) := by
  have hrule : Kind.rule? kinds 30 =
      some ⟨.prelThumb, .field .thmBranch (.signed 24), .thumbJump⟩ := rfl
  obtain ⟨instruction, hread⟩ := Cell.thumbPair.exists_read site hfit
  cases hfunction : inputs.function with
  | false =>
    have hmode : switchMode .thumbJump (typeName .arm 30) site inputs = .ok .keep := by
      simp [switchMode, hfunction]
    refine (storedIff_accepts hrule hread hmode).congr ?_
    have hvalue : Rule.value ⟨.prelThumb, .field .thmBranch (.signed 24), .thumbJump⟩ .keep inputs =
        wrapWord (-BranchForm.thumbJump.counter false inputs.place) := eval_prelThumb_of_null hnull
    have hrange : 24 - 1 + 1 = BranchForm.thumbJump.range := rfl
    rw [BranchForm.reaches_iff_accepts hrange (fun _ => rfl), hvalue, pack_thmBranch]
  | true =>
    refine ⟨fun hreaches => absurd (hreaches.1 rfl) (by decide), fun _ => .inl ?_⟩
    have hmode : switchMode .thumbJump (typeName .arm 30) site inputs =
        .error (.relocation (.needsVeneer (typeName .arm 30) inputs.place)) := by
      simp [switchMode, hfunction, hnull.thumb]
    rw [patch_eq_of_rule? hrule, Rule.patch_eq, hmode]
    rfl

end Null

end Arm

/-- A C6000 branch to zero. -/
theorem C6000.storedIff_fetchPacket {site : Site} {inputs : Inputs} (hnull : Null .fetchPacket inputs)
    (hfit : site.offset + 4 ≤ site.bytes.length) :
    StoredIff (BranchForm.fetchPacket.Reaches inputs.function inputs.place) (typeName .c6000 4)
      inputs.place (patch .c6000 4 site inputs) := by
  obtain ⟨instruction, hread⟩ := Cell.word.exists_read site hfit
  let rule : Rule := ⟨.fetchPacket, 2, .word, 7, 21, .signed 21⟩
  let v := wrapWord (-BranchForm.fetchPacket.counter inputs.function inputs.place)
  have heval : rule.formula.eval (typeName .c6000 4) inputs = .ok v := by
    have htarget : inputs.target = 0 := hnull.target
    have hcounter : BranchForm.fetchPacket.counter inputs.function inputs.place =
        (inputs.place.toNat / 32 * 32 : Nat) := Int.sub_zero _
    simp only [rule, v, Formula.eval, htarget, hcounter, Int.zero_sub]
  have hpatch : patch .c6000 4 site inputs =
      if rule.check.Accepts (rule.pack v) then
        .ok (rule.cell.write site (rule.layout.put (BitVec.ofInt 32 (rule.pack v)) instruction))
      else .error (.relocationOverflow (typeName .c6000 4) inputs.place v) := by
    have hrule : patch .c6000 4 site inputs = rule.patch (typeName .c6000 4) site inputs := rfl
    rw [hrule, Rule.patch, heval]
    have hread' : rule.cell.read site = .ok instruction := hread
    simp only [bind, Except.bind, hread', pure, Except.pure]
    rfl
  have hrange : 21 - 1 + 2 = BranchForm.fetchPacket.range := rfl
  exact (StoredIff.of_ite hpatch).congr
    (BranchForm.reaches_iff_accepts hrange (by rintro ⟨⟩) inputs.place)

/-- A branch to zero is stored exactly if zero is within its reach. -/
theorem storedIff_null {form : BranchForm} {type : UInt32} {site : Site} {inputs : Inputs}
    (hnull : Null form inputs) (htype : type ∈ form.types)
    (hfit : site.offset + 4 ≤ site.bytes.length) :
    StoredIff (form.Reaches inputs.function inputs.place) (typeName form.machine type) inputs.place
      (patch form.machine type site inputs) := by
  cases form with
  | arm => exact Arm.storedIff_armBranch hnull htype hfit
  | thumbCall =>
    obtain rfl := List.mem_singleton.mp htype
    exact Arm.storedIff_thumbCall hnull hfit
  | thumbJump =>
    obtain rfl := List.mem_singleton.mp htype
    exact Arm.storedIff_thumbJump hnull hfit
  | fetchPacket =>
    obtain rfl := List.mem_singleton.mp htype
    exact C6000.storedIff_fetchPacket hnull hfit

/-- The types of branches patch their cell, and do not only move an address. -/
theorem BranchForm.symbolic {form : BranchForm} {type : UInt32} (htype : type ∈ form.types) :
    isInert form.machine type = false ∧ isRelative form.machine type = false := by
  have hall : form.types.all fun type =>
      !isInert form.machine type && !isRelative form.machine type := by
    cases form <;> decide
  simpa using List.all_eq_true.mp hall type htype

end Relocation

namespace Draft

open Relocation (BranchForm)

/-- A branch to a weak symbol that nobody defines resolves to zero. It is applied if zero is within its
reach from where it was placed; otherwise it overflows or would need a veneer, which ends the pass. -/
theorem step_weak_branch (linkage : Linkage) (segment : Segment) (tally : Tally)
    (entry : RelocationEntry) (form : BranchForm) (symbol : Symbol)
    (hmachine : linkage.machine = form.machine) (htype : entry.type ∈ form.types)
    (hindex : entry.symbol ≠ 0) (hsymbol : linkage.symbols[entry.symbol.toNat]? = some symbol)
    (hundefined : symbol.isDefined = false) (hpreemptible : symbol.isPreemptible = true)
    (hweak : symbol.isWeak = true)
    (hnobody : linkage.graph.globalLookup linkage.mod.policy linkage.mod.handle linkage.app
      symbol.name = none)
    (haddend : linkage.addendOf segment entry tally.block = .ok form.bias)
    (hfit : (entry.offset - segment.linkAddress).toNat + 4 ≤ tally.block.length) :
    let place := entry.offset + segment.delta
    let name := Relocation.typeName form.machine entry.type
    linkage.graph.resolve linkage.mod.policy linkage.mod.handle linkage.app linkage.symbols
        entry.symbol = .ok ⟨0, symbol.info, true⟩ ∧
      (form.Reaches symbol.isFunction place → ∃ block, tally.step linkage segment entry =
        .ok { tally with block, applied := tally.applied + 1 }) ∧
      (¬form.Reaches symbol.isFunction place →
        tally.step linkage segment entry = .error (.relocation (.needsVeneer name place)) ∨
        ∃ v, tally.step linkage segment entry = .error (.relocationOverflow name place v)) := by
  intro place name
  have hresolve := SymbolGraph.resolve_weak hsymbol hundefined hpreemptible hweak hnobody
  obtain ⟨hactive, hsymbolic⟩ := BranchForm.symbolic htype
  rw [← hmachine] at hactive hsymbolic
  let plain : Relocation.Inputs :=
    { addend := form.bias, place, staticBase := linkage.mod.staticBase
      dsbtIndex := linkage.dsbtIndex }
  have hinputs : linkage.inputs entry place form.bias =
      .ok (linkage.withSymbol ⟨0, symbol.info, true⟩ plain) := by
    rw [Linkage.inputs, hsymbolic, if_neg Bool.false_ne_true, if_neg hindex, hresolve]
    rfl
  have hnull : Relocation.Null form (linkage.withSymbol ⟨0, symbol.info, true⟩ plain) := by
    constructor <;> simp [Linkage.withSymbol, plain]
  have happly : linkage.apply segment tally.block entry =
      Relocation.patch form.machine entry.type (linkage.site segment entry tally.block)
        (linkage.withSymbol ⟨0, symbol.info, true⟩ plain) := by
    rw [Linkage.apply_of_active hactive, haddend, ← hmachine]
    exact congrArg (· >>= _) hinputs
  have hinside : (linkage.site segment entry tally.block).offset + 4 ≤ tally.block.length := hfit
  have hstored := Relocation.storedIff_null hnull htype hinside
  rw [← happly] at hstored
  refine ⟨hresolve, fun hreaches => ?_, fun hfar => ?_⟩
  · obtain ⟨block, hblock⟩ := hstored.stored hreaches
    exact ⟨block, by rw [Tally.step, hblock]⟩
  · rcases hstored.failed hfar with hveneer | ⟨v, hoverflow⟩
    · exact .inl (by rw [Tally.step, hveneer]; rfl)
    · exact .inr ⟨v, by rw [Tally.step, hoverflow]; rfl⟩

/-- A module that calls a function which nobody defines, placed 32 KiB above zero. -/
theorem step_weak_branch_near :
    let mod : Module :=
      { name := "b", handle := 1, machine := .arm, order := .little, isExecutable := false
        policy := .direct }
    let linkage : Linkage :=
      { mod, graph := ⟨[]⟩, app := none, machine := .arm, order := .little
        symbols := [default, ⟨"w", 0, 0, 0x22, 0, 0⟩], dsbtIndex := none }
    ∃ block, Tally.step linkage ⟨0, 4, 4, 5, ⟨0x8000, 4, 1⟩⟩ ⟨[0xfe, 0xff, 0xff, 0xeb], 0, 0⟩
      ⟨0, 28, 1, none⟩ = .ok ⟨block, 1, 0⟩ := by
  intro mod linkage
  exact (step_weak_branch linkage ⟨0, 4, 4, 5, ⟨0x8000, 4, 1⟩⟩ ⟨[0xfe, 0xff, 0xff, 0xeb], 0, 0⟩
    ⟨0, 28, 1, none⟩ .arm ⟨"w", 0, 0, 0x22, 0, 0⟩ rfl (by decide) (by decide) rfl (by decide)
    (by decide) (by decide) (by decide) (by decide +kernel) (by decide)).2.1 (by decide)

end Draft

namespace Loader

/-- A file with one branch to a weak function that nobody defines. -/
def weakCaller (instruction type : UInt32) : SampleObject where
  data := [instruction]
  symbols := [(3, 0, 0x22)]
  rel := [(SampleObject.dataOffset, 0x100 ||| type)]
  names := [[0x62], [0x77]]

/-- A call to it fails the load where heap memory begins far from zero, and a Thumb jump fails it even
near zero. -/
theorem weak_branch_fails_load :
    let low : SimulatedTarget := SimulatedTarget.withHeap {} 0x10000 0x20000
    ((fresh low .direct).load (weakCaller 0xebfffffe 28).image []).1 = .ok 1 ∧
      ((fresh ({} : SimulatedTarget) .direct).load (weakCaller 0xebfffffe 28).image []).1 =
        .error (.relocationOverflow "R_ARM_CALL" 0x10000074 (-0x1000007c)) ∧
      ((fresh low .direct).load (weakCaller 0xbffef7ff 30).image []).1 =
        .error (.relocation (.needsVeneer "R_ARM_THM_JUMP24" 0x10074)) := by
  decide +kernel

end Loader

end TargetLink
