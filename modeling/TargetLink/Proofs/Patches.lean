import TargetLink.Module.Relocate
import TargetLink.Proofs.Layouts
import TargetLink.Proofs.Views

/-!
# What relocating changes

A relocation changes its cell and nothing else.  Relocating a draft is a walk through its patches
(`Draft.Patched`), so a byte that no patch touches is what it was before, and a field holds what the
last patch that touches it stored there (`Draft.Patched.exists_slot`).
-/

namespace TargetLink

/-! ## Cells of relocation types -/

namespace Relocation

def Arm.Rule.cell (rule : Arm.Rule) : Cell :=
  match rule.encoding with
  | .field field _ => field.cell
  | .group _ _ _ => .word

/-- The cell that a relocation type patches, if it patches any. -/
def cell? (machine : Machine) (type : UInt32) : Option Cell :=
  match machine with
  | .arm => (Kind.rule? Arm.kinds type).map (·.cell)
  | .c6000 => (Kind.rule? C6000.kinds type).map (·.cell)

variable {machine : Machine} {type : UInt32} {name : String} {site : Site} {inputs : Inputs}
  {bytes : Bytes}

theorem C6000.exists_write_of_patch {rule : C6000.Rule} (h : rule.patch name site inputs = .ok bytes) :
    ∃ contents, bytes = rule.cell.write site contents := by
  obtain ⟨v, -, h⟩ := exists_of_bind_eq_ok h
  split at h
  · obtain ⟨instruction, -, h⟩ := exists_of_bind_eq_ok h
    exact ⟨_, (Except.ok.inj h).symm⟩
  · cases h

theorem Arm.exists_write_of_patch {rule : Arm.Rule} (h : rule.patch name site inputs = .ok bytes) :
    ∃ contents, bytes = rule.cell.write site contents := by
  rw [Rule.patch_eq] at h
  obtain ⟨mode, -, h⟩ := exists_of_bind_eq_ok h
  unfold Arm.Rule.cell
  dsimp only at h
  split at h
  · rename_i hencoding
    rw [hencoding]
    obtain ⟨instruction, -, h⟩ := exists_of_bind_eq_ok h
    split at h
    · exact ⟨_, (Except.ok.inj h).symm⟩
    · cases h
  · rename_i hencoding
    rw [hencoding]
    split at h
    · obtain ⟨instruction, -, h⟩ := exists_of_bind_eq_ok h
      exact ⟨_, (Except.ok.inj h).symm⟩
    · cases h

theorem Kind.isInert_of_rule? {ρ : Type} {kinds : List (Kind ρ)} {rule : ρ}
    (h : rule? kinds type = some rule) : isInert kinds type = false := by
  rw [isInert, treatmentOf_of_rule? h]

/-- What a relocation that succeeds has done: nothing if its type is inert, else what its rule says. -/
theorem patch_eq_ok_iff :
    patch machine type site inputs = .ok bytes ↔
      isInert machine type = true ∧ bytes = site.bytes ∨
      (∃ rule, machine = .arm ∧ Kind.rule? Arm.kinds type = some rule ∧
        rule.patch (typeName .arm type) site inputs = .ok bytes) ∨
      ∃ rule, machine = .c6000 ∧ Kind.rule? C6000.kinds type = some rule ∧
        rule.patch (typeName .c6000 type) site inputs = .ok bytes := by
  unfold patch isInert Kind.isInert Kind.rule?
  cases machine with
  | arm => cases Kind.treatmentOf Arm.kinds type <;> simp [eq_comm]
  | c6000 => cases Kind.treatmentOf C6000.kinds type <;> simp [eq_comm]

/-- A relocation writes the cell of its type. -/
theorem exists_write_of_patch (hactive : isInert machine type = false)
    (h : patch machine type site inputs = .ok bytes) :
    ∃ cell contents, cell? machine type = some cell ∧ bytes = cell.write site contents := by
  obtain ⟨hinert, -⟩ | ⟨rule, rfl, hrule, h⟩ | ⟨rule, rfl, hrule, h⟩ := patch_eq_ok_iff.mp h
  · rw [hactive] at hinert
    cases hinert
  · obtain ⟨contents, rfl⟩ := Arm.exists_write_of_patch h
    exact ⟨rule.cell, contents, by rw [cell?, hrule, Option.map_some], rfl⟩
  · obtain ⟨contents, rfl⟩ := C6000.exists_write_of_patch h
    exact ⟨rule.cell, contents, by rw [cell?, hrule, Option.map_some], rfl⟩

/-! ## The slot of a module in its code -/

namespace C6000

/-- The type whose field is the slot of the module in the table of static bases. -/
def dsbtIndexType : UInt32 := 24

/-- The slot that the word of such a cell holds. -/
def slotIn (word : Nat) : Nat := word / 2 ^ 8 % 2 ^ 15

/-- A field of one slice is a run of bits of the word. -/
theorem toNat_get_slice (word : BitVec 32) {low width : Nat} (hwidth : width ≤ 32) :
    (Layout.get [⟨0, low, width⟩] word).toNat = word.toNat / 2 ^ low % 2 ^ width := by
  have hzero : Layout.get [⟨0, low, width⟩] word = (word >>> low) &&& lowOnes width := by
    simp [Layout.get, Slice.get]
  rw [hzero, toNat_and_lowOnes _ hwidth, BitVec.toNat_ushiftRight, Nat.shiftRight_eq_div_pow]

/-- A slot number that is accepted is stored as it is. -/
theorem wrapWord_toNat {index : UInt32}
    (haccepts : (Check.unsigned 15).Accepts (wrapWord index.toNat)) :
    wrapWord index.toNat = index.toNat ∧ index.toNat < 2 ^ 15 := by
  obtain ⟨hlow, hhigh⟩ := haccepts
  have hlt := index.toNat_lt
  unfold wrapWord UInt32.size Check.span at *
  rw [Int.bmod_def] at *
  simp only [Nat.one_shiftLeft] at hhigh
  split at hlow <;> omega

/-- The cell of a slot relocation holds the slot of the module. -/
theorem exists_word_of_patch (h : patch .c6000 dsbtIndexType site inputs = .ok bytes) :
    ∃ (index : UInt32) (word : Nat), inputs.dsbtIndex = some index ∧ slotIn word = index.toNat ∧
      site.offset + 4 ≤ site.bytes.length ∧
      bytes = site.bytes.overwrite site.offset (site.order.encode 4 word) := by
  have hrule : patch .c6000 dsbtIndexType site inputs =
      Rule.patch ⟨.dsbtIndex, 0, .word, 8, 15, .unsigned 15⟩ (typeName .c6000 dsbtIndexType) site
        inputs := rfl
  rw [hrule] at h
  obtain ⟨v, hv, h⟩ := exists_of_bind_eq_ok h
  unfold Formula.eval at hv
  cases hindex : inputs.dsbtIndex with
  | none =>
    rw [hindex] at hv
    cases hv
  | some index =>
    rw [hindex] at hv
    obtain rfl := Except.ok.inj hv
    split at h
    · rename_i haccepts
      obtain ⟨instruction, hread, h⟩ := exists_of_bind_eq_ok h
      obtain rfl := Except.ok.inj h
      have hpack : Rule.pack ⟨.dsbtIndex, 0, .word, 8, 15, .unsigned 15⟩ (wrapWord index.toNat) =
          wrapWord index.toNat := Int.shiftRight_zero _
      rw [hpack] at haccepts ⊢
      obtain ⟨hvalue, hsmall⟩ := wrapWord_toNat haccepts
      rw [hvalue]
      have hlayout : Layout.WellFormed [⟨0, 8, 15⟩] .word := by decide
      have hget := hlayout.get_put (BitVec.ofInt 32 index.toNat) instruction
      refine ⟨index, _, rfl, ?_, ?_, rfl⟩
      · have hnumber := congrArg BitVec.toNat hget
        rw [toNat_get_slice _ (by decide), toNat_and_lowOnes _ (by decide)] at hnumber
        refine hnumber.trans ?_
        rw [BitVec.ofInt_natCast, BitVec.toNat_ofNat, Nat.mod_eq_of_lt (a := index.toNat)]
        · exact Nat.mod_eq_of_lt hsmall
        · exact index.toNat_lt
      · obtain ⟨n, hunit, -⟩ := exists_of_bind_eq_ok hread
        unfold Cell.unit at hunit
        split at hunit
        · rename_i part hwindow
          unfold Bytes.window at hwindow
          exact (Option.ite_none_right_eq_some.mp hwindow).1
        · cases hunit
    · cases h

/-- The slot stands in the two middle bytes of its cell, whatever the byte order is. -/
theorem slotIn_decode (order : ByteOrder) (word : Nat) {bytes : Bytes} (hlength : bytes.length = 4)
    (hmiddle : ∀ i, i = 1 ∨ i = 2 → bytes[i]? = (order.encode 4 word)[i]?) :
    slotIn (order.decode bytes) = slotIn word := by
  obtain ⟨b0, b1, b2, b3, rfl⟩ := List.length_eq_four.mp hlength
  have hfirst := hmiddle 1 (Or.inl rfl)
  have hsecond := hmiddle 2 (Or.inr rfl)
  have h0 := b0.toNat_lt
  have h1 := b1.toNat_lt
  have h2 := b2.toNat_lt
  have h3 := b3.toNat_lt
  cases order with
  | little =>
    simp only [ByteOrder.encode, toLittle, List.getElem?_cons_succ, List.getElem?_cons_zero,
      Option.some_inj] at hfirst hsecond
    subst hfirst hsecond
    simp only [slotIn, ByteOrder.decode, ofLittle, UInt8.toNat_ofNat'] at *
    omega
  | big =>
    simp only [ByteOrder.encode, toLittle, List.reverse_cons, List.reverse_nil, List.nil_append,
      List.cons_append, List.getElem?_cons_succ, List.getElem?_cons_zero, Option.some_inj]
      at hfirst hsecond
    subst hfirst hsecond
    simp only [slotIn, ByteOrder.decode, ofLittle, List.reverse_cons, List.reverse_nil,
      List.nil_append, List.cons_append, UInt8.toNat_ofNat'] at *
    omega

end C6000

end Relocation

/-! ## The patches of a module -/

namespace Draft

/-- A relocation and the segment whose contents it patches. -/
structure Patch where
  machine : Machine
  segment : Segment
  entry : RelocationEntry

namespace Patch

/-- The place of the cell in its segment. -/
def offset (patch : Patch) : UInt32 := patch.entry.offset - patch.segment.linkAddress

/-- The final address of the cell. -/
def address (patch : Patch) : UInt32 := patch.segment.address + patch.offset

/-- The final address is one of the patched cell. -/
def Touches (patch : Patch) (address : Nat) : Prop :=
  ∃ cell ∈ Relocation.cell? patch.machine patch.entry.type, patch.address.toNat ≤ address ∧
    address < patch.address.toNat + cell.size

instance (patch : Patch) (address : Nat) : Decidable (patch.Touches address) :=
  inferInstanceAs (Decidable (∃ cell ∈ Relocation.cell? patch.machine patch.entry.type, _))

/-- The patch stores the slot of the module. -/
def StoresSlot (patch : Patch) : Prop :=
  patch.machine = .c6000 ∧ patch.entry.type = Relocation.C6000.dsbtIndexType

instance (patch : Patch) : Decidable patch.StoresSlot := inferInstanceAs (Decidable (_ ∧ _))

/-- The cell of a patch lies where its segment went. -/
theorem toNat_address (patch : Patch) (hfits : patch.segment.Fits)
    (hinside : patch.segment.containsLink patch.entry.offset) :
    patch.address.toNat = patch.segment.address.toNat + patch.offset.toNat := by
  have hlt : patch.offset.toNat < patch.segment.memorySize.toNat :=
    UInt32.lt_iff_toNat_lt.mp (of_decide_eq_true hinside)
  unfold Segment.Fits UInt32.size at hfits
  rw [address, UInt32.toNat_add]
  omega

/-- What one patch makes of a view. -/
structure Step (order : ByteOrder) (slot? : Option UInt32) (patch : Patch) (before after : View) :
    Prop where
  kept : ∀ a byte, ¬patch.Touches a → before a byte → after a byte
  stored : patch.StoresSlot → patch.segment.Spans patch.address 4 ∧
    ∃ (slot : UInt32) (word : Nat), slot? = some slot ∧ Relocation.C6000.slotIn word = slot.toNat ∧
      after.Reads patch.address.toNat (order.encode 4 word)

end Patch

/-- The patches of a file in the segments from a position on, in the order in which they are
applied. -/
def patchesFrom (file : ObjectFile) (pltHome : Option Nat) (position : Nat)
    (segments : List Segment) : List Patch :=
  (segments.zipIdx position).flatMap fun (segment, position) =>
    (entriesOf file segment (pltHome = some position)).map (⟨file.machine, segment, ·⟩)

/-- The patches of a module. A static module has none. -/
def patches (draft : Draft) (segments : List Segment) : List Patch :=
  if draft.file.isRelocatable then
    patchesFrom draft.file (draft.file.plt.head?.bind (homeOf? segments)) 0 segments
  else []

theorem segment_mem_of_patches {draft : Draft} {segments : List Segment} {patch : Patch}
    (h : patch ∈ draft.patches segments) : patch.segment ∈ segments := by
  unfold patches patchesFrom at h
  split at h
  · obtain ⟨⟨segment, position⟩, hsegment, hpatch⟩ := List.mem_flatMap.mp h
    obtain ⟨entry, -, rfl⟩ := List.mem_map.mp hpatch
    exact List.fst_mem_of_mem_zipIdx hsegment
  · cases h

/-- A view after some patches. -/
inductive Patched (order : ByteOrder) (slot? : Option UInt32) : List Patch → View → View → Prop
  | nil {view : View} : Patched order slot? [] view view
  | cons {patch : Patch} {patches : List Patch} {before middle after : View} :
      patch.Step order slot? before middle → Patched order slot? patches middle after →
      Patched order slot? (patch :: patches) before after

namespace Patched

variable {order : ByteOrder} {slot? : Option UInt32} {patch : Patch}
  {patches earlier later : List Patch} {before middle after : View}

/-- A byte that no patch touches is kept. -/
theorem kept (h : Patched order slot? patches before after) {a : Nat} {byte : UInt8}
    (huntouched : ∀ patch ∈ patches, ¬patch.Touches a) (hseen : before a byte) : after a byte := by
  induction h with
  | nil => exact hseen
  | cons hstep _ ih =>
    obtain ⟨hfirst, hrest⟩ := List.forall_mem_cons.mp huntouched
    exact ih hrest (hstep.kept a byte hfirst hseen)

theorem append (hfirst : Patched order slot? earlier before middle)
    (hsecond : Patched order slot? later middle after) :
    Patched order slot? (earlier ++ later) before after := by
  induction hfirst with
  | nil => exact hsecond
  | cons hstep _ ih => exact .cons hstep (ih hsecond)

/-- A patch is one step of the walk, and the later ones follow. -/
theorem split (h : Patched order slot? (earlier ++ patch :: later) before after) :
    ∃ first second, patch.Step order slot? first second ∧ Patched order slot? later second after := by
  induction earlier generalizing before with
  | nil =>
    cases h with
    | cons hstep hrest => exact ⟨_, _, hstep, hrest⟩
  | cons other earlier ih =>
    cases h with
    | cons _ hrest => exact ih hrest

/-- What patches do to a view they do beside another one. -/
theorem beside (other : View) (h : Patched order slot? patches before after) :
    Patched order slot? patches (fun a byte => before a byte ∨ other a byte)
      (fun a byte => after a byte ∨ other a byte) := by
  induction h with
  | nil => exact .nil
  | cons hstep _ ih =>
    refine .cons ⟨fun a byte huntouched => Or.imp_left (hstep.kept a byte huntouched), ?_⟩ ih
    intro hslot
    obtain ⟨hspans, slot, word, hsome, hword, hreads⟩ := hstep.stored hslot
    exact ⟨hspans, slot, word, hsome, hword, fun i byte hbyte => Or.inl (hreads i byte hbyte)⟩

/-- A slot is read from its cell, unless a later patch touches one of the two bytes that hold it. -/
theorem exists_slot (h : Patched order slot? (earlier ++ patch :: later) before after)
    (hslot : patch.StoresSlot) : patch.segment.Spans patch.address 4 ∧
      ∃ (slot : UInt32) (word : Nat), slot? = some slot ∧ Relocation.C6000.slotIn word = slot.toNat ∧
      ∀ i byte, (∀ other ∈ later, ¬other.Touches (patch.address.toNat + i)) →
        (order.encode 4 word)[i]? = some byte → after (patch.address.toNat + i) byte := by
  obtain ⟨first, second, hstep, hlater⟩ := h.split
  obtain ⟨hspans, slot, word, hsome, hword, hreads⟩ := hstep.stored hslot
  exact ⟨hspans, slot, word, hsome, hword, fun i byte huntouched hbyte =>
    hlater.kept huntouched (hreads i byte hbyte)⟩

end Patched

/-! ## Relocating -/

namespace Linkage

variable {linkage : Linkage} {segment : Segment} {block block' : Bytes} {entry : RelocationEntry}

/-- Resolving a symbol does not move the slot of the module. -/
theorem dsbtIndex_of_inputs {place : UInt32} {addend : Int32} {inputs : Relocation.Inputs}
    (h : linkage.inputs entry place addend = .ok inputs) :
    inputs.dsbtIndex = linkage.dsbtIndex := by
  unfold Linkage.inputs at h
  dsimp only at h
  split at h
  · exact (Except.ok.inj h) ▸ rfl
  · split at h
    · exact (Except.ok.inj h) ▸ rfl
    · obtain ⟨resolution, -, h⟩ := exists_of_bind_eq_ok h
      exact (Except.ok.inj h) ▸ rfl

/-- A relocation that is applied patches its cell, unless it is inert. -/
theorem exists_patch_of_apply (hactive : Relocation.isInert linkage.machine entry.type = false)
    (h : linkage.apply segment block entry = .ok block') :
    ∃ inputs, inputs.dsbtIndex = linkage.dsbtIndex ∧
      Relocation.patch linkage.machine entry.type
        ⟨block, (entry.offset - segment.linkAddress).toNat, linkage.order⟩ inputs = .ok block' := by
  have hpatch : ∀ (place : UInt32) (addend : Int32), (do
      let inputs ← linkage.inputs entry place addend
      Relocation.patch linkage.machine entry.type
        ⟨block, (entry.offset - segment.linkAddress).toNat, linkage.order⟩ inputs) = .ok block' →
      ∃ inputs, inputs.dsbtIndex = linkage.dsbtIndex ∧ Relocation.patch linkage.machine entry.type
        ⟨block, (entry.offset - segment.linkAddress).toNat, linkage.order⟩ inputs = .ok block' := by
    intro place addend hrun
    obtain ⟨inputs, hinputs, hrun⟩ := exists_of_bind_eq_ok hrun
    exact ⟨inputs, dsbtIndex_of_inputs hinputs, hrun⟩
  rw [apply, hactive, if_neg Bool.false_ne_true] at h
  dsimp only at h
  split at h <;> obtain ⟨addend, -, h⟩ := exists_of_bind_eq_ok h <;> exact hpatch _ addend h

/-- A relocation that is applied writes its cell; an inert one writes nothing. -/
theorem write_of_apply (h : linkage.apply segment block entry = .ok block') :
    block' = block ∨ ∃ cell contents, Relocation.cell? linkage.machine entry.type = some cell ∧
      block' = cell.write ⟨block, (entry.offset - segment.linkAddress).toNat, linkage.order⟩
        contents := by
  cases hactive : Relocation.isInert linkage.machine entry.type with
  | true =>
    rw [apply, hactive, if_pos rfl] at h
    exact Or.inl (Except.ok.inj h).symm
  | false =>
    obtain ⟨inputs, -, hpatch⟩ := exists_patch_of_apply hactive h
    exact Or.inr (Relocation.exists_write_of_patch hactive hpatch)

theorem length_of_apply (h : linkage.apply segment block entry = .ok block') :
    block'.length = block.length := by
  rcases write_of_apply h with rfl | ⟨cell, contents, -, rfl⟩
  · rfl
  · exact cell.length_write _ contents

/-- A slot relocation that is applied stores the slot of the module. -/
theorem exists_word_of_apply (hmachine : linkage.machine = .c6000)
    (htype : entry.type = Relocation.C6000.dsbtIndexType)
    (h : linkage.apply segment block entry = .ok block') :
    ∃ (slot : UInt32) (word : Nat), linkage.dsbtIndex = some slot ∧
      Relocation.C6000.slotIn word = slot.toNat ∧
      (entry.offset - segment.linkAddress).toNat + 4 ≤ block.length ∧
      block' = block.overwrite (entry.offset - segment.linkAddress).toNat
        (linkage.order.encode 4 word) := by
  have hactive : Relocation.isInert linkage.machine entry.type = false := by
    rw [hmachine, htype]
    rfl
  obtain ⟨inputs, hindex, hpatch⟩ := exists_patch_of_apply hactive h
  rw [hmachine, htype] at hpatch
  rw [← hindex]
  exact Relocation.C6000.exists_word_of_patch hpatch

end Linkage

variable {linkage : Linkage} {segment : Segment} {segments : List Segment} {block : Bytes}
  {entry : RelocationEntry} {file : ObjectFile}

theorem step_of_apply {block' : Bytes} (hfits : segment.Fits)
    (hlength : block.length = segment.memorySize.toNat) (hinside : segment.containsLink entry.offset)
    (h : linkage.apply segment block entry = .ok block') :
    Patch.Step linkage.order linkage.dsbtIndex ⟨linkage.machine, segment, entry⟩
      (segment.blockView block) (segment.blockView block') := by
  have haddress := Patch.toNat_address ⟨linkage.machine, segment, entry⟩ hfits hinside
  constructor
  case kept =>
    rintro a byte huntouched ⟨hle, hbyte⟩
    refine ⟨hle, ?_⟩
    rcases Linkage.write_of_apply h with rfl | ⟨cell, contents, hcell, rfl⟩
    · exact hbyte
    · rw [cell.getElem?_write_of_outside]
      · exact hbyte
      · by_contra hinside'
        refine huntouched ⟨cell, hcell, ?_⟩
        unfold Patch.offset at haddress
        dsimp only at haddress hinside' ⊢
        omega
  case stored =>
    rintro ⟨hmachine, htype⟩
    obtain ⟨slot, word, hslot, hword, hroom, rfl⟩ := Linkage.exists_word_of_apply hmachine htype h
    have hoffset : segment.address + (entry.offset - segment.linkAddress) - segment.address =
        entry.offset - segment.linkAddress := by
      rw [UInt32.add_comm, UInt32.add_sub_cancel]
    refine ⟨⟨?_, ?_⟩, slot, word, hslot, hword, fun i byte hbyte => ?_⟩
    · rw [Segment.contains, Patch.address, Patch.offset, hoffset]
      exact hinside
    · rw [Patch.address, Patch.offset, hoffset, ← hlength]
      exact hroom
    have hi := (List.getElem?_eq_some_iff.mp hbyte).1
    rw [ByteOrder.length_encode] at hi
    rw [haddress]
    unfold Patch.offset
    dsimp only at hroom ⊢
    refine ⟨by omega, ?_⟩
    rw [Bytes.getElem?_overwrite _ _ _ _ (by omega), ByteOrder.length_encode, if_pos (by omega),
      ← hbyte]
    congr 1
    omega

/-- A relocation that is not counted as unresolved is applied. -/
theorem apply_of_step {tally tally' : Tally} (h : tally.step linkage segment entry = .ok tally')
    (hresolved : tally'.unresolved = 0) :
    tally.unresolved = 0 ∧ linkage.apply segment tally.block entry = .ok tally'.block := by
  unfold Tally.step at h
  split at h
  · rename_i happly
    obtain rfl := Except.ok.inj h
    exact ⟨hresolved, happly⟩
  · obtain rfl := Except.ok.inj h
    cases hresolved
  · cases h

theorem length_of_step {tally tally' : Tally} (h : tally.step linkage segment entry = .ok tally') :
    tally'.block.length = tally.block.length := by
  unfold Tally.step at h
  split at h
  · rename_i happly
    obtain rfl := Except.ok.inj h
    exact Linkage.length_of_apply happly
  · obtain rfl := Except.ok.inj h
    rfl
  · cases h

/-- The relocations of a segment walk through its patches. -/
theorem patched_of_foldlM (hfits : segment.Fits) {entries : List RelocationEntry}
    (hinside : ∀ entry ∈ entries, segment.containsLink entry.offset) {tally tally' : Tally}
    (hblock : tally.block.length = segment.memorySize.toNat)
    (h : entries.foldlM (Tally.step linkage segment) tally = .ok tally')
    (hresolved : tally'.unresolved = 0) :
    tally.unresolved = 0 ∧ tally'.block.length = tally.block.length ∧
      Patched linkage.order linkage.dsbtIndex (entries.map (⟨linkage.machine, segment, ·⟩))
        (segment.blockView tally.block) (segment.blockView tally'.block) := by
  induction entries generalizing tally with
  | nil =>
    obtain rfl := Except.ok.inj h
    exact ⟨hresolved, rfl, .nil⟩
  | cons entry entries ih =>
    obtain ⟨hfirst, hrest⟩ := List.forall_mem_cons.mp hinside
    obtain ⟨middle, hstep, h⟩ := exists_of_bind_eq_ok h
    -- the lengths of blocks come first: the induction hypothesis needs that of the middle one
    have hsame : middle.block.length = tally.block.length := length_of_step hstep
    obtain ⟨hmiddle, hlength, hpatched⟩ := ih hrest (hsame.trans hblock) h
    obtain ⟨hnone, happly⟩ := apply_of_step hstep hmiddle
    exact ⟨hnone, hlength.trans hsame, .cons (step_of_apply hfits hblock hfirst happly) hpatched⟩

/-- Relocating segments walks through all their patches. -/
theorem patched_of_relocateFrom {pltHome : Option Nat} {position : Nat} {segments : List Segment}
    {blocks blocks' : List Bytes} {applied unresolved : Nat} {totals : Nat × Nat}
    (hmachine : linkage.machine = file.machine) (hfill : Segment.Fill segments blocks)
    (h : relocateFrom linkage file pltHome position segments blocks applied unresolved =
      .ok (blocks', totals)) (hresolved : totals.2 = 0) :
    unresolved = 0 ∧ Segment.Fill segments blocks' ∧
      Patched linkage.order linkage.dsbtIndex (patchesFrom file pltHome position segments)
        (Segment.view segments blocks) (Segment.view segments blocks') := by
  induction hfill generalizing position blocks' applied unresolved with
  | nil =>
    obtain ⟨rfl, rfl⟩ := Prod.mk.inj (Except.ok.inj h)
    exact ⟨hresolved, .nil, .nil⟩
  | @cons segment block segments blocks hfirst hrest ih =>
    obtain ⟨tally, htally, h⟩ := exists_of_bind_eq_ok h
    obtain ⟨⟨rest, totals'⟩, hfrom, h⟩ := exists_of_bind_eq_ok h
    obtain ⟨rfl, rfl⟩ := Prod.mk.inj (Except.ok.inj h)
    obtain ⟨hnone, hfill, hpatched⟩ := ih hfrom
    obtain ⟨hnone, hlength, hblock⟩ := patched_of_foldlM hfirst.1
      (fun entry hentry => (List.mem_filter.mp hentry).2) hfirst.2 htally hnone
    refine ⟨hnone, .cons ⟨hfirst.1, hlength.trans hfirst.2⟩ hfill, ?_⟩
    rw [patchesFrom, List.zipIdx_cons, List.flatMap_cons, ← hmachine]
    rw [Segment.view_cons_eq, Segment.view_cons_eq]
    refine (hblock.beside _).append ?_
    have hothers := hpatched.beside (segment.blockView tally.block)
    rwa [patchesFrom, ← hmachine, View.or_comm, View.or_comm (Segment.view segments rest)] at hothers

theorem pltHome_of_checkHomes {segments : List Segment} {pltHome : Option Nat}
    (h : checkHomes file segments = .ok pltHome) :
    pltHome = file.plt.head?.bind (homeOf? segments) := by
  unfold checkHomes at h
  dsimp only at h
  split at h
  · cases h
  · split at h
    · cases h
    · exact (Except.ok.inj h).symm

/-- What relocating a draft makes of its staged contents. -/
structure Relocated (draft : Draft) (segments : List Segment) (blocks : List Bytes) : Prop where
  fill : Segment.Fill segments blocks
  patched : Patched draft.file.order draft.dsbtIndex (draft.patches segments)
    (Segment.view segments draft.staged) (Segment.view segments blocks)

theorem relocated_of_relocate {draft done : Draft} {modules : List Module} {app : Option Handle}
    {applied : Nat} {m : Module} (hrelocatable : draft.file.isRelocatable)
    (hfind : Module.find? modules draft.handle = some m)
    (hfill : Segment.Fill m.segments draft.staged)
    (h : draft.relocate modules app = .ok (done, applied)) :
    draft.Relocated m.segments done.staged := by
  unfold relocate at h
  rw [hfind] at h
  dsimp only at h
  split at h
  · cases h
  · obtain ⟨pltHome, hhomes, h⟩ := exists_of_bind_eq_ok h
    obtain ⟨⟨staged, applied', unresolved⟩, hfrom, h⟩ := exists_of_bind_eq_ok h
    dsimp only at h
    split at h
    · cases h
    · rename_i hresolved
      obtain ⟨rfl, -⟩ := Prod.mk.inj (Except.ok.inj h)
      obtain ⟨-, hdone, hpatched⟩ := patched_of_relocateFrom rfl hfill hfrom
        (Nat.eq_zero_of_not_pos hresolved)
      refine ⟨hdone, ?_⟩
      rw [patches, if_pos hrelocatable, ← pltHome_of_checkHomes hhomes]
      exact hpatched

end Draft

end TargetLink
