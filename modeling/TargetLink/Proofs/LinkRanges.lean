import TargetLink.Proofs.StaticImages
import TargetLink.Proofs.Translation

/-!
# Where a link-time address lives

Two paths lead from the address that something was linked at to its bytes.  A table is read through the
program headers: the first one whose part of the file covers the table says where it stands in the file.  A
segment is staged as its part of the file followed by zeros, and is found by its range in memory, which may
be longer; headers without memory get no segment.

Both paths agree for a file whose segments do not overlap (`ObjectFile.Unfolded`), from the moment its module
is entered and before any byte of it is stored (`Loading.enter_mirrors`).
-/

namespace TargetLink

open TargetLink.Module (handlesOf)
open LoadM (Triple Within bind_apply)

/-! ## Stretches of stretches -/

/-- Lengths inside a 32-bit length do not wrap. -/
theorem toNat_ofNat_of_le {n : Nat} {bound : UInt32} (h : n ≤ bound.toNat) : (UInt32.ofNat n).toNat = n :=
  UInt32.toNat_ofNat_of_lt' (h.trans_lt bound.toNat_lt)

namespace Bytes

variable {block part rest : Bytes} {offset width start length : Nat}

theorem window_window (h : block.window offset width = some part) (hfit : start + length ≤ width) :
    part.window start length = block.window (offset + start) length := by
  have hlength := length_window h
  unfold window at h
  split at h
  · rename_i hinside
    obtain rfl := Option.some.inj h
    rw [window, window, if_pos (by omega), if_pos (by omega)]
    rw [List.drop_take, List.take_take, List.drop_drop, Nat.min_eq_left (by omega)]
  · cases h

theorem window_append_left (hfit : start + length ≤ part.length) :
    (part ++ rest).window start length = part.window start length := by
  rw [window, window, if_pos (by rw [List.length_append]; omega), if_pos hfit,
    List.drop_append_of_le_length (by omega), List.take_append_of_le_length (by rw [List.length_drop]; omega)]

theorem wordAt_window {order : ByteOrder}
    (h : block.window offset width = some part) (hfit : start + 4 ≤ width) :
    part.wordAt order start = block.wordAt order (offset + start) := by
  unfold window at h
  split at h
  · obtain rfl := Option.some.inj h
    rw [wordAt, wordAt, numberAt, numberAt, List.drop_take, List.take_take,
      List.drop_drop, Nat.min_eq_left (by omega)]
  · cases h

end Bytes

/-! ## Segments of a file -/

namespace ProgramHeader

/-- An address lies in the memory of the segment as it was linked. -/
def covers (header : ProgramHeader) (address : UInt32) : Bool :=
  address - header.address < header.memorySize

/-- A stretch from an address on lies in the part of the segment that the file has. -/
def backs (header : ProgramHeader) (address length : UInt32) : Bool :=
  let start := address - header.address
  header.isLoad && start < header.fileSize && length ≤ header.fileSize - start

variable {header : ProgramHeader} {address length : UInt32}

theorem backs_iff : header.backs address length = true ↔ header.isLoad = true ∧
    address - header.address < header.fileSize ∧
      (address - header.address).toNat + length.toNat ≤ header.fileSize.toNat := by
  simp only [backs, Bool.and_eq_true, decide_eq_true_eq, and_assoc]
  refine and_congr_right fun _ => and_congr_right fun hstart => ?_
  rw [UInt32.le_iff_toNat_le, UInt32.toNat_sub_of_le _ _ (UInt32.le_of_lt hstart)]
  rw [UInt32.lt_iff_toNat_lt] at hstart
  omega

/-- What backs a table backs its parts. -/
theorem backs_part (h : header.backs address length = true) {start width : Nat}
    (hwidth : 0 < width) (hfit : start + width ≤ length.toNat) :
    header.backs (address + UInt32.ofNat start) (UInt32.ofNat width) = true ∧
      (address + UInt32.ofNat start - header.address).toNat =
        (address - header.address).toNat + start := by
  obtain ⟨hload, -, hinside⟩ := backs_iff.mp h
  have hlt := header.fileSize.toNat_lt
  have hsub : address + UInt32.ofNat start - header.address =
      address - header.address + UInt32.ofNat start := by grind
  have hstart : (UInt32.ofNat start).toNat = start :=
    toNat_ofNat_of_le ((Nat.le_add_right _ _).trans hfit)
  have hlength : (UInt32.ofNat width).toNat = width :=
    toNat_ofNat_of_le ((Nat.le_add_left _ _).trans hfit)
  have hsum : (address + UInt32.ofNat start - header.address).toNat =
      (address - header.address).toNat + start := by
    rw [hsub, UInt32.toNat_add, hstart, Nat.mod_eq_of_lt (by omega)]
  refine ⟨backs_iff.mpr ⟨hload, ?_, ?_⟩, hsum⟩
  · rw [UInt32.lt_iff_toNat_lt, hsum]
    omega
  · rw [hsum, hlength]
    omega

end ProgramHeader

namespace ObjectFile

/-- No address was linked into two segments of the file. -/
def Unfolded (file : ObjectFile) : Prop :=
  file.loadHeaders.Pairwise fun header other =>
    ∀ address, header.covers address = true → other.covers address = false

variable {image : Image} {file : ObjectFile} {header : ProgramHeader} {address length : UInt32}
  {offset : Nat}

/-- An address was linked into one segment at most. -/
theorem Unfolded.eq_of_covers (h : file.Unfolded) {i j : Nat} (hi : i < file.loadHeaders.length)
    (hj : j < file.loadHeaders.length) (hfirst : file.loadHeaders[i].covers address = true)
    (hsecond : file.loadHeaders[j].covers address = true) : j = i := by
  have hpairs := List.pairwise_iff_getElem.mp h
  rcases Nat.lt_trichotomy i j with hlt | heq | hgt
  · exact absurd hsecond (Bool.eq_false_iff.mp (hpairs i j hi hj hlt address hfirst))
  · exact heq.symm
  · exact absurd hfirst (Bool.eq_false_iff.mp (hpairs j i hj hi hgt address hsecond))

theorem Unfolded.eq_of_mem (h : file.Unfolded) {other : ProgramHeader} (hheader : header ∈ file.loadHeaders)
    (hother : other ∈ file.loadHeaders) (hfirst : header.covers address = true)
    (hsecond : other.covers address = true) : other = header := by
  obtain ⟨i, hi, rfl⟩ := List.getElem_of_mem hheader
  obtain ⟨j, hj, rfl⟩ := List.getElem_of_mem hother
  obtain rfl := h.eq_of_covers hi hj hfirst hsecond
  rfl

theorem exists_fileOffset {headers : List ProgramHeader} (hheader : header ∈ headers)
    (hbacks : header.backs address length = true) :
    ∃ offset, fileOffset headers address length = .ok offset := by
  unfold fileOffset
  dsimp only
  split
  · exact ⟨_, rfl⟩
  · rename_i hnone
    exact absurd hbacks (List.find?_eq_none.mp hnone header hheader)

theorem exists_of_fileOffset {headers : List ProgramHeader}
    (h : fileOffset headers address length = .ok offset) :
    ∃ header ∈ headers, header.backs address length = true ∧
      offset = header.offset.toNat + (address - header.address).toNat := by
  unfold fileOffset at h
  dsimp only at h
  split at h
  · rename_i header hfind
    have hbacks : header.backs address length = true :=
      List.find?_some (p := fun header : ProgramHeader => header.backs address length) hfind
    exact ⟨header, List.mem_of_find?_eq_some hfind, hbacks, (Except.ok.inj h).symm⟩
  · cases h

/-- What is backed by the file is backed by the file's part of a segment with memory. -/
theorem mem_loadHeaders_of_backs (h : ObjectFile.read image = .ok file)
    (hheader : header ∈ file.programHeaders) (hbacks : header.backs address length = true) :
    header ∈ file.loadHeaders ∧ header.covers address = true := by
  obtain ⟨hload, hstart, -⟩ := ProgramHeader.backs_iff.mp hbacks
  have hcovers : address - header.address < header.memorySize :=
    UInt32.lt_of_lt_of_le hstart (checked_of_read h hheader hload).1
  refine ⟨List.mem_filter.mpr ⟨hheader, ?_⟩, decide_eq_true hcovers⟩
  have hmemory : header.memorySize ≠ 0 := by
    intro hzero
    rw [hzero] at hcovers
    exact absurd hcovers UInt32.not_lt_zero
  simpa [hload] using hmemory

theorem readTable_of_window {headers : List ProgramHeader} {bytes : Bytes}
    (hoffset : fileOffset headers address length = .ok offset)
    (hwindow : Bytes.window image offset length.toNat = some bytes) :
    readTable image headers address length = .ok bytes := by
  unfold readTable
  split
  · rename_i hzero
    rw [List.eq_nil_of_length_eq_zero ((Bytes.length_window hwindow).trans (hzero ▸ rfl))]
    rfl
  · rw [hoffset]
    simp only [Image.read, bind, Except.bind, hwindow]

theorem exists_window_of_readTable {headers : List ProgramHeader} {bytes : Bytes}
    (h : readTable image headers address length = .ok bytes) (hlength : 0 < length.toNat) :
    ∃ offset, fileOffset headers address length = .ok offset ∧
      Bytes.window image offset length.toNat = some bytes := by
  unfold readTable at h
  split at h
  · rename_i hzero
    rw [hzero] at hlength
    cases hlength
  · obtain ⟨offset, hoffset, h⟩ := exists_of_bind_eq_ok h
    refine ⟨offset, hoffset, ?_⟩
    unfold Image.read at h
    split at h
    · rename_i found hwindow
      rw [hwindow, Except.ok.inj h]
    · cases h

/-- Part of a table is read alone as it is read with the table, if the segments do not overlap. -/
theorem readTable_part (hread : ObjectFile.read image = .ok file) (hapart : file.Unfolded)
    {bytes : Bytes} {start width : Nat}
    (htable : readTable image file.programHeaders address length = .ok bytes) (hwidth : 0 < width)
    (hfit : start + width ≤ length.toNat) :
    ∃ part, readTable image file.programHeaders (address + UInt32.ofNat start) (UInt32.ofNat width) =
      .ok part ∧ bytes.window start width = some part := by
  obtain ⟨offset, hoffset, hwindow⟩ := exists_window_of_readTable htable (by omega)
  obtain ⟨header, hheader, hbacks, rfl⟩ := exists_of_fileOffset hoffset
  obtain ⟨hpart, hsum⟩ := ProgramHeader.backs_part hbacks hwidth hfit
  obtain ⟨_, hoffset'⟩ := exists_fileOffset hheader hpart
  obtain ⟨other, hother, hbacks', rfl⟩ := exists_of_fileOffset hoffset'
  obtain ⟨hload, hcovers⟩ := mem_loadHeaders_of_backs hread hheader hpart
  obtain ⟨hload', hcovers'⟩ := mem_loadHeaders_of_backs hread hother hbacks'
  obtain rfl := hapart.eq_of_mem hload hload' hcovers hcovers'
  have hinside : bytes.window start width = some ((bytes.drop start).take width) :=
    if_pos (by rw [Bytes.length_window hwindow]; exact hfit)
  refine ⟨_, readTable_of_window hoffset' ?_, hinside⟩
  have hlength : (UInt32.ofNat width).toNat = width :=
    toNat_ofNat_of_le ((Nat.le_add_left _ _).trans hfit)
  rw [hsum, hlength, ← Nat.add_assoc, ← Bytes.window_window hwindow hfit]
  exact hinside

/-- The bytes of a table are those of the segment that backs it, once that is staged. -/
theorem readTable_eq_window (h : ObjectFile.read image = .ok file)
    (hoffset : fileOffset file.programHeaders address length = .ok offset)
    (hheader : header ∈ file.programHeaders) (hbacks : header.backs address length = true)
    (heq : offset = header.offset.toNat + (address - header.address).toNat)
    {block : Bytes} (hstage : header.part.stage image = .ok block) :
    ∃ bytes, readTable image file.programHeaders address length = .ok bytes ∧
      block.window (address - header.address).toNat length.toNat = some bytes := by
  obtain ⟨part, hpart⟩ := exists_window_of_read h (mem_loadHeaders_of_backs h hheader hbacks).1
  obtain ⟨hload, -, hfit⟩ := ProgramHeader.backs_iff.mp hbacks
  obtain rfl : block = part ++ Bytes.zeros (header.memorySize.toNat - header.fileSize.toNat) :=
    CopyRequest.eq_of_stage hstage hpart
  have hwindow := Bytes.window_window hpart hfit
  rw [← Bytes.window_append_left ((Bytes.length_window hpart).symm ▸ hfit), ← heq] at hwindow
  rw [hwindow]
  have hinside := (checked_of_read h hheader hload).2
  have hread : image.window offset length.toNat =
      some ((List.drop offset image).take length.toNat) := by
    simp only [Image.contains, decide_eq_true_eq] at hinside
    exact if_pos (by omega)
  exact ⟨_, readTable_of_window hoffset hread, hread⟩

end ObjectFile

/-! ## Placed segments -/

theorem Loader.find?_update {σ : Type} {loader : Loader σ} {handle : Handle} {f : Module → Module}
    {m : Module} (h : ∀ m, (f m).handle = m.handle)
    (hfind : Module.find? loader.modules handle = some m) :
    Module.find? (loader.update handle f).modules handle = some (f m) :=
  (Loader.find?_updateModule h).trans (congrArg (Option.map f) hfind)

/-- The client stages what the file has, followed by zeros, whenever it stages anything. -/
def Client.Copies (σ : Type) [Client σ] : Prop :=
  ∀ (image : Image) (request : CopyRequest) (client : σ) (block : Bytes),
    (Client.copy image request client).1 = .ok block → request.stage image = .ok block

namespace Loading

variable {σ : Type} [Client σ] {image : Image} {file : ObjectFile} {handle : Handle}

/-- A module has one segment for each of the headers, in their order. -/
def Houses (handle : Handle) (headers : List ProgramHeader) (loading : Loading σ) : Prop :=
  ∃ m, Module.find? loading.loader.modules handle = some m ∧
    List.Forall₂ (fun header segment => ∃ allocation, segment = header.segmentIn allocation)
      headers m.segments

omit [Client σ] in
theorem houses_onClient {α : Type} (headers : List ProgramHeader) (step : LoadM σ α) :
    Triple (Houses handle headers) (onClient step) (fun _ => Houses handle headers) (fun _ => True) :=
  Within.triple (R := fun before after => after.loader.modules = before.loader.modules) (fun _ => rfl)
    (fun _ after h hsame => by rwa [Houses, hsame]) fun _ _ => trivial

theorem placeSegment_houses (hcopies : Client.Copies σ) (relocatable : Bool) (header : ProgramHeader)
    (headers : List ProgramHeader) :
    Triple (Houses handle headers) (placeSegment handle image relocatable header)
      (fun block loading => Houses handle (headers ++ [header]) loading ∧
        header.part.stage image = .ok block) (fun _ : Loading σ => True) := by
  refine placeSegment_cases (houses_onClient headers _) (fun _ _ => (houses_onClient headers _).weaken
    (fun _ _ _ => trivial) fun _ h => h) fun allocation _ => ?_
  refine Triple.bind (R := fun _ => Houses handle (headers ++ [header])) ?_ fun _ loading h => ?_
  · refine Triple.modify fun loading h => ?_
    obtain ⟨m, hfind, hsegments⟩ := h
    refine ⟨{ m with segments := m.segments ++ [header.segmentIn allocation] }, ?_,
      List.rel_append hsegments (.cons ⟨allocation, rfl⟩ .nil)⟩
    exact Loader.find?_update
      (f := fun m => { m with segments := m.segments ++ [header.segmentIn allocation] })
      (fun _ => rfl) hfind
  · rw [onClient_apply]
    cases hcopy : (Client.copy image header.part loading.loader.client).1 with
    | error e => trivial
    | ok block => exact ⟨h, hcopies _ _ _ _ hcopy⟩

theorem placeSegments_houses (hcopies : Client.Copies σ) (image : Image) (file : ObjectFile) :
    Triple (Houses handle []) (placeSegments handle image file)
      (fun staged loading => Houses handle file.loadHeaders loading ∧
        List.Forall₂ (fun header block => header.part.stage image = .ok block) file.loadHeaders staged)
      (fun _ : Loading σ => True) := by
  refine (resident_keeps (fun _ _ => trivial) handle).bind fun _ => ?_
  refine (Triple.mapM_zip (I := fun headers staged loading => Houses handle headers loading ∧
    List.Forall₂ (fun header block => header.part.stage image = .ok block) headers staged)
    (fun header _ headers staged => ?_) [] []).strengthen fun _ h => ⟨h, .nil⟩
  rintro loading ⟨hhouses, hstaged⟩
  exact ((placeSegment_houses hcopies _ header headers).weaken (fun block _ h =>
    ⟨h.1, List.rel_append hstaged (.cons h.2 .nil)⟩) fun _ h => h) loading hhouses

omit [Client σ] in
/-- Drafting a module keeps its segments, and its draft has what was staged. -/
theorem draftModule_houses (name : String) (headers : List ProgramHeader) (staged : List Bytes) :
    Triple (Houses handle headers) (draftModule handle name file staged)
      (fun draft loading => Houses handle headers loading ∧ draft.staged = staged)
      (fun _ : Loading σ => True) := by
  rintro loading ⟨m, hfind, hsegments⟩
  refine ((draftModule_describes name file staged).weaken (fun draft s h => ?_) fun _ _ => trivial)
    loading hfind
  obtain ⟨rfl, hdescribed⟩ := h
  exact ⟨⟨_, hdescribed, hsegments⟩, Draft.staged_ofPlaced handle name file m.segments staged⟩

/-! ## Handles in order -/

/-- Handles are taken in order. -/
def Ordered (loading : Loading σ) : Prop :=
  ∀ handle ∈ handlesOf loading.loader.modules, handle < loading.loader.nextHandle

omit [Client σ] in
theorem handlesOf_eq_faces (loading : Loading σ) :
    handlesOf loading.loader.modules = loading.faces.map (·.1.1) := by
  rw [faces, List.map_map]
  rfl

theorem Ordered.move {before after : Loading σ} (h : Ordered before) (hmove : Move before after) :
    Ordered after := by
  intro handle hmem
  rw [handlesOf_eq_faces, hmove.faces, ← handlesOf_eq_faces] at hmem
  exact UInt32.lt_of_lt_of_le (h handle hmem) hmove.nextHandle

theorem ordered_move {α : Type} {step : LoadM (Loading σ) α} (h : Within Move step) :
    Triple Ordered step (fun _ => Ordered) (fun _ => True) :=
  h.triple (fun _ _ hs hmove => hs.move hmove) fun _ _ => trivial

theorem enter_ordered (image : Image) (requested : Option String) :
    Triple Ordered (enter image requested) (fun _ (loading : Loading σ) => Ordered loading)
      (fun _ => True) := by
  intro before h
  refine ((enter_admitted before image requested).weaken (fun entered after hadmitted => ?_)
    fun _ h => h) before rfl
  rcases entered with found | ⟨handle, file, draft⟩
  · exact h.move hadmitted.1
  · obtain ⟨-, -, name, -, hentered⟩ := hadmitted
    intro other hmem
    rw [handlesOf_eq_faces, hentered.faces, List.map_append, List.mem_append, ← handlesOf_eq_faces] at hmem
    rcases hmem with hold | hnew
    · exact UInt32.lt_of_lt_of_le (h other hold) hentered.nextHandle
    · rw [List.mem_singleton.mp hnew]
      exact hentered.below

theorem need_ordered {load : String → Image → LoadM (Loading σ) Handle}
    (hload : ∀ name image, Triple Ordered (load name image) (fun _ => Ordered) (fun _ => True))
    (handle : Handle) (name : String) :
    Triple Ordered (need handle load name) (fun _ => Ordered) (fun _ => True) := by
  refine Triple.bind (R := fun _ => Ordered) ?_ fun found => ?_
  · refine Triple.get_bind fun loading hordered => ?_
    refine Triple.throw_if (fun _ _ _ => trivial) fun _ => ?_
    refine Triple.strengthen (P := Ordered) ?_ fun _ hs => hs ▸ hordered
    refine (ordered_move (move_reuse name)).bind fun found => ?_
    cases found with
    | some handle => exact Triple.pure fun _ h => h
    | none =>
      refine (ordered_move fun _ => move_client (.openDependent _ name)).bind fun image => ?_
      cases image with
      | some image => exact hload name image
      | none => exact Triple.throw fun _ _ => trivial
  · refine addDependency_triple (fun _ _ => trivial) fun loading h other hmem => ?_
    have hsame : handlesOf (withDependency handle found loading).loader.modules =
        handlesOf loading.loader.modules := Loader.handlesOf_updateModule fun _ => rfl
    exact h other (hsame ▸ hmem)

/-- However many modules a module needs, each of them is entered with the handles in order. -/
theorem loadModule_ordered (depth : Nat) (image : Image) (requested : Option String) :
    Triple Ordered (loadModule depth image requested) (fun _ (loading : Loading σ) => Ordered loading)
      (fun _ => True) := by
  induction depth generalizing image requested with
  | zero => exact Triple.throw fun _ _ => trivial
  | succ depth ih =>
    rw [loadModule_succ]
    refine (enter_ordered image requested).bind fun entered => ?_
    rcases entered with handle | ⟨handle, file, draft⟩
    · exact Triple.pure fun _ h => h
    · have hneed (name : String) := need_ordered (fun name image => ih image (some name)) handle name
      refine (Triple.forM fun name _ => hneed name).bind fun _ => ?_
      refine Triple.bind (R := fun _ => Ordered) (Triple.modify fun _ h => h) fun _ => ?_
      exact Triple.pure fun _ h => h

/-- A load begins with the handles in order, whatever was done before. -/
theorem ordered_run (client : σ) (policy : LookupPolicy) (requests : List (Request σ)) :
    Ordered { loader := (Loader.fresh client policy).run requests } := by
  intro handle hmem
  obtain ⟨m, hm, rfl⟩ := Module.exists_of_mem_handlesOf hmem
  exact (Loader.run_blank_sound client policy requests).accounted.below m hm

omit [Client σ] in
theorem addModule_houses (requested : Option String) :
    Triple (fun loading : Loading σ => Ordered loading) (addModule file requested)
      (fun added => Houses added.1 []) (fun _ => True) := by
  intro loading hordered
  simp only [addModule, bind_apply, newHandle_apply]
  by_cases hlast : loading.loader.nextHandle = Loader.lastHandle
  · rw [if_pos hlast]
    trivial
  · rw [if_neg hlast]
    exact ⟨_, Module.find?_last fun hmem => UInt32.lt_irrefl _ (hordered _ hmem), .nil⟩

end Loading

/-! ## Both paths -/

/-- Every stretch of the file that has an offset lies in one segment of the module, and what is read of it
is what was staged for this segment. -/
def Module.Mirrors (image : Image) (file : ObjectFile) (m : Module) (staged : List Bytes) : Prop :=
  ∀ address length offset, ObjectFile.fileOffset file.programHeaders address length = .ok offset →
    ∃ (i : Nat) (segment : Segment) (block bytes : Bytes),
      m.segments[i]? = some segment ∧ staged[i]? = some block ∧ segment.containsLink address = true ∧
      (∀ (j : Nat) (other : Segment),
        m.segments[j]? = some other → other.containsLink address = true → j = i) ∧
      ObjectFile.readTable image file.programHeaders address length = .ok bytes ∧
      block.window (address - segment.linkAddress).toNat length.toNat = some bytes

theorem Module.mirrors_of_forall₂ {image : Image} {file : ObjectFile} {m : Module} {staged : List Bytes}
    (hread : ObjectFile.read image = .ok file) (hapart : file.Unfolded)
    (hsegments : List.Forall₂ (fun header segment => ∃ allocation, segment = header.segmentIn allocation)
      file.loadHeaders m.segments)
    (hstaged : List.Forall₂ (fun header block => header.part.stage image = .ok block)
      file.loadHeaders staged) : m.Mirrors image file staged := by
  obtain ⟨hcount, hsegments⟩ := List.forall₂_iff_get.mp hsegments
  obtain ⟨hblocks, hstaged⟩ := List.forall₂_iff_get.mp hstaged
  intro address length offset hoffset
  obtain ⟨header, hheader, hbacks, heq⟩ := ObjectFile.exists_of_fileOffset hoffset
  obtain ⟨hload, hcovers⟩ := ObjectFile.mem_loadHeaders_of_backs hread hheader hbacks
  obtain ⟨i, hi, rfl⟩ := List.getElem_of_mem hload
  simp only [List.get_eq_getElem] at hsegments hstaged
  obtain ⟨allocation, hsegment⟩ := hsegments i hi (hcount ▸ hi)
  obtain ⟨bytes, htable, hwindow⟩ :=
    ObjectFile.readTable_eq_window hread hoffset hheader hbacks heq (hstaged i hi (hblocks ▸ hi))
  refine ⟨i, _, _, bytes, List.getElem?_eq_getElem (hcount ▸ hi), List.getElem?_eq_getElem (hblocks ▸ hi),
    ?_, fun j other hother hinside => ?_, htable, ?_⟩
  · rw [hsegment]
    exact hcovers
  · obtain ⟨hj, rfl⟩ := List.getElem?_eq_some_iff.mp hother
    obtain ⟨_, hother⟩ := hsegments j (hcount ▸ hj) hj
    rw [hother] at hinside
    exact hapart.eq_of_covers hi (hcount ▸ hj) hcovers hinside
  · rw [hsegment]
    exact hwindow

namespace Loading

variable {σ : Type} [Client σ]

/-- A module that is entered with a client that copies what it is asked for has one segment for every stretch
of its file that has an offset, and its draft has the bytes of this stretch.  The handles are in order
wherever a load enters a module (`ordered_run`, `loadModule_ordered`). -/
theorem enter_mirrors (hcopies : Client.Copies σ) (image : Image) (requested : Option String) :
    Triple Ordered (enter image requested)
      (fun entered (loading : Loading σ) => ∀ handle file draft, entered = .inr (handle, file, draft) →
        ObjectFile.read image = .ok file ∧ (file.Unfolded →
          ∃ m, Module.find? loading.loader.modules handle = some m ∧ m.Mirrors image file draft.staged))
      (fun _ => True) := by
  refine Triple.bind (R := fun file loading => ObjectFile.read image = .ok file ∧ Ordered loading)
    (Triple.ofExcept (fun _ _ hread h => ⟨hread, h⟩) fun _ _ => trivial) fun file => ?_
  refine Triple.get_bind fun before h => ?_
  obtain ⟨hread, hordered⟩ := h
  refine Triple.strengthen (P := Ordered) ?_ fun _ hs => hs ▸ hordered
  refine (ordered_move Within.ofExcept).bind fun _ => ?_
  refine Triple.bind (R := fun _ => Ordered) (ordered_move ?_) fun _ => ?_
  · exact move_modifySession fun _ => rfl
  refine (ordered_move (move_reuseOwn file)).bind fun found => ?_
  cases found with
  | some handle => exact Triple.pure fun _ _ _ _ _ h => by cases h
  | none =>
    refine (addModule_houses requested).bind fun ⟨handle, name⟩ => ?_
    refine (placeSegments_houses hcopies image file).bind fun staged => ?_
    rintro loading ⟨hhouses, hstaged⟩
    refine ((draftModule_houses name _ staged).bind fun draft => ?_) loading hhouses
    refine Triple.bind (R := fun _ s => Houses handle file.loadHeaders s ∧ draft.staged = staged)
      (Triple.modify fun s h => h) fun _ => Triple.pure fun s h => ?_
    rintro _ _ _ ⟨⟩
    obtain ⟨⟨m, hfind, hsegments⟩, hdraft⟩ := h
    refine ⟨hread, fun hapart => ⟨m, hfind, ?_⟩⟩
    exact Module.mirrors_of_forall₂ hread hapart hsegments (hdraft ▸ hstaged)

/-- A static program for ARM.  Its first segment is empty, the second one has four bytes in the file and
sixteen in memory at `0x1000`, and eight more bytes follow in the third one. -/
def tailImage : Image :=
  [0x7f, 0x45, 0x4c, 0x46, 1, 1, 1, 0, 0, 0, 0, 0, 0, 0, 0, 0, 2, 0, 40, 0] ++
  SampleObject.words [1, 0x1000, 52, 0, 0] ++ [52, 0, 32, 0, 3, 0, 0, 0, 0, 0, 0, 0] ++
  SampleObject.words (
    [1, 0, 0x1000, 0x1000, 0, 0, 6, 4] ++
    [1, 0, 0x1000, 0x1000, 4, 16, 6, 4] ++
    [1, 4, 0x1010, 0x1010, 8, 8, 5, 4])

def tailFile : ObjectFile where
  header := FileHeader.decode tailImage .little
  order := .little
  machine := .arm
  programHeaders := [⟨1, 0, 0x1000, 0x1000, 0, 0, 6, 4⟩, ⟨1, 0, 0x1000, 0x1000, 4, 16, 6, 4⟩,
    ⟨1, 4, 0x1010, 0x1010, 8, 8, 5, 4⟩]

theorem unfolded_tailFile : tailFile.Unfolded := by
  have hheaders : tailFile.loadHeaders =
      [⟨1, 0, 0x1000, 0x1000, 4, 16, 6, 4⟩, ⟨1, 4, 0x1010, 0x1010, 8, 8, 5, 4⟩] := rfl
  rw [ObjectFile.Unfolded, hheaders, List.pairwise_pair]
  intro address hfirst
  simp only [ProgramHeader.covers, decide_eq_true_eq, decide_eq_false_iff_not,
    UInt32.lt_iff_toNat_lt, UInt32.toNat_sub, UInt32.reduceToNat] at hfirst ⊢
  omega

theorem copies_simulatedTarget : Client.Copies SimulatedTarget := by
  intro image request client block h
  rwa [SimulatedTarget.copy_apply] at h

/-- The word at `0x1014` of the small program is in its second segment with memory. -/
theorem enter_mirrors_tailImage :
    ∃ (draft : Draft) (m : Module),
      (enter tailImage none { loader := .fresh ({} : SimulatedTarget) .direct }).1 =
        .ok (.inr (1, tailFile, draft)) ∧
      draft.staged = [[0x7f, 0x45, 0x4c, 0x46] ++ Bytes.zeros 12, [1, 1, 1, 0, 0, 0, 0, 0]] ∧
      m.Mirrors tailImage tailFile draft.staged ∧
      ObjectFile.fileOffset tailFile.programHeaders 0x1014 4 = .ok 8 := by
  have hoffset : ObjectFile.fileOffset tailFile.programHeaders 0x1014 4 = .ok 8 := by decide +kernel
  have hentered : (enter tailImage none { loader := .fresh ({} : SimulatedTarget) .direct }).1.map
      (Sum.map id fun (handle, file, draft) => (handle, file, draft.staged)) =
        .ok (.inr (1, tailFile,
          [[0x7f, 0x45, 0x4c, 0x46] ++ Bytes.zeros 12, [1, 1, 1, 0, 0, 0, 0, 0]])) := by
    decide +kernel
  have hordered : Ordered ({ loader := .fresh ({} : SimulatedTarget) .direct } : Loading _) := by
    rintro _ ⟨⟩
  have hunfolded := unfolded_tailFile
  -- nothing below looks into the image
  generalize tailImage = image at *
  generalize tailFile = file at *
  rcases hrun : enter image none { loader := .fresh ({} : SimulatedTarget) .direct } with
    ⟨_ | _ | ⟨handle, _, draft⟩, after⟩ <;> rw [hrun] at hentered
  · cases hentered
  · cases hentered
  have hparts := Sum.inr.inj (Except.ok.inj hentered)
  simp only [Prod.mk.injEq] at hparts
  obtain ⟨rfl, rfl, hstaged⟩ := hparts
  have hmirrors := (enter_mirrors copies_simulatedTarget image none).ok hordered hrun
  obtain ⟨m, -, hm⟩ := (hmirrors _ _ _ rfl).2 hunfolded
  exact ⟨draft, m, rfl, hstaged, hm, hoffset⟩

end Loading

end TargetLink
