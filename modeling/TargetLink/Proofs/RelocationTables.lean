import TargetLink.Proofs.LinkRanges
import TargetLink.Proofs.SampleObjects

/-!
# Every relocation is read once

A dynamic table may describe three tables of relocations: one whose records have addends, one whose records
have none, and the one of the procedure linkage table, which is of either kind and may be a part of the other
table of its kind.  A record is told by the address that it was linked at and by its kind
(`RelocationSite`).  The lists that a file is read into never have a record twice, and they miss none but
those of the other kind that start inside the procedure linkage table (`ObjectFile.relocations_once`).

Addresses wrap, so a table may begin near the end of the address space and go on at its beginning.
-/

namespace TargetLink

/-- Where a record of a relocation table was linked, and whether it has an addend of its own. -/
structure RelocationSite where
  address : UInt32
  withAddend : Bool
  deriving DecidableEq, Repr

namespace ObjectFile

/-! ## Tables -/

namespace PltTable

def step (table : PltTable) : Nat := relocationSize table.withAddend

def count (table : PltTable) : Nat := table.size.toNat / table.step

/-- Where a record of the table was linked. -/
def site (table : PltTable) (i : Nat) : RelocationSite :=
  ⟨table.address + UInt32.ofNat (i * table.step), table.withAddend⟩

def sites (table : PltTable) : List RelocationSite := (List.range table.count).map table.site

/-- The records of a table whose bytes are given. -/
def records (table : PltTable) (bytes : Bytes) (order : ByteOrder) :
    List (RelocationSite × RelocationEntry) :=
  (List.range table.count).map fun i =>
    (table.site i, relocationAt bytes order table.withAddend (i * table.step))

/-- The tables share no address. -/
def Apart (table other : PltTable) : Prop :=
  ∀ address, table.contains address = true → other.contains address = false

/-- The table is a run of whole records of the other one. -/
def PartOf (table other : PltTable) : Prop :=
  table.withAddend = other.withAddend ∧
    ∃ k, table.address = other.address + UInt32.ofNat (k * other.step) ∧
      k * other.step + table.size.toNat ≤ other.size.toNat

variable {table other : PltTable} {bytes : Bytes} {order : ByteOrder} {i : Nat}

theorem step_pos (table : PltTable) : 0 < table.step := by
  rw [step, relocationSize]
  split <;> decide

theorem map_fst_records : (table.records bytes order).map (·.1) = table.sites := by
  rw [records, List.map_map]
  rfl

/-- A record ends inside its table. -/
theorem end_le (hi : i < table.count) : i * table.step + table.step ≤ table.size.toNat := by
  have hmul := Nat.mul_le_mul_right table.step (Nat.succ_le_of_lt hi)
  rw [Nat.succ_mul] at hmul
  exact hmul.trans (Nat.div_mul_le_self _ _)

theorem toNat_offset (hi : i < table.count) : (UInt32.ofNat (i * table.step)).toNat = i * table.step :=
  toNat_ofNat_of_le ((Nat.le_add_right _ _).trans (end_le hi))

theorem site_address_sub (table : PltTable) (i : Nat) :
    (table.site i).address - table.address = UInt32.ofNat (i * table.step) := by
  rw [site, UInt32.add_comm, UInt32.add_sub_cancel]

/-- A table covers the first byte of each of its records. -/
theorem contains_site (hi : i < table.count) : table.contains (table.site i).address = true := by
  have hend := end_le hi
  have hpos := table.step_pos
  rw [contains, site_address_sub, decide_eq_true_eq, UInt32.lt_iff_toNat_lt, toNat_offset hi]
  omega

theorem mem_sites {site : RelocationSite} : site ∈ table.sites ↔ ∃ i < table.count, table.site i = site := by
  simp [sites]

theorem contains_of_mem_sites {site : RelocationSite} (h : site ∈ table.sites) :
    table.contains site.address = true ∧ site.withAddend = table.withAddend := by
  obtain ⟨i, hi, rfl⟩ := mem_sites.mp h
  exact ⟨contains_site hi, rfl⟩

theorem nodup_sites (table : PltTable) : table.sites.Nodup := by
  refine List.Nodup.map_on (fun i hi j hj heq => ?_) List.nodup_range
  have hsame : UInt32.ofNat (i * table.step) = UInt32.ofNat (j * table.step) := by
    rw [← site_address_sub, ← site_address_sub, heq]
  have hoffsets := congrArg UInt32.toNat hsame
  rw [toNat_offset (List.mem_range.mp hi), toNat_offset (List.mem_range.mp hj)] at hoffsets
  exact Nat.eq_of_mul_eq_mul_right table.step_pos hoffsets

/-- Records of a table are records of one that it begins in at a whole record. -/
theorem site_add {k : Nat} (hkind : table.withAddend = other.withAddend)
    (haddress : table.address = other.address + UInt32.ofNat (k * other.step)) (j : Nat) :
    other.site (k + j) = table.site j := by
  have hstep : table.step = other.step := by rw [step, step, hkind]
  rw [site, site, hkind, hstep, haddress, Nat.add_mul, UInt32.ofNat_add, UInt32.add_assoc]

/-- What a part covers the first byte of is a record of the part. -/
theorem PartOf.mem_sites (h : table.PartOf other) (hwhole : table.size.toNat % table.step = 0)
    (hi : i < other.count) (hcontains : table.contains (other.site i).address = true) :
    other.site i ∈ table.sites := by
  obtain ⟨hkind, k, haddress, hfit⟩ := h
  have hstep : table.step = other.step := by rw [step, step, hkind]
  have hoffset := toNat_offset hi
  have hlt := other.size.toNat_lt
  have hstart : (UInt32.ofNat (k * other.step)).toNat = k * other.step :=
    toNat_ofNat_of_le ((Nat.le_add_right _ _).trans hfit)
  have hsub : (other.site i).address - table.address =
      UInt32.ofNat (i * other.step) - UInt32.ofNat (k * other.step) := by
    rw [haddress, site]
    grind
  rw [contains, decide_eq_true_eq, hsub, UInt32.lt_iff_toNat_lt] at hcontains
  have hle : k ≤ i := by
    -- a record before the part is too far away from its start, once around the address space
    by_contra hbefore
    have hmul : i * other.step < k * other.step :=
      Nat.mul_lt_mul_of_pos_right (Nat.not_le.mp hbefore) other.step_pos
    rw [UInt32.toNat_sub, hoffset, hstart] at hcontains
    omega
  obtain ⟨j, rfl⟩ := Nat.exists_eq_add_of_le hle
  have hbehind : UInt32.ofNat (k * other.step) ≤ UInt32.ofNat ((k + j) * other.step) := by
    rw [UInt32.le_iff_toNat_le, hoffset, hstart]
    exact Nat.mul_le_mul_right other.step hle
  rw [UInt32.toNat_sub_of_le _ _ hbehind, hoffset, hstart, ← Nat.sub_mul, Nat.add_sub_cancel_left,
    ← hstep] at hcontains
  rw [site_add hkind haddress]
  refine PltTable.mem_sites.mpr ⟨j, ?_, rfl⟩
  have hcount : table.count * table.step = table.size.toNat :=
    Nat.div_mul_cancel (Nat.dvd_of_mod_eq_zero hwhole)
  exact Nat.lt_of_mul_lt_mul_right (a := table.step) (hcount.symm ▸ hcontains)

end PltTable

/-! ## Tables of a file -/

/-- The table that a pair of dynamic tags describes. -/
def taggedTable? (dynamic : List DynamicEntry) (addressTag sizeTag : UInt32) (withAddend : Bool) :
    Option PltTable :=
  (DynamicEntry.find? dynamic addressTag).map fun address =>
    ⟨address, DynamicEntry.findD dynamic sizeTag, withAddend⟩

/-- The table of all relocations of a kind, which may include those of the procedure linkage table. -/
def relocationTable? (file : ObjectFile) : (withAddend : Bool) → Option PltTable
  | false => taggedTable? file.dynamic DynamicTag.rel DynamicTag.relSize false
  | true => taggedTable? file.dynamic DynamicTag.rela DynamicTag.relaSize true

/-- The tables of a file whose procedure linkage table is given. -/
def relocationTables (file : ObjectFile) (plt? : Option PltTable) : List PltTable :=
  (file.relocationTable? false).toList ++ (file.relocationTable? true).toList ++ plt?.toList

/-- The procedure linkage table stands apart from the other tables or is a part of the one of its kind. -/
def PltPlaced (file : ObjectFile) : Prop :=
  ∀ plt, pltTable? file.machine file.dynamic = .ok (some plt) →
    (∀ withAddend, ∀ table ∈ file.relocationTable? withAddend, plt.Apart table) ∨
      ∃ table ∈ file.relocationTable? plt.withAddend, plt.PartOf table

/-- A table of the file has the record. -/
def PltTable.Lists (image : Image) (file : ObjectFile) (table : PltTable)
    (record : RelocationSite × RelocationEntry) : Prop :=
  ∃ bytes, readTable image file.programHeaders table.address table.size = .ok bytes ∧
    record ∈ table.records bytes file.order

/-- What stands at a site, read on its own. -/
def entryAt (image : Image) (file : ObjectFile) (site : RelocationSite) :
    Except LoadError RelocationEntry := do
  let bytes ← readTable image file.programHeaders site.address
    (UInt32.ofNat (relocationSize site.withAddend))
  return relocationAt bytes file.order site.withAddend 0

/-- Reads a table, if there is one. -/
def readListed (image : Image) (file : ObjectFile) (exclude table? : Option PltTable) :
    Except LoadError (List RelocationEntry) :=
  match table? with
  | some table => readRelocations image file.programHeaders file.order table.address table.size
      table.withAddend exclude
  | none => .ok []

variable {image : Image} {file : ObjectFile} {exclude table? : Option PltTable} {table plt : PltTable}
  {entries : List RelocationEntry} {withAddend : Bool}

theorem kind_of_relocationTable? (h : table ∈ file.relocationTable? withAddend) :
    table.withAddend = withAddend := by
  cases withAddend <;> obtain ⟨address, -, rfl⟩ := Option.map_eq_some_iff.mp h <;> rfl

theorem readTagged_eq (image : Image) (file : ObjectFile) (addressTag sizeTag : UInt32)
    (withAddend : Bool) (exclude : Option PltTable) :
    readTagged image file.programHeaders file.order file.dynamic addressTag sizeTag withAddend exclude =
      readListed image file exclude (taggedTable? file.dynamic addressTag sizeTag withAddend) := by
  unfold readTagged readListed taggedTable?
  cases DynamicEntry.find? file.dynamic addressTag <;> rfl

/-- The relocations of a file are those of its tables. -/
theorem relocations_of_read (h : ObjectFile.read image = .ok file) :
    ∃ plt?, pltTable? file.machine file.dynamic = .ok plt? ∧
      readListed image file plt? (file.relocationTable? false) = .ok file.rel ∧
      readListed image file plt? (file.relocationTable? true) = .ok file.rela ∧
      readListed image file none plt? = .ok file.plt := by
  obtain ⟨header, order, machine, headers, -, -, -, h⟩ := exists_of_read h
  split at h
  · subst h
    exact ⟨none, rfl, rfl, rfl, rfl⟩
  · obtain ⟨-, dynamic, -, -, h⟩ := h
    obtain ⟨-, symbols, names, plt?, rel, rela, plt, -, -, -, -, -, hplt?, hrel, hrela, hplt, rfl⟩ :=
      exists_of_readDynamic h
    refine ⟨plt?, hplt?, ?_, ?_, ?_⟩
    · rw [relocationTable?, ← readTagged_eq]
      exact hrel
    · rw [relocationTable?, ← readTagged_eq]
      exact hrela
    · cases plt? <;> exact hplt

/-- Reading a table keeps the records that are not excluded. -/
theorem eq_of_readRelocations {headers : List ProgramHeader} {order : ByteOrder}
    (h : readRelocations image headers order table.address table.size table.withAddend exclude =
      .ok entries) :
    table.size.toNat % table.step = 0 ∧
      ∃ bytes, readTable image headers table.address table.size = .ok bytes ∧
        entries = ((table.records bytes order).filter fun record =>
          !exclude.any (·.contains record.1.address)).map (·.2) := by
  unfold readRelocations at h
  dsimp only at h
  split at h
  · cases h
  · rename_i hwhole
    obtain ⟨bytes, hbytes, h⟩ := exists_of_bind_eq_ok h
    refine ⟨of_not_not hwhole, bytes, hbytes, ?_⟩
    rw [← Except.ok.inj h, PltTable.records, List.filter_map, List.filter_map, List.map_map, List.map_map]
    rfl

theorem exists_records_of_readListed (h : readListed image file exclude table? = .ok entries) :
    ∃ records : List (RelocationSite × RelocationEntry), entries = records.map (·.2) ∧
      records.map (·.1) = (table?.toList.flatMap (·.sites)).filter
        (fun site => !exclude.any (·.contains site.address)) ∧
      (∀ record ∈ records, ∃ table ∈ table?, table.Lists image file record) ∧
      ∀ table ∈ table?, table.size.toNat % table.step = 0 := by
  cases table? with
  | none => exact ⟨[], (Except.ok.inj h).symm, rfl, by simp, by simp⟩
  | some table =>
    obtain ⟨hwhole, bytes, hbytes, rfl⟩ := eq_of_readRelocations h
    refine ⟨_, rfl, ?_, fun record hrecord => ⟨table, rfl, bytes, hbytes, ?_⟩, ?_⟩
    · rw [Option.toList_some, List.flatMap_singleton, ← table.map_fst_records, List.filter_map]
      rfl
    · exact List.mem_of_mem_filter hrecord
    · rintro _ ⟨⟩
      exact hwhole

/-! ## Sites -/

/-- The sites of the lists of a file: those of the two tables that do not start in the procedure linkage
table, and all of the latter. -/
def keptSites (file : ObjectFile) (plt? : Option PltTable) : List RelocationSite :=
  let outside (withAddend : Bool) := ((file.relocationTable? withAddend).toList.flatMap (·.sites)).filter
    fun site => !plt?.any (·.contains site.address)
  outside false ++ outside true ++ plt?.toList.flatMap (·.sites)

variable {plt? : Option PltTable} {site : RelocationSite}

theorem nodup_toList_sites (table? : Option PltTable) : (table?.toList.flatMap (·.sites)).Nodup := by
  cases table? with
  | none => exact .nil
  | some table => simpa using table.nodup_sites

theorem mem_toList_sites : site ∈ table?.toList.flatMap (·.sites) ↔ ∃ table ∈ table?, site ∈ table.sites := by
  simp [List.mem_flatMap]

/-- No record is kept twice. -/
theorem nodup_keptSites (file : ObjectFile) (plt? : Option PltTable) : (file.keptSites plt?).Nodup := by
  refine List.nodup_append.mpr ⟨List.nodup_append.mpr ⟨?_, ?_, ?_⟩, nodup_toList_sites plt?, ?_⟩
  · exact (nodup_toList_sites _).filter _
  · exact (nodup_toList_sites _).filter _
  · -- records of the two tables are of different kinds
    rintro first hfirst _ hsecond rfl
    obtain ⟨table, htable, hsite⟩ := mem_toList_sites.mp (List.mem_of_mem_filter hfirst)
    obtain ⟨other, hother, hsite'⟩ := mem_toList_sites.mp (List.mem_of_mem_filter hsecond)
    have hkind := (PltTable.contains_of_mem_sites hsite).2.trans (kind_of_relocationTable? htable)
    have hkind' := (PltTable.contains_of_mem_sites hsite').2.trans (kind_of_relocationTable? hother)
    cases hkind.symm.trans hkind'
  · -- what starts in the procedure linkage table is kept there alone
    rintro first hfirst _ hsecond rfl
    obtain ⟨plt, hplt, hsite⟩ := mem_toList_sites.mp hsecond
    have hcontains := (PltTable.contains_of_mem_sites hsite).1
    rcases List.mem_append.mp hfirst with h | h <;>
      simp [Option.mem_def.mp hplt, hcontains] at h

/-- A record that starts in a well placed procedure linkage table of its kind is one of its records. -/
theorem mem_plt_sites (hplaced : file.PltPlaced) (hplt : pltTable? file.machine file.dynamic = .ok (some plt))
    (hwhole : plt.size.toNat % plt.step = 0) (htable : table ∈ file.relocationTable? withAddend)
    (hsite : site ∈ table.sites) (hcontains : plt.contains site.address = true)
    (hsame : site.withAddend = plt.withAddend) : site ∈ plt.sites := by
  obtain ⟨hinside, hkind⟩ := PltTable.contains_of_mem_sites hsite
  rcases hplaced plt hplt with hapart | ⟨own, hown, hpart⟩
  · rw [hapart _ table htable site.address hcontains] at hinside
    cases hinside
  · obtain rfl : withAddend = plt.withAddend :=
      (kind_of_relocationTable? htable).symm.trans (hkind.symm.trans hsame)
    obtain rfl : own = table := Option.mem_unique hown htable
    obtain ⟨i, hi, rfl⟩ := PltTable.mem_sites.mp hsite
    exact hpart.mem_sites hwhole hi hcontains

theorem mem_relocationTables : table ∈ file.relocationTables plt? ↔
    (∃ withAddend, table ∈ file.relocationTable? withAddend) ∨ table ∈ plt? := by
  simp [relocationTables, or_assoc, Bool.exists_bool]

theorem mem_keptSites : site ∈ file.keptSites plt? ↔
    (∃ withAddend, ∃ table ∈ file.relocationTable? withAddend, site ∈ table.sites ∧
      ∀ plt ∈ plt?, plt.contains site.address = false) ∨ ∃ plt ∈ plt?, site ∈ plt.sites := by
  have hexcluded : (!plt?.any (·.contains site.address)) = true ↔
      ∀ plt ∈ plt?, plt.contains site.address = false := by
    cases plt? <;> simp
  simp only [keptSites, List.mem_append, List.mem_filter, mem_toList_sites, hexcluded, Bool.exists_bool]
  grind

/-- The records that are kept are those of all tables, without those that start in a procedure linkage table
of the other kind. -/
theorem mem_keptSites_iff (hplaced : file.PltPlaced)
    (hplt? : pltTable? file.machine file.dynamic = .ok plt?)
    (hwhole : ∀ plt ∈ plt?, plt.size.toNat % plt.step = 0) :
    site ∈ file.keptSites plt? ↔ (∃ table ∈ file.relocationTables plt?, site ∈ table.sites) ∧
      ∀ plt ∈ plt?, plt.contains site.address = true → site.withAddend = plt.withAddend := by
  rw [mem_keptSites]
  constructor
  · rintro (⟨withAddend, table, htable, hsite, hout⟩ | ⟨plt, hplt, hsite⟩)
    · refine ⟨⟨table, mem_relocationTables.mpr (Or.inl ⟨withAddend, htable⟩), hsite⟩, ?_⟩
      intro plt hplt hcontains
      cases hcontains.symm.trans (hout plt hplt)
    · refine ⟨⟨plt, mem_relocationTables.mpr (Or.inr hplt), hsite⟩, fun other hother _ => ?_⟩
      rw [Option.mem_unique hother hplt]
      exact (PltTable.contains_of_mem_sites hsite).2
  · rintro ⟨⟨table, htable, hsite⟩, hkinds⟩
    rcases mem_relocationTables.mp htable with ⟨withAddend, htable⟩ | hplt
    · by_cases hstarts : ∃ plt ∈ plt?, plt.contains site.address = true
      · obtain ⟨plt, hplt, hcontains⟩ := hstarts
        rw [Option.mem_def.mp hplt] at hplt?
        exact Or.inr ⟨plt, hplt, mem_plt_sites hplaced hplt? (hwhole plt hplt) htable hsite hcontains
          (hkinds plt hplt hcontains)⟩
      · exact Or.inl ⟨withAddend, table, htable, hsite, fun plt hplt =>
          Bool.eq_false_iff.mpr fun hcontains => hstarts ⟨plt, hplt, hcontains⟩⟩
    · exact Or.inr ⟨table, hplt, hsite⟩

/-! ## Records on their own -/

variable {bytes : Bytes} {start : Nat}

theorem relocationAt_window {part : Bytes} {order : ByteOrder} {withAddend : Bool}
    (h : bytes.window start (relocationSize withAddend) = some part) :
    relocationAt part order withAddend 0 = relocationAt bytes order withAddend start := by
  cases withAddend with
  | false =>
    rw [relocationAt, relocationAt, Bytes.wordAt_window h (by decide), Bytes.wordAt_window h (by decide)]
    rfl
  | true =>
    rw [relocationAt, relocationAt, Bytes.wordAt_window h (by decide), Bytes.wordAt_window h (by decide),
      Bytes.wordAt_window h (by decide)]
    rfl

/-- What a table has at a site is what stands there. -/
theorem PltTable.Lists.entryAt_eq (hread : ObjectFile.read image = .ok file) (hapart : file.Unfolded)
    {record : RelocationSite × RelocationEntry} (h : table.Lists image file record) :
    entryAt image file record.1 = .ok record.2 := by
  obtain ⟨bytes, hbytes, hrecord⟩ := h
  obtain ⟨i, hi, rfl⟩ := List.mem_map.mp hrecord
  obtain ⟨part, hpart, hwindow⟩ := readTable_part hread hapart hbytes table.step_pos
    (PltTable.end_le (List.mem_range.mp hi))
  rw [← relocationAt_window hwindow]
  exact congrArg (· >>= fun bytes => pure (relocationAt bytes file.order table.withAddend 0)) hpart

/-! ## All relocations -/

/-- The procedure linkage table is read whole. -/
theorem plt_eq_records (h : readListed image file none plt? = .ok entries) (hplt : plt ∈ plt?) :
    ∃ bytes, readTable image file.programHeaders plt.address plt.size = .ok bytes ∧
      entries = (plt.records bytes file.order).map (·.2) := by
  obtain rfl := Option.mem_def.mp hplt
  obtain ⟨-, bytes, hbytes, rfl⟩ := eq_of_readRelocations h
  exact ⟨bytes, hbytes, by simp⟩

/-- The lists of relocations that a file is read into have every record of its tables once, but for those
that start in a procedure linkage table of the other kind, which they do not have.  A record says what its
table has there; if no address was linked into two segments, this is what stands at its site.  The records
of the procedure linkage table are in a list of their own, in their order. -/
theorem relocations_once (hread : ObjectFile.read image = .ok file) (hplaced : file.PltPlaced) :
    ∃ (plt? : Option PltTable) (records : List (RelocationSite × RelocationEntry)),
      pltTable? file.machine file.dynamic = .ok plt? ∧
      file.rel ++ file.rela ++ file.plt = records.map (·.2) ∧
      (records.map (·.1)).Nodup ∧
      (∀ site, site ∈ records.map (·.1) ↔
        (∃ table ∈ file.relocationTables plt?, site ∈ table.sites) ∧
          ∀ plt ∈ plt?, plt.contains site.address = true → site.withAddend = plt.withAddend) ∧
      (∀ record ∈ records, ∃ table ∈ file.relocationTables plt?, table.Lists image file record) ∧
      (∀ plt ∈ plt?, ∃ bytes, readTable image file.programHeaders plt.address plt.size = .ok bytes ∧
        file.plt = (plt.records bytes file.order).map (·.2)) ∧
      (file.Unfolded → ∀ record ∈ records, entryAt image file record.1 = .ok record.2) := by
  obtain ⟨plt?, hplt?, hrel, hrela, hplt⟩ := relocations_of_read hread
  obtain ⟨rel, hrelEq, hrelSites, hrelLists, -⟩ := exists_records_of_readListed hrel
  obtain ⟨rela, hrelaEq, hrelaSites, hrelaLists, -⟩ := exists_records_of_readListed hrela
  obtain ⟨jump, hjumpEq, hjumpSites, hjumpLists, hwhole⟩ := exists_records_of_readListed hplt
  have hsites : (rel ++ rela ++ jump).map (·.1) = file.keptSites plt? := by
    simp only [List.map_append, hrelSites, hrelaSites, hjumpSites, keptSites, Option.any_none, Bool.not_false,
      List.filter_true]
  have hlists : ∀ record ∈ rel ++ rela ++ jump,
      ∃ table ∈ file.relocationTables plt?, table.Lists image file record := by
    intro record hrecord
    simp only [List.mem_append] at hrecord
    rcases hrecord with (h | h) | h
    · obtain ⟨table, htable, hlisted⟩ := hrelLists record h
      exact ⟨table, mem_relocationTables.mpr (Or.inl ⟨_, htable⟩), hlisted⟩
    · obtain ⟨table, htable, hlisted⟩ := hrelaLists record h
      exact ⟨table, mem_relocationTables.mpr (Or.inl ⟨_, htable⟩), hlisted⟩
    · obtain ⟨table, htable, hlisted⟩ := hjumpLists record h
      exact ⟨table, mem_relocationTables.mpr (Or.inr htable), hlisted⟩
  refine ⟨plt?, rel ++ rela ++ jump, hplt?, ?_, ?_, fun site => ?_, hlists,
    fun plt hmem => plt_eq_records hplt hmem, fun hapart record hrecord => ?_⟩
  · rw [hrelEq, hrelaEq, hjumpEq, List.map_append, List.map_append]
  · rw [hsites]
    exact nodup_keptSites file plt?
  · rw [hsites]
    exact mem_keptSites_iff hplaced hplt? hwhole
  · obtain ⟨table, -, hlisted⟩ := hlists record hrecord
    exact hlisted.entryAt_eq hread hapart

/-- A shared object with three relocations without addend at `152`.  The second one is that of the procedure
linkage table, and a relocation with addend starts there, too. -/
def overlapping : SampleObject where
  data := [0x100, 0x200, 0x300]
  rel := [(116, 23), (120, 23), (124, 23)]
  names := [[0x62]]
  tags := [(DynamicTag.pltRelocations, 160), (DynamicTag.pltRelocationSize, 8),
    (DynamicTag.pltRelocationKind, DynamicTag.rel), (DynamicTag.rela, 160), (DynamicTag.relaSize, 12)]

def overlappingFile : ObjectFile where
  header := FileHeader.decode overlapping.image .little
  order := .little
  machine := .arm
  programHeaders := [52, 84].map (ProgramHeader.decode overlapping.image .little)
  dynamicAddress := some 179
  dynamic := [⟨DynamicTag.hash, 128⟩, ⟨DynamicTag.symbolTable, 136⟩, ⟨DynamicTag.symbolEntry, 16⟩,
    ⟨DynamicTag.stringTable, 176⟩, ⟨DynamicTag.stringSize, 3⟩, ⟨DynamicTag.soname, 1⟩,
    ⟨DynamicTag.rel, 152⟩, ⟨DynamicTag.relSize, 24⟩, ⟨DynamicTag.relEntry, 8⟩,
    ⟨DynamicTag.pltRelocations, 160⟩, ⟨DynamicTag.pltRelocationSize, 8⟩,
    ⟨DynamicTag.pltRelocationKind, DynamicTag.rel⟩, ⟨DynamicTag.rela, 160⟩, ⟨DynamicTag.relaSize, 12⟩,
    ⟨DynamicTag.null, 0⟩]
  symbols := [⟨"", 0, 0, 0, 0, 0⟩]
  firstGlobal := 1
  soname := some "b"
  rel := [⟨116, 23, 0, none⟩, ⟨124, 23, 0, none⟩]
  plt := [⟨120, 23, 0, none⟩]

theorem read_overlapping : ObjectFile.read overlapping.image = .ok overlappingFile := by
  decide +kernel

theorem pltTable_overlappingFile :
    pltTable? overlappingFile.machine overlappingFile.dynamic = .ok (some ⟨160, 8, false⟩) := by
  decide +kernel

theorem partOf_overlapping : (⟨160, 8, false⟩ : PltTable).PartOf ⟨152, 24, false⟩ :=
  ⟨rfl, 1, by decide, by decide⟩

/-- All three relocations without addend are read, and the one with an addend is not. -/
theorem relocations_once_overlapping :
    ∃ records : List (RelocationSite × RelocationEntry),
      overlappingFile.rel ++ overlappingFile.rela ++ overlappingFile.plt = records.map (·.2) ∧
      (records.map (·.1)).Nodup ∧
      (∀ site, site ∈ records.map (·.1) ↔ site ∈ [⟨152, false⟩, ⟨160, false⟩, ⟨168, false⟩]) ∧
      ∀ record ∈ records, entryAt overlapping.image overlappingFile record.1 = .ok record.2 := by
  have hplaced : overlappingFile.PltPlaced := by
    intro plt hplt
    obtain rfl := Option.some.inj (Except.ok.inj (hplt.symm.trans pltTable_overlappingFile))
    exact Or.inr ⟨⟨152, 24, false⟩, rfl, partOf_overlapping⟩
  have hapart : overlappingFile.Unfolded := by
    rw [Unfolded, show overlappingFile.loadHeaders =
      [ProgramHeader.decode overlapping.image .little 52] by decide +kernel]
    exact List.pairwise_singleton _ _
  obtain ⟨plt?, records, hplt?, hlists, hnodup, hsites, -, -, hentries⟩ :=
    relocations_once read_overlapping hplaced
  obtain rfl := Except.ok.inj (hplt?.symm.trans pltTable_overlappingFile)
  refine ⟨records, hlists, hnodup, fun site => ?_, hentries hapart⟩
  have hunion : (overlappingFile.relocationTables (some ⟨160, 8, false⟩)).flatMap (·.sites) =
      [⟨152, false⟩, ⟨160, false⟩, ⟨168, false⟩, ⟨160, true⟩, ⟨160, false⟩] := by
    decide +kernel
  rw [hsites, ← List.mem_flatMap, hunion]
  simp only [Option.mem_some, forall_eq', List.mem_cons, List.not_mem_nil, or_false]
  constructor
  · rintro ⟨rfl | rfl | rfl | rfl | rfl, hkind⟩
    · simp
    · simp
    · simp
    · cases hkind (by decide)
    · simp
  · rintro (rfl | rfl | rfl) <;> exact ⟨by simp, fun _ => rfl⟩

/-- The procedure linkage table is a part of the table of its kind, and still a relocation of the other kind
is in no list. -/
theorem other_kind_left_out : ∃ plt, ObjectFile.read overlapping.image = .ok overlappingFile ∧
    pltTable? overlappingFile.machine overlappingFile.dynamic = .ok (some plt) ∧
    (∃ table ∈ overlappingFile.relocationTable? plt.withAddend, plt.PartOf table) ∧
    ∃ site entry, (∃ table ∈ overlappingFile.relocationTables (some plt), site ∈ table.sites) ∧
      entryAt overlapping.image overlappingFile site = .ok entry ∧
      entry ∉ overlappingFile.rel ++ overlappingFile.rela ++ overlappingFile.plt := by
  refine ⟨_, read_overlapping, pltTable_overlappingFile, ⟨_, rfl, partOf_overlapping⟩,
    ⟨160, true⟩, ⟨120, 23, 0, some 124⟩, ⟨⟨160, 12, true⟩, ?_, ?_⟩, ?_, ?_⟩ <;> decide +kernel

end ObjectFile

end TargetLink
