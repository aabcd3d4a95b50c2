import TargetLink.Proofs.Encodings
import TargetLink.Proofs.RelocationTables

/-!
# Files that are accepted

The bytes of a file may be anything, and the loader uses what it has read of them without checking it
again.  `ObjectFile.Accepted` says what it relies on: the parts of the segments can be staged, the dynamic
table ends at its only null entry, the names are terminated runs of the string table, there are as many
symbols as the hash table has chains, and no list of relocations is longer than its table.  All of it holds
of every file that is read without an error (`ObjectFile.accepted_of_read`).
-/

namespace TargetLink.ObjectFile

variable {image : Image} {file done : ObjectFile} {strings : Bytes} {offset : UInt32} {name : String}
  {dynamic : List DynamicEntry} {tag : UInt32} {headers : List ProgramHeader} {order : ByteOrder}

/-! ## Strings -/

/-- A string of the table: a run of bytes without zeros with a zero behind it, all inside the table. -/
def Spells (strings : Bytes) (offset : UInt32) (name : String) : Prop :=
  ∃ run : Bytes, strings.window offset.toNat (run.length + 1) = some (run ++ [0]) ∧ 0 ∉ run ∧
    Utf8.decode run = name

/-- The strings that the entries with a tag name, in the order of the entries. -/
def Lists (strings : Bytes) (dynamic : List DynamicEntry) (tag : UInt32) (names : List String) : Prop :=
  List.Forall₂ (fun entry name => Spells strings entry.value name) (dynamic.filter (·.tag == tag)) names

theorem spells_of_stringAt (h : stringAt strings offset = .ok name) : Spells strings offset name := by
  unfold stringAt at h
  split at h
  · cases h
  · dsimp only at h
    split at h
    · rename_i hzero
      obtain ⟨run, rest, htail, hrun⟩ := List.eq_append_cons_of_mem (List.contains_iff_mem.mp hzero)
      have hplain : ∀ b ∈ run, (b != 0) = true := fun b hb => bne_iff_ne.mpr fun hb' => hrun (hb' ▸ hb)
      have hlength := congrArg List.length htail
      rw [List.length_drop, List.length_append, List.length_cons] at hlength
      have hterminated : run ++ 0 :: rest = (run ++ [0]) ++ rest := by
        rw [List.append_assoc, List.singleton_append]
      refine ⟨run, ?_, hrun, ?_⟩
      · rw [Bytes.window, if_pos (by omega), htail, hterminated, List.take_left' (by simp)]
      · rw [← Except.ok.inj h, htail, List.takeWhile_append_of_pos hplain,
          List.takeWhile_cons_of_neg (by decide), List.append_nil]
    · cases h

theorem Lists.append {entry : DynamicEntry} {names : List String} (h : Lists strings dynamic tag names)
    (htag : entry.tag = tag) (hname : Spells strings entry.value name) :
    Lists strings (dynamic ++ [entry]) tag (names ++ [name]) := by
  rw [Lists, List.filter_append,
    List.filter_cons_of_pos (p := fun entry : DynamicEntry => entry.tag == tag) (beq_iff_eq.mpr htag)]
  exact List.rel_append h (.cons hname .nil)

theorem Lists.skip {entry : DynamicEntry} {names : List String} (h : Lists strings dynamic tag names)
    (htag : entry.tag ≠ tag) : Lists strings (dynamic ++ [entry]) tag names := by
  rwa [Lists, List.filter_append, List.filter_cons_of_neg (by simpa using htag), List.filter_nil,
    List.append_nil]

/-- A listed string is that of an entry with the tag. -/
theorem Lists.exists_entry {names : List String} (h : Lists strings dynamic tag names) (hname : name ∈ names) :
    ∃ entry ∈ dynamic, entry.tag = tag := by
  obtain ⟨entry, hentry⟩ := List.exists_mem_of_length_pos (h.length_eq ▸ List.length_pos_of_mem hname)
  obtain ⟨hmem, htag⟩ := List.mem_filter.mp hentry
  exact ⟨entry, hmem, eq_of_beq htag⟩

/-! ## Names -/

/-- The names are those that the entries give: the needed ones without repetitions, and the last one of the
module itself. -/
structure Names.Gathered (strings : Bytes) (dynamic : List DynamicEntry) (names : Names) : Prop where
  needed : ∃ listed, Lists strings dynamic DynamicTag.needed listed ∧ names.needed = listed.eraseDups
  soname : ∃ listed, Lists strings dynamic DynamicTag.soname listed ∧ names.soname = listed.getLast?

theorem eraseDups_concat (names : List String) (name : String) :
    (names ++ [name]).eraseDups =
      if names.eraseDups.contains name then names.eraseDups else names.eraseDups ++ [name] := by
  rw [List.eraseDups_append, List.removeAll, List.filter_singleton]
  by_cases hmem : name ∈ names
  · simp [hmem]
  · simp [hmem, List.eraseDups_cons]

theorem nodup_eraseDups (names : List String) : names.eraseDups.Nodup := by
  induction names using List.reverseRecOn with
  | nil => exact .nil
  | append_singleton names name ih =>
    rw [eraseDups_concat]
    split
    · exact ih
    · rename_i hnew
      refine List.nodup_append.mpr ⟨ih, List.nodup_singleton _, fun other hother _ hname heq => hnew ?_⟩
      rw [← List.mem_singleton.mp hname, ← heq]
      exact List.contains_iff_mem.mpr hother

theorem Names.Gathered.extend {names next : Names} {entry : DynamicEntry}
    (h : names.Gathered strings dynamic) (hextend : Names.extend strings names entry = .ok next) :
    next.Gathered strings (dynamic ++ [entry]) := by
  obtain ⟨needed, hneeded, hlisted⟩ := h.needed
  obtain ⟨own, hown, hlast⟩ := h.soname
  unfold Names.extend at hextend
  split at hextend
  · rename_i htag
    have hskip : entry.tag ≠ DynamicTag.soname := by rw [htag]; decide
    obtain ⟨name, hname, hextend⟩ := exists_of_bind_eq_ok hextend
    have hneeded' := hneeded.append htag (spells_of_stringAt hname)
    split at hextend
    · rename_i hknown
      obtain rfl := Except.ok.inj hextend
      exact ⟨⟨_, hneeded', by rw [eraseDups_concat, ← hlisted, if_pos hknown]⟩, own, hown.skip hskip, hlast⟩
    · rename_i hnew
      obtain rfl := Except.ok.inj hextend
      exact ⟨⟨_, hneeded', by rw [eraseDups_concat, ← hlisted, if_neg hnew]⟩, own, hown.skip hskip, hlast⟩
  · rename_i hother
    split at hextend
    · rename_i htag
      obtain ⟨name, hname, hextend⟩ := exists_of_bind_eq_ok hextend
      obtain rfl := Except.ok.inj hextend
      have hown' := hown.append htag (spells_of_stringAt hname)
      exact ⟨⟨needed, hneeded.skip hother, hlisted⟩, own ++ [name], hown', by simp⟩
    · rename_i hplain
      obtain rfl := Except.ok.inj hextend
      exact ⟨⟨needed, hneeded.skip hother, hlisted⟩, own, hown.skip hplain, hlast⟩

theorem Names.Gathered.foldlM {names last : Names} {rest : List DynamicEntry}
    (h : names.Gathered strings dynamic) (hfold : rest.foldlM (Names.extend strings) names = .ok last) :
    last.Gathered strings (dynamic ++ rest) := by
  induction rest generalizing names dynamic with
  | nil =>
    obtain rfl := Except.ok.inj hfold
    rwa [List.append_nil]
  | cons entry rest ih =>
    rw [List.foldlM_cons] at hfold
    obtain ⟨next, hextend, hrest⟩ := exists_of_bind_eq_ok hfold
    rw [← List.singleton_append, ← List.append_assoc]
    exact ih (h.extend hextend) hrest

theorem gathered_of_foldlM {names : Names} (h : dynamic.foldlM (Names.extend strings) {} = .ok names) :
    names.Gathered strings dynamic := by
  have hnone : ({} : Names).Gathered strings [] := ⟨⟨[], .nil, rfl⟩, [], .nil, rfl⟩
  exact hnone.foldlM h

/-! ## Tables -/

theorem length_of_readTable {address length : UInt32} {bytes : Bytes}
    (h : readTable image headers address length = .ok bytes) : bytes.length = length.toNat := by
  by_cases hlength : 0 < length.toNat
  · obtain ⟨offset, -, hwindow⟩ := exists_window_of_readTable h hlength
    exact Bytes.length_window hwindow
  · obtain rfl : length = 0 := UInt32.toNat_inj.mp (Nat.eq_zero_of_not_pos hlength)
    obtain rfl : [] = bytes := Except.ok.inj h
    rfl

/-- A mandatory tag is in the table. -/
theorem exists_find?_of_checkDynamic {objectType : UInt16} (h : checkDynamic objectType dynamic = .ok ())
    {entry : DynamicTag} (hentry : entry ∈ DynamicTag.table) (hnull : entry.tag ≠ DynamicTag.null)
    (hmandatory : entry.requirement objectType = .mandatory) :
    ∃ value, DynamicEntry.find? dynamic entry.tag = some value := by
  obtain ⟨⟨⟩, htags, -⟩ := exists_of_bind_eq_ok h
  have hpresent := eq_ok_of_forM_eq_ok htags entry hentry
  split at hpresent
  · cases hpresent
  · rename_i hmissing
    exact Option.ne_none_iff_exists'.mp fun hnone => hmissing ⟨hnull, hmandatory, hnone⟩

/-- A loop that answers took one answer from each of its steps. -/
theorem forall₂_of_mapM {α β ε : Type} {step : α → Except ε β} {inputs : List α} {answers : List β}
    (h : inputs.mapM step = .ok answers) : List.Forall₂ (fun a b => step a = .ok b) inputs answers := by
  induction inputs generalizing answers with
  | nil =>
    obtain rfl := Except.ok.inj h
    exact .nil
  | cons input inputs ih =>
    rw [List.mapM_cons] at h
    obtain ⟨answer, hanswer, h⟩ := exists_of_bind_eq_ok h
    obtain ⟨rest, hrest, h⟩ := exists_of_bind_eq_ok h
    obtain rfl := Except.ok.inj h
    exact .cons hanswer (ih hrest)

/-- The symbols of the file are the first ones of its symbol table, as many as its hash table has chains,
and their names are strings of the table. -/
structure Symbolized (image : Image) (file : ObjectFile) (strings : Bytes) : Prop where
  chains : ∃ address hash, DynamicEntry.find? file.dynamic DynamicTag.hash = some address ∧
    readTable image file.programHeaders address 8 = .ok hash ∧
    file.symbols.length = (hash.wordAt file.order 4).toNat
  names : ∃ address table, DynamicEntry.find? file.dynamic DynamicTag.symbolTable = some address ∧
    readTable image file.programHeaders address (UInt32.ofNat (file.symbols.length * symbolSize)) =
      .ok table ∧ table.length = file.symbols.length * symbolSize ∧
    ∀ i symbol, file.symbols[i]? = some symbol →
      Spells strings (table.wordAt file.order (i * symbolSize)) symbol.name

theorem findD_of_find? {value : UInt32} (h : DynamicEntry.find? dynamic tag = some value) :
    DynamicEntry.findD dynamic tag = value := by
  rw [DynamicEntry.findD, h, Option.getD_some]

theorem symbolized_of_readSymbols {hash symbolTable : UInt32}
    (h : readSymbols image file.programHeaders file.order file.dynamic strings = .ok file.symbols)
    (hhash : DynamicEntry.find? file.dynamic DynamicTag.hash = some hash)
    (htable : DynamicEntry.find? file.dynamic DynamicTag.symbolTable = some symbolTable) :
    Symbolized image file strings := by
  unfold readSymbols at h
  rw [findD_of_find? hhash, findD_of_find? htable] at h
  obtain ⟨chains, hchains, h⟩ := exists_of_bind_eq_ok h
  dsimp only at h
  split at h
  · cases h
  · rename_i hsmall
    obtain ⟨table, hread, h⟩ := exists_of_bind_eq_ok h
    have hsymbols := forall₂_of_mapM h
    have hcount : file.symbols.length = (chains.wordAt file.order 4).toNat := by
      rw [← hsymbols.length_eq, List.length_range]
    rw [← hcount] at hread hsmall
    have hlength : table.length = file.symbols.length * symbolSize := by
      rw [length_of_readTable hread, UInt32.toNat_ofNat', Nat.mod_eq_of_lt (Nat.not_le.mp hsmall)]
    refine ⟨⟨hash, chains, hhash, hchains, hcount⟩, symbolTable, table, htable, hread, hlength, ?_⟩
    intro i symbol hi
    obtain ⟨hlt, rfl⟩ := List.getElem?_eq_some_iff.mp hi
    have hat := hsymbols.get (by rwa [hsymbols.length_eq]) hlt
    simp only [List.get_eq_getElem, List.getElem_range] at hat
    obtain ⟨name, hname, hsymbol⟩ := exists_of_bind_eq_ok hat
    rw [← Except.ok.inj hsymbol]
    exact spells_of_stringAt hname

theorem globalStart_le (machine : Machine) (dynamic : List DynamicEntry) (symbols : List Symbol) :
    globalStart machine dynamic symbols ≤ symbols.length := by
  unfold globalStart
  split
  · exact Nat.min_le_right _ _
  · exact List.findIdx_le_length

/-! ## Relocations -/

/-- A list of relocations has no more records than its table has room for, all of one kind. -/
structure Counted (entries : List RelocationEntry) (withAddend : Bool) (size : UInt32) : Prop where
  length : entries.length ≤ size.toNat / relocationSize withAddend
  kind : ∀ entry ∈ entries, entry.addend.isSome = withAddend

theorem counted_of_readRelocations (table : PltTable) {exclude : Option PltTable}
    {entries : List RelocationEntry}
    (h : readRelocations image headers order table.address table.size table.withAddend exclude =
      .ok entries) :
    Counted entries table.withAddend table.size := by
  obtain ⟨-, bytes, -, rfl⟩ := eq_of_readRelocations h
  refine ⟨?_, ?_⟩
  · rw [List.length_map]
    refine (List.length_filter_le _ _).trans (Nat.le_of_eq ?_)
    rw [PltTable.records, List.length_map, List.length_range, PltTable.count, PltTable.step]
  · intro entry hentry
    obtain ⟨record, hrecord, rfl⟩ := List.mem_map.mp hentry
    obtain ⟨i, -, rfl⟩ := List.mem_map.mp (List.mem_filter.mp hrecord).1
    dsimp only [relocationAt]
    cases table.withAddend <;> rfl

theorem counted_of_readTagged {addressTag sizeTag : UInt32} {withAddend : Bool} {exclude : Option PltTable}
    {entries : List RelocationEntry}
    (h : readTagged image headers order dynamic addressTag sizeTag withAddend exclude = .ok entries) :
    Counted entries withAddend (DynamicEntry.findD dynamic sizeTag) := by
  unfold readTagged at h
  split at h
  · rename_i address _
    exact counted_of_readRelocations ⟨address, _, withAddend⟩ h
  · obtain rfl := Except.ok.inj h
    exact ⟨Nat.zero_le _, fun _ hentry => absurd hentry List.not_mem_nil⟩

theorem size_of_pltTable? {machine : Machine} {table : PltTable}
    (h : pltTable? machine dynamic = .ok (some table)) :
    table.size = DynamicEntry.findD dynamic DynamicTag.pltRelocationSize := by
  unfold pltTable? at h
  dsimp only at h
  grind

/-! ## Whole files -/

/-- What the loader relies on in a file with a dynamic table, given the bytes of its string table. -/
structure Tabled (image : Image) (file : ObjectFile) (table : ProgramHeader) (strings : Bytes) : Prop
    extends Symbolized image file strings where
  address : file.dynamicAddress = some table.address
  entries : ∃ bytes, Bytes.window image table.offset.toNat table.fileSize.toNat = some bytes ∧
    file.dynamic.length ≤ bytes.length / DynamicEntry.size ∧
    file.dynamic = (List.range file.dynamic.length).map fun i =>
      DynamicEntry.decode bytes file.order (i * DynamicEntry.size)
  ended : DynamicEntry.NullEnded file.dynamic
  stringTable : ∃ address size, DynamicEntry.find? file.dynamic DynamicTag.stringTable = some address ∧
    DynamicEntry.find? file.dynamic DynamicTag.stringSize = some size ∧
    readTable image file.programHeaders address size = .ok strings ∧ strings.length = size.toNat
  needed : ∃ names, Lists strings file.dynamic DynamicTag.needed names ∧ file.needed = names.eraseDups
  distinct : file.needed.Nodup
  soname : ∃ names, Lists strings file.dynamic DynamicTag.soname names ∧ file.soname = names.getLast?
  named : file.header.type = sharedObjectType →
    ∃ entry ∈ file.dynamic, entry.tag = DynamicTag.soname ∧ ∃ name, file.soname = some name
  rel : Counted file.rel false (DynamicEntry.findD file.dynamic DynamicTag.relSize)
  rela : Counted file.rela true (DynamicEntry.findD file.dynamic DynamicTag.relaSize)
  plt : ∃ withAddend,
    Counted file.plt withAddend (DynamicEntry.findD file.dynamic DynamicTag.pltRelocationSize)

/-- What the loader relies on in any file. -/
structure Accepted (image : Image) (file : ObjectFile) : Prop where
  header : image.header = .ok (file.header, file.order, file.machine)
  programHeaders : image.programHeaders file.header file.order = .ok file.programHeaders
  segments : ∀ header ∈ file.programHeaders, header.isLoad = true →
    header.fileSize ≤ header.memorySize ∧ header.offset.toNat + header.fileSize.toNat ≤ image.length ∧
      ∃ block, header.part.stage image = .ok block
  firstGlobal : file.firstGlobal ≤ file.symbols.length
  bare : file.programHeaders.find? (·.isDynamic) = none →
    file = { file with
      dynamicAddress := none, dynamic := [], symbols := [], firstGlobal := 0, needed := [], soname := none
      rel := [], rela := [], plt := [], dsbt := none }
  tabled : ∀ table, file.programHeaders.find? (·.isDynamic) = some table →
    ∃ strings, Tabled image file table strings

/-- The part of a segment can be staged if the file has it and the segment has room for it. -/
theorem exists_stage {header : ProgramHeader} (hsize : header.fileSize ≤ header.memorySize)
    (hinside : header.offset.toNat + header.fileSize.toNat ≤ image.length) :
    ∃ block, header.part.stage image = .ok block := by
  unfold CopyRequest.stage
  split
  · rename_i hlong
    exact absurd hlong (UInt32.not_lt.mpr hsize)
  · dsimp only [ProgramHeader.part]
    split
    · exact ⟨_, rfl⟩
    · rename_i hnone
      rw [Bytes.window, if_pos hinside] at hnone
      split at hnone <;> cases hnone

theorem window_of_read {start length : Nat} {bytes : Bytes} (h : image.read start length = .ok bytes) :
    Bytes.window image start length = some bytes := by
  unfold Image.read at h
  split at h
  · rename_i found hwindow
    rw [hwindow, Except.ok.inj h]
  · cases h

theorem tabled_of_readDynamic (table : ProgramHeader) {bytes : Bytes} {base : ObjectFile}
    (hbytes : image.read table.offset.toNat table.fileSize.toNat = .ok bytes)
    (hentries : DynamicEntry.decodeTable bytes base.order = .ok dynamic)
    (haddress : base.dynamicAddress = some table.address) (h : readDynamic image base dynamic = .ok file) :
    ∃ strings, Tabled image file table strings := by
  obtain ⟨hdecoded, hfits, hended⟩ := DynamicEntry.exists_of_decodeTable hentries
  obtain ⟨strings, symbols, names, plt?, rel, rela, plt, hcheck, hstrings, hsymbols, hnames, hnamed, hplt?,
    hrel, hrela, hplt, rfl⟩ := exists_of_readDynamic h
  have hpresent : ∀ entry ∈ DynamicTag.table, entry.tag ≠ DynamicTag.null → entry.executable = .mandatory →
      entry.shared = .mandatory → ∃ value, DynamicEntry.find? dynamic entry.tag = some value := by
    intro entry hentry hnull hexecutable hshared
    refine exists_find?_of_checkDynamic hcheck hentry hnull ?_
    rw [DynamicTag.requirement, hexecutable, hshared, ite_self]
  obtain ⟨hash, hhash⟩ := hpresent ⟨DynamicTag.hash, "DT_HASH", .address, .mandatory, .mandatory⟩
    (by decide) (by decide) rfl rfl
  obtain ⟨stringTable, hstringTable⟩ := hpresent
    ⟨DynamicTag.stringTable, "DT_STRTAB", .address, .mandatory, .mandatory⟩ (by decide) (by decide) rfl rfl
  obtain ⟨symbolTable, hsymbolTable⟩ := hpresent
    ⟨DynamicTag.symbolTable, "DT_SYMTAB", .address, .mandatory, .mandatory⟩ (by decide) (by decide) rfl rfl
  obtain ⟨stringSize, hstringSize⟩ := hpresent
    ⟨DynamicTag.stringSize, "DT_STRSZ", .number, .mandatory, .mandatory⟩ (by decide) (by decide) rfl rfl
  rw [findD_of_find? hstringTable, findD_of_find? hstringSize] at hstrings
  obtain ⟨⟨listed, hlisted, hneeded⟩, own, hown, hsoname⟩ := gathered_of_foldlM hnames
  refine ⟨strings, {
    toSymbolized := symbolized_of_readSymbols hsymbols hhash hsymbolTable
    address := haddress
    entries := ⟨bytes, ?_, hfits, hdecoded⟩
    ended := hended
    stringTable :=
      ⟨stringTable, stringSize, hstringTable, hstringSize, hstrings, length_of_readTable hstrings⟩
    needed := ⟨listed, hlisted, hneeded⟩
    distinct := hneeded ▸ nodup_eraseDups listed
    soname := ⟨own, hown, hsoname⟩
    named := ?_
    rel := counted_of_readTagged hrel
    rela := counted_of_readTagged hrela
    plt := ?_ }⟩
  · exact window_of_read hbytes
  · intro htype
    dsimp only at htype ⊢
    cases hname : names.soname with
    | none => exact absurd ⟨by rw [hname]; rfl, htype⟩ hnamed
    | some name =>
      obtain ⟨entry, hentry, htag⟩ := hown.exists_entry (List.mem_of_getLast? (hsoname.symm.trans hname))
      exact ⟨entry, hentry, htag, name, rfl⟩
  · cases plt? with
    | none =>
      obtain rfl := Except.ok.inj hplt
      exact ⟨false, Nat.zero_le _, fun _ hentry => absurd hentry List.not_mem_nil⟩
    | some t => exact ⟨t.withAddend, size_of_pltTable? hplt? ▸ counted_of_readRelocations t hplt⟩

/-- Whatever its bytes are, a file that is read without an error is one that the loader can rely on. -/
theorem accepted_of_read (h : ObjectFile.read image = .ok file) : Accepted image file := by
  have hsegments : ∀ header ∈ file.programHeaders, header.isLoad = true →
      header.fileSize ≤ header.memorySize ∧ header.offset.toNat + header.fileSize.toNat ≤ image.length ∧
        ∃ block, header.part.stage image = .ok block := by
    intro header hheader hload
    obtain ⟨hsize, hcontains⟩ := checked_of_read h hheader hload
    have hinside : header.offset.toNat + header.fileSize.toNat ≤ image.length := by
      simpa [Image.contains] using hcontains
    exact ⟨hsize, hinside, exists_stage hsize hinside⟩
  obtain ⟨header, order, machine, headers, hheader, hheaders, -, h⟩ := exists_of_read h
  split at h
  · rename_i hbare
    subst h
    refine ⟨hheader, hheaders, hsegments, Nat.le_refl _, fun _ => rfl, fun table htable => ?_⟩
    cases hbare.symm.trans htable
  · rename_i table htable
    obtain ⟨bytes, dynamic, hbytes, hdynamic, hread⟩ := h
    have htabled := tabled_of_readDynamic table hbytes hdynamic rfl hread
    obtain ⟨-, symbols, names, -, rel, rela, plt, -, -, -, -, -, -, -, -, -, rfl⟩ :=
      exists_of_readDynamic hread
    refine ⟨hheader, hheaders, hsegments, globalStart_le _ _ _, fun hbare => ?_, fun other hother => ?_⟩
    · cases hbare.symm.trans htable
    · obtain rfl := Option.some.inj (htable.symm.trans hother)
      exact htabled

/-- A shared object that needs one file twice, with two symbols and a relocation. -/
def acceptedFile : SampleObject where
  data := [0]
  symbols := [(1, 0x74, 0x1000010)]
  rel := [(0x74, 0x102)]
  names := [[0x61], [0x62]]
  tags := [(DynamicTag.needed, 3), (DynamicTag.needed, 3)]

theorem accepted_acceptedFile : ∃ file, ObjectFile.read acceptedFile.image = .ok file ∧
    Accepted acceptedFile.image file ∧ file.needed = ["b"] ∧ file.soname = some "a" ∧
    file.symbols.length = 2 ∧ file.rel.length = 1 := by
  have hfacts : (ObjectFile.read acceptedFile.image).map (fun file =>
      (file.needed, file.soname, file.symbols.length, file.rel.length)) = .ok (["b"], some "a", 2, 1) := by
    decide +kernel
  cases hread : ObjectFile.read acceptedFile.image with
  | error error =>
    rw [hread] at hfacts
    cases hfacts
  | ok file =>
    rw [hread] at hfacts
    simp only [Except.map, Except.ok.injEq, Prod.mk.injEq] at hfacts
    exact ⟨file, rfl, accepted_of_read hread, hfacts⟩

end TargetLink.ObjectFile
