import TargetLink.Proofs.Passes

/-!
# Where relocations belong

Where no link-time address lies in two segments, each relocation has one home, the segment that its cell
lies in (`homeOf?_eq_some_iff`).  The rule about the procedure linkage table then comes to the same as
the rule for the other tables (`scheduleFrom_eq`), and the segments share the relocations out among
themselves (`flatMap_filter_perm`).
-/

namespace TargetLink

/-- Segments that have no link-time address in common. -/
def Segment.LinkApart (segment other : Segment) : Prop :=
  ∀ address, segment.containsLink address → ¬other.containsLink address

namespace Draft

variable {file : ObjectFile} {segments : List Segment} {entry : RelocationEntry}

/-- The relocations of a file whose cells lie in a segment. -/
def entriesIn (file : ObjectFile) (segment : Segment) : List RelocationEntry :=
  (file.rel ++ file.rela ++ file.plt).filter fun entry => segment.containsLink entry.offset

/-- Each segment with the relocations whose cells lie in it, in the order of the tables. -/
def schedule (file : ObjectFile) (segments : List Segment) : Schedule :=
  segments.map fun segment => (segment, entriesIn file segment)

/-- Every relocation patches some segment, and those of the procedure linkage table all patch the
segment of the first one. -/
structure Homed (file : ObjectFile) (segments : List Segment) : Prop where
  placed : ∀ entry ∈ file.rel ++ file.rela ++ file.plt,
    ∃ segment ∈ segments, segment.containsLink entry.offset
  together : ∀ first ∈ file.plt.head?, ∀ entry ∈ file.plt, ∀ segment ∈ segments,
    segment.containsLink first.offset → segment.containsLink entry.offset

theorem homeOf?_isSome_iff :
    (homeOf? segments entry).isSome ↔ ∃ segment ∈ segments, segment.containsLink entry.offset := by
  rw [homeOf?, List.findIdx?_isSome, List.any_eq_true]

section Apart

variable (hapart : segments.Pairwise Segment.LinkApart)

include hapart

/-- Segments that stand apart are the only home of what lies in them. -/
theorem eq_of_containsLink {i j : Nat} {segment other : Segment}
    (hi : segments[i]? = some segment) (hj : segments[j]? = some other) {address : UInt32}
    (hsegment : segment.containsLink address) (hother : other.containsLink address) : i = j := by
  obtain ⟨hi', rfl⟩ := List.getElem?_eq_some_iff.mp hi
  obtain ⟨hj', rfl⟩ := List.getElem?_eq_some_iff.mp hj
  rcases Nat.lt_trichotomy i j with hlt | heq | hlt
  · exact absurd hother (List.pairwise_iff_getElem.mp hapart i j hi' hj' hlt address hsegment)
  · exact heq
  · exact absurd hsegment (List.pairwise_iff_getElem.mp hapart j i hj' hi' hlt address hother)

theorem homeOf?_eq_some_iff {i : Nat} :
    homeOf? segments entry = some i ↔
      ∃ segment, segments[i]? = some segment ∧ segment.containsLink entry.offset := by
  constructor
  · intro h
    obtain ⟨hi, hcontains, -⟩ := List.findIdx?_eq_some_iff_getElem.mp h
    exact ⟨segments[i], List.getElem?_eq_getElem hi, hcontains⟩
  · rintro ⟨segment, hi, hcontains⟩
    have hsome : (homeOf? segments entry).isSome :=
      homeOf?_isSome_iff.mpr ⟨segment, List.mem_of_getElem? hi, hcontains⟩
    obtain ⟨j, hj⟩ := Option.isSome_iff_exists.mp hsome
    obtain ⟨hlt, hother, -⟩ := List.findIdx?_eq_some_iff_getElem.mp hj
    rw [hj, eq_of_containsLink hapart (List.getElem?_eq_getElem hlt) hi hother hcontains]

/-- The check of the homes succeeds if every relocation has the home that it should have. -/
theorem exists_checkHomes_iff :
    (∃ home, checkHomes file segments = .ok home) ↔ Homed file segments := by
  simp only [checkHomes_eq_ok_iff, homeOf?_isSome_iff]
  constructor
  · rintro ⟨home, hplaced, htogether, hhome⟩
    refine ⟨hplaced, fun first hfirst entry hentry segment hsegment hcontains => ?_⟩
    obtain ⟨i, hi⟩ := List.getElem?_of_mem hsegment
    have hfirstHome := (homeOf?_eq_some_iff hapart).mpr ⟨segment, hi, hcontains⟩
    rw [Option.mem_def.mp hfirst, Option.bind_some, hfirstHome] at hhome
    obtain ⟨other, hother, hentryIn⟩ :=
      (homeOf?_eq_some_iff hapart).mp ((htogether entry hentry).trans hhome)
    rw [hi] at hother
    rwa [← Option.some.inj hother] at hentryIn
  · rintro ⟨hplaced, htogether⟩
    refine ⟨_, hplaced, fun entry hentry => ?_, rfl⟩
    obtain ⟨first, rest, hplt⟩ := List.exists_cons_of_ne_nil (List.ne_nil_of_mem hentry)
    have hfirst : file.plt.head? = some first := by rw [hplt, List.head?_cons]
    obtain ⟨segment, hsegment, hcontains⟩ :=
      hplaced first (List.mem_append_right _ (List.mem_of_mem_head? hfirst))
    obtain ⟨i, hi⟩ := List.getElem?_of_mem hsegment
    have hentryIn := htogether first hfirst entry hentry segment hsegment hcontains
    rw [hfirst, Option.bind_some, (homeOf?_eq_some_iff hapart).mpr ⟨segment, hi, hcontains⟩]
    exact (homeOf?_eq_some_iff hapart).mpr ⟨segment, hi, hentryIn⟩

/-- Where the segments stand apart, the relocations of the procedure linkage table follow the rule of
the other tables. -/
theorem scheduleFrom_eq {home : Option Nat} (hhomes : checkHomes file segments = .ok home) :
    scheduleFrom file home 0 segments = schedule file segments := by
  obtain ⟨hplaced, htogether, -⟩ := checkHomes_eq_ok_iff.mp hhomes
  apply List.ext_getElem?
  intro i
  rw [scheduleFrom, schedule, List.getElem?_map, List.getElem?_map, List.getElem?_zipIdx]
  cases hi : segments[i]? with
  | none => rfl
  | some segment =>
    simp only [Option.map_some, Nat.zero_add, Option.some_inj, Prod.mk.injEq, true_and]
    by_cases hhere : home = some i
    · rw [entriesOf, entriesIn, decide_eq_true hhere, if_pos rfl]
    · -- Nothing of the table lies in a segment that is not its home.
      have hnone : file.plt.filter (fun entry => segment.containsLink entry.offset) = [] := by
        refine List.filter_eq_nil_iff.mpr fun entry hentry hcontains => hhere ?_
        rw [← htogether entry hentry]
        exact (homeOf?_eq_some_iff hapart).mpr ⟨segment, hi, hcontains⟩
      rw [entriesOf, entriesIn, decide_eq_false hhere, if_neg Bool.false_ne_true, List.append_nil,
        List.filter_append, List.filter_append, List.filter_append, hnone, List.append_nil]

/-- Segments that stand apart share out what lies in them. -/
theorem flatMap_filter_perm {entries : List RelocationEntry}
    (hplaced : ∀ entry ∈ entries, ∃ segment ∈ segments, segment.containsLink entry.offset) :
    (segments.flatMap fun segment =>
      entries.filter fun entry => segment.containsLink entry.offset).Perm entries := by
  induction hapart generalizing entries with
  | nil =>
    cases entries with
    | nil => exact .nil
    | cons entry entries =>
      obtain ⟨segment, hsegment, -⟩ := hplaced entry List.mem_cons_self
      cases hsegment
  | @cons first rest hfirst _ ih =>
    -- The other segments share out what the first one leaves.
    have hothers : (rest.flatMap fun segment =>
        entries.filter fun entry => segment.containsLink entry.offset) =
        rest.flatMap fun segment => (entries.filter fun entry =>
          !first.containsLink entry.offset).filter fun entry => segment.containsLink entry.offset := by
      refine List.flatMap_congr fun segment hsegment => ?_
      rw [List.filter_filter]
      refine List.filter_congr fun entry _ => ?_
      have hapart' := hfirst segment hsegment entry.offset
      cases hsegment' : segment.containsLink entry.offset with
      | false => rfl
      | true =>
        have hnot : first.containsLink entry.offset = false :=
          Bool.eq_false_iff.mpr fun hcontains => hapart' hcontains hsegment'
        rw [hnot]
        rfl
    rw [List.flatMap_cons, hothers]
    refine ((ih fun entry hentry => ?_).append_left _).trans (List.filter_append_perm _ _)
    obtain ⟨hentry, hout⟩ := List.mem_filter.mp hentry
    obtain ⟨segment, hsegment, hcontains⟩ := hplaced entry hentry
    rcases List.mem_cons.mp hsegment with rfl | hsegment
    · rw [hcontains] at hout
      cases hout
    · exact ⟨segment, hsegment, hcontains⟩

end Apart

end Draft

end TargetLink
