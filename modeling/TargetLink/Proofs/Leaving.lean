import TargetLink.Loader.Unload
import TargetLink.Proofs.Ledger
import TargetLink.Proofs.Residents

/-!
# The order in which modules leave

A module that leaves is terminated, and later its memory is given back; what it needs is released in
between.  `Orderly gone modules steps` is the law of that order: of the given modules those that are
`gone` were terminated and given back once each, and a module was terminated before anything happened
to a module that it needs.

The steps of two departures follow each other if no module that stayed needs one that left
(`Orderly.append`), and the steps of a module go around those of what it needs if no other module
needs it (`Orderly.around`).
-/

namespace TargetLink

open TargetLink.Module (handlesOf needsOf)

/-- What happens to a module that leaves. -/
inductive Leave
  | terminate (m : Module)
  | giveBack (m : Module)

namespace Leave

variable {σ : Type} [Client σ]

/-- The client after a step. A module of which only the symbols are known has nothing to run. -/
def run (client : σ) : Leave → σ
  | terminate m => if m.symbolsOnly then client else (Loader.runFini m client).2
  | giveBack m => Loader.giveBack m.segments client

theorem quiet_terminate (ledger : Ledger σ) (m : Module) (client : σ) :
    ledger.Quiet client (run client (terminate m)) := by
  by_cases hsymbols : m.symbolsOnly
  · rw [run, if_pos hsymbols]
    exact Std.Refl.refl client
  · rw [run, if_neg hsymbols]
    exact ledger.quiet_runFini m client

end Leave

/-- The modules that are gone left in order: each of them was terminated once and given back once,
first the one and then the other, and before what it needs was terminated or given back. -/
structure Orderly (gone : List Handle) (modules : List Module) (steps : List Leave) : Prop where
  once : steps.Nodup
  terminated : ∀ m, .terminate m ∈ steps ↔ m ∈ modules ∧ m.handle ∈ gone
  givenBack : ∀ m, .giveBack m ∈ steps ↔ m ∈ modules ∧ m.handle ∈ gone
  own : ∀ m ∈ modules, m.handle ∈ gone → [.terminate m, .giveBack m].Sublist steps
  needed : ∀ m ∈ modules, m.handle ∈ gone → ∀ n ∈ modules, n.handle ∈ gone →
    n.handle ∈ m.dependencies →
      [.terminate m, .terminate n].Sublist steps ∧ [.terminate m, .giveBack n].Sublist steps

namespace Orderly

variable {gone gone' : List Handle} {modules : List Module} {steps steps' : List Leave}

protected theorem nil (modules : List Module) : Orderly [] modules [] where
  once := List.nodup_nil
  terminated := by simp
  givenBack := by simp
  own := by simp
  needed := by simp

/-- Only the given modules matter. -/
theorem congr (h : Orderly gone modules steps)
    (hsame : ∀ m ∈ modules, (m.handle ∈ gone' ↔ m.handle ∈ gone)) :
    Orderly gone' modules steps where
  once := h.once
  terminated m := (h.terminated m).trans (and_congr_right fun hm => (hsame m hm).symm)
  givenBack m := (h.givenBack m).trans (and_congr_right fun hm => (hsame m hm).symm)
  own m hm hgone := h.own m hm ((hsame m hm).mp hgone)
  needed m hm hgone n hn hgone' := h.needed m hm ((hsame m hm).mp hgone) n hn ((hsame n hn).mp hgone')

/-- Whatever the step, its module is one of those that are gone. -/
theorem module_mem (h : Orderly gone modules steps) {step : Leave} (hstep : step ∈ steps) :
    ∃ m ∈ modules, m.handle ∈ gone ∧ (step = .terminate m ∨ step = .giveBack m) := by
  cases step with
  | terminate m =>
    obtain ⟨hm, hgone⟩ := (h.terminated m).mp hstep
    exact ⟨m, hm, hgone, Or.inl rfl⟩
  | giveBack m =>
    obtain ⟨hm, hgone⟩ := (h.givenBack m).mp hstep
    exact ⟨m, hm, hgone, Or.inr rfl⟩

/-- Modules that leave after others, none of which needs one that left before. -/
theorem append (hfirst : Orderly gone modules steps)
    (hsecond : Orderly gone' (modules.filter (·.handle ∉ gone)) steps')
    (hclosed : ∀ m ∈ modules, m.handle ∉ gone → ∀ d ∈ m.dependencies, d ∉ gone) :
    Orderly (gone ++ gone') modules (steps ++ steps') := by
  have hstay : ∀ m, m ∈ modules.filter (·.handle ∉ gone) ↔ m ∈ modules ∧ m.handle ∉ gone := by
    simp
  have hsplit : ∀ m ∈ modules, m.handle ∈ gone ++ gone' →
      m.handle ∈ gone ∨ m ∈ modules.filter (·.handle ∉ gone) ∧ m.handle ∈ gone' := by
    intro m hm hgone
    by_cases hearlier : m.handle ∈ gone
    · exact Or.inl hearlier
    · exact Or.inr ⟨(hstay m).mpr ⟨hm, hearlier⟩, (List.mem_append.mp hgone).resolve_left hearlier⟩
  constructor
  case once =>
    refine List.nodup_append'.mpr ⟨hfirst.once, hsecond.once, fun step hstep hstep' => ?_⟩
    obtain ⟨m, -, hgone, heq⟩ := hfirst.module_mem hstep
    obtain ⟨n, hn, -, heq'⟩ := hsecond.module_mem hstep'
    obtain rfl : m = n := by
      rcases heq with rfl | rfl <;> rcases heq' with heq' | heq' <;> cases heq' <;> rfl
    exact ((hstay m).mp hn).2 hgone
  case terminated =>
    intro m
    rw [List.mem_append, hfirst.terminated, hsecond.terminated, hstay, List.mem_append]
    tauto
  case givenBack =>
    intro m
    rw [List.mem_append, hfirst.givenBack, hsecond.givenBack, hstay, List.mem_append]
    tauto
  case own =>
    intro m hm hgone
    rcases hsplit m hm hgone with hearlier | ⟨hlater, hgone'⟩
    · exact (hfirst.own m hm hearlier).trans (List.sublist_append_left _ _)
    · exact (hsecond.own m hlater hgone').trans (List.sublist_append_right _ _)
  case needed =>
    intro m hm hgone n hn hgoneNeeded hneeds
    rcases hsplit m hm hgone with hearlier | ⟨hlater, hgone'⟩
    · rcases hsplit n hn hgoneNeeded with hearlier' | ⟨hlater', hgone''⟩
      · obtain ⟨hterminate, hgive⟩ := hfirst.needed m hm hearlier n hn hearlier' hneeds
        exact ⟨hterminate.trans (List.sublist_append_left _ _),
          hgive.trans (List.sublist_append_left _ _)⟩
      · have hown := (hfirst.terminated m).mpr ⟨hm, hearlier⟩
        have hterminate := (hsecond.terminated n).mpr ⟨hlater', hgone''⟩
        have hgive := (hsecond.givenBack n).mpr ⟨hlater', hgone''⟩
        exact ⟨(List.singleton_sublist.mpr hown).append (List.singleton_sublist.mpr hterminate),
          (List.singleton_sublist.mpr hown).append (List.singleton_sublist.mpr hgive)⟩
    · have hstayed : n.handle ∉ gone :=
        hclosed m hm ((hstay m).mp hlater).2 n.handle hneeds
      have hgone'' := (List.mem_append.mp hgoneNeeded).resolve_left hstayed
      obtain ⟨hterminate, hgive⟩ :=
        hsecond.needed m hlater hgone' n ((hstay n).mpr ⟨hn, hstayed⟩) hgone'' hneeds
      exact ⟨hterminate.trans (List.sublist_append_right _ _),
        hgive.trans (List.sublist_append_right _ _)⟩

/-- A module that nothing needs leaves around what it needs. -/
theorem around {m : Module} (hm : m ∈ modules) (hdistinct : (handlesOf modules).Nodup)
    (hunneeded : m.handle ∉ needsOf modules)
    (h : Orderly gone (modules.filter (·.handle != m.handle)) steps) :
    Orderly (gone ++ [m.handle]) modules (.terminate m :: steps ++ [.giveBack m]) := by
  have hother : ∀ n, n ∈ modules.filter (·.handle != m.handle) ↔
      n ∈ modules ∧ n.handle ≠ m.handle := by
    simp
  have hself : ∀ n ∈ modules, n.handle = m.handle → n = m :=
    fun n hn heq => Module.eq_of_handle_eq hdistinct hn hm heq
  have hnotin : ∀ step ∈ steps, step ≠ .terminate m ∧ step ≠ .giveBack m := by
    intro step hstep
    obtain ⟨n, hn, -, heq⟩ := h.module_mem hstep
    have hne := ((hother n).mp hn).2
    constructor
    · rintro rfl
      rcases heq with heq | heq <;> cases heq
      exact hne rfl
    · rintro rfl
      rcases heq with heq | heq <;> cases heq
      exact hne rfl
  have hsplit : ∀ n ∈ modules, n.handle ∈ gone ++ [m.handle] →
      n = m ∨ n ∈ modules.filter (·.handle != m.handle) ∧ n.handle ∈ gone := by
    intro n hn hgone
    by_cases heq : n.handle = m.handle
    · exact Or.inl (hself n hn heq)
    · refine Or.inr ⟨(hother n).mpr ⟨hn, heq⟩, ?_⟩
      simpa [heq] using hgone
  have hinner : steps.Sublist (.terminate m :: steps ++ [.giveBack m]) :=
    (List.sublist_cons_self _ _).trans (List.sublist_append_left _ _)
  constructor
  case once =>
    rw [List.cons_append, List.nodup_cons, List.nodup_append']
    refine ⟨?_, h.once, List.nodup_singleton _, ?_⟩
    · intro hmem
      rcases List.mem_append.mp hmem with hmem | hmem
      · exact (hnotin _ hmem).1 rfl
      · cases List.mem_singleton.mp hmem
    · intro step hstep hlast
      exact (hnotin step hstep).2 (List.mem_singleton.mp hlast)
  case terminated =>
    intro n
    by_cases heq : n = m
    · subst heq
      simp [hm]
    · have hne : n ∈ modules → n.handle ≠ m.handle := fun hn hhandle => heq (hself n hn hhandle)
      simp only [List.cons_append, List.mem_cons, List.mem_append, Leave.terminate.injEq, heq,
        h.terminated, hother, reduceCtorEq, List.not_mem_nil, or_false, false_or]
      tauto
  case givenBack =>
    intro n
    by_cases heq : n = m
    · subst heq
      simp [hm]
    · have hne : n ∈ modules → n.handle ≠ m.handle := fun hn hhandle => heq (hself n hn hhandle)
      simp only [List.cons_append, List.mem_cons, List.mem_append, Leave.giveBack.injEq, heq,
        h.givenBack, hother, reduceCtorEq, List.not_mem_nil, or_false, false_or]
      tauto
  case own =>
    intro n hn hgone
    rcases hsplit n hn hgone with rfl | ⟨hn', hgone'⟩
    · exact (List.sublist_append_right steps [.giveBack n]).cons_cons _
    · exact (h.own n hn' hgone').trans hinner
  case needed =>
    intro k hk hgone n hn hgoneNeeded hneeds
    have hne : n ≠ m := by
      rintro rfl
      exact hunneeded (List.mem_flatMap.mpr ⟨k, hk, hneeds⟩)
    obtain ⟨hn', hgone''⟩ := (hsplit n hn hgoneNeeded).resolve_left hne
    rcases hsplit k hk hgone with rfl | ⟨hk', hgone'⟩
    · have hlater : ∀ step ∈ steps,
          [.terminate k, step].Sublist (.terminate k :: steps ++ [.giveBack k]) :=
        fun step hstep => ((List.singleton_sublist.mpr hstep).trans
          (List.sublist_append_left _ _)).cons_cons _
      exact ⟨hlater _ ((h.terminated n).mpr ⟨hn', hgone''⟩),
        hlater _ ((h.givenBack n).mpr ⟨hn', hgone''⟩)⟩
    · obtain ⟨hterminate, hgive⟩ := h.needed k hk' hgone' n hn' hgone'' hneeds
      exact ⟨hterminate.trans hinner, hgive.trans hinner⟩

end Orderly

end TargetLink
