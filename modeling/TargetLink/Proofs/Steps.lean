import TargetLink.Error
import Mathlib.Order.Defs.Unbundled

/-!
# Reasoning about steps that may fail

A step keeps what it did to its state when it fails, so every statement about a step speaks of both
outcomes.

* `LoadM.Triple P step Q E`: from a state with `P` the step ends in a state with `Q`, for the value
  that it returns, or it fails and leaves a state with `E`.
* `LoadM.Within R step`: whatever the outcome, the state before and the state after are related by
  `R`.  This is how a step is framed: `R` says what it may change.
-/

namespace TargetLink

/-- What two steps in a row answer comes from an answer of the first one. -/
theorem exists_of_bind_eq_ok {ε α β : Type} {result : Except ε α} {next : α → Except ε β} {b : β}
    (h : result >>= next = .ok b) : ∃ a, result = .ok a ∧ next a = .ok b := by
  cases result with
  | error e => cases h
  | ok a => exact ⟨a, rfl, h⟩

theorem bind_eq_ok_iff {ε α β : Type} {result : Except ε α} {next : α → Except ε β} {b : β} :
    result >>= next = .ok b ↔ ∃ a, result = .ok a ∧ next a = .ok b :=
  ⟨exists_of_bind_eq_ok, by rintro ⟨a, rfl, h⟩; exact h⟩

/-- A loop of checks that ends without an error made all of them. -/
theorem eq_ok_of_forM_eq_ok {ε β : Type} {body : β → Except ε Unit} {xs : List β}
    (h : xs.forM body = .ok ()) : ∀ x ∈ xs, body x = .ok () := by
  induction xs with
  | nil => rintro _ ⟨⟩
  | cons x xs ih =>
    obtain ⟨⟨⟩, hfirst, hrest⟩ := exists_of_bind_eq_ok h
    exact List.forall_mem_cons.mpr ⟨hfirst, ih hrest⟩

/-- Two steps in a row fail in one of them. -/
theorem bind_eq_error_iff {ε α β : Type} {result : Except ε α} {next : α → Except ε β} {e : ε} :
    result >>= next = .error e ↔
      result = .error e ∨ ∃ a, result = .ok a ∧ next a = .error e := by
  cases result with
  | error e' => simp [bind, Except.bind]
  | ok a => simp [bind, Except.bind]

namespace LoadM

variable {σ τ α β : Type}

/-! ## Running the primitive steps -/

theorem bind_apply (step : LoadM σ α) (next : α → LoadM σ β) (s : σ) :
    (step >>= next) s = match step s with
      | (.ok a, t) => next a t
      | (.error e, t) => (.error e, t) := by
  simp only [bind, ExceptT.bind, ExceptT.mk, StateT.bind]
  rcases step s with ⟨_ | _, t⟩ <;> rfl

@[simp] theorem pure_apply (a : α) (s : σ) : (pure a : LoadM σ α) s = (.ok a, s) := rfl

@[simp] theorem throw_apply (e : LoadError) (s : σ) :
    (throw e : LoadM σ α) s = (.error e, s) := rfl

@[simp] theorem get_apply (s : σ) : (get : LoadM σ σ) s = (.ok s, s) := rfl

@[simp] theorem set_apply (s t : σ) : (set t : LoadM σ Unit) s = (.ok (), t) := rfl

@[simp] theorem ofExcept_apply (result : Except LoadError α) (s : σ) :
    (MonadExcept.ofExcept result : LoadM σ α) s = (result, s) := by
  cases result <;> rfl

@[simp] theorem observe_apply (step : LoadM σ α) (s : σ) :
    step.observe s = (.ok (step s).1, (step s).2) := rfl

@[simp] theorem zoom_apply (part : τ → σ) (replace : σ → τ → τ) (step : LoadM σ α) (t : τ) :
    step.zoom part replace t = ((step (part t)).1, replace (step (part t)).2 t) := rfl

/-- A loop over steps that leave the state alone. -/
theorem mapM_apply {xs : List β} {body : β → LoadM σ α} {f : β → α} {s : σ}
    (h : ∀ x ∈ xs, body x s = (.ok (f x), s)) : xs.mapM body s = (.ok (xs.map f), s) := by
  induction xs with
  | nil => rfl
  | cons x xs ih =>
    obtain ⟨hfirst, hrest⟩ := List.forall_mem_cons.mp h
    simp only [List.mapM_cons, bind_apply, hfirst, ih hrest, pure_apply, List.map_cons]

/-! ## Triples -/

/-- From every state with `P` the step ends with `Q`, or fails and leaves a state with `E`. -/
def Triple (P : σ → Prop) (step : LoadM σ α) (Q : α → σ → Prop) (E : σ → Prop) : Prop :=
  ∀ s, P s → match step s with
    | (.ok a, t) => Q a t
    | (.error _, t) => E t

namespace Triple

variable {P P' : σ → Prop} {Q Q' : α → σ → Prop} {E : σ → Prop} {step : LoadM σ α}

theorem ok (h : Triple P step Q E) {s t : σ} {a : α} (hs : P s) (hstep : step s = (.ok a, t)) :
    Q a t := by
  have := h s hs
  rwa [hstep] at this

theorem error (h : Triple P step Q E) {s t : σ} {e : LoadError} (hs : P s)
    (hstep : step s = (.error e, t)) : E t := by
  have := h s hs
  rwa [hstep] at this

theorem strengthen (h : Triple P step Q E) (hP : ∀ s, P' s → P s) : Triple P' step Q E :=
  fun s hs => h s (hP s hs)

theorem weaken {E' : σ → Prop} (h : Triple P step Q E) (hQ : ∀ a s, Q a s → Q' a s)
    (hE : ∀ s, E s → E' s) : Triple P step Q' E' := by
  intro s hs
  have := h s hs
  rcases hstep : step s with ⟨e | a, t⟩ <;> rw [hstep] at this
  · exact hE t this
  · exact hQ a t this

/-- Two things that are known of a step hold together. -/
protected theorem and {E' : σ → Prop} (h : Triple P step Q E) (h' : Triple P' step Q' E') :
    Triple (fun s => P s ∧ P' s) step (fun a s => Q a s ∧ Q' a s) E := by
  rintro s ⟨hs, hs'⟩
  have hfirst := h s hs
  have hsecond := h' s hs'
  rcases hstep : step s with ⟨e | a, t⟩ <;> rw [hstep] at hfirst hsecond
  · exact hfirst
  · exact ⟨hfirst, hsecond⟩

protected theorem pure {a : α} (h : ∀ s, P s → Q a s) : Triple P (pure a) Q E := h

protected theorem throw {e : LoadError} (h : ∀ s, P s → E s) : Triple P (throw e) Q E := h

protected theorem modify {f : σ → σ} {Q : Unit → σ → Prop} (h : ∀ s, P s → Q () (f s)) :
    Triple P (modify f) Q E := h

protected theorem ofExcept {result : Except LoadError α} (hok : ∀ a s, result = .ok a → P s → Q a s)
    (herror : ∀ s, P s → E s) : Triple P (MonadExcept.ofExcept result) Q E := by
  intro s hs
  rw [ofExcept_apply]
  cases result with
  | ok a => exact hok a s rfl hs
  | error e => exact herror s hs

protected theorem bind {R : α → σ → Prop} {next : α → LoadM σ β} {Q : β → σ → Prop}
    (hstep : Triple P step R E) (hnext : ∀ a, Triple (R a) (next a) Q E) :
    Triple P (step >>= next) Q E := by
  intro s hs
  have := hstep s hs
  rw [bind_apply]
  rcases hrun : step s with ⟨e | a, t⟩ <;> rw [hrun] at this
  · exact this
  · exact hnext a t this

/-- What follows a look at the state may be shown for that state alone. -/
theorem get_bind {next : σ → LoadM σ β} {Q : β → σ → Prop}
    (h : ∀ s, P s → Triple (· = s) (next s) Q E) : Triple P (get >>= next) Q E := by
  intro s hs
  rw [bind_apply, get_apply]
  exact h s hs s rfl

/-- A guard in front of a step throws or lets the step pass. -/
theorem throw_if {c : Prop} [Decidable c] {e : LoadError} {next : PUnit → LoadM σ α}
    (herror : c → ∀ s, P s → E s) (hnext : ¬c → Triple P (next ()) Q E) :
    Triple P (if c then throw e >>= next else next ()) Q E := by
  by_cases hc : c
  · rw [if_pos hc]
    exact herror hc
  · rw [if_neg hc]
    exact hnext hc

/-- A loop keeps what every round keeps. -/
theorem forM {xs : List β} {body : β → LoadM σ Unit}
    (h : ∀ x ∈ xs, Triple P (body x) (fun _ => P) E) :
    Triple P (xs.forM body) (fun _ => P) E := by
  induction xs with
  | nil => exact Triple.pure fun _ hs => hs
  | cons x xs ih =>
    exact (h x List.mem_cons_self).bind fun _ => ih fun y hy => h y (List.mem_cons_of_mem x hy)

/-- A loop that may use in each round what was done before and what is left. -/
theorem forM_split {I : List β → σ → Prop} {body : β → LoadM σ Unit} (xs : List β)
    (h : ∀ done x rest, xs = done ++ x :: rest →
      Triple (I done) (body x) (fun _ => I (done ++ [x])) E) :
    Triple (I []) (xs.forM body) (fun _ => I xs) E := by
  have hloop : ∀ rest done, xs = done ++ rest → Triple (I done) (rest.forM body) (fun _ => I xs) E := by
    intro rest
    induction rest with
    | nil =>
      intro done hxs
      rw [List.append_nil] at hxs
      exact Triple.pure fun s hs => hxs ▸ hs
    | cons x rest ih =>
      intro done hxs
      refine (h done x rest hxs).bind fun _ => ih (done ++ [x]) ?_
      rw [hxs, List.append_assoc, List.singleton_append]
  exact hloop xs [] rfl

/-- A loop whose rounds each add what they did to what was done before. -/
theorem forM_done {I : List β → σ → Prop} {body : β → LoadM σ Unit}
    (h : ∀ done x, Triple (I done) (body x) (fun _ => I (done ++ [x])) E) (done xs : List β) :
    Triple (I done) (xs.forM body) (fun _ => I (done ++ xs)) E := by
  have hloop := forM_split (I := fun more => I (done ++ more)) xs fun earlier x _ _ => by
    simpa only [List.append_assoc] using h (done ++ earlier) x
  rwa [List.append_nil] at hloop

/-- Every round of a loop goes one element further and adds its result to those of the rounds before. -/
theorem mapM_zip {I : List β → List α → σ → Prop} {xs : List β} {body : β → LoadM σ α}
    (h : ∀ x ∈ xs, ∀ seen done, Triple (I seen done) (body x)
      (fun a => I (seen ++ [x]) (done ++ [a])) E) (seen : List β) (done : List α) :
    Triple (I seen done) (xs.mapM body) (fun results => I (seen ++ xs) (done ++ results)) E := by
  induction xs generalizing seen done with
  | nil => exact Triple.pure fun s hs => by rwa [List.reverse_nil, List.append_nil, List.append_nil]
  | cons x xs ih =>
    rw [List.mapM_cons]
    refine (h x List.mem_cons_self seen done).bind fun a => ?_
    refine (ih (fun y hy => h y (List.mem_cons_of_mem x hy)) (seen ++ [x]) (done ++ [a])).bind
      fun results => ?_
    refine Triple.pure fun s hs => ?_
    rwa [List.append_assoc, List.singleton_append, List.append_assoc, List.singleton_append] at hs

theorem mapM_done {I : List α → σ → Prop} {xs : List β} {body : β → LoadM σ α}
    (h : ∀ x ∈ xs, ∀ done, Triple (I done) (body x) (fun a => I (done ++ [a])) E) (done : List α) :
    Triple (I done) (xs.mapM body) (fun results => I (done ++ results)) E :=
  mapM_zip (I := fun _ => I) (fun x hx _ => h x hx) [] done

theorem mapM {xs : List β} {body : β → LoadM σ α}
    (h : ∀ x ∈ xs, Triple P (body x) (fun _ => P) E) :
    Triple P (xs.mapM body) (fun _ => P) E :=
  mapM_done (I := fun _ => P) (fun x hx _ => h x hx) []

/-- Every round of a loop counts one further. -/
theorem mapM_count {I : Nat → σ → Prop} {xs : List β} {body : β → LoadM σ α}
    (h : ∀ x ∈ xs, ∀ n, Triple (I n) (body x) (fun _ => I (n + 1)) E) (n : Nat) :
    Triple (I n) (xs.mapM body) (fun results => I (n + results.length)) E := by
  refine mapM_done (I := fun done => I (n + done.length)) (fun x hx done => ?_) []
  simpa only [List.length_append, List.length_singleton, Nat.add_assoc] using
    h x hx (n + done.length)

/-- A loop whose rounds keep a view of their elements keeps the view of the list. -/
theorem mapM_view {γ : Type} {view : β → γ} {view' : α → γ} {xs : List β} {body : β → LoadM σ α}
    (h : ∀ x ∈ xs, Triple P (body x) (fun a s => P s ∧ view' a = view x) E) :
    Triple P (xs.mapM body) (fun results s => P s ∧ results.map view' = xs.map view) E := by
  induction xs with
  | nil => exact Triple.pure fun _ hs => ⟨hs, rfl⟩
  | cons x xs ih =>
    rw [List.mapM_cons]
    refine (h x List.mem_cons_self).bind fun a => ?_
    rintro s ⟨hs, hview⟩
    refine ((ih fun y hy => h y (List.mem_cons_of_mem x hy)).bind fun results => ?_) s hs
    refine Triple.pure fun t ht => ⟨ht.1, ?_⟩
    rw [List.map_cons, List.map_cons, hview, ht.2]

end Triple

/-! ## Frames -/

/-- Whether the step succeeds or fails, it moves its state along `R` only. -/
def Within (R : σ → σ → Prop) (step : LoadM σ α) : Prop := ∀ s, R s (step s).2

/-- A part of the state is what it was. -/
def Same (part : σ → β) (before after : σ) : Prop := part after = part before

instance (part : σ → β) : IsPreorder σ (Same part) where
  refl _ := rfl
  trans _ _ _ hfirst hsecond := hsecond.trans hfirst

namespace Within

variable {R : σ → σ → Prop} {step : LoadM σ α}

theorem triple {P E : σ → Prop} (h : Within R step) (hP : ∀ s t, P s → R s t → P t)
    (hE : ∀ s, P s → E s) : Triple P step (fun _ => P) E := by
  intro s hs
  have := hP s _ hs (h s)
  rcases hstep : step s with ⟨e | a, t⟩ <;> rw [hstep] at this
  · exact hE t this
  · exact this

/-- From wherever earlier steps led, the next one leads on. -/
theorem since [IsPreorder σ R] (h : Within R step) (origin : σ) :
    Triple (R origin) step (fun _ => R origin) (R origin) :=
  h.triple (fun s t hs ht => IsTrans.trans origin s t hs ht) fun _ hs => hs

/-- What is known of a step and what its frame keeps hold together. -/
theorem keep {P : σ → Prop} {Q : α → σ → Prop} {E : σ → Prop} {F : σ → Prop} (h : Within R step)
    (hstep : Triple P step Q E) (hF : ∀ s t, R s t → F s → F t) :
    Triple (fun s => P s ∧ F s) step (fun a s => Q a s ∧ F s) E :=
  hstep.and (h.triple (fun s t hs ht => hF s t ht hs) fun _ _ => trivial)

/-- Whatever is known of the outcomes of a step from one state holds of its state afterwards. -/
theorem of_triple {s : σ} (h : Triple (· = s) step (fun _ => R s) (R s)) : R s (step s).2 := by
  have := h s rfl
  rcases hstep : step s with ⟨e | a, t⟩ <;> rw [hstep] at this <;> exact this

theorem of_unchanged [IsPreorder σ R] (h : ∀ s, (step s).2 = s) : Within R step := by
  intro s
  rw [h s]
  exact Std.Refl.refl s

protected theorem pure [IsPreorder σ R] {a : α} : Within R (pure a : LoadM σ α) :=
  of_unchanged fun _ => rfl

protected theorem throw [IsPreorder σ R] {e : LoadError} : Within R (throw e : LoadM σ α) :=
  of_unchanged fun _ => rfl

protected theorem get [IsPreorder σ R] : Within R (get : LoadM σ σ) :=
  of_unchanged fun _ => rfl

protected theorem ofExcept [IsPreorder σ R] {result : Except LoadError α} :
    Within R (MonadExcept.ofExcept result : LoadM σ α) :=
  of_unchanged fun s => by rw [ofExcept_apply]

theorem bind_at {next : α → LoadM σ β} {s : σ} (hstep : R s (step s).2)
    (hnext : ∀ a t, R s t → R s (next a t).2) : R s ((step >>= next) s).2 := by
  rw [bind_apply]
  rcases hrun : step s with ⟨e | a, t⟩ <;> rw [hrun] at hstep
  · exact hstep
  · exact hnext a t hstep

theorem mono {R' : σ → σ → Prop} (h : Within R step) (hR : ∀ s t, R s t → R' s t) :
    Within R' step :=
  fun s => hR s _ (h s)

protected theorem bind [IsPreorder σ R] {next : α → LoadM σ β} (hstep : Within R step)
    (hnext : ∀ a, Within R (next a)) : Within R (step >>= next) :=
  fun s => bind_at (hstep s) fun a t ht => IsTrans.trans s t _ ht (hnext a t)

/-- What follows a look at the state may use that it is that state. -/
theorem get_bind {next : σ → LoadM σ β} (h : ∀ s, R s (next s s).2) :
    Within R (get >>= next) := by
  intro s
  rw [bind_apply, get_apply]
  exact h s

/-- A guard in front of a step throws or lets the step pass. -/
theorem throw_if [IsPreorder σ R] {c : Prop} [Decidable c] {e : LoadError}
    {next : PUnit → LoadM σ α} (hnext : Within R (next ())) :
    Within R (if c then throw e >>= next else next ()) := by
  by_cases hc : c
  · rw [if_pos hc]
    exact of_unchanged fun _ => rfl
  · rw [if_neg hc]
    exact hnext

theorem forM [IsPreorder σ R] {xs : List β} {body : β → LoadM σ Unit}
    (h : ∀ x, Within R (body x)) : Within R (xs.forM body) := by
  induction xs with
  | nil => exact Within.pure
  | cons x xs ih => exact (h x).bind fun _ => ih

theorem mapM [IsPreorder σ R] {xs : List β} {body : β → LoadM σ α}
    (h : ∀ x ∈ xs, Within R (body x)) : Within R (xs.mapM body) := by
  induction xs with
  | nil => exact Within.pure
  | cons x xs ih =>
    rw [List.mapM_cons]
    refine (h x List.mem_cons_self).bind fun _ => ?_
    exact (ih fun y hy => h y (List.mem_cons_of_mem x hy)).bind fun _ => Within.pure

end Within

end LoadM

end TargetLink
