import SparkNvm.Lib.Run

/-!
# Steps that raise or log

A step function `σ → α → Except ε (σ × List β)` either raises an exception or moves
to a new state and outputs a list.  `runLog` runs it over a list of labels and
concatenates the outputs.

* `runLog_ok_iff` and `runLog_follows`: when an abstract state follows the concrete
  one, a run raises nothing exactly if every label is allowed in the abstract state.
* `runLog_cons_ok` and `runLog_append_ok` take a run apart, `runLog_append` joins two
  runs.
* `runLog_map` runs images of states and labels, and `runLog_invariant` is what every step keeps.
-/

namespace SparkNvm.Lib

variable {σ τ α β ε : Type*}

/-- Run the labels one after the other; the outputs are concatenated. -/
def runLog (step : σ → α → Except ε (σ × List β)) : σ → List α → Except ε (σ × List β)
  | s, [] => .ok (s, [])
  | s, a :: as =>
    match step s a with
    | .error e => .error e
    | .ok (s', out) =>
      match runLog step s' as with
      | .error e => .error e
      | .ok (s'', outs) => .ok (s'', out ++ outs)

theorem map_eq_ok {γ δ : Type*} {x : Except ε γ} {f : γ → δ} {r : δ} :
    x.map f = .ok r ↔ ∃ r', x = .ok r' ∧ f r' = r := by
  cases x with
  | error e => simp [Except.map]
  | ok r' => simp [Except.map]

theorem exists_map_ok {γ δ : Type*} {x : Except ε γ} {f : γ → δ} :
    (∃ r, x.map f = .ok r) ↔ ∃ r, x = .ok r := by
  simp [map_eq_ok]

theorem ok_of_toOption {γ : Type*} {x : Except ε γ} {r : γ} (h : x.toOption = some r) :
    x = .ok r := by
  cases x with
  | error e => simp [Except.toOption] at h
  | ok r' => rw [Option.some.inj h]

/-- What an evaluation says about a result that is known to exist. -/
theorem map_of_toOption {γ δ : Type*} {x : Except ε γ} {r : γ} {f : γ → δ} {y : δ} (h : x = .ok r)
    (hf : x.toOption.map f = some y) : f r = y := by
  rw [h] at hf
  exact Option.some.inj hf

variable {step : σ → α → Except ε (σ × List β)} {s s' s'' : σ} {a : α} {as bs : List α}
variable {out outs : List β}

theorem runLog_cons (h : step s a = .ok (s', out)) (hrest : runLog step s' as = .ok (s'', outs)) :
    runLog step s (a :: as) = .ok (s'', out ++ outs) := by
  rw [runLog, h]
  simp only [hrest]

theorem runLog_cons_error {e : ε} (h : step s a = .error e) :
    runLog step s (a :: as) = .error e := by
  rw [runLog, h]

theorem runLog_singleton (h : step s a = .ok (s', out)) : runLog step s [a] = .ok (s', out) := by
  rw [runLog_cons h rfl, List.append_nil]

/-- A run that raises nothing, taken apart at its first label. -/
theorem runLog_cons_ok (h : runLog step s (a :: as) = .ok (s'', outs)) :
    ∃ s' out outs', step s a = .ok (s', out) ∧ runLog step s' as = .ok (s'', outs') ∧
      outs = out ++ outs' := by
  rw [runLog] at h
  cases hstep : step s a with
  | error e =>
    rw [hstep] at h
    simp at h
  | ok r =>
    rw [hstep] at h
    cases hrest : runLog step r.1 as with
    | error e =>
      simp only [hrest] at h
      simp at h
    | ok r' =>
      simp only [hrest, Except.ok.injEq, Prod.mk.injEq] at h
      refine ⟨r.1, r.2, r'.2, rfl, ?_, h.2.symm⟩
      rw [hrest, ← h.1]

theorem runLog_append (h : runLog step s as = .ok (s', out))
    (hrest : runLog step s' bs = .ok (s'', outs)) :
    runLog step s (as ++ bs) = .ok (s'', out ++ outs) := by
  induction as generalizing s out with
  | nil =>
    rw [runLog, Except.ok.injEq, Prod.mk.injEq] at h
    rw [List.nil_append, h.1, ← h.2, hrest]
    rfl
  | cons a as ih =>
    obtain ⟨s₁, o₁, o₂, hstep, has, rfl⟩ := runLog_cons_ok h
    rw [List.cons_append, runLog_cons hstep (ih has), List.append_assoc]

/-- A run that raises nothing, taken apart at any point. -/
theorem runLog_append_ok (h : runLog step s (as ++ bs) = .ok (s'', outs)) :
    ∃ s' out outs', runLog step s as = .ok (s', out) ∧ runLog step s' bs = .ok (s'', outs') ∧
      outs = out ++ outs' := by
  induction as generalizing s outs with
  | nil => exact ⟨s, [], outs, rfl, h, rfl⟩
  | cons a as ih =>
    obtain ⟨s₁, o₁, o₂, hstep, hrest, rfl⟩ := runLog_cons_ok h
    obtain ⟨s', o₃, o₄, has, hbs, rfl⟩ := ih hrest
    exact ⟨s', o₁ ++ o₃, o₄, runLog_cons hstep has, hbs, (List.append_assoc ..).symm⟩

/-- A first step that does the same from another state, with more output in front. -/
theorem runLog_cons_of_map {s₁ : σ} (h : step s a = (step s₁ a).map fun r => (r.1, out ++ r.2)) :
    runLog step s (a :: as) = (runLog step s₁ (a :: as)).map fun r => (r.1, out ++ r.2) := by
  rw [runLog, runLog, h]
  cases step s₁ a with
  | error e => rfl
  | ok r =>
    simp only [Except.map]
    cases runLog step r.1 as with
    | error e => rfl
    | ok r' => simp only [List.append_assoc]

/-- A step function that does the same on images of the states and the labels. -/
theorem runLog_map {τ γ : Type*} {step' : τ → γ → Except ε (τ × List β)} {f : σ → τ} {g : α → γ}
    (h : ∀ s a, step' (f s) (g a) = (step s a).map fun r => (f r.1, r.2)) (s : σ) (as : List α) :
    runLog step' (f s) (as.map g) = (runLog step s as).map fun r => (f r.1, r.2) := by
  induction as generalizing s with
  | nil => rfl
  | cons a as ih =>
    rw [List.map_cons, runLog, runLog, h]
    cases hstep : step s a with
    | error e => rfl
    | ok r =>
      have hrest := ih r.1
      cases hrun : runLog step r.1 as with
      | error e =>
        rw [hrun] at hrest
        simp only [Except.map, hrest, hrun]
      | ok r' =>
        rw [hrun] at hrest
        simp only [Except.map, hrest, hrun]

/-- What every step keeps, with the labels so far and the outputs so far, holds after a run. -/
theorem runLog_invariant {I : List α → σ → List β → Prop}
    (hkeep : ∀ done s outs a s' out, I done s outs → step s a = .ok (s', out) →
      I (done ++ [a]) s' (outs ++ out))
    {done : List α} (h : I done s out) (hrun : runLog step s as = .ok (s', outs)) :
    I (done ++ as) s' (out ++ outs) := by
  induction as generalizing s done out outs with
  | nil =>
    rw [runLog, Except.ok.injEq, Prod.mk.injEq] at hrun
    rw [← hrun.1, ← hrun.2, List.append_nil, List.append_nil]
    exact h
  | cons a as ih =>
    obtain ⟨s₁, o₁, o₂, hstep, hrest, rfl⟩ := runLog_cons_ok hrun
    have hnext := ih (hkeep done s out a s₁ o₁ h hstep) hrest
    rw [List.append_assoc, List.append_assoc] at hnext
    exact hnext

/-! ## An abstract state that follows -/

section

variable {R : σ → τ → Prop} {next : τ → α → τ} {ok : τ → α → Prop} {g : τ}

/-- A run whose labels are all allowed raises nothing, and the abstract state follows. -/
theorem runLog_follows
    (hgood : ∀ s g a, R s g → ok g a → ∃ s' out, step s a = .ok (s', out) ∧ R s' (next g a))
    (h : R s g) (hok : Admissible (fun g a => some (next g a)) ok g as) :
    ∃ s' outs, runLog step s as = .ok (s', outs) ∧ R s' (as.foldl next g) := by
  induction as generalizing s g with
  | nil => exact ⟨s, [], rfl, h⟩
  | cons a as ih =>
    obtain ⟨s₁, o₁, hstep, h₁⟩ := hgood s g a h hok.1
    obtain ⟨s', o₂, hrest, h'⟩ := ih h₁ (hok.2 _ rfl)
    exact ⟨s', o₁ ++ o₂, runLog_cons hstep hrest, h'⟩

/-- A run raises nothing exactly if its labels are all allowed. -/
theorem runLog_ok_iff
    (hgood : ∀ s g a, R s g → ok g a → ∃ s' out, step s a = .ok (s', out) ∧ R s' (next g a))
    (hbad : ∀ s g a, R s g → ¬ok g a → ∃ e, step s a = .error e) (h : R s g) :
    (∃ r, runLog step s as = .ok r) ↔ Admissible (fun g a => some (next g a)) ok g as := by
  constructor
  · rintro ⟨⟨s', outs⟩, hrun⟩
    induction as generalizing s g outs with
    | nil => trivial
    | cons a as ih =>
      obtain ⟨s₁, o₁, o₂, hstep, hrest, _⟩ := runLog_cons_ok hrun
      have hok : ok g a := by
        by_contra hok
        obtain ⟨e, herror⟩ := hbad s g a h hok
        rw [herror] at hstep
        simp at hstep
      obtain ⟨s₁', o₁', hstep', h₁⟩ := hgood s g a h hok
      rw [hstep, Except.ok.injEq, Prod.mk.injEq] at hstep'
      rw [← hstep'.1] at h₁
      refine ⟨hok, fun g' hg' => ?_⟩
      rw [← Option.some.inj hg']
      exact ih h₁ o₂ hrest
  · intro hok
    obtain ⟨s', outs, hrun, _⟩ := runLog_follows hgood h hok
    exact ⟨_, hrun⟩

end

end SparkNvm.Lib
