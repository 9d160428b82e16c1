import Mathlib.Data.List.Basic

/-!
# Runs of a partial step function

A system is a step function `σ → α → Option σ` on states `σ` and labels
`α`.  `run` folds it over a list of labels; `none` is a crash.  Labels may
carry answers of the environment, and `Admissible` says that along a run
every answer was one the environment may give in the state it was given in.

`run_invariant` is the one induction over runs that the development uses:
a predicate of the labels done so far and of the state holds at the end of
every admissible run, and the run does not crash.  `run_isSome_iff` says when a
run crashes, and `always_iff` when a property holds all along a run.
-/

namespace SparkNvm.Lib

variable {σ α : Type*}

/-- Run the labels one after the other. -/
def run (step : σ → α → Option σ) : σ → List α → Option σ
  | s, [] => some s
  | s, a :: as => (step s a).bind fun s' => run step s' as

/-- Every label of the run is allowed in the state it is executed in. -/
def Admissible (step : σ → α → Option σ) (ok : σ → α → Prop) :
    σ → List α → Prop
  | _, [] => True
  | s, a :: as =>
    ok s a ∧ ∀ s', step s a = some s' → Admissible step ok s' as

variable {step : σ → α → Option σ} {ok : σ → α → Prop}

@[simp] theorem run_nil (s : σ) : run step s [] = some s := rfl

@[simp] theorem run_cons (s : σ) (a : α) (as : List α) :
    run step s (a :: as) = (step s a).bind fun s' => run step s' as := rfl

theorem run_append (s : σ) (as bs : List α) :
    run step s (as ++ bs) = (run step s as).bind fun s' => run step s' bs := by
  induction as generalizing s with
  | nil => simp
  | cons a as ih =>
    rw [List.cons_append, run_cons, run_cons, Option.bind_assoc]
    congr 1
    funext s'
    exact ih s'

/-- A run is admissible if it is so up to any point and from it on. -/
theorem admissible_append {s : σ} {as bs : List α} :
    Admissible step ok s (as ++ bs) ↔ Admissible step ok s as ∧
      ∀ s', run step s as = some s' → Admissible step ok s' bs := by
  induction as generalizing s with
  | nil =>
    simp only [List.nil_append, run_nil, Option.some.injEq, forall_eq']
    exact ⟨fun h => ⟨trivial, h⟩, fun h => h.2⟩
  | cons a as ih =>
    simp only [List.cons_append, Admissible, run_cons, ih]
    constructor
    · rintro ⟨ha, hrest⟩
      refine ⟨⟨ha, fun s₁ hs₁ => (hrest s₁ hs₁).1⟩, fun s' hs' => ?_⟩
      obtain ⟨s₁, hs₁, hrun⟩ := Option.bind_eq_some_iff.mp hs'
      exact (hrest s₁ hs₁).2 s' hrun
    · rintro ⟨⟨ha, hrest⟩, hend⟩
      refine ⟨ha, fun s₁ hs₁ => ⟨hrest s₁ hs₁, fun s' hrun => hend s' ?_⟩⟩
      rw [hs₁]
      exact hrun

theorem admissible_singleton {s : σ} {a : α} : Admissible step ok s [a] ↔ ok s a :=
  ⟨fun h => h.1, fun h => ⟨h, fun _ _ => trivial⟩⟩

/-- A condition on the labels alone. -/
theorem admissible_of_forall {legal : α → Prop} {s : σ} {as : List α} (h : ∀ a ∈ as, legal a) :
    Admissible step (fun _ a => legal a) s as := by
  induction as generalizing s with
  | nil => trivial
  | cons a as ih => exact ⟨h a (by simp), fun s' _ => ih fun a ha => h a (by simp [ha])⟩

/-- Admissibility of a concrete run is decided by executing it. -/
instance decidableAdmissible [∀ s a, Decidable (ok s a)] :
    (s : σ) → (as : List α) → Decidable (Admissible step ok s as)
  | _, [] => isTrue trivial
  | s, a :: as =>
    match hs : step s a with
    | none => decidable_of_iff (ok s a)
        ⟨fun h => ⟨h, fun s' hs' => by simp [hs] at hs'⟩, fun h => h.1⟩
    | some s' =>
      have : Decidable (Admissible step ok s' as) := decidableAdmissible s' as
      decidable_of_iff (ok s a ∧ Admissible step ok s' as)
        ⟨fun h => ⟨h.1, fun s'' hs'' => by rw [hs] at hs''; cases hs''; exact h.2⟩,
          fun h => ⟨h.1, h.2 s' hs⟩⟩

private theorem run_invariant_aux {I : List α → σ → Prop} {as : List α}
    (hstep : ∀ done a rest s, as = done ++ a :: rest → I done s → ok s a →
      ∃ s', step s a = some s' ∧ I (done ++ [a]) s')
    {rest : List α} (done : List α) (s : σ) (hsplit : as = done ++ rest) (h : I done s)
    (hok : Admissible step ok s rest) :
    ∃ s', run step s rest = some s' ∧ I as s' := by
  induction rest generalizing done s with
  | nil => exact ⟨s, rfl, by rw [hsplit, List.append_nil]; exact h⟩
  | cons a rest ih =>
    obtain ⟨s₁, hs₁, hI₁⟩ := hstep done a rest s hsplit h hok.1
    obtain ⟨s₂, hs₂, hI₂⟩ := ih (done ++ [a]) s₁ (by simp [hsplit]) hI₁ (hok.2 s₁ hs₁)
    refine ⟨s₂, ?_, hI₂⟩
    rw [run_cons, hs₁]
    exact hs₂

/-- Step lemma to run lemma.  `I done s` may speak of the labels executed
so far, so it can relate the state to an abstract history; the step lemma may
use that these labels are a prefix of the whole run. -/
theorem run_invariant {I : List α → σ → Prop} {s : σ} {as : List α}
    (hstep : ∀ done a rest s, as = done ++ a :: rest → I done s → ok s a →
      ∃ s', step s a = some s' ∧ I (done ++ [a]) s')
    (h : I [] s) (hok : Admissible step ok s as) :
    ∃ s', run step s as = some s' ∧ I as s' :=
  run_invariant_aux hstep [] s rfl h hok

/-- The step lemma may assume that the step is defined; then so must the run. -/
theorem run_invariant_of_some {I : σ → Prop}
    (hstep : ∀ s a s', I s → ok s a → step s a = some s' → I s') {s s' : σ} {as : List α} (h : I s)
    (hok : Admissible step ok s as) (hrun : run step s as = some s') : I s' := by
  induction as generalizing s with
  | nil =>
    rw [← Option.some.inj hrun]
    exact h
  | cons a as ih =>
    obtain ⟨s₁, hs₁, hrest⟩ := Option.bind_eq_some_iff.mp hrun
    exact ih (hstep s a s₁ h hok.1 hs₁) (hok.2 s₁ hs₁) hrest

theorem Admissible.and {ok' : σ → α → Prop} {s : σ} {as : List α} (h : Admissible step ok s as)
    (h' : Admissible step ok' s as) : Admissible step (fun s a => ok s a ∧ ok' s a) s as := by
  induction as generalizing s with
  | nil => trivial
  | cons a as ih => exact ⟨⟨h.1, h'.1⟩, fun s₁ hs₁ => ih (h.2 s₁ hs₁) (h'.2 s₁ hs₁)⟩

/-- When an allowed label is defined and keeps `I`, and a label that is not allowed
is undefined, the defined runs are the admissible ones. -/
theorem run_isSome_iff {I : σ → Prop} {legal : α → Prop}
    (hgood : ∀ s a, I s → ok s a → ∃ s', step s a = some s' ∧ I s')
    (hbad : ∀ s a, I s → legal a → ¬ok s a → step s a = none) {s : σ} (h : I s) {as : List α}
    (hlegal : ∀ a ∈ as, legal a) : (run step s as).isSome ↔ Admissible step ok s as := by
  induction as generalizing s with
  | nil => exact iff_of_true rfl trivial
  | cons a as ih =>
    have hrest : ∀ a ∈ as, legal a := fun a ha => hlegal a (List.mem_cons_of_mem _ ha)
    by_cases hok : ok s a
    · obtain ⟨s', hstep, hI⟩ := hgood s a h hok
      rw [run_cons, hstep, Option.bind_some, ih hI hrest]
      constructor
      · intro hadm
        refine ⟨hok, fun s'' hstep' => ?_⟩
        rw [← Option.some.inj (hstep.symm.trans hstep')]
        exact hadm
      · exact fun hadm => hadm.2 s' hstep
    · rw [run_cons, hbad s a h (hlegal a (by simp)) hok]
      exact iff_of_false (by simp) fun hadm => hok hadm.1

/-- The run does not crash, and `P` holds in every state on the way. -/
def Always (step : σ → α → Option σ) (P : σ → Prop) : σ → List α → Prop
  | s, [] => P s
  | s, a :: as => P s ∧ ∃ s', step s a = some s' ∧ Always step P s' as

theorem Always.head {P : σ → Prop} {s : σ} {as : List α} (h : Always step P s as) : P s := by
  cases as with
  | nil => exact h
  | cons a as => exact h.1

theorem Always.last {P : σ → Prop} {s s' : σ} {as : List α} (h : Always step P s as)
    (hrun : run step s as = some s') : P s' := by
  induction as generalizing s with
  | nil =>
    rw [← Option.some.inj hrun]
    exact h
  | cons a as ih =>
    obtain ⟨_, s₁, hs₁, hrest⟩ := h
    rw [run_cons, hs₁, Option.bind_some] at hrun
    exact ih hrest hrun

/-- When an allowed label keeps `I`, and one that is not allowed leads to a state
without `P` or to none, `P` holds all along exactly the admissible runs.  `I` may
speak of the labels that are still to come. -/
theorem always_iff {I : List α → σ → Prop} {P : σ → Prop} {legal : σ → α → Prop}
    (hI : ∀ as s, I as s → P s)
    (hgood : ∀ a as s, I (a :: as) s → legal s a → ok s a → ∃ s', step s a = some s' ∧ I as s')
    (hbad : ∀ a as s s', I (a :: as) s → legal s a → ¬ok s a → step s a = some s' → ¬P s') {s : σ}
    {as : List α} (h : I as s) (hlegal : Admissible step legal s as) :
    Always step P s as ↔ Admissible step ok s as := by
  induction as generalizing s with
  | nil => exact iff_of_true (hI [] s h) trivial
  | cons a as ih =>
    constructor
    · rintro ⟨_, s', hstep, halways⟩
      have hok : ok s a := by
        by_contra hok
        exact hbad a as s s' h hlegal.1 hok hstep halways.head
      refine ⟨hok, fun s'' hstep' => ?_⟩
      obtain ⟨s₁, hs₁, hI₁⟩ := hgood a as s h hlegal.1 hok
      rw [← Option.some.inj (hstep.symm.trans hstep')]
      rw [← Option.some.inj (hstep.symm.trans hs₁)] at hI₁
      exact (ih hI₁ (hlegal.2 s' hstep)).mp halways
    · rintro ⟨hok, hrest⟩
      obtain ⟨s₁, hs₁, hI₁⟩ := hgood a as s h hlegal.1 hok
      exact ⟨hI _ s h, s₁, hs₁, (ih hI₁ (hlegal.2 s₁ hs₁)).mpr (hrest s₁ hs₁)⟩

end SparkNvm.Lib
