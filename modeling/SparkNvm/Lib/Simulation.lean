import SparkNvm.Lib.Run

/-!
# Forward simulation with outputs

A concrete system is a partial step function with an output, an abstract one a total step function
with an output.  If every step of the concrete system from a related state is defined, has the
output of the abstract one and leads to related states, then so does every run.

* `runOut` and `foldOut`: the runs of the two systems, with all outputs.
* `runOut_simulates`: from the step to the run.
-/

namespace SparkNvm.Lib

variable {σ τ α β : Type*}

/-- Run the labels one after the other, with the output of each. -/
def runOut (exec : σ → α → Option (β × σ)) : σ → List α → Option (List β × σ)
  | s, [] => some ([], s)
  | s, a :: as => (exec s a).bind fun r => (runOut exec r.2 as).map fun rs => (r.1 :: rs.1, rs.2)

/-- The same for a step function that is always defined. -/
def foldOut (spec : τ → α → β × τ) : τ → List α → List β × τ
  | t, [] => ([], t)
  | t, a :: as =>
    ((spec t a).1 :: (foldOut spec (spec t a).2 as).1, (foldOut spec (spec t a).2 as).2)

/-- The state after a step. -/
def stateAfter (exec : σ → α → Option (β × σ)) (s : σ) (a : α) : Option σ :=
  (exec s a).map Prod.snd

variable {exec : σ → α → Option (β × σ)} {spec : τ → α → β × τ} {ok : σ → α → Prop}

private theorem runOut_simulates_aux {R : List α → τ → σ → Prop} {as : List α}
    (hstep : ∀ done a rest t s, as = done ++ a :: rest → R done t s → ok s a →
      ∃ s', exec s a = some ((spec t a).1, s') ∧ R (done ++ [a]) (spec t a).2 s')
    {rest : List α} (done : List α) (t : τ) (s : σ) (hsplit : as = done ++ rest) (h : R done t s)
    (hok : Admissible (stateAfter exec) ok s rest) :
    ∃ s', runOut exec s rest = some ((foldOut spec t rest).1, s') ∧
      R as (foldOut spec t rest).2 s' := by
  induction rest generalizing done t s with
  | nil =>
    rw [List.append_nil] at hsplit
    exact ⟨s, rfl, by rw [hsplit]; exact h⟩
  | cons a rest ih =>
    obtain ⟨s₁, hs₁, hR₁⟩ := hstep done a rest t s hsplit h hok.1
    have hafter : stateAfter exec s a = some s₁ := by rw [stateAfter, hs₁, Option.map_some]
    obtain ⟨s₂, hs₂, hR₂⟩ := ih (done ++ [a]) _ s₁ (by simp [hsplit]) hR₁ (hok.2 s₁ hafter)
    refine ⟨s₂, ?_, hR₂⟩
    rw [runOut, hs₁, Option.bind_some, hs₂, Option.map_some]
    rfl

/-- Step lemma to run lemma.  The relation may speak of the labels that were executed so far. -/
theorem runOut_simulates {R : List α → τ → σ → Prop} {as : List α} {t : τ} {s : σ}
    (hstep : ∀ done a rest t s, as = done ++ a :: rest → R done t s → ok s a →
      ∃ s', exec s a = some ((spec t a).1, s') ∧ R (done ++ [a]) (spec t a).2 s')
    (h : R [] t s) (hok : Admissible (stateAfter exec) ok s as) :
    ∃ s', runOut exec s as = some ((foldOut spec t as).1, s') ∧ R as (foldOut spec t as).2 s' :=
  runOut_simulates_aux hstep [] t s rfl h hok

end SparkNvm.Lib
