import Mathlib.Data.List.Basic

/-!
# Programs as steps on a shared state

A `Machine` is a program taken apart at the points where others can see the
state: a step leads from a program point to the next one, or it returns.

* `exec` runs a machine alone, `states` are the states on the way.
* `forall_states` is the invariant rule for them, and by `getLast?_states` the last of them is
  the one that `exec` ends in.
* `Commits` says of states on the way that one step leads from `Old` to `New`.
-/

namespace SparkNvm.Lib

universe u

/-- What a step leads to. -/
inductive Next (P ρ : Type u) where
  | go (pc : P)
  | ret (r : ρ)

/-- From a program point and a state, the state after one step and where the program is
then; `none` where it would not go on. -/
def Machine (σ P ρ : Type u) := P → σ → Option (σ × Next P ρ)

namespace Machine

variable {σ P ρ : Type u}

/-- Run alone, with at most so many steps. -/
def exec (m : Machine σ P ρ) : Nat → P → σ → Option (ρ × σ)
  | 0, _, _ => none
  | fuel + 1, pc, s =>
    match m pc s with
    | none => none
    | some (s', .go pc') => exec m fuel pc' s'
    | some (s', .ret r) => some (r, s')

/-- Go on from where a step led to. -/
def resume (m : Machine σ P ρ) (n : Nat) (s : σ) : Next P ρ → Option (ρ × σ)
  | .go pc => m.exec n pc s
  | .ret r => some (r, s)

/-- The state at the start, and the state after each step. -/
def states (m : Machine σ P ρ) : Nat → P → σ → List σ
  | 0, _, s => [s]
  | fuel + 1, pc, s =>
    match m pc s with
    | none => [s]
    | some (s', .go pc') => s :: states m fuel pc' s'
    | some (s', .ret _) => [s, s']

variable {m : Machine σ P ρ} {pc pc' : P} {s s' : σ} {r : ρ}

theorem exec_go (n : Nat) (h : m pc s = some (s', .go pc')) :
    m.exec (n + 1) pc s = m.exec n pc' s' := by
  rw [exec, h]

theorem exec_ret (n : Nat) (h : m pc s = some (s', .ret r)) :
    m.exec (n + 1) pc s = some (r, s') := by
  rw [exec, h]

theorem exec_step (n : Nat) {next : Next P ρ} (h : m pc s = some (s', next)) :
    m.exec (n + 1) pc s = m.resume n s' next := by
  cases next with
  | go pc' => exact exec_go n h
  | ret r => exact exec_ret n h

theorem exec_none (n : Nat) (h : m pc s = none) : m.exec (n + 1) pc s = none := by
  rw [exec, h]

theorem states_go (n : Nat) (h : m pc s = some (s', .go pc')) :
    m.states (n + 1) pc s = s :: m.states n pc' s' := by
  rw [states, h]

theorem states_ret (n : Nat) (h : m pc s = some (s', .ret r)) :
    m.states (n + 1) pc s = [s, s'] := by
  rw [states, h]

theorem states_ne_nil (n : Nat) (pc : P) (s : σ) : m.states n pc s ≠ [] := by
  cases n with
  | zero => exact List.cons_ne_nil _ _
  | succ n =>
    rw [states]
    split <;> exact List.cons_ne_nil _ _

/-- The invariant rule: `I` holds at every program point, and gives `Q` of every state. -/
theorem forall_states {I : P → σ → Prop} {Q : σ → Prop} (hI : ∀ pc s, I pc s → Q s)
    (hgo : ∀ pc s s' pc', I pc s → m pc s = some (s', .go pc') → I pc' s')
    (hret : ∀ pc s s' r, I pc s → m pc s = some (s', .ret r) → Q s') {n : Nat} (h : I pc s) :
    ∀ s' ∈ m.states n pc s, Q s' := by
  induction n generalizing pc s with
  | zero =>
    intro s' hs'
    rw [List.mem_singleton.mp hs']
    exact hI pc s h
  | succ n ih =>
    intro s' hs'
    rw [states] at hs'
    split at hs'
    · rw [List.mem_singleton.mp hs']
      exact hI pc s h
    · rename_i s₁ pc₁ hstep
      cases List.mem_cons.mp hs' with
      | inl heq =>
        rw [heq]
        exact hI pc s h
      | inr hmem => exact ih (hgo pc s s₁ pc₁ h hstep) s' hmem
    · rename_i s₁ r₁ hstep
      cases List.mem_cons.mp hs' with
      | inl heq =>
        rw [heq]
        exact hI pc s h
      | inr hmem =>
        rw [List.mem_singleton.mp hmem]
        exact hret pc s s₁ r₁ h hstep

/-- The last state on the way is the one at the end. -/
theorem getLast?_states {n : Nat} (h : m.exec n pc s = some (r, s')) :
    (m.states n pc s).getLast? = some s' := by
  induction n generalizing pc s with
  | zero => simp [exec] at h
  | succ n ih =>
    cases hstep : m pc s with
    | none =>
      rw [exec_none n hstep] at h
      simp at h
    | some p =>
      obtain ⟨s₁, next⟩ := p
      cases next with
      | go pc₁ =>
        rw [exec_go n hstep] at h
        rw [states_go n hstep, List.getLast?_cons, ih h, Option.getD_some]
      | ret r₁ =>
        rw [exec_ret n hstep, Option.some.injEq, Prod.mk.injEq] at h
        rw [states_ret n hstep, ← h.2]
        rfl

end Machine

/-! ## The step that commits -/

section

variable {σ : Type u} {Old New Old' New' : σ → Prop} {s : σ} {states : List σ}

/-- The states up to some step satisfy `Old`, those after it satisfy `New`. -/
def Commits (Old New : σ → Prop) (states : List σ) : Prop :=
  ∃ before after, states = before ++ after ∧ before ≠ [] ∧ after ≠ [] ∧
    (∀ s ∈ before, Old s) ∧ ∀ s ∈ after, New s

/-- A step that does not commit. -/
theorem Commits.cons (h : Commits Old New states) (hs : Old s) : Commits Old New (s :: states) := by
  obtain ⟨before, after, rfl, _, hne, hold, hnew⟩ := h
  refine ⟨s :: before, after, rfl, List.cons_ne_nil _ _, hne, ?_, hnew⟩
  intro s' hs'
  cases List.mem_cons.mp hs' with
  | inl heq =>
    rw [heq]
    exact hs
  | inr hmem => exact hold s' hmem

/-- The step that does. -/
theorem Commits.here (hs : Old s) (hne : states ≠ []) (hall : ∀ s ∈ states, New s) :
    Commits Old New (s :: states) :=
  ⟨[s], states, rfl, List.cons_ne_nil _ _, hne, fun s' hs' => by
    rw [List.mem_singleton.mp hs']
    exact hs, hall⟩

theorem Commits.mono (h : Commits Old New states) (hold : ∀ s, Old s → Old' s)
    (hnew : ∀ s, New s → New' s) : Commits Old' New' states := by
  obtain ⟨before, after, heq, hb, ha, hbefore, hafter⟩ := h
  exact ⟨before, after, heq, hb, ha, fun s hs => hold s (hbefore s hs),
    fun s hs => hnew s (hafter s hs)⟩

end

end SparkNvm.Lib
