import SparkNvm.Lib.Logged
import Mathlib.Logic.Function.Basic

/-!
# An array of machines

A list of states, and labels that name the state they are for.  A label beyond the
list raises an exception of its own.

* `opsAt` are the labels of one machine, and `flatMap_eq_of_index` the outputs of one.
* `runLog_stepAt_ok_iff`: a run raises nothing exactly if every label names a machine
  and every machine could run its own labels.
* `runLog_stepAt_invariant`: what holds of every machine alone, of its own labels and of
  its own outputs, holds of every machine in the array.
-/

namespace SparkNvm.Lib

variable {σ τ α β ε : Type*}

/-- One label: the machine that it names takes a step. -/
def stepAt (out : ε) (step : σ → α → Except ε (σ × List β)) (states : List σ) (c : Nat × α) :
    Except ε (List σ × List β) :=
  match states[c.1]? with
  | none => .error out
  | some s => (step s c.2).map fun r => (states.set c.1 r.1, r.2)

/-- The labels of machine `i`. -/
def opsAt (i : Nat) (cs : List (Nat × α)) : List α :=
  cs.filterMap fun c => if c.1 = i then some c.2 else none

theorem opsAt_append (i : Nat) (cs ds : List (Nat × α)) :
    opsAt i (cs ++ ds) = opsAt i cs ++ opsAt i ds := List.filterMap_append

theorem opsAt_cons_self (i : Nat) (a : α) (cs : List (Nat × α)) :
    opsAt i ((i, a) :: cs) = a :: opsAt i cs := by
  unfold opsAt
  exact List.filterMap_cons_some (if_pos rfl)

theorem opsAt_cons_ne {i j : Nat} (h : j ≠ i) (a : α) (cs : List (Nat × α)) :
    opsAt i ((j, a) :: cs) = opsAt i cs := by
  unfold opsAt
  exact List.filterMap_cons_none (if_neg h)

theorem opsAt_map_self {γ : Type*} (i : Nat) (f : γ → α) (xs : List γ) :
    opsAt i (xs.map fun x => (i, f x)) = xs.map f := by
  induction xs with
  | nil => rfl
  | cons x xs ih => rw [List.map_cons, opsAt_cons_self, ih, List.map_cons]

theorem opsAt_map_ne {γ : Type*} {i j : Nat} (h : j ≠ i) (f : γ → α) (xs : List γ) :
    opsAt i (xs.map fun x => (j, f x)) = [] := by
  induction xs with
  | nil => rfl
  | cons x xs ih => rw [List.map_cons, opsAt_cons_ne h, ih]

/-- Only one entry of the list contributes. -/
theorem flatMap_eq_of_index {f : α → List β} {l : List α} {p : Nat} {a : α}
    (ha : l[p]? = some a) (h : ∀ q b, l[q]? = some b → q ≠ p → f b = []) : l.flatMap f = f a := by
  induction l generalizing p with
  | nil => simp at ha
  | cons b l ih =>
    rw [List.flatMap_cons]
    cases p with
    | zero =>
      have hrest : l.flatMap f = [] := by
        rw [List.flatMap_eq_nil_iff]
        intro c hc
        obtain ⟨q, hq⟩ := List.mem_iff_getElem?.mp hc
        exact h (q + 1) c hq (Nat.succ_ne_zero q)
      rw [hrest, List.append_nil, Option.some.inj ha]
    | succ p =>
      rw [h 0 b rfl (Nat.succ_ne_zero p).symm, List.nil_append]
      exact ih ha fun q c hc hq => h (q + 1) c hc (by omega)

variable {out : ε} {step : σ → α → Except ε (σ × List β)} {states states' : List σ}
variable {cs : List (Nat × α)} {c : Nat × α} {outs : List β}

theorem stepAt_ok (h : stepAt out step states c = .ok (states', outs)) :
    ∃ s s', states[c.1]? = some s ∧ step s c.2 = .ok (s', outs) ∧
      states' = states.set c.1 s' := by
  rw [stepAt] at h
  cases hs : states[c.1]? with
  | none =>
    rw [hs] at h
    simp at h
  | some s =>
    rw [hs] at h
    obtain ⟨r, hstep, hpair⟩ := map_eq_ok.mp h
    rw [Prod.mk.injEq] at hpair
    exact ⟨s, r.1, rfl, by rw [← hpair.2]; exact hstep, hpair.1.symm⟩

theorem stepAt_of_some {s s' : σ} (hs : states[c.1]? = some s)
    (hstep : step s c.2 = .ok (s', outs)) :
    stepAt out step states c = .ok (states.set c.1 s', outs) := by
  rw [stepAt, hs]
  simp only [hstep]
  rfl

/-! ## When a run raises nothing -/

section

variable {R : σ → τ → Prop} {next : τ → α → τ} {ok : τ → α → Prop} {g : Nat → τ} {n : Nat}

/-- The abstract states after one label. -/
def nextAt (next : τ → α → τ) (g : Nat → τ) (c : Nat × α) : Nat → τ :=
  Function.update g c.1 (next (g c.1) c.2)

/-- Labels are allowed in the array exactly if they are so machine by machine. -/
theorem admissible_nextAt :
    Admissible (fun g c => some (nextAt next g c)) (fun g c => c.1 < n ∧ ok (g c.1) c.2) g cs ↔
      (∀ c ∈ cs, c.1 < n) ∧
        ∀ i < n, Admissible (fun a x => some (next a x)) ok (g i) (opsAt i cs) := by
  induction cs generalizing g with
  | nil => exact iff_of_true trivial ⟨by simp, fun i _ => trivial⟩
  | cons c cs ih =>
    have hunfold : Admissible (fun g c => some (nextAt next g c))
        (fun g c => c.1 < n ∧ ok (g c.1) c.2) g (c :: cs) ↔
        (c.1 < n ∧ ok (g c.1) c.2) ∧ Admissible (fun g c => some (nextAt next g c))
          (fun g c => c.1 < n ∧ ok (g c.1) c.2) (nextAt next g c) cs :=
      and_congr_right fun _ => ⟨fun h => h _ rfl, fun h g' hg' => Option.some.inj hg' ▸ h⟩
    rw [hunfold, ih, List.forall_mem_cons]
    constructor
    · rintro ⟨⟨hc, hok⟩, hbelow, hrest⟩
      refine ⟨⟨hc, hbelow⟩, fun i hi => ?_⟩
      by_cases hci : c.1 = i
      · subst hci
        have hi' := hrest c.1 hi
        rw [nextAt, Function.update_self] at hi'
        rw [opsAt_cons_self]
        exact ⟨hok, fun a ha => Option.some.inj ha ▸ hi'⟩
      · have hi' := hrest i hi
        rw [nextAt, Function.update_of_ne (Ne.symm hci)] at hi'
        rw [opsAt_cons_ne hci]
        exact hi'
    · rintro ⟨⟨hc, hbelow⟩, hall⟩
      have hself := hall c.1 hc
      rw [opsAt_cons_self] at hself
      refine ⟨⟨hc, hself.1⟩, hbelow, fun i hi => ?_⟩
      by_cases hci : c.1 = i
      · subst hci
        rw [nextAt, Function.update_self]
        exact hself.2 _ rfl
      · have hi' := hall i hi
        rw [opsAt_cons_ne hci] at hi'
        rw [nextAt, Function.update_of_ne (Ne.symm hci)]
        exact hi'

/-- Every machine is followed by its own abstract state. -/
def FollowedBy (R : σ → τ → Prop) (n : Nat) (states : List σ) (g : Nat → τ) : Prop :=
  states.length = n ∧ ∀ i s, states[i]? = some s → R s (g i)

/-- A run raises nothing exactly if every label names a machine and every machine
could run its own labels. -/
theorem runLog_stepAt_ok_iff
    (hgood : ∀ s g a, R s g → ok g a → ∃ s' o, step s a = .ok (s', o) ∧ R s' (next g a))
    (hbad : ∀ s g a, R s g → ¬ok g a → ∃ e, step s a = .error e)
    (h : FollowedBy R n states g) :
    (∃ r, runLog (stepAt out step) states cs = .ok r) ↔
      (∀ c ∈ cs, c.1 < n) ∧
        ∀ i < n, Admissible (fun a x => some (next a x)) ok (g i) (opsAt i cs) := by
  rw [← admissible_nextAt]
  refine runLog_ok_iff (R := FollowedBy R n) ?_ ?_ h
  · rintro states g c ⟨hlen, hall⟩ ⟨hc, hok⟩
    obtain ⟨s, hs⟩ : ∃ s, states[c.1]? = some s :=
      ⟨_, List.getElem?_eq_getElem (by rw [hlen]; exact hc)⟩
    obtain ⟨s', o, hstep, hR⟩ := hgood s (g c.1) c.2 (hall c.1 s hs) hok
    refine ⟨_, o, stepAt_of_some hs hstep, by rw [List.length_set]; exact hlen, ?_⟩
    intro i s₁ hs₁
    rw [List.getElem?_set] at hs₁
    by_cases hci : c.1 = i
    · subst hci
      rw [if_pos rfl, if_pos (by rw [hlen]; exact hc)] at hs₁
      rw [nextAt, Function.update_self, ← Option.some.inj hs₁]
      exact hR
    · rw [if_neg hci] at hs₁
      rw [nextAt, Function.update_of_ne (Ne.symm hci)]
      exact hall i s₁ hs₁
  · rintro states g c ⟨hlen, hall⟩ hnot
    cases hs : states[c.1]? with
    | none => exact ⟨out, by rw [stepAt, hs]⟩
    | some s =>
      have hc : c.1 < n := by
        rw [← hlen]
        exact (List.getElem?_eq_some_iff.mp hs).1
      obtain ⟨e, herror⟩ := hbad s (g c.1) c.2 (hall c.1 s hs) fun hok => hnot ⟨hc, hok⟩
      refine ⟨e, ?_⟩
      rw [stepAt, hs]
      simp only [herror]
      rfl

end

/-! ## What a run keeps -/

section

variable {I : Nat → List α → σ → List β → Prop} {n : Nat}

/-- What every machine keeps of its own labels and outputs, all of them keep in the
array, when an output says which machine it comes from. -/
theorem runLog_stepAt_invariant (mine : Nat → β → Bool)
    (hstep : ∀ i done s logged a s' o, I i done s logged → step s a = .ok (s', o) →
      I i (done ++ [a]) s' (logged ++ o))
    (hmine : ∀ i done s logged a s' o, i < n → I i done s logged → step s a = .ok (s', o) →
      ∀ x ∈ o, ∀ j < n, mine j x = decide (j = i))
    (done : List (Nat × α)) (logged : List β) (hlen : states.length = n)
    (h : ∀ i s, states[i]? = some s → I i (opsAt i done) s (logged.filter (mine i)))
    (hrun : runLog (stepAt out step) states cs = .ok (states', outs)) :
    states'.length = n ∧ (∀ x ∈ outs, ∃ i < n, mine i x = true) ∧
      ∀ i s, states'[i]? = some s →
        I i (opsAt i (done ++ cs)) s ((logged ++ outs).filter (mine i)) := by
  induction cs generalizing states done logged outs with
  | nil =>
    have hpair : (states, ([] : List β)) = (states', outs) := Except.ok.inj hrun
    rw [Prod.mk.injEq] at hpair
    rw [← hpair.1, ← hpair.2, List.append_nil, List.append_nil]
    exact ⟨hlen, by simp, h⟩
  | cons c cs ih =>
    obtain ⟨states₁, o₁, o₂, hone, hrest, rfl⟩ := runLog_cons_ok hrun
    obtain ⟨s, s', hs, hs', rfl⟩ := stepAt_ok hone
    have hc : c.1 < n := by
      rw [← hlen]
      exact (List.getElem?_eq_some_iff.mp hs).1
    have hown := hmine c.1 _ s _ c.2 s' o₁ hc (h c.1 s hs) hs'
    have hall : ∀ i s₁, (states.set c.1 s')[i]? = some s₁ →
        I i (opsAt i (done ++ [c])) s₁ ((logged ++ o₁).filter (mine i)) := by
      intro i s₁ hs₁
      rw [List.getElem?_set] at hs₁
      rw [opsAt_append, List.filter_append]
      by_cases hci : c.1 = i
      · subst hci
        rw [if_pos rfl, if_pos (by rw [hlen]; exact hc)] at hs₁
        have hfilter : o₁.filter (mine c.1) = o₁ := by
          rw [List.filter_eq_self]
          intro x hx
          rw [hown x hx c.1 hc]
          exact decide_eq_true rfl
        rw [hfilter, ← Option.some.inj hs₁]
        have hsingle : opsAt c.1 [c] = [c.2] := opsAt_cons_self c.1 c.2 []
        rw [hsingle]
        exact hstep c.1 _ s _ c.2 s' o₁ (h c.1 s hs) hs'
      · rw [if_neg hci] at hs₁
        have hi : i < n := by
          rw [← hlen]
          exact (List.getElem?_eq_some_iff.mp hs₁).1
        have hfilter : o₁.filter (mine i) = [] := by
          rw [List.filter_eq_nil_iff]
          intro x hx
          rw [hown x hx i hi]
          simpa using Ne.symm hci
        have hsingle : opsAt i [c] = [] := opsAt_cons_ne hci c.2 []
        rw [hfilter, hsingle, List.append_nil, List.append_nil]
        exact h i s₁ hs₁
    obtain ⟨hlen', hsome, hend⟩ := ih (done ++ [c]) (logged ++ o₁)
      (by rw [List.length_set]; exact hlen) hall hrest
    rw [List.append_assoc, List.append_assoc] at hend
    refine ⟨hlen', fun x hx => ?_, hend⟩
    cases List.mem_append.mp hx with
    | inl hx => exact ⟨c.1, hc, by rw [hown x hx c.1 hc]; exact decide_eq_true rfl⟩
    | inr hx => exact hsome x hx

end

end SparkNvm.Lib
