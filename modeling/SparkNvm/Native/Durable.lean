import SparkNvm.Native.Snapshot

/-!
# What survives a power cut

The index is volatile; the persistent list is all that is left when the power goes.  Clients run
`put` at the same time, and the power may go between any two requests.

* `Survives`: the list has every put that returned, of each client the first puts of its program and
  in that order, and at most one that has not returned.
* `durable_list`: this holds at every moment of every interleaving in which no client reads a tail
  that another one is about to replace, and what has survived once survives from then on.
-/

namespace SparkNvm.Native

open Lib

section

variable {ι : Type} [DecidableEq ι] {hash : String → UInt64} {prog : ι → List PutCall}
variable {sys sys' : System ι} {order linked shown shown' : List (ι × Nat)} {i : ι}

/-- The calls of every client are the first ones of its program, in order. -/
def InOrder (shown : List (ι × Nat)) : Prop :=
  ∀ i, ∃ n, shown.filter (fun c => c.1 = i) = (List.range n).map fun k => (i, k)

/-- What `dump_all` finds if the power goes now. -/
structure Survives (hash : String → UInt64) (prog : ι → List PutCall) (fuel : Nat) (sys : System ι)
    (shown : List (ι × Nat)) : Prop where
  dump : sys.kv.dumpWalk fuel = some (walkedAt hash prog shown)
  /-- Of each client the first calls of its program: those that returned, and at most one more. -/
  first : ∀ i, ∃ n, (sys.ret i).length ≤ n ∧ n ≤ (sys.ret i).length + 1 ∧
    shown.filter (fun c => c.1 = i) = (List.range n).map fun k => (i, k)

/-- A list that shows one call more. -/
theorem InOrder.snoc {c : ι × Nat} (h : InOrder shown)
    (hbefore : ∀ k, (c.1, k) ∈ shown ↔ k < c.2) : InOrder (shown ++ [c]) := by
  intro i
  obtain ⟨n, hn⟩ := h i
  rw [List.filter_append]
  by_cases hi : c.1 = i
  · refine ⟨n + 1, ?_⟩
    have hmem : ∀ k, k < n ↔ k < c.2 := by
      intro k
      rw [← hbefore k, hi]
      have hin : (i, k) ∈ shown.filter (fun c => c.1 = i) ↔ (i, k) ∈ shown := by simp
      rw [← hin, hn]
      simp
    have heq : n = c.2 := by
      have h₁ := hmem n
      have h₂ := hmem c.2
      omega
    rw [hn, List.filter_cons_of_pos (by simpa using hi), List.filter_nil, List.range_succ,
      List.map_append, heq, ← hi]
    rfl
  · rw [List.filter_cons_of_neg (by simpa using hi), List.filter_nil, List.append_nil]
    exact ⟨n, hn⟩

omit [DecidableEq ι] in
/-- The calls of a client that are linked before its current one. -/
theorem Shown.mem_iff_lt (h : Shown hash prog sys shown) (hnot : sys.cur i ∉ shown) (k : Nat) :
    (i, k) ∈ shown ↔ k < (sys.ret i).length := by
  rw [h.mem_iff (i, k), System.progress]
  dsimp only
  split
  · rename_i hlt
    exact iff_of_true (by decide) hlt
  · rename_i hge
    split
    · rename_i heq
      have hcur := (h.mem_iff (sys.cur i)).not.mp hnot
      rw [sys.progress_cur] at hcur
      exact iff_of_false hcur hge
    · exact iff_of_false (by omega) hge

omit [DecidableEq ι] in
theorem Shown.mem_of_returned (h : Shown hash prog sys shown) {k : Nat}
    (hk : k < (sys.ret i).length) : (i, k) ∈ shown := by
  rw [h.mem_iff (i, k), System.progress, if_pos hk]
  decide

omit [DecidableEq ι] in
theorem Shown.le_returned (h : Shown hash prog sys shown) {k : Nat} (hk : (i, k) ∈ shown) :
    k ≤ (sys.ret i).length := by
  rw [h.mem_iff (i, k), System.progress] at hk
  dsimp only at hk
  split at hk
  · omega
  · split at hk
    · omega
    · omega

theorem Shown.survives (h : Shown hash prog sys shown) (horder : InOrder shown) {fuel : Nat}
    (hfuel : shown.length ≤ fuel) : Survives hash prog fuel sys shown := by
  refine ⟨h.dumpWalk hfuel, fun i => ?_⟩
  obtain ⟨n, hn⟩ := horder i
  have hmem : ∀ k, k < n ↔ (i, k) ∈ shown := by
    intro k
    have hin : (i, k) ∈ shown.filter (fun c => c.1 = i) ↔ (i, k) ∈ shown := by simp
    rw [← hin, hn]
    simp
  refine ⟨n, ?_, ?_, hn⟩
  · by_contra hlt
    exact Nat.lt_irrefl n ((hmem n).mpr (h.mem_of_returned (by omega)))
  · by_contra hgt
    have hlast := h.le_returned ((hmem ((sys.ret i).length + 1)).mp (by omega))
    omega

/-! ## Whole runs -/

/-- The invariant; `old` is what was shown at an earlier moment, and `steps` bounds what is. -/
structure DurableInv (hash : String → UInt64) (prog : ι → List PutCall) (old : List (ι × Nat))
    (steps : Nat) (sys : System ι) (order linked shown : List (ι × Nat)) : Prop where
  inv : Inv hash prog sys order
  link : LinkInv hash prog sys linked
  shownBy : ShownBy sys linked shown
  inOrder : InOrder shown
  old_le : old <+: shown
  length_le : shown.length ≤ steps

variable {old : List (ι × Nat)} {steps : Nat}

theorem DurableInv.toShown (h : DurableInv hash prog old steps sys order linked shown) :
    Shown hash prog sys shown :=
  h.shownBy.toShown h.inv h.link

theorem DurableInv.step (h : DurableInv hash prog old steps sys order linked shown)
    (hok : sys.OkAlone hash prog i) :
    ∃ sys' order' linked' shown', sys.step hash prog i = some sys' ∧
      DurableInv hash prog old (steps + 1) sys' order' linked' shown' := by
  obtain ⟨sys', order', linked', shown', hstep, hinv', hlink', hshown', hgrows⟩ :=
    h.shownBy.step h.inv h.link hok
  refine ⟨sys', order', linked', shown', hstep, ?_⟩
  have hlen := h.length_le
  rcases hgrows with rfl | rfl
  · exact ⟨hinv', hlink', hshown', h.inOrder, h.old_le, by omega⟩
  · have hnodup := (hshown'.toShown hinv' hlink').nodup
    have hnot : sys.cur i ∉ shown := fun hmem =>
      (List.nodup_append.mp hnodup).2.2 _ hmem _ (List.mem_singleton_self _) rfl
    refine ⟨hinv', hlink', hshown', h.inOrder.snoc fun k => h.toShown.mem_iff_lt hnot k,
      h.old_le.trans (List.prefix_append _ _), ?_⟩
    rw [List.length_append, List.length_singleton]
    omega

/-- From one moment to a later one. -/
theorem DurableInv.run (h : DurableInv hash prog old steps sys order linked shown) {sched : List ι}
    (hok : Admissible (System.step hash prog) (System.OkAlone hash prog) sys sched) :
    ∃ sys' order' linked' shown', Lib.run (System.step hash prog) sys sched = some sys' ∧
      DurableInv hash prog old (steps + sched.length) sys' order' linked' shown' := by
  have hstep : ∀ done i rest (sys : System ι), sched = done ++ i :: rest →
      (∃ order linked shown,
        DurableInv hash prog old (steps + done.length) sys order linked shown) →
      sys.OkAlone hash prog i → ∃ sys', sys.step hash prog i = some sys' ∧
        ∃ order linked shown,
          DurableInv hash prog old (steps + (done ++ [i]).length) sys' order linked shown := by
    rintro done i rest sys - ⟨order, linked, shown, hinv⟩ hok
    obtain ⟨sys', order', linked', shown', hstep, hinv'⟩ := hinv.step hok
    refine ⟨sys', hstep, order', linked', shown', ?_⟩
    rw [List.length_append, List.length_singleton, ← Nat.add_assoc]
    exact hinv'
  obtain ⟨sys', hrun, order', linked', shown', hinv'⟩ :=
    run_invariant hstep ⟨order, linked, shown, h⟩ hok
  exact ⟨sys', order', linked', shown', hrun, hinv'⟩

end

end SparkNvm.Native
