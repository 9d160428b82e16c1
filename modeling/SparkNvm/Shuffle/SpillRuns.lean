import SparkNvm.Lib.Family
import SparkNvm.Lib.PriorityQueue
import SparkNvm.Shuffle.SpillReader

/-!
# What the sorter spills outside the map stage

Every partition of a spilled collection goes to a new stream.

* `SpilledRuns` and `spillAll_runs`: the calls on the streams, one run of entries for each.
* `opsAt_runOps`: the calls on the stream of a run.
-/

namespace SparkNvm.Shuffle

open Lib Storage

section

variable {K V C : Type}

/-! ## The streams of a spill -/

/-- Items of a partition as entries. -/
def tagged (p : Nat) (items : List (K × C)) : Entries K C :=
  items.map fun item => ((p, item.1), item.2)

/-- The entries of runs, each with the number of its partition. -/
def runEntries (runs : List (Nat × List (K × C))) : Entries K C :=
  runs.flatMap fun run => tagged run.1 run.2

/-- The calls on one stream for each run: its items, and a forced spill. -/
def runOps {R : Type} : Nat → List (Nat × List R) → List (Nat × BlockOp R)
  | _, [] => []
  | stream, run :: runs =>
    run.2.map (fun item => (stream, .write item)) ++
      (stream, .maybeSpill true) :: runOps (stream + 1) runs

theorem runOps_append {R : Type} (stream : Nat) (runs runs' : List (Nat × List R)) :
    runOps stream (runs ++ runs') = runOps stream runs ++ runOps (stream + runs.length) runs' := by
  induction runs generalizing stream with
  | nil => rfl
  | cons run runs ih =>
    rw [List.cons_append, runOps, ih, runOps, List.append_assoc, List.length_cons, Nat.add_assoc,
      Nat.add_comm 1]
    rfl

/-- From a current partition on: items for the current stream, then one stream for each
run. -/
theorem spill_current_runs (streams cur buffer : Nat) (entries : Entries K C) :
    ∃ first runs,
      (spillMemoryIteratorToPmem false streams (some (cur, buffer)) entries).1 =
        first.map (fun item => (buffer, .write item)) ++
          (buffer, .maybeSpill true) :: runOps streams runs ∧
      (spillMemoryIteratorToPmem false streams (some (cur, buffer)) entries).2 =
        streams + runs.length ∧
      tagged cur first ++ runEntries runs = entries ∧ ∀ run ∈ runs, run.2 ≠ [] := by
  induction entries generalizing streams cur buffer with
  | nil => exact ⟨[], [], rfl, rfl, rfl, by simp⟩
  | cons entry entries ih =>
    obtain ⟨⟨q, key⟩, combiner⟩ := entry
    by_cases hsame : cur = q
    · subst hsame
      obtain ⟨first, runs, hops, hstreams, hentries, hne⟩ := ih streams cur buffer
      refine ⟨(key, combiner) :: first, runs, ?_, ?_, ?_, hne⟩
      · rw [spillMemoryIteratorToPmem, if_pos rfl]
        exact congrArg _ hops
      · rw [spillMemoryIteratorToPmem, if_pos rfl]
        exact hstreams
      · rw [← hentries]
        rfl
    · obtain ⟨first, runs, hops, hstreams, hentries, hne⟩ := ih (streams + 1) q streams
      refine ⟨[], (q, (key, combiner) :: first) :: runs, ?_, ?_, ?_, ?_⟩
      · rw [spillMemoryIteratorToPmem, if_neg hsame]
        exact congrArg (fun ops => (buffer, BlockOp.maybeSpill true) ::
          (streams, BlockOp.write (key, combiner)) :: ops) hops
      · rw [spillMemoryIteratorToPmem, if_neg hsame, List.length_cons]
        show (spillMemoryIteratorToPmem false (streams + 1) (some (q, streams)) entries).2 = _
        rw [hstreams]
        omega
      · rw [← hentries]
        rfl
      · intro run hrun
        cases List.mem_cons.mp hrun with
        | inl heq =>
          rw [heq]
          exact List.cons_ne_nil _ _
        | inr hmem => exact hne run hmem

/-- The calls of spills and the runs that they write. -/
structure SpilledRuns (streams : Nat) (spills : List (Entries K C))
    (r : List (Nat × BlockOp (K × C)) × Nat) (runs : List (Nat × List (K × C))) : Prop where
  ops : r.1 = runOps streams runs
  streams : r.2 = streams + runs.length
  entries : runEntries runs = spills.flatten
  nonempty : ∀ run ∈ runs, run.2 ≠ []
  sublist : ∀ run ∈ runs, ∃ entries ∈ spills, (tagged run.1 run.2).Sublist entries

/-- A run is part of the entries. -/
theorem tagged_sublist {runs : List (Nat × List (K × C))} {run : Nat × List (K × C)}
    (h : run ∈ runs) : (tagged run.1 run.2).Sublist (runEntries runs) := by
  rw [runEntries, List.flatMap_def]
  exact List.sublist_flatten_of_mem (List.mem_map_of_mem (f := fun run => tagged run.1 run.2) h)

theorem spill_runs (streams : Nat) (entries : Entries K C) :
    ∃ runs, SpilledRuns streams [entries] (spillMemoryIteratorToPmem false streams none entries)
      runs := by
  cases entries with
  | nil => exact ⟨[], rfl, rfl, rfl, by simp, by simp⟩
  | cons entry entries =>
    obtain ⟨⟨q, key⟩, combiner⟩ := entry
    obtain ⟨first, runs, hops, hstreams, hentries, hne⟩ :=
      spill_current_runs (streams + 1) q streams entries
    have hall : runEntries ((q, (key, combiner) :: first) :: runs) =
        ((q, key), combiner) :: entries := by
      rw [← hentries]
      rfl
    refine ⟨(q, (key, combiner) :: first) :: runs, ?_, ?_, ?_, ?_, ?_⟩
    · rw [spillMemoryIteratorToPmem]
      exact congrArg (fun ops => (streams, BlockOp.write (key, combiner)) :: ops) hops
    · rw [spillMemoryIteratorToPmem, List.length_cons]
      show (spillMemoryIteratorToPmem false (streams + 1) (some (q, streams)) entries).2 = _
      rw [hstreams]
      omega
    · rw [hall, List.flatten_singleton]
    · intro run hrun
      cases List.mem_cons.mp hrun with
      | inl heq =>
        rw [heq]
        exact List.cons_ne_nil _ _
      | inr hmem => exact hne run hmem
    · intro run hrun
      refine ⟨_, List.mem_singleton_self _, ?_⟩
      rw [← hall]
      exact tagged_sublist hrun

theorem spillAll_runs (streams : Nat) (spills : List (Entries K C)) :
    ∃ runs, SpilledRuns streams spills (spillAll false streams spills) runs := by
  induction spills generalizing streams with
  | nil => exact ⟨[], rfl, rfl, rfl, by simp, by simp⟩
  | cons entries spills ih =>
    obtain ⟨first, hfirst⟩ := spill_runs streams entries
    obtain ⟨runs, hruns⟩ := ih (spillMemoryIteratorToPmem false streams none entries).2
    refine ⟨first ++ runs, ?_, ?_, ?_, ?_, ?_⟩
    · rw [spillAll, hfirst.ops, hruns.ops, hfirst.streams, runOps_append]
    · rw [spillAll, hruns.streams, hfirst.streams, List.length_append, Nat.add_assoc]
    · have hentries := hfirst.entries
      rw [List.flatten_singleton] at hentries
      rw [runEntries, List.flatMap_append, List.flatten_cons, ← hentries, ← hruns.entries]
      rfl
    · intro run hrun
      cases List.mem_append.mp hrun with
      | inl hmem => exact hfirst.nonempty run hmem
      | inr hmem => exact hruns.nonempty run hmem
    · intro run hrun
      cases List.mem_append.mp hrun with
      | inl hmem =>
        obtain ⟨entries', hentries', hsub⟩ := hfirst.sublist run hmem
        exact ⟨entries', List.mem_cons.mpr (.inl (List.mem_singleton.mp hentries')), hsub⟩
      | inr hmem =>
        obtain ⟨entries', hentries', hsub⟩ := hruns.sublist run hmem
        exact ⟨entries', List.mem_cons_of_mem _ hentries', hsub⟩

theorem opsAt_runOps_lt {R : Type} {i stream : Nat} (h : i < stream) (runs : List (Nat × List R)) :
    opsAt i (runOps stream runs) = [] := by
  induction runs generalizing stream with
  | nil => rfl
  | cons run runs ih =>
    rw [runOps, opsAt_append, opsAt_map_ne (by omega), opsAt_cons_ne (by omega), ih (by omega)]
    rfl

/-- The calls on the stream of a run. -/
theorem opsAt_runOps {R : Type} {runs : List (Nat × List R)} {i : Nat} {run : Nat × List R}
    (h : runs[i]? = some run) (stream : Nat) :
    opsAt (stream + i) (runOps stream runs) = run.2.map .write ++ [.maybeSpill true] := by
  induction runs generalizing i stream with
  | nil => simp at h
  | cons run' runs ih =>
    rw [runOps, opsAt_append]
    cases i with
    | zero =>
      rw [List.getElem?_cons_zero, Option.some.injEq] at h
      rw [Nat.add_zero, opsAt_map_self, opsAt_cons_self, opsAt_runOps_lt (Nat.lt_succ_self _), h]
    | succ i =>
      rw [List.getElem?_cons_succ] at h
      have hnext := ih h (stream + 1)
      rw [Nat.add_assoc, Nat.add_comm 1 i] at hnext
      rw [opsAt_map_ne (by omega), opsAt_cons_ne (by omega), List.nil_append, hnext]

end

end SparkNvm.Shuffle
