import SparkNvm.Shuffle.Sizes
import SparkNvm.Shuffle.SpillRuns

/-!
# The streams of a sorter outside the map stage

`getPartitionByteBufferArray` makes a stream before the first write to it, so the streams of a
sorter are written one after the other.

* `createStep` and `spillStreams`: the calls, with the streams made on the way.
* `createStep_ok_iff` and `createStep_results`: they are the calls on each stream alone.
* `RunResults.opens_iff`: when a stream can be read back.
-/

namespace SparkNvm.Shuffle

open Lib Native Storage

section

variable {R S : Type}

/-- One call.  A call on the stream behind the last one makes it first. -/
def createStep (ser : SerializerInstance R S) (t : Int) (name : Nat → String) (data : Nat → Mem)
    (streams : List (NvmBlockOutputStream S)) (c : Nat × BlockOp R) :
    Except JavaError (List (NvmBlockOutputStream S) × List SetBlock) :=
  if c.1 = streams.length then
    match NvmBlockOutputStream.new ser (name c.1) (data c.1) with
    | .error e => .error e
    | .ok (b, calls) =>
      (stepAt .indexOutOfBounds (NvmBlockOutputStream.step ser t) (streams ++ [b]) c).map fun r =>
        (r.1, calls ++ r.2)
  else stepAt .indexOutOfBounds (NvmBlockOutputStream.step ser t) streams c

/-- The calls from an empty array on. -/
def spillStreams (ser : SerializerInstance R S) (t : Int) (name : Nat → String) (data : Nat → Mem)
    (ops : List (Nat × BlockOp R)) :
    Except JavaError (List (NvmBlockOutputStream S) × List SetBlock) :=
  runLog (createStep ser t name data) [] ops

/-- The calls on the stream of a run. -/
def runCalls (run : Nat × List R) : List (BlockOp R) := run.2.map .write ++ [.maybeSpill true]

theorem runOps_cons (stream : Nat) (run : Nat × List R) (runs : List (Nat × List R)) :
    runOps stream (run :: runs) =
      (runCalls run).map (fun op => (stream, op)) ++ runOps (stream + 1) runs := by
  rw [runOps, runCalls, List.map_append, List.map_map, List.append_assoc]
  rfl

/-- What holds of the calls on every stream holds of the calls of every run. -/
theorem forall_opsAt_runOps {P : List (BlockOp R) → Prop} (runs : List (Nat × List R)) :
    (∀ i < runs.length, P (opsAt i (runOps 0 runs))) ↔ ∀ run ∈ runs, P (runCalls run) := by
  rw [List.forall_mem_iff_forall_getElem]
  refine forall₂_congr fun i hi => ?_
  have hat := opsAt_runOps (List.getElem?_eq_getElem hi) 0
  rw [Nat.zero_add] at hat
  rw [hat, runCalls]

variable {ser : SerializerInstance R S} {t : Int} {name : Nat → String} {data : Nat → Mem}
variable {streams : List (NvmBlockOutputStream S)}

/-- Calls on the last stream. -/
theorem createStep_last (ser : SerializerInstance R S) (t : Int) (name : Nat → String)
    (data : Nat → Mem) (streams : List (NvmBlockOutputStream S)) (b : NvmBlockOutputStream S)
    (op : BlockOp R) :
    createStep ser t name data (streams ++ [b]) (streams.length, op) =
      (b.step ser t op).map fun r => (streams ++ [r.1], r.2) := by
  have hne : streams.length ≠ (streams ++ [b]).length := by
    rw [List.length_append, List.length_singleton]
    omega
  have hset : ∀ b', (streams ++ [b]).set streams.length b' = streams ++ [b'] := by
    intro b'
    rw [List.set_append_right _ _ (Nat.le_refl _), Nat.sub_self]
    rfl
  rw [createStep, if_neg hne, stepAt, List.getElem?_concat_length]
  simp only [hset]

/-- The calls of one run are those on a stream of its own. -/
theorem createStep_run (op : BlockOp R) (ops : List (BlockOp R)) :
    runLog (createStep ser t name data) streams ((op :: ops).map fun op => (streams.length, op)) =
      (NvmBlockOutputStream.runOps ser t (name streams.length) (data streams.length)
        (op :: ops)).map fun r => (streams ++ [r.1], r.2) := by
  cases hnew : NvmBlockOutputStream.new ser (name streams.length) (data streams.length) with
  | error e =>
    have hfirst : createStep ser t name data streams (streams.length, op) = .error e := by
      rw [createStep, if_pos rfl, hnew]
    rw [List.map_cons, runLog_cons_error hfirst, NvmBlockOutputStream.runOps, hnew]
    rfl
  | ok r =>
    obtain ⟨b, c₀⟩ := r
    have hne : streams.length ≠ (streams ++ [b]).length := by
      rw [List.length_append, List.length_singleton]
      omega
    have hfirst : createStep ser t name data streams (streams.length, op) =
        (createStep ser t name data (streams ++ [b]) (streams.length, op)).map fun r =>
          (r.1, c₀ ++ r.2) := by
      rw [createStep, if_pos rfl, hnew, createStep, if_neg hne]
    have hrun := runLog_map (f := fun b => streams ++ [b])
      (g := fun op : BlockOp R => (streams.length, op))
      (createStep_last ser t name data streams) b (op :: ops)
    rw [List.map_cons] at hrun ⊢
    rw [runLog_cons_of_map hfirst, hrun, NvmBlockOutputStream.runOps, hnew]
    dsimp only
    cases runLog (NvmBlockOutputStream.step ser t) b (op :: ops) with
    | error e => rfl
    | ok r => rfl

/-- The results of the streams, each on its own. -/
def RunResults (ser : SerializerInstance R S) (t : Int) (name : Nat → String) (data : Nat → Mem)
    (stream : Nat) (runs : List (Nat × List R))
    (results : List (NvmBlockOutputStream S × List SetBlock)) : Prop :=
  results.length = runs.length ∧ ∀ (i : Nat) (run : Nat × List R), runs[i]? = some run →
    ∃ r, results[i]? = some r ∧
      NvmBlockOutputStream.runOps ser t (name (stream + i)) (data (stream + i)) (runCalls run) =
        .ok r

theorem runLog_createStep_run (ser : SerializerInstance R S) (t : Int) (name : Nat → String)
    (data : Nat → Mem) (streams : List (NvmBlockOutputStream S)) (run : Nat × List R) :
    runLog (createStep ser t name data) streams
        ((runCalls run).map fun op => (streams.length, op)) =
      (NvmBlockOutputStream.runOps ser t (name streams.length) (data streams.length)
        (runCalls run)).map fun r => (streams ++ [r.1], r.2) := by
  obtain ⟨op, ops, hcons⟩ : ∃ op ops, runCalls run = op :: ops :=
    List.exists_cons_of_ne_nil (by rw [runCalls]; simp)
  rw [hcons]
  exact createStep_run op ops

theorem createStep_results {streams' : List (NvmBlockOutputStream S)} {calls : List SetBlock}
    {runs : List (Nat × List R)}
    (h : runLog (createStep ser t name data) streams (runOps streams.length runs) =
      .ok (streams', calls)) :
    ∃ results, RunResults ser t name data streams.length runs results ∧
      streams' = streams ++ results.map Prod.fst ∧ calls = results.flatMap Prod.snd := by
  induction runs generalizing streams calls with
  | nil =>
    rw [runOps, runLog, Except.ok.injEq, Prod.mk.injEq] at h
    exact ⟨[], ⟨rfl, by simp⟩, by rw [← h.1]; simp, h.2.symm⟩
  | cons run runs ih =>
    rw [runOps_cons] at h
    obtain ⟨streams₁, c₁, c₂, hfirst, hrest, rfl⟩ := runLog_append_ok h
    rw [runLog_createStep_run] at hfirst
    obtain ⟨r, hrun, hpair⟩ := map_eq_ok.mp hfirst
    rw [Prod.mk.injEq] at hpair
    have hlength : streams₁.length = streams.length + 1 := by
      rw [← hpair.1, List.length_append]
      rfl
    rw [← hlength] at hrest
    obtain ⟨results, ⟨hcount, hall⟩, hstreams, hcalls⟩ := ih hrest
    refine ⟨r :: results, ⟨?_, ?_⟩, ?_, ?_⟩
    · rw [List.length_cons, List.length_cons, hcount]
    · intro i run' hrun'
      cases i with
      | zero =>
        rw [List.getElem?_cons_zero, Option.some.injEq] at hrun'
        rw [← hrun']
        exact ⟨r, rfl, hrun⟩
      | succ i =>
        obtain ⟨r', hr', hok⟩ := hall i run' hrun'
        rw [hlength, Nat.add_right_comm, Nat.add_assoc] at hok
        exact ⟨r', hr', hok⟩
    · rw [hstreams, ← hpair.1, List.append_assoc]
      rfl
    · rw [hcalls, ← hpair.2, List.flatMap_cons]

/-- The sorter's calls raise nothing exactly if every run fits on its own. -/
theorem createStep_ok_iff (ser : SerializerInstance R S) (t : Int) (name : Nat → String)
    (data : Nat → Mem) (streams : List (NvmBlockOutputStream S)) (runs : List (Nat × List R)) :
    (∃ r, runLog (createStep ser t name data) streams (runOps streams.length runs) = .ok r) ↔
      ∀ run ∈ runs, Fits ser t (runCalls run) := by
  induction runs generalizing streams with
  | nil => exact iff_of_true ⟨_, rfl⟩ (by simp)
  | cons run runs ih =>
    rw [runOps_cons]
    constructor
    · rintro ⟨⟨streams', calls⟩, h⟩
      rw [← runOps_cons] at h
      obtain ⟨results, ⟨_, hall⟩, _⟩ := createStep_results h
      intro run' hmem
      obtain ⟨i, hi⟩ := List.mem_iff_getElem?.mp hmem
      obtain ⟨r, _, hok⟩ := hall i run' hi
      exact (runOps_ok_iff ser t _ _ _).mp ⟨r, hok⟩
    · intro hall
      obtain ⟨r, hr⟩ := (runOps_ok_iff ser t (name streams.length) (data streams.length) _).mpr
        (hall run List.mem_cons_self)
      have hfirst := runLog_createStep_run ser t name data streams run
      rw [hr] at hfirst
      obtain ⟨⟨streams', calls⟩, hrest⟩ := (ih (streams ++ [r.1])).mpr
        fun run' hmem => hall run' (List.mem_cons_of_mem _ hmem)
      rw [List.length_append, List.length_singleton] at hrest
      exact ⟨_, runLog_append hfirst hrest⟩

/-! ## The streams in the store -/

/-- The bytes that a stream has handed over. -/
def spilledBytes (calls : List SetBlock) (b : NvmBlockOutputStream S) : List UInt8 :=
  handedOver (calls.filter fun call => call.key = b.blockId)

section

variable {runs : List (Nat × List R)} {results : List (NvmBlockOutputStream S × List SetBlock)}

/-- The stream of a run, with what its calls have left. -/
theorem RunResults.holds (h : RunResults ser t name data 0 runs results) {i : Nat}
    {r : NvmBlockOutputStream S × List SetBlock} (hr : results[i]? = some r) :
    ∃ run, runs[i]? = some run ∧ StreamHolds ser (name i) (runCalls run) r.1 r.2 ∧
      (ser.Lawful → r.2.length = blockCount ser t (runCalls run)) := by
  have hlt : i < runs.length := by
    rw [← h.1]
    exact (List.getElem?_eq_some_iff.mp hr).1
  obtain ⟨r', hr', hok⟩ := h.2 i _ (List.getElem?_eq_getElem hlt)
  rw [hr, Option.some.injEq] at hr'
  subst hr'
  rw [Nat.zero_add] at hok
  exact ⟨_, List.getElem?_eq_getElem hlt, runOps_holds hok, fun hser => length_calls_eq hser hok⟩

/-- The calls under the name of a stream are its own. -/
theorem RunResults.calls_of_stream (h : RunResults ser t name data 0 runs results)
    (hname : ∀ i < runs.length, ∀ j < runs.length, name i = name j → i = j) {i : Nat}
    {r : NvmBlockOutputStream S × List SetBlock} (hr : results[i]? = some r) :
    (results.flatMap Prod.snd).filter (fun call => call.key = name i) = r.2 := by
  refine filter_flatMap_key (by rw [h.1]; exact hname) (fun j r' hr' call hcall => ?_) hr
  obtain ⟨run, _, hholds, _⟩ := h.holds hr'
  exact hholds.key_eq hcall

theorem RunResults.keys (h : RunResults ser t name data 0 runs results) :
    ∀ call ∈ results.flatMap Prod.snd, ∃ i < runs.length, call.key = name i := by
  intro call hcall
  obtain ⟨r, hr, hmem⟩ := List.mem_flatMap.mp hcall
  obtain ⟨i, hi⟩ := List.mem_iff_getElem?.mp hr
  obtain ⟨run, _, hholds, _⟩ := h.holds hi
  refine ⟨i, ?_, hholds.key_eq hmem⟩
  rw [← h.1]
  exact (List.getElem?_eq_some_iff.mp hi).1

/-- A stream has handed over all that the serializer emitted. -/
theorem RunResults.spilledBytes_eq (h : RunResults ser t name data 0 runs results)
    (hser : ser.Lawful) (hname : ∀ i < runs.length, ∀ j < runs.length, name i = name j → i = j)
    {i : Nat} {r : NvmBlockOutputStream S × List SetBlock} {run : Nat × List R}
    (hr : results[i]? = some r) (hrun : runs[i]? = some run) :
    spilledBytes (results.flatMap Prod.snd) r.1 = emitted ser (runCalls run) := by
  obtain ⟨run', hrun', hholds, _⟩ := h.holds hr
  rw [hrun, Option.some.injEq] at hrun'
  subst hrun'
  have hall := (hholds.stores hser).handedOver_all
  have hempty := (hholds.forced (.maybeSpill true) (by rw [runCalls, List.getLast?_concat]) rfl).1
  rw [NvmOutputStream.flush_idle hempty, List.append_nil] at hall
  rw [spilledBytes, hholds.blockId, h.calls_of_stream hname hr, hall]

/-- A reader gets back a stream exactly if it has fewer than `2 ^ 30` blocks and fewer than `2 ^ 31`
bytes. -/
theorem RunResults.opens_iff {hash : String → UInt64} {fuel : Nat} {kv : Pmemkv}
    {puts : List PutCall} {answers : List PutAnswers} {deserialize : List UInt8 → List R}
    (h : RunResults ser t name data 0 runs results) (hser : ser.RoundTrips deserialize)
    (hhash : ∀ i < runs.length, ∀ j < runs.length, hash (name i) = hash (name j) → i = j)
    (hnone : ∀ i < runs.length, storedUnder hash puts (name i) = [])
    (hlen : answers.length = (results.flatMap Prod.snd).length)
    (hholds : Holds hash kv (puts ++ putCalls (results.flatMap Prod.snd) answers))
    (hfuel : (puts ++ putCalls (results.flatMap Prod.snd) answers).length ≤ fuel)
    {i : Nat} {r : NvmBlockOutputStream S × List SetBlock} {run : Nat × List R}
    (hr : results[i]? = some r) (hrun : runs[i]? = some run) (hne : run.2 ≠ []) :
    OpensWith hash fuel kv r.1.blockId (spilledBytes (results.flatMap Prod.snd) r.1) ↔
      blockCount ser t (runCalls run) < 2 ^ 30 ∧
        (emitted ser (runCalls run)).length < 2 ^ 31 := by
  have hname : ∀ i < runs.length, ∀ j < runs.length, name i = name j → i = j :=
    fun i hi j hj heq => hhash i hi j hj (by rw [heq])
  have hi : i < runs.length := (List.getElem?_eq_some_iff.mp hrun).1
  obtain ⟨run', hrun', hstream, hcount⟩ := h.holds hr
  rw [hrun, Option.some.injEq] at hrun'
  subst hrun'
  have hown := h.calls_of_stream hname hr
  have hspilled := h.spilledBytes_eq hser.lawful hname hr hrun
  -- the store has the calls of the stream under its name
  have hvalues := storedUnder_of_keys h.keys hhash puts hlen hi
  rw [hnone i hi, hown] at hvalues
  have hlength := congrArg List.length hvalues
  rw [List.length_map] at hlength
  have hstored : storedBytes hash (puts ++ putCalls (results.flatMap Prod.snd) answers) (name i) =
      spilledBytes (results.flatMap Prod.snd) r.1 := by
    rw [storedBytes, hvalues, spilledBytes, hstream.blockId, hown, handedOver, List.flatMap_def]
    rfl
  have hcalls : (storedUnder hash (puts ++ putCalls (results.flatMap Prod.snd) answers)
      (name i)).length = blockCount ser t (runCalls run) := by
    rw [hlength, ← hcount hser.lawful]
    exact List.length_map _
  have hopens := Storage.opens_iff (k := name i) hholds.indexHolds hfuel (by
    intro put hput
    rw [storedUnder_append, hnone i hi, List.nil_append] at hput
    obtain ⟨pair, hpair, rfl⟩ := List.mem_map.mp (List.mem_of_mem_filter hput)
    obtain ⟨r', hr', hmem⟩ := List.mem_flatMap.mp (List.of_mem_zip hpair).1
    obtain ⟨j, hj⟩ := List.mem_iff_getElem?.mp hr'
    obtain ⟨_, _, hstream', _⟩ := h.holds hj
    exact hstream'.counted.value_ne _ hmem)
  rw [hstored, hcalls, hspilled] at hopens
  rw [hstream.blockId, hspilled, hopens, and_iff_right]
  -- every record takes a byte
  intro hnil
  have hpos := List.length_pos_of_ne_nil hne
  have hbyte := hser.byte_per_record (run.2.map .write)
  rw [recordsOf_writes] at hbyte
  rw [storedBytes, hnil, hspilled, runCalls] at hstored
  rw [← hstored] at hbyte
  exact absurd hbyte (Nat.not_le.mpr hpos)

end

end

end SparkNvm.Shuffle
