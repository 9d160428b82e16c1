import SparkNvm.Shuffle.Job

/-!
# A shuffle that sorts

With a key ordering, `read` inserts what it fetched into an `nvmExternalSorter`, which spills to the
store that the map tasks wrote to and that other tasks of the executor are still writing to.  A
moment of such a run is the number of calls of `setPartition` that have reached the store.

* `SortStage` is what `read` gives the sorter, with the contracts of Spark's parts.
* `SortStage.iterator_sorted` and `SortStage.opens`: a sorter on its own, and its streams in a store
  that holds more than these.
* `job_sorts`: every reduce task returns its records in the order of their keys.
-/

namespace SparkNvm.Shuffle

open Lib Native Storage

/-! ## Moments -/

section

variable {ω : Type} [DecidableEq ω] {tasks : Set ω} {calls : ω → List SetBlock}
variable {trace : List (ω × SetBlock)} {hash : String → UInt64} {kv : Pmemkv}
variable {answers : List PutAnswers}

/-- The store when the first `i` calls have reached it. -/
def storeAt (hash : String → UInt64) (kv : Pmemkv) (trace : List (ω × SetBlock))
    (answers : List PutAnswers) (i : Nat) : Option Pmemkv :=
  setBlocks hash kv (((trace.take i).map Prod.snd).zip (answers.take i))

/-- All calls of a task are among the first `i`. -/
def DoneAt (trace : List (ω × SetBlock)) (i : Nat) (o : ω) : Prop :=
  ∀ c ∈ trace.drop i, c.1 ≠ o

instance (trace : List (ω × SetBlock)) (i : Nat) (o : ω) : Decidable (DoneAt trace i o) :=
  inferInstanceAs (Decidable (∀ c ∈ trace.drop i, c.1 ≠ o))

/-- At every moment the calls are an interleaving, and a task that is done has made all of its
calls. -/
theorem Interleaves.take (h : Interleaves tasks calls trace) (i : Nat) :
    ∃ calls', Interleaves tasks calls' (trace.take i) ∧
      ∀ o ∈ tasks, DoneAt trace i o → calls' o = calls o := by
  refine ⟨fun o => ((trace.take i).filter fun c => c.1 = o).map Prod.snd,
    ⟨fun c hc => h.mem_tasks c (List.mem_of_mem_take hc), fun _ _ => rfl⟩, ?_⟩
  intro o ho hdone
  have hrest : (trace.drop i).filter (fun c => c.1 = o) = [] := by
    rw [List.filter_eq_nil_iff]
    intro c hc
    rw [decide_eq_true_eq]
    exact hdone c hc
  dsimp only
  rw [← h.own o ho]
  conv_rhs => rw [← List.take_append_drop i trace, List.filter_append, hrest, List.append_nil]

omit [DecidableEq ω] in
theorem Accepted.take (h : Accepted hash kv (trace.map Prod.snd) answers) (i : Nat) :
    Accepted hash kv ((trace.take i).map Prod.snd) (answers.take i) := by
  have hlen := h.length
  constructor
  · rw [List.length_take, hlen, List.map_take, List.length_take]
  · have hok := h.ok
    rw [← List.take_append_drop i ((trace.map Prod.snd).zip answers), admissible_append] at hok
    rw [List.map_take, List.zip_eq_zipWith, ← List.take_zipWith, ← List.zip_eq_zipWith]
    exact hok.1

omit [DecidableEq ω] in
/-- What the store holds at a moment. -/
theorem Accepted.storeAt (h : Accepted hash kv (trace.map Prod.snd) answers) {puts : List PutCall}
    (hholds : Holds hash kv puts) (i : Nat) :
    ∃ kv', Shuffle.storeAt hash kv trace answers i = some kv' ∧
      Holds hash kv' (puts ++ putCalls ((trace.take i).map Prod.snd) (answers.take i)) :=
  (h.take i).holds hholds

omit [DecidableEq ω] in
theorem length_puts_le {puts : List PutCall} {fuel : Nat}
    (hfuel : puts.length + answers.length ≤ fuel) (i : Nat) :
    (puts ++ putCalls ((trace.take i).map Prod.snd) (answers.take i)).length ≤ fuel := by
  have hle := length_putCalls_le ((trace.take i).map Prod.snd) (answers.take i)
  rw [List.length_take] at hle
  rw [List.length_append]
  omega

end

/-- The record iterator, for blocks that arrive in this order and at these moments. -/
def fetchDuring {R : Type} (hash : String → UInt64) (fuel : Nat) (stores : Nat → Option Pmemkv)
    (deserialize : List UInt8 → List R) (shuffleId : Nat)
    (order : List (((Nat × Nat) × Fetch) × Nat)) : Option (List R) :=
  (order.mapM fun block => (stores block.2).bind fun kv =>
    fetchBlock hash fuel kv block.1.2 (shuffleBlockName shuffleId block.1.1.1 block.1.1.2)).map
    fun blocks => blocks.flatMap deserialize

/-! ## The sorter of a reduce task -/

/-- What `read` gives the sorter, and the contracts of Spark's parts. -/
structure SortStage (K C S : Type) where
  ser : SerializerInstance (K × C) S
  deserialize : List UInt8 → List (K × C)
  roundTrips : ser.RoundTrips deserialize
  spillThrottle : Int
  ordering : K → K → Int
  lawful : LawfulComparator ordering
  hashCode : K → Int
  inMemoryCollectionSizeThreshold : Int
  sorted : Option (K → K → Int) → Entries K C → Entries K C
  sorts : SortsEntries sorted
  pq : IterQueue K C ordering

/-- A reduce task: its range of partitions, the blocks in the order in which they arrive and with
the moments at which they do, what it inserts into the sorter with the estimates of the memory, and
the numbers of its spill blocks with the memory of their streams. -/
structure ReduceTask (K C : Type) where
  startPartition : Nat
  endPartition : Nat
  order : List (((Nat × Nat) × Fetch) × Nat)
  input : List ((K × C) × Int)
  tmpId : Nat → Int
  data : Nat → Mem

/-- The name of the `i`th spill block of a task. -/
def ReduceTask.spillName {K C : Type} (task : ReduceTask K C) (shuffleId i : Nat) : String :=
  PmemBlockId.name ⟨shuffleId, task.tmpId i⟩

namespace SortStage

variable {K C S : Type}

def sorter (st : SortStage K C S) : NvmExternalSorter K C C where
  aggregator := none
  partitioner := none
  ordering := some st.ordering
  hashCode := st.hashCode
  asInstanceOf := id
  inMemoryCollectionSizeThreshold := st.inMemoryCollectionSizeThreshold

theorem sorter_lawful (st : SortStage K C S) : st.sorter.Lawful := by
  constructor
  · intro aggregator haggregator
    cases haggregator
  · intro ordering hordering
    rw [← Option.some.inj hordering]
    exact st.lawful
  · intro ordering _ hsome
    cases hsome

variable [DecidableEq K] (st : SortStage K C S) (task : ReduceTask K C)

/-- The calls of `insertAll` on the streams, and how many streams there are. -/
def spillOps : List (Nat × BlockOp (K × C)) × Nat :=
  Shuffle.spillOps st.sorter st.sorted task.input

/-- `insertAll(aggregatedIter)`, with its calls of `setPartition`. -/
def insertAll (shuffleId : Nat) :
    Except JavaError (List (NvmBlockOutputStream S) × List SetBlock) :=
  spillStreams st.ser st.spillThrottle (task.spillName shuffleId) task.data (st.spillOps task).1

/-- `sorter.iterator`. -/
def iterator (spilled : List (NvmBlockOutputStream S) × List SetBlock) : Option (List (K × C)) :=
  (st.sorter.partitionedIterator st.sorted st.pq (readersOf st.deserialize spilled.2 spilled.1)
    (st.sorter.insertAll st.sorted task.input).collection).map fun out => out.flatMap Prod.snd

/-- Every stream that is spilled fits into the 6 MiB buffer, and can be read back. -/
def SpillsFit : Prop :=
  ∀ i < (st.spillOps task).2,
    Fits st.ser st.spillThrottle (opsAt i (st.spillOps task).1) ∧
      blockCount st.ser st.spillThrottle (opsAt i (st.spillOps task).1) < 2 ^ 30 ∧
      (emitted st.ser (opsAt i (st.spillOps task).1)).length < 2 ^ 31

variable {st task} {shuffleId : Nat} {spilled : List (NvmBlockOutputStream S) × List SetBlock}

/-- What a task inserts, as the runs that are spilled. -/
theorem exists_runs (st : SortStage K C S) (task : ReduceTask K C) :
    ∃ runs, SpilledRuns 0 (st.sorter.insertAll st.sorted task.input).spills
      (st.spillOps task) runs :=
  spillAll_runs 0 _

theorem SpillsFit.runs (h : st.SpillsFit task) {runs : List (Nat × List (K × C))}
    (hruns : SpilledRuns 0 (st.sorter.insertAll st.sorted task.input).spills (st.spillOps task)
      runs) :
    ∀ run ∈ runs, Fits st.ser st.spillThrottle (runCalls run) ∧
      blockCount st.ser st.spillThrottle (runCalls run) < 2 ^ 30 ∧
      (emitted st.ser (runCalls run)).length < 2 ^ 31 := by
  have hall := h
  rw [SpillsFit, hruns.ops, hruns.streams, Nat.zero_add] at hall
  exact (forall_opsAt_runOps (P := fun ops => Fits st.ser st.spillThrottle ops ∧
    blockCount st.ser st.spillThrottle ops < 2 ^ 30 ∧ (emitted st.ser ops).length < 2 ^ 31)
    runs).mp hall

/-- A sorter that has room spills without an exception. -/
theorem SpillsFit.insertAll_ok (h : st.SpillsFit task) (shuffleId : Nat) :
    ∃ spilled, st.insertAll task shuffleId = .ok spilled := by
  obtain ⟨runs, hruns⟩ := exists_runs st task
  rw [insertAll, hruns.ops]
  exact (createStep_ok_iff st.ser st.spillThrottle (task.spillName shuffleId) task.data [] runs).mpr
    fun run hrun => (h.runs hruns run hrun).1

/-- The iterator gives what was inserted, in the order of the keys. -/
theorem iterator_sorted (h : st.SpillsFit task)
    (hspilled : st.insertAll task shuffleId = .ok spilled)
    (hnames : ∀ i < (st.spillOps task).2, ∀ j < (st.spillOps task).2,
      task.spillName shuffleId i = task.spillName shuffleId j → i = j) :
    ∃ out, st.iterator task spilled = some out ∧ out.Perm (task.input.map Prod.fst) ∧
      KeySorted st.ordering out := by
  obtain ⟨runs, hruns⟩ := exists_runs st task
  rw [hruns.streams, Nat.zero_add] at hnames
  rw [insertAll, hruns.ops] at hspilled
  have hreaders := spillStreams_readersAt hspilled st.roundTrips hnames hruns.nonempty
    fun run hrun => (h.runs hruns run hrun).2.2
  obtain ⟨out, hout, hresult⟩ := partitionedIterator_results st.sorter_lawful st.sorts st.pq hruns
    hreaders
  -- there is only partition 0
  have hone : out.map Prod.fst = [0] := hresult.partitions
  match out, hone with
  | [(p, items)], hone =>
    have hzero : p = 0 := List.singleton_inj.mp hone
    subst hzero
    have hitems := hresult.result (0, items) (List.mem_singleton_self _)
    refine ⟨items, ?_, ?_, hitems.sorted st.ordering rfl⟩
    · rw [iterator, hout, Option.map_some, List.flatMap_singleton]
    · have hkept := hitems.kept rfl
      have hall : (task.input.map Prod.fst).filter
          (fun record => st.sorter.getPartition record.1 = 0) = task.input.map Prod.fst := by
        rw [List.filter_eq_self]
        intro record _
        exact decide_eq_true rfl
      have hcast : (fun record : K × C => (record.1, st.sorter.asInstanceOf record.2)) = id := rfl
      rw [hall, hcast, List.map_id] at hkept
      exact hkept

/-- Its streams can be read from any store that has all of the task's calls, and nothing else,
under their names. -/
theorem opens {hash : String → UInt64} {fuel : Nat} {kv : Pmemkv} {puts : List PutCall}
    {calls : List SetBlock} {answers : List PutAnswers}
    (h : st.SpillsFit task) (hspilled : st.insertAll task shuffleId = .ok spilled)
    (hnames : ∀ i < (st.spillOps task).2, ∀ j < (st.spillOps task).2,
      task.spillName shuffleId i = task.spillName shuffleId j → i = j)
    (hnone : ∀ i < (st.spillOps task).2, storedUnder hash puts (task.spillName shuffleId i) = [])
    (hown : ∀ i < (st.spillOps task).2,
      calls.filter (fun call => hash call.key = hash (task.spillName shuffleId i)) =
        spilled.2.filter fun call => call.key = task.spillName shuffleId i)
    (hlen : answers.length = calls.length) (hholds : Holds hash kv (puts ++ putCalls calls answers))
    (hfuel : (puts ++ putCalls calls answers).length ≤ fuel) :
    ∀ b ∈ spilled.1, OpensWith hash fuel kv b.blockId (spilledBytes spilled.2 b) := by
  obtain ⟨runs, hruns⟩ := exists_runs st task
  rw [hruns.streams, Nat.zero_add] at hnames hnone hown
  rw [insertAll, hruns.ops] at hspilled
  obtain ⟨results, hresults, hstreams, hcalls⟩ := createStep_results hspilled
  rw [List.nil_append] at hstreams
  intro b hb
  rw [hstreams] at hb
  obtain ⟨r, hr, rfl⟩ := List.mem_map.mp hb
  obtain ⟨i, hi⟩ := List.mem_iff_getElem?.mp hr
  obtain ⟨run, hrun, hstream, hcount⟩ := hresults.holds hi
  have hlt : i < runs.length := (List.getElem?_eq_some_iff.mp hrun).1
  obtain ⟨_, hblocks, hbytes⟩ := h.runs hruns run (List.mem_of_getElem? hrun)
  -- under the name of the stream the store has its own calls
  have hvalues : (storedUnder hash (puts ++ putCalls calls answers)
      (task.spillName shuffleId i)).map PutCall.value = r.2.map SetBlock.value := by
    rw [storedUnder_append, hnone i hlt, List.nil_append, storedUnder_putCalls hlen, hown i hlt,
      hcalls, hresults.calls_of_stream hnames hi]
  have hspills := hresults.spilledBytes_eq st.roundTrips.lawful hnames hi hrun
  rw [← hcalls] at hspills
  have hstored : storedBytes hash (puts ++ putCalls calls answers) (task.spillName shuffleId i) =
      emitted st.ser (runCalls run) := by
    rw [← hspills, storedBytes, hvalues, spilledBytes, hstream.blockId, hcalls,
      hresults.calls_of_stream hnames hi, handedOver, List.flatMap_def]
  have hlength : (storedUnder hash (puts ++ putCalls calls answers)
      (task.spillName shuffleId i)).length = r.2.length := by
    have hcongr := congrArg List.length hvalues
    rw [List.length_map, List.length_map] at hcongr
    exact hcongr
  have hopens := (Storage.opens_iff
    (k := task.spillName shuffleId i) hholds.indexHolds hfuel ?_).mpr ⟨?_, ?_, ?_⟩
  · rw [hstored] at hopens
    rw [hstream.blockId, hspills]
    exact hopens
  · intro put hput
    have hvalue := List.mem_map_of_mem (f := PutCall.value) hput
    rw [hvalues] at hvalue
    obtain ⟨call, hcall, heq⟩ := List.mem_map.mp hvalue
    rw [← heq]
    exact hstream.counted.value_ne call hcall
  · -- every record of the run takes a byte
    intro hnil
    have hpos := List.length_pos_of_ne_nil (hruns.nonempty run (List.mem_of_getElem? hrun))
    have hbyte := st.roundTrips.byte_per_record (run.2.map .write)
    rw [recordsOf_writes] at hbyte
    rw [storedBytes, hnil, runCalls] at hstored
    rw [← hstored] at hbyte
    exact absurd hbyte (Nat.not_le.mpr hpos)
  · rw [hlength, hcount st.roundTrips.lawful]
    exact hblocks
  · rw [hstored]
    exact hbytes

/-- Every call is under the name of a stream. -/
theorem insertAll_keys (hspilled : st.insertAll task shuffleId = .ok spilled) :
    ∀ call ∈ spilled.2, ∃ i < (st.spillOps task).2, call.key = task.spillName shuffleId i := by
  obtain ⟨runs, hruns⟩ := exists_runs st task
  rw [insertAll, hruns.ops] at hspilled
  obtain ⟨results, hresults, _, hcalls⟩ := createStep_results hspilled
  rw [hcalls, hruns.streams, Nat.zero_add]
  exact hresults.keys

end SortStage

/-! ## The tasks of a job -/

/-- Whose call of `setPartition` it is: that of a map or a reduce task of the job, or of something
else that runs on the executor. -/
inductive Owner where
  | map (mapId : Nat)
  | reduce (task : Nat)
  | other
deriving DecidableEq

def jobTasks (numMaps numReduces : Nat) : Set Owner
  | .map m => m < numMaps
  | .reduce r => r < numReduces
  | .other => True

def jobCalls (mapCalls reduceCalls : Nat → List SetBlock) (others : List SetBlock) :
    Owner → List SetBlock
  | .map m => mapCalls m
  | .reduce r => reduceCalls r
  | .other => others

section

variable {K C S : Type} [DecidableEq K]

/-- `getTempBlockId` has given every stream a number of its own, and the names of the spill blocks
are new to the store. -/
structure SpillNames (st : SortStage K C S) (used : Set String) (puts : List PutCall)
    (shuffleId numReduces : Nat) (tasks : Nat → ReduceTask K C) : Prop where
  names : ∀ r < numReduces, ∀ i < (st.spillOps (tasks r)).2, (tasks r).spillName shuffleId i ∈ used
  fresh : ∀ put ∈ puts, ∀ r < numReduces, ∀ i < (st.spillOps (tasks r)).2,
    put.key ≠ (tasks r).spillName shuffleId i
  tmpId_inj : ∀ r < numReduces, ∀ i < (st.spillOps (tasks r)).2,
    ∀ r' < numReduces, ∀ i' < (st.spillOps (tasks r')).2,
      (tasks r).tmpId i = (tasks r').tmpId i' → r = r' ∧ i = i'

/-- The rest of the executor does not write to the blocks of the job. -/
def Foreign (st : SortStage K C S) (used : Set String) (shuffleId n numMaps numReduces : Nat)
    (tasks : Nat → ReduceTask K C) (others : List SetBlock) : Prop :=
  ∀ call ∈ others, call.key ∈ used ∧
    (∀ m < numMaps, ∀ p < n, call.key ≠ shuffleBlockName shuffleId m p) ∧
    ∀ r < numReduces, ∀ i < (st.spillOps (tasks r)).2, call.key ≠ (tasks r).spillName shuffleId i

/-- The blocks of the range are fetched once each, after the map tasks are done. -/
structure ReduceTask.Fetches (task : ReduceTask K C) (outs : Nat → MapOutput) (numMaps n : Nat)
    (trace : List (Owner × SetBlock)) : Prop where
  end_le : task.endPartition ≤ n
  chunk_pos : ∀ b ∈ task.order, 0 < b.1.2.chunk
  blocks : (task.order.map fun b => b.1.1).Perm
    (blocksToFetch outs numMaps task.startPartition task.endPartition)
  after_maps : ∀ b ∈ task.order, ∀ m < numMaps, DoneAt trace b.2 (.map m)

variable {R S' : Type} {st : SortStage K C S} {hash : String → UInt64} {fuel : Nat}
variable {used : Set String} {kv : Pmemkv} {puts : List PutCall} {ser : SerializerInstance R S'}
variable {deserialize : List UInt8 → List R} {shuffleId n numMaps numReduces : Nat}
variable {ops : Nat → List (Nat × BlockOp R)} {outs : Nat → MapOutput}
variable {written : Nat → Nat → List R} {tasks : Nat → ReduceTask K C}
variable {spilled : Nat → List (NvmBlockOutputStream S) × List SetBlock} {others : List SetBlock}
variable {trace : List (Owner × SetBlock)} {answers : List PutAnswers}

theorem SpillNames.spillName_inj (h : SpillNames st used puts shuffleId numReduces tasks)
    {r i r' i' : Nat} (hr : r < numReduces) (hi : i < (st.spillOps (tasks r)).2)
    (hr' : r' < numReduces) (hi' : i' < (st.spillOps (tasks r')).2)
    (heq : (tasks r).spillName shuffleId i = (tasks r').spillName shuffleId i') :
    r = r' ∧ i = i' := by
  have hid := PmemBlockId.name_inj heq
  rw [PmemBlockId.mk.injEq] at hid
  exact h.tmpId_inj r hr i hi r' hr' i' hi' hid.2

/-- A run of the job: all tasks have finished, and this is the order in which their calls and those
of the rest of the executor reach the store. -/
structure JobRun (st : SortStage K C S) (hash : String → UInt64) (kv : Pmemkv) (used : Set String)
    (puts : List PutCall) (shuffleId n numMaps numReduces : Nat) (outs : Nat → MapOutput)
    (tasks : Nat → ReduceTask K C)
    (spilled : Nat → List (NvmBlockOutputStream S) × List SetBlock) (others : List SetBlock)
    (trace : List (Owner × SetBlock)) (answers : List PutAnswers) : Prop where
  spillNames : SpillNames st used puts shuffleId numReduces tasks
  spilled_ok : ∀ r < numReduces, st.insertAll (tasks r) shuffleId = .ok (spilled r)
  foreign : Foreign st used shuffleId n numMaps numReduces tasks others
  interleaves : Interleaves (jobTasks numMaps numReduces)
    (jobCalls (fun m => (outs m).calls) (fun r => (spilled r).2) others) trace
  accepted : Accepted hash kv (trace.map Prod.snd) answers

/-- Who writes to a block of the job. -/
theorem JobRun.owner_of_key
    (h : JobRun st hash kv used puts shuffleId n numMaps numReduces outs tasks
      spilled others trace answers)
    (hwrote : MapsWrote ser shuffleId n numMaps ops outs written) {c : Owner × SetBlock}
    (hc : c ∈ trace) :
    (∃ m < numMaps, ∃ p < n, c.1 = .map m ∧ c.2.key = shuffleBlockName shuffleId m p) ∨
    (∃ r < numReduces, ∃ i < (st.spillOps (tasks r)).2,
      c.1 = .reduce r ∧ c.2.key = (tasks r).spillName shuffleId i) ∨
    c.2 ∈ others := by
  have htask := h.interleaves.mem_tasks c hc
  have hcall := h.interleaves.mem_calls hc
  obtain ⟨o, call⟩ := c
  cases o with
  | map m =>
    obtain ⟨p, hp, hkey⟩ := (hwrote.finishes m htask).keys call hcall
    exact .inl ⟨m, htask, p, hp, rfl, hkey⟩
  | reduce r =>
    obtain ⟨i, hi, hkey⟩ := SortStage.insertAll_keys (h.spilled_ok r htask) call hcall
    exact .inr (.inl ⟨r, htask, i, hi, rfl, hkey⟩)
  | other => exact .inr (.inr hcall)

section

variable (h : JobRun st hash kv used puts shuffleId n numMaps numReduces outs tasks spilled others
  trace answers) (hwrote : MapsWrote ser shuffleId n numMaps ops outs written)

include h hwrote

theorem JobRun.key_used (hnew : NewNames hash used puts shuffleId n numMaps) :
    ∀ c ∈ trace, c.2.key ∈ used := by
  intro c hc
  rcases h.owner_of_key hwrote hc with ⟨m, hm, p, hp, _, hkey⟩ | ⟨r, hr, i, hi, _, hkey⟩ | hother
  · rw [hkey]
    exact hnew.names m hm p hp
  · rw [hkey]
    exact h.spillNames.names r hr i hi
  · exact (h.foreign c.2 hother).1

/-- The block of a map task is written by this task only. -/
theorem JobRun.owner_of_map {c : Owner × SetBlock} (hc : c ∈ trace) {m p : Nat} (hm : m < numMaps)
    (hp : p < n) (hkey : c.2.key = shuffleBlockName shuffleId m p) : c.1 = .map m := by
  rcases h.owner_of_key hwrote hc with ⟨m', _, p', _, howner, hkey'⟩ |
    ⟨r, _, i, _, _, hkey'⟩ | hother
  · rw [howner, (shuffleBlockName_inj (hkey'.symm.trans hkey)).2.1]
  · have hname := hkey'.symm.trans hkey
    rw [shuffleBlockName_eq] at hname
    exact absurd hname (PmemBlockId.name_ne _ _)
  · exact absurd hkey ((h.foreign c.2 hother).2.1 m hm p hp)

/-- The spill block of a reduce task is written by this task only. -/
theorem JobRun.owner_of_reduce {c : Owner × SetBlock} (hc : c ∈ trace) {r i : Nat}
    (hr : r < numReduces) (hi : i < (st.spillOps (tasks r)).2)
    (hkey : c.2.key = (tasks r).spillName shuffleId i) : c.1 = .reduce r := by
  rcases h.owner_of_key hwrote hc with ⟨m, _, p, _, _, hkey'⟩ | ⟨r', hr', i', hi', howner, hkey'⟩ |
    hother
  · have hname := hkey.symm.trans hkey'
    rw [shuffleBlockName_eq] at hname
    exact absurd hname (PmemBlockId.name_ne _ _)
  · rw [howner, (h.spillNames.spillName_inj hr' hi' hr hi (hkey'.symm.trans hkey)).1]
  · exact absurd hkey ((h.foreign c.2 hother).2.2 r hr i hi)

/-- From the moment on at which the map tasks are done, the store has their blocks. -/
theorem JobRun.mapsDone (hnew : NewNames hash used puts shuffleId n numMaps)
    (hholds : Holds hash kv puts) {i : Nat} (hdone : ∀ m < numMaps, DoneAt trace i (.map m)) :
    ∃ kv', storeAt hash kv trace answers i = some kv' ∧
      MapsDone hash kv' (puts ++ putCalls ((trace.take i).map Prod.snd) (answers.take i)) ser
        shuffleId n numMaps ops outs written := by
  obtain ⟨kv', hstore, hholds'⟩ := h.accepted.storeAt hholds i
  obtain ⟨calls', hprefix, hcalls⟩ := h.interleaves.take i
  refine ⟨kv', hstore, hwrote.done hnew hprefix
    (fun c hc => h.key_used hwrote hnew c (List.mem_of_mem_take hc)) .map
    (fun m hm => ⟨hm, hcalls _ hm (hdone m hm)⟩)
    (fun c hc m hm p hp hkey => h.owner_of_map hwrote (List.mem_of_mem_take hc) hm hp hkey)
    (h.accepted.take i).length hholds'⟩

/-- The fetches of a reduce task, whatever else happens in between. -/
theorem JobRun.fetchDuring (hnew : NewNames hash used puts shuffleId n numMaps)
    (hser : ser.RoundTrips deserialize) (hholds : Holds hash kv puts)
    (hfuel : puts.length + answers.length ≤ fuel) {task : ReduceTask K C}
    (hfetch : task.Fetches outs numMaps n trace) :
    ∃ fetched, fetchDuring hash fuel (storeAt hash kv trace answers) deserialize shuffleId
        task.order = some fetched ∧
      fetched.Perm (writtenIn written numMaps task.startPartition task.endPartition) := by
  have hblock : ∀ b ∈ task.order, b.1.1.1 < numMaps → b.1.1.2 < n →
      (outs b.1.1.1).partitionLengths[b.1.1.2]? ≠ some 0 →
      ∃ bytes, ((storeAt hash kv trace answers b.2).bind fun kv =>
          fetchBlock hash fuel kv b.1.2 (shuffleBlockName shuffleId b.1.1.1 b.1.1.2)) = some bytes ∧
        deserialize bytes = written b.1.1.1 b.1.1.2 := by
    intro b hb hm hp hpos
    obtain ⟨kv', hstore, hdone⟩ := h.mapsDone hwrote hnew hholds (hfetch.after_maps b hb)
    rw [hstore, Option.bind_some]
    exact hdone.fetchBlock hser (length_puts_le hfuel b.2) hm hp hpos (hfetch.chunk_pos b hb)
  obtain ⟨blocks, hblocks, hperm⟩ := hwrote.fetched_perm hser hfetch.end_le hfetch.blocks hblock
  refine ⟨blocks.flatMap deserialize, ?_, hperm⟩
  rw [Shuffle.fetchDuring, hblocks, Option.map_some]

/-- From the moment on at which a reduce task has made its calls, it can read its streams. -/
theorem JobRun.opens (hnew : NewNames hash used puts shuffleId n numMaps)
    (hholds : Holds hash kv puts) (hfuel : puts.length + answers.length ≤ fuel) {r : Nat}
    (hr : r < numReduces) (hfit : st.SpillsFit (tasks r)) {i : Nat}
    (hdone : DoneAt trace i (.reduce r)) :
    ∃ kv', storeAt hash kv trace answers i = some kv' ∧
      ∀ b ∈ (spilled r).1, OpensWith hash fuel kv' b.blockId (spilledBytes (spilled r).2 b) := by
  obtain ⟨kv', hstore, hholds'⟩ := h.accepted.storeAt hholds i
  obtain ⟨calls', hprefix, hcalls⟩ := h.interleaves.take i
  refine ⟨kv', hstore, SortStage.opens hfit (h.spilled_ok r hr)
    (fun j hj j' hj' heq => (h.spillNames.spillName_inj hr hj hr hj' heq).2)
    (fun j hj => storedUnder_fresh hnew.inj hnew.puts_used (h.spillNames.names r hr j hj)
      fun put hput => h.spillNames.fresh put hput r hr j hj)
    (fun j hj => ?_) (h.accepted.take i).length hholds' (length_puts_le hfuel i)⟩
  have hown := hprefix.calls_of_block (o := .reduce r) hr hnew.inj
    (fun c hc => h.key_used hwrote hnew c (List.mem_of_mem_take hc)) (h.spillNames.names r hr j hj)
    fun c hc hkey => h.owner_of_reduce hwrote (List.mem_of_mem_take hc) hr hj hkey
  rw [hcalls (.reduce r) hr hdone] at hown
  exact hown

end

end

/-! ## The result -/

/-- What `read` returns for a reduce task that inserts `inserted` into its sorter: these in the
order of their keys, with streams that can be read from the moment on at which they are written. -/
def ReadsSorted {K C S : Type} [DecidableEq K] (st : SortStage K C S) (hash : String → UInt64)
    (fuel : Nat) (stores : Nat → Option Pmemkv) (doneAt : Nat → Prop) (task : ReduceTask K C)
    (spilled : List (NvmBlockOutputStream S) × List SetBlock) (inserted : List (K × C)) : Prop :=
  ∃ out, st.iterator task spilled = some out ∧ out.Perm inserted ∧ KeySorted st.ordering out ∧
    ∀ i, doneAt i → ∃ kv', stores i = some kv' ∧
      ∀ b ∈ spilled.1, OpensWith hash fuel kv' b.blockId (spilledBytes spilled.2 b)

/-- For every number of map and reduce tasks, all records, every partitioner, every lawful ordering
of the keys and every history of the store that does not touch the blocks of this job: if all
streams fit into the 6 MiB buffer before every call and stay below `2 ^ 30` blocks and `2 ^ 31`
bytes, then all tasks finish their writes, and for every order in which their calls and those of
the rest of the executor reach the store, every order and all moments after the map stage at which
blocks are fetched, and every schedule of spills, each reduce task gets the records of its range
and returns what becomes of them in `aggregatedIter`, sorted by key. -/
theorem job_sorts {K V C S S' : Type} [DecidableEq K] (hash : String → UInt64) (fuel : Nat)
    (service : Service) (root : Nat) (history : List Op) (kv : Pmemkv) (used : Set String)
    (ser : SerializerInstance (K × V) S) (deserialize : List UInt8 → List (K × V)) (t : Int)
    (getPartition : K → Nat) (shuffleId numMaps n : Nat) (data : Nat → Nat → Mem)
    (records : Nat → List (K × V)) (st : SortStage K C S')
    (aggregatedIter : List (K × V) → List (K × C)) (numReduces : Nat)
    (tasks : Nat → ReduceTask K C)
    (hroot : service.Grants sizeofBase root) (hfuel : history.length ≤ fuel)
    (hok : Admissible (Pmemkv.step hash fuel) (Pmemkv.Ok hash) (Pmemkv.create service root) history)
    (hkv : run (Pmemkv.step hash fuel) (Pmemkv.create service root) history = some kv)
    (hnew : NewNames hash used (live history) shuffleId n numMaps)
    (hser : ser.RoundTrips deserialize)
    (hpart : ∀ m < numMaps, ∀ record ∈ records m, getPartition record.1 < n)
    (hfits : ∀ m < numMaps, ∀ p < n, Fits ser t (partitionOps getPartition (records m) p) ∧
      blockCount ser t (partitionOps getPartition (records m) p) < 2 ^ 30 ∧
      (emitted ser (partitionOps getPartition (records m) p)).length < 2 ^ 31)
    (hspills : ∀ r < numReduces, st.SpillsFit (tasks r)) :
    ∃ (outs : Nat → MapOutput) (spilled : Nat → List (NvmBlockOutputStream S') × List SetBlock),
      (∀ m < numMaps, write ser t getPartition shuffleId m n (data m) (records m) = .ok (outs m)) ∧
      (∀ r < numReduces, st.insertAll (tasks r) shuffleId = .ok (spilled r)) ∧
      ∀ others trace answers,
        JobRun st hash kv used (live history) shuffleId n numMaps numReduces outs tasks spilled
          others trace answers →
        history.length + answers.length ≤ fuel →
        ∀ r < numReduces, (tasks r).Fetches outs numMaps n trace →
          ∃ fetched, fetchDuring hash fuel (storeAt hash kv trace answers) deserialize shuffleId
              (tasks r).order = some fetched ∧
            PlainInput getPartition (tasks r).startPartition (tasks r).endPartition
              (allRecords records numMaps) fetched ∧
            ((tasks r).input.map Prod.fst = aggregatedIter fetched →
              ReadsSorted st hash fuel (storeAt hash kv trace answers)
                (DoneAt trace · (.reduce r)) (tasks r) (spilled r) (aggregatedIter fetched)) := by
  obtain ⟨kv₁, hrun, hholds⟩ := run_holds hroot hfuel hok
  rw [hkv, Option.some.injEq] at hrun
  subst hrun
  have hlive := length_live_le history
  obtain ⟨outs, houts⟩ := exists_outs fun m hm =>
    (write_ok_iff ser t shuffleId m (data m) (hpart m hm)).mpr fun p hp => (hfits m hm p hp).1
  obtain ⟨spilled, hspilled⟩ := exists_outs fun r hr => (hspills r hr).insertAll_ok shuffleId
  have hwrote := mapsWrote_write hser.lawful houts fun m hm p hp => (hfits m hm p hp).2
  refine ⟨outs, spilled, houts, hspilled, fun others trace answers hjob hlen r hr hfetch => ?_⟩
  have hputs : (live history).length + answers.length ≤ fuel := by omega
  obtain ⟨fetched, hfetched, hperm⟩ := hjob.fetchDuring hwrote hnew hser hholds hputs hfetch
  refine ⟨fetched, hfetched, plainInput_of_perm
    (hperm.trans (writtenIn_partitionRecords getPartition records _ _ _)), fun hinput => ?_⟩
  obtain ⟨out, hout, houtPerm, hsorted⟩ := SortStage.iterator_sorted (hspills r hr) (hspilled r hr)
    fun i hi j hj heq => (hjob.spillNames.spillName_inj hr hi hr hj heq).2
  rw [hinput] at houtPerm
  exact ⟨out, hout, houtPerm, hsorted, fun i hdone =>
    hjob.opens hwrote hnew hholds hputs hr (hspills r hr) hdone⟩

/-! ## A sample job -/

/-- `xxh::xxhash<64>` on the names of the sample. -/
def sortHash : String → UInt64 := fun key =>
  if key = "shuffle_0_0_0" then 0x3d4e7efaebc2a367
  else if key = "shuffle_0_1_0" then 0x2db8a6c2a9a0bead
  else if key = "reduce_spill_0_0" then 0xbe6822f825018694
  else 0xba5e317b43ceb46b

def sortNames : Set String :=
  {"shuffle_0_0_0", "shuffle_0_1_0", "reduce_spill_0_0", "shuffle_1_0_0"}

theorem sortHash_injOn : Set.InjOn sortHash sortNames := by
  intro k hk k' hk' heq
  rcases hk with rfl | rfl | rfl | rfl <;> rcases hk' with rfl | rfl | rfl | rfl <;>
    first | rfl | exact absurd heq (by decide)

theorem sortNames_new : NewNames sortHash sortNames [] 0 1 2 where
  inj := sortHash_injOn
  puts_used := by simp
  names := by
    intro m hm p hp
    obtain rfl : p = 0 := by omega
    obtain rfl | rfl : m = 0 ∨ m = 1 := by omega
    · exact .inl (by decide)
    · exact .inr (.inl (by decide))
  fresh := by simp

/-- Two tasks with 16 and 17 records, in the wrong order. -/
def sortRecords (m : Nat) : List (UInt8 × Unit) :=
  if m = 0 then (List.range 16).map fun i => (UInt8.ofNat (40 - i), ())
  else (List.range 17).map fun i => (UInt8.ofNat (2 * i), ())

def sortStage : SortStage UInt8 Unit Unit where
  ser := byteSerializer
  deserialize bytes := bytes.map fun b => (b, ())
  roundTrips := byteSerializer_roundTrips
  spillThrottle := 4194304
  ordering a b := (a.toNat : Int) - b.toNat
  lawful := ⟨fun a b => by omega, fun a b c hab hbc => by omega⟩
  hashCode a := a.toNat
  inMemoryCollectionSizeThreshold := 5242880
  sorted := sortEntries
  sorts := sortEntries_sorts
  pq := iterQueue ⟨fun a b => by omega, fun a b c hab hbc => by omega⟩

/-- The reduce task fetches the second block first, and spills after 32 records. -/
def sortTask : ReduceTask UInt8 Unit where
  startPartition := 0
  endPartition := 1
  order := [(((1, 0), ⟨true, 1, ⟨⟨fun _ => 0, 0⟩, fun _ => 0, fun _ _ => 0⟩⟩), 3),
    (((0, 0), ⟨false, 5, ⟨⟨fun _ => 0, 0⟩, fun _ => 0, fun _ _ => 0⟩⟩), 4)]
  input := (sortRecords 1 ++ sortRecords 0).map fun record => (record, 5242880)
  tmpId i := i
  data _ _ := 0

/-- Another shuffle writes a block between the two map tasks. -/
def sortTrace : List (Owner × SetBlock) :=
  [(.map 0, ⟨"shuffle_0_0_0", (sortRecords 0).map Prod.fst, true⟩),
    (.other, ⟨"shuffle_1_0_0", [9], true⟩),
    (.map 1, ⟨"shuffle_0_1_0", (sortRecords 1).map Prod.fst, true⟩),
    (.reduce 0, ⟨"reduce_spill_0_0",
      [0, 2, 4, 6, 8, 10, 12, 14, 16, 18, 20, 22, 24, 26, 26, 27, 28, 28, 29, 30, 30, 31, 32, 32,
        33, 34, 35, 36, 37, 38, 39, 40], true⟩)]

theorem sortTask_streams : (sortStage.spillOps sortTask).2 = 1 := by decide +kernel

theorem sortTask_spillName : sortTask.spillName 0 0 = "reduce_spill_0_0" := by decide

theorem sortRecords_fit : ∀ m < 2, ∀ p < 1,
    Fits byteSerializer 4194304 (partitionOps (fun _ => 0) (sortRecords m) p) ∧
      blockCount byteSerializer 4194304 (partitionOps (fun _ => 0) (sortRecords m) p) < 2 ^ 30 ∧
      (emitted byteSerializer (partitionOps (fun _ => 0) (sortRecords m) p)).length < 2 ^ 31 := by
  intro m hm p hp
  refine ⟨fits_byteSerializer _, ?_⟩
  obtain rfl : p = 0 := by omega
  obtain rfl | rfl : m = 0 ∨ m = 1 := by omega
  · decide
  · decide

theorem sortTask_fits : sortStage.SpillsFit sortTask := by
  intro i hi
  rw [sortTask_streams] at hi
  obtain rfl : i = 0 := by omega
  exact ⟨fits_byteSerializer _, by decide +kernel, by decide +kernel⟩

section

variable {outs : Nat → MapOutput}
variable {spilled : Nat → List (NvmBlockOutputStream Unit) × List SetBlock}

/-- What the map tasks report and hand over. -/
theorem sortOuts (houts : ∀ m < 2, write byteSerializer 4194304 (fun _ => 0) 0 m 1
      (fun _ _ => 0) (sortRecords m) = .ok (outs m)) :
    ∀ m < 2, (outs m).partitionLengths[0]? = some (if m = 0 then 16 else 17) ∧
      (outs m).calls = (sortTrace.filter fun c => c.1 = .map m).map Prod.snd := by
  intro m hm
  have hdec : (write byteSerializer 4194304 (fun _ => 0) 0 m 1 (fun _ _ => 0)
      (sortRecords m)).toOption.map (fun out => (out.partitionLengths[0]?, out.calls)) =
        some (some (if m = 0 then 16 else 17),
          (sortTrace.filter fun c => c.1 = .map m).map Prod.snd) := by
    obtain rfl | rfl : m = 0 ∨ m = 1 := by omega
    · decide
    · decide
  have hpair := map_of_toOption (houts m hm) hdec
  exact Prod.mk.inj hpair

/-- What the reduce task spills. -/
theorem sortSpilled (hspilled : ∀ r < 1, sortStage.insertAll sortTask 0 = .ok (spilled r)) :
    (spilled 0).2 = (sortTrace.filter fun c => c.1 = .reduce 0).map Prod.snd := by
  have hdec : (sortStage.insertAll sortTask 0).toOption.map Prod.snd =
      some ((sortTrace.filter fun c => c.1 = .reduce 0).map Prod.snd) := by
    decide +kernel
  exact map_of_toOption (hspilled 0 Nat.zero_lt_one) hdec

theorem sortSpillNames : SpillNames sortStage sortNames [] 0 1 fun _ => sortTask where
  names := by
    intro r _ i hi
    rw [sortTask_streams] at hi
    obtain rfl : i = 0 := by omega
    rw [sortTask_spillName]
    exact .inr (.inr (.inl rfl))
  fresh := by simp
  tmpId_inj := by
    intro r hr i hi r' hr' i' hi' _
    rw [sortTask_streams] at hi hi'
    omega

theorem sortOthers_foreign :
    Foreign sortStage sortNames 0 1 2 1 (fun _ => sortTask) [⟨"shuffle_1_0_0", [9], true⟩] := by
  intro call hcall
  rw [List.mem_singleton.mp hcall]
  refine ⟨.inr (.inr (.inr rfl)), ?_, ?_⟩
  · intro m hm p hp
    obtain rfl : p = 0 := by omega
    obtain rfl | rfl : m = 0 ∨ m = 1 := by omega
    · decide
    · decide
  · intro r _ i hi
    rw [sortTask_streams] at hi
    obtain rfl : i = 0 := by omega
    rw [sortTask_spillName]
    decide

theorem sortTrace_interleaves
    (houts : ∀ m < 2,
      (outs m).calls = (sortTrace.filter fun c => c.1 = .map m).map Prod.snd)
    (hspilled : (spilled 0).2 = (sortTrace.filter fun c => c.1 = .reduce 0).map Prod.snd) :
    Interleaves (jobTasks 2 1)
      (jobCalls (fun m => (outs m).calls) (fun r => (spilled r).2) [⟨"shuffle_1_0_0", [9], true⟩])
      sortTrace := by
  constructor
  · intro c hc
    simp only [sortTrace, List.mem_cons, List.not_mem_nil, or_false] at hc
    rcases hc with rfl | rfl | rfl | rfl
    · exact Nat.zero_lt_two
    · trivial
    · exact Nat.one_lt_two
    · exact Nat.zero_lt_one
  · intro o ho
    cases o with
    | map m => exact (houts m ho).symm
    | reduce r =>
      obtain rfl : r = 0 := Nat.lt_one_iff.mp ho
      exact hspilled.symm
    | other => rfl

end

/-- The records arrive in the order in which the blocks are fetched. -/
theorem sortTask_fetched :
    fetchDuring sortHash 4
      (storeAt sortHash (Pmemkv.create sampleService 4096) sortTrace jobAnswers)
      (fun bytes => bytes.map fun b => (b, ())) 0 sortTask.order =
        some (sortRecords 1 ++ sortRecords 0) := by
  decide

theorem job_sorts_sample :
    ∃ (outs : Nat → MapOutput) (spilled : List (NvmBlockOutputStream Unit) × List SetBlock)
      (fetched : List (UInt8 × Unit)),
      (∀ m < 2, write byteSerializer 4194304 (fun _ => 0) 0 m 1 (fun _ _ => 0) (sortRecords m) =
        .ok (outs m)) ∧
      sortStage.insertAll sortTask 0 = .ok spilled ∧
      fetchDuring sortHash 4
        (storeAt sortHash (Pmemkv.create sampleService 4096) sortTrace jobAnswers)
        (fun bytes => bytes.map fun b => (b, ())) 0 sortTask.order = some fetched ∧
      PlainInput (fun _ => 0) 0 1 (allRecords sortRecords 2) fetched ∧
      ReadsSorted sortStage sortHash 4
        (storeAt sortHash (Pmemkv.create sampleService 4096) sortTrace jobAnswers)
        (DoneAt sortTrace · (.reduce 0)) sortTask spilled fetched := by
  obtain ⟨outs, spilled, houts, hspilled, hall⟩ := job_sorts sortHash 4 sampleService 4096 [] _
    sortNames byteSerializer (fun bytes => bytes.map fun b => (b, ())) 4194304 (fun _ => 0) 0 2 1
    (fun _ _ _ => 0) sortRecords sortStage id 1 (fun _ => sortTask) (by decide) (by decide) trivial
    rfl sortNames_new byteSerializer_roundTrips (fun _ _ _ _ => Nat.zero_lt_one) sortRecords_fit
    fun _ _ => sortTask_fits
  have hout := sortOuts houts
  have hjob : JobRun sortStage sortHash (Pmemkv.create sampleService 4096) sortNames [] 0 1 2 1 outs
      (fun _ => sortTask) spilled [⟨"shuffle_1_0_0", [9], true⟩] sortTrace jobAnswers :=
    ⟨sortSpillNames, hspilled, sortOthers_foreign,
      sortTrace_interleaves (fun m hm => (hout m hm).2) (sortSpilled hspilled), rfl,
      by decide⟩
  have hblocks : blocksToFetch outs 2 0 1 = [(0, 0), (1, 0)] := by
    simp [blocksToFetch, List.range_succ, (hout 0 (by decide)).1, (hout 1 (by decide)).1]
  obtain ⟨fetched, hfetched, hinput, hsorted⟩ := hall [⟨"shuffle_1_0_0", [9], true⟩] sortTrace
    jobAnswers hjob (by decide) 0 Nat.zero_lt_one ⟨Nat.le_refl 1, by decide, by
      show (sortTask.order.map fun b => b.1.1).Perm (blocksToFetch outs 2 0 1)
      rw [hblocks]
      exact List.Perm.swap _ _ _, by decide⟩
  have hrecords : fetched = sortRecords 1 ++ sortRecords 0 :=
    Option.some.inj (hfetched.symm.trans sortTask_fetched)
  refine ⟨outs, spilled 0, fetched, houts, hspilled 0 Nat.zero_lt_one, hfetched, hinput,
    hsorted ?_⟩
  rw [hrecords]
  decide

end SparkNvm.Shuffle
