import SparkNvm.Shuffle.Reader
import SparkNvm.Shuffle.ReduceSide

/-!
# A whole shuffle

Any number of map tasks write into one store, their calls of `setPartition` in any order among
each other, and a reducer fetches the blocks of its partitions in any order.

* `Interleaves` is the order in which the calls reach the store, and `MapsWrote.done` says that it
  does not matter.
* `job_delivers`: the reducer gets the records of its partitions.
* `job_combines`: with an aggregator it gets the aggregates, with map-side combine or without.
-/

namespace SparkNvm.Shuffle

open Lib Native Storage

/-! ## The map stage -/

/-- The calls of all tasks as they reach the store, each with the task that made it. -/
structure Interleaves {ω : Type} [DecidableEq ω] (tasks : Set ω) (calls : ω → List SetBlock)
    (trace : List (ω × SetBlock)) : Prop where
  mem_tasks : ∀ c ∈ trace, c.1 ∈ tasks
  own : ∀ o ∈ tasks, (trace.filter fun c => c.1 = o).map Prod.snd = calls o

/-- The names of the blocks are new to the store, and no two of them have one hash. -/
structure NewNames (hash : String → UInt64) (used : Set String) (puts : List PutCall)
    (shuffleId n numMaps : Nat) : Prop where
  inj : Set.InjOn hash used
  puts_used : ∀ put ∈ puts, put.key ∈ used
  names : ∀ m < numMaps, ∀ p < n, shuffleBlockName shuffleId m p ∈ used
  fresh : ∀ put ∈ puts, ∀ m < numMaps, ∀ p < n, put.key ≠ shuffleBlockName shuffleId m p

section

variable {ω : Type} [DecidableEq ω] {tasks : Set ω} {calls : ω → List SetBlock}
variable {trace : List (ω × SetBlock)} {o : ω}

theorem Interleaves.mem_calls (h : Interleaves tasks calls trace) {c : ω × SetBlock}
    (hc : c ∈ trace) : c.2 ∈ calls c.1 := by
  rw [← h.own c.1 (h.mem_tasks c hc)]
  exact List.mem_map_of_mem (List.mem_filter.mpr ⟨hc, by simp⟩)

/-- What reaches a block that only one task writes are the calls of this task, in order. -/
theorem Interleaves.calls_of_block (h : Interleaves tasks calls trace) (ho : o ∈ tasks)
    {hash : String → UInt64} {used : Set String} (hinj : Set.InjOn hash used)
    (hused : ∀ c ∈ trace, c.2.key ∈ used) {k : String} (hk : k ∈ used)
    (hown : ∀ c ∈ trace, c.2.key = k → c.1 = o) :
    (trace.map Prod.snd).filter (fun call => hash call.key = hash k) =
      (calls o).filter fun call => call.key = k := by
  rw [← h.own o ho, List.filter_map, List.filter_map, List.filter_filter]
  congr 1
  apply List.filter_congr
  intro c hc
  simp only [Function.comp_apply, ← Bool.decide_and, decide_eq_decide]
  constructor
  · intro heq
    have hname := hinj (hused c hc) hk heq
    exact ⟨hname, hown c hc hname⟩
  · rintro ⟨hname, _⟩
    rw [hname]

end

theorem length_putCalls_le (calls : List SetBlock) (answers : List PutAnswers) :
    (putCalls calls answers).length ≤ answers.length := by
  rw [putCalls, List.length_map, List.length_zip]
  exact Nat.min_le_right _ _

section

variable {R S ω : Type} [DecidableEq ω] {tasks : Set ω} {calls : ω → List SetBlock}
variable {hash : String → UInt64} {used : Set String} {kv : Pmemkv} {puts : List PutCall}
variable {ser : SerializerInstance R S} {shuffleId n numMaps m p : Nat}
variable {ops : Nat → List (Nat × BlockOp R)} {outs : Nat → MapOutput}
variable {written : Nat → Nat → List R} {trace : List (ω × SetBlock)} {answers : List PutAnswers}

/-- Once all calls of the map tasks have reached the store, in whatever order among them and
whatever else was stored there under other names. -/
theorem MapsWrote.done (h : MapsWrote ser shuffleId n numMaps ops outs written)
    (hnew : NewNames hash used puts shuffleId n numMaps)
    (htrace : Interleaves tasks calls trace) (hused : ∀ c ∈ trace, c.2.key ∈ used) (task : Nat → ω)
    (htask : ∀ m < numMaps, task m ∈ tasks ∧ calls (task m) = (outs m).calls)
    (hown : ∀ c ∈ trace, ∀ m < numMaps, ∀ p < n, c.2.key = shuffleBlockName shuffleId m p →
      c.1 = task m)
    (hlen : answers.length = (trace.map Prod.snd).length)
    (hholds : Holds hash kv (puts ++ putCalls (trace.map Prod.snd) answers)) :
    MapsDone hash kv (puts ++ putCalls (trace.map Prod.snd) answers) ser shuffleId n numMaps ops
      outs written := by
  have hnone : ∀ m < numMaps, ∀ p < n,
      storedUnder hash puts (shuffleBlockName shuffleId m p) = [] := fun m hm p hp =>
    storedUnder_fresh hnew.inj hnew.puts_used (hnew.names m hm p hp) fun put hput =>
      hnew.fresh put hput m hm p hp
  have hcalls : ∀ m < numMaps, ∀ p < n,
      (trace.map Prod.snd).filter
          (fun call => hash call.key = hash (shuffleBlockName shuffleId m p)) =
        (outs m).calls.filter fun call => call.key = shuffleBlockName shuffleId m p := by
    intro m hm p hp
    rw [← (htask m hm).2]
    exact htrace.calls_of_block (htask m hm).1 hnew.inj hused (hnew.names m hm p hp)
      fun c hc hkey => hown c hc m hm p hp hkey
  refine ⟨h, hholds.indexHolds, fun m hm p hp => ?_⟩
  rw [storedUnder_append, hnone m hm p hp, List.nil_append, storedUnder_putCalls hlen,
    hcalls m hm p hp]

end

/-- What the reducer for a range of partitions gets from the store, whatever the order and the
way in which the blocks arrive. -/
def Delivered {R : Type} (hash : String → UInt64) (fuel : Nat) (kv : Pmemkv)
    (deserialize : List UInt8 → List R) (shuffleId n numMaps : Nat) (outs : Nat → MapOutput)
    (P : Nat → Nat → List R → Prop) : Prop :=
  ∀ startPartition endPartition (order : List ((Nat × Nat) × Fetch)), endPartition ≤ n →
    (∀ b ∈ order, 0 < b.2.chunk) →
    (order.map Prod.fst).Perm (blocksToFetch outs numMaps startPartition endPartition) →
    ∃ records, fetchAll hash fuel kv deserialize shuffleId order = some records ∧
      P startPartition endPartition records

theorem Delivered.mono {R : Type} {hash : String → UInt64} {fuel : Nat} {kv : Pmemkv}
    {deserialize : List UInt8 → List R} {shuffleId n numMaps : Nat} {outs : Nat → MapOutput}
    {P Q : Nat → Nat → List R → Prop}
    (h : Delivered hash fuel kv deserialize shuffleId n numMaps outs P)
    (hPQ : ∀ startPartition endPartition records, endPartition ≤ n →
      P startPartition endPartition records → Q startPartition endPartition records) :
    Delivered hash fuel kv deserialize shuffleId n numMaps outs Q := by
  intro startPartition endPartition order hend hchunk horder
  obtain ⟨records, hrecords, hP⟩ := h startPartition endPartition order hend hchunk horder
  exact ⟨records, hrecords, hPQ _ _ _ hend hP⟩

/-- The calls of finished tasks, in any order among them, and then any fetch. -/
theorem MapsWrote.delivered {R S : Type} {hash : String → UInt64} {fuel : Nat}
    {used : Set String} {kv : Pmemkv} {puts : List PutCall} {ser : SerializerInstance R S}
    {deserialize : List UInt8 → List R} {shuffleId n numMaps : Nat}
    {ops : Nat → List (Nat × BlockOp R)} {outs : Nat → MapOutput} {written : Nat → Nat → List R}
    {trace : List (Nat × SetBlock)} {answers : List PutAnswers}
    (h : MapsWrote ser shuffleId n numMaps ops outs written)
    (htrace : Interleaves {m | m < numMaps} (fun m => (outs m).calls) trace)
    (hnew : NewNames hash used puts shuffleId n numMaps) (hser : ser.RoundTrips deserialize)
    (hholds : Holds hash kv puts) (ha : Accepted hash kv (trace.map Prod.snd) answers)
    (hfuel : puts.length + answers.length ≤ fuel) :
    ∃ kv', setBlocks hash kv ((trace.map Prod.snd).zip answers) = some kv' ∧
      Delivered hash fuel kv' deserialize shuffleId n numMaps outs
        fun startPartition endPartition records =>
          records.Perm (writtenIn written numMaps startPartition endPartition) := by
  obtain ⟨kv', hset, hholds'⟩ := ha.holds hholds
  have hkeys : ∀ c ∈ trace, ∃ q < n, c.2.key = shuffleBlockName shuffleId c.1 q := fun c hc =>
    (h.finishes c.1 (htrace.mem_tasks c hc)).keys c.2 (htrace.mem_calls hc)
  have hdone := h.done hnew htrace (fun c hc => by
      obtain ⟨q, hq, hkey⟩ := hkeys c hc
      rw [hkey]
      exact hnew.names c.1 (htrace.mem_tasks c hc) q hq) id (fun m hm => ⟨hm, rfl⟩)
    (fun c hc m _ p _ hname => by
      obtain ⟨q, _, hkey⟩ := hkeys c hc
      exact (shuffleBlockName_inj (hkey.symm.trans hname)).2.1) ha.length hholds'
  have hfuel' : (puts ++ putCalls (trace.map Prod.snd) answers).length ≤ fuel := by
    have hle := length_putCalls_le (trace.map Prod.snd) answers
    rw [List.length_append]
    omega
  exact ⟨kv', hset, fun startPartition endPartition order hend hchunk horder =>
    hdone.fetchAll_perm hser hfuel' hend hchunk horder⟩

/-- Tasks that end every stream forced, with blocks that can be read back. -/
theorem mapsWrote_of_forced {R S : Type} {ser : SerializerInstance R S} {t : Int}
    {shuffleId n numMaps : Nat} {data : Nat → Nat → Mem} {ops : Nat → List (Nat × BlockOp R)}
    {outs : Nat → MapOutput} {written : Nat → Nat → List R} (hser : ser.Lawful)
    (houts : ∀ m < numMaps, writeWith ser t shuffleId m n (data m) (ops m) = .ok (outs m))
    (hforced : ∀ m < numMaps, ∀ p < n, WritesForced (opsAt p (ops m)) (written m p))
    (hsmall : ∀ m < numMaps, ∀ p < n, blockCount ser t (opsAt p (ops m)) < 2 ^ 30 ∧
      (emitted ser (opsAt p (ops m))).length < 2 ^ 31) :
    MapsWrote ser shuffleId n numMaps ops outs written := by
  refine ⟨fun m hm => writeWith_finishes (houts m hm), hforced, fun m hm p hp hcalled => ?_,
    fun m hm p hp => (hsmall m hm p hp).2⟩
  obtain ⟨before, hbefore⟩ := (hforced m hm p hp).forced.resolve_left hcalled
  have hlast : (opsAt p (ops m)).getLast? = some (.maybeSpill true) := by
    rw [hbefore, List.getLast?_concat]
  rw [writeWith_blockCount hser (houts m hm) hp hlast rfl]
  exact (hsmall m hm p hp).1

instance : Inhabited MapOutput := ⟨⟨[], []⟩⟩

theorem exists_outs {ε α : Type} [Inhabited α] {numTasks : Nat} {task : Nat → Except ε α}
    (h : ∀ m < numTasks, ∃ out, task m = .ok out) :
    ∃ outs : Nat → α, ∀ m < numTasks, task m = .ok (outs m) := by
  have hall : ∀ m, ∃ out, m < numTasks → task m = .ok out := by
    intro m
    by_cases hm : m < numTasks
    · obtain ⟨out, hout⟩ := h m hm
      exact ⟨out, fun _ => hout⟩
    · exact ⟨default, fun hlt => absurd hlt hm⟩
  choose outs houts using hall
  exact ⟨outs, houts⟩

/-! ## The records of a reducer -/

section

variable {K V S : Type}

/-- The records of all map tasks. -/
def allRecords {R : Type} (records : Nat → List R) (numMaps : Nat) : List R :=
  (List.range numMaps).flatMap records

/-- The records whose partition is in the range of a reducer. -/
def recordsIn (getPartition : K → Nat) (startPartition endPartition : Nat)
    (records : List (K × V)) : List (K × V) :=
  records.filter fun record =>
    startPartition ≤ getPartition record.1 ∧ getPartition record.1 < endPartition

/-- The partitions of the range, one after the other. -/
theorem flatMap_partitionRecords (getPartition : K → Nat) (records : List (K × V))
    (startPartition len : Nat) :
    ((List.range' startPartition len).flatMap (partitionRecords getPartition records)).Perm
      (recordsIn getPartition startPartition (startPartition + len) records) := by
  induction len with
  | zero =>
    rw [recordsIn, List.filter_eq_nil_iff.mpr fun record _ => by simp]
    exact .refl _
  | succ len ih =>
    rw [List.range'_1_concat, List.flatMap_append, List.flatMap_singleton]
    have hlow : (recordsIn getPartition startPartition (startPartition + (len + 1)) records).filter
        (fun record => getPartition record.1 < startPartition + len) =
          recordsIn getPartition startPartition (startPartition + len) records := by
      rw [recordsIn, recordsIn, List.filter_filter]
      apply List.filter_congr
      intro record _
      rw [← Bool.decide_and, decide_eq_decide]
      omega
    have hlast : (recordsIn getPartition startPartition (startPartition + (len + 1)) records).filter
        (fun record => !decide (getPartition record.1 < startPartition + len)) =
          partitionRecords getPartition records (startPartition + len) := by
      rw [recordsIn, partitionRecords, List.filter_filter]
      apply List.filter_congr
      intro record _
      rw [← decide_not, ← Bool.decide_and, decide_eq_decide]
      omega
    refine (ih.append_right _).trans ?_
    rw [← hlow, ← hlast]
    exact List.filter_append_perm _ _

theorem writtenIn_partitionRecords (getPartition : K → Nat) (records : Nat → List (K × V))
    (numMaps startPartition endPartition : Nat) :
    (writtenIn (fun m => partitionRecords getPartition (records m)) numMaps startPartition
      endPartition).Perm
      (recordsIn getPartition startPartition endPartition (allRecords records numMaps)) := by
  have hrange : ∀ rs : List (K × V),
      recordsIn getPartition startPartition (startPartition + (endPartition - startPartition)) rs =
        recordsIn getPartition startPartition endPartition rs := by
    intro rs
    apply List.filter_congr
    intro record _
    rw [decide_eq_decide]
    omega
  rw [allRecords, recordsIn, List.filter_flatMap, writtenIn]
  refine List.Perm.flatMap_left _ fun m _ => ?_
  have hperm := flatMap_partitionRecords getPartition (records m) startPartition
    (endPartition - startPartition)
  rw [hrange] at hperm
  exact hperm

variable {ser : SerializerInstance (K × V) S} {t : Int} {getPartition : K → Nat}

theorem writesForced_partitionOps (getPartition : K → Nat) (records : List (K × V)) (p : Nat) :
    WritesForced (partitionOps getPartition records p)
      (partitionRecords getPartition records p) := by
  constructor
  · rw [partitionOps, recordsOf_append, recordsOf_writes]
    exact List.append_nil _
  · exact .inr ⟨_, rfl⟩

/-- The map tasks of a shuffle without map-side combine. -/
theorem mapsWrote_write {shuffleId n numMaps : Nat} {data : Nat → Nat → Mem}
    {records : Nat → List (K × V)} {outs : Nat → MapOutput}
    (hser : ser.Lawful)
    (houts : ∀ m < numMaps,
      write ser t getPartition shuffleId m n (data m) (records m) = .ok (outs m))
    (hsmall : ∀ m < numMaps, ∀ p < n,
      blockCount ser t (partitionOps getPartition (records m) p) < 2 ^ 30 ∧
        (emitted ser (partitionOps getPartition (records m) p)).length < 2 ^ 31) :
    MapsWrote ser shuffleId n numMaps
      (fun m => recordOps getPartition (records m) ++ forceOps n) outs
      fun m => partitionRecords getPartition (records m) := by
  refine mapsWrote_of_forced hser houts (fun m hm p hp => ?_) fun m hm p hp => ?_
  · rw [opsAt_write getPartition (records m) hp]
    exact writesForced_partitionOps getPartition (records m) p
  · rw [opsAt_write getPartition (records m) hp]
    exact hsmall m hm p hp

end

/-! ## Aggregates -/

section

variable {K V C : Type} {aggregator : Aggregator V C}

/-- What `combineCombinersByKey` combines with. -/
def Aggregator.ofCombiners (aggregator : Aggregator V C) : Aggregator C C where
  createCombiner := id
  mergeValue := aggregator.mergeCombiners
  mergeCombiners := aggregator.mergeCombiners

theorem Aggregator.Lawful.ofCombiners (h : aggregator.Lawful) : aggregator.ofCombiners.Lawful :=
  ⟨h.assoc, fun _ _ => rfl⟩

/-- The aggregate is the combination of the combiners of the single values. -/
theorem Aggregator.Lawful.aggregate_eq (h : aggregator.Lawful) (values : List V) :
    aggregator.aggregate values =
      combineAll aggregator.mergeCombiners (values.map aggregator.createCombiner) := by
  induction values using List.reverseRecOn with
  | nil => rfl
  | append_singleton values value ih =>
    rw [aggregator.aggregate_concat, List.map_append, List.map_singleton, combineAll_concat, ih]
    cases combineAll aggregator.mergeCombiners (values.map aggregator.createCombiner) with
    | none => rfl
    | some combiner => exact congrArg some (h.mergeValue_eq combiner value)

theorem Aggregator.Lawful.aggregate_append (h : aggregator.Lawful) (values values' : List V) :
    aggregator.aggregate (values ++ values') =
      (aggregator.aggregate values).merge aggregator.mergeCombiners
        (aggregator.aggregate values') := by
  have := h.assoc
  rw [h.aggregate_eq, h.aggregate_eq, h.aggregate_eq, List.map_append, combineAll_append]

/-- Groups are aggregated one by one. -/
theorem Aggregator.Lawful.aggregate_flatten (h : aggregator.Lawful) (groups : List (List V)) :
    combineAll aggregator.mergeCombiners (groups.filterMap aggregator.aggregate) =
      aggregator.aggregate groups.flatten := by
  have := h.assoc
  induction groups with
  | nil => rfl
  | cons group groups ih =>
    rw [List.flatten_cons, h.aggregate_append, ← ih, List.filterMap_cons]
    cases aggregator.aggregate group with
    | none => rw [Option.merge_none_left]
    | some combiner =>
      dsimp only
      rw [← List.singleton_append, combineAll_append]
      rfl

theorem Aggregator.Lawful.aggregate_perm (h : aggregator.Lawful)
    (hcomm : Std.Commutative aggregator.mergeCombiners) {values values' : List V}
    (hperm : values.Perm values') : aggregator.aggregate values = aggregator.aggregate values' := by
  have := h.assoc
  rw [h.aggregate_eq, h.aggregate_eq]
  exact combineAll_perm (hperm.map _)

variable [DecidableEq K]

/-- `combineValuesByKey` of Spark's `Aggregator`: for each key one combiner, made of the key's
values in groups, one for each map that was spilled, and in any order. -/
def CombinesByKey (aggregator : Aggregator V C) (combineByKey : List (K × V) → List (K × C)) :
    Prop :=
  ∀ records key, ∃ groups : List (List V), groups.flatten.Perm (valuesAt key records) ∧
    valuesAt key (combineByKey records) =
      (combineAll aggregator.mergeCombiners (groups.filterMap aggregator.aggregate)).toList

theorem CombinesByKey.valuesAt {combineByKey : List (K × V) → List (K × C)}
    (h : CombinesByKey aggregator combineByKey) (hlaw : aggregator.Lawful)
    (hcomm : Std.Commutative aggregator.mergeCombiners) (records : List (K × V)) (key : K) :
    valuesAt key (combineByKey records) = (aggregator.aggregate (valuesAt key records)).toList := by
  obtain ⟨groups, hperm, hvalues⟩ := h records key
  rw [hvalues, hlaw.aggregate_flatten, hlaw.aggregate_perm hcomm hperm]

/-- Every key of the range once, with the aggregate of all its values. -/
structure ReducedTo (aggregator : Aggregator V C) (getPartition : K → Nat)
    (startPartition endPartition : Nat) (records : List (K × V)) (result : List (K × C)) :
    Prop where
  nodup : (result.map Prod.fst).Nodup
  mem_iff : ∀ key combiner, (key, combiner) ∈ result ↔
    (startPartition ≤ getPartition key ∧ getPartition key < endPartition) ∧
      aggregator.aggregate (valuesAt key records) = some combiner

theorem reducedTo_of_valuesAt {getPartition : K → Nat} {startPartition endPartition : Nat}
    {records : List (K × V)} {result : List (K × C)}
    (h : ∀ key, valuesAt key result =
      if startPartition ≤ getPartition key ∧ getPartition key < endPartition then
        (aggregator.aggregate (valuesAt key records)).toList
      else []) :
    ReducedTo aggregator getPartition startPartition endPartition records result := by
  constructor
  · apply nodup_of_length_valuesAt_le
    intro key
    rw [h key]
    split
    · cases aggregator.aggregate (Lib.valuesAt key records) with
      | none => exact Nat.zero_le 1
      | some combiner => exact Nat.le_refl 1
    · exact Nat.zero_le 1
  · intro key combiner
    rw [← mem_valuesAt, h key]
    split
    · rename_i hin
      rw [Option.mem_toList, and_iff_right hin]
    · rename_i hout
      exact iff_of_false List.not_mem_nil fun hand => hout hand.1

/-- The values of a key among the records of a range. -/
theorem valuesAt_recordsIn (getPartition : K → Nat) (startPartition endPartition : Nat)
    (records : List (K × V)) (key : K) :
    valuesAt key (recordsIn getPartition startPartition endPartition records) =
      if startPartition ≤ getPartition key ∧ getPartition key < endPartition then
        valuesAt key records
      else [] := by
  rw [Lib.valuesAt, recordsIn, List.filter_filter]
  split
  · rename_i hin
    rw [Lib.valuesAt]
    congr 1
    apply List.filter_congr
    intro record _
    rw [← Bool.decide_and, decide_eq_decide]
    exact ⟨fun h => h.1, fun h => ⟨h, by rw [h]; exact hin⟩⟩
  · rename_i hout
    rw [List.filter_eq_nil_iff.mpr, List.map_nil]
    intro record _
    rw [← Bool.decide_and, decide_eq_true_eq]
    rintro ⟨hkey, hin⟩
    rw [hkey] at hin
    exact hout hin

/-- What a reducer should get of plain records, before and after an aggregator. -/
structure PlainInput (getPartition : K → Nat) (startPartition endPartition : Nat)
    (records fetched : List (K × V)) : Prop where
  perm : fetched.Perm (recordsIn getPartition startPartition endPartition records)
  aggregates : ∀ (C : Type) (aggregator : Aggregator V C) (combineValuesByKey : _ → List (K × C)),
    aggregator.Lawful → Std.Commutative aggregator.mergeCombiners →
    CombinesByKey aggregator combineValuesByKey →
    ReducedTo aggregator getPartition startPartition endPartition records
      (combineValuesByKey fetched)

theorem plainInput_of_perm {getPartition : K → Nat} {startPartition endPartition : Nat}
    {records fetched : List (K × V)}
    (h : fetched.Perm (recordsIn getPartition startPartition endPartition records)) :
    PlainInput getPartition startPartition endPartition records fetched := by
  refine ⟨h, fun C aggregator combineValuesByKey hlaw hcomm hcombine => ?_⟩
  apply reducedTo_of_valuesAt
  intro key
  rw [hcombine.valuesAt hlaw hcomm, hlaw.aggregate_perm hcomm (valuesAt_perm key h),
    valuesAt_recordsIn]
  split
  · rfl
  · rfl

end

/-- For every number of map tasks, all records, every partitioner and every history of the store
that does not touch the blocks of this shuffle: if before every call on a stream the staged bytes
and those that the serializer adds fit into the 6 MiB buffer and every partition of a task stays
below `2 ^ 30` blocks and `2 ^ 31` bytes, then all tasks finish, and for every order in which their
calls reach the store, every range of partitions and every order in which its blocks are fetched,
from this executor or from another one, the reducer gets exactly the records of all tasks whose
partition is in the range, and with an aggregator the aggregate of every key of the range. -/
theorem job_delivers {K V S : Type} [DecidableEq K] (hash : String → UInt64) (fuel : Nat)
    (service : Service) (root : Nat) (history : List Op) (kv : Pmemkv) (used : Set String)
    (ser : SerializerInstance (K × V) S) (deserialize : List UInt8 → List (K × V)) (t : Int)
    (getPartition : K → Nat) (shuffleId numMaps n : Nat) (data : Nat → Nat → Mem)
    (records : Nat → List (K × V))
    (hroot : service.Grants sizeofBase root) (hfuel : history.length ≤ fuel)
    (hok : Admissible (Pmemkv.step hash fuel) (Pmemkv.Ok hash) (Pmemkv.create service root) history)
    (hkv : run (Pmemkv.step hash fuel) (Pmemkv.create service root) history = some kv)
    (hnew : NewNames hash used (live history) shuffleId n numMaps)
    (hser : ser.RoundTrips deserialize)
    (hpart : ∀ m < numMaps, ∀ record ∈ records m, getPartition record.1 < n)
    (hfits : ∀ m < numMaps, ∀ p < n, Fits ser t (partitionOps getPartition (records m) p) ∧
      blockCount ser t (partitionOps getPartition (records m) p) < 2 ^ 30 ∧
      (emitted ser (partitionOps getPartition (records m) p)).length < 2 ^ 31) :
    ∃ outs : Nat → MapOutput,
      (∀ m < numMaps, write ser t getPartition shuffleId m n (data m) (records m) = .ok (outs m)) ∧
      ∀ trace answers, Interleaves {m | m < numMaps} (fun m => (outs m).calls) trace →
        Accepted hash kv (trace.map Prod.snd) answers → history.length + answers.length ≤ fuel →
        ∃ kv', setBlocks hash kv ((trace.map Prod.snd).zip answers) = some kv' ∧
          Delivered hash fuel kv' deserialize shuffleId n numMaps outs
            fun startPartition endPartition fetched =>
              PlainInput getPartition startPartition endPartition (allRecords records numMaps)
                fetched := by
  obtain ⟨kv₁, hrun, hholds⟩ := run_holds hroot hfuel hok
  rw [hkv, Option.some.injEq] at hrun
  subst hrun
  obtain ⟨outs, houts⟩ := exists_outs fun m hm =>
    (write_ok_iff ser t shuffleId m (data m) (hpart m hm)).mpr fun p hp => (hfits m hm p hp).1
  refine ⟨outs, houts, fun trace answers htrace haccepted hlen => ?_⟩
  have hlive := length_live_le history
  have hwrote := mapsWrote_write hser.lawful houts fun m hm p hp => (hfits m hm p hp).2
  obtain ⟨kv', hset, hdelivered⟩ := hwrote.delivered htrace hnew hser hholds haccepted
    (show (live history).length + answers.length ≤ fuel by omega)
  exact ⟨kv', hset, hdelivered.mono fun _ _ fetched _ hperm =>
    plainInput_of_perm (hperm.trans (writtenIn_partitionRecords getPartition records _ _ _))⟩

/-- `xxh::xxhash<64>` on the blocks of two map tasks with two partitions. -/
def jobHash : String → UInt64 := fun key =>
  if key = "shuffle_0_0_0" then 0x3d4e7efaebc2a367
  else if key = "shuffle_0_0_1" then 0x2af02f03ba757c09
  else if key = "shuffle_0_1_0" then 0x2db8a6c2a9a0bead
  else 0x7f3115e140add673

def jobNames : Set String := {"shuffle_0_0_0", "shuffle_0_0_1", "shuffle_0_1_0", "shuffle_0_1_1"}

/-- The answers to four puts into an empty store. -/
def jobAnswers : List PutAnswers :=
  shuffleAnswers ++
    [{ entry := 8320, data := 8352, metaPtr := 128, listPtr := 160 },
      { entry := 8384, data := 8416, metaPtr := 192, listPtr := 224 }]

theorem jobNames_new : NewNames jobHash jobNames [] 0 2 2 where
  inj := by
    intro k hk k' hk' heq
    rcases hk with rfl | rfl | rfl | rfl <;> rcases hk' with rfl | rfl | rfl | rfl <;>
      first | rfl | exact absurd heq (by decide)
  puts_used := by simp
  names := by
    intro m hm p hp
    obtain rfl | rfl : m = 0 ∨ m = 1 := by omega
    · obtain rfl | rfl : p = 0 ∨ p = 1 := by omega
      · exact .inl (by decide)
      · exact .inr (.inl (by decide))
    · obtain rfl | rfl : p = 0 ∨ p = 1 := by omega
      · exact .inr (.inr (.inl (by decide)))
      · exact .inr (.inr (.inr (by decide)))
  fresh := by simp

/-- Two tasks with two records each. -/
def jobRecords (m : Nat) : List (UInt8 × Unit) :=
  if m = 0 then [(1, ()), (2, ())] else [(3, ()), (4, ())]

/-- The second task's calls come between those of the first. -/
def jobTrace : List (Nat × SetBlock) :=
  [(0, ⟨"shuffle_0_0_0", [2], true⟩), (1, ⟨"shuffle_0_1_0", [4], true⟩),
    (1, ⟨"shuffle_0_1_1", [3], true⟩), (0, ⟨"shuffle_0_0_1", [1], true⟩)]

/-- The last block comes first, from another executor. -/
def jobFetch : List ((Nat × Nat) × Fetch) :=
  [((1, 1), ⟨true, 1, ⟨⟨fun _ => 0, 0⟩, fun _ => 0, fun _ _ => 0⟩⟩),
    ((0, 1), ⟨false, 1, ⟨⟨fun _ => 0, 0⟩, fun _ => 0, fun _ _ => 0⟩⟩)]

theorem job_delivers_sample :
    ∃ (outs : Nat → MapOutput) (kv' : Pmemkv) (fetched : List (UInt8 × Unit)),
      (∀ m < 2, write byteSerializer 4194304 (fun k => k.toNat % 2) 0 m 2 (fun _ _ => 0)
        (jobRecords m) = .ok (outs m)) ∧
      setBlocks jobHash (Pmemkv.create sampleService 4096)
        ((jobTrace.map Prod.snd).zip jobAnswers) = some kv' ∧
      fetchAll jobHash 4 kv' (fun bytes => bytes.map fun b => (b, ())) 0 jobFetch = some fetched ∧
      PlainInput (fun k : UInt8 => k.toNat % 2) 1 2 (allRecords jobRecords 2) fetched := by
  obtain ⟨outs, houts, hall⟩ := job_delivers jobHash 4 sampleService 4096 [] _ jobNames
    byteSerializer (fun bytes => bytes.map fun b => (b, ())) 4194304 (fun k => k.toNat % 2) 0 2 2
    (fun _ _ _ => 0) jobRecords (by decide) (by decide) trivial rfl jobNames_new
    byteSerializer_roundTrips (fun _ _ _ _ => Nat.mod_lt _ (by decide)) (by
      intro m hm p hp
      refine ⟨fits_byteSerializer _, ?_⟩
      obtain rfl | rfl : m = 0 ∨ m = 1 := by omega
      · obtain rfl | rfl : p = 0 ∨ p = 1 := by omega
        · decide
        · decide
      · obtain rfl | rfl : p = 0 ∨ p = 1 := by omega
        · decide
        · decide)
  have hout : ∀ m < 2, (outs m).partitionLengths = [1, 1] ∧
      (outs m).calls = (jobTrace.filter fun c => c.1 = m).map Prod.snd := by
    intro m hm
    have hdec : (write byteSerializer 4194304 (fun k => k.toNat % 2) 0 m 2 (fun _ _ => 0)
        (jobRecords m)).toOption.map (fun out => (out.partitionLengths, out.calls)) =
          some ([1, 1], (jobTrace.filter fun c => c.1 = m).map Prod.snd) := by
      obtain rfl | rfl : m = 0 ∨ m = 1 := by omega
      · decide
      · decide
    have hpair := map_of_toOption (houts m hm) hdec
    exact Prod.mk.inj hpair
  obtain ⟨kv', hset, hdelivered⟩ := hall jobTrace jobAnswers
    ⟨by decide, fun m hm => (hout m hm).2.symm⟩ ⟨rfl, by decide⟩ (by decide)
  have hblocks : blocksToFetch outs 2 1 2 = [(0, 1), (1, 1)] := by
    simp [blocksToFetch, List.range_succ, (hout 0 (by decide)).1,
      (hout 1 (by decide)).1]
  obtain ⟨fetched, hfetched, hinput⟩ := hdelivered 1 2 jobFetch (by decide) (by decide) (by
    rw [hblocks]
    exact List.Perm.swap _ _ _)
  exact ⟨outs, kv', fetched, houts, hset, hfetched, hinput⟩

/-! ## With map-side combine -/

section

variable {K V C : Type} [DecidableEq K] {aggregator : Aggregator V C} {getPartition : K → Nat}
variable {records : Nat → List (K × V)} {written : Nat → Nat → List (K × C)} {numMaps n : Nat}

omit [DecidableEq K] in
/-- Where only one element contributes. -/
theorem flatMap_eq_of_single {β : Type} {xs : List Nat} {q : Nat} {f : Nat → List β}
    (hnodup : xs.Nodup) (h : ∀ x ∈ xs, x ≠ q → f x = []) :
    xs.flatMap f = if q ∈ xs then f q else [] := by
  induction xs with
  | nil => rfl
  | cons x xs ih =>
    obtain ⟨hnot, hnodup⟩ := List.nodup_cons.mp hnodup
    have hrest := ih hnodup fun y hy => h y (List.mem_cons_of_mem _ hy)
    rw [List.flatMap_cons, hrest]
    by_cases hx : x = q
    · subst hx
      rw [if_neg hnot, if_pos List.mem_cons_self, List.append_nil]
    · rw [h x List.mem_cons_self hx, List.nil_append]
      simp only [List.mem_cons, Ne.symm hx, false_or]

/-- Among the combiners of a range, those of a key are in its own partition. -/
theorem valuesAt_writtenIn
    (h : ∀ m < numMaps, ∀ p < n, Combines aggregator getPartition p (records m) (written m p))
    {startPartition endPartition : Nat} (hend : endPartition ≤ n) (key : K) :
    valuesAt key (writtenIn written numMaps startPartition endPartition) =
      if startPartition ≤ getPartition key ∧ getPartition key < endPartition then
        (List.range numMaps).flatMap fun m => valuesAt key (written m (getPartition key))
      else [] := by
  have htask : ∀ m ∈ List.range numMaps,
      valuesAt key ((List.range' startPartition (endPartition - startPartition)).flatMap
        fun p => written m p) =
        if startPartition ≤ getPartition key ∧ getPartition key < endPartition then
          valuesAt key (written m (getPartition key))
        else [] := by
    intro m hm
    have hother : ∀ p ∈ List.range' startPartition (endPartition - startPartition),
        p ≠ getPartition key → valuesAt key (written m p) = [] := by
      intro p hp hne
      have hlt := List.mem_range'_1.mp hp
      refine valuesAt_eq_nil fun hmem => hne ?_
      obtain ⟨entry, hentry, rfl⟩ := List.mem_map.mp hmem
      exact ((h m (List.mem_range.mp hm) p (by omega)).partition entry hentry).symm
    rw [valuesAt_flatMap, flatMap_eq_of_single List.nodup_range' hother]
    simp only [List.mem_range'_1]
    split
    · rw [if_pos (by omega)]
    · rw [if_neg (by omega)]
  rw [writtenIn, valuesAt_flatMap, List.flatMap_congr htask]
  split
  · rfl
  · exact List.flatMap_eq_nil_iff.mpr fun _ _ => rfl

/-- The combiners of all tasks combine to the aggregate of all values. -/
theorem combineAll_tasks (hlaw : aggregator.Lawful) (key : K) {combiners : Nat → List (K × C)}
    (h : ∀ m < numMaps, Combines aggregator getPartition (getPartition key) (records m)
      (combiners m)) :
    combineAll aggregator.mergeCombiners
        ((List.range numMaps).flatMap fun m => valuesAt key (combiners m)) =
      aggregator.aggregate (valuesAt key (allRecords records numMaps)) := by
  have := hlaw.assoc
  induction numMaps with
  | zero => rfl
  | succ numMaps ih =>
    rw [allRecords, List.range_succ, List.flatMap_append, List.flatMap_append, combineAll_append,
      ih fun m hm => h m (by omega), valuesAt_append, hlaw.aggregate_append, List.flatMap_singleton,
      List.flatMap_singleton, (h numMaps (Nat.lt_succ_self _)).combined key rfl]
    rfl

/-- Combiners that were fetched in any order combine to the aggregates. -/
theorem reducedTo_of_combiners {combineCombinersByKey : List (K × C) → List (K × C)}
    (hlaw : aggregator.Lawful) (hcomm : Std.Commutative aggregator.mergeCombiners)
    (hcombine : CombinesByKey aggregator.ofCombiners combineCombinersByKey)
    (h : ∀ m < numMaps, ∀ p < n, Combines aggregator getPartition p (records m) (written m p))
    {startPartition endPartition : Nat} (hend : endPartition ≤ n) {fetched : List (K × C)}
    (hfetched : fetched.Perm (writtenIn written numMaps startPartition endPartition)) :
    ReducedTo aggregator getPartition startPartition endPartition (allRecords records numMaps)
      (combineCombinersByKey fetched) := by
  apply reducedTo_of_valuesAt
  intro key
  rw [hcombine.valuesAt hlaw.ofCombiners hcomm,
    hlaw.ofCombiners.aggregate_perm hcomm (valuesAt_perm key hfetched),
    valuesAt_writtenIn h hend, hlaw.ofCombiners.aggregate_eq]
  split
  · rename_i hin
    rw [show aggregator.ofCombiners.createCombiner = id from rfl, List.map_id]
    exact congrArg Option.toList
      (combineAll_tasks hlaw key fun m hm => h m hm _ (Nat.lt_of_lt_of_le hin.2 hend))
  · rfl

/-- What a task with map-side combine writes for a partition: its spills and then its collection. -/
def combinedRecords (s : NvmExternalSorter K V C)
    (sorted : Option (K → K → Int) → Entries K C → Entries K C) (input : List ((K × V) × Int))
    (p : Nat) : List (K × C) :=
  atPartition p ((s.insertAll sorted input).spills ++
    [sorted s.comparator (s.insertAll sorted input).collection]).flatten

theorem combines_insertAll {s : NvmExternalSorter K V C} {partitioner : Partitioner K}
    {sorted : Option (K → K → Int) → Entries K C → Entries K C} (hlaw : aggregator.Lawful)
    (hagg : s.aggregator = some aggregator) (hpart : s.partitioner = some partitioner)
    (hperm : ∀ cmp entries, (sorted cmp entries).Perm entries) (input : List ((K × V) × Int))
    (p : Nat) :
    Combines aggregator partitioner.getPartition p (input.map Prod.fst)
      (combinedRecords s sorted input p) := by
  have hgathers := (insertAll_gathers hlaw hagg hperm input).spill hperm 0
  have hstored := hgathers.combines p
  rw [Inserted.entries, List.append_nil] at hstored
  rw [← funext (s.getPartition_eq hpart)]
  exact hstored

theorem mapsWrote_writeCombined {S : Type} {ser : SerializerInstance (K × C) S} {t : Int}
    {s : NvmExternalSorter K V C} {sorted : Option (K → K → Int) → Entries K C → Entries K C}
    {shuffleId : Nat} {data : Nat → Nat → Mem} {input : Nat → List ((K × V) × Int)}
    {outs : Nat → MapOutput}
    (hser : ser.Lawful)
    (houts : ∀ m < numMaps,
      writeCombined ser t s sorted shuffleId m (data m) (input m) = .ok (outs m))
    (hsmall : ∀ m < numMaps, ∀ p < s.numPartitions,
      blockCount ser t (opsAt p (combineOps s sorted (input m))) < 2 ^ 30 ∧
        (emitted ser (opsAt p (combineOps s sorted (input m)))).length < 2 ^ 31) :
    MapsWrote ser shuffleId s.numPartitions numMaps (fun m => combineOps s sorted (input m)) outs
      fun m => combinedRecords s sorted (input m) :=
  mapsWrote_of_forced hser houts (fun _ _ p _ => spillAll_writesForced _ p _) hsmall

end

/-- For every number of map tasks, all records and memory estimates, every partitioner, every
ordering or none, every aggregator with an associative and commutative `mergeCombiners` that
`mergeValue` agrees with: if the streams fit into the 6 MiB buffer before every call and every
partition of a task stays below `2 ^ 30` blocks and `2 ^ 31` bytes, then all tasks finish with
map-side combine, and for every order in which their calls reach the store, every range of
partitions and every order in which its blocks are fetched, the reducer's `combineCombinersByKey`
gives every key of the range once, with the aggregate of its values over all tasks. -/
theorem job_combines {K V C S : Type} [DecidableEq K] (hash : String → UInt64) (fuel : Nat)
    (service : Service) (root : Nat) (history : List Op) (kv : Pmemkv) (used : Set String)
    (ser : SerializerInstance (K × C) S) (deserialize : List UInt8 → List (K × C)) (t : Int)
    (s : NvmExternalSorter K V C) (aggregator : Aggregator V C) (partitioner : Partitioner K)
    (sorted : Option (K → K → Int) → Entries K C → Entries K C) (shuffleId numMaps : Nat)
    (data : Nat → Nat → Mem) (input : Nat → List ((K × V) × Int))
    (combineCombinersByKey : List (K × C) → List (K × C))
    (hroot : service.Grants sizeofBase root) (hfuel : history.length ≤ fuel)
    (hok : Admissible (Pmemkv.step hash fuel) (Pmemkv.Ok hash) (Pmemkv.create service root) history)
    (hkv : run (Pmemkv.step hash fuel) (Pmemkv.create service root) history = some kv)
    (hnew : NewNames hash used (live history) shuffleId s.numPartitions numMaps)
    (hser : ser.RoundTrips deserialize) (hlaw : aggregator.Lawful)
    (hcomm : Std.Commutative aggregator.mergeCombiners)
    (hagg : s.aggregator = some aggregator) (hpart : s.partitioner = some partitioner)
    (hperm : ∀ cmp entries, (sorted cmp entries).Perm entries)
    (hcombine : CombinesByKey aggregator.ofCombiners combineCombinersByKey)
    (hfits : ∀ m < numMaps, ∀ p < s.numPartitions,
      Fits ser t (opsAt p (combineOps s sorted (input m))) ∧
        blockCount ser t (opsAt p (combineOps s sorted (input m))) < 2 ^ 30 ∧
        (emitted ser (opsAt p (combineOps s sorted (input m)))).length < 2 ^ 31) :
    ∃ outs : Nat → MapOutput,
      (∀ m < numMaps, writeCombined ser t s sorted shuffleId m (data m) (input m) = .ok (outs m)) ∧
      ∀ trace answers, Interleaves {m | m < numMaps} (fun m => (outs m).calls) trace →
        Accepted hash kv (trace.map Prod.snd) answers → history.length + answers.length ≤ fuel →
        ∃ kv', setBlocks hash kv ((trace.map Prod.snd).zip answers) = some kv' ∧
          Delivered hash fuel kv' deserialize shuffleId s.numPartitions numMaps outs
            fun startPartition endPartition fetched =>
              ReducedTo aggregator partitioner.getPartition startPartition endPartition
                (allRecords (fun m => (input m).map Prod.fst) numMaps)
                (combineCombinersByKey fetched) := by
  obtain ⟨kv₁, hrun, hholds⟩ := run_holds hroot hfuel hok
  rw [hkv, Option.some.injEq] at hrun
  subst hrun
  obtain ⟨outs, houts⟩ := exists_outs fun m hm =>
    (writeCombined_ok_iff ser t shuffleId m (data m) hlaw hagg hpart hperm (input m)).mpr
      fun p hp => (hfits m hm p hp).1
  refine ⟨outs, houts, fun trace answers htrace haccepted hlen => ?_⟩
  have hlive := length_live_le history
  have hwrote := mapsWrote_writeCombined hser.lawful houts fun m hm p hp => (hfits m hm p hp).2
  obtain ⟨kv', hset, hdelivered⟩ := hwrote.delivered htrace hnew hser hholds haccepted
    (show (live history).length + answers.length ≤ fuel by omega)
  exact ⟨kv', hset, hdelivered.mono fun _ _ _ hend hfetched =>
    reducedTo_of_combiners hlaw hcomm hcombine
      (fun m _ p _ => combines_insertAll hlaw hagg hpart hperm (input m) p) hend hfetched⟩

/-- `combineValuesByKey` when nothing is spilled. -/
def combineInMemory {K V C : Type} [DecidableEq K] (aggregator : Aggregator V C)
    (records : List (K × V)) : List (K × C) :=
  records.foldl (fun table record => changeValue (fun old =>
    (old.map (aggregator.mergeValue · record.2)).getD (aggregator.createCombiner record.2))
      record.1 table) []

theorem combinesByKey_combineInMemory {K V C : Type} [DecidableEq K] (aggregator : Aggregator V C) :
    CombinesByKey aggregator (combineInMemory aggregator : List (K × V) → List (K × C)) := by
  have htable : ∀ records : List (K × V),
      ((combineInMemory aggregator records).map Prod.fst).Nodup ∧
        ∀ key, valuesAt key (combineInMemory aggregator records) =
          (aggregator.aggregate (valuesAt key records)).toList := by
    intro records
    induction records using List.reverseRecOn with
    | nil => exact ⟨List.nodup_nil, fun _ => rfl⟩
    | append_singleton records record ih =>
      obtain ⟨hnodup, hvalues⟩ := ih
      rw [combineInMemory, List.foldl_concat, ← combineInMemory]
      refine ⟨nodup_changeValue hnodup, fun key => ?_⟩
      rw [valuesAt_append]
      by_cases hkey : record.1 = key
      · subst hkey
        rw [valuesAt_changeValue_self hnodup, hvalues, valuesAt_cons_self]
        show _ = (aggregator.aggregate (_ ++ [record.2])).toList
        rw [aggregator.aggregate_concat]
        cases aggregator.aggregate (valuesAt record.1 records) with
        | none => rfl
        | some combiner => rfl
      · rw [valuesAt_changeValue_ne hkey, hvalues, valuesAt_cons_ne hkey]
        show _ = (aggregator.aggregate (_ ++ [])).toList
        rw [List.append_nil]
  intro records key
  refine ⟨[valuesAt key records], by simp, ?_⟩
  rw [(htable records).2 key, List.filterMap_cons, List.filterMap_nil]
  cases aggregator.aggregate (valuesAt key records) with
  | none => rfl
  | some combiner => rfl

/-- The first task spills its collection once; the second has a key for each partition. -/
def combineInput (m : Nat) : List ((UInt8 × Nat) × Int) :=
  if m = 0 then spillingInput else [((1, 4), 0), ((2, 1), 0)]

def combineTrace : List (Nat × SetBlock) :=
  [(0, ⟨"shuffle_0_0_1", [1, 1, 1, 0], true⟩), (1, ⟨"shuffle_0_1_0", [2, 1, 0], true⟩),
    (1, ⟨"shuffle_0_1_1", [1, 1, 1, 1, 1, 0], true⟩),
    (0, ⟨"shuffle_0_0_1", [1, 1, 1, 1, 0], false⟩)]

theorem combineInput_fits : ∀ m < 2, ∀ p < sumSorter.numPartitions,
    Fits (arraySerializer unaryBytes) 4194304
        (opsAt p (combineOps sumSorter sortEntries (combineInput m))) ∧
      blockCount (arraySerializer unaryBytes) 4194304
        (opsAt p (combineOps sumSorter sortEntries (combineInput m))) < 2 ^ 30 ∧
      (emitted (arraySerializer unaryBytes)
        (opsAt p (combineOps sumSorter sortEntries (combineInput m)))).length < 2 ^ 31 := by
  intro m hm p hp
  have hp : p < 2 := hp
  unfold Fits Account.HasRoom
  obtain rfl | rfl : m = 0 ∨ m = 1 := by omega
  · obtain rfl | rfl : p = 0 ∨ p = 1 := by omega
    · decide +kernel
    · decide +kernel
  · obtain rfl | rfl : p = 0 ∨ p = 1 := by omega
    · decide
    · decide

/-- What the two tasks report and hand over. -/
theorem combineOuts {outs : Nat → MapOutput}
    (houts : ∀ m < 2, writeCombined (arraySerializer unaryBytes) 4194304 sumSorter sortEntries 0 m
      (fun _ _ => 0) (combineInput m) = .ok (outs m)) :
    ∀ m < 2, (outs m).partitionLengths = (if m = 0 then [0, 9] else [3, 6]) ∧
      (outs m).calls = (combineTrace.filter fun c => c.1 = m).map Prod.snd := by
  intro m hm
  have hdec : (writeCombined (arraySerializer unaryBytes) 4194304 sumSorter sortEntries 0 m
      (fun _ _ => 0) (combineInput m)).toOption.map
        (fun out => (out.partitionLengths, out.calls)) =
      some (if m = 0 then [0, 9] else [3, 6],
        (combineTrace.filter fun c => c.1 = m).map Prod.snd) := by
    obtain rfl | rfl : m = 0 ∨ m = 1 := by omega
    · decide +kernel
    · decide
  have hpair := map_of_toOption (houts m hm) hdec
  exact Prod.mk.inj hpair

theorem job_combines_sample :
    ∃ (outs : Nat → MapOutput) (kv' : Pmemkv) (fetched : List (UInt8 × Nat)),
      (∀ m < 2, writeCombined (arraySerializer unaryBytes) 4194304 sumSorter sortEntries 0 m
        (fun _ _ => 0) (combineInput m) = .ok (outs m)) ∧
      setBlocks jobHash (Pmemkv.create sampleService 4096)
        ((combineTrace.map Prod.snd).zip jobAnswers) = some kv' ∧
      fetchAll jobHash 4 kv' (unaryRecords none) 0 jobFetch = some fetched ∧
      ReducedTo ⟨id, (· + ·), (· + ·)⟩ (fun key : UInt8 => key.toNat % 2) 1 2
        (allRecords (fun m => (combineInput m).map Prod.fst) 2)
        (combineInMemory ⟨id, (· + ·), (· + ·)⟩ fetched) := by
  obtain ⟨outs, houts, hall⟩ := job_combines jobHash 4 sampleService 4096 [] _ jobNames
    (arraySerializer unaryBytes) (unaryRecords none) 4194304 sumSorter ⟨id, (· + ·), (· + ·)⟩
    ⟨2, fun key => key.toNat % 2, fun _ => Nat.mod_lt _ (by decide)⟩ sortEntries 0 2
    (fun _ _ _ => 0) combineInput (combineInMemory ⟨id, (· + ·), (· + ·)⟩) (by decide) (by decide)
    trivial rfl jobNames_new unarySerializer_roundTrips sum_lawful ⟨Nat.add_comm⟩ rfl rfl
    sortEntries_perm (combinesByKey_combineInMemory _) combineInput_fits
  have hout := combineOuts houts
  obtain ⟨kv', hset, hdelivered⟩ := hall combineTrace jobAnswers
    ⟨by decide, fun m hm => (hout m hm).2.symm⟩ ⟨rfl, by decide⟩ (by decide)
  have hblocks : blocksToFetch outs 2 1 2 = [(0, 1), (1, 1)] := by
    simp [blocksToFetch, List.range_succ, (hout 0 (by decide)).1, (hout 1 (by decide)).1]
  obtain ⟨fetched, hfetched, hreduced⟩ := hdelivered 1 2 jobFetch (by decide) (by decide) (by
    rw [hblocks]
    exact List.Perm.swap _ _ _)
  exact ⟨outs, kv', fetched, houts, hset, hfetched, hreduced⟩

end SparkNvm.Shuffle
