import SparkNvm.Shuffle.MapSide
import SparkNvm.Shuffle.PartitionResult
import SparkNvm.Shuffle.SpillStreams

/-!
# The sorter on the reduce side

`insertAll` on a sorter that makes its own streams, and `partitionedIterator` over the readers of
these streams and the collection.

* `partitionedIterator_results`: what comes out when every stream is read back.
* `readersOf`: the readers of the streams.
* `reduce_side_sort_iff`: the sorter gives every partition its result, whatever was spilled, exactly
  if every stream fits into the staging buffer and can be read back.
-/

namespace SparkNvm.Shuffle

open Lib Native Storage

section

variable {K V C : Type} {runs : List (Nat × List (K × C))}

/-! ## The iterators of a partition -/

theorem atPartition_tagged_self (p : Nat) (items : List (K × C)) :
    atPartition p (tagged p items) = items := by
  induction items with
  | nil => rfl
  | cons item items ih =>
    show atPartition p (((p, item.1), item.2) :: tagged p items) = _
    rw [atPartition_cons_self, ih]

theorem atPartition_tagged_ne {p q : Nat} (h : q ≠ p) (items : List (K × C)) :
    atPartition p (tagged q items) = [] := by
  induction items with
  | nil => rfl
  | cons item items ih =>
    show atPartition p (((q, item.1), item.2) :: tagged q items) = _
    rw [atPartition_cons_ne h, ih]

/-- What the readers give for a partition are its entries among the runs. -/
theorem flatten_takenAt (p : Nat) (runs : List (Nat × List (K × C))) :
    (runs.map (takenAt p)).flatten = atPartition p (runEntries runs) := by
  induction runs with
  | nil => rfl
  | cons run runs ih =>
    have hcons : runEntries (run :: runs) = tagged run.1 run.2 ++ runEntries runs :=
      List.flatMap_cons
    rw [List.map_cons, List.flatten_cons, ih, hcons, atPartition_append, takenAt]
    by_cases hp : run.1 = p
    · rw [if_pos hp, ← hp, atPartition_tagged_self]
    · rw [if_neg hp, atPartition_tagged_ne hp]

variable {s : NvmExternalSorter K V C}

theorem comparator_eq (h : s.comparator.isSome) : s.comparator = some s.keyComparator := by
  rw [NvmExternalSorter.comparator] at h ⊢
  split at h
  · rename_i hor
    rw [if_pos hor]
  · simp at h

variable [DecidableEq K]
variable {sorted : Option (K → K → Int) → Entries K C → Entries K C}
variable {input : List ((K × V) × Int)}

/-- Every run is sorted. -/
theorem keySorted_run (hs : s.Lawful) (hsorts : SortsEntries sorted)
    (hruns : SpilledRuns 0 (s.insertAll sorted input).spills
      (spillAll false 0 (s.insertAll sorted input).spills) runs)
    (hcomparator : s.comparator.isSome) {run : Nat × List (K × C)} (hrun : run ∈ runs) :
    KeySorted s.keyComparator run.2 := by
  obtain ⟨entries, hentries, hsub⟩ := hruns.sublist run hrun
  obtain ⟨collection, rfl⟩ := sorted_of_mem_spills input hentries
  have hbefore := hsorts.comparator hs collection
  rw [comparator_eq hcomparator] at hbefore hsub
  have hkeys := keySorted_atPartition (hbefore.sublist hsub) run.1
  rw [atPartition_tagged_self] at hkeys
  exact hkeys

/-- The items of a run are in its partition. -/
theorem partition_of_run (hs : s.Lawful) (hsorts : SortsEntries sorted)
    (hruns : SpilledRuns 0 (s.insertAll sorted input).spills
      (spillAll false 0 (s.insertAll sorted input).spills) runs)
    {run : Nat × List (K × C)} (hrun : run ∈ runs) {item : K × C} (hitem : item ∈ run.2) :
    s.getPartition item.1 = run.1 := by
  have hmem : ((run.1, item.1), item.2) ∈ runEntries runs :=
    (tagged_sublist hrun).subset
      (List.mem_map_of_mem (f := fun item => ((run.1, item.1), item.2)) hitem)
  rw [hruns.entries] at hmem
  exact (partition_of_entries hs hsorts input _ (List.mem_append_left _ hmem)).symm

/-! ## Both paths -/

/-- What should come out: every partition once and in order, with its result. -/
structure SortResult (s : NvmExternalSorter K V C) (records : List (K × V))
    (out : List (Nat × List (K × C))) : Prop where
  partitions : out.map Prod.fst = List.range s.numPartitions
  result : ∀ partition ∈ out, PartitionResult s records partition.1 partition.2

/-- Two such results are the same partitions with the same items. -/
theorem SortResult.agree {records : List (K × V)} {out out' : List (Nat × List (K × C))}
    (h : SortResult s records out) (h' : SortResult s records out') :
    List.Forall₂ (fun a b => a.1 = b.1 ∧ a.2.Perm b.2) out out' := by
  have hfst := h.partitions.trans h'.partitions.symm
  have hlength := congrArg List.length hfst
  rw [List.length_map, List.length_map] at hlength
  rw [List.forall₂_iff_get]
  refine ⟨hlength, fun i hi hi' => ?_⟩
  have hsame : (out.get ⟨i, hi⟩).1 = (out'.get ⟨i, hi'⟩).1 := by
    have hget := congrArg (fun ps => ps[i]?) hfst
    simpa [hi, hi'] using hget
  have hresult := h.result _ (out.get_mem ⟨i, hi⟩)
  have hresult' := h'.result _ (out'.get_mem ⟨i, hi'⟩)
  rw [← hsame] at hresult'
  exact ⟨hsame, hresult.perm hresult'⟩

/-- With readers that give the runs. -/
theorem partitionedIterator_results (hs : s.Lawful) (hsorts : SortsEntries sorted)
    (pq : IterQueue K C s.keyComparator)
    (hruns : SpilledRuns 0 (s.insertAll sorted input).spills
      (spillAll false 0 (s.insertAll sorted input).spills) runs)
    {readers : List (SpillReader (K × C))} (hreaders : ReadersAt 0 readers runs) :
    ∃ out, s.partitionedIterator sorted pq readers (s.insertAll sorted input).collection =
        some out ∧
      SortResult s (input.map Prod.fst) out := by
  have hall : ∀ f : Nat → List (K × C),
      (∀ p, PartitionResult s (input.map Prod.fst) p (f p)) →
      SortResult s (input.map Prod.fst)
        ((List.range' 0 s.numPartitions).map fun p => (p, f p)) := by
    intro f hf
    constructor
    · rw [List.map_map, List.range_eq_range']
      exact List.map_id _
    · intro result hresult
      obtain ⟨p, _, rfl⟩ := List.mem_map.mp hresult
      exact hf p
  cases readers with
  | nil =>
    -- nothing was spilled
    cases hreaders
    have hspills : (s.insertAll sorted input).spills.flatten = [] := hruns.entries.symm
    rw [NvmExternalSorter.partitionedIterator, if_pos List.isEmpty_nil, List.range_eq_range']
    cases hordering : s.ordering with
    | none =>
      refine ⟨_, if_pos rfl, ?_⟩
      rw [groupByPartition_eq (partitionSorted_of_before (hsorts.by_partition _))
        (fun _ _ => Nat.zero_le _)]
      exact hall _ fun p => atPartition_result hs hsorts hspills (by simp [hordering])
    | some ordering =>
      have hkey : s.keyComparator = ordering := by rw [NvmExternalSorter.keyComparator, hordering]
      refine ⟨_, if_neg (by simp), ?_⟩
      rw [groupByPartition_eq (partitionSorted_of_before
        (hsorts.by_key _ hs.keyComparator _)) (fun _ _ => Nat.zero_le _)]
      refine hall _ fun p => atPartition_result hs hsorts hspills ?_
      intro ordering' hordering'
      rw [NvmExternalSorter.keyComparator, hordering']
  | cons reader readers =>
    rw [NvmExternalSorter.partitionedIterator, if_neg (by simp), List.range_eq_range',
      mergePartitions_eq s pq hreaders (fun run hrun item hitem =>
        partition_of_run hs hsorts hruns hrun hitem)
        (partitionSorted_of_before (hsorts.comparator hs _)) (fun _ _ => Nat.zero_le _)]
    refine ⟨_, rfl, ?_⟩
    refine hall _ fun p => mergeIterators_result hs hsorts pq ?_ ?_
    · rw [List.flatten_append, List.flatten_singleton, flatten_takenAt, hruns.entries,
        Inserted.entries, atPartition_append]
      exact (((hsorts.perm _ _).filter _).map _).append_left _
    · intro hcomparator it hit
      rcases List.mem_append.mp hit with htaken | hmemory
      · obtain ⟨run, hrun, rfl⟩ := List.mem_map.mp htaken
        rw [takenAt]
        split
        · exact keySorted_run hs hsorts hruns hcomparator hrun
        · exact .nil
      · rw [List.mem_singleton.mp hmemory]
        have hbefore := hsorts.comparator hs (s.insertAll sorted input).collection
        rw [comparator_eq hcomparator] at hbefore ⊢
        exact keySorted_atPartition hbefore p

end

/-! ## The readers of the streams -/

/-- The readers that `merge` makes of the streams. -/
def readersOf {R S : Type} (deserialize : List UInt8 → List R) (calls : List SetBlock)
    (streams : List (NvmBlockOutputStream S)) : List (SpillReader R) :=
  streams.map fun b => .new (deserialize (spilledBytes calls b)) b.records

section

variable {K C S : Type} {ser : SerializerInstance (K × C) S} {t : Int} {name : Nat → String}
variable {data : Nat → Mem} {deserialize : List UInt8 → List (K × C)}
variable {runs : List (Nat × List (K × C))}
variable {results : List (NvmBlockOutputStream S × List SetBlock)}

/-- The reader of a stream with fewer than `2 ^ 31` bytes gives the run that was written. -/
theorem RunResults.reader_eq (h : RunResults ser t name data 0 runs results)
    (hser : ser.RoundTrips deserialize)
    (hname : ∀ i < runs.length, ∀ j < runs.length, name i = name j → i = j) {i : Nat}
    {r : NvmBlockOutputStream S × List SetBlock} {run : Nat × List (K × C)}
    (hr : results[i]? = some r) (hrun : runs[i]? = some run)
    (hsmall : (emitted ser (runCalls run)).length < 2 ^ 31) :
    SpillReader.new (deserialize (spilledBytes (results.flatMap Prod.snd) r.1)) r.1.records =
      .new run.2 run.2.length ∧ run.2.length < 2 ^ 31 := by
  obtain ⟨run', hrun', hholds, _⟩ := h.holds hr
  rw [hrun, Option.some.injEq] at hrun'
  subst hrun'
  have hrecords : recordsOf (runCalls run) = run.2 := by
    rw [runCalls, recordsOf_append, recordsOf_writes]
    exact List.append_nil _
  -- every record takes a byte, so the count of the records does not wrap either
  have hbyte : run.2.length ≤ (emitted ser (runCalls run)).length := by
    have hle := hser.byte_per_record (run.2.map .write)
    rw [recordsOf_writes] at hle
    exact hle
  refine ⟨?_, by omega⟩
  rw [h.spilledBytes_eq hser.lawful hname hr hrun, hholds.records, hrecords,
    wrap32_of_fits (by omega) (by omega), runCalls, hser.deserialize_emitted, recordsOf_writes]

/-- Streams of fewer than `2 ^ 31` bytes are read as the runs. -/
theorem RunResults.readersAt (h : RunResults ser t name data 0 runs results)
    (hser : ser.RoundTrips deserialize)
    (hname : ∀ i < runs.length, ∀ j < runs.length, name i = name j → i = j)
    (hne : ∀ run ∈ runs, run.2 ≠ [])
    (hsmall : ∀ run ∈ runs, (emitted ser (runCalls run)).length < 2 ^ 31) :
    ReadersAt 0 (readersOf deserialize (results.flatMap Prod.snd) (results.map Prod.fst)) runs := by
  have hreader : ∀ (i : Nat) (run : Nat × List (K × C)), runs[i]? = some run →
      ∃ r, results[i]? = some r ∧ SpillReader.new
          (deserialize (spilledBytes (results.flatMap Prod.snd) r.1)) r.1.records =
        .new run.2 run.2.length ∧ run.2.length < 2 ^ 31 := by
    intro i run hrun
    obtain ⟨r, hr, _⟩ := h.2 i run hrun
    exact ⟨r, hr, h.reader_eq hser hname hr hrun (hsmall run (List.mem_of_getElem? hrun))⟩
  have hreaders : readersOf deserialize (results.flatMap Prod.snd) (results.map Prod.fst) =
      runs.map fun run => .new run.2 run.2.length := by
    apply List.ext_getElem?
    intro i
    rw [readersOf, List.map_map, List.getElem?_map, List.getElem?_map]
    cases hrun : runs[i]? with
    | none =>
      rw [List.getElem?_eq_none_iff, ← h.1] at hrun
      rw [List.getElem?_eq_none_iff.mpr hrun]
      rfl
    | some run =>
      obtain ⟨r, hr, heq, _⟩ := hreader i run hrun
      rw [hr]
      exact congrArg some heq
  rw [ReadersAt, hreaders, List.forall₂_map_left_iff, List.forall₂_same]
  intro run hrun
  obtain ⟨i, hi⟩ := List.mem_iff_getElem?.mp hrun
  obtain ⟨_, _, _, hlt⟩ := hreader i run hi
  refine ⟨SpillReader.counts_new (hne run hrun) hlt, ?_⟩
  rw [leftAt, if_pos (Nat.zero_le _)]
  rfl

variable {streams : List (NvmBlockOutputStream S)} {calls : List SetBlock}

theorem spillStreams_readersAt
    (h : spillStreams ser t name data (runOps 0 runs) = .ok (streams, calls))
    (hser : ser.RoundTrips deserialize)
    (hname : ∀ i < runs.length, ∀ j < runs.length, name i = name j → i = j)
    (hne : ∀ run ∈ runs, run.2 ≠ [])
    (hsmall : ∀ run ∈ runs, (emitted ser (runCalls run)).length < 2 ^ 31) :
    ReadersAt 0 (readersOf deserialize calls streams) runs := by
  obtain ⟨results, hresults, rfl, rfl⟩ := createStep_results h
  rw [List.nil_append]
  exact hresults.readersAt hser hname hne hsmall

/-- When the streams can be read back from the store. -/
theorem spillStreams_opens {hash : String → UInt64} {fuel : Nat} {kv : Pmemkv}
    {puts : List PutCall} {answers : List PutAnswers}
    (h : spillStreams ser t name data (runOps 0 runs) = .ok (streams, calls))
    (hser : ser.RoundTrips deserialize)
    (hhash : ∀ i < runs.length, ∀ j < runs.length, hash (name i) = hash (name j) → i = j)
    (hne : ∀ run ∈ runs, run.2 ≠ [])
    (hnone : ∀ i < runs.length, storedUnder hash puts (name i) = [])
    (hholds : Holds hash kv puts) (ha : Accepted hash kv calls answers)
    (hfuel : puts.length + answers.length ≤ fuel) :
    ∃ kv', setBlocks hash kv (calls.zip answers) = some kv' ∧
      ((∀ b ∈ streams, OpensWith hash fuel kv' b.blockId (spilledBytes calls b)) ↔
        ∀ run ∈ runs, blockCount ser t (runCalls run) < 2 ^ 30 ∧
          (emitted ser (runCalls run)).length < 2 ^ 31) := by
  obtain ⟨kv', hset, hholds'⟩ := ha.holds hholds
  obtain ⟨results, hresults, rfl, rfl⟩ := createStep_results h
  refine ⟨kv', hset, ?_⟩
  have hfuel' : (puts ++ putCalls (results.flatMap Prod.snd) answers).length ≤ fuel := by
    rw [List.length_append, putCalls, List.length_map, List.length_zip]
    omega
  have hopens : ∀ {i : Nat} {r : NvmBlockOutputStream S × List SetBlock}
      {run : Nat × List (K × C)}, results[i]? = some r → runs[i]? = some run →
      (OpensWith hash fuel kv' r.1.blockId (spilledBytes (results.flatMap Prod.snd) r.1) ↔
        blockCount ser t (runCalls run) < 2 ^ 30 ∧
          (emitted ser (runCalls run)).length < 2 ^ 31) := by
    intro i r run hr hrun
    exact hresults.opens_iff hser hhash hnone ha.length hholds' hfuel' hr hrun
      (hne run (List.mem_of_getElem? hrun))
  rw [List.nil_append]
  constructor
  · intro hall run hrun
    obtain ⟨i, hi⟩ := List.mem_iff_getElem?.mp hrun
    obtain ⟨r, hr, _⟩ := hresults.2 i run hi
    exact (hopens hr hi).mp (hall r.1 (List.mem_map_of_mem (List.mem_of_getElem? hr)))
  · intro hall b hb
    obtain ⟨r, hr, rfl⟩ := List.mem_map.mp hb
    obtain ⟨i, hi⟩ := List.mem_iff_getElem?.mp hr
    obtain ⟨run, hrun, _⟩ := hresults.holds hi
    exact (hopens hi hrun).mpr (hall run (List.mem_of_getElem? hrun))

end

/-! ## The result -/

/-- The calls of `insertAll(records)` on the streams of a sorter outside the map stage, and how
many streams there are. -/
def spillOps {K V C : Type} [DecidableEq K] (s : NvmExternalSorter K V C)
    (sorted : Option (K → K → Int) → Entries K C → Entries K C) (input : List ((K × V) × Int)) :
    List (Nat × BlockOp (K × C)) × Nat :=
  spillAll false 0 (s.insertAll sorted input).spills

/-- Every stream is read back, and `partitionedIterator` gives every partition its result, which up
to the order is that of the same records without a spill. -/
structure Reduces {K V C S : Type} [DecidableEq K] (hash : String → UInt64) (fuel : Nat)
    (kv : Pmemkv) (deserialize : List UInt8 → List (K × C)) (s : NvmExternalSorter K V C)
    (sorted : Option (K → K → Int) → Entries K C → Entries K C)
    (pq : IterQueue K C s.keyComparator) (input : List ((K × V) × Int))
    (streams : List (NvmBlockOutputStream S)) (calls : List SetBlock)
    (out : List (Nat × List (K × C))) : Prop where
  opens : ∀ b ∈ streams, OpensWith hash fuel kv b.blockId (spilledBytes calls b)
  iterator : s.partitionedIterator sorted pq (readersOf deserialize calls streams)
    (s.insertAll sorted input).collection = some out
  result : SortResult s (input.map Prod.fst) out
  agrees : ∀ input' : List ((K × V) × Int), input'.map Prod.fst = input.map Prod.fst →
    (s.insertAll sorted input').spills = [] →
    ∃ out', s.partitionedIterator sorted pq [] (s.insertAll sorted input').collection = some out' ∧
      List.Forall₂ (fun a b => a.1 = b.1 ∧ a.2.Perm b.2) out out'

/-- For every configuration of a sorter outside the map stage, every sequence of records and memory
estimates: the sorter spills without an exception, reads every stream back and gives each
partition, in order and once, its records or aggregates, sorted if there is an ordering, and the
same up to the order as without a spill, exactly if every stream fits into the 6 MiB buffer
before every call, has fewer than `2 ^ 30` blocks and fewer than `2 ^ 31` bytes. -/
theorem reduce_side_sort_iff {K V C S : Type} [DecidableEq K] (hash : String → UInt64) (fuel : Nat)
    (service : Service) (root : Nat) (history : List Op) (kv : Pmemkv) (used : Set String)
    (ser : SerializerInstance (K × C) S) (deserialize : List UInt8 → List (K × C)) (t : Int)
    (s : NvmExternalSorter K V C) (sorted : Option (K → K → Int) → Entries K C → Entries K C)
    (pq : IterQueue K C s.keyComparator) (stageId : Int) (tmpId : Nat → Int) (data : Nat → Mem)
    (input : List ((K × V) × Int)) (answers : List PutAnswers)
    (hroot : service.Grants sizeofBase root) (hfuel : history.length + answers.length ≤ fuel)
    (hok : Admissible (Pmemkv.step hash fuel) (Pmemkv.Ok hash) (Pmemkv.create service root) history)
    (hkv : run (Pmemkv.step hash fuel) (Pmemkv.create service root) history = some kv)
    (hinj : Set.InjOn hash used) (hused : ∀ call, Op.put call ∈ history → call.key ∈ used)
    (hnames : ∀ i < (spillOps s sorted input).2, PmemBlockId.name ⟨stageId, tmpId i⟩ ∈ used)
    (htmp : Set.InjOn tmpId {i | i < (spillOps s sorted input).2})
    (hfresh : ∀ call, Op.put call ∈ history → ∀ i < (spillOps s sorted input).2,
      call.key ≠ PmemBlockId.name ⟨stageId, tmpId i⟩)
    (hser : ser.RoundTrips deserialize) (hs : s.Lawful) (hsorts : SortsEntries sorted)
    (haccepted : ∀ streams calls,
      spillStreams ser t (fun i => PmemBlockId.name ⟨stageId, tmpId i⟩) data
        (spillOps s sorted input).1 = .ok (streams, calls) → Accepted hash kv calls answers) :
    (∃ streams calls kv' out,
      spillStreams ser t (fun i => PmemBlockId.name ⟨stageId, tmpId i⟩) data
        (spillOps s sorted input).1 = .ok (streams, calls) ∧
      setBlocks hash kv (calls.zip answers) = some kv' ∧
      Reduces hash fuel kv' deserialize s sorted pq input streams calls out) ↔
    ∀ i < (spillOps s sorted input).2,
      Fits ser t (opsAt i (spillOps s sorted input).1) ∧
        blockCount ser t (opsAt i (spillOps s sorted input).1) < 2 ^ 30 ∧
        (emitted ser (opsAt i (spillOps s sorted input).1)).length < 2 ^ 31 := by
  obtain ⟨kv₁, hrun, hholds⟩ := run_holds hroot (by omega) hok
  rw [hkv, Option.some.injEq] at hrun
  subst hrun
  obtain ⟨runs, hruns⟩ := spillAll_runs 0 (s.insertAll sorted input).spills
  have hlive := length_live_le history
  have hcount : (spillOps s sorted input).2 = runs.length := by
    rw [spillOps, hruns.streams, Nat.zero_add]
  have hops : (spillOps s sorted input).1 = runOps 0 runs := hruns.ops
  rw [hcount] at hnames htmp hfresh ⊢
  rw [hops] at haccepted ⊢
  have hhash : ∀ i < runs.length, ∀ j < runs.length,
      hash (PmemBlockId.name ⟨stageId, tmpId i⟩) = hash (PmemBlockId.name ⟨stageId, tmpId j⟩) →
        i = j := by
    intro i hi j hj heq
    have hid := PmemBlockId.name_inj (hinj (hnames i hi) (hnames j hj) heq)
    rw [PmemBlockId.mk.injEq] at hid
    exact htmp hi hj hid.2
  have hnone : ∀ i < runs.length,
      storedUnder hash (live history) (PmemBlockId.name ⟨stageId, tmpId i⟩) = [] := fun i hi =>
    storedUnder_fresh hinj (fun put hput => hused put (mem_of_mem_live hput)) (hnames i hi)
      fun put hput => hfresh put (mem_of_mem_live hput) i hi
  rw [forall_opsAt_runOps (P := fun ops => Fits ser t ops ∧ blockCount ser t ops < 2 ^ 30 ∧
    (emitted ser ops).length < 2 ^ 31)]
  have hlength : (live history).length + answers.length ≤ fuel := by omega
  have hopens := fun streams calls hstreams => spillStreams_opens hstreams hser hhash
    hruns.nonempty hnone hholds (haccepted streams calls hstreams) hlength
  constructor
  · rintro ⟨streams, calls, kv', out, hstreams, hset, hreduces⟩ run hmem
    obtain ⟨kv₂, hset₂, hiff⟩ := hopens streams calls hstreams
    rw [hset, Option.some.injEq] at hset₂
    subst hset₂
    have hfits := (createStep_ok_iff ser t _ data [] runs).mp ⟨_, hstreams⟩
    exact ⟨hfits run hmem, hiff.mp hreduces.opens run hmem⟩
  · intro hall
    obtain ⟨⟨streams, calls⟩, hstreams⟩ := (createStep_ok_iff ser t
      (fun i => PmemBlockId.name ⟨stageId, tmpId i⟩) data [] runs).mpr fun run hmem =>
        (hall run hmem).1
    obtain ⟨kv', hset, hiff⟩ := hopens streams calls hstreams
    have hreaders := spillStreams_readersAt hstreams hser
      (fun i hi j hj heq => hhash i hi j hj (by rw [heq])) hruns.nonempty
      fun run hmem => (hall run hmem).2.2
    obtain ⟨out, hout, hresult⟩ := partitionedIterator_results hs hsorts pq hruns hreaders
    refine ⟨streams, calls, kv', out, hstreams, hset,
      hiff.mpr fun run hmem => (hall run hmem).2, hout, hresult, ?_⟩
    intro input' hrecords hspills
    have hnothing : SpilledRuns 0 (s.insertAll sorted input').spills
        (spillAll false 0 (s.insertAll sorted input').spills) [] := by
      rw [hspills]
      exact ⟨rfl, rfl, rfl, by simp, by simp⟩
    obtain ⟨out', hout', hresult'⟩ := partitionedIterator_results hs hsorts pq hnothing .nil
    rw [hrecords] at hresult'
    exact ⟨out', hout', hresult.agree hresult'⟩

/-! ## A sample sorter -/

/-- The stable sort meets its contract. -/
theorem sortEntries_sorts {K C : Type} : SortsEntries (sortEntries : _ → Entries K C → _) := by
  constructor
  · exact sortEntries_perm
  · intro entries
    have : Std.Total (Before (K := K) (C := C) none) := ⟨fun a b => by
      rw [before_none_iff, before_none_iff]
      exact Nat.le_total _ _⟩
    have : IsTrans ((Nat × K) × C) (Before none) := ⟨fun a b c hab hbc => by
      rw [before_none_iff] at hab hbc ⊢
      exact Nat.le_trans hab hbc⟩
    exact List.pairwise_insertionSort _ _
  · intro compare hcmp entries
    have : Std.Total (Before (K := K) (C := C) (some compare)) := ⟨fun a b => by
      have htotal := hcmp.total a.1.2 b.1.2
      rw [before_some_iff, before_some_iff]
      omega⟩
    have : IsTrans ((Nat × K) × C) (Before (some compare)) := ⟨fun a b c hab hbc => by
      have htrans := hcmp.trans a.1.2 b.1.2 c.1.2
      rw [before_some_iff] at hab hbc ⊢
      omega⟩
    exact List.pairwise_insertionSort _ _

theorem sumSorter_lawful : sumSorter.Lawful := by
  constructor
  · intro aggregator haggregator
    rw [← Option.some.inj haggregator]
    exact ⟨sum_lawful, ⟨Nat.add_comm⟩⟩
  · intro ordering hordering
    rw [← Option.some.inj hordering]
    exact ⟨fun a b => by omega, fun a b c hab hbc => by omega⟩
  · intro ordering hordering _ a b hzero
    rw [← Option.some.inj hordering] at hzero
    have hsub : (a.toNat : Int) - b.toNat = 0 := hzero
    exact UInt8.toNat_inj.mp (by omega)

/-- `xxh::xxhash<64>` on the name of the first stream. -/
def spillHash : String → UInt64 := fun key =>
  if key = "reduce_spill_0_0" then 0xbe6822f825018694 else 0x2db8a6c2a9a0bead

/-- One run is spilled and merged with the last record. -/
theorem reduce_side_sort_sample :
    ∃ streams calls kv' out,
      spillStreams (arraySerializer unaryBytes) 4194304 (fun i => PmemBlockId.name ⟨0, i⟩)
        (fun _ _ => 0) (spillOps sumSorter sortEntries spillingInput).1 = .ok (streams, calls) ∧
      setBlocks spillHash (Pmemkv.create sampleService 4096) (calls.zip (shuffleAnswers.take 1)) =
        some kv' ∧
      Reduces spillHash 1 kv' (unaryRecords none) sumSorter sortEntries
        (iterQueue sumSorter_lawful.keyComparator) spillingInput streams calls out := by
  have hcount : (spillOps sumSorter sortEntries spillingInput).2 = 1 := by decide +kernel
  have hiff := reduce_side_sort_iff spillHash 1 sampleService 4096 [] _ {"reduce_spill_0_0"}
    (arraySerializer unaryBytes) (unaryRecords none) 4194304 sumSorter sortEntries
    (iterQueue sumSorter_lawful.keyComparator) 0 (fun i => i) (fun _ _ => 0) spillingInput
    (shuffleAnswers.take 1) (by decide) (by decide) trivial rfl (Set.injOn_singleton _ _) (by simp)
    ?_ (fun i _ j _ heq => Int.ofNat.inj heq) (by simp) unarySerializer_roundTrips sumSorter_lawful
    sortEntries_sorts ?_
  · refine hiff.mpr fun i hi => ?_
    rw [hcount] at hi
    obtain rfl : i = 0 := by omega
    refine ⟨?_, by decide +kernel, by decide +kernel⟩
    unfold Fits Account.HasRoom
    decide +kernel
  · intro i hi
    rw [hcount] at hi
    obtain rfl : i = 0 := by omega
    show PmemBlockId.name ⟨0, 0⟩ = "reduce_spill_0_0"
    decide
  · intro streams calls hstreams
    have hcalls : (spillStreams (arraySerializer unaryBytes) 4194304
        (fun i => PmemBlockId.name ⟨0, i⟩) (fun _ _ => 0)
        (spillOps sumSorter sortEntries spillingInput).1).toOption.map Prod.snd =
          some [⟨"reduce_spill_0_0", [1, 1, 1, 0], true⟩] := by
      decide +kernel
    rw [show calls = _ from map_of_toOption hstreams hcalls]
    exact ⟨rfl, by decide⟩

/-- 32 records of one key, with a sum that is serialized to more than 6 MiB. -/
def overflowingInput : List ((UInt8 × Nat) × Int) :=
  ((1, 6291456), 5242880) :: List.replicate 31 ((1, 0), 5242880)

/-- The spill of such a combiner raises an exception. -/
theorem spilled_combiner_overflows :
    ¬∃ r, spillStreams (arraySerializer unaryBytes) 4194304 (fun i => PmemBlockId.name ⟨0, i⟩)
      (fun _ _ => 0) (spillOps sumSorter sortEntries overflowingInput).1 = .ok r := by
  have hops : (spillOps sumSorter sortEntries overflowingInput).1 =
      runOps 0 [(1, [(1, 6291456)])] := by
    decide +kernel
  rw [hops]
  intro hok
  have hfits := (createStep_ok_iff (arraySerializer unaryBytes) 4194304 _ _ [] _).mp hok
  exact not_fits_unary (Nat.le_refl 6291456) (hfits _ (List.mem_singleton_self _))

end SparkNvm.Shuffle
