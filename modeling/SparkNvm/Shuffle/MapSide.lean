import SparkNvm.Shuffle.RoundTrip
import SparkNvm.Shuffle.Sorter

/-!
# Map-side combine

`nvmShuffleWriter.write` with an aggregator: `insertAll` and `forceSpillToPmem` on a
sorter that spills to the writer's own streams.

* `combineOps` are the calls on the streams, and `spillAll_writesForced` says what they write to
  a partition.
* `map_side_combine_iff`: the combiners stored in a partition combine to the aggregates of
  its keys exactly if the streams fit into the staging buffer.
-/

namespace SparkNvm.Shuffle

open Lib Native Storage

section

variable {K V C S : Type}

/-- The calls of `insertAll(records)` and `forceSpillToPmem()` on the streams of a sorter
in the map stage. -/
def combineOps [DecidableEq K] (s : NvmExternalSorter K V C)
    (sorted : Option (K → K → Int) → Entries K C → Entries K C) (records : List ((K × V) × Int)) :
    List (Nat × BlockOp (K × C)) :=
  let st := s.insertAll sorted records
  (spillAll true s.numPartitions (st.spills ++ [sorted s.comparator st.collection])).1

/-- `write(records)` with map-side combine, for a sorter with the aggregator, the
partitioner and the ordering of the dependency. -/
def writeCombined [DecidableEq K] (ser : SerializerInstance (K × C) S) (t : Int)
    (s : NvmExternalSorter K V C) (sorted : Option (K → K → Int) → Entries K C → Entries K C)
    (shuffleId mapId : Nat) (data : Nat → Mem) (records : List ((K × V) × Int)) :
    Except JavaError MapOutput :=
  writeWith ser t shuffleId mapId s.numPartitions data (combineOps s sorted records)

/-! ## The calls on one stream -/

/-- The calls write `records`, in order, and if there are any the last one forces. -/
structure WritesForced {R : Type} (ops : List (BlockOp R)) (records : List R) : Prop where
  records : recordsOf ops = records
  forced : ops = [] ∨ ∃ before, ops = before ++ [.maybeSpill true]

section

variable {R : Type} {ops ops' : List (BlockOp R)} {records records' : List R}

theorem recordsOf_append (ops ops' : List (BlockOp R)) :
    recordsOf (ops ++ ops') = recordsOf ops ++ recordsOf ops' :=
  List.filterMap_append

theorem WritesForced.append (h : WritesForced ops records) (h' : WritesForced ops' records') :
    WritesForced (ops ++ ops') (records ++ records') := by
  constructor
  · rw [recordsOf_append, h.records, h'.records]
  · rcases h'.forced with rfl | ⟨before, rfl⟩
    · rw [List.append_nil]
      exact h.forced
    · exact .inr ⟨ops ++ before, (List.append_assoc _ _ _).symm⟩

theorem WritesForced.write {record : R} (h : WritesForced ops records) (hne : ops ≠ []) :
    WritesForced (.write record :: ops) (record :: records) := by
  constructor
  · rw [← h.records]
    rfl
  · obtain ⟨before, rfl⟩ := h.forced.resolve_left hne
    exact .inr ⟨.write record :: before, rfl⟩

theorem WritesForced.force (h : WritesForced ops records) :
    WritesForced (.maybeSpill true :: ops) records := by
  constructor
  · rw [← h.records]
    rfl
  · rcases h.forced with rfl | ⟨before, rfl⟩
    · exact .inr ⟨[], rfl⟩
    · exact .inr ⟨.maybeSpill true :: before, rfl⟩

theorem writesForced_nil : WritesForced ([] : List (BlockOp R)) [] := ⟨rfl, .inl rfl⟩

end

/-- From a current partition on, every stream gets the entries of its partition, the
current one at least a forced spill. -/
theorem spill_current (streams q p : Nat) (entries : Entries K C) :
    WritesForced (opsAt p (spillMemoryIteratorToPmem true streams (some (q, q)) entries).1)
        (atPartition p entries) ∧
      (p = q → opsAt p (spillMemoryIteratorToPmem true streams (some (q, q)) entries).1 ≠ []) := by
  induction entries generalizing q with
  | nil =>
    rw [spillMemoryIteratorToPmem]
    by_cases hq : q = p
    · subst hq
      rw [opsAt_cons_self]
      exact ⟨writesForced_nil.force, fun _ => List.cons_ne_nil _ _⟩
    · rw [opsAt_cons_ne hq]
      exact ⟨writesForced_nil, fun heq => absurd heq.symm hq⟩
  | cons entry entries ih =>
    obtain ⟨⟨q', key⟩, combiner⟩ := entry
    obtain ⟨hrest, hnonempty⟩ := ih q'
    -- the write goes to the stream of the entry
    have hwrite : WritesForced (opsAt p ((q', BlockOp.write (key, combiner)) ::
        (spillMemoryIteratorToPmem true streams (some (q', q')) entries).1))
          (atPartition p (((q', key), combiner) :: entries)) := by
      by_cases hp : q' = p
      · subst hp
        rw [opsAt_cons_self, atPartition_cons_self]
        exact hrest.write (hnonempty rfl)
      · rw [opsAt_cons_ne hp, atPartition_cons_ne hp]
        exact hrest
    rw [spillMemoryIteratorToPmem]
    by_cases hsame : q = q'
    · subst hsame
      rw [if_pos rfl]
      refine ⟨hwrite, ?_⟩
      rintro rfl
      rw [opsAt_cons_self]
      exact List.cons_ne_nil _ _
    · rw [if_neg hsame]
      dsimp only [getPartitionByteBufferArray, if_true]
      by_cases hq : q = p
      · subst hq
        rw [opsAt_cons_self]
        exact ⟨hwrite.force, fun _ => List.cons_ne_nil _ _⟩
      · rw [opsAt_cons_ne hq]
        exact ⟨hwrite, fun heq => absurd heq.symm hq⟩

/-- A spill forces every stream that it writes to. -/
theorem spill_writesForced (streams p : Nat) (entries : Entries K C) :
    WritesForced (opsAt p (spillMemoryIteratorToPmem true streams none entries).1)
      (atPartition p entries) := by
  cases entries with
  | nil => exact writesForced_nil
  | cons entry entries =>
    obtain ⟨⟨q, key⟩, combiner⟩ := entry
    obtain ⟨hrest, hnonempty⟩ := spill_current streams q p entries
    show WritesForced (opsAt p ((q, .write (key, combiner)) ::
      (spillMemoryIteratorToPmem true streams (some (q, q)) entries).1)) _
    by_cases hp : q = p
    · subst hp
      rw [opsAt_cons_self, atPartition_cons_self]
      exact hrest.write (hnonempty rfl)
    · rw [opsAt_cons_ne hp, atPartition_cons_ne hp]
      exact hrest

theorem spillAll_writesForced (streams p : Nat) (spills : List (Entries K C)) :
    WritesForced (opsAt p (spillAll true streams spills).1) (atPartition p spills.flatten) := by
  induction spills generalizing streams with
  | nil => exact writesForced_nil
  | cons entries spills ih =>
    rw [spillAll, opsAt_append, List.flatten_cons, atPartition_append]
    exact (spill_writesForced streams p entries).append (ih _)

/-- A spill calls only streams of partitions that have entries. -/
theorem partition_of_spill {streams : Nat} (cur : Option Nat) {entries : Entries K C}
    {c : Nat × BlockOp (K × C)}
    (hc : c ∈ (spillMemoryIteratorToPmem true streams (cur.map fun q => (q, q)) entries).1) :
    cur = some c.1 ∨ ∃ entry ∈ entries, entry.1.1 = c.1 := by
  induction entries generalizing cur with
  | nil =>
    cases cur with
    | none => simp [spillMemoryIteratorToPmem] at hc
    | some q =>
      rw [Option.map_some, spillMemoryIteratorToPmem, List.mem_singleton] at hc
      exact .inl (by rw [hc])
  | cons entry entries ih =>
    obtain ⟨⟨q', key⟩, combiner⟩ := entry
    -- the write itself, and the rest with the partition of the entry as the current one
    have hwrite : c ∈ (q', BlockOp.write (key, combiner)) ::
        (spillMemoryIteratorToPmem true streams (some (q', q')) entries).1 →
        ∃ entry ∈ ((q', key), combiner) :: entries, entry.1.1 = c.1 := by
      intro hmem
      cases List.mem_cons.mp hmem with
      | inl heq => exact ⟨_, List.mem_cons_self, by rw [heq]⟩
      | inr hrest =>
        cases ih (some q') hrest with
        | inl hcur => exact ⟨_, List.mem_cons_self, Option.some.inj hcur⟩
        | inr hold =>
          obtain ⟨entry, hentry, heq⟩ := hold
          exact ⟨entry, List.mem_cons_of_mem _ hentry, heq⟩
    cases cur with
    | none => exact .inr (hwrite hc)
    | some q =>
      rw [Option.map_some, spillMemoryIteratorToPmem] at hc
      by_cases hsame : q = q'
      · subst hsame
        rw [if_pos rfl] at hc
        exact .inr (hwrite hc)
      · rw [if_neg hsame] at hc
        cases List.mem_cons.mp hc with
        | inl heq => exact .inl (by rw [heq])
        | inr hrest => exact .inr (hwrite hrest)

theorem partition_of_spillAll {streams : Nat} {spills : List (Entries K C)}
    {c : Nat × BlockOp (K × C)} (hc : c ∈ (spillAll true streams spills).1) :
    ∃ entry ∈ spills.flatten, entry.1.1 = c.1 := by
  induction spills generalizing streams with
  | nil => simp [spillAll] at hc
  | cons entries spills ih =>
    rw [spillAll] at hc
    rw [List.flatten_cons]
    cases List.mem_append.mp hc with
    | inl hfirst =>
      obtain ⟨entry, hentry, heq⟩ :=
        (partition_of_spill none hfirst).resolve_left (Option.some_ne_none _).symm
      exact ⟨entry, List.mem_append_left _ hentry, heq⟩
    | inr hrest =>
      obtain ⟨entry, hentry, heq⟩ := ih hrest
      exact ⟨entry, List.mem_append_right _ hentry, heq⟩

end

/-! ## The records of a block -/

/-- The records that a writer has left in a partition: none where it reported nothing,
else those of the bytes in the store. -/
def HoldsRecords {R : Type} (hash : String → UInt64) (fuel : Nat) (kv : Pmemkv)
    (deserialize : List UInt8 → List R) (shuffleId mapId : Nat) (out : MapOutput) (p : Nat)
    (stored : List R) : Prop :=
  (out.partitionLengths[p]? = some 0 ∧ stored = []) ∨
    ∃ bytes, getPartitionSize hash kv (shuffleBlockName shuffleId mapId p) = some bytes.length ∧
      (∀ mb : Pmemkv.MemoryBlock, mb.size = bytes.length →
        ∃ mb', kv.get hash fuel (shuffleBlockName shuffleId mapId p) mb = some (0, mb') ∧
          loadBytes mb'.data 0 mb.size = bytes) ∧
      deserialize bytes = stored

section

variable {R S : Type} {hash : String → UInt64} {fuel : Nat} {kv : Pmemkv} {puts : List PutCall}
variable {ser : SerializerInstance R S} {deserialize : List UInt8 → List R}
variable {shuffleId mapId n p : Nat} {ops : List (Nat × BlockOp R)} {out : MapOutput}
variable {answers : List PutAnswers} {records : List R}

/-- A stream whose calls end forced leaves the records that they write. -/
theorem holdsRecords_of_forced (hser : ser.RoundTrips deserialize)
    (hfin : Finishes ser (shuffleBlockName shuffleId mapId) n ops out) (hp : p < n)
    (hforced : WritesForced (opsAt p ops) records)
    (hstored : storedBytes hash (puts ++ putCalls out.calls answers)
      (shuffleBlockName shuffleId mapId p) = emitted ser (opsAt p ops))
    (hholds : Holds hash kv (puts ++ putCalls out.calls answers))
    (hfuel : (puts ++ putCalls out.calls answers).length ≤ fuel) :
    HoldsRecords hash fuel kv deserialize shuffleId mapId out p records := by
  rcases hforced.forced with hnone | ⟨before, hbefore⟩
  · have hrecords := hforced.records
    rw [hnone] at hrecords
    exact .inl ⟨hfin.idle p hp hnone, hrecords.symm⟩
  · have hrecords : recordsOf before = records := by
      rw [← hforced.records, hbefore, recordsOf_append]
      exact (List.append_nil _).symm
    have hread := hser.deserialize_emitted before
    have hcount := hser.byte_per_record before
    rw [← hbefore, hrecords] at hread hcount
    by_cases hempty : emitted ser (opsAt p ops) = []
    · have hlength := hfin.lengths p hp (.maybeSpill true)
        (by rw [hbefore, List.getLast?_concat]) rfl
      rw [hempty, List.length_nil, Int.natCast_zero, wrap32_zero] at hlength
      rw [hempty] at hcount
      exact .inl ⟨hlength, List.length_eq_zero_iff.mp (Nat.le_zero.mp hcount)⟩
    · have hne : storedUnder hash (puts ++ putCalls out.calls answers)
          (shuffleBlockName shuffleId mapId p) ≠ [] := by
        intro hnil
        rw [storedBytes, hnil] at hstored
        exact hempty hstored.symm
      refine .inr ⟨emitted ser (opsAt p ops), ?_, fun mb hmb => ?_, hread⟩
      · rw [getPartitionSize_eq hholds.indexHolds, hstored]
      · have hget := get_all hholds.indexHolds hfuel hne mb (by rw [hstored]; exact hmb)
        rw [hstored] at hget
        refine ⟨_, hget, ?_⟩
        rw [hmb]
        exact loadBytes_storeBytes_self _ _ _

end

/-! ## Aggregates -/

/-- The combiners in a partition: only of its own keys, at least one for every key of the
input, and together the aggregate of the key's values. -/
structure Combines {K V C : Type} [DecidableEq K] (aggregator : Aggregator V C)
    (getPartition : K → Nat) (p : Nat) (records : List (K × V)) (stored : List (K × C)) : Prop where
  partition : ∀ entry ∈ stored, getPartition entry.1 = p
  combined : ∀ key, getPartition key = p →
    combineAll aggregator.mergeCombiners (valuesAt key stored) =
      aggregator.aggregate (valuesAt key records)
  occurs : ∀ record ∈ records, getPartition record.1 = p →
    ∃ combiner, (record.1, combiner) ∈ stored

section

variable {K V C S : Type} [DecidableEq K] {s : NvmExternalSorter K V C}
variable {aggregator : Aggregator V C} {records : List (K × V)} {st : Inserted K C}

theorem Gathers.combines (h : Gathers s aggregator records st) (p : Nat) :
    Combines aggregator s.getPartition p records (atPartition p st.entries) := by
  have hcombined : ∀ key, s.getPartition key = p →
      combineAll aggregator.mergeCombiners (valuesAt key (atPartition p st.entries)) =
        aggregator.aggregate (valuesAt key records) := by
    rintro key rfl
    rw [valuesAt_atPartition]
    exact h.combined key
  constructor
  · intro entry hentry
    obtain ⟨entry', hmem, rfl⟩ := List.mem_map.mp hentry
    obtain ⟨hmem, hp⟩ := List.mem_filter.mp hmem
    rw [← h.partition entry' hmem]
    exact of_decide_eq_true hp
  · exact hcombined
  · intro record hrecord hp
    have heq := hcombined record.1 hp
    -- a key of the input has an aggregate, so there is a combiner to make it from
    match hvalues : valuesAt record.1 (atPartition p st.entries) with
    | combiner :: _ =>
      refine ⟨combiner, mem_valuesAt.mp ?_⟩
      rw [hvalues]
      exact List.mem_cons_self
    | [] =>
      have hmem : record.2 ∈ valuesAt record.1 records := mem_valuesAt.mpr hrecord
      rw [hvalues] at heq
      cases hrecords : valuesAt record.1 records with
      | nil =>
        rw [hrecords] at hmem
        exact absurd hmem List.not_mem_nil
      | cons value values =>
        rw [hrecords] at heq
        exact absurd heq (Option.some_ne_none _).symm

variable {ser : SerializerInstance (K × C) S} {t : Int} {shuffleId mapId : Nat} {data : Nat → Mem}
variable {sorted : Option (K → K → Int) → Entries K C → Entries K C}
variable {input : List ((K × V) × Int)} {partitioner : Partitioner K}

/-- The writer finishes exactly if every partition fits into the staging buffer. -/
theorem writeCombined_ok_iff (ser : SerializerInstance (K × C) S) (t : Int) (shuffleId mapId : Nat)
    (data : Nat → Mem) (hlaw : aggregator.Lawful) (hagg : s.aggregator = some aggregator)
    (hpart : s.partitioner = some partitioner)
    (hperm : ∀ cmp entries, (sorted cmp entries).Perm entries) (input : List ((K × V) × Int)) :
    (∃ out, writeCombined ser t s sorted shuffleId mapId data input = .ok out) ↔
      ∀ p < s.numPartitions, Fits ser t (opsAt p (combineOps s sorted input)) := by
  have hgathers := (insertAll_gathers hlaw hagg hperm input).spill hperm 0
  have hlt : ∀ c ∈ combineOps s sorted input, c.1 < s.numPartitions := by
    intro c hc
    obtain ⟨entry, hentry, heq⟩ := partition_of_spillAll hc
    have hmem : entry.1.1 = s.getPartition entry.1.2 :=
      hgathers.partition entry (List.mem_append_left _ hentry)
    rw [← heq, hmem, NvmExternalSorter.numPartitions, hpart]
    exact s.getPartition_lt hpart
  rw [writeCombined, writeWith, exists_map_ok, runStreams_ok_iff, and_iff_right hlt]

end

/-- For every sequence of records and memory estimates, every partitioner, every ordering
or none, and every aggregator with an associative `mergeCombiners` that `mergeValue`
agrees with: the writer finishes and leaves in each partition combiners of its own keys
only, at least one for every key of the input, that combine in stored order to the
aggregate of the key's values, exactly if before every call on a stream the bytes staged
since the last spill and the bytes that the serializer adds fit into the 6 MiB buffer. -/
theorem map_side_combine_iff {K V C S : Type} [DecidableEq K] (hash : String → UInt64) (fuel : Nat)
    (service : Service) (root : Nat) (history : List Op) (kv : Pmemkv) (used : Set String)
    (ser : SerializerInstance (K × C) S) (deserialize : List UInt8 → List (K × C)) (t : Int)
    (s : NvmExternalSorter K V C) (aggregator : Aggregator V C) (partitioner : Partitioner K)
    (sorted : Option (K → K → Int) → Entries K C → Entries K C) (shuffleId mapId : Nat)
    (data : Nat → Mem) (input : List ((K × V) × Int)) (answers : List PutAnswers)
    (hroot : service.Grants sizeofBase root) (hfuel : history.length + answers.length ≤ fuel)
    (hok : Admissible (Pmemkv.step hash fuel) (Pmemkv.Ok hash) (Pmemkv.create service root) history)
    (hkv : run (Pmemkv.step hash fuel) (Pmemkv.create service root) history = some kv)
    (hinj : Set.InjOn hash used) (hused : ∀ call, Op.put call ∈ history → call.key ∈ used)
    (hnames : ∀ p < s.numPartitions, shuffleBlockName shuffleId mapId p ∈ used)
    (hfresh : ∀ call, Op.put call ∈ history → ∀ p < s.numPartitions,
      call.key ≠ shuffleBlockName shuffleId mapId p)
    (hser : ser.RoundTrips deserialize) (hlaw : aggregator.Lawful)
    (hagg : s.aggregator = some aggregator) (hpart : s.partitioner = some partitioner)
    (hperm : ∀ cmp entries, (sorted cmp entries).Perm entries)
    (haccepted : ∀ out, writeCombined ser t s sorted shuffleId mapId data input = .ok out →
      Accepted hash kv out.calls answers) :
    (∃ out kv', writeCombined ser t s sorted shuffleId mapId data input = .ok out ∧
      setBlocks hash kv (out.calls.zip answers) = some kv' ∧
      ∀ p < s.numPartitions, ∃ stored,
        HoldsRecords hash fuel kv' deserialize shuffleId mapId out p stored ∧
        Combines aggregator partitioner.getPartition p (input.map Prod.fst) stored) ↔
    ∀ p < s.numPartitions, Fits ser t (opsAt p (combineOps s sorted input)) := by
  obtain ⟨kv₁, hrun, hholds⟩ := run_holds hroot (by omega) hok
  rw [hkv, Option.some.injEq] at hrun
  subst hrun
  have hiff := writeCombined_ok_iff ser t shuffleId mapId data hlaw hagg hpart hperm input
  constructor
  · rintro ⟨out, kv', hwrite, _⟩
    exact hiff.mp ⟨out, hwrite⟩
  · intro hfits
    obtain ⟨out, hwrite⟩ := hiff.mpr hfits
    have ha := haccepted out hwrite
    obtain ⟨kv', hset, hholds'⟩ := ha.holds hholds
    have hfin := writeWith_finishes hwrite
    have hlive := length_live_le history
    have hgathers := (insertAll_gathers hlaw hagg hperm input).spill hperm 0
    refine ⟨out, kv', hwrite, hset, fun p hp => ⟨atPartition p ((s.insertAll sorted input).spills ++
      [sorted s.comparator (s.insertAll sorted input).collection]).flatten, ?_, ?_⟩⟩
    · have hnone := storedUnder_fresh hinj (fun put hput => hused put (mem_of_mem_live hput))
        (hnames p hp) fun put hput => hfresh put (mem_of_mem_live hput) p hp
      have hempty : storedBytes hash (live history) (shuffleBlockName shuffleId mapId p) = [] := by
        rw [storedBytes, hnone]
        rfl
      have hstored := hfin.storedBytes (fun p hp q hq heq =>
        (shuffleBlockName_inj (hinj (hnames p hp) (hnames q hq) heq)).2.2)
          (live history) ha.length hp
      rw [hempty, List.nil_append, hfin.bytes hser.lawful p hp] at hstored
      refine holdsRecords_of_forced hser hfin hp (spillAll_writesForced _ p _) hstored hholds' ?_
      rw [List.length_append, putCalls, List.length_map, List.length_zip]
      omega
    · have hcombines := hgathers.combines p
      rw [Inserted.entries, List.append_nil] at hcombines
      rw [← funext (s.getPartition_eq hpart)]
      exact hcombines

/-! ## A sample sorter -/

/-- The key as a byte, and the combiner in ones up to a zero. -/
def unaryBytes (record : UInt8 × Nat) : List UInt8 :=
  record.1 :: (List.replicate record.2 1 ++ [0])

/-- Reads `unaryBytes`, with the record that has been begun. -/
def unaryRecords : Option (UInt8 × Nat) → List UInt8 → List (UInt8 × Nat)
  | _, [] => []
  | none, key :: bytes => unaryRecords (some (key, 0)) bytes
  | some (key, ones), b :: bytes =>
    if b = 1 then unaryRecords (some (key, ones + 1)) bytes
    else (key, ones) :: unaryRecords none bytes

theorem unaryRecords_ones (key : UInt8) (ones m : Nat) (bytes : List UInt8) :
    unaryRecords (some (key, ones)) (List.replicate m 1 ++ 0 :: bytes) =
      (key, ones + m) :: unaryRecords none bytes := by
  induction m generalizing ones with
  | zero => rfl
  | succ m ih =>
    rw [List.replicate_succ, List.cons_append, unaryRecords, if_pos rfl, ih, Nat.add_right_comm]
    rfl

theorem unarySerializer_roundTrips :
    (arraySerializer unaryBytes).RoundTrips (unaryRecords none) := by
  refine arraySerializer_roundTrips (fun records => ?_) fun record => List.cons_ne_nil _ _
  induction records with
  | nil => rfl
  | cons record records ih =>
    rw [List.flatMap_cons, unaryBytes, List.cons_append, List.append_assoc, unaryRecords,
      List.singleton_append, unaryRecords_ones, ih, Nat.zero_add]

/-- Sums for each key, with the default threshold; even keys go to partition 0. -/
def sumSorter : NvmExternalSorter UInt8 Nat Nat where
  aggregator := some ⟨id, (· + ·), (· + ·)⟩
  partitioner := some ⟨2, fun key => key.toNat % 2, fun _ => Nat.mod_lt _ (by decide)⟩
  ordering := some fun a b => (a.toNat : Int) - b.toNat
  hashCode key := key.toNat
  asInstanceOf := id
  inMemoryCollectionSizeThreshold := 5242880

theorem sum_lawful : Aggregator.Lawful (⟨id, (· + ·), (· + ·)⟩ : Aggregator Nat Nat) :=
  ⟨⟨Nat.add_assoc⟩, fun _ _ => rfl⟩

theorem sortEntries_perm {K C : Type} (cmp : Option (K → K → Int)) (entries : Entries K C) :
    (sortEntries cmp entries).Perm entries :=
  List.perm_insertionSort _ _

/-- The value 2, 31 zeros that fill the collection up to a spill, and the value 3. -/
def spillingInput : List ((UInt8 × Nat) × Int) :=
  ((1, 2), 0) :: List.replicate 31 ((1, 0), 5242880) ++ [((1, 3), 0)]

theorem map_side_combine_sample :
    (∃ out kv', writeCombined (arraySerializer unaryBytes) 4194304 sumSorter sortEntries 0 0
        (fun _ _ => 0) spillingInput = .ok out ∧
      setBlocks shuffleHash (Pmemkv.create sampleService 4096) (out.calls.zip shuffleAnswers) =
        some kv' ∧
      ∀ p < 2, ∃ stored, HoldsRecords shuffleHash 2 kv' (unaryRecords none) 0 0 out p stored ∧
        Combines ⟨id, (· + ·), (· + ·)⟩ (fun key => key.toNat % 2) p
          (spillingInput.map Prod.fst) stored) ↔
    ∀ p < 2, Fits (arraySerializer unaryBytes) 4194304
      (opsAt p (combineOps sumSorter sortEntries spillingInput)) := by
  refine map_side_combine_iff shuffleHash 2 sampleService 4096 [] _
    {"shuffle_0_0_0", "shuffle_0_0_1"} (arraySerializer unaryBytes) _ 4194304 sumSorter _
    ⟨2, fun key => key.toNat % 2, fun _ => Nat.mod_lt _ (by decide)⟩ sortEntries 0 0 _ spillingInput
    shuffleAnswers (by decide) (by decide) trivial rfl shuffleHash_injOn (by simp) ?_ (by simp)
    unarySerializer_roundTrips sum_lawful rfl rfl sortEntries_perm ?_
  · intro p hp
    obtain rfl | rfl : p = 0 ∨ p = 1 := by
      have hlt : p < 2 := hp
      omega
    · exact .inl (by decide)
    · exact .inr (by decide)
  · intro out hout
    have hcalls : (writeCombined (arraySerializer unaryBytes) 4194304 sumSorter sortEntries 0 0
        (fun _ _ => 0) spillingInput).toOption.map MapOutput.calls =
          some [⟨"shuffle_0_0_1", [1, 1, 1, 0], true⟩,
            ⟨"shuffle_0_0_1", [1, 1, 1, 1, 0], false⟩] := by
      decide +kernel
    rw [map_of_toOption hout hcalls]
    exact ⟨rfl, by decide⟩

/-- A record of more than 6 MiB does not fit. -/
theorem not_fits_unary {value : Nat} (hvalue : 6291456 ≤ value) :
    ¬Fits (arraySerializer unaryBytes) 4194304 [.write (1, value), .maybeSpill true] := by
  intro hfits
  have hroom : 0 + (unaryBytes (1, value)).length ≤ bufferLength := hfits.2.1
  rw [unaryBytes, List.length_cons, List.length_append, List.length_replicate,
    bufferLength] at hroom
  omega

/-- One combiner that is serialized to more than 6 MiB. -/
theorem combiner_overflows :
    ¬∃ out, writeCombined (arraySerializer unaryBytes) 4194304 sumSorter sortEntries 0 0
      (fun _ _ => 0) [((1, 6291456), 0)] = .ok out := by
  rw [writeCombined_ok_iff (arraySerializer unaryBytes) 4194304 0 0 (fun _ _ => 0) sum_lawful
    (s := sumSorter) rfl rfl sortEntries_perm]
  exact fun hall => not_fits_unary (Nat.le_refl 6291456) (hall 1 (by decide))

end SparkNvm.Shuffle
