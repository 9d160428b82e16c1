import SparkNvm.Shuffle.SpillRuns

/-!
# What the sorter gives for a partition

The two paths of `partitionedIterator`, as a relation between the inserted records and what comes
out for a partition.

* `SortsEntries` and `NvmExternalSorter.Lawful` are the contracts of Spark's collections and of the
  sorter's parameters.
* `PartitionResult` is what should come out, and `PartitionResult.perm` says that it leaves only the
  order open.
* `mergeIterators_result` and `atPartition_result`: both paths give it.
-/

namespace SparkNvm.Shuffle

open Lib

section

variable {K V C : Type}

/-! ## Contracts -/

/-- Spark's sort of a collection, by partition and within a partition by a comparator. -/
structure SortsEntries (sorted : Option (K → K → Int) → Entries K C → Entries K C) : Prop where
  perm : ∀ cmp entries, (sorted cmp entries).Perm entries
  by_partition : ∀ entries, (sorted none entries).Pairwise (Before none)
  by_key : ∀ compare, LawfulComparator compare → ∀ entries,
    (sorted (some compare) entries).Pairwise (Before (some compare))

/-- The aggregator merges in any order, and the ordering is one; with an aggregator it tells
different keys apart. -/
structure NvmExternalSorter.Lawful (s : NvmExternalSorter K V C) : Prop where
  aggregator : ∀ aggregator, s.aggregator = some aggregator →
    aggregator.Lawful ∧ Std.Commutative aggregator.mergeCombiners
  ordering : ∀ ordering, s.ordering = some ordering → LawfulComparator ordering
  total : ∀ ordering, s.ordering = some ordering → s.aggregator.isSome →
    ∀ a b, ordering a b = 0 → a = b

variable {s : NvmExternalSorter K V C}
variable {sorted : Option (K → K → Int) → Entries K C → Entries K C}

theorem NvmExternalSorter.Lawful.keyComparator (h : s.Lawful) :
    LawfulComparator s.keyComparator := by
  unfold NvmExternalSorter.keyComparator
  cases hordering : s.ordering with
  | some ordering => exact h.ordering ordering hordering
  | none => exact lawfulComparator_of_key s.hashCode

theorem NvmExternalSorter.Lawful.ordersKeys (h : s.Lawful) [DecidableEq K]
    (hagg : s.aggregator.isSome) : OrdersKeys s.keyComparator s.ordering.isSome := by
  refine ⟨h.keyComparator, fun hsome a b hzero => ?_⟩
  obtain ⟨ordering, hordering⟩ := Option.isSome_iff_exists.mp hsome
  rw [NvmExternalSorter.keyComparator, hordering] at hzero
  exact h.total ordering hordering hagg a b hzero

theorem SortsEntries.comparator (hsorts : SortsEntries sorted) (h : s.Lawful)
    (entries : Entries K C) : (sorted s.comparator entries).Pairwise (Before s.comparator) := by
  rw [NvmExternalSorter.comparator]
  split
  · exact hsorts.by_key _ h.keyComparator entries
  · exact hsorts.by_partition entries

theorem partitionSorted_of_before {cmp : Option (K → K → Int)} {entries : Entries K C}
    (h : entries.Pairwise (Before cmp)) : PartitionSorted entries := by
  refine h.imp ?_
  rintro a b (hlt | ⟨heq, _⟩)
  · exact Nat.le_of_lt hlt
  · exact Nat.le_of_eq heq

/-- The entries of one partition are sorted by key. -/
theorem keySorted_atPartition {compare : K → K → Int} {entries : Entries K C}
    (h : entries.Pairwise (Before (some compare))) (p : Nat) :
    KeySorted compare (atPartition p entries) := by
  rw [KeySorted, atPartition, List.pairwise_map]
  refine (h.filter _).imp_of_mem ?_
  intro a b ha hb hab
  have hpa : a.1.1 = p := of_decide_eq_true (List.mem_filter.mp ha).2
  have hpb : b.1.1 = p := of_decide_eq_true (List.mem_filter.mp hb).2
  rcases hab with hlt | ⟨_, hle⟩
  · omega
  · exact hle

/-! ## What was inserted -/

/-- A record as an entry of the buffer. -/
def NvmExternalSorter.entryOf (s : NvmExternalSorter K V C) (record : K × V) : (Nat × K) × C :=
  ((s.getPartition record.1, record.1), s.asInstanceOf record.2)

variable [DecidableEq K]

/-- Every spill took the entries of a collection in the order of the comparator. -/
theorem sorted_of_mem_spills (input : List ((K × V) × Int)) {entries : Entries K C}
    (h : entries ∈ (s.insertAll sorted input).spills) :
    ∃ collection, entries = sorted s.comparator collection := by
  induction input using List.reverseRecOn with
  | nil => exact absurd h List.not_mem_nil
  | append_singleton input record ih =>
    rw [NvmExternalSorter.insertAll, List.foldl_concat, NvmExternalSorter.insert] at h
    split at h
    · rcases List.mem_append.mp h with hold | hnew
      · exact ih hold
      · exact ⟨_, List.mem_singleton.mp hnew⟩
    · exact ih h

/-- Without an aggregator the sorter holds the inserted records. -/
theorem insertAll_collects (hagg : s.aggregator = none)
    (hperm : ∀ cmp entries, (sorted cmp entries).Perm entries) (input : List ((K × V) × Int)) :
    (s.insertAll sorted input).entries.Perm (input.map fun record => s.entryOf record.1) := by
  induction input using List.reverseRecOn with
  | nil => exact .nil
  | append_singleton input record ih =>
    have hadd : ∀ collection, s.add collection record.1 = collection ++ [s.entryOf record.1] := by
      intro collection
      rw [NvmExternalSorter.add, hagg]
      rfl
    rw [List.map_append]
    refine List.Perm.trans ?_ (ih.append_right _)
    rw [NvmExternalSorter.insertAll, List.foldl_concat, NvmExternalSorter.insert, hadd]
    split
    · rw [Inserted.entries, List.append_nil, List.flatten_append, List.flatten_singleton]
      refine ((hperm _ _).append_left _).trans ?_
      rw [← List.append_assoc]
      exact .refl _
    · rw [Inserted.entries, ← List.append_assoc]
      exact .refl _

/-- Every entry is in the partition of its key. -/
theorem partition_of_entries (h : s.Lawful) (hsorts : SortsEntries sorted)
    (input : List ((K × V) × Int)) :
    ∀ entry ∈ (s.insertAll sorted input).entries, entry.1.1 = s.getPartition entry.1.2 := by
  intro entry hentry
  cases hagg : s.aggregator with
  | some aggregator =>
    exact (insertAll_gathers (h.aggregator aggregator hagg).1 hagg hsorts.perm input).partition
      entry hentry
  | none =>
    obtain ⟨record, _, rfl⟩ :=
      List.mem_map.mp ((insertAll_collects hagg hsorts.perm input).mem_iff.mp hentry)
    rfl

/-! ## What comes out -/

/-- Every key of the partition exactly once, with the aggregate of all its values. -/
structure Aggregated (aggregator : Aggregator V C) (getPartition : K → Nat) (p : Nat)
    (records : List (K × V)) (result : List (K × C)) : Prop where
  nodup : (result.map Prod.fst).Nodup
  keys : ∀ key, key ∈ result.map Prod.fst ↔ key ∈ records.map Prod.fst ∧ getPartition key = p
  value : ∀ entry ∈ result, aggregator.aggregate (valuesAt entry.1 records) = some entry.2

/-- What the sorter should give for a partition after `records` were inserted. -/
structure PartitionResult (s : NvmExternalSorter K V C) (records : List (K × V)) (p : Nat)
    (result : List (K × C)) : Prop where
  /-- With an ordering the result is sorted. -/
  sorted : ∀ ordering, s.ordering = some ordering → KeySorted ordering result
  /-- With an aggregator there are aggregates. -/
  aggregated : ∀ aggregator, s.aggregator = some aggregator →
    Aggregated aggregator s.getPartition p records result
  /-- Without one there are the records. -/
  kept : s.aggregator = none →
    result.Perm ((records.filter fun record => s.getPartition record.1 = p).map fun record =>
      (record.1, s.asInstanceOf record.2))

section

variable {aggregator : Aggregator V C} {getPartition : K → Nat} {p : Nat} {records : List (K × V)}
variable {result result' : List (K × C)}

theorem aggregate_eq_none {values : List V} : aggregator.aggregate values = none ↔ values = [] := by
  cases values with
  | nil => exact iff_of_true rfl rfl
  | cons value values => exact iff_of_false (Option.some_ne_none _) (List.cons_ne_nil _ _)

/-- From the values of every key in the result. -/
theorem aggregated_of_valuesAt
    (h : ∀ key, valuesAt key result =
      if getPartition key = p then (aggregator.aggregate (valuesAt key records)).toList else []) :
    Aggregated aggregator getPartition p records result := by
  constructor
  · apply nodup_of_length_valuesAt_le
    intro key
    rw [h key]
    split
    · cases aggregator.aggregate (valuesAt key records) with
      | none => exact Nat.zero_le 1
      | some combiner => exact Nat.le_refl 1
    · exact Nat.zero_le 1
  · intro key
    rw [mem_keys_iff, mem_keys_iff, h key]
    split
    · rename_i hp
      rw [and_iff_left hp, ne_eq, ne_eq, Option.toList_eq_nil_iff, aggregate_eq_none]
    · rename_i hp
      exact iff_of_false (fun hne => hne rfl) (fun hand => hp hand.2)
  · intro entry hentry
    have hmem : entry.2 ∈ valuesAt entry.1 result := mem_valuesAt.mpr hentry
    rw [h entry.1] at hmem
    split at hmem
    · exact Option.mem_toList.mp hmem
    · exact absurd hmem List.not_mem_nil

/-- There is only one set of aggregates. -/
theorem Aggregated.mem_iff (h : Aggregated aggregator getPartition p records result)
    {entry : K × C} :
    entry ∈ result ↔ getPartition entry.1 = p ∧
      aggregator.aggregate (valuesAt entry.1 records) = some entry.2 := by
  constructor
  · intro hentry
    exact ⟨((h.keys entry.1).mp (List.mem_map_of_mem hentry)).2, h.value entry hentry⟩
  · rintro ⟨hp, hvalue⟩
    have hkey : entry.1 ∈ records.map Prod.fst := by
      rw [mem_keys_iff]
      intro hnil
      rw [aggregate_eq_none.mpr hnil] at hvalue
      exact Option.some_ne_none _ hvalue.symm
    obtain ⟨entry', hmem, hfst⟩ := List.mem_map.mp ((h.keys entry.1).mpr ⟨hkey, hp⟩)
    have hsame := h.value entry' hmem
    rw [hfst, hvalue, Option.some.injEq] at hsame
    rw [show entry = entry' from Prod.ext hfst.symm hsame]
    exact hmem

/-- Only the order is left open. -/
theorem PartitionResult.perm (h : PartitionResult s records p result)
    (h' : PartitionResult s records p result') : result.Perm result' := by
  cases hagg : s.aggregator with
  | none => exact (h.kept hagg).trans (h'.kept hagg).symm
  | some aggregator =>
    have ha := h.aggregated aggregator hagg
    have ha' := h'.aggregated aggregator hagg
    rw [List.perm_ext_iff_of_nodup (ha.nodup.of_map _) (ha'.nodup.of_map _)]
    exact fun entry => ha.mem_iff.trans ha'.mem_iff.symm

end

/-! ## The two paths -/

section

variable {p : Nat} {input : List ((K × V) × Int)} {iterators : List (List (K × C))}

/-- The records of a partition among the entries. -/
theorem atPartition_collects (hagg : s.aggregator = none)
    (hperm : ∀ cmp entries, (sorted cmp entries).Perm entries) (input : List ((K × V) × Int))
    (p : Nat) :
    (atPartition p (s.insertAll sorted input).entries).Perm
      (((input.map Prod.fst).filter fun record => s.getPartition record.1 = p).map fun record =>
        (record.1, s.asInstanceOf record.2)) := by
  have hentries := ((insertAll_collects hagg hperm input).filter
    fun entry => decide (entry.1.1 = p)).map fun entry => (entry.1.2, entry.2)
  refine hentries.trans ?_
  rw [List.filter_map, List.filter_map, List.map_map, List.map_map]
  exact .refl _

/-- The values of a key among the entries of a partition, with an aggregator. -/
theorem combineAll_atPartition {aggregator : Aggregator V C} (h : s.Lawful)
    (hsorts : SortsEntries sorted) (hagg : s.aggregator = some aggregator)
    (input : List ((K × V) × Int)) (p : Nat) (key : K) :
    combineAll aggregator.mergeCombiners
        (valuesAt key (atPartition p (s.insertAll sorted input).entries)) =
      if s.getPartition key = p then aggregator.aggregate (valuesAt key (input.map Prod.fst))
      else none := by
  have hgathers := insertAll_gathers (h.aggregator aggregator hagg).1 hagg hsorts.perm input
  rw [valuesAt_atPartition]
  by_cases hp : s.getPartition key = p
  · rw [if_pos hp, ← hp]
    exact hgathers.combined key
  · rw [if_neg hp, valuesAt_eq_nil]
    · rfl
    · intro hmem
      obtain ⟨entry, hentry, heq⟩ := List.mem_map.mp hmem
      have hpartition := hgathers.partition entry hentry
      rw [heq] at hpartition
      exact hp hpartition.symm

/-- What `merge` makes of iterators that are sorted and together have the entries of the
partition. -/
theorem mergeIterators_result (h : s.Lawful) (hsorts : SortsEntries sorted)
    (pq : IterQueue K C s.keyComparator)
    (hflatten : iterators.flatten.Perm (atPartition p (s.insertAll sorted input).entries))
    (hsorted : s.comparator.isSome → ∀ it ∈ iterators, KeySorted s.keyComparator it) :
    PartitionResult s (input.map Prod.fst) p (s.mergeIterators pq iterators) := by
  have hcomparator : s.ordering.isSome ∨ s.aggregator.isSome → s.comparator.isSome := by
    intro hor
    rw [NvmExternalSorter.comparator, if_pos hor]
    rfl
  constructor
  · intro ordering hordering
    have hkey : s.keyComparator = ordering := by rw [NvmExternalSorter.keyComparator, hordering]
    have hsome : s.ordering.isSome := by rw [hordering]; rfl
    have hits := hsorted (hcomparator (.inl hsome))
    rw [← hkey, NvmExternalSorter.mergeIterators]
    cases hagg : s.aggregator with
    | some aggregator =>
      exact (mergeWithAggregation_aggregates (h.ordersKeys (by rw [hagg]; rfl)) pq
        aggregator.mergeCombiners hits).2
    | none =>
      rw [if_pos hsome]
      exact mergeSort_sorted h.keyComparator pq hits
  · intro aggregator hagg
    obtain ⟨hlaw, hcomm⟩ := h.aggregator aggregator hagg
    have hassoc := hlaw.assoc
    have hsome : s.aggregator.isSome := by rw [hagg]; rfl
    have hits := hsorted (hcomparator (.inr hsome))
    have hmerge : s.mergeIterators pq iterators =
        mergeWithAggregation pq aggregator.mergeCombiners s.ordering.isSome iterators := by
      rw [NvmExternalSorter.mergeIterators, hagg]
    apply aggregated_of_valuesAt
    intro key
    rw [hmerge, mergeWithAggregation_values (h.ordersKeys hsome) hassoc hcomm pq hits key,
      combineAll_perm (valuesAt_perm key hflatten), combineAll_atPartition h hsorts hagg]
    split
    · rfl
    · rfl
  · intro hagg
    refine List.Perm.trans ?_ (atPartition_collects hagg hsorts.perm input p)
    refine List.Perm.trans ?_ hflatten
    rw [NvmExternalSorter.mergeIterators, hagg]
    dsimp only
    split
    · exact mergeSort_perm pq iterators
    · exact .refl _

/-- What is left of the collection when nothing was spilled. -/
theorem atPartition_result (h : s.Lawful) (hsorts : SortsEntries sorted)
    (hspills : (s.insertAll sorted input).spills.flatten = []) {cmp : Option (K → K → Int)}
    (hcmp : ∀ ordering, s.ordering = some ordering → cmp = some ordering) :
    PartitionResult s (input.map Prod.fst) p
      (atPartition p (sorted cmp (s.insertAll sorted input).collection)) := by
  have hentries : (s.insertAll sorted input).entries = (s.insertAll sorted input).collection := by
    rw [Inserted.entries, hspills]
    rfl
  constructor
  · intro ordering hordering
    rw [hcmp ordering hordering]
    exact keySorted_atPartition (hsorts.by_key ordering (h.ordering ordering hordering) _) p
  · intro aggregator hagg
    have hgathers := insertAll_gathers (h.aggregator aggregator hagg).1 hagg hsorts.perm input
    apply aggregated_of_valuesAt
    intro key
    have hcombined := combineAll_atPartition h hsorts hagg input p key
    rw [hentries, valuesAt_atPartition] at hcombined
    rw [valuesAt_atPartition, valuesAt_perm_table (hsorts.perm cmp _) hgathers.nodup]
    -- a table has at most one value, which is then its own combination
    have hone := toList_combineAll aggregator.mergeCombiners
      (length_valuesAt_le hgathers.nodup (p, key))
    rw [← hone, hcombined]
    split
    · rfl
    · rfl
  · intro hagg
    refine List.Perm.trans ?_ (atPartition_collects hagg hsorts.perm input p)
    rw [hentries]
    exact ((hsorts.perm cmp _).filter _).map _

end

end

end SparkNvm.Shuffle
