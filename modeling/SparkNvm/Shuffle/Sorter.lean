import Mathlib.Data.List.Sort
import SparkNvm.Lib.Combine
import SparkNvm.Storage.BlockOutputStream

/-!
# `nvmExternalSorter`

The sorter gathers records in a collection of Spark's and spills it at points that
depend on estimates of its memory.

* `NvmExternalSorter`, `insertAll` and `spillMemoryIteratorToPmem`, as in the source.
* `insertAll_gathers`: with an aggregator, the spilled entries and the collection together
  have the aggregate of every key.
-/

namespace SparkNvm.Shuffle

open Lib Storage

/-! ## The sorter -/

/-- Spark's `Aggregator`. -/
structure Aggregator (V C : Type) where
  createCombiner : V → C
  mergeValue : C → V → C
  mergeCombiners : C → C → C

/-- Spark's `Partitioner`: a key is mapped to a partition from 0 to `numPartitions - 1`. -/
structure Partitioner (K : Type) where
  numPartitions : Nat
  getPartition : K → Nat
  getPartition_lt : ∀ key, getPartition key < numPartitions

/-- The entries of a `WritablePartitionedPairCollection`, or of an iterator over it. -/
abbrev Entries (K C : Type) := List ((Nat × K) × C)

/-- The parameters of a sorter. `hashCode` is 0 for `null`, and `asInstanceOf` is the cast
of a value that is not aggregated. -/
structure NvmExternalSorter (K V C : Type) where
  aggregator : Option (Aggregator V C)
  partitioner : Option (Partitioner K)
  ordering : Option (K → K → Int)
  hashCode : K → Int
  asInstanceOf : V → C
  inMemoryCollectionSizeThreshold : Int

section

variable {K V C : Type}

namespace NvmExternalSorter

def numPartitions (s : NvmExternalSorter K V C) : Nat :=
  match s.partitioner with
  | some partitioner => partitioner.numPartitions
  | none => 1

def shouldPartition (s : NvmExternalSorter K V C) : Bool := 1 < s.numPartitions

def getPartition (s : NvmExternalSorter K V C) (key : K) : Nat :=
  match s.partitioner with
  | some partitioner => if s.shouldPartition then partitioner.getPartition key else 0
  | none => 0

def keyComparator (s : NvmExternalSorter K V C) : K → K → Int :=
  match s.ordering with
  | some ordering => ordering
  | none => fun a b =>
    if s.hashCode a < s.hashCode b then -1 else if s.hashCode a = s.hashCode b then 0 else 1

def comparator (s : NvmExternalSorter K V C) : Option (K → K → Int) :=
  if s.ordering.isSome ∨ s.aggregator.isSome then some s.keyComparator else none

/-- `maybeSpill(collection, currentMemory)` spills if this holds. -/
def ShouldSpill (s : NvmExternalSorter K V C) (elementsRead : Nat) (currentMemory : Int) : Prop :=
  elementsRead % 32 = 0 ∧ s.inMemoryCollectionSizeThreshold ≤ currentMemory

instance (s : NvmExternalSorter K V C) (elementsRead : Nat) (currentMemory : Int) :
    Decidable (s.ShouldSpill elementsRead currentMemory) :=
  inferInstanceAs (Decidable (_ ∧ _))

variable [DecidableEq K]

/-- How `insertAll` adds a record: `changeValue` on the map with an aggregator, else
`insert` into the buffer. -/
def add (s : NvmExternalSorter K V C) (collection : Entries K C) (record : K × V) : Entries K C :=
  match s.aggregator with
  | some aggregator =>
    changeValue (fun old =>
        match old with
        | some combiner => aggregator.mergeValue combiner record.2
        | none => aggregator.createCombiner record.2)
      (s.getPartition record.1, record.1) collection
  | none => collection ++ [((s.getPartition record.1, record.1), s.asInstanceOf record.2)]

end NvmExternalSorter

/-- The sorter while `insertAll` runs: the current collection, and the entries of the
earlier ones as `spill` took them from the destructive sorted iterator. -/
structure Inserted (K C : Type) where
  elementsRead : Nat
  collection : Entries K C
  spills : List (Entries K C)

namespace NvmExternalSorter

variable [DecidableEq K]

/-- One round of `insertAll`, with the estimate of the collection's memory. `sorted` is
Spark's sort of the collection by partition and a comparator. -/
def insert (s : NvmExternalSorter K V C)
    (sorted : Option (K → K → Int) → Entries K C → Entries K C) (st : Inserted K C)
    (record : (K × V) × Int) : Inserted K C :=
  if s.ShouldSpill (st.elementsRead + 1) record.2 then
    { elementsRead := st.elementsRead + 1
      collection := []
      spills := st.spills ++ [sorted s.comparator (s.add st.collection record.1)] }
  else
    { elementsRead := st.elementsRead + 1
      collection := s.add st.collection record.1
      spills := st.spills }

def insertAll (s : NvmExternalSorter K V C)
    (sorted : Option (K → K → Int) → Entries K C → Entries K C) (records : List ((K × V) × Int)) :
    Inserted K C :=
  records.foldl (s.insert sorted) { elementsRead := 0, collection := [], spills := [] }

end NvmExternalSorter

/-! ## Sorting -/

/-- The order of the sorted iterators: by partition and then by the comparator, if there
is one. -/
def Before (cmp : Option (K → K → Int)) (a b : (Nat × K) × C) : Prop :=
  a.1.1 < b.1.1 ∨ a.1.1 = b.1.1 ∧
    match cmp with
    | some compare => compare a.1.2 b.1.2 ≤ 0
    | none => True

instance (cmp : Option (K → K → Int)) : DecidableRel (Before (C := C) cmp) := fun _ _ =>
  match cmp with
  | some _ => inferInstanceAs (Decidable (_ ∨ _ ∧ _))
  | none => inferInstanceAs (Decidable (_ ∨ _ ∧ True))

theorem before_none_iff {a b : (Nat × K) × C} : Before none a b ↔ a.1.1 ≤ b.1.1 := by
  rw [Before, and_true, Nat.le_iff_lt_or_eq]

theorem before_some_iff {compare : K → K → Int} {a b : (Nat × K) × C} :
    Before (some compare) a b ↔
      a.1.1 < b.1.1 ∨ a.1.1 = b.1.1 ∧ compare a.1.2 b.1.2 ≤ 0 :=
  Iff.rfl

/-- A stable sort of a collection. -/
def sortEntries (cmp : Option (K → K → Int)) (entries : Entries K C) : Entries K C :=
  entries.insertionSort (Before cmp)

/-! ## Spilling -/

/-- `getPartitionByteBufferArray`: in the map stage the stream of the partition, else a
new one; with the number of streams afterwards. -/
def getPartitionByteBufferArray (mapStage : Bool) (streams partitionId : Nat) : Nat × Nat :=
  if mapStage then (partitionId, streams) else (streams, streams + 1)

/-- `spillMemoryIteratorToPmem` from the current partition and buffer on: the calls on the
streams, and how many there are afterwards. The `require` of the source holds for every
`Partitioner`. -/
def spillMemoryIteratorToPmem (mapStage : Bool) :
    Nat → Option (Nat × Nat) → Entries K C → List (Nat × BlockOp (K × C)) × Nat
  | streams, none, [] => ([], streams)
  | streams, some (_, buffer), [] => ([(buffer, .maybeSpill true)], streams)
  | streams, none, ((partitionId, key), combiner) :: entries =>
    let (buffer, streams) := getPartitionByteBufferArray mapStage streams partitionId
    let r := spillMemoryIteratorToPmem mapStage streams (some (partitionId, buffer)) entries
    ((buffer, .write (key, combiner)) :: r.1, r.2)
  | streams, some (cur, buffer), ((partitionId, key), combiner) :: entries =>
    if cur = partitionId then
      let r := spillMemoryIteratorToPmem mapStage streams (some (cur, buffer)) entries
      ((buffer, .write (key, combiner)) :: r.1, r.2)
    else
      -- the partition changes: the old stream is forced
      let (next, streams) := getPartitionByteBufferArray mapStage streams partitionId
      let r := spillMemoryIteratorToPmem mapStage streams (some (partitionId, next)) entries
      ((buffer, .maybeSpill true) :: (next, .write (key, combiner)) :: r.1, r.2)

/-- Several spills, one after the other. -/
def spillAll (mapStage : Bool) : Nat → List (Entries K C) → List (Nat × BlockOp (K × C)) × Nat
  | streams, [] => ([], streams)
  | streams, entries :: spills =>
    let r := spillMemoryIteratorToPmem mapStage streams none entries
    let rest := spillAll mapStage r.2 spills
    (r.1 ++ rest.1, rest.2)

end

/-! ## The entries of a partition -/

section

variable {K C : Type}

/-- The entries of a partition, without its number. -/
def atPartition (p : Nat) (entries : Entries K C) : List (K × C) :=
  (entries.filter fun entry => entry.1.1 = p).map fun entry => (entry.1.2, entry.2)

theorem atPartition_append (p : Nat) (entries entries' : Entries K C) :
    atPartition p (entries ++ entries') = atPartition p entries ++ atPartition p entries' := by
  rw [atPartition, List.filter_append, List.map_append]
  rfl

theorem atPartition_cons_self (p : Nat) (key : K) (combiner : C) (entries : Entries K C) :
    atPartition p (((p, key), combiner) :: entries) = (key, combiner) :: atPartition p entries := by
  rw [atPartition, List.filter_cons_of_pos (by simp)]
  rfl

theorem atPartition_cons_ne {p q : Nat} (h : q ≠ p) (key : K) (combiner : C)
    (entries : Entries K C) :
    atPartition p (((q, key), combiner) :: entries) = atPartition p entries := by
  rw [atPartition, List.filter_cons_of_neg (by simpa using h)]
  rfl

theorem valuesAt_atPartition [DecidableEq K] (p : Nat) (key : K) (entries : Entries K C) :
    valuesAt key (atPartition p entries) = valuesAt (p, key) entries := by
  induction entries with
  | nil => rfl
  | cons entry entries ih =>
    obtain ⟨⟨q, key'⟩, combiner⟩ := entry
    by_cases hq : q = p
    · subst hq
      rw [atPartition_cons_self]
      by_cases hkey : key' = key
      · subst hkey
        rw [valuesAt_cons_self, valuesAt_cons_self, ih]
      · rw [valuesAt_cons_ne hkey, valuesAt_cons_ne (fun heq => hkey (congrArg Prod.snd heq)), ih]
    · rw [atPartition_cons_ne hq, valuesAt_cons_ne (fun heq => hq (congrArg Prod.fst heq)), ih]

end

/-! ## What the sorter gathers -/

section

variable {V C : Type}

/-- `mergeCombiners` is associative, and `mergeValue` is merging the combiner of a single
value. -/
structure Aggregator.Lawful (aggregator : Aggregator V C) : Prop where
  assoc : Std.Associative aggregator.mergeCombiners
  mergeValue_eq : ∀ combiner value, aggregator.mergeValue combiner value =
    aggregator.mergeCombiners combiner (aggregator.createCombiner value)

/-- The aggregate of values, in order. -/
def Aggregator.aggregate (aggregator : Aggregator V C) : List V → Option C
  | [] => none
  | value :: values => some (values.foldl aggregator.mergeValue (aggregator.createCombiner value))

theorem Aggregator.aggregate_concat (aggregator : Aggregator V C) (values : List V) (value : V) :
    aggregator.aggregate (values ++ [value]) =
      some (match aggregator.aggregate values with
        | some combiner => aggregator.mergeValue combiner value
        | none => aggregator.createCombiner value) := by
  cases values with
  | nil => rfl
  | cons first values => exact congrArg some (List.foldl_concat _ _ _ _)

end

section

variable {K V C : Type}

/-- Everything that the sorter holds, the oldest entry of a key first. -/
def Inserted.entries (st : Inserted K C) : Entries K C := st.spills.flatten ++ st.collection

theorem NvmExternalSorter.getPartition_lt (s : NvmExternalSorter K V C) {key : K}
    {partitioner : Partitioner K} (h : s.partitioner = some partitioner) :
    s.getPartition key < partitioner.numPartitions := by
  have hlt := partitioner.getPartition_lt key
  rw [getPartition, h]
  dsimp only
  split
  · exact hlt
  · omega

/-- With one partition there is nothing to choose. -/
theorem NvmExternalSorter.getPartition_eq (s : NvmExternalSorter K V C)
    {partitioner : Partitioner K}
    (h : s.partitioner = some partitioner) (key : K) :
    s.getPartition key = partitioner.getPartition key := by
  have hlt := partitioner.getPartition_lt key
  have hn : s.numPartitions = partitioner.numPartitions := by rw [numPartitions, h]
  rw [getPartition, h]
  dsimp only
  split
  · rfl
  · rename_i hone
    rw [shouldPartition, decide_eq_true_eq, hn] at hone
    omega

variable [DecidableEq K] {s : NvmExternalSorter K V C} {aggregator : Aggregator V C}
variable {sorted : Option (K → K → Int) → Entries K C → Entries K C} {st : Inserted K C}
variable {records : List (K × V)}

/-- The sorter with an aggregator, after `records`. -/
structure Gathers (s : NvmExternalSorter K V C) (aggregator : Aggregator V C)
    (records : List (K × V)) (st : Inserted K C) : Prop where
  nodup : (st.collection.map Prod.fst).Nodup
  partition : ∀ entry ∈ st.entries, entry.1.1 = s.getPartition entry.1.2
  combined : ∀ key, combineAll aggregator.mergeCombiners
      (valuesAt (s.getPartition key, key) st.entries) = aggregator.aggregate (valuesAt key records)

theorem gathers_nil (s : NvmExternalSorter K V C) (aggregator : Aggregator V C) :
    Gathers s aggregator [] { elementsRead := 0, collection := [], spills := [] } :=
  ⟨List.nodup_nil, by simp [Inserted.entries], fun _ => rfl⟩

/-- A record is combined with what the collection has for its key, or starts a new
combiner. -/
theorem Gathers.add (hlaw : aggregator.Lawful) (hagg : s.aggregator = some aggregator)
    (h : Gathers s aggregator records st) (record : K × V) :
    Gathers s aggregator (records ++ [record])
      { st with collection := s.add st.collection record } := by
  have hadd : s.add st.collection record = changeValue (fun old =>
      match old with
      | some combiner => aggregator.mergeValue combiner record.2
      | none => aggregator.createCombiner record.2)
        (s.getPartition record.1, record.1) st.collection := by
    rw [NvmExternalSorter.add, hagg]
  have hassoc := hlaw.assoc
  constructor
  · show ((s.add st.collection record).map Prod.fst).Nodup
    rw [hadd]
    exact nodup_changeValue h.nodup
  · intro entry hentry
    cases List.mem_append.mp hentry with
    | inl hspilled => exact h.partition entry (List.mem_append_left _ hspilled)
    | inr hadded =>
      have hkey := List.mem_map_of_mem (f := Prod.fst) hadded
      rw [hadd, mem_keys_changeValue] at hkey
      cases hkey with
      | inl heq => rw [heq]
      | inr hold =>
        obtain ⟨entry', hmem, heq⟩ := List.mem_map.mp hold
        rw [← heq]
        exact h.partition entry' (List.mem_append_right _ hmem)
  · intro key
    have hold := h.combined key
    rw [Inserted.entries, valuesAt_append] at hold ⊢
    show combineAll _ (_ ++ valuesAt _ (s.add st.collection record)) = _
    rw [valuesAt_append, hadd]
    by_cases hkey : record.1 = key
    · subst hkey
      rw [valuesAt_changeValue_self h.nodup, valuesAt_cons_self]
      show _ = aggregator.aggregate (_ ++ [record.2])
      rw [aggregator.aggregate_concat, ← hold, combineAll_concat]
      match hvalues : valuesAt (s.getPartition record.1, record.1) st.collection,
        length_valuesAt_le h.nodup (s.getPartition record.1, record.1) with
      | [], _ =>
        rw [List.append_nil]
        cases combineAll aggregator.mergeCombiners
            (valuesAt (s.getPartition record.1, record.1) st.spills.flatten) with
        | none => rfl
        | some combiner => exact congrArg some (hlaw.mergeValue_eq combiner record.2).symm
      | [last], _ =>
        rw [combineAll_concat]
        cases combineAll aggregator.mergeCombiners
            (valuesAt (s.getPartition record.1, record.1) st.spills.flatten) with
        | none => rfl
        | some combiner =>
          show some (aggregator.mergeCombiners combiner (aggregator.mergeValue last record.2)) =
            some (aggregator.mergeValue (aggregator.mergeCombiners combiner last) record.2)
          rw [hlaw.mergeValue_eq, hlaw.mergeValue_eq, hassoc.assoc]
    · have hpair : (s.getPartition record.1, record.1) ≠ (s.getPartition key, key) :=
        fun heq => hkey (congrArg Prod.snd heq)
      rw [valuesAt_changeValue_ne hpair, valuesAt_cons_ne hkey]
      show _ = aggregator.aggregate (_ ++ [])
      rw [List.append_nil]
      exact hold

/-- A spill moves the collection behind the earlier spills. -/
theorem Gathers.spill (hperm : ∀ cmp entries, (sorted cmp entries).Perm entries)
    (h : Gathers s aggregator records st) (elementsRead : Nat) :
    Gathers s aggregator records
      { elementsRead := elementsRead, collection := [],
        spills := st.spills ++ [sorted s.comparator st.collection] } := by
  have hentries : (st.spills ++ [sorted s.comparator st.collection]).flatten ++ [] =
      st.spills.flatten ++ sorted s.comparator st.collection := by
    rw [List.append_nil, List.flatten_append, List.flatten_singleton]
  constructor
  · exact List.nodup_nil
  · intro entry hentry
    rw [Inserted.entries, hentries] at hentry
    exact h.partition entry (((List.Perm.refl _).append (hperm _ _)).mem_iff.mp hentry)
  · intro key
    rw [Inserted.entries, hentries, valuesAt_append, valuesAt_perm_table (hperm _ _) h.nodup,
      ← valuesAt_append]
    exact h.combined key

theorem Gathers.insert (hlaw : aggregator.Lawful) (hagg : s.aggregator = some aggregator)
    (hperm : ∀ cmp entries, (sorted cmp entries).Perm entries)
    (h : Gathers s aggregator records st) (record : (K × V) × Int) :
    Gathers s aggregator (records ++ [record.1]) (s.insert sorted st record) := by
  have hadd := h.add hlaw hagg record.1
  rw [NvmExternalSorter.insert]
  split
  · exact hadd.spill hperm _
  · exact ⟨hadd.nodup, hadd.partition, hadd.combined⟩

/-- For every sequence of records and estimates, the entries of the spills and of the
collection combine to the aggregate of every key. -/
theorem insertAll_gathers (hlaw : aggregator.Lawful) (hagg : s.aggregator = some aggregator)
    (hperm : ∀ cmp entries, (sorted cmp entries).Perm entries) (records : List ((K × V) × Int)) :
    Gathers s aggregator (records.map Prod.fst) (s.insertAll sorted records) := by
  induction records using List.reverseRecOn with
  | nil => exact gathers_nil s aggregator
  | append_singleton records record ih =>
    rw [NvmExternalSorter.insertAll, List.foldl_concat, List.map_append]
    exact ih.insert hlaw hagg hperm record

end

end SparkNvm.Shuffle
