import Mathlib.Data.List.Forall2
import Mathlib.Data.List.TakeWhile
import SparkNvm.Lib.Int32
import SparkNvm.Shuffle.Aggregation
import SparkNvm.Shuffle.Sorter

/-!
# Reading the sorter's result

The iterators of `nvmExternalSorter` on spilled streams and on the collection, one
partition after the other.

* `NvmBlockInputStream`, `SpillReader`, `groupByPartition`, `mergePartitions` and
  `partitionedIterator`, as in the source.
* `readPartition_spec`: a reader gives the items of the partition that come next.
* `groupByPartition_eq` and `mergePartitions_eq`: what the iterators give for each
  partition.
-/

namespace SparkNvm.Shuffle

open Lib Storage

/-! ## A spilled stream -/

/-- `nvmBlockInputStream`; `objects` is what the deserialization stream still gives. -/
structure NvmBlockInputStream (R : Type) where
  objects : List R
  totalRecords : Int
  indexInBatch : Int
  closing : Bool

section

variable {R : Type}

/-- The constructor, on a stream that recorded `totalRecords`. -/
def NvmBlockInputStream.new (objects : List R) (totalRecords : Int) : NvmBlockInputStream R where
  objects := objects
  totalRecords := totalRecords
  indexInBatch := 0
  closing := false

/-- `readNextItem()`, `none` for `null`.  Reading on at the end of the input raises, and
the process exits. -/
def NvmBlockInputStream.readNextItem (s : NvmBlockInputStream R) :
    Option (Option R × NvmBlockInputStream R) :=
  if s.closing then some (none, s)
  else
    match s.objects with
    | [] => none
    | item :: objects =>
      some (some item, { s with
        objects := objects
        indexInBatch := wrap32 (s.indexInBatch + 1)
        closing := s.totalRecords ≤ wrap32 (s.indexInBatch + 1) })

/-- `SpillReader`, with the item that was read ahead. -/
structure SpillReader (R : Type) where
  nextItem : Option R
  pmemBlockInputStream : NvmBlockInputStream R

/-- A new reader. -/
def SpillReader.new (objects : List R) (totalRecords : Int) : SpillReader R where
  nextItem := none
  pmemBlockInputStream := .new objects totalRecords

namespace SpillReader

/-- `hasNext` of `readPartitionIter`, where `here` says that an item is in the partition. -/
def hasNext (here : R → Bool) (r : SpillReader R) : Option (Bool × SpillReader R) :=
  match r.nextItem with
  | some item => some (here item, r)
  | none => do
    let (item, stream) ← r.pmemBlockInputStream.readNextItem
    match item with
    | none => return (false, { r with pmemBlockInputStream := stream })
    | some item => return (here item, { nextItem := some item, pmemBlockInputStream := stream })

/-- `next()` of `readPartitionIter`. -/
def next (here : R → Bool) (r : SpillReader R) : Option (R × SpillReader R) := do
  let (more, r) ← r.hasNext here
  match more, r.nextItem with
  | true, some item => return (item, { r with nextItem := none })
  | _, _ => none

/-- `readPartitionIter`, read to its end in at most `fuel` rounds.  No other iterator looks
at the reader meanwhile. -/
def readPartition (here : R → Bool) : Nat → SpillReader R → Option (List R × SpillReader R)
  | 0, _ => none
  | fuel + 1, r => do
    let (more, r) ← r.hasNext here
    if more then
      let (item, r) ← r.next here
      let (items, r) ← readPartition here fuel r
      return (item :: items, r)
    else return ([], r)

/-- What the reader has not given yet. -/
def pendingItems (r : SpillReader R) : List R :=
  r.nextItem.toList ++
    if r.pmemBlockInputStream.closing then [] else r.pmemBlockInputStream.objects

/-- Unless it is closing, the stream has exactly the items left that the count says. -/
def Counts (r : SpillReader R) : Prop :=
  r.pmemBlockInputStream.closing = false →
    r.pmemBlockInputStream.objects ≠ [] ∧ 0 ≤ r.pmemBlockInputStream.indexInBatch ∧
      r.pmemBlockInputStream.totalRecords =
        r.pmemBlockInputStream.indexInBatch + r.pmemBlockInputStream.objects.length ∧
      r.pmemBlockInputStream.totalRecords < 2 ^ 31

variable {r : SpillReader R}

theorem counts_new {objects : List R} (hne : objects ≠ []) (hsmall : objects.length < 2 ^ 31) :
    (SpillReader.new objects objects.length).Counts := by
  refine fun _ => ⟨hne, Int.le_refl 0, ?_, ?_⟩
  · exact (Int.zero_add _).symm
  · show (objects.length : Int) < 2 ^ 31
    omega

/-- `hasNext` looks one item ahead and takes none. -/
theorem hasNext_spec (here : R → Bool) (h : r.Counts) :
    ∃ r', r.hasNext here = some (r.pendingItems.head?.any here, r') ∧
      r'.pendingItems = r.pendingItems ∧ r'.Counts ∧ r'.nextItem = r.pendingItems.head? := by
  obtain ⟨nextItem, stream⟩ := r
  cases nextItem with
  | some item => exact ⟨_, rfl, rfl, h, rfl⟩
  | none =>
    cases hclosing : stream.closing with
    | true =>
      have hread : stream.readNextItem = some (none, stream) := by
        rw [NvmBlockInputStream.readNextItem, if_pos hclosing]
      refine ⟨⟨none, stream⟩, ?_, rfl, h, ?_⟩
      · rw [hasNext, pendingItems]
        simp only [hread, hclosing]
        rfl
      · rw [pendingItems]
        simp only [hclosing]
        rfl
    | false =>
      obtain ⟨hne, hindex, htotal, hsmall⟩ := h hclosing
      cases hobjects : stream.objects with
      | nil => exact absurd hobjects hne
      | cons item objects =>
        dsimp only at hindex htotal hsmall
        rw [hobjects, List.length_cons] at htotal
        have hfits : wrap32 (stream.indexInBatch + 1) = stream.indexInBatch + 1 :=
          wrap32_of_fits (by omega) (by omega)
        have hread : stream.readNextItem = some (some item, { stream with
            objects := objects
            indexInBatch := stream.indexInBatch + 1
            closing := stream.totalRecords ≤ stream.indexInBatch + 1 }) := by
          rw [NvmBlockInputStream.readNextItem, if_neg (by rw [hclosing]; exact Bool.false_ne_true),
            hobjects, hfits]
        refine ⟨⟨some item, { stream with
            objects := objects
            indexInBatch := stream.indexInBatch + 1
            closing := stream.totalRecords ≤ stream.indexInBatch + 1 }⟩, ?_, ?_, ?_, ?_⟩
        · rw [hasNext, pendingItems]
          simp only [hread, hclosing, hobjects]
          rfl
        · rw [pendingItems, pendingItems]
          simp only [hclosing, hobjects]
          -- the last item closes the stream
          by_cases hlast : objects = []
          · rw [hlast]
            split <;> rfl
          · have hpos := List.length_pos_of_ne_nil hlast
            rw [if_neg (by rw [decide_eq_true_eq]; omega)]
            rfl
        · intro hopen
          dsimp only at hopen ⊢
          rw [decide_eq_false_iff_not] at hopen
          refine ⟨fun hnil => ?_, by omega, by omega, hsmall⟩
          rw [hnil, List.length_nil] at htotal
          omega
        · rw [pendingItems]
          simp only [hclosing, hobjects]
          rfl

/-- A reader gives the items of the partition that come next, and keeps the rest. -/
theorem readPartition_spec (here : R → Bool) {fuel : Nat} (h : r.Counts)
    (hfuel : r.pendingItems.length < fuel) :
    ∃ r', r.readPartition here fuel = some (r.pendingItems.takeWhile here, r') ∧
      r'.pendingItems = r.pendingItems.dropWhile here ∧ r'.Counts := by
  induction fuel generalizing r with
  | zero => omega
  | succ fuel ih =>
    obtain ⟨r₁, hhas, hpending, hcounts, hnext⟩ := hasNext_spec here h
    rw [readPartition, hhas]
    cases hitems : r.pendingItems with
    | nil =>
      rw [hitems] at hpending
      exact ⟨r₁, rfl, hpending, hcounts⟩
    | cons item items =>
      rw [hitems] at hpending hnext
      cases hhere : here item with
      | false =>
        refine ⟨r₁, ?_, ?_, hcounts⟩
        · rw [List.takeWhile_cons_of_neg (by rw [hhere]; exact Bool.false_ne_true)]
          simp only [List.head?_cons, Option.any_some, hhere]
          rfl
        · rw [List.dropWhile_cons_of_neg (by rw [hhere]; exact Bool.false_ne_true)]
          exact hpending
      | true =>
        -- `next()` asks `hasNext` once more, which answers from the item read ahead
        have htake : r₁.next here = some (item, { r₁ with nextItem := none }) := by
          rw [next, hasNext, hnext]
          simp only [List.head?_cons, hhere]
          simp only [bind, Option.bind, hnext]
          rfl
        have hrest : SpillReader.pendingItems { r₁ with nextItem := none } = items := by
          rw [pendingItems, hnext] at hpending
          exact (List.cons.inj hpending).2
        have hlength : items.length < fuel := by
          rw [hitems, List.length_cons] at hfuel
          omega
        obtain ⟨r₂, hread, hdrop, hcounts₂⟩ :=
          ih (r := { r₁ with nextItem := none }) hcounts (by rw [hrest]; exact hlength)
        rw [hrest] at hread hdrop
        refine ⟨r₂, ?_, ?_, hcounts₂⟩
        · rw [List.takeWhile_cons_of_pos hhere]
          simp only [List.head?_cons, Option.any_some, hhere]
          simp only [bind, Option.bind, if_true, htake, hread]
          rfl
        · rw [List.dropWhile_cons_of_pos hhere]
          exact hdrop

end SpillReader

end

/-! ## The iterators of a partition -/

section

variable {K V C : Type}

/-- `IteratorForPartition`, read to its end, and what it leaves of the buffered data. -/
def iteratorForPartition (partitionId : Nat) : Entries K C → List (K × C) × Entries K C
  | [] => ([], [])
  | elem :: data =>
    if elem.1.1 = partitionId then
      let r := iteratorForPartition partitionId data
      ((elem.1.2, elem.2) :: r.1, r.2)
    else ([], elem :: data)

/-- `groupByPartition(data)`, read partition by partition. -/
def groupByPartition : List Nat → Entries K C → List (Nat × List (K × C))
  | [], _ => []
  | partitionId :: partitions, data =>
    let r := iteratorForPartition partitionId data
    (partitionId, r.1) :: groupByPartition partitions r.2

namespace NvmExternalSorter

variable [DecidableEq K]

/-- What `merge` makes of the iterators of a partition. -/
def mergeIterators (s : NvmExternalSorter K V C) (pq : IterQueue K C s.keyComparator)
    (iterators : List (List (K × C))) : List (K × C) :=
  match s.aggregator with
  | some aggregator =>
    mergeWithAggregation pq aggregator.mergeCombiners s.ordering.isSome iterators
  | none => if s.ordering.isSome then mergeSort pq iterators else iterators.flatten

/-- `merge(inMemory)`, read partition by partition. -/
def mergePartitions (s : NvmExternalSorter K V C) (pq : IterQueue K C s.keyComparator) :
    List Nat → List (SpillReader (K × C)) → Entries K C → Option (List (Nat × List (K × C)))
  | [], _, _ => some []
  | partitionId :: partitions, readers, inMem => do
    let drained ← readers.mapM fun r => r.readPartition
      (fun item => s.getPartition item.1 = partitionId) (r.pendingItems.length + 1)
    let inMemIterator := iteratorForPartition partitionId inMem
    let rest ← s.mergePartitions pq partitions (drained.map Prod.snd) inMemIterator.2
    return (partitionId, s.mergeIterators pq (drained.map Prod.fst ++ [inMemIterator.1])) :: rest

/-- `partitionedIterator`, read partition by partition. -/
def partitionedIterator (s : NvmExternalSorter K V C)
    (sorted : Option (K → K → Int) → Entries K C → Entries K C)
    (pq : IterQueue K C s.keyComparator) (readers : List (SpillReader (K × C)))
    (collection : Entries K C) : Option (List (Nat × List (K × C))) :=
  if readers.isEmpty then
    if s.ordering.isNone then
      some (groupByPartition (List.range s.numPartitions) (sorted none collection))
    else
      some (groupByPartition (List.range s.numPartitions)
        (sorted (some s.keyComparator) collection))
  else
    s.mergePartitions pq (List.range s.numPartitions) readers (sorted s.comparator collection)

end NvmExternalSorter

/-! ## What they give -/

/-- Ordered by partition. -/
def PartitionSorted (data : Entries K C) : Prop :=
  data.Pairwise fun a b => a.1.1 ≤ b.1.1

/-- The data from a partition on. -/
def fromPartition (p : Nat) (data : Entries K C) : Entries K C :=
  data.filter fun entry => p ≤ entry.1.1

theorem iteratorForPartition_eq {p : Nat} {data : Entries K C} (hsorted : PartitionSorted data)
    (hfrom : ∀ entry ∈ data, p ≤ entry.1.1) :
    iteratorForPartition p data = (atPartition p data, fromPartition (p + 1) data) := by
  induction data with
  | nil => rfl
  | cons entry data ih =>
    obtain ⟨⟨q, key⟩, combiner⟩ := entry
    obtain ⟨hle, hrest⟩ := List.pairwise_cons.mp hsorted
    rw [iteratorForPartition]
    by_cases hq : q = p
    · subst hq
      rw [if_pos rfl, ih hrest fun entry hentry => hfrom entry (List.mem_cons_of_mem _ hentry),
        atPartition_cons_self, fromPartition, fromPartition,
        List.filter_cons_of_neg (by simp)]
    · have hlt : p < q := Nat.lt_of_le_of_ne (hfrom _ List.mem_cons_self) (Ne.symm hq)
      have hnone : atPartition p data = [] := by
        rw [atPartition, List.map_eq_nil_iff, List.filter_eq_nil_iff]
        intro entry hentry
        have hge : q ≤ entry.1.1 := hle entry hentry
        rw [decide_eq_true_eq]
        omega
      have hall : fromPartition (p + 1) (((q, key), combiner) :: data) =
          ((q, key), combiner) :: data := by
        rw [fromPartition, List.filter_eq_self]
        intro entry hentry
        rw [decide_eq_true_eq]
        cases List.mem_cons.mp hentry with
        | inl heq => rw [heq]; exact hlt
        | inr hmem => exact Nat.lt_of_lt_of_le hlt (hle entry hmem)
      rw [if_neg hq, atPartition_cons_ne hq, hnone, hall]

theorem atPartition_fromPartition {p q : Nat} (h : p ≤ q) (data : Entries K C) :
    atPartition q (fromPartition p data) = atPartition q data := by
  rw [atPartition, fromPartition, List.filter_filter, atPartition]
  congr 2
  funext entry
  rw [Bool.and_eq_left_iff_imp]
  intro hq
  rw [decide_eq_true_eq] at hq ⊢
  omega

theorem PartitionSorted.fromPartition {data : Entries K C} (h : PartitionSorted data) (p : Nat) :
    PartitionSorted (fromPartition p data) :=
  h.filter _

theorem le_of_mem_fromPartition {p : Nat} {data : Entries K C} {entry : (Nat × K) × C}
    (h : entry ∈ fromPartition p data) : p ≤ entry.1.1 :=
  of_decide_eq_true (List.mem_filter.mp h).2

/-- The partitions from `p` on. -/
theorem groupByPartition_eq {p : Nat} {data : Entries K C} (hsorted : PartitionSorted data)
    (hfrom : ∀ entry ∈ data, p ≤ entry.1.1) (k : Nat) :
    groupByPartition (List.range' p k) data =
      (List.range' p k).map fun q => (q, atPartition q data) := by
  induction k generalizing p data with
  | zero => rfl
  | succ k ih =>
    rw [List.range'_succ, groupByPartition, iteratorForPartition_eq hsorted hfrom, List.map_cons,
      ih (hsorted.fromPartition _) fun entry hentry => le_of_mem_fromPartition hentry]
    congr 1
    apply List.map_congr_left
    intro q hq
    rw [atPartition_fromPartition (List.mem_range'_1.mp hq).1]

/-- What a reader of a run of partition `run.1` still has when partition `p` begins. -/
def leftAt (p : Nat) (run : Nat × List (K × C)) : List (K × C) := if p ≤ run.1 then run.2 else []

/-- What it gives for partition `p`. -/
def takenAt (p : Nat) (run : Nat × List (K × C)) : List (K × C) := if run.1 = p then run.2 else []

section

variable {getPartition : K → Nat} {run : Nat × List (K × C)}

theorem takeWhile_leftAt (h : ∀ item ∈ run.2, getPartition item.1 = run.1) (p : Nat) :
    (leftAt p run).takeWhile (fun item => getPartition item.1 = p) = takenAt p run ∧
      (leftAt p run).dropWhile (fun item => getPartition item.1 = p) = leftAt (p + 1) run := by
  rcases Nat.lt_trichotomy run.1 p with hlt | heq | hgt
  · rw [leftAt, takenAt, leftAt, if_neg (by omega), if_neg (by omega), if_neg (by omega)]
    exact ⟨rfl, rfl⟩
  · have hall : ∀ item ∈ run.2, decide (getPartition item.1 = p) = true := fun item hitem =>
      decide_eq_true ((h item hitem).trans heq)
    rw [leftAt, takenAt, leftAt, if_pos (by omega), if_pos heq, if_neg (by omega)]
    exact ⟨List.takeWhile_eq_self_iff.mpr hall, List.dropWhile_eq_nil_iff.mpr hall⟩
  · rw [leftAt, takenAt, leftAt, if_pos (by omega), if_neg (by omega), if_pos (by omega)]
    cases hitems : run.2 with
    | nil => exact ⟨rfl, rfl⟩
    | cons item items =>
      have hfirst : ¬decide (getPartition item.1 = p) = true := by
        have hitem := h item (by rw [hitems]; exact List.mem_cons_self)
        rw [decide_eq_true_eq]
        omega
      exact ⟨List.takeWhile_cons_of_neg hfirst, List.dropWhile_cons_of_neg hfirst⟩

/-- The readers when partition `p` begins. -/
def ReadersAt (p : Nat) (readers : List (SpillReader (K × C))) (runs : List (Nat × List (K × C))) :
    Prop :=
  List.Forall₂ (fun r run => r.Counts ∧ r.pendingItems = leftAt p run) readers runs

/-- All readers give their items of partition `p`. -/
theorem ReadersAt.drain {p : Nat} {readers : List (SpillReader (K × C))}
    {runs : List (Nat × List (K × C))} (h : ReadersAt p readers runs)
    (hruns : ∀ run ∈ runs, ∀ item ∈ run.2, getPartition item.1 = run.1) :
    ∃ drained, (readers.mapM fun r => r.readPartition
        (fun item => getPartition item.1 = p) (r.pendingItems.length + 1)) = some drained ∧
      drained.map Prod.fst = runs.map (takenAt p) ∧
      ReadersAt (p + 1) (drained.map Prod.snd) runs := by
  induction h with
  | nil => exact ⟨[], rfl, rfl, .nil⟩
  | @cons r run readers runs hr _ ih =>
    obtain ⟨hcounts, hpending⟩ := hr
    obtain ⟨htake, hdrop⟩ := takeWhile_leftAt (hruns run List.mem_cons_self) p
    obtain ⟨r', hread, hrest, hcounts'⟩ := r.readPartition_spec
      (fun item => getPartition item.1 = p) hcounts (Nat.lt_succ_self _)
    obtain ⟨drained, hmap, hfst, hsnd⟩ :=
      ih fun run hrun => hruns run (List.mem_cons_of_mem _ hrun)
    rw [hpending, htake] at hread
    rw [hpending, hdrop] at hrest
    refine ⟨(takenAt p run, r') :: drained, ?_, ?_, .cons ⟨hcounts', hrest⟩ hsnd⟩
    · rw [List.mapM_cons, hpending, hread, hmap]
      rfl
    · rw [List.map_cons, List.map_cons, hfst]

end

/-- The partitions from `p` on. -/
theorem mergePartitions_eq [DecidableEq K] (s : NvmExternalSorter K V C)
    (pq : IterQueue K C s.keyComparator) {p : Nat} {readers : List (SpillReader (K × C))}
    {runs : List (Nat × List (K × C))} {data : Entries K C} (hreaders : ReadersAt p readers runs)
    (hruns : ∀ run ∈ runs, ∀ item ∈ run.2, s.getPartition item.1 = run.1)
    (hsorted : PartitionSorted data) (hfrom : ∀ entry ∈ data, p ≤ entry.1.1) (k : Nat) :
    s.mergePartitions pq (List.range' p k) readers data =
      some ((List.range' p k).map fun q =>
        (q, s.mergeIterators pq (runs.map (takenAt q) ++ [atPartition q data]))) := by
  induction k generalizing p readers data with
  | zero => rfl
  | succ k ih =>
    obtain ⟨drained, hmap, hfst, hnext⟩ := hreaders.drain hruns
    have hrest := ih hnext (hsorted.fromPartition (p + 1))
      fun entry hentry => le_of_mem_fromPartition hentry
    rw [List.range'_succ, NvmExternalSorter.mergePartitions, hmap,
      iteratorForPartition_eq hsorted hfrom, List.map_cons]
    simp only [bind, Option.bind, hrest, hfst]
    congr 2
    apply List.map_congr_left
    intro q hq
    rw [atPartition_fromPartition (List.mem_range'_1.mp hq).1]

end

end SparkNvm.Shuffle
