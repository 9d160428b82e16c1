import SparkNvm.Lib.Combine
import SparkNvm.Lib.PriorityQueue

/-!
# `mergeSort`

How the sorter merges sorted iterators: by a heap of the iterators that are not
exhausted.

* `mergeSort`, as in the source.
* `mergeSort_perm` and `mergeSort_sorted`: nothing is lost, and the result is sorted.
* `MergePoint` and `MergePoint.trace`: what is in the heap between two calls of `next()`.
-/

namespace SparkNvm.Shuffle

open Lib

/-! ## Merging -/

/-- A buffered iterator that has a next element; `source` is its place among the
iterators given. -/
structure BufferedIter (α : Type) where
  source : Nat
  head : α
  rest : List α

section

variable {K C : Type} {comparator : K → K → Int}

/-- What the iterator still gives. -/
def BufferedIter.elements {α : Type} (it : BufferedIter α) : List α := it.head :: it.rest

/-- An iterator at its place, if it has a next element. -/
def buffered {α : Type} : List α × Nat → Option (BufferedIter α)
  | ([], _) => none
  | (head :: rest, source) => some ⟨source, head, rest⟩

/-- `iterators.filter(_.hasNext).map(_.buffered)`. -/
def bufferedIters {α : Type} (iterators : List (List α)) : List (BufferedIter α) :=
  iterators.zipIdx.filterMap buffered

/-- Scala's `PriorityQueue` with the reverse order of the heads, of which it dequeues a
maximum. -/
abbrev IterQueue (K C : Type) (comparator : K → K → Int) :=
  PriorityQueue (BufferedIter (K × C)) fun x y => 0 ≤ comparator y.head.1 x.head.1

/-- `next()` of the iterator that `mergeSort` returns, with the heap; there is none if the
heap is empty. -/
def mergeNext (pq : IterQueue K C comparator) (heap : pq.Queue) :
    Option ((K × C) × pq.Queue) :=
  match pq.dequeue heap with
  | none => none
  | some (firstBuf, heap) =>
    match firstBuf.rest with
    | [] => some (firstBuf.head, heap)
    | head :: rest => some (firstBuf.head, pq.enqueue ⟨firstBuf.source, head, rest⟩ heap)

/-- What the iterator gives in at most `fuel` calls. -/
def mergeDrain (pq : IterQueue K C comparator) : Nat → pq.Queue → List (K × C)
  | 0, _ => []
  | fuel + 1, heap =>
    match mergeNext pq heap with
    | none => []
    | some (pair, heap) => pair :: mergeDrain pq fuel heap

/-- `mergeSort(iterators, comparator)`, read to its end. -/
def mergeSort (pq : IterQueue K C comparator) (iterators : List (List (K × C))) : List (K × C) :=
  mergeDrain pq iterators.flatten.length (pq.enqueueAll (bufferedIters iterators))

/-- Sorted by key. -/
def KeySorted (comparator : K → K → Int) (entries : List (K × C)) : Prop :=
  entries.Pairwise fun a b => comparator a.1 b.1 ≤ 0

variable {pq : IterQueue K C comparator} {heap heap' : pq.Queue} {pair : K × C}
variable {iterators : List (List (K × C))}

/-- What the iterators in the heap still give. -/
def pending (pq : IterQueue K C comparator) (heap : pq.Queue) : List (K × C) :=
  (pq.contents heap).flatMap BufferedIter.elements

theorem pending_of_none (h : mergeNext pq heap = none) : pending pq heap = [] := by
  rw [mergeNext] at h
  cases hdequeue : pq.dequeue heap with
  | none => rw [pending, pq.dequeue_none heap hdequeue, List.flatMap_nil]
  | some r =>
    rw [hdequeue] at h
    dsimp only at h
    split at h <;> simp at h

/-- One call: the first of the heads leaves the heap, and the rest of its iterator goes
back if there is any. -/
theorem mergeNext_cases (h : mergeNext pq heap = some (pair, heap')) :
    ∃ firstBuf heap₁, firstBuf.head = pair ∧
      (pq.contents heap).Perm (firstBuf :: pq.contents heap₁) ∧
        (∀ it ∈ pq.contents heap₁, 0 ≤ comparator it.head.1 pair.1) ∧
      (firstBuf.rest = [] ∧ heap' = heap₁ ∨
        ∃ head rest, firstBuf.rest = head :: rest ∧
          (pq.contents heap').Perm (⟨firstBuf.source, head, rest⟩ :: pq.contents heap₁)) := by
  rw [mergeNext] at h
  cases hdequeue : pq.dequeue heap with
  | none =>
    rw [hdequeue] at h
    simp at h
  | some r =>
    obtain ⟨firstBuf, heap₁⟩ := r
    obtain ⟨hperm, hfirst⟩ := pq.dequeue_some heap firstBuf heap₁ hdequeue
    rw [hdequeue] at h
    dsimp only at h
    refine ⟨firstBuf, heap₁, ?_⟩
    cases hrest : firstBuf.rest with
    | nil =>
      rw [hrest] at h
      simp only [Option.some.injEq, Prod.mk.injEq] at h
      obtain ⟨rfl, rfl⟩ := h
      exact ⟨rfl, hperm, hfirst, .inl ⟨rfl, rfl⟩⟩
    | cons head rest =>
      rw [hrest] at h
      simp only [Option.some.injEq, Prod.mk.injEq] at h
      obtain ⟨rfl, rfl⟩ := h
      exact ⟨rfl, hperm, hfirst, .inr ⟨head, rest, rfl, pq.contents_enqueue _ _⟩⟩

theorem mergeNext_perm (h : mergeNext pq heap = some (pair, heap')) :
    (pending pq heap).Perm (pair :: pending pq heap') := by
  obtain ⟨firstBuf, heap₁, rfl, hperm, _, hcases⟩ := mergeNext_cases h
  refine (hperm.flatMap_right _).trans ?_
  rw [List.flatMap_cons, BufferedIter.elements, List.cons_append]
  rcases hcases with ⟨hrest, rfl⟩ | ⟨head, rest, hrest, hperm'⟩
  · rw [hrest]
    exact .refl _
  · rw [hrest]
    exact .cons _ (hperm'.flatMap_right BufferedIter.elements).symm

/-- Every iterator in the heap is sorted. -/
def HeapSorted (pq : IterQueue K C comparator) (heap : pq.Queue) : Prop :=
  ∀ it ∈ pq.contents heap, KeySorted comparator it.elements

theorem mergeNext_sorted (hcmp : LawfulComparator comparator) (hsorted : HeapSorted pq heap)
    (h : mergeNext pq heap = some (pair, heap')) :
    HeapSorted pq heap' ∧ ∀ entry ∈ pending pq heap', comparator pair.1 entry.1 ≤ 0 := by
  obtain ⟨firstBuf, heap₁, rfl, hperm, hfirst, hcases⟩ := mergeNext_cases h
  have hown := hsorted firstBuf (hperm.mem_iff.mpr List.mem_cons_self)
  have hothers : ∀ it ∈ pq.contents heap₁, KeySorted comparator it.elements := fun it hit =>
    hsorted it (hperm.mem_iff.mpr (List.mem_cons_of_mem _ hit))
  obtain ⟨hle, hrestSorted⟩ := List.pairwise_cons.mp hown
  -- the first head is before the other heads, and these before the rest of their iterators
  have hbefore : ∀ it ∈ pq.contents heap₁, ∀ entry ∈ it.elements,
      comparator firstBuf.head.1 entry.1 ≤ 0 := by
    intro it hit entry hentry
    have hhead := (hcmp.flip _ _).mp (hfirst it hit)
    cases List.mem_cons.mp hentry with
    | inl heq => rw [heq]; exact hhead
    | inr hrest =>
      exact hcmp.trans _ _ _ hhead ((List.pairwise_cons.mp (hothers it hit)).1 entry hrest)
  rcases hcases with ⟨_, rfl⟩ | ⟨head, rest, hrest, hperm'⟩
  · refine ⟨hothers, fun entry hentry => ?_⟩
    obtain ⟨it, hit, hmem⟩ := List.mem_flatMap.mp hentry
    exact hbefore it hit entry hmem
  · rw [hrest] at hle hrestSorted
    constructor
    · intro it hit
      cases List.mem_cons.mp (hperm'.mem_iff.mp hit) with
      | inl heq => rw [heq]; exact hrestSorted
      | inr hother => exact hothers it hother
    · intro entry hentry
      obtain ⟨it, hit, hmem⟩ := List.mem_flatMap.mp hentry
      cases List.mem_cons.mp (hperm'.mem_iff.mp hit) with
      | inl heq =>
        rw [heq] at hmem
        exact hle entry hmem
      | inr hother => exact hbefore it hother entry hmem

theorem mergeDrain_perm {fuel : Nat} (hfuel : (pending pq heap).length ≤ fuel) :
    (mergeDrain pq fuel heap).Perm (pending pq heap) := by
  induction fuel generalizing heap with
  | zero => rw [List.length_eq_zero_iff.mp (Nat.le_zero.mp hfuel), mergeDrain]
  | succ fuel ih =>
    rw [mergeDrain]
    cases hnext : mergeNext pq heap with
    | none => rw [pending_of_none hnext]
    | some r =>
      obtain ⟨pair, heap'⟩ := r
      have hperm := mergeNext_perm hnext
      have hlength := hperm.length_eq
      rw [List.length_cons] at hlength
      exact ((ih (by omega)).cons pair).trans hperm.symm

theorem mem_pending_of_mem_mergeDrain {fuel : Nat} {entry : K × C}
    (h : entry ∈ mergeDrain pq fuel heap) : entry ∈ pending pq heap := by
  induction fuel generalizing heap with
  | zero => simp [mergeDrain] at h
  | succ fuel ih =>
    rw [mergeDrain] at h
    cases hnext : mergeNext pq heap with
    | none =>
      rw [hnext] at h
      simp at h
    | some r =>
      obtain ⟨pair, heap'⟩ := r
      have hperm := mergeNext_perm hnext
      rw [hnext] at h
      rw [hperm.mem_iff]
      cases List.mem_cons.mp h with
      | inl heq => rw [heq]; exact List.mem_cons_self
      | inr hrest => exact List.mem_cons_of_mem _ (ih hrest)

theorem mergeDrain_sorted (hcmp : LawfulComparator comparator) {fuel : Nat}
    (hsorted : HeapSorted pq heap) : KeySorted comparator (mergeDrain pq fuel heap) := by
  induction fuel generalizing heap with
  | zero => exact .nil
  | succ fuel ih =>
    rw [mergeDrain]
    cases hnext : mergeNext pq heap with
    | none => exact .nil
    | some r =>
      obtain ⟨pair, heap'⟩ := r
      obtain ⟨hrest, hfirst⟩ := mergeNext_sorted hcmp hsorted hnext
      exact List.pairwise_cons.mpr
        ⟨fun entry hentry => hfirst entry (mem_pending_of_mem_mergeDrain hentry), ih hrest⟩

/-! ## The merged iterator -/

theorem elements_bufferedIters {α : Type} (iterators : List (List α)) :
    (bufferedIters iterators).flatMap BufferedIter.elements = iterators.flatten := by
  rw [bufferedIters]
  generalize 0 = start
  induction iterators generalizing start with
  | nil => rfl
  | cons it iterators ih =>
    rw [List.zipIdx_cons, List.flatten_cons]
    cases it with
    | nil => rw [List.filterMap_cons_none rfl, ih, List.nil_append]
    | cons head rest =>
      rw [List.filterMap_cons_some
        (rfl : buffered (head :: rest, start) = some ⟨start, head, rest⟩), List.flatMap_cons, ih]
      rfl

theorem mem_of_mem_bufferedIters {α : Type} {iterators : List (List α)} {it : BufferedIter α}
    (h : it ∈ bufferedIters iterators) : it.elements ∈ iterators := by
  obtain ⟨⟨entries, source⟩, hmem, heq⟩ := List.mem_filterMap.mp h
  have hentries := (List.mem_zipIdx' hmem).2
  cases entries with
  | nil => simp [buffered] at heq
  | cons head rest =>
    rw [← Option.some.inj heq]
    show head :: rest ∈ iterators
    rw [hentries]
    exact List.getElem_mem _

theorem pending_enqueueAll (pq : IterQueue K C comparator) (iterators : List (List (K × C))) :
    (pending pq (pq.enqueueAll (bufferedIters iterators))).Perm iterators.flatten := by
  rw [← elements_bufferedIters]
  exact (pq.contents_enqueueAll _).flatMap_right _

/-- Nothing is lost and nothing is read twice. -/
theorem mergeSort_perm (pq : IterQueue K C comparator) (iterators : List (List (K × C))) :
    (mergeSort pq iterators).Perm iterators.flatten := by
  have hpending := pending_enqueueAll pq iterators
  exact (mergeDrain_perm (Nat.le_of_eq hpending.length_eq)).trans hpending

theorem mergeSort_sorted (hcmp : LawfulComparator comparator) (pq : IterQueue K C comparator)
    (hsorted : ∀ it ∈ iterators, KeySorted comparator it) :
    KeySorted comparator (mergeSort pq iterators) := by
  apply mergeDrain_sorted hcmp
  intro it hit
  exact hsorted _ (mem_of_mem_bufferedIters ((pq.contents_enqueueAll _).mem_iff.mp hit))

/-! ## The heap between two calls -/

/-- `next()` with the place of the iterator that the element comes from. -/
def mergeNextFrom (pq : IterQueue K C comparator) (heap : pq.Queue) :
    Option ((Nat × (K × C)) × pq.Queue) :=
  match pq.dequeue heap with
  | none => none
  | some (firstBuf, _) => (mergeNext pq heap).map fun r => ((firstBuf.source, r.1), r.2)

/-- At most `n` calls of `next()`, and the heap afterwards. -/
def mergeTrace (pq : IterQueue K C comparator) :
    Nat → pq.Queue → List (Nat × (K × C)) × pq.Queue
  | 0, heap => ([], heap)
  | n + 1, heap =>
    match mergeNextFrom pq heap with
    | none => ([], heap)
    | some (read, heap) =>
      let r := mergeTrace pq n heap
      (read :: r.1, r.2)

theorem mergeNextFrom_eq (pq : IterQueue K C comparator) (heap : pq.Queue) :
    (mergeNextFrom pq heap).map (fun r => (r.1.2, r.2)) = mergeNext pq heap := by
  rw [mergeNextFrom]
  cases hdequeue : pq.dequeue heap with
  | none =>
    rw [mergeNext, hdequeue]
    rfl
  | some r =>
    show ((mergeNext pq heap).map _).map _ = _
    rw [Option.map_map]
    exact Option.map_id'

theorem mergeTrace_eq (pq : IterQueue K C comparator) (n : Nat) (heap : pq.Queue) :
    (mergeTrace pq n heap).1.map Prod.snd = mergeDrain pq n heap := by
  induction n generalizing heap with
  | zero => rfl
  | succ n ih =>
    rw [mergeTrace, mergeDrain, ← mergeNextFrom_eq]
    cases mergeNextFrom pq heap with
    | none => rfl
    | some r => exact congrArg _ (ih r.2)

/-- What the iterators have given and what is left of them: the heap holds exactly those
that are not exhausted, each of them once. -/
structure MergePoint (pq : IterQueue K C comparator) (iterators left : List (List (K × C)))
    (trace : List (Nat × (K × C))) (heap : pq.Queue) : Prop where
  length_left : left.length = iterators.length
  split : ∀ (i : Nat) (it : List (K × C)), iterators[i]? = some it →
    ∃ rest, left[i]? = some rest ∧ valuesAt i trace ++ rest = it
  heap : (pq.contents heap).Perm (bufferedIters left)

theorem mergePoint_start (pq : IterQueue K C comparator) (iterators : List (List (K × C))) :
    MergePoint pq iterators iterators [] (pq.enqueueAll (bufferedIters iterators)) :=
  ⟨rfl, fun _ it hit => ⟨it, hit, rfl⟩, pq.contents_enqueueAll _⟩

/-- The iterators around one of them. -/
theorem bufferedIters_split {α : Type} (before after : List (List α)) (it : List α) :
    bufferedIters (before ++ it :: after) = before.zipIdx.filterMap buffered ++
      ((buffered (it, before.length)).toList ++
        (after.zipIdx (before.length + 1)).filterMap buffered) := by
  rw [bufferedIters, List.zipIdx_append, List.filterMap_append, List.zipIdx_cons, Nat.zero_add]
  congr 1
  cases it with
  | nil => exact List.filterMap_cons_none rfl
  | cons head rest => exact List.filterMap_cons_some rfl

/-- One call reads the head of one iterator. -/
theorem MergePoint.next {left : List (List (K × C))} {trace : List (Nat × (K × C))}
    {read : Nat × (K × C)} (h : MergePoint pq iterators left trace heap)
    (hnext : mergeNextFrom pq heap = some (read, heap')) :
    ∃ left', MergePoint pq iterators left' (trace ++ [read]) heap' := by
  rw [mergeNextFrom] at hnext
  cases hdequeue : pq.dequeue heap with
  | none =>
    rw [hdequeue] at hnext
    simp at hnext
  | some r =>
    obtain ⟨firstBuf, heap₁⟩ := r
    obtain ⟨hcontents, _⟩ := pq.dequeue_some heap firstBuf heap₁ hdequeue
    -- the iterator that is dequeued, and its neighbours
    have hmem : firstBuf ∈ bufferedIters left :=
      h.heap.mem_iff.mp (hcontents.mem_iff.mpr List.mem_cons_self)
    obtain ⟨⟨entries, i⟩, hzip, hbuffered⟩ := List.mem_filterMap.mp hmem
    obtain ⟨hi, hentries⟩ := List.mem_zipIdx' hzip
    obtain ⟨head, rest, rfl⟩ : ∃ head rest, entries = head :: rest := by
      cases entries with
      | nil => simp [buffered] at hbuffered
      | cons head rest => exact ⟨head, rest, rfl⟩
    obtain rfl := Option.some.inj hbuffered
    have hleft : left = left.take i ++ (head :: rest) :: left.drop (i + 1) := by
      rw [hentries, List.getElem_cons_drop, List.take_append_drop]
    have hlength : (left.take i).length = i := List.length_take_of_le (Nat.le_of_lt hi)
    have hothers : (pq.contents heap₁).Perm ((left.take i).zipIdx.filterMap buffered ++
        ((left.drop (i + 1)).zipIdx (i + 1)).filterMap buffered) := by
      have hperm := hcontents.symm.trans h.heap
      rw [hleft, bufferedIters_split, hlength] at hperm
      exact (hperm.trans List.perm_middle).cons_inv
    have hset : left.set i rest = left.take i ++ rest :: left.drop (i + 1) :=
      List.set_eq_take_cons_drop rest hi
    refine ⟨left.set i rest, ?_, ?_, ?_⟩
    · rw [List.length_set, h.length_left]
    · intro j it hit
      obtain ⟨rest', hrest', hsplit⟩ := h.split j it hit
      rw [hdequeue, mergeNext, hdequeue] at hnext
      have hread : read = (i, head) := by
        cases rest with
        | nil => exact (congrArg Prod.fst (Option.some.inj hnext)).symm
        | cons head' rest => exact (congrArg Prod.fst (Option.some.inj hnext)).symm
      rw [hread, valuesAt_append, List.getElem?_set]
      by_cases hj : i = j
      · subst hj
        rw [List.getElem?_eq_getElem hi, ← hentries, Option.some.injEq] at hrest'
        refine ⟨rest, by rw [if_pos rfl, if_pos hi], ?_⟩
        rw [← hsplit, ← hrest', valuesAt_cons_self, List.append_assoc]
        rfl
      · refine ⟨rest', by rw [if_neg hj]; exact hrest', ?_⟩
        rw [← hsplit, valuesAt_cons_ne hj]
        show valuesAt j trace ++ [] ++ rest' = _
        rw [List.append_nil]
    · rw [hset, bufferedIters_split, hlength]
      rw [hdequeue, mergeNext, hdequeue] at hnext
      cases rest with
      | nil =>
        obtain rfl : heap₁ = heap' := congrArg Prod.snd (Option.some.inj hnext)
        exact hothers
      | cons head' rest =>
        obtain rfl : pq.enqueue ⟨i, head', rest⟩ heap₁ = heap' :=
          congrArg Prod.snd (Option.some.inj hnext)
        exact (pq.contents_enqueue _ _).trans ((hothers.cons _).trans List.perm_middle.symm)

/-- Every number of calls leads to such a point. -/
theorem MergePoint.trace {left : List (List (K × C))} {trace : List (Nat × (K × C))}
    (h : MergePoint pq iterators left trace heap) (n : Nat) :
    ∃ left', MergePoint pq iterators left' (trace ++ (mergeTrace pq n heap).1)
      (mergeTrace pq n heap).2 := by
  induction n generalizing left trace heap with
  | zero => exact ⟨left, by rw [mergeTrace, List.append_nil]; exact h⟩
  | succ n ih =>
    rw [mergeTrace]
    cases hnext : mergeNextFrom pq heap with
    | none => exact ⟨left, by rw [List.append_nil]; exact h⟩
    | some r =>
      obtain ⟨read, heap'⟩ := r
      obtain ⟨left', hpoint⟩ := h.next hnext
      obtain ⟨left'', hrest⟩ := ih hpoint
      refine ⟨left'', ?_⟩
      rw [List.append_assoc] at hrest
      exact hrest

/-- The places of the iterators in the heap: those with a next element, none twice. -/
theorem sources_bufferedIters {α : Type} (left : List (List α)) :
    ((bufferedIters left).map BufferedIter.source).Nodup ∧
      ∀ i, i ∈ (bufferedIters left).map BufferedIter.source ↔
        ∃ rest, left[i]? = some rest ∧ rest ≠ [] := by
  have hsource : ∀ (entries : List α) (i : Nat) (it : BufferedIter α),
      buffered (entries, i) = some it → it.source = i ∧ entries ≠ [] := by
    intro entries i it h
    cases entries with
    | nil => simp [buffered] at h
    | cons head rest =>
      rw [← Option.some.inj h]
      exact ⟨rfl, List.cons_ne_nil _ _⟩
  constructor
  · have hnodup : (left.zipIdx.map Prod.snd).Nodup := by
      rw [List.zipIdx_map_snd]
      exact List.nodup_range' _
    rw [bufferedIters, List.Nodup, List.pairwise_map, List.pairwise_filterMap]
    refine (List.pairwise_map.mp hnodup).imp fun {a b} hab it hit it' hit' heq => hab ?_
    rw [← (hsource a.1 a.2 it hit).1, ← (hsource b.1 b.2 it' hit').1]
    exact heq
  · intro i
    constructor
    · intro hmem
      obtain ⟨it, hit, rfl⟩ := List.mem_map.mp hmem
      obtain ⟨⟨entries, i⟩, hzip, hbuffered⟩ := List.mem_filterMap.mp hit
      obtain ⟨hi, hentries⟩ := List.mem_zipIdx' hzip
      obtain ⟨hi', hne⟩ := hsource entries i it hbuffered
      exact ⟨entries, by rw [hi', List.getElem?_eq_getElem hi, hentries], hne⟩
    · rintro ⟨rest, hrest, hne⟩
      obtain ⟨head, tail, rfl⟩ := List.exists_cons_of_ne_nil hne
      refine List.mem_map.mpr ⟨⟨i, head, tail⟩, List.mem_filterMap.mpr ⟨(head :: tail, i), ?_, rfl⟩,
        rfl⟩
      exact List.mem_zipIdx_iff_getElem?.mpr hrest

/-- An empty heap: all iterators were read to their ends. -/
theorem MergePoint.exhausted {left : List (List (K × C))} {trace : List (Nat × (K × C))}
    (h : MergePoint pq iterators left trace heap) (hempty : pq.contents heap = []) (i : Nat)
    (it : List (K × C)) (hit : iterators[i]? = some it) : valuesAt i trace = it := by
  obtain ⟨rest, hrest, hsplit⟩ := h.split i it hit
  have hnone : bufferedIters left = [] := by
    have hperm := h.heap
    rw [hempty] at hperm
    exact hperm.symm.eq_nil
  have hnil : rest = [] := by
    by_contra hne
    have hmem := (sources_bufferedIters left).2 i |>.mpr ⟨rest, hrest, hne⟩
    rw [hnone] at hmem
    exact absurd hmem List.not_mem_nil
  rw [← hsplit, hnil, List.append_nil]

/-- Enough calls empty the heap. -/
theorem contents_mergeTrace {n : Nat} (hn : (pending pq heap).length ≤ n) :
    pq.contents (mergeTrace pq n heap).2 = [] := by
  have hnil : ∀ heap : pq.Queue, pending pq heap = [] → pq.contents heap = [] := by
    intro heap hpending
    rw [pending, List.flatMap_eq_nil_iff] at hpending
    rw [List.eq_nil_iff_forall_not_mem]
    exact fun it hit => List.cons_ne_nil _ _ (hpending it hit)
  induction n generalizing heap with
  | zero => exact hnil heap (List.length_eq_zero_iff.mp (Nat.le_zero.mp hn))
  | succ n ih =>
    have heq := mergeNextFrom_eq pq heap
    rw [mergeTrace]
    cases hnext : mergeNextFrom pq heap with
    | none =>
      rw [hnext] at heq
      exact hnil heap (pending_of_none heq.symm)
    | some r =>
      rw [hnext] at heq
      have hlength := (mergeNext_perm heq.symm).length_eq
      rw [List.length_cons] at hlength
      exact ih (by omega)

end

/-- For every list of iterators that are sorted by a comparator, and every priority queue:
between any two calls the heap holds exactly the iterators that are not exhausted, none
twice, each with what has not been read of it; after as many calls as there are elements
the heap is empty, and what was read is sorted, is a permutation of all elements, and has
the elements of every iterator in their own order. -/
theorem merge_sort_lossless {K C : Type} (comparator : K → K → Int)
    (pq : IterQueue K C comparator) (iterators : List (List (K × C)))
    (hcmp : LawfulComparator comparator) (hsorted : ∀ it ∈ iterators, KeySorted comparator it) :
    (∀ n, ∃ left, MergePoint pq iterators left
        (mergeTrace pq n (pq.enqueueAll (bufferedIters iterators))).1
        (mergeTrace pq n (pq.enqueueAll (bufferedIters iterators))).2 ∧
      ((pq.contents (mergeTrace pq n (pq.enqueueAll (bufferedIters iterators))).2).map
        BufferedIter.source).Nodup ∧
      ∀ i, i ∈ (pq.contents (mergeTrace pq n (pq.enqueueAll (bufferedIters iterators))).2).map
          BufferedIter.source ↔ ∃ rest, left[i]? = some rest ∧ rest ≠ []) ∧
    ∃ trace heap, mergeTrace pq iterators.flatten.length (pq.enqueueAll (bufferedIters iterators)) =
        (trace, heap) ∧
      mergeNext pq heap = none ∧ trace.map Prod.snd = mergeSort pq iterators ∧
      (mergeSort pq iterators).Perm iterators.flatten ∧
      KeySorted comparator (mergeSort pq iterators) ∧
      ∀ (i : Nat) (it : List (K × C)), iterators[i]? = some it → valuesAt i trace = it := by
  have hstart := mergePoint_start pq iterators
  constructor
  · intro n
    obtain ⟨left, hpoint⟩ := hstart.trace n
    rw [List.nil_append] at hpoint
    obtain ⟨hnodup, hmem⟩ := sources_bufferedIters left
    have hperm := hpoint.heap.map BufferedIter.source
    exact ⟨left, hpoint, hperm.nodup_iff.mpr hnodup, fun i => hperm.mem_iff.trans (hmem i)⟩
  · have hempty := contents_mergeTrace (n := iterators.flatten.length)
      (Nat.le_of_eq (pending_enqueueAll pq iterators).length_eq)
    obtain ⟨left, hpoint⟩ := hstart.trace iterators.flatten.length
    rw [List.nil_append] at hpoint
    refine ⟨_, _, rfl, ?_, mergeTrace_eq pq _ _, mergeSort_perm pq iterators,
      mergeSort_sorted hcmp pq hsorted, hpoint.exhausted hempty⟩
    cases hnext : mergeNext pq (mergeTrace pq iterators.flatten.length
        (pq.enqueueAll (bufferedIters iterators))).2 with
    | none => rfl
    | some r =>
      have hperm := mergeNext_perm (h := hnext)
      rw [pending, hempty, List.flatMap_nil] at hperm
      exact absurd hperm.symm.eq_nil (List.cons_ne_nil _ _)

/-- The heap as a sorted list. -/
def iterQueue {K C : Type} {comparator : K → K → Int} (hcmp : LawfulComparator comparator) :
    IterQueue K C comparator :=
  sortedQueue _
    ⟨fun x y => by
      rw [hcmp.flip, hcmp.flip]
      exact hcmp.total _ _⟩
    ⟨fun x y z hxy hyz => by
      rw [hcmp.flip] at hxy hyz ⊢
      exact hcmp.trans _ _ _ hxy hyz⟩

theorem lawfulComparator_sub : LawfulComparator fun a b : Int => a - b :=
  ⟨fun a b => by omega, fun a b c hab hbc => by omega⟩

theorem merge_sort_lossless_sample :
    mergeSort (iterQueue lawfulComparator_sub) [[(1, ()), (3, ())], [], [(2, ()), (3, ())]] =
        [(1, ()), (2, ()), (3, ()), (3, ())] ∧
      ∃ trace heap, mergeTrace (iterQueue lawfulComparator_sub) 4
          ((iterQueue lawfulComparator_sub).enqueueAll
            (bufferedIters [[(1, ()), (3, ())], [], [(2, ()), (3, ())]])) = (trace, heap) ∧
        mergeNext (iterQueue lawfulComparator_sub) heap = none ∧
        valuesAt 2 trace = [(2, ()), (3, ())] := by
  obtain ⟨_, trace, heap, htrace, hnone, _, _, _, hown⟩ :=
    merge_sort_lossless (fun a b : Int => a - b) (iterQueue lawfulComparator_sub)
      [[(1, ()), (3, ())], [], [(2, ()), (3, ())]] lawfulComparator_sub (by simp [KeySorted])
  exact ⟨by decide, trace, heap, htrace, hnone, hown 2 _ rfl⟩

end SparkNvm.Shuffle
