import Mathlib.Data.List.Induction
import Mathlib.Data.List.Sort

/-!
# Comparators and priority queues

* `LawfulComparator` is the contract of `compare`, whose sign is an order.
* `PriorityQueue` is a queue that always gives an element before all others, and says
  nothing on ties.
* `sortedQueue` is one, as a sorted list.
-/

namespace SparkNvm.Lib

section

variable {α : Type*} {compare : α → α → Int}

/-- Exchanging the arguments changes the sign, and the order is transitive. -/
structure LawfulComparator (compare : α → α → Int) : Prop where
  flip : ∀ a b, 0 ≤ compare a b ↔ compare b a ≤ 0
  trans : ∀ a b c, compare a b ≤ 0 → compare b c ≤ 0 → compare a c ≤ 0

theorem LawfulComparator.total (h : LawfulComparator compare) (a b : α) :
    compare a b ≤ 0 ∨ compare b a ≤ 0 := by
  by_cases hle : compare a b ≤ 0
  · exact .inl hle
  · exact .inr ((h.flip a b).mp (by omega))

theorem LawfulComparator.refl (h : LawfulComparator compare) (a : α) : compare a a ≤ 0 :=
  (h.total a a).elim id id

theorem LawfulComparator.eq_zero_iff (h : LawfulComparator compare) {a b : α} :
    compare a b = 0 ↔ compare a b ≤ 0 ∧ compare b a ≤ 0 := by
  rw [← h.flip a b]
  omega

/-- Comparing two numbers by their order. -/
theorem lawfulComparator_of_key (key : α → Int) :
    LawfulComparator fun a b =>
      if key a < key b then -1 else if key a = key b then 0 else 1 := by
  have hle : ∀ a b, (if key a < key b then -1 else if key a = key b then 0 else (1 : Int)) ≤ 0 ↔
      key a ≤ key b := by
    intro a b
    split
    · omega
    · split <;> omega
  have hge : ∀ a b, 0 ≤ (if key a < key b then -1 else if key a = key b then 0 else (1 : Int)) ↔
      key b ≤ key a := by
    intro a b
    split
    · omega
    · split <;> omega
  constructor
  · intro a b
    rw [hle, hge]
  · intro a b c hab hbc
    rw [hle] at hab hbc ⊢
    omega

end

/-! ## Queues -/

/-- A priority queue: `dequeue` takes out an element that is before all others.
`contents` are the elements in any order. -/
structure PriorityQueue (ι : Type) (before : ι → ι → Prop) where
  Queue : Type
  empty : Queue
  enqueue : ι → Queue → Queue
  dequeue : Queue → Option (ι × Queue)
  contents : Queue → List ι
  contents_empty : contents empty = []
  contents_enqueue : ∀ x q, (contents (enqueue x q)).Perm (x :: contents q)
  dequeue_none : ∀ q, dequeue q = none → contents q = []
  dequeue_some : ∀ q x q', dequeue q = some (x, q') →
    (contents q).Perm (x :: contents q') ∧ ∀ y ∈ contents q', before x y

section

variable {ι : Type} {before : ι → ι → Prop}

/-- Enqueues several elements. -/
def PriorityQueue.enqueueAll (pq : PriorityQueue ι before) (xs : List ι) : pq.Queue :=
  xs.foldl (fun q x => pq.enqueue x q) pq.empty

theorem PriorityQueue.contents_enqueueAll (pq : PriorityQueue ι before) (xs : List ι) :
    (pq.contents (pq.enqueueAll xs)).Perm xs := by
  induction xs using List.reverseRecOn with
  | nil => rw [enqueueAll, List.foldl_nil, pq.contents_empty]
  | append_singleton xs x ih =>
    rw [enqueueAll, List.foldl_concat]
    exact (pq.contents_enqueue x _).trans ((ih.cons x).trans (List.perm_append_singleton x xs).symm)

/-- A sorted list; among elements before each other the last one added comes out first. -/
def sortedQueue (before : ι → ι → Prop) [DecidableRel before] (total : Std.Total before)
    (trans : IsTrans ι before) : PriorityQueue ι before where
  Queue := { xs : List ι // xs.Pairwise before }
  empty := ⟨[], .nil⟩
  enqueue x q := ⟨q.1.orderedInsert before x, q.2.orderedInsert x q.1⟩
  dequeue q :=
    match q with
    | ⟨[], _⟩ => none
    | ⟨x :: xs, h⟩ => some (x, ⟨xs, h.tail⟩)
  contents q := q.1
  contents_empty := rfl
  contents_enqueue x q := List.perm_orderedInsert before x q.1
  dequeue_none q h := by
    obtain ⟨xs, hxs⟩ := q
    cases xs with
    | nil => rfl
    | cons x xs => simp at h
  dequeue_some q x q' h := by
    obtain ⟨xs, hxs⟩ := q
    cases xs with
    | nil => simp at h
    | cons y xs =>
      rw [Option.some.injEq, Prod.mk.injEq] at h
      obtain ⟨rfl, rfl⟩ := h
      exact ⟨.refl _, (List.pairwise_cons.mp hxs).1⟩

end

end SparkNvm.Lib
