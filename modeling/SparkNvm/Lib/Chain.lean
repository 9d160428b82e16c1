import Mathlib.Data.List.Nodup

/-!
# Pointer chains

A singly linked list in a heap is a start address and a `next` function;
address `0` is the null pointer.  `PtrChain next a xs` says that following
`next` from `a` visits exactly the addresses `xs` and then reaches null.

The chain from an address is unique (`PtrChain.unique`), so it never visits
an address twice (`PtrChain.nodup`).  `PtrChain.congr` is the frame rule and
`PtrChain.snoc` is the append of one node at the tail.  `walk` is the
executable traversal, and `walk_eq_some_iff` ties it to `PtrChain`.
-/

namespace SparkNvm.Lib

/-- Following `next` from `a` visits exactly `xs`, then null. -/
def PtrChain (next : Nat → Nat) : Nat → List Nat → Prop
  | a, [] => a = 0
  | a, x :: xs => a = x ∧ x ≠ 0 ∧ PtrChain next (next x) xs

namespace PtrChain

variable {next next' : Nat → Nat} {a n : Nat} {xs ys : List Nat}

theorem ne_zero (h : PtrChain next a xs) : ∀ x ∈ xs, x ≠ 0 := by
  induction xs generalizing a with
  | nil => simp
  | cons y ys ih =>
    obtain ⟨_, hy, hys⟩ := h
    intro x hx
    rcases List.mem_cons.mp hx with rfl | hx
    · exact hy
    · exact ih hys x hx

theorem eq_nil_iff (h : PtrChain next a xs) : xs = [] ↔ a = 0 := by
  cases xs with
  | nil => exact ⟨fun _ => h, fun _ => rfl⟩
  | cons x xs =>
    obtain ⟨rfl, hx, _⟩ := h
    simp [hx]

/-- What is behind a visited address. -/
theorem behind {x : Nat} (h : PtrChain next a (xs ++ x :: ys)) : PtrChain next (next x) ys := by
  induction xs generalizing a with
  | nil => exact h.2.2
  | cons y xs ih => exact ih h.2.2

theorem unique (h : PtrChain next a xs) (h' : PtrChain next a ys) : xs = ys := by
  induction xs generalizing a ys with
  | nil => exact (h'.eq_nil_iff.mpr h).symm
  | cons x xs ih =>
    obtain ⟨rfl, hx, hxs⟩ := h
    cases ys with
    | nil => exact absurd h' hx
    | cons y ys =>
      obtain ⟨rfl, _, hys⟩ := h'
      rw [ih hxs hys]

/-- Every visited address starts a chain that is no longer than the rest. -/
private theorem exists_suffix (h : PtrChain next a xs) {x : Nat} (hx : x ∈ xs) :
    ∃ zs, PtrChain next x zs ∧ zs.length ≤ xs.length := by
  induction xs generalizing a with
  | nil => simp at hx
  | cons y ys ih =>
    have hchain := h
    obtain ⟨rfl, _, hys⟩ := h
    rcases List.mem_cons.mp hx with rfl | hx
    · exact ⟨_, hchain, Nat.le_refl _⟩
    · obtain ⟨zs, hzs, hlen⟩ := ih hys hx
      exact ⟨zs, hzs, by simp only [List.length_cons]; omega⟩

/-- A chain that ends never visits an address twice: from the second visit
on it would have to be as long as from the first. -/
theorem nodup (h : PtrChain next a xs) : xs.Nodup := by
  induction xs generalizing a with
  | nil => exact List.nodup_nil
  | cons x xs ih =>
    have hchain := h
    obtain ⟨rfl, _, hxs⟩ := h
    refine List.nodup_cons.mpr ⟨fun hmem => ?_, ih hxs⟩
    obtain ⟨zs, hzs, hlen⟩ := hxs.exists_suffix hmem
    rw [hzs.unique hchain, List.length_cons] at hlen
    omega

/-- The last node of a chain points to null. -/
theorem next_last (h : PtrChain next a xs) {t : Nat} (ht : xs.getLast? = some t) :
    next t = 0 := by
  induction xs generalizing a with
  | nil => simp at ht
  | cons x xs ih =>
    obtain ⟨rfl, _, hrest⟩ := h
    cases xs with
    | nil =>
      have hat : a = t := by simpa using ht
      rw [← hat]
      exact hrest
    | cons y ys => exact ih hrest (by simpa using ht)

/-- Frame rule: a chain only depends on the `next` of what it visits. -/
theorem congr (h : PtrChain next a xs) (heq : ∀ x ∈ xs, next' x = next x) :
    PtrChain next' a xs := by
  induction xs generalizing a with
  | nil => exact h
  | cons x xs ih =>
    obtain ⟨rfl, hx, hxs⟩ := h
    refine ⟨rfl, hx, ?_⟩
    rw [heq a (by simp)]
    exact ih hxs fun y hy => heq y (by simp [hy])

/-- Append the node `n` behind the last node.  The start address changes
only when the chain was empty. -/
theorem snoc (h : PtrChain next a xs) (hn : n ≠ 0) (hnext : next' n = 0)
    (hlast : ∀ t, xs.getLast? = some t → next' t = n)
    (heq : ∀ x ∈ xs.dropLast, next' x = next x) :
    PtrChain next' (if xs = [] then n else a) (xs ++ [n]) := by
  induction xs generalizing a with
  | nil => exact ⟨rfl, hn, hnext⟩
  | cons x xs ih =>
    obtain ⟨rfl, hx, hxs⟩ := h
    rw [if_neg (List.cons_ne_nil _ _), List.cons_append]
    refine ⟨rfl, hx, ?_⟩
    cases xs with
    | nil =>
      rw [hlast a rfl]
      exact ⟨rfl, hn, hnext⟩
    | cons y ys =>
      have hrest := ih hxs (fun t ht => hlast t (by simpa using ht))
        (fun z hz => heq z (by simp [hz]))
      rw [if_neg (List.cons_ne_nil _ _)] at hrest
      rw [heq a (by simp)]
      exact hrest

end PtrChain

/-! ## The executable traversal -/

/-- Follow `next` until null and return the addresses visited; `none` when
the fuel runs out first. -/
def walk (next : Nat → Nat) : Nat → Nat → Option (List Nat)
  | 0, a => if a = 0 then some [] else none
  | fuel + 1, a =>
    if a = 0 then some [] else (walk next fuel (next a)).map (a :: ·)

/-- Enough fuel finds the chain, and only a chain is found. -/
theorem walk_eq_some_iff {next : Nat → Nat} {fuel a : Nat} {xs : List Nat} :
    walk next fuel a = some xs ↔ PtrChain next a xs ∧ xs.length ≤ fuel := by
  induction fuel generalizing a xs with
  | zero =>
    rw [walk]
    by_cases ha : a = 0
    · cases xs <;> simp [ha, PtrChain]
    · cases xs <;> simp [ha, PtrChain]
  | succ fuel ih =>
    rw [walk]
    by_cases ha : a = 0
    · cases xs with
      | nil => simp [ha, PtrChain]
      | cons x xs =>
        simp only [ha, if_true, PtrChain]
        constructor
        · intro h; simp at h
        · rintro ⟨⟨rfl, hx, _⟩, _⟩; exact absurd rfl hx
    · rw [if_neg ha, Option.map_eq_some_iff]
      constructor
      · rintro ⟨ys, hys, rfl⟩
        obtain ⟨hchain, hlen⟩ := ih.mp hys
        exact ⟨⟨rfl, ha, hchain⟩, by simp only [List.length_cons]; omega⟩
      · rintro ⟨hchain, hlen⟩
        cases xs with
        | nil => exact absurd hchain ha
        | cons x xs =>
          obtain ⟨rfl, _, hxs⟩ := hchain
          exact ⟨xs, ih.mpr ⟨hxs, by simp only [List.length_cons] at hlen; omega⟩, rfl⟩

end SparkNvm.Lib
