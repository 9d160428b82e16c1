import Mathlib.Data.List.Induction
import Mathlib.Data.List.Perm.Basic

/-!
# Combining values by key

A table maps each of its keys to one combined value; a list of entries may hold several
values for a key, which are combined later.

* `combineAll` combines values in order, and `combineAll_append` splits it.
* `valuesAt` are the values of a key among the entries, in order.
* `changeValue` updates one key of a table.
-/

namespace SparkNvm.Lib

section

variable {C : Type*}

/-- The values combined in order; there is nothing to combine in an empty list. -/
def combineAll (merge : C → C → C) : List C → Option C
  | [] => none
  | c :: cs => some (cs.foldl merge c)

variable {merge : C → C → C}

theorem combineAll_concat (merge : C → C → C) (cs : List C) (c : C) :
    combineAll merge (cs ++ [c]) = (combineAll merge cs).merge merge (some c) := by
  cases cs with
  | nil => rfl
  | cons d cs => exact congrArg some (List.foldl_concat merge d c cs)

theorem combineAll_append [Std.Associative merge] (cs ds : List C) :
    combineAll merge (cs ++ ds) = (combineAll merge cs).merge merge (combineAll merge ds) := by
  induction ds using List.reverseRecOn with
  | nil => rw [List.append_nil, combineAll, Option.merge_none_right]
  | append_singleton ds d ih =>
    have hassoc := (Option.associative_merge merge).assoc (combineAll merge cs)
      (combineAll merge ds) (some d)
    rw [← List.append_assoc, combineAll_concat, combineAll_concat, ih, hassoc]

theorem combineAll_perm [Std.Associative merge] [Std.Commutative merge] {cs ds : List C}
    (h : cs.Perm ds) : combineAll merge cs = combineAll merge ds := by
  induction h with
  | nil => rfl
  | @cons c cs ds _ ih =>
    rw [← List.singleton_append, combineAll_append, ih, ← combineAll_append, List.singleton_append]
  | swap c d cs =>
    exact congrArg (fun b => some (cs.foldl merge b)) (Std.Commutative.comm d c)
  | trans _ _ ih₁ ih₂ => exact ih₁.trans ih₂

/-- A single value is its own combination. -/
theorem toList_combineAll (merge : C → C → C) {cs : List C} (h : cs.length ≤ 1) :
    (combineAll merge cs).toList = cs := by
  cases cs with
  | nil => rfl
  | cons c cs =>
    have hnil : cs = [] := List.length_eq_zero_iff.mp (by rw [List.length_cons] at h; omega)
    rw [hnil]
    rfl

end

/-! ## Entries -/

section

variable {κ C : Type*} [DecidableEq κ]

/-- The values of a key, in order. -/
def valuesAt (k : κ) (entries : List (κ × C)) : List C :=
  (entries.filter fun entry => entry.1 = k).map Prod.snd

theorem valuesAt_append (k : κ) (entries entries' : List (κ × C)) :
    valuesAt k (entries ++ entries') = valuesAt k entries ++ valuesAt k entries' := by
  rw [valuesAt, List.filter_append, List.map_append]
  rfl

theorem valuesAt_flatMap {β : Type*} (k : κ) (xs : List β) (f : β → List (κ × C)) :
    valuesAt k (xs.flatMap f) = xs.flatMap fun x => valuesAt k (f x) := by
  rw [valuesAt, List.filter_flatMap, List.map_flatMap]
  rfl

theorem valuesAt_cons_self (k : κ) (c : C) (entries : List (κ × C)) :
    valuesAt k ((k, c) :: entries) = c :: valuesAt k entries := by
  rw [valuesAt, List.filter_cons_of_pos (by simp)]
  rfl

theorem valuesAt_cons_ne {k k' : κ} (h : k' ≠ k) (c : C) (entries : List (κ × C)) :
    valuesAt k ((k', c) :: entries) = valuesAt k entries := by
  rw [valuesAt, List.filter_cons_of_neg (by simpa using h)]
  rfl

theorem mem_valuesAt {k : κ} {c : C} {entries : List (κ × C)} :
    c ∈ valuesAt k entries ↔ (k, c) ∈ entries := by
  simp [valuesAt]

theorem valuesAt_eq_nil {k : κ} {entries : List (κ × C)} (h : k ∉ entries.map Prod.fst) :
    valuesAt k entries = [] := by
  rw [List.eq_nil_iff_forall_not_mem]
  intro c hc
  exact h (List.mem_map_of_mem (f := Prod.fst) (mem_valuesAt.mp hc))

theorem valuesAt_perm (k : κ) {entries entries' : List (κ × C)} (h : entries.Perm entries') :
    (valuesAt k entries).Perm (valuesAt k entries') :=
  (h.filter _).map _

/-- A table has at most one value for a key. -/
theorem length_valuesAt_le {entries : List (κ × C)} (h : (entries.map Prod.fst).Nodup) (k : κ) :
    (valuesAt k entries).length ≤ 1 := by
  induction entries with
  | nil => exact Nat.zero_le _
  | cons entry entries ih =>
    obtain ⟨hnew, hrest⟩ := List.nodup_cons.mp h
    by_cases hk : entry.1 = k
    · subst hk
      rw [valuesAt_cons_self, valuesAt_eq_nil hnew]
      exact Nat.le_refl _
    · rw [valuesAt_cons_ne hk]
      exact ih hrest

theorem mem_keys_iff {k : κ} {entries : List (κ × C)} :
    k ∈ entries.map Prod.fst ↔ valuesAt k entries ≠ [] := by
  constructor
  · intro hmem hnil
    obtain ⟨entry, hentry, rfl⟩ := List.mem_map.mp hmem
    have hvalue : entry.2 ∈ valuesAt entry.1 entries := mem_valuesAt.mpr hentry
    rw [hnil] at hvalue
    exact List.not_mem_nil hvalue
  · exact fun hne => by_contra fun hnot => hne (valuesAt_eq_nil hnot)

/-- Entries with at most one value for a key are a table. -/
theorem nodup_of_length_valuesAt_le {entries : List (κ × C)}
    (h : ∀ k, (valuesAt k entries).length ≤ 1) : (entries.map Prod.fst).Nodup := by
  induction entries with
  | nil => exact List.nodup_nil
  | cons entry entries ih =>
    rw [List.map_cons, List.nodup_cons]
    constructor
    · intro hmem
      have hle := h entry.1
      have hpos := List.length_pos_of_ne_nil (mem_keys_iff.mp hmem)
      rw [valuesAt_cons_self, List.length_cons] at hle
      omega
    · refine ih fun k => ?_
      by_cases hk : entry.1 = k
      · subst hk
        have hle := h entry.1
        rw [valuesAt_cons_self, List.length_cons] at hle
        omega
      · rw [← valuesAt_cons_ne hk entry.2]
        exact h k

/-- Reordering a table does not change the values of its keys. -/
theorem valuesAt_perm_table {entries entries' : List (κ × C)} (h : entries.Perm entries')
    (hnodup : (entries'.map Prod.fst).Nodup) (k : κ) :
    valuesAt k entries = valuesAt k entries' := by
  have hperm := valuesAt_perm k h
  have hle := length_valuesAt_le hnodup k
  match hvalues : valuesAt k entries', hle with
  | [], _ =>
    rw [hvalues] at hperm
    exact hperm.eq_nil
  | [c], _ =>
    rw [hvalues] at hperm
    exact List.perm_singleton.mp hperm

/-! ## A table -/

/-- Replaces the value of `k`, or adds one. -/
def changeValue (update : Option C → C) (k : κ) : List (κ × C) → List (κ × C)
  | [] => [(k, update none)]
  | entry :: entries =>
    if entry.1 = k then (k, update (some entry.2)) :: entries
    else entry :: changeValue update k entries

theorem mem_keys_changeValue {update : Option C → C} {k k' : κ} {entries : List (κ × C)} :
    k' ∈ (changeValue update k entries).map Prod.fst ↔ k' = k ∨ k' ∈ entries.map Prod.fst := by
  induction entries with
  | nil => simp [changeValue]
  | cons entry entries ih =>
    rw [changeValue]
    split
    · rename_i hk
      simp [hk]
    · rw [List.map_cons, List.mem_cons, ih, List.map_cons, List.mem_cons]
      tauto

theorem nodup_changeValue {update : Option C → C} {k : κ} {entries : List (κ × C)}
    (h : (entries.map Prod.fst).Nodup) : ((changeValue update k entries).map Prod.fst).Nodup := by
  induction entries with
  | nil => simp [changeValue]
  | cons entry entries ih =>
    obtain ⟨hnew, hrest⟩ := List.nodup_cons.mp h
    rw [changeValue]
    split
    · rename_i hk
      rw [List.map_cons, List.nodup_cons]
      exact ⟨hk ▸ hnew, hrest⟩
    · rename_i hk
      rw [List.map_cons, List.nodup_cons, mem_keys_changeValue]
      exact ⟨by tauto, ih hrest⟩

/-- The key that is changed. -/
theorem valuesAt_changeValue_self {update : Option C → C} {k : κ} {entries : List (κ × C)}
    (h : (entries.map Prod.fst).Nodup) :
    valuesAt k (changeValue update k entries) = [update (valuesAt k entries).head?] := by
  induction entries with
  | nil => rw [changeValue, valuesAt_cons_self]; rfl
  | cons entry entries ih =>
    obtain ⟨hnew, hrest⟩ := List.nodup_cons.mp h
    rw [changeValue]
    split
    · rename_i hk
      subst hk
      rw [valuesAt_cons_self, valuesAt_cons_self, valuesAt_eq_nil hnew]
      rfl
    · rename_i hk
      rw [valuesAt_cons_ne hk, valuesAt_cons_ne hk, ih hrest]

/-- The other keys. -/
theorem valuesAt_changeValue_ne {update : Option C → C} {k k' : κ} (h : k ≠ k')
    (entries : List (κ × C)) :
    valuesAt k' (changeValue update k entries) = valuesAt k' entries := by
  induction entries with
  | nil => rw [changeValue, valuesAt_cons_ne h]
  | cons entry entries ih =>
    rw [changeValue]
    split
    · rename_i hk
      rw [valuesAt_cons_ne h, valuesAt_cons_ne (hk ▸ h)]
    · by_cases hk' : entry.1 = k'
      · subst hk'
        rw [valuesAt_cons_self, valuesAt_cons_self, ih]
      · rw [valuesAt_cons_ne hk', valuesAt_cons_ne hk', ih]

end

end SparkNvm.Lib
