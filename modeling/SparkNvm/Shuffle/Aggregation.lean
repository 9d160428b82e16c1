import SparkNvm.Shuffle.MergeSort

/-!
# `mergeWithAggregation`

With an aggregator, what has the same key is combined while the sorted iterators are
merged.

* `mergeWithAggregation`, as in the source, with its two modes.
* `Aggregates`, `aggregateTotal_aggregates` and `aggregatePartial_aggregates`: every key
  once, with its combiners in the order of the merged iterator.
* `mergeWithAggregation_values`: they are all combiners of the key.
-/

namespace SparkNvm.Shuffle

open Lib

section

variable {K C : Type} {comparator : K → K → Int} {iterators : List (List (K × C))}

/-! ## The two modes -/

variable [DecidableEq K]

/-- `next()` calls of the iterator for a total order, from the pair read last on: pairs
with its key are merged into it, the next key starts a new one. -/
def aggregateTotal (mergeCombiners : C → C → C) : K × C → List (K × C) → List (K × C)
  | elem, [] => [elem]
  | elem, pair :: sorted =>
    if pair.1 = elem.1 then
      aggregateTotal mergeCombiners (elem.1, mergeCombiners elem.2 pair.2) sorted
    else elem :: aggregateTotal mergeCombiners pair sorted

/-- `next()` calls of the iterator for a partial order, from the first key of a group on:
`keys` and `combiners` collect the pairs that compare as equal to it. -/
def aggregatePartial (comparator : K → K → Int) (mergeCombiners : C → C → C) :
    K → List (K × C) → List (K × C) → List (K × C)
  | _, group, [] => group
  | key, group, pair :: sorted =>
    if comparator pair.1 key = 0 then
      aggregatePartial comparator mergeCombiners key
        (changeValue (fun old =>
            match old with
            | some combiner => mergeCombiners combiner pair.2
            | none => pair.2)
          pair.1 group) sorted
    else group ++ aggregatePartial comparator mergeCombiners pair.1 [pair] sorted

/-- `mergeWithAggregation(iterators, mergeCombiners, comparator, totalOrder)`, read to its
end. -/
def mergeWithAggregation (pq : IterQueue K C comparator) (mergeCombiners : C → C → C)
    (totalOrder : Bool) (iterators : List (List (K × C))) : List (K × C) :=
  match mergeSort pq iterators with
  | [] => []
  | first :: sorted =>
    if totalOrder then aggregateTotal mergeCombiners first sorted
    else aggregatePartial comparator mergeCombiners first.1 [first] sorted

variable {mergeCombiners : C → C → C}

/-- Every key of the entries once, with its combiners merged in order. -/
def Aggregates (mergeCombiners : C → C → C) (entries result : List (K × C)) : Prop :=
  ∀ key, valuesAt key result = (combineAll mergeCombiners (valuesAt key entries)).toList

omit [DecidableEq K] in
theorem lt_of_not_equal (hcmp : LawfulComparator comparator) {a b c : K}
    (hab : comparator a b ≤ 0) (hne : comparator b a ≠ 0) (hbc : comparator b c ≤ 0) :
    comparator c a ≠ 0 := by
  intro hca
  have hac := (hcmp.eq_zero_iff.mp hca).2
  have hca' := (hcmp.eq_zero_iff.mp hca).1
  exact hne (hcmp.eq_zero_iff.mpr ⟨hcmp.trans _ _ _ hbc hca', hab⟩)

theorem aggregateTotal_aggregates (hcmp : LawfulComparator comparator)
    (heq : ∀ a b, comparator a b = 0 → a = b) (mergeCombiners : C → C → C) {elem : K × C}
    {sorted : List (K × C)} (hsorted : KeySorted comparator (elem :: sorted)) :
    Aggregates mergeCombiners (elem :: sorted) (aggregateTotal mergeCombiners elem sorted) := by
  induction sorted generalizing elem with
  | nil =>
    intro key
    rw [aggregateTotal]
    by_cases hkey : elem.1 = key
    · subst hkey
      rw [valuesAt_cons_self]
      rfl
    · rw [valuesAt_cons_ne hkey]
      rfl
  | cons pair sorted ih =>
    obtain ⟨k, c⟩ := elem
    obtain ⟨k', c'⟩ := pair
    obtain ⟨hle, hrest⟩ := List.pairwise_cons.mp hsorted
    obtain ⟨hpair, htail⟩ := List.pairwise_cons.mp hrest
    intro key
    rw [aggregateTotal]
    by_cases hsame : k' = k
    · subst hsame
      have hmerged : KeySorted comparator ((k', mergeCombiners c c') :: sorted) :=
        List.pairwise_cons.mpr ⟨hpair, htail⟩
      rw [if_pos rfl, ih hmerged key]
      by_cases hkey : k' = key
      · subst hkey
        rw [valuesAt_cons_self, valuesAt_cons_self, valuesAt_cons_self]
        rfl
      · rw [valuesAt_cons_ne hkey, valuesAt_cons_ne hkey, valuesAt_cons_ne hkey]
    · rw [if_neg hsame]
      by_cases hkey : k = key
      · subst hkey
        -- the key does not come again: what follows is behind the next key
        have hnone : valuesAt k ((k', c') :: sorted) = [] := by
          apply valuesAt_eq_nil
          intro hmem
          obtain ⟨entry, hentry, hfst⟩ := List.mem_map.mp hmem
          cases List.mem_cons.mp hentry with
          | inl hfirst =>
            rw [hfirst] at hfst
            exact hsame hfst
          | inr hlater =>
            have hlt := lt_of_not_equal hcmp (hle (k', c') List.mem_cons_self)
              (fun hzero => hsame (heq _ _ hzero)) (hpair entry hlater)
            rw [hfst] at hlt
            exact hlt (hcmp.eq_zero_iff.mpr ⟨hcmp.refl k, hcmp.refl k⟩)
        rw [valuesAt_cons_self, valuesAt_cons_self, ih hrest, hnone]
        rfl
      · rw [valuesAt_cons_ne hkey, valuesAt_cons_ne hkey, ih hrest]

/-- The keys of the result are keys of the entries. -/
theorem Aggregates.mem_keys {entries result : List (K × C)}
    (h : Aggregates mergeCombiners entries result) {entry : K × C} (hentry : entry ∈ result) :
    ∃ entry' ∈ entries, entry'.1 = entry.1 := by
  have hmem : entry.2 ∈ valuesAt entry.1 result := mem_valuesAt.mpr hentry
  cases hvalues : valuesAt entry.1 entries with
  | nil =>
    rw [h entry.1, hvalues] at hmem
    exact absurd hmem List.not_mem_nil
  | cons combiner combiners =>
    refine ⟨(entry.1, combiner), mem_valuesAt.mp ?_, rfl⟩
    rw [hvalues]
    exact List.mem_cons_self

theorem aggregateTotal_sorted (hcmp : LawfulComparator comparator)
    (heq : ∀ a b, comparator a b = 0 → a = b) (mergeCombiners : C → C → C) {elem : K × C}
    {sorted : List (K × C)} (hsorted : KeySorted comparator (elem :: sorted)) :
    KeySorted comparator (aggregateTotal mergeCombiners elem sorted) := by
  induction sorted generalizing elem with
  | nil => exact hsorted
  | cons pair sorted ih =>
    obtain ⟨hle, hrest⟩ := List.pairwise_cons.mp hsorted
    rw [aggregateTotal]
    by_cases hsame : pair.1 = elem.1
    · rw [if_pos hsame]
      exact ih (List.pairwise_cons.mpr
        ⟨fun entry hentry => hle entry (List.mem_cons_of_mem _ hentry),
          (List.pairwise_cons.mp hrest).2⟩)
    · rw [if_neg hsame]
      refine List.pairwise_cons.mpr ⟨fun entry hentry => ?_, ih hrest⟩
      obtain ⟨entry', hmem, hkey⟩ :=
        (aggregateTotal_aggregates hcmp heq mergeCombiners hrest).mem_keys hentry
      rw [← hkey]
      exact hle entry' hmem

/-- A group of the partial order and what is still to be read: the keys of the group
compare as equal to its first key, and the rest does not come before it. -/
structure Grouping (comparator : K → K → Int) (key : K) (group rest : List (K × C)) : Prop where
  nodup : (group.map Prod.fst).Nodup
  equal : ∀ k ∈ group.map Prod.fst, comparator k key = 0
  sorted : KeySorted comparator rest
  behind : ∀ entry ∈ rest, comparator key entry.1 ≤ 0

omit [DecidableEq K] in
theorem Grouping.start (hcmp : LawfulComparator comparator) {pair : K × C} {sorted : List (K × C)}
    (h : KeySorted comparator (pair :: sorted)) : Grouping comparator pair.1 [pair] sorted := by
  obtain ⟨hbehind, hsorted⟩ := List.pairwise_cons.mp h
  refine ⟨List.nodup_singleton _, fun k hk => ?_, hsorted, hbehind⟩
  rw [List.mem_singleton.mp hk]
  exact hcmp.eq_zero_iff.mpr ⟨hcmp.refl _, hcmp.refl _⟩

theorem Grouping.add {key : K} {group sorted : List (K × C)} {pair : K × C}
    (h : Grouping comparator key group (pair :: sorted)) (hzero : comparator pair.1 key = 0)
    (update : Option C → C) :
    Grouping comparator key (changeValue update pair.1 group) sorted := by
  refine ⟨nodup_changeValue h.nodup, fun k hk => ?_, (List.pairwise_cons.mp h.sorted).2,
    fun entry hentry => h.behind entry (List.mem_cons_of_mem _ hentry)⟩
  cases mem_keys_changeValue.mp hk with
  | inl hself => rw [hself]; exact hzero
  | inr hold => exact h.equal k hold

omit [DecidableEq K] in
/-- A key of the group does not come again once a pair is behind it. -/
theorem Grouping.not_mem (hcmp : LawfulComparator comparator) {key : K}
    {group sorted : List (K × C)}
    {pair : K × C} (h : Grouping comparator key group (pair :: sorted))
    (hne : comparator pair.1 key ≠ 0) {k : K} (hk : k ∈ group.map Prod.fst) :
    k ∉ (pair :: sorted).map Prod.fst := by
  intro hmem
  obtain ⟨entry, hentry, rfl⟩ := List.mem_map.mp hmem
  cases List.mem_cons.mp hentry with
  | inl hfirst => exact hne (hfirst ▸ h.equal _ hk)
  | inr hlater =>
    exact lt_of_not_equal hcmp (h.behind pair List.mem_cons_self) hne
      ((List.pairwise_cons.mp h.sorted).1 entry hlater) (h.equal _ hk)

theorem aggregatePartial_aggregates (hcmp : LawfulComparator comparator)
    (mergeCombiners : C → C → C) {key : K} {group sorted : List (K × C)}
    (h : Grouping comparator key group sorted) :
    Aggregates mergeCombiners (group ++ sorted)
      (aggregatePartial comparator mergeCombiners key group sorted) := by
  induction sorted generalizing key group with
  | nil =>
    intro k
    rw [aggregatePartial, List.append_nil]
    match hvalues : valuesAt k group, length_valuesAt_le h.nodup k with
    | [], _ => rfl
    | [combiner], _ => rfl
  | cons pair sorted ih =>
    obtain ⟨k', c'⟩ := pair
    intro k
    rw [aggregatePartial]
    by_cases hzero : comparator k' key = 0
    · rw [if_pos hzero, ih (h.add hzero _) k, valuesAt_append, valuesAt_append]
      by_cases hk : k' = k
      · subst hk
        rw [valuesAt_changeValue_self h.nodup, valuesAt_cons_self]
        match hvalues : valuesAt k' group, length_valuesAt_le h.nodup k' with
        | [], _ => rfl
        | [combiner], _ => rfl
      · rw [valuesAt_changeValue_ne hk, valuesAt_cons_ne hk]
    · rw [if_neg hzero, valuesAt_append, valuesAt_append, ih (Grouping.start hcmp h.sorted),
        List.singleton_append]
      by_cases hk : k ∈ group.map Prod.fst
      · rw [valuesAt_eq_nil (h.not_mem hcmp hzero hk)]
        match hvalues : valuesAt k group, length_valuesAt_le h.nodup k with
        | [], _ => rfl
        | [combiner], _ => rfl
      · rw [valuesAt_eq_nil hk, List.nil_append, List.nil_append]

theorem aggregatePartial_sorted (hcmp : LawfulComparator comparator) (mergeCombiners : C → C → C)
    {key : K} {group sorted : List (K × C)} (h : Grouping comparator key group sorted) :
    KeySorted comparator (aggregatePartial comparator mergeCombiners key group sorted) := by
  have hle : ∀ {key : K} {group sorted : List (K × C)}, Grouping comparator key group sorted →
      ∀ entry ∈ group, comparator entry.1 key ≤ 0 ∧ comparator key entry.1 ≤ 0 :=
    fun h entry hentry => hcmp.eq_zero_iff.mp (h.equal _ (List.mem_map_of_mem hentry))
  have hgroup : ∀ {key : K} {group sorted : List (K × C)}, Grouping comparator key group sorted →
      KeySorted comparator group := fun h => List.pairwise_of_forall_mem_list fun a ha b hb =>
    hcmp.trans _ _ _ (hle h a ha).1 (hle h b hb).2
  induction sorted generalizing key group with
  | nil => exact hgroup h
  | cons pair sorted ih =>
    rw [aggregatePartial]
    by_cases hzero : comparator pair.1 key = 0
    · rw [if_pos hzero]
      exact ih (h.add hzero _)
    · rw [if_neg hzero]
      have hstart := Grouping.start hcmp h.sorted
      refine List.pairwise_append.mpr ⟨hgroup h, ih hstart, fun a ha b hb => ?_⟩
      obtain ⟨b', hb', hkey⟩ := (aggregatePartial_aggregates hcmp mergeCombiners hstart).mem_keys hb
      rw [← hkey]
      exact hcmp.trans _ _ _ (hle h a ha).1 (h.behind b' hb')

/-! ## The result of `mergeWithAggregation` -/

section

variable {totalOrder : Bool}

/-- The comparator orders the keys, and where the order is taken as total it tells
different keys apart. -/
structure OrdersKeys (comparator : K → K → Int) (totalOrder : Bool) : Prop where
  lawful : LawfulComparator comparator
  total : totalOrder = true → ∀ a b, comparator a b = 0 → a = b

theorem mergeWithAggregation_aggregates (hcmp : OrdersKeys comparator totalOrder)
    (pq : IterQueue K C comparator) (mergeCombiners : C → C → C)
    (hsorted : ∀ it ∈ iterators, KeySorted comparator it) :
    Aggregates mergeCombiners (mergeSort pq iterators)
        (mergeWithAggregation pq mergeCombiners totalOrder iterators) ∧
      KeySorted comparator (mergeWithAggregation pq mergeCombiners totalOrder iterators) := by
  have hmerged := mergeSort_sorted hcmp.lawful pq hsorted
  rw [mergeWithAggregation]
  cases hlist : mergeSort pq iterators with
  | nil => exact ⟨fun _ => rfl, .nil⟩
  | cons first sorted =>
    rw [hlist] at hmerged
    cases htotal : totalOrder with
    | true =>
      have heq := hcmp.total htotal
      exact ⟨aggregateTotal_aggregates hcmp.lawful heq mergeCombiners hmerged,
        aggregateTotal_sorted hcmp.lawful heq mergeCombiners hmerged⟩
    | false =>
      have hstart := Grouping.start hcmp.lawful hmerged
      exact ⟨aggregatePartial_aggregates hcmp.lawful mergeCombiners hstart,
        aggregatePartial_sorted hcmp.lawful mergeCombiners hstart⟩

/-- Every key of the iterators once, with all its combiners in any order. -/
theorem mergeWithAggregation_values (hcmp : OrdersKeys comparator totalOrder)
    (hassoc : Std.Associative mergeCombiners) (hcomm : Std.Commutative mergeCombiners)
    (pq : IterQueue K C comparator) (hsorted : ∀ it ∈ iterators, KeySorted comparator it)
    (key : K) :
    valuesAt key (mergeWithAggregation pq mergeCombiners totalOrder iterators) =
      (combineAll mergeCombiners (valuesAt key iterators.flatten)).toList := by
  rw [(mergeWithAggregation_aggregates hcmp pq mergeCombiners hsorted).1 key,
    combineAll_perm (valuesAt_perm key (mergeSort_perm pq iterators))]

end

/-! ## Groups -/

/-- The result has every key of the entries exactly once, with all its combiners merged. -/
structure Groups (mergeCombiners : C → C → C) (entries result : List (K × C)) : Prop where
  nodup : (result.map Prod.fst).Nodup
  keys : ∀ key, key ∈ result.map Prod.fst ↔ key ∈ entries.map Prod.fst
  value : ∀ entry ∈ result, combineAll mergeCombiners (valuesAt entry.1 entries) = some entry.2

theorem Aggregates.groups {entries result : List (K × C)}
    (h : Aggregates mergeCombiners entries result) : Groups mergeCombiners entries result := by
  constructor
  · apply nodup_of_length_valuesAt_le
    intro key
    rw [h key]
    cases combineAll mergeCombiners (valuesAt key entries) with
    | none => exact Nat.zero_le 1
    | some combiner => exact Nat.le_refl 1
  · intro key
    rw [mem_keys_iff, mem_keys_iff, h key]
    cases hvalues : valuesAt key entries with
    | nil => exact Iff.rfl
    | cons combiner combiners => exact iff_of_true (List.cons_ne_nil _ _) (List.cons_ne_nil _ _)
  · intro entry hentry
    have hmem : entry.2 ∈ valuesAt entry.1 result := mem_valuesAt.mpr hentry
    rw [h entry.1] at hmem
    exact Option.mem_toList.mp hmem

/-- An entry of the result is a key with the merge of its combiners. -/
theorem Groups.mem_iff {entries result : List (K × C)} (h : Groups mergeCombiners entries result)
    {entry : K × C} :
    entry ∈ result ↔ combineAll mergeCombiners (valuesAt entry.1 entries) = some entry.2 := by
  refine ⟨h.value entry, fun hvalue => ?_⟩
  have hkey : entry.1 ∈ entries.map Prod.fst := by
    rw [mem_keys_iff]
    intro hnil
    rw [hnil] at hvalue
    exact Option.some_ne_none _ hvalue.symm
  obtain ⟨entry', hmem, hfst⟩ := List.mem_map.mp ((h.keys _).mpr hkey)
  have hsame := h.value entry' hmem
  rw [hfst, hvalue, Option.some.injEq] at hsame
  rw [show entry = entry' from Prod.ext hfst.symm hsame]
  exact hmem

/-- Two sorted results for the same entries are the same if the comparator tells keys
apart. -/
theorem Groups.unique {entries result result' : List (K × C)}
    (heq : ∀ a b, comparator a b = 0 → a = b) (hcmp : LawfulComparator comparator)
    (h : Groups mergeCombiners entries result) (h' : Groups mergeCombiners entries result')
    (hsorted : KeySorted comparator result) (hsorted' : KeySorted comparator result') :
    result = result' := by
  have hperm : result.Perm result' :=
    (List.perm_ext_iff_of_nodup (h.nodup.of_map _) (h'.nodup.of_map _)).mpr fun entry =>
      h.mem_iff.trans h'.mem_iff.symm
  refine hperm.eq_of_pairwise (fun a b ha hb hab hba => ?_) hsorted hsorted'
  have hkey := heq _ _ (hcmp.eq_zero_iff.mpr ⟨hab, hba⟩)
  have hvalue := h.mem_iff.mp ha
  rw [hkey, h'.mem_iff.mp hb, Option.some.injEq] at hvalue
  exact Prod.ext hkey hvalue.symm

end

/-- For every list of iterators that are sorted by a comparator, every associative and
commutative `mergeCombiners` and every priority queue: in both modes, with a comparator
that tells keys apart if the order is taken as total, the result has every key of the
iterators exactly once, with all its combiners merged, in the order of the comparator;
and with such a comparator the two modes give the same result. -/
theorem merge_with_aggregation_groups {K C : Type} [DecidableEq K] (comparator : K → K → Int)
    (pq pq' : IterQueue K C comparator) (mergeCombiners : C → C → C)
    (iterators : List (List (K × C))) (hassoc : Std.Associative mergeCombiners)
    (hcomm : Std.Commutative mergeCombiners)
    (hsorted : ∀ it ∈ iterators, KeySorted comparator it) :
    (∀ totalOrder, OrdersKeys comparator totalOrder →
      Groups mergeCombiners iterators.flatten
          (mergeWithAggregation pq mergeCombiners totalOrder iterators) ∧
        KeySorted comparator (mergeWithAggregation pq mergeCombiners totalOrder iterators)) ∧
    (OrdersKeys comparator true →
      mergeWithAggregation pq mergeCombiners false iterators =
        mergeWithAggregation pq' mergeCombiners true iterators) := by
  have hmode : ∀ (pq : IterQueue K C comparator) totalOrder, OrdersKeys comparator totalOrder →
      Groups mergeCombiners iterators.flatten
          (mergeWithAggregation pq mergeCombiners totalOrder iterators) ∧
        KeySorted comparator (mergeWithAggregation pq mergeCombiners totalOrder iterators) := by
    intro pq totalOrder hcmp
    have haggregates : Aggregates mergeCombiners iterators.flatten
        (mergeWithAggregation pq mergeCombiners totalOrder iterators) :=
      mergeWithAggregation_values hcmp hassoc hcomm pq hsorted
    exact ⟨haggregates.groups, (mergeWithAggregation_aggregates hcmp pq mergeCombiners hsorted).2⟩
  refine ⟨hmode pq, fun hcmp => ?_⟩
  obtain ⟨hhashed, hhashedSorted⟩ := hmode pq false ⟨hcmp.lawful, fun h => Bool.noConfusion h⟩
  obtain ⟨htotal, htotalSorted⟩ := hmode pq' true hcmp
  exact hhashed.unique (hcmp.total rfl) hcmp.lawful htotal hhashedSorted htotalSorted

/-- Two iterators sorted by a hash code that does not tell 1 and 4 apart. -/
theorem merge_with_aggregation_groups_sample :
    mergeWithAggregation
        (iterQueue (lawfulComparator_of_key fun key : Int => key % 3)) (· + ·) false
        [[(1, 10), (2, 20)], [(4, 40), (1, 1), (5, 50)]] =
      [(4, 40), (1, 11), (2, 20), (5, 50)] ∧
    Groups (· + ·) [(1, 10), (2, 20), (4, 40), (1, 1), (5, 50)]
      (mergeWithAggregation (iterQueue (lawfulComparator_of_key fun key : Int => key % 3)) (· + ·)
        false [[(1, 10), (2, 20)], [(4, 40), (1, 1), (5, 50)]] : List (Int × Nat)) := by
  have hgroups := (merge_with_aggregation_groups _
    (iterQueue (lawfulComparator_of_key fun key : Int => key % 3))
    (iterQueue (lawfulComparator_of_key fun key : Int => key % 3)) (· + ·)
    ([[(1, 10), (2, 20)], [(4, 40), (1, 1), (5, 50)]] : List (List (Int × Nat)))
    ⟨Nat.add_assoc⟩ ⟨Nat.add_comm⟩ (by simp [KeySorted])).1 false
    ⟨lawfulComparator_of_key _, fun h => Bool.noConfusion h⟩
  exact ⟨by decide, hgroups.1⟩

end SparkNvm.Shuffle
