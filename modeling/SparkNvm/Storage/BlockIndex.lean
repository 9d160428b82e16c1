import SparkNvm.Storage.Handler

/-!
# The array that `nativeGetBlockIndex` returns

`nativeGetBlockIndex` asks for the number of blocks, allocates a struct and an array without
clearing them, and lets `get_meta` fill them.  The length that it then copies by is the field of the
struct, converted to a `jsize`; for a key without blocks nobody has set that field.

* `nativeGetBlockIndex_present` and `nativeGetBlockIndex_absent`: what it returns.
* `IndexExact`: what the array, the size and the pairs of the handler should be.
* `block_index_exact_iff`: for which keys they are that, after every run of the store.
-/

namespace SparkNvm.Storage

open Lib Native

/-- The entries at the odd positions. -/
def oddEntries : List Nat → List Nat
  | _ :: size :: rest => size :: oddEntries rest
  | _ => []

/-- The words of the blocks: an address and a length each. -/
def indexWords (calls : List PutCall) : List Nat :=
  calls.flatMap fun call => [call.ans.data, call.value.length]

/-- The answers for a key with the blocks of `calls`. -/
structure IndexExact (hash : String → UInt64) (fuel : Nat) (kv : Pmemkv) (key : String)
    (mm : Pmemkv.MemoryMeta) (calls : List PutCall) : Prop where
  /-- An array of two longs for each block. -/
  array : ∃ array, nativeGetBlockIndex hash fuel kv key mm = some array ∧
    array.length = 2 * calls.length ∧ array = indexWords calls ∧
    nativeGetBlockSize hash kv key = some (oddEntries array).sum
  /-- The pairs of the handler. -/
  info : getPartitionBlockInfo hash fuel kv key mm = some (calls.map infoOf)

/-! ## Words -/

theorem indexWords_append (calls calls' : List PutCall) :
    indexWords (calls ++ calls') = indexWords calls ++ indexWords calls' :=
  List.flatMap_append

theorem length_indexWords (calls : List PutCall) :
    (indexWords calls).length = 2 * calls.length := by
  induction calls with
  | nil => rfl
  | cons call calls ih =>
    show (indexWords calls).length + 2 = 2 * (calls.length + 1)
    omega

theorem oddEntries_indexWords (calls : List PutCall) :
    oddEntries (indexWords calls) = calls.map fun call => call.value.length := by
  induction calls with
  | nil => rfl
  | cons call calls ih =>
    show call.value.length :: oddEntries (indexWords calls) = _
    rw [ih, List.map_cons]

theorem indexWords_eq_blocks (hash : String → UInt64) (calls : List PutCall) :
    (calls.map (PutCall.block hash)).flatMap (fun b => [b.off, b.size]) = indexWords calls := by
  rw [indexWords, List.flatMap_map]
  rfl

/-- The pairs are those of the blocks exactly if every length is an `Int`. -/
theorem blockPairs_indexWords_iff (calls : List PutCall) :
    blockPairs (indexWords calls) = calls.map infoOf ↔
      ∀ call ∈ calls, call.value.length < 2 ^ 31 := by
  constructor
  · intro h call hcall
    have hmem : infoOf call ∈ blockPairs (indexWords calls) := by
      rw [h]
      exact List.mem_map_of_mem hcall
    have hpair : ∀ (cs : List PutCall) (p : Nat × Int), p ∈ blockPairs (indexWords cs) →
        p.2 < 2 ^ 31 := by
      intro cs p hp
      induction cs with
      | nil => exact absurd hp List.not_mem_nil
      | cons c cs ih =>
        rcases List.mem_cons.mp hp with rfl | hp
        · exact wrap32_le _
        · exact ih hp
    have hlt := hpair calls (infoOf call) hmem
    simp only [infoOf] at hlt
    omega
  · intro h
    rw [← indexWords_eq_blocks (fun _ => 0) calls]
    exact blockPairs_flatMap h

theorem newLongArray_of_lt {length allocated : Nat} (entries : Nat → Nat) (h : length < 2 ^ 31) :
    newLongArray length allocated entries =
      if length ≤ allocated then some ((List.range length).map entries) else none := by
  have hw : wrap32 (length : Int) = length := wrap32_of_fits (by omega) (by omega)
  rw [newLongArray, hw]
  by_cases hle : length ≤ allocated
  · rw [if_pos ⟨by omega, by omega⟩, if_pos hle, Int.toNat_natCast]
  · rw [if_neg (by omega), if_neg hle]

/-! ## The answers -/

section

variable {hash : String → UInt64} {fuel : Nat} {kv : Pmemkv} {puts : List PutCall} {k : String}

/-- What the two store calls answer: the number of blocks, and the filled struct. -/
theorem getMeta_of_indexHolds (h : IndexHolds hash kv puts) (hfuel : puts.length ≤ fuel)
    (k : String)
    (mm : Pmemkv.MemoryMeta) :
    ∃ mm', kv.getMeta hash fuel k mm = some (0, mm') ∧
      MetaWritten ((storedUnder hash puts k).map (PutCall.block hash)) mm mm' := by
  obtain ⟨nodes, hrep⟩ := h.rep
  obtain ⟨mm', hmeta, hwritten⟩ := getMeta_spec hash hrep (by simpa using hfuel) k mm
  rw [blocksOf_map_block] at hwritten
  exact ⟨mm', hmeta, hwritten⟩

theorem getMetaSize_of_indexHolds (h : IndexHolds hash kv puts) (k : String) :
    kv.getMetaSize hash k = some
      (if storedUnder hash puts k = [] then -1 else 0, (storedUnder hash puts k).length) := by
  obtain ⟨nodes, hrep⟩ := h.rep
  rw [getMetaSize_spec hash hrep h.count k, blocksOf_map_block, List.length_map]
  simp only [List.map_eq_nil_iff]

theorem nativeGetBlockIndex_of_indexHolds (h : IndexHolds hash kv puts) {mm mm' : Pmemkv.MemoryMeta}
    (hmeta : kv.getMeta hash fuel k mm = some (0, mm')) :
    nativeGetBlockIndex hash fuel kv k mm =
      newLongArray mm'.length (2 * (storedUnder hash puts k).length) mm'.entries := by
  have hcopy : ∀ copy : Nat → Nat → (Nat → Nat) → Option (List Nat),
      ((kv.getMetaSize hash k).bind fun size => (kv.getMeta hash fuel k mm).bind fun written =>
        copy written.2.length (2 * size.2) written.2.entries) =
      copy mm'.length (2 * (storedUnder hash puts k).length) mm'.entries := by
    intro copy
    rw [getMetaSize_of_indexHolds h k, hmeta, Option.bind_some, Option.bind_some]
  exact hcopy newLongArray

/-- A key with blocks. -/
theorem nativeGetBlockIndex_present (h : IndexHolds hash kv puts) (hfuel : puts.length ≤ fuel)
    (hne : storedUnder hash puts k ≠ []) (mm : Pmemkv.MemoryMeta) :
    ∃ entries, nativeGetBlockIndex hash fuel kv k mm =
        newLongArray (2 * (storedUnder hash puts k).length) (2 * (storedUnder hash puts k).length)
          entries ∧
      (List.range (2 * (storedUnder hash puts k).length)).map entries =
        indexWords (storedUnder hash puts k) := by
  obtain ⟨mm', hmeta, hwritten⟩ := getMeta_of_indexHolds h hfuel k mm
  have hlength := hwritten.length (by simpa using hne)
  have hentries := hwritten.entries
  rw [List.length_map] at hlength hentries
  rw [indexWords_eq_blocks] at hentries
  refine ⟨mm'.entries, ?_, hentries⟩
  rw [nativeGetBlockIndex_of_indexHolds h hmeta, hlength]

/-- The struct of a key without blocks stays as `malloc` returned it. -/
theorem nativeGetBlockIndex_absent (h : IndexHolds hash kv puts) (hfuel : puts.length ≤ fuel)
    (hnone : storedUnder hash puts k = []) (mm : Pmemkv.MemoryMeta) :
    nativeGetBlockIndex hash fuel kv k mm = newLongArray mm.length 0 mm.entries := by
  obtain ⟨mm', hmeta, hwritten⟩ := getMeta_of_indexHolds h hfuel k mm
  rw [hnone] at hwritten
  rw [nativeGetBlockIndex_of_indexHolds h hmeta, hwritten.absent rfl, hnone]
  rfl

/-- From `2 ^ 30` blocks on the `jsize` of the array is negative. -/
theorem nativeGetBlockIndex_many (h : IndexHolds hash kv puts) (hfuel : puts.length ≤ fuel)
    (hmany : 2 ^ 30 ≤ (storedUnder hash puts k).length)
    (hlt : (storedUnder hash puts k).length < 2 ^ 31) (mm : Pmemkv.MemoryMeta) :
    nativeGetBlockIndex hash fuel kv k mm = none := by
  have hne : storedUnder hash puts k ≠ [] := List.ne_nil_of_length_pos (by omega)
  obtain ⟨entries, hindex, _⟩ := nativeGetBlockIndex_present h hfuel hne mm
  have hneg := wrap32_neg (x := ((2 * (storedUnder hash puts k).length : Nat) : Int))
    (by omega) (by omega)
  rw [hindex, newLongArray, if_neg fun hsize => absurd hsize.1 (by omega)]

/-- `getPartitionBlockInfo` for a key with fewer than `2 ^ 30` blocks. -/
theorem getPartitionBlockInfo_present (h : IndexHolds hash kv puts) (hfuel : puts.length ≤ fuel)
    (hne : storedUnder hash puts k ≠ []) (hcount : (storedUnder hash puts k).length < 2 ^ 30)
    (hsmall : ∀ call ∈ storedUnder hash puts k, call.value.length < 2 ^ 31)
    (mm : Pmemkv.MemoryMeta) :
    getPartitionBlockInfo hash fuel kv k mm = some ((storedUnder hash puts k).map infoOf) := by
  obtain ⟨entries, hindex, hwords⟩ := nativeGetBlockIndex_present h hfuel hne mm
  rw [getPartitionBlockInfo, hindex, newLongArray_of_lt _ (by omega), if_pos (Nat.le_refl _),
    hwords, Option.map_some, (blockPairs_indexWords_iff _).mpr hsmall]

/-- The answers are exact, whatever `malloc` returned, if and only if the key has a block, there are
fewer than `2 ^ 30` of them, and each is shorter than `2 ^ 31`. -/
theorem indexExact_iff (h : IndexHolds hash kv puts) (hfuel : puts.length ≤ fuel) :
    (∀ mm, IndexExact hash fuel kv k mm (storedUnder hash puts k)) ↔
      storedUnder hash puts k ≠ [] ∧ (storedUnder hash puts k).length < 2 ^ 30 ∧
        ∀ call ∈ storedUnder hash puts k, call.value.length < 2 ^ 31 := by
  constructor
  · intro hexact
    have hne : storedUnder hash puts k ≠ [] := by
      intro hnone
      -- a struct that was not cleared
      obtain ⟨array, harray, _⟩ := (hexact ⟨fun _ => 0, 1⟩).array
      rw [nativeGetBlockIndex_absent h hfuel hnone, newLongArray_of_lt _ (by decide)] at harray
      exact absurd harray (by simp)
    obtain ⟨entries, hindex, hwords⟩ :=
      nativeGetBlockIndex_present h hfuel hne ⟨fun _ => 0, 0⟩
    obtain ⟨array, harray, hlength, hcontent, _⟩ := (hexact ⟨fun _ => 0, 0⟩).array
    have hcount : (storedUnder hash puts k).length < 2 ^ 30 := by
      rw [hindex, newLongArray] at harray
      split at harray
      · rw [← Option.some.inj harray, List.length_map, List.length_range] at hlength
        have hlt := wrap32_le ((2 * (storedUnder hash puts k).length : Nat) : Int)
        omega
      · exact absurd harray (by simp)
    refine ⟨hne, hcount, ?_⟩
    have hinfo := (hexact ⟨fun _ => 0, 0⟩).info
    rw [getPartitionBlockInfo, harray, hcontent, Option.map_some, Option.some.injEq] at hinfo
    exact (blockPairs_indexWords_iff _).mp hinfo
  · rintro ⟨hne, hcount, hsmall⟩ mm
    obtain ⟨entries, hindex, hwords⟩ := nativeGetBlockIndex_present h hfuel hne mm
    rw [newLongArray_of_lt _ (by omega), if_pos (Nat.le_refl _), hwords] at hindex
    constructor
    · refine ⟨_, hindex, length_indexWords _, rfl, ?_⟩
      rw [nativeGetBlockSize, getValueSize_eq h k, oddEntries_indexWords, storedBytes,
        List.length_flatten, List.map_map]
      rfl
    · exact getPartitionBlockInfo_present h hfuel hne hcount hsmall mm

/-- Without collisions the blocks of the hash are those of the key. -/
theorem storedUnder_eq_callsOf (h : ∀ call ∈ puts, hash call.key = hash k → call.key = k) :
    storedUnder hash puts k = callsOf puts k := by
  apply List.filter_congr
  intro call hcall
  exact decide_eq_decide.mpr ⟨h call hcall, fun heq => by rw [heq]⟩

end

/-- After every run of puts and `free_all`s without failures and for every key: the index lookup is
exact, whatever memory holds that `malloc` returned, exactly for the keys with a block (and fewer
than `2 ^ 30` of them, each shorter than `2 ^ 31`).  The blocks are those of all keys with the
hash of `k`. -/
theorem block_index_exact_iff (hash : String → UInt64) (fuel : Nat) (s : Service) (root : Nat)
    (ops : List Op) (k : String) (hroot : s.Grants sizeofBase root) (hfuel : ops.length ≤ fuel)
    (hok : Admissible (Pmemkv.step hash fuel) (Pmemkv.Ok hash) (Pmemkv.create s root) ops) :
    ∃ kv, run (Pmemkv.step hash fuel) (Pmemkv.create s root) ops = some kv ∧
      ((∀ mm, IndexExact hash fuel kv k mm (storedUnder hash (live ops) k)) ↔
        storedUnder hash (live ops) k ≠ [] ∧ (storedUnder hash (live ops) k).length < 2 ^ 30 ∧
          ∀ call ∈ storedUnder hash (live ops) k, call.value.length < 2 ^ 31) ∧
      ((∀ call ∈ live ops, hash call.key = hash k → call.key = k) →
        storedUnder hash (live ops) k = callsOf (live ops) k) := by
  obtain ⟨kv, hrun, hholds⟩ := run_holds hroot hfuel hok
  have hlen : (live ops).length ≤ fuel := Nat.le_trans (length_live_le ops) hfuel
  exact ⟨kv, hrun, indexExact_iff hholds.indexHolds hlen, storedUnder_eq_callsOf⟩

theorem block_index_exact_sample :
    ∃ kv, run (Pmemkv.step sampleHash 5) (Pmemkv.create sampleService 4096) sampleOps = some kv ∧
      ∀ mm, IndexExact sampleHash 5 kv "a" mm (storedUnder sampleHash (live sampleOps) "a") := by
  obtain ⟨kv, hrun, hiff, _⟩ := block_index_exact_iff sampleHash 5 sampleService 4096 sampleOps "a"
    (by decide) (by decide) sampleOps_admissible
  exact ⟨kv, hrun, hiff.mpr ⟨by decide, by decide, by decide⟩⟩

/-- A key of a new store, and a struct whose length happens to be 7. -/
theorem block_index_of_absent_key :
    storedUnder sampleHash (live []) "a" = [] ∧
    nativeGetBlockIndex sampleHash 5 (Pmemkv.create sampleService 4096) "a"
      ⟨fun _ => 0, 7⟩ = none ∧
    ¬∀ mm, IndexExact sampleHash 5 (Pmemkv.create sampleService 4096) "a" mm
      (storedUnder sampleHash (live []) "a") := by
  have hnone : nativeGetBlockIndex sampleHash 5 (Pmemkv.create sampleService 4096) "a"
      ⟨fun _ => 0, 7⟩ = none := by decide
  refine ⟨rfl, hnone, fun hexact => ?_⟩
  obtain ⟨array, harray, _⟩ := (hexact ⟨fun _ => 0, 7⟩).array
  rw [hnone] at harray
  exact absurd harray (by simp)

end SparkNvm.Storage
