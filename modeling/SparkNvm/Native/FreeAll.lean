import Mathlib.Data.List.Dedup
import SparkNvm.Native.Reopen

/-!
# What `free_all` leaves

`free_all` walks the persistent list, takes the sizes off `bytes_written`, and frees the
index.  Both of its assertions hold after every run, and the store that it leaves cannot be
told from a new one.

* `indexedKeys` and `Holds.allocated_eq`: what `bytes_allocated` counts.
* `Indistinguishable` and `indistinguishable_of_empty`: two empty stores that go through the
  same operations.
* `free_all_empties`: the whole of it.
-/

namespace SparkNvm.Native

open Lib

/-- `nativeCloseDevice`: `free_all`, and then the destructor. -/
def nativeCloseDevice (fuel : Nat) (kv : Pmemkv) : Option Service := do
  let (_, kv) ← kv.freeAll fuel
  kv.close fuel

/-! ## `bytes_allocated` -/

/-- The keys that the index has a list for. -/
def indexedKeys (hash : String → UInt64) (puts : List PutCall) : List Nat :=
  (puts.map fun call => (hash call.key).toNat).dedup

theorem mem_keys_iff_lookup {ps : List (Nat × Nat)} {k : Nat} :
    k ∈ ps.map Prod.fst ↔ ps.lookup k ≠ none := by
  constructor
  · exact fun hmem hnone => not_mem_keys_of_lookup hnone hmem
  · intro hsome
    by_contra hnot
    apply hsome
    rw [List.lookup_eq_none_iff]
    rintro ⟨k', v⟩ hp
    rw [bne_iff_ne]
    rintro rfl
    exact hnot (List.mem_map.mpr ⟨_, hp, rfl⟩)

/-- The index has one list for every key of a block. -/
theorem IndexRep.length_map {ix : Index} {bs : List Block} {nodes : Nat → List Nat}
    (h : IndexRep ix bs nodes) : ix.map.length = (bs.map Block.key).dedup.length := by
  have hperm : (ix.map.map Prod.fst).Perm (bs.map Block.key).dedup := by
    rw [List.perm_ext_iff_of_nodup h.keys (List.nodup_dedup _)]
    intro k
    rw [mem_keys_iff_lookup, Ne, h.lookup_eq_none_iff, List.mem_dedup, blocksOf,
      List.filter_eq_nil_iff]
    simp
  rw [← hperm.length_eq, List.length_map]

/-- `bytes_allocated`: a `block_meta` for each block and a `block_meta_list` for each key. -/
theorem Holds.allocated_eq {hash : String → UInt64} {kv : Pmemkv} {puts : List PutCall}
    (h : Holds hash kv puts) :
    kv.index.bytesAllocated = (sizeofBlockMeta * puts.length +
      sizeofBlockMetaList * (indexedKeys hash puts).length) % 2 ^ 64 := by
  obtain ⟨nodes, hindex⟩ := h.index
  rw [map_block_entriesOf] at hindex
  rw [hindex.allocated, hindex.length_map, List.length_map, List.map_map]
  rfl

/-! ## Two empty stores -/

/-- No reader, no walk of the list and no return code tells the two objects apart. -/
structure Indistinguishable (hash : String → UInt64) (fuel : Nat) (kv kv' : Pmemkv) : Prop where
  answers : ∀ k, SameAnswers hash fuel kv kv' k
  dumpWalk : kv'.dumpWalk fuel = kv.dumpWalk fuel
  dumpAll : kv'.dumpAll fuel = kv.dumpAll fuel
  allocated : kv'.index.bytesAllocated = kv.index.bytesAllocated
  written : kv'.service.tbpGet (writtenAddr kv'.bp) = kv.service.tbpGet (writtenAddr kv.bp)
  codes : ∀ op, kv.Ok hash op → kv'.Ok hash op →
    (kv'.exec hash fuel op).map Prod.fst = (kv.exec hash fuel op).map Prod.fst

section

variable {hash : String → UInt64} {fuel : Nat} {kv kv' : Pmemkv} {puts : List PutCall}

/-- Stores that hold the same puts. -/
theorem indistinguishable_of_puts_eq (h : Holds hash kv puts) (h' : Holds hash kv' puts)
    (hfuel : puts.length ≤ fuel) : Indistinguishable hash fuel kv kv' where
  answers := sameAnswers_of_puts_eq h.indexHolds h'.indexHolds hfuel
  dumpWalk := by
    have hlen : (entriesOf hash puts).length ≤ fuel := by
      rw [entriesOf, List.length_map]
      exact hfuel
    rw [dumpWalk_spec h'.toLinked hlen, dumpWalk_spec h.toLinked hlen]
  dumpAll := by
    have hlen : (entriesOf hash puts).length ≤ fuel := by
      rw [entriesOf, List.length_map]
      exact hfuel
    rw [dumpAll_spec h'.toLinked hlen, dumpAll_spec h.toLinked hlen]
  allocated := by rw [h'.allocated_eq, h.allocated_eq]
  written := by rw [Service.tbpGet_eq, Service.tbpGet_eq, h'.written, h.written]
  codes := by
    intro op hok hok'
    obtain ⟨kv₁, hexec, _⟩ := exec_spec op h hfuel hok
    obtain ⟨kv₂, hexec', _⟩ := exec_spec op h' hfuel hok'
    rw [hexec, hexec']
    rfl

/-- Two empty stores stay indistinguishable through the same operations. -/
theorem indistinguishable_of_empty (h : Holds hash kv []) (h' : Holds hash kv' []) {ops : List Op}
    (hfuel : ops.length ≤ fuel)
    (hok : Admissible (Pmemkv.step hash fuel) (Pmemkv.Ok hash) kv ops)
    (hok' : Admissible (Pmemkv.step hash fuel) (Pmemkv.Ok hash) kv' ops) :
    ∃ kv₁ kv₂, run (Pmemkv.step hash fuel) kv ops = some kv₁ ∧
      run (Pmemkv.step hash fuel) kv' ops = some kv₂ ∧ Indistinguishable hash fuel kv₁ kv₂ := by
  obtain ⟨kv₁, hrun, hrep⟩ := run_holds_from h hfuel hok
  obtain ⟨kv₂, hrun', hrep'⟩ := run_holds_from h' hfuel hok'
  have hlen : (live ops).length ≤ fuel := Nat.le_trans (length_live_le ops) hfuel
  exact ⟨kv₁, kv₂, hrun, hrun', indistinguishable_of_puts_eq hrep hrep' hlen⟩

end

/-- After every run of puts and `free_all`s without failures: `bytes_allocated` counts the index,
`free_all` ends and passes its assertions, the destructor after it passes its own, and through all
later operations the store that is left gives the answers of a new one. -/
theorem free_all_empties (hash : String → UInt64) (fuel : Nat) (s : Service) (root : Nat)
    (ops : List Op) (hroot : s.Grants sizeofBase root) (hfuel : ops.length ≤ fuel)
    (hok : Admissible (Pmemkv.step hash fuel) (Pmemkv.Ok hash) (Pmemkv.create s root) ops) :
    ∃ kv kv', run (Pmemkv.step hash fuel) (Pmemkv.create s root) ops = some kv ∧
      kv.index.bytesAllocated = (sizeofBlockMeta * (live ops).length +
        sizeofBlockMetaList * (indexedKeys hash (live ops)).length) % 2 ^ 64 ∧
      kv.freeAll fuel = some (0, kv') ∧
      kv'.service.tbpGet (writtenAddr kv'.bp) = 0 ∧ kv'.index.bytesAllocated = 0 ∧
      nativeCloseDevice fuel kv = some kv'.service ∧
      ∀ (s' : Service) (root' : Nat) (later : List Op), s'.Grants sizeofBase root' →
        later.length ≤ fuel →
        Admissible (Pmemkv.step hash fuel) (Pmemkv.Ok hash) (Pmemkv.create s' root') later →
        Admissible (Pmemkv.step hash fuel) (Pmemkv.Ok hash) kv' later →
        ∃ kv₁ kv₂, run (Pmemkv.step hash fuel) (Pmemkv.create s' root') later = some kv₁ ∧
          run (Pmemkv.step hash fuel) kv' later = some kv₂ ∧
          Indistinguishable hash fuel kv₁ kv₂ := by
  obtain ⟨kv, hrun, hrep⟩ := run_holds hroot hfuel hok
  have hlen : (live ops).length ≤ fuel := Nat.le_trans (length_live_le ops) hfuel
  obtain ⟨kv', hfree, hempty⟩ := exec_spec .freeAll hrep hlen trivial
  have hfree' : kv.freeAll fuel = some (0, kv') := hfree
  refine ⟨kv, kv', hrun, hrep.allocated_eq, hfree', ?_, ?_, ?_, ?_⟩
  · rw [Service.tbpGet_eq, hempty.written]
    rfl
  · rw [hempty.allocated_eq]
    rfl
  · rw [nativeCloseDevice, hfree']
    exact hempty.close_eq (Nat.zero_le _)
  · intro s' root' later hroot' hlater hok₁ hok₂
    exact indistinguishable_of_empty (create_spec hroot') hempty hlater hok₁ hok₂

/-- A put after `free_all`, and the same put into a new store. -/
def laterOps : List Op :=
  [.put ⟨"b", [5], { entry := 12288, data := 12320, metaPtr := 16, listPtr := 32 }⟩]

theorem free_all_empties_sample :
    ∃ kv kv', run (Pmemkv.step sampleHash 5) (Pmemkv.create sampleService 4096) sampleOps =
      some kv ∧ kv.freeAll 5 = some (0, kv') ∧ nativeCloseDevice 5 kv = some kv'.service ∧
      ∃ kv₁ kv₂, run (Pmemkv.step sampleHash 5) (Pmemkv.create sampleService 4096) laterOps =
          some kv₁ ∧
        run (Pmemkv.step sampleHash 5) kv' laterOps = some kv₂ ∧
        Indistinguishable sampleHash 5 kv₁ kv₂ := by
  obtain ⟨kv, kv', hrun, _, hfree, _, _, hclose, hlater⟩ := free_all_empties sampleHash 5
    sampleService 4096 sampleOps (by decide) (by decide) sampleOps_admissible
  have hadm : Admissible (Pmemkv.step sampleHash 5) (Pmemkv.Ok sampleHash)
      (Pmemkv.create sampleService 4096) ((sampleOps ++ [.freeAll]) ++ laterOps) := by
    decide
  have hend : run (Pmemkv.step sampleHash 5) (Pmemkv.create sampleService 4096)
      (sampleOps ++ [.freeAll]) = some kv' := by
    rw [run_append, hrun, Option.bind_some, run_cons, Pmemkv.step, Pmemkv.exec, hfree]
    rfl
  exact ⟨kv, kv', hrun, hfree, hclose, hlater sampleService 4096 laterOps (by decide) (by decide)
    (by decide) ((admissible_append.mp hadm).2 kv' hend)⟩

end SparkNvm.Native
