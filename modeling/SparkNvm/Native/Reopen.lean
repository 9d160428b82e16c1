import SparkNvm.Native.Refinement

/-!
# Reopening a store

The destructor of `pmemkv` frees the index and leaves the persistent memory as it
is.  The constructor allocates a new base and starts with an empty index; it never
looks at a block list that an earlier object left behind.

`reopen_recovers_iff`: the new object gives the old answers for every key exactly
if nothing was put.
-/

namespace SparkNvm.Native

open Lib

/-- `~pmemkv`, that is `close`: free the index.  The memory stays. -/
def Pmemkv.close (fuel : Nat) (kv : Pmemkv) : Option Service := do
  let _ ← kv.index.freeMeta fuel
  return kv.service

/-- Destroy the object and construct one over the same memory.  `root` is the
address that the service answers to the constructor. -/
def Pmemkv.reopen (fuel : Nat) (kv : Pmemkv) (root : Nat) : Option Pmemkv := do
  let s ← kv.close fuel
  return Pmemkv.create s root

/-- The new object answers for the key `k` as the old one did. -/
structure Recovered (hash : String → UInt64) (fuel : Nat) (kv kv' : Pmemkv) (k : String) :
    Prop where
  get : ∀ mb, kv'.get hash fuel k mb = kv.get hash fuel k mb
  getValueSize : kv'.getValueSize hash k = kv.getValueSize hash k
  getMetaSize : kv'.getMetaSize hash k = kv.getMetaSize hash k

section

variable {hash : String → UInt64} {fuel : Nat} {kv : Pmemkv} {puts : List PutCall}

/-- The destructor passes the assertion of `free_meta`. -/
theorem Holds.close_eq (hrep : Holds hash kv puts) (hfuel : puts.length ≤ fuel) :
    kv.close fuel = some kv.service := by
  obtain ⟨nodes, hindex⟩ := hrep.index
  obtain ⟨ix', hfree, _⟩ := freeMeta_spec hindex (by simpa [entriesOf] using hfuel)
  rw [Pmemkv.close, hfree]
  rfl

/-- A new object knows no key. -/
theorem recovered_create_iff (hrep : Holds hash kv puts) (hfuel : puts.length ≤ fuel)
    (s : Service) (root : Nat) (k : String) :
    Recovered hash fuel kv (Pmemkv.create s root) k ↔ ∀ call ∈ puts, hash call.key ≠ hash k := by
  have hindex := hrep.indexHolds
  obtain ⟨nodes, hrep'⟩ := hindex.rep
  have hlen : (puts.map (PutCall.block hash)).length ≤ fuel := by simpa using hfuel
  have hnone : blocksOf (puts.map (PutCall.block hash)) (hash k).toNat = [] ↔
      ∀ call ∈ puts, hash call.key ≠ hash k := by
    rw [blocksOf, List.filter_eq_nil_iff]
    simp only [List.mem_map, forall_exists_index, and_imp, forall_apply_eq_imp_iff₂,
      decide_eq_true_eq]
    refine forall₂_congr fun call _ => not_congr ?_
    exact UInt64.toNat_inj
  have hsize := getValueSize_spec hash hrep' hindex.total k
  rw [← hnone]
  constructor
  · intro hrec
    by_contra hne
    have hbad : some ((-1 : Int), 0) = kv.getValueSize hash k := hrec.getValueSize
    rw [hsize, if_neg hne] at hbad
    simp at hbad
  · intro hempty
    constructor
    · intro mb
      rw [get_spec hash hrep' hindex.off_ne hlen hindex.total k mb, hempty]
      rfl
    · rw [hsize, hempty]
      rfl
    · rw [getMetaSize_spec hash hrep' hindex.count k, hempty]
      rfl

end

/-- After every sequence of puts without failures, destroying the object and
constructing a new one over the same memory keeps the answers for every key exactly
if there was no put. -/
theorem reopen_recovers_iff (hash : String → UInt64) (fuel : Nat) (s : Service) (root root' : Nat)
    (calls : List PutCall) (hroot : s.Grants sizeofBase root) (hfuel : calls.length ≤ fuel)
    (hok : Admissible (Pmemkv.step hash fuel) (Pmemkv.Ok hash) (Pmemkv.create s root)
      (calls.map Op.put)) :
    ∃ kv kv', run (Pmemkv.step hash fuel) (Pmemkv.create s root) (calls.map Op.put) = some kv ∧
      kv.reopen fuel root' = some kv' ∧
      ((∀ k, Recovered hash fuel kv kv' k) ↔ calls = []) := by
  obtain ⟨kv, hrun, hrep⟩ := run_holds hroot (by simpa using hfuel) hok
  rw [live_map_put] at hrep
  refine ⟨kv, Pmemkv.create kv.service root', hrun, ?_, ?_⟩
  · rw [Pmemkv.reopen, hrep.close_eq hfuel]
    rfl
  · simp only [recovered_create_iff hrep hfuel]
    constructor
    · intro h
      by_contra hne
      obtain ⟨call, hcall⟩ := List.exists_mem_of_ne_nil calls hne
      exact h call.key call hcall rfl
    · rintro rfl k call hcall
      simp at hcall

/-- Two puts under one key. -/
def twoPuts : List PutCall :=
  [⟨"a", [1, 2], { entry := 8192, data := 8224, metaPtr := 16, listPtr := 32 }⟩,
    ⟨"a", [3], { entry := 8256, data := 8288, metaPtr := 64, listPtr := 96 }⟩]

theorem reopen_recovers_sample :
    ∃ kv kv', run (Pmemkv.step sampleHash 2) (Pmemkv.create sampleService 4096)
        (twoPuts.map Op.put) = some kv ∧
      kv.reopen 2 12288 = some kv' ∧
      ((∀ k, Recovered sampleHash 2 kv kv' k) ↔ twoPuts = []) :=
  reopen_recovers_iff sampleHash 2 sampleService 4096 12288 twoPuts (by decide) (by decide)
    (by decide)

/-- The key is gone after reopening. -/
theorem reopen_loses_key :
    ∃ kv kv', run (Pmemkv.step sampleHash 2) (Pmemkv.create sampleService 4096)
        (twoPuts.map Op.put) = some kv ∧
      kv.service.Grants sizeofBase 12288 ∧ kv.reopen 2 12288 = some kv' ∧
      kv.getValueSize sampleHash "a" = some (0, 3) ∧
      kv'.getValueSize sampleHash "a" = some (-1, 0) ∧
      ¬∀ k, Recovered sampleHash 2 kv kv' k := by
  refine ⟨_, _, rfl, by decide, rfl, by decide, by decide, ?_⟩
  intro h
  have hsize := (h "a").getValueSize
  revert hsize
  decide

end SparkNvm.Native
