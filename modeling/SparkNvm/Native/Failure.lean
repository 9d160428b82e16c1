import SparkNvm.Native.Refinement

/-!
# Failures during `put`

`put` checks the return value of `update_meta` and of nothing else.  A
`TBPAlloc` that returns `0` or a `TBPStore` that returns `-1` goes unnoticed,
and a `malloc` that fails in `update_meta` is noticed after the entry has been
linked and counted, when nothing is undone.

`AllOrNothing` states what a caller would want of one call under any failure
pattern.  `put_fails_halfway` is a pair of calls that break it, and
`put_all_or_nothing_run` says when it holds: in a run in which no request
fails, every call meets it, and among the calls whose stores succeed exactly
those without a failed allocation do.
-/

namespace SparkNvm.Native

open Lib

/-! ## The property -/

/-- The bytes under a key: what `get` copies into a buffer of `get_value_size`
bytes. -/
def Pmemkv.content (hash : String → UInt64) (fuel : Nat) (kv : Pmemkv) (k : String) :
    Option (List UInt8) := do
  let (_, size) ← kv.getValueSize hash k
  let (_, mb) ← kv.get hash fuel k { data := fun _ => 0, size := size }
  return loadBytes mb.data 0 size

/-- The persistent list, the byte counters and the index are as before. -/
structure Unchanged (fuel : Nat) (kv kv' : Pmemkv) : Prop where
  list : kv'.entryList fuel = kv.entryList fuel
  records : ∀ xs, kv.entryList fuel = some xs →
    xs.map (recordAt kv'.service.mem) = xs.map (recordAt kv.service.mem)
  tail : load64 kv'.service.mem (tailAddr kv'.bp) = load64 kv.service.mem (tailAddr kv.bp)
  written : load64 kv'.service.mem (writtenAddr kv'.bp) =
    load64 kv.service.mem (writtenAddr kv.bp)
  keys : kv'.index.map = kv.index.map
  blocks : ∀ h, kv'.index.view fuel h = kv.index.view fuel h
  allocated : kv'.index.bytesAllocated = kv.index.bytesAllocated

/-- The call returns; on `0` the value is appended under its key, otherwise the
store is as before and `free_all` passes its assertions. -/
def Pmemkv.AllOrNothing (hash : String → UInt64) (fuel : Nat) (kv : Pmemkv) (call : PutCall) :
    Prop :=
  ∃ code kv', kv.put hash call.key call.value call.value.length call.ans = some (code, kv') ∧
    (code = 0 → ∃ old, kv.content hash fuel call.key = some old ∧
      kv'.content hash fuel call.key = some (old ++ call.value)) ∧
    (code ≠ 0 → Unchanged fuel kv kv' ∧ (kv'.freeAll fuel).isSome)

/-- The answers that the environment may give to one call: every allocation
either fails or is fresh; every store may fail. -/
structure Pmemkv.MayAnswer (kv : Pmemkv) (call : PutCall) : Prop where
  entry : call.ans.entry = 0 ∨ kv.service.Grants sizeofBlockEntry call.ans.entry
  data : call.ans.data = 0 ∨
    (kv.service.tbpAlloc sizeofBlockEntry call.ans.entry).Grants call.value.length call.ans.data
  metaPtr : call.ans.metaPtr = 0 ∨ kv.index.metas call.ans.metaPtr = none
  listPtr : call.ans.listPtr = 0 ∨ kv.index.lists call.ans.listPtr = none

/-! ## Calls that break it -/

/-- The second `malloc` of `update_meta` fails. -/
def leakingCall : PutCall :=
  ⟨"a", [1, 2], { entry := 8192, data := 8224, metaPtr := 16, listPtr := 0 }⟩

/-- The `TBPStore` of the value fails. -/
def lossyCall : PutCall :=
  ⟨"a", [1, 2], { entry := 8192, data := 8224, bytesOk := false, metaPtr := 16, listPtr := 32 }⟩

private theorem leakingCall_result :
    ((Pmemkv.create sampleService 4096).put sampleHash leakingCall.key leakingCall.value
      leakingCall.value.length leakingCall.ans).map
        (fun r => (r.1, load64 r.2.service.mem (writtenAddr r.2.bp))) = some (-1, 2) := by
  decide

private theorem lossyCall_result :
    ((Pmemkv.create sampleService 4096).put sampleHash lossyCall.key lossyCall.value
      lossyCall.value.length lossyCall.ans).map
        (fun r => (r.1, r.2.content sampleHash 2 "a")) = some (0, some [255, 255]) := by
  decide

/-- On a fresh store, a failed `malloc` makes `put` return `-1` with the entry
linked and a `block_meta` leaked, so that `free_all` aborts; a failed store of
the value makes it return `0` although the value is not there. -/
theorem put_fails_halfway :
    let kv := Pmemkv.create sampleService 4096
    (kv.MayAnswer leakingCall ∧ ¬kv.AllOrNothing sampleHash 2 leakingCall ∧
      ((kv.exec sampleHash 2 (.put leakingCall)).bind fun r => r.2.freeAll 2).isNone) ∧
    kv.MayAnswer lossyCall ∧ ¬kv.AllOrNothing sampleHash 2 lossyCall := by
  intro kv
  refine ⟨⟨?_, ?_, ?_⟩, ?_, ?_⟩
  · exact ⟨.inr (by decide), .inr (by decide), .inr rfl, .inl rfl⟩
  · rintro ⟨code, kv', hput, _, hfail⟩
    have hres := leakingCall_result
    rw [hput, Option.map_some, Option.some.injEq, Prod.mk.injEq] at hres
    have hcode : code = -1 := hres.1
    have hwritten : load64 kv'.service.mem (writtenAddr kv'.bp) = 2 := hres.2
    have hsame := (hfail (by omega)).1.written
    have hzero : load64 kv.service.mem (writtenAddr kv.bp) = 0 := by decide
    omega
  · decide
  · exact ⟨.inr (by decide), .inr (by decide), .inr rfl, .inr rfl⟩
  · rintro ⟨code, kv', hput, hdone, _⟩
    have hres := lossyCall_result
    rw [hput, Option.map_some, Option.some.injEq, Prod.mk.injEq] at hres
    have hcode : code = 0 := hres.1
    have hcontent : kv'.content sampleHash 2 "a" = some [255, 255] := hres.2
    obtain ⟨old, hold, hnew⟩ := hdone hcode
    have hempty : kv.content sampleHash 2 lossyCall.key = some [] := by decide
    have hnil : [] = old := Option.some.inj (hempty.symm.trans hold)
    have hlost : [255, 255] = old ++ lossyCall.value :=
      Option.some.inj (hcontent.symm.trans hnew)
    rw [← hnil] at hlost
    exact absurd hlost (by decide)

/-! ## When it holds -/

section

variable {hash : String → UInt64} {fuel : Nat} {kv : Pmemkv} {es : List Entry}

/-- The content of a key is the values of its entries, in put order. -/
theorem StoreRep.content_eq (hrep : StoreRep kv es) (hfuel : es.length ≤ fuel) (k : String) :
    kv.content hash fuel k =
      some ((es.filter fun e => e.key = (hash k).toNat).map Entry.bytes).flatten := by
  obtain ⟨nodes, hindex⟩ := hrep.index
  have hsize := hrep.size_le
  simp only [sizeofBase, sizeofBlockEntry] at hsize
  have hblocks : blocksOf (es.map Entry.block) (hash k).toNat =
      (es.filter fun e => e.key = (hash k).toNat).map Entry.block := by
    rw [blocksOf, List.filter_map]
    rfl
  have hbytes : ((es.filter fun e => e.key = (hash k).toNat).map Entry.block).map
      (blockBytes kv.service.mem) =
      (es.filter fun e => e.key = (hash k).toNat).map Entry.bytes := by
    rw [List.map_map]
    apply List.map_congr_left
    intro e he
    exact (hrep.entries e (List.mem_of_mem_filter he)).bytes
  have htotal : totalBytes ((es.filter fun e => e.key = (hash k).toNat).map Entry.block) =
      ((es.filter fun e => e.key = (hash k).toNat).map Entry.bytes).flatten.length := by
    rw [totalBytes, List.length_flatten, List.map_map, List.map_map]
    rfl
  have hoff : ∀ b ∈ es.map Entry.block, b.off ≠ 0 := by
    rw [List.forall_mem_map]
    exact fun e he => (hrep.entries e he).data_ne
  generalize hvals : (es.filter fun e => e.key = (hash k).toNat).map Entry.bytes = vals
    at hbytes htotal ⊢
  have hfit : fitting vals.flatten.length vals = vals :=
    (fitting_longest _ _).eq_all (Nat.le_refl _)
  have hload := loadBytes_storeBytes_self (fun _ => 0) 0 vals.flatten
  simp only [Pmemkv.content, getValueSize_spec hash hindex (by omega) k, hblocks, htotal,
    get_spec hash hindex hoff (by simpa using hfuel) (by omega) k, hbytes, hfit, hload,
    Option.bind_eq_bind, Option.bind_some, Option.pure_def]

/-- A call without failures is all-or-nothing, and it stores the value. -/
theorem allOrNothing_of_noFailure (hrep : StoreRep kv es) (hfuel : es.length < fuel)
    {call : PutCall} (hno : kv.NoFailure (hash call.key) call.value.length call.ans) :
    kv.AllOrNothing hash fuel call := by
  obtain ⟨kv', hput, _, hrep'⟩ := put_spec hrep hash call.key (Nat.le_refl _) hno
  refine ⟨0, kv', hput, fun _ => ?_, fun h => absurd rfl h⟩
  refine ⟨_, hrep.content_eq (Nat.le_of_lt hfuel) call.key, ?_⟩
  rw [hrep'.content_eq (by simpa using Nat.succ_le_of_lt hfuel) call.key]
  simp [newEntry]

/-- A `put` whose entry was not allocated dereferences null. -/
theorem put_of_null_entry {call : PutCall} (h : call.ans.entry = 0) :
    kv.put hash call.key call.value call.value.length call.ans = none := by
  simp [Pmemkv.put, Pmemkv.putEntry, Service.deref, h]

/-- `update_meta` returns `-1` when a `malloc` that it needs fails. -/
theorem updateMeta_of_not_mallocs {ix : Index} {bs : List Block} {nodes : Nat → List Nat}
    (hrep : IndexRep ix bs nodes) {key metaPtr listPtr : Nat} (off size : Nat)
    (hm : metaPtr = 0 ∨ ix.metas metaPtr = none) (hl : listPtr = 0 ∨ ix.lists listPtr = none)
    (hnot : ¬ix.Mallocs key metaPtr listPtr) :
    ∃ ix', ix.updateMeta key off size metaPtr listPtr = some (-1, ix') := by
  by_cases hm0 : metaPtr = 0
  · cases hkey : ix.map.lookup key with
    | none => exact ⟨ix, by simp [Index.updateMeta, hkey, hm0]⟩
    | some p =>
      obtain ⟨l, hlist⟩ := hrep.present key p hkey
      exact ⟨ix, by simp [Index.updateMeta, hkey, hm0, hlist.at_ptr]⟩
  · have hfresh : ix.metas metaPtr = none := hm.resolve_left hm0
    cases hkey : ix.map.lookup key with
    | none =>
      have hl0 : listPtr = 0 := by
        by_contra hl0
        exact hnot ⟨hm0, hfresh, fun _ => ⟨hl0, hl.resolve_left hl0⟩⟩
      exact ⟨_, by simp only [Index.updateMeta, hkey, hm0, hl0, if_true, if_false]; rfl⟩
    | some p => exact absurd ⟨hm0, hfresh, fun h => by simp [hkey] at h⟩ hnot

/-- A call whose stores succeed and whose `malloc` fails leaves the entry
linked. -/
theorem not_allOrNothing_of_malloc (hrep : StoreRep kv es) (hfuel : es.length < fuel)
    {call : PutCall} (hans : kv.MayAnswer call) (hstored : call.ans.Stored)
    (he : kv.service.Grants sizeofBlockEntry call.ans.entry)
    (hd : (kv.service.tbpAlloc sizeofBlockEntry call.ans.entry).Grants call.value.length
      call.ans.data)
    (hnot : ¬kv.index.Mallocs (hash call.key).toNat call.ans.metaPtr call.ans.listPtr) :
    ¬kv.AllOrNothing hash fuel call := by
  obtain ⟨s₁, s₂, hrun₁, hrun₂, hlist⟩ :=
    putList_spec hrep.toListHolds (hash call.key) hstored he hd (Nat.le_refl _)
  obtain ⟨nodes, hindex⟩ := hrep.index
  have hentry := hlist.entries (newEntry (hash call.key) call.value call.value.length call.ans)
    (by simp)
  have hkey : load64 s₂.mem (call.ans.entry + 8) = (hash call.key).toNat := hentry.key
  obtain ⟨ix', hupd⟩ := updateMeta_of_not_mallocs hindex (load64 s₂.mem (call.ans.entry + 24))
    (load64 s₂.mem (call.ans.entry + 16)) hans.metaPtr hans.listPtr hnot
  have hput : kv.put hash call.key call.value call.value.length call.ans =
      some (-1, ⟨s₂, kv.bp, ix'⟩) := by
    simp only [Pmemkv.put, hrun₁, hrun₂, Pmemkv.updateMeta, Service.deref, if_neg he.1, hkey, hupd,
      Option.bind_eq_bind, Option.bind_some, Option.pure_def]
    rfl
  rintro ⟨code, kv', hput', _, hfail⟩
  rw [hput] at hput'
  obtain ⟨rfl, rfl⟩ := Prod.mk.injEq _ _ _ _ ▸ Option.some.inj hput'
  have hsame := (hfail (by decide)).1.list
  have hold : kv.entryList fuel = some (es.map Entry.addr) :=
    walk_eq_some_iff.mpr ⟨hrep.chain, by simpa using Nat.le_of_lt hfuel⟩
  have hnew : Pmemkv.entryList fuel ⟨s₂, kv.bp, ix'⟩ = some ((es ++ [newEntry (hash call.key)
      call.value call.value.length call.ans]).map Entry.addr) :=
    walk_eq_some_iff.mpr ⟨hlist.chain, by simpa using Nat.succ_le_of_lt hfuel⟩
  rw [hold, hnew] at hsame
  have hlen := congrArg List.length (Option.some.inj hsame)
  simp at hlen

/-- Among the calls whose stores succeed, exactly those without a failed
allocation are all-or-nothing. -/
theorem allOrNothing_iff (hrep : StoreRep kv es) (hfuel : es.length < fuel) {call : PutCall}
    (hans : kv.MayAnswer call) (hstored : call.ans.Stored) (hdata : call.ans.data ≠ 0) :
    kv.AllOrNothing hash fuel call ↔
      kv.NoFailure (hash call.key) call.value.length call.ans := by
  refine ⟨fun hall => ?_, allOrNothing_of_noFailure hrep hfuel⟩
  have he : kv.service.Grants sizeofBlockEntry call.ans.entry := by
    refine hans.entry.resolve_left fun h0 => ?_
    obtain ⟨code, kv', hput, _⟩ := hall
    rw [put_of_null_entry h0] at hput
    simp at hput
  have hd := hans.data.resolve_left hdata
  refine ⟨hstored, he, hd, ?_⟩
  by_contra hnot
  exact not_allOrNothing_of_malloc hrep hfuel hans hstored he hd hnot hall

end

/-- In every run in which no request fails, every call of `put` is
all-or-nothing and `free_all` would pass its assertions at every point.  In any
state of such a run, a further call whose stores succeed is all-or-nothing if
and only if its allocations succeed too. -/
theorem put_all_or_nothing_run (hash : String → UInt64) (fuel : Nat) (s : Service) (root : Nat)
    (ops : List Op) (hroot : s.Grants sizeofBase root) (hfuel : ops.length < fuel)
    (hok : Admissible (Pmemkv.step hash fuel) (Pmemkv.Ok hash) (Pmemkv.create s root) ops) :
    ∀ before after, ops = before ++ after →
      ∃ kv, run (Pmemkv.step hash fuel) (Pmemkv.create s root) before = some kv ∧
        (∃ kv', kv.freeAll fuel = some (0, kv')) ∧
        (∀ call rest, after = Op.put call :: rest → kv.AllOrNothing hash fuel call) ∧
        ∀ call, kv.MayAnswer call → call.ans.Stored → call.ans.data ≠ 0 →
          (kv.AllOrNothing hash fuel call ↔
            kv.NoFailure (hash call.key) call.value.length call.ans) := by
  intro before after hsplit
  subst hsplit
  obtain ⟨hok₁, hok₂⟩ := admissible_append.mp hok
  have hlen : before.length < fuel := by
    rw [List.length_append] at hfuel
    omega
  obtain ⟨kv, hrun, hrep⟩ := run_holds hroot (Nat.le_of_lt hlen) hok₁
  have hes : (entriesOf hash (live before)).length < fuel := by
    have hle := length_live_le before
    rw [entriesOf, List.length_map]
    omega
  obtain ⟨kv', hfree, _⟩ := exec_spec .freeAll hrep
    (Nat.le_trans (length_live_le before) (Nat.le_of_lt hlen)) trivial
  refine ⟨kv, hrun, ⟨kv', hfree⟩, ?_, ?_⟩
  · rintro call rest rfl
    exact allOrNothing_of_noFailure hrep hes (hok₂ kv hrun).1
  · intro call hans hstored hdata
    exact allOrNothing_iff hrep hes hans hstored hdata

theorem put_all_or_nothing_sample :
    ∃ kv, run (Pmemkv.step sampleHash 5) (Pmemkv.create sampleService 4096) (sampleOps.take 3) =
        some kv ∧
      (∃ kv', kv.freeAll 5 = some (0, kv')) ∧
      (∀ call rest, sampleOps.drop 3 = Op.put call :: rest → kv.AllOrNothing sampleHash 5 call) ∧
      ∀ call, kv.MayAnswer call → call.ans.Stored → call.ans.data ≠ 0 →
        (kv.AllOrNothing sampleHash 5 call ↔
          kv.NoFailure (sampleHash call.key) call.value.length call.ans) :=
  put_all_or_nothing_run sampleHash 5 sampleService 4096 sampleOps (by decide) (by decide)
    sampleOps_admissible (sampleOps.take 3) (sampleOps.drop 3) rfl

end SparkNvm.Native
