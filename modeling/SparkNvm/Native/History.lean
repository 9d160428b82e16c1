import SparkNvm.Native.Store

/-!
# Runs of the store

An operation is a `put` or a `free_all`, together with the answers that the
environment gives during it.  `live` is the history that a store should
remember: the puts since the last `free_all`, in order.

`run_holds` is the invariant of whole runs: as long as no request fails, the
object holds exactly the entries of the live puts.
-/

namespace SparkNvm.Native

open Lib

/-- One call of `put` with the answers of the environment. -/
structure PutCall where
  key : String
  value : List UInt8
  ans : PutAnswers
  deriving DecidableEq, Repr

/-- One operation on the store. -/
inductive Op where
  | put (call : PutCall)
  | freeAll
  deriving DecidableEq, Repr

/-- Execute one operation: the return code and the object afterwards. -/
def Pmemkv.exec (hash : String → UInt64) (fuel : Nat) (kv : Pmemkv) : Op → Option (Int × Pmemkv)
  | .put call => kv.put hash call.key call.value call.value.length call.ans
  | .freeAll => kv.freeAll fuel

/-- The object after one operation. -/
def Pmemkv.step (hash : String → UInt64) (fuel : Nat) (kv : Pmemkv) (op : Op) : Option Pmemkv :=
  (kv.exec hash fuel op).map Prod.snd

/-- No request of the operation fails. -/
def Pmemkv.Ok (hash : String → UInt64) (kv : Pmemkv) : Op → Prop
  | .put call => kv.NoFailure (hash call.key) call.value.length call.ans
  | .freeAll => True

instance (hash : String → UInt64) (kv : Pmemkv) (op : Op) : Decidable (kv.Ok hash op) := by
  cases op <;> (unfold Pmemkv.Ok; infer_instance)

/-- The history after one more operation. -/
def liveStep (puts : List PutCall) : Op → List PutCall
  | .put call => puts ++ [call]
  | .freeAll => []

/-- The puts since the last `free_all`, in put order. -/
def live (ops : List Op) : List PutCall := ops.foldl liveStep []

/-- The entry that the call leaves in the persistent list. -/
def PutCall.entry (hash : String → UInt64) (call : PutCall) : Entry :=
  ⟨call.ans.entry, call.ans.data, (hash call.key).toNat, call.value⟩

/-- The block that the call leaves in the index. -/
def PutCall.block (hash : String → UInt64) (call : PutCall) : Block :=
  ⟨(hash call.key).toNat, call.ans.data, call.value.length⟩

/-- The entries of a history. -/
def entriesOf (hash : String → UInt64) (puts : List PutCall) : List Entry :=
  puts.map (PutCall.entry hash)

variable {hash : String → UInt64} {fuel : Nat} {kv : Pmemkv} {puts : List PutCall}

@[simp] theorem live_nil : live [] = [] := rfl

theorem live_snoc (ops : List Op) (op : Op) : live (ops ++ [op]) = liveStep (live ops) op := by
  simp [live]

theorem length_live_le (ops : List Op) : (live ops).length ≤ ops.length := by
  induction ops using List.reverseRecOn with
  | nil => simp
  | append_singleton ops op ih =>
    rw [live_snoc]
    cases op with
    | put call =>
      simp only [liveStep, List.length_append, List.length_singleton]
      omega
    | freeAll => simp [liveStep]

/-- The live puts of a run without `free_all`. -/
theorem live_map_put (calls : List PutCall) : live (calls.map Op.put) = calls := by
  induction calls using List.reverseRecOn with
  | nil => rfl
  | append_singleton calls call ih =>
    rw [List.map_append, List.map_singleton, live_snoc, ih, liveStep]

/-- A live put is one of the operations. -/
theorem mem_of_mem_live {ops : List Op} {call : PutCall} (h : call ∈ live ops) :
    Op.put call ∈ ops := by
  induction ops using List.reverseRecOn with
  | nil => simp at h
  | append_singleton ops op ih =>
    rw [live_snoc] at h
    cases op with
    | put c =>
      rcases List.mem_append.mp h with h | h
      · exact List.mem_append_left _ (ih h)
      · rw [List.mem_singleton.mp h]
        simp
    | freeAll => simp [liveStep] at h

theorem map_block_entriesOf (hash : String → UInt64) (puts : List PutCall) :
    (entriesOf hash puts).map Entry.block = puts.map (PutCall.block hash) := by
  rw [entriesOf, List.map_map]
  rfl

/-- The object holds the entries of the puts. -/
abbrev Holds (hash : String → UInt64) (kv : Pmemkv) (puts : List PutCall) : Prop :=
  StoreRep kv (entriesOf hash puts)

/-- One operation without failures returns `0` and moves the store to the next
history. -/
theorem exec_spec (op : Op) (hrep : Holds hash kv puts) (hfuel : puts.length ≤ fuel)
    (hok : kv.Ok hash op) :
    ∃ kv', kv.exec hash fuel op = some (0, kv') ∧ Holds hash kv' (liveStep puts op) := by
  cases op with
  | put call =>
    obtain ⟨kv', hrun, _, hrep'⟩ := put_spec hrep hash call.key (Nat.le_refl _) hok
    refine ⟨kv', hrun, ?_⟩
    have hentry : newEntry (hash call.key) call.value call.value.length call.ans =
        call.entry hash := by
      rw [newEntry, List.take_length]
      rfl
    rw [hentry] at hrep'
    rw [Holds, liveStep, entriesOf, List.map_append]
    exact hrep'
  | freeAll =>
    obtain ⟨nodes, hindex⟩ := hrep.index
    have hlen : (entriesOf hash puts).length ≤ fuel := by simpa [entriesOf] using hfuel
    obtain ⟨kv', hrun, _, hrep'⟩ := freeAll_spec hrep.toListHolds hindex hlen (by simpa using hlen)
    exact ⟨kv', hrun, hrep'⟩

theorem step_spec (hrep : Holds hash kv puts) (hfuel : puts.length ≤ fuel) {op : Op}
    (hok : kv.Ok hash op) :
    ∃ kv', kv.step hash fuel op = some kv' ∧ Holds hash kv' (liveStep puts op) := by
  obtain ⟨kv', hrun, hrep'⟩ := exec_spec op hrep hfuel hok
  exact ⟨kv', by rw [Pmemkv.step, hrun, Option.map_some], hrep'⟩

/-- After any run from an empty store in which no request fails, the object holds the
live puts. -/
theorem run_holds_from (hempty : Holds hash kv []) {ops : List Op} (hfuel : ops.length ≤ fuel)
    (hok : Admissible (Pmemkv.step hash fuel) (Pmemkv.Ok hash) kv ops) :
    ∃ kv', run (Pmemkv.step hash fuel) kv ops = some kv' ∧
      Holds hash kv' (live ops) := by
  refine run_invariant (I := fun done kv => Holds hash kv (live done)) ?_ hempty hok
  intro done op rest kv hsplit hrep hop
  have hlen : (live done).length ≤ fuel := by
    have hle := length_live_le done
    have hdone : done.length ≤ ops.length := by simp [hsplit]
    omega
  obtain ⟨kv', hrun, hrep'⟩ := step_spec hrep hlen hop
  refine ⟨kv', hrun, ?_⟩
  rw [live_snoc]
  exact hrep'

theorem Holds.create {s : Service} {root : Nat} (hroot : s.Grants sizeofBase root) :
    Holds hash (Pmemkv.create s root) [] :=
  create_spec hroot

/-- A put without failures is held too. -/
theorem Holds.put (h : Holds hash kv puts) (call : PutCall)
    (hok : kv.NoFailure (hash call.key) call.value.length call.ans) :
    ∃ kv', kv.put hash call.key call.value call.value.length call.ans = some (0, kv') ∧
      Holds hash kv' (puts ++ [call]) :=
  exec_spec (.put call) h (Nat.le_refl _) hok

/-- The run lemma from `create` on. -/
theorem run_holds {s : Service} {root : Nat} (hroot : s.Grants sizeofBase root) {ops : List Op}
    (hfuel : ops.length ≤ fuel)
    (hok : Admissible (Pmemkv.step hash fuel) (Pmemkv.Ok hash) (Pmemkv.create s root) ops) :
    ∃ kv, run (Pmemkv.step hash fuel) (Pmemkv.create s root) ops = some kv ∧
      Holds hash kv (live ops) :=
  run_holds_from (Holds.create hroot) hfuel hok

/-- The puts whose key has the hash of `k`: the index cannot tell them apart. -/
def storedUnder (hash : String → UInt64) (puts : List PutCall) (k : String) : List PutCall :=
  puts.filter fun call => hash call.key = hash k

/-! ## Addresses in order -/

/-- The next addresses: in persistent memory from `base` on, in the heap of the process from `next`
on. -/
def bumpAnswers (base next : Nat) : PutAnswers where
  entry := base
  data := base + sizeofBlockEntry
  metaPtr := next
  listPtr := next + sizeofBlockMeta

/-- Puts of the pairs of a key and a value, each with the next addresses. -/
def bumpCalls (base next : Nat) : List (String × List UInt8) → List PutCall
  | [] => []
  | (key, value) :: rest =>
    ⟨key, value, bumpAnswers base next⟩ ::
      bumpCalls (base + sizeofBlockEntry + value.length)
        (next + sizeofBlockMeta + sizeofBlockMetaList) rest

theorem map_value_bumpCalls (base next : Nat) (pairs : List (String × List UInt8)) :
    (bumpCalls base next pairs).map (fun call => (call.key, call.value)) = pairs := by
  induction pairs generalizing base next with
  | nil => rfl
  | cons pair pairs ih =>
    rw [bumpCalls, List.map_cons, ih]

/-- Nothing has been handed out from `base` and from `next` on. -/
structure Unused (kv : Pmemkv) (base next : Nat) : Prop where
  base_ne : base ≠ 0
  next_ne : next ≠ 0
  regions : ∀ r ∈ kv.service.regions, r.base + r.size ≤ base
  metas : ∀ p, next ≤ p → kv.index.metas p = none
  lists : ∀ p, next ≤ p → kv.index.lists p = none

theorem Unused.noFailure {base next : Nat} (h : Unused kv base next) (key : UInt64) {count : Nat}
    (hroom : base + sizeofBlockEntry + count < 2 ^ 64) :
    kv.NoFailure key count (bumpAnswers base next) := by
  have hbase := h.base_ne
  have hnext := h.next_ne
  have hdata : base + sizeofBlockEntry ≠ 0 := by omega
  have hlist : next + sizeofBlockMeta ≠ 0 := by omega
  refine ⟨⟨rfl, rfl, rfl, rfl, rfl, rfl, rfl, rfl⟩,
    ⟨hbase, show base < _ by omega, show base + _ ≤ _ by omega,
      fun r hr => .inr (.inl (h.regions r hr))⟩,
    ⟨hdata, show base + _ < _ by omega, show base + _ + _ ≤ _ by omega,
      fun r hr => .inr (.inl ?_)⟩,
    ⟨hnext, h.metas _ (Nat.le_refl _), fun _ => ⟨hlist, h.lists _ (Nat.le_add_right _ _)⟩⟩⟩
  rw [bumpAnswers, Service.tbpAlloc_regions _ _ _ hbase] at hr
  rcases List.mem_cons.mp hr with rfl | hr
  · exact Nat.le_refl _
  · exact Nat.le_trans (h.regions r hr) (Nat.le_add_right _ _)

theorem unused_create {s : Service} {root base next : Nat} (hroot : root ≠ 0) (hnext : next ≠ 0)
    (hbase : root + sizeofBase ≤ base) (h : ∀ r ∈ s.regions, r.base + r.size ≤ base) :
    Unused (Pmemkv.create s root) base next := by
  refine ⟨by omega, hnext, fun r hr => ?_, fun _ _ => rfl, fun _ _ => rfl⟩
  rw [create_regions hroot] at hr
  rcases List.mem_cons.mp hr with rfl | hr
  · exact hbase
  · exact h r hr

/-- A put takes no more than the next addresses. -/
theorem Unused.put {base next : Nat} (h : Unused kv base next) {k : String} {value : List UInt8}
    {code : Int} {kv' : Pmemkv}
    (hput : kv.put hash k value value.length (bumpAnswers base next) = some (code, kv')) :
    Unused kv' (base + sizeofBlockEntry + value.length)
      (next + sizeofBlockMeta + sizeofBlockMetaList) := by
  have hbase := h.base_ne
  have hdata : base + sizeofBlockEntry ≠ 0 := by omega
  obtain ⟨hregions, key, off, size, c, hupdate⟩ := put_eq_some hbase hdata hput
  obtain ⟨hmetas, hlists⟩ := updateMeta_heaps hupdate
  have hsizes : 0 < sizeofBlockMeta ∧ 0 < sizeofBlockMetaList := by decide
  refine ⟨by omega, by omega, fun r hr => ?_, fun p hp => ?_, fun p hp => ?_⟩
  · rw [hregions] at hr
    rcases List.mem_cons.mp hr with rfl | hr
    · exact Nat.le_refl _
    · rcases List.mem_cons.mp hr with rfl | hr
      · exact Nat.le_add_right _ _
      · have hle := h.regions r hr
        omega
  · exact hmetas p (show p ≠ next by omega) (h.metas p (by omega))
  · exact hlists p (show p ≠ next + _ by omega) (h.lists p (by omega))

/-- Puts of any values go through as long as the addresses last. -/
theorem Unused.admissible {base next : Nat} {pairs : List (String × List UInt8)}
    (h : Unused kv base next)
    (hroom : base + (pairs.map fun pair => sizeofBlockEntry + pair.2.length).sum < 2 ^ 64) :
    Admissible (Pmemkv.step hash fuel) (Pmemkv.Ok hash) kv
      ((bumpCalls base next pairs).map Op.put) := by
  induction pairs generalizing kv base next with
  | nil => trivial
  | cons pair pairs ih =>
    rw [List.map_cons, List.sum_cons] at hroom
    rw [bumpCalls, List.map_cons, Admissible]
    have hfirst : base + sizeofBlockEntry + pair.2.length < 2 ^ 64 := by omega
    refine ⟨h.noFailure _ hfirst, fun kv' hstep => ?_⟩
    obtain ⟨⟨code, kv₁⟩, hput, rfl⟩ := Option.map_eq_some_iff.mp hstep
    exact ih (h.put hput) (by omega)

/-! ## A sample run -/

/-- `xxh::xxhash<64>` on the keys `"a"` and `"b"`. -/
def sampleHash : String → UInt64 := fun key =>
  if key = "a" then 0xd24ec4f1a98c6e5b else 0x78452aa11af39f9b

theorem sampleHash_injOn : Set.InjOn sampleHash {"a", "b"} := by
  intro k hk k' hk' heq
  rcases hk with rfl | rfl <;> rcases hk' with rfl | rfl
  · rfl
  · exact absurd heq (by decide)
  · exact absurd heq (by decide)
  · rfl

/-- A service that has handed out nothing; its memory is not cleared. -/
def sampleService : Service := { mem := fun _ => 255, regions := [] }

/-- Two puts, a `free_all`, and a put that gets the freed index nodes again. -/
def sampleOps : List Op :=
  [.put ⟨"a", [1, 2], { entry := 8192, data := 8224, metaPtr := 16, listPtr := 32 }⟩,
    .put ⟨"b", [3], { entry := 8256, data := 8288, metaPtr := 64, listPtr := 96 }⟩,
    .freeAll,
    .put ⟨"a", [4], { entry := 8320, data := 8352, metaPtr := 64, listPtr := 96 }⟩]

theorem sampleOps_admissible :
    Admissible (Pmemkv.step sampleHash 5) (Pmemkv.Ok sampleHash)
      (Pmemkv.create sampleService 4096) sampleOps := by
  decide

end SparkNvm.Native
