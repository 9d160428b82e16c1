import SparkNvm.Native.Refinement
import SparkNvm.Lib.Int32
import SparkNvm.Storage.OutputStream

/-!
# `PersistentMemoryHandler` and its native calls

The Scala handler, the Java pool and the JNI functions between them and `pmemkv`.

* `nativeSetBlock`, `nativeGetBlockIndex`, `nativeGetBlockSize` and what the handler
  makes of them.
* `getPartitionSize_eq` and `get_all`: the sizes and the bytes of a store that holds a
  list of puts.
-/

namespace SparkNvm.Storage

open Lib Native

/-- `nativeSetBlock`: the flag and the result of `put` are not looked at. -/
def nativeSetBlock (hash : String → UInt64) (kv : Pmemkv) (call : SetBlock) (ans : PutAnswers) :
    Option Pmemkv :=
  (kv.put hash call.key call.value call.value.length ans).map Prod.snd

/-- The calls of `setPartition` one after the other, with the answers they get. -/
def setBlocks (hash : String → UInt64) : Pmemkv → List (SetBlock × PutAnswers) → Option Pmemkv :=
  run fun kv call => nativeSetBlock hash kv call.1 call.2

/-- The `put` that a call makes. -/
def putCallOf (call : SetBlock × PutAnswers) : PutCall := ⟨call.1.key, call.1.value, call.2⟩

/-- No request of the call fails. -/
def SetOk (hash : String → UInt64) (kv : Pmemkv) (call : SetBlock × PutAnswers) : Prop :=
  kv.NoFailure (hash call.1.key) call.1.value.length call.2

instance (hash : String → UInt64) (kv : Pmemkv) (call : SetBlock × PutAnswers) :
    Decidable (SetOk hash kv call) := by
  unfold SetOk
  infer_instance

/-- `NewLongArray(length)` and `SetLongArrayRegion` from an array of `allocated` words.  A negative
`jsize` throws, and a copy beyond the words reads what is not there. -/
def newLongArray (length allocated : Nat) (entries : Nat → Nat) : Option (List Nat) :=
  if 0 ≤ wrap32 length ∧ wrap32 length ≤ allocated then
    some ((List.range (wrap32 length).toNat).map entries)
  else none

/-- `nativeGetBlockIndex`.  `mm` is what `malloc` left in the struct and in its array. -/
def nativeGetBlockIndex (hash : String → UInt64) (fuel : Nat) (kv : Pmemkv) (key : String)
    (mm : Pmemkv.MemoryMeta) : Option (List Nat) := do
  let (_, size) ← kv.getMetaSize hash key
  let (_, mm) ← kv.getMeta hash fuel key mm
  newLongArray mm.length (2 * size) mm.entries

/-- `nativeGetBlockSize`. -/
def nativeGetBlockSize (hash : String → UInt64) (kv : Pmemkv) (key : String) : Option Nat :=
  (kv.getValueSize hash key).map Prod.snd

/-- The pairs of an address and a length `toInt`. -/
def blockPairs : List Nat → List (Nat × Int)
  | addr :: size :: rest => (addr, wrap32 size) :: blockPairs rest
  | _ => []

/-- `PersistentMemoryHandler.getPartitionBlockInfo`. -/
def getPartitionBlockInfo (hash : String → UInt64) (fuel : Nat) (kv : Pmemkv) (blockId : String)
    (mm : Pmemkv.MemoryMeta) : Option (List (Nat × Int)) :=
  (nativeGetBlockIndex hash fuel kv blockId mm).map blockPairs

/-- `PersistentMemoryHandler.getPartitionSize`. -/
def getPartitionSize (hash : String → UInt64) (kv : Pmemkv) (blockId : String) : Option Nat :=
  nativeGetBlockSize hash kv blockId

/-! ## The answers -/

section

variable {hash : String → UInt64} {fuel : Nat} {kv : Pmemkv} {puts : List PutCall}

/-- The blocks of calls without failures are held in call order. -/
theorem setBlocks_holds (h : Holds hash kv puts) {calls : List (SetBlock × PutAnswers)}
    (hok : Admissible (fun kv call => nativeSetBlock hash kv call.1 call.2) (SetOk hash) kv calls) :
    ∃ kv', setBlocks hash kv calls = some kv' ∧ Holds hash kv' (puts ++ calls.map putCallOf) := by
  refine run_invariant (I := fun done kv => Holds hash kv (puts ++ done.map putCallOf)) ?_
    (by simpa using h) hok
  intro done call rest kv _ hholds hcall
  obtain ⟨kv', hput, hholds'⟩ := hholds.put (putCallOf call) hcall
  refine ⟨kv', ?_, ?_⟩
  · have hput' : kv.put hash call.1.key call.1.value call.1.value.length call.2 = some (0, kv') :=
      hput
    rw [nativeSetBlock, hput', Option.map_some]
  · rw [List.map_append, ← List.append_assoc]
    exact hholds'

theorem storedUnder_append (puts puts' : List PutCall) (k : String) :
    storedUnder hash (puts ++ puts') k = storedUnder hash puts k ++ storedUnder hash puts' k :=
  List.filter_append ..

/-- Calls under one key. -/
theorem storedUnder_eq_self {calls : List PutCall} {k : String} (h : ∀ call ∈ calls, call.key = k) :
    storedUnder hash calls k = calls := by
  rw [storedUnder, List.filter_eq_self]
  intro call hcall
  rw [h call hcall]
  exact decide_eq_true rfl

theorem blocksOf_map_block (hash : String → UInt64) (puts : List PutCall) (k : String) :
    blocksOf (puts.map (PutCall.block hash)) (hash k).toNat =
      (storedUnder hash puts k).map (PutCall.block hash) := by
  rw [blocksOf, storedUnder, List.filter_map]
  congr 1
  apply List.filter_congr
  intro call _
  exact decide_eq_decide.mpr UInt64.toNat_inj

/-- The bytes stored under a key. -/
def storedBytes (hash : String → UInt64) (puts : List PutCall) (k : String) : List UInt8 :=
  ((storedUnder hash puts k).map PutCall.value).flatten

theorem getValueSize_eq (h : IndexHolds hash kv puts) (k : String) :
    kv.getValueSize hash k = some
      (if storedUnder hash puts k = [] then -1 else 0, (storedBytes hash puts k).length) := by
  obtain ⟨nodes, hrep⟩ := h.rep
  rw [getValueSize_spec hash hrep h.total k, blocksOf_map_block, totalBytes_map_block]
  simp only [List.map_eq_nil_iff, storedBytes]

theorem getPartitionSize_eq (h : IndexHolds hash kv puts) (k : String) :
    getPartitionSize hash kv k = some (storedBytes hash puts k).length := by
  rw [getPartitionSize, nativeGetBlockSize, getValueSize_eq h k]
  rfl

/-- The address and the length of a block. -/
def infoOf (call : PutCall) : Nat × Int := (call.ans.data, call.value.length)

theorem blockPairs_flatMap {calls : List PutCall} (h : ∀ call ∈ calls, call.value.length < 2 ^ 31) :
    blockPairs ((calls.map (PutCall.block hash)).flatMap fun b => [b.off, b.size]) =
      calls.map infoOf := by
  induction calls with
  | nil => rfl
  | cons call calls ih =>
    have hlen := h call (by simp)
    have hrest := ih fun c hc => h c (by simp [hc])
    have hw : wrap32 (call.value.length : Int) = call.value.length :=
      wrap32_of_fits (by omega) (by omega)
    rw [List.map_cons, List.flatMap_cons, List.map_cons, infoOf, ← hrest, ← hw]
    rfl

/-- `get` with a buffer of `get_value_size` bytes copies all of them. -/
theorem get_all (h : IndexHolds hash kv puts) (hfuel : puts.length ≤ fuel) {k : String}
    (hne : storedUnder hash puts k ≠ []) (mb : Pmemkv.MemoryBlock)
    (hsize : mb.size = (storedBytes hash puts k).length) :
    kv.get hash fuel k mb =
      some (0, { data := storeBytes mb.data 0 (storedBytes hash puts k), size := mb.size }) := by
  obtain ⟨nodes, hrep⟩ := h.rep
  have hlen : (puts.map (PutCall.block hash)).length ≤ fuel := by simpa using hfuel
  have hvals : ((storedUnder hash puts k).map (PutCall.block hash)).map
      (blockBytes kv.service.mem) = (storedUnder hash puts k).map PutCall.value := by
    rw [List.map_map]
    apply List.map_congr_left
    intro call hcall
    exact h.bytes call (List.mem_of_mem_filter hcall)
  rw [get_spec hash hrep h.off_ne hlen h.total k mb, blocksOf_map_block,
    if_neg (by simpa using hne), hvals, (fitting_longest mb.size _).eq_all
      (Nat.le_of_eq hsize.symm)]
  rfl

end

end SparkNvm.Storage
