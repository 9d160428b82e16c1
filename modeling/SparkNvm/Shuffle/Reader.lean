import SparkNvm.Shuffle.MapSide
import SparkNvm.Storage.ManagedBuffer

/-!
# `BaseShuffleReader`

The reducer fetches the blocks of its partitions from every map output and reads their records.
Which block comes when is up to `ShuffleBlockFetcherIterator`, which is not part of the
repository; it asks for the blocks whose size is not zero, each of them once.

* `fetchBlock` is one block, from the local store through `createInputStream` or from another
  executor through `convertToNetty`; `fetchAll` is the record iterator.
* `MapsDone` says what a store holds once the map tasks have written.
* `fetchAll_perm`: whatever the order, the reducer gets the records of its partitions.
-/

namespace SparkNvm.Shuffle

open Lib Native Storage

/-! ## The reads -/

/-- `getBlockData(blockId)` of `nvmShuffleBlockResolver`. -/
def getBlockData (blockId : String) : NvmManagedBuffer := .new blockId

/-- Reads the stream to its end, with an array of `chunk` bytes. -/
def readToEnd (chunk : Nat) : Nat → NvmInputStream → Option (List UInt8)
  | 0, _ => none
  | fuel + 1, s => do
    let (r, array, s) ← s.readInto (List.replicate chunk 0) 0 chunk
    if r = -1 then return []
    else
      let rest ← readToEnd chunk fuel s
      return array.take r.toNat ++ rest

/-- How a block is fetched: from another executor or not, with which array it is read, and what
the memory for its stream holds. -/
structure Fetch where
  remote : Bool
  chunk : Nat
  env : StreamMemory

/-- The bytes of a block. -/
def fetchBlock (hash : String → UInt64) (fuel : Nat) (kv : Pmemkv) (how : Fetch)
    (blockId : String) :
    Option (List UInt8) :=
  if how.remote then
    ((getBlockData blockId).convertToNetty hash fuel how.env kv).map Prod.fst
  else do
    let (s, _) ← (getBlockData blockId).createInputStream hash fuel how.env kv
    readToEnd how.chunk (s.availableBytes.toNat + 1) s

/-- The blocks that the reducer asks for: of every map output, the partitions in the range whose
reported length is not zero. -/
def blocksToFetch (outs : Nat → MapOutput) (numMaps startPartition endPartition : Nat) :
    List (Nat × Nat) :=
  (List.range numMaps).flatMap fun mapId =>
    ((List.range' startPartition (endPartition - startPartition)).filter fun reduceId =>
      (outs mapId).partitionLengths[reduceId]? ≠ some 0).map fun reduceId => (mapId, reduceId)

/-- The record iterator, for blocks that arrive in this order. -/
def fetchAll {R : Type} (hash : String → UInt64) (fuel : Nat) (kv : Pmemkv)
    (deserialize : List UInt8 → List R) (shuffleId : Nat) (order : List ((Nat × Nat) × Fetch)) :
    Option (List R) :=
  (order.mapM fun block =>
    fetchBlock hash fuel kv block.2 (shuffleBlockName shuffleId block.1.1 block.1.2)).map
    fun blocks => blocks.flatMap deserialize

/-! ## One block -/

section

variable {hash : String → UInt64} {fuel : Nat} {kv : Pmemkv} {puts : List PutCall} {k : String}

theorem readToEnd_spec {s : NvmInputStream} {value : List UInt8} {done : Nat}
    (h : s.Serves value done) {chunk : Nat} (hchunk : 0 < chunk) {n : Nat}
    (hn : value.length - done < n) : readToEnd chunk n s = some (value.drop done) := by
  induction n generalizing s done with
  | zero => omega
  | succ n ih =>
    have hle := h.done_le
    by_cases hend : done = value.length
    · rw [readToEnd, h.readInto_end hend, hend, List.drop_length]
      rfl
    · have harray : 0 + chunk ≤ (List.replicate chunk (0 : UInt8)).length := by simp
      obtain ⟨s', m, hm, hread, hserves⟩ := h.readInto_some (by omega) harray
      have hlen : ((value.drop done).take m).length = m := by
        rw [List.length_take, List.length_drop]
        omega
      rw [readToEnd, hread, Option.bind_eq_bind, Option.bind_some]
      dsimp only
      rw [if_neg (by omega), ih hserves (by omega), Option.bind_eq_bind, Option.bind_some,
        Int.toNat_natCast, List.take_zero, List.nil_append, List.take_left' hlen, ← List.drop_drop,
        List.take_append_drop]
      rfl

/-- Both ways to fetch a block give the bytes that are stored under its name. -/
theorem fetchBlock_spec (h : IndexHolds hash kv puts) (hfuel : puts.length ≤ fuel)
    (hbytes : storedBytes hash puts k ≠ []) (hcount : (storedUnder hash puts k).length < 2 ^ 30)
    (hne : ∀ call ∈ storedUnder hash puts k, call.value ≠ [])
    (hsmall : (storedBytes hash puts k).length < 2 ^ 31) {how : Fetch} (hchunk : 0 < how.chunk) :
    fetchBlock hash fuel kv how k = some (storedBytes hash puts k) := by
  have hstored : storedUnder hash puts k ≠ [] := by
    intro hnil
    rw [storedBytes, hnil] at hbytes
    exact hbytes rfl
  obtain ⟨stream, hnew, _, hserves⟩ :=
    NvmInputStream.new_serves fuel h hfuel hstored hcount hne hsmall how.env.mm how.env.fresh
      how.env.junk
  have hcreate : ∀ b : NvmManagedBuffer, b.blockId = k → b.inputStream = none →
      b.createInputStream hash fuel how.env kv =
        some (stream, { b with inputStream := some stream }) := by
    rintro b rfl hnone
    rw [NvmManagedBuffer.createInputStream, hnone]
    dsimp only
    rw [hnew]
    rfl
  cases hremote : how.remote with
  | false =>
    have havail : stream.availableBytes.toNat = (storedBytes hash puts k).length := by
      have heq := hserves.available
      omega
    rw [fetchBlock, hremote, if_neg Bool.false_ne_true, hcreate _ rfl rfl, Option.bind_eq_bind,
      Option.bind_some]
    dsimp only
    rw [havail, readToEnd_spec hserves hchunk (by omega), List.drop_zero]
  | true =>
    obtain ⟨m, hmem, hfront⟩ := hserves.at_front
    have hsize : (getBlockData k).size hash kv = some (((storedBytes hash puts k).length : Int),
        { getBlockData k with totalSize := (storedBytes hash puts k).length }) := by
      have hfirst : (getBlockData k).totalSize = -1 := rfl
      rw [NvmManagedBuffer.size, if_pos hfirst]
      show (getPartitionSize hash kv k).bind _ = _
      rw [getPartitionSize_eq h]
      rfl
    have haddr : stream.getByteBufferDirectAddr = some m := hmem
    rw [fetchBlock, hremote, if_pos rfl, NvmManagedBuffer.convertToNetty, hsize,
      Option.bind_eq_bind, Option.bind_some]
    dsimp only
    rw [hcreate _ rfl rfl, Option.bind_eq_bind, Option.bind_some]
    dsimp only
    rw [haddr, wrap32_of_fits (by omega) (by omega), Int.toNat_natCast, Option.bind_eq_bind,
      Option.bind_some, hfront]
    rfl

end

/-! ## All blocks -/

/-- The map tasks have finished, and task `m` has written the records `written m p` for partition
`p`. -/
structure MapsWrote {R S : Type} (ser : SerializerInstance R S) (shuffleId n numMaps : Nat)
    (ops : Nat → List (Nat × BlockOp R)) (outs : Nat → MapOutput) (written : Nat → Nat → List R) :
    Prop where
  finishes : ∀ m < numMaps, Finishes ser (shuffleBlockName shuffleId m) n (ops m) (outs m)
  forced : ∀ m < numMaps, ∀ p < n, WritesForced (opsAt p (ops m)) (written m p)
  blocks : ∀ m < numMaps, ∀ p < n, opsAt p (ops m) ≠ [] →
    ((outs m).calls.filter fun call => call.key = shuffleBlockName shuffleId m p).length < 2 ^ 30
  small : ∀ m < numMaps, ∀ p < n, (emitted ser (opsAt p (ops m))).length < 2 ^ 31

/-- Their blocks are in the store, where the index finds them. -/
structure MapsDone {R S : Type} (hash : String → UInt64) (kv : Pmemkv) (puts : List PutCall)
    (ser : SerializerInstance R S) (shuffleId n numMaps : Nat)
    (ops : Nat → List (Nat × BlockOp R)) (outs : Nat → MapOutput) (written : Nat → Nat → List R) :
    Prop extends MapsWrote ser shuffleId n numMaps ops outs written where
  holds : IndexHolds hash kv puts
  stored : ∀ m < numMaps, ∀ p < n,
    (storedUnder hash puts (shuffleBlockName shuffleId m p)).map PutCall.value =
      ((outs m).calls.filter fun call => call.key = shuffleBlockName shuffleId m p).map
        SetBlock.value

section

variable {R S : Type} {hash : String → UInt64} {fuel : Nat} {kv : Pmemkv} {puts : List PutCall}
variable {ser : SerializerInstance R S} {deserialize : List UInt8 → List R}
variable {shuffleId n numMaps m p : Nat} {ops : Nat → List (Nat × BlockOp R)}
variable {outs : Nat → MapOutput} {written : Nat → Nat → List R}

/-- The records are written before the last call. -/
theorem WritesForced.recordsOf_before {calls before : List (BlockOp R)} {records : List R}
    (h : WritesForced calls records) (hbefore : calls = before ++ [.maybeSpill true]) :
    recordsOf before = records := by
  rw [← h.records, hbefore, recordsOf_append]
  exact (List.append_nil _).symm

/-- A block that is reported empty has no records. -/
theorem MapsWrote.written_of_zero (h : MapsWrote ser shuffleId n numMaps ops outs written)
    (hser : ser.RoundTrips deserialize) (hm : m < numMaps) (hp : p < n)
    (hzero : (outs m).partitionLengths[p]? = some 0) : written m p = [] := by
  have hforced := h.forced m hm p hp
  have hsmall := h.small m hm p hp
  rcases hforced.forced with hnone | ⟨before, hbefore⟩
  · rw [← hforced.records, hnone]
    rfl
  · have hcount := hser.byte_per_record before
    have hlength := (h.finishes m hm).lengths p hp (.maybeSpill true)
      (by rw [hbefore, List.getLast?_concat]) rfl
    rw [hzero, wrap32_of_fits (by omega) (by omega), Option.some.injEq] at hlength
    rw [← hbefore, hforced.recordsOf_before hbefore] at hcount
    exact List.length_eq_zero_iff.mp (by omega)

theorem MapsDone.storedBytes_eq
    (h : MapsDone hash kv puts ser shuffleId n numMaps ops outs written) (hser : ser.Lawful)
    (hm : m < numMaps) (hp : p < n) :
    storedBytes hash puts (shuffleBlockName shuffleId m p) = emitted ser (opsAt p (ops m)) := by
  rw [storedBytes, h.stored m hm p hp, ← (h.finishes m hm).bytes hser p hp, handedOver,
    List.flatMap_def]

theorem MapsDone.length_storedUnder
    (h : MapsDone hash kv puts ser shuffleId n numMaps ops outs written) (hm : m < numMaps)
    (hp : p < n) :
    (storedUnder hash puts (shuffleBlockName shuffleId m p)).length =
      ((outs m).calls.filter fun call => call.key = shuffleBlockName shuffleId m p).length := by
  have hlength := congrArg List.length (h.stored m hm p hp)
  rw [List.length_map, List.length_map] at hlength
  exact hlength

theorem MapsDone.value_ne (h : MapsDone hash kv puts ser shuffleId n numMaps ops outs written)
    (hm : m < numMaps) (hp : p < n) :
    ∀ put ∈ storedUnder hash puts (shuffleBlockName shuffleId m p), put.value ≠ [] := by
  intro put hput
  have hvalue := List.mem_map_of_mem (f := PutCall.value) hput
  rw [h.stored m hm p hp] at hvalue
  obtain ⟨call, hcall, heq⟩ := List.mem_map.mp hvalue
  rw [← heq]
  exact (h.finishes m hm).value_ne call (List.mem_of_mem_filter hcall)

/-- A block that is not is fetched, and its bytes are its records. -/
theorem MapsDone.fetchBlock (h : MapsDone hash kv puts ser shuffleId n numMaps ops outs written)
    (hser : ser.RoundTrips deserialize) (hfuel : puts.length ≤ fuel) (hm : m < numMaps) (hp : p < n)
    (hpos : (outs m).partitionLengths[p]? ≠ some 0) {how : Fetch} (hchunk : 0 < how.chunk) :
    ∃ bytes, fetchBlock hash fuel kv how (shuffleBlockName shuffleId m p) = some bytes ∧
      deserialize bytes = written m p := by
  have hforced := h.forced m hm p hp
  have hsmall := h.small m hm p hp
  have hstored := h.storedBytes_eq hser.lawful hm hp
  rcases hforced.forced with hnone | ⟨before, hbefore⟩
  · exact absurd ((h.finishes m hm).idle p hp hnone) hpos
  · have hread := hser.deserialize_emitted before
    rw [← hbefore, hforced.recordsOf_before hbefore] at hread
    have hlength := (h.finishes m hm).lengths p hp (.maybeSpill true)
      (by rw [hbefore, List.getLast?_concat]) rfl
    have hbytes : storedBytes hash puts (shuffleBlockName shuffleId m p) ≠ [] := by
      intro hnil
      rw [hstored] at hnil
      rw [hnil, List.length_nil, Int.natCast_zero, wrap32_zero] at hlength
      exact hpos hlength
    have hcalled : opsAt p (ops m) ≠ [] := by
      rw [hbefore]
      exact List.append_ne_nil_of_right_ne_nil _ (List.cons_ne_nil _ _)
    have hcount := h.blocks m hm p hp hcalled
    rw [← h.length_storedUnder hm hp] at hcount
    refine ⟨emitted ser (opsAt p (ops m)), ?_, hread⟩
    rw [← hstored]
    exact fetchBlock_spec h.holds hfuel hbytes hcount (h.value_ne hm hp)
      (by rw [hstored]; exact hsmall) hchunk

/-- The records of the blocks in the range, over all map tasks. -/
def writtenIn (written : Nat → Nat → List R) (numMaps startPartition endPartition : Nat) : List R :=
  (List.range numMaps).flatMap fun m =>
    (List.range' startPartition (endPartition - startPartition)).flatMap fun p => written m p

theorem mem_blocksToFetch {startPartition endPartition : Nat} :
    (m, p) ∈ blocksToFetch outs numMaps startPartition endPartition ↔
      m < numMaps ∧ startPartition ≤ p ∧ p < endPartition ∧
        (outs m).partitionLengths[p]? ≠ some 0 := by
  simp only [blocksToFetch, List.mem_flatMap, List.mem_range, List.mem_map, List.mem_filter,
    List.mem_range'_1, decide_eq_true_eq, Prod.mk.injEq]
  constructor
  · rintro ⟨m', hm', p', ⟨hp', hpos⟩, rfl, rfl⟩
    exact ⟨hm', by omega, by omega, hpos⟩
  · rintro ⟨hm, hlo, hhi, hpos⟩
    exact ⟨m, hm, p, ⟨by omega, hpos⟩, rfl, rfl⟩

/-- The blocks that are left out have no records. -/
theorem MapsWrote.flatMap_blocksToFetch
    (h : MapsWrote ser shuffleId n numMaps ops outs written)
    (hser : ser.RoundTrips deserialize) {startPartition endPartition : Nat}
    (hend : endPartition ≤ n) :
    (blocksToFetch outs numMaps startPartition endPartition).flatMap (fun b => written b.1 b.2) =
      writtenIn written numMaps startPartition endPartition := by
  rw [blocksToFetch, writtenIn, List.flatMap_assoc]
  refine List.flatMap_congr fun m hm => ?_
  have hm' := List.mem_range.mp hm
  have hall : ∀ ps : List Nat, (∀ p ∈ ps, p < n) →
      ((ps.filter fun p => (outs m).partitionLengths[p]? ≠ some 0).map fun p => (m, p)).flatMap
        (fun b => written b.1 b.2) = ps.flatMap fun p => written m p := by
    intro ps hps
    induction ps with
    | nil => rfl
    | cons p ps ih =>
      have hrest := ih fun q hq => hps q (List.mem_cons_of_mem _ hq)
      by_cases hzero : (outs m).partitionLengths[p]? = some 0
      · rw [List.filter_cons_of_neg (by simpa using hzero), hrest, List.flatMap_cons,
          h.written_of_zero hser hm' (hps p List.mem_cons_self) hzero, List.nil_append]
      · rw [List.filter_cons_of_pos (by simpa using hzero), List.map_cons, List.flatMap_cons, hrest,
          List.flatMap_cons]
  refine hall _ fun p hp => ?_
  have hlt := List.mem_range'_1.mp hp
  omega

/-- Blocks that are read one by one, in any order, give the records of the range, each of them
once. -/
theorem MapsWrote.fetched_perm (h : MapsWrote ser shuffleId n numMaps ops outs written)
    (hser : ser.RoundTrips deserialize) {startPartition endPartition : Nat}
    (hend : endPartition ≤ n)
    {B : Type} {block : B → Nat × Nat} {fetch : B → Option (List UInt8)} {order : List B}
    (horder : (order.map block).Perm (blocksToFetch outs numMaps startPartition endPartition))
    (hfetch : ∀ b ∈ order, (block b).1 < numMaps → (block b).2 < n →
      (outs (block b).1).partitionLengths[(block b).2]? ≠ some 0 →
      ∃ bytes, fetch b = some bytes ∧ deserialize bytes = written (block b).1 (block b).2) :
    ∃ fetched, order.mapM fetch = some fetched ∧
      (fetched.flatMap deserialize).Perm
        (writtenIn written numMaps startPartition endPartition) := by
  have hall : ∀ bs : List B, (∀ b ∈ bs, b ∈ order) →
      ∃ fetched, bs.mapM fetch = some fetched ∧
        fetched.flatMap deserialize = (bs.map block).flatMap fun b => written b.1 b.2 := by
    intro bs hbs
    induction bs with
    | nil => exact ⟨[], rfl, rfl⟩
    | cons b bs ih =>
      have hin : b ∈ order := hbs b List.mem_cons_self
      obtain ⟨hm, _, hp, hpos⟩ := mem_blocksToFetch.mp
        (horder.mem_iff.mp (List.mem_map_of_mem hin))
      obtain ⟨bytes, hbytes, hrecords⟩ := hfetch b hin hm (by omega) hpos
      obtain ⟨fetched, hfetched, hrest⟩ := ih fun b hb => hbs b (List.mem_cons_of_mem _ hb)
      refine ⟨bytes :: fetched, ?_, ?_⟩
      · rw [List.mapM_cons, hbytes, Option.bind_eq_bind, Option.bind_some, hfetched]
        rfl
      · rw [List.flatMap_cons, List.map_cons, List.flatMap_cons, hrecords, hrest]
  obtain ⟨fetched, hfetched, hrecords⟩ := hall order fun _ hb => hb
  refine ⟨fetched, hfetched, ?_⟩
  rw [hrecords, ← h.flatMap_blocksToFetch hser hend]
  exact horder.flatMap_right _

/-- Whatever the order and the way in which the blocks arrive, the iterator goes over the records
of the range. -/
theorem MapsDone.fetchAll_perm (h : MapsDone hash kv puts ser shuffleId n numMaps ops outs written)
    (hser : ser.RoundTrips deserialize) (hfuel : puts.length ≤ fuel)
    {startPartition endPartition : Nat} (hend : endPartition ≤ n)
    {order : List ((Nat × Nat) × Fetch)} (hchunk : ∀ b ∈ order, 0 < b.2.chunk)
    (horder : (order.map Prod.fst).Perm
      (blocksToFetch outs numMaps startPartition endPartition)) :
    ∃ result, fetchAll hash fuel kv deserialize shuffleId order = some result ∧
      result.Perm (writtenIn written numMaps startPartition endPartition) := by
  obtain ⟨blocks, hblocks, hperm⟩ := h.fetched_perm hser hend horder fun b hb hm hp hpos =>
    h.fetchBlock hser hfuel hm hp hpos (hchunk b hb)
  exact ⟨blocks.flatMap deserialize, by rw [fetchAll, hblocks, Option.map_some], hperm⟩

end

end SparkNvm.Shuffle
