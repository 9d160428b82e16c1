import SparkNvm.Shuffle.RoundTrip

/-!
# The sizes of a partition

The store counts bytes in 64 bits.  The block stream adds them up in an `int`, the writer reports
that `int`, and the reader converts the size and the length of the block index to an `int` each.

* `SizesExact`: all of these sizes are the number of bytes of the partition.
* `sizes_exact_iff`: for which sequences of blocks they are.
-/

namespace SparkNvm.Shuffle

open Lib Native Storage

/-! ## All sizes -/

/-- The sizes of a partition with the blocks `blocks`: in the store, in its block stream, in the
`MapStatus` and in a reader. -/
structure SizesExact {S : Type} (hash : String → UInt64) (fuel : Nat) (kv : Pmemkv)
    (blockId : String) (b : NvmBlockOutputStream S) (length : Option Int) (blocks : List SetBlock) :
    Prop where
  stored : getPartitionSize hash kv blockId = some (handedOver blocks).length
  getSize : b.getSize = (handedOver blocks).length
  partitionLength : length = some ((handedOver blocks).length : Int)
  reader : OpensWith hash fuel kv blockId (handedOver blocks)

/-- The blocks that the writer flushed for a partition. -/
def blocksOfPartition (out : MapOutput) (blockId : String) : List SetBlock :=
  out.calls.filter fun call => call.key = blockId

section

variable {K V S : Type} {ser : SerializerInstance (K × V) S} {t : Int} {getPartition : K → Nat}
variable {shuffleId mapId n p : Nat} {data : Nat → Mem} {records : List (K × V)}
variable {streams : List (NvmBlockOutputStream S)} {calls : List SetBlock}

/-- What the stream and the `MapStatus` say is the number of bytes as an `int`. -/
theorem sizes_of_writer
    (h : runStreams ser t (shuffleBlockName shuffleId mapId) data n
      (recordOps getPartition records ++ forceOps n) = .ok (streams, calls)) (hp : p < n) :
    ∃ b, streams[p]? = some b ∧
      b.getSize = wrap32 (handedOver (blocksOfPartition (finish streams calls)
        (shuffleBlockName shuffleId mapId p))).length ∧
      (finish streams calls).partitionLengths[p]? =
        some (wrap32 (handedOver (blocksOfPartition (finish streams calls)
          (shuffleBlockName shuffleId mapId p))).length) := by
  have hname : ∀ p < n, ∀ q < n,
      shuffleBlockName shuffleId mapId p = shuffleBlockName shuffleId mapId q → p = q :=
    fun p _ q _ heq => (shuffleBlockName_inj heq).2.2
  have hfin := runStreams_finishes hname h
  obtain ⟨hlen, _, hall⟩ := runStreams_holds hname h
  obtain ⟨b, hb⟩ : ∃ b, streams[p]? = some b :=
    ⟨_, List.getElem?_eq_getElem (by rw [hlen]; exact hp)⟩
  have hholds := hall p b hb
  have hcount := hfin.count p hp
  have hlast : (opsAt p (recordOps getPartition records ++ forceOps n)).getLast? =
      some (.maybeSpill true) := by
    rw [opsAt_write getPartition records hp]
    exact getLast?_partitionOps getPartition records p
  obtain ⟨hrem, hflushed⟩ := hholds.forced _ hlast rfl
  have htotal := hholds.counted.total_eq
  rw [hrem, Nat.add_zero] at htotal
  refine ⟨b, hb, ?_, ?_⟩
  · rw [NvmBlockOutputStream.getSize, hholds.counted.size, hflushed, Nat.sub_zero, htotal,
      blocksOfPartition, hcount]
  · rw [hfin.lengths p hp _ hlast rfl, blocksOfPartition, hcount]

end

/-- For every map task and every partition of it that was not stored before, whatever blocks its
stream flushed: `getSize`, the reported length and `getPartitionSize` are the number of bytes of the
partition, and a reader starts with that many bytes available and delivers all of them, exactly if
the partition has a block, has fewer than `2 ^ 30` of them and has fewer than `2 ^ 31` bytes. -/
theorem sizes_exact_iff {K V S : Type} (hash : String → UInt64) (fuel : Nat) (s : Service)
    (root : Nat) (history : List Op) (kv : Pmemkv) (used : Set String)
    (ser : SerializerInstance (K × V) S) (t : Int) (getPartition : K → Nat)
    (shuffleId mapId n : Nat) (data : Nat → Mem) (records : List (K × V))
    (streams : List (NvmBlockOutputStream S)) (calls : List SetBlock) (answers : List PutAnswers)
    (p : Nat)
    (hroot : s.Grants sizeofBase root) (hfuel : history.length + answers.length ≤ fuel)
    (hok : Admissible (Pmemkv.step hash fuel) (Pmemkv.Ok hash) (Pmemkv.create s root) history)
    (hkv : run (Pmemkv.step hash fuel) (Pmemkv.create s root) history = some kv)
    (hinj : Set.InjOn hash used) (hused : ∀ call, Op.put call ∈ history → call.key ∈ used)
    (hnames : ∀ p < n, shuffleBlockName shuffleId mapId p ∈ used) (hp : p < n)
    (hfresh : ∀ call, Op.put call ∈ history → call.key ≠ shuffleBlockName shuffleId mapId p)
    (hrun : runStreams ser t (shuffleBlockName shuffleId mapId) data n
      (recordOps getPartition records ++ forceOps n) = .ok (streams, calls))
    (haccepted : Accepted hash kv (finish streams calls).calls answers) :
    ∃ kv' b, setBlocks hash kv ((finish streams calls).calls.zip answers) = some kv' ∧
      streams[p]? = some b ∧
      (SizesExact hash fuel kv' (shuffleBlockName shuffleId mapId p) b
          (finish streams calls).partitionLengths[p]?
          (blocksOfPartition (finish streams calls) (shuffleBlockName shuffleId mapId p)) ↔
        blocksOfPartition (finish streams calls) (shuffleBlockName shuffleId mapId p) ≠ [] ∧
          (blocksOfPartition (finish streams calls)
            (shuffleBlockName shuffleId mapId p)).length < 2 ^ 30 ∧
          (handedOver (blocksOfPartition (finish streams calls)
            (shuffleBlockName shuffleId mapId p))).length < 2 ^ 31) := by
  obtain ⟨kv₁, hrun₁, hholds⟩ := run_holds hroot (by omega) hok
  rw [hkv, Option.some.injEq] at hrun₁
  subst hrun₁
  obtain ⟨kv', hset, hholds'⟩ := haccepted.holds hholds
  obtain ⟨b, hb, hsize, hlength⟩ := sizes_of_writer hrun hp
  have hfin := runStreams_finishes (fun p _ q _ heq => (shuffleBlockName_inj heq).2.2) hrun
  have hnone : storedUnder hash (live history) (shuffleBlockName shuffleId mapId p) = [] :=
    storedUnder_fresh hinj (fun put hput => hused put (mem_of_mem_live hput)) (hnames p hp)
      fun put hput => hfresh put (mem_of_mem_live hput)
  -- the blocks that the store has under the name are those that the writer flushed
  have hvalues : (storedUnder hash (live history ++ putCalls (finish streams calls).calls answers)
      (shuffleBlockName shuffleId mapId p)).map PutCall.value =
        (blocksOfPartition (finish streams calls) (shuffleBlockName shuffleId mapId p)).map
          SetBlock.value := by
    rw [storedUnder_of_keys hfin.keys (fun p hp q hq heq =>
      (shuffleBlockName_inj (hinj (hnames p hp) (hnames q hq) heq)).2.2) (live history)
      haccepted.length hp, hnone]
    rfl
  have hbytes : storedBytes hash (live history ++ putCalls (finish streams calls).calls answers)
      (shuffleBlockName shuffleId mapId p) =
        handedOver (blocksOfPartition (finish streams calls)
          (shuffleBlockName shuffleId mapId p)) := by
    rw [storedBytes, hvalues, handedOver, List.flatMap_def]
  have hcount := congrArg List.length hvalues
  rw [List.length_map, List.length_map] at hcount
  have hlive := length_live_le history
  have hfuel' : (live history ++ putCalls (finish streams calls).calls answers).length ≤ fuel := by
    rw [List.length_append, putCalls, List.length_map, List.length_zip]
    omega
  have hopens := opens_iff (k := shuffleBlockName shuffleId mapId p) hholds'.indexHolds hfuel' (by
    intro call hcall
    rw [storedUnder_append, hnone, List.nil_append] at hcall
    exact value_ne_of_putCalls hfin.value_ne call (List.mem_of_mem_filter hcall))
  have hstored := getPartitionSize_eq hholds'.indexHolds (shuffleBlockName shuffleId mapId p)
  rw [hbytes] at hopens hstored
  rw [← List.length_pos_iff, hcount, List.length_pos_iff] at hopens
  refine ⟨kv', b, hset, hb, fun h => hopens.mp h.reader, fun h => ⟨hstored, ?_, ?_, hopens.mpr h⟩⟩
  · rw [hsize, wrap32_of_fits (by omega) (by omega)]
  · rw [hlength, wrap32_of_fits (by omega) (by omega)]

/-- The partition of the even bytes. -/
theorem sizes_exact_sample :
    ∃ streams calls kv' b,
      runStreams byteSerializer 4194304 (shuffleBlockName 0 0) (fun _ _ => 0) 2
        (recordOps (fun k => k.toNat % 2) [(1, ()), (2, ()), (3, ())] ++ forceOps 2) =
          .ok (streams, calls) ∧
      setBlocks shuffleHash (Pmemkv.create sampleService 4096)
        ((finish streams calls).calls.zip shuffleAnswers) = some kv' ∧
      streams[0]? = some b ∧
      SizesExact shuffleHash 2 kv' (shuffleBlockName 0 0 0) b
        (finish streams calls).partitionLengths[0]?
        (blocksOfPartition (finish streams calls) (shuffleBlockName 0 0 0)) := by
  have hcalls : (runStreams byteSerializer 4194304 (shuffleBlockName 0 0) (fun _ _ => 0) 2
      (recordOps (fun k => k.toNat % 2) [(1, ()), (2, ()), (3, ())] ++ forceOps 2)).toOption.map
        (fun r => (finish r.1 r.2).calls) =
          some [⟨"shuffle_0_0_0", [2], true⟩, ⟨"shuffle_0_0_1", [1, 3], true⟩] := by
    decide
  obtain ⟨r, hr, hout⟩ := Option.map_eq_some_iff.mp hcalls
  have hrun := ok_of_toOption hr
  have hblocks : blocksOfPartition (finish r.1 r.2) (shuffleBlockName 0 0 0) =
      [⟨"shuffle_0_0_0", [2], true⟩] := by
    rw [blocksOfPartition, hout]
    decide
  obtain ⟨kv', b, hset, hb, hiff⟩ := sizes_exact_iff shuffleHash 2 sampleService 4096 [] _
    {"shuffle_0_0_0", "shuffle_0_0_1"} byteSerializer 4194304 (fun k => k.toNat % 2) 0 0 2
    (fun _ _ => 0) [(1, ()), (2, ()), (3, ())] r.1 r.2 shuffleAnswers 0 (by decide) (by decide)
    trivial rfl shuffleHash_injOn (by simp) (by
      intro p hp
      obtain rfl | rfl : p = 0 ∨ p = 1 := by omega
      · exact .inl (by decide)
      · exact .inr (by decide))
    (by decide) (by simp) hrun (by rw [hout]; exact ⟨rfl, by decide⟩)
  refine ⟨r.1, r.2, kv', b, hrun, hset, hb, hiff.mpr ?_⟩
  rw [hblocks]
  exact ⟨by decide, by decide, by decide⟩

/-- `2 ^ 31` records of one byte, all in one partition, in blocks of 4 MiB: the stream and the
`MapStatus` say a negative size, whatever the store does. -/
theorem size_wraps :
    ∃ streams calls b,
      runStreams byteSerializer 4194304 (shuffleBlockName 0 0) (fun _ _ => 0) 1
        (recordOps (fun _ => 0) (List.replicate 2147483648 (0, ())) ++ forceOps 1) =
          .ok (streams, calls) ∧
      streams[0]? = some b ∧
      (handedOver (blocksOfPartition (finish streams calls) (shuffleBlockName 0 0 0))).length =
        2147483648 ∧
      b.getSize = -2147483648 ∧
      (finish streams calls).partitionLengths[0]? = some (-2147483648) ∧
      ∀ (hash : String → UInt64) (fuel : Nat) (kv : Pmemkv),
        ¬SizesExact hash fuel kv (shuffleBlockName 0 0 0) b
          (finish streams calls).partitionLengths[0]?
          (blocksOfPartition (finish streams calls) (shuffleBlockName 0 0 0)) := by
  have hlt : ∀ c ∈ recordOps (fun _ => 0) (List.replicate 2147483648 ((0 : UInt8), ())) ++
      forceOps 1, c.1 < 1 := by
    intro c hc
    rcases List.mem_append.mp hc with hrecord | hforce
    · obtain ⟨record, _, rfl⟩ := List.mem_map.mp hrecord
      exact Nat.zero_lt_one
    · obtain ⟨q, hq, rfl⟩ := List.mem_map.mp hforce
      exact List.mem_range.mp hq
  obtain ⟨⟨streams, calls⟩, hrun⟩ := (runStreams_ok_iff byteSerializer 4194304
    (shuffleBlockName 0 0) (fun _ _ => 0) 1 _).mpr ⟨hlt, fun p _ => fits_byteSerializer _⟩
  obtain ⟨b, hb, hsize, hlength⟩ := sizes_of_writer hrun Nat.zero_lt_one
  have htotal : (handedOver (blocksOfPartition (finish streams calls)
      (shuffleBlockName 0 0 0))).length = 2147483648 := by
    have hcount := (runStreams_finishes (fun p _ q _ heq => (shuffleBlockName_inj heq).2.2)
      hrun).count 0 Nat.zero_lt_one
    rw [opsAt_write _ _ Nat.zero_lt_one, length_emitted_bytes, List.length_replicate] at hcount
    exact hcount
  have hwrap : wrap32 ((2147483648 : Nat) : Int) = -2147483648 := by
    unfold wrap32
    omega
  rw [htotal, hwrap] at hsize hlength
  refine ⟨streams, calls, b, hrun, hb, htotal, hsize, hlength, fun hash fuel kv hexact => ?_⟩
  have hgood := hexact.getSize
  rw [hsize, htotal] at hgood
  omega

end SparkNvm.Shuffle
