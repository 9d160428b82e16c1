import SparkNvm.Shuffle.Writer
import SparkNvm.Storage.InputStream

/-!
# What a reader gets back

`nvmShuffleWriter.write` and then `nvmInputStream` on each of its blocks.

* `Returned` says for one partition that the reported length is the number of bytes that
  the serializer emitted, and that they are what a reader gets.
* `returned_iff`: a written partition is returned exactly if it has fewer than `2 ^ 30` blocks
  and fewer than `2 ^ 31` bytes.
* `round_trip_iff`: all partitions are returned exactly if moreover they fit into the staging
  buffer.
-/

namespace SparkNvm.Shuffle

open Lib Native Storage

section

variable {K V S : Type}

/-- The partition is reported and read back as it was written. -/
def Returned (hash : String → UInt64) (fuel : Nat) (kv : Pmemkv)
    (ser : SerializerInstance (K × V) S)
    (deserialize : List UInt8 → List (K × V)) (getPartition : K → Nat) (shuffleId mapId : Nat)
    (records : List (K × V)) (out : MapOutput) (p : Nat) : Prop :=
  ∃ length : Int, out.partitionLengths[p]? = some length ∧
    length = (emitted ser (partitionOps getPartition records p)).length ∧
    (0 < length →
      OpensWith hash fuel kv (shuffleBlockName shuffleId mapId p)
        (emitted ser (partitionOps getPartition records p)) ∧
      deserialize (emitted ser (partitionOps getPartition records p)) =
        partitionRecords getPartition records p) ∧
    (length = 0 → partitionRecords getPartition records p = [])

variable {hash : String → UInt64} {fuel : Nat} {kv kv' : Pmemkv} {puts : List PutCall}
variable {ser : SerializerInstance (K × V) S} {t : Int} {deserialize : List UInt8 → List (K × V)}
variable {getPartition : K → Nat} {shuffleId mapId n p : Nat} {data : Nat → Mem}
variable {records : List (K × V)} {out : MapOutput} {answers : List PutAnswers} {used : Set String}

theorem getLast?_partitionOps (getPartition : K → Nat) (records : List (K × V)) (p : Nat) :
    (partitionOps getPartition records p).getLast? = some (.maybeSpill true) :=
  List.getLast?_concat

/-- The reported length is the number of bytes modulo `2 ^ 32`. -/
theorem partitionLengths_eq
    (h : write ser t getPartition shuffleId mapId n data records = .ok out) (hp : p < n) :
    out.partitionLengths[p]? =
      some (wrap32 (emitted ser (partitionOps getPartition records p)).length) := by
  have hlength := (writeWith_finishes h).lengths p hp
  rw [opsAt_write getPartition records hp] at hlength
  exact hlength _ (getLast?_partitionOps getPartition records p) rfl

/-- How many blocks a partition has. -/
theorem write_blockCount (hser : ser.Lawful)
    (h : write ser t getPartition shuffleId mapId n data records = .ok out) (hp : p < n) :
    (out.calls.filter fun call => call.key = shuffleBlockName shuffleId mapId p).length =
      blockCount ser t (partitionOps getPartition records p) := by
  have hlast := getLast?_partitionOps getPartition records p
  rw [← opsAt_write getPartition records hp] at hlast ⊢
  exact writeWith_blockCount hser h hp hlast rfl

/-- What a block holds after the writer has finished. -/
theorem storedBytes_write (puts : List PutCall) (hser : ser.Lawful) (hinj : Set.InjOn hash used)
    (hnames : ∀ p < n, shuffleBlockName shuffleId mapId p ∈ used)
    (h : write ser t getPartition shuffleId mapId n data records = .ok out)
    (hlen : answers.length = out.calls.length) (hp : p < n) :
    storedBytes hash (puts ++ putCalls out.calls answers) (shuffleBlockName shuffleId mapId p) =
      storedBytes hash puts (shuffleBlockName shuffleId mapId p) ++
        emitted ser (partitionOps getPartition records p) := by
  have hfin := writeWith_finishes h
  have hbytes := hfin.bytes hser p hp
  rw [opsAt_write getPartition records hp] at hbytes
  rw [hfin.storedBytes (fun p hp q hq heq =>
    (shuffleBlockName_inj (hinj (hnames p hp) (hnames q hq) heq)).2.2) puts hlen hp, hbytes]

/-- Nothing is stored under a name that no put used. -/
theorem storedUnder_fresh (hinj : Set.InjOn hash used) (hputs : ∀ put ∈ puts, put.key ∈ used)
    {k : String} (hk : k ∈ used) (hfresh : ∀ put ∈ puts, put.key ≠ k) :
    storedUnder hash puts k = [] := by
  rw [storedUnder, List.filter_eq_nil_iff]
  intro put hput
  rw [decide_eq_true_eq]
  exact fun heq => hfresh put hput (hinj (hputs put hput) hk heq)

/-- The blocks of a partition that was not stored before, after the writer has finished. -/
theorem storedUnder_write (hser : ser.Lawful) (hinj : Set.InjOn hash used)
    (hnames : ∀ p < n, shuffleBlockName shuffleId mapId p ∈ used)
    (hnone : storedUnder hash puts (shuffleBlockName shuffleId mapId p) = [])
    (h : write ser t getPartition shuffleId mapId n data records = .ok out)
    (hlen : answers.length = out.calls.length) (hp : p < n) :
    (storedUnder hash (puts ++ putCalls out.calls answers)
        (shuffleBlockName shuffleId mapId p)).length =
      blockCount ser t (partitionOps getPartition records p) ∧
    ∀ call ∈ storedUnder hash (puts ++ putCalls out.calls answers)
      (shuffleBlockName shuffleId mapId p), call.value ≠ [] := by
  have hfin := writeWith_finishes h
  have hvalues := storedUnder_of_keys hfin.keys (fun p hp q hq heq =>
    (shuffleBlockName_inj (hinj (hnames p hp) (hnames q hq) heq)).2.2) puts hlen hp
  have hblocks := write_blockCount hser h hp
  have hcount := congrArg List.length hvalues
  rw [hnone, List.length_map] at hcount
  constructor
  · rw [hcount, ← hblocks]
    exact List.length_map _
  · intro call hcall
    rw [storedUnder_append, hnone, List.nil_append] at hcall
    exact value_ne_of_putCalls hfin.value_ne call (List.mem_of_mem_filter hcall)

/-- A reader of the block of a partition gets all that was emitted, exactly if there is a block,
and the sizes are small enough. -/
theorem opens_write_iff (hser : ser.Lawful) (hinj : Set.InjOn hash used)
    (hnames : ∀ p < n, shuffleBlockName shuffleId mapId p ∈ used)
    (hnone : storedUnder hash puts (shuffleBlockName shuffleId mapId p) = [])
    (h : write ser t getPartition shuffleId mapId n data records = .ok out)
    (hlen : answers.length = out.calls.length)
    (hholds : Holds hash kv' (puts ++ putCalls out.calls answers))
    (hfuel : puts.length + answers.length ≤ fuel) (hp : p < n) :
    OpensWith hash fuel kv' (shuffleBlockName shuffleId mapId p)
        (emitted ser (partitionOps getPartition records p)) ↔
      blockCount ser t (partitionOps getPartition records p) ≠ 0 ∧
        blockCount ser t (partitionOps getPartition records p) < 2 ^ 30 ∧
        (emitted ser (partitionOps getPartition records p)).length < 2 ^ 31 := by
  have hbytes := storedBytes_write puts hser hinj hnames h hlen hp
  rw [show storedBytes hash puts (shuffleBlockName shuffleId mapId p) = [] by
    rw [storedBytes, hnone]; rfl, List.nil_append] at hbytes
  obtain ⟨hcount, hvalues⟩ := storedUnder_write hser hinj hnames hnone h hlen hp
  have hfuel' : (puts ++ putCalls out.calls answers).length ≤ fuel := by
    rw [List.length_append, putCalls, List.length_map, List.length_zip]
    omega
  have hopens := opens_iff hholds.indexHolds hfuel' hvalues
  rw [← hbytes]
  rw [hcount, ← List.length_pos_iff, hcount, Nat.pos_iff_ne_zero] at hopens
  exact hopens

/-- A partition has a block exactly if it has a byte. -/
theorem blockCount_eq_zero_iff (hser : ser.Lawful)
    (h : write ser t getPartition shuffleId mapId n data records = .ok out) (hp : p < n) :
    blockCount ser t (partitionOps getPartition records p) = 0 ↔
      (emitted ser (partitionOps getPartition records p)).length = 0 := by
  have hfin := writeWith_finishes h
  have hcount := hfin.count p hp
  rw [opsAt_write getPartition records hp] at hcount
  rw [← hcount, ← write_blockCount hser h hp, handedOver]
  constructor
  · intro hzero
    rw [List.length_eq_zero_iff.mp hzero]
    rfl
  · intro hzero
    rw [List.length_eq_zero_iff, List.flatMap_eq_nil_iff] at hzero
    rw [List.length_eq_zero_iff, List.eq_nil_iff_forall_not_mem]
    exact fun call hcall =>
      hfin.value_ne call (List.mem_of_mem_filter hcall) (hzero call hcall)

/-- A written partition is returned exactly if its sizes are small enough. -/
theorem returned_iff (hser : ser.RoundTrips deserialize) (hinj : Set.InjOn hash used)
    (hnames : ∀ p < n, shuffleBlockName shuffleId mapId p ∈ used)
    (hnone : storedUnder hash puts (shuffleBlockName shuffleId mapId p) = [])
    (h : write ser t getPartition shuffleId mapId n data records = .ok out)
    (hlen : answers.length = out.calls.length)
    (hholds : Holds hash kv' (puts ++ putCalls out.calls answers))
    (hfuel : puts.length + answers.length ≤ fuel) (hp : p < n) :
    Returned hash fuel kv' ser deserialize getPartition shuffleId mapId records out p ↔
      blockCount ser t (partitionOps getPartition records p) < 2 ^ 30 ∧
        (emitted ser (partitionOps getPartition records p)).length < 2 ^ 31 := by
  have hopens := opens_write_iff hser.lawful hinj hnames hnone h hlen hholds hfuel hp
  have hzero := blockCount_eq_zero_iff hser.lawful h hp
  constructor
  · rintro ⟨length, hget, hlength, hread, _⟩
    rw [partitionLengths_eq h hp, Option.some.injEq] at hget
    have hlt := wrap32_le (emitted ser (partitionOps getPartition records p)).length
    refine ⟨?_, by omega⟩
    by_cases hpos : 0 < length
    · exact (hopens.mp (hread hpos).1).2.1
    · rw [hzero.mpr (by omega)]
      exact Nat.two_pow_pos 30
  · rintro ⟨hcount, hsmall⟩
    have hread := hser.deserialize_emitted ((partitionRecords getPartition records p).map .write)
    have hbyte := hser.byte_per_record ((partitionRecords getPartition records p).map .write)
    rw [recordsOf_writes] at hread hbyte
    refine ⟨_, partitionLengths_eq h hp, wrap32_of_fits (by omega) (by omega), fun hpos => ?_,
      fun hnil => ?_⟩
    · rw [wrap32_of_fits (by omega) (by omega)] at hpos
      exact ⟨hopens.mpr ⟨fun hblocks => by omega, hcount, hsmall⟩, hread⟩
    · rw [wrap32_of_fits (by omega) (by omega)] at hnil
      have hlength : (partitionRecords getPartition records p).length = 0 := by
        rw [partitionOps] at hnil
        omega
      exact List.length_eq_zero_iff.mp hlength

end

/-- For every record sequence, every partitioner, every throttle and every store that
never held the blocks of this map task: the writer finishes, reports the number of bytes
that each partition's serializer emitted, and a reader gets back exactly these bytes, in
order, exactly if before every call the bytes staged since the last spill and the bytes
that the serializer adds fit into the 6 MiB buffer, and every partition stays below
`2 ^ 30` blocks and `2 ^ 31` bytes. -/
theorem round_trip_iff {K V S : Type} (hash : String → UInt64) (fuel : Nat) (s : Service)
    (root : Nat) (ops : List Op) (kv : Pmemkv) (used : Set String)
    (ser : SerializerInstance (K × V) S) (deserialize : List UInt8 → List (K × V)) (t : Int)
    (getPartition : K → Nat) (shuffleId mapId n : Nat) (data : Nat → Mem) (records : List (K × V))
    (answers : List PutAnswers)
    (hroot : s.Grants sizeofBase root) (hfuel : ops.length + answers.length ≤ fuel)
    (hok : Admissible (Pmemkv.step hash fuel) (Pmemkv.Ok hash) (Pmemkv.create s root) ops)
    (hkv : run (Pmemkv.step hash fuel) (Pmemkv.create s root) ops = some kv)
    (hinj : Set.InjOn hash used) (hused : ∀ call, Op.put call ∈ ops → call.key ∈ used)
    (hnames : ∀ p < n, shuffleBlockName shuffleId mapId p ∈ used)
    (hfresh : ∀ call, Op.put call ∈ ops → ∀ p < n, call.key ≠ shuffleBlockName shuffleId mapId p)
    (hser : ser.RoundTrips deserialize)
    (hpart : ∀ record ∈ records, getPartition record.1 < n)
    (haccepted : ∀ out, write ser t getPartition shuffleId mapId n data records = .ok out →
      Accepted hash kv out.calls answers) :
    (∃ out kv', write ser t getPartition shuffleId mapId n data records = .ok out ∧
      setBlocks hash kv (out.calls.zip answers) = some kv' ∧
      ∀ p < n, Returned hash fuel kv' ser deserialize getPartition shuffleId mapId records out p) ↔
    ∀ p < n, Fits ser t (partitionOps getPartition records p) ∧
      blockCount ser t (partitionOps getPartition records p) < 2 ^ 30 ∧
      (emitted ser (partitionOps getPartition records p)).length < 2 ^ 31 := by
  obtain ⟨kv₁, hrun, hholds⟩ := run_holds hroot (by omega) hok
  rw [hkv, Option.some.injEq] at hrun
  subst hrun
  have hreturned : ∀ out, write ser t getPartition shuffleId mapId n data records = .ok out →
      ∃ kv', setBlocks hash kv (out.calls.zip answers) = some kv' ∧ ∀ p < n,
        (Returned hash fuel kv' ser deserialize getPartition shuffleId mapId records out p ↔
          blockCount ser t (partitionOps getPartition records p) < 2 ^ 30 ∧
            (emitted ser (partitionOps getPartition records p)).length < 2 ^ 31) := by
    intro out hwrite
    have ha := haccepted out hwrite
    obtain ⟨kv', hset, hholds'⟩ := ha.holds hholds
    refine ⟨kv', hset, fun p hp => ?_⟩
    have hlive := length_live_le ops
    have hnone := storedUnder_fresh hinj (fun put hput => hused put (mem_of_mem_live hput))
      (hnames p hp) fun put hput => hfresh put (mem_of_mem_live hput) p hp
    exact returned_iff hser hinj hnames hnone hwrite ha.length hholds' (by omega) hp
  constructor
  · rintro ⟨out, kv', hwrite, hset, hall⟩ p hp
    obtain ⟨kv₂, hset₂, hiff⟩ := hreturned out hwrite
    rw [hset, Option.some.injEq] at hset₂
    rw [← hset₂] at hiff
    exact ⟨(write_ok_iff ser t shuffleId mapId data hpart).mp ⟨out, hwrite⟩ p hp,
      (hiff p hp).mp (hall p hp)⟩
  · intro hall
    obtain ⟨out, hwrite⟩ := (write_ok_iff ser t shuffleId mapId data
      hpart).mpr fun p hp => (hall p hp).1
    obtain ⟨kv', hset, hiff⟩ := hreturned out hwrite
    exact ⟨out, kv', hwrite, hset, fun p hp => (hiff p hp).mpr (hall p hp).2⟩

/-! ## A serializer of arrays -/

/-- Every record is written as one array, and nothing else is. -/
def arraySerializer {R : Type} (encode : R → List UInt8) : SerializerInstance R Unit where
  start := ((), [])
  write _ record := ((), [.array (encode record)])
  flush _ := ((), [.flush])

theorem arraySerializer_lawful {R : Type} (encode : R → List UInt8) :
    (arraySerializer encode).Lawful :=
  ⟨⟨[], rfl⟩, fun _ record => ⟨[encode record], rfl⟩, fun _ => ⟨[], 1, rfl⟩⟩

theorem emitted_arraySerializer {R : Type} (encode : R → List UInt8) (ops : List (BlockOp R)) :
    emitted (arraySerializer encode) ops = (recordsOf ops).flatMap encode := by
  show emittedFrom (arraySerializer encode) () ops = _
  induction ops with
  | nil => rfl
  | cons op ops ih =>
    cases op with
    | write record =>
      rw [emittedFrom,
        show ((BlockOp.write record).emits (arraySerializer encode) ()).1 = () from rfl, ih]
      show (encode record ++ []) ++ _ = _
      rw [List.append_nil]
      rfl
    | maybeSpill force =>
      rw [emittedFrom,
        show ((BlockOp.maybeSpill force).emits (arraySerializer encode) ()).1 = () from rfl, ih]
      cases force with
      | false => rfl
      | true => rfl

theorem arraySerializer_roundTrips {R : Type} {encode : R → List UInt8}
    {deserialize : List UInt8 → List R}
    (hread : ∀ records, deserialize (records.flatMap encode) = records)
    (hne : ∀ record, encode record ≠ []) :
    (arraySerializer encode).RoundTrips deserialize := by
  have hforce : ∀ ops : List (BlockOp R),
      recordsOf (ops ++ [.maybeSpill true]) = recordsOf ops := by
    intro ops
    rw [recordsOf, List.filterMap_append]
    exact List.append_nil _
  constructor
  · exact arraySerializer_lawful encode
  · intro ops
    rw [emitted_arraySerializer, hforce, hread]
  · intro ops
    rw [emitted_arraySerializer, hforce]
    induction recordsOf ops with
    | nil => exact Nat.zero_le _
    | cons record records ih =>
      have hpos := List.length_pos_of_ne_nil (hne record)
      rw [List.flatMap_cons, List.length_append, List.length_cons]
      omega

/-- A record is one byte, and so is its serialization. -/
def byteSerializer : SerializerInstance (UInt8 × Unit) Unit where
  start := ((), [])
  write _ record := ((), [.array [record.1]])
  flush _ := ((), [.flush])

theorem emitted_byteSerializer (ops : List (BlockOp (UInt8 × Unit))) :
    emitted byteSerializer ops = (recordsOf ops).map Prod.fst := by
  show emitted (arraySerializer fun record => [record.1]) ops = _
  rw [emitted_arraySerializer, List.map_eq_flatMap]

theorem byteSerializer_roundTrips :
    byteSerializer.RoundTrips fun bytes => bytes.map fun b => (b, ()) := by
  refine arraySerializer_roundTrips (fun records => ?_)
    fun record => List.cons_ne_nil _ _
  rw [← List.map_eq_flatMap, List.map_map]
  exact List.map_id _

/-- `maybeSpill` leaves less than the throttle in the buffer. -/
theorem spill_low {g : Staging} {force : Bool}
    (h : force = true ∨ g.position = g.remaining) :
    (g.spill 4194304 force).position = (g.spill 4194304 force).remaining ∧
      (g.spill 4194304 force).position < 4194304 := by
  rw [Staging.spill]
  split
  · exact ⟨rfl, Nat.zero_lt_succ _⟩
  · rename_i hnot
    rw [not_or] at hnot
    have hsame := h.resolve_left hnot.2
    have hlow : ¬(4194304 : Int) ≤ g.remaining := fun hle => hnot.1 ⟨by decide, hle⟩
    exact ⟨hsame, by omega⟩

/-- Single bytes always fit: the throttle rewinds the buffer before it is full. -/
theorem admissible_byteSerializer (ops : List (BlockOp (UInt8 × Unit))) {a : Account Unit}
    (hsame : a.staging.position = a.staging.remaining) (hlow : a.staging.position < 4194304) :
    Admissible (fun a op => some (Account.next byteSerializer 4194304 a op))
      (Account.HasRoom byteSerializer) a ops := by
  induction ops generalizing a with
  | nil => trivial
  | cons op ops ih =>
    have hroom : a.staging.position + 1 ≤ bufferLength := by
      rw [bufferLength]
      omega
    have hstep : a.HasRoom byteSerializer op ∧
        (op.force = true ∨ (a.staging.emitAll (op.emits byteSerializer a.obj).2).position =
          (a.staging.emitAll (op.emits byteSerializer a.obj).2).remaining) := by
      cases op with
      | write record => exact ⟨hroom, .inr (congrArg (· + 1) hsame)⟩
      | maybeSpill force =>
        cases force with
        | false => exact ⟨Nat.le_of_succ_le hroom, .inr hsame⟩
        | true => exact ⟨Nat.le_of_succ_le hroom, .inl rfl⟩
    obtain ⟨hsame', hlow'⟩ := spill_low hstep.2
    exact ⟨hstep.1, fun a' ha' => by
      rw [← Option.some.inj ha']
      exact ih hsame' hlow'⟩

theorem fits_byteSerializer (ops : List (BlockOp (UInt8 × Unit))) :
    Fits byteSerializer 4194304 ops :=
  ⟨Nat.zero_le _, admissible_byteSerializer ops rfl (by decide)⟩

/-- All records in one partition take one byte each. -/
theorem length_emitted_bytes (records : List (UInt8 × Unit)) :
    (emitted byteSerializer (partitionOps (fun _ => 0) records 0)).length = records.length := by
  have hall : partitionRecords (fun _ => 0) records 0 = records :=
    List.filter_eq_self.mpr fun _ _ => rfl
  rw [emitted_byteSerializer, List.length_map, partitionOps, recordsOf, List.filterMap_append,
    ← recordsOf, recordsOf_writes, hall]
  exact congrArg List.length (List.append_nil _)

/-! ## A sample run -/

/-- `xxh::xxhash<64>` on some names of blocks. -/
def shuffleHash : String → UInt64 := fun key =>
  if key = "shuffle_0_0_0" then 0x3d4e7efaebc2a367
  else if key = "shuffle_0_0_1" then 0x2af02f03ba757c09
  else if key = "shuffle_1_0_0" then 0xba5e317b43ceb46b
  else 0x2db8a6c2a9a0bead

/-- The answers to two puts into an empty store. -/
def shuffleAnswers : List PutAnswers :=
  [{ entry := 8192, data := 8224, metaPtr := 16, listPtr := 32 },
    { entry := 8256, data := 8288, metaPtr := 64, listPtr := 96 }]

theorem shuffleHash_injOn : Set.InjOn shuffleHash {"shuffle_0_0_0", "shuffle_0_0_1"} := by
  intro k hk k' hk' heq
  rcases hk with rfl | rfl <;> rcases hk' with rfl | rfl
  · rfl
  · exact absurd heq (by decide)
  · exact absurd heq (by decide)
  · rfl

theorem round_trip_sample :
    (∃ out kv', write byteSerializer 4194304 (fun k => k.toNat % 2) 0 0 2 (fun _ _ => 0)
        [(1, ()), (2, ()), (3, ())] = .ok out ∧
      setBlocks shuffleHash (Pmemkv.create sampleService 4096) (out.calls.zip shuffleAnswers) =
        some kv' ∧
      ∀ p < 2, Returned shuffleHash 2 kv' byteSerializer (fun bytes => bytes.map fun b => (b, ()))
        (fun k => k.toNat % 2) 0 0 [(1, ()), (2, ()), (3, ())] out p) ↔
    ∀ p < 2, Fits byteSerializer 4194304
        (partitionOps (fun k => k.toNat % 2) [(1, ()), (2, ()), (3, ())] p) ∧
      blockCount byteSerializer 4194304
        (partitionOps (fun k => k.toNat % 2) [(1, ()), (2, ()), (3, ())] p) < 2 ^ 30 ∧
      (emitted byteSerializer
        (partitionOps (fun k => k.toNat % 2) [(1, ()), (2, ()), (3, ())] p)).length < 2 ^ 31 := by
  refine round_trip_iff shuffleHash 2 sampleService 4096 [] _ {"shuffle_0_0_0", "shuffle_0_0_1"}
    byteSerializer _ 4194304 _ 0 0 2 _ _ shuffleAnswers (by decide) (by decide) trivial rfl
    shuffleHash_injOn (by simp) ?_ (by simp) byteSerializer_roundTrips
    (fun _ _ => Nat.mod_lt _ (by decide)) ?_
  · intro p hp
    obtain rfl | rfl : p = 0 ∨ p = 1 := by omega
    · exact .inl (by decide)
    · exact .inr (by decide)
  · intro out hout
    have hcalls : (write byteSerializer 4194304 (fun k => k.toNat % 2) 0 0 2 (fun _ _ => 0)
        [(1, ()), (2, ()), (3, ())]).toOption.map MapOutput.calls =
          some [⟨"shuffle_0_0_0", [2], true⟩, ⟨"shuffle_0_0_1", [1, 3], true⟩] := by
      decide
    rw [map_of_toOption hout hcalls]
    exact ⟨rfl, by decide⟩

/-- `2 ^ 31` records of one byte, all in one partition: the writer finishes and reports a
negative length. -/
theorem length_wraps :
    ∃ out, write byteSerializer 4194304 (fun _ => 0) 0 0 1 (fun _ _ => 0)
        (List.replicate 2147483648 (0, ())) = .ok out ∧
      out.partitionLengths[0]? = some (-2147483648) ∧
      (emitted byteSerializer (partitionOps (fun _ => 0)
        (List.replicate 2147483648 (0, ())) 0)).length = 2147483648 := by
  obtain ⟨out, hwrite⟩ := (write_ok_iff (n := 1) byteSerializer 4194304 0 0 (fun _ _ => 0)
    (fun _ _ => Nat.zero_lt_one)).mpr fun p _ => fits_byteSerializer (partitionOps (fun _ => 0)
      (List.replicate 2147483648 (0, ())) p)
  have hreport := partitionLengths_eq hwrite Nat.zero_lt_one
  rw [length_emitted_bytes, List.length_replicate] at hreport
  refine ⟨out, hwrite, ?_, by rw [length_emitted_bytes, List.length_replicate]⟩
  rw [hreport, Option.some.injEq, wrap32]
  omega

end SparkNvm.Shuffle
