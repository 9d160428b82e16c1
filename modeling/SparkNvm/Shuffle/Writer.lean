import SparkNvm.Shuffle.StreamArray
import SparkNvm.Storage.BlockId
import SparkNvm.Storage.Handler

/-!
# `nvmShuffleWriter`

The writer of a map task without map-side combine: every record goes to the block stream
of its partition, and at the end every stream is flushed and closed.

* `write` and what it reports, as in the source.
* `write_ok_iff` and `writeWith_finishes`: when the writer finishes, and what it hands
  over and reports for each partition.
* `writeWith_blockCount`: how many blocks it hands over for a partition.
* `Accepted` and `Finishes.storedBytes`: the store after the calls.
-/

namespace SparkNvm.Shuffle

open Lib Native Storage

/-! ## The writer -/

/-- What `write` leaves: the lengths of the `MapStatus` and the calls of `setPartition`
that it made. -/
structure MapOutput where
  partitionLengths : List Int
  calls : List SetBlock

section

variable {K V S : Type}

/-- The loop over the records. -/
def recordOps (getPartition : K → Nat) (records : List (K × V)) : List (Nat × BlockOp (K × V)) :=
  records.map fun record => (getPartition record.1, .write record)

/-- The loop that forces every stream. -/
def forceOps (numPartitions : Nat) : List (Nat × BlockOp (K × V)) :=
  (List.range numPartitions).map fun partitionId => (partitionId, .maybeSpill true)

/-- The rest of `write`: the lengths of the spilled streams, then `close`. -/
def finish (streams : List (NvmBlockOutputStream S)) (calls : List SetBlock) : MapOutput where
  partitionLengths := streams.map fun b => if b.spilled then b.size else 0
  calls := calls ++ streams.flatMap fun b => b.close.2

/-- `write(records)` with the calls on the streams that the chosen branch makes. -/
def writeWith {R : Type} (ser : SerializerInstance R S) (t : Int)
    (shuffleId mapId numPartitions : Nat) (data : Nat → Mem) (ops : List (Nat × BlockOp R)) :
    Except JavaError MapOutput :=
  (runStreams ser t (shuffleBlockName shuffleId mapId) data numPartitions ops).map fun r =>
    finish r.1 r.2

/-- `write(records)` without map-side combine. -/
def write (ser : SerializerInstance (K × V) S) (t : Int) (getPartition : K → Nat)
    (shuffleId mapId numPartitions : Nat) (data : Nat → Mem) (records : List (K × V)) :
    Except JavaError MapOutput :=
  writeWith ser t shuffleId mapId numPartitions data
    (recordOps getPartition records ++ forceOps numPartitions)

/-! ## One partition -/

/-- The records of a partition, in input order. -/
def partitionRecords (getPartition : K → Nat) (records : List (K × V)) (p : Nat) : List (K × V) :=
  records.filter fun record => getPartition record.1 = p

/-- The calls on the stream of a partition. -/
def partitionOps (getPartition : K → Nat) (records : List (K × V)) (p : Nat) :
    List (BlockOp (K × V)) :=
  (partitionRecords getPartition records p).map .write ++ [.maybeSpill true]

theorem opsAt_recordOps (getPartition : K → Nat) (records : List (K × V)) (p : Nat) :
    opsAt p (recordOps getPartition records) =
      (partitionRecords getPartition records p).map .write := by
  induction records with
  | nil => rfl
  | cons record records ih =>
    rw [recordOps, List.map_cons]
    by_cases hp : getPartition record.1 = p
    · subst hp
      rw [opsAt_cons_self, partitionRecords, List.filter_cons_of_pos (by simp), List.map_cons]
      exact congrArg _ ih
    · rw [opsAt_cons_ne hp, partitionRecords, List.filter_cons_of_neg (by simpa using hp)]
      exact ih

theorem opsAt_forceOps (n p : Nat) :
    opsAt p (forceOps n : List (Nat × BlockOp (K × V))) =
      if p < n then [.maybeSpill true] else [] := by
  induction n with
  | zero => rfl
  | succ n ih =>
    have hsucc : (forceOps (n + 1) : List (Nat × BlockOp (K × V))) =
        forceOps n ++ [(n, .maybeSpill true)] := by
      rw [forceOps, List.range_succ, List.map_append]
      rfl
    rw [hsucc, opsAt_append, ih]
    by_cases hp : n = p
    · subst hp
      rw [if_neg (Nat.lt_irrefl _), if_pos (Nat.lt_succ_self _), opsAt_cons_self]
      rfl
    · rw [opsAt_cons_ne hp]
      show _ ++ [] = _
      rw [List.append_nil]
      by_cases hlt : p < n
      · rw [if_pos hlt, if_pos (by omega)]
      · rw [if_neg hlt, if_neg (by omega)]

theorem opsAt_write (getPartition : K → Nat) (records : List (K × V)) {n p : Nat} (hp : p < n) :
    opsAt p (recordOps getPartition records ++ forceOps n) =
      partitionOps getPartition records p := by
  rw [opsAt_append, opsAt_recordOps, opsAt_forceOps, if_pos hp, partitionOps]

/-! ## The end of `write` -/

/-- What the calls on the streams and the end of `write` hand over and report for each
partition. -/
structure Finishes {R : Type} (ser : SerializerInstance R S) (name : Nat → String) (n : Nat)
    (ops : List (Nat × BlockOp R)) (out : MapOutput) : Prop where
  keys : ∀ call ∈ out.calls, ∃ p < n, call.key = name p
  value_ne : ∀ call ∈ out.calls, call.value ≠ []
  count : ∀ p < n, (handedOver (out.calls.filter fun call => call.key = name p)).length =
    (emitted ser (opsAt p ops)).length
  bytes : ser.Lawful → ∀ p < n,
    handedOver (out.calls.filter fun call => call.key = name p) = emitted ser (opsAt p ops)
  idle : ∀ p < n, opsAt p ops = [] → out.partitionLengths[p]? = some 0
  lengths : ∀ p < n, ∀ op, (opsAt p ops).getLast? = some op → op.force = true →
    out.partitionLengths[p]? = some (wrap32 (emitted ser (opsAt p ops)).length)

section

variable {R : Type} {ser : SerializerInstance R S} {t : Int} {name : Nat → String}
variable {data : Nat → Mem} {n : Nat} {ops : List (Nat × BlockOp R)}
variable {r : List (NvmBlockOutputStream S) × List SetBlock}

/-- `close` hands over blocks of the partition only, none of them empty. -/
theorem close_calls (hname : ∀ p < n, ∀ q < n, name p = name q → p = q)
    (h : runStreams ser t name data n ops = .ok r) {p : Nat} {b : NvmBlockOutputStream S}
    (hb : r.1[p]? = some b) : ∀ call ∈ b.close.2, call.key = name p ∧ call.value ≠ [] := by
  intro call hcall
  have hholds := (runStreams_holds hname h).2.2 p b hb
  rw [← hholds.blockId]
  exact hholds.counted.close.2.2 call hcall

/-- The blocks under the name of a partition: those of the calls, then those of `close`. -/
theorem finish_calls_filter (hname : ∀ p < n, ∀ q < n, name p = name q → p = q)
    (h : runStreams ser t name data n ops = .ok r) {p : Nat} {b : NvmBlockOutputStream S}
    (hb : r.1[p]? = some b) :
    (finish r.1 r.2).calls.filter (fun call => call.key = name p) =
      r.2.filter (fun call => call.key = name p) ++ b.close.2 := by
  show (r.2 ++ r.1.flatMap fun b => b.close.2).filter _ = _
  rw [List.filter_append, filter_flatMap_key (by rw [(runStreams_holds hname h).1]; exact hname)
    (fun q c hc call hcall => (close_calls hname h hc call hcall).1) hb]

theorem runStreams_finishes (hname : ∀ p < n, ∀ q < n, name p = name q → p = q)
    (h : runStreams ser t name data n ops = .ok r) :
    Finishes ser name n ops (finish r.1 r.2) := by
  obtain ⟨hlen, hkeys, hall⟩ := runStreams_holds hname h
  have hstream : ∀ p < n, ∃ b, r.1[p]? = some b := fun p hp =>
    ⟨_, List.getElem?_eq_getElem (by rw [hlen]; exact hp)⟩
  have hlt : ∀ {p b}, r.1[p]? = some b → p < n := fun hb => by
    rw [← hlen]
    exact (List.getElem?_eq_some_iff.mp hb).1
  have hreport : ∀ (p : Nat) (b : NvmBlockOutputStream S), r.1[p]? = some b →
      (finish r.1 r.2).partitionLengths[p]? = some (if b.spilled then b.size else 0) := by
    intro p b hb
    show (r.1.map fun b => if b.spilled then b.size else 0)[p]? = _
    rw [List.getElem?_map, hb, Option.map_some]
  constructor
  · intro call hcall
    cases List.mem_append.mp hcall with
    | inl hcall => exact hkeys call hcall
    | inr hcall =>
      obtain ⟨b, hb, hcall⟩ := List.mem_flatMap.mp hcall
      obtain ⟨p, hp⟩ := List.mem_iff_getElem?.mp hb
      exact ⟨p, hlt hp, (close_calls hname h hp call hcall).1⟩
  · intro call hcall
    cases List.mem_append.mp hcall with
    | inl hcall =>
      obtain ⟨p, hp, hkey⟩ := hkeys call hcall
      obtain ⟨b, hb⟩ := hstream p hp
      exact (hall p b hb).counted.value_ne call (List.mem_filter.mpr ⟨hcall, by simpa using hkey⟩)
    | inr hcall =>
      obtain ⟨b, hb, hcall⟩ := List.mem_flatMap.mp hcall
      obtain ⟨p, hp⟩ := List.mem_iff_getElem?.mp hb
      exact (close_calls hname h hp call hcall).2
  · intro p hp
    obtain ⟨b, hb⟩ := hstream p hp
    rw [finish_calls_filter hname h hb]
    exact (hall p b hb).counted.close.1
  · intro hser p hp
    obtain ⟨b, hb⟩ := hstream p hp
    rw [finish_calls_filter hname h hb, (hall p b hb).counted.close.2.1]
    exact ((hall p b hb).stores hser).handedOver_all
  · intro p hp hnil
    obtain ⟨b, hb⟩ := hstream p hp
    rw [hreport p b hb, (hall p b hb).idle hnil, if_neg Bool.false_ne_true]
  · intro p hp op hlast hforce
    obtain ⟨b, hb⟩ := hstream p hp
    have hholds := hall p b hb
    obtain ⟨hrem, hflushed⟩ := hholds.forced op hlast hforce
    have htotal := hholds.counted.total_eq
    have hsize := hholds.counted.size
    rw [hrem, Nat.add_zero] at htotal
    rw [hflushed, Nat.sub_zero, htotal] at hsize
    rw [hreport p b hb]
    cases hspilled : b.spilled with
    | true => rw [if_pos rfl, hsize]
    | false =>
      have hzero : (emitted ser (opsAt p ops)).length = 0 := by
        have hnot := mt hholds.counted.spilled.mpr (by rw [hspilled]; exact Bool.false_ne_true)
        rw [hflushed, htotal] at hnot
        omega
      rw [if_neg Bool.false_ne_true, hzero, Int.natCast_zero, wrap32_zero]

/-- The number of blocks of a partition whose stream was forced at the end. -/
theorem finish_blockCount (hser : ser.Lawful) (hname : ∀ p < n, ∀ q < n, name p = name q → p = q)
    (h : runStreams ser t name data n ops = .ok r) {p : Nat} (hp : p < n) {op : BlockOp R}
    (hlast : (opsAt p ops).getLast? = some op) (hforce : op.force = true) :
    ((finish r.1 r.2).calls.filter fun call => call.key = name p).length =
      blockCount ser t (opsAt p ops) := by
  obtain ⟨hlen, _, hall⟩ := runStreams_holds hname h
  have hb : r.1[p]? = some (r.1.get ⟨p, by rw [hlen]; exact hp⟩) := List.getElem?_eq_getElem _
  have hholds := hall p _ hb
  -- nothing is staged any more, so `close` hands over nothing
  rw [finish_calls_filter hname h hb, hholds.counted.close.2.1,
    NvmOutputStream.flush_idle (hholds.forced op hlast hforce).1, List.append_nil]
  exact runStreams_blockCount hser hname h hp

end

theorem writeWith_finishes {R : Type} {ser : SerializerInstance R S} {t : Int}
    {shuffleId mapId n : Nat} {data : Nat → Mem} {ops : List (Nat × BlockOp R)} {out : MapOutput}
    (h : writeWith ser t shuffleId mapId n data ops = .ok out) :
    Finishes ser (shuffleBlockName shuffleId mapId) n ops out := by
  obtain ⟨r, hrun, hout⟩ := map_eq_ok.mp h
  rw [← hout]
  exact runStreams_finishes (fun p _ q _ heq => (shuffleBlockName_inj heq).2.2) hrun

theorem writeWith_blockCount {R : Type} {ser : SerializerInstance R S} {t : Int}
    {shuffleId mapId n p : Nat} {data : Nat → Mem} {ops : List (Nat × BlockOp R)} {out : MapOutput}
    (hser : ser.Lawful) (h : writeWith ser t shuffleId mapId n data ops = .ok out) (hp : p < n)
    {op : BlockOp R} (hlast : (opsAt p ops).getLast? = some op) (hforce : op.force = true) :
    (out.calls.filter fun call => call.key = shuffleBlockName shuffleId mapId p).length =
      blockCount ser t (opsAt p ops) := by
  obtain ⟨r, hrun, hout⟩ := map_eq_ok.mp h
  rw [← hout]
  exact finish_blockCount hser (fun p _ q _ heq => (shuffleBlockName_inj heq).2.2) hrun hp hlast
    hforce

/-! ## The branch without map-side combine -/

section

variable {ser : SerializerInstance (K × V) S} {t : Int} {getPartition : K → Nat}
variable {shuffleId mapId n : Nat} {data : Nat → Mem} {records : List (K × V)} {out : MapOutput}

/-- The writer finishes exactly if every partition fits into the staging buffer. -/
theorem write_ok_iff (ser : SerializerInstance (K × V) S) (t : Int) (shuffleId mapId : Nat)
    (data : Nat → Mem) (hpart : ∀ record ∈ records, getPartition record.1 < n) :
    (∃ out, write ser t getPartition shuffleId mapId n data records = .ok out) ↔
      ∀ p < n, Fits ser t (partitionOps getPartition records p) := by
  have hlt : ∀ c ∈ recordOps getPartition records ++ forceOps n, c.1 < n := by
    intro c hc
    cases List.mem_append.mp hc with
    | inl hrecord =>
      obtain ⟨record, hmem, rfl⟩ := List.mem_map.mp hrecord
      exact hpart record hmem
    | inr hforce =>
      obtain ⟨p, hp, rfl⟩ := List.mem_map.mp hforce
      exact List.mem_range.mp hp
  rw [write, writeWith, exists_map_ok, runStreams_ok_iff, and_iff_right hlt]
  exact forall₂_congr fun p hp => by rw [opsAt_write getPartition records hp]

end

end

/-! ## The store -/

/-- Every call gets an answer, and no request fails. -/
structure Accepted (hash : String → UInt64) (kv : Pmemkv) (calls : List SetBlock)
    (answers : List PutAnswers) : Prop where
  length : answers.length = calls.length
  ok : Admissible (fun kv call => nativeSetBlock hash kv call.1 call.2) (SetOk hash) kv
    (calls.zip answers)

section

variable {hash : String → UInt64} {kv : Pmemkv} {puts : List PutCall} {calls : List SetBlock}
variable {answers : List PutAnswers}

/-- The puts of the calls. -/
def putCalls (calls : List SetBlock) (answers : List PutAnswers) : List PutCall :=
  (calls.zip answers).map putCallOf

theorem Accepted.holds (ha : Accepted hash kv calls answers) (h : Holds hash kv puts) :
    ∃ kv', setBlocks hash kv (calls.zip answers) = some kv' ∧
      Holds hash kv' (puts ++ putCalls calls answers) :=
  setBlocks_holds h ha.ok

theorem storedUnder_putCalls (h : answers.length = calls.length) (k : String) :
    (storedUnder hash (putCalls calls answers) k).map PutCall.value =
      (calls.filter fun call => hash call.key = hash k).map SetBlock.value := by
  induction calls generalizing answers with
  | nil => rfl
  | cons call calls ih =>
    cases answers with
    | nil => simp at h
    | cons ans answers =>
      have hrest : (storedUnder hash (putCalls calls answers) k).map PutCall.value = _ :=
        ih (by simpa using h)
      by_cases hk : hash call.key = hash k
      · have hcons : storedUnder hash (putCalls (call :: calls) (ans :: answers)) k =
            putCallOf (call, ans) :: storedUnder hash (putCalls calls answers) k :=
          List.filter_cons_of_pos (decide_eq_true hk : _ = true)
        rw [hcons, List.filter_cons_of_pos (by simpa using hk), List.map_cons, List.map_cons, hrest]
        rfl
      · have hcons : storedUnder hash (putCalls (call :: calls) (ans :: answers)) k =
            storedUnder hash (putCalls calls answers) k :=
          List.filter_cons_of_neg fun hdec => hk (of_decide_eq_true hdec)
        rw [hcons, List.filter_cons_of_neg (by simpa using hk), hrest]

/-- What a key holds after the calls. -/
theorem storedBytes_calls (puts : List PutCall) (h : answers.length = calls.length) (k : String) :
    storedBytes hash (puts ++ putCalls calls answers) k =
      storedBytes hash puts k ++ handedOver (calls.filter fun call => hash call.key = hash k) := by
  rw [storedBytes, storedUnder_append, List.map_append, List.flatten_append,
    storedUnder_putCalls h, handedOver, List.flatMap_def]
  rfl

theorem value_ne_of_putCalls (h : ∀ call ∈ calls, call.value ≠ []) :
    ∀ put ∈ putCalls calls answers, put.value ≠ [] := by
  intro put hput
  obtain ⟨pair, hpair, rfl⟩ := List.mem_map.mp hput
  exact h pair.1 (List.of_mem_zip hpair).1

/-- The blocks of a name after calls on streams with different hashes. -/
theorem storedUnder_of_keys {name : Nat → String} {n p : Nat}
    (hkeys : ∀ call ∈ calls, ∃ q < n, call.key = name q)
    (hinj : ∀ p < n, ∀ q < n, hash (name p) = hash (name q) → p = q) (puts : List PutCall)
    (hlen : answers.length = calls.length) (hp : p < n) :
    (storedUnder hash (puts ++ putCalls calls answers) (name p)).map PutCall.value =
      (storedUnder hash puts (name p)).map PutCall.value ++
        (calls.filter fun call => call.key = name p).map SetBlock.value := by
  have hown : calls.filter (fun call => hash call.key = hash (name p)) =
      calls.filter fun call => call.key = name p := by
    apply List.filter_congr
    intro call hcall
    obtain ⟨q, hq, hkey⟩ := hkeys call hcall
    rw [decide_eq_decide, hkey]
    exact ⟨fun heq => by rw [hinj q hq p hp heq], fun heq => by rw [heq]⟩
  rw [storedUnder_append, List.map_append, storedUnder_putCalls hlen, hown]

/-- What a name holds after calls on streams with different hashes. -/
theorem storedBytes_of_keys {name : Nat → String} {n p : Nat}
    (hkeys : ∀ call ∈ calls, ∃ q < n, call.key = name q)
    (hinj : ∀ p < n, ∀ q < n, hash (name p) = hash (name q) → p = q) (puts : List PutCall)
    (hlen : answers.length = calls.length) (hp : p < n) :
    storedBytes hash (puts ++ putCalls calls answers) (name p) =
      storedBytes hash puts (name p) ++
        handedOver (calls.filter fun call => call.key = name p) := by
  rw [storedBytes, storedUnder_of_keys hkeys hinj puts hlen hp, List.flatten_append, handedOver,
    List.flatMap_def]
  rfl

/-- What the block of a partition holds after the writer has finished. -/
theorem Finishes.storedBytes {R S : Type} {ser : SerializerInstance R S} {name : Nat → String}
    {n p : Nat} {ops : List (Nat × BlockOp R)} {out : MapOutput} (h : Finishes ser name n ops out)
    (hinj : ∀ p < n, ∀ q < n, hash (name p) = hash (name q) → p = q) (puts : List PutCall)
    (hlen : answers.length = out.calls.length) (hp : p < n) :
    storedBytes hash (puts ++ putCalls out.calls answers) (name p) =
      storedBytes hash puts (name p) ++
        handedOver (out.calls.filter fun call => call.key = name p) :=
  storedBytes_of_keys h.keys hinj puts hlen hp

end

end SparkNvm.Shuffle
