import SparkNvm.Shuffle.RoundTrip
import SparkNvm.Storage.BlockIndex

/-!
# The accounting of a block stream

An `nvmBlockOutputStream` counts its records and bytes, keeps one number for each block that it
stored, and adds to the metrics of its task.  `getPartitionMeta` pairs the blocks that the store
knows with these numbers.

* `MeteredStream`: the block stream together with the metrics.  `step_stream` says that the stream
  does not depend on them.
* `Tallied` and `Accounted` are the invariants, `Accounted.step` says that every call keeps them.
* `AccountsExact` is what the numbers should be after any calls.
* `block_accounting_iff`: they always are, and `getPartitionMeta` is exact for the streams that
  stored a block (and fewer than `2 ^ 30` of them).
-/

namespace SparkNvm.Shuffle

open Lib Native Storage

/-! ## The metrics of the task -/

/-- The metrics of a task that a block stream adds to. -/
structure TaskMetrics where
  recordsWritten : Int
  bytesWritten : Int
  diskBytesSpilled : Int
  deriving DecidableEq, Repr

/-- `incRecordsWritten(1)`, only for a shuffle block. -/
def TaskMetrics.incRecords (isShuffle : Bool) (m : TaskMetrics) : TaskMetrics :=
  if isShuffle then { m with recordsWritten := m.recordsWritten + 1 } else m

/-- `incBytesWritten(bufSize)` for a shuffle block, `incDiskBytesSpilled(bufSize)` for another. -/
def TaskMetrics.incBytes (isShuffle : Bool) (bufSize : Nat) (m : TaskMetrics) : TaskMetrics :=
  if isShuffle then { m with bytesWritten := m.bytesWritten + bufSize }
  else { m with diskBytesSpilled := m.diskBytesSpilled + bufSize }

/-- A block stream with the metrics of its task. -/
structure MeteredStream (S : Type) where
  stream : NvmBlockOutputStream S
  metrics : TaskMetrics

namespace MeteredStream

variable {R S : Type}

/-- The body of `maybeSpill` under its condition. -/
def spill (isShuffle : Bool) (w : MeteredStream S) : MeteredStream S × List SetBlock :=
  let bufSize := w.stream.pmemOutputStream.flush.1.bufferFlushedSize
  ({ stream := w.stream.spill.1
     metrics := if 0 < bufSize then w.metrics.incBytes isShuffle bufSize else w.metrics },
    w.stream.spill.2)

/-- `maybeSpill(force)`. -/
def maybeSpill (ser : SerializerInstance R S) (t : Int) (isShuffle force : Bool)
    (w : MeteredStream S) : Except JavaError (MeteredStream S × List SetBlock) := do
  let (b, calls) ← w.stream.flushIf ser force
  let w := { w with stream := b }
  if NvmBlockOutputStream.Throttles t force b.pmemOutputStream then
    return ((w.spill isShuffle).1, calls ++ (w.spill isShuffle).2)
  else return (w, calls)

/-- `write(key, value)`. -/
def write (ser : SerializerInstance R S) (t : Int) (isShuffle : Bool) (record : R)
    (w : MeteredStream S) : Except JavaError (MeteredStream S × List SetBlock) := do
  let b := w.stream
  let (out, calls) ← b.pmemOutputStream.emitAll (ser.write b.objStream record).2
  let b : NvmBlockOutputStream S := { b with
    pmemOutputStream := out
    objStream := (ser.write b.objStream record).1
    records := wrap32 (b.records + 1)
    recordsPerBlock := wrap32 (b.recordsPerBlock + 1) }
  let w : MeteredStream S := { stream := b, metrics := w.metrics.incRecords isShuffle }
  let (w, calls') ← w.maybeSpill ser t isShuffle false
  return (w, calls ++ calls')

/-- One call. -/
def step (ser : SerializerInstance R S) (t : Int) (isShuffle : Bool) (w : MeteredStream S) :
    BlockOp R → Except JavaError (MeteredStream S × List SetBlock)
  | .write record => w.write ser t isShuffle record
  | .maybeSpill force => w.maybeSpill ser t isShuffle force

/-- A new stream in a task with the metrics `m`, and calls on it. -/
def runOps (ser : SerializerInstance R S) (t : Int) (isShuffle : Bool) (blockId : String)
    (data : Mem) (m : TaskMetrics) (ops : List (BlockOp R)) :
    Except JavaError (MeteredStream S × List SetBlock) :=
  match NvmBlockOutputStream.new ser blockId data with
  | .error e => .error e
  | .ok (b, calls) =>
    (runLog (step ser t isShuffle) { stream := b, metrics := m } ops).map fun r =>
      (r.1, calls ++ r.2)

/-- The stream and the metrics once the requests of the serializer are done. -/
def received (isShuffle : Bool) (w : MeteredStream S) (ser : SerializerInstance R S)
    (op : BlockOp R) (out : NvmOutputStream) : MeteredStream S where
  stream := w.stream.received ser op out
  metrics :=
    match op with
    | .write _ => w.metrics.incRecords isShuffle
    | .maybeSpill _ => w.metrics

variable {ser : SerializerInstance R S} {t : Int} {isShuffle : Bool} {w w' : MeteredStream S}
variable {op : BlockOp R} {calls cs : List SetBlock}

theorem maybeSpill_of_flushIf {force : Bool} {b : NvmBlockOutputStream S}
    (h : w.stream.flushIf ser force = .ok (b, calls)) :
    w.maybeSpill ser t isShuffle force = .ok
      ((if NvmBlockOutputStream.Throttles t force b.pmemOutputStream then
          spill isShuffle { w with stream := b } else ({ w with stream := b }, [])).1,
        calls ++ (if NvmBlockOutputStream.Throttles t force b.pmemOutputStream then
          spill isShuffle { w with stream := b } else ({ w with stream := b }, [])).2) := by
  rw [maybeSpill, h]
  show (if NvmBlockOutputStream.Throttles t force b.pmemOutputStream then
    Except.ok ((spill isShuffle { w with stream := b }).1,
      calls ++ (spill isShuffle { w with stream := b }).2)
    else Except.ok ({ w with stream := b }, calls)) = _
  split
  · rfl
  · rw [List.append_nil]

/-- Every call is the requests of the serializer and then `spill` or not. -/
theorem step_of_emits {out : NvmOutputStream}
    (h : w.stream.pmemOutputStream.emitAll (op.emits ser w.stream.objStream).2 = .ok (out, calls)) :
    w.step ser t isShuffle op = .ok
      ((if NvmBlockOutputStream.Throttles t op.force out then
          (w.received isShuffle ser op out).spill isShuffle
          else (w.received isShuffle ser op out, [])).1,
        calls ++ (if NvmBlockOutputStream.Throttles t op.force out then
          (w.received isShuffle ser op out).spill isShuffle
          else (w.received isShuffle ser op out, [])).2) := by
  cases op with
  | write record =>
    have hemit : w.stream.pmemOutputStream.emitAll (ser.write w.stream.objStream record).2 =
        .ok (out, calls) := h
    rw [step, write, hemit]
    show (maybeSpill ser t isShuffle false _ >>= _) = _
    rw [maybeSpill_of_flushIf rfl]
    rfl
  | maybeSpill force =>
    rw [step, maybeSpill_of_flushIf (flushIf_of_emits h)]
    rfl

theorem step_of_emits_error {e : JavaError}
    (h : w.stream.pmemOutputStream.emitAll (op.emits ser w.stream.objStream).2 = .error e) :
    w.step ser t isShuffle op = .error e := by
  cases op with
  | write record =>
    have hemit : w.stream.pmemOutputStream.emitAll (ser.write w.stream.objStream record).2 =
        .error e := h
    rw [step, write, hemit]
    rfl
  | maybeSpill force =>
    rw [step, maybeSpill, flushIf_of_emits_error h]
    rfl

/-- A call on the stream with the metrics is the same call on the stream. -/
theorem step_stream (ser : SerializerInstance R S) (t : Int) (isShuffle : Bool)
    (w : MeteredStream S) (op : BlockOp R) :
    (w.step ser t isShuffle op).map (fun r => (r.1.stream, r.2)) = w.stream.step ser t op := by
  cases hemit : w.stream.pmemOutputStream.emitAll (op.emits ser w.stream.objStream).2 with
  | error e =>
    rw [step_of_emits_error hemit, Storage.step_of_emits_error hemit]
    rfl
  | ok r =>
    rw [step_of_emits hemit, Storage.step_of_emits hemit]
    by_cases hthrottle : NvmBlockOutputStream.Throttles t op.force r.1
    · simp only [if_pos hthrottle]
      rfl
    · simp only [if_neg hthrottle]
      rfl

theorem stream_of_step (h : w.step ser t isShuffle op = .ok (w', cs)) :
    w.stream.step ser t op = .ok (w'.stream, cs) := by
  rw [← step_stream ser t isShuffle w op, h]
  rfl

/-- What a call that raised nothing did. -/
theorem step_cases (h : w.step ser t isShuffle op = .ok (w', cs)) :
    ∃ out c₁,
      w.stream.pmemOutputStream.emitAll (op.emits ser w.stream.objStream).2 = .ok (out, c₁) ∧
      ((w' = ((w.received isShuffle ser op out).spill isShuffle).1 ∧
          cs = c₁ ++ ((w.received isShuffle ser op out).spill isShuffle).2) ∨
        (op.force = false ∧ w' = w.received isShuffle ser op out ∧ cs = c₁)) := by
  cases hemit : w.stream.pmemOutputStream.emitAll (op.emits ser w.stream.objStream).2 with
  | error e =>
    rw [step_of_emits_error hemit] at h
    simp at h
  | ok r =>
    refine ⟨r.1, r.2, rfl, ?_⟩
    rw [step_of_emits hemit, Except.ok.injEq, Prod.mk.injEq] at h
    by_cases hthrottle : NvmBlockOutputStream.Throttles t op.force r.1
    · rw [if_pos hthrottle] at h
      exact .inl ⟨h.1.symm, h.2.symm⟩
    · rw [if_neg hthrottle, List.append_nil] at h
      refine .inr ⟨?_, h.1.symm, h.2.symm⟩
      rw [← Bool.not_eq_true]
      exact fun hforce => hthrottle (.inr hforce)

/-- `spill` looks at the stream below only through its `flush`. -/
theorem received_spill_congr {out out' : NvmOutputStream} (h : out.flush.1 = out'.flush.1) :
    ((w.received isShuffle ser op out).spill isShuffle).1 =
      ((w.received isShuffle ser op out').spill isShuffle).1 := by
  have hstream : (w.stream.received ser op out).spill.1 = (w.stream.received ser op out').spill.1 :=
    received_spill_eq h
  simp only [spill, received, (received_fields ser w.stream op out).1,
    (received_fields ser w.stream op out').1, h, hstream]

/-- A call of a lawful serializer that raised nothing: its arrays are staged, and then `spill` or
not. -/
theorem step_lawful (hser : ser.Lawful) (hs : w.stream.pmemOutputStream.Staged)
    (h : w.step ser t isShuffle op = .ok (w', cs)) :
    ∃ out, w.stream.pmemOutputStream.Appends out (bytesOf (op.emits ser w.stream.objStream).2) ∧
      ((w' = ((w.received isShuffle ser op out).spill isShuffle).1 ∧
          cs = ((w.received isShuffle ser op out).spill isShuffle).2) ∨
        (op.force = false ∧ w' = w.received isShuffle ser op out ∧ cs = [])) := by
  obtain ⟨out, c₁, hemit, hcases⟩ := step_cases h
  obtain ⟨s₁, happends, hzero, hcalls, hflush⟩ := emits_lawful hser hs hemit
  refine ⟨s₁, happends, ?_⟩
  rcases hcases with ⟨rfl, rfl⟩ | ⟨hforce, rfl, rfl⟩
  · exact .inl ⟨received_spill_congr hflush, hcalls⟩
  · obtain ⟨rfl, rfl⟩ := hzero hforce
    exact .inr ⟨hforce, rfl, rfl⟩

end MeteredStream

/-! ## Records, blocks and metrics -/

/-- The metrics of a task after `records` records and `bytes` bytes of a block. -/
def TaskMetrics.after (isShuffle : Bool) (records bytes : Nat) (m : TaskMetrics) : TaskMetrics :=
  if isShuffle then
    { m with
      recordsWritten := m.recordsWritten + records
      bytesWritten := m.bytesWritten + bytes }
  else { m with diskBytesSpilled := m.diskBytesSpilled + bytes }

theorem TaskMetrics.after_incRecords (isShuffle : Bool) (records bytes : Nat) (m : TaskMetrics) :
    (m.after isShuffle records bytes).incRecords isShuffle =
      m.after isShuffle (records + 1) bytes := by
  cases isShuffle with
  | false => rfl
  | true => simp [after, incRecords, Int.add_assoc]

theorem TaskMetrics.after_incBytes (isShuffle : Bool) (records bytes n : Nat) (m : TaskMetrics) :
    (m.after isShuffle records bytes).incBytes isShuffle n =
      m.after isShuffle records (bytes + n) := by
  cases isShuffle with
  | false => simp [after, incBytes, Int.add_assoc]
  | true => simp [after, incBytes, Int.add_assoc]

/-- The stream after `records` records: one number for each block, and every record is counted in
one of them or since the last block. -/
structure Tallied {S : Type} (isShuffle : Bool) (m : TaskMetrics) (records : Nat)
    (w : MeteredStream S) (calls : List SetBlock) : Prop where
  metrics : w.metrics = m.after isShuffle records (handedOver calls).length
  blocks : w.stream.recordsArray.length = calls.length
  sum_nonneg : 0 ≤ w.stream.recordsArray.sum
  perBlock_nonneg : 0 ≤ w.stream.recordsPerBlock
  sum_eq : w.stream.recordsArray.sum + w.stream.recordsPerBlock = records

section

variable {R S : Type} {ser : SerializerInstance R S} {t : Int} {isShuffle : Bool} {m : TaskMetrics}
variable {w w' : MeteredStream S} {op : BlockOp R} {calls cs : List SetBlock} {records : Nat}

theorem Tallied.received (h : Tallied isShuffle m records w calls) (ser : SerializerInstance R S)
    (op : BlockOp R) (out : NvmOutputStream)
    (hsmall : records + (recordsOf [op]).length < 2 ^ 31) :
    Tallied isShuffle m (records + (recordsOf [op]).length) (w.received isShuffle ser op out)
      calls := by
  have hsum := h.sum_eq
  have hnonneg := h.sum_nonneg
  have hper := h.perBlock_nonneg
  cases op with
  | maybeSpill force =>
    exact ⟨h.metrics, h.blocks, h.sum_nonneg, h.perBlock_nonneg, h.sum_eq⟩
  | write record =>
    have hone : (recordsOf [BlockOp.write record]).length = 1 := rfl
    rw [hone] at hsmall ⊢
    have hwrap : wrap32 (w.stream.recordsPerBlock + 1) = w.stream.recordsPerBlock + 1 :=
      wrap32_of_fits (by omega) (by omega)
    refine ⟨?_, h.blocks, hnonneg, ?_, ?_⟩
    · show w.metrics.incRecords isShuffle = _
      rw [h.metrics, TaskMetrics.after_incRecords]
    · show 0 ≤ wrap32 (w.stream.recordsPerBlock + 1)
      omega
    · show w.stream.recordsArray.sum + wrap32 (w.stream.recordsPerBlock + 1) = (records + 1 : Nat)
      omega

/-- `spill` with nothing staged. -/
theorem spill_idle (isShuffle : Bool) (hflushed : w.stream.pmemOutputStream.bufferFlushedSize = 0)
    (hrem : w.stream.pmemOutputStream.bufferRemainingSize = 0) :
    (w.spill isShuffle).2 = [] ∧ (w.spill isShuffle).1.metrics = w.metrics ∧
      (w.spill isShuffle).1.stream.recordsArray = w.stream.recordsArray ∧
      (w.spill isShuffle).1.stream.recordsPerBlock = w.stream.recordsPerBlock := by
  have hidle := NvmOutputStream.flush_idle hrem
  simp [MeteredStream.spill, NvmBlockOutputStream.spill, hidle, hflushed]

/-- `spill` with bytes staged stores one block. -/
theorem spill_block (isShuffle : Bool) (hflushed : w.stream.pmemOutputStream.bufferFlushedSize = 0)
    (hrem : 0 < w.stream.pmemOutputStream.bufferRemainingSize) :
    (w.spill isShuffle).2.length = 1 ∧
      (w.spill isShuffle).1.metrics =
        w.metrics.incBytes isShuffle (handedOver (w.spill isShuffle).2).length ∧
      (w.spill isShuffle).1.stream.recordsArray =
        w.stream.recordsArray ++ [w.stream.recordsPerBlock] ∧
      (w.spill isShuffle).1.stream.recordsPerBlock = 0 := by
  obtain ⟨_, hsize, _⟩ := w.stream.pmemOutputStream.flush_spec
  rw [hflushed, Nat.zero_add] at hsize
  have hcalls : (w.spill isShuffle).2 = w.stream.pmemOutputStream.flush.2 := by
    rw [MeteredStream.spill, w.stream.spill_stream.2.1, NvmOutputStream.spill_calls]
  have hstream : (w.spill isShuffle).1.stream =
      w.stream.rewound w.stream.pmemOutputStream.flush.1 := spill_eq w.stream
  rw [hcalls, hstream, NvmBlockOutputStream.rewound, hsize, if_pos hrem]
  refine ⟨?_, ?_, rfl, rfl⟩
  · rw [NvmOutputStream.flush, if_pos hrem]
    rfl
  · rw [NvmOutputStream.length_handedOver_flush]
    simp only [MeteredStream.spill, hsize, if_pos hrem]

theorem Tallied.spill (h : Tallied isShuffle m records w calls)
    (hflushed : w.stream.pmemOutputStream.bufferFlushedSize = 0) :
    Tallied isShuffle m records (w.spill isShuffle).1 (calls ++ (w.spill isShuffle).2) := by
  rcases Nat.eq_zero_or_pos w.stream.pmemOutputStream.bufferRemainingSize with hrem | hrem
  · obtain ⟨hcalls, hmetrics, harray, hper⟩ := spill_idle isShuffle hflushed hrem
    rw [hcalls, List.append_nil]
    refine ⟨?_, ?_, ?_, ?_, ?_⟩
    · rw [hmetrics, h.metrics]
    · rw [harray, h.blocks]
    · rw [harray]
      exact h.sum_nonneg
    · rw [hper]
      exact h.perBlock_nonneg
    · rw [harray, hper, h.sum_eq]
  · obtain ⟨hcalls, hmetrics, harray, hper⟩ := spill_block isShuffle hflushed hrem
    have hsum := h.sum_eq
    have hnonneg := h.sum_nonneg
    have hperOld := h.perBlock_nonneg
    refine ⟨?_, ?_, ?_, ?_, ?_⟩
    · rw [hmetrics, h.metrics, TaskMetrics.after_incBytes, handedOver_append, List.length_append]
    · rw [harray, List.length_append, List.length_append, h.blocks, hcalls]
      rfl
    · rw [harray, List.sum_append, List.sum_singleton]
      omega
    · rw [hper]
    · rw [harray, hper, List.sum_append, List.sum_singleton]
      omega

/-! ## The invariant -/

/-- Every record adds at least one byte to what the serializer has emitted after its next flush. -/
def ByteForEach (ser : SerializerInstance R S) : Prop :=
  ∀ (ops : List (BlockOp R)) (record : R),
    (emitted ser (ops ++ [.maybeSpill true])).length <
      (emitted ser (ops ++ [.write record, .maybeSpill true])).length

/-- The stream after the calls `ops`.  A record that no block counts yet has bytes that are not
handed over: they are staged, or the serializer holds them. -/
structure Accounted (ser : SerializerInstance R S) (isShuffle : Bool) (m : TaskMetrics)
    (name : String) (ops : List (BlockOp R)) (w : MeteredStream S) (calls : List SetBlock) :
    Prop where
  holds : StreamHolds ser name ops w.stream calls
  tallied : Tallied isShuffle m (recordsOf ops).length w calls
  pending : w.stream.recordsPerBlock ≠ 0 →
    (handedOver calls).length < (emitted ser (ops ++ [.maybeSpill true])).length
  forced : ∀ op, ops.getLast? = some op → op.force = true → w.stream.recordsPerBlock = 0

variable {name : String} {done : List (BlockOp R)}

theorem accounted_new {data : Mem} {b : NvmBlockOutputStream S}
    (h : NvmBlockOutputStream.new ser name data = .ok (b, cs)) (hser : ser.Lawful)
    (isShuffle : Bool) (m : TaskMetrics) :
    Accounted ser isShuffle m name [] { stream := b, metrics := m } cs := by
  have hholds := streamHolds_new h
  obtain ⟨_, hper, harray⟩ := records_new h
  obtain rfl := (stores_new hser h).2
  refine ⟨hholds, ?_, fun hne => absurd hper hne, by simp⟩
  refine ⟨?_, ?_, ?_, ?_, ?_⟩
  · cases isShuffle with
    | false => simp [TaskMetrics.after, handedOver]
    | true => simp [TaskMetrics.after, handedOver, recordsOf]
  · show b.recordsArray.length = 0
    rw [harray]
    rfl
  · show 0 ≤ b.recordsArray.sum
    rw [harray]
    exact Int.le_refl 0
  · exact Int.le_of_eq hper.symm
  · show b.recordsArray.sum + b.recordsPerBlock = 0
    rw [harray, hper]
    rfl

/-- After a call without `force` the records that no block counts still have bytes to come, and
before the end of a call with `force` these bytes are staged. -/
theorem Accounted.pending_received (h : Accounted ser isShuffle m name done w calls)
    (hser : ser.Lawful) (hbyte : ByteForEach ser) {out : NvmOutputStream}
    (happends : w.stream.pmemOutputStream.Appends out (bytesOf (op.emits ser w.stream.objStream).2))
    (hper : (w.received isShuffle ser op out).stream.recordsPerBlock ≠ 0) :
    (op.force = false ∧
      (handedOver calls).length < (emitted ser (done ++ [op] ++ [.maybeSpill true])).length) ∨
    (op.force = true ∧ 0 < out.bufferRemainingSize) := by
  have hbytes := congrArg List.length (h.holds.stores hser).bytes_eq
  have hstaged := congrArg List.length happends.unflushed
  rw [h.holds.objStream] at hstaged
  rw [NvmOutputStream.length_unflushed, List.length_append, NvmOutputStream.length_unflushed]
    at hstaged
  rw [List.length_append, NvmOutputStream.length_unflushed] at hbytes
  have hforce : (emitted ser (done ++ [.maybeSpill true])).length = (emitted ser done).length +
      (bytesOf ((BlockOp.maybeSpill true).emits ser (objAfter ser ser.start.1 done)).2).length := by
    rw [emitted_concat, List.length_append]
  cases op with
  | write record =>
    have hmore := hbyte done record
    rw [List.append_assoc]
    exact .inl ⟨rfl, by simp only [List.cons_append, List.nil_append]; omega⟩
  | maybeSpill force =>
    have hlt := h.pending hper
    cases force with
    | false =>
      have hsame : emitted ser (done ++ [.maybeSpill false] ++ [.maybeSpill true]) =
          emitted ser (done ++ [.maybeSpill true]) := by
        rw [emitted_concat, emitted_concat, emitted_concat, objAfter_concat]
        show emitted ser done ++ [] ++ _ = _
        rw [List.append_nil]
        rfl
      exact .inl ⟨rfl, by rw [hsame]; exact hlt⟩
    | true => exact .inr ⟨rfl, by omega⟩

/-- Every call keeps the accounts. -/
theorem Accounted.step (h : Accounted ser isShuffle m name done w calls) (hser : ser.Lawful)
    (hbyte : ByteForEach ser) (hsmall : (recordsOf (done ++ [op])).length < 2 ^ 31)
    (hstep : w.step ser t isShuffle op = .ok (w', cs)) :
    Accounted ser isShuffle m name (done ++ [op]) w' (calls ++ cs) := by
  have hstores := h.holds.stores hser
  have hstream := h.holds.step (MeteredStream.stream_of_step hstep)
  obtain ⟨out, happends, hcases⟩ := MeteredStream.step_lawful hser hstores.staged hstep
  have hrecords : (recordsOf (done ++ [op])).length =
      (recordsOf done).length + (recordsOf [op]).length := by
    rw [recordsOf, List.filterMap_append, List.length_append]
    rfl
  have htallied := h.tallied.received ser op out (by rw [← hrecords]; exact hsmall)
  rw [← hrecords] at htallied
  have hpending := h.pending_received hser hbyte happends
  have hout : (w.received isShuffle ser op out).stream.pmemOutputStream = out :=
    (received_fields ser w.stream op out).1
  have hflushed : (w.received isShuffle ser op out).stream.pmemOutputStream.bufferFlushedSize =
      0 := by
    rw [hout, happends.flushed]
    exact hstores.flushed
  have hlast : ∀ op', (done ++ [op]).getLast? = some op' → op'.force = true → op.force = true := by
    intro op' hop' hforce
    rw [List.getLast?_concat, Option.some.injEq] at hop'
    rw [hop']
    exact hforce
  rcases hcases with ⟨rfl, rfl⟩ | ⟨hforce, rfl, rfl⟩
  · have htally := htallied.spill hflushed
    rcases Nat.eq_zero_or_pos out.bufferRemainingSize with hrem | hrem
    · obtain ⟨hcalls, _, _, hsame⟩ := spill_idle isShuffle hflushed (by rw [hout, hrem])
      rw [hcalls, List.append_nil] at hstream htally ⊢
      refine ⟨hstream, htally, fun hper => ?_, fun op' hop' hforce' => ?_⟩
      · rw [hsame] at hper
        rcases hpending hper with ⟨_, hlt⟩ | ⟨_, hpos⟩
        · exact hlt
        · omega
      · rw [hsame]
        by_contra hper
        rcases hpending hper with ⟨hforce, _⟩ | ⟨_, hpos⟩
        · rw [hlast op' hop' hforce'] at hforce
          exact Bool.noConfusion hforce
        · omega
    · obtain ⟨_, _, _, hzero⟩ := spill_block isShuffle hflushed (by rw [hout]; exact hrem)
      exact ⟨hstream, htally, fun hper => absurd hzero hper, fun _ _ _ => hzero⟩
  · rw [List.append_nil] at hstream ⊢
    refine ⟨hstream, htallied, fun hper => ?_, fun op' hop' hforce' => ?_⟩
    · rcases hpending hper with ⟨_, hlt⟩ | ⟨hforce', _⟩
      · exact hlt
      · rw [hforce] at hforce'
        exact Bool.noConfusion hforce'
    · rw [hlast op' hop' hforce'] at hforce
      exact Bool.noConfusion hforce

theorem runOps_accounted {blockId : String} {data : Mem} {ops : List (BlockOp R)}
    (hser : ser.Lawful) (hbyte : ByteForEach ser) (hsmall : (recordsOf ops).length < 2 ^ 31)
    (h : MeteredStream.runOps ser t isShuffle blockId data m ops = .ok (w, calls)) :
    Accounted ser isShuffle m blockId ops w calls := by
  cases hnew : NvmBlockOutputStream.new ser blockId data with
  | error e =>
    rw [MeteredStream.runOps, hnew] at h
    simp at h
  | ok r =>
    rw [MeteredStream.runOps, hnew] at h
    obtain ⟨r', hrun, hpair⟩ := map_eq_ok.mp h
    rw [Prod.mk.injEq] at hpair
    rw [← hpair.1, ← hpair.2]
    have hinv := runLog_invariant
      (I := fun done w calls => (recordsOf done).length < 2 ^ 31 →
        Accounted ser isShuffle m blockId done w calls)
      (fun done w calls op w' cs hI hstep hbound => ?_)
      (fun _ => accounted_new hnew hser isShuffle m) hrun
    · exact hinv hsmall
    · refine (hI ?_).step hser hbyte hbound hstep
      rw [recordsOf, List.filterMap_append, List.length_append] at hbound
      exact Nat.lt_of_le_of_lt (Nat.le_add_right _ _) hbound

/-! ## `getPartitionMeta` -/

/-- The blocks, each with the entry of `recordsArray` at its position. -/
def withRecords (recordsArray : List Int) (info : List (Nat × Int)) :
    Option (List (Nat × Int × Int)) :=
  info.zipIdx.mapM fun x => recordsArray[x.2]?.map fun n => (x.1.1, x.1.2, n)

/-- `getPartitionMeta()`, with what an earlier call has left. -/
def getPartitionMeta (hash : String → UInt64) (fuel : Nat) (kv : Pmemkv)
    (b : NvmBlockOutputStream S)
    (partitionMeta : Option (List (Nat × Int × Int))) (mm : Pmemkv.MemoryMeta) :
    Option (List (Nat × Int × Int)) :=
  match partitionMeta with
  | some known => some known
  | none => do
    let info ← getPartitionBlockInfo hash fuel kv b.blockId mm
    withRecords b.recordsArray info

/-- The blocks of `stored` in put order, each with its number of records. -/
def blocksWithRecords (stored : List PutCall) (recordsArray : List Int) : List (Nat × Int × Int) :=
  (stored.zip recordsArray).map fun x => (x.1.ans.data, x.1.value.length, x.2)

theorem withRecords_from (recordsArray : List Int) (info : List (Nat × Int)) (k : Nat)
    (h : k + info.length ≤ recordsArray.length) :
    (info.zipIdx k).mapM (fun x => recordsArray[x.2]?.map fun n => (x.1.1, x.1.2, n)) =
      some ((info.zip (recordsArray.drop k)).map fun x => (x.1.1, x.1.2, x.2)) := by
  induction info generalizing k with
  | nil => rfl
  | cons x info ih =>
    rw [List.length_cons] at h
    have hk : k < recordsArray.length := by omega
    rw [List.zipIdx_cons, List.mapM_cons, ih (k + 1) (by omega), List.drop_eq_getElem_cons hk,
      List.getElem?_eq_getElem hk]
    rfl

theorem withRecords_infoOf {stored : List PutCall} {recordsArray : List Int}
    (h : stored.length = recordsArray.length) :
    withRecords recordsArray (stored.map infoOf) =
      some (blocksWithRecords stored recordsArray) := by
  rw [withRecords, withRecords_from _ _ 0 (by rw [List.length_map]; omega), List.drop_zero,
    List.zip_map_left, List.map_map]
  rfl

theorem length_of_withRecords {recordsArray : List Int} {info : List (Nat × Int)}
    {res : List (Nat × Int × Int)} (h : withRecords recordsArray info = some res) :
    res.length = info.length := by
  have hlength : ∀ (f : (Nat × Int) × Nat → Option (Nat × Int × Int))
      (l : List ((Nat × Int) × Nat)) (res : List (Nat × Int × Int)),
      l.mapM f = some res → res.length = l.length := by
    intro f l
    induction l with
    | nil =>
      intro res hres
      rw [← Option.some.inj hres]
      rfl
    | cons x l ih =>
      intro res hres
      rw [List.mapM_cons] at hres
      obtain ⟨y, _, hrest⟩ := Option.bind_eq_some_iff.mp hres
      obtain ⟨ys, hys, heq⟩ := Option.bind_eq_some_iff.mp hrest
      rw [← Option.some.inj heq, List.length_cons, List.length_cons, ih ys hys]
  rw [hlength _ _ res h, List.length_zipIdx]

theorem length_blockPairs : ∀ array : List Nat, (blockPairs array).length = array.length / 2
  | [] => rfl
  | [_] => by simp [blockPairs]
  | _ :: _ :: rest => by
    rw [blockPairs, List.length_cons, length_blockPairs rest, List.length_cons, List.length_cons]
    omega

theorem length_of_newLongArray {length allocated : Nat} {entries : Nat → Nat} {array : List Nat}
    (h : newLongArray length allocated entries = some array) :
    array.length = (wrap32 length).toNat := by
  rw [newLongArray] at h
  split at h
  · rw [← Option.some.inj h, List.length_map, List.length_range]
  · exact absurd h (by simp)

/-- A first call pairs every block with its number, whatever `malloc` returned, if and only if
there is a block and there are fewer than `2 ^ 30`. -/
theorem getPartitionMeta_iff {hash : String → UInt64} {fuel : Nat} {kv : Pmemkv}
    {puts : List PutCall} {b : NvmBlockOutputStream S} (h : IndexHolds hash kv puts)
    (hfuel : puts.length ≤ fuel)
    (hlength : (storedUnder hash puts b.blockId).length = b.recordsArray.length)
    (hsmall : ∀ call ∈ storedUnder hash puts b.blockId, call.value.length < 2 ^ 31) :
    (∀ mm, getPartitionMeta hash fuel kv b none mm =
        some (blocksWithRecords (storedUnder hash puts b.blockId) b.recordsArray)) ↔
      storedUnder hash puts b.blockId ≠ [] ∧ (storedUnder hash puts b.blockId).length < 2 ^ 30 := by
  constructor
  · intro hmeta
    have harray : ∀ mm, ∃ array, nativeGetBlockIndex hash fuel kv b.blockId mm = some array ∧
        array.length / 2 = (storedUnder hash puts b.blockId).length := by
      intro mm
      obtain ⟨info, hinfo, hpairs⟩ := Option.bind_eq_some_iff.mp (hmeta mm)
      obtain ⟨array, harray, rfl⟩ := Option.map_eq_some_iff.mp hinfo
      have hcount := length_of_withRecords hpairs
      rw [blocksWithRecords, List.length_map, List.length_zip, length_blockPairs] at hcount
      exact ⟨array, harray, by omega⟩
    have hne : storedUnder hash puts b.blockId ≠ [] := by
      intro hnone
      -- a struct that was not cleared
      obtain ⟨array, hsome, _⟩ := harray ⟨fun _ => 0, 1⟩
      rw [nativeGetBlockIndex_absent h hfuel hnone, newLongArray_of_lt _ (by decide)] at hsome
      exact absurd hsome (by simp)
    refine ⟨hne, ?_⟩
    obtain ⟨entries, hindex, _⟩ := nativeGetBlockIndex_present h hfuel hne ⟨fun _ => 0, 0⟩
    obtain ⟨array, hsome, hcount⟩ := harray ⟨fun _ => 0, 0⟩
    rw [hindex] at hsome
    rw [length_of_newLongArray hsome] at hcount
    have hlt := wrap32_le ((2 * (storedUnder hash puts b.blockId).length : Nat) : Int)
    omega
  · rintro ⟨hne, hcount⟩ mm
    have hinfo := ((indexExact_iff h hfuel).mpr ⟨hne, hcount, hsmall⟩ mm).info
    rw [getPartitionMeta, hinfo, Option.bind_eq_bind, Option.bind_some]
    exact withRecords_infoOf hlength

/-! ## All numbers -/

/-- What the numbers of a stream should be after the calls `ops`, in a task that had the metrics
`m`, when its blocks are `stored`. -/
structure AccountsExact (hash : String → UInt64) (kv : Pmemkv) (isShuffle : Bool) (m : TaskMetrics)
    (ops : List (BlockOp R)) (w : MeteredStream S) (stored : List PutCall) : Prop where
  /-- One entry for each block, and the store counts the same blocks. -/
  blocks : w.stream.recordsArray.length = stored.length ∧
    (kv.getMetaSize hash w.stream.blockId).map Prod.snd = some stored.length
  records : w.stream.recordsArray.sum + w.stream.recordsPerBlock = w.stream.records ∧
    w.stream.records = (recordsOf ops).length
  size : ∃ n : Nat, getPartitionSize hash kv w.stream.blockId = some n ∧ w.stream.size = n
  recordsWritten : w.metrics.recordsWritten =
    m.recordsWritten + if isShuffle then w.stream.records else 0
  bytesWritten : w.metrics.bytesWritten = m.bytesWritten + if isShuffle then w.stream.size else 0
  diskBytesSpilled : w.metrics.diskBytesSpilled =
    m.diskBytesSpilled + if isShuffle then 0 else w.stream.size
  spilled : w.stream.spilled = true ↔ stored ≠ []
  /-- After `maybeSpill(true)`. -/
  forced : ∀ op, ops.getLast? = some op → op.force = true →
    w.stream.recordsPerBlock = 0 ∧ w.stream.close.2 = []

theorem putCalls_values {answers : List PutAnswers} (h : answers.length = calls.length) :
    (putCalls calls answers).map PutCall.value = calls.map SetBlock.value := by
  have hfst : (calls.zip answers).map Prod.fst = calls := List.map_fst_zip (Nat.le_of_eq h.symm)
  rw [putCalls, List.map_map]
  show (calls.zip answers).map (SetBlock.value ∘ Prod.fst) = _
  rw [← List.map_map, hfst]

theorem handedOver_pos_iff (h : ∀ call ∈ calls, call.value ≠ []) :
    0 < (handedOver calls).length ↔ calls ≠ [] := by
  cases calls with
  | nil => exact iff_of_false (Nat.lt_irrefl 0) (fun hne => hne rfl)
  | cons call calls =>
    have hpos := List.length_pos_iff.mpr (h call List.mem_cons_self)
    refine iff_of_true ?_ (List.cons_ne_nil _ _)
    rw [handedOver, List.flatMap_cons, List.length_append]
    omega

theorem putCalls_ne_nil {answers : List PutAnswers} (h : answers.length = calls.length) :
    putCalls calls answers ≠ [] ↔ calls ≠ [] := by
  rw [← List.length_pos_iff, ← List.length_pos_iff, putCalls, List.length_map, List.length_zip, h,
    Nat.min_self]

theorem Accounted.exact {hash : String → UInt64} {kv : Pmemkv} {puts : List PutCall}
    {answers : List PutAnswers} {ops : List (BlockOp R)}
    (h : Accounted ser isShuffle m name ops w calls) (hser : ser.Lawful)
    (hrecords : (recordsOf ops).length < 2 ^ 31) (hbytes : (handedOver calls).length < 2 ^ 31)
    (hlength : answers.length = calls.length)
    (hstored : storedUnder hash puts name = putCalls calls answers) (hholds : Holds hash kv puts) :
    AccountsExact hash kv isShuffle m ops w (putCalls calls answers) := by
  have hflushed := (h.holds.stores hser).flushed
  have hcount : (putCalls calls answers).length = calls.length := by
    rw [putCalls, List.length_map, List.length_zip, hlength, Nat.min_self]
  have hnumber : w.stream.records = (recordsOf ops).length := by
    rw [h.holds.records, wrap32_of_fits (by omega) (by omega)]
  have hsize : w.stream.size = (handedOver calls).length := by
    rw [h.holds.counted.size, hflushed, Nat.sub_zero, wrap32_of_fits (by omega) (by omega)]
  constructor
  · refine ⟨by rw [h.tallied.blocks, hcount], ?_⟩
    rw [h.holds.blockId, getMetaSize_of_indexHolds hholds.indexHolds, hstored]
    rfl
  · exact ⟨by rw [h.tallied.sum_eq, hnumber], hnumber⟩
  · refine ⟨(handedOver calls).length, ?_, hsize⟩
    rw [h.holds.blockId, getPartitionSize_eq hholds.indexHolds, storedBytes, hstored,
      putCalls_values hlength, handedOver, List.flatMap_def]
  · rw [h.tallied.metrics, hnumber]
    cases isShuffle with
    | false => simp [TaskMetrics.after]
    | true => simp [TaskMetrics.after]
  · rw [h.tallied.metrics, hsize]
    cases isShuffle with
    | false => simp [TaskMetrics.after]
    | true => simp [TaskMetrics.after]
  · rw [h.tallied.metrics, hsize]
    cases isShuffle with
    | false => simp [TaskMetrics.after]
    | true => simp [TaskMetrics.after]
  · rw [putCalls_ne_nil hlength, h.holds.counted.spilled, hflushed]
    exact handedOver_pos_iff h.holds.counted.value_ne
  · intro op hlast hforce
    refine ⟨h.forced op hlast hforce, ?_⟩
    rw [h.holds.counted.close.2.1, NvmOutputStream.flush_idle (h.holds.forced op hlast hforce).1]

end

/-- For every fresh block id, every serializer that takes a byte for each record and flushes the
stream below only at the end of its own flush, and every sequence of calls on a stream (without
exception, with totals below `2 ^ 31`): all numbers are exact.  A first call of `getPartitionMeta`
pairs every block with its own number, whatever memory `malloc` returned, exactly if a block is
stored under the id and there are fewer than `2 ^ 30` of them. -/
theorem block_accounting_iff {R S : Type} (hash : String → UInt64) (fuel : Nat) (s : Service)
    (root : Nat) (history : List Op) (kv : Pmemkv) (ser : SerializerInstance R S) (t : Int)
    (isShuffle : Bool) (blockId : String) (data : Mem) (m : TaskMetrics) (ops : List (BlockOp R))
    (w : MeteredStream S) (calls : List SetBlock) (answers : List PutAnswers)
    (hroot : s.Grants sizeofBase root) (hfuel : history.length + answers.length ≤ fuel)
    (hok : Admissible (Pmemkv.step hash fuel) (Pmemkv.Ok hash) (Pmemkv.create s root) history)
    (hkv : run (Pmemkv.step hash fuel) (Pmemkv.create s root) history = some kv)
    (hfresh : storedUnder hash (live history) blockId = [])
    (hser : ser.Lawful) (hbyte : ByteForEach ser)
    (hrun : MeteredStream.runOps ser t isShuffle blockId data m ops = .ok (w, calls))
    (hrecords : (recordsOf ops).length < 2 ^ 31) (hbytes : (handedOver calls).length < 2 ^ 31)
    (haccepted : Accepted hash kv calls answers) :
    ∃ kv', setBlocks hash kv (calls.zip answers) = some kv' ∧
      storedUnder hash (live history ++ putCalls calls answers) blockId =
        putCalls calls answers ∧
      AccountsExact hash kv' isShuffle m ops w (putCalls calls answers) ∧
      ((∀ mm, getPartitionMeta hash fuel kv' w.stream none mm =
          some (blocksWithRecords (putCalls calls answers) w.stream.recordsArray)) ↔
        putCalls calls answers ≠ [] ∧ (putCalls calls answers).length < 2 ^ 30) := by
  obtain ⟨kv₁, hrun₁, hholds⟩ := run_holds hroot (by omega) hok
  rw [hkv, Option.some.injEq] at hrun₁
  subst hrun₁
  obtain ⟨kv', hset, hholds'⟩ := haccepted.holds hholds
  have haccounted := runOps_accounted hser hbyte hrecords hrun
  have hkeys : ∀ call ∈ putCalls calls answers, call.key = blockId := by
    intro put hput
    obtain ⟨pair, hpair, rfl⟩ := List.mem_map.mp hput
    exact haccounted.holds.key_eq (List.of_mem_zip hpair).1
  have hstored : storedUnder hash (live history ++ putCalls calls answers) blockId =
      putCalls calls answers := by
    rw [storedUnder_append, hfresh, List.nil_append, storedUnder_eq_self hkeys]
  have hexact := haccounted.exact hser hrecords hbytes haccepted.length hstored hholds'
  refine ⟨kv', hset, hstored, hexact, ?_⟩
  have hlive := length_live_le history
  have hfuel' : (live history ++ putCalls calls answers).length ≤ fuel := by
    rw [List.length_append, putCalls, List.length_map, List.length_zip]
    omega
  have hsmall : ∀ call ∈ putCalls calls answers, call.value.length < 2 ^ 31 := by
    intro put hput
    have hmem := List.mem_map_of_mem (f := PutCall.value) hput
    rw [putCalls_values haccepted.length] at hmem
    have hle := (List.sublist_flatten_of_mem hmem).length_le
    rw [← List.flatMap_def] at hle
    exact Nat.lt_of_le_of_lt hle hbytes
  have hid := haccounted.holds.blockId
  rw [← hid] at hstored
  have hmeta := getPartitionMeta_iff (b := w.stream) hholds'.indexHolds hfuel'
    (by rw [hstored, hexact.blocks.1]) (by rw [hstored]; exact hsmall)
  rw [hstored] at hmeta
  exact hmeta

theorem byteForEach_byteSerializer : ByteForEach byteSerializer := by
  intro ops record
  rw [emitted_byteSerializer, emitted_byteSerializer, List.length_map, List.length_map, recordsOf,
    recordsOf, List.filterMap_append, List.filterMap_append, List.length_append, List.length_append]
  exact Nat.lt_succ_self _

/-- Three records, the last two of them in one block. -/
def twoBlocks : List (BlockOp (UInt8 × Unit)) :=
  [.write (1, ()), .maybeSpill true, .write (2, ()), .write (3, ()), .maybeSpill true]

theorem block_accounting_sample :
    ∃ w calls kv',
      MeteredStream.runOps byteSerializer 4194304 true "shuffle_0_0_0" (fun _ => 0) ⟨0, 0, 0⟩
        twoBlocks = .ok (w, calls) ∧
      setBlocks shuffleHash (Pmemkv.create sampleService 4096) (calls.zip shuffleAnswers) =
        some kv' ∧
      AccountsExact shuffleHash kv' true ⟨0, 0, 0⟩ twoBlocks w (putCalls calls shuffleAnswers) ∧
      ∀ mm, getPartitionMeta shuffleHash 2 kv' w.stream none mm =
        some (blocksWithRecords (putCalls calls shuffleAnswers) w.stream.recordsArray) := by
  have hcalls : (MeteredStream.runOps byteSerializer 4194304 true "shuffle_0_0_0" (fun _ => 0)
      ⟨0, 0, 0⟩ twoBlocks).toOption.map Prod.snd =
        some [⟨"shuffle_0_0_0", [1], true⟩, ⟨"shuffle_0_0_0", [2, 3], false⟩] := by
    decide
  obtain ⟨r, hr, hsnd⟩ := Option.map_eq_some_iff.mp hcalls
  have hrun := ok_of_toOption hr
  obtain ⟨kv', hset, _, hexact, hiff⟩ := block_accounting_iff shuffleHash 2 sampleService 4096 [] _
    byteSerializer 4194304 true "shuffle_0_0_0" (fun _ => 0) ⟨0, 0, 0⟩ twoBlocks r.1 r.2
    shuffleAnswers (by decide) (by decide) trivial rfl rfl byteSerializer_roundTrips.lawful
    byteForEach_byteSerializer hrun (by decide) (by rw [hsnd]; decide)
    (by rw [hsnd]; exact ⟨rfl, by decide⟩)
  refine ⟨r.1, r.2, kv', hrun, hset, hexact, hiff.mpr ?_⟩
  rw [hsnd]
  exact ⟨by decide, by decide⟩

/-- A stream that never stored a block, and a struct whose length happens to be 7. -/
theorem meta_of_unspilled_stream :
    ∃ w, MeteredStream.runOps byteSerializer 4194304 true "shuffle_0_0_0" (fun _ => 0) ⟨0, 0, 0⟩
        [.maybeSpill true] = .ok (w, []) ∧
      getPartitionMeta shuffleHash 2 (Pmemkv.create sampleService 4096) w.stream none
        ⟨fun _ => 0, 7⟩ = none ∧
      ¬∀ mm, getPartitionMeta shuffleHash 2 (Pmemkv.create sampleService 4096) w.stream none mm =
        some (blocksWithRecords (putCalls [] []) w.stream.recordsArray) := by
  have hall : ((MeteredStream.runOps byteSerializer 4194304 true "shuffle_0_0_0" (fun _ => 0)
      ⟨0, 0, 0⟩ [.maybeSpill true]).toOption.map fun r => (r.2,
        getPartitionMeta shuffleHash 2 (Pmemkv.create sampleService 4096) r.1.stream none
          ⟨fun _ => 0, 7⟩)) = some ([], none) := by
    decide
  obtain ⟨r, hr, hpair⟩ := Option.map_eq_some_iff.mp hall
  rw [Prod.mk.injEq] at hpair
  refine ⟨r.1, ?_, hpair.2, fun hmeta => ?_⟩
  · rw [ok_of_toOption hr, ← hpair.1]
  · have hnone := hmeta ⟨fun _ => 0, 7⟩
    rw [hpair.2] at hnone
    exact absurd hnone (by simp)

end SparkNvm.Shuffle
