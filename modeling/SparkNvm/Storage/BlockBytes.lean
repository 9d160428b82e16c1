import SparkNvm.Storage.BlockCounts

/-!
# What a block stream stores

For a serializer that writes arrays and flushes the stream below only when it is
flushed itself, the blocks that a `nvmBlockOutputStream` hands over, followed by what
is still staged, are everything that the serializer has emitted.

* `Lawful` and `RoundTrips` are what is assumed of the serializer.
* `Stores` is the invariant of the block stream, and `Stores.step` says that every call
  keeps it.
* `blockCount` and `length_calls_eq`: how many blocks a stream stores, from the lengths of what the
  serializer emits.
-/

namespace SparkNvm.Storage

open Lib

/-! ## The serializer -/

/-- Only arrays are written, and the stream below is flushed only at the end of the
serializer's own `flush`. -/
structure SerializerInstance.Lawful {R S : Type} (ser : SerializerInstance R S) : Prop where
  start : ∃ arrays : List (List UInt8), ser.start.2 = arrays.map .array
  write : ∀ s record, ∃ arrays : List (List UInt8), (ser.write s record).2 = arrays.map .array
  flush : ∀ s, ∃ (arrays : List (List UInt8)) (k : Nat),
    (ser.flush s).2 = arrays.map .array ++ List.replicate k .flush

section

variable {R S : Type} {ser : SerializerInstance R S}

/-- The records that the calls write. -/
def recordsOf (ops : List (BlockOp R)) : List R :=
  ops.filterMap fun op =>
    match op with
    | .write record => some record
    | .maybeSpill _ => none

/-- A lawful serializer with its deserializer: what it has emitted after a flush is read
back as the records written, and takes at least one byte for each of them. -/
structure SerializerInstance.RoundTrips (ser : SerializerInstance R S)
    (deserialize : List UInt8 → List R) : Prop where
  lawful : ser.Lawful
  deserialize_emitted : ∀ ops : List (BlockOp R),
    deserialize (emitted ser (ops ++ [.maybeSpill true])) = recordsOf ops
  byte_per_record : ∀ ops : List (BlockOp R),
    (recordsOf ops).length ≤ (emitted ser (ops ++ [.maybeSpill true])).length

theorem recordsOf_writes (records : List R) : recordsOf (records.map .write) = records := by
  rw [recordsOf, List.filterMap_map]
  exact List.filterMap_some

/-- Every call writes arrays and then flushes any number of times, a call without
`force` not at all. -/
theorem SerializerInstance.Lawful.emits (h : ser.Lawful) (obj : S) (op : BlockOp R) :
    ∃ (arrays : List (List UInt8)) (k : Nat),
      (op.emits ser obj).2 = arrays.map .array ++ List.replicate k .flush ∧
      (op.force = false → k = 0) := by
  cases op with
  | write record =>
    obtain ⟨arrays, harrays⟩ := h.write obj record
    exact ⟨arrays, 0, by rw [List.replicate_zero, List.append_nil]; exact harrays, fun _ => rfl⟩
  | maybeSpill force =>
    cases force with
    | false => exact ⟨[], 0, rfl, fun _ => rfl⟩
    | true =>
      obtain ⟨arrays, k, hemits⟩ := h.flush obj
      exact ⟨arrays, k, hemits, fun hf => Bool.noConfusion hf⟩

end

theorem bytesOf_arrays (arrays : List (List UInt8)) (k : Nat) :
    bytesOf (arrays.map .array ++ List.replicate k .flush) = arrays.flatten := by
  rw [bytesOf, List.flatMap_append, List.flatMap_map]
  have hflush : (List.replicate k Emit.flush).flatMap Emit.bytes = [] := by
    rw [List.flatMap_eq_nil_iff]
    intro e he
    rw [List.eq_of_mem_replicate he]
    rfl
  rw [hflush, List.append_nil, List.flatMap_def]
  show (arrays.map id).flatten = arrays.flatten
  rw [List.map_id]

/-! ## The requests on the stream below -/

namespace NvmOutputStream

variable {s s' : NvmOutputStream} {calls : List SetBlock}

/-- A write that raised nothing had room. -/
theorem room_of_write {bytes : List UInt8} {off len : Nat} (h : s.write bytes off len = .ok s') :
    off + len ≤ bytes.length ∧ s.byteBuffer.position + len ≤ bufferLength := by
  rw [write, ByteBuffer.put] at h
  by_cases hshort : bytes.length < off + len
  · rw [if_pos hshort] at h
    simp [bind, Except.bind] at h
  · by_cases hfull : bufferLength < s.byteBuffer.position + len
    · rw [if_neg hshort, if_pos hfull] at h
      simp [bind, Except.bind] at h
    · omega

/-- The stream after arrays were written to it: they are staged. -/
structure Appends (s s' : NvmOutputStream) (bytes : List UInt8) : Prop where
  staged : s'.Staged
  unflushed : s'.unflushed = s.unflushed ++ bytes
  flushed : s'.bufferFlushedSize = s.bufferFlushedSize

theorem emit_array (hs : s.Staged) {bytes : List UInt8}
    (h : s.emit (.array bytes) = .ok (s', calls)) :
    calls = [] ∧ s.Appends s' bytes := by
  cases hwrite : s.write bytes 0 bytes.length with
  | error e =>
    rw [emit, hwrite] at h
    simp [Except.map] at h
  | ok s₁ =>
    obtain ⟨hbytes, hfits⟩ := room_of_write hwrite
    obtain ⟨s₂, hwrite', hstaged, hun, _, hflushed, _⟩ := write_spec hs hbytes hfits
    rw [hwrite, Except.ok.injEq] at hwrite'
    rw [emit, hwrite] at h
    have hpair : (s₁, ([] : List SetBlock)) = (s', calls) := Except.ok.inj h
    rw [Prod.mk.injEq] at hpair
    rw [← hpair.1, hwrite']
    refine ⟨hpair.2.symm, hstaged, ?_, hflushed⟩
    rw [hun, List.drop_zero, List.take_length]

theorem emit_arrays (hs : s.Staged) {arrays : List (List UInt8)}
    (h : runLog emit s (arrays.map .array) = .ok (s', calls)) :
    calls = [] ∧ s.Appends s' arrays.flatten := by
  induction arrays generalizing s calls with
  | nil =>
    have hpair : (s, ([] : List SetBlock)) = (s', calls) := Except.ok.inj h
    rw [Prod.mk.injEq] at hpair
    rw [← hpair.1]
    exact ⟨hpair.2.symm, hs, (List.append_nil _).symm, rfl⟩
  | cons bytes arrays ih =>
    obtain ⟨s₁, c₁, c₂, hstep, hrest, rfl⟩ := runLog_cons_ok h
    obtain ⟨rfl, h₁⟩ := emit_array hs hstep
    obtain ⟨rfl, h₂⟩ := ih h₁.staged hrest
    refine ⟨rfl, h₂.staged, ?_, h₂.flushed.trans h₁.flushed⟩
    rw [h₂.unflushed, h₁.unflushed, List.flatten_cons, List.append_assoc]

/-- Nothing is staged, so flushing does nothing to the blocks. -/
theorem flush_idle (h : s.bufferRemainingSize = 0) :
    s.flush = ({ s with setClean := false }, []) := by
  rw [flush, if_neg (by omega)]

/-- Flushing any number of times and once more is flushing once. -/
theorem flushes_then_flush (k : Nat) :
    ∃ sk ck, runLog emit s (List.replicate k .flush) = .ok (sk, ck) ∧
      ck ++ sk.flush.2 = s.flush.2 ∧ sk.flush.1 = s.flush.1 := by
  induction k generalizing s with
  | zero => exact ⟨s, [], rfl, rfl, rfl⟩
  | succ k ih =>
    obtain ⟨sk, ck, hrun, hcalls, hstream⟩ := ih (s := s.flush.1)
    obtain ⟨hrem, _⟩ := s.flush_spec
    have hidle := flush_idle hrem
    have hclean : s.flush.1.setClean = false := by
      unfold flush
      split <;> rfl
    have hsame : { s.flush.1 with setClean := false } = s.flush.1 := by rw [← hclean]
    rw [hidle, hsame] at hcalls hstream
    refine ⟨sk, s.flush.2 ++ ck, ?_, ?_, hstream⟩
    · rw [List.replicate_succ]
      exact runLog_cons rfl hrun
    · rw [List.append_assoc, hcalls, List.append_nil]

/-- Requests of a lawful serializer that raised nothing: the arrays are staged, then
the flushes, which a further flush does not see. -/
theorem emitAll_lawful (hs : s.Staged) {arrays : List (List UInt8)} {k : Nat}
    (h : s.emitAll (arrays.map .array ++ List.replicate k .flush) = .ok (s', calls)) :
    ∃ s₁, s.Appends s₁ arrays.flatten ∧ (k = 0 → s' = s₁ ∧ calls = []) ∧
      calls ++ s'.flush.2 = s₁.flush.2 ∧ s'.flush.1 = s₁.flush.1 := by
  obtain ⟨s₁, c₁, c₂, harrays, hflushes, rfl⟩ := runLog_append_ok h
  obtain ⟨rfl, happends⟩ := emit_arrays hs harrays
  obtain ⟨sk, ck, hrun, hcalls, hstream⟩ := flushes_then_flush (s := s₁) k
  rw [hflushes, Except.ok.injEq, Prod.mk.injEq] at hrun
  obtain ⟨rfl, rfl⟩ := hrun
  refine ⟨s₁, happends, ?_, hcalls, hstream⟩
  rintro rfl
  have hpair : (s₁, ([] : List SetBlock)) = (s', c₂) := Except.ok.inj hflushes
  rw [Prod.mk.injEq] at hpair
  exact ⟨hpair.1.symm, hpair.2.symm⟩

end NvmOutputStream

/-! ## The block stream -/

section

variable {R S : Type} {ser : SerializerInstance R S} {t : Int} {b b' : NvmBlockOutputStream S}
variable {op : BlockOp R} {bytes : List UInt8} {calls cs : List SetBlock}

/-- `b` after calls of `setPartition`: they hand over all bytes but the staged ones, in
order. -/
structure Stores (b : NvmBlockOutputStream S) (bytes : List UInt8) (calls : List SetBlock) :
    Prop where
  staged : b.pmemOutputStream.Staged
  flushed : b.pmemOutputStream.bufferFlushedSize = 0
  bytes_eq : handedOver calls ++ b.pmemOutputStream.unflushed = bytes

/-- `spill` looks at the stream below only through its `flush`. -/
theorem received_spill_eq {out out' : NvmOutputStream} (h : out.flush.1 = out'.flush.1) :
    (b.received ser op out).spill.1 = (b.received ser op out').spill.1 := by
  rw [spill_eq, spill_eq, (received_fields ser b op out).1, (received_fields ser b op out').1, h]
  cases op with
  | write record => rfl
  | maybeSpill force => rfl

theorem handedOver_flush {s : NvmOutputStream} (h : s.Staged)
    (h0 : s.bufferFlushedSize = 0) : handedOver s.flush.2 = s.unflushed := by
  rw [handedOver, NvmOutputStream.flush_values, NvmOutputStream.unflushed_of_flushed_zero h h0]

/-- A call that does not spill: the bytes are staged. -/
theorem Stores.stage (h : Stores b bytes calls) (ser : SerializerInstance R S) (op : BlockOp R)
    {out : NvmOutputStream} {new : List UInt8} (happends : b.pmemOutputStream.Appends out new) :
    Stores (b.received ser op out) (bytes ++ new) calls := by
  obtain ⟨hout, _⟩ := received_fields ser b op out
  constructor
  · rw [hout]
    exact happends.staged
  · rw [hout, happends.flushed]
    exact h.flushed
  · rw [hout, happends.unflushed, ← List.append_assoc, h.bytes_eq]

/-- `spill` hands over what is staged. -/
theorem Stores.spill (h : Stores b bytes calls) : Stores b.spill.1 bytes (calls ++ b.spill.2) := by
  obtain ⟨hstream, hcalls, _⟩ := b.spill_stream
  obtain ⟨hrem, hflushed, _⟩ := NvmOutputStream.spill_spec h.staged
  have hempty : b.spill.1.pmemOutputStream.unflushed = [] := by
    rw [← List.length_eq_zero_iff, NvmOutputStream.length_unflushed, hstream, hrem]
  constructor
  · rw [hstream]
    exact h.staged.spill
  · rw [hstream]
    exact hflushed
  · rw [hempty, hcalls, NvmOutputStream.spill_calls, handedOver_append,
      handedOver_flush h.staged h.flushed, List.append_nil]
    exact h.bytes_eq

/-- The requests of a lawful serializer during a call that raised nothing: the arrays are staged.
The flushes after them are not seen by a further flush, and there are none without `force`. -/
theorem emits_lawful (hser : ser.Lawful) (hs : b.pmemOutputStream.Staged) {out : NvmOutputStream}
    {c₁ : List SetBlock}
    (hemit : b.pmemOutputStream.emitAll (op.emits ser b.objStream).2 = .ok (out, c₁)) :
    ∃ s₁, b.pmemOutputStream.Appends s₁ (bytesOf (op.emits ser b.objStream).2) ∧
      (op.force = false → out = s₁ ∧ c₁ = []) ∧
      c₁ ++ (b.received ser op out).spill.2 = (b.received ser op s₁).spill.2 ∧
      out.flush.1 = s₁.flush.1 := by
  obtain ⟨arrays, k, hemits, hk⟩ := hser.emits b.objStream op
  rw [hemits] at hemit ⊢
  obtain ⟨s₁, happends, hzero, hcalls, hflush⟩ := NvmOutputStream.emitAll_lawful hs hemit
  rw [bytesOf_arrays]
  refine ⟨s₁, happends, fun hforce => hzero (hk hforce), ?_, hflush⟩
  rw [(b.received ser op out).spill_stream.2.1, (b.received ser op s₁).spill_stream.2.1,
    (received_fields ser b op out).1, (received_fields ser b op s₁).1,
    NvmOutputStream.spill_calls, NvmOutputStream.spill_calls, hcalls]

/-- A call of a lawful serializer that raised nothing: its arrays are staged, and then `spill` or
not.  A flush of the serializer before a `spill` changes nothing. -/
theorem step_lawful (hser : ser.Lawful) (h : Stores b bytes calls)
    (hstep : b.step ser t op = .ok (b', cs)) :
    ∃ out, b.pmemOutputStream.Appends out (bytesOf (op.emits ser b.objStream).2) ∧
      ((b' = (b.received ser op out).spill.1 ∧ cs = (b.received ser op out).spill.2) ∨
        (op.force = false ∧ b' = b.received ser op out ∧ cs = [])) := by
  obtain ⟨out, c₁, hemit, hcases⟩ := step_cases hstep
  obtain ⟨s₁, happends, hzero, hcalls, hflush⟩ := emits_lawful hser h.staged hemit
  refine ⟨s₁, happends, ?_⟩
  rcases hcases with ⟨rfl, rfl⟩ | ⟨hforce, rfl, rfl⟩
  · exact .inl ⟨received_spill_eq hflush, hcalls⟩
  · obtain ⟨rfl, rfl⟩ := hzero hforce
    exact .inr ⟨hforce, rfl, rfl⟩

/-- Every call keeps the bytes in order. -/
theorem Stores.step (hser : ser.Lawful) (h : Stores b bytes calls)
    (hstep : b.step ser t op = .ok (b', cs)) :
    Stores b' (bytes ++ bytesOf (op.emits ser b.objStream).2) (calls ++ cs) := by
  obtain ⟨out, happends, hcases⟩ := step_lawful hser h hstep
  have hstaged := h.stage ser op happends
  rcases hcases with ⟨rfl, rfl⟩ | ⟨_, rfl, rfl⟩
  · exact hstaged.spill
  · rw [List.append_nil]
    exact hstaged

/-- A flush hands over the rest. -/
theorem Stores.handedOver_all (h : Stores b bytes calls) :
    handedOver (calls ++ b.pmemOutputStream.flush.2) = bytes := by
  rw [handedOver_append, handedOver_flush h.staged h.flushed, h.bytes_eq]

/-- A new stream has staged what the serializer emits at once, and stored nothing. -/
theorem stores_new (hser : ser.Lawful) {blockId : String} {data : Mem}
    (h : NvmBlockOutputStream.new ser blockId data = .ok (b, cs)) :
    Stores b (bytesOf ser.start.2) cs ∧ cs = [] := by
  obtain ⟨arrays, harrays⟩ := hser.start
  cases hemit : (NvmOutputStream.new blockId data).emitAll ser.start.2 with
  | error e =>
    rw [NvmBlockOutputStream.new, hemit] at h
    simp [bind, Except.bind] at h
  | ok r =>
    rw [NvmBlockOutputStream.new, hemit] at h
    have hpair := Except.ok.inj h
    rw [Prod.mk.injEq] at hpair
    rw [harrays] at hemit
    obtain ⟨hcalls, happends⟩ :=
      NvmOutputStream.emit_arrays (NvmOutputStream.staged_new blockId data) hemit
    have hbytes := bytesOf_arrays arrays 0
    rw [List.replicate_zero, List.append_nil] at hbytes
    rw [harrays, hbytes, ← hpair.1, ← hpair.2, hcalls]
    exact ⟨⟨happends.staged, happends.flushed, happends.unflushed⟩, rfl⟩

/-! ## Counting blocks -/

/-- Whether a call stores a block: `spill` is reached, and bytes were staged. -/
def storesBlock (ser : SerializerInstance R S) (t : Int) (a : Account S) (op : BlockOp R) : Bool :=
  let g := a.staging.emitAll (op.emits ser a.obj).2
  decide (((t ≠ -1 ∧ t ≤ g.remaining) ∨ op.force = true) ∧ 0 < g.position)

/-- How many blocks the calls store. -/
def blockCountFrom (ser : SerializerInstance R S) (t : Int) : Account S → List (BlockOp R) → Nat
  | _, [] => 0
  | a, op :: ops =>
    (if storesBlock ser t a op then 1 else 0) + blockCountFrom ser t (a.next ser t op) ops

/-- How many blocks the calls on a new stream store. -/
def blockCount (ser : SerializerInstance R S) (t : Int) (ops : List (BlockOp R)) : Nat :=
  blockCountFrom ser t (.start ser) ops

theorem blockCountFrom_concat (a : Account S) (ops : List (BlockOp R)) (op : BlockOp R) :
    blockCountFrom ser t a (ops ++ [op]) = blockCountFrom ser t a ops +
      if storesBlock ser t (ops.foldl (Account.next ser t) a) op then 1 else 0 := by
  induction ops generalizing a with
  | nil => exact Nat.add_comm ..
  | cons first ops ih =>
    rw [List.cons_append, blockCountFrom, ih, blockCountFrom, Nat.add_assoc]
    rfl

variable {a : Account S}

/-- A call stores one block or none. -/
theorem length_step (hser : ser.Lawful) (h : Stores b bytes calls) (ha : Accounts b a)
    (hstep : b.step ser t op = .ok (b', cs)) :
    Accounts b' (a.next ser t op) ∧ cs.length = if storesBlock ser t a op then 1 else 0 := by
  have hroom : a.HasRoom ser op := by
    by_contra hfull
    obtain ⟨e, herror⟩ := ha.step_error (t := t) hfull
    rw [herror] at hstep
    simp at hstep
  obtain ⟨b₁, cs₁, hstep₁, hnext⟩ := ha.step (t := t) hroom
  rw [hstep, Except.ok.injEq, Prod.mk.injEq] at hstep₁
  refine ⟨by rw [hstep₁.1]; exact hnext, ?_⟩
  obtain ⟨out, c₁, hemit, hcounts⟩ := ha.2.emitAll hroom
  rw [← ha.1] at hemit
  obtain ⟨s₁, happends, hzero, hcalls, hflush⟩ := emits_lawful hser h.staged hemit
  rw [step_of_emits hemit, Except.ok.injEq, Prod.mk.injEq] at hstep
  -- the position counts what is staged, since nothing of it is flushed yet
  have hposition : s₁.bufferRemainingSize =
      (a.staging.emitAll (op.emits ser a.obj).2).position := by
    have hbuffer := congrArg NvmOutputStream.byteBuffer hflush
    rw [out.flush_spec.2.2.1, s₁.flush_spec.2.2.1] at hbuffer
    have hstaged := happends.staged.position
    rw [happends.flushed, h.flushed, Nat.zero_add] at hstaged
    rw [← hcounts.position, hbuffer, hstaged]
  have hcond : NvmBlockOutputStream.Throttles t op.force out ↔
      (t ≠ -1 ∧ t ≤ (a.staging.emitAll (op.emits ser a.obj).2).remaining) ∨ op.force = true := by
    rw [NvmBlockOutputStream.Throttles, NvmOutputStream.remainingSize, hcounts.remaining]
  by_cases hthrottle : NvmBlockOutputStream.Throttles t op.force out
  · rw [if_pos hthrottle, hcalls, (b.received ser op s₁).spill_stream.2.1,
      (received_fields ser b op s₁).1, NvmOutputStream.spill_calls, NvmOutputStream.flush,
      hposition] at hstep
    rw [← hstep.2, storesBlock]
    by_cases hpos : 0 < (a.staging.emitAll (op.emits ser a.obj).2).position
    · rw [if_pos hpos, if_pos (decide_eq_true ⟨hcond.mp hthrottle, hpos⟩)]
      rfl
    · rw [if_neg hpos, if_neg (by rw [decide_eq_true_eq]; exact fun hand => hpos hand.2)]
      rfl
  · have hforce : op.force = false := by
      rw [← Bool.not_eq_true]
      exact fun hforce => hthrottle (.inr hforce)
    rw [if_neg hthrottle, (hzero hforce).2] at hstep
    rw [← hstep.2, storesBlock,
      if_neg (by rw [decide_eq_true_eq]; exact fun hand => hthrottle (hcond.mpr hand.1))]
    rfl

/-- `b` after the calls `ops`, with as many blocks as they store. -/
structure BlocksCounted (ser : SerializerInstance R S) (t : Int) (ops : List (BlockOp R))
    (b : NvmBlockOutputStream S) (calls : List SetBlock) : Prop where
  accounts : Accounts b (ops.foldl (Account.next ser t) (.start ser))
  stores : ∃ bytes, Stores b bytes calls
  length : calls.length = blockCount ser t ops

theorem blocksCounted_new (hser : ser.Lawful) {blockId : String} {data : Mem}
    (h : NvmBlockOutputStream.new ser blockId data = .ok (b, cs)) :
    BlocksCounted ser t [] b cs := by
  obtain ⟨hstores, hnone⟩ := stores_new hser h
  exact ⟨accounts_of_new h, ⟨_, hstores⟩, by rw [hnone]; rfl⟩

theorem BlocksCounted.step (hser : ser.Lawful) {done : List (BlockOp R)}
    (h : BlocksCounted ser t done b calls) (hstep : b.step ser t op = .ok (b', cs)) :
    BlocksCounted ser t (done ++ [op]) b' (calls ++ cs) := by
  obtain ⟨bytes, hstores⟩ := h.stores
  obtain ⟨hnext, hcount⟩ := length_step hser hstores h.accounts hstep
  constructor
  · rw [List.foldl_append]
    exact hnext
  · exact ⟨_, hstores.step hser hstep⟩
  · rw [List.length_append, h.length, hcount, blockCount, blockCount, blockCountFrom_concat]

/-- The number of blocks of a stream. -/
theorem length_calls_eq (hser : ser.Lawful) {key : String} {data : Mem} {ops : List (BlockOp R)}
    (h : NvmBlockOutputStream.runOps ser t key data ops = .ok (b, calls)) :
    calls.length = blockCount ser t ops :=
  (runOps_invariant (I := BlocksCounted ser t) (fun _ _ hnew => blocksCounted_new hser hnew)
    (fun _ _ _ _ _ _ hI hstep => hI.step hser hstep) h).length

end

end SparkNvm.Storage
