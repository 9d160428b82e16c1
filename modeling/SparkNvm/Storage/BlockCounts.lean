import SparkNvm.Storage.BlockOutputStream

/-!
# What a block stream counts

Every serializer: how many bytes a `nvmBlockOutputStream` has handed over, and what its
`size` and `spilled` say of them.

* `emitted` is what the serializer emits during calls, `handedOver` what the calls of
  `setPartition` carry.
* `Counted` is the invariant of the block stream and `Counted.step` says that every call
  keeps it.
-/

namespace SparkNvm.Storage

open Lib

/-! ## What the serializer emits -/

/-- The bytes of one request. -/
def Emit.bytes : Emit → List UInt8
  | .array bytes => bytes
  | .flush => []

/-- The bytes of the requests in order. -/
def bytesOf (emits : List Emit) : List UInt8 := emits.flatMap Emit.bytes

section

variable {R S : Type} {ser : SerializerInstance R S}

/-- The state of the serializer after the calls. -/
def objAfter (ser : SerializerInstance R S) (obj : S) (ops : List (BlockOp R)) : S :=
  ops.foldl (fun obj op => (op.emits ser obj).1) obj

/-- What the serializer emits during the calls. -/
def emittedFrom (ser : SerializerInstance R S) : S → List (BlockOp R) → List UInt8
  | _, [] => []
  | obj, op :: ops =>
    bytesOf (op.emits ser obj).2 ++ emittedFrom ser (op.emits ser obj).1 ops

/-- What the serializer of a new stream emits. -/
def emitted (ser : SerializerInstance R S) (ops : List (BlockOp R)) : List UInt8 :=
  bytesOf ser.start.2 ++ emittedFrom ser ser.start.1 ops

theorem objAfter_concat (obj : S) (ops : List (BlockOp R)) (op : BlockOp R) :
    objAfter ser obj (ops ++ [op]) = (op.emits ser (objAfter ser obj ops)).1 := by
  rw [objAfter, List.foldl_append]
  rfl

theorem emittedFrom_concat (obj : S) (ops : List (BlockOp R)) (op : BlockOp R) :
    emittedFrom ser obj (ops ++ [op]) =
      emittedFrom ser obj ops ++ bytesOf (op.emits ser (objAfter ser obj ops)).2 := by
  induction ops generalizing obj with
  | nil => exact List.append_nil _
  | cons first ops ih =>
    rw [List.cons_append, emittedFrom, ih, emittedFrom, List.append_assoc]
    rfl

theorem emitted_concat (ops : List (BlockOp R)) (op : BlockOp R) :
    emitted ser (ops ++ [op]) =
      emitted ser ops ++ bytesOf (op.emits ser (objAfter ser ser.start.1 ops)).2 := by
  rw [emitted, emittedFrom_concat, emitted, List.append_assoc]

end

/-! ## The requests on the stream below -/

/-- The bytes that the calls hand over. -/
def handedOver (calls : List SetBlock) : List UInt8 := calls.flatMap SetBlock.value

theorem handedOver_append (calls cs : List SetBlock) :
    handedOver (calls ++ cs) = handedOver calls ++ handedOver cs := List.flatMap_append

namespace NvmOutputStream

variable {s s' : NvmOutputStream} {calls : List SetBlock} {emits : List Emit}

theorem flush_value_ne (s : NvmOutputStream) : ∀ call ∈ s.flush.2, call.value ≠ [] := by
  unfold flush
  split
  · rename_i hpos
    intro call hcall
    rw [List.mem_singleton.mp hcall]
    show loadBytes s.byteBuffer.data 0 s.bufferRemainingSize ≠ []
    rw [← List.length_pos_iff, loadBytes_length]
    exact hpos
  · simp

theorem length_handedOver_flush (s : NvmOutputStream) :
    (handedOver s.flush.2).length = s.bufferRemainingSize := by
  rw [handedOver, flush_values, loadBytes_length]

/-- The stream after requests: what they hand over is counted as flushed. -/
structure Carries (s s' : NvmOutputStream) (count : Nat) (calls : List SetBlock) : Prop where
  blockId : s'.blockId = s.blockId
  isClosed : s'.isClosed = s.isClosed
  keys : ∀ call ∈ calls, call.key = s.blockId
  value_ne : ∀ call ∈ calls, call.value ≠ []
  flushed : s'.bufferFlushedSize = s.bufferFlushedSize + (handedOver calls).length
  remaining : (handedOver calls).length + s'.bufferRemainingSize = s.bufferRemainingSize + count

theorem carries_flush (s : NvmOutputStream) : s.Carries s.flush.1 0 s.flush.2 := by
  obtain ⟨hrem, hflushed, _, hid, hclosed⟩ := s.flush_spec
  refine ⟨hid, hclosed, s.flush_keys, s.flush_value_ne, ?_, ?_⟩
  · rw [hflushed, length_handedOver_flush]
  · rw [hrem, length_handedOver_flush]

theorem carries_emit {e : Emit} (h : s.emit e = .ok (s', calls)) :
    s.Carries s' e.bytes.length calls := by
  cases e with
  | array bytes =>
    cases hput : s.byteBuffer.put bytes 0 bytes.length with
    | error e =>
      rw [emit, write, hput] at h
      simp [bind, Except.bind, Except.map] at h
    | ok byteBuffer =>
      rw [emit, write, hput] at h
      have hpair := Except.ok.inj h
      rw [Prod.mk.injEq] at hpair
      rw [← hpair.1, ← hpair.2]
      exact ⟨rfl, rfl, by simp, by simp, rfl, Nat.zero_add _⟩
  | flush =>
    have hpair : (s.flush.1, s.flush.2) = (s', calls) := Except.ok.inj h
    rw [Prod.mk.injEq] at hpair
    rw [← hpair.1, ← hpair.2]
    exact s.carries_flush

/-- Requests one after the other. -/
theorem Carries.trans {s₁ : NvmOutputStream} {m n : Nat} {cs : List SetBlock}
    (h : s.Carries s₁ m calls) (h' : s₁.Carries s' n cs) :
    s.Carries s' (m + n) (calls ++ cs) := by
  have hrem := h.remaining
  have hrem' := h'.remaining
  have hflushed := h.flushed
  have hflushed' := h'.flushed
  refine ⟨h'.blockId.trans h.blockId, h'.isClosed.trans h.isClosed, ?_, ?_, ?_, ?_⟩
  · intro call hcall
    cases List.mem_append.mp hcall with
    | inl hcall => exact h.keys call hcall
    | inr hcall => rw [h'.keys call hcall, h.blockId]
  · intro call hcall
    cases List.mem_append.mp hcall with
    | inl hcall => exact h.value_ne call hcall
    | inr hcall => exact h'.value_ne call hcall
  · rw [handedOver_append, List.length_append]
    omega
  · rw [handedOver_append, List.length_append]
    omega

theorem carries_emitAll (h : s.emitAll emits = .ok (s', calls)) :
    s.Carries s' (bytesOf emits).length calls := by
  induction emits generalizing s calls with
  | nil =>
    have hpair : (s, ([] : List SetBlock)) = (s', calls) := Except.ok.inj h
    rw [Prod.mk.injEq] at hpair
    rw [← hpair.1, ← hpair.2]
    exact ⟨rfl, rfl, by simp, by simp, rfl, Nat.add_comm ..⟩
  | cons e emits ih =>
    obtain ⟨s₁, c₁, c₂, hstep, hrest, rfl⟩ := runLog_cons_ok h
    rw [bytesOf, List.flatMap_cons, List.length_append]
    exact (carries_emit hstep).trans (ih hrest)

end NvmOutputStream

/-! ## The block stream -/

section

variable {R S : Type} {ser : SerializerInstance R S} {t : Int} {b b' : NvmBlockOutputStream S}
variable {op : BlockOp R} {total : Nat} {calls cs : List SetBlock}

/-- What a call that raised nothing did. -/
theorem step_cases (h : b.step ser t op = .ok (b', cs)) :
    ∃ out c₁, b.pmemOutputStream.emitAll (op.emits ser b.objStream).2 = .ok (out, c₁) ∧
      ((b' = (b.received ser op out).spill.1 ∧ cs = c₁ ++ (b.received ser op out).spill.2) ∨
        (op.force = false ∧ b' = b.received ser op out ∧ cs = c₁)) := by
  cases hemit : b.pmemOutputStream.emitAll (op.emits ser b.objStream).2 with
  | error e =>
    rw [step_of_emits_error hemit] at h
    simp at h
  | ok r =>
    refine ⟨r.1, r.2, rfl, ?_⟩
    rw [step_of_emits hemit, Except.ok.injEq, Prod.mk.injEq] at h
    by_cases hthrottle : NvmBlockOutputStream.Throttles t op.force r.1
    · rw [if_pos hthrottle] at h
      exact .inl ⟨h.1.symm, h.2.symm⟩
    · rw [if_neg hthrottle, List.append_nil] at h
      refine .inr ⟨?_, h.1.symm, h.2.symm⟩
      rw [← Bool.not_eq_true]
      exact fun hforce => hthrottle (.inr hforce)

/-- The block stream after `spill`, from the stream below after its `flush`. -/
def NvmBlockOutputStream.rewound (b : NvmBlockOutputStream S) (out : NvmOutputStream) :
    NvmBlockOutputStream S :=
  if 0 < out.bufferFlushedSize then
    { b with
      recordsArray := b.recordsArray ++ [b.recordsPerBlock]
      recordsPerBlock := 0
      size := wrap32 (b.size + out.bufferFlushedSize)
      pmemOutputStream := out.reset
      spilled := true }
  else { b with pmemOutputStream := out }

theorem spill_eq (b : NvmBlockOutputStream S) :
    b.spill.1 = b.rewound b.pmemOutputStream.flush.1 := by
  rw [NvmBlockOutputStream.spill, NvmBlockOutputStream.rewound]
  split <;> simp_all

/-- `b` after calls of `setPartition`: of `total` bytes they have handed over all but the
staged ones, and `size` and `spilled` speak of those handed over before the last reset. -/
structure Counted (b : NvmBlockOutputStream S) (total : Nat) (calls : List SetBlock) : Prop where
  isOpen : b.pmemOutputStream.isClosed = false
  streamId : b.pmemOutputStream.blockId = b.blockId
  keys : ∀ call ∈ calls, call.key = b.blockId
  value_ne : ∀ call ∈ calls, call.value ≠ []
  total_eq : (handedOver calls).length + b.pmemOutputStream.bufferRemainingSize = total
  flushed_le : b.pmemOutputStream.bufferFlushedSize ≤ (handedOver calls).length
  size : b.size =
    wrap32 ((handedOver calls).length - b.pmemOutputStream.bufferFlushedSize : Nat)
  spilled : b.spilled = true ↔ b.pmemOutputStream.bufferFlushedSize < (handedOver calls).length

/-- The requests of the serializer keep the counts. -/
theorem Counted.received (h : Counted b total calls) (ser : SerializerInstance R S) (op : BlockOp R)
    {out : NvmOutputStream} {count : Nat} (hc : b.pmemOutputStream.Carries out count cs) :
    Counted (b.received ser op out) (total + count) (calls ++ cs) := by
  obtain ⟨hout, _, hid, hsize, hspilled⟩ := received_fields ser b op out
  have htotal := h.total_eq
  have hle := h.flushed_le
  have hrem := hc.remaining
  have hflushed := hc.flushed
  have hsum : (handedOver (calls ++ cs)).length =
      (handedOver calls).length + (handedOver cs).length := by
    rw [handedOver_append, List.length_append]
  have hsame : (handedOver (calls ++ cs)).length - out.bufferFlushedSize =
      (handedOver calls).length - b.pmemOutputStream.bufferFlushedSize := by
    omega
  constructor
  · rw [hout, hc.isClosed]
    exact h.isOpen
  · rw [hout, hid, hc.blockId]
    exact h.streamId
  · intro call hcall
    rw [hid]
    cases List.mem_append.mp hcall with
    | inl hcall => exact h.keys call hcall
    | inr hcall => rw [hc.keys call hcall, h.streamId]
  · intro call hcall
    cases List.mem_append.mp hcall with
    | inl hcall => exact h.value_ne call hcall
    | inr hcall => exact hc.value_ne call hcall
  · rw [hout]
    omega
  · rw [hout]
    omega
  · rw [hout, hsize, hsame]
    exact h.size
  · rw [hout, hspilled, h.spilled]
    omega

/-- `spill` hands over what is staged, and nothing is left. -/
theorem Counted.spill (h : Counted b total calls) :
    Counted b.spill.1 total (calls ++ b.spill.2) ∧
      b.spill.1.pmemOutputStream.bufferRemainingSize = 0 ∧
      b.spill.1.pmemOutputStream.bufferFlushedSize = 0 := by
  obtain ⟨_, hcalls, _, hid⟩ := b.spill_stream
  have hc := b.pmemOutputStream.carries_flush
  have hempty := b.pmemOutputStream.flush_spec.1
  have htotal := h.total_eq
  have hle := h.flushed_le
  have hrem := hc.remaining
  have hflushed := hc.flushed
  rw [hcalls, NvmOutputStream.spill_calls]
  have hsum : (handedOver (calls ++ b.pmemOutputStream.flush.2)).length =
      (handedOver calls).length + (handedOver b.pmemOutputStream.flush.2).length := by
    rw [handedOver_append, List.length_append]
  have hkeys : ∀ call ∈ calls ++ b.pmemOutputStream.flush.2, call.key = b.spill.1.blockId := by
    intro call hcall
    rw [hid]
    cases List.mem_append.mp hcall with
    | inl hcall => exact h.keys call hcall
    | inr hcall => rw [hc.keys call hcall, h.streamId]
  have hvalues : ∀ call ∈ calls ++ b.pmemOutputStream.flush.2, call.value ≠ [] := by
    intro call hcall
    cases List.mem_append.mp hcall with
    | inl hcall => exact h.value_ne call hcall
    | inr hcall => exact hc.value_ne call hcall
  rw [spill_eq] at hkeys ⊢
  rw [NvmBlockOutputStream.rewound] at hkeys ⊢
  by_cases hpos : 0 < b.pmemOutputStream.flush.1.bufferFlushedSize
  · rw [if_pos hpos] at hkeys ⊢
    refine ⟨⟨hc.isClosed.trans h.isOpen, hc.blockId.trans h.streamId, hkeys, hvalues, ?_,
      Nat.zero_le _, ?_, ?_⟩, rfl, rfl⟩
    · show (handedOver (calls ++ b.pmemOutputStream.flush.2)).length + 0 = total
      omega
    · show wrap32 (b.size + b.pmemOutputStream.flush.1.bufferFlushedSize) =
        wrap32 ((handedOver (calls ++ b.pmemOutputStream.flush.2)).length - 0 : Nat)
      rw [h.size, wrap32_add_left]
      congr 1
      omega
    · show true = true ↔ 0 < (handedOver (calls ++ b.pmemOutputStream.flush.2)).length
      exact iff_of_true rfl (by omega)
  · have hzero : b.pmemOutputStream.flush.1.bufferFlushedSize = 0 := by omega
    rw [if_neg hpos] at hkeys ⊢
    refine ⟨⟨hc.isClosed.trans h.isOpen, hc.blockId.trans h.streamId, hkeys, hvalues, ?_, ?_, ?_,
      ?_⟩, hempty, hzero⟩
    · show (handedOver (calls ++ b.pmemOutputStream.flush.2)).length +
        b.pmemOutputStream.flush.1.bufferRemainingSize = total
      omega
    · show b.pmemOutputStream.flush.1.bufferFlushedSize ≤ _
      omega
    · show b.size = wrap32 ((handedOver (calls ++ b.pmemOutputStream.flush.2)).length -
        b.pmemOutputStream.flush.1.bufferFlushedSize : Nat)
      rw [h.size]
      congr 2
      omega
    · show b.spilled = true ↔ b.pmemOutputStream.flush.1.bufferFlushedSize <
        (handedOver (calls ++ b.pmemOutputStream.flush.2)).length
      rw [h.spilled]
      omega

/-- Every call keeps the counts, and a forced one leaves nothing staged. -/
theorem Counted.step (h : Counted b total calls) (hstep : b.step ser t op = .ok (b', cs)) :
    Counted b' (total + (bytesOf (op.emits ser b.objStream).2).length) (calls ++ cs) ∧
      b'.objStream = (op.emits ser b.objStream).1 ∧ b'.blockId = b.blockId ∧
      (op.force = true → b'.pmemOutputStream.bufferRemainingSize = 0 ∧
        b'.pmemOutputStream.bufferFlushedSize = 0) := by
  obtain ⟨out, c₁, hemit, hcases⟩ := step_cases hstep
  have hcounted := h.received ser op (NvmOutputStream.carries_emitAll hemit)
  obtain ⟨_, hobj, hid, _⟩ := received_fields ser b op out
  rcases hcases with ⟨rfl, rfl⟩ | ⟨hforce, rfl, rfl⟩
  · obtain ⟨hspill, hempty⟩ := hcounted.spill
    obtain ⟨_, _, hobj', hid'⟩ := (b.received ser op out).spill_stream
    rw [List.append_assoc] at hspill
    exact ⟨hspill, hobj'.trans hobj, hid'.trans hid, fun _ => hempty⟩
  · exact ⟨hcounted, hobj, hid, fun hf => by simp [hforce] at hf⟩

/-- `close` hands over what is still staged. -/
theorem Counted.close (h : Counted b total calls) :
    (handedOver (calls ++ b.close.2)).length = total ∧ b.close.2 = b.pmemOutputStream.flush.2 ∧
      ∀ call ∈ b.close.2, call.key = b.blockId ∧ call.value ≠ [] := by
  obtain ⟨hcalls, _⟩ := NvmOutputStream.close_spec h.isOpen
  rw [NvmBlockOutputStream.close, hcalls]
  refine ⟨?_, rfl, ?_⟩
  · rw [handedOver_append, List.length_append, NvmOutputStream.length_handedOver_flush, h.total_eq]
  · intro call hcall
    rw [← h.streamId]
    exact ⟨b.pmemOutputStream.flush_keys call hcall, b.pmemOutputStream.flush_value_ne call hcall⟩

theorem counted_new {blockId : String} {data : Mem}
    (h : NvmBlockOutputStream.new ser blockId data = .ok (b, cs)) :
    Counted b (bytesOf ser.start.2).length cs ∧ b.objStream = ser.start.1 ∧
      b.blockId = blockId ∧ b.spilled = false := by
  cases hemit : (NvmOutputStream.new blockId data).emitAll ser.start.2 with
  | error e =>
    rw [NvmBlockOutputStream.new, hemit] at h
    simp [bind, Except.bind] at h
  | ok r =>
    have hc := NvmOutputStream.carries_emitAll hemit
    have hflushed : r.1.bufferFlushedSize = 0 + (handedOver r.2).length := hc.flushed
    have hrem : (handedOver r.2).length + r.1.bufferRemainingSize =
        0 + (bytesOf ser.start.2).length := hc.remaining
    rw [NvmBlockOutputStream.new, hemit] at h
    have hpair := Except.ok.inj h
    rw [Prod.mk.injEq] at hpair
    rw [← hpair.1, ← hpair.2]
    refine ⟨⟨hc.isClosed, hc.blockId, hc.keys, hc.value_ne, ?_, ?_, ?_, ?_⟩, rfl, rfl, rfl⟩
    · show (handedOver r.2).length + r.1.bufferRemainingSize = _
      omega
    · show r.1.bufferFlushedSize ≤ (handedOver r.2).length
      omega
    · show (0 : Int) = wrap32 ((handedOver r.2).length - r.1.bufferFlushedSize : Nat)
      rw [show (handedOver r.2).length - r.1.bufferFlushedSize = 0 by omega]
      exact wrap32_zero.symm
    · show false = true ↔ r.1.bufferFlushedSize < (handedOver r.2).length
      exact iff_of_false Bool.false_ne_true (by omega)

/-! ## Counting the records -/

theorem records_new {blockId : String} {data : Mem}
    (h : NvmBlockOutputStream.new ser blockId data = .ok (b, cs)) :
    b.records = 0 ∧ b.recordsPerBlock = 0 ∧ b.recordsArray = [] := by
  cases hemit : (NvmOutputStream.new blockId data).emitAll ser.start.2 with
  | error e =>
    rw [NvmBlockOutputStream.new, hemit] at h
    simp [bind, Except.bind] at h
  | ok r =>
    rw [NvmBlockOutputStream.new, hemit] at h
    have hpair := Except.ok.inj h
    rw [Prod.mk.injEq] at hpair
    rw [← hpair.1]
    exact ⟨rfl, rfl, rfl⟩

theorem records_spill (b : NvmBlockOutputStream S) : b.spill.1.records = b.records := by
  rw [NvmBlockOutputStream.spill]
  split <;> rfl

/-- Only the requests of the serializer come with a count. -/
theorem records_step (h : b.step ser t op = .ok (b', cs)) :
    ∃ out, b'.records = (b.received ser op out).records := by
  obtain ⟨out, c₁, _, hcases⟩ := step_cases h
  rcases hcases with ⟨hb, _⟩ | ⟨_, hb, _⟩
  · exact ⟨out, by rw [hb, records_spill]⟩
  · exact ⟨out, by rw [hb]⟩

end

end SparkNvm.Storage
