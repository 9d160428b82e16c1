import SparkNvm.Lib.Int32
import SparkNvm.Lib.Logged
import SparkNvm.Storage.OutputStream

/-!
# `nvmBlockOutputStream`

The writer of one block.  Records go through a serializer, which is not part of the
repository, into the 6 MiB buffer of an `nvmOutputStream`; `maybeSpill` looks at the
buffer after every record.

* `SerializerInstance` is what the code uses of the serializer.
* `NvmBlockOutputStream` and its methods, as in the source.  A method returns the calls
  of `setPartition` that it makes, in order.
* `Staging` counts the staged bytes, and `staging_fits_iff` says from these counts
  exactly when no write overflows the buffer.
-/

namespace SparkNvm.Storage

open Lib

/-! ## The serializer -/

/-- What a serialization stream does to the stream below it. -/
inductive Emit where
  | array (bytes : List UInt8)
  | flush
  deriving DecidableEq, Repr

/-- `SerializationStream` over records of type `R`, with a state `S` of its own: what
it does to the stream below when it is opened, for `writeKey` and `writeValue`, and for
`flush`. -/
structure SerializerInstance (R S : Type) where
  start : S × List Emit
  write : S → R → S × List Emit
  flush : S → S × List Emit

/-- One request of the serializer. -/
def NvmOutputStream.emit (s : NvmOutputStream) :
    Emit → Except JavaError (NvmOutputStream × List SetBlock)
  | .array bytes => (s.write bytes 0 bytes.length).map fun s => (s, [])
  | .flush => .ok s.flush

/-- `write(byte)` puts an `int`, so it is the request for an array of four bytes. -/
theorem NvmOutputStream.writeByte_eq_emit (s : NvmOutputStream) (byte : Int) :
    (s.writeByte byte).map (fun s => (s, [])) = s.emit (.array (intBytes byte)) := by
  have hlength : (intBytes byte).length = 4 := rfl
  rw [emit, writeByte, write, ByteBuffer.put, ByteBuffer.putInt, hlength, Nat.zero_add,
    if_neg (Nat.lt_irrefl 4), List.drop_zero, List.take_of_length_le (Nat.le_of_eq hlength)]

/-- The requests of the serializer in order. -/
def NvmOutputStream.emitAll :
    NvmOutputStream → List Emit → Except JavaError (NvmOutputStream × List SetBlock) :=
  runLog NvmOutputStream.emit

/-! ## The block stream -/

/-- `nvmBlockOutputStream`, less the task metrics. -/
structure NvmBlockOutputStream (S : Type) where
  blockId : String
  size : Int
  records : Int
  recordsPerBlock : Int
  recordsArray : List Int
  spilled : Bool
  pmemOutputStream : NvmOutputStream
  objStream : S

namespace NvmBlockOutputStream

variable {R S : Type}

/-- The constructor; `data` is what the pooled buffer holds. -/
def new (ser : SerializerInstance R S) (blockId : String) (data : Mem) :
    Except JavaError (NvmBlockOutputStream S × List SetBlock) := do
  let (out, calls) ← (NvmOutputStream.new blockId data).emitAll ser.start.2
  return ({ blockId := blockId
            size := 0
            records := 0
            recordsPerBlock := 0
            recordsArray := []
            spilled := false
            pmemOutputStream := out
            objStream := ser.start.1 }, calls)

/-- `flush()`. -/
def flush (ser : SerializerInstance R S) (b : NvmBlockOutputStream S) :
    Except JavaError (NvmBlockOutputStream S × List SetBlock) := do
  let (out, calls) ← b.pmemOutputStream.emitAll (ser.flush b.objStream).2
  return ({ b with pmemOutputStream := out, objStream := (ser.flush b.objStream).1 }, calls)

/-- The first lines of `maybeSpill`. -/
def flushIf (ser : SerializerInstance R S) (force : Bool) (b : NvmBlockOutputStream S) :
    Except JavaError (NvmBlockOutputStream S × List SetBlock) :=
  if force then b.flush ser else .ok (b, [])

/-- The body of `maybeSpill` under its condition. -/
def spill (b : NvmBlockOutputStream S) : NvmBlockOutputStream S × List SetBlock :=
  let out := b.pmemOutputStream.flush
  let bufSize := out.1.bufferFlushedSize
  if 0 < bufSize then
    ({ b with
        recordsArray := b.recordsArray ++ [b.recordsPerBlock]
        recordsPerBlock := 0
        size := wrap32 (b.size + bufSize)
        pmemOutputStream := out.1.reset
        spilled := true },
      out.2)
  else ({ b with pmemOutputStream := out.1 }, out.2)

/-- The condition of `maybeSpill`. -/
def Throttles (t : Int) (force : Bool) (out : NvmOutputStream) : Prop :=
  (t ≠ -1 ∧ t ≤ out.remainingSize) ∨ force = true

instance (t : Int) (force : Bool) (out : NvmOutputStream) : Decidable (Throttles t force out) := by
  unfold Throttles
  infer_instance

/-- `maybeSpill(force)`, with `t` for `nvmconf.spill_throttle`. -/
def maybeSpill (ser : SerializerInstance R S) (t : Int) (force : Bool)
    (b : NvmBlockOutputStream S) :
    Except JavaError (NvmBlockOutputStream S × List SetBlock) := do
  let (b, calls) ← b.flushIf ser force
  if Throttles t force b.pmemOutputStream then return (b.spill.1, calls ++ b.spill.2)
  else return (b, calls)

/-- `write(key, value)`. -/
def write (ser : SerializerInstance R S) (t : Int) (record : R) (b : NvmBlockOutputStream S) :
    Except JavaError (NvmBlockOutputStream S × List SetBlock) := do
  let (out, calls) ← b.pmemOutputStream.emitAll (ser.write b.objStream record).2
  let b : NvmBlockOutputStream S := { b with
    pmemOutputStream := out
    objStream := (ser.write b.objStream record).1
    records := wrap32 (b.records + 1)
    recordsPerBlock := wrap32 (b.recordsPerBlock + 1) }
  let (b, calls') ← b.maybeSpill ser t false
  return (b, calls ++ calls')

/-- `close()`. -/
def close (b : NvmBlockOutputStream S) : NvmBlockOutputStream S × List SetBlock :=
  ({ b with pmemOutputStream := b.pmemOutputStream.close.1 }, b.pmemOutputStream.close.2)

/-- `getSize()`. -/
def getSize (b : NvmBlockOutputStream S) : Int := b.size

end NvmBlockOutputStream

/-! ## Counting the staged bytes -/

/-- How far the buffer is filled since the last reset, and how much of it is not
flushed. -/
structure Staging where
  position : Nat
  remaining : Nat
  deriving DecidableEq, Repr

/-- One request of the serializer. -/
def Staging.emit (g : Staging) : Emit → Staging
  | .array bytes => ⟨g.position + bytes.length, g.remaining + bytes.length⟩
  | .flush => ⟨g.position, 0⟩

/-- There is room for the request. -/
def Staging.Room (g : Staging) : Emit → Prop
  | .array bytes => g.position + bytes.length ≤ bufferLength
  | .flush => True

/-- All requests. -/
def Staging.emitAll (g : Staging) (emits : List Emit) : Staging := emits.foldl Staging.emit g

/-- The end of `maybeSpill`: the buffer is rewound, or not. -/
def Staging.spill (t : Int) (force : Bool) (g : Staging) : Staging :=
  if (t ≠ -1 ∧ t ≤ g.remaining) ∨ force = true then ⟨0, 0⟩ else g

/-- The stream is in the state that the counts say. -/
structure Counts (s : NvmOutputStream) (g : Staging) : Prop where
  staged : s.Staged
  position : s.byteBuffer.position = g.position
  remaining : s.bufferRemainingSize = g.remaining

section

variable {s : NvmOutputStream} {g : Staging}

theorem Counts.emit (h : Counts s g) {e : Emit} (hroom : g.Room e) :
    ∃ s' calls, s.emit e = .ok (s', calls) ∧ Counts s' (g.emit e) := by
  have hpos := h.position
  have hrem := h.remaining
  cases e with
  | array bytes =>
    have hfits : s.byteBuffer.position + bytes.length ≤ bufferLength := by
      rw [hpos]
      exact hroom
    have hwrite := NvmOutputStream.write_ok (Nat.le_of_eq (Nat.zero_add bytes.length)) hfits
    obtain ⟨s', hwrite', hstaged, _, hpos', _⟩ := NvmOutputStream.write_spec h.staged
      (Nat.le_of_eq (Nat.zero_add bytes.length)) hfits
    rw [hwrite, Except.ok.injEq] at hwrite'
    refine ⟨s', [], ?_, hstaged, ?_, ?_⟩
    · rw [NvmOutputStream.emit, hwrite, hwrite']
      rfl
    · rw [hpos', hpos]
      rfl
    · rw [← hwrite']
      show s.bufferRemainingSize + bytes.length = g.remaining + bytes.length
      rw [hrem]
  | flush =>
    obtain ⟨hrem', _, hbuf, _⟩ := s.flush_spec
    refine ⟨s.flush.1, s.flush.2, rfl, h.staged.flush, ?_, hrem'⟩
    rw [hbuf]
    exact hpos

theorem Counts.emit_error (h : Counts s g) {e : Emit} (hroom : ¬g.Room e) :
    s.emit e = .error .bufferOverflow := by
  have hpos := h.position
  cases e with
  | array bytes =>
    have hfull : bufferLength < g.position + bytes.length := Nat.lt_of_not_le hroom
    rw [NvmOutputStream.emit, NvmOutputStream.write, ByteBuffer.put, if_neg (by omega),
      if_pos (by omega)]
    rfl
  | flush => exact absurd trivial hroom

/-- The position only grows, so the last one decides. -/
theorem Staging.position_le (g : Staging) (emits : List Emit) :
    g.position ≤ (g.emitAll emits).position := by
  induction emits generalizing g with
  | nil => exact Nat.le_refl _
  | cons e emits ih =>
    refine Nat.le_trans ?_ (ih (g.emit e))
    cases e with
    | array bytes => exact Nat.le_add_right _ _
    | flush => exact Nat.le_refl _

theorem Staging.room_iff (g : Staging) (hg : g.position ≤ bufferLength) (emits : List Emit) :
    Admissible (fun g e => some (g.emit e)) Staging.Room g emits ↔
      (g.emitAll emits).position ≤ bufferLength := by
  induction emits generalizing g with
  | nil => exact iff_of_true trivial hg
  | cons e emits ih =>
    have hle := Staging.position_le (g.emit e) emits
    have hroom : g.Room e ↔ (g.emit e).position ≤ bufferLength := by
      cases e with
      | array bytes => exact Iff.rfl
      | flush => exact iff_of_true trivial hg
    constructor
    · rintro ⟨he, hrest⟩
      exact (ih (g.emit e) (hroom.mp he)).mp (hrest _ rfl)
    · intro hlast
      have hlast' : ((g.emit e).emitAll emits).position ≤ bufferLength := hlast
      have he : (g.emit e).position ≤ bufferLength := Nat.le_trans hle hlast'
      refine ⟨hroom.mpr he, fun g' hg' => ?_⟩
      rw [← Option.some.inj hg']
      exact (ih (g.emit e) he).mpr hlast'

theorem Counts.emitAll (h : Counts s g) {emits : List Emit}
    (hroom : (g.emitAll emits).position ≤ bufferLength) :
    ∃ s' calls, s.emitAll emits = .ok (s', calls) ∧ Counts s' (g.emitAll emits) := by
  have hg : g.position ≤ bufferLength := Nat.le_trans (g.position_le emits) hroom
  exact runLog_follows (fun s g e hc he => Counts.emit hc he) h ((g.room_iff hg emits).mpr hroom)

theorem Counts.emitAll_error (h : Counts s g) {emits : List Emit}
    (hroom : ¬(g.emitAll emits).position ≤ bufferLength) :
    ∃ e, s.emitAll emits = .error e := by
  have hg : g.position ≤ bufferLength := by
    rw [← h.position]
    exact h.staged.fits
  have hiff : (∃ r, s.emitAll emits = .ok r) ↔
      Admissible (fun g e => some (g.emit e)) Staging.Room g emits :=
    runLog_ok_iff (R := Counts) (fun s g e hc he => hc.emit he)
      (fun s g e hc he => ⟨_, hc.emit_error he⟩) h
  cases hrun : s.emitAll emits with
  | error e => exact ⟨e, rfl⟩
  | ok r => exact absurd ((g.room_iff hg emits).mp (hiff.mp ⟨r, hrun⟩)) hroom

/-- `maybeSpill` rewinds the buffer. -/
theorem Counts.spill (h : Counts s g) : Counts s.spill.1 ⟨0, 0⟩ := by
  obtain ⟨hrem, _, hpos, _⟩ := NvmOutputStream.spill_spec h.staged
  exact ⟨h.staged.spill, hpos, hrem⟩

end

/-! ## Sequences of calls -/

/-- A call on the block stream. -/
inductive BlockOp (R : Type) where
  | write (record : R)
  | maybeSpill (force : Bool)
  deriving DecidableEq, Repr

section

variable {R S : Type}

/-- What the serializer does during the call. -/
def BlockOp.emits (ser : SerializerInstance R S) (obj : S) : BlockOp R → S × List Emit
  | .write record => ser.write obj record
  | .maybeSpill true => ser.flush obj
  | .maybeSpill false => (obj, [])

/-- The `force` that `maybeSpill` gets. -/
def BlockOp.force : BlockOp R → Bool
  | .write _ => false
  | .maybeSpill force => force

namespace NvmBlockOutputStream

/-- One call. -/
def step (ser : SerializerInstance R S) (t : Int) (b : NvmBlockOutputStream S) :
    BlockOp R → Except JavaError (NvmBlockOutputStream S × List SetBlock)
  | .write record => b.write ser t record
  | .maybeSpill force => b.maybeSpill ser t force

/-- A new stream and a sequence of calls on it. -/
def runOps (ser : SerializerInstance R S) (t : Int) (blockId : String) (data : Mem)
    (ops : List (BlockOp R)) : Except JavaError (NvmBlockOutputStream S × List SetBlock) :=
  match new ser blockId data with
  | .error e => .error e
  | .ok (b, calls) => (runLog (step ser t) b ops).map fun r => (r.1, calls ++ r.2)

theorem spill_stream (b : NvmBlockOutputStream S) :
    b.spill.1.pmemOutputStream = b.pmemOutputStream.spill.1 ∧
      b.spill.2 = b.pmemOutputStream.spill.2 ∧ b.spill.1.objStream = b.objStream ∧
      b.spill.1.blockId = b.blockId := by
  simp only [spill, NvmOutputStream.spill]
  split
  · exact ⟨rfl, rfl, rfl, rfl⟩
  · exact ⟨rfl, rfl, rfl, rfl⟩

end NvmBlockOutputStream

/-- The state of the serializer and the counts. -/
structure Account (S : Type) where
  obj : S
  staging : Staging

/-- The counts after one call. -/
def Account.next (ser : SerializerInstance R S) (t : Int) (a : Account S) (op : BlockOp R) :
    Account S :=
  { obj := (op.emits ser a.obj).1
    staging := (a.staging.emitAll (op.emits ser a.obj).2).spill t op.force }

/-- The bytes staged before the call and those that the serializer adds fit. -/
def Account.HasRoom (ser : SerializerInstance R S) (a : Account S) (op : BlockOp R) : Prop :=
  (a.staging.emitAll (op.emits ser a.obj).2).position ≤ bufferLength

/-- The counts of a new stream. -/
def Account.start (ser : SerializerInstance R S) : Account S :=
  { obj := ser.start.1, staging := Staging.emitAll ⟨0, 0⟩ ser.start.2 }

/-- Every call has room, counted from the lengths of what the serializer emits. -/
def Fits (ser : SerializerInstance R S) (t : Int) (ops : List (BlockOp R)) : Prop :=
  (Account.start ser).staging.position ≤ bufferLength ∧
    Admissible (fun a op => some (a.next ser t op)) (Account.HasRoom ser) (.start ser) ops

/-- The block stream is in the state that the account says. -/
def Accounts (b : NvmBlockOutputStream S) (a : Account S) : Prop :=
  b.objStream = a.obj ∧ Counts b.pmemOutputStream a.staging

variable {ser : SerializerInstance R S} {t : Int} {b : NvmBlockOutputStream S} {a : Account S}

/-- The end of both calls: `maybeSpill` after the requests of the serializer. -/
theorem Counts.throttle (t : Int) (force : Bool) {g : Staging} (h : Counts b.pmemOutputStream g) :
    ∃ b' calls, (if NvmBlockOutputStream.Throttles t force b.pmemOutputStream then b.spill
        else (b, [])) = (b', calls) ∧
      b'.objStream = b.objStream ∧ Counts b'.pmemOutputStream (g.spill t force) := by
  have hcond : NvmBlockOutputStream.Throttles t force b.pmemOutputStream ↔
      (t ≠ -1 ∧ t ≤ g.remaining) ∨ force = true := by
    rw [NvmBlockOutputStream.Throttles, NvmOutputStream.remainingSize, h.remaining]
  by_cases hthrottle : NvmBlockOutputStream.Throttles t force b.pmemOutputStream
  · obtain ⟨hstream, _, hobj, _⟩ := b.spill_stream
    refine ⟨b.spill.1, b.spill.2, if_pos hthrottle, hobj, ?_⟩
    rw [hstream, Staging.spill, if_pos (hcond.mp hthrottle)]
    exact h.spill
  · refine ⟨b, [], if_neg hthrottle, rfl, ?_⟩
    rw [Staging.spill, if_neg (fun hc => hthrottle (hcond.mpr hc))]
    exact h

/-- `maybeSpill` once the serializer is flushed. -/
theorem maybeSpill_eq {force : Bool} {b₁ : NvmBlockOutputStream S} {calls : List SetBlock}
    (hflush : b.flushIf ser force = .ok (b₁, calls)) :
    b.maybeSpill ser t force = .ok
      ((if NvmBlockOutputStream.Throttles t force b₁.pmemOutputStream then b₁.spill
          else (b₁, [])).1,
        calls ++ (if NvmBlockOutputStream.Throttles t force b₁.pmemOutputStream then b₁.spill
          else (b₁, [])).2) := by
  rw [NvmBlockOutputStream.maybeSpill, hflush]
  show (if NvmBlockOutputStream.Throttles t force b₁.pmemOutputStream then
    Except.ok (b₁.spill.1, calls ++ b₁.spill.2) else Except.ok (b₁, calls)) = _
  split
  · rfl
  · rw [List.append_nil]

/-- The block stream once the requests of the serializer are done. -/
def NvmBlockOutputStream.received (b : NvmBlockOutputStream S) (ser : SerializerInstance R S)
    (op : BlockOp R) (out : NvmOutputStream) : NvmBlockOutputStream S :=
  match op with
  | .write record => { b with
      pmemOutputStream := out
      objStream := (ser.write b.objStream record).1
      records := wrap32 (b.records + 1)
      recordsPerBlock := wrap32 (b.recordsPerBlock + 1) }
  | .maybeSpill force => { b with
      pmemOutputStream := out
      objStream := ((BlockOp.maybeSpill force).emits ser b.objStream).1 }

theorem received_fields (ser : SerializerInstance R S) (b : NvmBlockOutputStream S)
    (op : BlockOp R) (out : NvmOutputStream) :
    (b.received ser op out).pmemOutputStream = out ∧
      (b.received ser op out).objStream = (op.emits ser b.objStream).1 ∧
      (b.received ser op out).blockId = b.blockId ∧ (b.received ser op out).size = b.size ∧
      (b.received ser op out).spilled = b.spilled := by
  cases op with
  | write record => exact ⟨rfl, rfl, rfl, rfl, rfl⟩
  | maybeSpill force => exact ⟨rfl, rfl, rfl, rfl, rfl⟩

/-- The first lines of `maybeSpill`, as the requests of the serializer. -/
theorem flushIf_of_emits {force : Bool} {out : NvmOutputStream} {c₁ : List SetBlock}
    (h : b.pmemOutputStream.emitAll ((BlockOp.maybeSpill force).emits ser b.objStream).2 =
      .ok (out, c₁)) :
    b.flushIf ser force = .ok (b.received ser (.maybeSpill force) out, c₁) := by
  cases force with
  | false =>
    have hpair : (b.pmemOutputStream, ([] : List SetBlock)) = (out, c₁) := Except.ok.inj h
    rw [Prod.mk.injEq] at hpair
    rw [← hpair.1, ← hpair.2]
    rfl
  | true =>
    have hemit : b.pmemOutputStream.emitAll (ser.flush b.objStream).2 = .ok (out, c₁) := h
    rw [NvmBlockOutputStream.flushIf, if_pos rfl, NvmBlockOutputStream.flush, hemit]
    rfl

theorem flushIf_of_emits_error {force : Bool} {e : JavaError}
    (h : b.pmemOutputStream.emitAll ((BlockOp.maybeSpill force).emits ser b.objStream).2 =
      .error e) :
    b.flushIf ser force = .error e := by
  cases force with
  | false =>
    have hnone : b.pmemOutputStream.emitAll [] = .error e := h
    simp [NvmOutputStream.emitAll, runLog] at hnone
  | true =>
    have hemit : b.pmemOutputStream.emitAll (ser.flush b.objStream).2 = .error e := h
    rw [NvmBlockOutputStream.flushIf, if_pos rfl, NvmBlockOutputStream.flush, hemit]
    rfl

/-- Every call is the requests of the serializer and then `spill` or not. -/
theorem step_of_emits {op : BlockOp R} {out : NvmOutputStream} {c₁ : List SetBlock}
    (h : b.pmemOutputStream.emitAll (op.emits ser b.objStream).2 = .ok (out, c₁)) :
    b.step ser t op = .ok
      ((if NvmBlockOutputStream.Throttles t op.force out then (b.received ser op out).spill
          else (b.received ser op out, [])).1,
        c₁ ++ (if NvmBlockOutputStream.Throttles t op.force out then
          (b.received ser op out).spill else (b.received ser op out, [])).2) := by
  cases op with
  | write record =>
    have hemit : b.pmemOutputStream.emitAll (ser.write b.objStream record).2 = .ok (out, c₁) := h
    rw [NvmBlockOutputStream.step, NvmBlockOutputStream.write, hemit]
    show (NvmBlockOutputStream.maybeSpill ser t false _ >>= _) = _
    rw [maybeSpill_eq rfl]
    rfl
  | maybeSpill force =>
    rw [NvmBlockOutputStream.step, maybeSpill_eq (flushIf_of_emits h)]
    rfl

theorem step_of_emits_error {op : BlockOp R} {e : JavaError}
    (h : b.pmemOutputStream.emitAll (op.emits ser b.objStream).2 = .error e) :
    b.step ser t op = .error e := by
  cases op with
  | write record =>
    have hemit : b.pmemOutputStream.emitAll (ser.write b.objStream record).2 = .error e := h
    rw [NvmBlockOutputStream.step, NvmBlockOutputStream.write, hemit]
    rfl
  | maybeSpill force =>
    rw [NvmBlockOutputStream.step, NvmBlockOutputStream.maybeSpill, flushIf_of_emits_error h]
    rfl

theorem Accounts.step (h : Accounts b a) {op : BlockOp R} (hroom : a.HasRoom ser op) :
    ∃ b' calls, b.step ser t op = .ok (b', calls) ∧ Accounts b' (a.next ser t op) := by
  obtain ⟨out, calls, hemit, hcounts⟩ := h.2.emitAll hroom
  rw [← h.1] at hemit
  obtain ⟨hout, hobj, _⟩ := received_fields ser b op out
  obtain ⟨b', calls', hend, hobj', hcounts'⟩ :=
    Counts.throttle t op.force (b := b.received ser op out) (by rwa [hout])
  rw [hout] at hend
  refine ⟨b', calls ++ calls', ?_, ?_, hcounts'⟩
  · rw [step_of_emits hemit, hend]
  · rw [hobj', hobj, h.1]
    rfl

/-- A call without room raises the exception of the buffer. -/
theorem Accounts.step_error (h : Accounts b a) {op : BlockOp R} (hroom : ¬a.HasRoom ser op) :
    ∃ e, b.step ser t op = .error e := by
  obtain ⟨e, hemit⟩ := h.2.emitAll_error hroom
  rw [← h.1] at hemit
  exact ⟨e, step_of_emits_error hemit⟩

theorem counts_new (blockId : String) (data : Mem) :
    Counts (NvmOutputStream.new blockId data) ⟨0, 0⟩ :=
  ⟨NvmOutputStream.staged_new blockId data, rfl, rfl⟩

/-- The constructor, when what the serializer emits at once fits. -/
theorem accounts_new (ser : SerializerInstance R S) (blockId : String) (data : Mem)
    (hroom : (Account.start ser).staging.position ≤ bufferLength) :
    ∃ b calls, NvmBlockOutputStream.new ser blockId data = .ok (b, calls) ∧
      Accounts b (.start ser) := by
  obtain ⟨out, calls, hemit, hcounts⟩ := (counts_new blockId data).emitAll hroom
  have hnew : NvmBlockOutputStream.new ser blockId data = .ok
      ({ blockId := blockId
         size := 0
         records := 0
         recordsPerBlock := 0
         recordsArray := []
         spilled := false
         pmemOutputStream := out
         objStream := ser.start.1 }, calls) := by
    rw [NvmBlockOutputStream.new, hemit]
    rfl
  exact ⟨_, calls, hnew, rfl, hcounts⟩

theorem new_error (ser : SerializerInstance R S) (blockId : String) (data : Mem)
    (hroom : ¬(Account.start ser).staging.position ≤ bufferLength) :
    ∃ e, NvmBlockOutputStream.new ser blockId data = .error e := by
  obtain ⟨e, hemit⟩ := (counts_new blockId data).emitAll_error hroom
  refine ⟨e, ?_⟩
  rw [NvmBlockOutputStream.new, hemit]
  rfl

theorem accounts_of_new {blockId : String} {data : Mem} {b : NvmBlockOutputStream S}
    {calls : List SetBlock} (h : NvmBlockOutputStream.new ser blockId data = .ok (b, calls)) :
    Accounts b (.start ser) := by
  by_cases hroom : (Account.start ser).staging.position ≤ bufferLength
  · obtain ⟨b', calls', hnew, haccounts⟩ := accounts_new ser blockId data hroom
    rw [h, Except.ok.injEq, Prod.mk.injEq] at hnew
    rw [hnew.1]
    exact haccounts
  · obtain ⟨e, herror⟩ := new_error ser blockId data hroom
    rw [h] at herror
    simp at herror

/-- The calls on a new stream raise nothing exactly if they have room. -/
theorem runOps_ok_iff (ser : SerializerInstance R S) (t : Int) (blockId : String) (data : Mem)
    (ops : List (BlockOp R)) :
    (∃ r, NvmBlockOutputStream.runOps ser t blockId data ops = .ok r) ↔ Fits ser t ops := by
  by_cases hroom : (Account.start ser).staging.position ≤ bufferLength
  · obtain ⟨b, calls, hnew, haccounts⟩ := accounts_new ser blockId data hroom
    have hiff : (∃ r, runLog (NvmBlockOutputStream.step ser t) b ops = .ok r) ↔
        Admissible (fun a op => some (a.next ser t op)) (Account.HasRoom ser) (.start ser) ops :=
      runLog_ok_iff (R := Accounts) (fun b a op h hop => h.step hop)
        (fun b a op h hop => h.step_error hop) haccounts
    rw [Fits, ← hiff, NvmBlockOutputStream.runOps, hnew]
    exact exists_map_ok.trans (and_iff_right hroom).symm
  · obtain ⟨e, hnew⟩ := new_error ser blockId data hroom
    refine iff_of_false ?_ fun hfits => hroom hfits.1
    rintro ⟨r, hr⟩
    rw [NvmBlockOutputStream.runOps, hnew] at hr
    simp at hr

/-- What a new stream has and every call keeps, with the calls so far and the blocks so far. -/
theorem runOps_invariant {t : Int} {blockId : String} {data : Mem} {ops : List (BlockOp R)}
    {b : NvmBlockOutputStream S} {calls : List SetBlock}
    {I : List (BlockOp R) → NvmBlockOutputStream S → List SetBlock → Prop}
    (hnew : ∀ b calls, NvmBlockOutputStream.new ser blockId data = .ok (b, calls) → I [] b calls)
    (hstep : ∀ done b calls op b' cs, I done b calls → b.step ser t op = .ok (b', cs) →
      I (done ++ [op]) b' (calls ++ cs))
    (h : NvmBlockOutputStream.runOps ser t blockId data ops = .ok (b, calls)) : I ops b calls := by
  cases hfirst : NvmBlockOutputStream.new ser blockId data with
  | error e =>
    rw [NvmBlockOutputStream.runOps, hfirst] at h
    simp at h
  | ok r =>
    rw [NvmBlockOutputStream.runOps, hfirst] at h
    obtain ⟨r', hrun, hpair⟩ := map_eq_ok.mp h
    rw [Prod.mk.injEq] at hpair
    rw [← hpair.1, ← hpair.2]
    exact runLog_invariant hstep (hnew r.1 r.2 hfirst) hrun

end

/-- For every serializer, every throttle and every sequence of calls on a new block
stream: no write overflows the 6 MiB buffer exactly if before every call the bytes
staged since the last spill and the bytes that the serializer adds fit together. -/
theorem staging_fits_iff {R S : Type} (ser : SerializerInstance R S) (t : Int) (blockId : String)
    (data : Mem) (ops : List (BlockOp R)) :
    (∃ r, NvmBlockOutputStream.runOps ser t blockId data ops = .ok r) ↔ Fits ser t ops :=
  runOps_ok_iff ser t blockId data ops

/-- A serializer that writes every record, a byte string, as one array. -/
def rawSerializer : SerializerInstance (List UInt8) Unit where
  start := ((), [])
  write _ record := ((), [.array record])
  flush _ := ((), [.flush])

/-- One record of 6 MiB and one byte, with the default throttle. -/
theorem record_overflows :
    ¬∃ r, NvmBlockOutputStream.runOps rawSerializer 4194304 "shuffle_0_0_0" (fun _ => 0)
      [.write (List.replicate 6291457 0)] = .ok r := by
  have hlong : ∀ record : List UInt8, record.length = 6291457 →
      ¬(Account.start rawSerializer).HasRoom rawSerializer (.write record) := by
    intro record hlen hroom
    have hbad : 0 + record.length ≤ bufferLength := hroom
    rw [hlen] at hbad
    revert hbad
    decide
  obtain ⟨b, calls, hnew, haccounts⟩ :=
    accounts_new rawSerializer "shuffle_0_0_0" (fun _ => 0) (Nat.zero_le _)
  obtain ⟨e, herror⟩ := haccounts.step_error (t := 4194304)
    (hlong (List.replicate 6291457 0) List.length_replicate)
  rintro ⟨r, hr⟩
  rw [NvmBlockOutputStream.runOps, hnew] at hr
  simp only [runLog_cons_error herror] at hr
  simp [Except.map] at hr

end SparkNvm.Storage
