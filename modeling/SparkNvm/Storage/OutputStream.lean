import SparkNvm.Lib.ByteMem
import SparkNvm.Lib.Run

/-!
# `nvmOutputStream`

The stream stages bytes in a direct buffer of 6 MiB.  `flush` hands the first
`bufferRemainingSize` bytes of the buffer to `setPartition` and `reset` rewinds
the buffer.  The two are separate calls: `flush` does not move the position, and
the native side copies from the base address of the buffer.

* `NvmOutputStream` and its methods, as in the source.  A method returns the
  calls of `setPartition` that it makes, in order.
* `Staged` is the invariant of every use of the stream, `Transparent` is what a
  caller of `flush` expects.
* `flush_transparent_iff` says for every sequence of calls whether it gets that.
-/

namespace SparkNvm.Storage

open Lib

/-! ## The stream -/

/-- The exceptions that the code below can raise. -/
inductive JavaError where
  | indexOutOfBounds
  | bufferOverflow
  deriving DecidableEq, Repr

/-- `val length: Int = 1024*1024*6`, the capacity and the limit of the buffer. -/
def bufferLength : Nat := 1024 * 1024 * 6

/-- A direct `ByteBuffer`: its memory from the base address on, and the
position. -/
structure ByteBuffer where
  data : Mem
  position : Nat

/-- `put(bytes, off, len)`. -/
def ByteBuffer.put (b : ByteBuffer) (bytes : List UInt8) (off len : Nat) :
    Except JavaError ByteBuffer :=
  if bytes.length < off + len then .error .indexOutOfBounds
  else if bufferLength < b.position + len then .error .bufferOverflow
  else .ok
    { data := storeBytes b.data b.position ((bytes.drop off).take len)
      position := b.position + len }

/-- The four bytes of an `int`, the highest first. -/
def intBytes (value : Int) : List UInt8 :=
  [24, 16, 8, 0].map fun k : Nat => UInt8.ofNat ((value / 2 ^ k) % 256).toNat

/-- `putInt(value)`. -/
def ByteBuffer.putInt (b : ByteBuffer) (value : Int) : Except JavaError ByteBuffer :=
  if bufferLength < b.position + 4 then .error .bufferOverflow
  else .ok
    { data := storeBytes b.data b.position (intBytes value)
      position := b.position + 4 }

/-- `clear()` rewinds the buffer; the bytes stay. -/
def ByteBuffer.clear (b : ByteBuffer) : ByteBuffer := { b with position := 0 }

/-- One call of `setPartition`.  `nativeSetBlock` takes the base address of the
buffer, so the value is the first `size` bytes of the buffer. -/
structure SetBlock where
  key : String
  value : List UInt8
  clean : Bool
  deriving DecidableEq, Repr

/-- `setPartition(numPartitions, blockId, byteBuffer, size, clean)`. -/
def setPartition (blockId : String) (byteBuffer : ByteBuffer) (size : Nat) (clean : Bool) :
    SetBlock :=
  { key := blockId, value := loadBytes byteBuffer.data 0 size, clean := clean }

/-- `nvmOutputStream`. -/
structure NvmOutputStream where
  blockId : String
  setClean : Bool
  isClosed : Bool
  bufferFlushedSize : Nat
  bufferRemainingSize : Nat
  byteBuffer : ByteBuffer

namespace NvmOutputStream

/-- A new stream over a pooled buffer, whose memory is not cleared. -/
def new (blockId : String) (data : Mem) : NvmOutputStream where
  blockId := blockId
  setClean := true
  isClosed := false
  bufferFlushedSize := 0
  bufferRemainingSize := 0
  byteBuffer := { data := data, position := 0 }

/-- `write(bytes, off, len)`. -/
def write (s : NvmOutputStream) (bytes : List UInt8) (off len : Nat) :
    Except JavaError NvmOutputStream := do
  let byteBuffer ← s.byteBuffer.put bytes off len
  return { s with
    byteBuffer := byteBuffer
    bufferRemainingSize := s.bufferRemainingSize + len }

/-- `write(byte)`. -/
def writeByte (s : NvmOutputStream) (byte : Int) : Except JavaError NvmOutputStream := do
  let byteBuffer ← s.byteBuffer.putInt byte
  return { s with
    byteBuffer := byteBuffer
    bufferRemainingSize := s.bufferRemainingSize + 4 }

/-- `remainingSize()`. -/
def remainingSize (s : NvmOutputStream) : Nat := s.bufferRemainingSize

/-- `flush()`. -/
def flush (s : NvmOutputStream) : NvmOutputStream × List SetBlock :=
  if 0 < s.bufferRemainingSize then
    ({ s with
        bufferFlushedSize := s.bufferFlushedSize + s.bufferRemainingSize
        bufferRemainingSize := 0
        setClean := false },
      [setPartition s.blockId s.byteBuffer s.bufferRemainingSize s.setClean])
  else ({ s with setClean := false }, [])

/-- `reset()`. -/
def reset (s : NvmOutputStream) : NvmOutputStream :=
  { s with
    bufferRemainingSize := 0
    bufferFlushedSize := 0
    byteBuffer := s.byteBuffer.clear }

/-- The part of `nvmBlockOutputStream.maybeSpill` that uses the stream: flush, and
reset when something was flushed. -/
def spill (s : NvmOutputStream) : NvmOutputStream × List SetBlock :=
  let r := s.flush
  if 0 < r.1.bufferFlushedSize then (r.1.reset, r.2) else r

/-- `close()`. -/
def close (s : NvmOutputStream) : NvmOutputStream × List SetBlock :=
  if s.isClosed then (s, [])
  else
    let r := s.flush
    ({ r.1.reset with isClosed := true }, r.2)

/-! ## The staging invariant -/

/-- The bytes written since the last flush, as they stand in the buffer. -/
def unflushed (s : NvmOutputStream) : List UInt8 :=
  loadBytes s.byteBuffer.data (s.byteBuffer.position - s.bufferRemainingSize) s.bufferRemainingSize

/-- The position counts the bytes since the last reset, flushed or not. -/
structure Staged (s : NvmOutputStream) : Prop where
  position : s.byteBuffer.position = s.bufferFlushedSize + s.bufferRemainingSize
  fits : s.byteBuffer.position ≤ bufferLength

variable {s : NvmOutputStream}

theorem staged_new (blockId : String) (data : Mem) : (new blockId data).Staged :=
  ⟨rfl, Nat.zero_le _⟩

@[simp] theorem unflushed_new (blockId : String) (data : Mem) : (new blockId data).unflushed = [] :=
  rfl

theorem length_unflushed (s : NvmOutputStream) : s.unflushed.length = s.bufferRemainingSize :=
  loadBytes_length _ _ _

/-- Nothing was flushed since the last reset, so the unflushed bytes start at
the base of the buffer. -/
theorem unflushed_of_flushed_zero (h : s.Staged) (h0 : s.bufferFlushedSize = 0) :
    s.unflushed = loadBytes s.byteBuffer.data 0 s.bufferRemainingSize := by
  have hpos := h.position
  rw [unflushed, show s.byteBuffer.position - s.bufferRemainingSize = 0 by omega]

/-- A write that the buffer has room for. -/
theorem write_ok {bytes : List UInt8} {off len : Nat} (hbytes : off + len ≤ bytes.length)
    (hfits : s.byteBuffer.position + len ≤ bufferLength) :
    s.write bytes off len = .ok
      { s with
        byteBuffer :=
          { data := storeBytes s.byteBuffer.data s.byteBuffer.position
              ((bytes.drop off).take len)
            position := s.byteBuffer.position + len }
        bufferRemainingSize := s.bufferRemainingSize + len } := by
  rw [write, ByteBuffer.put, if_neg (by omega), if_neg (by omega)]
  rfl

/-- A write adds its bytes to the unflushed ones and changes nothing else. -/
theorem write_spec (h : s.Staged) {bytes : List UInt8} {off len : Nat}
    (hbytes : off + len ≤ bytes.length) (hfits : s.byteBuffer.position + len ≤ bufferLength) :
    ∃ s', s.write bytes off len = .ok s' ∧ s'.Staged ∧
      s'.unflushed = s.unflushed ++ (bytes.drop off).take len ∧
      s'.byteBuffer.position = s.byteBuffer.position + len ∧
      s'.bufferFlushedSize = s.bufferFlushedSize ∧ s'.blockId = s.blockId ∧
      s'.setClean = s.setClean ∧ s'.isClosed = s.isClosed := by
  have hpos := h.position
  have hlen : ((bytes.drop off).take len).length = len := by
    rw [List.length_take, List.length_drop]
    omega
  refine ⟨_, write_ok hbytes hfits, ⟨?_, hfits⟩, ?_, rfl, rfl, rfl, rfl, rfl⟩
  · show s.byteBuffer.position + len = s.bufferFlushedSize + (s.bufferRemainingSize + len)
    omega
  · show loadBytes _ (s.byteBuffer.position + len - (s.bufferRemainingSize + len))
      (s.bufferRemainingSize + len) = _
    have hstart : s.byteBuffer.position + len - (s.bufferRemainingSize + len) =
        s.byteBuffer.position - s.bufferRemainingSize := by omega
    have hend : s.byteBuffer.position - s.bufferRemainingSize + s.bufferRemainingSize =
        s.byteBuffer.position := by omega
    have hnew := loadBytes_storeBytes_self s.byteBuffer.data s.byteBuffer.position
      ((bytes.drop off).take len)
    rw [hlen] at hnew
    rw [hstart, loadBytes_add, hend, hnew, unflushed,
      loadBytes_storeBytes_of_disjoint _ (.inl (Nat.le_of_eq hend))]

/-- What a flush hands over is the start of the buffer. -/
theorem flush_values (s : NvmOutputStream) :
    s.flush.2.flatMap SetBlock.value = loadBytes s.byteBuffer.data 0 s.bufferRemainingSize := by
  unfold flush
  split
  · simp [setPartition]
  · rw [show s.bufferRemainingSize = 0 by omega]
    rfl

theorem flush_keys (s : NvmOutputStream) : ∀ call ∈ s.flush.2, call.key = s.blockId := by
  unfold flush
  split
  · intro call hcall
    rw [List.mem_singleton.mp hcall]
    rfl
  · simp

theorem flush_spec (s : NvmOutputStream) :
    s.flush.1.bufferRemainingSize = 0 ∧
      s.flush.1.bufferFlushedSize = s.bufferFlushedSize + s.bufferRemainingSize ∧
      s.flush.1.byteBuffer = s.byteBuffer ∧ s.flush.1.blockId = s.blockId ∧
      s.flush.1.isClosed = s.isClosed := by
  unfold flush
  split
  · exact ⟨rfl, rfl, rfl, rfl, rfl⟩
  · have h0 : s.bufferRemainingSize = 0 := by omega
    exact ⟨h0, by show s.bufferFlushedSize = _; omega, rfl, rfl, rfl⟩

theorem Staged.flush (h : s.Staged) : s.flush.1.Staged := by
  obtain ⟨hrem, hflushed, hbuf, _⟩ := s.flush_spec
  have hpos := h.position
  constructor
  · rw [hbuf, hrem, hflushed]
    omega
  · rw [hbuf]
    exact h.fits

theorem spill_calls (s : NvmOutputStream) : s.spill.2 = s.flush.2 := by
  simp only [spill]
  split <;> rfl

/-- After a spill the buffer is rewound. -/
theorem spill_spec (h : s.Staged) :
    s.spill.1.bufferRemainingSize = 0 ∧ s.spill.1.bufferFlushedSize = 0 ∧
      s.spill.1.byteBuffer.position = 0 ∧ s.spill.1.blockId = s.blockId ∧
      s.spill.1.isClosed = s.isClosed := by
  obtain ⟨hrem, hflushed, hbuf, hid, hclosed⟩ := s.flush_spec
  have hpos := h.flush.position
  simp only [spill]
  split
  · exact ⟨rfl, rfl, rfl, hid, hclosed⟩
  · rename_i h0
    exact ⟨hrem, by omega, by omega, hid, hclosed⟩

theorem Staged.spill (h : s.Staged) : s.spill.1.Staged := by
  obtain ⟨hrem, hflushed, hpos, _⟩ := spill_spec h
  exact ⟨by omega, by omega⟩

theorem close_spec (hopen : s.isClosed = false) :
    s.close.2 = s.flush.2 ∧ s.close.1.bufferRemainingSize = 0 ∧ s.close.1.bufferFlushedSize = 0 ∧
      s.close.1.byteBuffer.position = 0 ∧ s.close.1.blockId = s.blockId := by
  obtain ⟨_, _, _, hid, _⟩ := s.flush_spec
  unfold close
  rw [hopen]
  exact ⟨rfl, rfl, rfl, rfl, hid⟩

end NvmOutputStream

/-! ## Sequences of calls -/

/-- A call on the stream.  `spill` is the use that `maybeSpill` makes of it. -/
inductive StreamOp where
  | write (bytes : List UInt8) (off len : Nat)
  | flush
  | spill
  | close
  deriving DecidableEq, Repr

/-- The stream and the calls of `setPartition` that it has made. -/
structure StreamState where
  stream : NvmOutputStream
  calls : List SetBlock

namespace StreamState

def init (blockId : String) (data : Mem) : StreamState :=
  { stream := .new blockId data, calls := [] }

/-- The state after a method that makes calls. -/
def after (st : StreamState) (r : NvmOutputStream × List SetBlock) : StreamState :=
  { stream := r.1, calls := st.calls ++ r.2 }

/-- One call; `none` is an exception. -/
def step (st : StreamState) : StreamOp → Option StreamState
  | .write bytes off len =>
    match st.stream.write bytes off len with
    | .ok stream => some { st with stream := stream }
    | .error _ => none
  | .flush => some (st.after st.stream.flush)
  | .spill => some (st.after st.stream.spill)
  | .close => some (st.after st.stream.close)

/-- The slice lies in the array, there is room for it since the last reset, and
a closed stream is not written to. -/
def Ok (st : StreamState) : StreamOp → Prop
  | .write bytes off len => off + len ≤ bytes.length ∧
      st.stream.byteBuffer.position + len ≤ bufferLength ∧ st.stream.isClosed = false
  | _ => True

instance (st : StreamState) (op : StreamOp) : Decidable (st.Ok op) := by
  cases op <;> (unfold Ok; infer_instance)

/-- Nothing was flushed since the last reset, or the unflushed bytes happen to
be the ones at the start of the buffer. -/
def FlushOk (st : StreamState) : StreamOp → Prop
  | .write _ _ _ => True
  | _ => st.stream.bufferFlushedSize = 0 ∨
      loadBytes st.stream.byteBuffer.data 0 st.stream.bufferRemainingSize = st.stream.unflushed

/-- The bytes handed to `setPartition`, in order. -/
def handed (st : StreamState) : List UInt8 := st.calls.flatMap SetBlock.value

end StreamState

/-- The bytes that one call writes. -/
def StreamOp.bytes : StreamOp → List UInt8
  | .write bytes off len => (bytes.drop off).take len
  | _ => []

/-- All bytes written, in order. -/
def written (ops : List StreamOp) : List UInt8 := ops.flatMap StreamOp.bytes

/-- What was handed over, followed by what was not flushed yet, is what was
written. -/
def StreamState.Transparent (st : StreamState) (ops : List StreamOp) : Prop :=
  st.handed ++ st.stream.unflushed = written ops

/-- The invariant of every sequence: what is handed over has the right length
whatever its bytes are, and it is right if every flush so far was. -/
structure Tracks (blockId : String) (data : Mem) (ops : List StreamOp) (st : StreamState) :
    Prop where
  run_eq : run StreamState.step (.init blockId data) ops = some st
  staged : st.stream.Staged
  closed : st.stream.isClosed = true → st.stream.bufferFlushedSize = 0 ∧
    st.stream.bufferRemainingSize = 0
  blockId_eq : st.stream.blockId = blockId
  keys : ∀ call ∈ st.calls, call.key = blockId
  ends : ∃ front, written ops = front ++ st.stream.unflushed ∧
    front.length = st.handed.length ∧
    (st.handed = front ↔ Admissible StreamState.step StreamState.FlushOk (.init blockId data) ops)

section

variable {blockId : String} {data : Mem} {ops : List StreamOp} {st st' : StreamState}

theorem written_snoc (ops : List StreamOp) (op : StreamOp) :
    written (ops ++ [op]) = written ops ++ op.bytes := by
  simp [written]

theorem Tracks.transparent_iff (h : Tracks blockId data ops st) :
    st.Transparent ops ↔
      Admissible StreamState.step StreamState.FlushOk (.init blockId data) ops := by
  obtain ⟨front, hwritten, hlen, hiff⟩ := h.ends
  rw [← hiff, StreamState.Transparent, hwritten]
  exact List.append_left_inj _

/-- The condition on a sequence with one more call. -/
theorem Tracks.admissible_snoc (h : Tracks blockId data ops st) (op : StreamOp) :
    Admissible StreamState.step StreamState.FlushOk (.init blockId data) (ops ++ [op]) ↔
      Admissible StreamState.step StreamState.FlushOk (.init blockId data) ops ∧ st.FlushOk op := by
  rw [admissible_append, h.run_eq]
  simp only [Option.some.injEq, forall_eq', admissible_singleton]

/-- The step of every call that flushes. -/
theorem Tracks.flushing (h : Tracks blockId data ops st) {op : StreamOp} (hbytes : op.bytes = [])
    (hok : st.FlushOk op ↔ st.stream.bufferFlushedSize = 0 ∨
      loadBytes st.stream.byteBuffer.data 0 st.stream.bufferRemainingSize = st.stream.unflushed)
    (hstep : st.step op = some st') (hcalls : st'.calls = st.calls ++ st.stream.flush.2)
    (hstaged : st'.stream.Staged) (hrem : st'.stream.bufferRemainingSize = 0)
    (hclosed : st'.stream.isClosed = true → st'.stream.bufferFlushedSize = 0)
    (hid : st'.stream.blockId = st.stream.blockId) : Tracks blockId data (ops ++ [op]) st' := by
  have hun : st'.stream.unflushed = [] :=
    List.length_eq_zero_iff.mp (by rw [NvmOutputStream.length_unflushed, hrem])
  have hhanded : st'.handed = st.handed ++
      loadBytes st.stream.byteBuffer.data 0 st.stream.bufferRemainingSize := by
    rw [StreamState.handed, hcalls, List.flatMap_append, NvmOutputStream.flush_values]
    rfl
  have hlenun : st.stream.unflushed.length = st.stream.bufferRemainingSize :=
    st.stream.length_unflushed
  constructor
  · rw [run_append, h.run_eq]
    simp [hstep]
  · exact hstaged
  · exact fun hc => ⟨hclosed hc, hrem⟩
  · rw [hid]
    exact h.blockId_eq
  · intro call hcall
    rw [hcalls] at hcall
    rcases List.mem_append.mp hcall with hcall | hcall
    · exact h.keys call hcall
    · rw [st.stream.flush_keys call hcall]
      exact h.blockId_eq
  · obtain ⟨front, hwritten, hlen, hiff⟩ := h.ends
    refine ⟨front ++ st.stream.unflushed, ?_, ?_, ?_⟩
    · rw [written_snoc, hwritten, hbytes, hun]
    · rw [hhanded, List.length_append, List.length_append, hlen, hlenun, loadBytes_length]
    · rw [h.admissible_snoc, ← hiff, hhanded, hok]
      constructor
      · intro heq
        obtain ⟨hfront, hbuf⟩ := List.append_inj heq hlen.symm
        exact ⟨hfront, .inr hbuf⟩
      · rintro ⟨hfront, hflush⟩
        rw [hfront]
        congr 1
        rcases hflush with h0 | hbuf
        · exact (NvmOutputStream.unflushed_of_flushed_zero h.staged h0).symm
        · exact hbuf

/-- Every call keeps the invariant. -/
theorem Tracks.step (h : Tracks blockId data ops st) {op : StreamOp} (hok : st.Ok op) :
    ∃ st', st.step op = some st' ∧ Tracks blockId data (ops ++ [op]) st' := by
  cases op with
  | write bytes off len =>
    obtain ⟨hbytes, hfits, hopen⟩ := hok
    obtain ⟨s', hwrite, hstaged, hun, _, _, hid, _, hclosed⟩ :=
      NvmOutputStream.write_spec h.staged hbytes hfits
    have hstep : st.step (.write bytes off len) = some { st with stream := s' } := by
      rw [StreamState.step, hwrite]
    refine ⟨_, hstep, ?_, hstaged, ?_, hid.trans h.blockId_eq, h.keys, ?_⟩
    · rw [run_append, h.run_eq]
      simp [hstep]
    · intro hc
      rw [hclosed, hopen] at hc
      exact absurd hc (by decide)
    · obtain ⟨front, hwritten, hlen, hiff⟩ := h.ends
      refine ⟨front, ?_, hlen, ?_⟩
      · rw [written_snoc, hwritten, hun, List.append_assoc]
        rfl
      · rw [h.admissible_snoc]
        exact hiff.trans (iff_of_eq (and_true _).symm)
  | flush =>
    obtain ⟨hrem, hflushed, _, hid, hclosed⟩ := st.stream.flush_spec
    refine ⟨_, rfl, h.flushing rfl Iff.rfl rfl rfl h.staged.flush hrem (fun hc => ?_) hid⟩
    have hc' : st.stream.isClosed = true := hclosed.symm.trans hc
    obtain ⟨h1, h2⟩ := h.closed hc'
    show st.stream.flush.1.bufferFlushedSize = 0
    omega
  | spill =>
    obtain ⟨hrem, hflushed, _, hid, _⟩ := NvmOutputStream.spill_spec h.staged
    exact ⟨_, rfl, h.flushing rfl Iff.rfl rfl (by rw [← st.stream.spill_calls]; rfl)
      h.staged.spill hrem (fun _ => hflushed) hid⟩
  | close =>
    by_cases hopen : st.stream.isClosed = true
    · obtain ⟨hflushed, hrem⟩ := h.closed hopen
      have hclose : st.stream.close = (st.stream, []) := by
        rw [NvmOutputStream.close, if_pos hopen]
      have hnone : st.stream.flush.2 = [] := by
        rw [NvmOutputStream.flush, if_neg (by omega)]
      refine ⟨_, rfl, h.flushing rfl Iff.rfl rfl ?_ ?_ ?_ ?_ ?_⟩
      all_goals rw [StreamState.after, hclose]
      · rw [hnone]
      · exact h.staged
      · exact hrem
      · exact fun _ => hflushed
    · obtain ⟨hcalls, hrem, hflushed, hpos, hid⟩ :=
        NvmOutputStream.close_spec (Bool.not_eq_true _ ▸ hopen)
      refine ⟨_, rfl, h.flushing rfl Iff.rfl rfl ?_ ⟨?_, ?_⟩ hrem (fun _ => hflushed) hid⟩
      · rw [StreamState.after, hcalls]
      · show st.stream.close.1.byteBuffer.position = _
        rw [hpos]
        show 0 = st.stream.close.1.bufferFlushedSize + st.stream.close.1.bufferRemainingSize
        omega
      · show st.stream.close.1.byteBuffer.position ≤ _
        omega

end

/-- For every sequence of calls on a fresh stream: what `setPartition` receives,
followed by what is not flushed yet, is what was written, exactly if at every
flush nothing has been flushed since the last reset (or the bytes are equal by
chance). -/
theorem flush_transparent_iff (blockId : String) (data : Mem) (ops : List StreamOp)
    (hok : Admissible StreamState.step StreamState.Ok (.init blockId data) ops) :
    ∃ st, run StreamState.step (.init blockId data) ops = some st ∧
      (∀ call ∈ st.calls, call.key = blockId) ∧
      (st.Transparent ops ↔
        Admissible StreamState.step StreamState.FlushOk (.init blockId data) ops) := by
  have hinit : Tracks blockId data [] (.init blockId data) :=
    { run_eq := rfl
      staged := NvmOutputStream.staged_new blockId data
      closed := fun _ => ⟨rfl, rfl⟩
      blockId_eq := rfl
      keys := by simp [StreamState.init]
      ends := ⟨[], rfl, rfl, iff_of_true rfl trivial⟩ }
  obtain ⟨st, hrun, htracks⟩ := run_invariant (I := Tracks blockId data)
    (fun done op rest st _ h hop => h.step hop) hinit hok
  exact ⟨st, hrun, htracks.keys, htracks.transparent_iff⟩

/-- A flush between two writes: the second block repeats the first. -/
def flushTwice : List StreamOp := [.write [1, 2] 0 2, .flush, .write [3, 4] 0 2, .flush]

theorem flush_transparent_sample :
    ∃ st, run StreamState.step (.init "shuffle_0_0_0" fun _ => 0) flushTwice = some st ∧
      (∀ call ∈ st.calls, call.key = "shuffle_0_0_0") ∧
      (st.Transparent flushTwice ↔ Admissible StreamState.step StreamState.FlushOk
        (.init "shuffle_0_0_0" fun _ => 0) flushTwice) :=
  flush_transparent_iff "shuffle_0_0_0" (fun _ => 0) flushTwice (by decide)

theorem flush_repeats_block :
    Admissible StreamState.step StreamState.Ok (.init "shuffle_0_0_0" fun _ => 0) flushTwice ∧
    ∃ st, run StreamState.step (.init "shuffle_0_0_0" fun _ => 0) flushTwice = some st ∧
      st.calls.map SetBlock.value = [[1, 2], [1, 2]] ∧ st.stream.unflushed = [] ∧
      written flushTwice = [1, 2, 3, 4] ∧ ¬st.Transparent flushTwice := by
  refine ⟨by decide, _, rfl, by decide, by decide, by decide, ?_⟩
  unfold StreamState.Transparent
  decide

end SparkNvm.Storage
