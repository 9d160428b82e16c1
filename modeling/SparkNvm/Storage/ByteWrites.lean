import SparkNvm.Storage.InputStream

/-!
# Single bytes and arrays through one block

`nvmOutputStream` has two `write`s, and `nvmInputStream` delivers bytes.  The
single-byte `write` stages the four bytes of its `int` argument.

* `Symmetric`: what was written, flushed once and read is the same byte string.
* `symmetric_iff`: exactly for sequences of array writes that write anything, and in
  no state that has room does the single-byte `write` do what the array one does.
-/

namespace SparkNvm.Storage

open Lib Native

/-- One call of a `write`. -/
inductive ByteOp where
  | byte (b : Int)
  | array (bytes : List UInt8) (off len : Nat)
  deriving DecidableEq, Repr

namespace ByteOp

/-- The bytes that the `OutputStream` contract says are written. -/
def bytes : ByteOp → List UInt8
  | .byte b => [UInt8.ofNat (b % 256).toNat]
  | .array bytes off len => (bytes.drop off).take len

/-- The slice lies in the array. -/
def Ok : ByteOp → Prop
  | .byte _ => True
  | .array bytes off len => off + len ≤ bytes.length

def isByte : ByteOp → Bool
  | .byte _ => true
  | .array _ _ _ => false

end ByteOp

/-- One call on the stream. -/
def NvmOutputStream.writeOp (s : NvmOutputStream) : ByteOp → Except JavaError NvmOutputStream
  | .byte b => s.writeByte b
  | .array bytes off len => s.write bytes off len

/-- All calls. -/
def NvmOutputStream.writeAll (s : NvmOutputStream) (ops : List ByteOp) :
    Except JavaError NvmOutputStream :=
  ops.foldlM NvmOutputStream.writeOp s

/-- The writes raise no exception and are counted, the flush stores them, and any
mix of reads delivers them. -/
def Symmetric (hash : String → UInt64) (fuel : Nat) (kv : Pmemkv) (blockId : String) (data : Mem)
    (ops : List ByteOp) (ans : PutAnswers) : Prop :=
  ∃ s kv', (NvmOutputStream.new blockId data).writeAll ops = .ok s ∧
    s.remainingSize = (ops.flatMap ByteOp.bytes).length ∧
    setBlocks hash kv (s.flush.2.map fun call => (call, ans)) = some kv' ∧
    ∀ mm fresh junk, ∃ stream,
      NvmInputStream.new hash fuel kv' blockId mm fresh junk = some stream ∧
      ∀ reads : List InputOp, (∀ op ∈ reads, op.Ok) →
        ∃ st, run (InputState.step kv'.service.mem junk) ⟨stream, []⟩ reads = some st ∧
          Delivers kv'.service.mem junk (ops.flatMap ByteOp.bytes) st

section

variable {s s' : NvmOutputStream} {ops : List ByteOp}

theorem ByteOp.length_bytes (op : ByteOp) (h : op.Ok) :
    op.bytes.length = match op with | .byte _ => 1 | .array _ _ len => len := by
  cases op with
  | byte b => rfl
  | array bytes off len =>
    show ((bytes.drop off).take len).length = len
    have hok : off + len ≤ bytes.length := h
    rw [List.length_take, List.length_drop]
    omega

/-- What a write that raises no exception adds to the counter. -/
theorem NvmOutputStream.writeOp_remaining {op : ByteOp} (hok : op.Ok) (h : s.writeOp op = .ok s') :
    s'.bufferRemainingSize = s.bufferRemainingSize + op.bytes.length +
      if op.isByte then 3 else 0 := by
  rw [op.length_bytes hok]
  cases op with
  | byte b =>
    simp only [writeOp, writeByte, ByteBuffer.putInt] at h
    split at h
    · simp [bind, Except.bind] at h
    · rw [← Except.ok.inj h]
      rfl
  | array bytes off len =>
    simp only [writeOp, write, ByteBuffer.put] at h
    split at h
    · simp [bind, Except.bind] at h
    · split at h
      · simp [bind, Except.bind] at h
      · rw [← Except.ok.inj h]
        rfl

/-- Every single byte is counted three times too often. -/
theorem NvmOutputStream.writeAll_remaining (hok : ∀ op ∈ ops, op.Ok) (h : s.writeAll ops = .ok s') :
    s'.bufferRemainingSize = s.bufferRemainingSize + (ops.flatMap ByteOp.bytes).length +
      3 * ops.countP ByteOp.isByte := by
  induction ops generalizing s with
  | nil =>
    rw [← Except.ok.inj h]
    rfl
  | cons op ops ih =>
    rw [writeAll, List.foldlM_cons] at h
    cases hop : s.writeOp op with
    | error e =>
      rw [hop] at h
      simp [bind, Except.bind] at h
    | ok s₁ =>
      rw [hop] at h
      have h₁ := writeOp_remaining (hok op (by simp)) hop
      have hrest := ih (fun op hop => hok op (by simp [hop])) h
      rw [List.flatMap_cons, List.length_append, List.countP_cons, hrest, h₁]
      split <;> omega

/-- Array writes that the buffer has room for. -/
theorem NvmOutputStream.writeAll_arrays (h : s.Staged) (h0 : s.bufferFlushedSize = 0)
    (hok : ∀ op ∈ ops, op.Ok) (hnone : ∀ op ∈ ops, op.isByte = false)
    (hfits : s.byteBuffer.position + (ops.flatMap ByteOp.bytes).length ≤ bufferLength) :
    ∃ s', s.writeAll ops = .ok s' ∧ s'.Staged ∧ s'.bufferFlushedSize = 0 ∧
      s'.blockId = s.blockId ∧ s'.unflushed = s.unflushed ++ ops.flatMap ByteOp.bytes := by
  induction ops generalizing s with
  | nil => exact ⟨s, rfl, h, h0, rfl, by simp⟩
  | cons op ops ih =>
    cases op with
    | byte b => exact absurd (hnone (.byte b) (by simp)) (by simp [ByteOp.isByte])
    | array bytes off len =>
      have hslice : off + len ≤ bytes.length := hok (.array bytes off len) (by simp)
      have hlen := ByteOp.length_bytes (.array bytes off len) hslice
      rw [List.flatMap_cons, List.length_append] at hfits
      simp only at hlen
      obtain ⟨s₁, hwrite, hstaged, hun, hpos, hflushed, hid, _, _⟩ :=
        write_spec h hslice (by omega)
      obtain ⟨s', hall, hstaged', hflushed', hid', hun'⟩ := ih hstaged (hflushed.trans h0)
        (fun op hop => hok op (by simp [hop])) (fun op hop => hnone op (by simp [hop])) (by omega)
      refine ⟨s', ?_, hstaged', hflushed', hid'.trans hid, ?_⟩
      · rw [writeAll, List.foldlM_cons, writeOp, hwrite]
        exact hall
      · rw [hun', hun, List.flatMap_cons, List.append_assoc]
        rfl

/-- The one call of a flush of a stream that has flushed nothing. -/
theorem NvmOutputStream.flush_calls (h : s.Staged) (h0 : s.bufferFlushedSize = 0)
    (hne : s.unflushed ≠ []) :
    s.flush.2 = [{ key := s.blockId, value := s.unflushed, clean := s.setClean }] := by
  have hlen := s.length_unflushed
  have hpos := List.length_pos_of_ne_nil hne
  rw [flush, if_pos (by omega), unflushed_of_flushed_zero h h0]
  rfl

/-- The single-byte write does what a write of a one-byte array does only when both
find the buffer full. -/
theorem NvmOutputStream.writeByte_eq_iff (s : NvmOutputStream) (b : Int) :
    s.writeByte b = s.write [UInt8.ofNat (b % 256).toNat] 0 1 ↔
      bufferLength ≤ s.byteBuffer.position := by
  have hput : s.byteBuffer.put [UInt8.ofNat (b % 256).toNat] 0 1 =
      if bufferLength < s.byteBuffer.position + 1 then .error .bufferOverflow
      else .ok
        { data := storeBytes s.byteBuffer.data s.byteBuffer.position
            [UInt8.ofNat (b % 256).toNat]
          position := s.byteBuffer.position + 1 } := rfl
  by_cases hfull : bufferLength ≤ s.byteBuffer.position
  · refine iff_of_true ?_ hfull
    rw [writeByte, write, hput, ByteBuffer.putInt, if_pos (by omega), if_pos (by omega)]
    rfl
  · refine iff_of_false ?_ hfull
    rw [if_neg (by omega)] at hput
    rw [writeByte, write, hput, ByteBuffer.putInt]
    intro h
    split at h
    · simp [bind, Except.bind, pure, Except.pure] at h
    · have hrem := congrArg NvmOutputStream.bufferRemainingSize (Except.ok.inj h)
      have hrem' : s.bufferRemainingSize + 4 = s.bufferRemainingSize + 1 := hrem
      omega

end

/-- For every store that holds puts, every block id without blocks and every sequence
of single-byte and array writes of at most 6 MiB: the block reads back as what was
written exactly if no single byte was written and something was.  The second part is
about single calls. -/
theorem symmetric_iff (hash : String → UInt64) (fuel : Nat) (s : Service) (root : Nat)
    (puts : List Op) (blockId : String) (data : Mem) (ops : List ByteOp) (ans : PutAnswers)
    (hroot : s.Grants sizeofBase root) (hfuel : puts.length < fuel)
    (hok : Admissible (Pmemkv.step hash fuel) (Pmemkv.Ok hash) (Pmemkv.create s root) puts)
    (hfresh : storedUnder hash (live puts) blockId = [])
    (hops : ∀ op ∈ ops, op.Ok) (htotal : (ops.flatMap ByteOp.bytes).length ≤ bufferLength)
    (hans : ∀ kv out, run (Pmemkv.step hash fuel) (Pmemkv.create s root) puts = some kv →
      (NvmOutputStream.new blockId data).writeAll ops = .ok out →
      kv.NoFailure (hash blockId) out.bufferRemainingSize ans) :
    ∃ kv, run (Pmemkv.step hash fuel) (Pmemkv.create s root) puts = some kv ∧
      (Symmetric hash fuel kv blockId data ops ans ↔
        (∀ op ∈ ops, op.isByte = false) ∧ ops.flatMap ByteOp.bytes ≠ []) ∧
      ∀ (out : NvmOutputStream) (b : Int),
        out.writeByte b = out.write [UInt8.ofNat (b % 256).toNat] 0 1 ↔
          bufferLength ≤ out.byteBuffer.position := by
  obtain ⟨kv, hrun, hholds⟩ := run_holds hroot (Nat.le_of_lt hfuel) hok
  have hlen : (live puts).length < fuel := Nat.lt_of_le_of_lt (length_live_le puts) hfuel
  refine ⟨kv, hrun, ⟨?_, ?_⟩, fun out b => out.writeByte_eq_iff b⟩
  · rintro ⟨out, kv', hall, hrem, hset, hread⟩
    have hcount := NvmOutputStream.writeAll_remaining hops hall
    have hrem' : out.bufferRemainingSize = (ops.flatMap ByteOp.bytes).length := hrem
    have hzero : (NvmOutputStream.new blockId data).bufferRemainingSize = 0 := rfl
    refine ⟨fun op hop => ?_, fun hnil => ?_⟩
    · have hnone : ops.countP ByteOp.isByte = 0 := by omega
      exact Bool.eq_false_iff.mpr (List.countP_eq_zero.mp hnone op hop)
    · -- nothing is stored, and the length of the block index is not initialised
      have hflush : out.flush.2 = [] := by
        rw [hnil] at hrem'
        rw [NvmOutputStream.flush, if_neg (by rw [hrem']; decide)]
      rw [hflush] at hset
      rw [← Option.some.inj hset] at hread
      obtain ⟨stream, hnew, _⟩ :=
        hread { entries := fun _ => 0, length := 1 } (fun _ => 0) (fun _ _ => 0)
      have hindex := nativeGetBlockIndex_absent hholds.indexHolds (Nat.le_of_lt hlen) hfresh
        { entries := fun _ => 0, length := 1 }
      rw [newLongArray_of_lt _ (by decide), if_neg (by decide)] at hindex
      rw [NvmInputStream.new_eq_none hindex] at hnew
      exact absurd hnew (by simp)
  · rintro ⟨hnone, hne⟩
    obtain ⟨out, hall, hstaged, hflushed, hid, hun⟩ :=
      NvmOutputStream.writeAll_arrays (NvmOutputStream.staged_new blockId data) rfl hops hnone
        (by rw [show (NvmOutputStream.new blockId data).byteBuffer.position = 0 from rfl,
          Nat.zero_add]; exact htotal)
    rw [NvmOutputStream.unflushed_new, List.nil_append] at hun
    have hsize := out.length_unflushed
    rw [hun] at hsize
    have hcalls := NvmOutputStream.flush_calls hstaged hflushed (by rw [hun]; exact hne)
    rw [hun, hid] at hcalls
    have hno := hans kv out hrun hall
    rw [← hsize] at hno
    have hset : Admissible (fun kv call => nativeSetBlock hash kv call.1 call.2) (SetOk hash) kv
        (out.flush.2.map fun call => (call, ans)) := by
      rw [hcalls]
      exact admissible_singleton.mpr hno
    obtain ⟨kv', hset, hholds'⟩ := setBlocks_holds hholds hset
    have hstored : storedUnder hash
        (live puts ++ (out.flush.2.map fun call => (call, ans)).map putCallOf) blockId =
          [⟨blockId, ops.flatMap ByteOp.bytes, ans⟩] := by
      rw [storedUnder_append, hfresh, hcalls]
      exact storedUnder_eq_self (by
        intro call hcall
        rw [List.mem_singleton.mp hcall]
        rfl)
    have hbytes : storedBytes hash
        (live puts ++ (out.flush.2.map fun call => (call, ans)).map putCallOf) blockId =
          ops.flatMap ByteOp.bytes := by
      rw [storedBytes, hstored]
      exact List.append_nil _
    have hbound : bufferLength < 2 ^ 31 := by decide
    refine ⟨out, kv', hall, hsize.symm, hset, fun mm fresh junk => ?_⟩
    obtain ⟨stream, hnew, _, hserves⟩ := NvmInputStream.new_serves fuel hholds'.indexHolds
      (by rw [hcalls, List.length_append]; exact hlen)
      (by rw [hstored]; simp)
      (by rw [hstored, List.length_singleton]; exact Nat.one_lt_two_pow (by decide)) (by
        rw [hstored]
        intro call hcall
        rw [List.mem_singleton.mp hcall]
        exact hne)
      (by rw [hbytes]; omega) mm fresh junk
    rw [hbytes] at hserves
    exact ⟨stream, hnew, fun reads hreads => reads_deliver hserves hreads⟩

/-- The answers to one put into an empty store. -/
def sampleAnswers : PutAnswers := { entry := 8192, data := 8224, metaPtr := 16, listPtr := 32 }

theorem symmetric_sample :
    ∃ kv, run (Pmemkv.step sampleHash 1) (Pmemkv.create sampleService 4096) [] = some kv ∧
      (Symmetric sampleHash 1 kv "a" (fun _ => 0) [.array [1, 2, 3] 1 2] sampleAnswers ↔
        (∀ op ∈ [ByteOp.array [1, 2, 3] 1 2], op.isByte = false) ∧
          [ByteOp.array [1, 2, 3] 1 2].flatMap ByteOp.bytes ≠ []) ∧
      ∀ (out : NvmOutputStream) (b : Int),
        out.writeByte b = out.write [UInt8.ofNat (b % 256).toNat] 0 1 ↔
          bufferLength ≤ out.byteBuffer.position := by
  refine symmetric_iff sampleHash 1 sampleService 4096 [] "a" (fun _ => 0)
    [.array [1, 2, 3] 1 2] sampleAnswers (by decide) (by decide) trivial rfl ?_ (by decide) ?_
  · intro op hop
    rw [List.mem_singleton.mp hop]
    show 1 + 2 ≤ 3
    decide
  · intro kv out hkv hout
    cases hkv
    cases hout
    decide

/-- The single byte `65` is staged, counted and handed over as four bytes. -/
theorem byte_becomes_four :
    ∃ s, (NvmOutputStream.new "a" fun _ => 0).writeAll [.byte 65] = .ok s ∧
      s.remainingSize = 4 ∧ s.flush.2.map SetBlock.value = [[0, 0, 0, 65]] ∧
      [ByteOp.byte 65].flatMap ByteOp.bytes = [65] ∧
      (Pmemkv.create sampleService 4096).NoFailure (sampleHash "a") 4 sampleAnswers ∧
      ¬Symmetric sampleHash 1 (Pmemkv.create sampleService 4096) "a" (fun _ => 0) [.byte 65]
        sampleAnswers := by
  refine ⟨_, rfl, rfl, by decide, by decide, by decide, ?_⟩
  rintro ⟨s, kv', hall, hrem, _⟩
  cases hall
  revert hrem
  decide

end SparkNvm.Storage
