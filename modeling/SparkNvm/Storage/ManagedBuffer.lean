import SparkNvm.Storage.InputStream

/-!
# `nvmManagedBuffer`

One object that gives out a stored block as an input stream, as a `ByteBuffer` and
as a netty buffer.  All three go through one cached `nvmInputStream`: `nioByteBuffer`
reads the stream once, and `convertToNetty` wraps the memory of its native buffer.

* The object and its methods, as in the source.
* `ManagedState.Shows`: every size and every view is the one of the block.
* `managed_views_iff`: it holds all along exactly the sequences in which a block that is
  streamed has fewer than `2 ^ 30` pieces, and nothing has been read from the cached stream
  at any `nioByteBuffer`.
-/

namespace SparkNvm.Storage

open Lib Native

/-- What the memory that the constructor of `nvmInputStream` allocates holds. -/
structure StreamMemory where
  mm : Pmemkv.MemoryMeta
  fresh : Mem
  junk : Nat → Mem

/-- `nvmManagedBuffer`.  `total_size` is `-1` before the first `size()`. -/
structure NvmManagedBuffer where
  blockId : String
  inputStream : Option NvmInputStream
  totalSize : Int
  byteBuffer : Option (List UInt8)
  refCount : Int

namespace NvmManagedBuffer

def new (blockId : String) : NvmManagedBuffer where
  blockId := blockId
  inputStream := none
  totalSize := -1
  byteBuffer := none
  refCount := 1

/-- `size()`. -/
def size (hash : String → UInt64) (kv : Pmemkv) (b : NvmManagedBuffer) :
    Option (Int × NvmManagedBuffer) :=
  if b.totalSize = -1 then do
    let n ← getPartitionSize hash kv b.blockId
    return (n, { b with totalSize := n })
  else some (b.totalSize, b)

/-- `createInputStream()`. -/
def createInputStream (hash : String → UInt64) (fuel : Nat) (env : StreamMemory) (kv : Pmemkv)
    (b : NvmManagedBuffer) : Option (NvmInputStream × NvmManagedBuffer) :=
  match b.inputStream with
  | some s => some (s, b)
  | none => do
    let s ← NvmInputStream.new hash fuel kv b.blockId env.mm env.fresh env.junk
    return (s, { b with inputStream := some s })

/-- `nioByteBuffer()`: what the buffer exposes.  The array is zeroed, and
`in.read(data)` is one call whose result is not looked at. -/
def nioByteBuffer (hash : String → UInt64) (fuel : Nat) (env : StreamMemory) (kv : Pmemkv)
    (b : NvmManagedBuffer) : Option (List UInt8 × NvmManagedBuffer) := do
  let (n, b) ← b.size hash kv
  let dataLength := wrap32 n
  let (s, b) ← b.createInputStream hash fuel env kv
  if dataLength < 0 then none
  else do
    let (_, data, s) ← s.readInto (List.replicate dataLength.toNat 0) 0 dataLength.toNat
    return (data, { b with inputStream := some s, byteBuffer := some data })

/-- `convertToNetty()`: what the wrapped memory holds. -/
def convertToNetty (hash : String → UInt64) (fuel : Nat) (env : StreamMemory) (kv : Pmemkv)
    (b : NvmManagedBuffer) : Option (List UInt8 × NvmManagedBuffer) := do
  let (n, b) ← b.size hash kv
  let dataLength := wrap32 n
  let (s, b) ← b.createInputStream hash fuel env kv
  let m ← s.getByteBufferDirectAddr
  return (loadBytes m 0 dataLength.toNat, b)

/-- `retain()`. -/
def retain (b : NvmManagedBuffer) : NvmManagedBuffer := { b with refCount := b.refCount + 1 }

/-- `release()`.  At zero the native memory is given back and the object is gone. -/
def release (b : NvmManagedBuffer) : Option NvmManagedBuffer :=
  if b.refCount - 1 = 0 then none else some { b with refCount := b.refCount - 1 }

end NvmManagedBuffer

/-! ## Sequences of calls -/

/-- A call on the object, a read from the stream it returned, or a put by somebody
else. -/
inductive ManagedOp where
  | size
  | createInputStream
  | read (op : InputOp)
  | nioByteBuffer
  | convertToNetty
  | retain
  | release
  | put (call : PutCall)

/-- The call opens a stream, or uses the cached one. -/
def ManagedOp.UsesStream : ManagedOp → Prop
  | .createInputStream | .read _ | .nioByteBuffer | .convertToNetty => True
  | _ => False

/-- The store, the object, and what `size()` and the two views have shown. -/
structure ManagedState where
  kv : Pmemkv
  buffer : NvmManagedBuffer
  sizes : List Int
  views : List (List UInt8)

namespace ManagedState

def init (kv : Pmemkv) (blockId : String) : ManagedState :=
  { kv := kv, buffer := .new blockId, sizes := [], views := [] }

/-- One call. -/
def step (hash : String → UInt64) (fuel : Nat) (env : StreamMemory) (st : ManagedState) :
    ManagedOp → Option ManagedState
  | .size => do
    let (n, b) ← st.buffer.size hash st.kv
    return { st with buffer := b, sizes := st.sizes ++ [n] }
  | .createInputStream => do
    let (_, b) ← st.buffer.createInputStream hash fuel env st.kv
    return { st with buffer := b }
  | .read op => do
    let (s, b) ← st.buffer.createInputStream hash fuel env st.kv
    let input ← InputState.step st.kv.service.mem env.junk { stream := s, delivered := [] } op
    return { st with buffer := { b with inputStream := some input.stream } }
  | .nioByteBuffer => do
    let (view, b) ← st.buffer.nioByteBuffer hash fuel env st.kv
    return { st with buffer := b, views := st.views ++ [view] }
  | .convertToNetty => do
    let (view, b) ← st.buffer.convertToNetty hash fuel env st.kv
    return { st with buffer := b, views := st.views ++ [view] }
  | .retain => some { st with buffer := st.buffer.retain }
  | .release => do
    let b ← st.buffer.release
    return { st with buffer := b }
  | .put call => do
    let (_, kv) ← st.kv.put hash call.key call.value call.value.length call.ans
    return { st with kv := kv }

/-- Every size and every view is the one of the block. -/
structure Shows (value : List UInt8) (st : ManagedState) : Prop where
  sizes : ∀ n ∈ st.sizes, n = value.length
  views : ∀ view ∈ st.views, view = value

/-- Reads have a range in their array, the object is not released to zero, and the
puts of others are under other keys and do not fail. -/
def Ok (hash : String → UInt64) (st : ManagedState) : ManagedOp → Prop
  | .read op => op.Ok
  | .release => st.buffer.refCount ≠ 1
  | .put call => hash call.key ≠ hash st.buffer.blockId ∧
    st.kv.NoFailure (hash call.key) call.value.length call.ans
  | _ => True

/-- At `nioByteBuffer` nothing has been read from the cached stream, or the unread
bytes followed by zeros happen to be the block. -/
def NioOk (value : List UInt8) (st : ManagedState) : ManagedOp → Prop
  | .nioByteBuffer => ∀ s, st.buffer.inputStream = some s →
    s.remaining = value.length ∨
      s.buf.content ++ List.replicate (value.length - s.buf.content.length) 0 = value
  | _ => True

/-- A block in `pieces` pieces can be streamed if the call needs that, and `NioOk`. -/
def ViewOk (value : List UInt8) (pieces : Nat) (st : ManagedState) (op : ManagedOp) : Prop :=
  (op.UsesStream → pieces < 2 ^ 30) ∧ st.NioOk value op

/-! ## The invariant -/

/-- The store holds the block, the size is the right one if it is cached, and the
cached stream still has the block in its buffer. -/
structure Inv (hash : String → UInt64) (fuel : Nat) (calls : List PutCall) (blockId : String)
    (value : List UInt8) (rest : Nat) (st : ManagedState) : Prop where
  holds : ∃ puts, Holds hash st.kv puts ∧ puts.length + rest ≤ fuel ∧
    storedUnder hash puts blockId = calls
  blockId_eq : st.buffer.blockId = blockId
  totalSize : st.buffer.totalSize = -1 ∨ st.buffer.totalSize = value.length
  stream : ∀ s, st.buffer.inputStream = some s → calls.length < 2 ^ 30 ∧ ∃ done, s.Serves value done
  shows : st.Shows value

section

variable {hash : String → UInt64} {fuel : Nat} {env : StreamMemory} {calls : List PutCall}
variable {blockId : String} {value : List UInt8} {rest : Nat} {st st' : ManagedState}

theorem Inv.size_eq (h : st.Inv hash fuel calls blockId value rest)
    (hvalue : value = (calls.map PutCall.value).flatten) :
    st.buffer.size hash st.kv =
      some ((value.length : Int), { st.buffer with totalSize := value.length }) := by
  obtain ⟨puts, hholds, _, hcalls⟩ := h.holds
  rw [NvmManagedBuffer.size]
  by_cases hunset : st.buffer.totalSize = -1
  · have hget : getPartitionSize hash st.kv st.buffer.blockId = some value.length := by
      rw [h.blockId_eq, getPartitionSize_eq hholds.indexHolds, storedBytes, hcalls, ← hvalue]
    rw [if_pos hunset, hget]
    rfl
  · have hset := h.totalSize.resolve_left hunset
    rw [if_neg hunset, ← hset]

/-- The cached stream, or a new one. -/
theorem Inv.createInputStream_eq (env : StreamMemory)
    (h : st.Inv hash fuel calls blockId value rest)
    (hvalue : value = (calls.map PutCall.value).flatten) (hne : calls ≠ [])
    (hcount : calls.length < 2 ^ 30) (hpieces : ∀ call ∈ calls, call.value ≠ [])
    (hsmall : value.length < 2 ^ 31) (b : NvmManagedBuffer) (hid : b.blockId = blockId)
    (hstream : b.inputStream = st.buffer.inputStream) :
    ∃ s done, b.createInputStream hash fuel env st.kv =
        some (s, { b with inputStream := some s }) ∧
      s.Serves value done ∧
      (st.buffer.inputStream = some s ∨ st.buffer.inputStream = none ∧ done = 0) := by
  cases hcached : st.buffer.inputStream with
  | some s =>
    obtain ⟨_, done, hserves⟩ := h.stream s hcached
    refine ⟨s, done, ?_, hserves, .inl rfl⟩
    rw [hcached] at hstream
    have hsame : { b with inputStream := some s } = b := by rw [← hstream]
    rw [NvmManagedBuffer.createInputStream, hstream, hsame]
  | none =>
    obtain ⟨puts, hholds, hfuel, hcalls⟩ := h.holds
    have hbytes : storedBytes hash puts blockId = value := by
      rw [storedBytes, hcalls, hvalue]
    obtain ⟨s, hnew, _, hserves⟩ := NvmInputStream.new_serves fuel hholds.indexHolds (by omega)
      (by rw [hcalls]; exact hne) (by rw [hcalls]; exact hcount) (by rw [hcalls]; exact hpieces)
      (by rw [hbytes]; exact hsmall) env.mm env.fresh env.junk
    rw [hbytes] at hserves
    refine ⟨s, 0, ?_, hserves, .inr ⟨rfl, rfl⟩⟩
    rw [hcached] at hstream
    rw [NvmManagedBuffer.createInputStream, hstream, hid, hnew]
    rfl

/-- From `2 ^ 30` pieces on there is no stream. -/
theorem Inv.createInputStream_eq_none (env : StreamMemory)
    (h : st.Inv hash fuel calls blockId value rest)
    (hvalue : value = (calls.map PutCall.value).flatten) (hmany : 2 ^ 30 ≤ calls.length)
    (hpieces : ∀ call ∈ calls, call.value ≠ []) (hsmall : value.length < 2 ^ 31)
    (b : NvmManagedBuffer) (hid : b.blockId = blockId)
    (hstream : b.inputStream = st.buffer.inputStream) :
    b.createInputStream hash fuel env st.kv = none := by
  obtain ⟨puts, hholds, hfuel, hcalls⟩ := h.holds
  have hnone : st.buffer.inputStream = none := by
    rw [Option.eq_none_iff_forall_ne_some]
    intro s hs
    exact absurd (h.stream s hs).1 (by omega)
  have hbytes : storedBytes hash puts blockId = value := by
    rw [storedBytes, hcalls, hvalue]
  have hnew : NvmInputStream.new hash fuel st.kv blockId env.mm env.fresh env.junk = none :=
    new_of_many hholds.indexHolds (by omega) (by rw [hcalls]; exact hpieces)
      (by rw [hcalls]; exact hmany) (by rw [hbytes]; exact hsmall) env.mm env.fresh env.junk
  rw [NvmManagedBuffer.createInputStream, hstream, hnone, hid, hnew]
  rfl

/-- Then no call that needs one returns. -/
theorem Inv.step_eq_none (env : StreamMemory) (h : st.Inv hash fuel calls blockId value rest)
    (hvalue : value = (calls.map PutCall.value).flatten) (hmany : 2 ^ 30 ≤ calls.length)
    (hpieces : ∀ call ∈ calls, call.value ≠ []) (hsmall : value.length < 2 ^ 31) {op : ManagedOp}
    (huses : op.UsesStream) : st.step hash fuel env op = none := by
  have hnone := h.createInputStream_eq_none env hvalue hmany hpieces hsmall
  have hown := hnone st.buffer h.blockId_eq rfl
  have hsized := hnone { st.buffer with totalSize := value.length } h.blockId_eq rfl
  cases op with
  | createInputStream =>
    rw [ManagedState.step, hown]
    rfl
  | read op =>
    rw [ManagedState.step, hown]
    rfl
  | nioByteBuffer =>
    simp only [ManagedState.step, NvmManagedBuffer.nioByteBuffer, h.size_eq hvalue,
      Option.bind_eq_bind, Option.bind_some, hsized, Option.bind_none]
  | convertToNetty =>
    simp only [ManagedState.step, NvmManagedBuffer.convertToNetty, h.size_eq hvalue,
      Option.bind_eq_bind, Option.bind_some, hsized, Option.bind_none]
  | size | retain | release | put => exact absurd huses id

/-- `read(data)` into an array of zeros of the length of the block. -/
theorem readInto_zeros {s : NvmInputStream} {done : Nat} (h : s.Serves value done) :
    ∃ r s', s.readInto (List.replicate value.length 0) 0 value.length =
        some (r, value.drop done ++ List.replicate done 0, s') ∧
      s'.Serves value value.length := by
  have hle := h.done_le
  by_cases hend : done = value.length
  · refine ⟨-1, s, ?_, hend ▸ h⟩
    rw [h.readInto_end hend, hend, List.drop_length, List.nil_append]
  · have harray : 0 + value.length ≤ (List.replicate value.length (0 : UInt8)).length := by
      rw [List.length_replicate]
      omega
    obtain ⟨s', n, hn, hread, hserves⟩ := h.readInto_some (by omega) harray
    have hn' : n = value.length - done := by omega
    have hdone : done + n = value.length := by omega
    rw [hdone] at hserves
    refine ⟨n, s', ?_, hserves⟩
    have hall : (value.drop done).take n = value.drop done := by
      rw [List.take_of_length_le]
      rw [List.length_drop]
      omega
    have hzeros : (List.replicate value.length (0 : UInt8)).drop (0 + n) =
        List.replicate done 0 := by
      rw [List.drop_replicate]
      congr 1
      omega
    rw [hread, hall, hzeros, List.take_zero, List.nil_append]

/-- A step that changes only the object. -/
theorem Inv.of_buffer (h : st.Inv hash fuel calls blockId value (rest + 1))
    (hkv : st'.kv = st.kv) (hid : st'.buffer.blockId = st.buffer.blockId)
    (hsize : st'.buffer.totalSize = st.buffer.totalSize ∨ st'.buffer.totalSize = value.length)
    (hstream : ∀ s, st'.buffer.inputStream = some s →
      calls.length < 2 ^ 30 ∧ ∃ done, s.Serves value done)
    (hshows : st'.Shows value) : st'.Inv hash fuel calls blockId value rest := by
  obtain ⟨puts, hholds, hfuel, hcalls⟩ := h.holds
  refine ⟨⟨puts, by rw [hkv]; exact hholds, by omega, hcalls⟩, hid.trans h.blockId_eq, ?_, hstream,
    hshows⟩
  rcases hsize with hsize | hsize
  · rw [hsize]
    exact h.totalSize
  · exact .inr hsize

theorem Shows.snoc_size (h : st.Shows value) (b : NvmManagedBuffer) :
    Shows value { st with buffer := b, sizes := st.sizes ++ [(value.length : Int)] } := by
  refine ⟨fun n hn => ?_, h.views⟩
  rcases List.mem_append.mp hn with hn | hn
  · exact h.sizes n hn
  · exact List.mem_singleton.mp hn

theorem Shows.snoc_view (h : st.Shows value) (b : NvmManagedBuffer) :
    Shows value { st with buffer := b, views := st.views ++ [value] } := by
  refine ⟨h.sizes, fun view hview => ?_⟩
  rcases List.mem_append.mp hview with hview | hview
  · exact h.views view hview
  · exact List.mem_singleton.mp hview

/-- The view that `nioByteBuffer` gives. -/
theorem Inv.nioByteBuffer_eq (env : StreamMemory) (h : st.Inv hash fuel calls blockId value rest)
    (hvalue : value = (calls.map PutCall.value).flatten) (hne : calls ≠ [])
    (hcount : calls.length < 2 ^ 30) (hpieces : ∀ call ∈ calls, call.value ≠ [])
    (hsmall : value.length < 2 ^ 31) :
    ∃ s done s', (st.buffer.inputStream = some s ∨ st.buffer.inputStream = none ∧ done = 0) ∧
      s.Serves value done ∧ s'.Serves value value.length ∧
      st.buffer.nioByteBuffer hash fuel env st.kv = some
        (value.drop done ++ List.replicate done 0,
          { st.buffer with
            totalSize := value.length
            inputStream := some s'
            byteBuffer := some (value.drop done ++ List.replicate done 0) }) := by
  obtain ⟨s, done, hcreate, hserves, hcached⟩ := h.createInputStream_eq env hvalue hne
    hcount hpieces hsmall { st.buffer with totalSize := value.length } h.blockId_eq rfl
  obtain ⟨r, s', hread, hserves'⟩ := readInto_zeros hserves
  have hw : wrap32 (value.length : Int) = value.length := wrap32_of_fits (by omega) (by omega)
  refine ⟨s, done, s', hcached, hserves, hserves', ?_⟩
  simp only [NvmManagedBuffer.nioByteBuffer, h.size_eq hvalue, Option.bind_eq_bind,
    Option.bind_some, hw, hcreate]
  rw [if_neg (by omega), Int.toNat_natCast, hread]
  rfl

theorem Inv.convertToNetty_eq (env : StreamMemory) (h : st.Inv hash fuel calls blockId value rest)
    (hvalue : value = (calls.map PutCall.value).flatten) (hne : calls ≠ [])
    (hcount : calls.length < 2 ^ 30) (hpieces : ∀ call ∈ calls, call.value ≠ [])
    (hsmall : value.length < 2 ^ 31) :
    ∃ s done, s.Serves value done ∧
      st.buffer.convertToNetty hash fuel env st.kv = some
        (value, { st.buffer with totalSize := value.length, inputStream := some s }) := by
  obtain ⟨s, done, hcreate, hserves, _⟩ := h.createInputStream_eq env hvalue hne
    hcount hpieces hsmall { st.buffer with totalSize := value.length } h.blockId_eq rfl
  obtain ⟨m, hdata, hfront⟩ := hserves.at_front
  have haddr : s.getByteBufferDirectAddr = some m := hdata
  have hw : wrap32 (value.length : Int) = value.length := wrap32_of_fits (by omega) (by omega)
  refine ⟨s, done, hserves, ?_⟩
  simp only [NvmManagedBuffer.convertToNetty, h.size_eq hvalue, Option.bind_eq_bind,
    Option.bind_some, hw, hcreate, haddr]
  rw [Int.toNat_natCast, hfront]
  rfl

/-- One read from a stream that serves the block, from wherever it stands. -/
theorem serves_of_read {s : NvmInputStream} {done : Nat} (h : s.Serves value done) {op : InputOp}
    (hok : op.Ok) (mem : Mem) (junk : Nat → Mem) :
    ∃ input, InputState.step mem junk { stream := s, delivered := [] } op = some input ∧
      ∃ done', input.stream.Serves value done' := by
  have hle := h.done_le
  cases op with
  | read =>
    by_cases hend : done = value.length
    · refine ⟨_, by rw [InputState.step, h.read_end hend]; rfl, done, h⟩
    · obtain ⟨s', hread, hserves⟩ := h.read_byte mem junk (by omega)
      exact ⟨_, by rw [InputState.step, hread]; rfl, done + 1, hserves⟩
  | readInto array off len =>
    by_cases hend : done = value.length
    · exact ⟨_, by rw [InputState.step, h.readInto_end hend]; rfl, done, h⟩
    · obtain ⟨s', n, _, hread, hserves⟩ := h.readInto_some (by omega) hok.2
      exact ⟨_, by rw [InputState.step, hread]; rfl, done + n, hserves⟩

/-- What the condition says about the state of the cached stream. -/
theorem nioOk_iff {s : NvmInputStream} {done : Nat} (h : s.Serves value done)
    (hcached : st.buffer.inputStream = some s) :
    st.NioOk value .nioByteBuffer ↔ value.drop done ++ List.replicate done 0 = value := by
  have hle := h.done_le
  have hrem := h.remaining
  have hgap : value.length - (value.length - done) = done := by omega
  have hbody : (s.remaining = value.length ∨
      s.buf.content ++ List.replicate (value.length - s.buf.content.length) 0 = value) ↔
        value.drop done ++ List.replicate done 0 = value := by
    rw [h.content, List.length_drop, hgap]
    constructor
    · rintro (hall | heq)
      · have h0 : done = 0 := by omega
        rw [h0, List.drop_zero, List.replicate_zero, List.append_nil]
      · exact heq
    · exact .inr
  rw [← hbody]
  constructor
  · exact fun hok => hok s hcached
  · intro hok s' hs'
    rw [← Option.some.inj (hcached.symm.trans hs')]
    exact hok

/-- Every call that meets the condition keeps the invariant. -/
theorem Inv.step (h : st.Inv hash fuel calls blockId value (rest + 1))
    (hvalue : value = (calls.map PutCall.value).flatten) (hne : calls ≠ [])
    (hpieces : ∀ call ∈ calls, call.value ≠ []) (hsmall : value.length < 2 ^ 31) {op : ManagedOp}
    (hok : st.Ok hash op) (hview : st.ViewOk value calls.length op) :
    ∃ st', st.step hash fuel env op = some st' ∧ st'.Inv hash fuel calls blockId value rest := by
  obtain ⟨hcount, hnio⟩ := hview
  have hserved : ∀ {s : NvmInputStream} {done : Nat}, op.UsesStream → s.Serves value done →
      ∀ s', some s = some s' → calls.length < 2 ^ 30 ∧ ∃ done, s'.Serves value done := by
    intro s done huses hserves s' hs'
    rw [← Option.some.inj hs']
    exact ⟨hcount huses, done, hserves⟩
  cases op with
  | size =>
    have hstep : st.step hash fuel env .size = some
        { st with
          buffer := { st.buffer with totalSize := value.length }
          sizes := st.sizes ++ [(value.length : Int)] } := by
      rw [ManagedState.step, h.size_eq hvalue]
      rfl
    exact ⟨_, hstep, h.of_buffer rfl rfl (.inr rfl) h.stream (h.shows.snoc_size _)⟩
  | createInputStream =>
    obtain ⟨s, done, hcreate, hserves, _⟩ := h.createInputStream_eq env hvalue hne
      (hcount trivial) hpieces hsmall st.buffer h.blockId_eq rfl
    have hstep : st.step hash fuel env .createInputStream =
        some { st with buffer := { st.buffer with inputStream := some s } } := by
      rw [ManagedState.step, hcreate]
      rfl
    exact ⟨_, hstep, h.of_buffer rfl rfl (.inl rfl) (hserved trivial hserves)
      ⟨h.shows.sizes, h.shows.views⟩⟩
  | read op =>
    obtain ⟨s, done, hcreate, hserves, _⟩ := h.createInputStream_eq env hvalue hne
      (hcount trivial) hpieces hsmall st.buffer h.blockId_eq rfl
    obtain ⟨input, hread, done', hserves'⟩ :=
      serves_of_read hserves hok st.kv.service.mem env.junk
    have hstep : st.step hash fuel env (.read op) =
        some { st with buffer := { st.buffer with inputStream := some input.stream } } := by
      simp only [ManagedState.step, hcreate, hread, Option.bind_eq_bind, Option.bind_some]
      rfl
    exact ⟨_, hstep, h.of_buffer rfl rfl (.inl rfl) (hserved trivial hserves')
      ⟨h.shows.sizes, h.shows.views⟩⟩
  | nioByteBuffer =>
    obtain ⟨s, done, s', hcached, hserves, hserves', heq⟩ :=
      h.nioByteBuffer_eq env hvalue hne (hcount trivial) hpieces hsmall
    have hview : value.drop done ++ List.replicate done 0 = value := by
      rcases hcached with hcached | ⟨_, h0⟩
      · exact (nioOk_iff hserves hcached).mp hnio
      · rw [h0, List.drop_zero, List.replicate_zero, List.append_nil]
    rw [hview] at heq
    have hstep : st.step hash fuel env .nioByteBuffer = some
        { st with
          buffer := { st.buffer with
            totalSize := value.length
            inputStream := some s'
            byteBuffer := some value }
          views := st.views ++ [value] } := by
      rw [ManagedState.step, heq]
      rfl
    exact ⟨_, hstep, h.of_buffer rfl rfl (.inr rfl) (hserved trivial hserves')
      (h.shows.snoc_view _)⟩
  | convertToNetty =>
    obtain ⟨s, done, hserves, heq⟩ :=
      h.convertToNetty_eq env hvalue hne (hcount trivial) hpieces hsmall
    have hstep : st.step hash fuel env .convertToNetty = some
        { st with
          buffer := { st.buffer with totalSize := value.length, inputStream := some s }
          views := st.views ++ [value] } := by
      rw [ManagedState.step, heq]
      rfl
    exact ⟨_, hstep, h.of_buffer rfl rfl (.inr rfl) (hserved trivial hserves) (h.shows.snoc_view _)⟩
  | retain =>
    exact ⟨_, rfl, h.of_buffer rfl rfl (.inl rfl) h.stream ⟨h.shows.sizes, h.shows.views⟩⟩
  | release =>
    have hcount : st.buffer.refCount ≠ 1 := hok
    have hstep : st.step hash fuel env .release =
        some { st with buffer := { st.buffer with refCount := st.buffer.refCount - 1 } } := by
      rw [ManagedState.step, NvmManagedBuffer.release, if_neg (by omega)]
      rfl
    exact ⟨_, hstep, h.of_buffer rfl rfl (.inl rfl) h.stream ⟨h.shows.sizes, h.shows.views⟩⟩
  | put call =>
    obtain ⟨hother, hno⟩ := hok
    rw [h.blockId_eq] at hother
    obtain ⟨puts, hholds, hfuel, hcalls⟩ := h.holds
    obtain ⟨kv', hput, hholds'⟩ := hholds.put call hno
    have hstep : st.step hash fuel env (.put call) = some { st with kv := kv' } := by
      rw [ManagedState.step, hput]
      rfl
    refine ⟨_, hstep, ⟨puts ++ [call], hholds', ?_, ?_⟩, h.blockId_eq, h.totalSize, h.stream,
      ⟨h.shows.sizes, h.shows.views⟩⟩
    · rw [List.length_append, List.length_singleton]
      omega
    · rw [storedUnder_append, hcalls, storedUnder, List.filter_cons_of_neg (by simpa using hother)]
      exact List.append_nil _

/-- A call that does not meet the condition fails or gives a wrong view. -/
theorem Inv.not_shows (h : st.Inv hash fuel calls blockId value rest)
    (hvalue : value = (calls.map PutCall.value).flatten) (hne : calls ≠ [])
    (hpieces : ∀ call ∈ calls, call.value ≠ []) (hsmall : value.length < 2 ^ 31) {op : ManagedOp}
    (hview : ¬st.ViewOk value calls.length op) (hstep : st.step hash fuel env op = some st') :
    ¬st'.Shows value := by
  have hcount : op.UsesStream → calls.length < 2 ^ 30 := by
    intro huses
    by_contra hmany
    rw [h.step_eq_none env hvalue (Nat.le_of_not_lt hmany) hpieces hsmall huses] at hstep
    exact absurd hstep (by simp)
  have hnio : ¬st.NioOk value op := fun hnio => hview ⟨hcount, hnio⟩
  cases op with
  | nioByteBuffer =>
    obtain ⟨s, done, s', hcached, hserves, _, heq⟩ :=
      h.nioByteBuffer_eq env hvalue hne (hcount trivial) hpieces hsmall
    rcases hcached with hcached | ⟨hnone, _⟩
    · rw [ManagedState.step, heq] at hstep
      rw [← Option.some.inj hstep]
      intro hshows
      have hshown := hshows.views (value.drop done ++ List.replicate done 0)
        (List.mem_append_right _ (List.mem_singleton.mpr rfl))
      exact hnio ((nioOk_iff hserves hcached).mpr hshown)
    · refine absurd (fun s hs => ?_) hnio
      rw [hnone] at hs
      simp at hs
  | _ => exact absurd trivial hnio

end

end ManagedState

/-- For every stored block of fewer than `2 ^ 31` bytes, in non-empty pieces, and
every sequence of calls on one `nvmManagedBuffer` that is not released to zero, with
reads from its streams and puts under other keys in between: no call fails, and `size()`
and all views are the ones of the block all along, exactly if the block has fewer than
`2 ^ 30` pieces (where a call needs a stream), and at every `nioByteBuffer` nothing has been
read from the cached stream (or the rest and zeros happen to be the block). -/
theorem managed_views_iff (hash : String → UInt64) (fuel : Nat) (s : Service) (root : Nat)
    (puts : List Op) (blockId : String) (env : StreamMemory) (ops : List ManagedOp)
    (hroot : s.Grants sizeofBase root) (hfuel : puts.length + ops.length ≤ fuel)
    (hok : Admissible (Pmemkv.step hash fuel) (Pmemkv.Ok hash) (Pmemkv.create s root) puts)
    (hstored : storedUnder hash (live puts) blockId ≠ [])
    (hpieces : ∀ call ∈ storedUnder hash (live puts) blockId, call.value ≠ [])
    (hsmall : (storedBytes hash (live puts) blockId).length < 2 ^ 31)
    (hcalls : ∀ kv, run (Pmemkv.step hash fuel) (Pmemkv.create s root) puts = some kv →
      Admissible (ManagedState.step hash fuel env) (ManagedState.Ok hash) (.init kv blockId) ops) :
    ∃ kv, run (Pmemkv.step hash fuel) (Pmemkv.create s root) puts = some kv ∧
      (Always (ManagedState.step hash fuel env)
          (ManagedState.Shows (storedBytes hash (live puts) blockId)) (.init kv blockId) ops ↔
        Admissible (ManagedState.step hash fuel env)
          (ManagedState.ViewOk (storedBytes hash (live puts) blockId)
            (storedUnder hash (live puts) blockId).length) (.init kv blockId) ops) := by
  obtain ⟨kv, hrun, hholds⟩ := run_holds hroot (by omega) hok
  have hlen := length_live_le puts
  refine ⟨kv, hrun, always_iff
    (I := fun rest st => st.Inv hash fuel (storedUnder hash (live puts) blockId) blockId
      (storedBytes hash (live puts) blockId) rest.length)
    (fun _ _ h => h.shows) ?_ ?_ ?_ (hcalls kv hrun)⟩
  · intro op rest st h hop hview
    exact h.step rfl hstored hpieces hsmall hop hview
  · intro op rest st st' h _ hview hstep
    exact h.not_shows rfl hstored hpieces hsmall hview hstep
  · refine ⟨⟨live puts, hholds, by omega, rfl⟩, rfl, .inl rfl, ?_, ?_⟩
    · intro s hs
      simp [ManagedState.init, NvmManagedBuffer.new] at hs
    · exact ⟨fun n hn => absurd hn (by simp [ManagedState.init]),
        fun view hview => absurd hview (by simp [ManagedState.init])⟩

/-- The memory of a fresh process. -/
def sampleMemory : StreamMemory :=
  { mm := { entries := fun _ => 0, length := 0 }, fresh := fun _ => 0, junk := fun _ _ => 0 }

theorem managed_views_sample :
    ∃ kv, run (Pmemkv.step sampleHash 6) (Pmemkv.create sampleService 4096) sampleOps = some kv ∧
      (Always (ManagedState.step sampleHash 6 sampleMemory)
          (ManagedState.Shows (storedBytes sampleHash (live sampleOps) "a")) (.init kv "a")
          [.nioByteBuffer, .convertToNetty] ↔
        Admissible (ManagedState.step sampleHash 6 sampleMemory)
          (ManagedState.ViewOk (storedBytes sampleHash (live sampleOps) "a")
            (storedUnder sampleHash (live sampleOps) "a").length) (.init kv "a")
          [.nioByteBuffer, .convertToNetty]) :=
  managed_views_iff sampleHash 6 sampleService 4096 sampleOps "a" sampleMemory
    [.nioByteBuffer, .convertToNetty] (by decide) (by decide) (by decide) (by decide)
    (by decide) (by decide)
    fun _ _ => ⟨trivial, fun _ _ => ⟨trivial, fun _ _ => trivial⟩⟩

/-- The second `nioByteBuffer` of one object finds the stream at its end and exposes
zeros. -/
theorem second_view_is_zeros :
    ∃ kv st, run (Pmemkv.step sampleHash 6) (Pmemkv.create sampleService 4096) sampleOps = some kv ∧
      storedBytes sampleHash (live sampleOps) "a" = [4] ∧
      Admissible (ManagedState.step sampleHash 6 sampleMemory) (ManagedState.Ok sampleHash)
        (.init kv "a") [.nioByteBuffer, .nioByteBuffer] ∧
      run (ManagedState.step sampleHash 6 sampleMemory) (.init kv "a")
        [.nioByteBuffer, .nioByteBuffer] = some st ∧
      st.views = [[4], [0]] ∧
      ¬Always (ManagedState.step sampleHash 6 sampleMemory)
        (ManagedState.Shows (storedBytes sampleHash (live sampleOps) "a")) (.init kv "a")
        [.nioByteBuffer, .nioByteBuffer] := by
  have hviews : ((run (Pmemkv.step sampleHash 6) (Pmemkv.create sampleService 4096) sampleOps).bind
      fun kv => (run (ManagedState.step sampleHash 6 sampleMemory) (.init kv "a")
        [.nioByteBuffer, .nioByteBuffer]).map ManagedState.views) = some [[4], [0]] := by
    decide
  obtain ⟨kv, hkv, hviews⟩ := Option.bind_eq_some_iff.mp hviews
  obtain ⟨st, hst, hviews⟩ := Option.map_eq_some_iff.mp hviews
  refine ⟨kv, st, hkv, by decide, ⟨trivial, fun _ _ => ⟨trivial, fun _ _ => trivial⟩⟩, hst, hviews,
    fun halways => ?_⟩
  have hshown := (halways.last hst).views [0] (by rw [hviews]; decide)
  revert hshown
  decide

end SparkNvm.Storage
