import SparkNvm.Storage.BlockIndex
import SparkNvm.Storage.PmemBuffer

/-!
# `nvmInputStream`

The reader of one block: its constructor loads all blocks of the key into one
native buffer, and the two `read`s take bytes out of that buffer.

* The stream and its methods, as in the source.  The copies into Java arrays are
  unchecked native copies; one outside of the array is undefined, `none`.
* `Serves` says that the stream still has to deliver the end of a byte string.
  `new_serves` is the constructor, `Serves.read_byte` and `Serves.readInto_some` are the
  reads, `Serves.read_end` and `Serves.readInto_end` the end of the data.
* `OpensWith` and `DeliversBlocks`: any mix of reads delivers the block exactly.
* `opens_iff` and `input_stream_delivers_iff`: they hold as long as the sizes fit 32 bits.
-/

namespace SparkNvm.Storage

open Lib Native

/-- `PmemBuffer(long len)`, called with an `int`.  The allocation of a negative
length fails. -/
def PmemBuffer.newBySize (len : Int) (junk : Mem) : PmemBuffer :=
  if 0 ≤ len then .new len.toNat junk else { PmemBuffer.empty with bufDataCapacity := len }

/-- `nvmInputStream`. -/
structure NvmInputStream where
  index : Nat
  remaining : Int
  blockInfo : List (Nat × Int)
  availableBytes : Int
  buf : PmemBuffer

namespace NvmInputStream

/-- `loadNextStream()`; a copy of negative length is undefined.  `mem` is the
persistent memory and `junk i` what memory allocated for block `i` holds. -/
def loadNextStream (mem : Mem) (junk : Nat → Mem) (s : NvmInputStream) :
    Option (Int × NvmInputStream) :=
  match s.blockInfo[s.index]? with
  | none => some (0, s)
  | some (addr, len) =>
    if len < 0 then none
    else do
      let (_, buf) ← s.buf.load addr (loadBytes mem addr len.toNat) (junk s.index)
      return (len, { s with
        buf := buf
        index := s.index + 1
        remaining := wrap32 (s.remaining + len) })

/-- The loop of `load(len)`. -/
def loadLoop (mem : Mem) (junk : Nat → Mem) (len : Int) :
    Nat → NvmInputStream → Option NvmInputStream
  | 0, _ => none
  | fuel + 1, s =>
    if (0 < s.remaining ∧ s.remaining < len) ∨ s.remaining = 0 then do
      let (loaded, s) ← s.loadNextStream mem junk
      if loaded = 0 then return s else loadLoop mem junk len fuel s
    else some s

/-- `load(len)`.  Every round but the last takes a block. -/
def load (mem : Mem) (junk : Nat → Mem) (len : Int) (s : NvmInputStream) : Option NvmInputStream :=
  loadLoop mem junk len (s.blockInfo.length + 1) s

/-- The constructor.  `mm` is what the struct for the block index holds when it is
allocated, and `fresh` what the native buffer holds. -/
def new (hash : String → UInt64) (fuel : Nat) (kv : Pmemkv) (blockId : String)
    (mm : Pmemkv.MemoryMeta) (fresh : Mem) (junk : Nat → Mem) : Option NvmInputStream := do
  let blockInfo ← getPartitionBlockInfo hash fuel kv blockId mm
  let size ← getPartitionSize hash kv blockId
  let s : NvmInputStream :=
    { index := 0
      remaining := 0
      blockInfo := blockInfo
      availableBytes := wrap32 size
      buf := .newBySize (wrap32 size) fresh }
  s.load kv.service.mem junk s.availableBytes

/-- The end of `read()`: `buf.get()`. -/
def takeByte (s : NvmInputStream) : Option (Int × NvmInputStream) := do
  let (bytes, buf) ← s.buf.read 1
  return ((bytes.headD 0).toNat, { s with
    buf := buf
    remaining := wrap32 (s.remaining - 1)
    availableBytes := wrap32 (s.availableBytes - 1) })

/-- `read()`. -/
def read (mem : Mem) (junk : Nat → Mem) (s : NvmInputStream) : Option (Int × NvmInputStream) :=
  if s.remaining = 0 then do
    let (loaded, s) ← s.loadNextStream mem junk
    if loaded = 0 then return (-1, s) else s.takeByte
  else s.takeByte

/-- The copy of `bytes` into a Java array from `off` on. -/
def copyToArray (array : List UInt8) (off : Nat) (bytes : List UInt8) : Option (List UInt8) :=
  if off + bytes.length ≤ array.length then
    some (array.take off ++ bytes ++ array.drop (off + bytes.length))
  else none

/-- `read(bytes, off, len)`: the result, the array and the stream afterwards. -/
def readInto (array : List UInt8) (off len : Nat) (s : NvmInputStream) :
    Option (Int × List UInt8 × NvmInputStream) :=
  if s.remaining = 0 then some (-1, array, s)
  else do
    let realLen := min (len : Int) s.remaining
    let (bytes, buf) ← s.buf.read realLen
    let array ← copyToArray array off bytes
    return (realLen, array, { s with
      buf := buf
      remaining := wrap32 (s.remaining - realLen)
      availableBytes := wrap32 (s.availableBytes - realLen) })

/-- `available()`. -/
def available (s : NvmInputStream) : Int := s.availableBytes

/-- `getByteBufferDirectAddr`: what the native buffer's memory holds. -/
def getByteBufferDirectAddr (s : NvmInputStream) : Option Mem := s.buf.getDataAddr

/-! ## What the stream still has to deliver -/

/-- All blocks are loaded, `value` is at the front of the native buffer, and its
first `done` bytes were delivered. -/
structure Serves (s : NvmInputStream) (value : List UInt8) (done : Nat) : Prop where
  wf : s.buf.Wf
  small : value.length < 2 ^ 31
  done_le : done ≤ value.length
  content : s.buf.content = value.drop done
  remaining : s.remaining = (value.length : Int) - done
  available : s.availableBytes = (value.length : Int) - done
  loaded : s.index = s.blockInfo.length
  at_front : ∃ m, s.buf.bufData = some m ∧ loadBytes m 0 value.length = value

section

variable {mem : Mem} {junk : Nat → Mem} {s : NvmInputStream} {value : List UInt8} {done : Nat}

theorem loadNextStream_end (h : s.index = s.blockInfo.length) :
    s.loadNextStream mem junk = some (0, s) := by
  rw [loadNextStream, h, List.getElem?_eq_none (Nat.le_refl _)]

/-- What the constructor keeps while it loads: the blocks `loaded` are in the buffer. -/
structure Loading (s : NvmInputStream) (total : Nat) (loaded : List PutCall) : Prop where
  wf : s.buf.Wf
  pos : s.buf.pos = 0
  index : s.index = loaded.length
  content : s.buf.content = (loaded.map PutCall.value).flatten
  remaining : s.remaining = (loaded.map PutCall.value).flatten.length
  available : s.availableBytes = total

/-- One round of the loop. -/
theorem Loading.next (junk : Nat → Mem) {total : Nat} {loaded rest : List PutCall} {call : PutCall}
    (h : s.Loading total loaded) (hinfo : s.blockInfo = (loaded ++ call :: rest).map infoOf)
    (hbytes : loadBytes mem call.ans.data call.value.length = call.value)
    (haddr : call.ans.data ≠ 0) (hne : call.value ≠ [])
    (hsum : (loaded.map PutCall.value).flatten.length + call.value.length < 2 ^ 31) :
    ∃ s', s.loadNextStream mem junk = some ((call.value.length : Int), s') ∧
      s'.blockInfo = s.blockInfo ∧ s'.Loading total (loaded ++ [call]) := by
  have hget : s.blockInfo[s.index]? = some (infoOf call) := by
    rw [hinfo, h.index, List.getElem?_map, List.getElem?_append_right (Nat.le_refl _)]
    simp
  have hrem := h.wf.length_content
  have hnonneg := h.wf.remaining
  rw [h.content] at hrem
  have hlen : call.value.length ≠ 0 := fun h0 => hne (List.length_eq_zero_iff.mp h0)
  obtain ⟨b', hload, hwf, hcontent, hpos, _⟩ :=
    h.wf.load_spec haddr hlen (junk s.index) (by omega)
  rw [if_pos (.inr (.inl h.pos)), h.content] at hcontent
  have hflat : ((loaded ++ [call]).map PutCall.value).flatten =
      (loaded.map PutCall.value).flatten ++ call.value := by
    simp
  have hnext : s.loadNextStream mem junk = some ((call.value.length : Int),
      { s with
        buf := b'
        index := s.index + 1
        remaining := wrap32 (s.remaining + call.value.length) }) := by
    simp only [loadNextStream, hget, infoOf]
    rw [if_neg (by omega), Int.toNat_natCast, hbytes, hload]
    rfl
  refine ⟨_, hnext, rfl, hwf, hpos, ?_, ?_, ?_, h.available⟩
  · show s.index + 1 = (loaded ++ [call]).length
    rw [h.index, List.length_append, List.length_singleton]
  · rw [hflat]
    exact hcontent
  · show wrap32 (s.remaining + call.value.length) = _
    rw [h.remaining, hflat, List.length_append, wrap32_of_fits (by omega) (by omega)]
    omega

/-- The loop loads all blocks. -/
theorem Loading.loop (mem : Mem) (junk : Nat → Mem) (fuel : Nat) {calls loaded rest : List PutCall}
    (hcalls : calls = loaded ++ rest)
    (hnonempty : calls ≠ [])
    (h : s.Loading (calls.map PutCall.value).flatten.length loaded)
    (hinfo : s.blockInfo = calls.map infoOf)
    (hbytes : ∀ call ∈ calls, loadBytes mem call.ans.data call.value.length = call.value)
    (haddr : ∀ call ∈ calls, call.ans.data ≠ 0) (hne : ∀ call ∈ calls, call.value ≠ [])
    (hsmall : (calls.map PutCall.value).flatten.length < 2 ^ 31) (hfuel : rest.length < fuel) :
    ∃ s', loadLoop mem junk (calls.map PutCall.value).flatten.length fuel s = some s' ∧
      s'.blockInfo = s.blockInfo ∧ s'.Loading (calls.map PutCall.value).flatten.length calls := by
  induction rest generalizing s loaded fuel with
  | nil =>
    obtain ⟨fuel, rfl⟩ : ∃ n, fuel = n + 1 := ⟨fuel - 1, by omega⟩
    rw [List.append_nil] at hcalls
    subst hcalls
    have hpos : 0 < (calls.map PutCall.value).flatten.length := by
      obtain ⟨call, hcall⟩ := List.exists_mem_of_ne_nil calls hnonempty
      have hlen := List.length_pos_of_ne_nil (hne call hcall)
      have hsub : call.value.length ≤ (calls.map PutCall.value).flatten.length :=
        (List.sublist_flatten_of_mem (List.mem_map_of_mem hcall)).length_le
      omega
    have hrem := h.remaining
    refine ⟨s, ?_, rfl, h⟩
    rw [loadLoop, if_neg (by omega)]
  | cons call rest ih =>
    obtain ⟨fuel, rfl⟩ : ∃ n, fuel = n + 1 := ⟨fuel - 1, by omega⟩
    have hmem : call ∈ calls := by simp [hcalls]
    have hlen := List.length_pos_of_ne_nil (hne call hmem)
    have htotal : (calls.map PutCall.value).flatten.length =
        (loaded.map PutCall.value).flatten.length + (call.value.length +
          (rest.map PutCall.value).flatten.length) := by
      rw [hcalls]
      simp
    obtain ⟨s₁, hnext, hinfo₁, h₁⟩ := h.next junk (hinfo.trans (by rw [hcalls]))
      (hbytes call hmem) (haddr call hmem) (hne call hmem) (by omega)
    have hrem := h.remaining
    have hcalls' : calls = (loaded ++ [call]) ++ rest := by simp [hcalls]
    have hfuel' : rest.length < fuel := by
      simp only [List.length_cons] at hfuel
      omega
    obtain ⟨s', hloop, hinfo', h'⟩ := ih fuel hcalls' h₁ (hinfo₁.trans hinfo) hfuel'
    refine ⟨s', ?_, hinfo'.trans hinfo₁, h'⟩
    rw [loadLoop, if_pos (by omega), hnext, Option.bind_eq_bind, Option.bind_some]
    show (if (call.value.length : Int) = 0 then _ else _) = _
    rw [if_neg (by omega)]
    exact hloop

/-- The constructor on a key with fewer than `2 ^ 30` blocks, none of them empty. -/
theorem new_serves {hash : String → UInt64} (fuel : Nat) {kv : Pmemkv} {puts : List PutCall}
    (h : IndexHolds hash kv puts) (hfuel : puts.length ≤ fuel) {k : String}
    (hstored : storedUnder hash puts k ≠ [])
    (hcount : (storedUnder hash puts k).length < 2 ^ 30)
    (hne : ∀ call ∈ storedUnder hash puts k, call.value ≠ [])
    (hsmall : (storedBytes hash puts k).length < 2 ^ 31) (mm : Pmemkv.MemoryMeta) (fresh : Mem)
    (junk : Nat → Mem) :
    ∃ s, new hash fuel kv k mm fresh junk = some s ∧
      s.blockInfo = (storedUnder hash puts k).map infoOf ∧
      s.Serves (storedBytes hash puts k) 0 := by
  have hmem : ∀ call ∈ storedUnder hash puts k, call ∈ puts := fun _ hcall =>
    List.mem_of_mem_filter hcall
  have hlen : ∀ call ∈ storedUnder hash puts k, call.value.length < 2 ^ 31 := by
    intro call hcall
    have hsub : call.value.length ≤ (storedBytes hash puts k).length :=
      (List.sublist_flatten_of_mem (List.mem_map_of_mem hcall)).length_le
    omega
  have hw : wrap32 ((storedBytes hash puts k).length : Int) = (storedBytes hash puts k).length :=
    wrap32_of_fits (by omega) (by omega)
  have hbuf : PmemBuffer.newBySize (storedBytes hash puts k).length fresh =
      .new (storedBytes hash puts k).length fresh := by
    rw [PmemBuffer.newBySize, if_pos (by omega), Int.toNat_natCast]
  have hinit : Loading
      { index := 0, remaining := 0, blockInfo := (storedUnder hash puts k).map infoOf,
        availableBytes := (storedBytes hash puts k).length,
        buf := .new (storedBytes hash puts k).length fresh }
      (storedBytes hash puts k).length [] :=
    ⟨PmemBuffer.wf_new hsmall fresh, rfl, rfl, rfl, rfl, rfl⟩
  obtain ⟨s, hloop, hinfo, hs⟩ := Loading.loop kv.service.mem junk
    (((storedUnder hash puts k).map infoOf).length + 1) (List.nil_append _).symm hstored
    hinit rfl (fun call hcall => h.bytes call (hmem call hcall))
    (fun call hcall => h.data_ne call (hmem call hcall)) hne hsmall
    (by rw [List.length_map]; exact Nat.lt_succ_self _)
  refine ⟨s, ?_, hinfo, hs.wf, hsmall, Nat.zero_le _, hs.content, ?_, ?_, ?_, ?_⟩
  · rw [new, getPartitionBlockInfo_present h hfuel hstored hcount hlen mm, getPartitionSize_eq h k,
      Option.bind_eq_bind, Option.bind_some, Option.bind_eq_bind, Option.bind_some]
    simp only [hw, hbuf]
    exact hloop
  · rw [hs.remaining]
    exact (Int.sub_zero _).symm
  · rw [hs.available]
    exact (Int.sub_zero _).symm
  · rw [hs.index, hinfo, List.length_map]
  · have hcontent := hs.content
    have hrem := hs.wf.length_content
    have hbytes : (storedBytes hash puts k) = s.buf.content := hcontent.symm
    cases hbuf' : s.buf.bufData with
    | none =>
      rw [PmemBuffer.content, hbuf'] at hcontent
      have hzero : storedBytes hash puts k = [] := hcontent.symm
      obtain ⟨call, hcall⟩ := List.exists_mem_of_ne_nil _ hstored
      have hpos := List.length_pos_of_ne_nil (hne call hcall)
      have hsub : call.value.length ≤ (storedBytes hash puts k).length :=
        (List.sublist_flatten_of_mem (List.mem_map_of_mem hcall)).length_le
      rw [hzero] at hsub
      simp only [List.length_nil] at hsub
      omega
    | some m =>
      refine ⟨m, rfl, ?_⟩
      rw [PmemBuffer.content_of_some hbuf', hs.pos] at hcontent
      rw [← hbytes] at hrem
      rw [hrem]
      exact hcontent

/-- The constructor needs the array of the index. -/
theorem new_eq_none {hash : String → UInt64} {fuel : Nat} {kv : Pmemkv} {k : String}
    {mm : Pmemkv.MemoryMeta} (h : nativeGetBlockIndex hash fuel kv k mm = none) (fresh : Mem)
    (junk : Nat → Mem) : new hash fuel kv k mm fresh junk = none := by
  rw [new, getPartitionBlockInfo, h]
  rfl

theorem loadNextStream_available {loaded : Int} {s' : NvmInputStream}
    (h : s.loadNextStream mem junk = some (loaded, s')) : s'.availableBytes = s.availableBytes := by
  rw [loadNextStream] at h
  split at h
  · have hpair := Option.some.inj h
    rw [Prod.mk.injEq] at hpair
    rw [← hpair.2]
  · split at h
    · exact absurd h (by simp)
    · obtain ⟨r, _, hpair⟩ := Option.bind_eq_some_iff.mp h
      have hpair' := Option.some.inj hpair
      rw [Prod.mk.injEq] at hpair'
      rw [← hpair'.2]

/-- Loading does not touch `available_bytes`. -/
theorem loadLoop_available {len : Int} {s' : NvmInputStream} (fuel : Nat)
    (h : loadLoop mem junk len fuel s = some s') : s'.availableBytes = s.availableBytes := by
  induction fuel generalizing s with
  | zero => exact absurd h (by simp [loadLoop])
  | succ fuel ih =>
    rw [loadLoop] at h
    split at h
    · obtain ⟨r, hnext, hrest⟩ := Option.bind_eq_some_iff.mp h
      rw [← loadNextStream_available hnext]
      simp only at hrest
      split at hrest
      · rw [Option.some.inj hrest]
      · exact ih hrest
    · rw [Option.some.inj h]

/-- `available()` of a new stream is the size as an `int`. -/
theorem available_new {hash : String → UInt64} {fuel : Nat} {kv : Pmemkv} {k : String}
    {mm : Pmemkv.MemoryMeta} {fresh : Mem} {stream : NvmInputStream} {size : Nat}
    (hsize : getPartitionSize hash kv k = some size)
    (h : new hash fuel kv k mm fresh junk = some stream) : stream.available = wrap32 size := by
  obtain ⟨blockInfo, _, hrest⟩ := Option.bind_eq_some_iff.mp h
  rw [hsize, Option.bind_eq_bind, Option.bind_some] at hrest
  simp only [load] at hrest
  have havailable := loadLoop_available _ hrest
  exact havailable

/-! ## The reads -/

/-- Taking `n` bytes out of the native buffer. -/
theorem Serves.advance (h : s.Serves value done) {n : Nat} (hn : done + n ≤ value.length) :
    Serves { s with
      buf := s.buf.afterRead n
      remaining := wrap32 (s.remaining - n)
      availableBytes := wrap32 (s.availableBytes - n) } value (done + n) := by
  have hlen := h.wf.length_content
  have hnonneg := h.wf.remaining
  have hsmall := h.small
  have hdone := h.done_le
  have hrem := h.remaining
  have havail := h.available
  rw [h.content, List.length_drop] at hlen
  have hle : (n : Int) ≤ s.buf.remaining := by omega
  refine ⟨h.wf.afterRead hle, hsmall, hn, ?_, ?_, ?_, h.loaded, h.at_front⟩
  · rw [h.wf.content_afterRead hle, h.content, List.drop_drop]
  · show wrap32 (s.remaining - n) = (value.length : Int) - (done + n : Nat)
    rw [wrap32_of_fits (by omega) (by omega)]
    omega
  · show wrap32 (s.availableBytes - n) = (value.length : Int) - (done + n : Nat)
    rw [wrap32_of_fits (by omega) (by omega)]
    omega

/-- A native read of at most what is left. -/
theorem Serves.buf_read (h : s.Serves value done) {n : Nat} (hn : done + n ≤ value.length) :
    s.buf.read n = some ((value.drop done).take n, s.buf.afterRead n) := by
  have hlen := h.wf.length_content
  rw [h.content, List.length_drop] at hlen
  have hread : s.buf.readLen n = n := by
    unfold PmemBuffer.readLen
    omega
  rw [h.wf.read_eq, hread, h.content]

theorem Serves.read_end (h : s.Serves value done) (hend : done = value.length) :
    s.read mem junk = some (-1, s) := by
  have hrem := h.remaining
  rw [read, if_pos (by omega), loadNextStream_end h.loaded]
  rfl

theorem Serves.read_byte (mem : Mem) (junk : Nat → Mem) (h : s.Serves value done)
    (hlt : done < value.length) :
    ∃ s', s.read mem junk = some (((value[done].toNat : Nat) : Int), s') ∧
      s'.Serves value (done + 1) := by
  have hrem := h.remaining
  refine ⟨_, ?_, h.advance (n := 1) (by omega)⟩
  have hget := h.buf_read (n := 1) (by omega)
  rw [List.drop_eq_getElem_cons hlt] at hget
  rw [read, if_neg (by omega), takeByte]
  show (s.buf.read ((1 : Nat) : Int)).bind _ = _
  rw [hget]
  rfl

theorem Serves.readInto_end (h : s.Serves value done) (hend : done = value.length)
    (array : List UInt8) (off len : Nat) : s.readInto array off len = some (-1, array, s) := by
  have hrem := h.remaining
  rw [readInto, if_pos (by omega)]

theorem Serves.readInto_some (h : s.Serves value done) (hlt : done < value.length)
    {array : List UInt8} {off len : Nat} (harray : off + len ≤ array.length) :
    ∃ s' n, n = min len (value.length - done) ∧
      s.readInto array off len = some ((n : Int),
        array.take off ++ (value.drop done).take n ++ array.drop (off + n), s') ∧
      s'.Serves value (done + n) := by
  have hrem := h.remaining
  have hmin : min (len : Int) s.remaining = (min len (value.length - done) : Nat) := by omega
  refine ⟨_, _, rfl, ?_, h.advance (by omega)⟩
  have hlen : ((value.drop done).take (min len (value.length - done))).length =
      min len (value.length - done) := by
    rw [List.length_take, List.length_drop]
    omega
  rw [readInto, if_neg (by omega)]
  simp only [hmin]
  rw [h.buf_read (by omega), Option.bind_eq_bind, Option.bind_some]
  show (copyToArray array off _).bind _ = _
  rw [copyToArray, hlen, if_pos (by omega)]
  rfl

end

end NvmInputStream

/-! ## Any mix of reads -/

/-- One call of a `read`. -/
inductive InputOp where
  | read
  | readInto (array : List UInt8) (off len : Nat)

/-- At least one byte is asked for, and the range lies in the array. -/
def InputOp.Ok : InputOp → Prop
  | .read => True
  | .readInto array off len => 1 ≤ len ∧ off + len ≤ array.length

/-- The stream and the bytes that the reads have delivered. -/
structure InputState where
  stream : NvmInputStream
  delivered : List UInt8

/-- One call: the byte returned, or the part of the array that was filled. -/
def InputState.step (mem : Mem) (junk : Nat → Mem) (st : InputState) : InputOp → Option InputState
  | .read => do
    let (r, s) ← st.stream.read mem junk
    return { stream := s
             delivered := if r = -1 then st.delivered
               else st.delivered ++ [UInt8.ofNat r.toNat] }
  | .readInto array off len => do
    let (r, array, s) ← st.stream.readInto array off len
    return { stream := s, delivered := st.delivered ++ (array.drop off).take r.toNat }

/-- What the stream has delivered of `value`, and what its methods return next. -/
structure Delivers (mem : Mem) (junk : Nat → Mem) (value : List UInt8) (st : InputState) :
    Prop where
  in_order : st.delivered <+: value
  available : st.stream.available = (value.length : Int) - st.delivered.length
  read : ∃ r s', st.stream.read mem junk = some (r, s') ∧ (r = -1 ↔ st.delivered = value) ∧
    ∀ b, value[st.delivered.length]? = some b → r = b.toNat
  readInto : ∀ array off len, 1 ≤ len → off + len ≤ array.length →
    ∃ r array' s', st.stream.readInto array off len = some (r, array', s') ∧
      (r = -1 ↔ st.delivered = value) ∧
      (st.delivered ≠ value → r = min (len : Int) (value.length - st.delivered.length)) ∧
      array' = array.take off ++ (value.drop st.delivered.length).take r.toNat ++
        array.drop (off + r.toNat)

section

variable {mem : Mem} {junk : Nat → Mem} {value : List UInt8} {st : InputState}

/-- The delivered bytes are all of them, or the next one exists. -/
theorem delivered_cases (hpre : st.delivered <+: value) :
    st.delivered = value ∧ st.delivered.length = value.length ∨
      st.delivered ≠ value ∧ st.delivered.length < value.length := by
  have hle := hpre.length_le
  by_cases heq : st.delivered = value
  · exact .inl ⟨heq, by rw [heq]⟩
  · refine .inr ⟨heq, ?_⟩
    have hne : st.delivered.length ≠ value.length := fun hlen => heq (hpre.eq_of_length hlen)
    omega

theorem delivers_of_serves (h : st.stream.Serves value st.delivered.length)
    (hpre : st.delivered <+: value) : Delivers mem junk value st := by
  refine ⟨hpre, h.available, ?_, ?_⟩
  · rcases delivered_cases hpre with ⟨heq, hlen⟩ | ⟨hne, hlt⟩
    · refine ⟨_, _, h.read_end hlen, iff_of_true rfl heq, ?_⟩
      intro b hb
      rw [hlen, List.getElem?_eq_none (Nat.le_refl _)] at hb
      simp at hb
    · obtain ⟨s', hread, _⟩ := h.read_byte mem junk hlt
      refine ⟨_, s', hread, iff_of_false (by omega) hne, ?_⟩
      intro b hb
      rw [List.getElem?_eq_getElem hlt, Option.some.injEq] at hb
      rw [hb]
  · intro array off len hlen harray
    rcases delivered_cases hpre with ⟨heq, hall⟩ | ⟨hne, hlt⟩
    · refine ⟨_, _, _, h.readInto_end hall array off len, iff_of_true rfl heq,
        fun hne => absurd heq hne, ?_⟩
      show array = array.take off ++ [] ++ array.drop (off + 0)
      rw [List.append_nil, Nat.add_zero, List.take_append_drop]
    · obtain ⟨s', n, hn, hread, _⟩ := h.readInto_some hlt harray
      refine ⟨_, _, s', hread, iff_of_false (by omega) hne, fun _ => by omega, ?_⟩
      rw [Int.toNat_natCast]

/-- One read keeps what was delivered in order. -/
theorem InputState.step_serves (h : st.stream.Serves value st.delivered.length)
    (hpre : st.delivered <+: value) {op : InputOp} (hok : op.Ok) :
    ∃ st', st.step mem junk op = some st' ∧ st'.stream.Serves value st'.delivered.length ∧
      st'.delivered <+: value := by
  have htake : st.delivered = value.take st.delivered.length := List.prefix_iff_eq_take.mp hpre
  have hmore : ∀ n, st.delivered ++ (value.drop st.delivered.length).take n <+: value := by
    intro n
    have hsplit : st.delivered ++ (value.drop st.delivered.length).take n =
        value.take (st.delivered.length + n) := by
      rw [List.take_add, ← htake]
    rw [hsplit]
    exact List.take_prefix _ _
  cases op with
  | read =>
    rcases delivered_cases hpre with ⟨heq, hlen⟩ | ⟨hne, hlt⟩
    · refine ⟨st, ?_, h, hpre⟩
      rw [InputState.step, h.read_end hlen]
      rfl
    · obtain ⟨s', hread, h'⟩ := h.read_byte mem junk hlt
      have hstep : st.step mem junk .read =
          some { stream := s', delivered := st.delivered ++ [value[st.delivered.length]] } := by
        rw [InputState.step, hread, Option.bind_eq_bind, Option.bind_some]
        show some _ = some _
        rw [if_neg (by omega), Int.toNat_natCast, UInt8.ofNat_toNat]
      refine ⟨_, hstep, ?_, ?_⟩
      · rw [List.length_append]
        exact h'
      · have hone := hmore 1
        rw [List.drop_eq_getElem_cons hlt] at hone
        exact hone
  | readInto array off len =>
    obtain ⟨hlen, harray⟩ := hok
    rcases delivered_cases hpre with ⟨heq, hall⟩ | ⟨hne, hlt⟩
    · refine ⟨st, ?_, h, hpre⟩
      rw [InputState.step, h.readInto_end hall]
      show some { st with delivered := st.delivered ++ [] } = some st
      rw [List.append_nil]
    · obtain ⟨s', n, hn, hread, h'⟩ := h.readInto_some hlt harray
      have hslice : ((array.take off ++ (value.drop st.delivered.length).take n ++
          array.drop (off + n)).drop off).take n = (value.drop st.delivered.length).take n := by
        have hoff : (array.take off).length = off := by
          rw [List.length_take]
          omega
        rw [List.append_assoc, List.drop_left' hoff, List.take_left']
        rw [List.length_take, List.length_drop]
        omega
      have hstep : st.step mem junk (.readInto array off len) =
          some { stream := s'
                 delivered := st.delivered ++ (value.drop st.delivered.length).take n } := by
        rw [InputState.step, hread, Option.bind_eq_bind, Option.bind_some]
        show some _ = some _
        rw [Int.toNat_natCast, hslice]
      refine ⟨_, hstep, ?_, hmore n⟩
      rw [List.length_append, List.length_take, List.length_drop, Nat.min_eq_left (by omega)]
      exact h'

/-- Every mix of reads from a stream that serves `value` delivers it. -/
theorem reads_deliver {stream : NvmInputStream} (h : stream.Serves value 0) {reads : List InputOp}
    (hreads : ∀ op ∈ reads, op.Ok) :
    ∃ st, run (InputState.step mem junk) { stream := stream, delivered := [] } reads = some st ∧
      Delivers mem junk value st := by
  have hadm : Admissible (InputState.step mem junk) (fun _ op => op.Ok)
      { stream := stream, delivered := [] } reads := admissible_of_forall hreads
  obtain ⟨st, hst, hserves, hpre⟩ := run_invariant
    (I := fun _ (st : InputState) => st.stream.Serves value st.delivered.length ∧
      st.delivered <+: value)
    (fun _ op _ st _ hI hop => InputState.step_serves hI.1 hI.2 hop) ⟨h, List.nil_prefix⟩ hadm
  exact ⟨st, hst, delivers_of_serves hserves hpre⟩

end

/-! ## Whole blocks -/

/-- A new stream starts with `available()` equal to the size of `value` and delivers all of it
before `-1`, whatever memory `malloc` returned and however it is read. -/
def OpensWith (hash : String → UInt64) (fuel : Nat) (kv : Pmemkv) (blockId : String)
    (value : List UInt8) : Prop :=
  ∀ (mm : Pmemkv.MemoryMeta) (fresh : Mem) (junk : Nat → Mem),
    ∃ stream, NvmInputStream.new hash fuel kv blockId mm fresh junk = some stream ∧
      stream.available = value.length ∧
      ∀ reads : List InputOp, (∀ op ∈ reads, op.Ok) →
        ∃ st, run (InputState.step kv.service.mem junk) ⟨stream, []⟩ reads = some st ∧
          Delivers kv.service.mem junk value st

/-- A new stream has loaded all blocks, it delivers them in order however it is read, and `get`
copies the same bytes. -/
structure DeliversBlocks (hash : String → UInt64) (fuel : Nat) (kv : Pmemkv) (k : String)
    (blocks : List (List UInt8)) : Prop where
  stream : ∀ (mm : Pmemkv.MemoryMeta) (fresh : Mem) (junk : Nat → Mem),
    ∃ stream, NvmInputStream.new hash fuel kv k mm fresh junk = some stream ∧
      stream.blockInfo.length = blocks.length ∧ stream.index = stream.blockInfo.length ∧
      stream.buf.content = blocks.flatten ∧
      ∀ reads : List InputOp, (∀ op ∈ reads, op.Ok) →
        ∃ st, run (InputState.step kv.service.mem junk) ⟨stream, []⟩ reads = some st ∧
          Delivers kv.service.mem junk blocks.flatten st
  get : kv.getValueSize hash k = some (0, blocks.flatten.length) ∧
    ∀ mb : Pmemkv.MemoryBlock, mb.size = blocks.flatten.length →
      ∃ mb', kv.get hash fuel k mb = some (0, mb') ∧ loadBytes mb'.data 0 mb.size = blocks.flatten

section

variable {hash : String → UInt64} {fuel : Nat} {kv : Pmemkv} {puts : List PutCall} {k : String}

theorem length_le_storedBytes {calls : List PutCall} (h : ∀ call ∈ calls, call.value ≠ []) :
    calls.length ≤ (calls.map PutCall.value).flatten.length := by
  induction calls with
  | nil => exact Nat.le_refl _
  | cons call calls ih =>
    have hpos := List.length_pos_iff.mpr (h call List.mem_cons_self)
    have hrest := ih fun c hc => h c (List.mem_cons_of_mem _ hc)
    rw [List.map_cons, List.flatten_cons, List.length_append, List.length_cons]
    omega

/-- From `2 ^ 30` blocks on there is no reader. -/
theorem new_of_many (h : IndexHolds hash kv puts) (hfuel : puts.length ≤ fuel)
    (hvalues : ∀ call ∈ storedUnder hash puts k, call.value ≠ [])
    (hmany : 2 ^ 30 ≤ (storedUnder hash puts k).length)
    (hsmall : (storedBytes hash puts k).length < 2 ^ 31) (mm : Pmemkv.MemoryMeta) (fresh : Mem)
    (junk : Nat → Mem) : NvmInputStream.new hash fuel kv k mm fresh junk = none := by
  have hle : (storedUnder hash puts k).length ≤ (storedBytes hash puts k).length :=
    length_le_storedBytes hvalues
  exact NvmInputStream.new_eq_none (nativeGetBlockIndex_many h hfuel hmany (by omega) mm) fresh junk

/-- A reader gets the whole block exactly if there is one, in fewer than `2 ^ 30` pieces and
shorter than `2 ^ 31`. -/
theorem opens_iff (h : IndexHolds hash kv puts) (hfuel : puts.length ≤ fuel)
    (hvalues : ∀ call ∈ storedUnder hash puts k, call.value ≠ []) :
    OpensWith hash fuel kv k (storedBytes hash puts k) ↔
      storedUnder hash puts k ≠ [] ∧ (storedUnder hash puts k).length < 2 ^ 30 ∧
        (storedBytes hash puts k).length < 2 ^ 31 := by
  constructor
  · intro hopens
    have hne : storedUnder hash puts k ≠ [] := by
      intro hnone
      -- a struct that was not cleared
      obtain ⟨stream, hnew, _⟩ := hopens ⟨fun _ => 0, 1⟩ (fun _ => 0) (fun _ _ => 0)
      have hindex := nativeGetBlockIndex_absent h hfuel hnone ⟨fun _ => 0, 1⟩
      rw [newLongArray_of_lt _ (by decide), if_neg (by decide)] at hindex
      rw [NvmInputStream.new_eq_none hindex] at hnew
      exact absurd hnew (by simp)
    obtain ⟨stream, hnew, havailable, _⟩ := hopens ⟨fun _ => 0, 0⟩ (fun _ => 0) (fun _ _ => 0)
    have hsmall : (storedBytes hash puts k).length < 2 ^ 31 := by
      rw [NvmInputStream.available_new (getPartitionSize_eq h k) hnew] at havailable
      have hlt := wrap32_le ((storedBytes hash puts k).length : Int)
      omega
    refine ⟨hne, ?_, hsmall⟩
    by_contra hmany
    rw [new_of_many h hfuel hvalues (by omega) hsmall] at hnew
    exact absurd hnew (by simp)
  · rintro ⟨hne, hcount, hsmall⟩ mm fresh junk
    obtain ⟨stream, hnew, _, hserves⟩ :=
      NvmInputStream.new_serves fuel h hfuel hne hcount hvalues hsmall mm fresh junk
    refine ⟨stream, hnew, ?_, fun reads hreads => reads_deliver hserves hreads⟩
    rw [NvmInputStream.available, hserves.available]
    exact Int.sub_zero _

/-- The whole block is delivered exactly if it has fewer than `2 ^ 30` pieces. -/
theorem deliversBlocks_iff (h : IndexHolds hash kv puts) (hfuel : puts.length ≤ fuel)
    (hstored : storedUnder hash puts k ≠ [])
    (hvalues : ∀ call ∈ storedUnder hash puts k, call.value ≠ [])
    (hsmall : (storedBytes hash puts k).length < 2 ^ 31) :
    DeliversBlocks hash fuel kv k ((storedUnder hash puts k).map PutCall.value) ↔
      (storedUnder hash puts k).length < 2 ^ 30 := by
  constructor
  · intro hdelivers
    by_contra hmany
    obtain ⟨stream, hnew, _⟩ := hdelivers.stream ⟨fun _ => 0, 0⟩ (fun _ => 0) (fun _ _ => 0)
    rw [new_of_many h hfuel hvalues (by omega) hsmall] at hnew
    exact absurd hnew (by simp)
  · intro hcount
    refine ⟨fun mm fresh junk => ?_, ?_, fun mb hmb => ?_⟩
    · obtain ⟨stream, hnew, hinfo, hserves⟩ :=
        NvmInputStream.new_serves fuel h hfuel hstored hcount hvalues hsmall mm fresh junk
      refine ⟨stream, hnew, ?_, hserves.loaded, ?_, fun reads hreads =>
        reads_deliver hserves hreads⟩
      · rw [hinfo, List.length_map, List.length_map]
      · rw [hserves.content, List.drop_zero, storedBytes]
    · rw [getValueSize_eq h k, if_neg hstored, storedBytes]
    · refine ⟨_, get_all h hfuel hstored mb hmb, ?_⟩
      rw [hmb]
      exact loadBytes_storeBytes_self _ _ _

end

/-- After every run of puts and `free_all`s, for every key with blocks, none of them empty and
fewer than `2 ^ 31` bytes together: the constructor loads all of them, `get` copies the same bytes,
and every mix of reads delivers them in order, exactly if there are fewer than `2 ^ 30` blocks. -/
theorem input_stream_delivers_iff (hash : String → UInt64) (fuel : Nat) (s : Service) (root : Nat)
    (ops : List Op) (k : String) (hroot : s.Grants sizeofBase root) (hfuel : ops.length ≤ fuel)
    (hok : Admissible (Pmemkv.step hash fuel) (Pmemkv.Ok hash) (Pmemkv.create s root) ops)
    (hstored : storedUnder hash (live ops) k ≠ [])
    (hne : ∀ call ∈ storedUnder hash (live ops) k, call.value ≠ [])
    (hsmall : (storedBytes hash (live ops) k).length < 2 ^ 31) :
    ∃ kv, run (Pmemkv.step hash fuel) (Pmemkv.create s root) ops = some kv ∧
      (DeliversBlocks hash fuel kv k ((storedUnder hash (live ops) k).map PutCall.value) ↔
        (storedUnder hash (live ops) k).length < 2 ^ 30) := by
  obtain ⟨kv, hrun, hholds⟩ := run_holds hroot hfuel hok
  have hlen : (live ops).length ≤ fuel := Nat.le_trans (length_live_le ops) hfuel
  exact ⟨kv, hrun, deliversBlocks_iff hholds.indexHolds hlen hstored hne hsmall⟩

theorem input_stream_delivers_sample :
    ∃ kv, run (Pmemkv.step sampleHash 5) (Pmemkv.create sampleService 4096) sampleOps = some kv ∧
      DeliversBlocks sampleHash 5 kv "a"
        ((storedUnder sampleHash (live sampleOps) "a").map PutCall.value) := by
  obtain ⟨kv, hrun, hiff⟩ := input_stream_delivers_iff sampleHash 5 sampleService 4096 sampleOps "a"
    (by decide) (by decide) sampleOps_admissible (by decide) (by decide) (by decide)
  exact ⟨kv, hrun, hiff.mpr (by decide)⟩

/-- Blocks of one zero byte. -/
def zeroBlocks (n : Nat) : List PutCall := bumpCalls 8192 16 (List.replicate n ("a", [0]))

theorem map_value_zeroBlocks (n : Nat) :
    (zeroBlocks n).map (fun call => (call.key, call.value)) = List.replicate n ("a", [0]) :=
  map_value_bumpCalls _ _ _

theorem zeroBlocks_admissible {n : Nat} (hn : n < 2 ^ 40) (hash : String → UInt64) (fuel : Nat) :
    Admissible (Pmemkv.step hash fuel) (Pmemkv.Ok hash) (Pmemkv.create sampleService 4096)
      ((zeroBlocks n).map Op.put) := by
  refine (unused_create (by decide) (by decide) (by decide) (by simp [sampleService])).admissible ?_
  rw [List.map_replicate, List.sum_replicate]
  show 8192 + n * 33 < 2 ^ 64
  omega

theorem length_zeroBlocks (n : Nat) : (zeroBlocks n).length = n := by
  have hlen := congrArg List.length (map_value_zeroBlocks n)
  rwa [List.length_map, List.length_replicate] at hlen

theorem mem_zeroBlocks {n : Nat} {call : PutCall} (hcall : call ∈ zeroBlocks n) :
    call.key = "a" ∧ call.value = [0] := by
  have hmem : (call.key, call.value) ∈ List.replicate n ("a", [(0 : UInt8)]) := by
    rw [← map_value_zeroBlocks n]
    exact List.mem_map_of_mem hcall
  exact Prod.mk.inj (List.mem_replicate.mp hmem).2

theorem storedUnder_zeroBlocks (n : Nat) :
    storedUnder sampleHash (live ((zeroBlocks n).map Op.put)) "a" = zeroBlocks n := by
  rw [live_map_put]
  exact storedUnder_eq_self fun call hcall => (mem_zeroBlocks hcall).1

theorem length_storedBytes_zeroBlocks (n : Nat) :
    (storedBytes sampleHash (live ((zeroBlocks n).map Op.put)) "a").length = n := by
  have hvalues := congrArg (List.map Prod.snd) (map_value_zeroBlocks n)
  rw [List.map_map, List.map_replicate] at hvalues
  have hvalues : (zeroBlocks n).map PutCall.value = List.replicate n [0] := hvalues
  rw [storedBytes, storedUnder_zeroBlocks, hvalues, List.length_flatten, List.map_replicate,
    List.sum_replicate]
  exact Nat.mul_one n

/-- `2 ^ 30` blocks of one byte: the store takes them, but there is no array for the index. -/
theorem too_many_blocks :
    (zeroBlocks 1073741824).length = 1073741824 ∧
    Admissible (Pmemkv.step sampleHash 1073741824) (Pmemkv.Ok sampleHash)
      (Pmemkv.create sampleService 4096) ((zeroBlocks 1073741824).map Op.put) ∧
    storedUnder sampleHash (live ((zeroBlocks 1073741824).map Op.put)) "a" =
      zeroBlocks 1073741824 ∧
    (∀ call ∈ zeroBlocks 1073741824, call.value = [0]) ∧
    (storedBytes sampleHash (live ((zeroBlocks 1073741824).map Op.put)) "a").length < 2 ^ 31 ∧
    ∃ kv, run (Pmemkv.step sampleHash 1073741824) (Pmemkv.create sampleService 4096)
        ((zeroBlocks 1073741824).map Op.put) = some kv ∧
      (∀ mm fresh junk,
        NvmInputStream.new sampleHash 1073741824 kv "a" mm fresh junk = none) ∧
      ¬DeliversBlocks sampleHash 1073741824 kv "a" ((zeroBlocks 1073741824).map PutCall.value) := by
  generalize hn : (1073741824 : Nat) = n
  have hlength := length_zeroBlocks n
  have hstored := storedUnder_zeroBlocks n
  have hbytes : (storedBytes sampleHash (live ((zeroBlocks n).map Op.put)) "a").length <
      2 ^ 31 := by
    rw [length_storedBytes_zeroBlocks]
    omega
  have hok := zeroBlocks_admissible (n := n) (by omega) sampleHash n
  obtain ⟨kv, hrun, hholds⟩ := run_holds (by decide) (by rw [List.length_map, hlength]) hok
  have hnone : ∀ mm fresh junk, NvmInputStream.new sampleHash n kv "a" mm fresh junk = none := by
    refine new_of_many hholds.indexHolds ?_ ?_ ?_ hbytes
    · rw [live_map_put, hlength]
    · rw [hstored]
      intro call hcall
      rw [(mem_zeroBlocks hcall).2]
      exact List.cons_ne_nil _ _
    · rw [hstored, hlength, ← hn]
      decide
  refine ⟨hlength, hok, hstored, fun call hcall => (mem_zeroBlocks hcall).2, hbytes, kv, hrun,
    hnone, fun hdelivers => ?_⟩
  obtain ⟨stream, hnew, _⟩ := hdelivers.stream ⟨fun _ => 0, 0⟩ (fun _ => 0) (fun _ _ => 0)
  rw [hnone] at hnew
  exact absurd hnew (by simp)

end SparkNvm.Storage
