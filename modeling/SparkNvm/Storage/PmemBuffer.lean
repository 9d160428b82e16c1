import SparkNvm.Lib.ByteMem
import SparkNvm.Lib.Int32
import SparkNvm.Lib.Run

/-!
# `PmemBuffer`

The native buffer between persistent memory and the JVM.  Its cursors are C++
`int`s that wrap, and its memory is one allocation that `write` and `load`
replace when it is too small.

* The four fields and the operations, as in the source.  A copy that leaves the
  allocation is undefined behaviour and is `none` here; what fresh memory holds
  is an argument of the operations that allocate.
* `Wf` is what every defined run keeps.  `Wf.write_spec`, `Wf.load_spec` and
  `Wf.read_spec` say what the operations do in a well-formed buffer, `Wf.write_none`
  and `Wf.load_none` when they are undefined.
-/

namespace SparkNvm.Storage

open Lib

/-- `#define DEFAULT_BUFSIZE 4096*1024+512`. -/
def defaultBufsize : Nat := 4096 * 1024 + 512

/-- `PmemBuffer`.  `bufData` is the memory that `buf_data` points to and `size`
is how much of it was allocated; `none` is the null pointer. -/
structure PmemBuffer where
  bufData : Option Mem
  size : Nat
  bufDataCapacity : Int
  pos : Int
  remaining : Int
  posDirty : Int
  remainingDirty : Int

/-- `memcpy` of `bytes` to the offset `off` of an allocation of `size` bytes. -/
def copyIn (m : Mem) (size : Nat) (off : Int) (bytes : List UInt8) : Option Mem :=
  if 0 ≤ off ∧ off + bytes.length ≤ size then some (storeBytes m off.toNat bytes) else none

/-- `memcpy` of `len` bytes from the offset `off`; a negative `len` is a huge
`size_t`. -/
def copyOut (m : Mem) (size : Nat) (off len : Int) : Option (List UInt8) :=
  if 0 ≤ off ∧ 0 ≤ len ∧ off + len ≤ size then some (loadBytes m off.toNat len.toNat) else none

namespace PmemBuffer

/-- `PmemBuffer()`. -/
def empty : PmemBuffer where
  bufData := none
  size := 0
  bufDataCapacity := 0
  pos := 0
  remaining := 0
  posDirty := 0
  remainingDirty := 0

/-- `PmemBuffer(initial_buf_data_capacity)`. -/
def new (capacity : Nat) (junk : Mem) : PmemBuffer where
  bufData := some junk
  size := capacity
  bufDataCapacity := capacity
  pos := 0
  remaining := 0
  posDirty := 0
  remainingDirty := 0

/-- `buf_data = malloc(buf_data_capacity)`. -/
def malloc (b : PmemBuffer) (capacity : Int) (junk : Mem) : PmemBuffer :=
  { b with bufData := some junk, size := capacity.toNat, bufDataCapacity := capacity }

/-- Replace the allocation and copy the unread bytes to the front of the new one. -/
def realloc (b : PmemBuffer) (capacity : Int) (junk : Mem) : Option PmemBuffer := do
  let fresh := b.malloc capacity junk
  match b.bufData with
  | none => return fresh
  | some m =>
    let unread ← copyOut m b.size b.pos b.remaining
    let m' ← copyIn junk fresh.size 0 unread
    return { fresh with bufData := some m' }

/-- `memcpy` to `buf_data + off`; the null pointer is no place to copy to. -/
def store (b : PmemBuffer) (off : Int) (bytes : List UInt8) : Option PmemBuffer := do
  let m ← b.bufData
  let m' ← copyIn m b.size off bytes
  return { b with bufData := some m' }

/-- `if (buf_data != nullptr) memcpy(buf_data + off, ..)`. -/
def storeIfAny (b : PmemBuffer) (off : Int) (bytes : List UInt8) : Option PmemBuffer :=
  if b.bufData.isSome then b.store off bytes else some b

/-- `if (buf_data != nullptr) memcpy(.., buf_data + off, len)`. -/
def fetchIfAny (b : PmemBuffer) (off len : Int) : Option (List UInt8) :=
  match b.bufData with
  | none => some []
  | some m => copyOut m b.size off len

/-- The branch `remaining > 0` of `load`. -/
def loadBehind (b : PmemBuffer) (bytes : List UInt8) (junk : Mem) : Option PmemBuffer := do
  let b ←
    if b.bufDataCapacity < wrap32 (b.remaining + bytes.length) then
      b.realloc (wrap32 (b.remaining + bytes.length)) junk
    else some b
  b.store b.remaining bytes

/-- The branch `remaining == 0` of `load`. -/
def loadFirst (b : PmemBuffer) (bytes : List UInt8) (junk : Mem) : Option PmemBuffer :=
  let b := if b.bufDataCapacity < bytes.length then b.malloc bytes.length junk else b
  b.storeIfAny 0 bytes

/-- The end of `load`: the read cursor and the dirty cursor are set anew. -/
def afterLoad (b : PmemBuffer) (len : Int) : PmemBuffer :=
  { b with
    remaining := wrap32 (b.remaining + len)
    pos := 0
    posDirty := wrap32 (0 + wrap32 (b.remaining + len))
    remainingDirty := 0 }

/-- The first block of `load`: allocate when there is no capacity yet. -/
def loadStart (b : PmemBuffer) (len : Nat) (junk : Mem) : PmemBuffer :=
  if b.bufDataCapacity = 0 then b.malloc len junk else b

/-- The three branches of `load` on `remaining`. -/
def loadInto (b : PmemBuffer) (bytes : List UInt8) (junk : Mem) : Option PmemBuffer :=
  if 0 < b.remaining then b.loadBehind bytes junk
  else if b.remaining = 0 then b.loadFirst bytes junk
  else some b

/-- `load(pmem_data_addr, pmem_data_len)`, where `bytes` are at the address. -/
def load (b : PmemBuffer) (addr : Nat) (bytes : List UInt8) (junk : Mem) :
    Option (Int × PmemBuffer) :=
  if addr = 0 ∨ bytes.length = 0 then some (0, b)
  else do
    let b ← (b.loadStart bytes.length junk).loadInto bytes junk
    return (bytes.length, b.afterLoad bytes.length)

/-- `getRemaining()`. -/
def getRemaining (b : PmemBuffer) : Int := b.remaining

/-- `clean()`. -/
def clean (_ : PmemBuffer) : PmemBuffer := empty

/-- `getDataForFlush(size)`: the offset of the returned pointer, or null. -/
def getDataForFlush (b : PmemBuffer) (size : Int) : Option Int × PmemBuffer :=
  if b.remainingDirty < size ∨ b.remainingDirty = 0 then (none, b)
  else
    (some b.posDirty, { b with
      posDirty := wrap32 (b.posDirty + size)
      remainingDirty := wrap32 (b.remainingDirty - size) })

/-- `read(ret_data, len)`: the bytes that it copies out. -/
def read (b : PmemBuffer) (len : Int) : Option (List UInt8 × PmemBuffer) := do
  let readLen := if b.remaining < len then b.remaining else len
  let bytes ← b.fetchIfAny b.pos readLen
  let b :=
    if b.posDirty < wrap32 (b.pos + readLen) then
      { b with
        remainingDirty := wrap32 (b.remainingDirty - wrap32 (wrap32 (b.pos + readLen) - b.posDirty))
        posDirty := wrap32 (b.pos + readLen) }
    else b
  return (bytes, { b with
    pos := wrap32 (b.pos + readLen)
    remaining := wrap32 (b.remaining - readLen) })

/-- The first block of `write`: allocate when there is no capacity yet. -/
def ensureAllocated (b : PmemBuffer) (junk : Mem) : PmemBuffer :=
  if b.bufDataCapacity = 0 then b.malloc defaultBufsize junk else b

/-- The second block of `write`: when the bytes do not fit behind the content, move
the content to the front of a new allocation, which is larger by one step when
they would not fit there either. -/
def makeRoom (b : PmemBuffer) (len : Int) (junk : Mem) : Option PmemBuffer :=
  if b.bufDataCapacity < wrap32 (wrap32 (b.pos + b.remaining) + len) then
    let capacity :=
      if b.bufDataCapacity < wrap32 (b.remaining + len) then
        wrap32 (b.bufDataCapacity + defaultBufsize)
      else b.bufDataCapacity
    if 0 < capacity then do
      let b ← b.realloc capacity junk
      return { b with pos := 0, posDirty := 0 }
    else some { b with bufDataCapacity := capacity }
  else some b

/-- The rest of `write`. -/
def append (b : PmemBuffer) (data : List UInt8) : Option PmemBuffer := do
  let b ← b.storeIfAny (b.pos + b.remaining) data
  return { b with
    remaining := wrap32 (b.remaining + data.length)
    remainingDirty := wrap32 (b.remainingDirty + data.length) }

/-- `write(data, len)`. -/
def write (b : PmemBuffer) (data : List UInt8) (junk : Mem) : Option PmemBuffer := do
  let b ← (b.ensureAllocated junk).makeRoom data.length junk
  b.append data

/-- `getDataAddr()`: what `buf_data` points to. -/
def getDataAddr (b : PmemBuffer) : Option Mem := b.bufData

/-! ## Well-formed buffers -/

/-- The unread bytes. -/
def content (b : PmemBuffer) : List UInt8 :=
  match b.bufData with
  | none => []
  | some m => loadBytes m b.pos.toNat b.remaining.toNat

/-- The cursors lie in the allocation, and the capacity is its size. -/
structure Wf (b : PmemBuffer) : Prop where
  pos : 0 ≤ b.pos
  remaining : 0 ≤ b.remaining
  capacity : b.bufDataCapacity = b.size
  small : b.bufDataCapacity < 2 ^ 31
  inside : b.pos + b.remaining ≤ b.bufDataCapacity
  allocated : b.bufDataCapacity ≠ 0 → b.bufData.isSome

theorem wf_empty : empty.Wf := by
  constructor <;> simp [empty]

theorem wf_new {capacity : Nat} (h : capacity < 2 ^ 31) (junk : Mem) : (new capacity junk).Wf := by
  constructor
  · exact Int.le_refl 0
  · exact Int.le_refl 0
  · rfl
  · show (capacity : Int) < 2 ^ 31
    omega
  · show (0 : Int) + 0 ≤ capacity
    omega
  · exact fun _ => rfl

section

variable {b : PmemBuffer} {m : Mem}

theorem content_of_some (h : b.bufData = some m) :
    b.content = loadBytes m b.pos.toNat b.remaining.toNat := by
  rw [content, h]

theorem Wf.length_content (h : b.Wf) : b.content.length = b.remaining.toNat := by
  unfold content
  cases hdata : b.bufData with
  | some m => exact loadBytes_length _ _ _
  | none =>
    have hcap : b.bufDataCapacity = 0 := by
      by_contra h0
      have hsome := h.allocated h0
      rw [hdata] at hsome
      exact absurd hsome (by decide)
    have hpos := h.pos
    have hrem := h.remaining
    have hin := h.inside
    show 0 = b.remaining.toNat
    omega

theorem copyIn_eq {size : Nat} {off : Int} {bytes : List UInt8} (h0 : 0 ≤ off)
    (h : off + bytes.length ≤ size) :
    copyIn m size off bytes = some (storeBytes m off.toNat bytes) :=
  if_pos ⟨h0, h⟩

theorem copyIn_none {size : Nat} {off : Int} {bytes : List UInt8} (h : size < off + bytes.length) :
    copyIn m size off bytes = none :=
  if_neg fun hin => by omega

theorem copyOut_eq {size : Nat} {off len : Int} (h0 : 0 ≤ off) (hlen : 0 ≤ len)
    (h : off + len ≤ size) : copyOut m size off len = some (loadBytes m off.toNat len.toNat) :=
  if_pos ⟨h0, hlen, h⟩

theorem store_eq (hdata : b.bufData = some m) {off : Int} {bytes : List UInt8} (h0 : 0 ≤ off)
    (h : off + bytes.length ≤ b.size) :
    b.store off bytes = some { b with bufData := some (storeBytes m off.toNat bytes) } := by
  rw [store, hdata, Option.bind_eq_bind, Option.bind_some, copyIn_eq h0 h]
  rfl

theorem storeIfAny_eq (hdata : b.bufData = some m) {off : Int} {bytes : List UInt8} (h0 : 0 ≤ off)
    (h : off + bytes.length ≤ b.size) :
    b.storeIfAny off bytes = some { b with bufData := some (storeBytes m off.toNat bytes) } := by
  rw [storeIfAny, if_pos (by rw [hdata]; rfl), store_eq hdata h0 h]

theorem store_none (hdata : b.bufData = some m) {off : Int} {bytes : List UInt8}
    (h : b.size < off + bytes.length) : b.store off bytes = none := by
  rw [store, hdata, Option.bind_eq_bind, Option.bind_some, copyIn_none h]
  rfl

theorem storeIfAny_none (hdata : b.bufData = some m) {off : Int} {bytes : List UInt8}
    (h : b.size < off + bytes.length) : b.storeIfAny off bytes = none := by
  rw [storeIfAny, if_pos (by rw [hdata]; rfl), store_none hdata h]

/-- A new allocation that is large enough gets the unread bytes at its front. -/
theorem Wf.realloc_eq (h : b.Wf) (hdata : b.bufData = some m) {capacity : Int}
    (hcap : b.remaining ≤ capacity) (junk : Mem) :
    b.realloc capacity junk = some
      { b with
        bufData := some (storeBytes junk 0 b.content)
        size := capacity.toNat
        bufDataCapacity := capacity } := by
  have hin := h.inside
  have hsize := h.capacity
  have hrem := h.remaining
  have hlen := h.length_content
  rw [content_of_some hdata] at hlen ⊢
  simp only [realloc, hdata]
  rw [copyOut_eq h.pos hrem (by omega), Option.bind_eq_bind, Option.bind_some,
    copyIn_eq (Int.le_refl 0)]
  · rfl
  · show (0 : Int) + _ ≤ (capacity.toNat : Int)
    omega

/-- An unallocated buffer is empty. -/
theorem Wf.of_capacity_zero (h : b.Wf) (h0 : b.bufDataCapacity = 0) :
    b.pos = 0 ∧ b.remaining = 0 := by
  have hpos := h.pos
  have hrem := h.remaining
  have hin := h.inside
  omega

/-- The first allocation. -/
theorem Wf.malloc (h : b.Wf) (h0 : b.bufDataCapacity = 0) {capacity : Int} (hcap : 0 ≤ capacity)
    (hsmall : capacity < 2 ^ 31) (junk : Mem) : (b.malloc capacity junk).Wf := by
  obtain ⟨hpos, hrem⟩ := h.of_capacity_zero h0
  constructor
  · exact h.pos
  · exact h.remaining
  · show capacity = (capacity.toNat : Int)
    omega
  · exact hsmall
  · show b.pos + b.remaining ≤ capacity
    omega
  · exact fun _ => rfl

theorem Wf.content_of_remaining_zero (h : b.Wf) (h0 : b.remaining = 0) : b.content = [] := by
  have hlen := h.length_content
  rw [h0] at hlen
  exact List.length_eq_zero_iff.mp hlen

/-! ### `read` -/

/-- How many bytes a read of `len` copies. -/
def readLen (b : PmemBuffer) (len : Nat) : Nat := min len b.remaining.toNat

/-- The buffer after a read of `n` bytes.  The dirty cursor is pushed along. -/
def afterRead (b : PmemBuffer) (n : Nat) : PmemBuffer :=
  { b with
    pos := b.pos + n
    remaining := b.remaining - n
    posDirty := if b.posDirty < b.pos + n then b.pos + n else b.posDirty
    remainingDirty :=
      if b.posDirty < b.pos + n then wrap32 (b.remainingDirty - wrap32 (b.pos + n - b.posDirty))
      else b.remainingDirty }

theorem Wf.read_eq (h : b.Wf) {len : Nat} :
    b.read len = some (b.content.take len, b.afterRead (b.readLen len)) := by
  have hpos := h.pos
  have hrem := h.remaining
  have hin := h.inside
  have hsmall := h.small
  have hsize := h.capacity
  have hn : (if b.remaining < (len : Int) then b.remaining else (len : Int)) = b.readLen len := by
    unfold readLen
    split <;> omega
  have hle : (b.readLen len : Int) ≤ b.remaining := by
    unfold readLen
    omega
  have hbytes : b.fetchIfAny b.pos (b.readLen len) = some (b.content.take len) := by
    unfold fetchIfAny content
    cases hdata : b.bufData with
    | none => simp
    | some m =>
      show copyOut m b.size b.pos (b.readLen len) = _
      rw [copyOut_eq hpos (Int.natCast_nonneg _) (by omega), Int.toNat_natCast, loadBytes_take,
        readLen]
  have hw : wrap32 (b.pos + b.readLen len) = b.pos + b.readLen len :=
    wrap32_of_fits (by omega) (by omega)
  have hw' : wrap32 (b.remaining - b.readLen len) = b.remaining - b.readLen len :=
    wrap32_of_fits (by omega) (by omega)
  simp only [read, hn, hbytes, Option.bind_eq_bind, Option.bind_some, Option.pure_def, hw]
  by_cases hlt : b.posDirty < b.pos + b.readLen len
  · simp only [if_pos hlt, afterRead, hw, hw']
  · simp only [if_neg hlt, afterRead, hw, hw']

theorem Wf.afterRead (h : b.Wf) {n : Nat} (hn : (n : Int) ≤ b.remaining) : (b.afterRead n).Wf := by
  have hpos := h.pos
  have hin := h.inside
  constructor
  · show 0 ≤ b.pos + n
    omega
  · show 0 ≤ b.remaining - n
    omega
  · exact h.capacity
  · exact h.small
  · show b.pos + n + (b.remaining - n) ≤ b.bufDataCapacity
    omega
  · exact h.allocated

theorem Wf.content_afterRead (h : b.Wf) {n : Nat} (hn : (n : Int) ≤ b.remaining) :
    (b.afterRead n).content = b.content.drop n := by
  have hpos := h.pos
  cases hdata : b.bufData with
  | none =>
    rw [content, content, show (b.afterRead n).bufData = none from hdata, hdata]
    simp
  | some m =>
    rw [content_of_some hdata, content_of_some (show (b.afterRead n).bufData = some m from hdata)]
    show loadBytes m (b.pos + n).toNat (b.remaining - n).toNat = _
    have hsplit : b.remaining.toNat = n + (b.remaining - n).toNat := by omega
    have hstart : (b.pos + n).toNat = b.pos.toNat + n := by omega
    rw [hsplit, loadBytes_add, hstart, List.drop_left' (loadBytes_length _ _ _)]

/-- A read returns the first bytes of the content and drops them. -/
theorem Wf.read_spec (h : b.Wf) (len : Nat) :
    ∃ b', b.read len = some (b.content.take len, b') ∧ b'.Wf ∧
      b'.content = b.content.drop len ∧ b'.bufDataCapacity = b.bufDataCapacity := by
  have hle : (b.readLen len : Int) ≤ b.remaining := by
    have hrem := h.remaining
    unfold readLen
    omega
  refine ⟨_, h.read_eq, h.afterRead hle, ?_, rfl⟩
  rw [h.content_afterRead hle]
  have hlen := h.length_content
  unfold readLen
  rcases Nat.le_total len b.remaining.toNat with hcase | hcase
  · rw [Nat.min_eq_left hcase]
  · rw [Nat.min_eq_right hcase, List.drop_of_length_le (by omega),
      List.drop_of_length_le (by omega)]

/-! ### `write` -/

/-- The capacity that `write` works with. -/
def writeCapacity (b : PmemBuffer) : Int :=
  if b.bufDataCapacity = 0 then defaultBufsize else b.bufDataCapacity

/-- The capacity after the one step of growth that `write` may make. -/
def grownCapacity (b : PmemBuffer) (len : Nat) : Int :=
  if b.writeCapacity < b.remaining + len then b.writeCapacity + defaultBufsize else b.writeCapacity

/-- `write` does not leave the allocation: there is room behind the content, or
there is room once the content is at the front of a buffer that has grown by at
most one step, and no sum leaves 32 bits. -/
def WriteFits (b : PmemBuffer) (len : Nat) : Prop :=
  b.pos + b.remaining + len ≤ b.writeCapacity ∨
    (b.pos + b.remaining + len < 2 ^ 31 ∧ b.remaining + len ≤ b.grownCapacity len ∧
      b.grownCapacity len < 2 ^ 31)

instance (b : PmemBuffer) (len : Nat) : Decidable (b.WriteFits len) := by
  unfold WriteFits
  infer_instance

theorem Wf.ensureAllocated (h : b.Wf) (junk : Mem) :
    (b.ensureAllocated junk).Wf ∧ (b.ensureAllocated junk).bufDataCapacity = b.writeCapacity ∧
      (b.ensureAllocated junk).pos = b.pos ∧ (b.ensureAllocated junk).remaining = b.remaining ∧
      (b.ensureAllocated junk).posDirty = b.posDirty ∧
      (b.ensureAllocated junk).remainingDirty = b.remainingDirty ∧
      (b.ensureAllocated junk).content = b.content ∧
      ∃ m, (b.ensureAllocated junk).bufData = some m := by
  unfold PmemBuffer.ensureAllocated writeCapacity
  by_cases h0 : b.bufDataCapacity = 0
  · obtain ⟨hpos, hrem⟩ := h.of_capacity_zero h0
    have hwf : (b.malloc defaultBufsize junk).Wf := h.malloc h0 (by decide) (by decide) junk
    rw [if_pos h0, if_pos h0]
    refine ⟨hwf, rfl, rfl, rfl, rfl, rfl, ?_, junk, rfl⟩
    rw [hwf.content_of_remaining_zero hrem, h.content_of_remaining_zero hrem]
  · rw [if_neg h0, if_neg h0]
    exact ⟨h, rfl, rfl, rfl, rfl, rfl, rfl, Option.isSome_iff_exists.mp (h.allocated h0)⟩

theorem writeCapacity_pos (h : b.Wf) : 0 < b.writeCapacity := by
  have hsize := h.capacity
  unfold writeCapacity
  split
  · decide
  · omega

/-- `append` on an allocated buffer with room. -/
theorem Wf.append_eq (h : b.Wf) (hdata : b.bufData = some m) (data : List UInt8)
    (hroom : b.pos + b.remaining + data.length ≤ b.bufDataCapacity) :
    b.append data = some
      { b with
        bufData := some (storeBytes m (b.pos + b.remaining).toNat data)
        remaining := b.remaining + data.length
        remainingDirty := wrap32 (b.remainingDirty + data.length) } := by
  have h1 := h.pos
  have h2 := h.remaining
  have h3 := h.small
  have h4 := h.capacity
  have hw : wrap32 (b.remaining + data.length) = b.remaining + data.length :=
    wrap32_of_fits (by omega) (by omega)
  rw [append, storeIfAny_eq hdata (by omega) (by omega), Option.bind_eq_bind, Option.bind_some]
  show some _ = some _
  rw [hw]

theorem Wf.wf_append (h : b.Wf) (data : List UInt8) (m' : Mem) (dirty : Int)
    (hroom : b.pos + b.remaining + data.length ≤ b.bufDataCapacity) :
    PmemBuffer.Wf { b with
      bufData := some m', remaining := b.remaining + data.length, remainingDirty := dirty } := by
  have h2 := h.remaining
  constructor
  · exact h.pos
  · show 0 ≤ b.remaining + data.length
    omega
  · exact h.capacity
  · exact h.small
  · show b.pos + (b.remaining + data.length) ≤ b.bufDataCapacity
    omega
  · exact fun _ => rfl

/-- Bytes stored right behind the content become part of it. -/
theorem Wf.content_append (h : b.Wf) (hdata : b.bufData = some m) (data : List UInt8) :
    loadBytes (storeBytes m (b.pos + b.remaining).toNat data) b.pos.toNat
      (b.remaining + data.length).toNat = b.content ++ data := by
  have h1 := h.pos
  have h2 := h.remaining
  have hsplit : (b.remaining + data.length).toNat = b.remaining.toNat + data.length := by omega
  have hstart : (b.pos + b.remaining).toNat = b.pos.toNat + b.remaining.toNat := by omega
  rw [hsplit, hstart, loadBytes_add, loadBytes_storeBytes_self,
    loadBytes_storeBytes_of_disjoint _ (.inl (Nat.le_refl _)), content_of_some hdata]

/-- No move: there is room behind the content. -/
theorem Wf.makeRoom_stay (h : b.Wf) {len : Nat} (junk : Mem)
    (hroom : b.pos + b.remaining + len ≤ b.bufDataCapacity) : b.makeRoom len junk = some b := by
  have h1 := h.pos
  have h2 := h.remaining
  have h3 := h.small
  rw [makeRoom, wrap32_of_fits (x := b.pos + b.remaining) (by omega) (by omega),
    wrap32_of_fits (by omega) (by omega), if_neg (by omega)]

/-- A sum that leaves 32 bits looks like room. -/
theorem Wf.makeRoom_wrapped (h : b.Wf) {len : Nat} (hlen : len < 2 ^ 31) (junk : Mem)
    (hwrap : 2 ^ 31 ≤ b.pos + b.remaining + len) : b.makeRoom len junk = some b := by
  have h1 := h.pos
  have h2 := h.remaining
  have h3 := h.small
  have h4 := h.inside
  have hneg : wrap32 (b.pos + b.remaining + len) < 0 := wrap32_neg hwrap (by omega)
  rw [makeRoom, wrap32_of_fits (x := b.pos + b.remaining) (by omega) (by omega), if_neg (by omega)]

/-- The buffer after the content has moved to the front of a new allocation. -/
def moved (b : PmemBuffer) (capacity : Int) (junk : Mem) : PmemBuffer :=
  { b with
    bufData := some (storeBytes junk 0 b.content)
    size := capacity.toNat
    bufDataCapacity := capacity
    pos := 0
    posDirty := 0 }

theorem Wf.moved (h : b.Wf) (capacity : Int) (hcap : b.remaining ≤ capacity)
    (hsmall : capacity < 2 ^ 31) (junk : Mem) : (b.moved capacity junk).Wf := by
  have h2 := h.remaining
  constructor
  · exact Int.le_refl 0
  · exact h2
  · show capacity = (capacity.toNat : Int)
    omega
  · exact hsmall
  · show 0 + b.remaining ≤ capacity
    omega
  · exact fun _ => rfl

theorem Wf.content_moved (h : b.Wf) (capacity : Int) (junk : Mem) :
    (b.moved capacity junk).content = b.content := by
  have hlen := h.length_content
  rw [content_of_some (show (b.moved capacity junk).bufData = some _ from rfl)]
  show loadBytes (storeBytes junk 0 b.content) 0 b.remaining.toNat = b.content
  rw [← hlen]
  exact loadBytes_storeBytes_self junk 0 b.content

/-- The content moves. -/
theorem Wf.makeRoom_move (h : b.Wf) (hdata : b.bufData = some m) (len : Nat) (junk : Mem)
    (hfull : b.bufDataCapacity < b.pos + b.remaining + len)
    (hsum : b.pos + b.remaining + len < 2 ^ 31) {capacity : Int}
    (hcap : capacity = if b.bufDataCapacity < b.remaining + len then
      b.bufDataCapacity + defaultBufsize else b.bufDataCapacity)
    (hsmall : capacity < 2 ^ 31) : b.makeRoom len junk = some (b.moved capacity junk) := by
  have h1 := h.pos
  have h2 := h.remaining
  have h3 := h.small
  have h4 := h.capacity
  have h5 := h.inside
  have hpos : 0 < b.bufDataCapacity ∨ b.bufDataCapacity < b.remaining + len := by omega
  have hwrap : (if b.bufDataCapacity < wrap32 (b.remaining + len) then
      wrap32 (b.bufDataCapacity + defaultBufsize) else b.bufDataCapacity) = capacity := by
    rw [wrap32_of_fits (x := b.remaining + len) (by omega) (by omega), hcap]
    by_cases hlt : b.bufDataCapacity < b.remaining + len
    · rw [hcap, if_pos hlt] at hsmall
      rw [if_pos hlt, if_pos hlt, wrap32_of_fits (by omega) hsmall]
    · rw [if_neg hlt, if_neg hlt]
  have hge : b.remaining ≤ capacity ∧ 0 < capacity := by
    have hdefault : (0 : Int) < defaultBufsize := by decide
    rw [hcap]
    split <;> omega
  rw [makeRoom, wrap32_of_fits (x := b.pos + b.remaining) (by omega) (by omega),
    wrap32_of_fits (by omega) hsum, if_pos hfull]
  simp only [hwrap, if_pos hge.2]
  rw [h.realloc_eq hdata hge.1 junk]
  rfl

/-- The step of growth leaves 32 bits, and the content stays. -/
theorem Wf.makeRoom_overgrown (h : b.Wf) (len : Nat) (junk : Mem)
    (hfull : b.bufDataCapacity < b.remaining + len)
    (hsum : b.pos + b.remaining + len < 2 ^ 31)
    (hgrown : 2 ^ 31 ≤ b.bufDataCapacity + defaultBufsize) :
    ∃ capacity, b.makeRoom len junk = some { b with bufDataCapacity := capacity } := by
  have h1 := h.pos
  have h2 := h.remaining
  have h3 := h.small
  have hdefault : (defaultBufsize : Int) < 2 ^ 31 := by decide
  have hneg : wrap32 (b.bufDataCapacity + defaultBufsize) < 0 := wrap32_neg hgrown (by omega)
  rw [makeRoom, wrap32_of_fits (x := b.pos + b.remaining) (by omega) (by omega),
    wrap32_of_fits (by omega) hsum, if_pos (by omega)]
  simp only [wrap32_of_fits (x := b.remaining + len) (by omega) (by omega), if_pos hfull,
    if_neg (Int.not_lt.mpr (Int.le_of_lt hneg))]
  exact ⟨_, rfl⟩

theorem append_none (hdata : b.bufData = some m) {data : List UInt8}
    (h : b.size < b.pos + b.remaining + data.length) : b.append data = none := by
  rw [append, storeIfAny_none hdata h]
  rfl

/-- A write behind the content. -/
theorem Wf.write_stay (h : b.Wf) {data : List UInt8} (junk : Mem)
    (hroom : b.pos + b.remaining + data.length ≤ b.writeCapacity) :
    ∃ m, (b.ensureAllocated junk).bufData = some m ∧
      b.write data junk = some
        { b.ensureAllocated junk with
          bufData := some (storeBytes m (b.pos + b.remaining).toNat data)
          remaining := b.remaining + data.length
          remainingDirty := wrap32 (b.remainingDirty + data.length) } := by
  obtain ⟨hwf, hcap, hpos, hrem, _, hdirty, _, m, hdata⟩ := h.ensureAllocated junk
  have hroom' : (b.ensureAllocated junk).pos + (b.ensureAllocated junk).remaining + data.length ≤
      (b.ensureAllocated junk).bufDataCapacity := by
    rw [hpos, hrem, hcap]
    exact hroom
  refine ⟨m, hdata, ?_⟩
  rw [write, hwf.makeRoom_stay junk hroom', Option.bind_eq_bind, Option.bind_some,
    hwf.append_eq hdata data hroom']
  simp only [hpos, hrem, hdirty]

/-- A write that moves the content. -/
theorem Wf.write_move (h : b.Wf) {data : List UInt8} (junk : Mem)
    (hfull : b.writeCapacity < b.pos + b.remaining + data.length)
    (hsum : b.pos + b.remaining + data.length < 2 ^ 31)
    (hroom : b.remaining + data.length ≤ b.grownCapacity data.length)
    (hsmall : b.grownCapacity data.length < 2 ^ 31) :
    b.write data junk = some
      { (b.ensureAllocated junk).moved (b.grownCapacity data.length) junk with
        bufData := some (storeBytes (storeBytes junk 0 b.content) b.remaining.toNat data)
        remaining := b.remaining + data.length
        remainingDirty := wrap32 (b.remainingDirty + data.length) } := by
  obtain ⟨hwf, hcap, hpos, hrem, _, hdirty, hcontent, m, hdata⟩ := h.ensureAllocated junk
  have hmove := hwf.makeRoom_move hdata data.length junk
    (by rw [hpos, hrem, hcap]; exact hfull) (by rw [hpos, hrem]; exact hsum)
    (show b.grownCapacity data.length = _ by rw [grownCapacity, hcap, hrem]) hsmall
  have hwf' := hwf.moved (b.grownCapacity data.length) (by rw [hrem]; omega) hsmall junk
  have happend := hwf'.append_eq rfl data (by
    show 0 + (b.ensureAllocated junk).remaining + data.length ≤ b.grownCapacity data.length
    rw [hrem]
    omega)
  rw [write, hmove, Option.bind_eq_bind, Option.bind_some, happend]
  simp only [PmemBuffer.moved, Int.zero_add, hrem, hdirty, hcontent]

/-- A write that does not fit leaves the allocation. -/
theorem Wf.write_none (h : b.Wf) {data : List UInt8} (hlen : data.length < 2 ^ 31) (junk : Mem)
    (hfits : ¬b.WriteFits data.length) : b.write data junk = none := by
  obtain ⟨hwf, hcap, hpos, hrem, _, hdirty, hcontent, m, hdata⟩ := h.ensureAllocated junk
  have hsize := hwf.capacity
  unfold WriteFits at hfits
  push Not at hfits
  obtain ⟨hfull, hrest⟩ := hfits
  by_cases hsum : b.pos + b.remaining + data.length < 2 ^ 31
  · have hgrown : b.writeCapacity < b.remaining + data.length := by
      by_contra hle
      have hsame : b.grownCapacity data.length = b.writeCapacity := if_neg hle
      have hsmall := hwf.small
      have hbad := hrest hsum (by rw [hsame]; omega)
      omega
    have hstep : b.grownCapacity data.length = b.writeCapacity + defaultBufsize := if_pos hgrown
    by_cases hsmall : b.grownCapacity data.length < 2 ^ 31
    · have hshort : b.grownCapacity data.length < b.remaining + data.length := by
        by_contra hle
        have hbad := hrest hsum (by omega)
        omega
      have hmove := hwf.makeRoom_move hdata data.length junk
        (by rw [hpos, hrem, hcap]; exact hfull) (by rw [hpos, hrem]; exact hsum)
        (show b.grownCapacity data.length = _ by rw [grownCapacity, hcap, hrem]) hsmall
      rw [write, hmove, Option.bind_eq_bind, Option.bind_some]
      refine append_none rfl ?_
      show ((b.grownCapacity data.length).toNat : Int) <
        0 + (b.ensureAllocated junk).remaining + data.length
      have hpos' := writeCapacity_pos h
      omega
    · obtain ⟨capacity, hstay⟩ := hwf.makeRoom_overgrown data.length junk
        (by rw [hrem, hcap]; exact hgrown) (by rw [hpos, hrem]; exact hsum) (by omega)
      rw [write, hstay, Option.bind_eq_bind, Option.bind_some]
      have hdata' : PmemBuffer.bufData
          { b.ensureAllocated junk with bufDataCapacity := capacity } = some m := hdata
      refine append_none hdata' ?_
      show ((b.ensureAllocated junk).size : Int) <
        (b.ensureAllocated junk).pos + (b.ensureAllocated junk).remaining + data.length
      omega
  · rw [write, hwf.makeRoom_wrapped hlen junk (by omega), Option.bind_eq_bind, Option.bind_some]
    exact append_none hdata (by omega)

/-- A write that fits appends its bytes to the content. -/
theorem Wf.write_spec (h : b.Wf) {data : List UInt8} (junk : Mem)
    (hfits : b.WriteFits data.length) :
    ∃ b', b.write data junk = some b' ∧ b'.Wf ∧ b'.content = b.content ++ data ∧
      (b'.bufDataCapacity = b.writeCapacity ∨
        b'.bufDataCapacity = b.grownCapacity data.length) := by
  obtain ⟨hwf, hcap, hpos, hrem, _, _, hcontent, _⟩ := h.ensureAllocated junk
  by_cases hroom : b.pos + b.remaining + data.length ≤ b.writeCapacity
  · obtain ⟨m, hdata, hwrite⟩ := h.write_stay junk hroom
    refine ⟨_, hwrite, ?_, ?_, .inl hcap⟩
    · have hwf' := hwf.wf_append data
        (storeBytes m (b.pos + b.remaining).toNat data) (wrap32 (b.remainingDirty + data.length))
        (by rw [hpos, hrem, hcap]; exact hroom)
      rw [hrem] at hwf'
      exact hwf'
    · have happend := hwf.content_append hdata data
      rw [hpos, hrem, hcontent] at happend
      rw [← happend]
      show loadBytes _ (b.ensureAllocated junk).pos.toNat _ = _
      rw [hpos]
  · obtain ⟨hsum, hroom', hsmall⟩ := hfits.resolve_left hroom
    have hrem0 := h.remaining
    have hwf' := hwf.moved (b.grownCapacity data.length) (by rw [hrem]; omega) hsmall junk
    refine ⟨_, h.write_move junk (by omega) hsum hroom' hsmall, ?_, ?_, .inr rfl⟩
    · have hwf'' := hwf'.wf_append data
        (storeBytes (storeBytes junk 0 b.content) b.remaining.toNat data)
        (wrap32 (b.remainingDirty + data.length)) (by
          show 0 + (b.ensureAllocated junk).remaining + data.length ≤ b.grownCapacity data.length
          rw [hrem]
          omega)
      have hsame : ((b.ensureAllocated junk).moved (b.grownCapacity data.length) junk).remaining =
          b.remaining := hrem
      rw [hsame] at hwf''
      exact hwf''
    · have happend := hwf'.content_append rfl data
      rw [hwf.content_moved, hcontent] at happend
      simp only [PmemBuffer.moved, Int.zero_add, hrem, hcontent] at happend
      exact happend

/-- What a write that fits does to the cursors.  Whenever it moves the content the
dirty cursor is set to the front as well. -/
theorem Wf.write_cursors (h : b.Wf) {data : List UInt8} (junk : Mem)
    (hfits : b.WriteFits data.length) {b' : PmemBuffer} (hwrite : b.write data junk = some b') :
    b'.remaining = b.remaining + data.length ∧
      b'.remainingDirty = wrap32 (b.remainingDirty + data.length) ∧
      (b.pos + b.remaining + data.length ≤ b.writeCapacity →
        b'.pos = b.pos ∧ b'.posDirty = b.posDirty) ∧
      (b.writeCapacity < b.pos + b.remaining + data.length → b'.pos = 0 ∧ b'.posDirty = 0) := by
  obtain ⟨_, _, hpos, _, hdirty, _⟩ := h.ensureAllocated junk
  by_cases hroom : b.pos + b.remaining + data.length ≤ b.writeCapacity
  · obtain ⟨m, _, hstay⟩ := h.write_stay junk hroom
    rw [← Option.some.inj (hstay.symm.trans hwrite)]
    exact ⟨rfl, rfl, fun _ => ⟨hpos, hdirty⟩, fun hbad => by omega⟩
  · obtain ⟨hsum, hroom', hsmall⟩ := hfits.resolve_left hroom
    have hmove := h.write_move junk (by omega) hsum hroom' hsmall
    rw [← Option.some.inj (hmove.symm.trans hwrite)]
    exact ⟨rfl, rfl, fun hbad => absurd hbad hroom, fun _ => ⟨rfl, rfl⟩⟩

/-- `write` is defined exactly when it fits. -/
theorem Wf.write_isSome_iff (h : b.Wf) {data : List UInt8} (hlen : data.length < 2 ^ 31)
    (junk : Mem) : (b.write data junk).isSome ↔ b.WriteFits data.length := by
  by_cases hfits : b.WriteFits data.length
  · obtain ⟨b', hwrite, _⟩ := h.write_spec junk hfits
    simp [hwrite, hfits]
  · simp [h.write_none hlen junk hfits, hfits]

/-! ### `load` -/

/-- `load` copies the unread bytes to a new allocation, or they are at the front
already; otherwise it takes the front of the buffer for the unread bytes. -/
def Moves (b : PmemBuffer) (len : Nat) : Prop :=
  b.remaining = 0 ∨ b.pos = 0 ∨ b.bufDataCapacity < b.remaining + len

instance (b : PmemBuffer) (len : Nat) : Decidable (b.Moves len) := by
  unfold Moves
  infer_instance

/-- The bytes that `load` takes for the unread ones. -/
def front (b : PmemBuffer) : List UInt8 :=
  match b.bufData with
  | none => []
  | some m => loadBytes m 0 b.remaining.toNat

theorem front_of_some (h : b.bufData = some m) : b.front = loadBytes m 0 b.remaining.toNat := by
  rw [front, h]

theorem Wf.length_front (h : b.Wf) : b.front.length = b.remaining.toNat := by
  have hlen := h.length_content
  unfold front
  unfold content at hlen
  cases hdata : b.bufData with
  | some m => exact loadBytes_length _ _ _
  | none =>
    rw [hdata] at hlen
    exact hlen

/-- The end of `load`, after the new bytes were stored behind the bytes `old` at
the front of the buffer. -/
theorem afterLoad_spec (b : PmemBuffer) (m : Mem) (bytes : List UInt8) {old : List UInt8}
    (hold : loadBytes m 0 b.remaining.toNat = old)
    (hrem : 0 ≤ b.remaining) (hcap : b.bufDataCapacity = b.size)
    (hsmall : b.bufDataCapacity < 2 ^ 31)
    (hroom : b.remaining + bytes.length ≤ b.bufDataCapacity) :
    (PmemBuffer.afterLoad
        { b with bufData := some (storeBytes m b.remaining.toNat bytes) } bytes.length).Wf ∧
      (PmemBuffer.afterLoad
        { b with bufData := some (storeBytes m b.remaining.toNat bytes) } bytes.length).content =
          old ++ bytes := by
  have hw : wrap32 (b.remaining + bytes.length) = b.remaining + bytes.length :=
    wrap32_of_fits (by omega) (by omega)
  constructor
  · constructor
    · exact Int.le_refl 0
    · show 0 ≤ wrap32 (b.remaining + bytes.length)
      omega
    · exact hcap
    · exact hsmall
    · show 0 + wrap32 (b.remaining + bytes.length) ≤ b.bufDataCapacity
      omega
    · exact fun _ => rfl
  · show loadBytes (storeBytes m b.remaining.toNat bytes) 0
      (wrap32 (b.remaining + bytes.length)).toNat = old ++ bytes
    have hsplit : (wrap32 (b.remaining + bytes.length)).toNat =
        b.remaining.toNat + bytes.length := by omega
    rw [hsplit, loadBytes_add, Nat.zero_add, loadBytes_storeBytes_self,
      loadBytes_storeBytes_of_disjoint _ (.inl (by omega)), hold]

/-- `load` with something to load. -/
theorem load_eq {addr : Nat} (haddr : addr ≠ 0) {bytes : List UInt8} (hne : bytes.length ≠ 0)
    (junk : Mem) : b.load addr bytes junk =
      ((b.loadStart bytes.length junk).loadInto bytes junk).map
        fun b' => ((bytes.length : Int), b'.afterLoad bytes.length) := by
  rw [load, if_neg (by omega), Option.map_eq_bind]
  rfl

theorem Wf.loadStart (h : b.Wf) {len : Nat} (hlen : len < 2 ^ 31) (hne : len ≠ 0) (junk : Mem) :
    (b.loadStart len junk).Wf ∧ (b.loadStart len junk).bufDataCapacity ≠ 0 ∧
      (b.loadStart len junk).remaining = b.remaining ∧
      (b.loadStart len junk).bufDataCapacity ≤ max b.bufDataCapacity len := by
  unfold PmemBuffer.loadStart
  by_cases h0 : b.bufDataCapacity = 0
  · rw [if_pos h0]
    refine ⟨h.malloc h0 (by omega) (by omega) junk, ?_, rfl, Int.le_max_right _ _⟩
    show (len : Int) ≠ 0
    omega
  · rw [if_neg h0]
    exact ⟨h, h0, rfl, Int.le_max_left _ _⟩

/-- The allocation that the branch `remaining == 0` stores into. -/
theorem Wf.loadFirst_eq (h : b.Wf) (hcap : b.bufDataCapacity ≠ 0) (h0 : b.remaining = 0)
    {bytes : List UInt8} (hlen : bytes.length < 2 ^ 31) (junk : Mem) :
    ∃ (b₁ : PmemBuffer) (m : Mem), b.loadFirst bytes junk = b₁.storeIfAny 0 bytes ∧
      b₁.bufData = some m ∧ b₁.remaining = 0 ∧ b₁.bufDataCapacity = b₁.size ∧
      b₁.bufDataCapacity < 2 ^ 31 ∧ (bytes.length : Int) ≤ b₁.bufDataCapacity ∧
      b₁.bufDataCapacity ≤ max b.bufDataCapacity bytes.length := by
  by_cases hshort : b.bufDataCapacity < bytes.length
  · refine ⟨b.malloc bytes.length junk, junk, ?_, rfl, h0, ?_, ?_, Int.le_refl _,
      Int.le_max_right _ _⟩
    · simp only [loadFirst, if_pos hshort]
    · show (bytes.length : Int) = ((bytes.length : Int).toNat : Int)
      omega
    · show (bytes.length : Int) < 2 ^ 31
      omega
  · obtain ⟨m, hdata⟩ := Option.isSome_iff_exists.mp (h.allocated hcap)
    refine ⟨b, m, ?_, hdata, h0, h.capacity, h.small, by omega, Int.le_max_left _ _⟩
    simp only [loadFirst, if_neg hshort]

/-- `load` into a buffer without unread bytes. -/
theorem Wf.load_first (h : b.Wf) {addr : Nat} (haddr : addr ≠ 0) {bytes : List UInt8}
    (hne : bytes.length ≠ 0) (hlen : bytes.length < 2 ^ 31) (junk : Mem) (h0 : b.remaining = 0) :
    ∃ b', b.load addr bytes junk = some ((bytes.length : Int), b') ∧ b'.Wf ∧ b'.content = bytes ∧
      b'.pos = 0 ∧ b'.bufDataCapacity ≤ max b.bufDataCapacity bytes.length := by
  obtain ⟨hwf, hcap₀, hrem₀, hmax⟩ := h.loadStart hlen hne junk
  rw [h0] at hrem₀
  obtain ⟨b₁, m, hfirst, hdata, hrem, hcap, hsmall, hroom, hmax'⟩ :=
    hwf.loadFirst_eq hcap₀ hrem₀ hlen junk
  have hspec := afterLoad_spec b₁ m bytes (show _ = [] by rw [hrem]; rfl) (by omega) hcap hsmall
    (by omega)
  have hoff : (0 : Int).toNat = b₁.remaining.toNat := by rw [hrem]
  refine ⟨_, ?_, hspec.1, hspec.2, rfl, show b₁.bufDataCapacity ≤ _ by omega⟩
  rw [load_eq haddr hne, loadInto, if_neg (by omega), if_pos hrem₀, hfirst,
    storeIfAny_eq hdata (Int.le_refl 0) (by omega), Option.map_some, hoff]

/-- `load` behind unread bytes.  Without a new allocation they are taken to be at
the front of the buffer, wherever the read cursor was. -/
theorem Wf.load_behind (h : b.Wf) {addr : Nat} (haddr : addr ≠ 0) {bytes : List UInt8}
    (hne : bytes.length ≠ 0) (junk : Mem) (hpos : 0 < b.remaining)
    (hsum : b.remaining + bytes.length < 2 ^ 31) :
    ∃ b', b.load addr bytes junk = some ((bytes.length : Int), b') ∧ b'.Wf ∧
      b'.content =
        (if b.bufDataCapacity < b.remaining + bytes.length then b.content else b.front) ++ bytes ∧
      b'.pos = 0 ∧ b'.bufDataCapacity ≤ max b.bufDataCapacity (b.remaining + bytes.length) := by
  have hin := h.inside
  have h1 := h.pos
  have hcap : b.bufDataCapacity ≠ 0 := by omega
  have hsize := h.capacity
  obtain ⟨m, hdata⟩ := Option.isSome_iff_exists.mp (h.allocated hcap)
  have hw : wrap32 (b.remaining + bytes.length) = b.remaining + bytes.length :=
    wrap32_of_fits (by omega) (by omega)
  have hload : b.load addr bytes junk = (b.loadBehind bytes junk).map
      fun b' => ((bytes.length : Int), b'.afterLoad bytes.length) := by
    rw [load_eq haddr hne, PmemBuffer.loadStart, if_neg hcap, loadInto, if_pos hpos]
  by_cases hshort : b.bufDataCapacity < b.remaining + bytes.length
  · have hbehind : b.loadBehind bytes junk = some
        { b with
          bufData := some (storeBytes (storeBytes junk 0 b.content) b.remaining.toNat bytes)
          size := (b.remaining + bytes.length).toNat
          bufDataCapacity := b.remaining + bytes.length } := by
      rw [loadBehind, hw, if_pos hshort, h.realloc_eq hdata (by omega) junk, Option.bind_eq_bind,
        Option.bind_some]
      refine store_eq rfl (by show 0 ≤ b.remaining; omega) ?_
      show b.remaining + bytes.length ≤ ((b.remaining + bytes.length).toNat : Int)
      omega
    have hself := loadBytes_storeBytes_self junk 0 b.content
    rw [h.length_content] at hself
    have hspec := afterLoad_spec
      { b with
        size := (b.remaining + bytes.length).toNat
        bufDataCapacity := b.remaining + bytes.length }
      (storeBytes junk 0 b.content) bytes hself h.remaining
      (by
        show b.remaining + bytes.length = ((b.remaining + bytes.length).toNat : Int)
        omega)
      hsum (Int.le_refl _)
    rw [if_pos hshort]
    rw [hbehind, Option.map_some] at hload
    exact ⟨_, hload, hspec.1, hspec.2, rfl, Int.le_max_right _ _⟩
  · have hbehind : b.loadBehind bytes junk = some
        { b with bufData := some (storeBytes m b.remaining.toNat bytes) } := by
      rw [loadBehind, hw, if_neg hshort, Option.bind_eq_bind, Option.bind_some]
      exact store_eq hdata (by omega) (by omega)
    have hspec := afterLoad_spec b m bytes (front_of_some hdata).symm h.remaining hsize h.small
      (by omega)
    rw [if_neg hshort]
    rw [hbehind, Option.map_some] at hload
    exact ⟨_, hload, hspec.1, hspec.2, rfl, Int.le_max_left _ _⟩

/-- A `load` whose sum leaves 32 bits leaves the allocation too. -/
theorem Wf.load_none (h : b.Wf) {addr : Nat} (haddr : addr ≠ 0) {bytes : List UInt8}
    (hlen : bytes.length < 2 ^ 31) (junk : Mem) (hsum : 2 ^ 31 ≤ b.remaining + bytes.length) :
    b.load addr bytes junk = none := by
  have hin := h.inside
  have h1 := h.pos
  have hsmall := h.small
  have hsize := h.capacity
  have hpos : 0 < b.remaining := by omega
  have hcap : b.bufDataCapacity ≠ 0 := by omega
  obtain ⟨m, hdata⟩ := Option.isSome_iff_exists.mp (h.allocated hcap)
  have hneg : wrap32 (b.remaining + bytes.length) < 0 := wrap32_neg hsum (by omega)
  rw [load_eq haddr (by omega), PmemBuffer.loadStart, if_neg hcap, loadInto, if_pos hpos,
    loadBehind, if_neg (by omega), Option.bind_eq_bind, Option.bind_some]
  show (b.store b.remaining bytes).map _ = none
  rw [store_none hdata (by omega)]
  rfl

/-- `load` leaves the unread bytes alone when they are at the front or are copied. -/
theorem Wf.load_spec (h : b.Wf) {addr : Nat} (haddr : addr ≠ 0) {bytes : List UInt8}
    (hne : bytes.length ≠ 0) (junk : Mem) (hsum : b.remaining + bytes.length < 2 ^ 31) :
    ∃ b', b.load addr bytes junk = some ((bytes.length : Int), b') ∧ b'.Wf ∧
      b'.content = (if b.Moves bytes.length then b.content else b.front) ++ bytes ∧ b'.pos = 0 ∧
      b'.bufDataCapacity ≤ max b.bufDataCapacity (b.remaining + bytes.length) := by
  have h2 := h.remaining
  by_cases h0 : b.remaining = 0
  · obtain ⟨b', hload, hwf, hcontent, hpos, hcap⟩ := h.load_first haddr hne (by omega) junk h0
    refine ⟨b', hload, hwf, ?_, hpos, by omega⟩
    rw [if_pos (.inl h0), h.content_of_remaining_zero h0, hcontent, List.nil_append]
  · obtain ⟨b', hload, hwf, hcontent, hpos, hcap⟩ := h.load_behind haddr hne junk (by omega) hsum
    refine ⟨b', hload, hwf, ?_, hpos, hcap⟩
    rw [hcontent]
    congr 1
    by_cases hshort : b.bufDataCapacity < b.remaining + bytes.length
    · rw [if_pos hshort, if_pos (.inr (.inr hshort))]
    · rw [if_neg hshort]
      by_cases hfront : b.pos = 0
      · rw [if_pos (.inr (.inl hfront)), content, front, hfront]
        rfl
      · rw [if_neg]
        rintro (hbad | hbad | hbad)
        · exact h0 hbad
        · exact hfront hbad
        · exact hshort hbad

end

end PmemBuffer

end SparkNvm.Storage
