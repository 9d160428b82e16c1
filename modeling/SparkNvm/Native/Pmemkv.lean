import SparkNvm.Lib.ByteMem
import SparkNvm.Lib.Chain
import SparkNvm.Lib.Run

/-!
# The key-value store `pmemkv`

The model of `native/src/pmemkv.h` over the memory service of
`native/src/memory_interface.h`.

The service is outside the sources (`libfs.so`), so its answers are inputs
of the model: the address that a `TBPAlloc` returns, and whether a
`TBPStore` succeeded.  `malloc` answers are inputs in the same way.  Global
addresses are ordinary pointers, as `put` and `get` dereference them
directly, so one flat byte memory serves `TBPLoad`, `TBPStore` and `memcpy`.

* `block_entry` is 32 bytes: `next` at 0, `key` at 8, `size` at 16, `data`
  at 24.
* `base` is 64 bytes: `head` at 0, `tail` at 8, the 40-byte `std::mutex` at
  16, `bytes_written` at 56.

`block_meta` and `block_meta_list` are `malloc`ed objects of the index.  They
live in two typed heaps, `metas` and `lists`; a freed or never allocated
pointer maps to `none`.  Every function returns `none` where the program
would not go on: a null or dangling pointer, a failed `assert`, or a loop
that has not ended when the fuel is used up.

`uint64_t` values are natural numbers below `2 ^ 64`; every addition and
subtraction of the code is taken modulo `2 ^ 64`.
-/

namespace SparkNvm.Native

open Lib

/-! ## The memory service -/

/-- The memory behind the service, and the ranges that `TBPAlloc` has handed
out.  The ranges are never read by the code; they say which answers a later
`TBPAlloc` may give. -/
structure Service where
  mem : Mem
  regions : List Region

namespace Service

/-- A successful answer of `TBPAlloc(size)`: not null, inside the address
space, and apart from everything handed out before. -/
def Grants (s : Service) (size answer : Nat) : Prop :=
  answer ≠ 0 ∧ answer < 2 ^ 64 ∧ answer + size ≤ 2 ^ 64 ∧
    ∀ r ∈ s.regions, Apart ⟨answer, size⟩ r

instance (s : Service) (size answer : Nat) : Decidable (s.Grants size answer) := by
  unfold Grants; infer_instance

/-- `TBPAlloc(size)` with the given answer; `0` is the failure. -/
def tbpAlloc (s : Service) (size answer : Nat) : Service :=
  if answer = 0 then s else { s with regions := ⟨answer, size⟩ :: s.regions }

/-- `TBPLoad(addr, buffer, size)`. -/
def tbpLoad (s : Service) (addr size : Nat) : List UInt8 := loadBytes s.mem addr size

/-- `TBPStore(addr, buffer, size)`; a store that returns `-1` wrote nothing. -/
def tbpStore (s : Service) (ok : Bool) (addr : Nat) (buffer : List UInt8) : Service :=
  if ok then { s with mem := storeBytes s.mem addr buffer } else s

/-- `pmemkv::TBPSet`. -/
def tbpSet (s : Service) (ok : Bool) (addr value : Nat) : Service :=
  s.tbpStore ok addr (encodeLE 8 value)

/-- `pmemkv::TBPGet`. -/
def tbpGet (s : Service) (addr : Nat) : Nat := decodeLE (s.tbpLoad addr 8)

/-- `pmemkv::TBPAdd`: a load, an addition in `uint64_t`, and a store. -/
def tbpAdd (s : Service) (ok : Bool) (addr value : Nat) : Service :=
  let tmp := s.tbpGet addr
  s.tbpStore ok addr (encodeLE 8 ((tmp + value) % 2 ^ 64))

/-- Subtraction of `uint64_t` values. -/
def sub64 (a b : Nat) : Nat := (a + (2 ^ 64 - b % 2 ^ 64)) % 2 ^ 64

/-- `pmemkv::TBPSub`. -/
def tbpSub (s : Service) (ok : Bool) (addr value : Nat) : Service :=
  let tmp := s.tbpGet addr
  s.tbpStore ok addr (encodeLE 8 (sub64 tmp value))

/-- A direct read `p->field` of a 64-bit field; the null page is not mapped. -/
def deref (s : Service) (p offset : Nat) : Option Nat :=
  if p = 0 then none else some (load64 s.mem (p + offset))

/-- A copy of `size` bytes from an address that was read from memory. -/
def loadAt (s : Service) (addr size : Nat) : Option (List UInt8) :=
  if addr = 0 ∧ size ≠ 0 then none else some (s.tbpLoad addr size)

/-- A `TBPStore` to an address that was read from memory. -/
def storeAt (s : Service) (ok : Bool) (addr : Nat) (buffer : List UInt8) : Option Service :=
  if addr = 0 ∧ buffer ≠ [] then none else some (s.tbpStore ok addr buffer)

theorem loadAt_of_ne (s : Service) {addr : Nat} (size : Nat) (h : addr ≠ 0) :
    s.loadAt addr size = some (s.tbpLoad addr size) := by
  rw [loadAt, if_neg fun hnull => h hnull.1]

theorem storeAt_of_ne (s : Service) (ok : Bool) {addr : Nat} (buffer : List UInt8) (h : addr ≠ 0) :
    s.storeAt ok addr buffer = some (s.tbpStore ok addr buffer) := by
  rw [storeAt, if_neg fun hnull => h hnull.1]

end Service

/-! ## Layout -/

/-- `sizeof(block_entry)`. -/
def sizeofBlockEntry : Nat := 32

/-- `sizeof(base)`. -/
def sizeofBase : Nat := 64

/-- `sizeof(block_meta)`. -/
def sizeofBlockMeta : Nat := 24

/-- `sizeof(block_meta_list)`. -/
def sizeofBlockMetaList : Nat := 32

/-- `&bep->hdr.next`. -/
def nextAddr (bep : Nat) : Nat := bep

/-- `&bep->hdr.key`. -/
def keyAddr (bep : Nat) : Nat := bep + 8

/-- `&bep->hdr.size`. -/
def sizeAddr (bep : Nat) : Nat := bep + 16

/-- `&bep->data`. -/
def dataAddr (bep : Nat) : Nat := bep + 24

/-- `&bp->head`. -/
def headAddr (bp : Nat) : Nat := bp

/-- `&bp->tail`. -/
def tailAddr (bp : Nat) : Nat := bp + 8

/-- `&bp->bytes_written`. -/
def writtenAddr (bp : Nat) : Nat := bp + 56

/-- `struct block_meta`. -/
structure BlockMeta where
  next : Nat
  off : Nat
  size : Nat
  deriving DecidableEq, Repr

/-- `struct block_meta_list`. -/
structure BlockMetaList where
  head : Nat
  tail : Nat
  totalSize : Nat
  length : Nat
  deriving DecidableEq, Repr

/-- The volatile index.  `map` is the cuckoo hash map: one pair per key, in no
meaningful order, from the key to its `block_meta_list`. -/
structure Index where
  map : List (Nat × Nat)
  metas : Nat → Option BlockMeta
  lists : Nat → Option BlockMetaList
  bytesAllocated : Nat

/-- The object `pmemkv` together with the memory it works on. -/
structure Pmemkv where
  service : Service
  bp : Nat
  index : Index

/-- The answers of the environment during one `put`: the two `TBPAlloc`s, the
eight `TBPStore`s in program order, and the two `malloc`s of `update_meta`. -/
structure PutAnswers where
  entry : Nat
  data : Nat
  dataPtrOk : Bool := true
  bytesOk : Bool := true
  nextOk : Bool := true
  keyOk : Bool := true
  sizeOk : Bool := true
  linkOk : Bool := true
  tailOk : Bool := true
  writtenOk : Bool := true
  metaPtr : Nat
  listPtr : Nat
  deriving DecidableEq, Repr

/-! ## `create` and `update_meta` -/

/-- The index of a new object. -/
def Index.empty : Index :=
  { map := [], metas := fun _ => none, lists := fun _ => none, bytesAllocated := 0 }

/-- `pmemkv::create`.  The constructor calls it on whatever memory the service
holds. -/
def Pmemkv.create (s : Service) (answer : Nat) : Pmemkv :=
  let s := s.tbpAlloc sizeofBase answer
  let s := s.tbpSet true (headAddr answer) 0
  let s := s.tbpSet true (tailAddr answer) 0
  let s := s.tbpSet true (writtenAddr answer) 0
  { service := s, bp := answer, index := Index.empty }

/-- Point update of a heap. -/
def upd {α : Type} (heap : Nat → Option α) (p : Nat) (v : Option α) : Nat → Option α :=
  fun q => if q = p then v else heap q

/-- The body of `update_meta` on the header fields of an entry.  A `malloc`
that answers `0` failed; on the second failure of a new key the `block_meta`
already counted is leaked. -/
def Index.updateMeta (ix : Index) (key off size metaPtr listPtr : Nat) :
    Option (Int × Index) :=
  let bm : BlockMeta := { next := 0, off := off, size := size }
  match ix.map.lookup key with
  | none =>
    if metaPtr = 0 then
      some (-1, ix)
    else
      let ix := { ix with
        bytesAllocated := (ix.bytesAllocated + sizeofBlockMeta) % 2 ^ 64
        metas := upd ix.metas metaPtr (some bm) }
      if listPtr = 0 then
        some (-1, ix)
      else
        let bml : BlockMetaList :=
          { head := metaPtr, tail := metaPtr, totalSize := size, length := 1 }
        some (0, { ix with
          bytesAllocated := (ix.bytesAllocated + sizeofBlockMetaList) % 2 ^ 64
          lists := upd ix.lists listPtr (some bml)
          map := ix.map ++ [(key, listPtr)] })
  | some p => do
    let bml ← ix.lists p
    if metaPtr = 0 then
      return (-1, ix)
    else
      let ix := { ix with
        bytesAllocated := (ix.bytesAllocated + sizeofBlockMeta) % 2 ^ 64
        metas := upd ix.metas metaPtr (some bm) }
      -- `bml->tail->next = bm; bml->tail = bm`
      let last ← ix.metas bml.tail
      return (0, { ix with
        metas := upd ix.metas bml.tail (some { last with next := metaPtr })
        lists := upd ix.lists p (some { bml with
          tail := metaPtr
          totalSize := (bml.totalSize + size) % 2 ^ 64
          length := (bml.length + 1) % 2 ^ 64 }) })

namespace Pmemkv

/-- `pmemkv::update_meta`, run under `mtx`. -/
def updateMeta (kv : Pmemkv) (bep metaPtr listPtr : Nat) : Option (Int × Pmemkv) := do
  let key ← kv.service.deref bep 8
  let size ← kv.service.deref bep 16
  let off ← kv.service.deref bep 24
  let (code, ix) ← kv.index.updateMeta key off size metaPtr listPtr
  return (code, { kv with index := ix })

/-! ## `put` -/

/-- First half of `put`: allocate the entry and the data, store the value and
the header fields.  `bep->data` is read back directly from the entry. -/
def putEntry (s : Service) (key : UInt64) (buf : List UInt8) (count : Nat)
    (ans : PutAnswers) : Option Service := do
  let bep := ans.entry
  let s := s.tbpAlloc sizeofBlockEntry bep
  let s := s.tbpAlloc count ans.data
  let s := s.tbpSet ans.dataPtrOk (dataAddr bep) ans.data
  let data ← s.deref bep 24
  let s ← s.storeAt ans.bytesOk data (buf.take count)
  let s := s.tbpSet ans.nextOk (nextAddr bep) 0
  let s := s.tbpSet ans.keyOk (keyAddr bep) key.toNat
  return s.tbpSet ans.sizeOk (sizeAddr bep) count

/-- Second half of `put`: link the entry behind the tail, move the tail, count
the bytes.  The branch tests `TBPGet(&bp->tail)`, the link store goes through
a second, direct read of `bp->tail`. -/
def putLink (s : Service) (bp count : Nat) (ans : PutAnswers) : Option Service := do
  let bep := ans.entry
  let s ←
    if s.tbpGet (tailAddr bp) = 0 then
      some (s.tbpSet ans.linkOk (headAddr bp) bep)
    else
      (s.deref bp 8).map fun tail => s.tbpSet ans.linkOk (nextAddr tail) bep
  let s := s.tbpSet ans.tailOk (tailAddr bp) bep
  return s.tbpAdd ans.writtenOk (writtenAddr bp) count

/-- `pmemkv::put`.  `hash` is `xxh::xxhash<64>`. -/
def put (hash : String → UInt64) (kv : Pmemkv) (key : String) (buf : List UInt8)
    (count : Nat) (ans : PutAnswers) : Option (Int × Pmemkv) := do
  let s ← putEntry kv.service (hash key) buf count ans
  let s ← putLink s kv.bp count ans
  let (code, kv) ← updateMeta { kv with service := s } ans.entry ans.metaPtr ans.listPtr
  if code ≠ 0 then
    return (-1, kv)
  else
    return (0, kv)

/-! ## The readers -/

/-- `struct memory_block`: a caller's buffer and its size. -/
structure MemoryBlock where
  data : Mem
  size : Nat

/-- The copy loop of `get`. -/
def getLoop (kv : Pmemkv) : Nat → Nat → Nat → MemoryBlock → Option MemoryBlock
  | 0, bm, _, mb => if bm = 0 then some mb else none
  | fuel + 1, bm, readOffset, mb =>
    if bm = 0 then
      some mb
    else do
      let b ← kv.index.metas bm
      if (readOffset + b.size) % 2 ^ 64 ≤ mb.size then do
        let bytes ← kv.service.loadAt b.off b.size
        let mb := { mb with data := storeBytes mb.data readOffset bytes }
        let readOffset := (readOffset + b.size) % 2 ^ 64
        -- assert(read_offset <= mb->size)
        if readOffset ≤ mb.size then
          getLoop kv fuel b.next readOffset mb
        else
          none
      else
        some mb

/-- `pmemkv::get`. -/
def get (hash : String → UInt64) (fuel : Nat) (kv : Pmemkv) (key : String)
    (mb : MemoryBlock) : Option (Int × MemoryBlock) :=
  match kv.index.map.lookup (hash key).toNat with
  | none => some (-1, mb)
  | some p => do
    let bml ← kv.index.lists p
    let mb ← getLoop kv fuel bml.head 0 mb
    return (0, mb)

/-- `pmemkv::get_value_size`: the return code and `*size`. -/
def getValueSize (hash : String → UInt64) (kv : Pmemkv) (key : String) :
    Option (Int × Nat) :=
  match kv.index.map.lookup (hash key).toNat with
  | none => some (-1, 0)
  | some p => do
    let bml ← kv.index.lists p
    return (0, bml.totalSize)

/-- `pmemkv::get_meta_size`: the return code and `*size`. -/
def getMetaSize (hash : String → UInt64) (kv : Pmemkv) (key : String) :
    Option (Int × Nat) :=
  match kv.index.map.lookup (hash key).toNat with
  | none => some (-1, 0)
  | some p => do
    let bml ← kv.index.lists p
    return (0, bml.length)

/-- `struct memory_meta`: the array `meta` and the `length` field. -/
structure MemoryMeta where
  entries : Nat → Nat
  length : Nat

/-- The loop of `get_meta`: two array stores per block. -/
def getMetaLoop (kv : Pmemkv) : Nat → Nat → Nat → MemoryMeta → Option MemoryMeta
  | 0, next, index, mm => if next = 0 then some { mm with length := index } else none
  | fuel + 1, next, index, mm =>
    if next = 0 then
      some { mm with length := index }
    else do
      let b ← kv.index.metas next
      let mm := { mm with
        entries := Function.update (Function.update mm.entries index b.off) (index + 1) b.size }
      getMetaLoop kv fuel b.next (index + 2) mm

/-- `pmemkv::get_meta`.  For an absent key the code only overwrites its own
copy of the pointer, so the caller's struct stays as it was. -/
def getMeta (hash : String → UInt64) (fuel : Nat) (kv : Pmemkv) (key : String)
    (mm : MemoryMeta) : Option (Int × MemoryMeta) :=
  match kv.index.map.lookup (hash key).toNat with
  | none => some (0, mm)
  | some p => do
    let bml ← kv.index.lists p
    let mm ← getMetaLoop kv fuel bml.head 0 mm
    return (0, mm)

/-- The loop of `dump_all`: the key of every entry from `bep` on, and the bytes that it loads into
`tmp`. -/
def walkLoop (s : Service) : Nat → Nat → Option (List (Nat × List UInt8))
  | 0, bep => if bep = 0 then some [] else none
  | fuel + 1, bep =>
    if bep = 0 then
      some []
    else do
      let data := s.tbpGet (dataAddr bep)
      let size := s.tbpGet (sizeAddr bep)
      let key := s.tbpGet (keyAddr bep)
      let next := s.tbpGet (nextAddr bep)
      let tmp ← s.loadAt data size
      let rest ← walkLoop s fuel next
      return (key, tmp) :: rest

/-- The entries that `dump_all` visits, each with the bytes that it loads. -/
def dumpWalk (fuel : Nat) (kv : Pmemkv) : Option (List (Nat × List UInt8)) :=
  walkLoop kv.service fuel (kv.service.tbpGet (headAddr kv.bp))

/-- What `std::cout << tmp` prints: nobody terminates `tmp`, so without a zero byte in it the
print reads on behind it. -/
def cString : List UInt8 → Option (List UInt8)
  | [] => none
  | b :: rest => if b = 0 then some [] else (cString rest).map (b :: ·)

/-- `pmemkv::dump_all`, as the list of the keys and the values that it prints. -/
def dumpAll (fuel : Nat) (kv : Pmemkv) : Option (List (Nat × List UInt8)) := do
  let entries ← kv.dumpWalk fuel
  entries.mapM fun entry => (cString entry.2).map fun text => (entry.1, text)

end Pmemkv

/-! ## `free_meta` and `free_all` -/

/-- The inner loop of `free_meta`: free the nodes of one list. -/
def Index.freeBlocks : Nat → Index → Nat → Option Index
  | 0, ix, cur => if cur = 0 then some ix else none
  | fuel + 1, ix, cur =>
    if cur = 0 then
      some ix
    else do
      let b ← ix.metas cur
      freeBlocks fuel
        { ix with
          metas := upd ix.metas cur none
          bytesAllocated := Service.sub64 ix.bytesAllocated sizeofBlockMeta }
        b.next

/-- The outer loop of `free_meta`, over the pairs of the locked table. -/
def Index.freeLists (fuel : Nat) : List (Nat × Nat) → Index → Option Index
  | [], ix => some ix
  | (_, p) :: rest, ix => do
    let bml ← ix.lists p
    let ix ← ix.freeBlocks fuel bml.head
    freeLists fuel rest
      { ix with
        lists := upd ix.lists p none
        bytesAllocated := Service.sub64 ix.bytesAllocated sizeofBlockMetaList }

/-- `pmemkv::free_meta`. -/
def Index.freeMeta (fuel : Nat) (ix : Index) : Option (Int × Index) := do
  let ix ← freeLists fuel ix.map ix
  let ix := { ix with map := [] }
  -- assert(bytes_allocated == 0)
  if ix.bytesAllocated = 0 then
    return (0, ix)
  else
    none

namespace Pmemkv

/-- The loop of `free_all`: subtract the size of every entry from `bep` on. -/
def freeEntries (bp : Nat) : Nat → Service → Nat → Option Service
  | 0, s, bep => if bep = 0 then some s else none
  | fuel + 1, s, bep =>
    if bep = 0 then
      some s
    else
      let size := s.tbpGet (sizeAddr bep)
      let next := s.tbpGet (nextAddr bep)
      freeEntries bp fuel (s.tbpSub true (writtenAddr bp) size) next

/-- `pmemkv::free_all`. -/
def freeAll (fuel : Nat) (kv : Pmemkv) : Option (Int × Pmemkv) := do
  let s ← freeEntries kv.bp fuel kv.service (kv.service.tbpGet (headAddr kv.bp))
  let s := s.tbpSet true (headAddr kv.bp) 0
  let s := s.tbpSet true (tailAddr kv.bp) 0
  -- assert(TBPGet(&bp->bytes_written) == 0)
  if s.tbpGet (writtenAddr kv.bp) = 0 then
    let (code, ix) ← kv.index.freeMeta fuel
    if code ≠ 0 then
      return (-1, { kv with service := s, index := ix })
    else
      return (0, { kv with service := s, index := ix })
  else
    none

end Pmemkv

end SparkNvm.Native
