import Mathlib.Data.List.Nodup
import Mathlib.Logic.Function.Basic
import SparkNvm.Lib.Int32
import SparkNvm.Lib.Run

/-!
# Who frees the memory of an `nvmManagedBuffer`

Several threads share one `nvmManagedBuffer`: netty's threads send the block while a
task reads it.  The object counts its references, and the last `release` closes the
cached stream, whose `PmemBuffer` is native memory, and cleans the direct `ByteBuffer`.
Only the count is atomic and only `PmemBuffer.close` is synchronized: the fields
`inputStream` and `byteBuffer` are read and written without a lock.

* `NativeMemory`: the native buffers and the direct ones, what was freed of them and in
  which order.  An access to freed memory is undefined.
* `RefPc`, `BufferSystem.step`: the methods, one step for each access to a field, to the
  count or to native memory.
* `BufferSystem.Ok`: what the callers keep to.
* `freed_once`: in every interleaving nothing is used after it was freed and nothing is
  freed twice, and what is never freed is exactly what a race on `inputStream` replaced.
-/

namespace SparkNvm.Storage

open Lib

/-! ## The memory -/

/-- The `PmemBuffer`s that the streams made and the `ByteBuffer`s of `nioByteBuffer`, both
numbered in order. -/
structure NativeMemory where
  /-- How many `PmemBuffer`s were made. -/
  made : Nat
  /-- The `PmemBuffer`s whose flag `closed` is set. -/
  closed : List Nat
  /-- The calls of `nativeDeletePmemBuffer`. -/
  deleted : List Nat
  /-- How many direct `ByteBuffer`s were allocated. -/
  views : Nat
  /-- The `ByteBuffer`s whose cleaner has run. -/
  cleaned : List Nat
  deriving DecidableEq

namespace NativeMemory

def empty : NativeMemory := { made := 0, closed := [], deleted := [], views := 0, cleaned := [] }

/-- A native call on a `PmemBuffer`, or an access to its memory. -/
def touch (m : NativeMemory) (s : Nat) : Option NativeMemory :=
  if s ∈ m.deleted then none else some m

theorem touch_eq {m : NativeMemory} {s : Nat} (h : s ∉ m.deleted) : m.touch s = some m :=
  if_neg h

theorem made_of_touch {m m' : NativeMemory} {s : Nat} (h : m.touch s = some m') :
    m'.made = m.made := by
  unfold touch at h
  split_ifs at h
  rw [← Option.some.inj h]

/-- An access to a direct `ByteBuffer`. -/
def touchView (m : NativeMemory) (b : Nat) : Option NativeMemory :=
  if b ∈ m.cleaned then none else some m

theorem made_of_touchView {m m' : NativeMemory} {b : Nat} (h : m.touchView b = some m') :
    m'.made = m.made := by
  unfold touchView at h
  split_ifs at h
  rw [← Option.some.inj h]

/-- `nativeDeletePmemBuffer`. -/
def delete (m : NativeMemory) (s : Nat) : Option NativeMemory :=
  (m.touch s).map fun m => { m with deleted := m.deleted ++ [s] }

/-- `PmemBuffer.close()`, which is synchronized. -/
def close (m : NativeMemory) (s : Nat) : Option NativeMemory :=
  if s ∈ m.closed then some m
  else (m.delete s).map fun m => { m with closed := m.closed ++ [s] }

theorem close_eq {m : NativeMemory} {s : Nat} (hclosed : m.closed = m.deleted)
    (h : s ∉ m.deleted) :
    m.close s = some { m with closed := m.closed ++ [s], deleted := m.deleted ++ [s] } := by
  rw [close, if_neg (by rw [hclosed]; exact h), delete, touch_eq h]
  rfl

theorem close_of_deleted {m : NativeMemory} {s : Nat} (hclosed : m.closed = m.deleted)
    (h : s ∈ m.deleted) : m.close s = some m :=
  if_pos (by rw [hclosed]; exact h)

theorem made_of_close {m m' : NativeMemory} {s : Nat} (h : m.close s = some m') :
    m'.made = m.made := by
  unfold close at h
  split_ifs at h
  · rw [← Option.some.inj h]
  · obtain ⟨m₁, hdelete, rfl⟩ := Option.map_eq_some_iff.mp h
    obtain ⟨m₂, htouch, rfl⟩ := Option.map_eq_some_iff.mp hdelete
    show m₂.made = m.made
    exact made_of_touch htouch

/-- `cleaner.clean()`: a cleaner runs once. -/
def clean (m : NativeMemory) (b : Nat) : NativeMemory :=
  if b ∈ m.cleaned then m else { m with cleaned := m.cleaned ++ [b] }

theorem made_clean (m : NativeMemory) (b : Nat) : (m.clean b).made = m.made := by
  unfold clean
  split_ifs <;> rfl

theorem mem_clean (m : NativeMemory) (b : Nat) : b ∈ (m.clean b).cleaned := by
  unfold clean
  split_ifs with hmem
  · exact hmem
  · exact List.mem_append_right _ (List.mem_singleton_self b)

end NativeMemory

/-! ## The methods -/

/-- The method that asked for the stream. -/
inductive StreamUse where
  | createInputStream
  | nioByteBuffer
  | convertToNetty
  deriving DecidableEq, Repr

/-- Where a thread is, with the local values it still needs. -/
inductive RefPc where
  | idle
  /-- `if (inputStream == null)` -/
  | checkStream (use : StreamUse)
  /-- `inputStream = new nvmInputStream(pmHandler, blockId)` -/
  | newStream (use : StreamUse)
  /-- The value of `createInputStream`. -/
  | getStream (use : StreamUse)
  /-- `in.getByteBufferDirectAddr` -/
  | directAddr (s : Nat)
  /-- `byteBuffer = ByteBuffer.allocateDirect(data_length)` -/
  | allocateDirect (s : Nat)
  /-- `in.read(data)` -/
  | readStream (s : Nat)
  /-- `byteBuffer.put(data)` -/
  | putView
  /-- `byteBuffer.flip()` -/
  | flipView
  /-- The value of `nioByteBuffer`. -/
  | getView
  /-- `if (byteBuffer != null)`, after the last reference -/
  | checkView
  /-- `cleaner.clean()` -/
  | cleanView
  /-- `if (inputStream != null)` -/
  | checkLast
  /-- `inputStream.close()` -/
  | closeLast
  deriving DecidableEq, Repr

/-- A call of a thread.  `useStream` and `useView` are the accesses to what it was given:
reads from the stream or of the memory that the netty buffer wraps, and reads of the
`ByteBuffer`.  `hand` gives a reference to another thread. -/
inductive RefCall (ι : Type) where
  | createInputStream
  | nioByteBuffer
  | convertToNetty
  | retain
  | release
  | useStream (s : Nat)
  | useView (b : Nat)
  | closeStream (s : Nat)
  | hand (j : ι)
  deriving DecidableEq, Repr

inductive RefStep (ι : Type) where
  | call (i : ι) (c : RefCall ι)
  | go (i : ι)
  deriving DecidableEq, Repr

/-- One `nvmManagedBuffer` and its threads.  The last four fields are not in the source: who
holds the references, the streams and `ByteBuffer`s that each thread was given under the
references it holds, and the streams that their readers closed. -/
structure BufferSystem (ι : Type) where
  refCount : Int
  inputStream : Option Nat
  byteBuffer : Option Nat
  memory : NativeMemory
  pc : ι → RefPc
  holders : List ι
  streams : ι → List Nat
  views : ι → List Nat
  closes : List Nat

namespace BufferSystem

variable {ι : Type}

/-- A new object; its creator holds the one reference. -/
def init (i : ι) : BufferSystem ι where
  refCount := 1
  inputStream := none
  byteBuffer := none
  memory := .empty
  pc := fun _ => .idle
  holders := [i]
  streams := fun _ => []
  views := fun _ => []
  closes := []

section

variable [DecidableEq ι]

def goTo (sys : BufferSystem ι) (i : ι) (pc : RefPc) : BufferSystem ι :=
  { sys with pc := Function.update sys.pc i pc }

/-- A thread lets go of a reference.  With its last one it forgets what it was given. -/
def drop (sys : BufferSystem ι) (i : ι) : BufferSystem ι :=
  { sys with
    holders := sys.holders.erase i
    streams := if i ∈ sys.holders.erase i then sys.streams else Function.update sys.streams i []
    views := if i ∈ sys.holders.erase i then sys.views else Function.update sys.views i [] }

/-- The first step of a call. -/
def call (sys : BufferSystem ι) (i : ι) : RefCall ι → Option (BufferSystem ι)
  | .createInputStream => some (sys.goTo i (.checkStream .createInputStream))
  | .nioByteBuffer => some (sys.goTo i (.checkStream .nioByteBuffer))
  | .convertToNetty => some (sys.goTo i (.checkStream .convertToNetty))
  | .retain =>
    some { sys with refCount := wrap32 (sys.refCount + 1), holders := sys.holders ++ [i] }
  | .release =>
    let n := wrap32 (sys.refCount - 1)
    some { (sys.drop i).goTo i (if n = 0 then .checkView else .idle) with refCount := n }
  | .useStream s => (sys.memory.touch s).map fun m => { sys with memory := m }
  | .useView b => (sys.memory.touchView b).map fun m => { sys with memory := m }
  | .closeStream s => (sys.memory.close s).map fun m =>
    { sys with
      memory := m
      streams := Function.update sys.streams i ((sys.streams i).filter (· ≠ s))
      closes := sys.closes ++ [s] }
  | .hand j => some { sys.drop i with holders := (sys.drop i).holders ++ [j] }

/-- A further step of the method that a thread is in. -/
def go (sys : BufferSystem ι) (i : ι) : RefPc → Option (BufferSystem ι)
  | .idle => none
  | .checkStream use =>
    some (sys.goTo i (if sys.inputStream = none then .newStream use else .getStream use))
  | .newStream use =>
    some { sys.goTo i (.getStream use) with
      inputStream := some sys.memory.made
      memory := { sys.memory with made := sys.memory.made + 1 } }
  | .getStream use => sys.inputStream.map fun s =>
    match use with
    | .createInputStream =>
      { sys.goTo i .idle with streams := Function.update sys.streams i (s :: sys.streams i) }
    | .nioByteBuffer => sys.goTo i (.allocateDirect s)
    | .convertToNetty => sys.goTo i (.directAddr s)
  | .directAddr s => (sys.memory.touch s).map fun m =>
    { sys.goTo i .idle with
      memory := m, streams := Function.update sys.streams i (s :: sys.streams i) }
  | .allocateDirect s =>
    some { sys.goTo i (.readStream s) with
      byteBuffer := some sys.memory.views
      memory := { sys.memory with views := sys.memory.views + 1 } }
  | .readStream s => (sys.memory.touch s).map fun m => { sys.goTo i .putView with memory := m }
  | .putView => do
    let b ← sys.byteBuffer
    let m ← sys.memory.touchView b
    return { sys.goTo i .flipView with memory := m }
  | .flipView => do
    let b ← sys.byteBuffer
    let m ← sys.memory.touchView b
    return { sys.goTo i .getView with memory := m }
  | .getView => sys.byteBuffer.map fun b =>
    { sys.goTo i .idle with views := Function.update sys.views i (b :: sys.views i) }
  | .checkView => some (sys.goTo i (if sys.byteBuffer = none then .checkLast else .cleanView))
  | .cleanView => sys.byteBuffer.map fun b =>
    { sys.goTo i .checkLast with memory := sys.memory.clean b }
  | .checkLast => some (sys.goTo i (if sys.inputStream = none then .idle else .closeLast))
  | .closeLast => do
    let s ← sys.inputStream
    let m ← sys.memory.close s
    return { sys.goTo i .idle with memory := m }

/-- One step.  A thread makes its next call when it has returned from the last one. -/
def step (sys : BufferSystem ι) : RefStep ι → Option (BufferSystem ι)
  | .call i c => if sys.pc i = .idle then sys.call i c else none
  | .go i => sys.go i (sys.pc i)

end

/-! ## What the callers keep to -/

/-- A thread calls while it holds a reference.  It uses what it was given under it, asks for a
stream only while the cached one is open, and closes a stream only when nobody else holds a
reference.  The count does not overflow. -/
def CallOk (sys : BufferSystem ι) (i : ι) : RefCall ι → Prop
  | .createInputStream => ∀ s ∈ sys.inputStream, s ∉ sys.memory.closed
  | .nioByteBuffer => ∀ s ∈ sys.inputStream, s ∉ sys.memory.closed
  | .convertToNetty => ∀ s ∈ sys.inputStream, s ∉ sys.memory.closed
  | .retain => sys.holders.length + 1 < 2 ^ 31
  | .release => True
  | .useStream s => s ∈ sys.streams i
  | .useView b => b ∈ sys.views i
  | .closeStream s => s ∈ sys.streams i ∧ ∀ j ∈ sys.holders, j = i
  | .hand _ => True

def Ok (sys : BufferSystem ι) : RefStep ι → Prop
  | .call i c => sys.pc i = .idle ∧ i ∈ sys.holders ∧ sys.CallOk i c
  | .go i => sys.pc i ≠ .idle

/-- No thread finds the field `inputStream` empty while another is about to set it. -/
def NoRace (sys : BufferSystem ι) : RefStep ι → Prop
  | .go i => (∃ use, sys.pc i = .checkStream use) → sys.inputStream = none →
    ∀ j use, sys.pc j ≠ .newStream use
  | .call _ _ => True

/-- Every reference was released and every method has returned. -/
def Released (sys : BufferSystem ι) : Prop := sys.holders = [] ∧ ∀ i, sys.pc i = .idle

/-! ## The invariant -/

/-- The cached stream can still be used. -/
def Open (sys : BufferSystem ι) : Prop := ∀ s ∈ sys.inputStream, s ∉ sys.memory.deleted

/-- The thread that released the last reference is the only one left. -/
def Last (sys : BufferSystem ι) (i : ι) : Prop :=
  sys.holders = [] ∧ ∀ j, j ≠ i → sys.pc j = .idle

/-- What a thread knows where it is. -/
def PcOk (sys : BufferSystem ι) (i : ι) : RefPc → Prop
  | .idle => True
  | .checkStream _ => i ∈ sys.holders ∧ sys.Open
  | .newStream _ => i ∈ sys.holders ∧ sys.Open
  | .getStream _ => i ∈ sys.holders ∧ sys.Open ∧ sys.inputStream ≠ none
  | .directAddr s => i ∈ sys.holders ∧ s < sys.memory.made ∧ s ∉ sys.memory.deleted
  | .allocateDirect s => i ∈ sys.holders ∧ s < sys.memory.made ∧ s ∉ sys.memory.deleted
  | .readStream s =>
    i ∈ sys.holders ∧ (s < sys.memory.made ∧ s ∉ sys.memory.deleted) ∧ sys.byteBuffer ≠ none
  | .putView => i ∈ sys.holders ∧ sys.byteBuffer ≠ none
  | .flipView => i ∈ sys.holders ∧ sys.byteBuffer ≠ none
  | .getView => i ∈ sys.holders ∧ sys.byteBuffer ≠ none
  | .checkView => sys.Last i
  | .cleanView => sys.Last i ∧ sys.byteBuffer ≠ none
  | .checkLast => sys.Last i ∧ ∀ b ∈ sys.byteBuffer, b ∈ sys.memory.cleaned
  | .closeLast =>
    sys.Last i ∧ (∀ b ∈ sys.byteBuffer, b ∈ sys.memory.cleaned) ∧ sys.inputStream ≠ none

/-- While there are references nothing is freed but what a reader closed. -/
structure Inv (sys : BufferSystem ι) : Prop where
  count : sys.refCount = sys.holders.length
  bound : sys.holders.length < 2 ^ 31
  pcs : ∀ i, sys.PcOk i (sys.pc i)
  closed_eq : sys.memory.closed = sys.memory.deleted
  deleted_nodup : sys.memory.deleted.Nodup
  deleted_lt : ∀ s ∈ sys.memory.deleted, s < sys.memory.made
  cached_lt : ∀ s ∈ sys.inputStream, s < sys.memory.made
  streams_open : ∀ i, ∀ s ∈ sys.streams i, s < sys.memory.made ∧ s ∉ sys.memory.deleted
  streams_held : ∀ i, sys.streams i ≠ [] → i ∈ sys.holders
  views_held : ∀ i, sys.views i ≠ [] → i ∈ sys.holders
  uncleaned : sys.holders ≠ [] → sys.memory.cleaned = []
  cleaned_nodup : sys.memory.cleaned.Nodup
  cleaned_eq : ∀ b ∈ sys.memory.cleaned, sys.byteBuffer = some b
  closes_deleted : ∀ s ∈ sys.closes, s ∈ sys.memory.deleted
  deleted_by : ∀ s ∈ sys.memory.deleted,
    s ∈ sys.closes ∨ sys.inputStream = some s ∧ sys.holders = []
  ended : sys.Released → (∀ b ∈ sys.byteBuffer, b ∈ sys.memory.cleaned) ∧
    ∀ s ∈ sys.inputStream, s ∈ sys.memory.deleted

theorem inv_init (i : ι) : (init i).Inv where
  count := rfl
  bound := Nat.one_lt_two_pow (by decide)
  pcs _ := trivial
  closed_eq := rfl
  deleted_nodup := List.nodup_nil
  deleted_lt _ hs := absurd hs List.not_mem_nil
  cached_lt _ hs := absurd hs (Option.not_mem_none _)
  streams_open _ _ hs := absurd hs List.not_mem_nil
  streams_held _ h := absurd rfl h
  views_held _ h := absurd rfl h
  uncleaned _ := rfl
  cleaned_nodup := List.nodup_nil
  cleaned_eq _ hb := absurd hb List.not_mem_nil
  closes_deleted _ hs := absurd hs List.not_mem_nil
  deleted_by _ hs := absurd hs List.not_mem_nil
  ended h := absurd h.1 (List.cons_ne_nil _ _)

/-! ## Steps of a thread that holds a reference -/

/-- A step that frees nothing and moves no reference.  It may set the two fields, to something
new, and give its thread something. -/
structure SharingStep (sys sys' : BufferSystem ι) (i : ι) : Prop where
  holder : i ∈ sys.holders
  refCount : sys'.refCount = sys.refCount
  holders : sys'.holders = sys.holders
  closes : sys'.closes = sys.closes
  closed : sys'.memory.closed = sys.memory.closed
  deleted : sys'.memory.deleted = sys.memory.deleted
  cleaned : sys'.memory.cleaned = sys.memory.cleaned
  made : sys.memory.made ≤ sys'.memory.made
  stream : sys'.inputStream = sys.inputStream ∨
    sys'.inputStream = some sys.memory.made ∧ sys.memory.made < sys'.memory.made
  view : sys.byteBuffer ≠ none → sys'.byteBuffer ≠ none
  pc : ∀ j, j ≠ i → sys'.pc j = sys.pc j
  streams : ∀ j, j ≠ i → sys'.streams j = sys.streams j
  views : ∀ j, j ≠ i → sys'.views j = sys.views j
  given : ∀ s ∈ sys'.streams i, s < sys'.memory.made ∧ s ∉ sys'.memory.deleted

section

variable {sys sys' : BufferSystem ι} {i j : ι}

theorem not_last (hi : i ∈ sys.holders) : ¬sys.Last j :=
  fun hlast => absurd hi (by rw [hlast.1]; exact List.not_mem_nil)

/-- What a thread knows stays true while references are held, whatever others do, unless they
free something it knows of. -/
theorem PcOk.frame {pc : RefPc} (hpc : sys.PcOk j pc) (hne : sys.holders ≠ [])
    (hheld : pc ≠ .idle → j ∈ sys.holders → j ∈ sys'.holders) (hopen : sys.Open → sys'.Open)
    (hstream : sys.inputStream ≠ none → sys'.inputStream ≠ none)
    (hview : sys.byteBuffer ≠ none → sys'.byteBuffer ≠ none)
    (hlive : ∀ s, s < sys.memory.made ∧ s ∉ sys.memory.deleted →
      s < sys'.memory.made ∧ s ∉ sys'.memory.deleted) : sys'.PcOk j pc := by
  obtain ⟨k, hk⟩ := List.exists_mem_of_ne_nil _ hne
  cases pc with
  | idle => trivial
  | checkStream => exact ⟨hheld nofun hpc.1, hopen hpc.2⟩
  | newStream => exact ⟨hheld nofun hpc.1, hopen hpc.2⟩
  | getStream => exact ⟨hheld nofun hpc.1, hopen hpc.2.1, hstream hpc.2.2⟩
  | directAddr s => exact ⟨hheld nofun hpc.1, hlive s hpc.2⟩
  | allocateDirect s => exact ⟨hheld nofun hpc.1, hlive s hpc.2⟩
  | readStream s => exact ⟨hheld nofun hpc.1, hlive s hpc.2.1, hview hpc.2.2⟩
  | putView => exact ⟨hheld nofun hpc.1, hview hpc.2⟩
  | flipView => exact ⟨hheld nofun hpc.1, hview hpc.2⟩
  | getView => exact ⟨hheld nofun hpc.1, hview hpc.2⟩
  | checkView => exact absurd hpc (not_last hk)
  | cleanView => exact absurd hpc.1 (not_last hk)
  | checkLast => exact absurd hpc.1 (not_last hk)
  | closeLast => exact absurd hpc.1 (not_last hk)

theorem SharingStep.open_of_open (hstep : SharingStep sys sys' i) (h : sys.Inv) (hopen : sys.Open) :
    sys'.Open := by
  intro s hs
  rw [hstep.deleted]
  rcases hstep.stream with hsame | ⟨hnew, _⟩
  · exact hopen s (hsame ▸ hs)
  · rw [hnew, Option.mem_some_iff] at hs
    intro hdeleted
    exact absurd (h.deleted_lt s hdeleted) (by omega)

theorem SharingStep.stream_ne (hstep : SharingStep sys sys' i) (hne : sys.inputStream ≠ none) :
    sys'.inputStream ≠ none := by
  rcases hstep.stream with hsame | ⟨hnew, _⟩
  · rwa [hsame]
  · rw [hnew]
    exact Option.some_ne_none _

theorem SharingStep.pcOk (hstep : SharingStep sys sys' i) (h : sys.Inv) {pc : RefPc}
    (hpc : sys.PcOk j pc) : sys'.PcOk j pc := by
  apply hpc.frame (List.ne_nil_of_mem hstep.holder) _ (hstep.open_of_open h) hstep.stream_ne
    hstep.view
  · intro s hs
    rw [hstep.deleted]
    exact ⟨Nat.lt_of_lt_of_le hs.1 hstep.made, hs.2⟩
  · intro _ hj
    rw [hstep.holders]
    exact hj

theorem Inv.sharing (h : sys.Inv) (hstep : SharingStep sys sys' i) (hpc : sys'.PcOk i (sys'.pc i)) :
    sys'.Inv where
  count := by rw [hstep.refCount, hstep.holders, h.count]
  bound := by rw [hstep.holders]; exact h.bound
  pcs j := by
    by_cases hj : j = i
    · rw [hj]; exact hpc
    · rw [hstep.pc j hj]
      exact hstep.pcOk h (h.pcs j)
  closed_eq := by rw [hstep.closed, hstep.deleted, h.closed_eq]
  deleted_nodup := by rw [hstep.deleted]; exact h.deleted_nodup
  deleted_lt s hs := Nat.lt_of_lt_of_le (h.deleted_lt s (hstep.deleted ▸ hs)) hstep.made
  cached_lt s hs := by
    rcases hstep.stream with hsame | ⟨hnew, hlt⟩
    · exact Nat.lt_of_lt_of_le (h.cached_lt s (hsame ▸ hs)) hstep.made
    · rw [hnew, Option.mem_some_iff] at hs
      omega
  streams_open j s hs := by
    by_cases hj : j = i
    · exact hstep.given s (hj ▸ hs)
    · rw [hstep.streams j hj] at hs
      have hopen := h.streams_open j s hs
      exact ⟨Nat.lt_of_lt_of_le hopen.1 hstep.made, hstep.deleted ▸ hopen.2⟩
  streams_held j hne := by
    rw [hstep.holders]
    by_cases hj : j = i
    · rw [hj]; exact hstep.holder
    · exact h.streams_held j (hstep.streams j hj ▸ hne)
  views_held j hne := by
    rw [hstep.holders]
    by_cases hj : j = i
    · rw [hj]; exact hstep.holder
    · exact h.views_held j (hstep.views j hj ▸ hne)
  uncleaned hne := by rw [hstep.cleaned]; exact h.uncleaned (hstep.holders ▸ hne)
  cleaned_nodup := by rw [hstep.cleaned]; exact h.cleaned_nodup
  cleaned_eq b hb := by
    rw [hstep.cleaned, h.uncleaned (List.ne_nil_of_mem hstep.holder)] at hb
    exact absurd hb List.not_mem_nil
  closes_deleted s hs := by rw [hstep.deleted]; exact h.closes_deleted s (hstep.closes ▸ hs)
  deleted_by s hs := by
    rw [hstep.deleted] at hs
    rcases h.deleted_by s hs with hclosed | ⟨_, hnone⟩
    · exact .inl (hstep.closes ▸ hclosed)
    · exact absurd hnone (List.ne_nil_of_mem hstep.holder)
  ended hreleased :=
    absurd hreleased.1 (by rw [hstep.holders]; exact List.ne_nil_of_mem hstep.holder)

/-- While there is a reference every `ByteBuffer` can be used. -/
theorem Inv.touchView (h : sys.Inv) (hi : i ∈ sys.holders) (b : Nat) :
    sys.memory.touchView b = some sys.memory :=
  if_neg (by rw [h.uncleaned (List.ne_nil_of_mem hi)]; exact List.not_mem_nil)

section

variable [DecidableEq ι]

/-- The steps that only move the thread on. -/
theorem SharingStep.goTo (h : sys.Inv) (hi : i ∈ sys.holders) (pc : RefPc) :
    SharingStep sys (sys.goTo i pc) i where
  holder := hi
  refCount := rfl
  holders := rfl
  closes := rfl
  closed := rfl
  deleted := rfl
  cleaned := rfl
  made := Nat.le_refl _
  stream := .inl rfl
  view := id
  pc _ hj := Function.update_of_ne hj _ _
  streams _ _ := rfl
  views _ _ := rfl
  given := h.streams_open i

/-- The thread is given a stream that nobody has closed. -/
theorem SharingStep.give (h : sys.Inv) (hi : i ∈ sys.holders) {s : Nat}
    (hlt : s < sys.memory.made) (hs : s ∉ sys.memory.deleted) (pc : RefPc) :
    SharingStep sys { sys.goTo i pc with
      streams := Function.update sys.streams i (s :: sys.streams i) } i :=
  { SharingStep.goTo h hi pc with
    streams := fun _ hj => Function.update_of_ne hj _ _
    given := by
      show ∀ s' ∈ Function.update sys.streams i (s :: sys.streams i) i, _
      rw [Function.update_self]
      exact List.forall_mem_cons.mpr ⟨⟨hlt, hs⟩, h.streams_open i⟩ }

theorem SharingStep.newStream (h : sys.Inv) (hi : i ∈ sys.holders) (pc : RefPc) :
    SharingStep sys { sys.goTo i pc with
      inputStream := some sys.memory.made
      memory := { sys.memory with made := sys.memory.made + 1 } } i :=
  { SharingStep.goTo h hi pc with
    made := Nat.le_succ _
    stream := .inr ⟨rfl, Nat.lt_succ_self _⟩
    given := fun s hs =>
      ⟨Nat.lt_succ_of_lt (h.streams_open i s hs).1, (h.streams_open i s hs).2⟩ }

theorem SharingStep.allocateDirect (h : sys.Inv) (hi : i ∈ sys.holders) (pc : RefPc) :
    SharingStep sys { sys.goTo i pc with
      byteBuffer := some sys.memory.views
      memory := { sys.memory with views := sys.memory.views + 1 } } i :=
  { SharingStep.goTo h hi pc with view := fun _ => Option.some_ne_none _ }

theorem SharingStep.getView (h : sys.Inv) (hi : i ∈ sys.holders) (b : Nat) (pc : RefPc) :
    SharingStep sys { sys.goTo i pc with
      views := Function.update sys.views i (b :: sys.views i) } i :=
  { SharingStep.goTo h hi pc with views := fun _ hj => Function.update_of_ne hj _ _ }

theorem goTo_pc (sys : BufferSystem ι) (i : ι) (pc : RefPc) : (sys.goTo i pc).pc i = pc :=
  Function.update_self _ _ _

theorem Inv.goTo (h : sys.Inv) (hi : i ∈ sys.holders) {pc : RefPc} (hpc : sys.PcOk i pc) :
    (sys.goTo i pc).Inv :=
  h.sharing (.goTo h hi pc) (by rw [goTo_pc]; exact (SharingStep.goTo h hi pc).pcOk h hpc)

/-- A thread in `createInputStream`, `nioByteBuffer` or `convertToNetty`. -/
theorem Inv.go_sharing (h : sys.Inv) (hi : i ∈ sys.holders) {pc : RefPc} (hpc : sys.PcOk i pc)
    (hidle : pc ≠ .idle) : ∃ sys', sys.go i pc = some sys' ∧ sys'.Inv := by
  cases pc with
  | idle => exact absurd rfl hidle
  | checkStream use =>
    refine ⟨_, rfl, h.goTo hi ?_⟩
    by_cases hnone : sys.inputStream = none
    · rw [if_pos hnone]
      exact hpc
    · rw [if_neg hnone]
      exact ⟨hpc.1, hpc.2, hnone⟩
  | newStream use =>
    have hstep := SharingStep.newStream h hi (.getStream use)
    refine ⟨_, rfl, h.sharing hstep ?_⟩
    rw [goTo_pc]
    exact ⟨hi, hstep.open_of_open h hpc.2, Option.some_ne_none _⟩
  | getStream use =>
    obtain ⟨s, hs⟩ := Option.ne_none_iff_exists'.mp hpc.2.2
    have hlt := h.cached_lt s hs
    have hopen := hpc.2.1 s hs
    rw [BufferSystem.go, hs, Option.map_some]
    refine ⟨_, rfl, ?_⟩
    cases use with
    | createInputStream =>
      exact h.sharing (.give h hi hlt hopen .idle) (by rw [goTo_pc]; trivial)
    | nioByteBuffer => exact h.goTo hi ⟨hi, hlt, hopen⟩
    | convertToNetty => exact h.goTo hi ⟨hi, hlt, hopen⟩
  | directAddr s =>
    rw [BufferSystem.go, NativeMemory.touch_eq hpc.2.2, Option.map_some]
    exact ⟨_, rfl, h.sharing (.give h hi hpc.2.1 hpc.2.2 .idle) (by rw [goTo_pc]; trivial)⟩
  | allocateDirect s =>
    have hstep := SharingStep.allocateDirect h hi (.readStream s)
    refine ⟨_, rfl, h.sharing hstep ?_⟩
    rw [goTo_pc]
    exact ⟨hi, hpc.2, Option.some_ne_none _⟩
  | readStream s =>
    rw [BufferSystem.go, NativeMemory.touch_eq hpc.2.1.2, Option.map_some]
    exact ⟨_, rfl, h.goTo hi (show sys.PcOk i .putView from ⟨hi, hpc.2.2⟩)⟩
  | putView =>
    obtain ⟨b, hb⟩ := Option.ne_none_iff_exists'.mp hpc.2
    simp only [BufferSystem.go, hb, h.touchView hi b, Option.bind_eq_bind, Option.bind_some]
    exact ⟨_, rfl, h.goTo hi (show sys.PcOk i .flipView from ⟨hi, hpc.2⟩)⟩
  | flipView =>
    obtain ⟨b, hb⟩ := Option.ne_none_iff_exists'.mp hpc.2
    simp only [BufferSystem.go, hb, h.touchView hi b, Option.bind_eq_bind, Option.bind_some]
    exact ⟨_, rfl, h.goTo hi (show sys.PcOk i .getView from ⟨hi, hpc.2⟩)⟩
  | getView =>
    obtain ⟨b, hb⟩ := Option.ne_none_iff_exists'.mp hpc.2
    rw [BufferSystem.go, hb, Option.map_some]
    exact ⟨_, rfl, h.sharing (.getView h hi b .idle) (by rw [goTo_pc]; trivial)⟩
  | checkView => exact absurd hpc (not_last hi)
  | cleanView => exact absurd hpc.1 (not_last hi)
  | checkLast => exact absurd hpc.1 (not_last hi)
  | closeLast => exact absurd hpc.1 (not_last hi)

/-! ## References -/

/-- A step that only moves references, and leaves some. -/
structure MovingStep (sys sys' : BufferSystem ι) : Prop where
  count : sys'.refCount = sys'.holders.length
  bound : sys'.holders.length < 2 ^ 31
  before : sys.holders ≠ []
  after : sys'.holders ≠ []
  keeps : ∀ j, sys.pc j ≠ .idle → j ∈ sys.holders → j ∈ sys'.holders
  pc : sys'.pc = sys.pc
  inputStream : sys'.inputStream = sys.inputStream
  byteBuffer : sys'.byteBuffer = sys.byteBuffer
  memory : sys'.memory = sys.memory
  closes : sys'.closes = sys.closes
  streams : ∀ j, sys'.streams j ≠ [] → j ∈ sys'.holders ∧ sys'.streams j = sys.streams j
  views : ∀ j, sys'.views j ≠ [] → j ∈ sys'.holders

omit [DecidableEq ι] in
theorem MovingStep.pcOk (hstep : MovingStep sys sys') (h : sys.Inv) (j : ι) :
    sys'.PcOk j (sys'.pc j) := by
  rw [hstep.pc]
  apply (h.pcs j).frame hstep.before (hstep.keeps j)
  · rw [Open, Open, hstep.inputStream, hstep.memory]
    exact id
  · rw [hstep.inputStream]
    exact id
  · rw [hstep.byteBuffer]
    exact id
  · rw [hstep.memory]
    exact fun _ => id

omit [DecidableEq ι] in
theorem Inv.move (h : sys.Inv) (hstep : MovingStep sys sys') : sys'.Inv where
  count := hstep.count
  bound := hstep.bound
  pcs := hstep.pcOk h
  closed_eq := by rw [hstep.memory]; exact h.closed_eq
  deleted_nodup := by rw [hstep.memory]; exact h.deleted_nodup
  deleted_lt := by rw [hstep.memory]; exact h.deleted_lt
  cached_lt := by rw [hstep.memory, hstep.inputStream]; exact h.cached_lt
  streams_open j s hs := by
    rw [(hstep.streams j (List.ne_nil_of_mem hs)).2] at hs
    rw [hstep.memory]
    exact h.streams_open j s hs
  streams_held j hne := (hstep.streams j hne).1
  views_held := hstep.views
  uncleaned _ := by rw [hstep.memory]; exact h.uncleaned hstep.before
  cleaned_nodup := by rw [hstep.memory]; exact h.cleaned_nodup
  cleaned_eq b hb := by
    rw [hstep.memory, h.uncleaned hstep.before] at hb
    exact absurd hb List.not_mem_nil
  closes_deleted := by rw [hstep.memory, hstep.closes]; exact h.closes_deleted
  deleted_by s hs := by
    rw [hstep.memory] at hs
    rcases h.deleted_by s hs with hclosed | ⟨_, hnone⟩
    · exact .inl (hstep.closes ▸ hclosed)
    · exact absurd hnone hstep.before
  ended hreleased := absurd hreleased.1 hstep.after

theorem forget_held {f : ι → List Nat} {holders : List ι} (hf : ∀ j, f j ≠ [] → j ∈ holders)
    (hne : (if i ∈ holders.erase i then f else Function.update f i []) j ≠ []) :
    j ∈ holders.erase i ∧ (if i ∈ holders.erase i then f else Function.update f i []) j = f j := by
  by_cases hi : i ∈ holders.erase i
  · rw [if_pos hi] at hne ⊢
    refine ⟨?_, rfl⟩
    by_cases hj : j = i
    · rw [hj]
      exact hi
    · exact (List.mem_erase_of_ne hj).mpr (hf j hne)
  · rw [if_neg hi] at hne ⊢
    by_cases hj : j = i
    · rw [hj, Function.update_self] at hne
      exact absurd rfl hne
    · rw [Function.update_of_ne hj] at hne ⊢
      exact ⟨(List.mem_erase_of_ne hj).mpr (hf j hne), rfl⟩

omit [DecidableEq ι] in
/-- While there are references only their holders are inside a method. -/
theorem PcOk.held {pc : RefPc} (hpc : sys.PcOk j pc) (hi : i ∈ sys.holders) (hbusy : pc ≠ .idle) :
    j ∈ sys.holders := by
  cases pc with
  | idle => exact absurd rfl hbusy
  | checkView => exact absurd hpc (not_last hi)
  | cleanView => exact absurd hpc.1 (not_last hi)
  | checkLast => exact absurd hpc.1 (not_last hi)
  | closeLast => exact absurd hpc.1 (not_last hi)
  | _ => exact hpc.1

omit [DecidableEq ι] in
theorem Inv.idle_of_not_held (h : sys.Inv) (hi : i ∈ sys.holders) (hj : j ∉ sys.holders) :
    sys.pc j = .idle :=
  not_not.mp fun hbusy => hj ((h.pcs j).held hi hbusy)

omit [DecidableEq ι] in
theorem Inv.retain (h : sys.Inv) (hi : i ∈ sys.holders)
    (hbound : sys.holders.length + 1 < 2 ^ 31) :
    Inv { sys with refCount := wrap32 (sys.refCount + 1), holders := sys.holders ++ [i] } := by
  apply h.move
  refine ⟨?_, ?_, List.ne_nil_of_mem hi, by simp, ?_, rfl, rfl, rfl, rfl, rfl, ?_, ?_⟩
  · show wrap32 (sys.refCount + 1) = _
    rw [h.count, List.length_append, List.length_singleton, wrap32_of_fits (by omega) (by omega)]
    omega
  · show (sys.holders ++ [i]).length < _
    rw [List.length_append, List.length_singleton]
    exact hbound
  · exact fun j _ hj => List.mem_append_left _ hj
  · exact fun j hne => ⟨List.mem_append_left _ (h.streams_held j hne), rfl⟩
  · exact fun j hne => List.mem_append_left _ (h.views_held j hne)

theorem Inv.hand (h : sys.Inv) (hidle : sys.pc i = .idle) (hi : i ∈ sys.holders) (j : ι) :
    Inv { sys.drop i with holders := (sys.drop i).holders ++ [j] } := by
  have hpos := List.length_pos_of_mem hi
  have hlen : ((sys.drop i).holders ++ [j]).length = sys.holders.length := by
    rw [List.length_append, List.length_singleton]
    show (sys.holders.erase i).length + 1 = _
    rw [List.length_erase_of_mem hi]
    omega
  apply h.move
  refine ⟨?_, ?_, List.ne_nil_of_mem hi, by simp, ?_, rfl, rfl, rfl, rfl, rfl, ?_, ?_⟩
  · show sys.refCount = (((sys.drop i).holders ++ [j]).length : Nat)
    rw [hlen, h.count]
  · show ((sys.drop i).holders ++ [j]).length < _
    rw [hlen]
    exact h.bound
  · intro k hk hheld
    have hne : k ≠ i := fun heq => hk (heq ▸ hidle)
    exact List.mem_append_left _ ((List.mem_erase_of_ne hne).mpr hheld)
  · intro k hne
    obtain ⟨hk, hsame⟩ := forget_held h.streams_held hne
    exact ⟨List.mem_append_left _ hk, hsame⟩
  · exact fun k hne => List.mem_append_left _ (forget_held h.views_held hne).1

/-- A `release` that leaves references. -/
theorem Inv.release_some (h : sys.Inv) (hidle : sys.pc i = .idle) (hi : i ∈ sys.holders)
    (hmore : sys.holders.length ≠ 1) {n : Int} (hn : n = sys.refCount - 1) :
    Inv { (sys.drop i).goTo i .idle with refCount := n } := by
  have hpos := List.length_pos_of_mem hi
  have hlen : (sys.holders.erase i).length = sys.holders.length - 1 :=
    List.length_erase_of_mem hi
  have hbound := h.bound
  apply h.move
  refine ⟨?_, ?_, List.ne_nil_of_mem hi, ?_, ?_, ?_, rfl, rfl, rfl, rfl, ?_, ?_⟩
  · show n = ((sys.holders.erase i).length : Nat)
    rw [hlen, hn, h.count]
    omega
  · show (sys.holders.erase i).length < _
    omega
  · exact List.ne_nil_of_length_pos (show 0 < (sys.holders.erase i).length by omega)
  · intro k hk hheld
    have hne : k ≠ i := fun heq => hk (heq ▸ hidle)
    exact (List.mem_erase_of_ne hne).mpr hheld
  · show Function.update sys.pc i .idle = sys.pc
    rw [← hidle, Function.update_eq_self]
  · exact fun k hne => forget_held h.streams_held hne
  · exact fun k hne => (forget_held h.views_held hne).1

/-- The last `release`. -/
theorem Inv.release_last (h : sys.Inv) (hi : i ∈ sys.holders) (hone : sys.holders.length = 1) :
    Inv { (sys.drop i).goTo i .checkView with refCount := 0 } := by
  obtain ⟨k, hk⟩ := List.length_eq_one_iff.mp hone
  have hki : k = i := by
    rw [hk, List.mem_singleton] at hi
    exact hi.symm
  have hnone : sys.holders.erase i = [] := by rw [hk, hki, List.erase_cons_head]
  have huncleaned := h.uncleaned (List.ne_nil_of_mem hi)
  have hothers : ∀ j, j ≠ i → sys.pc j = .idle := fun j hj =>
    h.idle_of_not_held hi (by rw [hk, hki, List.mem_singleton]; exact hj)
  constructor
  · show (0 : Int) = ((sys.holders.erase i).length : Nat)
    rw [hnone]
    rfl
  · show (sys.holders.erase i).length < _
    rw [hnone]
    exact Nat.two_pow_pos 31
  · intro j
    by_cases hj : j = i
    · rw [hj, goTo_pc]
      exact ⟨hnone, fun j hj => (Function.update_of_ne hj _ _).trans (hothers j hj)⟩
    · have hpc : ((sys.drop i).goTo i .checkView).pc j = .idle :=
        (Function.update_of_ne hj _ _).trans (hothers j hj)
      rw [hpc]
      trivial
  · exact h.closed_eq
  · exact h.deleted_nodup
  · exact h.deleted_lt
  · exact h.cached_lt
  · intro j s hs
    exact absurd (forget_held h.streams_held (List.ne_nil_of_mem hs)).1
      (by rw [hnone]; exact List.not_mem_nil)
  · exact fun j hne => (forget_held h.streams_held hne).1
  · exact fun j hne => (forget_held h.views_held hne).1
  · exact fun hne => absurd hnone hne
  · exact h.cleaned_nodup
  · intro b hb
    exact absurd (show b ∈ sys.memory.cleaned from hb) (by rw [huncleaned]; exact List.not_mem_nil)
  · exact h.closes_deleted
  · intro s hs
    rcases h.deleted_by s hs with hclosed | ⟨_, hnone'⟩
    · exact .inl hclosed
    · exact absurd hnone' (List.ne_nil_of_mem hi)
  · intro hreleased
    have hpc := hreleased.2 i
    rw [goTo_pc] at hpc
    exact absurd hpc nofun

/-! ## What is freed -/

/-- A reader that is the only holder closes its stream. -/
theorem Inv.closeStream (h : sys.Inv) (hidle : sys.pc i = .idle) (hi : i ∈ sys.holders) {s : Nat}
    (hs : s ∈ sys.streams i) (honly : ∀ j ∈ sys.holders, j = i) :
    ∃ sys', sys.call i (.closeStream s) = some sys' ∧ sys'.Inv := by
  obtain ⟨hlt, hopen⟩ := h.streams_open i s hs
  have hpcs : ∀ j, sys.pc j = .idle := by
    intro j
    by_cases hj : j = i
    · rw [hj, hidle]
    · exact h.idle_of_not_held hi fun hheld => hj (honly j hheld)
  have hstreams : ∀ j,
      ∀ a ∈ Function.update sys.streams i ((sys.streams i).filter (· ≠ s)) j,
      j = i ∧ a ∈ sys.streams i ∧ a ≠ s := by
    intro j a ha
    by_cases hj : j = i
    · rw [hj, Function.update_self, List.mem_filter] at ha
      exact ⟨hj, ha.1, of_decide_eq_true ha.2⟩
    · rw [Function.update_of_ne hj] at ha
      exact absurd (honly j (h.streams_held j (List.ne_nil_of_mem ha))) hj
  rw [BufferSystem.call, NativeMemory.close_eq h.closed_eq hopen, Option.map_some]
  refine ⟨_, rfl, ?_⟩
  constructor
  · exact h.count
  · exact h.bound
  · intro j
    rw [hpcs j]
    trivial
  · exact congrArg (· ++ [s]) h.closed_eq
  · exact List.nodup_append.mpr ⟨h.deleted_nodup, List.nodup_singleton s, fun a ha b hb heq =>
      hopen (List.mem_singleton.mp hb ▸ heq ▸ ha)⟩
  · intro a ha
    rcases List.mem_append.mp ha with ha | ha
    · exact h.deleted_lt a ha
    · rw [List.mem_singleton.mp ha]
      exact hlt
  · exact h.cached_lt
  · intro j a ha
    obtain ⟨_, ha, hne⟩ := hstreams j a ha
    refine ⟨(h.streams_open i a ha).1, fun hmem => ?_⟩
    rcases List.mem_append.mp hmem with hmem | hmem
    · exact (h.streams_open i a ha).2 hmem
    · exact hne (List.mem_singleton.mp hmem)
  · intro j hne
    obtain ⟨a, ha⟩ := List.exists_mem_of_ne_nil _ hne
    rw [(hstreams j a ha).1]
    exact hi
  · exact h.views_held
  · exact h.uncleaned
  · exact h.cleaned_nodup
  · exact h.cleaned_eq
  · intro a ha
    rcases List.mem_append.mp ha with ha | ha
    · exact List.mem_append_left _ (h.closes_deleted a ha)
    · exact List.mem_append_right _ ha
  · intro a ha
    rcases List.mem_append.mp ha with ha | ha
    · exact (h.deleted_by a ha).imp_left (List.mem_append_left _)
    · exact .inl (List.mem_append_right _ ha)
  · exact fun hreleased => absurd hreleased.1 (List.ne_nil_of_mem hi)

/-- A step after the last `release`: it frees what the fields hold. -/
structure EndingStep (sys sys' : BufferSystem ι) (i : ι) : Prop where
  last : sys.Last i
  refCount : sys'.refCount = sys.refCount
  holders : sys'.holders = sys.holders
  inputStream : sys'.inputStream = sys.inputStream
  byteBuffer : sys'.byteBuffer = sys.byteBuffer
  streams : sys'.streams = sys.streams
  views : sys'.views = sys.views
  closes : sys'.closes = sys.closes
  made : sys'.memory.made = sys.memory.made
  pc : ∀ j, j ≠ i → sys'.pc j = sys.pc j
  closed : sys'.memory.closed = sys'.memory.deleted
  deleted_nodup : sys'.memory.deleted.Nodup
  deleted : ∀ s, s ∈ sys'.memory.deleted → s ∈ sys.memory.deleted ∨ sys.inputStream = some s
  deleted_of : ∀ s ∈ sys.memory.deleted, s ∈ sys'.memory.deleted
  cleaned_nodup : sys'.memory.cleaned.Nodup
  cleaned : ∀ b ∈ sys'.memory.cleaned, sys.byteBuffer = some b

omit [DecidableEq ι] in
theorem Inv.ending (h : sys.Inv) (hstep : EndingStep sys sys' i) (hpc : sys'.PcOk i (sys'.pc i))
    (hend : sys'.pc i = .idle → (∀ b ∈ sys'.byteBuffer, b ∈ sys'.memory.cleaned) ∧
      ∀ s ∈ sys'.inputStream, s ∈ sys'.memory.deleted) : sys'.Inv where
  count := by rw [hstep.refCount, hstep.holders, h.count]
  bound := by rw [hstep.holders]; exact h.bound
  pcs j := by
    by_cases hj : j = i
    · rw [hj]
      exact hpc
    · rw [hstep.pc j hj, hstep.last.2 j hj]
      trivial
  closed_eq := hstep.closed
  deleted_nodup := hstep.deleted_nodup
  deleted_lt s hs := by
    rw [hstep.made]
    exact (hstep.deleted s hs).elim (h.deleted_lt s) (h.cached_lt s)
  cached_lt := by rw [hstep.made, hstep.inputStream]; exact h.cached_lt
  streams_open j s hs := by
    rw [hstep.streams] at hs
    have hheld := h.streams_held j (List.ne_nil_of_mem hs)
    rw [hstep.last.1] at hheld
    exact absurd hheld List.not_mem_nil
  streams_held := by rw [hstep.streams, hstep.holders]; exact h.streams_held
  views_held := by rw [hstep.views, hstep.holders]; exact h.views_held
  uncleaned hne := absurd hstep.last.1 (hstep.holders ▸ hne)
  cleaned_nodup := hstep.cleaned_nodup
  cleaned_eq := by rw [hstep.byteBuffer]; exact hstep.cleaned
  closes_deleted s hs := hstep.deleted_of s (h.closes_deleted s (hstep.closes ▸ hs))
  deleted_by s hs := by
    rw [hstep.closes, hstep.inputStream, hstep.holders]
    rcases hstep.deleted s hs with hold | hcached
    · exact h.deleted_by s hold
    · exact .inr ⟨hcached, hstep.last.1⟩
  ended hreleased := hend (hreleased.2 i)

omit [DecidableEq ι] in
theorem EndingStep.last_after (hstep : EndingStep sys sys' i) : sys'.Last i :=
  ⟨hstep.holders.trans hstep.last.1, fun j hj => (hstep.pc j hj).trans (hstep.last.2 j hj)⟩

theorem EndingStep.goTo (h : sys.Inv) (hlast : sys.Last i) (pc : RefPc) :
    EndingStep sys (sys.goTo i pc) i where
  last := hlast
  refCount := rfl
  holders := rfl
  inputStream := rfl
  byteBuffer := rfl
  streams := rfl
  views := rfl
  closes := rfl
  made := rfl
  pc _ hj := Function.update_of_ne hj _ _
  closed := h.closed_eq
  deleted_nodup := h.deleted_nodup
  deleted _ := .inl
  deleted_of _ := id
  cleaned_nodup := h.cleaned_nodup
  cleaned := h.cleaned_eq

theorem EndingStep.clean (h : sys.Inv) (hlast : sys.Last i) {b : Nat}
    (hb : sys.byteBuffer = some b) (pc : RefPc) :
    EndingStep sys { sys.goTo i pc with memory := sys.memory.clean b } i := by
  unfold NativeMemory.clean
  split_ifs with hmem
  · exact .goTo h hlast pc
  · exact
      { EndingStep.goTo h hlast pc with
        cleaned_nodup := List.nodup_append.mpr ⟨h.cleaned_nodup, List.nodup_singleton b,
          fun a ha c hc heq => hmem (List.mem_singleton.mp hc ▸ heq ▸ ha)⟩
        cleaned := fun a ha => (List.mem_append.mp ha).elim (h.cleaned_eq a) fun ha => by
          rw [List.mem_singleton.mp ha, hb] }

/-- `close` of the cached stream, which its reader may have closed before. -/
theorem EndingStep.close (h : sys.Inv) (hlast : sys.Last i) {s : Nat}
    (hs : sys.inputStream = some s) (pc : RefPc) :
    ∃ m, sys.memory.close s = some m ∧ s ∈ m.deleted ∧ m.cleaned = sys.memory.cleaned ∧
      EndingStep sys { sys.goTo i pc with memory := m } i := by
  by_cases hmem : s ∈ sys.memory.deleted
  · exact ⟨_, NativeMemory.close_of_deleted h.closed_eq hmem, hmem, rfl, .goTo h hlast pc⟩
  · refine ⟨_, NativeMemory.close_eq h.closed_eq hmem,
      List.mem_append_right _ (List.mem_singleton_self s), rfl, ?_⟩
    exact
      { EndingStep.goTo h hlast pc with
        closed := congrArg (· ++ [s]) h.closed_eq
        deleted_nodup := List.nodup_append.mpr ⟨h.deleted_nodup, List.nodup_singleton s,
          fun a ha b hb heq => hmem (List.mem_singleton.mp hb ▸ heq ▸ ha)⟩
        deleted := fun a ha => (List.mem_append.mp ha).imp_right fun ha => by
          rw [List.mem_singleton.mp ha, hs]
        deleted_of := fun a ha => List.mem_append_left _ ha }

/-- The thread that released the last reference. -/
theorem Inv.go_ending (h : sys.Inv) {pc : RefPc} (hpc : sys.PcOk i pc) (hidle : pc ≠ .idle)
    (hi : i ∉ sys.holders) : ∃ sys', sys.go i pc = some sys' ∧ sys'.Inv := by
  cases pc with
  | idle => exact absurd rfl hidle
  | checkView =>
    by_cases hnone : sys.byteBuffer = none
    · have hstep := EndingStep.goTo h hpc .checkLast
      rw [BufferSystem.go, if_pos hnone]
      refine ⟨_, rfl, h.ending hstep ?_ (by rw [goTo_pc]; exact nofun)⟩
      rw [goTo_pc]
      refine ⟨hstep.last_after, fun b hb => ?_⟩
      rw [hstep.byteBuffer, hnone] at hb
      exact absurd hb (Option.not_mem_none b)
    · have hstep := EndingStep.goTo h hpc .cleanView
      rw [BufferSystem.go, if_neg hnone]
      refine ⟨_, rfl, h.ending hstep ?_ (by rw [goTo_pc]; exact nofun)⟩
      rw [goTo_pc]
      exact ⟨hstep.last_after, hnone⟩
  | cleanView =>
    obtain ⟨b, hb⟩ := Option.ne_none_iff_exists'.mp hpc.2
    have hstep := EndingStep.clean h hpc.1 hb .checkLast
    rw [BufferSystem.go, hb, Option.map_some]
    refine ⟨_, rfl, h.ending hstep ?_ (by rw [goTo_pc]; exact nofun)⟩
    rw [goTo_pc]
    refine ⟨hstep.last_after, fun a ha => ?_⟩
    rw [hstep.byteBuffer, hb, Option.mem_some_iff] at ha
    rw [← ha]
    exact NativeMemory.mem_clean _ b
  | checkLast =>
    by_cases hnone : sys.inputStream = none
    · rw [BufferSystem.go, if_pos hnone]
      refine ⟨_, rfl, h.ending (.goTo h hpc.1 .idle) (by rw [goTo_pc]; trivial) fun _ => ?_⟩
      refine ⟨hpc.2, fun s hs => ?_⟩
      rw [show (sys.goTo i .idle).inputStream = none from hnone] at hs
      exact absurd hs (Option.not_mem_none s)
    · have hstep := EndingStep.goTo h hpc.1 .closeLast
      rw [BufferSystem.go, if_neg hnone]
      refine ⟨_, rfl, h.ending hstep ?_ (by rw [goTo_pc]; exact nofun)⟩
      rw [goTo_pc]
      exact ⟨hstep.last_after, hpc.2, hnone⟩
  | closeLast =>
    obtain ⟨s, hs⟩ := Option.ne_none_iff_exists'.mp hpc.2.2
    obtain ⟨m, hclose, hmem, hcleaned, hstep⟩ := EndingStep.close h hpc.1 hs .idle
    simp only [BufferSystem.go, hs, hclose, Option.bind_eq_bind, Option.bind_some]
    refine ⟨_, rfl, h.ending hstep (by rw [goTo_pc]; trivial) fun _ => ⟨?_, ?_⟩⟩
    · rw [hcleaned]
      exact hpc.2.1
    · intro a ha
      rw [hstep.inputStream, hs, Option.mem_some_iff] at ha
      rw [← ha]
      exact hmem
  | _ => exact absurd hpc.1 hi

/-! ## Every run -/

theorem Inv.step (h : sys.Inv) {a : RefStep ι} (hok : sys.Ok a) :
    ∃ sys', sys.step a = some sys' ∧ sys'.Inv := by
  cases a with
  | go i =>
    by_cases hi : i ∈ sys.holders
    · exact h.go_sharing hi (h.pcs i) hok
    · exact h.go_ending (h.pcs i) hok hi
  | call i c =>
    obtain ⟨hidle, hi, hcall⟩ := hok
    rw [BufferSystem.step, if_pos hidle]
    have hopen : (∀ s ∈ sys.inputStream, s ∉ sys.memory.closed) → sys.Open := by
      rw [h.closed_eq]
      exact id
    cases c with
    | createInputStream => exact ⟨_, rfl, h.goTo hi ⟨hi, hopen hcall⟩⟩
    | nioByteBuffer => exact ⟨_, rfl, h.goTo hi ⟨hi, hopen hcall⟩⟩
    | convertToNetty => exact ⟨_, rfl, h.goTo hi ⟨hi, hopen hcall⟩⟩
    | retain => exact ⟨_, rfl, h.retain hi hcall⟩
    | release =>
      have hpos := List.length_pos_of_mem hi
      have hbound := h.bound
      have hfits : wrap32 (sys.refCount - 1) = sys.refCount - 1 := by
        rw [h.count]
        exact wrap32_of_fits (by omega) (by omega)
      refine ⟨_, rfl, ?_⟩
      by_cases hone : sys.holders.length = 1
      · have hzero : wrap32 (sys.refCount - 1) = 0 := by rw [hfits, h.count, hone]; rfl
        rw [hzero, if_pos rfl]
        exact h.release_last hi hone
      · rw [if_neg (by rw [hfits, h.count]; omega)]
        exact h.release_some hidle hi hone hfits
    | useStream s =>
      rw [BufferSystem.call, NativeMemory.touch_eq (h.streams_open i s hcall).2]
      exact ⟨_, rfl, h⟩
    | useView b =>
      rw [BufferSystem.call, h.touchView hi b]
      exact ⟨_, rfl, h⟩
    | closeStream s => exact h.closeStream hidle hi hcall.1 hcall.2
    | hand j => exact ⟨_, rfl, h.hand hidle hi j⟩

/-- Without a race on `inputStream` there is one stream. -/
structure OneStream (sys : BufferSystem ι) : Prop where
  none_made : sys.inputStream = none → sys.memory.made = 0
  made_le : sys.memory.made ≤ 1
  setting : ∀ i use, sys.pc i = .newStream use → sys.inputStream = none ∧
    ∀ j use, sys.pc j = .newStream use → j = i

/-- A step that makes no stream and leads no thread to make one. -/
structure QuietStep (sys sys' : BufferSystem ι) : Prop where
  inputStream : sys'.inputStream = sys.inputStream
  made : sys'.memory.made = sys.memory.made
  pc : ∀ j use, sys'.pc j = .newStream use → sys.pc j = .newStream use

theorem QuietStep.of_goTo (pc : RefPc) (hpc : ∀ use, pc ≠ .newStream use)
    (hsame : sys'.pc = (sys.goTo i pc).pc) (hstream : sys'.inputStream = sys.inputStream)
    (hmade : sys'.memory.made = sys.memory.made) : QuietStep sys sys' where
  inputStream := hstream
  made := hmade
  pc j use hj := by
    rw [hsame] at hj
    by_cases heq : j = i
    · rw [heq, goTo_pc] at hj
      exact absurd hj (hpc use)
    · exact (Function.update_of_ne heq _ _).symm.trans hj

theorem quiet_call {c : RefCall ι} (hcall : sys.call i c = some sys') : QuietStep sys sys' := by
  cases c with
  | createInputStream =>
    rw [← Option.some.inj hcall]
    exact .of_goTo (.checkStream .createInputStream) nofun rfl rfl rfl
  | nioByteBuffer =>
    rw [← Option.some.inj hcall]
    exact .of_goTo (.checkStream .nioByteBuffer) nofun rfl rfl rfl
  | convertToNetty =>
    rw [← Option.some.inj hcall]
    exact .of_goTo (.checkStream .convertToNetty) nofun rfl rfl rfl
  | retain => rw [← Option.some.inj hcall]; exact ⟨rfl, rfl, fun _ _ => id⟩
  | release =>
    have hpc : ∀ use, (if wrap32 (sys.refCount - 1) = 0 then RefPc.checkView else .idle) ≠
        .newStream use := by
      intro use
      split_ifs <;> exact nofun
    rw [← Option.some.inj hcall]
    exact .of_goTo _ hpc rfl rfl rfl
  | useStream s =>
    obtain ⟨m, hm, rfl⟩ := Option.map_eq_some_iff.mp hcall
    exact ⟨rfl, NativeMemory.made_of_touch hm, fun _ _ => id⟩
  | useView b =>
    obtain ⟨m, hm, rfl⟩ := Option.map_eq_some_iff.mp hcall
    exact ⟨rfl, NativeMemory.made_of_touchView hm, fun _ _ => id⟩
  | closeStream s =>
    obtain ⟨m, hm, rfl⟩ := Option.map_eq_some_iff.mp hcall
    exact ⟨rfl, NativeMemory.made_of_close hm, fun _ _ => id⟩
  | hand j => rw [← Option.some.inj hcall]; exact ⟨rfl, rfl, fun _ _ => id⟩

omit [DecidableEq ι] in
theorem OneStream.quiet (h : sys.OneStream) (hstep : QuietStep sys sys') : sys'.OneStream where
  none_made hnone := by
    rw [hstep.made]
    exact h.none_made (hstep.inputStream ▸ hnone)
  made_le := by rw [hstep.made]; exact h.made_le
  setting j use hj := by
    obtain ⟨hnone, hunique⟩ := h.setting j use (hstep.pc j use hj)
    exact ⟨hstep.inputStream.trans hnone, fun k use hk => hunique k use (hstep.pc k use hk)⟩

theorem OneStream.checkStream (h : sys.OneStream) (use : StreamUse)
    (hrace : sys.inputStream = none → ∀ j use, sys.pc j ≠ .newStream use) :
    (sys.goTo i (if sys.inputStream = none then .newStream use else .getStream use)).OneStream := by
  by_cases hnone : sys.inputStream = none
  · rw [if_pos hnone]
    have honly : ∀ j use', (sys.goTo i (.newStream use)).pc j = .newStream use' → j = i := by
      intro j use' hj
      by_contra hne
      exact hrace hnone j use' ((Function.update_of_ne hne _ _).symm.trans hj)
    refine ⟨h.none_made, h.made_le, fun j use' hj => ⟨hnone, fun k use'' hk => ?_⟩⟩
    rw [honly k use'' hk, honly j use' hj]
  · rw [if_neg hnone]
    exact h.quiet (.of_goTo (.getStream use) nofun rfl rfl rfl)

theorem OneStream.newStream (h : sys.OneStream) {use : StreamUse}
    (hpc : sys.pc i = .newStream use) :
    OneStream { sys.goTo i (.getStream use) with
      inputStream := some sys.memory.made
      memory := { sys.memory with made := sys.memory.made + 1 } } := by
  obtain ⟨hnone, hunique⟩ := h.setting i use hpc
  refine ⟨fun hsome => absurd hsome (Option.some_ne_none _), ?_, fun j use' hj => ?_⟩
  · show sys.memory.made + 1 ≤ 1
    rw [h.none_made hnone]
  · have hj : (sys.goTo i (.getStream use)).pc j = .newStream use' := hj
    have hquiet : QuietStep sys (sys.goTo i (.getStream use)) :=
      .of_goTo (.getStream use) nofun rfl rfl rfl
    rw [hunique j use' (hquiet.pc j use' hj), goTo_pc] at hj
    exact absurd hj nofun

theorem OneStream.go (h : sys.OneStream) (hrace : sys.NoRace (.go i))
    (hgo : sys.go i (sys.pc i) = some sys') : sys'.OneStream := by
  cases hpc : sys.pc i with
  | idle => rw [hpc] at hgo; exact absurd hgo nofun
  | checkStream use =>
    rw [hpc] at hgo
    rw [← Option.some.inj hgo]
    exact h.checkStream use (hrace ⟨use, hpc⟩)
  | newStream use =>
    rw [hpc] at hgo
    rw [← Option.some.inj hgo]
    exact h.newStream hpc
  | getStream use =>
    rw [hpc] at hgo
    obtain ⟨s, _, rfl⟩ := Option.map_eq_some_iff.mp hgo
    apply h.quiet
    cases use with
    | createInputStream =>
      exact .of_goTo .idle nofun rfl rfl rfl
    | nioByteBuffer => exact .of_goTo (.allocateDirect s) nofun rfl rfl rfl
    | convertToNetty => exact .of_goTo (.directAddr s) nofun rfl rfl rfl
  | directAddr s =>
    rw [hpc] at hgo
    obtain ⟨m, hm, rfl⟩ := Option.map_eq_some_iff.mp hgo
    exact h.quiet (.of_goTo .idle nofun rfl rfl (NativeMemory.made_of_touch hm))
  | allocateDirect s =>
    rw [hpc] at hgo
    rw [← Option.some.inj hgo]
    exact h.quiet (.of_goTo (.readStream s) nofun rfl rfl rfl)
  | readStream s =>
    rw [hpc] at hgo
    obtain ⟨m, hm, rfl⟩ := Option.map_eq_some_iff.mp hgo
    exact h.quiet (.of_goTo .putView nofun rfl rfl (NativeMemory.made_of_touch hm))
  | putView =>
    rw [hpc] at hgo
    obtain ⟨b, _, hgo⟩ := Option.bind_eq_some_iff.mp hgo
    obtain ⟨m, hm, hgo⟩ := Option.bind_eq_some_iff.mp hgo
    rw [← Option.some.inj hgo]
    exact h.quiet (.of_goTo .flipView nofun rfl rfl (NativeMemory.made_of_touchView hm))
  | flipView =>
    rw [hpc] at hgo
    obtain ⟨b, _, hgo⟩ := Option.bind_eq_some_iff.mp hgo
    obtain ⟨m, hm, hgo⟩ := Option.bind_eq_some_iff.mp hgo
    rw [← Option.some.inj hgo]
    exact h.quiet (.of_goTo .getView nofun rfl rfl (NativeMemory.made_of_touchView hm))
  | getView =>
    rw [hpc] at hgo
    obtain ⟨b, _, rfl⟩ := Option.map_eq_some_iff.mp hgo
    exact h.quiet (.of_goTo .idle nofun rfl rfl rfl)
  | checkView =>
    rw [hpc] at hgo
    rw [← Option.some.inj hgo]
    exact h.quiet (.of_goTo _ (by intro use; split_ifs <;> exact nofun) rfl rfl rfl)
  | cleanView =>
    rw [hpc] at hgo
    obtain ⟨b, _, rfl⟩ := Option.map_eq_some_iff.mp hgo
    exact h.quiet (.of_goTo .checkLast nofun rfl rfl (NativeMemory.made_clean _ b))
  | checkLast =>
    rw [hpc] at hgo
    rw [← Option.some.inj hgo]
    exact h.quiet (.of_goTo _ (by intro use; split_ifs <;> exact nofun) rfl rfl rfl)
  | closeLast =>
    rw [hpc] at hgo
    obtain ⟨s, _, hgo⟩ := Option.bind_eq_some_iff.mp hgo
    obtain ⟨m, hm, hgo⟩ := Option.bind_eq_some_iff.mp hgo
    rw [← Option.some.inj hgo]
    exact h.quiet (.of_goTo .idle nofun rfl rfl (NativeMemory.made_of_close hm))

theorem OneStream.step (h : sys.OneStream) {a : RefStep ι} (hrace : sys.NoRace a)
    (hstep : sys.step a = some sys') : sys'.OneStream := by
  cases a with
  | go i => exact h.go hrace hstep
  | call i c =>
    rw [BufferSystem.step] at hstep
    split_ifs at hstep
    exact h.quiet (quiet_call hstep)

omit [DecidableEq ι] in
theorem oneStream_init (i : ι) : (init i).OneStream where
  none_made _ := rfl
  made_le := Nat.zero_le 1
  setting _ _ hpc := absurd hpc nofun

/-- What is freed, and when.  While there are references only a reader frees anything, a stream
that it closes; in the end the cached stream, the streams that were closed and the last
`ByteBuffer` are freed, each once. -/
structure Freed (sys : BufferSystem ι) : Prop where
  deleted_once : sys.memory.deleted.Nodup
  cleaned_once : sys.memory.cleaned.Nodup
  early : sys.holders ≠ [] → sys.memory.cleaned = [] ∧ ∀ s ∈ sys.memory.deleted, s ∈ sys.closes
  late : sys.Released →
    (∀ s, s ∈ sys.memory.deleted ↔ sys.inputStream = some s ∨ s ∈ sys.closes) ∧
      ∀ b, b ∈ sys.memory.cleaned ↔ sys.byteBuffer = some b

omit [DecidableEq ι] in
theorem Inv.freed (h : sys.Inv) : sys.Freed where
  deleted_once := h.deleted_nodup
  cleaned_once := h.cleaned_nodup
  early hne := ⟨h.uncleaned hne, fun s hs =>
    (h.deleted_by s hs).resolve_right fun hcached => hne hcached.2⟩
  late hreleased := by
    obtain ⟨hview, hstream⟩ := h.ended hreleased
    refine ⟨fun s => ⟨fun hs => ?_, fun hs => ?_⟩, fun b => ⟨h.cleaned_eq b, hview b⟩⟩
    · exact (h.deleted_by s hs).symm.imp_left And.left
    · exact hs.elim (hstream s) (h.closes_deleted s)

end

end

instance {ι : Type} [DecidableEq ι] (sys : BufferSystem ι) (i : ι) :
    (c : RefCall ι) → Decidable (sys.CallOk i c)
  | .createInputStream =>
    inferInstanceAs (Decidable (∀ s ∈ sys.inputStream, s ∉ sys.memory.closed))
  | .nioByteBuffer => inferInstanceAs (Decidable (∀ s ∈ sys.inputStream, s ∉ sys.memory.closed))
  | .convertToNetty => inferInstanceAs (Decidable (∀ s ∈ sys.inputStream, s ∉ sys.memory.closed))
  | .retain => inferInstanceAs (Decidable (sys.holders.length + 1 < 2 ^ 31))
  | .release => inferInstanceAs (Decidable True)
  | .useStream s => inferInstanceAs (Decidable (s ∈ sys.streams i))
  | .useView b => inferInstanceAs (Decidable (b ∈ sys.views i))
  | .closeStream s =>
    inferInstanceAs (Decidable (s ∈ sys.streams i ∧ ∀ j ∈ sys.holders, j = i))
  | .hand _ => inferInstanceAs (Decidable True)

instance {ι : Type} [DecidableEq ι] (sys : BufferSystem ι) : (a : RefStep ι) → Decidable (sys.Ok a)
  | .call i c =>
    inferInstanceAs (Decidable (sys.pc i = .idle ∧ i ∈ sys.holders ∧ sys.CallOk i c))
  | .go i => inferInstanceAs (Decidable (sys.pc i ≠ .idle))

/-- Two threads find the field empty, and the second replaces the stream of the first. -/
def racingSteps : List (RefStep Bool) :=
  [.call false .retain, .call false (.hand true),
    .call false .createInputStream, .go false, .call true .nioByteBuffer, .go true,
    .go false, .go false, .go true, .go true,
    .call false (.useStream 0), .go true, .go true, .go true, .go true, .go true,
    .call true (.useView 0), .call false .release, .call true .release,
    .go true, .go true, .go true, .go true]

-- The stream of the first thread is never freed.
example : (run step (init false) racingSteps).map (fun sys =>
    (sys.holders, sys.memory.made, sys.memory.deleted, sys.memory.cleaned)) =
      some ([], 2, [1], [0]) := by
  decide

-- The field keeps a stream that its reader closed: the next one to ask is given freed memory.
example : run step (init ()) [.call () .createInputStream, .go (), .go (), .go (),
    .call () (.closeStream 0), .call () .createInputStream, .go (), .go (),
    .call () (.useStream 0)] = none := by
  rfl

end BufferSystem

end SparkNvm.Storage
