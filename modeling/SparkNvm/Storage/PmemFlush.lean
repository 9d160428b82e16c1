import SparkNvm.Storage.PmemRuns

/-!
# Handing out the dirty bytes of a `PmemBuffer`

`getDataForFlush` hands out the written bytes piece by piece, and a read takes
bytes away that were not handed out yet.  The state keeps the pieces of the written
bytes in the order in which they were spent one way or the other.

* `FlushState.InOrder` is what the dirty cursor is for.
* `flush_in_order_iff`: it holds all along exactly the runs in which no write moves
  the content while bytes that were handed out are unread.
-/

namespace SparkNvm.Storage

open Lib

/-- The calls. -/
inductive FlushOp where
  | write (data : List UInt8) (junk : Mem)
  | read (len : Nat)
  | getDataForFlush (size : Nat)

/-- The buffer, all bytes written, how many were read, the pieces of the written
bytes that were handed out (`true`) or read first (`false`), and what the returned
pointers pointed at (`none` when not into the allocation). -/
structure FlushState where
  buf : PmemBuffer
  written : List UInt8
  got : Nat
  spent : List (Bool × List UInt8)
  handed : List (Option (List UInt8))

namespace FlushState

def init (b : PmemBuffer) : FlushState :=
  { buf := b, written := [], got := 0, spent := [], handed := [] }

/-- How many of the written bytes were handed out or read. -/
def next (st : FlushState) : Nat := (st.spent.flatMap Prod.snd).length

/-- The next `n` written bytes that were neither handed out nor read. -/
def fresh (st : FlushState) (n : Nat) : List UInt8 := (st.written.drop st.next).take n

/-- Hand out the next `n` bytes, or read them first. -/
def spend (st : FlushState) (sent : Bool) (n : Nat) : FlushState :=
  { st with spent := st.spent ++ [(sent, st.fresh n)] }

/-- The `n` bytes at an offset of the buffer. -/
def region (st : FlushState) (off : Int) (n : Nat) : Option (List UInt8) := do
  let m ← st.buf.bufData
  copyOut m st.buf.size off n

/-- One call; `none` is a copy outside of the allocation. -/
def step (st : FlushState) : FlushOp → Option FlushState
  | .write data junk => do
    let buf ← st.buf.write data junk
    return { st with buf := buf, written := st.written ++ data }
  | .read len => do
    let (bytes, buf) ← st.buf.read len
    let got := st.got + bytes.length
    return { st.spend false (got - st.next) with buf := buf, got := got }
  | .getDataForFlush size =>
    match st.buf.getDataForFlush size with
    | (none, buf) => some { st with buf := buf }
    | (some off, buf) => some
        { st.spend true size with buf := buf, handed := st.handed ++ [st.region off size] }

/-- The pieces that were due to be handed out. -/
def due (st : FlushState) : List (List UInt8) := (st.spent.filter Prod.fst).map Prod.snd

/-- The dirty bytes are the end of the content, every piece handed out was the next
one, and the pieces in order are the written bytes. -/
structure InOrder (st : FlushState) : Prop where
  pos_le : st.buf.pos ≤ st.buf.posDirty
  dirty_nonneg : 0 ≤ st.buf.remainingDirty
  dirty_le : st.buf.remainingDirty ≤ st.buf.remaining
  ends : st.buf.posDirty + st.buf.remainingDirty = st.buf.pos + st.buf.remaining
  handed_eq : st.handed = st.due.map some
  in_order : st.spent.flatMap Prod.snd <+: st.written

/-- Writes of at most the default size with fewer than `2 ^ 30` pending bytes, reads
and flushes. -/
def Ok (st : FlushState) : FlushOp → Prop
  | .write data _ => data.length ≤ defaultBufsize ∧ st.buf.remaining + data.length < 2 ^ 30
  | .read _ => True
  | .getDataForFlush _ => True

/-- A write stays in the allocation, and it goes behind the content or no unread
byte was handed out. -/
def DirtyOk (st : FlushState) : FlushOp → Prop
  | .write data _ => st.buf.WriteFits data.length ∧
    (st.buf.pos + st.buf.remaining + data.length ≤ st.buf.writeCapacity ∨
      st.buf.posDirty = st.buf.pos)
  | .read _ => True
  | .getDataForFlush _ => True

/-! ## The invariant -/

/-- The cursors as numbers of bytes written, read and spent. -/
structure Inv (st : FlushState) : Prop where
  wf : st.buf.Wf
  got_le : st.got ≤ st.next
  next_le : st.next ≤ st.written.length
  content : st.buf.content = st.written.drop st.got
  remaining : st.buf.remaining = (st.written.length : Int) - st.got
  posDirty : st.buf.posDirty = st.buf.pos + ((st.next : Int) - st.got)
  remainingDirty : st.buf.remainingDirty = (st.written.length : Int) - st.next
  handed_eq : st.handed = st.due.map some
  in_order : st.spent.flatMap Prod.snd <+: st.written

section

variable {st st' : FlushState}

theorem Inv.inOrder (h : st.Inv) : st.InOrder := by
  have h1 := h.got_le
  have h2 := h.next_le
  have h3 := h.remaining
  have h4 := h.posDirty
  have h5 := h.remainingDirty
  constructor
  · omega
  · omega
  · omega
  · omega
  · exact h.handed_eq
  · exact h.in_order

theorem inv_init {b : PmemBuffer} (h : b.Fresh) : (init b).Inv := by
  have hzero : b.remaining = 0 ∧ b.posDirty = b.pos ∧ b.remainingDirty = 0 := by
    rcases h with rfl | ⟨capacity, junk, _, rfl⟩ <;> exact ⟨rfl, rfl, rfl⟩
  obtain ⟨hrem, hpos, hdirty⟩ := hzero
  constructor
  · exact h.wf
  · exact Nat.le_refl 0
  · exact Nat.le_refl 0
  · exact h.content
  · exact hrem
  · show b.posDirty = b.pos + (0 - 0)
    omega
  · exact hdirty
  · rfl
  · exact List.prefix_refl []

/-- Spending the next `n` bytes keeps the pieces in order. -/
theorem Inv.spend (h : st.Inv) (sent : Bool) {n : Nat} (hn : st.next + n ≤ st.written.length) :
    (st.spend sent n).spent.flatMap Prod.snd <+: st.written ∧
      (st.spend sent n).next = st.next + n := by
  have hpre : st.spent.flatMap Prod.snd = st.written.take st.next := by
    obtain ⟨rest, hrest⟩ := h.in_order
    rw [← hrest, next, List.take_left' rfl]
  have hsplit : (st.spend sent n).spent.flatMap Prod.snd = st.written.take (st.next + n) := by
    rw [FlushState.spend, List.flatMap_append, hpre, List.flatMap_singleton, fresh, List.take_add]
  rw [next, hsplit]
  refine ⟨List.take_prefix _ _, ?_⟩
  rw [List.length_take, Nat.min_eq_left hn]

/-- A write keeps the invariant if it goes behind the content or no unread byte was
handed out. -/
theorem Inv.write (h : st.Inv) {data : List UInt8} (junk : Mem)
    (hok : st.Ok (.write data junk)) (hdirty : st.DirtyOk (.write data junk)) :
    ∃ st', st.step (.write data junk) = some st' ∧ st'.Inv := by
  obtain ⟨hfits, hplace⟩ := hdirty
  obtain ⟨b', hwrite, hwf, hcontent, _⟩ := h.wf.write_spec junk hfits
  obtain ⟨hrem, hdirty', hstay, hmove⟩ := h.wf.write_cursors junk hfits hwrite
  have h1 := h.got_le
  have h2 := h.next_le
  have h3 := h.remaining
  have h4 := h.posDirty
  have h5 := h.remainingDirty
  obtain ⟨_, hpending⟩ := hok
  have hw : wrap32 (st.buf.remainingDirty + data.length) = st.buf.remainingDirty + data.length :=
    wrap32_of_fits (by omega) (by omega)
  have hstep : st.step (.write data junk) =
      some { st with buf := b', written := st.written ++ data } := by
    rw [step, hwrite]
    rfl
  refine ⟨_, hstep, hwf, h1, ?_, ?_, ?_, ?_, ?_, h.handed_eq, ?_⟩
  · show st.next ≤ (st.written ++ data).length
    rw [List.length_append]
    omega
  · show b'.content = (st.written ++ data).drop st.got
    rw [hcontent, h.content, List.drop_append_of_le_length (by omega)]
  · show b'.remaining = ((st.written ++ data).length : Int) - st.got
    rw [hrem, List.length_append]
    omega
  · show b'.posDirty = b'.pos + ((st.next : Int) - st.got)
    by_cases hroom : st.buf.pos + st.buf.remaining + data.length ≤ st.buf.writeCapacity
    · obtain ⟨hpos, hposDirty⟩ := hstay hroom
      omega
    · obtain ⟨hpos, hposDirty⟩ := hmove (by omega)
      have hsame := hplace.resolve_left hroom
      omega
  · show b'.remainingDirty = ((st.written ++ data).length : Int) - st.next
    rw [hdirty', hw, List.length_append]
    omega
  · exact h.in_order.trans (List.prefix_append _ _)

/-- A read keeps the invariant. -/
theorem Inv.read (h : st.Inv) (len : Nat) : ∃ st', st.step (.read len) = some st' ∧ st'.Inv := by
  have h1 := h.got_le
  have h2 := h.next_le
  have h3 := h.remaining
  have h4 := h.posDirty
  have h5 := h.remainingDirty
  have hlen := h.wf.length_content
  have hsmall := h.wf.small
  have hin := h.wf.inside
  have hpos := h.wf.pos
  have hn : (st.buf.content.take len).length = st.buf.readLen len := by
    rw [List.length_take, hlen, PmemBuffer.readLen]
  have hle : (st.buf.readLen len : Int) ≤ st.buf.remaining := by
    unfold PmemBuffer.readLen
    omega
  obtain ⟨n, hdef⟩ : ∃ n, n = st.buf.readLen len := ⟨_, rfl⟩
  rw [← hdef] at hn hle
  obtain ⟨hpre, hnext⟩ := h.spend false (n := st.got + n - st.next) (by omega)
  have hstep : st.step (.read len) = some
      { st.spend false (st.got + n - st.next) with
        buf := st.buf.afterRead n
        got := st.got + n } := by
    rw [step, h.wf.read_eq, ← hdef, ← hn]
    rfl
  refine ⟨_, hstep, h.wf.afterRead hle, ?_, ?_, ?_, ?_, ?_, ?_, ?_, hpre⟩
  · show st.got + n ≤ (st.spend false (st.got + n - st.next)).next
    omega
  · show (st.spend false (st.got + n - st.next)).next ≤ st.written.length
    omega
  · show (st.buf.afterRead n).content = st.written.drop (st.got + n)
    rw [h.wf.content_afterRead hle, h.content, List.drop_drop]
  · show st.buf.remaining - (n : Int) = (st.written.length : Int) - (st.got + n : Nat)
    omega
  · show (if st.buf.posDirty < st.buf.pos + (n : Int) then st.buf.pos + (n : Int)
      else st.buf.posDirty) = st.buf.pos + (n : Int) +
        (((st.spend false (st.got + n - st.next)).next : Int) - (st.got + n : Nat))
    split <;> omega
  · show (if st.buf.posDirty < st.buf.pos + (n : Int) then
        wrap32 (st.buf.remainingDirty - wrap32 (st.buf.pos + (n : Int) - st.buf.posDirty))
      else st.buf.remainingDirty) =
        (st.written.length : Int) - (st.spend false (st.got + n - st.next)).next
    split
    · rw [wrap32_of_fits (x := st.buf.pos + (n : Int) - st.buf.posDirty) (by omega) (by omega),
        wrap32_of_fits (by omega) (by omega)]
      omega
    · omega
  · show st.handed = (st.spend false (st.got + n - st.next)).due.map some
    rw [due, FlushState.spend, List.filter_append]
    simp only [List.filter_cons, List.filter_nil, Bool.false_eq_true, if_false, List.append_nil]
    exact h.handed_eq

/-- A region behind the read cursor is a slice of the written bytes. -/
theorem Inv.region_eq (h : st.Inv) {size : Nat} (hsize : (size : Int) ≤ st.buf.remainingDirty)
    (hsome : st.buf.remainingDirty ≠ 0) :
    st.region st.buf.posDirty size = some (st.fresh size) := by
  have h1 := h.got_le
  have h2 := h.next_le
  have h3 := h.remaining
  have h4 := h.posDirty
  have h5 := h.remainingDirty
  have hpos := h.wf.pos
  have hin := h.wf.inside
  have hcap := h.wf.capacity
  obtain ⟨m, hdata⟩ := Option.isSome_iff_exists.mp (h.wf.allocated (by omega))
  rw [region, hdata, Option.bind_eq_bind, Option.bind_some,
    PmemBuffer.copyOut_eq (by omega) (by omega) (by omega)]
  have hcontent := h.content
  rw [PmemBuffer.content_of_some hdata] at hcontent
  have hstart : st.buf.posDirty.toNat = st.buf.pos.toNat + (st.next - st.got) := by omega
  have hall : st.buf.remaining.toNat = (st.next - st.got) + (st.written.length - st.next) := by
    omega
  rw [hall, loadBytes_add] at hcontent
  have hdirty : loadBytes m (st.buf.pos.toNat + (st.next - st.got))
      (st.written.length - st.next) = st.written.drop st.next := by
    have hdrop := congrArg (List.drop (st.next - st.got)) hcontent
    rw [List.drop_left' (loadBytes_length _ _ _), List.drop_drop, Nat.add_sub_cancel' h1] at hdrop
    exact hdrop
  have htake := congrArg (List.take size) hdirty
  rw [loadBytes_take, Nat.min_eq_left (by omega)] at htake
  rw [hstart, Int.toNat_natCast, htake, fresh]

/-- Handing out keeps the invariant. -/
theorem Inv.getDataForFlush (h : st.Inv) (size : Nat) :
    ∃ st', st.step (.getDataForFlush size) = some st' ∧ st'.Inv := by
  by_cases hnull : st.buf.remainingDirty < size ∨ st.buf.remainingDirty = 0
  · refine ⟨st, ?_, h⟩
    rw [step, PmemBuffer.getDataForFlush, if_pos hnull]
  · obtain ⟨hsize, hsome⟩ := not_or.mp hnull
    have h1 := h.got_le
    have h2 := h.next_le
    have h3 := h.remaining
    have h4 := h.posDirty
    have h5 := h.remainingDirty
    have hsmall := h.wf.small
    have hin := h.wf.inside
    have hpos := h.wf.pos
    obtain ⟨hpre, hnext⟩ := h.spend true (n := size) (by omega)
    have hstep : st.step (.getDataForFlush size) = some
        { st.spend true size with
          buf := { st.buf with
            posDirty := wrap32 (st.buf.posDirty + size)
            remainingDirty := wrap32 (st.buf.remainingDirty - size) }
          handed := st.handed ++ [st.region st.buf.posDirty size] } := by
      rw [step, PmemBuffer.getDataForFlush, if_neg hnull]
    refine ⟨_, hstep, ?_, ?_, ?_, h.content, h3, ?_, ?_, ?_, hpre⟩
    · exact ⟨h.wf.pos, h.wf.remaining, h.wf.capacity, h.wf.small, h.wf.inside, h.wf.allocated⟩
    · show st.got ≤ (st.spend true size).next
      omega
    · show (st.spend true size).next ≤ st.written.length
      omega
    · show wrap32 (st.buf.posDirty + size) =
        st.buf.pos + (((st.spend true size).next : Int) - st.got)
      rw [wrap32_of_fits (by omega) (by omega)]
      omega
    · show wrap32 (st.buf.remainingDirty - size) =
        (st.written.length : Int) - (st.spend true size).next
      rw [wrap32_of_fits (by omega) (by omega)]
      omega
    · show st.handed ++ [st.region st.buf.posDirty size] = (st.spend true size).due.map some
      rw [h.region_eq (by omega) hsome, h.handed_eq, due, due, FlushState.spend, List.filter_append,
        List.map_append, List.map_append]
      rfl

/-- A write that moves unread bytes that were handed out breaks the cursors. -/
theorem Inv.not_inOrder (h : st.Inv) {op : FlushOp} (hok : st.Ok op) (hdirty : ¬st.DirtyOk op)
    (hstep : st.step op = some st') : ¬st'.InOrder := by
  cases op with
  | read len => exact absurd trivial hdirty
  | getDataForFlush size => exact absurd trivial hdirty
  | write data junk =>
    obtain ⟨hlen, hpending⟩ := hok
    have hint : data.length < 2 ^ 31 := by
      have hdefault : defaultBufsize = 4194816 := rfl
      omega
    obtain ⟨buf, hwrite, heq⟩ := Option.bind_eq_some_iff.mp hstep
    have hfits := (h.wf.write_isSome_iff hint junk).mp (by rw [hwrite]; rfl)
    have hmoves : ¬(st.buf.pos + st.buf.remaining + data.length ≤ st.buf.writeCapacity ∨
        st.buf.posDirty = st.buf.pos) := fun hplace => hdirty ⟨hfits, hplace⟩
    obtain ⟨hfull, hahead⟩ := not_or.mp hmoves
    obtain ⟨hrem, hdirty', _, hmove⟩ := h.wf.write_cursors junk hfits hwrite
    obtain ⟨hpos, hposDirty⟩ := hmove (by omega)
    rw [← Option.some.inj heq]
    intro hbad
    have hends : buf.posDirty + buf.remainingDirty = buf.pos + buf.remaining := hbad.ends
    have h1 := h.got_le
    have h2 := h.next_le
    have h3 := h.remaining
    have h4 := h.posDirty
    have h5 := h.remainingDirty
    rw [hdirty', wrap32_of_fits (by omega) (by omega)] at hends
    omega

end

end FlushState

/-- For every fresh buffer and every sequence of bounded writes, reads and flushes:
the dirty bytes are handed out once and in order, all along the run, exactly if every
write stays in the allocation and never moves unread bytes that were handed out. -/
theorem flush_in_order_iff (b : PmemBuffer) (ops : List FlushOp) (hfresh : b.Fresh)
    (hok : Admissible FlushState.step FlushState.Ok (.init b) ops) :
    Always FlushState.step FlushState.InOrder (.init b) ops ↔
      Admissible FlushState.step FlushState.DirtyOk (.init b) ops := by
  refine always_iff (I := fun _ st => st.Inv) (fun _ _ h => h.inOrder) ?_
    (fun op _ st st' h hop hdirty hstep => h.not_inOrder hop hdirty hstep)
    (FlushState.inv_init hfresh) hok
  intro op _ st h hop hdirty
  cases op with
  | write data junk => exact h.write junk hop hdirty
  | read len => exact h.read len
  | getDataForFlush size => exact h.getDataForFlush size

theorem flush_in_order_sample :
    Always FlushState.step FlushState.InOrder (.init .empty)
        [.write [1, 2, 3] fun _ => 0, .read 1, .getDataForFlush 2] ↔
      Admissible FlushState.step FlushState.DirtyOk (.init .empty)
        [.write [1, 2, 3] fun _ => 0, .read 1, .getDataForFlush 2] :=
  flush_in_order_iff .empty [.write [1, 2, 3] fun _ => 0, .read 1, .getDataForFlush 2] (.inl rfl)
    ⟨by constructor <;> decide, fun _ _ => ⟨trivial, fun _ _ => ⟨trivial, fun _ _ => trivial⟩⟩⟩

/-- Two bytes are written into a buffer of three and handed out, and a write of two
more moves them.  The dirty cursor restarts at the front, so the next flush hands the
first two bytes out again. -/
theorem flush_repeats_moved :
    ∃ b st, b.Fresh ∧
      Admissible FlushState.step FlushState.Ok (.init b)
        [.write [1, 2] fun _ => 0, .getDataForFlush 2, .write [3, 4] fun _ => 0,
          .getDataForFlush 2] ∧
      run FlushState.step (.init b)
        [.write [1, 2] fun _ => 0, .getDataForFlush 2, .write [3, 4] fun _ => 0,
          .getDataForFlush 2] = some st ∧
      st.handed = [some [1, 2], some [1, 2]] ∧ st.due = [[1, 2], [3, 4]] ∧
      ¬Always FlushState.step FlushState.InOrder (.init b)
        [.write [1, 2] fun _ => 0, .getDataForFlush 2, .write [3, 4] fun _ => 0,
          .getDataForFlush 2] := by
  refine ⟨.new 3 fun _ => 0, _, .inr ⟨3, _, by decide, rfl⟩, ?_, rfl, by decide, by decide, ?_⟩
  · refine ⟨by constructor <;> decide, fun st hst => ⟨trivial, fun st₁ hst₁ => ⟨?_, fun _ _ =>
      ⟨trivial, fun _ _ => trivial⟩⟩⟩⟩
    cases hst
    cases hst₁
    constructor <;> decide
  · rintro ⟨_, st, hst, _, st₁, hst₁, _, st₂, hst₂, hin, _⟩
    cases hst
    cases hst₁
    cases hst₂
    have hends := hin.ends
    revert hends
    decide

end SparkNvm.Storage
