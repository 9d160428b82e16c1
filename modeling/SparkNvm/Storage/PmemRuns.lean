import SparkNvm.Storage.PmemBuffer

/-!
# Runs of `PmemBuffer`

Sequences of calls on a fresh buffer, with the bytes that went in and the bytes
that came out.

* `copies_inside_iff`: exactly the runs in which no sum leaves 32 bits and one
  step of growth is enough for every write stay inside of the allocation.
* `write_read_fifo`: writes and reads are a queue.
* `load_appends_iff`: `load` appends exactly when the unread bytes are at the
  front of the buffer or are copied there.
-/

namespace SparkNvm.Storage

open Lib

/-- One call on the buffer, with what memory allocated during it holds. -/
inductive PmemOp where
  | load (addr : Nat) (bytes : List UInt8) (junk : Mem)
  | write (data : List UInt8) (junk : Mem)
  | read (len : Nat)
  | clean

/-- The buffer, the bytes loaded and written that `clean` did not drop, and the
bytes that reads have returned. -/
structure PmemState where
  buf : PmemBuffer
  fed : List UInt8
  got : List UInt8

namespace PmemState

/-- A fresh buffer. -/
def init (b : PmemBuffer) : PmemState := { buf := b, fed := [], got := [] }

/-- One call; `none` is a copy outside of the allocation. -/
def step (st : PmemState) : PmemOp → Option PmemState
  | .load addr bytes junk => do
    let (len, buf) ← st.buf.load addr bytes junk
    return { st with buf := buf, fed := st.fed ++ bytes.take len.toNat }
  | .write data junk => do
    let buf ← st.buf.write data junk
    return { st with buf := buf, fed := st.fed ++ data }
  | .read len => do
    let (bytes, buf) ← st.buf.read len
    return { st with buf := buf, got := st.got ++ bytes }
  | .clean => some { st with buf := st.buf.clean, fed := st.got }

end PmemState

/-- The buffer that one of the two constructors gives. -/
def PmemBuffer.Fresh (b : PmemBuffer) : Prop :=
  b = .empty ∨ ∃ capacity junk, capacity < 2 ^ 31 ∧ b = .new capacity junk

theorem PmemBuffer.Fresh.wf {b : PmemBuffer} (h : b.Fresh) : b.Wf := by
  rcases h with rfl | ⟨capacity, junk, hsmall, rfl⟩
  · exact PmemBuffer.wf_empty
  · exact PmemBuffer.wf_new hsmall junk

theorem PmemBuffer.Fresh.content {b : PmemBuffer} (h : b.Fresh) : b.content = [] := by
  rcases h with rfl | ⟨capacity, junk, _, rfl⟩ <;> rfl

/-! ## Inside of the allocation -/

/-- The length of the call is an `int`. -/
def PmemOp.IsInt : PmemOp → Prop
  | .load _ bytes _ => bytes.length < 2 ^ 31
  | .write data _ => data.length < 2 ^ 31
  | .read len => len < 2 ^ 31
  | .clean => True

/-- No sum of the call leaves 32 bits, and one step of growth is enough. -/
def PmemState.Fits (st : PmemState) : PmemOp → Prop
  | .load addr bytes _ => addr = 0 ∨ bytes.length = 0 ∨ st.buf.remaining + bytes.length < 2 ^ 31
  | .write data _ => st.buf.WriteFits data.length
  | .read _ => True
  | .clean => True

section

variable {st : PmemState}

theorem PmemState.step_load_nothing {addr : Nat} {bytes : List UInt8} (junk : Mem)
    (h : addr = 0 ∨ bytes.length = 0) : st.step (.load addr bytes junk) = some st := by
  rw [PmemState.step, PmemBuffer.load, if_pos h]
  simp

/-- A call that fits is defined and keeps the buffer well-formed. -/
theorem PmemState.step_wf (h : st.buf.Wf) {op : PmemOp} (hfits : st.Fits op) :
    ∃ st', st.step op = some st' ∧ st'.buf.Wf := by
  cases op with
  | load addr bytes junk =>
    by_cases hnothing : addr = 0 ∨ bytes.length = 0
    · exact ⟨st, PmemState.step_load_nothing junk hnothing, h⟩
    · obtain ⟨haddr, hne⟩ := not_or.mp hnothing
      have hsum := (hfits.resolve_left haddr).resolve_left hne
      obtain ⟨b', hload, hwf, _⟩ := h.load_spec haddr hne junk hsum
      exact ⟨_, by rw [PmemState.step, hload]; rfl, hwf⟩
  | write data junk =>
    obtain ⟨b', hwrite, hwf, _⟩ := h.write_spec junk hfits
    exact ⟨_, by rw [PmemState.step, hwrite]; rfl, hwf⟩
  | read len =>
    obtain ⟨b', hread, hwf, _⟩ := h.read_spec len
    exact ⟨_, by rw [PmemState.step, hread]; rfl, hwf⟩
  | clean => exact ⟨_, rfl, PmemBuffer.wf_empty⟩

/-- A call that does not fit is undefined. -/
theorem PmemState.step_none (h : st.buf.Wf) {op : PmemOp} (hint : op.IsInt) (hfits : ¬st.Fits op) :
    st.step op = none := by
  cases op with
  | load addr bytes junk =>
    obtain ⟨haddr, hrest⟩ := not_or.mp hfits
    obtain ⟨_, hsum⟩ := not_or.mp hrest
    rw [PmemState.step, h.load_none haddr hint junk (by omega)]
    rfl
  | write data junk =>
    rw [PmemState.step, h.write_none hint junk hfits]
    rfl
  | read len => exact absurd trivial hfits
  | clean => exact absurd trivial hfits

end

/-- For every fresh buffer and every sequence of calls with `int` lengths: no copy
leaves the allocation exactly if every call fits. -/
theorem copies_inside_iff (b : PmemBuffer) (ops : List PmemOp) (hfresh : b.Fresh)
    (hint : ∀ op ∈ ops, op.IsInt) :
    (run PmemState.step (.init b) ops).isSome ↔
      Admissible PmemState.step PmemState.Fits (.init b) ops := by
  have hgood : ∀ (st : PmemState) op, st.buf.Wf → st.Fits op →
      ∃ st', st.step op = some st' ∧ st'.buf.Wf := fun _ _ h hfits => PmemState.step_wf h hfits
  have hbad : ∀ (st : PmemState) (op : PmemOp), st.buf.Wf → op.IsInt → ¬st.Fits op →
      st.step op = none := fun _ _ h hop hfits => PmemState.step_none h hop hfits
  exact run_isSome_iff hgood hbad hfresh.wf hint

theorem copies_inside_sample :
    (run PmemState.step (.init .empty) [.write [1, 2] fun _ => 0, .read 1]).isSome ↔
      Admissible PmemState.step PmemState.Fits (.init .empty) [.write [1, 2] fun _ => 0, .read 1] :=
  copies_inside_iff .empty [.write [1, 2] fun _ => 0, .read 1] (.inl rfl) (by
    intro op hop
    simp only [List.mem_cons, List.not_mem_nil, or_false] at hop
    rcases hop with rfl | rfl <;> simp [PmemOp.IsInt])

/-- One write of three times the default size.  The buffer grows by one step only. -/
theorem write_leaves_allocation :
    PmemBuffer.empty.Fresh ∧
      (PmemOp.write (List.replicate 12584448 0) fun _ => 0).IsInt ∧
      ¬(run PmemState.step (.init .empty)
        [.write (List.replicate 12584448 0) fun _ => 0]).isSome := by
  have hwrite : ∀ data : List UInt8, data.length = 12584448 →
      (PmemOp.write data fun _ => 0).IsInt ∧
        run PmemState.step (.init .empty) [.write data fun _ => 0] = none := by
    intro data hlen
    have hint : (PmemOp.write data fun _ => 0).IsInt := by
      show data.length < 2 ^ 31
      omega
    have hfits : ¬(PmemState.init .empty).Fits (.write data fun _ => 0) := by
      show ¬PmemBuffer.empty.WriteFits data.length
      rw [hlen]
      decide
    refine ⟨hint, ?_⟩
    rw [run_cons, PmemState.step_none PmemBuffer.wf_empty hint hfits]
    rfl
  obtain ⟨hint, hnone⟩ := hwrite (List.replicate 12584448 0) List.length_replicate
  exact ⟨.inl rfl, hint, by rw [hnone]; decide⟩

/-! ## Bounded runs -/

/-- The bytes that a call feeds into the buffer. -/
def PmemOp.bytes : PmemOp → List UInt8
  | .load addr bytes _ => if addr = 0 then [] else bytes
  | .write data _ => data
  | _ => []

/-- Writes of at most the default size, and fewer than `2 ^ 30` pending bytes. -/
def PmemState.WriteOk (st : PmemState) (data : List UInt8) : Prop :=
  data.length ≤ defaultBufsize ∧ st.buf.remaining + data.length < 2 ^ 30

/-- The capacity stays so small that no sum of a bounded call leaves 32 bits. -/
def PmemBuffer.Bounded (b : PmemBuffer) : Prop :=
  b.bufDataCapacity ≤ 2 ^ 30 + defaultBufsize

theorem PmemBuffer.bounded_empty : PmemBuffer.empty.Bounded := by
  unfold PmemBuffer.Bounded
  decide

section

variable {st : PmemState}

theorem PmemState.writeFits (h : st.buf.Wf) (hb : st.buf.Bounded) {data : List UInt8}
    (hok : st.WriteOk data) : st.buf.WriteFits data.length := by
  obtain ⟨hlen, hpending⟩ := hok
  have hin := h.inside
  have h1 := h.pos
  have h2 := h.remaining
  have hdefault : (defaultBufsize : Int) = 4194816 := rfl
  unfold PmemBuffer.Bounded at hb
  unfold PmemBuffer.WriteFits PmemBuffer.grownCapacity PmemBuffer.writeCapacity
  by_cases h0 : st.buf.bufDataCapacity = 0
  · simp only [if_pos h0]
    left
    omega
  · simp only [if_neg h0]
    by_cases hgrow : st.buf.bufDataCapacity < st.buf.remaining + data.length
    · simp only [if_pos hgrow]
      right
      omega
    · simp only [if_neg hgrow]
      omega

/-- A bounded write appends its bytes and keeps the buffer bounded. -/
theorem PmemState.write_bounded (h : st.buf.Wf) (hb : st.buf.Bounded) {data : List UInt8}
    (hok : st.WriteOk data) (junk : Mem) :
    ∃ b', st.buf.write data junk = some b' ∧ b'.Wf ∧ b'.Bounded ∧
      b'.content = st.buf.content ++ data := by
  obtain ⟨b', hwrite, hwf, hcontent, hcap⟩ := h.write_spec junk (PmemState.writeFits h hb hok)
  refine ⟨b', hwrite, hwf, ?_, hcontent⟩
  obtain ⟨_, hpending⟩ := hok
  have hdefault : (defaultBufsize : Int) = 4194816 := rfl
  unfold PmemBuffer.Bounded PmemBuffer.grownCapacity PmemBuffer.writeCapacity at *
  rcases hcap with hcap | hcap
  · rw [hcap]
    split <;> omega
  · rw [hcap]
    split <;> split at * <;> omega

end

/-! ## Writes and reads -/

/-- A bounded write, or a read. -/
def PmemState.FifoOk (st : PmemState) : PmemOp → Prop
  | .write data _ => st.WriteOk data
  | .read _ => True
  | _ => False

/-- The buffer is a queue between the bytes written and the bytes read. -/
structure PmemState.Fifo (st : PmemState) (ops : List PmemOp) : Prop where
  inside : st.buf.pos + st.buf.remaining ≤ st.buf.bufDataCapacity
  written : st.fed = ops.flatMap PmemOp.bytes
  remaining : st.buf.getRemaining = (st.fed.length : Int) - st.got.length
  reads : ∀ len : Nat, ∃ bytes b', st.buf.read len = some (bytes, b') ∧
    (bytes.length : Int) = min (len : Int) st.buf.remaining
  in_order : st.got <+: st.fed

/-- For every fresh buffer of a capacity below `2 ^ 29` and every sequence of
bounded writes and reads: after every step the buffer is a queue. -/
theorem write_read_fifo (b : PmemBuffer) (ops : List PmemOp)
    (hfresh : b = .empty ∨ ∃ capacity junk, capacity < 2 ^ 29 ∧ b = .new capacity junk)
    (hok : Admissible PmemState.step PmemState.FifoOk (.init b) ops) :
    ∃ st, run PmemState.step (.init b) ops = some st ∧ st.Fifo ops := by
  have hinit : b.Wf ∧ b.Bounded ∧ b.content = [] := by
    rcases hfresh with rfl | ⟨capacity, junk, hsmall, rfl⟩
    · exact ⟨PmemBuffer.wf_empty, PmemBuffer.bounded_empty, rfl⟩
    · refine ⟨PmemBuffer.wf_new (by omega) junk, ?_, rfl⟩
      show (capacity : Int) ≤ 2 ^ 30 + defaultBufsize
      omega
  -- the bytes fed are those returned followed by the content
  have hstep : ∀ done op rest (st : PmemState), ops = done ++ op :: rest →
      (st.buf.Wf ∧ st.buf.Bounded ∧ st.fed = st.got ++ st.buf.content ∧
        st.fed = done.flatMap PmemOp.bytes) → st.FifoOk op →
      ∃ st', st.step op = some st' ∧ st'.buf.Wf ∧ st'.buf.Bounded ∧
        st'.fed = st'.got ++ st'.buf.content ∧
        st'.fed = (done ++ [op]).flatMap PmemOp.bytes := by
    rintro done op rest st _ ⟨hwf, hb, hfed, hdone⟩ hop
    cases op with
    | load addr bytes junk => exact hop.elim
    | clean => exact hop.elim
    | write data junk =>
      obtain ⟨b', hwrite, hwf', hb', hcontent⟩ := PmemState.write_bounded hwf hb hop junk
      refine ⟨_, by rw [PmemState.step, hwrite]; rfl, hwf', hb', ?_, ?_⟩
      · show st.fed ++ data = st.got ++ b'.content
        rw [hcontent, hfed, List.append_assoc]
      · show st.fed ++ data = _
        rw [List.flatMap_append, ← hdone, List.flatMap_singleton]
        rfl
    | read len =>
      obtain ⟨b', hread, hwf', hcontent, hcap⟩ := hwf.read_spec len
      refine ⟨_, by rw [PmemState.step, hread]; rfl, hwf', ?_, ?_, ?_⟩
      · show b'.bufDataCapacity ≤ _
        rw [hcap]
        exact hb
      · show st.fed = st.got ++ st.buf.content.take len ++ b'.content
        rw [hcontent, List.append_assoc, List.take_append_drop]
        exact hfed
      · show st.fed = _
        rw [List.flatMap_append, ← hdone]
        simp [PmemOp.bytes]
  obtain ⟨st, hrun, hwf, _, hfed, hdone⟩ := run_invariant hstep
    ⟨hinit.1, hinit.2.1, by rw [PmemState.init]; exact hinit.2.2.symm, rfl⟩ hok
  have hlen := hwf.length_content
  have hrem := hwf.remaining
  refine ⟨st, hrun, hwf.inside, hdone, ?_, fun len => ?_, ⟨_, hfed.symm⟩⟩
  · rw [PmemBuffer.getRemaining, hfed, List.length_append]
    omega
  · obtain ⟨b', hread, _⟩ := hwf.read_spec len
    refine ⟨_, b', hread, ?_⟩
    rw [List.length_take, hlen]
    omega

theorem write_read_fifo_sample :
    ∃ st, run PmemState.step (.init (.new 1 fun _ => 7)) [.write [1, 2] fun _ => 0, .read 1] =
        some st ∧
      st.Fifo [.write [1, 2] fun _ => 0, .read 1] :=
  write_read_fifo (.new 1 fun _ => 7) [.write [1, 2] fun _ => 0, .read 1]
    (.inr ⟨1, _, by decide, rfl⟩)
    ⟨by constructor <;> decide, fun _ _ => ⟨trivial, fun _ _ => trivial⟩⟩

/-! ## `load` -/

/-- Bounded loads and writes, reads and `clean`. -/
def PmemState.LoadOk (st : PmemState) : PmemOp → Prop
  | .load _ bytes _ => bytes.length < 2 ^ 30 ∧ st.buf.remaining + bytes.length < 2 ^ 30
  | .write data _ => st.WriteOk data
  | .read _ => True
  | .clean => True

/-- A `load` of something finds the unread bytes at the front of the buffer or
copies them there, or the bytes at the front happen to be the same. -/
def PmemState.FrontOk (st : PmemState) : PmemOp → Prop
  | .load addr bytes _ =>
    addr = 0 ∨ bytes.length = 0 ∨ st.buf.Moves bytes.length ∨ st.buf.front = st.buf.content
  | _ => True

/-- `load` returns the length and appends the bytes to the unread content. -/
def PmemBuffer.Appends (b : PmemBuffer) (addr : Nat) (bytes : List UInt8) (junk : Mem) : Prop :=
  ∃ b', b.load addr bytes junk = some ((bytes.length : Int), b') ∧ b'.content = b.content ++ bytes

section

variable {st st' : PmemState}

/-- The condition is the exact one, in every well-formed buffer. -/
theorem PmemBuffer.Wf.appends_iff {b : PmemBuffer} (h : b.Wf) {addr : Nat} (haddr : addr ≠ 0)
    {bytes : List UInt8} (hne : bytes.length ≠ 0) (junk : Mem)
    (hsum : b.remaining + bytes.length < 2 ^ 31) :
    b.Appends addr bytes junk ↔ b.Moves bytes.length ∨ b.front = b.content := by
  obtain ⟨b', hload, _, hcontent, _⟩ := h.load_spec haddr hne junk hsum
  constructor
  · rintro ⟨b'', hload', hcontent'⟩
    rw [hload, Option.some.injEq, Prod.mk.injEq] at hload'
    rw [← hload'.2, hcontent, List.append_left_inj] at hcontent'
    by_cases hmoves : b.Moves bytes.length
    · exact .inl hmoves
    · rw [if_neg hmoves] at hcontent'
      exact .inr hcontent'
  · intro hor
    refine ⟨b', hload, ?_⟩
    rw [hcontent]
    by_cases hmoves : b.Moves bytes.length
    · rw [if_pos hmoves]
    · rw [if_neg hmoves, hor.resolve_left hmoves]

/-- A defined bounded step fits. -/
theorem PmemState.fits_of_step (h : st.buf.Wf) {op : PmemOp} (hok : st.LoadOk op)
    (hstep : st.step op = some st') : st.Fits op := by
  by_contra hfits
  cases op with
  | load addr bytes junk =>
    obtain ⟨_, hsum⟩ := hok
    exact hfits (.inr (.inr (by omega)))
  | write data junk =>
    obtain ⟨hlen, _⟩ := hok
    have hdefault : defaultBufsize = 4194816 := rfl
    have hint : (PmemOp.write data junk).IsInt := by
      show data.length < 2 ^ 31
      omega
    rw [PmemState.step_none h hint hfits] at hstep
    simp at hstep
  | read len => exact hfits trivial
  | clean => exact hfits trivial

/-- What a defined bounded step does: the pending bytes stay few, and where `load`
finds the unread bytes the bytes fed are still those returned and the content. -/
theorem PmemState.of_step (h : st.buf.Wf) {op : PmemOp} (hok : st.LoadOk op)
    (hpending : st.buf.remaining < 2 ^ 30) (hstep : st.step op = some st') :
    st'.buf.Wf ∧ st'.buf.remaining < 2 ^ 30 ∧
      (st.FrontOk op → st.fed = st.got ++ st.buf.content →
        st'.fed = st'.got ++ st'.buf.content) := by
  have hfits := PmemState.fits_of_step h hok hstep
  have hrem := h.remaining
  have hlen := h.length_content
  cases op with
  | load addr bytes junk =>
    by_cases hnothing : addr = 0 ∨ bytes.length = 0
    · rw [PmemState.step_load_nothing junk hnothing] at hstep
      rw [← Option.some.inj hstep]
      exact ⟨h, hpending, fun _ hfed => hfed⟩
    · obtain ⟨haddr, hne⟩ := not_or.mp hnothing
      obtain ⟨_, hsum⟩ := hok
      obtain ⟨b', hload, hwf, hcontent, _⟩ := h.load_spec haddr hne junk (by omega)
      rw [PmemState.step, hload] at hstep
      rw [← Option.some.inj hstep]
      refine ⟨hwf, ?_, fun hfront hfed => ?_⟩
      · have hlen' := hwf.length_content
        have hrem' := hwf.remaining
        have hlenf := h.length_front
        rw [hcontent, List.length_append, apply_ite List.length, hlen, hlenf, ite_self] at hlen'
        show b'.remaining < 2 ^ 30
        omega
      · show st.fed ++ bytes.take (bytes.length : Int).toNat = st.got ++ b'.content
        have hfront' := (hfront.resolve_left haddr).resolve_left hne
        have hold : (if st.buf.Moves bytes.length then st.buf.content else st.buf.front) =
            st.buf.content := by
          split
          · rfl
          · exact hfront'.resolve_left ‹_›
        rw [hcontent, hold, hfed, Int.toNat_natCast, List.take_length, List.append_assoc]
  | write data junk =>
    obtain ⟨_, hsum⟩ := hok
    obtain ⟨b', hwrite, hwf, hcontent, _⟩ := h.write_spec junk hfits
    rw [PmemState.step, hwrite] at hstep
    rw [← Option.some.inj hstep]
    refine ⟨hwf, ?_, fun _ hfed => ?_⟩
    · have hlen' := hwf.length_content
      have hrem' := hwf.remaining
      rw [hcontent, List.length_append, hlen] at hlen'
      show b'.remaining < 2 ^ 30
      omega
    · show st.fed ++ data = st.got ++ b'.content
      rw [hcontent, hfed, List.append_assoc]
  | read len =>
    obtain ⟨b', hread, hwf, hcontent, _⟩ := h.read_spec len
    rw [PmemState.step, hread] at hstep
    rw [← Option.some.inj hstep]
    refine ⟨hwf, ?_, fun _ hfed => ?_⟩
    · have hlen' := hwf.length_content
      have hrem' := hwf.remaining
      rw [hcontent, List.length_drop, hlen] at hlen'
      show b'.remaining < 2 ^ 30
      omega
    · show st.fed = st.got ++ st.buf.content.take len ++ b'.content
      rw [hcontent, List.append_assoc, List.take_append_drop]
      exact hfed
  | clean =>
    rw [← Option.some.inj hstep]
    exact ⟨PmemBuffer.wf_empty, show (0 : Int) < 2 ^ 30 by omega,
      fun _ _ => (List.append_nil st.got).symm⟩

/-- A bounded step of a bounded buffer is defined. -/
theorem PmemState.step_bounded (h : st.buf.Wf) (hb : st.buf.Bounded) {op : PmemOp}
    (hok : st.LoadOk op) : ∃ st', st.step op = some st' ∧ st'.buf.Wf ∧ st'.buf.Bounded := by
  cases op with
  | load addr bytes junk =>
    by_cases hnothing : addr = 0 ∨ bytes.length = 0
    · exact ⟨st, PmemState.step_load_nothing junk hnothing, h, hb⟩
    · obtain ⟨haddr, hne⟩ := not_or.mp hnothing
      obtain ⟨_, hsum⟩ := hok
      obtain ⟨b', hload, hwf, _, _, hcap⟩ := h.load_spec haddr hne junk (by omega)
      refine ⟨_, by rw [PmemState.step, hload]; rfl, hwf, ?_⟩
      show b'.bufDataCapacity ≤ 2 ^ 30 + (defaultBufsize : Int)
      unfold PmemBuffer.Bounded at hb
      omega
  | write data junk =>
    obtain ⟨b', hwrite, hwf, hb', _⟩ := PmemState.write_bounded h hb hok junk
    exact ⟨_, by rw [PmemState.step, hwrite]; rfl, hwf, hb'⟩
  | read len =>
    obtain ⟨b', hread, hwf, _, hcap⟩ := h.read_spec len
    refine ⟨_, by rw [PmemState.step, hread]; rfl, hwf, ?_⟩
    show b'.bufDataCapacity ≤ _
    rw [hcap]
    exact hb
  | clean =>
    exact ⟨_, rfl, PmemBuffer.wf_empty, PmemBuffer.bounded_empty⟩

end

/-- For every fresh buffer and every bounded sequence of calls (which is defined
from a capacity of at most `2 ^ 30` plus one step on): in the state that it reaches
`load` appends exactly if it copies the unread bytes, finds them at the front, or
the bytes at the front happen to be the same.  When all loads of the sequence do,
the bytes loaded and written are those returned followed by the unread ones. -/
theorem load_appends_iff (b : PmemBuffer) (ops : List PmemOp) (hfresh : b.Fresh)
    (hok : Admissible PmemState.step PmemState.LoadOk (.init b) ops) :
    (b.Bounded → (run PmemState.step (.init b) ops).isSome) ∧
      ∀ st, run PmemState.step (.init b) ops = some st →
        (∀ addr bytes junk, addr ≠ 0 → 0 < bytes.length → bytes.length < 2 ^ 30 →
          (st.buf.Appends addr bytes junk ↔
            st.buf.Moves bytes.length ∨ st.buf.front = st.buf.content)) ∧
        (Admissible PmemState.step PmemState.FrontOk (.init b) ops →
          st.fed = st.got ++ st.buf.content) := by
  have hzero : (PmemState.init b).buf.remaining < 2 ^ 30 := by
    have hlen := hfresh.wf.length_content
    have hrem := hfresh.wf.remaining
    rw [hfresh.content] at hlen
    show b.remaining < 2 ^ 30
    simp only [List.length_nil] at hlen
    omega
  refine ⟨fun hb => ?_, fun st hrun => ⟨?_, fun hfront => ?_⟩⟩
  · obtain ⟨st, hrun, _⟩ := run_invariant (I := fun _ st => st.buf.Wf ∧ st.buf.Bounded)
      (fun _ _ _ st _ hI hop => PmemState.step_bounded hI.1 hI.2 hop) ⟨hfresh.wf, hb⟩ hok
    rw [hrun]
    rfl
  · have hreach : st.buf.Wf ∧ st.buf.remaining < 2 ^ 30 :=
      run_invariant_of_some (I := fun st => st.buf.Wf ∧ st.buf.remaining < 2 ^ 30)
        (fun st op st' hI hop hstep =>
          ⟨(PmemState.of_step hI.1 hop hI.2 hstep).1, (PmemState.of_step hI.1 hop hI.2 hstep).2.1⟩)
        ⟨hfresh.wf, hzero⟩ hok hrun
    intro addr bytes junk haddr hne hlen
    exact hreach.1.appends_iff haddr (by omega) junk (by omega)
  · have hreach := run_invariant_of_some
      (I := fun st => (st.buf.Wf ∧ st.buf.remaining < 2 ^ 30) ∧ st.fed = st.got ++ st.buf.content)
      (fun st op st' hI hop hstep => by
        obtain ⟨hwf, hpending, hfed⟩ := PmemState.of_step hI.1.1 hop.1 hI.1.2 hstep
        exact ⟨⟨hwf, hpending⟩, hfed hop.2 hI.2⟩)
      ⟨⟨hfresh.wf, hzero⟩, hfresh.content.symm⟩ (hok.and hfront) hrun
    exact hreach.2

theorem load_appends_sample :
    (PmemBuffer.empty.Bounded → (run PmemState.step (.init .empty)
        [.load 8 [1, 2] fun _ => 0, .read 1]).isSome) ∧
      ∀ st, run PmemState.step (.init .empty) [.load 8 [1, 2] fun _ => 0, .read 1] = some st →
        (∀ addr bytes junk, addr ≠ 0 → 0 < bytes.length → bytes.length < 2 ^ 30 →
          (st.buf.Appends addr bytes junk ↔
            st.buf.Moves bytes.length ∨ st.buf.front = st.buf.content)) ∧
        (Admissible PmemState.step PmemState.FrontOk (.init .empty)
            [.load 8 [1, 2] fun _ => 0, .read 1] →
          st.fed = st.got ++ st.buf.content) :=
  load_appends_iff .empty [.load 8 [1, 2] fun _ => 0, .read 1] (.inl rfl)
    ⟨by constructor <;> decide, fun _ _ => ⟨trivial, fun _ _ => trivial⟩⟩

/-- One of three bytes is read, and the buffer has room for a fourth.  `load` takes
the two bytes at the front for the unread ones. -/
theorem load_repeats_read_byte :
    ∃ st b', Admissible PmemState.step PmemState.LoadOk (.init .empty)
        [.write [1, 2, 3] fun _ => 0, .read 1] ∧
      run PmemState.step (.init .empty) [.write [1, 2, 3] fun _ => 0, .read 1] = some st ∧
      st.buf.content = [2, 3] ∧
      st.buf.load 8 [4] (fun _ => 0) = some (1, b') ∧ b'.content = [1, 2, 4] ∧
      ¬st.buf.Appends 8 [4] fun _ => 0 := by
  refine ⟨_, _, ⟨by constructor <;> decide, fun _ _ => ⟨trivial, fun _ _ => trivial⟩⟩, rfl, ?_, rfl,
    ?_, ?_⟩
  · decide
  · decide
  · rintro ⟨b', hload, hcontent⟩
    cases hload
    revert hcontent
    decide

end SparkNvm.Storage
