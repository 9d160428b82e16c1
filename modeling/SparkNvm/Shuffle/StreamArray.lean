import SparkNvm.Lib.Family
import SparkNvm.Storage.BlockBytes

/-!
# One block stream for each partition

The writer and the sorter of a map task work on an array of block streams, one for each
partition, in any order.

* `runStreams` makes the array and runs calls on its streams.
* `runStreams_ok_iff`: no call raises an exception exactly if every partition fits on its
  own.
* `runStreams_invariant`: the streams of the array have what each of them has alone.
* `runStreams_holds` and `runStreams_blockCount`: the calls of `setPartition` under the name
  of a partition are the ones that its stream makes.
-/

namespace SparkNvm.Shuffle

open Lib Storage

section

variable {R S : Type}

/-- A new stream for each partition; `data` are the contents of the pooled buffers. -/
def newStreams (ser : SerializerInstance R S) (name : Nat → String) (data : Nat → Mem)
    (numPartitions : Nat) : Except JavaError (List (NvmBlockOutputStream S) × List SetBlock) :=
  runLog (fun streams partitionId =>
      (NvmBlockOutputStream.new ser (name partitionId) (data partitionId)).map fun r =>
        (streams ++ [r.1], r.2))
    [] (List.range numPartitions)

/-- Calls on the streams, each with the number of its partition. -/
def callStreams (ser : SerializerInstance R S) (t : Int) :
    List (NvmBlockOutputStream S) → List (Nat × BlockOp R) →
      Except JavaError (List (NvmBlockOutputStream S) × List SetBlock) :=
  runLog (stepAt .indexOutOfBounds (NvmBlockOutputStream.step ser t))

/-- The array and the calls on it. -/
def runStreams (ser : SerializerInstance R S) (t : Int) (name : Nat → String) (data : Nat → Mem)
    (numPartitions : Nat) (ops : List (Nat × BlockOp R)) :
    Except JavaError (List (NvmBlockOutputStream S) × List SetBlock) :=
  match newStreams ser name data numPartitions with
  | .error e => .error e
  | .ok (streams, calls) => (callStreams ser t streams ops).map fun r => (r.1, calls ++ r.2)

variable {ser : SerializerInstance R S} {t : Int} {name : Nat → String} {data : Nat → Mem}
variable {n : Nat} {ops : List (Nat × BlockOp R)} {streams : List (NvmBlockOutputStream S)}
variable {calls : List SetBlock}

/-! ## The new array -/

/-- Reading the last entry or an earlier one. -/
theorem getElem?_snoc {β : Type*} {bs : List β} {b b' : β} {p : Nat}
    (h : (bs ++ [b])[p]? = some b') : (p = bs.length ∧ b' = b) ∨ bs[p]? = some b' := by
  by_cases hp : p < bs.length
  · rw [List.getElem?_append_left hp] at h
    exact .inr h
  · have hlt := (List.getElem?_eq_some_iff.mp h).1
    rw [List.length_append, List.length_singleton] at hlt
    have heq : p = bs.length := by omega
    rw [heq, List.getElem?_concat_length] at h
    exact .inl ⟨heq, (Option.some.inj h).symm⟩

theorem newStreams_accounts (name : Nat → String) (data : Nat → Mem)
    (hroom : (Account.start ser).staging.position ≤ bufferLength) (n : Nat) :
    ∃ streams calls, newStreams ser name data n = .ok (streams, calls) ∧
      FollowedBy Accounts n streams fun _ => .start ser := by
  induction n with
  | zero => exact ⟨[], [], rfl, rfl, by simp⟩
  | succ n ih =>
    obtain ⟨streams, calls, hnew, hlen, hall⟩ := ih
    obtain ⟨b, cs, hb, haccounts⟩ := accounts_new ser (name n) (data n) hroom
    refine ⟨streams ++ [b], calls ++ cs, ?_, ?_, ?_⟩
    · rw [newStreams, List.range_succ]
      refine runLog_append hnew (runLog_singleton ?_)
      rw [hb]
      rfl
    · rw [List.length_append, hlen]
      rfl
    · intro p b' hb'
      cases getElem?_snoc hb' with
      | inl hlast =>
        rw [hlast.2]
        exact haccounts
      | inr hold => exact hall p b' hold

/-- Without room for what the serializer emits at once there are no streams. -/
theorem newStreams_error (name : Nat → String) (data : Nat → Mem) (hn : 0 < n)
    (hroom : ¬(Account.start ser).staging.position ≤ bufferLength) :
    ∃ e, newStreams ser name data n = .error e := by
  obtain ⟨e, herror⟩ := new_error ser (name 0) (data 0) hroom
  obtain ⟨m, rfl⟩ : ∃ m, n = m + 1 := ⟨n - 1, by omega⟩
  refine ⟨e, ?_⟩
  rw [newStreams, List.range_succ_eq_map]
  apply runLog_cons_error
  rw [herror]
  rfl

/-! ## When no call raises an exception -/

/-- No call raises an exception exactly if every call names a partition and every
partition fits on its own. -/
theorem runStreams_ok_iff (ser : SerializerInstance R S) (t : Int) (name : Nat → String)
    (data : Nat → Mem) (n : Nat) (ops : List (Nat × BlockOp R)) :
    (∃ r, runStreams ser t name data n ops = .ok r) ↔
      (∀ c ∈ ops, c.1 < n) ∧ ∀ p < n, Fits ser t (opsAt p ops) := by
  by_cases hroom : n = 0 ∨ (Account.start ser).staging.position ≤ bufferLength
  · have hnew : ∃ streams calls, newStreams ser name data n = .ok (streams, calls) ∧
        FollowedBy Accounts n streams fun _ => .start ser := by
      cases hroom with
      | inl hzero =>
        rw [hzero]
        exact ⟨[], [], rfl, rfl, by simp⟩
      | inr hstart => exact newStreams_accounts name data hstart n
    obtain ⟨streams, calls, hnew, hfollows⟩ := hnew
    have hfits : (∀ p < n, Fits ser t (opsAt p ops)) ↔ ∀ p < n,
        Admissible (fun a op => some (Account.next ser t a op)) (Account.HasRoom ser) (.start ser)
          (opsAt p ops) :=
      forall₂_congr fun p hp => and_iff_right (hroom.resolve_left (by omega))
    rw [runStreams, hnew, hfits]
    refine exists_map_ok.trans (runLog_stepAt_ok_iff (R := Accounts) ?_ ?_ hfollows)
    · exact fun b a op h hop => h.step hop
    · exact fun b a op h hop => h.step_error hop
  · rw [not_or] at hroom
    obtain ⟨e, herror⟩ := newStreams_error name data (Nat.pos_of_ne_zero hroom.1) hroom.2
    refine iff_of_false ?_ fun h => hroom.2 (h.2 0 (Nat.pos_of_ne_zero hroom.1)).1
    rintro ⟨r, hr⟩
    rw [runStreams, herror] at hr
    simp at hr

/-! ## What the streams hand over -/

/-- What is known of the stream of a partition after the calls on it. -/
structure StreamHolds (ser : SerializerInstance R S) (name : String) (ops : List (BlockOp R))
    (b : NvmBlockOutputStream S) (calls : List SetBlock) : Prop where
  blockId : b.blockId = name
  objStream : b.objStream = objAfter ser ser.start.1 ops
  counted : Counted b (emitted ser ops).length calls
  stores : ser.Lawful → Stores b (emitted ser ops) calls
  idle : ops = [] → b.spilled = false
  forced : ∀ op, ops.getLast? = some op → op.force = true →
    b.pmemOutputStream.bufferRemainingSize = 0 ∧ b.pmemOutputStream.bufferFlushedSize = 0
  records : b.records = wrap32 (recordsOf ops).length

section

variable {key : String} {done : List (BlockOp R)} {b b' : NvmBlockOutputStream S}
variable {op : BlockOp R} {cs : List SetBlock}

theorem streamHolds_new {data : Mem} (h : NvmBlockOutputStream.new ser key data = .ok (b, cs)) :
    StreamHolds ser key [] b cs := by
  obtain ⟨hcounted, hobj, hid, hspilled⟩ := counted_new h
  have hemitted : emitted ser ([] : List (BlockOp R)) = bytesOf ser.start.2 := List.append_nil _
  refine ⟨hid, hobj, ?_, fun hser => ?_, fun _ => hspilled, by simp, ?_⟩
  · rw [hemitted]
    exact hcounted
  · rw [hemitted]
    exact (stores_new hser h).1
  · rw [(records_new h).1]
    exact wrap32_zero.symm

theorem StreamHolds.step (h : StreamHolds ser key done b calls)
    (hstep : b.step ser t op = .ok (b', cs)) :
    StreamHolds ser key (done ++ [op]) b' (calls ++ cs) := by
  obtain ⟨hcounted, hobj, hid, hforced⟩ := h.counted.step hstep
  rw [h.objStream] at hcounted hobj
  constructor
  · rw [hid, h.blockId]
  · rw [objAfter_concat, hobj]
  · rw [emitted_concat, List.length_append]
    exact hcounted
  · intro hser
    have hstores := (h.stores hser).step hser hstep
    rw [h.objStream] at hstores
    rw [emitted_concat]
    exact hstores
  · intro hnil
    simp at hnil
  · intro op' hop' hforce
    rw [List.getLast?_concat, Option.some.injEq] at hop'
    exact hforced (by rw [hop']; exact hforce)
  · obtain ⟨out, hrecords⟩ := records_step hstep
    rw [hrecords, recordsOf, List.filterMap_append, List.length_append, Int.natCast_add]
    cases op with
    | write record =>
      show wrap32 (b.records + 1) = wrap32 ((recordsOf done).length + 1)
      rw [h.records, wrap32_add_left]
    | maybeSpill force =>
      show b.records = wrap32 ((recordsOf done).length + 0)
      rw [h.records, Int.add_zero]

/-- The calls on a stream of its own. -/
theorem runOps_holds {data : Mem} {ops : List (BlockOp R)}
    (h : NvmBlockOutputStream.runOps ser t key data ops = .ok (b, calls)) :
    StreamHolds ser key ops b calls :=
  runOps_invariant (fun _ _ hnew => streamHolds_new hnew)
    (fun _ _ _ _ _ _ hold hstep => hold.step hstep) h

theorem StreamHolds.key_eq (h : StreamHolds ser key done b calls) {call : SetBlock}
    (hcall : call ∈ calls) : call.key = key := by
  rw [← h.blockId]
  exact h.counted.keys call hcall

end

/-- Of calls that are made under different names, those under one name. -/
theorem filter_flatMap_key {γ : Type} {xs : List γ} {f : γ → List SetBlock} {p : Nat} {x : γ}
    (hname : ∀ p < xs.length, ∀ q < xs.length, name p = name q → p = q)
    (hkeys : ∀ q y, xs[q]? = some y → ∀ call ∈ f y, call.key = name q) (hx : xs[p]? = some x) :
    (xs.flatMap f).filter (fun call => call.key = name p) = f x := by
  rw [List.filter_flatMap, flatMap_eq_of_index hx]
  · rw [List.filter_eq_self]
    intro call hcall
    exact decide_eq_true (hkeys p x hx call hcall)
  · intro q y hy hne
    rw [List.filter_eq_nil_iff]
    intro call hcall
    rw [decide_eq_true_eq, hkeys q y hy call hcall]
    exact fun heq => hne (hname q (List.getElem?_eq_some_iff.mp hy).1 p
      (List.getElem?_eq_some_iff.mp hx).1 heq)

/-- Every stream of a new array is a new one. -/
theorem newStreams_results (h : newStreams ser name data n = .ok (streams, calls)) :
    ∃ results : List (NvmBlockOutputStream S × List SetBlock), results.length = n ∧
      (∀ p r, results[p]? = some r →
        NvmBlockOutputStream.new ser (name p) (data p) = .ok r) ∧
      streams = results.map Prod.fst ∧ calls = results.flatMap Prod.snd := by
  induction n generalizing streams calls with
  | zero =>
    have hpair : (([], []) : List (NvmBlockOutputStream S) × List SetBlock) = (streams, calls) :=
      Except.ok.inj h
    rw [Prod.mk.injEq] at hpair
    exact ⟨[], rfl, by simp, hpair.1.symm, hpair.2.symm⟩
  | succ n ih =>
    rw [newStreams, List.range_succ] at h
    obtain ⟨streams₁, c₁, c₂, hinit, hlast, rfl⟩ := runLog_append_ok h
    obtain ⟨results, hlen, hall, rfl, rfl⟩ := ih hinit
    obtain ⟨streams₂, c₃, c₄, hone, hnil, rfl⟩ := runLog_cons_ok hlast
    obtain ⟨r, hnew, hone'⟩ := map_eq_ok.mp hone
    have hnil' := Except.ok.inj hnil
    rw [Prod.mk.injEq] at hone' hnil'
    refine ⟨results ++ [r], ?_, fun p r' hr' => ?_, ?_, ?_⟩
    · rw [List.length_append, hlen]
      rfl
    · cases getElem?_snoc hr' with
      | inl hlast' =>
        rw [hlast'.1, hlast'.2, hlen]
        exact hnew
      | inr hold => exact hall p r' hold
    · rw [← hnil'.1, ← hone'.1, List.map_append]
      rfl
    · rw [← hnil'.2, ← hone'.2, List.append_nil, List.flatMap_append, List.flatMap_singleton]

/-- What every new stream has and every call keeps, the streams of the array have, each with the
calls on it and the blocks under its name. -/
theorem runStreams_invariant
    {I : Nat → List (BlockOp R) → NvmBlockOutputStream S → List SetBlock → Prop}
    (hkeys : ∀ p ops b calls, I p ops b calls → ∀ call ∈ calls, call.key = name p)
    (hnew : ∀ p b calls, NvmBlockOutputStream.new ser (name p) (data p) = .ok (b, calls) →
      I p [] b calls)
    (hstep : ∀ p done b calls op b' cs, I p done b calls → b.step ser t op = .ok (b', cs) →
      I p (done ++ [op]) b' (calls ++ cs))
    (hname : ∀ p < n, ∀ q < n, name p = name q → p = q)
    (h : runStreams ser t name data n ops = .ok (streams, calls)) :
    streams.length = n ∧ (∀ call ∈ calls, ∃ p < n, call.key = name p) ∧
      ∀ p b, streams[p]? = some b →
        I p (opsAt p ops) b (calls.filter fun call => call.key = name p) := by
  cases hfirst : newStreams ser name data n with
  | error e =>
    rw [runStreams, hfirst] at h
    simp at h
  | ok r =>
    obtain ⟨results, hlen, hall, hstreams, hcalls⟩ := newStreams_results hfirst
    rw [runStreams, hfirst] at h
    obtain ⟨r', hrun, hpair⟩ := map_eq_ok.mp h
    rw [Prod.mk.injEq] at hpair
    rw [← hpair.1, ← hpair.2]
    have hresult : ∀ p s, results[p]? = some s → I p [] s.1 s.2 := fun p s hs =>
      hnew p s.1 s.2 (hall p s hs)
    have hstart : ∀ p b, r.1[p]? = some b →
        I p [] b (r.2.filter fun call => call.key = name p) := by
      intro p b hb
      rw [hstreams, List.getElem?_map] at hb
      obtain ⟨s, hs, rfl⟩ := Option.map_eq_some_iff.mp hb
      rw [hcalls, filter_flatMap_key (by rw [hlen]; exact hname)
        (fun q s hs => hkeys q [] s.1 s.2 (hresult q s hs)) hs]
      exact hresult p s hs
    have hown : ∀ p ops b calls op b' cs, p < n → I p ops b calls →
        b.step ser t op = .ok (b', cs) → ∀ call ∈ cs, ∀ q < n,
          decide (call.key = name q) = decide (q = p) := by
      intro p ops b calls op b' cs hp hI hop call hcall q hq
      have hkey : call.key = name p :=
        hkeys p _ _ _ (hstep p ops b calls op b' cs hI hop) call (List.mem_append_right _ hcall)
      rw [decide_eq_decide, hkey]
      exact ⟨fun heq => hname q hq p hp heq.symm, fun heq => by rw [heq]⟩
    have hlength : r.1.length = n := by rw [hstreams, List.length_map, hlen]
    obtain ⟨hlen', hkeys', hend⟩ := runLog_stepAt_invariant
      (fun p (call : SetBlock) => decide (call.key = name p)) hstep hown [] r.2 hlength hstart hrun
    refine ⟨hlen', fun call hcall => ?_, hend⟩
    cases List.mem_append.mp hcall with
    | inl hcall =>
      rw [hcalls] at hcall
      obtain ⟨s, hs, hcall⟩ := List.mem_flatMap.mp hcall
      obtain ⟨p, hp⟩ := List.mem_iff_getElem?.mp hs
      refine ⟨p, ?_, hkeys p [] s.1 s.2 (hresult p s hp) call hcall⟩
      rw [← hlen]
      exact (List.getElem?_eq_some_iff.mp hp).1
    | inr hcall =>
      obtain ⟨p, hp, hkey⟩ := hkeys' call hcall
      exact ⟨p, hp, of_decide_eq_true hkey⟩

/-- The calls under the name of a partition are those of its stream. -/
theorem runStreams_holds (hname : ∀ p < n, ∀ q < n, name p = name q → p = q)
    (h : runStreams ser t name data n ops = .ok (streams, calls)) :
    streams.length = n ∧ (∀ call ∈ calls, ∃ p < n, call.key = name p) ∧
      ∀ p b, streams[p]? = some b →
        StreamHolds ser (name p) (opsAt p ops) b (calls.filter fun call => call.key = name p) :=
  runStreams_invariant (fun _ _ _ _ hI _ hcall => hI.key_eq hcall)
    (fun _ _ _ hnew => streamHolds_new hnew) (fun _ _ _ _ _ _ _ hI hstep => hI.step hstep) hname h

/-- The number of blocks under the name of a partition. -/
theorem runStreams_blockCount (hser : ser.Lawful)
    (hname : ∀ p < n, ∀ q < n, name p = name q → p = q)
    (h : runStreams ser t name data n ops = .ok (streams, calls)) {p : Nat} (hp : p < n) :
    (calls.filter fun call => call.key = name p).length = blockCount ser t (opsAt p ops) := by
  obtain ⟨hlen, _, hall⟩ := runStreams_invariant
    (I := fun p ops b calls => StreamHolds ser (name p) ops b calls ∧
      BlocksCounted ser t ops b calls)
    (fun _ _ _ _ hI _ hcall => hI.1.key_eq hcall)
    (fun _ _ _ hnew => ⟨streamHolds_new hnew, blocksCounted_new hser hnew⟩)
    (fun _ _ _ _ _ _ _ hI hstep => ⟨hI.1.step hstep, hI.2.step hser hstep⟩) hname h
  have hb : streams[p]? = some (streams.get ⟨p, by rw [hlen]; exact hp⟩) :=
    List.getElem?_eq_getElem _
  exact (hall p _ hb).2.length

end

end SparkNvm.Shuffle
