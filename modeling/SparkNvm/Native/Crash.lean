import SparkNvm.Lib.Machine
import SparkNvm.Native.Ownership

/-!
# A power cut inside an operation

The persistent list is all that outlives the process.  `put` and `free_all` are taken apart
into the requests to the memory service, and the process may stop between any two of them.

* `Shows` is what a walk from `bp->head` reads; the tail, the counter and the index are not
  part of it.  `dumpWalk` is such a walk.
* `putMachine` and `freeMachine` are the two operations as steps, `exec_putMachine` and
  `exec_freeMachine` say that they compute `put` and `free_all`.
* `crash_atomic`: every operation has a request before which the walk shows the old list and
  after which it shows the new one.
-/

namespace SparkNvm.Native

open Lib

/-! ## What a walk shows -/

/-- A walk from the head visits the entries `es` and finds each of them whole. -/
structure Shows (s : Service) (bp : Nat) (es : List Entry) : Prop where
  chain : PtrChain (load64 s.mem) (load64 s.mem (headAddr bp)) (es.map Entry.addr)
  entries : ∀ e ∈ es, EntryIn s.mem e

section

variable {s s' : Service} {bp : Nat} {es : List Entry}

theorem Shows.dumpWalk {kv : Pmemkv} (h : Shows kv.service kv.bp es) {fuel : Nat}
    (hfuel : es.length ≤ fuel) : kv.dumpWalk fuel = some (es.map fun e => (e.key, e.bytes)) :=
  walkLoop_spec kv.service _ h.chain h.entries hfuel

theorem Linked.shows (h : Linked s bp es) : Shows s bp es := ⟨h.chain, h.entries⟩

/-- Of the root, the walk reads the head only. -/
theorem Linked.shows_frame (h : Linked s bp es)
    (hmem : ∀ r ∈ ownedRegions bp es, ∀ x, r.Has x → ¬(bp + 8 ≤ x ∧ x < bp + 64) →
      s'.mem x = s.mem x) : Shows s' bp es := by
  have hmiss : ∀ {r : Region} {x : Nat}, Apart (baseRegion bp) r → r.Has x →
      ¬(bp + 8 ≤ x ∧ x < bp + 64) := by
    intro r x hap hx hin
    exact hap.not_has (⟨by omega, hin.2⟩ : bp ≤ x ∧ x < bp + 64) hx
  have hheader : ∀ e ∈ es, ∀ x, e.header.Has x → s'.mem x = s.mem x := fun e he x hx =>
    hmem _ (header_mem_owned he) x hx (hmiss (h.layout.base_header e he) hx)
  have hpayload : ∀ e ∈ es, ∀ x, e.payload.Has x → s'.mem x = s.mem x := fun e he x hx =>
    hmem _ (payload_mem_owned he) x hx (hmiss (h.layout.base_payload e he) hx)
  have hhead : load64 s'.mem (headAddr bp) = load64 s.mem (headAddr bp) := by
    refine load64_congr fun x hlo hhi => hmem _ (base_mem_owned bp es) x ?_ ?_
    · have hin : bp ≤ x ∧ x < bp + 64 := by
        unfold headAddr at hlo hhi
        omega
      exact hin
    · unfold headAddr at hlo hhi
      omega
  refine ⟨?_, fun e he => (h.entries e he).frame
    (fun x hlo hhi => hheader e he x (Entry.header_has_field hlo hhi)) (hpayload e he)⟩
  rw [hhead]
  refine h.chain.congr fun x hx => ?_
  obtain ⟨e, he, rfl⟩ := List.mem_map.mp hx
  exact Entry.next_of_agree (hheader e he)

/-- The list before its tail is moved. -/
theorem Linked.shows_before_tail {m : Mem} {v : Nat} {regions : List Region}
    (h : Linked ⟨store64 m (tailAddr bp) v, regions⟩ bp es) (hmem : s.mem = m) : Shows s bp es := by
  refine h.shows_frame fun r _ x _ hx => ?_
  rw [hmem]
  exact (store64_of_not_mem m v (by unfold tailAddr; omega)).symm

end

/-! ## The operations as steps -/

/-- `put`, one request after the other. -/
def putMachine (hash : String → UInt64) (call : PutCall) : Machine Pmemkv PutPc Int :=
  fun pc kv => (pc.step hash call kv).map fun r =>
    (r.1, match r.2 with
      | .go pc => .go pc
      | .ret code => .ret code)

/-- Where a client is in `free_all`, with the local values it still needs. -/
inductive FreePc where
  | getHead
  | getSize (bep : Nat)
  | getNext (bep size : Nat)
  | subLoad (next size : Nat)
  | subStore (next size tmp : Nat)
  | setHead
  | setTail
  | getWritten
  | freeMeta
  deriving DecidableEq, Repr

/-- The test of the loop. -/
def FreePc.loop (bep : Nat) : FreePc := if bep = 0 then .setHead else .getSize bep

/-- `free_all`, one request after the other; `free_meta` holds `mtx` and makes none. -/
def freeMachine (fuel : Nat) : Machine Pmemkv FreePc Int := fun pc kv =>
  match pc with
  | .getHead => some (kv, .go (.loop (kv.service.tbpGet (headAddr kv.bp))))
  | .getSize bep => some (kv, .go (.getNext bep (kv.service.tbpGet (sizeAddr bep))))
  | .getNext bep size => some (kv, .go (.subLoad (kv.service.tbpGet (nextAddr bep)) size))
  | .subLoad next size =>
    some (kv, .go (.subStore next size (kv.service.tbpGet (writtenAddr kv.bp))))
  | .subStore next size tmp =>
    let s := kv.service.tbpSet true (writtenAddr kv.bp) (Service.sub64 tmp size)
    some (kv.withService s, .go (.loop next))
  | .setHead => some (kv.withService (kv.service.tbpSet true (headAddr kv.bp) 0), .go .setTail)
  | .setTail => some (kv.withService (kv.service.tbpSet true (tailAddr kv.bp) 0), .go .getWritten)
  | .getWritten =>
    -- assert(TBPGet(&bp->bytes_written) == 0)
    if kv.service.tbpGet (writtenAddr kv.bp) = 0 then some (kv, .go .freeMeta) else none
  | .freeMeta => do
    let (code, ix) ← kv.index.freeMeta fuel
    return ({ kv with index := ix }, .ret (if code ≠ 0 then -1 else 0))

/-- The states of the object while the operation runs. -/
def Pmemkv.statesOf (hash : String → UInt64) (fuel : Nat) (kv : Pmemkv) : Op → List Pmemkv
  | .put call => (putMachine hash call).states 14 .allocEntry kv
  | .freeAll => (freeMachine fuel).states (4 * fuel + 5) .getHead kv

section

variable {hash : String → UInt64} {call : PutCall} {kv kv' : Pmemkv} {pc pc' : PutPc}

theorem putMachine_go (h : pc.step hash call kv = some (kv', .go pc')) :
    putMachine hash call pc kv = some (kv', .go pc') := by
  rw [putMachine, h]
  rfl

theorem putMachine_ret {code : Int} (h : pc.step hash call kv = some (kv', .ret code)) :
    putMachine hash call pc kv = some (kv', .ret code) := by
  rw [putMachine, h]
  rfl

theorem exec_putMachine (n : Nat) (kv : Pmemkv) (pc : PutPc) :
    (putMachine hash call).exec n pc kv = runCall hash call n kv pc := by
  induction n generalizing kv pc with
  | zero => rfl
  | succ n ih =>
    cases hstep : pc.step hash call kv with
    | none => rw [runCall_none n hstep, Machine.exec_none n (by rw [putMachine, hstep]; rfl)]
    | some r =>
      obtain ⟨kv', next⟩ := r
      cases next with
      | go pc' => rw [runCall_go n hstep, Machine.exec_go n (putMachine_go hstep), ih]
      | ret code =>
        rw [Machine.exec_ret n (putMachine_ret hstep), runCall, hstep]

end

/-- The assertion and `free_meta`. -/
theorem exec_freeMachine_getWritten (fuel n : Nat) (s : Service) (bp : Nat) (ix : Index) :
    (freeMachine fuel).exec (n + 2) .getWritten ⟨s, bp, ix⟩ =
      if s.tbpGet (writtenAddr bp) = 0 then
        (ix.freeMeta fuel).bind fun r =>
          if r.1 ≠ 0 then some (-1, ⟨s, bp, r.2⟩) else some (0, ⟨s, bp, r.2⟩)
      else
        none := by
  by_cases hzero : s.tbpGet (writtenAddr bp) = 0
  · have hgo : freeMachine fuel .getWritten ⟨s, bp, ix⟩ = some (⟨s, bp, ix⟩, .go .freeMeta) := by
      simp only [freeMachine, if_pos hzero]
    rw [Machine.exec_go _ hgo, if_pos hzero]
    cases hfree : ix.freeMeta fuel with
    | none => exact Machine.exec_none _ (by simp [freeMachine, hfree])
    | some r =>
      obtain ⟨code, ix'⟩ := r
      have hret : freeMachine fuel .freeMeta ⟨s, bp, ix⟩ =
          some (⟨s, bp, ix'⟩, .ret (if code ≠ 0 then -1 else 0)) := by
        simp [freeMachine, hfree]
      rw [Machine.exec_ret _ hret]
      by_cases hcode : code = 0 <;> simp [hcode]
  · have hnone : freeMachine fuel .getWritten ⟨s, bp, ix⟩ = none := by
      simp only [freeMachine, if_neg hzero]
    rw [Machine.exec_none _ hnone, if_neg hzero]

/-- Four steps after the loop are enough. -/
theorem exec_freeMachine_setHead (fuel n : Nat) (s : Service) (bp : Nat) (ix : Index) :
    (freeMachine fuel).exec (n + 4) .setHead ⟨s, bp, ix⟩ =
      let s := (s.tbpSet true (headAddr bp) 0).tbpSet true (tailAddr bp) 0
      if s.tbpGet (writtenAddr bp) = 0 then
        (ix.freeMeta fuel).bind fun r =>
          if r.1 ≠ 0 then some (-1, ⟨s, bp, r.2⟩) else some (0, ⟨s, bp, r.2⟩)
      else
        none := by
  rw [Machine.exec_go (n + 3) rfl, Machine.exec_go (n + 2) rfl]
  exact exec_freeMachine_getWritten fuel n _ bp ix

/-- The object after the size of an entry was taken off. -/
def Pmemkv.subEntry (kv : Pmemkv) (bep : Nat) : Pmemkv :=
  kv.withService (kv.service.tbpSub true (writtenAddr kv.bp) (kv.service.tbpGet (sizeAddr bep)))

/-- One round of the loop of `free_all`. -/
theorem exec_freeMachine_round (fuel n : Nat) (kv : Pmemkv) {bep : Nat} (hbep : bep ≠ 0) :
    (freeMachine fuel).exec (n + 4) (.loop bep) kv =
      (freeMachine fuel).exec n (.loop (kv.service.tbpGet (nextAddr bep))) (kv.subEntry bep) := by
  rw [FreePc.loop, if_neg hbep, Machine.exec_go (n + 3) rfl, Machine.exec_go (n + 2) rfl,
    Machine.exec_go (n + 1) rfl, Machine.exec_go n rfl]
  rfl

theorem freeEntries_zero (bp n : Nat) (s : Service) : Pmemkv.freeEntries bp n s 0 = some s := by
  cases n with
  | zero => rw [Pmemkv.freeEntries, if_pos rfl]
  | succ n => rw [Pmemkv.freeEntries, if_pos rfl]

/-- The loop of `free_all` takes four steps for an entry. -/
theorem exec_freeMachine_loop (fuel n : Nat) (kv : Pmemkv) (bep : Nat) :
    (freeMachine fuel).exec (4 * n + 4) (.loop bep) kv =
      (Pmemkv.freeEntries kv.bp n kv.service bep).bind fun s =>
        (freeMachine fuel).exec 4 .setHead (kv.withService s) := by
  induction n generalizing kv bep with
  | zero =>
    by_cases hbep : bep = 0
    · rw [hbep, freeEntries_zero, Option.bind_some]
      rfl
    · have hnone : Pmemkv.freeEntries kv.bp 0 kv.service bep = none := by
        rw [Pmemkv.freeEntries, if_neg hbep]
      rw [hnone, Option.bind_none, exec_freeMachine_round fuel 0 kv hbep, Machine.exec]
  | succ n ih =>
    by_cases hbep : bep = 0
    · rw [hbep, freeEntries_zero, Option.bind_some, FreePc.loop, if_pos rfl]
      show (freeMachine fuel).exec (4 * n + 4 + 4) .setHead ⟨kv.service, kv.bp, kv.index⟩ =
        (freeMachine fuel).exec (0 + 4) .setHead ⟨kv.service, kv.bp, kv.index⟩
      rw [exec_freeMachine_setHead, exec_freeMachine_setHead]
    · have hround : Pmemkv.freeEntries kv.bp (n + 1) kv.service bep =
          Pmemkv.freeEntries kv.bp n (kv.subEntry bep).service
            (kv.service.tbpGet (nextAddr bep)) := by
        rw [Pmemkv.freeEntries, if_neg hbep]
        rfl
      rw [hround, show 4 * (n + 1) + 4 = 4 * n + 4 + 4 by omega,
        exec_freeMachine_round fuel _ kv hbep, ih]
      rfl

/-- The steps of `free_all` compute `free_all`. -/
theorem exec_freeMachine (fuel : Nat) (kv : Pmemkv) :
    (freeMachine fuel).exec (4 * fuel + 5) .getHead kv = kv.freeAll fuel := by
  have hstart : (freeMachine fuel).exec (4 * fuel + 5) .getHead kv =
      (freeMachine fuel).exec (4 * fuel + 4) (.loop (kv.service.tbpGet (headAddr kv.bp))) kv :=
    Machine.exec_go _ rfl
  rw [hstart, exec_freeMachine_loop, Pmemkv.freeAll, Option.bind_eq_bind]
  cases Pmemkv.freeEntries kv.bp fuel kv.service (kv.service.tbpGet (headAddr kv.bp)) with
  | none => rw [Option.bind_none, Option.bind_none]
  | some s =>
    rw [Option.bind_some, Option.bind_some]
    exact exec_freeMachine_setHead fuel 0 s kv.bp kv.index

/-! ## The request that commits -/

section

variable {hash : String → UInt64} {call : PutCall} {s : Service} {bp : Nat} {kv : Pmemkv}
variable {es : List Entry}

/-- A store into a range that the list does not own. -/
theorem Linked.tbpStore (h : Linked s bp es) {r : Region}
    (hr : ∀ r' ∈ ownedRegions bp es, Apart r r') (ok : Bool) {a : Nat} {bs : List UInt8}
    (hlo : r.base ≤ a) (hhi : a + bs.length ≤ r.base + r.size) :
    Linked (s.tbpStore ok a bs) bp es := by
  refine h.frame (fun r' hr' x hx _ => ?_) fun r hr => by rw [Service.tbpStore_regions]; exact hr
  cases ok with
  | false => rfl
  | true => exact storeBytes_of_apart s.mem (hr r' hr') hlo hhi hx

/-- A store into a field of an entry that the list does not own. -/
theorem Linked.tbpSet (h : Linked s bp es) (hr : ∀ r ∈ ownedRegions bp es, Apart call.header r)
    (ok : Bool) {a : Nat} (v : Nat) (hlo : call.ans.entry ≤ a) (hhi : a + 8 ≤ call.ans.entry + 32) :
    Linked (s.tbpSet ok a v) bp es :=
  h.tbpStore hr ok hlo (by rw [encodeLE_length]; exact hhi)

theorem Linked.tbpAlloc (h : Linked s bp es) (size : Nat) {answer : Nat} (h0 : answer ≠ 0) :
    Linked (s.tbpAlloc size answer) bp es := by
  refine h.frame (fun r _ x _ _ => by rw [Service.tbpAlloc_mem]) fun r hr => ?_
  rw [Service.tbpAlloc_regions _ _ _ h0]
  exact List.mem_cons_of_mem _ hr

/-- The object with the root `bp`, in a state that shows `es`. -/
def Pmemkv.ShowsAt (bp : Nat) (es : List Entry) (kv : Pmemkv) : Prop :=
  kv.bp = bp ∧ Shows kv.service bp es

/-- `update_meta` changes nothing but the index. -/
theorem updateMeta_frame {bep metaPtr listPtr : Nat} {r : Int × Pmemkv}
    (h : kv.updateMeta bep metaPtr listPtr = some r) :
    r.2.service = kv.service ∧ r.2.bp = kv.bp := by
  obtain ⟨key, _, h⟩ := Option.bind_eq_some_iff.mp h
  obtain ⟨size, _, h⟩ := Option.bind_eq_some_iff.mp h
  obtain ⟨off, _, h⟩ := Option.bind_eq_some_iff.mp h
  obtain ⟨ix, _, h⟩ := Option.bind_eq_some_iff.mp h
  rw [← Option.some.inj h]
  exact ⟨rfl, rfl⟩

/-- The step behind a step of the machine. -/
theorem putMachine_eq_some {pc : PutPc} {kv' : Pmemkv} {next : Next PutPc Int}
    (h : putMachine hash call pc kv = some (kv', next)) :
    ∃ r, pc.step hash call kv = some (kv', r) ∧ ∀ pc', next = .go pc' → r = .go pc' := by
  obtain ⟨⟨k, r⟩, hstep, heq⟩ := Option.map_eq_some_iff.mp h
  rw [Prod.mk.injEq] at heq
  obtain ⟨rfl, rfl⟩ := heq
  refine ⟨r, hstep, fun pc' hnext => ?_⟩
  cases r with
  | go pc => rw [Next.go.inj hnext]
  | ret code => simp at hnext

/-- Once the entry is linked, the rest of `put` writes the tail and the counter only. -/
theorem putMachine_linked {s₂ : Service} (h : Linked s₂ bp es) (hbp : kv.bp = bp)
    (hmem : ∀ x, ¬(bp + 8 ≤ x ∧ x < bp + 64) → kv.service.mem x = s₂.mem x) (n : Nat) :
    ∀ k ∈ (putMachine hash call).states n .setTail kv, k.ShowsAt bp es := by
  let I : PutPc → Pmemkv → Prop := fun pc k => 10 ≤ pc.rank ∧ k.bp = bp ∧
    ∀ x, ¬(bp + 8 ≤ x ∧ x < bp + 64) → k.service.mem x = s₂.mem x
  have hstep : ∀ pc k k' r, I pc k → pc.step hash call k = some (k', r) →
      (∀ pc', r = .go pc' → 10 ≤ pc'.rank) ∧ k'.bp = bp ∧
        ∀ x, ¬(bp + 8 ≤ x ∧ x < bp + 64) → k'.service.mem x = s₂.mem x := by
    rintro pc k k' r ⟨hrank, rfl, hagree⟩ hk
    have hroot : ∀ ok a v, k.bp + 8 ≤ a → a + 8 ≤ k.bp + 64 → ∀ x,
        ¬(k.bp + 8 ≤ x ∧ x < k.bp + 64) → (k.service.tbpSet ok a v).mem x = s₂.mem x := by
      intro ok a v hlo hhi x hx
      rw [← hagree x hx]
      cases ok with
      | false => rfl
      | true => exact store64_of_not_mem _ _ (by omega)
    cases pc with
    | setTail =>
      rw [PutPc.step, Option.some.injEq, Prod.mk.injEq] at hk
      obtain ⟨rfl, rfl⟩ := hk
      refine ⟨fun pc' hpc' => ?_, rfl, hroot _ _ _ (Nat.le_refl _) (by unfold tailAddr; omega)⟩
      rw [← PutNext.go.inj hpc']
      decide
    | addLoad =>
      rw [PutPc.step, Option.some.injEq, Prod.mk.injEq] at hk
      obtain ⟨rfl, rfl⟩ := hk
      refine ⟨fun pc' hpc' => ?_, rfl, hagree⟩
      rw [← PutNext.go.inj hpc', PutPc.rank]
      decide
    | addStore tmp =>
      rw [PutPc.step, Option.some.injEq, Prod.mk.injEq] at hk
      obtain ⟨rfl, rfl⟩ := hk
      refine ⟨fun pc' hpc' => ?_, rfl, hroot _ _ _ (by unfold writtenAddr; omega)
        (by unfold writtenAddr; omega)⟩
      rw [← PutNext.go.inj hpc']
      decide
    | updateMeta =>
      obtain ⟨⟨code, k₁⟩, hupd, heq⟩ := Option.bind_eq_some_iff.mp hk
      rw [Option.pure_def, Option.some.injEq, Prod.mk.injEq] at heq
      obtain ⟨rfl, rfl⟩ := heq
      obtain ⟨hservice, hbp'⟩ := updateMeta_frame hupd
      refine ⟨fun pc' hpc' => by simp at hpc', hbp', fun x hx => ?_⟩
      rw [hservice]
      exact hagree x hx
    | _ => simp [PutPc.rank] at hrank
  refine Machine.forall_states (I := I) ?_ ?_ ?_ ⟨by decide, hbp, hmem⟩
  · rintro pc k ⟨_, hk, hagree⟩
    exact ⟨hk, h.shows_frame fun r _ x _ hx => hagree x hx⟩
  · intro pc k k' pc' hI hk
    obtain ⟨r, hr, hgo⟩ := putMachine_eq_some hk
    obtain ⟨hrank, hbp', hagree⟩ := hstep pc k k' r hI hr
    exact ⟨hrank pc' (hgo pc' rfl), hbp', hagree⟩
  · intro pc k k' code hI hk
    obtain ⟨r, hr, _⟩ := putMachine_eq_some hk
    obtain ⟨_, hbp', hagree⟩ := hstep pc k k' r hI hr
    exact ⟨hbp', h.shows_frame fun r _ x _ hx => hagree x hx⟩

/-- From the test of the tail on, the commit of `put` is the store that links the entry. -/
theorem putMachine_commits_getTail (hash : String → UInt64) (kv : Pmemkv) {s₂ : Service}
    (hold : Linked kv.service kv.bp es) (hstored : call.ans.Stored)
    (hrun : Pmemkv.putLink kv.service kv.bp call.value.length call.ans = some s₂) {es' : List Entry}
    (hnew : Linked s₂ kv.bp es') :
    Commits (Pmemkv.ShowsAt kv.bp es) (Pmemkv.ShowsAt kv.bp es')
      ((putMachine hash call).states 7 .getTail kv) := by
  have hshows : kv.ShowsAt kv.bp es := ⟨rfl, hold.shows⟩
  have hmem : ∀ x, ¬(kv.bp + 8 ≤ x ∧ x < kv.bp + 64) →
      (kv.service.tbpSet call.ans.linkOk (linkAddr kv.service.mem kv.bp) call.ans.entry).mem x =
        s₂.mem x := by
    intro x hx
    rw [putLink_eq _ _ hstored hold.bp_ne] at hrun
    rw [← Option.some.inj hrun, hstored.2.2.2.2.2.1, Service.tbpSet_true_mem]
    show _ = store64 (linkMem kv.service.mem kv.bp call.ans.entry) (writtenAddr kv.bp) _ x
    rw [store64_of_not_mem (linkMem kv.service.mem kv.bp call.ans.entry) _
      (by unfold writtenAddr; omega)]
    exact (store64_of_not_mem _ _ (by unfold tailAddr; omega)).symm
  have hcommit : ∀ n pc, (putMachine hash call) pc kv = some (kv.withService
      (kv.service.tbpSet call.ans.linkOk (linkAddr kv.service.mem kv.bp) call.ans.entry),
        .go .setTail) →
      Commits (Pmemkv.ShowsAt kv.bp es) (Pmemkv.ShowsAt kv.bp es')
        ((putMachine hash call).states (n + 1) pc kv) := by
    intro n pc hstep
    rw [Machine.states_go n hstep]
    exact Commits.here hshows (Machine.states_ne_nil _ _ _) (putMachine_linked hnew (by rfl) hmem n)
  by_cases ht : kv.service.tbpGet (tailAddr kv.bp) = 0
  · have hgo : putMachine hash call .getTail kv = some (kv, .go .setHead) :=
      putMachine_go (by rw [PutPc.step, if_pos ht])
    have haddr : linkAddr kv.service.mem kv.bp = headAddr kv.bp := if_pos ht
    rw [Machine.states_go 6 hgo]
    refine Commits.cons (hcommit 5 .setHead (putMachine_go ?_)) hshows
    rw [haddr]
    rfl
  · have hgo : putMachine hash call .getTail kv = some (kv, .go .derefTail) :=
      putMachine_go (by rw [PutPc.step, if_neg ht])
    have hderef : putMachine hash call .derefTail kv =
        some (kv, .go (.linkNext (load64 kv.service.mem (tailAddr kv.bp)))) :=
      putMachine_go (by rw [PutPc.step, Service.deref_of_ne _ _ _ hold.bp_ne]; rfl)
    have haddr : linkAddr kv.service.mem kv.bp =
        nextAddr (load64 kv.service.mem (tailAddr kv.bp)) := if_neg ht
    rw [Machine.states_go 6 hgo, Machine.states_go 5 hderef]
    refine Commits.cons (Commits.cons (hcommit 4 _ (putMachine_go ?_)) hshows) hshows
    rw [haddr]
    rfl

/-- A step before it. -/
theorem putMachine_commits_step {old new : List Entry} {s' : Service} {n : Nat} {pc' : PutPc}
    (hrest : Commits (Pmemkv.ShowsAt kv.bp old) (Pmemkv.ShowsAt kv.bp new)
      ((putMachine hash call).states n pc' (kv.withService s'))) (pc : PutPc)
    (hl : Linked s kv.bp old)
    (hstep : pc.step hash call (kv.withService s) = some (kv.withService s', .go pc')) :
    Commits (Pmemkv.ShowsAt kv.bp old) (Pmemkv.ShowsAt kv.bp new)
      ((putMachine hash call).states (n + 1) pc (kv.withService s)) := by
  rw [Machine.states_go n (putMachine_go hstep)]
  exact hrest.cons ⟨rfl, hl.shows⟩

/-- The whole of `put`; the steps before the test of the tail fill fresh memory. -/
theorem putMachine_commits (h : ListHolds kv.service kv.bp es) (hstored : call.ans.Stored)
    (he : kv.service.Grants sizeofBlockEntry call.ans.entry)
    (hd : (kv.service.tbpAlloc sizeofBlockEntry call.ans.entry).Grants call.value.length
      call.ans.data) :
    Commits (Pmemkv.ShowsAt kv.bp es) (Pmemkv.ShowsAt kv.bp (es ++ [call.entry hash]))
      ((putMachine hash call).states 14 .allocEntry kv) := by
  obtain ⟨s₁, s₂, hrun₁, hrun₂, hlist⟩ :=
    putList_spec h (hash call.key) hstored he hd (Nat.le_refl _)
  have hentry : newEntry (hash call.key) call.value call.value.length call.ans =
      call.entry hash := by
    rw [newEntry, List.take_length]
    rfl
  rw [hentry] at hlist
  -- the fresh ranges miss everything the list owns
  have hheader : ∀ r ∈ ownedRegions kv.bp es, Apart call.header r := fun r hr =>
    he.2.2.2 r (h.owned r hr)
  have hpayload : ∀ r ∈ ownedRegions kv.bp es, Apart call.payload r := fun r hr => by
    refine hd.2.2.2 r ?_
    rw [Service.tbpAlloc_regions _ _ _ he.1]
    exact List.mem_cons_of_mem _ (h.owned r hr)
  have l1 := h.toLinked.tbpAlloc sizeofBlockEntry he.1
  have l2 := l1.tbpAlloc call.value.length hd.1
  have l3 := l2.tbpSet (a := dataAddr call.ans.entry) hheader call.ans.dataPtrOk call.ans.data
    (Nat.le_add_right _ 24) (Nat.le_refl _)
  have hdata : load64 (((kv.service.tbpAlloc sizeofBlockEntry call.ans.entry).tbpAlloc
      call.value.length call.ans.data).tbpSet call.ans.dataPtrOk (dataAddr call.ans.entry)
        call.ans.data).mem (call.ans.entry + 24) = call.ans.data := by
    rw [hstored.1, Service.tbpSet_true_mem,
      show call.ans.entry + 24 = dataAddr call.ans.entry from rfl, load64_store64_self]
    exact Nat.mod_eq_of_lt hd.2.1
  have l4 := l3.tbpStore hpayload call.ans.bytesOk (Nat.le_refl call.ans.data)
    (Nat.le_refl (call.ans.data + call.value.length))
  have l5 := l4.tbpSet (a := nextAddr call.ans.entry) hheader call.ans.nextOk 0 (Nat.le_refl _)
    (Nat.add_le_add_left (show 8 ≤ 32 by decide) _)
  have l6 := l5.tbpSet (a := keyAddr call.ans.entry) hheader call.ans.keyOk (hash call.key).toNat
    (Nat.le_add_right _ 8) (Nat.add_le_add_left (show 16 ≤ 32 by decide) _)
  have l7 := l6.tbpSet (a := sizeAddr call.ans.entry) hheader call.ans.sizeOk call.value.length
    (Nat.le_add_right _ 16) (Nat.add_le_add_left (show 24 ≤ 32 by decide) _)
  -- the store after these steps is the one that `putEntry` returns
  simp only [Pmemkv.putEntry, Service.deref_of_ne _ _ _ he.1, List.take_length,
    Option.bind_eq_bind, Option.bind_some, Option.pure_def, Option.some.injEq, hdata,
    Service.storeAt_of_ne _ _ _ hd.1] at hrun₁
  subst hrun₁
  have hstore : ∀ s : Service, load64 s.mem (call.ans.entry + 24) = call.ans.data →
      PutPc.storeBytes.step hash call (kv.withService s) = some
        (kv.withService (s.tbpStore call.ans.bytesOk call.ans.data call.value), .go .setNext) := by
    intro s hs
    simp only [PutPc.step, Pmemkv.withService_service, Service.deref_of_ne _ _ _ he.1, hs,
      Service.storeAt_of_ne _ _ _ hd.1, Option.bind_eq_bind, Option.bind_some]
    rfl
  have c7 : Commits (Pmemkv.ShowsAt kv.bp es) (Pmemkv.ShowsAt kv.bp (es ++ [call.entry hash]))
      ((putMachine hash call).states 7 .getTail (kv.withService _)) :=
    putMachine_commits_getTail hash (kv.withService _) l7 hstored hrun₂ hlist.toLinked
  have c6 := putMachine_commits_step c7 .setSize l6 rfl
  have c5 := putMachine_commits_step c6 .setKey l5 rfl
  have c4 := putMachine_commits_step c5 .setNext l4 rfl
  have c3 := putMachine_commits_step c4 .storeBytes l3 (hstore _ hdata)
  have c2 := putMachine_commits_step c3 .setData l2 rfl
  have c1 := putMachine_commits_step c2 .allocData l1 rfl
  exact putMachine_commits_step c1 .allocEntry h.toLinked rfl

/-- Once the head is null, the rest of `free_all` leaves it so. -/
theorem freeMachine_cleared (fuel n : Nat) (hbp : kv.bp = bp)
    (hhead : load64 kv.service.mem (headAddr bp) = 0) :
    ∀ k ∈ (freeMachine fuel).states n .setTail kv, k.ShowsAt bp [] := by
  have hshows : ∀ k : Pmemkv, k.bp = bp → load64 k.service.mem (headAddr bp) = 0 →
      k.ShowsAt bp [] := fun k hk hzero => ⟨hk, hzero, fun e he => absurd he List.not_mem_nil⟩
  let I : FreePc → Pmemkv → Prop := fun pc k =>
    (pc = .setTail ∨ pc = .getWritten ∨ pc = .freeMeta) ∧ k.bp = bp ∧
      load64 k.service.mem (headAddr bp) = 0
  refine Machine.forall_states (I := I) (fun pc k hI => hshows k hI.2.1 hI.2.2) ?_ ?_
    ⟨.inl rfl, hbp, hhead⟩
  · rintro pc k k' pc' ⟨hpc, rfl, hzero⟩ hstep
    obtain rfl | rfl | rfl := hpc
    · have hset : freeMachine fuel .setTail k = some (k.withService (k.service.tbpSet true
          (tailAddr k.bp) 0), .go .getWritten) := rfl
      rw [hset, Option.some.injEq, Prod.mk.injEq] at hstep
      obtain ⟨rfl, hgo⟩ := hstep
      refine ⟨.inr (.inl (Next.go.inj hgo).symm), rfl, ?_⟩
      rw [Pmemkv.withService_service, Service.tbpSet_true_mem,
        load64_store64_of_disjoint _ (by unfold headAddr tailAddr; omega)]
      exact hzero
    · simp only [freeMachine] at hstep
      split at hstep
      · rw [Option.some.injEq, Prod.mk.injEq] at hstep
        obtain ⟨rfl, hgo⟩ := hstep
        exact ⟨.inr (.inr (Next.go.inj hgo).symm), rfl, hzero⟩
      · simp at hstep
    · obtain ⟨r, _, heq⟩ := Option.bind_eq_some_iff.mp hstep
      simp at heq
  · rintro pc k k' code ⟨hpc, rfl, hzero⟩ hstep
    obtain rfl | rfl | rfl := hpc
    · simp [freeMachine] at hstep
    · simp only [freeMachine] at hstep
      split at hstep <;> simp at hstep
    · obtain ⟨r, _, heq⟩ := Option.bind_eq_some_iff.mp hstep
      rw [Option.pure_def, Option.some.injEq, Prod.mk.injEq] at heq
      rw [← heq.1]
      exact hshows _ rfl hzero

/-- The commit of `free_all` is the store that clears the head; the loop before it changes the
counter only. -/
theorem freeMachine_commits_loop (fuel n : Nat) {bep : Nat} {rest : List Entry}
    (h : Linked kv.service kv.bp es) (hrest : ∀ e ∈ rest, e ∈ es)
    (hchain : PtrChain (load64 kv.service.mem) bep (rest.map Entry.addr)) (hn : rest.length ≤ n) :
    Commits (Pmemkv.ShowsAt kv.bp es) (Pmemkv.ShowsAt kv.bp [])
      ((freeMachine fuel).states (4 * n + 4) (.loop bep) kv) := by
  induction rest generalizing kv bep n with
  | nil =>
    have hbep : bep = 0 := hchain
    rw [FreePc.loop, if_pos hbep, Machine.states_go (4 * n + 3) rfl]
    refine Commits.here ⟨rfl, h.shows⟩ (Machine.states_ne_nil _ _ _)
      (freeMachine_cleared fuel _ (by rfl) ?_)
    rw [Pmemkv.withService_service, Service.tbpSet_true_mem, load64_store64_self, Nat.zero_mod]
  | cons e rest ih =>
    obtain ⟨rfl, hne, hchain⟩ := hchain
    obtain ⟨n, rfl⟩ : ∃ m, n = m + 1 := Nat.exists_eq_succ_of_ne_zero (by
      rw [List.length_cons] at hn
      omega)
    have hkeep : Linked (kv.subEntry e.addr).service kv.bp es := by
      refine h.frame (fun r _ x _ hx => ?_) fun r hr => hr
      exact store64_of_not_mem _ _ hx
    have hnext : ∀ e' ∈ es, load64 (kv.subEntry e.addr).service.mem e'.addr =
        load64 kv.service.mem e'.addr := fun e' he' => Entry.next_of_agree fun x hx =>
      store64_of_apart _ (h.layout.base_header e' he') (Nat.le_add_right kv.bp 56)
        (Nat.le_refl (kv.bp + 64)) hx
    have hchain' : PtrChain (load64 (kv.subEntry e.addr).service.mem)
        (kv.service.tbpGet (nextAddr e.addr)) (rest.map Entry.addr) := by
      refine hchain.congr fun x hx => ?_
      obtain ⟨e', he', rfl⟩ := List.mem_map.mp hx
      exact hnext e' (hrest e' (List.mem_cons_of_mem _ he'))
    have hrec := @ih (kv.subEntry e.addr) n _ hkeep
      (fun e' he' => hrest e' (List.mem_cons_of_mem _ he')) hchain'
      (by rw [List.length_cons] at hn; omega)
    have hshows : kv.ShowsAt kv.bp es := ⟨rfl, h.shows⟩
    rw [FreePc.loop, if_neg hne, show 4 * (n + 1) + 4 = 4 * n + 4 + 4 by omega,
      Machine.states_go (4 * n + 7) rfl, Machine.states_go (4 * n + 6) rfl,
      Machine.states_go (4 * n + 5) rfl, Machine.states_go (4 * n + 4) rfl]
    exact (((hrec.cons hshows).cons hshows).cons hshows).cons hshows

theorem freeMachine_commits (h : Linked kv.service kv.bp es) {fuel : Nat}
    (hfuel : es.length ≤ fuel) :
    Commits (Pmemkv.ShowsAt kv.bp es) (Pmemkv.ShowsAt kv.bp [])
      ((freeMachine fuel).states (4 * fuel + 5) .getHead kv) := by
  rw [Machine.states_go (4 * fuel + 4) rfl]
  exact (freeMachine_commits_loop fuel fuel h (fun _ he => he) h.chain hfuel).cons ⟨rfl, h.shows⟩

/-- What a walk shows of the puts: the key and the value of each of them. -/
def walked (hash : String → UInt64) (puts : List PutCall) : List (Nat × List UInt8) :=
  puts.map fun call => ((hash call.key).toNat, call.value)

theorem Pmemkv.ShowsAt.dumpWalk {puts : List PutCall} (h : kv.ShowsAt bp (entriesOf hash puts))
    {fuel : Nat} (hfuel : puts.length ≤ fuel) : kv.dumpWalk fuel = some (walked hash puts) := by
  obtain ⟨rfl, hshows⟩ := h
  rw [hshows.dumpWalk (by rw [entriesOf, List.length_map]; exact hfuel), entriesOf, List.map_map]
  rfl

/-- The states of an operation end with its result. -/
theorem getLast?_statesOf {fuel : Nat} {op : Op} {kv' : Pmemkv} {code : Int}
    (h : kv.exec hash fuel op = some (code, kv')) :
    (kv.statesOf hash fuel op).getLast? = some kv' := by
  cases op with
  | put call =>
    refine Machine.getLast?_states (r := code) ?_
    rw [exec_putMachine, ← put_eq_runCall]
    exact h
  | freeAll =>
    refine Machine.getLast?_states (r := code) ?_
    rw [exec_freeMachine]
    exact h

/-- One operation on a store that holds the puts. -/
theorem statesOf_commits {puts : List PutCall} {fuel : Nat} (op : Op)
    (h : Holds hash kv puts) (hfuel : puts.length ≤ fuel) (hok : kv.Ok hash op) :
    Commits (Pmemkv.ShowsAt kv.bp (entriesOf hash puts))
      (Pmemkv.ShowsAt kv.bp (entriesOf hash (liveStep puts op))) (kv.statesOf hash fuel op) := by
  cases op with
  | put call =>
    have hlive : entriesOf hash (liveStep puts (.put call)) =
        entriesOf hash puts ++ [call.entry hash] := List.map_append
    rw [hlive]
    exact putMachine_commits h.toListHolds hok.stored hok.entry hok.data
  | freeAll =>
    exact freeMachine_commits h.toLinked (by rw [entriesOf, List.length_map]; exact hfuel)

end

/-- For every run of puts and `free_all`s without failures and every next operation that is cut
between any two of its requests: there is a request before which the walk of `dump_all` over the
persistent list visits exactly the puts before the operation, and after which it visits exactly the
puts with the operation, and loads the key and all bytes of every entry. -/
theorem crash_atomic (hash : String → UInt64) (fuel : Nat) (s : Service) (root : Nat)
    (ops : List Op) (op : Op) (hroot : s.Grants sizeofBase root) (hfuel : ops.length < fuel)
    (hok : Admissible (Pmemkv.step hash fuel) (Pmemkv.Ok hash) (Pmemkv.create s root)
      (ops ++ [op])) :
    ∃ kv kv', run (Pmemkv.step hash fuel) (Pmemkv.create s root) ops = some kv ∧
      kv.exec hash fuel op = some (0, kv') ∧
      (kv.statesOf hash fuel op).getLast? = some kv' ∧
      Commits (fun k => k.dumpWalk fuel = some (walked hash (live ops)))
        (fun k => k.dumpWalk fuel = some (walked hash (live (ops ++ [op]))))
        (kv.statesOf hash fuel op) := by
  obtain ⟨hok, hlast⟩ := admissible_append.mp hok
  obtain ⟨kv, hrun, hrep⟩ := run_holds hroot (Nat.le_of_lt hfuel) hok
  have hop : kv.Ok hash op := admissible_singleton.mp (hlast kv hrun)
  have hlen := length_live_le ops
  have hlen' := length_live_le (ops ++ [op])
  rw [List.length_append, List.length_singleton] at hlen'
  have hle : (live ops).length ≤ fuel := by omega
  obtain ⟨kv', hexec, _⟩ := exec_spec op hrep hle hop
  refine ⟨kv, kv', hrun, hexec, getLast?_statesOf hexec, ?_⟩
  have hcommits := statesOf_commits op hrep hle hop
  rw [← live_snoc] at hcommits
  exact hcommits.mono (fun k hk => hk.dumpWalk hle) fun k hk => hk.dumpWalk (by omega)

theorem crash_atomic_sample :
    ∃ kv kv', run (Pmemkv.step sampleHash 5) (Pmemkv.create sampleService 4096)
        (sampleOps.take 2) = some kv ∧
      kv.exec sampleHash 5 .freeAll = some (0, kv') ∧
      (kv.statesOf sampleHash 5 .freeAll).getLast? = some kv' ∧
      Commits (fun k => k.dumpWalk 5 = some [((sampleHash "a").toNat, [1, 2]),
          ((sampleHash "b").toNat, [3])])
        (fun k => k.dumpWalk 5 = some []) (kv.statesOf sampleHash 5 .freeAll) :=
  crash_atomic sampleHash 5 sampleService 4096 (sampleOps.take 2) .freeAll (by decide) (by decide)
    (by decide)

end SparkNvm.Native
