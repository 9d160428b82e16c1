import SparkNvm.Native.Refinement

/-!
# Clients that run `put` at the same time

Nothing in `put` holds a lock except `update_meta`.  This module takes `put`
apart into the requests that other clients can see: every `TBPAlloc`,
`TBPLoad` and `TBPStore` is one step, the direct read `bp->tail` is one step,
and `update_meta` is one step because it holds `mtx`.

`put_eq_runCall` says that a client that runs alone computes `put`.  A `System`
is one object and any number of clients, each with a list of calls; a schedule
is the list of clients that step.
-/

namespace SparkNvm.Native

open Lib

/-! ## One call -/

/-- Where a client is in `put`, with the local values it still needs. -/
inductive PutPc where
  | allocEntry
  | allocData
  | setData
  | storeBytes
  | setNext
  | setKey
  | setSize
  | getTail
  | setHead
  | derefTail
  | linkNext (tail : Nat)
  | setTail
  | addLoad
  | addStore (tmp : Nat)
  | updateMeta
  deriving DecidableEq, Repr

/-- What a step leads to. -/
inductive PutNext where
  | go (pc : PutPc)
  | ret (code : Int)
  deriving DecidableEq, Repr

/-- The object over another state of the service. -/
def Pmemkv.withService (kv : Pmemkv) (s : Service) : Pmemkv := { kv with service := s }

@[simp] theorem Pmemkv.withService_service (kv : Pmemkv) (s : Service) :
    (kv.withService s).service = s := rfl

@[simp] theorem Pmemkv.withService_bp (kv : Pmemkv) (s : Service) :
    (kv.withService s).bp = kv.bp := rfl

@[simp] theorem Pmemkv.withService_index (kv : Pmemkv) (s : Service) :
    (kv.withService s).index = kv.index := rfl

@[simp] theorem Pmemkv.withService_withService (kv : Pmemkv) (s s' : Service) :
    (kv.withService s).withService s' = kv.withService s' := rfl

/-- One step of the call. -/
def PutPc.step (hash : String → UInt64) (call : PutCall) (kv : Pmemkv) :
    PutPc → Option (Pmemkv × PutNext)
  | .allocEntry =>
    let s := kv.service.tbpAlloc sizeofBlockEntry call.ans.entry
    some (kv.withService s, .go .allocData)
  | .allocData =>
    let s := kv.service.tbpAlloc call.value.length call.ans.data
    some (kv.withService s, .go .setData)
  | .setData =>
    let s := kv.service.tbpSet call.ans.dataPtrOk (dataAddr call.ans.entry) call.ans.data
    some (kv.withService s, .go .storeBytes)
  | .storeBytes => do
    let data ← kv.service.deref call.ans.entry 24
    let s ← kv.service.storeAt call.ans.bytesOk data call.value
    return (kv.withService s, .go .setNext)
  | .setNext =>
    let s := kv.service.tbpSet call.ans.nextOk (nextAddr call.ans.entry) 0
    some (kv.withService s, .go .setKey)
  | .setKey =>
    let s := kv.service.tbpSet call.ans.keyOk (keyAddr call.ans.entry) (hash call.key).toNat
    some (kv.withService s, .go .setSize)
  | .setSize =>
    let s := kv.service.tbpSet call.ans.sizeOk (sizeAddr call.ans.entry) call.value.length
    some (kv.withService s, .go .getTail)
  | .getTail =>
    some (kv, .go (if kv.service.tbpGet (tailAddr kv.bp) = 0 then .setHead else .derefTail))
  | .setHead =>
    let s := kv.service.tbpSet call.ans.linkOk (headAddr kv.bp) call.ans.entry
    some (kv.withService s, .go .setTail)
  | .derefTail => do
    let tail ← kv.service.deref kv.bp 8
    return (kv, .go (.linkNext tail))
  | .linkNext tail =>
    let s := kv.service.tbpSet call.ans.linkOk (nextAddr tail) call.ans.entry
    some (kv.withService s, .go .setTail)
  | .setTail =>
    let s := kv.service.tbpSet call.ans.tailOk (tailAddr kv.bp) call.ans.entry
    some (kv.withService s, .go .addLoad)
  | .addLoad => some (kv, .go (.addStore (kv.service.tbpGet (writtenAddr kv.bp))))
  | .addStore tmp =>
    let s := kv.service.tbpSet call.ans.writtenOk (writtenAddr kv.bp)
      ((tmp + call.value.length) % 2 ^ 64)
    some (kv.withService s, .go .updateMeta)
  | .updateMeta => do
    let (code, kv) ← kv.updateMeta call.ans.entry call.ans.metaPtr call.ans.listPtr
    return (kv, .ret (if code ≠ 0 then -1 else 0))

/-- Run the call alone, from `pc` on. -/
def runCall (hash : String → UInt64) (call : PutCall) :
    Nat → Pmemkv → PutPc → Option (Int × Pmemkv)
  | 0, _, _ => none
  | fuel + 1, kv, pc =>
    match pc.step hash call kv with
    | none => none
    | some (kv, .go pc) => runCall hash call fuel kv pc
    | some (kv, .ret code) => some (code, kv)

section

variable {hash : String → UInt64} {call : PutCall} {kv kv' : Pmemkv} {pc pc' : PutPc}

theorem runCall_go (n : Nat) (h : pc.step hash call kv = some (kv', .go pc')) :
    runCall hash call (n + 1) kv pc = runCall hash call n kv' pc' := by
  rw [runCall, h]

theorem runCall_none (n : Nat) (h : pc.step hash call kv = none) :
    runCall hash call (n + 1) kv pc = none := by
  rw [runCall, h]

/-- The index is the last step. -/
theorem runCall_updateMeta (n : Nat) :
    runCall hash call (n + 1) kv .updateMeta =
      (kv.updateMeta call.ans.entry call.ans.metaPtr call.ans.listPtr).bind
        fun r => if r.1 ≠ 0 then some (-1, r.2) else some (0, r.2) := by
  rw [runCall, PutPc.step]
  cases kv.updateMeta call.ans.entry call.ans.metaPtr call.ans.listPtr with
  | none => rfl
  | some r =>
    obtain ⟨code, kv'⟩ := r
    by_cases hcode : code = 0 <;> simp [hcode]

/-- The steps after the entry has been linked. -/
theorem runCall_setTail (n : Nat) :
    runCall hash call (n + 4) kv .setTail =
      ((kv.withService ((kv.service.tbpSet call.ans.tailOk (tailAddr kv.bp) call.ans.entry).tbpAdd
        call.ans.writtenOk (writtenAddr kv.bp) call.value.length)).updateMeta call.ans.entry
          call.ans.metaPtr call.ans.listPtr).bind
        fun r => if r.1 ≠ 0 then some (-1, r.2) else some (0, r.2) := by
  rw [runCall_go _ rfl, runCall_go _ rfl, runCall_go _ rfl, runCall_updateMeta]
  rfl

/-- The steps from the test of the tail on. -/
theorem runCall_getTail (n : Nat) :
    runCall hash call (n + 7) kv .getTail =
      (Pmemkv.putLink kv.service kv.bp call.value.length call.ans).bind fun s =>
        ((kv.withService s).updateMeta call.ans.entry call.ans.metaPtr call.ans.listPtr).bind
          fun r => if r.1 ≠ 0 then some (-1, r.2) else some (0, r.2) := by
  by_cases ht : kv.service.tbpGet (tailAddr kv.bp) = 0
  · have hstep : PutPc.getTail.step hash call kv = some (kv, .go .setHead) := by
      rw [PutPc.step, if_pos ht]
    rw [runCall_go _ hstep, runCall_go _ rfl, runCall_setTail, Pmemkv.putLink, if_pos ht]
    rfl
  · have hstep : PutPc.getTail.step hash call kv = some (kv, .go .derefTail) := by
      rw [PutPc.step, if_neg ht]
    rw [runCall_go _ hstep, Pmemkv.putLink, if_neg ht]
    by_cases hbp : kv.bp = 0
    · have hderef : kv.service.deref kv.bp 8 = none := by rw [Service.deref, if_pos hbp]
      have hnone : PutPc.derefTail.step hash call kv = none := by rw [PutPc.step, hderef]; rfl
      rw [runCall_none _ hnone, hderef]
      rfl
    · have hderef := Service.deref_of_ne kv.service kv.bp 8 hbp
      have hgo : PutPc.derefTail.step hash call kv =
          some (kv, .go (.linkNext (load64 kv.service.mem (kv.bp + 8)))) := by
        rw [PutPc.step, hderef]
        rfl
      rw [runCall_go _ hgo, runCall_go _ rfl, runCall_setTail, hderef]
      rfl

/-- The steps from the store of the value on, through the pointer in the entry. -/
theorem runCall_storeBytes (n : Nat) (kv : Pmemkv) (hentry : call.ans.entry ≠ 0) :
    runCall hash call (n + 11) kv .storeBytes =
      (kv.service.storeAt call.ans.bytesOk (load64 kv.service.mem (call.ans.entry + 24))
        call.value).bind fun s =>
          runCall hash call (n + 7) (kv.withService (((s.tbpSet call.ans.nextOk
            (nextAddr call.ans.entry) 0).tbpSet call.ans.keyOk (keyAddr call.ans.entry)
              (hash call.key).toNat).tbpSet call.ans.sizeOk (sizeAddr call.ans.entry)
                call.value.length)) .getTail := by
  cases hstore : kv.service.storeAt call.ans.bytesOk
      (load64 kv.service.mem (call.ans.entry + 24)) call.value with
  | none =>
    have hnone : PutPc.storeBytes.step hash call kv = none := by
      simp only [PutPc.step, Service.deref_of_ne _ _ _ hentry, hstore, Option.bind_eq_bind,
        Option.bind_some, Option.bind_none]
    rw [runCall_none _ hnone, Option.bind_none]
  | some s =>
    have hgo : PutPc.storeBytes.step hash call kv = some (kv.withService s, .go .setNext) := by
      simp only [PutPc.step, Service.deref_of_ne _ _ _ hentry, hstore, Option.bind_eq_bind,
        Option.bind_some, Option.pure_def]
    rw [runCall_go _ hgo, runCall_go _ rfl, runCall_go _ rfl, runCall_go _ rfl, Option.bind_some]
    simp only [Pmemkv.withService_service, Pmemkv.withService_withService]

end

/-- A client that runs alone computes `put`, whatever the environment answers.
Fourteen steps are enough. -/
theorem put_eq_runCall (hash : String → UInt64) (kv : Pmemkv) (call : PutCall) :
    kv.put hash call.key call.value call.value.length call.ans =
      runCall hash call 14 kv .allocEntry := by
  rw [runCall_go _ rfl, runCall_go _ rfl, runCall_go _ rfl]
  by_cases hbep : call.ans.entry = 0
  · rw [runCall_none]
    · simp [Pmemkv.put, Pmemkv.putEntry, Service.deref, hbep]
    · simp [PutPc.step, Service.deref, hbep]
  · rw [runCall_storeBytes _ _ hbep, Pmemkv.put, Pmemkv.putEntry]
    simp only [Service.deref_of_ne _ _ _ hbep, List.take_length, Option.bind_eq_bind,
      Option.bind_some, Option.pure_def, Option.bind_assoc, runCall_getTail,
      Pmemkv.withService_service, Pmemkv.withService_bp, Pmemkv.withService_withService]
    rfl

/-! ## Many clients -/

/-- One object and its clients.  `ret i` are the return codes of the calls that
client `i` has finished. -/
structure System (ι : Type) where
  kv : Pmemkv
  pc : ι → PutPc
  ret : ι → List Int

/-- The call with the number `c.2` of client `c.1`. -/
def callAt {ι : Type} (prog : ι → List PutCall) (c : ι × Nat) : Option PutCall :=
  (prog c.1)[c.2]?

namespace System

variable {ι : Type}

/-- No client has started. -/
def init (kv : Pmemkv) : System ι :=
  { kv := kv, pc := fun _ => .allocEntry, ret := fun _ => [] }

/-- The number of the call that client `i` is in, or starts next. -/
def cur (sys : System ι) (i : ι) : ι × Nat := (i, (sys.ret i).length)

variable [DecidableEq ι]

/-- Client `i` takes one step.  A client that has finished its calls has none. -/
def step (hash : String → UInt64) (prog : ι → List PutCall) (sys : System ι) (i : ι) :
    Option (System ι) :=
  match callAt prog (sys.cur i) with
  | none => none
  | some call =>
    match (sys.pc i).step hash call sys.kv with
    | none => none
    | some (kv, .go pc) => some { kv := kv, pc := Function.update sys.pc i pc, ret := sys.ret }
    | some (kv, .ret code) => some
      { kv := kv
        pc := Function.update sys.pc i .allocEntry
        ret := Function.update sys.ret i (sys.ret i ++ [code]) }

end System

/-- The allocation that the step asks for succeeds. -/
def PutPc.Granted (hash : String → UInt64) (call : PutCall) (kv : Pmemkv) : PutPc → Prop
  | .allocEntry => kv.service.Grants sizeofBlockEntry call.ans.entry
  | .allocData => kv.service.Grants call.value.length call.ans.data
  | .updateMeta => kv.index.Mallocs (hash call.key).toNat call.ans.metaPtr call.ans.listPtr
  | _ => True

instance (hash : String → UInt64) (call : PutCall) (kv : Pmemkv) (pc : PutPc) :
    Decidable (pc.Granted hash call kv) := by
  cases pc <;> (unfold PutPc.Granted; infer_instance)

/-- Client `i` has a step to take, and no request of it fails. -/
def System.Ok {ι : Type} (hash : String → UInt64) (prog : ι → List PutCall) (sys : System ι)
    (i : ι) : Prop :=
  match callAt prog (sys.cur i) with
  | none => False
  | some call => call.ans.Stored ∧ (sys.pc i).Granted hash call sys.kv

instance {ι : Type} (hash : String → UInt64) (prog : ι → List PutCall) (sys : System ι) (i : ι) :
    Decidable (sys.Ok hash prog i) := by
  unfold System.Ok
  cases callAt prog (sys.cur i) <;> infer_instance

theorem System.Ok.call {ι : Type} {hash : String → UInt64} {prog : ι → List PutCall}
    {sys : System ι} {i : ι} (h : sys.Ok hash prog i) :
    ∃ call, callAt prog (sys.cur i) = some call ∧ call.ans.Stored ∧
      (sys.pc i).Granted hash call sys.kv := by
  unfold System.Ok at h
  cases hcall : callAt prog (sys.cur i) with
  | none => simp [hcall] at h
  | some call =>
    rw [hcall] at h
    exact ⟨call, rfl, h⟩

end SparkNvm.Native
