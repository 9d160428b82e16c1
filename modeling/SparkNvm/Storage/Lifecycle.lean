import SparkNvm.Lib.Simulation
import SparkNvm.Native.FreeAll
import SparkNvm.Storage.Handler

/-!
# The life of the handler

`object PersistentMemoryHandler` creates the handler on the first request and shares it, and `stop`
closes the pool.  All of it is `synchronized`, so the calls come one after the other.  `free_all`
and the destructor give no persistent memory back; a handler that is created later gets a new root
in the same memory.

* `HandlerObject.exec`: the calls, as in the source.
* `AbstractHandler`: what the object is for.
* `handler_refines`: every run of the object is one of the abstract handler.
-/

namespace SparkNvm.Storage

open Lib Native

/-! ## The persistent memory that was handed out -/

/-- The bytes that `TBPAlloc` has handed out. -/
def allocatedBytes (s : Service) : Nat := (s.regions.map Region.size).sum

section

variable {hash : String → UInt64} {fuel : Nat} {kv kv' : Pmemkv} {s s' : Service}

theorem allocatedBytes_create {root : Nat} (hroot : root ≠ 0) :
    allocatedBytes (Pmemkv.create s root).service = allocatedBytes s + sizeofBase := by
  rw [allocatedBytes, create_regions hroot, List.map_cons, List.sum_cons, Nat.add_comm]
  rfl

/-- A put takes an entry and the bytes. -/
theorem allocatedBytes_put {call : SetBlock} {ans : PutAnswers}
    (hok : SetOk hash kv (call, ans)) (h : nativeSetBlock hash kv call ans = some kv') :
    allocatedBytes kv'.service =
      allocatedBytes kv.service + (sizeofBlockEntry + call.value.length) := by
  obtain ⟨⟨code, kv₁⟩, hput, rfl⟩ := Option.map_eq_some_iff.mp h
  obtain ⟨hregions, _⟩ := put_eq_some hok.entry.1 hok.data.1 hput
  rw [allocatedBytes, hregions, List.map_cons, List.map_cons, List.sum_cons, List.sum_cons]
  show call.value.length + (sizeofBlockEntry + allocatedBytes kv.service) = _
  omega

theorem freeEntries_regions {bp bep : Nat} (h : Pmemkv.freeEntries bp fuel s bep = some s') :
    s'.regions = s.regions := by
  induction fuel generalizing s bep with
  | zero =>
    rw [Pmemkv.freeEntries] at h
    split at h
    · rw [Option.some.inj h]
    · cases h
  | succ fuel ih =>
    rw [Pmemkv.freeEntries] at h
    split at h
    · rw [Option.some.inj h]
    · rw [ih h, Service.tbpSub_regions]

/-- Closing the device gives nothing back. -/
theorem allocatedBytes_close (h : nativeCloseDevice fuel kv = some s) :
    allocatedBytes s = allocatedBytes kv.service := by
  unfold nativeCloseDevice at h
  obtain ⟨⟨code, kv₁⟩, hfree, hclose⟩ := Option.bind_eq_some_iff.mp h
  unfold Pmemkv.close at hclose
  obtain ⟨_, _, hservice⟩ := Option.bind_eq_some_iff.mp hclose
  unfold Pmemkv.freeAll at hfree
  obtain ⟨s₁, hs₁, hfree⟩ := Option.bind_eq_some_iff.mp hfree
  have hkv : kv₁.service.regions = s₁.regions := by
    dsimp only at hfree
    split at hfree
    · obtain ⟨⟨code', ix⟩, _, hfree⟩ := Option.bind_eq_some_iff.mp hfree
      dsimp only at hfree
      split at hfree
      · rw [← (Prod.mk.inj (Option.some.inj hfree)).2, Service.tbpSet_regions,
          Service.tbpSet_regions]
      · rw [← (Prod.mk.inj (Option.some.inj hfree)).2, Service.tbpSet_regions,
          Service.tbpSet_regions]
    · cases hfree
  rw [allocatedBytes, ← Option.some.inj hservice, hkv, freeEntries_regions hs₁]
  rfl

end

/-! ## The object -/

/-- `object PersistentMemoryHandler`.  A handler is known by its number, and with it comes the
native object of its pool; `service` is the memory while there is none.  `opened` counts the calls
of `nativeOpenDevice`, and `closed` are the handlers for which `nativeCloseDevice` was called. -/
structure HandlerObject where
  service : Service
  persistentMemoryHandler : Option (Nat × Pmemkv)
  stopped : Bool
  opened : Nat
  closed : List Nat

/-- The calls: both forms of `getPersistentMemoryHandler`, the first with the root that the service
answers should the pool be created; `setPartition` of a handler that the caller has; and `stop`. -/
inductive HandlerCall where
  | getOrCreate (root : Nat)
  | get
  | setPartition (handler : Nat) (call : SetBlock) (ans : PutAnswers)
  | stop

inductive Outcome where
  | handler (handler : Nat)
  | nullPointerException
  | unit
  deriving DecidableEq, Repr

namespace HandlerObject

/-- When the class is loaded. -/
def init (s : Service) : HandlerObject :=
  { service := s, persistentMemoryHandler := none, stopped := false, opened := 0, closed := [] }

/-- The memory behind the pool. -/
def memory (obj : HandlerObject) : Service :=
  match obj.persistentMemoryHandler with
  | some (_, kv) => kv.service
  | none => obj.service

/-- One call.  A handler whose pool was closed has a dangling `deviceHandler`. -/
def exec (hash : String → UInt64) (fuel : Nat) (obj : HandlerObject) :
    HandlerCall → Option (Outcome × HandlerObject)
  | .getOrCreate root =>
    match obj.persistentMemoryHandler with
    | some (n, _) => some (.handler n, obj)
    | none => some (.handler obj.opened, { obj with
        persistentMemoryHandler := some (obj.opened, Pmemkv.create obj.service root)
        stopped := false
        opened := obj.opened + 1 })
  | .get =>
    match obj.persistentMemoryHandler with
    | some (n, _) => some (.handler n, obj)
    | none => some (.nullPointerException, obj)
  | .setPartition handler call ans =>
    match obj.persistentMemoryHandler with
    | some (n, kv) =>
      if handler = n then
        (nativeSetBlock hash kv call ans).map fun kv =>
          (.unit, { obj with persistentMemoryHandler := some (n, kv) })
      else none
    | none => none
  | .stop =>
    if obj.stopped then
      some (.unit, obj)
    else
      match obj.persistentMemoryHandler with
      | some (n, kv) => (nativeCloseDevice fuel kv).map fun s =>
          (.unit, { obj with
            service := s
            persistentMemoryHandler := none
            stopped := true
            closed := obj.closed ++ [n] })
      | none => some (.unit, obj)

/-- The requests are granted, and a caller's handler is not one that was closed. -/
def Ok (hash : String → UInt64) (obj : HandlerObject) : HandlerCall → Prop
  | .getOrCreate root =>
    obj.persistentMemoryHandler.isNone → obj.service.Grants sizeofBase root
  | .get => True
  | .setPartition handler call ans =>
    match obj.persistentMemoryHandler with
    | some (n, kv) => handler = n ∧ SetOk hash kv (call, ans)
    | none => False
  | .stop => True

instance (hash : String → UInt64) (obj : HandlerObject) (call : HandlerCall) :
    Decidable (obj.Ok hash call) := by
  cases call with
  | setPartition handler call ans =>
    unfold Ok
    cases obj.persistentMemoryHandler with
    | none => exact isFalse id
    | some r => exact inferInstanceAs (Decidable (_ ∧ _))
  | _ => unfold Ok; infer_instance

end HandlerObject

/-! ## What it is for -/

/-- A store that is open or not, with the calls since it was opened; how many there have been, and
how many bytes of persistent memory all of them have taken. -/
structure AbstractHandler where
  content : Option (List PutCall)
  created : Nat
  taken : Nat

namespace AbstractHandler

def init : AbstractHandler := { content := none, created := 0, taken := 0 }

def spec (a : AbstractHandler) : HandlerCall → Outcome × AbstractHandler
  | .getOrCreate _ =>
    match a.content with
    | some _ => (.handler (a.created - 1), a)
    | none => (.handler a.created,
        { content := some [], created := a.created + 1, taken := a.taken + sizeofBase })
  | .get => (if a.content.isSome then .handler (a.created - 1) else .nullPointerException, a)
  | .setPartition _ call ans =>
    (.unit, { a with
      content := a.content.map fun puts => puts ++ [putCallOf (call, ans)]
      taken := a.taken + (sizeofBlockEntry + call.value.length) })
  | .stop => (.unit, { a with content := none })

/-- How many handlers are behind us. -/
def past (a : AbstractHandler) : Nat :=
  if a.content.isSome then a.created - 1 else a.created

end AbstractHandler

/-- The object and the abstract handler: every handler but the open one was closed, once and in the
order of their creation. -/
structure Refines (hash : String → UInt64) (s : Service) (a : AbstractHandler)
    (obj : HandlerObject) : Prop where
  opened : obj.opened = a.created
  closed : obj.closed = List.range a.past
  stopped : obj.persistentMemoryHandler.isSome → obj.stopped = false
  memory : allocatedBytes obj.memory = allocatedBytes s + a.taken
  idle : a.content = none → obj.persistentMemoryHandler = none
  holds : ∀ puts, a.content = some puts → 0 < a.created ∧
    ∃ kv, obj.persistentMemoryHandler = some (a.created - 1, kv) ∧ Holds hash kv puts

section

variable {hash : String → UInt64} {fuel : Nat} {s : Service} {a : AbstractHandler}
variable {obj : HandlerObject}

theorem refines_init (hash : String → UInt64) (s : Service) :
    Refines hash s .init (.init s) where
  opened := rfl
  closed := rfl
  stopped h := by cases h
  memory := rfl
  idle _ := rfl
  holds puts h := by cases h

/-- A handler is requested. -/
theorem Refines.getOrCreate (h : Refines hash s a obj) {root : Nat}
    (hok : obj.Ok hash (.getOrCreate root)) :
    ∃ obj', obj.exec hash fuel (.getOrCreate root) = some ((a.spec (.getOrCreate root)).1, obj') ∧
      Refines hash s (a.spec (.getOrCreate root)).2 obj' := by
  cases hcontent : a.content with
  | some puts =>
    obtain ⟨hpos, kv, hkv, hholds⟩ := h.holds puts hcontent
    rw [HandlerObject.exec, hkv, AbstractHandler.spec, hcontent]
    exact ⟨obj, rfl, h⟩
  | none =>
    have hnone := h.idle hcontent
    have hgrant : obj.service.Grants sizeofBase root := hok (by rw [hnone]; rfl)
    have hmemory := h.memory
    rw [HandlerObject.memory, hnone] at hmemory
    have hclosed := h.closed
    rw [AbstractHandler.past, hcontent] at hclosed
    rw [HandlerObject.exec, hnone, AbstractHandler.spec, hcontent]
    refine ⟨_, by rw [h.opened], ?_⟩
    exact
      { opened := rfl
        closed := hclosed
        stopped := fun _ => rfl
        memory := by
          show allocatedBytes (Pmemkv.create obj.service root).service = _
          rw [allocatedBytes_create hgrant.1, hmemory]
          exact Nat.add_assoc _ _ _
        idle := fun hne => by cases hne
        holds := fun puts hputs => by
          rw [← Option.some.inj hputs]
          exact ⟨Nat.succ_pos _, _, rfl, Holds.create hgrant⟩ }

theorem Refines.setPartition (h : Refines hash s a obj) {handler : Nat} {call : SetBlock}
    {ans : PutAnswers} (hok : obj.Ok hash (.setPartition handler call ans)) :
    ∃ obj', obj.exec hash fuel (.setPartition handler call ans) =
        some ((a.spec (.setPartition handler call ans)).1, obj') ∧
      Refines hash s (a.spec (.setPartition handler call ans)).2 obj' := by
  cases hcontent : a.content with
  | none =>
    rw [HandlerObject.Ok, h.idle hcontent] at hok
    exact hok.elim
  | some puts =>
    obtain ⟨hpos, kv, hkv, hholds⟩ := h.holds puts hcontent
    rw [HandlerObject.Ok, hkv] at hok
    obtain ⟨rfl, hset⟩ := hok
    obtain ⟨kv', hput, hholds'⟩ := hholds.put (putCallOf (call, ans)) hset
    have hnative : nativeSetBlock hash kv call ans = some kv' := by
      have hput' : kv.put hash call.key call.value call.value.length ans = some (0, kv') := hput
      rw [nativeSetBlock, hput', Option.map_some]
    have hmemory := h.memory
    rw [HandlerObject.memory, hkv] at hmemory
    have hclosed := h.closed
    rw [AbstractHandler.past, hcontent] at hclosed
    rw [HandlerObject.exec, hkv]
    dsimp only
    rw [if_pos rfl, hnative, Option.map_some]
    refine ⟨_, rfl, ?_⟩
    exact
      { opened := h.opened
        closed := by
          rw [AbstractHandler.past, AbstractHandler.spec, hcontent]
          exact hclosed
        stopped := fun _ => h.stopped (by rw [hkv]; rfl)
        memory := by
          show allocatedBytes kv'.service = _
          rw [allocatedBytes_put hset hnative, hmemory]
          exact Nat.add_assoc _ _ _
        idle := fun hne => by
          rw [AbstractHandler.spec, hcontent] at hne
          cases hne
        holds := fun puts' hputs => by
          rw [AbstractHandler.spec, hcontent] at hputs
          rw [← Option.some.inj hputs]
          exact ⟨hpos, kv', rfl, hholds'⟩ }

/-- `stop` closes the pool if there is one, and does nothing if there is none. -/
theorem Refines.stop (h : Refines hash s a obj)
    (hfuel : ∀ puts, a.content = some puts → puts.length ≤ fuel) :
    ∃ obj', obj.exec hash fuel .stop = some ((a.spec .stop).1, obj') ∧
      Refines hash s (a.spec .stop).2 obj' := by
  cases hcontent : a.content with
  | none =>
    have hnone := h.idle hcontent
    have hsame : (a.spec .stop).2 = a := by
      obtain ⟨content, created, taken⟩ := a
      have hclosed : content = none := hcontent
      rw [hclosed]
      rfl
    refine ⟨obj, ?_, by rw [hsame]; exact h⟩
    rw [HandlerObject.exec, hnone]
    dsimp only
    split
    · rfl
    · rfl
  | some puts =>
    obtain ⟨hpos, kv, hkv, hholds⟩ := h.holds puts hcontent
    obtain ⟨kv', hfree, hempty⟩ := exec_spec .freeAll hholds (hfuel puts hcontent) trivial
    have hclose : nativeCloseDevice fuel kv = some kv'.service := by
      have hfree' : kv.freeAll fuel = some (0, kv') := hfree
      rw [nativeCloseDevice, hfree']
      exact hempty.close_eq (Nat.zero_le _)
    have hmemory := h.memory
    rw [HandlerObject.memory, hkv] at hmemory
    have hclosed := h.closed
    rw [AbstractHandler.past, hcontent] at hclosed
    have hopen : obj.stopped = false := h.stopped (by rw [hkv]; rfl)
    rw [HandlerObject.exec, hkv, hopen]
    dsimp only
    rw [if_neg Bool.false_ne_true, hclose, Option.map_some]
    refine ⟨_, rfl, ?_⟩
    exact
      { opened := h.opened
        closed := by
          show obj.closed ++ [a.created - 1] = List.range a.created
          obtain ⟨n, hn⟩ : ∃ n, a.created = n + 1 := ⟨a.created - 1, by omega⟩
          rw [hclosed, hn, List.range_succ]
          rfl
        stopped := fun hsome => by cases hsome
        memory := by
          show allocatedBytes kv'.service = _
          rw [allocatedBytes_close hclose, hmemory]
          rfl
        idle := fun _ => rfl
        holds := fun puts' hputs => by cases hputs }

theorem Refines.get (h : Refines hash s a obj) :
    ∃ obj', obj.exec hash fuel .get = some ((a.spec .get).1, obj') ∧
      Refines hash s (a.spec .get).2 obj' := by
  refine ⟨obj, ?_, h⟩
  cases hcontent : a.content with
  | none =>
    rw [HandlerObject.exec, h.idle hcontent, AbstractHandler.spec, hcontent]
    rfl
  | some puts =>
    obtain ⟨_, kv, hkv, _⟩ := h.holds puts hcontent
    rw [HandlerObject.exec, hkv, AbstractHandler.spec, hcontent]
    rfl

/-- Every call that is allowed. -/
theorem Refines.exec (h : Refines hash s a obj) {call : HandlerCall} (hok : obj.Ok hash call)
    (hfuel : ∀ puts, a.content = some puts → puts.length ≤ fuel) :
    ∃ obj', obj.exec hash fuel call = some ((a.spec call).1, obj') ∧
      Refines hash s (a.spec call).2 obj' := by
  cases call with
  | getOrCreate root => exact h.getOrCreate hok
  | get => exact h.get
  | setPartition handler call ans => exact h.setPartition hok
  | stop => exact h.stop hfuel

/-- A call adds at most one put. -/
theorem AbstractHandler.length_spec_le {n : Nat}
    (h : ∀ puts, a.content = some puts → puts.length ≤ n) (call : HandlerCall) :
    ∀ puts, (a.spec call).2.content = some puts → puts.length ≤ n + 1 := by
  intro puts hputs
  cases call with
  | getOrCreate root =>
    cases hcontent : a.content with
    | none =>
      rw [AbstractHandler.spec, hcontent] at hputs
      rw [← Option.some.inj hputs]
      exact Nat.zero_le _
    | some puts' =>
      rw [AbstractHandler.spec, hcontent] at hputs
      have hle := h puts hputs
      omega
  | get =>
    have hle := h puts hputs
    omega
  | setPartition handler call ans =>
    obtain ⟨puts', hcontent, rfl⟩ := Option.map_eq_some_iff.mp hputs
    have hle := h puts' hcontent
    rw [List.length_append, List.length_singleton]
    omega
  | stop => cases hputs

end

/-- What can be seen of the store of the open handler: the size of every block, and the entries that
the walk of `dump_all` visits. -/
def ShowsPuts (hash : String → UInt64) (fuel : Nat) (kv : Pmemkv) (puts : List PutCall) : Prop :=
  (∀ k, getPartitionSize hash kv k = some (storedBytes hash puts k).length) ∧
    kv.dumpWalk fuel = some (puts.map fun call => ((hash call.key).toNat, call.value))

/-- For every sequence of calls in which no request fails and nobody uses a handler after it was
closed: the calls return what the abstract handler says, so that there is one handler between two
stops, created by the first request, and `NullPointerException` exactly if there is none; every
other handler was closed exactly once; the store shows exactly what was set since its handler was
created, nothing of an earlier one; and all persistent memory that any of them took is still
taken. -/
theorem handler_refines (hash : String → UInt64) (fuel : Nat) (s : Service)
    (calls : List HandlerCall) (hfuel : calls.length ≤ fuel)
    (hok : Admissible (stateAfter (HandlerObject.exec hash fuel)) (HandlerObject.Ok hash) (.init s)
      calls) :
    ∃ obj, runOut (HandlerObject.exec hash fuel) (.init s) calls =
        some ((foldOut AbstractHandler.spec .init calls).1, obj) ∧
      Refines hash s (foldOut AbstractHandler.spec .init calls).2 obj ∧
      ∀ puts n kv, (foldOut AbstractHandler.spec .init calls).2.content = some puts →
        obj.persistentMemoryHandler = some (n, kv) → ShowsPuts hash fuel kv puts := by
  obtain ⟨obj, hrun, hrefines, hlength⟩ := runOut_simulates
    (R := fun done a obj => Refines hash s a obj ∧
      ∀ puts, a.content = some puts → puts.length ≤ done.length) (t := .init)
    (fun done call rest a obj hsplit hR hcall => by
      have hlen : done.length ≤ fuel := by
        rw [hsplit, List.length_append] at hfuel
        omega
      obtain ⟨obj', hexec, hrefines⟩ := hR.1.exec hcall fun puts hputs =>
        Nat.le_trans (hR.2 puts hputs) hlen
      refine ⟨obj', hexec, hrefines, fun puts hputs => ?_⟩
      rw [List.length_append, List.length_singleton]
      exact AbstractHandler.length_spec_le hR.2 call puts hputs)
    ⟨refines_init hash s, fun puts hputs => by cases hputs⟩ hok
  refine ⟨obj, hrun, hrefines, fun puts n kv hputs hkv => ?_⟩
  obtain ⟨_, kv', hkv', hholds⟩ := hrefines.holds puts hputs
  rw [hkv, Option.some.injEq, Prod.mk.injEq] at hkv'
  rw [hkv'.2]
  have hle := hlength puts hputs
  refine ⟨getPartitionSize_eq hholds.indexHolds, ?_⟩
  have hentries : (entriesOf hash puts).length ≤ fuel := by
    rw [entriesOf, List.length_map]
    omega
  rw [dumpWalk_spec hholds.toLinked hentries, entriesOf, List.map_map]
  rfl

/-- Two handlers one after the other, the second in new memory, with a block of the same name. -/
def lifeCalls : List HandlerCall :=
  [.get, .getOrCreate 4096,
    .setPartition 0 ⟨"a", [1, 2], true⟩
      { entry := 8192, data := 8224, metaPtr := 16, listPtr := 32 },
    .getOrCreate 4096, .stop, .stop, .getOrCreate 12288,
    .setPartition 1 ⟨"a", [3], true⟩ { entry := 8256, data := 8288, metaPtr := 16, listPtr := 32 }]

theorem handler_refines_sample :
    ∃ obj, runOut (HandlerObject.exec sampleHash 8) (.init sampleService) lifeCalls =
        some ([.nullPointerException, .handler 0, .unit, .handler 0, .unit, .unit, .handler 1,
          .unit], obj) ∧
      obj.closed = [0] ∧ allocatedBytes obj.memory = 195 := by
  obtain ⟨obj, hrun, hrefines, _⟩ := handler_refines sampleHash 8 sampleService lifeCalls
    (by decide) (by decide)
  exact ⟨obj, hrun, hrefines.closed, hrefines.memory⟩

end SparkNvm.Storage
