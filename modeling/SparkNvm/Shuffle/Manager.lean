import SparkNvm.Shuffle.RoundTrip

/-!
# `nvmShuffleManager`

The calls of one executor on its shuffle manager, with persistent memory enabled.
`unregisterShuffle` has Spark's resolver remove the files of the shuffle; nothing calls
`deletePartition`.

* `ShuffleManager` and its methods, as in the source.
* `Swept` says that a shuffle that is not registered has no bytes in the store.
* `unregister_removes_iff`: this holds in every state of a run exactly if no shuffle is
  unregistered after one of its blocks was stored.
-/

namespace SparkNvm.Shuffle

open Lib Native Storage

/-! ## The manager -/

/-- `nvmShuffleManager` of an executor, with the files and the store of the executor. -/
structure ShuffleManager (D : Type) where
  numMapsForShuffle : Nat → Option Nat
  disk : D
  kv : Pmemkv

/-- A call on the manager.  `write` is `getWriter` and then the writer of the map task:
`calls` are its calls of `setPartition`, all of them or those before an exception, and
`answers` is what the memory service answers to them. -/
inductive ManagerOp where
  | registerShuffle (shuffleId numMaps : Nat)
  | write (shuffleId numMaps mapId : Nat) (calls : List SetBlock) (answers : List PutAnswers)
  | unregisterShuffle (shuffleId : Nat)

namespace ShuffleManager

variable {D : Type}

/-- `getWriter(handle, mapId, context)`: `putIfAbsent`. -/
def getWriter (st : ShuffleManager D) (shuffleId numMaps : Nat) : ShuffleManager D :=
  { st with
    numMapsForShuffle := Function.update st.numMapsForShuffle shuffleId
      (some ((st.numMapsForShuffle shuffleId).getD numMaps)) }

/-- `unregisterShuffle(shuffleId)`; `removeDataByMap` is Spark's. -/
def unregisterShuffle (removeDataByMap : D → Nat → Nat → D) (st : ShuffleManager D)
    (shuffleId : Nat) : ShuffleManager D :=
  { st with
    numMapsForShuffle := Function.update st.numMapsForShuffle shuffleId none
    disk := (List.range ((st.numMapsForShuffle shuffleId).getD 0)).foldl
      (fun disk mapId => removeDataByMap disk shuffleId mapId) st.disk }

/-- One call; `registerShuffle` only makes a handle. -/
def step (hash : String → UInt64) (removeDataByMap : D → Nat → Nat → D) (st : ShuffleManager D) :
    ManagerOp → Option (ShuffleManager D)
  | .registerShuffle _ _ => some st
  | .write shuffleId numMaps _ calls answers => do
    let st := st.getWriter shuffleId numMaps
    let kv ← setBlocks hash st.kv (calls.zip answers)
    return { st with kv := kv }
  | .unregisterShuffle shuffleId => some (st.unregisterShuffle removeDataByMap shuffleId)

/-- A new manager and a new store. -/
def init (s : Service) (root : Nat) (disk : D) : ShuffleManager D :=
  { numMapsForShuffle := fun _ => none, disk := disk, kv := Pmemkv.create s root }

/-- A writer writes only the blocks of its map task, and no request fails.  The keys are
among `used`. -/
def Ok (hash : String → UInt64) (used : Set String) (st : ShuffleManager D) : ManagerOp → Prop
  | .write shuffleId _ mapId calls answers => Accepted hash st.kv calls answers ∧
      ∀ call ∈ calls, call.key ∈ used ∧
        ∃ reduceId, call.key = shuffleBlockName shuffleId mapId reduceId
  | _ => True

/-- A shuffle that is not registered has no bytes in the store. -/
def Swept (hash : String → UInt64) (used : Set String) (st : ShuffleManager D) : Prop :=
  ∀ shuffleId mapId reduceId, shuffleBlockName shuffleId mapId reduceId ∈ used →
    st.numMapsForShuffle shuffleId = none →
    getPartitionSize hash st.kv (shuffleBlockName shuffleId mapId reduceId) = some 0

end ShuffleManager

/-- The calls of `setPartition` that writers of a shuffle made. -/
def writtenBy (shuffleId : Nat) (ops : List ManagerOp) : List SetBlock :=
  ops.flatMap fun op =>
    match op with
    | .write s _ _ calls _ => if s = shuffleId then calls else []
    | _ => []

/-- The puts of all writers. -/
def putsOf (ops : List ManagerOp) : List PutCall :=
  ops.flatMap fun op =>
    match op with
    | .write _ _ _ calls answers => putCalls calls answers
    | _ => []

theorem writtenBy_append (shuffleId : Nat) (ops ops' : List ManagerOp) :
    writtenBy shuffleId (ops ++ ops') = writtenBy shuffleId ops ++ writtenBy shuffleId ops' :=
  List.flatMap_append

theorem putsOf_append (ops ops' : List ManagerOp) :
    putsOf (ops ++ ops') = putsOf ops ++ putsOf ops' := List.flatMap_append

/-! ## What the store holds -/

section

variable {D : Type} {hash : String → UInt64} {removeDataByMap : D → Nat → Nat → D}
variable {used : Set String} {st st' : ShuffleManager D} {ops : List ManagerOp} {op : ManagerOp}

/-- The store holds what the writers handed over, block by block. -/
structure Keeps (hash : String → UInt64) (used : Set String) (ops : List ManagerOp)
    (st : ShuffleManager D) : Prop where
  holds : Holds hash st.kv (putsOf ops)
  keys : ∀ shuffleId, ∀ call ∈ writtenBy shuffleId ops, call.key ∈ used ∧
    ∃ mapId reduceId, call.key = shuffleBlockName shuffleId mapId reduceId
  stored : ∀ shuffleId mapId reduceId, shuffleBlockName shuffleId mapId reduceId ∈ used →
    storedBytes hash (putsOf ops) (shuffleBlockName shuffleId mapId reduceId) =
      handedOver ((writtenBy shuffleId ops).filter fun call =>
        call.key = shuffleBlockName shuffleId mapId reduceId)

theorem keeps_init {s : Service} {root : Nat} (hroot : s.Grants sizeofBase root) (disk : D) :
    Keeps hash used [] (ShuffleManager.init s root disk) :=
  ⟨Holds.create hroot, by simp [writtenBy], fun _ _ _ _ => rfl⟩

/-- A call that makes no put. -/
theorem Keeps.quiet (h : Keeps hash used ops st) (hkv : st'.kv = st.kv) (hputs : putsOf [op] = [])
    (hwritten : ∀ shuffleId, writtenBy shuffleId [op] = []) :
    Keeps hash used (ops ++ [op]) st' := by
  refine ⟨?_, fun shuffleId => ?_, fun shuffleId => ?_⟩
  · rw [hkv, putsOf_append, hputs, List.append_nil]
    exact h.holds
  · rw [writtenBy_append, hwritten, List.append_nil]
    exact h.keys shuffleId
  · rw [writtenBy_append, hwritten, List.append_nil, putsOf_append, hputs, List.append_nil]
    exact h.stored shuffleId

/-- A writer adds its blocks to those of its own shuffle. -/
theorem Keeps.write (hinj : Set.InjOn hash used) (h : Keeps hash used ops st)
    {shuffleId numMaps mapId : Nat} {calls : List SetBlock} {answers : List PutAnswers}
    (hok : st.Ok hash used (.write shuffleId numMaps mapId calls answers)) :
    ∃ st', st.step hash removeDataByMap (.write shuffleId numMaps mapId calls answers) = some st' ∧
      Keeps hash used (ops ++ [.write shuffleId numMaps mapId calls answers]) st' := by
  obtain ⟨haccepted, hkeys⟩ := hok
  obtain ⟨kv', hset, hholds⟩ := haccepted.holds h.holds
  have hputs : putsOf [.write shuffleId numMaps mapId calls answers] = putCalls calls answers :=
    List.append_nil _
  have hwritten : ∀ s, writtenBy s [.write shuffleId numMaps mapId calls answers] =
      if shuffleId = s then calls else [] := fun s => List.append_nil _
  have hstep : st.step hash removeDataByMap (.write shuffleId numMaps mapId calls answers) =
      some { st.getWriter shuffleId numMaps with kv := kv' } := by
    show (setBlocks hash st.kv (calls.zip answers)).bind _ = _
    rw [hset]
    rfl
  refine ⟨_, hstep, ?_, fun s call hcall => ?_, fun s m r hname => ?_⟩
  · rw [putsOf_append, hputs]
    exact hholds
  · rw [writtenBy_append, hwritten] at hcall
    cases List.mem_append.mp hcall with
    | inl hcall => exact h.keys s call hcall
    | inr hcall =>
      by_cases hs : shuffleId = s
      · rw [if_pos hs] at hcall
        obtain ⟨hmem, reduceId, hkey⟩ := hkeys call hcall
        exact ⟨hmem, mapId, reduceId, by rw [hkey, hs]⟩
      · rw [if_neg hs] at hcall
        simp at hcall
  · rw [putsOf_append, hputs, storedBytes_calls _ haccepted.length, h.stored s m r hname,
      writtenBy_append, List.filter_append, handedOver_append, hwritten]
    congr 2
    by_cases hs : shuffleId = s
    · rw [if_pos hs]
      apply List.filter_congr
      intro call hcall
      rw [decide_eq_decide]
      exact ⟨fun heq => hinj (hkeys call hcall).1 hname heq, fun heq => by rw [heq]⟩
    · rw [if_neg hs, List.filter_nil, List.filter_eq_nil_iff]
      intro call hcall
      obtain ⟨hmem, reduceId, hkey⟩ := hkeys call hcall
      rw [decide_eq_true_eq]
      intro heq
      have hsame := hinj hmem hname heq
      rw [hkey] at hsame
      exact hs (shuffleBlockName_inj hsame).1

theorem Keeps.step (hinj : Set.InjOn hash used) (h : Keeps hash used ops st)
    (hok : st.Ok hash used op) :
    ∃ st', st.step hash removeDataByMap op = some st' ∧ Keeps hash used (ops ++ [op]) st' := by
  cases op with
  | registerShuffle shuffleId numMaps => exact ⟨st, rfl, h.quiet rfl rfl fun _ => rfl⟩
  | write shuffleId numMaps mapId calls answers => exact h.write hinj hok
  | unregisterShuffle shuffleId => exact ⟨_, rfl, h.quiet rfl rfl fun _ => rfl⟩

theorem run_keeps {s : Service} {root : Nat} {disk : D} (hroot : s.Grants sizeofBase root)
    (hinj : Set.InjOn hash used)
    (hok : Admissible (ShuffleManager.step hash removeDataByMap) (ShuffleManager.Ok hash used)
      (.init s root disk) ops) :
    ∃ st, run (ShuffleManager.step hash removeDataByMap) (.init s root disk) ops = some st ∧
      Keeps hash used ops st :=
  run_invariant (I := fun done st => Keeps hash used done st)
    (fun _ _ _ _ _ h hop => h.step hinj hop) (keeps_init hroot disk) hok

/-- The size of a block is the number of bytes that writers handed over for it. -/
theorem Keeps.size_eq (h : Keeps hash used ops st) {shuffleId mapId reduceId : Nat}
    (hname : shuffleBlockName shuffleId mapId reduceId ∈ used) :
    getPartitionSize hash st.kv (shuffleBlockName shuffleId mapId reduceId) =
      some (handedOver ((writtenBy shuffleId ops).filter fun call =>
        call.key = shuffleBlockName shuffleId mapId reduceId)).length := by
  rw [getPartitionSize_eq h.holds.indexHolds, h.stored shuffleId mapId reduceId hname]

/-- Only registered shuffles have stored blocks. -/
def Unwritten (ops : List ManagerOp) (st : ShuffleManager D) : Prop :=
  ∀ shuffleId, st.numMapsForShuffle shuffleId = none → handedOver (writtenBy shuffleId ops) = []

theorem Keeps.swept (h : Keeps hash used ops st) (hun : Unwritten ops st) : st.Swept hash used := by
  intro shuffleId mapId reduceId hname hnone
  rw [h.size_eq hname]
  have hall := hun shuffleId hnone
  rw [handedOver, List.flatMap_eq_nil_iff] at hall
  rw [Option.some.injEq, List.length_eq_zero_iff, handedOver, List.flatMap_eq_nil_iff]
  exact fun call hcall => hall call (List.mem_of_mem_filter hcall)

/-- In a state in which an unregistered shuffle has no bytes, its writers had none. -/
theorem Keeps.unwritten_of_swept (h : Keeps hash used ops st) (hswept : st.Swept hash used)
    {shuffleId : Nat} (hnone : st.numMapsForShuffle shuffleId = none) :
    handedOver (writtenBy shuffleId ops) = [] := by
  rw [handedOver, List.flatMap_eq_nil_iff]
  intro call hcall
  obtain ⟨hmem, mapId, reduceId, hkey⟩ := h.keys shuffleId call hcall
  have hsize := hswept shuffleId mapId reduceId (by rw [← hkey]; exact hmem) hnone
  rw [h.size_eq (by rw [← hkey]; exact hmem), Option.some.injEq, List.length_eq_zero_iff,
    handedOver, List.flatMap_eq_nil_iff] at hsize
  exact hsize call (List.mem_filter.mpr ⟨hcall, by rw [hkey]; exact decide_eq_true rfl⟩)

/-- Registering keeps `Unwritten`, and so does unregistering a shuffle without blocks. -/
theorem Unwritten.step (h : Unwritten ops st)
    (hstep : st.step hash removeDataByMap op = some st')
    (hfree : ∀ shuffleId, op = .unregisterShuffle shuffleId →
      handedOver (writtenBy shuffleId ops) = []) : Unwritten (ops ++ [op]) st' := by
  intro shuffleId hnone
  cases op with
  | registerShuffle s numMaps =>
    rw [← Option.some.inj hstep] at hnone
    rw [writtenBy_append]
    show handedOver (writtenBy shuffleId ops ++ []) = []
    rw [List.append_nil]
    exact h shuffleId hnone
  | write s numMaps mapId calls answers =>
    obtain ⟨kv', _, hst'⟩ := Option.bind_eq_some_iff.mp hstep
    rw [← Option.some.inj hst'] at hnone
    have hother : shuffleId ≠ s := by
      rintro rfl
      simp [ShuffleManager.getWriter] at hnone
    have hold : st.numMapsForShuffle shuffleId = none := by
      have hsame : Function.update st.numMapsForShuffle s
          (some ((st.numMapsForShuffle s).getD numMaps)) shuffleId = none := hnone
      rwa [Function.update_of_ne hother] at hsame
    rw [writtenBy_append]
    have hnew : writtenBy shuffleId [.write s numMaps mapId calls answers] = [] := by
      show (if s = shuffleId then calls else []) ++ [] = []
      rw [if_neg (Ne.symm hother), List.append_nil]
    rw [hnew, List.append_nil]
    exact h shuffleId hold
  | unregisterShuffle s =>
    rw [← Option.some.inj hstep] at hnone
    rw [writtenBy_append]
    show handedOver (writtenBy shuffleId ops ++ []) = []
    rw [List.append_nil]
    by_cases hs : shuffleId = s
    · rw [hs]
      exact hfree s rfl
    · have hsame : Function.update st.numMapsForShuffle s none shuffleId = none := hnone
      rw [Function.update_of_ne hs] at hsame
      exact h shuffleId hsame

/-- The writers of the source write only the blocks of their map task. -/
theorem writeWith_keys {R S : Type} {ser : SerializerInstance R S} {t : Int}
    {shuffleId mapId n : Nat} {data : Nat → Mem} {calls : List (Nat × BlockOp R)} {out : MapOutput}
    (h : writeWith ser t shuffleId mapId n data calls = .ok out) :
    ∀ call ∈ out.calls, ∃ reduceId, call.key = shuffleBlockName shuffleId mapId reduceId := by
  intro call hcall
  obtain ⟨p, _, hkey⟩ := (writeWith_finishes h).keys call hcall
  exact ⟨p, hkey⟩

end

/-- For every sequence of calls on the manager of an executor that starts with an empty
store: in every state of the run a shuffle that is not registered, in particular one that
was unregistered, has no bytes in the store, exactly if no shuffle is unregistered after
a writer of it has stored a byte.  Unregistering changes no block of any shuffle. -/
theorem unregister_removes_iff {D : Type} (removeDataByMap : D → Nat → Nat → D)
    (hash : String → UInt64) (fuel : Nat) (s : Service) (root : Nat) (disk : D) (used : Set String)
    (ops : List ManagerOp) (hroot : s.Grants sizeofBase root) (hinj : Set.InjOn hash used)
    (hok : Admissible (ShuffleManager.step hash removeDataByMap) (ShuffleManager.Ok hash used)
      (.init s root disk) ops) :
    ((∀ pre post, ops = pre ++ post →
        ∃ st, run (ShuffleManager.step hash removeDataByMap) (.init s root disk) pre = some st ∧
          st.Swept hash used) ↔
      ∀ pre shuffleId post, ops = pre ++ .unregisterShuffle shuffleId :: post →
        handedOver (writtenBy shuffleId pre) = []) ∧
    ∀ pre shuffleId post, ops = pre ++ .unregisterShuffle shuffleId :: post →
      ∃ st st', run (ShuffleManager.step hash removeDataByMap) (.init s root disk) pre = some st ∧
        st.step hash removeDataByMap (.unregisterShuffle shuffleId) = some st' ∧
        ∀ k, SameAnswers hash fuel st.kv st'.kv k := by
  have hfront : ∀ {pre post}, ops = pre ++ post →
      Admissible (ShuffleManager.step hash removeDataByMap) (ShuffleManager.Ok hash used)
        (.init s root disk) pre := by
    intro pre post hsplit
    rw [hsplit] at hok
    exact (admissible_append.mp hok).1
  refine ⟨⟨?_, ?_⟩, ?_⟩
  · intro hall pre shuffleId post hsplit
    obtain ⟨st, hrun, hkeeps⟩ := run_keeps hroot hinj (hfront hsplit)
    obtain ⟨st', hrun', hswept⟩ := hall (pre ++ [.unregisterShuffle shuffleId]) post
      (by rw [hsplit, List.append_assoc]; rfl)
    rw [run_append, hrun] at hrun'
    have hst' : st.unregisterShuffle removeDataByMap shuffleId = st' := Option.some.inj hrun'
    have hkeeps' : Keeps hash used (pre ++ [.unregisterShuffle shuffleId]) st' :=
      hkeeps.quiet (by rw [← hst']; rfl) rfl fun _ => rfl
    have hnone : st'.numMapsForShuffle shuffleId = none := by
      rw [← hst']
      exact Function.update_self ..
    have hempty := hkeeps'.unwritten_of_swept hswept hnone
    rw [writtenBy_append] at hempty
    rwa [← List.append_nil (writtenBy shuffleId pre)]
  · intro hfree pre post hsplit
    obtain ⟨st, hrun, hkeeps, hun⟩ := run_invariant
      (I := fun done st => Keeps hash used done st ∧ Unwritten done st)
      (fun done op rest st hpre hI hop => by
        obtain ⟨st', hstep, hkeeps⟩ := hI.1.step hinj hop
        refine ⟨st', hstep, hkeeps, hI.2.step hstep fun shuffleId hunregister => ?_⟩
        exact hfree done shuffleId (rest ++ post) (by rw [hsplit, hpre, hunregister]; simp))
      ⟨keeps_init hroot disk, fun _ _ => rfl⟩ (hfront hsplit)
    exact ⟨st, hrun, hkeeps.swept hun⟩
  · intro pre shuffleId post hsplit
    obtain ⟨st, hrun, _⟩ := run_keeps hroot hinj (hfront hsplit)
    exact ⟨st, _, hrun, rfl, fun k => ⟨fun _ => rfl, rfl, rfl, fun _ => rfl⟩⟩

/-- A writer of shuffle `1`, and shuffle `0` is unregistered. -/
def sampleCalls : List ManagerOp :=
  [.registerShuffle 0 1, .registerShuffle 1 1,
    .write 1 1 0 [⟨"shuffle_1_0_0", [7], true⟩] (shuffleAnswers.take 1),
    .unregisterShuffle 0]

theorem unregister_removes_sample :
    ((∀ pre post, sampleCalls = pre ++ post →
        ∃ st, run (ShuffleManager.step shuffleHash fun disk _ _ => disk)
            (.init sampleService 4096 ()) pre = some st ∧
          st.Swept shuffleHash {"shuffle_0_0_0", "shuffle_1_0_0"}) ↔
      ∀ pre shuffleId post, sampleCalls = pre ++ .unregisterShuffle shuffleId :: post →
        handedOver (writtenBy shuffleId pre) = []) ∧
    ∀ pre shuffleId post, sampleCalls = pre ++ .unregisterShuffle shuffleId :: post →
      ∃ st st', run (ShuffleManager.step shuffleHash fun disk _ _ => disk)
          (.init sampleService 4096 ()) pre = some st ∧
        st.step shuffleHash (fun disk _ _ => disk) (.unregisterShuffle shuffleId) = some st' ∧
        ∀ k, SameAnswers shuffleHash 1 st.kv st'.kv k := by
  refine unregister_removes_iff (fun disk _ _ => disk) shuffleHash 1 sampleService 4096 () _
    sampleCalls (by decide) ?_ ?_
  · intro k hk k' hk' heq
    rcases hk with rfl | rfl <;> rcases hk' with rfl | rfl
    · rfl
    · exact absurd heq (by decide)
    · exact absurd heq (by decide)
    · rfl
  · refine ⟨trivial, fun st hst => ⟨trivial, fun st' hst' => ⟨⟨⟨rfl, ?_⟩, ?_⟩, fun _ _ =>
      ⟨trivial, fun _ _ => trivial⟩⟩⟩⟩
    · cases hst
      cases hst'
      decide
    · intro call hcall
      rw [List.mem_singleton.mp hcall]
      exact ⟨.inr rfl, 0, by decide⟩

/-- A writer stores one byte of shuffle `0`; unregistering the shuffle leaves it in the
store. -/
theorem unregister_leaves_block :
    ∃ out st, write byteSerializer 4194304 (fun _ => 0) 0 0 1 (fun _ _ => 0) [(7, ())] = .ok out ∧
      run (ShuffleManager.step shuffleHash fun disk _ _ => disk) (.init sampleService 4096 ())
        [.registerShuffle 0 1, .write 0 1 0 out.calls (shuffleAnswers.take 1),
          .unregisterShuffle 0] = some st ∧
      st.numMapsForShuffle 0 = none ∧
      getPartitionSize shuffleHash st.kv (shuffleBlockName 0 0 0) = some 1 ∧
      ¬st.Swept shuffleHash {"shuffle_0_0_0"} := by
  have hall : ((write byteSerializer 4194304 (fun _ => 0) 0 0 1 (fun _ _ => 0)
      [(7, ())]).toOption.bind fun out =>
        (run (ShuffleManager.step shuffleHash fun disk _ _ => disk) (.init sampleService 4096 ())
          [.registerShuffle 0 1, .write 0 1 0 out.calls (shuffleAnswers.take 1),
            .unregisterShuffle 0]).map fun st =>
        (st.numMapsForShuffle 0, getPartitionSize shuffleHash st.kv (shuffleBlockName 0 0 0))) =
      some (none, some 1) := by
    decide
  obtain ⟨out, hwrite, hall⟩ := Option.bind_eq_some_iff.mp hall
  obtain ⟨st, hrun, hall⟩ := Option.map_eq_some_iff.mp hall
  rw [Prod.mk.injEq] at hall
  refine ⟨out, st, ?_, hrun, hall.1, hall.2, fun hswept => ?_⟩
  · exact ok_of_toOption hwrite
  · have hsize := hswept 0 0 0 (by decide : _ = _) hall.1
    rw [hall.2] at hsize
    simp at hsize

end SparkNvm.Shuffle
