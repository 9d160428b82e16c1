import SparkNvm.Shuffle.MapSide

/-!
# Several attempts of one map task

A writer runs on a store in which earlier writers of the same map task have left blocks.
The first flush of every stream is sent with `set_clean`, which the native side does not
look at.

* `Isolated` says for one partition that the store holds what this writer handed over,
  and nothing else.
* `endsForced_write`, `endsForced_combineOps`: both branches of the writer end the calls on
  every stream with a forced spill.
* `attempt_isolated_iff`: this is so exactly if nothing was there before and the size
  fits an `int`.
-/

namespace SparkNvm.Shuffle

open Lib Native Storage

/-- The bytes that the writer hands over for a partition. -/
def attemptBytes (shuffleId mapId : Nat) (out : MapOutput) (p : Nat) : List UInt8 :=
  handedOver (out.calls.filter fun call => call.key = shuffleBlockName shuffleId mapId p)

/-- The block holds what the writer handed over, and for a block that it flushed the
reported length is the stored size. -/
def Isolated (hash : String → UInt64) (fuel : Nat) (kv : Pmemkv) (shuffleId mapId : Nat)
    (out : MapOutput) (p : Nat) : Prop :=
  getPartitionSize hash kv (shuffleBlockName shuffleId mapId p) =
      some (attemptBytes shuffleId mapId out p).length ∧
    (attemptBytes shuffleId mapId out p ≠ [] →
      (∀ mb : Pmemkv.MemoryBlock, mb.size = (attemptBytes shuffleId mapId out p).length →
        ∃ mb', kv.get hash fuel (shuffleBlockName shuffleId mapId p) mb = some (0, mb') ∧
          loadBytes mb'.data 0 mb.size = attemptBytes shuffleId mapId out p) ∧
      out.partitionLengths[p]? = some ((attemptBytes shuffleId mapId out p).length : Int))

section

variable {R S : Type} {hash : String → UInt64} {fuel : Nat} {kv : Pmemkv} {puts : List PutCall}
variable {ser : SerializerInstance R S} {t : Int} {shuffleId mapId n p : Nat} {data : Nat → Mem}
variable {ops : List (Nat × BlockOp R)} {out : MapOutput} {answers : List PutAnswers}

/-- The calls on a stream end with a forced spill, if there are any. -/
def EndsForced (ops : List (Nat × BlockOp R)) (p : Nat) : Prop :=
  opsAt p ops = [] ∨ ∃ op, (opsAt p ops).getLast? = some op ∧ op.force = true

/-- Nothing was there before, the size fits an `int`, and a stream that gets no call has
no bytes. -/
structure Clean (hash : String → UInt64) (puts : List PutCall) (ser : SerializerInstance R S)
    (shuffleId mapId : Nat) (ops : List (Nat × BlockOp R)) (p : Nat) : Prop where
  empty : storedBytes hash puts (shuffleBlockName shuffleId mapId p) = []
  small : (emitted ser (opsAt p ops)).length < 2 ^ 31
  idle : opsAt p ops = [] → bytesOf ser.start.2 = []

theorem isolated_iff (hfin : Finishes ser (shuffleBlockName shuffleId mapId) n ops out)
    (hends : EndsForced ops p) (hp : p < n)
    (hstored : storedBytes hash (puts ++ putCalls out.calls answers)
      (shuffleBlockName shuffleId mapId p) =
        storedBytes hash puts (shuffleBlockName shuffleId mapId p) ++
          attemptBytes shuffleId mapId out p)
    (hholds : Holds hash kv (puts ++ putCalls out.calls answers))
    (hfuel : (puts ++ putCalls out.calls answers).length ≤ fuel) :
    Isolated hash fuel kv shuffleId mapId out p ↔ Clean hash puts ser shuffleId mapId ops p := by
  have hcount : (attemptBytes shuffleId mapId out p).length = (emitted ser (opsAt p ops)).length :=
    hfin.count p hp
  have hsize := getPartitionSize_eq hholds.indexHolds (shuffleBlockName shuffleId mapId p)
  rw [hstored] at hsize
  constructor
  · rintro ⟨hget, hflushed⟩
    rw [hsize, Option.some.injEq, List.length_append] at hget
    have hempty : storedBytes hash puts (shuffleBlockName shuffleId mapId p) = [] :=
      List.length_eq_zero_iff.mp (by omega)
    rcases hends with hnone | ⟨op, hlast, hforce⟩
    · have hnothing : attemptBytes shuffleId mapId out p = [] := by
        by_contra hne
        have hlength := (hflushed hne).2
        rw [hfin.idle p hp hnone, Option.some.injEq] at hlength
        exact hne (List.length_eq_zero_iff.mp (by omega))
      rw [hnothing, hnone, List.length_nil] at hcount
      have hstart : bytesOf ser.start.2 = [] := by
        rw [emitted] at hcount
        exact List.length_eq_zero_iff.mp (by rw [List.length_append] at hcount; omega)
      exact ⟨hempty, by rw [hnone, ← hcount]; exact Nat.two_pow_pos 31, fun _ => hstart⟩
    · refine ⟨hempty, ?_, fun hnil => by rw [hnil] at hlast; simp at hlast⟩
      by_cases hnothing : attemptBytes shuffleId mapId out p = []
      · rw [← hcount, hnothing]
        exact Nat.two_pow_pos 31
      · have hlength := (hflushed hnothing).2
        rw [hfin.lengths p hp op hlast hforce, Option.some.injEq, hcount] at hlength
        have hlt := wrap32_le (emitted ser (opsAt p ops)).length
        omega
  · rintro ⟨hempty, hsmall, hidle⟩
    rw [hempty, List.nil_append] at hstored hsize
    refine ⟨hsize, fun hne => ⟨fun mb hmb => ?_, ?_⟩⟩
    · have hne' : storedUnder hash (puts ++ putCalls out.calls answers)
          (shuffleBlockName shuffleId mapId p) ≠ [] := by
        intro hnil
        rw [storedBytes, hnil] at hstored
        exact hne hstored.symm
      have hget := get_all hholds.indexHolds hfuel hne' mb (by rw [hstored]; exact hmb)
      rw [hstored] at hget
      refine ⟨_, hget, ?_⟩
      rw [hmb]
      exact loadBytes_storeBytes_self _ _ _
    · rcases hends with hnone | ⟨op, hlast, hforce⟩
      · refine absurd (List.length_eq_zero_iff.mp ?_) hne
        rw [hcount, hnone, emitted, hidle hnone]
        rfl
      · rw [hfin.lengths p hp op hlast hforce, hcount, wrap32_of_fits (by omega) (by omega)]

end

/-- For every history of the store, in particular any number of earlier writers of the
same map task that finished or were abandoned, and every writer, with or without map-side
combine, that finishes: the blocks hold what this writer handed over, and the reported
lengths are the stored sizes, exactly if no partition's block had bytes before, every
partition stays below `2 ^ 31` bytes, and the serializer emits nothing for a partition
that gets no call. -/
theorem attempt_isolated_iff {R S : Type} (hash : String → UInt64) (fuel : Nat) (s : Service)
    (root : Nat) (history : List Op) (kv : Pmemkv) (ser : SerializerInstance R S) (t : Int)
    (shuffleId mapId n : Nat) (data : Nat → Mem) (ops : List (Nat × BlockOp R)) (out : MapOutput)
    (answers : List PutAnswers)
    (hroot : s.Grants sizeofBase root) (hfuel : history.length + answers.length ≤ fuel)
    (hok : Admissible (Pmemkv.step hash fuel) (Pmemkv.Ok hash) (Pmemkv.create s root) history)
    (hkv : run (Pmemkv.step hash fuel) (Pmemkv.create s root) history = some kv)
    (hinj : ∀ p < n, ∀ q < n, hash (shuffleBlockName shuffleId mapId p) =
      hash (shuffleBlockName shuffleId mapId q) → p = q)
    (hends : ∀ p < n, EndsForced ops p)
    (hwrite : writeWith ser t shuffleId mapId n data ops = .ok out)
    (haccepted : Accepted hash kv out.calls answers) :
    (∃ kv', setBlocks hash kv (out.calls.zip answers) = some kv' ∧
      ∀ p < n, Isolated hash fuel kv' shuffleId mapId out p) ↔
    ∀ p < n, Clean hash (live history) ser shuffleId mapId ops p := by
  obtain ⟨kv₁, hrun, hholds⟩ := run_holds hroot (by omega) hok
  rw [hkv, Option.some.injEq] at hrun
  subst hrun
  obtain ⟨kv', hset, hholds'⟩ := haccepted.holds hholds
  have hfin := writeWith_finishes hwrite
  have hlive := length_live_le history
  have hlen : (live history ++ putCalls out.calls answers).length ≤ fuel := by
    rw [List.length_append, putCalls, List.length_map, List.length_zip]
    omega
  have hall : ∀ p < n, (Isolated hash fuel kv' shuffleId mapId out p ↔
      Clean hash (live history) ser shuffleId mapId ops p) := fun p hp =>
    isolated_iff hfin (hends p hp) hp
      (hfin.storedBytes hinj (live history) haccepted.length hp) hholds' hlen
  constructor
  · rintro ⟨kv₂, hset', hisolated⟩ p hp
    rw [hset, Option.some.injEq] at hset'
    rw [← hset'] at hisolated
    exact (hall p hp).mp (hisolated p hp)
  · exact fun hclean => ⟨kv', hset, fun p hp => (hall p hp).mpr (hclean p hp)⟩

/-- The calls without map-side combine force every stream at the end. -/
theorem endsForced_write {K V : Type} (getPartition : K → Nat) (records : List (K × V)) {n p : Nat}
    (hp : p < n) : EndsForced (recordOps getPartition records ++ forceOps n) p := by
  refine .inr ⟨.maybeSpill true, ?_, rfl⟩
  rw [opsAt_write getPartition records hp]
  exact getLast?_partitionOps getPartition records p

/-- The calls with map-side combine force every stream that they write to. -/
theorem endsForced_combineOps {K V C : Type} [DecidableEq K] (s : NvmExternalSorter K V C)
    (sorted : Option (K → K → Int) → Entries K C → Entries K C) (records : List ((K × V) × Int))
    (p : Nat) : EndsForced (combineOps s sorted records) p := by
  rcases (spillAll_writesForced s.numPartitions p _).forced with hnone | ⟨before, hbefore⟩
  · exact .inl hnone
  · exact .inr ⟨.maybeSpill true, by rw [combineOps, hbefore, List.getLast?_concat], rfl⟩

/-- A store with the block of another map task. -/
def otherTask : List Op :=
  [.put ⟨"shuffle_1_0_0", [9], { entry := 8320, data := 8352, metaPtr := 128, listPtr := 160 }⟩]

/-- A store in which moreover an attempt of the map task was abandoned after one block. -/
def abandonedAttempt : List Op :=
  otherTask ++ [.put ⟨"shuffle_0_0_1", [1],
    { entry := 8384, data := 8416, metaPtr := 192, listPtr := 224 }⟩]

/-- Next to the block of another map task the writer is isolated, and after the abandoned attempt
it is not. -/
theorem attempt_isolated_sample :
    ∃ out kv₁ kv₂, write byteSerializer 4194304 (fun k => k.toNat % 2) 0 0 2 (fun _ _ => 0)
        [(1, ()), (2, ()), (3, ())] = .ok out ∧
      run (Pmemkv.step shuffleHash 4) (Pmemkv.create sampleService 4096) otherTask = some kv₁ ∧
      (∃ kv', setBlocks shuffleHash kv₁ (out.calls.zip shuffleAnswers) = some kv' ∧
        ∀ p < 2, Isolated shuffleHash 4 kv' 0 0 out p) ∧
      run (Pmemkv.step shuffleHash 4) (Pmemkv.create sampleService 4096) abandonedAttempt =
        some kv₂ ∧
      ¬∃ kv', setBlocks shuffleHash kv₂ (out.calls.zip shuffleAnswers) = some kv' ∧
        ∀ p < 2, Isolated shuffleHash 4 kv' 0 0 out p := by
  have hcalls : (write byteSerializer 4194304 (fun k => k.toNat % 2) 0 0 2 (fun _ _ => 0)
      [(1, ()), (2, ()), (3, ())]).toOption.map MapOutput.calls =
        some [⟨"shuffle_0_0_0", [2], true⟩, ⟨"shuffle_0_0_1", [1, 3], true⟩] := by
    decide
  obtain ⟨out, hout, hcalls⟩ := Option.map_eq_some_iff.mp hcalls
  have hwrite := ok_of_toOption hout
  have haccepted : ∀ history ∈ [otherTask, abandonedAttempt],
      ∃ kv, run (Pmemkv.step shuffleHash 4) (Pmemkv.create sampleService 4096) history = some kv ∧
        Accepted shuffleHash kv out.calls shuffleAnswers := by
    intro history hhistory
    have hadm : ∀ history ∈ [otherTask, abandonedAttempt],
        ((run (Pmemkv.step shuffleHash 4) (Pmemkv.create sampleService 4096) history).any fun kv =>
          decide (Admissible (fun kv call => nativeSetBlock shuffleHash kv call.1 call.2)
            (SetOk shuffleHash) kv ([⟨"shuffle_0_0_0", [2], true⟩,
              ⟨"shuffle_0_0_1", [1, 3], true⟩].zip shuffleAnswers))) = true := by
      decide
    obtain ⟨kv, hkv, hok⟩ := (Option.any_eq_true _ _).mp (hadm history hhistory)
    refine ⟨kv, hkv, ?_⟩
    rw [hcalls]
    exact ⟨rfl, of_decide_eq_true hok⟩
  obtain ⟨kv₁, hkv₁, haccepted₁⟩ := haccepted otherTask (by decide)
  obtain ⟨kv₂, hkv₂, haccepted₂⟩ := haccepted abandonedAttempt (by decide)
  have hinj : ∀ p < 2, ∀ q < 2, shuffleHash (shuffleBlockName 0 0 p) =
      shuffleHash (shuffleBlockName 0 0 q) → p = q := by
    decide
  have hends : ∀ p < 2, EndsForced
      (recordOps (fun k : UInt8 => k.toNat % 2) [(1, ()), (2, ()), (3, ())] ++ forceOps 2) p :=
    fun p hp => endsForced_write _ _ hp
  refine ⟨out, kv₁, kv₂, hwrite, hkv₁, ?_, hkv₂, ?_⟩
  · refine (attempt_isolated_iff shuffleHash 4 sampleService 4096 otherTask kv₁ byteSerializer
      4194304 0 0 2 _ _ out shuffleAnswers (by decide) (by decide) (by decide) hkv₁ hinj
      hends hwrite haccepted₁).mpr fun p hp => ?_
    constructor
    · revert p
      decide
    · revert p
      decide
    · exact fun _ => rfl
  · intro hisolated
    have hclean := (attempt_isolated_iff shuffleHash 4 sampleService 4096 abandonedAttempt kv₂
      byteSerializer 4194304 0 0 2 _ _ out shuffleAnswers (by decide) (by decide)
      (by decide) hkv₂ hinj hends hwrite haccepted₂).mp hisolated 1 (by decide)
    exact absurd hclean.empty (by decide)

/-- Two attempts of one map task, each with the record `7`: the block holds it twice, and
the second attempt reports one byte. -/
theorem second_attempt_appends :
    ∃ out kv₁ kv₂, write byteSerializer 4194304 (fun _ => 0) 0 0 1 (fun _ _ => 0) [(7, ())] =
        .ok out ∧
      setBlocks shuffleHash (Pmemkv.create sampleService 4096)
        (out.calls.zip (shuffleAnswers.take 1)) = some kv₁ ∧
      setBlocks shuffleHash kv₁ (out.calls.zip (shuffleAnswers.drop 1)) = some kv₂ ∧
      attemptBytes 0 0 out 0 = [7] ∧ out.partitionLengths = [1] ∧
      getPartitionSize shuffleHash kv₂ (shuffleBlockName 0 0 0) = some 2 ∧
      ¬Isolated shuffleHash 2 kv₂ 0 0 out 0 := by
  have hall : ((write byteSerializer 4194304 (fun _ => 0) 0 0 1 (fun _ _ => 0)
      [(7, ())]).toOption.bind fun out =>
        (setBlocks shuffleHash (Pmemkv.create sampleService 4096)
          (out.calls.zip (shuffleAnswers.take 1))).bind fun kv₁ =>
        (setBlocks shuffleHash kv₁ (out.calls.zip (shuffleAnswers.drop 1))).map fun kv₂ =>
        (attemptBytes 0 0 out 0, out.partitionLengths,
          getPartitionSize shuffleHash kv₂ (shuffleBlockName 0 0 0))) =
      some ([7], [1], some 2) := by
    decide
  obtain ⟨out, hwrite, hall⟩ := Option.bind_eq_some_iff.mp hall
  obtain ⟨kv₁, hset₁, hall⟩ := Option.bind_eq_some_iff.mp hall
  obtain ⟨kv₂, hset₂, hall⟩ := Option.map_eq_some_iff.mp hall
  rw [Prod.mk.injEq, Prod.mk.injEq] at hall
  refine ⟨out, kv₁, kv₂, ?_, hset₁, hset₂, hall.1, hall.2.1, hall.2.2, fun hisolated => ?_⟩
  · exact ok_of_toOption hwrite
  · have hsize := hisolated.1
    rw [hall.2.2, hall.1] at hsize
    simp at hsize

end SparkNvm.Shuffle
