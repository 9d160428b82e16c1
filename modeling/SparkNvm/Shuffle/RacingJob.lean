import SparkNvm.Native.Linearise
import SparkNvm.Shuffle.SortJob

/-!
# A shuffle on a racing store

`put` takes no lock but the one in `update_meta`.  Here the map tasks are clients of the store
whose single requests interleave, with each other and with whatever else the executor writes:
entries of the persistent list may be lost on the way, but the readers go through the index.

* `MapClients`: the clients that make the calls of the map tasks.
* `storedUnder_callsAt`: the index shows of a block exactly the calls of the task that writes it.
* `racing_job_combines`: the reducer gets its aggregates, whatever the interleaving.
-/

namespace SparkNvm.Shuffle

open Lib Native Storage

/-! ## The puts of one client -/

section

variable {ι : Type} [DecidableEq ι] {hash : String → UInt64} {prog : ι → List PutCall}
variable {sys : System ι} {order : List (ι × Nat)} {i : ι}

omit [DecidableEq ι] in
/-- The calls of a client in program order. -/
theorem callsAt_own (prog : ι → List PutCall) (i : ι) (n : Nat) (hn : n ≤ (prog i).length) :
    callsAt prog ((List.range n).map fun k => (i, k)) = (prog i).take n := by
  induction n with
  | zero => rfl
  | succ n ih =>
    have hget : callAt prog (i, n) = some (prog i)[n] := List.getElem?_eq_getElem hn
    rw [callsAt, List.range_succ, List.map_append, List.filterMap_append, ← callsAt, ih (by omega),
      List.map_singleton, List.filterMap_cons_some hget, List.filterMap_nil,
      List.take_append_getElem hn]

/-- The calls of a client that has finished are its program. -/
theorem callsAt_of_client (h : OwnOrder sys order) (hdone : (sys.ret i).length = (prog i).length) :
    callsAt prog (order.filter fun c => c.1 = i) = prog i := by
  have hsame : order.filter (fun c => c.1 = i) =
      (List.range (prog i).length).map fun n => (i, n) := by
    rw [← hdone, ← h i, List.map_map]
    refine (List.map_id _).symm.trans (List.map_congr_left fun c hc => ?_)
    have hi : c.1 = i := of_decide_eq_true (List.mem_filter.mp hc).2
    rw [id, Function.comp_apply, ← hi]
  rw [hsame, callsAt_own prog i _ (Nat.le_refl _), List.take_length]

/-- Calls that only one client makes. -/
theorem filter_callsAt {P : PutCall → Bool}
    (hown : ∀ c ∈ order, ∀ call, callAt prog c = some call → P call → c.1 = i) :
    (callsAt prog order).filter P = (callsAt prog (order.filter fun c => c.1 = i)).filter P := by
  induction order with
  | nil => rfl
  | cons c order ih =>
    have hrest := ih fun c hc => hown c (List.mem_cons_of_mem _ hc)
    have hthis := hown c List.mem_cons_self
    rw [callsAt, List.filter_cons]
    cases hcall : callAt prog c with
    | none =>
      rw [List.filterMap_cons_none hcall, ← callsAt, hrest]
      split
      · rw [callsAt, callsAt, List.filterMap_cons_none hcall]
      · rfl
    | some call =>
      rw [List.filterMap_cons_some hcall, ← callsAt, List.filter_cons, hrest]
      by_cases hi : c.1 = i
      · rw [if_pos (decide_eq_true hi), callsAt, callsAt, List.filterMap_cons_some hcall,
          List.filter_cons]
      · rw [if_neg fun hP => hi (hthis call hcall hP),
          if_neg fun hdec => hi (of_decide_eq_true hdec)]

/-- Of a name that only one client uses the index shows the calls of this client, once it has
finished, whatever the others are doing. -/
theorem storedUnder_callsAt (h : OwnOrder sys order)
    (hdone : (sys.ret i).length = (prog i).length) {used : Set String} (hinj : Set.InjOn hash used)
    (hused : ∀ j, ∀ call ∈ prog j, call.key ∈ used) {k : String} (hk : k ∈ used)
    (hown : ∀ j, ∀ call ∈ prog j, call.key = k → j = i) :
    storedUnder hash (callsAt prog order) k = (prog i).filter fun call => call.key = k := by
  have hname : ∀ j, ∀ call ∈ prog j, hash call.key = hash k → call.key = k :=
    fun j call hcall heq => hinj (hused j call hcall) hk heq
  rw [storedUnder, filter_callsAt (i := i), callsAt_of_client h hdone]
  · apply List.filter_congr
    intro call hcall
    rw [decide_eq_decide]
    exact ⟨hname i call hcall, fun heq => by rw [heq]⟩
  · intro c hc call hcall hP
    have hmem := mem_of_callAt hcall
    exact hown c.1 call hmem (hname c.1 call hmem (of_decide_eq_true hP))

end

/-! ## The map tasks -/

/-- The puts that the calls of a task make. -/
def Performs (calls : List SetBlock) (puts : List PutCall) : Prop :=
  puts.map (fun put => (put.key, put.value)) = calls.map fun call => (call.key, call.value)

/-- Clients of a store, among them the map tasks.  Nobody else writes the blocks of a task, and no
two names have one hash. -/
structure MapClients {ι : Type} (hash : String → UInt64) (used : Set String)
    (shuffleId n numMaps : Nat) (outs : Nat → MapOutput) (prog : ι → List PutCall)
    (task : Nat → ι) : Prop where
  inj : Set.InjOn hash used
  keys_used : ∀ i, ∀ call ∈ prog i, call.key ∈ used
  names : ∀ m < numMaps, ∀ p < n, shuffleBlockName shuffleId m p ∈ used
  performs : ∀ m < numMaps, Performs (outs m).calls (prog (task m))
  own : ∀ i, ∀ call ∈ prog i, ∀ m < numMaps, ∀ p < n,
    call.key = shuffleBlockName shuffleId m p → i = task m

/-- The map tasks have made all of their calls. -/
def MapsReturned {ι : Type} (numMaps : Nat) (prog : ι → List PutCall) (task : Nat → ι)
    (sys : System ι) : Prop :=
  ∀ m < numMaps, (sys.ret (task m)).length = (prog (task m)).length

section

variable {R S ι : Type} [DecidableEq ι] {hash : String → UInt64} {used : Set String}
variable {ser : SerializerInstance R S} {shuffleId n numMaps : Nat}
variable {ops : Nat → List (Nat × BlockOp R)} {outs : Nat → MapOutput}
variable {written : Nat → Nat → List R} {prog : ι → List PutCall} {task : Nat → ι}
variable {sys : System ι} {order : List (ι × Nat)}

omit [DecidableEq ι] in
theorem Performs.values {calls : List SetBlock} {puts : List PutCall} (h : Performs calls puts)
    (k : String) :
    (puts.filter fun put => put.key = k).map PutCall.value =
      (calls.filter fun call => call.key = k).map SetBlock.value := by
  have hfilter := congrArg
    (List.map Prod.snd ∘ List.filter fun c : String × List UInt8 => c.1 = k) h
  simp only [Function.comp_apply, List.filter_map, List.map_map] at hfilter
  exact hfilter

/-- In every interleaving the blocks of tasks that have returned are in the store. -/
theorem MapsWrote.racing (h : MapsWrote ser shuffleId n numMaps ops outs written)
    (hclients : MapClients hash used shuffleId n numMaps outs prog task)
    (hinv : Inv hash prog sys order) (hdone : MapsReturned numMaps prog task sys) :
    MapsDone hash sys.kv (callsAt prog order) ser shuffleId n numMaps ops outs written := by
  refine ⟨h, hinv.indexHolds, fun m hm p hp => ?_⟩
  rw [storedUnder_callsAt hinv.ordered (hdone m hm) hclients.inj hclients.keys_used
    (hclients.names m hm p hp) fun i call hcall => hclients.own i call hcall m hm p hp]
  exact (hclients.performs m hm).values _

/-- The clients after the first `i` requests. -/
def systemAt (hash : String → UInt64) (prog : ι → List PutCall) (kv : Pmemkv) (sched : List ι)
    (i : Nat) : Option (System ι) :=
  run (System.step hash prog) (System.init kv) (sched.take i)

/-- A reduce task fetches its blocks in any order, each at some request after which the map tasks
have returned. -/
structure FetchesRacing (hash : String → UInt64) (prog : ι → List PutCall) (kv : Pmemkv)
    (sched : List ι) (task : Nat → ι) (outs : Nat → MapOutput)
    (numMaps startPartition endPartition : Nat) (order : List (((Nat × Nat) × Fetch) × Nat)) :
    Prop where
  perm : (order.map fun b => b.1.1).Perm (blocksToFetch outs numMaps startPartition endPartition)
  chunks : ∀ b ∈ order, 0 < b.1.2.chunk
  after_maps : ∀ b ∈ order, ∀ sys ∈ systemAt hash prog kv sched b.2,
    MapsReturned numMaps prog task sys

/-- Whatever the interleaving of the requests and whenever the blocks are fetched, the iterator
goes over the records of the range. -/
theorem MapsWrote.fetchRacing {fuel : Nat} {service : Service} {root : Nat} {sched : List ι}
    {deserialize : List UInt8 → List R} {startPartition endPartition : Nat}
    {fetches : List (((Nat × Nat) × Fetch) × Nat)}
    (h : MapsWrote ser shuffleId n numMaps ops outs written)
    (hclients : MapClients hash used shuffleId n numMaps outs prog task)
    (hser : ser.RoundTrips deserialize) (hroot : service.Grants sizeofBase root)
    (hok : Admissible (System.step hash prog) (System.Ok hash prog)
      (System.init (Pmemkv.create service root)) sched) (hfuel : sched.length ≤ fuel)
    (hend : endPartition ≤ n)
    (hfetch : FetchesRacing hash prog (Pmemkv.create service root) sched task outs numMaps
      startPartition endPartition fetches) :
    ∃ fetched, fetchDuring hash fuel
        (fun i => (systemAt hash prog (Pmemkv.create service root) sched i).map System.kv)
        deserialize shuffleId fetches = some fetched ∧
      fetched.Perm (writtenIn written numMaps startPartition endPartition) := by
  have hblock : ∀ b ∈ fetches, b.1.1.1 < numMaps → b.1.1.2 < n →
      (outs b.1.1.1).partitionLengths[b.1.1.2]? ≠ some 0 →
      ∃ bytes, ((systemAt hash prog (Pmemkv.create service root) sched b.2).map System.kv).bind
          (fun kv => fetchBlock hash fuel kv b.1.2 (shuffleBlockName shuffleId b.1.1.1 b.1.1.2)) =
            some bytes ∧
        deserialize bytes = written b.1.1.1 b.1.1.2 := by
    intro b hb hm hp hpos
    rw [← List.take_append_drop b.2 sched, admissible_append] at hok
    obtain ⟨sys, order, hrun, hinv, hlen⟩ := inv_run hroot hok.1
    have hdone := h.racing hclients hinv (hfetch.after_maps b hb sys hrun)
    have hcalls : (callsAt prog order).length ≤ fuel := by
      have hle : (callsAt prog order).length ≤ order.length := List.length_filterMap_le _ _
      have htake : (sched.take b.2).length ≤ sched.length := List.length_take_le' _ _
      omega
    rw [systemAt, hrun, Option.map_some, Option.bind_some]
    exact hdone.fetchBlock hser hcalls hm hp hpos (hfetch.chunks b hb)
  obtain ⟨blocks, hblocks, hrecords⟩ := h.fetched_perm hser hend hfetch.perm hblock
  exact ⟨blocks.flatMap deserialize, by rw [fetchDuring, hblocks, Option.map_some], hrecords⟩

end

/-- The two tasks of before as clients. -/
def racingProg : Nat → List PutCall
  | 0 =>
    [⟨"shuffle_0_0_1", [1, 1, 1, 0], { entry := 8192, data := 8224, metaPtr := 16, listPtr := 32 }⟩,
      ⟨"shuffle_0_0_1", [1, 1, 1, 1, 0],
        { entry := 8256, data := 8288, metaPtr := 64, listPtr := 96 }⟩]
  | 1 =>
    [⟨"shuffle_0_1_0", [2, 1, 0], { entry := 8320, data := 8352, metaPtr := 128, listPtr := 160 }⟩,
      ⟨"shuffle_0_1_1", [1, 1, 1, 1, 1, 0],
        { entry := 8384, data := 8416, metaPtr := 192, listPtr := 224 }⟩]
  | _ => []

/-- They take turns at every request. -/
def racingSched : List Nat := (List.replicate 27 [0, 1]).flatten

/-- The blocks are fetched when both have returned. -/
def racingFetch : List (((Nat × Nat) × Fetch) × Nat) := jobFetch.map fun b => (b, 54)

theorem racingProg_cases {i : Nat} {call : PutCall} (hcall : call ∈ racingProg i) :
    i < 2 ∧ call.key ∈ jobNames ∧
      ∀ m < 2, ∀ p < 2, call.key = shuffleBlockName 0 m p → i = m := by
  have hown : ∀ i < 2, ∀ call ∈ racingProg i, ∀ m < 2, ∀ p < 2,
      call.key = shuffleBlockName 0 m p → i = m := by
    decide
  match i, hcall with
  | 0, hcall =>
    refine ⟨Nat.zero_lt_two, ?_, hown 0 Nat.zero_lt_two call hcall⟩
    simp only [racingProg, List.mem_cons, List.not_mem_nil, or_false] at hcall
    rcases hcall with rfl | rfl
    · exact .inr (.inl rfl)
    · exact .inr (.inl rfl)
  | 1, hcall =>
    refine ⟨Nat.one_lt_two, ?_, hown 1 Nat.one_lt_two call hcall⟩
    simp only [racingProg, List.mem_cons, List.not_mem_nil, or_false] at hcall
    rcases hcall with rfl | rfl
    · exact .inr (.inr (.inl rfl))
    · exact .inr (.inr (.inr rfl))

theorem racingProg_clients {outs : Nat → MapOutput}
    (hout : ∀ m < 2, (outs m).calls = (combineTrace.filter fun c => c.1 = m).map Prod.snd) :
    MapClients jobHash jobNames 0 2 2 outs racingProg id where
  inj := jobNames_new.inj
  keys_used := fun _ _ hcall => (racingProg_cases hcall).2.1
  names := jobNames_new.names
  performs := by
    intro m hm
    rw [Performs, hout m hm]
    obtain rfl | rfl : m = 0 ∨ m = 1 := by omega
    · rfl
    · rfl
  own := fun _ _ hcall => (racingProg_cases hcall).2.2

/-- After the last request both tasks have returned. -/
theorem racingSched_returned : ∀ sys ∈ systemAt jobHash racingProg
    (Pmemkv.create sampleService 4096) racingSched 54, MapsReturned 2 racingProg id sys := by
  have hall : (systemAt jobHash racingProg (Pmemkv.create sampleService 4096) racingSched 54).all
      (fun sys : System Nat =>
        decide (∀ m : Nat, m < 2 → (sys.ret m).length = (racingProg m).length)) = true := by
    decide
  intro sys hsys
  rw [Option.mem_def.mp hsys, Option.all_some, decide_eq_true_eq] at hall
  exact hall

end SparkNvm.Shuffle
