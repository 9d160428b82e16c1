import SparkNvm.Native.Ownership

/-!
# The index linearises concurrent puts

`update_meta` is the one step of `put` under a lock, so the order in which the
clients reach it is the order that the index shows.

`Inv` is the invariant of every interleaving: the heap invariant, what each
client knows at its position, and that the index represents the blocks of the
finished calls in some `order` in which every client's own calls are in
program order.  `Inv.go` and `Inv.ret` are the two kinds of steps.
`puts_linearised` reads the answers of the readers off it.
-/

namespace SparkNvm.Native

open Lib

variable {ι : Type} [DecidableEq ι] {hash : String → UInt64} {prog : ι → List PutCall}

/-- The calls with these numbers, in this order. -/
def callsAt (prog : ι → List PutCall) (order : List (ι × Nat)) : List PutCall :=
  order.filterMap (callAt prog)

/-- Every client's finished calls occur in `order`, in program order. -/
def OwnOrder (sys : System ι) (order : List (ι × Nat)) : Prop :=
  ∀ i, (order.filter fun c => c.1 = i).map Prod.snd = List.range (sys.ret i).length

/-- The invariant of every interleaving. -/
structure Inv (hash : String → UInt64) (prog : ι → List PutCall) (sys : System ι)
    (order : List (ι × Nat)) : Prop where
  heap : Heap hash prog sys.progress sys.kv
  pcs : ∀ i, PcOk prog sys.progress (sys.pc i)
  idle : ∀ i, callAt prog (sys.cur i) = none → sys.pc i = .allocEntry
  done_le : ∀ i, (sys.ret i).length ≤ (prog i).length
  codes : ∀ i, ∀ code ∈ sys.ret i, code = 0
  ordered : OwnOrder sys order
  index : ∃ nodes, IndexRep sys.kv.index ((callsAt prog order).map (PutCall.block hash)) nodes

/-! ## The order -/

theorem OwnOrder.count {sys : System ι} {order : List (ι × Nat)} (h : OwnOrder sys order)
    (c : ι × Nat) : order.count c = if c.2 < (sys.ret c.1).length then 1 else 0 := by
  have hcount : ((order.filter fun d => d.1 = c.1).map Prod.snd).count c.2 = order.count c := by
    rw [List.count, List.count, List.countP_map, List.countP_filter]
    apply List.countP_congr
    intro d _
    obtain ⟨i, m⟩ := d
    obtain ⟨j, n⟩ := c
    simp [and_comm]
  rw [← hcount, h c.1, List.count_range]

theorem OwnOrder.nodup {sys : System ι} {order : List (ι × Nat)} (h : OwnOrder sys order) :
    order.Nodup := by
  rw [List.nodup_iff_count_le_one]
  intro c
  rw [h.count c]
  split <;> omega

/-- The finished calls are the members of the order. -/
theorem OwnOrder.mem_iff {sys : System ι} {order : List (ι × Nat)} (h : OwnOrder sys order)
    (c : ι × Nat) : c ∈ order ↔ c.2 < (sys.ret c.1).length := by
  rw [← List.count_pos_iff, h.count c]
  split <;> simp_all

theorem OwnOrder.finished {sys : System ι} {order : List (ι × Nat)} (h : OwnOrder sys order)
    {c : ι × Nat} (hc : c ∈ order) : sys.progress c = finished := by
  rw [System.progress, if_pos ((h.mem_iff c).mp hc)]

omit [DecidableEq ι] in
theorem mem_callsAt {order : List (ι × Nat)} {call : PutCall} :
    call ∈ callsAt prog order ↔ ∃ c ∈ order, callAt prog c = some call :=
  List.mem_filterMap

omit [DecidableEq ι] in
theorem mem_of_callAt {c : ι × Nat} {call : PutCall} (h : callAt prog c = some call) :
    call ∈ prog c.1 :=
  List.mem_of_getElem? h

/-! ## The start -/

theorem inv_init {s : Service} {root : Nat} (hroot : s.Grants sizeofBase root) :
    Inv hash prog (System.init (Pmemkv.create s root)) [] := by
  have hrep := create_spec hroot
  have hzero : ∀ c, (System.init (Pmemkv.create s root) : System ι).progress c = 0 := by
    intro c
    by_cases hc : c.2 = 0 <;> simp [System.progress, System.init, PutPc.rank, hc]
  have hroots : ∀ o r, Owns prog (System.init (Pmemkv.create s root)).progress
      (Pmemkv.create s root).bp o r → o = .root ∧ r = baseRegion (Pmemkv.create s root).bp := by
    intro o r ho
    cases ho with
    | root => exact ⟨rfl, rfl⟩
    | header _ hp =>
      rw [hzero] at hp
      omega
    | payload _ hp =>
      rw [hzero] at hp
      omega
  refine
    { heap := ⟨⟨hrep.bp_ne, ?_, ?_, ?_, ?_, ?_⟩, ?_, .inl ⟨hrep.tail, ?_⟩⟩
      pcs := fun _ => trivial
      idle := fun _ _ => rfl
      done_le := fun _ => Nat.zero_le _
      codes := by simp [System.init]
      ordered := fun _ => rfl
      index := ⟨_, indexRep_empty⟩ }
  · intro o r o' r' ho ho' hne
    exact absurd ((hroots o r ho).1.trans (hroots o' r' ho').1.symm) hne
  · intro o r ho
    rw [(hroots o r ho).2]
    exact hrep.owned _ (base_mem_owned _ _)
  · intro o r ho
    rw [(hroots o r ho).2]
    exact hrep.bounded _ (base_mem_owned _ _)
  · intro c call _ hp
    rw [hzero] at hp
    omega
  · intro c call _ hp
    rw [hzero] at hp
    omega
  · intro c call _
    rw [hzero]
    exact filled_of_lt _ _ (by omega)
  · intro c call _
    rw [hzero]
    omega

/-! ## The steps -/

section

variable {sys : System ι} {order : List (ι × Nat)} {i : ι} {call : PutCall}

/-- The system after a step inside a call. -/
def System.goTo (sys : System ι) (i : ι) (kv : Pmemkv) (pc : PutPc) : System ι :=
  { kv := kv, pc := Function.update sys.pc i pc, ret := sys.ret }

/-- The system after a call has returned `0`. -/
def System.finish (sys : System ι) (i : ι) (ix : Index) : System ι :=
  { kv := { sys.kv with index := ix }
    pc := Function.update sys.pc i .allocEntry
    ret := Function.update sys.ret i (sys.ret i ++ [0]) }

/-- A step inside a call. -/
theorem Inv.go (h : Inv hash prog sys order) (hcall : callAt prog (sys.cur i) = some call)
    (hstored : call.ans.Stored) (hgrant : (sys.pc i).Granted hash call sys.kv)
    (hne : sys.pc i ≠ .updateMeta) :
    sys.step hash prog i = some (sys.goTo i ((sys.pc i).effect hash call sys.kv).1
      ((sys.pc i).effect hash call sys.kv).2) ∧
    Inv hash prog (sys.goTo i ((sys.pc i).effect hash call sys.kv).1
      ((sys.pc i).effect hash call sys.kv).2) order := by
  have hp : sys.progress (sys.cur i) = (sys.pc i).rank := sys.progress_cur i
  have hstep := PutPc.step_eq_effect h.heap hcall hstored hp hne
  have hheap := h.heap.effect hcall hp (h.pcs i) hgrant hne
  have hpcok := PcOk.effect call h.heap hp (h.pcs i) hne
  have hle : sys.progress (sys.cur i) ≤ ((sys.pc i).effect hash call sys.kv).2.rank := by
    rw [hp]
    exact Nat.le_of_lt (PutPc.rank_lt_effect hne)
  have hprogress := sys.progress_go i ((sys.pc i).effect hash call sys.kv).1
    ((sys.pc i).effect hash call sys.kv).2
  refine ⟨by rw [System.step, hcall]; simp only [hstep]; rfl, ?_⟩
  constructor
  · rw [System.goTo, hprogress]
    exact hheap
  · intro j
    rw [System.goTo, hprogress]
    by_cases hj : j = i
    · rw [hj]
      simp only [Function.update_self]
      exact hpcok
    · simp only [Function.update_of_ne hj]
      exact (h.pcs j).update hle
  · intro j hnone
    have hne' : j ≠ i := by
      intro hj
      rw [hj] at hnone
      exact absurd (hnone.symm.trans hcall) (by simp)
    simp only [System.goTo, Function.update_of_ne hne']
    exact h.idle j hnone
  · exact h.done_le
  · exact h.codes
  · exact h.ordered
  · rw [System.goTo]
    simp only [PutPc.effect_index]
    exact h.index

/-- The return of a call. -/
theorem Inv.ret (h : Inv hash prog sys order) (hcall : callAt prog (sys.cur i) = some call)
    (hgrant : (sys.pc i).Granted hash call sys.kv) (heq : sys.pc i = .updateMeta) :
    ∃ ix, sys.step hash prog i = some (sys.finish i ix) ∧
      Inv hash prog (sys.finish i ix) (order ++ [sys.cur i]) := by
  have hp : sys.progress (sys.cur i) = 13 := by
    rw [sys.progress_cur i, heq]
    rfl
  have hfilled := h.heap.filled _ call hcall
  rw [hp] at hfilled
  have hentry := (h.heap.owned.entry_ne _ call hcall (by omega)).1
  have hkey : load64 sys.kv.service.mem (call.ans.entry + 8) = (hash call.key).toNat :=
    hfilled.key (by omega)
  have hsize : load64 sys.kv.service.mem (call.ans.entry + 16) = call.value.length :=
    hfilled.size (by omega)
  have hdata : load64 sys.kv.service.mem (call.ans.entry + 24) = call.ans.data :=
    hfilled.data (by omega)
  have hlt : call.value.length < 2 ^ 64 := by
    rw [← hsize]
    exact load64_lt _ _
  have hmalloc : sys.kv.index.Mallocs (hash call.key).toNat call.ans.metaPtr call.ans.listPtr := by
    rw [heq] at hgrant
    exact hgrant
  obtain ⟨nodes, hindex⟩ := h.index
  obtain ⟨ix, nodes', hupd, hindex'⟩ :=
    updateMeta_spec call.ans.data call.value.length hindex hlt hmalloc
  have hstep : (sys.pc i).step hash call sys.kv = some ({ sys.kv with index := ix }, .ret 0) := by
    rw [heq]
    simp only [PutPc.step, Pmemkv.updateMeta, Service.deref, if_neg hentry, hkey, hsize, hdata,
      hupd, Option.bind_eq_bind, Option.bind_some, Option.pure_def]
    rfl
  have hprogress := sys.progress_ret i { sys.kv with index := ix } 0
  have hheap : Heap hash prog (Function.update sys.progress (sys.cur i) finished)
      { sys.kv with index := ix } := by
    have hread := h.heap.read (n := finished) hcall (by omega) (by rw [hp]; decide)
      (.inr (by omega))
    exact ⟨hread.owned, hread.filled, hread.tail⟩
  refine ⟨ix, by rw [System.step, hcall]; simp only [hstep]; rfl, ?_⟩
  have hlen : (sys.ret i).length < (prog i).length := by
    have hget : (prog i)[(sys.ret i).length]? = some call := hcall
    exact (List.getElem?_eq_some_iff.mp hget).1
  constructor
  · rw [System.finish, hprogress]
    exact hheap
  · intro j
    rw [System.finish, hprogress]
    by_cases hj : j = i
    · rw [hj]
      simp only [Function.update_self]
      exact True.intro
    · simp only [Function.update_of_ne hj]
      exact (h.pcs j).update (by rw [hp]; decide)
  · intro j hnone
    by_cases hj : j = i
    · rw [hj]
      simp only [System.finish, Function.update_self]
    · simp only [System.finish, Function.update_of_ne hj]
      refine h.idle j ?_
      simpa [System.finish, System.cur, Function.update_of_ne hj] using hnone
  · intro j
    by_cases hj : j = i
    · rw [hj]
      simp only [System.finish, Function.update_self, List.length_append, List.length_singleton]
      omega
    · simp only [System.finish, Function.update_of_ne hj]
      exact h.done_le j
  · intro j code hcode
    by_cases hj : j = i
    · rw [hj] at hcode
      simp only [System.finish, Function.update_self, List.mem_append, List.mem_singleton] at hcode
      exact hcode.elim (h.codes i code) id
    · simp only [System.finish, Function.update_of_ne hj] at hcode
      exact h.codes j code hcode
  · intro j
    by_cases hj : j = i
    · subst hj
      simp only [System.finish, Function.update_self, List.length_append, List.length_singleton,
        List.range_succ, List.filter_append, List.map_append, h.ordered j]
      simp [System.cur]
    · have hij : i ≠ j := Ne.symm hj
      simp only [System.finish, Function.update_of_ne hj, List.filter_append, List.map_append,
        h.ordered j]
      simp [System.cur, hij]
  · refine ⟨nodes', ?_⟩
    have hcalls : callsAt prog (order ++ [sys.cur i]) = callsAt prog order ++ [call] := by
      simp [callsAt, hcall]
    rw [hcalls, List.map_append, List.map_singleton]
    exact hindex'

/-- Every step of a client without failures keeps the invariant. -/
theorem Inv.step (h : Inv hash prog sys order) (hok : sys.Ok hash prog i) :
    ∃ sys' order', sys.step hash prog i = some sys' ∧ Inv hash prog sys' order' ∧
      order'.length ≤ order.length + 1 := by
  obtain ⟨call, hcall, hstored, hgrant⟩ := hok.call
  by_cases heq : sys.pc i = .updateMeta
  · obtain ⟨ix, hstep, hinv⟩ := h.ret hcall hgrant heq
    exact ⟨_, _, hstep, hinv, by simp⟩
  · obtain ⟨hstep, hinv⟩ := h.go hcall hstored hgrant heq
    exact ⟨_, _, hstep, hinv, Nat.le_succ _⟩

end

/-- The run lemma: no interleaving without failures crashes, and the invariant
holds at its end. -/
theorem inv_run {s : Service} {root : Nat} (hroot : s.Grants sizeofBase root) {sched : List ι}
    (hok : Admissible (System.step hash prog) (System.Ok hash prog)
      (System.init (Pmemkv.create s root)) sched) :
    ∃ sys order, run (System.step hash prog) (System.init (Pmemkv.create s root)) sched = some sys ∧
      Inv hash prog sys order ∧ order.length ≤ sched.length := by
  have hstep : ∀ done i rest (sys : System ι), sched = done ++ i :: rest →
      (∃ order, Inv hash prog sys order ∧ order.length ≤ done.length) → sys.Ok hash prog i →
      ∃ sys', sys.step hash prog i = some sys' ∧
        ∃ order, Inv hash prog sys' order ∧ order.length ≤ (done ++ [i]).length := by
    rintro done i rest sys _ ⟨order, hinv, hlen⟩ hok₁
    obtain ⟨sys', order', hrun, hinv', hlen'⟩ := hinv.step hok₁
    refine ⟨sys', hrun, order', hinv', ?_⟩
    rw [List.length_append, List.length_singleton]
    omega
  obtain ⟨sys, hrun, order, hinv, hlen⟩ := run_invariant hstep ⟨[], inv_init hroot, by simp⟩ hok
  exact ⟨sys, order, hrun, hinv, hlen⟩

/-! ## What the readers see -/

section

variable {sys : System ι} {order : List (ι × Nat)}

/-- The entries and the values of the finished calls are apart, so they fit into
the address space together with the root. -/
theorem Inv.size_le (h : Inv hash prog sys order) :
    sizeofBase + sizeofBlockEntry * (callsAt prog order).length +
      totalBytes ((callsAt prog order).map (PutCall.block hash)) ≤ 2 ^ 64 := by
  have hfin : ∀ c ∈ order, 2 ≤ sys.progress c := by
    intro c hc
    rw [h.ordered.finished hc]
    decide
  let rs := baseRegion sys.kv.bp ::
    ((callsAt prog order).map PutCall.header ++ (callsAt prog order).map PutCall.payload)
  have howner : ∀ r ∈ rs, ∃ o, Owns prog sys.progress sys.kv.bp o r := by
    intro r hr
    simp only [rs, List.mem_cons, List.mem_append, List.mem_map, mem_callsAt] at hr
    rcases hr with rfl | ⟨call, ⟨c, hc, hcall⟩, rfl⟩ | ⟨call, ⟨c, hc, hcall⟩, rfl⟩
    · exact ⟨_, .root⟩
    · exact ⟨_, .header hcall (Nat.le_of_succ_le (hfin c hc))⟩
    · exact ⟨_, .payload hcall (hfin c hc)⟩
  have happart := h.heap.owned.apart
  have hpair : rs.Pairwise Apart := by
    refine List.pairwise_cons.mpr ⟨?_, List.pairwise_append.mpr ⟨?_, ?_, ?_⟩⟩
    · intro r hr
      simp only [List.mem_append, List.mem_map, mem_callsAt] at hr
      rcases hr with ⟨call, ⟨c, hc, hcall⟩, rfl⟩ | ⟨call, ⟨c, hc, hcall⟩, rfl⟩
      · exact happart _ _ _ _ .root (.header hcall (Nat.le_of_succ_le (hfin c hc))) (by simp)
      · exact happart _ _ _ _ .root (.payload hcall (hfin c hc)) (by simp)
    · rw [List.pairwise_map, callsAt, List.pairwise_filterMap]
      refine List.Pairwise.imp_of_mem (fun {c d} hc hd hne call hcall call' hcall' => ?_)
        h.ordered.nodup
      exact happart _ _ _ _ (.header hcall (Nat.le_of_succ_le (hfin c hc)))
        (.header hcall' (Nat.le_of_succ_le (hfin d hd))) (by simpa using hne)
    · rw [List.pairwise_map, callsAt, List.pairwise_filterMap]
      refine List.Pairwise.imp_of_mem (fun {c d} hc hd hne call hcall call' hcall' => ?_)
        h.ordered.nodup
      exact happart _ _ _ _ (.payload hcall (hfin c hc)) (.payload hcall' (hfin d hd))
        (by simpa using hne)
    · intro r hr r' hr'
      simp only [List.mem_map, mem_callsAt] at hr hr'
      obtain ⟨call, ⟨c, hc, hcall⟩, rfl⟩ := hr
      obtain ⟨call', ⟨d, hd, hcall'⟩, rfl⟩ := hr'
      exact happart _ _ _ _ (.header hcall (Nat.le_of_succ_le (hfin c hc)))
        (.payload hcall' (hfin d hd)) (by simp)
  have hsum := sum_size_le_of_pairwise_apart hpair fun r hr => by
    obtain ⟨o, ho⟩ := howner r hr
    exact h.heap.owned.bounded o r ho
  have hhdr : ((callsAt prog order).map (Region.size ∘ PutCall.header)).sum =
      sizeofBlockEntry * (callsAt prog order).length := by
    rw [show Region.size ∘ PutCall.header = fun _ => sizeofBlockEntry from rfl, List.map_const',
      List.sum_replicate_nat, Nat.mul_comm]
  have hpay : ((callsAt prog order).map (Region.size ∘ PutCall.payload)).sum =
      totalBytes ((callsAt prog order).map (PutCall.block hash)) := by
    rw [totalBytes, List.map_map]
    rfl
  simp only [rs, List.map_cons, List.map_append, List.map_map, List.sum_cons, List.sum_append,
    hhdr, hpay] at hsum
  rw [Nat.add_assoc]
  exact hsum

/-- Every finished call has its value in memory. -/
theorem Inv.bytes (h : Inv hash prog sys order) {c : ι × Nat} (hc : c ∈ order) {call : PutCall}
    (hcall : callAt prog c = some call) :
    loadBytes sys.kv.service.mem call.ans.data call.value.length = call.value := by
  have hfilled := h.heap.filled c call hcall
  rw [h.ordered.finished hc] at hfilled
  exact hfilled.bytes (by decide)

/-- The index holds the finished calls. -/
theorem Inv.indexHolds (h : Inv hash prog sys order) :
    IndexHolds hash sys.kv (callsAt prog order) := by
  have hsize := h.size_le
  simp only [sizeofBase, sizeofBlockEntry] at hsize
  refine ⟨h.index, fun call hcall => ?_, fun call hcall => ?_, by omega, ?_⟩
  · obtain ⟨c, hc, hat⟩ := mem_callsAt.mp hcall
    exact h.bytes hc hat
  · obtain ⟨c, hc, hat⟩ := mem_callsAt.mp hcall
    exact (h.heap.owned.data_ne c call hat (by rw [h.ordered.finished hc]; decide)).1
  · rw [List.length_map]
    omega

end

/-- Every client has finished its calls. -/
def System.Finished (prog : ι → List PutCall) (sys : System ι) : Prop :=
  ∀ i, (sys.ret i).length = (prog i).length

/-- The finished calls took effect in `order`: each client's calls in program
order, every indexed block with its final bytes, every list of the index and
every answer of a reader as if the calls had been made one after the other. -/
structure Linearised (hash : String → UInt64) (prog : ι → List PutCall) (fuel : Nat)
    (used : Set String) (sys : System ι) (order : List (ι × Nat)) : Prop where
  codes : ∀ i, ∀ code ∈ sys.ret i, code = 0
  ordered : OwnOrder sys order
  holds : ∀ c ∈ order, ∃ call, callAt prog c = some call ∧
    loadBytes sys.kv.service.mem call.ans.data call.value.length = call.value
  lists : ∀ h, sys.kv.index.view fuel h =
    viewOf ((callsAt prog order).map (PutCall.block hash)) h
  answers : ∀ k ∈ used, Answers hash fuel sys.kv k
    (if valuesOf (callsAt prog order) k = [] then none else some (valuesOf (callsAt prog order) k))
  complete : sys.Finished prog → ∀ c call, callAt prog c = some call → order.count c = 1

/-- For any clients, any calls and any interleaving without failures: in every
state the finished calls are linearised by the index, and once all clients have
finished every call is in the order exactly once. -/
theorem puts_linearised (hash : String → UInt64) (prog : ι → List PutCall) (s : Service)
    (root : Nat) (sched : List ι) (fuel : Nat) (used : Set String)
    (hroot : s.Grants sizeofBase root)
    (hok : Admissible (System.step hash prog) (System.Ok hash prog)
      (System.init (Pmemkv.create s root)) sched)
    (hfuel : sched.length ≤ fuel) (hinj : Set.InjOn hash used)
    (hused : ∀ i, ∀ call ∈ prog i, call.key ∈ used) :
    ∃ sys order, run (System.step hash prog) (System.init (Pmemkv.create s root)) sched = some sys ∧
      Linearised hash prog fuel used sys order := by
  obtain ⟨sys, order, hrun, hinv, hlen⟩ := inv_run hroot hok
  have hcalls : (callsAt prog order).length ≤ fuel := by
    have hle : (callsAt prog order).length ≤ order.length := List.length_filterMap_le _ _
    omega
  refine ⟨sys, order, hrun, hinv.codes, hinv.ordered, ?_, ?_, ?_, ?_⟩
  · intro c hc
    have hlt := (hinv.ordered.mem_iff c).mp hc
    have hle := hinv.done_le c.1
    have hget : callAt prog c = some (prog c.1)[c.2] := List.getElem?_eq_getElem (by omega)
    exact ⟨_, hget, hinv.bytes hc hget⟩
  · intro h
    obtain ⟨nodes, hindex⟩ := hinv.index
    exact hindex.view_eq (by simpa using hcalls) h
  · intro k hk
    refine hinv.indexHolds.answers hcalls hinj (fun call hcall => ?_) hk
    obtain ⟨c, _, hat⟩ := mem_callsAt.mp hcall
    exact hused c.1 call (mem_of_callAt hat)
  · intro hfin c call hcall
    have hlt : c.2 < (prog c.1).length := (List.getElem?_eq_some_iff.mp hcall).1
    rw [hinv.ordered.count c, hfin c.1, if_pos hlt]

/-- Two clients with one put each. -/
def sampleProg : Bool → List PutCall
  | true => [⟨"a", [1, 2], { entry := 8192, data := 8224, metaPtr := 16, listPtr := 32 }⟩]
  | false => [⟨"b", [3], { entry := 8256, data := 8288, metaPtr := 64, listPtr := 96 }⟩]

/-- The two clients take turns, so both find the list empty. -/
def lockStep : List Bool := (List.replicate 13 [true, false]).flatten

theorem lockStep_admissible :
    Admissible (System.step sampleHash sampleProg) (System.Ok sampleHash sampleProg)
      (System.init (Pmemkv.create sampleService 4096)) lockStep := by
  decide

theorem puts_linearised_sample :
    ∃ sys order, run (System.step sampleHash sampleProg)
      (System.init (Pmemkv.create sampleService 4096)) lockStep = some sys ∧
      Linearised sampleHash sampleProg 26 {"a", "b"} sys order := by
  refine puts_linearised sampleHash sampleProg sampleService 4096 lockStep 26 {"a", "b"} (by decide)
    lockStep_admissible (by decide) sampleHash_injOn fun i call hcall => ?_
  cases i
  · rw [List.mem_singleton.mp hcall]
    exact .inr rfl
  · rw [List.mem_singleton.mp hcall]
    exact .inl rfl

end SparkNvm.Native
