import SparkNvm.Native.Linearise

/-!
# The persistent list under concurrent puts

`put` reads the tail, links its entry behind it and stores the new tail, and it
adds to `bytes_written`, in separate requests and without a lock.  Two clients
that read the same tail both link behind it, and one entry is lost; two clients
that read the same counter lose one of the two sums.

`System.Alone` says where that happens: a client reads the tail while another
one is between its own read and its store of the tail, or reads the counter
while another one is between its read and its store.  In every interleaving
without such a step the list is whole.

* `LinkInv` is the invariant of the list, `CountInv` that of the counter; each
  has a step lemma.
* `puts_keep_list` is the result about runs.
-/

namespace SparkNvm.Native

open Lib

variable {ι : Type} [DecidableEq ι] {hash : String → UInt64} {prog : ι → List PutCall}

/-! ## The windows -/

/-- Between the read of the tail and the store of the new one. -/
def PutPc.Linking : PutPc → Prop
  | .setHead => True
  | .linkNext _ => True
  | .setTail => True
  | _ => False

/-- Between the read and the store of `bytes_written`. -/
def PutPc.Adding : PutPc → Prop
  | .addStore _ => True
  | _ => False

instance : DecidablePred PutPc.Linking
  | .setHead | .linkNext _ | .setTail => isTrue trivial
  | .allocEntry | .allocData | .setData | .storeBytes | .setNext | .setKey | .setSize
  | .getTail | .derefTail | .addLoad | .addStore _ | .updateMeta => isFalse not_false

instance : DecidablePred PutPc.Adding
  | .addStore _ => isTrue trivial
  | .allocEntry | .allocData | .setData | .storeBytes | .setNext | .setKey | .setSize
  | .getTail | .setHead | .derefTail | .linkNext _ | .setTail | .addLoad | .updateMeta =>
    isFalse not_false

/-- The step of client `i` reads no value that another client is about to
replace: the tail that it links behind, or the counter. -/
def System.Alone (sys : System ι) (i : ι) : Prop :=
  match sys.pc i with
  | .getTail => load64 sys.kv.service.mem (tailAddr sys.kv.bp) = 0 →
      ∀ j, j ≠ i → ¬(sys.pc j).Linking
  | .derefTail => ∀ j, j ≠ i → ¬(sys.pc j).Linking
  | .addLoad => ∀ j, j ≠ i → ¬(sys.pc j).Adding
  | _ => True

instance [Fintype ι] (sys : System ι) (i : ι) : Decidable (sys.Alone i) := by
  unfold System.Alone
  cases sys.pc i <;> infer_instance

omit [DecidableEq ι] in
theorem System.Alone.getTail {sys : System ι} {i : ι} (h : sys.Alone i)
    (hpc : sys.pc i = .getTail) (ht : load64 sys.kv.service.mem (tailAddr sys.kv.bp) = 0) :
    ∀ j, j ≠ i → ¬(sys.pc j).Linking := by
  unfold System.Alone at h
  simp only [hpc] at h
  exact h ht

omit [DecidableEq ι] in
theorem System.Alone.derefTail {sys : System ι} {i : ι} (h : sys.Alone i)
    (hpc : sys.pc i = .derefTail) : ∀ j, j ≠ i → ¬(sys.pc j).Linking := by
  unfold System.Alone at h
  simp only [hpc] at h
  exact h

omit [DecidableEq ι] in
theorem System.Alone.addLoad {sys : System ι} {i : ι} (h : sys.Alone i)
    (hpc : sys.pc i = .addLoad) : ∀ j, j ≠ i → ¬(sys.pc j).Adding := by
  unfold System.Alone at h
  simp only [hpc] at h
  exact h

/-- The word that the client is about to link through. -/
def PutPc.aim (bp : Nat) : PutPc → Option Nat
  | .setHead => some (headAddr bp)
  | .linkNext t => some (nextAddr t)
  | _ => none

theorem PutPc.linking_of_aim {pc : PutPc} {bp a : Nat} (h : pc.aim bp = some a) : pc.Linking := by
  cases pc with
  | setHead => exact True.intro
  | linkNext t => exact True.intro
  | _ => simp [PutPc.aim] at h

/-! ## What a step writes -/

section

variable {kv : Pmemkv} {call : PutCall}

/-- A client that still fills its entry writes into its own ranges only. -/
theorem PutPc.effect_mem_own {pc : PutPc} (hpc : pc.rank ≤ 6) {x : Nat}
    (hheader : 2 ≤ pc.rank → ¬call.header.Has x) (hpayload : 2 ≤ pc.rank → ¬call.payload.Has x) :
    (pc.effect hash call kv).1.service.mem x = kv.service.mem x := by
  have hfield : ∀ a v, 2 ≤ pc.rank → call.ans.entry ≤ a → a + 8 ≤ call.ans.entry + 32 →
      store64 kv.service.mem a v x = kv.service.mem x := by
    intro a v hrank hlo hhi
    have hout : ¬(call.ans.entry ≤ x ∧ x < call.ans.entry + 32) := hheader hrank
    exact store64_of_not_mem _ _ (by omega)
  cases pc with
  | allocEntry => simp [PutPc.effect]
  | allocData => simp [PutPc.effect]
  | setData =>
    exact hfield _ _ (by decide) (Nat.le_add_right _ 24) (Nat.le_refl (call.ans.entry + 32))
  | storeBytes =>
    have hout : ¬(call.ans.data ≤ x ∧ x < call.ans.data + call.value.length) :=
      hpayload (by decide)
    exact storeBytes_of_not_mem _ _ hout
  | setNext =>
    exact hfield _ _ (by decide) (Nat.le_refl _) (Nat.add_le_add_left (show 8 ≤ 32 by decide) _)
  | setKey =>
    exact hfield _ _ (by decide) (Nat.le_add_right _ 8)
      (Nat.add_le_add_left (show 16 ≤ 32 by decide) _)
  | setSize =>
    exact hfield _ _ (by decide) (Nat.le_add_right _ 16)
      (Nat.add_le_add_left (show 24 ≤ 32 by decide) _)
  | _ => simp [PutPc.rank] at hpc

/-- No step gives a range back. -/
theorem PutPc.effect_regions (pc : PutPc) (hash : String → UInt64) (call : PutCall) (kv : Pmemkv) :
    ∀ r ∈ kv.service.regions, r ∈ (pc.effect hash call kv).1.service.regions := by
  have halloc : ∀ size a, ∀ r ∈ kv.service.regions, r ∈ (kv.service.tbpAlloc size a).regions := by
    intro size a r hr
    by_cases ha : a = 0
    · rw [Service.tbpAlloc, if_pos ha]
      exact hr
    · rw [Service.tbpAlloc_regions _ _ _ ha]
      exact List.mem_cons_of_mem _ hr
  intro r hr
  cases pc with
  | allocEntry => exact halloc _ _ r hr
  | allocData => exact halloc _ _ r hr
  | _ => exact hr

end

/-! ## The invariant of the list -/

/-- The entries of the calls with these numbers. -/
def entriesAt (hash : String → UInt64) (prog : ι → List PutCall) (cs : List (ι × Nat)) :
    List Entry :=
  entriesOf hash (callsAt prog cs)

/-- The calls in `linked` have stored the tail, in this order.  At most one
client is about to link, it aims at the end of the list, and once it has linked
only its store of the tail is missing. -/
structure LinkInv (hash : String → UInt64) (prog : ι → List PutCall) (sys : System ι)
    (linked : List (ι × Nat)) : Prop where
  nodup : linked.Nodup
  mem_iff : ∀ c, c ∈ linked ↔ 11 ≤ sys.progress c
  single : ∀ i j, (sys.pc i).Linking → (sys.pc j).Linking → i = j
  aims : ∀ i a, (sys.pc i).aim sys.kv.bp = some a → linkAddr sys.kv.service.mem sys.kv.bp = a
  whole : (∀ i, sys.pc i ≠ .setTail) →
    Linked sys.kv.service sys.kv.bp (entriesAt hash prog linked)
  half : ∀ i call, sys.pc i = .setTail → callAt prog (sys.cur i) = some call →
    Linked ⟨store64 sys.kv.service.mem (tailAddr sys.kv.bp) call.ans.entry, sys.kv.service.regions⟩
      sys.kv.bp (entriesAt hash prog linked ++ [call.entry hash])

omit [DecidableEq ι] in
theorem mem_entriesAt {cs : List (ι × Nat)} {e : Entry} :
    e ∈ entriesAt hash prog cs ↔
      ∃ c ∈ cs, ∃ call, callAt prog c = some call ∧ call.entry hash = e := by
  simp only [entriesAt, entriesOf, List.mem_map, mem_callsAt]
  constructor
  · rintro ⟨call, ⟨c, hc, hcall⟩, he⟩
    exact ⟨c, hc, call, hcall, he⟩
  · rintro ⟨c, hc, call, hcall, he⟩
    exact ⟨call, ⟨c, hc, hcall⟩, he⟩

omit [DecidableEq ι] in
theorem entriesAt_snoc (cs : List (ι × Nat)) {c : ι × Nat} {call : PutCall}
    (hcall : callAt prog c = some call) :
    entriesAt hash prog (cs ++ [c]) = entriesAt hash prog cs ++ [call.entry hash] := by
  simp [entriesAt, entriesOf, callsAt, hcall]

/-- The address belongs to the root or to a call that has linked its entry. -/
def System.Shared (prog : ι → List PutCall) (sys : System ι) (x : Nat) : Prop :=
  (baseRegion sys.kv.bp).Has x ∨
    ∃ c call, callAt prog c = some call ∧ 10 ≤ sys.progress c ∧
      (call.header.Has x ∨ call.payload.Has x)

section

variable {sys sys' : System ι} {order linked : List (ι × Nat)} {i : ι} {call : PutCall}

omit [DecidableEq ι] in
theorem shared_of_owned (hash : String → UInt64) {es : List Entry}
    (hes : ∀ e ∈ es, ∃ c call, callAt prog c = some call ∧ 10 ≤ sys.progress c ∧
      call.entry hash = e)
    {r : Region} (hr : r ∈ ownedRegions sys.kv.bp es) {x : Nat} (hx : r.Has x) :
    sys.Shared prog x := by
  rcases mem_ownedRegions.mp hr with rfl | ⟨e, he, hr⟩
  · exact .inl hx
  · obtain ⟨c, call, hcall, hp, rfl⟩ := hes e he
    rcases hr with rfl | rfl
    · exact .inr ⟨c, call, hcall, hp, .inl hx⟩
    · exact .inr ⟨c, call, hcall, hp, .inr hx⟩

omit [DecidableEq ι] in
theorem LinkInv.linked_shared (h : LinkInv hash prog sys linked) :
    ∀ e ∈ entriesAt hash prog linked, ∃ c call, callAt prog c = some call ∧
      10 ≤ sys.progress c ∧ call.entry hash = e := by
  intro e he
  obtain ⟨c, hc, call, hcall, rfl⟩ := mem_entriesAt.mp he
  have hp := (h.mem_iff c).mp hc
  exact ⟨c, call, hcall, by omega, rfl⟩

omit [DecidableEq ι] in
/-- A step of client `i` that does not take part in linking, and that leaves
alone what is shared, the counter apart. -/
theorem LinkInv.quiet (h : LinkInv hash prog sys linked) (hbp : sys'.kv.bp = sys.kv.bp)
    (hregions : ∀ r ∈ sys.kv.service.regions, r ∈ sys'.kv.service.regions)
    (hpcs : ∀ j, j ≠ i → sys'.pc j = sys.pc j ∧ sys'.cur j = sys.cur j)
    (hold : ¬(sys.pc i).Linking) (hnew : ¬(sys'.pc i).Linking)
    (hranks : ∀ c, 11 ≤ sys'.progress c ↔ 11 ≤ sys.progress c)
    (hmem : ∀ x, sys.Shared prog x → ¬(writtenAddr sys.kv.bp ≤ x ∧ x < writtenAddr sys.kv.bp + 8) →
      sys'.kv.service.mem x = sys.kv.service.mem x) :
    LinkInv hash prog sys' linked := by
  have hother : ∀ j, (sys'.pc j).Linking → j ≠ i ∧ (sys.pc j).Linking := by
    intro j hj
    have hne : j ≠ i := by
      intro heq
      rw [heq] at hj
      exact hnew hj
    rw [(hpcs j hne).1] at hj
    exact ⟨hne, hj⟩
  have htail : load64 sys'.kv.service.mem (tailAddr sys.kv.bp) =
      load64 sys.kv.service.mem (tailAddr sys.kv.bp) := by
    refine load64_congr fun x hlo hhi => hmem x (.inl ?_) ?_
    · unfold tailAddr at hlo hhi
      exact ⟨by show sys.kv.bp ≤ x; omega, by show x < sys.kv.bp + 64; omega⟩
    · unfold tailAddr writtenAddr at *
      omega
  constructor
  · exact h.nodup
  · exact fun c => (h.mem_iff c).trans (hranks c).symm
  · intro j k hj hk
    exact h.single j k (hother j hj).2 (hother k hk).2
  · intro j a haim
    obtain ⟨hne, _⟩ := hother j (PutPc.linking_of_aim haim)
    rw [(hpcs j hne).1, hbp] at haim
    rw [hbp, linkAddr, htail]
    exact h.aims j a haim
  · intro hnone
    rw [hbp]
    refine (h.whole fun j hj => ?_).frame (fun r hr x hx => ?_) hregions
    · by_cases hne : j = i
      · rw [hne] at hj
        exact hold (by rw [hj]; exact True.intro)
      · exact hnone j ((hpcs j hne).1.trans hj)
    · exact hmem x (shared_of_owned hash h.linked_shared hr hx)
  · intro j call hj hcall
    obtain ⟨hne, _⟩ := hother j (by rw [hj]; exact True.intro)
    rw [(hpcs j hne).1] at hj
    rw [(hpcs j hne).2] at hcall
    rw [hbp]
    refine (h.half j call hj hcall).frame (fun r hr x hx hw => ?_) hregions
    have hshared : sys.Shared prog x := by
      refine shared_of_owned hash (fun e he => ?_) hr hx
      rcases List.mem_append.mp he with he | he
      · exact h.linked_shared e he
      · rw [List.mem_singleton.mp he]
        exact ⟨sys.cur j, call, hcall, by rw [sys.progress_cur, hj]; decide, rfl⟩
    exact store64_congr _ _ (hmem x hshared hw)

omit [DecidableEq ι] in
/-- Nothing shared is in the ranges of a call that has not linked its entry. -/
theorem Heap.own_not_shared (h : Heap hash prog sys.progress sys.kv)
    (hcall : callAt prog (sys.cur i) = some call) (hlo : 2 ≤ (sys.pc i).rank)
    (hhi : (sys.pc i).rank ≤ 9) {x : Nat} (hx : sys.Shared prog x) :
    ¬call.header.Has x ∧ ¬call.payload.Has x := by
  have hp := sys.progress_cur i
  have hheader : Owns prog sys.progress sys.kv.bp (.header (sys.cur i)) call.header :=
    .header hcall (by omega)
  have hpayload : Owns prog sys.progress sys.kv.bp (.payload (sys.cur i)) call.payload :=
    .payload hcall (by omega)
  rcases hx with hx | ⟨c, call', hcall', hpc, hx⟩
  · exact ⟨(h.owned.apart _ _ _ _ .root hheader (by simp)).not_has hx,
      (h.owned.apart _ _ _ _ .root hpayload (by simp)).not_has hx⟩
  · have hne : c ≠ sys.cur i := by
      intro heq
      rw [heq] at hpc
      omega
    rcases hx with hx | hx
    · have hown : Owns prog sys.progress sys.kv.bp (.header c) call'.header :=
        .header hcall' (by omega)
      exact ⟨(h.owned.apart _ _ _ _ hown hheader (by simp [hne])).not_has hx,
        (h.owned.apart _ _ _ _ hown hpayload (by simp)).not_has hx⟩
    · have hown : Owns prog sys.progress sys.kv.bp (.payload c) call'.payload :=
        .payload hcall' (by omega)
      exact ⟨(h.owned.apart _ _ _ _ hown hheader (by simp)).not_has hx,
        (h.owned.apart _ _ _ _ hown hpayload (by simp [hne])).not_has hx⟩

theorem System.goTo_pc_of_ne (kv : Pmemkv) (pc : PutPc) {j : ι} (hj : j ≠ i) :
    (sys.goTo i kv pc).pc j = sys.pc j :=
  Function.update_of_ne hj _ _

theorem System.goTo_pc_self (kv : Pmemkv) (pc : PutPc) : (sys.goTo i kv pc).pc i = pc :=
  Function.update_self _ _ _

/-- Which calls have reached the rank `n` changes only when the step passes it. -/
theorem System.goTo_ranks {n : Nat} (kv : Pmemkv) (pc : PutPc)
    (h : n ≤ pc.rank ↔ n ≤ (sys.pc i).rank) (c : ι × Nat) :
    n ≤ (sys.goTo i kv pc).progress c ↔ n ≤ sys.progress c := by
  rw [System.goTo, sys.progress_go]
  by_cases hc : c = sys.cur i
  · rw [hc, Function.update_self, sys.progress_cur]
    exact h
  · rw [Function.update_of_ne hc]

theorem System.finish_ranks {n : Nat} (hpc : sys.pc i = .updateMeta) (hn : n ≤ 13) (ix : Index)
    (c : ι × Nat) : n ≤ (sys.finish i ix).progress c ↔ n ≤ sys.progress c := by
  rw [System.finish, sys.progress_ret]
  by_cases hc : c = sys.cur i
  · rw [hc, Function.update_self, sys.progress_cur, hpc]
    simp only [PutPc.rank, finished]
    omega
  · rw [Function.update_of_ne hc]

/-- A step inside a call that does not take part in linking. -/
theorem LinkInv.goQuiet (h : LinkInv hash prog sys linked) (kv : Pmemkv) (pc : PutPc)
    (hbp : kv.bp = sys.kv.bp) (hregions : ∀ r ∈ sys.kv.service.regions, r ∈ kv.service.regions)
    (hold : ¬(sys.pc i).Linking) (hnew : ¬pc.Linking) (hranks : 11 ≤ pc.rank ↔ 11 ≤ (sys.pc i).rank)
    (hmem : ∀ x, sys.Shared prog x → ¬(writtenAddr sys.kv.bp ≤ x ∧ x < writtenAddr sys.kv.bp + 8) →
      kv.service.mem x = sys.kv.service.mem x) :
    LinkInv hash prog (sys.goTo i kv pc) linked := by
  refine h.quiet (i := i) hbp hregions (fun j hj => ⟨?_, rfl⟩) hold ?_ ?_ hmem
  · exact sys.goTo_pc_of_ne _ _ hj
  · rw [sys.goTo_pc_self]
    exact hnew
  · exact sys.goTo_ranks _ _ hranks

/-- A read of the tail opens the window of client `i`. -/
theorem LinkInv.arrive (h : LinkInv hash prog sys linked) (hrank : (sys.pc i).rank ≤ 10)
    (hlone : ∀ j, j ≠ i → ¬(sys.pc j).Linking) (hold : sys.pc i ≠ .setTail) {pc : PutPc} {a : Nat}
    (haim : pc.aim sys.kv.bp = some a) (ha : linkAddr sys.kv.service.mem sys.kv.bp = a)
    (hpc : pc.rank ≤ 10) (hnew : pc ≠ .setTail) :
    LinkInv hash prog (sys.goTo i sys.kv pc) linked := by
  have honly : ∀ j, ((sys.goTo i sys.kv pc).pc j).Linking → j = i := by
    intro j hj
    by_contra hne
    rw [sys.goTo_pc_of_ne _ _ hne] at hj
    exact hlone j hne hj
  have hnone : ∀ j, (sys.goTo i sys.kv pc).pc j ≠ .setTail := by
    intro j hj
    have heq : j = i := honly j (by rw [hj]; exact True.intro)
    rw [heq, sys.goTo_pc_self] at hj
    exact hnew hj
  constructor
  · exact h.nodup
  · refine fun c => (h.mem_iff c).trans (sys.goTo_ranks (i := i) sys.kv pc ?_ c).symm
    omega
  · exact fun j k hj hk => (honly j hj).trans (honly k hk).symm
  · intro j b hb
    have heq : j = i := honly j (PutPc.linking_of_aim hb)
    rw [heq, sys.goTo_pc_self] at hb
    have hab : a = b := Option.some.inj (haim.symm.trans hb)
    rw [← hab]
    exact ha
  · intro _
    refine h.whole fun j hj => ?_
    by_cases heq : j = i
    · rw [heq] at hj
      exact hold hj
    · exact hlone j heq (by rw [hj]; exact True.intro)
  · exact fun j _ hj => absurd hj (hnone j)

omit [DecidableEq ι] in
/-- A complete entry that is not linked can be linked. -/
theorem LinkInv.linkable (h : LinkInv hash prog sys linked)
    (hheap : Heap hash prog sys.progress sys.kv) (hcall : callAt prog (sys.cur i) = some call)
    (hlo : 7 ≤ (sys.pc i).rank) (hhi : (sys.pc i).rank ≤ 9) :
    Linkable sys.kv.service sys.kv.bp (entriesAt hash prog linked) (call.entry hash) := by
  have hp := sys.progress_cur i
  have hheader : Owns prog sys.progress sys.kv.bp (.header (sys.cur i)) call.header :=
    .header hcall (by omega)
  have hpayload : Owns prog sys.progress sys.kv.bp (.payload (sys.cur i)) call.payload :=
    .payload hcall (by omega)
  have hfilled := hheap.filled _ call hcall
  rw [hp] at hfilled
  obtain ⟨hne, hlt⟩ := hheap.owned.entry_ne _ call hcall (by omega)
  have hold : ∀ r ∈ ownedRegions sys.kv.bp (entriesAt hash prog linked),
      Apart call.header r ∧ Apart call.payload r := by
    intro r hr
    rcases mem_ownedRegions.mp hr with rfl | ⟨e, he, hr⟩
    · exact ⟨hheap.owned.apart _ _ _ _ hheader .root (by simp),
        hheap.owned.apart _ _ _ _ hpayload .root (by simp)⟩
    · obtain ⟨c, hc, call', hcall', rfl⟩ := mem_entriesAt.mp he
      have hpc := (h.mem_iff c).mp hc
      have hcne : sys.cur i ≠ c := by
        intro heq
        rw [heq] at hp
        omega
      rcases hr with rfl | rfl
      · have hown : Owns prog sys.progress sys.kv.bp (.header c) call'.header :=
          .header hcall' (by omega)
        exact ⟨hheap.owned.apart _ _ _ _ hheader hown (by simp [hcne]),
          hheap.owned.apart _ _ _ _ hpayload hown (by simp)⟩
      · have hown : Owns prog sys.progress sys.kv.bp (.payload c) call'.payload :=
          .payload hcall' (by omega)
        exact ⟨hheap.owned.apart _ _ _ _ hheader hown (by simp),
          hheap.owned.apart _ _ _ _ hpayload hown (by simp [hcne])⟩
  exact
    { ne_zero := hne
      lt := hlt
      entry := hfilled.entryIn hlo (hheap.owned.data_ne _ _ hcall (by omega)).1
      next := hfilled.next (by omega) (by omega)
      header := fun r hr => (hold r hr).1
      payload := fun r hr => (hold r hr).2
      self := hheap.owned.apart _ _ _ _ hpayload hheader (by simp)
      owned := ⟨hheap.owned.mem _ _ hheader, hheap.owned.mem _ _ hpayload⟩
      bounded := ⟨hheap.owned.bounded _ _ hheader, hheap.owned.bounded _ _ hpayload⟩ }

/-- The store of the link: only the store of the tail is missing. -/
theorem LinkInv.link (h : LinkInv hash prog sys linked)
    (hheap : Heap hash prog sys.progress sys.kv) (hcall : callAt prog (sys.cur i) = some call)
    (hlo : 7 ≤ (sys.pc i).rank) (hhi : (sys.pc i).rank ≤ 9) {a : Nat}
    (haim : (sys.pc i).aim sys.kv.bp = some a) (hlinking : (sys.pc i).Linking) :
    LinkInv hash prog
      (sys.goTo i (sys.kv.withMem (store64 sys.kv.service.mem a call.ans.entry)) .setTail)
      linked := by
  have honly : ∀ j, (sys.pc j).Linking → j = i := fun j hj => h.single j i hj hlinking
  have hwhole : Linked sys.kv.service sys.kv.bp (entriesAt hash prog linked) := by
    refine h.whole fun j hj => ?_
    have heq : j = i := honly j (by rw [hj]; exact True.intro)
    rw [heq] at hj
    rw [hj] at hhi
    simp [PutPc.rank] at hhi
  have hlinked := hwhole.link (h.linkable hheap hcall hlo hhi)
  have hnew : ∀ j, ((sys.goTo i (sys.kv.withMem (store64 sys.kv.service.mem a call.ans.entry))
      .setTail).pc j).Linking → j = i := by
    intro j hj
    by_contra hne
    rw [sys.goTo_pc_of_ne _ _ hne] at hj
    exact hne (honly j hj)
  constructor
  · exact h.nodup
  · refine fun c => (h.mem_iff c).trans (sys.goTo_ranks (i := i) _ .setTail ?_ c).symm
    have hten : PutPc.setTail.rank = 10 := rfl
    omega
  · exact fun j k hj hk => (hnew j hj).trans (hnew k hk).symm
  · intro j b hb
    by_cases heq : j = i
    · rw [heq, sys.goTo_pc_self] at hb
      simp [PutPc.aim] at hb
    · exact absurd (hnew j (PutPc.linking_of_aim hb)) heq
  · intro hnone
    exact absurd (sys.goTo_pc_self _ _) (hnone i)
  · intro j call' hj hcall'
    have heq : j = i := hnew j (by rw [hj]; exact True.intro)
    subst heq
    have hsame : call' = call := Option.some.inj (hcall'.symm.trans hcall)
    rw [hsame]
    rw [linkMem, h.aims j a haim] at hlinked
    exact hlinked

/-- The store of the tail. -/
theorem LinkInv.setTail (h : LinkInv hash prog sys linked)
    (hcall : callAt prog (sys.cur i) = some call) (hpc : sys.pc i = .setTail) :
    LinkInv hash prog (sys.goTo i
      (sys.kv.withMem (store64 sys.kv.service.mem (tailAddr sys.kv.bp) call.ans.entry)) .addLoad)
      (linked ++ [sys.cur i]) := by
  have honly : ∀ j, (sys.pc j).Linking → j = i :=
    fun j hj => h.single j i hj (by rw [hpc]; exact True.intro)
  have hp : sys.progress (sys.cur i) = 10 := by rw [sys.progress_cur, hpc]; rfl
  have hnone : ∀ j, ¬((sys.goTo i (sys.kv.withMem
      (store64 sys.kv.service.mem (tailAddr sys.kv.bp) call.ans.entry)) .addLoad).pc
        j).Linking := by
    intro j hj
    by_cases heq : j = i
    · rw [heq, sys.goTo_pc_self] at hj
      exact hj
    · rw [sys.goTo_pc_of_ne _ _ heq] at hj
      exact heq (honly j hj)
  constructor
  · refine List.nodup_append.mpr ⟨h.nodup, by simp, ?_⟩
    intro c hc d hd heq
    rw [heq, List.mem_singleton.mp hd, h.mem_iff] at hc
    omega
  · intro c
    rw [List.mem_append, List.mem_singleton, h.mem_iff, System.goTo, sys.progress_go]
    by_cases hc : c = sys.cur i
    · simp [hc, PutPc.rank]
    · simp [hc]
  · exact fun j _ hj => absurd hj (hnone j)
  · exact fun j _ hb => absurd (PutPc.linking_of_aim hb) (hnone j)
  · intro _
    rw [entriesAt_snoc linked hcall]
    exact h.half i call hpc hcall
  · intro j _ hj
    exact absurd (by rw [hj]; exact True.intro) (hnone j)

/-- The test of the tail. -/
theorem LinkInv.getTail (h : LinkInv hash prog sys linked) (hpc : sys.pc i = .getTail)
    (halone : load64 sys.kv.service.mem (tailAddr sys.kv.bp) = 0 →
      ∀ j, j ≠ i → ¬(sys.pc j).Linking) :
    LinkInv hash prog (sys.goTo i sys.kv
      (if load64 sys.kv.service.mem (tailAddr sys.kv.bp) = 0 then .setHead else .derefTail))
      linked := by
  rcases Decidable.em (load64 sys.kv.service.mem (tailAddr sys.kv.bp) = 0) with ht | ht
  · have ha : linkAddr sys.kv.service.mem sys.kv.bp = headAddr sys.kv.bp := by
      rw [linkAddr, if_pos ht]
    rw [if_pos ht]
    exact h.arrive (by rw [hpc]; decide) (halone ht) (by rw [hpc]; simp) rfl ha (by decide)
      (by simp)
  · rw [if_neg ht]
    exact h.goQuiet sys.kv .derefTail rfl (fun _ hr => hr) (by rw [hpc]; exact id) id
      (by rw [hpc]; decide) fun _ _ _ => rfl

/-- The read of the tail. -/
theorem LinkInv.derefTail (h : LinkInv hash prog sys linked) (hpc : sys.pc i = .derefTail)
    (hne : load64 sys.kv.service.mem (tailAddr sys.kv.bp) ≠ 0)
    (halone : ∀ j, j ≠ i → ¬(sys.pc j).Linking) :
    LinkInv hash prog (sys.goTo i sys.kv
      (.linkNext (load64 sys.kv.service.mem (tailAddr sys.kv.bp)))) linked := by
  have ha : linkAddr sys.kv.service.mem sys.kv.bp =
      nextAddr (load64 sys.kv.service.mem (tailAddr sys.kv.bp)) := by
    rw [linkAddr, if_neg hne]
  exact h.arrive (by rw [hpc]; decide) halone (by rw [hpc]; simp) rfl ha
    (show 9 ≤ 10 by decide) (by simp)

/-- Only the store of the tail adds a call to `linked`. -/
theorem LinkInv.stay (h : LinkInv hash prog sys linked)
    (hheap : Heap hash prog sys.progress sys.kv) (hpcok : PcOk prog sys.progress (sys.pc i))
    (hcall : callAt prog (sys.cur i) = some call) (hne : sys.pc i ≠ .updateMeta)
    (hset : sys.pc i ≠ .setTail) (halone : sys.Alone i) :
    LinkInv hash prog (sys.goTo i ((sys.pc i).effect hash call sys.kv).1
      ((sys.pc i).effect hash call sys.kv).2) linked := by
  by_cases hfill : (sys.pc i).rank ≤ 6
  · -- the entry is still being filled
    have hnew : ((sys.pc i).effect hash call sys.kv).2.rank ≤ 7 ∧
        ¬(sys.pc i).Linking ∧ ¬((sys.pc i).effect hash call sys.kv).2.Linking := by
      cases hpc : sys.pc i <;> rw [hpc] at hfill <;>
        simp [PutPc.rank, PutPc.effect, PutPc.Linking] at hfill ⊢
    refine h.goQuiet _ _ ((sys.pc i).effect_bp hash call sys.kv)
      ((sys.pc i).effect_regions hash call sys.kv) hnew.2.1 hnew.2.2 (by omega) fun x hx _ => ?_
    exact PutPc.effect_mem_own hfill (fun hlo => (hheap.own_not_shared hcall hlo (by omega) hx).1)
      fun hlo => (hheap.own_not_shared hcall hlo (by omega) hx).2
  · cases hpc : sys.pc i with
    | getTail =>
      simp only [PutPc.effect]
      exact h.getTail hpc (halone.getTail hpc)
    | derefTail =>
      rw [hpc] at hpcok
      obtain ⟨c, call', hcall', hp, ht⟩ := hheap.linkedAt_tail hpcok
      have hentry := (hheap.owned.entry_ne c call' hcall' (by omega)).1
      rw [ht] at hentry
      exact h.derefTail hpc hentry (halone.derefTail hpc)
    | setHead =>
      exact h.link hheap hcall (by rw [hpc]; decide) (by rw [hpc]; decide)
        (by rw [hpc]; rfl) (by rw [hpc]; exact True.intro)
    | linkNext t =>
      exact h.link hheap hcall (by rw [hpc]; simp [PutPc.rank])
        (by rw [hpc]; simp [PutPc.rank]) (by rw [hpc]; rfl) (by rw [hpc]; exact True.intro)
    | setTail => exact absurd hpc hset
    | addLoad =>
      exact h.goQuiet _ _ rfl (fun _ hr => hr) (by rw [hpc]; exact id) id
        (by simp [hpc, PutPc.effect, PutPc.rank]) fun _ _ _ => rfl
    | addStore tmp =>
      refine h.goQuiet _ _ rfl (fun _ hr => hr) (by rw [hpc]; exact id) id
        (by simp [hpc, PutPc.effect, PutPc.rank]) fun x _ hw => ?_
      exact store64_of_not_mem _ _ hw
    | updateMeta => exact absurd hpc hne
    | _ =>
      rw [hpc] at hfill
      simp [PutPc.rank] at hfill

/-- Every step inside a call that reads no tail about to be replaced. -/
theorem LinkInv.go (h : LinkInv hash prog sys linked)
    (hheap : Heap hash prog sys.progress sys.kv) (hpcok : PcOk prog sys.progress (sys.pc i))
    (hcall : callAt prog (sys.cur i) = some call) (hne : sys.pc i ≠ .updateMeta)
    (halone : sys.Alone i) :
    ∃ linked', LinkInv hash prog (sys.goTo i ((sys.pc i).effect hash call sys.kv).1
      ((sys.pc i).effect hash call sys.kv).2) linked' := by
  by_cases hpc : sys.pc i = .setTail
  · rw [hpc]
    exact ⟨_, h.setTail hcall hpc⟩
  · exact ⟨linked, h.stay hheap hpcok hcall hne hpc halone⟩

/-- The return of a call. -/
theorem LinkInv.finish (h : LinkInv hash prog sys linked) (hpc : sys.pc i = .updateMeta)
    (ix : Index) : LinkInv hash prog (sys.finish i ix) linked := by
  refine h.quiet (i := i) rfl (fun _ hr => hr) (fun j hj => ?_) ?_ ?_ ?_ fun _ _ _ => rfl
  · simp [System.finish, System.cur, Function.update_of_ne hj]
  · rw [hpc]
    exact id
  · simp [System.finish, PutPc.Linking]
  · exact sys.finish_ranks hpc (by decide) ix

omit [DecidableEq ι] in
theorem linkInv_init {s : Service} {root : Nat} (hroot : s.Grants sizeofBase root) :
    LinkInv hash prog (System.init (Pmemkv.create s root) : System ι) [] where
  nodup := List.nodup_nil
  mem_iff c := by
    by_cases hc : c.2 = 0 <;> simp [System.progress, System.init, PutPc.rank, hc]
  single i j hi := hi.elim
  aims i a ha := by simp [System.init, PutPc.aim] at ha
  whole _ := (create_spec hroot).toLinked
  half i call hi := by simp [System.init] at hi

end

/-! ## The invariant of the counter -/

/-- The sum of the value lengths of the calls with these numbers. -/
def bytesAt (prog : ι → List PutCall) (cs : List (ι × Nat)) : Nat :=
  ((callsAt prog cs).map fun call => call.value.length).sum

/-- The calls in `counted` have added their length.  At most one client is
between its read and its store of the counter, and nothing was added since its
read. -/
structure CountInv (prog : ι → List PutCall) (sys : System ι) (counted : List (ι × Nat)) :
    Prop where
  nodup : counted.Nodup
  mem_iff : ∀ c, c ∈ counted ↔ 13 ≤ sys.progress c
  single : ∀ i j, (sys.pc i).Adding → (sys.pc j).Adding → i = j
  read : ∀ i tmp, sys.pc i = .addStore tmp →
    tmp = load64 sys.kv.service.mem (writtenAddr sys.kv.bp)
  written : load64 sys.kv.service.mem (writtenAddr sys.kv.bp) = bytesAt prog counted % 2 ^ 64

section

variable {sys sys' : System ι} {order counted : List (ι × Nat)} {i : ι} {call : PutCall}

omit [DecidableEq ι] in
theorem bytesAt_snoc (cs : List (ι × Nat)) {c : ι × Nat} (hcall : callAt prog c = some call) :
    bytesAt prog (cs ++ [c]) = bytesAt prog cs + call.value.length := by
  simp [bytesAt, callsAt, hcall]

omit [DecidableEq ι] in
/-- A step of client `i` that leaves the counter alone. -/
theorem CountInv.quiet (h : CountInv prog sys counted) (hbp : sys'.kv.bp = sys.kv.bp)
    (hpcs : ∀ j, j ≠ i → sys'.pc j = sys.pc j) (hnew : ¬(sys'.pc i).Adding)
    (hranks : ∀ c, 13 ≤ sys'.progress c ↔ 13 ≤ sys.progress c)
    (hword : load64 sys'.kv.service.mem (writtenAddr sys.kv.bp) =
      load64 sys.kv.service.mem (writtenAddr sys.kv.bp)) :
    CountInv prog sys' counted := by
  have hother : ∀ j, (sys'.pc j).Adding → sys'.pc j = sys.pc j := by
    intro j hj
    refine hpcs j fun heq => ?_
    rw [heq] at hj
    exact hnew hj
  constructor
  · exact h.nodup
  · exact fun c => (h.mem_iff c).trans (hranks c).symm
  · intro j k hj hk
    refine h.single j k ?_ ?_
    · rw [← hother j hj]
      exact hj
    · rw [← hother k hk]
      exact hk
  · intro j tmp hj
    rw [hbp, hword]
    exact h.read j tmp ((hother j (by rw [hj]; exact True.intro)).symm.trans hj)
  · rw [hbp, hword]
    exact h.written

omit [DecidableEq ι] in
/-- Only the store of the counter writes to its word. -/
theorem Heap.effect_written (h : Heap hash prog sys.progress sys.kv)
    (hcall : callAt prog (sys.cur i) = some call) (hpcok : PcOk prog sys.progress (sys.pc i))
    (hne : ¬(sys.pc i).Adding) :
    load64 ((sys.pc i).effect hash call sys.kv).1.service.mem (writtenAddr sys.kv.bp) =
      load64 sys.kv.service.mem (writtenAddr sys.kv.bp) := by
  by_cases hfill : (sys.pc i).rank ≤ 6
  · refine load64_congr fun x hlo hhi => ?_
    have hx : sys.Shared prog x := .inl (base_has_written ⟨hlo, hhi⟩)
    exact PutPc.effect_mem_own hfill (fun hr => (h.own_not_shared hcall hr (by omega) hx).1)
      fun hr => (h.own_not_shared hcall hr (by omega) hx).2
  · cases hpc : sys.pc i with
    | getTail => rfl
    | setHead => exact load64_store64_of_disjoint _ (by unfold writtenAddr headAddr; omega)
    | derefTail => rfl
    | linkNext t =>
      rw [hpc] at hpcok
      obtain ⟨c, call', hcall', hp, rfl⟩ := hpcok
      have hap : Apart call'.header (baseRegion sys.kv.bp) :=
        h.owned.apart _ _ _ _ (.header hcall' (by omega)) .root (by simp)
      have hhi : call'.ans.entry + 8 ≤ call'.ans.entry + 32 := by omega
      exact load64_congr fun x hx hx' => store64_of_apart sys.kv.service.mem hap (Nat.le_refl _) hhi
        (base_has_written ⟨hx, hx'⟩)
    | setTail => exact load64_store64_of_disjoint _ (by unfold writtenAddr tailAddr; omega)
    | addLoad => rfl
    | addStore tmp =>
      rw [hpc] at hne
      exact absurd True.intro hne
    | updateMeta => rfl
    | _ =>
      rw [hpc] at hfill
      simp [PutPc.rank] at hfill

/-- The read of the counter opens the window of client `i`. -/
theorem CountInv.addLoad (h : CountInv prog sys counted) (hpc : sys.pc i = .addLoad)
    (halone : ∀ j, j ≠ i → ¬(sys.pc j).Adding) :
    CountInv prog (sys.goTo i sys.kv
      (.addStore (load64 sys.kv.service.mem (writtenAddr sys.kv.bp)))) counted := by
  have honly : ∀ j, ((sys.goTo i sys.kv
      (.addStore (load64 sys.kv.service.mem (writtenAddr sys.kv.bp)))).pc j).Adding → j = i := by
    intro j hj
    by_contra hne
    rw [sys.goTo_pc_of_ne _ _ hne] at hj
    exact halone j hne hj
  constructor
  · exact h.nodup
  · refine fun c => (h.mem_iff c).trans (sys.goTo_ranks (i := i) sys.kv _ ?_ c).symm
    rw [hpc]
    simp [PutPc.rank]
  · exact fun j k hj hk => (honly j hj).trans (honly k hk).symm
  · intro j tmp hj
    rw [honly j (by rw [hj]; exact True.intro), sys.goTo_pc_self, PutPc.addStore.injEq] at hj
    exact hj.symm
  · exact h.written

/-- The store of the counter. -/
theorem CountInv.addStore (h : CountInv prog sys counted)
    (hcall : callAt prog (sys.cur i) = some call) {tmp : Nat} (hpc : sys.pc i = .addStore tmp) :
    CountInv prog (sys.goTo i (sys.kv.withMem (store64 sys.kv.service.mem (writtenAddr sys.kv.bp)
      ((tmp + call.value.length) % 2 ^ 64))) .updateMeta) (counted ++ [sys.cur i]) := by
  have hp : sys.progress (sys.cur i) = 12 := by rw [sys.progress_cur, hpc]; rfl
  have hnone : ∀ j, ¬((sys.goTo i (sys.kv.withMem (store64 sys.kv.service.mem
      (writtenAddr sys.kv.bp) ((tmp + call.value.length) % 2 ^ 64))) .updateMeta).pc j).Adding := by
    intro j hj
    by_cases heq : j = i
    · rw [heq, sys.goTo_pc_self] at hj
      exact hj
    · rw [sys.goTo_pc_of_ne _ _ heq] at hj
      exact heq (h.single j i hj (by rw [hpc]; exact True.intro))
  constructor
  · refine List.nodup_append.mpr ⟨h.nodup, by simp, ?_⟩
    intro c hc d hd heq
    rw [heq, List.mem_singleton.mp hd, h.mem_iff] at hc
    omega
  · intro c
    rw [List.mem_append, List.mem_singleton, h.mem_iff, System.goTo, sys.progress_go]
    by_cases hc : c = sys.cur i
    · simp [hc, PutPc.rank]
    · simp [hc]
  · exact fun j _ hj => absurd hj (hnone j)
  · intro j _ hj
    exact absurd (by rw [hj]; exact True.intro) (hnone j)
  · show load64 (store64 sys.kv.service.mem (writtenAddr sys.kv.bp)
      ((tmp + call.value.length) % 2 ^ 64)) (writtenAddr sys.kv.bp) = _
    rw [load64_store64_self, bytesAt_snoc counted hcall, h.read i tmp hpc, h.written, Nat.mod_mod,
      Nat.mod_add_mod]

/-- Every step inside a call that reads no counter about to be replaced. -/
theorem CountInv.go (h : CountInv prog sys counted) (hheap : Heap hash prog sys.progress sys.kv)
    (hpcok : PcOk prog sys.progress (sys.pc i)) (hcall : callAt prog (sys.cur i) = some call)
    (hne : sys.pc i ≠ .updateMeta) (halone : sys.Alone i) :
    ∃ counted', CountInv prog (sys.goTo i ((sys.pc i).effect hash call sys.kv).1
      ((sys.pc i).effect hash call sys.kv).2) counted' := by
  by_cases hadd : (sys.pc i).Adding ∨ sys.pc i = .addLoad
  · rcases hadd with hadd | hpc
    · cases hpc : sys.pc i with
      | addStore tmp => exact ⟨_, h.addStore hcall hpc⟩
      | _ =>
        rw [hpc] at hadd
        exact hadd.elim
    · rw [hpc]
      exact ⟨counted, h.addLoad hpc (halone.addLoad hpc)⟩
  · obtain ⟨hold, hload⟩ := not_or.mp hadd
    have hnew : ¬((sys.pc i).effect hash call sys.kv).2.Adding ∧
        (13 ≤ ((sys.pc i).effect hash call sys.kv).2.rank ↔ 13 ≤ (sys.pc i).rank) := by
      cases hpc : sys.pc i with
      | getTail =>
        simp only [PutPc.effect]
        split <;> simp [PutPc.Adding, PutPc.rank]
      | addLoad => exact absurd hpc hload
      | addStore tmp => exact absurd (by rw [hpc]; exact True.intro) hold
      | updateMeta => exact absurd hpc hne
      | _ => simp [PutPc.effect, PutPc.Adding, PutPc.rank]
    refine ⟨counted, h.quiet (i := i) ((sys.pc i).effect_bp hash call sys.kv)
      (fun j hj => sys.goTo_pc_of_ne _ _ hj) ?_ (sys.goTo_ranks _ _ hnew.2)
      (hheap.effect_written hcall hpcok hold)⟩
    rw [sys.goTo_pc_self]
    exact hnew.1

/-- The return of a call. -/
theorem CountInv.finish (h : CountInv prog sys counted) (hpc : sys.pc i = .updateMeta)
    (ix : Index) : CountInv prog (sys.finish i ix) counted := by
  refine h.quiet (i := i) rfl (fun j hj => ?_) ?_ ?_ rfl
  · simp [System.finish, Function.update_of_ne hj]
  · simp [System.finish, PutPc.Adding]
  · exact sys.finish_ranks hpc (by decide) ix

omit [DecidableEq ι] in
theorem countInv_init {s : Service} {root : Nat} (hroot : s.Grants sizeofBase root) :
    CountInv prog (System.init (Pmemkv.create s root) : System ι) [] where
  nodup := List.nodup_nil
  mem_iff c := by
    by_cases hc : c.2 = 0 <;> simp [System.progress, System.init, PutPc.rank, hc]
  single i j hi := hi.elim
  read i tmp hi := by simp [System.init] at hi
  written := (create_spec hroot).written

end

/-! ## Whole runs -/

/-- The persistent list has the entry of every call exactly once, in the order
`linked`, the counter is the sum of the lengths, `free_all` comes through, and
`dump_all` visits every entry and loads its value. -/
structure Listed (hash : String → UInt64) (prog : ι → List PutCall) (fuel : Nat) (sys : System ι)
    (linked : List (ι × Nat)) : Prop where
  once : ∀ c call, callAt prog c = some call → linked.count c = 1
  only : ∀ c ∈ linked, ∃ call, callAt prog c = some call
  walk : sys.kv.entryList fuel = some ((callsAt prog linked).map fun call => call.ans.entry)
  nodup : ((callsAt prog linked).map fun call => call.ans.entry).Nodup
  ends_at_tail : ((callsAt prog linked).map fun call => call.ans.entry).getLast?.getD 0 =
    load64 sys.kv.service.mem (tailAddr sys.kv.bp)
  written : load64 sys.kv.service.mem (writtenAddr sys.kv.bp) = bytesAt prog linked
  free : ∃ kv, sys.kv.freeAll fuel = some (0, kv)
  dump : sys.kv.dumpWalk fuel =
    some ((callsAt prog linked).map fun call => ((hash call.key).toNat, call.value))

/-- The client has a step to take, no request of it fails, and it reads nothing
that another client is about to replace. -/
def System.OkAlone (hash : String → UInt64) (prog : ι → List PutCall) (sys : System ι) (i : ι) :
    Prop :=
  sys.Ok hash prog i ∧ sys.Alone i

instance [Fintype ι] (sys : System ι) (i : ι) : Decidable (sys.OkAlone hash prog i) := by
  unfold System.OkAlone
  infer_instance

section

variable {sys : System ι} {order linked counted : List (ι × Nat)} {i : ι}

/-- The step lemma of the three invariants together. -/
theorem Inv.stepAlone (h : Inv hash prog sys order) (hlink : LinkInv hash prog sys linked)
    (hcount : CountInv prog sys counted) (hok : sys.OkAlone hash prog i) :
    ∃ sys' order' linked' counted', sys.step hash prog i = some sys' ∧
      Inv hash prog sys' order' ∧ LinkInv hash prog sys' linked' ∧ CountInv prog sys' counted' ∧
      order'.length ≤ order.length + 1 := by
  obtain ⟨call, hcall, hstored, hgrant⟩ := hok.1.call
  by_cases heq : sys.pc i = .updateMeta
  · obtain ⟨ix, hstep, hinv⟩ := h.ret hcall hgrant heq
    exact ⟨_, _, _, _, hstep, hinv, hlink.finish heq ix, hcount.finish heq ix, by simp⟩
  · obtain ⟨hstep, hinv⟩ := h.go hcall hstored hgrant heq
    obtain ⟨linked', hlink'⟩ := hlink.go h.heap (h.pcs i) hcall heq hok.2
    obtain ⟨counted', hcount'⟩ := hcount.go h.heap (h.pcs i) hcall heq hok.2
    exact ⟨_, _, _, _, hstep, hinv, hlink', hcount', Nat.le_succ _⟩

/-- Once all clients have finished, a call that has started has finished. -/
theorem Inv.progress_of_finished (h : Inv hash prog sys order) (hfin : sys.Finished prog) {n : Nat}
    (h0 : 0 < n) (hn : n ≤ finished) (c : ι × Nat) : n ≤ sys.progress c ↔ c ∈ order := by
  have hpc : sys.pc c.1 = .allocEntry := by
    refine h.idle c.1 ?_
    rw [callAt, System.cur, hfin c.1]
    exact List.getElem?_eq_none (Nat.le_refl _)
  rw [h.ordered.mem_iff c, System.progress]
  by_cases hc : c.2 < (sys.ret c.1).length
  · simp [hc, hn]
  · rw [if_neg hc]
    simp only [hpc, PutPc.rank, ite_self, hc, iff_false]
    omega

/-- At the end the three invariants give the whole list. -/
theorem Inv.listed (h : Inv hash prog sys order) (hlink : LinkInv hash prog sys linked)
    (hcount : CountInv prog sys counted) (hfin : sys.Finished prog) {fuel : Nat}
    (hfuel : order.length ≤ fuel) : Listed hash prog fuel sys linked := by
  have hmem : ∀ c, c ∈ linked ↔ c ∈ order := fun c =>
    (hlink.mem_iff c).trans (h.progress_of_finished hfin (by decide) (by decide) c)
  have hmem' : ∀ c, c ∈ counted ↔ c ∈ order := fun c =>
    (hcount.mem_iff c).trans (h.progress_of_finished hfin (by decide) (by decide) c)
  have hperm : linked.Perm order :=
    (List.perm_ext_iff_of_nodup hlink.nodup h.ordered.nodup).mpr hmem
  have hperm' : counted.Perm linked :=
    (List.perm_ext_iff_of_nodup hcount.nodup hlink.nodup).mpr fun c =>
      (hmem' c).trans (hmem c).symm
  have hwhole : Linked sys.kv.service sys.kv.bp (entriesAt hash prog linked) := by
    refine hlink.whole fun i hi => ?_
    have hp := sys.progress_cur i
    rw [hi] at hp
    have hin := (h.progress_of_finished hfin (show 0 < 10 by decide) (by decide) (sys.cur i)).mp
      (by rw [hp]; decide)
    rw [h.ordered.finished hin] at hp
    exact absurd hp (by decide)
  have hbytes : bytesAt prog counted = bytesAt prog linked :=
    ((hperm'.filterMap (callAt prog)).map fun call : PutCall => call.value.length).sum_eq
  have hlens : (entriesAt hash prog linked).map (fun e => e.bytes.length) =
      (callsAt prog linked).map fun call => call.value.length := by
    rw [entriesAt, entriesOf, List.map_map]
    rfl
  have htotal : totalBytes ((entriesAt hash prog linked).map Entry.block) =
      bytesAt prog linked := by
    rw [totalBytes, List.map_map, bytesAt, ← hlens]
    rfl
  have hsize := hwhole.size_le
  rw [htotal] at hsize
  simp only [sizeofBase] at hsize
  have hwritten : load64 sys.kv.service.mem (writtenAddr sys.kv.bp) = bytesAt prog linked := by
    rw [hcount.written, hbytes, Nat.mod_eq_of_lt (by omega)]
  have haddrs : (entriesAt hash prog linked).map Entry.addr =
      (callsAt prog linked).map fun call => call.ans.entry := by
    rw [entriesAt, entriesOf, List.map_map]
    rfl
  have hlen : (entriesAt hash prog linked).length ≤ fuel := by
    have hle : (callsAt prog linked).length ≤ linked.length := List.length_filterMap_le _ _
    rw [hperm.length_eq] at hle
    rw [entriesAt, entriesOf, List.length_map]
    omega
  constructor
  · intro c call hcall
    have hlt : c.2 < (prog c.1).length := (List.getElem?_eq_some_iff.mp hcall).1
    rw [hperm.count_eq, h.ordered.count c, hfin c.1, if_pos hlt]
  · intro c hc
    have hlt := (h.ordered.mem_iff c).mp ((hmem c).mp hc)
    rw [hfin c.1] at hlt
    exact ⟨_, List.getElem?_eq_getElem hlt⟩
  · rw [← haddrs]
    exact walk_eq_some_iff.mpr ⟨hwhole.chain, by simpa using hlen⟩
  · rw [← haddrs]
    exact hwhole.chain.nodup
  · rw [← haddrs, List.getLast?_map]
    exact hwhole.tail.symm
  · exact hwritten
  · obtain ⟨nodes, hindex⟩ := h.index
    have hlist : ListHolds sys.kv.service sys.kv.bp (entriesAt hash prog linked) := by
      refine ⟨hwhole, ?_⟩
      rw [hcount.written, hbytes, hlens, bytesAt]
    have hblocks : ((callsAt prog order).map (PutCall.block hash)).length ≤ fuel := by
      have hle : (callsAt prog order).length ≤ order.length := List.length_filterMap_le _ _
      rw [List.length_map]
      omega
    obtain ⟨kv', hrun, _⟩ := freeAll_spec hlist hindex hlen hblocks
    exact ⟨kv', hrun⟩
  · rw [dumpWalk_spec hwhole hlen, entriesAt, entriesOf, List.map_map]
    rfl

end

/-- For any clients, any calls and any interleaving in which no request fails
and no client reads what another one is about to replace: every put returns
`0`, and once all clients have finished the persistent list is whole. -/
theorem puts_keep_list (hash : String → UInt64) (prog : ι → List PutCall) (s : Service)
    (root : Nat) (sched : List ι) (fuel : Nat) (hroot : s.Grants sizeofBase root)
    (hok : Admissible (System.step hash prog) (System.OkAlone hash prog)
      (System.init (Pmemkv.create s root)) sched)
    (hfuel : sched.length ≤ fuel) :
    ∃ sys, run (System.step hash prog) (System.init (Pmemkv.create s root)) sched = some sys ∧
      (∀ i, ∀ code ∈ sys.ret i, code = 0) ∧
      (sys.Finished prog → ∃ linked, Listed hash prog fuel sys linked) := by
  have hstep : ∀ done i rest (sys : System ι), sched = done ++ i :: rest →
      (∃ order linked counted, Inv hash prog sys order ∧ LinkInv hash prog sys linked ∧
        CountInv prog sys counted ∧ order.length ≤ done.length) → sys.OkAlone hash prog i →
      ∃ sys', sys.step hash prog i = some sys' ∧
        ∃ order linked counted, Inv hash prog sys' order ∧ LinkInv hash prog sys' linked ∧
          CountInv prog sys' counted ∧ order.length ≤ (done ++ [i]).length := by
    rintro done i rest sys _ ⟨order, linked, counted, hinv, hlink, hcount, hlen⟩ hi
    obtain ⟨sys', order', linked', counted', hrun, hinv', hlink', hcount', hlen'⟩ :=
      hinv.stepAlone hlink hcount hi
    refine ⟨sys', hrun, order', linked', counted', hinv', hlink', hcount', ?_⟩
    rw [List.length_append, List.length_singleton]
    omega
  obtain ⟨sys, hrun, order, linked, counted, hinv, hlink, hcount, hlen⟩ := run_invariant hstep
    ⟨[], [], [], inv_init hroot, linkInv_init hroot, countInv_init hroot, by simp⟩ hok
  exact ⟨sys, hrun, hinv.codes, fun hfin =>
    ⟨linked, hinv.listed hlink hcount hfin (Nat.le_trans hlen hfuel)⟩⟩

/-- The clients fill their entries in turns and then link one after the other. -/
def inTurn : List Bool :=
  (List.replicate 7 [true, false]).flatten ++ List.replicate 6 true ++ List.replicate 7 false

theorem puts_keep_list_sample :
    ∃ sys, run (System.step sampleHash sampleProg)
        (System.init (Pmemkv.create sampleService 4096)) inTurn = some sys ∧
      (∀ i, ∀ code ∈ sys.ret i, code = 0) ∧ sys.Finished sampleProg ∧
      ∃ linked, Listed sampleHash sampleProg 27 sys linked := by
  obtain ⟨sys, hrun, hcodes, hlisted⟩ := puts_keep_list sampleHash sampleProg sampleService 4096
    inTurn 27 (by decide) (by decide) (by decide)
  have hlens : (run (System.step sampleHash sampleProg)
      (System.init (Pmemkv.create sampleService 4096)) inTurn).map
        (fun sys => ((sys.ret true).length, (sys.ret false).length)) = some (1, 1) := by
    decide
  rw [hrun, Option.map_some, Option.some.injEq, Prod.mk.injEq] at hlens
  have hfin : sys.Finished sampleProg := by
    intro i
    cases i
    · exact hlens.2
    · exact hlens.1
  exact ⟨sys, hrun, hcodes, hfin, hlisted hfin⟩

/-- Both clients test the tail before one of them has stored it. -/
def bothFirst : List Bool :=
  (List.replicate 8 [true, false]).flatten ++ List.replicate 5 true ++ List.replicate 5 false

/-- The return codes, whether `free_all` comes through, and what `dump_all`
visits. -/
theorem bothFirst_result :
    (run (System.step sampleHash sampleProg) (System.init (Pmemkv.create sampleService 4096))
      bothFirst).map (fun sys => (sys.ret true, sys.ret false, (sys.kv.freeAll 26).isSome,
        decide (sys.kv.dumpWalk 26 = some [((sampleHash "b").toNat, [3])]))) =
      some ([0], [0], false, true) := by
  decide

/-- Two puts that both return `0` and of which one entry is not in the list:
`free_all` aborts on `bytes_written == 0` and `dump_all` visits one entry. -/
theorem puts_lose_entry :
    Admissible (System.step sampleHash sampleProg) (System.Ok sampleHash sampleProg)
      (System.init (Pmemkv.create sampleService 4096)) bothFirst ∧
    ∃ sys, run (System.step sampleHash sampleProg)
        (System.init (Pmemkv.create sampleService 4096)) bothFirst = some sys ∧
      sys.Finished sampleProg ∧ (∀ i, ∀ code ∈ sys.ret i, code = 0) ∧
      sys.kv.freeAll 26 = none ∧ sys.kv.dumpWalk 26 = some [((sampleHash "b").toNat, [3])] ∧
      ¬∃ linked, Listed sampleHash sampleProg 26 sys linked := by
  refine ⟨by decide, ?_⟩
  obtain ⟨sys, hrun, hres⟩ := Option.map_eq_some_iff.mp bothFirst_result
  simp only [Prod.mk.injEq, Option.isSome_eq_false_iff, Option.isNone_iff_eq_none,
    decide_eq_true_eq] at hres
  obtain ⟨htrue, hfalse, hfree, hdump⟩ := hres
  refine ⟨sys, hrun, ?_, ?_, hfree, hdump, ?_⟩
  · intro i
    cases i
    · rw [hfalse]
      rfl
    · rw [htrue]
      rfl
  · intro i code hcode
    cases i
    · rw [hfalse] at hcode
      exact List.mem_singleton.mp hcode
    · rw [htrue] at hcode
      exact List.mem_singleton.mp hcode
  · rintro ⟨linked, hlisted⟩
    obtain ⟨kv, hkv⟩ := hlisted.free
    rw [hfree] at hkv
    exact absurd hkv (by simp)

end SparkNvm.Native
