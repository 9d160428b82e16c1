import SparkNvm.Native.Linked

/-!
# The store invariant

`ListHolds s bp es` is the persistent side of a store: the list has the entries
`es`, and `bytes_written` is the sum of their sizes.  `StoreRep kv es` adds
that the volatile index represents the same blocks.

`create_spec`, `put_spec` and `freeAll_spec` are the three operations, and
`dumpAll_spec` is the walk that prints the list.  `put` is taken apart along
the source: `putEntry_spec` fills fresh memory only, `putLink_eq` is the link
of `Linked.link` and the addition to the counter.
-/

namespace SparkNvm.Native

open Lib

/-! ## The invariant -/

/-- The persistent list has the entries `es` and counts their bytes. -/
structure ListHolds (s : Service) (bp : Nat) (es : List Entry) : Prop
    extends Linked s bp es where
  written : load64 s.mem (writtenAddr bp) = (es.map fun e => e.bytes.length).sum % 2 ^ 64

/-- The object `kv` holds exactly the entries `es`, in its list and in its
index. -/
structure StoreRep (kv : Pmemkv) (es : List Entry) : Prop
    extends ListHolds kv.service kv.bp es where
  index : ∃ nodes, IndexRep kv.index (es.map Entry.block) nodes

/-- The store does not depend on anything outside of the ranges of its list. -/
theorem ListHolds.frame {s s' : Service} {bp : Nat} {es : List Entry} (h : ListHolds s bp es)
    (hmem : ∀ r ∈ ownedRegions bp es, ∀ x, r.Has x → s'.mem x = s.mem x)
    (hreg : ∀ r ∈ s.regions, r ∈ s'.regions) : ListHolds s' bp es := by
  refine ⟨h.toLinked.frame (fun r hr x hx _ => hmem r hr x hx) hreg, ?_⟩
  rw [← h.written]
  exact load64_of_agree (hmem _ (base_mem_owned bp es)) (Nat.le_add_right bp 56)
    (Nat.le_refl (bp + 64))

/-! ## `create` -/

theorem create_spec {s : Service} {answer : Nat} (h : s.Grants sizeofBase answer) :
    StoreRep (Pmemkv.create s answer) [] := by
  obtain ⟨h0, hlt, hbound, _⟩ := h
  have hregions : (Pmemkv.create s answer).service.regions = baseRegion answer :: s.regions := by
    simp only [Pmemkv.create, Service.tbpSet_regions, Service.tbpAlloc_regions _ _ _ h0]
    rfl
  have hmem : (Pmemkv.create s answer).service.mem =
      store64 (store64 (store64 s.mem (headAddr answer) 0) (tailAddr answer) 0)
        (writtenAddr answer) 0 := by
    simp only [Pmemkv.create, Service.tbpSet_true_mem, Service.tbpAlloc_mem]
  refine ⟨⟨?_, ?_⟩, _, indexRep_empty⟩
  constructor
  · exact h0
  · constructor <;> simp
  · intro r hr
    rw [hregions]
    have hr' : r = baseRegion answer := by simpa [ownedRegions, Pmemkv.create] using hr
    simp [hr']
  · intro r hr
    have hr' : r = baseRegion answer := by simpa [ownedRegions, Pmemkv.create] using hr
    rw [hr']
    exact hbound
  · show load64 _ _ = 0
    rw [hmem,
      load64_store64_of_disjoint _ (by simp only [headAddr, writtenAddr, Pmemkv.create]; omega),
      load64_store64_of_disjoint _ (by simp only [headAddr, tailAddr, Pmemkv.create]; omega)]
    exact load64_store64_self _ _ _
  · rw [hmem,
      load64_store64_of_disjoint _ (by simp only [tailAddr, writtenAddr, Pmemkv.create]; omega)]
    exact load64_store64_self _ _ _
  · simp
  · rw [hmem]
    exact load64_store64_self _ _ _

theorem create_regions {s : Service} {root : Nat} (hroot : root ≠ 0) :
    (Pmemkv.create s root).service.regions = ⟨root, sizeofBase⟩ :: s.regions := by
  simp only [Pmemkv.create, Service.tbpSet_regions, Service.tbpAlloc_regions _ _ _ hroot]

/-! ## `put` -/

/-- Every `TBPStore` of the call succeeded. -/
def PutAnswers.Stored (ans : PutAnswers) : Prop :=
  ans.dataPtrOk = true ∧ ans.bytesOk = true ∧ ans.nextOk = true ∧ ans.keyOk = true ∧
    ans.sizeOk = true ∧ ans.linkOk = true ∧ ans.tailOk = true ∧ ans.writtenOk = true

instance (ans : PutAnswers) : Decidable ans.Stored := by
  unfold PutAnswers.Stored; infer_instance

/-- No request of the `put` fails: both allocations are granted, every store
succeeds, and every `malloc` that is asked for returns a fresh object. -/
structure Pmemkv.NoFailure (kv : Pmemkv) (key : UInt64) (count : Nat) (ans : PutAnswers) :
    Prop where
  stored : ans.Stored
  entry : kv.service.Grants sizeofBlockEntry ans.entry
  data : (kv.service.tbpAlloc sizeofBlockEntry ans.entry).Grants count ans.data
  mallocs : kv.index.Mallocs key.toNat ans.metaPtr ans.listPtr

instance (kv : Pmemkv) (key : UInt64) (count : Nat) (ans : PutAnswers) :
    Decidable (kv.NoFailure key count ans) :=
  decidable_of_iff (ans.Stored ∧ kv.service.Grants sizeofBlockEntry ans.entry ∧
    (kv.service.tbpAlloc sizeofBlockEntry ans.entry).Grants count ans.data ∧
    kv.index.Mallocs key.toNat ans.metaPtr ans.listPtr)
    ⟨fun h => ⟨h.1, h.2.1, h.2.2.1, h.2.2.2⟩, fun h => ⟨h.stored, h.entry, h.data, h.mallocs⟩⟩

variable {s : Service} {bp : Nat} {kv : Pmemkv} {es : List Entry}
variable {key : UInt64} {buf : List UInt8} {count : Nat} {ans : PutAnswers}

/-- The entry that a successful `put` creates. -/
def newEntry (key : UInt64) (buf : List UInt8) (count : Nat) (ans : PutAnswers) : Entry :=
  ⟨ans.entry, ans.data, key.toNat, buf.take count⟩

/-- The fresh data range is apart from the fresh entry. -/
theorem data_apart_entry (he : s.Grants sizeofBlockEntry ans.entry)
    (hd : (s.tbpAlloc sizeofBlockEntry ans.entry).Grants count ans.data) :
    Apart ⟨ans.data, count⟩ ⟨ans.entry, sizeofBlockEntry⟩ := by
  apply hd.2.2.2
  rw [Service.tbpAlloc_regions _ _ _ he.1]
  simp

/-- The first half of `put` writes the entry into fresh memory and nothing
else. -/
theorem putEntry_spec (key : UInt64) (hs : ans.Stored) (he : s.Grants sizeofBlockEntry ans.entry)
    (hd : (s.tbpAlloc sizeofBlockEntry ans.entry).Grants count ans.data)
    (hcount : count ≤ buf.length) :
    ∃ s', Pmemkv.putEntry s key buf count ans = some s' ∧
      s'.regions = ⟨ans.data, count⟩ :: ⟨ans.entry, sizeofBlockEntry⟩ :: s.regions ∧
      EntryIn s'.mem (newEntry key buf count ans) ∧
      load64 s'.mem (nextAddr ans.entry) = 0 ∧
      ∀ x, ¬(newEntry key buf count ans).header.Has x →
        ¬(newEntry key buf count ans).payload.Has x → s'.mem x = s.mem x := by
  obtain ⟨h1, h2, h3, h4, h5, _⟩ := hs
  have hap := data_apart_entry he hd
  obtain ⟨he0, helt, hebound, _⟩ := he
  obtain ⟨hd0, hdlt, hdbound, _⟩ := hd
  have hlen : (buf.take count).length = count := by simpa using hcount
  have hcountlt : count < 2 ^ 64 := by omega
  have hkeylt : key.toNat < 2 ^ 64 := key.toNat_lt
  -- the memory after the stores, oldest store innermost
  let m1 := store64 s.mem (dataAddr ans.entry) ans.data
  let m2 := storeBytes m1 ans.data (buf.take count)
  let m5 := store64 (store64 (store64 m2 (nextAddr ans.entry) 0)
    (keyAddr ans.entry) key.toNat) (sizeAddr ans.entry) count
  have hptr : load64 m1 (ans.entry + 24) = ans.data := by
    rw [show ans.entry + 24 = dataAddr ans.entry from rfl, load64_store64_self]
    exact Nat.mod_eq_of_lt hdlt
  have hrun : Pmemkv.putEntry s key buf count ans = some ⟨m5,
      ⟨ans.data, count⟩ :: ⟨ans.entry, sizeofBlockEntry⟩ :: s.regions⟩ := by
    simp only [Pmemkv.putEntry, h1, h2, h3, h4, h5, Service.deref, if_neg he0,
      Service.tbpSet_true_mem, Service.tbpAlloc_mem, Option.bind_eq_bind, Option.bind_some]
    rw [show load64 (store64 s.mem (dataAddr ans.entry) ans.data) (ans.entry + 24) = ans.data
      from hptr, Service.storeAt_of_ne _ _ _ hd0, Option.bind_some]
    simp only [Service.tbpSet, Service.tbpStore, if_true, Service.tbpAlloc, if_neg he0, if_neg hd0]
    rfl
  -- the three header stores miss the value
  have hpay : ∀ x, (Region.mk ans.data count).Has x → m5 x = m2 x := by
    intro x hx
    have hnot : ¬(ans.entry ≤ x ∧ x < ans.entry + 32) := hap.not_has hx
    have ha : ¬(sizeAddr ans.entry ≤ x ∧ x < sizeAddr ans.entry + 8) := by
      unfold sizeAddr; omega
    have hb : ¬(keyAddr ans.entry ≤ x ∧ x < keyAddr ans.entry + 8) := by
      unfold keyAddr; omega
    have hc : ¬(nextAddr ans.entry ≤ x ∧ x < nextAddr ans.entry + 8) := by
      unfold nextAddr; omega
    simp only [m5]
    rw [store64_of_not_mem _ _ ha, store64_of_not_mem _ _ hb, store64_of_not_mem _ _ hc]
  refine ⟨_, hrun, rfl, ⟨?_, ?_, ?_, ?_, hd0⟩, ?_, ?_⟩
  · show load64 m5 (keyAddr ans.entry) = key.toNat
    simp only [m5]
    rw [load64_store64_of_disjoint _ (by unfold keyAddr sizeAddr; omega), load64_store64_self]
    exact Nat.mod_eq_of_lt hkeylt
  · show load64 m5 (sizeAddr ans.entry) = (buf.take count).length
    simp only [m5]
    rw [load64_store64_self, hlen]
    exact Nat.mod_eq_of_lt hcountlt
  · show load64 m5 (dataAddr ans.entry) = ans.data
    simp only [m5]
    rw [load64_store64_of_disjoint _ (by unfold dataAddr sizeAddr; omega),
      load64_store64_of_disjoint _ (by unfold dataAddr keyAddr; omega),
      load64_store64_of_disjoint _ (by unfold dataAddr nextAddr; omega)]
    have hm2 : load64 m2 (dataAddr ans.entry) = load64 m1 (dataAddr ans.entry) :=
      load64_of_agree
        (fun x hx => storeBytes_of_apart m1 hap (Nat.le_refl _) (by rw [hlen]) hx)
        (Nat.le_add_right ans.entry 24) (Nat.le_refl (ans.entry + 32))
    rw [hm2]
    exact hptr
  · show loadBytes m5 ans.data (buf.take count).length = buf.take count
    have hm5 : loadBytes m5 ans.data (buf.take count).length =
        loadBytes m2 ans.data (buf.take count).length :=
      loadBytes_of_agree hpay (Nat.le_refl _) (by rw [hlen])
    rw [hm5]
    exact loadBytes_storeBytes_self _ _ _
  · show load64 m5 (nextAddr ans.entry) = 0
    simp only [m5]
    rw [load64_store64_of_disjoint _ (by unfold nextAddr sizeAddr; omega),
      load64_store64_of_disjoint _ (by unfold nextAddr keyAddr; omega), load64_store64_self,
      Nat.zero_mod]
  · intro x hh hp
    have hh' : ¬(ans.entry ≤ x ∧ x < ans.entry + 32) := hh
    have hp' : ¬(ans.data ≤ x ∧ x < ans.data + (buf.take count).length) := hp
    simp only [m5, m2, m1]
    rw [store64_of_not_mem _ _ (by unfold sizeAddr; omega),
      store64_of_not_mem _ _ (by unfold keyAddr; omega),
      store64_of_not_mem _ _ (by unfold nextAddr; omega),
      storeBytes_of_not_mem _ _ hp', store64_of_not_mem _ _ (by unfold dataAddr; omega)]

/-- The second half of `put` is three stores: the two that link the entry, and
the counter. -/
theorem putLink_eq (s : Service) (count : Nat) (hs : ans.Stored) {bp : Nat} (hbp : bp ≠ 0) :
    Pmemkv.putLink s bp count ans = some
      ⟨store64 (linkMem s.mem bp ans.entry) (writtenAddr bp)
          ((load64 (linkMem s.mem bp ans.entry) (writtenAddr bp) + count) % 2 ^ 64),
        s.regions⟩ := by
  obtain ⟨_, _, _, _, _, h6, h7, h8⟩ := hs
  have hderef : s.deref bp 8 = some (load64 s.mem (tailAddr bp)) := Service.deref_of_ne _ _ _ hbp
  unfold linkMem linkAddr
  by_cases ht : load64 s.mem (tailAddr bp) = 0
  · simp only [Pmemkv.putLink, Service.tbpGet_eq, if_pos ht, h6, h7, h8, Option.bind_eq_bind,
      Option.bind_some, Option.pure_def, Service.tbpSet, Service.tbpAdd, Service.tbpStore, if_true,
      store64]
  · simp only [Pmemkv.putLink, Service.tbpGet_eq, if_neg ht, h6, h7, h8, hderef, Option.map_some,
      Option.bind_eq_bind, Option.bind_some, Option.pure_def, Service.tbpSet, Service.tbpAdd,
      Service.tbpStore, if_true, store64]

/-- Linking a complete entry and counting its bytes. -/
theorem ListHolds.link (h : ListHolds s bp es) {e : Entry} (hlink : Linkable s bp es e) :
    ListHolds ⟨store64 (linkMem s.mem bp e.addr) (writtenAddr bp)
      ((load64 (linkMem s.mem bp e.addr) (writtenAddr bp) + e.bytes.length) % 2 ^ 64),
      s.regions⟩ bp (es ++ [e]) := by
  refine ⟨(h.toLinked.link hlink).frame (fun r _ x _ hx => ?_) fun r hr => hr, ?_⟩
  · exact store64_of_not_mem _ _ hx
  · show load64 (store64 _ _ _) _ = _
    rw [load64_store64_self, h.toLinked.linkMem_written, h.written, List.map_append,
      List.sum_append, List.map_singleton, List.sum_singleton]
    omega

/-- What `put` does before it calls `update_meta`: the persistent list grows by
one entry. -/
theorem putList_spec (hrep : ListHolds s bp es) (key : UInt64) (hstored : ans.Stored)
    (he : s.Grants sizeofBlockEntry ans.entry)
    (hd : (s.tbpAlloc sizeofBlockEntry ans.entry).Grants count ans.data)
    (hcount : count ≤ buf.length) :
    ∃ s₁ s₂, Pmemkv.putEntry s key buf count ans = some s₁ ∧
      Pmemkv.putLink s₁ bp count ans = some s₂ ∧
      ListHolds s₂ bp (es ++ [newEntry key buf count ans]) := by
  obtain ⟨s₁, hrun₁, hregions₁, hentry₁, hnext₁, hframe₁⟩ :=
    putEntry_spec key hstored he hd hcount
  have hself := data_apart_entry he hd
  have hlen : (buf.take count).length = count := by simpa using hcount
  obtain ⟨he0, helt, hebound, hefresh⟩ := he
  obtain ⟨hd0, hdlt, hdbound, hdfresh⟩ := hd
  rw [Service.tbpAlloc_regions _ _ _ he0] at hdfresh
  generalize hnew : newEntry key buf count ans = e at hentry₁ hframe₁ ⊢
  have haddr : e.addr = ans.entry := by rw [← hnew]; rfl
  have hcount' : e.bytes.length = count := by rw [← hnew]; exact hlen
  have hpayloadEq : e.payload = ⟨ans.data, count⟩ := by
    rw [← hnew]
    simp only [Entry.payload, newEntry, hlen]
  have hheaderEq : e.header = ⟨ans.entry, sizeofBlockEntry⟩ := by rw [← hnew]; rfl
  have hdataEq : e.data = ans.data := by rw [← hnew]; rfl
  -- the fresh ranges miss everything the list owns
  have hheader : ∀ r ∈ ownedRegions bp es, Apart e.header r := by
    intro r hr
    rw [hheaderEq]
    exact hefresh r (hrep.owned r hr)
  have hpayload : ∀ r ∈ ownedRegions bp es, Apart e.payload r := by
    intro r hr
    rw [hpayloadEq]
    exact hdfresh r (List.mem_cons_of_mem _ (hrep.owned r hr))
  have hrep₁ : ListHolds s₁ bp es := by
    refine hrep.frame (fun r hr x hx => ?_) fun r hr => ?_
    · exact hframe₁ x ((hheader r hr).symm.not_has hx) ((hpayload r hr).symm.not_has hx)
    · rw [hregions₁]
      exact List.mem_cons_of_mem _ (List.mem_cons_of_mem _ hr)
  have hlink : Linkable s₁ bp es e :=
    { ne_zero := by rw [haddr]; exact he0
      lt := by rw [haddr]; exact helt
      entry := hentry₁
      next := by rw [haddr]; exact hnext₁
      header := hheader
      payload := hpayload
      self := by rw [hheaderEq, hpayloadEq]; exact hself
      owned := by rw [hheaderEq, hpayloadEq, hregions₁]; simp
      bounded := by rw [haddr, hdataEq, hcount']; exact ⟨hebound, hdbound⟩ }
  refine ⟨s₁, _, hrun₁, putLink_eq s₁ count hstored hrep.bp_ne, ?_⟩
  have hdone := hrep₁.link hlink
  rw [haddr, hcount'] at hdone
  exact hdone


/-- `put` without failures returns `0` and appends the entry. -/
theorem put_spec (hrep : StoreRep kv es) (hash : String → UInt64) (k : String)
    (hcount : count ≤ buf.length) (hno : kv.NoFailure (hash k) count ans) :
    ∃ kv', kv.put hash k buf count ans = some (0, kv') ∧ kv'.bp = kv.bp ∧
      StoreRep kv' (es ++ [newEntry (hash k) buf count ans]) := by
  obtain ⟨hstored, he, hd, hmalloc⟩ := hno
  obtain ⟨s₁, s₂, hrun₁, hrun₂, hlist⟩ :=
    putList_spec hrep.toListHolds (hash k) hstored he hd hcount
  have hlen : (buf.take count).length = count := by simpa using hcount
  have he0 : ans.entry ≠ 0 := he.1
  have hlt : count < 2 ^ 64 := by
    obtain ⟨hd0, _, hdbound, _⟩ := hd
    omega
  have hentry := hlist.entries (newEntry (hash k) buf count ans) (by simp)
  have hkey : load64 s₂.mem (ans.entry + 8) = (hash k).toNat := hentry.key
  have hsize : load64 s₂.mem (ans.entry + 16) = count := hentry.size.trans hlen
  have hdata : load64 s₂.mem (ans.entry + 24) = ans.data := hentry.data
  obtain ⟨nodes, hindex⟩ := hrep.index
  obtain ⟨ix', nodes', hupd, hindex'⟩ :=
    updateMeta_spec ans.data count hindex hlt hmalloc
  have hrun : kv.put hash k buf count ans = some (0, ⟨s₂, kv.bp, ix'⟩) := by
    simp only [Pmemkv.put, hrun₁, hrun₂, Pmemkv.updateMeta, Service.deref, if_neg he0, hkey, hsize,
      hdata, hupd, Option.bind_eq_bind, Option.bind_some, Option.pure_def]
    rfl
  refine ⟨_, hrun, rfl, hlist, nodes', ?_⟩
  have hblock : (newEntry (hash k) buf count ans).block = ⟨(hash k).toNat, ans.data, count⟩ := by
    simp only [Entry.block, newEntry, hlen]
  rw [List.map_append, List.map_singleton, hblock]
  exact hindex'

/-- The two allocations of the first half. -/
theorem putEntry_regions {s s' : Service} {key : UInt64} {buf : List UInt8} {count : Nat}
    {ans : PutAnswers}
    (hentry : ans.entry ≠ 0) (hdata : ans.data ≠ 0)
    (h : Pmemkv.putEntry s key buf count ans = some s') :
    s'.regions = ⟨ans.data, count⟩ :: ⟨ans.entry, sizeofBlockEntry⟩ :: s.regions := by
  unfold Pmemkv.putEntry at h
  obtain ⟨data, _, h⟩ := Option.bind_eq_some_iff.mp h
  obtain ⟨s₁, hstore, h⟩ := Option.bind_eq_some_iff.mp h
  rw [← Option.some.inj h]
  simp only [Service.tbpSet_regions, Service.storeAt_regions hstore,
    Service.tbpAlloc_regions _ _ _ hdata, Service.tbpAlloc_regions _ _ _ hentry]

theorem putLink_regions {s s' : Service} {bp count : Nat} {ans : PutAnswers}
    (h : Pmemkv.putLink s bp count ans = some s') : s'.regions = s.regions := by
  by_cases htail : s.tbpGet (tailAddr bp) = 0
  · simp only [Pmemkv.putLink, if_pos htail, Option.bind_eq_bind, Option.bind_some, Option.pure_def,
      Option.some.injEq] at h
    rw [← h, Service.tbpAdd_regions, Service.tbpSet_regions, Service.tbpSet_regions]
  · simp only [Pmemkv.putLink, if_neg htail, Option.bind_eq_bind, Option.pure_def] at h
    obtain ⟨s₁, hlink, hs'⟩ := Option.bind_eq_some_iff.mp h
    obtain ⟨tail, _, rfl⟩ := Option.map_eq_some_iff.mp hlink
    rw [← Option.some.inj hs', Service.tbpAdd_regions, Service.tbpSet_regions,
      Service.tbpSet_regions]

/-- What a `put` that goes on has taken from the service, and what it has made of the index. -/
theorem put_eq_some {hash : String → UInt64} {k : String} {code : Int} {kv' : Pmemkv}
    (hentry : ans.entry ≠ 0) (hdata : ans.data ≠ 0)
    (h : kv.put hash k buf count ans = some (code, kv')) :
    kv'.service.regions =
        ⟨ans.data, count⟩ :: ⟨ans.entry, sizeofBlockEntry⟩ :: kv.service.regions ∧
      ∃ key off size c,
        kv.index.updateMeta key off size ans.metaPtr ans.listPtr = some (c, kv'.index) := by
  unfold Pmemkv.put at h
  obtain ⟨s₁, hs₁, h⟩ := Option.bind_eq_some_iff.mp h
  obtain ⟨s₂, hs₂, h⟩ := Option.bind_eq_some_iff.mp h
  obtain ⟨⟨c, kv₂⟩, hmeta, h⟩ := Option.bind_eq_some_iff.mp h
  have hkv : kv' = kv₂ := by
    dsimp only at h
    split at h
    · exact (Prod.mk.inj (Option.some.inj h)).2.symm
    · exact (Prod.mk.inj (Option.some.inj h)).2.symm
  unfold Pmemkv.updateMeta at hmeta
  obtain ⟨key, _, hmeta⟩ := Option.bind_eq_some_iff.mp hmeta
  obtain ⟨size, _, hmeta⟩ := Option.bind_eq_some_iff.mp hmeta
  obtain ⟨off, _, hmeta⟩ := Option.bind_eq_some_iff.mp hmeta
  obtain ⟨⟨c', ix⟩, hupdate, hmeta⟩ := Option.bind_eq_some_iff.mp hmeta
  have hkv₂ := (Prod.mk.inj (Option.some.inj hmeta)).2
  subst hkv hkv₂
  refine ⟨?_, key, off, size, c', hupdate⟩
  show s₂.regions = _
  rw [putLink_regions hs₂, putEntry_regions hentry hdata hs₁]

/-! ## `free_all` -/

/-- The loop of `free_all` from `a` on ends, and it takes the sizes of the
entries it visits off `bytes_written`. -/
theorem freeEntries_spec {bp fuel : Nat} {es : List Entry} (s : Service) (a : Nat)
    (hbase : ∀ e ∈ es, Apart (baseRegion bp) e.header)
    (hchain : PtrChain (load64 s.mem) a (es.map Entry.addr))
    (hsize : ∀ e ∈ es, load64 s.mem (sizeAddr e.addr) = e.bytes.length)
    (hwritten : load64 s.mem (writtenAddr bp) = (es.map fun e => e.bytes.length).sum % 2 ^ 64)
    (hfuel : es.length ≤ fuel) :
    ∃ s', Pmemkv.freeEntries bp fuel s a = some s' ∧ s'.regions = s.regions ∧
      load64 s'.mem (writtenAddr bp) = 0 := by
  induction es generalizing fuel s a with
  | nil =>
    have ha : a = 0 := hchain
    refine ⟨s, ?_, rfl, hwritten⟩
    cases fuel <;> simp [Pmemkv.freeEntries, ha]
  | cons e es ih =>
    obtain ⟨rfl, hne, hrest⟩ := hchain
    cases fuel with
    | zero => simp at hfuel
    | succ fuel =>
      have hsize₀ : load64 s.mem (sizeAddr e.addr) = e.bytes.length := hsize e (by simp)
      -- the store to `bytes_written` misses every header
      have hkeep : ∀ e' ∈ e :: es, ∀ x, e'.header.Has x →
          (s.tbpSub true (writtenAddr bp) e.bytes.length).mem x = s.mem x := by
        intro e' he' x hx
        rw [Service.tbpSub_true_mem]
        exact store64_of_apart _ (hbase e' he') (Nat.le_add_right bp 56)
          (Nat.le_refl (bp + 64)) hx
      have hwritten' : load64 (s.tbpSub true (writtenAddr bp) e.bytes.length).mem
          (writtenAddr bp) = (es.map fun e => e.bytes.length).sum % 2 ^ 64 := by
        rw [Service.tbpSub_true_mem, load64_store64_self, hwritten, Service.sub64,
          List.map_cons, List.sum_cons]
        omega
      obtain ⟨s', hrun, hregions, hzero⟩ := ih (s.tbpSub true (writtenAddr bp) e.bytes.length)
        (load64 s.mem e.addr) (fun e' he' => hbase e' (by simp [he']))
        (hrest.congr fun x hx => by
          obtain ⟨e', he', rfl⟩ := List.mem_map.mp hx
          exact Entry.next_of_agree (hkeep e' (by simp [he'])))
        (fun e' he' => by
          rw [← hsize e' (by simp [he'])]
          exact load64_congr fun x hlo hhi => hkeep e' (by simp [he']) x
            (Entry.header_has_field (by unfold sizeAddr at *; omega)
              (by unfold sizeAddr at *; omega)))
        hwritten' (by simpa using hfuel)
      refine ⟨s', ?_, hregions.trans (Service.tbpSub_regions _ _ _ _), hzero⟩
      rw [Pmemkv.freeEntries, if_neg hne, Service.tbpGet_eq, Service.tbpGet_eq, hsize₀]
      exact hrun

/-- `free_all` passes both assertions, returns `0` and leaves an empty store.
The list and the index may hold the blocks in different orders. -/
theorem freeAll_spec {bs : List Block} {nodes : Nat → List Nat}
    (hlist : ListHolds kv.service kv.bp es) (hindex : IndexRep kv.index bs nodes) {fuel : Nat}
    (hfuel : es.length ≤ fuel) (hfuel' : bs.length ≤ fuel) :
    ∃ kv', kv.freeAll fuel = some (0, kv') ∧ kv'.bp = kv.bp ∧ StoreRep kv' [] := by
  obtain ⟨s₁, hrun₁, hregions₁, hzero⟩ := freeEntries_spec kv.service
    (load64 kv.service.mem (headAddr kv.bp)) hlist.layout.base_header hlist.chain
    (fun e he => (hlist.entries e he).size) hlist.written hfuel
  obtain ⟨ix', hfree, hindex'⟩ := freeMeta_spec hindex hfuel'
  let m₂ := store64 (store64 s₁.mem (headAddr kv.bp) 0) (tailAddr kv.bp) 0
  have hzero₂ : load64 m₂ (writtenAddr kv.bp) = 0 := by
    simp only [m₂]
    rw [load64_store64_of_disjoint _ (by unfold writtenAddr tailAddr; omega),
      load64_store64_of_disjoint _ (by unfold writtenAddr headAddr; omega)]
    exact hzero
  have hrun : kv.freeAll fuel = some (0, ⟨⟨m₂, s₁.regions⟩, kv.bp, ix'⟩) := by
    simp only [Pmemkv.freeAll, Service.tbpGet_eq, hrun₁, Option.bind_eq_bind, Option.bind_some,
      Service.tbpSet_true_mem, hfree, Option.pure_def]
    rw [if_pos hzero₂]
    rfl
  refine ⟨_, hrun, rfl, ⟨?_, hzero₂⟩, _, hindex'⟩
  constructor
  · exact hlist.bp_ne
  · constructor <;> simp
  · intro r hr
    have hr' : r = baseRegion kv.bp := by simpa [ownedRegions] using hr
    show r ∈ s₁.regions
    rw [hregions₁, hr']
    exact hlist.owned _ (base_mem_owned _ _)
  · intro r hr
    have hr' : r = baseRegion kv.bp := by simpa [ownedRegions] using hr
    rw [hr']
    exact hlist.bounded _ (base_mem_owned _ _)
  · show load64 m₂ (headAddr kv.bp) = 0
    simp only [m₂]
    rw [load64_store64_of_disjoint _ (by unfold headAddr tailAddr; omega), load64_store64_self,
      Nat.zero_mod]
  · show load64 m₂ (tailAddr kv.bp) = 0
    simp only [m₂]
    rw [load64_store64_self, Nat.zero_mod]
  · simp

/-! ## `dump_all` -/

/-- The loop of `dump_all` visits the entries of the chain from `a` on. -/
theorem walkLoop_spec {fuel : Nat} {es : List Entry} (s : Service) (a : Nat)
    (hchain : PtrChain (load64 s.mem) a (es.map Entry.addr)) (hentries : ∀ e ∈ es, EntryIn s.mem e)
    (hfuel : es.length ≤ fuel) :
    Pmemkv.walkLoop s fuel a = some (es.map fun e => (e.key, e.bytes)) := by
  induction es generalizing fuel a with
  | nil =>
    have ha : a = 0 := hchain
    cases fuel <;> simp [Pmemkv.walkLoop, ha]
  | cons e es ih =>
    obtain ⟨rfl, hne, hrest⟩ := hchain
    have hin := hentries e (by simp)
    cases fuel with
    | zero => simp at hfuel
    | succ fuel =>
      have hih := ih (load64 s.mem e.addr) hrest (fun e' he' => hentries e' (by simp [he']))
        (by simpa using hfuel)
      have hnext : load64 s.mem (nextAddr e.addr) = load64 s.mem e.addr := rfl
      simp only [Pmemkv.walkLoop, if_neg hne, Service.tbpGet_eq, hin.data, hin.size, hin.key, hnext,
        hih, Service.loadAt_of_ne _ _ hin.data_ne, Service.tbpLoad, hin.bytes, Option.bind_eq_bind,
        Option.bind_some, Option.pure_def, List.map_cons]

theorem dumpWalk_spec (hlist : Linked kv.service kv.bp es) {fuel : Nat} (hfuel : es.length ≤ fuel) :
    kv.dumpWalk fuel = some (es.map fun e => (e.key, e.bytes)) :=
  walkLoop_spec kv.service _ hlist.chain hlist.entries hfuel

/-- A print stops before the first zero byte, and needs one. -/
theorem cString_eq_some_iff {bytes text : List UInt8} :
    Pmemkv.cString bytes = some text ↔ ∃ rest, bytes = text ++ 0 :: rest ∧ 0 ∉ text := by
  induction bytes generalizing text with
  | nil => simp [Pmemkv.cString]
  | cons b bytes ih =>
    rw [Pmemkv.cString]
    by_cases hb : b = 0
    · subst hb
      cases text with
      | nil => simp
      | cons c text =>
        simp only [if_true, Option.some.injEq, List.nil_eq, reduceCtorEq, List.cons_append,
          List.cons.injEq, List.mem_cons, not_or, false_iff, not_exists, not_and]
        rintro rest ⟨rfl, _⟩ hc
        exact absurd rfl hc
    · rw [if_neg hb, Option.map_eq_some_iff]
      constructor
      · rintro ⟨t, ht, rfl⟩
        obtain ⟨rest, rfl, hnot⟩ := ih.mp ht
        exact ⟨rest, rfl, by simp [Ne.symm hb, hnot]⟩
      · rintro ⟨rest, heq, hnot⟩
        cases text with
        | nil => exact absurd (List.cons.inj heq).1 hb
        | cons c text =>
          obtain ⟨rfl, rfl⟩ := List.cons.inj heq
          exact ⟨text, ih.mpr ⟨rest, rfl, fun hmem => hnot (List.mem_cons_of_mem _ hmem)⟩, rfl⟩

/-- `dump_all` prints every value up to its first zero byte, if each of them has one. -/
theorem dumpAll_spec (hlist : Linked kv.service kv.bp es) {fuel : Nat} (hfuel : es.length ≤ fuel) :
    kv.dumpAll fuel = es.mapM fun e => (Pmemkv.cString e.bytes).map fun text => (e.key, text) := by
  rw [Pmemkv.dumpAll, dumpWalk_spec hlist hfuel, Option.bind_eq_bind, Option.bind_some,
    List.mapM_map]
  rfl

end SparkNvm.Native
