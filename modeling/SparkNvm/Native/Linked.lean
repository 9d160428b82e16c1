import SparkNvm.Native.Index

/-!
# The persistent list

`Linked s bp es` says that the persistent list has the entries `es`: the list
from `bp->head` visits exactly their addresses and ends at `bp->tail`, every
entry has its header fields and its data in memory, and the ranges involved
are apart.  The byte counter is not part of it.

* `Linked.frame`: the list does not depend on anything outside of its own
  ranges, nor on the byte counter.
* `Linked.link`: storing the address of a complete entry behind the tail and
  then into `bp->tail` appends it.
* `Linked.size_le`: the address space bounds a list.
-/

namespace SparkNvm.Native

open Lib

/-! ## The service in terms of the flat memory -/

namespace Service

variable (s : Service) (a v size : Nat)

@[simp] theorem tbpGet_eq : s.tbpGet a = load64 s.mem a := rfl

theorem tbpSet_true : s.tbpSet true a v = ⟨store64 s.mem a v, s.regions⟩ := rfl

@[simp] theorem tbpSet_true_mem : (s.tbpSet true a v).mem = store64 s.mem a v := rfl

@[simp] theorem tbpSet_regions (ok : Bool) : (s.tbpSet ok a v).regions = s.regions := by
  cases ok <;> rfl

@[simp] theorem tbpStore_true_mem (bs : List UInt8) :
    (s.tbpStore true a bs).mem = storeBytes s.mem a bs := rfl

@[simp] theorem tbpStore_regions (ok : Bool) (bs : List UInt8) :
    (s.tbpStore ok a bs).regions = s.regions := by
  cases ok <;> rfl

theorem storeAt_regions {s s' : Service} {ok : Bool} {a : Nat} {bs : List UInt8}
    (h : s.storeAt ok a bs = some s') : s'.regions = s.regions := by
  unfold storeAt at h
  split at h
  · exact absurd h (by simp)
  · rw [← Option.some.inj h, tbpStore_regions]

@[simp] theorem tbpAdd_true_mem :
    (s.tbpAdd true a v).mem = store64 s.mem a ((load64 s.mem a + v) % 2 ^ 64) := rfl

@[simp] theorem tbpAdd_regions (ok : Bool) : (s.tbpAdd ok a v).regions = s.regions :=
  tbpStore_regions s a ok _

@[simp] theorem tbpSub_true_mem :
    (s.tbpSub true a v).mem = store64 s.mem a (sub64 (load64 s.mem a) v) := rfl

@[simp] theorem tbpSub_regions (ok : Bool) : (s.tbpSub ok a v).regions = s.regions :=
  tbpStore_regions s a ok _

@[simp] theorem tbpAlloc_mem : (s.tbpAlloc size a).mem = s.mem := by
  unfold tbpAlloc
  split <;> rfl

theorem tbpAlloc_regions (h : a ≠ 0) :
    (s.tbpAlloc size a).regions = ⟨a, size⟩ :: s.regions := by
  rw [tbpAlloc, if_neg h]

theorem deref_of_ne (h : a ≠ 0) : s.deref a v = some (load64 s.mem (a + v)) := by
  rw [deref, if_neg h]

end Service

/-! ## Entries -/

/-- One entry of the persistent list, as `put` left it. -/
structure Entry where
  addr : Nat
  data : Nat
  key : Nat
  bytes : List UInt8
  deriving DecidableEq, Repr

/-- The range of the `block_entry` struct. -/
def Entry.header (e : Entry) : Region := ⟨e.addr, sizeofBlockEntry⟩

/-- The range of the value. -/
def Entry.payload (e : Entry) : Region := ⟨e.data, e.bytes.length⟩

/-- The `next` field is the first word of the struct. -/
theorem Entry.header_has_next {e : Entry} {x : Nat} (h : e.addr ≤ x ∧ x < e.addr + 8) :
    e.header.Has x :=
  ⟨h.1, Nat.lt_trans h.2 (Nat.add_lt_add_left (show 8 < 32 by decide) e.addr)⟩

theorem Entry.header_has_field {e : Entry} {x : Nat} (hlo : e.addr + 8 ≤ x)
    (hhi : x < e.addr + 32) : e.header.Has x :=
  ⟨Nat.le_trans (Nat.le_add_right e.addr 8) hlo, hhi⟩

theorem Entry.next_of_agree {m m' : Mem} {e : Entry}
    (h : ∀ x, e.header.Has x → m' x = m x) : load64 m' e.addr = load64 m e.addr :=
  load64_congr fun x hlo hhi => h x (header_has_next ⟨hlo, hhi⟩)

/-- The block that the index keeps for the entry. -/
def Entry.block (e : Entry) : Block := ⟨e.key, e.data, e.bytes.length⟩

/-- The root struct. -/
def baseRegion (bp : Nat) : Region := ⟨bp, sizeofBase⟩

/-- The ranges that a store with entries `es` owns. -/
def ownedRegions (bp : Nat) (es : List Entry) : List Region :=
  baseRegion bp :: es.flatMap fun e => [e.header, e.payload]

/-- The header fields and the value of the entry are in memory.  The `next`
field is not part of it: a later `put` changes it. -/
structure EntryIn (m : Mem) (e : Entry) : Prop where
  key : load64 m (keyAddr e.addr) = e.key
  size : load64 m (sizeAddr e.addr) = e.bytes.length
  data : load64 m (dataAddr e.addr) = e.data
  bytes : loadBytes m e.data e.bytes.length = e.bytes
  data_ne : e.data ≠ 0

/-- An entry stays in memory when its header past the `next` field and its
value are not written. -/
theorem EntryIn.frame {m m' : Mem} {e : Entry} (h : EntryIn m e)
    (hheader : ∀ x, e.addr + 8 ≤ x → x < e.addr + 32 → m' x = m x)
    (hpayload : ∀ x, e.payload.Has x → m' x = m x) : EntryIn m' e where
  key := by
    rw [← h.key]
    exact load64_congr fun x hx hx' => hheader x (by unfold keyAddr at *; omega)
      (by unfold keyAddr at *; omega)
  size := by
    rw [← h.size]
    exact load64_congr fun x hx hx' => hheader x (by unfold sizeAddr at *; omega)
      (by unfold sizeAddr at *; omega)
  data := by
    rw [← h.data]
    exact load64_congr fun x hx hx' => hheader x (by unfold dataAddr at *; omega)
      (by unfold dataAddr at *; omega)
  bytes := by
    have hsame : loadBytes m' e.data e.bytes.length = loadBytes m e.data e.bytes.length :=
      loadBytes_of_agree hpayload (Nat.le_refl _) (Nat.le_refl _)
    rw [hsame]
    exact h.bytes
  data_ne := h.data_ne

/-! ## The list -/

/-- No two of the ranges overlap: the root, the entries, the values. -/
structure Layout (bp : Nat) (es : List Entry) : Prop where
  base_header : ∀ e ∈ es, Apart (baseRegion bp) e.header
  base_payload : ∀ e ∈ es, Apart (baseRegion bp) e.payload
  header_payload : ∀ e ∈ es, ∀ e' ∈ es, Apart e.header e'.payload
  headers : es.Pairwise fun e e' => Apart e.header e'.header
  payloads : es.Pairwise fun e e' => Apart e.payload e'.payload

/-- The persistent list from the root `bp` on has exactly the entries `es`. -/
structure Linked (s : Service) (bp : Nat) (es : List Entry) : Prop where
  bp_ne : bp ≠ 0
  layout : Layout bp es
  owned : ∀ r ∈ ownedRegions bp es, r ∈ s.regions
  bounded : ∀ r ∈ ownedRegions bp es, r.base + r.size ≤ 2 ^ 64
  chain : PtrChain (load64 s.mem) (load64 s.mem (headAddr bp)) (es.map Entry.addr)
  tail : load64 s.mem (tailAddr bp) = (es.getLast?.map Entry.addr).getD 0
  entries : ∀ e ∈ es, EntryIn s.mem e

theorem mem_ownedRegions {bp : Nat} {es : List Entry} {r : Region} :
    r ∈ ownedRegions bp es ↔ r = baseRegion bp ∨ ∃ e ∈ es, r = e.header ∨ r = e.payload := by
  simp [ownedRegions]

/-- Entries at different addresses have apart headers. -/
theorem Layout.headers_of_ne {bp : Nat} {es : List Entry} (h : Layout bp es) {e e' : Entry}
    (he : e ∈ es) (he' : e' ∈ es) (hne : e.addr ≠ e'.addr) : Apart e.header e'.header := by
  have : Std.Symm fun e e' : Entry => Apart e.header e'.header := ⟨fun _ _ hap => hap.symm⟩
  exact h.headers.forall he he' fun heq => hne (congrArg Entry.addr heq)

/-- A fresh entry extends the layout. -/
theorem Layout.snoc {bp : Nat} {es : List Entry} {e : Entry} (h : Layout bp es)
    (hheader : ∀ r ∈ ownedRegions bp es, Apart e.header r)
    (hpayload : ∀ r ∈ ownedRegions bp es, Apart e.payload r)
    (hself : Apart e.payload e.header) : Layout bp (es ++ [e]) := by
  have hbase : baseRegion bp ∈ ownedRegions bp es := mem_ownedRegions.mpr (.inl rfl)
  have hhdr : ∀ e' ∈ es, e'.header ∈ ownedRegions bp es :=
    fun e' he' => mem_ownedRegions.mpr (.inr ⟨e', he', .inl rfl⟩)
  have hpay : ∀ e' ∈ es, e'.payload ∈ ownedRegions bp es :=
    fun e' he' => mem_ownedRegions.mpr (.inr ⟨e', he', .inr rfl⟩)
  have hcases : ∀ e' ∈ es ++ [e], e' ∈ es ∨ e' = e := by
    intro e' he'
    simpa using he'
  constructor
  · intro e' he'
    rcases hcases e' he' with hold | rfl
    · exact h.base_header e' hold
    · exact (hheader _ hbase).symm
  · intro e' he'
    rcases hcases e' he' with hold | rfl
    · exact h.base_payload e' hold
    · exact (hpayload _ hbase).symm
  · intro e₁ he₁ e₂ he₂
    rcases hcases e₁ he₁ with hold₁ | rfl
    · rcases hcases e₂ he₂ with hold₂ | rfl
      · exact h.header_payload e₁ hold₁ e₂ hold₂
      · exact (hpayload _ (hhdr e₁ hold₁)).symm
    · rcases hcases e₂ he₂ with hold₂ | rfl
      · exact hheader _ (hpay e₂ hold₂)
      · exact hself.symm
  · refine List.pairwise_append.mpr ⟨h.headers, by simp, ?_⟩
    intro e₁ he₁ e₂ he₂
    rw [List.mem_singleton.mp he₂]
    exact (hheader _ (hhdr e₁ he₁)).symm
  · refine List.pairwise_append.mpr ⟨h.payloads, by simp, ?_⟩
    intro e₁ he₁ e₂ he₂
    rw [List.mem_singleton.mp he₂]
    exact (hpayload _ (hpay e₁ he₁)).symm

theorem ownedRegions_snoc (bp : Nat) (es : List Entry) (e : Entry) :
    ownedRegions bp (es ++ [e]) = ownedRegions bp es ++ [e.header, e.payload] := by
  simp [ownedRegions]

theorem base_mem_owned (bp : Nat) (es : List Entry) : baseRegion bp ∈ ownedRegions bp es :=
  mem_ownedRegions.mpr (.inl rfl)

theorem header_mem_owned {bp : Nat} {es : List Entry} {e : Entry} (he : e ∈ es) :
    e.header ∈ ownedRegions bp es :=
  mem_ownedRegions.mpr (.inr ⟨e, he, .inl rfl⟩)

theorem payload_mem_owned {bp : Nat} {es : List Entry} {e : Entry} (he : e ∈ es) :
    e.payload ∈ ownedRegions bp es :=
  mem_ownedRegions.mpr (.inr ⟨e, he, .inr rfl⟩)

/-- The byte counter is a word of the root. -/
theorem base_has_written {bp x : Nat} (h : writtenAddr bp ≤ x ∧ x < writtenAddr bp + 8) :
    (baseRegion bp).Has x :=
  ⟨Nat.le_trans (Nat.le_add_right bp 56) h.1, h.2⟩

section

variable {s : Service} {bp : Nat} {es : List Entry}

/-- The tail word is null for an empty list and the last entry otherwise. -/
theorem Linked.tail_cases (h : Linked s bp es) :
    (es = [] ∧ load64 s.mem (tailAddr bp) = 0) ∨
      ∃ l ∈ es, es.getLast? = some l ∧ load64 s.mem (tailAddr bp) = l.addr ∧ l.addr ≠ 0 := by
  cases hl : es.getLast? with
  | none =>
    have htail := h.tail
    rw [hl] at htail
    exact .inl ⟨List.getLast?_eq_none_iff.mp hl, htail⟩
  | some l =>
    have htail := h.tail
    rw [hl] at htail
    have hmem : l ∈ es := List.mem_of_getLast? hl
    exact .inr ⟨l, hmem, rfl, htail, h.chain.ne_zero _ (List.mem_map_of_mem hmem)⟩

/-- Frame rule: the list is the same in a memory that agrees on its ranges,
the byte counter apart. -/
theorem Linked.frame {s' : Service} (h : Linked s bp es)
    (hmem : ∀ r ∈ ownedRegions bp es, ∀ x, r.Has x →
      ¬(writtenAddr bp ≤ x ∧ x < writtenAddr bp + 8) → s'.mem x = s.mem x)
    (hreg : ∀ r ∈ s.regions, r ∈ s'.regions) : Linked s' bp es := by
  have hroot : ∀ a, bp ≤ a → a + 8 ≤ bp + 56 → load64 s'.mem a = load64 s.mem a := by
    intro a hlo hhi
    refine load64_congr fun x hx hx' => hmem _ (base_mem_owned bp es) x ?_ ?_
    · have hin : bp ≤ x ∧ x < bp + 64 := by omega
      exact hin
    · unfold writtenAddr
      omega
  have hheader : ∀ e ∈ es, ∀ x, e.header.Has x → s'.mem x = s.mem x := by
    intro e he x hx
    refine hmem _ (header_mem_owned he) x hx fun hw => ?_
    exact (h.layout.base_header e he).symm.not_has hx (base_has_written hw)
  have hpayload : ∀ e ∈ es, ∀ x, e.payload.Has x → s'.mem x = s.mem x := by
    intro e he x hx
    refine hmem _ (payload_mem_owned he) x hx fun hw => ?_
    exact (h.layout.base_payload e he).symm.not_has hx (base_has_written hw)
  constructor
  · exact h.bp_ne
  · exact h.layout
  · exact fun r hr => hreg r (h.owned r hr)
  · exact h.bounded
  · rw [hroot _ (by unfold headAddr; omega) (by unfold headAddr; omega)]
    refine h.chain.congr fun x hx => ?_
    obtain ⟨e, he, rfl⟩ := List.mem_map.mp hx
    exact Entry.next_of_agree (hheader e he)
  · rw [hroot _ (by unfold tailAddr; omega) (by unfold tailAddr; omega)]
    exact h.tail
  · intro e he
    exact (h.entries e he).frame
      (fun x hlo hhi => hheader e he x (Entry.header_has_field hlo hhi)) (hpayload e he)

end

/-! ## Linking one more entry -/

/-- The word that `put` links the entry through: `bp->head` for an empty list,
the `next` field of the old tail otherwise. -/
def linkAddr (m : Mem) (bp : Nat) : Nat :=
  if load64 m (tailAddr bp) = 0 then headAddr bp else nextAddr (load64 m (tailAddr bp))

/-- The two stores that link an entry. -/
def linkMem (m : Mem) (bp bep : Nat) : Mem :=
  store64 (store64 m (linkAddr m bp) bep) (tailAddr bp) bep

/-- The entry `e` is complete, its own `next` is null, and its ranges are apart
from everything that the list owns. -/
structure Linkable (s : Service) (bp : Nat) (es : List Entry) (e : Entry) : Prop where
  ne_zero : e.addr ≠ 0
  lt : e.addr < 2 ^ 64
  entry : EntryIn s.mem e
  next : load64 s.mem (nextAddr e.addr) = 0
  header : ∀ r ∈ ownedRegions bp es, Apart e.header r
  payload : ∀ r ∈ ownedRegions bp es, Apart e.payload r
  self : Apart e.payload e.header
  owned : e.header ∈ s.regions ∧ e.payload ∈ s.regions
  bounded : e.addr + sizeofBlockEntry ≤ 2 ^ 64 ∧ e.data + e.bytes.length ≤ 2 ^ 64

section

variable {s : Service} {bp : Nat} {es : List Entry}

/-- The word that `put` links through is `bp->head` or the `next` field of the
last entry. -/
theorem Linked.linkAddr_cases (h : Linked s bp es) :
    (es = [] ∧ linkAddr s.mem bp = headAddr bp) ∨
      ∃ l ∈ es, es.getLast? = some l ∧ linkAddr s.mem bp = l.addr := by
  rcases h.tail_cases with ⟨hnil, ht⟩ | ⟨l, hmem, hl, ht, h0⟩
  · refine .inl ⟨hnil, ?_⟩
    rw [linkAddr, ht, if_pos rfl]
  · refine .inr ⟨l, hmem, hl, ?_⟩
    rw [linkAddr, ht, if_neg h0]
    rfl

theorem linkMem_tail (m : Mem) (bp : Nat) {bep : Nat} (hlt : bep < 2 ^ 64) :
    load64 (linkMem m bp bep) (tailAddr bp) = bep := by
  rw [linkMem, load64_store64_self]
  exact Nat.mod_eq_of_lt hlt

theorem linkMem_head (m : Mem) (bp bep : Nat) :
    load64 (linkMem m bp bep) (headAddr bp) =
      load64 (store64 m (linkAddr m bp) bep) (headAddr bp) :=
  load64_store64_of_disjoint _ (by unfold headAddr tailAddr; omega)

theorem linkMem_of_not_base (m : Mem) {bp bep x : Nat} (hx : ¬(baseRegion bp).Has x) :
    linkMem m bp bep x = store64 m (linkAddr m bp) bep x := by
  have hx' : ¬(bp ≤ x ∧ x < bp + 64) := hx
  exact store64_of_not_mem _ _ (by unfold tailAddr; omega)

/-- Linking touches the root and the `next` field of the old tail only. -/
theorem Linked.linkMem_miss (h : Linked s bp es) {bep x : Nat} (hx : ¬(baseRegion bp).Has x)
    (hlast : ∀ l, es.getLast? = some l → ¬(l.addr ≤ x ∧ x < l.addr + 8)) :
    linkMem s.mem bp bep x = s.mem x := by
  rw [linkMem_of_not_base _ hx]
  apply store64_of_not_mem
  have hx' : ¬(bp ≤ x ∧ x < bp + 64) := hx
  rcases h.linkAddr_cases with ⟨_, hlink⟩ | ⟨l, _, hl, hlink⟩
  · rw [hlink]
    unfold headAddr
    omega
  · rw [hlink]
    exact hlast l hl

/-- Linking leaves the byte counter alone. -/
theorem Linked.linkMem_written (h : Linked s bp es) (bep : Nat) :
    load64 (linkMem s.mem bp bep) (writtenAddr bp) = load64 s.mem (writtenAddr bp) := by
  rw [linkMem, load64_store64_of_disjoint _ (by unfold writtenAddr tailAddr; omega)]
  rcases h.linkAddr_cases with ⟨_, hlink⟩ | ⟨l, hmem, _, hlink⟩
  · rw [hlink]
    exact load64_store64_of_disjoint _ (by unfold writtenAddr headAddr; omega)
  · rw [hlink]
    have hap : Apart l.header (baseRegion bp) := (h.layout.base_header l hmem).symm
    have hin : l.addr + 8 ≤ l.addr + 32 := by omega
    have hagree : ∀ x, (baseRegion bp).Has x → store64 s.mem l.addr bep x = s.mem x :=
      fun x hx => store64_of_apart s.mem hap (Nat.le_refl l.addr) hin hx
    exact load64_of_agree hagree (Nat.le_add_right bp 56) (Nat.le_refl (bp + 64))

/-- An old entry keeps every word except the one that is linked through. -/
theorem Linked.linkMem_keep (h : Linked s bp es) {bep : Nat} {e : Entry} (he : e ∈ es) {x : Nat}
    (hx : e.header.Has x) (hword : ∀ l, es.getLast? = some l → e.addr = l.addr → e.addr + 8 ≤ x) :
    linkMem s.mem bp bep x = s.mem x := by
  refine h.linkMem_miss ((h.layout.base_header e he).symm.not_has hx) ?_
  intro l hl hin
  by_cases heq : e.addr = l.addr
  · have hle := hword l hl heq
    omega
  · have hap := h.layout.headers_of_ne he (List.mem_of_getLast? hl) heq
    exact hap.not_has hx (Entry.header_has_next hin)

/-- A range that is apart from everything the list owns is not touched. -/
theorem Linked.linkMem_apart (h : Linked s bp es) {bep : Nat} {r : Region}
    (hr : ∀ r' ∈ ownedRegions bp es, Apart r r') {x : Nat} (hx : r.Has x) :
    linkMem s.mem bp bep x = s.mem x := by
  refine h.linkMem_miss ((hr _ (base_mem_owned bp es)).not_has hx) ?_
  intro l hl hin
  exact (hr _ (header_mem_owned (List.mem_of_getLast? hl))).not_has hx
    (Entry.header_has_next hin)

/-- The chain after linking.  The `next` of the last entry, or the head of an
empty list, now points to the new entry; every other link is as before. -/
theorem Linked.chain_link (h : Linked s bp es) {e : Entry} (hlink : Linkable s bp es e) :
    PtrChain (load64 (linkMem s.mem bp e.addr)) (load64 (linkMem s.mem bp e.addr) (headAddr bp))
      (es.map Entry.addr ++ [e.addr]) := by
  have hnodup : (es.map Entry.addr).Nodup := h.chain.nodup
  have hchain : PtrChain (load64 (linkMem s.mem bp e.addr))
      (if es.map Entry.addr = [] then e.addr else load64 s.mem (headAddr bp))
      (es.map Entry.addr ++ [e.addr]) := by
    apply h.chain.snoc hlink.ne_zero
    · have hsame : load64 (linkMem s.mem bp e.addr) e.addr = load64 s.mem e.addr :=
        Entry.next_of_agree fun x hx => h.linkMem_apart hlink.header hx
      rw [hsame]
      exact hlink.next
    · intro t ht
      rw [List.getLast?_map, Option.map_eq_some_iff] at ht
      obtain ⟨l, hl, rfl⟩ := ht
      have hmem := List.mem_of_getLast? hl
      have hword : load64 (linkMem s.mem bp e.addr) l.addr =
          load64 (store64 s.mem (linkAddr s.mem bp) e.addr) l.addr :=
        Entry.next_of_agree fun x hx =>
          linkMem_of_not_base _ ((h.layout.base_header l hmem).symm.not_has hx)
      rcases h.linkAddr_cases with ⟨hnil, _⟩ | ⟨l', _, hl', haddr⟩
      · rw [hnil] at hl
        simp at hl
      · have hll : l = l' := Option.some.inj (hl.symm.trans hl')
        rw [hword, haddr, hll, load64_store64_self]
        exact Nat.mod_eq_of_lt hlink.lt
    · intro a ha
      rw [← List.map_dropLast, List.mem_map] at ha
      obtain ⟨e', he', rfl⟩ := ha
      have hmem : e' ∈ es := List.mem_of_mem_dropLast he'
      refine Entry.next_of_agree fun x hx => h.linkMem_keep hmem hx fun l hl heq => ?_
      have hsplit : es.dropLast ++ [l] = es := List.dropLast_append_getLast? _ hl
      rw [← hsplit, List.map_append, List.nodup_append] at hnodup
      exact absurd heq (hnodup.2.2 _ (List.mem_map_of_mem he') _ (by simp))
  rw [linkMem_head]
  rcases h.linkAddr_cases with ⟨hnil, haddr⟩ | ⟨l, hmem, _, haddr⟩
  · rw [if_pos (by rw [hnil]; rfl)] at hchain
    rw [haddr, load64_store64_self, Nat.mod_eq_of_lt hlink.lt]
    exact hchain
  · rw [if_neg (List.ne_nil_of_mem (List.mem_map_of_mem hmem))] at hchain
    have hap : Apart l.header (baseRegion bp) := (h.layout.base_header l hmem).symm
    have hin : l.addr + 8 ≤ l.addr + 32 := by omega
    have hagree : ∀ x, (baseRegion bp).Has x → store64 s.mem l.addr e.addr x = s.mem x :=
      fun x hx => store64_of_apart s.mem hap (Nat.le_refl l.addr) hin hx
    have hhead : load64 (store64 s.mem l.addr e.addr) (headAddr bp) =
        load64 s.mem (headAddr bp) :=
      load64_of_agree hagree (Nat.le_refl _) (Nat.add_le_add_left (show 8 ≤ 64 by decide) bp)
    rw [haddr, hhead]
    exact hchain

/-- Linking a complete entry appends it to the list. -/
theorem Linked.link (h : Linked s bp es) {e : Entry} (hlink : Linkable s bp es e) :
    Linked ⟨linkMem s.mem bp e.addr, s.regions⟩ bp (es ++ [e]) := by
  have hcases : ∀ r ∈ ownedRegions bp (es ++ [e]),
      r ∈ ownedRegions bp es ∨ r = e.header ∨ r = e.payload := by
    intro r hr
    rw [ownedRegions_snoc, List.mem_append] at hr
    simpa using hr
  constructor
  · exact h.bp_ne
  · exact h.layout.snoc hlink.header hlink.payload hlink.self
  · intro r hr
    rcases hcases r hr with hr | rfl | rfl
    · exact h.owned r hr
    · exact hlink.owned.1
    · exact hlink.owned.2
  · intro r hr
    rcases hcases r hr with hr | rfl | rfl
    · exact h.bounded r hr
    · exact hlink.bounded.1
    · exact hlink.bounded.2
  · rw [List.map_append, List.map_singleton]
    exact h.chain_link hlink
  · rw [List.getLast?_concat, Option.map_some, Option.getD_some]
    exact linkMem_tail s.mem bp hlink.lt
  · intro e' he'
    rcases List.mem_append.mp he' with hold | hlast
    · refine (h.entries e' hold).frame (fun x hlo hhi => ?_) fun x hx => ?_
      · exact h.linkMem_keep hold (Entry.header_has_field hlo hhi) fun _ _ _ => hlo
      · refine h.linkMem_miss ((h.layout.base_payload e' hold).symm.not_has hx) ?_
        intro l hl hin
        have hap := h.layout.header_payload l (List.mem_of_getLast? hl) e' hold
        exact hap.symm.not_has hx (Entry.header_has_next hin)
    · rw [List.mem_singleton.mp hlast]
      refine hlink.entry.frame (fun x hlo hhi => ?_) fun x hx => h.linkMem_apart hlink.payload hx
      exact h.linkMem_apart hlink.header (Entry.header_has_field hlo hhi)

/-! ## The address space bounds a list -/

/-- The root, the entries and the values share no address, so together they
fit into the address space. -/
theorem Linked.size_le (hrep : Linked s bp es) :
    sizeofBase + sizeofBlockEntry * es.length + totalBytes (es.map Entry.block) ≤ 2 ^ 64 := by
  let rs := baseRegion bp :: (es.map Entry.header ++ es.map Entry.payload)
  have hsub : ∀ r ∈ rs, r ∈ ownedRegions bp es := by
    intro r hr
    simp only [rs, List.mem_cons, List.mem_append, List.mem_map] at hr
    rw [mem_ownedRegions]
    rcases hr with rfl | ⟨e, he, rfl⟩ | ⟨e, he, rfl⟩
    · exact .inl rfl
    · exact .inr ⟨e, he, .inl rfl⟩
    · exact .inr ⟨e, he, .inr rfl⟩
  have hpair : rs.Pairwise Apart := by
    refine List.pairwise_cons.mpr ⟨?_, List.pairwise_append.mpr ⟨?_, ?_, ?_⟩⟩
    · intro r hr
      rcases List.mem_append.mp hr with hr | hr
      · obtain ⟨e, he, rfl⟩ := List.mem_map.mp hr
        exact hrep.layout.base_header e he
      · obtain ⟨e, he, rfl⟩ := List.mem_map.mp hr
        exact hrep.layout.base_payload e he
    · exact List.pairwise_map.mpr hrep.layout.headers
    · exact List.pairwise_map.mpr hrep.layout.payloads
    · intro r hr r' hr'
      obtain ⟨e, he, rfl⟩ := List.mem_map.mp hr
      obtain ⟨e', he', rfl⟩ := List.mem_map.mp hr'
      exact hrep.layout.header_payload e he e' he'
  have hsum := sum_size_le_of_pairwise_apart hpair fun r hr => hrep.bounded r (hsub r hr)
  have hhdr : (es.map (Region.size ∘ Entry.header)).sum = sizeofBlockEntry * es.length := by
    rw [show Region.size ∘ Entry.header = fun _ => sizeofBlockEntry from rfl, List.map_const',
      List.sum_replicate_nat, Nat.mul_comm]
  have hpay : (es.map (Region.size ∘ Entry.payload)).sum = totalBytes (es.map Entry.block) := by
    rw [totalBytes, List.map_map]
    rfl
  simp only [rs, List.map_cons, List.map_append, List.map_map, List.sum_cons, List.sum_append,
    hhdr, hpay] at hsum
  rw [Nat.add_assoc]
  exact hsum

end

end SparkNvm.Native
