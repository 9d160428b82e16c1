import SparkNvm.Native.Agreement
import Mathlib.Algebra.Order.BigOperators.Group.List
import Mathlib.Algebra.Order.Group.Nat
import Mathlib.Data.Set.Function

/-!
# The store refines a map of block lists

The abstract store maps a key to the list of the byte blocks put under it.
`store_refines` says that every reader of `pmemkv` answers from that map.

There are three groups.

* The readers on a represented index: `get_spec`, `getValueSize_spec`,
  `getMetaSize_spec` and `getMeta_spec` give the answers in terms of the blocks
  of one key.
* The abstract store and how it follows from the history of live puts.
* The refinement, and that a `put` leaves the answers for other keys alone.
-/

namespace SparkNvm.Native

open Lib

/-! ## The longest run of blocks that fits -/

/-- `pre` is the longest prefix of `blocks` with at most `room` bytes. -/
structure LongestFit (room : Nat) (blocks pre : List (List UInt8)) : Prop where
  isPrefix : pre <+: blocks
  fits : pre.flatten.length ≤ room
  longest : ∀ pre', pre' <+: blocks → pre'.flatten.length ≤ room → pre' <+: pre

theorem fitting_longest (room : Nat) (blocks : List (List UInt8)) :
    LongestFit room blocks (fitting room blocks) := by
  induction blocks generalizing room with
  | nil => exact ⟨List.prefix_rfl, by simp [fitting], fun pre' h _ => h⟩
  | cons b bs ih =>
    rw [fitting]
    by_cases hb : b.length ≤ room
    · rw [if_pos hb]
      obtain ⟨hpre, hfits, hlongest⟩ := ih (room - b.length)
      refine ⟨List.prefix_cons_inj b |>.mpr hpre, ?_, ?_⟩
      · rw [List.flatten_cons, List.length_append]
        omega
      · intro pre' hpre' hfits'
        cases pre' with
        | nil => exact List.nil_prefix
        | cons c cs =>
          obtain ⟨rfl, hcs⟩ := List.cons_prefix_cons.mp hpre'
          rw [List.flatten_cons, List.length_append] at hfits'
          exact List.prefix_cons_inj c |>.mpr (hlongest cs hcs (by omega))
    · rw [if_neg hb]
      refine ⟨List.nil_prefix, by simp, ?_⟩
      intro pre' hpre' hfits'
      cases pre' with
      | nil => exact List.prefix_rfl
      | cons c cs =>
        obtain ⟨rfl, _⟩ := List.cons_prefix_cons.mp hpre'
        rw [List.flatten_cons, List.length_append] at hfits'
        omega

/-- Everything fits into a large enough buffer. -/
theorem LongestFit.eq_all {room : Nat} {blocks pre : List (List UInt8)}
    (h : LongestFit room blocks pre) (hroom : blocks.flatten.length ≤ room) : pre = blocks :=
  List.IsPrefix.eq_of_length h.isPrefix
    (Nat.le_antisymm h.isPrefix.length_le (h.longest blocks List.prefix_rfl hroom).length_le)

/-! ## The readers on a represented index -/

section Readers

variable {fuel : Nat} {kv : Pmemkv} {bs : List Block}
variable {nodes : Nat → List Nat}

/-- The header of the list of a key that has blocks. -/
theorem IndexRep.list_of_ne_nil (hrep : IndexRep kv.index bs nodes) {h : Nat}
    (hne : blocksOf bs h ≠ []) :
    ∃ p l, kv.index.map.lookup h = some p ∧
      ListRep kv.index p l (nodes h) (blocksOf bs h) := by
  cases hl : kv.index.map.lookup h with
  | none => exact absurd ((hrep.lookup_eq_none_iff h).mp hl) hne
  | some p =>
    obtain ⟨l, hlist⟩ := hrep.present h p hl
    exact ⟨p, l, rfl, hlist⟩

theorem totalBytes_blocksOf_le (bs : List Block) (h : Nat) :
    totalBytes (blocksOf bs h) ≤ totalBytes bs :=
  List.Sublist.sum_le_sum (List.filter_sublist.map Block.size) fun _ _ => Nat.zero_le _

theorem get_spec (hash : String → UInt64) (hrep : IndexRep kv.index bs nodes)
    (hoff : ∀ b ∈ bs, b.off ≠ 0) (hfuel : bs.length ≤ fuel) (hbytes : totalBytes bs < 2 ^ 64)
    (k : String) (mb : Pmemkv.MemoryBlock) :
    kv.get hash fuel k mb = some
      (if blocksOf bs (hash k).toNat = [] then -1 else 0,
        { data := storeBytes mb.data 0 (fitting mb.size
            ((blocksOf bs (hash k).toNat).map (blockBytes kv.service.mem))).flatten
          size := mb.size }) := by
  by_cases hempty : blocksOf bs (hash k).toNat = []
  · have hnone := (hrep.lookup_eq_none_iff _).mpr hempty
    simp [Pmemkv.get, hnone, hempty, fitting]
  · obtain ⟨p, l, hlook, hlist⟩ := hrep.list_of_ne_nil hempty
    have hlen : (nodes (hash k).toNat).length ≤ fuel := by
      rw [hlist.length_eq]
      exact Nat.le_trans (length_blocksOf_le bs _) hfuel
    have hwrap : 0 + totalBytes (blocksOf bs (hash k).toNat) < 2 ^ 64 := by
      have hle := totalBytes_blocksOf_le bs (hash k).toNat
      omega
    have hloop := getLoop_spec kv 0 mb hlist.chain hlist.content
      (fun b hb => hoff b (List.mem_of_mem_filter hb)) hlen hwrap (Nat.zero_le _)
    rw [if_neg hempty]
    simp only [Pmemkv.get, hlook, hlist.at_ptr, hloop, Option.bind_eq_bind, Option.bind_some,
      Option.pure_def, Nat.sub_zero]

theorem getValueSize_spec (hash : String → UInt64) (hrep : IndexRep kv.index bs nodes)
    (hbytes : totalBytes bs < 2 ^ 64) (k : String) :
    kv.getValueSize hash k = some
      (if blocksOf bs (hash k).toNat = [] then -1 else 0,
        totalBytes (blocksOf bs (hash k).toNat)) := by
  by_cases hempty : blocksOf bs (hash k).toNat = []
  · have hnone := (hrep.lookup_eq_none_iff _).mpr hempty
    simp [Pmemkv.getValueSize, hnone, hempty, totalBytes]
  · obtain ⟨p, l, hlook, hlist⟩ := hrep.list_of_ne_nil hempty
    have hle := totalBytes_blocksOf_le bs (hash k).toNat
    have hmod : totalBytes (blocksOf bs (hash k).toNat) % 2 ^ 64 =
        totalBytes (blocksOf bs (hash k).toNat) := Nat.mod_eq_of_lt (by omega)
    rw [if_neg hempty]
    simp only [Pmemkv.getValueSize, hlook, hlist.at_ptr, hlist.totalSize, hmod,
      Option.bind_eq_bind, Option.bind_some, Option.pure_def]

theorem getMetaSize_spec (hash : String → UInt64) (hrep : IndexRep kv.index bs nodes)
    (hcount : bs.length < 2 ^ 64) (k : String) :
    kv.getMetaSize hash k = some
      (if blocksOf bs (hash k).toNat = [] then -1 else 0,
        (blocksOf bs (hash k).toNat).length) := by
  by_cases hempty : blocksOf bs (hash k).toNat = []
  · have hnone := (hrep.lookup_eq_none_iff _).mpr hempty
    simp [Pmemkv.getMetaSize, hnone, hempty]
  · obtain ⟨p, l, hlook, hlist⟩ := hrep.list_of_ne_nil hempty
    have hle := length_blocksOf_le bs (hash k).toNat
    have hmod : (blocksOf bs (hash k).toNat).length % 2 ^ 64 =
        (blocksOf bs (hash k).toNat).length := Nat.mod_eq_of_lt (by omega)
    rw [if_neg hempty]
    simp only [Pmemkv.getMetaSize, hlook, hlist.at_ptr, hlist.length, hmod,
      Option.bind_eq_bind, Option.bind_some, Option.pure_def]

/-- What `get_meta` leaves in the caller's struct: nothing new for an absent
key, else the address and the length of every block. -/
structure MetaWritten (bs : List Block) (mm mm' : Pmemkv.MemoryMeta) : Prop where
  absent : bs = [] → mm' = mm
  length : bs ≠ [] → mm'.length = 2 * bs.length
  entries : (List.range (2 * bs.length)).map mm'.entries = bs.flatMap fun b => [b.off, b.size]
  beyond : ∀ j, 2 * bs.length ≤ j → mm'.entries j = mm.entries j

/-- The blocks determine what `get_meta` leaves. -/
theorem MetaWritten.unique {bs : List Block} {mm mm₁ mm₂ : Pmemkv.MemoryMeta}
    (h₁ : MetaWritten bs mm mm₁) (h₂ : MetaWritten bs mm mm₂) : mm₁ = mm₂ := by
  by_cases hbs : bs = []
  · rw [h₁.absent hbs, h₂.absent hbs]
  · have hlen : mm₁.length = mm₂.length := by rw [h₁.length hbs, h₂.length hbs]
    have hentries : mm₁.entries = mm₂.entries := by
      funext j
      by_cases hj : 2 * bs.length ≤ j
      · rw [h₁.beyond j hj, h₂.beyond j hj]
      · have hsame := h₁.entries.trans h₂.entries.symm
        have hmem : j ∈ List.range (2 * bs.length) := List.mem_range.mpr (by omega)
        exact List.map_inj_left.mp hsame j hmem
    cases mm₁
    cases mm₂
    simp_all

theorem getMeta_spec (hash : String → UInt64) (hrep : IndexRep kv.index bs nodes)
    (hfuel : bs.length ≤ fuel) (k : String) (mm : Pmemkv.MemoryMeta) :
    ∃ mm', kv.getMeta hash fuel k mm = some (0, mm') ∧
      MetaWritten (blocksOf bs (hash k).toNat) mm mm' := by
  by_cases hempty : blocksOf bs (hash k).toNat = []
  · have hnone := (hrep.lookup_eq_none_iff _).mpr hempty
    refine ⟨mm, by simp [Pmemkv.getMeta, hnone], fun _ => rfl, fun h => absurd hempty h, ?_,
      fun _ _ => rfl⟩
    simp [hempty]
  · obtain ⟨p, l, hlook, hlist⟩ := hrep.list_of_ne_nil hempty
    have hlen : (nodes (hash k).toNat).length ≤ fuel := by
      rw [hlist.length_eq]
      exact Nat.le_trans (length_blocksOf_le bs _) hfuel
    obtain ⟨mm', hloop, hlength, hentries, hbeyond⟩ :=
      getMetaLoop_spec kv 0 mm hlist.chain hlist.content hlen
    refine ⟨mm', ?_, fun h => absurd h hempty, fun _ => ?_, ?_, fun j hj => ?_⟩
    · simp only [Pmemkv.getMeta, hlook, hlist.at_ptr, hloop, Option.bind_eq_bind,
        Option.bind_some, Option.pure_def]
    · rw [hlength, Nat.zero_add]
    · simpa using hentries
    · exact hbeyond j (.inr (by omega))

end Readers

/-! ## The abstract store -/

/-- A map from keys to lists of byte blocks. -/
abbrev AbsStore : Type := String → Option (List (List UInt8))

/-- No key is present. -/
def AbsStore.empty : AbsStore := fun _ => none

/-- A put appends one block under its key, `free_all` removes every key. -/
def AbsStore.step (st : AbsStore) : Op → AbsStore
  | .put call => Function.update st call.key (some ((st call.key).getD [] ++ [call.value]))
  | .freeAll => AbsStore.empty

/-- The abstract store after the operations. -/
def AbsStore.run (ops : List Op) : AbsStore := ops.foldl AbsStore.step AbsStore.empty

/-- The puts under one key. -/
def callsOf (puts : List PutCall) (k : String) : List PutCall :=
  puts.filter fun call => call.key = k

/-- The blocks under one key. -/
def valuesOf (puts : List PutCall) (k : String) : List (List UInt8) :=
  (callsOf puts k).map PutCall.value

theorem AbsStore.run_snoc (ops : List Op) (op : Op) :
    AbsStore.run (ops ++ [op]) = (AbsStore.run ops).step op := by
  simp [AbsStore.run]

/-- The abstract store maps a key to its live values. -/
theorem AbsStore.run_eq (ops : List Op) (k : String) :
    AbsStore.run ops k =
      if valuesOf (live ops) k = [] then none else some (valuesOf (live ops) k) := by
  induction ops using List.reverseRecOn with
  | nil => rfl
  | append_singleton ops op ih =>
    rw [AbsStore.run_snoc, live_snoc]
    cases op with
    | freeAll => rfl
    | put call =>
      rw [AbsStore.step, liveStep]
      by_cases hk : k = call.key
      · subst hk
        have hvals : valuesOf (live ops ++ [call]) call.key =
            valuesOf (live ops) call.key ++ [call.value] := by
          simp [valuesOf, callsOf]
        rw [Function.update_self, ih, hvals]
        by_cases hnil : valuesOf (live ops) call.key = []
        · simp [hnil]
        · simp [hnil]
      · have hvals : valuesOf (live ops ++ [call]) k = valuesOf (live ops) k := by
          simp [valuesOf, callsOf, Ne.symm hk]
        rw [Function.update_of_ne hk, ih, hvals]

/-! ## Refinement -/

/-- Every reader of `kv` answers for the key `k` as the abstract value
`value` says. -/
structure Answers (hash : String → UInt64) (fuel : Nat) (kv : Pmemkv) (k : String)
    (value : Option (List (List UInt8))) : Prop where
  /-- `get` copies the longest run of blocks that fits, at offset 0 on, and
  writes nothing else. -/
  get : ∀ mb : Pmemkv.MemoryBlock, ∃ mb' pre,
    kv.get hash fuel k mb = some (if value.isSome then 0 else -1, mb') ∧ mb'.size = mb.size ∧
      LongestFit mb.size (value.getD []) pre ∧
      loadBytes mb'.data 0 pre.flatten.length = pre.flatten ∧
      (∀ x, pre.flatten.length ≤ x → mb'.data x = mb.data x) ∧
      ((value.getD []).flatten.length ≤ mb.size → pre = value.getD [])
  getValueSize : kv.getValueSize hash k =
    some (if value.isSome then 0 else -1, (value.getD []).flatten.length)
  getMetaSize : kv.getMetaSize hash k =
    some (if value.isSome then 0 else -1, (value.getD []).length)
  /-- `get_meta` writes two array elements for each block, its address and its
  length; the address holds the block. -/
  getMeta : ∀ mm : Pmemkv.MemoryMeta, ∃ mm' addrs,
    kv.getMeta hash fuel k mm = some (0, mm') ∧
      List.Forall₂ (fun a b => loadBytes kv.service.mem a b.length = b) addrs (value.getD []) ∧
      (List.range (2 * addrs.length)).map mm'.entries =
        (addrs.zip (value.getD [])).flatMap (fun ab => [ab.1, ab.2.length]) ∧
      (∀ j, 2 * addrs.length ≤ j → mm'.entries j = mm.entries j) ∧
      (value.isSome → mm'.length = 2 * addrs.length) ∧ (value = none → mm' = mm)

section Refinement

variable {hash : String → UInt64} {fuel : Nat} {kv : Pmemkv} {puts : List PutCall}
variable {used : Set String}

/-- With a hash that tells the used keys apart, the blocks of the hash are the
puts of the key. -/
theorem blocksOf_history (hinj : Set.InjOn hash used) (hused : ∀ call ∈ puts, call.key ∈ used)
    {k : String} (hk : k ∈ used) :
    blocksOf (puts.map (PutCall.block hash)) (hash k).toNat =
      (callsOf puts k).map (PutCall.block hash) := by
  rw [blocksOf, callsOf, List.filter_map]
  congr 1
  apply List.filter_congr
  intro call hcall
  have hiff : (hash call.key).toNat = (hash k).toNat ↔ call.key = k :=
    ⟨fun h => hinj (hused call hcall) hk (UInt64.toNat_inj.mp h), fun h => by rw [h]⟩
  exact decide_eq_decide.mpr hiff

/-- The index side of a store: it represents the blocks of `puts`, every block
has an address and holds its value, and the counters do not wrap. -/
structure IndexHolds (hash : String → UInt64) (kv : Pmemkv) (puts : List PutCall) : Prop where
  rep : ∃ nodes, IndexRep kv.index (puts.map (PutCall.block hash)) nodes
  bytes : ∀ call ∈ puts, blockBytes kv.service.mem (call.block hash) = call.value
  data_ne : ∀ call ∈ puts, call.ans.data ≠ 0
  total : totalBytes (puts.map (PutCall.block hash)) < 2 ^ 64
  count : (puts.map (PutCall.block hash)).length < 2 ^ 64

theorem Holds.indexHolds (hrep : Holds hash kv puts) : IndexHolds hash kv puts := by
  obtain ⟨nodes, hindex⟩ := hrep.index
  have hsize := hrep.size_le
  rw [map_block_entriesOf] at hindex hsize
  simp only [sizeofBase, sizeofBlockEntry, entriesOf, List.length_map] at hsize
  refine ⟨⟨nodes, hindex⟩, fun call hcall => ?_, fun call hcall => ?_, by omega, ?_⟩
  · exact (hrep.entries _ (List.mem_map_of_mem hcall)).bytes
  · exact (hrep.entries _ (List.mem_map_of_mem hcall)).data_ne
  · rw [List.length_map]
    omega

theorem IndexHolds.off_ne (h : IndexHolds hash kv puts) :
    ∀ b ∈ puts.map (PutCall.block hash), b.off ≠ 0 := by
  rw [List.forall_mem_map]
  exact h.data_ne

theorem IndexHolds.map_blockBytes (h : IndexHolds hash kv puts) (k : String) :
    ((callsOf puts k).map (PutCall.block hash)).map (blockBytes kv.service.mem) =
      valuesOf puts k := by
  rw [List.map_map, valuesOf]
  apply List.map_congr_left
  intro call hcall
  exact h.bytes call (List.mem_of_mem_filter hcall)

theorem totalBytes_map_block (calls : List PutCall) :
    totalBytes (calls.map (PutCall.block hash)) = (calls.map PutCall.value).flatten.length := by
  rw [totalBytes, List.length_flatten, List.map_map, List.map_map]
  rfl

/-- The readers of a store whose index holds `puts`. -/
theorem IndexHolds.answers (h : IndexHolds hash kv puts) (hfuel : puts.length ≤ fuel)
    (hinj : Set.InjOn hash used) (hused : ∀ call ∈ puts, call.key ∈ used) {k : String}
    (hk : k ∈ used) :
    Answers hash fuel kv k
      (if valuesOf puts k = [] then none else some (valuesOf puts k)) := by
  obtain ⟨nodes, hindex⟩ := h.rep
  have hbytes := h.total
  have hcount := h.count
  have hfuel' : (puts.map (PutCall.block hash)).length ≤ fuel := by simpa using hfuel
  have hblocks := blocksOf_history hinj hused hk
  have hvals := h.map_blockBytes k
  generalize hvalue : (if valuesOf puts k = [] then none else some (valuesOf puts k)) = value
  have hgetD : value.getD [] = valuesOf puts k := by
    rw [← hvalue]
    by_cases hnil : valuesOf puts k = [] <;> simp [hnil]
  have hcode : (if blocksOf (puts.map (PutCall.block hash)) (hash k).toNat = [] then (-1 : Int)
      else 0) = if value.isSome then 0 else -1 := by
    rw [← hvalue, hblocks]
    by_cases hnil : callsOf puts k = [] <;> simp [valuesOf, hnil]
  constructor
  · intro mb
    have hfit := fitting_longest mb.size (valuesOf puts k)
    refine ⟨⟨storeBytes mb.data 0 (fitting mb.size (valuesOf puts k)).flatten, mb.size⟩,
      fitting mb.size (valuesOf puts k), ?_, rfl, ?_, ?_, ?_, ?_⟩
    · rw [get_spec hash hindex h.off_ne hfuel' hbytes k mb, hcode, hblocks, hvals]
    · rw [hgetD]
      exact hfit
    · exact loadBytes_storeBytes_self _ _ _
    · intro x hx
      exact storeBytes_of_not_mem _ _ (by omega)
    · rw [hgetD]
      exact hfit.eq_all
  · rw [getValueSize_spec hash hindex hbytes k, hcode, hblocks, totalBytes_map_block, hgetD,
      valuesOf]
  · rw [getMetaSize_spec hash hindex hcount k, hcode, hblocks, hgetD, valuesOf, List.length_map,
      List.length_map]
  · intro mm
    obtain ⟨mm', hrun, hmeta⟩ := getMeta_spec hash hindex hfuel' k mm
    rw [hblocks] at hmeta
    have hlen : ((callsOf puts k).map (PutCall.block hash)).length =
        ((callsOf puts k).map fun call => call.ans.data).length := by simp
    refine ⟨mm', (callsOf puts k).map fun call => call.ans.data, hrun, ?_, ?_, ?_, ?_, ?_⟩
    · rw [hgetD, valuesOf, List.forall₂_map_left_iff, List.forall₂_map_right_iff,
        List.forall₂_same]
      intro call hcall
      exact h.bytes call (List.mem_of_mem_filter hcall)
    · rw [← hlen, hmeta.entries, hgetD, valuesOf, List.zip_map', List.flatMap_map, List.flatMap_map]
      rfl
    · intro j hj
      exact hmeta.beyond j (by rw [hlen]; exact hj)
    · intro hsome
      rw [← hlen]
      apply hmeta.length
      intro hnil
      rw [List.map_eq_nil_iff] at hnil
      rw [← hvalue] at hsome
      simp [valuesOf, hnil] at hsome
    · intro hnone
      apply hmeta.absent
      rw [← hvalue] at hnone
      by_contra hne
      rw [List.map_eq_nil_iff] at hne
      simp [valuesOf, hne] at hnone

/-- The two objects give the same answers for the key `k`. -/
structure SameAnswers (hash : String → UInt64) (fuel : Nat) (kv kv' : Pmemkv) (k : String) :
    Prop where
  get : ∀ mb, kv'.get hash fuel k mb = kv.get hash fuel k mb
  getValueSize : kv'.getValueSize hash k = kv.getValueSize hash k
  getMetaSize : kv'.getMetaSize hash k = kv.getMetaSize hash k
  getMeta : ∀ mm, kv'.getMeta hash fuel k mm = kv.getMeta hash fuel k mm

/-- Stores with the same blocks under the hash of `k` give the same answers for it. -/
theorem sameAnswers_of_blocksOf_eq {kv' : Pmemkv} {puts' : List PutCall}
    (h : IndexHolds hash kv puts) (h' : IndexHolds hash kv' puts')
    (hfuel : puts.length ≤ fuel) (hfuel' : puts'.length ≤ fuel) {k : String} {bs : List Block}
    (hblocks : blocksOf (puts.map (PutCall.block hash)) (hash k).toNat = bs)
    (hblocks' : blocksOf (puts'.map (PutCall.block hash)) (hash k).toNat = bs)
    (hbytes : bs.map (blockBytes kv'.service.mem) = bs.map (blockBytes kv.service.mem)) :
    SameAnswers hash fuel kv kv' k := by
  obtain ⟨nodes, hindex⟩ := h.rep
  obtain ⟨nodes', hindex'⟩ := h'.rep
  have hlen : (puts.map (PutCall.block hash)).length ≤ fuel := by simpa using hfuel
  have hlen' : (puts'.map (PutCall.block hash)).length ≤ fuel := by simpa using hfuel'
  constructor
  · intro mb
    rw [get_spec hash hindex h.off_ne hlen h.total k mb,
      get_spec hash hindex' h'.off_ne hlen' h'.total k mb, hblocks, hblocks', hbytes]
  · rw [getValueSize_spec hash hindex h.total k, getValueSize_spec hash hindex' h'.total k, hblocks,
      hblocks']
  · rw [getMetaSize_spec hash hindex h.count k, getMetaSize_spec hash hindex' h'.count k, hblocks,
      hblocks']
  · intro mm
    obtain ⟨mm₁, hrun₁, hmeta₁⟩ := getMeta_spec hash hindex hlen k mm
    obtain ⟨mm₂, hrun₂, hmeta₂⟩ := getMeta_spec hash hindex' hlen' k mm
    rw [hblocks] at hmeta₁
    rw [hblocks'] at hmeta₂
    rw [hrun₁, hrun₂, hmeta₁.unique hmeta₂]

/-- Stores with the same puts under `k` give the same answers for it. -/
theorem sameAnswers_of_callsOf_eq {kv' : Pmemkv} {puts' : List PutCall}
    (h : IndexHolds hash kv puts) (h' : IndexHolds hash kv' puts')
    (hfuel : puts.length ≤ fuel) (hfuel' : puts'.length ≤ fuel) (hinj : Set.InjOn hash used)
    (hused : ∀ call ∈ puts, call.key ∈ used) (hused' : ∀ call ∈ puts', call.key ∈ used)
    {k : String} (hk : k ∈ used) (heq : callsOf puts' k = callsOf puts k) :
    SameAnswers hash fuel kv kv' k := by
  have hblocks' := blocksOf_history hinj hused' hk
  have hvals' := h'.map_blockBytes k
  rw [heq] at hblocks'
  rw [valuesOf, heq] at hvals'
  refine sameAnswers_of_blocksOf_eq h h' hfuel hfuel' (blocksOf_history hinj hused hk) hblocks' ?_
  rw [hvals', h.map_blockBytes k, valuesOf]

/-- Stores with the same puts give the same answers for every key. -/
theorem sameAnswers_of_puts_eq {kv' : Pmemkv} (h : IndexHolds hash kv puts)
    (h' : IndexHolds hash kv' puts) (hfuel : puts.length ≤ fuel) (k : String) :
    SameAnswers hash fuel kv kv' k := by
  refine sameAnswers_of_blocksOf_eq h h' hfuel hfuel rfl rfl ?_
  apply List.map_congr_left
  intro b hb
  obtain ⟨call, hcall, rfl⟩ := List.mem_map.mp (List.mem_of_mem_filter hb)
  rw [h.bytes call hcall, h'.bytes call hcall]

end Refinement

/-- After every run of `put`s and `free_all`s without failures, every reader
answers from the abstract store, and one more `put` changes no answer for any
other key. -/
theorem store_refines (hash : String → UInt64) (fuel : Nat) (s : Service) (root : Nat)
    (ops : List Op) (used : Set String) (hroot : s.Grants sizeofBase root)
    (hfuel : ops.length < fuel)
    (hok : Admissible (Pmemkv.step hash fuel) (Pmemkv.Ok hash) (Pmemkv.create s root) ops)
    (hinj : Set.InjOn hash used) (hused : ∀ call, Op.put call ∈ ops → call.key ∈ used) :
    ∃ kv, run (Pmemkv.step hash fuel) (Pmemkv.create s root) ops = some kv ∧
      (∀ k ∈ used, Answers hash fuel kv k (AbsStore.run ops k)) ∧
      ∀ call : PutCall, call.key ∈ used →
        kv.NoFailure (hash call.key) call.value.length call.ans →
        ∃ kv', kv.put hash call.key call.value call.value.length call.ans = some (0, kv') ∧
          ∀ k ∈ used, k ≠ call.key → SameAnswers hash fuel kv kv' k := by
  obtain ⟨kv, hrun, hrep⟩ := run_holds hroot (Nat.le_of_lt hfuel) hok
  have hlive : ∀ call ∈ live ops, call.key ∈ used :=
    fun call hcall => hused call (mem_of_mem_live hcall)
  have hlen : (live ops).length < fuel := Nat.lt_of_le_of_lt (length_live_le ops) hfuel
  refine ⟨kv, hrun, ?_, ?_⟩
  · intro k hk
    rw [AbsStore.run_eq]
    exact hrep.indexHolds.answers (Nat.le_of_lt hlen) hinj hlive hk
  · intro call hcall hno
    obtain ⟨kv', hput, hrep'⟩ := exec_spec (.put call) hrep (Nat.le_of_lt hlen) hno
    refine ⟨kv', hput, fun k hk hne => ?_⟩
    have hcalls : callsOf (live ops ++ [call]) k = callsOf (live ops) k := by
      simp [callsOf, Ne.symm hne]
    have hused' : ∀ c ∈ live ops ++ [call], c.key ∈ used := by
      intro c hc
      rcases List.mem_append.mp hc with hc | hc
      · exact hlive c hc
      · rw [List.mem_singleton.mp hc]
        exact hcall
    have hlen' : (live ops ++ [call]).length ≤ fuel := by
      rw [List.length_append, List.length_singleton]
      omega
    exact sameAnswers_of_callsOf_eq hrep.indexHolds hrep'.indexHolds (Nat.le_of_lt hlen) hlen' hinj
      hlive hused' hk hcalls

theorem store_refines_sample :
    ∃ kv, run (Pmemkv.step sampleHash 5) (Pmemkv.create sampleService 4096) sampleOps = some kv ∧
      (∀ k ∈ ({"a", "b"} : Set String), Answers sampleHash 5 kv k (AbsStore.run sampleOps k)) ∧
      ∀ call : PutCall, call.key ∈ ({"a", "b"} : Set String) →
        kv.NoFailure (sampleHash call.key) call.value.length call.ans →
        ∃ kv', kv.put sampleHash call.key call.value call.value.length call.ans = some (0, kv') ∧
          ∀ k ∈ ({"a", "b"} : Set String), k ≠ call.key → SameAnswers sampleHash 5 kv kv' k := by
  refine store_refines sampleHash 5 sampleService 4096 sampleOps {"a", "b"} (by decide) (by decide)
    sampleOps_admissible sampleHash_injOn ?_
  intro call hcall
  have hkeys : ∀ op ∈ sampleOps, ∀ c, op = Op.put c → c.key = "a" ∨ c.key = "b" := by
    intro op hop c hc
    subst hc
    simp only [sampleOps, List.mem_cons, List.not_mem_nil, or_false, Op.put.injEq,
      reduceCtorEq, false_or] at hop
    rcases hop with rfl | rfl | rfl
    · exact .inl rfl
    · exact .inr rfl
    · exact .inl rfl
  exact hkeys _ hcall call rfl

end SparkNvm.Native
