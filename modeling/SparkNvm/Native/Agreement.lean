import SparkNvm.Native.History

/-!
# The persistent list and the volatile index

`pmemkv` keeps the same data twice: as a linked list of `block_entry`s from
`bp->head` on, and as an index of `block_meta` lists.  The list is what a
restart could rebuild the index from, by running `update_meta` over it.

* `Index.view` is what the index says about one key.
* `replay_spec`: running `update_meta` over the entries of a list, from an
  empty index, represents the blocks of the list.
* `list_index_agree`: in every state of a run the two agree.
-/

namespace SparkNvm.Native

open Lib

/-! ## What the index says -/

/-- The blocks of a key in list order, with the two counters of its list. -/
def Index.view (ix : Index) (fuel h : Nat) : Option (List (Nat × Nat) × Nat × Nat) := do
  let p ← ix.map.lookup h
  let l ← ix.lists p
  let nodes ← walk (nextOf ix.metas) fuel l.head
  return (nodes.filterMap (blockAt ix.metas), l.totalSize, l.length)

/-- The view of a represented index. -/
def viewOf (bs : List Block) (h : Nat) : Option (List (Nat × Nat) × Nat × Nat) :=
  if blocksOf bs h = [] then
    none
  else
    some ((blocksOf bs h).map fun b => (b.off, b.size), totalBytes (blocksOf bs h) % 2 ^ 64,
      (blocksOf bs h).length % 2 ^ 64)

section

variable {ix : Index} {bs : List Block} {nodes : Nat → List Nat} {fuel : Nat}

/-- A key is in the map exactly when it has a block. -/
theorem IndexRep.lookup_eq_none_iff (hrep : IndexRep ix bs nodes) (h : Nat) :
    ix.map.lookup h = none ↔ blocksOf bs h = [] := by
  constructor
  · intro hl
    exact (hrep.absent h hl).1
  · intro hempty
    cases hl : ix.map.lookup h with
    | none => rfl
    | some p =>
      obtain ⟨l, hlist⟩ := hrep.present h p hl
      have hlen := hlist.length_eq
      rw [hempty, List.length_nil, List.length_eq_zero_iff] at hlen
      have hlast := hlist.last
      rw [hlen] at hlast
      simp at hlast

theorem length_blocksOf_le (bs : List Block) (h : Nat) : (blocksOf bs h).length ≤ bs.length :=
  List.length_filter_le _ _

theorem IndexRep.view_eq (hrep : IndexRep ix bs nodes) (hfuel : bs.length ≤ fuel) (h : Nat) :
    ix.view fuel h = viewOf bs h := by
  cases hl : ix.map.lookup h with
  | none =>
    have hempty := (hrep.lookup_eq_none_iff h).mp hl
    simp [Index.view, viewOf, hl, hempty]
  | some p =>
    obtain ⟨l, hlist⟩ := hrep.present h p hl
    have hne : blocksOf bs h ≠ [] := by
      intro hempty
      rw [(hrep.lookup_eq_none_iff h).mpr hempty] at hl
      simp at hl
    have hlen : (nodes h).length ≤ fuel := by
      rw [hlist.length_eq]
      exact Nat.le_trans (length_blocksOf_le bs h) hfuel
    have hwalk : walk (nextOf ix.metas) fuel l.head = some (nodes h) :=
      walk_eq_some_iff.mpr ⟨hlist.chain, hlen⟩
    have hblocks : (nodes h).filterMap (blockAt ix.metas) =
        (blocksOf bs h).map fun b => (b.off, b.size) := by
      have hfm : (nodes h).filterMap (blockAt ix.metas) =
          ((nodes h).map (blockAt ix.metas)).filterMap id := by
        rw [List.filterMap_map]
        rfl
      rw [hfm, hlist.content, List.filterMap_map]
      simp
    simp only [Index.view, hl, hlist.at_ptr, hwalk, hblocks, hlist.totalSize, hlist.length,
      Option.bind_eq_bind, Option.bind_some, Option.pure_def, viewOf, if_neg hne]

/-- The sizes of all lists add up to the size of all blocks. -/
theorem IndexRep.sum_totalSize (hrep : IndexRep ix bs nodes) :
    (ix.map.map fun q => ((ix.lists q.2).map BlockMetaList.totalSize).getD 0).sum % 2 ^ 64 =
      totalBytes bs % 2 ^ 64 := by
  have hone : ∀ q ∈ ix.map, ((ix.lists q.2).map BlockMetaList.totalSize).getD 0 =
      totalBytes (blocksOf bs q.1) % 2 ^ 64 := by
    intro q hq
    obtain ⟨l, hlist⟩ := hrep.present q.1 q.2 (lookup_of_mem hrep.keys hq)
    rw [hlist.at_ptr, Option.map_some, Option.getD_some, hlist.totalSize]
  have hsum : (ix.map.map fun q => totalBytes (blocksOf bs q.1)).sum = totalBytes bs := by
    have hall := sum_blocksOf Block.size hrep.keys hrep.key_mem
    rw [List.map_map] at hall
    exact hall
  rw [List.map_congr_left hone, ← hsum, List.sum_nat_mod]
  conv_rhs => rw [List.sum_nat_mod]
  simp [Function.comp_def]

end

/-! ## Replay -/

/-- One call of `update_meta` of a replay: the entry, and the answers of its two
`malloc`s. -/
structure Replay where
  bep : Nat
  metaPtr : Nat
  listPtr : Nat
  deriving DecidableEq, Repr

/-- Run `update_meta` on one entry; a non-zero return code ends the replay. -/
def Pmemkv.replayStep (kv : Pmemkv) (r : Replay) : Option Pmemkv := do
  let (code, kv') ← kv.updateMeta r.bep r.metaPtr r.listPtr
  if code = 0 then some kv' else none

/-- The `malloc`s of the call succeed. -/
def Pmemkv.ReplayOk (kv : Pmemkv) (r : Replay) : Prop :=
  kv.index.Mallocs (load64 kv.service.mem (keyAddr r.bep)) r.metaPtr r.listPtr

instance (kv : Pmemkv) (r : Replay) : Decidable (kv.ReplayOk r) := by
  unfold Pmemkv.ReplayOk; infer_instance

/-- `update_meta` on an entry that is in memory appends its block. -/
theorem replayStep_spec {kv : Pmemkv} {e : Entry} {r : Replay} {bs : List Block}
    {nodes : Nat → List Nat} (hindex : IndexRep kv.index bs nodes) (he : EntryIn kv.service.mem e)
    (h0 : e.addr ≠ 0) (hr : r.bep = e.addr) (hok : kv.ReplayOk r) :
    ∃ kv' nodes', kv.replayStep r = some kv' ∧ kv'.service = kv.service ∧ kv'.bp = kv.bp ∧
      IndexRep kv'.index (bs ++ [e.block]) nodes' := by
  have hkey : load64 kv.service.mem (e.addr + 8) = e.key := he.key
  have hsize : load64 kv.service.mem (e.addr + 16) = e.bytes.length := he.size
  have hdata : load64 kv.service.mem (e.addr + 24) = e.data := he.data
  have hmalloc : kv.index.Mallocs e.key r.metaPtr r.listPtr := by
    have hok' := hok
    rw [Pmemkv.ReplayOk, hr, he.key] at hok'
    exact hok'
  have hlt : e.bytes.length < 2 ^ 64 := by
    rw [← he.size]
    exact load64_lt _ _
  obtain ⟨ix', nodes', hupd, hindex'⟩ := updateMeta_spec e.data _ hindex hlt hmalloc
  refine ⟨{ kv with index := ix' }, nodes', ?_, rfl, rfl, hindex'⟩
  simp only [Pmemkv.replayStep, Pmemkv.updateMeta, hr, Service.deref, if_neg h0, hkey, hsize, hdata,
    hupd, Option.bind_eq_bind, Option.bind_some, Option.pure_def, if_true]

/-- A replay over the entries of a list, from an empty index, represents their
blocks.  The invariant is that the first `n` calls represent the first `n`
entries. -/
theorem replay_spec (kv : Pmemkv) {es : List Entry} {rs : List Replay}
    (hempty : kv.index = Index.empty) (hentries : ∀ e ∈ es, EntryIn kv.service.mem e)
    (hne : ∀ e ∈ es, e.addr ≠ 0) (hrs : rs.map Replay.bep = es.map Entry.addr)
    (hok : Admissible Pmemkv.replayStep Pmemkv.ReplayOk kv rs) :
    ∃ kv' nodes, run Pmemkv.replayStep kv rs = some kv' ∧
      IndexRep kv'.index (es.map Entry.block) nodes := by
  have hlen : rs.length = es.length := by simpa using congrArg List.length hrs
  let I : List Replay → Pmemkv → Prop := fun done kv' => kv'.service = kv.service ∧
    ∃ nodes, IndexRep kv'.index ((es.take done.length).map Entry.block) nodes
  have hstep : ∀ done r rest kv₁, rs = done ++ r :: rest → I done kv₁ → kv₁.ReplayOk r →
      ∃ kv₂, kv₁.replayStep r = some kv₂ ∧ I (done ++ [r]) kv₂ := by
    intro done r rest kv₁ hsplit hI hok₁
    obtain ⟨hservice, nodes₁, hrep₁⟩ := hI
    have hlt : done.length < es.length := by
      rw [← hlen, hsplit]
      simp
    have hget : es[done.length]? = some es[done.length] := List.getElem?_eq_getElem hlt
    have hbep : r.bep = es[done.length].addr := by
      have hat := congrArg (fun l => l[done.length]?) hrs
      simpa [hsplit, hget] using hat
    have hmem : es[done.length] ∈ es := List.getElem_mem hlt
    obtain ⟨kv₂, nodes₂, hstep, hservice₂, _, hrep₂⟩ := replayStep_spec hrep₁
      (by rw [hservice]; exact hentries _ hmem) (hne _ hmem) hbep hok₁
    refine ⟨kv₂, hstep, hservice₂.trans hservice, nodes₂, ?_⟩
    rw [List.length_append, List.length_singleton, List.take_add_one, hget, Option.toList_some,
      List.map_append, List.map_singleton]
    exact hrep₂
  have hinit : I [] kv := ⟨rfl, _, by rw [hempty]; exact indexRep_empty⟩
  obtain ⟨kv', hrun, _, nodes, hrep⟩ := run_invariant hstep hinit hok
  refine ⟨kv', nodes, hrun, ?_⟩
  rw [hlen, List.take_length] at hrep
  exact hrep

/-! ## Agreement -/

/-- Follow `hdr.next` from `bp->head`: the entries of the persistent list. -/
def Pmemkv.entryList (fuel : Nat) (kv : Pmemkv) : Option (List Nat) :=
  walk (fun bep => load64 kv.service.mem (nextAddr bep)) fuel
    (load64 kv.service.mem (headAddr kv.bp))

/-- The fields `key`, `size` and `data` of an entry, and the bytes that `data`
points to. -/
def recordAt (m : Mem) (bep : Nat) : Nat × Nat × Nat × List UInt8 :=
  (load64 m (keyAddr bep), load64 m (sizeAddr bep), load64 m (dataAddr bep),
    loadBytes m (load64 m (dataAddr bep)) (load64 m (sizeAddr bep)))

/-- The record that a put leaves. -/
def PutCall.record (hash : String → UInt64) (call : PutCall) : Nat × Nat × Nat × List UInt8 :=
  ((hash call.key).toNat, call.value.length, call.ans.data, call.value)

/-- The persistent list `xs` and the index of `kv` hold the same data, namely
the puts `puts`. -/
structure Agree (hash : String → UInt64) (fuel : Nat) (kv : Pmemkv) (puts : List PutCall)
    (xs : List Nat) : Prop where
  head_tail : load64 kv.service.mem (headAddr kv.bp) = 0 ↔
    load64 kv.service.mem (tailAddr kv.bp) = 0
  nodup : xs.Nodup
  ends_at_tail : xs.getLast?.getD 0 = load64 kv.service.mem (tailAddr kv.bp)
  tail_next : ∀ t, xs.getLast? = some t → load64 kv.service.mem (nextAddr t) = 0
  records : xs.map (recordAt kv.service.mem) = puts.map (PutCall.record hash)
  replay : ∀ rs : List Replay, rs.map Replay.bep = xs →
    Admissible Pmemkv.replayStep Pmemkv.ReplayOk { kv with index := Index.empty } rs →
    ∃ kv', run Pmemkv.replayStep { kv with index := Index.empty } rs = some kv' ∧
      ∀ h, (kv'.index.map.lookup h = none ↔ kv.index.map.lookup h = none) ∧
        kv'.index.view fuel h = kv.index.view fuel h
  indexed : ∀ h, kv.index.map.lookup h = none ∨ (kv.index.view fuel h).isSome
  written : load64 kv.service.mem (writtenAddr kv.bp) =
    (puts.map fun call => call.value.length).sum % 2 ^ 64
  written_index : load64 kv.service.mem (writtenAddr kv.bp) =
    (kv.index.map.map fun q =>
      ((kv.index.lists q.2).map BlockMetaList.totalSize).getD 0).sum % 2 ^ 64

theorem record_of_entryIn {m : Mem} {hash : String → UInt64} {call : PutCall}
    (h : EntryIn m (call.entry hash)) :
    recordAt m (call.entry hash).addr = call.record hash := by
  rw [recordAt, h.key, h.size, h.data, h.bytes]
  rfl

/-- A represented store agrees with itself. -/
theorem StoreRep.agree {hash : String → UInt64} {fuel : Nat} {kv : Pmemkv}
    {puts : List PutCall} (hrep : StoreRep kv (entriesOf hash puts))
    (hfuel : puts.length ≤ fuel) :
    ∃ xs, kv.entryList fuel = some xs ∧ Agree hash fuel kv puts xs := by
  have hlen : ((entriesOf hash puts).map Entry.block).length ≤ fuel := by
    simpa [entriesOf] using hfuel
  have hwalk : kv.entryList fuel = some ((entriesOf hash puts).map Entry.addr) :=
    walk_eq_some_iff.mpr ⟨hrep.chain, by simpa [entriesOf] using hfuel⟩
  obtain ⟨nodes, hindex⟩ := hrep.index
  have hbytes : ((entriesOf hash puts).map fun e => e.bytes.length) =
      puts.map fun call => call.value.length := by
    rw [entriesOf, List.map_map]
    rfl
  refine ⟨_, hwalk, ?_⟩
  constructor
  · rcases hrep.tail_cases with ⟨hnil, ht⟩ | ⟨l, hmem, _, ht, h0⟩
    · have hhead := hrep.chain
      rw [hnil] at hhead
      exact ⟨fun _ => ht, fun _ => hhead⟩
    · have hne : (entriesOf hash puts).map Entry.addr ≠ [] :=
        List.ne_nil_of_mem (List.mem_map_of_mem hmem)
      have hhead := mt hrep.chain.eq_nil_iff.mpr hne
      exact ⟨fun h => absurd h hhead, fun h => absurd (ht.symm.trans h) h0⟩
  · exact hrep.chain.nodup
  · rw [hrep.tail, List.getLast?_map]
  · intro t ht
    exact hrep.chain.next_last ht
  · rw [entriesOf, List.map_map, List.map_map]
    apply List.map_congr_left
    intro call hcall
    exact record_of_entryIn (hrep.entries _ (List.mem_map_of_mem hcall))
  · intro rs hrs hok
    obtain ⟨kv', nodes', hrun, hindex'⟩ := replay_spec
      { kv with index := Index.empty } rfl hrep.entries
      (fun e he => hrep.chain.ne_zero _ (List.mem_map_of_mem he)) hrs hok
    refine ⟨kv', hrun, fun h => ⟨?_, ?_⟩⟩
    · rw [hindex'.lookup_eq_none_iff, hindex.lookup_eq_none_iff]
    · rw [hindex'.view_eq hlen, hindex.view_eq hlen]
  · intro h
    rw [hindex.lookup_eq_none_iff, hindex.view_eq hlen, viewOf]
    by_cases hempty : blocksOf ((entriesOf hash puts).map Entry.block) h = []
    · exact .inl hempty
    · rw [if_neg hempty]
      exact .inr rfl
  · rw [hrep.written, hbytes]
  · rw [hindex.sum_totalSize, hrep.written, totalBytes, List.map_map]
    rfl

/-- In every state that a run of `put`s and `free_all`s reaches from `create`,
the persistent list and the index hold the same data: the puts since the last
`free_all`. -/
theorem list_index_agree (hash : String → UInt64) (fuel : Nat) (s : Service) (root : Nat)
    (ops : List Op) (hroot : s.Grants sizeofBase root) (hfuel : ops.length ≤ fuel)
    (hok : Admissible (Pmemkv.step hash fuel) (Pmemkv.Ok hash) (Pmemkv.create s root) ops) :
    ∃ kv xs, run (Pmemkv.step hash fuel) (Pmemkv.create s root) ops = some kv ∧
      kv.entryList fuel = some xs ∧ Agree hash fuel kv (live ops) xs := by
  obtain ⟨kv, hrun, hrep⟩ := run_holds hroot hfuel hok
  obtain ⟨xs, hwalk, hagree⟩ := hrep.agree (Nat.le_trans (length_live_le ops) hfuel)
  exact ⟨kv, xs, hrun, hwalk, hagree⟩

theorem list_index_agree_sample :
    ∃ kv xs, run (Pmemkv.step sampleHash 5) (Pmemkv.create sampleService 4096) sampleOps = some kv ∧
      kv.entryList 5 = some xs ∧ Agree sampleHash 5 kv (live sampleOps) xs :=
  list_index_agree sampleHash 5 sampleService 4096 sampleOps (by decide) (by decide)
    sampleOps_admissible

end SparkNvm.Native
