import SparkNvm.Native.Pmemkv

/-!
# What the volatile index represents

The index of `pmemkv` is a hash map from keys to `block_meta_list`s, each of
which owns a chain of `block_meta` nodes.  `IndexRep` says which blocks the
index represents: a list of `Block`s in put order, from which the list of one
key is the subsequence `blocksOf`.

`updateMeta_spec` is the one lemma about `update_meta`: with answers that
`malloc` may give, it succeeds and appends one block.  The readers follow the
chain of one key; `getLoop_spec` and `getMetaLoop_spec` say what they copy.
`freeMeta_spec` says that `free_meta` passes its assertion and leaves an index
that represents nothing.
-/

namespace SparkNvm.Native

open Lib

/-! ## The representation -/

/-- One indexed block: the hash of its key, its address and its length. -/
structure Block where
  key : Nat
  off : Nat
  size : Nat
  deriving DecidableEq, Repr

/-- The blocks of one key, in put order. -/
def blocksOf (bs : List Block) (h : Nat) : List Block :=
  bs.filter fun b => b.key = h

/-- The number of bytes of a list of blocks. -/
def totalBytes (bs : List Block) : Nat := (bs.map Block.size).sum

/-- The `next` field of a node; a dangling pointer has none. -/
def nextOf (metas : Nat → Option BlockMeta) (p : Nat) : Nat :=
  ((metas p).map BlockMeta.next).getD 0

/-- What a node says about its block. -/
def blockAt (metas : Nat → Option BlockMeta) (p : Nat) : Option (Nat × Nat) :=
  (metas p).map fun m => (m.off, m.size)

/-- The list at `p` has the nodes `nodes`, which hold the blocks `bs`. -/
structure ListRep (ix : Index) (p : Nat) (l : BlockMetaList) (nodes : List Nat)
    (bs : List Block) : Prop where
  at_ptr : ix.lists p = some l
  chain : PtrChain (nextOf ix.metas) l.head nodes
  last : nodes.getLast? = some l.tail
  content : nodes.map (blockAt ix.metas) = bs.map fun b => some (b.off, b.size)
  totalSize : l.totalSize = totalBytes bs % 2 ^ 64
  length : l.length = bs.length % 2 ^ 64

/-- The index represents the blocks `bs`; `nodes h` are the nodes of the list
of key `h`. -/
structure IndexRep (ix : Index) (bs : List Block) (nodes : Nat → List Nat) : Prop where
  absent : ∀ h, ix.map.lookup h = none → blocksOf bs h = [] ∧ nodes h = []
  present : ∀ h p, ix.map.lookup h = some p →
    ∃ l, ListRep ix p l (nodes h) (blocksOf bs h)
  keys : (ix.map.map Prod.fst).Nodup
  ptr_inj : ∀ h h' p, ix.map.lookup h = some p → ix.map.lookup h' = some p → h = h'
  nodes_apart : ∀ h h', h ≠ h' → ∀ x ∈ nodes h, x ∉ nodes h'
  allocated : ix.bytesAllocated =
    (sizeofBlockMeta * bs.length + sizeofBlockMetaList * ix.map.length) % 2 ^ 64

/-- The `malloc` answers of one `update_meta` are fresh.  The second one is
asked for only when the key is new. -/
def Index.Mallocs (ix : Index) (key metaPtr listPtr : Nat) : Prop :=
  metaPtr ≠ 0 ∧ ix.metas metaPtr = none ∧
    (ix.map.lookup key = none → listPtr ≠ 0 ∧ ix.lists listPtr = none)

instance (ix : Index) (key metaPtr listPtr : Nat) :
    Decidable (ix.Mallocs key metaPtr listPtr) := by
  unfold Index.Mallocs; infer_instance

@[simp] theorem upd_self {α : Type} (heap : Nat → Option α) (p : Nat) (v : Option α) :
    upd heap p v p = v := by
  simp [upd]

theorem upd_of_ne {α : Type} (heap : Nat → Option α) {p q : Nat} (v : Option α)
    (h : q ≠ p) : upd heap p v q = heap q := by
  simp [upd, h]

theorem blocksOf_append (bs cs : List Block) (h : Nat) :
    blocksOf (bs ++ cs) h = blocksOf bs h ++ blocksOf cs h := by
  simp [blocksOf]

theorem blocksOf_singleton_self (b : Block) : blocksOf [b] b.key = [b] := by
  simp [blocksOf]

theorem blocksOf_singleton_of_ne (b : Block) {h : Nat} (hne : b.key ≠ h) :
    blocksOf [b] h = [] := by
  simp [blocksOf, hne]

theorem totalBytes_append (bs cs : List Block) :
    totalBytes (bs ++ cs) = totalBytes bs + totalBytes cs := by
  simp [totalBytes]

/-- A represented list has a live node per block. -/
theorem ListRep.length_eq {ix : Index} {p : Nat} {l : BlockMetaList} {nodes : List Nat}
    {bs : List Block} (h : ListRep ix p l nodes bs) : nodes.length = bs.length := by
  have := congrArg List.length h.content
  simpa using this

theorem ListRep.live {ix : Index} {p : Nat} {l : BlockMetaList} {nodes : List Nat}
    {bs : List Block} (h : ListRep ix p l nodes bs) {x : Nat} (hx : x ∈ nodes) :
    ∃ m, ix.metas x = some m := by
  have hmem : blockAt ix.metas x ∈ bs.map fun b => some (b.off, b.size) := by
    rw [← h.content]
    exact List.mem_map_of_mem hx
  obtain ⟨b, _, hb⟩ := List.mem_map.mp hmem
  cases hm : ix.metas x with
  | none => simp [blockAt, hm] at hb
  | some m => exact ⟨m, rfl⟩

/-- Frame rule: a list depends on its own header and its own nodes. -/
theorem ListRep.frame {ix ix' : Index} {p : Nat} {l : BlockMetaList} {nodes : List Nat}
    {bs : List Block} (h : ListRep ix p l nodes bs) (hl : ix'.lists p = ix.lists p)
    (hm : ∀ x ∈ nodes, ix'.metas x = ix.metas x) : ListRep ix' p l nodes bs where
  at_ptr := hl.trans h.at_ptr
  chain := h.chain.congr fun x hx => by rw [nextOf, nextOf, hm x hx]
  last := h.last
  content := by
    rw [← h.content]
    apply List.map_congr_left
    intro x hx
    rw [blockAt, blockAt, hm x hx]
  totalSize := h.totalSize
  length := h.length

theorem indexRep_empty : IndexRep Index.empty [] (fun _ => []) where
  absent := fun _ _ => ⟨rfl, rfl⟩
  present := fun h p hp => by simp [Index.empty] at hp
  keys := by simp [Index.empty]
  ptr_inj := fun h h' p hp => by simp [Index.empty] at hp
  nodes_apart := fun _ _ _ x hx => by simp at hx
  allocated := rfl

/-! ## `update_meta` appends one block -/

theorem lookup_snoc_self {ps : List (Nat × Nat)} {k v : Nat} (h : ps.lookup k = none) :
    (ps ++ [(k, v)]).lookup k = some v := by
  rw [List.lookup_append, h]
  simp

theorem lookup_snoc_of_ne (ps : List (Nat × Nat)) {k h v : Nat} (hne : h ≠ k) :
    (ps ++ [(k, v)]).lookup h = ps.lookup h := by
  have hbeq : (h == k) = false := by simpa using hne
  rw [List.lookup_append]
  simp [List.lookup_cons, hbeq]

theorem not_mem_keys_of_lookup {ps : List (Nat × Nat)} {k : Nat}
    (h : ps.lookup k = none) : k ∉ ps.map Prod.fst := by
  intro hmem
  obtain ⟨⟨k', v⟩, hp, rfl⟩ := List.mem_map.mp hmem
  rw [List.lookup_eq_none_iff] at h
  simpa using h _ hp

variable {ix : Index} {bs : List Block} {nodes : Nat → List Nat}
variable {key off size metaPtr listPtr : Nat}

/-- A fresh node is in no list. -/
theorem IndexRep.fresh_not_mem (hrep : IndexRep ix bs nodes)
    (hm : ix.metas metaPtr = none) (h : Nat) : metaPtr ∉ nodes h := by
  intro hmem
  cases hl : ix.map.lookup h with
  | none =>
    rw [(hrep.absent h hl).2] at hmem
    simp at hmem
  | some p =>
    obtain ⟨l, hlist⟩ := hrep.present h p hl
    obtain ⟨m, hsome⟩ := hlist.live hmem
    rw [hm] at hsome
    simp at hsome

/-- The branch of a new key. -/
private theorem updateMeta_new (hrep : IndexRep ix bs nodes)
    (hkey : ix.map.lookup key = none) (hsize : size < 2 ^ 64)
    (hm0 : metaPtr ≠ 0) (hm : ix.metas metaPtr = none)
    (hl0 : listPtr ≠ 0) (hl : ix.lists listPtr = none) :
    ∃ ix', ix.updateMeta key off size metaPtr listPtr = some (0, ix') ∧
      IndexRep ix' (bs ++ [⟨key, off, size⟩]) (Function.update nodes key [metaPtr]) := by
  refine ⟨_, by simp only [Index.updateMeta, hkey, if_neg hm0, if_neg hl0]; rfl, ?_⟩
  have hempty := hrep.absent key hkey
  have hother : ∀ h, h ≠ key → blocksOf (bs ++ [⟨key, off, size⟩]) h = blocksOf bs h := by
    intro h hne
    rw [blocksOf_append, blocksOf_singleton_of_ne _ (Ne.symm hne), List.append_nil]
  have hframe : ∀ h p l, ix.map.lookup h = some p →
      ListRep ix p l (nodes h) (blocksOf bs h) → p ≠ listPtr ∧
      ∀ x ∈ nodes h, upd ix.metas metaPtr (some ⟨0, off, size⟩) x = ix.metas x := by
    intro h p l _ hlist
    refine ⟨fun he => ?_, fun x hx => ?_⟩
    · have := hlist.at_ptr
      rw [he, hl] at this
      simp at this
    · apply upd_of_ne
      intro he
      exact hrep.fresh_not_mem hm h (he ▸ hx)
  constructor
  · intro h hlook
    have hne : h ≠ key := by
      intro he
      rw [he, lookup_snoc_self hkey] at hlook
      simp at hlook
    rw [lookup_snoc_of_ne _ hne] at hlook
    rw [hother h hne, Function.update_of_ne hne]
    exact hrep.absent h hlook
  · intro h p hlook
    by_cases hne : h = key
    · subst hne
      rw [lookup_snoc_self hkey] at hlook
      have hp : listPtr = p := by simpa using hlook
      subst hp
      have hblocks : blocksOf (bs ++ [⟨h, off, size⟩]) h = [⟨h, off, size⟩] := by
        rw [blocksOf_append, hempty.1]
        exact blocksOf_singleton_self ⟨h, off, size⟩
      rw [hblocks, Function.update_self]
      exact ⟨⟨metaPtr, metaPtr, size, 1⟩,
        { at_ptr := upd_self _ _ _
          chain := ⟨rfl, hm0, by simp [nextOf, PtrChain]⟩
          last := rfl
          content := by simp [blockAt]
          totalSize := by
            simp only [totalBytes, List.map_cons, List.map_nil, List.sum_cons, List.sum_nil]
            omega
          length := rfl }⟩
    · rw [lookup_snoc_of_ne _ hne] at hlook
      obtain ⟨l, hlist⟩ := hrep.present h p hlook
      obtain ⟨hp, hx⟩ := hframe h p l hlook hlist
      rw [hother h hne, Function.update_of_ne hne]
      exact ⟨l, hlist.frame (upd_of_ne _ _ hp) hx⟩
  · rw [List.map_append, List.nodup_append]
    refine ⟨hrep.keys, by simp, ?_⟩
    intro a ha b hb hab
    have hbk : b = key := by simpa using hb
    exact not_mem_keys_of_lookup hkey (by rw [← hbk, ← hab]; exact ha)
  · intro h h' p hp hp'
    by_cases hne : h = key
    · by_cases hne' : h' = key
      · rw [hne, hne']
      · exfalso
        rw [hne, lookup_snoc_self hkey] at hp
        rw [lookup_snoc_of_ne _ hne'] at hp'
        obtain ⟨l, hlist⟩ := hrep.present h' p hp'
        exact (hframe h' p l hp' hlist).1 (by simpa using hp.symm)
    · rw [lookup_snoc_of_ne _ hne] at hp
      by_cases hne' : h' = key
      · exfalso
        rw [hne', lookup_snoc_self hkey] at hp'
        obtain ⟨l, hlist⟩ := hrep.present h p hp
        exact (hframe h p l hp hlist).1 (by simpa using hp'.symm)
      · rw [lookup_snoc_of_ne _ hne'] at hp'
        exact hrep.ptr_inj h h' p hp hp'
  · intro h h' hhh x hx
    by_cases hne : h = key
    · have hne' : h' ≠ key := fun he => hhh (hne.trans he.symm)
      rw [hne, Function.update_self, List.mem_singleton] at hx
      rw [Function.update_of_ne hne', hx]
      exact hrep.fresh_not_mem hm h'
    · rw [Function.update_of_ne hne] at hx
      by_cases hne' : h' = key
      · rw [hne', Function.update_self, List.mem_singleton]
        intro he
        exact hrep.fresh_not_mem hm h (he ▸ hx)
      · rw [Function.update_of_ne hne']
        exact hrep.nodes_apart h h' hhh x hx
  · have halloc := hrep.allocated
    simp only [sizeofBlockMeta, sizeofBlockMetaList, List.length_append,
      List.length_singleton] at halloc ⊢
    omega

/-- Appending a node at the tail of one list: the old tail points to the new
node, every other node is as before. -/
theorem ListRep.snoc {ix ix' : Index} {p : Nat} {l : BlockMetaList} {ns : List Nat}
    {bs : List Block} {lastNode : BlockMeta} (h : ListRep ix p l ns bs)
    (hm0 : metaPtr ≠ 0) (hfresh : metaPtr ∉ ns)
    (hlastNode : ix.metas l.tail = some lastNode)
    (hnew : ix'.metas metaPtr = some ⟨0, off, size⟩)
    (htail : ix'.metas l.tail = some { lastNode with next := metaPtr })
    (hold : ∀ x, x ≠ metaPtr → x ≠ l.tail → ix'.metas x = ix.metas x)
    (hl : ix'.lists p = some ⟨l.head, metaPtr, (l.totalSize + size) % 2 ^ 64,
      (l.length + 1) % 2 ^ 64⟩) :
    ListRep ix' p ⟨l.head, metaPtr, (l.totalSize + size) % 2 ^ 64, (l.length + 1) % 2 ^ 64⟩
      (ns ++ [metaPtr]) (bs ++ [⟨key, off, size⟩]) := by
  have htmem : l.tail ∈ ns := List.mem_of_getLast? h.last
  have hnil : ns ≠ [] := List.ne_nil_of_mem htmem
  have hne : ∀ x ∈ ns, x ≠ metaPtr := fun x hx he => hfresh (he ▸ hx)
  have hdrop : ∀ x ∈ ns.dropLast, x ≠ l.tail := by
    intro x hx he
    have hnodup : ns.Nodup := h.chain.nodup
    have hsplit : ns.dropLast ++ [l.tail] = ns := List.dropLast_append_getLast? _ h.last
    rw [← hsplit, List.nodup_append] at hnodup
    exact hnodup.2.2 x hx l.tail (by simp) he
  have hchain : PtrChain (nextOf ix'.metas) (if ns = [] then metaPtr else l.head)
      (ns ++ [metaPtr]) := by
    refine h.chain.snoc hm0 (by rw [nextOf, hnew]; rfl) ?_ ?_
    · intro t ht
      rw [h.last] at ht
      have htt : l.tail = t := by simpa using ht
      rw [← htt, nextOf, htail]
      rfl
    · intro x hx
      rw [nextOf, nextOf, hold x (hne x (List.mem_of_mem_dropLast hx)) (hdrop x hx)]
  rw [if_neg hnil] at hchain
  constructor
  · exact hl
  · exact hchain
  · simp
  · rw [List.map_append, List.map_append, ← h.content]
    congr 1
    · apply List.map_congr_left
      intro x hx
      by_cases hxt : x = l.tail
      · rw [hxt, blockAt, blockAt, htail, hlastNode]
        rfl
      · rw [blockAt, blockAt, hold x (hne x hx) hxt]
    · rw [List.map_singleton, List.map_singleton, blockAt, hnew]
      rfl
  · rw [totalBytes_append, h.totalSize]
    simp [totalBytes, Nat.add_mod]
  · rw [List.length_append, List.length_singleton, h.length]
    simp [Nat.add_mod]

/-- The branch of a key that already has a list. -/
private theorem updateMeta_append (hrep : IndexRep ix bs nodes) {p : Nat}
    (hkey : ix.map.lookup key = some p)
    (hm0 : metaPtr ≠ 0) (hm : ix.metas metaPtr = none) (listPtr : Nat) :
    ∃ ix', ix.updateMeta key off size metaPtr listPtr = some (0, ix') ∧
      IndexRep ix' (bs ++ [⟨key, off, size⟩])
        (Function.update nodes key (nodes key ++ [metaPtr])) := by
  obtain ⟨l, hlist⟩ := hrep.present key p hkey
  have htail : l.tail ∈ nodes key := List.mem_of_getLast? hlist.last
  have hfresh : ∀ h, metaPtr ∉ nodes h := hrep.fresh_not_mem hm
  obtain ⟨lastNode, hlastNode⟩ := hlist.live htail
  have htm : l.tail ≠ metaPtr := fun he => hfresh key (he ▸ htail)
  have hread : upd ix.metas metaPtr (some ⟨0, off, size⟩) l.tail = some lastNode := by
    rw [upd_of_ne _ _ htm]
    exact hlastNode
  refine ⟨_, by
    simp only [Index.updateMeta, hkey, hlist.at_ptr, if_neg hm0, hread,
      Option.bind_eq_bind, Option.bind_some, Option.pure_def]; rfl, ?_⟩
  have hother : ∀ h, h ≠ key → blocksOf (bs ++ [⟨key, off, size⟩]) h = blocksOf bs h := by
    intro h hne
    rw [blocksOf_append, blocksOf_singleton_of_ne _ (Ne.symm hne), List.append_nil]
  have hself : blocksOf (bs ++ [⟨key, off, size⟩]) key =
      blocksOf bs key ++ [⟨key, off, size⟩] := by
    rw [blocksOf_append]
    exact congrArg _ (blocksOf_singleton_self ⟨key, off, size⟩)
  have hold : ∀ x, x ≠ metaPtr → x ≠ l.tail →
      upd (upd ix.metas metaPtr (some ⟨0, off, size⟩)) l.tail
        (some { lastNode with next := metaPtr }) x = ix.metas x := by
    intro x hxm hxt
    rw [upd_of_ne _ _ hxt, upd_of_ne _ _ hxm]
  constructor
  · intro h hlook
    have hne : h ≠ key := by
      intro he
      rw [he, hkey] at hlook
      simp at hlook
    rw [hother h hne, Function.update_of_ne hne]
    exact hrep.absent h hlook
  · intro h q hlook
    by_cases hne : h = key
    · subst hne
      have hq : p = q := by
        rw [hkey] at hlook
        simpa using hlook
      subst hq
      rw [hself, Function.update_self]
      have hnew : upd (upd ix.metas metaPtr (some ⟨0, off, size⟩)) l.tail
          (some { lastNode with next := metaPtr }) metaPtr = some ⟨0, off, size⟩ := by
        rw [upd_of_ne _ _ (Ne.symm htm), upd_self]
      exact ⟨_, hlist.snoc hm0 (hfresh h) hlastNode hnew (upd_self _ _ _) hold (upd_self _ _ _)⟩
    · obtain ⟨l', hlist'⟩ := hrep.present h q hlook
      rw [hother h hne, Function.update_of_ne hne]
      refine ⟨l', hlist'.frame (upd_of_ne _ _ ?_) ?_⟩
      · intro he
        exact hne (hrep.ptr_inj h key p (he ▸ hlook) hkey)
      · intro x hx
        have hxm : x ≠ metaPtr := fun he => hfresh h (he ▸ hx)
        have hxt : x ≠ l.tail := fun he => hrep.nodes_apart h key hne x hx (he ▸ htail)
        exact hold x hxm hxt
  · exact hrep.keys
  · exact hrep.ptr_inj
  · intro h h' hhh x hx
    by_cases hne : h = key
    · have hne' : h' ≠ key := fun he => hhh (hne.trans he.symm)
      rw [Function.update_of_ne hne']
      rw [hne, Function.update_self, List.mem_append, List.mem_singleton] at hx
      rcases hx with hx | rfl
      · exact hrep.nodes_apart key h' (Ne.symm hne') x hx
      · exact hfresh h'
    · rw [Function.update_of_ne hne] at hx
      by_cases hne' : h' = key
      · rw [hne', Function.update_self, List.mem_append, List.mem_singleton, not_or]
        exact ⟨hrep.nodes_apart h key hne x hx, fun he => hfresh h (he ▸ hx)⟩
      · rw [Function.update_of_ne hne']
        exact hrep.nodes_apart h h' hhh x hx
  · have halloc := hrep.allocated
    simp only [sizeofBlockMeta, sizeofBlockMetaList, List.length_append,
      List.length_singleton] at halloc ⊢
    omega

/-- `update_meta` with fresh `malloc` answers returns `0` and appends the
block to the index. -/
theorem updateMeta_spec (off size : Nat) (hrep : IndexRep ix bs nodes) (hsize : size < 2 ^ 64)
    (hmalloc : ix.Mallocs key metaPtr listPtr) :
    ∃ ix' nodes', ix.updateMeta key off size metaPtr listPtr = some (0, ix') ∧
      IndexRep ix' (bs ++ [⟨key, off, size⟩]) nodes' := by
  obtain ⟨hm0, hm, hl⟩ := hmalloc
  cases hkey : ix.map.lookup key with
  | none =>
    obtain ⟨hl0, hl1⟩ := hl hkey
    obtain ⟨ix', hrun, hrep'⟩ := updateMeta_new hrep hkey hsize hm0 hm hl0 hl1
    exact ⟨ix', _, hrun, hrep'⟩
  | some p =>
    obtain ⟨ix', hrun, hrep'⟩ := updateMeta_append hrep hkey hm0 hm listPtr
    exact ⟨ix', _, hrun, hrep'⟩

/-- `update_meta` writes no node but the new ones and nodes that exist. -/
theorem updateMeta_heaps {ix' : Index} {off size : Nat} {code : Int}
    (h : ix.updateMeta key off size metaPtr listPtr = some (code, ix')) :
    (∀ p, p ≠ metaPtr → ix.metas p = none → ix'.metas p = none) ∧
      ∀ p, p ≠ listPtr → ix.lists p = none → ix'.lists p = none := by
  unfold Index.updateMeta at h
  cases hkey : ix.map.lookup key with
  | none =>
    simp only [hkey] at h
    split at h
    · rw [← (Prod.mk.inj (Option.some.inj h)).2]
      exact ⟨fun _ _ hp => hp, fun _ _ hp => hp⟩
    · split at h
      · rw [← (Prod.mk.inj (Option.some.inj h)).2]
        exact ⟨fun p hne hp => (upd_of_ne _ _ hne).trans hp, fun _ _ hp => hp⟩
      · rw [← (Prod.mk.inj (Option.some.inj h)).2]
        exact ⟨fun p hne hp => (upd_of_ne _ _ hne).trans hp,
          fun p hne hp => (upd_of_ne _ _ hne).trans hp⟩
  | some q =>
    simp only [hkey] at h
    obtain ⟨bml, hbml, h⟩ := Option.bind_eq_some_iff.mp h
    split at h
    · rw [← (Prod.mk.inj (Option.some.inj h)).2]
      exact ⟨fun _ _ hp => hp, fun _ _ hp => hp⟩
    · obtain ⟨last, hlast, h⟩ := Option.bind_eq_some_iff.mp h
      rw [← (Prod.mk.inj (Option.some.inj h)).2]
      refine ⟨fun p hne hp => ?_, fun p _ hp => ?_⟩
      · have hmetas : upd ix.metas metaPtr (some ⟨0, off, size⟩) p = none :=
          (upd_of_ne _ _ hne).trans hp
        -- the old tail is a node that exists
        have htail : p ≠ bml.tail := by
          rintro rfl
          rw [hmetas] at hlast
          cases hlast
        exact (upd_of_ne _ _ htail).trans hmetas
      · have hlist : p ≠ q := by
          rintro rfl
          rw [hp] at hbml
          cases hbml
        exact (upd_of_ne _ _ hlist).trans hp

/-! ## The readers -/

/-- The bytes of a block. -/
def blockBytes (m : Mem) (b : Block) : List UInt8 := loadBytes m b.off b.size

/-- The longest run of leading blocks that fits into `room` bytes. -/
def fitting : Nat → List (List UInt8) → List (List UInt8)
  | _, [] => []
  | room, b :: bs => if b.length ≤ room then b :: fitting (room - b.length) bs else []

/-- The first node of a chain holds the first block, and its `next` starts the
rest. -/
theorem node_cons {metas : Nat → Option BlockMeta} {a : Nat} {x : Nat} {ns : List Nat}
    {b : Block} {bs : List Block} (hchain : PtrChain (nextOf metas) a (x :: ns))
    (hcontent : (x :: ns).map (blockAt metas) = (b :: bs).map fun b => some (b.off, b.size)) :
    ∃ m, metas a = some m ∧ a ≠ 0 ∧ m.off = b.off ∧ m.size = b.size ∧
      PtrChain (nextOf metas) m.next ns ∧
      ns.map (blockAt metas) = bs.map fun b => some (b.off, b.size) := by
  obtain ⟨rfl, hx, hrest⟩ := hchain
  rw [List.map_cons, List.map_cons, List.cons.injEq] at hcontent
  obtain ⟨hhead, htail⟩ := hcontent
  cases hm : metas a with
  | none => simp [blockAt, hm] at hhead
  | some m =>
    have hboth : m.off = b.off ∧ m.size = b.size := by simpa [blockAt, hm] using hhead
    have hnext : nextOf metas a = m.next := by simp [nextOf, hm]
    rw [hnext] at hrest
    exact ⟨m, rfl, hx, hboth.1, hboth.2, hrest, htail⟩

/-- The copy loop of `get` copies the longest run of leading blocks that fits,
from offset `r` on.  The offset sum does not wrap because the blocks together
are below `2 ^ 64` bytes. -/
theorem getLoop_spec (kv : Pmemkv) {fuel a : Nat} {ns : List Nat} {bs : List Block}
    (r : Nat) (mb : Pmemkv.MemoryBlock) (hchain : PtrChain (nextOf kv.index.metas) a ns)
    (hcontent : ns.map (blockAt kv.index.metas) = bs.map fun b => some (b.off, b.size))
    (hoff : ∀ b ∈ bs, b.off ≠ 0) (hfuel : ns.length ≤ fuel) (hwrap : r + totalBytes bs < 2 ^ 64)
    (hr : r ≤ mb.size) :
    kv.getLoop fuel a r mb = some
      { data := storeBytes mb.data r
          (fitting (mb.size - r) (bs.map (blockBytes kv.service.mem))).flatten
        size := mb.size } := by
  induction ns generalizing fuel a r bs mb with
  | nil =>
    have ha : a = 0 := hchain
    have hbs : bs = [] := by simpa using hcontent.symm
    subst hbs
    cases fuel <;> simp [Pmemkv.getLoop, ha, fitting]
  | cons x ns ih =>
    cases bs with
    | nil => simp at hcontent
    | cons b bs =>
      obtain ⟨m, hm, ha, hmoff, hsize, hchain', hcontent'⟩ := node_cons hchain hcontent
      cases fuel with
      | zero => simp at hfuel
      | succ fuel =>
        have htotal : totalBytes (b :: bs) = b.size + totalBytes bs := by simp [totalBytes]
        have hload : kv.service.loadAt m.off m.size =
            some (loadBytes kv.service.mem m.off m.size) :=
          Service.loadAt_of_ne _ _ (by rw [hmoff]; exact hoff b List.mem_cons_self)
        have hmod : (r + m.size) % 2 ^ 64 = r + b.size := by
          rw [hsize]
          exact Nat.mod_eq_of_lt (by omega)
        have hlen : (blockBytes kv.service.mem b).length = b.size := by simp [blockBytes]
        rw [Pmemkv.getLoop, if_neg ha, hm]
        simp only [Option.bind_eq_bind, Option.bind_some, hmod, List.map_cons, fitting, hlen]
        by_cases hfit : r + b.size ≤ mb.size
        · rw [if_pos hfit, hload, Option.bind_some, if_pos hfit, if_pos (by omega)]
          have hrest := ih (r + b.size)
            ⟨storeBytes mb.data r (loadBytes kv.service.mem m.off m.size), mb.size⟩
            hchain' hcontent' (fun c hc => hoff c (List.mem_cons_of_mem _ hc))
              (by simpa using hfuel)
            (by omega) hfit
          have hbytes : loadBytes kv.service.mem m.off m.size = blockBytes kv.service.mem b := by
            rw [hmoff, hsize, blockBytes]
          have hroom : mb.size - (r + b.size) = mb.size - r - b.size := by omega
          rw [hrest, hbytes, hroom, List.flatten_cons, ← storeBytes_append, hlen]
        · rw [if_neg hfit, if_neg (by omega)]
          simp

/-- The loop of `get_meta` writes address and length of every block, two array
entries per block, and nothing else. -/
theorem getMetaLoop_spec (kv : Pmemkv) {fuel a : Nat} {ns : List Nat} {bs : List Block}
    (i : Nat) (mm : Pmemkv.MemoryMeta) (hchain : PtrChain (nextOf kv.index.metas) a ns)
    (hcontent : ns.map (blockAt kv.index.metas) = bs.map fun b => some (b.off, b.size))
    (hfuel : ns.length ≤ fuel) :
    ∃ mm', kv.getMetaLoop fuel a i mm = some mm' ∧ mm'.length = i + 2 * bs.length ∧
      ((List.range (2 * bs.length)).map fun j => mm'.entries (i + j)) =
        bs.flatMap (fun b => [b.off, b.size]) ∧
      ∀ j, j < i ∨ i + 2 * bs.length ≤ j → mm'.entries j = mm.entries j := by
  induction ns generalizing fuel a i bs mm with
  | nil =>
    have ha : a = 0 := hchain
    have hbs : bs = [] := by simpa using hcontent.symm
    subst hbs
    refine ⟨{ mm with length := i }, ?_, rfl, rfl, fun _ _ => rfl⟩
    cases fuel <;> simp [Pmemkv.getMetaLoop, ha]
  | cons x ns ih =>
    cases bs with
    | nil => simp at hcontent
    | cons b bs =>
      obtain ⟨m, hm, ha, hoff, hsize, hchain', hcontent'⟩ := node_cons hchain hcontent
      cases fuel with
      | zero => simp at hfuel
      | succ fuel =>
        obtain ⟨mm', hrun, hlen, hentries, hframe⟩ :=
          ih (i + 2) { mm with
            entries := Function.update (Function.update mm.entries i m.off) (i + 1) m.size }
            hchain' hcontent' (by simpa using hfuel)
        dsimp only at hframe
        refine ⟨mm', ?_, ?_, ?_, ?_⟩
        · rw [Pmemkv.getMetaLoop, if_neg ha, hm]
          exact hrun
        · rw [hlen, List.length_cons]
          omega
        · have h0 : mm'.entries i = b.off := by
            rw [hframe i (by omega), Function.update_of_ne (by omega), Function.update_self, hoff]
          have h1 : mm'.entries (i + 1) = b.size := by
            rw [hframe (i + 1) (by omega), Function.update_self, hsize]
          rw [List.length_cons, show 2 * (bs.length + 1) = 2 + 2 * bs.length by omega,
            List.range_add, List.map_append, List.flatMap_cons, ← hentries, List.map_map]
          congr 1
          · simp [List.range_succ, h0, h1]
          · apply List.map_congr_left
            intro j _
            rw [Function.comp_apply, show i + (2 + j) = i + 2 + j by omega]
        · intro j hj
          rw [List.length_cons] at hj
          rw [hframe j (by omega), Function.update_of_ne (by omega),
            Function.update_of_ne (by omega)]

/-! ## `free_meta` -/

theorem sub64_add (a b : Nat) (ha : a < 2 ^ 64) :
    Service.sub64 a b < 2 ^ 64 ∧ (Service.sub64 a b + b) % 2 ^ 64 = a := by
  unfold Service.sub64
  omega

/-- Freeing a chain frees exactly its nodes and uncounts them. -/
theorem freeBlocks_spec {fuel : Nat} {ns : List Nat} (ix : Index) (a : Nat)
    (hchain : PtrChain (nextOf ix.metas) a ns) (hlive : ∀ x ∈ ns, ∃ m, ix.metas x = some m)
    (hfuel : ns.length ≤ fuel) (halloc : ix.bytesAllocated < 2 ^ 64) :
    ∃ ix', ix.freeBlocks fuel a = some ix' ∧ ix'.map = ix.map ∧ ix'.lists = ix.lists ∧
      (∀ x, x ∉ ns → ix'.metas x = ix.metas x) ∧ ix'.bytesAllocated < 2 ^ 64 ∧
      (ix'.bytesAllocated + sizeofBlockMeta * ns.length) % 2 ^ 64 = ix.bytesAllocated := by
  induction ns generalizing fuel ix a with
  | nil =>
    have ha : a = 0 := hchain
    refine ⟨ix, ?_, rfl, rfl, fun _ _ => rfl, halloc, Nat.mod_eq_of_lt halloc⟩
    cases fuel <;> simp [Index.freeBlocks, ha]
  | cons x ns ih =>
    have hnodup : (x :: ns).Nodup := hchain.nodup
    obtain ⟨rfl, hx, hrest⟩ := hchain
    obtain ⟨m, hm⟩ := hlive a (by simp)
    have hnext : nextOf ix.metas a = m.next := by simp [nextOf, hm]
    rw [hnext] at hrest
    rw [List.nodup_cons] at hnodup
    cases fuel with
    | zero => simp at hfuel
    | succ fuel =>
      have hsub := sub64_add ix.bytesAllocated sizeofBlockMeta halloc
      have hkeep : ∀ y ∈ ns, upd ix.metas a none y = ix.metas y := by
        intro y hy
        exact upd_of_ne _ _ fun he => hnodup.1 (he ▸ hy)
      have hrest' : PtrChain (nextOf (upd ix.metas a none)) m.next ns :=
        hrest.congr fun y hy => by rw [nextOf, nextOf, hkeep y hy]
      have hlive' : ∀ y ∈ ns, ∃ m, upd ix.metas a none y = some m := by
        intro y hy
        rw [hkeep y hy]
        exact hlive y (by simp [hy])
      obtain ⟨ix', hrun, hmap, hlists, hframe, hlt, hcount⟩ :=
        ih { ix with
          metas := upd ix.metas a none
          bytesAllocated := Service.sub64 ix.bytesAllocated sizeofBlockMeta } m.next
          hrest' hlive' (by simpa using hfuel) hsub.1
      refine ⟨ix', ?_, hmap, hlists, ?_, hlt, ?_⟩
      · rw [Index.freeBlocks, if_neg hx, hm]
        exact hrun
      · intro y hy
        rw [List.mem_cons, not_or] at hy
        rw [hframe y hy.2]
        exact upd_of_ne _ _ hy.1
      · rw [List.length_cons]
        have hsub2 := hsub.2
        simp only [sizeofBlockMeta] at hcount hsub2 ⊢
        omega

/-- The pairs that `free_meta` has not visited yet: every one still owns its
list, and no two share a header or a node. -/
structure Unfreed (ix : Index) (bs : List Block) (nodes : Nat → List Nat)
    (rest : List (Nat × Nat)) : Prop where
  owns : ∀ q ∈ rest, ∃ l, ListRep ix q.2 l (nodes q.1) (blocksOf bs q.1)
  apart : rest.Pairwise fun q q' => q.2 ≠ q'.2 ∧ ∀ x ∈ nodes q.1, x ∉ nodes q'.1

/-- The bytes that freeing the lists of `rest` uncounts. -/
def metaBytes (bs : List Block) (rest : List (Nat × Nat)) : Nat :=
  (rest.map fun q => sizeofBlockMeta * (blocksOf bs q.1).length + sizeofBlockMetaList).sum

theorem freeLists_spec {fuel : Nat} {rest : List (Nat × Nat)} (ix : Index)
    (hun : Unfreed ix bs nodes rest) (hfuel : bs.length ≤ fuel)
    (halloc : ix.bytesAllocated < 2 ^ 64) :
    ∃ ix', Index.freeLists fuel rest ix = some ix' ∧ ix'.bytesAllocated < 2 ^ 64 ∧
      (ix'.bytesAllocated + metaBytes bs rest) % 2 ^ 64 = ix.bytesAllocated := by
  induction rest generalizing ix with
  | nil => exact ⟨ix, rfl, halloc, by simpa [metaBytes] using halloc⟩
  | cons q rest ih =>
    obtain ⟨l, hlist⟩ := hun.owns q (by simp)
    have hapart := List.pairwise_cons.mp hun.apart
    have hlen : (nodes q.1).length ≤ fuel := by
      rw [hlist.length_eq]
      exact Nat.le_trans (List.length_filter_le _ _) hfuel
    obtain ⟨ix₁, hrun₁, _, hlists₁, hframe₁, hlt₁, hcount₁⟩ :=
      freeBlocks_spec ix l.head hlist.chain (fun x hx => hlist.live hx) hlen halloc
    have hsub := sub64_add ix₁.bytesAllocated sizeofBlockMetaList hlt₁
    have hun' : Unfreed { ix₁ with
        lists := upd ix₁.lists q.2 none
        bytesAllocated := Service.sub64 ix₁.bytesAllocated sizeofBlockMetaList }
        bs nodes rest := by
      refine ⟨fun q' hq' => ?_, hapart.2⟩
      obtain ⟨l', hlist'⟩ := hun.owns q' (by simp [hq'])
      obtain ⟨hp, hn⟩ := hapart.1 q' hq'
      refine ⟨l', hlist'.frame ?_ ?_⟩
      · exact (upd_of_ne _ _ (Ne.symm hp)).trans (congrFun hlists₁ q'.2)
      · intro x hx
        exact hframe₁ x fun hx' => hn x hx' hx
    obtain ⟨ix', hrun, hlt, hcount⟩ := ih _ hun' hsub.1
    refine ⟨ix', ?_, hlt, ?_⟩
    · rw [Index.freeLists]
      simp only [hlist.at_ptr, hrun₁, Option.bind_eq_bind, Option.bind_some]
      exact hrun
    · rw [hlist.length_eq] at hcount₁
      have hsub2 := hsub.2
      simp only [metaBytes, List.map_cons, List.sum_cons, sizeofBlockMeta,
        sizeofBlockMetaList] at hcount hcount₁ hsub2 ⊢
      omega

/-- An indicator sums to its value over a list that has the index once. -/
private theorem sum_indicator {keys : List Nat} {k : Nat} (c : Nat) (hkeys : keys.Nodup)
    (hk : k ∈ keys) : (keys.map fun h => if k = h then c else 0).sum = c := by
  induction keys with
  | nil => simp at hk
  | cons h keys ih =>
    rw [List.nodup_cons] at hkeys
    rw [List.map_cons, List.sum_cons]
    by_cases hkh : k = h
    · have hrest : (keys.map fun h => if k = h then c else 0) = keys.map fun _ => 0 := by
        apply List.map_congr_left
        intro h' hh'
        have hne : ¬k = h' := fun he => hkeys.1 (by rw [← hkh, he]; exact hh')
        exact if_neg hne
      rw [if_pos hkh, hrest]
      simp
    · have hk' : k ∈ keys := by simpa [hkh] using hk
      rw [if_neg hkh, ih hkeys.2 hk', Nat.zero_add]

/-- Summing over the keys and then over the blocks of each key is summing over
the blocks, when the keys are distinct and every block has one of them. -/
theorem sum_blocksOf (f : Block → Nat) {keys : List Nat} (hkeys : keys.Nodup)
    (hmem : ∀ b ∈ bs, b.key ∈ keys) :
    (keys.map fun h => ((blocksOf bs h).map f).sum).sum = (bs.map f).sum := by
  induction bs with
  | nil =>
    simp [blocksOf]
  | cons b bs ih =>
    have hsplit : ∀ h, ((blocksOf (b :: bs) h).map f).sum =
        (if b.key = h then f b else 0) + ((blocksOf bs h).map f).sum := by
      intro h
      by_cases hb : b.key = h <;> simp [blocksOf, hb]
    have hone : (keys.map fun h => if b.key = h then f b else 0).sum = f b :=
      sum_indicator (f b) hkeys (hmem b (by simp))
    simp only [hsplit, List.sum_map_add, hone, List.map_cons, List.sum_cons]
    rw [ih fun b' hb' => hmem b' (by simp [hb'])]

/-- Every indexed block has a key of the map. -/
theorem IndexRep.key_mem (hrep : IndexRep ix bs nodes) :
    ∀ b ∈ bs, b.key ∈ ix.map.map Prod.fst := by
  intro b hb
  by_contra hnot
  have hnone : ix.map.lookup b.key = none := by
    rw [List.lookup_eq_none_iff]
    intro q hq
    have hne : q.1 ≠ b.key := fun he => hnot (he ▸ List.mem_map_of_mem hq)
    simpa using Ne.symm hne
  have hempty := (hrep.absent b.key hnone).1
  have hmem : b ∈ blocksOf bs b.key := by simp [blocksOf, hb]
  rw [hempty] at hmem
  simp at hmem

/-- With distinct keys, the lookup of a key finds its pair. -/
theorem lookup_of_mem {ps : List (Nat × Nat)} (hkeys : (ps.map Prod.fst).Nodup)
    {q : Nat × Nat} (hq : q ∈ ps) : ps.lookup q.1 = some q.2 := by
  induction ps with
  | nil => simp at hq
  | cons r ps ih =>
    rw [List.map_cons, List.nodup_cons] at hkeys
    rcases List.mem_cons.mp hq with rfl | hq
    · exact List.lookup_cons_self
    · have hne : q.1 ≠ r.1 := fun he => hkeys.1 (he ▸ List.mem_map_of_mem hq)
      have hbeq : (q.1 == r.1) = false := by simpa using hne
      rw [List.lookup_cons, hbeq]
      exact ih hkeys.2 hq

/-- `free_meta` passes its assertion and leaves an index that represents
nothing. -/
theorem freeMeta_spec (hrep : IndexRep ix bs nodes) {fuel : Nat}
    (hfuel : bs.length ≤ fuel) :
    ∃ ix', ix.freeMeta fuel = some (0, ix') ∧ IndexRep ix' [] (fun _ => []) := by
  have hlook : ∀ q ∈ ix.map, ix.map.lookup q.1 = some q.2 :=
    fun q hq => lookup_of_mem hrep.keys hq
  have hkeysPair : ix.map.Pairwise fun q q' => q.1 ≠ q'.1 := List.pairwise_map.mp hrep.keys
  have hun : Unfreed ix bs nodes ix.map := by
    refine ⟨fun q hq => hrep.present q.1 q.2 (hlook q hq), ?_⟩
    refine List.Pairwise.imp_of_mem ?_ hkeysPair
    intro q q' hq hq' hne
    refine ⟨fun he => hne ?_, hrep.nodes_apart q.1 q'.1 hne⟩
    exact hrep.ptr_inj q.1 q'.1 q.2 (hlook q hq) (he ▸ hlook q' hq')
  have halloc : ix.bytesAllocated < 2 ^ 64 := by
    rw [hrep.allocated]
    exact Nat.mod_lt _ (by decide)
  obtain ⟨ix', hrun, hlt, hcount⟩ := freeLists_spec ix hun hfuel halloc
  have hsum : metaBytes bs ix.map =
      sizeofBlockMeta * bs.length + sizeofBlockMetaList * ix.map.length := by
    have hblocks := sum_blocksOf (fun _ => sizeofBlockMeta) hrep.keys hrep.key_mem
    simp only [List.map_const', List.sum_replicate_nat, List.map_map, Function.comp_def]
      at hblocks
    have hcomm : ∀ q : Nat × Nat, sizeofBlockMeta * (blocksOf bs q.1).length =
        (blocksOf bs q.1).length * sizeofBlockMeta := fun q => Nat.mul_comm _ _
    simp only [metaBytes, hcomm, List.sum_map_add, hblocks, List.map_const',
      List.sum_replicate_nat]
    rw [Nat.mul_comm, Nat.mul_comm ix.map.length]
  have hzero : ix'.bytesAllocated = 0 := by
    have hal := hrep.allocated
    rw [hsum] at hcount
    simp only [sizeofBlockMeta, sizeofBlockMetaList] at hcount hal
    omega
  refine ⟨{ ix' with map := [] }, ?_, ?_⟩
  · simp only [Index.freeMeta, hrun, Option.bind_eq_bind, Option.bind_some, hzero, if_true]
    rfl
  · constructor
    · intro h _
      exact ⟨rfl, rfl⟩
    · intro h p hp
      simp at hp
    · simp
    · intro h h' p hp
      simp at hp
    · intro h h' _ x hx
      simp at hx
    · simpa using hzero

end SparkNvm.Native
