import SparkNvm.Native.Linearise
import SparkNvm.Storage.BlockIndex

/-!
# An index lookup while clients put

`nativeGetBlockIndex` calls the store twice: `get_meta_size` says how many words to allocate, and
`get_meta` fills them.  No lock is held in between.  An interleaving with other clients is the
schedule of their steps `before` the first call and in the `middle`, between the two.

* `Indexes`: the step that adds a block of the key to the index, and `Quiet`: a schedule without
  such a step.
* `Inv.run_quiet`: the blocks that a schedule adds.
* `LookupSafe`: nothing is written behind the allocated words, and the array shows a prefix of the
  blocks.
* `lookup_safe_iff`: the interleavings in which the lookup is safe.
-/

namespace SparkNvm.Storage

open Lib Native

variable {ι : Type} [DecidableEq ι] {hash : String → UInt64} {prog : ι → List PutCall}

/-- The step of client `i` is the `update_meta` of a put under the hash of `k`. -/
def Indexes (hash : String → UInt64) (prog : ι → List PutCall) (k : String) (sys : System ι)
    (i : ι) : Prop :=
  sys.pc i = .updateMeta ∧ ∃ call, callAt prog (sys.cur i) = some call ∧ hash call.key = hash k

instance (hash : String → UInt64) (prog : ι → List PutCall) (k : String) (sys : System ι) (i : ι) :
    Decidable (Indexes hash prog k sys i) :=
  decidable_of_iff (sys.pc i = .updateMeta ∧ ((callAt prog (sys.cur i)).any fun call =>
      decide (hash call.key = hash k)) = true)
    (and_congr_right fun _ => by simp [Option.any_eq_true])

/-- No step of the schedule adds a block under the hash of `k`. -/
abbrev Quiet (hash : String → UInt64) (prog : ι → List PutCall) (k : String) (sys : System ι)
    (sched : List ι) : Prop :=
  Admissible (System.step hash prog) (fun sys i => ¬Indexes hash prog k sys i) sys sched

/-- The addresses and lengths of the blocks under the hash of `k`, as the index lists them. -/
def blocksIn (hash : String → UInt64) (fuel : Nat) (kv : Pmemkv) (k : String) : List (Nat × Nat) :=
  ((kv.index.view fuel (hash k).toNat).map Prod.fst).getD []

/-- The lookup with `get_meta_size` on the object `kv` and `get_meta` on `kv'`. -/
structure LookupSafe (hash : String → UInt64) (fuel : Nat) (kv kv' : Pmemkv) (k : String)
    (mm : Pmemkv.MemoryMeta) : Prop where
  safe : ∃ code size mm', kv.getMetaSize hash k = some (code, size) ∧
    kv'.getMeta hash fuel k mm = some (0, mm') ∧
    (∀ j, 2 * size ≤ j → mm'.entries j = mm.entries j) ∧
    ∃ blocks, blocks <+: blocksIn hash fuel kv' k ∧
      newLongArray mm'.length (2 * size) mm'.entries =
        some (blocks.flatMap fun b => [b.1, b.2])

/-! ## What a schedule adds to the index -/

section

variable {sys : System ι} {order : List (ι × Nat)} {k : String} {i : ι}

theorem storedUnder_singleton {call : PutCall} :
    storedUnder hash [call] k = [] ↔ hash call.key ≠ hash k := by
  rw [storedUnder, List.filter_eq_nil_iff]
  simp

omit [DecidableEq ι] in
theorem callsAt_append (order order' : List (ι × Nat)) :
    callsAt prog (order ++ order') = callsAt prog order ++ callsAt prog order' :=
  List.filterMap_append

/-- One step adds at most one block, by `update_meta`. -/
theorem Inv.step_quiet (h : Inv hash prog sys order) (hok : sys.Ok hash prog i) (k : String) :
    ∃ sys' added, sys.step hash prog i = some sys' ∧ Inv hash prog sys' (order ++ added) ∧
      added.length ≤ 1 ∧
      (¬Indexes hash prog k sys i ↔ storedUnder hash (callsAt prog added) k = []) := by
  obtain ⟨call, hcall, hstored, hgrant⟩ := hok.call
  by_cases heq : sys.pc i = .updateMeta
  · obtain ⟨ix, hstep, hinv⟩ := h.ret hcall hgrant heq
    refine ⟨_, [sys.cur i], hstep, hinv, Nat.le_refl 1, ?_⟩
    have hcalls : callsAt prog [sys.cur i] = [call] := by simp [callsAt, hcall]
    rw [hcalls, storedUnder_singleton, Indexes]
    constructor
    · exact fun hnot hkey => hnot ⟨heq, call, hcall, hkey⟩
    · rintro hne ⟨_, call', hcall', hkey⟩
      rw [Option.some.inj (hcall.symm.trans hcall')] at hne
      exact hne hkey
  · obtain ⟨hstep, hinv⟩ := h.go hcall hstored hgrant heq
    refine ⟨_, [], hstep, ?_, Nat.zero_le 1, ?_⟩
    · rw [List.append_nil]
      exact hinv
    · exact iff_of_true (fun hindexes => heq hindexes.1) rfl

/-- A schedule adds the blocks of the puts that finish in it, and none under `k` exactly if it is
quiet. -/
theorem Inv.run_quiet {sched : List ι} (h : Inv hash prog sys order)
    (hok : Admissible (System.step hash prog) (System.Ok hash prog) sys sched) (k : String) :
    ∃ sys' added, run (System.step hash prog) sys sched = some sys' ∧
      Inv hash prog sys' (order ++ added) ∧ added.length ≤ sched.length ∧
      (Quiet hash prog k sys sched ↔ storedUnder hash (callsAt prog added) k = []) := by
  induction sched generalizing sys order with
  | nil =>
    refine ⟨sys, [], rfl, ?_, Nat.le_refl 0, iff_of_true trivial rfl⟩
    rw [List.append_nil]
    exact h
  | cons i sched ih =>
    obtain ⟨hokStep, hokRest⟩ := hok
    obtain ⟨sys₁, added₁, hstep, hinv₁, hlen₁, hquiet₁⟩ := Inv.step_quiet h hokStep k
    obtain ⟨sys', added₂, hrun, hinv', hlen₂, hquiet₂⟩ := ih hinv₁ (hokRest sys₁ hstep)
    refine ⟨sys', added₁ ++ added₂, ?_, ?_, ?_, ?_⟩
    · rw [run_cons, hstep]
      exact hrun
    · rw [← List.append_assoc]
      exact hinv'
    · rw [List.length_append, List.length_cons]
      omega
    · rw [callsAt_append, storedUnder_append, List.append_eq_nil_iff, ← hquiet₁, ← hquiet₂]
      constructor
      · exact fun hadm => ⟨hadm.1, hadm.2 sys₁ hstep⟩
      · rintro ⟨hfirst, hrest⟩
        refine ⟨hfirst, fun sys₂ hstep' => ?_⟩
        rw [← Option.some.inj (hstep.symm.trans hstep')]
        exact hrest

end

/-! ## The lookup -/

section

variable {fuel : Nat} {kv kv' : Pmemkv} {puts added : List PutCall} {k : String}

/-- The address and the length of a block. -/
def wordsOf (call : PutCall) : Nat × Nat := (call.ans.data, call.value.length)

theorem blocksIn_eq (h : IndexHolds hash kv puts) (hfuel : puts.length ≤ fuel) :
    blocksIn hash fuel kv k = (storedUnder hash puts k).map wordsOf := by
  obtain ⟨nodes, hrep⟩ := h.rep
  rw [blocksIn, hrep.view_eq (by simpa using hfuel), viewOf, blocksOf_map_block]
  split
  · rename_i hnone
    rw [List.map_eq_nil_iff.mp hnone]
    rfl
  · rw [Option.map_some, Option.getD_some, List.map_map]
    rfl

theorem flatMap_wordsOf (calls : List PutCall) :
    (calls.map wordsOf).flatMap (fun b => [b.1, b.2]) = indexWords calls := by
  rw [List.flatMap_map]
  rfl

/-- The first word behind the allocated ones belongs to the first block that was added. -/
theorem entries_of_added {call : PutCall} {calls rest : List PutCall} {entries : Nat → Nat}
    (h : (List.range (2 * (calls ++ call :: rest).length)).map entries =
      indexWords (calls ++ call :: rest)) : entries (2 * calls.length) = call.ans.data := by
  have hword := congrArg (fun words => words[2 * calls.length]?) h
  have hlt : 2 * calls.length < 2 * (calls ++ call :: rest).length := by
    rw [List.length_append, List.length_cons]
    omega
  simp only [List.getElem?_map, List.getElem?_range hlt, Option.map_some] at hword
  rw [indexWords_append, List.getElem?_append_right (by rw [length_indexWords]), length_indexWords,
    Nat.sub_self] at hword
  exact Option.some.inj hword

/-- The first words of an array that shows all blocks. -/
theorem take_indexWords (calls : List PutCall) (n : Nat) :
    (indexWords calls).take (2 * n) = indexWords (calls.take n) := by
  induction calls generalizing n with
  | nil => simp [indexWords]
  | cons call calls ih =>
    cases n with
    | zero => rfl
    | succ n =>
      show call.ans.data :: call.value.length :: (indexWords calls).take (2 * n) = _
      rw [ih, List.take_succ_cons]
      rfl

/-- The lookup against the blocks at its two calls. -/
theorem lookupSafe_iff (h : IndexHolds hash kv puts) (h' : IndexHolds hash kv' (puts ++ added))
    (hfuel : (puts ++ added).length ≤ fuel) :
    (∀ mm, LookupSafe hash fuel kv kv' k mm) ↔
      storedUnder hash puts k ≠ [] ∧ 2 * (storedUnder hash puts k).length % 2 ^ 32 < 2 ^ 31 ∧
        storedUnder hash added k = [] := by
  have hsize := getMetaSize_of_indexHolds h k
  have hblocks := blocksIn_eq (k := k) h' hfuel
  rw [storedUnder_append] at hblocks
  constructor
  · intro hall
    have hquiet : storedUnder hash added k = [] := by
      cases hadded : storedUnder hash added k with
      | nil => rfl
      | cons call rest =>
        -- the words behind the allocated ones all differ from the address of the new block
        let mm : Pmemkv.MemoryMeta := ⟨fun _ => call.ans.data + 1, 1⟩
        obtain ⟨code, size, mm', hsize', hmeta, hbeyond, _⟩ := (hall mm).safe
        obtain ⟨mm'', hmeta', hwritten⟩ := getMeta_of_indexHolds h' hfuel k mm
        have hmm : mm'' = mm' := (Prod.mk.inj (Option.some.inj (hmeta'.symm.trans hmeta))).2
        have hn : (storedUnder hash puts k).length = size :=
          (Prod.mk.inj (Option.some.inj (hsize.symm.trans hsize'))).2
        have hentries := hwritten.entries
        rw [List.length_map, indexWords_eq_blocks, storedUnder_append, hadded] at hentries
        have hnew := entries_of_added hentries
        rw [hmm, hn, hbeyond _ (Nat.le_refl _)] at hnew
        exact absurd hnew (Nat.succ_ne_self _)
    rw [hquiet, List.append_nil] at hblocks
    obtain ⟨code, size, mm', hsize', hmeta, _, blocks, _, harray⟩ := (hall ⟨fun _ => 0, 1⟩).safe
    obtain ⟨mm'', hmeta', hwritten⟩ := getMeta_of_indexHolds h' hfuel k ⟨fun _ => 0, 1⟩
    have hmm : mm'' = mm' := (Prod.mk.inj (Option.some.inj (hmeta'.symm.trans hmeta))).2
    have hn : (storedUnder hash puts k).length = size :=
      (Prod.mk.inj (Option.some.inj (hsize.symm.trans hsize'))).2
    rw [storedUnder_append, hquiet, List.append_nil, hmm] at hwritten
    have hne : storedUnder hash puts k ≠ [] := by
      intro hnone
      rw [hnone] at hwritten hn
      rw [hwritten.absent rfl, ← hn, newLongArray_of_lt _ (by decide)] at harray
      exact absurd harray (by simp)
    refine ⟨hne, ?_, hquiet⟩
    rw [hwritten.length (by simpa using hne), List.length_map, hn, newLongArray] at harray
    split at harray
    · rename_i hfits
      rw [hn]
      have hlo := hfits.1
      unfold wrap32 at hlo
      omega
    · exact absurd harray (by simp)
  · rintro ⟨hne, hcount, hquiet⟩ mm
    rw [hquiet, List.append_nil] at hblocks
    obtain ⟨mm', hmeta, hwritten⟩ := getMeta_of_indexHolds h' hfuel k mm
    rw [storedUnder_append, hquiet, List.append_nil] at hwritten
    have hlength := hwritten.length (by simpa using hne)
    have hentries := hwritten.entries
    have hbeyond := hwritten.beyond
    rw [List.length_map] at hlength hentries hbeyond
    rw [indexWords_eq_blocks] at hentries
    -- as a `jsize` the length is even and not larger than the array
    obtain ⟨m, hm⟩ : ∃ m, 2 * (storedUnder hash puts k).length % 2 ^ 32 = 2 * m :=
      ⟨(storedUnder hash puts k).length % 2 ^ 31, by omega⟩
    have hwrap : wrap32 ((2 * (storedUnder hash puts k).length : Nat) : Int) =
        ((2 * m : Nat) : Int) := by
      unfold wrap32
      omega
    have hle : 2 * m ≤ 2 * (storedUnder hash puts k).length := by omega
    refine ⟨_, _, mm', hsize, hmeta, hbeyond, (blocksIn hash fuel kv' k).take m,
      List.take_prefix _ _, ?_⟩
    rw [hlength, newLongArray, hwrap, if_pos ⟨by omega, by omega⟩, Int.toNat_natCast, hblocks,
      ← List.map_take, flatMap_wordsOf, ← take_indexWords, ← hentries, ← List.map_take,
      List.take_range, Nat.min_eq_left hle]

end

/-- Whatever memory `malloc` returns, the lookup is safe exactly in the interleavings in which the
key has a block when `get_meta_size` counts (and their words as a `jsize` are not negative), and
none is added until `get_meta` has read. -/
theorem lookup_safe_iff (hash : String → UInt64) (prog : ι → List PutCall) (s : Service)
    (root : Nat) (before middle : List ι) (fuel : Nat) (k : String)
    (hroot : s.Grants sizeofBase root)
    (hok : Admissible (System.step hash prog) (System.Ok hash prog)
      (System.init (Pmemkv.create s root)) (before ++ middle))
    (hfuel : before.length + middle.length ≤ fuel) :
    ∃ sys sys', run (System.step hash prog) (System.init (Pmemkv.create s root)) before = some sys ∧
      run (System.step hash prog) sys middle = some sys' ∧
      ((∀ mm, LookupSafe hash fuel sys.kv sys'.kv k mm) ↔
        blocksIn hash fuel sys.kv k ≠ [] ∧
          2 * (blocksIn hash fuel sys.kv k).length % 2 ^ 32 < 2 ^ 31 ∧
          Quiet hash prog k sys middle) := by
  obtain ⟨hokBefore, hokMiddle⟩ := admissible_append.mp hok
  obtain ⟨sys, order, hrun, hinv, hlen⟩ := inv_run hroot hokBefore
  obtain ⟨sys', added, hrun', hinv', hlen', hquiet⟩ := Inv.run_quiet hinv (hokMiddle sys hrun) k
  have hcalls : (callsAt prog order).length ≤ order.length := List.length_filterMap_le _ _
  have hcalls' : (callsAt prog added).length ≤ added.length := List.length_filterMap_le _ _
  have hholds' := hinv'.indexHolds
  rw [callsAt_append] at hholds'
  refine ⟨sys, sys', hrun, hrun', ?_⟩
  rw [lookupSafe_iff hinv.indexHolds hholds' (by rw [List.length_append]; omega), hquiet,
    blocksIn_eq hinv.indexHolds (by omega), List.length_map, Ne, Ne, List.map_eq_nil_iff]

/-- One client puts a block under `"a"`, and then another one puts a block under `"b"`. -/
theorem lookup_safe_sample :
    ∃ sys sys', run (System.step sampleHash sampleProg)
        (System.init (Pmemkv.create sampleService 4096)) (List.replicate 13 true) = some sys ∧
      run (System.step sampleHash sampleProg) sys (List.replicate 14 false) = some sys' ∧
      ∀ mm, LookupSafe sampleHash 27 sys.kv sys'.kv "a" mm := by
  obtain ⟨sys, sys', hrun, hrun', hiff⟩ := lookup_safe_iff sampleHash sampleProg sampleService 4096
    (List.replicate 13 true) (List.replicate 14 false) 27 "a" (by decide) (by decide)
    (by decide)
  have hstate : (run (System.step sampleHash sampleProg)
      (System.init (Pmemkv.create sampleService 4096)) (List.replicate 13 true)).map (fun sys =>
        (blocksIn sampleHash 27 sys.kv "a",
          decide (Quiet sampleHash sampleProg "a" sys (List.replicate 14 false)))) =
      some ([(8224, 2)], true) := by
    decide
  rw [hrun, Option.map_some, Option.some.injEq, Prod.mk.injEq] at hstate
  refine ⟨sys, sys', hrun, hrun', hiff.mpr ⟨?_, ?_, of_decide_eq_true hstate.2⟩⟩
  · rw [hstate.1]
    decide
  · rw [hstate.1]
    decide

/-- Two clients with one put each under the same key. -/
def sameKeyProg : Bool → List PutCall
  | true => [⟨"a", [1, 2], { entry := 8192, data := 8224, metaPtr := 16, listPtr := 32 }⟩]
  | false => [⟨"a", [3], { entry := 8256, data := 8288, metaPtr := 64, listPtr := 96 }⟩]

/-- The second client indexes its block between the two calls: `get_meta` writes four words where
two are allocated. -/
theorem lookup_overruns :
    ∃ sys sys', run (System.step sampleHash sameKeyProg)
        (System.init (Pmemkv.create sampleService 4096)) (List.replicate 13 true) = some sys ∧
      run (System.step sampleHash sameKeyProg) sys (List.replicate 14 false) = some sys' ∧
      sys.kv.getMetaSize sampleHash "a" = some (0, 1) ∧
      ((sys'.kv.getMeta sampleHash 27 "a" ⟨fun _ => 0, 0⟩).map fun r => r.2.entries 2) =
        some 8288 ∧
      ¬LookupSafe sampleHash 27 sys.kv sys'.kv "a" ⟨fun _ => 0, 0⟩ := by
  have hstate : ((run (System.step sampleHash sameKeyProg)
      (System.init (Pmemkv.create sampleService 4096)) (List.replicate 13 true)).bind fun sys =>
        (run (System.step sampleHash sameKeyProg) sys (List.replicate 14 false)).map fun sys' =>
          (sys.kv.getMetaSize sampleHash "a",
            (sys'.kv.getMeta sampleHash 27 "a" ⟨fun _ => 0, 0⟩).map fun r => r.2.entries 2)) =
      some (some (0, 1), some 8288) := by
    decide
  obtain ⟨sys, hrun, hrest⟩ := Option.bind_eq_some_iff.mp hstate
  obtain ⟨sys', hrun', hanswers⟩ := Option.map_eq_some_iff.mp hrest
  obtain ⟨hsize, hword⟩ := Prod.mk.inj hanswers
  refine ⟨sys, sys', hrun, hrun', hsize, hword, ?_⟩
  rintro ⟨code, size, mm', hsize', hmeta, hbeyond, _⟩
  rw [hmeta, Option.map_some, Option.some.injEq] at hword
  have hn : 1 = size := (Prod.mk.inj (Option.some.inj (hsize.symm.trans hsize'))).2
  rw [hbeyond 2 (by omega)] at hword
  exact absurd hword (by decide)

end SparkNvm.Storage
