import Mathlib.Data.List.Basic
import SparkNvm.Lib.Int32

/-!
# Names of blocks

`ShuffleBlockId` and `PmemBlockId` join decimal numbers with underscores.  A decimal
number has no underscore, so a name determines its numbers.

* `ShuffleBlockId.name` and `PmemBlockId.name`, and `shuffleBlockName` for numbers that are
  not negative.
* `getTempBlockId` and `blockIds`: the block ids of the streams of one executor.
* `storage_keys_distinct`: two streams have one name only if they are for one shuffle
  block.
-/

namespace SparkNvm.Storage

/-- `ShuffleBlockId(shuffleId, mapId, reduceId).name`. -/
def shuffleBlockName (shuffleId mapId reduceId : Nat) : String :=
  "shuffle_" ++ toString shuffleId ++ "_" ++ toString mapId ++ "_" ++ toString reduceId

/-- What comes before the first separator is determined. -/
theorem append_separator_inj {α : Type*} {sep : α} {as bs cs ds : List α} (has : sep ∉ as)
    (hbs : sep ∉ bs) (h : as ++ sep :: cs = bs ++ sep :: ds) : as = bs ∧ cs = ds := by
  induction as generalizing bs with
  | nil =>
    cases bs with
    | nil => exact ⟨rfl, (List.cons.inj h).2⟩
    | cons b bs =>
      have hhead : sep = b := (List.cons.inj h).1
      exact absurd (by rw [hhead]; exact List.mem_cons_self) hbs
  | cons a as ih =>
    cases bs with
    | nil =>
      have hhead : a = sep := (List.cons.inj h).1
      exact absurd (by rw [hhead]; exact List.mem_cons_self) has
    | cons b bs =>
      have htail := List.cons.inj h
      have hrest := ih (fun hmem => has (List.mem_cons_of_mem _ hmem))
        (fun hmem => hbs (List.mem_cons_of_mem _ hmem)) htail.2
      rw [htail.1, hrest.1]
      exact ⟨rfl, hrest.2⟩

theorem toDigits_inj {m n : Nat} (h : Nat.toDigits 10 m = Nat.toDigits 10 n) : m = n := by
  have hm : Nat.ofDigitChars 10 (Nat.toDigits 10 m) 0 = m :=
    Nat.ofDigitChars_toDigits (by decide) (by decide)
  rw [h, Nat.ofDigitChars_toDigits (by decide) (by decide)] at hm
  exact hm.symm

/-! ## Names with any 32-bit numbers -/

/-- `ShuffleBlockId`. -/
structure ShuffleBlockId where
  shuffleId : Int
  mapId : Int
  reduceId : Int
  deriving DecidableEq

/-- `PmemBlockId`. -/
structure PmemBlockId where
  stageId : Int
  tmpId : Int
  deriving DecidableEq

def ShuffleBlockId.name (id : ShuffleBlockId) : String :=
  "shuffle_" ++ toString id.shuffleId ++ "_" ++ toString id.mapId ++ "_" ++ toString id.reduceId

def PmemBlockId.name (id : PmemBlockId) : String :=
  "reduce_spill_" ++ toString id.stageId ++ "_" ++ toString id.tmpId

theorem shuffleBlockName_eq (shuffleId mapId reduceId : Nat) :
    shuffleBlockName shuffleId mapId reduceId = ShuffleBlockId.name ⟨shuffleId, mapId, reduceId⟩ :=
  rfl

/-- The decimal digits, after a sign if there is one. -/
def intDigits : Int → List Char
  | .ofNat n => Nat.toDigits 10 n
  | .negSucc n => '-' :: Nat.toDigits 10 (n + 1)

theorem toList_toString_int (x : Int) : (toString x).toList = intDigits x := by
  cases x with
  | ofNat n =>
    show (toString n).toList = _
    simp [intDigits]
  | negSucc n =>
    show ("-" ++ toString (n + 1)).toList = _
    rw [String.toList_append]
    simp [intDigits]

theorem underscore_not_mem_intDigits (x : Int) : '_' ∉ intDigits x := by
  cases x with
  | ofNat n => exact Nat.underscore_not_in_toDigits
  | negSucc n =>
    intro hmem
    cases List.mem_cons.mp hmem with
    | inl heq => exact absurd heq (by decide)
    | inr hdigit => exact Nat.underscore_not_in_toDigits hdigit

theorem intDigits_inj {x y : Int} (h : intDigits x = intDigits y) : x = y := by
  -- a sign is not a digit
  have hsign : ∀ m n : Nat, Nat.toDigits 10 m ≠ '-' :: Nat.toDigits 10 n := by
    intro m n heq
    have hmem : '-' ∈ Nat.toDigits 10 m := by rw [heq]; exact List.mem_cons_self
    have hdigit := Nat.isDigit_of_mem_toDigits (by decide) (by decide) hmem
    exact absurd hdigit (by decide)
  cases x with
  | ofNat m =>
    cases y with
    | ofNat n => rw [toDigits_inj h]
    | negSucc n => exact absurd h (hsign m (n + 1))
  | negSucc m =>
    cases y with
    | ofNat n => exact absurd h.symm (hsign n (m + 1))
    | negSucc n =>
      have hsucc := toDigits_inj (List.cons.inj h).2
      rw [Nat.succ.inj hsucc]

theorem ShuffleBlockId.toList_name (id : ShuffleBlockId) :
    id.name.toList = "shuffle_".toList ++ (intDigits id.shuffleId ++ '_' ::
      (intDigits id.mapId ++ '_' :: intDigits id.reduceId)) := by
  -- rewriting would unfold the literals
  have happend : ∀ a b c : String, (a ++ toString id.shuffleId ++ b ++ toString id.mapId ++ c ++
      toString id.reduceId).toList = a.toList ++ (intDigits id.shuffleId ++ (b.toList ++
        (intDigits id.mapId ++ (c.toList ++ intDigits id.reduceId)))) := by
    intro a b c
    simp only [String.toList_append, toList_toString_int, List.append_assoc]
  exact happend "shuffle_" "_" "_"

theorem PmemBlockId.toList_name (id : PmemBlockId) :
    id.name.toList =
      "reduce_spill_".toList ++ (intDigits id.stageId ++ '_' :: intDigits id.tmpId) := by
  have happend : ∀ a b : String, (a ++ toString id.stageId ++ b ++ toString id.tmpId).toList =
      a.toList ++ (intDigits id.stageId ++ (b.toList ++ intDigits id.tmpId)) := by
    intro a b
    simp only [String.toList_append, toList_toString_int, List.append_assoc]
  exact happend "reduce_spill_" "_"

theorem ShuffleBlockId.name_inj {id id' : ShuffleBlockId} (h : id.name = id'.name) : id = id' := by
  have hlist := congrArg String.toList h
  rw [toList_name, toList_name, List.append_cancel_left_eq] at hlist
  obtain ⟨hs, hrest⟩ := append_separator_inj (underscore_not_mem_intDigits _)
    (underscore_not_mem_intDigits _) hlist
  obtain ⟨hm, hr⟩ := append_separator_inj (underscore_not_mem_intDigits _)
    (underscore_not_mem_intDigits _) hrest
  obtain ⟨s, m, r⟩ := id
  obtain ⟨s', m', r'⟩ := id'
  rw [ShuffleBlockId.mk.injEq]
  exact ⟨intDigits_inj hs, intDigits_inj hm, intDigits_inj hr⟩

theorem PmemBlockId.name_inj {id id' : PmemBlockId} (h : id.name = id'.name) : id = id' := by
  have hlist := congrArg String.toList h
  rw [toList_name, toList_name, List.append_cancel_left_eq] at hlist
  obtain ⟨hs, ht⟩ := append_separator_inj (underscore_not_mem_intDigits _)
    (underscore_not_mem_intDigits _) hlist
  obtain ⟨s, t⟩ := id
  obtain ⟨s', t'⟩ := id'
  rw [PmemBlockId.mk.injEq]
  exact ⟨intDigits_inj hs, intDigits_inj ht⟩

theorem shuffleBlockName_inj {s m r s' m' r' : Nat}
    (h : shuffleBlockName s m r = shuffleBlockName s' m' r') : s = s' ∧ m = m' ∧ r = r' := by
  rw [shuffleBlockName_eq, shuffleBlockName_eq] at h
  have hid := ShuffleBlockId.name_inj h
  rw [ShuffleBlockId.mk.injEq] at hid
  omega

/-- The names begin with different letters. -/
theorem PmemBlockId.name_ne (id : PmemBlockId) (id' : ShuffleBlockId) : id.name ≠ id'.name := by
  intro h
  have hlist := congrArg String.toList h
  rw [toList_name, ShuffleBlockId.toList_name] at hlist
  have hfirst := congrArg List.head? hlist
  simp at hfirst

/-! ## The streams of an executor -/

/-- The id of a block, of a shuffle or temporary. -/
inductive BlockId where
  | shuffle (id : ShuffleBlockId)
  | pmem (id : PmemBlockId)
  deriving DecidableEq

def BlockId.name : BlockId → String
  | .shuffle id => id.name
  | .pmem id => id.name

/-- `PmemBlockId.getTempBlockId(stageId)`, with the counter `tempId`. -/
def getTempBlockId (tempId stageId : Int) : PmemBlockId × Int :=
  (⟨stageId, tempId⟩, Lib.wrap32 (tempId + 1))

/-- A stream that the executor makes: of a writer, for a shuffle block, or of a sorter
outside the map stage, for a temporary block. -/
inductive NewStream where
  | shuffle (id : ShuffleBlockId)
  | spill (stageId : Int)
  deriving DecidableEq

/-- The block ids of the streams, in the order of their calls. -/
def blockIds : Int → List NewStream → List BlockId
  | _, [] => []
  | tempId, .shuffle id :: streams => .shuffle id :: blockIds tempId streams
  | tempId, .spill stageId :: streams =>
    .pmem (getTempBlockId tempId stageId).1 :: blockIds (getTempBlockId tempId stageId).2 streams

/-- Whether a stream takes a temporary block. -/
def NewStream.isSpill : NewStream → Bool
  | .shuffle _ => false
  | .spill _ => true

/-- The id of a stream: a temporary one has the number of the temporary blocks before it. -/
theorem getElem?_blockIds (start : Int) (streams : List NewStream) (i : Nat) :
    (blockIds (Lib.wrap32 start) streams)[i]? = (streams[i]?).map fun stream =>
      match stream with
      | .shuffle id => .shuffle id
      | .spill stageId =>
        .pmem ⟨stageId, Lib.wrap32 (start + (streams.take i).countP NewStream.isSpill)⟩ := by
  induction streams generalizing start i with
  | nil => rfl
  | cons stream streams ih =>
    cases stream with
    | shuffle id =>
      rw [blockIds]
      cases i with
      | zero => rfl
      | succ i =>
        rw [List.getElem?_cons_succ, List.getElem?_cons_succ, ih, List.take_succ_cons,
          List.countP_cons_of_neg (by exact Bool.false_ne_true)]
    | spill stageId =>
      rw [blockIds]
      cases i with
      | zero =>
        show some (BlockId.pmem ⟨stageId, Lib.wrap32 start⟩) =
          some (.pmem ⟨stageId, Lib.wrap32 (start + 0)⟩)
        rw [Int.add_zero]
      | succ i =>
        have hnext : (getTempBlockId (Lib.wrap32 start) stageId).2 = Lib.wrap32 (start + 1) :=
          Lib.wrap32_add_left start 1
        rw [List.getElem?_cons_succ, List.getElem?_cons_succ, hnext, ih, List.take_succ_cons,
          List.countP_cons_of_pos rfl]
        congr 1
        funext stream
        cases stream with
        | shuffle id => rfl
        | spill stageId' =>
          show BlockId.pmem _ = BlockId.pmem _
          rw [Int.natCast_add, Int.add_assoc, Int.add_comm 1, Int.natCast_one]

/-- Fewer than `2 ^ 32` numbers do not meet again after wrapping. -/
theorem wrap32_inj_of_lt {m n : Nat} (hm : m < 2 ^ 32) (hn : n < 2 ^ 32)
    (h : Lib.wrap32 m = Lib.wrap32 n) : m = n := by
  rw [Lib.wrap32, Lib.wrap32] at h
  omega

/-- A later temporary block has a higher number. -/
theorem countP_take_lt {streams : List NewStream} {i j : Nat} {stageId : Int} (hij : i < j)
    (hi : streams[i]? = some (.spill stageId)) :
    (streams.take i).countP NewStream.isSpill < (streams.take j).countP NewStream.isSpill := by
  have hlt : i < streams.length := (List.getElem?_eq_some_iff.mp hi).1
  have hsub : (streams.take (i + 1)).Sublist (streams.take j) :=
    (List.take_prefix_take_left hij).sublist
  have hle := hsub.countP_le (p := NewStream.isSpill)
  rw [List.take_add_one, hi, List.countP_append] at hle
  have hone : List.countP NewStream.isSpill (some (NewStream.spill stageId)).toList = 1 := rfl
  omega

/-- For every sequence of streams that an executor makes, fewer than `2 ^ 32` of them
with a temporary block, whatever their numbers: two of them have the same name only if
both are for the same shuffle block.  Names of shuffle blocks determine the three
numbers, also negative ones, and are never names of temporary blocks. -/
theorem storage_keys_distinct (streams : List NewStream)
    (hcalls : streams.countP NewStream.isSpill < 2 ^ 32) :
    (∀ (i j : Nat) (b b' : BlockId), i ≠ j → (blockIds 0 streams)[i]? = some b →
      (blockIds 0 streams)[j]? = some b' → b.name = b'.name →
        ∃ id : ShuffleBlockId, streams[i]? = some (.shuffle id) ∧
          streams[j]? = some (.shuffle id)) ∧
    (∀ id id' : ShuffleBlockId, id.name = id'.name → id = id') ∧
    ∀ (id : PmemBlockId) (id' : ShuffleBlockId), id.name ≠ id'.name := by
  refine ⟨fun i j b b' hij hb hb' hname => ?_, fun id id' => ShuffleBlockId.name_inj,
    PmemBlockId.name_ne⟩
  rw [← Lib.wrap32_zero, getElem?_blockIds, Option.map_eq_some_iff] at hb hb'
  obtain ⟨stream, hstream, rfl⟩ := hb
  obtain ⟨stream', hstream', rfl⟩ := hb'
  cases stream with
  | shuffle id =>
    cases stream' with
    | shuffle id' =>
      have heq : id = id' := ShuffleBlockId.name_inj hname
      exact ⟨id, hstream, by rw [heq]; exact hstream'⟩
    | spill stageId' => exact absurd hname.symm (PmemBlockId.name_ne _ id)
  | spill stageId =>
    cases stream' with
    | shuffle id' => exact absurd hname (PmemBlockId.name_ne _ id')
    | spill stageId' =>
      have htmp := congrArg PmemBlockId.tmpId (PmemBlockId.name_inj hname)
      dsimp only at htmp
      rw [Int.zero_add, Int.zero_add] at htmp
      have hle : ∀ k, (streams.take k).countP NewStream.isSpill < 2 ^ 32 := fun k =>
        Nat.lt_of_le_of_lt (List.take_sublist k streams).countP_le hcalls
      have hsame := wrap32_inj_of_lt (hle i) (hle j) htmp
      rcases Nat.lt_or_gt_of_ne hij with hlt | hgt
      · have := countP_take_lt hlt hstream
        omega
      · have := countP_take_lt hgt hstream'
        omega

/-- Two attempts at one shuffle block and two spills of one stage. -/
theorem storage_keys_distinct_sample :
    (blockIds 0 [.spill 7, .shuffle ⟨7, 0, 0⟩, .spill 7, .shuffle ⟨7, 0, 0⟩]).map BlockId.name =
      ["reduce_spill_7_0", "shuffle_7_0_0", "reduce_spill_7_1", "shuffle_7_0_0"] ∧
    ∃ id, [NewStream.spill 7, .shuffle ⟨7, 0, 0⟩, .spill 7, .shuffle ⟨7, 0, 0⟩][1]? =
        some (.shuffle id) ∧
      [NewStream.spill 7, .shuffle ⟨7, 0, 0⟩, .spill 7, .shuffle ⟨7, 0, 0⟩][3]? =
        some (.shuffle id) :=
  ⟨by decide, (storage_keys_distinct
    [.spill 7, .shuffle ⟨7, 0, 0⟩, .spill 7, .shuffle ⟨7, 0, 0⟩] (by decide)).1 1 3 _ _ (by decide)
    rfl rfl rfl⟩

end SparkNvm.Storage
