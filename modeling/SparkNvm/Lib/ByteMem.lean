import Mathlib.Algebra.Order.Ring.Int
import Mathlib.Data.Finset.Card
import Mathlib.Data.List.GetD
import Mathlib.Order.Interval.Finset.Nat

/-!
# A flat byte memory

A memory is a function from addresses to bytes.  `loadBytes` and
`storeBytes` read and write a range, `load64` and `store64` read and write
one little-endian 64-bit word.  A `Region` is a range that an allocator has
handed out, and `Apart` says that two regions share no address.

The lemmas are of three kinds.

* The codec.  `decodeLE_encodeLE` is the round trip of a word.
* Read after write.  `loadBytes_storeBytes_self` is the same range,
  `loadBytes_storeBytes_of_disjoint` is a range that the store does not
  touch, and the `load64` versions follow from them.
* Counting.  Pairwise apart regions below a bound have at most that many
  bytes together (`sum_size_le_of_pairwise_apart`), so a counter of
  allocated bytes cannot wrap.
-/

namespace SparkNvm.Lib

/-- A byte memory, total: an address that nobody wrote holds some byte. -/
abbrev Mem := Nat → UInt8

/-! ## Little-endian words -/

/-- The `n` low bytes of `v`, least significant byte first. -/
def encodeLE : Nat → Nat → List UInt8
  | 0, _ => []
  | n + 1, v => UInt8.ofNat v :: encodeLE n (v / 256)

/-- The number that a little-endian byte list denotes. -/
def decodeLE : List UInt8 → Nat
  | [] => 0
  | b :: bs => b.toNat + 256 * decodeLE bs

@[simp] theorem encodeLE_length (n v : Nat) : (encodeLE n v).length = n := by
  induction n generalizing v with
  | zero => rfl
  | succ n ih => simp [encodeLE, ih]

/-- Decoding keeps the value modulo the width of the encoding. -/
theorem decodeLE_encodeLE (n v : Nat) :
    decodeLE (encodeLE n v) = v % 256 ^ n := by
  induction n generalizing v with
  | zero => simp [encodeLE, decodeLE, Nat.mod_one]
  | succ n ih =>
    have hbyte : (UInt8.ofNat v).toNat = v % 256 := by simp
    rw [encodeLE, decodeLE, ih, hbyte, Nat.pow_succ, Nat.mul_comm (256 ^ n) 256,
      Nat.mod_mul]

/-! ## Ranges -/

/-- The `n` bytes from address `a` up. -/
def loadBytes (m : Mem) (a n : Nat) : List UInt8 :=
  (List.range n).map fun i => m (a + i)

/-- Overwrite the range that starts at `a` with `bs`. -/
def storeBytes (m : Mem) (a : Nat) (bs : List UInt8) : Mem := fun x =>
  if a ≤ x ∧ x < a + bs.length then bs.getD (x - a) 0 else m x

/-- Read one 64-bit word. -/
def load64 (m : Mem) (a : Nat) : Nat := decodeLE (loadBytes m a 8)

/-- Write one 64-bit word, modulo `2 ^ 64`. -/
def store64 (m : Mem) (a v : Nat) : Mem := storeBytes m a (encodeLE 8 v)

@[simp] theorem loadBytes_length (m : Mem) (a n : Nat) :
    (loadBytes m a n).length = n := by
  simp [loadBytes]

@[simp] theorem loadBytes_zero (m : Mem) (a : Nat) : loadBytes m a 0 = [] := rfl

theorem loadBytes_getElem? (m : Mem) (a : Nat) {n i : Nat} (hi : i < n) :
    (loadBytes m a n)[i]? = some (m (a + i)) := by
  simp [loadBytes, hi]

/-- A range read depends on the bytes of the range only. -/
theorem loadBytes_congr {m m' : Mem} {a n : Nat}
    (h : ∀ x, a ≤ x → x < a + n → m' x = m x) :
    loadBytes m' a n = loadBytes m a n := by
  apply List.map_congr_left
  intro i hi
  rw [List.mem_range] at hi
  exact h (a + i) (Nat.le_add_right a i) (Nat.add_lt_add_left hi a)

/-- A longer read is a shorter read and the read of the rest. -/
theorem loadBytes_add (m : Mem) (a n k : Nat) :
    loadBytes m a (n + k) = loadBytes m a n ++ loadBytes m (a + n) k := by
  simp [loadBytes, List.range_add, Nat.add_assoc, Function.comp_def]

theorem loadBytes_take (m : Mem) (a n k : Nat) :
    (loadBytes m a n).take k = loadBytes m a (min k n) := by
  simp [loadBytes, ← List.map_take, List.take_range]

theorem storeBytes_of_not_mem (m : Mem) {a x : Nat} (bs : List UInt8)
    (h : ¬(a ≤ x ∧ x < a + bs.length)) : storeBytes m a bs x = m x := by
  rw [storeBytes, if_neg h]

@[simp] theorem storeBytes_nil (m : Mem) (a : Nat) : storeBytes m a [] = m := by
  funext x
  apply storeBytes_of_not_mem
  simp

/-- The range that a store wrote reads back as the stored bytes. -/
theorem loadBytes_storeBytes_self (m : Mem) (a : Nat) (bs : List UInt8) :
    loadBytes (storeBytes m a bs) a bs.length = bs := by
  apply List.ext_getElem?
  intro i
  by_cases hi : i < bs.length
  · rw [loadBytes_getElem? _ _ hi, storeBytes, if_pos (by omega)]
    simp [hi]
  · rw [List.getElem?_eq_none (by simpa using hi), List.getElem?_eq_none (by omega)]

/-- A range that shares no address with a store reads back as before. -/
theorem loadBytes_storeBytes_of_disjoint (m : Mem) {a b n : Nat}
    {bs : List UInt8} (h : b + n ≤ a ∨ a + bs.length ≤ b) :
    loadBytes (storeBytes m a bs) b n = loadBytes m b n := by
  apply loadBytes_congr
  intro x hlo hhi
  apply storeBytes_of_not_mem
  omega

/-- Two stores that lie end to end are one store. -/
theorem storeBytes_append (m : Mem) (a : Nat) (bs cs : List UInt8) :
    storeBytes (storeBytes m a bs) (a + bs.length) cs =
      storeBytes m a (bs ++ cs) := by
  funext x
  simp only [storeBytes, List.length_append]
  by_cases hcs : a + bs.length ≤ x ∧ x < a + bs.length + cs.length
  · rw [if_pos hcs, if_pos (by omega), List.getD_append_right _ _ _ _ (by omega)]
    congr 1
    omega
  · rw [if_neg hcs]
    by_cases hbs : a ≤ x ∧ x < a + bs.length
    · rw [if_pos hbs, if_pos (by omega), List.getD_append _ _ _ _ (by omega)]
    · rw [if_neg hbs, if_neg (by omega)]

/-! ## Words -/

theorem load64_congr {m m' : Mem} {a : Nat}
    (h : ∀ x, a ≤ x → x < a + 8 → m' x = m x) : load64 m' a = load64 m a := by
  rw [load64, load64, loadBytes_congr h]

theorem load64_store64_self (m : Mem) (a v : Nat) :
    load64 (store64 m a v) a = v % 2 ^ 64 := by
  have hload := loadBytes_storeBytes_self m a (encodeLE 8 v)
  rw [encodeLE_length] at hload
  rw [load64, store64, hload, decodeLE_encodeLE, show 256 ^ 8 = 2 ^ 64 from rfl]

theorem store64_of_not_mem (m : Mem) {a x : Nat} (v : Nat)
    (h : ¬(a ≤ x ∧ x < a + 8)) : store64 m a v x = m x := by
  apply storeBytes_of_not_mem
  rw [encodeLE_length]
  exact h

/-- A store adds no difference between two memories. -/
theorem store64_congr {m m' : Mem} {x : Nat} (a v : Nat) (h : m' x = m x) :
    store64 m' a v x = store64 m a v x := by
  rw [store64, store64, storeBytes, storeBytes, h]

theorem load64_store64_of_disjoint (m : Mem) {a b v : Nat}
    (h : b + 8 ≤ a ∨ a + 8 ≤ b) : load64 (store64 m a v) b = load64 m b := by
  apply load64_congr
  intro x hlo hhi
  apply store64_of_not_mem
  omega

theorem decodeLE_lt (bs : List UInt8) : decodeLE bs < 256 ^ bs.length := by
  induction bs with
  | nil => simp [decodeLE]
  | cons b bs ih =>
    have hb : b.toNat < 256 := UInt8.toNat_lt b
    simp only [decodeLE, List.length_cons, Nat.pow_succ]
    omega

theorem load64_lt (m : Mem) (a : Nat) : load64 m a < 2 ^ 64 := by
  have h := decodeLE_lt (loadBytes m a 8)
  rw [loadBytes_length] at h
  calc load64 m a < 256 ^ 8 := h
    _ = 2 ^ 64 := rfl

/-! ## Regions -/

/-- A range of addresses. -/
structure Region where
  base : Nat
  size : Nat
  deriving DecidableEq, Repr

/-- The address `x` lies in the region. -/
def Region.Has (r : Region) (x : Nat) : Prop := r.base ≤ x ∧ x < r.base + r.size

instance (r : Region) (x : Nat) : Decidable (r.Has x) := by
  unfold Region.Has; infer_instance

/-- The two regions share no address.  An empty region is apart from
every region, wherever it starts. -/
def Apart (r s : Region) : Prop :=
  r.base + r.size ≤ s.base ∨ s.base + s.size ≤ r.base ∨ r.size = 0 ∨ s.size = 0

instance (r s : Region) : Decidable (Apart r s) := by
  unfold Apart; infer_instance

theorem Apart.symm {r s : Region} (h : Apart r s) : Apart s r := by
  unfold Apart at *
  omega

theorem Apart.not_has {r s : Region} (h : Apart r s) {x : Nat} (hr : r.Has x) :
    ¬s.Has x := by
  unfold Apart at h
  unfold Region.Has at *
  omega

/-- A store into one region leaves the bytes of an apart region alone. -/
theorem storeBytes_of_apart (m : Mem) {r s : Region} {a x : Nat} {bs : List UInt8}
    (h : Apart r s) (hlo : r.base ≤ a) (hhi : a + bs.length ≤ r.base + r.size)
    (hx : s.Has x) : storeBytes m a bs x = m x := by
  apply storeBytes_of_not_mem
  intro hin
  exact h.symm.not_has hx ⟨by omega, by omega⟩

theorem store64_of_apart (m : Mem) {r s : Region} {a x v : Nat} (h : Apart r s)
    (hlo : r.base ≤ a) (hhi : a + 8 ≤ r.base + r.size) (hx : s.Has x) :
    store64 m a v x = m x :=
  storeBytes_of_apart m h hlo (by rw [encodeLE_length]; exact hhi) hx

/-- Two memories that agree on a region give the same words inside it. -/
theorem load64_of_agree {m m' : Mem} {r : Region} {a : Nat}
    (h : ∀ x, r.Has x → m' x = m x) (hlo : r.base ≤ a) (hhi : a + 8 ≤ r.base + r.size) :
    load64 m' a = load64 m a :=
  load64_congr fun x hx hx' => h x ⟨by omega, by omega⟩

theorem loadBytes_of_agree {m m' : Mem} {r : Region} {a n : Nat}
    (h : ∀ x, r.Has x → m' x = m x) (hlo : r.base ≤ a) (hhi : a + n ≤ r.base + r.size) :
    loadBytes m' a n = loadBytes m a n :=
  loadBytes_congr fun x hx hx' => h x ⟨by omega, by omega⟩

/-- The addresses of a region, as a finite set. -/
private def Region.addrs (r : Region) : Finset Nat :=
  Finset.Ico r.base (r.base + r.size)

private theorem sum_size_aux (rs : List Region) (hrs : rs.Pairwise Apart) :
    ∃ u : Finset Nat, u.card = (rs.map Region.size).sum ∧
      ∀ x ∈ u, ∃ r ∈ rs, r.Has x := by
  induction rs with
  | nil => exact ⟨∅, by simp, by simp⟩
  | cons r rs ih =>
    rw [List.pairwise_cons] at hrs
    obtain ⟨u, hcard, hu⟩ := ih hrs.2
    have hdisj : Disjoint r.addrs u := by
      rw [Finset.disjoint_left]
      intro x hx hxu
      obtain ⟨s, hs, hsx⟩ := hu x hxu
      have hrx : r.Has x := by
        simpa [Region.addrs, Region.Has] using hx
      exact (hrs.1 s hs).not_has hrx hsx
    refine ⟨r.addrs ∪ u, ?_, ?_⟩
    · rw [Finset.card_union_of_disjoint hdisj, hcard]
      simp [Region.addrs]
    · intro x hx
      rcases Finset.mem_union.mp hx with hx | hx
      · exact ⟨r, by simp, by simpa [Region.addrs, Region.Has] using hx⟩
      · obtain ⟨s, hs, hsx⟩ := hu x hx
        exact ⟨s, by simp [hs], hsx⟩

/-- Pairwise apart regions that end at or below `bound` hold at most
`bound` bytes together. -/
theorem sum_size_le_of_pairwise_apart {rs : List Region} {bound : Nat}
    (hrs : rs.Pairwise Apart) (hb : ∀ r ∈ rs, r.base + r.size ≤ bound) :
    (rs.map Region.size).sum ≤ bound := by
  obtain ⟨u, hcard, hu⟩ := sum_size_aux rs hrs
  rw [← hcard, ← Finset.card_range bound]
  apply Finset.card_le_card
  intro x hx
  obtain ⟨r, hr, hlo, hhi⟩ := hu x hx
  have := hb r hr
  rw [Finset.mem_range]
  omega

end SparkNvm.Lib
