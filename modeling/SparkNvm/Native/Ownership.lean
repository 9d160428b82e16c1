import SparkNvm.Native.Clients

/-!
# Who owns which memory

In every interleaving, the root, the entries and the values of all calls lie
apart.  A client writes its own entry and its own value while it fills them,
and after that only the root and the `next` field of an entry that some client
has already put into `bp->tail`.  So an entry that is filled stays filled,
whatever the other clients do.

* `PutPc.rank` counts how far a call is; `System.progress` is the rank of every
  call, finished or not.
* `Owned`: the ranges of the live owners are apart.
* `Filled`: what memory holds of a call, by rank.
* `Heap` is both, and that `bp->tail` names a linked entry.  `Heap.own` and
  `Heap.shared` say that it survives the two kinds of writes.
-/

namespace SparkNvm.Native

open Lib

variable {ι : Type} {hash : String → UInt64} {prog : ι → List PutCall}

/-! ## How far a call is -/

/-- The number of steps behind a client, with the two ways to link an entry
counted alike. -/
def PutPc.rank : PutPc → Nat
  | .allocEntry => 0
  | .allocData => 1
  | .setData => 2
  | .storeBytes => 3
  | .setNext => 4
  | .setKey => 5
  | .setSize => 6
  | .getTail => 7
  | .setHead => 8
  | .derefTail => 8
  | .linkNext _ => 9
  | .setTail => 10
  | .addLoad => 11
  | .addStore _ => 12
  | .updateMeta => 13

/-- The rank of a finished call. -/
def finished : Nat := 14

/-- The rank of every call of every client. -/
def System.progress (sys : System ι) (c : ι × Nat) : Nat :=
  if c.2 < (sys.ret c.1).length then finished
  else if c.2 = (sys.ret c.1).length then (sys.pc c.1).rank
  else 0

theorem System.progress_cur (sys : System ι) (i : ι) :
    sys.progress (sys.cur i) = (sys.pc i).rank := by
  simp [System.progress, System.cur]

variable [DecidableEq ι]

/-- A step inside a call changes the rank of that call only. -/
theorem System.progress_go (sys : System ι) (i : ι) (kv : Pmemkv) (pc : PutPc) :
    System.progress { kv := kv, pc := Function.update sys.pc i pc, ret := sys.ret } =
      Function.update sys.progress (sys.cur i) pc.rank := by
  funext c
  by_cases hc : c = sys.cur i
  · subst hc
    rw [Function.update_self]
    simp [System.progress, System.cur]
  · rw [Function.update_of_ne hc]
    by_cases hi : c.1 = i
    · have hn : c.2 ≠ (sys.ret c.1).length := by
        intro hn
        exact hc (Prod.ext hi (by rw [hn, hi]; rfl))
      simp [System.progress, hn]
    · simp [System.progress, hi]

/-- A return finishes the call and starts the next one of the client. -/
theorem System.progress_ret (sys : System ι) (i : ι) (kv : Pmemkv) (code : Int) :
    System.progress
      { kv := kv
        pc := Function.update sys.pc i .allocEntry
        ret := Function.update sys.ret i (sys.ret i ++ [code]) } =
      Function.update sys.progress (sys.cur i) finished := by
  funext c
  by_cases hc : c = sys.cur i
  · subst hc
    rw [Function.update_self]
    simp [System.progress, System.cur]
  · rw [Function.update_of_ne hc]
    by_cases hi : c.1 = i
    · obtain ⟨c1, n⟩ := c
      have hi' : c1 = i := hi
      subst hi'
      have hn : n ≠ (sys.ret c1).length := by
        intro hn
        exact hc (by rw [hn]; rfl)
      have hlt : n < (sys.ret c1).length + 1 ↔ n < (sys.ret c1).length := by omega
      by_cases hsucc : n = (sys.ret c1).length + 1
      · simp [System.progress, hsucc, PutPc.rank]
      · simp [System.progress, hlt, hn, hsucc]
    · simp [System.progress, hi]

/-! ## Owners and their ranges -/

/-- What a range of memory belongs to. -/
inductive Owner (ι : Type) where
  | root
  | header (c : ι × Nat)
  | payload (c : ι × Nat)
  deriving DecidableEq

/-- The range of the `block_entry` of a call. -/
def PutCall.header (call : PutCall) : Region := ⟨call.ans.entry, sizeofBlockEntry⟩

/-- The range of the value of a call. -/
def PutCall.payload (call : PutCall) : Region := ⟨call.ans.data, call.value.length⟩

/-- The owner has this range under the ranks `p`. -/
inductive Owns (prog : ι → List PutCall) (p : ι × Nat → Nat) (bp : Nat) : Owner ι → Region → Prop
  | root : Owns prog p bp .root (baseRegion bp)
  | header {c : ι × Nat} {call : PutCall} (hcall : callAt prog c = some call) (hp : 1 ≤ p c) :
      Owns prog p bp (.header c) call.header
  | payload {c : ι × Nat} {call : PutCall} (hcall : callAt prog c = some call) (hp : 2 ≤ p c) :
      Owns prog p bp (.payload c) call.payload

/-- The ranges of all owners are apart and were handed out by the service. -/
structure Owned (prog : ι → List PutCall) (p : ι × Nat → Nat) (bp : Nat)
    (regions : List Region) : Prop where
  bp_ne : bp ≠ 0
  apart : ∀ o r o' r', Owns prog p bp o r → Owns prog p bp o' r' → o ≠ o' → Apart r r'
  mem : ∀ o r, Owns prog p bp o r → r ∈ regions
  bounded : ∀ o r, Owns prog p bp o r → r.base + r.size ≤ 2 ^ 64
  entry_ne : ∀ c call, callAt prog c = some call → 1 ≤ p c →
    call.ans.entry ≠ 0 ∧ call.ans.entry < 2 ^ 64
  data_ne : ∀ c call, callAt prog c = some call → 2 ≤ p c →
    call.ans.data ≠ 0 ∧ call.ans.data < 2 ^ 64

section Owned

variable {p : ι × Nat → Nat} {bp : Nat} {regions : List Region} {c₀ : ι × Nat} {call₀ : PutCall}

/-- Owners of the changed ranks were owners before, but for the new ranges of
the call that moved. -/
theorem Owns.of_update {n : Nat} {o : Owner ι} {r : Region}
    (hcall : callAt prog c₀ = some call₀) (h : Owns prog (Function.update p c₀ n) bp o r) :
    Owns prog p bp o r ∨ (o = .header c₀ ∧ r = call₀.header ∧ 1 ≤ n ∧ p c₀ < 1) ∨
      (o = .payload c₀ ∧ r = call₀.payload ∧ 2 ≤ n ∧ p c₀ < 2) := by
  cases h with
  | root => exact .inl .root
  | @header c call hc hp =>
    by_cases heq : c = c₀
    · subst heq
      rw [Function.update_self] at hp
      have hsame : call = call₀ := Option.some.inj (hc.symm.trans hcall)
      subst hsame
      by_cases hlt : p c < 1
      · exact .inr (.inl ⟨rfl, rfl, hp, hlt⟩)
      · exact .inl (.header hc (by omega))
    · rw [Function.update_of_ne heq] at hp
      exact .inl (.header hc hp)
  | @payload c call hc hp =>
    by_cases heq : c = c₀
    · subst heq
      rw [Function.update_self] at hp
      have hsame : call = call₀ := Option.some.inj (hc.symm.trans hcall)
      subst hsame
      by_cases hlt : p c < 2
      · exact .inr (.inr ⟨rfl, rfl, hp, hlt⟩)
      · exact .inl (.payload hc (by omega))
    · rw [Function.update_of_ne heq] at hp
      exact .inl (.payload hc hp)

/-- A step that allocates nothing. -/
theorem Owned.advance (h : Owned prog p bp regions) (hcall : callAt prog c₀ = some call₀)
    (hp : 2 ≤ p c₀) (n : Nat) : Owned prog (Function.update p c₀ n) bp regions := by
  have hold : ∀ o r, Owns prog (Function.update p c₀ n) bp o r → Owns prog p bp o r := by
    intro o r ho
    rcases ho.of_update hcall with ho | ⟨_, _, _, hlt⟩ | ⟨_, _, _, hlt⟩
    · exact ho
    · omega
    · omega
  refine ⟨h.bp_ne, fun o r o' r' ho ho' => h.apart o r o' r' (hold o r ho) (hold o' r' ho'),
    fun o r ho => h.mem o r (hold o r ho), fun o r ho => h.bounded o r (hold o r ho), ?_, ?_⟩
  · intro c call hc hpc
    by_cases heq : c = c₀
    · subst heq
      exact h.entry_ne c call hc (by omega)
    · rw [Function.update_of_ne heq] at hpc
      exact h.entry_ne c call hc hpc
  · intro c call hc hpc
    by_cases heq : c = c₀
    · subst heq
      exact h.data_ne c call hc hp
    · rw [Function.update_of_ne heq] at hpc
      exact h.data_ne c call hc hpc

/-- The shape of both allocations: one new owner gets a fresh range. -/
private theorem owned_insert {n : Nat} (o₀ : Owner ι) {r₀ : Region}
    (h : Owned prog p bp regions)
    (hold : ∀ o r, Owns prog (Function.update p c₀ n) bp o r →
      Owns prog p bp o r ∨ (o = o₀ ∧ r = r₀))
    (hfresh : ∀ r ∈ regions, Apart r₀ r) (hbound : r₀.base + r₀.size ≤ 2 ^ 64)
    (hentry : ∀ c call, callAt prog c = some call → 1 ≤ Function.update p c₀ n c →
      call.ans.entry ≠ 0 ∧ call.ans.entry < 2 ^ 64)
    (hdata : ∀ c call, callAt prog c = some call → 2 ≤ Function.update p c₀ n c →
      call.ans.data ≠ 0 ∧ call.ans.data < 2 ^ 64) :
    Owned prog (Function.update p c₀ n) bp (r₀ :: regions) := by
  refine ⟨h.bp_ne, ?_, ?_, ?_, hentry, hdata⟩
  · intro o r o' r' ho ho' hne
    rcases hold o r ho with ho | ⟨rfl, rfl⟩
    · rcases hold o' r' ho' with ho' | ⟨rfl, rfl⟩
      · exact h.apart o r o' r' ho ho' hne
      · exact (hfresh r (h.mem o r ho)).symm
    · rcases hold o' r' ho' with ho' | ⟨rfl, rfl⟩
      · exact hfresh r' (h.mem o' r' ho')
      · exact absurd rfl hne
  · intro o r ho
    rcases hold o r ho with ho | ⟨_, rfl⟩
    · exact List.mem_cons_of_mem _ (h.mem o r ho)
    · simp
  · intro o r ho
    rcases hold o r ho with ho | ⟨_, rfl⟩
    · exact h.bounded o r ho
    · exact hbound

/-- `TBPAlloc` of the entry. -/
theorem Owned.allocEntry {s : Service} (h : Owned prog p bp s.regions)
    (hcall : callAt prog c₀ = some call₀) (hp : p c₀ = 0)
    (hgrant : s.Grants sizeofBlockEntry call₀.ans.entry) :
    Owned prog (Function.update p c₀ 1) bp (call₀.header :: s.regions) := by
  obtain ⟨h0, hlt, hbound, hfresh⟩ := hgrant
  refine owned_insert (.header c₀) h ?_ hfresh hbound ?_ ?_
  · intro o r ho
    rcases ho.of_update hcall with ho | ⟨ho, hr, _⟩ | ⟨_, _, hn, _⟩
    · exact .inl ho
    · exact .inr ⟨ho, hr⟩
    · omega
  · intro c call hc hpc
    by_cases heq : c = c₀
    · subst heq
      have hsame : call = call₀ := Option.some.inj (hc.symm.trans hcall)
      rw [hsame]
      exact ⟨h0, hlt⟩
    · rw [Function.update_of_ne heq] at hpc
      exact h.entry_ne c call hc hpc
  · intro c call hc hpc
    by_cases heq : c = c₀
    · subst heq
      rw [Function.update_self] at hpc
      omega
    · rw [Function.update_of_ne heq] at hpc
      exact h.data_ne c call hc hpc

/-- `TBPAlloc` of the value. -/
theorem Owned.allocData {s : Service} (h : Owned prog p bp s.regions)
    (hcall : callAt prog c₀ = some call₀) (hp : p c₀ = 1)
    (hgrant : s.Grants call₀.value.length call₀.ans.data) :
    Owned prog (Function.update p c₀ 2) bp (call₀.payload :: s.regions) := by
  obtain ⟨h0, hlt, hbound, hfresh⟩ := hgrant
  refine owned_insert (.payload c₀) h ?_ hfresh hbound ?_ ?_
  · intro o r ho
    rcases ho.of_update hcall with ho | ⟨_, _, _, hn⟩ | ⟨ho, hr, _⟩
    · exact .inl ho
    · omega
    · exact .inr ⟨ho, hr⟩
  · intro c call hc hpc
    by_cases heq : c = c₀
    · subst heq
      exact h.entry_ne c call hc (by omega)
    · rw [Function.update_of_ne heq] at hpc
      exact h.entry_ne c call hc hpc
  · intro c call hc hpc
    by_cases heq : c = c₀
    · subst heq
      have hsame : call = call₀ := Option.some.inj (hc.symm.trans hcall)
      rw [hsame]
      exact ⟨h0, hlt⟩
    · rw [Function.update_of_ne heq] at hpc
      exact h.data_ne c call hc hpc

end Owned

/-! ## What memory holds of a call -/

/-- The fields that a call has written so far.  Its `next` field is null until
the entry is in `bp->tail`; from then on another client may link through it. -/
structure Filled (hash : String → UInt64) (m : Mem) (call : PutCall) (n : Nat) : Prop where
  data : 3 ≤ n → load64 m (dataAddr call.ans.entry) = call.ans.data
  bytes : 4 ≤ n → loadBytes m call.ans.data call.value.length = call.value
  next : 5 ≤ n → n ≤ 10 → load64 m (nextAddr call.ans.entry) = 0
  key : 6 ≤ n → load64 m (keyAddr call.ans.entry) = (hash call.key).toNat
  size : 7 ≤ n → load64 m (sizeAddr call.ans.entry) = call.value.length

section Filled

variable {m m' : Mem} {call : PutCall} {n n' : Nat}

theorem Filled.frame (h : Filled hash m call n)
    (hfields : 1 ≤ n → ∀ x, call.ans.entry + 8 ≤ x → x < call.ans.entry + 32 → m' x = m x)
    (hnext : 1 ≤ n → n ≤ 10 → ∀ x, call.ans.entry ≤ x → x < call.ans.entry + 8 → m' x = m x)
    (hpayload : 2 ≤ n → ∀ x, call.payload.Has x → m' x = m x) : Filled hash m' call n where
  data := by
    intro hn
    rw [← h.data hn]
    exact load64_congr fun x hlo hhi => hfields (by omega) x (by unfold dataAddr at *; omega)
      (by unfold dataAddr at *; omega)
  bytes := by
    intro hn
    have hsame : loadBytes m' call.ans.data call.value.length =
        loadBytes m call.ans.data call.value.length :=
      loadBytes_congr fun x hlo hhi => hpayload (by omega) x ⟨hlo, hhi⟩
    rw [hsame]
    exact h.bytes hn
  next := by
    intro hn hn'
    rw [← h.next hn hn']
    exact load64_congr fun x hlo hhi => hnext (by omega) hn' x hlo hhi
  key := by
    intro hn
    rw [← h.key hn]
    exact load64_congr fun x hlo hhi => hfields (by omega) x (by unfold keyAddr at *; omega)
      (by unfold keyAddr at *; omega)
  size := by
    intro hn
    rw [← h.size hn]
    exact load64_congr fun x hlo hhi => hfields (by omega) x (by unfold sizeAddr at *; omega)
      (by unfold sizeAddr at *; omega)

/-- Before its first store a call has written nothing. -/
theorem filled_of_lt (m : Mem) (call : PutCall) (hn : n < 3) : Filled hash m call n :=
  ⟨by omega, by omega, by omega, by omega, by omega⟩

/-- From rank 7 on every field is there. -/
theorem Filled.mono (h : Filled hash m call n) (hn : 7 ≤ n) (hle : n ≤ n') :
    Filled hash m call n' where
  data _ := h.data (by omega)
  bytes _ := h.bytes (by omega)
  next _ hn' := h.next (by omega) (by omega)
  key _ := h.key (by omega)
  size _ := h.size (by omega)

/-- A complete entry. -/
theorem Filled.entryIn (h : Filled hash m call n) (hn : 7 ≤ n) (hdata : call.ans.data ≠ 0) :
    EntryIn m (call.entry hash) :=
  ⟨h.key (by omega), h.size hn, h.data (by omega), h.bytes (by omega), hdata⟩

end Filled

/-! ## The heap invariant -/

/-- Some client has put the entry at `t` into `bp->tail`. -/
def LinkedAt (prog : ι → List PutCall) (p : ι × Nat → Nat) (t : Nat) : Prop :=
  ∃ c call, callAt prog c = some call ∧ 11 ≤ p c ∧ call.ans.entry = t

/-- The ranges are apart, every call has written what its rank says, and
`bp->tail` names a linked entry as soon as there is one. -/
structure Heap (hash : String → UInt64) (prog : ι → List PutCall) (p : ι × Nat → Nat)
    (kv : Pmemkv) : Prop where
  owned : Owned prog p kv.bp kv.service.regions
  filled : ∀ c call, callAt prog c = some call → Filled hash kv.service.mem call (p c)
  tail : (load64 kv.service.mem (tailAddr kv.bp) = 0 ∧
      ∀ c call, callAt prog c = some call → p c ≤ 10) ∨
    LinkedAt prog p (load64 kv.service.mem (tailAddr kv.bp))

section Heap

variable {p : ι × Nat → Nat} {kv kv' : Pmemkv} {c₀ : ι × Nat} {call₀ : PutCall} {n : Nat}

theorem LinkedAt.update {t : Nat} (h : LinkedAt prog p t) (hle : p c₀ ≤ n) :
    LinkedAt prog (Function.update p c₀ n) t := by
  obtain ⟨c, call, hcall, hp, ht⟩ := h
  refine ⟨c, call, hcall, ?_, ht⟩
  by_cases heq : c = c₀
  · subst heq
    rw [Function.update_self]
    omega
  · rw [Function.update_of_ne heq]
    exact hp

/-- The `next` field of a linked entry is in the fields of no call, and in the
`next` field of no call that is not linked itself. -/
theorem Owned.next_miss (h : Owned prog p kv.bp kv.service.regions) {c : ι × Nat}
    {call : PutCall} (hcall : callAt prog c = some call) {t x : Nat} (ht : LinkedAt prog p t)
    (hx : t ≤ x ∧ x < t + 8) :
    (1 ≤ p c → ¬(call.ans.entry + 8 ≤ x ∧ x < call.ans.entry + 32)) ∧
      (1 ≤ p c → p c ≤ 10 → ¬(call.ans.entry ≤ x ∧ x < call.ans.entry + 8)) ∧
      (2 ≤ p c → ¬call.payload.Has x) := by
  obtain ⟨c', call', hcall', hp', rfl⟩ := ht
  have hin : call'.header.Has x :=
    Entry.header_has_next (e := call'.entry hash) hx
  refine ⟨fun hp hfield => ?_, fun hp hle hnext => ?_, fun hp hpay => ?_⟩
  · by_cases heq : c = c'
    · subst heq
      have hsame : call = call' := Option.some.inj (hcall.symm.trans hcall')
      rw [hsame] at hfield
      omega
    · have hap := h.apart _ _ _ _ (.header hcall hp) (.header hcall' (by omega)) (by simp [heq])
      exact hap.symm.not_has hin (Entry.header_has_field (e := call.entry hash) hfield.1 hfield.2)
  · have heq : c ≠ c' := by
      intro heq
      rw [heq] at hle
      omega
    have hap := h.apart _ _ _ _ (.header hcall hp) (.header hcall' (by omega)) (by simp [heq])
    exact hap.symm.not_has hin (Entry.header_has_next (e := call.entry hash) hnext)
  · have hap := h.apart _ _ _ _ (.payload hcall hp) (.header hcall' (by omega)) (by simp)
    exact hap.symm.not_has hin hpay

/-- A step that writes only into the ranges of its own call, or allocates. -/
theorem Heap.own (h : Heap hash prog p kv) (hcall : callAt prog c₀ = some call₀)
    (hbp : kv'.bp = kv.bp) (hle : p c₀ ≤ n) (hn : n ≤ 10)
    (howned : Owned prog (Function.update p c₀ n) kv.bp kv'.service.regions)
    (hmem : ∀ x, (1 ≤ n → ¬call₀.header.Has x) → (2 ≤ n → ¬call₀.payload.Has x) →
      kv'.service.mem x = kv.service.mem x)
    (hfill : Filled hash kv'.service.mem call₀ n) :
    Heap hash prog (Function.update p c₀ n) kv' := by
  -- a range of another owner is untouched
  have hother : ∀ o r, Owns prog (Function.update p c₀ n) kv.bp o r → o ≠ .header c₀ →
      o ≠ .payload c₀ → ∀ x, r.Has x → kv'.service.mem x = kv.service.mem x := by
    intro o r ho hne hne' x hx
    refine hmem x (fun hn => ?_) fun hn => ?_
    · have hown : Owns prog (Function.update p c₀ n) kv.bp (.header c₀) call₀.header :=
        .header hcall (by rw [Function.update_self]; exact hn)
      exact (howned.apart _ _ _ _ ho hown hne).not_has hx
    · have hown : Owns prog (Function.update p c₀ n) kv.bp (.payload c₀) call₀.payload :=
        .payload hcall (by rw [Function.update_self]; exact hn)
      exact (howned.apart _ _ _ _ ho hown hne').not_has hx
  have htail : load64 kv'.service.mem (tailAddr kv.bp) = load64 kv.service.mem (tailAddr kv.bp) :=
    load64_of_agree (hother .root _ .root (by simp) (by simp)) (Nat.le_add_right kv.bp 8)
      (Nat.add_le_add_left (show 16 ≤ 64 by decide) kv.bp)
  refine ⟨by rw [hbp]; exact howned, ?_, ?_⟩
  · intro c call hc
    by_cases heq : c = c₀
    · subst heq
      have hsame : call = call₀ := Option.some.inj (hc.symm.trans hcall)
      rw [Function.update_self, hsame]
      exact hfill
    · rw [Function.update_of_ne heq]
      have hp : Function.update p c₀ n c = p c := Function.update_of_ne heq _ _
      have hheader : 1 ≤ p c → ∀ x, call.header.Has x → kv'.service.mem x = kv.service.mem x :=
        fun hn => hother (.header c) _ (.header hc (by rw [hp]; exact hn)) (by simp [heq])
          (by simp)
      refine (h.filled c call hc).frame (fun hn x hlo hhi => ?_) (fun hn _ x hlo hhi => ?_) ?_
      · exact hheader hn x (Entry.header_has_field (e := call.entry hash) hlo hhi)
      · exact hheader hn x (Entry.header_has_next (e := call.entry hash) ⟨hlo, hhi⟩)
      · exact fun hn => hother (.payload c) _ (.payload hc (by rw [hp]; exact hn)) (by simp)
          (by simp [heq])
  · rw [hbp, htail]
    refine h.tail.imp (fun ht => ⟨ht.1, fun c call hc => ?_⟩) fun ht => ht.update hle
    by_cases heq : c = c₀
    · subst heq
      rw [Function.update_self]
      exact hn
    · rw [Function.update_of_ne heq]
      exact ht.2 c call hc

/-- A step of a call with a complete entry: it writes only into the root and
into the `next` field of a linked entry. -/
theorem Heap.shared (h : Heap hash prog p kv) (hcall : callAt prog c₀ = some call₀)
    (hbp : kv'.bp = kv.bp) (hregions : kv'.service.regions = kv.service.regions)
    (hp : 7 ≤ p c₀) (hle : p c₀ ≤ n)
    (hmem : ∀ x, ¬(baseRegion kv.bp).Has x →
      (∀ t, LinkedAt prog p t → ¬(t ≤ x ∧ x < t + 8)) →
      kv'.service.mem x = kv.service.mem x)
    (htail : load64 kv'.service.mem (tailAddr kv.bp) = load64 kv.service.mem (tailAddr kv.bp) ∧
        (n ≤ 10 ∨ 11 ≤ p c₀) ∨
      load64 kv'.service.mem (tailAddr kv.bp) = call₀.ans.entry ∧ 11 ≤ n) :
    Heap hash prog (Function.update p c₀ n) kv' := by
  have hfilled : ∀ c call, callAt prog c = some call →
      Filled hash kv'.service.mem call (p c) := by
    intro c call hc
    refine (h.filled c call hc).frame (fun hn x hlo hhi => ?_) (fun hn hle' x hlo hhi => ?_)
      fun hn x hx => ?_
    · refine hmem x ?_ fun t ht hin => ?_
      · have hap := h.owned.apart _ _ _ _ (.header hc hn) .root (by simp)
        exact hap.not_has (Entry.header_has_field (e := call.entry hash) hlo hhi)
      · exact (h.owned.next_miss hc ht hin).1 hn ⟨hlo, hhi⟩
    · refine hmem x ?_ fun t ht hin => ?_
      · have hap := h.owned.apart _ _ _ _ (.header hc hn) .root (by simp)
        exact hap.not_has (Entry.header_has_next (e := call.entry hash) ⟨hlo, hhi⟩)
      · exact (h.owned.next_miss hc ht hin).2.1 hn hle' ⟨hlo, hhi⟩
    · refine hmem x ?_ fun t ht hin => ?_
      · have hap := h.owned.apart _ _ _ _ (.payload hc hn) .root (by simp)
        exact hap.not_has hx
      · exact (h.owned.next_miss hc ht hin).2.2 hn hx
  refine ⟨?_, ?_, ?_⟩
  · rw [hbp, hregions]
    exact h.owned.advance hcall (by omega) n
  · intro c call hc
    by_cases heq : c = c₀
    · subst heq
      rw [Function.update_self]
      exact (hfilled c call hc).mono hp hle
    · rw [Function.update_of_ne heq]
      exact hfilled c call hc
  · rw [hbp]
    rcases htail with ⟨hsame, hn⟩ | ⟨hnew, hn⟩
    · rw [hsame]
      refine h.tail.imp (fun ht => ⟨ht.1, fun c call hc => ?_⟩) fun ht => ht.update hle
      have hpc := ht.2 c call hc
      by_cases heq : c = c₀
      · subst heq
        rw [Function.update_self]
        omega
      · rw [Function.update_of_ne heq]
        exact hpc
    · rw [hnew]
      exact .inr ⟨c₀, call₀, hcall, by rw [Function.update_self]; exact hn, rfl⟩

/-! ### The steps that fill an entry -/

theorem Heap.allocEntry (h : Heap hash prog p kv) (hcall : callAt prog c₀ = some call₀)
    (hp : p c₀ = 0) (hgrant : kv.service.Grants sizeofBlockEntry call₀.ans.entry) :
    Heap hash prog (Function.update p c₀ 1)
      (kv.withService (kv.service.tbpAlloc sizeofBlockEntry call₀.ans.entry)) := by
  have hregions := Service.tbpAlloc_regions kv.service call₀.ans.entry sizeofBlockEntry hgrant.1
  refine h.own hcall rfl (by omega) (by omega) ?_ (fun x _ _ => ?_)
    (filled_of_lt _ _ (by omega))
  · rw [Pmemkv.withService_service, hregions]
    exact h.owned.allocEntry hcall hp hgrant
  · rw [Pmemkv.withService_service, Service.tbpAlloc_mem]

theorem Heap.allocData (h : Heap hash prog p kv) (hcall : callAt prog c₀ = some call₀)
    (hp : p c₀ = 1) (hgrant : kv.service.Grants call₀.value.length call₀.ans.data) :
    Heap hash prog (Function.update p c₀ 2)
      (kv.withService (kv.service.tbpAlloc call₀.value.length call₀.ans.data)) := by
  have hregions := Service.tbpAlloc_regions kv.service call₀.ans.data call₀.value.length hgrant.1
  refine h.own hcall rfl (by omega) (by omega) ?_ (fun x _ _ => ?_)
    (filled_of_lt _ _ (by omega))
  · rw [Pmemkv.withService_service, hregions]
    exact h.owned.allocData hcall hp hgrant
  · rw [Pmemkv.withService_service, Service.tbpAlloc_mem]

/-- A store into the header of the own call.  The other fields of the header
and the value keep what they hold. -/
private theorem Heap.ownField (h : Heap hash prog p kv) (hcall : callAt prog c₀ = some call₀)
    (hp : 2 ≤ p c₀) (hle : p c₀ ≤ n) (hn : n ≤ 10) {a v : Nat} (hlo : call₀.ans.entry ≤ a)
    (hhi : a + 8 ≤ call₀.ans.entry + 32)
    (hfill : Filled hash (store64 kv.service.mem a v) call₀ n) :
    Heap hash prog (Function.update p c₀ n)
      (kv.withService ⟨store64 kv.service.mem a v, kv.service.regions⟩) := by
  refine h.own hcall rfl hle hn (h.owned.advance hcall hp n) (fun x hx _ => ?_) hfill
  apply store64_of_not_mem
  intro hin
  exact hx (by omega) ⟨by show call₀.ans.entry ≤ x; omega, by
    show x < call₀.ans.entry + 32; omega⟩

omit [DecidableEq ι] in
/-- A store into the header misses the value. -/
private theorem Heap.bytes_store (h : Heap hash prog p kv) (hcall : callAt prog c₀ = some call₀)
    (hp : 2 ≤ p c₀) {a v : Nat} (hlo : call₀.ans.entry ≤ a) (hhi : a + 8 ≤ call₀.ans.entry + 32) :
    loadBytes (store64 kv.service.mem a v) call₀.ans.data call₀.value.length =
      loadBytes kv.service.mem call₀.ans.data call₀.value.length := by
  have hap : Apart call₀.header call₀.payload :=
    h.owned.apart _ _ _ _ (.header hcall (by omega)) (.payload hcall hp) (by simp)
  have hagree : ∀ x, call₀.payload.Has x → store64 kv.service.mem a v x = kv.service.mem x :=
    fun x hx => store64_of_apart kv.service.mem hap hlo hhi hx
  exact loadBytes_of_agree hagree (Nat.le_refl _) (Nat.le_refl _)

theorem Heap.setData (h : Heap hash prog p kv) (hcall : callAt prog c₀ = some call₀)
    (hp : p c₀ = 2) :
    Heap hash prog (Function.update p c₀ 3) (kv.withService
      ⟨store64 kv.service.mem (dataAddr call₀.ans.entry) call₀.ans.data, kv.service.regions⟩) := by
  refine h.ownField hcall (by omega) (by omega) (by omega) (Nat.le_add_right _ 24)
    (Nat.le_refl (call₀.ans.entry + 32)) ?_
  refine ⟨fun _ => ?_, by omega, by omega, by omega, by omega⟩
  rw [load64_store64_self]
  exact Nat.mod_eq_of_lt (h.owned.data_ne c₀ call₀ hcall (by omega)).2

theorem Heap.storeBytes (h : Heap hash prog p kv) (hcall : callAt prog c₀ = some call₀)
    (hp : p c₀ = 3) :
    Heap hash prog (Function.update p c₀ 4) (kv.withService
      ⟨Lib.storeBytes kv.service.mem call₀.ans.data call₀.value, kv.service.regions⟩) := by
  have hold := h.filled c₀ call₀ hcall
  rw [hp] at hold
  have hap : Apart call₀.payload call₀.header :=
    h.owned.apart _ _ _ _ (.payload hcall (by omega)) (.header hcall (by omega)) (by simp)
  have hagree : ∀ x, call₀.header.Has x →
      Lib.storeBytes kv.service.mem call₀.ans.data call₀.value x = kv.service.mem x :=
    fun x hx => storeBytes_of_apart kv.service.mem hap (Nat.le_refl _) (Nat.le_refl _) hx
  refine h.own hcall rfl (by omega) (by omega) (h.owned.advance hcall (by omega) 4)
    (fun x _ hx => ?_) ?_
  · have hout : ¬(call₀.ans.data ≤ x ∧ x < call₀.ans.data + call₀.value.length) := hx (by omega)
    exact storeBytes_of_not_mem _ _ hout
  · have hbytes := loadBytes_storeBytes_self kv.service.mem call₀.ans.data call₀.value
    rw [Pmemkv.withService_service]
    refine ⟨fun _ => ?_, fun _ => hbytes, by omega, by omega, by omega⟩
    have hsame : load64 (Lib.storeBytes kv.service.mem call₀.ans.data call₀.value)
        (dataAddr call₀.ans.entry) = load64 kv.service.mem (dataAddr call₀.ans.entry) :=
      load64_of_agree hagree (Nat.le_add_right call₀.ans.entry 24)
        (Nat.le_refl (call₀.ans.entry + 32))
    exact hsame.trans (hold.data (by omega))

theorem Heap.setNext (h : Heap hash prog p kv) (hcall : callAt prog c₀ = some call₀)
    (hp : p c₀ = 4) :
    Heap hash prog (Function.update p c₀ 5) (kv.withService
      ⟨store64 kv.service.mem (nextAddr call₀.ans.entry) 0, kv.service.regions⟩) := by
  have hold := h.filled c₀ call₀ hcall
  rw [hp] at hold
  have hlo : call₀.ans.entry ≤ nextAddr call₀.ans.entry := Nat.le_refl _
  have hhi : nextAddr call₀.ans.entry + 8 ≤ call₀.ans.entry + 32 := by unfold nextAddr; omega
  refine h.ownField hcall (by omega) (by omega) (by omega) hlo hhi ?_
  refine ⟨fun _ => ?_, fun _ => ?_, fun _ _ => ?_, by omega, by omega⟩
  · rw [load64_store64_of_disjoint _ (by unfold nextAddr dataAddr; omega)]
    exact hold.data (by omega)
  · rw [h.bytes_store hcall (by omega) hlo hhi]
    exact hold.bytes (by omega)
  · rw [load64_store64_self, Nat.zero_mod]

theorem Heap.setKey (h : Heap hash prog p kv) (hcall : callAt prog c₀ = some call₀)
    (hp : p c₀ = 5) :
    Heap hash prog (Function.update p c₀ 6) (kv.withService
      ⟨store64 kv.service.mem (keyAddr call₀.ans.entry) (hash call₀.key).toNat,
        kv.service.regions⟩) := by
  have hold := h.filled c₀ call₀ hcall
  rw [hp] at hold
  have hlo : call₀.ans.entry ≤ keyAddr call₀.ans.entry := Nat.le_add_right _ 8
  have hhi : keyAddr call₀.ans.entry + 8 ≤ call₀.ans.entry + 32 := by unfold keyAddr; omega
  refine h.ownField hcall (by omega) (by omega) (by omega) hlo hhi ?_
  refine ⟨fun _ => ?_, fun _ => ?_, fun _ _ => ?_, fun _ => ?_, by omega⟩
  · rw [load64_store64_of_disjoint _ (by unfold keyAddr dataAddr; omega)]
    exact hold.data (by omega)
  · rw [h.bytes_store hcall (by omega) hlo hhi]
    exact hold.bytes (by omega)
  · rw [load64_store64_of_disjoint _ (by unfold keyAddr nextAddr; omega)]
    exact hold.next (by omega) (by omega)
  · rw [load64_store64_self]
    exact Nat.mod_eq_of_lt (hash call₀.key).toNat_lt

theorem Heap.setSize (h : Heap hash prog p kv) (hcall : callAt prog c₀ = some call₀)
    (hp : p c₀ = 6) :
    Heap hash prog (Function.update p c₀ 7) (kv.withService
      ⟨store64 kv.service.mem (sizeAddr call₀.ans.entry) call₀.value.length,
        kv.service.regions⟩) := by
  have hold := h.filled c₀ call₀ hcall
  rw [hp] at hold
  have hlo : call₀.ans.entry ≤ sizeAddr call₀.ans.entry := Nat.le_add_right _ 16
  have hhi : sizeAddr call₀.ans.entry + 8 ≤ call₀.ans.entry + 32 := by unfold sizeAddr; omega
  refine h.ownField hcall (by omega) (by omega) (by omega) hlo hhi ?_
  refine ⟨fun _ => ?_, fun _ => ?_, fun _ _ => ?_, fun _ => ?_, fun _ => ?_⟩
  · rw [load64_store64_of_disjoint _ (by unfold sizeAddr dataAddr; omega)]
    exact hold.data (by omega)
  · rw [h.bytes_store hcall (by omega) hlo hhi]
    exact hold.bytes (by omega)
  · rw [load64_store64_of_disjoint _ (by unfold sizeAddr nextAddr; omega)]
    exact hold.next (by omega) (by omega)
  · rw [load64_store64_of_disjoint _ (by unfold sizeAddr keyAddr; omega)]
    exact hold.key (by omega)
  · rw [load64_store64_self]
    have hbound : call₀.ans.data + call₀.value.length ≤ 2 ^ 64 :=
      h.owned.bounded _ _ (.payload hcall (by omega))
    have hne := (h.owned.data_ne c₀ call₀ hcall (by omega)).1
    exact Nat.mod_eq_of_lt (by omega)

/-! ### The steps that link it -/

/-- A step that changes nothing but the rank. -/
theorem Heap.read (h : Heap hash prog p kv) (hcall : callAt prog c₀ = some call₀)
    (hp : 7 ≤ p c₀) (hle : p c₀ ≤ n) (hn : n ≤ 10 ∨ 11 ≤ p c₀) :
    Heap hash prog (Function.update p c₀ n) kv :=
  h.shared hcall rfl rfl hp hle (fun _ _ _ => rfl) (.inl ⟨rfl, hn⟩)

/-- A store into the root that misses the tail word. -/
theorem Heap.storeRoot (h : Heap hash prog p kv) (hcall : callAt prog c₀ = some call₀)
    (hp : 7 ≤ p c₀) (hle : p c₀ ≤ n) (hn : n ≤ 10 ∨ 11 ≤ p c₀) {a : Nat} (hlo : kv.bp ≤ a)
    (hhi : a + 8 ≤ kv.bp + 64)
    (hmiss : a + 8 ≤ kv.bp + 8 ∨ kv.bp + 16 ≤ a) (v : Nat) :
    Heap hash prog (Function.update p c₀ n)
      (kv.withService ⟨store64 kv.service.mem a v, kv.service.regions⟩) := by
  refine h.shared hcall rfl rfl hp hle (fun x hx _ => ?_) (.inl ⟨?_, hn⟩)
  · have hx' : ¬(kv.bp ≤ x ∧ x < kv.bp + 64) := hx
    exact store64_of_not_mem _ _ (by omega)
  · exact load64_store64_of_disjoint _ (by unfold tailAddr; omega)

/-- The store into the `next` field of a linked entry. -/
theorem Heap.linkNext (h : Heap hash prog p kv) (hcall : callAt prog c₀ = some call₀)
    (hp : 7 ≤ p c₀) (hle : p c₀ ≤ n) (hn : n ≤ 10) {t : Nat} (ht : LinkedAt prog p t) (v : Nat) :
    Heap hash prog (Function.update p c₀ n)
      (kv.withService ⟨store64 kv.service.mem (nextAddr t) v, kv.service.regions⟩) := by
  refine h.shared hcall rfl rfl hp hle (fun x _ hx => ?_) (.inl ⟨?_, .inl hn⟩)
  · exact store64_of_not_mem _ _ (hx t ht)
  · obtain ⟨c, call, hc, hpc, rfl⟩ := ht
    have hap : Apart call.header (baseRegion kv.bp) :=
      h.owned.apart _ _ _ _ (.header hc (by omega)) .root (by simp)
    have hhi : call.ans.entry + 8 ≤ call.ans.entry + 32 := by omega
    have hagree : ∀ x, (baseRegion kv.bp).Has x →
        store64 kv.service.mem call.ans.entry v x = kv.service.mem x :=
      fun x hx => store64_of_apart kv.service.mem hap (Nat.le_refl _) hhi hx
    exact load64_of_agree hagree (Nat.le_add_right kv.bp 8)
      (Nat.add_le_add_left (show 16 ≤ 64 by decide) kv.bp)

/-- The store of the tail. -/
theorem Heap.setTail (h : Heap hash prog p kv) (hcall : callAt prog c₀ = some call₀)
    (hp : p c₀ = 10) :
    Heap hash prog (Function.update p c₀ 11) (kv.withService
      ⟨store64 kv.service.mem (tailAddr kv.bp) call₀.ans.entry, kv.service.regions⟩) := by
  refine h.shared hcall rfl rfl (by omega) (by omega) (fun x hx _ => ?_) (.inr ⟨?_, by omega⟩)
  · have hx' : ¬(kv.bp ≤ x ∧ x < kv.bp + 64) := hx
    exact store64_of_not_mem _ _ (by unfold tailAddr; omega)
  · have hlt := (h.owned.entry_ne c₀ call₀ hcall (by omega)).2
    show load64 (store64 _ _ _) _ = _
    rw [load64_store64_self, Nat.mod_eq_of_lt hlt]

end Heap

/-! ## One step of one client -/

/-- What a client knows at its position: the direct read of `bp->tail` comes
after a test that found it not null. -/
def PcOk (prog : ι → List PutCall) (p : ι × Nat → Nat) : PutPc → Prop
  | .derefTail => ∃ t, LinkedAt prog p t
  | .linkNext t => LinkedAt prog p t
  | _ => True

section

variable {p : ι × Nat → Nat} {kv : Pmemkv} {c₀ : ι × Nat} {call₀ : PutCall}

theorem PcOk.update {pc : PutPc} (h : PcOk prog p pc) {n : Nat} (hle : p c₀ ≤ n) :
    PcOk prog (Function.update p c₀ n) pc := by
  cases pc with
  | derefTail =>
    obtain ⟨t, ht⟩ := h
    exact ⟨t, ht.update hle⟩
  | linkNext t => exact LinkedAt.update h hle
  | _ => exact True.intro

omit [DecidableEq ι] in
/-- Once an entry is linked, `bp->tail` names one. -/
theorem Heap.linkedAt_tail (h : Heap hash prog p kv) (hex : ∃ t, LinkedAt prog p t) :
    LinkedAt prog p (load64 kv.service.mem (tailAddr kv.bp)) := by
  rcases h.tail with ⟨_, hnone⟩ | ht
  · obtain ⟨t, c, call, hcall, hp, _⟩ := hex
    have hle := hnone c call hcall
    omega
  · exact ht

/-- The object over another memory. -/
def Pmemkv.withMem (kv : Pmemkv) (m : Mem) : Pmemkv := kv.withService ⟨m, kv.service.regions⟩

/-- What a step inside a call does when no store fails: the object and the next
position. -/
def PutPc.effect (hash : String → UInt64) (call : PutCall) (kv : Pmemkv) : PutPc → Pmemkv × PutPc
  | .allocEntry =>
    (kv.withService (kv.service.tbpAlloc sizeofBlockEntry call.ans.entry), .allocData)
  | .allocData => (kv.withService (kv.service.tbpAlloc call.value.length call.ans.data), .setData)
  | .setData =>
    (kv.withMem (store64 kv.service.mem (dataAddr call.ans.entry) call.ans.data), .storeBytes)
  | .storeBytes => (kv.withMem (Lib.storeBytes kv.service.mem call.ans.data call.value), .setNext)
  | .setNext => (kv.withMem (store64 kv.service.mem (nextAddr call.ans.entry) 0), .setKey)
  | .setKey =>
    (kv.withMem (store64 kv.service.mem (keyAddr call.ans.entry) (hash call.key).toNat), .setSize)
  | .setSize =>
    (kv.withMem (store64 kv.service.mem (sizeAddr call.ans.entry) call.value.length), .getTail)
  | .getTail =>
    (kv, if load64 kv.service.mem (tailAddr kv.bp) = 0 then .setHead else .derefTail)
  | .setHead => (kv.withMem (store64 kv.service.mem (headAddr kv.bp) call.ans.entry), .setTail)
  | .derefTail => (kv, .linkNext (load64 kv.service.mem (tailAddr kv.bp)))
  | .linkNext t => (kv.withMem (store64 kv.service.mem (nextAddr t) call.ans.entry), .setTail)
  | .setTail => (kv.withMem (store64 kv.service.mem (tailAddr kv.bp) call.ans.entry), .addLoad)
  | .addLoad => (kv, .addStore (load64 kv.service.mem (writtenAddr kv.bp)))
  | .addStore tmp =>
    (kv.withMem (store64 kv.service.mem (writtenAddr kv.bp) ((tmp + call.value.length) % 2 ^ 64)),
      .updateMeta)
  | .updateMeta => (kv, .updateMeta)

omit [DecidableEq ι] in
/-- A step inside a call does not crash. -/
theorem PutPc.step_eq_effect (h : Heap hash prog p kv) (hcall : callAt prog c₀ = some call₀)
    (hstored : call₀.ans.Stored) {pc : PutPc} (hp : p c₀ = pc.rank) (hne : pc ≠ .updateMeta) :
    pc.step hash call₀ kv =
      some ((pc.effect hash call₀ kv).1, .go (pc.effect hash call₀ kv).2) := by
  obtain ⟨h1, h2, h3, h4, h5, h6, h7, h8⟩ := hstored
  cases pc with
  | allocEntry => rfl
  | allocData => rfl
  | setData => rw [PutPc.step, h1, Service.tbpSet_true]; rfl
  | storeBytes =>
    have hentry := (h.owned.entry_ne c₀ call₀ hcall (by rw [hp]; decide)).1
    have hdata : load64 kv.service.mem (call₀.ans.entry + 24) = call₀.ans.data :=
      (h.filled c₀ call₀ hcall).data (by rw [hp]; decide)
    have hne := (h.owned.data_ne c₀ call₀ hcall (by rw [hp]; decide)).1
    simp only [PutPc.step, Service.deref_of_ne _ _ _ hentry, hdata, h2,
      Service.storeAt_of_ne _ _ _ hne, Option.bind_eq_bind, Option.bind_some]
    rfl
  | setNext => rw [PutPc.step, h3, Service.tbpSet_true]; rfl
  | setKey => rw [PutPc.step, h4, Service.tbpSet_true]; rfl
  | setSize => rw [PutPc.step, h5, Service.tbpSet_true]; rfl
  | getTail => rw [PutPc.step, PutPc.effect, Service.tbpGet_eq]
  | setHead => rw [PutPc.step, h6, Service.tbpSet_true]; rfl
  | derefTail => rw [PutPc.step, Service.deref_of_ne _ _ _ h.owned.bp_ne]; rfl
  | linkNext t => rw [PutPc.step, h6, Service.tbpSet_true]; rfl
  | setTail => rw [PutPc.step, h7, Service.tbpSet_true]; rfl
  | addLoad => rw [PutPc.step, PutPc.effect, Service.tbpGet_eq]
  | addStore tmp => rw [PutPc.step, h8, Service.tbpSet_true]; rfl
  | updateMeta => exact absurd rfl hne

theorem PutPc.effect_bp (pc : PutPc) (hash : String → UInt64) (call : PutCall) (kv : Pmemkv) :
    (pc.effect hash call kv).1.bp = kv.bp := by
  cases pc <;> rfl

theorem PutPc.effect_index (pc : PutPc) (hash : String → UInt64) (call : PutCall) (kv : Pmemkv) :
    (pc.effect hash call kv).1.index = kv.index := by
  cases pc <;> rfl

theorem PutPc.rank_lt_effect {pc : PutPc} (hne : pc ≠ .updateMeta) :
    pc.rank < (pc.effect hash call₀ kv).2.rank := by
  cases pc with
  | getTail =>
    rw [PutPc.effect]
    split <;> simp [PutPc.rank]
  | updateMeta => exact absurd rfl hne
  | _ => simp [PutPc.effect, PutPc.rank]

/-- A step inside a call keeps the heap invariant. -/
theorem Heap.effect (h : Heap hash prog p kv) (hcall : callAt prog c₀ = some call₀) {pc : PutPc}
    (hp : p c₀ = pc.rank) (hpc : PcOk prog p pc) (hgrant : pc.Granted hash call₀ kv)
    (hne : pc ≠ .updateMeta) :
    Heap hash prog (Function.update p c₀ (pc.effect hash call₀ kv).2.rank)
      (pc.effect hash call₀ kv).1 := by
  have hle : p c₀ ≤ (pc.effect hash call₀ kv).2.rank := by
    rw [hp]
    exact Nat.le_of_lt (PutPc.rank_lt_effect hne)
  cases pc with
  | allocEntry => exact h.allocEntry hcall hp hgrant
  | allocData => exact h.allocData hcall hp hgrant
  | setData => exact h.setData hcall hp
  | storeBytes => exact h.storeBytes hcall hp
  | setNext => exact h.setNext hcall hp
  | setKey => exact h.setKey hcall hp
  | setSize => exact h.setSize hcall hp
  | getTail =>
    refine h.read hcall (by rw [hp]; decide) hle (.inl ?_)
    rw [PutPc.effect]
    split <;> simp [PutPc.rank]
  | setHead =>
    exact h.storeRoot hcall (by rw [hp]; decide) hle (.inl (by simp [PutPc.effect, PutPc.rank]))
      (Nat.le_refl _) (Nat.add_le_add_left (show 8 ≤ 64 by decide) kv.bp)
      (.inl (Nat.le_refl _)) _
  | derefTail =>
    exact h.read hcall (by rw [hp]; decide) hle (.inl (by simp [PutPc.effect, PutPc.rank]))
  | linkNext t =>
    exact h.linkNext hcall (by rw [hp]; simp [PutPc.rank]) hle
      (by simp [PutPc.effect, PutPc.rank]) hpc _
  | setTail => exact h.setTail hcall hp
  | addLoad => exact h.read hcall (by rw [hp]; decide) hle (.inr (by rw [hp]; decide))
  | addStore tmp =>
    exact h.storeRoot hcall (by rw [hp]; simp [PutPc.rank]) hle
      (.inr (by rw [hp]; simp [PutPc.rank])) (Nat.le_add_right kv.bp 56)
      (Nat.le_refl (kv.bp + 64)) (.inr (Nat.add_le_add_left (show 16 ≤ 56 by decide) kv.bp)) _
  | updateMeta => exact absurd rfl hne

/-- A step inside a call leads to a position that knows what it needs. -/
theorem PcOk.effect (call₀ : PutCall) (h : Heap hash prog p kv) {pc : PutPc} (hp : p c₀ = pc.rank)
    (hpc : PcOk prog p pc) (hne : pc ≠ .updateMeta) :
    PcOk prog (Function.update p c₀ (pc.effect hash call₀ kv).2.rank)
      (pc.effect hash call₀ kv).2 := by
  have hle : p c₀ ≤ (pc.effect hash call₀ kv).2.rank := by
    rw [hp]
    exact Nat.le_of_lt (PutPc.rank_lt_effect hne)
  cases pc with
  | getTail =>
    have hlinked : load64 kv.service.mem (tailAddr kv.bp) ≠ 0 →
        LinkedAt prog p (load64 kv.service.mem (tailAddr kv.bp)) :=
      fun ht => h.tail.resolve_left fun h0 => ht h0.1
    rw [PutPc.effect] at hle ⊢
    generalize load64 kv.service.mem (tailAddr kv.bp) = t at hle hlinked ⊢
    by_cases ht : t = 0
    · simp only [if_pos ht]
      exact True.intro
    · simp only [if_neg ht] at hle ⊢
      exact ⟨t, (hlinked ht).update hle⟩
  | derefTail =>
    rw [PutPc.effect] at hle ⊢
    exact (h.linkedAt_tail hpc).update hle
  | updateMeta => exact absurd rfl hne
  | _ => exact True.intro

end

end SparkNvm.Native
