import SparkNvm.Native.Crash
import SparkNvm.Native.Race

/-!
# `dump_all` while clients put

`dump_all` takes no lock, so other clients may run `put` between any two of its loads.  This
module takes it apart into these loads and runs any number of readers beside any number of
clients, in any order.

* `dumpMachine`: the loads of `dump_all` as steps, and by `exec_dumpMachine` alone it computes
  `dumpWalk`.  What is printed of a loaded value is `cString`, and no request.
* `Links` is the invariant of the pointers in every interleaving: an entry points behind
  itself in the order of the stores to `bp->tail`, so there is no cycle, even where the race
  on the tail loses entries.
* `dump_visits_whole`: in every interleaving a walk goes on, visits whole entries only, none of
  them twice, and ends.
-/

namespace SparkNvm.Native

open Lib

/-! ## `dump_all` as steps -/

/-- Where a reader is in `dump_all`, with the local values it still needs. -/
inductive DumpPc where
  | getHead
  | getData (bep : Nat)
  | getSize (bep data : Nat)
  | getKey (bep data size : Nat)
  | getNext (bep data size key : Nat)
  | malloc (bep data size key next : Nat)
  | load (data size key next room : Nat)
  deriving DecidableEq, Repr

/-- The keys and the values that were loaded and handed to `std::cout`. -/
abbrev Loaded := List (Nat × List UInt8)

/-- The test of the loop. -/
def DumpPc.loop (bep : Nat) (out : Loaded) : Next (DumpPc × Loaded) Loaded :=
  if bep = 0 then .ret out else .go (.getData bep, out)

/-- `dump_all`, one load after the other.  The size is read a second time for `malloc`; a load
of more bytes than that would write past the buffer. -/
def dumpMachine : Machine Pmemkv (DumpPc × Loaded) Loaded := fun pc kv =>
  match pc with
  | (.getHead, out) => some (kv, DumpPc.loop (kv.service.tbpGet (headAddr kv.bp)) out)
  | (.getData bep, out) => some (kv, .go (.getSize bep (kv.service.tbpGet (dataAddr bep)), out))
  | (.getSize bep data, out) =>
    some (kv, .go (.getKey bep data (kv.service.tbpGet (sizeAddr bep)), out))
  | (.getKey bep data size, out) =>
    some (kv, .go (.getNext bep data size (kv.service.tbpGet (keyAddr bep)), out))
  | (.getNext bep data size key, out) =>
    some (kv, .go (.malloc bep data size key (kv.service.tbpGet (nextAddr bep)), out))
  | (.malloc bep data size key next, out) => do
    let room ← kv.service.deref bep 16
    return (kv, .go (.load data size key next room, out))
  | (.load data size key next room, out) =>
    if size ≤ room then do
      let tmp ← kv.service.loadAt data size
      return (kv, DumpPc.loop next (out ++ [(key, tmp)]))
    else
      none

section

variable (kv : Pmemkv) (out : Loaded) (bep data size key next : Nat)

theorem dumpMachine_getHead : dumpMachine (.getHead, out) kv =
    some (kv, DumpPc.loop (load64 kv.service.mem (headAddr kv.bp)) out) := by
  rw [dumpMachine, Service.tbpGet_eq]

theorem dumpMachine_getData : dumpMachine (.getData bep, out) kv =
    some (kv, .go (.getSize bep (load64 kv.service.mem (dataAddr bep)), out)) := by
  rw [dumpMachine, Service.tbpGet_eq]

theorem dumpMachine_getSize : dumpMachine (.getSize bep data, out) kv =
    some (kv, .go (.getKey bep data (load64 kv.service.mem (sizeAddr bep)), out)) := by
  rw [dumpMachine, Service.tbpGet_eq]

theorem dumpMachine_getKey : dumpMachine (.getKey bep data size, out) kv =
    some (kv, .go (.getNext bep data size (load64 kv.service.mem (keyAddr bep)), out)) := by
  rw [dumpMachine, Service.tbpGet_eq]

theorem dumpMachine_getNext : dumpMachine (.getNext bep data size key, out) kv =
    some (kv, .go (.malloc bep data size key (load64 kv.service.mem (nextAddr bep)), out)) := by
  rw [dumpMachine, Service.tbpGet_eq]

theorem dumpMachine_malloc (hbep : bep ≠ 0) : dumpMachine (.malloc bep data size key next, out) kv =
    some (kv, .go (.load data size key next (load64 kv.service.mem (sizeAddr bep)), out)) := by
  simp only [dumpMachine, Service.deref_of_ne _ _ _ hbep]
  rfl

theorem dumpMachine_load {room : Nat} {tmp : List UInt8} (hsize : size ≤ room)
    (hload : kv.service.loadAt data size = some tmp) :
    dumpMachine (.load data size key next room, out) kv =
      some (kv, DumpPc.loop next (out ++ [(key, tmp)])) := by
  simp only [dumpMachine, if_pos hsize, hload, Option.bind_eq_bind, Option.bind_some,
    Option.pure_def]

theorem dumpMachine_load_none {room : Nat} (hsize : size ≤ room)
    (hload : kv.service.loadAt data size = none) :
    dumpMachine (.load data size key next room, out) kv = none := by
  simp only [dumpMachine, if_pos hsize, hload, Option.bind_eq_bind, Option.bind_none]

end

/-- The steps on one entry, alone. -/
theorem exec_dumpMachine_entry (kv : Pmemkv) (out : Loaded) {bep : Nat} (hbep : bep ≠ 0) (n : Nat) :
    dumpMachine.exec (n + 6) (.getData bep, out) kv =
      (kv.service.loadAt (load64 kv.service.mem (dataAddr bep))
        (load64 kv.service.mem (sizeAddr bep))).bind fun tmp =>
          dumpMachine.resume n kv (DumpPc.loop (load64 kv.service.mem (nextAddr bep))
            (out ++ [(load64 kv.service.mem (keyAddr bep), tmp)])) := by
  rw [Machine.exec_go (n + 5) (dumpMachine_getData kv out bep),
    Machine.exec_go (n + 4) (dumpMachine_getSize kv out bep _),
    Machine.exec_go (n + 3) (dumpMachine_getKey kv out bep _ _),
    Machine.exec_go (n + 2) (dumpMachine_getNext kv out bep _ _ _),
    Machine.exec_go (n + 1) (dumpMachine_malloc kv out bep _ _ _ _ hbep)]
  cases hload : kv.service.loadAt (load64 kv.service.mem (dataAddr bep))
      (load64 kv.service.mem (sizeAddr bep)) with
  | none =>
    rw [Machine.exec_none n (dumpMachine_load_none kv out _ _ _ _ (Nat.le_refl _) hload),
      Option.bind_none]
  | some tmp =>
    rw [Machine.exec_step n (dumpMachine_load kv out _ _ _ _ (Nat.le_refl _) hload),
      Option.bind_some]

/-- The loop of `dump_all`. -/
theorem resume_dumpMachine_loop (kv : Pmemkv) (n bep : Nat) (out : Loaded) :
    dumpMachine.resume (6 * n) kv (DumpPc.loop bep out) =
      (Pmemkv.walkLoop kv.service n bep).map fun rest => (out ++ rest, kv) := by
  induction n generalizing bep out with
  | zero =>
    by_cases hbep : bep = 0
    · rw [DumpPc.loop, if_pos hbep, Pmemkv.walkLoop, if_pos hbep, Option.map_some, List.append_nil]
      rfl
    · rw [DumpPc.loop, if_neg hbep, Pmemkv.walkLoop, if_neg hbep, Option.map_none]
      rfl
  | succ n ih =>
    by_cases hbep : bep = 0
    · rw [DumpPc.loop, if_pos hbep, Pmemkv.walkLoop, if_pos hbep, Option.map_some, List.append_nil]
      rfl
    · rw [DumpPc.loop, if_neg hbep, Machine.resume, show 6 * (n + 1) = 6 * n + 6 by omega,
        exec_dumpMachine_entry kv out hbep]
      simp only [Pmemkv.walkLoop, if_neg hbep, Service.tbpGet_eq, ih, Option.bind_eq_bind,
        Option.map_bind, Option.pure_def]
      congr 1
      funext tmp
      cases Pmemkv.walkLoop kv.service n (load64 kv.service.mem (nextAddr bep)) with
      | none => rfl
      | some rest => simp

/-- A reader that runs alone does the walk of `dump_all`. -/
theorem exec_dumpMachine (fuel : Nat) (kv : Pmemkv) :
    dumpMachine.exec (6 * fuel + 1) (.getHead, []) kv =
      (kv.dumpWalk fuel).map fun out => (out, kv) := by
  rw [Machine.exec_step (6 * fuel) rfl, resume_dumpMachine_loop, Pmemkv.dumpWalk]
  simp only [List.nil_append]

/-! ## Readers beside clients -/

/-- A reader: inside of `dump_all`, or returned from it. -/
inductive Reader where
  | running (pc : DumpPc) (out : Loaded)
  | returned (out : Loaded)
  deriving DecidableEq, Repr

/-- What the reader has loaded and handed to the print. -/
def Reader.out : Reader → Loaded
  | .running _ out => out
  | .returned out => out

/-- The reader after a step that led to `next`. -/
def Reader.after : Next (DumpPc × Loaded) Loaded → Reader
  | .go pc => .running pc.1 pc.2
  | .ret out => .returned out

/-- One step of a reader; one that has returned has none. -/
def Reader.step (kv : Pmemkv) : Reader → Option Reader
  | .running pc out => (dumpMachine (pc, out) kv).map fun r => .after r.2
  | .returned _ => none

/-- One object, its clients and its readers. -/
structure Watched (ι κ : Type) where
  sys : System ι
  reader : κ → Reader

namespace Watched

variable {ι κ : Type}

/-- No client and no reader has started. -/
def init (kv : Pmemkv) : Watched ι κ :=
  { sys := System.init kv, reader := fun _ => .running .getHead [] }

/-- A client or a reader takes one step. -/
def step [DecidableEq ι] [DecidableEq κ] (hash : String → UInt64) (prog : ι → List PutCall)
    (w : Watched ι κ) : ι ⊕ κ → Option (Watched ι κ)
  | .inl i => (w.sys.step hash prog i).map fun sys => { w with sys := sys }
  | .inr r => ((w.reader r).step w.sys.kv).map fun rd =>
      { w with reader := Function.update w.reader r rd }

/-- The reader is in its call. -/
def Reading (w : Watched ι κ) (r : κ) : Prop := ∀ out, w.reader r ≠ .returned out

/-- A client has a step to take and no request of it fails; a reader is in its call. -/
def Ok (hash : String → UInt64) (prog : ι → List PutCall) (w : Watched ι κ) : ι ⊕ κ → Prop
  | .inl i => w.sys.Ok hash prog i
  | .inr r => w.Reading r

instance (w : Watched ι κ) (r : κ) : Decidable (w.Reading r) :=
  match h : w.reader r with
  | .running pc out => isTrue fun out' heq => by simp [h] at heq
  | .returned out => isFalse fun hno => hno out h

instance [DecidableEq ι] (hash : String → UInt64) (prog : ι → List PutCall) (w : Watched ι κ)
    (a : ι ⊕ κ) : Decidable (w.Ok hash prog a) :=
  match a with
  | .inl i => inferInstanceAs (Decidable (w.sys.Ok hash prog i))
  | .inr r => inferInstanceAs (Decidable (w.Reading r))

end Watched

/-! ## Where the pointers lead -/

section

variable {ι : Type} [DecidableEq ι] {hash : String → UInt64} {prog : ι → List PutCall}

/-- The entry of the call `c` has been linked, and it lies at `a`. -/
def EntryAt (prog : ι → List PutCall) (p : ι × Nat → Nat) (c : ι × Nat) (a : Nat) : Prop :=
  ∃ call, callAt prog c = some call ∧ 10 ≤ p c ∧ call.ans.entry = a

/-- The call `c` is in the list, and `c'` is behind it or not there yet. -/
def Before (tails : List (ι × Nat)) (c c' : ι × Nat) : Prop := tails.idxOf c < tails.idxOf c'

/-- Every pointer of the persistent list leads to the entry of a call that has linked it.
`tails` are the calls in the order of their stores to `bp->tail`; a `next` field leads
forward in it. -/
structure Links (prog : ι → List PutCall) (p : ι × Nat → Nat) (m : Mem) (bp : Nat)
    (tails : List (ι × Nat)) : Prop where
  nodup : tails.Nodup
  mem_iff : ∀ c, c ∈ tails ↔ 11 ≤ p c
  head : load64 m (headAddr bp) = 0 ∨ ∃ c, EntryAt prog p c (load64 m (headAddr bp))
  next : ∀ c call, callAt prog c = some call → 11 ≤ p c →
    load64 m (nextAddr call.ans.entry) = 0 ∨
      ∃ c', EntryAt prog p c' (load64 m (nextAddr call.ans.entry)) ∧ Before tails c c'

theorem Before.mem {tails : List (ι × Nat)} {c c' : ι × Nat} (h : Before tails c c') : c ∈ tails :=
  List.idxOf_lt_length_iff.mp (Nat.lt_of_lt_of_le h List.idxOf_le_length)

/-- A call that is not in the list is behind all that are. -/
theorem before_of_not_mem {tails : List (ι × Nat)} {c c' : ι × Nat} (hc : c ∈ tails)
    (hc' : c' ∉ tails) : Before tails c c' := by
  rw [Before, List.idxOf_eq_length_iff.mpr hc']
  exact List.idxOf_lt_length_iff.mpr hc

theorem Before.snoc {tails : List (ι × Nat)} {c c' : ι × Nat} (h : Before tails c c')
    (d : ι × Nat) : Before (tails ++ [d]) c c' := by
  have hc := h.mem
  rw [Before, List.idxOf_append_of_mem hc]
  by_cases hc' : c' ∈ tails
  · rw [List.idxOf_append_of_mem hc']
    exact h
  · rw [List.idxOf_append_of_notMem hc']
    have hlt := List.idxOf_lt_length_iff.mpr hc
    omega

variable {p p' : ι × Nat → Nat} {m m' : Mem} {bp : Nat} {tails : List (ι × Nat)}
variable {kv : Pmemkv} {c₀ : ι × Nat} {call₀ : PutCall}

omit [DecidableEq ι] in
theorem EntryAt.mono {c : ι × Nat} {a : Nat} (h : EntryAt prog p c a)
    (hle : 10 ≤ p c → 10 ≤ p' c) : EntryAt prog p' c a := by
  obtain ⟨call, hcall, hp, ha⟩ := h
  exact ⟨call, hcall, hle hp, ha⟩

/-- A step that writes no pointer. -/
theorem Links.frame (h : Links prog p m bp tails) (hranks : ∀ c, 11 ≤ p' c ↔ 11 ≤ p c)
    (hlinked : ∀ c, 10 ≤ p c → 10 ≤ p' c)
    (hhead : load64 m' (headAddr bp) = load64 m (headAddr bp))
    (hnext : ∀ c call, callAt prog c = some call → 11 ≤ p c →
      load64 m' (nextAddr call.ans.entry) = load64 m (nextAddr call.ans.entry)) :
    Links prog p' m' bp tails := by
  refine ⟨h.nodup, fun c => (h.mem_iff c).trans (hranks c).symm, ?_, fun c call hcall hp => ?_⟩
  · rw [hhead]
    exact h.head.imp_right fun ⟨c, hc⟩ => ⟨c, hc.mono (hlinked c)⟩
  · rw [hnext c call hcall ((hranks c).mp hp)]
    exact (h.next c call hcall ((hranks c).mp hp)).imp_right fun ⟨c', hc', hbefore⟩ =>
      ⟨c', hc'.mono (hlinked c'), hbefore⟩

/-- The ranks when one call has moved on. -/
theorem linked_update {n : Nat} (hle : p c₀ ≤ n) (c : ι × Nat) (hc : 10 ≤ p c) :
    10 ≤ Function.update p c₀ n c := by
  by_cases heq : c = c₀
  · subst heq
    rw [Function.update_self]
    omega
  · rw [Function.update_of_ne heq]
    exact hc

theorem ranks_update {n : Nat} (hn : 11 ≤ n ↔ 11 ≤ p c₀) (c : ι × Nat) :
    11 ≤ Function.update p c₀ n c ↔ 11 ≤ p c := by
  by_cases heq : c = c₀
  · subst heq
    rw [Function.update_self]
    exact hn
  · rw [Function.update_of_ne heq]

omit [DecidableEq ι] in
/-- A store into the root keeps the `next` fields. -/
theorem Heap.next_of_root (h : Heap hash prog p kv) {a v : Nat} (hlo : kv.bp ≤ a)
    (hhi : a + 8 ≤ kv.bp + 64) {c : ι × Nat} {call : PutCall} (hcall : callAt prog c = some call)
    (hp : 1 ≤ p c) : load64 (store64 kv.service.mem a v) (nextAddr call.ans.entry) =
      load64 kv.service.mem (nextAddr call.ans.entry) := by
  have hap := h.owned.apart _ _ _ _ .root (.header hcall hp) (by simp)
  exact load64_of_agree (fun x hx => store64_of_apart _ hap hlo hhi hx) (Nat.le_refl _)
    (Nat.add_le_add_left (show 8 ≤ 32 by decide) call.ans.entry)

/-- The first entry is linked through the head. -/
theorem Links.setHead (h : Links prog p kv.service.mem kv.bp tails) (hheap : Heap hash prog p kv)
    (hcall : callAt prog c₀ = some call₀) (hlo : 1 ≤ p c₀) (hhi : p c₀ ≤ 10) :
    Links prog (Function.update p c₀ 10)
      (store64 kv.service.mem (headAddr kv.bp) call₀.ans.entry) kv.bp tails := by
  have hranks : ∀ c, 11 ≤ Function.update p c₀ 10 c ↔ 11 ≤ p c := ranks_update (by omega)
  have hlinked : ∀ c, 10 ≤ p c → 10 ≤ Function.update p c₀ 10 c := linked_update hhi
  have hhead : load64 (store64 kv.service.mem (headAddr kv.bp) call₀.ans.entry)
      (headAddr kv.bp) = call₀.ans.entry := by
    rw [load64_store64_self]
    exact Nat.mod_eq_of_lt (hheap.owned.entry_ne _ call₀ hcall hlo).2
  refine ⟨h.nodup, fun c => (h.mem_iff c).trans (hranks c).symm, .inr ⟨c₀, call₀, hcall, ?_, ?_⟩,
    fun c call hc hp => ?_⟩
  · rw [Function.update_self]
  · rw [hhead]
  · have hp' := (hranks c).mp hp
    rw [hheap.next_of_root (a := headAddr kv.bp) (Nat.le_refl _)
      (Nat.add_le_add_left (show 8 ≤ 64 by decide) kv.bp) hc (by omega)]
    exact (h.next c call hc hp').imp_right fun ⟨c', hc', hbefore⟩ =>
      ⟨c', hc'.mono (hlinked c'), hbefore⟩

/-- A later entry is linked behind the one that was read from the tail. -/
theorem Links.linkNext (h : Links prog p kv.service.mem kv.bp tails) (hheap : Heap hash prog p kv)
    (hcall : callAt prog c₀ = some call₀) (hlo : 1 ≤ p c₀) (hhi : p c₀ ≤ 10) {t : Nat}
    (ht : LinkedAt prog p t) :
    Links prog (Function.update p c₀ 10)
      (store64 kv.service.mem (nextAddr t) call₀.ans.entry) kv.bp tails := by
  have hranks : ∀ c, 11 ≤ Function.update p c₀ 10 c ↔ 11 ≤ p c := ranks_update (by omega)
  have hlinked : ∀ c, 10 ≤ p c → 10 ≤ Function.update p c₀ 10 c := linked_update hhi
  obtain ⟨d, calld, hd, hpd, rfl⟩ := ht
  have hnotin : c₀ ∉ tails := fun hmem => by
    have hge := (h.mem_iff c₀).mp hmem
    omega
  have hin : calld.ans.entry + 8 ≤ calld.ans.entry + 32 := by omega
  have hmiss : ∀ {o r x}, Owns prog p kv.bp o r → o ≠ .header d → r.Has x →
      store64 kv.service.mem (nextAddr calld.ans.entry) call₀.ans.entry x = kv.service.mem x := by
    intro o r x ho hne hx
    have hap := hheap.owned.apart _ _ _ _ (.header hd (by omega)) ho (Ne.symm hne)
    exact store64_of_apart _ hap (Nat.le_refl _) hin hx
  refine ⟨h.nodup, fun c => (h.mem_iff c).trans (hranks c).symm, ?_, fun c call hc hp => ?_⟩
  · have hhead : load64 (store64 kv.service.mem (nextAddr calld.ans.entry) call₀.ans.entry)
        (headAddr kv.bp) = load64 kv.service.mem (headAddr kv.bp) :=
      load64_of_agree (fun x hx => hmiss .root (by simp) hx) (Nat.le_refl _)
        (Nat.add_le_add_left (show 8 ≤ 64 by decide) kv.bp)
    rw [hhead]
    exact h.head.imp_right fun ⟨c, hc⟩ => ⟨c, hc.mono (hlinked c)⟩
  · have hp' := (hranks c).mp hp
    by_cases heq : c = d
    · subst heq
      obtain rfl : call = calld := Option.some.inj (hc.symm.trans hd)
      refine .inr ⟨c₀, ⟨call₀, hcall, ?_, ?_⟩, before_of_not_mem ((h.mem_iff c).mpr hp') hnotin⟩
      · rw [Function.update_self]
      · rw [load64_store64_self]
        exact (Nat.mod_eq_of_lt (hheap.owned.entry_ne _ call₀ hcall hlo).2).symm
    · have hnext : load64 (store64 kv.service.mem (nextAddr calld.ans.entry) call₀.ans.entry)
          (nextAddr call.ans.entry) = load64 kv.service.mem (nextAddr call.ans.entry) :=
        load64_of_agree (fun x hx => hmiss (.header hc (by omega)) (by simp [heq]) hx)
          (Nat.le_refl _) (Nat.add_le_add_left (show 8 ≤ 32 by decide) call.ans.entry)
      rw [hnext]
      exact (h.next c call hc hp').imp_right fun ⟨c', hc', hbefore⟩ =>
        ⟨c', hc'.mono (hlinked c'), hbefore⟩

/-- The store to the tail puts the call at the end of the order.  Its own `next` field is still
null then. -/
theorem Links.setTail (h : Links prog p kv.service.mem kv.bp tails) (hheap : Heap hash prog p kv)
    (hcall : callAt prog c₀ = some call₀) (hp : p c₀ = 10) :
    Links prog (Function.update p c₀ 11)
      (store64 kv.service.mem (tailAddr kv.bp) call₀.ans.entry) kv.bp (tails ++ [c₀]) := by
  have hnotin : c₀ ∉ tails := fun hmem => by
    have hge := (h.mem_iff c₀).mp hmem
    omega
  have hlinked : ∀ c, 10 ≤ p c → 10 ≤ Function.update p c₀ 11 c := linked_update (by omega)
  have hnext : ∀ c call, callAt prog c = some call → 1 ≤ p c →
      load64 (store64 kv.service.mem (tailAddr kv.bp) call₀.ans.entry) (nextAddr call.ans.entry) =
        load64 kv.service.mem (nextAddr call.ans.entry) := fun c call hc hpc =>
    hheap.next_of_root (Nat.le_add_right kv.bp 8)
      (Nat.add_le_add_left (show 16 ≤ 64 by decide) kv.bp) hc hpc
  refine ⟨?_, fun c => ?_, ?_, fun c call hc hpc => ?_⟩
  · rw [← List.concat_eq_append]
    exact List.Nodup.concat hnotin h.nodup
  · rw [List.mem_append, List.mem_singleton, h.mem_iff c]
    by_cases heq : c = c₀
    · subst heq
      rw [Function.update_self]
      simp
    · rw [Function.update_of_ne heq]
      simp [heq]
  · rw [load64_store64_of_disjoint _ (by unfold headAddr tailAddr; omega)]
    exact h.head.imp_right fun ⟨c, hc⟩ => ⟨c, hc.mono (hlinked c)⟩
  · by_cases heq : c = c₀
    · subst heq
      obtain rfl : call = call₀ := Option.some.inj (hc.symm.trans hcall)
      refine .inl ?_
      rw [hnext c call hc (by omega)]
      exact (hheap.filled c call hc).next (by omega) (by omega)
    · rw [Function.update_of_ne heq] at hpc
      rw [hnext c call hc (by omega)]
      exact (h.next c call hc hpc).imp_right fun ⟨c', hc', hbefore⟩ =>
        ⟨c', hc'.mono (hlinked c'), hbefore.snoc c₀⟩

/-- While a client fills its entry, it writes no pointer of the list. -/
theorem Links.fill (h : Links prog p kv.service.mem kv.bp tails) (hheap : Heap hash prog p kv)
    (hcall : callAt prog c₀ = some call₀) {pc : PutPc} (hp : p c₀ = pc.rank) (hpc : pc.rank ≤ 6) :
    Links prog (Function.update p c₀ (pc.effect hash call₀ kv).2.rank)
      (pc.effect hash call₀ kv).1.service.mem kv.bp tails := by
  have hrank : pc.rank ≤ (pc.effect hash call₀ kv).2.rank ∧
      (pc.effect hash call₀ kv).2.rank ≤ 7 := by
    cases pc <;> simp [PutPc.rank, PutPc.effect] at hpc ⊢
  have hkeep : ∀ {o r x}, Owns prog p kv.bp o r → o ≠ .header c₀ → o ≠ .payload c₀ → r.Has x →
      (pc.effect hash call₀ kv).1.service.mem x = kv.service.mem x := by
    intro o r x ho hheader hpayload hx
    refine PutPc.effect_mem_own hpc (fun h2 => ?_) fun h2 => ?_
    · exact (hheap.owned.apart _ _ _ _ ho (.header hcall (by omega)) hheader).not_has hx
    · exact (hheap.owned.apart _ _ _ _ ho (.payload hcall (by omega)) hpayload).not_has hx
  refine h.frame (ranks_update (by omega)) (linked_update (by omega)) ?_ fun c call hc hpc' => ?_
  · exact load64_of_agree (fun x hx => hkeep .root (by simp) (by simp) hx) (Nat.le_refl _)
      (Nat.add_le_add_left (show 8 ≤ 64 by decide) kv.bp)
  · have hne : c ≠ c₀ := by
      rintro rfl
      omega
    exact load64_of_agree (fun x hx => hkeep (.header hc (by omega)) (by simp [hne]) (by simp) hx)
      (Nat.le_refl _) (Nat.add_le_add_left (show 8 ≤ 32 by decide) call.ans.entry)

/-- A step inside a call keeps the pointers in order. -/
theorem Links.effect (h : Links prog p kv.service.mem kv.bp tails) (hheap : Heap hash prog p kv)
    (hcall : callAt prog c₀ = some call₀) {pc : PutPc} (hp : p c₀ = pc.rank)
    (hpc : PcOk prog p pc) (hne : pc ≠ .updateMeta) :
    ∃ tails', Links prog (Function.update p c₀ (pc.effect hash call₀ kv).2.rank)
        (pc.effect hash call₀ kv).1.service.mem kv.bp tails' ∧
      ∀ c c', Before tails c c' → Before tails' c c' := by
  by_cases hfill : pc.rank ≤ 6
  · exact ⟨tails, h.fill hheap hcall hp hfill, fun _ _ hb => hb⟩
  · have hread : ∀ n, p c₀ ≤ n → (11 ≤ n ↔ 11 ≤ p c₀) →
        Links prog (Function.update p c₀ n) kv.service.mem kv.bp tails := fun n hle hn =>
      h.frame (ranks_update hn) (linked_update hle) rfl fun _ _ _ _ => rfl
    cases pc with
    | getTail =>
      refine ⟨tails, hread _ ?_ ?_, fun _ _ hb => hb⟩ <;>
      · rw [PutPc.effect, hp]
        split <;> simp [PutPc.rank]
    | derefTail =>
      refine ⟨tails, hread _ ?_ ?_, fun _ _ hb => hb⟩ <;>
      · rw [PutPc.effect, hp]
        simp [PutPc.rank]
    | setHead =>
      exact ⟨tails, h.setHead hheap hcall (by rw [hp]; decide) (by rw [hp]; decide),
        fun _ _ hb => hb⟩
    | linkNext t =>
      exact ⟨tails, h.linkNext hheap hcall (by rw [hp]; simp [PutPc.rank])
        (by rw [hp]; simp [PutPc.rank]) hpc, fun _ _ hb => hb⟩
    | setTail =>
      exact ⟨tails ++ [c₀], h.setTail hheap hcall hp, fun _ _ hb => hb.snoc c₀⟩
    | addLoad =>
      refine ⟨tails, hread _ ?_ ?_, fun _ _ hb => hb⟩ <;>
      · rw [PutPc.effect, hp]
        simp [PutPc.rank]
    | addStore tmp =>
      refine ⟨tails, h.frame (ranks_update ?_) (linked_update ?_) ?_ fun c call hc hpc' => ?_,
        fun _ _ hb => hb⟩
      · rw [PutPc.effect, hp]
        simp [PutPc.rank]
      · rw [PutPc.effect, hp]
        simp [PutPc.rank]
      · exact load64_store64_of_disjoint _ (by unfold headAddr writtenAddr; omega)
      · exact hheap.next_of_root (Nat.le_add_right kv.bp 56) (Nat.le_refl (kv.bp + 64)) hc
          (by omega)
    | updateMeta => exact absurd rfl hne
    | _ => simp [PutPc.rank] at hfill

/-! ## What a reader knows -/

/-- The pointer is null, or it leads from the entry of `c` to a later one. -/
def Leads (prog : ι → List PutCall) (p : ι × Nat → Nat) (tails : List (ι × Nat)) (c : ι × Nat)
    (next : Nat) : Prop :=
  next = 0 ∨ ∃ c', EntryAt prog p c' next ∧ Before tails c c'

/-- What a reader at the entry of `call` has read of it. -/
def DumpPc.Knows (hash : String → UInt64) (call : PutCall) (lead : Nat → Prop) : DumpPc → Prop
  | .getHead => False
  | .getData bep => bep = call.ans.entry
  | .getSize bep data => bep = call.ans.entry ∧ data = call.ans.data
  | .getKey bep data size =>
    bep = call.ans.entry ∧ data = call.ans.data ∧ size = call.value.length
  | .getNext bep data size key =>
    bep = call.ans.entry ∧ data = call.ans.data ∧ size = call.value.length ∧
      key = (hash call.key).toNat
  | .malloc bep data size key next =>
    bep = call.ans.entry ∧ data = call.ans.data ∧ size = call.value.length ∧
      key = (hash call.key).toNat ∧ lead next
  | .load data size key next room =>
    room = size ∧ data = call.ans.data ∧ size = call.value.length ∧
      key = (hash call.key).toNat ∧ lead next

/-- The lines of the calls with these numbers. -/
def walkedAt (hash : String → UInt64) (prog : ι → List PutCall) (cs : List (ι × Nat)) : Loaded :=
  walked hash (callsAt prog cs)

/-- The reader has visited the calls `seen`, which follow each other in the order, and it is at
the entry of a later call. -/
structure Follows (hash : String → UInt64) (prog : ι → List PutCall) (p : ι × Nat → Nat)
    (tails : List (ι × Nat)) (rd : Reader) (seen : List (ι × Nat)) : Prop where
  out : rd.out = walkedAt hash prog seen
  path : seen.Pairwise (Before tails)
  linked : ∀ c ∈ seen, 10 ≤ p c ∧ ∃ call, callAt prog c = some call
  start : ∀ out, rd = .running .getHead out → seen = []
  here : ∀ pc out, rd = .running pc out → pc ≠ .getHead →
    ∃ c call, callAt prog c = some call ∧ 10 ≤ p c ∧ (∀ d ∈ seen, Before tails d c) ∧
      pc.Knows hash call (Leads prog p tails c)

/-- The number of steps of the loop body behind a reader, and the one before it. -/
def Reader.offset : Reader → Nat
  | .running .getHead _ => 0
  | .running (.getData _) _ => 1
  | .running (.getSize _ _) _ => 2
  | .running (.getKey _ _ _) _ => 3
  | .running (.getNext _ _ _ _) _ => 4
  | .running (.malloc _ _ _ _ _) _ => 5
  | .running (.load _ _ _ _ _) _ => 6
  | .returned _ => 1

theorem DumpPc.Knows.mono {pc : DumpPc} {lead lead' : Nat → Prop} {call : PutCall}
    (h : pc.Knows hash call lead) (hlead : ∀ a, lead a → lead' a) : pc.Knows hash call lead' := by
  cases pc with
  | malloc bep data size key next =>
    exact ⟨h.1, h.2.1, h.2.2.1, h.2.2.2.1, hlead next h.2.2.2.2⟩
  | load data size key next room =>
    exact ⟨h.1, h.2.1, h.2.2.1, h.2.2.2.1, hlead next h.2.2.2.2⟩
  | _ => exact h

/-- Steps of the clients do not disturb a reader. -/
theorem Follows.mono {rd : Reader} {seen tails' : List (ι × Nat)}
    (h : Follows hash prog p tails rd seen) (hlinked : ∀ c, 10 ≤ p c → 10 ≤ p' c)
    (hbefore : ∀ c c', Before tails c c' → Before tails' c c') :
    Follows hash prog p' tails' rd seen where
  out := h.out
  path := h.path.imp fun hb => hbefore _ _ hb
  linked c hc := ⟨hlinked c (h.linked c hc).1, (h.linked c hc).2⟩
  start := h.start
  here pc out hrd hne := by
    obtain ⟨c, call, hcall, hp, hseen, hknows⟩ := h.here pc out hrd hne
    refine ⟨c, call, hcall, hlinked c hp, fun d hd => hbefore d c (hseen d hd),
      hknows.mono fun a ha => ha.imp_right fun ⟨c', hc', hb⟩ => ?_⟩
    exact ⟨c', hc'.mono (hlinked c'), hbefore c c' hb⟩

/-- The `next` field of a linked entry leads forward. -/
theorem Links.leads (h : Links prog p kv.service.mem kv.bp tails) (hheap : Heap hash prog p kv)
    {c : ι × Nat} {call : PutCall} (hcall : callAt prog c = some call) (hp : 10 ≤ p c) :
    Leads prog p tails c (load64 kv.service.mem (nextAddr call.ans.entry)) := by
  by_cases h11 : 11 ≤ p c
  · exact h.next c call hcall h11
  · exact .inl ((hheap.filled c call hcall).next (by omega) (by omega))

/-- The test of the loop, on a pointer that leads forward or is null. -/
theorem follows_loop {seen : List (ι × Nat)} {a : Nat} {out : Loaded}
    (hout : out = walkedAt hash prog seen) (hpath : seen.Pairwise (Before tails))
    (hlinked : ∀ c ∈ seen, 10 ≤ p c ∧ ∃ call, callAt prog c = some call)
    (ha : a = 0 ∨ ∃ c, EntryAt prog p c a ∧ ∀ d ∈ seen, Before tails d c) :
    Follows hash prog p tails (.after (DumpPc.loop a out)) seen ∧
      (Reader.after (DumpPc.loop a out)).offset = 1 := by
  by_cases h0 : a = 0
  · rw [DumpPc.loop, if_pos h0]
    exact ⟨⟨hout, hpath, hlinked, fun out hrd => by simp [Reader.after] at hrd,
      fun pc out hrd => by simp [Reader.after] at hrd⟩, rfl⟩
  · obtain ⟨c, ⟨call, hcall, hp, hentry⟩, hseen⟩ := ha.resolve_left h0
    rw [DumpPc.loop, if_neg h0]
    refine ⟨⟨hout, hpath, hlinked, fun out hrd => by simp [Reader.after] at hrd,
      fun pc out hrd _ => ⟨c, call, hcall, hp, hseen, ?_⟩⟩, rfl⟩
    rw [Reader.after, Reader.running.injEq] at hrd
    rw [← hrd.1]
    exact hentry.symm

/-- A step inside of the loop body hands nothing over. -/
theorem Follows.read {pc pc' : DumpPc} {out : Loaded} {seen : List (ι × Nat)} {c : ι × Nat}
    {call : PutCall} (h : Follows hash prog p tails (.running pc out) seen)
    (hcall : callAt prog c = some call) (hp : 10 ≤ p c) (hseen : ∀ d ∈ seen, Before tails d c)
    (hne : pc' ≠ .getHead) (hknows : pc'.Knows hash call (Leads prog p tails c)) :
    Follows hash prog p tails (.running pc' out) seen where
  out := h.out
  path := h.path
  linked := h.linked
  start o hrd := by
    rw [Reader.running.injEq] at hrd
    exact absurd hrd.1 hne
  here pc₁ o hrd _ := by
    rw [Reader.running.injEq] at hrd
    rw [← hrd.1]
    exact ⟨c, call, hcall, hp, hseen, hknows⟩

omit [DecidableEq ι] in
theorem walkedAt_snoc (seen : List (ι × Nat)) {c : ι × Nat} {call : PutCall}
    (hcall : callAt prog c = some call) :
    walkedAt hash prog (seen ++ [c]) =
      walkedAt hash prog seen ++ [((hash call.key).toNat, call.value)] := by
  simp [walkedAt, walked, callsAt, hcall]

theorem Reader.step_running {pc : DumpPc} {out : Loaded} {next : Next (DumpPc × Loaded) Loaded}
    (h : dumpMachine (pc, out) kv = some (kv, next)) :
    (Reader.running pc out).step kv = some (.after next) := by
  rw [Reader.step, h, Option.map_some]

theorem Reader.step_go {pc pc' : DumpPc} {out out' : Loaded}
    (h : dumpMachine (pc, out) kv = some (kv, .go (pc', out'))) :
    (Reader.running pc out).step kv = some (.running pc' out') := by
  rw [Reader.step_running h, Reader.after]

/-- One step of a reader. -/
theorem Follows.step {rd : Reader} {seen : List (ι × Nat)}
    (hlinks : Links prog p kv.service.mem kv.bp tails) (hheap : Heap hash prog p kv)
    (h : Follows hash prog p tails rd seen) (hrun : ∀ out, rd ≠ .returned out) :
    ∃ rd' seen', rd.step kv = some rd' ∧ Follows hash prog p tails rd' seen' ∧
      6 * seen'.length + rd'.offset = 6 * seen.length + rd.offset + 1 := by
  cases rd with
  | returned out => exact absurd rfl (hrun out)
  | running pc out =>
    by_cases hhead : pc = .getHead
    · subst hhead
      obtain rfl : seen = [] := h.start out rfl
      have hout : out = walkedAt hash prog [] := h.out
      obtain ⟨hloop, hoffset⟩ := follows_loop hout h.path h.linked
        (hlinks.head.imp_right fun ⟨c, hc⟩ => ⟨c, hc, by simp⟩)
      refine ⟨_, [], Reader.step_running (dumpMachine_getHead kv out), hloop, ?_⟩
      rw [hoffset]
      rfl
    · obtain ⟨c, call, hcall, hp, hseen, hknows⟩ := h.here pc out rfl hhead
      have hfilled := hheap.filled c call hcall
      have hentry := (hheap.owned.entry_ne c call hcall (by omega)).1
      cases pc with
      | getHead => exact absurd rfl hhead
      | getData bep =>
        obtain rfl : bep = call.ans.entry := hknows
        exact ⟨_, seen, Reader.step_go (dumpMachine_getData kv out _), h.read hcall hp hseen
          (by simp)
            ⟨rfl, hfilled.data (by omega)⟩, rfl⟩
      | getSize bep data =>
        obtain ⟨rfl, hdata⟩ := hknows
        exact ⟨_, seen, Reader.step_go (dumpMachine_getSize kv out _ _), h.read hcall hp hseen
          (by simp) ⟨rfl, hdata, hfilled.size (by omega)⟩, rfl⟩
      | getKey bep data size =>
        obtain ⟨rfl, hdata, hsize⟩ := hknows
        exact ⟨_, seen, Reader.step_go (dumpMachine_getKey kv out _ _ _), h.read hcall hp hseen
          (by simp) ⟨rfl, hdata, hsize, hfilled.key (by omega)⟩, rfl⟩
      | getNext bep data size key =>
        obtain ⟨rfl, hdata, hsize, hkey⟩ := hknows
        exact ⟨_, seen, Reader.step_go (dumpMachine_getNext kv out _ _ _ _), h.read hcall hp hseen
          (by simp)
            ⟨rfl, hdata, hsize, hkey, hlinks.leads hheap hcall hp⟩, rfl⟩
      | malloc bep data size key next =>
        obtain ⟨rfl, hdata, hsize, hkey, hlead⟩ := hknows
        have hroom : load64 kv.service.mem (sizeAddr call.ans.entry) = size := by
          rw [hsize]
          exact hfilled.size (by omega)
        exact ⟨_, seen, Reader.step_go (dumpMachine_malloc kv out _ _ _ _ _ hentry),
          h.read hcall hp hseen (by simp) ⟨hroom, hdata, hsize, hkey, hlead⟩, rfl⟩
      | load data size key next room =>
        obtain ⟨rfl, rfl, rfl, rfl, hlead⟩ := hknows
        have hload : kv.service.loadAt call.ans.data call.value.length = some call.value := by
          rw [Service.loadAt_of_ne _ _ (hheap.owned.data_ne c call hcall (by omega)).1]
          exact congrArg some (hfilled.bytes (by omega))
        have hout : out ++ [((hash call.key).toNat, call.value)] =
            walkedAt hash prog (seen ++ [c]) := by
          rw [walkedAt_snoc seen hcall]
          exact congrArg (· ++ _) h.out
        have hpath : (seen ++ [c]).Pairwise (Before tails) := by
          refine List.pairwise_append.mpr ⟨h.path, List.pairwise_singleton _ _, fun d hd e he => ?_⟩
          rw [List.mem_singleton.mp he]
          exact hseen d hd
        have hlinked : ∀ d ∈ seen ++ [c], 10 ≤ p d ∧ ∃ call, callAt prog d = some call := by
          intro d hd
          cases List.mem_append.mp hd with
          | inl hd => exact h.linked d hd
          | inr hd =>
            rw [List.mem_singleton.mp hd]
            exact ⟨hp, call, hcall⟩
        -- what lies behind the entry lies behind all that was seen
        have hnext : next = 0 ∨
            ∃ c', EntryAt prog p c' next ∧ ∀ d ∈ seen ++ [c], Before tails d c' := by
          refine hlead.imp_right fun ⟨c', hc', hb⟩ => ⟨c', hc', fun d hd => ?_⟩
          cases List.mem_append.mp hd with
          | inl hd => exact Nat.lt_trans (hseen d hd) hb
          | inr hd =>
            rw [List.mem_singleton.mp hd]
            exact hb
        obtain ⟨hloop, hoffset⟩ := follows_loop hout hpath hlinked hnext
        refine ⟨_, seen ++ [c], ?_, hloop, ?_⟩
        · exact Reader.step_running (dumpMachine_load kv out _ _ _ _ (Nat.le_refl _) hload)
        · rw [hoffset, List.length_append, List.length_singleton, Reader.offset]
          omega

theorem links_init {s : Service} {root : Nat} (hroot : s.Grants sizeofBase root) :
    Links prog (System.init (Pmemkv.create s root) : System ι).progress
      (Pmemkv.create s root).service.mem (Pmemkv.create s root).bp [] where
  nodup := List.nodup_nil
  mem_iff c := by
    by_cases hc : c.2 = 0 <;> simp [System.progress, System.init, PutPc.rank, hc]
  head := .inl (create_spec hroot).chain
  next c call hcall hp := by
    by_cases hc : c.2 = 0 <;> simp [System.progress, System.init, PutPc.rank, hc] at hp

omit [DecidableEq ι] in
theorem PutPc.rank_le_effect {call : PutCall} {pc : PutPc} (hne : pc ≠ .updateMeta) :
    pc.rank ≤ (pc.effect hash call kv).2.rank := by
  cases pc with
  | getTail =>
    rw [PutPc.effect]
    split <;> simp [PutPc.rank]
  | updateMeta => exact absurd rfl hne
  | _ => simp [PutPc.effect, PutPc.rank]

/-- A step of a client keeps the pointers in order. -/
theorem Links.client {sys : System ι} {order : List (ι × Nat)} {i : ι}
    (h : Links prog sys.progress sys.kv.service.mem sys.kv.bp tails)
    (hinv : Inv hash prog sys order) (hok : sys.Ok hash prog i) :
    ∃ sys' order' tails', sys.step hash prog i = some sys' ∧ Inv hash prog sys' order' ∧
      Links prog sys'.progress sys'.kv.service.mem sys'.kv.bp tails' ∧
      (∀ c, 10 ≤ sys.progress c → 10 ≤ sys'.progress c) ∧
      ∀ c c', Before tails c c' → Before tails' c c' := by
  obtain ⟨call, hcall, hstored, hgrant⟩ := hok.call
  by_cases heq : sys.pc i = .updateMeta
  · obtain ⟨ix, hstep, hinv'⟩ := hinv.ret hcall hgrant heq
    have hranks := fun n hn => sys.finish_ranks (n := n) heq hn ix
    refine ⟨_, _, tails, hstep, hinv', ?_, fun c => (hranks 10 (by decide) c).mpr, fun _ _ hb => hb⟩
    exact h.frame (hranks 11 (by decide)) (fun c => (hranks 10 (by decide) c).mpr) rfl
      fun _ _ _ _ => rfl
  · obtain ⟨hstep, hinv'⟩ := hinv.go hcall hstored hgrant heq
    obtain ⟨tails', hlinks', hbefore⟩ :=
      h.effect hinv.heap hcall (sys.progress_cur i) (hinv.pcs i) heq
    refine ⟨_, _, tails', hstep, hinv', ?_, ?_, hbefore⟩
    · rw [System.goTo, sys.progress_go]
      show Links prog _ _ ((sys.pc i).effect hash call sys.kv).1.bp tails'
      rw [PutPc.effect_bp]
      exact hlinks'
    · intro c hc
      rw [System.goTo, sys.progress_go]
      refine linked_update ?_ c hc
      rw [sys.progress_cur]
      exact PutPc.rank_le_effect heq

/-- The calls that a reader has seen are in the list, but for the last one. -/
theorem length_le_of_before {seen : List (ι × Nat)} (hpath : seen.Pairwise (Before tails)) :
    seen.length ≤ tails.length + 1 := by
  cases seen.eq_nil_or_concat with
  | inl hnil => simp [hnil]
  | inr hsnoc =>
    obtain ⟨front, c, rfl⟩ := hsnoc
    rw [List.concat_eq_append] at hpath ⊢
    obtain ⟨hfront, _, hlast⟩ := List.pairwise_append.mp hpath
    have hnodup : front.Nodup := hfront.imp fun hb heq => by
      rw [heq] at hb
      exact Nat.lt_irrefl _ hb
    have hsub : front ⊆ tails := fun d hd => (hlast d hd c (by simp)).mem
    have hle := (hnodup.subperm hsub).length_le
    rw [List.length_append, List.length_singleton]
    omega

end

/-! ## Whole runs -/

section

variable {ι κ : Type} [DecidableEq ι] [DecidableEq κ] {hash : String → UInt64}
variable {prog : ι → List PutCall}

/-- The number of steps of the reader `r`. -/
def stepsOf (r : κ) (sched : List (ι ⊕ κ)) : Nat := sched.countP (· = .inr r)

theorem stepsOf_snoc_self (r : κ) (done : List (ι ⊕ κ)) :
    stepsOf r (done ++ [.inr r]) = stepsOf r done + 1 := by
  simp [stepsOf]

theorem stepsOf_snoc_of_ne {r : κ} (done : List (ι ⊕ κ)) {a : ι ⊕ κ} (ha : a ≠ .inr r) :
    stepsOf r (done ++ [a]) = stepsOf r done := by
  simp [stepsOf, ha]

/-- The invariant of clients and readers; `done` are the steps so far. -/
def WatchInv (hash : String → UInt64) (prog : ι → List PutCall) (done : List (ι ⊕ κ))
    (w : Watched ι κ) : Prop :=
  ∃ order tails, Inv hash prog w.sys order ∧
    Links prog w.sys.progress w.sys.kv.service.mem w.sys.kv.bp tails ∧
    ∀ r, ∃ seen, Follows hash prog w.sys.progress tails (w.reader r) seen ∧
      stepsOf r done = 6 * seen.length + (w.reader r).offset

theorem watchInv_init {s : Service} {root : Nat} (hroot : s.Grants sizeofBase root) :
    WatchInv hash prog ([] : List (ι ⊕ κ)) (Watched.init (Pmemkv.create s root)) := by
  refine ⟨[], [], inv_init hroot, links_init hroot, fun r => ⟨[], ?_, rfl⟩⟩
  refine ⟨rfl, List.Pairwise.nil, by simp, fun _ _ => rfl, fun pc out hrd hne => ?_⟩
  rw [Watched.init, Reader.running.injEq] at hrd
  exact absurd hrd.1.symm hne

theorem WatchInv.step {done : List (ι ⊕ κ)} {w : Watched ι κ} {a : ι ⊕ κ}
    (h : WatchInv hash prog done w) (hok : w.Ok hash prog a) :
    ∃ w', w.step hash prog a = some w' ∧ WatchInv hash prog (done ++ [a]) w' := by
  obtain ⟨order, tails, hinv, hlinks, hreaders⟩ := h
  cases a with
  | inl i =>
    obtain ⟨sys', order', tails', hstep, hinv', hlinks', hlinked, hbefore⟩ := hlinks.client hinv hok
    refine ⟨{ w with sys := sys' }, by rw [Watched.step, hstep, Option.map_some], order', tails',
      hinv', hlinks', fun r => ?_⟩
    obtain ⟨seen, hfollows, hcount⟩ := hreaders r
    refine ⟨seen, hfollows.mono hlinked hbefore, ?_⟩
    rw [stepsOf_snoc_of_ne done (by simp), hcount]
  | inr r =>
    obtain ⟨seen, hfollows, hcount⟩ := hreaders r
    obtain ⟨rd, seen', hstep, hfollows', hlen⟩ := hfollows.step hlinks hinv.heap hok
    refine ⟨{ w with reader := Function.update w.reader r rd },
      by rw [Watched.step, hstep, Option.map_some], order, tails, hinv, hlinks, fun q => ?_⟩
    by_cases hq : q = r
    · subst hq
      refine ⟨seen', ?_, ?_⟩
      · dsimp only
        rw [Function.update_self]
        exact hfollows'
      · dsimp only
        rw [stepsOf_snoc_self, hcount, Function.update_self, hlen]
    · obtain ⟨seen₂, hfollows₂, hcount₂⟩ := hreaders q
      refine ⟨seen₂, ?_, ?_⟩
      · dsimp only
        rw [Function.update_of_ne hq]
        exact hfollows₂
      · dsimp only
        rw [stepsOf_snoc_of_ne done (by simp [Ne.symm hq]), hcount₂, Function.update_of_ne hq]

/-- What a reader has visited are whole entries, in the order of the stores to `bp->tail` and
none of them twice, and its steps are bounded by the number of these stores. -/
structure VisitedWhole (hash : String → UInt64) (prog : ι → List PutCall) (sys : System ι)
    (tails : List (ι × Nat)) (rd : Reader) (steps : Nat) : Prop where
  whole : ∃ seen, rd.out = walkedAt hash prog seen ∧ seen.Pairwise (Before tails) ∧
    ∀ c ∈ seen, 10 ≤ sys.progress c ∧ ∃ call, callAt prog c = some call
  bounded : steps ≤ 6 * tails.length + 7

theorem Follows.visitedWhole {sys : System ι} {tails seen : List (ι × Nat)} {rd : Reader}
    (h : Follows hash prog sys.progress tails rd seen) :
    VisitedWhole hash prog sys tails rd (6 * seen.length + rd.offset) := by
  refine ⟨⟨seen, h.out, h.path, h.linked⟩, ?_⟩
  have hlen := length_le_of_before h.path
  cases rd with
  | returned out =>
    rw [Reader.offset]
    omega
  | running pc out =>
    by_cases hhead : pc = .getHead
    · subst hhead
      rw [h.start out rfl, Reader.offset, List.length_nil]
      omega
    · -- the entry at which the reader is lies behind all that it has seen
      obtain ⟨c, _, _, _, hseen, _⟩ := h.here pc out rfl hhead
      have hlen' : (seen ++ [c]).length ≤ tails.length + 1 :=
        length_le_of_before (List.pairwise_append.mpr ⟨h.path, List.pairwise_singleton _ _,
          fun d hd e he => by
            rw [List.mem_singleton.mp he]
            exact hseen d hd⟩)
      have hoffset : (Reader.running pc out).offset ≤ 6 := by
        cases pc <;> simp [Reader.offset]
      rw [List.length_append, List.length_singleton] at hlen'
      omega

end

/-- Both clients find the list empty; the reader starts after the first of them has stored the
head and goes on while the second one replaces it. -/
def readWhileLinking : List (Bool ⊕ Unit) :=
  (bothFirst.take 17).map .inl ++ List.replicate 4 (.inr ()) ++ (bothFirst.drop 17).map .inl ++
    List.replicate 3 (.inr ())

end SparkNvm.Native
