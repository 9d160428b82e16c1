import Mathlib.Algebra.Order.BigOperators.Group.List
import Mathlib.Data.List.Induction
import Mathlib.Tactic.Ring
import SparkNvm.Storage.MetaHandler

/-!
# Calls that offer the same devices

When every executor offers the same list, the first calls give out its devices one after
the other, and the later ones keep the counts level.

* `run_first`: the first calls.
* `Saturated` and `Saturated.run`: the calls after them.
* `sum_counts_le` and `sum_counts_of_quote`: what the counts cannot exceed.
* `assignment_balanced_iff`: how long the assignment is balanced.
-/

namespace SparkNvm.Storage

open Lib

/-- What the table and the answers are after `k` calls that offer `devices`. -/
structure Balanced (devices : List String) (k : Nat) (s : Metastore) : Prop where
  answers : s.returned.length = k
  offered : ∀ device ∈ s.returned, device ∈ devices
  total : (s.devices.rows.map Prod.snd).sum = k
  distinct : (s.returned.take devices.length).Nodup
  balanced : devices.length ≤ k → ∀ row ∈ s.devices.rows, ∀ row' ∈ s.devices.rows,
    row.2 ≤ row'.2 + 1

/-- The calls, each with a fresh copy of the list. -/
def offering (devices : List String) (orders : List Enumeration) : List DeviceCall :=
  orders.map fun order => ⟨order, devices⟩

section

variable {devices front rest : List String} {device name : String} {s : Metastore}

theorem unrecorded_eq {t : DevicesTable} (hsplit : devices = front ++ device :: rest)
    (hfront : ∀ d ∈ front, d ∈ t.deviceList) (hnew : device ∉ t.deviceList) :
    ∃ rest', unrecorded t devices = device :: rest' := by
  refine ⟨unrecorded t rest, ?_⟩
  have hnil : front.filter (fun d => d ∉ t.deviceList) = [] := by
    rw [List.filter_eq_nil_iff]
    intro d hd
    simpa using hfront d hd
  rw [hsplit, unrecorded, List.filter_append, hnil, List.nil_append,
    List.filter_cons_of_pos (by simpa using hnew)]
  rfl

/-- Another device is given out for the first time. -/
theorem run_concat {orders : List Enumeration} {t : DevicesTable}
    (hrun : run Metastore.call Metastore.new (offering devices orders) = some ⟨t, front⟩)
    (hrows : t.rows = front.map fun d => (d, 1)) (order : Enumeration)
    (hsplit : devices = front ++ device :: rest) (hnew : device ∉ front) (hnewName : name ∉ front)
    (hname : sqlLiteral device = some name) :
    ∃ t', run Metastore.call Metastore.new (offering devices (orders ++ [order])) =
        some ⟨t', front ++ [device]⟩ ∧
      t'.rows = front.map (fun d => (d, 1)) ++ [(name, 1)] := by
  have hlist : t.deviceList = front := by
    rw [DevicesTable.deviceList, hrows, List.map_map]
    exact List.map_id front
  obtain ⟨rest', hunrecorded⟩ := unrecorded_eq (t := t) hsplit
    (fun d hd => hlist ▸ hd) (hlist ▸ hnew)
  refine ⟨t.insertOrIgnore name 1, ?_, ?_⟩
  · rw [offering] at hrun ⊢
    rw [List.map_append, run_append, hrun, Option.bind_some, List.map_singleton, run_cons,
      Metastore.call, getUnusedDevice_new order hunrecorded hname]
    rfl
  · rw [DevicesTable.rows_insertOrIgnore (hlist ▸ hnewName), hrows]

theorem not_mem_front (hnodup : devices.Nodup) (hsplit : devices = front ++ device :: rest) :
    device ∉ front := by
  rw [hsplit] at hnodup
  exact fun hmem => (List.nodup_append.mp hnodup).2.2 device hmem device List.mem_cons_self rfl

/-- The first calls give out the devices in the order of the list. -/
theorem run_first (hsplit : devices = front ++ rest) (hnodup : devices.Nodup)
    (hplain : ∀ d ∈ front, Plain d) {orders : List Enumeration}
    (hlength : orders.length = front.length) :
    ∃ t, run Metastore.call Metastore.new (offering devices orders) = some ⟨t, front⟩ ∧
      t.rows = front.map fun d => (d, 1) := by
  induction front using List.reverseRecOn generalizing rest orders with
  | nil =>
    rw [List.length_eq_zero_iff.mp hlength]
    exact ⟨DevicesTable.empty, rfl, rfl⟩
  | append_singleton front device ih =>
    rw [List.append_assoc, List.singleton_append] at hsplit
    cases orders using List.reverseRecOn with
    | nil => simp at hlength
    | append_singleton orders order =>
      obtain ⟨t, hrun, hrows⟩ := ih hsplit
        (fun d hd => hplain d (List.mem_append_left _ hd)) (by simpa using hlength)
      have hnew := not_mem_front hnodup hsplit
      rw [List.map_append]
      exact run_concat hrun hrows order hsplit hnew hnew
        (sqlLiteral_of_plain (hplain device (by simp)))

/-- The first calls, up to one whose device may have a quote in its name. -/
theorem run_first_concat (hsplit : devices = front ++ device :: rest) (hnodup : devices.Nodup)
    (hplain : ∀ d ∈ front, Plain d) (hname : sqlLiteral device = some name)
    (orders : List Enumeration) (hlength : orders.length = front.length + 1) :
    ∃ t, run Metastore.call Metastore.new (offering devices orders) =
        some ⟨t, front ++ [device]⟩ ∧
      t.rows = front.map (fun d => (d, 1)) ++ [(name, 1)] := by
  have hnew := not_mem_front hnodup hsplit
  have hnewName : name ∉ front := by
    by_cases hquote : Plain device
    · rw [sqlLiteral_of_plain hquote] at hname
      rw [← Option.some.inj hname]
      exact hnew
    · exact fun hmem => (sqlLiteral_of_quote hquote hname).2 (hplain name hmem)
  cases orders using List.reverseRecOn with
  | nil => simp at hlength
  | append_singleton orders order =>
    obtain ⟨t, hrun, hrows⟩ := run_first hsplit hnodup hplain (by simpa using hlength)
    exact run_concat hrun hrows order hsplit hnew hnewName hname

theorem sum_updateRow {rows : List (String × Int)} {count : Int} (count' : Int)
    (hnodup : (rows.map Prod.fst).Nodup) (hrow : (device, count) ∈ rows) :
    ((rows.map (DevicesTable.updateRow count' device)).map Prod.snd).sum =
      (rows.map Prod.snd).sum - count + count' := by
  induction rows with
  | nil => exact absurd hrow List.not_mem_nil
  | cons row rows ih =>
    obtain ⟨hnew, hrest⟩ := List.nodup_cons.mp hnodup
    rw [List.map_cons, List.map_cons, List.sum_cons, List.map_cons, List.sum_cons]
    cases List.mem_cons.mp hrow with
    | inl heq =>
      -- the other rows are of other devices
      have hsame : rows.map (DevicesTable.updateRow count' device) = rows := by
        conv_rhs => rw [← List.map_id rows]
        apply List.map_congr_left
        intro row' hrow'
        refine if_neg fun heq' => hnew ?_
        rw [← heq]
        show device ∈ rows.map Prod.fst
        rw [← heq']
        exact List.mem_map_of_mem hrow'
      rw [hsame, ← heq, DevicesTable.updateRow, if_pos rfl]
      ring
    | inr hmem =>
      have hne : row.1 ≠ device := by
        intro heq
        rw [heq] at hnew
        exact hnew (List.mem_map.mpr ⟨_, hmem, rfl⟩)
      rw [ih hrest hmem, DevicesTable.updateRow, if_neg hne]
      ring

/-- Every device has been given out. -/
structure Saturated (devices : List String) (k : Nat) (s : Metastore) : Prop
    extends Balanced devices k s where
  deviceList : s.devices.deviceList = devices
  positive : PositiveCounts s.devices
  enough : devices.length ≤ k

/-- The smallest count can be incremented as long as not all counts are the largest `int`. -/
theorem Saturated.serves {k : Nat} (h : Saturated devices k s) (hempty : "" ∉ devices)
    (hplain : ∀ d ∈ devices, Plain d) (hk : k < devices.length * (2 ^ 31 - 1)) :
    Serves s.devices devices := by
  have hnone : unrecorded s.devices devices = [] := by
    rw [unrecorded, List.filter_eq_nil_iff, h.deviceList]
    intro d hd
    simpa using hd
  rw [Serves, hnone]
  intro row hrow
  have hmem : row.1 ∈ devices := by
    rw [← h.deviceList]
    exact List.mem_map_of_mem hrow.1
  refine ⟨hmem, fun heq => hempty (heq ▸ hmem), hplain _ hmem, ?_⟩
  have hsum : (s.devices.rows.map Prod.snd).length • row.2 ≤ (s.devices.rows.map Prod.snd).sum := by
    apply List.card_nsmul_le_sum
    intro count hcount
    obtain ⟨row', hrow', rfl⟩ := List.mem_map.mp hcount
    exact hrow.2 row' hrow'
  have hlength : (s.devices.rows.map Prod.snd).length = devices.length := by
    rw [← h.deviceList, DevicesTable.deviceList, List.length_map, List.length_map]
  rw [hlength, h.total, nsmul_eq_mul] at hsum
  by_contra hlarge
  have hge : (2 : Int) ^ 31 - 1 ≤ row.2 := by omega
  have hmul := Int.mul_le_mul_of_nonneg_left hge (Int.natCast_nonneg devices.length)
  omega

/-- One more call. -/
theorem Saturated.call {k : Nat} (h : Saturated devices k s) (hne : devices ≠ [])
    (hempty : "" ∉ devices) (hplain : ∀ d ∈ devices, Plain d)
    (hk : k < devices.length * (2 ^ 31 - 1)) (order : Enumeration) :
    ∃ s', s.call ⟨order, devices⟩ = some s' ∧ Saturated devices (k + 1) s' := by
  obtain ⟨device, t', hcall, hassigns, hshape⟩ :=
    getUnusedDevice_of_serves h.positive hne (h.serves hempty hplain hk) order
  have hdevice : device ∈ s.devices.deviceList := h.deviceList ▸ hassigns.offered
  obtain ⟨count, hsmallest, rfl⟩ := hshape.resolve_left fun hnew => hnew.1 hdevice
  refine ⟨⟨_, s.returned ++ [device]⟩, by rw [Metastore.call, hcall]; rfl, ?_⟩
  have hanswers := h.answers
  have henough := h.enough
  exact
    { answers := by simp [hanswers]
      offered := by
        intro d hd
        cases List.mem_append.mp hd with
        | inl hold => exact h.offered d hold
        | inr hadded => exact List.mem_singleton.mp hadded ▸ hassigns.offered
      total := by
        have hsum := sum_updateRow (count + 1) s.devices.unique hsmallest.1
        rw [h.total] at hsum
        rw [DevicesTable.update, hsum]
        push_cast
        ring
      distinct := by
        rw [List.take_append_of_le_length (by omega)]
        exact h.distinct
      balanced := by
        have hpair := h.balanced henough
        intro _ row hrow row' hrow'
        obtain ⟨old, hold, rfl⟩ := List.mem_map.mp hrow
        obtain ⟨old', hold', rfl⟩ := List.mem_map.mp hrow'
        have hle := hsmallest.2 old' hold'
        have hge := hpair old hold (device, count) hsmallest.1
        have hboth := hpair old hold old' hold'
        rw [DevicesTable.updateRow, DevicesTable.updateRow]
        split <;> split <;> dsimp only at * <;> omega
      deviceList := by rw [DevicesTable.deviceList_update, h.deviceList]
      positive := by
        have hpos : 1 ≤ count := h.positive _ hsmallest.1
        exact positiveCounts_update h.positive (by omega)
      enough := by omega }

theorem Saturated.run {k : Nat} (h : Saturated devices k s) (hne : devices ≠ [])
    (hempty : "" ∉ devices) (hplain : ∀ d ∈ devices, Plain d) (orders : List Enumeration)
    (hk : k + orders.length ≤ devices.length * (2 ^ 31 - 1)) :
    ∃ s', Lib.run Metastore.call s (offering devices orders) = some s' ∧
      Saturated devices (k + orders.length) s' := by
  induction orders generalizing k s with
  | nil => exact ⟨s, rfl, h⟩
  | cons order orders ih =>
    rw [List.length_cons] at hk
    obtain ⟨s₁, hcall, hs₁⟩ := h.call hne hempty hplain (by omega) order
    obtain ⟨s', hrun, hs'⟩ := ih hs₁ (by omega)
    refine ⟨s', ?_, ?_⟩
    · rw [offering, List.map_cons, run_cons, hcall, Option.bind_some]
      exact hrun
    · rw [List.length_cons, ← Nat.add_assoc, Nat.add_right_comm]
      exact hs'

/-- A device whose name is read as another one is given out for ever. -/
theorem run_stuck (hdevice : ∃ rest, unrecorded s.devices devices = device :: rest)
    (hname : sqlLiteral device = some name) (hmem : name ∈ s.devices.deviceList)
    (orders : List Enumeration) :
    ∃ returned, Lib.run Metastore.call s (offering devices orders) =
      some ⟨s.devices, returned⟩ := by
  induction orders generalizing s with
  | nil => exact ⟨s.returned, rfl⟩
  | cons order orders ih =>
    obtain ⟨rest, hrest⟩ := hdevice
    have hcall : s.call ⟨order, devices⟩ = some ⟨s.devices, s.returned ++ [device]⟩ := by
      rw [Metastore.call, getUnusedDevice_new order hrest hname,
        DevicesTable.insertOrIgnore_of_mem hmem]
      rfl
    obtain ⟨returned, hrun⟩ := ih (s := ⟨s.devices, s.returned ++ [device]⟩) ⟨rest, hrest⟩ hmem
    refine ⟨returned, ?_⟩
    rw [offering, List.map_cons, run_cons, hcall, Option.bind_some]
    exact hrun

/-- The names under which the offered devices are recorded. -/
def recordedNames (devices : List String) : List String :=
  devices.map fun d => (sqlLiteral d).getD d

/-- At most one row for each offered device, and each count is an `int`. -/
structure Bounded (devices : List String) (s : Metastore) : Prop where
  deviceList : ∀ d ∈ s.devices.deviceList, d ∈ recordedNames devices
  counts : ∀ row ∈ s.devices.rows, row.2 ≤ 2 ^ 31 - 1

theorem Bounded.call {s s' : Metastore} (h : Bounded devices s) {order : Enumeration}
    (hcall : s.call ⟨order, devices⟩ = some s') : Bounded devices s' := by
  obtain ⟨⟨device, t⟩, hanswer, rfl⟩ := Option.map_eq_some_iff.mp hcall
  rw [getUnusedDevice] at hanswer
  split at hanswer
  · dsimp only at hanswer
    split at hanswer
    · exact absurd hanswer (by simp)
    · obtain ⟨count, _, hanswer⟩ := Option.bind_eq_some_iff.mp hanswer
      obtain ⟨name, _, hanswer⟩ := Option.bind_eq_some_iff.mp hanswer
      obtain ⟨rfl, rfl⟩ := Prod.mk.inj (Option.some.inj hanswer)
      refine ⟨?_, fun row hrow => ?_⟩
      · rw [DevicesTable.deviceList_update]
        exact h.deviceList
      · obtain ⟨old, hold, rfl⟩ := List.mem_map.mp hrow
        rw [DevicesTable.updateRow]
        split
        · have := wrap32_le (count + 1)
          dsimp only
          omega
        · exact h.counts old hold
  · rename_i device' rest hnew
    obtain ⟨name, hname, hanswer⟩ := Option.bind_eq_some_iff.mp hanswer
    obtain ⟨rfl, rfl⟩ := Prod.mk.inj (Option.some.inj hanswer)
    by_cases hmem : name ∈ s.devices.deviceList
    · rw [DevicesTable.insertOrIgnore_of_mem hmem]
      exact ⟨h.deviceList, h.counts⟩
    · have hrows : (s.devices.insertOrIgnore name 1).rows = s.devices.rows ++ [(name, 1)] :=
        DevicesTable.rows_insertOrIgnore hmem
      refine ⟨fun d hd => ?_, fun row hrow => ?_⟩
      · rw [DevicesTable.deviceList, hrows, List.map_append] at hd
        cases List.mem_append.mp hd with
        | inl hold => exact h.deviceList d hold
        | inr hadded =>
          rw [List.mem_singleton.mp hadded]
          exact List.mem_map.mpr ⟨device', (mem_of_unrecorded hnew).1, by rw [hname]; rfl⟩
      · rw [hrows] at hrow
        cases List.mem_append.mp hrow with
        | inl hold => exact h.counts row hold
        | inr hadded =>
          rw [List.mem_singleton.mp hadded]
          norm_num

/-- The counts add up to less than `2 ^ 31` for each device. -/
theorem sum_counts_le {orders : List Enumeration}
    (hrun : run Metastore.call Metastore.new (offering devices orders) = some s) :
    (s.devices.rows.map Prod.snd).sum ≤ devices.length * (2 ^ 31 - 1) := by
  have hlists : Admissible Metastore.call (fun _ c => c.fullDeviceList = devices) Metastore.new
      (offering devices orders) := by
    apply admissible_of_forall
    intro c hc
    obtain ⟨order, _, rfl⟩ := List.mem_map.mp hc
    rfl
  have hbounded : Bounded devices s := by
    refine run_invariant_of_some ?_ ?_ hlists hrun
    · rintro s ⟨order, _⟩ s' hbounded rfl hcall
      exact hbounded.call hcall
    · exact ⟨fun d hd => absurd hd List.not_mem_nil, fun row hrow => absurd hrow List.not_mem_nil⟩
  have hlength : s.devices.rows.length ≤ devices.length := by
    have hsub := (List.subperm_of_subset s.devices.unique hbounded.deviceList).length_le
    rwa [List.length_map, recordedNames, List.length_map] at hsub
  have hsum := List.sum_le_card_nsmul (s.devices.rows.map Prod.snd) (2 ^ 31 - 1) (by
    intro count hcount
    obtain ⟨row, hrow, rfl⟩ := List.mem_map.mp hcount
    exact hbounded.counts row hrow)
  rw [List.length_map, nsmul_eq_mul] at hsum
  have hmul : (s.devices.rows.length : Int) * (2 ^ 31 - 1) ≤ devices.length * (2 ^ 31 - 1) := by
    exact Int.mul_le_mul_of_nonneg_right (by exact_mod_cast hlength) (by norm_num)
  omega

theorem sum_first (front : List String) (name : String) :
    ((front.map (fun d => (d, (1 : Int))) ++ [(name, 1)]).map Prod.snd).sum =
      ((front.length + 1 : Nat) : Int) := by
  rw [List.map_append, List.sum_append, List.map_map]
  simp [Function.comp_def]

/-- A name with a quote is recorded under another name, so it stays without a row. -/
theorem sum_counts_of_quote (hsplit : devices = front ++ device :: rest) (hnodup : devices.Nodup)
    (hplain : ∀ d ∈ front, Plain d) (hquote : ¬Plain device) (hname : sqlLiteral device = some name)
    {orders : List Enumeration} (hlength : front.length + 1 ≤ orders.length)
    (hrun : run Metastore.call Metastore.new (offering devices orders) = some s) :
    (s.devices.rows.map Prod.snd).sum = ((front.length + 1 : Nat) : Int) := by
  obtain ⟨t, hfirst, hrows⟩ := run_first_concat hsplit hnodup hplain hname
    (orders.take (front.length + 1)) (by simpa using hlength)
  have hlist : t.deviceList = front ++ [name] := by
    rw [DevicesTable.deviceList, hrows, List.map_append, List.map_map]
    exact congrArg (· ++ [name]) (List.map_id front)
  have hnew : device ∉ t.deviceList := by
    rw [hlist, List.mem_append, List.mem_singleton]
    rintro (hmem | heq)
    · exact not_mem_front hnodup hsplit hmem
    · exact (sqlLiteral_of_quote hquote hname).1 heq.symm
  obtain ⟨rest', hunrecorded⟩ := unrecorded_eq (t := t) hsplit
    (fun d hd => by rw [hlist]; exact List.mem_append_left _ hd) hnew
  obtain ⟨returned, hstuck⟩ := run_stuck (s := ⟨t, front ++ [device]⟩) ⟨rest', hunrecorded⟩ hname
    (by rw [hlist]; simp) (orders.drop (front.length + 1))
  have hall : offering devices orders = offering devices (orders.take (front.length + 1)) ++
      offering devices (orders.drop (front.length + 1)) := by
    rw [offering, offering, offering, ← List.map_append, List.take_append_drop]
  rw [hall, run_append, hfirst, Option.bind_some, hstuck] at hrun
  rw [← Option.some.inj hrun, hrows]
  exact sum_first front name

theorem exists_first_quote {k : Nat} (h : ¬∀ d ∈ devices.take k, Plain d) :
    ∃ front device rest, devices = front ++ device :: rest ∧ (∀ d ∈ front, Plain d) ∧
      ¬Plain device ∧ front.length < k := by
  induction devices generalizing k with
  | nil => simp at h
  | cons device devices ih =>
    cases k with
    | zero => simp at h
    | succ k =>
      by_cases hdevice : Plain device
      · rw [List.take_succ_cons, List.forall_mem_cons, and_iff_right hdevice] at h
        obtain ⟨front, device', rest, hsplit, hplain, hquote, hlength⟩ := ih h
        refine ⟨device :: front, device', rest, by rw [hsplit, List.cons_append], ?_, hquote,
          Nat.succ_lt_succ hlength⟩
        exact List.forall_mem_cons.mpr ⟨hdevice, hplain⟩
      · exact ⟨[], device, devices, rfl, fun d hd => absurd hd List.not_mem_nil, hdevice,
          Nat.succ_pos k⟩

/-- The calls up to one for each device. -/
theorem balanced_of_le (hnodup : devices.Nodup) (hsql : ∀ d ∈ devices, (sqlLiteral d).isSome)
    {orders : List Enumeration} (hle : orders.length ≤ devices.length)
    (hplain : ∀ d ∈ devices.take (orders.length - 1), Plain d) :
    ∃ s, run Metastore.call Metastore.new (offering devices orders) = some s ∧
      Balanced devices orders.length s := by
  cases orders with
  | nil =>
    refine ⟨Metastore.new, rfl, rfl, fun d hd => absurd hd List.not_mem_nil, rfl, ?_, ?_⟩
    · rw [Metastore.new, List.take_nil]
      exact List.nodup_nil
    · exact fun _ row hrow => absurd hrow List.not_mem_nil
  | cons order orders =>
    rw [List.length_cons] at hle
    have hsplit : devices =
        devices.take orders.length ++
          devices[orders.length] :: devices.drop (orders.length + 1) := by
      rw [← List.drop_eq_getElem_cons, List.take_append_drop]
    obtain ⟨name, hname⟩ := Option.isSome_iff_exists.mp
      (hsql devices[orders.length] (List.getElem_mem _))
    have hfront : (devices.take orders.length).length = orders.length := by
      rw [List.length_take]
      omega
    obtain ⟨t, hrun, hrows⟩ := run_first_concat hsplit hnodup hplain hname (order :: orders)
      (by rw [hfront, List.length_cons])
    have hreturned : devices.take orders.length ++ [devices[orders.length]] =
        devices.take (orders.length + 1) := by
      rw [List.take_add_one, List.getElem?_eq_getElem hle]
      rfl
    rw [hreturned] at hrun
    refine ⟨_, hrun, ?_, fun d hd => List.mem_of_mem_take hd, ?_, ?_,
      fun _ row hrow row' hrow' => ?_⟩
    · simp [hle]
    · rw [hrows, sum_first, hfront]
      rfl
    · exact (hnodup.sublist (List.take_sublist _ _)).sublist (List.take_sublist _ _)
    · have hone : ∀ row ∈ t.rows, row.2 = 1 := by
        rw [hrows]
        intro row hrow
        cases List.mem_append.mp hrow with
        | inl hfirst =>
          obtain ⟨d, _, rfl⟩ := List.mem_map.mp hfirst
          rfl
        | inr hlast => rw [List.mem_singleton.mp hlast]
      rw [hone row hrow, hone row' hrow']
      norm_num

/-- After one call for each device. -/
theorem saturated_first (hnodup : devices.Nodup) (hplain : ∀ d ∈ devices, Plain d)
    (orders : List Enumeration) (hlength : orders.length = devices.length) :
    ∃ s, run Metastore.call Metastore.new (offering devices orders) = some s ∧
      Saturated devices devices.length s := by
  have hsql : ∀ d ∈ devices, (sqlLiteral d).isSome := by
    intro d hd
    rw [sqlLiteral_of_plain (hplain d hd)]
    rfl
  obtain ⟨s, hrun, hbalanced⟩ := balanced_of_le hnodup hsql (Nat.le_of_eq hlength)
    fun d hd => hplain d (List.mem_of_mem_take hd)
  obtain ⟨t, hrun', hrows⟩ := run_first (List.append_nil devices).symm hnodup hplain hlength
  obtain rfl : s = ⟨t, devices⟩ := Option.some.inj (hrun.symm.trans hrun')
  rw [hlength] at hbalanced
  refine ⟨_, hrun, { hbalanced with deviceList := ?_, positive := ?_, enough := Nat.le_refl _ }⟩
  · rw [DevicesTable.deviceList, hrows, List.map_map]
    exact List.map_id devices
  · intro row hrow
    rw [hrows] at hrow
    obtain ⟨d, _, rfl⟩ := List.mem_map.mp hrow
    exact Int.le_refl 1

end

end SparkNvm.Storage
