import Mathlib.Data.List.Nodup
import SparkNvm.Lib.Combine
import SparkNvm.Lib.Int32
import SparkNvm.Lib.Run

/-!
# The table of devices

`PersistentMemoryMetaHandler.getUnusedDevice` gives each executor a device.  The table
`devices` counts how often a device was given out: a device without a row is preferred,
else one with the smallest `mount_count` is given out again.  The statements are texts with
the name of the device between two quotes, and the counts are `int`s.

* `sqlLiteral`, `DevicesTable`, `getDeviceWithMinCount`, `getUnusedDevice`: the code.
* `Serves` and `serves_iff`: when one call gives out an offered device and counts it.
* `offered_device_assigned`: all calls of a run.
-/

namespace SparkNvm.Storage

open Lib

/-! ## Names in statements -/

/-- The character that opens and closes a literal. -/
def quote : Char := Char.ofNat 39

/-- What SQL reads between two quotes: a quote is written twice.  A single one ends the
literal, and the statement is not the intended one. -/
def sqlText : List Char → Option (List Char)
  | [] => some []
  | [c] => if c = quote then none else some [c]
  | c :: c' :: cs =>
    if c = quote then
      if c' = quote then (sqlText cs).map (quote :: ·) else none
    else (sqlText (c' :: cs)).map (c :: ·)

/-- The device that a statement with this name between quotes is about. -/
def sqlLiteral (device : String) : Option String :=
  (sqlText device.toList).map String.ofList

/-- Names without a quote are spelled as they are. -/
def Plain (device : String) : Prop := quote ∉ device.toList

instance (device : String) : Decidable (Plain device) :=
  inferInstanceAs (Decidable (quote ∉ device.toList))

theorem sqlText_of_plain {cs : List Char} (h : quote ∉ cs) : sqlText cs = some cs := by
  induction cs using sqlText.induct with
  | case1 => rfl
  | case2 => exact absurd List.mem_cons_self h
  | case3 c hc => rw [sqlText, if_neg hc]
  | case4 => exact absurd List.mem_cons_self h
  | case5 => exact absurd List.mem_cons_self h
  | case6 c c' cs hc ih =>
    rw [sqlText, if_neg hc, ih fun hmem => h (List.mem_cons_of_mem _ hmem)]
    rfl

theorem length_sqlText_le {cs ds : List Char} (h : sqlText cs = some ds) :
    ds.length ≤ cs.length := by
  induction cs using sqlText.induct generalizing ds with
  | case1 => rw [← Option.some.inj h]
  | case2 => simp [sqlText] at h
  | case3 c hc =>
    rw [sqlText, if_neg hc] at h
    rw [← Option.some.inj h]
  | case4 cs ih =>
    rw [sqlText, if_pos rfl, if_pos rfl] at h
    obtain ⟨es, hes, rfl⟩ := Option.map_eq_some_iff.mp h
    exact Nat.le_succ_of_le (Nat.succ_le_succ (ih hes))
  | case5 c' cs hc' =>
    rw [sqlText, if_pos rfl, if_neg hc'] at h
    exact absurd h (by simp)
  | case6 c c' cs hc ih =>
    rw [sqlText, if_neg hc] at h
    obtain ⟨es, hes, rfl⟩ := Option.map_eq_some_iff.mp h
    exact Nat.succ_le_succ (ih hes)

/-- A doubled quote is read as one. -/
theorem sqlText_of_quote {cs ds : List Char} (h : quote ∈ cs) (hread : sqlText cs = some ds) :
    ds.length < cs.length ∧ quote ∈ ds := by
  induction cs using sqlText.induct generalizing ds with
  | case1 => exact absurd h List.not_mem_nil
  | case2 => simp [sqlText] at hread
  | case3 c hc => exact absurd (List.mem_singleton.mp h).symm hc
  | case4 cs =>
    rw [sqlText, if_pos rfl, if_pos rfl] at hread
    obtain ⟨es, hes, rfl⟩ := Option.map_eq_some_iff.mp hread
    exact ⟨Nat.lt_succ_of_le (Nat.succ_le_succ (length_sqlText_le hes)), List.mem_cons_self⟩
  | case5 c' cs hc' =>
    rw [sqlText, if_pos rfl, if_neg hc'] at hread
    exact absurd hread (by simp)
  | case6 c c' cs hc ih =>
    rw [sqlText, if_neg hc] at hread
    obtain ⟨es, hes, rfl⟩ := Option.map_eq_some_iff.mp hread
    have hmem : quote ∈ c' :: cs := by
      cases List.mem_cons.mp h with
      | inl heq => exact absurd heq.symm hc
      | inr hmem => exact hmem
    obtain ⟨hlt, hquote⟩ := ih hmem hes
    exact ⟨Nat.succ_lt_succ hlt, List.mem_cons_of_mem _ hquote⟩

theorem sqlLiteral_of_plain {device : String} (h : Plain device) :
    sqlLiteral device = some device := by
  rw [sqlLiteral, sqlText_of_plain h, Option.map_some, String.ofList_toList]

/-- A name with a quote is read as another name, which has a quote too. -/
theorem sqlLiteral_of_quote {device name : String} (h : ¬Plain device)
    (hread : sqlLiteral device = some name) : name ≠ device ∧ ¬Plain name := by
  obtain ⟨cs, hcs, rfl⟩ := Option.map_eq_some_iff.mp hread
  obtain ⟨hlt, hquote⟩ := sqlText_of_quote (not_not.mp h) hcs
  constructor
  · intro heq
    rw [← heq, String.toList_ofList] at hlt
    exact Nat.lt_irrefl _ hlt
  · rw [Plain, String.toList_ofList]
    exact not_not.mpr hquote

/-! ## The table -/

/-- The table `devices (device text UNIQUE, mount_count int)`. -/
structure DevicesTable where
  rows : List (String × Int)
  unique : (rows.map Prod.fst).Nodup

namespace DevicesTable

def empty : DevicesTable := ⟨[], List.nodup_nil⟩

/-- The column `device`. -/
def deviceList (t : DevicesTable) : List String := t.rows.map Prod.fst

/-- The `mount_count` of a device. -/
def mountCount (t : DevicesTable) (device : String) : Option Int :=
  (valuesAt device t.rows).head?

/-- `INSERT OR IGNORE INTO devices(device, mount_count) VALUES(device, count)`. -/
def insertOrIgnore (t : DevicesTable) (device : String) (count : Int) : DevicesTable :=
  if h : device ∈ t.deviceList then t
  else
    { rows := t.rows ++ [(device, count)]
      unique := by
        rw [List.map_append, List.map_singleton, ← List.concat_eq_append]
        exact List.Nodup.concat h t.unique }

/-- The rows after `UPDATE devices SET mount_count = count WHERE device = device`. -/
def updateRow (count : Int) (device : String) (row : String × Int) : String × Int :=
  if row.1 = device then (row.1, count) else row

theorem updateRow_fst (count : Int) (device : String) :
    Prod.fst ∘ updateRow count device = Prod.fst := by
  funext row
  by_cases h : row.1 = device
  · simp [updateRow, h]
  · simp [updateRow, h]

def update (t : DevicesTable) (count : Int) (device : String) : DevicesTable where
  rows := t.rows.map (updateRow count device)
  unique := by
    rw [List.map_map, updateRow_fst]
    exact t.unique

variable {t : DevicesTable} {device name : String} {count : Int}

theorem mountCount_eq_none : t.mountCount device = none ↔ device ∉ t.deviceList := by
  rw [mountCount, List.head?_eq_none_iff, deviceList, mem_keys_iff, not_not]

/-- The one row of a device. -/
theorem mountCount_eq_some : t.mountCount device = some count ↔ (device, count) ∈ t.rows := by
  have hle := length_valuesAt_le t.unique device
  rw [← mem_valuesAt, mountCount]
  match hvalues : valuesAt device t.rows, hle with
  | [], _ => simp
  | [c], _ => simp [eq_comm]

theorem rows_insertOrIgnore (h : name ∉ t.deviceList) :
    (t.insertOrIgnore name count).rows = t.rows ++ [(name, count)] := by
  rw [insertOrIgnore, dif_neg h]

theorem insertOrIgnore_of_mem (h : name ∈ t.deviceList) : t.insertOrIgnore name count = t := by
  rw [insertOrIgnore, dif_pos h]

theorem mountCount_insertOrIgnore_self (h : name ∉ t.deviceList) :
    (t.insertOrIgnore name count).mountCount name = some count := by
  rw [mountCount_eq_some, rows_insertOrIgnore h]
  exact List.mem_append_right _ List.mem_cons_self

theorem mountCount_insertOrIgnore_ne (h : device ≠ name) :
    (t.insertOrIgnore name count).mountCount device = t.mountCount device := by
  by_cases hmem : name ∈ t.deviceList
  · rw [insertOrIgnore_of_mem hmem]
  · rw [mountCount, rows_insertOrIgnore hmem, valuesAt_append, valuesAt_cons_ne h.symm]
    simp [valuesAt, mountCount]

theorem deviceList_update : (t.update count name).deviceList = t.deviceList := by
  rw [deviceList, update, List.map_map, updateRow_fst, deviceList]

theorem mountCount_update_self (h : name ∈ t.deviceList) :
    (t.update count name).mountCount name = some count := by
  obtain ⟨row, hrow, rfl⟩ := List.mem_map.mp h
  rw [mountCount_eq_some]
  exact List.mem_map.mpr ⟨row, hrow, if_pos rfl⟩

theorem mountCount_update_ne (h : device ≠ name) :
    (t.update count name).mountCount device = t.mountCount device := by
  have hrow : ∀ c, (device, c) ∈ (t.update count name).rows ↔ (device, c) ∈ t.rows := by
    intro c
    constructor
    · intro hmem
      obtain ⟨row, hrow, heq⟩ := List.mem_map.mp hmem
      by_cases hname : row.1 = name
      · rw [updateRow, if_pos hname] at heq
        exact absurd ((Prod.mk.inj heq).1.symm.trans hname) h
      · rw [updateRow, if_neg hname] at heq
        rw [← heq]
        exact hrow
    · exact fun hmem => List.mem_map.mpr ⟨_, hmem, if_neg h⟩
  apply Option.ext
  intro c
  rw [mountCount_eq_some, mountCount_eq_some]
  exact hrow c

end DevicesTable

/-! ## One call -/

/-- The order in which a `HashMap` enumerates its entries. -/
structure Enumeration where
  entrySet : List (String × Int) → List (String × Int)
  perm : ∀ entries, (entrySet entries).Perm entries

/-- One round of the loop of `getDeviceWithMinCount`. -/
def minCount (best entry : String × Int) : String × Int :=
  if best.2 = -1 ∨ entry.2 < best.2 then entry else best

/-- `getDeviceWithMinCount`. -/
def getDeviceWithMinCount (entrySet : List (String × Int)) : String :=
  (entrySet.foldl minCount ("", -1)).1

/-- `full_device_list.removeAll(device_list)`. -/
def unrecorded (t : DevicesTable) (fullDeviceList : List String) : List String :=
  fullDeviceList.filter fun device => device ∉ t.deviceList

/-- `getUnusedDevice`: the device and the table after the call, or `none` when the
executor exits.  Devices are unique, so `device_count` has one entry for each row. -/
def getUnusedDevice (e : Enumeration) (t : DevicesTable) (fullDeviceList : List String) :
    Option (String × DevicesTable) :=
  match unrecorded t fullDeviceList with
  | [] =>
    let device := getDeviceWithMinCount (e.entrySet t.rows)
    if device = "" then none
    else do
      let count ← t.mountCount device
      let name ← sqlLiteral device
      return (device, t.update (wrap32 (count + 1)) name)
  | device :: _ => do
    let name ← sqlLiteral device
    return (device, t.insertOrIgnore name 1)

/-- The row has the smallest count. -/
def Smallest (t : DevicesTable) (row : String × Int) : Prop :=
  row ∈ t.rows ∧ ∀ row' ∈ t.rows, row.2 ≤ row'.2

/-- The sentinel is no count. -/
def PositiveCounts (t : DevicesTable) : Prop := ∀ row ∈ t.rows, 1 ≤ row.2

theorem foldl_minCount_of_le {best : String × Int} {entries : List (String × Int)}
    (hbest : best.2 ≠ -1) (h : ∀ entry ∈ entries, best.2 ≤ entry.2) :
    entries.foldl minCount best = best := by
  induction entries with
  | nil => rfl
  | cons entry entries ih =>
    have hle := h entry List.mem_cons_self
    rw [List.foldl_cons, minCount, if_neg (by omega)]
    exact ih fun entry' hmem => h entry' (List.mem_cons_of_mem _ hmem)

theorem foldl_minCount_spec (entries : List (String × Int)) (best : String × Int)
    (h : ∀ entry ∈ best :: entries, 1 ≤ entry.2) :
    entries.foldl minCount best ∈ best :: entries ∧
      ∀ entry ∈ best :: entries, (entries.foldl minCount best).2 ≤ entry.2 := by
  induction entries generalizing best with
  | nil => simp
  | cons entry entries ih =>
    have hbest := h best List.mem_cons_self
    rw [List.foldl_cons, minCount]
    split
    · rename_i hlt
      obtain ⟨hmem, hle⟩ := ih entry fun entry' hmem => h entry' (List.mem_cons_of_mem _ hmem)
      refine ⟨List.mem_cons_of_mem _ hmem, fun entry' hmem' => ?_⟩
      cases List.mem_cons.mp hmem' with
      | inl heq =>
        have := hle entry List.mem_cons_self
        rw [heq]
        omega
      | inr hmem' => exact hle entry' hmem'
    · rename_i hge
      obtain ⟨hmem, hle⟩ := ih best fun entry' hmem => h entry' (by
        cases List.mem_cons.mp hmem with
        | inl heq => exact heq ▸ List.mem_cons_self
        | inr hmem => exact List.mem_cons_of_mem _ (List.mem_cons_of_mem _ hmem))
      constructor
      · cases List.mem_cons.mp hmem with
        | inl heq =>
          rw [heq]
          exact List.mem_cons_self
        | inr hmem => exact List.mem_cons_of_mem _ (List.mem_cons_of_mem _ hmem)
      · intro entry' hmem'
        have hself := hle best List.mem_cons_self
        cases List.mem_cons.mp hmem' with
        | inl heq => exact heq ▸ hself
        | inr hmem' =>
          cases List.mem_cons.mp hmem' with
          | inl heq =>
            rw [heq]
            omega
          | inr hmem' => exact hle entry' (List.mem_cons_of_mem _ hmem')

/-- Whatever the order, the device of a row with the smallest count is found. -/
theorem getDeviceWithMinCount_spec {t : DevicesTable} (h : PositiveCounts t) (hrows : t.rows ≠ [])
    (e : Enumeration) :
    ∃ row, Smallest t row ∧ getDeviceWithMinCount (e.entrySet t.rows) = row.1 := by
  have hperm := e.perm t.rows
  match hentries : e.entrySet t.rows with
  | [] =>
    rw [hentries] at hperm
    exact absurd hperm.symm.eq_nil hrows
  | entry :: entries =>
    rw [hentries] at hperm
    obtain ⟨hmem, hle⟩ := foldl_minCount_spec entries entry
      fun entry' hmem => h entry' (hperm.mem_iff.mp hmem)
    refine ⟨entries.foldl minCount entry, ⟨hperm.mem_iff.mp hmem, fun row' hrow' => ?_⟩, ?_⟩
    · exact hle row' (hperm.mem_iff.mpr hrow')
    · rw [getDeviceWithMinCount, List.foldl_cons, minCount, if_pos (Or.inl rfl)]

/-- Enumerates one entry first. -/
def Enumeration.startingWith (row : String × Int) : Enumeration where
  entrySet entries := if row ∈ entries then row :: entries.erase row else entries
  perm entries := by
    by_cases h : row ∈ entries
    · rw [if_pos h]
      exact (List.perm_cons_erase h).symm
    · rw [if_neg h]

theorem getDeviceWithMinCount_startingWith {t : DevicesTable} (h : PositiveCounts t)
    {row : String × Int} (hrow : Smallest t row) :
    getDeviceWithMinCount ((Enumeration.startingWith row).entrySet t.rows) = row.1 := by
  have hcount := h row hrow.1
  rw [Enumeration.startingWith]
  dsimp only
  rw [if_pos hrow.1, getDeviceWithMinCount, List.foldl_cons, minCount, if_pos (Or.inl rfl),
    foldl_minCount_of_le (by omega)]
  exact fun row' hmem => hrow.2 row' (List.mem_of_mem_erase hmem)

/-- The call gives out one of the offered devices, and counts it. -/
structure Assigns (t : DevicesTable) (offered : List String) (device : String)
    (t' : DevicesTable) : Prop where
  offered : device ∈ offered
  counted : t'.mountCount device = some ((t.mountCount device).getD 0 + 1)
  others : ∀ device', device' ≠ device → t'.mountCount device' = t.mountCount device'

/-- The condition on the table before a call.  If all the offered devices have a row, a device
with the smallest count is given out, which need not be offered. -/
def Serves (t : DevicesTable) (offered : List String) : Prop :=
  match unrecorded t offered with
  | [] => ∀ row, Smallest t row →
    row.1 ∈ offered ∧ row.1 ≠ "" ∧ Plain row.1 ∧ row.2 + 1 < 2 ^ 31
  | device :: _ => Plain device

instance (t : DevicesTable) (offered : List String) : Decidable (Serves t offered) :=
  match h : unrecorded t offered with
  | [] =>
    decidable_of_iff
      (∀ row ∈ t.rows, (∀ row' ∈ t.rows, row.2 ≤ row'.2) →
        row.1 ∈ offered ∧ row.1 ≠ "" ∧ Plain row.1 ∧ row.2 + 1 < 2 ^ 31)
      (by
        rw [Serves, h]
        exact ⟨fun hall row hrow => hall row hrow.1 hrow.2,
          fun hall row hrow hle => hall row ⟨hrow, hle⟩⟩)
  | device :: _ => decidable_of_iff (Plain device) (by rw [Serves, h])

section

variable {t t' : DevicesTable} {offered rest : List String} {device name : String}

theorem mem_of_unrecorded (h : unrecorded t offered = device :: rest) :
    device ∈ offered ∧ device ∉ t.deviceList := by
  have hmem : device ∈ unrecorded t offered := by
    rw [h]
    exact List.mem_cons_self
  obtain ⟨hoffered, hnew⟩ := List.mem_filter.mp hmem
  exact ⟨hoffered, of_decide_eq_true hnew⟩

theorem rows_ne_nil_of_unrecorded (hne : offered ≠ []) (h : unrecorded t offered = []) :
    t.rows ≠ [] := by
  obtain ⟨device, hdevice⟩ := List.exists_mem_of_ne_nil _ hne
  have hrecorded := List.filter_eq_nil_iff.mp h device hdevice
  intro hnil
  simp [DevicesTable.deviceList, hnil] at hrecorded

/-- A device without a row. -/
theorem getUnusedDevice_new (e : Enumeration) (h : unrecorded t offered = device :: rest)
    (hname : sqlLiteral device = some name) :
    getUnusedDevice e t offered = some (device, t.insertOrIgnore name 1) := by
  simp only [getUnusedDevice, h, hname]
  rfl

/-- All the offered devices have a row. -/
theorem getUnusedDevice_reuse {e : Enumeration} {row : String × Int}
    (h : unrecorded t offered = []) (hrow : row ∈ t.rows) (hempty : row.1 ≠ "")
    (hname : sqlLiteral row.1 = some name)
    (hdevice : getDeviceWithMinCount (e.entrySet t.rows) = row.1) :
    getUnusedDevice e t offered = some (row.1, t.update (wrap32 (row.2 + 1)) name) := by
  have hcount : t.mountCount row.1 = some row.2 := DevicesTable.mountCount_eq_some.mpr hrow
  simp only [getUnusedDevice, h, hdevice, if_neg hempty, hcount, hname]
  rfl

theorem assigns_insert (h : unrecorded t offered = device :: rest) :
    Assigns t offered device (t.insertOrIgnore device 1) := by
  obtain ⟨hoffered, hnew⟩ := mem_of_unrecorded h
  refine ⟨hoffered, ?_, fun device' hne => DevicesTable.mountCount_insertOrIgnore_ne hne⟩
  rw [DevicesTable.mountCount_insertOrIgnore_self hnew, DevicesTable.mountCount_eq_none.mpr hnew]
  rfl

theorem assigns_update {row : String × Int} (hrow : row ∈ t.rows) (hoffered : row.1 ∈ offered) :
    Assigns t offered row.1 (t.update (row.2 + 1) row.1) := by
  refine ⟨hoffered, ?_, fun device' hne => DevicesTable.mountCount_update_ne hne⟩
  rw [DevicesTable.mountCount_update_self (List.mem_map_of_mem hrow),
    DevicesTable.mountCount_eq_some.mpr hrow]
  rfl

theorem wrap32_succ {x : Int} (hlo : 1 ≤ x) (hhi : x + 1 < 2 ^ 31) : wrap32 (x + 1) = x + 1 :=
  wrap32_of_fits (by omega) hhi

/-- What the call does to a served list: a row is added, or a smallest count is incremented. -/
theorem getUnusedDevice_of_serves (hcounts : PositiveCounts t) (hne : offered ≠ [])
    (h : Serves t offered) (e : Enumeration) :
    ∃ device t', getUnusedDevice e t offered = some (device, t') ∧ Assigns t offered device t' ∧
      ((device ∉ t.deviceList ∧ t' = t.insertOrIgnore device 1) ∨
        ∃ count, Smallest t (device, count) ∧ t' = t.update (count + 1) device) := by
  unfold Serves at h
  split at h
  · rename_i hnone
    obtain ⟨row, hrow, hdevice⟩ :=
      getDeviceWithMinCount_spec hcounts (rows_ne_nil_of_unrecorded hne hnone) e
    obtain ⟨hoffered, hempty, hplain, hcount⟩ := h row hrow
    have hcall := getUnusedDevice_reuse hnone hrow.1 hempty (sqlLiteral_of_plain hplain) hdevice
    rw [wrap32_succ (hcounts row hrow.1) hcount] at hcall
    exact ⟨row.1, _, hcall, assigns_update hrow.1 hoffered, Or.inr ⟨row.2, hrow, rfl⟩⟩
  · rename_i device rest hnew
    refine ⟨device, _, getUnusedDevice_new e hnew (sqlLiteral_of_plain h), assigns_insert hnew,
      Or.inl ⟨(mem_of_unrecorded hnew).2, rfl⟩⟩

/-- The name of a device that was given out has no quote. -/
theorem plain_of_assigns (hread : sqlLiteral device = some name)
    (hsame : ∀ device', device' ≠ name → t'.mountCount device' = t.mountCount device')
    (h : Assigns t offered device t') : Plain device := by
  by_contra hquote
  have hne : device ≠ name := (sqlLiteral_of_quote hquote hread).1.symm
  have hcounted := h.counted
  rw [hsame device hne] at hcounted
  cases hcount : t.mountCount device with
  | none => simp [hcount] at hcounted
  | some count =>
    rw [hcount, Option.some.injEq, Option.getD_some] at hcounted
    omega

/-- A call counts an offered device, whatever the order of the entries, if and only if the
list is served. -/
theorem serves_iff (hcounts : PositiveCounts t) (hne : offered ≠ []) :
    (∀ e, ∃ device t', getUnusedDevice e t offered = some (device, t') ∧
      Assigns t offered device t') ↔ Serves t offered := by
  constructor
  · intro hall
    unfold Serves
    split
    · rename_i hnone
      intro row hrow
      have hdevice := getDeviceWithMinCount_startingWith hcounts hrow
      obtain ⟨device, t', hcall, hassigns⟩ := hall (Enumeration.startingWith row)
      have hempty : row.1 ≠ "" := by
        intro hempty
        simp only [getUnusedDevice, hnone, hdevice, if_pos hempty] at hcall
        exact absurd hcall (by simp)
      cases hname : sqlLiteral row.1 with
      | none =>
        simp only [getUnusedDevice, hnone, hdevice, if_neg hempty, hname] at hcall
        exact absurd hcall (by simp)
      | some name =>
        rw [getUnusedDevice_reuse hnone hrow.1 hempty hname hdevice] at hcall
        obtain ⟨rfl, rfl⟩ := Prod.mk.inj (Option.some.inj hcall)
        have hplain := plain_of_assigns hname
          (fun device' hne => DevicesTable.mountCount_update_ne hne) hassigns
        refine ⟨hassigns.offered, hempty, hplain, ?_⟩
        have hself : name = row.1 := by
          rw [sqlLiteral_of_plain hplain] at hname
          exact (Option.some.inj hname).symm
        have hcounted := hassigns.counted
        rw [hself, DevicesTable.mountCount_update_self (List.mem_map_of_mem hrow.1),
          DevicesTable.mountCount_eq_some.mpr hrow.1, Option.some.injEq, Option.getD_some]
          at hcounted
        rw [← hcounted]
        exact wrap32_le _
    · rename_i device rest hnew
      obtain ⟨device', t', hcall, hassigns⟩ := hall ⟨id, fun _ => List.Perm.refl _⟩
      cases hname : sqlLiteral device with
      | none =>
        simp only [getUnusedDevice, hnew, hname] at hcall
        exact absurd hcall (by simp)
      | some name =>
        rw [getUnusedDevice_new _ hnew hname] at hcall
        obtain ⟨rfl, rfl⟩ := Prod.mk.inj (Option.some.inj hcall)
        exact plain_of_assigns hname
          (fun device' hne => DevicesTable.mountCount_insertOrIgnore_ne hne) hassigns
  · intro h e
    obtain ⟨device, t', hcall, hassigns, _⟩ := getUnusedDevice_of_serves hcounts hne h e
    exact ⟨device, t', hcall, hassigns⟩

end

/-! ## Runs of calls -/

/-- A call of `getUnusedDevice`, with the order in which its `HashMap` enumerates. -/
structure DeviceCall where
  order : Enumeration
  fullDeviceList : List String

/-- The table, and the devices given out so far. -/
structure Metastore where
  devices : DevicesTable
  returned : List String

/-- Starts from an empty table. -/
def Metastore.new : Metastore := ⟨DevicesTable.empty, []⟩

def Metastore.call (s : Metastore) (c : DeviceCall) : Option Metastore :=
  (getUnusedDevice c.order s.devices c.fullDeviceList).map fun answer =>
    ⟨answer.2, s.returned ++ [answer.1]⟩

/-- The list of every call is served in the state of the call. -/
abbrev AllServed (s : Metastore) (calls : List DeviceCall) : Prop :=
  Admissible Metastore.call (fun s c => Serves s.devices c.fullDeviceList) s calls

theorem positiveCounts_insertOrIgnore {t : DevicesTable} {device : String}
    (h : PositiveCounts t) (hnew : device ∉ t.deviceList) :
    PositiveCounts (t.insertOrIgnore device 1) := by
  intro row hrow
  rw [DevicesTable.rows_insertOrIgnore hnew] at hrow
  cases List.mem_append.mp hrow with
  | inl hold => exact h row hold
  | inr hadded =>
    obtain rfl := List.mem_singleton.mp hadded
    exact Int.le_refl 1

theorem positiveCounts_update {t : DevicesTable} {device : String} {count : Int}
    (h : PositiveCounts t) (hcount : 1 ≤ count) : PositiveCounts (t.update count device) := by
  intro row hrow
  obtain ⟨row', hrow', rfl⟩ := List.mem_map.mp hrow
  rw [DevicesTable.updateRow]
  split
  · exact hcount
  · exact h row' hrow'

/-- A served call. -/
theorem call_of_serves {s : Metastore} {c : DeviceCall} (hcounts : PositiveCounts s.devices)
    (hne : c.fullDeviceList ≠ []) (h : Serves s.devices c.fullDeviceList) :
    ∃ s', s.call c = some s' ∧ PositiveCounts s'.devices := by
  obtain ⟨device, t', hcall, _, hshape⟩ := getUnusedDevice_of_serves hcounts hne h c.order
  refine ⟨⟨t', s.returned ++ [device]⟩, by rw [Metastore.call, hcall]; rfl, ?_⟩
  cases hshape with
  | inl hinsert =>
    rw [hinsert.2]
    exact positiveCounts_insertOrIgnore hcounts hinsert.1
  | inr hupdate =>
    obtain ⟨count, hsmallest, heq⟩ := hupdate
    have hpos : 1 ≤ count := hcounts _ hsmallest.1
    rw [heq]
    exact positiveCounts_update hcounts (by omega)

theorem run_of_allServed {calls : List DeviceCall} (hne : ∀ c ∈ calls, c.fullDeviceList ≠ [])
    (h : AllServed Metastore.new calls) :
    ∃ s, run Metastore.call Metastore.new calls = some s ∧ PositiveCounts s.devices := by
  refine run_invariant (I := fun _ s => PositiveCounts s.devices) ?_ ?_ h
  · intro done c rest s hsplit hcounts hserves
    exact call_of_serves hcounts (hne c (by rw [hsplit]; simp)) hserves
  · exact fun row hrow => absurd hrow List.not_mem_nil

/-- In a run whose lists are all served, every call gives out an offered device, and in the state
reached so does the next call, whatever the order of the entries, exactly if its list is
served. -/
theorem offered_device_assigned (calls : List DeviceCall)
    (hne : ∀ c ∈ calls, c.fullDeviceList ≠ []) (h : AllServed Metastore.new calls) :
    (∀ done c rest, calls = done ++ c :: rest →
      ∃ s device t, run Metastore.call Metastore.new done = some s ∧
        getUnusedDevice c.order s.devices c.fullDeviceList = some (device, t) ∧
        Assigns s.devices c.fullDeviceList device t) ∧
    ∃ s, run Metastore.call Metastore.new calls = some s ∧
      ∀ offered, offered ≠ [] →
        ((∀ e, ∃ device t, getUnusedDevice e s.devices offered = some (device, t) ∧
          Assigns s.devices offered device t) ↔ Serves s.devices offered) := by
  constructor
  · rintro done c rest rfl
    obtain ⟨hdone, hrest⟩ := admissible_append.mp h
    obtain ⟨s, hrun, hcounts⟩ := run_of_allServed
      (fun c' hc' => hne c' (List.mem_append_left _ hc')) hdone
    obtain ⟨device, t, hcall, hassigns, _⟩ := getUnusedDevice_of_serves hcounts
      (hne c (by simp)) (hrest s hrun).1 c.order
    exact ⟨s, device, t, hrun, hcall, hassigns⟩
  · obtain ⟨s, hrun, hcounts⟩ := run_of_allServed hne h
    exact ⟨s, hrun, fun offered hoffered => serves_iff hcounts hoffered⟩

/-- The entries in the order of the rows. -/
def Enumeration.inOrder : Enumeration := ⟨id, fun _ => List.Perm.refl _⟩

/-- Two executors with one device, and a third one. -/
def twiceMounted : List DeviceCall :=
  [⟨Enumeration.inOrder, ["/dev/dax0.0"]⟩, ⟨Enumeration.inOrder, ["/dev/dax0.0"]⟩,
    ⟨Enumeration.inOrder, ["/dev/dax0.0", "/dev/dax1.0"]⟩]

theorem offered_device_assigned_sample :
    AllServed Metastore.new twiceMounted ∧
    ∃ s, run Metastore.call Metastore.new twiceMounted = some s ∧
      ((∀ e, ∃ device t, getUnusedDevice e s.devices ["/dev/dax1.0"] = some (device, t) ∧
          Assigns s.devices ["/dev/dax1.0"] device t) ↔ Serves s.devices ["/dev/dax1.0"]) := by
  have hserved : AllServed Metastore.new twiceMounted := by decide
  obtain ⟨s, hrun, hnext⟩ := (offered_device_assigned twiceMounted (by decide) hserved).2
  exact ⟨hserved, s, hrun, hnext ["/dev/dax1.0"] (by decide)⟩

/-- An executor that is offered only the second device is given the first one, which
`java.util.HashMap` enumerates first. -/
theorem unoffered_device_assigned :
    ¬∀ (calls : List DeviceCall) (c : DeviceCall), (∀ c' ∈ calls ++ [c], c'.fullDeviceList ≠ []) →
      ∃ s device t, run Metastore.call Metastore.new calls = some s ∧
        getUnusedDevice c.order s.devices c.fullDeviceList = some (device, t) ∧
        Assigns s.devices c.fullDeviceList device t := by
  intro hall
  obtain ⟨s, device, t, hrun, hcall, hassigns⟩ := hall
    [⟨Enumeration.inOrder, ["/dev/dax1.0"]⟩, ⟨Enumeration.inOrder, ["/dev/dax0.0"]⟩]
    ⟨Enumeration.inOrder, ["/dev/dax0.0"]⟩ (by decide)
  have hanswer : ((run Metastore.call Metastore.new
      [⟨Enumeration.inOrder, ["/dev/dax1.0"]⟩, ⟨Enumeration.inOrder, ["/dev/dax0.0"]⟩]).bind
        fun s => getUnusedDevice Enumeration.inOrder s.devices ["/dev/dax0.0"]).map Prod.fst =
      some "/dev/dax1.0" := by
    decide
  rw [hrun, Option.bind_some, hcall] at hanswer
  have hdevice : device = "/dev/dax1.0" := Option.some.inj hanswer
  have hoffered : device ∈ ["/dev/dax0.0"] := hassigns.offered
  rw [hdevice] at hoffered
  exact absurd hoffered (by decide)

end SparkNvm.Storage
