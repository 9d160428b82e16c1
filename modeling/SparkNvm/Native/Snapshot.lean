import SparkNvm.Native.Readers

/-!
# `dump_all` sees one moment

Where no client reads a tail that another one is about to replace, the persistent list only
grows at its end, by one store each.  A reader that walks it takes its own time, but what it
visits is the list as it was at one of its own steps.

* `Shown`: the list shows exactly the calls that have stored their link.
* `Tracks` is what a reader knows: it is at an entry of the shown list, or it has read the
  null pointer behind the last one.
* `dump_linearised`: for every reader that returned there is such a step.
-/

namespace SparkNvm.Native

open Lib

section

variable {ι : Type} [DecidableEq ι] {hash : String → UInt64} {prog : ι → List PutCall}

/-! ## What the list shows -/

/-- A walk of the list visits the calls `shown`, the ones that have stored their link. -/
structure Shown (hash : String → UInt64) (prog : ι → List PutCall) (sys : System ι)
    (shown : List (ι × Nat)) : Prop where
  nodup : shown.Nodup
  mem_iff : ∀ c, c ∈ shown ↔ 10 ≤ sys.progress c
  calls : ∀ c ∈ shown, ∃ call, callAt prog c = some call
  shows : Shows sys.kv.service sys.kv.bp (entriesAt hash prog shown)

/-- The calls that have stored the tail, and behind them the one that is about to. -/
def ShownBy (sys : System ι) (linked shown : List (ι × Nat)) : Prop :=
  (∀ i, sys.pc i ≠ .setTail) ∧ shown = linked ∨
    ∃ i, sys.pc i = .setTail ∧ shown = linked ++ [sys.cur i]

variable {sys sys' : System ι} {order linked shown : List (ι × Nat)} {i : ι}

omit [DecidableEq ι] in
/-- A call of this rank is the one that its client is in. -/
theorem System.progress_eq_ten {c : ι × Nat} (h : sys.progress c = 10) :
    sys.pc c.1 = .setTail ∧ c = sys.cur c.1 := by
  rw [System.progress] at h
  split at h
  · simp [finished] at h
  · split at h
    · rename_i heq
      refine ⟨?_, Prod.ext rfl heq⟩
      cases hpc : sys.pc c.1 with
      | setTail => rfl
      | _ =>
        rw [hpc] at h
        simp [PutPc.rank] at h
    · simp at h

/-- A call that has started is a call of the program. -/
theorem Inv.callAt_of_progress (h : Inv hash prog sys order) {c : ι × Nat}
    (hp : 1 ≤ sys.progress c) : ∃ call, callAt prog c = some call := by
  obtain ⟨j, n⟩ := c
  have hlen := h.done_le j
  rw [System.progress] at hp
  dsimp only at hp
  split at hp
  · exact ⟨_, List.getElem?_eq_getElem (show n < (prog j).length by omega)⟩
  · split at hp
    · rename_i heq
      subst heq
      cases hcall : callAt prog (sys.cur j) with
      | some call => exact ⟨call, hcall⟩
      | none =>
        rw [h.idle j hcall] at hp
        simp [PutPc.rank] at hp
    · simp at hp

theorem ShownBy.toShown (h : ShownBy sys linked shown) (hinv : Inv hash prog sys order)
    (hlink : LinkInv hash prog sys linked) : Shown hash prog sys shown := by
  rcases h with ⟨hnone, rfl⟩ | ⟨i, hpc, rfl⟩
  · have hmem : ∀ c, c ∈ shown ↔ 10 ≤ sys.progress c := by
      intro c
      rw [hlink.mem_iff c]
      refine ⟨fun hc => by omega, fun hc => ?_⟩
      have hne : sys.progress c ≠ 10 := fun heq => hnone c.1 (System.progress_eq_ten heq).1
      omega
    refine ⟨hlink.nodup, hmem, fun c hc => ?_, (hlink.whole hnone).shows⟩
    have hp := (hmem c).mp hc
    exact hinv.callAt_of_progress (by omega)
  · have hp : sys.progress (sys.cur i) = 10 := by rw [sys.progress_cur, hpc]; rfl
    obtain ⟨call, hcall⟩ := hinv.callAt_of_progress (c := sys.cur i) (by omega)
    have hnotin : sys.cur i ∉ linked := fun hmem => by
      have hge := (hlink.mem_iff _).mp hmem
      omega
    have hmem : ∀ c, c ∈ linked ++ [sys.cur i] ↔ 10 ≤ sys.progress c := by
      intro c
      rw [List.mem_append, List.mem_singleton, hlink.mem_iff c]
      refine ⟨fun hc => ?_, fun hc => ?_⟩
      · rcases hc with hc | rfl <;> omega
      · by_cases hten : sys.progress c = 10
        · -- only one client is between the two stores
          obtain ⟨hset, hcur⟩ := System.progress_eq_ten hten
          have heq : c.1 = i :=
            hlink.single _ _ (by rw [hset]; exact True.intro) (by rw [hpc]; exact True.intro)
          rw [heq] at hcur
          exact .inr hcur
        · exact .inl (by omega)
    refine ⟨?_, hmem, fun c hc => ?_, ?_⟩
    · exact List.nodup_append.mpr ⟨hlink.nodup, by simp, fun c hc d hd heq => by
        rw [heq, List.mem_singleton.mp hd] at hc
        exact hnotin hc⟩
    · have hge := (hmem c).mp hc
      exact hinv.callAt_of_progress (by omega)
    · rw [entriesAt_snoc linked hcall]
      exact (hlink.half i call hpc hcall).shows_before_tail rfl

omit [DecidableEq ι] in
/-- A step of a client that is not between the two stores, before it and after it. -/
theorem ShownBy.quiet (h : ShownBy sys linked shown)
    (hpcs : ∀ j, j ≠ i → sys'.pc j = sys.pc j ∧ sys'.cur j = sys.cur j)
    (hold : sys.pc i ≠ .setTail) (hnew : sys'.pc i ≠ .setTail) : ShownBy sys' linked shown := by
  rcases h with ⟨hnone, rfl⟩ | ⟨j, hpc, rfl⟩
  · refine .inl ⟨fun j hj => ?_, rfl⟩
    by_cases hji : j = i
    · rw [hji] at hj
      exact hnew hj
    · exact hnone j ((hpcs j hji).1.symm.trans hj)
  · have hji : j ≠ i := fun heq => hold (heq ▸ hpc)
    exact .inr ⟨j, (hpcs j hji).1.trans hpc, by rw [(hpcs j hji).2]⟩

/-- Two stores link an entry. -/
theorem PutPc.linking_of_effect {pc : PutPc} {call : PutCall} {kv : Pmemkv}
    (h : (pc.effect hash call kv).2 = .setTail) : pc.Linking ∧ pc ≠ .setTail := by
  cases pc with
  | getTail =>
    simp only [PutPc.effect] at h
    split at h <;> simp at h
  | setHead => exact ⟨True.intro, by simp⟩
  | linkNext t => exact ⟨True.intro, by simp⟩
  | _ => simp [PutPc.effect] at h

/-- A client step shows what was shown, and at most its own call behind it. -/
theorem ShownBy.step (h : ShownBy sys linked shown) (hinv : Inv hash prog sys order)
    (hlink : LinkInv hash prog sys linked) (hok : sys.OkAlone hash prog i) :
    ∃ sys' order' linked' shown', sys.step hash prog i = some sys' ∧ Inv hash prog sys' order' ∧
      LinkInv hash prog sys' linked' ∧ ShownBy sys' linked' shown' ∧
      (shown' = shown ∨ shown' = shown ++ [sys.cur i]) := by
  obtain ⟨call, hcall, hstored, hgrant⟩ := hok.1.call
  have honly : (sys.pc i).Linking → ∀ j, sys.pc j = .setTail → j = i := fun hlinking j hj =>
    hlink.single j i (by rw [hj]; exact True.intro) hlinking
  by_cases heq : sys.pc i = .updateMeta
  · obtain ⟨ix, hstep, hinv'⟩ := hinv.ret hcall hgrant heq
    refine ⟨_, _, linked, shown, hstep, hinv', hlink.finish heq ix,
      h.quiet (i := i) (fun j hj => ?_) (by simp [heq]) ?_, .inl rfl⟩
    · simp [System.finish, System.cur, Function.update_of_ne hj]
    · simp [System.finish]
  · obtain ⟨hstep, hinv'⟩ := hinv.go hcall hstored hgrant heq
    by_cases hset : sys.pc i = .setTail
    · have hshown : shown = linked ++ [sys.cur i] := by
        rcases h with ⟨hnone, _⟩ | ⟨j, hpc, rfl⟩
        · exact absurd hset (hnone i)
        · rw [honly (by rw [hset]; exact True.intro) j hpc]
      rw [hset] at hstep hinv'
      refine ⟨_, _, _, shown, hstep, hinv', hlink.setTail hcall hset, .inl ⟨fun j hj => ?_, hshown⟩,
        .inl rfl⟩
      by_cases hji : j = i
      · rw [hji, sys.goTo_pc_self] at hj
        simp [PutPc.effect] at hj
      · rw [sys.goTo_pc_of_ne _ _ hji] at hj
        exact hji (honly (by rw [hset]; exact True.intro) j hj)
    · have hlink' := hlink.stay hinv.heap (hinv.pcs i) hcall heq hset hok.2
      by_cases hnew : ((sys.pc i).effect hash call sys.kv).2 = .setTail
      · have hshown : shown = linked := by
          rcases h with ⟨_, hshown⟩ | ⟨j, hpc, _⟩
          · exact hshown
          · rw [honly (PutPc.linking_of_effect hnew).1 j hpc] at hpc
            exact absurd hpc hset
        subst hshown
        exact ⟨_, _, _, shown ++ [sys.cur i], hstep, hinv', hlink',
          .inr ⟨i, by rw [sys.goTo_pc_self]; exact hnew, rfl⟩, .inr rfl⟩
      · exact ⟨_, _, _, shown, hstep, hinv', hlink', h.quiet (i := i)
          (fun j hj => ⟨sys.goTo_pc_of_ne _ _ hj, rfl⟩) hset (by rw [sys.goTo_pc_self]; exact hnew),
          .inl rfl⟩

end

/-! ## What a reader knows -/

section

variable {ι : Type} {hash : String → UInt64} {prog : ι → List PutCall} {sys : System ι}
variable {shown : List (ι × Nat)}

/-- Behind the entry of `c`: the null pointer, where `point` holds of all that was visited by
then, or the next entry that is shown. -/
def Behind (hash : String → UInt64) (prog : ι → List PutCall) (shown : List (ι × Nat))
    (point : Loaded → Prop) (seen : List (ι × Nat)) (next : Nat) : Prop :=
  next = 0 ∧ point (walkedAt hash prog seen) ∨
    ∃ c call, callAt prog c = some call ∧ next = call.ans.entry ∧ next ≠ 0 ∧ seen ++ [c] <+: shown

/-- A reader is at an entry of the shown list and has visited those before it; `point` holds of
what it has returned. -/
inductive Tracks (hash : String → UInt64) (prog : ι → List PutCall) (shown : List (ι × Nat))
    (point : Loaded → Prop) : Reader → Prop
  | start : Tracks hash prog shown point (.running .getHead [])
  | entry {pc : DumpPc} {seen : List (ι × Nat)} {c : ι × Nat} {call : PutCall}
      (hpc : pc ≠ .getHead) (hc : seen ++ [c] <+: shown) (hcall : callAt prog c = some call)
      (hknows : pc.Knows hash call (Behind hash prog shown point (seen ++ [c]))) :
      Tracks hash prog shown point (.running pc (walkedAt hash prog seen))
  | returned {out : Loaded} (hout : point out) : Tracks hash prog shown point (.returned out)

theorem Behind.mono {shown' seen : List (ι × Nat)} {point point' : Loaded → Prop} {next : Nat}
    (h : Behind hash prog shown point seen next) (hshown : shown <+: shown')
    (hpoint : ∀ out, point out → point' out) : Behind hash prog shown' point' seen next := by
  refine h.imp (fun h => ⟨h.1, hpoint _ h.2⟩) fun h => ?_
  obtain ⟨c, call, hcall, hnext, hne, hc⟩ := h
  exact ⟨c, call, hcall, hnext, hne, hc.trans hshown⟩

/-- What others do does not disturb a reader. -/
theorem Tracks.mono {shown' : List (ι × Nat)} {point point' : Loaded → Prop} {rd : Reader}
    (h : Tracks hash prog shown point rd) (hshown : shown <+: shown')
    (hpoint : ∀ out, point out → point' out) : Tracks hash prog shown' point' rd := by
  cases h with
  | start => exact .start
  | entry hpc hc hcall hknows =>
    exact .entry hpc (hc.trans hshown) hcall (hknows.mono fun a ha => ha.mono hshown hpoint)
  | returned hout => exact .returned (hpoint _ hout)

/-- The test of the loop. -/
theorem tracks_loop {seen : List (ι × Nat)} {point : Loaded → Prop} {next : Nat}
    (h : Behind hash prog shown point seen next) :
    Tracks hash prog shown point (.after (DumpPc.loop next (walkedAt hash prog seen))) := by
  rcases h with ⟨h0, hpoint⟩ | ⟨c, call, hcall, rfl, hne, hc⟩
  · rw [DumpPc.loop, if_pos h0]
    exact .returned hpoint
  · rw [DumpPc.loop, if_neg hne]
    exact .entry (by simp) hc hcall rfl

theorem Shown.dumpWalk (h : Shown hash prog sys shown) {fuel : Nat}
    (hfuel : shown.length ≤ fuel) : sys.kv.dumpWalk fuel = some (walkedAt hash prog shown) := by
  have hlen : (entriesAt hash prog shown).length ≤ fuel := by
    have hle : (callsAt prog shown).length ≤ shown.length := List.length_filterMap_le _ _
    rw [entriesAt, entriesOf, List.length_map]
    omega
  rw [h.shows.dumpWalk hlen, entriesAt, entriesOf, List.map_map]
  rfl

/-- What lies behind the entries `seen` of the shown list. -/
theorem Shown.behind (h : Shown hash prog sys shown) {seen : List (ι × Nat)} {next : Nat}
    {point : Loaded → Prop} {rest : List (ι × Nat)} (hsplit : shown = seen ++ rest)
    (hchain : PtrChain (load64 sys.kv.service.mem) next
      ((entriesAt hash prog rest).map Entry.addr))
    (hpoint : point (walkedAt hash prog shown)) : Behind hash prog shown point seen next := by
  cases rest with
  | nil =>
    rw [List.append_nil] at hsplit
    subst hsplit
    exact .inl ⟨hchain, hpoint⟩
  | cons c rest =>
    obtain ⟨call, hcall⟩ := h.calls c (by rw [hsplit]; simp)
    have hentries : entriesAt hash prog (c :: rest) =
        call.entry hash :: entriesAt hash prog rest := by
      simp [entriesAt, entriesOf, callsAt, hcall]
    rw [hentries, List.map_cons] at hchain
    obtain ⟨rfl, hne, _⟩ := hchain
    refine .inr ⟨c, call, hcall, rfl, hne, rest, ?_⟩
    rw [hsplit, List.append_assoc]
    rfl

/-- The chain behind the first entries. -/
theorem Shown.chain_behind (h : Shown hash prog sys shown) {seen rest : List (ι × Nat)}
    {c : ι × Nat} {call : PutCall} (hsplit : shown = seen ++ [c] ++ rest)
    (hcall : callAt prog c = some call) :
    PtrChain (load64 sys.kv.service.mem) (load64 sys.kv.service.mem (nextAddr call.ans.entry))
      ((entriesAt hash prog rest).map Entry.addr) := by
  have hentries : (entriesAt hash prog shown).map Entry.addr =
      (entriesAt hash prog seen).map Entry.addr ++
        call.ans.entry :: (entriesAt hash prog rest).map Entry.addr := by
    rw [hsplit]
    simp [entriesAt, entriesOf, callsAt, hcall]
    rfl
  have hchain := h.shows.chain
  rw [hentries] at hchain
  exact hchain.behind

/-- One step of a reader, at a moment that may be its point. -/
theorem Tracks.step {point : Loaded → Prop} {rd : Reader} (h : Tracks hash prog shown point rd)
    (hshown : Shown hash prog sys shown) (hheap : Heap hash prog sys.progress sys.kv)
    (hpoint : point (walkedAt hash prog shown)) (hrun : ∀ out, rd ≠ .returned out) :
    ∃ rd', rd.step sys.kv = some rd' ∧ Tracks hash prog shown point rd' := by
  cases h with
  | returned hout => exact absurd rfl (hrun _)
  | start =>
    have hbehind : Behind hash prog shown point [] (load64 sys.kv.service.mem
        (headAddr sys.kv.bp)) := hshown.behind rfl hshown.shows.chain hpoint
    have hnil : walkedAt hash prog [] = [] := rfl
    have htracks := tracks_loop hbehind
    rw [hnil] at htracks
    exact ⟨_, Reader.step_running (dumpMachine_getHead sys.kv []), htracks⟩
  | @entry pc seen c call hpc hc hcall hknows =>
    have hp : 10 ≤ sys.progress c := (hshown.mem_iff c).mp (hc.subset (by simp))
    have hfilled := hheap.filled c call hcall
    have hentry := (hheap.owned.entry_ne c call hcall (by omega)).1
    have hread : ∀ pc' : DumpPc, pc' ≠ .getHead →
        pc'.Knows hash call (Behind hash prog shown point (seen ++ [c])) →
        Tracks hash prog shown point (.running pc' (walkedAt hash prog seen)) :=
      fun pc' hpc' hk => .entry hpc' hc hcall hk
    cases pc with
    | getHead => exact absurd rfl hpc
    | getData bep =>
      obtain rfl : bep = call.ans.entry := hknows
      exact ⟨_, Reader.step_go (dumpMachine_getData _ _ _), hread _ (by simp)
        ⟨rfl, hfilled.data (by omega)⟩⟩
    | getSize bep data =>
      obtain ⟨rfl, hdata⟩ := hknows
      exact ⟨_, Reader.step_go (dumpMachine_getSize _ _ _ _), hread _ (by simp)
        ⟨rfl, hdata, hfilled.size (by omega)⟩⟩
    | getKey bep data size =>
      obtain ⟨rfl, hdata, hsize⟩ := hknows
      exact ⟨_, Reader.step_go (dumpMachine_getKey _ _ _ _ _), hread _ (by simp)
        ⟨rfl, hdata, hsize, hfilled.key (by omega)⟩⟩
    | getNext bep data size key =>
      obtain ⟨rfl, hdata, hsize, hkey⟩ := hknows
      obtain ⟨rest, hrest⟩ := hc
      exact ⟨_, Reader.step_go (dumpMachine_getNext _ _ _ _ _ _), hread _ (by simp)
        ⟨rfl, hdata, hsize, hkey,
          hshown.behind hrest.symm (hshown.chain_behind hrest.symm hcall) hpoint⟩⟩
    | malloc bep data size key next =>
      obtain ⟨rfl, hdata, hsize, hkey, hlead⟩ := hknows
      have hroom : load64 sys.kv.service.mem (sizeAddr call.ans.entry) = size := by
        rw [hsize]
        exact hfilled.size (by omega)
      exact ⟨_, Reader.step_go (dumpMachine_malloc _ _ _ _ _ _ _ hentry), hread _ (by simp)
        ⟨hroom, hdata, hsize, hkey, hlead⟩⟩
    | load data size key next room =>
      obtain ⟨rfl, rfl, rfl, rfl, hlead⟩ := hknows
      have hload : sys.kv.service.loadAt call.ans.data call.value.length = some call.value := by
        rw [Service.loadAt_of_ne _ _ (hheap.owned.data_ne _ call hcall (by omega)).1]
        exact congrArg some (hfilled.bytes (by omega))
      refine ⟨_, Reader.step_running (dumpMachine_load _ _ _ _ _ _ (Nat.le_refl _) hload), ?_⟩
      rw [← walkedAt_snoc seen hcall]
      exact tracks_loop hlead

end

/-! ## Whole runs -/

section

variable {ι κ : Type} [DecidableEq ι] [DecidableEq κ] {hash : String → UInt64}
variable {prog : ι → List PutCall} {kv : Pmemkv} {fuel : Nat}

/-- As `Watched.Ok`, and no client reads what another one is about to replace. -/
def Watched.OkAlone (hash : String → UInt64) (prog : ι → List PutCall) (w : Watched ι κ) :
    ι ⊕ κ → Prop
  | .inl i => w.sys.OkAlone hash prog i
  | .inr r => w.Reading r

instance [Fintype ι] (w : Watched ι κ) (a : ι ⊕ κ) : Decidable (w.OkAlone hash prog a) :=
  match a with
  | .inl i => inferInstanceAs (Decidable (w.sys.OkAlone hash prog i))
  | .inr r => inferInstanceAs (Decidable (w.Reading r))

/-- At a step of the reader `r` in `sched`, a walk at once would have visited `out`: the calls that
had stored their link by then, each of them once. -/
def SeenAt (hash : String → UInt64) (prog : ι → List PutCall) (kv : Pmemkv) (fuel : Nat) (r : κ)
    (sched : List (ι ⊕ κ)) (out : Loaded) : Prop :=
  ∃ before after w shown, sched = before ++ .inr r :: after ∧
    run (Watched.step hash prog) (Watched.init kv) before = some w ∧
    w.sys.kv.dumpWalk fuel = some out ∧ out = walkedAt hash prog shown ∧ shown.Nodup ∧
    ∀ c, c ∈ shown ↔ 10 ≤ w.sys.progress c

theorem SeenAt.snoc {r : κ} {sched : List (ι ⊕ κ)} {out : Loaded}
    (h : SeenAt hash prog kv fuel r sched out) (a : ι ⊕ κ) :
    SeenAt hash prog kv fuel r (sched ++ [a]) out := by
  obtain ⟨before, after, w, shown, rfl, h⟩ := h
  exact ⟨before, after ++ [a], w, shown, by simp, h⟩

/-- The invariant; `done` are the steps so far. -/
structure SnapInv (hash : String → UInt64) (prog : ι → List PutCall) (kv : Pmemkv) (fuel : Nat)
    (done : List (ι ⊕ κ)) (w : Watched ι κ) (order linked shown : List (ι × Nat)) : Prop where
  reached : run (Watched.step hash prog) (Watched.init kv) done = some w
  inv : Inv hash prog w.sys order
  link : LinkInv hash prog w.sys linked
  shownBy : ShownBy w.sys linked shown
  length_le : shown.length ≤ done.length
  readers : ∀ r, Tracks hash prog shown (SeenAt hash prog kv fuel r done) (w.reader r)

theorem snapInv_init {s : Service} {root : Nat} (hroot : s.Grants sizeofBase root) :
    SnapInv hash prog (Pmemkv.create s root) fuel ([] : List (ι ⊕ κ))
      (Watched.init (Pmemkv.create s root)) [] [] [] where
  reached := rfl
  inv := inv_init hroot
  link := linkInv_init hroot
  shownBy := .inl ⟨fun i hi => by simp [Watched.init, System.init] at hi, rfl⟩
  length_le := Nat.le_refl _
  readers _ := .start

theorem SnapInv.step {done : List (ι ⊕ κ)} {w : Watched ι κ} {order linked shown : List (ι × Nat)}
    {a : ι ⊕ κ} (h : SnapInv hash prog kv fuel done w order linked shown)
    (hfuel : done.length ≤ fuel) (hok : w.OkAlone hash prog a) :
    ∃ w' order' linked' shown', w.step hash prog a = some w' ∧
      SnapInv hash prog kv fuel (done ++ [a]) w' order' linked' shown' := by
  have hreached : ∀ w', w.step hash prog a = some w' →
      run (Watched.step hash prog) (Watched.init kv) (done ++ [a]) = some w' := by
    intro w' hw'
    rw [run_append, h.reached, Option.bind_some, run_cons, hw', Option.bind_some, run_nil]
  have hlen := h.length_le
  cases a with
  | inl i =>
    obtain ⟨sys', order', linked', shown', hstep, hinv', hlink', hshown', hgrows⟩ :=
      h.shownBy.step h.inv h.link hok
    have hprefix : shown <+: shown' := by
      rcases hgrows with rfl | rfl
      · exact List.prefix_refl _
      · exact List.prefix_append _ _
    have hle : shown'.length ≤ shown.length + 1 := by
      rcases hgrows with rfl | rfl
      · exact Nat.le_succ _
      · rw [List.length_append]
        exact Nat.le_refl _
    have hw' : w.step hash prog (.inl i) = some { w with sys := sys' } := by
      rw [Watched.step, hstep, Option.map_some]
    refine ⟨_, order', linked', shown', hw', hreached _ hw', hinv', hlink', hshown', ?_,
      fun r => ?_⟩
    · rw [List.length_append, List.length_singleton]
      omega
    · exact (h.readers r).mono hprefix fun out hout => hout.snoc _
  | inr r =>
    have hshown := h.shownBy.toShown h.inv h.link
    have hmono : ∀ q, Tracks hash prog shown (SeenAt hash prog kv fuel q (done ++ [.inr r]))
        (w.reader q) := fun q =>
      (h.readers q).mono (List.prefix_refl _) fun out hout => hout.snoc _
    -- this step may turn out to be the one at which the reader saw the list
    have hpoint : SeenAt hash prog kv fuel r (done ++ [.inr r]) (walkedAt hash prog shown) :=
      ⟨done, [], w, shown, rfl, h.reached, hshown.dumpWalk (by omega), rfl, hshown.nodup,
        hshown.mem_iff⟩
    obtain ⟨rd, hstep, htracks⟩ := (hmono r).step hshown h.inv.heap hpoint hok
    have hw' : w.step hash prog (.inr r) =
        some { w with reader := Function.update w.reader r rd } := by
      rw [Watched.step, hstep, Option.map_some]
    refine ⟨_, order, linked, shown, hw', hreached _ hw', h.inv, h.link, h.shownBy, ?_, fun q => ?_⟩
    · rw [List.length_append, List.length_singleton]
      omega
    · by_cases hq : q = r
      · subst hq
        dsimp only
        rw [Function.update_self]
        exact htracks
      · dsimp only
        rw [Function.update_of_ne hq]
        exact hmono q

/-- For any clients, any calls, any readers and any interleaving in which no request fails and no
client reads a tail that another one is about to replace: what a reader has visited when it returns
is what a walk at one instant, at one of the reader's own steps, would have visited, and that are
exactly the puts that had stored their link by then. -/
theorem dump_linearised (hash : String → UInt64) (prog : ι → List PutCall) (s : Service)
    (root : Nat) (sched : List (ι ⊕ κ)) (fuel : Nat) (hroot : s.Grants sizeofBase root)
    (hok : Admissible (Watched.step hash prog) (Watched.OkAlone hash prog)
      (Watched.init (Pmemkv.create s root)) sched)
    (hfuel : sched.length ≤ fuel) :
    ∃ w, run (Watched.step hash prog) (Watched.init (Pmemkv.create s root)) sched = some w ∧
      ∀ r out, w.reader r = .returned out →
        SeenAt hash prog (Pmemkv.create s root) fuel r sched out := by
  have hstep : ∀ done a rest (w : Watched ι κ), sched = done ++ a :: rest →
      (∃ order linked shown,
        SnapInv hash prog (Pmemkv.create s root) fuel done w order linked shown) →
      w.OkAlone hash prog a → ∃ w', w.step hash prog a = some w' ∧
        ∃ order linked shown,
          SnapInv hash prog (Pmemkv.create s root) fuel (done ++ [a]) w' order linked shown := by
    rintro done a rest w hsched ⟨order, linked, shown, hinv⟩ ha
    have hlen : done.length ≤ fuel := by
      rw [hsched, List.length_append] at hfuel
      omega
    obtain ⟨w', order', linked', shown', hw', hinv'⟩ := hinv.step hlen ha
    exact ⟨w', hw', order', linked', shown', hinv'⟩
  obtain ⟨w, hrun, order, linked, shown, hinv⟩ :=
    run_invariant hstep ⟨[], [], [], snapInv_init hroot⟩ hok
  refine ⟨w, hrun, fun r out hout => ?_⟩
  have htracks := hinv.readers r
  rw [hout] at htracks
  cases htracks with
  | returned hseen => exact hseen

end

/-- The clients link one after the other; the reader starts when the first entry is linked and
goes on when the second one is. -/
def readInTurn : List (Bool ⊕ Unit) :=
  (inTurn.take 16).map .inl ++ List.replicate 3 (.inr ()) ++ (inTurn.drop 16).map .inl ++
    List.replicate 10 (.inr ())

theorem dump_linearised_sample :
    ∃ w, run (Watched.step sampleHash sampleProg)
        (Watched.init (Pmemkv.create sampleService 4096)) readInTurn = some w ∧
      w.reader () = .returned [((sampleHash "a").toNat, [1, 2]), ((sampleHash "b").toNat, [3])] ∧
      SeenAt sampleHash sampleProg (Pmemkv.create sampleService 4096) 40 () readInTurn
        [((sampleHash "a").toNat, [1, 2]), ((sampleHash "b").toNat, [3])] := by
  obtain ⟨w, hrun, hseen⟩ := dump_linearised sampleHash sampleProg sampleService 4096 readInTurn 40
    (by decide) (by decide) (by decide)
  have hout : (run (Watched.step sampleHash sampleProg)
      (Watched.init (Pmemkv.create sampleService 4096)) readInTurn).map (fun w => w.reader ()) =
      some (.returned [((sampleHash "a").toNat, [1, 2]), ((sampleHash "b").toNat, [3])]) := by
    decide
  rw [hrun, Option.map_some, Option.some.injEq] at hout
  exact ⟨w, hrun, hout, hseen () _ hout⟩

end SparkNvm.Native
