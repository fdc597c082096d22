import UDepot.PutFault
import UDepot.Capacity

/-! When a put that returns an error leaves the store as it was. The grains of the
record are given back on every path, so the counters can only grow: by a growth of the
directory, by a table that was not mapped, or by sizes that wrap. What is left is
`try_shift`, which moves entries before it is known that the put succeeds. -/

namespace UDepot
open Scan Option

namespace UDepotMap

variable {bits : Nat}

/-! ## Shifts that move nothing -/

/-- `try_shift(h)` moves no entry: no slot behind the window is free, or no entry in
front of the free one has room in its own window. -/
def shiftIdle (t : UDepotMap bits) (h : Nat) : Bool :=
  match t.shiftFree h with
  | none => true
  | some pFree => (List.range 31).all fun i => (t.nextFree (t.entryKeyfp (pFree - 31 + i))).isNone

variable {t : UDepotMap bits} {first pFree p : Nat}

theorem shiftLoop_idle (h : ∀ r, p ≤ r → r < pFree → t.nextFree (t.entryKeyfp r) = none) :
    t.shiftLoop first pFree p = (t, none) := by
  fun_induction shiftLoop t first pFree p with
  | case1 t pFree p hp t' hs hlt | case2 t pFree p hp t' hs hlt ih =>
    simp [tryShiftOne, h p le_rfl hp.2] at hs
  | case3 t pFree p hp hs ih => exact ih fun r h1 h2 => h r (by omega) h2
  | case4 t pFree p hp => rfl

theorem shiftLoop_live {q : Nat} (i : t.ShiftInv first pFree) (hq : q < first ∨ pFree ≤ q)
    (hl : (t.ht q).live = true) : ((t.shiftLoop first pFree p).1.ht q).live = true := by
  have hstep : ∀ {u : UDepotMap bits} {e r v : Nat}, u.ShiftInv first e → first ≤ r ∧ r < e →
      u.nextFree (u.entryKeyfp r) = some v → q < first ∨ e ≤ q → (u.ht q).live = true →
      ((u.displace r v).ht q).live = true := by
    intro u e r v iu hr hv hqe hlu
    obtain ⟨ht, hd, _⟩ := iu.step hr hv
    have hqv : q ≠ v := by
      rintro rfl
      simp [ht.not_live] at hlu
    rwa [hd.other q (by omega) hqv]
  fun_induction shiftLoop t first pFree p with
  | case1 t pFree p hp t' hs hlt =>
    obtain ⟨v, hv, rfl⟩ := map_eq_some_iff.mp hs
    exact hstep i hp hv hq hl
  | case2 t pFree p hp t' hs hlt ih =>
    obtain ⟨v, hv, rfl⟩ := map_eq_some_iff.mp hs
    exact ih (i.step hp hv).2.2 (by omega) (hstep i hp hv hq hl)
  | case3 t pFree p hp hs ih => exact ih i hq hl
  | case4 t pFree p hp => exact hl

theorem ShiftInv.takes {v : Nat} (i : t.ShiftInv first pFree) (hp : first ≤ p ∧ p < pFree)
    (hv : t.nextFree (t.entryKeyfp p) = some v) :
    v < entryNr bits ∧ (t.ht v).live = false ∧ (v < first ∨ pFree ≤ v) ∧
      ((t.displace p v).ht v).live = true := by
  obtain ⟨ht, hd, hi⟩ := i.step hp hv
  have hlive := i.full p hp.1 hp.2
  refine ⟨?_, ht.not_live, ?_, by rw [hd.moved_live, hlive]⟩
  · have hh := (i.wf.slot p hlive).home_lt
    have h2 := ht.lt_home
    unfold entryNr
    omega
  · by_contra hin
    have := i.full v (by omega) (by omega)
    simp [ht.not_live] at this

theorem shiftLoop_moves {r : Nat} (i : t.ShiftInv first pFree) (hf : first ≤ p)
    (hr : p ≤ r ∧ r < pFree) (hn : t.nextFree (t.entryKeyfp r) ≠ none) :
    ∃ v, v < entryNr bits ∧ (t.ht v).live = false ∧
      ((t.shiftLoop first pFree p).1.ht v).live = true := by
  fun_induction shiftLoop t first pFree p with
  | case1 t pFree p hp t' hs hlt =>
    obtain ⟨v, hv, rfl⟩ := map_eq_some_iff.mp hs
    obtain ⟨hlt, hold, -, hnew⟩ := i.takes hp hv
    exact ⟨v, hlt, hold, hnew⟩
  | case2 t pFree p hp t' hs hlt ih =>
    -- the slot stays live in the rounds that follow
    obtain ⟨v, hv, rfl⟩ := map_eq_some_iff.mp hs
    obtain ⟨hlt, hold, hout, hnew⟩ := i.takes hp hv
    exact ⟨v, hlt, hold, shiftLoop_live (i.step hp hv).2.2 (by omega) hnew⟩
  | case3 t pFree p hp hs ih =>
    have hne : p ≠ r := by
      rintro rfl
      exact hn (map_eq_none_iff.mp hs)
    exact ih i (by omega) (by omega) hn
  | case4 t pFree p hp => omega

theorem tryShift_idle {h : Nat} (hi : t.shiftIdle h = true) : t.tryShift h = (t, none) := by
  unfold shiftIdle at hi
  unfold tryShift
  cases hf : t.shiftFree h with
  | none => rfl
  | some pFree =>
    simp only [hf, List.all_eq_true, List.mem_range, isNone_iff_eq_none] at hi
    refine shiftLoop_idle fun r h1 h2 => ?_
    have := hi (r - (pFree - 31)) (by omega)
    rwa [Nat.add_sub_cancel' h1] at this

theorem tryShift_moves (w : t.Wf) {h : Nat} (hn : t.nextFree h = none)
    (hi : t.shiftIdle h = false) :
    ∃ v, v < entryNr bits ∧ (t.ht v).live = false ∧ ((t.tryShift h).1.ht v).live = true := by
  unfold shiftIdle at hi
  unfold tryShift
  cases hf : t.shiftFree h with
  | none => simp [hf] at hi
  | some pFree =>
    have hge := (findFrom_eq_some.mp hf).ge
    simp only [hf, List.all_eq_false, List.mem_range, isNone_iff_eq_none] at hi
    obtain ⟨x, hx, hne⟩ := hi
    exact shiftLoop_moves (shiftInv_start w hn hf) (by omega) ⟨by omega, by omega⟩ hne

theorem Wf.shiftFree_of_not_live (w : t.Wf) {q : Nat} (h : (t.ht q).live = false) :
    xor (!(t.ht q).used) (t.ht q).deleted = true := by
  have hclean := w.clean q
  cases hu : (t.ht q).used <;> cases hd : (t.ht q).deleted <;>
    simp [hu, hd, HashEntry.live] at h hclean ⊢

/-- A loop that gives up has tried every entry in front of the slot that is free then. -/
theorem shiftLoop_stuck {hi : Nat} (i : t.ShiftInv first pFree) (hge : first + 32 ≤ pFree)
    (hlt : pFree < hi) (hfree : (t.ht pFree).live = false)
    (htried : ∀ r, pFree - 31 ≤ r → r < p → t.nextFree (t.entryKeyfp r) = none)
    (hp : pFree - 31 ≤ p) (hnone : (t.shiftLoop first pFree p).2 = none) :
    ∃ e, FirstIn (fun q => xor (!((t.shiftLoop first pFree p).1.ht q).used)
        ((t.shiftLoop first pFree p).1.ht q).deleted) (first + 32) hi e ∧
      ∀ r, e - 31 ≤ r → r < e → (t.shiftLoop first pFree p).1.nextFree
        ((t.shiftLoop first pFree p).1.entryKeyfp r) = none := by
  fun_induction shiftLoop t first pFree p with
  | case1 => cases hnone
  | case2 t pFree p hp' t' hs hfar ih =>
    obtain ⟨v, hv, rfl⟩ := map_eq_some_iff.mp hs
    obtain ⟨ht, hd, hi'⟩ := i.step hp' hv
    refine ih hi' (by omega) (by omega) ?_ (fun r h1 h2 => by omega) (by omega) hnone
    rw [hd.left_live, ht.not_live]
  | case3 t pFree p hp' hs ih =>
    refine ih i hge hlt hfree (fun r h1 h2 => ?_) (by omega) hnone
    rcases Nat.lt_succ_iff_lt_or_eq.mp h2 with h2 | rfl
    · exact htried r h1 h2
    · exact map_eq_none_iff.mp hs
  | case4 t pFree p hp' =>
    refine ⟨pFree, ⟨hge, hlt, i.wf.shiftFree_of_not_live hfree, fun r h1 h2 => ?_⟩,
      fun r h1 h2 => htried r h1 (by omega)⟩
    have hr := (HashEntry.live_iff _).mp (i.full r (by omega) h2)
    simp [hr]

theorem tryShift_stuck (w : t.Wf) {h : Nat} (hn : t.nextFree h = none)
    (hs : (t.tryShift h).2 = none) : (t.tryShift h).1.shiftIdle h = true := by
  cases hf : t.shiftFree h with
  | none =>
    unfold tryShift shiftIdle
    simp only [hf]
  | some pFree =>
    have hfirst := findFrom_eq_some.mp hf
    have hfree : (t.ht pFree).live = false := by
      have hhit := hfirst.hit
      cases hu : (t.ht pFree).used <;> cases hd : (t.ht pFree).deleted <;>
        simp [hu, hd, HashEntry.live] at hhit ⊢
    have hshift : t.tryShift h = t.shiftLoop (hashToHb32 bits h) pFree (pFree - 31) := by
      unfold tryShift
      rw [hf]
    rw [hshift] at hs ⊢
    obtain ⟨e, hfst, htried⟩ := shiftLoop_stuck (shiftInv_start w hn hf) hfirst.ge hfirst.lt hfree
      (fun r h1 h2 => by omega) le_rfl hs
    unfold shiftIdle shiftFree
    dsimp only
    rw [findFrom_eq_some.mpr hfst]
    simp only [List.all_eq_true, List.mem_range, isNone_iff_eq_none]
    intro x hx
    have := hfst.ge
    exact htried _ (by omega) (by omega)

end UDepotMap

namespace Store
open Bytes UDepotMap Directory Config Ledger

variable {c : Config}

/-! ## What a failed put may not change -/

/-- The grains of a segment that hold data: a free segment has none, and `valid_nr`
counts the grains that an open one has still to hand out. -/
def validGrains (s : Store c) (i : Nat) : Int :=
  if (s.seg i).state = .free then 0 else (s.seg i).validNr - s.openGrains i

/-- The live entries and tombstones of the map, with the table and slot of each. -/
def mapEntries (s : Store c) : Set (Nat × Nat × HashEntry) :=
  {x | x.1 < 2 ^ s.dir.idxBits ∧ x.2.1 < entryNr c.bits ∧ (s.dir.map x.1).ht x.2.1 = x.2.2 ∧
    x.2.2.used = true}

structure NoEffect (s s' : Store c) : Prop where
  visible : ∀ k v, s'.get k = .ok v ↔ s.get k = .ok v
  entries : s'.mapEntries = s.mapEntries
  valid : ∀ i, s'.validGrains i = s.validGrains i
  used : s'.usedCapacity = s.usedCapacity

structure Untouched (s s' : Store c) : Prop where
  frame : Frame s s'
  tables : s'.tables = s.tables
  used : s'.usedCapacity = s.usedCapacity
  books : Books True s 0 s' 0

namespace Untouched

variable {s : Store c}

theorem refl (base : s.Base) : Untouched s s :=
  ⟨(Quiet.refl base).frame, rfl, rfl, Moves.refl s 0⟩

theorem trans {s1 s2 : Store c} (h : Untouched s s1) (h' : Untouched s1 s2) : Untouched s s2 :=
  ⟨h.frame.trans h'.frame, h'.tables.trans h.tables, h'.used.trans h.used,
    (h.books.trans h'.books).mono fun _ => ⟨trivial, trivial⟩⟩

theorem tablesOk {s' : Store c} (h : Untouched s s') (ht : s.TablesOk) : s'.TablesOk := by
  unfold TablesOk
  rw [h.tables, h.frame.dir]
  exact ht

end Untouched

variable {s s' : Store c} {k v : List UInt8} {g p i : Nat} {op : PutOp} {e : Errno}
  {reads : List (Option ReadErr)}

theorem Counts.validGrains {Q : Multiset (Nat × Nat)} (h : s.Counts Q) (i : Nat) :
    s.validGrains i = chargeAt c.grainToSegIdx Q i := by
  unfold Store.validGrains
  by_cases hf : (s.seg i).state = .free
  · rw [if_pos hf, (h.free i hf).2]
    rfl
  · rw [if_neg hf, h.valid i hf]
    omega

theorem Untouched.noEffect (h : Untouched s s') (hs : s.Formed) : NoEffect s s' := by
  obtain ⟨F, hF⟩ := hs.counted
  obtain ⟨L, hL, hz⟩ := h.books F (by rwa [add_zero])
  obtain rfl := hz trivial
  rw [add_zero, add_zero, charges_congr h.frame h.tables] at hL
  refine ⟨fun k v => ?_, ?_, fun i => ?_, h.used⟩
  · rw [get_ok_iff (h.frame.inv hs.toInv), get_ok_iff hs.toInv, h.frame.dir]
    refine exists_congr fun e => and_congr_right fun he => ?_
    have hm := Multiset.mem_of_mem_filter he
    rw [h.frame.key e hm, h.frame.val e hm]
  · unfold mapEntries
    rw [h.frame.dir]
  · rw [hL.validGrains, hF.validGrains]

/-- A slot without a live entry has one in `d'`. -/
def Moved (d d' : Directory c.bits) : Prop :=
  d'.idxBits = d.idxBits ∧ ∃ i q, i < 2 ^ d.idxBits ∧ q < entryNr c.bits ∧
    ((d.map i).ht q).live = false ∧ ((d'.map i).ht q).live = true

/-- The two ways in which a failed put shows. -/
def Disturbed (s s' : Store c) : Prop :=
  s.usedCapacity < s'.usedCapacity ∨ Moved s.dir s'.dir

theorem Untouched.disturbed {s1 : Store c} (hu : Untouched s s1) (hd : Disturbed s1 s') :
    Disturbed s s' := by
  unfold Disturbed at hd ⊢
  rwa [hu.used, hu.frame.dir] at hd

theorem Disturbed.not_noEffect (h : Disturbed s s') : ¬ NoEffect s s' := by
  intro hn
  rcases h with hlt | ⟨hb, i, q, hi, hq, hold, hnew⟩
  · rw [hn.used] at hlt
    exact lt_irrefl _ hlt
  · have hmem : (i, q, (s'.dir.map i).ht q) ∈ s'.mapEntries :=
      ⟨by rwa [hb], hq, rfl, ((HashEntry.live_iff _).mp hnew).1⟩
    rw [hn.entries] at hmem
    rw [hmem.2.2.1, hnew] at hold
    cases hold

/-! ## Steps that touch nothing -/

theorem grow_untouched (base : s.Base) {allocs : List TableAlloc} (h : s.grown allocs = false)
    (hm : s.mmapLeaks (2 ^ (s.dir.idxBits + 1)) allocs = false) :
    Untouched s (s.grow allocs).1 := by
  obtain ⟨hu, _, ht, hs⟩ := grow_kept_dir h
  have hq := allocateTables_quiet base (2 ^ (s.dir.idxBits + 1)) allocs
  have hb := allocateTables_books base (2 ^ (s.dir.idxBits + 1)) allocs
  rw [hs] at hu ht ⊢
  refine ⟨(hq.trans (invalidateTables_quiet (hq.frame.base base) _)).frame, ht, ?_,
    (hb.trans (invalidateTables_books _ _)).mono fun _ => ⟨hm, trivial⟩⟩
  rw [hu, hm]
  simp

theorem grow_allocated (allocs : List TableAlloc) (h : (s.grow allocs).2 = true) :
    s.mmapLeaks (2 ^ (s.dir.idxBits + 1)) allocs = false := by
  refine (allocateTables_done ?_).2
  unfold grow at h
  generalize s.allocateTables (2 ^ (s.dir.idxBits + 1)) allocs = x at h ⊢
  obtain ⟨gs, s1, ok⟩ := x
  cases ok with
  | false => cases h
  | true => rfl

theorem grown_of_grow (allocs : List TableAlloc) (h : (s.grow allocs).2 = false) :
    s.grown allocs = false := by
  unfold grow at h
  unfold grown
  generalize s.allocateTables (2 ^ (s.dir.idxBits + 1)) allocs = x at h ⊢
  obtain ⟨gs, s1, ok⟩ := x
  cases ok with
  | false => rfl
  | true => cases hg : s.dir.grow <;> simp [hg] at h

/-! ## The condition -/

/-- The lookup of a put ends, and the window of the key has no room. -/
def NoRoom (s : Store c) (k : List UInt8) (reads : List (Option ReadErr)) : Prop :=
  s.putLookupFault k reads = none ∧ s.lookupMbuffPut k = .enospc

/-- A growth that leaves no new directory and gives its tables back. -/
def GrowKeeps (s : Store c) (allocs : List TableAlloc) : Prop :=
  s.grown allocs = false ∧ s.mmapLeaks (2 ^ (s.dir.idxBits + 1)) allocs = false

/-- In no round is an entry moved or the directory grown; after a copy that failed there is
another round. -/
def MapKeeps (s : Store c) (k : List UInt8) : List MapRound → Prop
  | [] => s.NoRoom k [] → (s.table (c.hash k)).shiftIdle (c.hash k) = true
  | r :: rest =>
    (s.NoRoom k r.reads →
      (s.table (c.hash k)).shiftIdle (c.hash k) = true ∧ s.GrowKeeps r.allocs ∧
        ((s.grow r.allocs).2 = true → MapKeeps (s.grow r.allocs).1 k rest)) ∧
    ((∃ e, s.putLookupFault k r.reads = some e ∧ e.err = .eagain) → MapKeeps s k rest)

/-- The condition on the state before each step of a put: the sizes do not wrap, so that
as many grains are given back as were taken, and the map is kept. -/
def PutKeeps (s : Store c) (k v : List UInt8) (op : PutOp) : List PutRound → Prop
  | [] => True
  | a :: rest =>
    match a.io with
    | .notAllocated e => e = .eagain → PutKeeps s k v op rest
    | .failed i bs e =>
      ∀ s1, s.ioFail i (c.ioSizeGrains k v) bs = some s1 → e = .eagain → PutKeeps s1 k v op rest
    | .written i =>
      ∀ g s1, s.localPutMbuffIo i k v = some (g, s1) →
        c.ioSizeGrains k v = c.kvTotGrainsGet k.length v.length ∧ s1.MapKeeps k a.maps ∧
        ∀ s2 oldPba, s1.putMapFault k v g op a.maps = (s2, .err .ealready, oldPba) →
          PutKeeps (s2.putRetry k v g oldPba a.drained) k v op rest

/-! ## The map -/

/-- The table of `h` after its `try_shift`. -/
def shifted (s : Store c) (h : Nat) : Store c := s.setTable h ((s.table h).tryShift h).1

theorem shifted_idle {h : Nat} (hi : (s.table h).shiftIdle h = true) : s.shifted h = s := by
  unfold shifted setTable
  rw [tryShift_idle hi]
  change { s with dir := s.dir.setMap _ (s.dir.map _) } = s
  rw [setMap_map]

theorem shifted_moved (inv : s.Inv) (hl : s.lookupMbuffPut k = .enospc)
    (hi : (s.table (c.hash k)).shiftIdle (c.hash k) = false) :
    Moved s.dir (s.shifted (c.hash k)).dir := by
  have hmeans := lookupMbuffPut_means inv k
  rw [hl] at hmeans
  obtain ⟨v, hv, hold, hnew⟩ := tryShift_moves (table_wf inv.toBase _) hmeans.1 hi
  refine ⟨rfl, hashToDirIdx c.bits (c.hash k) s.dir.idxBits, v, table_lt inv.toBase _, hv, hold, ?_⟩
  change (((s.dir.setMap _ _).map _).ht v).live = true
  rw [setMap_self]
  exact hnew

theorem localPutMbuff_failed (hr : (s.localPutMbuff k v g op).2.ret = (.err e, p)) :
    (s.lookupMbuffPut k ≠ .enospc ∧ (s.localPutMbuff k v g op).1 = s ∧
      (e = .einval ∨ e = .ealready)) ∨
    (s.lookupMbuffPut k = .enospc ∧ (s.localPutMbuff k v g op).1 = s.shifted (c.hash k) ∧
      (e = .enospc ∧ ((s.table (c.hash k)).tryShift (c.hash k)).2 = none ∨
        e = .einval ∧ ((s.table (c.hash k)).tryShift (c.hash k)).2 ≠ none)) := by
  revert hr
  fun_cases localPutMbuff s k v g op with
  | case1 q hl | case3 q md hl =>
    rintro ⟨⟩
    exact .inl ⟨by simp [hl], rfl, .inl rfl⟩
  | case5 h q md hl =>
    rintro ⟨⟩
    exact .inl ⟨by simp [hl], rfl, .inr rfl⟩
  | case6 h hl t ht =>
    rintro ⟨⟩
    exact .inr ⟨hl, by rw [shifted, ht], .inl ⟨rfl, by rw [ht]⟩⟩
  | case7 h hl t q ht =>
    rintro ⟨⟩
    exact .inr ⟨hl, by rw [shifted, ht], .inr ⟨rfl, by rw [ht]; simp⟩⟩
  | _ => rintro ⟨⟩

theorem localPutMbuffFault_read {x : ReadErr} (hf : s.putLookupFault k reads = some x)
    (h : s.localPutMbuffFault k v g op reads = (s', .err e, p)) :
    s' = s ∧ e ≠ .enospc ∧ (e = .eagain ↔ x.err = .eagain) := by
  unfold localPutMbuffFault at h
  simp only [hf] at h
  split at h
  · rename_i hx
    split at h <;> cases h
    rw [hx]
    exact ⟨rfl, by decide, by decide⟩
  · split at h
    · rename_i hx
      split at h <;> cases h
      rw [hx]
      exact ⟨rfl, by decide, by decide⟩
    · cases h
      exact ⟨rfl, x.ne_enospc, Iff.rfl⟩

theorem localPutMbuffFault_cases (h : s.localPutMbuffFault k v g op reads = (s', .err e, p)) :
    (s' = s ∧ ¬ s.NoRoom k reads ∧ e ≠ .enospc ∧
      (e = .eagain ↔ ∃ x, s.putLookupFault k reads = some x ∧ x.err = .eagain)) ∨
    (s' = s.shifted (c.hash k) ∧ s.NoRoom k reads ∧
      (e = .enospc ∧ ((s.table (c.hash k)).tryShift (c.hash k)).2 = none ∨
        e = .einval ∧ ((s.table (c.hash k)).tryShift (c.hash k)).2 ≠ none)) := by
  cases hf : s.putLookupFault k reads with
  | some x =>
    obtain ⟨hs, hne, hag⟩ := localPutMbuffFault_read hf h
    refine .inl ⟨hs, fun hn => by simp [hn.1] at hf, hne, ?_⟩
    simp [hag]
  | none =>
    simp only [localPutMbuffFault, hf, Prod.mk.injEq] at h
    obtain ⟨hs, hr⟩ := h
    rcases localPutMbuff_failed hr with ⟨hl, hsame, he⟩ | ⟨hl, hsh, he⟩
    · refine .inl ⟨hs.symm.trans hsame, fun hn => hl hn.2, ?_⟩
      rcases he with rfl | rfl <;> exact ⟨by decide, by simp; decide⟩
    · exact .inr ⟨hs.symm.trans hsh, ⟨hf, hl⟩, he⟩

theorem localPutMbuffFault_used (ht : s.TablesOk)
    (h : s.localPutMbuffFault k v g op reads = (s', .err e, p)) :
    s'.usedCapacity = s.usedCapacity ∧ s'.TablesOk := by
  rcases localPutMbuffFault_cases h with ⟨rfl, _⟩ | ⟨rfl, _⟩
  · exact ⟨rfl, ht⟩
  · exact ⟨rfl, ht⟩

theorem grow_used_le (s : Store c) (ht : s.TablesOk) (allocs : List TableAlloc) :
    s.usedCapacity ≤ (s.grow allocs).1.usedCapacity := by
  cases hg : s.grown allocs with
  | true => exact (grow_used_lt ht hg).1.le
  | false =>
    have hu := (grow_kept_dir hg).1
    split at hu <;> omega

theorem putMapFault_used (ht : s.TablesOk) {rs : List MapRound}
    (h : s.putMapFault k v g op rs = (s', .err e, p)) :
    s.usedCapacity ≤ s'.usedCapacity ∧ s'.TablesOk := by
  fun_induction putMapFault s k v g op rs with
  | case1 s =>
    obtain ⟨hu, ht'⟩ := localPutMbuffFault_used ht h
    exact ⟨hu.ge, ht'⟩
  | case2 s r rest s1 p1 s2 hg hl ih =>
    obtain ⟨hu1, ht1⟩ := localPutMbuffFault_used ht hl
    have hle1 := grow_used_le s1 ht1 r.allocs
    have ht2 := grow_tablesOk ht1 r.allocs
    rw [hg] at hle1 ht2
    obtain ⟨hle, ht'⟩ := ih ht2 h
    exact ⟨hu1.ge.trans (hle1.trans hle), ht'⟩
  | case3 s r rest s1 p1 s2 hg hl =>
    cases h
    obtain ⟨hu1, ht1⟩ := localPutMbuffFault_used ht hl
    have hle1 := grow_used_le s1 ht1 r.allocs
    have ht2 := grow_tablesOk ht1 r.allocs
    rw [hg] at hle1 ht2
    exact ⟨hu1.ge.trans hle1, ht2⟩
  | case4 s r rest s1 p1 hl _ ih =>
    obtain ⟨hu1, ht1⟩ := localPutMbuffFault_used ht hl
    exact hu1 ▸ ih ht1 h
  | case5 s r rest s1 e1 p1 hl =>
    cases h
    obtain ⟨hu1, ht1⟩ := localPutMbuffFault_used ht hl
    exact ⟨hu1.ge, ht1⟩
  | case6 s r rest hno => exact absurd h (hno s' e p)

/-- What a failed put leaves where no entry of the table can be moved. -/
def Stays (s s' : Store c) : Prop :=
  s.usedCapacity < s'.usedCapacity ∨ (s'.usedCapacity = s.usedCapacity ∧ s'.dir = s.dir)

theorem table_congr (h : s'.dir = s.dir) (x : Nat) : s'.table x = s.table x := by
  unfold table
  rw [h]

theorem localPutMbuffFault_idle (hi : (s.table (c.hash k)).shiftIdle (c.hash k) = true)
    (h : s.localPutMbuffFault k v g op reads = (s', .err e, p)) : s' = s := by
  rcases localPutMbuffFault_cases h with ⟨rfl, _⟩ | ⟨rfl, _⟩
  · rfl
  · exact shifted_idle hi

theorem grow_stays (ht : s.TablesOk) (allocs : List TableAlloc) : Stays s (s.grow allocs).1 := by
  cases hg : s.grown allocs with
  | true => exact .inl (grow_used_lt ht hg).1
  | false =>
    obtain ⟨hu, hd, _⟩ := grow_kept_dir hg
    have htg := tableGrains_pos c
    split at hu
    · exact .inl (by omega)
    · exact .inr ⟨by omega, hd⟩

theorem putMapFault_idle (ht : s.TablesOk)
    (hi : (s.table (c.hash k)).shiftIdle (c.hash k) = true) {rs : List MapRound}
    (h : s.putMapFault k v g op rs = (s', .err e, p)) : Stays s s' := by
  fun_induction putMapFault s k v g op rs with
  | case1 s => exact .inr ⟨by rw [localPutMbuffFault_idle hi h],
      by rw [localPutMbuffFault_idle hi h]⟩
  | case2 s r rest s1 p1 s2 hg hl ih =>
    obtain rfl := localPutMbuffFault_idle hi hl
    have hstay := grow_stays ht r.allocs
    have ht2 := grow_tablesOk ht r.allocs
    rw [hg] at hstay ht2
    rcases hstay with hlt | ⟨hu, hd⟩
    · exact .inl (lt_of_lt_of_le hlt (putMapFault_used ht2 h).1)
    · have hrest := ih ht2 (by rwa [table_congr hd]) h
      rwa [Stays, hu, hd] at hrest
  | case3 s r rest s1 p1 s2 hg hl =>
    cases h
    obtain rfl := localPutMbuffFault_idle hi hl
    have hstay := grow_stays ht r.allocs
    rwa [hg] at hstay
  | case4 s r rest s1 p1 hl _ ih =>
    obtain rfl := localPutMbuffFault_idle hi hl
    exact ih ht hi h
  | case5 s r rest s1 e1 p1 hl =>
    cases h
    obtain rfl := localPutMbuffFault_idle hi hl
    exact .inr ⟨rfl, rfl⟩
  | case6 s r rest hno => exact absurd h (hno s' e p)

/-- A put that moves an entry or grows the directory shows, whatever comes after: once `try_shift`
has given up, it has nothing left to move. -/
def MapDisturbed (s s' : Store c) (k : List UInt8) (e : Errno) : Prop :=
  s.usedCapacity < s'.usedCapacity ∨
    (s'.usedCapacity = s.usedCapacity ∧ Moved s.dir s'.dir ∧
      (e = .ealready → (s'.table (c.hash k)).shiftIdle (c.hash k) = true))

theorem shiftIdle_of_slot {t : UDepotMap c.bits} {h : Nat} (hs : (t.tryShift h).2 ≠ none) :
    t.shiftIdle h = false := by
  by_contra hi
  rw [tryShift_idle (by simpa using hi)] at hs
  exact hs rfl

theorem shifted_stuck (inv : s.Inv) (hl : s.lookupMbuffPut k = .enospc)
    (hs : ((s.table (c.hash k)).tryShift (c.hash k)).2 = none) :
    ((s.shifted (c.hash k)).table (c.hash k)).shiftIdle (c.hash k) = true := by
  have hmeans := lookupMbuffPut_means inv k
  rw [hl] at hmeans
  unfold shifted
  rw [setTable_table]
  exact tryShift_stuck (table_wf inv.toBase _) hmeans.1 hs

/-- After a shift that moved entries and gave up. -/
theorem MapDisturbed.of_stays (inv : s.Inv) (hl : s.lookupMbuffPut k = .enospc)
    (hi : (s.table (c.hash k)).shiftIdle (c.hash k) = false)
    (hs : ((s.table (c.hash k)).tryShift (c.hash k)).2 = none)
    (h : Stays (s.shifted (c.hash k)) s') : MapDisturbed s s' k e := by
  rcases h with hlt | ⟨hu, hd⟩
  · exact .inl hlt
  · have hmoved := shifted_moved inv hl hi
    rw [← hd] at hmoved
    exact .inr ⟨hu, hmoved, fun _ => by rw [table_congr hd]; exact shifted_stuck inv hl hs⟩

theorem putMapFault_cases (inv : s.Inv) (ht : s.TablesOk) {rs : List MapRound}
    (h : s.putMapFault k v g op rs = (s', .err e, p)) :
    (s.MapKeeps k rs ∧ Untouched s s') ∨ (¬ s.MapKeeps k rs ∧ MapDisturbed s s' k e) := by
  fun_induction putMapFault s k v g op rs with
  | case1 s =>
    rcases localPutMbuffFault_cases h with ⟨rfl, hno, _⟩ | ⟨rfl, hno, he⟩
    · exact .inl ⟨fun hn => absurd hn hno, .refl inv.toBase⟩
    · cases hi : (s.table (c.hash k)).shiftIdle (c.hash k) with
      | true =>
        rw [shifted_idle hi]
        exact .inl ⟨fun _ => hi, .refl inv.toBase⟩
      | false =>
        refine .inr ⟨fun hk => by simp [hk hno] at hi, .inr ⟨rfl, shifted_moved inv hno.2 hi, ?_⟩⟩
        rcases he with ⟨rfl, _⟩ | ⟨rfl, _⟩ <;> exact fun hx => absurd hx (by decide)
  | case2 s r rest s1 p1 s2 hg hl ih =>
    rcases localPutMbuffFault_cases hl with ⟨_, _, hns, _⟩ | ⟨rfl, hno, ⟨_, hslot⟩ | ⟨hx, _⟩⟩
    · exact absurd rfl hns
    · have hs2 : ((s.shifted (c.hash k)).grow r.allocs).1 = s2 := by rw [hg]
      have hstay := grow_stays (s := s.shifted (c.hash k)) ht r.allocs
      have ht2 := grow_tablesOk (s := s.shifted (c.hash k)) ht r.allocs
      rw [hs2] at hstay ht2
      cases hi : (s.table (c.hash k)).shiftIdle (c.hash k) with
      | false =>
        refine .inr ⟨fun hkeep => by simp [(hkeep.1 hno).1] at hi, .of_stays inv hno.2 hi hslot ?_⟩
        rcases hstay with hlt | ⟨hu, hd⟩
        · exact .inl (lt_of_lt_of_le hlt (putMapFault_used ht2 h).1)
        · have hrest := putMapFault_idle ht2
            (by rw [table_congr hd]; exact shifted_stuck inv hno.2 hslot) h
          rwa [Stays, hu, hd] at hrest
      | true =>
        rw [shifted_idle hi] at hg hs2
        cases hgr : s.grown r.allocs with
        | true =>
          have hlt := (grow_used_lt ht hgr).1
          rw [hs2] at hlt
          refine .inr ⟨fun hkeep => ?_, .inl (lt_of_lt_of_le hlt (putMapFault_used ht2 h).1)⟩
          simp [(hkeep.1 hno).2.1.1] at hgr
        | false =>
          -- the copy has failed, and the next round decides
          have hm := grow_allocated (s := s) r.allocs (by rw [hg])
          have hu := grow_untouched inv.toBase hgr hm
          rw [hs2] at hu
          rcases ih (hu.frame.inv inv) ht2 h with ⟨hk, hu'⟩ | ⟨hk, hd⟩
          · refine .inl ⟨⟨fun _ => ⟨hi, ⟨hgr, hm⟩, fun _ => by rwa [hs2]⟩, ?_⟩, hu.trans hu'⟩
            rintro ⟨x, hx, _⟩
            simp [hno.1] at hx
          · refine .inr ⟨fun hkeep => hk ?_, ?_⟩
            · rw [← hs2]
              exact (hkeep.1 hno).2.2 (by rw [hg])
            · rwa [MapDisturbed, hu.used, hu.frame.dir] at hd
    · exact absurd hx (by decide)
  | case3 s r rest s1 p1 s2 hg hl =>
    cases h
    rcases localPutMbuffFault_cases hl with ⟨_, _, hns, _⟩ | ⟨rfl, hno, ⟨_, hslot⟩ | ⟨hx, _⟩⟩
    · exact absurd rfl hns
    · cases hi : (s.table (c.hash k)).shiftIdle (c.hash k) with
      | false =>
        have hstay := grow_stays (s := s.shifted (c.hash k)) ht r.allocs
        rw [hg] at hstay
        exact .inr ⟨fun hkeep => by simp [(hkeep.1 hno).1] at hi,
          .of_stays inv hno.2 hi hslot hstay⟩
      | true =>
        rw [shifted_idle hi] at hg
        have hgr := grown_of_grow (s := s) r.allocs (by rw [hg])
        have hu := (grow_kept_dir hgr).1
        have htg := tableGrains_pos c
        cases hm : s.mmapLeaks (2 ^ (s.dir.idxBits + 1)) r.allocs with
        | true =>
          refine .inr ⟨fun hkeep => by simp [(hkeep.1 hno).2.1.2] at hm, .inl ?_⟩
          rw [hg, if_pos hm] at hu
          dsimp only at hu
          omega
        | false =>
          have hun := grow_untouched inv.toBase hgr hm
          rw [hg] at hun
          refine .inl ⟨⟨fun _ => ⟨hi, ⟨hgr, hm⟩, fun hx => by rw [hg] at hx; cases hx⟩, ?_⟩, hun⟩
          rintro ⟨x, hx, _⟩
          simp [hno.1] at hx
    · exact absurd hx (by decide)
  | case4 s r rest s1 p1 hl _ ih =>
    -- the map is as before, and the next round decides
    rcases localPutMbuffFault_cases hl with ⟨rfl, hno, _, hag⟩ | ⟨_, _, he⟩
    · rcases ih inv ht h with ⟨hk, hu⟩ | ⟨hk, hd⟩
      · exact .inl ⟨⟨fun hn => absurd hn hno, fun _ => hk⟩, hu⟩
      · exact .inr ⟨fun hkeep => hk (hkeep.2 (hag.mp rfl)), hd⟩
    · rcases he with ⟨he, _⟩ | ⟨he, _⟩ <;> exact absurd he (by decide)
  | case5 s r rest s1 e1 p1 hl hns hna =>
    cases h
    rcases localPutMbuffFault_cases hl with ⟨rfl, hno, _, hag⟩ | ⟨rfl, hno, ⟨he, _⟩ | ⟨rfl, hslot⟩⟩
    · exact .inl ⟨⟨fun hn => absurd hn hno, fun hx => absurd (hag.mpr hx) hna⟩, .refl inv.toBase⟩
    · exact absurd he hns
    · have hi := shiftIdle_of_slot hslot
      exact .inr ⟨fun hkeep => by simp [(hkeep.1 hno).1] at hi,
        .inr ⟨rfl, shifted_moved inv hno.2 hi, fun hx => absurd hx (by decide)⟩⟩
  | case6 s r rest hno => exact absurd h (hno s' e p)

/-! ## The put -/

theorem ioFail_untouched (base : s.Base) {len : Nat} {bs : List UInt8}
    (h : s.ioFail i len bs = some s') : Untouched s s' := by
  obtain ⟨hu, htab, _⟩ := ioFail_used h
  exact ⟨ioFail_frame base h, htab, hu, ioFail_books base h⟩

theorem putMapFault_written {s1 s2 : Store c} {rs : List MapRound} (ht : s.TablesOk)
    (hw : s.localPutMbuffIo i k v = some (g, s1))
    (hm : s1.putMapFault k v g op rs = (s2, .err e, p)) :
    s1.TablesOk ∧ s2.TablesOk ∧ s.usedCapacity + c.ioSizeGrains k v ≤ s2.usedCapacity := by
  obtain ⟨hu1, htab1, hd1⟩ := localPutMbuffIo_used hw
  have ht1 : s1.TablesOk := by
    rw [TablesOk, htab1, hd1]
    exact ht
  obtain ⟨hle, ht2⟩ := putMapFault_used ht1 hm
  exact ⟨ht1, ht2, hu1 ▸ hle⟩

theorem putRetry_tablesOk (ht : s.TablesOk) (g oldPba drained : Nat) :
    (s.putRetry k v g oldPba drained).TablesOk := by
  obtain ⟨_, htab, hd⟩ := putRetry_used s k v g oldPba drained
  rw [TablesOk, htab, hd]
  exact ht

theorem putFault_used (ht : s.TablesOk) {as : List PutRound}
    (h : s.putFault k v op as = (s', .err e)) : s.usedCapacity ≤ s'.usedCapacity := by
  fun_induction putFault s k v op as with
  | case1 | case3 | case4 | case7 =>
    cases h
    exact le_rfl
  | case2 s a rest hio ih => exact ih ht h
  | case5 s a rest i bs s1 hf hio ih =>
    obtain ⟨hu, htab, hd⟩ := ioFail_used hf
    exact hu.ge.trans (ih (by rw [TablesOk, htab, hd]; exact ht) h)
  | case6 s a rest i bs e' hio s1 hf =>
    cases h
    exact (ioFail_used hf).1.ge
  | case8 s a rest i hio g s1 hw s2 oldPba hm ih =>
    obtain ⟨_, ht2, hle⟩ := putMapFault_written ht hw hm
    have := ih (putRetry_tablesOk ht2 g oldPba a.drained) h
    have hu3 := (putRetry_used s2 k v g oldPba a.drained).1
    have hkv := kvTotGrainsGet_le (c := c) k v
    omega
  | case9 s a rest i hio g s1 hw s2 e2 oldPba hm =>
    cases h
    obtain ⟨_, _, hle⟩ := putMapFault_written ht hw hm
    have hkv := kvTotGrainsGet_le (c := c) k v
    simp only [invalidateGrains]
    omega
  | case10 s a rest i hio g s1 hw s2 r p hne =>
    cases h
    exact absurd rfl (hne e)

theorem putFault_idle (ht : s.TablesOk)
    (hi : (s.table (c.hash k)).shiftIdle (c.hash k) = true) {as : List PutRound}
    (h : s.putFault k v op as = (s', .err e)) : Stays s s' := by
  have hkv := kvTotGrainsGet_le (c := c) k v
  fun_induction putFault s k v op as with
  | case1 | case3 | case4 | case7 =>
    cases h
    exact .inr ⟨rfl, rfl⟩
  | case2 s a rest hio ih => exact ih ht hi h
  | case5 s a rest i bs s1 hf hio ih =>
    obtain ⟨hu, htab, hd⟩ := ioFail_used hf
    have hrest := ih (by rw [TablesOk, htab, hd]; exact ht) (by rwa [table_congr hd]) h
    rwa [Stays, hu, hd] at hrest
  | case6 s a rest i bs e' hio s1 hf =>
    cases h
    obtain ⟨hu, _, hd⟩ := ioFail_used hf
    exact .inr ⟨hu, hd⟩
  | case8 s a rest i hio g s1 hw s2 oldPba hm ih =>
    obtain ⟨ht1, ht2, hle⟩ := putMapFault_written ht hw hm
    obtain ⟨hu1, _, hd1⟩ := localPutMbuffIo_used hw
    obtain ⟨hu3, _, hd3⟩ := putRetry_used s2 k v g oldPba a.drained
    have ht3 := putRetry_tablesOk (k := k) (v := v) ht2 g oldPba a.drained
    have hend := putFault_used ht3 h
    rcases putMapFault_idle ht1 (by rwa [table_congr hd1]) hm with hlt | ⟨hu2, hd2⟩
    · exact .inl (by omega)
    · have hd := hd3.trans (hd2.trans hd1)
      rcases ih ht3 (by rwa [table_congr hd]) h with hlt | ⟨hu', hd'⟩
      · exact .inl (by omega)
      · rcases lt_or_eq_of_le (hend.trans' (show s.usedCapacity ≤ _ by omega)) with hlt | heq
        · exact .inl hlt
        · exact .inr ⟨heq.symm, hd'.trans hd⟩
  | case9 s a rest i hio g s1 hw s2 e2 oldPba hm =>
    cases h
    obtain ⟨ht1, _, hle⟩ := putMapFault_written ht hw hm
    obtain ⟨hu1, _, hd1⟩ := localPutMbuffIo_used hw
    simp only [Stays, invalidateGrains]
    rcases putMapFault_idle ht1 (by rwa [table_congr hd1]) hm with hlt | ⟨hu2, hd2⟩
    · exact .inl (by omega)
    · by_cases hlt : s.usedCapacity < s2.usedCapacity - c.kvTotGrainsGet k.length v.length
      · exact .inl hlt
      · exact .inr ⟨by omega, hd2.trans hd1⟩
  | case10 s a rest i hio g s1 hw s2 r p hne =>
    cases h
    exact absurd rfl (hne e)

/-- A record that was written and whose grains were given back, with a map that was
kept in between. -/
theorem written_untouched {s1 s2 s3 : Store c} (base : s.Base)
    (hw : s.localPutMbuffIo i k v = some (g, s1))
    (hsz : c.ioSizeGrains k v = c.kvTotGrainsGet k.length v.length) (hu : Untouched s1 s2)
    (hf : Frame s2 s3) (htab : s3.tables = s2.tables)
    (hused : s3.usedCapacity = s2.usedCapacity - c.kvTotGrainsGet k.length v.length)
    (hb : Books True s2 {(g, c.kvTotGrainsGet k.length v.length)} s3 0) : Untouched s s3 := by
  obtain ⟨hu1, htab1, _⟩ := localPutMbuffIo_used hw
  have hmid := hu.books.frame {(g, c.kvTotGrainsGet k.length v.length)}
  have hfirst := localPutMbuffIo_moves base hw
  rw [zero_add] at hmid
  rw [hsz] at hfirst hu1
  refine ⟨((localPutMbuffIo_frame base hw).trans hu.frame).trans hf,
    htab.trans (hu.tables.trans htab1), ?_, ((hfirst.trans hmid).trans hb).mono fun _ =>
      ⟨⟨trivial, trivial⟩, trivial⟩⟩
  rw [hused, hu.used, hu1]
  omega

/-- A put that fails either meets the condition and touches nothing, or it shows. -/
theorem putFault_cases (inv : s.Inv) (ht : s.TablesOk) {as : List PutRound}
    (h : s.putFault k v op as = (s', .err e)) :
    (s.PutKeeps k v op as ∧ Untouched s s') ∨ (¬ s.PutKeeps k v op as ∧ Disturbed s s') := by
  have hkv := kvTotGrainsGet_le (c := c) k v
  fun_induction putFault s k v op as with
  | case1 =>
    cases h
    exact .inl ⟨trivial, .refl inv.toBase⟩
  | case2 s a rest hio ih =>
    simp only [PutKeeps, hio]
    rcases ih inv ht h with ⟨hk, hu⟩ | ⟨hk, hd⟩
    · exact .inl ⟨fun _ => hk, hu⟩
    · exact .inr ⟨fun hkeep => hk (hkeep trivial), hd⟩
  | case3 s a rest e' hio he =>
    cases h
    simp only [PutKeeps, hio]
    exact .inl ⟨fun h' => absurd h' he, .refl inv.toBase⟩
  | case4 s a rest i bs e' hio hf =>
    cases h
    simp only [PutKeeps, hio, hf]
    exact .inl ⟨by simp, .refl inv.toBase⟩
  | case5 s a rest i bs s1 hf hio ih =>
    have hu := ioFail_untouched inv.toBase hf
    simp only [PutKeeps, hio, hf]
    rcases ih (hu.frame.inv inv) (hu.tablesOk ht) h with ⟨hk, hu'⟩ | ⟨hk, hd⟩
    · exact .inl ⟨fun s2 hs2 _ => by cases hs2; exact hk, hu.trans hu'⟩
    · exact .inr ⟨fun hkeep => hk (hkeep s1 rfl trivial), hu.disturbed hd⟩
  | case6 s a rest i bs e' hio s1 hf he =>
    cases h
    simp only [PutKeeps, hio]
    exact .inl ⟨fun _ _ h' => absurd h' he, ioFail_untouched inv.toBase hf⟩
  | case7 s a rest i hio hw =>
    cases h
    simp only [PutKeeps, hio, hw]
    exact .inl ⟨by simp, .refl inv.toBase⟩
  | case8 s a rest i hio g s1 hw s2 oldPba hm ih =>
    obtain ⟨ht1, ht2, hle⟩ := putMapFault_written ht hw hm
    obtain ⟨hu3, htab3, _⟩ := putRetry_used s2 k v g oldPba a.drained
    have hend := putFault_used (putRetry_tablesOk ht2 g oldPba a.drained) h
    have hf1 := localPutMbuffIo_frame inv.toBase hw
    simp only [PutKeeps, hio, hw]
    by_cases hsz : c.ioSizeGrains k v = c.kvTotGrainsGet k.length v.length
    · rcases putMapFault_cases (hf1.inv inv) ht1 hm with ⟨hk, hu⟩ | ⟨hk, hd⟩
      · have hr := written_untouched inv.toBase hw hsz hu
          (putRetry_frame (hu.frame.base (hf1.base inv.toBase)) k v g oldPba a.drained) htab3 hu3
          (putRetry_books s2 k v g oldPba a.drained)
        rcases ih (hr.frame.inv inv) (hr.tablesOk ht) h with ⟨hk', hu'⟩ | ⟨hk', hd'⟩
        · refine .inl ⟨?_, hr.trans hu'⟩
          rintro g' s1' ⟨⟩
          refine ⟨hsz, hk, fun s2' p' hm' => ?_⟩
          cases hm.symm.trans hm'
          exact hk'
        · exact .inr ⟨fun hkeep => hk' ((hkeep g s1 rfl).2.2 s2 oldPba hm), hr.disturbed hd'⟩
      · refine .inr ⟨fun hkeep => hk (hkeep g s1 rfl).2.1, ?_⟩
        obtain ⟨hu1, _, hd1⟩ := localPutMbuffIo_used hw
        rcases hd with hlt | ⟨hu2, hmoved, hstuck⟩
        · exact .inl (by omega)
        · obtain ⟨_, _, hd3⟩ := putRetry_used s2 k v g oldPba a.drained
          rcases putFault_idle (putRetry_tablesOk ht2 g oldPba a.drained)
            (by rw [table_congr hd3]; exact hstuck rfl) h with hlt | ⟨_, hd'⟩
          · exact .inl (by omega)
          · rw [hd1, ← hd3, ← hd'] at hmoved
            exact .inr hmoved
    · exact .inr ⟨fun hkeep => hsz (hkeep g s1 rfl).1, .inl (by omega)⟩
  | case9 s a rest i hio g s1 hw s2 e2 oldPba hm hne =>
    cases h
    obtain ⟨ht1, _, hle⟩ := putMapFault_written ht hw hm
    obtain ⟨hu1, _, hd1⟩ := localPutMbuffIo_used hw
    have hf1 := localPutMbuffIo_frame inv.toBase hw
    simp only [PutKeeps, hio, hw]
    by_cases hsz : c.ioSizeGrains k v = c.kvTotGrainsGet k.length v.length
    · rcases putMapFault_cases (hf1.inv inv) ht1 hm with ⟨hk, hu⟩ | ⟨hk, hd⟩
      · refine .inl ⟨?_, written_untouched inv.toBase hw hsz hu (invalidateGrains_frame
          (hu.frame.base (hf1.base inv.toBase)) g _) rfl rfl (invalidateGrains_books s2 g _)⟩
        rintro g' s1' ⟨⟩
        refine ⟨hsz, hk, fun s2' p' hm' => ?_⟩
        cases hm.symm.trans hm'
        exact absurd rfl hne
      · refine .inr ⟨fun hkeep => hk (hkeep g s1 rfl).2.1, ?_⟩
        rcases hd with hlt | ⟨_, hmoved, _⟩
        · exact .inl (by simp only [invalidateGrains]; omega)
        · rw [hd1] at hmoved
          exact .inr hmoved
    · exact .inr ⟨fun hkeep => hsz (hkeep g s1 rfl).1,
        .inl (by simp only [invalidateGrains]; omega)⟩
  | case10 s a rest i hio g s1 hw s2 r p hne =>
    cases h
    exact absurd rfl (hne e)

/-- A put that returns an error leaves every visible value, the entries of the map, the
valid grains of each segment and the used capacity as they were, if and only if no
entry was moved, no growth took place and no table went unmapped on its way, and the
sizes do not wrap. -/
theorem failedPut_noEffect_iff {s s' : Store c} (hs : s.Formed) {k v : List UInt8} {op : PutOp}
    {as : List PutRound} {e : Errno} (h : s.putFault k v op as = (s', .err e)) :
    NoEffect s s' ↔ s.PutKeeps k v op as := by
  rcases putFault_cases hs.toInv hs.tables h with ⟨hk, hu⟩ | ⟨hk, hd⟩
  · exact ⟨fun _ => hk, fun _ => hu.noEffect hs⟩
  · exact ⟨fun hn => absurd hn hd.not_noEffect, fun hkeep => absurd hkeep hk⟩

/-! ## A put that is rejected, and one that hides keys -/

/-- After a retry of its write, a put in mode CREATE finds the key and is rejected. -/
theorem create_rejected_noEffect : ∃ s s' M,
    Relation.ReflTransGen CountedStep (init colliding (fun _ => 0) 0, fun _ => none) (s, M) ∧
      s.putFault [1] [11] .create [⟨.failed 1 [7] .eagain, [], 0⟩, ⟨.written 1, [], 0⟩] =
        (s', .err .einval) ∧ NoEffect s s' := by
  have h : ((execExact (init colliding (fun _ => 0) 0, fun _ => none)
      [.allocateSegment 1, .put [1] [10] .normal [⟨1, [], 0⟩]]).bind fun w =>
      (w.1.ioFail 1 1 [7]).bind fun s1 => (s1.localPutMbuffIo 1 [1] [11]).map fun x =>
        decide (x.2.lookupMbuffPut [1] ≠ .enospc ∧
          (x.2.putMapFault [1] [11] x.1 .create []).2.1 = .err .einval)) = some true := by
    decide +kernel
  obtain ⟨⟨s, M⟩, hw, h⟩ := bind_eq_some_iff.mp h
  obtain ⟨s1, hf, h⟩ := bind_eq_some_iff.mp h
  obtain ⟨⟨g, s2⟩, hio, h⟩ := map_eq_some_iff.mp h
  obtain ⟨hroom, hrc⟩ := of_decide_eq_true h
  have hexact := execExact_run (by decide) hw (init_inv (by decide) _ (by decide))
    (init_represents _ _ _)
  have hrun : Relation.ReflTransGen CountedStep (init colliding (fun _ => 0) 0, fun _ => none)
      (s, M) := Relation.ReflTransGen.mono (fun _ _ => ExactStep.counted) _ _ hexact
  have hlen : colliding.ioSizeGrains [1] [11] = 1 := by decide
  cases hm : s2.putMapFault [1] [11] g .create [] with
  | mk s3 x =>
    obtain ⟨ret, p⟩ := x
    rw [hm] at hrc
    dsimp only at hrc
    subst hrc
    have hput : s.putFault [1] [11] .create
        [⟨.failed 1 [7] .eagain, [], 0⟩, ⟨.written 1, [], 0⟩] =
        (s3.invalidateGrains g (colliding.kvTotGrainsGet 1 1), .err .einval) := by
      simp only [putFault, hlen, hf, if_true, hio, hm]
      rw [if_neg (by decide)]
      rfl
    refine ⟨s, _, M, hrun, hput,
      (failedPut_noEffect_iff (formed_run (by decide) (by decide) (by decide) hrun) hput).mpr
        fun s1' hs1 _ g' s2' hs2 => ?_⟩
    rw [hlen, hf] at hs1
    cases hs1
    rw [hio] at hs2
    cases hs2
    refine ⟨by decide, fun hn => absurd hn.2 hroom, fun s4 p' hm' => ?_⟩
    rw [hm] at hm'
    cases hm'

/-- The tag of a key is its first byte, its bucket the second. -/
def shiftable : Config :=
  .ofSizes 6 32 40 1 4 (fun k => 64 * (k.headD 0).toNat + (k.getD 1 0).toNat) (fun _ _ => 0)
    (Eq.refl true)

/-- A key of bucket 1 and 31 keys of bucket 0 fill the window of bucket 0. -/
def fullTrace : List Event :=
  .allocateSegment 1 :: .put [0, 1] [0] .normal [⟨1, [], 0⟩] ::
    (List.range 31).map fun i =>
      .put [UInt8.ofNat (i + 1), 0] [UInt8.ofNat (i + 1)] .normal [⟨1, [], 0⟩]

/-- A put in mode REPLACE of an absent key is rejected after `try_shift` has moved the
key of bucket 1: its slot is then one that was never used, in the middle of the window. -/
theorem replace_rejected_hides_key : ∃ s s' M,
    Relation.ReflTransGen Step (init shiftable (fun _ => 0) 0, fun _ => none) (s, M) ∧
      s.putFault [40, 0] [9] .replace [⟨.written 1, [], 0⟩] = (s', .err .einval) ∧
      s.get [5, 0] = .ok [5] ∧ s'.get [5, 0] = .enodata ∧ ¬ NoEffect s s' := by
  have h : ((execAll (init shiftable (fun _ => 0) 0, fun _ => none) fullTrace).bind fun w =>
      (w.1.localPutMbuffIo 1 [40, 0] [9]).map fun x =>
        decide (w.1.get [5, 0] = .ok [5] ∧ x.2.lookupMbuffPut [40, 0] = .enospc ∧
          (x.2.table (64 * 40)).shiftFree (64 * 40) = some 32 ∧
          (x.2.table (64 * 40)).nextFree ((x.2.table (64 * 40)).entryKeyfp 1) = some 32 ∧
          ((x.2.setTable (64 * 40) ((x.2.table (64 * 40)).displace 1 32)).invalidateGrains x.1
            1).get [5, 0] = .enodata)) = some true := by
    decide +kernel
  obtain ⟨⟨s, M⟩, hw, h⟩ := bind_eq_some_iff.mp h
  obtain ⟨⟨g, s1⟩, hio, h⟩ := map_eq_some_iff.mp h
  obtain ⟨hbefore, hroom, hfree, hnext, hafter⟩ := of_decide_eq_true h
  dsimp only at hbefore hroom hfree hnext hafter
  have hone : (s1.table (64 * 40)).tryShiftOne 1 = some ((s1.table (64 * 40)).displace 1 32) := by
    unfold tryShiftOne
    rw [hnext]
    rfl
  have hshift : (s1.table (64 * 40)).tryShift (64 * 40) =
      ((s1.table (64 * 40)).displace 1 32, some 1) := by
    have hfirst : hashToHb32 shiftable.bits (64 * 40) = 0 := by decide
    unfold tryShift
    rw [hfree]
    dsimp only
    rw [hfirst, shiftLoop, if_pos (by decide), hone]
    rfl
  have hlocal : s1.localPutMbuff [40, 0] [9] g .replace =
      (s1.setTable (64 * 40) ((s1.table (64 * 40)).displace 1 32), .einval) := by
    rw [localPutMbuff_enospc hroom]
    unfold putShifted
    rw [show shiftable.hash [40, 0] = 64 * 40 from rfl, hshift]
    rfl
  have hput : s.putFault [40, 0] [9] .replace [⟨.written 1, [], 0⟩] =
      ((s1.setTable (64 * 40) ((s1.table (64 * 40)).displace 1 32)).invalidateGrains g 1,
        .err .einval) := by
    simp only [putFault, hio, putMapFault, localPutMbuffFault_nil, hlocal, PutRc.ret]
    rw [if_neg (by decide)]
    rfl
  refine ⟨s, _, M, execAll_run hw, hput, hbefore, hafter, fun hn => ?_⟩
  have := (hn.visible [5, 0] [5]).mpr hbefore
  rw [hafter] at this
  cases this

end Store
end UDepot
