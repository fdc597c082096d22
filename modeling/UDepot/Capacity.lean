import UDepot.AccountRun

/-! The used capacity as the operations change it, and the number of tables, which
doubles with every growth. Unlike the books, these hold in any state. -/

namespace UDepot.Store
open Bytes UDepotMap Directory Config Option

variable {c : Config}

def TablesOk (s : Store c) : Prop := s.tables.length = 2 ^ s.dir.idxBits

/-! ## The used capacity -/

variable {s s' : Store c} {i : Nat}

theorem allocateGrains_used {s1 : Store c} {len g : Nat}
    (h : s.allocateGrains i len = some (g, s1)) : s1.usedCapacity = s.usedCapacity + len := by
  unfold allocateGrains at h
  dsimp only at h
  split at h
  · cases h
    rfl
  · cases h

theorem recycleSegment_used (s : Store c) (i : Nat) :
    (s.recycleSegment i).usedCapacity = s.usedCapacity := by
  unfold recycleSegment
  dsimp only
  split <;> rfl

theorem recycleSegment_tables (s : Store c) (i : Nat) : (s.recycleSegment i).tables = s.tables := by
  unfold recycleSegment
  dsimp only
  split <;> rfl

theorem recycleSegment_dir (s : Store c) (i : Nat) : (s.recycleSegment i).dir = s.dir := by
  unfold recycleSegment
  dsimp only
  split <;> rfl

theorem allocateTable_used {s s1 : Store c} {i g : Nat} (h : s.allocateTable i = some (g, s1)) :
    s1.usedCapacity = s.usedCapacity + tableGrains c ∧ s1.dir = s.dir := by
  obtain ⟨s0, h0, h1⟩ := bind_eq_some_iff.mp h
  obtain ⟨_, _, hd, _⟩ := allocateSegment_eq_some h0
  obtain ⟨_, _, _, hd1, _⟩ := allocateGrains_eq_some h1
  rw [allocateGrains_used h1, (allocateSegment_rest h0).1]
  exact ⟨rfl, hd1.trans hd⟩

theorem allocateTables_used (s : Store c) (n : Nat) (allocs : List TableAlloc) :
    (s.allocateTables n allocs).2.1.usedCapacity = s.usedCapacity +
        (s.allocateTables n allocs).1.length * tableGrains c +
        (if s.mmapLeaks n allocs then (tableGrains c : Int) else 0) ∧
      (s.allocateTables n allocs).2.1.dir = s.dir := by
  fun_induction allocateTables s n allocs with
  | case4 s n i rest g s1 ha r ih =>
    obtain ⟨hu, hd⟩ := allocateTable_used ha
    subst r
    simp only [mmapLeaks, ha, List.length_cons]
    refine ⟨?_, ih.2.trans hd⟩
    rw [ih.1, hu, Nat.cast_succ, add_mul]
    omega
  | case6 s n i rest g s1 ha =>
    obtain ⟨hu, hd⟩ := allocateTable_used ha
    simp [mmapLeaks, ha, hu, hd]
  | _ => simp [mmapLeaks, *]

theorem allocateTables_done {s : Store c} {n : Nat} {allocs : List TableAlloc}
    (h : (s.allocateTables n allocs).2.2 = true) :
    (s.allocateTables n allocs).1.length = n ∧ s.mmapLeaks n allocs = false := by
  fun_induction allocateTables s n allocs with
  | case1 => exact ⟨rfl, rfl⟩
  | case4 s n i rest g s1 ha r ih =>
    obtain ⟨hl, hm⟩ := ih h
    exact ⟨congrArg (· + 1) hl, by simp [mmapLeaks, ha, hm]⟩
  | _ => cases h

theorem invalidateTables_used (s : Store c) (gs : List Nat) :
    (s.invalidateTables gs).usedCapacity = s.usedCapacity - gs.length * tableGrains c ∧
      (s.invalidateTables gs).dir = s.dir ∧ (s.invalidateTables gs).tables = s.tables := by
  induction gs generalizing s with
  | nil => simp [invalidateTables]
  | cons g gs ih =>
    obtain ⟨hu, hd, ht⟩ := ih (s.invalidateGrains g (tableGrains c))
    refine ⟨?_, hd, ht⟩
    change ((s.invalidateGrains g (tableGrains c)).invalidateTables gs).usedCapacity = _
    rw [hu, List.length_cons, Nat.cast_succ, add_mul]
    simp only [invalidateGrains]
    omega

theorem tableGrains_pos (c : Config) : 0 < tableGrains c := by
  have := c.md_lt
  unfold tableGrains
  omega

theorem grow_used_lt (ht : s.TablesOk) {allocs : List TableAlloc} (h : s.grown allocs = true) :
    s.usedCapacity < (s.grow allocs).1.usedCapacity ∧ (s.grow allocs).1.TablesOk := by
  obtain ⟨hu, _⟩ := allocateTables_used s (2 ^ (s.dir.idxBits + 1)) allocs
  have hdone := @allocateTables_done c s (2 ^ (s.dir.idxBits + 1)) allocs
  unfold grown at h
  unfold grow
  generalize s.allocateTables (2 ^ (s.dir.idxBits + 1)) allocs = x at h hu hdone
  obtain ⟨gs, s1, ok⟩ := x
  cases ok with
  | false => cases h
  | true =>
    obtain ⟨hl, hm⟩ := hdone rfl
    cases hg : s.dir.grow with
    | none => simp [hg] at h
    | some d =>
      obtain ⟨hi, _, _⟩ := invalidateTables_used s1 s.tables
      have hb : d.idxBits = s.dir.idxBits + 1 := copyAll_idxBits hg
      have hpow : (2 ^ (s.dir.idxBits + 1) : Nat) = 2 ^ s.dir.idxBits + 2 ^ s.dir.idxBits := by
        rw [pow_succ]
        omega
      have hpos : (0 : Int) < ((2 ^ s.dir.idxBits * tableGrains c : Nat) : Int) :=
        Int.natCast_pos.mpr (Nat.mul_pos (Nat.two_pow_pos _) (tableGrains_pos c))
      refine ⟨?_, by rw [TablesOk, hl, hb]⟩
      rw [hm] at hu
      dsimp only at hu hl ⊢
      rw [hi, hu, hl, ht, hpow, Nat.cast_add, add_mul]
      push_cast at hpos ⊢
      omega

/-- A growth that leaves no new directory keeps the old one; what it takes is the table that was
not mapped. -/
theorem grow_kept_dir {allocs : List TableAlloc} (h : s.grown allocs = false) :
    (s.grow allocs).1.usedCapacity = s.usedCapacity +
        (if s.mmapLeaks (2 ^ (s.dir.idxBits + 1)) allocs then (tableGrains c : Int) else 0) ∧
      (s.grow allocs).1.dir = s.dir ∧ (s.grow allocs).1.tables = s.tables ∧
      (s.grow allocs).1 = (s.allocateTables (2 ^ (s.dir.idxBits + 1)) allocs).2.1.invalidateTables
        (s.allocateTables (2 ^ (s.dir.idxBits + 1)) allocs).1 := by
  obtain ⟨hu, hd⟩ := allocateTables_used s (2 ^ (s.dir.idxBits + 1)) allocs
  have ht := allocateTables_tables s (2 ^ (s.dir.idxBits + 1)) allocs
  have hs' : (s.grow allocs).1 =
      (s.allocateTables (2 ^ (s.dir.idxBits + 1)) allocs).2.1.invalidateTables
        (s.allocateTables (2 ^ (s.dir.idxBits + 1)) allocs).1 := by
    unfold grown at h
    unfold grow
    generalize s.allocateTables (2 ^ (s.dir.idxBits + 1)) allocs = x at h ⊢
    obtain ⟨gs, s1, ok⟩ := x
    cases ok with
    | false => rfl
    | true =>
      cases hg : s.dir.grow with
      | none => rfl
      | some d => simp [hg] at h
  obtain ⟨hi, hid, hit⟩ := invalidateTables_used
    (s.allocateTables (2 ^ (s.dir.idxBits + 1)) allocs).2.1
    (s.allocateTables (2 ^ (s.dir.idxBits + 1)) allocs).1
  rw [hs']
  refine ⟨?_, hid.trans hd, hit.trans ht, rfl⟩
  rw [hi, hu]
  omega

theorem kvTotGrainsGet_le (k v : List UInt8) :
    c.kvTotGrainsGet k.length v.length ≤ c.ioSizeGrains k v := by
  unfold kvTotGrainsGet ioSizeGrains udivRoundUp
  apply Nat.div_le_div_right
  have h1 := Nat.mod_le v.length (2 ^ 32)
  have h2 := Nat.mod_le k.length (2 ^ 32)
  have h3 := Nat.mod_le (v.length % 2 ^ 32 + k.length % 2 ^ 32) (2 ^ 32)
  omega

theorem ioFail_used {len : Nat} {bs : List UInt8} (h : s.ioFail i len bs = some s') :
    s'.usedCapacity = s.usedCapacity ∧ s'.tables = s.tables ∧ s'.dir = s.dir := by
  unfold ioFail at h
  cases ha : s.allocateGrains i len with
  | none => simp [ha] at h
  | some x =>
    obtain ⟨g, s1⟩ := x
    simp only [ha, some.injEq] at h
    subst h
    have hu := allocateGrains_used ha
    have htab := allocateGrains_tables ha
    refine ⟨?_, htab, (allocateGrains_eq_some ha).2.2.2.1⟩
    simp only [invalidateGrains]
    omega

theorem putRetry_used (s : Store c) (k v : List UInt8) (g oldPba drained : Nat) :
    (s.putRetry k v g oldPba drained).usedCapacity =
        s.usedCapacity - c.kvTotGrainsGet k.length v.length ∧
      (s.putRetry k v g oldPba drained).tables = s.tables ∧
      (s.putRetry k v g oldPba drained).dir = s.dir := by
  unfold putRetry
  split
  · refine ⟨?_, recycleSegment_tables s drained, recycleSegment_dir s drained⟩
    simp only [invalidateGrains, recycleSegment_used]
  · exact ⟨rfl, rfl, rfl⟩

theorem localPutMbuffIo_used {s1 : Store c} {g : Nat} {k v : List UInt8}
    (h : s.localPutMbuffIo i k v = some (g, s1)) :
    s1.usedCapacity = s.usedCapacity + c.ioSizeGrains k v ∧ s1.tables = s.tables ∧
      s1.dir = s.dir := by
  obtain ⟨s0, ha, rfl⟩ := localPutMbuffIo_eq_some h
  have htab := allocateGrains_tables ha
  have hu := allocateGrains_used ha
  exact ⟨hu, htab, (allocateGrains_eq_some ha).2.2.2.1⟩

/-! ## Runs -/

structure SameTables (s s' : Store c) : Prop where
  tables : s'.tables = s.tables
  idxBits : s'.dir.idxBits = s.dir.idxBits

theorem SameTables.tablesOk (h : SameTables s s') (ht : s.TablesOk) : s'.TablesOk := by
  rw [TablesOk, h.tables, h.idxBits]
  exact ht

theorem setMapping_sameTables (s : Store c) (h q : Nat) (update : Bool) (keyLen valLen pba : Nat)
    (oldMd : StoreHeader) : SameTables s (s.setMapping h q update keyLen valLen pba oldMd) := by
  unfold setMapping
  cases update with
  | true => exact ⟨rfl, rfl⟩
  | false =>
    dsimp only
    simp only [Bool.false_eq_true, if_false]
    split <;> exact ⟨rfl, rfl⟩

theorem localPutMbuff_sameTables (s : Store c) (k v : List UInt8) (g : Nat) (op : PutOp) :
    SameTables s (s.localPutMbuff k v g op).1 := by
  fun_cases localPutMbuff s k v g op with
  | case2 | case4 => exact setMapping_sameTables _ _ _ _ _ _ _ _
  | case8 h hl t q ht hop =>
    have hm := setMapping_sameTables (s.setTable h t) h q false k.length v.length g ⟨0, 0, 0⟩
    exact ⟨hm.tables, hm.idxBits⟩
  | _ => exact ⟨rfl, rfl⟩

theorem grow_tablesOk (ht : s.TablesOk) (allocs : List TableAlloc) :
    (s.grow allocs).1.TablesOk := by
  cases hg : s.grown allocs with
  | true => exact (grow_used_lt ht hg).2
  | false =>
    obtain ⟨_, hd, htab, _⟩ := grow_kept_dir hg
    rw [TablesOk, hd, htab]
    exact ht

theorem putMap_tablesOk (ht : s.TablesOk) (k v : List UInt8) (g : Nat) (op : PutOp)
    (grows : List (List TableAlloc)) : (s.putMap k v g op grows).1.TablesOk := by
  have hput := fun {s : Store c} => (localPutMbuff_sameTables s k v g op).tablesOk
  fun_induction putMap s k v g op grows with
  | case1 | case4 => exact hput ht
  | case2 s allocs rest s1 hl s2 hg ih =>
    have h2 := grow_tablesOk (hput ht) allocs
    rw [hl, hg] at h2
    exact ih h2
  | case3 s allocs rest s1 hl s2 hg =>
    have h2 := grow_tablesOk (hput ht) allocs
    rwa [hl, hg] at h2

theorem put_tablesOk (ht : s.TablesOk) (k v : List UInt8) (op : PutOp) (as : List PutAttempt) :
    (s.put k v op as).1.TablesOk := by
  have hmap : ∀ {s s1 s2 : Store c} {a : PutAttempt} {g : Nat} {rc : PutRc}, s.TablesOk →
      s.localPutMbuffIo a.seg k v = some (g, s1) → s1.putMap k v g op a.grows = (s2, rc) →
      s2.TablesOk := by
    intro s s1 s2 a g rc ht hio hl
    obtain ⟨_, htab, hd⟩ := localPutMbuffIo_used hio
    have h1 : SameTables s s1 := ⟨htab, by rw [hd]⟩
    have h2 := putMap_tablesOk (h1.tablesOk ht) k v g op a.grows
    rwa [hl] at h2
  fun_induction put s k v op as with
  | case1 | case2 => exact ht
  | case3 s a rest g s1 hio s2 hl => exact hmap ht hio hl
  | case4 s a rest g s1 hio grains s2 oldPba hl s3 ih =>
    obtain ⟨_, htab3, hd3⟩ := putRetry_used s2 k v g oldPba a.drained
    have h3 : SameTables s2 (s2.putRetry k v g oldPba a.drained) := ⟨htab3, by rw [hd3]⟩
    exact ih (h3.tablesOk (hmap ht hio hl))
  | case5 s a rest g s1 hio grains s2 rc _ _ hl =>
    exact (hmap ht hio hl : s2.TablesOk)

theorem del_sameTables (s : Store c) (k : List UInt8) (segs : List Nat) :
    SameTables s (s.del k segs).1 := by
  fun_induction del s k segs with
  | case5 s i rest h q md hl g s1 hio pba ho =>
    obtain ⟨_, htab, hd⟩ := localPutMbuffIo_used hio
    have hbits : s1.dir.idxBits = s.dir.idxBits := by rw [hd]
    exact ⟨htab, hbits⟩
  | case6 s i rest h q md hl g s1 hio pba ho ih =>
    obtain ⟨_, htab, hd⟩ := localPutMbuffIo_used hio
    exact ⟨ih.tables.trans htab, ih.idxBits.trans (by rw [hd])⟩
  | _ => exact ⟨rfl, rfl⟩

theorem localGcCallback_sameTables {start : Nat} (h : s.localGcCallback start i = some s') :
    SameTables s s' := by
  rcases localGcCallback_cases h with ⟨_, rfl⟩ | ⟨q, _, _, rfl⟩ | ⟨q, g, s1, _, _, ha, rfl⟩
  · exact ⟨rfl, rfl⟩
  · exact ⟨rfl, rfl⟩
  · have htab := allocateGrains_tables ha
    obtain ⟨_, _, _, hd, _⟩ := allocateGrains_eq_some ha
    have hbits : s1.dir.idxBits = s.dir.idxBits := by rw [hd]
    exact ⟨htab, hbits⟩

theorem exec_tablesOk {w w' : Store c × KvMap} (ht : w.1.TablesOk) {ev : Event}
    (he : exec w ev = some w') : w'.1.TablesOk := by
  cases ev with
  | put k v op as =>
    cases he
    exact put_tablesOk ht k v op as
  | del k segs =>
    cases he
    exact (del_sameTables w.1 k segs).tablesOk ht
  | gc start i =>
    obtain ⟨s', hs, rfl⟩ := map_eq_some_iff.mp he
    exact (localGcCallback_sameTables hs).tablesOk ht
  | shift h =>
    unfold exec at he
    dsimp only at he
    split at he
    · cases he
      exact ht
    · cases he
  | grow allocs =>
    cases he
    exact grow_tablesOk ht allocs
  | allocateSegment i =>
    obtain ⟨s', hs, rfl⟩ := map_eq_some_iff.mp he
    obtain ⟨_, _, hd, _⟩ := allocateSegment_eq_some hs
    rw [TablesOk, (allocateSegment_rest hs).2, hd]
    exact ht
  | recycleSegment i =>
    cases he
    rw [TablesOk, recycleSegment_tables, recycleSegment_dir]
    exact ht
  | putFreeSeg i =>
    obtain ⟨s', hs, rfl⟩ := map_eq_some_iff.mp he
    unfold putFreeSeg at hs
    split at hs
    · cases hs
      exact ht
    · cases hs
  | ioFail i len bs =>
    obtain ⟨s', hs, rfl⟩ := map_eq_some_iff.mp he
    obtain ⟨_, htab, hd⟩ := ioFail_used hs
    rw [TablesOk, htab, hd]
    exact ht

/-- A store whose counters count its charges, and maybe grains that leaked earlier. -/
structure Formed (s : Store c) : Prop extends Inv s where
  tables : s.TablesOk
  counted : ∃ F, s.Counts (s.charges + F)

theorem formed_run (hb : c.bits ≤ 32) (hdev : DeviceFits c) {m : Nat → UInt8} (hi : i < c.segNr)
    {w : Store c × KvMap} (h : Relation.ReflTransGen CountedStep (init c m i, fun _ => none) w) :
    w.1.Formed := by
  have ht : w.1.TablesOk := by
    induction h with
    | refl => rfl
    | tail _ hs ih =>
      obtain ⟨ev, _, _, he⟩ := hs
      exact exec_tablesOk ih he
  obtain ⟨⟨inv, _⟩, hcount⟩ := counted_run hb hdev hi h
  exact ⟨inv, ht, hcount⟩

end UDepot.Store
