import UDepot.StorePut

/-! `lookup_mbuff_put` and `local_put_mbuff` against the finite map: a put that
succeeds sets its key, and CREATE and REPLACE are rejected exactly by the presence
and the absence of the key. -/

namespace UDepot.Store
open Bytes UDepotMap Directory Config

variable {c : Config}

/-! ## The lookup of a put -/

variable {t : UDepotMap c.bits} {h q g : Nat} {s : Store c} {k v : List UInt8}
  {M : List UInt8 → Option (List UInt8)}

theorem lookupLoop_enodata {isMatch : HashEntry → Bool}
    (hl : lookupLoop t h isMatch lookupRounds [] = .enodata q) : t.lookup h = .enodata q := by
  rcases lookupLoop_answers t h isMatch with ⟨-, hr⟩ | ⟨r, hs, hr⟩ | ⟨_, -, hr | ⟨_, -, -, hr⟩⟩
  all_goals cases hl.symm.trans hr
  exact hs

theorem lookupLoop_enospc {isMatch : HashEntry → Bool}
    (hl : lookupLoop t h isMatch lookupRounds [] = .enospc) : t.lookup h = .enospc := by
  rcases lookupLoop_answers t h isMatch with ⟨hs, -⟩ | ⟨_, -, hr⟩ | ⟨_, -, hr | ⟨_, -, -, hr⟩⟩
  · exact hs
  all_goals cases hl.symm.trans hr

/-- A slot that `lookup` or `next_free` offers for a new entry. -/
structure FreeSlot (t : UDepotMap c.bits) (h q : Nat) : Prop where
  window : InWindow c.bits h q
  notLive : (t.ht q).live = false
  front : ∀ r, hashToHb c.bits h ≤ r → r < q → (t.ht r).used = true

theorem freeSlot_of_shift {t : UDepotMap c.bits} {h q : Nat}
    (hres : ShiftResult t (hashToHb c.bits h) (some q)) :
    FreeSlot ((s.setTable h t).table h) h q := by
  obtain ⟨h1, h2, hfree, hfull⟩ := hres.slot q rfl
  rw [setTable_table]
  exact ⟨⟨h1, h2⟩, by simpa [HashEntry.free_eq_not_live] using hfree,
    fun r hr1 hr2 => ((HashEntry.live_iff _).mp (hfull r hr1 hr2)).1⟩

theorem freeSlot_of_lookup (hl : t.lookup h = .enodata q) : FreeSlot t h q := by
  obtain ⟨hw, hf, hfront⟩ := lookup_enodata hl
  exact ⟨hw, by simpa [HashEntry.free_eq_not_live] using hf, hfront⟩

theorem freeSlot_of_nextFree (hb : c.bits ≤ 32) (hl : t.nextFree h = some q) : FreeSlot t h q := by
  obtain ⟨hw, hf, hfront⟩ := (nextFree_eq_some hb).mp hl
  exact ⟨hw, by simpa [HashEntry.free_eq_not_live] using hf,
    fun r h1 h2 => ((HashEntry.live_iff _).mp (hfront r h1 h2)).1⟩

theorem nextFree_of_enospc (hb : c.bits ≤ 32) (hl : t.lookup h = .enospc) : t.nextFree h = none :=
  (nextFree_eq_none hb).mpr (lookup_enospc hl)

/-- What each answer of `lookup_mbuff_put` means. -/
def PutLookup.Means (s : Store c) (k : List UInt8) : PutLookup → Prop
  | .eexist q md => Holds s k q ∧ md = c.readHeader s.media ((s.table (c.hash k)).ht q).pba
  | .enodata q => FreeSlot (s.table (c.hash k)) (c.hash k) q ∧
      ∀ e ∈ s.dir.liveEntries, c.recKey s.media e.pba ≠ k
  | .enospc => (s.table (c.hash k)).nextFree (c.hash k) = none ∧
      ∀ e ∈ s.dir.liveEntries, c.recKey s.media e.pba ≠ k

theorem lookupMbuffPut_means (inv : s.Inv) (k : List UInt8) : (s.lookupMbuffPut k).Means s k := by
  unfold lookupMbuffPut
  dsimp only
  rcases @lookupKey_spec c s inv k (keyMatch c s.media k) (fun _ _ => rfl) with
    ⟨q, hl, hm, hk⟩ | ⟨hno, hall⟩
  · rw [hl]
    exact ⟨⟨hm, hk⟩, rfl⟩
  · cases hl : lookupLoop (s.table (c.hash k)) (c.hash k) (keyMatch c s.media k)
      lookupRounds [] with
    | hit q => exact absurd hl (hno q)
    | enodata q => exact ⟨freeSlot_of_lookup (lookupLoop_enodata hl), hall⟩
    | enospc => exact ⟨nextFree_of_enospc inv.bits_le (lookupLoop_enospc hl), hall⟩
    | noMatch =>
      dsimp only
      cases hf : (s.table (c.hash k)).nextFree (c.hash k) with
      | none => exact ⟨hf, hall⟩
      | some q => exact ⟨freeSlot_of_nextFree inv.bits_le hf, hall⟩

theorem absent_of_no_entry (hM : s.Represents M)
    (hno : ∀ e ∈ s.dir.liveEntries, c.recKey s.media e.pba ≠ k) : M k = none := by
  cases hk : M k with
  | none => rfl
  | some v =>
    obtain ⟨e, he, hek, _⟩ := (hM k v).mp hk
    exact absurd hek (hno e he)

theorem present_of_holds (inv : s.Inv) (hM : s.Represents M) (hq : Holds s k q) :
    ∃ v, M k = some v :=
  ⟨_, (hM k _).mpr ⟨_, match_mem inv hq.isMatch, hq.key, rfl⟩⟩

/-! ## The mapping of a put -/

/-- Steps that change neither the device nor the entries do not matter to a mapping. -/
theorem MapStep.congr {s1 s2 s' : Store c} (st : MapStep s1 s2 k g)
    (hd : s1.dir.entries = s.dir.entries) (hm : s1.media = s.media) (hd' : s'.dir = s2.dir)
    (hm' : s'.media = s2.media) (hinv : s'.Inv) : MapStep s s' k g := by
  obtain ⟨e, hp, ks⟩ := st.key
  have hl : s1.dir.liveEntries = s.dir.liveEntries :=
    congrArg (Multiset.filter fun x : Content => x.deleted = false) hd
  refine ⟨hinv, ⟨e, hp, ?_, ?_, ?_⟩, ?_⟩
  · rw [hm', ks.media, hm]
  · rw [hd', ← hl, ← hm]
    exact ks.split
  · rw [← hm]
    exact ks.key
  · rw [hd', ← hd]
    exact st.tombs

theorem setMapping_insert (base : s.Base)
    (hother : ∀ j, j < 2 ^ s.dir.idxBits → j ≠ hashToDirIdx c.bits (c.hash k) s.dir.idxBits →
      (s.dir.map j).NoGap)
    (r : Ready s k v g) (hgap : (s.table (c.hash k)).NoGapBut (some q))
    (hq : FreeSlot (s.table (c.hash k)) (c.hash k) q)
    (hno : ∀ e ∈ s.dir.liveEntries, c.recKey s.media e.pba ≠ k) (md : StoreHeader) :
    MapStep s (s.setMapping (c.hash k) q false k.length v.length g md) k g := by
  simp only [setMapping, Bool.false_eq_true, ↓reduceIte]
  split
  · -- the grains of the tombstone in the slot are given back first
    have hf := invalidateGrains_frame base ((s.table (c.hash k)).ht q).pba
      (c.kvTotGrainsGet md.keySize md.valSize)
    have st := insert_spec (hf.base base) hother (r.invalidate _ _) hgap hq.window hq.front
      hq.notLive hno
    exact st.congr rfl rfl rfl rfl ((kvAdded_frame st.inv.toBase _ _).inv st.inv)
  · have st := insert_spec base hother r hgap hq.window hq.front hq.notLive hno
    exact st.congr rfl rfl rfl rfl ((kvAdded_frame st.inv.toBase _ _).inv st.inv)

theorem setMapping_update (inv : s.Inv) (r : Ready s k v g) (hq : Holds s k q) (md : StoreHeader) :
    MapStep s (s.setMapping (c.hash k) q true k.length v.length g md) k g := by
  simp only [setMapping, ↓reduceIte]
  have hf := invalidateGrains_frame inv.toBase ((s.table (c.hash k)).ht q).pba
    (c.kvTotGrainsGet md.keySize md.valSize)
  have hfr := hf.trans (kvRemoved_frame (hf.base inv.toBase) md.keySize md.valSize)
  have hr : Ready (((s.invalidateGrains ((s.table (c.hash k)).ht q).pba
      (c.kvTotGrainsGet md.keySize md.valSize)).kvRemoved md.keySize md.valSize)) k v g :=
    (r.invalidate _ _).congr rfl (fun _ h => h) fun _ _ => le_rfl
  have st := update_spec (hfr.inv inv) hr ⟨hq.isMatch, hq.key⟩
  exact st.congr rfl rfl rfl rfl ((kvAdded_frame st.inv.toBase _ _).inv st.inv)

/-! ## `local_put_mbuff` -/

/-- The shift that a put of `k` makes, if it makes one: no tombstone is displaced,
and every gap it opens is closed again, by the put itself at the latest. -/
def ShiftOk (s : Store c) (k : List UInt8) (op : PutOp) : Prop :=
  s.lookupMbuffPut k = .enospc →
    (s.table (c.hash k)).tryShiftClean (c.hash k) = true ∧
      (s.table (c.hash k)).tryShiftKeeps (decide (op ≠ .replace)) (c.hash k) = true

/-- What a put of `k` and `v` owes the map for each return code. -/
def PutRc.Meets (M : List UInt8 → Option (List UInt8)) (k v : List UInt8) (op : PutOp)
    (s' : Store c) :
    PutRc → Prop
  | .ok => s'.Represents (Function.update M k (some v)) ∧ (op = .create → M k = none) ∧
      (op = .replace → M k ≠ none)
  | _ => s'.Represents M

structure LocalPutSpec (M : List UInt8 → Option (List UInt8)) (k v : List UInt8) (g : Nat)
    (op : PutOp) (s' : Store c) (rc : PutRc) : Prop where
  inv : s'.Inv
  meets : rc.Meets M k v op s'
  ready : rc ≠ .ok → Ready s' k v g

/-- The branch of `local_put_mbuff` for a window without room. -/
def putShifted (s : Store c) (k v : List UInt8) (grain : Nat) (op : PutOp) : Store c × PutRc :=
  match (s.table (c.hash k)).tryShift (c.hash k) with
  | (t, none) => (s.setTable (c.hash k) t, .enospc)
  | (t, some q) =>
    if op = .replace then (s.setTable (c.hash k) t, .einval)
    else ((s.setTable (c.hash k) t).setMapping (c.hash k) q false k.length v.length grain ⟨0, 0, 0⟩,
      .ok)

theorem localPutMbuff_enospc (h : s.lookupMbuffPut k = .enospc) (v : List UInt8) (g : Nat)
    (op : PutOp) : s.localPutMbuff k v g op = s.putShifted k v g op := by
  unfold localPutMbuff putShifted
  rewrite [h]
  rfl

theorem shift_mapStep (inv : s.Inv) (r : Ready s k v g)
    (hn : (s.table (c.hash k)).nextFree (c.hash k) = none)
    (hno : ∀ e ∈ s.dir.liveEntries, c.recKey s.media e.pba ≠ k)
    (hclean : (s.table (c.hash k)).tryShiftClean (c.hash k) = true)
    (hkeeps : (s.table (c.hash k)).tryShiftKeeps true (c.hash k) = true)
    (ht : (s.table (c.hash k)).tryShift (c.hash k) = (t, some q)) :
    MapStep s ((s.setTable (c.hash k) t).setMapping (c.hash k) q false k.length v.length g
      ⟨0, 0, 0⟩)
      k g := by
  have hres := tryShift_result (table_wf inv.toBase (c.hash k)) hn
  have hgap := tryShift_noGap (table_wf inv.toBase (c.hash k))
    (table_noGap inv (c.hash k)) hn hkeeps
  obtain ⟨hb, hent, hother⟩ := shift_base inv hn hclean
  rw [ht] at hres hgap hb hent hother
  have hlive : (s.setTable (c.hash k) t).dir.liveEntries = s.dir.liveEntries :=
    congrArg (Multiset.filter fun x : Content => x.deleted = false) hent
  have hgq : ((s.setTable (c.hash k) t).table (c.hash k)).NoGapBut (some q) := by
    rw [setTable_table]
    rcases hgap with hg | ⟨_, q', hq', hg⟩
    · exact hg.but _
    · cases hq'
      exact hg
  have hr1 : Ready (s.setTable (c.hash k) t) k v g := r.congr rfl (fun _ h => h) fun _ _ => le_rfl
  have st := setMapping_insert hb hother hr1 hgq (freeSlot_of_shift hres)
    (by rw [hlive]; exact hno) ⟨0, 0, 0⟩
  exact st.congr hent rfl rfl rfl st.inv

theorem putShifted_spec (inv : s.Inv) {op : PutOp}
    (r : Ready s k v g) (hn : (s.table (c.hash k)).nextFree (c.hash k) = none)
    (hno : ∀ e ∈ s.dir.liveEntries, c.recKey s.media e.pba ≠ k)
    (hclean : (s.table (c.hash k)).tryShiftClean (c.hash k) = true)
    (hkeeps : (s.table (c.hash k)).tryShiftKeeps (decide (op ≠ .replace)) (c.hash k) = true)
      (hM : s.Represents M) :
    LocalPutSpec M k v g op (s.putShifted k v g op).1 (s.putShifted k v g op).2 := by
  have hgap := tryShift_noGap (table_wf inv.toBase (c.hash k))
    (table_noGap inv (c.hash k)) hn hkeeps
  obtain ⟨hb, hent, hother⟩ := shift_base inv hn hclean
  have hlive : (s.setTable (c.hash k)
      ((s.table (c.hash k)).tryShift (c.hash k)).1).dir.liveEntries =
      s.dir.liveEntries := congrArg (Multiset.filter fun x : Content => x.deleted = false) hent
  have hM1 : (s.setTable (c.hash k) ((s.table (c.hash k)).tryShift (c.hash k)).1).Represents M :=
    @represents_of_live c s (s.setTable (c.hash k) ((s.table (c.hash k)).tryShift (c.hash k)).1)
      rfl hlive M hM
  have hr1 : Ready (s.setTable (c.hash k) ((s.table (c.hash k)).tryShift (c.hash k)).1) k v g :=
    r.congr rfl (fun _ h => h) fun _ _ => le_rfl
  unfold putShifted
  cases hres : (s.table (c.hash k)).tryShift (c.hash k) with
  | mk t o =>
    rw [hres] at hgap hb hother hM1 hr1
    cases o with
    | none =>
      refine ⟨?_, hM1, fun _ => hr1⟩
      rcases hgap with hg | ⟨_, q, hq, _⟩
      · exact inv_of_shift hb hother hg
      · cases hq
    | some q =>
      dsimp only
      split
      · rename_i hop
        refine ⟨?_, hM1, fun _ => hr1⟩
        rcases hgap with hg | ⟨hfill, _⟩
        · exact inv_of_shift hb hother hg
        · simp [hop] at hfill
      · rename_i hop
        rw [decide_eq_true hop] at hkeeps
        have st := shift_mapStep inv r hn hno hclean hkeeps hres
        exact ⟨st.inv, ⟨st.represents r.val hM, fun _ => absent_of_no_entry hM hno,
          fun h => absurd h hop⟩, fun h => absurd rfl h⟩

theorem localPutMbuff_spec (inv : s.Inv) {op : PutOp} (r : Ready s k v g) (hs : s.ShiftOk k op)
    (hM : s.Represents M) :
    LocalPutSpec M k v g op (s.localPutMbuff k v g op).1 (s.localPutMbuff k v g op).2 := by
  have hmeans := lookupMbuffPut_means inv k
  cases hl : s.lookupMbuffPut k with
  | enodata q =>
    rw [hl] at hmeans
    obtain ⟨hq, hno⟩ := hmeans
    simp only [localPutMbuff, hl]
    split
    · exact ⟨inv, hM, fun _ => r⟩
    · rename_i hop
      have st := setMapping_insert inv.toBase (fun j hj _ => inv.noGap j hj) r
        ((table_noGap inv _).but _) hq hno ⟨0, 0, 0⟩
      exact ⟨st.inv, ⟨st.represents r.val hM, fun _ => absent_of_no_entry hM hno,
        fun h => absurd h hop⟩, fun h => absurd rfl h⟩
  | eexist q md =>
    rw [hl] at hmeans
    obtain ⟨hq, _⟩ := hmeans
    obtain ⟨v0, hv0⟩ := present_of_holds inv hM hq
    simp only [localPutMbuff, hl]
    split
    · exact ⟨inv, hM, fun _ => r⟩
    · rename_i hop
      split
      · have st := setMapping_update inv r hq md
        exact ⟨st.inv, ⟨st.represents r.val hM, fun h => absurd h hop, fun _ => by rw [hv0]; simp⟩,
          fun h => absurd rfl h⟩
      · exact ⟨inv, hM, fun _ => r⟩
  | enospc =>
    rw [hl] at hmeans
    obtain ⟨hn, hno⟩ := hmeans
    obtain ⟨hclean, hkeeps⟩ := hs hl
    rw [localPutMbuff_enospc hl]
    exact putShifted_spec inv r hn hno hclean hkeeps hM

end UDepot.Store
