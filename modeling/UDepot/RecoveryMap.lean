import UDepot.Recovery

/-! What the scan of recovery builds. Of each key the table maps one record, the one that
the order check elects out of the scanned records of the key, in the order of the scan;
and the statistics are those of the mapped records. -/

namespace UDepot
open Bytes Function List

namespace Config

variable {c : Config} {m : Nat → UInt8} {i ts off n g : Nat}

theorem off_lt_of_not_scanStop (h : c.scanStop m i ts off = false) : off < c.dataGrains := by
  simp only [scanStop, Bool.or_eq_false_iff, Bool.not_eq_false'] at h
  exact Nat.lt_of_mul_lt_mul_right (of_decide_eq_true h.1.1)

theorem mem_scanChain (h : g ∈ c.scanChain m i ts n off) :
    ∃ o, off ≤ o ∧ g = i * c.segSize + o ∧ c.scanStop m i ts o = false := by
  induction n generalizing off with
  | zero => cases h
  | succ n ih =>
    simp only [scanChain] at h
    split at h
    · cases h
    · rename_i hs
      rcases mem_cons.mp h with rfl | h
      · exact ⟨off, le_rfl, rfl, by simpa using hs⟩
      · obtain ⟨o, ho, hg, hst⟩ := ih h
        exact ⟨o, by omega, hg, hst⟩

theorem scanChain_in_seg (h : g ∈ c.scanChain m i ts n off) : c.grainToSegIdx g = i := by
  obtain ⟨o, _, rfl, hs⟩ := mem_scanChain h
  have hlt := off_lt_of_not_scanStop hs
  unfold dataGrains at hlt
  apply Nat.div_eq_of_lt_le
  · omega
  · rw [Nat.succ_mul]
    omega

theorem scanChain_sorted (m : Nat → UInt8) (i ts n off : Nat) :
    (c.scanChain m i ts n off).Pairwise (· < ·) := by
  induction n generalizing off with
  | zero => exact List.Pairwise.nil
  | succ n ih =>
    simp only [scanChain]
    split
    · exact List.Pairwise.nil
    · refine List.Pairwise.cons (fun g hg => ?_) (ih _)
      obtain ⟨o, ho, rfl, _⟩ := mem_scanChain hg
      have hpos : 0 < c.recGrains m (i * c.segSize + off) := kvTotGrainsGet_pos _ _
      omega

/-- A record that the scan may map: it has a key, its sizes fit, and it lies in the data
of its segment. -/
structure RecFits (c : Config) (m : Nat → UInt8) (g : Nat) : Prop where
  fit : SizesFit (c.readHeader m g).keySize (c.readHeader m g).valSize
  key_pos : 0 < (c.readHeader m g).keySize
  reach : putKeyvalPrefixSize + (c.readHeader m g).keySize ≤ maxKvSize * c.grainSize
  extent : g + c.recGrains m g ≤ c.grainToSegIdx g * c.segSize + c.dataGrains

end Config

namespace Store
open UDepotMap Directory Config Elect

variable {c : Config}

/-- The order check with what recovery knows: the header on the device and the timestamp
in the metadata of the segment. -/
def newer (s : Store c) (x y : Nat) : Bool :=
  if c.grainToSegIdx x ≠ c.grainToSegIdx y then
    decide ((c.readHeader s.media x).timestamp < (s.kvTs (c.grainToSegIdx y)).getD 0)
  else decide (x < y)

def Points (s : Store c) (P : List UInt8 → Option Nat) : Prop :=
  ∀ k g, P k = some g ↔ ∃ e ∈ s.dir.liveEntries, c.recKey s.media e.pba = k ∧ e.pba = g

variable {s' : Store c} {k : List UInt8} {e : Content} {P : List UInt8 → Option Nat} {s : Store c}

theorem KeyStep.points (st : KeyStep s s' k (some e)) (hP : s.Points P) :
    s'.Points (update P k (some e.pba)) := by
  obtain ⟨rest, old, h1, h2, hrest, hold⟩ := st.split
  have hke := st.key e rfl
  intro k' g
  rw [st.media, h2]
  by_cases hk : k' = k
  · subst hk
    rw [update_self]
    constructor
    · intro hg
      cases hg
      exact ⟨e, by simp, hke, rfl⟩
    · rintro ⟨x, hx, hxk, rfl⟩
      rcases Multiset.mem_add.mp hx with hx | hx
      · exact absurd hxk (hrest x hx)
      · rw [Multiset.mem_singleton.mp hx]
  · rw [update_of_ne hk, hP, h1]
    constructor
    · rintro ⟨x, hx, hxk, hg⟩
      rcases Multiset.mem_add.mp hx with hx | hx
      · exact ⟨x, Multiset.mem_add.mpr (.inl hx), hxk, hg⟩
      · exact absurd (hxk.symm.trans (hold x hx)) hk
    · rintro ⟨x, hx, hxk, hg⟩
      rcases Multiset.mem_add.mp hx with hx | hx
      · exact ⟨x, Multiset.mem_add.mpr (.inl hx), hxk, hg⟩
      · rw [Multiset.mem_singleton.mp hx] at hxk
        exact absurd (hxk.symm.trans hke) hk

/-! ## What the scan leaves alone -/

structure Same (s s' : Store c) : Prop where
  media : s'.media = s.media
  segTs : s'.segTs = s.segTs
  segMd : s'.segMd = s.segMd
  state : ∀ i, (s'.seg i).state = (s.seg i).state
  nr3 : ∀ i, (s'.seg i).nr3 = (s.seg i).nr3

namespace Same

variable {s s1 s2 : Store c}

theorem refl (s : Store c) : Same s s := ⟨rfl, rfl, rfl, fun _ => rfl, fun _ => rfl⟩

theorem trans (h : Same s s1) (h' : Same s1 s2) : Same s s2 :=
  ⟨h'.media.trans h.media, h'.segTs.trans h.segTs, h'.segMd.trans h.segMd,
    fun i => (h'.state i).trans (h.state i), fun i => (h'.nr3 i).trans (h.nr3 i)⟩

theorem kvTs (h : Same s s1) (i : Nat) : s1.kvTs i = s.kvTs i := by
  unfold Store.kvTs
  rw [h.segMd]

theorem ready (h : Same s s1) {k v : List UInt8} {g : Nat} (r : Ready s k v g) : Ready s1 k v g :=
  r.congr h.media (fun i hf => by rwa [h.state] at hf) fun i _ => (h.nr3 i).ge

end Same

theorem invalidateGrains_same (s : Store c) (g len : Nat) : Same s (s.invalidateGrains g len) :=
  ⟨rfl, rfl, rfl, invalidateGrains_state s g len, invalidateGrains_nr3 s g len⟩

theorem setMapping_same (s : Store c) (h q : Nat) (update : Bool) (kl vl pba : Nat)
    (md : StoreHeader) : Same s (s.setMapping h q update kl vl pba md) := by
  unfold setMapping
  dsimp only
  have hs := invalidateGrains_same s ((s.table h).ht q).pba (c.kvTotGrainsGet md.keySize md.valSize)
  split
  · exact ⟨rfl, rfl, rfl, hs.state, hs.nr3⟩
  · split
    · exact ⟨rfl, rfl, rfl, hs.state, hs.nr3⟩
    · exact ⟨rfl, rfl, rfl, fun _ => rfl, fun _ => rfl⟩

/-! ## Statistics -/

/-- The statistics of a map that points at these records. -/
def statsOf (c : Config) (m : Nat → UInt8) (gs : Multiset Nat) : KvStats where
  keyNr := gs.card
  usedBytes := (gs.map fun g => (kvRawBytesGet (c.readHeader m g).keySize
    (c.readHeader m g).valSize : Int)).sum
  totalBytes := (gs.map fun g => (kvTotBytesGet c (c.readHeader m g).keySize
    (c.readHeader m g).valSize : Int)).sum

theorem statsOf_add {m : Nat → UInt8} (rest : Multiset Nat) (g : Nat)
    (hs : s.stats = statsOf c m rest) :
    (s.kvAdded (c.readHeader m g).keySize (c.readHeader m g).valSize).stats =
      statsOf c m (rest + {g}) := by
  simp [kvAdded, hs, statsOf]

theorem statsOf_remove {m : Nat → UInt8} (rest : Multiset Nat) (g : Nat)
    (hs : s.stats = statsOf c m (rest + {g})) :
    (s.kvRemoved (c.readHeader m g).keySize (c.readHeader m g).valSize).stats =
      statsOf c m rest := by
  simp [kvRemoved, hs, statsOf]

def records (s : Store c) : Multiset Nat := s.dir.liveEntries.map (·.pba)

/-! ## One restore -/

@[simp] theorem recKey_length (m : Nat → UInt8) (g : Nat) :
    (c.recKey m g).length = (c.readHeader m g).keySize :=
  read_length _ _ _

@[simp] theorem recVal_length (m : Nat → UInt8) (g : Nat) :
    (c.recVal m g).length = (c.readHeader m g).valSize :=
  read_length _ _ _

/-- What one restore does: the record becomes that of its key, which had none or an older
one, or else it is given up for a newer one. -/
inductive Restored (s : Store c) (g : Nat) : Store c → RestoreRc → Prop
  | fresh {s' : Store c} (st : MapStep s s' (c.recKey s.media g) g) (same : Same s s')
      (no : ∀ e ∈ s.dir.liveEntries, c.recKey s.media e.pba ≠ c.recKey s.media g)
      (stats : s'.stats = (s.kvAdded (c.readHeader s.media g).keySize
        (c.readHeader s.media g).valSize).stats) : Restored s g s' .ok
  | newer {s' : Store c} {e : Content} (st : MapStep s s' (c.recKey s.media g) g)
      (same : Same s s') (mem : e ∈ s.dir.liveEntries)
      (key : c.recKey s.media e.pba = c.recKey s.media g)
      (order : s.isPbaOrderEqualToTotalOrder e.pba g (c.readHeader s.media e.pba) = true)
      (stats : s'.stats = ((s.kvRemoved (c.readHeader s.media e.pba).keySize
        (c.readHeader s.media e.pba).valSize).kvAdded (c.readHeader s.media g).keySize
        (c.readHeader s.media g).valSize).stats) : Restored s g s' .ok
  | older {e : Content} {len : Nat} (mem : e ∈ s.dir.liveEntries)
      (key : c.recKey s.media e.pba = c.recKey s.media g)
      (order : s.isPbaOrderEqualToTotalOrder e.pba g (c.readHeader s.media e.pba) = false) :
      Restored s g (s.invalidateGrains g len) .eexist

theorem setMapping_insert_stats (s : Store c) (h q kl vl pba : Nat) (md : StoreHeader) :
    (s.setMapping h q false kl vl pba md).stats = (s.kvAdded kl vl).stats := by
  simp only [setMapping, Bool.false_eq_true, ↓reduceIte]
  split
  · rfl
  · rfl

theorem tryRestoreEntry_restored (inv : s.Inv) {g : Nat} {allocs : List TableAlloc}
    {rc : RestoreRc} (hr : Ready s (c.recKey s.media g) (c.recVal s.media g) g)
    (hs : s.ShiftOk (c.recKey s.media g) .normal) (h : s.tryRestoreEntry g allocs = (s', rc))
    (hrc : rc = .ok ∨ rc = .eexist) : Restored s g s' rc := by
  have hmeans := lookupMbuffPut_means inv (c.recKey s.media g)
  revert h
  fun_cases tryRestoreEntry s g allocs with
  | case1 md k h' hl t q ht =>
    subst md k h'
    rintro ⟨⟩
    rw [hl] at hmeans
    obtain ⟨hclean, hkeeps⟩ := hs hl
    have st := shift_mapStep inv hr hmeans.1 hmeans.2 hclean hkeeps ht
    rw [recKey_length, recVal_length] at st
    have hsame : Same s (s.setTable (c.hash (c.recKey s.media g)) t) :=
      ⟨rfl, rfl, rfl, fun _ => rfl, fun _ => rfl⟩
    exact .fresh st (hsame.trans (setMapping_same ..)) hmeans.2 (setMapping_insert_stats ..)
  | case2 | case3 =>
    rintro ⟨⟩
    rcases hrc with h | h <;> cases h
  | case4 md k h' q hl =>
    subst md k h'
    rintro ⟨⟩
    rw [hl] at hmeans
    have st := setMapping_insert inv.toBase (fun j hj _ => inv.noGap j hj) hr
      ((table_noGap inv _).but _) hmeans.1 hmeans.2 ⟨0, 0, 0⟩
    rw [recKey_length, recVal_length] at st
    exact .fresh st (setMapping_same ..) hmeans.2 (setMapping_insert_stats ..)
  | case5 md k h' q old hl ho =>
    subst md k h'
    rintro ⟨⟩
    rw [hl] at hmeans
    obtain ⟨hq, rfl⟩ := hmeans
    have st := setMapping_update inv hr hq
      (c.readHeader s.media ((s.table (c.hash (c.recKey s.media g))).ht q).pba)
    rw [recKey_length, recVal_length] at st
    exact .newer st (setMapping_same ..) (match_mem inv hq.isMatch) hq.key ho rfl
  | case6 md k h' q old hl ho =>
    subst md k h'
    rintro ⟨⟩
    rw [hl] at hmeans
    obtain ⟨hq, rfl⟩ := hmeans
    exact .older (match_mem inv hq.isMatch) hq.key (eq_false_of_ne_true ho)

/-! ## The entries of a key -/

theorem KeyStep.of_absent (st : KeyStep s s' k (some e))
    (hno : ∀ x ∈ s.dir.liveEntries, c.recKey s.media x.pba ≠ k) :
    s'.dir.liveEntries = s.dir.liveEntries + {e} := by
  obtain ⟨rest, old, h1, h2, _, hold⟩ := st.split
  have hz : old = 0 := Multiset.eq_zero_of_forall_notMem fun x hx =>
    hno x (by rw [h1]; exact Multiset.mem_add.mpr (.inr hx)) (hold x hx)
  rw [h2, h1, hz, add_zero]

theorem KeyStep.of_present {x : Content} (st : KeyStep s s' k (some e))
    (base : s.Base) (hx : x ∈ s.dir.liveEntries) (hk : c.recKey s.media x.pba = k) :
    ∃ rest, s.dir.liveEntries = rest + {x} ∧ s'.dir.liveEntries = rest + {e} := by
  obtain ⟨rest, old, h1, h2, hrest, hold⟩ := st.split
  have hxo : x ∈ old := by
    rw [h1, Multiset.mem_add] at hx
    exact hx.resolve_left fun h => hrest x h hk
  obtain ⟨more, rfl⟩ := Multiset.exists_cons_of_mem hxo
  have hz : more = 0 := Multiset.eq_zero_of_forall_notMem fun y hy => by
    have hnd := base.keys
    rw [h1, Multiset.map_add, Multiset.nodup_add, Multiset.map_cons, Multiset.nodup_cons] at hnd
    apply hnd.2.1.1
    rw [Multiset.mem_map]
    exact ⟨y, hy, (hold y (Multiset.mem_cons_of_mem hy)).trans hk.symm⟩
  exact ⟨rest, by rw [h1, hz]; rfl, h2⟩

/-! ## The scan -/

/-- The record of `k` that the order check elects out of the addresses `gs`. -/
def elected (s : Store c) (gs : List Nat) (k : List UInt8) : Option Nat :=
  elect s.newer none (gs.filter fun g => c.recKey s.media g = k)

theorem elected_concat (s : Store c) (gs : List Nat) (g : Nat) :
    s.elected (gs ++ [g]) = update (s.elected gs) (c.recKey s.media g)
      (vote s.newer (s.elected gs (c.recKey s.media g)) g) := by
  funext k
  unfold elected
  by_cases hk : k = c.recKey s.media g
  · subst hk
    simp [elect_append]
  · rw [update_of_ne hk]
    simp [Ne.symm hk]

/-- The store after the records at `gs` were scanned from `s0`. -/
structure ScanInv (s0 : Store c) (gs : List Nat) (x : Recovery c) : Prop where
  inv : x.store.Inv
  same : Same s0 x.store
  points : x.store.Points (s0.elected gs)
  live : ∀ e ∈ x.store.dir.entries, e.deleted = false
  stats : x.store.stats = statsOf c s0.media x.store.records
  tombs : ∀ t ∈ x.tombstones, t.pba ∈ gs ∧ (c.readHeader s0.media t.pba).valSize = 0 ∧
    t.h = s0.keyHash t.pba ∧ t.keySize = (c.readHeader s0.media t.pba).keySize
  nodup : (x.tombstones.map (·.pba)).Nodup
  filed : ∀ e ∈ x.store.dir.liveEntries, (c.readHeader s0.media e.pba).valSize = 0 →
    e.pba ∈ x.tombstones.map (·.pba)

/-- The timestamp of a segment in memory is that of its metadata. -/
def StampRestored (s : Store c) (i : Nat) : Prop := s.segTs i = (s.kvTs i).getD 0

theorem order_eq_newer {s0 s : Store c} (h : Same s0 s) (x : Nat) {y : Nat}
    (hts : s0.StampRestored (c.grainToSegIdx y)) :
    s.isPbaOrderEqualToTotalOrder x y (c.readHeader s.media x) = s0.newer x y := by
  unfold isPbaOrderEqualToTotalOrder newer
  rw [h.segTs, h.media, hts]

theorem Points.of_live (hP : s.Points P) (he : e ∈ s.dir.liveEntries)
    (hk : c.recKey s.media e.pba = k) : P k = some e.pba :=
  (hP k e.pba).mpr ⟨e, he, hk, rfl⟩

theorem Points.of_absent (hP : s.Points P)
    (hno : ∀ e ∈ s.dir.liveEntries, c.recKey s.media e.pba ≠ k) : P k = none := by
  cases hk : P k with
  | none => rfl
  | some g =>
    obtain ⟨e, he, hek, _⟩ := (hP k g).mp hk
    exact absurd hek (hno e he)

section Step

variable {s0 : Store c} {gs : List Nat} {x : Recovery c} {g : Nat}

/-- The record at `g` is mapped; `old` are the entries of its key. -/
theorem ScanInv.mapped (hx : ScanInv s0 gs x) {s' : Store c} {e : Content} {rest : Multiset Content}
    {k : List UInt8} (hk : c.recKey s0.media g = k) (hg : g ∉ gs) (hinv : s'.Inv)
    (hsame : Same x.store s')
    (htomb : ∀ y ∈ s'.dir.entries, y.deleted = true → y ∈ x.store.dir.entries) (hp : e.pba = g)
    (ks : KeyStep x.store s' k (some e)) (hvote : vote s0.newer (s0.elected gs k) g = some g)
    (hsub : ∀ y ∈ rest, y ∈ x.store.dir.liveEntries) (hlive : s'.dir.liveEntries = rest + {e})
    (hstats : s'.stats = statsOf c s0.media s'.records) :
    ScanInv s0 (gs ++ [g]) { x with
      store := s'
      tombstones :=
        if (c.readHeader x.store.media g).valSize = 0 then
          ⟨g, c.hash (c.recKey x.store.media g), (c.readHeader x.store.media g).keySize⟩ ::
            x.tombstones
        else x.tombstones } := by
  rw [hx.same.media]
  refine ⟨hinv, hx.same.trans hsame, ?_, fun y hy => ?_, hstats, fun t ht => ?_, ?_,
    fun y hy h0 => ?_⟩
  · rw [elected_concat, hk, hvote, ← hp]
    exact ks.points hx.points
  · cases hd : y.deleted with
    | false => rfl
    | true =>
      have := hx.live y (htomb y hy hd)
      rwa [hd] at this
  · have hold : ∀ u ∈ x.tombstones, u.pba ∈ gs ++ [g] ∧
        (c.readHeader s0.media u.pba).valSize = 0 ∧ u.h = s0.keyHash u.pba ∧
        u.keySize = (c.readHeader s0.media u.pba).keySize := fun u hu => by
      obtain ⟨h1, h2⟩ := hx.tombs u hu
      exact ⟨by simp [h1], h2⟩
    dsimp only at ht
    split at ht
    · rename_i h0
      rcases mem_cons.mp ht with rfl | ht
      · exact ⟨by simp, h0, rfl, rfl⟩
      · exact hold t ht
    · exact hold t ht
  · dsimp only
    split
    · rw [map_cons, nodup_cons]
      refine ⟨fun hm => ?_, hx.nodup⟩
      obtain ⟨t, ht, htg⟩ := mem_map.mp hm
      dsimp only at htg
      rw [← htg] at hg
      exact hg (hx.tombs t ht).1
    · exact hx.nodup
  · dsimp only at hy ⊢
    rw [hlive, Multiset.mem_add, Multiset.mem_singleton] at hy
    rcases hy with hy | rfl
    · have hf := hx.filed y (hsub y hy) h0
      split
      · exact mem_cons_of_mem _ hf
      · exact hf
    · rw [hp] at h0 ⊢
      rw [if_pos h0]
      exact mem_cons_self

theorem restoreRecord_scanInv (hx : ScanInv s0 gs x) (hg : g ∉ gs)
    (hts : s0.StampRestored (c.grainToSegIdx g))
    (hr : Ready s0 (c.recKey s0.media g) (c.recVal s0.media g) g)
    (hs : x.store.ShiftOk (c.recKey s0.media g) .normal) {allocs : List TableAlloc} {y : Recovery c}
    (h : x.restoreRecord g allocs = .ok y) : ScanInv s0 (gs ++ [g]) y := by
  have hm := hx.same.media
  have hr' : Ready x.store (c.recKey x.store.media g) (c.recVal x.store.media g) g := by
    rw [hm]
    exact hx.same.ready hr
  unfold Recovery.restoreRecord at h
  cases ht : x.store.tryRestoreEntry g allocs with
  | mk s' rc =>
    rw [ht] at h
    have hres := tryRestoreEntry_restored hx.inv hr' (by rwa [hm]) ht
    cases rc with
    | enospc | nullTrgt => cases h
    | ok =>
      cases h
      cases hres (.inl rfl) with
      | fresh st same no stats =>
        obtain ⟨e, hp, ks⟩ := st.key
        have hl := ks.of_absent no
        refine hx.mapped (by rw [hm]) hg st.inv same st.tombs hp ks ?_ (fun _ h => h) hl ?_
        · rw [hx.points.of_absent no]
          rfl
        · have := statsOf_add (m := s0.media) _ g hx.stats
          rw [stats, hm, this, records, records, hl, Multiset.map_add, Multiset.map_singleton, hp]
      | newer st same mem key order stats =>
        obtain ⟨e, hp, ks⟩ := st.key
        obtain ⟨rest, h1, h2⟩ := ks.of_present hx.inv.toBase mem key
        refine hx.mapped (by rw [hm]) hg st.inv same st.tombs hp ks ?_ (fun y hy => ?_) h2 ?_
        · rw [hx.points.of_live mem key]
          rw [order_eq_newer hx.same _ hts] at order
          simp [vote, order]
        · rw [h1]
          exact Multiset.mem_add.mpr (.inl hy)
        · have hrm := statsOf_remove (m := s0.media) (rest.map (·.pba)) _ (s := x.store) (by
            rw [hx.stats, records, h1, Multiset.map_add, Multiset.map_singleton])
          have := statsOf_add (m := s0.media) _ g hrm
          rw [stats, hm, this, records, h2, Multiset.map_add, Multiset.map_singleton, hp]
    | eexist =>
      cases h
      cases hres (.inr rfl) with
      | older mem key order =>
        have hf := invalidateGrains_frame hx.inv.toBase g ‹Nat›
        refine ⟨hf.inv hx.inv, hx.same.trans (invalidateGrains_same _ _ _), ?_, hx.live, hx.stats,
          fun t ht => ?_, hx.nodup, hx.filed⟩
        · have hv : vote s0.newer (s0.elected gs (c.recKey s0.media g)) g =
              s0.elected gs (c.recKey s0.media g) := by
            rw [order_eq_newer hx.same _ hts] at order
            rw [← hm, hx.points.of_live mem key]
            simp [vote, order]
          rw [elected_concat, hv, update_eq_self]
          exact hx.points
        · obtain ⟨h1, h2⟩ := hx.tombs t ht
          exact ⟨by simp [h1], h2⟩

theorem ScanInv.invalidate (hx : ScanInv s0 gs x) (grain len maxNr nr : Nat) :
    ScanInv s0 gs ⟨x.store.invalidateGrains grain len, x.tombstones, maxNr, nr⟩ := by
  have hf := invalidateGrains_frame hx.inv.toBase grain len
  exact ⟨hf.inv hx.inv, hx.same.trans (invalidateGrains_same _ _ _), hx.points, hx.live, hx.stats,
    hx.tombs, hx.nodup, hx.filed⟩

theorem closeSegment_scanInv (hx : ScanInv s0 gs x) (i ts off : Nat) :
    ScanInv s0 gs (x.closeSegment i ts off) := by
  unfold Recovery.closeSegment
  split
  · exact hx.invalidate _ _ _ _
  · exact ⟨hx.inv, hx.same, hx.points, hx.live, hx.stats, hx.tombs, hx.nodup, hx.filed⟩

end Step

/-! ## What holds before each restore of a scan -/

namespace Recovery

/-- `P` holds of the store and the record before each restore of the loop. -/
def eachRestore (P : Store c → Nat → Bool) (i ts : Nat) (allocs : Nat → List TableAlloc) :
    Nat → Nat → Recovery c → Bool
  | 0, _, _ => true
  | n + 1, off, x =>
    let g := i * c.segSize + off
    c.scanStop x.store.media i ts off ||
      (P x.store g &&
        match x.restoreRecord g (allocs g) with
        | .error _ => true
        | .ok y => eachRestore P i ts allocs n (off + c.recGrains x.store.media g) y)

def eachInSegment (P : Store c → Nat → Bool) (allocs : Nat → List TableAlloc) (x : Recovery c)
    (i : Nat) : Bool :=
  match x.store.kvTs i with
  | none => true
  | some ts => x.eachRestore P i ts allocs c.segSize 0

def eachInAll (P : Store c → Nat → Bool) (allocs : Nat → List TableAlloc) :
    List Nat → Recovery c → Bool
  | [], _ => true
  | i :: rest, x =>
    x.eachInSegment P allocs i &&
      match x.recoverSegment allocs i with
      | .error _ => true
      | .ok y => eachInAll P allocs rest y

end Recovery

/-- `P` holds before each restore of the recovery of `s`. -/
def recoverEach (P : Store c → Nat → Bool) (s : Store c) (order : List Nat) (i : Nat)
    (allocs : Nat → List TableAlloc) : Bool :=
  match (blank c s.media s.segMd).prepCrashRecovery with
  | .error _ => true
  | .ok s1 =>
    match s1.firstGrow i with
    | none => true
    | some s2 => Recovery.eachInAll P allocs order ⟨s2, [], 0, 0⟩

instance (s : Store c) (k : List UInt8) (op : PutOp) : Decidable (s.ShiftOk k op) :=
  inferInstanceAs (Decidable (_ → _ ∧ _))

/-- The restore of the record at `g` shifts no entry in a way that hides one. -/
def shiftFits (s : Store c) (g : Nat) : Bool := decide (s.ShiftOk (c.recKey s.media g) .normal)

/-- The recovery of `s` shifts no entry in a way that hides one. -/
def recoverShiftsOk (s : Store c) (order : List Nat) (i : Nat) (allocs : Nat → List TableAlloc) :
    Bool :=
  s.recoverEach shiftFits order i allocs

/-! ## The loops -/

section Loops

variable {s0 : Store c} {gs : List Nat} {allocs : Nat → List TableAlloc}

structure Restorable (s0 : Store c) (g : Nat) : Prop where
  ready : Ready s0 (c.recKey s0.media g) (c.recVal s0.media g) g
  stamp : s0.StampRestored (c.grainToSegIdx g)

/-- A check before a restore tells the same as `Q gs [g]`, with the records `gs` restored before
that at `g`, and `Q` is a check of one record after the other. -/
structure Along (s0 : Store c) (P : Store c → Nat → Bool) (Q : List Nat → List Nat → Prop) :
    Prop where
  nil : ∀ gs, Q gs []
  append : ∀ gs xs ys, Q gs (xs ++ ys) ↔ Q gs xs ∧ Q (gs ++ xs) ys
  one : ∀ gs x g, ScanInv s0 gs x → s0.Restorable g → (P x.store g = true ↔ Q gs [g])

variable {y : Recovery c}

theorem restoreLoop_scanInv {i ts n off off' : Nat} {rc : Option RecoverErr} {x : Recovery c}
    (hx : ScanInv s0 gs x) (hnew : ∀ g ∈ c.scanChain s0.media i ts n off, g ∉ gs)
    (hrec : ∀ g ∈ c.scanChain s0.media i ts n off, s0.Restorable g)
    (hok : x.eachRestore shiftFits i ts allocs n off = true)
    (h : x.restoreLoop i ts allocs n off rc = .ok (y, off')) :
    ScanInv s0 (gs ++ c.scanChain s0.media i ts n off) y ∧ ∀ {P Q}, Along s0 P Q →
      (x.eachRestore P i ts allocs n off = true ↔ Q gs (c.scanChain s0.media i ts n off)) := by
  fun_induction Recovery.restoreLoop i ts allocs n off rc x generalizing gs with
  | case1 off x =>
    cases h
    exact ⟨by simpa [scanChain] using hx, fun ha => by
      simp [Recovery.eachRestore, scanChain, ha.nil]⟩
  | case3 n off x hstop =>
    cases h
    have hstop' := hstop
    rw [hx.same.media] at hstop'
    exact ⟨by simpa [scanChain, hstop'] using hx, fun ha => by
      simp [Recovery.eachRestore, scanChain, hstop, hstop', ha.nil]⟩
  | case6 n off rc x g hstop z hz =>
    rename_i ih
    subst g
    simp only [Recovery.eachRestore, hstop, hz, Bool.false_or, Bool.and_eq_true, shiftFits,
      decide_eq_true_eq] at hok ⊢
    have hsorted := scanChain_sorted (c := c) s0.media i ts (n + 1) off
    rw [hx.same.media] at hstop hok ih h ⊢
    simp only [scanChain, hstop, Bool.false_eq_true, ↓reduceIte] at hnew hrec hsorted ⊢
    obtain ⟨hfirst, _⟩ := pairwise_cons.mp hsorted
    have hr := hrec _ mem_cons_self
    have hz := restoreRecord_scanInv hx (hnew _ mem_cons_self) hr.stamp hr.ready hok.1 hz
    obtain ⟨hy, hiff⟩ := ih hz (fun g hg hmem => (mem_append.mp hmem).elim
      (hnew g (mem_cons_of_mem _ hg))
      (fun hg' => (Nat.ne_of_gt (hfirst g hg)) (mem_singleton.mp hg')))
      (fun g hg => hrec g (mem_cons_of_mem _ hg)) hok.2 h
    refine ⟨by simpa using hy, fun ha => ?_⟩
    rw [← singleton_append, ha.append, ha.one _ _ _ hx hr]
    exact and_congr_right fun _ => hiff ha
  | _ => cases h

theorem scanned_in_seg {i g : Nat} (hg : g ∈ s.scanned i) : c.grainToSegIdx g = i := by
  unfold scanned at hg
  cases hk : s.kvTs i with
  | none => simp [hk] at hg
  | some ts =>
    rw [hk] at hg
    exact scanChain_in_seg hg

theorem recoverSegment_scanInv {i : Nat} {x : Recovery c} (hx : ScanInv s0 gs x)
    (hnew : ∀ g ∈ s0.scanned i, g ∉ gs) (hrec : ∀ g ∈ s0.scanned i, s0.Restorable g)
    (hok : x.eachInSegment shiftFits allocs i = true)
    (h : x.recoverSegment allocs i = .ok y) :
    ScanInv s0 (gs ++ s0.scanned i) y ∧ ∀ {P Q}, Along s0 P Q →
      (x.eachInSegment P allocs i = true ↔ Q gs (s0.scanned i)) := by
  unfold Recovery.recoverSegment at h
  unfold Recovery.eachInSegment at hok ⊢
  unfold scanned at hnew hrec ⊢
  rw [hx.same.kvTs] at h hok ⊢
  cases hk : s0.kvTs i with
  | none =>
    rw [hk] at h
    cases h
    exact ⟨by simpa using hx, fun ha => by simp [ha.nil]⟩
  | some ts =>
    rw [hk] at h hok hnew hrec
    dsimp only at h hok hnew hrec ⊢
    cases hl : x.restoreLoop i ts allocs c.segSize 0 (some .enoent) with
    | error e => simp [hl] at h
    | ok z =>
      rw [hl] at h
      cases h
      obtain ⟨hz, hiff⟩ := restoreLoop_scanInv hx hnew hrec hok hl
      exact ⟨closeSegment_scanInv hz _ _ _, hiff⟩

theorem scanned_new {order done : List Nat} {i : Nat} (hnd : (done ++ i :: order).Nodup) :
    ∀ g ∈ s0.scanned i, g ∉ done.flatMap s0.scanned := by
  intro g hg hm
  obtain ⟨j, hj, hgj⟩ := mem_flatMap.mp hm
  have hij : j = i := (scanned_in_seg hgj).symm.trans (scanned_in_seg hg)
  exact (nodup_append.mp hnd).2.2 j hj i mem_cons_self hij

theorem recoverSegments_scanInv {order done : List Nat} {x : Recovery c}
    (hx : ScanInv s0 (done.flatMap s0.scanned) x) (hnd : (done ++ order).Nodup)
    (hrec : ∀ i ∈ order, ∀ g ∈ s0.scanned i, s0.Restorable g)
    (hok : Recovery.eachInAll shiftFits allocs order x = true)
    (h : Recovery.recoverSegments allocs order x = .ok y) :
    ScanInv s0 ((done ++ order).flatMap s0.scanned) y ∧ ∀ {P Q}, Along s0 P Q →
      (Recovery.eachInAll P allocs order x = true ↔
        Q (done.flatMap s0.scanned) (order.flatMap s0.scanned)) := by
  fun_induction Recovery.recoverSegments allocs order x generalizing done with
  | case1 x =>
    cases h
    exact ⟨by simpa using hx, fun ha => by simp [Recovery.eachInAll, ha.nil]⟩
  | case2 => cases h
  | case3 i order x z hseg ih =>
    simp only [Recovery.eachInAll, hseg, Bool.and_eq_true] at hok ⊢
    obtain ⟨hz, hseg⟩ :=
      recoverSegment_scanInv hx (scanned_new hnd) (hrec i mem_cons_self) hok.1 hseg
    have hz' : ScanInv s0 ((done ++ [i]).flatMap s0.scanned) z := by
      simpa [flatMap_append] using hz
    obtain ⟨hy, hrest⟩ := ih hz' (by simpa using hnd) (fun j hj => hrec j (mem_cons_of_mem _ hj))
      hok.2 h
    refine ⟨by simpa using hy, fun ha => ?_⟩
    have hiff := hrest ha
    rw [flatMap_append, flatMap_cons, flatMap_nil, append_nil] at hiff
    rw [flatMap_cons, ha.append, hseg ha, hiff]

end Loops

end Store
end UDepot
