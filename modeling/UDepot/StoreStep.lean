import UDepot.StoreLookup

/-! Steps that leave the directory alone: allocation, writes to grains just
handed out, invalidation and the release of a segment nothing points into. Each
is an instance of one frame rule. -/

namespace UDepot.Store
open Bytes UDepotMap Directory Config Multiset

variable {c : Config}

/-- `s'` keeps the records that the entries of `s` point at. -/
structure Frame (s s' : Store c) : Prop where
  dir : s'.dir = s.dir
  header : ∀ e ∈ s.dir.entries, c.readHeader s'.media e.pba = c.readHeader s.media e.pba
  key : ∀ e ∈ s.dir.entries, c.recKey s'.media e.pba = c.recKey s.media e.pba
  val : ∀ e ∈ s.dir.entries, c.recVal s'.media e.pba = c.recVal s.media e.pba
  used : ∀ e ∈ s.dir.entries, (s'.seg (c.grainToSegIdx e.pba)).state ≠ .free
  nr3 : ∀ e ∈ s.dir.entries,
    (s.seg (c.grainToSegIdx e.pba)).nr3 ≤ (s'.seg (c.grainToSegIdx e.pba)).nr3
  segs : ∀ i, (s'.seg i).state ≠ .free → s'.SegOk i

namespace Frame

variable {s s' : Store c}

theorem handedOut_le (f : Frame s s') {e : Content} (he : e ∈ s.dir.entries) :
    s.handedOut (c.grainToSegIdx e.pba) ≤ s'.handedOut (c.grainToSegIdx e.pba) := by
  have := f.nr3 e he
  unfold handedOut
  omega

theorem recAt (f : Frame s s') (inv : s.Base) {e : Content} (he : e ∈ s.dir.entries) :
    s'.RecAt e := by
  have h := inv.recs e he
  have hh := f.header e he
  refine ⟨?_, ?_, ?_, f.used e he, ?_⟩
  · rw [hh]
    exact h.fit
  · rw [hh]
    exact h.key_pos
  · rw [hh]
    exact h.reach
  · have hg : c.recGrains s'.media e.pba = c.recGrains s.media e.pba := by
      unfold recGrains
      rw [hh]
    rw [hg]
    exact h.extent.trans (f.handedOut_le he)

theorem placed (f : Frame s s') (inv : s.Base) : s'.dir.Placed s'.keyHash := by
  intro i hi q hq hu
  rw [f.dir] at hi hu ⊢
  have hp := inv.placed i hi q hq hu
  have hk : s'.keyHash ((s.dir.map i).ht q).pba = s.keyHash ((s.dir.map i).ht q).pba := by
    have hkey := f.key _ (mem_entries.mpr ⟨i, q, hi, hq, hu, rfl⟩)
    exact congrArg c.hash hkey
  refine ⟨hp.slot, ?_, ?_⟩
  · rw [hk]
    exact hp.keyfp
  · rw [hk]
    exact hp.table

theorem base (f : Frame s s') (inv : s.Base) : s'.Base := by
  refine ⟨inv.bits_le, ?_, ?_, f.placed inv, ?_, ?_, f.segs⟩
  · rw [f.dir]
    exact inv.width
  · rw [f.dir]
    exact inv.wf
  · rw [f.dir]
    exact fun e he => f.recAt inv he
  · have hkeys : (s.dir.liveEntries.map fun e => c.recKey s'.media e.pba) =
        s.dir.liveEntries.map fun e => c.recKey s.media e.pba :=
      map_congr rfl fun e he => f.key e (mem_of_mem_filter he)
    rw [f.dir, hkeys]
    exact inv.keys

theorem inv (f : Frame s s') (inv : s.Inv) : s'.Inv := by
  refine ⟨f.base inv.toBase, ?_⟩
  rw [f.dir]
  exact inv.noGap

theorem represents (f : Frame s s') {M : List UInt8 → Option (List UInt8)} (hM : s.Represents M) :
    s'.Represents M := by
  intro k v
  rw [hM, f.dir]
  constructor
  · rintro ⟨e, he, hk, hv⟩
    have hm := mem_of_mem_filter he
    exact ⟨e, he, (f.key e hm).trans hk, (f.val e hm).trans hv⟩
  · rintro ⟨e, he, hk, hv⟩
    have hm := mem_of_mem_filter he
    exact ⟨e, he, (f.key e hm).symm.trans hk, (f.val e hm).symm.trans hv⟩

end Frame

theorem frame_of_seg {s s' : Store c} (inv : s.Base) (hd : s'.dir = s.dir) (hm : s'.media = s.media)
    (hseg : ∀ i, (s'.seg i).state = .free ↔ (s.seg i).state = .free)
    (hnr : ∀ i, (s'.seg i).nr3 = (s.seg i).nr3) : Frame s s' := by
  refine ⟨hd, fun _ _ => by rw [hm], fun _ _ => by rw [hm], fun _ _ => by rw [hm], ?_, ?_, ?_⟩
  · intro e he h
    exact (inv.recs e he).used ((hseg _).mp h)
  · intro e _
    rw [hnr]
  · intro i hi
    have h := inv.segs i fun hf => hi ((hseg i).mpr hf)
    exact ⟨h.lt, by rw [hnr]; exact h.md_le, by rw [hnr]; exact h.le_size⟩

/-! ## The steps -/

theorem invalidateGrains_state (s : Store c) (g len i : Nat) :
    ((s.invalidateGrains g len).seg i).state = (s.seg i).state := by
  by_cases hi : i = c.grainToSegIdx g
  · simp [invalidateGrains, setSeg, hi]
  · simp [invalidateGrains, setSeg, hi]

theorem invalidateGrains_nr3 (s : Store c) (g len i : Nat) :
    ((s.invalidateGrains g len).seg i).nr3 = (s.seg i).nr3 := by
  by_cases hi : i = c.grainToSegIdx g
  · simp [invalidateGrains, setSeg, hi]
  · simp [invalidateGrains, setSeg, hi]

theorem invalidateGrains_frame {s : Store c} (inv : s.Base) (g len : Nat) :
    Frame s (s.invalidateGrains g len) :=
  frame_of_seg inv rfl rfl (fun i => by rw [invalidateGrains_state]) (invalidateGrains_nr3 s g len)

theorem recycleSegment_frame {s : Store c} (inv : s.Base) (j : Nat) :
    Frame s (s.recycleSegment j) := by
  unfold recycleSegment
  dsimp only
  split
  · rename_i hst
    refine frame_of_seg inv rfl rfl (fun i => ?_) fun i => ?_
    · by_cases hi : i = j
      · simp [setSeg, hi, hst]
      · simp [setSeg, hi]
    · by_cases hi : i = j
      · simp [setSeg, hi]
      · simp [setSeg, hi]
  · exact frame_of_seg inv rfl rfl (fun _ => Iff.rfl) fun _ => rfl

theorem alloc_write_frame {s s1 : Store c} (inv : s.Base) {i len g : Nat} {bs : List UInt8}
    (ha : s.allocateGrains i len = some (g, s1)) (hbs : bs.length ≤ len * c.grainSize) :
    Frame s { s1 with media := write s1.media (g * c.grainSize) bs } := by
  obtain ⟨hst, hle, rfl, hd, hm, _, hother, hnr, hfree⟩ := allocateGrains_eq_some ha
  have hi := inv.segs i (by rw [hst]; simp)
  have hw : ∀ e ∈ s.dir.entries, _ := fun e he =>
    write_rec_frame hi hle hbs (inv.segs _ (inv.recs e he).used) (inv.recs e he)
  refine ⟨hd, ?_, ?_, ?_, ?_, ?_, ?_⟩
  · intro e he
    rw [hm]
    exact (hw e he).1
  · intro e he
    rw [hm]
    exact (hw e he).2.1
  · intro e he
    rw [hm]
    exact (hw e he).2.2
  · intro e he
    by_cases hj : c.grainToSegIdx e.pba = i
    · rw [hj]
      exact hfree
    · change (s1.seg _).state ≠ _
      rw [hother _ hj]
      exact (inv.recs e he).used
  · intro e _
    change _ ≤ (s1.seg _).nr3
    by_cases hj : c.grainToSegIdx e.pba = i
    · rw [hj, hnr]
      omega
    · rw [hother _ hj]
  · intro j hj
    have hs := allocateGrains_segs inv.segs ha j hj
    exact ⟨hs.lt, hs.md_le, hs.le_size⟩

theorem Frame.trans {s s1 s2 : Store c} (f : Frame s s1) (g : Frame s1 s2) : Frame s s2 := by
  have hd := f.dir
  refine ⟨g.dir.trans hd, fun e he => ?_, fun e he => ?_, fun e he => ?_, fun e he => ?_,
    fun e he => ?_, g.segs⟩
  · exact (g.header e (by rwa [hd])).trans (f.header e he)
  · exact (g.key e (by rwa [hd])).trans (f.key e he)
  · exact (g.val e (by rwa [hd])).trans (f.val e he)
  · exact g.used e (by rwa [hd])
  · exact (f.nr3 e he).trans (g.nr3 e (by rwa [hd]))

variable {i : Nat}

theorem ioFail_frame {s s' : Store c} (inv : s.Base) {len : Nat} {bs : List UInt8}
    (h : s.ioFail i len bs = some s') : Frame s s' := by
  unfold ioFail at h
  cases ha : s.allocateGrains i len with
  | none => simp [ha] at h
  | some x =>
    obtain ⟨g, s1⟩ := x
    simp only [ha, Option.some.injEq] at h
    subst h
    have hf := @alloc_write_frame c s s1 inv i len g (bs.take (len * c.grainSize)) ha (by simp)
    exact hf.trans (invalidateGrains_frame (hf.base inv) g len)

@[simp] theorem segMdCallback_dir (s : Store c) (i : Nat) (y : SalsaType) :
    (s.segMdCallback i y).dir = s.dir := by cases y <;> rfl

@[simp] theorem segMdCallback_media (s : Store c) (i : Nat) (y : SalsaType) :
    (s.segMdCallback i y).media = s.media := by cases y <;> rfl

@[simp] theorem segMdCallback_seg (s : Store c) (i : Nat) (y : SalsaType) :
    (s.segMdCallback i y).seg = s.seg := by cases y <;> rfl

theorem allocateSegment_eq_some {s s' : Store c} {y : SalsaType}
    (h : s.allocateSegment i y = some s') :
    i < c.segNr ∧ (s.seg i).state = .free ∧ s'.dir = s.dir ∧ s'.media = s.media ∧
      s'.seg = Function.update s.seg i ⟨.staged, c.segMdSize, (s.seg i).validNr - c.segMdSize⟩ := by
  unfold allocateSegment at h
  split at h
  · rename_i hc
    cases h
    exact ⟨hc.1, hc.2, by simp [setSeg], by simp [setSeg], by simp [setSeg]⟩
  · cases h

theorem allocateSegment_frame {s s' : Store c} (inv : s.Base) {y : SalsaType}
    (h : s.allocateSegment i y = some s') : Frame s s' := by
  obtain ⟨hi, hfree, hd, hm, hseg⟩ := allocateSegment_eq_some h
  have hne : ∀ e ∈ s.dir.entries, c.grainToSegIdx e.pba ≠ i := by
    rintro e he rfl
    exact (inv.recs e he).used hfree
  refine ⟨hd, fun _ _ => by rw [hm], fun _ _ => by rw [hm], fun _ _ => by rw [hm], ?_, ?_, ?_⟩
  · intro e he
    simpa [hseg, hne e he] using (inv.recs e he).used
  · intro e he
    simp [hseg, hne e he]
  · intro j hj
    by_cases hji : j = i
    · subst hji
      exact ⟨hi, by simp [hseg], by simpa [hseg] using c.md_lt.le⟩
    · have h := inv.segs j (by simpa [hseg, hji] using hj)
      exact ⟨h.lt, by simpa [hseg, hji] using h.md_le, by simpa [hseg, hji] using h.le_size⟩

/-- The release of a segment that no entry points into. -/
theorem putFreeSeg_frame {s s' : Store c} (inv : s.Base)
    (hno : ∀ e ∈ s.dir.entries, c.grainToSegIdx e.pba ≠ i) (h : s.putFreeSeg i = some s') :
    Frame s s' := by
  unfold putFreeSeg at h
  split at h
  · cases h
    refine ⟨rfl, fun _ _ => rfl, fun _ _ => rfl, fun _ _ => rfl, ?_, ?_, ?_⟩
    · intro e he
      simpa [setSeg, hno e he] using (inv.recs e he).used
    · intro e he
      simp [setSeg, hno e he]
    · intro j hj
      by_cases hji : j = i
      · simp [setSeg, hji] at hj
      · have h := inv.segs j (by simpa [setSeg, hji] using hj)
        exact ⟨h.lt, by simpa [setSeg, hji] using h.md_le, by simpa [setSeg, hji] using h.le_size⟩
  · cases h

end UDepot.Store
