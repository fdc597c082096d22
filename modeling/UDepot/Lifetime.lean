import UDepot.RestartTrip
import UDepot.RecoveryDeleted

/-! The store over its lifetimes: requests and calls of the collector, clean restarts, and
recoveries after a crash, in any order. -/

namespace UDepot.Store
open UDepotMap Directory Config Relation List

variable {c : Config} {s s' : Store c}

theorem restoreRanges_media (s : Store c) (cap : Nat) (rs : List (Nat × Nat)) :
    (s.restoreRanges cap rs).1.media = s.media := by
  induction rs generalizing s with
  | nil => rfl
  | cons r rs ih =>
    refine (ih _).trans ?_
    unfold scmRestoreGrainRange
    split <;> rfl

theorem entries_congr {bits : Nat} {d d' : Directory bits} (hb : d'.idxBits = d.idxBits)
    (hm : ∀ i < 2 ^ d.idxBits, d'.map i = d.map i) : d'.entries = d.entries := by
  unfold Directory.entries
  rw [hb]
  refine Finset.sum_congr rfl fun x hx => ?_
  rw [hm x.1 (Finset.mem_range.mp (Finset.mem_product.mp hx).1)]

/-- The same entries over the same device, with every segment of a record closed. -/
theorem Inv.reopened (inv : s.Inv) (hmed : s'.media = s.media)
    (hb : s'.dir.idxBits = s.dir.idxBits) (hm : ∀ i < 2 ^ s.dir.idxBits, s'.dir.map i = s.dir.map i)
    (hseg : ∀ j, (s'.seg j).state ≠ .free → (s.seg j).state ≠ .free ∧ (s'.seg j).nr3 = c.segSize)
    (hrec : ∀ e ∈ s.dir.entries, (s'.seg (c.grainToSegIdx e.pba)).state ≠ .free) : s'.Inv := by
  have he := entries_congr hb hm
  have hkey : s'.keyHash = s.keyHash := by
    funext g
    rw [keyHash, keyHash, hmed]
  refine ⟨⟨inv.bits_le, hb ▸ inv.width, fun i hi => ?_, fun i hi q hq hu => ?_,
    fun e hmem => ?_, ?_,
    fun j hj => ?_⟩, fun i hi => ?_⟩
  · rw [hb] at hi
    exact hm i hi ▸ inv.wf i hi
  · rw [hb] at hi
    rw [hm i hi] at hu
    obtain ⟨h1, h2, h3⟩ := inv.placed i hi q hq hu
    rw [hkey]
    exact ⟨hm i hi ▸ h1, hm i hi ▸ h2, by rw [hm i hi, hb]; exact h3⟩
  · rw [he] at hmem
    have hr := inv.recs e hmem
    have hused := hrec e hmem
    refine ⟨hmed ▸ hr.fit, hmed ▸ hr.key_pos, hmed ▸ hr.reach, hused, ?_⟩
    have hle := (inv.segs _ hr.used).le_size
    have hext := hr.extent
    rw [hmed]
    unfold handedOut at hext ⊢
    rw [(hseg _ hused).2]
    omega
  · rw [liveEntries, he, hmed]
    exact inv.keys
  · obtain ⟨hused, hnr⟩ := hseg j hj
    have hok := inv.segs j hused
    exact ⟨hok.lt, hnr ▸ hok.md_le.trans hok.le_size, hnr.le⟩
  · rw [hb] at hi
    exact hm i hi ▸ inv.noGap i hi

theorem Represents.reopened {M : KvMap} (hM : s.Represents M) (hmed : s'.media = s.media)
    (hb : s'.dir.idxBits = s.dir.idxBits)
    (hm : ∀ i < 2 ^ s.dir.idxBits, s'.dir.map i = s.dir.map i) :
    s'.Represents M := by
  intro k v
  rw [hM k v, liveEntries, liveEntries, entries_congr hb hm, hmed]

section Restart

variable {checksum32 : Nat → Nat → Nat → Nat} {cap : Nat} {hdrTs ftrTs : Nat → Nat}
  {x : Nat → DirSeg c.bits} {ok : Bool}

/-- The segments that a restart finds in use are those of the tables and of the records. -/
theorem restart_segs (h : s.Settled) (cap : Nat) (d : Device c) {group : List Nat}
    (hp : group.Perm s.tableSegs) :
    let s1 := ((blank c d.media d.segMd).restoreRanges cap (ranges d group s)).1
    (∀ j, (s1.seg j).state ≠ .free → (s.seg j).state ≠ .free ∧ (s1.seg j).nr3 = c.segSize) ∧
      ∀ e ∈ s.dir.entries, (s1.seg (c.grainToSegIdx e.pba)).state ≠ .free := by
  obtain ⟨hin, hout⟩ := @restoreRanges_seg c _ cap _
    (@ranges_apart c s d group h hp d.media d.segMd)
  refine ⟨fun j hj => ?_, fun e he => ?_⟩
  · have hmem : j ∈ (ranges d group s).map Prod.fst := by
      by_contra hnot
      exact hj (by rw [hout j hnot]; rfl)
    obtain ⟨r, hr, rfl⟩ := mem_map.mp hmem
    refine ⟨?_, by rw [hin r hr]⟩
    rcases mem_append.mp hr with hr | hr
    · obtain ⟨i, hi, rfl⟩ := mem_map.mp hr
      obtain ⟨g, hg, rfl⟩ := mem_map.mp (hp.mem_iff.mp hi)
      exact (h.tableAt g hg).1
    · obtain ⟨_, ⟨e, he, hej⟩, _⟩ := mem_validityMap.mp hr
      obtain ⟨e', he', heq⟩ := mem_usedEntries he
      have hpba : e'.pba = e.pba := congrArg (fun w : Nat × Nat × Bool => w.2.1) heq
      rw [← hej, ← hpba]
      exact (h.recs e' he').used
  · obtain ⟨e', he', heq⟩ := exists_usedEntry he
    have hpba : e'.pba = e.pba := congrArg (fun w : Nat × Nat × Bool => w.2.1) heq
    have hr : (c.grainToSegIdx e'.pba, Ledger.chargeAt c.grainToSegIdx
        (booked d (Device.usedEntries s.dir)) (c.grainToSegIdx e'.pba)) ∈ ranges d group s :=
      mem_append_right _ (mem_validityMap.mpr ⟨(usedEntry_seg h he').1, ⟨e', he', rfl⟩, rfl⟩)
    rw [← hpba, hin _ hr]
    exact nofun

theorem restart_inv (h : s.Settled) (hst : StaleSmaller checksum32 s x)
    (hr : s.restart checksum32 cap hdrTs ftrTs x = .ok (s', ok)) :
    s'.Inv ∧ ∀ M, s.Represents M → s'.Represents M := by
  have h16 : s.dir.idxBits ≤ 16 := by
    by_contra hlt
    rw [restart_holes h hst (Nat.lt_of_not_le hlt)] at hr
    cases hr
  unfold restart at hr
  change (halted checksum32 hdrTs ftrTs s x).restore checksum32 cap = _ at hr
  generalize hd : halted checksum32 hdrTs ftrTs s x = d at hr
  have hm : d.media = s.media := by rw [← hd]; rfl
  have hp : (d.restored checksum32).Perm s.tableSegs := by rw [← hd]; exact restored_perm h hst
  obtain ⟨dir, hdir⟩ : ∃ dir : Directory c.bits, dir = ⟨Nat.log2 (d.restored checksum32).length,
    fun i => (d.dirSeg ((d.newDir (d.restored checksum32) i).getD 0)).map⟩ := ⟨_, rfl⟩
  obtain ⟨hbits, hmap⟩ := restored_dir h hst h16 hd.symm hdir
  unfold Device.restore at hr
  dsimp only at hr
  rw [← hdir, usedEntries_congr hbits hmap] at hr
  split at hr
  · cases hr
  · split at hr
    · obtain ⟨hseg, hrec⟩ := restart_segs h cap d hp
      cases hr
      have hmed := (restoreRanges_media (blank c d.media d.segMd) cap
        (ranges d (d.restored checksum32) s)).trans hm
      exact ⟨h.toInv.reopened hmed hbits hmap hseg hrec, fun M hM => hM.reopened hmed hbits hmap⟩
    · cases hr

end Restart

/-- What can become of the store and of the map that it stands for. After a crash the map is that
of the records that the scan elects. -/
inductive LifeStep : Store c × KvMap → Store c × KvMap → Prop
  | request {w w'} : OkStep w w' → LifeStep w w'
  | restart {s s' M} (checksum32 : Nat → Nat → Nat → Nat) (cap : Nat) (hdrTs ftrTs : Nat → Nat)
      (x : Nat → DirSeg c.bits) (ok : Bool) : s.Settled → StaleSmaller checksum32 s x →
      s.restart checksum32 cap hdrTs ftrTs x = .ok (s', ok) → LifeStep (s, M) (s', M)
  | crash {s s' M} (order : List Nat) (i : Nat) (allocs : Nat → List TableAlloc) :
      order.Nodup → (∀ j ∈ order, j < c.segNr) → s.ScanFits order →
      s.recoverShiftsOk order i allocs = true → s.recover order i allocs = .ok s' →
      LifeStep (s, M) (s', fun k =>
        (s.elected (order.flatMap s.scanned) k).map (c.recVal s.media))

theorem lifeStep_refines (hb : c.bits ≤ 32) (hdev : DeviceFits c) {w w' : Store c × KvMap}
    (h : LifeStep w w') (inv : w.1.Inv) (hM : w.1.Represents w.2) :
    w'.1.Inv ∧ w'.1.Represents w'.2 := by
  cases h with
  | request h => exact step_refines hdev inv hM h
  | restart checksum32 cap hdrTs ftrTs x ok hset hst hr =>
    obtain ⟨hinv, hrep⟩ := restart_inv hset hst hr
    exact ⟨hinv, hrep _ hM⟩
  | crash order i allocs hnd hlt hfit hok hr =>
    have hrec := recover_spec hb hdev hnd hlt hfit hok hr
    exact ⟨hrec.inv, hrec.represents⟩

/-- A key is put and another deleted. -/
def lifeTrace : List Event :=
  [.allocateSegment 1, .put [1] [10] .normal [⟨1, [], 0⟩], .put [2] [20] .normal [⟨1, [], 0⟩],
    .del [2] [1]]

end UDepot.Store
