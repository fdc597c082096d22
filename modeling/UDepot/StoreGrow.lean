import UDepot.LocalPut

/-! Growth of the directory at the level of the store: the tables are allocated,
the entries copied, and the old tables, or after a failure the new ones, are given
back. The finite map does not change. -/

namespace UDepot.Store
open Bytes UDepotMap Directory Config

variable {c : Config}

structure Quiet (s s' : Store c) : Prop where
  frame : Frame s s'
  media : s'.media = s.media
  state : ∀ i, (s'.seg i).state = .free → (s.seg i).state = .free
  nr3 : ∀ i, (s.seg i).state ≠ .free → (s.seg i).nr3 ≤ (s'.seg i).nr3

namespace Quiet

variable {s : Store c}

theorem refl (base : s.Base) : Quiet s s :=
  ⟨frame_of_seg base rfl rfl (fun _ => Iff.rfl) fun _ => rfl, rfl, fun _ h => h, fun _ _ => le_rfl⟩

theorem trans {s1 s2 : Store c} (h : Quiet s s1) (h' : Quiet s1 s2) : Quiet s s2 :=
  ⟨h.frame.trans h'.frame, h'.media.trans h.media, fun i hi => h.state i (h'.state i hi),
    fun i hi => (h.nr3 i hi).trans (h'.nr3 i fun hf => hi (h.state i hf))⟩

theorem ready {s' : Store c} (h : Quiet s s') {k v : List UInt8} {g : Nat} (r : Ready s k v g) :
    Ready s' k v g :=
  r.congr h.media h.state h.nr3

end Quiet

variable {s : Store c}

theorem invalidateGrains_quiet (base : s.Base) (g len : Nat) : Quiet s (s.invalidateGrains g len) :=
  ⟨invalidateGrains_frame base g len, rfl, fun i h => by rwa [invalidateGrains_state] at h,
    fun i _ => (invalidateGrains_nr3 s g len i).ge⟩

theorem allocateGrains_quiet {s1 : Store c} (base : s.Base) {i len g : Nat}
    (h : s.allocateGrains i len = some (g, s1)) : Quiet s s1 := by
  have hf := @alloc_write_frame c s s1 base i len g [] h (by simp)
  rw [write_nil] at hf
  obtain ⟨_, _, _, _, hm, _, hother, hnr, hfree⟩ := allocateGrains_eq_some h
  refine ⟨hf, hm, fun j hj => ?_, fun j _ => ?_⟩
  · grind
  · grind

theorem allocateSegment_quiet {s1 : Store c} (base : s.Base) {i : Nat} {y : SalsaType}
    (h : s.allocateSegment i y = some s1) : Quiet s s1 := by
  obtain ⟨_, hfree, _, hm, hseg⟩ := allocateSegment_eq_some h
  refine ⟨allocateSegment_frame base h, hm, fun j hj => ?_, fun j hj => ?_⟩
  · by_cases hji : j = i
    · rw [hji]
      exact hfree
    · simpa [hseg, hji] using hj
  · have hji : j ≠ i := by
      rintro rfl
      exact hj hfree
    simp [hseg, hji]

theorem allocateTable_quiet {s s1 : Store c} (base : s.Base) {i g : Nat}
    (h : s.allocateTable i = some (g, s1)) : Quiet s s1 := by
  obtain ⟨s0, h0, h1⟩ := Option.bind_eq_some_iff.mp h
  have hq := allocateSegment_quiet base h0
  exact hq.trans (allocateGrains_quiet (hq.frame.base base) h1)

theorem allocateTables_quiet (base : s.Base) (n : Nat) (allocs : List TableAlloc) :
    Quiet s (s.allocateTables n allocs).2.1 := by
  fun_induction allocateTables s n allocs with
  | case4 s n i rest g s1 ha r ih =>
    have hq := allocateTable_quiet base ha
    exact hq.trans (ih (hq.frame.base base))
  | case6 s n i rest g s1 ha => exact allocateTable_quiet base ha
  | _ => exact Quiet.refl base

theorem invalidateTables_quiet (base : s.Base) (gs : List Nat) :
    Quiet s (s.invalidateTables gs) := by
  induction gs generalizing s with
  | nil => exact Quiet.refl base
  | cons g gs ih =>
    have hq := invalidateGrains_quiet base g (tableGrains c)
    exact hq.trans (ih (hq.frame.base base))

/-- The directory has tables left to double into: the index takes its bits from the
fingerprint. -/
def WidthOk (s : Store c) : Prop := s.dir.idxBits + 1 ≤ 8 + c.bits

structure GrowSpec (s s' : Store c) : Prop where
  inv : s'.Inv
  represents : ∀ {M : List UInt8 → Option (List UInt8)}, s.Represents M → s'.Represents M
  ready : ∀ {k v : List UInt8} {g : Nat}, Ready s k v g → Ready s' k v g

theorem Quiet.growSpec {s' : Store c} (h : Quiet s s') (inv : s.Inv) : GrowSpec s s' :=
  ⟨h.frame.inv inv, h.frame.represents, h.ready⟩

/-- A directory that holds the live entries of the old one takes its place. -/
theorem replaceDir (base : s.Base) {d : Directory c.bits} {lost : Multiset Content}
    (hw : d.idxBits ≤ 8 + c.bits) (hs : d.Sound) (hp : d.Placed s.keyHash)
    (hent : d.entries + lost = s.dir.entries) (hl : lost.filter (fun x => x.deleted = false) = 0)
    (gs : List Nat) : GrowSpec s { s with dir := d, tables := gs } := by
  have hlive : d.liveEntries = s.dir.liveEntries := grow_liveEntries hent hl
  refine ⟨⟨⟨base.bits_le, hw, hs.wf, hp, fun e he => ?_, ?_, ?_⟩, hs.noGap⟩, fun hM => ?_,
    fun r => ?_⟩
  · have hr := base.recs e (by rw [← hent]; exact Multiset.mem_add.mpr (.inl he))
    exact ⟨hr.fit, hr.key_pos, hr.reach, hr.used, hr.extent⟩
  · rw [hlive]
    exact base.keys
  · intro i hi
    have h := base.segs i hi
    exact ⟨h.lt, h.md_le, h.le_size⟩
  · intro k v
    rw [hM, hlive]
  · exact r.congr rfl (fun _ h => h) fun _ _ => le_rfl

theorem grow_spec (inv : s.Inv) (hw : s.WidthOk) (allocs : List TableAlloc) :
    GrowSpec s (s.grow allocs).1 := by
  have ha := allocateTables_quiet inv.toBase (2 ^ (s.dir.idxBits + 1)) allocs
  obtain ⟨d, lost, hg, hbits, hp, hs, hent, hl⟩ := grow_live inv.bits_le inv.placed hw
  unfold grow
  rw [hg]
  generalize s.allocateTables (2 ^ (s.dir.idxBits + 1)) allocs = x at ha ⊢
  obtain ⟨gs, s1, ok⟩ := x
  have hb1 := ha.frame.base inv.toBase
  cases ok with
  | false =>
    have h2 := invalidateTables_quiet hb1 gs
    exact (ha.trans h2).growSpec inv
  | true =>
    have h2 := ha.trans (invalidateTables_quiet hb1 s.tables)
    have hb2 := h2.frame.base inv.toBase
    have hp2 : d.Placed (s1.invalidateTables s.tables).keyHash := by
      unfold keyHash
      rw [h2.media]
      exact hp
    have hr := replaceDir hb2 (by rw [hbits]; exact hw) hs hp2
      (by rw [h2.frame.dir]; exact hent) hl gs
    exact ⟨hr.inv, fun hM => hr.represents (h2.frame.represents hM), fun r => hr.ready (h2.ready r)⟩

end UDepot.Store
