import UDepot.SegLife
import UDepot.Store
import Mathlib.Logic.Relation

/-! Every step of a thread of the allocator takes one segment through a step of its life, or
moves none. Hence what holds along the life of a segment holds in every interleaving. -/

namespace UDepot.Allocator
open Custody Function List Option

def Pc.fresh : Pc → List Nat
  | .newSeg _ _ p => [p]
  | _ => []

def Pc.LenOk (c : Ctlr) : Pc → Prop
  | .walk _ len | .recycled _ len _ | .allocSeg _ len | .newSeg _ len _ | .relock _ len =>
    1 ≤ len ∧ len ≤ c.segSize
  | _ => True

/-- The queues, the free segments, the segments of the collector and those in the hands of
threads are where `place` says. -/
structure Located (s : State) (place : Nat → Loc) : Prop where
  stage : Tracks s.stage Loc.staged place
  done : Tracks s.done Loc.queued place
  free : Tracks (fun _ : Unit => s.free) (fun _ => Loc.free) place
  gc : Tracks (fun _ : Unit => s.gc) (fun _ => Loc.gc) place
  fresh : Tracks (fun t => (s.pc t).fresh) Loc.fresh place
  passing : Tracks (fun t => (s.pc t).passing) Loc.passing place

structure Inv (c : Ctlr) (s : State) (place : Nat → Loc) : Prop where
  lens : ∀ t, (s.pc t).LenOk c
  located : Located s place
  segs : ∀ p, SegInv c (place p) (s.seg p)

def StepOk (c : Ctlr) : Act → Prop
  | .allocateGrains _ len => 1 ≤ len ∧ len + c.reservedPerSeg < 2 ^ 64
  | .release _ _ r => 1 ≤ r.len
  | _ => True

def OkStep (c : Ctlr) (s s' : State) : Prop := ∃ t act, StepOk c act ∧ s.step c t act = some s'

section Refine

variable {c : Ctlr} {s s' : State} {place : Nat → Loc} {t a len p : Nat} {w : Pc}

/-- The segments at a place, in the order they are kept there. -/
def State.held (s : State) : Loc → List Nat
  | .free => s.free
  | .fresh t => (s.pc t).fresh
  | .staged a => s.stage a
  | .passing t => (s.pc t).passing
  | .queued a => s.done a
  | .gc => s.gc
  | .absent | .out => []

/-- The places that keep their segments in a list. -/
def Loc.listed : Loc → Bool
  | .absent | .out => false
  | _ => true

attribute [local simp] update_apply State.held Loc.listed State.setPc State.setLock
  State.setSeg State.setStage State.setAllocating State.unprovision State.enqueueDone
  State.allocateSegment

theorem lens_update (h : ∀ t, (s.pc t).LenOk c) (hpc : w.LenOk c) :
    ∀ b, (update s.pc t w b).LenOk c := by
  grind [update_apply]

theorem located_iff : Located s place ↔ ∀ k : Loc, k.listed = true →
    (∀ q, q ∈ s.held k ↔ place q = k) ∧ (s.held k).Nodup := by
  constructor
  · rintro ⟨h1, h2, h3, h4, h5, h6⟩ k hk
    cases k with
    | free => exact ⟨h3.mem (), h3.nodup ()⟩
    | fresh t => exact ⟨h5.mem t, h5.nodup t⟩
    | staged a => exact ⟨h1.mem a, h1.nodup a⟩
    | passing t => exact ⟨h6.mem t, h6.nodup t⟩
    | queued a => exact ⟨h2.mem a, h2.nodup a⟩
    | gc => exact ⟨h4.mem (), h4.nodup ()⟩
    | absent | out => cases hk
  · intro h
    exact
      { stage := ⟨fun a => (h (.staged a) rfl).1, fun a => (h (.staged a) rfl).2⟩
        done := ⟨fun a => (h (.queued a) rfl).1, fun a => (h (.queued a) rfl).2⟩
        free := ⟨fun _ => (h .free rfl).1, fun _ => (h .free rfl).2⟩
        gc := ⟨fun _ => (h .gc rfl).1, fun _ => (h .gc rfl).2⟩
        fresh := ⟨fun t => (h (.fresh t) rfl).1, fun t => (h (.fresh t) rfl).2⟩
        passing := ⟨fun t => (h (.passing t) rfl).1, fun t => (h (.passing t) rfl).2⟩ }

theorem Located.of_held (h : Located s place) {k : Loc} (hk : k.listed = true) (hp : p ∈ s.held k) :
    place p = k :=
  ((located_iff.mp h k hk).1 p).mp hp

theorem Located.congr (h : Located s place) (hheld : ∀ k, s'.held k = s.held k) :
    Located s' place := by
  rw [located_iff] at h ⊢
  simpa only [hheld] using h

theorem Located.move (h : Located s place) {loc : Loc} (hne : place p ≠ loc)
    (hheld : ∀ k : Loc, k.listed = true → s'.held k = if k = place p then (s.held k).erase p
      else if k = loc then s.held k ++ [p] else s.held k) : Located s' (update place p loc) := by
  refine located_iff.mpr fun k hk => ?_
  obtain ⟨hm, hnd⟩ := located_iff.mp h k hk
  rw [hheld k hk]
  refine ⟨fun q => ?_, ?_⟩
  · have := hnd.mem_erase_iff (a := q) (b := p)
    grind [update_apply]
  · have := hnd.erase p
    have := hnd.append (nodup_singleton p)
    grind

theorem Inv.quiet (i : Inv c s place) (hseg : s'.seg = s.seg) (hpc : s'.pc = update s.pc t w)
    (hlen : w.LenOk c) (hheld : ∀ k, s'.held k = s.held k) : ∃ place', Inv c s' place' :=
  ⟨place, hpc ▸ lens_update i.lens hlen, i.located.congr hheld, hseg ▸ i.segs⟩

theorem Inv.move (i : Inv c s place) {loc : Loc} {x : Seg}
    (hs : SegStep c (place p, s.seg p) (loc, x)) (hseg : s'.seg = update s.seg p x)
    (hlen : ∀ t, (s'.pc t).LenOk c) (hl : Located s' (update place p loc)) :
    ∃ place', Inv c s' place' := by
  refine ⟨update place p loc, hlen, hl, fun q => ?_⟩
  rw [hseg]
  by_cases hq : q = p
  · subst hq
    rw [update_self, update_self]
    exact (i.segs q).step hs
  · rw [update_of_ne hq, update_of_ne hq]
    exact i.segs q

theorem segNextRange_eq {segSize nr3 : Nat} (h : nr3 + len < 2 ^ 64) :
    segNextRange segSize nr3 len =
      if segSize ≤ nr3 ∨ segSize < nr3 + len then none else some (nr3, nr3 + len) := by
  rw [segNextRange, Nat.mod_eq_of_lt h]

theorem subReturn_eq {x : Int} {n : Nat} (h0 : 0 ≤ x - n) (h1 : x - n < 2 ^ 31) :
    subReturn x n = x - n := by
  rw [subReturn]
  exact Int.bmod_eq_of_le (by omega) (by omega)

/-- The count of a segment does not wrap when what is given back is owed. -/
theorem Owed.giveBack {r : Range} (o : Owed c (s.seg p) r)
    (h : Latch c.dataGrains (s.seg p).nr4 (goneAt (s.seg p).life (s.seg p).gone)) :
    s.giveBack p r = s.setSeg p ((s.seg p).give r) := by
  have hl := o.latch h
  have h0 := hl.nonneg
  have h1 := hl.le
  have hlt := c.size_lt
  have hd : c.dataGrains ≤ c.segSize := Nat.sub_le _ _
  have heq : subReturn (s.seg p).nr4 r.len = (s.seg p).nr4 - r.len := by
    simp only [Seg.give] at h0 h1
    exact subReturn_eq h0 (by omega)
  rw [State.giveBack, heq]
  rfl

variable {ps : List Nat}

theorem Located.head_stage (h : Located s place) (hst : s.stage a = p :: ps) :
    place p = .staged a :=
  h.of_held rfl (by simp [State.held, hst])

theorem Inv.rest_giveBack (i : Inv c s place) (hst : s.stage a = p :: ps) :
    (s.setStage a ps).giveBack p (s.rest c p) =
      (s.setStage a ps).setSeg p ((s.seg p).give (s.rest c p)) := by
  have hseg := i.segs p
  rw [i.located.head_stage hst] at hseg
  exact Owed.giveBack (s := s.setStage a ps) hseg.owed_rest (hseg.current rfl).latch

theorem Inv.recycle (i : Inv c s place) (hst : s.stage a = p :: ps) (hq : (s.pc t).passing = [])
    (hseg : s'.seg = update s.seg p ((s.seg p).give (s.rest c p)))
    (hstage : s'.stage = update s.stage a ps) (hdone : s'.done = s.done)
    (hfree : s'.free = s.free) (hgc : s'.gc = s.gc) (hpc : s'.pc = update s.pc t w)
    (hlen : w.LenOk c) (hfresh : w.fresh = (s.pc t).fresh)
    (hpass : w.passing = if ((s.seg p).give (s.rest c p)).nr4 = 0 then [p] else []) :
    ∃ place', Inv c s' place' := by
  have hp := i.located.head_stage hst
  have hstep : SegStep c (place p, s.seg p)
      (if ((s.seg p).give (s.rest c p)).nr4 = 0 then .passing t else .out,
        (s.seg p).give (s.rest c p)) := hp ▸ .giveUp a t _ _ rfl
  refine i.move hstep hseg (hpc ▸ lens_update i.lens hlen)
    (i.located.move (by split <;> simp [hp]) fun k hk => ?_)
  cases k <;> simp [hstage, hdone, hfree, hgc, hpc, hp] at hk ⊢ <;> grind

theorem Inv.walk (i : Inv c s place) (hpc : s.pc t = .walk a len) :
    ∃ place', Inv c (s.walk c t a len) place' := by
  have hlen : 1 ≤ len ∧ len ≤ c.segSize := by
    have := i.lens t
    rwa [hpc] at this
  have hf : (s.pc t).fresh = [] := by rw [hpc]; rfl
  have hq : (s.pc t).passing = [] := by rw [hpc]; rfl
  unfold State.walk
  cases hst : s.stage a with
  | nil =>
    dsimp only
    split
    · refine i.quiet rfl rfl (w := .idle) trivial fun k => ?_
      cases k <;> simp <;> grind [Pc.fresh, Pc.passing]
    · refine i.quiet rfl rfl (w := .allocSeg a len) hlen fun k => ?_
      cases k <;> simp <;> grind [Pc.fresh, Pc.passing]
  | cons p ps =>
    have hp := i.located.head_stage hst
    have hcur := (i.segs p).current (by rw [hp]; rfl)
    have hsize := c.size_lt
    have hnr3 := hcur.nr3_le
    dsimp only
    rw [segNextRange_eq (by omega)]
    split
    next idx next heq =>
      -- the grains are handed out
      simp only [ite_none_left_eq_some, some.injEq, Prod.mk.injEq, not_or] at heq
      obtain ⟨⟨_, hfit⟩, rfl, rfl⟩ := heq
      rw [Nat.mod_eq_of_lt (by omega)]
      have hstep : SegStep c (place p, s.seg p) (if (s.seg p).nr3 + len = c.segSize then .out
          else place p, (s.seg p).hand c len) := hp ▸ .hand a len _ hlen.1 (by omega)
      by_cases hfull : (s.seg p).nr3 + len = c.segSize
      · rw [if_pos hfull] at hstep
        rw [if_pos hfull.symm]
        refine i.move hstep rfl (lens_update i.lens trivial)
          (i.located.move (by simp [hp]) fun k hk => ?_)
        cases k <;> simp [hp] at hk ⊢ <;> grind [Pc.fresh, Pc.passing]
      · rw [if_neg hfull] at hstep
        rw [if_neg (Ne.symm hfull)]
        refine i.move hstep rfl (lens_update i.lens trivial) ?_
        rw [update_eq_self]
        refine i.located.congr fun k => ?_
        cases k <;> simp <;> grind [Pc.fresh, Pc.passing]
    next heq =>
      rw [i.rest_giveBack hst]
      have hx : (((s.setStage a ps).setSeg p ((s.seg p).give (s.rest c p))).seg p) =
          (s.seg p).give (s.rest c p) := update_self _ _ _
      rw [hx]
      split
      next h0 =>
        exact i.recycle hst hq rfl rfl rfl rfl rfl rfl (w := .recycled a len p) hlen hf.symm
          (by rw [if_pos h0]; rfl)
      next h0 =>
        refine i.recycle hst hq rfl rfl rfl rfl rfl (update_eq_self t s.pc).symm (i.lens t) rfl ?_
        rw [if_neg h0, hq]

theorem Inv.drain (i : Inv c s place) (hpc : s.pc t = .idle) :
    ∃ place', Inv c (s.drain c t a) place' := by
  have hf : (s.pc t).fresh = [] := by rw [hpc]; rfl
  have hq : (s.pc t).passing = [] := by rw [hpc]; rfl
  unfold State.drain
  cases hst : s.stage a with
  | nil => exact ⟨place, i⟩
  | cons p ps =>
    dsimp only
    rw [i.rest_giveBack hst]
    have hx : (((s.setStage a ps).setSeg p ((s.seg p).give (s.rest c p))).seg p) =
        (s.seg p).give (s.rest c p) := update_self _ _ _
    rw [hx]
    split
    next h0 =>
      exact i.recycle hst hq rfl rfl rfl rfl rfl rfl (w := .drained a p) trivial hf.symm
        (by rw [if_pos h0]; rfl)
    next h0 =>
      refine i.recycle hst hq rfl rfl rfl rfl rfl (update_eq_self t s.pc).symm (i.lens t) rfl ?_
      rw [if_neg h0, hq]

theorem Inv.release (i : Inv c s place) {r : Range} (hpc : s.pc t = .idle) (hlen : 1 ≤ r.len)
    (hmay : s.MayRelease p r) : ∃ place', Inv c (s.release t a p r) place' := by
  obtain ⟨hlife, hhand, hgone⟩ := hmay
  obtain ⟨hpos, ho, hbelow⟩ := (i.segs p).owed_release hlen hlife hhand hgone
  have hcur := (i.segs p).current (inUse_of_over (ho.over (i.segs p) hpos))
  have hx : ((s.setSeg p ((s.seg p).give r)).seg p) = (s.seg p).give r := update_self _ _ _
  have hstep := SegStep.release (c := c) (place p) t (s.seg p) r hlen hlife hhand hgone
  unfold State.release
  rw [ho.giveBack hcur.latch]
  dsimp only
  rw [hx]
  split
  next h0 =>
    have hp := (i.segs p).out_of_zero hpos ho hbelow h0
    rw [if_pos h0] at hstep
    refine i.move hstep rfl (lens_update i.lens trivial)
      (i.located.move (by simp [hp]) fun k hk => ?_)
    cases k <;> simp [hp] at hk ⊢ <;> grind [Pc.fresh, Pc.passing]
  next h0 =>
    rw [if_neg h0] at hstep
    refine i.move hstep rfl i.lens ?_
    rw [update_eq_self]
    refine i.located.congr fun k => ?_
    cases k <;> rfl

theorem Inv.enqueueDone (i : Inv c s place) (hpass : (s.pc t).passing = [p])
    (hfresh : (s.pc t).fresh = []) (hw : w.fresh = [] ∧ w.passing = []) (hlen : w.LenOk c)
    (hs' : s' = (s.enqueueDone a p).setPc t w ∨
      s' = ((s.enqueueDone a p).setLock a none).setPc t w) : ∃ place', Inv c s' place' := by
  have hp : place p = .passing t := i.located.of_held rfl (by simp [State.held, hpass])
  have hstep : SegStep c (place p, s.seg p) (.queued a,
      { s.seg p with passed := (s.seg p).life :: (s.seg p).passed }) := hp ▸ .queue t a _
  refine i.move hstep ?_ ?_ (i.located.move (by simp [hp]) fun k hk => ?_)
  · rcases hs' with rfl | rfl <;> rfl
  · rcases hs' with rfl | rfl <;> exact lens_update i.lens hlen
  · rcases hs' with rfl | rfl <;> cases k <;> simp [hp] at hk ⊢ <;> grind

theorem Inv.allocateSegment (i : Inv c s place) (hpc : s.pc t = .allocSeg a len) (hp : p ∈ s.free) :
    ∃ place', Inv c (s.allocateSegment c t a len p) place' := by
  have hlen : 1 ≤ len ∧ len ≤ c.segSize := by
    have := i.lens t
    rwa [hpc] at this
  have hp : place p = .free := i.located.of_held rfl hp
  have hstep : SegStep c (place p, s.seg p) (.fresh t, { s.seg p with
      nr3 := c.reservedPerSeg, nr4 := c.dataGrains, life := (s.seg p).life + 1 }) :=
    hp ▸ .fetch t _
  have hnr4 : ((c.dataGrains : Nat) : Int) = c.segSize - c.reservedPerSeg := by
    have := c.reserved_lt
    rw [Ctlr.dataGrains]
    omega
  rw [hnr4] at hstep
  refine i.move hstep rfl (lens_update i.lens hlen) (i.located.move (by simp [hp]) fun k hk => ?_)
  cases k <;> simp [hp] at hk ⊢ <;> grind [Pc.fresh, Pc.passing]

theorem Inv.stage (i : Inv c s place) (hpc : s.pc t = .newSeg a len p) :
    ∃ place', Inv c ((s.setStage a (s.stage a ++ [p])).setPc t (.relock a len)) place' := by
  have hlen : 1 ≤ len ∧ len ≤ c.segSize := by
    have := i.lens t
    rwa [hpc] at this
  have hp : place p = .fresh t := i.located.of_held rfl (by simp [State.held, hpc, Pc.fresh])
  have hstep : SegStep c (place p, s.seg p) (.staged a, s.seg p) := hp ▸ .stage t a _
  refine i.move hstep (update_eq_self p s.seg).symm (lens_update i.lens hlen)
    (i.located.move (by simp [hp]) fun k hk => ?_)
  cases k <;> simp [hp] at hk ⊢ <;> grind [Pc.fresh, Pc.passing]

theorem Inv.destage (i : Inv c s place) (hd : s.done a = p :: ps) :
    ∃ place', Inv c { s.setSeg p { s.seg p with
        destaged := (s.seg p).life :: (s.seg p).destaged } with
      done := update s.done a ps
      gc := s.gc ++ [p] } place' := by
  have hp : place p = .queued a := i.located.of_held rfl (by simp [State.held, hd])
  have hstep : SegStep c (place p, s.seg p) (.gc,
      { s.seg p with destaged := (s.seg p).life :: (s.seg p).destaged }) := hp ▸ .destage a _
  refine i.move hstep rfl i.lens (i.located.move (by simp [hp]) fun k hk => ?_)
  cases k <;> simp [hp] at hk ⊢
  grind

theorem Inv.putFreeSeg (i : Inv c s place) (hp : p ∈ s.gc) :
    ∃ place', Inv c { s with gc := s.gc.erase p, free := s.free ++ [p] } place' := by
  have hp : place p = .gc := i.located.of_held rfl hp
  have hstep : SegStep c (place p, s.seg p) (.free, s.seg p) := hp ▸ .reclaim _
  refine i.move hstep (update_eq_self p s.seg).symm i.lens
    (i.located.move (by simp [hp]) fun k hk => ?_)
  cases k <;> simp [hp] at hk ⊢

/-- Every step of a thread takes one segment through a step of its life, or none. -/
theorem Inv.step (i : Inv c s place) {act : Act} (hok : StepOk c act)
    (hs : s.step c t act = some s') : ∃ place', Inv c s' place' := by
  have hlens : ∀ {w : Pc}, s.pc t = w → w.LenOk c := fun hw => hw ▸ i.lens t
  revert hs
  fun_cases State.step c s t act with
  | case1 a len h =>
    rintro ⟨⟩
    obtain ⟨hpc, _, hle, _⟩ := h
    rw [Nat.mod_eq_of_lt hok.2] at hle
    refine i.quiet rfl rfl (w := .walk a len) ⟨hok.1, by omega⟩ fun k => ?_
    cases k <;> simp <;> grind [Pc.fresh, Pc.passing]
  | case3 a len hpc =>
    rintro ⟨⟩
    exact i.walk hpc
  | case5 a len p hpc =>
    rintro ⟨⟩
    have hlen := hlens hpc
    exact i.enqueueDone (w := .walk a len) (by rw [hpc]; rfl) (by rw [hpc]; rfl) ⟨rfl, rfl⟩ hlen
      (.inl rfl)
  | case6 a p hpc =>
    rintro ⟨⟩
    exact i.enqueueDone (w := .idle) (by rw [hpc]; rfl) (by rw [hpc]; rfl) ⟨rfl, rfl⟩ trivial
      (.inr rfl)
  | case7 a p hpc =>
    rintro ⟨⟩
    exact i.enqueueDone (w := .idle) (by rw [hpc]; rfl) (by rw [hpc]; rfl) ⟨rfl, rfl⟩ trivial
      (.inl rfl)
  | case9 a len hpc =>
    rintro ⟨⟩
    refine i.quiet rfl rfl (w := .idle) trivial fun k => ?_
    cases k <;> simp <;> grind [Pc.fresh, Pc.passing]
  | case10 a len p hpc hp =>
    rintro ⟨⟩
    exact i.allocateSegment hpc hp
  | case13 a len p hpc =>
    rintro ⟨⟩
    exact i.stage hpc
  | case16 a len hpc =>
    rintro ⟨⟩
    have hlen := hlens hpc
    refine i.quiet rfl rfl (w := .walk a len) hlen fun k => ?_
    cases k <;> simp <;> grind [Pc.fresh, Pc.passing]
  | case19 a h =>
    rintro ⟨⟩
    exact i.drain h.1
  | case21 a p r h =>
    rintro ⟨⟩
    exact i.release h.1 hok h.2
  | case23 a p ps hd =>
    rintro ⟨⟩
    exact i.destage hd
  | case25 p hp =>
    rintro ⟨⟩
    exact i.putFreeSeg hp
  | case27 len =>
    rintro ⟨⟩
    exact i.quiet (t := t) rfl (update_eq_self t s.pc).symm (i.lens t) fun k => by cases k <;> rfl
  | _ => rintro ⟨⟩

theorem init_inv (c : Ctlr) (hps : ps.Nodup) :
    Inv c (init ps) fun p => if p ∈ ps then .free else .absent := by
  refine ⟨fun _ => trivial, located_iff.mpr fun k hk => ?_, fun p => ?_⟩
  · cases k <;> simp [init, Pc.fresh, Pc.passing] at hk ⊢ <;> grind
  · refine ⟨by simp [init], by simp [init], by simp [init], by simp [init], by simp [init],
      by simp [init], fun l => ?_, fun l => ?_, fun l h1 h2 => ?_, fun hu => ?_⟩
    · simp only [init, not_mem_nil, false_iff]
      omega
    · simp only [init, not_mem_nil, false_iff]
      omega
    · simp only [init] at h2
      omega
    · split at hu <;> cases hu

theorem run_inv (c : Ctlr) (hps : ps.Nodup) (hr : Relation.ReflTransGen (OkStep c) (init ps) s) :
    ∃ place, Inv c s place := by
  induction hr with
  | refl => exact ⟨_, init_inv c hps⟩
  | tail _ hs ih =>
    obtain ⟨place, i⟩ := ih
    obtain ⟨t, act, hok, hs⟩ := hs
    exact i.step hok hs

end Refine

/-- No grain of an incarnation is covered before it begins or while some are still out. -/
theorem SegInv.over_of_covered {c : Ctlr} {loc : Loc} {x : Seg} {l : Nat} (h : SegInv c loc x)
    (hle : l ≤ x.life) (hc : x.Covered c l) : l < x.life ∨ l = x.life ∧ loc.over = true := by
  rcases Nat.lt_or_ge l x.life with hlt | hge
  · exact .inl hlt
  · have heq : l = x.life := by omega
    refine .inr ⟨heq, ?_⟩
    cases hover : loc.over with
    | true => rfl
    | false =>
      have hcur := h.current (inUse_of_over hover)
      rw [heq] at hc
      have := hcur.zero.mp (hcur.latch.zero_iff.mpr (covered_iff.mp hc))
      rw [hover] at this
      cases this

theorem Inv.exclusive {c : Ctlr} {s : State} {place : Nat → Loc} (i : Inv c s place) :
    Exclusive c s := by
  have hl := i.located
  refine ⟨fun p => (i.segs p).apart, fun p => (i.segs p).inside,
    fun p => ⟨(i.segs p).passed_nodup, (i.segs p).destaged_nodup⟩, fun p l h1 h2 => ?_,
    fun p t hp => ⟨?_, fun t' hp' => ?_⟩, fun p l => ?_⟩
  · have hpass : (∃ t, p ∈ (s.pc t).passing) ↔ ∃ t, place p = .passing t :=
      exists_congr fun t => hl.passing.mem t p
    rw [(i.segs p).passed_iff, hpass]
    constructor
    · intro hc
      have hover := (i.segs p).over_of_covered h2 hc
      cases hp : place p <;> simp_all [Loc.over, Loc.passedOn]
    · intro hc
      refine (i.segs p).covered l h1 ?_
      rcases hc with ⟨_, hlt | ⟨heq, hc⟩⟩ | ⟨heq, t, ht⟩
      · exact .inl hlt
      · refine .inr ⟨heq, ?_⟩
        cases hp : place p <;> simp_all [Loc.over, Loc.passedOn]
      · exact .inr ⟨heq, by rw [ht]; rfl⟩
  · have hplace := (hl.passing.mem t p).mp hp
    rw [(i.segs p).passed_iff, hplace]
    simp [Loc.passedOn]
  · have h1 := (hl.passing.mem t p).mp hp
    have h2 := (hl.passing.mem t' p).mp hp'
    simpa using h2.symm.trans h1
  · have hdone : (∃ a, p ∈ s.done a) ↔ ∃ a, place p = .queued a :=
      exists_congr fun a => hl.done.mem a p
    have hpos : (∃ a, place p = .queued a) → 1 ≤ (s.seg p).life := by
      rintro ⟨a, ha⟩
      exact ((i.segs p).current (by rw [ha]; rfl)).pos
    rw [(i.segs p).passed_iff, (i.segs p).destaged_iff, hdone]
    cases hp : place p <;> simp_all [Loc.passedOn, Loc.atGc]
    omega

/-- In every state that the threads of a controller reach with lengths that are not zero and
do not wrap, the ranges are exclusive and every segment is passed on once, when its grains are
back. -/
theorem run_exclusive (c : Ctlr) {ps : List Nat} (hps : ps.Nodup) {s : State}
    (hr : Relation.ReflTransGen (OkStep c) (init ps) s) : Exclusive c s := by
  obtain ⟨place, i⟩ := run_inv c hps hr
  exact i.exclusive

/-! ## Runs -/

def exec (c : Ctlr) (s : State) : List (Nat × Act) → Option State
  | [] => some s
  | (t, act) :: rest => (s.step c t act).bind fun s1 => exec c s1 rest

instance (c : Ctlr) (act : Act) : Decidable (StepOk c act) := by
  cases act <;> unfold StepOk <;> infer_instance

theorem exec_steps {c : Ctlr} {Q : Act → Prop} {s s' : State} {acts : List (Nat × Act)}
    (hok : ∀ x ∈ acts, Q x.2) (h : exec c s acts = some s') :
    Relation.ReflTransGen (fun s s' => ∃ t act, Q act ∧ s.step c t act = some s') s s' := by
  induction acts generalizing s with
  | nil =>
    cases h
    exact .refl
  | cons x rest ih =>
    obtain ⟨s1, hs, h⟩ := bind_eq_some_iff.mp h
    exact .head ⟨x.1, x.2, hok x (by simp), hs⟩ (ih (fun y hy => hok y (by simp [hy])) h)

theorem exec_run {c : Ctlr} {s s' : State} {acts : List (Nat × Act)}
    (hok : ∀ x ∈ acts, StepOk c x.2) (h : exec c s acts = some s') :
    Relation.ReflTransGen (OkStep c) s s' :=
  exec_steps hok h

/-- Segments of 8 grains, 1 of them reserved. -/
def smallCtlr : Ctlr := ⟨8, 1, 100, by decide, by decide⟩

/-- Thread 0 asks stream 0 for grains, and gets the first segment for it. -/
def firstAlloc (len : Nat) : List (Nat × Act) :=
  [(0, .allocateGrains 0 len), (0, .walk), (0, .allocateSegment (some 0)), (0, .stage),
    (0, .relock), (0, .walk)]

/-- Threads 0 and 1 share a segment; thread 1 fills it and releases its grains first. -/
def sharedTrace : List (Nat × Act) :=
  firstAlloc 3 ++ [(1, .allocateGrains 0 4), (1, .walk), (1, .release 0 0 ⟨1, 3, 4⟩),
    (0, .release 0 0 ⟨1, 0, 3⟩), (0, .passOn), (2, .destage 0)]

theorem sharedTrace_exclusive : ∃ s, exec smallCtlr (init [0]) sharedTrace = some s ∧
    (s.seg 0).handed = [⟨1, 3, 4⟩, ⟨1, 0, 3⟩] ∧ (s.seg 0).destaged = [1] ∧
    Exclusive smallCtlr s := by
  have hcheck : ((exec smallCtlr (init [0]) sharedTrace).map fun s =>
      decide ((s.seg 0).handed = [⟨1, 3, 4⟩, ⟨1, 0, 3⟩] ∧ (s.seg 0).destaged = [1])) =
        some true := by
    decide
  obtain ⟨s, hs, hres⟩ := map_eq_some_iff.mp hcheck
  obtain ⟨h1, h2⟩ := of_decide_eq_true hres
  exact ⟨s, hs, h1, h2, run_exclusive smallCtlr (by decide) (exec_run (by decide) hs)⟩

/-- A length of `2 ^ 64 - 1` passes the check, moves the cursor back, and the grain in front of
it is handed out again. -/
def wrapTrace : List (Nat × Act) :=
  firstAlloc 1 ++ [(0, .allocateGrains 0 (2 ^ 64 - 1)), (0, .walk), (0, .allocateGrains 0 1),
    (0, .walk)]

/-- A range of no grains is released after the segment is passed on, which passes it on again. -/
def emptyTrace : List (Nat × Act) :=
  firstAlloc 0 ++ [(0, .allocateGrains 0 7), (0, .walk), (0, .release 0 0 ⟨1, 0, 7⟩), (0, .passOn),
    (0, .release 0 0 ⟨1, 0, 0⟩), (0, .passOn)]

theorem lengths_break_exclusivity :
    (∃ s, exec smallCtlr (init [0]) wrapTrace = some s ∧
      (s.seg 0).handed = [⟨1, 0, 1⟩, ⟨1, 1, 2 ^ 64 - 1⟩, ⟨1, 0, 1⟩] ∧ ¬ Exclusive smallCtlr s) ∧
    ∃ s, exec smallCtlr (init [0]) emptyTrace = some s ∧ (s.seg 0).passed = [1, 1] ∧
      ¬ Exclusive smallCtlr s := by
  have hwrap : ((exec smallCtlr (init [0]) wrapTrace).map fun s =>
      decide ((s.seg 0).handed = [⟨1, 0, 1⟩, ⟨1, 1, 2 ^ 64 - 1⟩, ⟨1, 0, 1⟩])) = some true := by
    decide
  have hempty : ((exec smallCtlr (init [0]) emptyTrace).map fun s =>
      decide ((s.seg 0).passed = [1, 1])) = some true := by
    decide
  obtain ⟨s, hs, hres⟩ := map_eq_some_iff.mp hwrap
  obtain ⟨s', hs', hres'⟩ := map_eq_some_iff.mp hempty
  have h1 := of_decide_eq_true hres
  have h2 := of_decide_eq_true hres'
  refine ⟨⟨s, hs, h1, fun he => ?_⟩, s', hs', h2, fun he => ?_⟩
  · have hapart := he.apart 0
    rw [h1] at hapart
    revert hapart
    decide
  · have hnodup := (he.once 0).1
    rw [h2] at hnodup
    revert hnodup
    decide

end UDepot.Allocator

/-- What the store takes an allocation to be is a round of the allocator on the segment. -/
theorem UDepot.Store.allocateGrains_eq_segNextRange {c : Config} (s : Store c) (i len : Nat)
    (hlen : (s.seg i).nr3 + len < 2 ^ 64) (hst : (s.seg i).state = .staged) :
    (s.allocateGrains i len).map Prod.fst =
      (Allocator.segNextRange c.segSize (s.seg i).nr3 len).map
        fun r => i * c.segSize + r.1 - c.segMdSize := by
  rw [Allocator.segNextRange_eq hlen, Store.allocateGrains]
  dsimp only
  by_cases hfit : (s.seg i).nr3 < c.segSize ∧ (s.seg i).nr3 + len ≤ c.segSize
  · have hroom : ¬ (c.segSize ≤ (s.seg i).nr3 ∨ c.segSize < (s.seg i).nr3 + len) := by omega
    rw [if_pos ⟨hst, hfit⟩, if_neg hroom]
    rfl
  · rw [if_neg fun h => hfit h.2, if_pos (by omega)]
    rfl
