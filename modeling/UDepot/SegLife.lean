import UDepot.Allocator
import UDepot.Lib.Custody

/-! The life of one segment of the allocator, whoever takes it through its steps: taken
from the free segments, staged, handed out in ranges, taken off the staging queue full or
with the rest given up, and passed on when its count of grains has run down. -/

namespace UDepot.Allocator
open Custody List

inductive Loc where
  | absent
  | free
  | fresh (t : Nat)
  | staged (a : Nat)
  | out
  | passing (t : Nat)
  | queued (a : Nat)
  | gc
  deriving DecidableEq

def Loc.inUse : Loc → Bool
  | .absent | .free => false
  | _ => true

/-- All grains are back. -/
def Loc.over : Loc → Bool
  | .fresh _ | .staged _ | .out => false
  | _ => true

/-- On `done_fifo`, or behind it. -/
def Loc.passedOn : Loc → Bool
  | .fresh _ | .staged _ | .out | .passing _ => false
  | _ => true

def Loc.atGc : Loc → Bool
  | .fresh _ | .staged _ | .out | .passing _ | .queued _ => false
  | _ => true

def Seg.hand (c : Ctlr) (x : Seg) (len : Nat) : Seg :=
  { x with nr3 := x.nr3 + len, handed := ⟨x.life, x.nr3 - c.reservedPerSeg, len⟩ :: x.handed }

def Seg.give (x : Seg) (r : Range) : Seg := { x with nr4 := x.nr4 - r.len, gone := r :: x.gone }

/-- The life of one segment: what the steps of the allocator do to it, whoever does them. -/
inductive SegStep (c : Ctlr) : Loc × Seg → Loc × Seg → Prop where
  | fetch (t : Nat) (x : Seg) : SegStep c (.free, x) (.fresh t, { x with
      nr3 := c.reservedPerSeg, nr4 := c.dataGrains, life := x.life + 1 })
  | stage (t a : Nat) (x : Seg) : SegStep c (.fresh t, x) (.staged a, x)
  | hand (a len : Nat) (x : Seg) : 1 ≤ len → x.nr3 + len ≤ c.segSize →
      SegStep c (.staged a, x) (if x.nr3 + len = c.segSize then .out else .staged a, x.hand c len)
  | giveUp (a t : Nat) (x : Seg) (r : Range) :
      r = ⟨x.life, x.nr3 - c.reservedPerSeg, c.segSize - x.nr3⟩ →
      SegStep c (.staged a, x) (if (x.give r).nr4 = 0 then .passing t else .out, x.give r)
  | release (loc : Loc) (t : Nat) (x : Seg) (r : Range) : 1 ≤ r.len → r.life = x.life →
      (∃ h ∈ x.handed, h.life = r.life ∧ h.off ≤ r.off ∧ r.off + r.len ≤ h.off + h.len) →
      (∀ g ∈ x.gone, g.life = r.life → g.Apart r) →
      SegStep c (loc, x) (if (x.give r).nr4 = 0 then .passing t else loc, x.give r)
  | queue (t a : Nat) (x : Seg) :
      SegStep c (.passing t, x) (.queued a, { x with passed := x.life :: x.passed })
  | destage (a : Nat) (x : Seg) :
      SegStep c (.queued a, x) (.gc, { x with destaged := x.life :: x.destaged })
  | reclaim (x : Seg) : SegStep c (.gc, x) (.free, x)

def goneAt (l : Nat) : List Range → Finset Nat
  | [] => ∅
  | r :: rs => if r.life = l then Finset.Ico r.off (r.off + r.len) ∪ goneAt l rs else goneAt l rs

theorem mem_goneAt {l off : Nat} {rs : List Range} :
    off ∈ goneAt l rs ↔ ∃ r ∈ rs, r.life = l ∧ r.off ≤ off ∧ off < r.off + r.len := by
  induction rs with
  | nil => simp [goneAt]
  | cons r rs ih =>
    rw [goneAt]
    split <;> simp_all

theorem covered_iff {c : Ctlr} {x : Seg} {l : Nat} :
    x.Covered c l ↔ Finset.range c.dataGrains ⊆ goneAt l x.gone := by
  simp only [Seg.Covered, Finset.subset_iff, Finset.mem_range, mem_goneAt]

structure Current (c : Ctlr) (loc : Loc) (x : Seg) : Prop where
  pos : 1 ≤ x.life
  reserved_le : c.reservedPerSeg ≤ x.nr3
  nr3_le : x.nr3 ≤ c.segSize
  below : ∀ r ∈ x.handed, r.life = x.life → r.off + r.len ≤ x.nr3 - c.reservedPerSeg
  latch : Latch c.dataGrains x.nr4 (goneAt x.life x.gone)
  back : ∀ off ∈ goneAt x.life x.gone, loc.over = false → off < x.nr3 - c.reservedPerSeg ∨
    loc = .out
  room : (∃ t, loc = .fresh t) ∨ (∃ a, loc = .staged a) → x.nr3 < c.segSize
  zero : x.nr4 = 0 ↔ loc.over = true

structure SegInv (c : Ctlr) (loc : Loc) (x : Seg) : Prop where
  apart : x.handed.Pairwise fun r r' => r.life = r'.life → r.Apart r'
  inside : ∀ r ∈ x.handed, r.off + r.len ≤ c.dataGrains
  handed_le : ∀ r ∈ x.handed, 1 ≤ r.life ∧ r.life ≤ x.life
  gone_le : ∀ r ∈ x.gone, r.life ≤ x.life
  passed_nodup : x.passed.Nodup
  destaged_nodup : x.destaged.Nodup
  passed_iff : ∀ l, l ∈ x.passed ↔ 1 ≤ l ∧ (l < x.life ∨ l = x.life ∧ loc.passedOn = true)
  destaged_iff : ∀ l, l ∈ x.destaged ↔ 1 ≤ l ∧ (l < x.life ∨ l = x.life ∧ loc.atGc = true)
  covered : ∀ l, 1 ≤ l → (l < x.life ∨ l = x.life ∧ loc.over = true) → x.Covered c l
  current : loc.inUse = true → Current c loc x

section Life

variable {c : Ctlr} {loc loc' : Loc} {x x' : Seg} {r : Range}

theorem goneAt_eq_empty {l : Nat} {rs : List Range} (h : ∀ r ∈ rs, r.life < l) :
    goneAt l rs = ∅ := by
  refine Finset.eq_empty_of_forall_notMem fun off hoff => ?_
  obtain ⟨r, hr, hl, _⟩ := mem_goneAt.mp hoff
  have := h r hr
  omega

theorem give_goneAt (x : Seg) (hr : r.life = x.life) : goneAt x.life (x.give r).gone =
    Finset.Ico r.off (r.off + r.len) ∪ goneAt x.life x.gone := by
  rw [Seg.give, goneAt, if_pos hr]

theorem give_covered {l : Nat} (h : x.Covered c l) : (x.give r).Covered c l := fun off hoff =>
  let ⟨g, hg, hrest⟩ := h off hoff
  ⟨g, mem_cons_of_mem _ hg, hrest⟩

/-- Grains that may be given back: in the data of the segment, and not back yet. -/
structure Owed (c : Ctlr) (x : Seg) (r : Range) : Prop where
  life_eq : r.life = x.life
  len_pos : 1 ≤ r.len
  inside : r.off + r.len ≤ c.dataGrains
  apart : ∀ off ∈ goneAt x.life x.gone, off < r.off ∨ r.off + r.len ≤ off

theorem Owed.latch (o : Owed c x r) (h : Latch c.dataGrains x.nr4 (goneAt x.life x.gone)) :
    Latch c.dataGrains (x.give r).nr4 (goneAt x.life (x.give r).gone) := by
  have hsub : Finset.Ico r.off (r.off + r.len) ⊆ Finset.range c.dataGrains := fun off hoff => by
    have := o.inside
    rw [Finset.mem_Ico] at hoff
    rw [Finset.mem_range]
    omega
  have hdis : Disjoint (goneAt x.life x.gone) (Finset.Ico r.off (r.off + r.len)) :=
    Finset.disjoint_left.mpr fun off hoff hr => by
      have := o.apart off hoff
      rw [Finset.mem_Ico] at hr
      omega
  have htake := h.take hsub hdis
  rwa [Nat.card_Ico, Nat.add_sub_cancel_left, ← give_goneAt x o.life_eq] at htake

theorem Owed.over (o : Owed c x r) (h : SegInv c loc x) (hpos : 1 ≤ x.life) : loc.over = false := by
  cases hover : loc.over with
  | false => rfl
  | true =>
    have hin := o.inside
    have hlen := o.len_pos
    have hall := covered_iff.mp (h.covered x.life hpos (.inr ⟨rfl, hover⟩))
    have hoff := o.apart r.off (hall (Finset.mem_range.mpr (by omega)))
    omega

theorem inUse_of_over (h : loc.over = false) : loc.inUse = true := by
  cases loc <;> simp_all [Loc.over, Loc.inUse]

theorem passedOn_of_over (h : loc.over = false) : loc.passedOn = false ∧ loc.atGc = false := by
  cases loc <;> simp_all [Loc.over, Loc.passedOn, Loc.atGc]

/-- Giving back what is owed. The segment stays where it is or moves on, `loc'`, and is over
when the count reaches zero. -/
theorem SegInv.give (h : SegInv c loc x) (o : Owed c x r) (hpos : 1 ≤ x.life)
    (hout : loc' = .out ∨ loc' = loc ∧ r.off + r.len ≤ x.nr3 - c.reservedPerSeg) (t : Nat) :
    SegInv c (if (x.give r).nr4 = 0 then .passing t else loc') (x.give r) := by
  have hover := o.over h hpos
  have hcur := h.current (inUse_of_over hover)
  have hlatch := o.latch hcur.latch
  have hover' : loc'.over = false := by
    rcases hout with rfl | ⟨rfl, _⟩
    · rfl
    · exact hover
  -- where the segment goes, it is over exactly when the count is zero
  obtain ⟨dest, hdest, hpass, hgc, hdo, hend⟩ : ∃ dest, dest =
      (if (x.give r).nr4 = 0 then Loc.passing t else loc') ∧ dest.passedOn = false ∧
      dest.atGc = false ∧ ((x.give r).nr4 = 0 ↔ dest.over = true) ∧
      ((∃ t, dest = .fresh t) ∨ (∃ a, dest = .staged a) ∨ dest = .out → dest = loc') := by
    by_cases h0 : (x.give r).nr4 = 0
    · exact ⟨.passing t, by rw [if_pos h0], rfl, rfl, by simp [h0, Loc.over], by simp⟩
    · have hp := passedOn_of_over hover'
      exact ⟨loc', by rw [if_neg h0], hp.1, hp.2, by simp [h0, hover'], fun _ => rfl⟩
  rw [← hdest]
  have hpass0 := (passedOn_of_over hover).1
  have hgc0 := (passedOn_of_over hover).2
  refine ⟨h.apart, h.inside, h.handed_le, ?_, h.passed_nodup, h.destaged_nodup, ?_, ?_, ?_, ?_⟩
  · intro g hg
    rcases mem_cons.mp hg with rfl | hg
    · exact o.life_eq.le
    · exact h.gone_le g hg
  · intro l
    rw [show (x.give r).passed = x.passed from rfl, h.passed_iff, hpass, hpass0]
    rfl
  · intro l
    rw [show (x.give r).destaged = x.destaged from rfl, h.destaged_iff, hgc, hgc0]
    rfl
  · rintro l hl (hlt | ⟨rfl, ho⟩)
    · exact give_covered (h.covered l hl (.inl hlt))
    · exact covered_iff.mpr (hlatch.zero_iff.mp (hdo.mpr ho))
  · intro _
    refine ⟨hpos, hcur.reserved_le, hcur.nr3_le, hcur.below, hlatch, ?_, ?_, hdo⟩
    · intro off hoff ho
      rw [show (x.give r).life = x.life from rfl, give_goneAt x o.life_eq, Finset.mem_union,
        Finset.mem_Ico] at hoff
      have hstay : dest = loc' := by
        cases dest <;> simp_all [Loc.over]
      rcases hout with rfl | ⟨rfl, hb⟩
      · exact .inr hstay
      · rcases hoff with hoff | hoff
        · exact .inl (show off < x.nr3 - c.reservedPerSeg by omega)
        · rw [hstay]
          exact hcur.back off hoff hover
    · intro hl
      have hstay : dest = loc' := hend (by tauto)
      rw [hstay] at hl
      rcases hout with rfl | ⟨rfl, _⟩
      · simp at hl
      · exact hcur.room hl

theorem SegInv.hand {a len : Nat} (h : SegInv c (.staged a) x) (hlen : 1 ≤ len)
    (hle : x.nr3 + len ≤ c.segSize) :
    SegInv c (if x.nr3 + len = c.segSize then .out else .staged a) (x.hand c len) := by
  have hcur := h.current rfl
  have hres := hcur.reserved_le
  have hzero := hcur.zero
  have hin : x.nr3 - c.reservedPerSeg + len ≤ c.dataGrains := by
    rw [Ctlr.dataGrains]
    omega
  obtain ⟨dest, hdest, hover, hpass, hgc, hroom⟩ : ∃ dest, dest =
      (if x.nr3 + len = c.segSize then Loc.out else .staged a) ∧ dest.over = false ∧
      dest.passedOn = false ∧ dest.atGc = false ∧
      ((∃ t, dest = .fresh t) ∨ (∃ a, dest = .staged a) → x.nr3 + len < c.segSize) := by
    by_cases heq : x.nr3 + len = c.segSize
    · exact ⟨.out, by rw [if_pos heq], rfl, rfl, rfl, by simp⟩
    · exact ⟨.staged a, by rw [if_neg heq], rfl, rfl, rfl, fun _ => by omega⟩
  rw [← hdest]
  refine ⟨?_, ?_, ?_, h.gone_le, h.passed_nodup, h.destaged_nodup, ?_, ?_, ?_, ?_⟩
  · -- the ranges of this incarnation lie in front of the cursor
    refine pairwise_cons.mpr ⟨fun r' hr' hl => ?_, h.apart⟩
    exact .inr (.inr (.inr (hcur.below r' hr' hl.symm)))
  · intro r hr
    rcases mem_cons.mp hr with rfl | hr
    · exact hin
    · exact h.inside r hr
  · intro r hr
    rcases mem_cons.mp hr with rfl | hr
    · exact ⟨hcur.pos, le_rfl⟩
    · exact h.handed_le r hr
  · intro l
    rw [show (x.hand c len).passed = x.passed from rfl, h.passed_iff, hpass]
    rfl
  · intro l
    rw [show (x.hand c len).destaged = x.destaged from rfl, h.destaged_iff, hgc]
    rfl
  · rintro l hl (hlt | ⟨_, ho⟩)
    · exact h.covered l hl (.inl hlt)
    · simp [hover] at ho
  · intro _
    refine ⟨hcur.pos, hres.trans (Nat.le_add_right _ _), hle, ?_, hcur.latch, ?_, hroom, ?_⟩
    · intro r hr hl
      show r.off + r.len ≤ x.nr3 + len - c.reservedPerSeg
      rcases mem_cons.mp hr with rfl | hr
      · dsimp only
        omega
      · have := hcur.below r hr hl
        omega
    · intro off hoff _
      refine .inl ?_
      show off < x.nr3 + len - c.reservedPerSeg
      have := hcur.back off hoff rfl
      simp only [reduceCtorEq, or_false] at this
      omega
    · rw [hover]
      exact hzero.trans (by simp [Loc.over])

theorem SegInv.owed_rest {a : Nat} (h : SegInv c (.staged a) x) :
    Owed c x ⟨x.life, x.nr3 - c.reservedPerSeg, c.segSize - x.nr3⟩ := by
  have hcur := h.current rfl
  have hroom := hcur.room (.inr ⟨a, rfl⟩)
  have hres := hcur.reserved_le
  refine ⟨rfl, by dsimp only; omega, ?_, fun off hoff => ?_⟩
  · simp only [Ctlr.dataGrains]
    omega
  · simpa using Or.inl (hcur.back off hoff rfl)

theorem SegInv.owed_release (h : SegInv c loc x) (hlen : 1 ≤ r.len) (hlife : r.life = x.life)
    (hhand : ∃ h ∈ x.handed, h.life = r.life ∧ h.off ≤ r.off ∧ r.off + r.len ≤ h.off + h.len)
    (hgone : ∀ g ∈ x.gone, g.life = r.life → g.Apart r) :
    1 ≤ x.life ∧ Owed c x r ∧ r.off + r.len ≤ x.nr3 - c.reservedPerSeg := by
  obtain ⟨hr, hmem, hhl, hlo, hhi⟩ := hhand
  have hpos : 1 ≤ x.life := by
    have := (h.handed_le hr hmem).1
    omega
  have hin := h.inside hr hmem
  have ho : Owed c x r := by
    refine ⟨hlife, hlen, by omega, fun off hoff => ?_⟩
    obtain ⟨g, hg, hgl, h1, h2⟩ := mem_goneAt.mp hoff
    have := hgone g hg (hgl.trans hlife.symm)
    unfold Range.Apart at this
    omega
  have hcur := h.current (inUse_of_over (ho.over h hpos))
  have hbelow := hcur.below hr hmem (hhl.trans hlife)
  exact ⟨hpos, ho, by omega⟩

/-- The last release comes when no grain of the segment can be handed out any more. -/
theorem SegInv.out_of_zero (h : SegInv c loc x) (hpos : 1 ≤ x.life) (o : Owed c x r)
    (hbelow : r.off + r.len ≤ x.nr3 - c.reservedPerSeg) (h0 : (x.give r).nr4 = 0) : loc = .out := by
  have hover := o.over h hpos
  have hcur := h.current (inUse_of_over hover)
  have hres := hcur.reserved_le
  have hall := (o.latch hcur.latch).zero_iff.mp h0
  by_contra hne
  have hroom : x.nr3 < c.segSize := by
    refine hcur.room ?_
    cases loc <;> simp_all [Loc.over]
  have hmem := hall (Finset.mem_range.mpr
    (show x.nr3 - c.reservedPerSeg < c.dataGrains by rw [Ctlr.dataGrains]; omega))
  rw [give_goneAt x o.life_eq, Finset.mem_union, Finset.mem_Ico] at hmem
  rcases hmem with hmem | hmem
  · omega
  · rcases hcur.back _ hmem hover with hlt | hout
    · omega
    · exact hne hout

theorem SegInv.step (h : SegInv c loc x) (hs : SegStep c (loc, x) (loc', x')) :
    SegInv c loc' x' := by
  cases hs with
  | fetch t =>
    have hres := c.reserved_lt
    refine ⟨h.apart, h.inside, ?_, ?_, h.passed_nodup, h.destaged_nodup, ?_, ?_, ?_, fun _ => ?_⟩
    · exact fun r hr => ⟨(h.handed_le r hr).1, (h.handed_le r hr).2.trans (Nat.le_succ _)⟩
    · exact fun r hr => (h.gone_le r hr).trans (Nat.le_succ _)
    · intro l
      rw [h.passed_iff]
      simp only [Loc.passedOn, and_true, Bool.false_eq_true, and_false, or_false]
      omega
    · intro l
      rw [h.destaged_iff]
      simp only [Loc.atGc, and_true, Bool.false_eq_true, and_false, or_false]
      omega
    · rintro l hl (hlt | ⟨_, ho⟩)
      · refine h.covered l hl ?_
        simp only [Loc.over, and_true]
        dsimp only at hlt
        omega
      · cases ho
    · have hempty : goneAt (x.life + 1) x.gone = ∅ :=
        goneAt_eq_empty fun r hr => Nat.lt_succ_of_le (h.gone_le r hr)
      refine ⟨Nat.le_add_left 1 _, le_rfl, hres.le, ?_, ?_, ?_, fun _ => hres, ?_⟩
      · intro r hr hl
        have hle := (h.handed_le r hr).2
        dsimp only at hl
        omega
      · simp only [hempty]
        exact Latch.start _
      · simp only [hempty]
        intro off hoff
        cases hoff
      · simp only [Loc.over, Ctlr.dataGrains, Bool.false_eq_true, iff_false]
        omega
  | stage t a =>
    have hcur := h.current rfl
    refine ⟨h.apart, h.inside, h.handed_le, h.gone_le, h.passed_nodup, h.destaged_nodup,
      h.passed_iff, h.destaged_iff, h.covered, fun _ => ?_⟩
    refine ⟨hcur.pos, hcur.reserved_le, hcur.nr3_le, hcur.below, hcur.latch, ?_,
      fun _ => ?_, hcur.zero⟩
    · intro off hoff _
      simpa using hcur.back off hoff rfl
    · exact hcur.room (.inl ⟨t, rfl⟩)
  | hand a len _ hlen hle => exact h.hand hlen hle
  | giveUp a t _ r hr =>
    subst hr
    exact h.give h.owed_rest (h.current rfl).pos (.inl rfl) t
  | release _ t _ r hlen hlife hhand hgone =>
    obtain ⟨hpos, ho, hbelow⟩ := h.owed_release hlen hlife hhand hgone
    exact h.give ho hpos (.inr ⟨rfl, hbelow⟩) t
  | queue t a =>
    have hcur := h.current rfl
    have hnot : x.life ∉ x.passed := by
      rw [h.passed_iff]
      simp [Loc.passedOn]
    refine ⟨h.apart, h.inside, h.handed_le, h.gone_le, nodup_cons.mpr ⟨hnot, h.passed_nodup⟩,
      h.destaged_nodup, ?_, h.destaged_iff, h.covered, fun _ => ?_⟩
    · intro l
      have hpos := hcur.pos
      rw [mem_cons, h.passed_iff]
      simp only [Loc.passedOn, and_true, Bool.false_eq_true, and_false, or_false]
      omega
    · refine ⟨hcur.pos, hcur.reserved_le, hcur.nr3_le, hcur.below, hcur.latch, ?_, ?_, hcur.zero⟩
      · intro off _ ho
        cases ho
      · simp
  | destage a =>
    have hcur := h.current rfl
    have hnot : x.life ∉ x.destaged := by
      rw [h.destaged_iff]
      simp [Loc.atGc]
    refine ⟨h.apart, h.inside, h.handed_le, h.gone_le, h.passed_nodup,
      nodup_cons.mpr ⟨hnot, h.destaged_nodup⟩, h.passed_iff, ?_, h.covered, fun _ => ?_⟩
    · intro l
      have hpos := hcur.pos
      rw [mem_cons, h.destaged_iff]
      simp only [Loc.atGc, and_true, Bool.false_eq_true, and_false, or_false]
      omega
    · refine ⟨hcur.pos, hcur.reserved_le, hcur.nr3_le, hcur.below, hcur.latch, ?_, ?_, hcur.zero⟩
      · intro off _ ho
        cases ho
      · simp
  | reclaim =>
    exact ⟨h.apart, h.inside, h.handed_le, h.gone_le, h.passed_nodup, h.destaged_nodup,
      h.passed_iff, h.destaged_iff, h.covered, fun hu => by cases hu⟩

end Life

end UDepot.Allocator
