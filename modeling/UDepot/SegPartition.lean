import UDepot.SegQueues

/-! When the free queues partition the device: every segment is on one list, that of the range
its bytes are in, and none beyond the table was written. -/

namespace UDepot.Scm
open DevProperties List

section

variable (g : Geometry) (ranges : DevProperties)

/-- The bytes of the segment are bytes of the range that follows `front`. -/
def Geometry.Inside (front : DevProperties) (r : RangeProp) (i : Nat) : Prop :=
  total front ≤ i * g.bytesPerSegment ∧ (i + 1) * g.bytesPerSegment ≤ total front + r.rLen

/-- The segment is on one queue, once, and the queue takes the property. -/
def SegQueues.OnlyOn (s : SegQueues) (p : ScmProperty) (i : Nat) : Prop :=
  ∃ (k : Nat) (q : SegQueue), s.queues[k]? = some q ∧ q.propSet.contains p = true ∧
    q.occ i = 1 ∧ ∀ (k' : Nat) (q' : SegQueue), s.queues[k']? = some q' → k' ≠ k → q'.occ i = 0

/-- A queue with any segments has one for relocation, in front of all others. -/
def SegQueue.RelocFirst (q : SegQueue) : Prop :=
  q.segs ≠ [] ∨ q.relSegs ≠ [] → ∃ j ∈ q.relSegs, ∀ i ∈ q.segs, j < i

structure Partitioned (s : SegQueues) : Prop where
  placed : ∀ i < g.segNr ranges, ∃ front r back, ranges = front ++ r :: back ∧
    g.Inside front r i ∧ s.OnlyOn r.rProp i
  inTable : ∀ i, s.Touched i → i < g.realSegNr ranges
  relocFirst : ∀ q ∈ s.queues, q.RelocFirst

/-- The ranges that the loops treat well. A range whose real length is longer has no segments
behind it, and has less than twice as many as it should or only one. In front of a range with
segments there are only whole segments. All segments that are initialised are in the table. -/
structure Regular : Prop where
  count : g.segs ranges < 2 ^ 64
  spread : ∀ front r back, ranges = front ++ r :: back → 0 < g.nSegs r →
    g.nSegsReal r = g.nSegs r ∨
      (g.segs back = 0 ∧ (g.nSegs r = 1 ∨ g.nSegsReal r < 2 * g.nSegs r))
  aligned : ∀ front r back, ranges = front ++ r :: back → 0 < g.nSegs r →
    ∀ q ∈ front, g.bytesPerSegment ∣ q.rLen
  inTable : ∀ front r back, ranges = front ++ r :: back → 0 < g.nSegs r →
    g.segs front + g.nSegsReal r ≤ g.realSegNr ranges

end

section Necessary

variable {g : Geometry} {segNr : Nat} {ranges : DevProperties} {sIdx : Nat} {s s' : SegQueues}
  {i b : Nat} {f : Fill} {front back : DevProperties} {r : RangeProp}

theorem touched_of_initRanges (h : initRanges g segNr ranges sIdx s = some s') (ht : s.Touched i) :
    s'.Touched i :=
  initRanges_invariant (fun _ s => s.Touched i)
    (fun _ _ _ _ _ _ _ _ ht hfill => (hfill.touched i).mpr (.inl ht)) ht h

def SegQueues.Grounded (s : SegQueues) : Prop := ∀ q ∈ s.queues, ∀ i, q.occ i ≠ 0 → s.Touched i

theorem Fill.mem_idxs_bounds (hn : 0 < f.nsegs) (hle : f.nsegs ≤ f.nsegsReal)
    (h : i ∈ f.idxs f.nsegs) : f.base ≤ i ∧ i < f.base + f.nsegsReal := by
  obtain ⟨j, hj, rfl⟩ := Fill.mem_idxs.mp h
  have hd : 0 < f.d := Nat.div_pos hle hn
  have hlt : f.d * j < f.nsegsReal :=
    calc f.d * j < f.d * f.nsegs := Nat.mul_lt_mul_of_pos_left hj hd
      _ ≤ f.nsegsReal := Nat.div_mul_le_self _ _
  omega

theorem QueueFilled.grounded {q : SegQueue} (hn : 0 < f.nsegs) (hle : f.nsegs ≤ f.nsegsReal)
    (hfill : QueueFilled f q s s') (hq : s.queues[f.qId]? = some q) (h : s.Grounded) :
    s'.Grounded := by
  intro q' hq' i hocc
  rw [hfill.queues] at hq'
  rw [hfill.touched]
  rcases mem_or_eq_of_mem_set hq' with hold | rfl
  · exact .inl (h q' hold i hocc)
  · rw [SegQueue.occ_fill] at hocc
    by_cases hmem : i ∈ f.idxs f.nsegs
    · exact .inr (Fill.mem_idxs_bounds hn hle hmem)
    · rw [count_eq_zero_of_not_mem hmem, Nat.add_zero] at hocc
      exact .inl (h q (mem_of_getElem? hq) i hocc)

theorem grounded_of_initRanges (h : initRanges g segNr ranges sIdx s = some s') (hs : s.Grounded) :
    s'.Grounded :=
  initRanges_invariant (fun _ s => s.Grounded)
    (fun r _ _ _ _ _ hn hq hs hfill => hfill.grounded hn (g.nSegs_le_nSegsReal r) hq hs) hs h

def SegQueues.Unplaced (s : SegQueues) (i : Nat) : Prop := ∀ q ∈ s.queues, q.occ i = 0

theorem QueueFilled.unplaced {q : SegQueue} (hfill : QueueFilled f q s s')
    (hq : s.queues[f.qId]? = some q) (h : s.Unplaced i) (hi : i ∉ f.idxs f.nsegs) :
    s'.Unplaced i := by
  intro q' hq'
  rw [hfill.queues] at hq'
  rcases mem_or_eq_of_mem_set hq' with hold | rfl
  · exact h q' hold
  · rw [SegQueue.occ_fill, count_eq_zero_of_not_mem hi, h q (mem_of_getElem? hq)]

theorem unplaced_of_initRanges (h : initRanges g segNr ranges sIdx s = some s') (hi : i < sIdx)
    (hs : s.Unplaced i) : s'.Unplaced i := by
  refine (initRanges_invariant (fun sIdx s => i < sIdx ∧ s.Unplaced i) ?_ ⟨hi, hs⟩ h).2
  rintro r sIdx qId q s s' hn hq ⟨hi, hs⟩ hfill
  refine ⟨by omega, hfill.unplaced hq hs fun hmem => ?_⟩
  have := (Fill.mem_idxs_bounds hn (g.nSegs_le_nSegsReal r) hmem).1
  simp only [Geometry.fillOf] at this
  omega

theorem not_onlyOn_of_unplaced {p : ScmProperty} (h : s.Unplaced i) : ¬ s.OnlyOn p i := by
  rintro ⟨k, q, hq, -, hocc, -⟩
  rw [h q (mem_of_getElem? hq)] at hocc
  exact absurd hocc (by decide)

theorem initRanges_split (hn : 0 < g.nSegs r)
    (h : initRanges g segNr (front ++ r :: back) sIdx s = some s') :
    ∃ s₁ s₂ qId q, initRanges g segNr front sIdx s = some s₁ ∧ s₁.queues[qId]? = some q ∧
      QueueFilled (g.fillOf r (sIdx + g.segs front) qId) q s₁ s₂ ∧
      initRanges g segNr back (sIdx + g.segs front + g.nSegs r) s₂ = some s' := by
  rw [initRanges_append] at h
  obtain ⟨s₁, h₁, hrest⟩ := Option.bind_eq_some_iff.mp h
  obtain ⟨qId, q, s₂, -, hq, -, hfill, hback⟩ := initRanges_cons_some hn hrest
  exact ⟨s₁, s₂, qId, q, h₁, hq, hfill, hback⟩

/-- Behind a range with segments left over there is no other range with segments: its first
segment would be initialised twice. -/
theorem segs_back_eq_zero (hn : 0 < g.nSegs r) (hreal : g.nSegs r < g.nSegsReal r)
    (h : initRanges g segNr (front ++ r :: back) sIdx s = some s') : g.segs back = 0 := by
  by_contra hne
  obtain ⟨s₁, s₂, qId, q, -, -, hfill, hback⟩ := initRanges_split hn h
  obtain ⟨front', r', back', rfl, hf', hn'⟩ := g.exists_first_of_segs_pos (Nat.pos_of_ne_zero hne)
  obtain ⟨s₃, s₄, qId', q', hfront', -, hfill', -⟩ := initRanges_split hn' hback
  have ht : s₂.Touched (sIdx + g.segs front + g.nSegs r) :=
    (hfill.touched _).mpr (.inr ⟨by simp [Geometry.fillOf], by simp [Geometry.fillOf]; omega⟩)
  have hle := g.nSegs_le_nSegsReal r'
  exact hfill'.fresh (sIdx + g.segs front + g.nSegs r) (by simp [Geometry.fillOf, hf'])
    (by simp [Geometry.fillOf, hf']; omega) (touched_of_initRanges hfront' ht)

/-- A range spread over twice as many segments leaves its second one out. -/
theorem unplaced_second (hn : 1 < g.nSegs r) (hreal : 2 * g.nSegs r ≤ g.nSegsReal r)
    (hs : s.Grounded) (h : initRanges g segNr (front ++ r :: back) sIdx s = some s') :
    s'.Unplaced (sIdx + g.segs front + 1) := by
  obtain ⟨s₁, s₂, qId, q, hfront, hq, hfill, hback⟩ := initRanges_split (by omega) h
  have hfresh : ¬ s₁.Touched (sIdx + g.segs front + 1) :=
    hfill.fresh _ (by simp [Geometry.fillOf]) (by simp [Geometry.fillOf]; omega)
  have hbefore : s₁.Unplaced (sIdx + g.segs front + 1) := by
    intro q' hq'
    by_contra hocc
    exact hfresh (grounded_of_initRanges hfront hs q' hq' _ hocc)
  have hd : 2 ≤ (g.fillOf r (sIdx + g.segs front) qId).d :=
    (Nat.le_div_iff_mul_le (show 0 < g.nSegs r by omega)).mpr hreal
  refine unplaced_of_initRanges hback (by omega) (hfill.unplaced hq hbefore fun hmem => ?_)
  obtain ⟨j, -, hj⟩ := Fill.mem_idxs.mp hmem
  have hj' : 1 = (g.fillOf r (sIdx + g.segs front) qId).d * j := by
    simp only [Geometry.fillOf] at hj ⊢
    omega
  have := Nat.eq_one_of_mul_eq_one_right hj'.symm
  omega

/-- Every segment of the ranges lies in one of them, `b` segments being laid out in front. -/
def Covers (g : Geometry) (b : Nat) (ranges : DevProperties) : Prop :=
  ∀ i, b ≤ i → i < b + g.segs ranges → ∃ front r back, ranges = front ++ r :: back ∧
    b * g.bytesPerSegment + total front ≤ i * g.bytesPerSegment ∧
    (i + 1) * g.bytesPerSegment ≤ b * g.bytesPerSegment + total front + r.rLen

variable {ranges : DevProperties}

theorem Covers.head {q : RangeProp} (h : Covers g b (q :: ranges))
    (hpos : 0 < g.segs ranges) : g.nSegs q * g.bytesPerSegment = q.rLen := by
  have hfloor : g.nSegs q * g.bytesPerSegment ≤ q.rLen := Nat.div_mul_le_self _ _
  have hceil : q.rLen < g.nSegs q * g.bytesPerSegment + g.bytesPerSegment :=
    Nat.lt_div_mul_add g.pos
  obtain ⟨front, r, back, hsplit, hge, hle⟩ :=
    h (b + g.nSegs q) (by omega) (by rw [g.segs_cons]; omega)
  cases front with
  | nil =>
    simp only [nil_append, List.cons.injEq] at hsplit
    obtain ⟨rfl, -⟩ := hsplit
    simp only [Nat.add_mul, Nat.one_mul, total_nil] at hle
    omega
  | cons q' front =>
    simp only [cons_append, List.cons.injEq] at hsplit
    obtain ⟨rfl, -⟩ := hsplit
    simp only [Nat.add_mul, total_cons] at hge
    omega

theorem Covers.tail {q : RangeProp} (h : Covers g b (q :: ranges))
    (hpos : 0 < g.segs ranges) : Covers g (b + g.nSegs q) ranges := by
  have hq : g.nSegs q * g.bytesPerSegment = q.rLen := h.head hpos
  intro i hge hlt
  obtain ⟨front, r, back, hsplit, hge', hle'⟩ := h i (by omega) (by rw [g.segs_cons]; omega)
  cases front with
  | nil =>
    -- a segment of the rest does not end before the first range does
    simp only [nil_append, List.cons.injEq] at hsplit
    obtain ⟨rfl, -⟩ := hsplit
    have hi : (b + g.nSegs q) * g.bytesPerSegment ≤ i * g.bytesPerSegment :=
      Nat.mul_le_mul_right _ hge
    have hB : 0 < g.bytesPerSegment := g.pos
    simp only [Nat.add_mul, Nat.one_mul, total_nil] at hi hle'
    omega
  | cons q' front =>
    simp only [cons_append, List.cons.injEq] at hsplit
    obtain ⟨rfl, hsplit⟩ := hsplit
    rw [total_cons] at hge' hle'
    refine ⟨front, r, back, hsplit, ?_, ?_⟩
    · rw [Nat.add_mul, hq]
      omega
    · rw [Nat.add_mul b, hq]
      omega

theorem Covers.aligned (h : Covers g b ranges) :
    ∀ front r back, ranges = front ++ r :: back → 0 < g.nSegs r →
      ∀ q ∈ front, g.bytesPerSegment ∣ q.rLen := by
  intro front r back hsplit hn
  induction front generalizing b ranges with
  | nil => simp
  | cons q front ih =>
    subst hsplit
    rw [cons_append] at h
    have hpos : 0 < g.segs (front ++ r :: back) := by
      rw [g.segs_append, g.segs_cons]
      omega
    rw [forall_mem_cons]
    exact ⟨Dvd.intro_left _ (h.head hpos), ih (h.tail hpos) rfl⟩

theorem regular_of_partitioned {masks : List Nat}
    (hinit : initRanges g (g.segNr ranges) ranges 0 ⟨initQueues masks, fun _ => .zero⟩ = some s)
    (hp : Partitioned g ranges s) : Regular g ranges := by
  have hground : SegQueues.Grounded ⟨initQueues masks, fun _ => .zero⟩ := by
    intro q hq i hocc
    obtain ⟨mask, -, rfl⟩ := mem_map.mp hq
    exact absurd rfl hocc
  have hmod : g.segNr ranges = g.segs ranges % 2 ^ 64 := g.segNr_eq ranges
  have hle : g.segs ranges = 0 ∨ 0 + g.segs ranges ≤ g.segNr ranges := initRanges_segs_le hinit
  have hcount : g.segs ranges < 2 ^ 64 := by omega
  have hnr : g.segNr ranges = g.segs ranges := by rw [hmod, Nat.mod_eq_of_lt hcount]
  refine ⟨hcount, ?_, ?_, ?_⟩
  · rintro front r back rfl hn
    rcases Nat.eq_or_lt_of_le (g.nSegs_le_nSegsReal r) with heq | hlt
    · exact .inl heq.symm
    · refine .inr ⟨segs_back_eq_zero hn hlt hinit, ?_⟩
      by_contra hspread
      have hun := unplaced_second (by omega) (by omega) hground hinit
      obtain ⟨-, r', -, -, -, hon⟩ := hp.placed (0 + g.segs front + 1) (by
        rw [hnr, g.segs_append, g.segs_cons]
        omega)
      exact not_onlyOn_of_unplaced hun hon
  · have hcovers : Covers g 0 ranges := by
      intro i _ hi
      obtain ⟨front, r, back, hsplit, ⟨hge, hle⟩, -⟩ := hp.placed i (by omega)
      exact ⟨front, r, back, hsplit, by simpa using hge, by simpa using hle⟩
    exact hcovers.aligned
  · rintro front r back rfl hn
    obtain ⟨s₁, s₂, qId, q, -, -, hfill, hback⟩ := initRanges_split hn hinit
    have hreal := g.nSegs_le_nSegsReal r
    have ht : s₂.Touched (g.segs front + g.nSegsReal r - 1) := by
      rw [hfill.touched]
      simp only [Geometry.fillOf]
      omega
    have := hp.inTable _ (touched_of_initRanges hback ht)
    omega

end Necessary

section Sufficient

variable {g : Geometry} {sets : List PropSet}

/-- The state after the ranges in `front`: their segments are on the queues of their ranges, and
the segments below `top` are initialised. -/
structure Laid (g : Geometry) (sets : List PropSet) (front : DevProperties) (top : Nat)
    (s : SegQueues) : Prop where
  sets : s.queues.map SegQueue.propSet = sets
  touched : ∀ i, s.Touched i ↔ i < top
  placed : ∀ i < g.segs front, ∃ a r b, front = a ++ r :: b ∧ g.segs a ≤ i ∧
    i < g.segs a + g.nSegs r ∧ s.OnlyOn r.rProp i
  unplaced : ∀ i, g.segs front ≤ i → s.Unplaced i
  relLen : ∀ q ∈ s.queues, q.relSegs.length ≤ salsaMinRelSegments
  relocFirst : ∀ q ∈ s.queues, q.RelocFirst

variable {front : DevProperties} {top i : Nat} {f : Fill} {q : SegQueue} {p : ScmProperty}

theorem Laid.skip {s : SegQueues} {r : RangeProp} (h : Laid g sets front top s)
    (hn : g.nSegs r = 0) : Laid g sets (front ++ [r]) top s := by
  have hsegs : g.segs (front ++ [r]) = g.segs front := by simp [hn]
  refine ⟨h.sets, h.touched, ?_, ?_, h.relLen, h.relocFirst⟩
  · intro i hi
    obtain ⟨a, q, b, rfl, hge, hlt, hon⟩ := h.placed i (hsegs ▸ hi)
    exact ⟨a, q, b ++ [r], by simp, hge, hlt, hon⟩
  · rw [hsegs]
    exact h.unplaced

theorem Fill.mem_idxs_iff (hle : f.nsegs ≤ f.nsegsReal)
    (h : f.nsegs = 1 ∨ f.nsegsReal < 2 * f.nsegs) :
    i ∈ f.idxs f.nsegs ↔ f.base ≤ i ∧ i < f.base + f.nsegs := by
  rw [Fill.mem_idxs]
  rcases h with h | h
  · rw [h]
    constructor
    · rintro ⟨j, hj, rfl⟩
      have : j = 0 := by omega
      subst this
      omega
    · exact fun hi => ⟨0, by omega, by omega⟩
  · have hd : f.d = 1 := Nat.div_eq_of_lt_le (by omega) (by omega)
    rw [hd]
    constructor
    · rintro ⟨j, hj, rfl⟩
      omega
    · exact fun hi => ⟨i - f.base, by omega, by omega⟩

theorem QueueFilled.get {s s' : SegQueues} (hfill : QueueFilled f q s s')
    (hq : s.queues[f.qId]? = some q) (k : Nat) :
    s'.queues[k]? = if k = f.qId then some (q.fill (f.idxs f.nsegs)) else s.queues[k]? := by
  have hlt : f.qId < s.queues.length := (List.getElem?_eq_some_iff.mp hq).1
  rw [hfill.queues]
  grind

theorem QueueFilled.onlyOn {s s' : SegQueues} (hfill : QueueFilled f q s s')
    (hq : s.queues[f.qId]? = some q) (hi : i ∉ f.idxs f.nsegs) (h : s.OnlyOn p i) :
    s'.OnlyOn p i := by
  have hocc : (q.fill (f.idxs f.nsegs)).occ i = q.occ i := by
    rw [SegQueue.occ_fill, count_eq_zero_of_not_mem hi, Nat.add_zero]
  obtain ⟨k, q₀, hq₀, hp, hone, hothers⟩ := h
  have hrest : ∀ (k' : Nat) (q' : SegQueue), s'.queues[k']? = some q' → k' ≠ k → q'.occ i = 0 := by
    intro k' q' hq' hne
    rw [hfill.get hq] at hq'
    split at hq'
    · next hk =>
      cases hq'
      rw [hocc]
      exact hothers k' q (hk ▸ hq) hne
    · exact hothers k' q' hq' hne
  by_cases hk : k = f.qId
  · subst hk
    obtain rfl : q = q₀ := Option.some.inj (hq.symm.trans hq₀)
    exact ⟨f.qId, q.fill (f.idxs f.nsegs), by rw [hfill.get hq, if_pos rfl], hp,
      by rw [hocc, hone], hrest⟩
  · exact ⟨k, q₀, by rw [hfill.get hq, if_neg hk, hq₀], hp, hone, hrest⟩

theorem QueueFilled.onlyOn_new {s s' : SegQueues} (hd : 0 < f.d) (hfill : QueueFilled f q s s')
    (hq : s.queues[f.qId]? = some q) (hp : q.propSet.contains p = true) (hi : i ∈ f.idxs f.nsegs)
    (h : s.Unplaced i) : s'.OnlyOn p i := by
  refine ⟨f.qId, q.fill (f.idxs f.nsegs), by rw [hfill.get hq, if_pos rfl], hp, ?_, ?_⟩
  · rw [SegQueue.occ_fill, h q (mem_of_getElem? hq), Fill.count_idxs hd, if_pos hi]
  · intro k' q' hq' hne
    rw [hfill.get hq, if_neg hne] at hq'
    exact h q' (mem_of_getElem? hq')

theorem SegQueue.occ_ne_zero_of_mem (h : i ∈ q.segs ∨ i ∈ q.relSegs) : q.occ i ≠ 0 := by
  unfold SegQueue.occ
  rcases h with h | h
  · have := count_pos_iff.mpr h
    omega
  · have := count_pos_iff.mpr h
    omega

/-- The first segment ever put on a queue is kept for relocation, and those that follow come
behind it. -/
theorem SegQueue.RelocFirst.fill (hn : 0 < f.nsegs) (hd : 0 < f.d) (h : q.RelocFirst)
    (hbelow : ∀ i, q.occ i ≠ 0 → i < f.base) : (q.fill (f.idxs f.nsegs)).RelocFirst := by
  intro _
  cases hrel : q.relSegs with
  | nil =>
    have hsegs : q.segs = [] := by
      by_contra hne
      obtain ⟨j, hj, -⟩ := h (.inl hne)
      simp [hrel] at hj
    obtain ⟨n, hn'⟩ : ∃ n, f.nsegs = n + 1 := ⟨f.nsegs - 1, by omega⟩
    have hidxs : f.idxs (n + 1) = f.base :: (List.range n).map fun j => f.base + f.d * (j + 1) := by
      simp [Fill.idxs, range_succ_eq_map]
    refine ⟨f.base, ?_, ?_⟩
    · simp [SegQueue.fill, hrel, hn', hidxs, salsaMinRelSegments]
    · intro i hi
      simp only [SegQueue.fill, hrel, hsegs, hn', hidxs, salsaMinRelSegments, length_nil,
        nil_append, Nat.sub_zero, drop_succ_cons, drop_zero, mem_map] at hi
      obtain ⟨j, -, rfl⟩ := hi
      have : 0 < f.d * (j + 1) := Nat.mul_pos hd (Nat.succ_pos j)
      omega
  | cons j rel =>
    obtain ⟨j', hj', hlt⟩ := h (.inr (by simp [hrel]))
    refine ⟨j', mem_append_left _ hj', fun i hi => ?_⟩
    rcases mem_append.mp hi with hi | hi
    · exact hlt i hi
    · have hbase := hbelow j' (SegQueue.occ_ne_zero_of_mem (.inr hj'))
      obtain ⟨k, -, rfl⟩ := Fill.mem_idxs.mp (mem_of_mem_drop hi)
      omega

theorem Laid.fill {s s' : SegQueues} {r : RangeProp} {qId : Nat}
    (h : Laid g sets front (g.segs front) s) (hn : 0 < g.nSegs r)
    (hspread : g.nSegs r = 1 ∨ g.nSegsReal r < 2 * g.nSegs r) (hq : s.queues[qId]? = some q)
    (hp : q.propSet.contains r.rProp = true)
    (hfill : QueueFilled (g.fillOf r (g.segs front) qId) q s s') :
    Laid g sets (front ++ [r]) (g.segs front + g.nSegsReal r) s' := by
  have hle : g.nSegs r ≤ g.nSegsReal r := g.nSegs_le_nSegsReal r
  have hd : 0 < (g.fillOf r (g.segs front) qId).d := Nat.div_pos hle hn
  have hmem : ∀ i, i ∈ (g.fillOf r (g.segs front) qId).idxs (g.nSegs r) ↔
      g.segs front ≤ i ∧ i < g.segs front + g.nSegs r := fun i =>
    Fill.mem_idxs_iff (f := g.fillOf r (g.segs front) qId) hle hspread
  have hsegs : g.segs (front ++ [r]) = g.segs front + g.nSegs r := by simp
  have hqmem : q ∈ s.queues := mem_of_getElem? hq
  refine ⟨?_, ?_, ?_, ?_, ?_, ?_⟩
  · rw [hfill.queues, map_set, SegQueue.fill_propSet, ← h.sets]
    obtain ⟨hlt, rfl⟩ := List.getElem?_eq_some_iff.mp hq
    apply ext_getElem?
    intro j
    grind [Geometry.fillOf]
  · intro i
    rw [hfill.touched, h.touched]
    simp only [Geometry.fillOf]
    omega
  · intro i hi
    rcases Nat.lt_or_ge i (g.segs front) with hlt | hge
    · obtain ⟨a, r', b, hsplit, hge, hlt', hon⟩ := h.placed i hlt
      refine ⟨a, r', b ++ [r], by simp [hsplit], hge, hlt', hfill.onlyOn hq ?_ hon⟩
      exact fun hi => absurd ((hmem i).mp hi).1 (by omega)
    · refine ⟨front, r, [], rfl, hge, by omega, ?_⟩
      exact hfill.onlyOn_new hd hq hp ((hmem i).mpr ⟨hge, by omega⟩) (h.unplaced i hge)
  · intro i hi
    refine hfill.unplaced hq (h.unplaced i (by omega)) ?_
    exact fun hi' => absurd ((hmem i).mp hi').2 (by omega)
  · intro q' hq'
    rw [hfill.queues] at hq'
    rcases mem_or_eq_of_mem_set hq' with hold | rfl
    · exact h.relLen q' hold
    · have := h.relLen q hqmem
      simp only [SegQueue.fill, length_append, length_take]
      omega
  · intro q' hq'
    rw [hfill.queues] at hq'
    rcases mem_or_eq_of_mem_set hq' with hold | rfl
    · exact h.relocFirst q' hold
    · refine (h.relocFirst q hqmem).fill hn hd fun i hocc => ?_
      by_contra hge
      exact hocc (h.unplaced i (Nat.not_lt.mp hge) q hqmem)

theorem Laid.find {s : SegQueues} (h : Laid g sets front top s)
    (hp : ∃ set ∈ sets, set.contains p = true) :
    ∃ (qId : Nat) (q : SegQueue), s.findQueue p = some qId ∧ s.queues[qId]? = some q ∧
      q.propSet.contains p = true := by
  obtain ⟨set, hset, hp⟩ := hp
  rw [← h.sets] at hset
  obtain ⟨q, hq, rfl⟩ := mem_map.mp hset
  have hany : (s.findQueue p).isSome = true := by
    rw [SegQueues.findQueue, List.findIdx?_isSome]
    exact any_eq_true.mpr ⟨q, hq, hp⟩
  obtain ⟨qId, hfind⟩ := Option.isSome_iff_exists.mp hany
  obtain ⟨hlt, hcontains, -⟩ := List.findIdx?_eq_some_iff_getElem.mp hfind
  exact ⟨qId, _, hfind, getElem?_eq_getElem hlt, hcontains⟩

variable {ranges : DevProperties}

/-- The run over the rest of the ranges goes through and lays them all out. -/
theorem Laid.run (hr : Regular g ranges)
    (hsets : ∀ p, ∃ set ∈ sets, set.contains p = true) (back : DevProperties) :
    ∀ (front : DevProperties) (top : Nat) (s : SegQueues), ranges = front ++ back →
      Laid g sets front top s → g.segs back = 0 ∨ top = g.segs front →
      top ≤ g.realSegNr ranges →
      ∃ s' top', initRanges g (g.segs ranges) back (g.segs front) s = some s' ∧
        Laid g sets ranges top' s' ∧ top' ≤ g.realSegNr ranges := by
  induction back with
  | nil =>
    intro front top s hsplit h _ htop
    rw [append_nil] at hsplit
    exact ⟨s, top, rfl, hsplit ▸ h, htop⟩
  | cons r back ih =>
    intro front top s hsplit h hrest htop
    have hsplit' : ranges = (front ++ [r]) ++ back := by simpa using hsplit
    obtain ⟨qId, q, hfind, hq, hp⟩ := h.find (hsets r.rProp)
    rcases Nat.eq_zero_or_pos (g.nSegs r) with hn | hn
    · have hsegs : g.segs (front ++ [r]) = g.segs front := by simp [hn]
      obtain ⟨s', top', hrun, hlaid⟩ :=
        ih (front ++ [r]) top s hsplit' (h.skip hn) (by simpa [hn, hsegs] using hrest) htop
      refine ⟨s', top', ?_, hlaid⟩
      simp only [initRanges, hfind, hn, if_true]
      exact hsegs ▸ hrun
    · have htop' : top = g.segs front := hrest.resolve_left (by rw [g.segs_cons]; omega)
      subst htop'
      have hspread := hr.spread front r back hsplit hn
      have hfresh : ∀ i, g.segs front ≤ i → i < g.segs front + g.nSegsReal r → ¬ s.Touched i :=
        fun i hge _ ht => absurd ((h.touched i).mp ht) (by omega)
      obtain ⟨s₁, hs₁⟩ := fillQueue_isSome (f := g.fillOf r (g.segs front) qId) hn
        (g.nSegs_le_nSegsReal r) hq (h.relLen q (mem_of_getElem? hq)) hfresh
      have hfill : QueueFilled (g.fillOf r (g.segs front) qId) q s s₁ :=
        .of_fillQueue hn (g.nSegs_le_nSegsReal r) hq hs₁
      have hlaid₁ := h.fill hn (by omega) hq hp hfill
      have hsegs : g.segs (front ++ [r]) = g.segs front + g.nSegs r := by simp
      have hall : g.segs front + g.nSegs r ≤ g.segs ranges := by
        rw [hsplit', g.segs_append, hsegs]
        omega
      obtain ⟨s', top', hrun, hlaid⟩ := ih (front ++ [r]) _ s₁ hsplit' hlaid₁ (by omega)
        (hr.inTable front r back hsplit hn)
      refine ⟨s', top', ?_, hlaid⟩
      simp only [initRanges, hfind, if_neg (Nat.pos_iff_ne_zero.mp hn),
        if_neg (Nat.not_lt.mpr hall),
        hs₁]
      exact hsegs ▸ hrun

theorem total_eq_of_aligned (h : ∀ q ∈ front, g.bytesPerSegment ∣ q.rLen) :
    total front = g.segs front * g.bytesPerSegment := by
  induction front with
  | nil => simp
  | cons q front ih =>
    rw [forall_mem_cons] at h
    have hq : g.nSegs q * g.bytesPerSegment = q.rLen := Nat.div_mul_cancel h.1
    rw [total_cons, g.segs_cons, Nat.add_mul, hq, ih h.2]

theorem Laid.partitioned {s : SegQueues} (hr : Regular g ranges)
    (h : Laid g sets ranges top s) (htop : top ≤ g.realSegNr ranges) : Partitioned g ranges s := by
  refine ⟨fun i hi => ?_, fun i hi => ?_, h.relocFirst⟩
  · rw [g.segNr_eq, Nat.mod_eq_of_lt hr.count] at hi
    obtain ⟨front, r, back, hsplit, hge, hlt, hon⟩ := h.placed i hi
    refine ⟨front, r, back, hsplit, ?_, hon⟩
    have htotal := total_eq_of_aligned (hr.aligned front r back hsplit (by omega))
    have hfloor : g.nSegs r * g.bytesPerSegment ≤ r.rLen := Nat.div_mul_le_self _ _
    have hend : (i + 1) * g.bytesPerSegment ≤ (g.segs front + g.nSegs r) * g.bytesPerSegment :=
      Nat.mul_le_mul_right _ hlt
    rw [Nat.add_mul (g.segs front)] at hend
    refine ⟨?_, by omega⟩
    rw [htotal]
    exact Nat.mul_le_mul_right _ hge
  · have := (h.touched i).mp hi
    omega

end Sufficient

/-! ### The masks -/

theorem PropSet.contains_eq_testBit (s : PropSet) (p : ScmProperty) :
    s.contains p = s.mask.testBit p.bit := by
  rw [PropSet.contains, Nat.one_shiftLeft, Nat.and_two_pow]
  cases s.mask.testBit p.bit <;> simp

theorem testBit_of_verifyMasksFrom {masks : List Nat} {m b : Nat} (hb : b < 5)
    (h : verifyMasksFrom masks m = true) :
    m.testBit b = true ∨ ∃ mask ∈ masks, mask.testBit b = true := by
  induction masks generalizing m with
  | nil =>
    have hm : m = 2 ^ 5 - 1 := by simpa [verifyMasksFrom] using h
    exact .inl (by rw [hm, Nat.testBit_two_pow_sub_one, decide_eq_true hb])
  | cons mask masks ih =>
    simp only [verifyMasksFrom, Bool.and_eq_true] at h
    rcases ih h.2 with hm | ⟨mask', hmem, hbit⟩
    · rw [Nat.testBit_or, Bool.or_eq_true] at hm
      rcases hm with hm | hm
      · exact .inl hm
      · exact .inr ⟨mask, mem_cons_self, hm⟩
    · exact .inr ⟨mask', mem_cons_of_mem _ hmem, hbit⟩

theorem exists_queue_of_verifyMasks {masks : List Nat} (h : verifyMasks masks = true)
    (p : ScmProperty) : ∃ set ∈ (initQueues masks).map SegQueue.propSet, set.contains p = true := by
  have hp : p.bit < 5 := by cases p <;> decide
  simp only [verifyMasks, Bool.and_eq_true] at h
  obtain ⟨mask, hmem, hbit⟩ := (testBit_of_verifyMasksFrom hp h.2).resolve_left (by simp)
  refine ⟨⟨mask % 2 ^ 8⟩, ?_, ?_⟩
  · simpa [initQueues] using ⟨mask, hmem, rfl⟩
  · rw [PropSet.contains_eq_testBit, Nat.testBit_mod_two_pow, hbit, Bool.and_true]
    exact decide_eq_true (by omega)

theorem laid_init (g : Geometry) (masks : List Nat) :
    Laid g ((initQueues masks).map SegQueue.propSet) [] 0 ⟨initQueues masks, fun _ => .zero⟩ := by
  have hempty : ∀ q ∈ initQueues masks, q.segs = [] ∧ q.relSegs = [] := by
    intro q hq
    obtain ⟨mask, -, rfl⟩ := mem_map.mp hq
    exact ⟨rfl, rfl⟩
  refine ⟨rfl, fun i => ?_, fun i hi => absurd hi (Nat.not_lt_zero i), fun i _ q hq => ?_,
    fun q hq => ?_, fun q hq h => ?_⟩
  · simp [SegQueues.Touched, Seg.zero]
  · simp [SegQueue.occ, hempty q hq]
  · simp [hempty q hq]
  · simp [hempty q hq] at h

theorem scmSegQueuesInit_partitioned_iff (g : Geometry) (masks : List Nat) (ranges : DevProperties)
    (hmasks : verifyMasks masks = true) :
    (∃ s, scmSegQueuesInit g masks ranges = .ok s ∧ Partitioned g ranges s) ↔
      Regular g ranges := by
  simp only [scmSegQueuesInit, hmasks, if_true]
  constructor
  · rintro ⟨s, hinit, hp⟩
    split at hinit
    · cases hinit
    · next hrun =>
      cases hinit
      exact regular_of_partitioned hrun hp
  · intro hr
    obtain ⟨s, top, hrun, hlaid, htop⟩ := Laid.run hr (exists_queue_of_verifyMasks hmasks) ranges
      [] 0 _ rfl (laid_init g masks) (.inr rfl) (Nat.zero_le _)
    rw [g.segNr_eq, Nat.mod_eq_of_lt hr.count]
    refine ⟨s, ?_, hlaid.partitioned hr htop⟩
    rw [g.segs_nil] at hrun
    rw [hrun]

/-- Segments of eight grains of 512 bytes. -/
def pageGeometry : Geometry := ⟨8, 4096, Nat.succ_pos 4095⟩

/-- The masks of `SCM_SEG_QUEUES_ALL`: one queue for each property. -/
def masksAll : List Nat := [1, 2, 4, 8, 16]

/-- One and a half segments of flash in front of two of conventional disk. -/
def halfSegment : DevProperties := [⟨6144, .flash, 0, 0, 0, 0⟩, ⟨8192, .smrConv, 0, 0, 0, 0⟩]

/-- Segment 1 is on the queue of the disk, while its first half is flash. -/
theorem scmSegQueuesInit_straddles :
    ((scmSegQueuesInit pageGeometry masksAll halfSegment).map SegQueues.queues =
      .ok [⟨[], [], ⟨1⟩⟩, ⟨[], [0], ⟨2⟩⟩, ⟨[2], [1], ⟨4⟩⟩, ⟨[], [], ⟨8⟩⟩, ⟨[], [], ⟨16⟩⟩]) ∧
      ¬ ∃ s, scmSegQueuesInit pageGeometry masksAll halfSegment = .ok s ∧
        Partitioned pageGeometry halfSegment s := by
  refine ⟨by decide, ?_⟩
  rintro ⟨s, -, hp⟩
  obtain ⟨front, r, back, hsplit, ⟨hge, hle⟩, -⟩ := hp.placed 1 (by decide)
  rcases front with _ | ⟨q, _ | ⟨q', front⟩⟩ <;>
    simp only [halfSegment, nil_append, cons_append, List.cons.injEq] at hsplit
  · obtain ⟨rfl, -⟩ := hsplit
    exact absurd hle (by decide)
  · obtain ⟨rfl, -⟩ := hsplit
    exact absurd hge (by decide)
  · simp at hsplit

/-- Two segments of flash in front of two of conventional disk. -/
def wholeSegments : DevProperties := [⟨8192, .flash, 0, 0, 0, 0⟩, ⟨8192, .smrConv, 0, 0, 0, 0⟩]

theorem regular_wholeSegments : Regular pageGeometry wholeSegments := by
  have hcases : ∀ front r back, wholeSegments = front ++ r :: back →
      (front = [] ∧ r.rRealLen = 0 ∧ r.rLen = 8192 ∧ back.length = 1) ∨
        (front = [⟨8192, .flash, 0, 0, 0, 0⟩] ∧ r.rRealLen = 0 ∧ r.rLen = 8192 ∧ back = []) := by
    intro front r back hsplit
    rcases front with _ | ⟨q, _ | ⟨q', front⟩⟩ <;>
      simp only [wholeSegments, nil_append, cons_append, List.cons.injEq] at hsplit
    · obtain ⟨rfl, rfl⟩ := hsplit
      exact .inl ⟨rfl, rfl, rfl, rfl⟩
    · obtain ⟨rfl, rfl, rfl⟩ := hsplit
      exact .inr ⟨rfl, rfl, rfl, rfl⟩
    · simp at hsplit
  refine ⟨by decide, ?_, ?_, ?_⟩
  · intro front r back hsplit _
    left
    rcases hcases front r back hsplit with ⟨-, hreal, -⟩ | ⟨-, hreal, -⟩ <;>
      simp [Geometry.nSegsReal, hreal]
  · intro front r back hsplit _
    rcases hcases front r back hsplit with ⟨rfl, -⟩ | ⟨rfl, -⟩
    · simp
    · exact forall_mem_singleton.mpr (by decide)
  · intro front r back hsplit _
    rcases hcases front r back hsplit with ⟨rfl, hreal, hlen, -⟩ | ⟨rfl, hreal, hlen, -⟩ <;>
      simp only [Geometry.nSegsReal, Geometry.nSegs, hreal, hlen] <;> decide

theorem scmSegQueuesInit_partitioned_whole :
    verifyMasks masksAll = true ∧
      ∃ s, scmSegQueuesInit pageGeometry masksAll wholeSegments = .ok s ∧
        Partitioned pageGeometry wholeSegments s :=
  ⟨by decide, (scmSegQueuesInit_partitioned_iff pageGeometry masksAll wholeSegments
    (by decide)).mpr regular_wholeSegments⟩

end UDepot.Scm
