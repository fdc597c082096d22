import UDepot.AccountRun

/-! The callback of the garbage collector on a whole segment. It walks the records
by the sizes in their headers and stops at the first header that looks empty or
leads out of the segment, so an entry is relocated or purged exactly when its record
lies on this chain and is the one that `lookup(h, pba)` finds. -/

namespace UDepot
open Multiset

namespace Config

variable (c : Config)

/-- The loop of `gc_callback` ends in front of the record at `off` grains into the
segment, at address `g`. -/
def gcStop (m : Nat → UInt8) (g off : Nat) : Bool :=
  let md := c.readHeader m g
  !decide (off * c.grainSize + putKeyvalPrefixSize < c.segSize * c.grainSize) ||
    (md.keySize == 0 && md.valSize == 0) ||
    decide (c.segSize * c.grainSize <
      off * c.grainSize + md.valSize + md.keySize + putKeyvalPrefixSize)

/-- The addresses that the walk over segment `i` visits. -/
def gcChain (m : Nat → UInt8) (i : Nat) : Nat → Nat → List Nat
  | 0, _ => []
  | n + 1, off =>
    let g := i * c.segSize + off
    if c.gcStop m g off then [] else g :: gcChain m i n (off + c.recGrains m g)

end Config

namespace Store
open Bytes UDepotMap Directory Config

variable {c : Config}

/-- The loop of `gc_callback`; `tgt` names the segment that a record is relocated
to, and `none` is a relocation that failed. -/
def gcLoop (s : Store c) (i : Nat) (tgt : Nat → Nat) : Nat → Nat → Option (Store c)
  | 0, _ => some s
  | n + 1, off =>
    let g := i * c.segSize + off
    if c.gcStop s.media g off then some s
    else
      match s.localGcCallback g (tgt g) with
      | none => none
      | some s' => gcLoop s' i tgt n (off + c.recGrains s.media g)

/-- `gc_callback` on segment `i`; every record takes a grain at least. -/
def gcCallback (s : Store c) (i : Nat) (tgt : Nat → Nat) : Option (Store c) :=
  gcLoop s i tgt c.segSize 0

/-! ## The chain -/

section Chain

variable {m m' : Nat → UInt8} {i off n g : Nat}

theorem not_gcStop (h : c.gcStop m g off = false) :
    off * c.grainSize + 14 < c.segSize * c.grainSize ∧
      off * c.grainSize + (c.readHeader m g).valSize + (c.readHeader m g).keySize + 14 ≤
        c.segSize * c.grainSize := by
  simp only [gcStop, Bool.or_eq_false_iff, Bool.not_eq_false', putKeyvalPrefixSize] at h
  exact ⟨of_decide_eq_true h.1.1, not_lt.mp (of_decide_eq_false h.2)⟩

theorem off_lt_of_not_gcStop (h : c.gcStop m g off = false) : off < c.segSize := by
  have h1 := (not_gcStop h).1
  by_contra hn
  have := Nat.mul_le_mul_right c.grainSize (not_lt.mp hn)
  omega

theorem gcLoop_fuel {s : Store c} {tgt : Nat → Nat} (h : c.segSize ≤ off + n) (k : Nat) :
    s.gcLoop i tgt (n + k) off = s.gcLoop i tgt n off := by
  induction n generalizing s off with
  | zero =>
    cases k with
    | zero => rfl
    | succ k =>
      have hstop : c.gcStop s.media (i * c.segSize + off) off = true := by
        by_contra hn
        have := off_lt_of_not_gcStop (by simpa using hn)
        omega
      simp only [gcLoop, hstop, ↓reduceIte]
  | succ n ih =>
    rw [Nat.succ_add]
    unfold gcLoop
    dsimp only
    split
    · rfl
    · cases hcb : s.localGcCallback (i * c.segSize + off) (tgt (i * c.segSize + off)) with
      | none => rfl
      | some s1 =>
        have hpos : 0 < c.recGrains s.media (i * c.segSize + off) := kvTotGrainsGet_pos _ _
        exact ih (by omega)

theorem mem_gcChain (h : g ∈ c.gcChain m i n off) :
    ∃ o, off ≤ o ∧ g = i * c.segSize + o ∧ c.gcStop m g o = false := by
  induction n generalizing off with
  | zero => cases h
  | succ n ih =>
    simp only [gcChain] at h
    split at h
    · cases h
    · rename_i hs
      rcases List.mem_cons.mp h with rfl | h
      · exact ⟨off, le_rfl, rfl, by simpa using hs⟩
      · obtain ⟨o, ho, hg, hst⟩ := ih h
        exact ⟨o, by omega, hg, hst⟩

theorem gcChain_in_seg (h : g ∈ c.gcChain m i n off) : c.grainToSegIdx g = i := by
  obtain ⟨o, _, rfl, hs⟩ := mem_gcChain h
  have := off_lt_of_not_gcStop hs
  apply Nat.div_eq_of_lt_le
  · omega
  · rw [Nat.succ_mul]
    omega

end Chain

/-- The bytes of segment `i` are the same. -/
def SameSeg (c : Config) (i : Nat) (m m' : Nat → UInt8) : Prop :=
  ∀ a, i * c.segSize * c.grainSize ≤ a → a < (i + 1) * c.segSize * c.grainSize → m' a = m a

variable {i : Nat}

theorem SameSeg.trans {m m1 m2 : Nat → UInt8} (h : SameSeg c i m m1)
    (h' : SameSeg c i m1 m2) : SameSeg c i m m2 :=
  fun a h1 h2 => (h' a h1 h2).trans (h a h1 h2)

section SameSeg

variable {i off : Nat} {m m' : Nat → UInt8}

theorem SameSeg.readHeader (h : SameSeg c i m m')
    (hlt : off * c.grainSize + 14 ≤ c.segSize * c.grainSize) :
    c.readHeader m' (i * c.segSize + off) = c.readHeader m (i * c.segSize + off) := by
  apply readHeader_eq_of_read
  apply read_congr
  intro a h1 h2
  rw [Nat.add_mul] at h1 h2
  apply h a (by omega)
  rw [Nat.add_mul, Nat.add_mul, Nat.one_mul]
  omega

/-- The walk stops at the same place: the header is read only while it is inside. -/
theorem SameSeg.gcStop (h : SameSeg c i m m') :
    c.gcStop m' (i * c.segSize + off) off = c.gcStop m (i * c.segSize + off) off := by
  unfold Config.gcStop
  by_cases hlt : off * c.grainSize + putKeyvalPrefixSize < c.segSize * c.grainSize
  · rw [h.readHeader (by unfold putKeyvalPrefixSize at hlt; omega)]
  · simp [hlt]

theorem SameSeg.recGrains (h : SameSeg c i m m')
    (hs : c.gcStop m (i * c.segSize + off) off = false) :
    c.recGrains m' (i * c.segSize + off) = c.recGrains m (i * c.segSize + off) := by
  unfold Config.recGrains
  rw [h.readHeader (not_gcStop hs).1.le]

theorem SameSeg.gcChain (h : SameSeg c i m m') (n : Nat) :
    c.gcChain m' i n off = c.gcChain m i n off := by
  induction n generalizing off with
  | zero => rfl
  | succ n ih =>
    simp only [Config.gcChain]
    rw [h.gcStop]
    split
    · rfl
    · rename_i hs
      rw [h.recGrains (by simpa using hs), ih]

theorem SameSeg.recKey (h : SameSeg c i m m') (hs : c.gcStop m (i * c.segSize + off) off = false) :
    c.recKey m' (i * c.segSize + off) = c.recKey m (i * c.segSize + off) := by
  obtain ⟨h1, h2⟩ := not_gcStop hs
  unfold Config.recKey
  rw [h.readHeader h1.le]
  apply read_congr
  intro a ha hb
  unfold putKeyvalPrefixSize at ha hb
  rw [Nat.add_mul] at ha hb
  apply h a (by omega)
  rw [Nat.add_mul, Nat.add_mul, Nat.one_mul]
  omega

end SameSeg

/-! ## One record -/

/-- Slot `q` of table `j` holds an entry of segment `i`. -/
def InSeg (s : Store c) (i j q : Nat) : Prop :=
  j < 2 ^ s.dir.idxBits ∧ q < entryNr c.bits ∧ ((s.dir.map j).ht q).used = true ∧
    c.grainToSegIdx ((s.dir.map j).ht q).pba = i

/-- The lookup of the collector for the record at `g` returns slot `q` of table `j`. -/
def Finds (s : Store c) (g j q : Nat) : Prop :=
  j = hashToDirIdx c.bits (s.keyHash g) s.dir.idxBits ∧
    (s.dir.map j).lookupPba (s.keyHash g) g = some q

/-- A closed segment, on a store whose segments and records have their places. -/
structure Collectable (s : Store c) (i : Nat) : Prop where
  width : s.dir.idxBits ≤ 8 + c.bits
  closed : (s.seg i).state = .closed
  segs : ∀ j, (s.seg j).state ≠ .free → s.SegOk j
  extent : ∀ e ∈ s.dir.entries, c.grainToSegIdx e.pba = i →
    e.pba + c.recGrains s.media e.pba ≤ (i + 1) * c.segSize

variable {s s' : Store c} {q j : Nat}

theorem Base.collectable (base : s.Base) (h : (s.seg i).state = .closed) :
    s.Collectable i := by
  refine ⟨base.width, h, base.segs, fun e he hi => ?_⟩
  have hr := base.recs e he
  have hs := base.segs _ hr.used
  have hext := hr.extent
  have hle := hs.le_size
  rw [hi] at hext hle
  unfold handedOut at hext
  rw [Nat.succ_mul]
  omega

/-- What the callback for the record at `g` of segment `i` does: the slot it finds
leaves the segment with the grains of its record, and no other slot changes. -/
structure Collects (s s' : Store c) (i g : Nat) : Prop where
  bits : s'.dir.idxBits = s.dir.idxBits
  media : SameSeg c i s.media s'.media
  closed : (s'.seg i).state = .closed
  segs : ∀ j, (s'.seg j).state ≠ .free → s'.SegOk j
  gone : ∀ j q, s.Finds g j q → ¬s'.InSeg i j q
  other : ∀ j q, ¬s.Finds g j q → (s'.dir.map j).ht q = (s.dir.map j).ht q
  counts : (s'.seg i).validNr - s'.recordGrains i = (s.seg i).validNr - s.recordGrains i

structure Retires (s s' : Store c) (i g q : Nat) : Prop where
  found : (s.table (s.keyHash g)).lookupPba (s.keyHash g) g = some q
  media : SameSeg c i s.media s'.media
  closed : (s'.seg i).state = .closed
  segs : ∀ j, (s'.seg j).state ≠ .free → s'.SegOk j
  dir : ∃ t, s'.dir = s.dir.setMap (hashToDirIdx c.bits (s.keyHash g) s.dir.idxBits) t ∧
    (∀ r, r ≠ q → t.ht r = (s.table (s.keyHash g)).ht r) ∧
    ((t.ht q).used = true → c.grainToSegIdx (t.ht q).pba ≠ i)
  valid : (s'.seg i).validNr = (s.seg i).validNr - c.recGrains s.media g

theorem recGrains_sameSeg {i p : Nat} {m m' : Nat → UInt8} (h : SameSeg c i m m')
    (hp : c.grainToSegIdx p = i) (hext : p + c.recGrains m p ≤ (i + 1) * c.segSize) :
    c.recGrains m' p = c.recGrains m p := by
  have hmul : i * c.segSize ≤ p := hp ▸ Nat.div_mul_le_self p c.segSize
  have h16 : 16 ≤ c.recGrains m p * c.grainSize := by
    refine le_trans ?_ (le_udivRoundUp c.grain_pos)
    unfold putKeyvalPrefixSize putKeyvalSuffixSize
    omega
  obtain ⟨off, rfl⟩ := Nat.exists_eq_add_of_le hmul
  have hle := Nat.mul_le_mul_right c.grainSize hext
  rw [Nat.succ_mul, Nat.add_mul, Nat.add_mul, Nat.add_mul] at hle
  unfold recGrains
  rw [h.readHeader (by omega)]

theorem Retires.recordGrains {i g : Nat} (h : Retires s s' i g q) (hc : s.Collectable i)
    (hg : c.grainToSegIdx g = i) :
    s.recordGrains i = s'.recordGrains i + c.recGrains s.media g := by
  obtain ⟨hw, hu, hp⟩ := lookupPba_eq_some h.found
  obtain ⟨t, hd, ho, hq⟩ := h.dir
  obtain ⟨rest, h1, h2⟩ := s.dir.entries_split
    (hashToDirIdx_lt hc.width (s.keyHash g)) hw.lt ho
  have hrest : (rest.filter fun e => c.grainToSegIdx e.pba = i).map
      (fun e => c.recGrains s'.media e.pba) =
      (rest.filter fun e => c.grainToSegIdx e.pba = i).map fun e => c.recGrains s.media e.pba := by
    refine map_congr rfl fun e he => ?_
    obtain ⟨hmem, hi⟩ := mem_filter.mp he
    exact recGrains_sameSeg h.media hi
      (hc.extent e (by rw [h1]; exact mem_add.mpr (.inl hmem)) hi)
  have hnew : (content t q).filter (fun e => c.grainToSegIdx e.pba = i) = 0 := by
    by_cases hut : (t.ht q).used = true
    · rw [content, if_pos hut, filter_singleton, if_neg (hq hut)]
      rfl
    · rw [content_of_unused (by simpa using hut)]
      rfl
  have hold : (content (s.table (s.keyHash g)) q).filter (fun e => c.grainToSegIdx e.pba = i) =
      content (s.table (s.keyHash g)) q := by
    rw [content, if_pos hu, filter_singleton, if_pos (by rw [hp]; exact hg)]
  unfold Store.recordGrains
  rw [hd, h2, h1, filter_add, filter_add, hnew]
  change ((rest.filter _ + (content (s.table (s.keyHash g)) q).filter _).map _).sum = _
  rw [hold, add_zero, hrest, map_add, sum_add]
  congr 1
  rw [content, if_pos hu]
  simp [hp]

theorem Retires.collects {i g : Nat} (h : Retires s s' i g q) (hc : s.Collectable i)
    (hg : c.grainToSegIdx g = i) : Collects s s' i g := by
  have hrg := h.recordGrains hc hg
  have hval := h.valid
  obtain ⟨t, hd, ho, hq⟩ := h.dir
  refine ⟨by rw [hd]; rfl, h.media, h.closed, h.segs, ?_, ?_, by omega⟩
  · rintro j r ⟨rfl, hf⟩ ⟨_, _, hu, hi⟩
    have hr : r = q := Option.some.inj (hf.symm.trans h.found)
    subst hr
    rw [hd, setMap_self] at hu hi
    exact hq hu hi
  · intro j r hn
    rw [hd]
    by_cases hj : j = hashToDirIdx c.bits (s.keyHash g) s.dir.idxBits
    · subst hj
      rw [setMap_self]
      apply ho
      rintro rfl
      exact hn ⟨rfl, h.found⟩
    · rw [setMap_other _ _ hj]

theorem sameSeg_write {i g len : Nat} {m : Nat → UInt8} {bs : List UInt8} (hij : i ≠ j)
    (hlo : j * c.segSize ≤ g) (hhi : g + len ≤ (j + 1) * c.segSize)
    (hbs : bs.length ≤ len * c.grainSize) : SameSeg c i m (write m (g * c.grainSize) bs) := by
  intro a h1 h2
  apply write_outside
  have hlo' := Nat.mul_le_mul_right c.grainSize hlo
  have hhi' := Nat.mul_le_mul_right c.grainSize hhi
  rw [Nat.add_mul g] at hhi'
  rcases Nat.lt_or_gt_of_ne hij with hlt | hgt
  · left
    have := Nat.mul_le_mul_right c.grainSize
      (Nat.mul_le_mul_right c.segSize (Nat.succ_le_of_lt hlt))
    simp only [Nat.succ_eq_add_one] at this
    omega
  · right
    have := Nat.mul_le_mul_right c.grainSize
      (Nat.mul_le_mul_right c.segSize (Nat.succ_le_of_lt hgt))
    simp only [Nat.succ_eq_add_one] at this
    omega

theorem relocBytes_le (m : Nat → UInt8) (start ts : Nat) :
    (c.relocBytes m start ts).length ≤ c.recGrains m start * c.grainSize := by
  obtain ⟨hk, hv, _⟩ := readHeader_lt (c := c) m start
  have hle := le_udivRoundUp (x := ((c.readHeader m start).valSize % 2 ^ 32 +
    (c.readHeader m start).keySize % 2 ^ 32) % 2 ^ 32 + putKeyvalPrefixSize + putKeyvalSuffixSize)
    c.grain_pos
  simp only [relocBytes, List.length_append, read_length, le_length]
  unfold recGrains kvTotGrainsGet
  rw [Nat.mod_eq_of_lt hv, Nat.mod_eq_of_lt (show (c.readHeader m start).keySize < 2 ^ 32 by omega)]
    at hle ⊢
  rw [Nat.add_comm (c.readHeader m start).keySize]
  unfold putKeyvalSuffixSize at hle ⊢
  omega

structure Sealed (s : Store c) (i : Nat) : Prop where
  closed : (s.seg i).state = .closed
  segs : ∀ j, (s.seg j).state ≠ .free → s.SegOk j

theorem Collectable.sealed (hc : s.Collectable i) : s.Sealed i :=
  ⟨hc.closed, hc.segs⟩

theorem Sealed.setTable (h : s.Sealed i) (x : Nat) (t : UDepotMap c.bits) :
    (s.setTable x t).Sealed i :=
  ⟨h.closed, fun j hj => ⟨(h.segs j hj).lt, (h.segs j hj).md_le, (h.segs j hj).le_size⟩⟩

theorem Sealed.invalidate (h : s.Sealed i) (g len : Nat) :
    (s.invalidateGrains g len).Sealed i := by
  refine ⟨?_, fun j hj => ?_⟩
  · rw [invalidateGrains_state]
    exact h.closed
  · rw [invalidateGrains_state] at hj
    have hs := h.segs j hj
    have hnr := invalidateGrains_nr3 s g len j
    exact ⟨hs.lt, hs.md_le.trans hnr.ge, hnr.le.trans hs.le_size⟩

/-- Nothing is allocated in a closed segment, so the relocation leaves its bytes. -/
theorem Sealed.reloc {s1 : Store c} {i g g' : Nat} (h : s.Sealed i)
    (ha : s.allocateGrains j (c.recGrains s.media g) = some (g', s1)) :
    (relocated s s1 g g').Sealed i ∧ SameSeg c i s.media (relocated s s1 g g').media := by
  have hsegs1 := allocateGrains_segs h.segs ha
  obtain ⟨hst, hle, rfl, _, hm, _, hother, _, _⟩ := allocateGrains_eq_some ha
  have hj := h.segs j (by rw [hst]; simp)
  obtain ⟨_, hend⟩ := allocated_in_seg hj (kvTotGrainsGet_pos _ _) hle
  have hij : i ≠ j := by
    rintro rfl
    rw [h.closed] at hst
    cases hst
  have hlo : j * c.segSize ≤ s.handedOut j := by
    have := hj.md_le
    unfold handedOut
    omega
  refine ⟨⟨?_, fun k hk => ⟨(hsegs1 k hk).lt, (hsegs1 k hk).md_le, (hsegs1 k hk).le_size⟩⟩, ?_⟩
  · change (s1.seg i).state = _
    rw [hother i hij]
    exact h.closed
  · change SameSeg c i s.media (write s1.media _ _)
    rw [hm]
    exact sameSeg_write hij hlo hend (relocBytes_le s.media g _)

theorem purge_retires {i g : Nat} (hc : s.Collectable i) (hg : c.grainToSegIdx g = i)
    (hl : (s.table (s.keyHash g)).lookupPba (s.keyHash g) g = some q) :
    Retires s ((s.invalidateGrains ((s.table (s.keyHash g)).ht q).pba
      (c.recGrains s.media g)).setTable (s.keyHash g) ((s.table (s.keyHash g)).purge q)) i g q := by
  obtain ⟨_, _, hp⟩ := lookupPba_eq_some hl
  rw [hp]
  have hseal := (hc.sealed.invalidate g (c.recGrains s.media g)).setTable (s.keyHash g)
    ((s.table (s.keyHash g)).purge q)
  refine ⟨hl, fun _ _ _ => rfl, hseal.closed, hseal.segs,
    ⟨_, rfl, fun r hr => set_other _ _ hr, ?_⟩, ?_⟩
  · intro hu
    rw [UDepotMap.purge, set_self, HashEntry.purge_used] at hu
    cases hu
  · subst hg
    simp [setTable, invalidateGrains, setSeg]

theorem reloc_retires {s1 : Store c} (hdev : DeviceFits c) {i g g' : Nat} (hc : s.Collectable i)
    (hg : c.grainToSegIdx g = i) (hl : (s.table (s.keyHash g)).lookupPba (s.keyHash g) g = some q)
    (ha : s.allocateGrains j (c.recGrains s.media g) = some (g', s1)) :
    Retires s (((relocated s s1 g g').setTable (s.keyHash g)
      ((s.table (s.keyHash g)).updateInplace q (s.keyHash g) (c.recGrains s.media g)
        g')).invalidateGrains ((s.table (s.keyHash g)).ht q).pba (c.recGrains s.media g))
          i g q := by
  obtain ⟨_, _, hp⟩ := lookupPba_eq_some hl
  obtain ⟨hseal, hsame⟩ := hc.sealed.reloc ha
  obtain ⟨hst, hle, rfl, hd, _, _, hother, _, _⟩ := allocateGrains_eq_some ha
  have hj := hc.segs j (by rw [hst]; simp)
  obtain ⟨hidx, _⟩ := allocated_in_seg hj (kvTotGrainsGet_pos _ _) hle
  have hij : i ≠ j := by
    rintro rfl
    rw [hc.closed] at hst
    cases hst
  have hlt : s.handedOut j < 2 ^ 39 := by
    have hmul : (j + 1) * c.segSize ≤ c.segNr * c.segSize := Nat.mul_le_mul_right _ hj.lt
    have hbound := hmul.trans hdev
    unfold unusedPba at hbound
    omega
  rw [hp]
  have hseal' := (hseal.setTable (s.keyHash g) ((s.table (s.keyHash g)).updateInplace q
    (s.keyHash g) (c.recGrains s.media g) (s.handedOut j))).invalidate g (c.recGrains s.media g)
  refine ⟨hl, hsame, hseal'.closed, hseal'.segs, ⟨(s.table (s.keyHash g)).updateInplace q
    (s.keyHash g) (c.recGrains s.media g) (s.handedOut j), ?_, fun r hr => set_other _ _ hr,
    fun _ => ?_⟩, ?_⟩
  · change s1.dir.setMap (hashToDirIdx c.bits (s.keyHash g) s1.dir.idxBits) _ = _
    rw [hd]
  · simp only [updateInplace, set_self, HashEntry.setPba_pba]
    rw [Nat.mod_eq_of_lt hlt, hidx]
    exact Ne.symm hij
  · subst hg
    have hnr := hother _ hij
    simp [setTable, invalidateGrains, setSeg, relocated, hnr]

theorem localGcCallback_collects (hdev : DeviceFits c) {i g : Nat} (hc : s.Collectable i)
    (hg : c.grainToSegIdx g = i) (h : s.localGcCallback g j = some s') : Collects s s' i g := by
  rcases localGcCallback_cases h with ⟨hl, rfl⟩ | ⟨q, hl, _, rfl⟩ | ⟨q, g', s1, hl, _, ha, rfl⟩
  · refine ⟨rfl, fun _ _ _ => rfl, hc.closed, hc.segs, ?_, fun _ _ _ => rfl, rfl⟩
    rintro k q ⟨rfl, hf⟩
    rw [show (s'.dir.map _).lookupPba (s'.keyHash g) g = none from hl] at hf
    cases hf
  · exact (purge_retires hc hg hl).collects hc hg
  · exact (reloc_retires hdev hc hg hl ha).collects hc hg

/-! ## The walk -/

theorem Collects.inSeg {i g : Nat} (h : Collects s s' i g) :
    s'.InSeg i j q ↔ s.InSeg i j q ∧ ¬s.Finds g j q := by
  constructor
  · intro hin
    have hn : ¬s.Finds g j q := fun hf => h.gone j q hf hin
    obtain ⟨h1, h2, h3, h4⟩ := hin
    rw [h.bits] at h1
    rw [h.other j q hn] at h3 h4
    exact ⟨⟨h1, h2, h3, h4⟩, hn⟩
  · rintro ⟨⟨h1, h2, h3, h4⟩, hn⟩
    refine ⟨by rwa [h.bits], h2, ?_, ?_⟩
    · rwa [h.other j q hn]
    · rwa [h.other j q hn]

theorem Collects.collectable {i g : Nat} (h : Collects s s' i g) (hc : s.Collectable i) :
    s'.Collectable i := by
  refine ⟨by rw [h.bits]; exact hc.width, h.closed, h.segs, fun e he hi => ?_⟩
  obtain ⟨j, q, hj, hq, hu, rfl⟩ := mem_entries.mp he
  obtain ⟨hin, hn⟩ := h.inSeg.mp ⟨hj, hq, hu, hi⟩
  obtain ⟨h1, h2, h3, h4⟩ := hin
  have hext := hc.extent _ (mem_entries.mpr ⟨j, q, h1, h2, h3, rfl⟩) h4
  change ((s'.dir.map j).ht q).pba + c.recGrains s'.media ((s'.dir.map j).ht q).pba ≤ _
  rw [h.other j q hn, recGrains_sameSeg h.media h4 hext]
  exact hext

/-- The lookups for the other records of the chain find what they found before. -/
theorem Collects.finds {i g p off : Nat} (h : Collects s s' i g) (hc : s.Collectable i)
    (hp : p = i * c.segSize + off) (hs : c.gcStop s.media p off = false)
    (hpi : c.grainToSegIdx p = i) (hne : p ≠ g) : s'.Finds p j q ↔ s.Finds p j q := by
  have hkey : s'.keyHash p = s.keyHash p := by
    unfold keyHash
    subst hp
    rw [h.media.recKey hs]
  have hslot : j < 2 ^ s.dir.idxBits → ∀ r, r < entryNr c.bits →
      (((s'.dir.map j).ht r).used && p == ((s'.dir.map j).ht r).pba) =
      (((s.dir.map j).ht r).used && p == ((s.dir.map j).ht r).pba) := by
    intro hj r hr
    by_cases hf : s.Finds g j r
    · -- this slot held the record at `g` and leaves the segment
      obtain ⟨_, _, hpba⟩ := lookupPba_eq_some hf.2
      have h1 : (((s.dir.map j).ht r).used && p == ((s.dir.map j).ht r).pba) = false := by
        rw [hpba]
        simp [hne]
      have h2 : (((s'.dir.map j).ht r).used && p == ((s'.dir.map j).ht r).pba) = false := by
        by_contra hn
        rw [Bool.not_eq_false, Bool.and_eq_true, beq_iff_eq] at hn
        exact h.gone j r hf ⟨by rwa [h.bits], hr, hn.1, by rw [← hn.2]; exact hpi⟩
      rw [h1, h2]
    · rw [h.other j r hf]
  unfold Finds
  rw [h.bits, hkey]
  refine and_congr_right fun hj => ?_
  have hlook : (s'.dir.map j).lookupPba (s.keyHash p) p =
      (s.dir.map j).lookupPba (s.keyHash p) p := by
    apply Scan.findFrom_congr
    intro r h1 h2
    have hb := hashToHb_lt c.bits (s.keyHash p)
    apply hslot
    · rw [hj]
      exact hashToDirIdx_lt hc.width _
    · unfold entryNr
      omega
  rw [hlook]

/-- The walk takes out of the segment exactly the slots that it finds, and the
count of the segment goes down with their records. -/
theorem gcLoop_spec (hdev : DeviceFits c) {i n off : Nat} {tgt : Nat → Nat} (hc : s.Collectable i)
    (h : s.gcLoop i tgt n off = some s') :
    (∀ j q, s'.InSeg i j q ↔ s.InSeg i j q ∧ ¬∃ g ∈ c.gcChain s.media i n off, s.Finds g j q) ∧
      (s'.seg i).validNr - s'.recordGrains i = (s.seg i).validNr - s.recordGrains i := by
  induction n generalizing s off with
  | zero =>
    cases h
    simp [gcChain]
  | succ n ih =>
    unfold gcLoop at h
    dsimp only at h
    split at h
    · rename_i hstop
      cases h
      simp [gcChain, hstop]
    · rename_i hstop
      have hgo : c.gcStop s.media (i * c.segSize + off) off = false := by simpa using hstop
      cases hcb : s.localGcCallback (i * c.segSize + off) (tgt (i * c.segSize + off)) with
      | none => simp [hcb] at h
      | some s1 =>
        simp only [hcb] at h
        have hhead : i * c.segSize + off ∈ c.gcChain s.media i (n + 1) off := by
          simp [gcChain, hgo]
        have hcol := localGcCallback_collects hdev hc (gcChain_in_seg hhead) hcb
        obtain ⟨hin, hcount⟩ := ih (hcol.collectable hc) h
        refine ⟨fun j q => ?_, hcount.trans hcol.counts⟩
        have htail : (∃ g ∈ c.gcChain s1.media i n
          (off + c.recGrains s.media (i * c.segSize + off)),
            s1.Finds g j q) ↔
            ∃ g ∈ c.gcChain s.media i n (off + c.recGrains s.media (i * c.segSize + off)),
              s.Finds g j q := by
          rw [hcol.media.gcChain]
          refine exists_congr fun g => and_congr_right fun hg => ?_
          obtain ⟨o, ho, hgo', hst⟩ := mem_gcChain hg
          have hpos : 0 < c.recGrains s.media (i * c.segSize + off) := kvTotGrainsGet_pos _ _
          exact hcol.finds hc hgo' hst (gcChain_in_seg hg) (by omega)
        rw [hin, hcol.inSeg, htail]
        simp only [gcChain, hgo, Bool.false_eq_true, ↓reduceIte, List.mem_cons, exists_eq_or_imp,
          not_or, and_assoc]

/-! ## The segment afterwards -/

/-- Every entry of the segment lies on the chain and is the one that the collector's
lookup finds. -/
def Walked (s : Store c) (i : Nat) : Prop :=
  ∀ j q, s.InSeg i j q → ((s.dir.map j).ht q).pba ∈ c.gcChain s.media i c.segSize 0 ∧
    s.Finds ((s.dir.map j).ht q).pba j q

theorem no_entry_iff :
    (∀ e ∈ s.dir.entries, c.grainToSegIdx e.pba ≠ i) ↔ ∀ j q, ¬s.InSeg i j q := by
  constructor
  · rintro h j q ⟨hj, hq, hu, hi⟩
    exact h _ (mem_entries.mpr ⟨j, q, hj, hq, hu, rfl⟩) hi
  · intro h e he hi
    obtain ⟨j, q, hj, hq, hu, rfl⟩ := mem_entries.mp he
    exact h j q ⟨hj, hq, hu, hi⟩

theorem recordGrains_of_no_entry (h : ∀ e ∈ s.dir.entries, c.grainToSegIdx e.pba ≠ i) :
    s.recordGrains i = 0 := by
  unfold recordGrains
  rw [filter_eq_nil.mpr h]
  rfl

theorem walked_iff (hdev : DeviceFits c) {tgt : Nat → Nat} (hc : s.Collectable i)
    (h : s.gcCallback i tgt = some s') :
    (∀ e ∈ s'.dir.entries, c.grainToSegIdx e.pba ≠ i) ↔ s.Walked i := by
  have hin := (gcLoop_spec hdev hc h).1
  rw [no_entry_iff]
  constructor
  · intro hno j q hs
    obtain ⟨g, hg, hf⟩ := not_not.mp fun hn => hno j q ((hin j q).mpr ⟨hs, hn⟩)
    obtain ⟨_, _, hp⟩ := lookupPba_eq_some hf.2
    rw [hp]
    exact ⟨hg, hf⟩
  · intro hw j q hs
    obtain ⟨hs0, hn⟩ := (hin j q).mp hs
    obtain ⟨hg, hf⟩ := hw j q hs0
    exact hn ⟨_, hg, hf⟩

/-- When the callback returns 0, no entry points into the segment and its count is 0
exactly if the walk meets every entry of the segment and its count was that of the
records the map points at. -/
theorem gcCallback_complete_iff {s s' : Store c} (hdev : DeviceFits c) {i : Nat} {tgt : Nat → Nat}
    (hc : s.Collectable i) (h : s.gcCallback i tgt = some s') :
    ((∀ e ∈ s'.dir.entries, c.grainToSegIdx e.pba ≠ i) ∧ (s'.seg i).validNr = 0) ↔
      s.Walked i ∧ (s.seg i).validNr = s.recordGrains i := by
  rw [walked_iff hdev hc h]
  refine and_congr_right fun hw => ?_
  have hzero := recordGrains_of_no_entry ((walked_iff hdev hc h).mpr hw)
  have hcount := (gcLoop_spec hdev hc h).2
  omega

/-- A segment with a live record, a tombstone and two dead records is collected. -/
def collectTrace : List Event :=
  [.allocateSegment 1, .put [1] [10] .normal [⟨1, [], 0⟩], .put [2] [20] .normal [⟨1, [], 0⟩],
    .put [1] [11] .normal [⟨1, [], 0⟩], .del [2] [1], .recycleSegment 1, .allocateSegment 2]

theorem collectTrace_complete : ∃ s M s',
    Relation.ReflTransGen OkStep (init colliding (fun _ => 0) 0, fun _ => none) (s, M) ∧
      s.gcCallback 1 (fun _ => 2) = some s' ∧
      (∀ e ∈ s'.dir.entries, colliding.grainToSegIdx e.pba ≠ 1) ∧ (s'.seg 1).validNr = 0 ∧
      s.Walked 1 := by
  have h : ((execChecked (init colliding (fun _ => 0) 0, fun _ => none) collectTrace).bind fun w =>
      (w.1.gcCallback 1 fun _ => 2).map fun s' => ((w.1.seg 1).state,
        decide (∀ e ∈ s'.dir.entries, colliding.grainToSegIdx e.pba ≠ 1), (s'.seg 1).validNr)) =
      some (.closed, true, 0) := by decide +kernel
  obtain ⟨⟨s, M⟩, hw, hgc⟩ := Option.bind_eq_some_iff.mp h
  obtain ⟨s', hs', heq⟩ := Option.map_eq_some_iff.mp hgc
  simp only [Prod.mk.injEq, decide_eq_true_eq] at heq
  obtain ⟨hcl, hno, hv⟩ := heq
  have hrun := execChecked_run (by decide) hw (init_inv (by decide) _ (by decide))
    (init_represents _ _ _)
  have hcol := (run_inv (by decide) (by decide) (by decide) hrun).1.toBase.collectable hcl
  exact ⟨s, M, s', hrun, hs', hno, hv,
    ((gcCallback_complete_iff (by decide) hcol hs').mp ⟨hno, hv⟩).1⟩

/-! ## A failed write -/

/-- The write between two puts fails and leaves its grain as it was. -/
def holeTrace : List Event :=
  [.allocateSegment 1, .put [1] [10] .normal [⟨1, [], 0⟩], .ioFail 1 1 [],
    .put [2] [20] .normal [⟨1, [], 0⟩], .recycleSegment 1, .allocateSegment 2]

/-- The walk stops at the hole: the callback returns 0, and the entry of the second
key still points into the segment. -/
theorem hole_stops_walk : ∃ s M s',
    Relation.ReflTransGen Step (init colliding (fun _ => 0) 0, fun _ => none) (s, M) ∧
      M [2] = some [20] ∧ s.gcCallback 1 (fun _ => 2) = some s' ∧
      ¬((∀ e ∈ s'.dir.entries, colliding.grainToSegIdx e.pba ≠ 1) ∧ (s'.seg 1).validNr = 0) := by
  have h : ((execAll (init colliding (fun _ => 0) 0, fun _ => none) holeTrace).bind fun w =>
      (w.1.gcCallback 1 fun _ => 2).map fun s' => (w.2 [2],
        decide (∀ e ∈ s'.dir.entries, colliding.grainToSegIdx e.pba ≠ 1), (s'.seg 1).validNr)) =
      some (some [20], false, 1) := by decide +kernel
  obtain ⟨w, hw, hgc⟩ := Option.bind_eq_some_iff.mp h
  obtain ⟨s', hs', heq⟩ := Option.map_eq_some_iff.mp hgc
  simp only [Prod.mk.injEq] at heq
  obtain ⟨hk, hno, _⟩ := heq
  exact ⟨w.1, w.2, s', execAll_run hw, hk, hs', fun hall => of_decide_eq_false hno hall.1⟩

end Store
end UDepot
