import UDepot.ShiftLive

/-! What `try_shift` leaves of a table, whatever the window it is called for holds and
wherever it gives up: the entries and the tombstones with their fingerprints. -/

namespace UDepot
open Option

def HashEntry.tombstone (e : HashEntry) : Bool := e.used && e.deleted

namespace UDepotMap
open Scan

variable {bits : Nat}

/-! ## The entries of a table -/

/-- A table each slot of which is live, a tombstone or never used, with every live entry and
every tombstone in the window of its bucket. -/
structure Stored (t : UDepotMap bits) : Prop where
  bits_le : bits ≤ 32
  slot : ∀ q, (t.ht q).used = true → t.SlotWf q
  clean : ∀ q, (t.ht q).used = false → (t.ht q).deleted = false

variable {t : UDepotMap bits}

theorem Stored.wf (w : t.Stored) : t.Wf :=
  ⟨w.bits_le, fun q hq => w.slot q ((HashEntry.live_iff _).mp hq).1, w.clean⟩

def cell (t : UDepotMap bits) (keep : HashEntry → Bool) (q : Nat) : Multiset (Nat × Nat × Nat) :=
  if keep (t.ht q) then {(t.entryKeyfp q, (t.ht q).kvSize, (t.ht q).pba)} else 0

def listed (t : UDepotMap bits) (keep : HashEntry → Bool) : Multiset (Nat × Nat × Nat) :=
  ∑ q ∈ Finset.range (entryNr bits), t.cell keep q

structure Kind (keep : HashEntry → Bool) : Prop where
  offset : ∀ e n, keep (HashEntry.setOffset e n) = keep e
  used : ∀ e, keep e = true → e.used = true

theorem live_kind : Kind HashEntry.live :=
  ⟨fun _ _ => rfl, fun e h => ((HashEntry.live_iff e).mp h).1⟩

theorem tombstone_kind : Kind HashEntry.tombstone :=
  ⟨fun _ _ => rfl, fun e h => by
    rw [HashEntry.tombstone, Bool.and_eq_true] at h
    exact h.1⟩

variable {keep : HashEntry → Bool} {q v h : Nat} {t' : UDepotMap bits}

theorem Kind.cell_unused (k : Kind keep) (h : (t.ht q).used = false) :
    t.cell keep q = 0 := by
  rw [cell, if_neg]
  intro hk
  rw [k.used _ hk] at h
  cases h

theorem cell_congr (h : t'.ht q = t.ht q) :
    t'.cell keep q = t.cell keep q := by
  rw [cell, cell, entryKeyfp_congr h, h]

/-- What two slots exchange, the table as a whole keeps. -/
theorem listed_swap {p : Nat} (hp : p < entryNr bits) (hv : v < entryNr bits)
    (hpv : t'.cell keep p = t.cell keep v) (hvp : t'.cell keep v = t.cell keep p)
    (hr : ∀ r, r ≠ p → r ≠ v → t'.cell keep r = t.cell keep r) :
    t'.listed keep = t.listed keep := by
  refine Finset.sum_equiv (Equiv.swap p v) (fun q => ?_) fun q _ => ?_
  · rcases eq_or_ne q p with rfl | hqp
    · simp [hp, hv]
    · rcases eq_or_ne q v with rfl | hqv
      · simp [hp, hv]
      · rw [Equiv.swap_apply_of_ne_of_ne hqp hqv]
  · rcases eq_or_ne q p with rfl | hqp
    · rw [Equiv.swap_apply_left, hpv]
    · rcases eq_or_ne q v with rfl | hqv
      · rw [Equiv.swap_apply_right, hvp]
      · rw [Equiv.swap_apply_of_ne_of_ne hqp hqv, hr q hqp hqv]

/-! ## One displacement -/

theorem nextFree_lt (hb : bits ≤ 32) (hv : t.nextFree h = some v) :
    v < entryNr bits :=
  ((nextFree_eq_some hb).mp hv).1.lt

theorem displace_unused {p : Nat} (hv : (t.ht v).used = false) (q : Nat) :
    (t.displace p v).ht q = if q = v then
      (t.ht p).setOffset (v + 2 ^ 64 - hashToHb bits (t.entryKeyfp p))
    else if q = p then t.ht v else t.ht q := by
  have hp : (((t.set p (t.ht v)).set v
      ((t.ht p).setOffset (v + 2 ^ 64 - hashToHb bits (t.entryKeyfp p)))).ht p).used = false := by
    rcases eq_or_ne p v with rfl | hne
    · rw [set_self, HashEntry.setOffset_used, hv]
    · rw [set_other _ _ hne, set_self, hv]
  rw [displace, if_neg (by rw [hp]; simp)]
  simp only [set, Function.update_apply]

theorem Stored.displace_used (w : t.Stored) {p : Nat}
    (hp : (t.ht p).used = true) (hv : t.nextFree (t.entryKeyfp p) = some v)
    (hu : (t.ht v).used = false) :
    Displaced t (t.displace p v) p v ∧ (t.displace p v).SlotWf v ∧
      (t.displace p v).entryKeyfp v = t.entryKeyfp p := by
  have hs := w.slot p hp
  obtain ⟨⟨h1, h2⟩, -⟩ := (nextFree_eq_some w.bits_le).mp hv
  rw [hs.hashToHb_keyfp] at h1 h2
  have hne : v ≠ p := by
    rintro rfl
    rw [hp] at hu
    cases hu
  have hd := displace_displaced hs hne h1 h2
  have hoff := hd.moved_offset h2
  have hslot := slotWf_of_offset hoff h1 h2 hs.home_lt
  have htag : ((t.displace p v).ht v).keyTag = (t.ht p).keyTag := by
    rw [hd.moved]
    rfl
  refine ⟨hd, hslot, ?_⟩
  rw [hslot.entryKeyfp_eq, hs.entryKeyfp_eq, htag, home_of_offset hoff h1]

theorem unused_of_free {e : HashEntry} (h : e.free = true) (hd : e.deleted = false) :
    e.used = false := by
  rw [HashEntry.free, hd, Bool.or_false, Bool.not_eq_true'] at h
  exact h

theorem Stored.displace (w : t.Stored) {p : Nat}
    (hv : t.nextFree (t.entryKeyfp p) = some v) (hd : (t.ht v).deleted = false) :
    (t.displace p v).Stored := by
  have hu := unused_of_free ((nextFree_eq_some w.bits_le).mp hv).2.1 hd
  refine ⟨w.bits_le, fun q hq => ?_, fun q hq => ?_⟩
  · rcases eq_or_ne q v with rfl | hqv
    · rw [displace_unused hu, if_pos rfl, HashEntry.setOffset_used] at hq
      exact (w.displace_used hq hv hu).2.1
    · rw [displace_unused hu, if_neg hqv] at hq
      split_ifs at hq with hqp
      · rw [hu] at hq
        cases hq
      · exact (w.slot q hq).congr (by rw [displace_unused hu, if_neg hqv, if_neg hqp])
  · rw [displace_unused hu] at hq ⊢
    split_ifs at hq ⊢
    · rw [HashEntry.setOffset_used] at hq
      rw [HashEntry.setOffset_deleted, w.clean p hq]
    · exact hd
    · exact w.clean q hq

theorem Stored.listed_displace (w : t.Stored) (k : Kind keep) {p : Nat}
    (hlt : p < entryNr bits) (hv : t.nextFree (t.entryKeyfp p) = some v)
    (hd : (t.ht v).deleted = false) : (t.displace p v).listed keep = t.listed keep := by
  have hu := unused_of_free ((nextFree_eq_some w.bits_le).mp hv).2.1 hd
  refine listed_swap hlt (nextFree_lt w.bits_le hv) ?_ ?_ fun r hrp hrv =>
    cell_congr (by rw [displace_unused hu, if_neg hrv, if_neg hrp])
  · rw [k.cell_unused hu, k.cell_unused]
    rcases eq_or_ne p v with rfl | hpv
    · rw [displace_unused hu, if_pos rfl, HashEntry.setOffset_used, hu]
    · rw [displace_unused hu, if_neg hpv, if_pos rfl, hu]
  · cases hp : (t.ht p).used with
    | true =>
      obtain ⟨hdis, -, hfp⟩ := w.displace_used hp hv hu
      rw [cell, cell, hfp, hdis.moved, k.offset]
      rfl
    | false =>
      -- neither of the two slots holds anything
      rw [k.cell_unused hp, k.cell_unused]
      rw [displace_unused hu, if_pos rfl, HashEntry.setOffset_used, hp]

theorem displace_free {p : Nat} (hv : (t.ht v).free = true) :
    ((t.displace p v).ht p).free = true := by
  have hset : ∀ (e : HashEntry) (n : Nat), (e.setOffset n).free = e.free := fun _ _ => rfl
  have h1 : (((t.set p (t.ht v)).set v
      ((t.ht p).setOffset (v + 2 ^ 64 - hashToHb bits (t.entryKeyfp p)))).ht p).free = true := by
    rcases eq_or_ne p v with rfl | hne
    · rw [set_self, hset, hv]
    · rw [set_other _ _ hne, set_self, hv]
  rw [displace]
  split
  · rw [set_self, hset, h1]
  · exact h1

/-! ## The loop -/

theorem shiftLoop_slot (hb : bits ≤ 32) {first pFree p : Nat}
    (h : (t.shiftLoop first pFree p).2 = some q) :
    first ≤ q ∧ q < first + 32 ∧ ((t.shiftLoop first pFree p).1.ht q).free = true := by
  fun_induction shiftLoop t first pFree p with
  | case1 t pFree p hp t' hs hlt =>
    obtain ⟨v, hv, rfl⟩ := map_eq_some_iff.mp hs
    cases h
    exact ⟨hp.1, by omega, displace_free ((nextFree_eq_some hb).mp hv).2.1⟩
  | case2 t pFree p hp t' hs hlt ih | case3 t pFree p hp hs ih => exact ih h
  | case4 t pFree p hp => cases h

/-- What is owed of `try_shift(h)`. -/
structure ShiftPreserves (t : UDepotMap bits) (h : Nat) : Prop where
  live : (t.tryShift h).1.listed HashEntry.live = t.listed HashEntry.live
  tombstones : (t.tryShift h).1.listed HashEntry.tombstone = t.listed HashEntry.tombstone
  placed : ∀ q, ((t.tryShift h).1.ht q).used = true → (t.tryShift h).1.SlotWf q
  slot : ∀ q, (t.tryShift h).2 = some q → hashToHb bits h ≤ q ∧ q < hashToHb bits h + 32 ∧
    ((t.tryShift h).1.ht q).free = true

theorem shiftFree_lt {pFree : Nat} (hf : t.shiftFree h = some pFree) :
    hashToHb32 bits h + 32 ≤ pFree ∧ pFree < 2 ^ bits := by
  rw [shiftFree] at hf
  have hfirst := findFrom_eq_some.mp hf
  have h1 := hfirst.ge
  have h2 := hfirst.lt
  rw [entryNr] at h2
  have hmin := Nat.min_le_right (hashToHb32 bits h + 32 * 64) (2 ^ bits + 32 - 32 - 1)
  generalize min (hashToHb32 bits h + 32 * 64) (2 ^ bits + 32 - 32 - 1) = last at h2 hmin
  exact ⟨h1, by omega⟩

theorem Stored.loop (w : t.Stored) {first pFree p : Nat}
    (hlt : pFree < entryNr bits) (hc : shiftClean t first pFree p = true) :
    (t.shiftLoop first pFree p).1.Stored ∧
      ∀ keep, Kind keep → (t.shiftLoop first pFree p).1.listed keep = t.listed keep := by
  refine (shiftLoop_rule (P := fun t' r => r < entryNr bits ∧ t'.Stored ∧ ∀ keep, Kind keep →
    t'.listed keep = t.listed keep) ?_ hc ⟨hlt, w, fun _ _ => rfl⟩).elim fun _ h => h.2
  rintro t' r q v ⟨hr, hw, hl⟩ hq hv hd
  refine ⟨by omega, hw.displace hv hd, fun keep k => ?_⟩
  rw [hw.listed_displace k (by omega) hv hd, hl keep k]

/-- A `try_shift` that displaces no tombstone, for any window. -/
theorem Stored.preserves (w : t.Stored) (hc : t.tryShiftClean h = true) :
    t.ShiftPreserves h := by
  cases hf : t.shiftFree h with
  | none =>
    have hres : t.tryShift h = (t, none) := by
      unfold tryShift
      simp only [hf]
    refine ⟨by rw [hres], by rw [hres], by rw [hres]; exact w.slot, fun q hq => ?_⟩
    rw [hres] at hq
    cases hq
  | some pFree =>
    unfold tryShiftClean at hc
    simp only [hf] at hc
    have hlt := (shiftFree_lt hf).2
    obtain ⟨hw, hkeep⟩ := w.loop (by rw [entryNr]; omega) hc
    have hres : t.tryShift h = t.shiftLoop (hashToHb32 bits h) pFree (pFree - 31) := by
      unfold tryShift
      simp only [hf]
    have hlive := hkeep _ live_kind
    have htomb := hkeep _ tombstone_kind
    rw [← hres] at hw hlive htomb
    refine ⟨hlive, htomb, hw.slot, fun q hq => ?_⟩
    rw [hres] at hq ⊢
    rw [← hashToHb32_eq w.bits_le]
    exact shiftLoop_slot w.bits_le hq

/-! ## A displaced tombstone -/

theorem shiftLeft_or_mod (tag x : Nat) : (tag <<< bits ||| x) % 2 ^ bits = x % 2 ^ bits := by
  rw [Nat.or_mod_two_pow, Nat.shiftLeft_eq, Nat.mul_mod_left, Nat.zero_or]

/-- A tombstone keeps its stored offset: the bucket is computed from that offset at the new
position. -/
theorem displace_tombstone {p : Nat} (hb : 6 ≤ bits) (hne : v ≠ p)
    (hu : (t.ht v).used = true) : (t.displace p v).ht p = t.ht v := by
  have h1 : (((t.set p (t.ht v)).set v
      ((t.ht p).setOffset (v + 2 ^ 64 - hashToHb bits (t.entryKeyfp p)))).ht p) = t.ht v := by
    rw [set_other _ _ hne.symm, set_self]
  have h2 : hashToHb bits (((t.set p (t.ht v)).set v
      ((t.ht p).setOffset (v + 2 ^ 64 - hashToHb bits (t.entryKeyfp p)))).entryKeyfp p) =
      (p + 2 ^ 64 - (t.ht v).bucketOffset) % 2 ^ 64 % 2 ^ bits := by
    rw [hashToHb_eq, entryKeyfp, h1, shiftLeft_or_mod]
  rw [displace, if_pos (by rw [h1, hu]), set_self, h1, h2]
  have hoff := (t.ht v).offset_lt
  have hbits := t.bits_lt
  have hdvd : 2 ^ 6 ∣ 2 ^ bits := Nat.pow_dvd_pow 2 hb
  have hmod := Nat.mod_mod_of_dvd ((p + 2 ^ 64 - (t.ht v).bucketOffset) % 2 ^ 64) hdvd
  have hle := Nat.mod_le ((p + 2 ^ 64 - (t.ht v).bucketOffset) % 2 ^ 64) (2 ^ bits)
  generalize (p + 2 ^ 64 - (t.ht v).bucketOffset) % 2 ^ 64 % 2 ^ bits = x at hmod hle
  rw [HashEntry.setOffset_congr (b := (t.ht v).bucketOffset) _ (by omega), HashEntry.setOffset_self]

namespace ShiftInv

variable {t : UDepotMap bits} {first pFree p : Nat}

theorem deleted_used (i : t.ShiftInv first pFree) {v : Nat} (hd : (t.ht v).deleted = true) :
    (t.ht v).used = true := by
  by_contra hu
  rw [i.wf.clean v (by simpa using hu)] at hd
  cases hd

theorem tombstone_step (i : t.ShiftInv first pFree) (hb : 6 ≤ bits) (hp : first ≤ p ∧ p < pFree)
    {v q : Nat} (hv : t.nextFree (t.entryKeyfp p) = some v) (hq : (t.ht q).tombstone = true) :
    ∃ q', (t.displace p v).ht q' = t.ht q ∧ (q' = q ∨ q' = p) := by
  obtain ⟨ht, hd, -⟩ := i.step hp hv
  have hlive := i.full p hp.1 hp.2
  rw [HashEntry.tombstone, Bool.and_eq_true] at hq
  rcases eq_or_ne q v with rfl | hqv
  · exact ⟨p, displace_tombstone hb (ht.ne hlive) hq.1, .inr rfl⟩
  · have hqp : q ≠ p := by
      rintro rfl
      rw [((HashEntry.live_iff _).mp hlive).2] at hq
      cases hq.2
    exact ⟨q, hd.other q hqp hqv, .inl rfl⟩

theorem tombstone_goes (i : t.ShiftInv first pFree) (hb : 6 ≤ bits) {q : Nat}
    (hq : (t.ht q).tombstone = true) : ∃ q', (t.shiftLoop first pFree p).1.ht q' = t.ht q ∧
      (q' = q ∨ first ≤ q' ∧ q' < pFree) := by
  fun_induction shiftLoop t first pFree p generalizing q with
  | case1 t pFree p hp t' hs hlt =>
    obtain ⟨v, hv, rfl⟩ := map_eq_some_iff.mp hs
    obtain ⟨q', hq', hor⟩ := i.tombstone_step hb hp hv hq
    exact ⟨q', hq', by omega⟩
  | case2 t pFree p hp t' hs hlt ih =>
    obtain ⟨v, hv, rfl⟩ := map_eq_some_iff.mp hs
    obtain ⟨q1, hq1, hor⟩ := i.tombstone_step hb hp hv hq
    obtain ⟨q', hq', hor'⟩ := ih (i.step hp hv).2.2 (by rw [hq1, hq])
    exact ⟨q', hq'.trans hq1, by omega⟩
  | case3 t pFree p hp hs ih => exact ih i hq
  | case4 t pFree p hp => exact ⟨q, rfl, .inl rfl⟩

/-- A loop that is not clean moves a tombstone, with the offset that it had. -/
theorem tombstone_moved (i : t.ShiftInv first pFree) (hb : 6 ≤ bits)
    (hc : shiftClean t first pFree p = false) : ∃ q q', (t.ht q).tombstone = true ∧ first ≤ q' ∧
      q' < pFree ∧ (t.shiftLoop first pFree p).1.ht q' = t.ht q := by
  fun_induction shiftLoop t first pFree p with
  | case1 t pFree p hp t' hs hlt =>
    obtain ⟨v, hv, rfl⟩ := map_eq_some_iff.mp hs
    rw [shiftClean, if_pos hp, hv] at hc
    simp only [hlt, decide_true, Bool.true_or, Bool.and_true, Bool.not_eq_false'] at hc
    obtain ⟨ht, -, -⟩ := i.step hp hv
    have hu := i.deleted_used hc
    exact ⟨v, p, by rw [HashEntry.tombstone, hu, hc]; rfl, hp.1, hp.2,
      displace_tombstone hb (ht.ne (i.full p hp.1 hp.2)) hu⟩
  | case2 t pFree p hp t' hs hlt ih =>
    obtain ⟨v, hv, rfl⟩ := map_eq_some_iff.mp hs
    rw [shiftClean, if_pos hp, hv] at hc
    simp only [hlt, decide_false, Bool.false_or] at hc
    obtain ⟨ht, hd, hi⟩ := i.step hp hv
    have hlive := i.full p hp.1 hp.2
    cases hdel : (t.ht v).deleted with
    | true =>
      -- the tombstone of `v` comes to `p` and may be moved on
      have hu := i.deleted_used hdel
      have hp' := displace_tombstone hb (ht.ne hlive) hu
      have htomb : (t.ht v).tombstone = true := by rw [HashEntry.tombstone, hu, hdel]; rfl
      obtain ⟨q', hq', hor⟩ := hi.tombstone_goes (p := max first (p - 31)) hb (by rw [hp', htomb])
      exact ⟨v, q', htomb, by omega, by omega, hq'.trans hp'⟩
    | false =>
      rw [hdel] at hc
      obtain ⟨q1, q', hq1, h1, h2, hq'⟩ := ih hi (by simpa using hc)
      have hqp : q1 ≠ p := by
        rintro rfl
        rw [HashEntry.tombstone, hd.left_deleted, hdel, Bool.and_false] at hq1
        cases hq1
      have hqv : q1 ≠ v := by
        rintro rfl
        rw [HashEntry.tombstone, Bool.and_eq_true] at hq1
        rw [hd.moved, HashEntry.setOffset_deleted] at hq1
        rw [((HashEntry.live_iff _).mp hlive).2] at hq1
        cases hq1.2
      have ho := hd.other q1 hqp hqv
      exact ⟨q1, q', by rw [← ho, hq1], h1, by omega, hq'.trans ho⟩
  | case3 t pFree p hp hs ih =>
    rw [shiftClean, if_pos hp, map_eq_none_iff.mp hs] at hc
    exact ih i hc
  | case4 t pFree p hp =>
    rw [shiftClean, if_neg hp] at hc
    cases hc

end ShiftInv

theorem mem_listed {x : Nat × Nat × Nat} :
    x ∈ t.listed keep ↔ ∃ q < entryNr bits, keep (t.ht q) = true ∧
      x = (t.entryKeyfp q, (t.ht q).kvSize, (t.ht q).pba) := by
  rw [listed, Multiset.mem_sum]
  refine exists_congr fun q => ?_
  rw [Finset.mem_range, cell]
  split
  · rename_i hk
    rw [Multiset.mem_singleton, hk]
    simp
  · rename_i hk
    simp [hk]

theorem SlotWf.keyfp_moved {q' : Nat} (hs : t.SlotWf q)
    (he : t'.ht q' = t.ht q) (hne : q' ≠ q) (hlt : q' < 2 ^ bits) :
    t'.entryKeyfp q' ≠ t.entryKeyfp q := by
  intro heq
  have hpow := t.two_pow_bits_lt
  have hoff := hs.off_le
  have h64 := (t.ht q).offset_lt
  have hhome := hs.home_lt
  have htag := (t.ht q).tag_lt
  have hold : t.entryKeyfp q < 2 ^ 8 * 2 ^ bits := by
    rw [hs.entryKeyfp_eq]
    have := Nat.mul_le_mul_right (2 ^ bits) (Nat.le_sub_one_of_lt htag)
    omega
  have hmod : (q' + 2 ^ 64 - (t.ht q).bucketOffset) % 2 ^ 64 % 2 ^ bits = t.home q := by
    rw [← hs.hashToHb_keyfp, ← heq, hashToHb_eq, entryKeyfp, he, shiftLeft_or_mod]
  have hge : (q' + 2 ^ 64 - (t.ht q).bucketOffset) % 2 ^ 64 ≤ t.entryKeyfp q := by
    rw [← heq, entryKeyfp, he]
    exact Nat.right_le_or
  rw [home] at hmod hhome
  rcases Nat.lt_or_ge q' (t.ht q).bucketOffset with hlo | hlo
  · omega
  · have hq' : (q' + 2 ^ 64 - (t.ht q).bucketOffset) % 2 ^ 64 =
      q' - (t.ht q).bucketOffset := by omega
    rw [hq', Nat.mod_eq_of_lt (by omega)] at hmod
    omega

def TombstonesApart (t : UDepotMap bits) : Prop :=
  ∀ q q', q < entryNr bits → q' < entryNr bits → (t.ht q).tombstone = true →
    (t.ht q').tombstone = true → (t.ht q).pba = (t.ht q').pba → q = q'

/-- With a full window, a tombstone that is displaced shows. -/
theorem Stored.clean_of_preserves (w : t.Stored) (hn : t.nextFree h = none)
    (ha : t.TombstonesApart) (hp : t.ShiftPreserves h) : t.tryShiftClean h = true := by
  cases hf : t.shiftFree h with
  | none =>
    unfold tryShiftClean
    simp only [hf]
  | some pFree =>
    obtain ⟨h32, hlt⟩ := shiftFree_lt hf
    have hb : 6 ≤ bits := by
      by_contra hb
      have : 2 ^ bits ≤ 2 ^ 5 := Nat.pow_le_pow_right (by decide) (by omega)
      omega
    have hi := shiftInv_start w.wf hn hf
    by_contra hc
    unfold tryShiftClean at hc
    simp only [hf, Bool.not_eq_true] at hc
    obtain ⟨q, q', hq, h1, h2, he⟩ := hi.tombstone_moved hb hc
    have hres : t.tryShift h = t.shiftLoop (hashToHb32 bits h) pFree (pFree - 31) := by
      unfold tryShift
      simp only [hf]
    rw [← hres] at he
    have hne : q' ≠ q := by
      rintro rfl
      have hlive := hi.full q' h1 h2
      rw [HashEntry.tombstone, Bool.and_eq_true] at hq
      rw [((HashEntry.live_iff _).mp hlive).2] at hq
      cases hq.2
    have hmem : ((t.tryShift h).1.entryKeyfp q', ((t.tryShift h).1.ht q').kvSize,
        ((t.tryShift h).1.ht q').pba) ∈ (t.tryShift h).1.listed HashEntry.tombstone :=
      mem_listed.mpr ⟨q', by rw [entryNr]; omega, by rw [he, hq], rfl⟩
    rw [hp.tombstones] at hmem
    obtain ⟨r, hr, hrt, heq⟩ := mem_listed.mp hmem
    obtain ⟨hfp, -, hpba⟩ : (t.tryShift h).1.entryKeyfp q' = t.entryKeyfp r ∧ _ ∧
        ((t.tryShift h).1.ht q').pba = (t.ht r).pba := by simpa using heq
    have hs := w.slot q (tombstone_kind.used _ hq)
    have hqlt : q < entryNr bits := by
      have := hs.lt_home
      have := hs.home_lt
      rw [entryNr]
      omega
    obtain rfl := ha q r hqlt hr hq hrt (by rw [← hpba, he])
    exact hs.keyfp_moved he hne (by omega) hfp

/-- `try_shift` keeps entries and tombstones, and finds a free slot in the window if it
succeeds, whenever no displacement has a tombstone as its victim; with a full window and
tombstones of different records, only then. -/
theorem tryShift_preserves_iff {t : UDepotMap bits} (w : t.Stored) (h : Nat) :
    (t.tryShiftClean h = true → t.ShiftPreserves h) ∧
      (t.nextFree h = none → t.TombstonesApart → t.ShiftPreserves h →
        t.tryShiftClean h = true) :=
  ⟨w.preserves, w.clean_of_preserves⟩

/-- A table with 64 buckets whose first window is full and with `e` behind it. All entries of
the window belong to the first bucket but the second one, which belongs to the next. -/
def crowded (e : HashEntry) : UDepotMap 6 where
  ht q :=
    if h : q < 32 then
      ⟨if q = 1 then 0 else q, q, 1, q, by split <;> omega, by omega, HashEntry.one_kv_lt,
        HashEntry.window_pba_lt h⟩
    else if q = 32 then e else .fresh
  bits_lt := by decide

/-- A tombstone one slot behind its bucket. -/
def grave : HashEntry := ⟨1, 7, 0, 32, by decide, by decide, by decide, by decide⟩

theorem crowded_stored {e : HashEntry} (he : e.used = true → e.bucketOffset < 32)
    (hc : e.used = false → e.deleted = false) : (crowded e).Stored := by
  refine ⟨by decide, fun q hq => ?_, fun q hq => ?_⟩
  · by_cases h : q < 32
    · have hoff : ((crowded e).ht q).bucketOffset = if q = 1 then 0 else q := by simp [crowded, h]
      refine ⟨?_, ?_, ?_⟩ <;> simp only [home, hoff] <;> split <;> omega
    · by_cases h32 : q = 32
      · subst h32
        have hht : (crowded e).ht 32 = e := rfl
        rw [hht] at hq
        have := he hq
        exact ⟨by rw [hht]; omega, by rw [hht]; exact he hq, by rw [home, hht]; omega⟩
      · simp [crowded, h, h32] at hq
  · by_cases h : q < 32
    · simp [crowded, h, HashEntry.deleted]
    · grind [crowded, HashEntry.deleted, HashEntry.fresh, maxKvSize]

/-- The second entry of the window goes to the slot behind the window. -/
theorem crowded_shift {e : HashEntry} (hf : (crowded e).shiftFree 0 = some 32)
    (hv : (crowded e).nextFree ((crowded e).entryKeyfp 1) = some 32) :
    (crowded e).tryShift 0 = ((crowded e).displace 1 32, some 1) ∧
      (crowded e).tryShiftClean 0 = !e.deleted := by
  have hfirst : hashToHb32 6 0 = 0 := by decide
  constructor
  · unfold tryShift
    simp only [hf, hfirst]
    rw [shiftLoop, if_pos (by decide), tryShiftOne, hv]
    rfl
  · unfold tryShiftClean
    simp only [hf, hfirst]
    rw [shiftClean, if_pos (by decide), hv]
    simp [crowded]

theorem crowded_preserves : ((crowded .fresh).tryShift 0).2 = some 1 ∧
    (crowded .fresh).ShiftPreserves 0 := by
  obtain ⟨hres, hclean⟩ := @crowded_shift .fresh (by decide +kernel) (by decide +kernel)
  exact ⟨by rw [hres], (tryShift_preserves_iff (crowded_stored (by decide) (by decide)) 0).1 hclean⟩

/-- The tombstone behind the full window goes to the second slot, and with it its fingerprint
from bucket 31 to bucket 0. -/
theorem tombstone_displaced : (crowded grave).Stored ∧ (crowded grave).nextFree 0 = none ∧
    ((crowded grave).tryShift 0).2 = some 1 ∧
    (crowded grave).listed HashEntry.tombstone = {(7 * 64 + 31, 0, 32)} ∧
    ((crowded grave).tryShift 0).1.listed HashEntry.tombstone = {(7 * 64, 0, 32)} ∧
    ¬ (crowded grave).ShiftPreserves 0 := by
  obtain ⟨hres, -⟩ := @crowded_shift grave (by decide +kernel) (by decide +kernel)
  have hbefore : (crowded grave).listed HashEntry.tombstone = {(7 * 64 + 31, 0, 32)} := by
    decide +kernel
  have hafter : ((crowded grave).tryShift 0).1.listed HashEntry.tombstone = {(7 * 64, 0, 32)} := by
    rw [hres]
    decide +kernel
  refine ⟨crowded_stored (by decide) (by decide), by decide +kernel, by rw [hres], hbefore, hafter,
    fun hp => ?_⟩
  have heq := hp.tombstones
  rw [hbefore, hafter] at heq
  exact absurd heq (by decide)

end UDepotMap
end UDepot
