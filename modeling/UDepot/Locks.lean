import UDepot.MapRun
import UDepot.Record

/-! The locks of a table (`lock_common` in `udepot-map.hh`, the region sizes in
`udepot-map.cc`). A hash takes the lock of the region that its window may reach back
into, and the next one if what it may touch reaches there.

First the slots that an operation on a hash reads or writes, then the regions. -/

namespace UDepot
open Scan List

namespace UDepotMap

variable {bits : Nat}

/-! ## The slots of an operation -/

/-- The slots that the loop of `try_shift` goes to: the candidates and the windows of
their buckets. -/
def shiftSlots (t : UDepotMap bits) (first pFree p : Nat) : List Nat :=
  if first ≤ p ∧ p < pFree then
    p :: (List.range' (hashToHb32 bits (t.entryKeyfp p)) 32 ++
      match t.tryShiftOne p with
      | some t' => if p - first < 32 then [] else shiftSlots t' first p (max first (p - 31))
      | none => shiftSlots t first pFree (p + 1))
  else []
  termination_by (pFree, pFree - p)

/-- The slots of `try_shift`: those in which it looks for a free one, and those of the loop. -/
def tryShiftSlots (t : UDepotMap bits) (h : Nat) : List Nat :=
  let first := hashToHb32 bits h
  let last := min (first + 32 * 64) (entryNr bits - 32 - 1)
  List.range' (first + 32) (last - (first + 32)) ++
    match t.shiftFree h with
    | none => []
    | some pFree => t.shiftSlots first pFree (pFree - 31)

/-- An operation on `h` may read or write the slot: a lookup or `next`, or the update of a
slot that one of them returned; `next_free`; or `try_shift`, which is called on a full
window. -/
inductive Touches (t : UDepotMap bits) (h : Nat) : Nat → Prop where
  | window {q : Nat} : InWindow bits h q → Touches t h q
  | nextFree {q : Nat} : hashToHb32 bits h ≤ q → q < hashToHb32 bits h + 32 → Touches t h q
  | shift {q : Nat} : t.nextFree h = none → q ∈ t.tryShiftSlots h → Touches t h q

variable {t t' : UDepotMap bits} {p q first pFree : Nat}

theorem mem_window {a : Nat} : q ∈ List.range' a 32 ↔ a ≤ q ∧ q < a + 32 := by
  rw [mem_range'_1]

/-- The slots of the loop lie within 31 slots of the range between the bucket and the free
slot: every candidate is live, so its own bucket starts at most 31 slots before it. -/
theorem shiftSlots_bounds (i : t.ShiftInv first pFree) (hq : q ∈ t.shiftSlots first pFree p) :
    first ≤ q + 31 ∧ q < pFree + 31 := by
  have hwin : ∀ {t : UDepotMap bits} {pFree p : Nat}, t.ShiftInv first pFree →
      first ≤ p ∧ p < pFree → q = p ∨ q ∈ List.range' (hashToHb32 bits (t.entryKeyfp p)) 32 →
        first ≤ q + 31 ∧ q < pFree + 31 := by
    intro t pFree p i hp hq
    have hs := i.wf.slot p (i.full p hp.1 hp.2)
    have h1 := hs.home_le
    have h2 := hs.lt_home
    rw [hashToHb32_eq i.wf.bits_le, hs.hashToHb_keyfp, mem_window] at hq
    omega
  induction t, pFree, p using shiftLoop.induct first with
  | case1 t pFree p hp t' hs hlt =>
    rw [shiftSlots, if_pos hp] at hq
    simp only [hs, hlt, ↓reduceIte, append_nil, mem_cons] at hq
    exact hwin i hp hq
  | case2 t pFree p hp t' hs hlt ih =>
    obtain ⟨v, hv, rfl⟩ := Option.map_eq_some_iff.mp hs
    rw [shiftSlots, if_pos hp] at hq
    simp only [hs, hlt, ↓reduceIte, mem_cons, mem_append, ← or_assoc] at hq
    rcases hq with hq | hq
    · exact hwin i hp hq
    · have hrest := ih (i.step hp hv).2.2 hq
      omega
  | case3 t pFree p hp hs ih =>
    rw [shiftSlots, if_pos hp] at hq
    simp only [hs, mem_cons, mem_append, ← or_assoc] at hq
    rcases hq with hq | hq
    · exact hwin i hp hq
    · exact ih i hq
  | case4 t pFree p hp =>
    rw [shiftSlots, if_neg hp] at hq
    cases hq

/-- What an operation touches lies from 31 slots before its bucket to the end of the 64
buckets and the last window. -/
theorem Touches.bounds (w : t.Wf) {h : Nat} (ht : t.Touches h q) :
    hashToHb bits h ≤ q + 31 ∧ q < hashToHb bits h + 2080 := by
  have h32 := hashToHb32_eq w.bits_le h
  cases ht with
  | window hw =>
    obtain ⟨h1, h2⟩ := hw
    omega
  | nextFree h1 h2 => omega
  | shift hn hq =>
    rcases mem_append.mp hq with hq | hq
    · rw [mem_range'_1] at hq
      omega
    · cases hf : t.shiftFree h with
      | none => simp [hf] at hq
      | some pFree =>
        simp only [hf] at hq
        have hfree := (findFrom_eq_some.mp hf).lt
        have hb := shiftSlots_bounds (shiftInv_start w hn hf) hq
        omega

end UDepotMap

/-! ## The regions -/

def roundDownPow2 (x : Nat) : Nat := if x = 0 then 0 else 2 ^ x.log2

/-- The regions of a table: its bucket bits, the number of locks in use and the slots of a
region. -/
structure LockRegions where
  bits : Nat
  lockNr : Nat
  entryPerLockNr : Nat
  deriving DecidableEq, Repr

namespace LockRegions
open UDepotMap

/-- The loop of `restore`: the lock count is halved until a region can hold what an operation
may touch. The count is a `u32`; a count of zero is never left. -/
def lockLoop (entryNr : Nat) : Nat → Nat → Option (Nat × Nat)
  | 0, _ => none
  | fuel + 1, lockNr =>
    if lockNr = 1 then some (1, entryNr)
    else if 32 * (1 + 64) ≤ udivRoundUp entryNr lockNr then
      some (lockNr, udivRoundUp entryNr lockNr)
    else lockLoop entryNr fuel (lockNr / 2)

/-- `restore(lock_nr, size, ht)`, which `init` calls too. A region of exactly 32 slots passes
the size check and stops at the assertion that follows it. -/
def restore (lockNr size : Nat) : Option LockRegions :=
  let entryNr := size / 8
  if entryNr < 32 then none
  else
    let buckets := roundDownPow2 (entryNr - 32)
    if buckets = 0 then none
    else
      let bits := buckets.log2
      (lockLoop (UDepotMap.entryNr bits) 33 lockNr).map fun r => ⟨bits, r.1, r.2⟩

/-- `lock_common`: the first lock, and the second if there is one. -/
def lockCommon (g : LockRegions) (h : Nat) : Nat × Option Nat :=
  let first := hashToHb g.bits h
  let last := min (first + 32 * (64 + 1)) (entryNr g.bits - 32 - 1)
  let slb := if 32 ≤ first then (first - 32) / g.entryPerLockNr else first / g.entryPerLockNr
  (slb, if (slb + 1) * g.entryPerLockNr ≤ last then some (slb + 1) else none)

def locks (g : LockRegions) (h : Nat) : List Nat :=
  (g.lockCommon h).1 :: (g.lockCommon h).2.toList

/-- The locks cover the table: operations that may meet in a slot share a lock, every lock is
one of `locks_m`, and they are taken in increasing order. -/
structure LocksCover (g : LockRegions) : Prop where
  shared : ∀ (hb : g.bits + 8 < 64) (t t' : UDepotMap g.bits),
    Relation.ReflTransGen CallStep (init g.bits hb) t →
    Relation.ReflTransGen CallStep (init g.bits hb) t' →
    ∀ h h' q, t.Touches h q → t'.Touches h' q → ∃ l ∈ g.locks h, l ∈ g.locks h'
  within : ∀ h, ∀ l ∈ g.locks h, l < 8192 + 1
  ordered : ∀ h, (g.locks h).Pairwise (· < ·)

theorem two_pow_sub {a b : Nat} (h : a ≤ b) : 2 ^ b = 2 ^ (b - a) * 2 ^ a := by
  rw [← pow_add, Nat.sub_add_cancel h]

variable {i j : Nat}

theorem udivRoundUp_region {bits : Nat} (h1 : 1 ≤ i) (hi : i ≤ bits) :
    ∃ c, 1 ≤ c ∧ c ≤ 16 ∧ udivRoundUp (entryNr bits) (2 ^ i) = 2 ^ (bits - i) + c := by
  have hk : 2 ≤ 2 ^ i := Nat.le_self_pow (by omega) 2
  refine ⟨(31 + 2 ^ i) / 2 ^ i, ?_, ?_, ?_⟩
  · exact (Nat.one_le_div_iff (by omega)).mpr (by omega)
  · exact Nat.lt_succ_iff.mp (Nat.div_lt_of_lt_mul (by omega))
  · rw [udivRoundUp, entryNr, two_pow_sub hi,
      show 2 ^ (bits - i) * 2 ^ i + 32 + 2 ^ i - 1 = 31 + 2 ^ i + 2 ^ (bits - i) * 2 ^ i by omega,
      Nat.add_mul_div_right _ _ (by omega), Nat.add_comm]

/-- A region is large enough exactly when its share of the buckets is at least 4096: the
number of slots is a power of two and at most 16 more. -/
theorem region_large_iff {bits : Nat} (h1 : 1 ≤ i) :
    32 * (1 + 64) ≤ udivRoundUp (entryNr bits) (2 ^ i) ↔ i + 12 ≤ bits := by
  constructor
  · intro h
    by_contra hlt
    rcases Nat.lt_or_ge bits i with hb | hb
    · have hpow : 2 ^ bits ≤ 2 ^ i := Nat.pow_le_pow_right (by norm_num) hb.le
      have hk : 2 ≤ 2 ^ i := Nat.le_self_pow (by omega) 2
      have hsmall : udivRoundUp (entryNr bits) (2 ^ i) < 33 + 1 := by
        refine Nat.div_lt_of_lt_mul ?_
        rw [entryNr]
        omega
      omega
    · obtain ⟨c, _, hc, heq⟩ := udivRoundUp_region h1 hb
      have hpow : 2 ^ (bits - i) ≤ 2 ^ 11 := Nat.pow_le_pow_right (by norm_num) (by omega)
      omega
  · intro h
    obtain ⟨c, hc, _, heq⟩ := udivRoundUp_region h1 (show i ≤ bits by omega)
    have hpow : 2 ^ 12 ≤ 2 ^ (bits - i) := Nat.pow_le_pow_right (by norm_num) (by omega)
    omega

/-- What `restore` leaves for a lock count of `2 ^ j`: one lock, or `2 ^ i` regions of at least
4096 slots. -/
inductive Regions (j : Nat) (g : LockRegions) : Prop where
  | one : g.lockNr = 1 → g.entryPerLockNr = entryNr g.bits → j = 0 ∨ g.bits ≤ 12 → Regions j g
  | many (i : Nat) : 1 ≤ i → i ≤ j → i + 12 ≤ g.bits → (i = j ∨ i + 12 = g.bits) →
      g.lockNr = 2 ^ i → g.entryPerLockNr = udivRoundUp (entryNr g.bits) (2 ^ i) → Regions j g

theorem lockLoop_regions (bits : Nat) {fuel : Nat} (hj : j < fuel) :
    ∃ r, lockLoop (entryNr bits) fuel (2 ^ j) = some r ∧ Regions j ⟨bits, r.1, r.2⟩ := by
  induction fuel generalizing j with
  | zero => omega
  | succ fuel ih =>
    cases j with
    | zero => exact ⟨(1, entryNr bits), rfl, .one rfl rfl (.inl rfl)⟩
    | succ j =>
      have hne : (2 : Nat) ^ (j + 1) ≠ 1 := by
        have := Nat.le_self_pow (n := j + 1) (by omega) 2
        omega
      rw [lockLoop, if_neg hne]
      by_cases hl : j + 1 + 12 ≤ bits
      · rw [if_pos ((region_large_iff (by omega)).mpr hl)]
        exact ⟨_, rfl, .many (j + 1) (by omega) le_rfl hl (.inl rfl) rfl rfl⟩
      · rw [if_neg (mt (region_large_iff (by omega)).mp hl), pow_succ,
          Nat.mul_div_cancel _ (by norm_num)]
        obtain ⟨r, hr, hreg⟩ := ih (j := j) (by omega)
        refine ⟨r, hr, ?_⟩
        cases hreg with
        | one h1 h2 h3 => exact .one h1 h2 (.inr (by simp only at h3 ⊢; omega))
        | many i h1 h2 h3 h4 h5 h6 =>
          exact .many i h1 (by omega) h3 (.inr (by simp only at h3 h4 ⊢; omega)) h5 h6

theorem restore_regions {size : Nat} {g : LockRegions} (hj : j < 32)
    (hr : restore (2 ^ j) size = some g) :
    Regions j g ∧ 8 * (2 ^ g.bits + 32) ≤ size ∧ size < 8 * (2 ^ (g.bits + 1) + 32) := by
  unfold restore at hr
  simp only [Option.ite_none_left_eq_some, Option.map_eq_some_iff] at hr
  obtain ⟨hsize, hpos, r, hr, rfl⟩ := hr
  have hx : size / 8 - 32 ≠ 0 := fun h0 => hpos (by simp [roundDownPow2, h0])
  have hlog : (roundDownPow2 (size / 8 - 32)).log2 = (size / 8 - 32).log2 := by
    rw [roundDownPow2, if_neg hx, Nat.log2_two_pow]
  rw [hlog] at hr ⊢
  obtain ⟨r', hr', hreg⟩ := lockLoop_regions (size / 8 - 32).log2 (show j < 33 by omega)
  cases hr.symm.trans hr'
  have h1 := Nat.log2_self_le hx
  have h2 := Nat.lt_log2_self (n := size / 8 - 32)
  refine ⟨hreg, ?_, ?_⟩ <;> dsimp only <;> omega

/-! ## What the locks cover -/

variable {g : LockRegions} {h h' : Nat}

theorem firstLock_eq (hper : 32 ≤ g.entryPerLockNr) (h : Nat) :
    (g.lockCommon h).1 = (hashToHb g.bits h - 32) / g.entryPerLockNr := by
  unfold lockCommon
  dsimp only
  split
  · rfl
  · rw [Nat.div_eq_of_lt (by omega), Nat.div_eq_of_lt (by omega)]

theorem mem_locks {l : Nat} : l ∈ g.locks h ↔ l = (g.lockCommon h).1 ∨
    l = (g.lockCommon h).1 + 1 ∧ ((g.lockCommon h).1 + 1) * g.entryPerLockNr ≤
      min (hashToHb g.bits h + 32 * (64 + 1)) (entryNr g.bits - 32 - 1) := by
  rw [locks, mem_cons, Option.mem_toList]
  unfold lockCommon
  dsimp only
  split <;> simp [eq_comm, and_comm]

theorem locks_ordered (g : LockRegions) (h : Nat) : (g.locks h).Pairwise (· < ·) := by
  unfold locks lockCommon
  dsimp only
  split <;> simp

theorem locks_one (hper : g.entryPerLockNr = entryNr g.bits) (h : Nat) : g.locks h = [0] := by
  have hlt := hashToHb_lt g.bits h
  have hfirst : (g.lockCommon h).1 = 0 := by
    rw [firstLock_eq (by rw [hper, entryNr]; omega)]
    exact Nat.div_eq_of_lt (by rw [hper, entryNr]; omega)
  have hsecond : (g.lockCommon h).2 = none := by
    have h0 := hfirst
    unfold lockCommon at h0 ⊢
    dsimp only at h0 ⊢
    rw [h0, hper, if_neg]
    rw [entryNr]
    omega
  rw [locks, hfirst, hsecond]
  rfl

/-- Buckets less than a region apart share a lock: the later one is in the first region of
the earlier one, or in the next, which the earlier one then takes. -/
theorem shared_of_near (hper : 2110 < g.entryPerLockNr)
    (hle : hashToHb g.bits h ≤ hashToHb g.bits h')
    (hnear : hashToHb g.bits h' ≤ hashToHb g.bits h + 2110) : ∃ l ∈ g.locks h, l ∈ g.locks h' := by
  refine ⟨(g.lockCommon h').1, ?_, mem_locks.mpr (.inl rfl)⟩
  have hlt := hashToHb_lt g.bits h'
  have hentry : entryNr g.bits - 32 - 1 = 2 ^ g.bits - 1 := by rw [entryNr]; omega
  rw [mem_locks, hentry, firstLock_eq (by omega), firstLock_eq (by omega)]
  generalize g.entryPerLockNr = per at *
  have hlow : (hashToHb g.bits h - 32) / per ≤ (hashToHb g.bits h' - 32) / per :=
    Nat.div_le_div_right (by omega)
  have hhigh : (hashToHb g.bits h' - 32) / per ≤ (hashToHb g.bits h - 32) / per + 1 := by
    rw [← Nat.add_div_right _ (by omega)]
    exact Nat.div_le_div_right (by omega)
  rcases Nat.lt_or_ge ((hashToHb g.bits h - 32) / per)
    ((hashToHb g.bits h' - 32) / per) with hs | hs
  · have heq : (hashToHb g.bits h' - 32) / per = (hashToHb g.bits h - 32) / per + 1 := by omega
    refine .inr ⟨heq, ?_⟩
    rw [← heq]
    have hmul := Nat.div_mul_le_self (hashToHb g.bits h' - 32) per
    omega
  · exact .inl (by omega)

theorem shared_of_touches (h32 : g.bits ≤ 32) (hper : 2110 < g.entryPerLockNr)
    (hb : g.bits + 8 < 64) {t t' : UDepotMap g.bits}
    (ht : Relation.ReflTransGen CallStep (init g.bits hb) t)
    (ht' : Relation.ReflTransGen CallStep (init g.bits hb) t') {q : Nat} (hq : t.Touches h q)
    (hq' : t'.Touches h' q) : ∃ l ∈ g.locks h, l ∈ g.locks h' := by
  obtain ⟨h1, h2⟩ := hq.bounds (calls_wf hb h32 ht)
  obtain ⟨h3, h4⟩ := hq'.bounds (calls_wf hb h32 ht')
  rcases Nat.le_total (hashToHb g.bits h) (hashToHb g.bits h') with hle | hle
  · exact shared_of_near hper hle (by omega)
  · have hshared : ∃ l ∈ g.locks h', l ∈ g.locks h := shared_of_near hper hle (by omega)
    obtain ⟨l, hl, hl'⟩ := hshared
    exact ⟨l, hl', hl⟩

/-- Every lock is below the number of locks: the regions together hold all slots. -/
theorem lock_lt (hnr : g.lockNr = 2 ^ i) (hper : 32 ≤ g.entryPerLockNr)
    (heq : g.entryPerLockNr = udivRoundUp (entryNr g.bits) (2 ^ i)) {l : Nat} (hl : l ∈ g.locks h) :
    l < g.lockNr := by
  have hcover : entryNr g.bits ≤ g.lockNr * g.entryPerLockNr := by
    rw [heq, hnr, Nat.mul_comm]
    exact le_udivRoundUp (by positivity)
  have hlt := hashToHb_lt g.bits h
  have hentry : entryNr g.bits = 2 ^ g.bits + 32 := rfl
  rw [mem_locks, firstLock_eq hper] at hl
  refine Nat.lt_of_mul_lt_mul_right (a := g.entryPerLockNr) (lt_of_lt_of_le ?_ hcover)
  have hmul := Nat.div_mul_le_self (hashToHb g.bits h - 32) g.entryPerLockNr
  rcases hl with rfl | ⟨rfl, hl⟩ <;> omega

theorem Regions.large (hreg : Regions j g) (hne : g.lockNr ≠ 1) :
    ∃ i, 1 ≤ i ∧ i + 12 ≤ g.bits ∧ g.lockNr = 2 ^ i ∧ (i = j ∨ i + 12 = g.bits) ∧ i ≤ j ∧
      g.entryPerLockNr = udivRoundUp (entryNr g.bits) (2 ^ i) ∧
      ∃ c, 1 ≤ c ∧ c ≤ 16 ∧ g.entryPerLockNr = 2 ^ (g.bits - i) + c ∧ 4096 ≤ 2 ^ (g.bits - i) := by
  cases hreg with
  | one h1 => exact absurd h1 hne
  | many i h1 h2 h3 h4 h5 h6 =>
    obtain ⟨c, hc1, hc2, hc⟩ := udivRoundUp_region h1 (show i ≤ g.bits by omega)
    have hpow : 2 ^ 12 ≤ 2 ^ (g.bits - i) := Nat.pow_le_pow_right (by norm_num) (by omega)
    exact ⟨i, h1, h3, h5, h4, h2, h6, c, hc1, hc2, by rw [h6, hc], hpow⟩

theorem hashToHb_of_lt {bits h : Nat} (hlt : h < 2 ^ bits) : hashToHb bits h = h := by
  rw [hashToHb_eq, Nat.mod_eq_of_lt hlt]

/-- Hashes whose buckets differ by a multiple of `2 ^ 32` meet in `next_free`, which keeps the
bucket in 32 bits, while `lock_common` keeps all of it. -/
theorem not_shared (hb : g.bits + 8 < 64) {x y : Nat} (hx : x + 32 < 2 ^ g.bits)
    (hy : y + 32 < 2 ^ 32) (hxy : x % 2 ^ 32 = y) (hper : y + 2112 < g.entryPerLockNr)
    (hfar : g.entryPerLockNr ≤ x) : ¬ g.LocksCover := by
  intro hc
  have hbx : hashToHb g.bits (x + 32) = x + 32 := hashToHb_of_lt hx
  have hby : hashToHb g.bits (y + 32) = y + 32 := hashToHb_of_lt (by omega)
  have hnext : hashToHb32 g.bits (x + 32) = y + 32 := by rw [hashToHb32, hbx]; omega
  obtain ⟨l, hl, hl'⟩ := hc.shared hb (init g.bits hb) (init g.bits hb) .refl .refl
    (x + 32) (y + 32)
    (y + 32) (.nextFree hnext.le (by omega)) (.window ⟨hby.le, by omega⟩)
  rw [mem_locks, firstLock_eq (by omega), hbx, Nat.add_sub_cancel] at hl
  rw [mem_locks, firstLock_eq (by omega), hby, Nat.add_sub_cancel,
    Nat.div_eq_of_lt (show y < g.entryPerLockNr by omega)] at hl'
  have hone : 1 ≤ x / g.entryPerLockNr := (Nat.one_le_div_iff (by omega)).mpr hfar
  rcases hl' with rfl | ⟨_, hl'⟩ <;> omega

/-- With more than 32 bucket bits and more than one lock, two hashes touch one slot under
different locks. -/
theorem not_cover_wide (hreg : Regions j g) (hb : g.bits + 8 < 64) (h32 : 32 < g.bits)
    (hne : g.lockNr ≠ 1) : ¬ g.LocksCover := by
  obtain ⟨i, h1, h2, _, _, _, _, c, hc1, hc2, hc, hm⟩ := hreg.large hne
  have hhalf : 2 * 2 ^ (g.bits - i) ≤ 2 ^ g.bits := by
    rw [← pow_succ']
    exact Nat.pow_le_pow_right (by norm_num) (by omega)
  rcases Nat.lt_or_ge (g.bits - i) 32 with hi | hi
  · -- a region has at most `2 ^ 32` slots: buckets 32 and `2 ^ 32 + 32`
    have hm31 : 2 ^ (g.bits - i) ≤ 2 ^ 31 := Nat.pow_le_pow_right (by norm_num) (by omega)
    have hb33 : 2 ^ 33 ≤ 2 ^ g.bits := Nat.pow_le_pow_right (by norm_num) h32
    exact not_shared hb (x := 2 ^ 32) (y := 0) (by omega) (by omega) (by omega)
      (by omega) (by omega)
  · -- a region has more: the first bucket of the second region, and what 32 bits keep of it
    have hmod : (2 ^ (g.bits - i) + c) % 2 ^ 32 = c := by
      rw [two_pow_sub hi, Nat.mul_add_mod_self_right, Nat.mod_eq_of_lt (by omega)]
    have hm32 : 2 ^ 32 ≤ 2 ^ (g.bits - i) := Nat.pow_le_pow_right (by norm_num) hi
    exact not_shared hb (x := g.entryPerLockNr) (y := c) (by omega) (by omega) (by rw [hc, hmod])
      (by omega) le_rfl

/-- With more than 8192 locks the last buckets take a lock outside `locks_m`. -/
theorem not_cover_many (hreg : Regions j g) (hnr : 8192 < g.lockNr) : ¬ g.LocksCover := by
  intro hc
  obtain ⟨i, h1, h2, h3, _, _, _, c, hc1, hc2, heq, hm⟩ := hreg.large (by omega)
  have hi : 2 ^ 14 ≤ 2 ^ i := by
    refine Nat.pow_le_pow_right (by norm_num) ?_
    by_contra hlt
    have : 2 ^ i ≤ 2 ^ 13 := Nat.pow_le_pow_right (by norm_num) (by omega)
    omega
  have hpow : 2 ^ (g.bits - i) * 2 ^ 14 ≤ 2 ^ g.bits := by
    rw [two_pow_sub (show i ≤ g.bits by omega)]
    exact Nat.mul_le_mul_left _ hi
  have hlock := hc.within (2 ^ g.bits - 1) _ (mem_locks.mpr (.inl rfl))
  have hpos : 0 < 2 ^ g.bits := by positivity
  rw [firstLock_eq (by omega), hashToHb_of_lt (by omega)] at hlock
  have hge : 8193 ≤ (2 ^ g.bits - 1 - 32) / g.entryPerLockNr := by
    rw [Nat.le_div_iff_mul_le (by omega), heq]
    omega
  omega

/-- For a power of two as lock count, the locks cover the table unless the table has more than
`2 ^ 32` buckets and more than one lock, or keeps more than 8192 locks. -/
theorem locksCover_iff {j size : Nat} {g : LockRegions} (hj : j < 32)
    (hr : restore (2 ^ j) size = some g) (hb : g.bits + 8 < 64) :
    g.LocksCover ↔ (size < 8 * (2 ^ 33 + 32) ∨ j = 0) ∧
      (2 ^ j ≤ 8192 ∨ size < 8 * (2 ^ 26 + 32)) := by
  obtain ⟨hreg, hlow, hhigh⟩ := restore_regions hj hr
  have hlt : ∀ n, g.bits < n ↔ size < 8 * (2 ^ n + 32) := fun n => by
    constructor
    · intro hn
      have : 2 ^ (g.bits + 1) ≤ 2 ^ n := Nat.pow_le_pow_right (by norm_num) hn
      omega
    · intro hn
      exact (Nat.pow_lt_pow_iff_right (by norm_num)).mp (show 2 ^ g.bits < 2 ^ n by omega)
  rw [← hlt, ← hlt]
  constructor
  · intro hc
    constructor
    · by_contra hn
      refine not_cover_wide hreg hb (by omega) ?_ hc
      intro hone
      cases hreg with
      | one _ _ h => omega
      | many i h1 _ _ _ h5 _ =>
        have := Nat.le_self_pow (n := i) (by omega) 2
        omega
    · by_contra hn
      refine not_cover_many hreg ?_ hc
      have hj14 : 14 ≤ j := by
        by_contra hlt
        have : 2 ^ j ≤ 2 ^ 13 := Nat.pow_le_pow_right (by norm_num) (by omega)
        omega
      cases hreg with
      | one _ _ h => omega
      | many i h1 h2 h3 h4 h5 _ =>
        have : 2 ^ 14 ≤ 2 ^ i := Nat.pow_le_pow_right (by norm_num) (by omega)
        omega
  · rintro ⟨h32, hnr⟩
    cases hreg with
    | one _ hper _ =>
      refine ⟨fun _ _ _ _ _ h h' _ _ _ => ?_, fun h l hl => ?_, locks_ordered g⟩
      · exact ⟨0, by simp [locks_one hper], by simp [locks_one hper]⟩
      · simp only [locks_one hper, mem_singleton] at hl
        omega
    | many i h1 h2 h3 h4 h5 h6 =>
      obtain ⟨c, hc1, hc2, hc⟩ := udivRoundUp_region h1 (show i ≤ g.bits by omega)
      have hm : 2 ^ 12 ≤ 2 ^ (g.bits - i) := Nat.pow_le_pow_right (by norm_num) (by omega)
      have hi : 2 ^ i ≤ 2 ^ 13 := by
        refine Nat.pow_le_pow_right (by norm_num) ?_
        rcases hnr with hnr | hnr
        · by_contra hlt
          have h14 : 2 ^ 14 ≤ 2 ^ i := Nat.pow_le_pow_right (by norm_num) (by omega)
          have hij : 2 ^ i ≤ 2 ^ j := Nat.pow_le_pow_right (by norm_num) h2
          omega
        · omega
      refine ⟨fun hb t t' ht ht' h h' q hq hq' => ?_, fun h l hl => ?_, locks_ordered g⟩
      · exact shared_of_touches (by omega) (by omega) hb ht ht' hq hq'
      · have := lock_lt h5 (by omega) h6 hl
        omega

/-- A table of `2 ^ 24` buckets, with the default lock count. -/
theorem locksCover_default : restore (2 ^ 13) (8 * (2 ^ 24 + 32)) = some ⟨24, 4096, 4097⟩ ∧
    (⟨24, 4096, 4097⟩ : LockRegions).LocksCover := by
  have hr : restore (2 ^ 13) (8 * (2 ^ 24 + 32)) = some ⟨24, 4096, 4097⟩ := by decide
  exact ⟨hr, (locksCover_iff (by decide) hr (by decide)).mpr ⟨.inl (by decide), .inl (by decide)⟩⟩

/-- A table of `2 ^ 33` buckets: an insertion for one hash looks for a free slot where a lookup
of the other reads, and they hold different locks. -/
theorem wide_table_unlocked : restore (2 ^ 13) (8 * (2 ^ 33 + 32)) = some ⟨33, 8192, 1048577⟩ ∧
    (⟨33, 8192, 1048577⟩ : LockRegions).locks (2 ^ 32 + 32) = [4095] ∧
    (⟨33, 8192, 1048577⟩ : LockRegions).locks 32 = [0] ∧
    (init 33 (by decide)).Touches (2 ^ 32 + 32) 32 ∧ (init 33 (by decide)).Touches 32 32 ∧
    ¬ (⟨33, 8192, 1048577⟩ : LockRegions).LocksCover := by
  have h1 : (⟨33, 8192, 1048577⟩ : LockRegions).locks (2 ^ 32 + 32) = [4095] := by decide
  have h2 : (⟨33, 8192, 1048577⟩ : LockRegions).locks 32 = [0] := by decide
  have t1 : (init 33 (by decide)).Touches (2 ^ 32 + 32) 32 := .nextFree (by decide) (by decide)
  have t2 : (init 33 (by decide)).Touches 32 32 := .window (by decide)
  refine ⟨by decide, h1, h2, t1, t2, fun hc => ?_⟩
  obtain ⟨l, hl, hl'⟩ := hc.shared (by decide) _ _ .refl .refl _ _ _ t1 t2
  rw [h1, mem_singleton] at hl
  rw [h2, mem_singleton] at hl'
  omega

/-! ## The slots of a lock -/

/-- `locks_to_grow_range(sl1, sl2)`: the slots that a grow copies under one lock or two, of
which only those with a reference count. `slb` is the place of the first lock in `locks_m`. -/
def locksToGrowRange (g : LockRegions) (slb refCnt1 : Nat) (refCnt2 : Option Nat) : Nat × Nat :=
  let last1 := min ((slb + 1) * g.entryPerLockNr) (entryNr g.bits)
  let first1 := if refCnt1 = 0 then last1 else slb * g.entryPerLockNr
  match refCnt2 with
  | none => (first1, last1)
  | some refCnt2 =>
    let first2 := (slb + 1) * g.entryPerLockNr
    let last2 := min ((slb + 2) * g.entryPerLockNr) (entryNr g.bits)
    (first1, if refCnt2 = 0 then first2 else last2)

def region (g : LockRegions) (l : Nat) : Nat × Nat := g.locksToGrowRange l 1 none

/-- The regions of the locks in use tile the table, and one of them holds what an operation
may reach unless it is the only one. -/
structure Tiles (g : LockRegions) : Prop where
  first : (g.region 0).1 = 0
  consecutive : ∀ l, l + 1 < g.lockNr → (g.region l).2 = (g.region (l + 1)).1
  within : ∀ l < g.lockNr, (g.region l).1 ≤ (g.region l).2 ∧ (g.region l).2 ≤ entryNr g.bits
  covered : ∀ q < entryNr g.bits, ∃! l, l < g.lockNr ∧ (g.region l).1 ≤ q ∧ q < (g.region l).2
  reach : g.lockNr = 1 ∨ 32 * (1 + 64) ≤ g.entryPerLockNr

/-- Regions of one size tile the table as soon as the last one starts within it and ends at or
behind its end. -/
theorem tiles_of_last {n : Nat} (hnr : g.lockNr = n + 1) (hper : 0 < g.entryPerLockNr)
    (hlast : n * g.entryPerLockNr ≤ entryNr g.bits)
    (hend : entryNr g.bits ≤ (n + 1) * g.entryPerLockNr)
    (hreach : g.lockNr = 1 ∨ 32 * (1 + 64) ≤ g.entryPerLockNr) : g.Tiles := by
  have hstart : ∀ l ≤ n, l * g.entryPerLockNr ≤ entryNr g.bits := fun l hl =>
    (Nat.mul_le_mul_right _ hl).trans hlast
  refine ⟨Nat.zero_mul _, fun l hl => ?_, fun l hl => ?_, fun q hq => ?_, hreach⟩
  · exact min_eq_left (hstart (l + 1) (by omega))
  · refine ⟨le_min (Nat.mul_le_mul_right _ (by omega)) (hstart l (by omega)), min_le_right _ _⟩
  · refine ⟨q / g.entryPerLockNr, ⟨?_, Nat.div_mul_le_self _ _, ?_⟩, ?_⟩
    · rw [hnr]
      exact Nat.div_lt_of_lt_mul (by rw [Nat.mul_comm]; omega)
    · exact lt_min (Nat.lt_mul_of_div_lt (Nat.lt_succ_self _) hper) hq
    · rintro l ⟨-, h1, h2⟩
      exact (Nat.div_eq_of_lt_le h1 (h2.trans_le (min_le_left _ _))).symm

/-- The last of `2 ^ i` regions starts within the table unless there are more locks than
buckets to a region: rounding up the size of a region moves its start by a slot for each
lock before it. -/
theorem lastRegion_le_iff {bits : Nat} (h1 : 1 ≤ i) (hi : i + 12 ≤ bits) :
    (2 ^ i - 1) * udivRoundUp (entryNr bits) (2 ^ i) ≤ entryNr bits ↔ 2 * i ≤ bits := by
  obtain ⟨c, hc1, -, hc⟩ := udivRoundUp_region h1 (show i ≤ bits by omega)
  have hentry : entryNr bits = 2 ^ (bits - i) * 2 ^ i + 32 := by
    rw [entryNr, two_pow_sub (show i ≤ bits by omega)]
  constructor
  · intro hle
    by_contra hlt
    have hk : 2 ^ 13 ≤ 2 ^ i := Nat.pow_le_pow_right (by norm_num) (by omega)
    have hm : 2 * 2 ^ (bits - i) ≤ 2 ^ i := by
      rw [← pow_succ']
      exact Nat.pow_le_pow_right (by norm_num) (by omega)
    have hstart : (2 ^ i - 1) * (2 ^ (bits - i) + 1) ≤ entryNr bits :=
      (Nat.mul_le_mul_left _ (by omega)).trans hle
    rw [hentry, Nat.sub_mul, Nat.mul_add, Nat.mul_comm (2 ^ i)] at hstart
    omega
  · intro hle
    have hm : 2 ^ i ≤ 2 ^ (bits - i) := Nat.pow_le_pow_right (by norm_num) (by omega)
    have hmul : udivRoundUp (entryNr bits) (2 ^ i) * 2 ^ i ≤ entryNr bits + 2 ^ i - 1 :=
      Nat.div_mul_le_self _ _
    rw [Nat.sub_mul, Nat.mul_comm, Nat.one_mul]
    omega

/-- One lock has the whole table; several tile it as long as there are at most as many locks
as buckets to a region. -/
theorem Regions.tiles_iff (hreg : Regions j g) : g.Tiles ↔ 2 * j ≤ g.bits ∨ g.bits ≤ 24 := by
  cases hreg with
  | one h1 h2 h3 =>
    refine iff_of_true (tiles_of_last h1 ?_ ?_ ?_ (.inl h1)) (by omega) <;> rw [h2]
    · exact Nat.add_pos_right _ (by norm_num)
    · omega
    · omega
  | many i h1 h2 h3 h4 h5 h6 =>
    have hlarge := (region_large_iff h1).mpr h3
    have hpos : 0 < 2 ^ i := by positivity
    have hnr : g.lockNr = (2 ^ i - 1) + 1 := by omega
    have hiff : 2 * i ≤ g.bits ↔ 2 * j ≤ g.bits ∨ g.bits ≤ 24 := by omega
    rw [← hiff, ← lastRegion_le_iff h1 h3, ← h6]
    constructor
    · intro ht
      have hw := ht.within (2 ^ i - 1) (by omega)
      exact hw.1.trans hw.2
    · intro hlast
      refine tiles_of_last hnr (by omega) hlast ?_ (.inr (by omega))
      rw [Nat.sub_add_cancel hpos, h6, Nat.mul_comm]
      exact le_udivRoundUp hpos

/-- For a power of two as lock count and a size that `init` does not refuse: the sizing ends
with regions that tile the table, unless the size is that of 32 slots, or there are more
locks than buckets to a lock in a table of `2 ^ 25` buckets or more. -/
theorem restore_tiles_iff {j size : Nat} (hj : j < 32) (hsize : 32 ≤ size / 8) :
    (∃ g, restore (2 ^ j) size = some g ∧ g.Tiles) ↔
      32 < size / 8 ∧ (4 ^ j ≤ size / 8 - 32 ∨ size / 8 - 32 < 2 ^ 25) := by
  by_cases hx : size / 8 - 32 = 0
  · have hnone : restore (2 ^ j) size = none := by
      simp [restore, hx, roundDownPow2]
    simp only [hnone, reduceCtorEq, false_and, exists_false, false_iff]
    omega
  · have hlog : roundDownPow2 (size / 8 - 32) = 2 ^ (size / 8 - 32).log2 := if_neg hx
    obtain ⟨r, hr, hreg⟩ := lockLoop_regions (size / 8 - 32).log2 (show j < 33 by omega)
    have hrest : restore (2 ^ j) size = some ⟨(size / 8 - 32).log2, r.1, r.2⟩ := by
      rw [restore, if_neg (by omega), hlog, if_neg (by positivity), Nat.log2_two_pow]
      exact congrArg (Option.map _) hr
    have hpow : 4 ^ j ≤ size / 8 - 32 ↔ 2 * j ≤ (size / 8 - 32).log2 := by
      rw [Nat.le_log2 hx, pow_mul, show 2 ^ 2 = 4 from rfl]
    have h25 : size / 8 - 32 < 2 ^ 25 ↔ (size / 8 - 32).log2 ≤ 24 := by
      rw [← Nat.log2_lt hx, Nat.lt_succ_iff]
    simp only [hrest, Option.some.injEq, exists_eq_left', hreg.tiles_iff, hpow, h25]
    omega

/-- The default lock count and a table of `2 ^ 26` buckets. -/
theorem restore_tiles_default : (∃ g, restore (2 ^ 13) (8 * (2 ^ 26 + 32)) = some g ∧ g.Tiles) :=
  (restore_tiles_iff (by decide) (by decide)).mpr ⟨by decide, .inl (by decide)⟩

/-- The default lock count and half the buckets: the last lock starts behind the table. -/
theorem last_lock_behind_table :
    restore (2 ^ 13) (8 * (2 ^ 25 + 32)) = some ⟨25, 8192, 4097⟩ ∧
    (⟨25, 8192, 4097⟩ : LockRegions).region 8191 = (33558527, 33554464) ∧
    ¬ (⟨25, 8192, 4097⟩ : LockRegions).Tiles := by
  have hlast : (⟨25, 8192, 4097⟩ : LockRegions).region 8191 = (33558527, 33554464) := by decide
  refine ⟨by decide, hlast, fun ht => ?_⟩
  have hw := (ht.within 8191 (by decide)).1
  rw [hlast] at hw
  omega

end LockRegions
end UDepot
