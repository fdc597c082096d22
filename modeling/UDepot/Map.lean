import UDepot.Lib.Scan

/-! The hopscotch table of `udepot-map.hh` and its 8-byte entries of
`hash-entry.hh`: lookup, the free-slot searches, the displacement loop and the
entry updates, as the source computes them with its assertions compiled out.

A table of `2 ^ entryNrBits` buckets has 32 more slots than buckets
(`_UDEPOT_HOP_SCOTCH_BUCKET_SIZE`), so that the 32-slot window of the last
bucket stays inside. Slots are addressed by index instead of by pointer. -/

namespace UDepot
open Scan

/-- `UDEPOT_SALSA_UNUSED_PBA_ENTRY`. -/
def unusedPba : Nat := 2 ^ 39 - 1

/-- `UDEPOT_SALSA_MAX_KV_SIZE`. -/
def maxKvSize : Nat := 2 ^ 11 - 1

/-- `HashEntry`: bit fields of 6, 8, 11 and 39 bits. -/
@[ext] structure HashEntry where
  bucketOffset : Nat
  keyTag : Nat
  kvSize : Nat
  pba : Nat
  offset_lt : bucketOffset < 2 ^ 6
  tag_lt : keyTag < 2 ^ 8
  kv_lt : kvSize < 2 ^ 11
  pba_lt : pba < 2 ^ 39
  deriving DecidableEq, Repr

namespace HashEntry

/-! An assignment to a bit field keeps the low bits of the value. -/

@[simps] def setOffset (e : HashEntry) (v : Nat) : HashEntry :=
  { e with bucketOffset := v % 2 ^ 6, offset_lt := Nat.mod_lt _ (by decide) }
@[simps] def setTag (e : HashEntry) (v : Nat) : HashEntry :=
  { e with keyTag := v % 2 ^ 8, tag_lt := Nat.mod_lt _ (by decide) }
@[simps] def setKvSize (e : HashEntry) (v : Nat) : HashEntry :=
  { e with kvSize := v % 2 ^ 11, kv_lt := Nat.mod_lt _ (by decide) }
@[simps] def setPba (e : HashEntry) (v : Nat) : HashEntry :=
  { e with pba := v % 2 ^ 39, pba_lt := Nat.mod_lt _ (by decide) }

def used (e : HashEntry) : Bool := e.pba != unusedPba
def deleted (e : HashEntry) : Bool := e.kvSize == 0

def live (e : HashEntry) : Bool := e.used && !e.deleted

/-- `!used() || deleted()`: what `next_free` accepts. -/
def free (e : HashEntry) : Bool := !e.used || e.deleted

def purge (e : HashEntry) : HashEntry :=
  (((e.setOffset 0).setTag 0).setKvSize maxKvSize).setPba unusedPba

/-- An entry of a table that `memset` filled with ones. -/
def fresh : HashEntry :=
  ⟨63, 255, maxKvSize, unusedPba, by decide, by decide, by decide, by decide⟩

theorem one_kv_lt : 1 < 2 ^ 11 := by
  decide

theorem window_pba_lt {q : Nat} (h : q < 32) : q < 2 ^ 39 := by
  omega

theorem window_offset_lt (n : Fin 33) {q : Nat} (h : q < n.val) : q < 2 ^ 6 := by
  omega

theorem live_iff (e : HashEntry) : e.live = true ↔ e.used = true ∧ e.deleted = false := by
  simp [live]

theorem free_eq_not_live (e : HashEntry) : e.free = !e.live := by
  simp [live, free, Bool.not_and]

@[simp] theorem fresh_used : fresh.used = false := rfl
@[simp] theorem fresh_live : fresh.live = false := rfl
@[simp] theorem purge_used (e : HashEntry) : e.purge.used = false := by
  simp [used, purge, unusedPba]
@[simp] theorem purge_live (e : HashEntry) : e.purge.live = false := by
  simp [live]

@[simp] theorem setOffset_used (e : HashEntry) (v : Nat) : (e.setOffset v).used = e.used := rfl
@[simp] theorem setOffset_deleted (e : HashEntry) (v : Nat) :
    (e.setOffset v).deleted = e.deleted := rfl
@[simp] theorem setOffset_live (e : HashEntry) (v : Nat) : (e.setOffset v).live = e.live := rfl

theorem setOffset_congr (e : HashEntry) {a b : Nat} (h : a % 2 ^ 6 = b % 2 ^ 6) :
    e.setOffset a = e.setOffset b := by
  simp only [setOffset, h]

@[simp] theorem setOffset_self_mod (e : HashEntry) (v : Nat) :
    e.setOffset (v % 2 ^ 6) = e.setOffset v :=
  e.setOffset_congr (Nat.mod_mod _ _)

@[simp] theorem setOffset_self (e : HashEntry) : e.setOffset e.bucketOffset = e := by
  ext
  · exact Nat.mod_eq_of_lt e.offset_lt
  all_goals rfl

@[simp] theorem setPba_deleted (e : HashEntry) (v : Nat) : (e.setPba v).deleted = e.deleted := rfl

theorem setPba_used (e : HashEntry) {v : Nat} (h : v < unusedPba) : (e.setPba v).used = true := by
  simp only [used, setPba_pba, bne_iff_ne]
  unfold unusedPba at h ⊢
  omega

end HashEntry

/-- `uDepotMap`: the entries `ht_m` of a table with `entry_nr_bits_m = bits`. The
shifts of the fingerprint functions stay below the word size. -/
structure UDepotMap (bits : Nat) where
  ht : Nat → HashEntry
  bits_lt : bits + 8 < 64

namespace UDepotMap

variable {bits : Nat}

/-- `init` on a region of the right size. -/
def init (bits : Nat) (h : bits + 8 < 64) : UDepotMap bits := ⟨fun _ => .fresh, h⟩

/-- `entry_nr_m`. -/
def entryNr (bits : Nat) : Nat := 2 ^ bits + 32

def set (t : UDepotMap bits) (q : Nat) (e : HashEntry) : UDepotMap bits :=
  { t with ht := Function.update t.ht q e }

def hashToKeytag (bits h : Nat) : Nat := (h >>> bits) &&& (2 ^ 8 - 1)

def hashToKeyfp (bits h : Nat) : Nat := h &&& (2 ^ (8 + bits) - 1)

def hashToHb (bits h : Nat) : Nat := h &&& (2 ^ bits - 1)

/-- `next_free` and `try_shift` keep the bucket in a `u32`. -/
def hashToHb32 (bits h : Nat) : Nat := hashToHb bits h % 2 ^ 32

/-- `entry_keyfp`: the bucket is recomputed from the slot's position, in
64-bit arithmetic. -/
def entryKeyfp (t : UDepotMap bits) (q : Nat) : Nat :=
  ((t.ht q).keyTag <<< bits) ||| ((q + 2 ^ 64 - (t.ht q).bucketOffset) % 2 ^ 64)

/-- The three outcomes of `lookup(h, he_out)`: 0, `ENODATA` with the slot to
insert into, `ENOSPC`. -/
inductive LookupRes where
  | found (q : Nat)
  | enodata (q : Nat)
  | enospc
  deriving DecidableEq, Repr

/-- The test `!deleted() && to_match == entry_keyfp(p)` of a used slot. -/
def slotMatch (t : UDepotMap bits) (toMatch q : Nat) : Bool :=
  !(t.ht q).deleted && toMatch == t.entryKeyfp q

/-- First loop of `lookup`: give up at the first slot that was never used. -/
def lookupScan (t : UDepotMap bits) (toMatch : Nat) : Nat → Nat → Option Nat
  | 0, _ => none
  | n + 1, p =>
    if !(t.ht p).used then none
    else if t.slotMatch toMatch p then some p
    else lookupScan t toMatch n (p + 1)

/-- Second loop of `lookup`: the first never-used slot, else the last
tombstone. -/
def candidateScan (t : UDepotMap bits) : Nat → Nat → Option Nat → Option Nat
  | 0, _, cand => cand
  | n + 1, p, cand =>
    if !(t.ht p).used then some p
    else if (t.ht p).deleted then candidateScan t n (p + 1) (some p)
    else candidateScan t n (p + 1) cand

def lookup (t : UDepotMap bits) (h : Nat) : LookupRes :=
  match t.lookupScan (hashToKeyfp bits h) 32 (hashToHb bits h) with
  | some q => .found q
  | none =>
    match t.candidateScan 32 (hashToHb bits h) none with
    | some q => .enodata q
    | none => .enospc

def nextFree (t : UDepotMap bits) (h : Nat) : Option Nat :=
  findFrom (fun q => (t.ht q).free) 32 (hashToHb32 bits h)

/-- `next`: unlike `lookup` it steps over never-used slots. -/
def next (t : UDepotMap bits) (he h : Nat) : Option Nat :=
  findFrom (fun q => (t.ht q).used && t.slotMatch (hashToKeyfp bits h) q)
    (hashToHb bits h + 32 - (he + 1)) (he + 1)

/-- `lookup(h, pba)`, the lookup of the garbage collector. -/
def lookupPba (t : UDepotMap bits) (h pba : Nat) : Option Nat :=
  findFrom (fun q => (t.ht q).used && pba == (t.ht q).pba) 32 (hashToHb bits h)

def update (t : UDepotMap bits) (he h kvSize pba : Nat) : UDepotMap bits :=
  t.set he (((((t.ht he).setOffset (he + 2 ^ 64 - hashToHb bits h)).setTag
    (hashToKeytag bits h)).setKvSize (min kvSize maxKvSize)).setPba pba)

/-- `insert` is `update` plus a per-lock statistics counter. -/
def insert (t : UDepotMap bits) (he h kvSize pba : Nat) : UDepotMap bits := t.update he h kvSize pba

def updateInplace (t : UDepotMap bits) (he h kvSize pba : Nat) : UDepotMap bits :=
  t.set he ((((t.ht he).setTag (hashToKeytag bits h)).setKvSize (min kvSize maxKvSize)).setPba pba)

/-- `remove`: the entry becomes the tombstone that `pba` holds. -/
def remove (t : UDepotMap bits) (he pba : Nat) : UDepotMap bits :=
  t.set he (((t.ht he).setKvSize 0).setPba pba)

def purge (t : UDepotMap bits) (he : Nat) : UDepotMap bits := t.set he (t.ht he).purge

/-- Body of `try_shift_one` once `next_free` has returned `victim`. A tombstone
that was the victim keeps its stored offset relative to its new place. -/
def displace (t : UDepotMap bits) (candidate victim : Nat) : UDepotMap bits :=
  let hb := hashToHb bits (t.entryKeyfp candidate)
  let t1 := (t.set candidate (t.ht victim)).set victim
    ((t.ht candidate).setOffset (victim + 2 ^ 64 - hb))
  if (t1.ht candidate).used then
    t1.set candidate ((t1.ht candidate).setOffset
      (candidate + 2 ^ 64 - hashToHb bits (t1.entryKeyfp candidate)))
  else t1

def tryShiftOne (t : UDepotMap bits) (candidate : Nat) : Option (UDepotMap bits) :=
  (t.nextFree (t.entryKeyfp candidate)).map (t.displace candidate)

/-- The `while` loop of `try_shift`: walk `p` up to the free slot `pFree`; a
displaced entry makes its old slot the new free one. -/
def shiftLoop (t : UDepotMap bits) (first pFree p : Nat) : UDepotMap bits × Option Nat :=
  if first ≤ p ∧ p < pFree then
    match t.tryShiftOne p with
    | some t' =>
      if p - first < 32 then (t', some p)
      else shiftLoop t' first p (max first (p - 31))
    | none => shiftLoop t first pFree (p + 1)
  else (t, none)
  termination_by (pFree, pFree - p)

/-- The first free slot behind the window that `try_shift` considers. -/
def shiftFree (t : UDepotMap bits) (h : Nat) : Option Nat :=
  let first := hashToHb32 bits h
  let last := min (first + 32 * 64) (entryNr bits - 32 - 1)
  findFrom (fun q => xor (!(t.ht q).used) (t.ht q).deleted) (last - (first + 32)) (first + 32)

def tryShift (t : UDepotMap bits) (h : Nat) : UDepotMap bits × Option Nat :=
  match t.shiftFree h with
  | none => (t, none)
  | some pFree => t.shiftLoop (hashToHb32 bits h) pFree (pFree - 31)

/-! ## Reading a table back -/

@[simp] theorem set_self (t : UDepotMap bits) (q : Nat) (e : HashEntry) : (t.set q e).ht q = e := by
  simp [set]
variable {q b : Nat} {t t' : UDepotMap bits}

theorem set_other (t : UDepotMap bits) {r : Nat} (e : HashEntry) (h : r ≠ q) :
    (t.set q e).ht r = t.ht r := by
  simp [set, h]

theorem hashToHb_eq (bits h : Nat) : hashToHb bits h = h % 2 ^ bits :=
  Nat.and_two_pow_sub_one_eq_mod _ _

theorem hashToHb_lt (bits h : Nat) : hashToHb bits h < 2 ^ bits := by
  rw [hashToHb_eq]
  exact Nat.mod_lt _ (Nat.two_pow_pos _)

theorem hashToHb32_eq (hb : bits ≤ 32) (h : Nat) : hashToHb32 bits h = hashToHb bits h :=
  Nat.mod_eq_of_lt (lt_of_lt_of_le (hashToHb_lt bits h) (Nat.pow_le_pow_right (by decide) hb))

theorem hashToKeytag_eq (bits h : Nat) : hashToKeytag bits h = h / 2 ^ bits % 2 ^ 8 := by
  unfold hashToKeytag
  rw [Nat.and_two_pow_sub_one_eq_mod, Nat.shiftRight_eq_div_pow]

theorem hashToKeytag_lt (bits h : Nat) : hashToKeytag bits h < 2 ^ 8 := by
  rw [hashToKeytag_eq]
  exact Nat.mod_lt _ (Nat.two_pow_pos _)

theorem hashToKeyfp_eq (bits h : Nat) :
    hashToKeyfp bits h = hashToKeytag bits h * 2 ^ bits + hashToHb bits h := by
  have hsplit : 2 ^ (8 + bits) = 2 ^ bits * 2 ^ 8 := by
    rw [Nat.pow_add, Nat.mul_comm]
  unfold hashToKeyfp
  rw [Nat.and_two_pow_sub_one_eq_mod, hsplit, Nat.mod_mul, hashToKeytag_eq, hashToHb_eq]
  ring

def home (t : UDepotMap bits) (q : Nat) : Nat := q - (t.ht q).bucketOffset

/-- A slot whose stored offset leads to a bucket of the table at most 31 slots
in front of it. -/
structure SlotWf (t : UDepotMap bits) (q : Nat) : Prop where
  off_le : (t.ht q).bucketOffset ≤ q
  off_lt : (t.ht q).bucketOffset < 32
  home_lt : t.home q < 2 ^ bits

theorem SlotWf.home_le (_ : t.SlotWf q) : t.home q ≤ q :=
  Nat.sub_le _ _

theorem SlotWf.lt_home (w : t.SlotWf q) : q < t.home q + 32 := by
  have := w.off_le
  have := w.off_lt
  unfold home
  omega

/-- A slot that stores its distance to a bucket at most 31 slots in front of it. -/
theorem home_of_offset (h : (t.ht q).bucketOffset = q - b) (hb : b ≤ q) : t.home q = b := by
  unfold home
  omega

theorem slotWf_of_offset (h : (t.ht q).bucketOffset = q - b) (h1 : b ≤ q) (h2 : q < b + 32)
    (hb : b < 2 ^ bits) : t.SlotWf q :=
  ⟨by omega, by omega, by rwa [home_of_offset h h1]⟩

theorem home_congr (h : t'.ht q = t.ht q) : t'.home q = t.home q := by
  rw [home, home, h]

theorem SlotWf.congr (w : t.SlotWf q) (h : t'.ht q = t.ht q) : t'.SlotWf q :=
  ⟨by rw [h]; exact w.off_le, by rw [h]; exact w.off_lt, by rw [home_congr h]; exact w.home_lt⟩

theorem two_pow_bits_lt (t : UDepotMap bits) : 2 ^ bits < 2 ^ 56 :=
  Nat.pow_lt_pow_right (by decide) (by have := t.bits_lt; omega)

theorem SlotWf.entryKeyfp_eq (w : t.SlotWf q) :
    t.entryKeyfp q = (t.ht q).keyTag * 2 ^ bits + t.home q := by
  have h1 := w.off_le
  have h2 := w.home_lt
  have h3 := t.two_pow_bits_lt
  have hoff : (q + 2 ^ 64 - (t.ht q).bucketOffset) % 2 ^ 64 = t.home q := by
    have : q + 2 ^ 64 - (t.ht q).bucketOffset = t.home q + 2 ^ 64 := by
      unfold home
      omega
    rw [this, Nat.add_mod_right]
    exact Nat.mod_eq_of_lt (by omega)
  unfold entryKeyfp
  rw [hoff, ← Nat.shiftLeft_add_eq_or_of_lt h2, Nat.shiftLeft_eq]

theorem tag_bucket_inj {n a c d : Nat} (hb : b < n) (hd : d < n) :
    a * n + b = c * n + d ↔ a = c ∧ b = d := by
  constructor
  · intro h
    have hmod : b = d := by
      have hm : (a * n + b) % n = (c * n + d) % n := by rw [h]
      rwa [Nat.add_comm, Nat.add_mul_mod_self_right, Nat.mod_eq_of_lt hb, Nat.add_comm,
        Nat.add_mul_mod_self_right, Nat.mod_eq_of_lt hd] at hm
    subst hmod
    have : a * n = c * n := by omega
    exact ⟨Nat.eq_of_mul_eq_mul_right (by omega) this, rfl⟩
  · rintro ⟨rfl, rfl⟩
    rfl

@[simp] theorem hashToKeyfp_idem (bits h : Nat) :
    hashToKeyfp bits (hashToKeyfp bits h) = hashToKeyfp bits h := by
  unfold hashToKeyfp
  rw [Nat.and_assoc, Nat.and_self]

theorem entryKeyfp_congr (h : t'.ht q = t.ht q) : t'.entryKeyfp q = t.entryKeyfp q := by
  rw [entryKeyfp, entryKeyfp, h]

/-- A well-formed slot has the fingerprint of `h` exactly when it stores the
tag of `h` and belongs to the bucket of `h`. -/
theorem SlotWf.keyfp_eq_iff {h : Nat} (w : t.SlotWf q) :
    hashToKeyfp bits h = t.entryKeyfp q ↔
      (t.ht q).keyTag = hashToKeytag bits h ∧ t.home q = hashToHb bits h := by
  rw [w.entryKeyfp_eq, hashToKeyfp_eq, eq_comm, tag_bucket_inj w.home_lt (hashToHb_lt bits h)]

theorem SlotWf.hashToHb_keyfp (w : t.SlotWf q) : hashToHb bits (t.entryKeyfp q) = t.home q := by
  rw [hashToHb_eq, w.entryKeyfp_eq, Nat.add_comm, Nat.add_mul_mod_self_right]
  exact Nat.mod_eq_of_lt w.home_lt

end UDepotMap
end UDepot
