import Mathlib.Tactic
import Mathlib.Data.List.GetD

/-! A byte-addressed medium: reading and writing ranges of it, and little-endian
numbers. -/

namespace Bytes
open List

/-- The `n` bytes from `off` on. -/
def read (m : Nat → UInt8) : Nat → Nat → List UInt8
  | _, 0 => []
  | off, n + 1 => m off :: read m (off + 1) n

def write (m : Nat → UInt8) (off : Nat) (bs : List UInt8) : Nat → UInt8 :=
  fun a => if off ≤ a then bs.getD (a - off) (m a) else m a

@[simp] theorem read_length (m : Nat → UInt8) (off n : Nat) : (read m off n).length = n := by
  induction n generalizing off with
  | zero => rfl
  | succ n ih => simp [read, ih]

variable {off n : Nat}

theorem read_congr {m m' : Nat → UInt8} (h : ∀ a, off ≤ a → a < off + n → m' a = m a) :
    read m' off n = read m off n := by
  induction n generalizing off with
  | zero => rfl
  | succ n ih =>
    simp only [read]
    rw [h off (le_refl _) (by omega), ih fun a h1 h2 => h a (by omega) (by omega)]

theorem read_shift {m m' : Nat → UInt8} {off' : Nat} (h : ∀ i < n, m' (off' + i) = m (off + i)) :
    read m' off' n = read m off n := by
  induction n generalizing off off' with
  | zero => rfl
  | succ n ih =>
    have hhead : m' off' = m off := h 0 (by omega)
    have htail : read m' (off' + 1) n = read m (off + 1) n := by
      refine ih fun i hi => ?_
      rw [Nat.add_assoc, Nat.add_assoc]
      exact h (1 + i) (by omega)
    rw [read, read, hhead, htail]

theorem read_add (m : Nat → UInt8) (off a b : Nat) :
    read m off (a + b) = read m off a ++ read m (off + a) b := by
  induction a generalizing off with
  | zero => simp [read]
  | succ a ih =>
    rw [Nat.succ_add]
    simp only [read, cons_append, ih]
    rw [show off + 1 + a = off + (a + 1) by omega]

theorem read_getElem (m : Nat → UInt8) (off n i : Nat) (h : i < (read m off n).length) :
    (read m off n)[i] = m (off + i) := by
  induction n generalizing off i with
  | zero => simp [read] at h
  | succ n ih =>
    cases i with
    | zero => rfl
    | succ i =>
      simp only [read, getElem_cons_succ]
      rw [ih, show off + 1 + i = off + (i + 1) by omega]

@[simp] theorem write_nil (m : Nat → UInt8) (off : Nat) : write m off [] = m := by
  funext a
  simp [write]

theorem write_outside (m : Nat → UInt8) {a : Nat} (bs : List UInt8)
    (h : a < off ∨ off + bs.length ≤ a) : write m off bs a = m a := by
  unfold write
  split
  · rw [getD_eq_default _ _ (by omega)]
  · rfl

theorem write_read_apply (m m' : Nat → UInt8) (off a n i : Nat) :
    write m off (read m' a n) (off + i) = if i < n then m' (a + i) else m (off + i) := by
  unfold write
  rw [if_pos (by omega), Nat.add_sub_cancel_left]
  split
  · rename_i hi
    have hlen : i < (read m' a n).length := by rwa [read_length]
    rw [getD_eq_getElem _ _ hlen, read_getElem]
  · rename_i hi
    rw [getD_eq_default _ _ (by rw [read_length]; omega)]

theorem write_append (m : Nat → UInt8) (off : Nat) (as bs : List UInt8) :
    write (write m off as) (off + as.length) bs = write m off (as ++ bs) := by
  funext a
  simp only [write]
  by_cases h1 : off + as.length ≤ a
  · rw [if_pos h1, if_pos (by omega), if_pos (by omega), getD_append_right _ _ _ _ (by omega),
      getD_eq_default as _ (by omega), Nat.sub_add_eq]
  · rw [if_neg h1]
    by_cases h2 : off ≤ a
    · rw [if_pos h2, if_pos h2, getD_append _ _ _ _ (by omega)]
    · rw [if_neg h2, if_neg h2]

theorem read_write_append (m : Nat → UInt8) (off : Nat) (pre post : List UInt8) :
    read (write m off (pre ++ post)) off pre.length = pre := by
  apply ext_getElem (read_length _ _ _)
  intro i h1 h2
  rw [read_getElem]
  unfold write
  rw [if_pos (by omega), Nat.add_sub_cancel_left,
    getD_eq_getElem _ _ (by rw [length_append]; omega), getElem_append_left h2]

theorem read_write_part (m : Nat → UInt8) (off : Nat) (pre mid post : List UInt8) :
    read (write m off (pre ++ mid ++ post)) (off + pre.length) mid.length = mid := by
  have h := read_write_append m off (pre ++ mid) post
  rw [length_append, read_add] at h
  exact (append_inj h (read_length _ _ _)).2

/-- The `n` low bytes of a number, least significant first. -/
def le : Nat → Nat → List UInt8
  | 0, _ => []
  | n + 1, x => UInt8.ofNat x :: le n (x / 256)

def leNat : List UInt8 → Nat
  | [] => 0
  | b :: bs => b.toNat + 256 * leNat bs

@[simp] theorem le_length (n x : Nat) : (le n x).length = n := by
  induction n generalizing x with
  | zero => rfl
  | succ n ih => simp [le, ih]

theorem leNat_le (n x : Nat) : leNat (le n x) = x % 2 ^ (8 * n) := by
  induction n generalizing x with
  | zero => simp [le, leNat, Nat.mod_one]
  | succ n ih =>
    simp only [le, leNat, ih]
    rw [Nat.mul_succ, Nat.add_comm (8 * n), Nat.pow_add, Nat.mod_mul]
    rfl

theorem le_leNat (bs : List UInt8) : le bs.length (leNat bs) = bs := by
  induction bs with
  | nil => rfl
  | cons b bs ih =>
    have hb : b.toNat < 256 := b.toNat_lt
    have hdiv : (b.toNat + 256 * leNat bs) / 256 = leNat bs := by omega
    have hhead : UInt8.ofNat (b.toNat + 256 * leNat bs) = b := by
      apply UInt8.toNat_inj.mp
      rw [UInt8.toNat_ofNat']
      omega
    rw [length_cons, leNat, le, hdiv, ih, hhead]

theorem leNat_lt (bs : List UInt8) : leNat bs < 2 ^ (8 * bs.length) := by
  induction bs with
  | nil => simp [leNat]
  | cons b bs ih =>
    have hb : b.toNat < 256 := b.toNat_lt
    rw [length_cons, Nat.mul_succ, Nat.pow_add]
    simp only [leNat]
    omega

end Bytes
