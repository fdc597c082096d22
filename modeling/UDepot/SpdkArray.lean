import UDepot.Lib.Bytes

/-! The SPDK array back end: a logical byte range striped over several devices in
blocks, the transfer of one buffer (`pio`) and of a list of buffers (`piov`). Every
queue pair transfers what it is asked for. -/

namespace UDepot.SpdkArray
open Bytes Function List

/-- `blk_m`. -/
def blk : Nat := 8192

/-- `ThreadState::offset_to_qpair`, for `n` queue pairs. -/
def offsetToQpair (n start : Nat) : Nat := start / blk % n

def devOffset (n start : Nat) : Nat := start / (blk * n) * blk + start % blk

structure Iovec where
  base : Nat
  len : Nat
deriving DecidableEq

def iovecLen (iov : List Iovec) : Nat := (iov.map Iovec.len).sum

structure St where
  mem : Nat → UInt8
  dev : Nat → Nat → UInt8

inductive Dir where
  | read
  | write
deriving DecidableEq

/-- `read_sync` and `write_sync` of a queue pair. -/
def sync (dir : Dir) (qp : Nat) (st : St) (v : Iovec) (off : Nat) : St :=
  match dir with
  | .read => { st with mem := write st.mem v.base (read (st.dev qp) off v.len) }
  | .write =>
    let bs := write (st.dev qp) off (read st.mem v.base v.len)
    { st with dev := update st.dev qp bs }

/-- `sync_preadv_fn` and `sync_pwritev_fn`, with the number of bytes they return. -/
def syncv (dir : Dir) (qp : Nat) : St → List Iovec → Nat → St × Nat
  | st, [], _ => (st, 0)
  | st, v :: rest, off =>
    let r := syncv dir qp (sync dir qp st v off) rest (off + v.len)
    (r.1, v.len + r.2)

/-- `pio`, at most `fuel` rounds of its loop. -/
def pio (dir : Dir) (n : Nat) : Nat → St → Iovec → Nat → Nat → Option (St × Nat)
  | 0, _, _, _, _ => none
  | fuel + 1, st, v, off, tot =>
    if v.len = 0 then some (st, tot)
    else
      let l := min v.len (blk - off % blk)
      pio dir n fuel (sync dir (offsetToQpair n off) st ⟨v.base, l⟩ (devOffset n off))
        ⟨v.base + l, v.len - l⟩ (off + l) (tot + l)

/-- The elements that the first inner loop of `piov` runs over, with the last of them cut
at the end of the block. -/
def cut : Nat → List Iovec → List Iovec
  | _, [] => []
  | blkLen, v :: rest =>
    if blkLen = 0 then [] else ⟨v.base, min blkLen v.len⟩ :: cut (blkLen - min blkLen v.len) rest

/-- The second inner loop of `piov`: the list behind the bytes transferred, and `advance_len`
when it is done. -/
def advance : Nat → List Iovec → List Iovec × Nat
  | n, [] => ([], n)
  | n, v :: rest =>
    if n = 0 then (v :: rest, 0)
    else if v.len ≤ n then advance (n - v.len) rest
    else (⟨v.base + n, v.len - n⟩ :: rest, 0)

/-- `piov`, at most `fuel` rounds of its loop. -/
def piov (dir : Dir) (n : Nat) : Nat → St → List Iovec → Nat → Nat → Option (St × Nat)
  | 0, _, _, _, _ => none
  | fuel + 1, st, iov, off, tot =>
    if iov = [] then some (st, tot)
    else
      let p := cut (blk - off % blk) iov
      let r := syncv dir (offsetToQpair n off) st p (devOffset n off)
      if iovecLen p ≠ r.2 then some (r.1, tot)
      else
        -- `advance_len` has been counted down when it is added to the offset
        let a := advance (iovecLen p) iov
        piov dir n fuel r.1 a.1 (off + a.2) (tot + r.2)

/-! ## Contiguous I/O -/

def logical (n : Nat) (dev : Nat → Nat → UInt8) (x : Nat) : UInt8 :=
  dev (offsetToQpair n x) (devOffset n x)

def logicalOffset (n qp a : Nat) : Nat := (a / blk * n + qp) * blk + a % blk

/-- The devices with the logical bytes `m`. -/
def striped (n : Nat) (dev : Nat → Nat → UInt8) (m : Nat → UInt8) : Nat → Nat → UInt8 :=
  fun qp a => if qp < n then m (logicalOffset n qp a) else dev qp a

def gather (mem : Nat → UInt8) (iov : List Iovec) : List UInt8 :=
  iov.flatMap fun v => read mem v.base v.len

/-- The memory once the bytes are in the buffers. -/
def scatter : (Nat → UInt8) → List Iovec → List UInt8 → Nat → UInt8
  | mem, [], _ => mem
  | mem, v :: rest, bs => scatter (write mem v.base (bs.take v.len)) rest (bs.drop v.len)

def contiguous (dir : Dir) (n : Nat) (st : St) (iov : List Iovec) (off : Nat) : St :=
  match dir with
  | .read => { st with mem := scatter st.mem iov (read (logical n st.dev) off (iovecLen iov)) }
  | .write => { st with dev := striped n st.dev (write (logical n st.dev) off (gather st.mem iov)) }

/-! ## Places -/

variable {n : Nat}

theorem div_mod_block {b q r : Nat} (h : r < b) : (q * b + r) / b = q ∧ (q * b + r) % b = r := by
  refine ⟨?_, ?_⟩
  · rw [Nat.mul_comm, Nat.mul_add_div (by omega), Nat.div_eq_of_lt h, Nat.add_zero]
  · rw [Nat.mul_comm, Nat.mul_add_mod, Nat.mod_eq_of_lt h]

theorem mod_blk_lt (x : Nat) : x % blk < blk := Nat.mod_lt _ (by decide)

theorem logicalOffset_place (x : Nat) :
    logicalOffset n (offsetToQpair n x) (devOffset n x) = x := by
  obtain ⟨h1, h2⟩ := div_mod_block (q := x / (blk * n)) (mod_blk_lt x)
  rw [logicalOffset, devOffset, h1, h2, offsetToQpair, ← Nat.div_div_eq_div_mul, Nat.div_add_mod',
    Nat.div_add_mod']

theorem place_logicalOffset {qp : Nat} (hqp : qp < n) (a : Nat) :
    offsetToQpair n (logicalOffset n qp a) = qp ∧ devOffset n (logicalOffset n qp a) = a := by
  obtain ⟨h1, h2⟩ := div_mod_block (q := a / blk * n + qp) (mod_blk_lt a)
  obtain ⟨h3, h4⟩ := div_mod_block (q := a / blk) hqp
  refine ⟨?_, ?_⟩
  · rw [offsetToQpair, logicalOffset, h1, h4]
  · rw [devOffset, ← Nat.div_div_eq_div_mul, logicalOffset, h1, h2, h3, Nat.div_add_mod']

variable {off base fuel tot t : Nat} {bs : List UInt8} {v : Iovec} {iov : List Iovec}
  {ls : List Nat} {st st' : St}

theorem place_add {i : Nat} (h : off % blk + i < blk) :
    offsetToQpair n (off + i) = offsetToQpair n off ∧
      devOffset n (off + i) = devOffset n off + i := by
  have hoff := Nat.div_add_mod' off blk
  obtain ⟨h1, h2⟩ := div_mod_block (q := off / blk) h
  rw [show off / blk * blk + (off % blk + i) = off + i by omega] at h1 h2
  refine ⟨?_, ?_⟩
  · rw [offsetToQpair, offsetToQpair, h1]
  · rw [devOffset, devOffset, ← Nat.div_div_eq_div_mul, ← Nat.div_div_eq_div_mul, h1, h2,
      Nat.add_assoc]

/-! ## One block -/

theorem iovecLen_cons (v : Iovec) (iov : List Iovec) :
    iovecLen (v :: iov) = v.len + iovecLen iov := sum_cons

theorem gather_cons (mem : Nat → UInt8) (v : Iovec) (iov : List Iovec) :
    gather mem (v :: iov) = read mem v.base v.len ++ gather mem iov := flatMap_cons

theorem gather_length (mem : Nat → UInt8) (iov : List Iovec) :
    (gather mem iov).length = iovecLen iov := by
  induction iov with
  | nil => rfl
  | cons v iov ih => rw [gather_cons, length_append, ih, read_length, iovecLen_cons]

theorem syncv_rc (dir : Dir) (qp : Nat) (st : St) (iov : List Iovec) (off : Nat) :
    (syncv dir qp st iov off).2 = iovecLen iov := by
  induction iov generalizing st off with
  | nil => rfl
  | cons v iov ih => rw [syncv, iovecLen_cons, ih]

theorem syncv_read (qp : Nat) (st : St) (iov : List Iovec) (off : Nat) :
    (syncv .read qp st iov off).1 =
      { st with mem := scatter st.mem iov (read (st.dev qp) off (iovecLen iov)) } := by
  induction iov generalizing st off with
  | nil => rfl
  | cons v iov ih =>
    rw [syncv, ih, iovecLen_cons, read_add, scatter, take_left' (read_length _ _ _),
      drop_left' (read_length _ _ _)]
    rfl

theorem syncv_write (qp : Nat) (st : St) (iov : List Iovec) (off : Nat) :
    (syncv .write qp st iov off).1 =
      ⟨st.mem, update st.dev qp (write (st.dev qp) off (gather st.mem iov))⟩ := by
  induction iov generalizing st off with
  | nil => simp [syncv, gather]
  | cons v iov ih =>
    have happ := write_append (st.dev qp) off (read st.mem v.base v.len) (gather st.mem iov)
    rw [read_length] at happ
    rw [syncv, ih, gather_cons, ← happ]
    simp [sync]

theorem striped_block (hn : 0 < n) (dev : Nat → Nat → UInt8) (h : off % blk + bs.length ≤ blk) :
    striped n dev (write (logical n dev) off bs) = update dev (offsetToQpair n off)
      (write (dev (offsetToQpair n off)) (devOffset n off) bs) := by
  have hplace : ∀ i < bs.length, offsetToQpair n (off + i) = offsetToQpair n off ∧
      devOffset n (off + i) = devOffset n off + i := fun i hi => place_add (by omega)
  funext qp a
  by_cases hqp : qp < n
  · obtain ⟨hq, ha⟩ := place_logicalOffset hqp a
    rw [striped, if_pos hqp]
    by_cases hin : off ≤ logicalOffset n qp a ∧ logicalOffset n qp a < off + bs.length
    · -- a byte that is written
      obtain ⟨i, hi⟩ : ∃ i, logicalOffset n qp a = off + i := ⟨_, (Nat.add_sub_of_le hin.1).symm⟩
      obtain ⟨h1, h2⟩ := hplace i (by omega)
      rw [hi] at hq ha ⊢
      rw [← hq, ← ha, h1, h2, update_self, write, write, if_pos (by omega),
        if_pos (by omega), Nat.add_sub_cancel_left, Nat.add_sub_cancel_left,
        getD_eq_getElem _ _ (by omega), getD_eq_getElem _ _ (by omega)]
    · rw [write_outside _ _ (by omega), logical, hq, ha]
      by_cases hq0 : qp = offsetToQpair n off
      · subst hq0
        rw [update_self, write_outside]
        by_contra hc
        obtain ⟨i, rfl⟩ : ∃ i, a = devOffset n off + i := ⟨_, (Nat.add_sub_of_le (by omega)).symm⟩
        obtain ⟨h1, h2⟩ := hplace i (by omega)
        rw [← h1, ← h2, logicalOffset_place] at hin
        omega
      · rw [update_of_ne hq0]
  · have hq0 : qp ≠ offsetToQpair n off := by
      have : offsetToQpair n off < n := Nat.mod_lt _ hn
      omega
    rw [striped, if_neg hqp, update_of_ne hq0]

theorem syncv_block (dir : Dir) (hn : 0 < n) (st : St) (iov : List Iovec)
    (h : off % blk + iovecLen iov ≤ blk) :
    (syncv dir (offsetToQpair n off) st iov (devOffset n off)).1 = contiguous dir n st iov off := by
  cases dir with
  | read =>
    have heq : read (st.dev (offsetToQpair n off)) (devOffset n off) (iovecLen iov) =
        read (logical n st.dev) off (iovecLen iov) := by
      refine read_shift fun i hi => ?_
      obtain ⟨h1, h2⟩ := place_add (n := n) (show off % blk + i < blk by omega)
      rw [logical, h1, h2]
    rw [syncv_read, heq]
    rfl
  | write => rw [syncv_write, ← striped_block hn _ (by rw [gather_length]; exact h), contiguous]

theorem logical_striped (hn : 0 < n) (dev : Nat → Nat → UInt8) (m : Nat → UInt8) :
    logical n (striped n dev m) = m := by
  funext x
  have : offsetToQpair n x < n := Nat.mod_lt _ hn
  rw [logical, striped, if_pos this, logicalOffset_place]

theorem striped_logical (dev : Nat → Nat → UInt8) : striped n dev (logical n dev) = dev := by
  funext qp a
  by_cases hqp : qp < n
  · obtain ⟨hq, ha⟩ := place_logicalOffset hqp a
    rw [striped, if_pos hqp, logical, hq, ha]
  · rw [striped, if_neg hqp]

theorem striped_striped (dev : Nat → Nat → UInt8) (m m' : Nat → UInt8) :
    striped n (striped n dev m) m' = striped n dev m' := by
  funext qp a
  simp only [striped]
  split <;> rfl

/-! ## One buffer -/

theorem scatter_one (mem : Nat → UInt8) (v : Iovec) (h : bs.length = v.len) :
    scatter mem [v] bs = write mem v.base bs := by
  rw [scatter, scatter, take_of_length_le h.le]

theorem contiguous_read_one (st : St) (v : Iovec) (off : Nat) :
    contiguous .read n st [v] off =
      { st with mem := write st.mem v.base (read (logical n st.dev) off v.len) } := by
  have hlen : iovecLen [v] = v.len := by simp [iovecLen]
  rw [contiguous, hlen, scatter_one _ _ (read_length _ _ _)]

theorem contiguous_write_one (st : St) (v : Iovec) (off : Nat) :
    contiguous .write n st [v] off =
      ⟨st.mem, striped n st.dev (write (logical n st.dev) off (read st.mem v.base v.len))⟩ := by
  rw [contiguous, gather_cons, gather, flatMap_nil, append_nil]

theorem contiguous_split (dir : Dir) (hn : 0 < n) (st : St) (base a b off : Nat) :
    contiguous dir n (contiguous dir n st [⟨base, a⟩] off) [⟨base + a, b⟩] (off + a) =
      contiguous dir n st [⟨base, a + b⟩] off := by
  cases dir with
  | read =>
    have happ := write_append st.mem base (read (logical n st.dev) off a)
      (read (logical n st.dev) (off + a) b)
    rw [read_length] at happ
    rw [contiguous_read_one, contiguous_read_one, contiguous_read_one, read_add, ← happ]
  | write =>
    have happ := write_append (logical n st.dev) off (read st.mem base a) (read st.mem (base + a) b)
    rw [read_length] at happ
    rw [contiguous_write_one, contiguous_write_one, contiguous_write_one, logical_striped hn,
      striped_striped, read_add, ← happ]

theorem contiguous_empty (dir : Dir) (st : St) (base off : Nat) :
    contiguous dir n st [⟨base, 0⟩] off = st := by
  cases dir with
  | read => simp [contiguous_read_one, Bytes.read]
  | write => simp [contiguous_write_one, Bytes.read, striped_logical]

theorem sync_block (dir : Dir) (hn : 0 < n) (st : St) {l : Nat} (h : off % blk + l ≤ blk) :
    sync dir (offsetToQpair n off) st ⟨base, l⟩ (devOffset n off) =
      contiguous dir n st [⟨base, l⟩] off :=
  syncv_block dir hn st [⟨base, l⟩] (by simpa [iovecLen] using h)

theorem pio_contiguous (dir : Dir) (hn : 0 < n) (h : v.len < fuel) (st : St) (off tot : Nat) :
    pio dir n fuel st v off tot = some (contiguous dir n st [v] off, tot + v.len) := by
  induction fuel generalizing v st off tot with
  | zero => omega
  | succ fuel ih =>
    obtain ⟨base, len⟩ := v
    dsimp only at h ⊢
    rw [pio]
    by_cases h0 : len = 0
    · subst h0
      rw [if_pos rfl, contiguous_empty, Nat.add_zero]
    · have hmod := mod_blk_lt off
      have hlen : min len (blk - off % blk) + (len - min len (blk - off % blk)) = len := by omega
      dsimp only
      rw [if_neg h0, ih (by dsimp only; omega), sync_block dir hn st (by omega),
        contiguous_split dir hn, hlen]
      dsimp only
      rw [Nat.add_assoc, hlen]

/-- What is written from one buffer is read back into another, whatever blocks it spans, and no
other byte of the array changes. -/
theorem pio_read_back (n : Nat) (st : St) (src dst len off : Nat) :
    ∃ st1 st2, pio .write (n + 1) (len + 1) st ⟨src, len⟩ off 0 = some (st1, len) ∧
      logical (n + 1) st1.dev = write (logical (n + 1) st.dev) off (read st.mem src len) ∧
      pio .read (n + 1) (len + 1) st1 ⟨dst, len⟩ off 0 = some (st2, len) ∧
      read st2.mem dst len = read st.mem src len := by
  have hpio := fun dir st b => @pio_contiguous _ (len + 1) ⟨b, len⟩ dir n.succ_pos len.lt_succ_self
    st off 0
  have hback := fun m a => read_write_append m a (read st.mem src len) []
  simp only [append_nil, read_length] at hback
  simp only [Nat.zero_add, Nat.succ_eq_add_one] at hpio
  refine ⟨_, _, hpio .write st src, ?_, hpio .read _ dst, ?_⟩
  · rw [contiguous_write_one, logical_striped n.succ_pos]
  · rw [contiguous_read_one, contiguous_write_one, logical_striped n.succ_pos]
    dsimp only
    rw [hback, hback]

/-! ## Lists that fit in a block -/

theorem iovecLen_cut (b : Nat) (iov : List Iovec) :
    iovecLen (cut b iov) = min b (iovecLen iov) := by
  induction iov generalizing b with
  | nil => simp [cut, iovecLen]
  | cons v iov ih =>
    rw [cut, iovecLen_cons]
    split
    · rename_i h
      simp [h, iovecLen]
    · rw [iovecLen_cons, ih]
      dsimp only
      omega

theorem advance_snd {m : Nat} (h : m ≤ iovecLen iov) : (advance m iov).2 = 0 := by
  induction iov generalizing m with
  | nil =>
    rw [advance]
    exact Nat.le_zero.mp h
  | cons v iov ih =>
    rw [iovecLen_cons] at h
    rw [advance]
    split
    · rfl
    · split
      · exact ih (by omega)
      · rfl

def EndsEmpty (iov : List Iovec) : Prop := (iov.map Iovec.len).getLast? = some 0

theorem not_endsEmpty_tail {w : Iovec} (h : ¬ EndsEmpty (v :: w :: iov)) :
    ¬ EndsEmpty (w :: iov) := by
  rw [EndsEmpty] at h ⊢
  simpa [List.getLast?_cons_cons] using h

theorem iovecLen_pos (h : ¬ EndsEmpty (v :: iov)) : 0 < iovecLen (v :: iov) := by
  induction iov generalizing v with
  | nil =>
    simp only [EndsEmpty, map_cons, map_nil, List.getLast?_singleton,
      Option.some.injEq] at h
    rw [iovecLen_cons]
    omega
  | cons w iov ih =>
    have := ih (not_endsEmpty_tail h)
    rw [iovecLen_cons]
    omega

theorem cut_all {b : Nat} (hb : iovecLen iov ≤ b) (h : ¬ EndsEmpty iov) : cut b iov = iov := by
  induction iov generalizing b with
  | nil => rfl
  | cons v iov ih =>
    have hpos := iovecLen_pos h
    rw [iovecLen_cons] at hb hpos
    have hmin : min b v.len = v.len := by omega
    rw [cut, if_neg (by omega), hmin]
    cases iov with
    | nil => rfl
    | cons w iov => rw [ih (by omega) (not_endsEmpty_tail h)]

theorem advance_all (h : ¬ EndsEmpty iov) : (advance (iovecLen iov) iov).1 = [] := by
  induction iov with
  | nil => rfl
  | cons v iov ih =>
    have hpos := iovecLen_pos h
    rw [iovecLen_cons] at hpos ⊢
    rw [advance, if_neg (by omega), if_pos (by omega), Nat.add_sub_cancel_left]
    cases iov with
    | nil => rfl
    | cons w iov => exact ih (not_endsEmpty_tail h)

/-- One round of `piov`: the offset stays. -/
theorem piov_round (dir : Dir) (fuel : Nat) (st : St) (hne : iov ≠ []) (off tot : Nat) :
    piov dir n (fuel + 1) st iov off tot =
      piov dir n fuel
        (syncv dir (offsetToQpair n off) st (cut (blk - off % blk) iov) (devOffset n off)).1
        (advance (min (blk - off % blk) (iovecLen iov)) iov).1 off
        (tot + min (blk - off % blk) (iovecLen iov)) := by
  have hsnd := advance_snd (Nat.min_le_right (blk - off % blk) (iovecLen iov))
  rw [piov, if_neg hne]
  dsimp only
  rw [if_neg (by rw [syncv_rc]; simp), syncv_rc, iovecLen_cut, hsnd, Nat.add_zero]

theorem piov_block (dir : Dir) (hn : 0 < n) (st : St) (hfit : off % blk + iovecLen iov ≤ blk)
    (hend : ¬ EndsEmpty iov) :
    piov dir n 2 st iov off 0 = some (contiguous dir n st iov off, iovecLen iov) := by
  cases hiov : iov with
  | nil =>
    cases dir with
    | read => rfl
    | write => simp [piov, contiguous, gather, iovecLen, striped_logical]
  | cons v rest =>
    rw [← hiov, piov_round dir 1 st (by simp [hiov]), cut_all (by omega) hend,
      Nat.min_eq_right (by omega), advance_all hend, syncv_block dir hn st iov hfit, piov,
      if_pos rfl, Nat.zero_add]

/-! ## Lists that do not -/

theorem advance_endsEmpty {m : Nat} (h : EndsEmpty iov) (hm : m ≤ iovecLen iov) :
    EndsEmpty (advance m iov).1 := by
  induction iov generalizing m with
  | nil => exact h
  | cons v iov ih =>
    rw [iovecLen_cons] at hm
    rw [advance]
    by_cases h0 : m = 0
    · rw [if_pos h0]
      exact h
    · cases iov with
      | nil =>
        simp only [EndsEmpty, map_cons, map_nil, List.getLast?_singleton,
          Option.some.injEq] at h
        simp only [iovecLen, map_nil, sum_nil] at hm
        omega
      | cons w iov =>
        rw [if_neg h0]
        split
        · refine ih ?_ (by omega)
          simpa [EndsEmpty, List.getLast?_cons_cons] using h
        · simpa [EndsEmpty, List.getLast?_cons_cons] using h

/-- With an empty buffer at the end the loop goes on for ever. -/
theorem piov_endsEmpty (dir : Dir) (fuel : Nat) (st : St) (h : EndsEmpty iov) (off tot : Nat) :
    piov dir n fuel st iov off tot = none := by
  induction fuel generalizing st iov tot with
  | zero => rfl
  | succ fuel ih =>
    have hne : iov ≠ [] := by
      rintro rfl
      simp [EndsEmpty] at h
    rw [piov_round dir fuel st hne]
    exact ih _ (advance_endsEmpty h (Nat.min_le_right _ _)) _

/-- Buffers one behind the other. -/
def iovFrom : Nat → List Nat → List Iovec
  | _, [] => []
  | base, l :: ls => ⟨base, l⟩ :: iovFrom (base + l) ls

theorem iovFrom_lens (base : Nat) (ls : List Nat) : (iovFrom base ls).map Iovec.len = ls := by
  induction ls generalizing base with
  | nil => rfl
  | cons l ls ih => rw [iovFrom, map_cons, ih]

theorem iovecLen_iovFrom (base : Nat) (ls : List Nat) : iovecLen (iovFrom base ls) = ls.sum := by
  rw [iovecLen, iovFrom_lens]

theorem gather_iovFrom (mem : Nat → UInt8) (base : Nat) (ls : List Nat) :
    gather mem (iovFrom base ls) = read mem base ls.sum := by
  induction ls generalizing base with
  | nil => rfl
  | cons l ls ih => rw [iovFrom, gather_cons, ih, sum_cons, read_add]

theorem scatter_iovFrom (mem : Nat → UInt8) (base : Nat) (ls : List Nat) (h : bs.length = ls.sum) :
    scatter mem (iovFrom base ls) bs = write mem base bs := by
  induction ls generalizing mem base bs with
  | nil =>
    obtain rfl : bs = [] := eq_nil_of_length_eq_zero h
    rw [iovFrom, scatter, write_nil]
  | cons l ls ih =>
    rw [sum_cons] at h
    have htake : (bs.take l).length = l := by
      rw [length_take]
      omega
    have happ := write_append mem base (bs.take l) (bs.drop l)
    rw [htake, take_append_drop] at happ
    have hdrop : (bs.drop l).length = ls.sum := by
      rw [length_drop]
      omega
    rw [iovFrom, scatter]
    exact (ih _ _ hdrop).trans happ

theorem cut_iovFrom (b base : Nat) (ls : List Nat) :
    ∃ ls', cut b (iovFrom base ls) = iovFrom base ls' := by
  induction ls generalizing b base with
  | nil => exact ⟨[], rfl⟩
  | cons l ls ih =>
    rw [iovFrom, cut]
    split
    · exact ⟨[], rfl⟩
    · dsimp only
      obtain ⟨ls', h⟩ := ih (b - min b l) (base + l)
      by_cases hl : l ≤ b
      · refine ⟨l :: ls', ?_⟩
        rw [h, Nat.min_eq_right hl, iovFrom]
      · refine ⟨[b], ?_⟩
        rw [Nat.min_eq_left (by omega), Nat.sub_self, iovFrom, iovFrom]
        cases ls <;> rfl

theorem advance_iovFrom {m base : Nat} {ls : List Nat} (h : m ≤ ls.sum) :
    ∃ ls', (advance m (iovFrom base ls)).1 = iovFrom (base + m) ls' ∧ ls'.sum = ls.sum - m := by
  induction ls generalizing m base with
  | nil =>
    rw [sum_nil] at h
    exact ⟨[], rfl, by simp⟩
  | cons l ls ih =>
    rw [sum_cons] at h ⊢
    rw [iovFrom, advance]
    split
    · rename_i h0
      exact ⟨l :: ls, by rw [h0]; rfl, by rw [sum_cons]; omega⟩
    · dsimp only
      split
      · obtain ⟨ls', h1, h2⟩ := @ih (m - l) (base + l) (by omega)
        refine ⟨ls', ?_, by omega⟩
        rw [h1]
        congr 1
        omega
      · refine ⟨(l - m) :: ls, ?_, by rw [sum_cons]; omega⟩
        rw [iovFrom, show base + m + (l - m) = base + l by omega]

/-- The transfer of buffers one behind the other is that of one buffer. -/
theorem syncv_iovFrom (dir : Dir) (qp : Nat) (st : St) (base : Nat) (ls : List Nat) (off : Nat) :
    (syncv dir qp st (iovFrom base ls) off).1 = sync dir qp st ⟨base, ls.sum⟩ off := by
  cases dir with
  | read =>
    rw [syncv_read, iovecLen_iovFrom, scatter_iovFrom _ _ _ (read_length _ _ _)]
    rfl
  | write =>
    rw [syncv_write, gather_iovFrom]
    rfl

theorem piov_round_iovFrom (dir : Dir) (fuel : Nat) (st : St) (base : Nat) (hne : ls ≠ [])
    (off tot : Nat) :
    ∃ ls', ls'.sum = ls.sum - min (blk - off % blk) ls.sum ∧
      piov dir n (fuel + 1) st (iovFrom base ls) off tot =
        piov dir n fuel (sync dir (offsetToQpair n off) st
            ⟨base, min (blk - off % blk) ls.sum⟩ (devOffset n off))
          (iovFrom (base + min (blk - off % blk) ls.sum) ls') off
          (tot + min (blk - off % blk) ls.sum) := by
  have hne' : iovFrom base ls ≠ [] := by
    cases ls with
    | nil => exact absurd rfl hne
    | cons l ls => simp [iovFrom]
  obtain ⟨cs, hcut⟩ := cut_iovFrom (blk - off % blk) base ls
  have hcs : cs.sum = min (blk - off % blk) ls.sum := by
    have := iovecLen_cut (blk - off % blk) (iovFrom base ls)
    rwa [hcut, iovecLen_iovFrom, iovecLen_iovFrom] at this
  obtain ⟨ls', hadv, hsum⟩ := @advance_iovFrom (min (blk - off % blk) ls.sum) base ls
    (Nat.min_le_right _ _)
  refine ⟨ls', hsum, ?_⟩
  rw [piov_round dir fuel st hne', iovecLen_iovFrom, hadv, hcut, syncv_iovFrom, hcs]

theorem sync_read_below (qp : Nat) (st : St) {l a : Nat} (h : a < base) (off : Nat) :
    (sync .read qp st ⟨base, l⟩ off).mem a = st.mem a :=
  write_outside _ _ (Or.inl h)

theorem piov_read_below (h : piov .read n fuel st (iovFrom base ls) off tot = some (st', t))
    {a : Nat} (ha : a < base) : st'.mem a = st.mem a := by
  induction fuel generalizing st base ls tot with
  | zero => cases h
  | succ fuel ih =>
    by_cases hne : ls = []
    · subst hne
      rw [iovFrom, piov, if_pos rfl] at h
      cases h
      rfl
    · obtain ⟨ls', -, hround⟩ := piov_round_iovFrom (n := n) .read fuel st base hne off tot
      rw [hround] at h
      rw [ih h (by omega), sync_read_below _ _ ha]

/-- Every round of a write starts at the same place, so that a zero of the last round stands
there in the end. -/
theorem piov_write_zero (h : piov .write n fuel st (iovFrom base ls) off tot = some (st', t))
    (hmem : ∀ a, base ≤ a → st.mem a = 0)
    (hdev : 0 < ls.sum ∨ st.dev (offsetToQpair n off) (devOffset n off) = 0) :
    st'.dev (offsetToQpair n off) (devOffset n off) = 0 := by
  induction fuel generalizing st base ls tot with
  | zero => cases h
  | succ fuel ih =>
    by_cases hne : ls = []
    · subst hne
      rw [iovFrom, piov, if_pos rfl] at h
      cases h
      exact hdev.resolve_left (by simp)
    · obtain ⟨ls', -, hround⟩ := piov_round_iovFrom (n := n) .write fuel st base hne off tot
      rw [hround] at h
      refine ih h (fun a ha => hmem a (by omega)) (Or.inr ?_)
      have hmod := mod_blk_lt off
      generalize hm : min (blk - off % blk) ls.sum = m
      simp only [sync, update_self]
      cases m with
      | zero =>
        rw [Bytes.read, write_nil]
        exact hdev.resolve_left (by omega)
      | succ m =>
        rw [Bytes.read, write, if_pos (Nat.le_refl _), Nat.sub_self, getD_cons_zero]
        exact hmem base (Nat.le_refl _)

theorem striped_place (hn : 0 < n) (dev : Nat → Nat → UInt8) (m : Nat → UInt8) (off : Nat) :
    striped n dev m (offsetToQpair n off) (devOffset n off) = m off := by
  have hqp : offsetToQpair n off < n := Nat.mod_lt _ hn
  rw [striped, if_pos hqp, logicalOffset_place]

theorem write_head (m : Nat → UInt8) (off : Nat) (b : UInt8) (bs : List UInt8) :
    write m off (b :: bs) off = b := by
  rw [write, if_pos (by simp), Nat.sub_self, getD_cons_zero]

theorem ne_nil_of_crossing (hx : blk < off % blk + ls.sum) : ls ≠ [] := by
  rintro rfl
  have hmod := mod_blk_lt off
  rw [sum_nil] at hx
  omega

/-- A write over the end of a block does not end with its first byte in place. -/
theorem piov_write_crossing (hn : 0 < n) (hx : blk < off % blk + ls.sum)
    (hmem : ∀ a, st.mem a = if a = 0 then 1 else 0) (fuel t : Nat) :
    piov .write n fuel st (iovFrom 0 ls) off 0 ≠
      some (contiguous .write n st (iovFrom 0 ls) off, t) := by
  intro h
  have hmod := mod_blk_lt off
  cases fuel with
  | zero => cases h
  | succ fuel =>
    obtain ⟨ls', hsum, hround⟩ := piov_round_iovFrom (n := n) .write fuel st 0
      (ne_nil_of_crossing hx) off 0
    rw [hround] at h
    have hzero := piov_write_zero h
      (fun a ha => (hmem a).trans (if_neg (by omega))) (Or.inl (by omega))
    obtain ⟨k, hk⟩ : ∃ k, ls.sum = k + 1 := ⟨ls.sum - 1, by omega⟩
    simp only [contiguous, gather_iovFrom, striped_place hn, hk, Bytes.read, write_head] at hzero
    rw [hmem, if_pos rfl] at hzero
    exact absurd hzero (by decide)

/-- A read over the end of a block finds its first byte again behind the end. -/
theorem piov_read_repeats (hx : blk < off % blk + ls.sum)
    (h : piov .read n fuel st (iovFrom 0 ls) off tot = some (st', t)) :
    st'.mem (blk - off % blk) = logical n st.dev off := by
  have hmod := mod_blk_lt off
  cases fuel with
  | zero => cases h
  | succ fuel =>
    obtain ⟨ls1, hsum, hround⟩ := piov_round_iovFrom (n := n) .read fuel st 0
      (ne_nil_of_crossing hx) off tot
    rw [hround, Nat.min_eq_left (by omega), Nat.zero_add] at h
    have hne1 : ls1 ≠ [] := by
      rintro rfl
      rw [sum_nil] at hsum
      omega
    cases fuel with
    | zero => cases h
    | succ fuel =>
      obtain ⟨ls2, -, hround2⟩ := piov_round_iovFrom (n := n) .read fuel
        (sync .read (offsetToQpair n off) st ⟨0, blk - off % blk⟩ (devOffset n off))
        (blk - off % blk) hne1 off (tot + (blk - off % blk))
      obtain ⟨k, hk⟩ : ∃ k, min (blk - off % blk) ls1.sum = k + 1 :=
        ⟨min (blk - off % blk) ls1.sum - 1, by omega⟩
      rw [hround2, hk] at h
      rw [piov_read_below h (by omega)]
      simp only [sync, Bytes.read, write_head]
      rfl

theorem piov_read_crossing (hx : blk < off % blk + ls.sum)
    (hdev : ∀ x, logical n st.dev x = if x = off then 1 else 0) (fuel t : Nat) :
    piov .read n fuel st (iovFrom 0 ls) off 0 ≠
      some (contiguous .read n st (iovFrom 0 ls) off, t) := by
  intro h
  have hmod := mod_blk_lt off
  have hmem := piov_read_repeats hx h
  have hlen : (Bytes.read (logical n st.dev) off ls.sum).length = ls.sum := read_length _ _ _
  have hc : blk - off % blk < (Bytes.read (logical n st.dev) off ls.sum).length := by omega
  simp only [contiguous, iovecLen_iovFrom, scatter_iovFrom _ _ _ hlen, write] at hmem
  rw [if_pos (by omega), Nat.sub_zero, getD_eq_getElem _ _ hc, read_getElem, hdev, hdev,
    if_pos rfl, if_neg (by omega)] at hmem
  exact absurd hmem (by decide)

/-- The memory and the devices by which a transfer over the end of a block is told from a
contiguous one. -/
def marked (n off : Nat) : St where
  mem a := if a = 0 then 1 else 0
  dev := striped n (fun _ _ => 0) fun x => if x = off then 1 else 0

theorem logical_marked (hn : 0 < n) (off x : Nat) :
    logical n (marked n off).dev x = if x = off then 1 else 0 :=
  striped_place hn (fun _ _ => 0) (fun x => if x = off then 1 else 0) x

theorem piov_crossing (dir : Dir) (hn : 0 < n) {off : Nat} {ls : List Nat}
    (hx : blk < off % blk + ls.sum) (fuel t : Nat) :
    piov dir n fuel (marked n off) (iovFrom 0 ls) off 0 ≠
      some (contiguous dir n (marked n off) (iovFrom 0 ls) off, t) := by
  cases dir with
  | read => exact piov_read_crossing hx (logical_marked hn off) fuel t
  | write => exact piov_write_crossing hn hx (fun _ => rfl) fuel t

/-- A vectored transfer is one contiguous transfer of the concatenated buffers exactly when the
range lies in one block and the last buffer is not empty. -/
theorem piov_contiguous_iff (dir : Dir) (hn : 0 < n) (off : Nat) (lens : List Nat) :
    (∀ iov st, iov.map Iovec.len = lens →
      ∃ fuel, piov dir n fuel st iov off 0 = some (contiguous dir n st iov off, lens.sum)) ↔
      off % blk + lens.sum ≤ blk ∧ lens.getLast? ≠ some 0 := by
  constructor
  · intro h
    obtain ⟨fuel, hrun⟩ := h (iovFrom 0 lens) (marked n off) (iovFrom_lens 0 lens)
    refine ⟨?_, fun hlast => ?_⟩
    · by_contra hx
      exact piov_crossing dir hn (by omega) fuel _ hrun
    · have hend : EndsEmpty (iovFrom 0 lens) := by
        rw [EndsEmpty, iovFrom_lens]
        exact hlast
      rw [piov_endsEmpty dir fuel _ hend] at hrun
      cases hrun
  · rintro ⟨hin, hlast⟩ iov st rfl
    exact ⟨2, piov_block dir hn st hin hlast⟩

/-- Two buffers, both transferred in the third block. -/
theorem piov_contiguous_third_block :
    0 < 3 ∧ ∃ fuel, piov .write 3 fuel (marked 3 0) [⟨0, 512⟩, ⟨600, 100⟩] 16384 0 =
      some (contiguous .write 3 (marked 3 0) [⟨0, 512⟩, ⟨600, 100⟩] 16384, 612) :=
  ⟨by decide, (piov_contiguous_iff .write (by decide) 16384 [512, 100]).mpr (by decide) _ _ rfl⟩

/-- One buffer of two blocks: both blocks are transferred at the offset of the first. -/
theorem piov_two_blocks :
    (¬ ∃ fuel, piov .read 2 fuel (marked 2 0) [⟨0, 16384⟩] 0 0 =
      some (contiguous .read 2 (marked 2 0) [⟨0, 16384⟩] 0, 16384)) ∧
    ¬ ∃ fuel, piov .write 2 fuel (marked 2 0) [⟨0, 16384⟩] 0 0 =
      some (contiguous .write 2 (marked 2 0) [⟨0, 16384⟩] 0, 16384) := by
  refine ⟨?_, ?_⟩ <;> rintro ⟨fuel, h⟩
  · exact @piov_crossing 2 .read (by decide) 0 [16384] (by decide) fuel 16384 h
  · exact @piov_crossing 2 .write (by decide) 0 [16384] (by decide) fuel 16384 h

end UDepot.SpdkArray
