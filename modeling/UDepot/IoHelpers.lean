import UDepot.MbuffIov
import UDepot.PutFault

/-! Reading into an Mbuff with as many calls of the device as it takes: a call may read less than
it was asked for, has an iovec of 16 entries, and may fail. -/

namespace UDepot.Mbuff
open Store (Errno)
open List

/-- What a call of the device returns: a count, or a negative value with this `errno`. -/
inductive IoRes where
  | ok (n : Nat)
  | fail (errno : Nat)
deriving DecidableEq

def IoRes.count : IoRes → Nat
  | .ok n => n
  | .fail _ => 0

/-- The entries of the iovec of one call. -/
def iovSize : Nat := 16

/-- A round of `io_pread_mbuff_append_full`: the last value of `ret`, and the Mbuff. The iovec is
filled as by `fill_iovec_append`: the callbacks differ on empty chunks, which are not offered. -/
def preadRound (m : Nat → UInt8) (mb : Mbuff) (opLen opOff : Nat) (r : IoRes) : Int × Mbuff :=
  let a := mb.fillIovecAppend opLen iovSize
  match r with
  | .fail errno => (-errno, (a.2.reslice (a.2.validSize - a.1.2) 0).getD a.2)
  | .ok n =>
    let bs := Bytes.read m opOff (min n a.1.2)
    let mb2 := a.2.fillFrom mb.validSize bs
    (bs.length,
      if bs.length < a.1.2 then (mb2.reslice (mb2.validSize - a.1.2 + bs.length) 0).getD mb2
      else mb2)

/-- `io_pread_mbuff_append_full` from `bytes_read` on: the error, the bytes read and the Mbuff. The
list holds what the calls return, one after the other; `none` if it is too short. -/
def ioPreadMbuffAppendFull (m : Nat → UInt8) (ioLen ioOff : Nat) (rs : List IoRes)
    (bytesRead : Nat) (mb : Mbuff) : Option (Nat × Nat × Mbuff) :=
  if ioLen ≤ bytesRead then some (0, bytesRead, mb)
  else if mb.appendAvailSize < ioLen - bytesRead then some (Errno.enospc.val, bytesRead, mb)
  else
    match rs with
    | [] => none
    | r :: rs =>
      let p := preadRound m mb (ioLen - bytesRead) (ioOff + bytesRead) r
      if p.1 < 0 then some ((-p.1).toNat, bytesRead, p.2)
      -- also a call that failed with `errno` 0
      else if p.1 = 0 then some (Errno.enodata.val, bytesRead, p.2)
      else ioPreadMbuffAppendFull m ioLen ioOff rs (bytesRead + p.1.toNat) p.2

/-! ## A round -/

section Read

variable {mb mb1 : Mbuff} {out : List UInt8} {opLen : Nat}

/-- The iovec is not empty: the first call of the callback takes something. -/
theorem Good.fillIovecAppend (hg : mb.Good) (h0 : 0 < opLen) (havail : opLen ≤ mb.appendAvailSize) :
    ∃ out, Extends mb (mb.fillIovecAppend opLen iovSize).2 out ∧
      out.length = (mb.fillIovecAppend opLen iovSize).1.2 ∧ 0 < out.length ∧
      out.length ≤ opLen := by
  obtain ⟨out, hext, hlen⟩ := hg.legit.fillIovecAppend opLen iovSize
  have hdraw : ∀ st (t : Node), st.rem < opLen ∨ st = ⟨opLen, iovSize⟩ → 0 < t.appendSpace →
      (t.append iovFn st).1.rem < opLen := by
    intro st t hI hspace
    change (iovFn.run st t.appendChunk).1.rem < opLen
    rw [iovFn]
    have hchunk := t.appendChunk_length
    rcases hI with h | rfl
    · dsimp only
      split <;> dsimp only <;> omega
    · dsimp only
      rw [if_neg (by rw [iovSize]; omega)]
      dsimp only
      omega
  have hlast := appendLoop_last (f := iovFn)
    (I := fun st => st.rem < opLen ∨ st = ⟨opLen, iovSize⟩) (Q := fun st => st.rem < opLen)
    (fun st t hI hspace _ => hdraw st t hI hspace)
    (fun st t hI hspace _ => Or.inl (hdraw st t hI hspace)) (s := ⟨opLen, iovSize⟩) (Or.inr rfl)
    hg.legit hg.pos mb.rounds_le
  have hsize := hext.appendAvailSize hg.legit
  have hbytes : (mb.fillIovecAppend opLen iovSize).1.2 =
    opLen - (appendLoop iovFn (mb.free.length + 1) ⟨opLen, iovSize⟩ mb).1.rem := rfl
  have havail' : (mb.fillIovecAppend opLen iovSize).2.appendAvailSize =
    (appendLoop iovFn (mb.free.length + 1) ⟨opLen, iovSize⟩ mb).2.appendAvailSize := rfl
  refine ⟨out, hext, hlen, ?_, by omega⟩
  rcases hlast with h | ⟨-, h⟩ <;> omega

/-- The call writes over the first bytes that were made valid for it. -/
theorem Extends.fillFrom (hext : Extends mb mb1 out) (hl : mb.Legit) (bs : List UInt8)
    (h : bs.length ≤ out.length) :
    Extends mb (mb1.fillFrom mb.validSize bs) (bs ++ out.drop bs.length) := by
  have hsize := hext.validSize hl
  obtain ⟨hleg, hlay, hoff, hbytes⟩ := @Legit.fillFrom _ hext.legit mb.validSize bs (by omega)
  refine ⟨?_, hlay.trans hext.layout, hoff.trans hext.headOff, hleg⟩
  rw [hbytes, hext.bytes, hl.validSize_eq, take_left, drop_length_add_append]

/-- What was not read is cut off again. -/
theorem Good.reslice_extends (hg : mb.Good) (hext : Extends mb mb1 out) {k : Nat}
    (hk : k ≤ out.length) :
    ∃ mb', mb1.reslice (mb1.validSize - out.length + k) 0 = some mb' ∧ Keeps mb mb' ∧
      mb'.bytes = mb.bytes ++ out.take k ∧
      (0 < k → mb'.appendAvailSize + k = mb.appendAvailSize) := by
  have hsize := hext.validSize hg.legit
  have hvalid := hg.legit.validSize_eq
  have hg1 := (hg.extends hext).good
  rw [show mb1.validSize - out.length + k = mb.validSize + k by omega]
  rcases Nat.eq_zero_or_pos (mb.validSize + k) with h0 | hpos
  · have hz := hg1.resliceZero
    refine ⟨mb1.resliceZero, by rw [h0]; exact reslice_nothing (Nat.zero_le _),
      hg.keeps_of_perm hz.good.legit (hext.layout ▸ hg1.resliceZero_perm), ?_, by omega⟩
    have hnil : mb.bytes = [] := eq_nil_of_length_eq_zero (by omega)
    rw [bytes, hg1.cached.nodes, hnil, show k = 0 by omega]
    rfl
  · obtain ⟨mb', hre, hleg, hbytes, hperm, hoff⟩ := hext.legit.reslice_end hpos (by omega)
    have hperm' := hperm.trans (Perm.of_eq hext.layout)
    have hbytes' : mb'.bytes = mb.bytes ++ out.take k := by
      rw [hbytes, hext.bytes, hvalid, take_length_add_append]
    refine ⟨mb', hre, hg.keeps_of_perm hleg hperm', hbytes', fun _ => ?_⟩
    have h1 := hleg.layout_sum
    have h2 := hg.legit.layout_sum
    have h3 := hleg.validSize_eq
    rw [hbytes', length_append, length_take] at h3
    rw [hperm'.sum_eq, hoff, hext.headOff] at h1
    omega

/-- What a round comes to when the call gives `r`. -/
structure RoundOk (m : Nat → UInt8) (mb : Mbuff) (opLen opOff : Nat) (r : IoRes)
    (p : Int × Mbuff) : Prop where
  keeps : Keeps mb p.2
  bytes : p.2.bytes = mb.bytes ++ Bytes.read m opOff p.1.toNat
  le : p.1 ≤ opLen
  avail : 0 < p.1 → p.2.appendAvailSize + p.1.toNat = mb.appendAvailSize
  stops : p.1 ≤ 0 → r.count = 0

theorem Good.preadRound (hg : mb.Good) (m : Nat → UInt8) (opOff : Nat) (h0 : 0 < opLen)
    (havail : opLen ≤ mb.appendAvailSize) (r : IoRes) :
    RoundOk m mb opLen opOff r (preadRound m mb opLen opOff r) := by
  obtain ⟨out, hext, hout, hpos, hle⟩ := hg.fillIovecAppend h0 havail
  unfold Mbuff.preadRound
  dsimp only
  rw [← hout]
  cases r with
  | fail errno =>
    obtain ⟨mb', hre, hkeeps, hbytes, -⟩ := hg.reslice_extends hext (Nat.zero_le _)
    rw [Nat.add_zero] at hre
    dsimp only
    rw [hre]
    refine ⟨hkeeps, ?_, by dsimp only; omega, fun h => by dsimp only at h; omega, fun _ => rfl⟩
    rw [show (-(errno : Int)).toNat = 0 by omega]
    exact hbytes
  | ok n =>
    have hlen := Bytes.read_length m opOff (min n out.length)
    have hext2 := hext.fillFrom hg.legit (Bytes.read m opOff (min n out.length)) (by omega)
    have hout2 : (Bytes.read m opOff (min n out.length) ++
        out.drop (Bytes.read m opOff (min n out.length)).length).length = out.length := by
      rw [length_append, length_drop]
      omega
    obtain ⟨mb', hre, hkeeps, hbytes, hav⟩ := hg.reslice_extends hext2 (k := min n out.length)
      (by omega)
    rw [hout2] at hre
    rw [take_left' hlen] at hbytes
    dsimp only
    rw [hlen, hre]
    have hstop : ((min n out.length : Nat) : Int) ≤ 0 → (IoRes.ok n).count = 0 := by
      rw [IoRes.count]
      omega
    split
    · exact ⟨hkeeps, hbytes, by dsimp only; omega, fun h => hav (by dsimp only at h; omega), hstop⟩
    · rename_i hfull
      have hnil : out.drop (min n out.length) = [] := drop_eq_nil_of_le (by omega)
      rw [hlen, hnil, append_nil] at hext2
      have hsize := hext2.appendAvailSize hg.legit
      rw [hlen] at hsize
      exact ⟨hg.extends hext2, hext2.bytes, by dsimp only; omega, fun _ => hsize.symm, hstop⟩

end Read

/-! ## The loop -/

theorem pread_loop (m : Nat → UInt8) {ioLen ioOff : Nat} {rs : List IoRes} {bytesRead : Nat}
    {mb0 mb : Mbuff} (hk : Keeps mb0 mb) (hle : bytesRead ≤ ioLen)
    (hrs : ioLen - bytesRead ≤ rs.length)
    (hb : mb.bytes = mb0.bytes ++ Bytes.read m ioOff bytesRead) :
    ∃ err n mb', ioPreadMbuffAppendFull m ioLen ioOff rs bytesRead mb = some (err, n, mb') ∧
      Keeps mb0 mb' ∧ n ≤ ioLen ∧ mb'.bytes = mb0.bytes ++ Bytes.read m ioOff n ∧
      (err = 0 ↔ n = ioLen) ∧
      (err ≠ 0 → mb.appendAvailSize < ioLen - bytesRead ∨ ∃ r ∈ rs, r.count = 0) := by
  induction rs generalizing bytesRead mb with
  | nil =>
    obtain rfl : bytesRead = ioLen := by rw [length_nil] at hrs; omega
    rw [ioPreadMbuffAppendFull, if_pos (le_refl _)]
    exact ⟨0, _, mb, rfl, hk, le_refl _, hb, by simp, by simp⟩
  | cons r rs ih =>
    rw [ioPreadMbuffAppendFull]
    by_cases hdone : ioLen ≤ bytesRead
    · obtain rfl : bytesRead = ioLen := by omega
      rw [if_pos hdone]
      exact ⟨0, _, mb, rfl, hk, hle, hb, by simp, by simp⟩
    rw [if_neg hdone]
    by_cases hspace : mb.appendAvailSize < ioLen - bytesRead
    · rw [if_pos hspace]
      exact ⟨_, _, mb, rfl, hk, hle, hb, by simp [Errno.enospc]; omega, fun _ => Or.inl hspace⟩
    rw [if_neg hspace]
    dsimp only
    have hround := hk.good.preadRound m (ioOff + bytesRead)
      (show 0 < ioLen - bytesRead by omega) (by omega) r
    generalize preadRound m mb (ioLen - bytesRead) (ioOff + bytesRead) r = p at hround ⊢
    have hle' := hround.le
    split
    · have hnil : p.1.toNat = 0 := by omega
      have hbytes := hround.bytes
      rw [hnil, Bytes.read, append_nil, hb] at hbytes
      exact ⟨_, _, _, rfl, hk.trans hround.keeps, hle, hbytes, by omega,
        fun _ => Or.inr ⟨r, mem_cons_self, hround.stops (by omega)⟩⟩
    · split
      · rename_i hz
        have hbytes := hround.bytes
        rw [hz, Int.toNat_zero, Bytes.read, append_nil, hb] at hbytes
        exact ⟨_, _, _, rfl, hk.trans hround.keeps, hle, hbytes, by simp [Errno.enodata]; omega,
          fun _ => Or.inr ⟨r, mem_cons_self, hround.stops (by omega)⟩⟩
      · have havail := hround.avail (by omega)
        rw [length_cons] at hrs
        obtain ⟨err, n, mb', heq, hk', hn, hb', hiff, hwhy⟩ := @ih (bytesRead + p.1.toNat) p.2
          (hk.trans hround.keeps) (by omega) (by omega)
          (by rw [hround.bytes, hb, append_assoc, ← Bytes.read_add])
        refine ⟨err, n, mb', heq, hk', hn, hb', hiff, fun he => ?_⟩
        rcases hwhy he with h | ⟨r', hr', h⟩
        · omega
        · exact Or.inr ⟨r', mem_cons_of_mem _ hr', h⟩

/-- The loop ends after at most one call for each byte. Whatever the calls return, the Mbuff then
has the first `n` bytes of the device behind its own and no others, and there is an error if and
only if these are not all; it comes from too little space or from a call that read nothing. -/
theorem ioPreadMbuffAppendFull_spec (m : Nat → UInt8) {ioLen ioOff : Nat} {rs : List IoRes}
    {mb : Mbuff} (hg : mb.Good) (hrs : ioLen ≤ rs.length) :
    ∃ err n mb', ioPreadMbuffAppendFull m ioLen ioOff rs 0 mb = some (err, n, mb') ∧
      Keeps mb mb' ∧ n ≤ ioLen ∧ mb'.bytes = mb.bytes ++ Bytes.read m ioOff n ∧
      (err = 0 ↔ n = ioLen) ∧
      (err ≠ 0 → mb.appendAvailSize < ioLen ∨ ∃ r ∈ rs, r.count = 0) :=
  pread_loop m hg.keeps (Nat.zero_le _) hrs (append_nil _).symm

theorem ioPreadMbuffAppendFull_two :
    ∃ mb', ioPreadMbuffAppendFull UInt8.ofNat 2 6 [.ok 1, .ok 3] 0
        (Config.oneBuff (List.replicate 4096 0)) = some (0, 2, mb') ∧ mb'.bytes = [6, 7] := by
  have hc := Config.oneBuff_cached (@length_replicate UInt8 4096 0)
  obtain ⟨err, n, mb', heq, -, -, hb, hiff, hwhy⟩ := @ioPreadMbuffAppendFull_spec UInt8.ofNat 2 6
    [.ok 1, .ok 3] _ hc.good (by simp)
  have herr : err = 0 := by
    by_contra h
    rcases hwhy h with hlt | ⟨r, hr, h0⟩
    · rw [hc.avail, Config.oneBuff, length_replicate] at hlt
      dsimp only at hlt
      omega
    · simp only [mem_cons, not_mem_nil, or_false] at hr
      rcases hr with rfl | rfl <;> cases h0
  obtain rfl := hiff.mp herr
  subst herr
  exact ⟨mb', heq, hb.trans (nil_append _)⟩

end UDepot.Mbuff
