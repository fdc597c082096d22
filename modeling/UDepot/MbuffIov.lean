import UDepot.MbuffCopy

/-! Receiving into an `Mbuff` with one system call: `fill_iovec_append` makes free space
valid and gives it out as an iovec, and the call writes into it. -/

namespace UDepot.Mbuff
open List

/-- `mb_free_nodes_`, and one more if the tail has space. -/
def appendAvailNchunks (mb : Mbuff) : Nat :=
  mb.free.length + if 0 < (mb.nodes.getLast?.map Node.appendSpace).getD 0 then 1 else 0

/-- The captured variables of the callback of `fill_iovec_append`: the bytes still to be
given out, and the entries left in the iovec. -/
structure IovSt where
  rem : Nat
  left : Nat

def iovFn : AppendFn IovSt where
  run st chunk :=
    let len := min chunk.length st.rem
    if st.left = 0 ∨ len = 0 then (st, chunk, 0) else (⟨st.rem - len, st.left - 1⟩, chunk, len)
  run_length st chunk := by
    dsimp only
    split <;> rfl
  run_le st chunk := by
    dsimp only
    split
    · exact Nat.zero_le _
    · exact Nat.min_le_left _ _

/-- `fill_iovec_append`: the entries and the bytes of the iovec, and the Mbuff, in which
these bytes are now valid. -/
def fillIovecAppend (mb : Mbuff) (len iovLen : Nat) : (Nat × Nat) × Mbuff :=
  let r := mb.append iovFn ⟨len, iovLen⟩
  ((iovLen - r.1.left, len - r.1.rem), r.2)

/-- The node with `bs` written over its valid bytes from `o` on, as far as they reach. -/
def Node.overwrite (n : Node) (o : Nat) (bs : List UInt8) (h : o ≤ n.len) : Node where
  buff := ⟨n.buff.ptr, n.buff.data.take (n.off + o) ++ (bs.take (n.len - o) ++
    n.buff.data.drop (n.off + o + (bs.take (n.len - o)).length))⟩
  off := n.off
  len := n.len
  fits := by
    have := n.fits
    simp only [length_append, length_take, length_drop]
    omega

/-- What a system call writes into valid bytes from `o` on. -/
def scatter : List Node → Nat → List UInt8 → List Node
  | [], _, _ => []
  | n :: ns, o, bs =>
    if h : o ≤ n.len then n.overwrite o bs h :: scatter ns 0 (bs.drop (n.len - o))
    else n :: scatter ns (o - n.len) bs

/-- `recvmsg` into the iovec: the bytes of `mb` from `o` on. -/
def fillFrom (mb : Mbuff) (o : Nat) (bs : List UInt8) : Mbuff :=
  { mb with nodes := scatter mb.nodes o bs }

/-! ## The iovec -/

theorem Legit.fillIovecAppend {mb : Mbuff} (hl : mb.Legit) (len iovLen : Nat) :
    ∃ out, Extends mb (mb.fillIovecAppend len iovLen).2 out ∧
      out.length = (mb.fillIovecAppend len iovLen).1.2 := by
  have hstep : ∀ out st (t : Node), out.length + st.rem = len →
      (out ++ t.appended iovFn st).length + (t.append iovFn st).1.rem = len := by
    intro out st t h
    rw [length_append, t.appended_length]
    change out.length + (iovFn.run st t.appendChunk).2.2 + (iovFn.run st t.appendChunk).1.rem = len
    rw [iovFn]
    dsimp only
    split
    · exact h
    · dsimp only
      omega
  have hinit : ([] : List UInt8).length + (IovSt.mk len iovLen).rem = len := Nat.zero_add len
  obtain ⟨out, hext, hlen⟩ := appendLoop_extends
    (R := fun out (st : IovSt) => out.length + st.rem = len) hstep (mb.free.length + 1) hinit
    (Extends.refl hl)
  refine ⟨out, hext, ?_⟩
  change out.length = len - _
  exact (Nat.sub_eq_of_eq_add hlen.symm).symm

/-! ## The write -/

namespace Node

variable {n : Node} {o : Nat} {bs : List UInt8} (h : o ≤ n.len)

@[simp] theorem overwrite_buffLen : (n.overwrite o bs h).buffLen = n.buffLen := by
  have := n.fits
  simp only [overwrite, buffLen, length_append, length_take, length_drop]
  omega

theorem overwrite_validData : (n.overwrite o bs h).validData =
    n.validData.take o ++ (bs.take (n.len - o) ++ n.validData.drop (o + bs.length)) := by
  have hf := n.fits
  have hpre : (n.buff.data.take (n.off + o)).drop n.off = n.validData.take o := by
    rw [validData, take_take, Nat.min_eq_left h, drop_take, Nat.add_sub_cancel_left]
  rw [validData, overwrite]
  dsimp only
  rw [drop_append_of_le_length (by rw [length_take]; omega), hpre, take_append,
    take_of_length_le (by simp)]
  congr 1
  rw [take_append, take_take, length_take, length_take, validData_length,
    validData, drop_take, drop_drop]
  by_cases hle : bs.length ≤ n.len - o
  · rw [Nat.min_eq_right hle, Nat.min_eq_left h, Nat.min_self]
    congr 2
    · omega
    · congr 1
      omega
  · rw [show n.len - min o n.len - min (n.len - o) bs.length = 0 by omega, take_zero,
      show n.len - (o + bs.length) = 0 by omega, take_zero, Nat.min_eq_left h, Nat.min_self]

end Node

theorem scatter_map (ns : List Node) (o : Nat) (bs : List UInt8) :
    (scatter ns o bs).map (fun n => (n.off, n.len, n.buffLen)) =
      ns.map (fun n => (n.off, n.len, n.buffLen)) := by
  induction ns generalizing o bs with
  | nil => rfl
  | cons n ns ih =>
    rw [scatter]
    split
    · rename_i h
      rw [map_cons, ih, map_cons, Node.overwrite_buffLen]
      rfl
    · rw [map_cons, ih, map_cons]

theorem scatter_bytes (ns : List Node) {o : Nat} {bs : List UInt8}
    (h : o + bs.length ≤ (ns.map Node.len).sum) :
    (scatter ns o bs).flatMap Node.validData = (ns.flatMap Node.validData).take o ++
      (bs ++ (ns.flatMap Node.validData).drop (o + bs.length)) := by
  induction ns generalizing o bs with
  | nil =>
    rw [map_nil, sum_nil] at h
    have hbs : bs = [] := eq_nil_of_length_eq_zero (by omega)
    simp [scatter, hbs]
  | cons n ns ih =>
    rw [map_cons, sum_cons] at h
    rw [scatter, flatMap_cons]
    split
    · rename_i ho
      rw [flatMap_cons, Node.overwrite_validData,
        ih (by rw [length_drop]; omega), take_zero, nil_append, length_drop,
        take_append_of_le_length (by rw [n.validData_length]; exact ho), drop_append,
        n.validData_length]
      simp only [append_assoc]
      congr 1
      by_cases hle : bs.length ≤ n.len - o
      · rw [take_of_length_le hle, drop_of_length_le hle, nil_append,
          show 0 + (bs.length - (n.len - o)) = o + bs.length - n.len by omega]
      · rw [drop_of_length_le (l := n.validData) (by rw [n.validData_length]; omega),
          nil_append, nil_append, ← append_assoc, take_append_drop,
          show 0 + (bs.length - (n.len - o)) = o + bs.length - n.len by omega]
    · rename_i ho
      rw [flatMap_cons, ih (by omega), take_append, drop_append, n.validData_length,
        take_of_length_le (l := n.validData) (by rw [n.validData_length]; omega),
        drop_of_length_le (l := n.validData) (by rw [n.validData_length]; omega),
        show o - n.len + bs.length = o + bs.length - n.len by omega]
      simp only [append_assoc, nil_append]

theorem Legit.fillFrom {mb : Mbuff} (hl : mb.Legit) {o : Nat} {bs : List UInt8}
    (h : o + bs.length ≤ mb.validSize) :
    (mb.fillFrom o bs).Legit ∧ (mb.fillFrom o bs).layout = mb.layout ∧
      (mb.fillFrom o bs).headOff = mb.headOff ∧
      (mb.fillFrom o bs).bytes = mb.bytes.take o ++ (bs ++ mb.bytes.drop (o + bs.length)) := by
  have hmap := scatter_map mb.nodes o bs
  have hoff : (scatter mb.nodes o bs).map Node.off = mb.nodes.map Node.off := by
    simpa [Function.comp_def] using congrArg (List.map Prod.fst) hmap
  have hlen : (scatter mb.nodes o bs).map Node.len = mb.nodes.map Node.len := by
    simpa [Function.comp_def] using congrArg (List.map fun x => x.2.1) hmap
  have hbuff : (scatter mb.nodes o bs).map Node.buffLen = mb.nodes.map Node.buffLen := by
    simpa [Function.comp_def] using congrArg (List.map fun x => x.2.2) hmap
  refine ⟨⟨?_, ?_, ?_, hl.free⟩, ?_, ?_, scatter_bytes _ (by rw [← hl.valid]; exact h)⟩
  · intro n hn
    have hmem : n.off ∈ (mb.nodes.map Node.off).tail := by
      rw [← hoff, ← map_tail]
      exact mem_map_of_mem hn
    rw [← map_tail] at hmem
    obtain ⟨m, hm, heq⟩ := mem_map.mp hmem
    rw [← heq, hl.off m hm]
  · intro n hn
    have hmem : (n.off, n.len, n.buffLen) ∈
        (mb.nodes.map (fun n => (n.off, n.len, n.buffLen))).dropLast := by
      rw [← hmap, ← map_dropLast]
      exact mem_map_of_mem (f := fun n : Node => (n.off, n.len, n.buffLen)) hn
    rw [← map_dropLast] at hmem
    obtain ⟨m, hm, heq⟩ := mem_map.mp hmem
    simp only [Prod.mk.injEq] at heq
    rw [← heq.1, ← heq.2.1, ← heq.2.2, hl.full m hm]
  · rw [Mbuff.fillFrom, hlen, hl.valid]
  · rw [layout, layout, Mbuff.fillFrom, hbuff]
  · rw [headOff, headOff, Mbuff.fillFrom, ← List.head?_map, hoff, List.head?_map]

/-! ## Cutting off what was not received -/

theorem truncateAt_head (ns : List Node) (len : Nat) :
    (truncateAt ns len).1.head?.map Node.off = ns.head?.map Node.off := by
  cases ns with
  | nil => rfl
  | cons n ns =>
    rw [truncateAt]
    split <;> rfl

theorem Legit.reslice_end {mb : Mbuff} (hl : mb.Legit) {len : Nat} (h0 : 0 < len)
    (hle : len ≤ mb.validSize) :
    ∃ mb', mb.reslice len 0 = some mb' ∧ mb'.Legit ∧ mb'.bytes = mb.bytes.take len ∧
      mb'.layout.Perm mb.layout ∧ mb'.headOff = mb.headOff := by
  obtain ⟨mb', hre, hleg, hbytes, hperm⟩ := @Legit.reslice_spec mb hl len 0 h0 (by omega)
  refine ⟨mb', hre, hleg, by rwa [drop_zero] at hbytes, hperm, ?_⟩
  have hne : mb.nodes ≠ [] := by
    intro hn
    have := hl.valid
    rw [hn, map_nil, sum_nil] at this
    omega
  rw [reslice, if_neg (by omega), if_neg (by omega), if_neg hne] at hre
  obtain rfl := Option.some.inj hre
  have hdrop : (dropFront mb.nodes 0).1 = mb.nodes := by
    cases mb.nodes <;> simp [dropFront]
  rw [putFreeNodes_eq, headOff, headOff]
  dsimp only
  rw [truncateAt_head, hdrop]

theorem Legit.reslice_inside {mb : Mbuff} (hl : mb.Legit) (hpages : Pages mb.layout) (len off : Nat)
    (h0 : 0 < len) (hle : off + len ≤ mb.validSize) (hoff : mb.headOff + off < 4096) :
    ∃ mb', mb.reslice len off = some mb' ∧ mb'.Legit ∧ mb'.bytes = (mb.bytes.drop off).take len ∧
      mb'.layout.Perm mb.layout ∧ mb'.headOff = mb.headOff + off := by
  obtain ⟨mb', hre, hleg, hbytes, hperm⟩ := hl.reslice_spec h0 hle
  refine ⟨mb', hre, hleg, hbytes, hperm, ?_⟩
  have hsize := hl.validSize_eq
  obtain ⟨n, rest, hn, hn0, hlt⟩ := hl.head_holds hpages (show off < mb.bytes.length by omega) hoff
  rw [reslice, if_neg (by omega), if_neg (by omega), if_neg (by simp [hn])] at hre
  obtain rfl := Option.some.inj hre
  have hdrop : (dropFront mb.nodes off).1.head?.map Node.off = some (n.off + off) := by
    rw [hn, dropFront]
    split
    · rename_i hz
      simp [hz]
    · rfl
  rw [← hn0, putFreeNodes_eq, headOff]
  dsimp only
  rw [truncateAt_head, hdrop]
  rfl

end UDepot.Mbuff
