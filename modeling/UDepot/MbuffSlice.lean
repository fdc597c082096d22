import UDepot.Mbuff

/-! Prepending to an `Mbuff` and cutting slices of it. -/

namespace UDepot.Mbuff
open List

variable {σ : Type}

/-! ## Prepending -/

variable {mb : Mbuff} {n : Node} {rest : List Node}

theorem Legit.prependInline (hl : mb.Legit) (hn : mb.nodes = n :: rest) (h0 : 0 < n.off)
    (h : 0 < n.len) (f : AppendFn σ) (s : σ) :
    mb.prependInline f s = ((n.prepend f s).1,
      { mb with
        nodes := (n.prepend f s).2.1 :: rest
        validSize := mb.validSize + (n.prepend f s).2.2 }) ∧
      (mb.prependInline f s).2.Legit := by
  have hoff := hl.off
  have hfull := hl.full
  have hvalid := hl.valid
  rw [hn] at hoff hfull hvalid
  have heq : mb.prependInline f s = ((n.prepend f s).1,
      { mb with
        nodes := (n.prepend f s).2.1 :: rest
        validSize := mb.validSize + (n.prepend f s).2.2 }) := by
    have hspace : 0 < n.prependSpace := by rwa [Node.prependSpace_of_pos h]
    simp only [Mbuff.prependInline, prependPrepareInline, hn, if_pos hspace, prependFinalize]
  refine ⟨heq, ?_⟩
  rw [heq]
  refine ⟨hoff, ?_, ?_, hl.free⟩
  · cases rest with
    | nil => simp
    | cons m rest =>
      intro x hx
      simp only [dropLast_cons_cons, mem_cons] at hx hfull
      rcases hx with rfl | hx
      · have h1 := hfull n (Or.inl rfl)
        have h2 := Node.prepend_count_le f s h
        rw [Node.prepend_off f s h, Node.prepend_len, Node.prepend_buffLen]
        omega
      · exact hfull x (Or.inr hx)
  · simp only [map_cons, sum_cons, Node.prepend_len] at hvalid ⊢
    omega

/-! ## Re-slicing -/

theorem putFreeNodes_eq (mb : Mbuff) (ns : List Node) :
    mb.putFreeNodes ns = { mb with
      free := (ns.map Node.buff).reverse ++ mb.free
      freeSize := mb.freeSize + (ns.map Node.buffLen).sum } := by
  induction ns generalizing mb with
  | nil => rfl
  | cons n rest ih =>
    change (mb.putFreeNode n).putFreeNodes rest = _
    rw [ih]
    simp only [putFreeNode, map_cons, reverse_cons, append_assoc,
      singleton_append, sum_cons, Nat.add_assoc]

theorem truncateAt_spec {ns : List Node} {len : Nat} (h0 : 0 < len)
    (h : len ≤ (ns.map Node.len).sum) :
    ∃ init n back l, ∃ hl : l ≤ n.len, ns = init ++ n :: back ∧
      truncateAt ns len = (init ++ [n.truncate l hl], back) ∧ 0 < l ∧
      (init.map Node.len).sum + l = len := by
  induction ns generalizing len with
  | nil =>
    simp only [map_nil, sum_nil] at h
    omega
  | cons n rest ih =>
    simp only [map_cons, sum_cons] at h
    rw [truncateAt]
    by_cases hl : len ≤ n.len
    · rw [dif_pos hl]
      exact ⟨[], n, rest, len, hl, rfl, rfl, h0, by simp⟩
    · obtain ⟨init, m, back, l, hl', hns, ht, hpos, hsum⟩ := @ih (len - n.len) (by omega) (by omega)
      rw [dif_neg hl, ht]
      refine ⟨n :: init, m, back, l, hl', by rw [hns]; rfl, rfl, hpos, ?_⟩
      simp only [map_cons, sum_cons]
      omega

theorem full_advance {o : Nat} (ho : o ≤ n.len)
    (hfull : ∀ x ∈ (n :: rest).dropLast, x.off + x.len = x.buffLen) :
    ∀ x ∈ (n.advance o ho :: rest).dropLast, x.off + x.len = x.buffLen := by
  cases rest with
  | nil => simp
  | cons m rest =>
    intro x hx
    simp only [dropLast_cons_cons, mem_cons] at hx hfull
    rcases hx with rfl | hx
    · have := hfull n (Or.inl rfl)
      rw [Node.advance_buffLen]
      simp only [Node.advance]
      omega
    · exact hfull x (Or.inr hx)

theorem Legit.advance (h : mb.Legit) (hn : mb.nodes = n :: rest) {o : Nat} (ho : o ≤ n.len) :
    Legit { mb with nodes := n.advance o ho :: rest, validSize := mb.validSize - o } := by
  have hoff := h.off
  have hfull := h.full
  have hvalid := h.valid
  rw [hn] at hoff hfull hvalid
  refine ⟨hoff, full_advance ho hfull, ?_, h.free⟩
  simp only [map_cons, sum_cons] at hvalid ⊢
  simp only [Node.advance]
  omega

theorem Legit.pos_of_mem_dropLast (h : mb.Legit) (hpos : ∀ l ∈ mb.layout, 0 < l)
    (ht : n ∈ mb.nodes.tail) (hd : n ∈ mb.nodes.dropLast) : 0 < n.len := by
  have hmem : n.buffLen ∈ mb.layout :=
    mem_append_left _ (mem_map_of_mem (mem_of_mem_tail ht))
  have h1 := h.off n ht
  have h2 := h.full n hd
  have h3 := hpos _ hmem
  omega

/-- Truncating to the valid size only takes an empty tail off. -/
theorem Legit.truncate_valid (h : mb.Legit) (hpos : ∀ l ∈ mb.layout, 0 < l)
    (h0 : 0 < mb.validSize) :
    ∃ init t back, truncateAt mb.nodes mb.validSize = (init ++ [t], back) ∧
      mb.nodes = (init ++ [t]) ++ back ∧ 0 < t.len ∧ (back = [] ∨ ∃ e, back = [e] ∧ e.len = 0) := by
  obtain ⟨init, n, back, l, hl, hns, ht, hl0, hsum⟩ := truncateAt_spec h0 h.valid.le
  have hv := h.valid
  rw [hns] at hv
  simp only [map_append, map_cons, sum_append, sum_cons] at hv
  obtain rfl : l = n.len := by omega
  refine ⟨init, n, back, ht, by rw [hns]; simp, hl0, ?_⟩
  match back with
  | [] => exact Or.inl rfl
  | [e] =>
    simp only [map_cons, map_nil, sum_cons, sum_nil] at hv
    exact Or.inr ⟨e, rfl, by omega⟩
  | e :: e' :: back =>
    have hmt : e ∈ mb.nodes.tail := by
      rw [hns]
      cases init <;> simp
    have hmd : e ∈ mb.nodes.dropLast := by
      rw [hns, dropLast_append_of_ne_nil (by simp)]
      simp
    have := h.pos_of_mem_dropLast hpos hmt hmd
    simp only [map_cons, sum_cons] at hv
    omega

theorem Legit.extends_drop_empty (h : mb.Legit) {init : List Node} {t e : Node}
    (hn : mb.nodes = (init ++ [t]) ++ [e]) (he : e.len = 0) :
    Extends mb ({ mb with nodes := init ++ [t] }.putFreeNode e) [] := by
  have hoff := h.off
  have hfull := h.full
  have hvalid := h.valid
  rw [hn] at hoff hfull hvalid
  rw [dropLast_concat] at hfull
  rw [tail_append_of_ne_nil (by simp)] at hoff
  refine ⟨?_, ?_, ?_, ?_, ?_, ?_, ?_⟩
  · simp only [bytes, putFreeNode, hn, flatMap_append, flatMap_cons, flatMap_nil,
      append_nil]
    rw [show e.validData = [] from eq_nil_of_length_eq_zero (by simp [he]), append_nil]
  · simp [Mbuff.layout, putFreeNode, hn, Node.buffLen]
  · unfold Mbuff.headOff putFreeNode
    rw [hn]
    cases init <;> rfl
  · exact fun x hx => hoff x (mem_append_left _ hx)
  · exact fun x hx => hfull x (mem_of_mem_dropLast hx)
  · simpa [putFreeNode, he] using hvalid
  · simp only [putFreeNode, map_cons, sum_cons, h.free, Node.buffLen]
    omega

theorem Legit.reslice_front (h : mb.Legit) (hpos : ∀ l ∈ mb.layout, 0 < l)
    (hn : mb.nodes = n :: rest) {o : Nat} (h0 : 0 < o) (ho : o < n.len) :
    ∃ mb' init t, mb.reslice (mb.validSize - o) o = some mb' ∧
      Extends { mb with nodes := n.advance o ho.le :: rest, validSize := mb.validSize - o } mb' [] ∧
      mb'.nodes = init ++ [t] ∧ 0 < t.len := by
  have hadv := h.advance hn ho.le
  have hval : o < mb.validSize := by
    rw [h.valid, hn, map_cons, sum_cons]
    omega
  obtain ⟨init, t, back, htr, hns, htl, hback⟩ := hadv.truncate_valid
    (by simpa [layout, hn] using hpos) (show 0 < mb.validSize - o by omega)
  have hdrop : dropFront mb.nodes o = (n.advance o ho.le :: rest, []) := by
    rw [hn, dropFront, if_neg h0.ne', dif_pos ho]
  have hre : mb.reslice (mb.validSize - o) o = some
      ({ mb with nodes := init ++ [t], validSize := mb.validSize - o }.putFreeNodes back) := by
    dsimp only at htr
    rw [reslice, if_neg (by omega), if_neg (by omega), if_neg (by simp [hn]), hdrop]
    dsimp only
    rw [htr, nil_append]
  rcases hback with rfl | ⟨e, rfl, he⟩
  · rw [append_nil] at hns
    refine ⟨_, init, t, hre, ?_, rfl, htl⟩
    dsimp only at hns
    rw [hns] at hadv ⊢
    exact Extends.refl hadv
  · exact ⟨_, init, t, hre, hadv.extends_drop_empty hns he, rfl, htl⟩

/-! ## Any slice -/

/-- What `Legit` says of a list of nodes. -/
def Chain (ns : List Node) : Prop :=
  (∀ n ∈ ns.tail, n.off = 0) ∧ ∀ n ∈ ns.dropLast, n.off + n.len = n.buffLen

theorem Legit.chain (h : mb.Legit) : Chain mb.nodes := ⟨h.off, h.full⟩

theorem Chain.tail {ns : List Node} (h : Chain (n :: ns)) : Chain ns := by
  obtain ⟨hoff, hfull⟩ := h
  refine ⟨fun m hm => hoff m (mem_of_mem_tail hm), fun m hm => hfull m ?_⟩
  cases ns with
  | nil => simp at hm
  | cons n' ns =>
    rw [dropLast_cons_cons]
    exact mem_cons_of_mem _ hm

theorem dropFront_spec {ns : List Node} {off : Nat} (hc : Chain ns)
    (h : off < (ns.map Node.len).sum) :
    Chain (dropFront ns off).1 ∧
      (dropFront ns off).1.flatMap Node.validData = (ns.flatMap Node.validData).drop off ∧
      ns.map Node.buffLen = (dropFront ns off).2.map Node.buffLen ++
        (dropFront ns off).1.map Node.buffLen := by
  induction ns generalizing off with
  | nil => simp at h
  | cons n ns ih =>
    rw [dropFront]
    simp only [map_cons, sum_cons] at h
    by_cases h0 : off = 0
    · rw [if_pos h0, h0]
      exact ⟨hc, rfl, rfl⟩
    · rw [if_neg h0]
      by_cases hlt : off < n.len
      · rw [dif_pos hlt]
        refine ⟨⟨hc.1, full_advance _ hc.2⟩, ?_, by simp⟩
        rw [flatMap_cons, flatMap_cons, Node.advance_validData,
          drop_append_of_le_length (by rw [Node.validData_length]; omega)]
      · rw [dif_neg hlt]
        obtain ⟨h1, h2, h3⟩ := @ih (off - n.len) hc.tail (by omega)
        refine ⟨h1, ?_, ?_⟩
        · dsimp only
          rw [h2, flatMap_cons, drop_append, Node.validData_length,
            drop_of_length_le (l := n.validData) (by rw [Node.validData_length]; omega),
            nil_append]
        · rw [map_cons, h3]
          simp

theorem Chain.truncate {ns : List Node} {len : Nat} (hc : Chain ns) (h0 : 0 < len)
    (h : len ≤ (ns.map Node.len).sum) :
    Chain (truncateAt ns len).1 ∧
      (truncateAt ns len).1.flatMap Node.validData = (ns.flatMap Node.validData).take len ∧
      ns.map Node.buffLen = (truncateAt ns len).1.map Node.buffLen ++
        (truncateAt ns len).2.map Node.buffLen := by
  obtain ⟨init, n, back, l, hl, rfl, htr, hl0, hsum⟩ := truncateAt_spec h0 h
  obtain ⟨hoff, hfull⟩ := hc
  have hlen : (init.flatMap Node.validData).length = (init.map Node.len).sum := by
    rw [length_flatMap]
    simp
  rw [htr]
  refine ⟨⟨?_, ?_⟩, ?_, by simp⟩
  · cases init with
    | nil => simp
    | cons m init =>
      intro x hx
      simp only [cons_append, tail_cons, mem_append, mem_singleton] at hx
      rcases hx with hx | rfl
      · exact hoff x (by simp [hx])
      · exact hoff n (by simp)
  · intro x hx
    rw [dropLast_concat] at hx
    refine hfull x ?_
    rw [dropLast_append_of_ne_nil (by simp)]
    exact mem_append_left _ hx
  · simp only [flatMap_append, flatMap_cons, flatMap_nil, append_nil,
      Node.truncate_validData]
    rw [take_append, hlen, take_of_length_le (l := init.flatMap Node.validData) (by omega),
      show len - (init.map Node.len).sum = l by omega,
      take_append_of_le_length (by rw [Node.validData_length]; exact hl)]

/-- `reslice` takes the slice, and the buffers that are not needed become free. -/
theorem Legit.reslice_spec {mb : Mbuff} (h : mb.Legit) {len off : Nat} (h0 : 0 < len)
    (hle : off + len ≤ mb.validSize) :
    ∃ mb', mb.reslice len off = some mb' ∧ mb'.Legit ∧
      mb'.bytes = (mb.bytes.drop off).take len ∧ mb'.layout.Perm mb.layout := by
  have hvalid := h.valid
  obtain ⟨hd1, hd2, hd3⟩ := dropFront_spec h.chain (show off < (mb.nodes.map Node.len).sum by omega)
  have hlen := congrArg List.length hd2
  rw [length_flatMap_validData, length_drop, length_flatMap_validData, ← hvalid] at hlen
  obtain ⟨ht1, ht2, ht3⟩ := hd1.truncate h0 (by omega)
  have hlen' := congrArg List.length ht2
  rw [length_flatMap_validData, length_take, length_flatMap_validData] at hlen'
  have hne : mb.nodes ≠ [] := by
    intro hn
    rw [hn] at hvalid
    simp only [map_nil, sum_nil] at hvalid
    omega
  -- the buffers that become free, in the order of the free list
  have hfree : ((((dropFront mb.nodes off).2 ++ (truncateAt (dropFront mb.nodes off).1 len).2).map
      Node.buff).reverse.map fun b => b.data.length).Perm
      (((dropFront mb.nodes off).2 ++ (truncateAt (dropFront mb.nodes off).1 len).2).map
        Node.buffLen) := by
    rw [map_reverse, map_map]
    exact reverse_perm _
  refine ⟨_, by rw [reslice, if_neg (by omega), if_neg (by omega), if_neg hne], ?_⟩
  rw [putFreeNodes_eq]
  refine ⟨⟨ht1.1, ht1.2, ?_, ?_⟩, ?_, ?_⟩
  · dsimp only
    omega
  · dsimp only
    conv_rhs => rw [map_append, sum_append, hfree.sum_eq, ← h.free]
    rw [map_append, sum_append, Nat.add_comm]
  · rw [bytes]
    dsimp only
    rw [ht2, hd2]
    rfl
  · rw [layout, layout, hd3, ht3]
    dsimp only
    rw [map_append]
    refine ((hfree.append_right _).append_left _).trans ?_
    rw [map_append, ← Multiset.coe_eq_coe]
    simp only [← Multiset.coe_add]
    abel

end UDepot.Mbuff
