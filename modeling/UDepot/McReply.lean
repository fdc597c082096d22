import UDepot.McAtomic

/-! What a handler answers that has got its item. A `get` counts the places for the chunks of its
reply before it appends the end message, so the item is sent only if this message stays in the last
buffer of the data; and `sendmsg` takes no more than `iovMax` chunks. The other commands answer by
what the store says to their `put`, and `append` has assertions on the way there. -/

namespace UDepot
open Numerals Bytes Config List
open Store (Errno KvMap)

/-! ## Chunks -/

namespace Mbuff

variable {mb : Mbuff}

/-- Another last node with bytes gives as many chunks. -/
theorem nextChunks_last (init : List Node) {t t' : Node} (ht : 0 < t.len) (ht' : 0 < t'.len) :
    (nextChunks (init ++ [t']) ((init.map Node.len).sum + t'.len)).length =
      (nextChunks (init ++ [t]) ((init.map Node.len).sum + t.len)).length := by
  induction init with
  | nil => simp [nextChunks, ht.ne', ht'.ne']
  | cons n init ih =>
    rw [cons_append, cons_append, nextChunks, nextChunks, map_cons, sum_cons, if_neg (by omega),
      if_neg (by omega), length_cons, length_cons, Nat.add_assoc, Nat.add_assoc,
      Nat.add_sub_cancel_left, Nat.add_sub_cancel_left, ih]

theorem chunksFrom_last (init : List Node) {t t' : Node} (ht : 0 < t.len) (ht' : 0 < t'.len) :
    (chunksFrom (init ++ [t']) 0 ((init.map Node.len).sum + t'.len)).length =
      (chunksFrom (init ++ [t]) 0 ((init.map Node.len).sum + t.len)).length := by
  induction init with
  | nil => simp [chunksFrom, ht, ht']
  | cons n init ih =>
    rw [cons_append, cons_append, chunksFrom, chunksFrom, map_cons, sum_cons, Nat.sub_zero,
      Nat.zero_sub, Nat.add_assoc, Nat.add_assoc]
    by_cases hn : 0 < n.len
    · rw [if_pos hn, if_pos hn, length_cons, length_cons, Nat.add_sub_cancel_left,
        Nat.add_sub_cancel_left, nextChunks_last init ht ht']
    · have h0 : n.len = 0 := by omega
      rw [if_neg hn, if_neg hn, h0, Nat.zero_add, Nat.zero_add, ih]

theorem nextChunks_length (ns : List Node) (len : Nat) :
    (nextChunks ns len).length ≤ ns.length := by
  induction ns generalizing len with
  | nil => simp [nextChunks]
  | cons n ns ih =>
    have hrest := ih (len - n.len)
    rw [nextChunks]
    split
    · simp
    · rw [length_cons, length_cons]
      omega

theorem chunksFrom_length (ns : List Node) (off len : Nat) :
    (chunksFrom ns off len).length ≤ ns.length := by
  induction ns generalizing off with
  | nil => simp [chunksFrom]
  | cons n ns ih =>
    have hskip := ih (off - n.len)
    have hrest := nextChunks_length ns (len - (n.len - off))
    rw [chunksFrom]
    split
    · rw [length_cons, length_cons]
      omega
    · rw [length_cons]
      omega

/-- The chunks of all valid bytes. -/
def chunks (mb : Mbuff) : List (List UInt8) := chunksFrom mb.nodes 0 mb.validSize

theorem iterateValid_all (h : 0 < mb.validSize) :
    mb.iterateValid 0 mb.validSize = some mb.chunks := by
  rw [iterateValid, if_neg (by omega), if_neg (by omega), chunks]

theorem Legit.chunks_flatten (h : mb.Legit) : mb.chunks.flatten = mb.bytes := by
  rw [chunks, chunksFrom_flatten, drop_zero, h.validSize_eq]
  exact take_length

/-- All nodes but the first and the last are full. -/
theorem Good.nodes_le (h : mb.Good) : 4096 * (mb.nodes.length - 2) ≤ mb.validSize := by
  have hpage : ∀ n ∈ mb.nodes, 4096 ≤ n.buffLen := fun n hn =>
    h.pages.le (mem_append_left _ (mem_map_of_mem hn))
  have hoff := h.legit.off
  have hfull := h.legit.full
  rw [h.legit.valid]
  cases hn : mb.nodes with
  | nil => simp
  | cons n rest =>
    rcases eq_nil_or_concat rest with rfl | ⟨mid, t, rfl⟩
    · simp
    · rw [hn] at hpage hoff hfull
      have hmid : ∀ x ∈ mid, 4096 ≤ x.len := by
        intro x hx
        have hx0 := hoff x (by simp [hx])
        have hxf := hfull x (by simp [dropLast_cons_of_ne_nil, hx])
        have := hpage x (by simp [hx])
        omega
      have hsum : 4096 * mid.length ≤ (mid.map Node.len).sum := by
        have := card_nsmul_le_sum (mid.map Node.len) 4096 (by simpa using hmid)
        simpa [Nat.mul_comm] using this
      simp only [concat_eq_append, length_cons, length_append, map_cons, map_append, sum_cons,
        sum_append]
      simp only [length_nil, map_nil, sum_nil]
      omega

theorem Good.chunks_le (h : mb.Good) : 4096 * (mb.chunks.length - 2) ≤ mb.validSize := by
  have := chunksFrom_length mb.nodes 0 mb.validSize
  have := h.nodes_le
  rw [chunks]
  omega

/-! ## Space in the last buffer -/

/-- Buffers are whole pages, so where the bytes end in a page says what is left of it. -/
theorem Good.last_space (h : mb.Good) {n : Nat} (hpos : 0 < mb.validSize)
    (h0 : 0 < (mb.headOff + mb.validSize) % 4096)
    (hn : (mb.headOff + mb.validSize) % 4096 + n < 4096) :
    ∃ init t, mb.nodes = init ++ [t] ∧ 0 < t.len ∧ n < t.appendSpace := by
  have hsum := h.legit.layout_sum
  have hfree := h.legit.free
  rcases eq_nil_or_concat mb.nodes with hnil | ⟨init, t, hnodes⟩
  · rw [h.legit.valid, hnil] at hpos
    simp at hpos
  · rw [concat_eq_append] at hnodes
    refine ⟨init, t, hnodes, ?_⟩
    have hlast : mb.nodes.getLast? = some t := by rw [hnodes, getLast?_concat]
    rw [layout, sum_append, appendAvailSize, hlast, Option.map_some, Option.getD_some] at hsum
    have hdvd : 4096 ∣ (mb.nodes.map Node.buffLen).sum :=
      dvd_sum fun l hl => (h.pages l (mem_append_left _ hl)).2
    have hspace : n < t.appendSpace := by omega
    refine ⟨?_, hspace⟩
    -- an empty last node would start a page
    by_contra hlen
    have htsp := t.off_add_len_add_appendSpace
    have htdvd : 4096 ∣ t.buffLen :=
      (h.pages _ (mem_append_left _ (mem_map_of_mem (by rw [hnodes]; simp)))).2
    cases init with
    | nil =>
      rw [h.legit.valid, hnodes] at hpos
      simp at hpos
      omega
    | cons x init =>
      have hoff := h.legit.off t (by rw [hnodes]; simp)
      omega

/-- What is appended there takes no chunk more. -/
theorem Good.append_chunks (h : mb.Good) (src : List UInt8) (hpos : 0 < mb.validSize)
    (h0 : 0 < (mb.headOff + mb.validSize) % 4096)
    (hsrc : (mb.headOff + mb.validSize) % 4096 + src.length < 4096) :
    (mb.appendFromBuffer src).2.chunks.length = mb.chunks.length := by
  obtain ⟨init, t, hnodes, hlen, hspace⟩ := h.last_space hpos h0 hsrc
  have hprep : mb.appendPrepare = some (t, { mb with nodes := init }) := by
    simp only [appendPrepare, appendPrepareInline, hnodes, getLast?_concat, dropLast_concat,
      if_pos (show 0 < t.appendSpace by omega)]
  have hcnt : (t.append copyFn src).2.2 = src.length := by
    change min src.length t.appendChunk.length = src.length
    rw [t.appendChunk_length]
    omega
  have hlen' : (t.append copyFn src).2.1.len = t.len + src.length := by
    change t.len + min src.length t.appendChunk.length = _
    rw [t.appendChunk_length]
    omega
  have hvalid : mb.validSize = (init.map Node.len).sum + t.len := by
    rw [h.legit.valid, hnodes, map_append, sum_append, map_singleton, sum_singleton]
  rw [appendFromBuffer, Mbuff.append, appendLoop, hprep]
  dsimp only
  rw [if_pos (.inr (by omega)), appendFinalize, chunks, chunks, hnodes, hvalid, hcnt, Nat.add_assoc,
    ← hlen']
  exact chunksFrom_last init hlen (by omega)

/-! ## Prepending exactly what fits -/

/-- The round that fills the space is followed by one more, which takes a free buffer if there is
one and leaves it as a node without bytes. -/
theorem Good.prepend_exact (h : mb.Good) {n : Node} {src : List UInt8} (hn : mb.nodes = [n])
    (hlen : 0 < n.len) (hoff : n.off = src.length) (hsrc : 0 < src.length) :
    (mb.prependFromBuffer src).2.Good ∧ (mb.prependFromBuffer src).2.bytes = src ++ mb.bytes ∧
      ∃ pre t, (mb.prependFromBuffer src).2.nodes = pre ++ [t] ∧ t.off = 0 ∧
        t.len = src.length + n.len := by
  have hspace : n.prependSpace = src.length := by rw [Node.prependSpace_of_pos hlen, hoff]
  have hprep : mb.prependPrepare = some (n, { mb with nodes := [] }) := by
    simp only [prependPrepare, prependPrepareInline, hn, if_pos (show 0 < n.prependSpace by omega)]
  obtain ⟨hcnt, hnil, hbytes⟩ := Node.prepend_fits hlen hspace.ge
  have hlen' : (n.prepend prependCopyFn src).2.1.len = src.length + n.len := by
    rw [Node.prepend_len, hcnt, Nat.add_comm]
  have hoff' : (n.prepend prependCopyFn src).2.1.off = 0 := by
    rw [Node.prepend_off_eq, if_neg (by omega), hcnt, hoff, Nat.sub_self]
  obtain ⟨hleg, hperm⟩ := h.legit.prepend_round h.pos hprep prependCopyFn src
  have hkeeps := h.keeps_of_perm hleg hperm
  rw [Mbuff.prependFromBuffer, Mbuff.prepend, Mbuff.prependLoop, hprep]
  dsimp only
  rw [if_neg (by omega), hnil]
  generalize hx : (n.prepend prependCopyFn src).2.1 = x at *
  generalize hmb2 : prependFinalize { mb with nodes := [] } x
    (n.prepend prependCopyFn src).2.2 = mb2
    at *
  have hnodes : mb2.nodes = [x] := by rw [← hmb2, prependFinalize]
  have hfree : mb2.free = mb.free := by rw [← hmb2, prependFinalize]
  have hb2 : mb2.bytes = src ++ mb.bytes := by
    rw [bytes, bytes, hnodes, hn, flatMap_singleton, flatMap_singleton, hbytes]
  cases hf : mb.free with
  | nil =>
    rw [length_nil, Mbuff.prependLoop]
    exact ⟨hkeeps.good, hb2, [], x, hnodes, hoff', hlen'⟩
  | cons b rest =>
    have hprep2 : mb2.prependPrepare = some (.fresh b, { mb2 with
        free := rest, freeSize := mb2.freeSize - b.data.length }) := by
      have hsp : ¬0 < x.prependSpace := by rw [Node.prependSpace_of_pos (by omega), hoff']; omega
      simp only [prependPrepare, prependPrepareInline, hnodes, if_neg hsp, getFreeNode, hfree, hf]
    have hcnt2 : ((Node.fresh b).prepend prependCopyFn []).2.2 = 0 := Nat.zero_min _
    obtain ⟨hleg2, hperm2⟩ := hkeeps.good.legit.prepend_round hkeeps.good.pos hprep2 prependCopyFn
        []
    have hempty : ((Node.fresh b).prepend prependCopyFn []).2.1.validData = [] := by
      refine eq_nil_of_length_eq_zero ?_
      rw [Node.validData_length, Node.prepend_len, hcnt2]
      rfl
    rw [length_cons, Mbuff.prependLoop, hprep2]
    dsimp only
    rw [if_pos (.inl hcnt2)]
    refine ⟨(hkeeps.good.keeps_of_perm hleg2 hperm2).good, ?_,
      [((Node.fresh b).prepend prependCopyFn []).2.1],
        x, by rw [prependFinalize, hnodes]; rfl, hoff',
      hlen'⟩
    rw [bytes, prependFinalize, flatMap_cons, hempty, nil_append]
    exact hb2

/-- A slice gives buffers free and takes none. -/
theorem reslice_freeSize {len off : Nat} {mb' : Mbuff} (h : mb.reslice len off = some mb') :
    mb.freeSize ≤ mb'.freeSize := by
  rw [reslice] at h
  split_ifs at h with hsize hlen hnodes
  · obtain rfl := Option.some.inj h
    rw [putFreeNodes_eq]
    exact Nat.le_add_right _ _
  · obtain rfl := Option.some.inj h
    exact Nat.le_refl _
  · obtain rfl := Option.some.inj h
    rw [putFreeNodes_eq]
    exact Nat.le_add_right _ _

theorem Good.dvd_freeSize (h : mb.Good) : 4096 ∣ mb.freeSize := by
  rw [h.legit.free]
  refine dvd_sum fun l hl => ?_
  exact (h.pages l (mem_append_right _ hl)).2

end Mbuff

namespace Memcache

/-- The reply to a `get` of an item: its line, its data and the end message. -/
def itemText (key v : List UInt8) : List UInt8 :=
  valueWord ++ key ++ (ascii " " ++ dec (leNat ((trailerOf v).drop 8)) ++ ascii " " ++
    dec (dataOf v).length ++ ascii " \r\n") ++ dataOf v ++ crlf ++ endMsg

/-- The item is not too large for one `sendmsg`, and the end message stays in the page in which
the data end. -/
structure Sendable (key v : List UInt8) : Prop where
  size : v.length ≤ 1020 * 4096
  page : 0 < (putKeyvalPrefixSize + key.length + (dataOf v).length + 2) % 4096
  fits : (putKeyvalPrefixSize + key.length + (dataOf v).length + 2) % 4096 + 5 < 4096

/-! ## The Mbuff of the key -/

variable {keyMb valMb k w old : Mbuff} {env : Env} {m : KvMap} {key : Key} {v : List UInt8}

theorem prepareKvmbuffForGet_ok {alloc : IoAlloc} (hk : keyMb.Good) (hv : valMb.Good)
    (h : prepareKvmbuffForGet alloc key.val keyMb valMb = (none, k, w)) :
    k.Good ∧ k.bytes = key.val ∧ k.headOff = valueWord.length ∧ w.Good := by
  obtain ⟨hg, hn⟩ := hk.fresh alloc (key.val.length + fixedCmdSize)
  rw [prepareKvmbuffForGet] at h
  dsimp only at h
  generalize keyMb.resliceZero.mbuffAddBuffers alloc (key.val.length + fixedCmdSize) = mb at *
  by_cases hfree : mb.freeSize < key.val.length + fixedCmdSize
  · rw [if_pos hfree] at h
    cases (Prod.mk.inj h).1
  · rw [if_neg hfree] at h
    have hword : valueWord.length = 6 := rfl
    have havail := (hg.cached_of_nil hn).avail
    rw [fixedCmdSize] at hfree
    obtain ⟨pre, h1, hpre⟩ := hg.legit.appendUninitialized hg.pos valueWord.length (by omega)
    have ha1 := h1.appendAvailSize hg.legit
    obtain ⟨-, h2⟩ := h1.legit.appendFromBuffer (h1.layout ▸ hg.pos) key.val (by omega)
    have h12 := h1.trans h2
    have hb : ((mb.appendUninitialized valueWord.length).appendFromBuffer key.val).2.bytes =
        pre ++ key.val := by
      rw [h12.bytes, Mbuff.bytes, hn, flatMap_nil, nil_append]
    have hoff : ((mb.appendUninitialized valueWord.length).appendFromBuffer key.val).2.headOff =
      0 := by
      rw [h12.headOff, Mbuff.headOff, hn]
      rfl
    have hsize := h12.legit.validSize_eq
    rw [hb, length_append, hpre] at hsize
    obtain ⟨mb2, hre, hleg, hbytes, hperm, hoff2⟩ := h12.legit.reslice_inside
      (h12.layout ▸ hg.pages) key.val.length valueWord.length (length_pos_of_ne_nil key.ne_nil)
      (by omega) (by rw [hoff, hword]; decide)
    rw [hre, Option.getD_some] at h
    obtain ⟨rfl, rfl⟩ := Prod.mk.inj (Prod.mk.inj h).2
    have hp : mb2.layout.Perm mb.layout := h12.layout ▸ hperm
    refine ⟨(hg.keeps_of_perm hleg hp).good, ?_, by rw [hoff2, hoff, Nat.zero_add],
      hv.resliceZero.good⟩
    rw [hbytes, hb, ← hpre, drop_left, take_length]

/-- A short key is in one node. -/
theorem key_node (hk : k.Good) (hb : k.bytes = key.val) (hoff : k.headOff = valueWord.length) :
    ∃ n, k.nodes = [n] ∧ n.off = valueWord.length ∧ n.len = key.val.length := by
  have hlen := key.length_le
  rw [maxKeyLength] at hlen
  have hword : valueWord.length = 6 := rfl
  obtain ⟨n, rest, hn, hn0, -⟩ := hk.legit.head_holds hk.pages (p := 0)
    (by rw [hb]; exact length_pos_of_ne_nil key.ne_nil) (by rw [hoff, hword]; decide)
  have hvalid := hk.legit.valid
  rw [hk.legit.validSize_eq, hb, hn, map_cons, sum_cons] at hvalid
  cases rest with
  | nil => exact ⟨n, hn, by rw [hn0, hoff], by simpa using hvalid.symm⟩
  | cons x rest =>
    have hfull := hk.legit.full n (by rw [hn]; simp)
    have hpage : 4096 ≤ n.buffLen :=
      hk.pages.le (mem_append_left _ (mem_map_of_mem (by rw [hn]; exact mem_cons_self)))
    omega

/-- The line of an item, in the Mbuff of the key. -/
theorem line_spec (hk : k.Good) (hb : k.bytes = key.val) (hoff : k.headOff = valueWord.length)
    {msg : List UInt8} (hmsg : msg.length ≤ 31) :
    ((k.prependFromBuffer valueWord).2.appendFromBuffer msg).2.Good ∧
      ((k.prependFromBuffer valueWord).2.appendFromBuffer msg).2.bytes =
        valueWord ++ key.val ++ msg := by
  have hlen := key.length_le
  rw [maxKeyLength] at hlen
  have hword : valueWord.length = 6 := rfl
  obtain ⟨n, hn, hn0, hnlen⟩ := key_node hk hb hoff
  obtain ⟨hg, hbytes, pre, t, hnodes, ht0, htlen⟩ := hk.prepend_exact hn
    (by rw [hnlen]; exact length_pos_of_ne_nil key.ne_nil) hn0 (by decide)
  have hpage : 4096 ≤ t.buffLen :=
    hg.pages.le (mem_append_left _ (mem_map_of_mem (by rw [hnodes]; simp)))
  have hspace := t.off_add_len_add_appendSpace
  obtain ⟨-, hext⟩ := hg.legit.appendFromBuffer hg.pos msg (by
    rw [Mbuff.appendAvailSize, hnodes, getLast?_concat, Option.map_some, Option.getD_some]
    omega)
  exact ⟨(hg.extends hext).good, by rw [hext.bytes, hbytes, hb]⟩

/-! ## The Mbuff of the data -/

/-- The two Mbuffs of an item that is sent. -/
structure Prepared (key v : List UInt8) (k w : Mbuff) : Prop where
  line : k.Good
  data : w.Good
  lineBytes : k.bytes = valueWord ++ key ++ (ascii " " ++ dec (leNat ((trailerOf v).drop 8)) ++
    ascii " " ++ dec (dataOf v).length ++ ascii " \r\n")
  lineSize : k.validSize < 4096
  dataBytes : w.bytes = dataOf v ++ crlf
  space : 10 ≤ w.appendAvailSize
  headOff : w.headOff = if dataOf v = [] then 0 else putKeyvalPrefixSize + key.length

theorem prepareKvmbuffForSend_ok (alloc : IoAlloc) (hk : k.Good) (hb : k.bytes = key.val)
    (hoff : k.headOff = valueWord.length) (hold : Old key.val v old)
    (hsmall : v.length ≤ 1020 * 4096) :
    ∃ k' w', prepareKvmbuffForSend alloc k old = (none, k', w') ∧ Prepared key.val v k' w' := by
  have hseen : seen v = v := seen_eq (by omega)
  have hlen := key.length_le
  have hsize := hold.good.legit.validSize_eq
  have ht := hold.trailer
  rw [hold.bytes, hseen] at hsize
  rw [hsize, trailerSize] at ht
  rw [maxKeyLength] at hlen
  have hdata : (dataOf v).length = v.length - 12 := by
    rw [dataOf, length_take, trailerSize]
    omega
  have hflags : leNat (old.copyToBuffer (fromEnd old 4) 4) = leNat ((trailerOf v).drop 8) := by
    rw [fromEnd_eq (by omega) (by omega), Mbuff.copyToBuffer_eq hold.good.legit, hold.bytes, hseen,
      hsize, trailerOf, drop_drop, trailerSize, take_of_length_le (by rw [length_drop]; omega)]
    congr 2
    omega
  have hmid : midMsg (leNat ((trailerOf v).drop 8)) old.validSize = ascii " " ++
      dec (leNat ((trailerOf v).drop 8)) ++ ascii " " ++
        dec (dataOf v).length ++ ascii " \r\n" := by
    have hint : ((old.validSize : Int) - trailerSize).bmod (2 ^ 32) =
        ((dataOf v).length : Int) := by
      rw [hsize, hdata, trailerSize, Int.bmod_def]
      omega
    rw [midMsg, hint, decInt, if_neg (by omega), Int.natAbs_natCast]
  have hlt : leNat ((trailerOf v).drop 8) < 10 ^ 10 := by
    have h4 : ((trailerOf v).drop 8).length = 4 := by
      rw [length_drop, trailerOf, length_drop, trailerSize]
      omega
    have := leNat_lt ((trailerOf v).drop 8)
    rw [h4] at this
    omega
  have hd1 := dec_length_le (by decide) hlt
  have hd2 : (dec (dataOf v).length).length ≤ 10 := dec_length_le (by decide) (by omega)
  have hp1 := length_pos_of_ne_nil (dec_ne_nil (leNat ((trailerOf v).drop 8)))
  have hp2 := length_pos_of_ne_nil (dec_ne_nil (dataOf v).length)
  have hmsg : (midMsg (leNat ((trailerOf v).drop 8)) old.validSize).length =
      (dec (leNat ((trailerOf v).drop 8))).length + (dec (dataOf v).length).length + 5 := by
    have h1 : (ascii " ").length = 1 := by decide
    have h3 : (ascii " \r\n").length = 3 := by decide
    rw [hmid]
    simp only [length_append, h1, h3]
    omega
  obtain ⟨hline, hlineb⟩ := line_spec hk hb hoff (hmsg.trans_le (by omega))
  have hold' := hold.addBuffers alloc crlf.length
  obtain ⟨hg, hbytes, havail, hhead, hzero⟩ := hold'.withoutEnd_spec
  have hcrlf : crlf.length = 2 := rfl
  have htrailer : trailerSize = 12 := rfl
  obtain ⟨-, hext⟩ := hg.legit.appendFromBuffer hg.pos crlf (by omega)
  have hspace := hext.appendAvailSize hg.legit
  rw [hseen] at hbytes hhead hzero
  rw [prepareKvmbuffForSend]
  dsimp only
  rw [hflags, if_neg (by omega)]
  refine ⟨_, _, rfl, hline, (hg.extends hext).good, by rw [hlineb, hmid], ?_, ?_, ?_, ?_⟩
  · have hword : valueWord.length = 6 := rfl
    rw [hline.legit.validSize_eq, hlineb, length_append, length_append, hmsg]
    omega
  · exact hext.bytes.trans (by rw [hbytes])
  · change 10 ≤ ((withoutEnd (old.mbuffAddBuffers alloc crlf.length) trailerSize).appendFromBuffer
      crlf).2.appendAvailSize
    omega
  · refine hext.headOff.trans ?_
    split
    · rename_i hnil
      exact hzero hnil
    · rename_i hne
      exact hhead hne

/-! ## The reply -/

theorem fillIovecs_cons {mb : Mbuff} (hl : mb.Legit) (hpos : 0 < mb.validSize) (rest : List Mbuff)
    {n : Nat} (hn : mb.chunks.length ≤ n) :
    fillIovecs (mb :: rest) n =
      (mb.chunks ++ (fillIovecs rest (n - mb.chunks.length)).1,
        (fillIovecs rest (n - mb.chunks.length)).2) := by
  have hlen : mb.chunks.flatten.length = mb.validSize := by
    rw [hl.chunks_flatten, hl.validSize_eq]
  have hne : mb.chunks ≠ [] := by
    intro hnil
    rw [hnil] at hlen
    exact absurd hlen (by simp; omega)
  rw [fillIovecs, Mbuff.fillIovecValid, Mbuff.iterateValid_all hpos, Option.map_some,
    take_of_length_le hn]
  dsimp only
  rw [if_neg (by rintro (h | h); exacts [hne h, h hlen])]

theorem handleSingleKvGet_ok {key : List UInt8} {k' w' : Mbuff} {a b : Nat}
    (hp : prepareKvmbuffForGet env.alloc key keyMb valMb = (none, k, w))
    (hget : kvGetForMc env m k w = (none, old))
    (hsend : prepareKvmbuffForSend env.alloc k old = (none, k', w'))
    (hk : k'.getValidNchunks 0 k'.validSize = some a)
    (hw : w'.getValidNchunks 0 w'.validSize = some b) :
    handleSingleKvGet env m key keyMb valMb =
      ⟨none, k', w', a + b, k'.validSize + w'.validSize⟩ := by
  fun_cases handleSingleKvGet env m key keyMb valMb with
  | case1 e k1 w1 h1 => cases hp.symm.trans h1
  | case2 k1 w1 h1 e old1 h2 =>
    cases hp.symm.trans h1
    cases hget.symm.trans h2
  | case3 k1 w1 h1 old1 h2 e k2 w2 h3 =>
    cases hp.symm.trans h1
    cases hget.symm.trans h2
    cases hsend.symm.trans h3
  | case4 k1 w1 h1 old1 h2 k2 w2 h3 lenb lenk lenv h4 h5 =>
    cases hp.symm.trans h1
    cases hget.symm.trans h2
    cases hsend.symm.trans h3
    cases hw.symm.trans h4
    cases hk.symm.trans h5
    rfl
  | case5 k1 w1 h1 old1 h2 k2 w2 h3 lenb hno =>
    cases hp.symm.trans h1
    cases hget.symm.trans h2
    cases hsend.symm.trans h3
    exact (hno a b hk hw).elim

theorem handleOneGet_of_single {key : List UInt8} {k' w' : Mbuff} {n lenb : Nat}
    {iov : List (List UInt8)}
    (h : handleSingleKvGet env m key keyMb valMb = ⟨none, k', w', n, lenb⟩)
    (hnil : (w'.appendFromBuffer endMsg).1 = [])
    (hfill : fillIovecs [k', (w'.appendFromBuffer endMsg).2] n = (iov, 0, true))
    (hshort : iov.length ≤ iovMax) (hlen : iov.flatten.length = (lenb + endMsg.length) % 2 ^ 32)
    (cache : List Mbuff) : (handleOneGet env m key keyMb valMb cache).reply = iov.flatten := by
  rw [handleOneGet]
  generalize handleSingleKvGet env m key keyMb valMb = r at h ⊢
  subst h
  dsimp only
  rw [hfill, if_pos rfl, hnil, length_nil, Nat.sub_zero, sendItems, sendvFull,
    if_neg (Nat.not_lt.mpr hshort)]
  dsimp only
  rw [if_neg (not_not.mpr hlen)]

/-- An item that can be sent at once is sent whole. -/
theorem handleOneGet_item (hmb : keyMb.Good) (hmb' : valMb.Good)
    (hp : prepareKvmbuffForGet env.alloc key.val keyMb valMb = (none, k, w))
    (hget : kvGetForMc env m k w = (none, old)) (hv : m key.val = some v)
    (hs : Sendable key.val v) (cache : List Mbuff) :
    (handleOneGet env m key.val keyMb valMb cache).reply = itemText key.val v := by
  obtain ⟨hk, hb, hoff, hw⟩ := prepareKvmbuffForGet_ok hmb hmb' hp
  obtain ⟨v', hv', hold⟩ := kvGetForMc_ok hk.legit hw (by rw [hb]; exact key.length_le) hget
  rw [hb] at hv' hold
  obtain rfl := Option.some.inj (hv.symm.trans hv')
  have hsmall := hs.size
  obtain ⟨k', w', hsend, hprep⟩ := prepareKvmbuffForSend_ok env.alloc hk hb hoff hold hsmall
  have hcrlf : crlf.length = 2 := rfl
  have hend : endMsg.length = 5 := by decide
  have hsize := hprep.data.legit.validSize_eq
  have hline := hprep.line.legit.validSize_eq
  have hlineSize := hprep.lineSize
  have hdata : (dataOf v).length ≤ v.length := by
    rw [dataOf, length_take]
    omega
  have hlinepos : 0 < k'.validSize := by
    rw [hline, hprep.lineBytes, append_assoc, length_append]
    exact Nat.add_pos_left (by decide) _
  rw [hprep.dataBytes, length_append, hcrlf] at hsize
  -- where the data end in their page
  have hmod : (w'.headOff + w'.validSize) % 4096 ≠ 0 ∧
      (w'.headOff + w'.validSize) % 4096 + 5 < 4096 := by
    have h1 := hs.page
    have h2 := hs.fits
    rw [hprep.headOff, hsize]
    split
    · rename_i hnil
      rw [hnil, length_nil]
      decide
    · rw [← Nat.add_assoc]
      omega
  obtain ⟨hnil, hext⟩ := hprep.data.legit.appendFromBuffer hprep.data.pos endMsg
    (by have := hprep.space; omega)
  have hchunks := hprep.data.append_chunks endMsg (by omega) (by omega) (by rw [hend]; exact hmod.2)
  have hlk := hprep.line.chunks_le
  have hlw := hprep.data.chunks_le
  have hkpos : k'.iterateValid 0 k'.validSize = some k'.chunks := Mbuff.iterateValid_all hlinepos
  have hwpos : w'.iterateValid 0 w'.validSize = some w'.chunks := Mbuff.iterateValid_all (by omega)
  have hsingle := handleSingleKvGet_ok hp hget hsend (a := k'.chunks.length)
    (b := w'.chunks.length) (by rw [Mbuff.getValidNchunks, hkpos, Option.map_some])
    (by rw [Mbuff.getValidNchunks, hwpos, Option.map_some])
  have hsize' := hext.validSize hprep.data.legit
  have hfill : fillIovecs [k', (w'.appendFromBuffer endMsg).2]
      (k'.chunks.length + w'.chunks.length) =
      (k'.chunks ++ (w'.appendFromBuffer endMsg).2.chunks, 0, true) := by
    rw [fillIovecs_cons hprep.line.legit hlinepos _ (Nat.le_add_right _ _), Nat.add_sub_cancel_left,
      fillIovecs_cons hext.legit (by omega) _ hchunks.le, hchunks, Nat.sub_self, fillIovecs,
      append_nil]
  have hsent : (k'.chunks ++ (w'.appendFromBuffer endMsg).2.chunks).flatten =
      itemText key.val v := by
    rw [flatten_append, hprep.line.legit.chunks_flatten, hext.legit.chunks_flatten, hext.bytes,
      hprep.lineBytes, hprep.dataBytes, itemText]
    simp only [append_assoc]
  have htotal : (itemText key.val v).length = k'.validSize + w'.validSize + 5 := by
    rw [← hsent, flatten_append, length_append, hprep.line.legit.chunks_flatten,
      hext.legit.chunks_flatten, ← hline, hext.legit.validSize_eq.symm, hsize', hend, Nat.add_assoc]
  rw [← hsent]
  apply handleOneGet_of_single hsingle hnil hfill
  · rw [length_append, hchunks, iovMax]
    omega
  · rw [hsent, htotal, hend]
    omega

/-! ## The assertions of `append` -/

/-- They hold for an item with data, if key and block leave space in their last page for the header,
the expiry and the flags: the free buffers are whole pages. -/
theorem appendAsserts_of_room {mb : Mbuff} {data : List UInt8} (alloc : IoAlloc)
    (hmb : Loaded key.val data mb) (hold : Old key.val v old) (hdata : dataOf (seen v) ≠ [])
    (hpage : 0 < (key.val.length + data.length) % 4096)
    (hroom : (key.val.length + data.length) % 4096 + (putKeyvalPrefixSize + trailerSize) ≤ 4096) :
    AppendAsserts alloc key.val data.length mb old := by
  intro hfree
  have hold1 := hold.addBuffers alloc mb.validSize
  have hsize : mb.validSize = key.val.length + data.length := by
    rw [hmb.good.legit.validSize_eq, hmb.bytes, length_append]
  have hk := key.length_le
  rw [maxKeyLength] at hk
  generalize old.mbuffAddBuffers alloc mb.validSize = old1 at *
  obtain ⟨mb1, hre, hg1, -, hsp1⟩ := hmb.block
  obtain ⟨hg, hb⟩ := blockTrailer_spec hmb hold1
  have hnew : (blockTrailer key.val data.length mb old1).validSize = data.length + trailerSize := by
    rw [hg.legit.validSize_eq, hb, length_append, hold1.trailer_length]
  obtain ⟨hgr, hbr, -, hoff, -⟩ := hold1.withoutEnd_spec
  have hmore : old1.freeSize ≤ (withoutEnd old1 trailerSize).freeSize := by
    rw [withoutEnd]
    cases hcut : old1.reslice (fromEnd old1 trailerSize) 0 with
    | none => exact Nat.le_refl _
    | some old2 => exact Mbuff.reslice_freeSize hcut
  have hbig : key.val.length + putKeyvalPrefixSize + (data.length + trailerSize) ≤
      old1.freeSize := by
    obtain ⟨pages, hpages⟩ := hold1.good.dvd_freeSize
    omega
  have havail : (withoutEnd old1 trailerSize).freeSize ≤
      (withoutEnd old1 trailerSize).appendAvailSize := Nat.le_add_right _ _
  obtain ⟨hcopied, hext⟩ := hgr.legit.appendFromMbuff hgr.pos hg.legit
    (show 0 + (blockTrailer key.val data.length mb old1).validSize ≤ _ by omega) (by omega)
  refine ⟨?_, by omega, hcopied, ?_⟩
  · rw [hre, Option.getD_some]
    refine (hg1.legit.appendFromMbuff hg1.pos hold1.good.legit ?_ hsp1).1
    rw [fromEnd_eq hold1.trailer hold1.small]
    have := hold1.trailer
    omega
  · refine ((hgr.extends hext).good.prepend_before ?_ ?_ ?_).1
    · rw [hext.bytes, hbr]
      exact append_ne_nil_of_left_ne_nil hdata _
    · rw [hext.headOff, hoff hdata, putKeyvalPrefixSize]
      omega
    · rw [hext.headOff, hoff hdata, putKeyvalPrefixSize]
      omega

/-! ## The rest of a command with its item -/

/-- What keeps a command from storing the new item: the memory, or what the store says. -/
def Issue.restErr (c : Issue) (m : KvMap) (old mb : Mbuff) : Option Errno :=
  match c.cmd with
  | .append data =>
    let old := old.mbuffAddBuffers c.env'.alloc mb.validSize
    if old.freeSize < mb.validSize then some .enomem
    else
      let mb := blockTrailer c.key.val data.length mb old
      (c.env'.put m (joined c.key.val mb (withoutEnd old trailerSize)) c.key.val.length .normal).1
  | .prepend _ =>
    let mb := mb.mbuffAddBuffers c.env'.alloc old.validSize
    if mb.freeSize < old.validSize then some .enomem
    else
      (c.env'.put m (mb.appendFromMbuff old 0 old.validSize).2 c.key.val.length .normal).1
  | .incr _ | .decr _ =>
    let num := c.cmd.arith ((oldNumber old).getD 0)
    (c.env'.put m (arithItem c.key.val num mb old) c.key.val.length .normal).1

theorem putRsp_answer (e : Option Errno) :
    (e = none → (Answer.rsp (putRsp e)).acked = true) ∧
      (e ≠ none → Answer.rsp (putRsp e) = .rsp .serverError) := by
  cases e with
  | none => exact ⟨fun _ => rfl, fun h => absurd rfl h⟩
  | some e => exact ⟨fun h => absurd h (Option.some_ne_none e), fun _ => rfl⟩

theorem Issue.finish_answer (c : Issue) (m : KvMap) {mb : Mbuff} (hold : old.Legit)
    (hmb : mb.Good) :
    (c.restErr m old mb = none → (c.finish m (old, mb)).1.acked = true) ∧
      (c.restErr m old mb ≠ none → (c.finish m (old, mb)).1 = .rsp .serverError) := by
  obtain ⟨cmd, key, env, env'⟩ := c
  have harith : ∀ num, ((env'.put m (arithItem key.val num mb old) key.val.length .normal).1 =
        none →
      (arithPut env' m key.val num mb old).1.acked = true) ∧
      ((env'.put m (arithItem key.val num mb old) key.val.length .normal).1 ≠ none →
        (arithPut env' m key.val num mb old).1 = .rsp .serverError) := by
    intro num
    rw [arithPut]
    generalize env'.put m _ key.val.length .normal = p
    cases p.1 with
    | none => exact ⟨fun _ => rfl, fun h => absurd rfl h⟩
    | some e => exact ⟨fun h => absurd h (Option.some_ne_none e), fun _ => rfl⟩
  cases cmd with
  | append data =>
    rw [Issue.restErr, Issue.finish]
    dsimp only
    rw [appendPut]
    dsimp only
    by_cases hfree : (old.mbuffAddBuffers env'.alloc mb.validSize).freeSize < mb.validSize
    · rw [if_pos hfree, if_pos hfree]
      exact ⟨fun h => absurd h (Option.some_ne_none _), fun _ => rfl⟩
    · rw [if_neg hfree, if_neg hfree]
      exact putRsp_answer _
  | prepend data =>
    rw [Issue.restErr, Issue.finish]
    dsimp only
    rw [prependPut]
    dsimp only
    have hg := (hmb.mbuffAddBuffers env'.alloc old.validSize).good
    generalize mb.mbuffAddBuffers env'.alloc old.validSize = mb1 at *
    by_cases hfree : mb1.freeSize < old.validSize
    · rw [if_pos hfree, if_pos hfree]
      exact ⟨fun h => absurd h (Option.some_ne_none _), fun _ => rfl⟩
    · have havail : mb1.freeSize ≤ mb1.appendAvailSize := Nat.le_add_right _ _
      obtain ⟨hcopied, -⟩ := hg.legit.appendFromMbuff hg.pos hold
        (show 0 + old.validSize ≤ old.validSize by omega) (by omega)
      rw [if_neg hfree, if_neg hfree, if_neg (not_not.mpr hcopied)]
      exact putRsp_answer _
  | incr num | decr num => exact harith _

end Memcache
end UDepot
