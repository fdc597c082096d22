import UDepot.PutBuild

/-! Prepending to an `Mbuff` with free buffers, iterating over its valid bytes, and
copying from one `Mbuff` to another. -/

namespace UDepot.Mbuff
open List

variable {σ : Type}

def prependPrepare (mb : Mbuff) : Option (Node × Mbuff) :=
  match mb.prependPrepareInline with
  | some r => some r
  | none => mb.getFreeNode

/-- The loop of `prepend`, at most `n` rounds of it. -/
def prependLoop (f : AppendFn σ) : Nat → σ → Mbuff → σ × Mbuff
  | 0, s, mb => (s, mb)
  | n + 1, s, mb =>
    match mb.prependPrepare with
    | none => (s, mb)
    | some (h, mb1) =>
      let r := h.prepend f s
      let mb2 := mb1.prependFinalize r.2.1 r.2.2
      if r.2.2 = 0 ∨ r.2.2 < h.prependSpace then (r.1, mb2) else prependLoop f n r.1 mb2

/-- As for `append`, each round after the first takes a free buffer. -/
def prepend (mb : Mbuff) (f : AppendFn σ) (s : σ) : σ × Mbuff :=
  prependLoop f (mb.free.length + 1) s mb

theorem overlay_length (src chunk : List UInt8) :
    (chunk.take (chunk.length - src.length) ++ src.drop (src.length - chunk.length)).length =
      chunk.length := by
  rw [length_append, length_take, length_drop]
  omega

theorem overlay_le (src chunk : List UInt8) : min src.length chunk.length ≤ chunk.length :=
  Nat.min_le_right _ _

/-- The callback of `prepend_from_buffer`: the source is copied from its end. -/
def prependCopyFn : AppendFn (List UInt8) where
  run src chunk := (src.take (src.length - chunk.length),
    chunk.take (chunk.length - src.length) ++ src.drop (src.length - chunk.length),
    min src.length chunk.length)
  run_length := overlay_length
  run_le := overlay_le

/-- `prepend_from_buffer`; what is left of the source was not copied. -/
def prependFromBuffer (mb : Mbuff) (src : List UInt8) : List UInt8 × Mbuff :=
  mb.prepend prependCopyFn src

/-! ## Iterating -/

/-- The chunks from a node on, until `len` bytes are passed. -/
def nextChunks : List Node → Nat → List (List UInt8)
  | [], _ => []
  | n :: rest, len => if len = 0 then [] else n.validData.take len :: nextChunks rest (len - n.len)

/-- `find_node` and the chunks from there on. -/
def chunksFrom : List Node → Nat → Nat → List (List UInt8)
  | [], _, _ => []
  | n :: rest, off, len =>
    if off < n.len then (n.validData.drop off).take len :: nextChunks rest (len - (n.len - off))
    else chunksFrom rest (off - n.len) len

/-- `iterate_valid_init`, with all chunks it will give; `none` is its error. -/
def iterateValid (mb : Mbuff) (off len : Nat) : Option (List (List UInt8)) :=
  if len = 0 then some []
  else if mb.validSize < off + len then none
  else some (chunksFrom mb.nodes off len)

def getValidNchunks (mb : Mbuff) (off len : Nat) : Option Nat :=
  (mb.iterateValid off len).map List.length

/-- `fill_iovec_valid`: the chunks, as many as there is place for. -/
def fillIovecValid (mb : Mbuff) (off len iovSize : Nat) : Option (List (List UInt8)) :=
  (mb.iterateValid off len).map (List.take iovSize)

/-- `copy_to_buffer`: the bytes that are copied. -/
def copyToBuffer (mb : Mbuff) (off len : Nat) : List UInt8 :=
  if mb.validSize < off then []
  else ((mb.iterateValid off (min len (mb.validSize - off))).getD []).flatten

/-- A round of `append_from_mbuff`: how much was copied so far, and where to. -/
def copyChunk (r : Nat × Mbuff) (c : List UInt8) : Nat × Mbuff :=
  (r.1 + (c.length - (r.2.appendFromBuffer c).1.length), (r.2.appendFromBuffer c).2)

def appendFromMbuff (mb src : Mbuff) (off len : Nat) : Nat × Mbuff :=
  match src.iterateValid off len with
  | none => (0, mb)
  | some cs => cs.foldl copyChunk (0, mb)

/-! ## What the chunks hold -/

theorem nextChunks_flatten (ns : List Node) (len : Nat) :
    (nextChunks ns len).flatten = (ns.flatMap Node.validData).take len := by
  induction ns generalizing len with
  | nil => simp [nextChunks]
  | cons n rest ih =>
    rw [nextChunks]
    split
    · rename_i h
      simp [h]
    · rw [flatten_cons, ih, flatMap_cons, take_append, n.validData_length]

theorem chunksFrom_flatten (ns : List Node) (off len : Nat) :
    (chunksFrom ns off len).flatten = ((ns.flatMap Node.validData).drop off).take len := by
  induction ns generalizing off with
  | nil => simp [chunksFrom]
  | cons n rest ih =>
    rw [chunksFrom, flatMap_cons, drop_append, n.validData_length]
    split
    · rename_i h
      rw [flatten_cons, nextChunks_flatten, take_append, length_drop,
        n.validData_length, show off - n.len = 0 by omega, drop_zero]
    · have hnil : n.validData.drop off = [] :=
        drop_eq_nil_of_le (by rw [n.validData_length]; omega)
      rw [ih, hnil, nil_append]

theorem iterateValid_some {mb : Mbuff} {off len : Nat} (h : off + len ≤ mb.validSize) :
    ∃ cs, mb.iterateValid off len = some cs ∧ cs.flatten = (mb.bytes.drop off).take len := by
  rw [iterateValid]
  split
  · rename_i h0
    exact ⟨[], rfl, by simp [h0]⟩
  · rw [if_neg (by omega)]
    exact ⟨_, rfl, chunksFrom_flatten _ _ _⟩

variable {mb mb' mb1 : Mbuff} {h : Node}

theorem copyToBuffer_eq (hl : mb.Legit) (off len : Nat) :
    mb.copyToBuffer off len = (mb.bytes.drop off).take len := by
  have hsize := hl.validSize_eq
  rw [copyToBuffer]
  split
  · rw [drop_eq_nil_of_le (by omega), take_nil]
  · obtain ⟨cs, hcs, hflat⟩ := @iterateValid_some mb off (min len (mb.validSize - off)) (by omega)
    rw [hcs, Option.getD_some, hflat, hsize, ← length_drop, ← take_eq_take_min]

/-! ## Copies -/

theorem copyChunks_extends (hpos : ∀ l ∈ mb.layout, 0 < l) (cs : List (List UInt8)) {n : Nat}
    {out : List UInt8} (hext : Extends mb mb' out)
    (hspace : cs.flatten.length ≤ mb'.appendAvailSize) :
    (cs.foldl copyChunk (n, mb')).1 = n + cs.flatten.length ∧
      Extends mb (cs.foldl copyChunk (n, mb')).2 (out ++ cs.flatten) := by
  induction cs generalizing n mb' out with
  | nil => exact ⟨rfl, by simpa using hext⟩
  | cons c cs ih =>
    rw [flatten_cons, length_append] at hspace ⊢
    obtain ⟨hnil, hext'⟩ := hext.legit.appendFromBuffer (hext.layout ▸ hpos) c (by omega)
    have havail := hext'.appendAvailSize hext.legit
    obtain ⟨h1, h2⟩ := ih (n := n + (c.length - (mb'.appendFromBuffer c).1.length))
      (hext.trans hext') (by omega)
    rw [foldl_cons, ← Nat.add_assoc, ← append_assoc]
    refine ⟨h1.trans ?_, h2⟩
    rw [hnil, length_nil, Nat.sub_zero]

theorem Legit.appendFromMbuff {src : Mbuff} (hl : mb.Legit) (hpos : ∀ l ∈ mb.layout, 0 < l)
    (hs : src.Legit) {off len : Nat} (hle : off + len ≤ src.validSize)
    (hspace : len ≤ mb.appendAvailSize) :
    (mb.appendFromMbuff src off len).1 = len ∧
      Extends mb (mb.appendFromMbuff src off len).2 ((src.bytes.drop off).take len) := by
  obtain ⟨cs, hcs, hflat⟩ := iterateValid_some hle
  have hlen : cs.flatten.length = len := by
    rw [hflat, length_take, length_drop, ← hs.validSize_eq]
    omega
  obtain ⟨h1, h2⟩ := copyChunks_extends hpos cs (n := 0) (Extends.refl hl) (by omega)
  rw [Nat.zero_add, hlen] at h1
  rw [nil_append, hflat] at h2
  rw [Mbuff.appendFromMbuff, hcs]
  exact ⟨h1, h2⟩

/-! ## What all operations keep -/

structure Good (mb : Mbuff) : Prop where
  legit : mb.Legit
  pages : Pages mb.layout

/-- It is still good, and has lost no buffer. -/
structure Keeps (mb mb' : Mbuff) : Prop where
  good : mb'.Good
  buffs : mb.layout.Subperm mb'.layout

theorem Good.pos (h : mb.Good) : ∀ l ∈ mb.layout, 0 < l := fun l hl => (h.pages l hl).1

theorem Good.keeps (h : mb.Good) : Keeps mb mb := ⟨h, List.Subperm.refl _⟩

theorem Keeps.trans {mb'' : Mbuff} (h : Keeps mb mb') (h' : Keeps mb' mb'') :
    Keeps mb mb'' := ⟨h'.good, h.buffs.trans h'.buffs⟩

theorem Good.keeps_of_perm (h : mb.Good) (hl : mb'.Legit) (hp : mb'.layout.Perm mb.layout) :
    Keeps mb mb' :=
  ⟨⟨hl, fun l hm => h.pages l (hp.subset hm)⟩, hp.symm.subperm⟩

theorem Cached.good (h : mb.Cached) : mb.Good := ⟨h.legit, h.pages⟩

theorem Good.cached_of_nil (h : mb.Good) (hn : mb.nodes = []) : mb.Cached := by
  refine ⟨hn, by rw [h.legit.valid, hn]; rfl, h.legit.free, fun b hb => h.pages _ ?_⟩
  rw [layout, hn, map_nil, nil_append]
  exact mem_map_of_mem hb

theorem Cached.layout_sum (h : mb.Cached) : mb.layout.sum = mb.freeSize := by
  rw [h.layout, h.freeSize]

theorem Good.cached (h : mb.Good) : mb.resliceZero.Cached :=
  h.legit.resliceZero_cached h.pages

theorem Good.extends {out : List UInt8} (h : mb.Good) (hext : Extends mb mb' out) :
    Keeps mb mb' := h.keeps_of_perm hext.legit (by rw [hext.layout])

theorem Good.append (h : mb.Good) (f : AppendFn σ) (s : σ) : Keeps mb (mb.append f s).2 := by
  obtain ⟨out, hext, -⟩ := appendLoop_extends (R := fun _ _ => True) (f := f)
    (fun _ _ _ _ => trivial) (mb.free.length + 1) (s := s) trivial (Extends.refl h.legit)
  exact h.extends hext

theorem Good.appendInline (h : mb.Good) (f : AppendFn σ) (s : σ) :
    Keeps mb (mb.appendInline f s).2 := by
  unfold Mbuff.appendInline
  split
  · exact h.keeps
  · rename_i t mb1 hp
    exact h.extends (h.legit.extends_inline hp f s)

theorem Good.copyChunks {mb : Mbuff} (h : mb.Good) (cs : List (List UInt8)) (n : Nat) :
    Keeps mb (cs.foldl copyChunk (n, mb)).2 := by
  induction cs generalizing mb n with
  | nil => exact h.keeps
  | cons c cs ih =>
    have h1 : Keeps mb (mb.appendFromBuffer c).2 := h.append _ _
    exact h1.trans (ih h1.good _)

theorem Good.appendFromMbuff (h : mb.Good) (src : Mbuff) (off len : Nat) :
    Keeps mb (mb.appendFromMbuff src off len).2 := by
  unfold Mbuff.appendFromMbuff
  split
  · exact h.keeps
  · exact h.copyChunks _ _

theorem Good.addBuff (h : mb.Good) {b : Buff} (hb : 0 < b.data.length ∧ 4096 ∣ b.data.length) :
    Keeps mb (mb.addBuff b) := by
  have hperm : (mb.addBuff b).layout.Perm (b.data.length :: mb.layout) := by
    rw [addBuff_layout]
    exact perm_middle
  refine ⟨⟨h.legit.addBuff b, fun l hl => ?_⟩,
    (sublist_cons_self _ _).subperm.trans hperm.symm.subperm⟩
  rcases mem_cons.mp (hperm.subset hl) with rfl | hl
  · exact hb
  · exact h.pages l hl

theorem Good.mbuffAddBuffers (h : mb.Good) (alloc : IoAlloc) (size : Nat) :
    Keeps mb (mb.mbuffAddBuffers alloc size) := by
  unfold Mbuff.mbuffAddBuffers
  split
  · exact h.keeps
  · split
    · rename_i b hb
      refine h.addBuff ?_
      rw [alloc.run_length hb]
      exact ⟨alignUp_pos (by omega), dvd_alignUp _⟩
    · exact h.keeps

theorem Good.resliceZero_perm (h : mb.Good) : mb.resliceZero.layout.Perm mb.layout := by
  rw [h.cached.layout, Mbuff.resliceZero, reslice, if_neg (by omega), if_pos rfl, Option.getD_some,
    putFreeNodes_eq, layout, map_append, map_reverse, map_map]
  exact (reverse_perm _).append_right _

theorem Good.resliceZero (h : mb.Good) : Keeps mb mb.resliceZero :=
  h.keeps_of_perm h.cached.legit h.resliceZero_perm

theorem Good.fresh (h : mb.Good) (alloc : IoAlloc) (size : Nat) :
    (mb.resliceZero.mbuffAddBuffers alloc size).Good ∧
      (mb.resliceZero.mbuffAddBuffers alloc size).nodes = [] :=
  ⟨(h.resliceZero.good.mbuffAddBuffers alloc size).good, by
    rw [mbuffAddBuffers_nodes, h.cached.nodes]⟩

theorem reslice_nothing {off : Nat} (h : off ≤ mb.validSize) :
    mb.reslice 0 off = some mb.resliceZero := by
  have h1 : ¬ mb.validSize < off + 0 := by omega
  have h2 : ¬ mb.validSize < 0 + 0 := by omega
  simp only [Mbuff.resliceZero, Mbuff.reslice, if_neg h1, if_neg h2, if_true, Option.getD_some]

theorem Good.reslice (h : mb.Good) (len off : Nat) : Keeps mb ((mb.reslice len off).getD mb) := by
  by_cases hlt : mb.validSize < off + len
  · rw [Mbuff.reslice, if_pos hlt]
    exact h.keeps
  · rcases Nat.eq_zero_or_pos len with rfl | hpos
    · rw [reslice_nothing (by omega), Option.getD_some]
      exact h.resliceZero
    · obtain ⟨mb', hre, hl, -, hp⟩ := h.legit.reslice_spec hpos
        (by omega : off + len ≤ mb.validSize)
      rw [hre]
      exact h.keeps_of_perm hl hp

/-! ## Prepending -/

/-- What a round of `prepend` works on: the head, or a free buffer before nodes of which
the first has no space. -/
theorem prependPrepare_cases (hp : mb.prependPrepare = some (h, mb1)) :
    (mb.nodes = h :: mb1.nodes ∧ 0 < h.prependSpace ∧ mb1 = { mb with nodes := mb1.nodes }) ∨
    ∃ b, (∀ n ∈ mb.nodes.head?, n.prependSpace = 0) ∧ mb.free = b :: mb1.free ∧ h = .fresh b ∧
      mb1 = { mb with free := mb1.free, freeSize := mb.freeSize - b.data.length } := by
  unfold prependPrepare prependPrepareInline at hp
  cases hn : mb.nodes with
  | nil =>
    rw [hn] at hp
    unfold getFreeNode at hp
    cases hf : mb.free with
    | nil => simp [hf] at hp
    | cons b free =>
      simp only [hf, Option.some.injEq, Prod.mk.injEq] at hp
      obtain ⟨rfl, rfl⟩ := hp
      exact Or.inr ⟨b, by simp, rfl, rfl, by rw [hn]⟩
  | cons n rest =>
    simp only [hn] at hp
    by_cases hspace : 0 < n.prependSpace
    · simp only [if_pos hspace, Option.some.injEq, Prod.mk.injEq] at hp
      obtain ⟨rfl, rfl⟩ := hp
      exact Or.inl ⟨rfl, hspace, rfl⟩
    · simp only [if_neg hspace] at hp
      unfold getFreeNode at hp
      cases hf : mb.free with
      | nil => simp [hf] at hp
      | cons b free =>
        simp only [hf, Option.some.injEq, Prod.mk.injEq] at hp
        obtain ⟨rfl, rfl⟩ := hp
        exact Or.inr ⟨b, by simp; omega, rfl, rfl, by rw [hn]⟩

theorem Node.prepend_count_le_space (n : Node) (f : AppendFn σ) (s : σ) :
    (n.prepend f s).2.2 ≤ n.prependSpace := by
  rw [← n.prependChunk_length]
  exact f.run_le s n.prependChunk

theorem Node.prepend_off_eq (n : Node) (f : AppendFn σ) (s : σ) : (n.prepend f s).2.1.off =
    (if n.off = 0 ∧ n.len = 0 then n.buffLen else n.off) - (n.prepend f s).2.2 := rfl

/-- What is prepended to stands at the end of its buffer, if it did before or was empty. -/
theorem Node.prepend_full {n : Node} (h : n.off + n.len = n.buffLen ∨ n.off = 0 ∧ n.len = 0)
    (f : AppendFn σ) (s : σ) :
    (n.prepend f s).2.1.off + (n.prepend f s).2.1.len = (n.prepend f s).2.1.buffLen := by
  have hle := n.prepend_count_le_space f s
  rw [prepend_buffLen, prepend_len, prepend_off_eq]
  unfold prependSpace at hle
  split at hle <;> split <;> omega

theorem Legit.prepend_round (hl : mb.Legit) (hpos : ∀ l ∈ mb.layout, 0 < l)
    (hp : mb.prependPrepare = some (h, mb1)) (f : AppendFn σ) (s : σ) :
    (mb1.prependFinalize (h.prepend f s).2.1 (h.prepend f s).2.2).Legit ∧
      (mb1.prependFinalize (h.prepend f s).2.1 (h.prepend f s).2.2).layout.Perm mb.layout := by
  have hoff := hl.off
  have hfull := hl.full
  have hvalid := hl.valid
  have hfree := hl.free
  rcases prependPrepare_cases hp with ⟨hn, -, he⟩ | ⟨b, hhead, hf, rfl, he⟩
  · rw [hn] at hoff hfull hvalid
    refine ⟨⟨hoff, ?_, ?_, ?_⟩, ?_⟩
    · rw [he]
      intro x hx
      cases hr : mb1.nodes with
      | nil => simp [prependFinalize, hr] at hx
      | cons m rest =>
        rw [hr] at hfull
        simp only [prependFinalize, hr, dropLast_cons_cons, mem_cons] at hx hfull
        rcases hx with rfl | hx
        · exact Node.prepend_full (Or.inl (hfull h (Or.inl rfl))) f s
        · exact hfull x (Or.inr hx)
    · rw [he]
      simp only [prependFinalize, map_cons, sum_cons, Node.prepend_len] at hvalid ⊢
      omega
    · rw [he]
      exact hfree
    · rw [he]
      simp [prependFinalize, layout, hn]
  · -- the node that was the head starts at the begin of its buffer
    have hz : ∀ n ∈ mb.nodes, n.off = 0 := by
      cases hn : mb.nodes with
      | nil => simp
      | cons m rest =>
        rw [hn] at hoff hhead
        have h0 := hhead m rfl
        have hm : 0 < m.buffLen := hpos _ (by simp [layout, hn])
        intro n hmem
        rcases mem_cons.mp hmem with rfl | hmem
        · unfold Node.prependSpace at h0
          split at h0 <;> omega
        · exact hoff n hmem
    refine ⟨⟨?_, ?_, ?_, ?_⟩, ?_⟩
    · rw [he]
      exact hz
    · rw [he]
      intro x hx
      cases hn : mb.nodes with
      | nil => simp [prependFinalize, hn] at hx
      | cons m rest =>
        rw [hn] at hfull
        simp only [prependFinalize, hn, dropLast_cons_cons, mem_cons] at hx
        rcases hx with rfl | hx
        · exact Node.prepend_full (Or.inr ⟨rfl, rfl⟩) f s
        · exact hfull x hx
    · rw [he]
      simp only [prependFinalize, map_cons, sum_cons, Node.prepend_len, hvalid,
        Node.fresh]
      omega
    · rw [he]
      rw [hf, map_cons, sum_cons] at hfree
      simp only [prependFinalize]
      omega
    · rw [he]
      simp only [prependFinalize, layout, hf, map_cons, Node.prepend_buffLen,
        Node.fresh_buffLen, cons_append]
      exact perm_middle.symm

theorem Good.prepend_round (hg : mb.Good) (hp : mb.prependPrepare = some (h, mb1)) (f : AppendFn σ)
    (s : σ) : Keeps mb (mb1.prependFinalize (h.prepend f s).2.1 (h.prepend f s).2.2) := by
  obtain ⟨hl, hperm⟩ := hg.legit.prepend_round hg.pos hp f s
  exact hg.keeps_of_perm hl hperm

theorem Good.prependInline (h : mb.Good) (f : AppendFn σ) (s : σ) :
    Keeps mb (mb.prependInline f s).2 := by
  unfold Mbuff.prependInline
  split
  · exact h.keeps
  · rename_i t mb1 hp
    exact h.prepend_round (by rw [prependPrepare, hp]) f s

end UDepot.Mbuff
