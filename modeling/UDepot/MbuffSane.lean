import UDepot.MbuffIov
import UDepot.MbuffStore

/-! The state that the operations of an `Mbuff` need and keep. Its buffers are not empty,
and a node without valid bytes starts at the begin of its buffer: `prepend_space` asserts
this. Only a callback of `prepend` that takes nothing of an empty node breaks it. -/

namespace UDepot.Mbuff
open List

variable {σ : Type}

def ptrs (mb : Mbuff) : List Nat := mb.nodes.map (fun n => n.buff.ptr) ++ mb.free.map Buff.ptr

structure Sane (mb : Mbuff) : Prop where
  legit : mb.Legit
  pos : ∀ l ∈ mb.layout, 0 < l
  empty : ∀ n ∈ mb.nodes, n.len = 0 → n.off = 0

structure Stays (mb mb' : Mbuff) : Prop where
  sane : mb'.Sane
  ptrs : mb'.ptrs.Perm mb.ptrs

variable {mb mb1 : Mbuff} {t : Node} {f : AppendFn σ} {s : σ}

theorem Sane.stays (h : mb.Sane) : Stays mb mb := ⟨h, .refl _⟩

theorem Stays.trans {mb' mb'' : Mbuff} (h : Stays mb mb') (h' : Stays mb' mb'') :
    Stays mb mb'' := ⟨h'.sane, h'.ptrs.trans h.ptrs⟩

/-- What `get_free_node` asserts: the free size counts the first free buffer. -/
def FreeCounted (mb : Mbuff) : Prop := ∀ b ∈ mb.free.head?, b.data.length ≤ mb.freeSize

theorem Legit.freeCounted (h : mb.Legit) : mb.FreeCounted := by
  intro b hb
  have hf := h.free
  cases hfree : mb.free with
  | nil => simp [hfree] at hb
  | cons b' rest =>
    rw [hfree] at hb hf
    obtain rfl := Option.some.inj hb
    rw [map_cons, sum_cons] at hf
    omega

/-! ## Appending -/

/-- The assertions in the rounds of `append`. -/
def appendAsserts (f : AppendFn σ) : Nat → σ → Mbuff → Prop
  | 0, _, _ => True
  | n + 1, s, mb =>
    match mb.appendPrepare with
    | none => True
    | some (t, mb1) =>
      let r := t.append f s
      mb.FreeCounted ∧ 0 < t.appendSpace ∧
        (r.2.2 = t.appendSpace → appendAsserts f n r.1 (mb1.appendFinalize r.2.1 r.2.2))

theorem Sane.append_round (h : mb.Sane) (hp : mb.appendPrepare = some (t, mb1)) (f : AppendFn σ)
    (s : σ) :
    0 < t.appendSpace ∧ Stays mb (mb1.appendFinalize (t.append f s).2.1 (t.append f s).2.2) := by
  have hext := h.legit.extends_round hp f s
  have hlen := t.append_len f s
  have hempty : (t.len = 0 → t.off = 0) → (∀ n ∈ mb1.nodes, n ∈ mb.nodes) →
      ∀ n ∈ (mb1.appendFinalize (t.append f s).2.1 (t.append f s).2.2).nodes,
        n.len = 0 → n.off = 0 := by
    intro ht hns n hn h0
    rcases mem_append.mp hn with hn | hn
    · exact h.empty n (hns n hn) h0
    · obtain rfl := mem_singleton.mp hn
      exact ht (by omega)
  rcases appendPrepare_cases hp with ⟨hns, hsp, he⟩ | ⟨b, -, hf, rfl, he⟩
  · refine ⟨hsp, ⟨hext.legit, hext.layout ▸ h.pos,
      hempty (h.empty t (by simp [hns])) fun n hn => ?_⟩, ?_⟩
    · rw [hns]
      exact mem_append_left _ hn
    · rw [he, ptrs, ptrs, hns, appendFinalize]
      simp [Node.append]
  · refine ⟨h.pos _ (by simp [layout, hf, Node.appendSpace, Node.fresh, Node.buffLen]),
      ⟨hext.legit, hext.layout ▸ h.pos, hempty (fun _ => rfl) fun n hn => ?_⟩, ?_⟩
    · rwa [he] at hn
    · rw [he, ptrs, ptrs, hf, appendFinalize]
      simp [Node.append, Node.fresh]

theorem Sane.appendLoop (h : mb.Sane) (f : AppendFn σ) (n : Nat) (s : σ) :
    Stays mb (appendLoop f n s mb).2 ∧ appendAsserts f n s mb := by
  induction n generalizing mb s with
  | zero => exact ⟨h.stays, trivial⟩
  | succ n ih =>
    rw [Mbuff.appendLoop, appendAsserts]
    cases hp : mb.appendPrepare with
    | none => exact ⟨h.stays, trivial⟩
    | some r =>
      obtain ⟨t, mb1⟩ := r
      obtain ⟨hsp, hround⟩ := h.append_round hp f s
      obtain ⟨hloop, hasserts⟩ := ih hround.sane (t.append f s).1
      dsimp only
      refine ⟨?_, h.legit.freeCounted, hsp, fun _ => hasserts⟩
      split
      · exact hround
      · exact hround.trans hloop

theorem Sane.appendInline (h : mb.Sane) (f : AppendFn σ) (s : σ) :
    Stays mb (mb.appendInline f s).2 := by
  rw [Mbuff.appendInline]
  split
  · exact h.stays
  · rename_i t mb1 hp
    exact (h.append_round (by rw [appendPrepare, hp]) f s).2

/-! ## Prepending -/

/-- The assertions in the rounds of `prepend`. -/
def prependAsserts (f : AppendFn σ) : Nat → σ → Mbuff → Prop
  | 0, _, _ => True
  | n + 1, s, mb =>
    (∀ h ∈ mb.nodes.head?, h.len = 0 → h.off = 0) ∧
      match mb.prependPrepare with
      | none => True
      | some (h, mb1) =>
        let r := h.prepend f s
        mb.FreeCounted ∧ 0 < h.prependSpace ∧
          (r.2.2 = h.prependSpace → prependAsserts f n r.1 (mb1.prependFinalize r.2.1 r.2.2))

/-- The callback takes at least one byte of every free buffer it is offered. -/
def Keen (f : AppendFn σ) : σ → List Buff → Prop
  | _, [] => True
  | s, b :: bs =>
    0 < (f.run s b.data).2.2 ∧
      ((f.run s b.data).2.2 = b.data.length → Keen f (f.run s b.data).1 bs)

def KeenInline (f : AppendFn σ) (s : σ) (mb : Mbuff) : Prop :=
  ∀ r ∈ mb.prependPrepareInline, r.1.len = 0 → 0 < (f.run s r.1.prependChunk).2.2

/-- So it does of every buffer without valid bytes that `prepend` offers to it. -/
def KeenOn (f : AppendFn σ) (s : σ) (mb : Mbuff) : Prop :=
  KeenInline f s mb ∧
    match mb.prependPrepareInline with
    | none => Keen f s mb.free
    | some (h, _) =>
      (f.run s h.prependChunk).2.2 = h.prependSpace → Keen f (f.run s h.prependChunk).1 mb.free

namespace Node

theorem fresh_prependSpace (b : Buff) : (fresh b).prependSpace = b.data.length := if_pos rfl

theorem fresh_prependChunk (b : Buff) : (fresh b).prependChunk = b.data := by
  rw [prependChunk, fresh_prependSpace]
  exact take_length

def prepended (n : Node) (f : AppendFn σ) (s : σ) : List UInt8 :=
  (f.run s n.prependChunk).2.1.drop (n.prependSpace - (n.prepend f s).2.2)

theorem prepend_bytes {n : Node} (h : n.len = 0 → n.off = 0) (f : AppendFn σ) (s : σ) :
    (n.prepend f s).2.1.validData = n.prepended f s ++ n.validData := by
  by_cases h0 : n.len = 0
  · have hoff := h h0
    have hsp : n.prependSpace = n.buffLen := if_pos h0
    have hle := n.prepend_count_le_space f s
    have hlen : (f.run s n.prependChunk).2.1.length = n.buffLen := by
      rw [f.run_length, prependChunk_length, hsp]
    have hnil : n.validData = [] := eq_nil_of_length_eq_zero (by simp [h0])
    have hdrop : n.buff.data.drop n.prependSpace = [] :=
      drop_of_length_le (by rw [hsp]; exact le_refl _)
    rw [hnil, append_nil, validData, prepend_off_eq, prepend_len, if_pos ⟨hoff, h0⟩, h0,
      prepended, hsp]
    change (((f.run s n.prependChunk).2.1 ++ n.buff.data.drop n.prependSpace).drop _).take _ = _
    rw [hdrop, append_nil, take_of_length_le]
    rw [length_drop, hlen]
    omega
  · rw [prepend_validData f s (by omega), prepended, prependSpace_of_pos (by omega)]

/-- Of a source, what is left and what was prepended make it up. -/
theorem prepended_copy (n : Node) (src : List UInt8) :
    (n.prepend prependCopyFn src).1 ++ n.prepended prependCopyFn src = src := by
  have hlen := n.prependChunk_length
  rw [prepended]
  change src.take (src.length - n.prependChunk.length) ++
    (n.prependChunk.take (n.prependChunk.length - src.length) ++
      src.drop (src.length - n.prependChunk.length)).drop
        (n.prependSpace - min src.length n.prependChunk.length) = src
  rw [drop_append, drop_of_length_le (by rw [length_take]; omega),
    nil_append, length_take,
    show n.prependSpace - min src.length n.prependChunk.length -
      min (n.prependChunk.length - src.length) n.prependChunk.length = 0 by omega,
    drop_zero, take_append_drop]

end Node

theorem Sane.prepare_empty (h : mb.Sane) (hp : mb.prependPrepare = some (t, mb1)) :
    t.len = 0 → t.off = 0 := by
  rcases prependPrepare_cases hp with ⟨hn, -, -⟩ | ⟨b, -, -, rfl, -⟩
  · exact h.empty t (by rw [hn]; simp)
  · exact fun _ => rfl

theorem Sane.prepend_round (h : mb.Sane) (hp : mb.prependPrepare = some (t, mb1)) (f : AppendFn σ)
    (s : σ) (hcnt : t.len = 0 → 0 < (t.prepend f s).2.2) :
    0 < t.prependSpace ∧
      Stays mb (mb1.prependFinalize (t.prepend f s).2.1 (t.prepend f s).2.2) ∧
      (mb1.prependFinalize (t.prepend f s).2.1 (t.prepend f s).2.2).bytes =
        t.prepended f s ++ mb.bytes := by
  obtain ⟨hl, hperm⟩ := h.legit.prepend_round h.pos hp f s
  have hlen := t.prepend_len f s
  have hbytes := Node.prepend_bytes (h.prepare_empty hp) f s
  have hempty : (∀ n ∈ mb1.nodes, n ∈ mb.nodes) →
      ∀ n ∈ (mb1.prependFinalize (t.prepend f s).2.1 (t.prepend f s).2.2).nodes,
        n.len = 0 → n.off = 0 := by
    intro hns n hn h0
    rcases mem_cons.mp hn with rfl | hn
    · have := hcnt (by omega)
      omega
    · exact h.empty n (hns n hn) h0
  rcases prependPrepare_cases hp with ⟨hns, hsp, he⟩ | ⟨b, -, hf, rfl, he⟩
  · refine ⟨hsp, ⟨⟨hl, fun l hm => h.pos l (hperm.subset hm), hempty fun n hn => ?_⟩, ?_⟩, ?_⟩
    · rw [hns]
      exact mem_cons_of_mem _ hn
    · rw [he, ptrs, ptrs, hns, prependFinalize]
      simp [Node.prepend]
    · rw [bytes, prependFinalize, flatMap_cons, hbytes, append_assoc, bytes, hns, flatMap_cons]
  · refine ⟨h.pos _ (by simp [layout, hf, Node.prependSpace, Node.fresh, Node.buffLen]),
      ⟨⟨hl, fun l hm => h.pos l (hperm.subset hm), hempty fun n hn => ?_⟩, ?_⟩, ?_⟩
    · rwa [he] at hn
    · rw [he, ptrs, ptrs, hf, prependFinalize]
      simp only [Node.prepend, Node.fresh, map_cons, cons_append]
      exact perm_middle.symm
    · rw [bytes, prependFinalize, flatMap_cons, hbytes, Node.fresh_validData, append_nil, he, bytes]

theorem Sane.filled (h : mb.Sane) (hp : mb.prependPrepare = some (t, mb1)) (f : AppendFn σ) (s : σ)
    (hsp : 0 < t.prependSpace) (hfill : (t.prepend f s).2.2 = t.prependSpace) :
    (mb1.prependFinalize (t.prepend f s).2.1 (t.prepend f s).2.2).prependPrepareInline = none := by
  have hempty := h.prepare_empty hp
  have hlen : ¬ (t.prepend f s).2.1.len = 0 := by
    rw [Node.prepend_len]
    omega
  have hoff : (t.prepend f s).2.1.off = 0 := by
    rw [Node.prepend_off_eq, hfill]
    unfold Node.prependSpace
    grind
  have hzero : (t.prepend f s).2.1.prependSpace = 0 := by
    rw [Node.prependSpace, if_neg hlen, hoff]
  simp [prependPrepareInline, prependFinalize, hzero]

/-- What a keen callback takes of an empty node, and how it goes on after a filled one. -/
theorem keenOn_round (hk : KeenOn f s mb) (hp : mb.prependPrepare = some (t, mb1)) :
    (t.len = 0 → 0 < (t.prepend f s).2.2) ∧
      ((t.prepend f s).2.2 = t.prependSpace → Keen f (t.prepend f s).1 mb1.free) := by
  obtain ⟨hk1, hk2⟩ := hk
  cases hi : mb.prependPrepareInline with
  | some r =>
    have hcases := prependPrepare_cases hp
    rw [prependPrepare, hi] at hp
    obtain rfl := Option.some.inj hp
    rw [hi] at hk2
    have hfree : mb1.free = mb.free := by
      rcases hcases with ⟨-, -, he⟩ | ⟨b, hz, -, -, -⟩
      · rw [he]
      · rw [prependPrepareInline] at hi
        cases hns : mb.nodes with
        | nil => simp [hns] at hi
        | cons m rest =>
          have := hz m (by rw [hns]; rfl)
          simp [hns, this] at hi
    exact ⟨hk1 _ hi, fun hf => hfree ▸ hk2 hf⟩
  | none =>
    rw [hi] at hk2
    rw [prependPrepare, hi] at hp
    dsimp only at hp hk2
    rw [getFreeNode] at hp
    cases hfree : mb.free with
    | nil => simp [hfree] at hp
    | cons b bs =>
      rw [hfree] at hp hk2
      obtain ⟨rfl, rfl⟩ := Prod.mk.inj (Option.some.inj hp)
      have h1 : ((Node.fresh b).prepend f s).1 = (f.run s b.data).1 := by
        rw [← Node.fresh_prependChunk b]
        rfl
      have h2 : ((Node.fresh b).prepend f s).2.2 = (f.run s b.data).2.2 := by
        rw [← Node.fresh_prependChunk b]
        rfl
      rw [Node.fresh_prependSpace, h1, h2]
      exact ⟨fun _ => hk2.1, hk2.2⟩

theorem Sane.keenOn_next (h : mb.Sane) (hk : KeenOn f s mb) (hp : mb.prependPrepare = some (t, mb1))
    (hsp : 0 < t.prependSpace) (hfill : (t.prepend f s).2.2 = t.prependSpace) :
    KeenOn f (t.prepend f s).1
      (mb1.prependFinalize (t.prepend f s).2.1 (t.prepend f s).2.2) := by
  rw [KeenOn, KeenInline, h.filled hp f s hsp hfill]
  exact ⟨by simp, (keenOn_round hk hp).2 hfill⟩

/-- The rule for `prepend` with a keen callback. -/
theorem Sane.prependLoop {R : List UInt8 → σ → Prop}
    (hstep : ∀ out s (t : Node), R out s → R (t.prepended f s ++ out) (t.prepend f s).1) (n : Nat)
    {out : List UInt8} (h : mb.Sane) (hkeen : KeenOn f s mb) (hR : R out s) :
    ∃ out', Stays mb (prependLoop f n s mb).2 ∧
      (prependLoop f n s mb).2.bytes = out' ++ mb.bytes ∧
      R (out' ++ out) (prependLoop f n s mb).1 ∧ prependAsserts f n s mb := by
  induction n generalizing mb s out with
  | zero => exact ⟨[], h.stays, rfl, hR, trivial⟩
  | succ n ih =>
    have hhead : ∀ t ∈ mb.nodes.head?, t.len = 0 → t.off = 0 := by
      intro t ht
      exact h.empty t (mem_of_mem_head? ht)
    rw [Mbuff.prependLoop, prependAsserts]
    cases hp : mb.prependPrepare with
    | none => exact ⟨[], h.stays, rfl, hR, hhead, trivial⟩
    | some r =>
      obtain ⟨t, mb1⟩ := r
      obtain ⟨hsp, hround, hbytes⟩ := h.prepend_round hp f s (keenOn_round hkeen hp).1
      have hle := t.prepend_count_le_space f s
      have hR' := hstep out s t hR
      dsimp only
      by_cases hstop : (t.prepend f s).2.2 = 0 ∨ (t.prepend f s).2.2 < t.prependSpace
      · rw [if_pos hstop]
        exact ⟨_, hround, hbytes, hR', hhead, h.legit.freeCounted, hsp, fun hf => by omega⟩
      · rw [if_neg hstop]
        obtain ⟨out', hs, hb, hr, ha⟩ := ih hround.sane (h.keenOn_next hkeen hp hsp (by omega)) hR'
        refine ⟨out' ++ t.prepended f s, hround.trans hs, ?_, ?_, hhead, h.legit.freeCounted, hsp,
          fun _ => ha⟩
        · rw [hb, hbytes, append_assoc]
        · rw [append_assoc]
          exact hr

theorem Sane.prependInline {R : List UInt8 → σ → Prop}
    (hstep : ∀ out s (t : Node), R out s → R (t.prepended f s ++ out) (t.prepend f s).1)
    {out : List UInt8} (h : mb.Sane) (hkeen : KeenInline f s mb) (hR : R out s) :
    ∃ out', Stays mb (mb.prependInline f s).2 ∧
      (mb.prependInline f s).2.bytes = out' ++ mb.bytes ∧
      R (out' ++ out) (mb.prependInline f s).1 := by
  rw [Mbuff.prependInline]
  cases hp : mb.prependPrepareInline with
  | none => exact ⟨[], h.stays, rfl, hR⟩
  | some r =>
    obtain ⟨t, mb1⟩ := r
    have hp' : mb.prependPrepare = some (t, mb1) := by rw [prependPrepare, hp]
    obtain ⟨-, hround, hbytes⟩ := h.prepend_round hp' f s (hkeen _ hp)
    exact ⟨_, hround, hbytes, hstep out s t hR⟩

/-! ## Re-slicing -/

/-- The assertions of `reslice`: there is a head if it goes on to one, and the lengths of
the nodes add up afterwards. -/
def resliceAsserts (mb : Mbuff) (len off : Nat) : Prop :=
  off + len ≤ mb.validSize → len ≠ 0 →
    mb.nodes ≠ [] ∧ ∀ mb' ∈ mb.reslice len off, (mb'.nodes.map Node.len).sum = mb'.validSize

theorem dropFront_buffs (ns : List Node) (off : Nat) :
    ns.map Node.buff = (dropFront ns off).2.map Node.buff ++
      (dropFront ns off).1.map Node.buff := by
  fun_induction dropFront ns off with
  | case4 off n ns _ _ ih => rw [map_cons, ih]; rfl
  | _ => rfl

theorem truncateAt_buffs (ns : List Node) (len : Nat) :
    ns.map Node.buff = (truncateAt ns len).1.map Node.buff ++
      (truncateAt ns len).2.map Node.buff := by
  fun_induction truncateAt ns len with
  | case3 len n ns _ ih => rw [map_cons, ih]; rfl
  | _ => rfl

theorem mem_dropFront {ns : List Node} {off : Nat} {n : Node} (h : n ∈ (dropFront ns off).1) :
    n ∈ ns ∨ 0 < n.len := by
  fun_induction dropFront ns off with
  | case1 | case2 => exact .inl h
  | case3 m ns off _ hlt =>
    rcases mem_cons.mp h with rfl | h
    · refine .inr ?_
      change 0 < m.len - off
      omega
    · exact .inl (mem_cons_of_mem _ h)
  | case4 m ns off _ _ ih => exact (ih h).imp_left (mem_cons_of_mem _)

theorem Sane.reslice_some (h : mb.Sane) {len off : Nat} (hle : off + len ≤ mb.validSize) :
    ∃ mb', mb.reslice len off = some mb' ∧ Stays mb mb' ∧
      mb'.bytes = (mb.bytes.drop off).take len := by
  rcases Nat.eq_zero_or_pos len with rfl | h0
  · rw [reslice_nothing (by omega)]
    have heq : mb.resliceZero = { mb with nodes := [], validSize := 0 }.putFreeNodes mb.nodes := by
      rw [resliceZero, Mbuff.reslice, if_neg (by omega), if_pos rfl]
      rfl
    refine ⟨_, rfl, ⟨⟨⟨?_, ?_, ?_, ?_⟩, ?_, ?_⟩, ?_⟩, ?_⟩ <;> rw [heq, putFreeNodes_eq]
    · simp
    · simp
    · rfl
    · have := h.legit.free
      simp only [map_append, map_reverse, map_map, sum_append,
        sum_reverse]
      rw [this, Nat.add_comm]
      rfl
    · intro l hl
      refine h.pos l ?_
      simp only [layout, map_nil, nil_append, map_append, map_reverse,
        map_map, mem_append, mem_reverse] at hl ⊢
      exact hl
    · simp
    · simp only [Mbuff.ptrs, map_nil, nil_append, map_append, map_reverse,
        map_map]
      exact (reverse_perm _).append_right _
    · rw [take_zero]
      rfl
  · obtain ⟨mb', hre, hleg, hbytes, hperm⟩ := h.legit.reslice_spec h0 hle
    refine ⟨mb', hre, ⟨⟨hleg, fun l hl => h.pos l (hperm.subset hl), ?_⟩, ?_⟩, hbytes⟩
    all_goals
      have hne : mb.nodes ≠ [] := by
        intro hn
        have := h.legit.valid
        rw [hn, map_nil, sum_nil] at this
        omega
      rw [Mbuff.reslice, if_neg (by omega), if_neg (by omega), if_neg hne] at hre
      obtain rfl := Option.some.inj hre
      rw [putFreeNodes_eq]
    · -- what is kept of the nodes is as it was, or holds bytes
      intro n hn hlen
      have hsum : len ≤ ((dropFront mb.nodes off).1.map Node.len).sum := by
        obtain ⟨-, hd, -⟩ := dropFront_spec h.legit.chain
          (show off < (mb.nodes.map Node.len).sum by rw [← h.legit.valid]; omega)
        have := congrArg List.length hd
        rw [length_flatMap_validData, length_drop, length_flatMap_validData,
          ← h.legit.valid] at this
        omega
      obtain ⟨init, t, back, l, hl, hns, htr, hl0, -⟩ := truncateAt_spec h0 hsum
      dsimp only at hn
      rw [htr] at hn
      rcases mem_append.mp hn with hn | hn
      · have hmem : n ∈ (dropFront mb.nodes off).1 := by
          rw [hns]
          exact mem_append_left _ hn
        rcases mem_dropFront hmem with hm | hm
        · exact h.empty n hm hlen
        · omega
      · obtain rfl := mem_singleton.mp hn
        exact absurd hlen (by simp only [Node.truncate]; omega)
    · have hb := (dropFront_buffs mb.nodes off).trans
        (congrArg _ (truncateAt_buffs (dropFront mb.nodes off).1 len))
      have hp := congrArg (List.map Buff.ptr) hb
      simp only [map_append, map_map, Function.comp_def] at hp
      simp only [Mbuff.ptrs, map_append, map_reverse, map_map, Function.comp_def]
      rw [hp, ← Multiset.coe_eq_coe]
      simp only [← Multiset.coe_add, Multiset.coe_reverse]
      abel

theorem Sane.reslice (h : mb.Sane) (len off : Nat) :
    Stays mb ((mb.reslice len off).getD mb) ∧ mb.resliceAsserts len off := by
  by_cases hle : off + len ≤ mb.validSize
  · obtain ⟨mb', hre, hs, -⟩ := h.reslice_some hle
    refine ⟨by rw [hre]; exact hs, fun _ h0 => ⟨fun hn => ?_, fun mb'' hm => ?_⟩⟩
    · have := h.legit.valid
      rw [hn, map_nil, sum_nil] at this
      omega
    · rw [hre] at hm
      obtain rfl := Option.some.inj hm
      exact hs.sane.legit.valid.symm
  · rw [Mbuff.reslice, if_pos (by omega)]
    exact ⟨h.stays, fun hc => absurd hc hle⟩

/-! ## Free buffers -/

theorem Sane.addBuff (h : mb.Sane) {b : Buff} (hb : 0 < b.data.length) :
    (mb.addBuff b).Sane ∧ (mb.addBuff b).ptrs.Perm (b.ptr :: mb.ptrs) := by
  refine ⟨⟨h.legit.addBuff b, ?_, h.empty⟩, ?_⟩
  · intro l hl
    rw [addBuff_layout] at hl
    rcases mem_append.mp hl with hl | hl
    · exact h.pos l (mem_append_left _ hl)
    · rcases mem_cons.mp hl with rfl | hl
      · exact hb
      · exact h.pos l (mem_append_right _ hl)
  · exact perm_middle

/-- `get_free_buff`. -/
def getFreeBuff (mb : Mbuff) : Option Buff × Mbuff :=
  match mb.getFreeNode with
  | none => (none, mb)
  | some (n, mb') => (some n.buff, mb')

theorem Sane.getFreeBuff {mb' : Mbuff} {b : Buff} (h : mb.Sane)
    (hb : mb.getFreeBuff = (some b, mb')) :
    mb'.Sane ∧ mb'.nodes = mb.nodes ∧ mb.ptrs.Perm (b.ptr :: mb'.ptrs) ∧ 0 < b.data.length ∧
      mb.free = b :: mb'.free ∧
        mb' = { mb with free := mb'.free, freeSize := mb.freeSize - b.data.length } := by
  rw [Mbuff.getFreeBuff, getFreeNode] at hb
  cases hf : mb.free with
  | nil => simp [hf] at hb
  | cons b' rest =>
    simp only [hf, Prod.mk.injEq, Option.some.injEq] at hb
    obtain ⟨rfl, rfl⟩ := hb
    have hfree := h.legit.free
    rw [hf, map_cons, sum_cons] at hfree
    refine ⟨⟨⟨h.legit.off, h.legit.full, h.legit.valid, ?_⟩, ?_, h.empty⟩, rfl, ?_, ?_, rfl, rfl⟩
    · change mb.freeSize - b'.data.length = (rest.map fun b => b.data.length).sum
      omega
    · intro l hl
      refine h.pos l ?_
      simp only [layout, hf, map_cons, mem_append, mem_cons] at hl ⊢
      rcases hl with hl | hl
      · exact .inl hl
      · exact .inr (.inr hl)
    · simp only [Mbuff.ptrs, hf, map_cons, Node.fresh]
      exact perm_middle
    · exact h.pos _ (by simp [layout, hf, Node.fresh])

/-- `move_free_buffs_to` leaves both sane, with their valid bytes, and loses no buffer. -/
theorem moveLoop_sane (maxSize : Nat) (bs : List Buff) (moved : Nat) {src dst : Mbuff}
    (hfree : src.free = bs) (hs : src.Sane) (hd : dst.Sane) :
    (moveLoop maxSize bs moved (src, dst)).1.Sane ∧ (moveLoop maxSize bs moved (src, dst)).2.Sane ∧
      (moveLoop maxSize bs moved (src, dst)).1.bytes = src.bytes ∧
      (moveLoop maxSize bs moved (src, dst)).2.bytes = dst.bytes ∧
      ((moveLoop maxSize bs moved (src, dst)).1.ptrs ++
        (moveLoop maxSize bs moved (src, dst)).2.ptrs).Perm (src.ptrs ++ dst.ptrs) := by
  induction bs generalizing moved src dst with
  | nil => exact ⟨hs, hd, rfl, rfl, .refl _⟩
  | cons b bs ih =>
    have hget : src.getFreeBuff =
        (some b, { src with free := bs, freeSize := src.freeSize - b.data.length }) := by
      rw [Mbuff.getFreeBuff, getFreeNode, hfree]
      rfl
    obtain ⟨hs', -, hp, hpos, -, -⟩ := hs.getFreeBuff hget
    obtain ⟨hd', hpd⟩ := hd.addBuff hpos
    have hperm : ({ src with free := bs, freeSize := src.freeSize - b.data.length }.ptrs ++
        (dst.addBuff b).ptrs).Perm (src.ptrs ++ dst.ptrs) :=
      (hpd.append_left _).trans (perm_middle.trans (hp.symm.append_right _))
    rw [moveLoop]
    split
    · obtain ⟨h1, h2, h3, h4, h5⟩ := ih (moved + b.data.length) rfl hs' hd'
      exact ⟨h1, h2, h3, h4, h5.trans hperm⟩
    · exact ⟨hs', hd', rfl, rfl, hperm⟩

end UDepot.Mbuff
