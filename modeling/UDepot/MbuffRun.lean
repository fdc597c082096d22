import UDepot.MbuffSane
import Mathlib.Algebra.BigOperators.Group.Finset.Basic

/-! Any number of `Mbuff`s under any sequence of their operations. Each is a byte sequence
with a pool of free buffers, and every buffer that was added is in one of them or has been
handed back. -/

namespace UDepot
open Function List

/-- A callback that also notes which bytes it has taken of each chunk. -/
def AppendFn.noting {σ : Type} (f : AppendFn σ) (part : List UInt8 → Nat → List UInt8) :
    AppendFn (σ × List (List UInt8)) where
  run s chunk :=
    let r := f.run s.1 chunk
    ((r.1, s.2 ++ [part r.2.1 r.2.2]), r.2.1, r.2.2)
  run_length s chunk := f.run_length s.1 chunk
  run_le s chunk := f.run_le s.1 chunk

namespace Mbuff

/-- The part of a chunk that `append` makes valid, and the part that `prepend` does. -/
def frontPart (chunk : List UInt8) (n : Nat) : List UInt8 := chunk.take n
def backPart (chunk : List UInt8) (n : Nat) : List UInt8 := chunk.drop (chunk.length - n)

/-- `prepend_from_mbuff`: only the first chunk of the source is copied. -/
def prependFromMbuff (mb src : Mbuff) (off len : Nat) : Nat × Mbuff :=
  match src.iterateValid off len with
  | none | some [] => (0, mb)
  | some (c :: _) =>
    let r := mb.prependFromBuffer c
    (c.length - r.1.length, r.2)

/-- `reset`: the buffers go to the function it is given. `mb_valid_size_` stays. -/
def reset (mb : Mbuff) : List Buff × Mbuff :=
  (mb.nodes.map Node.buff ++ mb.free, { mb with nodes := [], free := [], freeSize := 0 })

/-! ## The system -/

/-- A user's callback with the variables it captures. -/
structure Callback : Type 1 where
  σ : Type
  fn : AppendFn σ
  init : σ

/-- The operations. Where two Mbuffs take part they are different ones. -/
inductive Op (ι : Type) : Type 1 where
  | addBuff (i : ι) (b : Buff)
  | append (i : ι) (cb : Callback)
  | appendInline (i : ι) (cb : Callback)
  | prepend (i : ι) (cb : Callback)
  | prependInline (i : ι) (cb : Callback)
  | reslice (i : ι) (len off : Nat)
  | moveFreeBuffsTo (i j : ι) (hij : i ≠ j) (maxSize : Nat)
  | getFreeBuff (i : ι)
  | copyToBuffer (i : ι) (off len : Nat)
  | appendFromMbuff (i j : ι) (hij : i ≠ j) (off len : Nat)
  | prependFromMbuff (i j : ι) (hij : i ≠ j) (off len : Nat)
  | fillIovecAppend (i : ι) (len iovLen : Nat)
  | fillIovecValid (i : ι) (off len iovSize : Nat)
  | reset (i : ι)

/-- What an operation gives back: what its callback took, in the order of the calls; bytes
it has copied; a number of bytes; the chunks of an iovec. -/
inductive Out where
  | done
  | taken (parts : List (List UInt8))
  | ret (ok : Bool)
  | bytes (bs : List UInt8)
  | count (n : Nat)
  | chunks (cs : Option (List (List UInt8)))

/-- The Mbuffs, with the addresses of all buffers that were added and of those that were
handed back. -/
structure Sys (ι : Type) where
  mbs : ι → Mbuff
  added : List Nat
  handed : List Nat

variable {ι : Type} [DecidableEq ι]

namespace Sys

def init : Sys ι := ⟨fun _ => .empty, [], []⟩

def set (s : Sys ι) (i : ι) (mb : Mbuff) : Sys ι := { s with mbs := update s.mbs i mb }

def step (s : Sys ι) : Op ι → Sys ι × Out
  | .addBuff i b => ({ s.set i ((s.mbs i).addBuff b) with added := b.ptr :: s.added }, .done)
  | .append i cb =>
    let r := (s.mbs i).append (cb.fn.noting frontPart) (cb.init, [])
    (s.set i r.2, .taken r.1.2)
  | .appendInline i cb =>
    let r := (s.mbs i).appendInline (cb.fn.noting frontPart) (cb.init, [])
    (s.set i r.2, .taken r.1.2)
  | .prepend i cb =>
    let r := (s.mbs i).prepend (cb.fn.noting backPart) (cb.init, [])
    (s.set i r.2, .taken r.1.2)
  | .prependInline i cb =>
    let r := (s.mbs i).prependInline (cb.fn.noting backPart) (cb.init, [])
    (s.set i r.2, .taken r.1.2)
  | .reslice i len off =>
    (s.set i (((s.mbs i).reslice len off).getD (s.mbs i)),
      .ret ((s.mbs i).reslice len off).isSome)
  | .moveFreeBuffsTo i j _ maxSize =>
    let r := (s.mbs i).moveFreeBuffsTo (s.mbs j) maxSize
    ((s.set i r.1).set j r.2, .done)
  | .getFreeBuff i =>
    match (s.mbs i).getFreeBuff with
    | (none, _) => (s, .done)
    | (some b, mb) => ({ s.set i mb with handed := b.ptr :: s.handed }, .done)
  | .copyToBuffer i off len => (s, .bytes ((s.mbs i).copyToBuffer off len))
  | .appendFromMbuff i j _ off len =>
    let r := (s.mbs i).appendFromMbuff (s.mbs j) off len
    (s.set i r.2, .count r.1)
  | .prependFromMbuff i j _ off len =>
    let r := (s.mbs i).prependFromMbuff (s.mbs j) off len
    (s.set i r.2, .count r.1)
  | .fillIovecAppend i len iovLen =>
    let r := (s.mbs i).fillIovecAppend len iovLen
    (s.set i r.2, .count r.1.2)
  | .fillIovecValid i off len iovSize => (s, .chunks ((s.mbs i).fillIovecValid off len iovSize))
  | .reset i =>
    let r := (s.mbs i).reset
    ({ s.set i r.2 with handed := r.1.map Buff.ptr ++ s.handed }, .done)

end Sys

/-! ## Assertions -/

def iterAsserts (mb : Mbuff) (off len : Nat) : Prop :=
  len ≠ 0 → off + len ≤ mb.validSize → chunksFrom mb.nodes off len ≠ []

/-- Of `append_from_buffer` for each chunk of a source. -/
def copyAsserts : List (List UInt8) → Mbuff → Prop
  | [], _ => True
  | c :: cs, mb =>
    appendAsserts copyFn (mb.free.length + 1) c mb ∧ copyAsserts cs (mb.appendFromBuffer c).2

def moveAsserts (maxSize : Nat) : List Buff → Nat → Nat → Prop
  | [], _, _ => True
  | b :: bs, moved, freeSize =>
    b.data.length ≤ freeSize ∧ (moved + b.data.length < maxSize →
      moveAsserts maxSize bs (moved + b.data.length) (freeSize - b.data.length))

/-- The assertions that an operation comes to hold. -/
def Sys.Asserts (s : Sys ι) : Op ι → Prop
  | .addBuff _ _ | .appendInline _ _ | .reset _ => True
  | .append i cb =>
    appendAsserts (cb.fn.noting frontPart) ((s.mbs i).free.length + 1) (cb.init, []) (s.mbs i)
  | .prepend i cb =>
    prependAsserts (cb.fn.noting backPart) ((s.mbs i).free.length + 1) (cb.init, []) (s.mbs i)
  | .prependInline i _ => ∀ h ∈ (s.mbs i).nodes.head?, h.len = 0 → h.off = 0
  | .reslice i len off => (s.mbs i).resliceAsserts len off
  | .moveFreeBuffsTo i _ _ maxSize => moveAsserts maxSize (s.mbs i).free 0 (s.mbs i).freeSize
  | .getFreeBuff i => (s.mbs i).FreeCounted
  | .copyToBuffer i off len =>
    off ≤ (s.mbs i).validSize →
      (s.mbs i).iterAsserts off (min len ((s.mbs i).validSize - off)) ∧
        ((s.mbs i).copyToBuffer off len).length = min len ((s.mbs i).validSize - off)
  | .appendFromMbuff i j _ off len =>
    (s.mbs j).iterAsserts off len ∧
      ∀ cs ∈ (s.mbs j).iterateValid off len, copyAsserts cs (s.mbs i) ∧
        ((s.mbs i).appendFromMbuff (s.mbs j) off len).1 = len
  | .prependFromMbuff i j _ off len =>
    (s.mbs j).iterAsserts off len ∧
      ∀ cs ∈ (s.mbs j).iterateValid off len,
        (∀ c ∈ cs.head?, prependAsserts prependCopyFn ((s.mbs i).free.length + 1) c (s.mbs i)) ∧
          ((s.mbs i).prependFromMbuff (s.mbs j) off len).1 = len
  | .fillIovecAppend i len iovLen =>
    appendAsserts iovFn ((s.mbs i).free.length + 1) ⟨len, iovLen⟩ (s.mbs i)
  | .fillIovecValid i off len _ => (s.mbs i).iterAsserts off len

/-! ## The specification -/

/-- What an operation does to byte sequences, with what it gives back. -/
def Spec (m : ι → List UInt8) : Op ι → Out → (ι → List UInt8) → Prop
  | .append i _, .taken parts, m' | .appendInline i _, .taken parts, m' =>
    m' = update m i (m i ++ parts.flatten)
  | .prepend i _, .taken parts, m' | .prependInline i _, .taken parts, m' =>
    m' = update m i (parts.reverse.flatten ++ m i)
  | .reslice i len off, .ret ok, m' =>
    if off + len ≤ (m i).length then
      ok = true ∧ m' = update m i (((m i).drop off).take len)
    else ok = false ∧ m' = m
  | .copyToBuffer i off len, .bytes bs, m' => bs = ((m i).drop off).take len ∧ m' = m
  | .appendFromMbuff i j _ off len, .count n, m' =>
    if off + len ≤ (m j).length then
      n = len ∧ m' = update m i (m i ++ ((m j).drop off).take len)
    else n = 0 ∧ m' = m
  | .prependFromMbuff i j _ off len, .count n, m' =>
    if off + len ≤ (m j).length then
      n = len ∧ m' = update m i (((m j).drop off).take len ++ m i)
    else n = 0 ∧ m' = m
  | .fillIovecAppend i len _, .count n, m' =>
    n ≤ len ∧ ∃ bs, bs.length = n ∧ m' = update m i (m i ++ bs)
  | .fillIovecValid i off len iovSize, .chunks cs, m' =>
    m' = m ∧
      if off + len ≤ (m i).length ∨ len = 0 then
        ∃ all : List (List UInt8), all.flatten = ((m i).drop off).take len ∧
          cs = some (all.take iovSize)
      else cs = none
  | .reset i, .done, m' => m' = update m i []
  | .addBuff _ _, .done, m' | .moveFreeBuffsTo _ _ _ _, .done, m' | .getFreeBuff _, .done, m' =>
    m' = m
  | _, _, _ => False

/-! ## When it holds -/

/-- The space that `prepend` can use. -/
def prependRoom (mb : Mbuff) : Nat :=
  mb.freeSize + (mb.nodes.head?.map Node.prependSpace).getD 0

/-- A buffer that is added is not empty and in none of the Mbuffs. A callback of a prepend
takes at least one byte of every buffer without valid bytes. What is copied from another
Mbuff has room, to be prepended it is one chunk, and it does not end with a buffer that is
filled while there is another free one. An Mbuff without valid bytes is reset. Sums of
offset and length are below `2 ^ 64`. -/
def Sys.Fine (s : Sys ι) : Op ι → Prop
  | .addBuff _ b => 0 < b.data.length ∧ ∀ j, b.ptr ∉ (s.mbs j).ptrs
  | .prepend i cb => KeenOn cb.fn cb.init (s.mbs i)
  | .prependInline i cb => KeenInline cb.fn cb.init (s.mbs i)
  | .reslice _ len off => off + len < 2 ^ 64
  | .appendFromMbuff i j _ off len =>
    off + len < 2 ^ 64 ∧
      (off + len ≤ (s.mbs j).validSize → len ≤ (s.mbs i).appendAvailSize)
  | .prependFromMbuff i j _ off len =>
    off + len < 2 ^ 64 ∧
      (0 < len → off + len ≤ (s.mbs j).validSize →
        (s.mbs j).getValidNchunks off len = some 1 ∧ len ≤ (s.mbs i).prependRoom ∧
          KeenOn prependCopyFn ((s.mbs j).copyToBuffer off len) (s.mbs i))
  | .fillIovecValid _ off len _ => off + len < 2 ^ 64
  | .reset i => (s.mbs i).validSize = 0
  | .append _ _ | .appendInline _ _ | .moveFreeBuffsTo _ _ _ _ | .getFreeBuff _
  | .copyToBuffer _ _ _ | .fillIovecAppend _ _ _ => True

/-! ## Single operations -/

section

variable {σ : Type} {f : AppendFn σ}

theorem keen_noting {part : List UInt8 → Nat → List UInt8} {bs : List Buff} {s : σ}
    (h : Keen f s bs) (tr : List (List UInt8)) : Keen (f.noting part) (s, tr) bs := by
  induction bs generalizing s tr with
  | nil => trivial
  | cons b bs ih => exact ⟨h.1, fun hfill => ih (h.2 hfill) _⟩

theorem keenOn_noting {part : List UInt8 → Nat → List UInt8} {mb : Mbuff} {s : σ}
    (h : KeenOn f s mb) (tr : List (List UInt8)) : KeenOn (f.noting part) (s, tr) mb := by
  obtain ⟨h1, h2⟩ := h
  refine ⟨h1, ?_⟩
  cases hi : mb.prependPrepareInline with
  | none =>
    rw [hi] at h2
    exact keen_noting h2 tr
  | some r =>
    rw [hi] at h2
    exact fun hfill => keen_noting (h2 hfill) _

theorem noting_appended (out : List UInt8) (s : σ × List (List UInt8)) (t : Node)
    (h : out = s.2.flatten) :
    out ++ t.appended (f.noting frontPart) s = (t.append (f.noting frontPart) s).1.2.flatten := by
  change _ = (s.2 ++ [frontPart _ _]).flatten
  rw [flatten_append, flatten_singleton, h]
  rfl

theorem noting_prepended (out : List UInt8) (s : σ × List (List UInt8)) (t : Node)
    (h : out = s.2.reverse.flatten) :
    t.prepended (f.noting backPart) s ++ out =
      (t.prepend (f.noting backPart) s).1.2.reverse.flatten := by
  have hlen : (f.run s.1 t.prependChunk).2.1.length = t.prependSpace := by
    rw [f.run_length, t.prependChunk_length]
  change _ = (s.2 ++ [backPart (f.run s.1 t.prependChunk).2.1
    (f.run s.1 t.prependChunk).2.2]).reverse.flatten
  rw [reverse_append, reverse_singleton, singleton_append, flatten_cons, h,
    backPart, hlen]
  rfl

variable {mb : Mbuff} (h : mb.Sane) (s : σ)
include h

theorem Sane.append_noting :
    (mb.append (f.noting frontPart) (s, [])).2.bytes =
      mb.bytes ++ (mb.append (f.noting frontPart) (s, [])).1.2.flatten := by
  obtain ⟨out, hext, hR⟩ := appendLoop_extends (R := fun out s => out = s.2.flatten)
    (fun out s t => noting_appended (f := f) out s t) (mb.free.length + 1) (s := (s, [])) rfl
    (Extends.refl h.legit)
  rw [hR] at hext
  exact hext.bytes

theorem Sane.appendInline_noting :
    (mb.appendInline (f.noting frontPart) (s, [])).2.bytes =
      mb.bytes ++ (mb.appendInline (f.noting frontPart) (s, [])).1.2.flatten := by
  rw [Mbuff.appendInline]
  split
  · simp
  · rename_i t mb1 hp
    have hext := h.legit.extends_inline hp (f.noting frontPart) (s, [])
    rw [hext.bytes, ← noting_appended [] (s, []) t rfl, nil_append]

theorem Sane.prepend_noting (hk : KeenOn f s mb) :
    Stays mb (mb.prepend (f.noting backPart) (s, [])).2 ∧
      (mb.prepend (f.noting backPart) (s, [])).2.bytes =
        (mb.prepend (f.noting backPart) (s, [])).1.2.reverse.flatten ++ mb.bytes ∧
      prependAsserts (f.noting backPart) (mb.free.length + 1) (s, []) mb := by
  obtain ⟨out, hs, hb, hR, ha⟩ := h.prependLoop (R := fun out s => out = s.2.reverse.flatten)
    (fun out s t => noting_prepended (f := f) out s t) (mb.free.length + 1) (keenOn_noting hk [])
    (rfl : [] = ([] : List (List UInt8)).reverse.flatten)
  rw [append_nil] at hR
  rw [hR] at hb
  exact ⟨hs, hb, ha⟩

theorem Sane.prependInline_noting (hk : KeenInline f s mb) :
    Stays mb (mb.prependInline (f.noting backPart) (s, [])).2 ∧
      (mb.prependInline (f.noting backPart) (s, [])).2.bytes =
        (mb.prependInline (f.noting backPart) (s, [])).1.2.reverse.flatten ++ mb.bytes := by
  have hk' : KeenInline (f.noting backPart) (s, []) mb := hk
  obtain ⟨out, hs, hb, hR⟩ := h.prependInline (R := fun out s => out = s.2.reverse.flatten)
    (fun out s t => noting_prepended (f := f) out s t) hk'
    (rfl : [] = ([] : List (List UInt8)).reverse.flatten)
  rw [append_nil] at hR
  rw [hR] at hb
  exact ⟨hs, hb⟩

end

variable {mb : Mbuff}

theorem Legit.iterAsserts (h : mb.Legit) (off len : Nat) : mb.iterAsserts off len := by
  intro h0 hle hnil
  have hflat := chunksFrom_flatten mb.nodes off len
  rw [hnil] at hflat
  have hlen := congrArg List.length hflat
  change 0 = ((mb.bytes.drop off).take len).length at hlen
  rw [length_take, length_drop, ← h.validSize_eq] at hlen
  omega

theorem Sane.copyChunks (h : mb.Sane) (cs : List (List UInt8)) (n : Nat) :
    Stays mb (cs.foldl copyChunk (n, mb)).2 ∧ copyAsserts cs mb := by
  induction cs generalizing mb n with
  | nil => exact ⟨h.stays, trivial⟩
  | cons c cs ih =>
    obtain ⟨hs, ha⟩ := h.appendLoop copyFn (mb.free.length + 1) c
    obtain ⟨hs', ha'⟩ := @ih (mb.appendFromBuffer c).2 hs.sane _
    exact ⟨hs.trans hs', ha, ha'⟩

theorem Sane.moveAsserts (h : mb.Sane) (maxSize moved : Nat) :
    Mbuff.moveAsserts maxSize mb.free moved mb.freeSize := by
  have hfree := h.legit.free
  clear h
  generalize mb.free = bs at *
  generalize mb.freeSize = n at *
  induction bs generalizing moved n with
  | nil => trivial
  | cons b bs ih =>
    rw [map_cons, sum_cons] at hfree
    exact ⟨by omega, fun _ => ih _ _ (by omega)⟩

theorem Sane.reset (h0 : mb.validSize = 0) : mb.reset.2.Sane :=
  ⟨⟨by simp [Mbuff.reset], by simp [Mbuff.reset], by simp [Mbuff.reset, h0],
    by simp [Mbuff.reset]⟩, by simp [Mbuff.reset, layout], by simp [Mbuff.reset]⟩

/-! ## Prepending from another Mbuff -/

theorem prependPrepareInline_none (h : mb.prependPrepareInline = none) :
    (mb.nodes.head?.map Node.prependSpace).getD 0 = 0 := by
  rw [prependPrepareInline] at h
  cases hn : mb.nodes with
  | nil => rfl
  | cons m rest =>
    rw [hn] at h
    by_cases hsp : 0 < m.prependSpace
    · simp [hsp] at h
    · simp only [List.head?_cons, Option.map_some, Option.getD_some]
      omega

theorem prependPrepare_none (hl : mb.Legit) (h : mb.prependPrepare = none) :
    mb.prependRoom = 0 := by
  have hi : mb.prependPrepareInline = none := by
    cases hi : mb.prependPrepareInline with
    | none => rfl
    | some r => simp [prependPrepare, hi] at h
  have hfree : mb.free = [] := by
    cases hfree : mb.free with
    | nil => rfl
    | cons b free => simp [prependPrepare, hi, getFreeNode, hfree] at h
  rw [prependRoom, prependPrepareInline_none hi, hl.free, hfree]
  rfl

theorem Sane.prependRoom_round {σ : Type} {mb mb1 : Mbuff} {t : Node} (h : mb.Sane)
    (hp : mb.prependPrepare = some (t, mb1)) (f : AppendFn σ) (s : σ)
    (hcnt : t.len = 0 → 0 < (t.prepend f s).2.2) :
    (mb1.prependFinalize (t.prepend f s).2.1 (t.prepend f s).2.2).prependRoom +
      (t.prepend f s).2.2 = mb.prependRoom := by
  have hle := t.prepend_count_le_space f s
  have hempty := h.prepare_empty hp
  have hspace : (t.prepend f s).2.1.prependSpace + (t.prepend f s).2.2 = t.prependSpace := by
    unfold Node.prependSpace at hle ⊢
    rw [Node.prepend_len, Node.prepend_off_eq]
    grind
  rw [prependRoom, prependRoom, prependFinalize]
  simp only [List.head?_cons, Option.map_some, Option.getD_some]
  rcases prependPrepare_cases hp with ⟨hn, -, he⟩ | ⟨b, hz, hf, rfl, he⟩
  · rw [he, hn]
    simp only [List.head?_cons, Option.map_some, Option.getD_some]
    omega
  · have hfree := h.legit.freeCounted b (by rw [hf]; rfl)
    have hhead : (mb.nodes.head?.map Node.prependSpace).getD 0 = 0 := by
      cases hn : mb.nodes with
      | nil => rfl
      | cons m rest => exact hz m (by rw [hn]; rfl)
    rw [Node.fresh_prependSpace] at hspace
    rw [he, hhead]
    dsimp only
    omega

/-- The rounds that `prepend` can still have. -/
def prependRounds (mb : Mbuff) : Nat :=
  mb.free.length + if mb.prependPrepareInline.isSome then 1 else 0

theorem Sane.prependCopy_all {n : Nat} {src : List UInt8} (h : mb.Sane)
    (hk : KeenOn prependCopyFn src mb) (hroom : src.length ≤ mb.prependRoom)
    (hn : mb.prependRounds ≤ n) : (Mbuff.prependLoop prependCopyFn n src mb).1 = [] := by
  have hdone : ∀ {src : List UInt8} {mb : Mbuff}, mb.Sane → mb.prependPrepare = none →
      src.length ≤ mb.prependRoom → src = [] := by
    intro src mb h hp hroom
    rw [prependPrepare_none h.legit hp] at hroom
    exact eq_nil_of_length_eq_zero (Nat.le_zero.mp hroom)
  fun_induction Mbuff.prependLoop prependCopyFn n src mb with
  | case1 src mb =>
    refine hdone h ?_ hroom
    rw [prependRounds] at hn
    split at hn
    · omega
    · rename_i hi
      have hfree : mb.free = [] := eq_nil_of_length_eq_zero (by omega)
      rw [prependPrepare, Option.not_isSome_iff_eq_none.mp hi, getFreeNode, hfree]
  | case2 n src mb hp => exact hdone h hp hroom
  | case3 n src mb t mb1 hp r mb2 hstop =>
    have hsp := (h.prepend_round hp prependCopyFn src (keenOn_round hk hp).1).1
    have hlen := t.prependChunk_length
    have hcnt : r.2.2 = min src.length t.prependChunk.length := rfl
    refine eq_nil_of_length_eq_zero ?_
    change (src.take (src.length - t.prependChunk.length)).length = 0
    rw [length_take]
    omega
  | case4 n src mb t mb1 hp r mb2 hgo ih =>
    have hk1 := (keenOn_round hk hp).1
    obtain ⟨hsp, hround, -⟩ := h.prepend_round hp prependCopyFn src hk1
    have hroom' := h.prependRoom_round hp prependCopyFn src hk1
    have hlen := t.prependChunk_length
    have hcnt : r.2.2 = min src.length t.prependChunk.length := rfl
    have hrest : r.1.length = src.length - t.prependChunk.length := by
      change (src.take (src.length - t.prependChunk.length)).length = _
      rw [length_take]
      omega
    have hfill : r.2.2 = t.prependSpace := by omega
    refine ih hround.sane (h.keenOn_next hk hp hsp hfill) ?_ ?_
    · change mb2.prependRoom + r.2.2 = mb.prependRoom at hroom'
      omega
    · have hnone : mb2.prependPrepareInline = none := h.filled hp prependCopyFn src hsp hfill
      have hfree : mb2.free = mb1.free := rfl
      rw [prependRounds] at hn ⊢
      simp only [hnone, hfree, Option.isSome_none, Bool.false_eq_true, if_false]
      rcases prependPrepare_cases hp with ⟨hns, hsp', he⟩ | ⟨b, -, hf, -, -⟩
      · have hsome : mb.prependPrepareInline.isSome := by simp [prependPrepareInline, hns, hsp']
        have hfree' : mb1.free = mb.free := by rw [he]
        rw [if_pos hsome] at hn
        rw [hfree']
        omega
      · rw [hf, length_cons] at hn
        omega

theorem prependRounds_le (mb : Mbuff) : mb.prependRounds ≤ mb.free.length + 1 := by
  rw [prependRounds]
  split <;> omega

theorem Sane.prependFromBuffer {src : List UInt8} (h : mb.Sane)
    (hk : KeenOn prependCopyFn src mb) (hroom : src.length ≤ mb.prependRoom) :
    Stays mb (mb.prependFromBuffer src).2 ∧ (mb.prependFromBuffer src).1 = [] ∧
      (mb.prependFromBuffer src).2.bytes = src ++ mb.bytes ∧
      prependAsserts prependCopyFn (mb.free.length + 1) src mb := by
  have hstep : ∀ out (s : List UInt8) (t : Node), s ++ out = src →
      (t.prepend prependCopyFn s).1 ++ (t.prepended prependCopyFn s ++ out) = src := by
    intro out s t hs
    rw [← append_assoc, t.prepended_copy, hs]
  have hall := h.prependCopy_all hk hroom mb.prependRounds_le
  obtain ⟨out, hs, hb, hR, ha⟩ := h.prependLoop (R := fun out s => s ++ out = src) hstep
    (mb.free.length + 1) hk (append_nil src)
  rw [hall, nil_append, append_nil] at hR
  rw [hR] at hb
  exact ⟨hs, hall, hb, ha⟩

theorem prependFromMbuff_spec {mb src : Mbuff} {off len : Nat} (h : mb.Sane) (hs : src.Legit)
    (hle : off + len ≤ src.validSize) (h0 : 0 < len) (hone : src.getValidNchunks off len = some 1)
    (hroom : len ≤ mb.prependRoom) (hk : KeenOn prependCopyFn (src.copyToBuffer off len) mb) :
    ∃ c, src.iterateValid off len = some [c] ∧
      prependAsserts prependCopyFn (mb.free.length + 1) c mb ∧
      (mb.prependFromMbuff src off len).1 = len ∧ Stays mb (mb.prependFromMbuff src off len).2 ∧
      (mb.prependFromMbuff src off len).2.bytes = (src.bytes.drop off).take len ++ mb.bytes := by
  obtain ⟨cs, hcs, hflat⟩ := iterateValid_some hle
  rw [getValidNchunks, hcs, Option.map_some, Option.some.injEq] at hone
  obtain ⟨c, rfl⟩ := length_eq_one_iff.mp hone
  rw [flatten_singleton] at hflat
  have hlen : c.length = len := by
    rw [hflat, length_take, length_drop, ← hs.validSize_eq]
    omega
  rw [copyToBuffer_eq hs, ← hflat] at hk
  obtain ⟨hst, hnil, hbytes, ha⟩ := h.prependFromBuffer hk (by omega)
  refine ⟨c, hcs, ha, ?_⟩
  rw [Mbuff.prependFromMbuff, hcs]
  refine ⟨?_, hst, by rw [← hflat, ← hbytes]⟩
  change c.length - (mb.prependFromBuffer c).1.length = len
  rw [hnil, hlen, length_nil, Nat.sub_zero]

/-! ## Custody -/

namespace Sys

def contents (s : Sys ι) (i : ι) : List UInt8 := (s.mbs i).bytes

theorem set_self (s : Sys ι) (i : ι) (mb : Mbuff) : (s.set i mb).mbs i = mb :=
  update_self ..

variable {i j : ι}

theorem set_of_ne (s : Sys ι) (h : j ≠ i) (mb : Mbuff) : (s.set i mb).mbs j = s.mbs j :=
  update_of_ne h ..

theorem contents_set (s : Sys ι) (i : ι) (mb : Mbuff) :
    (s.set i mb).contents = update s.contents i mb.bytes := by
  funext j
  by_cases hj : j = i
  · subst hj
    simp [contents, set]
  · simp [contents, set, hj]

theorem contents_set_same {s : Sys ι} (h : mb.bytes = (s.mbs i).bytes) :
    (s.set i mb).contents = s.contents := by
  rw [contents_set, h]
  exact update_eq_self i s.contents

theorem sane_set {s : Sys ι} (h : ∀ i, (s.mbs i).Sane) (hm : mb.Sane) (j : ι) :
    ((s.set i mb).mbs j).Sane := by
  by_cases hj : j = i
  · subst hj
    rw [set_self]
    exact hm
  · rw [set_of_ne s hj]
    exact h j

variable [Fintype ι]

def held (s : Sys ι) : Multiset Nat := ∑ i, ((s.mbs i).ptrs : Multiset Nat)

omit [DecidableEq ι] in
theorem mem_held {s : Sys ι} {p : Nat} : p ∈ s.held ↔ ∃ i, p ∈ (s.mbs i).ptrs := by
  simp [held, Multiset.mem_sum]

theorem held_set (s : Sys ι) (i : ι) (mb : Mbuff) :
    (s.set i mb).held + ((s.mbs i).ptrs : Multiset Nat) = s.held + (mb.ptrs : Multiset Nat) := by
  have hrest : ∑ j ∈ Finset.univ.erase i, (((s.set i mb).mbs j).ptrs : Multiset Nat) =
      ∑ j ∈ Finset.univ.erase i, ((s.mbs j).ptrs : Multiset Nat) := by
    refine Finset.sum_congr rfl fun j hj => ?_
    rw [set_of_ne s (Finset.ne_of_mem_erase hj)]
  rw [held, held, ← Finset.add_sum_erase _ _ (Finset.mem_univ i), hrest, set_self,
    ← Finset.add_sum_erase _ (fun j => ((s.mbs j).ptrs : Multiset Nat)) (Finset.mem_univ i)]
  abel

theorem held_set_of {s : Sys ι} {i : ι} {gone new : Multiset Nat}
    (h : (mb.ptrs : Multiset Nat) + gone = ((s.mbs i).ptrs : Multiset Nat) + new) :
    (s.set i mb).held + gone = s.held + new := by
  refine add_right_cancel (b := ((s.mbs i).ptrs : Multiset Nat)) ?_
  calc (s.set i mb).held + gone + (s.mbs i).ptrs
      = (s.set i mb).held + (s.mbs i).ptrs + gone := by abel
    _ = s.held + (mb.ptrs + gone) := by rw [held_set]; abel
    _ = s.held + new + (s.mbs i).ptrs := by rw [h]; abel

/-- The sizes are those of the nodes, and every buffer that was added is in one place of one
Mbuff or was handed back. -/
structure Sound (s : Sys ι) : Prop where
  sizes : ∀ i, (s.mbs i).validSize = ((s.mbs i).nodes.map Node.len).sum
  custody : s.held + (s.handed : Multiset Nat) = (s.added : Multiset Nat)
  once : s.held.Nodup

structure Inv (s : Sys ι) : Prop where
  sane : ∀ i, (s.mbs i).Sane
  custody : s.held + (s.handed : Multiset Nat) = (s.added : Multiset Nat)
  once : s.held.Nodup

variable {s : Sys ι}

omit [DecidableEq ι] in
theorem Inv.sound (h : s.Inv) : s.Sound :=
  ⟨fun i => (h.sane i).legit.valid, h.custody, h.once⟩

theorem Inv.hand (h : s.Inv) {i : ι} {gone : List Nat} (hm : mb.Sane)
    (hp : (mb.ptrs ++ gone).Perm (s.mbs i).ptrs) :
    Inv { s.set i mb with handed := gone ++ s.handed } := by
  have hheld : (s.set i mb).held + (gone : Multiset Nat) = s.held := by
    have := @held_set_of _ _ mb _ s i gone 0
      (by rw [add_zero, Multiset.coe_add, Multiset.coe_eq_coe]; exact hp)
    rwa [add_zero] at this
  refine ⟨sane_set h.sane hm, ?_, ?_⟩
  · change (s.set i mb).held + ((gone ++ s.handed : List Nat) : Multiset Nat) = s.added
    rw [← Multiset.coe_add, ← add_assoc, hheld]
    exact h.custody
  · refine Multiset.nodup_of_le ?_ h.once
    rw [← hheld]
    exact Multiset.le_add_right _ _

theorem Inv.set (h : s.Inv) (hm : Stays (s.mbs i) mb) : (s.set i mb).Inv :=
  @Inv.hand _ _ mb _ s h i [] hm.sane (by rw [append_nil]; exact hm.ptrs)

theorem Inv.add (h : s.Inv) {b : Buff} (hb : 0 < b.data.length)
    (hnew : ∀ j, b.ptr ∉ (s.mbs j).ptrs) :
    Inv { s.set i ((s.mbs i).addBuff b) with added := b.ptr :: s.added } := by
  obtain ⟨hm, hp⟩ := (h.sane i).addBuff hb
  have hheld : (s.set i ((s.mbs i).addBuff b)).held = b.ptr ::ₘ s.held := by
    have := @held_set_of _ _ ((s.mbs i).addBuff b) _ s i 0 {b.ptr} (by
      rw [add_zero, Multiset.coe_eq_coe.mpr hp, add_comm, Multiset.singleton_add,
        Multiset.cons_coe])
    rwa [add_zero, add_comm, Multiset.singleton_add] at this
  refine ⟨sane_set h.sane hm, ?_, ?_⟩
  · change (s.set i ((s.mbs i).addBuff b)).held + (s.handed : Multiset Nat) =
      ((b.ptr :: s.added : List Nat) : Multiset Nat)
    rw [hheld, Multiset.cons_add, h.custody, Multiset.cons_coe]
  · change (s.set i ((s.mbs i).addBuff b)).held.Nodup
    rw [hheld, Multiset.nodup_cons]
    refine ⟨fun hc => ?_, h.once⟩
    obtain ⟨j, hj⟩ := mem_held.mp hc
    exact hnew j hj

theorem Inv.move (h : s.Inv) (hij : i ≠ j) {a b : Mbuff} (ha : a.Sane) (hb : b.Sane)
    (hp : (a.ptrs ++ b.ptrs).Perm ((s.mbs i).ptrs ++ (s.mbs j).ptrs)) :
    ((s.set i a).set j b).Inv := by
  have hj := set_of_ne s hij.symm a
  have hheld : ((s.set i a).set j b).held = s.held := by
    have h1 := held_set s i a
    have h2 := held_set (s.set i a) j b
    rw [hj] at h2
    have hp' : (a.ptrs : Multiset Nat) + b.ptrs = (s.mbs i).ptrs + (s.mbs j).ptrs := by
      rw [Multiset.coe_add, Multiset.coe_add, Multiset.coe_eq_coe]
      exact hp
    refine add_right_cancel (b := ((s.mbs i).ptrs : Multiset Nat) + (s.mbs j).ptrs) ?_
    calc ((s.set i a).set j b).held + ((s.mbs i).ptrs + (s.mbs j).ptrs)
        = ((s.set i a).set j b).held + (s.mbs j).ptrs + (s.mbs i).ptrs := by abel
      _ = (s.set i a).held + (s.mbs i).ptrs + b.ptrs := by rw [h2]; abel
      _ = s.held + (a.ptrs + b.ptrs) := by rw [h1]; abel
      _ = s.held + ((s.mbs i).ptrs + (s.mbs j).ptrs) := by rw [hp']
  refine ⟨sane_set (sane_set h.sane ha) hb, ?_, ?_⟩
  · rw [hheld]
    exact h.custody
  · rw [hheld]
    exact h.once

/-! ## Steps and runs -/

/-- No assertion is tripped, the invariant is kept, and the byte sequences change as specified. -/
def Stepped (s : Sys ι) (op : Op ι) : Prop :=
  s.Asserts op ∧ (s.step op).1.Inv ∧ Spec s.contents op (s.step op).2 (s.step op).1.contents

omit [DecidableEq ι] in
theorem Inv.length_contents (h : s.Inv) (i : ι) : (s.contents i).length = (s.mbs i).validSize :=
  (h.sane i).legit.validSize_eq.symm

theorem Inv.step_reslice (h : s.Inv) (i : ι) (len off : Nat) :
    s.Stepped (.reslice i len off) := by
  obtain ⟨hs, ha⟩ := (h.sane i).reslice len off
  refine ⟨ha, h.set hs, ?_⟩
  rw [Sys.step, Spec, h.length_contents, contents_set]
  split
  · rename_i hle
    obtain ⟨mb', hre, -, hbytes⟩ := (h.sane i).reslice_some hle
    rw [hre, Option.getD_some, hbytes]
    exact ⟨rfl, rfl⟩
  · rename_i hle
    rw [Mbuff.reslice, if_pos (by omega)]
    exact ⟨rfl, update_eq_self i s.contents⟩

theorem Inv.step_appendFromMbuff (h : s.Inv) (hij : i ≠ j) {off len : Nat}
    (hf : s.Fine (.appendFromMbuff i j hij off len)) :
    s.Stepped (.appendFromMbuff i j hij off len) := by
  rw [Stepped, Sys.step, Spec, Asserts, h.length_contents, contents_set]
  dsimp only
  by_cases hle : off + len ≤ (s.mbs j).validSize
  · obtain ⟨hlen, hext⟩ := (h.sane i).legit.appendFromMbuff (h.sane i).pos (h.sane j).legit hle
      (hf.2 hle)
    obtain ⟨cs, hcs, -⟩ := iterateValid_some hle
    obtain ⟨hs, ha⟩ := (h.sane i).copyChunks cs 0
    have happ : (s.mbs i).appendFromMbuff (s.mbs j) off len = cs.foldl copyChunk (0, s.mbs i) := by
      rw [Mbuff.appendFromMbuff, hcs]
    rw [if_pos hle]
    refine ⟨⟨(h.sane j).legit.iterAsserts off len, fun cs' hm => ?_⟩, ?_, hlen, ?_⟩
    · rw [hcs] at hm
      obtain rfl := Option.some.inj hm
      exact ⟨ha, hlen⟩
    · rw [happ]
      exact h.set hs
    · rw [hext.bytes]
      rfl
  · have happ : (s.mbs i).appendFromMbuff (s.mbs j) off len = (0, s.mbs i) ∧
        ∀ cs ∈ (s.mbs j).iterateValid off len, cs = [] ∧ len = 0 := by
      rw [Mbuff.appendFromMbuff, iterateValid]
      grind
    rw [if_neg hle, happ.1]
    refine ⟨⟨(h.sane j).legit.iterAsserts off len, fun cs hm => ?_⟩, h.set (h.sane i).stays, rfl,
      update_eq_self i s.contents⟩
    obtain ⟨rfl, h0⟩ := happ.2 cs hm
    exact ⟨trivial, h0.symm⟩

theorem Inv.step_prependFromMbuff (h : s.Inv) (hij : i ≠ j) {off len : Nat}
    (hf : s.Fine (.prependFromMbuff i j hij off len)) :
    s.Stepped (.prependFromMbuff i j hij off len) := by
  have hiter := (h.sane j).legit.iterAsserts off len
  rw [Stepped, Sys.step, Spec, Asserts, h.length_contents, contents_set]
  dsimp only
  by_cases hgo : 0 < len ∧ off + len ≤ (s.mbs j).validSize
  · obtain ⟨h0, hle⟩ := hgo
    obtain ⟨hone, hroom, hk⟩ := hf.2 h0 hle
    obtain ⟨c, hcs, ha, hlen, hs, hbytes⟩ :=
      prependFromMbuff_spec (h.sane i) (h.sane j).legit hle h0 hone hroom hk
    rw [if_pos hle]
    refine ⟨⟨hiter, fun cs hm => ?_⟩, h.set hs, hlen, by rw [hbytes]; rfl⟩
    rw [hcs] at hm
    obtain rfl := Option.some.inj hm
    refine ⟨fun c' hc => ?_, hlen⟩
    obtain rfl := Option.some.inj hc
    exact ha
  · have happ : (s.mbs i).prependFromMbuff (s.mbs j) off len = (0, s.mbs i) ∧
        ∀ cs ∈ (s.mbs j).iterateValid off len, cs = [] ∧ len = 0 := by
      rw [Mbuff.prependFromMbuff, iterateValid]
      grind
    rw [happ.1]
    refine ⟨⟨hiter, fun cs hm => ?_⟩, h.set (h.sane i).stays, ?_⟩
    · obtain ⟨rfl, h0⟩ := happ.2 cs hm
      exact ⟨fun c hc => by simp at hc, h0.symm⟩
    · split
      · rename_i hle
        have h0 : len = 0 := by omega
        subst h0
        rw [take_zero, nil_append]
        exact ⟨rfl, rfl⟩
      · exact ⟨rfl, update_eq_self i s.contents⟩

theorem Inv.step_fillIovecValid (h : s.Inv) (i : ι) (off len iovSize : Nat) :
    Spec s.contents (.fillIovecValid i off len iovSize)
      (.chunks ((s.mbs i).fillIovecValid off len iovSize)) s.contents := by
  rw [Spec, h.length_contents, fillIovecValid]
  refine ⟨rfl, ?_⟩
  split
  · rename_i hor
    rcases hor with hle | h0
    · obtain ⟨cs, hcs, hflat⟩ := iterateValid_some hle
      exact ⟨cs, hflat, by rw [hcs, Option.map_some]⟩
    · exact ⟨[], by simp [h0], by simp [iterateValid, h0]⟩
  · rename_i hor
    rw [iterateValid, if_neg (by omega), if_pos (by omega)]
    rfl

theorem Inv.step (h : s.Inv) {op : Op ι} (hf : s.Fine op) : s.Stepped op := by
  cases op with
  | addBuff i b => exact ⟨trivial, h.add hf.1 hf.2, contents_set_same rfl⟩
  | append i cb =>
    obtain ⟨hs, ha⟩ := (h.sane i).appendLoop (cb.fn.noting frontPart)
      ((s.mbs i).free.length + 1) (cb.init, [])
    refine ⟨ha, h.set hs, ?_⟩
    exact (contents_set ..).trans (congrArg _ ((h.sane i).append_noting cb.init))
  | appendInline i cb =>
    refine ⟨trivial, h.set ((h.sane i).appendInline _ _), ?_⟩
    exact (contents_set ..).trans (congrArg _ ((h.sane i).appendInline_noting cb.init))
  | prepend i cb =>
    obtain ⟨hs, hb, ha⟩ := (h.sane i).prepend_noting cb.init hf
    exact ⟨ha, h.set hs, (contents_set ..).trans (congrArg _ hb)⟩
  | prependInline i cb =>
    obtain ⟨hs, hb⟩ := (h.sane i).prependInline_noting cb.init hf
    refine ⟨fun t ht => (h.sane i).empty t (mem_of_mem_head? ht), h.set hs, ?_⟩
    exact (contents_set ..).trans (congrArg _ hb)
  | reslice i len off => exact h.step_reslice i len off
  | moveFreeBuffsTo i j hij maxSize =>
    obtain ⟨h1, h2, h3, h4, hp⟩ := moveLoop_sane maxSize (s.mbs i).free 0 rfl (h.sane i) (h.sane j)
    refine ⟨(h.sane i).moveAsserts maxSize 0, h.move hij h1 h2 hp, ?_⟩
    refine (contents_set_same ?_).trans (contents_set_same h3)
    rw [set_of_ne s hij.symm]
    exact h4
  | getFreeBuff i =>
    rw [Stepped, Sys.step]
    refine ⟨(h.sane i).legit.freeCounted, ?_⟩
    cases hb : (s.mbs i).getFreeBuff with
    | mk ob mb =>
      cases ob with
      | none => exact ⟨h, rfl⟩
      | some b =>
        obtain ⟨hs, hn, hp, -⟩ := (h.sane i).getFreeBuff hb
        refine ⟨@Inv.hand _ _ mb _ s h i [b.ptr] hs ?_, contents_set_same ?_⟩
        · exact (perm_append_singleton _ _).trans hp.symm
        · rw [bytes, hn, bytes]
  | copyToBuffer i off len =>
    have hsize := (h.sane i).legit.validSize_eq
    refine ⟨fun hle => ⟨(h.sane i).legit.iterAsserts _ _, ?_⟩, h, ?_⟩
    · rw [copyToBuffer_eq (h.sane i).legit, length_take, length_drop, hsize]
    · exact ⟨copyToBuffer_eq (h.sane i).legit off len, rfl⟩
  | appendFromMbuff i j hij off len => exact h.step_appendFromMbuff hij hf
  | prependFromMbuff i j hij off len => exact h.step_prependFromMbuff hij hf
  | fillIovecAppend i len iovLen =>
    obtain ⟨hs, ha⟩ := (h.sane i).appendLoop iovFn ((s.mbs i).free.length + 1) ⟨len, iovLen⟩
    obtain ⟨out, hext, hlen⟩ := (h.sane i).legit.fillIovecAppend len iovLen
    refine ⟨ha, h.set hs, ?_, out, hlen, ?_⟩
    · exact Nat.sub_le _ _
    · exact (contents_set ..).trans (congrArg _ hext.bytes)
  | fillIovecValid i off len iovSize =>
    exact ⟨(h.sane i).legit.iterAsserts off len, h, h.step_fillIovecValid i off len iovSize⟩
  | reset i =>
    have h0 : (s.mbs i).validSize = 0 := hf
    refine ⟨trivial, @Inv.hand _ _ _ _ s h i _ (Sane.reset h0) ?_, contents_set ..⟩
    rw [Mbuff.reset, Mbuff.ptrs, Mbuff.ptrs]
    simp only [map_nil, nil_append, map_append, map_map]
    exact .refl _

omit [DecidableEq ι] in
theorem inv_init : (init : Sys ι).Inv := by
  refine ⟨fun i => ⟨⟨?_, ?_, rfl, rfl⟩, ?_, ?_⟩, ?_, ?_⟩ <;>
    simp [init, Mbuff.empty, held, Mbuff.ptrs, layout]

def run (s : Sys ι) : List (Op ι) → Sys ι
  | [] => s
  | op :: ops => run (s.step op).1 ops

def FineRun (s : Sys ι) : List (Op ι) → Prop
  | [] => True
  | op :: ops => s.Fine op ∧ FineRun (s.step op).1 ops

/-- Along a run the sizes and the buffers are right, no assertion fails, and each operation
does to the byte sequences what is specified. -/
def Refines (s : Sys ι) : List (Op ι) → Prop
  | [] => s.Sound
  | op :: ops =>
    s.Sound ∧ s.Asserts op ∧ Spec s.contents op (s.step op).2 (s.step op).1.contents ∧
      Refines (s.step op).1 ops

theorem Inv.refines (h : s.Inv) {ops : List (Op ι)} (hf : s.FineRun ops) : s.Refines ops := by
  induction ops generalizing s with
  | nil => exact h.sound
  | cons op ops ih =>
    obtain ⟨ha, hinv, hspec⟩ := h.step hf.1
    exact ⟨h.sound, ha, hspec, ih hinv hf.2⟩

/-- The Mbuffs are byte sequences with pools of free buffers, over every run of fine
operations. -/
theorem fineRun_refines (ops : List (Op ι)) (hf : (init : Sys ι).FineRun ops) :
    (init : Sys ι).Refines ops :=
  inv_init.refines hf

/-- A byte is prepended to one Mbuff and appended to another, and then copied in front of
the first. -/
def shortRun : List (Op Bool) :=
  [.addBuff false ⟨0, [0, 0]⟩, .addBuff true ⟨1, [0, 0]⟩, .prepend false ⟨_, prependCopyFn, [7]⟩,
    .append true ⟨_, copyFn, [9]⟩, .prependFromMbuff false true (by decide) 0 1, .getFreeBuff true]

theorem shortRun_refines : init.Refines shortRun ∧ (init.run shortRun).contents false = [9, 7] := by
  refine ⟨fineRun_refines shortRun ⟨?_, ?_, ?_, trivial, ?_, trivial, trivial⟩, by decide⟩
  · exact ⟨by decide, by decide⟩
  · exact ⟨by decide, by decide⟩
  · exact ⟨fun r hr => absurd hr (Option.not_mem_none r), by decide, fun _ => trivial⟩
  · refine ⟨by decide, fun _ _ => ⟨by decide, by decide, fun r hr h0 => ?_, fun _ => trivial⟩⟩
    obtain rfl := Option.some.inj hr
    exact absurd h0 (by decide)

/-- An exact fill goes on to the next free buffer, of which nothing is taken: the next
`prepend` finds a head without valid bytes at the end of its buffer. `reset` leaves
`mb_valid_size_` as it was. Of two chunks only the first is prepended. -/
theorem runs_not_refined :
    ¬ init.Refines [.addBuff false ⟨0, [0]⟩, .addBuff false ⟨1, [0]⟩,
      .prepend false ⟨_, prependCopyFn, [7]⟩, .prepend false ⟨_, prependCopyFn, [8]⟩] ∧
    ¬ init.Refines [.addBuff false ⟨0, [0]⟩, .append false ⟨_, copyFn, [7]⟩, .reset false] ∧
    ¬ init.Refines [.addBuff true ⟨0, [0]⟩, .addBuff true ⟨1, [0]⟩, .addBuff false ⟨2, [0, 0, 0]⟩,
      .append true ⟨_, copyFn, [7, 8]⟩, .prependFromMbuff false true (by decide) 0 2] := by
  refine ⟨fun h => ?_, fun h => ?_, fun h => ?_⟩
  · obtain ⟨-, -, -, -, -, -, -, -, -, -, ha, -⟩ := h
    exact absurd (ha.1 _ rfl rfl) (by decide)
  · obtain ⟨-, -, -, -, -, -, -, -, -, hs⟩ := h
    exact absurd (hs.sizes false) (by decide)
  · obtain ⟨-, -, -, -, -, -, -, -, -, -, -, -, -, ha, -⟩ := h
    exact absurd (ha.2 _ rfl).2 (by decide)

end Sys

end Mbuff
end UDepot
