import Mathlib.Tactic
import UDepot.Lib.Boxes

/-! `Mbuff`: a byte sequence kept in the valid parts of a list of buffers, and a
list of free buffers it can grow into. -/

namespace UDepot
open List

/-- A buffer: its address and the bytes it holds. -/
structure Buff where
  ptr : Nat
  data : List UInt8
deriving DecidableEq

/-- `Mbuff::Node`: a buffer of which `len` bytes from `off` on are valid. -/
structure Mbuff.Node where
  buff : Buff
  off : Nat
  len : Nat
  fits : off + len ≤ buff.data.length
deriving DecidableEq

/-- A callback of `append` and `prepend`. From its captured variables and the
chunk it is given it computes their new values, what the chunk then holds and how
many bytes of it become valid. -/
structure AppendFn (σ : Type) where
  run : σ → List UInt8 → σ × List UInt8 × Nat
  run_length : ∀ s chunk, (run s chunk).2.1.length = chunk.length
  run_le : ∀ s chunk, (run s chunk).2.2 ≤ chunk.length

/-- The nodes stand from `mb_head_` to `mb_tail_`; those on the free list are
reset, so that only their buffers remain. -/
structure Mbuff where
  nodes : List Mbuff.Node
  validSize : Nat
  free : List Buff
  freeSize : Nat
deriving DecidableEq

namespace Mbuff

variable {σ : Type}

/-! ## Nodes -/

namespace Node

def fresh (b : Buff) : Node := ⟨b, 0, 0, Nat.zero_le _⟩

def buffLen (n : Node) : Nat := n.buff.data.length

def validData (n : Node) : List UInt8 := (n.buff.data.drop n.off).take n.len

def appendSpace (n : Node) : Nat := n.buffLen - (n.off + n.len)

/-- The whole buffer of a node without valid bytes, else what is before them. -/
def prependSpace (n : Node) : Nat := if n.len = 0 then n.buffLen else n.off

def appendChunk (n : Node) : List UInt8 := n.buff.data.drop (n.off + n.len)

def prependChunk (n : Node) : List UInt8 := n.buff.data.take n.prependSpace

theorem appendChunk_length (n : Node) : n.appendChunk.length = n.appendSpace :=
  length_drop

theorem prependSpace_le (n : Node) : n.prependSpace ≤ n.buffLen := by
  have := n.fits
  unfold prependSpace
  split <;> simp only [buffLen] at * <;> omega

theorem prependChunk_length (n : Node) : n.prependChunk.length = n.prependSpace := by
  rw [prependChunk, length_take]
  exact Nat.min_eq_left n.prependSpace_le

/-- `get_append_chunk`, the callback and `put_append_chunk`: also gives how many
bytes were appended. -/
def append (n : Node) (f : AppendFn σ) (s : σ) : σ × Node × Nat :=
  ((f.run s n.appendChunk).1,
    { buff := ⟨n.buff.ptr, n.buff.data.take (n.off + n.len) ++ (f.run s n.appendChunk).2.1⟩
      off := n.off
      len := n.len + (f.run s n.appendChunk).2.2
      fits := by
        have h := f.run_le s n.appendChunk
        have := n.fits
        rw [appendChunk_length, appendSpace, buffLen] at h
        rw [length_append, f.run_length, appendChunk_length, length_take, appendSpace,
          buffLen]
        omega },
    (f.run s n.appendChunk).2.2)

/-- `get_prepend_chunk`, the callback and `put_prepend_chunk`: what is prepended
stands at the end of the chunk. -/
def prepend (n : Node) (f : AppendFn σ) (s : σ) : σ × Node × Nat :=
  ((f.run s n.prependChunk).1,
    { buff := ⟨n.buff.ptr, (f.run s n.prependChunk).2.1 ++ n.buff.data.drop n.prependSpace⟩
      off := (if n.off = 0 ∧ n.len = 0 then n.buffLen else n.off) - (f.run s n.prependChunk).2.2
      len := n.len + (f.run s n.prependChunk).2.2
      fits := by
        have h := f.run_le s n.prependChunk
        have hf := n.fits
        have hle := n.prependSpace_le
        rw [prependChunk_length] at h
        rw [length_append, f.run_length, prependChunk_length, length_drop]
        unfold buffLen prependSpace at *
        split_ifs at * <;> omega },
    (f.run s n.prependChunk).2.2)

/-- The node without its first `o` valid bytes. -/
def advance (n : Node) (o : Nat) (h : o ≤ n.len) : Node :=
  ⟨n.buff, n.off + o, n.len - o, by have := n.fits; omega⟩

/-- The node with only its first `l` valid bytes. -/
def truncate (n : Node) (l : Nat) (h : l ≤ n.len) : Node :=
  ⟨n.buff, n.off, l, by have := n.fits; omega⟩

end Node

/-! ## Free buffers -/

def putFreeNode (mb : Mbuff) (n : Node) : Mbuff :=
  { mb with free := n.buff :: mb.free, freeSize := mb.freeSize + n.buffLen }

def addBuff (mb : Mbuff) (b : Buff) : Mbuff := mb.putFreeNode (.fresh b)

def getFreeNode (mb : Mbuff) : Option (Node × Mbuff) :=
  match mb.free with
  | [] => none
  | b :: free => some (.fresh b, { mb with free, freeSize := mb.freeSize - b.data.length })

/-! ## Appending and prepending

A prepared node is out of the list until it is finalized. -/

def appendPrepareInline (mb : Mbuff) : Option (Node × Mbuff) :=
  match mb.nodes.getLast? with
  | some t =>
    if 0 < t.appendSpace then some (t, { mb with nodes := mb.nodes.dropLast }) else none
  | none => none

def appendPrepare (mb : Mbuff) : Option (Node × Mbuff) :=
  match mb.appendPrepareInline with
  | some r => some r
  | none => mb.getFreeNode

def appendFinalize (mb : Mbuff) (t : Node) (appended : Nat) : Mbuff :=
  { mb with nodes := mb.nodes ++ [t], validSize := mb.validSize + appended }

/-- The loop of `append`, at most `n` rounds of it. -/
def appendLoop (f : AppendFn σ) : Nat → σ → Mbuff → σ × Mbuff
  | 0, s, mb => (s, mb)
  | n + 1, s, mb =>
    match mb.appendPrepare with
    | none => (s, mb)
    | some (t, mb1) =>
      let r := t.append f s
      let mb2 := mb1.appendFinalize r.2.1 r.2.2
      if r.2.2 = 0 ∨ r.2.2 < t.appendSpace then (r.1, mb2) else appendLoop f n r.1 mb2

/-- A round that does not end the loop fills its node, so that the next one takes
a free buffer: the loop has at most one round more than there are free buffers. -/
def append (mb : Mbuff) (f : AppendFn σ) (s : σ) : σ × Mbuff :=
  appendLoop f (mb.free.length + 1) s mb

def appendInline (mb : Mbuff) (f : AppendFn σ) (s : σ) : σ × Mbuff :=
  match mb.appendPrepareInline with
  | none => (s, mb)
  | some (t, mb1) => ((t.append f s).1, mb1.appendFinalize (t.append f s).2.1 (t.append f s).2.2)

def prependPrepareInline (mb : Mbuff) : Option (Node × Mbuff) :=
  match mb.nodes with
  | h :: rest => if 0 < h.prependSpace then some (h, { mb with nodes := rest }) else none
  | [] => none

def prependFinalize (mb : Mbuff) (h : Node) (prepended : Nat) : Mbuff :=
  { mb with nodes := h :: mb.nodes, validSize := mb.validSize + prepended }

def prependInline (mb : Mbuff) (f : AppendFn σ) (s : σ) : σ × Mbuff :=
  match mb.prependPrepareInline with
  | none => (s, mb)
  | some (h, mb1) =>
    ((h.prepend f s).1, mb1.prependFinalize (h.prepend f s).2.1 (h.prepend f s).2.2)

/-- The callback of `append_from_buffer`; its state is what is still to be copied. -/
def copyFn : AppendFn (List UInt8) where
  run src chunk := (src.drop chunk.length, src.take chunk.length ++ chunk.drop src.length,
    min src.length chunk.length)
  run_length src chunk := by
    rw [length_append, length_take, length_drop]
    omega
  run_le src chunk := Nat.min_le_right _ _

/-- `append_from_buffer`; what is left of the source was not copied. -/
def appendFromBuffer (mb : Mbuff) (src : List UInt8) : List UInt8 × Mbuff :=
  mb.append copyFn src

/-- The callback of `append_uninitialized`. -/
def skipFn : AppendFn Nat where
  run rem chunk := (rem - min chunk.length rem, chunk, min chunk.length rem)
  run_length _ _ := rfl
  run_le _ _ := Nat.min_le_left _ _

def appendUninitialized (mb : Mbuff) (size : Nat) : Mbuff := (mb.append skipFn size).2

def appendAvailSize (mb : Mbuff) : Nat :=
  mb.freeSize + (mb.nodes.getLast?.map Node.appendSpace).getD 0

/-! ## Re-slicing -/

/-- The nodes behind the first `off` valid bytes, and those before them. -/
def dropFront : List Node → Nat → List Node × List Node
  | [], _ => ([], [])
  | n :: rest, off =>
    if off = 0 then (n :: rest, [])
    else if h : off < n.len then (n.advance off h.le :: rest, [])
    else ((dropFront rest (off - n.len)).1, n :: (dropFront rest (off - n.len)).2)

/-- The nodes with the first `len` valid bytes, and those behind them. -/
def truncateAt : List Node → Nat → List Node × List Node
  | [], _ => ([], [])
  | n :: rest, len =>
    if h : len ≤ n.len then ([n.truncate len h], rest)
    else (n :: (truncateAt rest (len - n.len)).1, (truncateAt rest (len - n.len)).2)

def putFreeNodes (mb : Mbuff) (ns : List Node) : Mbuff := ns.foldl putFreeNode mb

/-- `reslice`; `none` is its error. -/
def reslice (mb : Mbuff) (len off : Nat) : Option Mbuff :=
  if mb.validSize < off + len then none
  else if len = 0 then some ({ mb with nodes := [], validSize := 0 }.putFreeNodes mb.nodes)
  else if mb.nodes = [] then some mb
  else
    let kept := dropFront mb.nodes off
    let slice := truncateAt kept.1 len
    some ({ mb with nodes := slice.1, validSize := len }.putFreeNodes (kept.2 ++ slice.2))

/-! ## What the nodes hold -/

def bytes (mb : Mbuff) : List UInt8 := mb.nodes.flatMap Node.validData

def layout (mb : Mbuff) : List Nat :=
  mb.nodes.map Node.buffLen ++ mb.free.map fun b => b.data.length

def headOff (mb : Mbuff) : Nat := (mb.nodes.head?.map Node.off).getD 0

/-- `is_list_node_legit` for all nodes, and the cached sizes are right. -/
structure Legit (mb : Mbuff) : Prop where
  off : ∀ n ∈ mb.nodes.tail, n.off = 0
  full : ∀ n ∈ mb.nodes.dropLast, n.off + n.len = n.buffLen
  valid : mb.validSize = (mb.nodes.map Node.len).sum
  free : mb.freeSize = (mb.free.map fun b => b.data.length).sum

namespace Node

@[simp] theorem validData_length (n : Node) : n.validData.length = n.len := by
  have := n.fits
  rw [validData, length_take, length_drop]
  omega

theorem off_add_len_add_appendSpace (n : Node) : n.off + n.len + n.appendSpace = n.buffLen := by
  have := n.fits
  unfold appendSpace buffLen
  omega

section

variable (n : Node) (f : AppendFn σ) (s : σ)

theorem append_off : (n.append f s).2.1.off = n.off := rfl

theorem append_len : (n.append f s).2.1.len = n.len + (n.append f s).2.2 := rfl

theorem append_count_le : (n.append f s).2.2 ≤ n.appendSpace := by
  rw [← appendChunk_length]
  exact f.run_le s n.appendChunk

@[simp] theorem append_buffLen : (n.append f s).2.1.buffLen = n.buffLen := by
  have := n.fits
  unfold append buffLen
  rw [length_append, f.run_length, appendChunk_length, length_take, appendSpace, buffLen]
  omega

theorem append_appendSpace :
    (n.append f s).2.1.appendSpace = n.appendSpace - (n.append f s).2.2 := by
  rw [appendSpace, append_buffLen, append_off, append_len, appendSpace]
  omega

def appended : List UInt8 := (f.run s n.appendChunk).2.1.take (f.run s n.appendChunk).2.2

theorem appended_length : (n.appended f s).length = (n.append f s).2.2 := by
  rw [appended, length_take, f.run_length]
  exact Nat.min_eq_left (f.run_le s n.appendChunk)

theorem append_validData : (n.append f s).2.1.validData = n.validData ++ n.appended f s := by
  have hf := n.fits
  have hlen : (n.buff.data.take (n.off + n.len)).length = n.off + n.len := by
    rw [length_take]
    omega
  have hdrop : (n.buff.data.take (n.off + n.len)).drop n.off = n.validData := by
    rw [validData, drop_take]
    congr 1
    omega
  change ((n.buff.data.take (n.off + n.len) ++ (f.run s n.appendChunk).2.1).drop n.off).take
    (n.len + (f.run s n.appendChunk).2.2) = _
  rw [drop_append_of_le_length (by omega), hdrop, take_append, validData_length,
    Nat.add_sub_cancel_left, take_of_length_le (by rw [validData_length]; omega), appended]

end

section

variable (n : Node) (f : AppendFn σ) (s : σ)

@[simp] theorem prepend_buffLen : (n.prepend f s).2.1.buffLen = n.buffLen := by
  have := n.prependSpace_le
  unfold prepend buffLen at *
  rw [length_append, f.run_length, prependChunk_length, length_drop]
  omega

theorem prepend_len : (n.prepend f s).2.1.len = n.len + (n.prepend f s).2.2 := rfl

variable {n} (h : 0 < n.len)
include h

theorem prependSpace_of_pos : n.prependSpace = n.off := if_neg h.ne'

theorem prepend_count_le : (n.prepend f s).2.2 ≤ n.off := by
  rw [← prependSpace_of_pos h, ← prependChunk_length]
  exact f.run_le s n.prependChunk

theorem prepend_off : (n.prepend f s).2.1.off = n.off - (n.prepend f s).2.2 := by
  change (if n.off = 0 ∧ n.len = 0 then n.buffLen else n.off) - _ = _
  rw [if_neg (by omega)]
  rfl

theorem prepend_validData :
    (n.prepend f s).2.1.validData =
      (f.run s n.prependChunk).2.1.drop (n.off - (n.prepend f s).2.2) ++ n.validData := by
  have hle := prepend_count_le f s h
  have hspace := prependSpace_of_pos h
  have hlen : (f.run s n.prependChunk).2.1.length = n.off := by
    rw [f.run_length, prependChunk_length, hspace]
  rw [validData, prepend_off f s h, prepend_len]
  change (((f.run s n.prependChunk).2.1 ++ n.buff.data.drop n.prependSpace).drop _).take _ = _
  rw [drop_append_of_le_length (by omega), take_append,
    take_of_length_le (by rw [length_drop, hlen]; omega), length_drop, hlen, hspace,
    show n.len + (n.prepend f s).2.2 - (n.off - (n.off - (n.prepend f s).2.2)) = n.len by omega,
    validData]

end

@[simp] theorem fresh_validData (b : Buff) : (fresh b).validData = [] := by
  simp [validData, fresh]

@[simp] theorem fresh_buffLen (b : Buff) : (fresh b).buffLen = b.data.length := rfl

@[simp] theorem advance_buffLen (n : Node) (o : Nat) (h : o ≤ n.len) :
    (n.advance o h).buffLen = n.buffLen := rfl

@[simp] theorem truncate_buffLen (n : Node) (l : Nat) (h : l ≤ n.len) :
    (n.truncate l h).buffLen = n.buffLen := rfl

theorem advance_validData (n : Node) (o : Nat) (h : o ≤ n.len) :
    (n.advance o h).validData = n.validData.drop o := by
  unfold validData advance
  rw [drop_take, drop_drop]

theorem truncate_validData (n : Node) (l : Nat) (h : l ≤ n.len) :
    (n.truncate l h).validData = n.validData.take l := by
  unfold validData truncate
  rw [take_take, Nat.min_eq_left h]

end Node

/-! ## Sizes of a legit Mbuff -/

theorem length_flatMap_validData (ns : List Node) :
    (ns.flatMap Node.validData).length = (ns.map Node.len).sum := by
  rw [length_flatMap]
  simp

theorem bytes_length (mb : Mbuff) : mb.bytes.length = (mb.nodes.map Node.len).sum :=
  length_flatMap_validData mb.nodes

variable {mb mb' mb1 : Mbuff} {t : Node} {out : List UInt8}

theorem Legit.validSize_eq (h : mb.Legit) : mb.validSize = mb.bytes.length := by
  rw [h.valid, bytes_length]

theorem Legit.sum_off (h : mb.Legit) : (mb.nodes.map Node.off).sum = mb.headOff := by
  have hoff := h.off
  unfold headOff
  cases hn : mb.nodes with
  | nil => rfl
  | cons n rest =>
    rw [hn] at hoff
    have hrest : (rest.map Node.off).sum = 0 :=
      sum_eq_zero fun x hx => by
        obtain ⟨m, hm, rfl⟩ := mem_map.mp hx
        exact hoff m hm
    simp [hrest]

theorem sum_buffLen_of_full {ns : List Node} (h : ∀ n ∈ ns, n.off + n.len = n.buffLen) :
    (ns.map Node.buffLen).sum = (ns.map Node.off).sum + (ns.map Node.len).sum := by
  induction ns with
  | nil => rfl
  | cons n rest ih =>
    have hn := h n (by simp)
    have hrest := ih fun m hm => h m (by simp [hm])
    simp only [map_cons, sum_cons]
    omega

/-- The buffers are taken up by the space before the valid bytes, these, and what
can be appended. -/
theorem Legit.layout_sum (h : mb.Legit) :
    mb.layout.sum = mb.headOff + mb.validSize + mb.appendAvailSize := by
  have hoff := h.sum_off
  have hfull := h.full
  rw [layout, sum_append, appendAvailSize, ← hoff, h.valid, h.free]
  rcases eq_nil_or_concat mb.nodes with hn | ⟨init, t, hn⟩
  · simp [hn]
  · rw [hn] at hfull
    rw [concat_eq_append, dropLast_concat] at hfull
    have hinit := sum_buffLen_of_full hfull
    have ht := t.off_add_len_add_appendSpace
    simp only [hn, concat_eq_append, map_append, map_cons, map_nil,
      sum_append, sum_cons, sum_nil, List.getLast?_concat, Option.map_some,
      Option.getD_some]
    omega

/-- With valid bytes in the tail, the room behind them is what is left of the
buffer in which the bytes end. -/
theorem Legit.room_eq (h : mb.Legit) {init : List Node} (hn : mb.nodes = init ++ [t])
    (ht : 0 < t.len) : Boxes.room mb.layout (mb.headOff + mb.validSize) = t.appendSpace := by
  have hoff := h.sum_off
  have hfull := h.full
  rw [hn, dropLast_concat] at hfull
  have hinit := sum_buffLen_of_full hfull
  have hsum := t.off_add_len_add_appendSpace
  rw [← hoff, h.valid]
  simp only [layout, hn, map_append, map_cons, map_nil, append_assoc,
    singleton_append, sum_append, sum_cons, sum_nil]
  rw [Boxes.room_concat] <;> omega

/-! ## Appending -/

/-- Only bytes at the end were added: no buffer moved. -/
structure Extends (mb mb' : Mbuff) (out : List UInt8) : Prop where
  bytes : mb'.bytes = mb.bytes ++ out
  layout : mb'.layout = mb.layout
  headOff : mb'.headOff = mb.headOff
  legit : mb'.Legit

theorem Extends.refl (h : mb.Legit) : Extends mb mb [] :=
  ⟨(append_nil _).symm, rfl, rfl, h⟩

theorem Extends.trans {mb'' : Mbuff} {out' : List UInt8} (h : Extends mb mb' out)
    (h' : Extends mb' mb'' out') : Extends mb mb'' (out ++ out') :=
  ⟨by rw [h'.bytes, h.bytes, append_assoc], h'.layout.trans h.layout,
    h'.headOff.trans h.headOff, h'.legit⟩

theorem Extends.validSize (h : Extends mb mb' out) (hl : mb.Legit) :
    mb'.validSize = mb.validSize + out.length := by
  rw [h.legit.validSize_eq, hl.validSize_eq, h.bytes, length_append]

theorem Extends.appendAvailSize (h : Extends mb mb' out) (hl : mb.Legit) :
    mb.appendAvailSize = mb'.appendAvailSize + out.length := by
  have h1 := hl.layout_sum
  have h2 := h.legit.layout_sum
  rw [h.layout, h.headOff, h.validSize hl] at h2
  omega

theorem appendPrepareInline_eq_some (h : mb.appendPrepareInline = some (t, mb1)) :
    mb.nodes = mb1.nodes ++ [t] ∧ 0 < t.appendSpace ∧ mb1 = { mb with nodes := mb1.nodes } := by
  unfold appendPrepareInline at h
  rcases eq_nil_or_concat mb.nodes with hn | ⟨init, t', hn⟩
  · simp [hn] at h
  · rw [concat_eq_append] at hn
    simp only [hn, List.getLast?_concat, dropLast_concat] at h
    split at h
    · rename_i hpos
      cases h
      exact ⟨hn, hpos, rfl⟩
    · cases h

theorem appendPrepareInline_eq_none (h : mb.appendPrepareInline = none) :
    mb.nodes = [] ∨ ∃ init t, mb.nodes = init ++ [t] ∧ t.appendSpace = 0 := by
  unfold appendPrepareInline at h
  rcases eq_nil_or_concat mb.nodes with hn | ⟨init, t, hn⟩
  · exact Or.inl hn
  · rw [concat_eq_append] at hn
    simp only [hn, List.getLast?_concat] at h
    split at h
    · cases h
    · rename_i hpos
      exact Or.inr ⟨init, t, hn, by omega⟩

/-- What a round of `append` works on: the tail, or a free buffer behind nodes
that are all full. -/
theorem appendPrepare_cases (h : mb.appendPrepare = some (t, mb1)) :
    (mb.nodes = mb1.nodes ++ [t] ∧ 0 < t.appendSpace ∧ mb1 = { mb with nodes := mb1.nodes }) ∨
    ∃ b, mb.appendPrepareInline = none ∧ mb.free = b :: mb1.free ∧ t = .fresh b ∧
      mb1 = { mb with free := mb1.free, freeSize := mb.freeSize - b.data.length } := by
  unfold appendPrepare at h
  cases hi : mb.appendPrepareInline with
  | some r =>
    rw [hi] at h
    cases h
    exact Or.inl (appendPrepareInline_eq_some hi)
  | none =>
    rw [hi] at h
    unfold getFreeNode at h
    cases hf : mb.free with
    | nil => simp [hf] at h
    | cons b free =>
      simp only [hf, Option.some.injEq, Prod.mk.injEq] at h
      obtain ⟨rfl, rfl⟩ := h
      exact Or.inr ⟨b, rfl, rfl, rfl, rfl⟩

theorem Legit.full_of_no_space (h : mb.Legit) (hi : mb.appendPrepareInline = none) :
    ∀ n ∈ mb.nodes, n.off + n.len = n.buffLen := by
  intro n hn
  have hfull := h.full
  rcases appendPrepareInline_eq_none hi with he | ⟨init, t, he, ht⟩
  · simp [he] at hn
  · rw [he, dropLast_concat] at hfull
    rw [he, mem_append, mem_singleton] at hn
    rcases hn with hn | rfl
    · exact hfull n hn
    · have := n.off_add_len_add_appendSpace
      omega

theorem Legit.avail_of_no_space (hi : mb.appendPrepareInline = none) :
    mb.appendAvailSize = mb.freeSize := by
  unfold appendAvailSize
  rcases appendPrepareInline_eq_none hi with he | ⟨init, t, he, ht⟩
  · simp [he]
  · simp [he, ht]

theorem Legit.extends_tail (h : mb.Legit) {init : List Node} (hn : mb.nodes = init ++ [t])
    (f : AppendFn σ) (s : σ) :
    Extends mb ({ mb with nodes := init }.appendFinalize (t.append f s).2.1 (t.append f s).2.2)
      (t.appended f s) := by
  have hoff := h.off
  have hfull := h.full
  rw [hn] at hoff hfull
  rw [dropLast_concat] at hfull
  refine ⟨?_, ?_, ?_, ?_, ?_, ?_, h.free⟩
  · simp only [bytes, appendFinalize, hn, flatMap_append, flatMap_cons,
      flatMap_nil, append_nil, t.append_validData, append_assoc]
  · simp only [Mbuff.layout, appendFinalize, hn, map_append, map_cons, map_nil,
      Node.append_buffLen]
  · unfold Mbuff.headOff appendFinalize
    cases init with
    | nil => simp [hn, t.append_off]
    | cons m init => simp [hn]
  · cases init with
    | nil => simp [appendFinalize]
    | cons m init =>
      intro n hmem
      simp only [appendFinalize, cons_append, tail_cons, mem_append,
        mem_singleton] at hmem hoff
      rcases hmem with hmem | rfl
      · exact hoff n (Or.inl hmem)
      · rw [t.append_off]
        exact hoff t (Or.inr rfl)
  · simpa only [appendFinalize, dropLast_concat] using hfull
  · have hv := h.valid
    rw [hn] at hv
    simp only [appendFinalize, hv, map_append, map_cons, map_nil, sum_append,
      sum_cons, sum_nil, t.append_len]
    omega

theorem Legit.extends_fresh (h : mb.Legit) (hi : mb.appendPrepareInline = none) {b : Buff}
    {free : List Buff} (hf : mb.free = b :: free) (f : AppendFn σ) (s : σ) :
    Extends mb
      ({ mb with free, freeSize := mb.freeSize - b.data.length }.appendFinalize
        ((Node.fresh b).append f s).2.1 ((Node.fresh b).append f s).2.2)
      ((Node.fresh b).appended f s) := by
  have hfull := h.full_of_no_space hi
  have hfree := h.free
  rw [hf, map_cons, sum_cons] at hfree
  refine ⟨?_, ?_, ?_, ?_, ?_, ?_, ?_⟩
  · simp [bytes, appendFinalize, Node.append_validData]
  · simp [Mbuff.layout, appendFinalize, hf]
  · unfold Mbuff.headOff appendFinalize
    cases mb.nodes with
    | nil => rfl
    | cons m rest => rfl
  · have hoff := h.off
    unfold appendFinalize
    cases hn : mb.nodes with
    | nil => simp
    | cons m rest =>
      intro n hmem
      rw [hn] at hoff
      simp only [cons_append, tail_cons, mem_append, mem_singleton] at hmem
      rcases hmem with hmem | rfl
      · exact hoff n hmem
      · rfl
  · simpa only [appendFinalize, dropLast_concat] using hfull
  · have hv := h.valid
    simp only [appendFinalize, hv, map_append, map_cons, map_nil, sum_append,
      sum_cons, sum_nil, Node.append_len]
    simp [Node.fresh]
  · simp only [appendFinalize]
    omega

theorem Legit.extends_round (h : mb.Legit) (hp : mb.appendPrepare = some (t, mb1)) (f : AppendFn σ)
    (s : σ) :
    Extends mb (mb1.appendFinalize (t.append f s).2.1 (t.append f s).2.2) (t.appended f s) := by
  rcases appendPrepare_cases hp with ⟨hn, -, he⟩ | ⟨b, hi, hf, rfl, he⟩
  · rw [he]
    exact h.extends_tail hn f s
  · rw [he]
    exact h.extends_fresh hi hf f s

theorem Legit.extends_inline (h : mb.Legit) (hp : mb.appendPrepareInline = some (t, mb1))
    (f : AppendFn σ) (s : σ) :
    Extends mb (mb1.appendFinalize (t.append f s).2.1 (t.append f s).2.2) (t.appended f s) := by
  refine h.extends_round ?_ f s
  rw [appendPrepare, hp]

/-- How many rounds `append` can still have. -/
def rounds (mb : Mbuff) : Nat := mb.free.length + if mb.appendPrepareInline.isSome then 1 else 0

theorem rounds_of_filled (hp : mb.appendPrepare = some (t, mb1)) (f : AppendFn σ) (s : σ)
    (hfill : ¬ (t.append f s).2.2 < t.appendSpace) :
    (mb1.appendFinalize (t.append f s).2.1 (t.append f s).2.2).rounds + 1 ≤ mb.rounds := by
  have hspace : (t.append f s).2.1.appendSpace = 0 := by
    rw [Node.append_appendSpace]
    omega
  have hnone : (mb1.appendFinalize (t.append f s).2.1 (t.append f s).2.2).appendPrepareInline =
      none := by
    simp [appendPrepareInline, appendFinalize, hspace]
  have hr : (mb1.appendFinalize (t.append f s).2.1 (t.append f s).2.2).rounds =
      mb1.free.length := by
    rw [rounds, hnone]
    rfl
  rw [hr, rounds]
  rcases appendPrepare_cases hp with ⟨hn, hpos, he⟩ | ⟨b, hi, hf, rfl, he⟩
  · have hsome : mb.appendPrepareInline.isSome := by
      simp [appendPrepareInline, hn, hpos]
    rw [if_pos hsome, he]
  · rw [hf, length_cons]
    omega

/-- The rule for `append`: what holds of the callback's state and the bytes
appended so far, and is kept by every call, holds at the end. -/
theorem appendLoop_extends {f : AppendFn σ} {R : List UInt8 → σ → Prop}
    (hstep : ∀ out s (t : Node), R out s → R (out ++ t.appended f s) (t.append f s).1) (n : Nat)
    {mb0 : Mbuff} {s : σ} (hR : R out s) (hext : Extends mb0 mb out) :
    ∃ out', Extends mb0 (appendLoop f n s mb).2 out' ∧ R out' (appendLoop f n s mb).1 := by
  induction n generalizing mb out s with
  | zero => exact ⟨out, hext, hR⟩
  | succ n ih =>
    cases hp : mb.appendPrepare with
    | none =>
      rw [appendLoop, hp]
      exact ⟨out, hext, hR⟩
    | some r =>
      obtain ⟨t, mb1⟩ := r
      have hext' := hext.trans (hext.legit.extends_round hp f s)
      rw [appendLoop, hp]
      dsimp only
      split
      · exact ⟨_, hext', hstep out s t hR⟩
      · exact ih (hstep out s t hR) hext'

/-- A callback that asks for `rem s` bytes more and takes what it is offered, as long
as its state is as in `I`. -/
structure Draws (f : AppendFn σ) (rem : σ → Nat) (I : σ → Prop) : Prop where
  count : ∀ s chunk, I s → (f.run s chunk).2.2 = min (rem s) chunk.length
  rest : ∀ s chunk, I s → rem (f.run s chunk).1 = rem s - chunk.length
  keep : ∀ s chunk, I s → I (f.run s chunk).1

/-- The rule for the end of `append`: it ends with a call after which `Q` holds, or
without space, while what holds as long as it goes on still does. -/
theorem appendLoop_last {f : AppendFn σ} {I Q : σ → Prop}
    (hstop : ∀ s (t : Node), I s → 0 < t.appendSpace → (t.append f s).2.2 < t.appendSpace →
      Q (t.append f s).1)
    (hgo : ∀ s (t : Node), I s → 0 < t.appendSpace → (t.append f s).2.2 = t.appendSpace →
      I (t.append f s).1)
    {n : Nat} {s : σ} (hI : I s) (hl : mb.Legit) (hpos : ∀ l ∈ mb.layout, 0 < l)
    (hn : mb.rounds ≤ n) :
    Q (appendLoop f n s mb).1 ∨
      I (appendLoop f n s mb).1 ∧ (appendLoop f n s mb).2.appendAvailSize = 0 := by
  induction n generalizing mb s with
  | zero =>
    right
    have hfree : mb.free = [] := eq_nil_of_length_eq_zero (by unfold rounds at hn; omega)
    have hi : mb.appendPrepareInline = none := by
      by_contra hc
      rw [rounds, if_pos (Option.isSome_iff_ne_none.mpr hc)] at hn
      omega
    rw [appendLoop, Legit.avail_of_no_space hi, hl.free, hfree]
    exact ⟨hI, rfl⟩
  | succ n ih =>
    cases hp : mb.appendPrepare with
    | none =>
      right
      have hi : mb.appendPrepareInline = none := by
        cases hi : mb.appendPrepareInline with
        | none => rfl
        | some r => simp [appendPrepare, hi] at hp
      have hfree : mb.free = [] := by
        cases hfree : mb.free with
        | nil => rfl
        | cons b free => simp [appendPrepare, hi, getFreeNode, hfree] at hp
      rw [appendLoop, hp]
      dsimp only
      rw [Legit.avail_of_no_space hi, hl.free, hfree]
      exact ⟨hI, rfl⟩
    | some r =>
      obtain ⟨t, mb1⟩ := r
      have hext := hl.extends_round hp f s
      have hspace : 0 < t.appendSpace := by
        rcases appendPrepare_cases hp with ⟨-, h, -⟩ | ⟨b, -, hfree, rfl, -⟩
        · exact h
        · exact hpos _ (by simp [layout, hfree, Node.appendSpace, Node.fresh, Node.buffLen])
      have hle := t.append_count_le f s
      rw [appendLoop, hp]
      dsimp only
      split
      · exact Or.inl (hstop s t hI hspace (by omega))
      · refine ih (hgo s t hI hspace (by omega)) hext.legit (hext.layout ▸ hpos) ?_
        have := rounds_of_filled hp f s (by omega)
        omega

/-- Such a callback is called until it has all or there is no space. -/
theorem appendLoop_exit {f : AppendFn σ} {rem : σ → Nat} {I : σ → Prop} (hf : Draws f rem I)
    {n : Nat} {s : σ} (hI : I s) (hl : mb.Legit) (hpos : ∀ l ∈ mb.layout, 0 < l)
    (hn : mb.rounds ≤ n) :
    rem (appendLoop f n s mb).1 = 0 ∨ (appendLoop f n s mb).2.appendAvailSize = 0 := by
  have hcount : ∀ s (t : Node), I s → (t.append f s).2.2 = min (rem s) t.appendSpace := by
    intro s t hI
    rw [← t.appendChunk_length]
    exact hf.count s t.appendChunk hI
  refine (appendLoop_last (Q := fun s => rem s = 0) ?_ ?_ hI hl hpos hn).imp id And.right
  · intro s t hI _ hlt
    have hrest : rem (t.append f s).1 = rem s - t.appendSpace := by
      rw [← t.appendChunk_length]
      exact hf.rest s t.appendChunk hI
    have := hcount s t hI
    omega
  · intro s t hI _ _
    exact hf.keep s t.appendChunk hI

theorem rounds_le (mb : Mbuff) : mb.rounds ≤ mb.free.length + 1 := by
  unfold rounds
  split <;> omega

theorem copyFn_draws : Draws copyFn List.length fun _ => True :=
  ⟨fun _ _ _ => rfl, fun _ _ _ => length_drop, fun _ _ _ => trivial⟩

theorem skipFn_draws : Draws skipFn id fun _ => True :=
  ⟨fun s chunk _ => Nat.min_comm _ _, fun s chunk _ => by simp only [skipFn, id]; omega,
    fun _ _ _ => trivial⟩

theorem Legit.appendFromBuffer (hl : mb.Legit) (hpos : ∀ l ∈ mb.layout, 0 < l) (src : List UInt8)
    (hsrc : src.length ≤ mb.appendAvailSize) :
    (mb.appendFromBuffer src).1 = [] ∧ Extends mb (mb.appendFromBuffer src).2 src := by
  have hstep : ∀ out s (t : Node), out ++ s = src →
      (out ++ t.appended copyFn s) ++ (t.append copyFn s).1 = src := by
    intro out s t h
    change (out ++ (s.take t.appendChunk.length ++ t.appendChunk.drop s.length).take
      (min s.length t.appendChunk.length)) ++ s.drop t.appendChunk.length = src
    rw [take_append_of_le_length (by rw [length_take]; omega), take_take,
      show min (min s.length t.appendChunk.length) t.appendChunk.length =
        min t.appendChunk.length s.length by omega, ← take_eq_take_min, append_assoc,
      take_append_drop, h]
  obtain ⟨out, hext, hR⟩ := appendLoop_extends (R := fun out s => out ++ s = src) hstep
    (mb.free.length + 1) (nil_append src) (Extends.refl hl)
  have hexit := appendLoop_exit (s := src) copyFn_draws trivial hl hpos mb.rounds_le
  have havail := hext.appendAvailSize hl
  have hlen := congrArg List.length hR
  rw [length_append] at hlen
  have hnil : (mb.appendFromBuffer src).1 = [] := by
    apply eq_nil_of_length_eq_zero
    unfold Mbuff.appendFromBuffer append
    rcases hexit with h | h <;> omega
  refine ⟨hnil, ?_⟩
  unfold Mbuff.appendFromBuffer append at hnil
  rw [hnil, append_nil] at hR
  exact hR ▸ hext

theorem Legit.appendUninitialized (hl : mb.Legit) (hpos : ∀ l ∈ mb.layout, 0 < l) (size : Nat)
    (hsize : size ≤ mb.appendAvailSize) :
    ∃ out, Extends mb (mb.appendUninitialized size) out ∧ out.length = size := by
  have hstep : ∀ out s (t : Node), out.length + s = size →
      (out ++ t.appended skipFn s).length + (t.append skipFn s).1 = size := by
    intro out s t h
    rw [length_append, t.appended_length]
    change out.length + min t.appendChunk.length s + (s - min t.appendChunk.length s) = size
    omega
  obtain ⟨out, hext, hR⟩ := appendLoop_extends (R := fun out s => out.length + s = size) hstep
    (mb.free.length + 1) (Nat.zero_add size) (Extends.refl hl)
  have hexit := appendLoop_exit (s := size) skipFn_draws trivial hl hpos mb.rounds_le
  have havail := hext.appendAvailSize hl
  simp only [id] at hexit
  exact ⟨out, hext, by rcases hexit with h | h <;> omega⟩

end Mbuff

end UDepot
