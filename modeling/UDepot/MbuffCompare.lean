import UDepot.Lib.Chunks
import UDepot.MbuffCopy

/-! Comparing the bytes of two Mbuffs, and those of an Mbuff with a buffer. -/

namespace UDepot.Mbuff
open Chunks List

/-! ## The source -/

/-- What `iterate_valid_init` leaves: an error, or the chunks that the iterator is going to give,
none for an iterator that has stayed invalid. It fails an assertion if there is no node at the
offset. -/
inductive IterInit where
  | chunks (cs : List (List UInt8))
  | einval
  | crash
deriving DecidableEq

def findChunks : List (List UInt8) → IterInit
  | [] => .crash
  | c :: cs => .chunks (c :: cs)

/-- The sum of offset and length has 64 bits. -/
def iterateValidInit (mb : Mbuff) (off len : Fin (2 ^ 64)) : IterInit :=
  if len.val = 0 then .chunks []
  else if mb.validSize < (off.val + len.val) % 2 ^ 64 then .einval
  else findChunks (chunksFrom mb.nodes off len)

/-- What a comparison comes to: its return value, a failed assertion, or nothing. -/
inductive Compared where
  | ret (code : Nat)
  | crash
  | hang
deriving DecidableEq

/-- The loop of `mem_compare`, with both iterators and the offsets in their chunks. -/
def compareLoop (len : Nat) : Nat → List (List UInt8) → Nat → List (List UInt8) → Nat →
    Nat → Compared
  | 0, _, _, _, _, _ => .hang
  | n + 1, c₁ :: cs₁, o₁, c₂ :: cs₂, o₂, total =>
    if c₁.length ≤ o₁ ∨ c₂.length ≤ o₂ then .crash
    else
      let cmpLen := min (c₁.length - o₁) (c₂.length - o₂)
      if (c₁.drop o₁).take cmpLen ≠ (c₂.drop o₂).take cmpLen then .ret 1
      else
        let i₁ := advance (c₁ :: cs₁) o₁ cmpLen
        let i₂ := advance (c₂ :: cs₂) o₂ cmpLen
        if total + cmpLen = len then if i₁.1 = [] ∧ i₂.1 = [] then .ret 0 else .crash
        else if i₁.1 = [] ∨ i₂.1 = [] then .crash
        else compareLoop len n i₁.1 i₁.2 i₂.1 i₂.2 (total + cmpLen)
  | _ + 1, _, _, _, _, _ => .crash

/-- `mem_compare`. In each round one of the iterators goes on to its next chunk. -/
def memCompare (mb₁ : Mbuff) (off₁ : Fin (2 ^ 64)) (mb₂ : Mbuff) (off₂ len : Fin (2 ^ 64)) :
    Compared :=
  match mb₁.iterateValidInit off₁ len with
  | .crash => .crash
  | .einval => .ret 22
  | .chunks cs₁ =>
    match mb₂.iterateValidInit off₂ len with
    | .crash => .crash
    | .einval => .ret 22
    | .chunks cs₂ => compareLoop len (cs₁.length + cs₂.length + 1) cs₁ 0 cs₂ 0 0

/-- The loop of `mem_compare_buffer`, with the bytes of the buffer that remain. -/
def bufferLoop : List (List UInt8) → Nat → List UInt8 → Compared
  | [], remaining, _ => if remaining = 0 then .ret 0 else .crash
  | c :: cs, remaining, buff =>
    if remaining = 0 then .crash
    else
      let compLen := min remaining c.length
      if c.take compLen ≠ buff.take compLen then .ret 1
      else bufferLoop cs (remaining - compLen) (buff.drop compLen)

def memCompareBuffer (mb : Mbuff) (off : Fin (2 ^ 64)) (buff : List UInt8) (len : Fin (2 ^ 64)) :
    Compared :=
  match mb.iterateValidInit off len with
  | .crash => .crash
  | .einval => .ret 22
  | .chunks cs => bufferLoop cs len buff

/-! ## What it is for -/

structure Chunked where
  mb : Mbuff
  legit : mb.Legit
  pos : ∀ l ∈ mb.layout, 0 < l
  lt : mb.validSize < 2 ^ 64

def Covers (mb : Mbuff) (off len : Nat) : Prop := ∀ i, off ≤ i → i < off + len → i < mb.validSize

def range (mb : Mbuff) (off len : Nat) : List UInt8 := (mb.bytes.drop off).take len

/-- Both comparisons return, and return 0 exactly if what they compare is valid and the same. -/
structure Compares (mb₁ : Mbuff) (off₁ : Fin (2 ^ 64)) (mb₂ : Mbuff) (off₂ len : Fin (2 ^ 64)) :
    Prop where
  mbuffs : ∃ code, memCompare mb₁ off₁ mb₂ off₂ len = .ret code ∧
    (code = 0 ↔ mb₁.Covers off₁ len ∧ mb₂.Covers off₂ len ∧ mb₁.range off₁ len = mb₂.range off₂ len)
  first : ∀ buff : List UInt8, buff.length = len.val →
    ∃ code, memCompareBuffer mb₁ off₁ buff len = .ret code ∧
      (code = 0 ↔ mb₁.Covers off₁ len ∧ mb₁.range off₁ len = buff)
  second : ∀ buff : List UInt8, buff.length = len.val →
    ∃ code, memCompareBuffer mb₂ off₂ buff len = .ret code ∧
      (code = 0 ↔ mb₂.Covers off₂ len ∧ mb₂.range off₂ len = buff)

/-- The end of the range is not mistaken for one inside: it fits in 64 bits, or what is left of it
does not pass. -/
def Fits (mb : Mbuff) (off len : Fin (2 ^ 64)) : Prop :=
  off.val + len.val < 2 ^ 64 ∨ mb.validSize < (off.val + len.val) % 2 ^ 64

/-! ## The iterator -/

theorem covers_iff {mb : Mbuff} {off len : Nat} (h : len ≠ 0) :
    mb.Covers off len ↔ off + len ≤ mb.validSize := by
  constructor
  · intro hc
    have := hc (off + len - 1) (by omega) (by omega)
    omega
  · intro hle i _ hi
    omega

variable {ns : List Node} {off : Fin (2 ^ 64)}

theorem mem_dropLast_cons {n n' : Node} (h : n ∈ ns.dropLast) : n ∈ (n' :: ns).dropLast := by
  cases ns with
  | nil => exact absurd h not_mem_nil
  | cons n'' ns => exact mem_cons_of_mem n' h

theorem nextChunks_ne_nil (hpos : ∀ n ∈ ns.dropLast, 0 < n.len) {len : Nat}
    (hlen : len ≤ (ns.map Node.len).sum) : ∀ c ∈ nextChunks ns len, c ≠ [] := by
  induction ns generalizing len with
  | nil => exact fun c hc => absurd hc not_mem_nil
  | cons n rest ih =>
    rw [nextChunks]
    split
    · exact fun c hc => absurd hc not_mem_nil
    · rename_i h0
      rw [map_cons, sum_cons] at hlen
      have hn : 0 < n.len := by
        cases rest with
        | nil =>
          rw [map_nil, sum_nil] at hlen
          omega
        | cons n' rest => exact hpos n mem_cons_self
      have hrest : ∀ n' ∈ rest.dropLast, 0 < n'.len := fun n' hn' => hpos n' (mem_dropLast_cons hn')
      intro c hc
      rcases mem_cons.mp hc with rfl | hc
      · apply ne_nil_of_length_pos
        rw [length_take, n.validData_length]
        omega
      · exact ih hrest (by omega) c hc

theorem chunksFrom_ne_nil (hpos : ∀ n ∈ ns.tail.dropLast, 0 < n.len) {off len : Nat} (h0 : len ≠ 0)
    (hlen : off + len ≤ (ns.map Node.len).sum) : ∀ c ∈ chunksFrom ns off len, c ≠ [] := by
  induction ns generalizing off with
  | nil => exact fun c hc => absurd hc not_mem_nil
  | cons n rest ih =>
    rw [map_cons, sum_cons] at hlen
    rw [tail_cons] at hpos
    rw [chunksFrom]
    split
    · rename_i hoff
      intro c hc
      rcases mem_cons.mp hc with rfl | hc
      · apply ne_nil_of_length_pos
        rw [length_take, length_drop, n.validData_length]
        omega
      · exact nextChunks_ne_nil hpos (by omega) c hc
    · refine ih (fun n' hn' => hpos n' ?_) (by omega)
      cases rest with
      | nil => exact hn'
      | cons n'' rest => exact mem_dropLast_cons hn'

/-- Behind the first node and before the last one all nodes hold bytes. -/
theorem Chunked.inner_pos (a : Chunked) : ∀ n ∈ a.mb.nodes.tail.dropLast, 0 < n.len := by
  intro n hn
  have hoff := a.legit.off n (mem_of_mem_dropLast hn)
  have hmem : n ∈ a.mb.nodes.dropLast := by
    cases hnodes : a.mb.nodes with
    | nil =>
      rw [hnodes] at hn
      exact absurd hn not_mem_nil
    | cons n' rest =>
      rw [hnodes, tail_cons] at hn
      exact mem_dropLast_cons hn
  have hfull := a.legit.full n hmem
  have hpos := a.pos n.buffLen (mem_append_left _
    (mem_map_of_mem (mem_of_mem_dropLast hmem)))
  omega

theorem Chunked.init_of_covers (a : Chunked) {len : Fin (2 ^ 64)} (h0 : len.val ≠ 0)
    (h : a.mb.Covers off len) : ∃ cs, a.mb.iterateValidInit off len = .chunks cs ∧
      cs.flatten = a.mb.range off len ∧ (∀ c ∈ cs, c ≠ []) ∧ (a.mb.range off len).length = len := by
  have hle := (covers_iff h0).mp h
  have hlt := a.lt
  have hflat := chunksFrom_flatten a.mb.nodes off len
  have hne := chunksFrom_ne_nil a.inner_pos h0 (by rw [← a.legit.valid]; exact hle)
  have hlen : (a.mb.range off len).length = len := by
    rw [range, length_take, length_drop, ← a.legit.validSize_eq]
    omega
  refine ⟨chunksFrom a.mb.nodes off len, ?_, hflat, hne, hlen⟩
  rw [iterateValidInit, if_neg h0, if_neg (by rw [Nat.mod_eq_of_lt (by omega)]; omega)]
  cases hcs : chunksFrom a.mb.nodes off len with
  | nil =>
    rw [hcs] at hflat
    rw [range, bytes, ← hflat] at hlen
    exact absurd hlen.symm h0
  | cons c cs => rfl

theorem init_of_fits {mb : Mbuff} {len : Fin (2 ^ 64)} (h0 : len.val ≠ 0) (h : ¬ mb.Covers off len)
    (hfit : mb.Fits off len) : mb.iterateValidInit off len = .einval := by
  rw [covers_iff h0] at h
  rw [iterateValidInit, if_neg h0, if_pos]
  rcases hfit with hfit | hfit
  · rw [Nat.mod_eq_of_lt hfit]
    omega
  · exact hfit

theorem lt_of_chunksFrom {ns : List Node} {off len : Nat} (h : chunksFrom ns off len ≠ []) :
    off < (ns.map Node.len).sum := by
  induction ns generalizing off with
  | nil => exact absurd rfl h
  | cons n rest ih =>
    rw [map_cons, sum_cons]
    rw [chunksFrom] at h
    split at h
    · omega
    · have := ih h
      omega

/-- A range that wraps around passes: there is no node at its offset, or there are fewer bytes than
asked for. -/
theorem Chunked.init_of_not_fits (a : Chunked) {len : Fin (2 ^ 64)} (h : ¬ a.mb.Fits off len) :
    len.val ≠ 0 ∧ ¬ a.mb.Covers off len ∧
      (a.mb.iterateValidInit off len = .crash ∧ a.mb.validSize ≤ off ∨
        ∃ c cs, a.mb.iterateValidInit off len = .chunks (c :: cs) ∧ off < a.mb.validSize ∧
          (c :: cs).flatten.length < len) := by
  rw [Fits, not_or] at h
  have hlt := a.lt
  have hoff := off.isLt
  have h0 : len.val ≠ 0 := by omega
  have hsize := a.legit.validSize_eq
  have hflat := chunksFrom_flatten a.mb.nodes off len
  have hshort : (a.mb.bytes.drop off).length < len := by
    rw [length_drop]
    omega
  rw [← bytes, take_of_length_le hshort.le] at hflat
  refine ⟨h0, fun hc => ?_, ?_⟩
  · rw [covers_iff h0] at hc
    omega
  · rw [iterateValidInit, if_neg h0, if_neg h.2]
    cases hcs : chunksFrom a.mb.nodes off len with
    | nil =>
      rw [hcs] at hflat
      refine .inl ⟨rfl, ?_⟩
      rw [hsize]
      exact drop_eq_nil_iff.mp hflat.symm
    | cons c cs =>
      have hin := @lt_of_chunksFrom a.mb.nodes off len (by rw [hcs]; exact cons_ne_nil c cs)
      rw [hcs] at hflat
      exact .inr ⟨c, cs, rfl, by rw [a.legit.valid]; exact hin, by rw [hflat]; exact hshort⟩

/-! ## The loops -/

theorem compareLoop_eq {len fuel total o₁ o₂ : Nat} {cs₁ cs₂ : List (List UInt8)}
    (h₁ : Proper cs₁ o₁) (h₂ : Proper cs₂ o₂) (hne : cs₁ ≠ [])
    (hlen : (rest cs₁ o₁).length = (rest cs₂ o₂).length)
    (htotal : total + (rest cs₁ o₁).length = len) (hfuel : cs₁.length + cs₂.length ≤ fuel) :
    compareLoop len fuel cs₁ o₁ cs₂ o₂ total =
      if rest cs₁ o₁ = rest cs₂ o₂ then .ret 0 else .ret 1 := by
  induction fuel generalizing cs₁ cs₂ o₁ o₂ total with
  | zero => exact absurd (eq_nil_of_length_eq_zero (by omega)) hne
  | succ fuel ih =>
    have hne₂ : cs₂ ≠ [] := by
      intro hnil
      rw [h₂.rest_eq_nil_iff.mpr hnil, length_nil] at hlen
      exact hne (h₁.rest_eq_nil_iff.mp (eq_nil_of_length_eq_zero hlen))
    obtain ⟨c₁, cs₁, rfl⟩ := exists_cons_of_ne_nil hne
    obtain ⟨c₂, cs₂, rfl⟩ := exists_cons_of_ne_nil hne₂
    have hlt₁ := h₁.lt_head
    have hlt₂ := h₂.lt_head
    rw [compareLoop, if_neg (by omega)]
    dsimp only
    generalize hk : min (c₁.length - o₁) (c₂.length - o₂) = k
    have hk₁ : o₁ + k ≤ c₁.length := by omega
    have hk₂ : o₂ + k ≤ c₂.length := by omega
    have hp₁ := h₁.advance hk₁
    have hp₂ := h₂.advance hk₂
    have hlong : k ≤ (rest (c₁ :: cs₁) o₁).length := by
      rw [rest_cons hlt₁.le, length_append, length_drop]
      omega
    have ht₁ : (rest (c₁ :: cs₁) o₁).take k = (c₁.drop o₁).take k := take_rest hk₁
    have ht₂ : (rest (c₂ :: cs₂) o₂).take k = (c₂.drop o₂).take k := take_rest hk₂
    have hr₁ : rest (advance (c₁ :: cs₁) o₁ k).1 (advance (c₁ :: cs₁) o₁ k).2 =
      (rest (c₁ :: cs₁) o₁).drop k := rest_advance
    have hr₂ : rest (advance (c₂ :: cs₂) o₂ k).1 (advance (c₂ :: cs₂) o₂ k).2 =
      (rest (c₂ :: cs₂) o₂).drop k := rest_advance
    rw [← ht₁, ← ht₂]
    by_cases heq : (rest (c₁ :: cs₁) o₁).take k = (rest (c₂ :: cs₂) o₂).take k
    · have hiff : rest (c₁ :: cs₁) o₁ = rest (c₂ :: cs₂) o₂ ↔
          (rest (c₁ :: cs₁) o₁).drop k = (rest (c₂ :: cs₂) o₂).drop k := by
        refine ⟨fun h => by rw [h], fun h => ?_⟩
        rw [← take_append_drop k (rest (c₁ :: cs₁) o₁), heq, h, take_append_drop]
      rw [if_neg (not_not.mpr heq)]
      by_cases hdone : total + k = len
      · have hnil₁ : (rest (c₁ :: cs₁) o₁).drop k = [] := drop_eq_nil_of_le (by omega)
        have hnil₂ : (rest (c₂ :: cs₂) o₂).drop k = [] := drop_eq_nil_of_le (by omega)
        rw [if_pos hdone, if_pos ⟨hp₁.rest_eq_nil_iff.mp (hr₁.trans hnil₁),
          hp₂.rest_eq_nil_iff.mp (hr₂.trans hnil₂)⟩, if_pos (hiff.mpr (hnil₁.trans hnil₂.symm))]
      · have hnil₁ : (advance (c₁ :: cs₁) o₁ k).1 ≠ [] := by
          intro hnil
          have h := hr₁.symm.trans (hp₁.rest_eq_nil_iff.mpr hnil)
          rw [drop_eq_nil_iff] at h
          omega
        have hnil₂ : (advance (c₂ :: cs₂) o₂ k).1 ≠ [] := by
          intro hnil
          have h := hr₂.symm.trans (hp₂.rest_eq_nil_iff.mpr hnil)
          rw [drop_eq_nil_iff] at h
          omega
        have hless : (advance (c₁ :: cs₁) o₁ k).1.length + (advance (c₂ :: cs₂) o₂ k).1.length ≤
            fuel := by
          -- one of the chunks was compared to its end
          rw [advance_length, advance_length]
          simp only [length_cons] at hfuel
          split <;> split <;> omega
        rw [if_neg hdone, if_neg (not_or.mpr ⟨hnil₁, hnil₂⟩),
          ih hp₁ hp₂ hnil₁ (by rw [hr₁, hr₂, length_drop, length_drop, hlen])
            (by rw [hr₁, length_drop]; omega) hless, hr₁, hr₂]
        simp only [hiff]
    · rw [if_pos heq, if_neg fun h => heq (by rw [h])]

theorem bufferLoop_eq {cs : List (List UInt8)} {remaining : Nat} {buff : List UInt8}
    (hne : ∀ c ∈ cs, c ≠ []) (hlen : cs.flatten.length = remaining)
      (hbuff : buff.length = remaining) :
    bufferLoop cs remaining buff = if cs.flatten = buff then .ret 0 else .ret 1 := by
  induction cs generalizing remaining buff with
  | nil =>
    obtain rfl : remaining = 0 := hlen.symm
    rw [eq_nil_of_length_eq_zero hbuff]
    rfl
  | cons c cs ih =>
    rw [flatten_cons, length_append] at hlen
    have hc := length_pos_of_ne_nil (hne c mem_cons_self)
    rw [bufferLoop, if_neg (by omega)]
    dsimp only
    rw [show min remaining c.length = c.length by omega, take_length, flatten_cons]
    have hbuff' : buff = buff.take c.length ++ buff.drop c.length := (take_append_drop _ _).symm
    by_cases heq : c = buff.take c.length
    · rw [if_neg (not_not.mpr heq), ih (fun d hd => hne d (mem_cons_of_mem c hd)) (by omega)
        (by rw [length_drop]; omega)]
      have hiff : cs.flatten = buff.drop c.length ↔ c ++ cs.flatten = buff := by
        constructor
        · intro h
          rw [h, hbuff', ← heq, drop_left]
        · intro h
          rw [← h, drop_left]
      simp only [hiff]
    · rw [if_pos heq, if_neg]
      intro h
      exact heq (by rw [← h, take_left])

theorem bufferLoop_short (cs : List (List UInt8)) {remaining : Nat}
    (h : cs.flatten.length < remaining)
    (more : List UInt8) : bufferLoop cs remaining (cs.flatten ++ more) = .crash := by
  induction cs generalizing remaining with
  | nil => exact if_neg (by rw [flatten_nil, length_nil] at h; omega)
  | cons c cs ih =>
    rw [flatten_cons, length_append] at h
    rw [bufferLoop, if_neg (by omega)]
    dsimp only
    rw [show min remaining c.length = c.length by omega, take_length, flatten_cons,
      append_assoc, take_left, if_neg (by simp), drop_left, ih (by omega)]

/-! ## The comparisons -/

section Comparisons

variable (a b : Chunked) {off₁ off₂ len : Fin (2 ^ 64)}

theorem memCompareBuffer_spec (h0 : len.val ≠ 0) (hfit : a.mb.Fits off₁ len) {buff : List UInt8}
    (hbuff : buff.length = len.val) : ∃ code, a.mb.memCompareBuffer off₁ buff len = .ret code ∧
      (code = 0 ↔ a.mb.Covers off₁ len ∧ a.mb.range off₁ len = buff) := by
  rw [memCompareBuffer]
  by_cases hc : a.mb.Covers off₁ len
  · obtain ⟨cs, hinit, hflat, hne, hlen⟩ := a.init_of_covers h0 hc
    rw [hinit]
    dsimp only
    rw [bufferLoop_eq hne (by rw [hflat]; exact hlen) hbuff, hflat]
    by_cases heq : a.mb.range off₁ len = buff
    · exact ⟨0, if_pos heq, iff_of_true rfl ⟨hc, heq⟩⟩
    · exact ⟨1, if_neg heq, iff_of_false Nat.one_ne_zero fun h => heq h.2⟩
  · rw [init_of_fits h0 hc hfit]
    exact ⟨22, rfl, iff_of_false (by decide) fun h => hc h.1⟩

theorem memCompareBuffer_crash (h : ¬ a.mb.Fits off₁ len) :
    ∃ buff : List UInt8, buff.length = len.val ∧ a.mb.memCompareBuffer off₁ buff len = .crash := by
  obtain ⟨-, -, ⟨hcrash, -⟩ | ⟨c, cs, hinit, -, hshort⟩⟩ := a.init_of_not_fits h
  · refine ⟨List.replicate len 0, length_replicate, ?_⟩
    rw [memCompareBuffer, hcrash]
  · refine ⟨(c :: cs).flatten ++ List.replicate (len - (c :: cs).flatten.length) 0, ?_, ?_⟩
    · rw [length_append, length_replicate]
      omega
    · rw [memCompareBuffer, hinit]
      exact bufferLoop_short (c :: cs) hshort _

theorem memCompare_spec (h0 : len.val ≠ 0) (hfit₁ : a.mb.Fits off₁ len)
    (hfit₂ : b.mb.Fits off₂ len) :
    ∃ code, memCompare a.mb off₁ b.mb off₂ len = .ret code ∧
      (code = 0 ↔ a.mb.Covers off₁ len ∧ b.mb.Covers off₂ len ∧
        a.mb.range off₁ len = b.mb.range off₂ len) := by
  rw [memCompare]
  by_cases hc₁ : a.mb.Covers off₁ len
  · obtain ⟨cs₁, hinit₁, hflat₁, hne₁, hlen₁⟩ := a.init_of_covers h0 hc₁
    rw [hinit₁]
    dsimp only
    by_cases hc₂ : b.mb.Covers off₂ len
    · obtain ⟨cs₂, hinit₂, hflat₂, hne₂, hlen₂⟩ := b.init_of_covers h0 hc₂
      have hrest₁ : rest cs₁ 0 = a.mb.range off₁ len := by rw [rest, drop_zero, hflat₁]
      have hrest₂ : rest cs₂ 0 = b.mb.range off₂ len := by rw [rest, drop_zero, hflat₂]
      have hcs₁ : cs₁ ≠ [] := by
        rintro rfl
        rw [← hflat₁] at hlen₁
        exact h0 hlen₁.symm
      rw [hinit₂]
      dsimp only
      rw [compareLoop_eq (proper_zero hne₁) (proper_zero hne₂) hcs₁
        (by rw [hrest₁, hrest₂, hlen₁, hlen₂])
        (by rw [hrest₁, hlen₁, Nat.zero_add]) (Nat.le_succ _), hrest₁, hrest₂]
      by_cases heq : a.mb.range off₁ len = b.mb.range off₂ len
      · exact ⟨0, if_pos heq, iff_of_true rfl ⟨hc₁, hc₂, heq⟩⟩
      · exact ⟨1, if_neg heq, iff_of_false Nat.one_ne_zero fun h => heq h.2.2⟩
    · rw [init_of_fits h0 hc₂ hfit₂]
      exact ⟨22, rfl, iff_of_false (by decide) fun h => hc₂ h.2.1⟩
  · rw [init_of_fits h0 hc₁ hfit₁]
    exact ⟨22, rfl, iff_of_false (by decide) fun h => hc₁ h.1⟩

end Comparisons

theorem memCompare_zero (mb₁ mb₂ : Mbuff) {off₁ off₂ len : Fin (2 ^ 64)} (h : len.val = 0) :
    memCompare mb₁ off₁ mb₂ off₂ len = .crash := by
  rw [memCompare, iterateValidInit, if_pos h, iterateValidInit, if_pos h]
  rfl

/-- The comparisons are right exactly if there is a byte to compare and no range wraps around into
the valid bytes. -/
theorem compares_iff (a b : Chunked) (off₁ off₂ len : Fin (2 ^ 64)) :
    Compares a.mb off₁ b.mb off₂ len ↔
      len.val ≠ 0 ∧ a.mb.Fits off₁ len ∧ b.mb.Fits off₂ len := by
  constructor
  · intro h
    have hfit : ∀ {mb : Chunked} {off : Fin (2 ^ 64)}, (∀ buff : List UInt8, buff.length = len.val →
        ∃ code, memCompareBuffer mb.mb off buff len = .ret code) → mb.mb.Fits off len := by
      intro mb off hbuff
      by_contra hfit
      obtain ⟨buff, hlen, hcrash⟩ := memCompareBuffer_crash mb hfit
      obtain ⟨code, hret⟩ := hbuff buff hlen
      exact Compared.noConfusion (hcrash.symm.trans hret)
    refine ⟨fun h0 => ?_, hfit fun buff hb => (h.first buff hb).imp fun _ => And.left,
      hfit fun buff hb => (h.second buff hb).imp fun _ => And.left⟩
    obtain ⟨code, hret, -⟩ := h.mbuffs
    exact Compared.noConfusion ((memCompare_zero a.mb b.mb h0).symm.trans hret)
  · rintro ⟨h0, hfit₁, hfit₂⟩
    exact ⟨memCompare_spec a b h0 hfit₁ hfit₂, fun _ => memCompareBuffer_spec a h0 hfit₁,
      fun _ => memCompareBuffer_spec b h0 hfit₂⟩

/-- The bytes 1 to 5 in three chunks. -/
def threeChunks : Chunked where
  mb := ⟨[⟨⟨0, [9, 1, 2]⟩, 1, 2, by decide⟩, ⟨⟨1, [3]⟩, 0, 1, by decide⟩,
    ⟨⟨2, [4, 5, 9]⟩, 0, 2, by decide⟩], 5, [], 0⟩
  legit := ⟨by decide, by decide, by decide, by decide⟩
  pos := by decide
  lt := by decide

/-- The same bytes in two. -/
def twoChunks : Chunked where
  mb := ⟨[⟨⟨0, [1, 2, 3, 4]⟩, 0, 4, by decide⟩, ⟨⟨1, [5, 9]⟩, 0, 1, by decide⟩], 5, [], 0⟩
  legit := ⟨by decide, by decide, by decide, by decide⟩
  pos := by decide
  lt := by decide

/-- Four bytes over the seams of both. -/
theorem compares_chunks : memCompare threeChunks.mb 1 twoChunks.mb 1 4 = .ret 0 ∧
    Compares threeChunks.mb 1 twoChunks.mb 1 4 :=
  ⟨by decide, (compares_iff threeChunks twoChunks 1 1 4).mpr
    ⟨by decide, .inl (by decide), .inl (by decide)⟩⟩

/-- Two empty ranges are the same, and comparing them fails an assertion. -/
theorem empty_ranges_crash :
    memCompare ⟨[], 0, [], 0⟩ 0 ⟨[], 0, [], 0⟩ 0 0 = .crash ∧ Covers ⟨[], 0, [], 0⟩ 0 0 ∧
      ¬ Compares ⟨[], 0, [], 0⟩ 0 ⟨[], 0, [], 0⟩ 0 0 := by
  have hcrash : memCompare ⟨[], 0, [], 0⟩ 0 ⟨[], 0, [], 0⟩ 0 0 = .crash := memCompare_zero _ _ rfl
  refine ⟨hcrash, fun i _ hi => absurd hi (Nat.not_lt_zero i), fun h => ?_⟩
  obtain ⟨code, hret, -⟩ := h.mbuffs
  exact Compared.noConfusion (hcrash.symm.trans hret)

end UDepot.Mbuff
