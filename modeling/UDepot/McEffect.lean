import UDepot.McStore
import UDepot.KvSafe
import UDepot.MbuffSane

/-! What `append`, `prepend`, `incr` and `decr` do in one go: if they are acknowledged they
have made the new item of the old one, and if not they have changed nothing. -/

namespace UDepot
open Numerals Bytes Config Function List Option
open Store (Errno KvMap)

/-! ## Prepending a key -/

namespace Mbuff

/-- What fits into the space of a node is prepended in one round. -/
theorem Node.prepend_fits {n : Node} {src : List UInt8} (hlen : 0 < n.len)
    (hle : src.length ≤ n.prependSpace) :
    (n.prepend prependCopyFn src).2.2 = src.length ∧ (n.prepend prependCopyFn src).1 = [] ∧
      (n.prepend prependCopyFn src).2.1.validData = src ++ n.validData := by
  have hcnt : (n.prepend prependCopyFn src).2.2 = src.length := by
    change min src.length n.prependChunk.length = src.length
    rw [n.prependChunk_length]
    omega
  have hnil : (n.prepend prependCopyFn src).1 = [] := by
    change src.take (src.length - n.prependChunk.length) = []
    rw [n.prependChunk_length, Nat.sub_eq_zero_of_le hle, take_zero]
  have hall := n.prepended_copy src
  rw [hnil, nil_append] at hall
  have hbytes := Node.prepend_bytes (n := n) (fun h0 => by omega) prependCopyFn src
  rw [hall] at hbytes
  exact ⟨hcnt, hnil, hbytes⟩

theorem Good.prepend_before {mb : Mbuff} (h : mb.Good) {src : List UInt8} (hb : mb.bytes ≠ [])
    (hlt : src.length < mb.headOff) (hoff : mb.headOff < 4096) :
    (mb.prependFromBuffer src).1 = [] ∧ (mb.prependFromBuffer src).2.bytes = src ++ mb.bytes := by
  obtain ⟨n, rest, hn, hn0, hlen⟩ := h.legit.head_holds h.pages (length_pos_of_ne_nil hb)
    (show mb.headOff + 0 < 4096 by omega)
  have hspace : n.prependSpace = mb.headOff := by rw [Node.prependSpace_of_pos hlen, hn0]
  have hprep : mb.prependPrepare = some (n, { mb with nodes := rest }) := by
    simp only [prependPrepare, prependPrepareInline, hn, if_pos (show 0 < n.prependSpace by omega)]
  obtain ⟨hcnt, hnil, hbytes⟩ := Node.prepend_fits hlen (show src.length ≤ n.prependSpace by omega)
  rw [Mbuff.prependFromBuffer, Mbuff.prepend, Mbuff.prependLoop, hprep]
  dsimp only
  rw [if_pos (.inr (by omega)), prependFinalize, bytes, bytes, hn, flatMap_cons,
    flatMap_cons, hbytes, append_assoc]
  exact ⟨hnil, rfl⟩

/-- If there is no space before the first byte, then there is none of the size of the header
afterwards: the source stands at the end of a buffer, or was not prepended. -/
theorem Good.prepend_behind {mb : Mbuff} (h : mb.Good) {n : Node} {rest : List Node}
    (hn : mb.nodes = n :: rest) (h0 : n.prependSpace = 0) {src : List UInt8} (hpos : 0 < src.length)
    (hle : src.length ≤ 250) :
    ∀ t ∈ (mb.prependFromBuffer src).2.nodes.head?, t.prependSpace ≠ putKeyvalPrefixSize := by
  intro t ht
  rw [Mbuff.prependFromBuffer, Mbuff.prepend, Mbuff.prependLoop] at ht
  cases hp : mb.prependPrepare with
  | none =>
    rw [hp, hn] at ht
    obtain rfl := Option.some.inj ht
    rw [h0]
    decide
  | some r =>
    obtain ⟨x, mb1⟩ := r
    rw [hp] at ht
    dsimp only at ht
    rcases prependPrepare_cases hp with ⟨hx, hsp, -⟩ | ⟨b, -, hf, rfl, -⟩
    · rw [hn] at hx
      obtain ⟨rfl, -⟩ := List.cons.inj hx
      omega
    · have hpage : 4096 ≤ b.data.length := h.pages.le (by simp [layout, hf])
      have hchunk : (Node.fresh b).prependChunk.length = b.data.length := by
        rw [Node.fresh_prependChunk]
      have hcnt : ((Node.fresh b).prepend prependCopyFn src).2.2 = src.length := by
        change min src.length (Node.fresh b).prependChunk.length = src.length
        omega
      rw [hcnt, Node.fresh_prependSpace, if_pos (.inr (by omega)), prependFinalize] at ht
      obtain rfl := Option.some.inj ht
      rw [Node.prependSpace_of_pos (by rw [Node.prepend_len, hcnt]; omega), Node.prepend_off_eq,
        if_pos ⟨rfl, rfl⟩, hcnt, Node.fresh_buffLen, putKeyvalPrefixSize]
      omega

end Mbuff

theorem Config.localPutMbuffIo_head {c : Config} {pad : IoAlloc} {ts n : Nat} {kv : Mbuff}
    (h : (c.localPutMbuffIo pad ts kv n).1 = none) :
    ∃ t ∈ kv.nodes.head?, t.prependSpace = putKeyvalPrefixSize := by
  have hmd : ∃ kv', c.mbuffPrependAppendMd ts kv n (kv.validSize - n) = (none, kv') := by
    rw [localPutMbuffIo] at h
    split at h
    · simp at h
    · exact ⟨_, by assumption⟩
  obtain ⟨kv', hmd⟩ := hmd
  have htrue : (kv.prependInline (Mbuff.hdrFn ⟨n, kv.validSize - n, ts⟩) false).1 = true := by
    by_contra hc
    rw [mbuffPrependAppendMd] at hmd
    simp [hc] at hmd
  rw [Mbuff.prependInline, Mbuff.prependPrepareInline] at htrue
  cases hn : kv.nodes with
  | nil => simp [hn] at htrue
  | cons t rest =>
    refine ⟨t, rfl, ?_⟩
    rw [hn] at htrue
    by_cases hsp : 0 < t.prependSpace
    · simp only [if_pos hsp] at htrue
      by_contra hc
      have hrun : (t.prepend (Mbuff.hdrFn ⟨n, kv.validSize - n, ts⟩) false).1 = false := by
        change (if t.prependChunk.length = putKeyvalPrefixSize then _ else _ :
          Bool × List UInt8 × Nat).1 = false
        rw [if_neg (by rw [t.prependChunk_length]; exact hc)]
      rw [hrun] at htrue
      simp at htrue
    · simp [hsp] at htrue

namespace Memcache

/-! ## Reading the old item -/

variable {mb old : Mbuff} {n : Nat} {env : Env} {m : KvMap} {key data v : List UInt8}

theorem fromEnd_eq (h : n ≤ mb.validSize) (hlt : mb.validSize < 2 ^ 32) :
    fromEnd mb n = mb.validSize - n := by
  rw [fromEnd]
  omega

/-- What the handlers know of the old item: it is what was read of the value, with an expiry
and flags at its end, and it is where it was in the record. -/
structure Old (key v : List UInt8) (old : Mbuff) : Prop where
  good : old.Good
  bytes : old.bytes = seen v
  trailer : trailerSize ≤ old.validSize
  small : old.validSize < 2 ^ 32
  off : old.headOff = putKeyvalPrefixSize + key.length

theorem kvGetForMc_ok {keyMb valMb : Mbuff} (hkey : keyMb.Legit) (hval : valMb.Good)
    (hlen : keyMb.bytes.length ≤ maxKeyLength) (h : kvGetForMc env m keyMb valMb = (none, old)) :
    ∃ v, m keyMb.bytes = some v ∧ Old keyMb.bytes v old := by
  rw [kvGetForMc] at h
  split at h
  · simp at h
  · rename_i val hget
    obtain ⟨v, hv, hg, hb, hoff⟩ := Below.get_ok hkey hval hget
    dsimp only at h
    split at h
    · simp at h
    · rename_i h8
      have hval : val = old := by
        split at h
        · simp at h
        · exact (Prod.mk.inj h).2
      subst hval
      have hsize := hg.legit.validSize_eq
      have hsmall : val.validSize < 2 ^ 32 := by
        rw [hsize, hb, length_take]
        have := Nat.mod_lt v.length (show 0 < 2 ^ 32 by decide)
        omega
      have htrailer : trailerSize ≤ val.validSize := by
        by_contra hc
        rw [Mbuff.copyToBuffer_eq hg.legit, length_take, length_drop, ← hsize, fromEnd] at h8
        rw [trailerSize] at hc h8
        omega
      have hne : val.bytes ≠ [] := by
        intro hc
        rw [hsize, hc] at htrailer
        exact absurd htrailer (by decide)
      refine ⟨v, hv, hg, hb, htrailer, hsmall, hoff hne ?_⟩
      rw [maxKeyLength] at hlen
      rw [putKeyvalPrefixSize]
      omega

theorem keyMb_spec (alloc : IoAlloc)
    (h : key.length ≤ (Mbuff.empty.mbuffAddBuffers alloc key.length).freeSize) :
    ((Mbuff.empty.mbuffAddBuffers alloc key.length).appendFromBuffer key).2.Good ∧
      ((Mbuff.empty.mbuffAddBuffers alloc key.length).appendFromBuffer key).2.bytes = key := by
  obtain ⟨-, h1, h2, -⟩ := (Mbuff.empty_good.mbuffAddBuffers alloc key.length).good.append_first
    (Mbuff.mbuffAddBuffers_nodes _ _ _) _ h
  exact ⟨h1, h2⟩

theorem oldItem_ok {key : Key} (h : oldItem env m key.val = some old) :
    ∃ v, m key.val = some v ∧ Old key.val v old := by
  rw [oldItem] at h
  dsimp only at h
  split at h
  · simp at h
  · rename_i hfree
    obtain ⟨hg, hb⟩ := keyMb_spec env.alloc (Nat.not_lt.mp hfree)
    split at h
    · simp at h
    · split at h
      · simp at h
      · rename_i hget
        obtain rfl := Option.some.inj h
        have hle := key.length_le
        rw [← hb] at hle
        have := kvGetForMc_ok hg.legit Mbuff.empty_good hle hget
        rwa [hb] at this

/-- The block is in the Mbuff, behind the key and space for the header, and there is space
behind it for expiry, flags and checksum. -/
structure Loaded (key data : List UInt8) (mb : Mbuff) : Prop where
  good : mb.Good
  bytes : mb.bytes = key ++ data
  off : mb.headOff = putKeyvalPrefixSize
  space : putKeyvalPrefixSize + key.length + data.length + trailerSize ≤ mb.layout.sum

theorem loadBlock_good (alloc : IoAlloc) (h : mb.Good) (key data : List UInt8) :
    (loadBlock alloc mb key data).2.Good := by
  rw [loadBlock]
  dsimp only
  have h1 := (h.resliceZero.good.mbuffAddBuffers alloc
    (max (putKeyvalPrefixSize + key.length + data.length + 4 + 8 + putKeyvalSuffixSize)
      (data.length + crlf.length))).good
  split
  · exact h1
  · exact ((((h1.append _ _).good.append _ _).good.append _ _).good.reslice _ _).good

theorem loadBlock_spec {alloc : IoAlloc} {mb' : Mbuff} (h : mb.Good) (hkey : key ≠ [])
    (hl : loadBlock alloc mb key data = (true, mb')) :
    Loaded key data mb' ∧ mb'.layout.Perm (mb.resliceZero.mbuffAddBuffers alloc
      (max (putKeyvalPrefixSize + key.length + data.length + 4 + 8 + putKeyvalSuffixSize)
        (data.length + crlf.length))).layout := by
  obtain ⟨hg, hn⟩ := h.fresh alloc
    (max (putKeyvalPrefixSize + key.length + data.length + 4 + 8 + putKeyvalSuffixSize)
      (data.length + crlf.length))
  rw [loadBlock] at hl
  dsimp only at hl
  generalize mb.resliceZero.mbuffAddBuffers alloc _ = mb1 at *
  split at hl
  · simp at hl
  · rename_i hfree
    have hc := hg.cached_of_nil hn
    have hsum := hc.layout_sum
    have hcrlf : crlf.length = 2 := rfl
    have hvlen : (data ++ crlf).length = data.length + 2 := by rw [length_append, hcrlf]
    obtain ⟨pre, mb2, hpre, -, hcopy, hext⟩ := Mbuff.copied_spec hc (k := key) (v := data ++ crlf)
      (by simp only [putKeyvalSuffixSize] at hfree; omega)
    rw [hcopy] at hl
    have hb : mb2.bytes = pre ++ (key ++ data) ++ crlf := by
      rw [hext.bytes, Mbuff.bytes, hn, flatMap_nil, nil_append]
      simp only [append_assoc]
    have hoff : mb2.headOff = 0 := by
      rw [hext.headOff, Mbuff.headOff, hn]
      rfl
    have hsize : mb2.validSize = putKeyvalPrefixSize + (key.length + data.length) + 2 := by
      rw [hext.legit.validSize_eq, hb]
      simp only [length_append, hpre, hcrlf]
    have hkpos := length_pos_of_ne_nil hkey
    obtain ⟨mb3, hre, hleg, hbytes, hperm, hoff3⟩ := hext.legit.reslice_inside
      (hext.layout ▸ hg.pages) (key.length + data.length) putKeyvalPrefixSize
      (by omega) (by omega) (by rw [hoff]; decide)
    rw [hre] at hl
    obtain rfl := (Prod.mk.inj hl).2
    have hp : mb3.layout.Perm mb1.layout := hext.layout ▸ hperm
    refine ⟨⟨(hg.keeps_of_perm hleg hp).good, ?_, by rw [getD_some, hoff3, hoff, Nat.zero_add],
      ?_⟩, by rw [getD_some]; exact hp⟩
    · rw [getD_some, hbytes, hb, append_assoc, ← hpre, drop_left,
        ← length_append, take_left]
    · rw [getD_some, hp.sum_eq, hsum, trailerSize]
      simp only [putKeyvalSuffixSize] at hfree
      omega

theorem loadBlock_ok {alloc : IoAlloc} {mb' : Mbuff} (h : mb.Good) (hkey : key ≠ [])
    (hl : loadBlock alloc mb key data = (true, mb')) : Loaded key data mb' :=
  (loadBlock_spec h hkey hl).1

/-! ## The puts -/

theorem put_rsp {b : Below} {kv : Mbuff}
    (hb : (b.config.localPutMbuffIo b.alloc b.ts kv key.length).1 = none → kv.bytes = key ++ v) :
    if putRsp (b.put m kv key.length .normal).1 = .stored then
      (b.put m kv key.length .normal).2.1 = update m key (some v)
    else (b.put m kv key.length .normal).2.1 = m := by
  cases hp : b.put m kv key.length .normal with
  | mk e r =>
    obtain ⟨m', kv'⟩ := r
    cases e with
    | none =>
      obtain ⟨hio, hm⟩ := Below.put_none hp
      rw [if_pos (show putRsp (none, m', kv').1 = .stored from rfl)]
      rw [hb hio, take_left, drop_left] at hm
      exact hm
    | some e =>
      rw [if_neg (by simp [putRsp])]
      exact Below.put_some hp

theorem putItem_spec {kv : Mbuff} (hmb : mb.Good)
    (hb : (env.config.localPutMbuffIo env.alloc env.ts kv key.length).1 = none →
      kv.bytes = key ++ v) :
    (putItem env m key kv mb).2.2.Good ∧
      if (putItem env m key kv mb).1 = .stored then
        (putItem env m key kv mb).2.1 = update m key (some v)
      else (putItem env m key kv mb).2.1 = m :=
  ⟨hmb, put_rsp hb⟩

theorem prependPut_spec (env : Env) (m : KvMap) (hmb : Loaded key data mb) (hold : Old key v old) :
    (prependPut env m key mb old).2.2.Good ∧
      if (prependPut env m key mb old).1 = .stored then
        (prependPut env m key mb old).2.1 = update m key (some (data ++ seen v))
      else (prependPut env m key mb old).2.1 = m := by
  have h1 := (hmb.good.mbuffAddBuffers env.alloc old.validSize).good
  have hb1 : (mb.mbuffAddBuffers env.alloc old.validSize).bytes = key ++ data := by
    rw [Mbuff.bytes, Mbuff.mbuffAddBuffers_nodes, ← Mbuff.bytes, hmb.bytes]
  rw [prependPut]
  dsimp only
  generalize mb.mbuffAddBuffers env.alloc old.validSize = mb1 at *
  split
  · exact ⟨h1, by rw [if_neg (by simp)]⟩
  · rename_i hfree
    split
    · exact ⟨(h1.appendFromMbuff _ _ _).good, by rw [if_neg (by simp)]⟩
    · obtain ⟨-, hext⟩ := h1.legit.appendFromMbuff h1.pos hold.good.legit
        (show 0 + old.validSize ≤ old.validSize by omega)
        (by rw [Mbuff.appendAvailSize]; omega)
      rw [drop_zero, hold.good.legit.validSize_eq, take_length] at hext
      refine ⟨env.put_good (h1.appendFromMbuff _ _ _).good _ _, put_rsp fun _ => ?_⟩
      rw [hold.good.legit.validSize_eq, hext.bytes, hb1, hold.bytes, append_assoc]

theorem Loaded.block {key : Key} (h : Loaded key.val data mb) :
    ∃ mb', mb.reslice data.length key.val.length = some mb' ∧ mb'.Good ∧ mb'.bytes = data ∧
      trailerSize ≤ mb'.appendAvailSize := by
  have hsize : mb.validSize = key.val.length + data.length := by
    rw [h.good.legit.validSize_eq, h.bytes, length_append]
  have hspace := h.space
  have hk := key.length_le
  rw [maxKeyLength] at hk
  rcases Nat.eq_zero_or_pos data.length with h0 | h0
  · have hc := h.good.cached
    refine ⟨mb.resliceZero, by rw [h0]; exact Mbuff.reslice_nothing (by omega), hc.good, ?_, ?_⟩
    · rw [Mbuff.bytes, hc.nodes, eq_nil_of_length_eq_zero h0]
      rfl
    · rw [hc.avail, ← hc.layout_sum, h.good.resliceZero_perm.sum_eq]
      omega
  · obtain ⟨mb', hre, hleg, hbytes, hperm, hoff⟩ := h.good.legit.reslice_inside h.good.pages
      data.length key.val.length h0 (by omega)
      (by rw [h.off, putKeyvalPrefixSize]; omega)
    have hb : mb'.bytes = data := by
      rw [hbytes, h.bytes, drop_left, take_length]
    have hlay := hleg.layout_sum
    rw [hperm.sum_eq, hoff, h.off, hleg.validSize_eq, hb] at hlay
    exact ⟨mb', hre, (h.good.keeps_of_perm hleg hperm).good, hb, by omega⟩

theorem appendEnd_extends (hmb : mb.Good) (hold : old.Legit) (hn : n ≤ old.validSize)
    (hlt : old.validSize < 2 ^ 32) (hsp : n ≤ mb.appendAvailSize) :
    Mbuff.Extends mb (appendEnd mb old n) (old.bytes.drop (old.validSize - n)) := by
  have hsize := hold.validSize_eq
  rw [appendEnd, fromEnd_eq hn hlt]
  obtain ⟨-, hext⟩ := hmb.legit.appendFromMbuff hmb.pos hold
    (show old.validSize - n + n ≤ old.validSize by omega) hsp
  rwa [take_of_length_le (by rw [length_drop]; omega)] at hext

theorem Old.trailer_copied (h : Old key v old) (hmb : mb.Good)
    (hsp : trailerSize ≤ mb.appendAvailSize) :
    Mbuff.Extends mb (appendEnd mb old trailerSize) (trailerOf (seen v)) := by
  have hext := appendEnd_extends hmb h.good.legit h.trailer h.small hsp
  rwa [h.good.legit.validSize_eq, h.bytes, ← trailerOf] at hext

theorem Old.trailer_length (h : Old key v old) : (trailerOf (seen v)).length = trailerSize := by
  have := h.trailer
  rw [trailerOf, length_drop, ← h.bytes, ← h.good.legit.validSize_eq]
  omega

theorem blockTrailer_spec {key : Key} (hmb : Loaded key.val data mb) (hold : Old key.val v old) :
    (blockTrailer key.val data.length mb old).Good ∧
      (blockTrailer key.val data.length mb old).bytes = data ++ trailerOf (seen v) := by
  obtain ⟨mb1, hre, hg1, hb1, hsp1⟩ := hmb.block
  have hext := hold.trailer_copied hg1 hsp1
  rw [blockTrailer, hre, getD_some]
  exact ⟨(hg1.extends hext).good, by rw [hext.bytes, hb1]⟩

theorem Old.addBuffers (h : Old key v old) (alloc : IoAlloc) (n : Nat) :
    Old key v (old.mbuffAddBuffers alloc n) := by
  have hb : (old.mbuffAddBuffers alloc n).bytes = old.bytes := by
    rw [Mbuff.bytes, Mbuff.mbuffAddBuffers_nodes, Mbuff.bytes]
  have hg := (h.good.mbuffAddBuffers alloc n).good
  have hs : (old.mbuffAddBuffers alloc n).validSize = old.validSize := by
    rw [hg.legit.validSize_eq, hb, h.good.legit.validSize_eq]
  refine ⟨hg, by rw [hb, h.bytes], by rw [hs]; exact h.trailer, by rw [hs]; exact h.small, ?_⟩
  rw [Mbuff.headOff, Mbuff.mbuffAddBuffers_nodes, ← Mbuff.headOff, h.off]

/-- An item without its expiry and flags: the data stay where they are, but without any the
buffers are all free. -/
theorem Old.withoutEnd_spec {key : Key} (h : Old key.val v old) :
    (withoutEnd old trailerSize).Good ∧ (withoutEnd old trailerSize).bytes = dataOf (seen v) ∧
      old.freeSize + trailerSize ≤ (withoutEnd old trailerSize).appendAvailSize ∧
      (dataOf (seen v) ≠ [] →
        (withoutEnd old trailerSize).headOff = putKeyvalPrefixSize + key.val.length) ∧
      (dataOf (seen v) = [] → (withoutEnd old trailerSize).headOff = 0) := by
  have hsize := h.good.legit.validSize_eq
  have ht := h.trailer
  have hk := key.length_le
  have hlay := h.good.legit.layout_sum
  have hfree : old.freeSize ≤ old.appendAvailSize := Nat.le_add_right _ _
  have hdata : (dataOf (seen v)).length = old.validSize - trailerSize := by
    rw [dataOf, length_take, ← h.bytes, ← hsize]
    omega
  rw [maxKeyLength] at hk
  rw [withoutEnd, fromEnd_eq ht h.small]
  rcases Nat.eq_zero_or_pos (old.validSize - trailerSize) with h0 | h0
  · have hc := h.good.cached
    have hnil : dataOf (seen v) = [] := eq_nil_of_length_eq_zero (hdata.trans h0)
    rw [h0, Mbuff.reslice_nothing (Nat.zero_le _), Option.getD_some, hnil]
    refine ⟨hc.good, by rw [Mbuff.bytes, hc.nodes]; rfl, ?_, fun hne => absurd rfl hne,
      fun _ => by rw [Mbuff.headOff, hc.nodes]; rfl⟩
    rw [hc.avail, ← hc.layout_sum, h.good.resliceZero_perm.sum_eq]
    omega
  · obtain ⟨old2, hre, hleg, hbytes, hperm, hoff⟩ := h.good.legit.reslice_inside h.good.pages
      _ 0 h0 (by omega) (by rw [h.off, putKeyvalPrefixSize]; omega)
    have hb : old2.bytes = dataOf (seen v) := by
      rw [hbytes, drop_zero, hsize, h.bytes, dataOf]
    have hlay2 := hleg.layout_sum
    rw [hperm.sum_eq, hleg.validSize_eq, hb, hdata, hoff] at hlay2
    rw [hre, Option.getD_some]
    refine ⟨(h.good.keeps_of_perm hleg hperm).good, hb, by omega, fun _ => by rw [hoff, h.off]; rfl,
      fun hnil => ?_⟩
    rw [hnil, length_nil] at hdata
    omega

/-- The old data with the new behind them and the key in front, if a record can be built of
it. If there are no old data then all buffers were given free, and in front of the new data
there is no space of the size of the header. -/
theorem Old.joined_bytes {key : Key} {new : List UInt8} {src : Mbuff} (h : Old key.val v old)
    (hsrc : src.Legit) (hnew : src.bytes = new) (hpos : 0 < new.length)
    (hfree : new.length ≤ old.freeSize + trailerSize) {c : Config} {pad : IoAlloc} {ts : Nat}
    (hio : (c.localPutMbuffIo pad ts (joined key.val src (withoutEnd old trailerSize)) n).1 =
      none) :
    (joined key.val src (withoutEnd old trailerSize)).bytes =
      key.val ++ (dataOf (seen v) ++ new) := by
  obtain ⟨hg, hb, havail, hhead, hzero⟩ := h.withoutEnd_spec
  have hk := key.length_le
  have hsrcsize := hsrc.validSize_eq
  rw [hnew] at hsrcsize
  rw [maxKeyLength] at hk
  rw [joined, hsrcsize] at hio ⊢
  generalize withoutEnd old trailerSize = data at *
  obtain ⟨-, hext⟩ := hg.legit.appendFromMbuff hg.pos hsrc
    (show 0 + new.length ≤ src.validSize by omega) (by omega)
  rw [drop_zero, hnew, take_length] at hext
  have hg' := (hg.extends hext).good
  have hne : (data.appendFromMbuff src 0 new.length).2.bytes ≠ [] := by
    rw [hext.bytes]
    exact append_ne_nil_of_right_ne_nil _ (ne_nil_of_length_pos hpos)
  by_cases hnil : dataOf (seen v) = []
  · exfalso
    have hoff := hext.headOff.trans (hzero hnil)
    obtain ⟨x, rest, hn, hx0, hxlen⟩ := hg'.legit.head_holds hg'.pages (p := 0)
      (length_pos_of_ne_nil hne) (by rw [hoff]; decide)
    obtain ⟨t, ht, hsp⟩ := Config.localPutMbuffIo_head hio
    exact hg'.prepend_behind hn (by rw [Mbuff.Node.prependSpace_of_pos hxlen, hx0, hoff])
      (length_pos_of_ne_nil key.ne_nil) hk t ht hsp
  · have hoff := hext.headOff.trans (hhead hnil)
    rw [(hg'.prepend_before hne (by rw [hoff, putKeyvalPrefixSize]; omega)
      (by rw [hoff, putKeyvalPrefixSize]; omega)).2, hext.bytes, hb]

theorem appendPut_spec (env : Env) (m : KvMap) {key : Key} (hmb : Loaded key.val data mb)
    (hold : Old key.val v old) :
    (appendPut env m key.val data.length mb old).2.2.Good ∧
      if (appendPut env m key.val data.length mb old).1 = .stored then
        (appendPut env m key.val data.length mb old).2.1 =
          update m key.val (some (dataOf (seen v) ++ data ++ trailerOf (seen v)))
      else (appendPut env m key.val data.length mb old).2.1 = m := by
  have hold1 := hold.addBuffers env.alloc mb.validSize
  have hsize : mb.validSize = key.val.length + data.length := by
    rw [hmb.good.legit.validSize_eq, hmb.bytes, length_append]
  rw [appendPut]
  dsimp only
  generalize old.mbuffAddBuffers env.alloc mb.validSize = old1 at *
  by_cases hfree : old1.freeSize < mb.validSize
  · rw [if_pos hfree]
    exact ⟨hmb.good, by rw [if_neg (by simp)]⟩
  · rw [if_neg hfree]
    obtain ⟨hg, hb⟩ := blockTrailer_spec hmb hold1
    have htr := hold1.trailer_length
    refine putItem_spec hg fun hio => ?_
    rw [hold1.joined_bytes hg.legit hb (by rw [length_append, htr, trailerSize]; omega)
      (by rw [length_append, htr]; omega) hio, append_assoc]

/-! ## Arithmetic -/

theorem oldNumber_eq (h : Old key v old) : oldNumber old = numberOf (seen v) := by
  have hsize := h.good.legit.validSize_eq
  have ht := h.trailer
  have hlen : (dataOf (seen v)).length = old.validSize - trailerSize := by
    rw [dataOf, length_take, ← h.bytes, ← hsize]
    omega
  rw [oldNumber, numberOf, fromEnd_eq ht h.small, hlen]
  split
  · rfl
  · rename_i hle
    rw [Mbuff.copyToBuffer_eq h.good.legit, drop_zero,
      show min 22 (old.validSize - trailerSize) = old.validSize - trailerSize by omega, dataOf,
      ← h.bytes, ← hsize]

/-- The Mbuff of an arithmetic command: it has space for an item with a number of 20
characters. -/
structure Roomy (key : List UInt8) (mb : Mbuff) : Prop where
  good : mb.Good
  space : putKeyvalPrefixSize + key.length + 20 + trailerSize + putKeyvalSuffixSize ≤ mb.layout.sum

theorem arithItem_spec {key : Key} {num : Nat} (hmb : Roomy key.val mb) (hold : Old key.val v old)
    (hnum : num < 2 ^ 64) :
    (arithItem key.val num mb old).Open ∧ (arithItem key.val num mb old).bytes =
        key.val ++ (dec num ++ trailerOf (seen v)) ∧
      (arithItem key.val num mb old).headOff = putKeyvalPrefixSize ∧
      (arithItem key.val num mb old).layout = mb.resliceZero.layout := by
  have hc := hmb.good.cached
  have hsum := hc.layout_sum
  have hspace := hmb.space
  have hdec : (dec num).length ≤ 20 := dec_length_le (by decide) (by omega)
  rw [hmb.good.resliceZero_perm.sum_eq] at hsum
  obtain ⟨pre, mb1, hpre, -, hcopy, hext⟩ := Mbuff.copied_spec hc (k := key.val) (v := dec num)
    (by omega)
  have havail := hext.appendAvailSize hc.legit
  rw [hc.avail] at havail
  simp only [length_append, hpre] at havail
  have hg1 := (hc.good.extends hext).good
  have hext2 := hext.trans (hold.trailer_copied hg1 (by omega))
  have htr := hold.trailer_length
  have hb : (appendEnd mb1 old trailerSize).bytes =
      pre ++ (key.val ++ (dec num ++ trailerOf (seen v))) := by
    rw [hext2.bytes, Mbuff.bytes, hc.nodes, flatMap_nil, nil_append]
    simp only [append_assoc]
  have hoff : (appendEnd mb1 old trailerSize).headOff = 0 := by
    rw [hext2.headOff, Mbuff.headOff, hc.nodes]
    rfl
  obtain ⟨mb2, hre, hopen, hbytes, hoff2, hlay⟩ := hext2.legit.reslice_prefix
    (hext2.layout ▸ hc.pages) hoff hb hpre (by simp [key.ne_nil])
  rw [length_append, length_append, htr, ← Nat.add_assoc] at hre
  rw [arithItem, hcopy]
  dsimp only
  rw [hre, getD_some]
  exact ⟨hopen, hbytes, hoff2, by rw [hlay, hext2.layout]⟩

theorem arithPut_spec (env : Env) (m : KvMap) {key : Key} {num : Nat} (hmb : Roomy key.val mb)
    (hold : Old key.val v old) (hnum : num < 2 ^ 64) :
    (arithPut env m key.val num mb old).2.2.Good ∧
      if (arithPut env m key.val num mb old).1.acked then
        (arithPut env m key.val num mb old).1 = .number (dec num ++ crlf) ∧
          (arithPut env m key.val num mb old).2.1 =
            update m key.val (some (dec num ++ trailerOf (seen v)))
      else (arithPut env m key.val num mb old).2.1 = m := by
  obtain ⟨hopen, hb, -⟩ := arithItem_spec hmb hold hnum
  have hg := env.put_good (m := m) ⟨hopen.legit, hopen.pages⟩ key.val.length .normal
  rw [arithPut]
  generalize arithItem key.val num mb old = kv at *
  cases hp : env.put m kv key.val.length .normal with
  | mk e r =>
    obtain ⟨m', kv'⟩ := r
    rw [hp] at hg
    cases e with
    | none =>
      obtain ⟨-, hm⟩ := Below.put_none hp
      rw [hb, take_left, drop_left] at hm
      exact ⟨hg, rfl, hm⟩
    | some e => exact ⟨hg, Below.put_some hp⟩

/-- The key in the Mbuff of an arithmetic command. The `reslice` behind it fails: there is
no prefix space yet. -/
theorem arithKey_spec {key : Key} (h : mb.Good) (hn : mb.nodes = [])
    (hfree : arithSize key.val ≤ mb.freeSize) :
    Roomy key.val (arithKey key.val mb) ∧ (arithKey key.val mb).bytes = key.val ∧
      (arithKey key.val mb).layout = mb.layout := by
  rw [arithSize] at hfree
  obtain ⟨-, hg2, hb2, -, hlay2⟩ := h.append_first hn key.val (by omega)
  have hsum := (h.cached_of_nil hn).layout_sum
  have hval : (mb.appendFromBuffer key.val).2.validSize = key.val.length := by
    rw [hg2.legit.validSize_eq, hb2]
  have hres : (mb.appendFromBuffer key.val).2.reslice key.val.length putKeyvalPrefixSize =
      none := by
    rw [Mbuff.reslice, if_pos (by rw [hval, putKeyvalPrefixSize]; omega)]
  rw [arithKey, hres, getD_none]
  refine ⟨⟨hg2, ?_⟩, hb2, hlay2⟩
  rw [hlay2, hsum, trailerSize]
  omega

/-- What is needed of a first phase: an answer that comes now is no acknowledgement, and else
the item is there and the Mbuff of the connection is as `R` says. -/
def Starts (m : KvMap) (key : Key) (R : Mbuff → Prop) : (Answer × Mbuff) ⊕ (Mbuff × Mbuff) → Prop
  | .inl (a, mb) => mb.Good ∧ a.acked = false
  | .inr (old, mb) => R mb ∧ ∃ v, m key.val = some v ∧ Old key.val v old

theorem arithNumber_spec {key : Key} (h : Roomy key.val mb)
    (hold : ∃ v, m key.val = some v ∧ Old key.val v old) (o : Option Nat) :
    Starts m key (Roomy key.val) (arithNumber mb old o) := by
  cases o with
  | none => exact ⟨h.good, rfl⟩
  | some n => exact ⟨h, hold⟩

theorem arithRead_spec (env : Env) (m : KvMap) {key : Key} (h : Roomy key.val mb)
    (hb : mb.bytes = key.val) : Starts m key (Roomy key.val) (arithRead env m mb) := by
  have hlen : mb.bytes.length ≤ maxKeyLength := by
    rw [hb]
    exact key.length_le
  have hold : ∀ old, kvGetForMc env m mb .empty = (none, old) →
      ∃ v, m key.val = some v ∧ Old key.val v old := by
    intro old hget
    have hok := kvGetForMc_ok h.good.legit Mbuff.empty_good hlen hget
    rwa [hb] at hok
  rw [arithRead]
  cases hget : kvGetForMc env m mb .empty with
  | mk e old =>
    cases e with
    | some e => exact ⟨h.good, rfl⟩
    | none =>
      dsimp only
      generalize oldNumber old = o
      exact arithNumber_spec h (hold old hget) o

/-- The key in the block of a request, if the block could be made large enough. -/
theorem arithKey_fresh {alloc : IoAlloc} {key : Key} (h : mb.Good)
    (hfree : ¬(mb.resliceZero.mbuffAddBuffers alloc (arithSize key.val)).freeSize <
      arithSize key.val) :
    Roomy key.val
        (arithKey key.val (mb.resliceZero.mbuffAddBuffers alloc (arithSize key.val))) ∧
      (arithKey key.val (mb.resliceZero.mbuffAddBuffers alloc (arithSize key.val))).bytes =
        key.val := by
  obtain ⟨hg, hn⟩ := h.fresh alloc (arithSize key.val)
  obtain ⟨hroom, hb, -⟩ := arithKey_spec hg hn (Nat.not_lt.mp hfree)
  exact ⟨hroom, hb⟩

theorem arithGet_spec (env : Env) (m : KvMap) (key : Key) (h : mb.Good) :
    Starts m key (Roomy key.val) (arithGet env m key.val mb) := by
  rw [arithGet]
  by_cases hfree : (mb.resliceZero.mbuffAddBuffers env.alloc (arithSize key.val)).freeSize <
      arithSize key.val
  · rw [if_pos hfree]
    exact ⟨(h.fresh env.alloc _).1, rfl⟩
  · rw [if_neg hfree]
    obtain ⟨hroom, hb⟩ := arithKey_fresh h hfree
    exact arithRead_spec env m hroom hb

theorem storeRead_spec (env : Env) (m : KvMap) {key : Key} (h : mb.Good) (alloc : IoAlloc) :
    Starts m key (Loaded key.val data)
      (storeRead env m key.val (loadBlock alloc mb key.val data)) := by
  have hg := loadBlock_good alloc h key.val data
  cases hl : loadBlock alloc mb key.val data with
  | mk ok mb' =>
    rw [hl] at hg
    cases ok with
    | false => exact ⟨hg, rfl⟩
    | true =>
      rw [storeRead]
      cases hold : oldItem env m key.val with
      | none => exact ⟨hg, rfl⟩
      | some old => exact ⟨loadBlock_ok h key.ne_nil hl, oldItem_ok hold⟩

/-! ## The commands -/

theorem kvGetForMc_congr (env : Env) {m m' : KvMap} {keyMb : Mbuff}
    (hm : m keyMb.bytes = m' keyMb.bytes) (valMb : Mbuff) :
    kvGetForMc env m keyMb valMb = kvGetForMc env m' keyMb valMb := by
  have hget : env.get m keyMb valMb = env.get m' keyMb valMb := by
    rw [Below.get, Below.get, hm]
  rw [kvGetForMc, kvGetForMc, hget]

theorem oldItem_congr (env : Env) {m' : KvMap} (hm : m key = m' key) :
    oldItem env m key = oldItem env m' key := by
  rw [oldItem, oldItem]
  dsimp only
  by_cases hfree : (Mbuff.empty.mbuffAddBuffers env.alloc key.length).freeSize < key.length
  · rw [if_pos hfree, if_pos hfree]
  · obtain ⟨-, hb⟩ := keyMb_spec env.alloc (Nat.not_lt.mp hfree)
    rw [@kvGetForMc_congr env m m' _ (by rw [hb]; exact hm) .empty]

/-- The first phase looks at the item of the key only. -/
theorem Issue.start_congr (c : Issue) {m' : KvMap} (h : mb.Good) (hm : m c.key.val = m' c.key.val) :
    c.start m mb = c.start m' mb := by
  have hstore : ∀ b, storeRead c.env m c.key.val b = storeRead c.env m' c.key.val b := by
    intro b
    obtain ⟨ok, mb'⟩ := b
    cases ok with
    | false => rfl
    | true => rw [storeRead, storeRead, oldItem_congr c.env hm]
  have harith : arithGet c.env m c.key.val mb = arithGet c.env m' c.key.val mb := by
    rw [arithGet, arithGet]
    by_cases hfree : (mb.resliceZero.mbuffAddBuffers c.env.alloc (arithSize c.key.val)).freeSize <
        arithSize c.key.val
    · rw [if_pos hfree, if_pos hfree]
    · obtain ⟨-, hb⟩ := arithKey_fresh h hfree
      rw [if_neg hfree, if_neg hfree, arithRead, arithRead,
        @kvGetForMc_congr c.env m m' _ (by rw [hb]; exact hm) .empty]
  rw [Issue.start, Issue.start]
  cases c.cmd with
  | append data | prepend data => exact hstore _
  | incr num | decr num => exact harith

theorem safeStrtou_lt {width : Nat} {str : List UInt8} (h : safeStrtou width str = some n) :
    n < 2 ^ width := by
  rw [safeStrtou] at h
  generalize strto str = r at h
  generalize (if r.neg then (2 ^ 64 - value r.digits) % 2 ^ 64 else value r.digits) = l at h
  split_ifs at h
  obtain rfl := Option.some.inj h
  exact Nat.mod_lt _ (Nat.two_pow_pos width)

theorem numberOf_lt (h : numberOf v = some n) : n < 2 ^ 64 := by
  rw [numberOf] at h
  split_ifs at h
  exact safeStrtou_lt h

theorem Rmw.arith_lt (c : Rmw) (v : List UInt8) : c.arith ((numberOf v).getD 0) < 2 ^ 64 := by
  have hv : (numberOf v).getD 0 < 2 ^ 64 := by
    cases hn : numberOf v with
    | none => exact Nat.two_pow_pos 64
    | some n => exact numberOf_lt hn
  cases c with
  | append data | prepend data => exact hv
  | incr num => exact Nat.mod_lt _ (Nat.two_pow_pos 64)
  | decr num =>
    rw [Rmw.arith]
    split
    · exact Nat.two_pow_pos 64
    · omega

theorem acked_rsp (r : Rsp) : (Answer.rsp r).acked = true ↔ r = .stored := by
  cases r <;> decide

/-- The second phase with what the first has found, if it is still there. -/
theorem Issue.finish_spec (c : Issue) (m : KvMap)
    (hv : m c.key.val = some v) (hold : Old c.key.val v old)
    (hmb : match c.cmd with
      | .append data | .prepend data => Loaded c.key.val data mb
      | .incr _ | .decr _ => Roomy c.key.val mb) :
    (c.finish m (old, mb)).2.2.Good ∧
      c.Does (c.finish m (old, mb)).1 m (c.finish m (old, mb)).2.1 := by
  obtain ⟨cmd, key, env, env'⟩ := c
  have harith : ∀ c : Rmw, Roomy key.val mb →
      (arithPut env' m key.val (c.arith ((oldNumber old).getD 0)) mb old).2.2.Good ∧
      if (arithPut env' m key.val (c.arith ((oldNumber old).getD 0)) mb old).1.acked then
        ∃ v, m key.val = some v ∧
          (arithPut env' m key.val (c.arith ((oldNumber old).getD 0)) mb old).1 =
            .number (dec (c.arith ((numberOf (seen v)).getD 0)) ++ crlf) ∧
          (arithPut env' m key.val (c.arith ((oldNumber old).getD 0)) mb old).2.1 =
            update m key.val
              (some (dec (c.arith ((numberOf (seen v)).getD 0)) ++ trailerOf (seen v)))
      else (arithPut env' m key.val (c.arith ((oldNumber old).getD 0)) mb old).2.1 = m := by
    intro c hroom
    rw [oldNumber_eq hold]
    obtain ⟨hg, hput⟩ := arithPut_spec env' m hroom hold (c.arith_lt (seen v))
    refine ⟨hg, ?_⟩
    split at hput
    · rename_i hack
      rw [if_pos hack]
      exact ⟨v, hv, hput⟩
    · rename_i hack
      rw [if_neg hack]
      exact hput
  have hstore : ∀ (c : Rmw) (r : Rsp × KvMap × Mbuff), c.ack (seen v) = .rsp .stored →
      (if r.1 = .stored then r.2.1 = update m key.val (some (c.new (seen v)))
        else r.2.1 = m) →
      Issue.Does ⟨c, key, env, env'⟩ (.rsp r.1) m r.2.1 := by
    intro c r hack hput
    rw [Issue.Does]
    by_cases hst : r.1 = .stored
    · rw [if_pos hst] at hput
      rw [if_pos ((acked_rsp r.1).mpr hst), hst]
      exact ⟨v, hv, hack.symm, hput⟩
    · rw [if_neg hst] at hput
      rw [if_neg (fun hc => hst ((acked_rsp r.1).mp hc))]
      exact hput
  cases cmd with
  | append data =>
    obtain ⟨hg, hput⟩ := appendPut_spec env' m hmb hold
    exact ⟨hg, hstore (.append data) _ rfl hput⟩
  | prepend data =>
    obtain ⟨hg, hput⟩ := prependPut_spec env' m hmb hold
    exact ⟨hg, hstore (.prepend data) _ rfl hput⟩
  | incr num | decr num => exact harith _ hmb

theorem Issue.start_spec (c : Issue) (m : KvMap) (h : mb.Good) :
    Starts m c.key (fun mb' => match c.cmd with
      | .append data | .prepend data => Loaded c.key.val data mb'
      | .incr _ | .decr _ => Roomy c.key.val mb') (c.start m mb) := by
  obtain ⟨cmd, key, env, env'⟩ := c
  cases cmd with
  | append data | prepend data => exact storeRead_spec env m h env.alloc
  | incr num | decr num => exact arithGet_spec env m key h

end Memcache

end UDepot
