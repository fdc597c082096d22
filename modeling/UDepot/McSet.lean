import UDepot.McAtomic

/-! `set`, `add` and `replace` of the memcache front end: the data block goes to the store with its
expiry and its flags behind it. -/

namespace UDepot.Memcache
open Numerals Bytes Config List
open Store (Errno KvMap)

/-- `expiry_` and `flags_` in memory. -/
def trailerBytes (expiry : Int) (flags : Nat) : List UInt8 :=
  le 8 (expiry % 2 ^ 64).toNat ++ le 4 flags

theorem trailerBytes_length (expiry : Int) (flags : Nat) :
    (trailerBytes expiry flags).length = trailerSize := by
  rw [trailerBytes, length_append, le_length, le_length, trailerSize]

/-- The record of a `set`, with the block in the Mbuff. There are not as many bytes as the last
`reslice` asks for: it fails, and what it returns is not looked at. -/
def setItem (key : List UInt8) (vlen : Nat) (expiry : Int) (flags : Nat) (mb : Mbuff) : Mbuff :=
  let storeSize := putKeyvalPrefixSize + key.length + vlen + 4 + 8 + putKeyvalSuffixSize
  let mb := (mb.appendFromBuffer (le 8 (expiry % 2 ^ 64).toNat)).2
  let mb := (mb.appendFromBuffer (le 4 flags)).2
  (mb.reslice storeSize 0).getD mb

def setRsp : Option Errno → Rsp
  | none => .stored
  | some _ => .notStored

/-- `handle_store` of these commands, where the block comes in whole. -/
def handleSet (env : Env) (m : KvMap) (op : PutOp) (key data : List UInt8) (expiry : Int)
    (flags : Nat) (mb : Mbuff) : Rsp × KvMap × Mbuff :=
  match loadBlock env.alloc mb key data with
  | (false, mb) => (.serverError, m, mb)
  | (true, mb) =>
    let p := env.put m (setItem key data.length expiry flags mb) key.length op
    (setRsp p.1, p.2)

variable {data : List UInt8} {mb : Mbuff}

theorem setItem_extends {key : List UInt8} (h : Loaded key data mb) (expiry : Int) (flags : Nat) :
    Mbuff.Extends mb (setItem key data.length expiry flags mb) (trailerBytes expiry flags) := by
  have hlay := h.good.legit.layout_sum
  have hspace := h.space
  rw [h.off, h.good.legit.validSize_eq, h.bytes, length_append] at hlay
  rw [trailerSize] at hspace
  obtain ⟨-, h1⟩ := h.good.legit.appendFromBuffer h.good.pos (le 8 (expiry % 2 ^ 64).toNat)
    (by rw [le_length]; omega)
  have havail := h1.appendAvailSize h.good.legit
  rw [le_length] at havail
  have hg := (h.good.extends h1).good
  obtain ⟨-, h2⟩ := hg.legit.appendFromBuffer hg.pos (le 4 flags) (by rw [le_length]; omega)
  have h12 := h1.trans h2
  have hsize : ((mb.appendFromBuffer (le 8 (expiry % 2 ^ 64).toNat)).2.appendFromBuffer
      (le 4 flags)).2.validSize = key.length + data.length + 12 := by
    rw [h12.legit.validSize_eq, h12.bytes, h.bytes]
    simp only [length_append, le_length]
  rw [setItem, Mbuff.reslice, if_pos (by rw [hsize, putKeyvalPrefixSize]; omega), Option.getD_none]
  exact h12

theorem setItem_bytes {key : List UInt8} (h : Loaded key data mb) (expiry : Int) (flags : Nat) :
    (setItem key data.length expiry flags mb).bytes =
      key ++ (data ++ trailerBytes expiry flags) := by
  rw [(setItem_extends h expiry flags).bytes, h.bytes, append_assoc]

/-- What was acknowledged is stored, with expiry and flags, and else nothing has changed. -/
theorem handleSet_spec (env : Env) (m : KvMap) (op : PutOp) (key : Key) (data : List UInt8)
    (expiry : Int) (flags : Nat) (h : mb.Good) :
    if (handleSet env m op key.val data expiry flags mb).1 = .stored then
      (handleSet env m op key.val data expiry flags mb).2.1 =
        Function.update m key.val (some (data ++ trailerBytes expiry flags))
    else (handleSet env m op key.val data expiry flags mb).2.1 = m := by
  rw [handleSet]
  cases hl : loadBlock env.alloc mb key.val data with
  | mk ok mb' =>
    cases ok with
    | false => exact (if_neg (show ¬ Rsp.serverError = .stored by decide)).mpr rfl
    | true =>
      have hb := setItem_bytes (loadBlock_ok h key.ne_nil hl) expiry flags
      change if setRsp (env.put m (setItem key.val data.length expiry flags mb')
        key.val.length op).1 =
          .stored then
        (env.put m (setItem key.val data.length expiry flags mb') key.val.length op).2.1 = _
        else (env.put m (setItem key.val data.length expiry flags mb') key.val.length op).2.1 = m
      cases hp : env.put m (setItem key.val data.length expiry flags mb') key.val.length op with
      | mk e r =>
        obtain ⟨m', kv'⟩ := r
        cases e with
        | none =>
          obtain ⟨-, hm⟩ := Below.put_none hp
          rw [hb, take_left, drop_left] at hm
          rw [if_pos (show setRsp (none, m', kv').1 = .stored from rfl)]
          exact hm
        | some e =>
          rw [if_neg (by simp [setRsp])]
          exact Below.put_some hp

/-! ## Where nothing fails -/

theorem open_of_page (h : mb.Good) (hlay : mb.layout = [4096]) (hb : mb.bytes ≠ []) : mb.Open := by
  refine ⟨h.legit, h.pages, ?_⟩
  cases hn : mb.nodes with
  | nil =>
    rw [Mbuff.bytes, hn] at hb
    exact absurd rfl hb
  | cons t rest =>
    rw [Mbuff.layout, hn, map_cons, cons_append, List.cons.injEq] at hlay
    obtain rfl := map_eq_nil_iff.mp (append_eq_nil_iff.mp hlay.2).1
    refine ⟨[], t, rfl, ?_⟩
    rw [Mbuff.bytes, hn, flatMap_cons, flatMap_nil, append_nil] at hb
    have := length_pos_of_ne_nil hb
    rwa [Mbuff.Node.validData_length] at this

/-- A small item is stored by `set` on a new connection. -/
theorem Calm.handleSet {env : Env} (h : Calm env) (m : KvMap) (key : Key)
    (hdata : data.length ≤ 1000) (expiry : Int) (flags : Nat) :
    (handleSet env m .normal key.val data expiry flags .empty).1 = .stored ∧
      (handleSet env m .normal key.val data expiry flags .empty).2.1 =
        Function.update m key.val (some (data ++ trailerBytes expiry flags)) := by
  have hk := key.length_le
  rw [maxKeyLength] at hk
  have hcrlf : crlf.length = 2 := rfl
  generalize hsize : max (putKeyvalPrefixSize + key.val.length + data.length + 4 + 8 +
    putKeyvalSuffixSize) (data.length + crlf.length) = size
  rw [hcrlf, putKeyvalPrefixSize, putKeyvalSuffixSize] at hsize
  have hpos : Mbuff.empty.freeSize < size := by
    change 0 < size
    omega
  obtain ⟨b, hb, hblen⟩ := Mbuff.mbuffAddBuffers_spec h.alloc hpos
  have hpage : alignUp (size - Mbuff.empty.freeSize) 4096 = 4096 := by
    rw [alignUp, udivRoundUp]
    change 4096 * ((size - 0 + 4096 - 1) / 4096) = 4096
    omega
  have hlay : (Mbuff.empty.mbuffAddBuffers env.alloc size).layout = [4096] := by
    rw [hb, Mbuff.addBuff_layout, hblen, hpage]
    rfl
  have hfree := freeSize_addBuffers h.alloc .empty size
  have hzero : Mbuff.empty.resliceZero = .empty := rfl
  obtain ⟨mb, hl⟩ : ∃ mb, loadBlock env.alloc .empty key.val data = (true, mb) := by
    rw [loadBlock, hcrlf, putKeyvalPrefixSize, putKeyvalSuffixSize, hsize, hzero]
    dsimp only
    rw [if_neg (by omega)]
    exact ⟨_, rfl⟩
  obtain ⟨hload, hperm⟩ := loadBlock_spec Mbuff.empty_good key.ne_nil hl
  rw [hcrlf, putKeyvalPrefixSize, putKeyvalSuffixSize, hsize, hzero, hlay] at hperm
  have hext := setItem_extends hload expiry flags
  have hbytes := setItem_bytes hload expiry flags
  have hlay' : (setItem key.val data.length expiry flags mb).layout = [4096] := by
    rw [hext.layout, perm_singleton.mp hperm]
  have hopen := open_of_page (hload.good.extends hext).good hlay'
    (by rw [hbytes]; simp [key.ne_nil])
  have hput := h.put m hopen (by rw [hext.headOff, hload.off]) (by
    rw [hlay', hbytes, length_append, length_append, trailerBytes_length,
      putKeyvalPrefixSize, trailerSize, Boxes.room, if_pos (by omega)]
    omega) key.val.length
  have hstored : (Memcache.handleSet env m .normal key.val data expiry flags .empty).1 =
      .stored := by
    rw [Memcache.handleSet, hl]
    dsimp only
    rw [hput]
    rfl
  have hspec := handleSet_spec env m .normal key data expiry flags Mbuff.empty_good
  rw [if_pos hstored] at hspec
  exact ⟨hstored, hspec⟩

end UDepot.Memcache
