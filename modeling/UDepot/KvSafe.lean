import UDepot.KvServer

/-! What a request can do to the key-value server and to the store behind it, whatever
header and body the client sends and however they are split into receives. -/

namespace UDepot
open Bytes List Option
open Store (Errno)

/-- `HashFn::hash` of part of an Mbuff. The error of `iterate_valid_init` is not looked
at: without a valid iterator it is the hash of nothing. -/
def Mbuff.hash (h : List UInt8 → Nat) (malloc : Bool) (mb : Mbuff) (off len : Nat) :
    Except Errno Nat :=
  match mb.iterateValid off len with
  | none | some [] => .ok (h [])
  | some [c] => .ok (h c)
  | some _ =>
    -- `hash_copy`
    if malloc = false then .error .enomem
    else if (mb.copyToBuffer off len).length ≠ len then .error .einval
    else .ok (h (mb.copyToBuffer off len))

namespace Config

variable (c : Config)

/-- The hash and the record of a `put` of an Mbuff, up to the write; `none` if it fails
before, with an error or, if the key is longer than the Mbuff, an assertion. -/
def putRecord (malloc : Bool) (pad : IoAlloc) (ts : Nat) (keyval : Mbuff) (keySize : Nat) :
    Option (Nat × List UInt8) :=
  match keyval.hash c.hash malloc 0 keySize with
  | .error _ => none
  | .ok h =>
    if keyval.validSize < keySize then none
    else
      match c.localPutMbuffIo pad ts keyval keySize with
      | (some _, _) => none
      | (none, kv) => some (h, kv.bytes)

/-- What `get` of a key does with a record of its hash: the value if it is that of the
key. `none` is a failed assertion: `mem_compare` wants a byte to compare, and `get` a
value that is not empty. -/
def getRecord (m : Nat → UInt8) (g : Nat) (key : List UInt8) : Option (Option (List UInt8)) :=
  if (c.readHeader m g).keySize = key.length then
    if key = [] then none
    else if c.recKey m g = key then
      if (c.readHeader m g).valSize = 0 then none else some (some (c.recVal m g))
    else some none
  else some none

/-- The record `bs`, stored under the hash `h`, is found under the key and holds the value,
wherever it is written. -/
def Readable (h : Nat) (bs key val : List UInt8) : Prop :=
  h = c.hash key ∧ ∀ m g, c.getRecord (write m (g * c.grainSize) bs) g key = some (some val)

end Config

namespace KvServer
open Socket

/-- The request was answered, failed or closed the connection, the store was called only
with what the header and the client's bytes say, and the connection's Mbuffs are such that
the next request finds them as this one did. -/
structure Safe (hdr : ReqHdr) (body : List UInt8) (o : Served) : Prop where
  ends : o.ending ≠ .abort ∧ o.ending ≠ .assertion
  good : o.reqBody.Good ∧ o.result.Good
  put : ∀ keyval n, .put keyval n ∈ o.calls →
    n = hdr.keyLen.toNat ∧ n ≤ keyval.bytes.length ∧
      keyval.bytes.length = hdr.keyLen.toNat + hdr.valLen.toNat ∧
      ∀ (c : Config) malloc pad ts h bs,
        c.putRecord malloc pad ts keyval n = some (h, bs) →
          c.Readable h bs (body.take hdr.keyLen.toNat)
            ((body.drop hdr.keyLen.toNat).take hdr.valLen.toNat)
  get : ∀ key, .get key ∈ o.calls →
    hdr.keyLen.toNat ≤ body.length ∧ key.bytes = body.take hdr.keyLen.toNat

/-- The operation is one of the four. If it is a `PUT` and as many bytes follow as the sum
of the two lengths in 32 bits, then the sum did not wrap around; and the request is empty,
or the key has between 1 and 65535 bytes and the value at least one. -/
def Sound (hdr : ReqHdr) (body : List UInt8) : Prop :=
  hdr.known ≠ none ∧
    (hdr.known = some .put → (hdr.keyLen + hdr.valLen).toNat ≤ body.length →
      hdr.keyLen.toNat + hdr.valLen.toNat < 2 ^ 32 ∧
        (hdr.keyLen.toNat = 0 ∧ hdr.valLen.toNat = 0 ∨
          0 < hdr.keyLen.toNat ∧ hdr.keyLen.toNat < 2 ^ 16 ∧ 0 < hdr.valLen.toNat))

end KvServer

/-! ## The record of a `put` -/

namespace Mbuff

theorem Legit.hash_eq {mb : Mbuff} (hl : mb.Legit) (h : List UInt8 → Nat) {off len : Nat}
    (hle : off + len ≤ mb.validSize) (malloc : Bool) :
    mb.hash h malloc off len = .ok (h ((mb.bytes.drop off).take len)) ∨
      malloc = false ∧ mb.hash h malloc off len = .error .enomem := by
  have hcopy := copyToBuffer_eq hl off len
  have hlen : ((mb.bytes.drop off).take len).length = len := by
    rw [length_take, length_drop, ← hl.validSize_eq]
    omega
  obtain ⟨cs, hcs, hflat⟩ := iterateValid_some hle
  rw [hash, hcs]
  match cs with
  | [] =>
    rw [← hflat]
    exact .inl rfl
  | [c] =>
    rw [← hflat, flatten_cons, flatten_nil, append_nil]
    exact .inl rfl
  | c :: c' :: cs =>
    dsimp only
    cases malloc with
    | false => exact .inr ⟨rfl, if_pos rfl⟩
    | true => rw [if_neg (by simp), hcopy, if_neg (by rw [hlen]; simp)]; exact .inl rfl

theorem Good.mbuffAppendPadding_bytes {mb mb' : Mbuff} (h : mb.Good) {alloc : IoAlloc}
    {padding : Nat} (hp : mb.mbuffAppendPadding alloc padding = (none, mb')) :
    mb'.bytes = mb.bytes ++ List.replicate padding 0 := by
  have hg : Good (if mb.appendAvailSize < padding then
      mb.mbuffAddBuffers alloc (padding - mb.freeSize) else mb) := by
    split
    · exact (h.mbuffAddBuffers alloc _).good
    · exact h
  have hb : bytes (if mb.appendAvailSize < padding then
      mb.mbuffAddBuffers alloc (padding - mb.freeSize) else mb) = mb.bytes := by
    split
    · rw [bytes, mbuffAddBuffers_nodes, bytes]
    · rfl
  rw [Mbuff.mbuffAppendPadding] at hp
  dsimp only at hp
  generalize (if mb.appendAvailSize < padding then
      mb.mbuffAddBuffers alloc (padding - mb.freeSize) else mb) = mb1 at *
  split at hp
  · simp at hp
  · rename_i hsp
    obtain ⟨-, hext⟩ := hg.legit.append_zeros hg.pos padding (by omega)
    rw [← (Prod.mk.inj hp).2, hext.bytes, hb]

end Mbuff

namespace Config

variable {c : Config} {kv kv' : Mbuff} {k v : List UInt8} {pad : IoAlloc} {ts : Nat}

theorem mbuffPrependAppendMd_open (h : kv.Open) (hoff : kv.headOff = putKeyvalPrefixSize)
    (n m : Nat) :
    ∃ kv1, kv1.Open ∧
      if 2 ≤ Boxes.room kv.layout (putKeyvalPrefixSize + kv.bytes.length) then
        c.mbuffPrependAppendMd ts kv n m = (none, kv1) ∧
          kv1.bytes = headerBytes ⟨n, m, ts⟩ ++ kv.bytes ++
            le 2 (c.checksum16 ts (headerBytes ⟨n, m, ts⟩))
      else c.mbuffPrependAppendMd ts kv n m = (some .einval, kv1) := by
  obtain ⟨kv1, hhdr, hopen1, hbytes1, hoff1, hlay1⟩ := h.prepend_hdr hoff ⟨n, m, ts⟩
  have hsize : kv1.headOff + kv1.validSize = putKeyvalPrefixSize + kv.bytes.length := by
    rw [hoff1, hopen1.legit.validSize_eq, hbytes1, length_append, headerBytes_length,
      putKeyvalPrefixSize]
    omega
  obtain ⟨kv2, hopen2, -, hcrc⟩ := hopen1.append_crc (c.checksum16 ts (headerBytes ⟨n, m, ts⟩))
  rw [hsize, hlay1] at hcrc
  refine ⟨kv2, hopen2, ?_⟩
  rw [mbuffPrependAppendMd]
  rw [hhdr]
  split
  · rename_i hroom
    rw [if_pos hroom] at hcrc
    rw [hcrc.1, hcrc.2.bytes, hbytes1]
    exact ⟨rfl, rfl⟩
  · rename_i hroom
    rw [if_neg hroom] at hcrc
    rw [hcrc]
    rfl

/-- What is written for key and value, if nothing fails, is their record. -/
theorem localPutMbuffIo_bytes (h : kv.Open) (hoff : kv.headOff = putKeyvalPrefixSize)
    (hb : kv.bytes = k ++ v) (hio : c.localPutMbuffIo pad ts kv k.length = (none, kv')) :
    kv'.bytes = c.recordBytes ts k v := by
  have hsize : kv.validSize = k.length + v.length := by
    rw [h.legit.validSize_eq, hb, length_append]
  obtain ⟨kv1, hopen1, hmd⟩ := @mbuffPrependAppendMd_open c kv ts h hoff k.length v.length
  rw [localPutMbuffIo, hsize, Nat.add_sub_cancel_left] at hio
  split at hmd
  · rw [hmd.1] at hio
    rw [Mbuff.Good.mbuffAppendPadding_bytes ⟨hopen1.legit, hopen1.pages⟩ hio, hmd.2, hb,
      recordBytes, ioSizeGrains]
    simp only [append_assoc, length_append, headerBytes_length, le_length]
    congr 6
    simp only [putKeyvalPrefixSize, putKeyvalSuffixSize]
    omega
  · rw [hmd] at hio
    simp at hio

/-- With grains of one byte there is no padding that could fail. -/
theorem localPutMbuffIo_ok (hc : c.grainSize = 1) (h : kv.Open)
    (hoff : kv.headOff = putKeyvalPrefixSize)
    (hroom : 2 ≤ Boxes.room kv.layout (putKeyvalPrefixSize + kv.bytes.length)) (n : Nat) :
    ∃ kv', c.localPutMbuffIo pad ts kv n = (none, kv') := by
  obtain ⟨kv1, hopen1, hmd⟩ := @mbuffPrependAppendMd_open c kv ts h hoff n (kv.validSize - n)
  rw [if_pos hroom] at hmd
  have hpad : ∀ x : Nat, udivRoundUp x 1 * 1 - x = 0 := by
    intro x
    rw [udivRoundUp, Nat.div_one]
    omega
  rw [localPutMbuffIo]
  rw [hmd.1, hc, hpad]
  dsimp only
  rw [Mbuff.mbuffAppendPadding]
  dsimp only
  rw [if_neg (Nat.not_lt_zero _), if_neg (Nat.not_lt_zero _),
    (hopen1.legit.append_zeros (fun l hl => (hopen1.pages l hl).1) 0 (Nat.zero_le _)).1]
  exact ⟨_, rfl⟩

/-- A record is readable under its key exactly if the header can hold the size of the key
and neither key nor value is empty. -/
theorem getRecord_recordBytes (hfit : SizesFit k.length v.length) (m : Nat → UInt8) (g : Nat) :
    c.getRecord (write m (g * c.grainSize) (c.recordBytes ts k v)) g k = some (some v) ↔
      0 < k.length ∧ k.length < 2 ^ 16 ∧ 0 < v.length := by
  have hhdr := write_readHeader (c := c) m g ts k v
  have hvlt : v.length % 2 ^ 32 = v.length := Nat.mod_eq_of_lt (by unfold SizesFit at hfit; omega)
  rw [getRecord, hhdr, hvlt]
  dsimp only
  by_cases hk : k.length < 2 ^ 16
  · rw [if_pos (Nat.mod_eq_of_lt hk)]
    by_cases hk0 : k = []
    · rw [if_pos hk0]
      simp [hk0]
    · have hpos := length_pos_of_ne_nil hk0
      obtain ⟨-, hkey, hval⟩ := write_rec (c := c) m g ts (⟨hpos, hk, hfit⟩ : KvOk k v)
      rw [if_neg hk0, if_pos hkey, hval]
      by_cases hv : v.length = 0
      · rw [if_pos hv]
        simp [hv]
      · rw [if_neg hv]
        exact ⟨fun _ => ⟨hpos, hk, by omega⟩, fun _ => rfl⟩
  · have hne : ¬ k.length % 2 ^ 16 = k.length := by
      have := Nat.mod_lt k.length (show 0 < 2 ^ 16 by decide)
      omega
    rw [if_neg hne]
    constructor
    · intro h
      simp at h
    · intro h
      exact absurd h.2.1 hk

theorem putRecord_empty {malloc : Bool} {keySize : Nat} (h : kv.nodes = []) :
    c.putRecord malloc pad ts kv keySize = none := by
  have hmd : (c.mbuffPrependAppendMd ts kv keySize (kv.validSize - keySize)).1 = some .einval := by
    simp [mbuffPrependAppendMd, Mbuff.prependInline, Mbuff.prependPrepareInline, h]
  have hio : (c.localPutMbuffIo pad ts kv keySize).1 = some .einval := by
    rw [localPutMbuffIo]
    split
    · rename_i heq
      rw [heq] at hmd
      exact hmd
    · rename_i heq
      rw [heq] at hmd
      simp at hmd
  rw [putRecord]
  split
  · rfl
  · split
    · rfl
    · split
      · rfl
      · rename_i heq
        rw [heq] at hio
        simp at hio

theorem putRecord_eq {malloc : Bool} {h : Nat} {bs : List UInt8} (hopen : kv.Open)
    (hoff : kv.headOff = putKeyvalPrefixSize) (hb : kv.bytes = k ++ v)
    (hput : c.putRecord malloc pad ts kv k.length = some (h, bs)) :
    h = c.hash k ∧ bs = c.recordBytes ts k v := by
  have hsize : kv.validSize = k.length + v.length := by
    rw [hopen.legit.validSize_eq, hb, length_append]
  rw [putRecord] at hput
  split at hput
  · simp at hput
  · rename_i h' hh
    rw [if_neg (by omega)] at hput
    split at hput
    · simp at hput
    · rename_i kv' hio
      simp only [some.injEq, Prod.mk.injEq] at hput
      obtain ⟨rfl, rfl⟩ := hput
      refine ⟨?_, localPutMbuffIo_bytes hopen hoff hb hio⟩
      rcases hopen.legit.hash_eq c.hash (show 0 + k.length ≤ kv.validSize by omega) malloc with
        heq | ⟨-, heq⟩
      · rw [hh, hb, drop_zero, take_left] at heq
        exact Except.ok.inj heq
      · rw [hh] at heq
        simp at heq

end Config

/-! ## Serving a sound request -/

namespace KvServer
open Socket

theorem sendFull_ends {conn : Conn} {send : Sent} (h : conn = .trtEpoll → send ≠ .full) :
    sendFull conn send ≠ .abort ∧ sendFull conn send ≠ .assertion := by
  cases send with
  | ok | fail e => simp [sendFull]
  | full =>
    cases conn with
    | socket => simp [sendFull]
    | trtEpoll => exact absurd rfl (h rfl)

theorem sendGetResponse_ends (conn : Conn) (env : Env) (error : Option Errno) (reqId : UInt64)
    {val : Mbuff} (h : val.Good) :
    (sendGetResponse conn env error reqId val).1 = sendFull conn env.send ∨
      (sendGetResponse conn env error reqId val).1 = .ret (some .enomem) := by
  rw [sendGetResponse]
  by_cases h0 : (if error = none then val.validSize else 0) = 0
  · rw [if_pos h0]
    exact .inl rfl
  · have hlen : (if error = none then val.validSize else 0) = val.validSize := by
      split at h0
      · rename_i he
        rw [if_pos he]
      · exact absurd rfl h0
    rw [hlen] at h0 ⊢
    obtain ⟨cs, hcs, hflat⟩ := @Mbuff.iterateValid_some val 0 val.validSize (by omega)
    have hfull : cs.flatten.length = val.validSize := by
      rw [hflat, drop_zero, length_take, ← h.legit.validSize_eq, Nat.min_self]
    rw [if_neg h0, Mbuff.getValidNchunks, hcs, map_some]
    dsimp only
    split
    · exact .inr rfl
    · rw [Mbuff.fillIovecValid, hcs, map_some, take_length]
      dsimp only
      rw [if_pos ⟨rfl, hfull⟩]
      exact .inl rfl

variable {hdr : ReqHdr} {n : Nat} {mb : Mbuff} {pre body : List UInt8}

theorem known_of_bodyLen (h : hdr.bodyLen = some n) : ∃ op, hdr.known = some op := by
  rw [ReqHdr.bodyLen, map_eq_some_iff] at h
  obtain ⟨op, hop, -⟩ := h
  exact ⟨op, hop⟩

theorem body_spec {bs : List UInt8} (hg : mb.Good) (hoff : mb.headOff = 0)
    (hpre : pre.length = putKeyvalPrefixSize) (hb : mb.bytes = pre ++ bs) :
    ∃ body, mb.reslice bs.length putKeyvalPrefixSize = some body ∧ body.Good ∧ body.bytes = bs ∧
      (bs = [] → body.nodes = []) ∧
      (bs ≠ [] → body.Open ∧ body.headOff = putKeyvalPrefixSize ∧ body.layout = mb.layout) := by
  have hsize : mb.validSize = putKeyvalPrefixSize + bs.length := by
    rw [hg.legit.validSize_eq, hb, length_append, hpre]
  by_cases hnil : bs = []
  · subst hnil
    have hre : mb.reslice ([] : List UInt8).length putKeyvalPrefixSize = some mb.resliceZero :=
      Mbuff.reslice_nothing (by omega)
    have hnodes := hg.cached.nodes
    exact ⟨_, hre, hg.resliceZero.good, by rw [Mbuff.bytes, hnodes]; rfl, fun _ => hnodes,
      fun h => absurd rfl h⟩
  · obtain ⟨body, hre, hopen, hbytes, hoff', hlay⟩ :=
      hg.legit.reslice_prefix hg.pages hoff hb hpre hnil
    exact ⟨body, hre, ⟨hopen.legit, hopen.pages⟩, hbytes, fun h => absurd h hnil,
      fun _ => ⟨hopen, hoff', hlay⟩⟩

/-- A `PUT` that is sound stores its value under its key. -/
theorem put_safe {keyval : Mbuff} {k v : Nat} (hn : n = k + v) (hle : n ≤ body.length)
    (hbytes : keyval.bytes = body.take n) (hempty : body.take n = [] → keyval.nodes = [])
    (hopen : body.take n ≠ [] → keyval.Open ∧ keyval.headOff = putKeyvalPrefixSize)
    (hlt : k + v < 2 ^ 32) (hsound : k = 0 ∧ v = 0 ∨ 0 < k ∧ k < 2 ^ 16 ∧ 0 < v) (c : Config)
    (malloc : Bool) (pad : IoAlloc) (ts h : Nat) (bs : List UInt8)
    (hput : c.putRecord malloc pad ts keyval k = some (h, bs)) :
    c.Readable h bs (body.take k) ((body.drop k).take v) := by
  rcases hsound with ⟨h0, h0'⟩ | ⟨hk0, hk16, hv0⟩
  · have hnil : body.take n = [] := by
      rw [hn, h0, h0']
      exact take_zero
    rw [Config.putRecord_empty (hempty hnil)] at hput
    simp at hput
  · have hsplit : body.take n = body.take k ++ (body.drop k).take v := by
      rw [hn, take_add]
    have hlk : (body.take k).length = k := by
      rw [length_take]
      omega
    have hlv : ((body.drop k).take v).length = v := by
      rw [length_take, length_drop]
      omega
    have hne : body.take n ≠ [] := by
      rw [hsplit]
      intro hnil
      have := congrArg List.length hnil
      rw [length_append, hlk, length_nil] at this
      omega
    obtain ⟨hop, hoff⟩ := hopen hne
    have hput' : c.putRecord malloc pad ts keyval (body.take k).length = some (h, bs) := by
      rw [hlk]
      exact hput
    obtain ⟨rfl, rfl⟩ := Config.putRecord_eq hop hoff (hbytes.trans hsplit) hput'
    refine ⟨rfl, fun m g => (Config.getRecord_recordBytes ?_ m g).mpr ?_⟩
    · rw [Config.SizesFit, hlk, hlv]
      exact hlt
    · rw [hlk, hlv]
      exact ⟨hk0, hk16, hv0⟩

theorem execute_safe {conn : Conn} (env : Env) {result : Mbuff}
    (hsend : conn = .trtEpoll → env.send ≠ .full) (hsound : Sound hdr body) (hr : result.Good)
    (hg : mb.Good) (hoff : mb.headOff = 0) (hpre : pre.length = putKeyvalPrefixSize)
    (hlen : hdr.bodyLen = some n) (hle : n ≤ body.length) (hb : mb.bytes = pre ++ body.take n) :
    Safe hdr body (execute conn env hdr mb result) := by
  have htake : (body.take n).length = n := by
    rw [length_take]
    omega
  have hsize : mb.validSize = putKeyvalPrefixSize + n := by
    rw [hg.legit.validSize_eq, hb, length_append, hpre, htake]
  obtain ⟨bd, hre, hbg, hbytes, hempty, hopen⟩ := body_spec hg hoff hpre hb
  rw [htake] at hre
  obtain ⟨op, hop⟩ := known_of_bodyLen hlen
  have hn := hlen
  rw [ReqHdr.bodyLen, hop, map_some, some.injEq] at hn
  have hends := sendFull_ends hsend
  rw [execute, hlen, hop]
  dsimp only
  rw [if_neg (not_not.mpr hsize), hre, getD_some]
  cases op with
  | nop => exact ⟨hends, ⟨hbg, hr⟩, by simp, by simp⟩
  | del => exact ⟨by simp, ⟨hbg, hr⟩, by simp, by simp⟩
  | get =>
    dsimp only at hn ⊢
    have hval := env.kv.get_good bd _ hr.resliceZero.good
    refine ⟨?_, ⟨hbg, hval⟩, by simp, fun key hkey => ?_⟩
    · rcases sendGetResponse_ends conn env (env.kv.get bd result.resliceZero).1 hdr.reqId hval
        with he | he
      · rwa [he]
      · simp [he]
    · simp only [mem_singleton, Call.get.injEq] at hkey
      rw [hkey, hbytes, hn]
      exact ⟨hle, rfl⟩
  | put =>
    dsimp only at hn ⊢
    obtain ⟨hlt, hcase⟩ := hsound.2 hop (hn ▸ hle)
    have hnsum : n = hdr.keyLen.toNat + hdr.valLen.toNat := by
      rw [← hn, UInt32.toNat_add, Nat.mod_eq_of_lt hlt]
    refine ⟨hends, ⟨env.kv.put_good bd _ hbg, hr⟩, fun keyval m hcall => ?_, by simp⟩
    simp only [mem_singleton, Call.put.injEq] at hcall
    obtain ⟨rfl, rfl⟩ := hcall
    refine ⟨rfl, by rw [hbytes, htake]; omega, by rw [hbytes, htake, hnsum], ?_⟩
    exact put_safe hnsum hle hbytes hempty (fun h => ⟨(hopen h).1, (hopen h).2.1⟩) hlt hcase

/-- A sound request that comes in time is served safely. -/
theorem serveKvRequest_safe {conn : Conn} {env : Env} {evs : List Recv} {reqBody result : Mbuff}
    (hreq : reqBody.Good) (hres : result.Good) (hs : stream evs = hdr.toBytes ++ body)
    (hsend : conn = .trtEpoll → env.send ≠ .full)
    (hin : conn = .trtEpoll → hdr.magic = MAGIC → InTime hdr evs)
    (hsound : hdr.magic = MAGIC → Sound hdr body) :
    Safe hdr body (serveKvRequest conn env evs reqBody result) := by
  obtain ⟨mb, hmb, hg, hoff, hpre, -⟩ := start_spec env hreq
  rw [serveKvRequest, hmb]
  have hpos : 0 < mb.bytes.length := by
    rw [hpre]
    decide
  have hg' := recvRequest_good conn env evs hg hpos
  have hok := recvRequest_spec hg hoff hpos hs hsend hin
  cases hend : (recvRequest conn env evs mb).ending with
  | wait => exact ⟨by simp, ⟨hg', hres⟩, by simp, by simp⟩
  | abort =>
    rw [hend] at hok
    exact absurd hok.2 (hsound hok.1).1
  | assertion =>
    rw [hend] at hok
    exact hok.elim
  | err e => exact ⟨by simp, ⟨hg', hres⟩, by simp, by simp⟩
  | ok hdr' =>
    rw [hend] at hok
    obtain ⟨rfl, hmagic, n, hlen, hle, hb, hoff'⟩ := hok
    exact execute_safe env hsend (hsound hmagic) hres hg' hoff' hpre hlen hle hb

/-! ## A request that is not sound, or comes late -/

/-- A server without memory for long bodies: the store accepts everything. -/
def bare : Env where
  kv := ⟨fun keyval _ => (none, keyval), fun _ val => (some .enodata, val), fun _ _ h => h,
    fun _ _ h => h⟩
  prefixAlloc := Config.zeros
  alloc := ⟨fun _ => none, fun h => by simp at h⟩
  malloc := false
  send := .ok
  prefix_some _ := rfl

/-- A connection with one free buffer in which a request of the size fits. -/
def roomy (size : Nat) : Mbuff :=
  Config.oneBuff (List.replicate (alignUp (putKeyvalPrefixSize + size + 2) 4096) 0)

theorem oneBuff_pages {data : List UInt8} (h0 : 0 < data.length) (hd : 4096 ∣ data.length) :
    (Config.oneBuff data).Cached :=
  ⟨rfl, rfl, by simp [Config.oneBuff], by simp [Config.oneBuff, h0, hd]⟩

theorem oneBuff_layout (data : List UInt8) : (Config.oneBuff data).layout = [data.length] := rfl

theorem roomy_cached (size : Nat) : (roomy size).Cached := by
  refine oneBuff_pages ?_ ?_
  · rw [length_replicate]
    exact Mbuff.alignUp_pos (by omega)
  · rw [length_replicate]
    exact Mbuff.dvd_alignUp _

theorem oneBuff_resliceZero (data : List UInt8) :
    (Config.oneBuff data).resliceZero = Config.oneBuff data := rfl

theorem roomy_grown (size : Nat) : grown (roomy size).resliceZero.layout putKeyvalPrefixSize =
    [alignUp (putKeyvalPrefixSize + size + 2) 4096] := by
  have hle := Mbuff.le_alignUp (putKeyvalPrefixSize + size + 2)
  rw [roomy, oneBuff_resliceZero, oneBuff_layout, length_replicate, grown,
    sum_singleton, if_neg (by omega)]

theorem bare_mbuffAddBuffers (mb : Mbuff) (size : Nat) :
    mb.mbuffAddBuffers bare.alloc size = mb := by
  rw [Mbuff.mbuffAddBuffers]
  split <;> rfl

/-- The Mbuff of such a connection when a request of the size comes in. -/
theorem roomy_start (n : Nat) :
    ∃ mb, ((roomy n).resliceZero.mbuffAddBuffers bare.prefixAlloc
        putKeyvalPrefixSize).appendUninitialized putKeyvalPrefixSize = mb ∧
      mb.Good ∧ mb.headOff = 0 ∧ mb.bytes.length = putKeyvalPrefixSize ∧
      mb.layout = [alignUp (putKeyvalPrefixSize + n + 2) 4096] := by
  rw [← roomy_grown]
  exact start_spec bare (roomy_cached n).good

theorem recv_header (conn : Conn) (hdr : ReqHdr) (body : List UInt8) (n : Nat) :
    recv conn (sizeofReqHdr + n) (waiting hdr.toBytes ++ waiting body) =
      (.data hdr.toBytes, waiting body) := by
  have hlen := hdr.toBytes_length
  cases hb : hdr.toBytes with
  | nil =>
    rw [hb] at hlen
    simp [sizeofReqHdr] at hlen
  | cons b bs =>
    rw [hb] at hlen
    rw [waiting, singleton_append]
    simp only [recv, sysRecv]
    rw [take_of_length_le (by omega), drop_of_length_le (by omega)]
    rfl

/-- A request whose header is received, alone or with a first part of the body. -/
theorem recvRequest_received (env : Env) (body : List UInt8) {conn : Conn} {evs : List Recv}
    (hg : mb.Good) (hpos : 0 < mb.bytes.length) (hs : stream evs = hdr.toBytes ++ body)
    (hr : ∀ m, ∃ bs evs', recv conn (sizeofReqHdr + m) evs = (.data bs, evs') ∧
      sizeofReqHdr ≤ bs.length) :
    ∃ m bs evs' mb', recv conn (sizeofReqHdr + m) evs = (.data bs, evs') ∧
      sizeofReqHdr ≤ bs.length ∧
      recvRequest conn env evs mb =
        recvBody conn env hdr mb.bytes.length (bs.length - sizeofReqHdr) mb' evs' ∧
      mb'.Good ∧ mb'.bytes = mb.bytes ++ bs.drop sizeofReqHdr ∧ mb'.headOff = mb.headOff ∧
      mb'.layout.Perm mb.layout := by
  obtain ⟨bs, evs', hrecv, hhdr⟩ := hr (mb.fillIovecAppend mb.appendAvailSize
    (min (1 + mb.appendAvailNchunks) 8 - 1)).1.2
  obtain ⟨mb', hre, hmb⟩ := received_spec hg _ _ hrecv hpos hhdr
  refine ⟨_, bs, evs', mb', hrecv, hhdr, ?_, hmb⟩
  rw [recvRequest]
  dsimp only
  rw [hrecv]
  dsimp only
  rw [if_neg (by omega), hre, getD_some, (header_of_recv hs hrecv hhdr).1, hg.legit.validSize_eq]

theorem recvRequest_header (conn : Conn) (env : Env) (hdr : ReqHdr) (body : List UInt8)
    (hg : mb.Good) (hpos : 0 < mb.bytes.length) :
    ∃ mb', recvRequest conn env (waiting hdr.toBytes ++ waiting body) mb =
        recvBody conn env hdr mb.bytes.length 0 mb' (waiting body) ∧
      mb'.Good ∧ mb'.bytes = mb.bytes ∧ mb'.headOff = mb.headOff ∧ mb'.layout.Perm mb.layout := by
  have hlen := hdr.toBytes_length
  obtain ⟨m, bs, evs', mb', hrecv, -, hreq, hg', hbytes, hmb⟩ := recvRequest_received
    env body hg hpos (by rw [stream_append, stream_waiting, stream_waiting])
    (fun m => ⟨_, _, recv_header conn hdr body m, hlen.ge⟩)
  rw [recv_header, Prod.mk.injEq, Got.data.injEq] at hrecv
  obtain ⟨rfl, rfl⟩ := hrecv
  rw [hlen, Nat.sub_self] at hreq
  rw [drop_of_length_le hlen.le, append_nil] at hbytes
  exact ⟨mb', hreq, hg', hbytes, hmb⟩

theorem recvBody_waiting (conn : Conn) (hg : mb.Good) (hb : mb.bytes = pre)
    (hmagic : hdr.magic = MAGIC) (hlen : hdr.bodyLen = some n) (hle : n ≤ body.length)
    (hsp : n ≤ mb.appendAvailSize) :
    (recvBody conn bare hdr pre.length 0 mb (waiting body)).ending = .ok hdr ∧
      (recvBody conn bare hdr pre.length 0 mb (waiting body)).mb.layout = mb.layout := by
  have hsize := hg.legit.validSize_eq
  rw [hb] at hsize
  rw [recvBody, if_neg (not_not.mpr hmagic), hlen]
  dsimp only
  rw [if_neg (Nat.not_lt_zero _), bare_mbuffAddBuffers, Nat.sub_zero]
  by_cases h0 : 0 < n
  · have hok := recvAppendToMbuff_waiting conn hg.legit hg.pos h0 hle hsp
    obtain ⟨out, hext, -, hout, -⟩ := recvAppendToMbuff_spec conn hg.legit hg.pos n (waiting body)
    have hsize' := hext.validSize hg.legit
    rw [hout hok] at hsize'
    rw [if_pos h0]
    generalize recvAppendToMbuff conn mb n (waiting body) = r at *
    obtain ⟨err, r⟩ := r
    dsimp only at hok
    subst hok
    dsimp only at hext hsize' ⊢
    rw [if_pos (by omega)]
    exact ⟨rfl, hext.layout⟩
  · rw [if_neg h0, if_pos (by omega)]
    exact ⟨rfl, rfl⟩

/-- A `PUT` with the right magic number and enough bytes behind it gets to the store. -/
theorem serveKvRequest_put (conn : Conn) {hdr : ReqHdr} {body : List UInt8}
    (hmagic : hdr.magic = MAGIC) (hop : hdr.known = some .put)
    (hle : (hdr.keyLen + hdr.valLen).toNat ≤ body.length) :
    ∃ keyval, (serveKvRequest conn bare (waiting hdr.toBytes ++ waiting body)
        (roomy (hdr.keyLen + hdr.valLen).toNat) .empty).calls =
          [.put keyval hdr.keyLen.toNat] ∧
      keyval.bytes = body.take (hdr.keyLen + hdr.valLen).toNat ∧
      (0 < (hdr.keyLen + hdr.valLen).toNat → keyval.Open ∧
        keyval.headOff = putKeyvalPrefixSize ∧
        keyval.layout =
          [alignUp (putKeyvalPrefixSize + (hdr.keyLen + hdr.valLen).toNat + 2) 4096]) := by
  have hlen : hdr.bodyLen = some (hdr.keyLen + hdr.valLen).toNat := by
    rw [ReqHdr.bodyLen, hop]
    rfl
  generalize (hdr.keyLen + hdr.valLen).toNat = n at *
  have hL := Mbuff.le_alignUp (putKeyvalPrefixSize + n + 2)
  obtain ⟨mb, hmb, hg, hoff, hpre, hlay⟩ := roomy_start n
  rw [serveKvRequest, hmb]
  obtain ⟨mb1, hreq, hg1, hb1, hoff1, hperm1⟩ := recvRequest_header conn bare hdr body hg
    (by rw [hpre]; decide)
  have hlay1 : mb1.layout = [alignUp (putKeyvalPrefixSize + n + 2) 4096] :=
    perm_singleton.mp (hlay ▸ hperm1)
  have hsp : n ≤ mb1.appendAvailSize := by
    have hsum := hg1.legit.layout_sum
    rw [hlay1, sum_singleton, hoff1, hoff, hg1.legit.validSize_eq, hb1, hpre] at hsum
    omega
  obtain ⟨hok, hlay2⟩ := recvBody_waiting conn hg1 hb1 hmagic hlen hle hsp
  have hg2 := recvBody_good conn bare hdr mb.bytes.length 0 (waiting body) hg1
  have hspec := @recvBody_spec conn bare hdr mb1 (waiting body) mb.bytes body 0 hg1
    (hoff1.trans hoff) (by rw [hb1, take_zero, append_nil]) (Nat.zero_le _)
    (by rw [stream_waiting, drop_zero]) (by simp [bare]) (by
      rintro rfl - n' hlen' -
      obtain rfl : n = n' := Option.some.inj (hlen.symm.trans hlen')
      rw [← append_nil (waiting body), prompt_waiting, Nat.sub_zero, Nat.sub_eq_zero_of_le hle]
      trivial)
  rw [hok] at hspec
  obtain ⟨-, -, n', hlen', -, hb2, hoff2⟩ := hspec
  obtain rfl : n = n' := Option.some.inj (hlen.symm.trans hlen')
  rw [hreq, hok]
  generalize (recvBody conn bare hdr mb.bytes.length 0 mb1 (waiting body)).mb = mb2 at *
  have htake : (body.take n).length = n := by
    rw [length_take]
    omega
  obtain ⟨bd, hre, -, hbytes, -, hopen⟩ := body_spec hg2 hoff2 hpre hb2
  have hsize : mb2.validSize = putKeyvalPrefixSize + n := by
    rw [hg2.legit.validSize_eq, hb2, length_append, hpre, htake]
  refine ⟨bd, ?_, hbytes, fun h0 => ?_⟩
  · dsimp only
    rw [execute, hlen, hop]
    dsimp only
    rw [htake] at hre
    rw [if_neg (not_not.mpr hsize), hre, getD_some]
  · obtain ⟨hop', hoff', hlay'⟩ := hopen (ne_nil_of_length_pos (by omega))
    exact ⟨hop', hoff', hlay'.trans (hlay2.trans hlay1)⟩

theorem serveKvRequest_unknown (conn : Conn) (env : Env) {hdr : ReqHdr} (body : List UInt8)
    {reqBody : Mbuff} (result : Mbuff) (hg : reqBody.Good) (hmagic : hdr.magic = MAGIC)
    (hop : hdr.known = none) :
    (serveKvRequest conn env (waiting hdr.toBytes ++ waiting body) reqBody result).ending =
      .abort := by
  obtain ⟨mb, hmb, hg1, -, hpre, -⟩ := start_spec env hg
  rw [serveKvRequest, hmb]
  obtain ⟨mb1, hreq, -⟩ := recvRequest_header conn env hdr body hg1 (by rw [hpre]; decide)
  have hlen : hdr.bodyLen = none := by
    rw [ReqHdr.bodyLen, hop]
    rfl
  rw [hreq, recvBody, if_neg (not_not.mpr hmagic), hlen]

theorem recvBody_late (prev : Nat) {evs : List Recv} {received : Nat} (hg : mb.Good)
    (hmagic : hdr.magic = MAGIC) (hlen : hdr.bodyLen = some n)
    (hsp : n - received ≤ mb.appendAvailSize) (hlate : ¬Prompt (n - received) evs) :
    (recvBody .trtEpoll bare hdr prev received mb evs).ending = .assertion := by
  have hlt : received < n := by
    by_contra hge
    rw [Nat.sub_eq_zero_of_le (by omega)] at hlate
    exact hlate (prompt_zero evs)
  have hassert := (recvAppendToMbuff_assertion .trtEpoll hg.legit hg.pos hsp evs).mpr ⟨rfl, hlate⟩
  rw [recvBody, if_neg (not_not.mpr hmagic), hlen]
  dsimp only
  rw [if_neg (by omega), if_pos hlt, bare_mbuffAddBuffers]
  generalize recvAppendToMbuff .trtEpoll mb (n - received) evs = r at *
  obtain ⟨err, r⟩ := r
  dsimp only at hassert
  subst hassert
  rfl

/-- A request on a `ConnectionTrtEpoll` that is not in time fails an assertion. -/
theorem serveKvRequest_late {evs : List Recv} (hmagic : hdr.magic = MAGIC)
    (hlen : hdr.bodyLen = some n) (hs : stream evs = hdr.toBytes ++ body)
    (hlate : ¬InTime hdr evs) (result : Mbuff) :
    (serveKvRequest .trtEpoll bare evs (roomy n) result).ending = .assertion := by
  have hL := Mbuff.le_alignUp (putKeyvalPrefixSize + n + 2)
  obtain ⟨b, cs, rest, hevs, hhdr, hshort⟩ := data_of_late hlate
  rw [hlen, getD_some] at hshort
  have hrecv : ∀ m, recv .trtEpoll (sizeofReqHdr + m) evs =
      (.data ((b :: cs).take (sizeofReqHdr + m)),
        waiting ((b :: cs).drop (sizeofReqHdr + m)) ++ rest) := by
    intro m
    rcases hevs with rfl | rfl <;> rfl
  obtain ⟨mb, hmb, hg, hoff, hpre, hlay⟩ := roomy_start n
  obtain ⟨m, bs, evs', mb1, hr, hbs, hreq, hg1, hb1, hoff1, hperm1⟩ :=
    recvRequest_received bare _ hg
    (by rw [hpre]; decide) hs (fun m => ⟨_, _, hrecv m, by rw [length_take]; omega⟩)
  have hle : bs.length ≤ (b :: cs).length := by
    have h := (hrecv m).symm.trans hr
    rw [Prod.mk.injEq, Got.data.injEq] at h
    rw [← h.1]
    exact length_take_le' _ _
  have hlay1 : mb1.layout = [alignUp (putKeyvalPrefixSize + n + 2) 4096] :=
    perm_singleton.mp (hlay ▸ hperm1)
  have hsp : n - (bs.length - sizeofReqHdr) ≤ mb1.appendAvailSize := by
    have hsum := hg1.legit.layout_sum
    rw [hlay1, sum_singleton, hoff1, hoff, hg1.legit.validSize_eq,
      hb1, length_append, hpre, length_drop] at hsum
    omega
  have hend := recvBody_late mb.bytes.length hg1 hmagic hlen hsp
    (fun h => hlate ((inTime_iff hlen hr hbs (by omega)).mpr h))
  rw [serveKvRequest, hmb, hreq, hend]

/-- A reply that does not fit into the socket does so as well. -/
theorem serveKvRequest_full {env : Env} {reqBody : Mbuff} (result : Mbuff) (hg : reqBody.Good)
    (hsend : env.send = .full) (hmagic : hdr.magic = MAGIC) (hop : hdr.known = some .nop) :
    (serveKvRequest .trtEpoll env (waiting hdr.toBytes) reqBody result).ending = .assertion := by
  have hlen : hdr.bodyLen = some 0 := by
    rw [ReqHdr.bodyLen, hop]
    rfl
  obtain ⟨mb, hmb, hg1, -, hpre, -⟩ := start_spec env hg
  rw [serveKvRequest, hmb]
  obtain ⟨mb1, hreq, hg2, hb1, -⟩ := recvRequest_header .trtEpoll env hdr [] hg1
    (by rw [hpre]; decide)
  have hsize : mb1.validSize = putKeyvalPrefixSize := by
    rw [hg2.legit.validSize_eq, hb1, hpre]
  rw [waiting, append_nil] at hreq
  rw [hreq, recvBody, if_neg (not_not.mpr hmagic), hlen]
  dsimp only
  rw [if_neg (Nat.lt_irrefl 0), if_neg (Nat.lt_irrefl 0)]
  dsimp only
  rw [Nat.add_zero, if_pos (hsize.trans hpre.symm)]
  dsimp only
  rw [execute, hlen, hop]
  dsimp only
  rw [Nat.add_zero, if_neg (not_not.mpr hsize), hsend]
  rfl

/-- If the header comes alone, the whole body has to be there behind it. -/
theorem inTime_header (hdr : ReqHdr) (rest : List Recv) :
    InTime hdr (waiting hdr.toBytes ++ rest) ↔ Prompt (hdr.bodyLen.getD 0) rest := by
  have hlen := hdr.toBytes_length
  cases hb : hdr.toBytes with
  | nil =>
    rw [hb] at hlen
    simp [sizeofReqHdr] at hlen
  | cons b bs =>
    rw [hb] at hlen
    have h : InTime hdr (waiting (b :: bs) ++ rest) ↔
        Prompt (sizeofReqHdr + hdr.bodyLen.getD 0 - (b :: bs).length) rest :=
      inTime_data (.inl rfl) hlen.ge
    rwa [hlen, Nat.add_sub_cancel_left] at h

theorem inTime_waiting (h : hdr.bodyLen.getD 0 ≤ body.length) :
    InTime hdr (waiting hdr.toBytes ++ waiting body) := by
  rw [inTime_header, ← append_nil (waiting body), prompt_waiting, Nat.sub_eq_zero_of_le h]
  trivial

/-- Grains of one byte. -/
def bytewise : Config :=
  .ofSizes 4 1 8 1 4 (fun _ => 5) (fun _ _ => 0) (Eq.refl true)

/-- What such a `PUT` stores is readable only if the request is sound. -/
theorem sound_of_readable {keyval : Mbuff} {k v : Nat} (hn : n = k + v)
    (hle : n ≤ body.length) (hlt : k + v < 2 ^ 32) (hbytes : keyval.bytes = body.take n)
    (hopen : keyval.Open) (hoff : keyval.headOff = putKeyvalPrefixSize)
    (hlay : keyval.layout = [alignUp (putKeyvalPrefixSize + n + 2) 4096])
    (hread : ∀ h bs, bytewise.putRecord true Config.zeros 0 keyval k = some (h, bs) →
      bytewise.Readable h bs (body.take k) ((body.drop k).take v)) :
    0 < k ∧ k < 2 ^ 16 ∧ 0 < v := by
  have hsplit : body.take n = body.take k ++ (body.drop k).take v := by
    rw [hn, take_add]
  have hlk : (body.take k).length = k := by
    rw [length_take]
    omega
  have hlv : ((body.drop k).take v).length = v := by
    rw [length_take, length_drop]
    omega
  have hlen : keyval.bytes.length = n := by
    rw [hbytes, length_take]
    omega
  have hsize := hopen.legit.validSize_eq
  have hL := Mbuff.le_alignUp (putKeyvalPrefixSize + n + 2)
  -- the store writes a record
  obtain ⟨kv, hio⟩ := @Config.localPutMbuffIo_ok bytewise keyval Config.zeros 0 rfl hopen hoff
    (by rw [hlay, hlen, Boxes.room, if_pos (by omega)]; omega) k
  have hput : bytewise.putRecord true Config.zeros 0 keyval k = some (5, kv.bytes) := by
    rw [Config.putRecord]
    rcases hopen.legit.hash_eq bytewise.hash (show 0 + k ≤ keyval.validSize by omega) true with
      hh | ⟨hf, -⟩
    · rw [hh]
      dsimp only
      rw [if_neg (by omega), hio]
      rfl
    · simp at hf
  obtain ⟨-, hget⟩ := hread 5 kv.bytes hput
  have hput' : bytewise.putRecord true Config.zeros 0 keyval (body.take k).length =
      some (5, kv.bytes) := by
    rw [hlk]
    exact hput
  obtain ⟨-, hrec⟩ := Config.putRecord_eq hopen hoff (hbytes.trans hsplit) hput'
  rw [hrec] at hget
  have h := (Config.getRecord_recordBytes (by rw [Config.SizesFit, hlk, hlv]; exact hlt)
    (fun _ => 0) 0).mp (hget (fun _ => 0) 0)
  rwa [hlk, hlv] at h

end KvServer
end UDepot
