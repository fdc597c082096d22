import UDepot.Socket
import UDepot.MbuffIov
import UDepot.MbuffStore

/-! The key-value server (`serve-kv-request.cc`): the header of a request says how long
its body is, the body is received into an Mbuff behind space for the header of a record,
and the Mbuff goes to `put` or `get` of the store. The server runs over both classes of
connections. It awaits only the first receive of a request; the rest of the body is received
and the reply is sent under `run_sync`. -/

namespace UDepot
open Bytes List
open Store (Errno)

namespace KvServer
open Socket

def ebadmsg : Errno := ⟨74, by decide⟩
def enotsup : Errno := ⟨95, by decide⟩

/-! ## The wire format -/

def MAGIC : UInt32 := 0xfa73fa11

/-- `ReqHdr`, packed: `keyLen` is that of `get`, `put` and `del`. -/
structure ReqHdr where
  magic : UInt32
  op : UInt32
  reqId : UInt64
  keyLen : UInt32
  valLen : UInt32
deriving DecidableEq

def sizeofReqHdr : Nat := 24

inductive Op where
  | nop
  | put
  | get
  | del
deriving DecidableEq

namespace ReqHdr

def toBytes (h : ReqHdr) : List UInt8 :=
  le 4 h.magic.toNat ++ le 4 h.op.toNat ++ le 8 h.reqId.toNat ++ le 4 h.keyLen.toNat ++
    le 4 h.valLen.toNat

def ofBytes (bs : List UInt8) : ReqHdr where
  magic := .ofNat (leNat (bs.take 4))
  op := .ofNat (leNat ((bs.drop 4).take 4))
  reqId := .ofNat (leNat ((bs.drop 8).take 8))
  keyLen := .ofNat (leNat ((bs.drop 16).take 4))
  valLen := .ofNat (leNat ((bs.drop 20).take 4))

/-- The enumerator that `op` is, if it is one. -/
def known (h : ReqHdr) : Option Op :=
  match h.op.toNat with
  | 0 => some .nop
  | 1 => some .put
  | 2 => some .get
  | 3 => some .del
  | _ => none

/-- `body_len`: the lengths are added as `uint32_t`. `none` is `abort`. -/
def bodyLen (h : ReqHdr) : Option Nat :=
  h.known.map fun op => match op with
    | .nop => 0
    | .get | .del => h.keyLen.toNat
    | .put => (h.keyLen + h.valLen).toNat

@[simp] theorem toBytes_length (h : ReqHdr) : h.toBytes.length = sizeofReqHdr := by
  simp [toBytes, sizeofReqHdr]

theorem ofBytes_toBytes (h : ReqHdr) : ofBytes h.toBytes = h := by
  have h4 : ∀ x : UInt32, UInt32.ofNat (leNat (le 4 x.toNat)) = x := by
    intro x
    rw [leNat_le, Nat.mod_eq_of_lt x.toNat_lt, UInt32.ofNat_toNat]
  have h8 : ∀ x : UInt64, UInt64.ofNat (leNat (le 8 x.toNat)) = x := by
    intro x
    rw [leNat_le, Nat.mod_eq_of_lt x.toNat_lt, UInt64.ofNat_toNat]
  have hcut : ∀ (pre mid post : List UInt8) (n m : Nat), pre.length = n → mid.length = m →
      ((pre ++ mid ++ post).drop n).take m = mid := by
    rintro pre mid post n m rfl rfl
    rw [append_assoc, drop_left, take_left]
  have e0 : h.toBytes.take 4 = le 4 h.magic.toNat := by
    simp only [toBytes, append_assoc]
    exact take_left' (le_length _ _)
  have e1 : (h.toBytes.drop 4).take 4 = le 4 h.op.toNat := by
    rw [toBytes, append_assoc, append_assoc]
    exact hcut _ _ _ _ _ (le_length _ _) (le_length _ _)
  have e2 : (h.toBytes.drop 8).take 8 = le 8 h.reqId.toNat := by
    rw [toBytes, append_assoc]
    exact hcut _ _ _ _ _ (by simp) (le_length _ _)
  have e3 : (h.toBytes.drop 16).take 4 = le 4 h.keyLen.toNat :=
    hcut _ _ _ _ _ (by simp) (le_length _ _)
  have e4 : (h.toBytes.drop 20).take 4 = le 4 h.valLen.toNat := by
    rw [← append_nil h.toBytes]
    exact hcut _ _ _ _ _ (by simp) (le_length _ _)
  rw [ofBytes, e0, e1, e2, e3, e4]
  simp only [h4, h8]

end ReqHdr

/-- `ResHdr`, or `ResGetHdr` with the value behind it. -/
inductive Reply where
  | hdr (error : Option Errno) (reqId : UInt64)
  | get (error : Option Errno) (reqId : UInt64) (val : List UInt8)
deriving DecidableEq

/-! ## What it runs on -/

/-- `KV_MbuffInterface`: the store behind the server. -/
structure Kv where
  put : Mbuff → Nat → Option Errno × Mbuff
  get : Mbuff → Mbuff → Option Errno × Mbuff
  put_good : ∀ keyval n, keyval.Good → (put keyval n).2.Good
  get_good : ∀ key val, val.Good → (get key val).2.Good

/-- What the server works with: the store, its allocations of the prefix space, of the
space for the body and of a long iovec, and how sending a reply ends. -/
structure Env where
  kv : Kv
  prefixAlloc : IoAlloc
  alloc : IoAlloc
  malloc : Bool
  send : Sent
  prefix_some : ∀ n, (prefixAlloc.run n).isSome

/-- How a function of the server ends; `wait` while it has not returned. -/
inductive Ending where
  | wait
  | abort
  | assertion
  | ret (e : Option Errno)
deriving DecidableEq

/-- `send_full` and `sendv_full`: a full socket blocks, or the send is resumed before its
result is ready. -/
def sendFull (conn : Conn) : Sent → Ending
  | .ok => .ret none
  | .fail e => .ret (some e)
  | .full =>
    match conn with
    | .socket => .wait
    | .trtEpoll => .assertion

/-! ## Receiving a request -/

/-- How `recv_request` ends. -/
inductive Recvd where
  | wait
  | abort
  | assertion
  | err (e : Errno)
  | ok (hdr : ReqHdr)
deriving DecidableEq

structure Request where
  ending : Recvd
  sent : List Reply
  mb : Mbuff
  evs : List Recv

/-- `recv_request` once a header has come in, with the first `received` bytes of the body
behind the `prev` bytes in the Mbuff. -/
def recvBody (conn : Conn) (env : Env) (hdr : ReqHdr) (prev received : Nat) (mb : Mbuff)
    (evs : List Recv) : Request :=
  if hdr.magic ≠ MAGIC then
    let ending : Recvd :=
      match sendFull conn env.send with
      | .ret _ => .err ebadmsg
      | .wait => .wait
      | .abort => .abort
      | .assertion => .assertion
    ⟨ending, [.hdr (some ebadmsg) 0], mb, evs⟩
  else
    match hdr.bodyLen with
    | none => ⟨.abort, [], mb, evs⟩
    | some bodyLen =>
      let done (r : Mbuff × List Recv) : Request :=
        ⟨if r.1.validSize = prev + bodyLen then .ok hdr else .assertion, [], r.1, r.2⟩
      if bodyLen < received then ⟨.err ebadmsg, [], mb, evs⟩
      else if received < bodyLen then
        match recvAppendToMbuff conn (mb.mbuffAddBuffers env.alloc (prev + bodyLen))
            (bodyLen - received) evs with
        | (.ok, r) => done r
        | (.err e, r) => ⟨.err e, [], r.1, r.2⟩
        | (.wait, r) => ⟨.wait, [], r.1, r.2⟩
        | (.assertion, r) => ⟨.assertion, [], r.1, r.2⟩
        -- `recv_err` would be read uninitialised
        | (.unset, r) => ⟨.abort, [], r.1, r.2⟩
      else done (mb, evs)

def recvRequest (conn : Conn) (env : Env) (evs : List Recv) (mb : Mbuff) : Request :=
  let iovLen := min (1 + mb.appendAvailNchunks) 8
  let iov := mb.fillIovecAppend mb.appendAvailSize (iovLen - 1)
  match recv conn (sizeofReqHdr + iov.1.2) evs with
  | (.wait, evs) => ⟨.wait, [], iov.2, evs⟩
  | (.fail e, evs) => ⟨.err e, [], iov.2, evs⟩
  | (.closed, evs) => ⟨.err econnreset, [], iov.2, evs⟩
  | (.data bs, evs) =>
    if bs.length < sizeofReqHdr then ⟨.err econnreset, [], iov.2, evs⟩
    else
      let filled := iov.2.fillFrom mb.validSize (bs.drop sizeofReqHdr)
      recvBody conn env (.ofBytes (bs.take sizeofReqHdr)) mb.validSize (bs.length - sizeofReqHdr)
        ((filled.reslice (mb.validSize + bs.length - sizeofReqHdr) 0).getD filled) evs

/-! ## Serving it -/

/-- A call of the store, with its arguments. -/
inductive Call where
  | put (keyval : Mbuff) (keySize : Nat)
  | get (key : Mbuff)

structure Served where
  ending : Ending
  sent : List Reply
  calls : List Call
  reqBody : Mbuff
  result : Mbuff

/-- `send_get_responose`: how it ends and what it sends. -/
def sendGetResponse (conn : Conn) (env : Env) (error : Option Errno) (reqId : UInt64)
    (val : Mbuff) :
    Ending × List Reply :=
  let valLen := if error = none then val.validSize else 0
  if valLen = 0 then (sendFull conn env.send, [.get error reqId []])
  else
    match val.getValidNchunks 0 valLen with
    | none => (.assertion, [])
    | some nchunks =>
      if 8 < nchunks + 1 ∧ env.malloc = false then (.ret (some .enomem), [])
      else
        match val.fillIovecValid 0 valLen nchunks with
        | none => (.assertion, [])
        | some iov =>
          if iov.length = nchunks ∧ iov.flatten.length = valLen then
            (sendFull conn env.send, [.get error reqId iov.flatten])
          else (.assertion, [])

/-- `serve_kv_request` once the request is received. -/
def execute (conn : Conn) (env : Env) (hdr : ReqHdr) (mb result : Mbuff) : Served :=
  match hdr.bodyLen, hdr.known with
  | some bodySize, some op =>
    if mb.validSize ≠ putKeyvalPrefixSize + bodySize then ⟨.assertion, [], [], mb, result⟩
    else
      let body := (mb.reslice bodySize putKeyvalPrefixSize).getD mb
      match op with
      | .nop => ⟨sendFull conn env.send, [.hdr none hdr.reqId], [], body, result⟩
      | .put =>
        let r := env.kv.put body hdr.keyLen.toNat
        ⟨sendFull conn env.send, [.hdr r.1 hdr.reqId], [.put body hdr.keyLen.toNat], r.2, result⟩
      | .get =>
        let r := env.kv.get body result.resliceZero
        let s := sendGetResponse conn env r.1 hdr.reqId r.2
        ⟨s.1, s.2, [.get body], body, r.2⟩
      | .del => ⟨.ret (some enotsup), [], [], body, result⟩
  | _, _ => ⟨.abort, [], [], mb, result⟩

def serveKvRequest (conn : Conn) (env : Env) (evs : List Recv) (reqBody result : Mbuff) :
    Served :=
  let mb := (reqBody.resliceZero.mbuffAddBuffers env.prefixAlloc
    putKeyvalPrefixSize).appendUninitialized putKeyvalPrefixSize
  let r := recvRequest conn env evs mb
  match r.ending with
  | .wait => ⟨.wait, r.sent, [], r.mb, result⟩
  | .abort => ⟨.abort, r.sent, [], r.mb, result⟩
  | .assertion => ⟨.assertion, r.sent, [], r.mb, result⟩
  | .err e => ⟨.ret (some e), r.sent, [], r.mb, result⟩
  | .ok hdr => execute conn env hdr r.mb result

/-- Once a header is received, the rest of the body is there as well, or the end of the
stream or an error is. -/
def InTime (hdr : ReqHdr) : List Recv → Prop
  | .data b bs :: evs | .again :: .data b bs :: evs => sizeofReqHdr ≤ (b :: bs).length →
      Prompt (sizeofReqHdr + hdr.bodyLen.getD 0) (.data b bs :: evs)
  | _ => True

/-! ## What is received -/

/-- What holds when a request is received, by how that ended: for a header and what the
client has sent behind it. -/
def Recvd.Ok (hdr : ReqHdr) (body pre : List UInt8) (mb : Mbuff) : Recvd → Prop
  | .abort => hdr.magic = MAGIC ∧ hdr.known = none
  | .assertion => False
  | .ok hdr' => hdr' = hdr ∧ hdr.magic = MAGIC ∧ ∃ n, hdr.bodyLen = some n ∧ n ≤ body.length ∧
      mb.bytes = pre ++ body.take n ∧ mb.headOff = 0
  | .wait | .err _ => True

theorem bodyLen_eq_none {hdr : ReqHdr} (h : hdr.bodyLen = none) : hdr.known = none :=
  Option.map_eq_none_iff.mp h

variable {mb reqBody result : Mbuff}

/-- A connection keeps a good Mbuff, whatever comes in. -/
theorem recvBody_good (conn : Conn) (env : Env) (hdr : ReqHdr) (prev received : Nat)
    (evs : List Recv)
    (hg : mb.Good) : (recvBody conn env hdr prev received mb evs).mb.Good := by
  have hg1 := (hg.mbuffAddBuffers env.alloc (prev + (hdr.bodyLen.getD 0))).good
  rw [recvBody]
  split
  · exact hg
  · cases hlen : hdr.bodyLen with
    | none => exact hg
    | some n =>
      rw [hlen, Option.getD_some] at hg1
      dsimp only
      split
      · exact hg
      · split
        · obtain ⟨out, hext, -⟩ := recvAppendToMbuff_spec conn hg1.legit hg1.pos (n - received) evs
          have hg2 := (hg1.extends hext).good
          split <;> rename_i r hr <;> rw [hr] at hg2 <;> exact hg2
        · exact hg

theorem inTime_data {hdr : ReqHdr} {b : UInt8} {cs : List UInt8} {evs rest : List Recv}
    (hevs : evs = .data b cs :: rest ∨ evs = .again :: .data b cs :: rest)
    (hhdr : sizeofReqHdr ≤ (b :: cs).length) :
    InTime hdr evs ↔ Prompt (sizeofReqHdr + hdr.bodyLen.getD 0 - (b :: cs).length) rest := by
  rw [← prompt_waiting]
  rcases hevs with rfl | rfl
  all_goals exact ⟨fun h => h hhdr, fun h _ => h⟩

/-- A request is late only once its header is there, and less than its body. -/
theorem data_of_late {hdr : ReqHdr} {evs : List Recv} (h : ¬InTime hdr evs) :
    ∃ b cs rest, (evs = .data b cs :: rest ∨ evs = .again :: .data b cs :: rest) ∧
      sizeofReqHdr ≤ (b :: cs).length ∧
      (b :: cs).length < sizeofReqHdr + hdr.bodyLen.getD 0 := by
  obtain ⟨b, cs, rest, hevs, hhdr⟩ : ∃ b cs rest,
      (evs = .data b cs :: rest ∨ evs = .again :: .data b cs :: rest) ∧
        sizeofReqHdr ≤ (b :: cs).length := by
    by_contra hno
    refine h ?_
    unfold InTime
    split
    · exact fun hhdr => absurd ⟨_, _, _, .inl rfl, hhdr⟩ hno
    · exact fun hhdr => absurd ⟨_, _, _, .inr rfl, hhdr⟩ hno
    · trivial
  refine ⟨b, cs, rest, hevs, hhdr, ?_⟩
  by_contra hge
  refine h ((inTime_data hevs hhdr).mpr ?_)
  rw [Nat.sub_eq_zero_of_le (by omega)]
  exact prompt_zero rest

/-- The part of the body that the first receive does not take is there if the request is in
time. -/
theorem inTime_iff {hdr : ReqHdr} {bs : List UInt8} {evs evs' : List Recv} {m n : Nat}
    (hlen : hdr.bodyLen = some n)
    (hr : recv .trtEpoll (sizeofReqHdr + m) evs = (.data bs, evs'))
    (hhdr : sizeofReqHdr ≤ bs.length) (hle : bs.length ≤ sizeofReqHdr + n) :
    InTime hdr evs ↔ Prompt (n - (bs.length - sizeofReqHdr)) evs' := by
  obtain ⟨b, cs, rest, hevs, hbs, rfl⟩ := recv_trtEpoll_data hr
  have hlbs := congrArg List.length hbs
  rw [length_take] at hlbs
  rw [inTime_data hevs (by omega), hlen, Option.getD_some, prompt_waiting, length_drop]
  rw [show sizeofReqHdr + n - (b :: cs).length =
    n - (bs.length - sizeofReqHdr) - ((b :: cs).length - (sizeofReqHdr + m)) by omega]

theorem recvBody_spec {conn : Conn} {env : Env} {hdr : ReqHdr} {mb : Mbuff} {evs : List Recv}
    {pre body : List UInt8} {received : Nat} (hg : mb.Good) (hoff : mb.headOff = 0)
    (hb : mb.bytes = pre ++ body.take received) (hle : received ≤ body.length)
    (hs : stream evs = body.drop received) (hsend : conn = .trtEpoll → env.send ≠ .full)
    (hin : conn = .trtEpoll → hdr.magic = MAGIC → ∀ n, hdr.bodyLen = some n → received ≤ n →
      Prompt (n - received) evs) :
    (recvBody conn env hdr pre.length received mb evs).ending.Ok hdr body pre
      (recvBody conn env hdr pre.length received mb evs).mb := by
  rw [recvBody]
  split
  · dsimp only
    cases hsent : env.send with
    | ok | fail e => trivial
    | full =>
      cases conn with
      | socket => trivial
      | trtEpoll => exact absurd hsent (hsend rfl)
  · rename_i hmagic
    rw [not_not] at hmagic
    split
    · rename_i hlen
      exact ⟨hmagic, bodyLen_eq_none hlen⟩
    · rename_i n hlen
      dsimp only
      split
      · exact trivial
      · split
        · rename_i hlt
          -- the rest of the body comes from the stream
          have hg1 := (hg.mbuffAddBuffers env.alloc (pre.length + n)).good
          obtain ⟨out, hext, hout, hok, hunset⟩ := recvAppendToMbuff_spec conn hg1.legit hg1.pos
            (n - received) evs
          split <;> rename_i r hr
          case h_4 =>
            have hspace : n - received ≤
                (mb.mbuffAddBuffers env.alloc (pre.length + n)).appendAvailSize := by
              by_contra hno
              rw [recvAppendToMbuff, if_pos (by omega)] at hr
              simp at hr
            obtain ⟨ht, hlate⟩ := (recvAppendToMbuff_assertion conn hg1.legit hg1.pos hspace
              evs).mp (congrArg Prod.fst hr)
            exact hlate (hin ht hmagic n hlen (by omega))
          all_goals rw [hr] at hext hout hok hunset
          · have hlenout := hok rfl
            have hn : n ≤ body.length := by
              have := congrArg List.length (hs.symm.trans hout)
              rw [length_drop, length_append] at this
              omega
            have hbytes : r.1.bytes = pre ++ body.take n := by
              have hcut : body.take n = body.take received ++ out := by
                have h := congrArg (List.take (n - received)) (hs.symm.trans hout)
                rw [take_left' hlenout] at h
                rw [← h, ← take_add]
                congr 1
                omega
              rw [hext.bytes, Mbuff.bytes, Mbuff.mbuffAddBuffers_nodes, ← Mbuff.bytes, hb, hcut,
                append_assoc]
            have hsize : r.1.validSize = pre.length + n := by
              rw [hext.legit.validSize_eq, hbytes, length_append, length_take]
              omega
            rw [if_pos hsize]
            refine ⟨rfl, hmagic, n, hlen, hn, hbytes, ?_⟩
            rw [hext.headOff, Mbuff.headOff, Mbuff.mbuffAddBuffers_nodes, ← Mbuff.headOff, hoff]
          · exact trivial
          · exact trivial
          · have := hunset rfl
            omega
        · rename_i h1 h2
          obtain rfl : n = received := by omega
          have hsize : mb.validSize = pre.length + n := by
            rw [hg.legit.validSize_eq, hb, length_append, length_take]
            omega
          rw [if_pos hsize]
          exact ⟨rfl, hmagic, n, hlen, hle, hb, hoff⟩

/-- What the first receive brings behind the header is appended to the Mbuff. -/
theorem received_spec {conn : Conn} {evs evs' : List Recv} (hg : mb.Good) (len iovLen : Nat)
    {bs : List UInt8}
    (hr : recv conn (sizeofReqHdr + (mb.fillIovecAppend len iovLen).1.2) evs = (.data bs, evs'))
    (hpos : 0 < mb.bytes.length) (hhdr : sizeofReqHdr ≤ bs.length) :
    ∃ mb', ((mb.fillIovecAppend len iovLen).2.fillFrom mb.validSize
        (bs.drop sizeofReqHdr)).reslice (mb.validSize + bs.length - sizeofReqHdr) 0 = some mb' ∧
      mb'.Good ∧ mb'.bytes = mb.bytes ++ bs.drop sizeofReqHdr ∧
      mb'.headOff = mb.headOff ∧ mb'.layout.Perm mb.layout := by
  obtain ⟨-, hroom⟩ := recv_data hr
  have hrec : (bs.drop sizeofReqHdr).length = bs.length - sizeofReqHdr := length_drop
  rw [Nat.add_sub_assoc hhdr, ← hrec]
  have hlen : (bs.drop sizeofReqHdr).length ≤ (mb.fillIovecAppend len iovLen).1.2 := by omega
  generalize bs.drop sizeofReqHdr = bs at hlen
  obtain ⟨out, hext, hout⟩ := hg.legit.fillIovecAppend len iovLen
  have hvalid := hg.legit.validSize_eq
  have hsize := hext.validSize hg.legit
  obtain ⟨hleg, hlay, hoff, hbytes⟩ := @Mbuff.Legit.fillFrom _ hext.legit mb.validSize bs
    (by omega)
  rw [hext.bytes, hvalid, take_left, ← append_assoc] at hbytes
  have hsize' := hleg.validSize_eq
  rw [hvalid, hbytes, length_append, length_append] at hsize'
  obtain ⟨mb', hre, hleg', hbytes', hperm, hoff'⟩ := @Mbuff.Legit.reslice_end _ hleg
    (mb.validSize + bs.length) (by omega) (by rw [hvalid]; omega)
  have hperm' : mb'.layout.Perm mb.layout := hperm.trans (by rw [hlay, hext.layout])
  refine ⟨mb', hre, (hg.keeps_of_perm hleg' hperm').good, ?_, ?_, hperm'⟩
  · rw [hbytes', hvalid, hbytes, take_left' length_append]
  · rw [hoff', hoff, hext.headOff]

theorem recvRequest_good (conn : Conn) (env : Env) (evs : List Recv) (hg : mb.Good)
    (hpos : 0 < mb.bytes.length) : (recvRequest conn env evs mb).mb.Good := by
  obtain ⟨out, hext, -⟩ := hg.legit.fillIovecAppend mb.appendAvailSize
    (min (1 + mb.appendAvailNchunks) 8 - 1)
  have hg1 := (hg.extends hext).good
  rw [recvRequest]
  dsimp only
  split
  · exact hg1
  · exact hg1
  · exact hg1
  · rename_i bs evs' hr
    split
    · exact hg1
    · rename_i hlen
      obtain ⟨mb', hre, hg', -⟩ := received_spec hg _ _ hr hpos (by omega)
      rw [hre, Option.getD_some]
      exact recvBody_good _ _ _ _ _ _ hg'

/-- What comes in first, if it has a header. -/
theorem header_of_recv {conn : Conn} {hdr : ReqHdr} {evs evs' : List Recv} {m : Nat}
    {bs body : List UInt8} (hs : stream evs = hdr.toBytes ++ body)
    (hr : recv conn m evs = (.data bs, evs')) (hhdr : sizeofReqHdr ≤ bs.length) :
    ReqHdr.ofBytes (bs.take sizeofReqHdr) = hdr ∧
      body = bs.drop sizeofReqHdr ++ stream evs' := by
  obtain ⟨hbs, -⟩ := recv_data hr
  rw [hs] at hbs
  constructor
  · have h := congrArg (List.take sizeofReqHdr) hbs
    rw [take_left' hdr.toBytes_length, take_append_of_le_length hhdr] at h
    rw [← h, ReqHdr.ofBytes_toBytes]
  · have h := congrArg (List.drop sizeofReqHdr) hbs
    rwa [drop_left' hdr.toBytes_length, drop_append_of_le_length hhdr] at h

theorem recvRequest_spec {conn : Conn} {env : Env} {hdr : ReqHdr} {evs : List Recv}
    {body : List UInt8} (hg : mb.Good) (hoff : mb.headOff = 0) (hpos : 0 < mb.bytes.length)
    (hs : stream evs = hdr.toBytes ++ body) (hsend : conn = .trtEpoll → env.send ≠ .full)
    (hin : conn = .trtEpoll → hdr.magic = MAGIC → InTime hdr evs) :
    (recvRequest conn env evs mb).ending.Ok hdr body mb.bytes (recvRequest conn env evs mb).mb := by
  rw [recvRequest]
  dsimp only
  split
  · exact trivial
  · exact trivial
  · exact trivial
  · rename_i bs evs' hr
    split
    · exact trivial
    · rename_i hlen
      obtain ⟨hhdr, hbody⟩ := header_of_recv hs hr (by omega)
      have hrec : (bs.drop sizeofReqHdr).length = bs.length - sizeofReqHdr := length_drop
      obtain ⟨mb', hre, hg', hbytes, hoff', -⟩ := received_spec hg _ _ hr hpos (by omega)
      rw [hre, Option.getD_some, hhdr, hg.legit.validSize_eq]
      refine recvBody_spec hg' (hoff'.trans hoff) ?_ ?_ ?_ hsend ?_
      · rw [hbytes, hbody, take_left' hrec]
      · rw [hbody, length_append, hrec]
        omega
      · rw [hbody, drop_left' hrec]
      · rintro rfl hmagic n hn hle
        exact (inTime_iff hn hr (by omega) (by omega)).mp (hin rfl hmagic)

/-! ## A connection -/

theorem start_spec (env : Env) (h : reqBody.Good) :
    ∃ mb, (reqBody.resliceZero.mbuffAddBuffers env.prefixAlloc
        putKeyvalPrefixSize).appendUninitialized putKeyvalPrefixSize = mb ∧
      mb.Good ∧ mb.headOff = 0 ∧ mb.bytes.length = putKeyvalPrefixSize ∧
      mb.layout = grown reqBody.resliceZero.layout putKeyvalPrefixSize := by
  obtain ⟨mb1, hgrow, hc, hlay, hfree⟩ := h.cached.grow env.prefix_some putKeyvalPrefixSize
  have heq : reqBody.resliceZero.mbuffAddBuffers env.prefixAlloc putKeyvalPrefixSize = mb1 := by
    rw [← hgrow]
    split
    · rfl
    · rw [Mbuff.mbuffAddBuffers, if_pos (by omega)]
  obtain ⟨out, hext, hout⟩ := hc.legit.appendUninitialized hc.good.pos putKeyvalPrefixSize
    (by rw [hc.avail]; exact hfree)
  rw [heq]
  refine ⟨_, rfl, (hc.good.extends hext).good, ?_, ?_, hext.layout.trans hlay⟩
  · rw [hext.headOff, Mbuff.headOff, hc.nodes]
    rfl
  · rw [hext.bytes, Mbuff.bytes, hc.nodes]
    exact hout

end KvServer

end UDepot
