import UDepot.MbuffStore
import UDepot.McParse

/-! The retrieval commands of the memcache front end: how the items of a reply are
laid out in `Mbuff`s and gathered into one message. -/

namespace UDepot.Memcache
open Numerals Bytes Config
open Store (Errno KvMap)

/-- What the handling of a request meets: the store, the clock, and what
`recv_append_to_mbuff` returns if its `recv_err` was not set. -/
structure Env extends Below where
  curTime : Int
  junk : Option Errno

/-- `end_get_rsp_msg_`. -/
def endMsg : List UInt8 := ascii "END\r\n"

def valueWord : List UInt8 := ascii "VALUE "

/-- The sizes of `expiry_` and `flags_`, which stand behind the data of an item. -/
def trailerSize : Nat := 8 + 4

/-- More chunks than this `sendmsg` does not take (`IOV_MAX`). -/
def iovMax : Nat := 1024

def fixedCmdSize : Nat := 5 + 4 + 4 + 8 + 2 + 6

def fromEnd (mb : Mbuff) (n : Nat) : Nat := (mb.validSize + 2 ^ 64 - n) % 2 ^ 64

def prepareKvmbuffForGet (alloc : IoAlloc) (key : List UInt8) (keyMb valMb : Mbuff) :
    Option Errno × Mbuff × Mbuff :=
  let keyMb := keyMb.resliceZero.mbuffAddBuffers alloc (key.length + fixedCmdSize)
  if keyMb.freeSize < key.length + fixedCmdSize then (some .enomem, keyMb, valMb)
  else
    let keyMb := ((keyMb.appendUninitialized valueWord.length).appendFromBuffer key).2
    (none, (keyMb.reslice key.length valueWord.length).getD keyMb, valMb.resliceZero)

/-- `kv_get_for_mc`: an item that has expired is not there. -/
def kvGetForMc (env : Env) (m : KvMap) (keyMb valMb : Mbuff) : Option Errno × Mbuff :=
  match env.get m keyMb valMb with
  | (some e, valMb) => (some e, valMb)
  | (none, valMb) =>
    let bs := valMb.copyToBuffer (fromEnd valMb trailerSize) 8
    if bs.length ≠ 8 then (some .enodata, valMb)
    else
      let expiry : Int := (leNat bs : Int).bmod (2 ^ 64)
      if expiry ≠ 0 ∧ expiry < env.curTime then (some .enodata, valMb) else (none, valMb)

/-- What follows the key on the line of an item; the length is an `int`. -/
def midMsg (flags valSize : Nat) : List UInt8 :=
  ascii " " ++ dec flags ++ ascii " " ++ decInt (((valSize : Int) - trailerSize).bmod (2 ^ 32)) ++
    ascii " \r\n"

def prepareKvmbuffForSend (alloc : IoAlloc) (keyMb valMb : Mbuff) : Option Errno × Mbuff × Mbuff :=
  let keyMb := (keyMb.prependFromBuffer valueWord).2
  let flags := leNat (valMb.copyToBuffer (fromEnd valMb 4) 4)
  let msg := midMsg flags valMb.validSize
  if msg.length < 7 ∨ 31 < msg.length then (some .einval, keyMb, valMb)
  else
    let keyMb := (keyMb.appendFromBuffer msg).2
    let valMb := valMb.mbuffAddBuffers alloc crlf.length
    let valMb := (valMb.reslice (fromEnd valMb trailerSize) 0).getD valMb
    (none, keyMb, (valMb.appendFromBuffer crlf).2)

/-- What `handle_single_kv_get` gives: how many chunks and bytes the item has. -/
structure SingleGet where
  err : Option Errno
  key : Mbuff
  val : Mbuff
  len : Nat
  lenb : Nat

def handleSingleKvGet (env : Env) (m : KvMap) (key : List UInt8) (keyMb valMb : Mbuff) :
    SingleGet :=
  match prepareKvmbuffForGet env.alloc key keyMb valMb with
  | (some e, keyMb, valMb) => ⟨some e, keyMb, valMb, 0, 0⟩
  | (none, keyMb, valMb) =>
    match kvGetForMc env m keyMb valMb with
    | (some e, valMb) => ⟨some e, keyMb, valMb, 0, 0⟩
    | (none, valMb) =>
      match prepareKvmbuffForSend env.alloc keyMb valMb with
      | (some e, keyMb, valMb) => ⟨some e, keyMb, valMb, 0, 0⟩
      | (none, keyMb, valMb) =>
        let lenb := keyMb.validSize + valMb.validSize
        match keyMb.getValidNchunks 0 keyMb.validSize, valMb.getValidNchunks 0 valMb.validSize with
        | some lenk, some lenv => ⟨none, keyMb, valMb, lenk + lenv, lenb⟩
        | _, _ => ⟨some .einval, keyMb, valMb, 0, lenb⟩

/-- `fill_iovec_valid` for one Mbuff after another, with `n` places left: the chunks, the
places then left, and whether all Mbuffs were filled in whole. -/
def fillIovecs : List Mbuff → Nat → List (List UInt8) × Nat × Bool
  | [], n => ([], n, true)
  | mb :: rest, n =>
    match mb.fillIovecValid 0 mb.validSize n with
    | none => ([], n, false)
    | some cs =>
      if cs = [] ∨ cs.flatten.length ≠ mb.validSize then ([], n, false)
      else
        let r := fillIovecs rest (n - cs.length)
        (cs ++ r.1, r.2)

/-- `sendv_full`: the bytes sent. A `sendmsg` that takes the chunks takes all their bytes. -/
def sendvFull (iov : List (List UInt8)) : Option (List UInt8) :=
  if iovMax < iov.length then none else some iov.flatten

/-- What is sent if the chunks are complete, and then the end message alone if the number
of bytes is not the expected one. -/
def sendItems (iov : List (List UInt8)) (lenb : Nat) : List UInt8 :=
  match sendvFull iov with
  | none => endMsg
  | some sent => if sent.length ≠ lenb then sent ++ endMsg else sent

/-- What a retrieval leaves: the Mbuffs of the connection, the cache and what was sent. -/
structure Got where
  key : Mbuff
  val : Mbuff
  cache : List Mbuff
  reply : List UInt8

/-- `handle_get` of one key. -/
def handleOneGet (env : Env) (m : KvMap) (key : List UInt8) (keyMb valMb : Mbuff)
    (cache : List Mbuff) : Got :=
  let r := handleSingleKvGet env m key keyMb valMb
  match r.err with
  | some _ => ⟨r.key, r.val, cache, endMsg⟩
  | none =>
    let a := r.val.appendFromBuffer endMsg
    let f := fillIovecs [r.key, a.2] r.len
    ⟨r.key, a.2, cache,
      if f.2.2 then sendItems f.1 ((r.lenb + (endMsg.length - a.1.length)) % 2 ^ 32) else endMsg⟩

end UDepot.Memcache
