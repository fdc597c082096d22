import UDepot.McGet

/-! The commands of the memcache front end that read an item and write it back: `append`,
`prepend`, `incr` and `decr`. Each is a `get` and then a `put` that does not ask whether
the item is still the one that was read. -/

namespace UDepot.Memcache
open Numerals Bytes Config
open Store (Errno KvMap)

/-- What a handler comes to: a response, the new number of an arithmetic command, or nothing:
without memory for its Mbuff an arithmetic command returns without one. -/
inductive Answer where
  | rsp (r : Rsp)
  | number (text : List UInt8)
  | silent
deriving DecidableEq

/-! ## `append` and `prepend` -/

/-- `handle_store` up to its `switch`, where the block comes in whole; `false` if there is
no memory. -/
def loadBlock (alloc : IoAlloc) (mb : Mbuff) (key data : List UInt8) : Bool × Mbuff :=
  let msgSize := data.length + crlf.length
  let storeSize := putKeyvalPrefixSize + key.length + data.length + 4 + 8 + putKeyvalSuffixSize
  let mbuffSize := max storeSize msgSize
  let mb := mb.resliceZero.mbuffAddBuffers alloc mbuffSize
  if mb.freeSize < mbuffSize then (false, mb)
  else
    let mb := ((mb.appendUninitialized putKeyvalPrefixSize).appendFromBuffer key).2
    let mb := (mb.appendFromBuffer (data ++ crlf)).2
    (true, (mb.reslice (key.length + data.length) putKeyvalPrefixSize).getD mb)

/-- The old item of an `append` or `prepend`. -/
def oldItem (env : Env) (m : KvMap) (key : List UInt8) : Option Mbuff :=
  let keyMb := Mbuff.empty.mbuffAddBuffers env.alloc key.length
  if keyMb.freeSize < key.length then none
  else
    let r := keyMb.appendFromBuffer key
    if r.1 ≠ [] then none
    else
      match kvGetForMc env m r.2 .empty with
      | (some _, _) => none
      | (none, old) => some old

/-- The response to the `put` of an `append` or `prepend`. -/
def putRsp : Option Errno → Rsp
  | none => .stored
  | some _ => .serverError

/-- `prepend` with its old item: that is appended to key and block. -/
def prependPut (env : Env) (m : KvMap) (key : List UInt8) (mb old : Mbuff) : Rsp × KvMap × Mbuff :=
  let mb := mb.mbuffAddBuffers env.alloc old.validSize
  if mb.freeSize < old.validSize then (.serverError, m, mb)
  else
    let r := mb.appendFromMbuff old 0 old.validSize
    if r.1 ≠ old.validSize then (.serverError, m, r.2)
    else
      let p := env.put m r.2 key.length .normal
      (putRsp p.1, p.2)

/-- The last `n` bytes of an item are appended, and an item without them. -/
def appendEnd (mb old : Mbuff) (n : Nat) : Mbuff := (mb.appendFromMbuff old (fromEnd old n) n).2
def withoutEnd (old : Mbuff) (n : Nat) : Mbuff := (old.reslice (fromEnd old n) 0).getD old

/-- The block of an `append` without the key, and behind it expiry and flags of the old
item. -/
def blockTrailer (key : List UInt8) (vlen : Nat) (mb old : Mbuff) : Mbuff :=
  appendEnd ((mb.reslice vlen key.length).getD mb) old trailerSize

def joined (key : List UInt8) (mb old : Mbuff) : Mbuff :=
  ((old.appendFromMbuff mb 0 mb.validSize).2.prependFromBuffer key).2

/-- The `put` of an item in an Mbuff of its own; the other one is that of the connection. -/
def putItem (env : Env) (m : KvMap) (key : List UInt8) (kv mb : Mbuff) : Rsp × KvMap × Mbuff :=
  let p := env.put m kv key.length .normal
  (putRsp p.1, p.2.1, mb)

/-- `append` with its old item, as it goes on where its assertions (`AppendAsserts`) hold or are
compiled out. -/
def appendPut (env : Env) (m : KvMap) (key : List UInt8) (vlen : Nat) (mb old : Mbuff) :
    Rsp × KvMap × Mbuff :=
  let old := old.mbuffAddBuffers env.alloc mb.validSize
  if old.freeSize < mb.validSize then (.serverError, m, mb)
  else
    let mb := blockTrailer key vlen mb old
    putItem env m key (joined key mb (withoutEnd old trailerSize)) mb

/-- The assertions of `append` with its old item, if there is memory: expiry and flags were copied,
there are free buffers for key, header and block, and block and key were copied. -/
def AppendAsserts (alloc : IoAlloc) (key : List UInt8) (vlen : Nat) (mb old : Mbuff) : Prop :=
  let old := old.mbuffAddBuffers alloc mb.validSize
  let block := (mb.reslice vlen key.length).getD mb
  let rest := withoutEnd old trailerSize
  let new := blockTrailer key vlen mb old
  let r := rest.appendFromMbuff new 0 new.validSize
  mb.validSize ≤ old.freeSize →
    (block.appendFromMbuff old (fromEnd old trailerSize) trailerSize).1 = trailerSize ∧
      key.length + putKeyvalPrefixSize + new.validSize ≤ rest.freeSize ∧
      r.1 = new.validSize ∧ (r.2.prependFromBuffer key).1 = []

/-! ## `incr` and `decr` -/

/-- The number that an old item holds: `msg` has place for 22 characters. -/
def oldNumber (old : Mbuff) : Option Nat :=
  let valSize := fromEnd old trailerSize
  let msg := old.copyToBuffer 0 (min 22 valSize)
  if valSize ≤ 2 ∨ 20 < valSize then none else safeStrtoull (msg.takeWhile (· ≠ 0))

/-- Whether an arithmetic command goes on, by the number of the old item. -/
def arithNumber (mb old : Mbuff) : Option Nat → (Answer × Mbuff) ⊕ (Mbuff × Mbuff)
  | none => .inl (.rsp .clientErrorNonNumeric, mb)
  | some _ => .inr (old, mb)

def arithRead (env : Env) (m : KvMap) (mb : Mbuff) : (Answer × Mbuff) ⊕ (Mbuff × Mbuff) :=
  match kvGetForMc env m mb .empty with
  | (some _, _) => .inl (.rsp .notFound, mb)
  | (none, old) => arithNumber mb old (oldNumber old)

def arithKey (key : List UInt8) (mb : Mbuff) : Mbuff :=
  let mb := (mb.appendFromBuffer key).2
  (mb.reslice key.length putKeyvalPrefixSize).getD mb

def arithSize (key : List UInt8) : Nat :=
  putKeyvalPrefixSize + key.length + 20 + 4 + 8 + putKeyvalSuffixSize

/-- `handle_arithmetic_cmd` up to where the old number is read. -/
def arithGet (env : Env) (m : KvMap) (key : List UInt8) (mb : Mbuff) :
    (Answer × Mbuff) ⊕ (Mbuff × Mbuff) :=
  let mb := mb.resliceZero.mbuffAddBuffers env.alloc (arithSize key)
  if mb.freeSize < arithSize key then .inl (.silent, mb) else arithRead env m (arithKey key mb)

/-- The item with the new number, and expiry and flags of the old one. -/
def arithItem (key : List UInt8) (num : Nat) (mb old : Mbuff) : Mbuff :=
  let mb := ((mb.resliceZero.appendUninitialized putKeyvalPrefixSize).appendFromBuffer key).2
  let mb := appendEnd (mb.appendFromBuffer (dec num)).2 old trailerSize
  (mb.reslice (key.length + (dec num).length + trailerSize) putKeyvalPrefixSize).getD mb

/-- The rest of `handle_arithmetic_cmd`, with the new number. -/
def arithPut (env : Env) (m : KvMap) (key : List UInt8) (num : Nat) (mb old : Mbuff) :
    Answer × KvMap × Mbuff :=
  let p := env.put m (arithItem key num mb old) key.length .normal
  (match p.1 with
    | some _ => .rsp .serverError
    | none => .number (dec num ++ crlf), p.2)

/-! ## The commands in two phases -/

inductive Rmw where
  | append (data : List UInt8)
  | prepend (data : List UInt8)
  | incr (num : Fin (2 ^ 64))
  | decr (num : Fin (2 ^ 64))

/-- A command on a key, with what it meets in its two phases. -/
structure Issue where
  cmd : Rmw
  key : Key
  env : Env
  env' : Env

/-- The number that an arithmetic command makes of an old one. -/
def Rmw.arith : Rmw → Nat → Nat
  | .incr num, old => (num.val + old) % 2 ^ 64
  | .decr num, old => if old < num then 0 else old - num
  | _, old => old

/-- The first phase of `append` and `prepend` with the block in the Mbuff. -/
def storeRead (env : Env) (m : KvMap) (key : List UInt8) :
    Bool × Mbuff → (Answer × Mbuff) ⊕ (Mbuff × Mbuff)
  | (false, mb) => .inl (.rsp .serverError, mb)
  | (true, mb) =>
    match oldItem env m key with
    | none => .inl (.rsp .serverError, mb)
    | some old => .inr (old, mb)

/-- A command up to its `get`: it ends there, or goes on with the old item and the Mbuff of
the connection. -/
def Issue.start (c : Issue) (m : KvMap) (mb : Mbuff) : (Answer × Mbuff) ⊕ (Mbuff × Mbuff) :=
  match c.cmd with
  | .append data | .prepend data =>
    storeRead c.env m c.key.val (loadBlock c.env.alloc mb c.key.val data)
  | .incr _ | .decr _ => arithGet c.env m c.key.val mb

/-- The rest, with its `put`. -/
def Issue.finish (c : Issue) (m : KvMap) (p : Mbuff × Mbuff) : Answer × KvMap × Mbuff :=
  match c.cmd with
  | .append data =>
    let r := appendPut c.env' m c.key.val data.length p.2 p.1
    (.rsp r.1, r.2)
  | .prepend _ =>
    let r := prependPut c.env' m c.key.val p.2 p.1
    (.rsp r.1, r.2)
  | .incr _ | .decr _ =>
    arithPut c.env' m c.key.val (c.cmd.arith ((oldNumber p.1).getD 0)) p.2 p.1

/-! ## What they are for -/

/-- What is read of a value: its size has 32 bits. -/
def seen (v : List UInt8) : List UInt8 := v.take (v.length % 2 ^ 32)

/-- An item is its data with the expiry and the flags behind them. -/
def dataOf (v : List UInt8) : List UInt8 := v.take (v.length - trailerSize)
def trailerOf (v : List UInt8) : List UInt8 := v.drop (v.length - trailerSize)

def numberOf (v : List UInt8) : Option Nat :=
  let data := dataOf v
  if data.length ≤ 2 ∨ 20 < data.length then none else safeStrtoull (data.takeWhile (· ≠ 0))

/-- The item that a command makes of an old one. -/
def Rmw.new (c : Rmw) (v : List UInt8) : List UInt8 :=
  match c with
  | .append data => dataOf v ++ data ++ trailerOf v
  | .prepend data => data ++ v
  | .incr _ | .decr _ => dec (c.arith ((numberOf v).getD 0)) ++ trailerOf v

def Rmw.ack (c : Rmw) (v : List UInt8) : Answer :=
  match c with
  | .append _ | .prepend _ => .rsp .stored
  | .incr _ | .decr _ => .number (dec (c.arith ((numberOf v).getD 0)) ++ crlf)

def Answer.acked : Answer → Bool
  | .rsp .stored | .number _ => true
  | _ => false

/-- A command that was acknowledged has made the new item of the old one, and another has
changed nothing. -/
def Issue.Does (c : Issue) (a : Answer) (m m' : KvMap) : Prop :=
  if a.acked then
    ∃ v, m c.key.val = some v ∧ a = c.cmd.ack (seen v) ∧
      m' = Function.update m c.key.val (some (c.cmd.new (seen v)))
  else m' = m

end UDepot.Memcache
