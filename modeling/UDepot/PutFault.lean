import UDepot.AccountRun

/-! `put` with everything that can go wrong on its way: a read of the lookup fails or
its buffers are not allocated, the allocation of the grains fails, the record is not
built or its write fails. Without such failures it is the `put` of the store. -/

namespace UDepot.Store
open Bytes UDepotMap Directory Config

variable {c : Config}

/-! ## Errors -/

/-- A non-zero error number. -/
structure Errno where
  val : Nat
  ne_zero : val ≠ 0
  deriving DecidableEq, Repr

namespace Errno

def eagain : Errno := ⟨11, by decide⟩
def enomem : Errno := ⟨12, by decide⟩
def eexist : Errno := ⟨17, by decide⟩
def einval : Errno := ⟨22, by decide⟩
def enospc : Errno := ⟨28, by decide⟩
def enodata : Errno := ⟨61, by decide⟩
def ealready : Errno := ⟨114, by decide⟩

end Errno

/-- An error of one round of the lookup: `ENOMEM` for its buffer, or the error of its
read. A read returns `ENOSPC` only into a buffer without room, and the room was checked
before it. -/
structure ReadErr where
  err : Errno
  ne_enospc : err ≠ .enospc
  deriving DecidableEq, Repr

/-- What a call returns: 0, an error, or not at all, after a null `trgt` was used. -/
inductive Ret where
  | ok
  | err (e : Errno)
  | crash
  deriving DecidableEq, Repr

/-- The `u64` that `old_pba` starts from. -/
def noPba : Nat := 2 ^ 64 - 1

def PutRc.ret : PutRc → Ret × Nat
  | .ok => (.ok, noPba)
  | .einval => (.err .einval, noPba)
  | .enospc => (.err .enospc, noPba)
  | .ealready oldPba => (.err .ealready, oldPba)

/-! ## The map -/

/-- The round of the lookup loop that fails, if the loop gets to it. -/
def lookupFault (t : UDepotMap c.bits) (h : Nat) (isMatch : HashEntry → Bool) :
    Nat → List Nat → List (Option ReadErr) → Option ReadErr
  | 0, _, _ => none
  | _ + 1, _, [] => none
  | n + 1, visited, f :: rest =>
    match lookupCommon t h visited with
    | .trgt (some q) =>
      match f with
      | some e => some e
      | none =>
        if isMatch (t.ht q) then none
        else lookupFault t h isMatch n ((t.ht q).pba :: visited) rest
    | _ => none

theorem lookupFault_nil (t : UDepotMap c.bits) (h : Nat) (isMatch : HashEntry → Bool) (n : Nat)
    (visited : List Nat) : lookupFault t h isMatch n visited [] = none := by
  cases n <;> rfl

/-- The failure of `lookup_mbuff_put`. -/
def putLookupFault (s : Store c) (k : List UInt8) (reads : List (Option ReadErr)) :
    Option ReadErr :=
  lookupFault (s.table (c.hash k)) (c.hash k) (keyMatch c s.media k) lookupRounds [] reads

/-- `local_put_mbuff` and `*old_pba_out`. Its `switch` takes the error of a read for
the answer of the lookup when the two have one number; `trgt` is null then. -/
def localPutMbuffFault (s : Store c) (k v : List UInt8) (grain : Nat) (op : PutOp)
    (reads : List (Option ReadErr)) : Store c × Ret × Nat :=
  match s.putLookupFault k reads with
  | some e =>
    if e.err = .enodata then (s, if op = .replace then .err .einval else .crash, noPba)
    else if e.err = .eexist then (s, if op = .create then .err .einval else .crash, noPba)
    else (s, .err e.err, noPba)
  | none => ((s.localPutMbuff k v grain op).1, (s.localPutMbuff k v grain op).2.ret)

/-- One round of the inner loop of `put`: the reads of its lookup, and how the tables of
a growth are allocated. -/
structure MapRound where
  reads : List (Option ReadErr)
  allocs : List TableAlloc
  deriving DecidableEq, Repr

/-- The inner loop of `put`. -/
def putMapFault (s : Store c) (k v : List UInt8) (grain : Nat) (op : PutOp) :
    List MapRound → Store c × Ret × Nat
  | [] => s.localPutMbuffFault k v grain op []
  | r :: rest =>
    match s.localPutMbuffFault k v grain op r.reads with
    | (s1, .err e, oldPba) =>
      if e = .enospc then
        match s1.grow r.allocs with
        | (s2, true) => putMapFault s2 k v grain op rest
        | (s2, false) => (s2, .err .enospc, oldPba)
      else if e = .eagain then putMapFault s1 k v grain op rest
      else (s1, .err e, oldPba)
    | x => x

/-! ## The device -/

/-- How `local_put_mbuff_io` goes: nothing is allocated; the record is not built, or its
write fails after the bytes `bs`; or it is written. -/
inductive IoRun where
  | notAllocated (e : Errno)
  | failed (i : Nat) (bs : List UInt8) (e : Errno)
  | written (i : Nat)
  deriving DecidableEq, Repr

/-- What the environment decides in one round of `put`. -/
structure PutRound where
  io : IoRun
  maps : List MapRound
  drained : Nat
  deriving DecidableEq, Repr

/-- `put`; where the rounds end, the allocation fails. -/
def putFault (s : Store c) (k v : List UInt8) (op : PutOp) : List PutRound → Store c × Ret
  | [] => (s, .err .enospc)
  | a :: rest =>
    match a.io with
    | .notAllocated e => if e = .eagain then putFault s k v op rest else (s, .err e)
    | .failed i bs e =>
      match s.ioFail i (c.ioSizeGrains k v) bs with
      | none => (s, .err .enospc)
      | some s1 => if e = .eagain then putFault s1 k v op rest else (s1, .err e)
    | .written i =>
      match s.localPutMbuffIo i k v with
      | none => (s, .err .enospc)
      | some (g, s1) =>
        match s1.putMapFault k v g op a.maps with
        | (s2, .err e, oldPba) =>
          if e = .ealready then putFault (s2.putRetry k v g oldPba a.drained) k v op rest
          else (s2.invalidateGrains g (c.kvTotGrainsGet k.length v.length), .err e)
        | (s2, r, _) => (s2, r)

/-! ## Without failures -/

theorem localPutMbuffFault_nil (s : Store c) (k v : List UInt8) (g : Nat) (op : PutOp) :
    s.localPutMbuffFault k v g op [] =
      ((s.localPutMbuff k v g op).1, (s.localPutMbuff k v g op).2.ret) := by
  unfold localPutMbuffFault putLookupFault
  rw [lookupFault_nil]

/-- A round without failures. -/
def PutAttempt.round (a : PutAttempt) : PutRound :=
  ⟨.written a.seg, a.grows.map fun allocs => ⟨[], allocs⟩, a.drained⟩

theorem putMapFault_eq_putMap (s : Store c) (k v : List UInt8) (g : Nat) (op : PutOp)
    (grows : List (List TableAlloc)) :
    s.putMapFault k v g op (grows.map fun allocs => ⟨[], allocs⟩) =
      ((s.putMap k v g op grows).1, (s.putMap k v g op grows).2.ret) := by
  induction grows generalizing s with
  | nil => exact localPutMbuffFault_nil s k v g op
  | cons allocs rest ih =>
    rw [List.map_cons, putMapFault, putMap, localPutMbuffFault_nil]
    cases hl : s.localPutMbuff k v g op with
    | mk s1 rc =>
      cases rc with
      | ok | einval | ealready => rfl
      | enospc =>
        cases hg : s1.grow allocs with
        | mk s2 ok =>
          cases ok with
          | true => simpa [PutRc.ret, hg] using ih s2
          | false => simp [PutRc.ret, hg]

/-- Without failures it is the `put` of the store. -/
theorem putFault_eq_put (s : Store c) (k v : List UInt8) (op : PutOp) (as : List PutAttempt) :
    s.putFault k v op (as.map PutAttempt.round) =
      ((s.put k v op as).1, (s.put k v op as).2.ret.1) := by
  induction as generalizing s with
  | nil => rfl
  | cons a rest ih =>
    rw [List.map_cons, putFault, put, PutAttempt.round]
    dsimp only
    cases hio : s.localPutMbuffIo a.seg k v with
    | none => rfl
    | some x =>
      obtain ⟨g, s1⟩ := x
      dsimp only
      rw [putMapFault_eq_putMap]
      cases hm : s1.putMap k v g op a.grows with
      | mk s2 rc =>
        cases rc with
        | ok | einval | enospc => rfl
        | ealready oldPba => exact ih _

end UDepot.Store
