import UDepot.PutBuild

/-! What the servers receive from a connection: `recv`, `recv_full`, which goes on until
it has all bytes it is asked for, and `recv_append_to_mbuff`, which receives into the free
space of an Mbuff. On a `ConnectionSocket` a call that finds nothing blocks. On a
`ConnectionTrtEpoll` it suspends its coroutine until `epoll` reports the socket, which is
right for a coroutine that awaits it; `recv_full` does not: `run_sync` resumes it at once. -/

namespace UDepot.Socket
open Store (Errno)
open List

def econnreset : Errno := ⟨104, by decide⟩

/-- The two classes of connections under the key-value server. -/
inductive Conn where
  | socket
  | trtEpoll
deriving DecidableEq

/-- What the calls of `recv` meet, in order: bytes that have come in, at least one, the
end of the stream, an error, or nothing yet. -/
inductive Recv where
  | data (b : UInt8) (bs : List UInt8)
  | closed
  | fail (e : Errno)
  | again
deriving DecidableEq

/-- Bytes as they wait in the socket. -/
def waiting : List UInt8 → List Recv
  | [] => []
  | b :: bs => [.data b bs]

/-- What the peer has sent. -/
def stream : List Recv → List UInt8
  | [] => []
  | .data b bs :: evs => b :: bs ++ stream evs
  | .closed :: evs => stream evs
  | .fail _ :: evs => stream evs
  | .again :: evs => stream evs

/-- The result of a `recv`; `wait` while it has not returned. -/
inductive Got where
  | wait
  | closed
  | fail (e : Errno)
  | data (bs : List UInt8)
deriving DecidableEq

/-- The system call, with room for `n` bytes. What it leaves stays in the socket. -/
def sysRecv (n : Nat) : List Recv → Got × List Recv
  | [] => (.wait, [])
  | .closed :: evs => (.closed, .closed :: evs)
  | .fail e :: evs => (.fail e, evs)
  | .again :: evs => (.fail .eagain, evs)
  | .data b bs :: evs => (.data ((b :: bs).take n), waiting ((b :: bs).drop n) ++ evs)

/-- A `recv` or `recvmsg` that is awaited. -/
def recv (conn : Conn) (n : Nat) : List Recv → Got × List Recv
  | .again :: evs =>
    match conn with
    | .socket => recv conn n evs
    -- `await_resume` makes the call once more, whatever comes of it
    | .trtEpoll => sysRecv n evs
  | evs => sysRecv n evs

/-- `recv_err`: not assigned yet, 0, or -1 with its `errno`; or `recv` has not returned; or
its result was taken before it was ready. -/
inductive RecvErr where
  | unset
  | ok
  | err (e : Errno)
  | wait
  | assertion
deriving DecidableEq

/-- What `run_sync` makes of a call that finds nothing: it blocks, or it is resumed and
`get_ret` asserts that the result is ready. -/
def Conn.runSync : Conn → RecvErr
  | .socket => .wait
  | .trtEpoll => .assertion

/-- How sending ends; `full` while the peer does not take what was sent and the socket has
no space for more. -/
inductive Sent where
  | ok
  | fail (e : Errno)
  | full
deriving DecidableEq

structure Received where
  bytes : List UInt8
  err : RecvErr
  evs : List Recv

/-- `recv_full` for `n` bytes. -/
def recvFull (conn : Conn) : List Recv → Nat → Received
  | evs, 0 => ⟨[], .ok, evs⟩
  | [], _ + 1 => ⟨[], conn.runSync, []⟩
  | .closed :: evs, _ + 1 => ⟨[], .err econnreset, .closed :: evs⟩
  | .fail e :: evs, _ + 1 => ⟨[], .err e, evs⟩
  | .again :: evs, n + 1 =>
    match conn with
    | .socket => recvFull conn evs (n + 1)
    | .trtEpoll => ⟨[], conn.runSync, .again :: evs⟩
  | .data b bs :: evs, n + 1 =>
    if n < bs.length then ⟨(b :: bs).take (n + 1), .ok, waiting ((b :: bs).drop (n + 1)) ++ evs⟩
    else
      let r := recvFull conn evs (n - bs.length)
      ⟨b :: bs ++ r.bytes, r.err, r.evs⟩

/-- The next `n` bytes are there when they are received, or the end of the stream or an
error is. -/
def Prompt : Nat → List Recv → Prop
  | 0, _ => True
  | _ + 1, [] => False
  | _ + 1, .again :: _ => False
  | _ + 1, .closed :: _ => True
  | _ + 1, .fail _ :: _ => True
  | n + 1, .data _ bs :: evs => Prompt (n - bs.length) evs

/-! ## What was received -/

@[simp] theorem stream_append (evs evs' : List Recv) :
    stream (evs ++ evs') = stream evs ++ stream evs' := by
  induction evs with
  | nil => rfl
  | cons ev evs ih => cases ev <;> simp [stream, ih]

@[simp] theorem stream_waiting (bs : List UInt8) : stream (waiting bs) = bs := by
  cases bs <;> simp [waiting, stream]

variable {conn : Conn} {bs : List UInt8}

theorem sysRecv_data {n : Nat} {evs evs' : List Recv} (h : sysRecv n evs = (.data bs, evs')) :
    stream evs = bs ++ stream evs' ∧ bs.length ≤ n := by
  cases evs with
  | nil => simp [sysRecv] at h
  | cons ev evs =>
    cases ev with
    | closed | fail e | again => simp [sysRecv] at h
    | data b cs =>
      simp only [sysRecv, Prod.mk.injEq, Got.data.injEq] at h
      obtain ⟨rfl, rfl⟩ := h
      rw [stream_append, stream_waiting, ← append_assoc, take_append_drop]
      exact ⟨rfl, length_take_le _ _⟩

theorem recv_data {n : Nat} {evs evs' : List Recv} (h : recv conn n evs = (.data bs, evs')) :
    stream evs = bs ++ stream evs' ∧ bs.length ≤ n := by
  induction evs with
  | nil => exact sysRecv_data h
  | cons ev evs ih =>
    cases ev with
    | closed | fail e | data b cs => exact sysRecv_data h
    | again =>
      cases conn with
      | socket => exact ih h
      | trtEpoll => exact @sysRecv_data bs n evs evs' h

/-- A `ConnectionTrtEpoll` waits at most once. -/
theorem recv_trtEpoll_data {n : Nat} {evs evs' : List Recv}
    (h : recv .trtEpoll n evs = (.data bs, evs')) :
    ∃ b cs rest, (evs = .data b cs :: rest ∨ evs = .again :: .data b cs :: rest) ∧
      bs = (b :: cs).take n ∧ evs' = waiting ((b :: cs).drop n) ++ rest := by
  have hsys : ∀ evs, sysRecv n evs = (.data bs, evs') → ∃ b cs rest, evs = .data b cs :: rest ∧
      bs = (b :: cs).take n ∧ evs' = waiting ((b :: cs).drop n) ++ rest := by
    intro evs h
    match evs with
    | [] | .closed :: _ | .fail _ :: _ | .again :: _ => simp [sysRecv] at h
    | .data b cs :: rest =>
      simp only [sysRecv, Prod.mk.injEq, Got.data.injEq] at h
      exact ⟨b, cs, rest, rfl, h.1.symm, h.2.symm⟩
  match evs with
  | .again :: evs =>
    obtain ⟨b, cs, rest, rfl, hbs⟩ := hsys evs h
    exact ⟨b, cs, rest, .inr rfl, hbs⟩
  | [] | .closed :: _ | .fail _ :: _ | .data _ _ :: _ =>
    obtain ⟨b, cs, rest, he, hbs⟩ := hsys _ h
    exact ⟨b, cs, rest, .inl he, hbs⟩

/-- `recv_full` takes bytes from the front of the stream, and returns no error exactly if
it has all. -/
theorem recvFull_spec (conn : Conn) (evs : List Recv) (n : Nat) :
    stream evs = (recvFull conn evs n).bytes ++ stream (recvFull conn evs n).evs ∧
      (recvFull conn evs n).bytes.length ≤ n ∧
      ((recvFull conn evs n).err = .ok ↔ (recvFull conn evs n).bytes.length = n) ∧
      (recvFull conn evs n).err ≠ .unset := by
  induction evs generalizing n with
  | nil => cases n <;> cases conn <;> simp [recvFull, stream, Conn.runSync]
  | cons ev evs ih =>
    cases n with
    | zero => simp [recvFull]
    | succ n =>
      cases ev with
      | closed | fail e => simp [recvFull, stream]
      | again =>
        cases conn with
        | socket => exact ih (n + 1)
        | trtEpoll => simp [recvFull, stream, Conn.runSync]
      | data b bs =>
        rw [recvFull]
        split
        · rename_i h
          refine ⟨?_, by simp, ?_, by simp⟩
          · rw [stream_append, stream_waiting, ← append_assoc, take_append_drop]
            rfl
          · simp
            omega
        · rename_i h
          obtain ⟨h1, h2, h3, h4⟩ := ih (n - bs.length)
          refine ⟨?_, ?_, ?_, h4⟩
          · rw [append_assoc, ← h1]
            rfl
          · simp only [length_append, length_cons]
            omega
          · dsimp only
            rw [h3, length_append, length_cons]
            omega

theorem recvFull_length_le (conn : Conn) (evs : List Recv) (n : Nat) :
    (recvFull conn evs n).bytes.length ≤ n :=
  (recvFull_spec conn evs n).2.1

theorem recvFull_waiting {n : Nat} (h : n ≤ bs.length) :
    recvFull conn (waiting bs) n = ⟨bs.take n, .ok, waiting (bs.drop n)⟩ := by
  cases n with
  | zero => cases bs <;> simp [recvFull, waiting]
  | succ n =>
    cases bs with
    | nil => simp at h
    | cons b bs =>
      rw [waiting, recvFull]
      by_cases hlt : n < bs.length
      · rw [if_pos hlt, append_nil]
      · obtain rfl : n = bs.length := by
          rw [length_cons] at h
          omega
        rw [if_neg hlt, Nat.sub_self, recvFull]
        simp [waiting]

/-! ## Bytes that come in time -/

@[simp] theorem prompt_zero (evs : List Recv) : Prompt 0 evs := by
  cases evs <;> trivial

theorem prompt_waiting (n : Nat) (bs : List UInt8) (evs : List Recv) :
    Prompt n (waiting bs ++ evs) ↔ Prompt (n - bs.length) evs := by
  cases bs with
  | nil => rfl
  | cons b bs =>
    cases n with
    | zero => simp
    | succ n =>
      rw [waiting, singleton_append, Prompt, length_cons, Nat.add_sub_add_right]

theorem prompt_of_le {n k : Nat} {evs : List Recv} (hle : n ≤ k) (h : Prompt k evs) :
    Prompt n evs := by
  induction evs generalizing n k with
  | nil =>
    cases n with
    | zero => trivial
    | succ n =>
      obtain ⟨k, rfl⟩ : ∃ k', k = k' + 1 := ⟨k - 1, by omega⟩
      exact h
  | cons ev evs ih =>
    cases n with
    | zero => trivial
    | succ n =>
      obtain ⟨k, rfl⟩ : ∃ k', k = k' + 1 := ⟨k - 1, by omega⟩
      cases ev with
      | data b bs => exact ih (k := k - bs.length) (by omega) h
      | closed | fail e => trivial
      | again => exact h

/-- `recv_full` takes a result before it is ready exactly on a `ConnectionTrtEpoll` whose
peer is late. Of what is needed later, that says nothing new if the call stopped short,
and otherwise it is needed without what was received. -/
theorem recvFull_prompt (conn : Conn) (evs : List Recv) {n k : Nat} (hle : n ≤ k) :
    ((recvFull conn evs n).err = .assertion ↔ conn = .trtEpoll ∧ ¬Prompt n evs) ∧
      (conn = .trtEpoll → (recvFull conn evs n).err ≠ .ok → (Prompt n evs → Prompt k evs)) ∧
      (conn = .trtEpoll → (recvFull conn evs n).err = .ok →
        (Prompt k evs ↔ Prompt (k - n) (recvFull conn evs n).evs)) := by
  induction evs generalizing n k with
  | nil =>
    cases n with
    | zero => simp [recvFull]
    | succ n => cases conn <;> simp [recvFull, Prompt, Conn.runSync]
  | cons ev evs ih =>
    cases n with
    | zero => simp [recvFull]
    | succ n =>
      obtain ⟨k, rfl⟩ : ∃ k', k = k' + 1 := ⟨k - 1, by omega⟩
      cases ev with
      | closed | fail e => simp [recvFull, Prompt]
      | again =>
        cases conn with
        | socket =>
          refine ⟨⟨fun h => ?_, by simp⟩, by simp, by simp⟩
          simpa using (ih hle).1.mp h
        | trtEpoll => simp [recvFull, Prompt, Conn.runSync]
      | data b bs =>
        rw [recvFull]
        split
        · rename_i h
          refine ⟨?_, by simp, fun _ _ => ?_⟩
          · simp [Prompt, Nat.sub_eq_zero_of_le (Nat.le_of_lt h)]
          · rw [prompt_waiting, Prompt, length_drop, length_cons]
            rw [show k + 1 - (n + 1) - (bs.length + 1 - (n + 1)) = k - bs.length by omega]
        · rename_i h
          obtain ⟨h1, h2, h3⟩ := ih (n := n - bs.length) (k := k - bs.length) (by omega)
          refine ⟨h1, h2, fun ht hok => ?_⟩
          rw [Prompt, h3 ht hok]
          rw [show k + 1 - (n + 1) = k - bs.length - (n - bs.length) by omega]

/-! ## Receiving into an Mbuff -/

/-- The captured variables of the callback of `recv_append_to_mbuff`. -/
structure RecvSt where
  evs : List Recv
  remaining : Nat
  err : RecvErr

def recvFn (conn : Conn) : AppendFn RecvSt where
  run st chunk :=
    let recvLen := min st.remaining chunk.length
    if recvLen = 0 then (st, chunk, 0)
    else
      let r := recvFull conn st.evs recvLen
      (⟨r.evs, st.remaining - r.bytes.length, r.err⟩, r.bytes ++ chunk.drop r.bytes.length,
        r.bytes.length)
  run_length st chunk := by
    have := recvFull_length_le conn st.evs (min st.remaining chunk.length)
    dsimp only
    split
    · rfl
    · rw [length_append, length_drop]
      omega
  run_le st chunk := by
    have := recvFull_length_le conn st.evs (min st.remaining chunk.length)
    dsimp only
    split
    · exact Nat.zero_le _
    · dsimp only
      omega

/-- `recv_append_to_mbuff`. With nothing to receive, `recv_err` is read without having
been set. -/
def recvAppendToMbuff (conn : Conn) (mb : Mbuff) (size : Nat) (evs : List Recv) :
    RecvErr × Mbuff × List Recv :=
  if mb.appendAvailSize < size then (.err .enospc, mb, evs)
  else
    let r := mb.append (recvFn conn) ⟨evs, size, .unset⟩
    (r.1.err, r.2, r.1.evs)

theorem recvFn_call (conn : Conn) (st : RecvSt) (t : Mbuff.Node) :
    (min st.remaining t.appendSpace = 0 ∧ (t.append (recvFn conn) st).1 = st ∧
      t.appended (recvFn conn) st = [] ∧ (t.append (recvFn conn) st).2.2 = 0) ∨
    (0 < min st.remaining t.appendSpace ∧
      let r := recvFull conn st.evs (min st.remaining t.appendSpace)
      (t.append (recvFn conn) st).1 = ⟨r.evs, st.remaining - r.bytes.length, r.err⟩ ∧
        t.appended (recvFn conn) st = r.bytes ∧
          (t.append (recvFn conn) st).2.2 = r.bytes.length) := by
  have hlen := t.appendChunk_length
  by_cases h0 : min st.remaining t.appendSpace = 0
  · have hrun : (recvFn conn).run st t.appendChunk = (st, t.appendChunk, 0) :=
      if_pos (by rw [hlen]; exact h0)
    refine Or.inl ⟨h0, congrArg Prod.fst hrun, ?_, congrArg (fun r => r.2.2) hrun⟩
    rw [Mbuff.Node.appended, hrun, take_zero]
  · have hrun : (recvFn conn).run st t.appendChunk =
        let r := recvFull conn st.evs (min st.remaining t.appendChunk.length)
        (⟨r.evs, st.remaining - r.bytes.length, r.err⟩,
          r.bytes ++ t.appendChunk.drop r.bytes.length, r.bytes.length) :=
      if_neg (by rw [hlen]; exact h0)
    rw [hlen] at hrun
    refine Or.inr ⟨by omega, congrArg Prod.fst hrun, ?_, congrArg (fun r => r.2.2) hrun⟩
    rw [Mbuff.Node.appended, hrun]
    exact take_left

/-- What is received is appended, in the order of the stream. -/
theorem append_recvFn (conn : Conn) {mb : Mbuff} (hl : mb.Legit) (size : Nat) (evs : List Recv) :
    let r := mb.append (recvFn conn) ⟨evs, size, .unset⟩
    ∃ out, Mbuff.Extends mb r.2 out ∧ stream evs = out ++ stream r.1.evs ∧
      out.length + r.1.remaining = size ∧ (r.1.err = .unset → out = []) := by
  have hstep : ∀ out st (t : Mbuff.Node),
      stream evs = out ++ stream st.evs ∧ out.length + st.remaining = size ∧
        (st.err = .unset → out = []) →
      stream evs = (out ++ t.appended (recvFn conn) st) ++
          stream (t.append (recvFn conn) st).1.evs ∧
        (out ++ t.appended (recvFn conn) st).length + (t.append (recvFn conn) st).1.remaining =
          size ∧
        ((t.append (recvFn conn) st).1.err = .unset →
          out ++ t.appended (recvFn conn) st = []) := by
    rintro out st t ⟨h1, h2, h3⟩
    rcases recvFn_call conn st t with ⟨-, hst, happ, -⟩ | ⟨h0, hst, happ, -⟩
    · rw [hst, happ, append_nil]
      exact ⟨h1, h2, h3⟩
    · obtain ⟨hs, hle, -, hset⟩ := recvFull_spec conn st.evs (min st.remaining t.appendSpace)
      rw [hst, happ]
      refine ⟨by rw [append_assoc, ← hs, h1], ?_, fun h => absurd h hset⟩
      rw [length_append]
      dsimp only
      omega
  exact Mbuff.appendLoop_extends
    (R := fun out (st : RecvSt) => stream evs = out ++ stream st.evs ∧
      out.length + st.remaining = size ∧ (st.err = .unset → out = []))
    hstep (mb.free.length + 1) (s := ⟨evs, size, .unset⟩) ⟨rfl, Nat.zero_add _, fun _ => rfl⟩
    (Mbuff.Extends.refl hl)

/-- Without an error, all that was asked for is received. -/
theorem recvAppendToMbuff_spec (conn : Conn) {mb : Mbuff} (hl : mb.Legit)
    (hpos : ∀ l ∈ mb.layout, 0 < l) (size : Nat) (evs : List Recv) :
    ∃ out, Mbuff.Extends mb (recvAppendToMbuff conn mb size evs).2.1 out ∧
      stream evs = out ++ stream (recvAppendToMbuff conn mb size evs).2.2 ∧
      ((recvAppendToMbuff conn mb size evs).1 = .ok → out.length = size) ∧
      ((recvAppendToMbuff conn mb size evs).1 = .unset → size = 0) := by
  rw [recvAppendToMbuff]
  by_cases hlt : mb.appendAvailSize < size
  · rw [if_pos hlt]
    exact ⟨[], .refl hl, rfl, by simp, by simp⟩
  · rw [if_neg hlt]
    dsimp only
    obtain ⟨out, hext, h1, h2, h3⟩ := append_recvFn conn hl size evs
    -- the last call has received all, or met an error, or there was no more space
    have hstop : ∀ st (t : Mbuff.Node), True → 0 < t.appendSpace →
        (t.append (recvFn conn) st).2.2 < t.appendSpace →
        ((t.append (recvFn conn) st).1.err = .ok ∨ (t.append (recvFn conn) st).1.err = .unset →
          (t.append (recvFn conn) st).1.remaining = 0) := by
      intro st t _ hsp hcnt
      rcases recvFn_call conn st t with ⟨h0, hst, -, -⟩ | ⟨h0, hst, -, hc⟩
      · rw [hst]
        omega
      · obtain ⟨-, hle, hok, hset⟩ := recvFull_spec conn st.evs (min st.remaining t.appendSpace)
        rw [hst]
        rintro (h | h)
        · have := hok.mp h
          dsimp only
          omega
        · exact absurd h hset
    have hlast : let r := mb.append (recvFn conn) ⟨evs, size, .unset⟩
        (r.1.err = .ok ∨ r.1.err = .unset → r.1.remaining = 0) ∨
          True ∧ r.2.appendAvailSize = 0 :=
      Mbuff.appendLoop_last (I := fun _ => True)
        (Q := fun st : RecvSt => st.err = .ok ∨ st.err = .unset → st.remaining = 0)
        hstop (fun _ _ _ _ _ => trivial) (s := ⟨evs, size, .unset⟩) trivial hl hpos mb.rounds_le
    have havail := hext.appendAvailSize hl
    generalize mb.append (recvFn conn) ⟨evs, size, .unset⟩ = r at *
    have hall : r.1.err = .ok ∨ r.1.err = .unset → out.length = size := by
      intro herr
      rcases hlast with hq | ⟨-, h0⟩
      · have := hq herr
        omega
      · omega
    exact ⟨out, hext, h1, fun h => hall (.inl h), fun h => by
      have := hall (.inr h)
      rw [h3 h] at this
      exact this.symm⟩

/-- `recv_append_to_mbuff`, with space for all, fails an assertion exactly on a
`ConnectionTrtEpoll` whose peer is late. -/
theorem recvAppendToMbuff_assertion (conn : Conn) {mb : Mbuff} {size : Nat} (hl : mb.Legit)
    (hpos : ∀ l ∈ mb.layout, 0 < l) (hspace : size ≤ mb.appendAvailSize) (evs : List Recv) :
    (recvAppendToMbuff conn mb size evs).1 = .assertion ↔
      conn = .trtEpoll ∧ ¬Prompt size evs := by
  rw [recvAppendToMbuff, if_neg (by omega)]
  dsimp only
  obtain ⟨out, hext, -, hout, -⟩ := append_recvFn conn hl size evs
  have havail := hext.appendAvailSize hl
  -- while the calls fill their chunks, what is still to come is late if all is
  let I (st : RecvSt) : Prop := st.err ≠ .assertion ∧
    (conn = .trtEpoll → (Prompt st.remaining st.evs ↔ Prompt size evs))
  let Q (st : RecvSt) : Prop := st.err = .assertion ↔ conn = .trtEpoll ∧ ¬Prompt size evs
  have hdone : ∀ st, I st → st.remaining = 0 → Q st := by
    rintro st ⟨herr, hp⟩ h0
    refine ⟨fun h => absurd h herr, fun ⟨ht, hn⟩ => absurd ?_ hn⟩
    rw [← hp ht, h0]
    exact prompt_zero _
  have hstop : ∀ st (t : Mbuff.Node), I st → 0 < t.appendSpace →
      (t.append (recvFn conn) st).2.2 < t.appendSpace → Q (t.append (recvFn conn) st).1 := by
    intro st t hI hsp hcnt
    rcases recvFn_call conn st t with ⟨h0, hst, -, -⟩ | ⟨h0, hst, -, hc⟩
    · rw [hst]
      exact hdone st hI (by omega)
    · obtain ⟨-, -, hok, -⟩ := recvFull_spec conn st.evs (min st.remaining t.appendSpace)
      obtain ⟨hassert, hshort, -⟩ := recvFull_prompt conn st.evs
        (Nat.min_le_left st.remaining t.appendSpace)
      have hiff : conn = .trtEpoll →
          (Prompt (min st.remaining t.appendSpace) st.evs ↔ Prompt size evs) := by
        intro ht
        rw [← hI.2 ht]
        refine ⟨fun h => ?_, prompt_of_le (Nat.min_le_left _ _)⟩
        by_cases hrem : st.remaining ≤ t.appendSpace
        · rwa [Nat.min_eq_left hrem] at h
        · exact hshort ht (fun h => by have := hok.mp h; omega) h
      rw [hst]
      show (recvFull conn st.evs (min st.remaining t.appendSpace)).err = .assertion ↔ _
      rw [hassert]
      exact and_congr_right fun ht => not_congr (hiff ht)
  have hgo : ∀ st (t : Mbuff.Node), I st → 0 < t.appendSpace →
      (t.append (recvFn conn) st).2.2 = t.appendSpace → I (t.append (recvFn conn) st).1 := by
    intro st t hI hsp hcnt
    rcases recvFn_call conn st t with ⟨-, -, -, hc⟩ | ⟨h0, hst, -, hc⟩
    · omega
    · obtain ⟨-, hle, hok, -⟩ := recvFull_spec conn st.evs (min st.remaining t.appendSpace)
      obtain ⟨-, -, hrest⟩ := recvFull_prompt conn st.evs
        (Nat.min_le_left st.remaining t.appendSpace)
      have hall := hok.mpr (by omega)
      rw [hst]
      refine ⟨fun h => by simp [hall] at h, fun ht => ?_⟩
      dsimp only
      rw [hok.mp hall, ← hrest ht hall, hI.2 ht]
  have hlast : let r := mb.append (recvFn conn) ⟨evs, size, .unset⟩
      Q r.1 ∨ I r.1 ∧ r.2.appendAvailSize = 0 :=
    Mbuff.appendLoop_last (I := I) (Q := Q) hstop hgo (s := ⟨evs, size, .unset⟩)
      ⟨by simp, fun _ => Iff.rfl⟩ hl hpos mb.rounds_le
  rcases hlast with hq | ⟨hI, h0⟩
  · exact hq
  · exact hdone _ hI (by omega)

theorem recvAppendToMbuff_waiting (conn : Conn) {mb : Mbuff} {size : Nat} (hl : mb.Legit)
    (hpos : ∀ l ∈ mb.layout, 0 < l) (h0 : 0 < size) (hsize : size ≤ bs.length)
    (hspace : size ≤ mb.appendAvailSize) :
    (recvAppendToMbuff conn mb size (waiting bs)).1 = .ok := by
  have hspec := recvAppendToMbuff_spec conn hl hpos size (waiting bs)
  rw [recvAppendToMbuff, if_neg (by omega)] at hspec ⊢
  obtain ⟨-, -, -, -, hunset⟩ := hspec
  have hstep : ∀ (out : List UInt8) st (t : Mbuff.Node),
      (st.err = .ok ∨ st.err = .unset) ∧ st.remaining ≤ (stream st.evs).length ∧
        st.evs = waiting (stream st.evs) →
      ((t.append (recvFn conn) st).1.err = .ok ∨ (t.append (recvFn conn) st).1.err = .unset) ∧
        (t.append (recvFn conn) st).1.remaining ≤
          (stream (t.append (recvFn conn) st).1.evs).length ∧
        (t.append (recvFn conn) st).1.evs = waiting (stream (t.append (recvFn conn) st).1.evs) := by
    rintro out st t ⟨h1, h2, h3⟩
    rcases recvFn_call conn st t with ⟨-, hst, -, -⟩ | ⟨-, hst, -, -⟩
    · rw [hst]
      exact ⟨h1, h2, h3⟩
    · rw [h3, recvFull_waiting (by omega)] at hst
      rw [hst]
      refine ⟨.inl rfl, ?_, by rw [stream_waiting]⟩
      dsimp only
      rw [stream_waiting, length_take, length_drop]
      omega
  obtain ⟨-, -, hok | hok, -⟩ := Mbuff.appendLoop_extends
    (R := fun (_ : List UInt8) (st : RecvSt) => (st.err = .ok ∨ st.err = .unset) ∧
      st.remaining ≤ (stream st.evs).length ∧ st.evs = waiting (stream st.evs))
    hstep (mb.free.length + 1) (s := ⟨waiting bs, size, .unset⟩)
    ⟨.inr rfl, by rw [stream_waiting]; exact hsize, by rw [stream_waiting]⟩ (Mbuff.Extends.refl hl)
  · exact hok
  · have := hunset hok
    omega

end UDepot.Socket
