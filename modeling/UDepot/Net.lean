import Mathlib.Data.List.Perm.Basic
import Mathlib.Data.String.Basic
import Mathlib.Tactic

/-! Which server of a cluster a request goes to (`net.cc`, `net.hh`). Every node builds
a table of connections from the sorted ids of all servers and indexes it with the hash
of the key; an entry without a connection means that the node serves the request itself.

The threads of a node have tables of one content, so there is one here. The connections
of a node are one for each of its peers and are written as the id of the peer. -/

namespace UDepot.Net
open List

/-- What `operator==` compares of `SocketPeerConf`. -/
structure SocketPeerConf where
  protocol : String
  node : String
  service : String
  deriving DecidableEq, Repr

namespace SocketPeerConf

def isInvalid (p : SocketPeerConf) : Bool :=
  p.protocol.isEmpty && p.node.isEmpty && p.service.isEmpty

/-- The default configuration, which a pure client has for its server. -/
def unset : SocketPeerConf := ⟨"", "", ""⟩

/-- `operator<` of a tuple of three strings. -/
def tupleLess (l r : String × String × String) : Bool :=
  decide (l.1 < r.1) || !decide (r.1 < l.1) &&
    (decide (l.2.1 < r.2.1) || !decide (r.2.1 < l.2.1) && decide (l.2.2 < r.2.2))

/-- `std::less<SocketPeerConf>`. Both tuples are made of the left operand. -/
def less (lhs _rhs : SocketPeerConf) : Bool :=
  tupleLess (lhs.protocol, lhs.node, lhs.node) (lhs.protocol, lhs.node, lhs.node)

theorem less_eq_false (a b : SocketPeerConf) : less a b = false := by
  simp [less, tupleLess]

end SocketPeerConf

/-- `std::set::insert`: an element that the order does not tell from one in the set is
not inserted. -/
def setInsert {α : Type} (lt : α → α → Bool) (x : α) : List α → List α
  | [] => [x]
  | y :: ys =>
    if lt x y then x :: y :: ys
    else if lt y x then y :: setInsert lt x ys
    else y :: ys

/-- The configuration of a `uDepotNet`. -/
structure Node where
  clientConfs : List SocketPeerConf
  serverConf : SocketPeerConf

namespace Node

def orderedIds (n : Node) : List SocketPeerConf :=
  n.clientConfs.foldl (fun ids c => setInsert SocketPeerConf.less c ids)
    (if n.serverConf.isInvalid then [] else setInsert SocketPeerConf.less n.serverConf [])

/-- The inner loop of `setup_consistent_hash_map`. -/
def fillSlot (conn : List SocketPeerConf) (id : SocketPeerConf) (idx : Nat)
    (table : List (Option SocketPeerConf)) : List (Option SocketPeerConf) :=
  conn.foldl (fun t c => if id = c then t.set idx (some c) else t) table

/-- The outer loop: the node's own id takes no index. -/
def fillTable (self : SocketPeerConf) (conn : List SocketPeerConf) :
    List SocketPeerConf → Nat → List (Option SocketPeerConf) → List (Option SocketPeerConf)
  | [], _, table => table
  | id :: ids, idx, table =>
    if id = self then fillTable self conn ids idx table
    else fillTable self conn ids (idx + 1) (fillSlot conn id idx table)

/-- `setup_consistent_hash_map`. -/
def consistentHash (n : Node) : List (Option SocketPeerConf) :=
  fillTable n.serverConf n.clientConfs n.orderedIds 0
    (List.replicate (n.clientConfs.length + if n.serverConf.isInvalid then 0 else 1) none)

/-- `get_client`: `none` if the operation is performed locally. -/
def getClient (n : Node) (h : Nat) : Option SocketPeerConf :=
  if n.consistentHash.length = 0 then none
  else (n.consistentHash[h % n.consistentHash.length]?).join

/-- The server that a request which reaches the node is then for. -/
def route (n : Node) (h : Nat) : SocketPeerConf := (n.getClient h).getD n.serverConf

end Node

/-- Servers with distinct ids, each configured with all the others in some order. -/
structure Cluster where
  servers : List SocketPeerConf
  nodup : servers.Nodup
  valid : ∀ a ∈ servers, a.isInvalid = false
  peers : SocketPeerConf → List SocketPeerConf
  all_peers : ∀ a ∈ servers, (peers a).Perm (servers.erase a)

namespace Cluster

def server (C : Cluster) (a : SocketPeerConf) : Node := ⟨C.peers a, a⟩

def client (confs : List SocketPeerConf) : Node := ⟨confs, .unset⟩

/-- How often a request for `h` that reaches server `a` is forwarded, if at most `n`
servers see it. -/
def hops (C : Cluster) (h : Nat) : Nat → SocketPeerConf → Option Nat
  | 0, _ => none
  | n + 1, a =>
    match (C.server a).getClient h with
    | none => some 0
    | some b => (hops C h n b).map (· + 1)

/-- All nodes agree that `o` is the server for `h`. -/
structure Owner (C : Cluster) (h : Nat) (o : SocketPeerConf) : Prop where
  mem : o ∈ C.servers
  route : ∀ a ∈ C.servers, (C.server a).route h = o
  here : ∀ a ∈ C.servers, (C.server a).getClient h = none ↔ a = o
  clients : ∀ confs : List SocketPeerConf, confs.Perm C.servers →
    (client confs).getClient h = some o
  hops : ∀ a ∈ C.servers, ∃ n, C.hops h 2 a = some n ∧ n ≤ 1

end Cluster

/-! ## The ordered ids -/

theorem setInsert_less_cons (x y : SocketPeerConf) (ys : List SocketPeerConf) :
    setInsert SocketPeerConf.less x (y :: ys) = y :: ys := by
  simp [setInsert, SocketPeerConf.less_eq_false]

theorem foldl_setInsert (y : SocketPeerConf) (cs : List SocketPeerConf) :
    cs.foldl (fun ids c => setInsert SocketPeerConf.less c ids) [y] = [y] := by
  induction cs with
  | nil => rfl
  | cons c cs ih => rw [foldl_cons, setInsert_less_cons, ih]

theorem orderedIds_server {n : Node} (h : n.serverConf.isInvalid = false) :
    n.orderedIds = [n.serverConf] := by
  rw [Node.orderedIds, h]
  exact foldl_setInsert _ _

theorem orderedIds_client (c : SocketPeerConf) (cs : List SocketPeerConf) :
    (Cluster.client (c :: cs)).orderedIds = [c] :=
  foldl_setInsert c cs

/-! ## The tables -/

theorem getClient_server {n : Node} (h : n.serverConf.isInvalid = false) (hash : Nat) :
    n.getClient hash = none := by
  have ht : n.consistentHash = List.replicate (n.clientConfs.length + 1) none := by
    rw [Node.consistentHash, orderedIds_server h, Node.fillTable, if_pos rfl, Node.fillTable, h]
    rfl
  have hlt : hash % (n.clientConfs.length + 1) < n.clientConfs.length + 1 :=
    Nat.mod_lt _ (Nat.succ_pos _)
  rw [Node.getClient, ht, length_replicate, if_neg (Nat.succ_ne_zero _),
    getElem?_replicate_of_lt hlt]
  rfl

theorem getClient_client_one {a : SocketPeerConf} (h : a.isInvalid = false) (hash : Nat) :
    (Cluster.client [a]).getClient hash = some a := by
  have hne : a ≠ SocketPeerConf.unset := by
    rintro rfl
    cases h
  have ht : (Cluster.client [a]).consistentHash = [some a] := by
    rw [Node.consistentHash, orderedIds_client, Node.fillTable,
      if_neg (show a ≠ (Cluster.client [a]).serverConf from hne), Node.fillTable]
    simp [Node.fillSlot, Cluster.client, SocketPeerConf.isInvalid, SocketPeerConf.unset]
  rw [Node.getClient, ht, length_singleton, Nat.mod_one]
  rfl

namespace Cluster

variable {C : Cluster}

theorem getClient_eq_none {a : SocketPeerConf} (ha : a ∈ C.servers) (h : Nat) :
    (C.server a).getClient h = none :=
  getClient_server (n := C.server a) (C.valid a ha) h

theorem hops_eq_zero {a : SocketPeerConf} (ha : a ∈ C.servers) (h n : Nat) :
    C.hops h (n + 1) a = some 0 := by
  rw [hops, getClient_eq_none ha]

/-- The nodes agree on a server for a hash exactly if the cluster is a single server:
every server takes every hash for its own. -/
theorem owner_iff (hne : C.servers ≠ []) (h : Nat) : (∃ o, C.Owner h o) ↔ C.servers.length = 1 := by
  constructor
  · rintro ⟨o, ho⟩
    have hall : ∀ a ∈ C.servers, a = o := fun a ha => (ho.here a ha).mp (getClient_eq_none ha h)
    have hrep := eq_replicate_of_mem hall
    have hnd := C.nodup
    rw [hrep, nodup_replicate] at hnd
    have hpos := length_pos_of_ne_nil hne
    omega
  · intro h1
    obtain ⟨a, ha⟩ := length_eq_one_iff.mp h1
    have hmem : a ∈ C.servers := by simp [ha]
    have hone : ∀ b ∈ C.servers, b = a := fun b hb => by simpa [ha] using hb
    refine ⟨a, hmem, fun b hb => ?_, fun b hb => ?_, fun confs hp => ?_, fun b hb => ?_⟩
    · rw [Node.route, getClient_eq_none hb, Option.getD_none]
      exact hone b hb
    · exact ⟨fun _ => hone b hb, fun _ => getClient_eq_none hb h⟩
    · rw [ha, perm_singleton] at hp
      rw [hp]
      exact getClient_client_one (C.valid a hmem) h
    · exact ⟨0, hops_eq_zero hb h 1, Nat.zero_le 1⟩

def single : Cluster where
  servers := [⟨"tcp", "10.0.0.1", "5555"⟩]
  nodup := nodup_singleton _
  valid := by decide
  peers := fun _ => []
  all_peers := by decide

theorem single_owner : ∃ o, single.Owner 7 o := (owner_iff (by decide) 7).mpr rfl

/-- Two servers, each with the other as its peer. -/
def pair : Cluster where
  servers := [⟨"tcp", "10.0.0.1", "5555"⟩, ⟨"tcp", "10.0.0.2", "5555"⟩]
  nodup := by decide
  valid := by decide
  peers := fun a => if a = ⟨"tcp", "10.0.0.1", "5555"⟩ then [⟨"tcp", "10.0.0.2", "5555"⟩]
    else [⟨"tcp", "10.0.0.1", "5555"⟩]
  all_peers := by decide

/-- Both servers take hash 0 for their own, and a client knows a server for even hashes
only. -/
theorem pair_disagrees :
    (pair.server ⟨"tcp", "10.0.0.1", "5555"⟩).getClient 0 = none ∧
      (pair.server ⟨"tcp", "10.0.0.2", "5555"⟩).getClient 0 = none ∧
      (client pair.servers).getClient 0 = some ⟨"tcp", "10.0.0.1", "5555"⟩ ∧
      (client pair.servers).getClient 1 = none ∧ ∀ o, ¬pair.Owner 0 o := by
  have h1 : (pair.server ⟨"tcp", "10.0.0.1", "5555"⟩).getClient 0 = none := by decide +kernel
  have h2 : (pair.server ⟨"tcp", "10.0.0.2", "5555"⟩).getClient 0 = none := by decide +kernel
  refine ⟨h1, h2, by decide +kernel, by decide +kernel, fun o ho => ?_⟩
  have e1 := (ho.here _ (by decide)).mp h1
  have e2 := (ho.here _ (by decide)).mp h2
  exact absurd (e1.trans e2.symm) (by decide)

end Cluster
end UDepot.Net
