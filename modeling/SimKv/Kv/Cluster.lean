import SimKv.Cluster
import SimKv.Journal
import SimKv.Kv.Run

set_option autoImplicit false

/-!
# A cluster of servers

Every server answers what reaches it as `KvServer.handle` does. The network keeps every packet ever sent, clients
ask for what clients ask for, and a restart finds what was written: records of entries that have been in a log, and
an image that was received or taken. Beside the servers the cluster keeps every log there has been, with the
membership it starts from.
-/

namespace SimKv

open Codec

structure Chart where
  log : RaftLog
  base : List NodeId
  deriving DecidableEq, Repr

def Raft.chart (r : Raft) : Chart := { log := r.log, base := r.baseConfig }

namespace Chart

variable (chart : Chart)

def configAt (index : Nat) : List NodeId := ((Raft.configScan chart.log index).map Prod.fst).getD chart.base

def configs : List (List NodeId) := chart.base :: chart.log.entries.filterMap fun e => e.cmd.members

def Shows (index term : Nat) : Prop := chart.log.snapshotIndex ≤ index ∧ chart.log.termAt index = some term

instance (index term : Nat) : Decidable (chart.Shows index term) := inferInstanceAs (Decidable (_ ∧ _))

end Chart

def RaftLog.Matches (log log' : RaftLog) : Prop :=
  ∀ i term, log.termAt i = some term → log'.termAt i = some term → ∀ j ≤ i,
    (∀ t ∈ log.termAt j, ∀ t' ∈ log'.termAt j, t = t') ∧ ∀ e ∈ log.get j, ∀ e' ∈ log'.get j, e = e'

theorem RaftLog.termAt_le {log : RaftLog} {i term : Nat} (here : log.termAt i = some term) :
    i ≤ max log.snapshotIndex log.lastIndex := by
  by_contra beyond
  rw [max_def] at beyond
  have missing : log.get i = none := if_pos (.inr (by split at beyond <;> omega))
  rw [termAt, missing, if_neg (by rw [noIndex]; omega), if_neg (by split at beyond <;> omega)] at here
  cases here

instance RaftLog.decidableMatches (log log' : RaftLog) : Decidable (log.Matches log') :=
  decidable_of_iff
    (∀ i ≤ max log.snapshotIndex log.lastIndex, ∀ term ∈ log.termAt i, log'.termAt i = some term → ∀ j ≤ i,
      (∀ t ∈ log.termAt j, ∀ t' ∈ log'.termAt j, t = t') ∧ ∀ e ∈ log.get j, ∀ e' ∈ log'.get j, e = e')
    ⟨fun bounded i term here there => bounded i (termAt_le here) term here there,
      fun matches_ i _ term here there => matches_ i term here there⟩

structure KvCluster where
  server : NodeId → KvServer
  net : List Packet := []
  charts : List Chart

namespace KvCluster

variable (setup : Setup) (c : KvCluster)

def identity (id : NodeId) : Identity := { id, members := setup.members, cfg := setup.cfg id }

def Wraps (data : Bytes) (members : List NodeId) : Prop := ∃ app, data = encodeSnapshotPayload members app

instance (data : Bytes) (members : List NodeId) : Decidable (Wraps data members) :=
  decidable_of_iff (data = encodeSnapshotPayload members (data.drop (8 + 4 * members.length))) <| by
    refine ⟨fun same => ⟨_, same⟩, ?_⟩
    rintro ⟨app, rfl⟩
    have front : (Enc.u32 members.length ++ (members.flatMap fun m => Enc.u32 m.toNat) ++
        Enc.u32 app.length).length = 8 + 4 * members.length := by
      simp only [List.length_append, Enc.nodes_length]
      change 4 + 4 * members.length + 4 = _
      omega
    have whole : encodeSnapshotPayload members app = (Enc.u32 members.length ++
        (members.flatMap fun m => Enc.u32 m.toNat) ++ Enc.u32 app.length) ++ app := by
      simp only [encodeSnapshotPayload, Enc.bytes, List.append_assoc]
    rw [whole, List.drop_left' front, ← whole]

def Offers (snap : Snapshot) : RaftMsg → Prop
  | .installSnapshot _ _ index term data => snap.index = index ∧ snap.term = term ∧ snap.data = data
  | _ => False

def Kept (snap : Snapshot) : Prop :=
  0 < snap.index ∧ ((∃ p ∈ c.net, Offers snap p.msg) ∨
    ∃ chart ∈ c.charts, chart.Shows snap.index snap.term ∧ Wraps snap.data (chart.configAt snap.index))

def Restores (s : Survived) : Prop :=
  (∀ e ∈ s.log.entries, ∃ chart ∈ c.charts, e ∈ chart.log.entries) ∧ ∀ snap ∈ s.snapshot, c.Kept snap

def Possible (id : NodeId) : KvEvent → Prop
  | .message _ src msg => { src, dst := id, msg } ∈ c.net
  | .request _ _ _ _ _ op => op.key.isSome
  | .restart _ wal a b => c.Restores (readDisk wal a b)
  | .timer .. | .storage .. | .membership .. => True

instance (snap : Snapshot) : (msg : RaftMsg) → Decidable (Offers snap msg)
  | .installSnapshot .. => inferInstanceAs (Decidable (_ ∧ _))
  | .requestVote .. | .requestVoteResp .. | .appendEntries .. | .appendEntriesResp ..
  | .installSnapshotResp .. | .readProbe .. | .readProbeResp .. | .preVote .. | .preVoteResp .. =>
    inferInstanceAs (Decidable False)

instance (snap : Snapshot) : Decidable (c.Kept snap) := inferInstanceAs (Decidable (_ ∧ _))

instance (s : Survived) : Decidable (c.Restores s) := inferInstanceAs (Decidable (_ ∧ _))

instance (id : NodeId) : (event : KvEvent) → Decidable (c.Possible id event)
  | .message .. => inferInstanceAs (Decidable (_ ∈ _))
  | .request .. => inferInstanceAs (Decidable (_ = true))
  | .restart .. => inferInstanceAs (Decidable (c.Restores _))
  | .timer .. | .storage .. | .membership .. => inferInstanceAs (Decidable True)

def react (id : NodeId) (event : KvEvent) : KvServer := (c.server id).handle (identity setup id) event

def settle (id : NodeId) (k : KvServer) : KvCluster where
  server := Function.update c.server id k
  net := c.net ++ k.moments.map fun moment => { src := id, dst := moment.dst, msg := moment.msg }
  charts := c.charts ++ (k.moments.map fun moment => moment.raft.chart) ++ [k.chart]

/-- One event at one server. There is no step where an assertion of the source fails. -/
def step (event : NodeId × KvEvent) : Option KvCluster :=
  let k := c.react setup event.1 event.2
  if c.Possible event.1 event.2 ∧ k.panicked = false then some (c.settle event.1 k) else none

def init : KvCluster where
  server id := .init (identity setup id)
  charts := [{ log := {}, base := setup.members }]

abbrev Run (ok : KvCluster → NodeId × KvEvent → Prop) : KvCluster → KvCluster → Prop :=
  Execution.Run (step setup) ok

def Reachable (ok : KvCluster → NodeId × KvEvent → Prop) (c : KvCluster) : Prop := Run setup ok (init setup) c

def Matching : Prop := ∀ chart ∈ c.charts, ∀ chart' ∈ c.charts, chart.log.Matches chart'.log

instance : Decidable c.Matching := inferInstanceAs (Decidable (∀ chart ∈ _, _))

end KvCluster

end SimKv
