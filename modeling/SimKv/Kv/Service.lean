import SimKv.Honest
import SimKv.Kv.Answers
import SimKv.Kv.Cluster

set_option autoImplicit false

/-!
# The whole service

The servers, the clients of the workload, and what is under way between them. Whatever was sent may reach the node it
was sent to any number of times, in any order, or never. Timers fire and disks answer at any time. A server may be cut
off at any moment, and starts again from what is left of its files. There are no snapshots, and nobody asks for a change
of the membership.
-/

namespace SimKv

/-- A server and what may be on its disk: every log it has held, the hard state this life began with, and every one
written in it. -/
structure ServiceHost extends KvServer where
  held : List RaftLog := [{}]
  hardWrites : List HardState := [{}]

/-- Servers and clients, with every packet and every answer sent so far. What a client has sent is among its effects. -/
structure Service (ι G : Type) where
  host : NodeId → ServiceHost
  crew : Harness.System ι G
  net : List Packet := []
  replies : List Reply := []

inductive ServiceEvent (ι : Type) where
  | server (id : NodeId) (event : KvEvent)
  | client (i : ι) (now : Nanos) (event : Harness.ClientEvent)

def KvEvent.hardWrites (before : List HardState) : KvEvent → List HardState
  | .restart _ wal a b => [(readDisk wal a b).hard]
  | _ => before

def Harness.ClientEvent.answer : Harness.ClientEvent → Option (Nat × Outcome)
  | .bytes data =>
    match Message.decode data with
    | .ok (.client (.reply reqId outcome)) => some (reqId, outcome)
    | _ => none
  | .timer _ | .stop | .resume => none

namespace ServiceHost

variable (h : ServiceHost)

/-- What a restart finds is left of a log that was held, with all of it that was known to be durable, and of the hard
states of this life one that is no older than the durable one. -/
def Restores (s : Survived) : Prop :=
  s.snapshot = none ∧ s.hard ∈ h.hardWrites ∧ h.durableHardState.seq ≤ s.hard.seq ∧
    (∃ log ∈ h.held, s.log = log.truncateFrom (s.log.lastIndex + 1)) ∧
    h.log.entries.take h.durableIndex <+: s.log.entries

instance (s : Survived) : Decidable (h.Restores s) := inferInstanceAs (Decidable (_ ∧ _))

def settle (event : KvEvent) (k : KvServer) : ServiceHost where
  toKvServer := k
  held := h.held ++ [k.log]
  hardWrites := event.hardWrites h.hardWrites ++ k.persister.batches.filterMap Batch.hard

end ServiceHost

namespace Service

variable {ι G : Type} (source : Harness.RandomSource G) (setup : Setup)

section Reach

variable (S : Service ι G)

def Asks (dst : NodeId) (q : Request) : Prop :=
  ∃ i, (S.crew.clients i).node = q.src ∧ .send dst (.request q.reqId q.client q.seq q.op) ∈ (S.crew.ios i).effects

def Hears (i : ι) (event : Harness.ClientEvent) : Prop :=
  ∀ answer ∈ event.answer,
    { dst := (S.crew.clients i).node, reqId := answer.1, outcome := answer.2 : Reply } ∈ S.replies

def Reaches (id : NodeId) : KvEvent → Prop
  | .message _ src msg => { src, dst := id, msg } ∈ S.net
  | .request _ src reqId client seq op => S.Asks id { src, reqId, client, seq, op }
  | .restart _ wal a b => (S.host id).Restores (readDisk wal a b)
  | .membership .. => False
  | .timer .. | .storage .. => True

def react (id : NodeId) (event : KvEvent) : KvServer := (S.host id).handle (KvCluster.identity setup id) event

def settle (id : NodeId) (event : KvEvent) (k : KvServer) : Service ι G where
  host := Function.update S.host id ((S.host id).settle event k)
  crew := S.crew
  net := S.net ++ k.sent.map fun m => { src := id, dst := m.1, msg := m.2 }
  replies := S.replies ++ k.replies

end Reach

section Step

variable [Fintype ι] [DecidableEq ι] (S : Service ι G)

instance (dst : NodeId) (q : Request) : Decidable (S.Asks dst q) :=
  inferInstanceAs (Decidable (∃ i, (S.crew.clients i).node = q.src ∧ _ ∈ (S.crew.ios i).effects))

instance (i : ι) (event : Harness.ClientEvent) : Decidable (S.Hears i event) :=
  inferInstanceAs (Decidable (∀ answer ∈ event.answer, _ ∈ S.replies))

instance (id : NodeId) : (event : KvEvent) → Decidable (S.Reaches id event)
  | .message .. => inferInstanceAs (Decidable (_ ∈ _))
  | .request .. => inferInstanceAs (Decidable (S.Asks _ _))
  | .restart .. => inferInstanceAs (Decidable ((S.host id).Restores _))
  | .membership .. => inferInstanceAs (Decidable False)
  | .timer .. | .storage .. => inferInstanceAs (Decidable True)

/-- One event. There is no step where an assertion of a server would fail. No two events of clients have the same
time; the clocks of the servers are their own. -/
def step : ServiceEvent ι → Option (Service ι G)
  | .server id event =>
    let k := S.react setup id event
    if S.Reaches id event ∧ k.panicked = false then some (S.settle id event k) else none
  | .client i now event =>
    if S.crew.now < now ∧ S.Hears i event then some { S with crew := S.crew.step source i now event } else none

end Step

def start (crew : Harness.System ι G) : Service ι G where
  host id := { toKvServer := .init (KvCluster.identity setup id) }
  crew

def Reachable [Fintype ι] [DecidableEq ι] (crew : Harness.System ι G) (S : Service ι G) : Prop :=
  Execution.Run (step source setup) (fun _ _ => True) (start setup crew) S

end Service

end SimKv
