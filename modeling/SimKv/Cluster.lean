import SimKv.Lib.Execution
import SimKv.Server

set_option autoImplicit false

/-!
# A cluster of nodes with a fixed membership

The network keeps every packet ever sent: a packet may be delivered any number of times, in any
order, or never. Timers fire and storage answers at any time. A node may be cut off at any moment
and restarted from what survived.

A snapshot stands for entries that are no longer anywhere in the node, so a host carries the
compacted prefix beside its state, and so does a packet with a snapshot in it. Nothing the nodes do
depends on these prefixes; they exist to speak about what a snapshot covers.
-/

namespace SimKv

/-- A log a node has held, with the prefix its snapshot covers and the term in which that snapshot
was adopted. -/
structure Held where
  covered : List Entry := []
  log : RaftLog := {}
  adopted : Nat := 0
  deriving DecidableEq, Repr

structure Host extends Server where
  covered : List Entry := []
  adopted : Nat := 0
  -- The entries the snapshot being installed covers, while one is.
  installing : Option (List Entry) := none
  -- Every log held so far.
  held : List Held
  -- The hard state this life began with, and every one written in it.
  hardWrites : List HardState
  -- Every entry handed to the state machine so far.
  handed : List Entry := []
  -- How often the node has been restarted.
  life : Nat := 0

def Host.full (h : Host) : List Entry := h.covered ++ h.raft.log.entries

structure Cluster where
  host : NodeId → Host
  net : List Packet := []

/-- The servers there are and how each is configured. -/
structure Setup where
  members : List NodeId
  nodup : members.Nodup
  cfg : NodeId → RaftConfig

inductive Event where
  | input (node : NodeId) (now : Nat) (input : Input)
  | restart (node : NodeId) (now : Nat) (survived : Survived) (origin : Held)
  deriving DecidableEq, Repr

namespace Host

variable (h : Host)

def nextCovered (n : Node) : List Entry :=
  if n.log.snapshotIndex = h.raft.log.snapshotIndex then h.covered
  else h.installing.getD (h.full.take n.log.snapshotIndex)

def nextAdopted (n : Node) : Nat :=
  if n.log.snapshotIndex = h.raft.log.snapshotIndex then h.adopted else n.term

def nextInstalling (input : Input) (n : Node) : Option (List Entry) :=
  if h.raft.snapshotInFlight = false ∧ n.snapshotInFlight = true then
    match input with
    | .deliver p => some p.covered
    | _ => none
  else h.installing

def settle (input : Input) (n : Node) (handed : List Entry) : Host :=
  { h with
    toServer := h.toServer.settle input n
    covered := h.nextCovered n
    adopted := h.nextAdopted n
    installing := h.nextInstalling input n
    held := h.held ++ [{ covered := h.nextCovered n, log := n.log, adopted := h.nextAdopted n }]
    hardWrites := h.hardWrites ++ n.persister.batches.filterMap Batch.hard
    handed := h.handed ++ handed }

def packets (id : NodeId) (n : Node) : List Packet :=
  n.sent.map fun m => { src := id, dst := m.1, msg := m.2, covered := h.covered }

def reboot (setup : Setup) (id : NodeId) (now : Nat) (survived : Survived) (origin : Held) : Host :=
  let n := survived.boot id setup.members (setup.cfg id)
    { now, nextOp := h.nextOp, nextTimer := h.nextTimer }
  { h with
    raft := n.toRaft
    nextTimer := n.nextTimer
    nextRead := 1
    covered := origin.covered
    adopted := origin.adopted
    installing := none
    held := h.held ++ [{ origin with log := survived.log }]
    hardWrites := [survived.hard]
    life := h.life + 1 }

end Host

/-- Whether an input can reach the node at all: only packets that were sent are delivered, and
membership changes are not proposed. -/
def Input.Possible (net : List Packet) (id : NodeId) : Input → Prop
  | .deliver p => p ∈ net ∧ p.dst = id
  | .propose cmd => cmd.members = none
  | .reconfigure _ => False
  | _ => True

instance (net : List Packet) (id : NodeId) : (input : Input) → Decidable (input.Possible net id)
  | .deliver _ => inferInstanceAs (Decidable (_ ∧ _))
  | .propose _ => inferInstanceAs (Decidable (_ = _))
  | .reconfigure _ => inferInstanceAs (Decidable False)
  | .timer _ | .storage _ _ | .read | .drain _ => inferInstanceAs (Decidable True)

/-- A restart brings back a hard state of the life that crashed and no older than the durable one: the one that life
began with, which stays in its slot until a newer one is in the other, or one written since. What an earlier life wrote
and lost is not on the disk any more. What else comes back keeps to the fixed membership. -/
def Survived.Possible (setup : Setup) (h : Host) (s : Survived) : Prop :=
  s.hard ∈ h.hardWrites ∧ h.raft.durableHardState.seq ≤ s.hard.seq ∧
    (∀ e ∈ s.log.entries, e.cmd.members = none) ∧
    ∀ snap ∈ s.snapshot, ∀ image ∈ decodeSnapshotPayload snap.data,
      image.1 = [] ∨ image.1 = setup.members

instance (setup : Setup) (h : Host) (s : Survived) : Decidable (s.Possible setup h) :=
  inferInstanceAs (Decidable (_ ∧ _))

namespace Cluster

def init (setup : Setup) : Cluster where
  host id :=
    let n := Raft.recover [] [] [] id setup.members (setup.cfg id) {}
    { raft := n.toRaft, nextTimer := n.nextTimer, held := [{}], hardWrites := [{}] }

/-- One event. An event that is not possible, or on which the node would fail an assertion, is no
step. -/
def step (setup : Setup) (c : Cluster) : Event → Option Cluster
  | .input id now input =>
    let h := c.host id
    let result := h.handle now input
    if input.Possible c.net id ∧ result.1.panicked = false then
      some { host := Function.update c.host id (h.settle input result.1 result.2)
             net := c.net ++ h.packets id result.1 }
    else none
  | .restart id now survived origin =>
    if survived.Possible setup (c.host id) then
      some { c with host := Function.update c.host id ((c.host id).reboot setup id now survived origin) }
    else none

abbrev Run (setup : Setup) (ok : Cluster → Event → Prop) : Cluster → Cluster → Prop :=
  Execution.Run (step setup) ok

def Reachable (setup : Setup) (ok : Cluster → Event → Prop) (c : Cluster) : Prop :=
  Run setup ok (init setup) c

end Cluster

end SimKv
