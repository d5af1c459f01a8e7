import SimKv.Kv.StateMachine
import SimKv.Server

set_option autoImplicit false

/-!
# The server

`kvstore::server::KvServer`: the state machine and the clients that wait, around a node. As with a
node, a server is taken in the middle of an event, together with the `Io` it is using.
-/

namespace SimKv

open Std

structure Waiting where
  dst : NodeId
  reqId : Nat
  client : Nat
  seq : Nat
  deriving DecidableEq, Repr

structure WaitingRead where
  dst : NodeId
  reqId : Nat
  key : String
  deriving DecidableEq, Repr

structure Reply where
  dst : NodeId
  reqId : Nat
  outcome : Outcome
  deriving DecidableEq, Repr

structure KvServer extends Node where
  sm : StateMachine := {}
  waiting : ExtTreeMap Nat Waiting := ∅
  waitingReads : ExtTreeMap Nat WaitingRead := ∅
  nextReadId : Nat := 1
  -- The answers given to clients in this event.
  replies : List Reply := []

namespace KvServer

variable (k : KvServer)

def reply (dst : NodeId) (reqId : Nat) (outcome : Outcome) : KvServer :=
  if dst = k.id then k else { k with replies := k.replies ++ [{ dst, reqId, outcome }] }

def dropWaiting (index : Nat) : KvServer :=
  match k.waiting[index]? with
  | some w => { k with waiting := k.waiting.erase index }.reply w.dst w.reqId .dropped
  | none => k

def dropAll : KvServer := k.waiting.keys.foldl dropWaiting k

def dropStale : KvServer := (k.waiting.keys.filter fun i => i ≤ k.lastApplied).foldl dropWaiting k

def adoptSnapshot : KvServer :=
  match k.takePendingRestore with
  | (none, _) => k
  | (some blob, n) =>
    let k := { k with toNode := n }
    let k := match StateMachine.restore blob with
      | .ok sm => { k with sm }
      | .error _ => k
    k.dropAll

def applyEntry (e : Entry) : KvServer :=
  let result := k.sm.apply e.cmd
  let k := { k with sm := result.2 }
  match k.waiting[e.index]? with
  | none => k
  | some w =>
    let k := { k with waiting := k.waiting.erase e.index }
    -- a later leader may have filled the slot with somebody else's command
    k.reply w.dst w.reqId (if w.client = e.cmd.client ∧ w.seq = e.cmd.seq then result.1 else .dropped)

def applyCommitted : KvServer :=
  let taken := k.takeApplied
  taken.1.foldl applyEntry { k with toNode := taken.2 }

def answerRead (id : Nat) : KvServer :=
  match k.waitingReads[id]? with
  | some r => { k with waitingReads := k.waitingReads.erase id }.reply r.dst r.reqId (.value k.sm.state[r.key]?)
  | none => k

def failRead (id : Nat) : KvServer :=
  match k.waitingReads[id]? with
  | some r => { k with waitingReads := k.waitingReads.erase id }.reply r.dst r.reqId .dropped
  | none => k

def answerReads : KvServer :=
  let ready := k.takeReadyReads
  ready.1.foldl answerRead { k with toNode := ready.2 }

def failReads : KvServer :=
  let failed := k.takeFailedReads
  failed.1.foldl failRead { k with toNode := failed.2 }

def maybeSnapshot : KvServer :=
  if k.wantsSnapshot then { k with toNode := k.takeSnapshot k.sm.encode } else k

def drain : KvServer :=
  let k := k.adoptSnapshot.applyCommitted.dropStale.answerReads.failReads.maybeSnapshot
  if k.role ≠ .leader then k.dropAll else k

def onRaft (src : NodeId) (msg : RaftMsg) : KvServer := { k with toNode := k.onMessage src msg }.drain

def onTimer (tag : TimerTag) : KvServer := { k with toNode := k.toNode.onTimer tag }.drain

def onStorage (op : OpId) (ok : Bool) : KvServer := { k with toNode := k.toNode.onStorage op ok }.drain

def inFlight (client seq : Nat) : Option (Nat × Waiting) :=
  k.waiting.toList.find? fun entry => entry.2.client = client ∧ entry.2.seq = seq

def proposeRequest (src : NodeId) (reqId client seq : Nat) (op : Op) : KvServer :=
  match k.inFlight client seq with
  | some (index, w) => { k with waiting := k.waiting.insert index { w with dst := src, reqId } }
  | none =>
    match k.propose { client, seq, op } with
    | (some index, n) =>
      { k with toNode := n, waiting := k.waiting.insert index { dst := src, reqId, client, seq } }.drain
    | (none, n) => ({ k with toNode := n }.reply src reqId (.notLeader n.leader)).drain

def onRequest (src : NodeId) (reqId client seq : Nat) (op : Op) : KvServer :=
  if k.role ≠ .leader then k.reply src reqId (.notLeader k.leader)
  else
    match k.sm.cached client seq with
    | some outcome => k.reply src reqId outcome
    | none =>
      match op with
      | .get key =>
        let id := k.nextReadId
        let asked := k.requestRead id
        let k := { k with toNode := asked.2, nextReadId := id + 1 }
        if asked.1 then { k with waitingReads := k.waitingReads.insert id { dst := src, reqId, key } }.drain
        else k.proposeRequest src reqId client seq op
      | _ => k.proposeRequest src reqId client seq op

def proposeMembership (members : List NodeId) : Except String Nat × KvServer :=
  let asked := k.toNode.proposeMembership members
  (asked.1, { k with toNode := asked.2 })

def recover (wal snapshotA snapshotB : Bytes) (id : NodeId) (members : List NodeId) (cfg : RaftConfig)
    (io : Io) : KvServer :=
  adoptSnapshot { toNode := Raft.recover wal snapshotA snapshotB id members cfg io }

end KvServer

end SimKv
