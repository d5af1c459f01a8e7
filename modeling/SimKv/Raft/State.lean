import Mathlib.Data.Finset.Card
import SimKv.Disk
import SimKv.Record

set_option autoImplicit false

/-!
# Messages, batches and the state of one Raft node

`kvstore::raft` without its handlers. The injected defects are not modelled: `bug` is
`InjectedBug::None` throughout, as are the statistics nothing reads, the trace calls
and the delays drawn for timers, which only the scheduler sees.
-/

namespace SimKv

inductive ReadMode where
  | log
  | readIndex
  deriving DecidableEq, Repr

inductive Role where
  | follower
  | candidate
  | leader
  deriving DecidableEq, Repr

structure RaftConfig where
  -- Bounds of the election timeout; the lower one also decides leader stickiness.
  electionTimeout : Nat × Nat := (300, 600)
  maxBatch : Nat := 64
  -- Zero disables compaction.
  snapshotThreshold : Nat := 400
  readMode : ReadMode := .readIndex
  leaderStickiness : Bool := true
  preVote : Bool := true
  deriving DecidableEq, Repr

inductive RaftMsg where
  | requestVote (term : Nat) (candidate : NodeId) (lastIndex lastTerm : Nat)
  | requestVoteResp (term : Nat) (granted : Bool)
  | appendEntries (term : Nat) (leader : NodeId) (prevIndex prevTerm : Nat)
      (entries : List Entry) (leaderCommit : Nat)
  | appendEntriesResp (term : Nat) (success : Bool) (matchIndex conflictIndex : Nat)
  | installSnapshot (term : Nat) (leader : NodeId) (index indexTerm : Nat) (data : Bytes)
  | installSnapshotResp (term index : Nat)
  | readProbe (term : Nat) (leader : NodeId) (seq : Nat)
  | readProbeResp (term seq : Nat)
  | preVote (term : Nat) (candidate : NodeId) (lastIndex lastTerm : Nat)
  | preVoteResp (term round : Nat) (granted : Bool)
  deriving DecidableEq, Repr

def RaftMsg.term : RaftMsg → Nat
  | requestVote term .. | requestVoteResp term .. | appendEntries term .. |
    appendEntriesResp term .. | installSnapshot term .. | installSnapshotResp term .. |
    readProbe term .. | readProbeResp term .. | preVote term .. | preVoteResp term .. => term

inductive Persist where
  | campaign (term : Nat)
  | voteReply (dst : NodeId) (term : Nat) (granted : Bool)
  /-- `start` is the first index the batch wrote, `verified` the highest index known to
  match the leader's log. -/
  | logDurable (start index verified : Nat) (replyTo : Option NodeId) (replyTerm : Nat)
  | reply (dst : NodeId) (msg : RaftMsg)
  | snapshotTaken (index term : Nat) (file : FileId)
  | snapshotInstalled (index term : Nat) (data : Bytes) (file : FileId)
      (replyTo : NodeId) (replyTerm : Nat)
  | quiet
  deriving DecidableEq, Repr

def unverified : Nat := 2 ^ 64 - 1

def Persist.clamp (cap : Nat) : Persist → Persist
  | .logDurable start index verified replyTo replyTerm =>
      .logDurable start (min index cap) verified replyTo replyTerm
  | other => other

inductive OpKind where
  | write
  | sync
  deriving DecidableEq, Repr

structure Batch where
  id : Nat
  file : FileId := .wal
  writesOutstanding : Nat := 0
  syncIssued : Bool := false
  action : Persist
  -- The hard state written in this batch, if any.
  hard : Option HardState := none
  deriving DecidableEq, Repr

structure Persister where
  nextId : Nat := 0
  batches : List Batch := []
  ops : List (OpId × Nat × OpKind) := []
  deriving DecidableEq, Repr

inductive BatchEvent where
  | nothing
  | needSync (id : Nat) (file : FileId)
  | done (action : Persist) (hard : Option HardState)
  | failed
  deriving DecidableEq, Repr

namespace Persister

variable (p : Persister)

def start (action : Persist) : Persister :=
  { p with nextId := p.nextId + 1, batches := p.batches ++ [{ id := p.nextId + 1, action }] }

def modifyBatch (id : Nat) (f : Batch → Batch) : Persister :=
  { p with batches := p.batches.map fun b => if b.id = id then f b else b }

def noteWrite (id : Nat) (op : OpId) : Persister :=
  let p := p.modifyBatch id fun b => { b with writesOutstanding := b.writesOutstanding + 1 }
  { p with ops := p.ops ++ [(op, id, .write)] }

def noteFile (id : Nat) (file : FileId) : Persister :=
  p.modifyBatch id fun b => { b with file }

def noteHardState (id : Nat) (hs : HardState) : Persister :=
  p.modifyBatch id fun b => { b with hard := some hs }

def noteSync (id : Nat) (op : OpId) : Persister :=
  let p := p.modifyBatch id fun b => { b with syncIssued := true }
  { p with ops := p.ops ++ [(op, id, .sync)] }

def onComplete (op : OpId) (ok : Bool) : BatchEvent × Persister :=
  match p.ops.find? (fun o => o.1 = op) with
  | none => (.nothing, p)
  | some (_, id, kind) =>
    let p := { p with ops := p.ops.eraseP fun o => o.1 = op }
    if !ok then (.failed, { p with batches := p.batches.filter fun b => b.id ≠ id })
    else
      match p.batches.find? (fun b => b.id = id) with
      | none => (.nothing, p)
      | some b =>
        match kind with
        | .write =>
          let p := p.modifyBatch id fun b => { b with writesOutstanding := b.writesOutstanding - 1 }
          if b.writesOutstanding - 1 = 0 ∧ !b.syncIssued then (.needSync id b.file, p)
          else (.nothing, p)
        | .sync =>
          (.done b.action b.hard, { p with batches := p.batches.eraseP fun b => b.id = id })

def clampAll (cap : Nat) : Persister :=
  { p with batches := p.batches.map fun b => { b with action := b.action.clamp cap } }

end Persister

structure PendingRead where
  id : Nat
  readIndex : Nat
  -- The probe round this read needs acknowledged.
  seq : Nat
  confirmed : Bool
  deriving DecidableEq, Repr

inductive ReadEvent where
  | requested (id readIndex term seq : Nat)
  | served (id : Nat)
  deriving DecidableEq, Repr

structure Deadline where
  handle : Option Nat := none
  deriving DecidableEq, Repr

abbrev NodeMap := NodeId → Option Nat

structure Raft where
  id : NodeId
  members : List NodeId
  cfg : RaftConfig
  role : Role := .follower
  term : Nat
  votedFor : Option NodeId
  log : RaftLog
  commitIndex : Nat
  lastApplied : Nat
  leader : Option NodeId := none
  votes : Finset NodeId := ∅
  -- Pre-votes gathered in the round now running, if one is.
  preVotes : Option (Finset NodeId) := none
  nextIndex : NodeMap := fun _ => none
  matchIndex : NodeMap := fun _ => none
  -- Highest log index this node knows to be on stable storage.
  durableIndex : Nat
  -- Synced ranges that wait for the gap below them to close.
  parked : List (Nat × Nat) := []
  stateSeq : Nat
  snapshotSeq : Nat
  pendingRestore : Option Bytes
  snapshotInFlight : Bool := false
  -- The file holding the newest durable snapshot; the next write goes to the other.
  durableSnapshotFile : Option FileId
  snapshotData : Bytes
  highestSnapshot : Nat
  initialMembers : List NodeId
  snapshotMembers : List NodeId
  configIndex : Nat := 0
  lastLeaderContact : Nat := 0
  readSeq : Nat := 0
  pendingReads : List PendingRead := []
  probeAcked : NodeMap := fun _ => none
  readEvents : List ReadEvent := []
  -- Highest term known to be on stable storage.
  durableTerm : Nat
  durableHardState : HardState
  persister : Persister := {}
  electionTimer : Deadline := {}
  heartbeatTimer : Deadline := {}
  failed : Bool := false
  -- `stats.truncated_committed`.
  truncatedCommitted : Nat := 0

inductive Effect where
  | send (dst : NodeId) (msg : RaftMsg)
  | writeAt (op : OpId) (file : FileId) (offset : Nat) (bytes : Bytes)
  | setLen (op : OpId) (file : FileId) (len : Nat)
  | sync (op : OpId) (file : FileId)
  deriving DecidableEq, Repr

structure Moment where
  raft : Raft
  dst : NodeId
  msg : RaftMsg

/-- The `Io` a node is handed for one event. `panicked` records that an assertion of the
source failed; nothing a handler does after that counts. `moments` is there to speak about what a
node says and when; nothing depends on it. -/
structure Io where
  now : Nat := 0
  nextOp : OpId := 1
  nextTimer : Nat := 0
  effects : List Effect := []
  panicked : Bool := false
  moments : List Moment := []

/-- A node in the middle of an event: its state and the `Io` it is using. -/
structure Node extends Raft, Io

end SimKv
