import Mathlib.Data.List.Sort
import SimKv.Raft.State

set_option autoImplicit false

/-!
# The operations handlers are made of

Everything in `impl Raft` that is not an entry point: membership, sending, the
write-ahead file, replication and the durable claim. A function that takes `io` in the
source takes and returns a `Node` here.
-/

namespace SimKv

def logRegion : Nat := stateFileSize

namespace Raft

variable (r : Raft)

def isMember : Prop := r.id ∈ r.members

instance : Decidable r.isMember := inferInstanceAs (Decidable (_ ∈ _))

def quorum : Nat := r.members.length / 2 + 1

def peers : List NodeId := r.members.filter fun p => p ≠ r.id

def memberVotes : Nat := (r.votes.filter fun v => v ∈ r.members).card

def memberPreVotes : Nat :=
  match r.preVotes with
  | none => 0
  | some votes => (votes.filter fun v => v ∈ r.members).card

def baseConfig : List NodeId :=
  if r.snapshotMembers = [] then r.initialMembers else r.snapshotMembers

def configScan (log : RaftLog) : Nat → Option (List NodeId × Nat)
  | 0 => none
  | i + 1 =>
    if i + 1 < log.firstIndex then none
    else
      match (log.get (i + 1)).bind fun e => e.cmd.members with
      | some members => some (members, i + 1)
      | none => configScan log i

def configAt (index : Nat) : List NodeId × Nat :=
  (configScan r.log (min index r.log.lastIndex)).getD (r.baseConfig, 0)

def conflictScan (log : RaftLog) (term : Nat) : Nat → Nat
  | 0 => 0
  | i + 1 => if 1 < i + 1 ∧ log.termAt i = some term then conflictScan log term i else i + 1

def conflictHint (prevIndex : Nat) : Nat :=
  if r.log.lastIndex < prevIndex then r.log.lastIndex + 1
  else
    match r.log.termAt prevIndex with
    | none => r.log.lastIndex + 1
    | some term => conflictScan r.log term prevIndex

def wantsSnapshot : Prop :=
  0 < r.cfg.snapshotThreshold ∧ r.snapshotInFlight = false ∧ r.failed = false ∧
    r.log.snapshotIndex < r.lastApplied ∧
    r.cfg.snapshotThreshold ≤ r.lastApplied - r.log.snapshotIndex

instance : Decidable r.wantsSnapshot := inferInstanceAs (Decidable (_ ∧ _))

def nextSnapshotFile : FileId :=
  if r.durableSnapshotFile = some .snapshotA then .snapshotB else .snapshotA

def replicated : List Nat :=
  r.members.map fun m => if m = r.id then r.durableIndex else (r.matchIndex m).getD noIndex

end Raft

namespace Node

variable (n : Node)

def emit (dst : NodeId) (msg : RaftMsg) : Node :=
  { n with
    effects := n.effects ++ [.send dst msg]
    moments := n.moments ++ [{ raft := n.toRaft, dst, msg }] }

def ioSend (dst : NodeId) (msg : RaftMsg) : Node :=
  if dst = n.id then n else n.emit dst msg

def writeAt (file : FileId) (offset : Nat) (bytes : Bytes) : Node :=
  { n with nextOp := n.nextOp + 1, effects := n.effects ++ [.writeAt n.nextOp file offset bytes] }

def setLen (file : FileId) (len : Nat) : Node :=
  { n with nextOp := n.nextOp + 1, effects := n.effects ++ [.setLen n.nextOp file len] }

def sync (file : FileId) : Node :=
  { n with nextOp := n.nextOp + 1, effects := n.effects ++ [.sync n.nextOp file] }

def resetElectionTimer : Node :=
  { n with electionTimer := { handle := some n.nextTimer }, nextTimer := n.nextTimer + 1 }

def resetHeartbeatTimer : Node :=
  { n with heartbeatTimer := { handle := some n.nextTimer }, nextTimer := n.nextTimer + 1 }

def disarmElectionTimer : Node := { n with electionTimer := {} }

def disarmHeartbeatTimer : Node := { n with heartbeatTimer := {} }

def leaderIsLive : Prop :=
  n.role = .leader ∨
    n.leader.isSome = true ∧ n.now - n.lastLeaderContact < n.cfg.electionTimeout.1

instance : Decidable n.leaderIsLive := inferInstanceAs (Decidable (_ ∨ _))

def heardFromLeaderRecently : Prop := n.cfg.leaderStickiness = true ∧ n.leaderIsLive

instance : Decidable n.heardFromLeaderRecently := inferInstanceAs (Decidable (_ ∧ _))

def send (dst : NodeId) (msg : RaftMsg) : Node :=
  if n.durableTerm < msg.term then n else n.ioSend dst msg

def sendAll (dsts : List NodeId) (msg : RaftMsg) : Node :=
  dsts.foldl (fun n dst => n.send dst msg) n

def syncPeerMaps : Node :=
  let next := n.log.lastIndex + 1
  { n with
    nextIndex := fun p => if p ∈ n.peers then some ((n.nextIndex p).getD next) else none
    matchIndex := fun p => if p ∈ n.peers then some ((n.matchIndex p).getD noIndex) else none }

def refreshConfig : Node :=
  let config := n.configAt n.log.lastIndex
  let n := { n with members := config.1, configIndex := config.2 }
  if n.role = .leader then n.syncPeerMaps else n

def startBatch (action : Persist) : Node := { n with persister := n.persister.start action }

def noteWrite (batch : Nat) (op : OpId) : Node :=
  { n with persister := n.persister.noteWrite batch op }

def hardState : HardState := { term := n.term, votedFor := n.votedFor, seq := n.stateSeq }

def writeHardState (batch : Nat) : Node :=
  let hs := n.hardState
  let op := n.nextOp
  let n := { n with stateSeq := n.stateSeq + 1 }.writeAt .wal (HardState.slotOffset hs.seq) hs.toSlot
  { n with persister := (n.persister.noteHardState batch hs).noteWrite batch op }

def persistHard (action : Persist) : Node :=
  (n.startBatch action).writeHardState (n.persister.nextId + 1)

def writeLogFrom (batch start : Nat) (truncated : Bool) : Node :=
  let offset := logRegion + n.log.byteOffsetOf start
  -- drop the stale suffix first
  let n := if truncated then (n.setLen .wal offset).noteWrite batch n.nextOp else n
  let bytes := (n.log.entries.filter fun e => start ≤ e.index).flatMap Entry.toRecord
  if bytes = [] then (n.setLen .wal offset).noteWrite batch n.nextOp
  else (n.writeAt .wal offset bytes).noteWrite batch n.nextOp

def logAction (start verified : Nat) (replyTo : Option NodeId) (replyTerm : Nat) : Persist :=
  .logDurable start n.log.lastIndex verified replyTo replyTerm

def persistLogFrom (start : Nat) (truncated : Bool) (replyTo : Option NodeId)
    (replyTerm verified : Nat) : Node :=
  (n.startBatch (n.logAction start verified replyTo replyTerm)).writeLogFrom
    (n.persister.nextId + 1) start truncated

def persistHardAndLog (start : Nat) (truncated : Bool) (replyTo : Option NodeId)
    (replyTerm verified : Nat) : Node :=
  ((n.startBatch (n.logAction start verified replyTo replyTerm)).writeHardState
    (n.persister.nextId + 1)).writeLogFrom (n.persister.nextId + 1) start truncated

/-- The loop of `advance_durable` over the claim and the parked ranges. Every round but the
last takes a range off the list, so `parked.length + 2` rounds suffice. -/
def advanceLoop (cap : Nat) : Nat → Nat → List (Nat × Nat) → Nat × List (Nat × Nat)
  | 0, durable, parked => (durable, parked)
  | fuel + 1, durable, parked =>
    let parked := parked.filter fun range => durable < range.2
    match parked.find? fun range =>
        range.1 ≤ durable + 1 ∧ durable < range.2 ∧ range.1 ≤ cap with
    | none => (durable, parked)
    | some range =>
      let claim := min range.2 cap
      if claim ≤ durable then (durable, parked)
      else advanceLoop cap fuel claim (if claim = range.2 then parked.erase range else parked)

def advanceDurable : Node :=
  let cap := n.log.lastIndexWithTermAtMost n.durableTerm
  let result := advanceLoop cap (n.parked.length + 2) n.durableIndex n.parked
  { n with
    durableIndex := result.1
    parked := if 4096 < result.2.length then [] else result.2 }

def stepDown (term : Nat) : Node :=
  { n with term, votedFor := none, role := .follower, leader := none, votes := ∅ }
    |>.disarmHeartbeatTimer |>.resetElectionTimer

def stepDownAndPersist (term : Nat) : Node := (n.stepDown term).persistHard .quiet

def appendEntry (e : Entry) : Node :=
  if n.log.AppendOk e then { n with log := n.log.append e } else { n with panicked := true }

def appendAll (entries : List Entry) : Node := entries.foldl appendEntry n

def ownEntry (cmd : Command) : Entry := { term := n.term, index := n.log.lastIndex + 1, cmd }

def truncate (at_ : Nat) : Node :=
  let n := if at_ ≤ n.commitIndex then { n with truncatedCommitted := n.truncatedCommitted + 1 } else n
  let n := { n with log := n.log.truncateFrom at_ }.refreshConfig
  let cap := at_ - 1
  { n with
    durableIndex := min n.durableIndex cap
    persister := n.persister.clampAll cap
    parked := (n.parked.filter fun range => range.1 ≤ cap).map fun range =>
      (range.1, min range.2 cap) }

def sendAppendTo (dst : NodeId) : Node :=
  let next := max ((n.nextIndex dst).getD 1) 1
  let prevIndex := next - 1
  if prevIndex < n.log.snapshotIndex ∧ n.snapshotData ≠ [] then
    n.send dst (.installSnapshot n.term n.id n.log.snapshotIndex n.log.snapshotTerm n.snapshotData)
  else
    match n.log.termAt prevIndex with
    | none => n
    | some prevTerm =>
      n.send dst (.appendEntries n.term n.id prevIndex prevTerm
        (n.log.sliceFrom next n.cfg.maxBatch) n.commitIndex)

def broadcastAppend : Node := n.peers.foldl sendAppendTo n

def broadcastProbe : Node := n.sendAll n.peers (.readProbe n.term n.id n.readSeq)

def stepAsideIfRemoved : Node :=
  if n.role = .leader ∧ ¬ n.isMember ∧ n.configIndex ≤ n.commitIndex then
    { n with role := .follower, leader := none }.disarmHeartbeatTimer
  else n

def maybeCommit : Node :=
  match (n.replicated.insertionSort (· ≥ ·))[n.quorum - 1]? with
  -- with no members the source indexes past the end of the list
  | none => { n with panicked := true }
  | some candidate =>
    -- only an entry of the leader's own term commits by counting replicas
    if n.commitIndex < candidate ∧ n.log.termAt candidate = some n.term then
      { n with commitIndex := candidate }.stepAsideIfRemoved
    else n

def takeOffice : Node :=
  let next := n.log.lastIndex + 1
  { n with
    role := .leader
    leader := some n.id
    nextIndex := fun p => if p ∈ n.peers then some next else none
    matchIndex := fun p => if p ∈ n.peers then some noIndex else none
    probeAcked := fun _ => none }

def becomeLeader : Node :=
  let index := n.log.lastIndex + 1
  n.takeOffice
    |>.appendEntry (n.ownEntry Command.noop)
    |>.persistLogFrom index false none 0 unverified
    |>.disarmElectionTimer
    |>.broadcastAppend
    |>.resetHeartbeatTimer

def becomeCandidate : Node :=
  { n with
    preVotes := none
    term := n.term + 1
    votedFor := some n.id
    role := .candidate
    leader := none
    votes := {n.id} }
    |>.persistHard (.campaign (n.term + 1)) |>.resetElectionTimer

def replaceLog (index term : Nat) : Node :=
  { n with log := RaftLog.fromSnapshot index term [], parked := [] }
    |>.setLen .wal logRegion |>.sync .wal

def keepTail (index term : Nat) : Node :=
  { n with
    log := n.log.compactTo index term
    parked := n.parked.filter fun range => index < range.2 }

def adoptLog (index term : Nat) : Node :=
  if n.log.termAt index = some term then n.keepTail index term else n.replaceLog index term

def stageImage (index : Nat) (data app : Bytes) : Node :=
  { n with
    snapshotData := data
    pendingRestore := if n.lastApplied < index then some app else n.pendingRestore }

def setSnapshotMembers (members : List NodeId) : Node :=
  { n with snapshotMembers := members }.refreshConfig

def claimThrough (index : Nat) : Node :=
  { n with durableIndex := min (max n.durableIndex index) n.log.lastIndex }.advanceDurable

def applyThrough (index : Nat) : Node :=
  { n with
    commitIndex := max n.commitIndex index
    lastApplied := if n.lastApplied < index then index else n.lastApplied }

def adoptSnapshot (index term : Nat) (data : Bytes) : Node :=
  let image := (decodeSnapshotPayload data).getD (n.baseConfig, [])
  n.stageImage index data image.2
    |>.adoptLog index term
    |>.setSnapshotMembers image.1
    |>.claimThrough index
    |>.applyThrough index

end Node

end SimKv
