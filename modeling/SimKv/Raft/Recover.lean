import SimKv.Raft.Handlers

set_option autoImplicit false

/-!
# Starting from a disk

`Raft::recover` in two halves: what the three files say, and the node that starts from
it. A restart that does not go through bytes uses the second half alone.
-/

namespace SimKv

structure Survived where
  hard : HardState
  snapshot : Option Snapshot
  snapshotFile : Option FileId
  log : RaftLog
  deriving DecidableEq, Repr

/-- The entries of the file that are kept, with their offsets: those ahead of the hard state
or under the snapshot are passed over, and a gap ends the walk. -/
def keptEntries (hardTerm snapIndex : Nat) : Nat → List (Entry × Nat) → List (Entry × Nat)
  | _, [] => []
  | expected, (e, offset) :: rest =>
    if hardTerm < e.term then keptEntries hardTerm snapIndex expected rest
    else if e.index ≤ snapIndex then keptEntries hardTerm snapIndex expected rest
    else if e.index ≠ expected then []
    else (e, offset) :: keptEntries hardTerm snapIndex (e.index + 1) rest

/-- The log above a snapshot at `(snapIndex, snapTerm)`. With nothing kept, the region starts
over at offset zero. -/
def recoveredLog (hardTerm snapIndex snapTerm : Nat) (region : Bytes) : RaftLog :=
  let recovered := recoverLogAnyStart region
  let kept := keptEntries hardTerm snapIndex (snapIndex + 1) (recovered.entries.zip recovered.offsets)
  { entries := kept.map Prod.fst
    offsets := kept.map Prod.snd
    finish := (kept.getLast?.map fun last => last.2 + last.1.toRecord.length).getD 0
    snapshotIndex := snapIndex
    snapshotTerm := snapTerm }

def sourceFile (source : Nat) : FileId := if source = 0 then .snapshotA else .snapshotB

def readDisk (wal snapshotA snapshotB : Bytes) : Survived :=
  let hard := recoverHardState wal
  let picked := pickSnapshotWithSource snapshotA snapshotB
  let snapIndex := (picked.map fun s => s.1.index).getD 0
  let snapTerm := (picked.map fun s => s.1.term).getD 0
  { hard
    snapshot := picked.map Prod.fst
    snapshotFile := picked.map fun s => sourceFile s.2
    log := recoveredLog hard.term snapIndex snapTerm (wal.drop logRegion) }

/-- The state that starts from what survived. Everything the snapshot covers is committed and
applied. -/
def Survived.raft (s : Survived) (id : NodeId) (members : List NodeId) (cfg : RaftConfig) : Raft :=
  let payload := s.snapshot.bind fun snap => decodeSnapshotPayload snap.data
  { id, members, cfg
    term := s.hard.term
    votedFor := s.hard.votedFor
    log := s.log
    commitIndex := s.log.snapshotIndex
    lastApplied := s.log.snapshotIndex
    durableIndex := s.log.lastIndex
    stateSeq := s.hard.seq + 1
    snapshotSeq := (s.snapshot.map Snapshot.seq).getD 0 + 1
    pendingRestore := payload.map Prod.snd
    durableSnapshotFile := s.snapshotFile
    snapshotData := (s.snapshot.map Snapshot.data).getD []
    highestSnapshot := s.log.snapshotIndex
    initialMembers := members
    snapshotMembers := (payload.map Prod.fst).getD []
    durableTerm := s.hard.term
    durableHardState := s.hard }

def Survived.boot (s : Survived) (id : NodeId) (members : List NodeId) (cfg : RaftConfig) (io : Io) :
    Node :=
  { toRaft := s.raft id members cfg, toIo := io : Node }.refreshConfig.resetElectionTimer

-- Sums are taken in `Nat`; `Raft.recoverChecked` knows which of them do not fit.
def Raft.recover (wal snapshotA snapshotB : Bytes) (id : NodeId) (members : List NodeId)
    (cfg : RaftConfig) (io : Io) : Node :=
  (readDisk wal snapshotA snapshotB).boot id members cfg io

-- A record is read behind one of the last index, and its index is compared with the one after that.
def scanOverflows (region : Bytes) : Bool :=
  let recovered := recoverLogAnyStart region
  (recovered.entries.getLast?.any fun e => 2 ^ 64 ≤ e.index + 1) &&
    (readRecord (region.drop recovered.validBytes)).isSome

-- `state_seq`, `snapshot_seq` and `first_index` are one more than what is on the disk.
def Survived.Overflows (s : Survived) : Prop :=
  2 ^ 64 ≤ s.hard.seq + 1 ∨ s.snapshot.any fun snap => 2 ^ 64 ≤ snap.seq + 1 ∨ 2 ^ 64 ≤ snap.index + 1

instance (s : Survived) : Decidable s.Overflows := inferInstanceAs (Decidable (_ ∨ _))

-- How many timeouts `Rng::range` has to choose from.
def RaftConfig.timeoutSpan (cfg : RaftConfig) : Nat := cfg.electionTimeout.2 - cfg.electionTimeout.1 + 1

/-- Start, or restart, a node from the bytes of its three files. Arithmetic is checked in every build, so a sum that
does not fit is a panic: there is no node. -/
def Raft.recoverChecked (wal snapshotA snapshotB : Bytes) (id : NodeId) (members : List NodeId)
    (cfg : RaftConfig) (io : Io) : Option Node :=
  if scanOverflows (wal.drop logRegion) ∨ (readDisk wal snapshotA snapshotB).Overflows ∨
      2 ^ 64 ≤ cfg.timeoutSpan then none
  else some (Raft.recover wal snapshotA snapshotB id members cfg io)

end SimKv
