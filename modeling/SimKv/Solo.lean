import SimKv.Lib.Execution
import SimKv.Machine
import SimKv.Raft.Contiguous

set_option autoImplicit false

/-!
# One node by itself

Any message may arrive from anybody, storage may answer anything in any order, and a restart may find
anything on disk. What a run has to keep to besides is said by the condition on its events.
-/

namespace SimKv

inductive Node.Speaks (cause : Cause) (r : Raft) (n m : Node) : Prop where
  | nothing (same : m.moments = n.moments)
  | message (dst : NodeId) (msg : RaftMsg) (durable : msg.term ≤ n.durableTerm)
      (allowed : Says cause r n.toRaft dst msg ∨ ∃ hard, cause = .durable (.reply dst msg) hard)
      (said : m.moments = n.moments ++ [{ raft := n.toRaft, dst, msg }])

namespace Node

variable (n : Node)

theorem writeLogFrom_moments (batch start : Nat) (truncated : Bool) :
    (n.writeLogFrom batch start truncated).moments = n.moments := by
  simp only [writeLogFrom]
  split <;> split <;> rfl

theorem adoptSnapshot_moments (index term : Nat) (data : Bytes) :
    (n.adoptSnapshot index term data).moments = n.moments := by
  simp only [adoptSnapshot, applyThrough, claimThrough, setSnapshotMembers, advanceDurable_toIo,
    refreshConfig_toIo, adoptLog]
  split <;> rfl

variable {n} in
theorem ioSend_speaks {cause : Cause} {r : Raft} {dst : NodeId} {msg : RaftMsg}
    (durable : msg.term ≤ n.durableTerm)
    (allowed : Says cause r n.toRaft dst msg ∨ ∃ hard, cause = .durable (.reply dst msg) hard) :
    Speaks cause r n (n.ioSend dst msg) := by
  unfold ioSend
  split
  · exact .nothing rfl
  · exact .message dst msg durable allowed rfl

end Node

theorem Act.speaks {cause : Cause} {r : Raft} {n m : Node} (act : Act cause r n m) :
    Node.Speaks cause r n m := by
  cases act with
  | send dst msg durable allowed => exact Node.ioSend_speaks durable (.inl allowed)
  | deferred dst msg hard durable done => exact Node.ioSend_speaks durable (.inr ⟨hard, done⟩)
  | persistLog hard start truncated =>
    refine .nothing ?_
    split
    · exact Node.writeLogFrom_moments ..
    · exact Node.writeLogFrom_moments ..
  | persistOwn => exact .nothing (Node.writeLogFrom_moments ..)
  | reconfigure => exact .nothing (congrArg Io.moments n.refreshConfig_toIo)
  | splice _ _ _ _ _ _ p t es i conflict _ _ _ _ _ _ sound =>
    obtain ⟨_, _, _, _, _, _, _, io⟩ := n.takeEntries_toRaft p es i conflict sound
    exact .nothing (congrArg Io.moments io)
  | follow _ lastNew leaderCommit =>
    obtain ⟨_, same, _⟩ := n.followCommit_spec leaderCommit lastNew
    refine .nothing ?_
    rw [same]
  | claim start index => exact .nothing (congrArg Io.moments (n.claimRange_toIo start index))
  | taken => exact .nothing (congrArg Io.moments (Node.refreshConfig_toIo _))
  | adopt index term data => exact .nothing (n.adoptSnapshot_moments index term data)
  | capture data term _ wanted known =>
    simp only [Node.takeSnapshot, wanted, not_true_eq_false, if_false, known]
    exact .nothing rfl
  | _ => exact .nothing rfl

-- Nothing is said before the first act.
theorem Server.Begins.moments {s : Server} {now : Nat} {input : Input} {cause : Cause} {n : Node}
    (begins : s.Begins now input cause n) : n.moments = [] := by
  cases begins with
  | done op ok action hard p =>
    exact congrArg Io.moments (Node.noteDurable_toIo { s.wake now with persister := p } hard)
  | _ => rfl

structure Solo extends Server where
  -- The hard state this life began with, and every one written in it.
  hardWrites : List HardState := [{}]
  -- Every message received and every one sent so far, in this life and before.
  heard : List (NodeId × RaftMsg) := []
  said : List Moment := []

inductive SoloEvent where
  | input (now : Nat) (input : Input)
  | restart (now : Nat) (wal snapshotA snapshotB : Bytes)
  deriving DecidableEq, Repr

namespace Solo

variable (who : Identity) (s : Solo)

def react (now : Nat) (input : Input) : Node := (s.toServer.handle now input).1

def settle (input : Input) (n : Node) : Solo where
  toServer := s.toServer.settle input n
  hardWrites := s.hardWrites ++ n.persister.batches.filterMap Batch.hard
  heard := match input with
    | .deliver p => s.heard ++ [(p.src, p.msg)]
    | _ => s.heard
  said := s.said ++ n.moments

def reboot (now : Nat) (wal snapshotA snapshotB : Bytes) : Solo :=
  let n := Raft.recover wal snapshotA snapshotB who.id who.members who.cfg
    { now, nextOp := s.nextOp, nextTimer := s.nextTimer }
  { raft := n.toRaft
    nextOp := n.nextOp
    nextTimer := n.nextTimer
    hardWrites := [recoverHardState wal]
    heard := s.heard
    said := s.said }

def init : Solo :=
  let n := Raft.recover [] [] [] who.id who.members who.cfg {}
  { raft := n.toRaft, nextOp := n.nextOp, nextTimer := n.nextTimer }

def step : SoloEvent → Option Solo
  | .input now input =>
    let n := s.react now input
    if n.panicked = false then some (s.settle input n) else none
  | .restart now wal snapshotA snapshotB => some (s.reboot who now wal snapshotA snapshotB)

abbrev Run (ok : Solo → SoloEvent → Prop) : Solo → Solo → Prop := Execution.Run (step who) ok

def Reachable (ok : Solo → SoloEvent → Prop) (s : Solo) : Prop := Run who ok (init who) s

end Solo

end SimKv
