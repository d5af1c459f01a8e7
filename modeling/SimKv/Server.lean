import SimKv.Raft.Acts
import SimKv.Raft.Recover

set_option autoImplicit false

/-!
# The server around a node

What reaches a server, and what it makes of its node: an input wakes the node, runs one handler,
and leaves a state and a list of effects behind.
-/

namespace SimKv

/-- What `KvServer::drain` does with its node, and what it hands to the state machine and to the
readers on the way. -/
structure Drained where
  handed : List Entry
  served : List Nat
  node : Node

def Node.drain (n : Node) (blob : Bytes) : Drained :=
  let n := n.takePendingRestore.2
  let applied := n.takeApplied
  let ready := applied.2.takeReadyReads
  let failed := ready.2.takeFailedReads
  { handed := applied.1, served := ready.1, node := failed.2.takeSnapshot blob }

-- Everything `drain` does before the snapshot leaves the log and the term alone.
theorem Node.drain_spec (n : Node) (blob : Bytes) : ∃ pendingReads readEvents,
    (n.drain blob).node = { n with
      pendingRestore := none
      lastApplied := n.takeApplied.2.lastApplied
      pendingReads, readEvents }.takeSnapshot blob := by
  simp only [Node.drain, Node.takePendingRestore, Node.takeApplied, Node.takeReadyReads,
    Node.takeFailedReads]
  by_cases leads : n.role = .leader
  · simp only [leads, ne_eq, not_true_eq_false, if_false, if_true]
    exact ⟨_, _, rfl⟩
  · simp only [leads, ne_eq, not_false_eq_true, if_true, if_false]
    exact ⟨_, _, rfl⟩

structure Packet where
  src : NodeId
  dst : NodeId
  msg : RaftMsg
  -- For a snapshot: the entries it stands for. Nothing the nodes do depends on it.
  covered : List Entry := []
  deriving DecidableEq, Repr

/-- What reaches one node. -/
inductive Input where
  | deliver (packet : Packet)
  | timer (tag : TimerTag)
  | storage (op : OpId) (ok : Bool)
  | propose (cmd : Command)
  | reconfigure (members : List NodeId)
  | read
  | drain (blob : Bytes)
  deriving DecidableEq, Repr

structure Server where
  raft : Raft
  nextOp : OpId := 1
  nextTimer : Nat := 0
  -- The server's counter for read requests.
  nextRead : Nat := 1

namespace Server

variable (s : Server)

def wake (now : Nat) : Node :=
  { toRaft := s.raft, toIo := { now, nextOp := s.nextOp, nextTimer := s.nextTimer } }

/-- What one input makes of the node, and the entries handed to the state machine. -/
def handle (now : Nat) : Input → Node × List Entry
  | .deliver p => ((s.wake now).onMessage p.src p.msg, [])
  | .timer tag => ((s.wake now).onTimer tag, [])
  | .storage op ok => ((s.wake now).onStorage op ok, [])
  | .propose cmd => (((s.wake now).propose cmd).2, [])
  | .reconfigure members => (((s.wake now).proposeMembership members).2, [])
  | .read => (((s.wake now).requestRead s.nextRead).2, [])
  | .drain blob =>
    let drained := (s.wake now).drain blob
    (drained.node, drained.handed)

def settle (input : Input) (n : Node) : Server where
  raft := n.toRaft
  nextOp := n.nextOp
  nextTimer := n.nextTimer
  nextRead := if input = .read then s.nextRead + 1 else s.nextRead

-- Before its first act a storage completion has been booked, and a drain has emptied the queues.

inductive Begins (now : Nat) : Input → Cause → Node → Prop where
  | message (p : Packet) : Begins now (.deliver p) (.message p.src p.msg) (s.wake now)
  | timer (tag : TimerTag) : Begins now (.timer tag) .other (s.wake now)
  | propose (cmd : Command) (plain : cmd.members = none) : Begins now (.propose cmd) .other (s.wake now)
  | proposeMembers (cmd : Command) (members : cmd.members ≠ none) :
      Begins now (.propose cmd) .membership (s.wake now)
  | reconfigure (members : List NodeId) : Begins now (.reconfigure members) .membership (s.wake now)
  | read : Begins now .read .read (s.wake now)
  | drain (blob : Bytes) (pendingReads : List PendingRead) (readEvents : List ReadEvent) :
      Begins now (.drain blob) .other
        { s.wake now with
          pendingRestore := none
          lastApplied := (s.wake now).takeApplied.2.lastApplied
          pendingReads, readEvents }
  | dead (op : OpId) (ok : Bool) (failed : s.raft.failed = true) :
      Begins now (.storage op ok) .other (s.wake now)
  | booked (op : OpId) (ok : Bool) (p : Persister)
      (completed : s.raft.persister.onComplete op ok = (.nothing, p)) :
      Begins now (.storage op ok) .other { s.wake now with persister := p }
  | failed (op : OpId) (ok : Bool) (p : Persister)
      (completed : s.raft.persister.onComplete op ok = (.failed, p)) :
      Begins now (.storage op ok) .other { s.wake now with persister := p, failed := true }
  | sync (op : OpId) (ok : Bool) (id : Nat) (file : FileId) (p : Persister)
      (completed : s.raft.persister.onComplete op ok = (.needSync id file, p)) :
      Begins now (.storage op ok) .other
        { (s.wake now).sync file with persister := p.noteSync id s.nextOp }
  | done (op : OpId) (ok : Bool) (action : Persist) (hard : Option HardState) (p : Persister)
      (completed : s.raft.persister.onComplete op ok = (.done action hard, p)) :
      Begins now (.storage op ok) (.durable action hard)
        ({ s.wake now with persister := p }.noteDurable hard)

-- Every input is answered by acts.
theorem handle_leads (now : Nat) (input : Input) : ∃ cause n, s.Begins now input cause n ∧
    Leads cause n.toRaft n (s.handle now input).1 := by
  cases input with
  | deliver p => exact ⟨_, _, .message p, onMessage_leads p.src p.msg⟩
  | timer tag => exact ⟨_, _, .timer tag, onTimer_leads rfl tag⟩
  | propose cmd =>
    by_cases plain : cmd.members = none
    · exact ⟨_, _, .propose cmd plain, propose_leads rfl (.inl plain)⟩
    · exact ⟨_, _, .proposeMembers cmd plain, propose_leads rfl (.inr rfl)⟩
  | reconfigure members => exact ⟨_, _, .reconfigure members, proposeMembership_leads rfl members rfl⟩
  | read => exact ⟨_, _, .read, requestRead_leads _ rfl⟩
  | drain blob =>
    obtain ⟨reads, events, same⟩ := (s.wake now).drain_spec blob
    refine ⟨_, _, .drain blob reads events, ?_⟩
    simp only [handle]
    rw [same]
    exact takeSnapshot_leads rfl blob
  | storage op ok =>
    simp only [handle, Node.onStorage]
    split
    · next failed => exact ⟨_, _, .dead op ok failed, .refl _⟩
    · have here : (s.wake now).persister = s.raft.persister := rfl
      rw [here]
      rcases completed : s.raft.persister.onComplete op ok with ⟨event, p⟩
      cases event with
      | nothing => exact ⟨_, _, .booked op ok p completed, .refl _⟩
      | failed => exact ⟨_, _, .failed op ok p completed, .refl _⟩
      | needSync id file => exact ⟨_, _, .sync op ok id file p completed, .refl _⟩
      | done action hard => exact ⟨_, _, .done op ok action hard p completed, onDurable_leads action hard⟩

variable {s} in
-- Where an input begins, no batch is new.
theorem Begins.duties {now : Nat} {input : Input} {cause : Cause} {n : Node}
    (begins : s.Begins now input cause n) :
    n.persister.nextId = s.raft.persister.nextId ∧
      (∀ d ∈ n.persister.duties, d ∈ s.raft.persister.duties) ∧
      ∀ action hard, cause = .durable action hard →
        ∃ d ∈ s.raft.persister.duties, d.action = action ∧ d.hard = hard := by
  cases begins with
  | message | timer | propose | proposeMembers | reconfigure | read | drain | dead =>
    exact ⟨rfl, fun d member => member, nofun⟩
  | booked op ok p completed | failed op ok p completed =>
    obtain ⟨same, fewer, _⟩ := s.raft.persister.onComplete_spec op ok
    rw [completed] at same fewer
    exact ⟨same, fewer, nofun⟩
  | sync op ok id file p completed =>
    obtain ⟨same, fewer, _⟩ := s.raft.persister.onComplete_spec op ok
    rw [completed] at same fewer
    refine ⟨same, fun d member => fewer d ?_, nofun⟩
    rwa [Persister.duties_noteSync] at member
  | done op ok action hard p completed =>
    obtain ⟨same, fewer, ended⟩ := s.raft.persister.onComplete_spec op ok
    rw [completed] at same fewer ended
    have books : ({ s.wake now with persister := p }.noteDurable hard).persister = p :=
      Node.noteDurable_persister _ hard
    rw [books]
    refine ⟨same, fewer, ?_⟩
    rintro _ _ ⟨⟩
    exact ended action hard rfl

variable {s} in
-- Unless the queues are drained, only the books and the durable claims differ where an input begins.
theorem Begins.toRaft_eq {now : Nat} {input : Input} {cause : Cause} {n : Node}
    (begins : s.Begins now input cause n) (undrained : ∀ blob, input ≠ .drain blob) :
    ∃ persister failed durableHardState durableTerm durableIndex parked,
      n.toRaft = { s.raft with persister, failed, durableHardState, durableTerm, durableIndex, parked } := by
  cases begins with
  | drain blob => exact absurd rfl (undrained blob)
  | done op ok action hard p =>
    cases hard with
    | none => exact ⟨_, _, _, _, _, _, rfl⟩
    | some hs =>
      obtain ⟨durable, parked, raft, _⟩ := Node.noteDurable_spec { s.wake now with persister := p } hs
      exact ⟨_, _, _, _, durable, parked, raft⟩
  | _ => exact ⟨_, _, _, _, _, _, rfl⟩

variable {s} in
theorem Begins.message_inv {now : Nat} {input : Input} {cause : Cause} {n : Node} {src : NodeId}
    {msg : RaftMsg} (begins : s.Begins now input cause n) (same : cause = .message src msg) :
    ∃ p, input = .deliver p ∧ p.src = src ∧ p.msg = msg ∧ n = s.wake now := by
  cases begins with
  | message p =>
    cases same
    exact ⟨p, rfl, rfl, rfl, rfl⟩
  | _ => cases same

variable {s} in
theorem Begins.ordered {now : Nat} {input : Input} {cause : Cause} {n : Node}
    (begins : s.Begins now input cause n) (ordered : s.raft.persister.Ordered) :
    n.persister.Ordered := by
  obtain ⟨same, fewer, _⟩ := begins.duties
  rw [Persister.ordered_iff, same]
  exact fun d member => ordered.fresh d (fewer d member)

-- What holds where an input begins and is kept by every act holds where it ends.
theorem handle_rule {holds : Cause → Raft → Node → Prop} {now : Nat} {input : Input}
    (begins : ∀ cause n, s.Begins now input cause n → holds cause n.toRaft n)
    (acts : ∀ cause r n m, holds cause r n → Act cause r n m → holds cause r m)
    (calm : (s.handle now input).1.panicked = false) :
    ∃ cause r, holds cause r (s.handle now input).1 := by
  obtain ⟨cause, n, begun, leads⟩ := s.handle_leads now input
  refine ⟨cause, n.toRaft, ?_⟩
  have chain := leads calm
  generalize (s.handle now input).1 = last at chain ⊢
  induction chain with
  | refl => exact begins cause n begun
  | tail _ act ih => exact acts _ _ _ _ ih act

end Server

end SimKv
