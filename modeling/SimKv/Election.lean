import SimKv.Cluster
import SimKv.Lib.Ballot

set_option autoImplicit false

/-!
# The cluster elects as the ballot protocol does

Every act of a handler is a few moves of the abstract protocol by the node that acts. What a batch
under way promises, and what a packet says, is accounted for in the abstract state.
-/

namespace SimKv

open Ballot

def HardState.ballot (hs : HardState) : Ballot.Hard NodeId :=
  { term := hs.term, vote := hs.votedFor, seq := hs.seq }

def Raft.stance (r : Raft) : Stance NodeId := { term := r.term, vote := r.votedFor }

def Role.post : Role → Post
  | .follower => .follower
  | .candidate => .candidate
  | .leader => .leader

/-- What a batch stands for: its hard state is among the writes, and a vote it will announce has
been pledged. -/
def Owed (members : List NodeId) (i : NodeId) (seat : Seat NodeId) (action : Persist)
    (hard : Option HardState) : Prop :=
  (∀ hs ∈ hard, hs.ballot ∈ seat.writes) ∧
  match action with
  | .campaign term => ∃ hs ∈ hard, hs.ballot.toStance = ⟨term, some i⟩
  | .voteReply dst term true =>
      (term, dst) ∈ seat.pledged ∧ ∃ hs ∈ hard, hs.ballot.toStance = ⟨term, some dst⟩
  | .reply _ msg => ∃ term success matchIndex conflictIndex,
      msg = .appendEntriesResp term success matchIndex conflictIndex
  | .snapshotInstalled _ _ data _ _ _ => FixedImage members data
  | _ => True

structure SeatRel (members : List NodeId) (i : NodeId) (r : Raft) (seat : Seat NodeId) : Prop where
  id : r.id = i
  fixed : r.Fixed members
  image : FixedImage members r.snapshotData
  now : seat.now = r.stance
  hard : seat.hard = r.durableHardState.ballot
  durableTerm : r.durableTerm = r.durableHardState.term
  nextSeq : seat.nextSeq = r.stateSeq
  post : seat.post = r.role.post
  votes : r.role = .candidate → seat.votes = r.votes
  ordered : r.persister.Ordered
  duties : ∀ d ∈ r.persister.duties, Owed members i seat d.action d.hard
  member : r.role ≠ .follower ∨ r.preVotes.isSome → i ∈ members

def PacketRel (members : List NodeId) (b : State NodeId) (src dst : NodeId) : RaftMsg → Prop
  | .requestVote term candidate _ _ => candidate = src ∧ (term, candidate) ∈ b.asked
  | .requestVoteResp term granted => granted = true → (term, dst) ∈ (b.seat src).granted
  | .appendEntries _ _ _ _ entries _ => ∀ e ∈ entries, e.cmd.members = none
  | .installSnapshot _ _ _ _ data => FixedImage members data
  | _ => True

structure HostRel (members : List NodeId) (i : NodeId) (h : Host) (seat : Seat NodeId) : Prop where
  node : SeatRel members i h.raft seat
  writes : ∀ hs ∈ h.hardWrites, hs.ballot ∈ seat.writes

structure ElectionRel (setup : Setup) (c : Cluster) (b : State NodeId) : Prop where
  sound : b.Sound setup.members.toFinset
  hosts : ∀ i, HostRel setup.members i (c.host i) (b.seat i)
  net : ∀ p ∈ c.net, PacketRel setup.members b p.src p.dst p.msg

def CauseRel (setup : Setup) (i : NodeId) (b : State NodeId) : Cause → Prop
  | .message src msg => PacketRel setup.members b src i msg
  | .durable action hard => Owed setup.members i (b.seat i) action hard ∧
      ∀ hs ∈ hard, hs.seq ≤ (b.seat i).hard.seq
  -- the membership is fixed
  | .membership => False
  | .read | .other => True

structure Mid (setup : Setup) (i : NodeId) (cause : Cause) (r : Raft) (n : Node) (b : State NodeId) :
    Prop where
  sound : b.Sound setup.members.toFinset
  seat : SeatRel setup.members i n.toRaft (b.seat i)
  cause : CauseRel setup i b cause
  sent : ∀ m ∈ n.sent, PacketRel setup.members b i m.1 m.2
  led : r.role = .leader → i ∈ setup.members

variable {setup : Setup} {members : List NodeId} {i : NodeId} {cause : Cause} {r : Raft}

theorem Owed.mono {seat seat' : Seat NodeId} {action : Persist} {hard : Option HardState}
    (owed : Owed members i seat action hard) (writes : seat.writes ⊆ seat'.writes)
    (pledged : seat.pledged ⊆ seat'.pledged) : Owed members i seat' action hard := by
  obtain ⟨written, promise⟩ := owed
  refine ⟨fun hs member => writes (written hs member), ?_⟩
  split at promise
  · exact promise
  · exact ⟨pledged promise.1, promise.2⟩
  all_goals exact promise

theorem PacketRel.mono {b b' : State NodeId} (grows : b.Extends b') {src dst : NodeId} {msg : RaftMsg}
    (rel : PacketRel members b src dst msg) : PacketRel members b' src dst msg := by
  cases msg with
  | requestVote => exact ⟨rel.1, grows.asked rel.2⟩
  | requestVoteResp => exact fun given => grows.granted _ (rel given)
  | _ => exact rel

structure SameBallot (r r' : Raft) : Prop where
  id : r'.id = r.id
  term : r'.term = r.term
  votedFor : r'.votedFor = r.votedFor
  durableHardState : r'.durableHardState = r.durableHardState
  durableTerm : r'.durableTerm = r.durableTerm
  stateSeq : r'.stateSeq = r.stateSeq
  role : r'.role = r.role
  votes : r'.votes = r.votes

theorem SeatRel.carry {r r' : Raft} {seat : Seat NodeId} (rel : SeatRel members i r seat)
    (same : SameBallot r r') (fixed : r'.Fixed members) (image : FixedImage members r'.snapshotData)
    (ordered : r'.persister.Ordered)
    (duties : ∀ d ∈ r'.persister.duties, Owed members i seat d.action d.hard)
    (member : r'.preVotes.isSome → i ∈ members) : SeatRel members i r' seat where
  id := same.id.trans rel.id
  fixed := fixed
  image := image
  now := by
    rw [rel.now, Raft.stance, Raft.stance, same.term, same.votedFor]
  hard := by rw [rel.hard, same.durableHardState]
  durableTerm := by rw [same.durableTerm, same.durableHardState, rel.durableTerm]
  nextSeq := by rw [rel.nextSeq, same.stateSeq]
  post := by rw [rel.post, same.role]
  votes := by
    rw [same.role, same.votes]
    exact rel.votes
  ordered := ordered
  duties := duties
  member := by
    rintro (active | asked)
    · rw [same.role] at active
      exact rel.member (.inl active)
    · exact member asked

-- A node that has opened a batch, and perhaps moved on in its term, vote or office.
theorem SeatRel.opened {r q : Raft} {seat seat' : Seat NodeId} {file : FileId} {action : Persist}
    {hard : Option HardState} (rel : SeatRel members i r seat)
    (opens : r.persister.Opens file action hard q.persister)
    (owed : Owed members i seat' action hard)
    (writes : seat.writes ⊆ seat'.writes) (pledged : seat.pledged ⊆ seat'.pledged)
    (id : q.id = r.id) (fixed : q.Fixed members) (image : FixedImage members q.snapshotData)
    (now : seat'.now = q.stance)
    (hard : seat'.hard = seat.hard ∧ q.durableHardState = r.durableHardState ∧
      q.durableTerm = r.durableTerm)
    (nextSeq : seat'.nextSeq = q.stateSeq) (post : seat'.post = q.role.post)
    (votes : q.role = .candidate → seat'.votes = q.votes)
    (member : q.role ≠ .follower ∨ q.preVotes.isSome → i ∈ members) : SeatRel members i q seat' where
  id := id.trans rel.id
  fixed := fixed
  image := image
  now := now
  hard := by rw [hard.1, rel.hard, hard.2.1]
  durableTerm := by rw [hard.2.2, hard.2.1, rel.durableTerm]
  nextSeq := nextSeq
  post := post
  votes := votes
  ordered := opens.ordered rel.ordered
  duties := by
    intro d held
    rw [opens.2] at held
    rcases List.mem_append.mp held with old | new
    · exact (rel.duties d old).mono writes pledged
    · rw [List.mem_singleton.mp new]
      exact owed
  member := member

def Permits (cause : Cause) (n : Node) : Move NodeId → Prop
  | .vote _ c | .renew _ c => Requested cause n.toRaft c c
  | .restart _ _ => False
  | _ => True

def Simulated (setup : Setup) (i : NodeId) (cause : Cause) (r : Raft) (n m : Node) (b : State NodeId) :
    Prop :=
  ∃ moves b', (∀ mv ∈ moves, mv.actor = i ∧ Permits cause n mv) ∧
    State.Run setup.members.toFinset b moves b' ∧ Mid setup i cause r m b' ∧
    (b.seat i).writes ⊆ (b'.seat i).writes

variable {n m : Node} {b : State NodeId}

-- An act that changes nothing about elections.
theorem Mid.still (mid : Mid setup i cause r n b) (rel : SeatRel setup.members i m.toRaft (b.seat i))
    (sent : ∀ p ∈ m.sent, p ∈ n.sent ∨ PacketRel setup.members b i p.1 p.2) :
    Simulated setup i cause r n m b := by
  refine ⟨[], b, nofun, .nil b, ⟨mid.sound, rel, mid.cause, ?_, mid.led⟩, subset_rfl⟩
  intro p member
  rcases sent p member with old | new
  · exact mid.sent p old
  · exact new

theorem CauseRel.mono {b b' : State NodeId} (rel : CauseRel setup i b cause) (grows : b.Extends b')
    (writes : (b.seat i).writes ⊆ (b'.seat i).writes)
    (pledged : (b.seat i).pledged ⊆ (b'.seat i).pledged)
    (hard : (b.seat i).hard.seq ≤ (b'.seat i).hard.seq) : CauseRel setup i b' cause := by
  cases cause with
  | message => exact PacketRel.mono grows rel
  | durable => exact ⟨rel.1.mono writes pledged, fun hs member => (rel.2 hs member).trans hard⟩
  | membership => exact rel
  | read | other => trivial

-- Moves of node `i` that put it where `m` is.
theorem Mid.moved {b' : State NodeId} (mid : Mid setup i cause r n b) (moves : List (Move NodeId))
    (own : ∀ mv ∈ moves, mv.actor = i ∧ Permits cause n mv)
    (run : State.Run setup.members.toFinset b moves b')
    (rel : SeatRel setup.members i m.toRaft (b'.seat i))
    (writes : (b.seat i).writes ⊆ (b'.seat i).writes)
    (pledged : (b.seat i).pledged ⊆ (b'.seat i).pledged)
    (hard : (b'.seat i).hard = (b.seat i).hard)
    (sent : ∀ p ∈ m.sent, p ∈ n.sent ∨ PacketRel setup.members b' i p.1 p.2) :
    Simulated setup i cause r n m b := by
  refine ⟨moves, b', own, run, ⟨run.sound mid.sound, rel, ?_, ?_, mid.led⟩, writes⟩
  · exact mid.cause.mono run.extends writes pledged (by rw [hard])
  · intro p member
    rcases sent p member with old | new
    · exact (mid.sent p old).mono run.extends
    · exact new

theorem put_self (b : State NodeId) (seat : Seat NodeId) : (b.put i seat).seat i = seat :=
  Function.update_self ..

theorem Mid.persistHard (mid : Mid setup i cause r n b) {action : Persist}
    (owed : Owed setup.members i ((b.next (.write i)).seat i) action (some n.hardState)) :
    Simulated setup i cause r n (n.persistHard action) b := by
  have rel := mid.seat
  have seat : (b.next (.write i)).seat i = (b.seat i).keep ((b.seat i).write (b.seat i).now) :=
    put_self ..
  have grew : (b.seat i).writes ⊆ ((b.next (.write i)).seat i).writes := by
    rw [seat]
    exact Set.subset_insert _ _
  have kept : (b.seat i).pledged ⊆ ((b.next (.write i)).seat i).pledged := by rw [seat]; exact subset_rfl
  refine mid.moved [.write i] (by simp [Move.actor, Permits]) (State.Run.single trivial) ?_ grew
    kept (by rw [seat]; rfl) ?_
  · refine rel.opened (n.persistHard_opens rel.ordered action) owed grew kept rfl
      ⟨rel.fixed.current, rel.fixed.initial, rel.fixed.snapshot, rel.fixed.entries⟩ rel.image ?_ ?_ ?_ ?_ ?_
      rel.member
    · rw [seat]
      exact rel.now
    · rw [seat]
      exact ⟨rfl, rfl, rfl⟩
    · rw [seat]
      exact congrArg (· + 1) rel.nextSeq
    · rw [seat]
      exact rel.post
    · rw [seat]
      exact rel.votes
  · rw [n.persistHard_sent]
    exact fun p member => .inl member

-- The hard state of a new batch is the newest write.
theorem Mid.hardState_written (mid : Mid setup i cause r n b) :
    n.hardState.ballot ∈ ((b.next (.write i)).seat i).writes := by
  have seat : (b.next (.write i)).seat i = (b.seat i).keep ((b.seat i).write (b.seat i).now) :=
    put_self ..
  rw [seat]
  refine .inl ?_
  rw [mid.seat.now, mid.seat.nextSeq]
  rfl

theorem Mid.persistPlain (mid : Mid setup i cause r n b) {action : Persist}
    (plain : ∀ seat hard, (∀ hs ∈ hard, hs.ballot ∈ Voter.writes (Seat.toVoter seat)) →
      Owed setup.members i seat action hard) :
    Simulated setup i cause r n (n.persistHard action) b := by
  refine mid.persistHard (plain _ _ ?_)
  intro hs member
  cases member
  exact mid.hardState_written

theorem owed_logDurable (start index verified : Nat) (replyTo : Option NodeId) (replyTerm : Nat)
    (seat : Seat NodeId) (hard : Option HardState) (written : ∀ hs ∈ hard, hs.ballot ∈ seat.writes) :
    Owed members i seat (.logDurable start index verified replyTo replyTerm) hard := ⟨written, trivial⟩

-- A batch of log records that carries no hard state.
theorem Mid.openedQuietly (mid : Mid setup i cause r n b) {file : FileId} {action : Persist}
    {p : Persister} (raft : m.toRaft = { n.toRaft with persister := p })
    (opens : n.persister.Opens file action none p) (owed : Owed setup.members i (b.seat i) action none)
    (sent : m.sent = n.sent) : Simulated setup i cause r n m b := by
  have rel := mid.seat
  refine mid.still ?_ fun p member => .inl (sent ▸ member)
  rw [raft]
  exact rel.opened opens owed subset_rfl subset_rfl rfl
    ⟨rel.fixed.current, rel.fixed.initial, rel.fixed.snapshot, rel.fixed.entries⟩ rel.image rel.now
    ⟨rfl, rfl, rfl⟩ rel.nextSeq rel.post rel.votes rel.member

theorem Mid.persistLog (mid : Mid setup i cause r n b) (hard : Bool) (start : Nat) (truncated : Bool)
    (replyTo : Option NodeId) (replyTerm verified : Nat) :
    Simulated setup i cause r n
      (if hard then n.persistHardAndLog start truncated replyTo replyTerm verified
        else n.persistLogFrom start truncated replyTo replyTerm verified) b := by
  have rel := mid.seat
  cases hard with
  | false =>
    obtain ⟨p, raft, opens, sent, _⟩ := n.persistLogFrom_spec start truncated replyTo replyTerm verified
    exact mid.openedQuietly raft opens (owed_logDurable _ _ _ _ _ _ _ nofun) sent
  | true =>
    obtain ⟨p, raft, opens, sent, _⟩ :=
      n.persistHardAndLog_spec rel.ordered start truncated replyTo replyTerm verified
    have seat : (b.next (.write i)).seat i = (b.seat i).keep ((b.seat i).write (b.seat i).now) :=
      put_self ..
    have grew : (b.seat i).writes ⊆ ((b.next (.write i)).seat i).writes := by
      rw [seat]
      exact Set.subset_insert _ _
    have kept : (b.seat i).pledged ⊆ ((b.next (.write i)).seat i).pledged := by
      rw [seat]
      exact subset_rfl
    have owed : Owed setup.members i ((b.next (.write i)).seat i)
        (n.logAction start verified replyTo replyTerm) (some n.hardState) :=
      owed_logDurable _ _ _ _ _ _ _ fun hs member => by
        cases member
        exact mid.hardState_written
    refine mid.moved [.write i] (by simp [Move.actor, Permits]) (State.Run.single trivial) ?_ grew
      kept (by rw [seat]; rfl) fun p member => .inl (sent ▸ member)
    simp only [if_true, raft]
    refine rel.opened opens owed grew kept rfl
      ⟨rel.fixed.current, rel.fixed.initial, rel.fixed.snapshot, rel.fixed.entries⟩ rel.image ?_ ?_ ?_ ?_ ?_
      rel.member
    · rw [seat]
      exact rel.now
    · rw [seat]
      exact ⟨rfl, rfl, rfl⟩
    · rw [seat]
      exact congrArg (· + 1) rel.nextSeq
    · rw [seat]
      exact rel.post
    · rw [seat]
      exact rel.votes

theorem Mid.stepDown (mid : Mid setup i cause r n b) {term : Nat} (newer : n.term < term) :
    Simulated setup i cause r n (n.stepDown term) b := by
  have rel := mid.seat
  have seat : (b.next (.adopt i term)).seat i =
      Seat.follow { (b.seat i).toVoter with now := ⟨term, none⟩ } := put_self ..
  have allowed : b.Allowed setup.members.toFinset (.adopt i term) := by
    change (b.seat i).now.term < term
    rw [rel.now]
    exact newer
  refine mid.moved [.adopt i term] (by simp [Move.actor, Permits]) (State.Run.single allowed) ?_
    (by rw [seat]; exact subset_rfl) (by rw [seat]; exact subset_rfl) (by rw [seat]; rfl)
    fun p member => .inl member
  rw [seat]
  exact {
    id := rel.id
    fixed := ⟨rel.fixed.current, rel.fixed.initial, rel.fixed.snapshot, rel.fixed.entries⟩
    image := rel.image
    now := rfl
    hard := rel.hard
    durableTerm := rel.durableTerm
    nextSeq := rel.nextSeq
    post := rfl
    votes := fun standing => Role.noConfusion standing
    ordered := rel.ordered
    duties := fun d held => (rel.duties d held).mono subset_rfl subset_rfl
    member := fun active => rel.member (active.imp_left fun h => absurd rfl h) }

theorem Mid.yielded (mid : Mid setup i cause r n b) (votes : Finset NodeId) :
    Simulated setup i cause r n (n.yield votes) b := by
  have rel := mid.seat
  have seat : (b.next (.yield i)).seat i = Seat.follow (b.seat i).toVoter := put_self ..
  refine mid.moved [.yield i] (by simp [Move.actor, Permits]) (State.Run.single trivial) ?_
    (by rw [seat]; exact subset_rfl) (by rw [seat]; exact subset_rfl) (by rw [seat]; rfl)
    fun p member => .inl member
  rw [seat]
  exact {
    id := rel.id
    fixed := ⟨rel.fixed.current, rel.fixed.initial, rel.fixed.snapshot, rel.fixed.entries⟩
    image := rel.image
    now := rel.now
    hard := rel.hard
    durableTerm := rel.durableTerm
    nextSeq := rel.nextSeq
    post := rfl
    votes := fun standing => Role.noConfusion standing
    ordered := rel.ordered
    duties := fun d held => (rel.duties d held).mono subset_rfl subset_rfl
    member := fun active => rel.member (active.imp_left fun h => absurd rfl h) }

theorem Mid.candidacy (mid : Mid setup i cause r n b) (member : n.isMember ∨ n.preVotes.isSome) :
    Simulated setup i cause r n n.becomeCandidate b := by
  have rel := mid.seat
  have seat : (b.next (.campaign i)).seat i =
      { toVoter := (b.seat i).write ⟨(b.seat i).now.term + 1, some i⟩
        post := .candidate
        votes := {i} } := put_self ..
  have inside : i ∈ setup.members := by
    rcases member with own | asked
    · rw [← rel.id, ← rel.fixed.current]
      exact own
    · exact rel.member (.inr asked)
  have grew : (b.seat i).writes ⊆ ((b.next (.campaign i)).seat i).writes := by
    rw [seat]
    exact Set.subset_insert _ _
  have kept : (b.seat i).pledged ⊆ ((b.next (.campaign i)).seat i).pledged := by
    rw [seat]
    exact subset_rfl
  have term : (b.seat i).now.term = n.term := congrArg Stance.term rel.now
  have standing : Owed setup.members i ((b.next (.campaign i)).seat i) (.campaign (n.term + 1))
      (some { term := n.term + 1, votedFor := some n.id, seq := n.stateSeq }) := by
    rw [seat]
    refine ⟨?_, _, rfl, ?_⟩
    · intro hs same
      cases same
      refine .inl ?_
      rw [term, rel.nextSeq, rel.id]
      rfl
    · rw [rel.id]
      rfl
  refine mid.moved [.campaign i] (by simp [Move.actor, Permits]) (State.Run.single trivial) ?_ grew
    kept (by rw [seat]; rfl) ?_
  · refine rel.opened (q := n.becomeCandidate.toRaft)
      (Node.persistHard_opens { n with
        preVotes := none
        term := n.term + 1
        votedFor := some n.id
        role := .candidate
        leader := none
        votes := {n.id} } rel.ordered (.campaign (n.term + 1))) standing grew kept rfl
      ⟨rel.fixed.current, rel.fixed.initial, rel.fixed.snapshot, rel.fixed.entries⟩ rel.image ?_ ?_ ?_ ?_ ?_
      fun _ => inside
    · rw [seat, term, ← rel.id]
      rfl
    · rw [seat]
      exact ⟨rfl, rfl, rfl⟩
    · rw [seat]
      exact congrArg (· + 1) rel.nextSeq
    · rw [seat]
      rfl
    · rw [seat, ← rel.id]
      exact fun _ => rfl
  · intro p sent
    refine .inl ?_
    have same : n.becomeCandidate.sent = n.sent :=
      Node.persistHard_sent { n with
        preVotes := none
        term := n.term + 1
        votedFor := some n.id
        role := .candidate
        leader := none
        votes := {n.id} } _
    exact same ▸ sent

-- A vote request that reached the node comes from the candidate itself, which is known to run.
theorem Mid.asked (mid : Mid setup i cause r n b) {src candidate : NodeId}
    (requested : Requested cause n.toRaft src candidate) :
    candidate = src ∧ ((b.seat i).now.term, candidate) ∈ b.asked := by
  obtain ⟨lastIndex, lastTerm, message, _⟩ := requested
  have packet := mid.cause
  rw [message] at packet
  rw [mid.seat.now]
  exact packet

theorem Mid.vote (mid : Mid setup i cause r n b) {src candidate : NodeId}
    (requested : Requested cause n.toRaft src candidate)
    (free : n.votedFor = none ∨ n.votedFor = some candidate) :
    Simulated setup i cause r n ((n.castVote candidate).persistHard (.voteReply src n.term true)) b := by
  have rel := mid.seat
  obtain ⟨rfl, known⟩ := mid.asked requested
  have seat : (b.next (.vote i candidate)).seat i =
      (b.seat i).keep (Seat.pledge ((b.seat i).write ⟨(b.seat i).now.term, some candidate⟩) candidate) :=
    put_self ..
  have term : (b.seat i).now.term = n.term := congrArg Stance.term rel.now
  have allowed : b.Allowed setup.members.toFinset (.vote i candidate) := by
    refine ⟨known, ?_⟩
    rw [rel.now]
    exact free
  have grew : (b.seat i).writes ⊆ ((b.next (.vote i candidate)).seat i).writes := by
    rw [seat]
    exact Set.subset_insert _ _
  have kept : (b.seat i).pledged ⊆ ((b.next (.vote i candidate)).seat i).pledged := by
    rw [seat]
    exact Set.subset_insert _ _
  have promise : Owed setup.members i ((b.next (.vote i candidate)).seat i)
      (.voteReply candidate n.term true)
      (some { term := n.term, votedFor := some candidate, seq := n.stateSeq }) := by
    rw [seat]
    refine ⟨?_, ?_, _, rfl, rfl⟩
    · intro hs same
      cases same
      refine .inl ?_
      rw [term, rel.nextSeq]
      rfl
    · exact .inl (by rw [← term]; rfl)
  refine mid.moved [.vote i candidate] ?_ (State.Run.single allowed) ?_ grew
    kept (by rw [seat]; rfl) ?_
  · intro mv member
    rw [List.mem_singleton.mp member]
    exact ⟨rfl, requested⟩
  · refine rel.opened
      (Node.persistHard_opens (n.castVote candidate) rel.ordered (.voteReply candidate n.term true)) promise
      grew kept rfl ⟨rel.fixed.current, rel.fixed.initial, rel.fixed.snapshot, rel.fixed.entries⟩ rel.image
      ?_ ?_ ?_ ?_ ?_ rel.member
    · rw [seat, term]
      rfl
    · rw [seat]
      exact ⟨rfl, rfl, rfl⟩
    · rw [seat]
      exact congrArg (· + 1) rel.nextSeq
    · rw [seat]
      exact rel.post
    · rw [seat]
      exact rel.votes
  · rw [Node.persistHard_sent]
    exact fun p member => .inl member

theorem Mid.countVote (mid : Mid setup i cause r n b) {src : NodeId} (standing : n.role = .candidate)
    (granted : cause = .message src (.requestVoteResp n.term true)) :
    Simulated setup i cause r n { n with votes := insert src n.votes } b := by
  have rel := mid.seat
  have seat : (b.next (.count i src)).seat i =
      { b.seat i with votes := insert src (b.seat i).votes } := put_self ..
  have allowed : b.Allowed setup.members.toFinset (.count i src) := by
    have packet := mid.cause
    rw [granted] at packet
    refine ⟨rel.post.trans (by rw [standing]; rfl), ?_⟩
    rw [rel.now]
    exact packet rfl
  refine mid.moved [.count i src] (by simp [Move.actor, Permits]) (State.Run.single allowed) ?_
    (by rw [seat]) (by rw [seat]) (by rw [seat]) fun p member => .inl member
  rw [seat]
  exact {
    id := rel.id
    fixed := ⟨rel.fixed.current, rel.fixed.initial, rel.fixed.snapshot, rel.fixed.entries⟩
    image := rel.image
    now := rel.now
    hard := rel.hard
    durableTerm := rel.durableTerm
    nextSeq := rel.nextSeq
    post := rel.post
    votes := fun role => by
      rw [← rel.votes role]
    ordered := rel.ordered
    duties := fun d held => (rel.duties d held).mono subset_rfl subset_rfl
    member := rel.member }

-- The vote a candidate cast for itself is durable once its campaign batch is.
theorem Mid.announce_allowed (mid : Mid setup i cause r n b) {hard : Option HardState}
    (done : cause = .durable (.campaign n.term) hard) (standing : n.role = .candidate) :
    b.Allowed setup.members.toFinset (.announce i) := by
  have rel := mid.seat
  have cast := mid.cause
  rw [done] at cast
  obtain ⟨⟨written, hs, here, stance⟩, noted⟩ := cast
  refine ⟨rel.post.trans (by rw [standing]; rfl), hs.ballot, written hs here, ?_, noted hs here⟩
  rw [stance, rel.now]
  rfl

theorem announce_seat (b : State NodeId) : (b.next (.announce i)).seat i =
    (b.seat i).give (b.seat i).now.term i := put_self ..

theorem Mid.announced (mid : Mid setup i cause r n b) :
    SeatRel setup.members i n.toRaft ((b.next (.announce i)).seat i) := by
  have rel := mid.seat
  rw [announce_seat]
  exact { rel with duties := fun d held => (rel.duties d held).mono subset_rfl subset_rfl }

theorem majority_of_quorum (won : n.quorum ≤ n.memberVotes) (fixed : n.Fixed setup.members) :
    Majority setup.members.toFinset n.votes := by
  have size : setup.members.toFinset.card = setup.members.length :=
    List.toFinset_card_of_nodup setup.nodup
  have counted : n.memberVotes = (n.votes ∩ setup.members.toFinset).card := by
    rw [Raft.memberVotes, fixed.current]
    congr 1
    ext v
    simp
  unfold Majority
  rw [size, ← counted]
  unfold Raft.quorum at won
  rw [fixed.current] at won
  omega

-- From a candidate that may announce itself, or has, to the leader.
theorem Mid.led_from (mid : Mid setup i cause r n b) (standing : n.role = .candidate)
    (won : n.quorum ≤ n.memberVotes) (moves : List (Move NodeId)) {b' : State NodeId}
    (own : ∀ mv ∈ moves, mv.actor = i ∧ Permits cause n mv)
    (run : State.Run setup.members.toFinset b moves b')
    (rel : SeatRel setup.members i n.toRaft (b'.seat i))
    (self : (n.term, i) ∈ (b'.seat i).granted)
    (kept : (b'.seat i).writes = (b.seat i).writes ∧ (b'.seat i).pledged = (b.seat i).pledged ∧
      (b'.seat i).hard = (b.seat i).hard) :
    Simulated setup i cause r n n.takeOffice b := by
  have seat : (b'.next (.lead i)).seat i = { b'.seat i with post := .leader } := put_self ..
  have allowed : b'.Allowed setup.members.toFinset (.lead i) := by
    refine ⟨rel.post.trans (by rw [standing]; rfl), ?_, ?_⟩
    · rw [rel.now]
      exact self
    · rw [rel.votes standing]
      exact majority_of_quorum won rel.fixed
  refine mid.moved (moves ++ [.lead i]) ?_ (run.append (.single allowed)) ?_
    (by rw [seat]; exact kept.1.ge) (by rw [seat]; exact kept.2.1.ge) (by rw [seat]; exact kept.2.2)
    fun p member => .inl member
  · intro mv member
    rcases List.mem_append.mp member with old | new
    · exact own mv old
    · rw [List.mem_singleton.mp new]
      exact ⟨rfl, trivial⟩
  · rw [seat]
    exact {
      id := rel.id
      fixed := ⟨rel.fixed.current, rel.fixed.initial, rel.fixed.snapshot, rel.fixed.entries⟩
      image := rel.image
      now := rel.now
      hard := rel.hard
      durableTerm := rel.durableTerm
      nextSeq := rel.nextSeq
      post := rfl
      votes := fun standing => Role.noConfusion standing
      ordered := rel.ordered
      duties := fun d held => (rel.duties d held).mono subset_rfl subset_rfl
      member := fun _ => rel.member (.inl (by rw [standing]; decide)) }

theorem Mid.takeOffice (mid : Mid setup i cause r n b) (standing : n.role = .candidate)
    (won : n.quorum ≤ n.memberVotes)
    (answered : (∃ hard, cause = .durable (.campaign n.term) hard) ∨
      ∃ src, cause = .message src (.requestVoteResp n.term true)) :
    Simulated setup i cause r n n.takeOffice b := by
  have rel := mid.seat
  rcases answered with ⟨hard, done⟩ | ⟨src, granted⟩
  · refine mid.led_from standing won [.announce i] (by simp [Move.actor, Permits])
      (.single (mid.announce_allowed done standing)) mid.announced ?_ ?_
    · rw [announce_seat]
      refine .inl ?_
      rw [rel.now]
      rfl
    · rw [announce_seat]
      exact ⟨rfl, rfl, rfl⟩
  · have packet := mid.cause
    rw [granted] at packet
    have known := mid.sound.granted src n.term i (packet rfl)
    exact mid.led_from standing won [] (by simp) (.nil b) rel (mid.sound.asked _ _ known) ⟨rfl, rfl, rfl⟩

-- A packet that no move is needed for.
theorem Mid.sends (mid : Mid setup i cause r n b) {dst : NodeId} {msg : RaftMsg}
    (packet : PacketRel setup.members b i dst msg) : Simulated setup i cause r n (n.ioSend dst msg) b := by
  refine mid.still (by rw [Node.ioSend_toRaft]; exact mid.seat) fun p member => ?_
  rw [Node.sent_ioSend] at member
  rcases List.mem_append.mp member with old | new
  · exact .inl old
  · split at new
    · cases new
    · rw [List.mem_singleton.mp new]
      exact .inr packet

-- A packet sent after some moves that change nothing in the node itself.
theorem Mid.sendsAfter (mid : Mid setup i cause r n b) (moves : List (Move NodeId)) {b' : State NodeId}
    {dst : NodeId} {msg : RaftMsg} (own : ∀ mv ∈ moves, mv.actor = i ∧ Permits cause n mv)
    (run : State.Run setup.members.toFinset b moves b')
    (rel : SeatRel setup.members i n.toRaft (b'.seat i))
    (writes : (b'.seat i).writes = (b.seat i).writes)
    (pledged : (b.seat i).pledged ⊆ (b'.seat i).pledged)
    (hard : (b'.seat i).hard = (b.seat i).hard)
    (packet : PacketRel setup.members b' i dst msg) :
    Simulated setup i cause r n (n.ioSend dst msg) b := by
  refine mid.moved moves own run (by rw [Node.ioSend_toRaft]; exact rel) writes.ge pledged hard
    fun p member => ?_
  rw [Node.sent_ioSend] at member
  rcases List.mem_append.mp member with old | new
  · exact .inl old
  · split at new
    · cases new
    · rw [List.mem_singleton.mp new]
      exact .inr packet

theorem grant_seat (b : State NodeId) (term : Nat) (c : NodeId) :
    (b.next (.grant i term c)).seat i = (b.seat i).give term c := put_self ..

theorem Mid.grants (mid : Mid setup i cause r n b) {dst : NodeId} {term : Nat}
    (allowed : (∃ hard, cause = .durable (.voteReply dst term true) hard) ∨
        ∃ candidate, Requested cause n.toRaft dst candidate ∧ term = n.term ∧
          n.votedFor = some candidate ∧ n.durableHardState.term = n.term ∧
          n.durableHardState.votedFor = some candidate) :
    Simulated setup i cause r n (n.ioSend dst (.requestVoteResp term true)) b := by
  have rel := mid.seat
  rcases allowed with ⟨hard, done⟩ | ⟨candidate, requested, same, _, durableTerm, durableVote⟩
  · have cast := mid.cause
    rw [done] at cast
    obtain ⟨⟨written, pledged, hs, here, stance⟩, noted⟩ := cast
    have ok : b.Allowed setup.members.toFinset (.grant i term dst) :=
      ⟨pledged, hs.ballot, written hs here, stance, noted hs here⟩
    refine mid.sendsAfter [.grant i term dst] (by simp [Move.actor, Permits]) (.single ok) ?_
      (by rw [grant_seat]; rfl) (by rw [grant_seat]; exact subset_rfl) (by rw [grant_seat]; rfl) ?_
    · rw [grant_seat]
      exact { rel with duties := fun d held => (rel.duties d held).mono subset_rfl subset_rfl }
    · intro _
      rw [grant_seat]
      exact .inl rfl
  · obtain ⟨rfl, known⟩ := mid.asked requested
    subst same
    have seat : (b.next (.renew i candidate)).seat i =
        (b.seat i).keep (Seat.pledge (b.seat i).toVoter candidate) := put_self ..
    have now : (b.seat i).now.term = n.term := congrArg Stance.term rel.now
    have ok : (b.next (.renew i candidate)).Allowed setup.members.toFinset (.grant i n.term candidate) := by
      constructor
      · rw [seat]
        exact .inl (by rw [← now])
      · rw [seat]
        refine ⟨(b.seat i).hard, (mid.sound.voter i).held, ?_, le_refl _⟩
        rw [rel.hard]
        change (⟨n.durableHardState.term, n.durableHardState.votedFor⟩ : Stance NodeId) = _
        rw [durableTerm, durableVote]
    refine mid.sendsAfter [.renew i candidate, .grant i n.term candidate] ?_
      (.cons known (.single ok)) ?_ (by rw [grant_seat, seat]; rfl) ?_ (by rw [grant_seat, seat]; rfl) ?_
    · intro mv member
      rcases List.mem_cons.mp member with rfl | rest
      · exact ⟨rfl, requested⟩
      · rw [List.mem_singleton.mp rest]
        exact ⟨rfl, trivial⟩
    · rw [grant_seat, seat]
      exact { rel with
        duties := fun d held => (rel.duties d held).mono subset_rfl (Set.subset_insert _ _) }
    · rw [grant_seat, seat]
      exact Set.subset_insert _ _
    · intro _
      rw [grant_seat]
      exact .inl rfl

theorem sliceFrom_mem {log : RaftLog} {index max : Nat} {e : Entry} (member : e ∈ log.sliceFrom index max) :
    e ∈ log.entries := by
  unfold RaftLog.sliceFrom at member
  split at member
  · cases member
  · exact List.mem_of_mem_drop (List.mem_of_mem_take member)

theorem Mid.send (mid : Mid setup i cause r n b) {dst : NodeId} {msg : RaftMsg}
    (allowed : Says cause r n.toRaft dst msg) : Simulated setup i cause r n (n.ioSend dst msg) b := by
  have rel := mid.seat
  cases msg with
  | requestVote term candidate lastIndex lastTerm =>
    obtain ⟨⟨hard, done⟩, rfl, standing, rfl, _, _⟩ := allowed
    refine mid.sendsAfter [.announce i] (by simp [Move.actor, Permits])
      (.single (mid.announce_allowed done standing)) mid.announced (by rw [announce_seat]; rfl)
      (by rw [announce_seat]; exact subset_rfl) (by rw [announce_seat]; rfl) ⟨rel.id, .inl ?_⟩
    rw [rel.now, rel.id]
    rfl
  | requestVoteResp term granted =>
    cases granted with
    | false => exact mid.sends fun granted => absurd granted Bool.false_ne_true
    | true => exact mid.grants (allowed rfl)
  | appendEntries =>
    obtain ⟨_, _, _, _, rfl, _⟩ := allowed
    exact mid.sends fun e member => rel.fixed.entries e (sliceFrom_mem member)
  | installSnapshot =>
    obtain ⟨_, _, _, _, _, rfl, _⟩ := allowed
    exact mid.sends rel.image
  | _ => exact mid.sends trivial

-- Entries of an append message from the network are no membership changes.
theorem Mid.plain (mid : Mid setup i cause r n b) {src leader : NodeId} {prevIndex prevTerm : Nat}
    {entries : List Entry} {leaderCommit term : Nat}
    (offered : cause = .message src
      (.appendEntries term leader prevIndex prevTerm entries leaderCommit))
    {log : RaftLog} {p t : Nat} {es : List Entry} (trims : Trims log prevIndex prevTerm entries p t es) :
    ∀ e ∈ es, e.cmd.members = none := by
  have packet := mid.cause
  rw [offered] at packet
  cases trims with
  | whole => exact packet
  | skip => exact fun e member => packet e (List.mem_of_mem_drop member)

theorem Mid.splice (mid : Mid setup i cause r n b) {p k : Nat} {es : List Entry} {conflict : Bool}
    (plain : ∀ e ∈ es, e.cmd.members = none) (sound : (n.takeEntries p es k conflict).panicked = false) :
    Simulated setup i cause r n (n.takeEntries p es k conflict) b := by
  have rel := mid.seat
  obtain ⟨parked, config, next, matched, count, raft, _, io, _⟩ :=
    n.takeEntries_spec rel.fixed plain p k conflict sound
  refine mid.still ?_ fun q member => .inl ?_
  · rw [raft]
    refine rel.carry ⟨rfl, rfl, rfl, rfl, rfl, rfl, rfl, rfl⟩ ?_ rel.image ?_ ?_ fun asked =>
      rel.member (.inr asked)
    · refine ⟨rel.fixed.current, rel.fixed.initial, rel.fixed.snapshot, fun e member => ?_⟩
      rcases RaftLog.mem_of_mem_splice member with old | new
      · exact rel.fixed.entries e old
      · exact plain e new
    · dsimp only
      split
      · exact rel.ordered.clampAll _
      · exact rel.ordered
    · dsimp only
      split
      · intro d member
        rw [Persister.duties_clampAll] at member
        obtain ⟨old, held, rfl⟩ := List.mem_map.mp member
        have owed := rel.duties old held
        cases action : old.action <;> rw [action] at owed <;> exact owed
      · exact rel.duties
  · exact (congrArg (fun io : Io => ({ n with toIo := io } : Node).sent) io) ▸ member

-- Acts on the log, the claims and the snapshots of a node that touch nothing of its elections.
theorem Mid.quietly (mid : Mid setup i cause r n b) (same : SameBallot n.toRaft m.toRaft)
    (fixed : m.Fixed setup.members) (image : FixedImage setup.members m.snapshotData)
    (persister : m.persister = n.persister) (preVotes : m.preVotes = n.preVotes)
    (sent : m.sent = n.sent) : Simulated setup i cause r n m b := by
  have rel := mid.seat
  refine mid.still (rel.carry same fixed image ?_ ?_ ?_) fun p member => .inl (sent ▸ member)
  · rw [persister]
    exact rel.ordered
  · rw [persister]
    exact rel.duties
  · rw [preVotes]
    exact fun asked => rel.member (.inr asked)

-- Every act of a handler is a series of moves.
theorem Act.simulated (act : Act cause r n m) (mid : Mid setup i cause r n b) :
    Simulated setup i cause r n m b := by
  have rel := mid.seat
  have fixed := rel.fixed
  cases act with
  | idle leader preVotes nextIndex contact election heartbeat nextTimer asked =>
    refine mid.still (rel.carry ⟨rfl, rfl, rfl, rfl, rfl, rfl, rfl, rfl⟩
      ⟨fixed.current, fixed.initial, fixed.snapshot, fixed.entries⟩ rel.image rel.ordered rel.duties ?_)
      fun p member => .inl member
    intro some
    rcases asked some with before | own
    · exact rel.member (.inr before)
    · rw [← rel.id, ← fixed.current]
      exact own
  | send dst msg _ allowed => exact mid.send allowed
  | deferred dst msg hard _ done =>
    have owed := mid.cause
    rw [done] at owed
    obtain ⟨_, _, _, _, rfl⟩ := owed.1.2
    exact mid.sends trivial
  | stepDown term newer => exact mid.stepDown newer
  | yield votes => exact mid.yielded votes
  | candidacy member => exact mid.candidacy member
  | vote src candidate requested free => exact mid.vote requested free
  | countVote src standing granted => exact mid.countVote standing granted
  | takeOffice _ standing won answered => exact mid.takeOffice standing won answered
  | persistQuiet => exact mid.persistPlain fun _ _ written => ⟨written, trivial⟩
  | persistRefusal dst => exact mid.persistPlain fun _ _ written => ⟨written, trivial⟩
  | persistFailure => exact mid.persistPlain fun _ _ written => ⟨written, _, _, _, _, rfl⟩
  | persistCovered => exact mid.persistPlain fun _ _ written => ⟨written, _, _, _, _, rfl⟩
  | persistAnswer => exact mid.persistPlain fun _ _ written => ⟨written, trivial⟩
  | persistLog hard start truncated src lastNew => exact mid.persistLog hard start truncated _ _ _
  | persistOwn start => exact mid.persistLog false start false none 0 unverified
  | append cmd leads plain =>
    refine mid.quietly ⟨rfl, rfl, rfl, rfl, rfl, rfl, rfl, rfl⟩ ?_ rel.image rfl rfl rfl
    refine ⟨fixed.current, fixed.initial, fixed.snapshot, fun e member => ?_⟩
    rcases List.mem_append.mp member with old | new
    · exact fixed.entries e old
    · rw [List.mem_singleton.mp new]
      exact plain.resolve_right fun asked => by simpa [asked, CauseRel] using mid.cause
  | reconfigure asked =>
    have never := mid.cause
    rw [asked] at never
    exact never.elim
  | splice src leader prevIndex prevTerm entries leaderCommit p t es k conflict offered trims _ _ _ _ sound =>
    exact mid.splice (mid.plain offered trims) sound
  | follow src lastNew leaderCommit =>
    obtain ⟨commit, same, _⟩ := n.followCommit_spec leaderCommit lastNew
    rw [same]
    exact mid.quietly ⟨rfl, rfl, rfl, rfl, rfl, rfl, rfl, rfl⟩
      ⟨fixed.current, fixed.initial, fixed.snapshot, fixed.entries⟩ rel.image rfl rfl rfl
  | stepAside led removed =>
    refine absurd (mid.led led) fun inside => removed ?_
    rw [Raft.isMember, rel.id, fixed.current]
    exact inside
  | claim start index =>
    obtain ⟨d, parked, raft, _⟩ := n.claimRange_spec start index
    refine mid.quietly ?_ ?_ ?_ ?_ ?_ ?_
    · rw [raft]
      exact ⟨rfl, rfl, rfl, rfl, rfl, rfl, rfl, rfl⟩
    · rw [raft]
      exact ⟨fixed.current, fixed.initial, fixed.snapshot, fixed.entries⟩
    · rw [raft]
      exact rel.image
    · rw [raft]
    · rw [raft]
    · exact congrArg (fun io : Io => ({ n with toIo := io } : Node).sent) (n.claimRange_toIo start index)
  | taken index term file =>
    obtain ⟨config, next, matched, raft, _, io⟩ := n.snapshotTaken_spec fixed index term file
    refine mid.quietly ?_ ?_ ?_ ?_ ?_ ?_
    · rw [raft]
      exact ⟨rfl, rfl, rfl, rfl, rfl, rfl, rfl, rfl⟩
    · rw [raft]
      exact ⟨fixed.current, fixed.initial, .inr rfl, fun e member =>
        fixed.entries e (RaftLog.mem_of_mem_compactTo member)⟩
    · rw [raft]
      exact rel.image
    · rw [raft]
    · rw [raft]
    · exact congrArg (fun io : Io => ({ n with toIo := io } : Node).sent) io
  | adopt index term data file replyTo replyTerm hard done =>
    have owed := mid.cause
    rw [done] at owed
    obtain ⟨restore, parked, named, config, next, matched, durable, raft, known, _, _, sent, _⟩ :=
      n.adoptSnapshot_spec fixed index term owed.1.2
    refine mid.quietly ?_ ?_ ?_ ?_ ?_ sent
    · rw [raft]
      exact ⟨rfl, rfl, rfl, rfl, rfl, rfl, rfl, rfl⟩
    · rw [raft]
      exact ⟨fixed.current, fixed.initial, known, fun e member =>
        fixed.entries e (RaftLog.mem_of_mem_adopt member)⟩
    · rw [raft]
      exact owed.1.2
    · rw [raft]
    · rw [raft]
  | capture data term _ wanted known =>
    obtain ⟨p, raft, opens, sent, _⟩ := n.takeSnapshot_spec rel.ordered data wanted known
    refine mid.still ?_ fun p member => .inl (sent ▸ member)
    rw [raft]
    refine rel.opened opens ⟨nofun, trivial⟩ subset_rfl subset_rfl rfl
      ⟨fixed.current, fixed.initial, fixed.snapshot, fixed.entries⟩ ?_ rel.now
      ⟨rfl, rfl, rfl⟩ rel.nextSeq rel.post rel.votes rel.member
    rw [fixed.configAt]
    exact fixedImage_encode setup.nodup data
  | receive src leader index indexTerm data offered =>
    have packet := mid.cause
    rw [offered] at packet
    obtain ⟨p, raft, opens, sent, _⟩ := n.receiveSnapshot_spec rel.ordered index n.nextSnapshotFile
      { seq := n.snapshotSeq, index, term := indexTerm, data }
      (.snapshotInstalled index indexTerm data n.nextSnapshotFile src n.term)
    refine mid.still ?_ fun p member => .inl (sent ▸ member)
    rw [raft]
    exact rel.opened opens ⟨nofun, packet⟩ subset_rfl subset_rfl rfl
      ⟨fixed.current, fixed.initial, fixed.snapshot, fixed.entries⟩ rel.image rel.now
      ⟨rfl, rfl, rfl⟩ rel.nextSeq rel.post rel.votes rel.member
  | _ =>
    exact mid.quietly ⟨rfl, rfl, rfl, rfl, rfl, rfl, rfl, rfl⟩
      ⟨fixed.current, fixed.initial, fixed.snapshot, fixed.entries⟩ rel.image rfl rfl rfl

def Reaches (setup : Setup) (i : NodeId) (cause : Cause) (r : Raft) (m : Node) (b : State NodeId) : Prop :=
  ∃ moves b', (∀ mv ∈ moves, mv.actor = i) ∧ State.Run setup.members.toFinset b moves b' ∧
    Mid setup i cause r m b' ∧ (b.seat i).writes ⊆ (b'.seat i).writes

theorem Leads.reaches (leads : Leads cause r n m) (calm : m.panicked = false)
    (start : Reaches setup i cause r n b) : Reaches setup i cause r m b := by
  have chain := leads calm
  clear leads calm
  induction chain with
  | refl => exact start
  | tail _ act ih =>
    obtain ⟨moves, b', own, run, mid, grew⟩ := ih
    obtain ⟨moves', b'', own', run', mid', grew'⟩ := act.simulated mid
    refine ⟨moves ++ moves', b'', ?_, run.append run', mid', grew.trans grew'⟩
    intro mv member
    rcases List.mem_append.mp member with old | new
    · exact own mv old
    · exact (own' mv new).1

-- A persister with fewer duties, and otherwise the same node.
theorem SeatRel.completed {r r' : Raft} {seat : Seat NodeId} (rel : SeatRel members i r seat)
    (same : SameBallot r r') (rest : r'.members = r.members ∧ r'.initialMembers = r.initialMembers ∧
      r'.snapshotMembers = r.snapshotMembers ∧ r'.log = r.log ∧ r'.snapshotData = r.snapshotData ∧
      r'.preVotes = r.preVotes)
    (nextId : r'.persister.nextId = r.persister.nextId)
    (fewer : ∀ d ∈ r'.persister.duties, d ∈ r.persister.duties) : SeatRel members i r' seat := by
  obtain ⟨current, initial, snapshot, log, data, preVotes⟩ := rest
  refine rel.carry same ⟨?_, ?_, ?_, ?_⟩ ?_ ?_ (fun d held => rel.duties d (fewer d held)) ?_
  · rw [current, rel.fixed.current]
  · rw [initial, rel.fixed.initial]
  · rw [snapshot]
    exact rel.fixed.snapshot
  · rw [log]
    exact rel.fixed.entries
  · rw [data]
    exact rel.image
  · rw [Persister.ordered_iff, nextId]
    exact fun d held => rel.ordered.fresh d (fewer d held)
  · rw [preVotes]
    exact fun asked => rel.member (.inr asked)

-- The write of a hard state is known to be durable.
theorem Mid.noteDurable {action : Persist} {hs : HardState}
    (sound : b.Sound setup.members.toFinset) (rel : SeatRel setup.members i n.toRaft (b.seat i))
    (owed : Owed setup.members i (b.seat i) action (some hs)) (quiet : n.sent = [])
    (led : r.role = .leader → i ∈ setup.members) :
    b.Allowed setup.members.toFinset (.done i hs.ballot) ∧
      Mid setup i (.durable action (some hs)) r (n.noteDurable (some hs)) (b.next (.done i hs.ballot)) ∧
      (b.seat i).writes ⊆ ((b.next (.done i hs.ballot)).seat i).writes := by
  have written : hs.ballot ∈ (b.seat i).writes := owed.1 hs rfl
  have seat : (b.next (.done i hs.ballot)).seat i = (b.seat i).keep ((b.seat i).done hs.ballot) :=
    put_self ..
  have seq : (b.seat i).hard.seq = n.durableHardState.seq := by rw [rel.hard]; rfl
  have hard : ((b.next (.done i hs.ballot)).seat i).hard =
      HardState.ballot (if n.durableHardState.seq ≤ hs.seq then hs else n.durableHardState) := by
    rw [seat]
    change (if (b.seat i).hard.seq ≤ hs.seq then hs.ballot else (b.seat i).hard) = _
    rw [seq, rel.hard]
    split <;> rfl
  have voter := sound.voter i
  have top : max n.durableTerm hs.term =
      (if n.durableHardState.seq ≤ hs.seq then hs else n.durableHardState).term := by
    have held := voter.held
    rw [rel.hard] at held
    rw [rel.durableTerm]
    split
    · next newer =>
      exact max_eq_right (voter.ordered _ held _ written newer).term_le
    · next older =>
      exact max_eq_left (voter.ordered _ written _ held (not_le.mp older).le).term_le
  obtain ⟨d, parked, raft, _⟩ := n.noteDurable_spec hs
  refine ⟨written, ⟨sound.next written, ?_, ⟨?_, ?_⟩, ?_, led⟩, ?_⟩
  · rw [raft]
    exact {
      id := rel.id
      fixed := ⟨rel.fixed.current, rel.fixed.initial, rel.fixed.snapshot, rel.fixed.entries⟩
      image := rel.image
      now := by
        rw [seat]
        exact rel.now
      hard := hard
      durableTerm := top
      nextSeq := by
        rw [seat]
        exact rel.nextSeq
      post := by
        rw [seat]
        exact rel.post
      votes := by
        rw [seat]
        exact rel.votes
      ordered := rel.ordered
      duties := by
        rw [seat]
        exact fun d held => (rel.duties d held).mono subset_rfl subset_rfl
      member := rel.member }
  · rw [seat]
    exact owed.mono subset_rfl subset_rfl
  · intro hs' same
    cases same
    rw [hard]
    split
    · exact le_refl _
    · next older => exact (not_le.mp older).le
  · have none : (n.noteDurable (some hs)).sent = [] :=
      (congrArg (fun io : Io => ({ n with toIo := io } : Node).sent) (n.noteDurable_toIo (some hs))).trans
        quiet
    rw [none]
    simp
  · rw [seat]
    exact subset_rfl

-- Where an input begins, at most a write has become durable.
theorem ElectionRel.begins {c : Cluster} {now : Nat} {input : Input} (rel : ElectionRel setup c b)
    (possible : input.Possible c.net i) (begins : (c.host i).Begins now input cause n) :
    ∃ moves b', (∀ mv ∈ moves, ∃ h, mv = .done i h) ∧ State.Run setup.members.toFinset b moves b' ∧
      Mid setup i cause n.toRaft n b' ∧ (b.seat i).writes ⊆ (b'.seat i).writes := by
  have node := (rel.hosts i).node
  have led : (c.host i).raft.role = .leader → i ∈ setup.members := fun leads =>
    node.member (.inl (by rw [leads]; decide))
  have start : ∀ {cause} {m : Node}, m.role = (c.host i).raft.role → m.sent = [] →
      SeatRel setup.members i m.toRaft (b.seat i) → CauseRel setup i b cause →
      ∃ moves b', (∀ mv ∈ moves, ∃ h, mv = .done i h) ∧ State.Run setup.members.toFinset b moves b' ∧
        Mid setup i cause m.toRaft m b' ∧ (b.seat i).writes ⊆ (b'.seat i).writes := by
    intro cause m office quiet seat known
    refine ⟨[], b, nofun, .nil b, ⟨rel.sound, seat, known, ?_, fun leads => led (office ▸ leads)⟩, subset_rfl⟩
    rw [quiet]
    exact fun m sent => absurd sent List.not_mem_nil
  have booked := begins.duties
  have fewer : SeatRel setup.members i { (c.host i).raft with persister := n.persister } (b.seat i) :=
    node.completed ⟨rfl, rfl, rfl, rfl, rfl, rfl, rfl, rfl⟩ ⟨rfl, rfl, rfl, rfl, rfl, rfl⟩ booked.1 booked.2.1
  cases begins with
  | message p =>
    have packet := rel.net p possible.1
    rw [possible.2] at packet
    exact start rfl rfl node packet
  | timer | propose | read | dead => exact start rfl rfl node trivial
  | proposeMembers cmd members => exact absurd possible members
  | reconfigure => exact possible.elim
  | drain =>
    refine start rfl rfl ?_ trivial
    exact node.carry ⟨rfl, rfl, rfl, rfl, rfl, rfl, rfl, rfl⟩
      ⟨node.fixed.current, node.fixed.initial, node.fixed.snapshot, node.fixed.entries⟩ node.image
      node.ordered node.duties fun asked => node.member (.inr asked)
  | booked | sync => exact start rfl rfl fewer trivial
  | failed =>
    refine start rfl rfl ?_ trivial
    exact fewer.completed ⟨rfl, rfl, rfl, rfl, rfl, rfl, rfl, rfl⟩ ⟨rfl, rfl, rfl, rfl, rfl, rfl⟩ rfl fun _ held => held
  | done op ok action hard p completed =>
    obtain ⟨d, held, rfl, rfl⟩ := booked.2.2 action hard rfl
    have owed := node.duties d held
    rw [Node.noteDurable_persister] at fewer
    cases hard : d.hard with
    | none =>
      rw [hard] at owed
      exact start rfl rfl fewer ⟨owed, nofun⟩
    | some hs =>
      rw [hard] at owed
      have led' : ({ (c.host i).wake now with persister := p }.noteDurable (some hs)).role = .leader →
          i ∈ setup.members := by
        obtain ⟨_, _, raft, _⟩ := Node.noteDurable_spec { (c.host i).wake now with persister := p } hs
        rw [raft]
        exact led
      obtain ⟨allowed, mid, grew⟩ :=
        Mid.noteDurable (n := { (c.host i).wake now with persister := p }) rel.sound fewer owed rfl led'
      exact ⟨[.done i hs.ballot], _, by simp, .single allowed, mid, grew⟩

-- What one input does to a host, as moves of its node.
theorem handle_reaches {c : Cluster} {now : Nat} {input : Input} (rel : ElectionRel setup c b)
    (possible : input.Possible c.net i) (calm : ((c.host i).handle now input).1.panicked = false) :
    ∃ cause r, Reaches setup i cause r ((c.host i).handle now input).1 b := by
  obtain ⟨cause, n, begins, leads⟩ := (c.host i).handle_leads now input
  obtain ⟨moves, b', own, run, mid, grew⟩ := rel.begins possible begins
  refine ⟨cause, n.toRaft, leads.reaches calm ⟨moves, b', ?_, run, mid, grew⟩⟩
  intro mv member
  obtain ⟨h, rfl⟩ := own mv member
  rfl

theorem fixedImage_nil (members : List NodeId) : FixedImage members [] := by
  intro image decoded
  cases decoded

theorem Survived.fixed {s : Survived} {cfg : RaftConfig}
    (plain : ∀ e ∈ s.log.entries, e.cmd.members = none)
    (image : ∀ snap ∈ s.snapshot, ∀ image ∈ decodeSnapshotPayload snap.data,
      image.1 = [] ∨ image.1 = members) : (s.raft i members cfg).Fixed members := by
  refine ⟨rfl, rfl, ?_, plain⟩
  simp only [Survived.raft]
  cases snapshot : s.snapshot with
  | none => exact .inl rfl
  | some snap =>
    cases decoded : decodeSnapshotPayload snap.data with
    | none =>
      refine .inl ?_
      simp [decoded]
    | some pair =>
      simp only [Option.bind_some, decoded, Option.map_some, Option.getD_some]
      exact image snap snapshot pair decoded

-- The seat of a node that has just started.
theorem SeatRel.boot {s : Survived} (voter : Voter NodeId) {cfg : RaftConfig} {io : Io}
    (plain : ∀ e ∈ s.log.entries, e.cmd.members = none)
    (image : ∀ snap ∈ s.snapshot, ∀ image ∈ decodeSnapshotPayload snap.data,
      image.1 = [] ∨ image.1 = members) :
    SeatRel members i (s.boot i members cfg io).toRaft (Seat.follow (voter.restart s.hard.ballot)) := by
  have fixed : (s.raft i members cfg).Fixed members := Survived.fixed plain image
  obtain ⟨next, matched, raft, _⟩ :=
    Node.refreshConfig_spec { toRaft := s.raft i members cfg, toIo := io : Node } fixed
  have data : FixedImage members (s.raft i members cfg).snapshotData := by
    cases snapshot : s.snapshot with
    | none =>
      simp only [Survived.raft, snapshot]
      exact fixedImage_nil members
    | some snap =>
      simp only [Survived.raft, snapshot]
      exact fun pair decoded => image snap snapshot pair decoded
  have booted : (s.boot i members cfg io).toRaft =
      { s.raft i members cfg with
        configIndex := 0
        nextIndex := next
        matchIndex := matched
        electionTimer := (s.boot i members cfg io).electionTimer } :=
    congrArg (fun r : Raft => { r with electionTimer := (s.boot i members cfg io).electionTimer }) raft
  rw [booted]
  exact {
    id := rfl
    fixed := ⟨fixed.current, fixed.initial, fixed.snapshot, fixed.entries⟩
    image := data
    now := rfl
    hard := rfl
    durableTerm := rfl
    nextSeq := rfl
    post := rfl
    votes := nofun
    ordered := nofun
    duties := nofun
    member := by
      rintro (active | asked)
      · exact absurd rfl active
      · cases asked }

theorem restart_seat (b : State NodeId) (h : Ballot.Hard NodeId) :
    (b.next (.restart i h)).seat i = Seat.follow ((b.seat i).restart h) := put_self ..

-- The cluster after an input, once node `i` has made its moves.
theorem ElectionRel.settle {c : Cluster} {b' : State NodeId} {input : Input} {handed : List Entry}
    (rel : ElectionRel setup c b) (mid : Mid setup i cause r n b') (grows : b.Extends b')
    (others : ∀ j, j ≠ i → b'.seat j = b.seat j) (grew : (b.seat i).writes ⊆ (b'.seat i).writes) :
    ElectionRel setup
      { host := Function.update c.host i ((c.host i).settle input n handed)
        net := c.net ++ (c.host i).packets i n } b' := by
  refine ⟨mid.sound, ?_, ?_⟩
  · intro j
    by_cases same : j = i
    · subst same
      dsimp only
      rw [Function.update_self]
      refine ⟨mid.seat, ?_⟩
      intro hs member
      rcases List.mem_append.mp member with old | new
      · exact grew ((rel.hosts j).writes hs old)
      · obtain ⟨batch, held, hard⟩ := List.mem_filterMap.mp new
        exact (mid.seat.duties batch.duty (List.mem_map_of_mem held)).1 hs hard
    · dsimp only
      rw [Function.update_of_ne same, others j same]
      exact rel.hosts j
  · intro p member
    rcases List.mem_append.mp member with old | new
    · exact (rel.net p old).mono grows
    · obtain ⟨message, sent, rfl⟩ := List.mem_map.mp new
      exact mid.sent message sent

-- A node may start again from what survives.
theorem ElectionRel.reboot {c : Cluster} {survived : Survived} (rel : ElectionRel setup c b) (now : Nat) (origin : Held)
    (possible : survived.Possible setup (c.host i)) :
    b.Allowed setup.members.toFinset (.restart i survived.hard.ballot) ∧
      ElectionRel setup
        { c with host := Function.update c.host i ((c.host i).reboot setup i now survived origin) }
        (b.next (.restart i survived.hard.ballot)) := by
  obtain ⟨written, newer, plain, image⟩ := possible
  have host := rel.hosts i
  have allowed : b.Allowed setup.members.toFinset (.restart i survived.hard.ballot) := by
    refine ⟨host.writes _ written, ?_⟩
    rw [host.node.hard]
    exact newer
  refine ⟨allowed, rel.sound.next allowed, ?_, ?_⟩
  · intro j
    by_cases same : j = i
    · subst same
      dsimp only
      rw [Function.update_self, restart_seat]
      refine ⟨SeatRel.boot _ plain image, ?_⟩
      intro hs member
      rw [List.mem_singleton.mp member]
      rfl
    · dsimp only
      rw [Function.update_of_ne same, State.next_others _ (by exact same)]
      exact rel.hosts j
  · exact fun p member => (rel.net p member).mono (b.next_extends _)

-- Every event of the cluster is a series of moves.
theorem ElectionRel.step {c c' : Cluster} {event : Event} (rel : ElectionRel setup c b)
    (next : c.step setup event = some c') :
    ∃ moves b', State.Run setup.members.toFinset b moves b' ∧ ElectionRel setup c' b' := by
  cases event with
  | input i now input =>
    simp only [Cluster.step] at next
    split at next
    · next possible =>
      cases next
      obtain ⟨cause, r, moves, b', own, run, mid, grew⟩ := handle_reaches rel possible.1 possible.2
      exact ⟨moves, b', run, rel.settle mid run.extends (fun j => run.others own) grew⟩
    · cases next
  | restart i now survived origin =>
    simp only [Cluster.step] at next
    split at next
    · next possible =>
      cases next
      obtain ⟨allowed, last⟩ := rel.reboot now origin possible
      exact ⟨_, _, .single allowed, last⟩
    · cases next

def initialBallot : State NodeId where
  seat _ := Seat.follow
    { now := ⟨0, none⟩
      hard := ⟨⟨0, none⟩, 0⟩
      writes := {⟨⟨0, none⟩, 0⟩}
      nextSeq := 1
      pledged := ∅
      granted := ∅ }
  asked := ∅
  won := []

theorem initialBallot_sound (members : Finset NodeId) : initialBallot.Sound members where
  voter _ := {
    fresh := by
      rintro _ rfl
      exact Nat.one_pos
    held := rfl
    ordered := by
      rintro _ rfl _ rfl _
      exact .refl _
    live := by
      rintro _ rfl
      exact .refl _
    durable := nofun
    alone := nofun
    once := nofun }
  asked := nofun
  pledged := nofun
  granted := nofun
  votes := nofun
  leader := nofun
  majority := nofun
  voters := nofun

theorem ElectionRel.init (setup : Setup) : ElectionRel setup (Cluster.init setup) initialBallot where
  sound := initialBallot_sound _
  hosts i := by
    refine ⟨?_, ?_⟩
    · exact SeatRel.boot (s := readDisk [] [] [])
        (initialBallot.seat i).toVoter nofun nofun
    · intro hs member
      rw [List.mem_singleton.mp member]
      rfl
  net := nofun

-- A run is matched by moves of the abstract protocol.
theorem ElectionRel.run {ok : Cluster → Event → Prop} {c c' : Cluster} (rel : ElectionRel setup c b)
    (run : Cluster.Run setup ok c c') :
    ∃ moves b', State.Run setup.members.toFinset b moves b' ∧ ElectionRel setup c' b' := by
  induction run with
  | refl => exact ⟨[], b, .nil b, rel⟩
  | step _ _ next ih =>
    obtain ⟨moves, b', run, mid⟩ := ih
    obtain ⟨moves', b'', run', last⟩ := mid.step next
    exact ⟨moves ++ moves', b'', run.append run', last⟩

-- A node in office has won an election of its term.
theorem ElectionRel.won {c : Cluster} (rel : ElectionRel setup c b)
    (leads : (c.host i).raft.role = .leader) :
    ∃ e ∈ b.won, e.term = (c.host i).raft.term ∧ e.winner = i := by
  have node := (rel.hosts i).node
  obtain ⟨e, member, term, winner⟩ := rel.sound.leader i (by rw [node.post, leads]; rfl)
  rw [node.now] at term
  exact ⟨e, member, term, winner⟩

/-- No two nodes are ever leader of the same term, not even at different times of a run. The only
thing asked of a restart is that it brings back a hard state of this life no older than the durable
one. -/
theorem one_leader_per_term {ok : Cluster → Event → Prop} {early late : Cluster} {x y : NodeId}
    (reached : Cluster.Reachable setup ok early) (later : Cluster.Run setup ok early late)
    (first : (early.host x).raft.role = .leader) (second : (late.host y).raft.role = .leader)
    (same : (early.host x).raft.term = (late.host y).raft.term) : x = y := by
  obtain ⟨_, b, _, rel⟩ := (ElectionRel.init setup).run reached
  obtain ⟨_, b', run, rel'⟩ := rel.run later
  obtain ⟨e, won, term, rfl⟩ := rel.won first
  obtain ⟨e', won', term', rfl⟩ := rel'.won second
  obtain ⟨_, extended⟩ := run.extends.won
  have kept : e ∈ b'.won := extended ▸ List.mem_append_left _ won
  exact rel'.sound.winner_unique kept won' (term.trans (same.trans term'.symm))

def trio : Setup where
  members := [0, 1, 2]
  nodup := by decide
  cfg _ := { preVote := false, leaderStickiness := false }

def firstElection : List Event :=
  [ .input 0 0 (.timer .election), .input 0 0 (.storage 1 true), .input 0 0 (.storage 2 true),
    .input 1 0 (.deliver { src := 0, dst := 1, msg := .requestVote 1 0 0 0 }),
    .input 1 0 (.storage 1 true), .input 1 0 (.storage 2 true),
    .input 0 0 (.deliver { src := 1, dst := 0, msg := .requestVoteResp 1 true }) ]

theorem firstElection_leader : (Execution.play (Cluster.step trio) (fun _ _ => True) (Cluster.init trio) firstElection).map
    (fun c => (c.host 0).raft.role) = some .leader := by decide +kernel

theorem one_leader_per_term_trio : ∃ c : Cluster,
    Cluster.Reachable trio (fun _ _ => True) c ∧ (c.host 0).raft.role = .leader ∧
      ∀ y, (c.host y).raft.role = .leader → (c.host 0).raft.term = (c.host y).raft.term → 0 = y := by
  obtain ⟨c, played, leads⟩ := Option.map_eq_some_iff.mp firstElection_leader
  have reached : Cluster.Reachable trio (fun _ _ => True) c := Execution.run_of_play played
  exact ⟨c, reached, leads, fun y second same => one_leader_per_term reached .refl leads second same⟩

end SimKv
