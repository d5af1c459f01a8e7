import SimKv.Raft.Acts

set_option autoImplicit false

/-!
# The state an act leaves

Every act, field by field. What the books of the persister look like afterwards and where the peers
stand is left open here; everything else is written out.
-/

namespace SimKv

namespace Raft

/-- `Becomes cause r n m`: an act of a handler that reacts to `cause`, began in `r` and got as far as `n`
may leave `m`. -/
inductive Becomes (cause : Cause) (r n : Raft) : Raft → Prop where
  | idle (leader : Option NodeId) (preVotes : Option (Finset NodeId)) (nextIndex : NodeMap)
      (lastLeaderContact : Nat) (electionTimer heartbeatTimer : Deadline) :
      Becomes cause r n
        { n with leader, preVotes, nextIndex, lastLeaderContact, electionTimer, heartbeatTimer }
  | same : Becomes cause r n n
  | stepDown (term : Nat) (newer : n.term < term) (electionTimer heartbeatTimer : Deadline) :
      Becomes cause r n
        { n with
          term, votedFor := none, role := .follower, leader := none, votes := ∅
          electionTimer, heartbeatTimer }
  | yield (votes : Finset NodeId) : Becomes cause r n { n with role := .follower, votes }
  | candidacy (persister : Persister) (electionTimer : Deadline) :
      Becomes cause r n
        { n with
          preVotes := none, term := n.term + 1, votedFor := some n.id, role := .candidate
          leader := none, votes := {n.id}, stateSeq := n.stateSeq + 1, persister, electionTimer }
  | vote (candidate : NodeId) (free : n.votedFor = none ∨ n.votedFor = some candidate)
      (persister : Persister) (electionTimer : Deadline) :
      Becomes cause r n
        { n with
          votedFor := some candidate, stateSeq := n.stateSeq + 1, persister, electionTimer }
  | countVote (src : NodeId) : Becomes cause r n { n with votes := insert src n.votes }
  | takeOffice (stood : r.role = .candidate) (standing : n.role = .candidate) (nextIndex matchIndex : NodeMap) :
      Becomes cause r n
        { n with
          role := .leader, leader := some n.id, nextIndex, matchIndex, probeAcked := fun _ => none }
  | persist (stateSeq : Nat) (persister : Persister) : Becomes cause r n { n with stateSeq, persister }
  | append (e : Entry) (leads : n.role = .leader)
      (plain : e.cmd.members = none ∨ cause = .membership) (own : e.term = n.term)
      (sound : n.log.AppendOk e) : Becomes cause r n { n with log := n.log.append e }
  | reconfigure (asked : cause = .membership) (members : List NodeId) (configIndex : Nat)
      (nextIndex matchIndex : NodeMap)
      (current : (members, configIndex) = configOver n.log n.initialMembers n.snapshotMembers) :
      Becomes cause r n { n with members, configIndex, nextIndex, matchIndex }
  | splice (src leader : NodeId) (prevIndex prevTerm : Nat) (entries : List Entry)
      (leaderCommit p t : Nat) (es : List Entry) (i : Nat) (conflict : Bool)
      (offered : cause = .message src
        (.appendEntries n.term leader prevIndex prevTerm entries leaderCommit))
      (trims : Trims n.log prevIndex prevTerm entries p t es) (agrees : n.log.matchesAt p t)
      (found : Node.firstNew n.log p es 0 = some (i, conflict)) (same : n.log = r.log)
      (follows : n.role = .follower)
      (sound : (if conflict then n.log.truncateFrom (p + 1 + i) else n.log).AppendsOk (es.drop i))
      (parked : List (Nat × Nat)) (members : List NodeId) (configIndex : Nat)
      (nextIndex matchIndex : NodeMap) (truncatedCommitted : Nat)
      (current : (members, configIndex) =
        if (es.drop i).any fun e => e.cmd.members.isSome then
          configOver (n.log.splice p es i conflict) n.initialMembers n.snapshotMembers
        else if conflict then
          configOver (n.log.truncateFrom (p + 1 + i)) n.initialMembers n.snapshotMembers
        else (n.members, n.configIndex)) :
      Becomes cause r n
        { n with
          log := n.log.splice p es i conflict
          durableIndex := if conflict then min n.durableIndex (p + i) else n.durableIndex
          persister := if conflict then n.persister.clampAll (p + i) else n.persister
          parked, members, configIndex, nextIndex, matchIndex, truncatedCommitted }
  | follow (src : NodeId) (lastNew leaderCommit : Nat)
      (followed : Followed cause r n src lastNew leaderCommit) (commitIndex : Nat)
      (grows : n.commitIndex ≤ commitIndex)
      (bound : commitIndex ≤ max n.commitIndex (min (min leaderCommit lastNew) n.log.lastIndex)) :
      Becomes cause r n { n with commitIndex }
  | noteMatch (matchIndex nextIndex : NodeMap) (leads : n.role = .leader) :
      Becomes cause r n { n with matchIndex, nextIndex }
  | commit (commitIndex : Nat) (leads : n.role = .leader)
      (counted : (n.replicated.insertionSort (· ≥ ·))[n.quorum - 1]? = some commitIndex)
      (newer : n.commitIndex < commitIndex) (own : n.log.termAt commitIndex = some n.term) :
      Becomes cause r n { n with commitIndex }
  | stepAside (led : r.role = .leader) (removed : ¬ n.isMember) (heartbeatTimer : Deadline) :
      Becomes cause r n { n with role := .follower, leader := none, heartbeatTimer }
  | claim (durableIndex : Nat) (parked : List (Nat × Nat)) (grows : n.durableIndex ≤ durableIndex) :
      Becomes cause r n { n with durableIndex, parked }
  | taken (index term : Nat) (file : FileId) (hard : Option HardState)
      (done : cause = .durable (.snapshotTaken index term file) hard) (members : List NodeId)
      (configIndex : Nat) (nextIndex matchIndex : NodeMap)
      (current : (members, configIndex) =
        configOver (n.log.compactTo index term) n.initialMembers (n.configAt index).1) :
      Becomes cause r n
        { n with
          snapshotInFlight := false
          durableSnapshotFile := some file
          snapshotMembers := (n.configAt index).1
          log := n.log.compactTo index term
          members, configIndex, nextIndex, matchIndex }
  | landed (index term : Nat) (data : Bytes) (file : FileId) (replyTo : NodeId) (replyTerm : Nat)
      (hard : Option HardState)
      (done : cause = .durable (.snapshotInstalled index term data file replyTo replyTerm) hard) :
      Becomes cause r n { n with snapshotInFlight := false, durableSnapshotFile := some file }
  | adopt (index term : Nat) (data : Bytes) (file : FileId) (replyTo : NodeId) (replyTerm : Nat)
      (hard : Option HardState)
      (done : cause = .durable (.snapshotInstalled index term data file replyTo replyTerm) hard)
      (here : n.durableSnapshotFile = some file)
      (wanted : n.log.termAt index = some term ∨ n.commitIndex ≤ index)
      (durableIndex : Nat)
      (claims : min (max n.durableIndex index) (n.log.adopt index term).lastIndex ≤ durableIndex)
      (parked : List (Nat × Nat)) (members snapshotMembers : List NodeId) (configIndex : Nat)
      (nextIndex matchIndex : NodeMap)
      (image : snapshotMembers = ((decodeSnapshotPayload data).getD (n.baseConfig, [])).1)
      (current : (members, configIndex) =
        configOver (n.log.adopt index term) n.initialMembers snapshotMembers) :
      Becomes cause r n
        { n with
          snapshotData := data
          log := n.log.adopt index term
          commitIndex := max n.commitIndex index
          lastApplied := max n.lastApplied index
          pendingRestore := if n.lastApplied < index then
            some ((decodeSnapshotPayload data).getD (n.baseConfig, [])).2 else n.pendingRestore
          durableIndex, parked, members, snapshotMembers, configIndex, nextIndex, matchIndex }
  | capture (blob : Bytes) (term : Nat) (drains : cause = .other) (wanted : n.wantsSnapshot)
      (known : n.log.termAt n.lastApplied = some term) (persister : Persister) :
      Becomes cause r n
        { n with
          snapshotSeq := n.snapshotSeq + 1
          highestSnapshot := max n.highestSnapshot n.lastApplied
          snapshotInFlight := true
          snapshotData := encodeSnapshotPayload (n.configAt n.lastApplied).1 blob
          persister }
  | receive (src leader : NodeId) (index indexTerm : Nat) (data : Bytes)
      (offered : cause = .message src (.installSnapshot n.term leader index indexTerm data))
      (free : n.snapshotInFlight = false) (newer : n.highestSnapshot < index)
      (ahead : n.commitIndex < index) (follows : n.role = .follower) (persister : Persister) :
      Becomes cause r n
        { n with
          snapshotSeq := n.snapshotSeq + 1
          highestSnapshot := max n.highestSnapshot index
          snapshotInFlight := true
          persister }
  | probeAck (src : NodeId) (seq : Nat) (leads : n.role = .leader)
      (answered : cause = .message src (.readProbeResp n.term seq))
      (probeAcked : NodeMap) (pendingReads : List PendingRead) :
      Becomes cause r n { n with probeAcked, pendingReads }
  | read (id : Nat) (asked : cause = .read) (leads : n.role = .leader)
      (own : n.log.termAt n.commitIndex = some n.term) :
      Becomes cause r n
        { n with
          readSeq := n.readSeq + 1
          pendingReads := n.pendingReads ++
            [{ id, readIndex := n.commitIndex, seq := n.readSeq + 1
               confirmed := decide (n.members.length = 1) }]
          readEvents := n.readEvents ++ [.requested id n.commitIndex n.term (n.readSeq + 1)] }

end Raft

-- What a node appends from a message follows what it already holds.
theorem Node.takeEntries_sound {n : Node} {prevIndex i : Nat} {entries : List Entry} {conflict : Bool}
    (sound : (n.takeEntries prevIndex entries i conflict).panicked = false) :
    (if conflict then n.log.truncateFrom (prevIndex + 1 + i) else n.log).AppendsOk (entries.drop i) := by
  have spliced : ((if conflict then n.truncate (prevIndex + 1 + i) else n).appendAll
      (entries.drop i)).panicked = false := by
    simp only [takeEntries] at sound
    split at sound
    · rwa [refreshConfig_toIo] at sound
    · exact sound
  obtain ⟨_, _, follows⟩ := appendAll_spec _ spliced
  cases conflict with
  | false => exact follows
  | true =>
    obtain ⟨_, _, _, _, _, cut⟩ := n.truncate_toRaft (prevIndex + 1 + i)
    have log : (n.truncate (prevIndex + 1 + i)).log = n.log.truncateFrom (prevIndex + 1 + i) := by rw [cut]
    simp only [if_true] at follows ⊢
    rwa [log] at follows

theorem Act.becomes {cause : Cause} {r : Raft} {n m : Node} (act : Act cause r n m) :
    Raft.Becomes cause r n.toRaft m.toRaft := by
  cases act with
  | idle leader preVotes nextIndex contact election heartbeat =>
    exact .idle leader preVotes nextIndex contact election heartbeat
  | send dst msg =>
    rw [Node.ioSend_toRaft]
    exact .same
  | deferred dst msg =>
    rw [Node.ioSend_toRaft]
    exact .same
  | stepDown term newer => exact .stepDown term newer _ _
  | yield votes => exact .yield votes
  | candidacy =>
    rw [Node.becomeCandidate, Node.resetElectionTimer, Node.persistHard_toRaft]
    exact .candidacy _ _
  | vote src candidate _ free =>
    rw [Node.persistHard_toRaft]
    exact .vote candidate free _ _
  | countVote src => exact .countVote src
  | takeOffice stood standing => exact .takeOffice stood standing _ _
  | persistQuiet | persistRefusal | persistFailure | persistCovered | persistAnswer =>
    rw [Node.persistHard_toRaft]
    exact .persist _ _
  | persistLog hard start truncated src lastNew =>
    split
    · obtain ⟨p, raft⟩ := n.persistHardAndLog_toRaft start truncated (some src) n.term lastNew
      rw [raft]
      exact .persist _ p
    · obtain ⟨p, raft, _⟩ := n.persistLogFrom_spec start truncated (some src) n.term lastNew
      rw [raft]
      exact .persist _ p
  | persistOwn start =>
    obtain ⟨p, raft, _⟩ := n.persistLogFrom_spec start false none 0 unverified
    rw [raft]
    exact .persist _ p
  | append cmd leads plain sound => exact .append _ leads plain rfl sound
  | reconfigure asked =>
    obtain ⟨members, config, next, matched, raft⟩ := n.refreshConfig_toRaft
    have current := n.refreshConfig_current
    rw [raft] at current ⊢
    exact .reconfigure asked members config next matched current
  | splice src leader prevIndex prevTerm entries leaderCommit p t es i conflict offered trims agrees found
      same follows sound =>
    obtain ⟨_, _, _, _, _, _, raft, _⟩ := n.takeEntries_toRaft p es i conflict sound
    have current := n.takeEntries_current p es i conflict sound
    rw [raft] at current ⊢
    exact .splice src leader prevIndex prevTerm entries leaderCommit p t es i conflict offered trims agrees
      found same follows (Node.takeEntries_sound sound) _ _ _ _ _ _ current
  | follow src lastNew leaderCommit followed =>
    obtain ⟨_, same, grows, bound⟩ := n.followCommit_spec leaderCommit lastNew
    rw [same]
    exact .follow src lastNew leaderCommit followed _ grows bound
  | noteMatch src index nextIndex leads => exact .noteMatch _ nextIndex leads
  | commit candidate leads counted newer own => exact .commit candidate leads counted newer own
  | stepAside led removed => exact .stepAside led removed _
  | claim start index =>
    obtain ⟨_, _, raft, grows, _⟩ := n.claimRange_spec start index
    rw [raft]
    exact .claim _ _ grows
  | taken index term file hard done =>
    obtain ⟨_, _, _, _, raft⟩ := { n with
      snapshotInFlight := false
      durableSnapshotFile := some file
      snapshotMembers := (n.configAt index).1
      log := n.log.compactTo index term }.refreshConfig_toRaft
    have current := Node.refreshConfig_current { n with
      snapshotInFlight := false
      durableSnapshotFile := some file
      snapshotMembers := (n.configAt index).1
      log := n.log.compactTo index term }
    rw [raft] at current
    rw [Node.snapshotTaken, raft]
    exact .taken index term file hard done _ _ _ _ current
  | landed index term data file replyTo replyTerm hard done =>
    exact .landed index term data file replyTo replyTerm hard done
  | adopt index term data file replyTo replyTerm hard done _ here wanted =>
    obtain ⟨_, _, _, _, _, _, _, raft, claims⟩ := n.adoptSnapshot_becomes index term data
    obtain ⟨image, current⟩ := n.adoptSnapshot_current index term data
    rw [raft] at image current ⊢
    exact .adopt index term data file replyTo replyTerm hard done here wanted _ claims _ _ _ _ _ _ image current
  | capture data term drains wanted known =>
    simp only [Node.takeSnapshot, wanted, not_true_eq_false, if_false, known]
    obtain ⟨p, raft⟩ := { n.claimSnapshot n.lastApplied with
      snapshotData := encodeSnapshotPayload (n.configAt n.lastApplied).1 data }.writeSnapshot_toRaft
      n.nextSnapshotFile
      { seq := n.snapshotSeq, index := n.lastApplied, term,
        data := encodeSnapshotPayload (n.configAt n.lastApplied).1 data }
      (.snapshotTaken n.lastApplied term n.nextSnapshotFile)
    rw [raft]
    exact .capture data term drains wanted known p
  | receive src leader index indexTerm data offered free newer ahead follows =>
    obtain ⟨p, raft⟩ := (n.claimSnapshot index).writeSnapshot_toRaft n.nextSnapshotFile
      { seq := n.snapshotSeq, index, term := indexTerm, data }
      (.snapshotInstalled index indexTerm data n.nextSnapshotFile src n.term)
    rw [raft]
    exact .receive src leader index indexTerm data offered free newer ahead follows p
  | probeAck src seq leads answered => exact .probeAck src seq leads answered _ _
  | read id asked leads own => exact .read id asked leads own

end SimKv
