import Mathlib.Logic.Relation
import SimKv.Raft.Frames

set_option autoImplicit false

/-!
# What a handler can do

Every entry point is a chain of a few kinds of acts. `Act` says once what each of them does and
under which guards it happens; what holds along every run is then proved act by act.
-/

namespace SimKv

inductive Cause where
  | message (src : NodeId) (msg : RaftMsg)
  | durable (action : Persist) (hard : Option HardState)
  | membership
  | read
  | other
  deriving DecidableEq, Repr

/-- The part of an append message above the snapshot: `on_append_entries` after its skip. -/
inductive Trims (log : RaftLog) (prevIndex prevTerm : Nat) (entries : List Entry) :
    Nat → Nat → List Entry → Prop where
  | whole (above : log.snapshotIndex ≤ prevIndex) :
      Trims log prevIndex prevTerm entries prevIndex prevTerm entries
  | skip (below : prevIndex < log.snapshotIndex)
      (longer : log.snapshotIndex - prevIndex < entries.length) :
      Trims log prevIndex prevTerm entries log.snapshotIndex log.snapshotTerm
        (entries.drop (log.snapshotIndex - prevIndex))

def RaftLog.accept (log : RaftLog) (prevIndex : Nat) (entries : List Entry) : RaftLog :=
  match Node.firstNew log prevIndex entries 0 with
  | none => log
  | some (i, conflict) => log.splice prevIndex entries i conflict

/-- The log of `n` is the log of `r` after an append message from `src` was accepted; the message
vouches for everything up to `lastNew`. -/
def Followed (cause : Cause) (r : Raft) (n : Raft) (src : NodeId) (lastNew leaderCommit : Nat) : Prop :=
  ∃ leader prevIndex prevTerm entries p t es,
    cause = .message src (.appendEntries n.term leader prevIndex prevTerm entries leaderCommit) ∧
    lastNew = prevIndex + entries.length ∧ Trims r.log prevIndex prevTerm entries p t es ∧
    r.log.matchesAt p t ∧ n.log = r.log.accept p es

def Covered (cause : Cause) (n : Raft) (src : NodeId) (lastNew : Nat) : Prop :=
  ∃ leader prevIndex prevTerm entries leaderCommit,
    cause = .message src (.appendEntries n.term leader prevIndex prevTerm entries leaderCommit) ∧
    lastNew = prevIndex + entries.length ∧ prevIndex < n.log.snapshotIndex ∧
    entries.length ≤ n.log.snapshotIndex - prevIndex

/-- A snapshot offered by `src` that `r` is already past; nothing it has written or applied has changed
since. -/
def Passed (cause : Cause) (r : Raft) (n : Raft) (src : NodeId) : Prop :=
  ∃ term leader index indexTerm data,
    cause = .message src (.installSnapshot term leader index indexTerm data) ∧ r.term ≤ term ∧
    (index ≤ r.highestSnapshot ∨ index ≤ r.commitIndex) ∧
    n.log = r.log ∧ n.lastApplied = r.lastApplied ∧ n.durableIndex = r.durableIndex

def InOffice (r : Raft) (n : Raft) : Prop := n.role = .leader ∨ r.role = .leader ∧ ¬ n.isMember

def Requested (cause : Cause) (n : Raft) (src candidate : NodeId) : Prop :=
  ∃ lastIndex lastTerm, cause = .message src (.requestVote n.term candidate lastIndex lastTerm) ∧
    n.log.isUpToDate lastIndex lastTerm

def Says (cause : Cause) (r : Raft) (n : Raft) (dst : NodeId) : RaftMsg → Prop
  | .requestVote term candidate lastIndex lastTerm =>
      (∃ hard, cause = .durable (.campaign term) hard) ∧ term = n.term ∧ n.role = .candidate ∧
        candidate = n.id ∧ lastIndex = n.log.lastIndex ∧ lastTerm = n.log.lastTerm
  | .requestVoteResp term granted =>
      granted = true →
        (∃ hard, cause = .durable (.voteReply dst term true) hard) ∨
        ∃ candidate, Requested cause n dst candidate ∧ term = n.term ∧
          n.votedFor = some candidate ∧ n.durableHardState.term = n.term ∧
          n.durableHardState.votedFor = some candidate
  | .appendEntries term leader prevIndex prevTerm entries leaderCommit =>
      InOffice r n ∧ term = n.term ∧ leader = n.id ∧ n.log.termAt prevIndex = some prevTerm ∧
        entries = n.log.sliceFrom (prevIndex + 1) n.cfg.maxBatch ∧ leaderCommit = n.commitIndex
  | .appendEntriesResp term success matchIndex _ =>
      success = true →
        (∃ start index verified hard,
          cause = .durable (.logDurable start index verified (some dst) term) hard ∧
            matchIndex = min n.durableIndex verified) ∨
        ∃ lastNew, term = n.term ∧ matchIndex = min n.durableIndex lastNew ∧
          ((∃ leaderCommit, Followed cause r n dst lastNew leaderCommit) ∨ Covered cause n dst lastNew)
  | .installSnapshot term leader index indexTerm data =>
      InOffice r n ∧ term = n.term ∧ leader = n.id ∧ index = n.log.snapshotIndex ∧
        indexTerm = n.log.snapshotTerm ∧ data = n.snapshotData ∧ data ≠ [] ∧
        n.log.snapshotIndex = r.log.snapshotIndex
  | .installSnapshotResp term index =>
      index = noIndex ∨
        (term = n.term ∧ index = min n.log.lastIndex n.lastApplied ∧ Passed cause r n dst) ∨
        ∃ at_ atTerm data file hard,
          cause = .durable (.snapshotInstalled at_ atTerm data file dst term) hard ∧
          (index = n.durableIndex ∧ n.log = r.log ∧ n.log.termAt at_ ≠ some atTerm ∧
              at_ < n.commitIndex ∨
            index = at_ ∧ ∃ m : Node, m.log = r.log ∧ n = (m.adoptSnapshot at_ atTerm data).toRaft)
  | .readProbe term leader seq => InOffice r n ∧ term = n.term ∧ leader = n.id ∧ seq = n.readSeq
  | .readProbeResp term seq =>
      term = n.term ∧ ∃ asked leader, cause = .message dst (.readProbe asked leader seq) ∧ asked ≤ term
  | .preVote .. => True
  | .preVoteResp .. => True

namespace Node

def idle (n : Node) (leader : Option NodeId) (preVotes : Option (Finset NodeId)) (nextIndex : NodeMap)
    (contact : Nat) (election heartbeat : Deadline) (nextTimer : Nat) : Node :=
  { n with
    leader, preVotes, nextIndex
    lastLeaderContact := contact
    electionTimer := election
    heartbeatTimer := heartbeat
    nextTimer }

def yield (n : Node) (votes : Finset NodeId) : Node := { n with role := .follower, votes }

end Node

inductive Act (cause : Cause) (r : Raft) : Node → Node → Prop where
  | idle (n : Node) (leader : Option NodeId) (preVotes : Option (Finset NodeId)) (nextIndex : NodeMap)
      (contact : Nat) (election heartbeat : Deadline) (nextTimer : Nat)
      (asked : preVotes.isSome → n.preVotes.isSome ∨ n.isMember) :
      Act cause r n (n.idle leader preVotes nextIndex contact election heartbeat nextTimer)
  | send (n : Node) (dst : NodeId) (msg : RaftMsg) (durable : msg.term ≤ n.durableTerm)
      (allowed : Says cause r n.toRaft dst msg) : Act cause r n (n.ioSend dst msg)
  | deferred (n : Node) (dst : NodeId) (msg : RaftMsg) (hard : Option HardState)
      (durable : msg.term ≤ n.durableTerm) (done : cause = .durable (.reply dst msg) hard) :
      Act cause r n (n.ioSend dst msg)
  | stepDown (n : Node) (term : Nat) (newer : n.term < term) : Act cause r n (n.stepDown term)
  | yield (n : Node) (votes : Finset NodeId) : Act cause r n (n.yield votes)
  | candidacy (n : Node) (member : n.isMember ∨ n.preVotes.isSome) :
      Act cause r n n.becomeCandidate
  | vote (n : Node) (src candidate : NodeId) (requested : Requested cause n.toRaft src candidate)
      (free : n.votedFor = none ∨ n.votedFor = some candidate) :
      Act cause r n ((n.castVote candidate).persistHard (.voteReply src n.term true))
  | countVote (n : Node) (src : NodeId) (standing : n.role = .candidate)
      (granted : cause = .message src (.requestVoteResp n.term true)) :
      Act cause r n { n with votes := insert src n.votes }
  | takeOffice (n : Node) (stood : r.role = .candidate) (standing : n.role = .candidate)
      (won : n.quorum ≤ n.memberVotes)
      (answered : (∃ hard, cause = .durable (.campaign n.term) hard) ∨
        ∃ src, cause = .message src (.requestVoteResp n.term true)) :
      Act cause r n n.takeOffice
  | persistQuiet (n : Node) : Act cause r n (n.persistHard .quiet)
  | persistRefusal (n : Node) (dst : NodeId) : Act cause r n (n.persistHard (.voteReply dst n.term false))
  | persistFailure (n : Node) (dst : NodeId) (matchIndex conflictIndex : Nat) :
      Act cause r n
        (n.persistHard (.reply dst (.appendEntriesResp n.term false matchIndex conflictIndex)))
  | persistCovered (n : Node) (dst : NodeId) (lastNew : Nat) (covered : Covered cause n.toRaft dst lastNew) :
      Act cause r n (n.persistHard
        (.reply dst (.appendEntriesResp n.term true (min n.durableIndex lastNew) noIndex)))
  | persistAnswer (n : Node) (src : NodeId) (lastNew leaderCommit : Nat)
      (followed : Followed cause r n.toRaft src lastNew leaderCommit) :
      Act cause r n
        (n.persistHard (.logDurable (n.durableIndex + 1) n.durableIndex lastNew (some src) n.term))
  | persistLog (n : Node) (hard : Bool) (start : Nat) (truncated : Bool) (src : NodeId)
      (lastNew leaderCommit : Nat) (followed : Followed cause r n.toRaft src lastNew leaderCommit) :
      Act cause r n
        (if hard then n.persistHardAndLog start truncated (some src) n.term lastNew
        else n.persistLogFrom start truncated (some src) n.term lastNew)
  | persistOwn (n : Node) (start : Nat) (leads : n.role = .leader) :
      Act cause r n (n.persistLogFrom start false none 0 unverified)
  | append (n : Node) (cmd : Command) (leads : n.role = .leader)
      (plain : cmd.members = none ∨ cause = .membership) (sound : n.log.AppendOk (n.ownEntry cmd)) :
      Act cause r n { n with log := n.log.append (n.ownEntry cmd) }
  | reconfigure (n : Node) (asked : cause = .membership) : Act cause r n n.refreshConfig
  | splice (n : Node) (src leader : NodeId) (prevIndex prevTerm : Nat) (entries : List Entry)
      (leaderCommit p t : Nat) (es : List Entry) (i : Nat) (conflict : Bool)
      (offered : cause = .message src
        (.appendEntries n.term leader prevIndex prevTerm entries leaderCommit))
      (trims : Trims n.log prevIndex prevTerm entries p t es) (agrees : n.log.matchesAt p t)
      (found : Node.firstNew n.log p es 0 = some (i, conflict)) (same : n.log = r.log)
      (follows : n.role = .follower) (sound : (n.takeEntries p es i conflict).panicked = false) :
      Act cause r n (n.takeEntries p es i conflict)
  | follow (n : Node) (src : NodeId) (lastNew leaderCommit : Nat)
      (followed : Followed cause r n.toRaft src lastNew leaderCommit) :
      Act cause r n (n.followCommit leaderCommit lastNew)
  | noteMatch (n : Node) (src : NodeId) (index : Nat) (nextIndex : NodeMap) (leads : n.role = .leader)
      (acked : (∃ conflictIndex,
          cause = .message src (.appendEntriesResp n.term true index conflictIndex)) ∨
        cause = .message src (.installSnapshotResp n.term index)) :
      Act cause r n { n with
        matchIndex := Function.update n.matchIndex src (some (max ((n.matchIndex src).getD noIndex) index))
        nextIndex }
  | commit (n : Node) (candidate : Nat) (leads : n.role = .leader)
      (counted : (n.replicated.insertionSort (· ≥ ·))[n.quorum - 1]? = some candidate)
      (newer : n.commitIndex < candidate) (own : n.log.termAt candidate = some n.term) :
      Act cause r n { n with commitIndex := candidate }
  | stepAside (n : Node) (led : r.role = .leader) (removed : ¬ n.isMember) :
      Act cause r n { n with role := .follower, leader := none }.disarmHeartbeatTimer
  | claim (n : Node) (start index verified : Nat) (replyTo : Option NodeId) (replyTerm : Nat)
      (hard : Option HardState)
      (done : cause = .durable (.logDurable start index verified replyTo replyTerm) hard) :
      Act cause r n (n.claimRange start index)
  | taken (n : Node) (index term : Nat) (file : FileId) (hard : Option HardState)
      (done : cause = .durable (.snapshotTaken index term file) hard) (same : n.log = r.log) :
      Act cause r n (n.snapshotTaken index term file)
  | landed (n : Node) (index term : Nat) (data : Bytes) (file : FileId) (replyTo : NodeId)
      (replyTerm : Nat) (hard : Option HardState)
      (done : cause = .durable (.snapshotInstalled index term data file replyTo replyTerm) hard) :
      Act cause r n (n.land file)
  | adopt (n : Node) (index term : Nat) (data : Bytes) (file : FileId) (replyTo : NodeId)
      (replyTerm : Nat) (hard : Option HardState)
      (done : cause = .durable (.snapshotInstalled index term data file replyTo replyTerm) hard)
      (same : n.log = r.log) (file_ : n.durableSnapshotFile = some file)
      (wanted : n.log.termAt index = some term ∨ n.commitIndex ≤ index) :
      Act cause r n (n.adoptSnapshot index term data)
  | capture (n : Node) (data : Bytes) (term : Nat) (drains : cause = .other) (wanted : n.wantsSnapshot)
      (known : n.log.termAt n.lastApplied = some term) : Act cause r n (n.takeSnapshot data)
  | receive (n : Node) (src leader : NodeId) (index indexTerm : Nat) (data : Bytes)
      (offered : cause = .message src (.installSnapshot n.term leader index indexTerm data))
      (free : n.snapshotInFlight = false) (newer : n.highestSnapshot < index)
      (ahead : n.commitIndex < index) (follows : n.role = .follower) :
      Act cause r n ((n.claimSnapshot index).writeSnapshot n.nextSnapshotFile
        { seq := n.snapshotSeq, index, term := indexTerm, data }
        (.snapshotInstalled index indexTerm data n.nextSnapshotFile src n.term))
  | probeAck (n : Node) (src : NodeId) (seq : Nat) (leads : n.role = .leader)
      (answered : cause = .message src (.readProbeResp n.term seq)) :
      Act cause r n (n.countProbe src seq)
  | read (n : Node) (id : Nat) (asked : cause = .read) (leads : n.role = .leader)
      (own : n.log.termAt n.commitIndex = some n.term) : Act cause r n (n.acceptRead id)

def Leads (cause : Cause) (r : Raft) (n n' : Node) : Prop :=
  n'.panicked = false → Relation.ReflTransGen (Act cause r) n n'

namespace Node

variable (n : Node)

@[simp] theorem ioSend_toRaft (dst : NodeId) (msg : RaftMsg) : (n.ioSend dst msg).toRaft = n.toRaft := by
  unfold ioSend
  split <;> rfl

@[simp] theorem ioSend_panicked (dst : NodeId) (msg : RaftMsg) :
    (n.ioSend dst msg).panicked = n.panicked := by
  unfold ioSend
  split <;> rfl

@[simp] theorem send_toRaft (dst : NodeId) (msg : RaftMsg) : (n.send dst msg).toRaft = n.toRaft := by
  unfold send
  split <;> simp

@[simp] theorem sendAppendTo_toRaft (dst : NodeId) : (n.sendAppendTo dst).toRaft = n.toRaft := by
  simp only [sendAppendTo]
  split
  · simp
  · split <;> simp

@[simp] theorem sendAll_toRaft (dsts : List NodeId) (msg : RaftMsg) :
    (n.sendAll dsts msg).toRaft = n.toRaft := by
  unfold sendAll
  induction dsts generalizing n with
  | nil => rfl
  | cons dst rest ih => rw [List.foldl_cons, ih, send_toRaft]

@[simp] theorem broadcastAppend_toRaft : n.broadcastAppend.toRaft = n.toRaft := by
  unfold broadcastAppend
  generalize n.peers = dsts
  induction dsts generalizing n with
  | nil => rfl
  | cons dst rest ih => rw [List.foldl_cons, ih, sendAppendTo_toRaft]

@[simp] theorem broadcastProbe_toRaft : n.broadcastProbe.toRaft = n.toRaft := sendAll_toRaft ..

end Node

namespace Node

variable (n : Node)

theorem takeEntries_calm {prevIndex i : Nat} {entries : List Entry} {conflict : Bool}
    (sound : (n.takeEntries prevIndex entries i conflict).panicked = false) : n.panicked = false := by
  have spliced : ((if conflict then n.truncate (prevIndex + 1 + i) else n).appendAll
      (entries.drop i)).panicked = false := by
    simp only [takeEntries] at sound
    split at sound
    · rwa [refreshConfig_toIo] at sound
    · exact sound
  obtain ⟨_, calm, _⟩ := appendAll_spec _ spliced
  split at calm
  · rwa [truncate_toIo] at calm
  · exact calm

theorem adoptSnapshot_panicked (index term : Nat) (data : Bytes) :
    (n.adoptSnapshot index term data).panicked = n.panicked := by
  obtain ⟨_, _, _, calm⟩ := (n.stageImage index data
    ((decodeSnapshotPayload data).getD (n.baseConfig, [])).2).adoptLog_spec index term
  simp only [adoptSnapshot, applyThrough, claimThrough, setSnapshotMembers, advanceDurable_toIo,
    refreshConfig_toIo]
  exact calm

theorem takeSnapshot_panicked (data : Bytes) : (n.takeSnapshot data).panicked = n.panicked := by
  simp only [takeSnapshot]
  split
  · rfl
  · split <;> rfl

end Node

section

open Relation Node

variable {cause : Cause} {r : Raft} {n m k : Node}

theorem Act.calm (act : Act cause r n m) (calm : m.panicked = false) : n.panicked = false := by
  cases act with
  | send => rwa [ioSend_panicked] at calm
  | deferred => rwa [ioSend_panicked] at calm
  | persistLog hard =>
    split at calm
    · rw [persistHardAndLog, (writeLogFrom_writes _ _ _ _).panicked] at calm
      exact calm
    · rw [persistLogFrom, (writeLogFrom_writes _ _ _ _).panicked] at calm
      exact calm
  | persistOwn =>
    rw [persistLogFrom, (writeLogFrom_writes _ _ _ _).panicked] at calm
    exact calm
  | splice _ _ _ _ _ _ _ _ _ _ _ _ _ _ _ _ _ sound => exact n.takeEntries_calm sound
  | follow _ lastNew leaderCommit =>
    obtain ⟨_, same, _⟩ := n.followCommit_spec leaderCommit lastNew
    rw [same] at calm
    exact calm
  | claim => rwa [claimRange_toIo] at calm
  | taken =>
    rw [snapshotTaken, refreshConfig_toIo] at calm
    exact calm
  | reconfigure => rwa [refreshConfig_toIo] at calm
  | adopt => rwa [adoptSnapshot_panicked] at calm
  | capture => rwa [takeSnapshot_panicked] at calm
  | _ => exact calm

theorem Leads.refl (n : Node) : Leads cause r n n := fun _ => .refl

theorem Leads.calm (leads : Leads cause r n m) (calm : m.panicked = false) : n.panicked = false := by
  have chain := leads calm
  clear leads
  induction chain using ReflTransGen.head_induction_on with
  | refl => exact calm
  | head act _ ih => exact act.calm ih

theorem Leads.trans (first : Leads cause r n m) (second : Leads cause r m k) : Leads cause r n k :=
  fun calm => (first (second.calm calm)).trans (second calm)

theorem Act.leads (act : Act cause r n m) : Leads cause r n m := fun _ => .single act

theorem send_leads {dst : NodeId} {msg : RaftMsg} (allowed : Says cause r n.toRaft dst msg) :
    Leads cause r n (n.send dst msg) := by
  unfold Node.send
  split
  · exact .refl n
  · next durable => exact (Act.send n dst msg (not_lt.mp durable) allowed).leads

theorem sendAll_leads {dsts : List NodeId} {msg : RaftMsg}
    (allowed : ∀ dst ∈ dsts, Says cause r n.toRaft dst msg) : Leads cause r n (n.sendAll dsts msg) := by
  unfold sendAll
  induction dsts generalizing n with
  | nil => exact .refl n
  | cons dst rest ih =>
    refine (send_leads (allowed dst List.mem_cons_self)).trans (ih ?_)
    intro other member
    rw [send_toRaft]
    exact allowed other (List.mem_cons_of_mem _ member)

theorem sendAppendTo_leads (office : InOffice r n.toRaft)
    (unmoved : n.log.snapshotIndex = r.log.snapshotIndex) (dst : NodeId) :
    Leads cause r n (n.sendAppendTo dst) := by
  simp only [sendAppendTo]
  split
  · next behind => exact send_leads ⟨office, rfl, rfl, rfl, rfl, rfl, behind.2, unmoved⟩
  · split
    · exact .refl n
    · next known =>
      refine send_leads ⟨office, rfl, rfl, known, ?_, rfl⟩
      congr 1
      omega

theorem broadcastAppend_leads (office : InOffice r n.toRaft)
    (unmoved : n.log.snapshotIndex = r.log.snapshotIndex) : Leads cause r n n.broadcastAppend := by
  unfold broadcastAppend
  generalize n.peers = dsts
  induction dsts generalizing n with
  | nil => exact .refl n
  | cons dst rest ih =>
    refine (sendAppendTo_leads office unmoved dst).trans (ih ?_ ?_)
    · rwa [sendAppendTo_toRaft]
    · rwa [sendAppendTo_toRaft]

theorem broadcastProbe_leads (office : InOffice r n.toRaft) : Leads cause r n n.broadcastProbe :=
  sendAll_leads fun _ _ => ⟨office, rfl, rfl, rfl⟩

theorem resetElectionTimer_leads (n : Node) : Leads cause r n n.resetElectionTimer :=
  (Act.idle n n.leader n.preVotes n.nextIndex n.lastLeaderContact _ n.heartbeatTimer _ .inl).leads

theorem resetHeartbeatTimer_leads (n : Node) : Leads cause r n n.resetHeartbeatTimer :=
  (Act.idle n n.leader n.preVotes n.nextIndex n.lastLeaderContact n.electionTimer _ _ .inl).leads

theorem disarmElectionTimer_leads (n : Node) : Leads cause r n n.disarmElectionTimer :=
  (Act.idle n n.leader n.preVotes n.nextIndex n.lastLeaderContact _ n.heartbeatTimer n.nextTimer
    .inl).leads

theorem dropPreVotes_leads (n : Node) : Leads cause r n { n with preVotes := none } :=
  (Act.idle n n.leader none n.nextIndex n.lastLeaderContact n.electionTimer n.heartbeatTimer
    n.nextTimer (by simp)).leads

theorem heardFrom_leads (n : Node) (leader : NodeId) : Leads cause r n (n.heardFrom leader) :=
  (Act.idle n (some leader) n.preVotes n.nextIndex n.now _ n.heartbeatTimer _ .inl).leads

theorem concede_leads (n : Node) : Leads cause r n n.concede := by
  unfold concede
  split
  · exact (Act.yield n ∅).leads.trans (Act.idle (n.yield ∅) n.leader n.preVotes n.nextIndex
      n.lastLeaderContact n.electionTimer _ n.nextTimer .inl).leads
  · exact .refl n

theorem stepDownAndPersist_leads {term : Nat} (newer : n.term < term) :
    Leads cause r n (n.stepDownAndPersist term) :=
  (Act.stepDown n term newer).leads.trans (Act.persistQuiet _).leads

-- A leader's append either passes the assertions of the log or stops the node.
theorem appendOwn_leads (leads : n.role = .leader) {cmd : Command}
    (plain : cmd.members = none ∨ cause = .membership) :
    Leads cause r n (n.appendEntry (n.ownEntry cmd)) := by
  unfold appendEntry
  split
  · next sound => exact (Act.append n cmd leads plain sound).leads
  · intro calm
    cases calm

theorem appendEntry_role (n : Node) (e : Entry) : (n.appendEntry e).role = n.role := by
  unfold appendEntry
  split <;> rfl

theorem appendEntry_snapshotIndex (n : Node) (e : Entry) :
    (n.appendEntry e).log.snapshotIndex = n.log.snapshotIndex := by
  unfold appendEntry
  split <;> rfl

-- The common end of `propose` and `become_leader`: append, persist, send.
theorem replicateOwn_leads (leads : n.role = .leader) {cmd : Command}
    (plain : cmd.members = none ∨ cause = .membership) :
    Leads cause r n ((n.appendEntry (n.ownEntry cmd)).persistLogFrom (n.log.lastIndex + 1) false none 0
      unverified) := by
  have role := appendEntry_role n (n.ownEntry cmd)
  exact (appendOwn_leads leads plain).trans (Act.persistOwn _ _ (role.trans leads)).leads

theorem replicateOwn_kept (n : Node) (cmd : Command) (start : Nat) :
    ((n.appendEntry (n.ownEntry cmd)).persistLogFrom start false none 0 unverified).role = n.role ∧
      ((n.appendEntry (n.ownEntry cmd)).persistLogFrom start false none 0
        unverified).log.snapshotIndex = n.log.snapshotIndex := by
  obtain ⟨p, raft, _⟩ :=
    (n.appendEntry (n.ownEntry cmd)).persistLogFrom_spec start false none 0 unverified
  rw [raft]
  unfold appendEntry
  split <;> exact ⟨rfl, rfl⟩

theorem becomeLeader_leads (stood : r.role = .candidate) (standing : n.role = .candidate)
    (won : n.quorum ≤ n.memberVotes)
    (unmoved : n.log.snapshotIndex = r.log.snapshotIndex)
    (answered : (∃ hard, cause = .durable (.campaign n.term) hard) ∨
      ∃ src, cause = .message src (.requestVoteResp n.term true)) :
    Leads cause r n n.becomeLeader := by
  have elected := (Act.takeOffice n stood standing won answered).leads
  have opened : Leads cause r n.takeOffice ((n.takeOffice.appendEntry
      (n.ownEntry Command.noop)).persistLogFrom (n.log.lastIndex + 1) false none 0 unverified) :=
    replicateOwn_leads rfl (.inl rfl)
  have kept : ((n.takeOffice.appendEntry (n.ownEntry Command.noop)).persistLogFrom
        (n.log.lastIndex + 1) false none 0 unverified).role = .leader ∧
      ((n.takeOffice.appendEntry (n.ownEntry Command.noop)).persistLogFrom
        (n.log.lastIndex + 1) false none 0 unverified).log.snapshotIndex = n.log.snapshotIndex :=
    replicateOwn_kept n.takeOffice Command.noop _
  simp only [becomeLeader]
  generalize (n.takeOffice.appendEntry (n.ownEntry Command.noop)).persistLogFrom
    (n.log.lastIndex + 1) false none 0 unverified = m at opened kept ⊢
  refine elected.trans (opened.trans ((disarmElectionTimer_leads m).trans ?_))
  have disarmed : InOffice r m.disarmElectionTimer.toRaft := .inl kept.1
  exact (broadcastAppend_leads disarmed (kept.2.trans unmoved)).trans (resetHeartbeatTimer_leads _)

theorem becomeCandidate_leads (member : n.isMember ∨ n.preVotes.isSome) :
    Leads cause r n n.becomeCandidate := (Act.candidacy n member).leads

theorem startPreVote_leads (member : n.isMember) : Leads cause r n n.startPreVote := by
  have asked : Leads cause r n { n with
      role := .follower
      leader := none
      votes := ∅
      preVotes := some {n.id} }.resetElectionTimer :=
    (Act.yield n ∅).leads.trans (Act.idle (n.yield ∅) none (some {n.id}) n.nextIndex
      n.lastLeaderContact _ n.heartbeatTimer _ fun _ => .inr member).leads
  refine asked.trans ?_
  simp only [startPreVote]
  split
  · exact becomeCandidate_leads (.inl member)
  · exact sendAll_leads fun _ _ => trivial

theorem onPreVote_leads (src : NodeId) (term lastIndex lastTerm : Nat) :
    Leads cause r n (n.onPreVote src term lastIndex lastTerm) := send_leads trivial

theorem onPreVoteResp_leads (src : NodeId) (term round : Nat) (granted : Bool) :
    Leads cause r n (n.onPreVoteResp src term round granted) := by
  unfold onPreVoteResp
  split
  · next newer => exact (dropPreVotes_leads n).trans (stepDownAndPersist_leads newer)
  · split
    · split
      · exact dropPreVotes_leads n
      · exact .refl n
    · split
      · exact .refl n
      · next votes running =>
        split
        · dsimp only
          have counted : Leads cause r n { n with preVotes := some (insert src votes) } :=
            (Act.idle n n.leader (some (insert src votes)) n.nextIndex n.lastLeaderContact
              n.electionTimer n.heartbeatTimer n.nextTimer fun _ => .inl (by simp [running])).leads
          refine counted.trans ?_
          split
          · exact becomeCandidate_leads (.inr rfl)
          · exact .refl _
        · exact .refl n

theorem answerVote_leads {src candidate : NodeId} {lastIndex lastTerm : Nat} {dirty : Bool}
    (requested : cause = .message src (.requestVote n.term candidate lastIndex lastTerm)) :
    Leads cause r n (n.answerVote src candidate lastIndex lastTerm dirty) := by
  unfold answerVote
  split
  · next granted =>
    have asked : Requested cause n.toRaft src candidate := ⟨_, _, requested, granted.2⟩
    split
    · exact (Act.vote n src candidate asked granted.1).leads
    · next settled =>
      have voted : n.votedFor = some candidate := by
        by_contra differs
        exact settled (.inr differs)
      have same : n.castVote candidate = n.resetElectionTimer := by
        unfold castVote
        rw [← voted]
      rw [same]
      split
      · exact resetElectionTimer_leads n
      · next durable =>
        refine (resetElectionTimer_leads n).trans (send_leads fun _ => .inr ⟨candidate, asked, rfl, voted, ?_⟩)
        constructor
        · by_contra differs
          exact durable (.inl differs)
        · by_contra differs
          exact durable (.inr differs)
  · split
    · exact (Act.persistRefusal n src).leads
    · exact send_leads (by simp [Says])

theorem onRequestVote_leads {src candidate : NodeId} {term lastIndex lastTerm : Nat}
    (requested : cause = .message src (.requestVote term candidate lastIndex lastTerm)) :
    Leads cause r n (n.onRequestVote src term candidate lastIndex lastTerm) := by
  unfold onRequestVote
  split
  · exact send_leads (by simp [Says])
  · next current =>
    split
    · exact .refl n
    · split
      · next newer => exact (Act.stepDown n term newer).leads.trans (answerVote_leads requested)
      · next older =>
        have same : n.term = term := by omega
        exact answerVote_leads (by rwa [same])

theorem onVoteResp_leads {src : NodeId} {term : Nat} {granted : Bool} (start : n.log = r.log)
    (role : n.role = r.role)
    (answered : cause = .message src (.requestVoteResp term granted)) :
    Leads cause r n (n.onVoteResp src term granted) := by
  unfold onVoteResp
  split
  · next newer => exact stepDownAndPersist_leads newer
  · split
    · exact .refl n
    · next open_ =>
      rw [not_or, not_not, not_not] at open_
      obtain ⟨standing, same⟩ := open_
      split
      · next given =>
        subst given same
        dsimp only
        refine (Act.countVote n src standing answered).leads.trans ?_
        split
        · next won =>
          refine becomeLeader_leads (role.symm.trans standing) ?_ won (by rw [start]) (.inr ⟨src, answered⟩)
          exact standing
        · exact .refl _
      · exact .refl n

theorem refreshConfig_log (n : Node) : n.refreshConfig.log = n.log ∧ n.refreshConfig.term = n.term := by
  simp only [refreshConfig]
  split <;> exact ⟨rfl, rfl⟩

theorem truncate_log (n : Node) (at_ : Nat) :
    (n.truncate at_).log = n.log.truncateFrom at_ ∧ (n.truncate at_).term = n.term := by
  simp only [truncate, refreshConfig_log]
  split <;> exact ⟨rfl, rfl⟩

theorem takeEntries_log {p i : Nat} {es : List Entry} {conflict : Bool}
    (sound : (n.takeEntries p es i conflict).panicked = false) :
    (n.takeEntries p es i conflict).log = n.log.splice p es i conflict ∧
      (n.takeEntries p es i conflict).term = n.term := by
  have base : (if conflict then n.truncate (p + 1 + i) else n).log =
        (if conflict then n.log.truncateFrom (p + 1 + i) else n.log) ∧
      (if conflict then n.truncate (p + 1 + i) else n).term = n.term := by
    split
    · exact truncate_log n _
    · exact ⟨rfl, rfl⟩
  simp only [takeEntries] at sound ⊢
  generalize (if conflict = true then n.truncate (p + 1 + i) else n) = m at base sound ⊢
  have spliced : (m.appendAll (es.drop i)).panicked = false := by
    split at sound
    · rwa [refreshConfig_toIo] at sound
    · exact sound
  obtain ⟨appended, _, _⟩ := appendAll_spec _ spliced
  have both : (m.appendAll (es.drop i)).log = n.log.splice p es i conflict ∧
      (m.appendAll (es.drop i)).term = n.term := by
    rw [appended, RaftLog.splice, ← base.1]
    exact ⟨rfl, base.2⟩
  split
  · rwa [(refreshConfig_log _).1, (refreshConfig_log _).2]
  · exact both

theorem replyInTerm_leads {dirty : Bool} {src : NodeId} {matchIndex conflictIndex : Nat} :
    Leads cause r n (n.replyInTerm dirty src
      (.appendEntriesResp n.term false matchIndex conflictIndex)) := by
  unfold replyInTerm
  split
  · exact (Act.persistFailure n src matchIndex conflictIndex).leads
  · exact send_leads (by simp [Says])

theorem replyCovered_leads {dirty : Bool} {src : NodeId} {lastNew : Nat}
    (covered : Covered cause n.toRaft src lastNew) :
    Leads cause r n (n.replyInTerm dirty src
      (.appendEntriesResp n.term true (min n.durableIndex lastNew) noIndex)) := by
  unfold replyInTerm
  split
  · exact (Act.persistCovered n src lastNew covered).leads
  · exact send_leads fun _ => .inr ⟨lastNew, rfl, rfl, .inr covered⟩

theorem persistLog_frame (n : Node) (hard : Bool) (start : Nat) (truncated : Bool)
    (replyTo : Option NodeId) (replyTerm verified : Nat) (m : Node)
    (same : m = if hard then n.persistHardAndLog start truncated replyTo replyTerm verified
      else n.persistLogFrom start truncated replyTo replyTerm verified) :
    m.log = n.log ∧ m.term = n.term ∧ m.panicked = n.panicked := by
  subst same
  split
  · have writes := ((n.startBatch (n.logAction start verified replyTo replyTerm)).writeHardState
      (n.persister.nextId + 1)).writeLogFrom_writes (n.persister.nextId + 1) start truncated
    rw [persistHardAndLog, writes.raft, writes.panicked]
    exact ⟨rfl, rfl, rfl⟩
  · have writes := (n.startBatch (n.logAction start verified replyTo replyTerm)).writeLogFrom_writes
      (n.persister.nextId + 1) start truncated
    rw [persistLogFrom, writes.raft, writes.panicked]
    exact ⟨rfl, rfl, rfl⟩

theorem acceptAppend_leads {src leader : NodeId} {prevIndex prevTerm : Nat} {entries : List Entry}
    {leaderCommit p t : Nat} {es : List Entry} {dirty : Bool}
    (offered : cause = .message src
      (.appendEntries n.term leader prevIndex prevTerm entries leaderCommit))
    (trims : Trims n.log prevIndex prevTerm entries p t es) (agrees : n.log.matchesAt p t)
    (same : n.log = r.log) (follows : n.role = .follower) :
    Leads cause r n ((n.acceptAppend src p es (prevIndex + entries.length) dirty).followCommit
      leaderCommit (prevIndex + entries.length)) := by
  have vouched : ∀ m : Node, m.term = n.term → m.log = r.log.accept p es →
      Followed cause r m.toRaft src (prevIndex + entries.length) leaderCommit := by
    intro m term log
    refine ⟨leader, prevIndex, prevTerm, entries, p, t, es, ?_, rfl, same ▸ trims, same ▸ agrees, log⟩
    rw [term]
    exact offered
  unfold acceptAppend
  split
  · next i conflict found =>
    have accepted : n.log.splice p es i conflict = r.log.accept p es := by
      rw [RaftLog.accept, ← same, found]
    dsimp only
    generalize spliced : n.takeEntries p es i conflict = m
    generalize persisted : (if dirty = true then
      m.persistHardAndLog (p + 1 + i) conflict (some src) m.term (prevIndex + entries.length)
      else m.persistLogFrom (p + 1 + i) conflict (some src) m.term (prevIndex + entries.length)) = k
    obtain ⟨log, term, quiet⟩ := persistLog_frame m dirty _ _ _ _ _ k persisted.symm
    intro calm
    have sound : m.panicked = false := by
      obtain ⟨_, commit, _⟩ := k.followCommit_spec leaderCommit (prevIndex + entries.length)
      rw [commit] at calm
      exact quiet.symm.trans calm
    subst spliced
    obtain ⟨newLog, newTerm⟩ := takeEntries_log sound
    have taken := (Act.splice n src leader prevIndex prevTerm entries leaderCommit p t es i conflict
      offered trims agrees found same follows sound).leads
    have vouch := vouched _ newTerm (newLog.trans accepted)
    have written := (Act.persistLog (n.takeEntries p es i conflict) dirty (p + 1 + i) conflict src _
      leaderCommit vouch).leads
    rw [persisted] at written
    have followed := vouched k (term.trans newTerm) (log.trans (newLog.trans accepted))
    exact (taken.trans (written.trans (Act.follow k src _ _ followed).leads)) calm
  · next none =>
    have accepted : n.log = r.log.accept p es := by
      rw [RaftLog.accept, ← same, none]
    have followed := vouched n rfl accepted
    split
    · refine (Act.persistAnswer n src _ leaderCommit followed).leads.trans (Act.follow _ src _ _ ?_).leads
      exact vouched _ rfl accepted
    · have allowed : Says cause r n.toRaft src (.appendEntriesResp n.term true
          (min n.durableIndex (prevIndex + entries.length)) noIndex) :=
        fun _ => .inr ⟨_, rfl, rfl, .inl ⟨leaderCommit, followed⟩⟩
      refine (send_leads allowed).trans (Act.follow _ src _ _ ?_).leads
      rw [send_toRaft]
      exact followed

theorem appendInTerm_leads {src leader : NodeId} {prevIndex prevTerm : Nat} {entries : List Entry}
    {leaderCommit : Nat} {dirty : Bool}
    (offered : cause = .message src
      (.appendEntries n.term leader prevIndex prevTerm entries leaderCommit))
    (same : n.log = r.log) (follows : n.role = .follower) :
    Leads cause r n (n.appendInTerm src prevIndex prevTerm entries leaderCommit dirty) := by
  simp only [appendInTerm]
  split
  · next covered =>
    exact replyCovered_leads ⟨_, _, _, _, _, offered, rfl, covered.1, covered.2⟩
  · next longer =>
    have checked : ∀ {p t : Nat} {es : List Entry}, Trims n.log prevIndex prevTerm entries p t es →
        Leads cause r n (if ¬ n.log.matchesAt p t then
          n.replyInTerm dirty src (.appendEntriesResp n.term false n.durableIndex (n.conflictHint p))
          else (n.acceptAppend src p es (prevIndex + entries.length) dirty).followCommit leaderCommit
            (prevIndex + entries.length)) := by
      intro p t es trims
      split
      · exact replyInTerm_leads
      · next agrees => exact acceptAppend_leads offered trims (not_not.mp agrees) same follows
    by_cases below : prevIndex < n.log.snapshotIndex
    · simp only [below, decide_true, if_true]
      exact checked (.skip below (by omega))
    · simp only [below, decide_false, Bool.false_eq_true, if_false]
      exact checked (.whole (by omega))

theorem concede_spec (n : Node) : n.concede.role = .follower ∧ n.concede.term = n.term ∧
    n.concede.log = n.log := by
  unfold concede
  split
  · exact ⟨rfl, rfl, rfl⟩
  · next free => exact ⟨not_not.mp free, rfl, rfl⟩

theorem onAppendEntries_leads {src leader : NodeId} {term prevIndex prevTerm : Nat}
    {entries : List Entry} {leaderCommit : Nat} (start : n.log = r.log)
    (offered : cause = .message src (.appendEntries term leader prevIndex prevTerm entries leaderCommit)) :
    Leads cause r n (n.onAppendEntries src term leader prevIndex prevTerm entries leaderCommit) := by
  unfold onAppendEntries
  split
  · exact send_leads (by simp [Says])
  · next current =>
    dsimp only
    have settled : ∀ m : Node, m.term = term → m.log = r.log →
        Leads cause r m ((m.concede.heardFrom leader).appendInTerm src prevIndex prevTerm entries
          leaderCommit (decide (n.term < term))) := by
      intro m now log
      obtain ⟨role, same, kept⟩ := concede_spec m
      have offered' : cause = .message src (.appendEntries (m.concede.heardFrom leader).term leader
          prevIndex prevTerm entries leaderCommit) := by
        rw [offered, ← now, ← same]
        rfl
      exact (concede_leads m).trans ((heardFrom_leads _ leader).trans
        (appendInTerm_leads offered' (kept.trans log) role))
    split
    · next newer => exact (Act.stepDown n term newer).leads.trans (settled _ rfl start)
    · exact settled n (by omega) start

theorem stepAside_leads (led : r.role = .leader) :
    Leads cause r n n.stepAsideIfRemoved := by
  unfold stepAsideIfRemoved
  split
  · next aside => exact (Act.stepAside n led aside.2.1).leads
  · exact .refl n

theorem maybeCommit_leads (leads : n.role = .leader) (led : r.role = .leader) :
    Leads cause r n n.maybeCommit := by
  unfold maybeCommit
  split
  · intro calm
    cases calm
  · next candidate counted =>
    split
    · next reached =>
      exact (Act.commit n candidate leads counted reached.1 reached.2).leads.trans
        (stepAside_leads led)
    · exact .refl n

-- After the commit count a leader is in office, or it has just stepped aside.
theorem maybeCommit_office (leads : n.role = .leader) (led : r.role = .leader) :
    InOffice r n.maybeCommit.toRaft ∧ n.maybeCommit.log = n.log := by
  unfold maybeCommit
  split
  · exact ⟨.inl leads, rfl⟩
  · split
    · unfold stepAsideIfRemoved
      split
      · next aside => exact ⟨.inr ⟨led, aside.2.1⟩, rfl⟩
      · exact ⟨.inl leads, rfl⟩
    · exact ⟨.inl leads, rfl⟩

theorem noteMatch_leads {src : NodeId} {index : Nat} (leads : n.role = .leader) (led : r.role = .leader)
    (acked : (∃ conflictIndex,
        cause = .message src (.appendEntriesResp n.term true index conflictIndex)) ∨
      cause = .message src (.installSnapshotResp n.term index)) :
    Leads cause r n (n.noteMatch src index) :=
  (Act.noteMatch n src index _ leads acked).leads.trans (maybeCommit_leads leads led)

theorem onAppendResp_leads {src : NodeId} {term : Nat} {success : Bool} {matchIndex conflictIndex : Nat}
    (start : n.toRaft = r)
    (answered : cause = .message src (.appendEntriesResp term success matchIndex conflictIndex)) :
    Leads cause r n (n.onAppendResp src term success matchIndex conflictIndex) := by
  unfold onAppendResp
  split
  · next newer => exact stepDownAndPersist_leads newer
  · split
    · exact .refl n
    · next open_ =>
      rw [not_or, not_not, not_not] at open_
      obtain ⟨leads, same⟩ := open_
      have led : r.role = .leader := start ▸ leads
      have unmoved : n.log.snapshotIndex = r.log.snapshotIndex := by rw [start]
      split
      · next given =>
        subst given same
        have counted : Leads cause r n (n.noteMatch src matchIndex) :=
          noteMatch_leads leads led (.inl ⟨conflictIndex, answered⟩)
        dsimp only
        split
        · have office : InOffice r (n.noteMatch src matchIndex).toRaft ∧
              (n.noteMatch src matchIndex).log = n.log := maybeCommit_office leads led
          refine counted.trans (sendAppendTo_leads office.1 ?_ src)
          rw [office.2, unmoved]
        · exact counted
      · dsimp only
        have backed : ∀ next, Leads cause r n { n with nextIndex := next } := fun next =>
          (Act.idle n n.leader n.preVotes next n.lastLeaderContact n.electionTimer n.heartbeatTimer
            n.nextTimer .inl).leads
        refine (backed _).trans (sendAppendTo_leads ?_ ?_ src)
        · exact .inl leads
        · exact unmoved

theorem takeSnapshot_leads (drains : cause = .other) (data : Bytes) :
    Leads cause r n (n.takeSnapshot data) := by
  by_cases wanted : n.wantsSnapshot
  · cases known : n.log.termAt n.lastApplied with
    | none =>
      have nothing : n.takeSnapshot data = n := by
        simp only [takeSnapshot, wanted, not_true_eq_false, if_false, known]
      rw [nothing]
      exact .refl n
    | some term => exact (Act.capture n data term drains wanted known).leads
  · have nothing : n.takeSnapshot data = n := by
      simp only [takeSnapshot, wanted, not_false_eq_true, if_true]
    rw [nothing]
    exact .refl n

structure Node.SamePlace (m n : Node) : Prop where
  log : m.log = n.log
  applied : m.lastApplied = n.lastApplied
  durable : m.durableIndex = n.durableIndex
  highest : m.highestSnapshot = n.highestSnapshot
  commit : m.commitIndex = n.commitIndex

theorem Node.SamePlace.refl (n : Node) : n.SamePlace n := ⟨rfl, rfl, rfl, rfl, rfl⟩

theorem Node.SamePlace.trans {m k : Node} (first : k.SamePlace m) (second : m.SamePlace n) : k.SamePlace n :=
  ⟨first.log.trans second.log, first.applied.trans second.applied, first.durable.trans second.durable,
    first.highest.trans second.highest, first.commit.trans second.commit⟩

theorem Node.concede_place (n : Node) : n.concede.SamePlace n := by
  unfold concede
  split <;> exact ⟨rfl, rfl, rfl, rfl, rfl⟩

theorem Node.stepDownAndPersist_place (n : Node) (term : Nat) : (n.stepDownAndPersist term).SamePlace n := by
  rw [stepDownAndPersist]
  constructor <;> rw [persistHard_toRaft] <;> rfl

theorem installInTerm_leads {src leader : NodeId} {index indexTerm : Nat} {data : Bytes}
    (offered : cause = .message src (.installSnapshot n.term leader index indexTerm data))
    (follows : n.role = .follower)
    (passed : index ≤ n.highestSnapshot ∨ index ≤ n.commitIndex → Passed cause r n.toRaft src) :
    Leads cause r n (n.installInTerm src index indexTerm data) := by
  unfold installInTerm
  split
  · next older => exact send_leads (.inr (.inl ⟨rfl, rfl, passed older⟩))
  · next newer =>
    split
    · exact .refl n
    · next free =>
      exact (Act.receive n src leader index indexTerm data offered (by simpa using free) (by omega)
        (by omega) follows).leads

theorem onInstallSnapshot_leads {src leader : NodeId} {term index indexTerm : Nat} {data : Bytes}
    (start : n.toRaft = r)
    (offered : cause = .message src (.installSnapshot term leader index indexTerm data)) :
    Leads cause r n (n.onInstallSnapshot src term leader index indexTerm data) := by
  subst start
  unfold onInstallSnapshot
  split
  · exact send_leads (.inl rfl)
  · next current =>
    dsimp only
    have settled : ∀ m : Node, m.term = term → m.SamePlace n →
        Leads cause n.toRaft m ((m.concede.heardFrom leader).installInTerm src index indexTerm data) := by
      intro m now place
      obtain ⟨role, same, _⟩ := concede_spec m
      have offered' : cause = .message src (.installSnapshot (m.concede.heardFrom leader).term leader
          index indexTerm data) := by
        rw [offered, ← now, ← same]
        rfl
      obtain ⟨log, applied, durable, highest, commit⟩ := m.concede_place.trans place
      refine (concede_leads m).trans ((heardFrom_leads _ leader).trans
        (installInTerm_leads offered' role fun older => ?_))
      exact ⟨term, leader, index, indexTerm, data, offered, not_lt.mp current,
        older.imp (fun below => below.trans highest.le) (fun below => below.trans commit.le), log, applied,
        durable⟩
    split
    · next newer =>
      exact (stepDownAndPersist_leads newer).trans (settled _ rfl (n.stepDownAndPersist_place term))
    · exact settled n (by omega) (.refl n)

theorem onInstallSnapshotResp_leads {src : NodeId} {term index : Nat} (start : n.role = r.role)
    (answered : cause = .message src (.installSnapshotResp term index)) :
    Leads cause r n (n.onInstallSnapshotResp src term index) := by
  unfold onInstallSnapshotResp
  split
  · next newer => exact stepDownAndPersist_leads newer
  · split
    · exact .refl n
    · next open_ =>
      rw [not_or, not_not, not_not] at open_
      obtain ⟨leads, same⟩ := open_
      subst same
      split
      · exact noteMatch_leads leads (start.symm.trans leads) (.inr answered)
      · exact .refl n

theorem onReadProbe_leads {src leader : NodeId} {term seq : Nat}
    (asked : cause = .message src (.readProbe term leader seq)) :
    Leads cause r n (n.onReadProbe src term leader seq) := by
  unfold onReadProbe
  split
  · next older => exact send_leads ⟨rfl, term, leader, asked, older.le⟩
  · split
    · next newer =>
      refine (stepDownAndPersist_leads newer).trans ?_
      generalize n.stepDownAndPersist term = m
      exact (Act.idle m (some leader) m.preVotes m.nextIndex n.now m.electionTimer m.heartbeatTimer
        m.nextTimer .inl).leads
    · next current =>
      have same : term = n.term := by omega
      split
      · exact .refl n
      · dsimp only
        have settled : ∀ m : Node, m.term = n.term →
            Leads cause r m ((m.heardFrom leader).send src (.readProbeResp term seq)) := by
          intro m now
          exact (heardFrom_leads m leader).trans
            (send_leads ⟨same.trans now.symm, term, leader, asked, le_refl _⟩)
        split
        · exact (Act.yield n ∅).leads.trans (settled _ rfl)
        · exact settled n rfl

theorem onReadProbeResp_leads {src : NodeId} {term seq : Nat}
    (answered : cause = .message src (.readProbeResp term seq)) :
    Leads cause r n (n.onReadProbeResp src term seq) := by
  unfold onReadProbeResp
  split
  · next newer => exact stepDownAndPersist_leads newer
  · split
    · exact .refl n
    · next open_ =>
      rw [not_or, not_not, not_not] at open_
      obtain ⟨leads, same⟩ := open_
      subst same
      exact (Act.probeAck n src seq leads answered).leads

theorem requestRead_leads (id : Nat) (asked : cause = .read) : Leads cause r n (n.requestRead id).2 := by
  unfold requestRead
  split
  · exact .refl n
  · next open_ =>
    split
    · exact .refl n
    · next own =>
      have leads : n.role = .leader := by
        by_contra differs
        exact open_ (.inr (.inl differs))
      dsimp only
      refine (Act.read n id asked leads (not_not.mp own)).leads.trans ?_
      split
      · exact .refl _
      · exact broadcastProbe_leads (.inl leads)

theorem onMessage_leads (src : NodeId) (msg : RaftMsg) :
    Leads (.message src msg) n.toRaft n (n.onMessage src msg) := by
  unfold onMessage
  split
  · exact .refl n
  · cases msg with
    | requestVote => exact onRequestVote_leads rfl
    | requestVoteResp => exact onVoteResp_leads rfl rfl rfl
    | appendEntries => exact onAppendEntries_leads rfl rfl
    | appendEntriesResp => exact onAppendResp_leads rfl rfl
    | installSnapshot => exact onInstallSnapshot_leads rfl rfl
    | installSnapshotResp => exact onInstallSnapshotResp_leads rfl rfl
    | readProbe => exact onReadProbe_leads rfl
    | readProbeResp => exact onReadProbeResp_leads rfl
    | preVote term _ lastIndex lastTerm => exact onPreVote_leads src term lastIndex lastTerm
    | preVoteResp term round granted => exact onPreVoteResp_leads src term round granted

theorem onElectionTimer_leads : Leads cause r n n.onElectionTimer := by
  unfold onElectionTimer
  split
  · exact .refl n
  · dsimp only
    have fired : Leads cause r n { n with electionTimer := {} } := disarmElectionTimer_leads n
    refine fired.trans ?_
    split
    · exact .refl _
    · split
      · exact resetElectionTimer_leads _
      · next member =>
        split
        · exact startPreVote_leads (not_not.mp member)
        · exact becomeCandidate_leads (.inl (not_not.mp member))

theorem onHeartbeatTimer_leads (start : n.log = r.log) : Leads cause r n n.onHeartbeatTimer := by
  unfold onHeartbeatTimer
  split
  · exact .refl n
  · dsimp only
    have fired : Leads cause r n { n with heartbeatTimer := {} } :=
      (Act.idle n n.leader n.preVotes n.nextIndex n.lastLeaderContact n.electionTimer {} n.nextTimer
        .inl).leads
    refine fired.trans ?_
    split
    · exact .refl _
    · next leads =>
      have office : InOffice r { n with heartbeatTimer := {} }.toRaft := .inl (not_not.mp leads)
      refine (broadcastAppend_leads office (by rw [start])).trans ?_
      split
      · refine (broadcastProbe_leads ?_).trans (resetHeartbeatTimer_leads _)
        rwa [broadcastAppend_toRaft]
      · exact resetHeartbeatTimer_leads _

theorem onTimer_leads (start : n.log = r.log) (tag : TimerTag) : Leads cause r n (n.onTimer tag) := by
  unfold onTimer
  split
  · exact .refl n
  · cases tag with
    | election => exact onElectionTimer_leads
    | heartbeat => exact onHeartbeatTimer_leads start

theorem propose_leads (start : n.log = r.log) {cmd : Command}
    (plain : cmd.members = none ∨ cause = .membership) : Leads cause r n (n.propose cmd).2 := by
  unfold propose
  split
  · exact .refl n
  · next open_ =>
    have leads : n.role = .leader := by
      by_contra differs
      exact open_ (.inl differs)
    have opened : Leads cause r n _ := replicateOwn_leads leads plain
    have kept := replicateOwn_kept n cmd (n.log.lastIndex + 1)
    dsimp only
    exact opened.trans (broadcastAppend_leads (.inl (kept.1.trans leads)) (kept.2.trans (by rw [start])))

theorem reconfigureOwn_leads (start : n.log = r.log) (leads : n.role = .leader)
    (asked : cause = .membership) (cmd : Command) :
    Leads cause r n ((n.appendEntry (n.ownEntry cmd)).refreshConfig.persistLogFrom (n.log.lastIndex + 1)
      false none 0 unverified).broadcastAppend := by
  have role := appendEntry_role n (n.ownEntry cmd)
  have base := appendEntry_snapshotIndex n (n.ownEntry cmd)
  have appended : Leads cause r n (n.appendEntry (n.ownEntry cmd)) := appendOwn_leads leads (.inr asked)
  refine appended.trans ?_
  generalize n.appendEntry (n.ownEntry cmd) = m at role base ⊢
  obtain ⟨_, _, _, _, kept⟩ := m.refreshConfig_toRaft
  have still : m.refreshConfig.role = .leader := by rw [kept, role, leads]
  obtain ⟨p, raft, _⟩ := m.refreshConfig.persistLogFrom_spec (n.log.lastIndex + 1) false none 0 unverified
  refine (Act.reconfigure m asked).leads.trans
    ((Act.persistOwn _ (n.log.lastIndex + 1) still).leads.trans (broadcastAppend_leads (.inl ?_) ?_))
  · rw [raft, still]
  · rw [raft, kept, base, start]

theorem proposeMembership_leads (start : n.log = r.log) (members : List NodeId)
    (asked : cause = .membership) : Leads cause r n (n.proposeMembership members).2 := by
  simp only [proposeMembership]
  split
  · exact .refl n
  · next open_ =>
    have leads : n.role = .leader := by
      by_contra differs
      exact open_ (.inl differs)
    split
    · exact .refl n
    · split
      · exact .refl n
      · split
        · exact .refl n
        · split
          · exact .refl n
          · exact reconfigureOwn_leads start leads asked _

theorem campaignDurable_leads {term : Nat} {hard : Option HardState} (start : n.log = r.log)
    (role : n.role = r.role) (done : cause = .durable (.campaign term) hard) : Leads cause r n (n.campaignDurable term) := by
  unfold campaignDurable
  split
  · next running =>
    obtain ⟨same, standing⟩ := running
    subst same
    dsimp only
    have asked : Leads cause r n (n.sendAll n.peers
        (.requestVote n.term n.id n.log.lastIndex n.log.lastTerm)) :=
      sendAll_leads fun _ _ => ⟨⟨hard, done⟩, rfl, standing, rfl, rfl, rfl⟩
    have raft := n.sendAll_toRaft n.peers (.requestVote n.term n.id n.log.lastIndex n.log.lastTerm)
    refine asked.trans ?_
    generalize n.sendAll n.peers (.requestVote n.term n.id n.log.lastIndex n.log.lastTerm) = m at raft ⊢
    split
    · next won =>
      refine becomeLeader_leads (role.symm.trans standing) ?_ won ?_ (.inl ⟨hard, ?_⟩)
      · rwa [raft]
      · rw [raft, start]
      · rwa [raft]
    · exact .refl m
  · exact .refl n

theorem logDurable_leads {start index verified : Nat} {replyTo : Option NodeId} {replyTerm : Nat}
    {hard : Option HardState} (role : n.role = r.role)
    (done : cause = .durable (.logDurable start index verified replyTo replyTerm) hard) :
    Leads cause r n (n.logDurable start index verified replyTo replyTerm) := by
  have claimed := (Act.claim (r := r) n start index verified replyTo replyTerm hard done).leads
  obtain ⟨d, parked, raft, _⟩ := n.claimRange_spec start index
  have kept : (n.claimRange start index).role = r.role := by rw [raft, role]
  simp only [logDurable]
  refine claimed.trans ?_
  generalize n.claimRange start index = m at kept ⊢
  have counted : ∀ k : Node, k.role = r.role →
      Leads cause r k (if k.role = .leader then k.maybeCommit else k) := by
    intro k same
    split
    · next leads => exact maybeCommit_leads leads (same.symm.trans leads)
    · exact .refl k
  cases replyTo with
  | none => exact counted m kept
  | some dst =>
    have allowed : Says cause r m.toRaft dst
        (.appendEntriesResp replyTerm true (min m.durableIndex verified) noIndex) :=
      fun _ => .inl ⟨start, index, verified, hard, done, rfl⟩
    exact (send_leads allowed).trans (counted _ (by rw [send_toRaft, kept]))

theorem snapshotInstalled_leads {index term : Nat} {data : Bytes} {file : FileId} {replyTo : NodeId}
    {replyTerm : Nat} {hard : Option HardState} (start : n.log = r.log)
    (done : cause = .durable (.snapshotInstalled index term data file replyTo replyTerm) hard) :
    Leads cause r n (n.snapshotInstalled index term data file replyTo replyTerm) := by
  simp only [snapshotInstalled]
  refine (Act.landed n index term data file replyTo replyTerm hard done).leads.trans ?_
  have log : (n.land file).log = r.log := start
  have landed : (n.land file).durableSnapshotFile = some file := rfl
  generalize n.land file = m at log landed ⊢
  split
  · next late =>
    exact send_leads (.inr (.inr ⟨_, _, _, _, _, done, .inl ⟨rfl, log, late.1, late.2⟩⟩))
  · next wanted =>
    rw [not_and_or, not_not, not_lt] at wanted
    have adopted := (Act.adopt (r := r) m index term data file replyTo replyTerm hard done log landed
      wanted).leads
    exact adopted.trans (send_leads (.inr (.inr ⟨_, _, _, _, _, done, .inr ⟨rfl, m, log, rfl⟩⟩)))

-- What follows a completed batch, once its hard state has been noted.
theorem onDurable_leads (action : Persist) (hard : Option HardState) :
    Leads (.durable action hard) n.toRaft n (n.onDurable action) := by
  cases action with
  | campaign term => exact campaignDurable_leads rfl rfl rfl
  | voteReply dst term granted =>
    refine send_leads fun given => .inl ⟨hard, ?_⟩
    rw [given]
  | reply dst msg =>
    change Leads _ _ _ (n.send dst msg)
    unfold Node.send
    split
    · exact .refl _
    · next durable => exact (Act.deferred _ dst msg hard (not_lt.mp durable) rfl).leads
  | logDurable => exact logDurable_leads rfl rfl
  | snapshotTaken index term file => exact (Act.taken _ index term file hard rfl rfl).leads
  | snapshotInstalled => exact snapshotInstalled_leads rfl rfl
  | quiet => exact .refl _

end

end SimKv
