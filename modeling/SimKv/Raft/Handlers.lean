import SimKv.Raft.Ops

set_option autoImplicit false

/-!
# The entry points of a node

Messages, timers, storage completions, and the calls the server above makes.
-/

namespace SimKv

inductive TimerTag where
  | election
  | heartbeat
  deriving DecidableEq, Repr

namespace Node

variable (n : Node)

def startPreVote : Node :=
  let n := { n with
    role := .follower
    leader := none
    votes := ∅
    preVotes := some {n.id} }.resetElectionTimer
  if n.quorum ≤ n.memberPreVotes then { n with preVotes := none }.becomeCandidate
  else n.sendAll n.peers (.preVote n.term n.id n.log.lastIndex n.log.lastTerm)

def onPreVote (src : NodeId) (term lastIndex lastTerm : Nat) : Node :=
  let granted := decide (n.term ≤ term ∧ n.log.isUpToDate lastIndex lastTerm ∧ ¬ n.leaderIsLive)
  n.send src (.preVoteResp n.term term granted)

def onPreVoteResp (src : NodeId) (term round : Nat) (granted : Bool) : Node :=
  if n.term < term then { n with preVotes := none }.stepDownAndPersist term
  else if round ≠ n.term ∨ n.leader.isSome then
    if n.leader.isSome then { n with preVotes := none } else n
  else
    match n.preVotes with
    | none => n
    | some votes =>
      if granted then
        let n := { n with preVotes := some (insert src votes) }
        if n.quorum ≤ n.memberPreVotes then { n with preVotes := none }.becomeCandidate else n
      else n

def grants (candidate : NodeId) (lastIndex lastTerm : Nat) : Prop :=
  (n.votedFor = none ∨ n.votedFor = some candidate) ∧ n.log.isUpToDate lastIndex lastTerm

instance (candidate : NodeId) (lastIndex lastTerm : Nat) :
    Decidable (n.grants candidate lastIndex lastTerm) := inferInstanceAs (Decidable (_ ∧ _))

def castVote (candidate : NodeId) : Node := { n with votedFor := some candidate }.resetElectionTimer

def answerVote (src : NodeId) (candidate : NodeId) (lastIndex lastTerm : Nat) (dirty : Bool) : Node :=
  if n.grants candidate lastIndex lastTerm then
    if dirty = true ∨ n.votedFor ≠ some candidate then
      (n.castVote candidate).persistHard (.voteReply src n.term true)
    else if n.durableHardState.term ≠ n.term ∨ n.durableHardState.votedFor ≠ some candidate then
      -- the vote is still on its way to disk; the write in flight will answer
      n.castVote candidate
    else (n.castVote candidate).send src (.requestVoteResp n.term true)
  else if dirty then n.persistHard (.voteReply src n.term false)
  else n.send src (.requestVoteResp n.term false)

def onRequestVote (src : NodeId) (term : Nat) (candidate : NodeId) (lastIndex lastTerm : Nat) : Node :=
  if term < n.term then n.send src (.requestVoteResp n.term false)
  else if n.term < term ∧ n.heardFromLeaderRecently then n
  else if n.term < term then (n.stepDown term).answerVote src candidate lastIndex lastTerm true
  else n.answerVote src candidate lastIndex lastTerm false

def onVoteResp (src : NodeId) (term : Nat) (granted : Bool) : Node :=
  if n.term < term then n.stepDownAndPersist term
  else if n.role ≠ .candidate ∨ term ≠ n.term then n
  else if granted then
    let n := { n with votes := insert src n.votes }
    if n.quorum ≤ n.memberVotes then n.becomeLeader else n
  else n

def concede : Node :=
  if n.role ≠ .follower then
    { n with role := .follower, votes := ∅ }.disarmHeartbeatTimer
  else n

def heardFrom (leader : NodeId) : Node :=
  { n with leader := some leader, lastLeaderContact := n.now }.resetElectionTimer

/-- The first entry that is genuinely new, and whether it conflicts with one already held. -/
def firstNew (log : RaftLog) (prevIndex : Nat) : List Entry → Nat → Option (Nat × Bool)
  | [], _ => none
  | e :: rest, i =>
    match log.termAt (prevIndex + 1 + i) with
    | some term => if term = e.term then firstNew log prevIndex rest (i + 1) else some (i, true)
    | none => some (i, false)

def replyInTerm (dirty : Bool) (src : NodeId) (msg : RaftMsg) : Node :=
  if dirty then n.persistHard (.reply src msg) else n.send src msg

def takeEntries (prevIndex : Nat) (entries : List Entry) (i : Nat) (conflict : Bool) : Node :=
  let n := if conflict then n.truncate (prevIndex + 1 + i) else n
  let fresh := entries.drop i
  let n := n.appendAll fresh
  if fresh.any fun e => e.cmd.members.isSome then n.refreshConfig else n

def acceptAppend (src : NodeId) (prevIndex : Nat) (entries : List Entry) (lastNewIndex : Nat)
    (dirty : Bool) : Node :=
  match firstNew n.log prevIndex entries 0 with
  | some (i, conflict) =>
    let n := n.takeEntries prevIndex entries i conflict
    if dirty then
      n.persistHardAndLog (prevIndex + 1 + i) conflict (some src) n.term lastNewIndex
    else
      n.persistLogFrom (prevIndex + 1 + i) conflict (some src) n.term lastNewIndex
  | none =>
    if dirty then
      n.persistHard (.logDurable (n.durableIndex + 1) n.durableIndex lastNewIndex (some src) n.term)
    else
      n.send src (.appendEntriesResp n.term true (min n.durableIndex lastNewIndex) noIndex)

def followCommit (leaderCommit lastNewIndex : Nat) : Node :=
  let newCommit := min (min leaderCommit lastNewIndex) n.log.lastIndex
  if n.commitIndex < leaderCommit ∧ n.commitIndex < newCommit then
    { n with commitIndex := newCommit }
  else n

def appendInTerm (src : NodeId) (prevIndex prevTerm : Nat) (entries : List Entry)
    (leaderCommit : Nat) (dirty : Bool) : Node :=
  let lastNewIndex := prevIndex + entries.length
  let skip := n.log.snapshotIndex - prevIndex
  if prevIndex < n.log.snapshotIndex ∧ entries.length ≤ skip then
    n.replyInTerm dirty src
      (.appendEntriesResp n.term true (min n.durableIndex lastNewIndex) noIndex)
  else
    -- skip the part the snapshot covers
    let covered := decide (prevIndex < n.log.snapshotIndex)
    let prevTerm := if covered then n.log.snapshotTerm else prevTerm
    let entries := if covered then entries.drop skip else entries
    let prevIndex := if covered then n.log.snapshotIndex else prevIndex
    if ¬ n.log.matchesAt prevIndex prevTerm then
      n.replyInTerm dirty src
        (.appendEntriesResp n.term false n.durableIndex (n.conflictHint prevIndex))
    else
      (n.acceptAppend src prevIndex entries lastNewIndex dirty).followCommit leaderCommit lastNewIndex

def onAppendEntries (src : NodeId) (term : Nat) (leader : NodeId) (prevIndex prevTerm : Nat)
    (entries : List Entry) (leaderCommit : Nat) : Node :=
  if term < n.term then n.send src (.appendEntriesResp n.term false noIndex noIndex)
  else
    let dirty := decide (n.term < term)
    let n := if n.term < term then n.stepDown term else n
    (n.concede.heardFrom leader).appendInTerm src prevIndex prevTerm entries leaderCommit dirty

def noteMatch (src : NodeId) (index : Nat) : Node :=
  let m := max ((n.matchIndex src).getD noIndex) index
  { n with
    matchIndex := Function.update n.matchIndex src (some m)
    nextIndex := Function.update n.nextIndex src (some (m + 1)) }.maybeCommit

def onAppendResp (src : NodeId) (term : Nat) (success : Bool) (matchIndex conflictIndex : Nat) :
    Node :=
  if n.term < term then n.stepDownAndPersist term
  else if n.role ≠ .leader ∨ term ≠ n.term then n
  else if success then
    let m := max ((n.matchIndex src).getD noIndex) matchIndex
    let n := n.noteMatch src matchIndex
    if m < n.log.lastIndex then n.sendAppendTo src else n
  else
    let cur := (n.nextIndex src).getD 1
    let next := max (min (max conflictIndex 1) (cur - 1)) 1
    { n with nextIndex := Function.update n.nextIndex src (some next) }.sendAppendTo src

def writeSnapshot (file : FileId) (snap : Snapshot) (action : Persist) : Node :=
  let batch := n.persister.nextId + 1
  let n := n.startBatch action
  let n := (n.setLen file 0).noteWrite batch n.nextOp
  let n := (n.writeAt file 0 snap.encode).noteWrite batch n.nextOp
  { n with persister := n.persister.noteFile batch file }

def claimSnapshot (index : Nat) : Node :=
  { n with
    snapshotSeq := n.snapshotSeq + 1
    highestSnapshot := max n.highestSnapshot index
    snapshotInFlight := true }

def takeSnapshot (data : Bytes) : Node :=
  if ¬ n.wantsSnapshot then n
  else
    let index := n.lastApplied
    match n.log.termAt index with
    | none => n
    | some term =>
      let file := n.nextSnapshotFile
      let image := encodeSnapshotPayload (n.configAt index).1 data
      { n.claimSnapshot index with snapshotData := image }.writeSnapshot file
        { seq := n.snapshotSeq, index, term, data := image } (.snapshotTaken index term file)

def installInTerm (src : NodeId) (index indexTerm : Nat) (data : Bytes) : Node :=
  if index ≤ n.highestSnapshot ∨ index ≤ n.commitIndex then
    n.send src (.installSnapshotResp n.term (min n.log.lastIndex n.lastApplied))
  else if n.snapshotInFlight then n
  else
    let file := n.nextSnapshotFile
    (n.claimSnapshot index).writeSnapshot file
      { seq := n.snapshotSeq, index, term := indexTerm, data }
      (.snapshotInstalled index indexTerm data file src n.term)

def onInstallSnapshot (src : NodeId) (term : Nat) (leader : NodeId) (index indexTerm : Nat)
    (data : Bytes) : Node :=
  if term < n.term then n.send src (.installSnapshotResp n.term noIndex)
  else
    let n := if n.term < term then n.stepDownAndPersist term else n
    (n.concede.heardFrom leader).installInTerm src index indexTerm data

def onInstallSnapshotResp (src : NodeId) (term index : Nat) : Node :=
  if n.term < term then n.stepDownAndPersist term
  else if n.role ≠ .leader ∨ term ≠ n.term then n
  else if noIndex < index then n.noteMatch src index
  else n

def onReadProbe (src : NodeId) (term : Nat) (leader : NodeId) (seq : Nat) : Node :=
  if term < n.term then n.send src (.readProbeResp n.term seq)
  else if n.term < term then
    { n.stepDownAndPersist term with leader := some leader, lastLeaderContact := n.now }
  else if n.role = .leader then n
  else
    let n := if n.role = .candidate then { n with role := .follower, votes := ∅ } else n
    (n.heardFrom leader).send src (.readProbeResp term seq)

def probeAcks (r : Raft) (seq : Nat) : Nat :=
  (r.members.toFinset.filter fun m => ∃ acked ∈ r.probeAcked m, seq ≤ acked).card

def confirmedBy (r : Raft) (seq : Nat) : Prop :=
  r.quorum ≤ (if r.isMember then 1 else 0) + probeAcks r seq

instance (r : Raft) (seq : Nat) : Decidable (confirmedBy r seq) :=
  inferInstanceAs (Decidable (_ ≤ _))

def countProbe (src : NodeId) (seq : Nat) : Node :=
  let acked := max ((n.probeAcked src).getD 0) seq
  let n := { n with probeAcked := Function.update n.probeAcked src (some acked) }
  { n with
    pendingReads := n.pendingReads.map fun read =>
      if read.confirmed = false ∧ confirmedBy n.toRaft read.seq then { read with confirmed := true }
      else read }

def onReadProbeResp (src : NodeId) (term seq : Nat) : Node :=
  if n.term < term then n.stepDownAndPersist term
  else if n.role ≠ .leader ∨ term ≠ n.term then n
  else n.countProbe src seq

def acceptRead (id : Nat) : Node :=
  let seq := n.readSeq + 1
  { n with
    readSeq := seq
    pendingReads := n.pendingReads ++
      [{ id, readIndex := n.commitIndex, seq, confirmed := decide (n.members.length = 1) }]
    readEvents := n.readEvents ++ [.requested id n.commitIndex n.term seq] }

def requestRead (id : Nat) : Bool × Node :=
  if n.cfg.readMode ≠ .readIndex ∨ n.role ≠ .leader ∨ n.failed = true then (false, n)
  else if n.log.termAt n.commitIndex ≠ some n.term then (false, n)
  else
    let n := n.acceptRead id
    (true, if n.members.length = 1 then n else n.broadcastProbe)

def readReady (r : Raft) (read : PendingRead) : Prop :=
  read.confirmed = true ∧ read.readIndex ≤ r.lastApplied

instance (r : Raft) (read : PendingRead) : Decidable (readReady r read) :=
  inferInstanceAs (Decidable (_ ∧ _))

def takeReadyReads : List Nat × Node :=
  if n.role ≠ .leader then ([], n)
  else
    let ready := (n.pendingReads.filter fun read => readReady n.toRaft read).map PendingRead.id
    (ready, { n with
      pendingReads := n.pendingReads.filter fun read => ¬ readReady n.toRaft read
      readEvents := n.readEvents ++ ready.map ReadEvent.served })

def takeFailedReads : List Nat × Node :=
  if n.role = .leader then ([], n)
  else (n.pendingReads.map PendingRead.id, { n with pendingReads := [] })

def onMessage (src : NodeId) (msg : RaftMsg) : Node :=
  if n.failed then n
  else
    match msg with
    | .requestVote term candidate lastIndex lastTerm =>
        n.onRequestVote src term candidate lastIndex lastTerm
    | .requestVoteResp term granted => n.onVoteResp src term granted
    | .appendEntries term leader prevIndex prevTerm entries leaderCommit =>
        n.onAppendEntries src term leader prevIndex prevTerm entries leaderCommit
    | .appendEntriesResp term success matchIndex conflictIndex =>
        n.onAppendResp src term success matchIndex conflictIndex
    | .installSnapshot term leader index indexTerm data =>
        n.onInstallSnapshot src term leader index indexTerm data
    | .installSnapshotResp term index => n.onInstallSnapshotResp src term index
    | .readProbe term leader seq => n.onReadProbe src term leader seq
    | .readProbeResp term seq => n.onReadProbeResp src term seq
    | .preVote term _ lastIndex lastTerm => n.onPreVote src term lastIndex lastTerm
    | .preVoteResp term round granted => n.onPreVoteResp src term round granted

def onElectionTimer : Node :=
  if n.electionTimer.handle = none then n
  else
    let n := { n with electionTimer := {} }
    if n.role = .leader then n
    else if ¬ n.isMember then n.resetElectionTimer
    else if n.cfg.preVote then n.startPreVote
    else n.becomeCandidate

def onHeartbeatTimer : Node :=
  if n.heartbeatTimer.handle = none then n
  else
    let n := { n with heartbeatTimer := {} }
    if n.role ≠ .leader then n
    else
      let n := n.broadcastAppend
      let n := if n.pendingReads.any fun read => !read.confirmed then n.broadcastProbe else n
      n.resetHeartbeatTimer

def onTimer (tag : TimerTag) : Node :=
  if n.failed then n
  else
    match tag with
    | .election => n.onElectionTimer
    | .heartbeat => n.onHeartbeatTimer

def noteDurable (hard : Option HardState) : Node :=
  match hard with
  | none => n
  | some hs =>
    let n := if n.durableHardState.seq ≤ hs.seq then { n with durableHardState := hs } else n
    if n.durableTerm < hs.term then { n with durableTerm := hs.term }.advanceDurable else n

def campaignDurable (term : Nat) : Node :=
  if n.term = term ∧ n.role = .candidate then
    let n := n.sendAll n.peers (.requestVote term n.id n.log.lastIndex n.log.lastTerm)
    if n.quorum ≤ n.memberVotes then n.becomeLeader else n
  else n

def claimRange (start index : Nat) : Node :=
  let index := min index n.log.lastIndex
  if n.durableIndex < index then { n with parked := n.parked ++ [(start, index)] }.advanceDurable
  else n

def logDurable (start index verified : Nat) (replyTo : Option NodeId) (replyTerm : Nat) : Node :=
  let n := n.claimRange start index
  let n := match replyTo with
    | none => n
    | some dst =>
      n.send dst (.appendEntriesResp replyTerm true (min n.durableIndex verified) noIndex)
  if n.role = .leader then n.maybeCommit else n

def snapshotTaken (index term : Nat) (file : FileId) : Node :=
  { n with
    snapshotInFlight := false
    durableSnapshotFile := some file
    snapshotMembers := (n.configAt index).1
    log := n.log.compactTo index term }.refreshConfig

def land (file : FileId) : Node := { n with snapshotInFlight := false, durableSnapshotFile := some file }

def snapshotInstalled (index term : Nat) (data : Bytes) (file : FileId) (replyTo : NodeId)
    (replyTerm : Nat) : Node :=
  let n := n.land file
  if n.log.termAt index ≠ some term ∧ index < n.commitIndex then
    -- the node committed past the snapshot while the write was in flight
    n.send replyTo (.installSnapshotResp replyTerm n.durableIndex)
  else (n.adoptSnapshot index term data).send replyTo (.installSnapshotResp replyTerm index)

def onDurable (action : Persist) : Node :=
  match action with
  | .campaign term => n.campaignDurable term
  | .voteReply dst term granted => n.send dst (.requestVoteResp term granted)
  | .reply dst msg => n.send dst msg
  | .logDurable start index verified replyTo replyTerm =>
      n.logDurable start index verified replyTo replyTerm
  | .snapshotTaken index term file => n.snapshotTaken index term file
  | .snapshotInstalled index term data file replyTo replyTerm =>
      n.snapshotInstalled index term data file replyTo replyTerm
  | .quiet => n

def onStorage (op : OpId) (ok : Bool) : Node :=
  if n.failed then n
  else
    match n.persister.onComplete op ok with
    | (.nothing, p) => { n with persister := p }
    | (.failed, p) => { n with persister := p, failed := true }
    | (.needSync id file, p) =>
        { n.sync file with persister := p.noteSync id n.nextOp }
    | (.done action hard, p) => ({ n with persister := p }.noteDurable hard).onDurable action

def propose (cmd : Command) : Option Nat × Node :=
  if n.role ≠ .leader ∨ n.failed = true then (none, n)
  else
    let index := n.log.lastIndex + 1
    (some index, n.appendEntry (n.ownEntry cmd)
      |>.persistLogFrom index false none 0 unverified
      |>.broadcastAppend)

def configClient : Nat := 2 ^ 32 - 2

def proposeMembership (members : List NodeId) : Except String Nat × Node :=
  if n.role ≠ .leader ∨ n.failed = true then (.error "not the leader", n)
  else if n.log.termAt n.commitIndex ≠ some n.term then
    (.error "no entry of this term committed yet", n)
  else if n.commitIndex < n.configIndex then (.error "a membership change is already in progress", n)
  else
    let members := (members.insertionSort (· ≤ ·)).dedup
    let added := members.filter fun m => m ∉ n.members
    let removed := n.members.filter fun m => m ∉ members
    if members = [] then (.error "a cluster needs at least one member", n)
    else if added.length + removed.length ≠ 1 then (.error "change exactly one server at a time", n)
    else
      let index := n.log.lastIndex + 1
      let cmd := { client := configClient, seq := index, op := .setMembers members }
      (.ok index, n.appendEntry (n.ownEntry cmd)
        |>.refreshConfig
        |>.persistLogFrom index false none 0 unverified
        |>.broadcastAppend)

def takeAppliedGo (log : RaftLog) : Nat → Nat → List Entry × Nat
  | 0, applied => ([], applied)
  | fuel + 1, applied =>
    match log.get (applied + 1) with
    | some e =>
      let rest := takeAppliedGo log fuel (applied + 1)
      (e :: rest.1, rest.2)
    | none => ([], applied)

def takeApplied : List Entry × Node :=
  let start := max n.lastApplied n.log.snapshotIndex
  let result := takeAppliedGo n.log (n.commitIndex - start) start
  (result.1, { n with lastApplied := result.2 })

def takePendingRestore : Option Bytes × Node := (n.pendingRestore, { n with pendingRestore := none })

end Node

end SimKv
