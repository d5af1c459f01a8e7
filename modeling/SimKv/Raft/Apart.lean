import SimKv.Raft.Acts

set_option autoImplicit false

/-!
# What leaves a round of pre-votes alone

All a node does but three things: start a round, answer a question, count an answer.
-/

namespace SimKv

def RaftMsg.Polls : RaftMsg → Prop
  | .preVote .. | .preVoteResp .. => True
  | _ => False

namespace Node

/-- From `n` to `m` nothing is said or counted in a round of pre-votes, and the term moves, if at all, up to `t`. -/
structure Apart (t : Nat) (n m : Node) : Prop where
  id : m.id = n.id
  cfg : m.cfg = n.cfg
  preVotes : m.preVotes = n.preVotes
  term : m.term = n.term ∨ n.term < t ∧ m.term = t
  durable : n.durableTerm ≤ m.durableTerm
  said : ∃ more, m.moments = n.moments ++ more ∧ ∀ moment ∈ more, ¬ moment.msg.Polls

variable {t : Nat} {n m k : Node}

theorem Apart.still (id : m.id = n.id) (cfg : m.cfg = n.cfg) (preVotes : m.preVotes = n.preVotes)
    (term : m.term = n.term) (durable : m.durableTerm = n.durableTerm) (same : m.moments = n.moments) :
    Apart t n m :=
  ⟨id, cfg, preVotes, .inl term, durable.ge, [], by rw [same, List.append_nil], by simp⟩

theorem Apart.refl (n : Node) : Apart t n n := .still rfl rfl rfl rfl rfl rfl

theorem Apart.trans (first : Apart t n m) (second : Apart t m k) : Apart t n k where
  id := second.id.trans first.id
  cfg := second.cfg.trans first.cfg
  preVotes := second.preVotes.trans first.preVotes
  term := by
    have one := first.term
    have two := second.term
    omega
  durable := first.durable.trans second.durable
  said := by
    obtain ⟨more, same, quiet⟩ := first.said
    obtain ⟨rest, same', quiet'⟩ := second.said
    refine ⟨more ++ rest, by rw [same', same, List.append_assoc], fun moment member => ?_⟩
    obtain old | new := List.mem_append.mp member
    · exact quiet moment old
    · exact quiet' moment new

theorem ioSend_apart (n : Node) (dst : NodeId) {msg : RaftMsg} (plain : ¬ msg.Polls) : Apart t n (n.ioSend dst msg) := by
  unfold ioSend
  split
  · exact .refl n
  · exact ⟨rfl, rfl, rfl, .inl rfl, le_rfl, _, rfl, by simpa using plain⟩

theorem send_apart (n : Node) (dst : NodeId) {msg : RaftMsg} (plain : ¬ msg.Polls) : Apart t n (n.send dst msg) := by
  unfold send
  split
  · exact .refl n
  · exact n.ioSend_apart dst plain

theorem sendAll_apart (n : Node) (dsts : List NodeId) {msg : RaftMsg} (plain : ¬ msg.Polls) :
    Apart t n (n.sendAll dsts msg) := by
  unfold sendAll
  induction dsts generalizing n with
  | nil => exact .refl n
  | cons dst rest ih => exact (n.send_apart dst plain).trans (ih _)

theorem sendAppendTo_apart (n : Node) (dst : NodeId) : Apart t n (n.sendAppendTo dst) := by
  simp only [sendAppendTo]
  split
  · exact n.send_apart dst id
  · split
    · exact .refl n
    · exact n.send_apart dst id

theorem broadcastAppend_apart (n : Node) : Apart t n n.broadcastAppend := by
  unfold broadcastAppend
  generalize n.peers = dsts
  induction dsts generalizing n with
  | nil => exact .refl n
  | cons dst rest ih => exact (n.sendAppendTo_apart dst).trans (ih _)

theorem broadcastProbe_apart (n : Node) : Apart t n n.broadcastProbe := n.sendAll_apart _ id

theorem persistHard_apart (n : Node) (action : Persist) : Apart t n (n.persistHard action) :=
  .still rfl rfl rfl rfl rfl rfl

theorem writeLogFrom_apart (n : Node) (batch start : Nat) (truncated : Bool) :
    Apart t n (n.writeLogFrom batch start truncated) := by
  simp only [writeLogFrom]
  split <;> split <;> exact .still rfl rfl rfl rfl rfl rfl

theorem persistLogFrom_apart (n : Node) (start : Nat) (truncated : Bool) (replyTo : Option NodeId)
    (replyTerm verified : Nat) : Apart t n (n.persistLogFrom start truncated replyTo replyTerm verified) := by
  unfold persistLogFrom
  refine .trans ?_ (writeLogFrom_apart ..)
  exact .still rfl rfl rfl rfl rfl rfl

theorem persistHardAndLog_apart (n : Node) (start : Nat) (truncated : Bool) (replyTo : Option NodeId)
    (replyTerm verified : Nat) : Apart t n (n.persistHardAndLog start truncated replyTo replyTerm verified) := by
  unfold persistHardAndLog
  refine .trans ?_ (writeLogFrom_apart ..)
  exact .still rfl rfl rfl rfl rfl rfl

theorem writeSnapshot_apart (n : Node) (file : FileId) (snap : Snapshot) (action : Persist) :
    Apart t n (n.writeSnapshot file snap action) := by
  simp only [writeSnapshot]
  have opened : Apart t n (n.startBatch action) := .still rfl rfl rfl rfl rfl rfl
  generalize n.startBatch action = m at opened ⊢
  have emptied : Apart t m (m.setLen file 0) := .still rfl rfl rfl rfl rfl rfl
  generalize m.setLen file 0 = k at emptied ⊢
  refine (opened.trans emptied).trans ?_
  exact .still rfl rfl rfl rfl rfl rfl

theorem advanceDurable_apart (n : Node) : Apart t n n.advanceDurable := .still rfl rfl rfl rfl rfl rfl

theorem noteDurable_apart (n : Node) (hard : Option HardState) : Apart t n (n.noteDurable hard) := by
  cases hard with
  | none => exact .refl n
  | some hs =>
    have noted : Apart t n (if n.durableHardState.seq ≤ hs.seq then { n with durableHardState := hs } else n) := by
      split
      · exact .still rfl rfl rfl rfl rfl rfl
      · exact .refl n
    simp only [noteDurable]
    generalize (if n.durableHardState.seq ≤ hs.seq then { n with durableHardState := hs } else n) = m at noted ⊢
    refine noted.trans ?_
    split
    · next newer =>
      have raised : Apart t m { m with durableTerm := hs.term } :=
        ⟨rfl, rfl, rfl, .inl rfl, newer.le, [], (List.append_nil _).symm, by simp⟩
      exact raised.trans (advanceDurable_apart _)
    · exact .refl m

theorem claimRange_apart (n : Node) (start index : Nat) : Apart t n (n.claimRange start index) := by
  simp only [claimRange]
  split
  · refine .trans ?_ (advanceDurable_apart _)
    exact .still rfl rfl rfl rfl rfl rfl
  · exact .refl n

theorem refreshConfig_apart (n : Node) : Apart t n n.refreshConfig := by
  simp only [refreshConfig]
  split <;> exact .still rfl rfl rfl rfl rfl rfl

theorem appendEntry_apart (n : Node) (e : Entry) : Apart t n (n.appendEntry e) := by
  unfold appendEntry
  split <;> exact .still rfl rfl rfl rfl rfl rfl

theorem appendAll_apart (n : Node) (entries : List Entry) : Apart t n (n.appendAll entries) := by
  unfold appendAll
  induction entries generalizing n with
  | nil => exact .refl n
  | cons e rest ih => exact (n.appendEntry_apart e).trans (ih _)

theorem truncate_apart (n : Node) (at_ : Nat) : Apart t n (n.truncate at_) := by
  simp only [truncate]
  split
  · refine .trans ?_ (.trans (refreshConfig_apart _) (.still rfl rfl rfl rfl rfl rfl))
    exact .still rfl rfl rfl rfl rfl rfl
  · refine .trans ?_ (.trans (refreshConfig_apart _) (.still rfl rfl rfl rfl rfl rfl))
    exact .still rfl rfl rfl rfl rfl rfl

theorem takeEntries_apart (n : Node) (prevIndex : Nat) (entries : List Entry) (i : Nat) (conflict : Bool) :
    Apart t n (n.takeEntries prevIndex entries i conflict) := by
  have cut : Apart t n (if conflict then n.truncate (prevIndex + 1 + i) else n) := by
    split
    · exact n.truncate_apart _
    · exact .refl n
  simp only [takeEntries]
  generalize (if conflict then n.truncate (prevIndex + 1 + i) else n) = m at cut ⊢
  refine cut.trans ((m.appendAll_apart (entries.drop i)).trans ?_)
  split
  · exact refreshConfig_apart _
  · exact .refl _

theorem followCommit_apart (n : Node) (leaderCommit lastNew : Nat) : Apart t n (n.followCommit leaderCommit lastNew) := by
  simp only [followCommit]
  split <;> exact .still rfl rfl rfl rfl rfl rfl

theorem stepAsideIfRemoved_apart (n : Node) : Apart t n n.stepAsideIfRemoved := by
  unfold stepAsideIfRemoved
  split <;> exact .still rfl rfl rfl rfl rfl rfl

theorem maybeCommit_apart (n : Node) : Apart t n n.maybeCommit := by
  unfold maybeCommit
  split
  · exact .still rfl rfl rfl rfl rfl rfl
  · split
    · refine .trans ?_ (stepAsideIfRemoved_apart _)
      exact .still rfl rfl rfl rfl rfl rfl
    · exact .refl n

theorem noteMatch_apart (n : Node) (src : NodeId) (index : Nat) : Apart t n (n.noteMatch src index) := by
  unfold noteMatch
  refine .trans ?_ (maybeCommit_apart _)
  exact .still rfl rfl rfl rfl rfl rfl

theorem adoptLog_apart (n : Node) (index term : Nat) : Apart t n (n.adoptLog index term) := by
  unfold adoptLog
  split <;> exact .still rfl rfl rfl rfl rfl rfl

theorem adoptSnapshot_apart (n : Node) (index term : Nat) (data : Bytes) :
    Apart t n (n.adoptSnapshot index term data) := by
  simp only [adoptSnapshot]
  generalize (decodeSnapshotPayload data).getD (n.baseConfig, []) = image
  have staged : Apart t n (n.stageImage index data image.2) := .still rfl rfl rfl rfl rfl rfl
  refine staged.trans ((adoptLog_apart _ index term).trans ?_)
  generalize (n.stageImage index data image.2).adoptLog index term = m
  have named : Apart t m { m with snapshotMembers := image.1 } := .still rfl rfl rfl rfl rfl rfl
  refine (named.trans (refreshConfig_apart _)).trans ?_
  change Apart t (m.setSnapshotMembers image.1) _
  generalize m.setSnapshotMembers image.1 = k
  refine .trans (m := { k with durableIndex := min (max k.durableIndex index) k.log.lastIndex }) ?_
    (.trans (advanceDurable_apart _) ?_)
  · exact .still rfl rfl rfl rfl rfl rfl
  · exact .still rfl rfl rfl rfl rfl rfl

theorem stepDown_apart (n : Node) (newer : n.term < t) : Apart t n (n.stepDown t) :=
  ⟨rfl, rfl, rfl, .inr ⟨newer, rfl⟩, le_rfl, [], (List.append_nil _).symm, by simp⟩

theorem stepDownAndPersist_apart (n : Node) (newer : n.term < t) : Apart t n (n.stepDownAndPersist t) :=
  (n.stepDown_apart newer).trans (persistHard_apart ..)

theorem becomeLeader_apart (n : Node) : Apart t n n.becomeLeader := by
  simp only [becomeLeader]
  have office : Apart t n n.takeOffice := .still rfl rfl rfl rfl rfl rfl
  have begun : Apart t n ((n.takeOffice.appendEntry (n.ownEntry Command.noop)).persistLogFrom (n.log.lastIndex + 1)
      false none 0 unverified) := office.trans ((appendEntry_apart ..).trans (persistLogFrom_apart ..))
  generalize (n.takeOffice.appendEntry (n.ownEntry Command.noop)).persistLogFrom (n.log.lastIndex + 1) false none 0
    unverified = m at begun ⊢
  have disarmed : Apart t m m.disarmElectionTimer := .still rfl rfl rfl rfl rfl rfl
  refine begun.trans (disarmed.trans ((broadcastAppend_apart m.disarmElectionTimer).trans ?_))
  exact .still rfl rfl rfl rfl rfl rfl

theorem castVote_apart (n : Node) (candidate : NodeId) : Apart t n (n.castVote candidate) :=
  .still rfl rfl rfl rfl rfl rfl

theorem answerVote_apart (n : Node) (src candidate : NodeId) (lastIndex lastTerm : Nat) (dirty : Bool) :
    Apart t n (n.answerVote src candidate lastIndex lastTerm dirty) := by
  unfold answerVote
  split
  · refine (n.castVote_apart candidate).trans ?_
    split
    · exact persistHard_apart ..
    · split
      · exact .refl _
      · exact send_apart _ _ id
  · split
    · exact persistHard_apart ..
    · exact send_apart _ _ id

theorem onRequestVote_apart (n : Node) (src candidate : NodeId) (lastIndex lastTerm : Nat) :
    Apart t n (n.onRequestVote src t candidate lastIndex lastTerm) := by
  unfold onRequestVote
  split
  · exact send_apart _ _ id
  · split
    · exact .refl n
    · split
      · next newer => exact (n.stepDown_apart newer).trans (answerVote_apart ..)
      · exact answerVote_apart ..

theorem onVoteResp_apart (n : Node) (src : NodeId) (granted : Bool) : Apart t n (n.onVoteResp src t granted) := by
  simp only [onVoteResp]
  split
  · next newer => exact n.stepDownAndPersist_apart newer
  · split
    · exact .refl n
    · split
      · have counted : Apart t n { n with votes := insert src n.votes } := .still rfl rfl rfl rfl rfl rfl
        refine counted.trans ?_
        split
        · exact becomeLeader_apart _
        · exact .refl _
      · exact .refl n

theorem concede_apart (n : Node) : Apart t n n.concede := by
  unfold concede
  split <;> exact .still rfl rfl rfl rfl rfl rfl

theorem heardFrom_apart (n : Node) (leader : NodeId) : Apart t n (n.heardFrom leader) :=
  .still rfl rfl rfl rfl rfl rfl

theorem replyInTerm_apart (n : Node) (dirty : Bool) (src : NodeId) {msg : RaftMsg} (plain : ¬ msg.Polls) :
    Apart t n (n.replyInTerm dirty src msg) := by
  unfold replyInTerm
  split
  · exact persistHard_apart ..
  · exact send_apart _ _ plain

theorem acceptAppend_apart (n : Node) (src : NodeId) (prevIndex : Nat) (entries : List Entry) (lastNew : Nat)
    (dirty : Bool) : Apart t n (n.acceptAppend src prevIndex entries lastNew dirty) := by
  simp only [acceptAppend]
  split
  · next i conflict _ =>
    refine (n.takeEntries_apart prevIndex entries i conflict).trans ?_
    split
    · exact persistHardAndLog_apart ..
    · exact persistLogFrom_apart ..
  · split
    · exact persistHard_apart ..
    · exact send_apart _ _ id

theorem checkAppend_apart (n : Node) (src : NodeId) (prevIndex prevTerm : Nat) (entries : List Entry)
    (lastNew leaderCommit : Nat) (dirty : Bool) : Apart t n (if ¬ n.log.matchesAt prevIndex prevTerm then
        n.replyInTerm dirty src (.appendEntriesResp n.term false n.durableIndex (n.conflictHint prevIndex))
      else (n.acceptAppend src prevIndex entries lastNew dirty).followCommit leaderCommit lastNew) := by
  split
  · exact replyInTerm_apart _ _ _ id
  · exact (n.acceptAppend_apart src prevIndex entries lastNew dirty).trans (followCommit_apart ..)

theorem appendInTerm_apart (n : Node) (src : NodeId) (prevIndex prevTerm : Nat) (entries : List Entry)
    (leaderCommit : Nat) (dirty : Bool) :
    Apart t n (n.appendInTerm src prevIndex prevTerm entries leaderCommit dirty) := by
  unfold appendInTerm
  dsimp only
  split
  · exact replyInTerm_apart _ _ _ id
  · exact checkAppend_apart ..

theorem onAppendEntries_apart (n : Node) (src leader : NodeId) (prevIndex prevTerm : Nat) (entries : List Entry)
    (leaderCommit : Nat) : Apart t n (n.onAppendEntries src t leader prevIndex prevTerm entries leaderCommit) := by
  simp only [onAppendEntries]
  split
  · exact send_apart _ _ id
  · have settled : Apart t n (if n.term < t then n.stepDown t else n) := by
      split
      · next newer => exact n.stepDown_apart newer
      · exact .refl n
    refine settled.trans ?_
    exact (concede_apart _).trans ((heardFrom_apart ..).trans (appendInTerm_apart ..))

theorem onAppendResp_apart (n : Node) (src : NodeId) (success : Bool) (matchIndex conflictIndex : Nat) :
    Apart t n (n.onAppendResp src t success matchIndex conflictIndex) := by
  simp only [onAppendResp]
  split
  · next newer => exact n.stepDownAndPersist_apart newer
  · split
    · exact .refl n
    · split
      · refine (n.noteMatch_apart src matchIndex).trans ?_
        split
        · exact sendAppendTo_apart ..
        · exact .refl _
      · refine .trans ?_ (sendAppendTo_apart ..)
        exact .still rfl rfl rfl rfl rfl rfl

theorem installInTerm_apart (n : Node) (src : NodeId) (index indexTerm : Nat) (data : Bytes) :
    Apart t n (n.installInTerm src index indexTerm data) := by
  simp only [installInTerm]
  split
  · exact send_apart _ _ id
  · split
    · exact .refl n
    · have claimed : Apart t n (n.claimSnapshot index) := .still rfl rfl rfl rfl rfl rfl
      exact claimed.trans (writeSnapshot_apart ..)

theorem onInstallSnapshot_apart (n : Node) (src leader : NodeId) (index indexTerm : Nat) (data : Bytes) :
    Apart t n (n.onInstallSnapshot src t leader index indexTerm data) := by
  simp only [onInstallSnapshot]
  split
  · exact send_apart _ _ id
  · have settled : Apart t n (if n.term < t then n.stepDownAndPersist t else n) := by
      split
      · next newer => exact n.stepDownAndPersist_apart newer
      · exact .refl n
    refine settled.trans ?_
    exact (concede_apart _).trans ((heardFrom_apart ..).trans (installInTerm_apart ..))

theorem onInstallSnapshotResp_apart (n : Node) (src : NodeId) (index : Nat) :
    Apart t n (n.onInstallSnapshotResp src t index) := by
  unfold onInstallSnapshotResp
  split
  · next newer => exact n.stepDownAndPersist_apart newer
  · split
    · exact .refl n
    · split
      · exact noteMatch_apart ..
      · exact .refl n

theorem onReadProbe_apart (n : Node) (src leader : NodeId) (seq : Nat) : Apart t n (n.onReadProbe src t leader seq) := by
  simp only [onReadProbe]
  split
  · exact send_apart _ _ id
  · split
    · next newer =>
      refine (n.stepDownAndPersist_apart newer).trans ?_
      exact .still rfl rfl rfl rfl rfl rfl
    · split
      · exact .refl n
      · have yielded : Apart t n (if n.role = .candidate then { n with role := .follower, votes := ∅ } else n) := by
          split <;> exact .still rfl rfl rfl rfl rfl rfl
        exact yielded.trans ((heardFrom_apart ..).trans (send_apart _ _ id))

theorem onReadProbeResp_apart (n : Node) (src : NodeId) (seq : Nat) : Apart t n (n.onReadProbeResp src t seq) := by
  unfold onReadProbeResp
  split
  · next newer => exact n.stepDownAndPersist_apart newer
  · split
    · exact .refl n
    · exact .still rfl rfl rfl rfl rfl rfl

theorem onMessage_apart (n : Node) (src : NodeId) {msg : RaftMsg} (plain : ¬ msg.Polls) :
    Apart msg.term n (n.onMessage src msg) := by
  unfold onMessage
  split
  · exact .refl n
  · cases msg with
    | requestVote => exact onRequestVote_apart ..
    | requestVoteResp => exact onVoteResp_apart ..
    | appendEntries => exact onAppendEntries_apart ..
    | appendEntriesResp => exact onAppendResp_apart ..
    | installSnapshot => exact onInstallSnapshot_apart ..
    | installSnapshotResp => exact onInstallSnapshotResp_apart ..
    | readProbe => exact onReadProbe_apart ..
    | readProbeResp => exact onReadProbeResp_apart ..
    | preVote | preVoteResp => exact absurd trivial plain

def StartsRound (n : Node) : Prop :=
  n.failed = false ∧ n.electionTimer.handle ≠ none ∧ n.role ≠ .leader ∧ n.isMember ∧ n.cfg.preVote = true

instance (n : Node) : Decidable n.StartsRound := inferInstanceAs (Decidable (_ ∧ _))

theorem onTimer_starts (starts : n.StartsRound) :
    n.onTimer .election = { n with electionTimer := {} }.startPreVote := by
  obtain ⟨running, armed, role, member, asks⟩ := starts
  simp only [onTimer, running, Bool.false_eq_true, if_false, onElectionTimer, if_neg armed, if_neg role, if_pos asks]
  exact if_neg (not_not.mpr member)

theorem onTimer_apart (n : Node) (tag : TimerTag) (asks : n.cfg.preVote = true)
    (idle : tag = .election → ¬ n.StartsRound) : Apart t n (n.onTimer tag) := by
  unfold onTimer
  split
  · exact .refl n
  · next running =>
    cases tag with
    | election =>
      simp only [onElectionTimer]
      split
      · exact .refl n
      · next armed =>
        have disarmed : Apart t n { n with electionTimer := {} } := .still rfl rfl rfl rfl rfl rfl
        refine disarmed.trans ?_
        split
        · exact .refl _
        · next role =>
          split
          · exact .still rfl rfl rfl rfl rfl rfl
          · next member =>
            refine absurd ⟨?_, armed, role, not_not.mp member, asks⟩ (idle rfl)
            simpa using running
    | heartbeat =>
      simp only [onHeartbeatTimer]
      split
      · exact .refl n
      · have disarmed : Apart t n { n with heartbeatTimer := {} } := .still rfl rfl rfl rfl rfl rfl
        refine disarmed.trans ?_
        generalize ({ n with heartbeatTimer := {} } : Node) = m
        split
        · exact .refl m
        · refine (broadcastAppend_apart m).trans ?_
          generalize m.broadcastAppend = k
          refine .trans (m := if k.pendingReads.any fun read => !read.confirmed then k.broadcastProbe else k) ?_ ?_
          · split
            · exact broadcastProbe_apart k
            · exact .refl k
          · exact .still rfl rfl rfl rfl rfl rfl

theorem onDurable_apart (n : Node) {action : Persist} (plain : ∀ dst msg, action = .reply dst msg → ¬ msg.Polls) :
    Apart t n (n.onDurable action) := by
  cases action with
  | campaign term =>
    simp only [onDurable, campaignDurable]
    split
    · have told : Apart t n (n.sendAll n.peers (.requestVote term n.id n.log.lastIndex n.log.lastTerm)) :=
        n.sendAll_apart _ id
      refine told.trans ?_
      split
      · exact becomeLeader_apart _
      · exact .refl _
    · exact .refl n
  | voteReply dst term granted => exact send_apart _ _ id
  | reply dst msg => exact send_apart _ _ (plain dst msg rfl)
  | logDurable start index verified replyTo replyTerm =>
    simp only [onDurable, logDurable]
    have claimed : Apart t n (n.claimRange start index) := claimRange_apart ..
    generalize n.claimRange start index = m at claimed ⊢
    have counted : ∀ k : Node, Apart t k (if k.role = .leader then k.maybeCommit else k) := by
      intro k
      split
      · exact k.maybeCommit_apart
      · exact .refl k
    cases replyTo with
    | none => exact claimed.trans (counted m)
    | some dst => exact claimed.trans ((m.send_apart dst id).trans (counted _))
  | snapshotTaken index term file =>
    simp only [onDurable, snapshotTaken]
    refine .trans ?_ (refreshConfig_apart _)
    exact .still rfl rfl rfl rfl rfl rfl
  | snapshotInstalled index term data file replyTo replyTerm =>
    simp only [onDurable, snapshotInstalled]
    have landed : Apart t n (n.land file) := .still rfl rfl rfl rfl rfl rfl
    refine landed.trans ?_
    split
    · exact send_apart _ _ id
    · exact (adoptSnapshot_apart ..).trans (send_apart _ _ id)
  | quiet => exact .refl n

theorem onStorage_apart (n : Node) (op : OpId) (ok : Bool)
    (plain : ∀ dst msg hard, (n.persister.onComplete op ok).1 = .done (.reply dst msg) hard → ¬ msg.Polls) :
    Apart t n (n.onStorage op ok) := by
  unfold onStorage
  split
  · exact .refl n
  · rcases completed : n.persister.onComplete op ok with ⟨event, p⟩
    rw [completed] at plain
    cases event with
    | nothing => exact .still rfl rfl rfl rfl rfl rfl
    | failed => exact .still rfl rfl rfl rfl rfl rfl
    | needSync id file => exact .still rfl rfl rfl rfl rfl rfl
    | done action hard =>
      have booked : Apart t n { n with persister := p } := .still rfl rfl rfl rfl rfl rfl
      refine booked.trans ((noteDurable_apart ..).trans (onDurable_apart _ ?_))
      rintro dst msg rfl
      exact plain dst msg hard rfl

theorem propose_apart (n : Node) (cmd : Command) : Apart t n (n.propose cmd).2 := by
  simp only [propose]
  split
  · exact .refl n
  · exact (appendEntry_apart _ _).trans ((persistLogFrom_apart ..).trans (broadcastAppend_apart _))

theorem proposeMembership_apart (n : Node) (members : List NodeId) : Apart t n (n.proposeMembership members).2 := by
  simp only [proposeMembership]
  split
  · exact .refl n
  · split
    · exact .refl n
    · split
      · exact .refl n
      · split
        · exact .refl n
        · split
          · exact .refl n
          · exact (appendEntry_apart _ _).trans ((refreshConfig_apart _).trans
              ((persistLogFrom_apart ..).trans (broadcastAppend_apart _)))

theorem requestRead_apart (n : Node) (id : Nat) : Apart t n (n.requestRead id).2 := by
  simp only [requestRead]
  split
  · exact .refl n
  · split
    · exact .refl n
    · have accepted : Apart t n (n.acceptRead id) := .still rfl rfl rfl rfl rfl rfl
      refine accepted.trans ?_
      split
      · exact .refl _
      · exact broadcastProbe_apart _

theorem takeSnapshot_apart (n : Node) (data : Bytes) : Apart t n (n.takeSnapshot data) := by
  simp only [takeSnapshot]
  split
  · exact .refl n
  · split
    · exact .refl n
    · refine .trans ?_ (writeSnapshot_apart ..)
      exact .still rfl rfl rfl rfl rfl rfl

end Node

end SimKv
