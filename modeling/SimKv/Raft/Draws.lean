import SimKv.Server

set_option autoImplicit false

/-!
# Where entries come from

A handler adds to a log what the message it answers brings, the command it is asked to propose, and the no-op of a
new leader. It sends nothing that is not in its log before or after.
-/

namespace SimKv

namespace Node

structure Draws (new : Entry → Prop) (n m : Node) : Prop where
  mem : ∀ e ∈ m.log.entries, e ∈ n.log.entries ∨ new e

variable {new : Entry → Prop} {n m k : Node}

theorem Draws.still (same : m.log = n.log) : Draws new n m := ⟨fun _ member => .inl (same ▸ member)⟩

theorem Draws.refl (n : Node) : Draws new n n := .still rfl

theorem Draws.trans (first : Draws new n m) (second : Draws new m k) : Draws new n k :=
  ⟨fun e member => (second.mem e member).elim (first.mem e) .inr⟩

theorem send_draws (n : Node) (dst : NodeId) (msg : RaftMsg) : Draws new n (n.send dst msg) :=
  .still (congrArg Raft.log (n.send_toRaft dst msg))

theorem sendAll_draws (n : Node) (dsts : List NodeId) (msg : RaftMsg) : Draws new n (n.sendAll dsts msg) :=
  .still (congrArg Raft.log (n.sendAll_toRaft dsts msg))

theorem broadcastAppend_draws (n : Node) : Draws new n n.broadcastAppend :=
  .still (congrArg Raft.log n.broadcastAppend_toRaft)

theorem sendAppendTo_draws (n : Node) (dst : NodeId) : Draws new n (n.sendAppendTo dst) :=
  .still (congrArg Raft.log (n.sendAppendTo_toRaft dst))

theorem persistHard_draws (n : Node) (action : Persist) : Draws new n (n.persistHard action) := .still rfl

theorem persistLogFrom_draws (n : Node) (start : Nat) (truncated : Bool) (replyTo : Option NodeId)
    (replyTerm verified : Nat) : Draws new n (n.persistLogFrom start truncated replyTo replyTerm verified) := by
  obtain ⟨_, raft, _⟩ := n.persistLogFrom_spec start truncated replyTo replyTerm verified
  exact .still (by rw [raft])

theorem persistHardAndLog_draws (n : Node) (start : Nat) (truncated : Bool) (replyTo : Option NodeId)
    (replyTerm verified : Nat) : Draws new n (n.persistHardAndLog start truncated replyTo replyTerm verified) := by
  obtain ⟨_, raft⟩ := n.persistHardAndLog_toRaft start truncated replyTo replyTerm verified
  exact .still (by rw [raft])

theorem writeSnapshot_draws (n : Node) (file : FileId) (snap : Snapshot) (action : Persist) :
    Draws new n (n.writeSnapshot file snap action) := by
  obtain ⟨_, raft⟩ := n.writeSnapshot_toRaft file snap action
  exact .still (by rw [raft])

theorem noteDurable_draws (n : Node) (hard : Option HardState) : Draws new n (n.noteDurable hard) := by
  cases hard with
  | none => exact .refl n
  | some hs =>
    obtain ⟨_, _, raft, _⟩ := n.noteDurable_spec hs
    exact .still (by rw [raft])

theorem claimRange_draws (n : Node) (start index : Nat) : Draws new n (n.claimRange start index) := by
  obtain ⟨_, _, raft, _⟩ := n.claimRange_spec start index
  exact .still (by rw [raft])

theorem refreshConfig_draws (n : Node) : Draws new n n.refreshConfig := by
  obtain ⟨_, _, _, _, raft⟩ := n.refreshConfig_toRaft
  exact .still (by rw [raft])

theorem followCommit_draws (n : Node) (leaderCommit lastNew : Nat) :
    Draws new n (n.followCommit leaderCommit lastNew) := by
  obtain ⟨_, same, _⟩ := n.followCommit_spec leaderCommit lastNew
  exact .still (by rw [same])

theorem maybeCommit_draws (n : Node) : Draws new n n.maybeCommit := by
  unfold maybeCommit
  split
  · exact .still rfl
  · split
    · unfold stepAsideIfRemoved
      split <;> exact .still rfl
    · exact .refl n

theorem noteMatch_draws (n : Node) (src : NodeId) (index : Nat) : Draws new n (n.noteMatch src index) := by
  unfold noteMatch
  refine .trans ?_ (maybeCommit_draws _)
  exact .still rfl

theorem replyInTerm_draws (n : Node) (dirty : Bool) (src : NodeId) (msg : RaftMsg) :
    Draws new n (n.replyInTerm dirty src msg) := by
  unfold replyInTerm
  split
  · exact persistHard_draws ..
  · exact send_draws ..

theorem stepDownAndPersist_draws (n : Node) (term : Nat) : Draws new n (n.stepDownAndPersist term) := .still rfl

theorem appendEntry_draws (n : Node) {e : Entry} (here : new e) : Draws new n (n.appendEntry e) := by
  unfold appendEntry
  split
  · refine ⟨fun other member => ?_⟩
    rcases List.mem_append.mp member with old | added
    · exact .inl old
    · rw [List.mem_singleton.mp added]
      exact .inr here
  · exact .still rfl

theorem appendAll_draws (n : Node) (entries : List Entry) (here : ∀ e ∈ entries, new e) :
    Draws new n (n.appendAll entries) := by
  unfold appendAll
  induction entries generalizing n with
  | nil => exact .refl n
  | cons e rest ih =>
    obtain ⟨first, later⟩ := List.forall_mem_cons.mp here
    exact (n.appendEntry_draws first).trans (ih _ later)

theorem truncate_draws (n : Node) (at_ : Nat) : Draws new n (n.truncate at_) := by
  obtain ⟨_, _, _, _, _, raft⟩ := n.truncate_toRaft at_
  refine ⟨fun e member => .inl ?_⟩
  rw [raft] at member
  exact RaftLog.mem_of_mem_truncateFrom member

theorem takeEntries_draws (n : Node) (prevIndex : Nat) (entries : List Entry) (i : Nat) (conflict : Bool)
    (here : ∀ e ∈ entries, new e) : Draws new n (n.takeEntries prevIndex entries i conflict) := by
  have cut : Draws new n (if conflict then n.truncate (prevIndex + 1 + i) else n) := by
    split
    · exact n.truncate_draws _
    · exact .refl n
  simp only [takeEntries]
  generalize (if conflict then n.truncate (prevIndex + 1 + i) else n) = m at cut ⊢
  refine cut.trans ((m.appendAll_draws (entries.drop i) fun e member => here e (List.mem_of_mem_drop member)).trans ?_)
  split
  · exact refreshConfig_draws _
  · exact .refl _

theorem adoptSnapshot_draws (n : Node) (index term : Nat) (data : Bytes) : Draws new n (n.adoptSnapshot index term data) := by
  obtain ⟨_, _, _, _, _, _, _, _, raft⟩ := n.adoptSnapshot_toRaft index term data
  refine ⟨fun e member => .inl ?_⟩
  rw [raft] at member
  exact RaftLog.mem_of_mem_adopt member

-- A new leader opens its term with a no-op.
theorem becomeLeader_draws (n : Node) (here : ∀ e : Entry, e.cmd = .noop → new e) : Draws new n n.becomeLeader := by
  have begun : Draws new n ((n.takeOffice.appendEntry (n.ownEntry Command.noop)).persistLogFrom (n.log.lastIndex + 1)
      false none 0 unverified) := by
    have office : Draws new n n.takeOffice := .still rfl
    exact office.trans ((n.takeOffice.appendEntry_draws (here (n.ownEntry .noop) rfl)).trans (persistLogFrom_draws ..))
  simp only [becomeLeader]
  generalize (n.takeOffice.appendEntry (n.ownEntry Command.noop)).persistLogFrom (n.log.lastIndex + 1) false none 0
    unverified = m at begun ⊢
  have disarmed : Draws new m m.disarmElectionTimer := .still rfl
  refine begun.trans (disarmed.trans ((broadcastAppend_draws m.disarmElectionTimer).trans ?_))
  exact .still rfl

end Node

def RaftMsg.entries : RaftMsg → List Entry
  | .appendEntries _ _ _ _ entries _ => entries
  | _ => []

namespace Node

variable {new : Entry → Prop} {n m k : Node}

theorem acceptAppend_draws (n : Node) (src : NodeId) (prevIndex : Nat) (entries : List Entry) (lastNew : Nat)
    (dirty : Bool) (here : ∀ e ∈ entries, new e) : Draws new n (n.acceptAppend src prevIndex entries lastNew dirty) := by
  simp only [acceptAppend]
  split
  · next i conflict _ =>
    refine (n.takeEntries_draws prevIndex entries i conflict here).trans ?_
    split
    · exact persistHardAndLog_draws ..
    · exact persistLogFrom_draws ..
  · split
    · exact persistHard_draws ..
    · exact send_draws ..

theorem checkAppend_draws (n : Node) (src : NodeId) (prevIndex prevTerm : Nat) (entries : List Entry)
    (lastNew leaderCommit : Nat) (dirty : Bool) (here : ∀ e ∈ entries, new e) :
    Draws new n (if ¬ n.log.matchesAt prevIndex prevTerm then
        n.replyInTerm dirty src (.appendEntriesResp n.term false n.durableIndex (n.conflictHint prevIndex))
      else (n.acceptAppend src prevIndex entries lastNew dirty).followCommit leaderCommit lastNew) := by
  split
  · exact replyInTerm_draws ..
  · exact (n.acceptAppend_draws src prevIndex entries lastNew dirty here).trans (followCommit_draws ..)

theorem appendInTerm_draws (n : Node) (src : NodeId) (prevIndex prevTerm : Nat) (entries : List Entry)
    (leaderCommit : Nat) (dirty : Bool) (here : ∀ e ∈ entries, new e) :
    Draws new n (n.appendInTerm src prevIndex prevTerm entries leaderCommit dirty) := by
  unfold appendInTerm
  dsimp only
  split
  · exact replyInTerm_draws ..
  · refine checkAppend_draws _ _ _ _ _ _ _ _ fun e member => here e ?_
    split at member
    · exact List.mem_of_mem_drop member
    · exact member

theorem onAppendEntries_draws (n : Node) (src leader : NodeId) (term prevIndex prevTerm : Nat) (entries : List Entry)
    (leaderCommit : Nat) (here : ∀ e ∈ entries, new e) :
    Draws new n (n.onAppendEntries src term leader prevIndex prevTerm entries leaderCommit) := by
  simp only [onAppendEntries]
  split
  · exact send_draws ..
  · have settled : Draws new n (((if n.term < term then n.stepDown term else n).concede).heardFrom leader) := by
      refine .still ?_
      unfold concede
      split <;> split <;> rfl
    exact settled.trans (appendInTerm_draws _ _ _ _ _ _ _ here)

theorem onRequestVote_draws (n : Node) (src candidate : NodeId) (term lastIndex lastTerm : Nat) :
    Draws new n (n.onRequestVote src term candidate lastIndex lastTerm) := by
  have answered : ∀ (m : Node) (dirty : Bool), Draws new m (m.answerVote src candidate lastIndex lastTerm dirty) := by
    intro m dirty
    have cast : Draws new m (m.castVote candidate) := .still rfl
    unfold answerVote
    split
    · refine cast.trans ?_
      split
      · exact persistHard_draws ..
      · split
        · exact .refl _
        · exact send_draws ..
    · split
      · exact persistHard_draws ..
      · exact send_draws ..
  unfold onRequestVote
  split
  · exact send_draws ..
  · split
    · exact .refl n
    · split
      · have stepped : Draws new n (n.stepDown term) := .still rfl
        exact stepped.trans (answered _ _)
      · exact answered _ _

theorem onVoteResp_draws (n : Node) (src : NodeId) (term : Nat) (granted : Bool)
    (here : ∀ e : Entry, e.cmd = .noop → new e) : Draws new n (n.onVoteResp src term granted) := by
  simp only [onVoteResp]
  split
  · exact stepDownAndPersist_draws ..
  · split
    · exact .refl n
    · split
      · have counted : Draws new n { n with votes := insert src n.votes } := .still rfl
        refine counted.trans ?_
        split
        · exact becomeLeader_draws _ here
        · exact .refl _
      · exact .refl n

theorem onAppendResp_draws (n : Node) (src : NodeId) (term : Nat) (success : Bool) (matchIndex conflictIndex : Nat) :
    Draws new n (n.onAppendResp src term success matchIndex conflictIndex) := by
  simp only [onAppendResp]
  split
  · exact stepDownAndPersist_draws ..
  · split
    · exact .refl n
    · split
      · refine (n.noteMatch_draws src matchIndex).trans ?_
        split
        · exact sendAppendTo_draws ..
        · exact .refl _
      · refine .trans ?_ (sendAppendTo_draws ..)
        exact .still rfl

theorem installInTerm_draws (n : Node) (src : NodeId) (index indexTerm : Nat) (data : Bytes) :
    Draws new n (n.installInTerm src index indexTerm data) := by
  simp only [installInTerm]
  split
  · exact send_draws ..
  · split
    · exact .refl n
    · refine .trans ?_ (writeSnapshot_draws ..)
      exact .still rfl

theorem onInstallSnapshot_draws (n : Node) (src leader : NodeId) (term index indexTerm : Nat) (data : Bytes) :
    Draws new n (n.onInstallSnapshot src term leader index indexTerm data) := by
  simp only [onInstallSnapshot]
  split
  · exact send_draws ..
  · have settled : Draws new n (((if n.term < term then n.stepDownAndPersist term else n).concede).heardFrom leader) := by
      refine .still ?_
      unfold concede
      split <;> split <;> rfl
    exact settled.trans (installInTerm_draws ..)

theorem onInstallSnapshotResp_draws (n : Node) (src : NodeId) (term index : Nat) :
    Draws new n (n.onInstallSnapshotResp src term index) := by
  unfold onInstallSnapshotResp
  split
  · exact stepDownAndPersist_draws ..
  · split
    · exact .refl n
    · split
      · exact noteMatch_draws ..
      · exact .refl n

theorem onReadProbe_draws (n : Node) (src leader : NodeId) (term seq : Nat) :
    Draws new n (n.onReadProbe src term leader seq) := by
  simp only [onReadProbe]
  split
  · exact send_draws ..
  · split
    · exact (n.stepDownAndPersist_draws term).trans (.still rfl)
    · split
      · exact .refl n
      · refine .trans ?_ (send_draws ..)
        refine .still ?_
        split <;> rfl

theorem onReadProbeResp_draws (n : Node) (src : NodeId) (term seq : Nat) :
    Draws new n (n.onReadProbeResp src term seq) := by
  unfold onReadProbeResp
  split
  · exact stepDownAndPersist_draws ..
  · split
    · exact .refl n
    · exact .still rfl

theorem startPreVote_draws (n : Node) : Draws new n n.startPreVote := by
  simp only [startPreVote]
  split
  · exact .still rfl
  · refine .trans ?_ (sendAll_draws ..)
    exact .still rfl

theorem onPreVoteResp_draws (n : Node) (src : NodeId) (term round : Nat) (granted : Bool) :
    Draws new n (n.onPreVoteResp src term round granted) := by
  simp only [onPreVoteResp]
  split
  · exact .still rfl
  · split
    · split <;> exact .still rfl
    · split
      · exact .refl n
      · split
        · split <;> exact .still rfl
        · exact .refl n

theorem onMessage_draws (n : Node) (src : NodeId) (msg : RaftMsg) :
    Draws (fun e => e ∈ msg.entries ∨ e.cmd = .noop) n (n.onMessage src msg) := by
  unfold onMessage
  split
  · exact .refl n
  · cases msg with
    | requestVote => exact onRequestVote_draws ..
    | requestVoteResp => exact onVoteResp_draws _ _ _ _ fun _ => .inr
    | appendEntries => exact onAppendEntries_draws _ _ _ _ _ _ _ _ fun _ => .inl
    | appendEntriesResp => exact onAppendResp_draws ..
    | installSnapshot => exact onInstallSnapshot_draws ..
    | installSnapshotResp => exact onInstallSnapshotResp_draws ..
    | readProbe => exact onReadProbe_draws ..
    | readProbeResp => exact onReadProbeResp_draws ..
    | preVote => exact send_draws ..
    | preVoteResp => exact onPreVoteResp_draws ..

theorem onTimer_draws (n : Node) (tag : TimerTag) : Draws new n (n.onTimer tag) := by
  unfold onTimer
  split
  · exact .refl n
  · cases tag with
    | election =>
      simp only [onElectionTimer]
      split
      · exact .refl n
      · split
        · exact .still rfl
        · split
          · exact .still rfl
          · split
            · refine .trans ?_ (startPreVote_draws _)
              exact .still rfl
            · exact .still rfl
    | heartbeat =>
      simp only [onHeartbeatTimer]
      split
      · exact .refl n
      · split
        · exact .still rfl
        · have disarmed : Draws new n { n with heartbeatTimer := {} } := .still rfl
          refine disarmed.trans ((broadcastAppend_draws _).trans ?_)
          generalize ({ n with heartbeatTimer := {} } : Node).broadcastAppend = m
          split
          · refine (sendAll_draws m m.peers (.readProbe m.term m.id m.readSeq)).trans ?_
            exact .still rfl
          · exact .still rfl

theorem onDurable_draws (n : Node) (action : Persist) (here : ∀ e : Entry, e.cmd = .noop → new e) :
    Draws new n (n.onDurable action) := by
  cases action with
  | campaign term =>
    simp only [onDurable, campaignDurable]
    split
    · have told : Draws new n (n.sendAll n.peers (.requestVote term n.id n.log.lastIndex n.log.lastTerm)) :=
        .still (congrArg Raft.log (sendAll_toRaft ..))
      refine told.trans ?_
      split
      · exact becomeLeader_draws _ here
      · exact .refl _
    · exact .refl n
  | voteReply dst term granted => exact send_draws ..
  | reply dst msg => exact send_draws ..
  | logDurable start index verified replyTo replyTerm =>
    simp only [onDurable, logDurable]
    have counted : ∀ k : Node, Draws new k (if k.role = .leader then k.maybeCommit else k) := by
      intro k
      split
      · exact k.maybeCommit_draws
      · exact .refl k
    cases replyTo with
    | none => exact (claimRange_draws ..).trans (counted _)
    | some dst => exact (claimRange_draws ..).trans ((send_draws ..).trans (counted _))
  | snapshotTaken index term file =>
    simp only [onDurable, snapshotTaken]
    refine .trans ⟨fun e member => .inl ?_⟩ (refreshConfig_draws _)
    exact RaftLog.mem_of_mem_compactTo member
  | snapshotInstalled index term data file replyTo replyTerm =>
    simp only [onDurable, snapshotInstalled]
    have landed : Draws new n (n.land file) := .still rfl
    refine landed.trans ?_
    split
    · exact send_draws ..
    · exact (adoptSnapshot_draws ..).trans (send_draws ..)
  | quiet => exact .refl n

theorem onStorage_draws (n : Node) (op : OpId) (ok : Bool) (here : ∀ e : Entry, e.cmd = .noop → new e) :
    Draws new n (n.onStorage op ok) := by
  unfold onStorage
  split
  · exact .refl n
  · rcases n.persister.onComplete op ok with ⟨event, p⟩
    cases event with
    | nothing => exact .still rfl
    | failed => exact .still rfl
    | needSync id file => exact .still rfl
    | done action hard =>
      have booked : Draws new n { n with persister := p } := .still rfl
      exact booked.trans ((noteDurable_draws ..).trans (onDurable_draws _ _ here))

theorem propose_draws (n : Node) (cmd : Command) : Draws (fun e => e.cmd = cmd) n (n.propose cmd).2 := by
  simp only [propose]
  split
  · exact .refl n
  · have put : Draws (fun e => e.cmd = cmd) n (n.appendEntry (n.ownEntry cmd)) := n.appendEntry_draws rfl
    exact put.trans ((persistLogFrom_draws ..).trans (broadcastAppend_draws _))

theorem requestRead_draws (n : Node) (id : Nat) : Draws new n (n.requestRead id).2 := by
  simp only [requestRead]
  split
  · exact .refl n
  · split
    · exact .refl n
    · have accepted : Draws new n (n.acceptRead id) := .still rfl
      refine accepted.trans ?_
      split
      · exact .refl _
      · exact .still (congrArg Raft.log (broadcastProbe_toRaft _))

end Node

end SimKv
