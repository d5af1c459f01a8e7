import SimKv.Solo

set_option autoImplicit false

/-!
# Acknowledging what is on disk

A follower tells its leader how much of the log it has synced. Every such answer but one is computed
from the durable index, and an answer that waits for a batch stays below it: what the snapshot covers
is never cut off again.
-/

namespace SimKv

structure Raft.Place (r : Raft) : Prop where
  contiguous : r.log.Contiguous
  applied : r.lastApplied ≤ r.commitIndex
  base : r.log.snapshotIndex ≤ r.commitIndex

structure Raft.Advances (r r' : Raft) : Prop where
  place : r'.Place
  commit : r.commitIndex ≤ r'.commitIndex
  base : r.log.snapshotIndex ≤ r'.log.snapshotIndex
  durable : ∀ k ≤ r.durableIndex, k ≤ r.log.snapshotIndex → k ≤ r'.durableIndex

theorem Raft.Place.still {r r' : Raft} (place : r.Place) (log : r'.log = r.log)
    (durable : r.durableIndex ≤ r'.durableIndex) (commit : r.commitIndex ≤ r'.commitIndex)
    (applied : r'.lastApplied ≤ r'.commitIndex) : r.Advances r' where
  place := ⟨log ▸ place.contiguous, applied, log ▸ place.base.trans commit⟩
  commit := commit
  base := by rw [log]
  durable _ claimed _ := claimed.trans durable

-- An adopted log reaches the snapshot it was adopted for.
theorem RaftLog.Contiguous.adopt_reaches {log : RaftLog} (contiguous : log.Contiguous) (index term : Nat) :
    index ≤ (log.adopt index term).lastIndex := by
  have kept := (contiguous.adopt index term).lastIndex_eq
  rw [kept]
  have size := contiguous.lastIndex_eq
  simp only [RaftLog.adopt] at kept ⊢
  split
  · next known =>
    simp only [RaftLog.compactTo]
    split
    · next outside =>
      -- nothing was dropped, so the index was the base already
      have inside : index ≤ log.lastIndex := by
        by_contra beyond
        simp only [RaftLog.termAt, RaftLog.get] at known
        split at known
        · next zero => simp only [noIndex] at zero; omega
        · split at known
          · omega
          · rw [if_pos (.inr (not_le.mp beyond))] at known
            cases known
      omega
    · next inside =>
      simp only
      omega
  · exact Nat.le_add_right _ _

theorem Act.advances {cause : Cause} {r : Raft} {n m : Node} (act : Act cause r n m)
    (place : n.Place)
    (within : ∀ index term file hard, cause = .durable (.snapshotTaken index term file) hard →
      index ≤ n.commitIndex) : n.Advances m.toRaft := by
  have becomes := act.becomes
  generalize m.toRaft = after at becomes ⊢
  cases becomes with
  | append e _ _ _ sound =>
    exact ⟨⟨place.contiguous.append sound.1, place.applied, place.base⟩, le_rfl, le_rfl,
      fun _ claimed _ => claimed⟩
  | splice _ _ _ _ _ _ p t es i conflict _ trims _ _ _ _ sound =>
    have base := n.log.snapshotIndex_splice p es i conflict
    refine ⟨⟨place.contiguous.splice sound, place.applied, ?_⟩, le_rfl, base.ge, ?_⟩
    · rw [base]
      exact place.base
    · -- a conflict is cut above the snapshot
      intro k claimed covered
      dsimp only
      split
      · have above := trims.base
        omega
      · exact claimed
  | follow _ _ _ _ commitIndex grows => exact place.still rfl le_rfl grows (place.applied.trans grows)
  | commit candidate _ _ newer => exact place.still rfl le_rfl newer.le (place.applied.trans newer.le)
  | claim durableIndex parked grows => exact place.still rfl grows le_rfl place.applied
  | taken index term file hard done =>
    have reached := within index term file hard done
    have bound := n.log.snapshotIndex_compactTo index term
    exact ⟨⟨place.contiguous.compactTo index term, place.applied, bound.trans (max_le place.base reached)⟩,
      le_rfl, n.log.snapshotIndex_le_compactTo index term, fun _ claimed _ => claimed⟩
  | adopt index term data file replyTo replyTerm hard done _ wanted durableIndex claims =>
    have bound := n.log.snapshotIndex_adopt index term
    have base : n.log.snapshotIndex ≤ (n.log.adopt index term).snapshotIndex := by
      simp only [RaftLog.adopt]
      split
      · exact n.log.snapshotIndex_le_compactTo index term
      · next unknown => exact place.base.trans (wanted.resolve_left unknown)
    refine ⟨⟨place.contiguous.adopt index term, max_le_max place.applied le_rfl,
      bound.trans (max_le_max place.base le_rfl)⟩, le_max_left _ _, base, fun k claimed covered => ?_⟩
    refine le_trans (le_min (claimed.trans (le_max_left _ _)) ?_) claims
    rw [(place.contiguous.adopt index term).lastIndex_eq]
    omega
  | _ => exact place.still rfl le_rfl le_rfl place.applied

def Persist.Keeps (r : Raft) : Persist → Prop
  | .snapshotTaken index _ _ => index ≤ r.commitIndex
  | .reply _ (.appendEntriesResp _ success matchIndex _) =>
      success = true → matchIndex ≤ r.durableIndex ∧ matchIndex ≤ r.log.snapshotIndex
  | .reply .. => False
  | _ => True

theorem Persist.Keeps.advances {r r' : Raft} {action : Persist} (keeps : action.Keeps r)
    (advances : r.Advances r') : action.Keeps r' := by
  cases action with
  | snapshotTaken => exact keeps.trans advances.commit
  | reply dst msg =>
    cases msg with
    | appendEntriesResp term success matchIndex =>
      intro done
      obtain ⟨durable, covered⟩ := keeps done
      exact ⟨advances.durable matchIndex durable covered, covered.trans advances.base⟩
    | _ => exact keeps
  | _ => exact keeps

theorem Persist.Keeps.clamp {r : Raft} {action : Persist} (keeps : action.Keeps r) (cap : Nat) :
    (action.clamp cap).Keeps r := by
  cases action <;> exact keeps

theorem Node.Owes.keeps {cause : Cause} {n : Node} {action : Persist} {hard : Option HardState}
    (owes : n.Owes cause action hard) (place : n.Place) : action.Keeps n.toRaft := by
  cases owes with
  | covered dst lastNew covered =>
    intro _
    obtain ⟨_, prevIndex, _, entries, _, _, last, below, short⟩ := covered
    omega
  | taken => exact place.applied
  | failure => exact nofun
  | _ => exact trivial

structure Raft.Keeping (r : Raft) : Prop where
  place : r.Place
  duties : ∀ d ∈ r.persister.duties, d.action.Keeps r

/-- An acknowledgement sent by `r` is no larger than what `r` knows to be durable. -/
def RaftMsg.Backed (r : Raft) : RaftMsg → Prop
  | .appendEntriesResp _ success matchIndex _ => success = true → matchIndex ≤ r.durableIndex
  | .installSnapshotResp _ index => index ≤ r.durableIndex
  | _ => True

instance (r : Raft) : (msg : RaftMsg) → Decidable (msg.Backed r)
  | .appendEntriesResp .. => inferInstanceAs (Decidable (_ → _))
  | .installSnapshotResp .. => inferInstanceAs (Decidable (_ ≤ _))
  | .requestVote .. | .requestVoteResp .. | .appendEntries .. | .installSnapshot .. | .readProbe ..
  | .readProbeResp .. | .preVote .. | .preVoteResp .. => inferInstanceAs (Decidable True)

def Raft.Synced (r : Raft) : RaftMsg → Prop
  | .installSnapshot term _ index _ _ =>
      r.term ≤ term → index ≤ r.highestSnapshot ∨ index ≤ r.commitIndex →
        min r.log.lastIndex r.lastApplied ≤ r.durableIndex
  | _ => True

instance (r : Raft) : (msg : RaftMsg) → Decidable (r.Synced msg)
  | .installSnapshot .. => inferInstanceAs (Decidable (_ → _))
  | .requestVote .. | .requestVoteResp .. | .appendEntries .. | .appendEntriesResp ..
  | .installSnapshotResp .. | .readProbe .. | .readProbeResp .. | .preVote .. | .preVoteResp .. =>
    inferInstanceAs (Decidable True)

structure Acknowledging (cause : Cause) (r : Raft) (n : Node) : Prop where
  keeping : n.Keeping
  ordered : n.persister.Ordered
  batch : ∀ action hard, cause = .durable action hard → action.Keeps n.toRaft
  start : r.log.Contiguous
  synced : ∀ src msg, cause = .message src msg → r.Synced msg
  said : ∀ moment ∈ n.moments, moment.msg.Backed moment.raft

variable {cause : Cause} {r : Raft} {n m : Node}

-- Every message a handler may send is backed.
theorem Acknowledging.backed (mid : Acknowledging cause r n) {dst : NodeId} {msg : RaftMsg}
    (allowed : Says cause r n.toRaft dst msg) : msg.Backed n.toRaft := by
  cases msg with
  | appendEntriesResp term success matchIndex conflictIndex =>
    intro done
    rcases allowed done with ⟨_, _, _, _, _, rfl⟩ | ⟨_, _, rfl, _⟩ <;> exact min_le_left _ _
  | installSnapshotResp term index =>
    rcases allowed with rfl | ⟨_, rfl, passed⟩ | ⟨_, atTerm, data, _, _, _, ⟨rfl, _⟩ | ⟨rfl, adopted⟩⟩
    · exact Nat.zero_le _
    · obtain ⟨_, _, _, _, _, offered, newer, past, log, applied, durable⟩ := passed
      change min n.log.lastIndex n.lastApplied ≤ n.durableIndex
      rw [log, applied, durable]
      exact mid.synced _ _ offered newer past
    · exact le_rfl
    · -- an installed snapshot is claimed as soon as it is adopted
      obtain ⟨before, log, same⟩ := adopted
      change _ ≤ n.durableIndex
      rw [same]
      obtain ⟨_, _, _, _, _, _, durable, raft, claims⟩ := before.adoptSnapshot_becomes index atTerm data
      rw [raft]
      refine le_trans (le_min (le_max_right _ _) ?_) claims
      exact RaftLog.Contiguous.adopt_reaches (log ▸ mid.start) index atTerm
  | _ => exact trivial

theorem Acknowledging.deferred (mid : Acknowledging cause r n) {dst : NodeId} {msg : RaftMsg}
    {hard : Option HardState} (done : cause = .durable (.reply dst msg) hard) : msg.Backed n.toRaft := by
  have keeps := mid.batch _ _ done
  cases msg with
  | appendEntriesResp => exact fun success => (keeps success).1
  | _ => exact keeps.elim

-- Every act leaves the batches as good as they were, the one it acts on among them.
theorem Act.keeping (act : Act cause r n m) (keeping : n.Keeping) (ordered : n.persister.Ordered)
    (batch : ∀ action hard, cause = .durable action hard → action.Keeps n.toRaft) :
    m.Keeping ∧ ∀ action hard, cause = .durable action hard → action.Keeps m.toRaft := by
  have asks := act.asks ordered
  have advances : n.Advances m.toRaft := by
    refine act.advances keeping.place ?_
    intro index term file hard done
    exact batch _ _ done
  refine ⟨⟨advances.place, ?_⟩, ?_⟩
  · intro d member
    rcases asks.duties member with old | ⟨before, found, cap, rfl⟩ | owes
    · exact (keeping.duties d old).advances advances
    · exact ((keeping.duties before found).clamp cap).advances advances
    · exact (owes.keeps keeping.place).advances advances
  · intro action hard done
    exact (batch action hard done).advances advances

theorem Act.acknowledging (act : Act cause r n m) (mid : Acknowledging cause r n) :
    Acknowledging cause r m := by
  obtain ⟨keeping, batch⟩ := act.keeping mid.keeping mid.ordered mid.batch
  refine ⟨keeping, (act.asks mid.ordered).ordered mid.ordered, batch, mid.start, mid.synced, ?_⟩
  cases act.speaks with
  | nothing same =>
    rw [same]
    exact mid.said
  | message dst msg _ allowed said =>
    intro moment member
    rw [said] at member
    rcases List.mem_append.mp member with old | new
    · exact mid.said moment old
    · rw [List.mem_singleton.mp new]
      rcases allowed with allowed | ⟨hard, done⟩
      · exact mid.backed allowed
      · exact mid.deferred done

-- Nothing is applied before it is committed.
theorem Raft.Place.takeApplied (place : n.Place) : n.takeApplied.2.lastApplied ≤ n.commitIndex := by
  have start : max n.lastApplied n.log.snapshotIndex ≤ n.commitIndex := max_le place.applied place.base
  exact n.takeApplied_bounds.2.trans (max_le le_rfl start)

theorem Server.Begins.advances {s : Server} {now : Nat} {input : Input}
    (begins : s.Begins now input cause n) (place : s.raft.Place) : s.raft.Advances n.toRaft := by
  cases begins with
  | drain => exact place.still rfl le_rfl le_rfl (Raft.Place.takeApplied (n := s.wake now) place)
  | done op ok action hard p =>
    cases hard with
    | none => exact place.still rfl le_rfl le_rfl place.applied
    | some hs =>
      obtain ⟨_, _, raft, grows, _⟩ := Node.noteDurable_spec { s.wake now with persister := p } hs
      rw [raft]
      exact place.still rfl grows le_rfl place.applied
  | _ => exact place.still rfl le_rfl le_rfl place.applied

theorem Server.Begins.keeping {s : Server} {now : Nat} {input : Input}
    (begins : s.Begins now input cause n) (keeping : s.raft.Keeping) :
    n.Keeping ∧ ∀ action hard, cause = .durable action hard → action.Keeps n.toRaft := by
  have advances := begins.advances keeping.place
  obtain ⟨_, fewer, ended⟩ := begins.duties
  refine ⟨⟨advances.place, ?_⟩, ?_⟩
  · intro d member
    exact (keeping.duties d (fewer d member)).advances advances
  · intro action hard done
    obtain ⟨d, found, rfl, _⟩ := ended action hard done
    exact (keeping.duties d found).advances advances

theorem Server.Begins.acknowledging {s : Server} {now : Nat} {input : Input}
    (begins : s.Begins now input cause n) (keeping : s.raft.Keeping) (ordered : s.raft.persister.Ordered)
    (synced : ∀ p, input = .deliver p → s.raft.Synced p.msg) : Acknowledging cause n.toRaft n := by
  obtain ⟨kept, batch⟩ := begins.keeping keeping
  refine ⟨kept, begins.ordered ordered, batch, kept.place.contiguous, ?_, ?_⟩
  · intro src msg same
    obtain ⟨p, delivered, _, rfl, begun⟩ := begins.message_inv same
    rw [begun]
    exact synced p delivered
  · intro moment member
    rw [begins.moments] at member
    cases member

def Solo.InstallsSynced (s : Solo) : SoloEvent → Prop
  | .input _ (.deliver p) => s.raft.Synced p.msg
  | _ => True

instance (s : Solo) : (event : SoloEvent) → Decidable (s.InstallsSynced event)
  | .input _ (.deliver p) => inferInstanceAs (Decidable (s.raft.Synced p.msg))
  | .input _ (.timer _) | .input _ (.storage ..) | .input _ (.propose _) | .input _ (.reconfigure _)
  | .input _ .read | .input _ (.drain _) | .restart .. => isTrue trivial

structure Solo.Honest (s : Solo) : Prop where
  keeping : s.raft.Keeping
  ordered : s.raft.persister.Ordered
  said : ∀ moment ∈ s.said, moment.msg.Backed moment.raft

theorem Raft.recover_keeping (wal a b : Bytes) (id : NodeId) (members : List NodeId) (cfg : RaftConfig)
    (io : Io) : (Raft.recover wal a b id members cfg io).Keeping ∧
      (Raft.recover wal a b id members cfg io).persister.Ordered := by
  obtain ⟨_, _, _, _, _, raft, _⟩ := Raft.recover_toRaft wal a b id members cfg io
  rw [raft]
  refine ⟨⟨⟨readDisk_contiguous wal a b, le_rfl, le_rfl⟩, ?_⟩, ?_⟩
  · intro d member
    cases member
  · intro b member
    cases member

theorem Solo.Honest.step {who : Identity} {s s' : Solo} {event : SoloEvent} (honest : s.Honest)
    (synced : s.InstallsSynced event) (next : s.step who event = some s') : s'.Honest := by
  cases event with
  | input now input =>
    simp only [Solo.step] at next
    split at next
    · next calm =>
      cases next
      obtain ⟨_, _, last⟩ := s.toServer.handle_rule
        (fun cause n begins => begins.acknowledging honest.keeping honest.ordered fun p same => by
          subst same
          exact synced)
        (fun cause r n m mid act => act.acknowledging mid) calm
      refine ⟨last.keeping, last.ordered, ?_⟩
      intro moment member
      rcases List.mem_append.mp member with old | new
      · exact honest.said moment old
      · exact last.said moment new
    · cases next
  | restart now wal a b =>
    cases next
    obtain ⟨keeping, ordered⟩ := Raft.recover_keeping wal a b who.id who.members who.cfg
      { now, nextOp := s.nextOp, nextTimer := s.nextTimer }
    exact ⟨keeping, ordered, honest.said⟩

/-- A node that finds all it has applied on disk whenever it is offered a snapshot it is past never
acknowledges more than it has synced. -/
theorem acknowledgements_synced {who : Identity} {s : Solo}
    (reached : Solo.Reachable who Solo.InstallsSynced s) :
    ∀ moment ∈ s.said, moment.msg.Backed moment.raft := by
  have first : (Solo.init who).Honest := by
    obtain ⟨keeping, ordered⟩ := Raft.recover_keeping [] [] [] who.id who.members who.cfg {}
    exact ⟨keeping, ordered, fun _ member => by cases member⟩
  exact (reached.invariant first fun _ _ _ honest synced next => honest.step synced next).said

def pupil : Identity where
  id := 1
  members := [0, 1]
  cfg := {}

def lesson : Entry := { term := 1, index := 1, cmd := { client := 7, seq := 1, op := .put "k" "v" } }

def firstLesson : List SoloEvent :=
  [.input 0 (.deliver { src := 0, dst := 1, msg := .appendEntries 1 0 0 0 [] 0 }),
    .input 0 (.storage 1 true), .input 0 (.storage 2 true),
    .input 0 (.deliver { src := 0, dst := 1, msg := .appendEntries 1 0 0 0 [lesson] 1 }),
    .input 0 (.storage 3 true), .input 0 (.storage 4 true)]

theorem firstLesson_acknowledged :
    (Execution.play (Solo.step pupil) Solo.InstallsSynced (Solo.init pupil) firstLesson).map
      (fun s => s.said.map Moment.msg) =
    some [.appendEntriesResp 1 true 0 0, .appendEntriesResp 1 true 1 0] := by decide +kernel

theorem acknowledgements_synced_pupil : ∃ s : Solo,
    Solo.Reachable pupil Solo.InstallsSynced s ∧
      s.said.map Moment.msg = [.appendEntriesResp 1 true 0 0, .appendEntriesResp 1 true 1 0] ∧
      ∀ moment ∈ s.said, moment.msg.Backed moment.raft := by
  obtain ⟨s, played, said⟩ := Option.map_eq_some_iff.mp firstLesson_acknowledged
  have reached : Solo.Reachable pupil Solo.InstallsSynced s := Execution.run_of_play played
  exact ⟨s, reached, said, acknowledgements_synced reached⟩

/-- The same entry is committed and applied before its write has ended; then a snapshot of it is
offered. -/
def hastyLesson : List SoloEvent :=
  [.input 0 (.deliver { src := 0, dst := 1, msg := .appendEntries 1 0 0 0 [] 0 }),
    .input 0 (.storage 1 true), .input 0 (.storage 2 true),
    .input 0 (.deliver { src := 0, dst := 1, msg := .appendEntries 1 0 0 0 [lesson] 1 }),
    .input 0 (.drain []),
    .input 0 (.deliver { src := 0, dst := 1, msg := .installSnapshot 1 0 1 1 [0] })]

theorem hastyLesson_overclaims :
    (Execution.play (Solo.step pupil) (fun _ _ => True) (Solo.init pupil) hastyLesson).map
      (fun s => decide (∀ moment ∈ s.said, moment.msg.Backed moment.raft)) = some false := by decide +kernel

/-- The answer to a snapshot that the node is past can claim what is not on disk. -/
theorem acknowledges_unsynced : ∃ s : Solo, Solo.Reachable pupil (fun _ _ => True) s ∧
    ¬ ∀ moment ∈ s.said, moment.msg.Backed moment.raft := by
  obtain ⟨s, played, overclaims⟩ := Option.map_eq_some_iff.mp hastyLesson_overclaims
  exact ⟨s, Execution.run_of_play played, of_decide_eq_false overclaims⟩

end SimKv
