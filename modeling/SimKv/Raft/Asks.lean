import SimKv.Raft.Acts
import SimKv.Raft.Ledger

set_option autoImplicit false

/-!
# What an act asks of the disk

Every act sends messages only, opens one batch of numbered writes, or clears the log region. Claims
about the disk are proved from these few cases and not from the handlers.
-/

namespace SimKv

def Persist.image : Persist → Option (Nat × FileId)
  | .snapshotTaken index _ file | .snapshotInstalled index _ _ file _ _ => some (index, file)
  | _ => none

def Effect.op : Effect → Option OpId
  | .send .. => none
  | .writeAt op .. | .setLen op .. | .sync op .. => some op

def Effect.file : Effect → Option FileId
  | .send .. => none
  | .writeAt _ file _ _ | .setLen _ file _ | .sync _ file => some file

def Effect.WritesTo (file : FileId) : Effect → Prop
  | .writeAt _ f _ _ | .setLen _ f _ => f = file
  | _ => False

theorem Effect.WritesTo.file {file : FileId} {e : Effect} (writes : e.WritesTo file) :
    e.file = some file := by
  cases e with
  | writeAt => exact congrArg some writes
  | setLen => exact congrArg some writes
  | send => exact writes.elim
  | sync => exact writes.elim

theorem Effect.file_none {e : Effect} (sends : e.op = none) : e.file = none := by
  cases e with
  | send => rfl
  | writeAt => cases sends
  | setLen => cases sends
  | sync => cases sends

def RaftLog.writesFrom (log : RaftLog) (op : OpId) (start : Nat) (truncated : Bool) : List Effect :=
  let offset := logRegion + log.byteOffsetOf start
  let bytes := (log.entries.filter fun e => start ≤ e.index).flatMap Entry.toRecord
  let write := fun op => if bytes = [] then .setLen op .wal offset else .writeAt op .wal offset bytes
  if truncated then [.setLen op .wal offset, write (op + 1)] else [write op]

def Snapshot.writes (snap : Snapshot) (op : OpId) (file : FileId) : List Effect :=
  [.setLen op file 0, .writeAt (op + 1) file 0 snap.encode]

def HardState.write (hs : HardState) (op : OpId) : Effect :=
  .writeAt op .wal (HardState.slotOffset hs.seq) hs.toSlot

/-- `m` is `n` after it has opened one batch of writes. -/
structure Node.Opened (n m : Node) (file : FileId) (action : Persist) (hard : Option HardState)
    (writes : List Effect) : Prop where
  persister : m.persister = n.persister.opened file action hard (writes.filterMap Effect.op)
  effects : m.effects = n.effects ++ writes
  nextOp : m.nextOp = n.nextOp + writes.length
  numbered : writes.filterMap Effect.op = List.range' n.nextOp writes.length
  file : ∀ e ∈ writes, e.WritesTo file

/-- The batches a handler may open: what is to be done once they are durable, and the hard state they
carry. -/
inductive Node.Owes (cause : Cause) (n : Node) : Persist → Option HardState → Prop where
  | campaign : Owes cause n (.campaign (n.term + 1))
      (some { term := n.term + 1, votedFor := some n.id, seq := n.stateSeq })
  | vote (src candidate : NodeId) (requested : Requested cause n.toRaft src candidate)
      (free : n.votedFor = none ∨ n.votedFor = some candidate) :
      Owes cause n (.voteReply src n.term true)
        (some { term := n.term, votedFor := some candidate, seq := n.stateSeq })
  | quiet : Owes cause n .quiet (some n.hardState)
  | refusal (dst : NodeId) : Owes cause n (.voteReply dst n.term false) (some n.hardState)
  | failure (dst : NodeId) (matchIndex conflictIndex : Nat) :
      Owes cause n (.reply dst (.appendEntriesResp n.term false matchIndex conflictIndex))
        (some n.hardState)
  | covered (dst : NodeId) (lastNew : Nat) (covered : Covered cause n.toRaft dst lastNew) :
      Owes cause n (.reply dst (.appendEntriesResp n.term true (min n.durableIndex lastNew) noIndex))
        (some n.hardState)
  | log (start index verified : Nat) (replyTo : Option NodeId) (replyTerm : Nat)
      (hard : Option HardState) (current : ∀ hs ∈ hard, hs = n.hardState) :
      Owes cause n (.logDurable start index verified replyTo replyTerm) hard
  | taken (term : Nat) (drains : cause = .other) (wanted : n.wantsSnapshot)
      (known : n.log.termAt n.lastApplied = some term) :
      Owes cause n (.snapshotTaken n.lastApplied term n.nextSnapshotFile) none
  | installed (src leader : NodeId) (index indexTerm : Nat) (data : Bytes)
      (offered : cause = .message src (.installSnapshot n.term leader index indexTerm data))
      (ahead : n.commitIndex < index) :
      Owes cause n (.snapshotInstalled index indexTerm data n.nextSnapshotFile src n.term) none

def Node.Carries (n m : Node) : Option HardState → Prop
  | none => m.stateSeq = n.stateSeq
  | some hs => hs = { term := m.term, votedFor := m.votedFor, seq := n.stateSeq } ∧
      m.stateSeq = n.stateSeq + 1

def Cause.Installs (cause : Cause) : Prop :=
  ∃ index term data file replyTo replyTerm hard,
    cause = .durable (.snapshotInstalled index term data file replyTo replyTerm) hard

/-- What can be asked of the disk. -/
inductive Node.Asks (cause : Cause) (n m : Node) : Prop where
  | nothing (out : List Effect) (sends : ∀ e ∈ out, e.op = none) (persister : m.persister = n.persister)
      (effects : m.effects = n.effects ++ out) (nextOp : m.nextOp = n.nextOp)
      (seq : m.stateSeq = n.stateSeq)
  | clamp (cap : Nat) (persister : m.persister = n.persister.clampAll cap)
      (effects : m.effects = n.effects) (nextOp : m.nextOp = n.nextOp) (seq : m.stateSeq = n.stateSeq)
  | wal (action : Persist) (hard : Option HardState) (writes : List Effect)
      (owes : n.Owes cause action hard) (plain : action.image = none) (carries : n.Carries m hard)
      (opened : n.Opened m .wal action hard writes)
  | snapshot (snap : Snapshot) (action : Persist) (free : n.snapshotInFlight = false)
      (fresh : ∀ action hard, cause ≠ .durable action hard) (owes : n.Owes cause action none)
      (image : action.image = some (snap.index, n.nextSnapshotFile))
      (newer : n.log.snapshotIndex < snap.index ∨ n.highestSnapshot < snap.index)
      (log : m.log = n.log) (file : m.durableSnapshotFile = n.durableSnapshotFile)
      (busy : m.snapshotInFlight = true) (highest : m.highestSnapshot = max n.highestSnapshot snap.index)
      (seq : m.stateSeq = n.stateSeq)
      (opened : n.Opened m n.nextSnapshotFile action none (snap.writes n.nextOp n.nextSnapshotFile))
  | clear (persister : m.persister = n.persister)
      (effects : m.effects =
        n.effects ++ [.setLen n.nextOp .wal logRegion, .sync (n.nextOp + 1) .wal])
      (nextOp : m.nextOp = n.nextOp + 2) (seq : m.stateSeq = n.stateSeq) (installed : cause.Installs)

namespace Node

variable {cause : Cause} {n : Node}

theorem persistHard_opened (ordered : n.persister.Ordered) (action : Persist) :
    n.Opened (n.persistHard action) .wal action (some n.hardState) [n.hardState.write n.nextOp] where
  persister := by
    rw [persistHard_toRaft, Persister.start_opened, Persister.opened_noteHardState ordered,
      Persister.opened_noteWrite ordered]
    rfl
  effects := rfl
  nextOp := rfl
  numbered := rfl
  file := by simp [HardState.write, Effect.WritesTo]

theorem persistHard_carries (action : Persist) : n.Carries (n.persistHard action) (some n.hardState) := by
  rw [Carries, persistHard_toRaft]
  exact ⟨rfl, rfl⟩

theorem writesFrom_numbered (log : RaftLog) (op : OpId) (start : Nat) (truncated : Bool) :
    (log.writesFrom op start truncated).filterMap Effect.op =
      List.range' op (log.writesFrom op start truncated).length := by
  simp only [RaftLog.writesFrom]
  split <;> split <;> rfl

theorem writesFrom_wal (log : RaftLog) (op : OpId) (start : Nat) (truncated : Bool) :
    ∀ e ∈ log.writesFrom op start truncated, e.WritesTo .wal := by
  simp only [RaftLog.writesFrom]
  split <;> split <;> simp [Effect.WritesTo]

-- Writing the log into the newest batch.
theorem writeLogFrom_opened {m : Node} {p : Persister} (ordered : p.Ordered) {action : Persist}
    {hard : Option HardState} {ops : List OpId} (books : m.persister = p.opened .wal action hard ops)
    (start : Nat) (truncated : Bool) :
    (m.writeLogFrom (p.nextId + 1) start truncated).persister =
        p.opened .wal action hard (ops ++ (m.log.writesFrom m.nextOp start truncated).filterMap Effect.op) ∧
      (m.writeLogFrom (p.nextId + 1) start truncated).effects =
        m.effects ++ m.log.writesFrom m.nextOp start truncated ∧
      (m.writeLogFrom (p.nextId + 1) start truncated).nextOp =
        m.nextOp + (m.log.writesFrom m.nextOp start truncated).length := by
  cases truncated with
  | false =>
    simp only [writeLogFrom, RaftLog.writesFrom, Bool.false_eq_true, if_false]
    split
    · simp [setLen, noteWrite, books, Persister.opened_noteWrite ordered, Effect.op]
    · simp [writeAt, noteWrite, books, Persister.opened_noteWrite ordered, Effect.op]
  | true =>
    simp only [writeLogFrom, RaftLog.writesFrom, if_true]
    split
    · next empty =>
      have empty' : (m.log.entries.filter fun e => start ≤ e.index).flatMap Entry.toRecord = [] := empty
      simp [setLen, noteWrite, books, Persister.opened_noteWrite ordered, Effect.op, empty']
    · next full =>
      have full' : (m.log.entries.filter fun e => start ≤ e.index).flatMap Entry.toRecord ≠ [] := full
      simp only [setLen, writeAt, noteWrite, books, Persister.opened_noteWrite ordered, if_neg full',
        List.append_assoc]
      simp [Effect.op]

theorem persistLogFrom_opened (ordered : n.persister.Ordered) (start : Nat) (truncated : Bool)
    (replyTo : Option NodeId) (replyTerm verified : Nat) :
    n.Opened (n.persistLogFrom start truncated replyTo replyTerm verified) .wal
      (n.logAction start verified replyTo replyTerm) none (n.log.writesFrom n.nextOp start truncated) := by
  obtain ⟨persister, effects, nextOp⟩ :=
    writeLogFrom_opened (m := n.startBatch (n.logAction start verified replyTo replyTerm)) ordered
      (Persister.start_opened _) start truncated
  exact ⟨persister, effects, nextOp, writesFrom_numbered .., writesFrom_wal _ _ _ _⟩

theorem persistHardAndLog_opened (ordered : n.persister.Ordered) (start : Nat) (truncated : Bool)
    (replyTo : Option NodeId) (replyTerm verified : Nat) :
    n.Opened (n.persistHardAndLog start truncated replyTo replyTerm verified) .wal
      (n.logAction start verified replyTo replyTerm) (some n.hardState)
      (n.hardState.write n.nextOp :: n.log.writesFrom (n.nextOp + 1) start truncated) := by
  have first := persistHard_opened ordered (n.logAction start verified replyTo replyTerm)
  obtain ⟨persister, effects, nextOp⟩ :=
    writeLogFrom_opened (m := n.persistHard (n.logAction start verified replyTo replyTerm)) ordered
      first.persister start truncated
  refine ⟨persister, ?_, ?_, ?_, ?_⟩
  · rw [persistHardAndLog]
    exact effects.trans (List.append_assoc _ [_] _)
  · rw [persistHardAndLog, List.length_cons]
    refine nextOp.trans ?_
    rw [first.nextOp]
    exact Nat.add_right_comm ..
  · rw [List.filterMap_cons, List.length_cons, List.range'_succ]
    exact congrArg (n.nextOp :: ·) (writesFrom_numbered ..)
  · intro e member
    rcases List.mem_cons.mp member with rfl | later
    · rfl
    · exact writesFrom_wal _ _ _ _ e later

theorem writeSnapshot_opened (ordered : n.persister.Ordered) (file : FileId) (snap : Snapshot)
    (action : Persist) :
    n.Opened (n.writeSnapshot file snap action) file action none (snap.writes n.nextOp file) where
  persister := by
    simp only [writeSnapshot, startBatch, setLen, writeAt, noteWrite, Persister.start_opened,
      Persister.opened_noteWrite ordered, Persister.opened_noteFile ordered]
    rfl
  effects := by
    simp [writeSnapshot, startBatch, setLen, writeAt, noteWrite, Snapshot.writes]
  nextOp := rfl
  numbered := rfl
  file := by simp [Snapshot.writes, Effect.WritesTo]

theorem Opened.nodup {m : Node} {file : FileId} {action : Persist} {hard : Option HardState}
    {writes : List Effect} (opened : n.Opened m file action hard writes) :
    (writes.filterMap Effect.op).Nodup := by
  rw [opened.numbered]
  exact List.nodup_range'

theorem Opened.fresh {m : Node} {file : FileId} {action : Persist} {hard : Option HardState}
    {writes : List Effect} (opened : n.Opened m file action hard writes) :
    ∀ op ∈ writes.filterMap Effect.op, n.nextOp ≤ op ∧ op < m.nextOp := by
  intro op member
  rw [opened.numbered, List.mem_range'_1] at member
  rw [opened.nextOp]
  exact member

theorem Opened.ledger {m : Node} {file : FileId} {action : Persist} {hard : Option HardState}
    {writes : List Effect} (opened : n.Opened m file action hard writes)
    (ledger : n.persister.Ledger n.nextOp) : m.persister.Ledger m.nextOp := by
  rw [opened.persister]
  exact ledger.opened opened.nodup opened.fresh (by rw [opened.nextOp]; exact Nat.le_add_right _ _)

theorem Opened.congr {k m : Node} {file : FileId} {action : Persist} {hard : Option HardState}
    {writes : List Effect} (opened : k.Opened m file action hard writes)
    (persister : k.persister = n.persister) (effects : k.effects = n.effects)
    (nextOp : k.nextOp = n.nextOp) : n.Opened m file action hard writes where
  persister := persister ▸ opened.persister
  effects := effects ▸ opened.effects
  nextOp := nextOp ▸ opened.nextOp
  numbered := nextOp ▸ opened.numbered
  file := opened.file

def stand (n : Node) : Node :=
  { n with
    preVotes := none
    term := n.term + 1
    votedFor := some n.id
    role := .candidate
    leader := none
    votes := {n.id} }

theorem Opened.retimed {m : Node} {file : FileId} {action : Persist} {hard : Option HardState}
    {writes : List Effect} (opened : n.Opened m file action hard writes) :
    n.Opened m.resetElectionTimer file action hard writes :=
  ⟨opened.persister, opened.effects, opened.nextOp, opened.numbered, opened.file⟩

theorem asks_quiet {m : Node} (persister : m.persister = n.persister) (io : m.effects = n.effects)
    (nextOp : m.nextOp = n.nextOp) (seq : m.stateSeq = n.stateSeq) : Asks cause n m :=
  .nothing [] nofun persister (io.trans (List.append_nil _).symm) nextOp seq

theorem ioSend_asks (dst : NodeId) (msg : RaftMsg) : Asks cause n (n.ioSend dst msg) := by
  unfold ioSend
  split
  · exact asks_quiet rfl rfl rfl rfl
  · exact .nothing [.send dst msg] (by simp [Effect.op]) rfl rfl rfl rfl

theorem takeEntries_asks (p : Nat) (es : List Entry) (i : Nat) (conflict : Bool)
    (sound : (n.takeEntries p es i conflict).panicked = false) :
    Asks cause n (n.takeEntries p es i conflict) := by
  obtain ⟨_, _, _, _, _, _, raft, io⟩ := n.takeEntries_toRaft p es i conflict sound
  cases conflict with
  | false => exact asks_quiet (by rw [raft]; rfl) (by rw [io]) (by rw [io]) (by rw [raft])
  | true => exact .clamp (p + i) (by rw [raft]; rfl) (by rw [io]) (by rw [io]) (by rw [raft])

-- The log region is all that an adoption can touch.
theorem adoptSnapshot_toIo (n : Node) (index term : Nat) (data : Bytes) :
    (n.adoptSnapshot index term data).toIo = (n.adoptLog index term).toIo := by
  have staged : ∀ app, ((n.stageImage index data app).adoptLog index term).toIo =
      (n.adoptLog index term).toIo := by
    intro app
    have log : (n.stageImage index data app).log = n.log := rfl
    unfold adoptLog
    rw [log]
    split <;> rfl
  simp only [adoptSnapshot, applyThrough, claimThrough, setSnapshotMembers, advanceDurable_toIo,
    refreshConfig_toIo]
  exact staged _

theorem adoptSnapshot_asks (n : Node) (index term : Nat) (data : Bytes) (installed : cause.Installs) :
    Asks cause n (n.adoptSnapshot index term data) := by
  obtain ⟨_, _, _, _, _, _, _, _, raft⟩ := n.adoptSnapshot_toRaft index term data
  have persister : (n.adoptSnapshot index term data).persister = n.persister := by rw [raft]
  have io := n.adoptSnapshot_toIo index term data
  unfold adoptLog at io
  split at io
  · exact asks_quiet persister (congrArg Io.effects io) (congrArg Io.nextOp io) (by rw [raft])
  · refine .clear persister ((congrArg Io.effects io).trans ?_) (congrArg Io.nextOp io) (by rw [raft])
      installed
    simp [replaceLog, setLen, Node.sync]

theorem writeSnapshot_asks {k : Node} {snap : Snapshot} {action : Persist}
    (ordered : n.persister.Ordered) (free : n.snapshotInFlight = false)
    (fresh : ∀ action hard, cause ≠ .durable action hard) (owes : n.Owes cause action none)
    (image : action.image = some (snap.index, n.nextSnapshotFile))
    (newer : n.log.snapshotIndex < snap.index ∨ n.highestSnapshot < snap.index)
    (same : k.persister = n.persister ∧ k.effects = n.effects ∧ k.nextOp = n.nextOp)
    (log : k.log = n.log) (file : k.durableSnapshotFile = n.durableSnapshotFile)
    (busy : k.snapshotInFlight = true) (highest : k.highestSnapshot = max n.highestSnapshot snap.index)
    (seq : k.stateSeq = n.stateSeq) :
    Asks cause n (k.writeSnapshot n.nextSnapshotFile snap action) := by
  obtain ⟨p, raft⟩ := k.writeSnapshot_toRaft n.nextSnapshotFile snap action
  have opened := writeSnapshot_opened (n := k) (same.1 ▸ ordered) n.nextSnapshotFile snap action
  rw [same.2.2] at opened
  refine .snapshot snap action free fresh owes image newer ?_ ?_ ?_ ?_ ?_
    (opened.congr same.1 same.2.1 same.2.2)
  · rw [raft]
    exact log
  · rw [raft]
    exact file
  · rw [raft]
    exact busy
  · rw [raft]
    exact highest
  · rw [raft]
    exact seq

end Node

-- Effects are only ever added.
theorem Node.Asks.effects {cause : Cause} {n m : Node} (asks : Asks cause n m) :
    ∃ out, m.effects = n.effects ++ out := by
  cases asks with
  | nothing out _ _ effects => exact ⟨out, effects⟩
  | clamp _ _ effects => exact ⟨[], effects.trans (List.append_nil _).symm⟩
  | wal _ _ writes _ _ _ opened => exact ⟨writes, opened.effects⟩
  | snapshot _ _ _ _ _ _ _ _ _ _ _ _ opened => exact ⟨_, opened.effects⟩
  | clear _ effects => exact ⟨_, effects⟩

-- The books stay in order.
theorem Node.Asks.ledger {cause : Cause} {n m : Node} (asks : Asks cause n m)
    (ledger : n.persister.Ledger n.nextOp) : m.persister.Ledger m.nextOp := by
  cases asks with
  | nothing _ _ persister _ nextOp => rwa [persister, nextOp]
  | clamp cap persister _ nextOp =>
    rw [persister, nextOp]
    exact ledger.clampAll cap
  | wal _ _ _ _ _ _ opened => exact opened.ledger ledger
  | snapshot _ _ _ _ _ _ _ _ _ _ _ _ opened => exact opened.ledger ledger
  | clear persister _ nextOp =>
    rw [persister, nextOp]
    exact ledger.later (Nat.le_add_right _ _)

theorem Node.Asks.ordered {cause : Cause} {n m : Node} (asks : Asks cause n m)
    (ordered : n.persister.Ordered) : m.persister.Ordered := by
  cases asks with
  | nothing _ _ persister => rwa [persister]
  | clamp cap persister =>
    rw [persister]
    exact ordered.clampAll cap
  | wal _ _ _ _ _ _ opened =>
    rw [opened.persister]
    exact Persister.opened_opens.ordered ordered
  | snapshot _ _ _ _ _ _ _ _ _ _ _ _ opened =>
    rw [opened.persister]
    exact Persister.opened_opens.ordered ordered
  | clear persister => rwa [persister]

-- Where the batches come from.
theorem Node.Asks.duties {cause : Cause} {n m : Node} (asks : Asks cause n m) {d : Duty}
    (member : d ∈ m.persister.duties) :
    d ∈ n.persister.duties ∨
      (∃ before ∈ n.persister.duties, ∃ cap, d = { before with action := before.action.clamp cap }) ∨
      n.Owes cause d.action d.hard := by
  cases asks with
  | nothing _ _ persister =>
    rw [persister] at member
    exact .inl member
  | clamp cap persister =>
    rw [persister, Persister.duties_clampAll] at member
    obtain ⟨before, found, rfl⟩ := List.mem_map.mp member
    exact .inr (.inl ⟨before, found, cap, rfl⟩)
  | wal _ _ _ owes _ _ opened =>
    rw [opened.persister, Persister.opened_opens.2] at member
    rcases List.mem_append.mp member with old | new
    · exact .inl old
    · rw [List.mem_singleton.mp new]
      exact .inr (.inr owes)
  | snapshot _ _ _ _ owes _ _ _ _ _ _ _ opened =>
    rw [opened.persister, Persister.opened_opens.2] at member
    rcases List.mem_append.mp member with old | new
    · exact .inl old
    · rw [List.mem_singleton.mp new]
      exact .inr (.inr owes)
  | clear persister =>
    rw [persister] at member
    exact .inl member

open Node in
-- Every act, as far as the disk can tell.
theorem Act.asks {cause : Cause} {r : Raft} {n m : Node} (act : Act cause r n m)
    (ordered : n.persister.Ordered) : Asks cause n m := by
  cases act with
  | send dst msg => exact ioSend_asks dst msg
  | deferred dst msg => exact ioSend_asks dst msg
  | candidacy =>
    have opened := persistHard_opened (n := n.stand) ordered (.campaign (n.term + 1))
    exact .wal _ _ _ .campaign rfl ⟨rfl, rfl⟩ (opened.retimed.congr rfl rfl rfl)
  | vote src candidate requested free =>
    have opened := persistHard_opened (n := n.castVote candidate) ordered (.voteReply src n.term true)
    exact .wal _ _ _ (.vote src candidate requested free) rfl ⟨rfl, rfl⟩ (opened.congr rfl rfl rfl)
  | persistQuiet =>
    exact .wal _ _ _ .quiet rfl (persistHard_carries _) (persistHard_opened ordered _)
  | persistRefusal dst =>
    exact .wal _ _ _ (.refusal dst) rfl (persistHard_carries _) (persistHard_opened ordered _)
  | persistFailure dst i j =>
    exact .wal _ _ _ (.failure dst i j) rfl (persistHard_carries _) (persistHard_opened ordered _)
  | persistCovered dst lastNew covered =>
    exact .wal _ _ _ (.covered dst lastNew covered) rfl (persistHard_carries _) (persistHard_opened ordered _)
  | persistAnswer =>
    exact .wal _ _ _ (.log _ _ _ _ _ _ (by simp)) rfl (persistHard_carries _) (persistHard_opened ordered _)
  | persistLog hard start truncated src lastNew =>
    split
    · obtain ⟨_, raft⟩ := n.persistHardAndLog_toRaft start truncated (some src) n.term lastNew
      refine .wal _ _ _ (.log _ _ _ _ _ _ (by simp)) rfl ?_ (persistHardAndLog_opened ordered _ _ _ _ _)
      rw [Carries, raft]
      exact ⟨rfl, rfl⟩
    · obtain ⟨_, raft, _⟩ := n.persistLogFrom_spec start truncated (some src) n.term lastNew
      refine .wal _ _ _ (.log _ _ _ _ _ _ (by simp)) rfl ?_ (persistLogFrom_opened ordered _ _ _ _ _)
      rw [Carries, raft]
  | persistOwn start =>
    obtain ⟨_, raft, _⟩ := n.persistLogFrom_spec start false none 0 unverified
    refine .wal _ _ _ (.log _ _ _ _ _ _ (by simp)) rfl ?_ (persistLogFrom_opened ordered _ _ _ _ _)
    rw [Carries, raft]
  | splice _ _ _ _ _ _ p t es i conflict _ _ _ _ _ _ sound => exact takeEntries_asks p es i conflict sound
  | reconfigure =>
    obtain ⟨_, _, _, _, kept⟩ := n.refreshConfig_toRaft
    refine asks_quiet (by rw [kept]) ?_ ?_ (by rw [kept]) <;> rw [refreshConfig_toIo]
  | follow _ lastNew leaderCommit =>
    obtain ⟨_, same, _⟩ := n.followCommit_spec leaderCommit lastNew
    rw [same]
    exact asks_quiet rfl rfl rfl rfl
  | claim start index =>
    obtain ⟨_, _, raft, _⟩ := n.claimRange_spec start index
    refine asks_quiet (by rw [raft]) ?_ ?_ (by rw [raft]) <;> rw [claimRange_toIo]
  | taken index term file =>
    obtain ⟨_, _, _, _, kept⟩ := { n with
      snapshotInFlight := false
      durableSnapshotFile := some file
      snapshotMembers := (n.configAt index).1
      log := n.log.compactTo index term }.refreshConfig_toRaft
    refine asks_quiet (by rw [snapshotTaken, kept]) ?_ ?_ (by rw [snapshotTaken, kept]) <;>
      rw [snapshotTaken, refreshConfig_toIo]
  | adopt index term data file replyTo replyTerm hard done =>
    exact adoptSnapshot_asks n index term data ⟨_, _, _, _, _, _, _, done⟩
  | capture data term drains wanted known =>
    simp only [takeSnapshot, wanted, not_true_eq_false, if_false, known]
    exact writeSnapshot_asks ordered (k := { n.claimSnapshot n.lastApplied with
      snapshotData := encodeSnapshotPayload (n.configAt n.lastApplied).1 data }) wanted.2.1
      (by simp [drains]) (.taken term drains wanted known) rfl (.inl wanted.2.2.2.1) ⟨rfl, rfl, rfl⟩
      rfl rfl rfl rfl rfl
  | receive src leader index indexTerm data offered free newer ahead =>
    exact writeSnapshot_asks ordered (k := n.claimSnapshot index) free (by simp [offered])
      (.installed src leader index indexTerm data offered ahead) rfl (.inr newer) ⟨rfl, rfl, rfl⟩
      rfl rfl rfl rfl rfl
  | _ => exact asks_quiet rfl rfl rfl rfl

end SimKv
