import SimKv.Kv.Run
import SimKv.Raft.Contiguous

set_option autoImplicit false

/-!
# Reads without the log

A leader may answer a read from its state machine once a majority of the members in force has answered a
probe it sent after the read arrived.
-/

namespace SimKv

structure Answer where
  src : NodeId
  term : Nat
  seq : Nat
  deriving DecidableEq, Repr

/-- A node between two events, with what had been answered to it by then. -/
structure Instant where
  raft : Raft
  answers : List Answer

namespace Instant

variable (i : Instant)

/-- The members whose word counts for round `seq`: those that answered in the node's term, and the node
itself while it is a member. -/
def support (seq : Nat) : Nat :=
  ((i.raft.members.toFinset.erase i.raft.id).filter fun m =>
    ∃ a ∈ i.answers, a.src = m ∧ a.term = i.raft.term ∧ seq ≤ a.seq).card +
    if i.raft.id ∈ i.raft.members then 1 else 0

/-- The read has been accepted, the node leads the term it was accepted in, and a quorum stands behind it. -/
def Sanctions (id readIndex term seq : Nat) : Prop :=
  .requested id readIndex term seq ∈ i.raft.readEvents ∧ i.raft.role = .leader ∧ i.raft.term = term ∧
    i.raft.members.length / 2 + 1 ≤ i.support seq

instance (id readIndex term seq : Nat) : Decidable (i.Sanctions id readIndex term seq) :=
  inferInstanceAs (Decidable (_ ∧ _))

end Instant

/-- A server, and what happened to it since it last started. -/
structure ReadHistory extends KvServer where
  answers : List Answer := []
  instants : List Instant := []

def KvEvent.answered : KvEvent → List Answer
  | .message _ src (.readProbeResp term seq) => [{ src, term, seq }]
  | _ => []

def KvEvent.isRestart : KvEvent → Bool
  | .restart .. => true
  | _ => false

namespace ReadHistory

variable (who : Identity) (h : ReadHistory)

def record (event : KvEvent) (k : KvServer) : ReadHistory :=
  if event.isRestart then { toKvServer := k }
  else
    let answers := h.answers ++ event.answered
    { toKvServer := k, answers, instants := h.instants ++ [{ raft := k.toRaft, answers }] }

def init : ReadHistory := { toKvServer := KvServer.init who }

def step (event : KvEvent) : Option ReadHistory := (h.toKvServer.step who event).map (h.record event)

def Reachable (ok : ReadHistory → KvEvent → Prop) (h : ReadHistory) : Prop :=
  Execution.Run (step who) ok (init who) h

end ReadHistory

/-- Acknowledgements, pending reads and served reads of `r` are accounted for by the answers it got and
by what it was at the `past` instants. -/
structure Raft.Accounted (r : Raft) (answers : List Answer) (past : List Instant) : Prop where
  acks : r.role = .leader → ∀ m acked, r.probeAcked m = some acked →
    m ≠ r.id ∧ { src := m, term := r.term, seq := acked } ∈ answers
  asked : r.role = .leader → ∀ read ∈ r.pendingReads,
    .requested read.id read.readIndex r.term read.seq ∈ r.readEvents
  confirmed : r.role = .leader → ∀ read ∈ r.pendingReads, read.confirmed = true →
    ∃ i ∈ past, i.Sanctions read.id read.readIndex r.term read.seq
  served : ∀ id, .served id ∈ r.readEvents → ∃ readIndex term seq,
    .requested id readIndex term seq ∈ r.readEvents ∧ ∃ i ∈ past, i.Sanctions id readIndex term seq

structure Raft.SamePost (r r' : Raft) : Prop where
  id : r'.id = r.id
  role : r'.role = r.role
  term : r'.term = r.term
  members : r'.members = r.members
  readEvents : ∀ event ∈ r.readEvents, event ∈ r'.readEvents

theorem Instant.Sanctions.moved {r r' : Raft} {answers : List Answer} {id readIndex term seq : Nat}
    (sanctions : Instant.Sanctions { raft := r, answers } id readIndex term seq) (same : r.SamePost r') :
    Instant.Sanctions { raft := r', answers } id readIndex term seq := by
  obtain ⟨asked, role, own, quorum⟩ := sanctions
  refine ⟨same.readEvents _ asked, same.role.trans role, same.term.trans own, ?_⟩
  simp only [support, same.members, same.id, same.term] at quorum ⊢
  exact quorum

-- The present instant may be replaced by a later one in the same post.
theorem Instant.exists_moved {r r' : Raft} {answers : List Answer} {past : List Instant}
    {id readIndex term seq : Nat} (same : r.SamePost r')
    (found : ∃ i ∈ past ++ [{ raft := r, answers }], i.Sanctions id readIndex term seq) :
    ∃ i ∈ past ++ [{ raft := r', answers }], i.Sanctions id readIndex term seq := by
  obtain ⟨i, member, sanctions⟩ := found
  rcases List.mem_append.mp member with old | now
  · exact ⟨i, List.mem_append_left _ old, sanctions⟩
  · cases List.mem_singleton.mp now
    exact ⟨_, List.mem_append_right _ (List.mem_singleton_self _), sanctions.moved same⟩

theorem Raft.Accounted.mono {r : Raft} {answers answers' : List Answer} {past past' : List Instant}
    (accounted : r.Accounted answers past) (more : answers ⊆ answers') (later : past ⊆ past') :
    r.Accounted answers' past' where
  acks leads m acked found := by
    obtain ⟨other, member⟩ := accounted.acks leads m acked found
    exact ⟨other, more member⟩
  asked := accounted.asked
  confirmed leads read member yes := by
    obtain ⟨i, old, sanctions⟩ := accounted.confirmed leads read member yes
    exact ⟨i, later old, sanctions⟩
  served id member := by
    obtain ⟨readIndex, term, seq, asked, i, old, sanctions⟩ := accounted.served id member
    exact ⟨readIndex, term, seq, asked, i, later old, sanctions⟩

structure Raft.Unread (r n : Raft) : Prop where
  id : n.id = r.id
  pendingReads : n.pendingReads = r.pendingReads
  readEvents : n.readEvents = r.readEvents
  -- A leader has been one all along, or has just been elected.
  office : n.role = .leader → (r.role = .leader ∧ n.term = r.term ∧ n.probeAcked = r.probeAcked) ∨
    (r.role = .candidate ∧ ∀ m, n.probeAcked m = none)

def Cause.Unread (cause : Cause) : Prop :=
  cause ≠ .read ∧ ∀ src term seq, cause ≠ .message src (.readProbeResp term seq)

theorem Act.unread {cause : Cause} {r : Raft} {n m : Node} (act : Act cause r n m) (quiet : cause.Unread)
    (before : r.Unread n.toRaft) : r.Unread m.toRaft := by
  have becomes := act.becomes
  obtain ⟨id, reads, events, office⟩ := before
  generalize m.toRaft = after at becomes ⊢
  cases becomes with
  | stepDown | yield | candidacy | stepAside => exact ⟨id, reads, events, nofun⟩
  | takeOffice stood => exact ⟨id, reads, events, fun _ => .inr ⟨stood, fun _ => rfl⟩⟩
  | probeAck src seq _ answered => exact absurd answered (quiet.2 src _ seq)
  | read _ asked => exact absurd asked quiet.1
  | _ => exact ⟨id, reads, events, office⟩

theorem Raft.Unread.accounted {r n : Raft} {answers : List Answer} {past : List Instant}
    (unread : r.Unread n) (accounted : r.Accounted answers past)
    (idle : r.role = .candidate → r.pendingReads = []) : n.Accounted answers past where
  acks leads m acked found := by
    rcases unread.office leads with ⟨led, term, same⟩ | ⟨_, none⟩
    · rw [unread.id, term]
      exact accounted.acks led m acked (same ▸ found)
    · rw [none m] at found
      cases found
  asked leads read member := by
    rw [unread.pendingReads] at member
    rcases unread.office leads with ⟨led, term, _⟩ | ⟨stood, _⟩
    · rw [unread.readEvents, term]
      exact accounted.asked led read member
    · rw [idle stood] at member
      cases member
  confirmed leads read member yes := by
    rw [unread.pendingReads] at member
    rcases unread.office leads with ⟨led, term, _⟩ | ⟨stood, _⟩
    · rw [term]
      exact accounted.confirmed led read member yes
    · rw [idle stood] at member
      cases member
  served id member := by
    rw [unread.readEvents] at member ⊢
    exact accounted.served id member

-- The leader's count never exceeds the support it has.
theorem Instant.le_support {r : Raft} {answers : List Answer} {seq : Nat}
    (acks : ∀ m acked, r.probeAcked m = some acked →
      m ≠ r.id ∧ { src := m, term := r.term, seq := acked } ∈ answers)
    (confirmed : Node.confirmedBy r seq) :
    r.members.length / 2 + 1 ≤ Instant.support { raft := r, answers } seq := by
  have counted : Node.probeAcks r seq ≤ ((r.members.toFinset.erase r.id).filter fun m =>
      ∃ a ∈ answers, a.src = m ∧ a.term = r.term ∧ seq ≤ a.seq).card := by
    refine Finset.card_le_card fun m member => ?_
    obtain ⟨inside, acked, found, enough⟩ := Finset.mem_filter.mp member
    obtain ⟨other, answer⟩ := acks m acked found
    exact Finset.mem_filter.mpr ⟨Finset.mem_erase.mpr ⟨other, inside⟩, _, answer, rfl, rfl, enough⟩
  have own : (if r.isMember then 1 else 0) = if r.id ∈ r.members then 1 else 0 := rfl
  simp only [Node.confirmedBy, Raft.quorum, own] at confirmed
  simp only [support]
  omega

theorem Node.countProbe_accounted {n : Node} {answers : List Answer} {past : List Instant} {src : NodeId}
    {seq : Nat} (accounted : n.Accounted answers past) (leads : n.role = .leader) (other : src ≠ n.id) :
    (n.countProbe src seq).Accounted (answers ++ [{ src, term := n.term, seq }])
      (past ++ [{ raft := (n.countProbe src seq).toRaft
                  answers := answers ++ [{ src, term := n.term, seq }] }]) := by
  have acks : ∀ m acked, (n.countProbe src seq).probeAcked m = some acked →
      m ≠ n.id ∧ { src := m, term := n.term, seq := acked } ∈ answers ++ [{ src, term := n.term, seq }] := by
    intro m acked found
    simp only [countProbe] at found
    by_cases same : m = src
    · subst same
      rw [Function.update_self] at found
      cases found
      refine ⟨other, ?_⟩
      cases old : n.probeAcked m with
      | none =>
        rw [Option.getD_none, Nat.zero_max]
        exact List.mem_append_right _ (List.mem_singleton_self _)
      | some before =>
        rw [Option.getD_some]
        rcases le_total before seq with less | more
        · rw [max_eq_right less]
          exact List.mem_append_right _ (List.mem_singleton_self _)
        · rw [max_eq_left more]
          exact List.mem_append_left _ (accounted.acks leads m before old).2
    · rw [Function.update_of_ne same] at found
      obtain ⟨different, answer⟩ := accounted.acks leads m acked found
      exact ⟨different, List.mem_append_left _ answer⟩
  -- a pending read is an old one, with the same identity
  have origin : ∀ read ∈ (n.countProbe src seq).pendingReads, ∃ old ∈ n.pendingReads,
      read.id = old.id ∧ read.readIndex = old.readIndex ∧ read.seq = old.seq ∧
      (read.confirmed = true → old.confirmed = true ∨
        confirmedBy (n.countProbe src seq).toRaft read.seq) := by
    intro read member
    obtain ⟨old, was, becomes⟩ := List.mem_map.mp member
    split at becomes
    · next newly =>
      subst becomes
      exact ⟨old, was, rfl, rfl, rfl, fun _ => .inr newly.2⟩
    · subst becomes
      exact ⟨old, was, rfl, rfl, rfl, fun yes => .inl yes⟩
  refine ⟨fun _ => acks, ?_, ?_, ?_⟩
  · intro _ read member
    obtain ⟨old, was, id, index, round, _⟩ := origin read member
    rw [id, index, round]
    exact accounted.asked leads old was
  · intro _ read member yes
    obtain ⟨old, was, id, index, round, why⟩ := origin read member
    rcases why yes with before | now
    · obtain ⟨i, past, sanctions⟩ := accounted.confirmed leads old was before
      rw [id, index, round]
      exact ⟨i, List.mem_append_left _ past, sanctions⟩
    · refine ⟨_, List.mem_append_right _ (List.mem_singleton_self _), ?_, leads, rfl, ?_⟩
      · rw [id, index, round]
        exact accounted.asked leads old was
      · exact Instant.le_support acks now
  · intro id member
    obtain ⟨readIndex, term, round, asked, i, old, sanctions⟩ := accounted.served id member
    exact ⟨readIndex, term, round, asked, i, List.mem_append_left _ old, sanctions⟩

theorem Node.acceptRead_accounted {n : Node} {answers : List Answer} {past : List Instant}
    (accounted : n.Accounted answers past) (leads : n.role = .leader)
    (counted : n.members.length = 1 → n.isMember) (id : Nat) :
    (n.acceptRead id).Accounted answers (past ++ [{ raft := (n.acceptRead id).toRaft, answers }]) := by
  refine ⟨accounted.acks, ?_, ?_, ?_⟩
  · intro _ read member
    rcases List.mem_append.mp member with old | new
    · exact List.mem_append_left _ (accounted.asked leads read old)
    · cases List.mem_singleton.mp new
      exact List.mem_append_right _ (List.mem_singleton_self _)
  · intro _ read member yes
    rcases List.mem_append.mp member with old | new
    · obtain ⟨i, was, sanctions⟩ := accounted.confirmed leads read old yes
      exact ⟨i, List.mem_append_left _ was, sanctions⟩
    · cases List.mem_singleton.mp new
      -- the node is the whole cluster
      have alone : n.members.length = 1 := of_decide_eq_true yes
      have member : n.id ∈ n.members := counted alone
      refine ⟨_, List.mem_append_right _ (List.mem_singleton_self _),
        List.mem_append_right _ (List.mem_singleton_self _), leads, rfl, ?_⟩
      simp only [Instant.support, acceptRead, alone, if_pos member]
      omega
  · intro served member
    rcases List.mem_append.mp member with old | new
    · obtain ⟨readIndex, term, round, asked, i, was, sanctions⟩ := accounted.served served old
      exact ⟨readIndex, term, round, List.mem_append_left _ asked, i, List.mem_append_left _ was, sanctions⟩
    · cases List.mem_singleton.mp new

theorem Raft.Accounted.drain {n : Node} {answers : List Answer} {past : List Instant} (blob : Bytes)
    (accounted : n.Accounted answers (past ++ [{ raft := n.toRaft, answers }])) :
    (n.drain blob).node.Accounted answers (past ++ [{ raft := (n.drain blob).node.toRaft, answers }]) ∧
      ((n.drain blob).node.role ≠ .leader → (n.drain blob).node.pendingReads = []) ∧
      ∀ id readIndex term seq, .requested id readIndex term seq ∈ (n.drain blob).node.readEvents →
        .requested id readIndex term seq ∈ n.readEvents := by
  rw [Node.drain_node]
  obtain ⟨_, _, _, _, _, raft⟩ := n.emptyQueues.takeSnapshot_toRaft blob
  rw [raft, Node.emptyQueues_eq]
  have moved {id readIndex term seq : Nat} {r : Raft} (same : n.SamePost r) :=
    @Instant.exists_moved n.toRaft r answers past id readIndex term seq same
  refine ⟨⟨accounted.acks, ?_, ?_, ?_⟩, ?_, ?_⟩
  · intro leads read member
    rw [if_pos leads] at member
    exact List.mem_append_left _ (accounted.asked leads read (List.mem_of_mem_filter member))
  · intro leads read member yes
    rw [if_pos leads] at member
    exact moved ⟨rfl, rfl, rfl, rfl, fun _ => List.mem_append_left _⟩
      (accounted.confirmed leads read (List.mem_of_mem_filter member) yes)
  · intro id member
    rcases List.mem_append.mp member with old | new
    · obtain ⟨readIndex, term, seq, asked, found⟩ := accounted.served id old
      exact ⟨readIndex, term, seq, List.mem_append_left _ asked,
        moved ⟨rfl, rfl, rfl, rfl, fun _ => List.mem_append_left _⟩ found⟩
    · split at new
      · next leads =>
        obtain ⟨_, named, same⟩ := List.mem_map.mp new
        cases same
        obtain ⟨read, ready, rfl⟩ := List.mem_map.mp named
        obtain ⟨pending, released⟩ := List.mem_filter.mp ready
        exact ⟨read.readIndex, n.term, read.seq, List.mem_append_left _ (accounted.asked leads read pending),
          moved ⟨rfl, rfl, rfl, rfl, fun _ => List.mem_append_left _⟩
            (accounted.confirmed leads read pending (of_decide_eq_true released).1)⟩
      · cases new
  · intro follows
    exact if_neg follows
  · intro id readIndex term seq member
    rcases List.mem_append.mp member with old | new
    · exact old
    · split at new
      · obtain ⟨_, _, same⟩ := List.mem_map.mp new
        cases same
      · cases new

structure Raft.ReadsNamed (r : Raft) (next : Nat) : Prop where
  below : ∀ id readIndex term seq, .requested id readIndex term seq ∈ r.readEvents → id < next
  unique : ∀ id readIndex term seq readIndex' term' seq',
    .requested id readIndex term seq ∈ r.readEvents → .requested id readIndex' term' seq' ∈ r.readEvents →
    readIndex = readIndex' ∧ term = term' ∧ seq = seq'

theorem Raft.ReadsNamed.mono {r r' : Raft} {next next' : Nat} (named : r.ReadsNamed next)
    (old : ∀ id readIndex term seq, .requested id readIndex term seq ∈ r'.readEvents →
      .requested id readIndex term seq ∈ r.readEvents) (later : next ≤ next') : r'.ReadsNamed next' where
  below id _ _ _ member := (named.below id _ _ _ (old _ _ _ _ member)).trans_le later
  unique id _ _ _ _ _ _ member member' := named.unique id _ _ _ _ _ _ (old _ _ _ _ member) (old _ _ _ _ member')

theorem Node.acceptRead_named {n : Node} {next : Nat} (named : n.ReadsNamed next) :
    (n.acceptRead next).ReadsNamed (next + 1) := by
  have cases (id readIndex term seq : Nat)
      (member : .requested id readIndex term seq ∈ (n.acceptRead next).readEvents) :
      .requested id readIndex term seq ∈ n.readEvents ∨
        id = next ∧ readIndex = n.commitIndex ∧ term = n.term ∧ seq = n.readSeq + 1 := by
    rcases List.mem_append.mp member with old | new
    · exact .inl old
    · cases List.mem_singleton.mp new
      exact .inr ⟨rfl, rfl, rfl, rfl⟩
  constructor
  · intro id readIndex term seq member
    rcases cases id readIndex term seq member with old | ⟨rfl, _⟩
    · exact (named.below id _ _ _ old).trans (Nat.lt_succ_self _)
    · exact Nat.lt_succ_self _
  · intro id readIndex term seq readIndex' term' seq' member member'
    rcases cases id readIndex term seq member with old | ⟨rfl, rfl, rfl, rfl⟩
    · rcases cases id readIndex' term' seq' member' with old' | ⟨rfl, _⟩
      · exact named.unique id _ _ _ _ _ _ old old'
      · exact absurd (named.below id _ _ _ old) (lt_irrefl _)
    · rcases cases id readIndex' term' seq' member' with old' | ⟨_, rfl, rfl, rfl⟩
      · exact absurd (named.below id _ _ _ old') (lt_irrefl _)
      · exact ⟨rfl, rfl, rfl⟩

namespace ReadHistory

variable (h : ReadHistory)

/-- `request_read` takes the read: the server leads and has committed an entry of its term. -/
def Accepts (client seq : Nat) : Prop :=
  h.role = .leader ∧ h.sm.cached client seq = none ∧ h.cfg.readMode = .readIndex ∧ h.failed = false ∧
    h.log.termAt h.commitIndex = some h.term

instance (client seq : Nat) : Decidable (h.Accepts client seq) := inferInstanceAs (Decidable (_ ∧ _))

end ReadHistory

def KvEvent.clientRead : KvEvent → Option (Nat × Nat)
  | .request _ _ _ client seq (.get _) => some (client, seq)
  | _ => none

def KvEvent.sender : KvEvent → Option NodeId
  | .message _ src _ => some src
  | _ => none

-- A sender is looked at; the identifiers are not gone through.
instance (event : KvEvent) (p : NodeId → Prop) [DecidablePred p] : Decidable (∀ src ∈ event.sender, p src) :=
  Option.decidableForallMem _

namespace ReadHistory

variable {who : Identity} {h : ReadHistory} {event : KvEvent}

/-- Nothing arrives from the node itself, and no read is accepted while another server is the only member. -/
def NotOutvoted (h : ReadHistory) (event : KvEvent) : Prop :=
  (∀ src ∈ event.sender, src ≠ h.id) ∧
    ∀ read ∈ event.clientRead, ¬ (h.Accepts read.1 read.2 ∧ h.members.length = 1 ∧ h.id ∉ h.members)

instance (h : ReadHistory) (event : KvEvent) : Decidable (h.NotOutvoted event) :=
  inferInstanceAs (Decidable ((∀ src ∈ event.sender, _) ∧ ∀ read ∈ event.clientRead, _))

structure Guarded (h : ReadHistory) : Prop where
  accounted : h.Accounted h.answers h.instants
  idle : h.role ≠ .leader → h.pendingReads = []
  named : h.ReadsNamed h.nextReadId

def Quiet (input : Input) : Prop :=
  input ≠ .read ∧ ∀ p term seq, p.msg = .readProbeResp term seq → input ≠ .deliver p

theorem Quiet.cause {s : Server} {now : Nat} {input : Input} {cause : Cause} {n : Node} (quiet : Quiet input)
    (begins : s.Begins now input cause n) : cause.Unread := by
  cases begins with
  | read => exact absurd rfl quiet.1
  | message p =>
    refine ⟨nofun, fun src term seq same => ?_⟩
    exact quiet.2 p term seq (Cause.message.inj same).2 rfl
  | _ => exact ⟨nofun, nofun⟩

-- Such an input leaves the reads as they are, unless the node lost its office.
theorem Guarded.quiet (guarded : h.Guarded) {now : Nat} {input : Input} (quiet : Quiet input)
    (undrained : ∀ blob, input ≠ .drain blob)
    (calm : (h.server.handle now input).1.panicked = false) :
    (h.server.handle now input).1.Accounted h.answers h.instants ∧
      (h.server.handle now input).1.readEvents = h.readEvents := by
  obtain ⟨cause, n, begun, leads⟩ := h.server.handle_leads now input
  have cause_ := quiet.cause begun
  obtain ⟨_, _, _, _, _, _, raft⟩ := begun.toRaft_eq undrained
  have start : n.Accounted h.answers h.instants := by
    rw [raft]
    exact ⟨guarded.accounted.acks, guarded.accounted.asked, guarded.accounted.confirmed,
      guarded.accounted.served⟩
  have idle : n.role = .candidate → n.pendingReads = [] := by
    rw [raft]
    intro stood
    refine guarded.idle fun leads => ?_
    rw [show h.role = .candidate from stood] at leads
    cases leads
  have events : n.readEvents = h.readEvents := by rw [raft]; rfl
  have chain := leads calm
  have unread : n.Unread (h.server.handle now input).1.toRaft := by
    generalize (h.server.handle now input).1 = last at chain
    induction chain with
    | refl => exact ⟨rfl, rfl, rfl, fun leads => .inl ⟨leads, rfl, rfl⟩⟩
    | tail _ act ih => exact act.unread cause_ ih
  exact ⟨unread.accounted start idle, unread.readEvents.trans events⟩

-- A node that does not lead owes only the reads it has served.
theorem accounted_of_served {r : Raft} (guarded : h.Guarded) (follows : r.role ≠ .leader)
    (events : r.readEvents = h.readEvents) : r.Accounted h.answers h.instants where
  acks leads := absurd leads follows
  asked leads := absurd leads follows
  confirmed leads := absurd leads follows
  served := by
    rw [events]
    exact guarded.accounted.served

theorem Guarded.probed (guarded : h.Guarded) (now : Nat) {src : NodeId} {term seq : Nat} (other : src ≠ h.id) :
    let n := (h.server.wake now).onMessage src (.readProbeResp term seq)
    let answers := h.answers ++ [Answer.mk src term seq]
    n.Accounted answers (h.instants ++ [{ raft := n.toRaft, answers }]) ∧ n.readEvents = h.readEvents := by
  intro n answers
  have start : (h.server.wake now).Accounted h.answers h.instants := guarded.accounted
  have same : n = (h.server.wake now).onMessage src (.readProbeResp term seq) := rfl
  simp only [Node.onMessage] at same
  split at same
  · rw [same]
    exact ⟨start.mono (List.subset_append_left _ _) (List.subset_append_left _ _), rfl⟩
  · simp only [Node.onReadProbeResp] at same
    split at same
    · rw [same]
      have follows : ((h.server.wake now).stepDownAndPersist term).role ≠ .leader := nofun
      have served := accounted_of_served guarded follows rfl
      exact ⟨served.mono (List.subset_append_left _ _) (List.subset_append_left _ _), rfl⟩
    · split at same
      · rw [same]
        exact ⟨start.mono (List.subset_append_left _ _) (List.subset_append_left _ _), rfl⟩
      · next fits =>
        rw [not_or, not_not, not_not] at fits
        obtain ⟨leads, own⟩ := fits
        rw [same]
        refine ⟨?_, rfl⟩
        have counted : ((h.server.wake now).countProbe src seq).Accounted _ _ :=
          Node.countProbe_accounted start leads other
        rw [← own] at counted
        exact counted

theorem Guarded.asked (guarded : h.Guarded) (now : Nat)
    {client seq : Nat} (leads : h.role = .leader) (fresh : h.sm.cached client seq = none)
    (counted : h.Accepts client seq → h.members.length = 1 → h.id ∈ h.members) :
    let n := ((h.server.wake now).requestRead h.nextReadId).2
    n.Accounted h.answers (h.instants ++ [{ raft := n.toRaft, answers := h.answers }]) ∧
      n.ReadsNamed (h.nextReadId + 1) := by
  intro n
  have start : (h.server.wake now).Accounted h.answers h.instants := guarded.accounted
  have named : (h.server.wake now).ReadsNamed h.nextReadId := guarded.named
  have unasked : (h.server.wake now).Accounted h.answers
        (h.instants ++ [{ raft := (h.server.wake now).toRaft, answers := h.answers }]) ∧
      (h.server.wake now).ReadsNamed (h.nextReadId + 1) := by
    exact ⟨start.mono (List.Subset.refl _) (List.subset_append_left _ _),
      named.mono (fun _ _ _ _ => id) (Nat.le_succ _)⟩
  have same : n = ((h.server.wake now).requestRead h.nextReadId).2 := rfl
  simp only [Node.requestRead] at same
  split at same
  · rw [same]
    exact unasked
  · next ready =>
    split at same
    · rw [same]
      exact unasked
    · next known =>
      rw [not_or, not_or, not_not, not_not] at ready
      obtain ⟨mode, _, alive⟩ := ready
      have accepts : h.Accepts client seq :=
        ⟨leads, fresh, mode, Bool.eq_false_iff.mpr alive, not_not.mp known⟩
      have raft : n.toRaft = ((h.server.wake now).acceptRead h.nextReadId).toRaft := by
        rw [same]
        split
        · rfl
        · exact Node.broadcastProbe_toRaft _
      rw [raft]
      exact ⟨Node.acceptRead_accounted start leads (counted accepts) _,
        Node.acceptRead_named named⟩

-- What the one call of an event leaves behind.
theorem Guarded.called (guarded : h.Guarded) (allowed : h.NotOutvoted event) {now next : Nat} {input : Input}
    (call : h.Calls event now input) (later : h.nextReadId ≤ next)
    (counted : input = .read → next = h.nextReadId + 1)
    (calm : (h.server.handle now input).1.panicked = false) :
    let n := (h.server.handle now input).1
    let answers := h.answers ++ event.answered
    n.Accounted answers (h.instants ++ [{ raft := n.toRaft, answers }]) ∧ n.ReadsNamed next := by
  intro n answers
  have quietly (quiet : Quiet input) : n.Accounted answers (h.instants ++ [{ raft := n.toRaft, answers }]) ∧
      n.ReadsNamed next := by
    obtain ⟨accounted, events⟩ := guarded.quiet quiet call.undrained calm
    refine ⟨accounted.mono (List.subset_append_left _ _) (List.subset_append_left _ _),
      guarded.named.mono ?_ later⟩
    intro id readIndex term seq member
    exact events ▸ member
  cases call with
  | message now src msg =>
    by_cases answer : ∃ term seq, msg = .readProbeResp term seq
    · obtain ⟨term, seq, rfl⟩ := answer
      obtain ⟨accounted, events⟩ := @Guarded.probed h guarded now src term seq (allowed.1 src rfl)
      refine ⟨accounted, guarded.named.mono ?_ later⟩
      intro id readIndex term' seq' member
      exact events ▸ member
    · push Not at answer
      refine quietly ⟨nofun, ?_⟩
      rintro p term seq same ⟨⟩
      exact answer term seq same
  | timer | storage | propose | membership => exact quietly ⟨nofun, nofun⟩
  | read now src reqId client seq key leads fresh =>
    have none : answers = h.answers := List.append_nil _
    rw [none, counted rfl]
    refine guarded.asked now leads fresh fun accepts alone => ?_
    by_contra outside
    exact allowed.2 (client, seq) rfl ⟨accepts, alone, outside⟩

end ReadHistory

theorem Node.proposeMembership_reads (n : Node) (members : List NodeId) :
    (n.proposeMembership members).2.role = n.role ∧
      (n.proposeMembership members).2.pendingReads = n.pendingReads := by
  rcases n.proposeMembership_cases members with same | ⟨cmd, persister, raft⟩
  · rw [same]
    exact ⟨rfl, rfl⟩
  · obtain ⟨_, _, _, _, kept⟩ := (n.appendEntry (n.ownEntry cmd)).refreshConfig_toRaft
    rw [raft, kept]
    unfold appendEntry
    split <;> exact ⟨rfl, rfl⟩

-- A node that has just started has accepted no reads.
theorem KvServer.recover_reads (wal a b : Bytes) (id : NodeId) (members : List NodeId) (cfg : RaftConfig)
    (io : Io) :
    (recover wal a b id members cfg io).role = .follower ∧
      (recover wal a b id members cfg io).pendingReads = [] ∧
      (recover wal a b id members cfg io).readEvents = [] := by
  obtain ⟨_, _, _, _, _, raft, _⟩ := Raft.recover_toRaft wal a b id members cfg io
  rw [recover_toNode]
  simp only [raft]
  exact ⟨rfl, rfl, rfl⟩

namespace ReadHistory

variable {who : Identity} {h h' : ReadHistory} {event : KvEvent}

-- However the node comes out of an event, its reads are accounted for.
theorem Guarded.comes (guarded : h.Guarded) (allowed : h.NotOutvoted event) {next : Nat} {n : Node}
    (comes : h.Comes event next n) (calm : n.panicked = false) :
    n.Accounted (h.answers ++ event.answered)
        (h.instants ++ [{ raft := n.toRaft, answers := h.answers ++ event.answered }]) ∧
      (n.role ≠ .leader → n.pendingReads = []) ∧ n.ReadsNamed next := by
  have asleep (now : Nat) : (h.server.wake now).Accounted (h.answers ++ event.answered)
      (h.instants ++ [{ raft := (h.server.wake now).toRaft, answers := h.answers ++ event.answered }]) :=
    guarded.accounted.mono (List.subset_append_left _ _) (List.subset_append_left _ _)
  cases comes with
  | asleep now later => exact ⟨asleep now, guarded.idle, guarded.named.mono (fun _ _ _ _ => id) later⟩
  | drained now later blob =>
    obtain ⟨accounted, idle, old⟩ := (asleep now).drain blob
    exact ⟨accounted, idle, guarded.named.mono old later⟩
  | changed now members call later =>
    obtain ⟨accounted, named⟩ := guarded.called allowed call later nofun calm
    refine ⟨accounted, ?_, named⟩
    intro follows
    obtain ⟨role, reads⟩ := (h.server.wake now).proposeMembership_reads members
    exact reads.trans (guarded.idle fun leads => follows (role.trans leads))
  | called now input call later counted blob =>
    have fine : (h.server.handle now input).1.panicked = false := by
      rwa [Node.drain_node, Node.takeSnapshot_panicked, Node.emptyQueues_eq] at calm
    obtain ⟨accounted, named⟩ := guarded.called allowed call later counted fine
    obtain ⟨accounted, idle, old⟩ := accounted.drain blob
    exact ⟨accounted, idle, named.mono old le_rfl⟩

theorem guarded_recover (wal a b : Bytes) (id : NodeId) (members : List NodeId) (cfg : RaftConfig)
    (io : Io) : Guarded { toKvServer := KvServer.recover wal a b id members cfg io } := by
  obtain ⟨role, reads, events⟩ := KvServer.recover_reads wal a b id members cfg io
  have follows : (KvServer.recover wal a b id members cfg io).role ≠ .leader := by
    rw [role]
    nofun
  refine ⟨⟨fun leads => absurd leads follows, fun leads => absurd leads follows,
    fun leads => absurd leads follows, ?_⟩, fun _ => reads, ?_, ?_⟩
  · rw [events]
    intro id member
    cases member
  · rw [events]
    intro id readIndex term seq member
    cases member
  · rw [events]
    intro id readIndex term seq readIndex' term' seq' member
    cases member

theorem Guarded.step (guarded : h.Guarded) (allowed : h.NotOutvoted event)
    (next : h.step who event = some h') : h'.Guarded := by
  simp only [ReadHistory.step, KvServer.step, Option.map_eq_some_iff] at next
  obtain ⟨k, moved, rfl⟩ := next
  split at moved
  · next calm =>
    cases moved
    unfold record
    split
    · next restart =>
      cases event with
      | restart now wal a b => exact guarded_recover wal a b who.id who.members who.cfg _
      | _ => cases restart
    · next alive =>
      have alive : ∀ now wal a b, event ≠ .restart now wal a b := by
        rintro now wal a b rfl
        exact alive rfl
      obtain ⟨accounted, idle, named⟩ := guarded.comes allowed (h.toKvServer.handle_comes who alive) calm
      exact ⟨accounted, idle, named⟩
  · cases moved

end ReadHistory

/-- A read is served only if, after it was accepted and while the node led the same term, a quorum of the
members then in force stood behind it. -/
theorem reads_have_quorum {who : Identity} {h : ReadHistory}
    (reached : ReadHistory.Reachable who ReadHistory.NotOutvoted h) {id : Nat}
    (served : .served id ∈ h.readEvents) :
    (∃ readIndex term seq, .requested id readIndex term seq ∈ h.readEvents) ∧
      ∀ readIndex term seq, .requested id readIndex term seq ∈ h.readEvents →
        ∃ i ∈ h.instants, i.Sanctions id readIndex term seq := by
  have guarded : h.Guarded :=
    reached.invariant (ReadHistory.guarded_recover [] [] [] who.id who.members who.cfg {})
      fun _ _ _ guarded allowed next => guarded.step allowed next
  obtain ⟨readIndex, term, seq, asked, i, member, sanctions⟩ := guarded.accounted.served id served
  refine ⟨⟨readIndex, term, seq, asked⟩, ?_⟩
  intro readIndex' term' seq' asked'
  obtain ⟨rfl, rfl, rfl⟩ := guarded.named.unique id _ _ _ _ _ _ asked asked'
  exact ⟨i, member, sanctions⟩

def spouse : Identity where
  id := 0
  members := [0, 1]
  cfg := {}

def spouseElected : List KvEvent :=
  [.timer 0 .election, .message 0 1 (.preVoteResp 0 0 true), .storage 0 1 true, .storage 0 2 true,
    .message 0 1 (.requestVoteResp 1 true), .storage 0 3 true, .storage 0 4 true,
    .message 0 1 (.appendEntriesResp 1 true 1 0)]

def spouseRead : List KvEvent :=
  spouseElected ++ [.request 0 9 1 7 1 (.get "k"), .message 0 1 (.readProbeResp 1 1)]

theorem spouseRead_served :
    (Execution.play (ReadHistory.step spouse) ReadHistory.NotOutvoted (ReadHistory.init spouse)
      spouseRead).map (fun h => h.readEvents) = some [.requested 1 1 1 1, .served 1] := by decide +kernel

theorem reads_have_quorum_spouse : ∃ h : ReadHistory,
    ReadHistory.Reachable spouse ReadHistory.NotOutvoted h ∧ .served 1 ∈ h.readEvents ∧
      ((∃ readIndex term seq, .requested 1 readIndex term seq ∈ h.readEvents) ∧
        ∀ readIndex term seq, .requested 1 readIndex term seq ∈ h.readEvents →
          ∃ i ∈ h.instants, i.Sanctions 1 readIndex term seq) := by
  obtain ⟨h, played, events⟩ := Option.map_eq_some_iff.mp spouseRead_served
  have reached : ReadHistory.Reachable spouse ReadHistory.NotOutvoted h := Execution.run_of_play played
  have served : .served 1 ∈ h.readEvents := by
    rw [events]
    decide
  exact ⟨h, reached, served, reads_have_quorum reached served⟩

def spouseLeaving : List KvEvent :=
  spouseElected ++ [.membership 0 [1], .request 0 9 1 7 1 (.get "k")]

theorem spouseLeaving_unsanctioned :
    (Execution.play (ReadHistory.step spouse) (fun h event => ∀ src ∈ event.sender, src ≠ h.id)
      (ReadHistory.init spouse) spouseLeaving).map (fun h => (h.readEvents,
        decide (∃ i ∈ h.instants, i.Sanctions 1 1 1 1))) =
      some ([.requested 1 1 1 1, .served 1], false) := by decide +kernel

/-- With one member the read is confirmed at once, whether or not that member is the node. -/
theorem reads_without_quorum : ∃ h : ReadHistory,
    ReadHistory.Reachable spouse (fun h event => ∀ src ∈ event.sender, src ≠ h.id) h ∧
      .served 1 ∈ h.readEvents ∧ .requested 1 1 1 1 ∈ h.readEvents ∧
      ¬ ∃ i ∈ h.instants, i.Sanctions 1 1 1 1 := by
  obtain ⟨h, played, seen⟩ := Option.map_eq_some_iff.mp spouseLeaving_unsanctioned
  obtain ⟨events, none⟩ := Prod.mk.inj seen
  refine ⟨h, Execution.run_of_play played, ?_, ?_, of_decide_eq_false none⟩
  · rw [events]
    decide
  · rw [events]
    decide

end SimKv
