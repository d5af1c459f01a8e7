import SimKv.Kv.Reconfiguration
import SimKv.Kv.Transfer

set_option autoImplicit false

/-!
# Runs of a cluster that changes its membership

A leader enters one change at a time. In a run where every image that is passed on or found at a start shows the
membership its label stands for, that makes the memberships of every log overlap.
-/

namespace SimKv

/-- What an entry that changes the membership finds when its leader appends it. -/
structure OneAtATime (r : Raft) (e : Entry) (new : List NodeId) : Prop where
  leads : r.role = .leader
  own : e.term = r.term
  next : e.index = r.log.lastIndex + 1
  sets : e.cmd.members = some new
  change : Change (r.chart.configAt r.log.lastIndex) new
  settled : r.log.termAt r.commitIndex = some r.term
  alone : ∀ other ∈ r.log.entries, other.cmd.members ≠ none → other.index ≤ r.commitIndex

-- The cache is the membership in force at the end of the log.
theorem Raft.Cached.members_eq {r : Raft} (cached : r.Cached) : r.members = r.chart.configAt r.log.lastIndex := by
  have current := congrArg Prod.fst cached.current
  refine current.trans ?_
  change ((configScan r.log r.log.lastIndex).getD (r.baseConfig, 0)).1 = _
  rw [Chart.configAt]
  change _ = ((configScan r.log r.log.lastIndex).map Prod.fst).getD r.baseConfig
  cases configScan r.log r.log.lastIndex <;> rfl

theorem Raft.MembershipCurrent.le_configIndex {r : Raft} (current : r.MembershipCurrent) :
    ∀ other ∈ r.log.entries, other.cmd.members ≠ none → other.index ≤ r.configIndex := by
  intro other member changes
  obtain ⟨e, _, _, index, highest⟩ | ⟨plain, _⟩ := current
  · rw [index]
    exact highest other member changes
  · exact absurd (plain other member) changes

namespace Node

variable {n : Node}

-- What follows once the entry is in the log.
theorem announce_leads {cause : Cause} (leads : n.role = .leader) (cmd : Command) :
    Leads cause (n.appendEntry (n.ownEntry cmd)).refreshConfig.toRaft (n.appendEntry (n.ownEntry cmd)).refreshConfig
      ((n.appendEntry (n.ownEntry cmd)).refreshConfig.persistLogFrom (n.log.lastIndex + 1)
        false none 0 unverified).broadcastAppend := by
  have role := appendEntry_role n (n.ownEntry cmd)
  generalize n.appendEntry (n.ownEntry cmd) = m at role ⊢
  obtain ⟨_, _, _, _, kept⟩ := m.refreshConfig_toRaft
  have still : m.refreshConfig.role = .leader := by rw [kept, role, leads]
  obtain ⟨p, raft, _⟩ := m.refreshConfig.persistLogFrom_spec (n.log.lastIndex + 1) false none 0 unverified
  refine (Act.persistOwn _ (n.log.lastIndex + 1) still).leads.trans (broadcastAppend_leads (.inl ?_) ?_)
  · rw [raft, still]
  · rw [raft]

theorem announce_chart {e : Entry} (next : n.log.AppendOk e) (start : Nat) :
    ((n.appendEntry e).refreshConfig.persistLogFrom start false none 0 unverified).broadcastAppend.chart =
      { log := n.log.append e, base := n.baseConfig } := by
  obtain ⟨_, raft, _⟩ := (n.appendEntry e).refreshConfig.persistLogFrom_spec start false none 0 unverified
  obtain ⟨_, _, _, _, kept⟩ := (n.appendEntry e).refreshConfig_toRaft
  rw [broadcastAppend_toRaft, raft, kept, appendEntry, if_pos next]
  rfl

-- An entry that does not follow the log stops the node.
theorem announce_ok (leads : n.role = .leader) {cmd : Command}
    (calm : ((n.appendEntry (n.ownEntry cmd)).refreshConfig.persistLogFrom (n.log.lastIndex + 1)
      false none 0 unverified).broadcastAppend.panicked = false) : n.log.AppendOk (n.ownEntry cmd) := by
  have fine := (@announce_leads n .other leads cmd).calm calm
  rw [refreshConfig_toIo] at fine
  by_contra gap
  rw [appendEntry, if_neg gap] at fine
  cases fine

-- A leader enters a change of the membership in force, with nothing of the kind under way, or does nothing.
theorem proposeMembership_enters (cached : n.Cached) (members : List NodeId) :
    (n.proposeMembership members).2 = n ∨ ∃ cmd new, OneAtATime n.toRaft (n.ownEntry cmd) new ∧
      (n.proposeMembership members).2 = ((n.appendEntry (n.ownEntry cmd)).refreshConfig.persistLogFrom
        (n.log.lastIndex + 1) false none 0 unverified).broadcastAppend := by
  simp only [proposeMembership]
  split
  · exact .inl rfl
  · next open_ =>
    split
    · exact .inl rfl
    · next settled =>
      split
      · exact .inl rfl
      · next free =>
        split
        · exact .inl rfl
        · next some_ =>
          split
          · exact .inl rfl
          · next one =>
            refine .inr ⟨_, _, ⟨?_, rfl, rfl, rfl, ?_, not_not.mp settled, ?_⟩, rfl⟩
            · by_contra differs
              exact open_ (.inl differs)
            · rw [← cached.members_eq]
              exact { Overlapping.of_count (not_not.mp one) with some_ }
            · intro other member changes
              exact (cached.membershipCurrent.le_configIndex other member changes).trans (not_lt.mp free)

end Node

variable {charts : List Chart} {initial : List NodeId}

structure Raft.Steady (charts : List Chart) (initial : List NodeId) (r : Raft) : Prop where
  keeping : r.Keeping
  ordered : r.persister.Ordered
  cached : r.Cached
  start : r.initialMembers = initial
  pending : ∀ d ∈ r.persister.duties, d.action.Founded charts
  member : r.chart ∈ charts

def Persist.Intact (r : Raft) : Persist → Prop
  | .snapshotTaken index term _ => r.log.termAt index = some term
  | _ => True

instance (r : Raft) : (action : Persist) → Decidable (action.Intact r)
  | .snapshotTaken .. => inferInstanceAs (Decidable (_ = _))
  | .campaign .. | .voteReply .. | .logDurable .. | .reply .. | .snapshotInstalled .. | .quiet =>
    inferInstanceAs (Decidable True)

def BatchEvent.Intact (r : Raft) : BatchEvent → Prop
  | .done action _ => action.Intact r
  | _ => True

instance (r : Raft) : (event : BatchEvent) → Decidable (event.Intact r)
  | .done action _ => inferInstanceAs (Decidable (action.Intact r))
  | .nothing | .needSync .. | .failed => inferInstanceAs (Decidable True)

theorem Chart.begins_of_mem {chart : Chart} (member : chart ∈ charts) : chart.Begins charts :=
  ⟨chart, member, _, ⟨le_rfl, chart.log.termAt_base⟩, chart.log.termAt_base, Chart.configAt_le le_rfl⟩

theorem Server.Begins.durable_inv {s : Server} {now : Nat} {input : Input} {cause : Cause} {n : Node}
    {action : Persist} {hard : Option HardState} (begins : s.Begins now input cause n)
    (done : cause = .durable action hard) :
    ∃ op ok p, input = .storage op ok ∧ s.raft.persister.onComplete op ok = (.done action hard, p) := by
  cases begins with
  | done op ok _ _ p completed =>
    cases done
    exact ⟨op, ok, p, rfl, completed⟩
  | _ => cases done

theorem Server.Begins.tracing {s : Server} {now : Nat} {input : Input} {cause : Cause} {n : Node}
    (begins : s.Begins now input cause n) (undrained : ∀ blob, input ≠ .drain blob)
    (steady : s.raft.Steady charts initial) (ordinary : cause ≠ .membership)
    (heard : ∀ p, input = .deliver p → p.msg.Founded charts)
    (intact : ∀ op ok, input = .storage op ok → (s.raft.persister.onComplete op ok).1.Intact s.raft) :
    Tracing charts initial cause n := by
  obtain ⟨keeping, batch⟩ := begins.keeping steady.keeping
  obtain ⟨_, fewer, ended⟩ := begins.duties
  obtain ⟨_, _, _, _, _, _, raft⟩ := begins.toRaft_eq undrained
  have chart : n.chart = s.raft.chart := by
    rw [raft]
    rfl
  have log : n.log = s.raft.log := congrArg Chart.log chart
  refine
    { keeping
      ordered := begins.ordered steady.ordered
      batch := fun action hard done => ⟨batch action hard done, ?_⟩
      start := ?_
      ordinary
      heard := ?_
      taken := ?_
      pending := fun d member => steady.pending d (fewer d member)
      begins := chart ▸ Chart.begins_of_mem steady.member
      entries := ?_
      said := ?_ }
  · obtain ⟨d, member, rfl, -⟩ := ended action hard done
    exact steady.pending d member
  · rw [raft]
    exact steady.start
  · intro src msg same
    obtain ⟨p, delivered, -, rfl, -⟩ := begins.message_inv same
    exact heard p delivered
  · intro index term file hard done
    obtain ⟨op, ok, p, stored, completed⟩ := begins.durable_inv done
    have here := intact op ok stored
    rw [completed] at here
    rw [chart, log]
    exact ⟨here, fun newer => ⟨_, steady.member, ⟨newer.le, here⟩, rfl⟩⟩
  · intro e member
    rw [log] at member
    exact .inl ⟨_, steady.member, member⟩
  · intro moment member
    rw [begins.moments] at member
    cases member

-- The queues hold nothing of the log.
theorem Tracing.emptyQueues {cause : Cause} {n : Node} (tracing : Tracing charts initial cause n) :
    Tracing charts initial .other n.emptyQueues := by
  have books : n.emptyQueues.persister = n.persister := by rw [Node.emptyQueues_eq]
  have log : n.emptyQueues.log = n.log := by rw [Node.emptyQueues_eq]
  have chart : n.emptyQueues.chart = n.chart := by
    rw [Node.emptyQueues_eq]
    rfl
  have start : n.emptyQueues.initialMembers = n.initialMembers := by rw [Node.emptyQueues_eq]
  have moments : n.emptyQueues.moments = n.moments := by rw [Node.emptyQueues_eq]
  exact
    { keeping := tracing.keeping.emptyQueues
      ordered := books ▸ tracing.ordered
      batch := nofun
      start := start.trans tracing.start
      ordinary := nofun
      heard := nofun
      taken := nofun
      pending := books ▸ tracing.pending
      begins := chart ▸ tracing.begins
      entries := log ▸ tracing.entries
      said := moments ▸ tracing.said }

-- Acts that go with an event keep what holds in the middle of it.
theorem Tracing.leads {cause : Cause} {r : Raft} {n m : Node} (tracing : Tracing charts initial cause n)
    (consistent : Consistent initial charts) (leads : Leads cause r n m) (calm : m.panicked = false) :
    Tracing charts initial cause m := by
  have chain := leads calm
  clear leads calm
  induction chain with
  | refl => exact tracing
  | tail _ act ih => exact act.tracing consistent ih

-- A change that is entered continues the log by one step.
theorem OneAtATime.traced {r : Raft} {e : Entry} {new : List NodeId} (enters : OneAtATime r e new)
    (steady : r.Steady charts initial) : Chart.Traced initial charts { log := r.log.append e, base := r.baseConfig } where
  contiguous := steady.keeping.place.contiguous.append enters.next
  begins := (Chart.begins_of_mem steady.member).congr rfl rfl rfl
  populated empty := steady.start ▸ Raft.baseConfig_nil empty
  entries e' member := by
    obtain old | fresh := List.mem_append.mp member
    · exact .inl ⟨_, steady.member, old⟩
    · rw [List.mem_singleton.mp fresh]
      right
      intro new' sets
      rw [Option.bind_some, enters.sets] at sets
      cases sets
      have before : e.index - 1 = r.log.lastIndex := by
        rw [enters.next]
        rfl
      rw [before, Chart.configAt, steady.keeping.place.contiguous.configScan_append enters.next le_rfl]
      exact enters.change

-- A node that has said nothing and has the last of the known logs.
theorem Tracing.of_chart {n : Node} {chart : Chart} (here : n.chart = chart) (silent : n.moments = [])
    (keeping : n.Keeping) (ordered : n.persister.Ordered) (start : n.initialMembers = initial)
    (pending : ∀ d ∈ n.persister.duties, d.action.Founded charts) :
    Tracing (charts ++ [chart]) initial .other n := by
  subst here
  have member : n.chart ∈ charts ++ [n.chart] := List.mem_concat_self
  exact
    { keeping
      ordered
      batch := nofun
      start
      ordinary := nofun
      heard := nofun
      taken := nofun
      pending := fun d held => (pending d held).mono (List.subset_append_left _ _)
      begins := Chart.begins_of_mem member
      entries := fun e held => .inl ⟨_, member, held⟩
      said := by
        intro moment said
        rw [silent] at said
        cases said }

theorem Raft.Steady.tracing_append {n : Node} (steady : n.Steady charts initial) (silent : n.moments = [])
    {e : Entry} (next : n.log.AppendOk e) :
    Tracing (charts ++ [{ log := n.log.append e, base := n.baseConfig }]) initial .other
      (n.appendEntry e).refreshConfig := by
  have io := (n.appendEntry e).refreshConfig_toIo
  obtain ⟨members, config, nextIndex, matchIndex, raft⟩ := (n.appendEntry e).refreshConfig_toRaft
  obtain ⟨⟨contiguous, applied, base⟩, duties⟩ := steady.keeping
  have appended : n.appendEntry e = { n with log := n.log.append e } := if_pos next
  have toRaft := congrArg Node.toRaft appended
  have toIo := congrArg Node.toIo appended
  generalize n.appendEntry e = m at toRaft toIo io raft ⊢
  rw [toRaft] at raft
  rw [toIo] at io
  generalize m.refreshConfig = m' at io raft ⊢
  refine .of_chart ?_ ?_ ?_ ?_ ?_ ?_
  · rw [raft]
    rfl
  · rw [io]
    exact silent
  · rw [raft]
    exact ⟨⟨contiguous.append next.1, applied, base⟩, duties⟩
  · rw [raft]
    exact steady.ordered
  · rw [raft]
    exact steady.start
  · rw [raft]
    exact steady.pending

def KvEvent.image : KvEvent → Option Snapshot
  | .restart _ wal a b => (readDisk wal a b).snapshot
  | _ => none

def KvEvent.Intact (k : KvServer) : KvEvent → Prop
  | .storage _ op ok => (k.persister.onComplete op ok).1.Intact k.toRaft
  | _ => True

instance (k : KvServer) : (event : KvEvent) → Decidable (event.Intact k)
  | .storage _ op ok => inferInstanceAs (Decidable ((k.persister.onComplete op ok).1.Intact k.toRaft))
  | .message .. | .timer .. | .request .. | .membership .. | .restart .. => inferInstanceAs (Decidable True)

namespace KvServer

variable {who : Identity} {k : KvServer} {event : KvEvent}

theorem begins_tracing {now : Nat} {input : Input} {cause : Cause} {n : Node} (steady : k.Steady charts initial)
    (begins : k.server.Begins now input cause n) (ordinary : cause ≠ .membership)
    (heard : ∀ now src msg, event = .message now src msg → msg.Founded charts) (intact : event.Intact k)
    (call : k.Calls event now input) : Tracing charts initial cause n := by
  refine begins.tracing call.undrained steady ordinary ?_ ?_
  · rintro p rfl
    cases call with
    | message now src msg => exact heard now src msg rfl
  · rintro op ok rfl
    cases call with
    | storage => exact intact

theorem asleep_tracing (steady : k.Steady charts initial) (now : Nat) :
    Tracing charts initial .other (k.server.wake now) :=
  Server.Begins.tracing (.timer .election) nofun steady nofun nofun nofun

-- An event that is neither a membership change nor a restart.
theorem ordinary_tracing (steady : k.Steady charts initial) (consistent : Consistent initial charts)
    (alive : ∀ now wal a b, event ≠ .restart now wal a b) (unchanged : ∀ now members, event ≠ .membership now members)
    (plain : event.clientChange = none)
    (heard : ∀ now src msg, event = .message now src msg → msg.Founded charts) (intact : event.Intact k)
    (calm : (k.handle who event).panicked = false) :
    ∃ cause, Tracing charts initial cause (k.handle who event).toNode := by
  have allowed : k.NoClientChange event := by
    intro request found
    rw [plain] at found
    cases found
  obtain ⟨cause, _, last⟩ := @handle_rule who k (fun cause _ n => Tracing charts initial cause n) event alive calm
    (fun now => asleep_tracing steady now)
    (fun now input cause n call begins =>
      begins_tracing steady begins (begins_cached steady.cached allowed unchanged call begins).1 heard intact call)
    (fun cause r n m mid act => act.tracing consistent mid)
    (fun cause r n mid => mid.emptyQueues)
  exact ⟨cause, last⟩

-- A membership change that is entered makes one more log, and what is sent then is sent by a node with that log.
theorem membership_tracing {now : Nat} {members : List NodeId} (steady : k.Steady charts initial)
    (consistent : Consistent initial charts)
    (calm : (k.handle who (.membership now members)).panicked = false)
    (match_ : ∀ known ∈ charts, (k.handle who (.membership now members)).chart.log.Matches known.log) :
    ∃ known, charts ⊆ known ∧ known ⊆ charts ++ [(k.handle who (.membership now members)).chart] ∧
      Consistent initial known ∧ Tracing known initial .other (k.handle who (.membership now members)).toNode := by
  have cached : (k.server.wake now).Cached := steady.cached
  have awake : (k.server.wake now).Steady charts initial := steady
  change ((k.server.wake now).proposeMembership members).2.panicked = false at calm
  change ∀ known ∈ charts, ((k.server.wake now).proposeMembership members).2.chart.log.Matches known.log at match_
  change ∃ known, charts ⊆ known ∧ known ⊆ charts ++ [((k.server.wake now).proposeMembership members).2.chart] ∧
    Consistent initial known ∧ Tracing known initial .other ((k.server.wake now).proposeMembership members).2
  obtain same | ⟨cmd, new, enters, result⟩ := Node.proposeMembership_enters cached members
  · rw [same]
    exact ⟨charts, List.Subset.refl _, List.subset_append_left _ _, consistent, asleep_tracing steady now⟩
  · rw [result] at calm match_ ⊢
    have silent : (k.server.wake now).moments = [] := rfl
    generalize k.server.wake now = n at awake enters calm match_ silent ⊢
    have leads := @Node.announce_leads n .other enters.leads cmd
    have next := Node.announce_ok enters.leads calm
    have chart := Node.announce_chart next (n.log.lastIndex + 1)
    rw [chart] at match_ ⊢
    have extended := consistent.extend (enters.traced awake) match_
    refine ⟨_, List.subset_append_left _ _, List.Subset.refl _, extended, ?_⟩
    exact (awake.tracing_append silent next).leads extended leads calm

theorem recover_chart (wal a b : Bytes) (id : NodeId) (members : List NodeId) (cfg : RaftConfig) (io : Io) :
    (recover wal a b id members cfg io).chart = ((readDisk wal a b).raft id members cfg).chart ∧
      (recover wal a b id members cfg io).initialMembers = members ∧
      (recover wal a b id members cfg io).persister.duties = [] := by
  obtain ⟨_, _, _, _, _, raft, _⟩ := Raft.recover_toRaft wal a b id members cfg io
  rw [recover_toNode]
  simp only [raft]
  exact ⟨rfl, rfl, rfl⟩

-- A log that is found begins at the image that is found, or where all logs begin.
theorem readDisk_begins {wal a b : Bytes} (consistent : Consistent initial charts)
    (first : ({ log := {}, base := initial } : Chart) ∈ charts)
    (pictures : ∀ snap ∈ (readDisk wal a b).snapshot, 0 < snap.index ∧ Pictures charts snap.index snap.term snap.data)
    (id : NodeId) (cfg : RaftConfig) : ((readDisk wal a b).raft id initial cfg).chart.Begins charts := by
  have index := readDisk_snapshotIndex wal a b
  have term := readDisk_snapshotTerm wal a b
  cases found : (readDisk wal a b).snapshot with
  | none =>
    rw [found] at index
    have shows : Chart.Shows { log := {}, base := initial } 0 0 := ⟨le_rfl, rfl⟩
    refine .of_shows first shows index rfl ?_
    change initial = Raft.baseConfig _
    simp only [Survived.raft, Raft.baseConfig, found]
    rfl
  | some snap =>
    rw [found] at index term
    obtain ⟨some_, known, member, shows, decoded⟩ := pictures snap found
    obtain ⟨payload, whole, members⟩ := Option.map_eq_some_iff.mp decoded
    have named : snap.index ≠ noIndex := some_.ne'
    refine .of_shows member shows index ?_ (consistent.baseConfig member shows rfl ?_).symm
    · change (readDisk wal a b).log.termAt snap.index = some snap.term
      rw [RaftLog.termAt, if_neg named, if_pos (show snap.index = _ from index.symm), term]
      rfl
    · simp only [Survived.raft, found, Option.bind_some, whole, Option.map_some, Option.getD_some, members]

theorem restart_tracing {now : Nat} {wal a b : Bytes} (consistent : Consistent who.members charts)
    (first : ({ log := {}, base := who.members } : Chart) ∈ charts)
    (entries : ∀ e ∈ (readDisk wal a b).log.entries, ∃ known ∈ charts, e ∈ known.log.entries)
    (pictures : ∀ snap ∈ (readDisk wal a b).snapshot, 0 < snap.index ∧ Pictures charts snap.index snap.term snap.data) :
    Tracing charts who.members .other (k.handle who (.restart now wal a b)).toNode := by
  let io : Io := { now, nextOp := k.nextOp, nextTimer := k.nextTimer }
  obtain ⟨keeping, ordered⟩ := recover_keeping wal a b who.id who.members who.cfg io
  obtain ⟨chart, start, idle⟩ := recover_chart wal a b who.id who.members who.cfg io
  have silent : (recover wal a b who.id who.members who.cfg io).moments = [] := recover_moments ..
  have begins := readDisk_begins consistent first pictures who.id who.cfg
  have log : (recover wal a b who.id who.members who.cfg io).log = (readDisk wal a b).log := congrArg Chart.log chart
  change Tracing charts who.members .other (recover wal a b who.id who.members who.cfg io).toNode
  generalize (recover wal a b who.id who.members who.cfg io).toNode = n at keeping ordered chart start idle silent log ⊢
  exact
    { keeping, ordered, start
      batch := nofun
      ordinary := nofun
      heard := nofun
      taken := nofun
      pending := by
        rw [idle]
        exact List.forall_mem_nil _
      begins := chart ▸ begins
      entries := fun e member => .inl (entries e (log ▸ member))
      said := by
        rw [silent]
        exact List.forall_mem_nil _ }

end KvServer

/-- An event that comes with an entry: a message with it, or a restart that finds it. -/
def KvEvent.Carries (e : Entry) : KvEvent → Prop
  | .message _ _ (.appendEntries _ _ _ _ entries _) => e ∈ entries
  | .restart _ wal a b => e ∈ (readDisk wal a b).log.entries
  | _ => False

namespace KvServer

variable {who : Identity} {k : KvServer} {event : KvEvent}

structure Sourced (origin : Entry → Prop) (cause : Cause) (n : Node) : Prop where
  ordinary : cause ≠ .membership
  heard : ∀ src term leader prevIndex prevTerm entries leaderCommit, cause = .message src
    (.appendEntries term leader prevIndex prevTerm entries leaderCommit) → ∀ e ∈ entries, origin e
  held : ∀ e ∈ n.log.entries, origin e ∨ e.cmd.members = none

theorem begins_sourced {now : Nat} {input : Input} {cause : Cause} {n : Node} (call : k.Calls event now input)
    (begins : k.server.Begins now input cause n) (ordinary : cause ≠ .membership) :
    Sourced (fun e => e ∈ k.log.entries ∨ event.Carries e) cause n := by
  obtain ⟨_, _, _, _, _, _, raft⟩ := begins.toRaft_eq call.undrained
  refine ⟨ordinary, ?_, fun e member => ?_⟩
  · intro src term leader prevIndex prevTerm entries leaderCommit same e brought
    obtain ⟨p, rfl, -, message, -⟩ := begins.message_inv same
    cases call with
    | message now src msg =>
      subst message
      exact .inr brought
  · rw [raft] at member
    exact .inl (.inl member)

-- A membership change that is new in a log came with the event, or a leader entered it as it should.
theorem handle_changes (cached : k.Cached) (plain : event.clientChange = none)
    (calm : (k.handle who event).panicked = false) {e : Entry} (member : e ∈ (k.handle who event).log.entries)
    {new : List NodeId} (sets : e.cmd.members = some new) :
    e ∈ k.log.entries ∨ event.Carries e ∨ OneAtATime k.toRaft e new := by
  by_cases boots : ∃ now wal a b, event = .restart now wal a b
  · obtain ⟨now, wal, a, b, rfl⟩ := boots
    obtain ⟨chart, -⟩ := recover_chart wal a b who.id who.members who.cfg
      { now, nextOp := k.nextOp, nextTimer := k.nextTimer }
    have log : (recover wal a b who.id who.members who.cfg
        { now, nextOp := k.nextOp, nextTimer := k.nextTimer }).log = (readDisk wal a b).log :=
      congrArg Chart.log chart
    rw [handle, log] at member
    exact .inr (.inl member)
  · by_cases changes : ∃ now members, event = .membership now members
    · obtain ⟨now, members, rfl⟩ := changes
      have awake : (k.server.wake now).Cached := cached
      change ((k.server.wake now).proposeMembership members).2.panicked = false at calm
      change e ∈ ((k.server.wake now).proposeMembership members).2.log.entries at member
      obtain same | ⟨cmd, new', enters, result⟩ := Node.proposeMembership_enters awake members
      · rw [same] at member
        exact .inl member
      · rw [result] at calm member
        have next := Node.announce_ok enters.leads calm
        have log := congrArg Chart.log (Node.announce_chart next ((k.server.wake now).log.lastIndex + 1))
        rw [show Raft.log _ = _ from log] at member
        obtain old | fresh := List.mem_append.mp member
        · exact .inl old
        · rw [List.mem_singleton.mp fresh] at sets ⊢
          have same := enters.sets.symm.trans sets
          cases same
          exact .inr (.inr enters)
    · push Not at boots changes
      have allowed : k.NoClientChange event := by
        intro request found
        rw [plain] at found
        cases found
      obtain ⟨_, _, last⟩ := @handle_rule who k
        (fun cause _ n => Sourced (fun e => e ∈ k.log.entries ∨ event.Carries e) cause n) event boots calm
        (fun now => ⟨by simp, by simp, fun e held => .inl (.inl held)⟩)
        (fun now input cause n call begins =>
          begins_sourced call begins (begins_cached cached allowed changes call begins).1)
        (fun cause r n m mid act => ⟨mid.ordinary, mid.heard, act.log_entries mid.ordinary mid.heard mid.held⟩)
        (fun cause r n mid => by
          rw [Node.emptyQueues_eq]
          exact ⟨by simp, by simp, mid.held⟩)
      obtain (old | carried) | plain := last.held e member
      · exact .inl old
      · exact .inr (.inl carried)
      · rw [sets] at plain
        cases plain

end KvServer

/-- The image a message brings shows the membership that the log of its sender begins with. -/
def RaftMsg.Faithful (r : Raft) : RaftMsg → Prop
  | .installSnapshot _ _ _ _ data => (decodeSnapshotPayload data).map Prod.fst = some r.baseConfig
  | _ => True

instance (r : Raft) : (msg : RaftMsg) → Decidable (msg.Faithful r)
  | .installSnapshot .. => inferInstanceAs (Decidable (_ = _))
  | .requestVote .. | .requestVoteResp .. | .appendEntries .. | .appendEntriesResp ..
  | .installSnapshotResp .. | .readProbe .. | .readProbeResp .. | .preVote .. | .preVoteResp .. =>
    inferInstanceAs (Decidable True)

theorem RaftMsg.Copies.founded {r : Raft} {msg : RaftMsg} (copies : msg.Copies r) (member : r.chart ∈ charts)
    (faithful : msg.Faithful r) : msg.Founded charts := by
  cases msg with
  | appendEntries => exact fun e held => ⟨_, member, copies e held⟩
  | installSnapshot term leader index indexTerm data =>
    obtain ⟨rfl, rfl, rfl⟩ := copies
    intro some_
    have tag := r.log.termAt_base
    have named : r.log.snapshotIndex ≠ noIndex := some_.ne'
    rw [if_neg named] at tag
    refine ⟨_, member, ⟨le_rfl, tag⟩, ?_⟩
    exact faithful.trans (congrArg some (@Chart.configAt_le r.chart _ le_rfl).symm)
  | _ => trivial

namespace KvCluster

def Legible (c : KvCluster) (snap : Snapshot) : Prop :=
  ∀ chart ∈ c.charts, chart.Shows snap.index snap.term → Wraps snap.data (chart.configAt snap.index) →
    (decodeSnapshotPayload snap.data).map Prod.fst = some (chart.configAt snap.index)

instance (c : KvCluster) (snap : Snapshot) : Decidable (c.Legible snap) :=
  inferInstanceAs (Decidable (∀ chart ∈ c.charts, chart.Shows snap.index snap.term → _))

/-- Images show the membership they stand for, when they leave and when they are found, and what a finished
snapshot covers is still in the log. -/
def Faithful (setup : Setup) (c : KvCluster) (event : NodeId × KvEvent) : Prop :=
  (∀ moment ∈ (c.react setup event.1 event.2).moments, moment.msg.Faithful moment.raft) ∧
    (∀ snap ∈ event.2.image, c.Legible snap) ∧ event.2.Intact (c.server event.1)

instance (setup : Setup) (c : KvCluster) (event : NodeId × KvEvent) : Decidable (c.Faithful setup event) :=
  inferInstanceAs (Decidable (_ ∧ _ ∧ _))

variable {setup : Setup} {c c' : KvCluster}

structure Steady (setup : Setup) (c : KvCluster) : Prop where
  consistent : Consistent setup.members c.charts
  first : ({ log := {}, base := setup.members } : Chart) ∈ c.charts
  servers : ∀ id, (c.server id).Steady c.charts setup.members
  net : ∀ p ∈ c.net, p.msg.Founded c.charts

theorem Possible.clientChange {id : NodeId} {event : KvEvent} (possible : c.Possible id event) :
    event.clientChange = none := by
  cases event with
  | request now src reqId client seq op =>
    cases op with
    | setMembers => cases possible
    | _ => rfl
  | _ => rfl

theorem Steady.pictures (steady : c.Steady setup) {snap : Snapshot} (kept : c.Kept snap) (legible : c.Legible snap) :
    0 < snap.index ∧ Pictures c.charts snap.index snap.term snap.data := by
  obtain ⟨some_, ⟨p, sent, offers⟩ | ⟨chart, member, shows, wraps⟩⟩ := kept
  · have founded := steady.net p sent
    cases message : p.msg with
    | installSnapshot =>
      rw [message] at offers founded
      obtain ⟨rfl, rfl, rfl⟩ := offers
      exact ⟨some_, founded some_⟩
    | _ =>
      rw [message] at offers
      exact offers.elim
  · exact ⟨some_, chart, member, shows, legible chart member shows wraps⟩

theorem Steady.react {id : NodeId} {event : KvEvent} (steady : c.Steady setup) (possible : c.Possible id event)
    (faithful : c.Faithful setup (id, event)) (calm : (c.react setup id event).panicked = false)
    (match_ : ∀ known ∈ c.charts, (c.react setup id event).chart.log.Matches known.log) :
    ∃ cause known, c.charts ⊆ known ∧ known ⊆ c.charts ++ [(c.react setup id event).chart] ∧
      Consistent setup.members known ∧ Tracing known setup.members cause (c.react setup id event).toNode := by
  obtain ⟨-, legible, intact⟩ := faithful
  by_cases boots : ∃ now wal a b, event = .restart now wal a b
  · obtain ⟨now, wal, a, b, rfl⟩ := boots
    obtain ⟨entries, kept⟩ := possible
    refine ⟨.other, c.charts, List.Subset.refl _, List.subset_append_left _ _, steady.consistent, ?_⟩
    exact @KvServer.restart_tracing c.charts (identity setup id) _ _ _ _ _ steady.consistent steady.first entries
      fun snap found => steady.pictures (kept snap found) (legible snap found)
  · by_cases changes : ∃ now members, event = .membership now members
    · obtain ⟨now, members, rfl⟩ := changes
      exact ⟨.other, KvServer.membership_tracing (steady.servers id) steady.consistent calm match_⟩
    · push Not at boots changes
      have heard : ∀ now src msg, event = .message now src msg → msg.Founded c.charts := by
        rintro now src msg rfl
        exact steady.net _ possible
      obtain ⟨cause, tracing⟩ := @KvServer.ordinary_tracing c.charts _ (identity setup id) _ _ (steady.servers id)
        steady.consistent boots changes possible.clientChange heard intact calm
      exact ⟨cause, c.charts, List.Subset.refl _, List.subset_append_left _ _, steady.consistent, tracing⟩

theorem mem_settle {id : NodeId} {k : KvServer} {chart : Chart} : chart ∈ (c.settle id k).charts ↔
    chart ∈ c.charts ∨ (∃ moment ∈ k.moments, moment.raft.chart = chart) ∨ chart = k.chart := by
  simp only [KvCluster.settle, List.mem_append, List.mem_map, List.mem_singleton, or_assoc]

theorem Steady.settle {id : NodeId} {k : KvServer} {cause : Cause} {known : List Chart} (steady : c.Steady setup)
    (sub : c.charts ⊆ known) (new : known ⊆ c.charts ++ [k.chart]) (consistent : Consistent setup.members known)
    (tracing : Tracing known setup.members cause k.toNode) (cached : k.Cached)
    (faithful : ∀ moment ∈ k.moments, moment.msg.Faithful moment.raft) (matching : (c.settle id k).Matching) :
    (c.settle id k).Steady setup := by
  have kept : known ⊆ (c.settle id k).charts := by
    intro chart member
    obtain old | fresh := List.mem_append.mp (new member)
    · exact mem_settle.mpr (.inl old)
    · exact mem_settle.mpr (.inr (.inr (List.mem_singleton.mp fresh)))
  have grows : c.charts ⊆ (c.settle id k).charts := fun chart member => kept (sub member)
  have same : ∀ chart, chart ∈ known ++ ((k.moments.map fun moment => moment.raft.chart) ++ [k.chart]) ↔
      chart ∈ (c.settle id k).charts := by
    intro chart
    rw [mem_settle, List.mem_append, List.mem_append, List.mem_map, List.mem_singleton]
    constructor
    · rintro (old | said)
      · exact mem_settle.mp (kept old)
      · exact .inr said
    · rintro (old | said)
      · exact .inl (sub old)
      · exact .inr said
  have extended : Consistent setup.members (c.settle id k).charts := by
    refine (consistent.extend_all ?_ fun chart here other there =>
      matching chart ((same chart).mp here) other ((same other).mp there)).congr same
    intro chart member
    obtain said | last := List.mem_append.mp member
    · obtain ⟨moment, spoken, rfl⟩ := List.mem_map.mp said
      exact (tracing.said moment spoken).1
    · rw [List.mem_singleton.mp last]
      exact tracing.traced
  refine ⟨extended, grows steady.first, fun other => ?_, ?_⟩
  · by_cases here : other = id
    · subst here
      have server : (c.settle other k).server other = k := Function.update_self ..
      rw [server]
      exact
        { keeping := tracing.keeping
          ordered := tracing.ordered
          cached
          start := tracing.start
          pending := fun d held => (tracing.pending d held).mono kept
          member := mem_settle.mpr (.inr (.inr rfl)) }
    · obtain ⟨keeping, ordered, cached, start, pending, member⟩ := steady.servers other
      have server : (c.settle id k).server other = c.server other := Function.update_of_ne here _ _
      rw [server]
      exact ⟨keeping, ordered, cached, start, fun d held => (pending d held).mono grows, grows member⟩
  · intro p sent
    obtain old | fresh := List.mem_append.mp sent
    · exact (steady.net p old).mono grows
    · obtain ⟨moment, spoken, rfl⟩ := List.mem_map.mp fresh
      exact (tracing.said moment spoken).2.founded (mem_settle.mpr (.inr (.inl ⟨moment, spoken, rfl⟩)))
        (faithful moment spoken)

theorem consistent_init (members : List NodeId) : Consistent members [{ log := {}, base := members }] := by
  have only : windows [{ log := {}, base := members }] = {Chart.window { log := {}, base := members }} := by
    ext w
    simp only [windows, List.mem_singleton, Set.mem_singleton_iff, Set.mem_ofPred_eq]
    constructor
    · rintro ⟨_, same, shown⟩
      rw [← shown, same]
    · intro shown
      exact ⟨_, rfl, shown.symm⟩
  refine ⟨?_, ?_, ?_, ?_, ?_⟩
  · rw [List.forall_mem_singleton]
    intro k e found
    cases found
  · rw [only]
    rintro _ rfl _ rfl i - - -
    rfl
  · rw [only]
    rintro _ rfl
    exact .inl rfl
  · rw [only]
    rintro _ rfl i holds
    exact absurd holds.2 (Nat.not_succ_le_zero i)
  · rw [List.forall_mem_singleton]
    exact fun empty => empty

theorem Steady.init (setup : Setup) : (KvCluster.init setup).Steady setup := by
  refine ⟨consistent_init setup.members, List.mem_singleton_self _, fun id => ?_, List.forall_mem_nil _⟩
  obtain ⟨keeping, ordered⟩ := KvServer.recover_keeping [] [] [] id setup.members (setup.cfg id) {}
  obtain ⟨chart, start, idle⟩ := KvServer.recover_chart [] [] [] id setup.members (setup.cfg id) {}
  exact
    { keeping, ordered, start
      cached := KvServer.recover_cached ..
      pending := by
        change ∀ d ∈ (KvServer.recover [] [] [] id setup.members (setup.cfg id) {}).persister.duties, _
        rw [idle]
        exact List.forall_mem_nil _
      member := List.mem_singleton.mpr chart }

theorem step_eq {event : NodeId × KvEvent} (next : c.step setup event = some c') :
    c.Possible event.1 event.2 ∧ (c.react setup event.1 event.2).panicked = false ∧
      c' = c.settle event.1 (c.react setup event.1 event.2) := by
  simp only [step] at next
  split at next
  · next able =>
    cases next
    exact ⟨able.1, able.2, rfl⟩
  · cases next

theorem charts_settle (id : NodeId) (k : KvServer) : c.charts ⊆ (c.settle id k).charts :=
  fun _ member => mem_settle.mpr (.inl member)

theorem Matching.before {id : NodeId} {k : KvServer} (matching : (c.settle id k).Matching) : c.Matching :=
  fun chart here other there => matching chart (charts_settle id k here) other (charts_settle id k there)

theorem Steady.step {event : NodeId × KvEvent} (steady : c.Steady setup) (faithful : c.Faithful setup event)
    (next : c.step setup event = some c') (matching : c'.Matching) : c'.Steady setup := by
  obtain ⟨possible, calm, rfl⟩ := step_eq next
  have newest : (c.react setup event.1 event.2).chart ∈ (c.settle event.1 (c.react setup event.1 event.2)).charts :=
    mem_settle.mpr (.inr (.inr rfl))
  obtain ⟨cause, known, sub, new, consistent, tracing⟩ := steady.react possible faithful calm fun other there =>
    matching _ newest other (charts_settle _ _ there)
  refine steady.settle sub new consistent tracing ?_ faithful.1 matching
  refine KvServer.handle_cached (steady.servers event.1).cached ?_ calm
  intro request found
  rw [possible.clientChange] at found
  cases found

theorem Reachable.steady (reached : Reachable setup (Faithful setup) c) (matching : c.Matching) : c.Steady setup := by
  induction reached with
  | refl => exact .init setup
  | step _ faithful next ih =>
    obtain ⟨_, _, rfl⟩ := step_eq next
    exact (ih matching.before).step faithful next matching

-- In every run the servers know the latest membership of their logs.
theorem Reachable.cached {ok : KvCluster → NodeId × KvEvent → Prop} (reached : Reachable setup ok c) (id : NodeId) :
    (c.server id).Cached := by
  induction reached with
  | refl => exact KvServer.recover_cached ..
  | @step c c' event _ _ next ih =>
    obtain ⟨possible, calm, rfl⟩ := step_eq next
    by_cases here : id = event.1
    · subst here
      have server : (c.settle event.1 (c.react setup event.1 event.2)).server event.1 = c.react setup event.1 event.2 :=
        Function.update_self ..
      rw [server]
      refine KvServer.handle_cached ih ?_ calm
      intro request found
      rw [possible.clientChange] at found
      cases found
    · have server : (c.settle event.1 (c.react setup event.1 event.2)).server id = c.server id :=
        Function.update_of_ne here _ _
      rwa [server]

end KvCluster

/-- In every run leaders change the membership by one server at a time. And the memberships of every log overlap, as
long as images show the membership they stand for and what a finished snapshot covers is still in the log. -/
theorem memberships_overlap (setup : Setup) :
    (∀ c, KvCluster.Reachable setup (KvCluster.Faithful setup) c → c.Matching →
      ∀ id, (c.server id).chart.configs.IsChain Overlapping) ∧
    ∀ c, KvCluster.Reachable setup (fun _ _ => True) c → ∀ event c', c.step setup event = some c' →
      ∀ e ∈ (c'.server event.1).log.entries, ∀ new, e.cmd.members = some new →
        e ∈ (c.server event.1).log.entries ∨ event.2.Carries e ∨ OneAtATime (c.server event.1).toRaft e new := by
  constructor
  · intro c reached matching id
    have steady := reached.steady matching
    exact steady.consistent.chain (steady.servers id).member
  · intro c reached event c' next e member new sets
    obtain ⟨possible, calm, rfl⟩ := KvCluster.step_eq next
    have server : (c.settle event.1 (c.react setup event.1 event.2)).server event.1 = c.react setup event.1 event.2 :=
      Function.update_self ..
    rw [server] at member
    exact KvServer.handle_changes (reached.cached event.1) possible.clientChange calm member sets

def duo : Setup where
  members := [0, 1]
  nodup := by decide
  cfg id := { preVote := false, snapshotThreshold := if id = 0 then 1 else 0 }

def duoJoin : Entry := { term := 1, index := 2, cmd := { client := Node.configClient, seq := 2, op := .setMembers [0, 1, 2] } }

def duoGrown : List (NodeId × KvEvent) :=
  [(0, .timer 0 .election), (0, .storage 0 1 true), (0, .storage 0 2 true),
    (1, .message 0 0 (.requestVote 1 0 0 0)), (1, .storage 0 1 true), (1, .storage 0 2 true),
    (0, .message 0 1 (.requestVoteResp 1 true)), (0, .storage 0 3 true), (0, .storage 0 4 true),
    (1, .message 0 0 (.appendEntries 1 0 0 0 [{ term := 1, index := 1, cmd := .noop }] 0)),
    (1, .storage 0 3 true), (1, .storage 0 4 true), (0, .message 0 1 (.appendEntriesResp 1 true 1 0)),
    (0, .storage 0 5 true), (0, .storage 0 6 true), (0, .storage 0 7 true), (0, .membership 0 [0, 1, 2])]

theorem duoGrown_configs :
    (Execution.play (KvCluster.step duo) (KvCluster.Faithful duo) (KvCluster.init duo) duoGrown).map
      (fun c => ((c.server 0).chart.configs, decide c.Matching)) = some ([[0, 1], [0, 1, 2]], true) := by decide +kernel

theorem memberships_overlap_duo : ∃ c : KvCluster,
    KvCluster.Reachable duo (KvCluster.Faithful duo) c ∧ c.Matching ∧ (c.server 0).chart.configs = [[0, 1], [0, 1, 2]] ∧
      (∀ id, (c.server id).chart.configs.IsChain Overlapping) ∧
      ∀ event c', c.step duo event = some c' → ∀ e ∈ (c'.server event.1).log.entries,
        ∀ new, e.cmd.members = some new → e ∈ (c.server event.1).log.entries ∨ event.2.Carries e ∨
          OneAtATime (c.server event.1).toRaft e new := by
  obtain ⟨c, played, seen⟩ := Option.map_eq_some_iff.mp duoGrown_configs
  obtain ⟨configs, matching⟩ := Prod.mk.inj seen
  have reached : KvCluster.Reachable duo (KvCluster.Faithful duo) c := Execution.run_of_play played
  exact ⟨c, reached, of_decide_eq_true matching, configs,
    (memberships_overlap duo).1 c reached (of_decide_eq_true matching),
    (memberships_overlap duo).2 c (reached.mono fun _ _ _ => trivial)⟩

def duoMisled : List (NodeId × KvEvent) :=
  duoGrown ++ [(0, .storage 0 8 true), (0, .storage 0 9 true), (1, .message 0 0 (.appendEntries 1 0 1 1 [duoJoin] 1)),
    (2, .message 0 0 (.appendEntries 1 0 2 1 [] 1)), (1, .storage 0 5 true), (1, .storage 0 6 true),
    (2, .storage 0 1 true), (2, .storage 0 2 true), (0, .message 0 1 (.appendEntriesResp 1 true 2 0)),
    (0, .message 0 2 (.appendEntriesResp 1 false 0 1)),
    (2, .message 0 0 (.installSnapshot 1 0 1 1 (encodeSnapshotPayload [0, 1, 2] (StateMachine.encode {})))),
    (2, .storage 0 3 true), (2, .storage 0 4 true), (2, .storage 0 5 true), (0, .message 0 2 (.installSnapshotResp 1 1)),
    (0, .timer 0 .heartbeat), (2, .message 0 0 (.appendEntries 1 0 1 1 [duoJoin] 2))]

theorem duoMisled_configs :
    (Execution.play (KvCluster.step duo) (fun _ _ => True) (KvCluster.init duo) duoMisled).map
      (fun c => ((c.server 2).chart.configs, decide c.Matching)) = some ([[0, 1, 2], [0, 1, 2]], true) := by
  decide +kernel

/-- The new server begins with the membership that its first entry sets. -/
theorem memberships_repeated : ∃ c : KvCluster, KvCluster.Reachable duo (fun _ _ => True) c ∧ c.Matching ∧
    ¬ ∀ id, (c.server id).chart.configs.IsChain Overlapping := by
  obtain ⟨c, played, seen⟩ := Option.map_eq_some_iff.mp duoMisled_configs
  obtain ⟨configs, matching⟩ := Prod.mk.inj seen
  refine ⟨c, Execution.run_of_play played, of_decide_eq_true matching, fun overlap => ?_⟩
  have chain := overlap 2
  rw [configs] at chain
  have one := (List.isChain_pair.mp chain).one
  simp at one

end SimKv
