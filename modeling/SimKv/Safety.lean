import SimKv.Acknowledgement
import SimKv.Consensus
import SimKv.Kv.Applied

set_option autoImplicit false

/-!
# What a cluster has committed stays committed

Clusters whose servers never compact their logs. Whatever order messages, timers, completions, crashes and restarts come
in, logs match, whoever leads later has what was committed before, and no two state machines are handed different entries
under one index.
-/

namespace SimKv

open Agreement Succession

def Setup.Uncompacted (setup : Setup) : Prop := ∀ id, (setup.cfg id).snapshotThreshold = 0

/-- A restart brings back what is left of a log the node has held, at least what it knew to be durable. Recovery passes
over entries ahead of the hard state. -/
def Survives (c : Cluster) : Event → Prop
  | .input .. => True
  | .restart id _ survived origin =>
      survived.snapshot = none ∧ origin ∈ (c.host id).held ∧
        survived.log = origin.log.truncateFrom (survived.log.lastIndex + 1) ∧
        (c.host id).raft.log.entries.take (c.host id).raft.durableIndex <+: survived.log.entries ∧
        ∀ e ∈ survived.log.entries, e.term ≤ survived.hard.term

instance (c : Cluster) : (event : Event) → Decidable (Survives c event)
  | .input .. => inferInstanceAs (Decidable True)
  | .restart .. => inferInstanceAs (Decidable (_ ∧ _))

def Fixed (setup : Setup) (g : State NodeId Entry) (e : Entry) : Prop :=
  ∃ t l, g.Settled Entry.term setup.members.toFinset t l ∧ e.index ≠ noIndex ∧ l[e.index - 1]? = some e

structure SafetyRel (setup : Setup) (c : Cluster) (g : State NodeId Entry) : Prop where
  election : ElectionRel setup c g.ballot
  sound : g.Sound Entry.term setup.members.toFinset
  formed : ∀ t, WellFormed (g.lead t)
  logs : ∀ i, LogRel setup i (c.host i).raft g
  held : ∀ i, ∀ h ∈ (c.host i).held, h.log.Whole g
  handed : ∀ i, ∀ e ∈ (c.host i).handed, Fixed setup g e
  keeping : ∀ i, (c.host i).raft.Keeping
  -- What winners have in their logs has been in the log of some node.
  kept : ∀ t, ∀ e ∈ g.lead t, ∃ i, ∃ h ∈ (c.host i).held, e ∈ h.log.entries
  net : ∀ p ∈ c.net, Tells setup g p.src p.msg

variable {setup : Setup} {i : NodeId} {cause : Cause} {r : Raft} {n m : Node} {g g' : State NodeId Entry} {c c' : Cluster}

theorem Fixed.mono {e : Entry} (fixed : Fixed setup g e) (grows : Grows g g') : Fixed setup g' e := by
  obtain ⟨t, l, settled, positive, found⟩ := fixed
  exact ⟨t, l, grows.settled settled le_rfl, positive, found⟩

-- A node that had no part in the moves.
theorem LogRel.others (rel : LogRel setup i r g) (grows : Grows g g') (same : SameAt g g' i) : LogRel setup i r g' :=
  rel.carry ⟨rfl, rfl, rfl, rfl, rfl, rfl⟩ grows ⟨same.log, same.durable, same.known⟩
    (fun d held => (rel.duties d held).mono grows same.owed.ge) (rel.confirmed grows id rfl rfl)

-- Where an input begins, the log is as it was, and more of it may be durable.
theorem Server.Begins.kept {s : Server} {now : Nat} {input : Input} (begins : s.Begins now input cause n) :
    ∃ durableIndex, s.raft.durableIndex ≤ durableIndex ∧ SameLog { s.raft with durableIndex } n.toRaft ∧
      n.role = s.raft.role ∧ n.term = s.raft.term ∧ n.matchIndex = s.raft.matchIndex ∧ n.sent = [] := by
  cases begins with
  | done op ok action hard p =>
    cases hard with
    | none => exact ⟨_, le_rfl, ⟨rfl, rfl, rfl, rfl, rfl, rfl⟩, rfl, rfl, rfl, rfl⟩
    | some hs =>
      obtain ⟨_, _, raft, later, _⟩ := Node.noteDurable_spec { s.wake now with persister := p } hs
      have quiet : ({ s.wake now with persister := p }.noteDurable (some hs)).sent = [] :=
        congrArg (fun io : Io => ({ s.wake now with toIo := io } : Node).sent)
          (Node.noteDurable_toIo { s.wake now with persister := p } (some hs))
      rw [raft]
      exact ⟨_, later, ⟨rfl, rfl, rfl, rfl, rfl, rfl⟩, rfl, rfl, rfl, quiet⟩
  | _ => exact ⟨_, le_rfl, ⟨rfl, rfl, rfl, rfl, rfl, rfl⟩, rfl, rfl, rfl, rfl⟩

theorem SafetyRel.begins {now : Nat} {input : Input} (rel : SafetyRel setup c g) (possible : input.Possible c.net i)
    (begins : (c.host i).Begins now input cause n) : Proceeds setup i cause n.toRaft n g := by
  obtain ⟨casts, b, dones, run, mid, writes⟩ := rel.election.begins possible begins
  have castable : ∀ mv ∈ casts, g.Castable Entry.term mv := by
    intro mv member
    obtain ⟨h, rfl⟩ := dones mv member
    trivial
  obtain ⟨g', moves, rfl, recast⟩ := State.Run.cast run rel.sound castable (by
    rintro x c (member | member)
    · obtain ⟨h, same⟩ := dones _ member
      cases same
    · obtain ⟨h, same⟩ := dones _ member
      cases same)
  obtain ⟨durableIndex, later, same, role, term, matchIndex, quiet⟩ := begins.kept
  have sound := moves.sound rel.sound
  have log := rel.logs i
  have formed := formed_of_recast rel.sound rel.formed recast
  have allowed : g'.Allowed Entry.term setup.members.toFinset (.secure i durableIndex) := by
    change g'.durable i ≤ durableIndex
    rwa [recast.durable, log.durable]
  have grows := (moves.grows rel.sound).trans (sound.grows allowed)
  have owed : g.owed i ⊆ (g'.next Entry.term (.secure i durableIndex)).owed i := (congrFun recast.owed i).ge
  obtain ⟨_, fewer, done⟩ := begins.duties
  refine ⟨_, _, ?_, moves.append (.single allowed), ⟨mid, sound.next allowed, ?_, ?_, ?_, ?_, ?_⟩, writes, ?_⟩
  · intro mv member
    rcases List.mem_append.mp member with cast | secure
    · obtain ⟨move, listed, rfl⟩ := List.mem_map.mp cast
      obtain ⟨h, rfl⟩ := dones move listed
      rfl
    · rw [List.mem_singleton.mp secure]
      rfl
  · exact formed
  · exact {
      cfg := same.cfg ▸ log.cfg
      uncompacted := same.cfg ▸ log.uncompacted
      image := same.snapshotData ▸ log.image
      whole := same.log ▸ log.whole.mono grows
      log := (congrFun recast.log i).trans (same.log ▸ log.log)
      durable := (Function.update_self ..).trans same.durableIndex.symm
      known := (congrFun recast.known i).trans (same.commitIndex ▸ log.known)
      uncut := same.truncatedCommitted ▸ log.uncut
      duties := fun d held => (log.duties d (fewer d held)).mono grows owed
      matched := log.confirmed grows (fun leads => role ▸ leads) term matchIndex }
  · cases cause with
    | message src msg =>
      obtain ⟨p, rfl, rfl, rfl, _⟩ := begins.message_inv rfl
      exact (rel.net p possible.1).mono grows
    | durable action hard =>
      obtain ⟨d, held, rfl, rfl⟩ := done action hard rfl
      exact (log.duties d held).mono grows owed
    | _ => trivial
  · rw [quiet]
    exact List.forall_mem_nil _
  · exact same.log ▸ log.whole.mono grows
  · exact fun t e member => .inl (mem_lead_of_recast rel.sound recast member)

theorem Leads.proceeds (leads : Leads cause r n m) (calm : m.panicked = false) (whole : r.log.Whole g)
    (start : Proceeds setup i cause r n g) : Proceeds setup i cause r m g := by
  have chain := leads calm
  clear leads calm
  induction chain with
  | refl => exact start
  | tail _ act ih =>
    obtain ⟨moves, g', own, run, course, writes, gains⟩ := ih
    obtain ⟨moves', g'', own', run', course', writes', gains'⟩ := act.proceeds course
    refine ⟨moves ++ moves', g'', ?_, run.append run', course', writes.trans writes', ?_⟩
    · exact fun mv member => (List.mem_append.mp member).elim (own mv) (own' mv)
    · intro t e member
      rcases gains' t e member with ⟨u, before⟩ | now
      · rcases gains u e before with old | mid
        · exact .inl old
        · rcases course.keeps act with same | stays
          · exact .inl (Stems.mem_lead whole.stems (same ▸ mid))
          · exact .inr (stays mid)
      · exact .inr now

-- What a node has committed is settled, then and ever after.
theorem SafetyRel.committed (rel : SafetyRel setup c g) (x : NodeId) :
    g.Settled Entry.term setup.members.toFinset (c.host x).raft.term
        ((c.host x).raft.log.entries.take (c.host x).raft.commitIndex) ∧
      (c.host x).raft.commitIndex ≤ (c.host x).raft.log.entries.length := by
  have known := (rel.sound.holder x).known
  have now : g.now x = (c.host x).raft.term := congrArg Ballot.Stance.term (rel.election.hosts x).node.now
  rwa [(rel.logs x).log, (rel.logs x).known, now] at known

theorem SafetyRel.fixed {e : Entry} (rel : SafetyRel setup c g) (member : e ∈ (c.host i).raft.log.entries)
    (within : e.index ≤ (c.host i).raft.commitIndex) : Fixed setup g e := by
  obtain ⟨settled, -⟩ := rel.committed i
  obtain ⟨k, inside, here⟩ := List.getElem_of_mem member
  have found := List.getElem?_eq_some_iff.mpr ⟨inside, here⟩
  have index := (rel.logs i).whole.left.wellFormed.numbered k e found
  refine ⟨_, _, settled, by rw [noIndex]; omega, ?_⟩
  rw [index, Nat.add_sub_cancel, List.getElem?_take, if_pos (by omega)]
  exact found

-- What is handed to the state machine is settled.
theorem SafetyRel.hands (rel : SafetyRel setup c g) (now : Nat) (input : Input) :
    ∀ e ∈ ((c.host i).handle now input).2, Fixed setup g e := by
  cases input with
  | drain blob =>
    have contiguous := (rel.logs i).whole.left.contiguous
    intro e taken
    have taken : e ∈ (Node.takeAppliedGo (c.host i).raft.log ((c.host i).raft.commitIndex -
        max (c.host i).raft.lastApplied (c.host i).raft.log.snapshotIndex)
        (max (c.host i).raft.lastApplied (c.host i).raft.log.snapshotIndex)).1 := taken
    obtain ⟨member, within⟩ := mem_takeAppliedGo contiguous _ _ (le_max_right _ _) e taken
    refine rel.fixed member ?_
    by_cases ahead : (c.host i).raft.commitIndex ≤ max (c.host i).raft.lastApplied (c.host i).raft.log.snapshotIndex
    · rw [Nat.sub_eq_zero_of_le ahead] at taken
      cases taken
    · omega
  | _ => exact List.forall_mem_nil _

-- Nothing is applied before it is committed.
theorem SafetyRel.keeps (rel : SafetyRel setup c g) (now : Nat) (input : Input)
    (calm : ((c.host i).handle now input).1.panicked = false) : ((c.host i).handle now input).1.Keeping := by
  obtain ⟨cause, r, last⟩ := @Server.handle_rule (c.host i).toServer
    (fun cause _ n => n.Keeping ∧ n.persister.Ordered ∧
      ∀ action hard, cause = .durable action hard → action.Keeps n.toRaft) now input
    (fun cause n begins => by
      obtain ⟨keeping, batch⟩ := begins.keeping (rel.keeping i)
      exact ⟨keeping, begins.ordered (rel.election.hosts i).node.ordered, batch⟩)
    (fun cause r n m mid act => by
      obtain ⟨keeping, ordered, batch⟩ := mid
      obtain ⟨keeping', batch'⟩ := act.keeping keeping ordered batch
      exact ⟨keeping', (act.asks ordered).ordered ordered, batch'⟩)
    calm
  exact last.1

-- One host has changed: what holds of it, and what still holds of the others.
theorem SafetyRel.hosts (rel : SafetyRel setup c g) (grows : Grows g g') (same : ∀ j, j ≠ i → SameAt g g' j) {b : Host}
    (log : LogRel setup i b.raft g') (held : ∀ h ∈ b.held, h.log.Whole g') (handed : ∀ e ∈ b.handed, Fixed setup g' e)
    (keeping : b.raft.Keeping) (j : NodeId) :
    LogRel setup j (Function.update c.host i b j).raft g' ∧
      (∀ h ∈ (Function.update c.host i b j).held, h.log.Whole g') ∧
      (∀ e ∈ (Function.update c.host i b j).handed, Fixed setup g' e) ∧
      (Function.update c.host i b j).raft.Keeping := by
  by_cases here : j = i
  · subst here
    rw [Function.update_self]
    exact ⟨log, held, handed, keeping⟩
  · rw [Function.update_of_ne here]
    exact ⟨(rel.logs j).others grows (same j here), fun h member => (rel.held j h member).mono grows,
      fun e member => (rel.handed j e member).mono grows, rel.keeping j⟩

theorem held_update {b : Host} (longer : ∀ h ∈ (c.host i).held, h ∈ b.held) {j : NodeId} {h : Held}
    (member : h ∈ (c.host j).held) : h ∈ (Function.update c.host i b j).held := by
  by_cases here : j = i
  · subst here
    rw [Function.update_self]
    exact longer h member
  · rwa [Function.update_of_ne here]

-- The cluster after an input.
theorem SafetyRel.input (rel : SafetyRel setup c g) {now : Nat} {input : Input} (possible : input.Possible c.net i)
    (calm : ((c.host i).handle now input).1.panicked = false) :
    ∃ g', Grows g g' ∧ SafetyRel setup
      { host := Function.update c.host i
          ((c.host i).settle input ((c.host i).handle now input).1 ((c.host i).handle now input).2)
        net := c.net ++ (c.host i).packets i ((c.host i).handle now input).1 } g' := by
  obtain ⟨cause, n, begins, leads⟩ := (c.host i).handle_leads now input
  obtain ⟨_, _, same, _⟩ := begins.kept
  obtain ⟨moves, g', own, run, course, writes, gains⟩ :=
    leads.proceeds calm (same.log ▸ (rel.logs i).whole) (rel.begins possible begins)
  have grows := run.grows rel.sound
  have same : ∀ j, j ≠ i → SameAt g g' j := fun j apart => run.same own apart
  obtain ⟨casts, ballot, actors⟩ := run.ballot
  let b := (c.host i).settle input ((c.host i).handle now input).1 ((c.host i).handle now input).2
  have held : ∀ h ∈ b.held, h.log.Whole g' := by
    intro h member
    rcases List.mem_append.mp member with old | new
    · exact (rel.held i h old).mono grows
    · rw [List.mem_singleton.mp new]
      exact course.log.whole
  have handed : ∀ e ∈ b.handed, Fixed setup g' e := by
    intro e member
    rcases List.mem_append.mp member with old | new
    · exact (rel.handed i e old).mono grows
    · exact (rel.hands now input e new).mono grows
  have hosts := rel.hosts grows same course.log held handed (rel.keeps now input calm)
  refine ⟨g', grows, ?_, course.sound, course.formed, fun j => (hosts j).1, fun j => (hosts j).2.1,
    fun j => (hosts j).2.2.1, fun j => (hosts j).2.2.2, ?_, ?_⟩
  · exact rel.election.settle course.mid ballot.extends (fun j apart => (same j apart).seat) writes
  · intro t e member
    rcases gains t e member with ⟨u, before⟩ | new
    · obtain ⟨j, h, held, inside⟩ := rel.kept u e before
      exact ⟨j, h, held_update (fun h member => List.mem_append_left _ member) held, inside⟩
    · refine ⟨i, { covered := (c.host i).nextCovered ((c.host i).handle now input).1
                   log := ((c.host i).handle now input).1.log
                   adopted := (c.host i).nextAdopted ((c.host i).handle now input).1 }, ?_, new⟩
      dsimp only
      rw [Function.update_self]
      exact List.mem_concat_self
  · intro p member
    rcases List.mem_append.mp member with old | new
    · exact (rel.net p old).mono grows
    · obtain ⟨message, sent, rfl⟩ := List.mem_map.mp new
      exact course.sent message sent

-- What is left of a log.
theorem RaftLog.Whole.truncateFrom {log : RaftLog} (whole : log.Whole g) (index : Nat) :
    (log.truncateFrom index).Whole g ∧ (log.truncateFrom index).entries <+: log.entries := by
  have first : log.truncateFrom index = log.truncateFrom (max index 1) := by
    rw [RaftLog.truncateFrom, RaftLog.truncateFrom, RaftLog.firstIndex, whole.base]
    simp
  have base : (log.truncateFrom index).snapshotIndex = 0 := (log.snapshotIndex_truncateFrom index).trans whole.base
  have positive : log.snapshotIndex < max index 1 := by
    rw [whole.base]
    omega
  have left := whole.left.truncateFrom positive
  rw [← first] at left
  have same := left.tail
  rw [base, List.drop_zero] at same
  rw [← same] at left
  have pre : (log.truncateFrom index).entries <+: log.entries := by
    rw [same]
    exact List.take_prefix _ _
  exact ⟨⟨base, left, whole.stems.shorten pre⟩, pre⟩

-- What a restart makes of what survived.
theorem Survived.boot_toRaft (s : Survived) (id : NodeId) (members : List NodeId) (cfg : RaftConfig) (io : Io) :
    ∃ current configIndex nextIndex matchIndex, (s.boot id members cfg io).toRaft =
      { s.raft id members cfg with
        members := current, configIndex, nextIndex, matchIndex
        electionTimer := (s.boot id members cfg io).electionTimer } := by
  obtain ⟨current, configIndex, nextIndex, matchIndex, raft⟩ :=
    ({ toRaft := s.raft id members cfg, toIo := io : Node }).refreshConfig_toRaft
  exact ⟨current, configIndex, nextIndex, matchIndex,
    congrArg (fun r : Raft => { r with electionTimer := (s.boot id members cfg io).electionTimer }) raft⟩

theorem LogRel.boot {s : Survived} {io : Io} (bare : s.snapshot = none)
    (uncompacted : (setup.cfg i).snapshotThreshold = 0) (whole : s.log.Whole g) (log : g.log i = s.log.entries)
    (durable : g.durable i = s.log.entries.length) (known : g.known i = 0) :
    LogRel setup i (s.boot i setup.members (setup.cfg i) io).toRaft g := by
  obtain ⟨_, _, _, _, booted⟩ := s.boot_toRaft i setup.members (setup.cfg i) io
  rw [booted]
  exact {
    cfg := rfl
    uncompacted := uncompacted
    image := by
      simp only [Survived.raft, bare]
      rfl
    whole := whole
    log := log
    durable := durable.trans whole.left.lastIndex.symm
    known := known.trans whole.base.symm
    uncut := rfl
    duties := List.forall_mem_nil _
    matched := fun leads => Role.noConfusion leads }

theorem Survived.boot_keeping {s : Survived} {id : NodeId} {members : List NodeId} {cfg : RaftConfig} {io : Io}
    (contiguous : s.log.Contiguous) : (s.boot id members cfg io).Keeping := by
  obtain ⟨_, _, _, _, booted⟩ := s.boot_toRaft id members cfg io
  rw [booted]
  exact ⟨⟨contiguous, le_rfl, le_rfl⟩, List.forall_mem_nil _⟩

-- The cluster after a crash and a restart.
theorem SafetyRel.reboot (rel : SafetyRel setup c g) (uncompacted : setup.Uncompacted) {now : Nat} {survived : Survived}
    {origin : Held} (possible : survived.Possible setup (c.host i)) (survives : Survives c (.restart i now survived origin)) :
    ∃ g', Grows g g' ∧ SafetyRel setup
      { c with host := Function.update c.host i ((c.host i).reboot setup i now survived origin) } g' := by
  obtain ⟨bare, held, remnant, least, current⟩ := survives
  obtain ⟨allowed, election⟩ := rel.election.reboot now origin possible
  have whole := ((rel.held i origin held).truncateFrom (survived.log.lastIndex + 1)).1
  rw [← remnant] at whole
  have log := rel.logs i
  have move : g.Allowed Entry.term setup.members.toFinset (.restart i survived.hard.ballot survived.log.entries) := by
    refine ⟨allowed, whole.stems, current, ?_⟩
    rw [log.log, log.durable]
    exact least
  have grows := rel.sound.grows move
  let b := (c.host i).reboot setup i now survived origin
  have booted : LogRel setup i b.raft (g.next Entry.term (.restart i survived.hard.ballot survived.log.entries)) :=
    .boot bare (uncompacted i) (whole.mono grows) (Function.update_self ..) (Function.update_self ..)
      (Function.update_self ..)
  have held : ∀ h ∈ b.held, h.log.Whole (g.next Entry.term (.restart i survived.hard.ballot survived.log.entries)) := by
    intro h member
    rcases List.mem_append.mp member with old | new
    · exact (rel.held i h old).mono grows
    · rw [List.mem_singleton.mp new]
      exact whole.mono grows
  have hosts := rel.hosts grows (fun j apart => State.next_same g _ apart) booted held
    (fun e member => (rel.handed i e member).mono grows) (Survived.boot_keeping whole.left.contiguous)
  refine ⟨_, grows, election, rel.sound.next move, rel.formed, fun j => (hosts j).1, fun j => (hosts j).2.1,
    fun j => (hosts j).2.2.1, fun j => (hosts j).2.2.2, fun t e member => ?_,
    fun p member => (rel.net p member).mono grows⟩
  obtain ⟨j, h, before, inside⟩ := rel.kept t e member
  exact ⟨j, h, held_update (fun h member => List.mem_append_left _ member) before, inside⟩

theorem wholeLog_empty : RaftLog.Whole g {} :=
  ⟨rfl, RaftLog.leftOf_fromSnapshot ⟨nofun, List.pairwise_singleton _ _⟩, nofun⟩

theorem SafetyRel.init (uncompacted : setup.Uncompacted) :
    SafetyRel setup (Cluster.init setup) (.fresh initialBallot) where
  election := .init setup
  sound := .fresh Entry.term (initialBallot_sound _) rfl rfl fun _ => ⟨rfl, rfl, rfl⟩
  formed _ := ⟨nofun, List.pairwise_singleton _ _⟩
  logs i := .boot (s := readDisk [] [] []) rfl (uncompacted i) wholeLog_empty rfl rfl rfl
  held _ := by
    intro h member
    rw [List.mem_singleton.mp member]
    exact wholeLog_empty
  handed _ := List.forall_mem_nil _
  keeping _ := Survived.boot_keeping (s := readDisk [] [] []) (readDisk_contiguous [] [] [])
  kept _ := List.forall_mem_nil _
  net := List.forall_mem_nil _

theorem SafetyRel.step {event : Event} (rel : SafetyRel setup c g) (uncompacted : setup.Uncompacted)
    (survives : Survives c event) (next : c.step setup event = some c') : ∃ g', Grows g g' ∧ SafetyRel setup c' g' := by
  cases event with
  | input i now input =>
    simp only [Cluster.step] at next
    split at next
    · next possible =>
      cases next
      exact rel.input possible.1 possible.2
    · cases next
  | restart i now survived origin =>
    simp only [Cluster.step] at next
    split at next
    · next possible =>
      cases next
      exact rel.reboot uncompacted possible survives
    · cases next

theorem SafetyRel.run (rel : SafetyRel setup c g) (uncompacted : setup.Uncompacted)
    (run : Cluster.Run setup Survives c c') : ∃ g', Grows g g' ∧ SafetyRel setup c' g' := by
  induction run with
  | refl => exact ⟨g, .refl g, rel⟩
  | step _ survives next ih =>
    obtain ⟨g', grows, mid⟩ := ih
    obtain ⟨g'', further, last⟩ := mid.step uncompacted survives next
    exact ⟨g'', grows.trans further, last⟩

def hoarders : Setup :=
  { trio with cfg := fun _ => { preVote := false, leaderStickiness := false, snapshotThreshold := 0 } }

theorem hoarders_uncompacted : hoarders.Uncompacted := fun _ => rfl

def opening : Entry := { term := 1, index := 1, cmd := .noop }

def openingLog : RaftLog := { entries := [opening], offsets := [0], finish := opening.toRecord.length }

def firstCommit : List Event := firstElection ++
  [ .input 1 0 (.deliver { src := 0, dst := 1, msg := .appendEntries 1 0 0 0 [opening] 0 }),
    .input 1 0 (.storage 3 true), .input 1 0 (.storage 4 true), .input 0 0 (.storage 3 true), .input 0 0 (.storage 4 true),
    .input 0 0 (.deliver { src := 1, dst := 0, msg := .appendEntriesResp 1 true 1 0 }), .input 0 0 (.drain []),
    .input 0 0 (.timer .heartbeat),
    .input 1 0 (.deliver { src := 0, dst := 1, msg := .appendEntries 1 0 1 1 [] 1 }), .input 1 0 (.drain []) ]

def nextElection : List Event :=
  [ .restart 0 0
      { hard := { term := 1, votedFor := some 0, seq := 1 }, snapshot := none, snapshotFile := none, log := openingLog }
      { log := openingLog },
    .input 1 0 (.timer .election), .input 1 0 (.storage 5 true), .input 1 0 (.storage 6 true),
    .input 2 0 (.deliver { src := 1, dst := 2, msg := .requestVote 2 1 1 1 }),
    .input 2 0 (.storage 1 true), .input 2 0 (.storage 2 true),
    .input 1 0 (.deliver { src := 2, dst := 1, msg := .requestVoteResp 2 true }) ]

theorem hoarders_play : (Execution.play (Cluster.step hoarders) Survives (Cluster.init hoarders) firstCommit).bind
    (fun early => (Execution.play (Cluster.step hoarders) Survives early nextElection).map fun late =>
      decide ((early.host 0).raft.commitIndex = 1 ∧ (early.host 0).raft.term ≤ (late.host 1).raft.term ∧
        (early.host 0).handed = [opening] ∧ (early.host 1).handed = [opening] ∧
        { log := openingLog } ∈ (early.host 0).held ∧ { log := openingLog } ∈ (early.host 1).held ∧
        (late.host 1).raft.role = .leader ∧ (late.host 1).raft.commitIndex = 1)) = some true := by decide +kernel

theorem hoarders_run : ∃ early late : Cluster,
    Cluster.Reachable hoarders Survives early ∧ Cluster.Run hoarders Survives early late ∧
      (early.host 0).raft.commitIndex = 1 ∧ (early.host 0).raft.term ≤ (late.host 1).raft.term ∧
      (early.host 0).handed = [opening] ∧ (early.host 1).handed = [opening] ∧
      { log := openingLog } ∈ (early.host 0).held ∧ { log := openingLog } ∈ (early.host 1).held ∧
      (late.host 1).raft.role = .leader ∧ (late.host 1).raft.commitIndex = 1 := by
  obtain ⟨early, first, rest⟩ := Option.bind_eq_some_iff.mp hoarders_play
  obtain ⟨late, second, facts⟩ := Option.map_eq_some_iff.mp rest
  exact ⟨early, late, Execution.run_of_play first, Execution.run_of_play second, of_decide_eq_true facts⟩

theorem RaftLog.Whole.get {log : RaftLog} (whole : log.Whole g) (index : Nat) :
    log.get index = if index = noIndex then none else log.entries[index - 1]? := by
  by_cases first : index = noIndex
  · rw [if_pos first, first, RaftLog.get, if_pos (.inl (Nat.succ_pos _))]
  · rw [if_neg first, whole.left.contiguous.get_eq (by rw [whole.base]; rw [noIndex] at first; omega), RaftLog.firstIndex,
      whole.base]

-- Logs that are the same up to an index.
theorem RaftLog.Whole.get_eq {first second : RaftLog} {length : Nat} (whole : first.Whole g) (whole' : second.Whole g)
    (same : first.entries.take length = second.entries.take length) {index : Nat} (inside : index ≤ length) :
    first.get index = second.get index := by
  rw [whole.get, whole'.get]
  split
  · rfl
  · next positive =>
    rw [noIndex] at positive
    have here : ∀ l : List Entry, (l.take length)[index - 1]? = l[index - 1]? := fun l => by
      rw [List.getElem?_take, if_pos (by omega)]
    rw [← here, same, here]

/-- Logs match. If two logs, held by any nodes at any times of a run, have entries of the same term at some index, they
are the same up to there. -/
theorem logs_match (uncompacted : setup.Uncompacted) (reached : Cluster.Reachable setup Survives c) {x y : NodeId}
    {first second : Held} (own : first ∈ (c.host x).held) (other : second ∈ (c.host y).held) {index : Nat} {a b : Entry}
    (here : first.log.get index = some a) (there : second.log.get index = some b) (same : a.term = b.term) :
    ∀ j ≤ index, first.log.get j = second.log.get j := by
  obtain ⟨g, _, rel⟩ := (SafetyRel.init uncompacted).run uncompacted reached
  have whole := rel.held x first own
  have whole' := rel.held y second other
  rw [whole.get] at here
  rw [whole'.get] at there
  by_cases none : index = noIndex
  · rw [if_pos none] at here
    cases here
  · rw [if_neg none] at here there
    have agree := whole.stems.matching whole'.stems _ _ _ here there same
    rw [noIndex] at none
    rw [Nat.sub_add_cancel (by omega)] at agree
    exact fun j within => whole.get_eq whole' agree within

theorem logs_match_hoarders : ∃ c : Cluster, Cluster.Reachable hoarders Survives c ∧
    ∃ first ∈ (c.host 0).held, ∃ second ∈ (c.host 1).held, first.log.get 1 = some opening ∧
      ∀ j ≤ 1, first.log.get j = second.log.get j := by
  obtain ⟨early, _, reached, _, _, _, _, _, own, other, _⟩ := hoarders_run
  exact ⟨early, reached, _, own, _, other, rfl, logs_match hoarders_uncompacted reached own other rfl rfl rfl⟩

-- Whoever leads has what was settled up to its term.
theorem SafetyRel.settled_leader {t : Nat} {l : List Entry} (rel : SafetyRel setup c g)
    (leads : (c.host i).raft.role = .leader) (settled : g.Settled Entry.term setup.members.toFinset t l)
    (newer : t ≤ (c.host i).raft.term) : l <+: (c.host i).raft.log.entries := by
  obtain ⟨e, won, term, rfl⟩ := rel.election.won leads
  have office : (g.ballot.seat e.winner).post = .leader := by
    rw [(rel.election.hosts e.winner).node.post, leads]
    rfl
  have now : g.now e.winner = e.term :=
    (congrArg Ballot.Stance.term (rel.election.hosts e.winner).node.now).trans term.symm
  have pre := rel.sound.settled_won settled won (term ▸ newer)
  rwa [← now, (rel.sound.holder e.winner).leads office, (rel.logs e.winner).log] at pre

/-- Leaders are complete. What any node has committed at any time is in the log of whoever leads then or later in the
same term or a later one. -/
theorem leader_completeness (uncompacted : setup.Uncompacted) {early late : Cluster}
    (reached : Cluster.Reachable setup Survives early) (later : Cluster.Run setup Survives early late) {x y : NodeId}
    (leads : (late.host y).raft.role = .leader) (newer : (early.host x).raft.term ≤ (late.host y).raft.term) :
    ∀ index ≤ (early.host x).raft.commitIndex, index ≠ noIndex →
      ∃ e, (early.host x).raft.log.get index = some e ∧ (late.host y).raft.log.get index = some e := by
  obtain ⟨g, _, rel⟩ := (SafetyRel.init uncompacted).run uncompacted reached
  obtain ⟨g', grows, rel'⟩ := rel.run uncompacted later
  obtain ⟨settled, inside⟩ := rel.committed x
  have log := rel'.logs y
  have pre := rel'.settled_leader leads (grows.settled settled le_rfl) newer
  have whole := (rel.logs x).whole.mono grows
  have same : (early.host x).raft.log.entries.take (early.host x).raft.commitIndex =
      (late.host y).raft.log.entries.take (early.host x).raft.commitIndex := by
    have same := List.prefix_iff_eq_take.mp pre
    rwa [List.length_take, Nat.min_eq_left inside] at same
  intro index within positive
  have agree := whole.get_eq log.whole same within
  rw [← agree, whole.get, if_neg positive]
  rw [noIndex] at positive
  have found := List.getElem?_eq_getElem (show index - 1 < (early.host x).raft.log.entries.length by omega)
  exact ⟨_, found, found⟩

theorem leader_completeness_hoarders : ∃ early late : Cluster, Cluster.Reachable hoarders Survives early ∧
    (early.host 0).raft.commitIndex = 1 ∧ (late.host 1).raft.role = .leader ∧
      ∃ e, (early.host 0).raft.log.get 1 = some e ∧ (late.host 1).raft.log.get 1 = some e := by
  obtain ⟨early, late, reached, later, committed, newer, _, _, _, _, leads, _⟩ := hoarders_run
  exact ⟨early, late, reached, committed, leads,
    leader_completeness hoarders_uncompacted reached later leads newer 1 committed.ge Nat.one_ne_zero⟩

-- Two settled lists have the same items.
theorem settled_getElem? {t u k : Nat} {l l' : List Entry} {a b : Entry} (sound : g.Sound Entry.term setup.members.toFinset)
    (settled : g.Settled Entry.term setup.members.toFinset t l)
    (settled' : g.Settled Entry.term setup.members.toFinset u l') (here : l[k]? = some a) (there : l'[k]? = some b) :
    a = b := by
  have inside := (List.getElem?_eq_some_iff.mp here).1
  have inside' := (List.getElem?_eq_some_iff.mp there).1
  rcases sound.settled_agree settled settled' with ⟨rest, rfl⟩ | ⟨rest, rfl⟩
  · rw [List.getElem?_append_left inside, here] at there
    exact Option.some.inj there
  · rw [List.getElem?_append_left inside', there] at here
    exact (Option.some.inj here).symm

/-- Nodes agree on what is committed, whenever each of them has committed it. -/
theorem committed_agree (uncompacted : setup.Uncompacted) {early late : Cluster}
    (reached : Cluster.Reachable setup Survives early) (later : Cluster.Run setup Survives early late) {x y : NodeId} :
    ∀ index, index ≤ (early.host x).raft.commitIndex → index ≤ (late.host y).raft.commitIndex →
      (early.host x).raft.log.get index = (late.host y).raft.log.get index := by
  obtain ⟨g, _, rel⟩ := (SafetyRel.init uncompacted).run uncompacted reached
  obtain ⟨g', grows, rel'⟩ := rel.run uncompacted later
  obtain ⟨settled, inside⟩ := rel.committed x
  obtain ⟨settled', inside'⟩ := rel'.committed y
  intro index own other
  rw [((rel.logs x).whole.mono grows).get, (rel'.logs y).whole.get]
  split
  · rfl
  · next positive =>
    rw [noIndex] at positive
    have first := List.getElem?_eq_getElem (show index - 1 < (early.host x).raft.log.entries.length by omega)
    have second := List.getElem?_eq_getElem (show index - 1 < (late.host y).raft.log.entries.length by omega)
    have kept : ∀ {l : List Entry} {commit : Nat}, index ≤ commit → (l.take commit)[index - 1]? = l[index - 1]? :=
      fun within => by rw [List.getElem?_take, if_pos (by omega)]
    rw [first, second, Option.some.injEq]
    exact settled_getElem? rel'.sound (grows.settled settled le_rfl) settled' ((kept own).trans first)
      ((kept other).trans second)

theorem committed_agree_hoarders : ∃ early late : Cluster, Cluster.Reachable hoarders Survives early ∧
    (early.host 0).raft.commitIndex = 1 ∧ (late.host 1).raft.commitIndex = 1 ∧
      (early.host 0).raft.log.get 1 = (late.host 1).raft.log.get 1 := by
  obtain ⟨early, late, reached, later, own, _, _, _, _, _, _, other⟩ := hoarders_run
  exact ⟨early, late, reached, own, other,
    committed_agree hoarders_uncompacted reached later 1 own.ge other.ge⟩

/-- State machines are safe. Whatever entries are handed to the state machines of any nodes, before or after a restart, no
two of them differ and have the same index. -/
theorem state_machine_safety (uncompacted : setup.Uncompacted) (reached : Cluster.Reachable setup Survives c)
    {x y : NodeId} {e e' : Entry} (own : e ∈ (c.host x).handed) (other : e' ∈ (c.host y).handed)
    (same : e.index = e'.index) : e = e' := by
  obtain ⟨g, _, rel⟩ := (SafetyRel.init uncompacted).run uncompacted reached
  obtain ⟨_, _, settled, _, found⟩ := rel.handed x e own
  obtain ⟨_, _, settled', _, found'⟩ := rel.handed y e' other
  rw [← same] at found'
  exact settled_getElem? rel.sound settled settled' found found'

theorem state_machine_safety_hoarders : ∃ c : Cluster, Cluster.Reachable hoarders Survives c ∧
    ∃ e ∈ (c.host 0).handed, ∃ e' ∈ (c.host 1).handed, e.index = e'.index ∧ e = e' := by
  obtain ⟨early, _, reached, _, _, _, own, other, _⟩ := hoarders_run
  have first : opening ∈ (early.host 0).handed := own ▸ List.mem_singleton_self _
  have second : opening ∈ (early.host 1).handed := other ▸ List.mem_singleton_self _
  exact ⟨early, reached, _, first, _, second, rfl, state_machine_safety hoarders_uncompacted reached first second rfl⟩

/-- The counter of truncations that reach into the committed part of a log never leaves zero. -/
theorem committed_never_truncated (uncompacted : setup.Uncompacted) (reached : Cluster.Reachable setup Survives c)
    (x : NodeId) : (c.host x).raft.truncatedCommitted = 0 := by
  obtain ⟨g, _, rel⟩ := (SafetyRel.init uncompacted).run uncompacted reached
  exact (rel.logs x).uncut

theorem committed_never_truncated_hoarders : ∃ c : Cluster, Cluster.Reachable hoarders Survives c ∧
    (c.host 0).raft.commitIndex = 1 ∧ (c.host 0).raft.truncatedCommitted = 0 := by
  obtain ⟨early, _, reached, _, committed, _⟩ := hoarders_run
  exact ⟨early, reached, committed, committed_never_truncated hoarders_uncompacted reached 0⟩

end SimKv
