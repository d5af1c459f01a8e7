import SimKv.Election
import SimKv.Lib.SuccessionMoves
import SimKv.Raft.Asks
import SimKv.Raft.Commit
import SimKv.Raft.Replication

set_option autoImplicit false

/-!
# The cluster keeps its logs as the succession protocol does

Nodes that never compact their logs. What a packet says about a log and what a batch under way will say about it are
accounted for in the abstract state; every act of a handler is then a few moves of the protocol.
-/

namespace SimKv

open Agreement Succession

structure Excerpt (setup : Setup) (g : State NodeId Entry) (term prevIndex prevTerm : Nat) (entries : List Entry)
    (leaderCommit : Nat) : Prop where
  start : prevIndex ≤ (g.lead term).length
  before : prevIndex ≠ noIndex → ∃ e, (g.lead term)[prevIndex - 1]? = some e ∧ e.term = prevTerm
  slices : Slices (g.lead term) prevIndex entries
  reached : leaderCommit ≤ (g.lead term).length
  settled : g.Settled Entry.term setup.members.toFinset term ((g.lead term).take leaderCommit)

def Tells (setup : Setup) (g : State NodeId Entry) (src : NodeId) : RaftMsg → Prop
  | .requestVote term candidate lastIndex lastTerm =>
      { term, candidate, lastTerm, length := lastIndex } ∈ g.offers
  | .appendEntries term _ prevIndex prevTerm entries leaderCommit =>
      Excerpt setup g term prevIndex prevTerm entries leaderCommit
  | .appendEntriesResp term success matchIndex _ =>
      success = true → matchIndex = noIndex ∨ (term, matchIndex) ∈ g.acked src
  -- nobody has compacted its log
  | .installSnapshot .. => False
  | .installSnapshotResp _ index => index = noIndex
  | _ => True

def Assures (setup : Setup) (g : State NodeId Entry) (i : NodeId) : Persist → Prop
  | .logDurable _ _ verified (some _) replyTerm => (replyTerm, verified) ∈ g.owed i
  | .reply _ msg => Tells setup g i msg
  | .snapshotTaken .. | .snapshotInstalled .. => False
  | _ => True

def Hears (setup : Setup) (g : State NodeId Entry) (i : NodeId) : Cause → Prop
  | .message src msg => Tells setup g src msg
  | .durable action _ => Assures setup g i action
  | _ => True

structure RaftLog.Whole (g : State NodeId Entry) (log : RaftLog) : Prop where
  base : log.snapshotIndex = 0
  left : log.LeftOf log.entries
  stems : g.Stems Entry.term log.entries

structure LogRel (setup : Setup) (i : NodeId) (r : Raft) (g : State NodeId Entry) : Prop where
  cfg : r.cfg = setup.cfg i
  uncompacted : r.cfg.snapshotThreshold = 0
  image : r.snapshotData = []
  whole : r.log.Whole g
  log : g.log i = r.log.entries
  durable : g.durable i = r.durableIndex
  known : g.known i = r.commitIndex
  uncut : r.truncatedCommitted = 0
  duties : ∀ d ∈ r.persister.duties, Assures setup g i d.action
  matched : r.role = .leader → ∀ p, p ≠ i → ∀ k, r.matchIndex p = some k →
    k = noIndex ∨ ∃ m, k ≤ m ∧ (r.term, m) ∈ g.acked p

structure Course (setup : Setup) (i : NodeId) (cause : Cause) (r : Raft) (n : Node) (g : State NodeId Entry) :
    Prop where
  mid : Mid setup i cause r n g.ballot
  sound : g.Sound Entry.term setup.members.toFinset
  formed : ∀ t, WellFormed (g.lead t)
  log : LogRel setup i n.toRaft g
  hears : Hears setup g i cause
  sent : ∀ m ∈ n.sent, Tells setup g i m.2
  began : r.log.Whole g

def Gains (g g' : State NodeId Entry) (log : RaftLog) : Prop :=
  ∀ t, ∀ e ∈ g'.lead t, (∃ u, e ∈ g.lead u) ∨ e ∈ log.entries

def Proceeds (setup : Setup) (i : NodeId) (cause : Cause) (r : Raft) (m : Node) (g : State NodeId Entry) : Prop :=
  ∃ moves g', (∀ mv ∈ moves, mv.actor = i) ∧ State.Run Entry.term setup.members.toFinset g moves g' ∧
    Course setup i cause r m g' ∧ (g.ballot.seat i).writes ⊆ (g'.ballot.seat i).writes ∧ Gains g g' m.log

variable {setup : Setup} {i : NodeId} {cause : Cause} {r : Raft} {n m : Node} {g g' : State NodeId Entry}

theorem Excerpt.mono {term prevIndex prevTerm leaderCommit : Nat} {entries : List Entry}
    (excerpt : Excerpt setup g term prevIndex prevTerm entries leaderCommit) (grows : Grows g g') :
    Excerpt setup g' term prevIndex prevTerm entries leaderCommit where
  start := excerpt.start.trans (grows.lead term).length_le
  before positive := by
    obtain ⟨e, found, same⟩ := excerpt.before positive
    exact ⟨e, grows.lead_getElem? found, same⟩
  slices k e found := grows.lead_getElem? (excerpt.slices k e found)
  reached := excerpt.reached.trans (grows.lead term).length_le
  settled := by
    have same : (g'.lead term).take leaderCommit = (g.lead term).take leaderCommit := by
      obtain ⟨rest, more⟩ := grows.lead term
      rw [← more, List.take_append_of_le_length excerpt.reached]
    rw [same]
    exact grows.settled excerpt.settled le_rfl

theorem Tells.mono {src : NodeId} {msg : RaftMsg} (tells : Tells setup g src msg) (grows : Grows g g') :
    Tells setup g' src msg := by
  cases msg with
  | requestVote => exact grows.offers tells
  | appendEntries => exact Excerpt.mono tells grows
  | appendEntriesResp => exact fun success => (tells success).imp_right fun acked => grows.acked src acked
  | _ => exact tells

theorem Assures.mono {action : Persist} (promises : Assures setup g i action) (grows : Grows g g')
    (owed : g.owed i ⊆ g'.owed i) : Assures setup g' i action := by
  cases action with
  | logDurable _ _ _ replyTo =>
    cases replyTo with
    | none => trivial
    | some => exact owed promises
  | reply => exact Tells.mono promises grows
  | _ => exact promises

-- A batch keeps what it promises when a truncation caps it.
theorem Assures.clamp {action : Persist} (promises : Assures setup g i action) (cap : Nat) :
    Assures setup g i (action.clamp cap) := by
  cases action with
  | logDurable _ _ _ replyTo => cases replyTo <;> exact promises
  | _ => exact promises

theorem Hears.mono (hears : Hears setup g i cause) (grows : Grows g g') (owed : g.owed i ⊆ g'.owed i) :
    Hears setup g' i cause := by
  cases cause with
  | message => exact Tells.mono hears grows
  | durable => exact Assures.mono hears grows owed
  | _ => trivial

theorem RaftLog.Whole.mono {log : RaftLog} (whole : log.Whole g) (grows : Grows g g') : log.Whole g' :=
  ⟨whole.base, whole.left, grows.stems whole.stems⟩

structure SameLog (r r' : Raft) : Prop where
  cfg : r'.cfg = r.cfg
  log : r'.log = r.log
  durableIndex : r'.durableIndex = r.durableIndex
  commitIndex : r'.commitIndex = r.commitIndex
  snapshotData : r'.snapshotData = r.snapshotData
  truncatedCommitted : r'.truncatedCommitted = r.truncatedCommitted

-- A node that may have got new duties or a new office, but has the log it had.
theorem LogRel.carry {r' : Raft} (rel : LogRel setup i r g) (same : SameLog r r') (grows : Grows g g')
    (recast : g'.log i = g.log i ∧ g'.durable i = g.durable i ∧ g'.known i = g.known i)
    (duties : ∀ d ∈ r'.persister.duties, Assures setup g' i d.action)
    (matched : r'.role = .leader → ∀ p, p ≠ i → ∀ k, r'.matchIndex p = some k →
      k = noIndex ∨ ∃ m, k ≤ m ∧ (r'.term, m) ∈ g'.acked p) : LogRel setup i r' g' where
  cfg := by
    rw [same.cfg]
    exact rel.cfg
  uncompacted := by
    rw [same.cfg]
    exact rel.uncompacted
  image := by
    rw [same.snapshotData]
    exact rel.image
  whole := by
    rw [same.log]
    exact rel.whole.mono grows
  log := by rw [recast.1, same.log, rel.log]
  durable := by rw [recast.2.1, same.durableIndex, rel.durable]
  known := by rw [recast.2.2, same.commitIndex, rel.known]
  uncut := by rw [same.truncatedCommitted, rel.uncut]
  duties := duties
  matched := matched

-- What the peers of a leader have confirmed stays confirmed.
theorem LogRel.confirmed {r' : Raft} (rel : LogRel setup i r g) (grows : Grows g g')
    (office : r'.role = .leader → r.role = .leader) (term : r'.term = r.term) (matchIndex : r'.matchIndex = r.matchIndex) :
    r'.role = .leader → ∀ p, p ≠ i → ∀ k, r'.matchIndex p = some k →
      k = noIndex ∨ ∃ m, k ≤ m ∧ (r'.term, m) ∈ g'.acked p := by
  intro leads p other k found
  rw [matchIndex] at found
  rw [term]
  refine (rel.matched (office leads) p other k found).imp_right fun ⟨m, longer, acked⟩ => ⟨m, longer, ?_⟩
  exact grows.acked p acked

theorem wellFormed_of_stems {l : List Entry} (sound : g.Sound Entry.term setup.members.toFinset)
    (formed : ∀ t, WellFormed (g.lead t)) (stems : g.Stems Entry.term l) : WellFormed l where
  numbered k e found := (formed e.term).numbered k e (stems.lead_getElem? found)
  ordered := by
    refine List.pairwise_cons.mpr ⟨fun _ _ => Nat.zero_le _, ?_⟩
    rw [List.pairwise_iff_getElem]
    intro k j first second before
    rw [List.length_map] at first second
    rw [List.getElem_map, List.getElem_map]
    exact sound.grounds.ordered_of_stems stems before.le (List.getElem?_eq_getElem first) (List.getElem?_eq_getElem second)

-- Who wins a term by then leads with a log it has held.
theorem formed_of_recast (sound : g.Sound Entry.term setup.members.toFinset) (formed : ∀ t, WellFormed (g.lead t))
    (recast : State.Recast g g') (t : Nat) : WellFormed (g'.lead t) := by
  rcases recast.lead t with same | ⟨x, own⟩
  · rw [same]
    exact formed t
  · rw [own]
    exact wellFormed_of_stems sound formed (sound.holder x).stems

theorem Stems.mem_lead {l : List Entry} (stems : g.Stems Entry.term l) {e : Entry} (member : e ∈ l) :
    ∃ u, e ∈ g.lead u := by
  obtain ⟨k, found⟩ := List.getElem?_of_mem member
  exact ⟨_, List.mem_of_getElem? (stems.lead_getElem? found)⟩

-- Moves of the ballot bring nothing new.
theorem mem_lead_of_recast (sound : g.Sound Entry.term setup.members.toFinset) (recast : State.Recast g g') {t : Nat}
    {e : Entry} (member : e ∈ g'.lead t) : ∃ u, e ∈ g.lead u := by
  rcases recast.lead t with same | ⟨x, own⟩
  · exact ⟨t, same ▸ member⟩
  · rw [own] at member
    exact Stems.mem_lead (sound.holder x).stems member

structure Recasts (setup : Setup) (i : NodeId) (cause : Cause) (r : Raft) (m : Node) (g g' : State NodeId Entry) :
    Prop where
  moves : ∃ moves, (∀ mv ∈ moves, mv.actor = i) ∧ State.Run Entry.term setup.members.toFinset g moves g'
  mid : Mid setup i cause r m g'.ballot
  recast : State.Recast g g'
  writes : (g.ballot.seat i).writes ⊆ (g'.ballot.seat i).writes

theorem Course.now (course : Course setup i cause r n g) : g.now i = n.term :=
  congrArg Ballot.Stance.term course.mid.seat.now

theorem Course.hard (course : Course setup i cause r n g) : g.hard i = n.durableTerm := by
  rw [course.mid.seat.durableTerm]
  exact congrArg (fun h : Ballot.Hard NodeId => h.term) course.mid.seat.hard

-- A vote request that passes the election restriction here passes it in the protocol.
theorem Course.meets (course : Course setup i cause r n g) {src candidate : NodeId}
    (requested : Requested cause n.toRaft src candidate) : g.Meets Entry.term i candidate := by
  obtain ⟨lastIndex, lastTerm, message, newer⟩ := requested
  have offered := course.hears
  rw [message] at offered
  refine ⟨_, offered, course.now.symm, rfl, ?_⟩
  rw [RaftLog.isUpToDate, course.log.whole.left.lastIndex, course.log.whole.left.lastTerm] at newer
  rw [Offer.Covers, endTerm, course.log.log]
  exact newer

theorem Course.castable (course : Course setup i cause r n g) {mv : Ballot.Move NodeId} (own : mv.actor = i)
    (permitted : Permits cause n mv) : g.Castable Entry.term mv := by
  cases mv with
  | vote | renew =>
    cases own
    exact course.meets permitted
  | restart => exact permitted.elim
  | _ => trivial

-- Moves of the ballot that a run of the protocol can make.
theorem Course.recastBy (course : Course setup i cause r n g) {casts : List (Ballot.Move NodeId)}
    {b : Ballot.State NodeId} (run : Ballot.State.Run setup.members.toFinset g.ballot casts b)
    (mid : Mid setup i cause r m b) (writes : (g.ballot.seat i).writes ⊆ (b.seat i).writes)
    (own : ∀ mv ∈ casts, mv.actor = i ∧ g.Castable Entry.term mv)
    (steady : ∀ x c, .vote x c ∈ casts ∨ .renew x c ∈ casts → m.term = n.term) :
    ∃ g', Recasts setup i cause r m g g' := by
  obtain ⟨g', moves, rfl, recast⟩ := State.Run.cast run course.sound (fun mv member => (own mv member).2) (by
    intro x c votes
    have here : x = i := votes.elim (fun member => (own _ member).1) fun member => (own _ member).1
    rw [here, course.now, ← steady x c votes]
    exact congrArg Ballot.Stance.term mid.seat.now)
  refine ⟨g', ⟨_, ?_, moves⟩, mid, recast, writes⟩
  intro mv member
  obtain ⟨cast, listed, rfl⟩ := List.mem_map.mp member
  exact (own cast listed).1

-- What an act does to the ballot. An act that changes the term does not depend on what the node reacts to.
theorem Course.recasts (course : Course setup i cause r n g) (act : Act cause r n m)
    (steady : m.term = n.term ∨ ∀ cause', Act cause' r n m) : ∃ g', Recasts setup i cause r m g g' := by
  rcases steady with same | free
  · obtain ⟨casts, b, own, run, mid, writes⟩ := act.simulated course.mid
    exact course.recastBy run mid writes
      (fun mv member => ⟨(own mv member).1, course.castable (own mv member).1 (own mv member).2⟩) fun _ _ _ => same
  · -- as if nothing had been asked
    obtain ⟨sound, seat, known, sent, led⟩ := course.mid
    have unasked : ∀ x c, ¬ Permits .other n (.vote x c) := by
      rintro x c ⟨_, _, message, _⟩
      cases message
    by_cases message : ∃ src msg, cause = .message src msg
    · obtain ⟨src, msg, rfl⟩ := message
      obtain ⟨casts, b, own, run, mid, writes⟩ := (free .other).simulated ⟨sound, seat, trivial, sent, led⟩
      refine course.recastBy run ⟨mid.sound, mid.seat, PacketRel.mono run.extends known, mid.sent, mid.led⟩ writes ?_ ?_
      · intro mv member
        obtain ⟨actor, permitted⟩ := own mv member
        refine ⟨actor, ?_⟩
        cases mv with
        | vote x c | renew x c => exact absurd permitted (unasked x c)
        | restart => exact permitted.elim
        | _ => trivial
      · rintro x c (member | member)
        · exact absurd (own _ member).2 (unasked x c)
        · exact absurd (own _ member).2 (unasked x c)
    · obtain ⟨casts, b, own, run, mid, writes⟩ := act.simulated course.mid
      refine course.recastBy run mid writes
        (fun mv member => ⟨(own mv member).1, course.castable (own mv member).1 (own mv member).2⟩) ?_
      rintro x c (member | member)
      · obtain ⟨_, _, asked, _⟩ := (own _ member).2
        exact absurd ⟨_, _, asked⟩ message
      · obtain ⟨_, _, asked, _⟩ := (own _ member).2
        exact absurd ⟨_, _, asked⟩ message

namespace Recasts

variable (recasts : Recasts setup i cause r m g g') (course : Course setup i cause r n g)

include recasts course

theorem sound : g'.Sound Entry.term setup.members.toFinset := by
  obtain ⟨moves, _, run⟩ := recasts.moves
  exact run.sound course.sound

theorem grows : Grows g g' := by
  obtain ⟨moves, _, run⟩ := recasts.moves
  exact run.grows course.sound

theorem formed (t : Nat) : WellFormed (g'.lead t) := formed_of_recast course.sound course.formed recasts.recast t

-- What the log of the node is about stays as it is.
theorem log (same : SameLog n.toRaft m.toRaft) (duties : ∀ d ∈ m.persister.duties, Assures setup g' i d.action)
    (matched : m.role = .leader → ∀ p, p ≠ i → ∀ k, m.matchIndex p = some k →
      k = noIndex ∨ ∃ j, k ≤ j ∧ (m.term, j) ∈ g.acked p) : LogRel setup i m.toRaft g' := by
  have recast := recasts.recast
  refine course.log.carry same (recasts.grows course) ⟨?_, ?_, ?_⟩ duties ?_
  · rw [recast.log]
  · rw [recast.durable]
  · rw [recast.known]
  · rw [recast.acked]
    exact matched

end Recasts

-- Moves of the ballot and then of the log.
theorem Course.proceeds {g'' : State NodeId Entry} (course : Course setup i cause r n g)
    (recasts : Recasts setup i cause r m g g') {moves : List (Move NodeId Entry)}
    (run : State.Run Entry.term setup.members.toFinset g' moves g'') (own : ∀ mv ∈ moves, mv.actor = i)
    (ballot : g''.ballot = g'.ballot) (owed : g'.owed i ⊆ g''.owed i) (formed : ∀ t, WellFormed (g''.lead t))
    (log : LogRel setup i m.toRaft g'') (sent : ∀ p ∈ m.sent, p ∈ n.sent ∨ Tells setup g'' i p.2)
    (gains : Gains g' g'' m.log) : Proceeds setup i cause r m g := by
  have sound := recasts.sound course
  have grows := (recasts.grows course).trans (run.grows sound)
  obtain ⟨first, actors, before⟩ := recasts.moves
  refine ⟨first ++ moves, g'', ?_, before.append run, ⟨?_, run.sound sound, formed, log, ?_, ?_, ?_⟩, ?_, ?_⟩
  · exact fun mv member => (List.mem_append.mp member).elim (actors mv) (own mv)
  · rw [ballot]
    exact recasts.mid
  · refine course.hears.mono grows ?_
    rw [← recasts.recast.owed]
    exact owed
  · intro p member
    rcases sent p member with old | new
    · exact (course.sent p old).mono grows
    · exact new
  · exact course.began.mono grows
  · rw [ballot]
    exact recasts.writes
  · intro t e member
    refine (gains t e member).imp_left fun ⟨u, before⟩ => ?_
    exact mem_lead_of_recast course.sound recasts.recast before

theorem Gains.refl (g : State NodeId Entry) (log : RaftLog) : Gains g g log := fun t _ member => .inl ⟨t, member⟩

-- An act that leaves the log and all that is known about it alone.
theorem Course.still (course : Course setup i cause r n g) (act : Act cause r n m)
    (steady : m.term = n.term ∨ ∀ cause', Act cause' r n m) (same : SameLog n.toRaft m.toRaft)
    (duties : ∀ g', Recasts setup i cause r m g g' → ∀ d ∈ m.persister.duties,
      d ∈ n.persister.duties ∨ Assures setup g' i d.action)
    (matched : m.role = .leader → ∀ p, p ≠ i → ∀ k, m.matchIndex p = some k →
      k = noIndex ∨ ∃ j, k ≤ j ∧ (m.term, j) ∈ g.acked p)
    (sent : ∀ g', Recasts setup i cause r m g g' → ∀ p ∈ m.sent, p ∈ n.sent ∨ Tells setup g' i p.2) :
    Proceeds setup i cause r m g := by
  obtain ⟨g', recasts⟩ := course.recasts act steady
  refine course.proceeds recasts (.nil g') (List.forall_mem_nil _) rfl subset_rfl (recasts.formed course)
    (recasts.log course same ?_ matched) (sent g' recasts) (.refl g' m.log)
  intro d held
  rcases duties g' recasts d held with old | new
  · exact (course.log.duties d old).mono (recasts.grows course) (by rw [recasts.recast.owed])
  · exact new

-- Moves that only add to what a node has vouched for.
theorem Course.vouches (course : Course setup i cause r n g) {move : Move NodeId Entry}
    (allowed : g.Allowed Entry.term setup.members.toFinset move) (ballot : (g.next Entry.term move).ballot = g.ballot)
    (lead : (g.next Entry.term move).lead = g.lead) (owed : g.owed i ⊆ (g.next Entry.term move).owed i)
    (same : (g.next Entry.term move).log i = g.log i ∧ (g.next Entry.term move).durable i = g.durable i ∧
      (g.next Entry.term move).known i = g.known i) :
    Course setup i cause r n (g.next Entry.term move) := by
  have grows := course.sound.grows allowed
  have log := course.log
  refine ⟨?_, course.sound.next allowed, ?_, ?_, course.hears.mono grows owed, fun p member => (course.sent p member).mono grows,
    course.began.mono grows⟩
  · rw [ballot]
    exact course.mid
  · rw [lead]
    exact course.formed
  · exact log.carry ⟨rfl, rfl, rfl, rfl, rfl, rfl⟩ grows same (fun d held => (log.duties d held).mono grows owed)
      (log.confirmed grows id rfl rfl)

theorem Course.owes (course : Course setup i cause r n g) {k : Nat} (within : k ≤ agreed n.log.entries (g.lead n.term)) :
    g.Allowed Entry.term setup.members.toFinset (.owe i k) ∧ Course setup i cause r n (g.next Entry.term (.owe i k)) ∧
      (n.term, k) ∈ (g.next Entry.term (.owe i k)).owed i := by
  have owed : (g.next Entry.term (.owe i k)).owed i = insert (n.term, k) (g.owed i) := by
    rw [← course.now]
    exact Function.update_self ..
  have allowed : g.Allowed Entry.term setup.members.toFinset (.owe i k) := by
    change k ≤ agreed (g.log i) (g.lead (g.now i))
    rwa [course.log.log, course.now]
  refine ⟨allowed, course.vouches allowed rfl rfl ?_ ⟨rfl, rfl, rfl⟩, ?_⟩
  · rw [owed]
    exact Set.subset_insert _ _
  · rw [owed]
    exact .inl rfl

theorem Course.acks (course : Course setup i cause r n g) {t k : Nat} (stored : t ≤ n.durableTerm)
    (safe : k ≤ n.durableIndex)
    (source : (∃ j, k ≤ j ∧ (t, j) ∈ g.owed i) ∨ t = n.term ∧ k ≤ agreed n.log.entries (g.lead t)) :
    g.Allowed Entry.term setup.members.toFinset (.ack i t k) ∧ Course setup i cause r n (g.next Entry.term (.ack i t k)) ∧
      (t, k) ∈ (g.next Entry.term (.ack i t k)).acked i := by
  have allowed : g.Allowed Entry.term setup.members.toFinset (.ack i t k) := by
    change t ≤ g.hard i ∧ k ≤ g.durable i ∧ ((∃ j, k ≤ j ∧ (t, j) ∈ g.owed i) ∨
      t = g.now i ∧ k ≤ agreed (g.log i) (g.lead t))
    rw [course.hard, course.log.durable, course.now, course.log.log]
    exact ⟨stored, safe, source⟩
  refine ⟨allowed, course.vouches allowed rfl rfl subset_rfl ⟨rfl, rfl, rfl⟩, ?_⟩
  have acked : (g.next Entry.term (.ack i t k)).acked i = insert (t, k) (g.acked i) := Function.update_self ..
  rw [acked]
  exact .inl rfl

theorem Proceeds.prepend {move : Move NodeId Entry} (allowed : g.Allowed Entry.term setup.members.toFinset move)
    (actor : move.actor = i) (ballot : (g.next Entry.term move).ballot = g.ballot)
    (lead : (g.next Entry.term move).lead = g.lead)
    (rest : Proceeds setup i cause r m (g.next Entry.term move)) : Proceeds setup i cause r m g := by
  obtain ⟨moves, g', own, run, course, writes, gains⟩ := rest
  refine ⟨move :: moves, g', List.forall_mem_cons.mpr ⟨actor, own⟩, .cons allowed run, course, ?_, ?_⟩
  · rwa [ballot] at writes
  · rwa [Gains, lead] at gains

section Excerpts

variable {log : RaftLog} {term prevIndex prevTerm leaderCommit : Nat} {entries : List Entry}

-- Without a snapshot a message is never trimmed.
theorem RaftLog.Whole.trims (whole : log.Whole g) {p t : Nat} {es : List Entry}
    (trims : Trims log prevIndex prevTerm entries p t es) : p = prevIndex ∧ t = prevTerm ∧ es = entries := by
  cases trims with
  | whole => exact ⟨rfl, rfl, rfl⟩
  | skip below =>
    rw [whole.base] at below
    exact absurd below (Nat.not_lt_zero _)

theorem RaftLog.snapshotIndex_accept (log : RaftLog) (p : Nat) (es : List Entry) :
    (log.accept p es).snapshotIndex = log.snapshotIndex := by
  unfold RaftLog.accept
  split
  · rfl
  · exact log.snapshotIndex_splice _ _ _ _

variable (excerpt : Excerpt setup g term prevIndex prevTerm entries leaderCommit) (whole : log.Whole g)
  (grounds : g.Grounds Entry.term) (agrees : log.matchesAt prevIndex prevTerm)

include excerpt whole grounds agrees

-- A log that passes the consistency check agrees with the winner's up to there.
theorem Excerpt.agreed : prevIndex ≤ agreed log.entries (g.lead term) := by
  by_cases first : prevIndex = noIndex
  · rw [first]
    exact Nat.zero_le _
  · obtain ⟨e, theirs, same⟩ := excerpt.before first
    rw [RaftLog.matchesAt, whole.left.termAt, if_neg first, whole.base, if_neg (Nat.not_lt_zero _)] at agrees
    obtain ⟨mine, own, here⟩ := Option.map_eq_some_iff.mp agrees
    have further := (whole.stems.matching (grounds.stems term)).lt_agreed own theirs (here.trans same.symm)
    rw [noIndex] at first
    omega

theorem Excerpt.scanned : Scanned log.entries (g.lead term) prevIndex entries (Node.firstNew log prevIndex entries 0) := by
  refine whole.left.scanned (whole.stems.matching (grounds.stems term)) ?_ (excerpt.agreed whole grounds agrees) excerpt.slices
  rw [whole.base]
  exact Nat.zero_le _

theorem Excerpt.accept (formed : WellFormed (g.lead term)) :
    (log.accept prevIndex entries).LeftOf (log.accept prevIndex entries).entries ∧
      TakesOver (g.lead term) (prevIndex + entries.length) log.entries (log.accept prevIndex entries).entries := by
  have base : log.snapshotIndex ≤ prevIndex := by
    rw [whole.base]
    exact Nat.zero_le _
  obtain ⟨_, held, left, takes⟩ := whole.left.accept (whole.stems.matching (grounds.stems term)) formed base
    (excerpt.agreed whole grounds agrees) excerpt.slices
  have same := left.tail
  rw [RaftLog.snapshotIndex_accept, whole.base, List.drop_zero] at same
  rw [same]
  exact ⟨left, takes⟩

end Excerpts

-- What a node has in common with the winner once it has accepted a message.
theorem Followed.agreed {src : NodeId} {lastNew leaderCommit : Nat}
    (followed : Followed cause r n.toRaft src lastNew leaderCommit) (began : r.log.Whole g)
    (grounds : g.Grounds Entry.term) (formed : ∀ t, WellFormed (g.lead t)) (hears : Hears setup g i cause) :
    lastNew ≤ agreed n.log.entries (g.lead n.term) ∧
      g.Settled Entry.term setup.members.toFinset n.term ((g.lead n.term).take leaderCommit) := by
  obtain ⟨leader, prevIndex, prevTerm, entries, p, t, es, rfl, rfl, trims, agrees, log⟩ := followed
  obtain ⟨rfl, rfl, rfl⟩ := began.trims trims
  have excerpt : Excerpt setup g n.term p t es leaderCommit := hears
  obtain ⟨_, takes⟩ := excerpt.accept began grounds agrees (formed n.term)
  rw [log]
  exact ⟨takes.reaches, excerpt.settled⟩

-- Nobody's snapshot covers a message.
theorem Course.uncovered (course : Course setup i cause r n g) {dst : NodeId} {lastNew : Nat} :
    ¬ Covered cause n.toRaft dst lastNew := by
  rintro ⟨_, _, _, _, _, _, _, below, _⟩
  rw [course.log.whole.base] at below
  exact Nat.not_lt_zero _ below

-- A message whose content is true by now.
theorem Course.speaks (course : Course setup i cause r n g) {dst : NodeId} {msg : RaftMsg}
    (act : Act cause r n (n.ioSend dst msg))
    (tells : ∀ g', Recasts setup i cause r (n.ioSend dst msg) g g' → PacketRel setup.members g'.ballot i dst msg →
      Tells setup g' i msg) : Proceeds setup i cause r (n.ioSend dst msg) g := by
  have raft := n.ioSend_toRaft dst msg
  refine course.still act (.inl (congrArg Raft.term raft)) ?_ ?_ ?_ ?_
  · rw [raft]
    exact ⟨rfl, rfl, rfl, rfl, rfl, rfl⟩
  · rw [raft]
    exact fun _ _ d held => .inl held
  · rw [raft]
    exact course.log.matched
  · intro g' recasts p member
    have packet := recasts.mid.sent p member
    rw [Node.sent_ioSend] at member
    rcases List.mem_append.mp member with old | new
    · exact .inl old
    · split at new
      · cases new
      · rw [List.mem_singleton.mp new] at packet ⊢
        exact .inr (tells g' recasts packet)

-- Members never leave office by being removed.
theorem Course.inOffice (course : Course setup i cause r n g) (office : InOffice r n.toRaft) : n.role = .leader := by
  rcases office with leads | ⟨led, removed⟩
  · exact leads
  · refine absurd (course.mid.led led) fun inside => removed ?_
    rw [Raft.isMember, course.mid.seat.id, course.mid.seat.fixed.current]
    exact inside

theorem Course.lead (course : Course setup i cause r n g) (leads : n.role = .leader) :
    g.lead n.term = n.log.entries := by
  rw [← course.now, ← course.log.log]
  refine (course.sound.holder i).leads ?_
  rw [course.mid.seat.post, leads]
  rfl

-- What a leader tells of its log.
theorem Course.excerpt (course : Course setup i cause r n g) (leads : n.role = .leader) {prevIndex prevTerm : Nat}
    (known : n.log.termAt prevIndex = some prevTerm) :
    Excerpt setup g n.term prevIndex prevTerm (n.log.sliceFrom (prevIndex + 1) n.cfg.maxBatch) n.commitIndex := by
  have whole := course.log.whole
  have lead := course.lead leads
  obtain ⟨settled, reached⟩ := (course.sound.holder i).known
  rw [course.log.log, course.log.known] at settled reached
  rw [course.now] at settled
  rw [whole.left.termAt, whole.base, if_neg (Nat.not_lt_zero _)] at known
  refine ⟨?_, ?_, ?_, ?_, ?_⟩
  · rw [lead]
    by_cases first : prevIndex = noIndex
    · rw [first]
      exact Nat.zero_le _
    · rw [if_neg first] at known
      obtain ⟨_, found, _⟩ := Option.map_eq_some_iff.mp known
      have inside := (List.getElem?_eq_some_iff.mp found).1
      omega
  · intro positive
    rw [if_neg positive] at known
    rw [lead]
    exact Option.map_eq_some_iff.mp known
  · intro k e found
    rw [whole.left.sliceFrom, whole.base, if_neg (Nat.not_succ_le_zero _), Nat.add_sub_cancel, List.getElem?_take] at found
    split at found
    · rw [lead, ← List.getElem?_drop]
      exact found
    · cases found
  · rw [lead]
    exact reached
  · rw [lead]
    exact settled

theorem Course.send (course : Course setup i cause r n g) {dst : NodeId} {msg : RaftMsg}
    (durable : msg.term ≤ n.durableTerm) (allowed : Says cause r n.toRaft dst msg) :
    Proceeds setup i cause r (n.ioSend dst msg) g := by
  have act := Act.send n dst msg durable allowed
  have log := course.log
  cases msg with
  | requestVote term candidate lastIndex lastTerm =>
    obtain ⟨_, rfl, standing, rfl, rfl, rfl⟩ := allowed
    refine course.speaks act fun g' recasts packet => ?_
    -- what was made known of the candidacy is where the log ends now
    have sound := recasts.sound course
    obtain ⟨o, offered, term, whose⟩ := sound.candid.asked _ _ packet.2
    have seat := recasts.mid.seat
    rw [n.ioSend_toRaft] at seat
    have here : o.candidate = i := whose.trans seat.id
    obtain ⟨last, size⟩ := sound.candid.standing o offered (by rw [here, seat.post, standing]; rfl) (by
      rw [here, term]
      exact congrArg Ballot.Stance.term seat.now)
    rw [here, recasts.recast.log, log.log] at last size
    rw [Tells, log.whole.left.lastIndex, log.whole.left.lastTerm]
    obtain ⟨_, _, _, _⟩ := o
    cases term
    cases whose
    cases last
    cases size
    exact offered
  | appendEntries term leader prevIndex prevTerm entries leaderCommit =>
    obtain ⟨office, rfl, rfl, known, rfl, rfl⟩ := allowed
    have excerpt := course.excerpt (course.inOffice office) known
    exact course.speaks act fun g' recasts _ => excerpt.mono (recasts.grows course)
  | appendEntriesResp term success matchIndex conflictIndex =>
    by_cases succeeds : success = true
    · -- the word is given before the message is sent
      have source : matchIndex ≤ n.durableIndex ∧ ((∃ j, matchIndex ≤ j ∧ (term, j) ∈ g.owed i) ∨
          term = n.term ∧ matchIndex ≤ agreed n.log.entries (g.lead term)) := by
        rcases allowed succeeds with ⟨_, _, verified, _, done, rfl⟩ | ⟨lastNew, rfl, rfl, ⟨_, followed⟩ | covered⟩
        · have owed := course.hears
          rw [done] at owed
          exact ⟨min_le_left _ _, .inl ⟨verified, min_le_right _ _, owed⟩⟩
        · obtain ⟨reached, _⟩ := followed.agreed course.began course.sound.grounds course.formed course.hears
          exact ⟨min_le_left _ _, .inr ⟨rfl, (min_le_right _ _).trans reached⟩⟩
        · exact absurd covered course.uncovered
      obtain ⟨move, course', acked⟩ := course.acks durable source.1 source.2
      refine .prepend move rfl rfl rfl (course'.speaks act fun g' recasts _ _ => .inr ?_)
      rw [recasts.recast.acked]
      exact acked
    · exact course.speaks act fun _ _ _ given => absurd given succeeds
  | installSnapshot term leader index indexTerm data =>
    obtain ⟨_, _, _, _, _, rfl, some_, _⟩ := allowed
    exact absurd log.image some_
  | installSnapshotResp term index =>
    refine course.speaks act fun g' recasts packet => ?_
    rcases allowed with none | ⟨_, _, passed⟩ | ⟨_, _, _, _, _, done, _⟩
    · exact none
    · obtain ⟨_, _, _, _, _, offered, _⟩ := passed
      have never := course.hears
      rw [offered] at never
      exact never.elim
    · have never := course.hears
      rw [done] at never
      exact never.elim
  | _ => exact course.speaks act fun _ _ _ => trivial

-- An act that opens a batch.
theorem Course.opens (course : Course setup i cause r n g) (act : Act cause r n m)
    (steady : m.term = n.term ∨ ∀ cause', Act cause' r n m) (same : SameLog n.toRaft m.toRaft) {file : FileId}
    {action : Persist} {hard : Option HardState} (opens : n.persister.Opens file action hard m.persister)
    (matched : m.role = .leader → ∀ p, p ≠ i → ∀ k, m.matchIndex p = some k →
      k = noIndex ∨ ∃ j, k ≤ j ∧ (m.term, j) ∈ g.acked p) (sent : m.sent = n.sent)
    (promises : ∀ g', Recasts setup i cause r m g g' → Assures setup g' i action) : Proceeds setup i cause r m g := by
  refine course.still act steady same ?_ matched fun _ _ p member => .inl (sent ▸ member)
  intro g' recasts d held
  rw [opens.2] at held
  rcases List.mem_append.mp held with old | new
  · exact .inl old
  · rw [List.mem_singleton.mp new]
    exact .inr (promises g' recasts)

theorem Course.persistHard (course : Course setup i cause r n g) {action : Persist}
    (act : Act cause r n (n.persistHard action))
    (promises : ∀ g', Recasts setup i cause r (n.persistHard action) g g' → Assures setup g' i action) :
    Proceeds setup i cause r (n.persistHard action) g :=
  course.opens act (.inl rfl) ⟨rfl, rfl, rfl, rfl, rfl, rfl⟩ (n.persistHard_opens course.mid.seat.ordered action)
    course.log.matched (n.persistHard_sent action) promises

theorem Node.persistLog_opens (n : Node) (ordered : n.persister.Ordered) (hard : Bool) (start : Nat) (truncated : Bool)
    (replyTo : Option NodeId) (replyTerm verified : Nat) (m : Node)
    (same : m = if hard then n.persistHardAndLog start truncated replyTo replyTerm verified
      else n.persistLogFrom start truncated replyTo replyTerm verified) :
    (∃ stateSeq persister, m.toRaft = { n.toRaft with stateSeq, persister }) ∧ m.sent = n.sent ∧
      ∃ hs, n.persister.Opens .wal (n.logAction start verified replyTo replyTerm) hs m.persister := by
  subst same
  cases hard with
  | false =>
    obtain ⟨p, raft, opens, sent, _⟩ := n.persistLogFrom_spec start truncated replyTo replyTerm verified
    refine ⟨⟨n.stateSeq, p, raft⟩, sent, none, ?_⟩
    simp only [Bool.false_eq_true, if_false]
    rw [raft]
    exact opens
  | true =>
    obtain ⟨p, raft, opens, sent, _⟩ := n.persistHardAndLog_spec ordered start truncated replyTo replyTerm verified
    refine ⟨⟨n.stateSeq + 1, p, raft⟩, sent, some n.hardState, ?_⟩
    simp only [if_true]
    rw [raft]
    exact opens

theorem Course.persistLog (course : Course setup i cause r n g) (hard : Bool) {start : Nat} {truncated : Bool}
    {replyTo : Option NodeId} {replyTerm verified : Nat}
    (act : Act cause r n m)
    (same : m = if hard then n.persistHardAndLog start truncated replyTo replyTerm verified
      else n.persistLogFrom start truncated replyTo replyTerm verified)
    (promises : ∀ dst ∈ replyTo, (replyTerm, verified) ∈ g.owed i) : Proceeds setup i cause r m g := by
  obtain ⟨⟨_, _, raft⟩, sent, _, opens⟩ :=
    n.persistLog_opens course.mid.seat.ordered hard start truncated replyTo replyTerm verified m same
  refine course.opens act (.inl (by rw [raft])) ?_ opens ?_ sent ?_
  · rw [raft]
    exact ⟨rfl, rfl, rfl, rfl, rfl, rfl⟩
  · rw [raft]
    exact course.log.matched
  · intro g' recasts
    cases replyTo with
    | none => trivial
    | some dst =>
      rw [Node.logAction, Assures, recasts.recast.owed]
      exact promises dst rfl

-- A leader appends an entry of its own.
theorem Course.append (course : Course setup i cause r n g) {cmd : Command}
    (act : Act cause r n { n with log := n.log.append (n.ownEntry cmd) }) (leads : n.role = .leader)
    (sound : n.log.AppendOk (n.ownEntry cmd)) :
    Proceeds setup i cause r { n with log := n.log.append (n.ownEntry cmd) } g := by
  obtain ⟨g', recasts⟩ := course.recasts act (.inl rfl)
  have log := course.log
  have left := log.whole.left.append sound
  have here : g'.log i = n.log.entries := by rw [recasts.recast.log, log.log]
  have seat := recasts.mid.seat
  have now : g'.now i = n.term := congrArg Ballot.Stance.term seat.now
  have office : (g'.ballot.seat i).post = .leader := by
    rw [seat.post]
    change n.role.post = .leader
    rw [leads]
    rfl
  have allowed : g'.Allowed Entry.term setup.members.toFinset (.append i (n.ownEntry cmd)) := ⟨office, now.symm⟩
  have next := (recasts.sound course).next allowed
  have grows := (recasts.sound course).grows allowed
  have grown : (g'.next Entry.term (.append i (n.ownEntry cmd))).log i = n.log.entries ++ [n.ownEntry cmd] := by
    rw [← here]
    exact Function.update_self ..
  have all := (recasts.grows course).trans grows
  have stems := (next.holder i).stems
  rw [grown] at stems
  have lead : ∀ t, (g'.next Entry.term (.append i (n.ownEntry cmd))).lead t = n.log.entries ++ [n.ownEntry cmd] ∨
      (g'.next Entry.term (.append i (n.ownEntry cmd))).lead t = g'.lead t := by
    intro t
    by_cases same : t = n.term
    · left
      rw [← here, same, ← now]
      exact Function.update_self ..
    · exact .inr (Function.update_of_ne (now.symm ▸ same) _ _)
  refine course.proceeds recasts (.single allowed) (by simp [Move.actor]) rfl subset_rfl ?_ ?_
    (fun p member => .inl member) ?_
  · intro t
    rcases lead t with own | still
    · rw [own]
      exact left.wellFormed
    · rw [still]
      exact recasts.formed course t
  · exact {
      cfg := log.cfg
      uncompacted := log.uncompacted
      image := log.image
      whole := ⟨log.whole.base, left, stems⟩
      log := grown
      durable := (congrFun recasts.recast.durable i).trans log.durable
      known := (congrFun recasts.recast.known i).trans log.known
      uncut := log.uncut
      duties := fun d held => (log.duties d held).mono all (congrFun recasts.recast.owed i).ge
      matched := log.confirmed all id rfl rfl }
  · intro t e member
    rcases lead t with own | still
    · rw [own] at member
      exact .inr member
    · rw [still] at member
      exact .inl ⟨t, member⟩

-- A truncation that spares what is committed is not counted as a loss.
theorem Node.takeEntries_uncut {n : Node} {p k : Nat} {es : List Entry} {conflict : Bool}
    (sound : (n.takeEntries p es k conflict).panicked = false) (spares : conflict = true → n.commitIndex ≤ p + k) :
    (n.takeEntries p es k conflict).truncatedCommitted = n.truncatedCommitted := by
  have refreshed : ∀ m : Node, m.refreshConfig.truncatedCommitted = m.truncatedCommitted := by
    intro m
    obtain ⟨_, _, _, _, raft⟩ := m.refreshConfig_toRaft
    rw [raft]
  have cut : (if conflict then n.truncate (p + 1 + k) else n).truncatedCommitted = n.truncatedCommitted := by
    split
    · next cuts =>
      have below := spares cuts
      simp only [truncate]
      rw [if_neg (by omega), refreshed]
    · rfl
  simp only [takeEntries] at sound ⊢
  split
  · next brought =>
    rw [if_pos brought, refreshConfig_toIo] at sound
    rw [refreshed]
    obtain ⟨appended, _⟩ := appendAll_spec _ sound
    rw [appended]
    exact cut
  · next brought =>
    rw [if_neg brought] at sound
    obtain ⟨appended, _⟩ := appendAll_spec _ sound
    rw [appended]
    exact cut

-- A follower takes over what a message brings.
theorem Course.splice (course : Course setup i cause r n g) {src leader : NodeId} {prevIndex prevTerm : Nat}
    {entries : List Entry} {leaderCommit p t : Nat} {es : List Entry} {k : Nat} {conflict : Bool}
    (act : Act cause r n (n.takeEntries p es k conflict))
    (offered : cause = .message src (.appendEntries n.term leader prevIndex prevTerm entries leaderCommit))
    (trims : Trims n.log prevIndex prevTerm entries p t es) (agrees : n.log.matchesAt p t)
    (found : Node.firstNew n.log p es 0 = some (k, conflict)) (follows : n.role = .follower)
    (calm : (n.takeEntries p es k conflict).panicked = false) :
    Proceeds setup i cause r (n.takeEntries p es k conflict) g := by
  have log := course.log
  obtain ⟨rfl, rfl, rfl⟩ := log.whole.trims trims
  obtain ⟨_, _, _, _, _, _, raft, io⟩ := n.takeEntries_toRaft p es k conflict calm
  obtain ⟨g', recasts⟩ := course.recasts act (.inl (by rw [raft]))
  have sound := recasts.sound course
  have recast := recasts.recast
  have excerpt : Excerpt setup g' n.term p t es leaderCommit := by
    have told := course.hears
    rw [offered] at told
    exact Excerpt.mono told (recasts.grows course)
  have whole := log.whole.mono (recasts.grows course)
  -- the scan stops where the log and the winner's part
  have scanned := excerpt.scanned whole sound.grounds agrees
  obtain ⟨left, takes⟩ := excerpt.accept whole sound.grounds agrees (recasts.formed course n.term)
  rw [RaftLog.accept, found] at left takes
  rw [found] at scanned
  have edge : agreed n.log.entries (g'.lead n.term) = p + k ∧ k < es.length := by
    cases scanned with
    | conflict i inside edge => exact ⟨edge, inside⟩
    | beyond i inside edge => exact ⟨edge, inside⟩
  have now : g'.now i = n.term := by
    have seat := congrArg Ballot.Stance.term recasts.mid.seat.now
    rw [raft] at seat
    exact seat
  have here : g'.log i = n.log.entries := (congrFun recast.log i).trans log.log
  have safe : g'.durable i = n.durableIndex := (congrFun recast.durable i).trans log.durable
  have known : g'.known i = n.commitIndex := (congrFun recast.known i).trans log.known
  have spares : n.commitIndex ≤ p + k := by
    have led : g'.lead (g'.now i) ≠ [] := by
      have size := excerpt.slices.length_le excerpt.start
      rw [now]
      exact List.ne_nil_of_length_pos (by omega)
    have common := sound.known_le_agreed led
    rwa [known, here, now, edge.1] at common
  have allowed : g'.Allowed Entry.term setup.members.toFinset (.take i (p + es.length)
      (n.log.splice p es k conflict).entries (if conflict then min n.durableIndex (p + k) else n.durableIndex)) := by
    refine ⟨?_, ?_, ?_, ?_⟩
    · rw [recasts.mid.seat.post, raft]
      change n.role.post = .follower
      rw [follows]
      rfl
    · rw [now, here]
      exact takes
    · rw [now, here, edge.1]
      intro reached
      omega
    · rw [now, here, safe, edge.1]
      split
      · exact le_rfl
      · exact min_le_left _ _
  have next := sound.next allowed
  have grown : (g'.next Entry.term (.take i (p + es.length) (n.log.splice p es k conflict).entries
      (if conflict then min n.durableIndex (p + k) else n.durableIndex))).log i = (n.log.splice p es k conflict).entries :=
    Function.update_self ..
  have stems := (next.holder i).stems
  rw [grown] at stems
  refine course.proceeds recasts (.single allowed) (by simp [Move.actor]) rfl subset_rfl (recasts.formed course) ?_ ?_
    (.refl g' _)
  · have all := (recasts.grows course).trans (sound.grows allowed)
    have duties : ∀ d ∈ (if conflict then n.persister.clampAll (p + k) else n.persister).duties,
        Assures setup g i d.action := by
      split
      · intro d held
        rw [Persister.duties_clampAll] at held
        obtain ⟨old, before, rfl⟩ := List.mem_map.mp held
        exact (log.duties old before).clamp _
      · exact log.duties
    have uncut := n.takeEntries_uncut calm fun _ => spares
    rw [raft] at uncut ⊢
    exact {
      cfg := log.cfg
      uncompacted := log.uncompacted
      image := log.image
      whole := ⟨(n.log.snapshotIndex_splice p es k conflict).trans log.whole.base, left, stems⟩
      log := grown
      durable := Function.update_self ..
      known := known
      uncut := uncut.trans log.uncut
      duties := fun d held => (duties d held).mono all (congrFun recast.owed i).ge
      matched := fun leads => absurd (follows.symm.trans leads) (by decide) }
  · exact fun q member => .inl ((congrArg (fun io : Io => ({ n with toIo := io } : Node).sent) io) ▸ member)

-- What a node learns to be settled.
theorem Course.learn (course : Course setup i cause r n g) {commitIndex : Nat}
    (act : Act cause r n { n with commitIndex }) (inside : commitIndex ≤ n.log.entries.length)
    (settled : ∀ g', Recasts setup i cause r { n with commitIndex } g g' →
      g'.Settled Entry.term setup.members.toFinset n.term (n.log.entries.take commitIndex)) :
    Proceeds setup i cause r { n with commitIndex } g := by
  obtain ⟨g', recasts⟩ := course.recasts act (.inl rfl)
  have log := course.log
  have recast := recasts.recast
  have now : g'.now i = n.term := congrArg Ballot.Stance.term recasts.mid.seat.now
  have here : g'.log i = n.log.entries := (congrFun recast.log i).trans log.log
  have allowed : g'.Allowed Entry.term setup.members.toFinset (.learn i commitIndex) := by
    change commitIndex ≤ (g'.log i).length ∧ g'.Settled Entry.term setup.members.toFinset (g'.now i) ((g'.log i).take commitIndex)
    rw [here, now]
    exact ⟨inside, settled g' recasts⟩
  have all := (recasts.grows course).trans ((recasts.sound course).grows allowed)
  refine course.proceeds recasts (.single allowed) (by simp [Move.actor]) rfl subset_rfl (recasts.formed course) ?_
    (fun p member => .inl member) (.refl g' _)
  exact {
    cfg := log.cfg
    uncompacted := log.uncompacted
    image := log.image
    whole := log.whole.mono all
    log := here
    durable := (congrFun recast.durable i).trans log.durable
    known := Function.update_self ..
    uncut := log.uncut
    duties := fun d held => (log.duties d held).mono all (congrFun recast.owed i).ge
    matched := log.confirmed all id rfl rfl }

theorem Course.follow (course : Course setup i cause r n g) {src : NodeId} {lastNew leaderCommit : Nat}
    (act : Act cause r n (n.followCommit leaderCommit lastNew))
    (followed : Followed cause r n.toRaft src lastNew leaderCommit) :
    Proceeds setup i cause r (n.followCommit leaderCommit lastNew) g := by
  have log := course.log
  obtain ⟨settled, reached⟩ := (course.sound.holder i).known
  rw [course.now, log.known, log.log] at settled
  rw [log.known, log.log] at reached
  obtain ⟨commit, same, grows, bound⟩ := n.followCommit_spec leaderCommit lastNew
  rw [same] at act ⊢
  rw [log.whole.left.lastIndex] at bound
  refine course.learn act (by omega) fun g' recasts => ?_
  have further := recasts.grows course
  by_cases old : commit = n.commitIndex
  · rw [old]
    exact further.settled settled le_rfl
  · -- as far as the message goes, the log is the winner's
    obtain ⟨common, told⟩ := followed.agreed (course.began.mono further) (recasts.sound course).grounds
      (recasts.formed course) (course.hears.mono further (congrFun recasts.recast.owed i).ge)
    rw [take_eq (show commit ≤ agreed n.log.entries (g'.lead n.term) by omega)]
    exact told.shorten (List.take_prefix_take_left (by omega))

-- What a quorum holds up to an entry of the leader's own term is settled.
theorem Course.counted (course : Course setup i cause r n g) {candidate : Nat} (leads : n.role = .leader)
    (counted : (n.replicated.insertionSort (· ≥ ·))[n.quorum - 1]? = some candidate) (positive : candidate ≠ noIndex)
    (own : n.log.termAt candidate = some n.term) (self : candidate ≤ n.durableIndex → (n.term, candidate) ∈ g.acked i) :
    candidate ≤ n.log.entries.length ∧
      g.Settled Entry.term setup.members.toFinset n.term (n.log.entries.take candidate) := by
  have lead := course.lead leads
  have whole := course.log.whole
  have fixed := course.mid.seat.fixed.current
  have majority : n.quorum ≤ n.holders candidate := by
    have rank := (Descending.le_rank_iff counted).mp (le_refl candidate)
    rw [Node.countP_replicated, Raft.quorum] at rank
    rw [Raft.quorum]
    omega
  rw [whole.left.termAt, if_neg positive, whole.base, if_neg (Nat.not_lt_zero _)] at own
  obtain ⟨a, found, same⟩ := Option.map_eq_some_iff.mp own
  have inside := (List.getElem?_eq_some_iff.mp found).1
  rw [noIndex] at positive
  refine ⟨by omega, .inr ⟨n.term, le_rfl, candidate - 1, ⟨⟨a, ?_, same⟩,
    setup.members.toFinset.filter fun v => candidate ≤ n.replicatedTo v, ?_, ?_⟩, ?_⟩⟩
  · rw [lead]
    exact found
  · have size : (setup.members.toFinset.filter fun v => candidate ≤ n.replicatedTo v).card = n.holders candidate := by
      rw [Node.holders, fixed, List.countP_eq_length_filter, ← List.toFinset_card_of_nodup (setup.nodup.filter _),
        List.toFinset_filter]
      simp
    have all : setup.members.toFinset.card = setup.members.length := List.toFinset_card_of_nodup setup.nodup
    rw [Ballot.Majority, Finset.inter_eq_left.mpr (Finset.filter_subset _ _), size, all]
    rw [Raft.quorum, fixed] at majority
    omega
  · intro v member
    have reaches := (Finset.mem_filter.mp member).2
    rw [Node.replicatedTo, course.mid.seat.id] at reaches
    split at reaches
    · next here =>
      rw [here]
      exact ⟨candidate, by omega, self reaches⟩
    · next apart =>
      cases known : n.matchIndex v with
      | none =>
        rw [known, Option.getD_none, noIndex] at reaches
        omega
      | some k =>
        rw [known, Option.getD_some] at reaches
        rcases course.log.matched leads v apart k known with none | ⟨m, longer, acked⟩
        · rw [noIndex] at none
          omega
        · exact ⟨m, by omega, acked⟩
  · rw [lead, Nat.sub_add_cancel (by omega)]

-- The term of a leader is on its disk.
theorem Course.stored (course : Course setup i cause r n g) (leads : n.role = .leader) : n.term ≤ n.durableTerm := by
  have office : (g.ballot.seat i).post = .leader := by
    rw [course.mid.seat.post, leads]
    rfl
  obtain ⟨e, won, term, winner⟩ := course.sound.led_of_leader office
  have granted := course.sound.tenure.own e won
  rw [winner] at granted
  have stored := (course.sound.ballot.granted_le granted).1
  rw [term, course.now] at stored
  exact stored.trans course.hard.le

theorem Course.commit (course : Course setup i cause r n g) {candidate : Nat}
    (act : Act cause r n { n with commitIndex := candidate }) (leads : n.role = .leader)
    (counted : (n.replicated.insertionSort (· ≥ ·))[n.quorum - 1]? = some candidate)
    (newer : n.commitIndex < candidate) (own : n.log.termAt candidate = some n.term) :
    Proceeds setup i cause r { n with commitIndex := candidate } g := by
  have positive : candidate ≠ noIndex := by
    rw [noIndex]
    omega
  have finish : ∀ {g}, Course setup i cause r n g → (candidate ≤ n.durableIndex → (n.term, candidate) ∈ g.acked i) →
      Proceeds setup i cause r { n with commitIndex := candidate } g := by
    intro g course self
    obtain ⟨inside, settled⟩ := course.counted leads counted positive own self
    exact course.learn act inside fun g' recasts => (recasts.grows course).settled settled le_rfl
  by_cases holds : candidate ≤ n.durableIndex
  · -- a leader that counts itself has vouched for its own log
    have inside : candidate ≤ n.log.entries.length := by
      have whole := course.log.whole
      rw [whole.left.termAt, if_neg positive, whole.base, if_neg (Nat.not_lt_zero _)] at own
      obtain ⟨_, found, _⟩ := Option.map_eq_some_iff.mp own
      have within := (List.getElem?_eq_some_iff.mp found).1
      omega
    have common : candidate ≤ agreed n.log.entries (g.lead n.term) := by
      rw [course.lead leads, le_agreed_iff]
      exact ⟨inside, inside, rfl⟩
    obtain ⟨move, course', acked⟩ := course.acks (course.stored leads) holds (.inr ⟨rfl, common⟩)
    exact .prepend move rfl rfl rfl (finish course' fun _ => acked)
  · exact finish course fun reached => absurd reached holds

-- More of the log is known to be durable.
theorem Course.secure (course : Course setup i cause r n g) (act : Act cause r n m) {durableIndex : Nat}
    {parked : List (Nat × Nat)} (raft : m.toRaft = { n.toRaft with durableIndex, parked })
    (later : n.durableIndex ≤ durableIndex) (sent : m.sent = n.sent) : Proceeds setup i cause r m g := by
  obtain ⟨g', recasts⟩ := course.recasts act (.inl (by rw [raft]))
  have log := course.log
  have recast := recasts.recast
  have allowed : g'.Allowed Entry.term setup.members.toFinset (.secure i durableIndex) := by
    change g'.durable i ≤ durableIndex
    rwa [recast.durable, log.durable]
  have all := (recasts.grows course).trans ((recasts.sound course).grows allowed)
  refine course.proceeds recasts (.single allowed) (by simp [Move.actor]) rfl subset_rfl (recasts.formed course) ?_
    (fun p member => .inl (sent ▸ member)) (.refl g' _)
  rw [raft]
  exact {
    cfg := log.cfg
    uncompacted := log.uncompacted
    image := log.image
    whole := log.whole.mono all
    log := (congrFun recast.log i).trans log.log
    durable := Function.update_self ..
    known := (congrFun recast.known i).trans log.known
    uncut := log.uncut
    duties := fun d held => (log.duties d held).mono all (congrFun recast.owed i).ge
    matched := log.confirmed all id rfl rfl }

-- The answer of a peer confirms what it has vouched for.
theorem Course.noteMatch (course : Course setup i cause r n g) {src : NodeId} {index : Nat} {nextIndex : NodeMap}
    (act : Act cause r n { n with
      matchIndex := Function.update n.matchIndex src (some (max ((n.matchIndex src).getD noIndex) index)), nextIndex })
    (leads : n.role = .leader)
    (acked : (∃ conflictIndex, cause = .message src (.appendEntriesResp n.term true index conflictIndex)) ∨
      cause = .message src (.installSnapshotResp n.term index)) :
    Proceeds setup i cause r { n with
      matchIndex := Function.update n.matchIndex src (some (max ((n.matchIndex src).getD noIndex) index)), nextIndex } g := by
  have known : index = noIndex ∨ (n.term, index) ∈ g.acked src := by
    have told := course.hears
    rcases acked with ⟨_, done⟩ | done
    · rw [done] at told
      exact told rfl
    · rw [done] at told
      exact .inl told
  refine course.still act (.inl rfl) ⟨rfl, rfl, rfl, rfl, rfl, rfl⟩ (fun _ _ d held => .inl held) ?_ fun _ _ p member =>
    .inl member
  intro _ p apart k found
  dsimp only at found
  by_cases same : p = src
  · subst same
    rw [Function.update_self, Option.some.injEq] at found
    subst found
    rcases le_total index ((n.matchIndex p).getD noIndex) with older | newer
    · rw [max_eq_left older]
      cases before : n.matchIndex p with
      | none => exact .inl rfl
      | some j => exact course.log.matched leads p apart j before
    · rw [max_eq_right newer]
      exact known.imp_right fun acked => ⟨index, le_rfl, acked⟩
  · rw [Function.update_of_ne same] at found
    exact course.log.matched leads p apart k found

theorem Act.proceeds (act : Act cause r n m) (course : Course setup i cause r n g) : Proceeds setup i cause r m g := by
  have log := course.log
  have again := act
  cases act with
  | idle | yield | countVote | probeAck | read =>
    exact course.still again (.inl rfl) ⟨rfl, rfl, rfl, rfl, rfl, rfl⟩ (fun _ _ d held => .inl held)
      (log.confirmed (.refl g) (fun leads => by first | exact leads | cases leads) rfl rfl) fun _ _ p member => .inl member
  | send dst msg durable allowed => exact course.send durable allowed
  | deferred dst msg hard durable done =>
    refine course.speaks again fun g' recasts _ => ?_
    have owed := course.hears
    rw [done] at owed
    exact Tells.mono owed (recasts.grows course)
  | stepDown term newer =>
    exact course.still again (.inr fun _ => .stepDown n term newer) ⟨rfl, rfl, rfl, rfl, rfl, rfl⟩
      (fun _ _ d held => .inl held) (fun leads => Role.noConfusion leads) fun _ _ p member => .inl member
  | candidacy member =>
    have opens := Node.persistHard_opens n.stand course.mid.seat.ordered (.campaign (n.term + 1))
    have sent := n.stand.persistHard_sent (.campaign (n.term + 1))
    exact course.opens again (.inr fun _ => .candidacy n member) ⟨rfl, rfl, rfl, rfl, rfl, rfl⟩ opens
      (fun leads => Role.noConfusion leads) sent fun _ _ => trivial
  | vote src candidate requested free =>
    exact course.opens again (.inl rfl) ⟨rfl, rfl, rfl, rfl, rfl, rfl⟩
      (Node.persistHard_opens (n.castVote candidate) course.mid.seat.ordered _) log.matched
      ((n.castVote candidate).persistHard_sent _) fun _ _ => trivial
  | takeOffice =>
    refine course.still again (.inl rfl) ⟨rfl, rfl, rfl, rfl, rfl, rfl⟩ (fun _ _ d held => .inl held) ?_
      fun _ _ p member => .inl member
    intro _ p _ k found
    simp only [Node.takeOffice] at found
    split at found
    · exact .inl (Option.some.inj found).symm
    · cases found
  | persistQuiet => exact course.persistHard again fun _ _ => trivial
  | persistRefusal dst => exact course.persistHard again fun _ _ => trivial
  | persistFailure dst => exact course.persistHard again fun _ _ success => Bool.noConfusion success
  | persistCovered dst lastNew covered => exact absurd covered course.uncovered
  | persistAnswer src lastNew leaderCommit followed =>
    obtain ⟨common, _⟩ := followed.agreed course.began course.sound.grounds course.formed course.hears
    obtain ⟨move, course', owed⟩ := course.owes common
    refine .prepend move rfl rfl rfl (course'.persistHard again fun g' recasts => ?_)
    rw [Assures, recasts.recast.owed]
    exact owed
  | persistLog hard start truncated src lastNew leaderCommit followed =>
    obtain ⟨common, _⟩ := followed.agreed course.began course.sound.grounds course.formed course.hears
    obtain ⟨move, course', owed⟩ := course.owes common
    exact .prepend move rfl rfl rfl (course'.persistLog hard again rfl fun _ _ => owed)
  | persistOwn start => exact course.persistLog false again rfl (by intro dst asked; cases asked)
  | append cmd leads plain sound => exact course.append again leads sound
  | reconfigure asked =>
    have never := course.mid.cause
    rw [asked] at never
    exact never.elim
  | splice src leader prevIndex prevTerm entries leaderCommit p t es k conflict offered trims agrees found _ follows calm =>
    exact course.splice again offered trims agrees found follows calm
  | follow src lastNew leaderCommit followed => exact course.follow again followed
  | noteMatch src index nextIndex leads acked => exact course.noteMatch again leads acked
  | commit candidate leads counted newer own => exact course.commit again leads counted newer own
  | stepAside led removed =>
    refine absurd (course.mid.led led) fun inside => removed ?_
    rw [Raft.isMember, course.mid.seat.id, course.mid.seat.fixed.current]
    exact inside
  | claim start index =>
    obtain ⟨_, _, raft, later, _⟩ := n.claimRange_spec start index
    exact course.secure again raft later
      (congrArg (fun io : Io => ({ n with toIo := io } : Node).sent) (n.claimRange_toIo start index))
  | taken index term file hard done | landed index term data file replyTo replyTerm hard done
  | adopt index term data file replyTo replyTerm hard done =>
    have never := course.hears
    rw [done] at never
    exact never.elim
  | capture data term _ wanted =>
    have some_ := wanted.1
    rw [log.uncompacted] at some_
    exact absurd some_ (lt_irrefl 0)
  | receive src leader index indexTerm data offered =>
    have never := course.hears
    rw [offered] at never
    exact never.elim

-- What an event has added to the log stays until it is over.
theorem Course.keeps (course : Course setup i cause r n g) (act : Act cause r n m) :
    n.log = r.log ∨ n.log.entries ⊆ m.log.entries := by
  have becomes := act.becomes
  have hears := course.hears
  generalize m.toRaft = after at becomes ⊢
  cases becomes with
  | append e => exact .inr (List.subset_append_left _ _)
  | splice _ _ _ _ _ _ _ _ _ _ _ _ _ _ _ same => exact .inl same
  | taken index term file hard done | adopt index term data file replyTo replyTerm hard done =>
    rw [done] at hears
    exact hears.elim
  | _ => exact .inr (List.Subset.refl _)

end SimKv
