import SimKv.Convergence
import SimKv.Lib.Execution

set_option autoImplicit false

/-!
# Backing up to where the logs agree

A leader that does not know how far a follower has come starts anywhere. The follower rejects what it cannot place and
says where to try next.
-/

namespace SimKv

open Agreement Node

def Node.rested (n : Node) : Node :=
  { toRaft := n.toRaft, toIo := { now := n.now, nextOp := n.nextOp, nextTimer := n.nextTimer } }

structure BackUp where
  leader : Node
  follower : Node

namespace BackUp

variable (x : BackUp)

def begin (leader follower : Node) : BackUp where
  leader := leader.rested.sendAppendTo follower.id
  follower := follower

def pointer : Nat := (x.leader.nextIndex x.follower.id).getD 1

/-- The follower gets what the leader has sent and rejects it, and the leader hears of it. -/
def round : Option BackUp :=
  match x.leader.sent with
  | [(_, .appendEntries term leader prevIndex prevTerm entries leaderCommit)] =>
    let follower := x.follower.rested.onAppendEntries x.leader.id term leader prevIndex prevTerm entries leaderCommit
    match follower.sent with
    | [(_, .appendEntriesResp term false matchIndex conflictIndex)] =>
      some { leader := x.leader.rested.onAppendResp follower.id term false matchIndex conflictIndex, follower }
    | _ => none
  | _ => none

def Offers : Prop := ∃ term leader index indexTerm data,
  x.leader.sent = [(x.follower.id, .installSnapshot term leader index indexTerm data)]

def Appends (holds : Nat → Nat → Nat → List Entry → Node → Prop) : Prop :=
  ∃ term leader prevIndex prevTerm entries leaderCommit,
    x.leader.sent = [(x.follower.id, .appendEntries term leader prevIndex prevTerm entries leaderCommit)] ∧
      holds term prevIndex prevTerm entries
        (x.follower.rested.onAppendEntries x.leader.id term leader prevIndex prevTerm entries leaderCommit)

end BackUp

/-- Both nodes are in the leader's term, which is on their disks, and their logs match. -/
structure Ready (lead whole : List Entry) (n f : Node) : Prop where
  leads : n.role = .leader
  apart : f.id ≠ n.id
  left : n.log.LeftOf lead
  -- A leader that has compacted its log has the image.
  image : n.log.snapshotIndex ≠ 0 → n.snapshotData ≠ []
  term : f.term = n.term
  durable : n.term ≤ n.durableTerm
  follows : f.term ≤ f.durableTerm
  next : ∃ next, n.nextIndex f.id = some next ∧ 1 ≤ next ∧ next ≤ n.log.lastIndex + 1
  fits : Follower.Fits lead { node := f, whole }

/-- The one message a leader has for a follower. -/
inductive Sends (n : Node) (dst : NodeId) (next : Nat) : List (NodeId × RaftMsg) → Prop where
  | snapshot : Sends n dst next
      [(dst, .installSnapshot n.term n.id n.log.snapshotIndex n.log.snapshotTerm n.snapshotData)]
  | append (prevIndex prevTerm : Nat) (place : next = prevIndex + 1) (known : n.log.termAt prevIndex = some prevTerm) :
      Sends n dst next [(dst, .appendEntries n.term n.id prevIndex prevTerm
        (n.log.sliceFrom (prevIndex + 1) n.cfg.maxBatch) n.commitIndex)]

namespace Node

variable {n : Node} {dst : NodeId}

theorem sent_send {msg : RaftMsg} (durable : msg.term ≤ n.durableTerm) (other : dst ≠ n.id) :
    (n.send dst msg).sent = n.sent ++ [(dst, msg)] := by
  rw [send, if_neg (by omega), sent_ioSend, if_neg other]

theorem appendAll_sent (n : Node) (entries : List Entry) : (n.appendAll entries).sent = n.sent := by
  unfold appendAll
  induction entries generalizing n with
  | nil => rfl
  | cons e rest ih =>
    rw [List.foldl_cons, ih]
    unfold appendEntry
    split <;> rfl

theorem takeEntries_sent (n : Node) (p : Nat) (es : List Entry) (i : Nat) (conflict : Bool) :
    (n.takeEntries p es i conflict).sent = n.sent := by
  have cut : (if conflict then n.truncate (p + 1 + i) else n).sent = n.sent := by
    split
    · rw [sent, n.truncate_toIo]
      rfl
    · rfl
  simp only [takeEntries]
  rw [← cut]
  split
  · rw [sent, refreshConfig_toIo]
    exact appendAll_sent _ _
  · exact appendAll_sent _ _

end Node

theorem Ready.sends {lead whole : List Entry} {n f : Node} (ready : Ready lead whole n f) (quiet : n.sent = []) :
    ∃ next, n.nextIndex f.id = some next ∧ 1 ≤ next ∧ Sends n f.id next (n.sendAppendTo f.id).sent := by
  obtain ⟨next, pointer, lower, upper⟩ := ready.next
  refine ⟨next, pointer, lower, ?_⟩
  simp only [sendAppendTo, pointer, Option.getD_some, Nat.max_eq_left lower]
  split
  · rw [sent_send, quiet]
    · exact .snapshot
    · exact ready.durable
    · exact ready.apart
  · next above =>
    -- what is not above the snapshot is sent as an image
    have inside : n.log.snapshotIndex ≤ next - 1 := by
      by_contra below
      exact above ⟨by omega, ready.image (by omega)⟩
    rw [ready.left.lastIndex] at upper
    obtain ⟨prevTerm, known⟩ : ∃ prevTerm, n.log.termAt (next - 1) = some prevTerm := by
      rw [ready.left.termAt]
      split
      · exact ⟨0, rfl⟩
      · next positive =>
        rw [noIndex] at positive
        rw [if_neg (by omega), List.getElem?_eq_getElem (by omega)]
        exact ⟨_, rfl⟩
    rw [known]
    dsimp only
    rw [sent_send, quiet]
    · have message : n.log.sliceFrom next n.cfg.maxBatch = n.log.sliceFrom (next - 1 + 1) n.cfg.maxBatch := by
        rw [Nat.sub_add_cancel lower]
      rw [message]
      exact .append (next - 1) prevTerm (by omega) known
    · exact ready.durable
    · exact ready.apart

/-- A follower that is in the term of a message, and has been, answers a rejection at once. -/
inductive Answers (n : Node) (src : NodeId) (term prevIndex prevTerm : Nat) (entries : List Entry) (m : Node) : Prop where
  | rejected (above : n.log.snapshotIndex ≤ prevIndex) (differs : ¬ n.log.matchesAt prevIndex prevTerm)
      (sent : m.sent = [(src, .appendEntriesResp n.term false n.durableIndex (n.conflictHint prevIndex))])
      (spares : n.Spares m) (same : m.id = n.id ∧ m.term = n.term ∧ m.durableTerm = n.durableTerm)
  | accepted (accepts : n.Accepts term prevIndex prevTerm entries)
      (sent : ∀ answer ∈ m.sent, ∃ matchIndex, answer.2 = .appendEntriesResp n.term true matchIndex noIndex)

namespace Node

variable {n : Node} {src : NodeId} {prevIndex prevTerm leaderCommit : Nat} {entries : List Entry}

theorem sent_of_send (quiet : n.sent = []) {msg : RaftMsg} : ∀ answer ∈ (n.send src msg).sent, answer.2 = msg := by
  rintro ⟨dst, answer⟩ member
  rcases mem_sent_send member with old | new
  · rw [quiet] at old
    cases old
  · exact new

theorem acceptAppend_answers (quiet : n.sent = []) (p : Nat) (es : List Entry) (lastNew : Nat) :
    ∀ answer ∈ (n.acceptAppend src p es lastNew false).sent,
      ∃ matchIndex, answer.2 = .appendEntriesResp n.term true matchIndex noIndex := by
  unfold acceptAppend
  split
  · next i conflict _ =>
    dsimp only
    have taken := n.takeEntries_sent p es i conflict
    generalize n.takeEntries p es i conflict = m at taken ⊢
    obtain ⟨_, _, _, written, _⟩ := m.persistLogFrom_spec (p + 1 + i) conflict (some src) m.term lastNew
    rw [if_neg Bool.false_ne_true, written, taken, quiet]
    simp
  · intro answer member
    exact ⟨_, sent_of_send quiet answer member⟩

theorem appendInTerm_answers (quiet : n.sent = []) (durable : n.term ≤ n.durableTerm) (other : src ≠ n.id)
    (prevIndex prevTerm : Nat) (entries : List Entry) (leaderCommit : Nat) :
    Answers n src n.term prevIndex prevTerm entries
      (n.appendInTerm src prevIndex prevTerm entries leaderCommit false) := by
  simp only [appendInTerm, replyInTerm, Bool.false_eq_true, if_false]
  split
  · next covered =>
    refine .accepted ⟨le_rfl, .inl covered⟩ fun answer member => ?_
    exact ⟨_, sent_of_send quiet answer member⟩
  · next longer =>
    have accepted : ∀ {p t : Nat} {es : List Entry}, Trims n.log prevIndex prevTerm entries p t es →
        n.log.matchesAt p t → Answers n src n.term prevIndex prevTerm entries
          ((n.acceptAppend src p es (prevIndex + entries.length) false).followCommit leaderCommit
            (prevIndex + entries.length)) := by
      intro p t es trims agrees
      refine .accepted ⟨le_rfl, .inr ⟨p, t, es, trims, agrees⟩⟩ ?_
      obtain ⟨_, followed, _⟩ := (n.acceptAppend src p es (prevIndex + entries.length) false).followCommit_spec
        leaderCommit (prevIndex + entries.length)
      rw [followed]
      exact acceptAppend_answers quiet p es _
    by_cases below : prevIndex < n.log.snapshotIndex
    · simp only [below, decide_true, if_true]
      -- the boundary itself always matches
      have edge : n.log.matchesAt n.log.snapshotIndex n.log.snapshotTerm := by
        rw [RaftLog.matchesAt, RaftLog.termAt, if_neg (by rw [noIndex]; omega), if_pos rfl]
      rw [if_neg (not_not.mpr edge)]
      exact accepted (.skip below (by omega)) edge
    · simp only [below, decide_false, Bool.false_eq_true, if_false]
      split
      · next differs =>
        refine .rejected (by omega) differs ?_ (n.send_spares src _) ?_
        · rw [sent_send, quiet]
          · rfl
          · exact durable
          · exact other
        · rw [n.send_toRaft]
          exact ⟨rfl, rfl, rfl⟩
      · next agrees => exact accepted (.whole (by omega)) (not_not.mp agrees)

theorem onAppendEntries_answers (quiet : n.sent = []) (durable : n.term ≤ n.durableTerm) (other : src ≠ n.id)
    (leader : NodeId) (prevIndex prevTerm : Nat) (entries : List Entry) (leaderCommit : Nat) :
    Answers n src n.term prevIndex prevTerm entries
      (n.onAppendEntries src n.term leader prevIndex prevTerm entries leaderCommit) := by
  obtain ⟨m, heard, log, term, durableTerm, id, sent, durableIndex, spares⟩ :
      ∃ m : Node, n.concede.heardFrom leader = m ∧ m.log = n.log ∧ m.term = n.term ∧
        m.durableTerm = n.durableTerm ∧ m.id = n.id ∧ m.sent = n.sent ∧ m.durableIndex = n.durableIndex ∧ n.Spares m := by
    refine ⟨_, rfl, ?_⟩
    unfold concede
    split <;> exact ⟨rfl, rfl, rfl, rfl, rfl, rfl, rfl, rfl, rfl⟩
  have answers := @appendInTerm_answers m src (sent.trans quiet) (by omega) (id ▸ other) prevIndex prevTerm entries
    leaderCommit
  simp only [onAppendEntries, lt_irrefl, if_false, decide_false, heard]
  generalize m.appendInTerm src prevIndex prevTerm entries leaderCommit false = last at answers ⊢
  cases answers with
  | rejected above differs answer kept same =>
    have hint : m.conflictHint prevIndex = n.conflictHint prevIndex := by simp only [Raft.conflictHint, log]
    rw [log] at above differs
    rw [term, durableIndex, hint] at answer
    exact .rejected above differs answer (spares.trans kept) ⟨same.1.trans id, same.2.1.trans term, same.2.2.trans durableTerm⟩
  | accepted accepts answer =>
    rw [Accepts, log] at accepts
    rw [term] at answer accepts
    exact .accepted accepts answer

end Node

theorem Node.onAppendResp_rejected {n : Node} (leads : n.role = .leader) (src : NodeId) (matchIndex conflictIndex : Nat) :
    n.onAppendResp src n.term false matchIndex conflictIndex =
      { n with
        nextIndex := Function.update n.nextIndex src
          (some (max (min (max conflictIndex 1) ((n.nextIndex src).getD 1 - 1)) 1)) }.sendAppendTo src := by
  simp [onAppendResp, leads]

theorem Follower.Fits.same {lead whole : List Entry} {n m : Node} (fits : Follower.Fits lead { node := n, whole })
    (log : m.log = n.log) (commit : m.commitIndex = n.commitIndex) : Follower.Fits lead { node := m, whole } where
  left := log.symm ▸ fits.left
  matching := fits.matching
  committed := commit.trans_le fits.committed
  compacted := by
    change m.log.snapshotIndex ≤ m.commitIndex
    rw [log, commit]
    exact fits.compacted

namespace BackUp

variable {lead whole : List Entry} {x y : BackUp}

def Backing (lead whole : List Entry) (x : BackUp) : Prop :=
  ∃ n : Node, n.sent = [] ∧ x.leader = n.sendAppendTo x.follower.id ∧ Ready lead whole n x.follower

def Accepted (x : BackUp) : Prop :=
  x.Appends fun term prevIndex prevTerm entries m =>
    x.follower.Accepts term prevIndex prevTerm entries ∧ m.panicked = false

inductive Turn (lead whole : List Entry) (x : BackUp) : Option BackUp → Prop where
  | offers (offers : x.Offers) : Turn lead whole x none
  | accepted (accepted : x.Accepted) : Turn lead whole x none
  | rejected (y : BackUp) (appends : x.Appends fun _ _ _ _ _ => True) (backing : Backing lead whole y)
      (fewer : y.pointer < x.pointer) : Turn lead whole x (some y)

theorem Backing.pointer (backing : Backing lead whole x) : 1 ≤ x.pointer := by
  obtain ⟨n, _, leader, ready⟩ := backing
  obtain ⟨next, pointer, lower, _⟩ := ready.next
  rw [BackUp.pointer, leader, n.sendAppendTo_toRaft, pointer]
  exact lower

theorem Backing.turn (backing : Backing lead whole x) : Turn lead whole x x.round := by
  obtain ⟨n, quiet, leader, ready⟩ := backing
  obtain ⟨next, pointer, lower, sends⟩ := ready.sends quiet
  have raft : x.leader.toRaft = n.toRaft := leader ▸ n.sendAppendTo_toRaft x.follower.id
  have here : x.pointer = next := by rw [BackUp.pointer, raft, pointer, Option.getD_some]
  rw [← leader] at sends
  generalize sent : x.leader.sent = messages at sends
  cases sends with
  | snapshot =>
    simp only [round, sent]
    exact .offers ⟨_, _, _, _, _, sent⟩
  | append prevIndex prevTerm place known =>
    generalize n.log.sliceFrom (prevIndex + 1) n.cfg.maxBatch = entries at sent
    have id : x.leader.id = n.id := congrArg Raft.id raft
    have term : x.follower.rested.term = n.term := ready.term
    have answers := @onAppendEntries_answers x.follower.rested x.leader.id rfl ready.follows
      (id.trans_ne ready.apart.symm) n.id prevIndex prevTerm entries n.commitIndex
    rw [term] at answers
    simp only [round, sent]
    generalize heard : x.follower.rested.onAppendEntries x.leader.id n.term n.id prevIndex prevTerm entries
      n.commitIndex = m at answers ⊢
    cases answers with
    | accepted accepts answer =>
      have done : x.Accepted := by
        refine ⟨_, _, _, _, _, _, sent, accepts, ?_⟩
        have version : n.log.VersionOf lead := ⟨lead.length, by rw [List.take_length]; exact ready.left⟩
        have produced : Produced n.term lead x.follower.id
            (.appendEntries n.term n.id prevIndex prevTerm entries n.commitIndex) :=
          ⟨n, rfl, version, quiet, by rw [← leader, sent]; exact List.mem_singleton_self _⟩
        have fits : Follower.Fits lead { node := x.follower.rested, whole } := ready.fits.same rfl rfl
        have calm := (fits.deliver x.leader.id produced).2.2.2
        dsimp only at calm
        rw [heard] at calm ⊢
        exact calm
      split
      · next _ _ _ _ _ told =>
        obtain ⟨_, same⟩ := answer _ (by rw [told]; exact List.mem_singleton_self _)
        cases same
      · exact .accepted done
    | rejected above differs answer spares same =>
      rw [answer, term]
      dsimp only
      -- nothing follows index 0 but what every log has
      have positive : prevIndex ≠ 0 := by
        rintro rfl
        cases known
        exact differs rfl
      have leads : x.leader.rested.role = .leader := by
        change x.leader.role = .leader
        rw [raft]
        exact ready.leads
      have own : x.leader.rested.term = n.term := congrArg Raft.term raft
      have cur : (x.leader.rested.nextIndex m.id).getD 1 = next := by
        change (x.leader.nextIndex m.id).getD 1 = next
        rw [raft, same.1]
        exact congrArg (fun o => o.getD 1) pointer
      have backed := onAppendResp_rejected leads m.id x.follower.rested.durableIndex
        (x.follower.rested.conflictHint prevIndex)
      rw [own, cur] at backed
      rw [backed]
      generalize hint : max (min (max (x.follower.rested.conflictHint prevIndex) 1) (next - 1)) 1 = lowered
      obtain ⟨least, below⟩ : 1 ≤ lowered ∧ lowered < next := by omega
      refine .rejected _ ⟨_, _, _, _, _, _, sent, trivial⟩ ⟨_, ?_, rfl, ?_⟩ ?_
      · rfl
      · have upper : next ≤ n.log.lastIndex + 1 := by
          obtain ⟨_, pointer', _, upper⟩ := ready.next
          rw [pointer] at pointer'
          cases pointer'
          exact upper
        constructor
        case leads => exact leads
        case apart => exact same.1.trans_ne (ready.apart.trans_eq id.symm)
        case left => exact raft.symm ▸ ready.left
        case image => exact raft.symm ▸ ready.image
        case term => exact same.2.1.trans term
        case durable => exact raft.symm ▸ ready.durable
        case follows => exact same.2.1.trans_le (ready.follows.trans_eq same.2.2.symm)
        case next =>
          refine ⟨lowered, Function.update_self .., least, ?_⟩
          change lowered ≤ x.leader.log.lastIndex + 1
          rw [raft]
          omega
        case fits => exact ready.fits.same spares.log spares.commit
      · rw [here, BackUp.pointer, sendAppendTo_toRaft]
        change (Function.update x.leader.rested.nextIndex m.id (some lowered) m.id).getD 1 < next
        rw [Function.update_self]
        exact below

theorem backing_begin {n f : Node} (ready : Ready lead whole n f) : Backing lead whole (begin n f) :=
  ⟨n.rested, rfl, rfl, ready.leads, ready.apart, ready.left, ready.image, ready.term, ready.durable, ready.follows,
    ready.next, ready.fits⟩

theorem Backing.round (backing : Backing lead whole x) (next : x.round = some y) :
    Backing lead whole y ∧ y.pointer < x.pointer := by
  have turn := backing.turn
  rw [next] at turn
  cases turn with
  | rejected _ _ backing fewer => exact ⟨backing, fewer⟩

/-- The leader always has something to send, a rejection takes it back but never below index 1, and in the end the
follower accepts or is sent the snapshot. -/
theorem converges {n f : Node} (ready : Ready lead whole n f) :
    (∀ k y, Execution.repeated round k (begin n f) = some y →
      (y.Offers ∨ y.Appends fun _ _ _ _ _ => True) ∧ 1 ≤ y.pointer ∧
        ∀ z, y.round = some z → z.pointer < y.pointer ∧ 1 ≤ z.pointer) ∧
      ∃ k ≤ (begin n f).pointer, ∃ y, Execution.repeated round k (begin n f) = some y ∧ y.round = none ∧
        (y.Offers ∨ y.Accepted) := by
  have keeps : ∀ s t, Backing lead whole s → s.round = some t → Backing lead whole t :=
    fun s t backing next => (backing.round next).1
  constructor
  · intro k y reached
    have backing := Execution.repeated_invariant keeps (backing_begin ready) reached
    refine ⟨?_, backing.pointer, fun z next => ?_⟩
    · have turn := backing.turn
      generalize y.round = result at turn
      cases turn with
      | offers offers => exact .inl offers
      | accepted accepted =>
        obtain ⟨_, _, _, _, _, _, sent, _⟩ := accepted
        exact .inr ⟨_, _, _, _, _, _, sent, trivial⟩
      | rejected _ appends => exact .inr appends
    · obtain ⟨backing, fewer⟩ := backing.round next
      exact ⟨fewer, backing.pointer⟩
  · obtain ⟨k, few, y, reached, last⟩ := @Execution.exists_last _ round (Backing lead whole) pointer (begin n f) keeps
      (fun s t backing next => (backing.round next).2) (backing_begin ready)
    refine ⟨k, few, y, reached, last, ?_⟩
    have turn := (Execution.repeated_invariant keeps (backing_begin ready) reached).turn
    rw [last] at turn
    cases turn with
    | offers offers => exact .inl offers
    | accepted accepted => exact .inr accepted

def hopeful : Node := { Follower.holding 0 Follower.newLead with role := .leader, nextIndex := fun _ => some 3 }

theorem hopeful_ready : Ready Follower.newLead Follower.oldTail hopeful Follower.behind.node where
  leads := rfl
  apart := by decide
  left := RaftLog.leftOf_fromSnapshot Follower.newLead_formed
  image := fun compacted => absurd rfl compacted
  term := rfl
  durable := le_rfl
  follows := le_rfl
  next := ⟨3, rfl, by decide, by decide⟩
  fits := Follower.behind_fits

theorem hopeful_converges : ∃ k ≤ 3, ∃ y, Execution.repeated round k (begin hopeful Follower.behind.node) = some y ∧
    y.round = none ∧ (y.Offers ∨ y.Accepted) := by
  have start : (begin hopeful Follower.behind.node).pointer = 3 := by
    rw [BackUp.pointer, begin, sendAppendTo_toRaft]
    rfl
  rw [← start]
  exact (converges hopeful_ready).2

end BackUp

end SimKv
