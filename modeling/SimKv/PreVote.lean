import SimKv.Raft.Apart
import SimKv.Vote

set_option autoImplicit false

/-!
# Nobody inflates its own term

With pre-votes a node that nobody would vote for stays in its term, whatever its timers do. The run of one node is
kept together with the last round of pre-votes it has started.
-/

namespace SimKv

namespace RaftMsg

def asksIn : RaftMsg → Option Nat
  | .preVote term .. => some term
  | _ => none

def answers : RaftMsg → Option Nat
  | .preVoteResp _ round _ => some round
  | _ => none

theorem plain_of_not_polls {msg : RaftMsg} (plain : ¬ msg.Polls) : msg.asksIn = none ∧ msg.answers = none := by
  cases msg with
  | preVote | preVoteResp => exact absurd trivial plain
  | _ => exact ⟨rfl, rfl⟩

end RaftMsg

def AskedIn (said : List Moment) (dst : NodeId) (term : Nat) : Prop :=
  ∃ moment ∈ said, moment.dst = dst ∧ moment.msg.asksIn = some term

instance (said : List Moment) (dst : NodeId) (term : Nat) : Decidable (AskedIn said dst term) :=
  inferInstanceAs (Decidable (∃ moment ∈ said, _ ∧ _))

def Granted (heard : List (NodeId × RaftMsg)) (said : List Moment) (term : Nat) (v : NodeId) : Prop :=
  (∃ own, (v, .preVoteResp own term true) ∈ heard) ∧
    ∃ moment ∈ said, moment.dst = v ∧ moment.msg.asksIn = some term ∧ moment.raft.term = term

theorem Granted.mono {heard more : List (NodeId × RaftMsg)} {said longer : List Moment} {term : Nat} {v : NodeId}
    (granted : Granted heard said term v) (hears : heard ⊆ more) (says_ : said ⊆ longer) :
    Granted more longer term v := by
  obtain ⟨⟨own, told⟩, moment, member, rest⟩ := granted
  exact ⟨⟨own, hears told⟩, moment, says_ member, rest⟩

namespace Node

theorem sendAll_moments (n : Node) (dsts : List NodeId) (msg : RaftMsg) : ∃ more,
    (n.sendAll dsts msg).moments = n.moments ++ more ∧
      ∀ moment ∈ more, moment.raft = n.toRaft ∧ moment.msg = msg ∧ msg.term ≤ n.durableTerm := by
  unfold sendAll
  induction dsts generalizing n with
  | nil => exact ⟨[], (List.append_nil _).symm, by simp⟩
  | cons dst rest ih =>
    obtain ⟨more, same, each⟩ := ih (n.send dst msg)
    have raft : (n.send dst msg).toRaft = n.toRaft := send_toRaft ..
    rw [raft] at each
    have first : ∃ head, (n.send dst msg).moments = n.moments ++ head ∧
        ∀ moment ∈ head, moment.raft = n.toRaft ∧ moment.msg = msg ∧ msg.term ≤ n.durableTerm := by
      rw [send]
      split
      · exact ⟨[], (List.append_nil _).symm, by simp⟩
      · next held =>
        rw [ioSend]
        split
        · exact ⟨[], (List.append_nil _).symm, by simp⟩
        · exact ⟨_, rfl, by simpa using held⟩
    obtain ⟨head, here, first⟩ := first
    refine ⟨head ++ more, ?_, fun moment member => ?_⟩
    · rw [List.foldl_cons, same, here, List.append_assoc]
    · obtain old | new := List.mem_append.mp member
      · exact first moment old
      · exact each moment new

structure SameSelf (n m : Node) : Prop where
  id : m.id = n.id
  cfg : m.cfg = n.cfg
  durable : m.durableTerm = n.durableTerm

theorem startPreVote_spec (n : Node) : n.SameSelf n.startPreVote ∧
    (n.startPreVote.term = n.term + 1 ∧ n.startPreVote.preVotes = none ∧ n.startPreVote.moments = n.moments ∧
        n.quorum ≤ (({n.id} : Finset NodeId).filter fun v => v ∈ n.members).card ∨
      n.startPreVote.term = n.term ∧ n.startPreVote.preVotes = some {n.id} ∧
        ∃ more, n.startPreVote.moments = n.moments ++ more ∧ ∀ moment ∈ more, moment.raft.term = n.term ∧
          moment.msg.asksIn = some n.term ∧ moment.msg.answers = none ∧ n.term ≤ n.durableTerm) := by
  have raft : ∀ k : Node, k.SameSelf n → k.term = n.term → k.preVotes = some {n.id} → k.moments = n.moments →
      n.SameSelf (k.sendAll k.peers (.preVote k.term k.id k.log.lastIndex k.log.lastTerm)) ∧
      (k.sendAll k.peers (.preVote k.term k.id k.log.lastIndex k.log.lastTerm)).term = n.term ∧
      (k.sendAll k.peers (.preVote k.term k.id k.log.lastIndex k.log.lastTerm)).preVotes = some {n.id} ∧
      ∃ more, (k.sendAll k.peers (.preVote k.term k.id k.log.lastIndex k.log.lastTerm)).moments = n.moments ++ more ∧
        ∀ moment ∈ more, moment.raft.term = n.term ∧ moment.msg.asksIn = some n.term ∧ moment.msg.answers = none ∧
          n.term ≤ n.durableTerm := by
    intro k self term preVotes moments
    have same := k.sendAll_toRaft k.peers (.preVote k.term k.id k.log.lastIndex k.log.lastTerm)
    obtain ⟨more, said, each⟩ := k.sendAll_moments k.peers (.preVote k.term k.id k.log.lastIndex k.log.lastTerm)
    refine ⟨⟨?_, ?_, ?_⟩, ?_, ?_, more, moments ▸ said, fun moment member => ?_⟩
    · exact (congrArg Raft.id same).trans self.id.symm
    · exact (congrArg Raft.cfg same).trans self.cfg.symm
    · exact (congrArg Raft.durableTerm same).trans self.durable.symm
    · exact (congrArg Raft.term same).trans term
    · exact (congrArg Raft.preVotes same).trans preVotes
    · obtain ⟨here, msg, durable⟩ := each moment member
      rw [here, msg]
      refine ⟨term, congrArg some term, rfl, ?_⟩
      rw [← term, self.durable]
      exact durable
  rw [startPreVote]
  split
  · next won => exact ⟨⟨rfl, rfl, rfl⟩, .inl ⟨rfl, rfl, rfl, won⟩⟩
  · obtain ⟨self, rest⟩ := raft ({ n with
        role := .follower
        leader := none
        votes := ∅
        preVotes := some {n.id} } : Node).resetElectionTimer ⟨rfl, rfl, rfl⟩ rfl rfl rfl
    exact ⟨self, .inr rest⟩

-- Counting an answer: either the node learns of a newer term, or the answer is passed over, or it counts.
theorem onPreVoteResp_spec (n : Node) (src : NodeId) (term round : Nat) (granted : Bool) :
    n.SameSelf (n.onPreVoteResp src term round granted) ∧
      (n.onPreVoteResp src term round granted).moments = n.moments ∧
      (n.term < term ∧ (n.onPreVoteResp src term round granted).term = term ∧
          (n.onPreVoteResp src term round granted).preVotes = none ∨
        (n.onPreVoteResp src term round granted).term = n.term ∧
          ((n.onPreVoteResp src term round granted).preVotes = n.preVotes ∨
            (n.onPreVoteResp src term round granted).preVotes = none) ∨
        round = n.term ∧ granted = true ∧ ∃ votes, n.preVotes = some votes ∧
          ((n.onPreVoteResp src term round granted).term = n.term ∧
              (n.onPreVoteResp src term round granted).preVotes = some (insert src votes) ∨
            (n.onPreVoteResp src term round granted).term = n.term + 1 ∧
              (n.onPreVoteResp src term round granted).preVotes = none ∧
              n.quorum ≤ ((insert src votes).filter fun v => v ∈ n.members).card)) := by
  simp only [onPreVoteResp]
  split
  · next newer => exact ⟨⟨rfl, rfl, rfl⟩, rfl, .inl ⟨newer, rfl, rfl⟩⟩
  · split
    · split
      · exact ⟨⟨rfl, rfl, rfl⟩, rfl, .inr (.inl ⟨rfl, .inr rfl⟩)⟩
      · exact ⟨⟨rfl, rfl, rfl⟩, rfl, .inr (.inl ⟨rfl, .inl rfl⟩)⟩
    · next current =>
      have inRound : round = n.term := not_not.mp (not_or.mp current).1
      split
      · exact ⟨⟨rfl, rfl, rfl⟩, rfl, .inr (.inl ⟨rfl, .inl rfl⟩)⟩
      · next votes running =>
        split
        · next yes =>
          split
          · next won => exact ⟨⟨rfl, rfl, rfl⟩, rfl, .inr (.inr ⟨inRound, yes, votes, running, .inr ⟨rfl, rfl, won⟩⟩)⟩
          · exact ⟨⟨rfl, rfl, rfl⟩, rfl, .inr (.inr ⟨inRound, yes, votes, running, .inl ⟨rfl, rfl⟩⟩)⟩
        · exact ⟨⟨rfl, rfl, rfl⟩, rfl, .inr (.inl ⟨rfl, .inl rfl⟩)⟩

-- A question changes nothing where it arrives; the answer names the round it is for.
theorem onPreVote_spec (n : Node) (src : NodeId) (term lastIndex lastTerm : Nat) :
    (n.onPreVote src term lastIndex lastTerm).toRaft = n.toRaft ∧
      ∃ more, (n.onPreVote src term lastIndex lastTerm).moments = n.moments ++ more ∧
        ∀ moment ∈ more, moment.dst = src ∧ moment.msg.answers = some term ∧ moment.msg.asksIn = none := by
  refine ⟨send_toRaft .., ?_⟩
  simp only [onPreVote, send]
  split
  · exact ⟨[], (List.append_nil _).symm, by simp⟩
  · rw [ioSend]
    split
    · exact ⟨[], (List.append_nil _).symm, by simp⟩
    · exact ⟨_, rfl, by simp [RaftMsg.answers, RaftMsg.asksIn]⟩

end Node

/-- A node, and the last round of pre-votes it has started: in which term, and how much it had heard by then. -/
structure Canvass extends Solo where
  round : Option (Nat × Nat) := none

def Solo.startsRound (s : Solo) : SoloEvent → Bool
  | .input now (.timer .election) => decide (s.wake now).StartsRound
  | _ => false

namespace Canvass

variable (who : Identity) (c : Canvass)

def init : Canvass where
  toSolo := Solo.init who

def step (event : SoloEvent) : Option Canvass :=
  (c.toSolo.step who event).map fun s =>
    { toSolo := s
      round := if c.startsRound event then some (c.raft.term, c.heard.length) else c.round }

/-- Other servers run the same code: an answer is for a round in which its sender was asked. -/
def Truthful : SoloEvent → Prop
  | .input _ (.deliver p) => ∀ round ∈ p.msg.answers, AskedIn c.said p.src round
  | _ => True

def Allowed (event : SoloEvent) : Prop := c.RestoresHard event ∧ c.Truthful event

abbrev Reachable (c : Canvass) : Prop := Execution.Run (step who) Allowed (init who) c

structure Counted (who : Identity) (c : Canvass) : Prop where
  accounted : c.toSolo.Accounted
  cfg : c.raft.cfg = who.cfg
  asked : ∀ moment ∈ c.said, ∀ term, moment.msg.asksIn = some term → moment.raft.term = term ∧
    term ≤ c.raft.durableTerm ∧ ∃ last since, c.round = some (last, since) ∧ term ≤ last
  answered : ∀ moment ∈ c.said, ∀ round, moment.msg.answers = some round →
    ∃ msg, (moment.dst, msg) ∈ c.heard ∧ msg.asksIn = some round
  votes : ∀ votes, c.raft.preVotes = some votes → ∃ last since, c.round = some (last, since) ∧
    last ≤ c.raft.term ∧ since ≤ c.heard.length ∧
    ∀ v ∈ votes, v = c.raft.id ∨ Granted (c.heard.drop since) c.said last v

/-- A quorum of the members, the node itself among them if it is one, was for it in the last round, which began
in the term it has left. -/
def Warranted (c' : Canvass) : Prop :=
  c'.raft.term = c.raft.term + 1 ∧ ∃ since, c'.round = some (c.raft.term, since) ∧
    ∃ voters : Finset NodeId, c.raft.quorum ≤ voters.card ∧ (∀ v ∈ voters, v ∈ c.raft.members) ∧
      ∀ v ∈ voters, v = c.raft.id ∨ Granted (c'.heard.drop since) c'.said c.raft.term v

variable {who c}

-- The durable term is behind the term, and a restart ends up in between.
theorem accounted_terms {s : Solo} (accounted : s.Accounted) :
    s.raft.durableTerm ≤ s.raft.term ∧ ∀ now wal a b, s.RestoresHard (.restart now wal a b) →
      s.raft.durableTerm ≤ (recoverHardState wal).term ∧ (recoverHardState wal).term ≤ s.raft.term := by
  obtain ⟨v, polled⟩ := accounted
  have sound := polled.polled.sound
  have live : ∀ h ∈ v.writes, h.term ≤ s.raft.term := by
    intro h member
    have before := (sound.live h member).term_le
    rw [polled.polled.now] at before
    exact before
  have durable : v.hard.term = s.raft.durableTerm := by
    rw [polled.polled.hard, polled.polled.durableTerm]
    rfl
  refine ⟨durable ▸ live _ sound.held, ?_⟩
  rintro now wal a b ⟨written, newer⟩
  have member := polled.writes _ written
  refine ⟨?_, live _ member⟩
  rw [← durable]
  refine (sound.ordered _ sound.held _ member ?_).term_le
  rw [polled.polled.hard]
  exact newer

-- No batch holds back a question or an answer.
theorem accounted_replies {s : Solo} (accounted : s.Accounted) {op : OpId} {ok : Bool} {dst : NodeId} {msg : RaftMsg}
    {hard : Option HardState} (done : (s.raft.persister.onComplete op ok).1 = .done (.reply dst msg) hard) :
    ¬ msg.Polls := by
  obtain ⟨v, polled⟩ := accounted
  obtain ⟨_, _, ended⟩ := s.raft.persister.onComplete_spec op ok
  obtain ⟨d, duty, action, _⟩ := ended _ _ done
  have promised := (polled.polled.duties d duty).2
  rw [action] at promised
  obtain ⟨term, success, matchIndex, conflictIndex, rfl⟩ := promised
  exact id

-- Every input but the three that concern a round leaves the rounds alone.
theorem handle_apart {s : Solo} (accounted : s.Accounted) (asks : s.raft.cfg.preVote = true) (now : Nat) {input : Input}
    (plain : ∀ p, input = .deliver p → ¬ p.msg.Polls)
    (idle : input = .timer .election → ¬ (s.wake now).StartsRound) :
    ∃ t, Node.Apart t (s.wake now) (s.handle now input).1 ∧ (0 < t → ∃ p, input = .deliver p ∧ p.msg.term = t) := by
  cases input with
  | deliver p => exact ⟨p.msg.term, Node.onMessage_apart _ p.src (plain p rfl), fun _ => ⟨p, rfl, rfl⟩⟩
  | timer tag => exact ⟨0, Node.onTimer_apart _ tag asks fun same => idle (congrArg Input.timer same), by simp⟩
  | storage op ok => exact ⟨0, Node.onStorage_apart _ op ok fun dst msg hard done => accounted_replies accounted done, by simp⟩
  | propose cmd => exact ⟨0, Node.propose_apart _ cmd, by simp⟩
  | reconfigure members => exact ⟨0, Node.proposeMembership_apart _ members, by simp⟩
  | read => exact ⟨0, Node.requestRead_apart _ _, by simp⟩
  | drain blob =>
    obtain ⟨reads, events, same⟩ := (s.wake now).drain_spec blob
    refine ⟨0, ?_, by simp⟩
    change Node.Apart 0 (s.wake now) ((s.wake now).drain blob).node
    rw [same]
    refine .trans ?_ (Node.takeSnapshot_apart _ blob)
    exact .still rfl rfl rfl rfl rfl rfl

structure Steps (who : Identity) (c : Canvass) (event : SoloEvent) (c' : Canvass) : Prop where
  counted : Counted who c'
  grown : c.raft.term < c'.raft.term →
    (∃ now p, event = .input now (.deliver p) ∧ p.msg.term = c'.raft.term) ∨ c.Warranted c'

theorem Counted.restart (counted : Counted who c) (now : Nat) (wal a b : Bytes)
    (allowed : c.Allowed (.restart now wal a b)) {c' : Canvass} (next : c.step who (.restart now wal a b) = some c') :
    Steps who c (.restart now wal a b) c' := by
  obtain ⟨s, moved, rfl⟩ := Option.map_eq_some_iff.mp next
  obtain ⟨v, polled⟩ := counted.accounted
  have after : s.Accounted := polled.step allowed.1 moved
  obtain ⟨durable, live⟩ := (accounted_terms counted.accounted).2 now wal a b allowed.1
  cases moved
  obtain ⟨_, _, _, _, _, raft, _⟩ := Raft.recover_toRaft wal a b who.id who.members who.cfg
    { now, nextOp := c.nextOp, nextTimer := c.nextTimer }
  have term : (c.toSolo.reboot who now wal a b).raft.term = (recoverHardState wal).term := congrArg Raft.term raft
  have durableTerm : (c.toSolo.reboot who now wal a b).raft.durableTerm = (recoverHardState wal).term :=
    congrArg Raft.durableTerm raft
  refine ⟨⟨after, congrArg Raft.cfg raft, ?_, counted.answered, ?_⟩, fun grows => ?_⟩
  · intro moment member term' asks
    obtain ⟨here, below, round⟩ := counted.asked moment member term' asks
    exact ⟨here, below.trans (durableTerm ▸ durable), round⟩
  · intro votes some
    have none : (c.toSolo.reboot who now wal a b).raft.preVotes = none := congrArg Raft.preVotes raft
    rw [none] at some
    cases some
  · change c.raft.term < (c.toSolo.reboot who now wal a b).raft.term at grows
    rw [term] at grows
    omega

def hears (c : Canvass) : Input → List (NodeId × RaftMsg)
  | .deliver p => c.heard ++ [(p.src, p.msg)]
  | _ => c.heard

theorem heard_settle (input : Input) (m : Node) : (c.settle input m).heard = c.hears input := by
  cases input <;> rfl

theorem hears_subset (input : Input) : c.heard ⊆ c.hears input := by
  cases input with
  | deliver p => exact List.subset_append_left _ _
  | _ => exact List.Subset.refl _

-- What was heard since then is heard since then when more has come.
theorem drop_hears_subset (input : Input) {since : Nat} (within : since ≤ c.heard.length) :
    c.heard.drop since ⊆ (c.hears input).drop since := by
  cases input with
  | deliver p =>
    simp only [hears]
    rw [List.drop_append_of_le_length within]
    exact List.subset_append_left _ _
  | _ => exact List.Subset.refl _

theorem length_hears (input : Input) : c.heard.length ≤ (c.hears input).length := by
  cases input with
  | deliver p => simp [hears]
  | _ => exact le_rfl

-- Grants that were counted are counted still after an input.
theorem Granted.kept {input : Input} {m : Node} {last since : Nat} {v : NodeId}
    (granted : Granted (c.heard.drop since) c.said last v) (within : since ≤ c.heard.length) :
    Granted ((c.hears input).drop since) (c.said ++ m.moments) last v :=
  granted.mono (drop_hears_subset input within) (List.subset_append_left _ _)

-- The invariant after an input, from what the input has said and counted.
theorem Counted.settle (counted : Counted who c) {input : Input} {m : Node} {round : Option (Nat × Nat)}
    (after : (c.toSolo.settle input m).Accounted) (cfg : m.cfg = c.raft.cfg)
    (durable : c.raft.durableTerm ≤ m.durableTerm)
    (later : ∀ term ≤ c.raft.durableTerm, (∃ last since, c.round = some (last, since) ∧ term ≤ last) →
      ∃ last since, round = some (last, since) ∧ term ≤ last)
    (asked : ∀ moment ∈ m.moments, ∀ term, moment.msg.asksIn = some term → moment.raft.term = term ∧
      term ≤ m.durableTerm ∧ ∃ last since, round = some (last, since) ∧ term ≤ last)
    (answered : ∀ moment ∈ m.moments, ∀ round, moment.msg.answers = some round →
      ∃ msg, (moment.dst, msg) ∈ c.hears input ∧ msg.asksIn = some round)
    (votes : ∀ votes, m.preVotes = some votes → ∃ last since, round = some (last, since) ∧ last ≤ m.term ∧
      since ≤ (c.hears input).length ∧
      ∀ v ∈ votes, v = m.id ∨ Granted ((c.hears input).drop since) (c.said ++ m.moments) last v) :
    Counted who { toSolo := c.toSolo.settle input m, round } where
  accounted := after
  cfg := cfg.trans counted.cfg
  asked := by
    intro moment member term asks
    obtain old | new := List.mem_append.mp member
    · obtain ⟨here, below, was⟩ := counted.asked moment old term asks
      exact ⟨here, below.trans durable, later term below was⟩
    · exact asked moment new term asks
  answered := by
    intro moment member round answers
    change ∃ msg, (moment.dst, msg) ∈ (c.settle input m).heard ∧ _
    rw [heard_settle]
    obtain old | new := List.mem_append.mp member
    · obtain ⟨msg, told, asks⟩ := counted.answered moment old round answers
      exact ⟨msg, hears_subset input told, asks⟩
    · exact answered moment new round answers
  votes := by
    intro counted some
    change ∃ last since, round = _ ∧ last ≤ m.term ∧ since ≤ (c.settle input m).heard.length ∧
      ∀ v ∈ counted, v = m.id ∨ Granted ((c.settle input m).heard.drop since) (c.said ++ m.moments) last v
    rw [heard_settle]
    exact votes counted some

variable {now : Nat} {input : Input}

theorem Counted.apart (counted : Counted who c) {m : Node} {t : Nat} (apart : Node.Apart t (c.wake now) m)
    (told : 0 < t → ∃ p, input = .deliver p ∧ p.msg.term = t) (after : (c.toSolo.settle input m).Accounted) :
    Steps who c (.input now input) { toSolo := c.toSolo.settle input m, round := c.round } := by
  obtain ⟨more, said, plain⟩ := apart.said
  have moments : m.moments = more := said
  have term : c.raft.term ≤ m.term := by
    have moved : m.term = c.raft.term ∨ c.raft.term < t ∧ m.term = t := apart.term
    omega
  refine ⟨counted.settle after apart.cfg apart.durable (fun _ _ was => was) ?_ ?_ ?_,
    fun grows => .inl ?_⟩
  · intro moment member term asks
    rw [(RaftMsg.plain_of_not_polls (plain moment (moments ▸ member))).1] at asks
    cases asks
  · intro moment member round answers
    rw [(RaftMsg.plain_of_not_polls (plain moment (moments ▸ member))).2] at answers
    cases answers
  · intro votes some
    have before : c.raft.preVotes = Option.some votes := apart.preVotes.symm.trans some
    obtain ⟨last, since, was, order, within, each⟩ := counted.votes votes before
    refine ⟨last, since, was, order.trans term, within.trans (length_hears input), fun v member => ?_⟩
    exact (each v member).imp (fun own => own.trans apart.id.symm) fun granted => Granted.kept granted within
  · have moved : m.term = c.raft.term ∨ c.raft.term < t ∧ m.term = t := apart.term
    change c.raft.term < m.term at grows
    obtain ⟨p, same, adopted⟩ := told (by omega)
    refine ⟨now, p, by rw [same], ?_⟩
    change p.msg.term = m.term
    omega

theorem Counted.start (counted : Counted who c) (starts : (c.wake now).StartsRound)
    (after : (c.toSolo.settle (.timer .election) ((c.wake now).onTimer .election)).Accounted) :
    Steps who c (.input now (.timer .election))
      { toSolo := c.toSolo.settle (.timer .election) ((c.wake now).onTimer .election)
        round := some (c.raft.term, c.heard.length) } := by
  have behind := (accounted_terms counted.accounted).1
  rw [Node.onTimer_starts starts] at after ⊢
  have spec := Node.startPreVote_spec { c.wake now with electionTimer := {} }
  generalize Node.startPreVote { c.wake now with electionTimer := {} } = m at after spec ⊢
  obtain ⟨self, outcome⟩ := spec
  have durable : m.durableTerm = c.raft.durableTerm := self.durable
  have later : ∀ term ≤ c.raft.durableTerm, (∃ last since, c.round = some (last, since) ∧ term ≤ last) →
      ∃ last since, some (c.raft.term, c.heard.length) = some (last, since) ∧ term ≤ last :=
    fun _ below _ => ⟨_, _, rfl, below.trans behind⟩
  obtain ⟨term, preVotes, moments, won⟩ | ⟨term, preVotes, more, said, each⟩ := outcome
  · refine ⟨counted.settle after self.cfg durable.ge later ?_ ?_ ?_, fun _ => .inr ?_⟩
    · intro moment member
      rw [moments] at member
      cases member
    · intro moment member
      rw [moments] at member
      cases member
    · intro votes some
      rw [preVotes] at some
      cases some
    · refine ⟨term, _, rfl, _, won, fun v member => (Finset.mem_filter.mp member).2, fun v member => .inl ?_⟩
      exact Finset.mem_singleton.mp (Finset.mem_filter.mp member).1
  · have moments : m.moments = more := said
    refine ⟨counted.settle after self.cfg durable.ge later ?_ ?_ ?_, fun grows => ?_⟩
    · intro moment member term' asks
      obtain ⟨here, inTerm, _, reached⟩ := each moment (moments ▸ member)
      rw [inTerm, Option.some.injEq] at asks
      subst asks
      exact ⟨here, durable ▸ reached, _, _, rfl, le_rfl⟩
    · intro moment member round answers
      rw [(each moment (moments ▸ member)).2.2.1] at answers
      cases answers
    · intro votes some
      rw [preVotes, Option.some.injEq] at some
      subst some
      refine ⟨_, _, rfl, term.ge, length_hears _, fun v member => .inl ?_⟩
      exact (Finset.mem_singleton.mp member).trans self.id.symm
    · change c.raft.term < m.term at grows
      rw [term] at grows
      exact absurd grows (lt_irrefl _)

-- The term of a running round is the node's own as soon as an answer to it counts: no question of a later term
-- has been asked.
theorem Counted.current (counted : Counted who c) {votes : Finset NodeId} {src : NodeId}
    (running : c.raft.preVotes = some votes) (asked : AskedIn c.said src c.raft.term) :
    ∃ since, c.round = some (c.raft.term, since) ∧ since ≤ c.heard.length ∧
      (∀ v ∈ votes, v = c.raft.id ∨ Granted (c.heard.drop since) c.said c.raft.term v) ∧
      ∃ moment ∈ c.said, moment.dst = src ∧ moment.msg.asksIn = some c.raft.term ∧ moment.raft.term = c.raft.term := by
  obtain ⟨last, since, was, order, within, each⟩ := counted.votes votes running
  obtain ⟨moment, member, dst, asks⟩ := asked
  obtain ⟨here, _, last', since', was', order'⟩ := counted.asked moment member c.raft.term asks
  rw [was, Option.some.injEq, Prod.mk.injEq] at was'
  obtain ⟨rfl, rfl⟩ := was'
  obtain rfl : last = c.raft.term := le_antisymm order order'
  exact ⟨since, was, within, each, moment, member, dst, asks, here⟩

theorem Counted.answer (counted : Counted who c) (p : Packet) {term round : Nat} {granted : Bool}
    (answers : p.msg = .preVoteResp term round granted) (asked : AskedIn c.said p.src round)
    (after : (c.toSolo.settle (.deliver p) ((c.wake now).onPreVoteResp p.src term round granted)).Accounted) :
    Steps who c (.input now (.deliver p))
      { toSolo := c.toSolo.settle (.deliver p) ((c.wake now).onPreVoteResp p.src term round granted)
        round := c.round } := by
  have spec := Node.onPreVoteResp_spec (c.wake now) p.src term round granted
  generalize (c.wake now).onPreVoteResp p.src term round granted = m at after spec ⊢
  obtain ⟨self, said, outcome⟩ := spec
  have moments : m.moments = [] := said
  have durable : m.durableTerm = c.raft.durableTerm := self.durable
  have silent : ∀ moment, moment ∉ m.moments := by simp [moments]
  have assemble : (∀ votes, m.preVotes = some votes → ∃ last since, c.round = some (last, since) ∧ last ≤ m.term ∧
      since ≤ (c.hears (.deliver p)).length ∧
      ∀ v ∈ votes, v = m.id ∨ Granted ((c.hears (.deliver p)).drop since) (c.said ++ m.moments) last v) →
      Counted who { toSolo := c.toSolo.settle (.deliver p) m, round := c.round } :=
    counted.settle after self.cfg durable.ge (fun _ _ was => was) (fun moment member => absurd member (silent moment))
      fun moment member => absurd member (silent moment)
  have kept : c.raft.term ≤ m.term → m.preVotes = c.raft.preVotes ∨ m.preVotes = none →
      Counted who { toSolo := c.toSolo.settle (.deliver p) m, round := c.round } := by
    intro grows same
    refine assemble fun votes some => ?_
    obtain same | none := same
    · obtain ⟨last, since, was, order, within, each⟩ := counted.votes votes (same.symm.trans some)
      refine ⟨last, since, was, order.trans grows, within.trans (length_hears _), fun v member => ?_⟩
      exact (each v member).imp (fun own => own.trans self.id.symm) fun granted => Granted.kept granted within
    · rw [none] at some
      cases some
  obtain ⟨newer, term', none⟩ | ⟨term', same⟩ | ⟨inRound, yes, votes, was, counts⟩ := outcome
  · change c.raft.term < term at newer
    refine ⟨kept (by omega) (.inr none), fun _ => .inl ⟨now, p, rfl, ?_⟩⟩
    rw [answers]
    exact term'.symm
  · have still : m.term = c.raft.term := term'
    refine ⟨kept still.ge same, fun grows => ?_⟩
    change c.raft.term < m.term at grows
    omega
  · have current : round = c.raft.term := inRound
    subst yes current
    obtain ⟨since, round, within, each, moment, member, dst, asks, here⟩ := counted.current was asked
    have heard : (p.src, p.msg) ∈ (c.hears (.deliver p)).drop since := by
      simp only [hears]
      rw [List.drop_append_of_le_length within]
      exact List.mem_append_right _ (List.mem_singleton_self _)
    have all : ∀ v ∈ insert p.src votes, v = c.raft.id ∨
        Granted ((c.hears (.deliver p)).drop since) (c.said ++ m.moments) c.raft.term v := by
      intro v found
      obtain rfl | old := Finset.mem_insert.mp found
      · exact .inr ⟨⟨term, answers ▸ heard⟩, moment, List.mem_append_left _ member, dst, asks, here⟩
      · exact (each v old).imp_right fun granted => Granted.kept granted within
    obtain ⟨term', some⟩ | ⟨term', none, won⟩ := counts
    · have still : m.term = c.raft.term := term'
      refine ⟨assemble fun votes' found => ?_, fun grows => ?_⟩
      · rw [some, Option.some.injEq] at found
        subst found
        refine ⟨_, since, round, still.ge, within.trans (length_hears _), fun v member => ?_⟩
        exact (all v member).imp_left fun own => own.trans self.id.symm
      · change c.raft.term < m.term at grows
        omega
    · refine ⟨kept (term' ▸ Nat.le_succ _) (.inr none), fun _ => .inr ⟨term', since, round, _, won, ?_, ?_⟩⟩
      · exact fun v member => (Finset.mem_filter.mp member).2
      · intro v member
        change v = c.raft.id ∨ Granted ((c.settle (.deliver p) m).heard.drop since) (c.said ++ m.moments) c.raft.term v
        rw [heard_settle]
        exact all v (Finset.mem_filter.mp member).1

theorem Counted.question (counted : Counted who c) (p : Packet) {term lastIndex lastTerm : Nat} {candidate : NodeId}
    (asks : p.msg = .preVote term candidate lastIndex lastTerm)
    (after : (c.toSolo.settle (.deliver p) ((c.wake now).onPreVote p.src term lastIndex lastTerm)).Accounted) :
    Steps who c (.input now (.deliver p))
      { toSolo := c.toSolo.settle (.deliver p) ((c.wake now).onPreVote p.src term lastIndex lastTerm)
        round := c.round } := by
  obtain ⟨raft, more, said, each⟩ := (c.wake now).onPreVote_spec p.src term lastIndex lastTerm
  generalize (c.wake now).onPreVote p.src term lastIndex lastTerm = m at after raft said ⊢
  have same : m.toRaft = c.raft := raft
  have moments : m.moments = more := said
  refine ⟨counted.settle after (congrArg Raft.cfg same) (congrArg Raft.durableTerm same).ge (fun _ _ was => was)
    ?_ ?_ ?_, fun grows => ?_⟩
  · intro moment member term' asks'
    rw [(each moment (moments ▸ member)).2.2] at asks'
    cases asks'
  · intro moment member round answers
    obtain ⟨dst, inRound, _⟩ := each moment (moments ▸ member)
    rw [inRound, Option.some.injEq] at answers
    subst answers
    exact ⟨p.msg, dst ▸ List.mem_append_right _ (List.mem_singleton_self _), asks ▸ rfl⟩
  · intro votes some
    rw [same] at some ⊢
    obtain ⟨last, since, was, order, within, each⟩ := counted.votes votes some
    refine ⟨last, since, was, order, within.trans (length_hears _), fun v member => ?_⟩
    exact (each v member).imp_right fun granted => Granted.kept granted within
  · change c.raft.term < m.term at grows
    rw [same] at grows
    exact absurd grows (lt_irrefl _)

theorem startsRound_eq_false {input : Input} (idle : input = .timer .election → ¬ (c.wake now).StartsRound) :
    c.startsRound (.input now input) = false := by
  cases input with
  | timer tag =>
    cases tag with
    | election => exact decide_eq_false (idle rfl)
    | heartbeat => rfl
  | _ => rfl

theorem Counted.handled (counted : Counted who c) (asks : who.cfg.preVote = true)
    (truthful : c.Truthful (.input now input)) (after : (c.toSolo.settle input (c.toSolo.react now input)).Accounted) :
    Steps who c (.input now input)
      { toSolo := c.toSolo.settle input (c.toSolo.react now input)
        round := if c.startsRound (.input now input) then some (c.raft.term, c.heard.length) else c.round } := by
  have aside : (∀ p, input = .deliver p → ¬ p.msg.Polls) →
      (input = .timer .election → ¬ (c.wake now).StartsRound) →
      Steps who c (.input now input)
        { toSolo := c.toSolo.settle input (c.toSolo.react now input)
          round := if c.startsRound (.input now input) then some (c.raft.term, c.heard.length) else c.round } := by
    intro plain idle
    obtain ⟨t, apart, told⟩ := handle_apart counted.accounted (counted.cfg ▸ asks) now plain idle
    rw [startsRound_eq_false idle]
    exact counted.apart apart told after
  cases input with
  | timer tag =>
    by_cases starts : tag = .election ∧ (c.wake now).StartsRound
    · obtain ⟨rfl, starts⟩ := starts
      have begins : c.startsRound (.input now (.timer .election)) = true := decide_eq_true starts
      rw [begins]
      exact counted.start starts after
    · refine aside (by simp) ?_
      rintro same begins
      cases same
      exact starts ⟨rfl, begins⟩
  | deliver p =>
    by_cases plain : p.msg.Polls
    · by_cases failed : c.raft.failed = true
      · have inert : (c.wake now).onMessage p.src p.msg = c.wake now := if_pos failed
        have same : c.toSolo.react now (.deliver p) = c.wake now := inert
        rw [same] at after ⊢
        exact counted.apart (.refl (t := 0) _) (by simp) after
      · have react : c.toSolo.react now (.deliver p) = (c.wake now).onMessage p.src p.msg := rfl
        have runs : (c.wake now).failed = c.raft.failed := rfl
        simp only [react, Node.onMessage, runs, failed, Bool.false_eq_true, if_false] at after ⊢
        cases asked : p.msg with
        | preVote term candidate lastIndex lastTerm =>
          rw [asked] at after
          exact counted.question p asked after
        | preVoteResp term round granted =>
          rw [asked] at after
          exact counted.answer p asked (truthful round (by rw [asked]; rfl)) after
        | _ =>
          rw [asked] at plain
          exact plain.elim
    · exact aside (fun _ same => by cases same; exact plain) (by simp)
  | _ => exact aside (by simp) (by simp)

theorem Counted.step (counted : Counted who c) (asks : who.cfg.preVote = true) {event : SoloEvent}
    (allowed : c.Allowed event) {c' : Canvass} (next : c.step who event = some c') : Steps who c event c' := by
  cases event with
  | restart now wal a b => exact counted.restart now wal a b allowed next
  | input now input =>
    obtain ⟨s, moved, rfl⟩ := Option.map_eq_some_iff.mp next
    obtain ⟨v, polled⟩ := counted.accounted
    have after : s.Accounted := polled.step allowed.1 moved
    simp only [Solo.step] at moved
    split at moved
    · cases moved
      exact counted.handled asks allowed.2 after
    · cases moved

theorem Counted.init (who : Identity) : Counted who (Canvass.init who) := by
  obtain ⟨_, _, _, _, _, raft, _⟩ := Raft.recover_toRaft [] [] [] who.id who.members who.cfg {}
  refine ⟨⟨firstVoter, Solo.Polled.init who⟩, congrArg Raft.cfg raft, ?_, ?_, ?_⟩
  · intro moment member
    cases member
  · intro moment member
    cases member
  · intro votes some
    have none : (Canvass.init who).raft.preVotes = none := congrArg Raft.preVotes raft
    rw [none] at some
    cases some

theorem Reachable.counted (reached : Reachable who c) (asks : who.cfg.preVote = true) : Counted who c :=
  reached.invariant (Counted.init who) fun _ _ _ counted allowed next => (counted.step asks allowed next).counted

theorem step_deliver {p : Packet} {c' : Canvass} (next : c.step who (.input now (.deliver p)) = some c') :
    c'.raft = ((c.wake now).onMessage p.src p.msg).toRaft := by
  obtain ⟨s, moved, rfl⟩ := Option.map_eq_some_iff.mp next
  simp only [Solo.step] at moved
  split at moved
  · cases moved
    rfl
  · cases moved

/-- With pre-votes a node leaves its term only for a term it has been told of, or for the next one when a quorum of
its members was for that in a round it began in its term. No other answer counts, and a question changes nothing. -/
theorem term_not_inflated (asks : who.cfg.preVote = true) (reached : Reachable who c) {event : SoloEvent}
    (allowed : c.Allowed event) {c' : Canvass} (next : c.step who event = some c') :
    (c.raft.term < c'.raft.term →
      (∃ now p, event = .input now (.deliver p) ∧ p.msg.term = c'.raft.term) ∨ c.Warranted c') ∧
    (∀ now p, event = .input now (.deliver p) → ∀ round ∈ p.msg.answers, round ≠ c.raft.term →
      c'.raft.preVotes = c.raft.preVotes ∨ c'.raft.preVotes = none) ∧
    (∀ now p, event = .input now (.deliver p) → p.msg.asksIn.isSome → c'.raft = c.raft) ∧
    ∀ moment ∈ c'.said, ∀ round ∈ moment.msg.answers,
      ∃ msg, (moment.dst, msg) ∈ c'.heard ∧ msg.asksIn = some round := by
  have steps := (reached.counted asks).step asks allowed next
  refine ⟨steps.grown, ?_, ?_, steps.counted.answered⟩
  · rintro now p rfl round answers elsewhere
    rw [step_deliver next]
    unfold Node.onMessage
    split
    · exact .inl rfl
    · cases msg : p.msg with
      | preVoteResp term round' granted =>
        rw [msg] at answers
        obtain rfl : round' = round := by simpa [RaftMsg.answers] using answers
        obtain ⟨_, _, ⟨_, _, none⟩ | ⟨_, same⟩ | ⟨current, _⟩⟩ :=
          (c.wake now).onPreVoteResp_spec p.src term round' granted
        · exact .inr none
        · exact same
        · exact absurd current elsewhere
      | _ =>
        rw [msg] at answers
        cases answers
  · rintro now p rfl question
    rw [step_deliver next]
    unfold Node.onMessage
    split
    · rfl
    · cases msg : p.msg with
      | preVote term candidate lastIndex lastTerm => exact ((c.wake now).onPreVote_spec p.src term lastIndex lastTerm).1
      | _ =>
        rw [msg] at question
        cases question

def poller : Identity where
  id := 0
  members := [0, 1, 2]
  cfg := {}

def yes : SoloEvent := .input 0 (.deliver { src := 1, dst := 0, msg := .preVoteResp 0 0 true })

instance (c : Canvass) : (event : SoloEvent) → Decidable (c.Truthful event)
  | .input _ (.deliver p) => inferInstanceAs (Decidable (∀ round ∈ p.msg.answers, AskedIn c.said p.src round))
  | .input _ (.timer _) | .input _ (.storage _ _) | .input _ (.propose _) | .input _ (.reconfigure _)
  | .input _ .read | .input _ (.drain _) | .restart _ _ _ _ => inferInstanceAs (Decidable True)

instance (c : Canvass) (event : SoloEvent) : Decidable (c.Allowed event) := inferInstanceAs (Decidable (_ ∧ _))

theorem poller_asks : (Execution.play (step poller) Allowed (init poller) [.input 0 (.timer .election)]).any
    (fun c => c.Allowed yes ∧ c.raft.term = 0 ∧ ((c.step poller yes).any fun c' => c'.raft.term = 1)) = true := by
  decide +kernel

theorem poller_warranted : ∃ c c' : Canvass, Reachable poller c ∧ c.step poller yes = some c' ∧
    c.raft.term < c'.raft.term ∧ c.Warranted c' := by
  obtain ⟨c, played, next⟩ := (Option.any_eq_true ..).mp poller_asks
  simp only [decide_eq_true_eq] at next
  obtain ⟨allowed, before, next⟩ := next
  obtain ⟨c', next, after⟩ := (Option.any_eq_true ..).mp next
  have reached : Reachable poller c := Execution.run_of_play played
  have grows : c.raft.term < c'.raft.term := by
    rw [before, of_decide_eq_true after]
    exact Nat.zero_lt_one
  obtain ⟨now, p, same, adopted⟩ | warranted := (term_not_inflated rfl reached allowed next).1 grows
  · cases same
    rw [← adopted] at grows
    exact absurd grows (Nat.not_lt_zero _)
  · exact ⟨c, c', reached, next, grows, warranted⟩

end Canvass

end SimKv
