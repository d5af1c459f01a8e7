import SimKv.Election
import SimKv.Solo

set_option autoImplicit false

/-!
# A vote is durable before it is cast

One node, whatever it is told. The order of the hard states it writes is the order in which its stance
changes, so the newest durable one rules out every vote that contradicts a vote already given.
-/

namespace SimKv

open Ballot

structure Raft.Onward (r r' : Raft) : Prop where
  id : r'.id = r.id
  stance : r.stance.Before r'.stance
  hard : r'.durableHardState = r.durableHardState
  durableTerm : r'.durableTerm = r.durableTerm

theorem Raft.Onward.still {r r' : Raft} (id : r'.id = r.id) (term : r'.term = r.term)
    (vote : r'.votedFor = r.votedFor) (hard : r'.durableHardState = r.durableHardState)
    (durableTerm : r'.durableTerm = r.durableTerm) : r.Onward r' where
  id := id
  stance := by
    rw [Raft.stance, Raft.stance, term, vote]
    exact .refl _
  hard := hard
  durableTerm := durableTerm

theorem Act.onward {cause : Cause} {r : Raft} {n m : Node} (act : Act cause r n m) :
    n.Onward m.toRaft := by
  have becomes := act.becomes
  generalize m.toRaft = after at becomes ⊢
  cases becomes with
  | stepDown term newer => exact ⟨rfl, .inl newer, rfl, rfl⟩
  | candidacy => exact ⟨rfl, .inl (Nat.lt_succ_self n.term), rfl, rfl⟩
  | vote candidate free => exact ⟨rfl, .inr ⟨rfl, free⟩, rfl, rfl⟩
  | _ => exact .still rfl rfl rfl rfl rfl

def Asked (heard : List (NodeId × RaftMsg)) (dst : NodeId) (term : Nat) (candidate : NodeId) : Prop :=
  ∃ lastIndex lastTerm, (dst, RaftMsg.requestVote term candidate lastIndex lastTerm) ∈ heard

/-- What a batch stands for: its hard state is among the writes, and a vote it will announce is the one
it carries. -/
def Promises (heard : List (NodeId × RaftMsg)) (id : NodeId) (v : Voter NodeId) (action : Persist)
    (hard : Option HardState) : Prop :=
  (∀ hs ∈ hard, hs.ballot ∈ v.writes) ∧
  match action with
  | .campaign term => ∃ hs ∈ hard, hs.ballot.toStance = ⟨term, some id⟩
  | .voteReply dst term true => ∃ candidate, Asked heard dst term candidate ∧
      ∃ hs ∈ hard, hs.ballot.toStance = ⟨term, some candidate⟩
  | .reply _ msg => ∃ term success matchIndex conflictIndex,
      msg = .appendEntriesResp term success matchIndex conflictIndex
  | _ => True

structure Polled (heard : List (NodeId × RaftMsg)) (v : Voter NodeId) (r : Raft) : Prop where
  sound : v.Sound
  now : v.now = r.stance
  hard : v.hard = r.durableHardState.ballot
  durableTerm : r.durableTerm = r.durableHardState.term
  nextSeq : v.nextSeq = r.stateSeq
  ordered : r.persister.Ordered
  duties : ∀ d ∈ r.persister.duties, Promises heard r.id v d.action d.hard

/-- The vote for `candidate` in `term` is on stable storage, or a later term is. -/
def HardState.Settles (hs : HardState) (term : Nat) (candidate : NodeId) : Prop :=
  hs.term = term ∧ hs.votedFor = some candidate ∨ term < hs.term

def Honours (heard : List (NodeId × RaftMsg)) (granted : Set (Nat × NodeId)) (moment : Moment) : Prop :=
  moment.msg.term ≤ moment.raft.durableTerm ∧
  match moment.msg with
  | .requestVoteResp term true => ∃ candidate, (term, candidate) ∈ granted ∧
      Asked heard moment.dst term candidate ∧ moment.raft.durableHardState.Settles term candidate
  | .requestVote term candidate _ _ => (term, candidate) ∈ granted ∧ candidate = moment.raft.id ∧
      moment.raft.durableHardState.Settles term candidate
  | _ => True

structure Polling (heard : List (NodeId × RaftMsg)) (cause : Cause) (n : Node) (v : Voter NodeId) :
    Prop where
  polled : Polled heard v n.toRaft
  batch : ∀ action hard, cause = .durable action hard →
    Promises heard n.id v action hard ∧ ∀ hs ∈ hard, hs.seq ≤ v.hard.seq
  told : ∀ src msg, cause = .message src msg → (src, msg) ∈ heard
  said : ∀ moment ∈ n.moments, Honours heard v.granted moment

variable {heard : List (NodeId × RaftMsg)} {cause : Cause} {r : Raft} {n m : Node} {v w : Voter NodeId}

theorem Promises.mono {id : NodeId} {action : Persist} {hard : Option HardState}
    (promises : Promises heard id v action hard) (writes : v.writes ⊆ w.writes) :
    Promises heard id w action hard :=
  ⟨fun hs member => writes (promises.1 hs member), promises.2⟩

theorem Promises.clamp {id : NodeId} {action : Persist} {hard : Option HardState}
    (promises : Promises heard id v action hard) (cap : Nat) :
    Promises heard id v (action.clamp cap) hard := by
  cases action <;> exact promises

theorem Honours.mono {granted more : Set (Nat × NodeId)} {moment : Moment}
    (honours : Honours heard granted moment) (grows : granted ⊆ more) : Honours heard more moment := by
  refine ⟨honours.1, ?_⟩
  have kept := honours.2
  split at kept
  · obtain ⟨candidate, given, rest⟩ := kept
    exact ⟨candidate, grows given, rest⟩
  · exact ⟨grows kept.1, kept.2⟩
  · trivial

-- The voter after an act: it has taken its new stance, and written it if the node has.
theorem Act.polled (act : Act cause r n m) (mid : Polling heard cause n v) :
    ∃ w, Polled heard w m.toRaft ∧ v.writes ⊆ w.writes ∧ w.granted = v.granted ∧ w.hard = v.hard := by
  have asks := act.asks mid.polled.ordered
  have onward := act.onward
  have later : v.now.Before m.stance := by
    rw [mid.polled.now]
    exact onward.stance
  have hard : v.hard = m.durableHardState.ballot := by
    rw [onward.hard]
    exact mid.polled.hard
  have durableTerm : m.durableTerm = m.durableHardState.term := by
    rw [onward.durableTerm, onward.hard]
    exact mid.polled.durableTerm
  have old : ∀ w : Voter NodeId, v.writes ⊆ w.writes → ∀ d ∈ n.persister.duties,
      Promises heard m.id w d.action d.hard := by
    intro w grows d member
    rw [onward.id]
    exact (mid.polled.duties d member).mono grows
  have owed : ∀ w : Voter NodeId, v.writes ⊆ w.writes → ∀ action hard, n.Owes cause action hard →
      (∀ hs ∈ hard, hs.ballot ∈ w.writes) → Promises heard m.id w action hard := by
    intro w _ action hard owes written
    refine ⟨written, ?_⟩
    cases owes with
    | campaign => exact ⟨_, rfl, by rw [onward.id]; rfl⟩
    | vote src candidate requested =>
      obtain ⟨lastIndex, lastTerm, asked, _⟩ := requested
      exact ⟨candidate, ⟨lastIndex, lastTerm, mid.told _ _ asked⟩, _, rfl, rfl⟩
    | failure => exact ⟨_, _, _, _, rfl⟩
    | covered => exact ⟨_, _, _, _, rfl⟩
    | _ => trivial
  -- unless a hard state is written, the stance is all that moves
  have moved : m.stateSeq = n.stateSeq → (∀ d ∈ m.persister.duties, d ∈ n.persister.duties ∨
      (∃ before ∈ n.persister.duties, ∃ cap, d = { before with action := before.action.clamp cap }) ∨
      n.Owes cause d.action d.hard ∧ d.hard = none) →
      ∃ w, Polled heard w m.toRaft ∧ v.writes ⊆ w.writes ∧ w.granted = v.granted ∧ w.hard = v.hard := by
    intro seq duties
    refine ⟨{ v with now := m.stance }, ⟨mid.polled.sound.move later, rfl, hard, durableTerm, ?_,
      asks.ordered mid.polled.ordered, ?_⟩, subset_rfl, rfl, rfl⟩
    · rw [seq]
      exact mid.polled.nextSeq
    · intro d member
      rcases duties d member with kept | ⟨before, found, cap, rfl⟩ | ⟨owes, none⟩
      · exact old _ subset_rfl d kept
      · exact (old _ subset_rfl before found).clamp cap
      · refine owed _ subset_rfl _ _ owes ?_
        rw [none]
        exact nofun
  cases asks with
  | nothing _ _ persister _ _ seq => exact moved seq fun d member => .inl (persister ▸ member)
  | clamp cap persister _ _ seq =>
    refine moved seq fun d member => .inr (.inl ?_)
    rw [persister, Persister.duties_clampAll] at member
    obtain ⟨before, found, rfl⟩ := List.mem_map.mp member
    exact ⟨before, found, cap, rfl⟩
  | clear persister _ _ seq => exact moved seq fun d member => .inl (persister ▸ member)
  | snapshot _ action _ _ owes _ _ _ _ _ _ seq opened =>
    refine moved seq fun d member => ?_
    rw [opened.persister, Persister.opened_opens.2] at member
    rcases List.mem_append.mp member with kept | new
    · exact .inl kept
    · rw [List.mem_singleton.mp new]
      exact .inr (.inr ⟨owes, rfl⟩)
  | wal action hs _ owes _ carries opened =>
    have duties : ∀ d ∈ m.persister.duties, d ∈ n.persister.duties ∨ d.action = action ∧ d.hard = hs := by
      intro d member
      rw [opened.persister, Persister.opened_opens.2] at member
      rcases List.mem_append.mp member with kept | new
      · exact .inl kept
      · rw [List.mem_singleton.mp new]
        exact .inr ⟨rfl, rfl⟩
    cases hs with
    | none =>
      refine moved carries fun d member => ?_
      rcases duties d member with kept | ⟨same, none⟩
      · exact .inl kept
      · exact .inr (.inr ⟨by rw [same, none]; exact owes, none⟩)
    | some hs =>
      obtain ⟨rfl, seq⟩ := carries
      have grows : v.writes ⊆ (v.write m.stance).writes := Set.subset_insert _ _
      refine ⟨v.write m.stance, ⟨mid.polled.sound.write later, rfl, hard, durableTerm, ?_,
        act.asks mid.polled.ordered |>.ordered mid.polled.ordered, ?_⟩, grows, rfl, rfl⟩
      · rw [seq, ← mid.polled.nextSeq]
        rfl
      · intro d member
        rcases duties d member with kept | ⟨same, written⟩
        · exact old _ grows d kept
        · rw [same, written]
          refine owed _ grows _ _ owes ?_
          intro hs' here
          cases here
          left
          rw [mid.polled.nextSeq]
          rfl

-- A vote that is backed settles the term on stable storage.
theorem Polled.settles (polled : Polled heard v r) {term : Nat} {candidate : NodeId}
    (backs : v.Backs term candidate) : r.durableHardState.Settles term candidate := by
  obtain ⟨h, member, stance, order⟩ := backs
  have before := polled.sound.ordered h member _ polled.sound.held order
  rw [stance, polled.hard] at before
  rcases before with above | ⟨same, none | voted⟩
  · exact .inr above
  · cases none
  · exact .inl ⟨same.symm, voted.symm⟩

-- What an act says is honest, once the vote it may give away is booked.
theorem Polling.honours (mid : Polling heard cause n v) {dst : NodeId} {msg : RaftMsg}
    (durable : msg.term ≤ n.durableTerm)
    (allowed : Says cause r n.toRaft dst msg ∨ ∃ hard, cause = .durable (.reply dst msg) hard) :
    ∃ granted, v.granted ⊆ granted ∧ Voter.Sound { v with granted } ∧
      Honours heard granted { raft := n.toRaft, dst, msg } := by
  have sound := mid.polled.sound
  rcases allowed with allowed | ⟨hard, done⟩
  · cases msg with
    | requestVote term candidate lastIndex lastTerm =>
      obtain ⟨⟨hard, done⟩, _, _, rfl, _⟩ := allowed
      obtain ⟨⟨written, hs, carried, stance⟩, older⟩ := mid.batch _ _ done
      have backs : v.Backs term n.id := ⟨hs.ballot, written hs carried, stance, older hs carried⟩
      exact ⟨_, Set.subset_insert _ _, sound.grant backs, durable, Set.mem_insert _ _, rfl,
        mid.polled.settles backs⟩
    | requestVoteResp term granted =>
      cases granted with
      | false => exact ⟨v.granted, subset_rfl, sound, durable, trivial⟩
      | true =>
        have vote : ∃ candidate, Asked heard dst term candidate ∧ v.Backs term candidate := by
          rcases allowed rfl with ⟨hard, done⟩ | ⟨candidate, requested, rfl, _, settled, voted⟩
          · obtain ⟨⟨written, candidate, asked, hs, carried, stance⟩, older⟩ := mid.batch _ _ done
            exact ⟨candidate, asked, hs.ballot, written hs carried, stance, older hs carried⟩
          · -- the vote is on disk already, so it may be repeated
            obtain ⟨lastIndex, lastTerm, asked, _⟩ := requested
            refine ⟨candidate, ⟨lastIndex, lastTerm, mid.told _ _ asked⟩, v.hard, sound.held, ?_, le_rfl⟩
            rw [mid.polled.hard, HardState.ballot, settled, voted]
        obtain ⟨candidate, asked, backs⟩ := vote
        exact ⟨_, Set.subset_insert _ _, sound.grant backs, durable, candidate, Set.mem_insert _ _, asked,
          mid.polled.settles backs⟩
    | _ => exact ⟨v.granted, subset_rfl, sound, durable, trivial⟩
  · obtain ⟨⟨_, _, _, _, _, rfl⟩, _⟩ := mid.batch _ _ done
    exact ⟨v.granted, subset_rfl, sound, durable, trivial⟩

theorem Polled.grant (polled : Polled heard v r) {granted : Set (Nat × NodeId)}
    (sound : Voter.Sound { v with granted }) : Polled heard { v with granted } r :=
  ⟨sound, polled.now, polled.hard, polled.durableTerm, polled.nextSeq, polled.ordered, polled.duties⟩

-- One act of a handler.
theorem Act.polling (act : Act cause r n m) (mid : Polling heard cause n v) :
    ∃ w, Polling heard cause m w ∧ v.writes ⊆ w.writes ∧ v.granted ⊆ w.granted := by
  -- the vote is given away before anything else moves
  obtain ⟨granted, grows, sound, said⟩ : ∃ granted, v.granted ⊆ granted ∧
      Voter.Sound { v with granted } ∧ ∀ moment ∈ m.moments, Honours heard granted moment := by
    cases act.speaks with
    | nothing same =>
      rw [same]
      exact ⟨v.granted, subset_rfl, mid.polled.sound, mid.said⟩
    | message dst msg durable allowed said =>
      obtain ⟨granted, grows, sound, honours⟩ := mid.honours durable allowed
      refine ⟨granted, grows, sound, fun moment member => ?_⟩
      rw [said] at member
      rcases List.mem_append.mp member with old | new
      · exact (mid.said moment old).mono grows
      · rw [List.mem_singleton.mp new]
        exact honours
  have given : Polling heard cause n { v with granted } :=
    ⟨mid.polled.grant sound, mid.batch, mid.told, fun moment member => (mid.said moment member).mono grows⟩
  obtain ⟨w, polled, writes, same, hard⟩ := act.polled given
  refine ⟨w, ⟨polled, ?_, mid.told, ?_⟩, writes, ?_⟩
  · intro action hs done
    obtain ⟨promises, older⟩ := given.batch action hs done
    rw [act.onward.id, hard]
    exact ⟨promises.mono writes, older⟩
  · rw [same]
    exact said
  · rw [same]
    exact grows

-- A hard state is noted as durable.
theorem Polled.noteDurable (polled : Polled heard v n.toRaft) {hs : HardState}
    (written : hs.ballot ∈ v.writes) :
    Polled heard (v.done hs.ballot) (n.noteDurable (some hs)).toRaft ∧
      hs.seq ≤ (v.done hs.ballot).hard.seq := by
  have seq : v.hard.seq = n.durableHardState.seq := by
    rw [polled.hard]
    rfl
  have hard : (v.done hs.ballot).hard =
      HardState.ballot (if n.durableHardState.seq ≤ hs.seq then hs else n.durableHardState) := by
    change (if v.hard.seq ≤ hs.seq then hs.ballot else v.hard) = _
    rw [seq, polled.hard]
    split <;> rfl
  have top : max n.durableTerm hs.term =
      (if n.durableHardState.seq ≤ hs.seq then hs else n.durableHardState).term := by
    have held := polled.sound.held
    rw [polled.hard] at held
    rw [polled.durableTerm]
    split
    · next newer => exact max_eq_right (polled.sound.ordered _ held _ written newer).term_le
    · next older => exact max_eq_left (polled.sound.ordered _ written _ held (not_le.mp older).le).term_le
  obtain ⟨_, _, raft, _⟩ := n.noteDurable_spec hs
  refine ⟨?_, ?_⟩
  · rw [raft]
    exact ⟨polled.sound.done written, polled.now, hard, top, polled.nextSeq, polled.ordered, polled.duties⟩
  · rw [hard]
    change hs.seq ≤ (if n.durableHardState.seq ≤ hs.seq then hs else n.durableHardState).seq
    split
    · exact le_rfl
    · next older => exact (not_le.mp older).le

theorem Server.Begins.polling {s : Server} {now : Nat} {input : Input}
    (begins : s.Begins now input cause n) (polled : Polled heard v s.raft)
    (told : ∀ p, input = .deliver p → (p.src, p.msg) ∈ heard) :
    ∃ w, Polling heard cause n w ∧ v.writes = w.writes ∧ v.granted = w.granted := by
  have moments := begins.moments
  have silent : ∀ granted, ∀ moment ∈ n.moments, Honours heard granted moment := by
    intro granted moment member
    rw [moments] at member
    cases member
  obtain ⟨_, fewer, ended⟩ := begins.duties
  have ordered := begins.ordered polled.ordered
  have heard' : ∀ src msg, cause = .message src msg → (src, msg) ∈ heard := by
    intro src msg same
    obtain ⟨p, delivered, rfl, rfl, _⟩ := begins.message_inv same
    exact told p delivered
  cases begins with
  | done op ok action hard p completed =>
    obtain ⟨d, found, rfl, rfl⟩ := ended action hard rfl
    have promises := polled.duties d found
    have books : ({ s.wake now with persister := p }.noteDurable d.hard).persister = p :=
      Node.noteDurable_persister _ d.hard
    rw [books] at fewer ordered
    have begun : Polled heard v { s.wake now with persister := p }.toRaft :=
      ⟨polled.sound, polled.now, polled.hard, polled.durableTerm, polled.nextSeq, ordered,
        fun d member => polled.duties d (fewer d member)⟩
    cases carried : d.hard with
    | none =>
      rw [carried] at promises silent
      refine ⟨v, ⟨begun, ?_, nofun, silent _⟩, rfl, rfl⟩
      rintro _ _ ⟨⟩
      exact ⟨promises, nofun⟩
    | some hs =>
      rw [carried] at promises silent
      obtain ⟨noted, newest⟩ := begun.noteDurable (promises.1 hs rfl)
      refine ⟨v.done hs.ballot, ⟨noted, ?_, nofun, silent _⟩, rfl, rfl⟩
      rintro _ _ ⟨⟩
      refine ⟨?_, fun hs' here => ?_⟩
      · obtain ⟨_, _, raft, _⟩ := Node.noteDurable_spec { s.wake now with persister := p } hs
        rw [raft]
        exact promises
      · cases here
        exact newest
  | _ =>
    exact ⟨v, ⟨⟨polled.sound, polled.now, polled.hard, polled.durableTerm, polled.nextSeq, ordered,
      fun d member => polled.duties d (fewer d member)⟩, nofun, heard', silent _⟩, rfl, rfl⟩

/-- A restart brings back a hard state of the life that crashed and no older than the durable one: the one that life
began with, which stays in its slot until a newer one is in the other, or one written since. What an earlier life wrote
and lost is not on the disk any more. -/
def Solo.RestoresHard (s : Solo) : SoloEvent → Prop
  | .restart _ wal _ _ => recoverHardState wal ∈ s.hardWrites ∧
      s.raft.durableHardState.seq ≤ (recoverHardState wal).seq
  | .input .. => True

instance (s : Solo) : (event : SoloEvent) → Decidable (s.RestoresHard event)
  | .restart .. => inferInstanceAs (Decidable (_ ∧ _))
  | .input .. => inferInstanceAs (Decidable True)

structure Solo.Polled (s : Solo) (v : Voter NodeId) : Prop where
  polled : SimKv.Polled s.heard v s.raft
  writes : ∀ hs ∈ s.hardWrites, hs.ballot ∈ v.writes
  said : ∀ moment ∈ s.said, Honours s.heard v.granted moment

def Solo.Accounted (s : Solo) : Prop := ∃ v, s.Polled v

theorem Asked.mono {more : List (NodeId × RaftMsg)} {dst candidate : NodeId} {term : Nat}
    (asked : Asked heard dst term candidate) (grows : heard ⊆ more) : Asked more dst term candidate := by
  obtain ⟨lastIndex, lastTerm, found⟩ := asked
  exact ⟨lastIndex, lastTerm, grows found⟩

theorem Honours.longer {more : List (NodeId × RaftMsg)} {granted : Set (Nat × NodeId)} {moment : Moment}
    (honours : Honours heard granted moment) (grows : heard ⊆ more) : Honours more granted moment := by
  refine ⟨honours.1, ?_⟩
  have kept := honours.2
  split at kept
  · obtain ⟨candidate, given, asked, settled⟩ := kept
    exact ⟨candidate, given, asked.mono grows, settled⟩
  · exact kept
  · trivial

theorem Polled.longer {more : List (NodeId × RaftMsg)} (polled : Polled heard v r) (grows : heard ⊆ more) :
    Polled more v r := by
  refine { polled with duties := fun d member => ⟨(polled.duties d member).1, ?_⟩ }
  have kept := (polled.duties d member).2
  split at kept
  · exact kept
  · obtain ⟨candidate, asked, carried⟩ := kept
    exact ⟨candidate, asked.mono grows, carried⟩
  all_goals exact kept

-- A node that starts from a hard state is polled by the voter that restarts from it.
theorem Polled.recover (voter : Voter NodeId) (wal a b : Bytes) (id : NodeId) (members : List NodeId)
    (cfg : RaftConfig) (io : Io) (sound : (voter.restart (recoverHardState wal).ballot).Sound) :
    Polled heard (voter.restart (recoverHardState wal).ballot)
      (Raft.recover wal a b id members cfg io).toRaft := by
  obtain ⟨_, _, _, _, _, raft, _⟩ := Raft.recover_toRaft wal a b id members cfg io
  rw [raft]
  refine ⟨sound, rfl, rfl, rfl, rfl, ?_, ?_⟩
  · intro b member
    cases member
  · intro d member
    cases member

theorem Solo.Polled.step {who : Identity} {s s' : Solo} {event : SoloEvent} (polled : s.Polled v)
    (restores : s.RestoresHard event) (next : s.step who event = some s') : s'.Accounted := by
  cases event with
  | input now input =>
    simp only [Solo.step] at next
    split at next
    · next calm =>
      cases next
      have grows : s.heard ⊆ (s.settle input (s.react now input)).heard := by
        simp only [settle]
        split
        · exact List.subset_append_left _ _
        · exact fun _ member => member
      generalize known : (s.settle input (s.react now input)).heard = heard' at grows
      obtain ⟨cause, _, w, last, writes, granted⟩ := @Server.handle_rule s.toServer
        (fun cause _ n => ∃ w, Polling heard' cause n w ∧ v.writes ⊆ w.writes ∧ v.granted ⊆ w.granted)
        now input
        (by
          intro cause n begins
          have told : ∀ p, input = .deliver p → (p.src, p.msg) ∈ heard' := by
            rintro p rfl
            rw [← known]
            exact List.mem_append_right _ (List.mem_singleton_self _)
          obtain ⟨w, begun, writes, granted⟩ := begins.polling (polled.polled.longer grows) told
          exact ⟨w, begun, writes.subset, granted.subset⟩)
        (by
          rintro cause r n m ⟨w, mid, writes, granted⟩ act
          obtain ⟨w', after, writes', granted'⟩ := act.polling mid
          exact ⟨w', after, writes.trans writes', granted.trans granted'⟩)
        calm
      refine ⟨w, ?_, ?_, ?_⟩
      · rw [known]
        exact last.polled
      · intro hs member
        rcases List.mem_append.mp member with old | new
        · exact writes (polled.writes hs old)
        · obtain ⟨b, found, carried⟩ := List.mem_filterMap.mp new
          exact (last.polled.duties b.duty (List.mem_map_of_mem found)).1 hs carried
      · intro moment member
        rw [known]
        rcases List.mem_append.mp member with old | new
        · exact (Honours.longer (polled.said moment old) grows).mono granted
        · exact last.said moment new
    · cases next
  | restart now wal a b =>
    cases next
    obtain ⟨written, newer⟩ := restores
    have sound : (v.restart (recoverHardState wal).ballot).Sound := by
      refine polled.polled.sound.restart (polled.writes _ written) ?_
      rw [polled.polled.hard]
      exact newer
    refine ⟨v.restart (recoverHardState wal).ballot, .recover v wal a b _ _ _ _ sound, ?_, polled.said⟩
    intro hs member
    rw [List.mem_singleton.mp member]
    rfl

def firstVoter : Voter NodeId := (initialBallot.seat 0).toVoter

theorem Solo.Polled.init (who : Identity) : (Solo.init who).Polled firstVoter := by
  have sound : firstVoter.Sound := (initialBallot_sound ∅).voter 0
  have start : firstVoter = firstVoter.restart (recoverHardState []).ballot := rfl
  refine ⟨?_, ?_, ?_⟩
  · rw [start] at sound ⊢
    exact .recover firstVoter [] [] [] _ _ _ _ sound
  · intro hs member
    rw [List.mem_singleton.mp member]
    rfl
  · intro moment member
    cases member

/-- There is one candidate per term that a node votes for: every vote it gives out answers a request for
that candidate, every election it calls is its own, and either is on stable storage, unless a later term
is, when it becomes visible. No message carries a term that is not durable. -/
theorem votes_durable_and_single {who : Identity} {s : Solo}
    (reached : Solo.Reachable who Solo.RestoresHard s) :
    ∃ vote : Nat → NodeId, ∀ moment ∈ s.said,
      moment.msg.term ≤ moment.raft.durableTerm ∧
      (∀ term, moment.msg = .requestVoteResp term true →
        Asked s.heard moment.dst term (vote term) ∧
          moment.raft.durableHardState.Settles term (vote term)) ∧
      ∀ term candidate lastIndex lastTerm,
        moment.msg = .requestVote term candidate lastIndex lastTerm →
          candidate = vote term ∧ candidate = moment.raft.id ∧
            moment.raft.durableHardState.Settles term candidate := by
  have first : (Solo.init who).Accounted := ⟨firstVoter, Solo.Polled.init who⟩
  obtain ⟨v, polled⟩ : s.Accounted := reached.invariant first
    fun _ _ _ accounted restores next => accounted.elim fun _ polled => polled.step restores next
  classical
  -- the vote of a term is the one that was given out in it, if there is one
  let vote : Nat → NodeId := fun term =>
    if given : ∃ candidate, (term, candidate) ∈ v.granted then given.choose else 0
  have chosen : ∀ term candidate, (term, candidate) ∈ v.granted → vote term = candidate := by
    intro term candidate given
    have some : ∃ candidate, (term, candidate) ∈ v.granted := ⟨candidate, given⟩
    simp only [vote, some, dif_pos]
    exact polled.polled.sound.once term _ _ some.choose_spec given
  refine ⟨vote, fun moment member => ?_⟩
  obtain ⟨durable, honest⟩ := polled.said moment member
  refine ⟨durable, ?_, ?_⟩
  · intro term same
    rw [same] at honest
    obtain ⟨candidate, given, asked, settled⟩ := honest
    rw [chosen term candidate given]
    exact ⟨asked, settled⟩
  · intro term candidate lastIndex lastTerm same
    rw [same] at honest
    obtain ⟨given, own, settled⟩ := honest
    exact ⟨(chosen term candidate given).symm, own, settled⟩

def elector : Identity where
  id := 0
  members := [0, 1, 2]
  cfg := { preVote := false, leaderStickiness := false }

def sealedVote : HardState := { term := 1, votedFor := some 1, seq := 1 }

def twiceAsked : List SoloEvent :=
  [.input 0 (.deliver { src := 1, dst := 0, msg := .requestVote 1 1 0 0 }),
    .input 0 (.storage 1 true), .input 0 (.storage 2 true),
    .restart 0 (List.replicate 64 0 ++ sealedVote.toSlot) [] [],
    .input 0 (.deliver { src := 2, dst := 0, msg := .requestVote 1 2 0 0 }),
    .input 0 (.deliver { src := 1, dst := 0, msg := .requestVote 1 1 0 0 })]

theorem twiceAsked_said :
    (Execution.play (Solo.step elector) Solo.RestoresHard (Solo.init elector) twiceAsked).map
      (fun s => s.said.map fun moment => (moment.dst, moment.msg)) =
    some [(1, .requestVoteResp 1 true), (2, .requestVoteResp 1 false), (1, .requestVoteResp 1 true)] := by
  decide +kernel

theorem votes_durable_and_single_elector : ∃ s : Solo,
    Solo.Reachable elector Solo.RestoresHard s ∧
      s.said.map (fun moment => (moment.dst, moment.msg)) =
        [(1, .requestVoteResp 1 true), (2, .requestVoteResp 1 false), (1, .requestVoteResp 1 true)] ∧
      ∃ vote : Nat → NodeId, ∀ moment ∈ s.said,
        moment.msg.term ≤ moment.raft.durableTerm ∧
        (∀ term, moment.msg = .requestVoteResp term true →
          Asked s.heard moment.dst term (vote term) ∧
            moment.raft.durableHardState.Settles term (vote term)) ∧
        ∀ term candidate lastIndex lastTerm,
          moment.msg = .requestVote term candidate lastIndex lastTerm →
            candidate = vote term ∧ candidate = moment.raft.id ∧
              moment.raft.durableHardState.Settles term candidate := by
  obtain ⟨s, played, said⟩ := Option.map_eq_some_iff.mp twiceAsked_said
  have reached : Solo.Reachable elector Solo.RestoresHard s := Execution.run_of_play played
  exact ⟨s, reached, said, votes_durable_and_single reached⟩

end SimKv
