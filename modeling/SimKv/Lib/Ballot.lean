import Mathlib.Data.Finset.Card
import Mathlib.Data.Set.Insert

set_option autoImplicit false

/-!
# Votes that survive a crash

An abstract election protocol. A voter writes its term and vote to stable storage without waiting,
several writes may be under way at once, and a crash brings back any write at least as new as the
newest one known to be durable. A vote counts only once its own write is durable; at most one
candidate can ever win a term.
-/

namespace Ballot

variable {N : Type}

structure Stance (N : Type) where
  term : Nat
  vote : Option N

/-- `t` may follow `s` in the life of one voter: the term grows, or the vote is only filled in. -/
def Stance.Before (s t : Stance N) : Prop :=
  s.term < t.term ∨ s.term = t.term ∧ (s.vote = none ∨ s.vote = t.vote)

theorem Stance.Before.refl (s : Stance N) : s.Before s := .inr ⟨rfl, .inr rfl⟩

theorem Stance.Before.trans {s t u : Stance N} (first : s.Before t) (second : t.Before u) :
    s.Before u := by
  rcases first with lt | ⟨same, kept⟩
  · rcases second with lt' | ⟨same', _⟩
    · exact .inl (lt.trans lt')
    · exact .inl (same' ▸ lt)
  · rcases second with lt' | ⟨same', kept'⟩
    · exact .inl (same ▸ lt')
    · refine .inr ⟨same.trans same', ?_⟩
      rcases kept with none | eq
      · exact .inl none
      · rcases kept' with none | eq'
        · exact .inl (eq.trans none)
        · exact .inr (eq.trans eq')

theorem Stance.Before.term_le {s t : Stance N} (before : s.Before t) : s.term ≤ t.term := by
  rcases before with lt | ⟨same, _⟩
  · exact lt.le
  · exact same.le

-- A vote is never replaced within its term.
theorem Stance.Before.vote_eq {s t : Stance N} {c : N} (before : s.Before t) (same : s.term = t.term)
    (cast : s.vote = some c) : t.vote = some c := by
  rcases before with lt | ⟨_, none | eq⟩
  · omega
  · rw [none] at cast
    cases cast
  · exact eq ▸ cast

structure Hard (N : Type) extends Stance N where
  seq : Nat

structure Voter (N : Type) where
  now : Stance N
  -- The newest write known to be durable.
  hard : Hard N
  -- What a crash may bring back, if it is not older than `hard`.
  writes : Set (Hard N)
  nextSeq : Nat
  -- Votes cast since the last crash.
  pledged : Set (Nat × N)
  -- Votes that have been given out, ever.
  granted : Set (Nat × N)

namespace Voter

structure Sound (v : Voter N) : Prop where
  fresh : ∀ h ∈ v.writes, h.seq < v.nextSeq
  held : v.hard ∈ v.writes
  ordered : ∀ h ∈ v.writes, ∀ h' ∈ v.writes, h.seq ≤ h'.seq → h.toStance.Before h'.toStance
  live : ∀ h ∈ v.writes, h.toStance.Before v.now
  -- A vote given out is durable.
  durable : ∀ t c, (t, c) ∈ v.granted → (⟨t, some c⟩ : Stance N).Before v.hard.toStance
  -- A vote given out has no rival among the writes.
  alone : ∀ t c, (t, c) ∈ v.granted → ∀ h ∈ v.writes, h.term = t → h.vote = none ∨ h.vote = some c
  once : ∀ t c c', (t, c) ∈ v.granted → (t, c') ∈ v.granted → c = c'

def Backs (v : Voter N) (t : Nat) (c : N) : Prop :=
  ∃ h ∈ v.writes, h.toStance = ⟨t, some c⟩ ∧ h.seq ≤ v.hard.seq

def write (v : Voter N) (s : Stance N) : Voter N :=
  { v with
    now := s
    writes := insert { toStance := s, seq := v.nextSeq } v.writes
    nextSeq := v.nextSeq + 1 }

def done [DecidableEq N] (v : Voter N) (h : Hard N) : Voter N :=
  { v with hard := if v.hard.seq ≤ h.seq then h else v.hard }

def restart (v : Voter N) (h : Hard N) : Voter N :=
  { v with now := h.toStance, hard := h, writes := {h}, nextSeq := h.seq + 1, pledged := ∅ }

variable {v : Voter N}

theorem Sound.move (sound : v.Sound) {s : Stance N} (later : v.now.Before s) :
    Sound { v with now := s } :=
  { sound with live := fun h member => (sound.live h member).trans later }

theorem Sound.now_after_granted (sound : v.Sound) {t : Nat} {c : N} (given : (t, c) ∈ v.granted) :
    (⟨t, some c⟩ : Stance N).Before v.now :=
  (sound.durable t c given).trans (sound.live _ sound.held)

theorem Sound.write (sound : v.Sound) {s : Stance N} (later : v.now.Before s) : (v.write s).Sound where
  fresh := by
    rintro h (rfl | member)
    · exact Nat.lt_succ_self _
    · exact (sound.fresh h member).trans (Nat.lt_succ_self _)
  held := .inr sound.held
  ordered := by
    rintro h (rfl | member) h' (rfl | member') order
    · exact .refl _
    · exact absurd (sound.fresh h' member') (not_lt.mpr order)
    · exact (sound.live h member).trans later
    · exact sound.ordered h member h' member' order
  live := by
    rintro h (rfl | member)
    · exact .refl _
    · exact (sound.live h member).trans later
  durable := sound.durable
  alone := by
    rintro t c given h (rfl | member) same
    · exact .inr (((sound.now_after_granted given).trans later).vote_eq same.symm rfl)
    · exact sound.alone t c given h member same
  once := sound.once

theorem Sound.done [DecidableEq N] (sound : v.Sound) {h : Hard N} (member : h ∈ v.writes) :
    (v.done h).Sound := by
  unfold Voter.done
  split
  · next newer =>
    exact { sound with
      held := member
      durable := fun t c given =>
        (sound.durable t c given).trans (sound.ordered _ sound.held h member newer) }
  · exact sound

theorem Sound.restart (sound : v.Sound) {h : Hard N} (member : h ∈ v.writes)
    (newer : v.hard.seq ≤ h.seq) : (v.restart h).Sound where
  fresh := by
    rintro _ rfl
    exact Nat.lt_succ_self _
  held := rfl
  ordered := by
    rintro _ rfl _ rfl _
    exact .refl _
  live := by
    rintro _ rfl
    exact .refl _
  durable := fun t c given =>
    (sound.durable t c given).trans (sound.ordered _ sound.held h member newer)
  alone := by
    intro t c given h' here same
    exact sound.alone t c given h' ((Set.mem_singleton_iff.mp here).symm ▸ member) same
  once := sound.once

-- A durable vote rules out every other vote of its term.
theorem Sound.rivals (sound : v.Sound) {t : Nat} {c : N} (backs : v.Backs t c) :
    ∀ h ∈ v.writes, h.term = t → h.vote = none ∨ h.vote = some c := by
  obtain ⟨b, member, stance, _⟩ := backs
  intro h other same
  have bTerm : b.term = t := congrArg Stance.term stance
  have bVote : b.vote = some c := congrArg Stance.vote stance
  rcases le_total h.seq b.seq with older | newer
  · rcases sound.ordered h other b member older with lt | ⟨_, none | eq⟩
    · omega
    · exact .inl none
    · exact .inr (eq.trans bVote)
  · exact .inr ((sound.ordered b member h other newer).vote_eq (bTerm.trans same.symm) bVote)

theorem Sound.grant (sound : v.Sound) {t : Nat} {c : N} (backs : v.Backs t c) :
    Sound { v with granted := insert (t, c) v.granted } where
  fresh := sound.fresh
  held := sound.held
  ordered := sound.ordered
  live := sound.live
  durable := by
    rintro t' c' (same | given)
    · cases same
      obtain ⟨b, member, stance, order⟩ := backs
      exact stance ▸ sound.ordered b member _ sound.held order
    · exact sound.durable t' c' given
  alone := by
    rintro t' c' (same | given)
    · cases same
      exact sound.rivals backs
    · exact sound.alone t' c' given
  once := by
    have unique : ∀ c', (t, c') ∈ v.granted → c' = c := by
      intro c' given
      obtain ⟨b, member, stance, _⟩ := backs
      have bVote : b.vote = some c := congrArg Stance.vote stance
      rcases sound.alone t c' given b member (congrArg Stance.term stance) with none | some
      · rw [none] at bVote
        cases bVote
      · exact Option.some.inj (some.symm.trans bVote)
    rintro t' c₁ c₂ (same₁ | given₁) (same₂ | given₂)
    · cases same₁
      cases same₂
      rfl
    · cases same₁
      exact (unique c₂ given₂).symm
    · cases same₂
      exact unique c₁ given₁
    · exact sound.once t' c₁ c₂ given₁ given₂

end Voter

inductive Post where
  | follower
  | candidate
  | leader
  deriving DecidableEq, Repr

structure Election (N : Type) where
  term : Nat
  winner : N
  voters : Finset N

structure Seat (N : Type) extends Voter N where
  post : Post
  -- The votes a candidate has counted.
  votes : Finset N

structure State (N : Type) where
  seat : N → Seat N
  -- Candidacies made known.
  asked : Set (Nat × N)
  -- Every election won, oldest first.
  won : List (Election N)

inductive Move (N : Type) where
  | adopt (x : N) (term : Nat)
  | yield (x : N)
  | campaign (x : N)
  | write (x : N)
  | vote (x c : N)
  | renew (x c : N)
  | done (x : N) (h : Hard N)
  | announce (x : N)
  | grant (x : N) (term : Nat) (c : N)
  | count (x v : N)
  | lead (x : N)
  | restart (x : N) (h : Hard N)

def Move.actor : Move N → N
  | .adopt x _ | .yield x | .campaign x | .write x | .vote x _ | .renew x _ | .done x _ | .announce x
  | .grant x _ _ | .count x _ | .lead x | .restart x _ => x

section Protocol

variable [DecidableEq N]

def Majority (members voters : Finset N) : Prop := members.card < 2 * (voters ∩ members).card

-- Majorities of two memberships meet if these are at most one member apart.
theorem Majority.meet_near {old new a b : Finset N} (near : (symmDiff old new).card ≤ 1) (left : Majority old a)
    (right : Majority new b) : ∃ v ∈ a ∩ old, v ∈ b ∩ new := by
  by_contra apart
  have disjoint : Disjoint (a ∩ old) (b ∩ new) := by
    rw [Finset.disjoint_left]
    intro v inA inB
    exact apart ⟨v, inA, inB⟩
  have union : (a ∩ old ∪ b ∩ new).card ≤ (old ∪ new).card :=
    Finset.card_le_card (Finset.union_subset_union Finset.inter_subset_right Finset.inter_subset_right)
  rw [Finset.card_union_of_disjoint disjoint] at union
  -- the union counts both memberships, and once more what only one of them has
  have sizes := Finset.card_union_add_card_inter old new
  have difference : (old ∪ new).card - (old ∩ new).card ≤ 1 := by
    rwa [symmDiff_eq_sup_sdiff_inf, Finset.sup_eq_union, Finset.inf_eq_inter,
      Finset.card_sdiff_of_subset Finset.inter_subset_union] at near
  unfold Majority at left right
  omega

theorem Majority.meet {members a b : Finset N} (left : Majority members a) (right : Majority members b) :
    ∃ v ∈ a ∩ members, v ∈ b ∩ members :=
  left.meet_near (by simp) right

namespace Seat

variable (v : Seat N)

def follow (voter : Voter N) : Seat N := { toVoter := voter, post := .follower, votes := ∅ }

def keep (voter : Voter N) : Seat N := { v with toVoter := voter }

def pledge (voter : Voter N) (c : N) : Voter N :=
  { voter with pledged := insert (voter.now.term, c) voter.pledged }

def give (term : Nat) (c : N) : Seat N := { v with granted := insert (term, c) v.granted }

end Seat

namespace State

variable (s : State N)

def put (x : N) (seat : Seat N) : State N := { s with seat := Function.update s.seat x seat }

def Allowed (members : Finset N) : Move N → Prop
  | .adopt x term => (s.seat x).now.term < term
  | .yield _ => True
  | .campaign _ => True
  | .write _ => True
  | .vote x c => ((s.seat x).now.term, c) ∈ s.asked ∧
      ((s.seat x).now.vote = none ∨ (s.seat x).now.vote = some c)
  | .renew x c => ((s.seat x).now.term, c) ∈ s.asked
  | .done x h => h ∈ (s.seat x).writes
  | .announce x => (s.seat x).post = .candidate ∧ (s.seat x).Backs (s.seat x).now.term x
  | .grant x term c => (term, c) ∈ (s.seat x).pledged ∧ (s.seat x).Backs term c
  | .count x v => (s.seat x).post = .candidate ∧ ((s.seat x).now.term, x) ∈ (s.seat v).granted
  | .lead x => (s.seat x).post = .candidate ∧ ((s.seat x).now.term, x) ∈ (s.seat x).granted ∧
      Majority members (s.seat x).votes
  | .restart x h => h ∈ (s.seat x).writes ∧ (s.seat x).hard.seq ≤ h.seq

def next : Move N → State N
  | .adopt x term => s.put x (Seat.follow { (s.seat x).toVoter with now := ⟨term, none⟩ })
  | .yield x => s.put x (Seat.follow (s.seat x).toVoter)
  | .campaign x =>
      let voter := (s.seat x).write ⟨(s.seat x).now.term + 1, some x⟩
      s.put x { toVoter := voter, post := .candidate, votes := {x} }
  | .write x => s.put x ((s.seat x).keep ((s.seat x).write (s.seat x).now))
  | .vote x c =>
      s.put x ((s.seat x).keep
        (Seat.pledge ((s.seat x).write ⟨(s.seat x).now.term, some c⟩) c))
  | .renew x c => s.put x ((s.seat x).keep (Seat.pledge (s.seat x).toVoter c))
  | .done x h => s.put x ((s.seat x).keep ((s.seat x).done h))
  | .announce x =>
      { s.put x ((s.seat x).give (s.seat x).now.term x) with
        asked := insert ((s.seat x).now.term, x) s.asked }
  | .grant x term c => s.put x ((s.seat x).give term c)
  | .count x v => s.put x { s.seat x with votes := insert v (s.seat x).votes }
  | .lead x =>
      { s.put x { s.seat x with post := .leader } with
        won := s.won ++ [⟨(s.seat x).now.term, x, (s.seat x).votes⟩] }
  | .restart x h => s.put x (Seat.follow ((s.seat x).restart h))

structure Sound (members : Finset N) : Prop where
  voter : ∀ x, (s.seat x).toVoter.Sound
  -- Votes go only to candidates that have voted for themselves.
  asked : ∀ t c, (t, c) ∈ s.asked → (t, c) ∈ (s.seat c).granted
  pledged : ∀ x t c, (t, c) ∈ (s.seat x).pledged → (t, c) ∈ s.asked
  granted : ∀ x t c, (t, c) ∈ (s.seat x).granted → (t, c) ∈ s.asked
  votes : ∀ x, (s.seat x).post = .candidate → ∀ v ∈ (s.seat x).votes, v = x ∨
    ((s.seat x).now.term, x) ∈ (s.seat v).granted
  leader : ∀ x, (s.seat x).post = .leader → ∃ e ∈ s.won, e.term = (s.seat x).now.term ∧ e.winner = x
  majority : ∀ e ∈ s.won, Majority members e.voters
  voters : ∀ e ∈ s.won, ∀ v ∈ e.voters, (e.term, e.winner) ∈ (s.seat v).granted

variable {s} {members : Finset N}

-- Replacing one seat: nothing already given out is taken back, what is new was asked for, and an
-- election is only added with the votes for it.
theorem Sound.step (sound : s.Sound members) {s' : State N} {x : N} {seat : Seat N}
    (seats : s'.seat = Function.update s.seat x seat)
    (asked : s'.asked = s.asked ∨ ∃ t, s'.asked = insert (t, x) s.asked ∧ (t, x) ∈ seat.granted)
    (won : s'.won = s.won ∨ ∃ e, s'.won = s.won ++ [e] ∧ Majority members e.voters ∧
      ∀ v ∈ e.voters, (e.term, e.winner) ∈ (s.seat v).granted)
    (voter : seat.toVoter.Sound) (grows : (s.seat x).granted ⊆ seat.granted)
    (pledged : ∀ t c, (t, c) ∈ seat.pledged → (t, c) ∈ s'.asked)
    (granted : ∀ t c, (t, c) ∈ seat.granted → (t, c) ∈ s'.asked)
    (votes : seat.post = .candidate → ∀ v ∈ seat.votes, v = x ∨ (seat.now.term, x) ∈ (s.seat v).granted)
    (leader : seat.post = .leader → ∃ e ∈ s'.won, e.term = seat.now.term ∧ e.winner = x) :
    s'.Sound members := by
  have self : s'.seat x = seat := by rw [seats, Function.update_self]
  have others : ∀ {y}, y ≠ x → s'.seat y = s.seat y := by
    intro y differs
    rw [seats, Function.update_of_ne differs]
  have kept : ∀ y, (s.seat y).granted ⊆ (s'.seat y).granted := by
    intro y
    by_cases same : y = x
    · rw [same, self]
      exact grows
    · rw [others same]
  have askedGrows : s.asked ⊆ s'.asked := by
    rcases asked with same | ⟨_, same, _⟩
    · exact same.ge
    · rw [same]
      exact Set.subset_insert _ _
  have wonGrows : ∀ e ∈ s.won, e ∈ s'.won := by
    intro e member
    rcases won with same | ⟨_, same, _⟩ <;> rw [same]
    · exact member
    · exact List.mem_append_left _ member
  constructor
  case voter =>
    intro y
    by_cases same : y = x
    · rw [same, self]
      exact voter
    · rw [others same]
      exact sound.voter y
  case asked =>
    intro t c member
    rcases asked with same | ⟨t', same, given⟩
    · exact kept c (sound.asked t c (same ▸ member))
    · rw [same] at member
      rcases member with new | old
      · cases new
        rw [self]
        exact given
      · exact kept c (sound.asked t c old)
  case pledged =>
    intro y
    by_cases same : y = x
    · rw [same, self]
      exact pledged
    · rw [others same]
      exact fun t c member => askedGrows (sound.pledged y t c member)
  case granted =>
    intro y
    by_cases same : y = x
    · rw [same, self]
      exact granted
    · rw [others same]
      exact fun t c member => askedGrows (sound.granted y t c member)
  case votes =>
    intro y standing v counted
    by_cases same : y = x
    · subst same
      rw [self] at standing counted ⊢
      exact (votes standing v counted).imp_right fun given => kept v given
    · rw [others same] at standing counted ⊢
      exact (sound.votes y standing v counted).imp_right fun given => kept v given
  case leader =>
    intro y leads
    by_cases same : y = x
    · subst same
      rw [self] at leads ⊢
      exact leader leads
    · rw [others same] at leads ⊢
      obtain ⟨e, member, facts⟩ := sound.leader y leads
      exact ⟨e, wonGrows e member, facts⟩
  case majority =>
    intro e member
    rcases won with same | ⟨e', same, majority, _⟩ <;> rw [same] at member
    · exact sound.majority e member
    · rcases List.mem_append.mp member with old | new
      · exact sound.majority e old
      · rw [List.mem_singleton.mp new]
        exact majority
  case voters =>
    intro e member v voted
    rcases won with same | ⟨e', same, _, given⟩ <;> rw [same] at member
    · exact kept v (sound.voters e member v voted)
    · rcases List.mem_append.mp member with old | new
      · exact kept v (sound.voters e old v voted)
      · rw [List.mem_singleton.mp new] at voted ⊢
        exact kept v (given v voted)

theorem Sound.next (sound : s.Sound members) {move : Move N} (allowed : s.Allowed members move) :
    (s.next move).Sound members := by
  cases move with
  | adopt x term =>
    exact sound.step rfl (.inl rfl) (.inl rfl) ((sound.voter x).move (.inl allowed)) (fun _ h => h)
      (sound.pledged x) (sound.granted x) nofun nofun
  | yield x =>
    exact sound.step rfl (.inl rfl) (.inl rfl) (sound.voter x) (fun _ h => h)
      (sound.pledged x) (sound.granted x) nofun nofun
  | campaign x =>
    refine sound.step rfl (.inl rfl) (.inl rfl) ((sound.voter x).write (.inl (Nat.lt_succ_self _)))
      (fun _ h => h) (sound.pledged x) (sound.granted x) ?_ nofun
    intro _ v counted
    exact .inl (Finset.mem_singleton.mp counted)
  | write x =>
    exact sound.step rfl (.inl rfl) (.inl rfl) ((sound.voter x).write (.refl _)) (fun _ h => h)
      (sound.pledged x) (sound.granted x) (sound.votes x) (sound.leader x)
  | vote x c =>
    have later : (s.seat x).now.Before ⟨(s.seat x).now.term, some c⟩ := .inr ⟨rfl, allowed.2⟩
    have written := (sound.voter x).write later
    refine sound.step rfl (.inl rfl) (.inl rfl) { written with } (fun _ h => h) ?_ (sound.granted x)
      (sound.votes x) (sound.leader x)
    rintro t c' (new | old)
    · cases new
      exact allowed.1
    · exact sound.pledged x t c' old
  | renew x c =>
    refine sound.step rfl (.inl rfl) (.inl rfl) { sound.voter x with } (fun _ h => h) ?_
      (sound.granted x) (sound.votes x) (sound.leader x)
    rintro t c' (new | old)
    · cases new
      exact allowed
    · exact sound.pledged x t c' old
  | done x h =>
    exact sound.step rfl (.inl rfl) (.inl rfl) ((sound.voter x).done allowed) (fun _ h => h)
      (sound.pledged x) (sound.granted x) (sound.votes x) (sound.leader x)
  | announce x =>
    refine sound.step rfl (.inr ⟨_, rfl, .inl rfl⟩) (.inl rfl) ((sound.voter x).grant allowed.2)
      (Set.subset_insert _ _) ?_ ?_ (sound.votes x) (sound.leader x)
    · exact fun t c member => .inr (sound.pledged x t c member)
    · rintro t c (new | old)
      · exact .inl new
      · exact .inr (sound.granted x t c old)
  | grant x term c =>
    refine sound.step rfl (.inl rfl) (.inl rfl) ((sound.voter x).grant allowed.2)
      (Set.subset_insert _ _) (sound.pledged x) ?_ (sound.votes x) (sound.leader x)
    rintro t c' (new | old)
    · cases new
      exact sound.pledged x _ _ allowed.1
    · exact sound.granted x t c' old
  | count x v =>
    refine sound.step rfl (.inl rfl) (.inl rfl) { sound.voter x with } (fun _ h => h)
      (sound.pledged x) (sound.granted x) ?_ (sound.leader x)
    intro standing u counted
    rcases Finset.mem_insert.mp counted with rfl | old
    · exact .inr allowed.2
    · exact sound.votes x standing u old
  | lead x =>
    obtain ⟨standing, self, majority⟩ := allowed
    refine sound.step rfl (.inl rfl) (.inr ⟨_, rfl, majority, ?_⟩) { sound.voter x with } (fun _ h => h)
      (sound.pledged x) (sound.granted x) nofun ?_
    · intro v counted
      rcases sound.votes x standing v counted with rfl | given
      · exact self
      · exact given
    · exact fun _ => ⟨_, List.mem_append_right _ (List.mem_singleton_self _), rfl, rfl⟩
  | restart x h =>
    exact sound.step rfl (.inl rfl) (.inl rfl) ((sound.voter x).restart allowed.1 allowed.2) (fun _ h => h)
      (by rintro t c ⟨⟩) (sound.granted x) nofun nofun

-- At most one candidate ever wins a term.
theorem Sound.winner_unique (sound : s.Sound members) {e e' : Election N} (first : e ∈ s.won)
    (second : e' ∈ s.won) (same : e.term = e'.term) : e.winner = e'.winner := by
  obtain ⟨v, inFirst, inSecond⟩ := (sound.majority e first).meet (sound.majority e' second)
  have given := sound.voters e first v (Finset.mem_inter.mp inFirst).1
  have given' := sound.voters e' second v (Finset.mem_inter.mp inSecond).1
  rw [← same] at given'
  exact (sound.voter v).once _ _ _ given given'

/-- A series of moves, each allowed when it is made. -/
inductive Run (members : Finset N) : State N → List (Move N) → State N → Prop where
  | nil (s : State N) : Run members s [] s
  | cons {s s' : State N} {move : Move N} {rest : List (Move N)} (allowed : s.Allowed members move)
      (run : Run members (s.next move) rest s') : Run members s (move :: rest) s'

structure Extends (s s' : State N) : Prop where
  asked : s.asked ⊆ s'.asked
  granted : ∀ x, (s.seat x).granted ⊆ (s'.seat x).granted
  won : ∃ later, s'.won = s.won ++ later

omit [DecidableEq N] in
theorem Extends.refl (s : State N) : s.Extends s := ⟨subset_rfl, fun _ => subset_rfl, [], by simp⟩

omit [DecidableEq N] in
theorem Extends.trans {s t u : State N} (first : s.Extends t) (second : t.Extends u) : s.Extends u := by
  obtain ⟨mid, won⟩ := first.won
  obtain ⟨later, won'⟩ := second.won
  exact ⟨first.asked.trans second.asked, fun x => (first.granted x).trans (second.granted x),
    mid ++ later, by rw [won', won, List.append_assoc]⟩

theorem next_others (s : State N) {move : Move N} {y : N} (differs : y ≠ move.actor) :
    (s.next move).seat y = s.seat y := by
  cases move <;> exact Function.update_of_ne differs _ _

theorem next_granted (s : State N) (move : Move N) (y : N) :
    (s.seat y).granted ⊆ ((s.next move).seat y).granted := by
  by_cases same : y = move.actor
  · subst same
    cases move
    case done x h =>
      simp only [Move.actor, next, put, Function.update_self, Seat.keep, Voter.done]
      exact subset_rfl
    case announce | grant =>
      simp only [Move.actor, next, put, Function.update_self, Seat.give]
      exact Set.subset_insert _ _
    all_goals
      simp only [Move.actor, next, put, Function.update_self]
      exact subset_rfl
  · rw [s.next_others same]

theorem next_extends (s : State N) (move : Move N) : s.Extends (s.next move) where
  asked := by
    cases move
    case announce => exact Set.subset_insert _ _
    all_goals exact subset_rfl
  granted := s.next_granted move
  won := by
    cases move
    case lead => exact ⟨_, rfl⟩
    all_goals exact ⟨[], (List.append_nil _).symm⟩

theorem Run.extends {s s' : State N} {moves : List (Move N)} (run : Run members s moves s') :
    s.Extends s' := by
  induction run with
  | nil s => exact .refl s
  | cons _ _ ih => exact (next_extends _ _).trans ih

theorem Run.sound {s s' : State N} {moves : List (Move N)} (run : Run members s moves s')
    (sound : s.Sound members) : s'.Sound members := by
  induction run with
  | nil s => exact sound
  | cons allowed _ ih => exact ih (sound.next allowed)

theorem Run.others {s s' : State N} {moves : List (Move N)} (run : Run members s moves s') {x y : N}
    (own : ∀ m ∈ moves, m.actor = x) (differs : y ≠ x) : s'.seat y = s.seat y := by
  induction run with
  | nil s => rfl
  | cons _ _ ih =>
    have actor := own _ List.mem_cons_self
    rw [ih fun m member => own m (List.mem_cons_of_mem _ member), next_others _ (actor ▸ differs)]

theorem Run.append {s t u : State N} {first second : List (Move N)} (run : Run members s first t)
    (run' : Run members t second u) : Run members s (first ++ second) u := by
  induction run with
  | nil s => exact run'
  | cons allowed _ ih => exact .cons allowed (ih run')

theorem Run.single {s : State N} {move : Move N} (allowed : s.Allowed members move) :
    Run members s [move] (s.next move) := .cons allowed (.nil _)

end State

end Protocol

end Ballot
