import Mathlib.Data.List.Infix
import Mathlib.Data.List.Pairwise
import SimKv.Lib.Agreement
import SimKv.Lib.Ballot

set_option autoImplicit false

/-!
# Logs that outlive their leaders

Every voter of the ballot protocol keeps a log. The winner of a term grows its log, and the others take over a
beginning of it. A voter writes down what it has taken over without waiting and vouches for it once that is durable; a
crash leaves it at least the durable part of its log. What a majority has vouched for, up to an item of the winner's
own term, is in the log of every later winner.
-/

namespace Ballot

variable {N : Type}

def Move.Plain : Move N → Prop
  | .lead _ | .restart _ _ => False
  | _ => True

structure Seat.Onward (seat seat' : Seat N) : Prop where
  term : seat.now.term ≤ seat'.now.term
  hard : seat.hard.term ≤ seat'.hard.term
  leader : seat'.post = .leader → seat.post = .leader ∧ seat'.now.term = seat.now.term
  candidate : seat'.post = .candidate →
    seat.post = .candidate ∧ seat'.now.term = seat.now.term ∨ seat'.now.term = seat.now.term + 1

theorem Seat.Onward.refl (seat : Seat N) : seat.Onward seat where
  term := le_rfl
  hard := le_rfl
  leader leads := ⟨leads, rfl⟩
  candidate stands := .inl ⟨stands, rfl⟩

namespace State

variable [DecidableEq N] {s : State N} {members : Finset N}

theorem put_self (s : State N) (x : N) (seat : Seat N) : (s.put x seat).seat x = seat := Function.update_self ..

-- A vote that has been given out is for no later term than the voter's own, on disk or off.
theorem Sound.granted_le (sound : s.Sound members) {x c : N} {t : Nat} (given : (t, c) ∈ (s.seat x).granted) :
    t ≤ (s.seat x).hard.term ∧ t ≤ (s.seat x).now.term :=
  ⟨((sound.voter x).durable t c given).term_le, ((sound.voter x).now_after_granted given).term_le⟩

theorem Sound.onward (sound : s.Sound members) {move : Move N} (plain : move.Plain)
    (allowed : s.Allowed members move) (y : N) : (s.seat y).Onward ((s.next move).seat y) := by
  by_cases same : y = move.actor
  · subst same
    cases move with
    | adopt x term =>
      rw [Move.actor, State.next, put_self]
      exact ⟨le_of_lt allowed, le_rfl, (by intro leads; cases leads), (by intro stands; cases stands)⟩
    | yield x =>
      rw [Move.actor, State.next, put_self]
      exact ⟨le_rfl, le_rfl, (by intro leads; cases leads), (by intro stands; cases stands)⟩
    | campaign x =>
      rw [Move.actor, State.next, put_self]
      exact ⟨Nat.le_succ _, le_rfl, (by intro leads; cases leads), fun _ => .inr rfl⟩
    | done x h =>
      rw [Move.actor, State.next, put_self]
      refine ⟨le_rfl, ?_, fun leads => ⟨leads, rfl⟩, fun stands => .inl ⟨stands, rfl⟩⟩
      simp only [Seat.keep, Voter.done]
      split
      · next newer => exact ((sound.voter x).ordered _ (sound.voter x).held h allowed newer).term_le
      · exact le_rfl
    | announce x =>
      have seat : (s.next (.announce x)).seat x = (s.seat x).give (s.seat x).now.term x := s.put_self x _
      rw [Move.actor, seat]
      exact ⟨le_rfl, le_rfl, fun leads => ⟨leads, rfl⟩, fun stands => .inl ⟨stands, rfl⟩⟩
    | lead | restart => exact plain.elim
    | _ =>
      rw [Move.actor, State.next, put_self]
      exact ⟨le_rfl, le_rfl, fun leads => ⟨leads, rfl⟩, fun stands => .inl ⟨stands, rfl⟩⟩
  · rw [s.next_others same]
    exact .refl _

theorem Sound.term_le (sound : s.Sound members) {move : Move N} (alive : ∀ x h, move ≠ .restart x h)
    (allowed : s.Allowed members move) (y : N) : (s.seat y).now.term ≤ ((s.next move).seat y).now.term := by
  by_cases plain : move.Plain
  · exact (sound.onward plain allowed y).term
  · cases move with
    | lead x =>
      by_cases same : y = x
      · rw [same, State.next, put_self]
      · have still : (s.next (.lead x)).seat y = s.seat y := s.next_others same
        rw [still]
    | restart x h => exact absurd rfl (alive x h)
    | _ => exact absurd trivial plain

-- Without a crash no voter falls back to an earlier term.
theorem Run.term_le {s' : State N} {moves : List (Move N)} (run : Run members s moves s') (sound : s.Sound members)
    (alive : ∀ m ∈ moves, ∀ x h, m ≠ .restart x h) (y : N) : (s.seat y).now.term ≤ (s'.seat y).now.term := by
  induction run with
  | nil s => exact le_rfl
  | cons allowed _ ih =>
    exact (sound.term_le (alive _ List.mem_cons_self) allowed y).trans
      (ih (sound.next allowed) fun m member => alive m (List.mem_cons_of_mem _ member))

structure Tenure (s : State N) : Prop where
  own : ∀ e ∈ s.won, (e.term, e.winner) ∈ (s.seat e.winner).granted
  past : ∀ e ∈ s.won, e.term = (s.seat e.winner).now.term → (s.seat e.winner).post ≠ .candidate

theorem won_of_plain {move : Move N} (plain : move.Plain) : (s.next move).won = s.won := by
  cases move with
  | lead | restart => exact plain.elim
  | _ => rfl

theorem Tenure.next (tenure : s.Tenure) (sound : s.Sound members) {move : Move N} (allowed : s.Allowed members move) :
    (s.next move).Tenure := by
  have kept : ∀ e ∈ s.won, (e.term, e.winner) ∈ ((s.next move).seat e.winner).granted := fun e won =>
    s.next_granted move e.winner (tenure.own e won)
  by_cases plain : move.Plain
  · have won := s.won_of_plain plain
    refine ⟨fun e member => kept e (won ▸ member), fun e member same stands => ?_⟩
    rw [won] at member
    have onward := sound.onward plain allowed e.winner
    obtain ⟨stood, term⟩ | newer := onward.candidate stands
    · exact tenure.past e member (same.trans term) stood
    · have bound := (sound.granted_le (tenure.own e member)).2
      omega
  · cases move with
    | lead x =>
      obtain ⟨stands, self, _⟩ := allowed
      refine ⟨fun e member => ?_, fun e member same => ?_⟩
      · rcases List.mem_append.mp member with old | new
        · exact kept e old
        · rw [List.mem_singleton.mp new]
          exact s.next_granted (.lead x) x self
      · rcases List.mem_append.mp member with old | new
        · by_cases other : e.winner = x
          · rw [other]
            exact fun stands => by simp [State.next, put] at stands
          · have still : (s.next (.lead x)).seat e.winner = s.seat e.winner := s.next_others other
            rw [still] at same ⊢
            exact tenure.past e old same
        · rw [List.mem_singleton.mp new]
          exact fun stands => by simp [State.next, put] at stands
    | restart x h =>
      refine ⟨kept, fun e member same stands => ?_⟩
      by_cases other : e.winner = x
      · rw [other] at stands
        simp [State.next, put, Seat.follow] at stands
      · have still : (s.next (.restart x h)).seat e.winner = s.seat e.winner := s.next_others other
        rw [still] at same stands
        exact tenure.past e member same stands
    | _ => exact absurd trivial plain

-- No term is won twice.
theorem Tenure.fresh (tenure : s.Tenure) (sound : s.Sound members) {x : N} (allowed : s.Allowed members (.lead x)) :
    ∀ e ∈ s.won, e.term ≠ (s.seat x).now.term := by
  intro e member same
  have winner : e.winner = x :=
    (sound.next allowed).winner_unique (List.mem_append_left _ member)
      (List.mem_append_right _ (List.mem_singleton_self _)) same
  have past := tenure.past e member
  rw [winner] at past
  exact past same allowed.1

end State

end Ballot

namespace Succession

open Ballot Agreement

/-- A candidacy made known, with where the candidate's log ends. -/
structure Offer (N : Type) where
  term : Nat
  candidate : N
  lastTerm : Nat
  length : Nat

structure State (N E : Type) where
  ballot : Ballot.State N
  log : N → List E
  -- How much of its log a crash leaves a voter.
  durable : N → Nat
  -- How far a voter has taken over the log of a term's winner: as written down, and as vouched for.
  owed : N → Set (Nat × Nat)
  acked : N → Set (Nat × Nat)
  -- The log of each term's winner, and what it was when the term was won.
  lead : Nat → List E
  base : Nat → List E
  offers : Set (Offer N)
  -- How much of its log a voter knows to be settled.
  known : N → Nat

variable {N E : Type} (term : E → Nat)

def endTerm (l : List E) : Nat := (l.getLast?.map term).getD 0

def Offer.Covers (o : Offer N) (l : List E) : Prop :=
  endTerm term l < o.lastTerm ∨ o.lastTerm = endTerm term l ∧ l.length ≤ o.length

namespace State

variable (s : State N E)

def now (x : N) : Nat := (s.ballot.seat x).now.term

def hard (x : N) : Nat := (s.ballot.seat x).hard.term

def Stems (l : List E) : Prop := ∀ i a, l[i]? = some a → l.take (i + 1) = (s.lead (term a)).take (i + 1)

def Parts (t u i : Nat) : Prop := ∃ k ≤ i, ∃ a b, (s.lead t)[k]? = some a ∧ (s.lead u)[k]? = some b ∧ a ≠ b

def Overruled (n t i : Nat) : Prop :=
  ∃ j < n, ∃ e : Election N, s.ballot.won[j]? = some e ∧ t < e.term ∧ s.Parts t e.term i

def Ahead (last length t i : Nat) : Prop := ∀ a, (s.lead t)[i]? = some a → term a < last ∨ last = term a ∧ i < length

def vouched (x : N) : Set (Nat × Nat) := s.owed x ∪ s.acked x

def Agrees (x : N) (t i : Nat) : Prop := (s.log x).take (i + 1) = (s.lead t).take (i + 1)

def Committed [DecidableEq N] (members : Finset N) (t i : Nat) : Prop :=
  (∃ a, (s.lead t)[i]? = some a ∧ term a = t) ∧
    ∃ voters, Majority members voters ∧ ∀ v ∈ voters, ∃ m, i < m ∧ (t, m) ∈ s.acked v

def Settled [DecidableEq N] (members : Finset N) (t : Nat) (l : List E) : Prop :=
  l = [] ∨ ∃ u ≤ t, ∃ i, s.Committed term members u i ∧ l <+: (s.lead u).take (i + 1)

def Weighs (x : N) (o : Offer N) : Prop :=
  ∀ u m, (u, m) ∈ s.vouched x → u < o.term → ∀ i < m,
    s.Ahead term o.lastTerm o.length u i ∨ s.Overruled s.ballot.won.length u i

structure Grounds : Prop where
  stems : ∀ t, s.Stems term (s.lead t)
  ordered : ∀ t, ((s.lead t).map term).Pairwise (· ≤ ·)
  top : ∀ t, ∀ a ∈ s.lead t, term a ≤ t
  led : ∀ t, s.lead t ≠ [] → ∃ e ∈ s.ballot.won, e.term = t
  base : ∀ e ∈ s.ballot.won, s.base e.term <+: s.lead e.term
  -- A log that won an election stems from elections won before.
  earlier : ∀ (j : Nat) (e : Election N), s.ballot.won[j]? = some e → ∀ a ∈ s.base e.term,
    ∃ k < j, ∃ e' : Election N, s.ballot.won[k]? = some e' ∧ e'.term = term a ∧ term a < e.term

structure Holder [DecidableEq N] (members : Finset N) (x : N) : Prop where
  stems : s.Stems term (s.log x)
  within : ∀ a ∈ s.log x, term a ≤ s.now x
  leads : (s.ballot.seat x).post = .leader → s.lead (s.now x) = s.log x
  bound : ∀ t m, (t, m) ∈ s.vouched x → t ≤ s.now x ∧ m ≤ (s.lead t).length
  durable : ∀ t m, (t, m) ∈ s.acked x → t ≤ s.hard x
  holds : ∀ t m, (t, m) ∈ s.vouched x → ∀ i < m, s.Agrees x t i ∨ s.Overruled s.ballot.won.length t i
  kept : ∀ t m, (t, m) ∈ s.acked x → ∀ i < m,
    s.Agrees x t i ∧ i < s.durable x ∨ s.Overruled s.ballot.won.length t i
  votes : ∀ t c, (t, c) ∈ (s.ballot.seat x).pledged ∪ (s.ballot.seat x).granted →
    t ≤ s.now x ∧ ∃ o ∈ s.offers, o.term = t ∧ o.candidate = c ∧ s.Weighs term x o
  known : s.Settled term members (s.now x) ((s.log x).take (s.known x)) ∧ s.known x ≤ (s.log x).length

structure Candid [DecidableEq N] : Prop where
  given : ∀ o ∈ s.offers, (o.term, o.candidate) ∈ (s.ballot.seat o.candidate).granted
  standing : ∀ o ∈ s.offers, (s.ballot.seat o.candidate).post = .candidate → s.now o.candidate = o.term →
    o.lastTerm = endTerm term (s.log o.candidate) ∧ o.length = (s.log o.candidate).length
  asked : ∀ t c, (t, c) ∈ s.ballot.asked → ∃ o ∈ s.offers, o.term = t ∧ o.candidate = c

def Elected : Prop :=
  ∀ (j : Nat) (e : Election N), s.ballot.won[j]? = some e → ∀ v ∈ e.voters, ∀ u m, (u, m) ∈ s.vouched v → u < e.term → ∀ i < m,
    s.Ahead term (endTerm term (s.base e.term)) (s.base e.term).length u i ∨ s.Overruled j u i

structure Sound [DecidableEq N] (members : Finset N) : Prop where
  ballot : s.ballot.Sound members
  tenure : s.ballot.Tenure
  grounds : s.Grounds term
  holder : ∀ x, s.Holder term members x
  candid : s.Candid term
  elected : s.Elected term

end State

def State.fresh (b : Ballot.State N) : State N E where
  ballot := b
  log _ := []
  durable _ := 0
  owed _ := ∅
  acked _ := ∅
  lead _ := []
  base _ := []
  offers := ∅
  known _ := 0

theorem State.Sound.fresh [DecidableEq N] {b : Ballot.State N} {members : Finset N} (sound : b.Sound members)
    (won : b.won = []) (asked : b.asked = ∅)
    (quiet : ∀ x, (b.seat x).pledged = ∅ ∧ (b.seat x).granted = ∅ ∧ (b.seat x).post = .follower) :
    (State.fresh b : State N E).Sound term members where
  ballot := sound
  tenure := by
    constructor <;> rw [State.fresh, won] <;> exact List.forall_mem_nil _
  grounds := by
    refine ⟨?_, ?_, ?_, ?_, ?_, ?_⟩
    · intro t i a found
      cases found
    · exact fun _ => .nil
    · exact fun _ => List.forall_mem_nil _
    · exact fun _ some_ => absurd rfl some_
    · rw [State.fresh, won]
      exact List.forall_mem_nil _
    · intro j e found
      rw [State.fresh, won] at found
      cases found
  holder x := by
    obtain ⟨pledged, granted, post⟩ := quiet x
    refine ⟨?_, List.forall_mem_nil _, fun _ => rfl, ?_, ?_, ?_, ?_, ?_, .inl List.take_nil, le_rfl⟩
    · intro i a found
      cases found
    · rintro t m (given | given) <;> cases given
    · rintro t m given
      cases given
    · rintro t m (given | given) <;> cases given
    · rintro t m given
      cases given
    · intro t c given
      rw [State.fresh, pledged, granted] at given
      rcases given with given | given <;> cases given
  candid := by
    refine ⟨?_, ?_, ?_⟩
    · intro o offered
      cases offered
    · intro o offered
      cases offered
    · intro t c given
      rw [State.fresh, asked] at given
      cases given
  elected := by
    intro j e found
    rw [State.fresh, won] at found
    cases found

section Lists

variable {term} {s : State N E} {l l' : List E} {i k t u : Nat} {a b : E}

theorem take_eq_of_leads (pre : l <+: l') (inside : i < l.length) : l.take (i + 1) = l'.take (i + 1) := by
  obtain ⟨rest, rfl⟩ := pre
  rw [List.take_append_of_le_length inside]

theorem length_of_take_eq (same : l.take (i + 1) = l'.take (i + 1)) (inside : i < l'.length) : i < l.length := by
  have sizes := congrArg List.length same
  rw [List.length_take, List.length_take] at sizes
  omega

theorem getElem?_of_take_eq (same : l.take (i + 1) = l'.take (i + 1)) (within : k ≤ i) : l[k]? = l'[k]? := by
  have here : ∀ m : List E, (m.take (i + 1))[k]? = m[k]? := fun m => by
    rw [List.getElem?_take, if_pos (Nat.lt_succ_of_le within)]
  rw [← here l, same, here]

theorem take_of_take_eq (same : l.take (i + 1) = l'.take (i + 1)) (within : k ≤ i) :
    l.take (k + 1) = l'.take (k + 1) := by
  have both : ∀ m : List E, (m.take (i + 1)).take (k + 1) = m.take (k + 1) := fun m => by
    rw [List.take_take, Nat.min_eq_left (Nat.succ_le_succ within)]
  rw [← both l, same, both]

theorem State.Stems.take (stems : s.Stems term l) (k : Nat) : s.Stems term (l.take k) := by
  intro i a found
  obtain ⟨inside, _⟩ := List.getElem?_eq_some_iff.mp found
  rw [List.length_take] at inside
  rw [List.getElem?_take, if_pos (by omega)] at found
  rw [List.take_take, Nat.min_eq_left (by omega)]
  exact stems i a found

theorem State.Stems.shorten (stems : s.Stems term l) (pre : l' <+: l) : s.Stems term l' := by
  rw [List.prefix_iff_eq_take.mp pre]
  exact stems.take _

-- Lists that stem from winners are the same up to wherever they have items of the same term.
theorem State.Stems.matching (stems : s.Stems term l) (stems' : s.Stems term l') : Matching term l l' := by
  intro i a b here there same
  rw [stems i a here, stems' i b there, same]

theorem State.Stems.lead_getElem? (stems : s.Stems term l) (here : l[i]? = some a) :
    (s.lead (term a))[i]? = some a := by
  rw [← getElem?_of_take_eq (stems i a here) le_rfl, here]

theorem le_of_ordered (ordered : (l.map term).Pairwise (· ≤ ·)) (order : k ≤ i) (here : l[k]? = some a)
    (there : l[i]? = some b) : term a ≤ term b := by
  rcases order.lt_or_eq with before | rfl
  · obtain ⟨inside, rfl⟩ := List.getElem?_eq_some_iff.mp here
    obtain ⟨within, rfl⟩ := List.getElem?_eq_some_iff.mp there
    have pairs := List.pairwise_iff_getElem.mp ordered k i (by rwa [List.length_map]) (by rwa [List.length_map]) before
    simpa using pairs
  · rw [here] at there
    cases there
    exact le_rfl

-- The terms along a list that stems from winners never decrease.
theorem State.Grounds.ordered_of_stems (grounds : s.Grounds term) (stems : s.Stems term l) (order : k ≤ i)
    (here : l[k]? = some a) (there : l[i]? = some b) : term a ≤ term b := by
  have own := stems.lead_getElem? there
  have other := getElem?_of_take_eq (stems i b there) order
  exact le_of_ordered (grounds.ordered (term b)) order (other ▸ here) own

theorem exists_last (term : E → Nat) (some_ : l ≠ []) : ∃ z, l[l.length - 1]? = some z ∧ endTerm term l = term z := by
  refine ⟨l.getLast some_, ?_, ?_⟩
  · rw [← List.getLast?_eq_getElem?, List.getLast?_eq_some_getLast some_]
  · rw [endTerm, List.getLast?_eq_some_getLast some_, Option.map_some, Option.getD_some]

theorem State.Grounds.le_endTerm (grounds : s.Grounds term) (stems : s.Stems term l) (here : l[i]? = some a) :
    term a ≤ endTerm term l := by
  obtain ⟨inside, _⟩ := List.getElem?_eq_some_iff.mp here
  obtain ⟨z, last, same⟩ := exists_last term (List.ne_nil_of_length_pos (by omega : 0 < l.length))
  rw [same]
  exact grounds.ordered_of_stems stems (by omega) here last

end Lists

section Safety

variable {term} [DecidableEq N] {s : State N E} {members : Finset N} {t u i j : Nat} {e : Election N} {l l' : List E}

theorem State.Sound.lead_of_base (sound : s.Sound term members) (won : e ∈ s.ballot.won)
    (same : (s.base e.term).take (i + 1) = (s.lead t).take (i + 1)) (inside : i < (s.lead t).length) :
    (s.lead e.term).take (i + 1) = (s.lead t).take (i + 1) := by
  rw [← same]
  exact (take_eq_of_leads (sound.grounds.base e won) (length_of_take_eq same inside)).symm

/-- Whoever wins a later term has all that is committed, from the start. The induction is on the order in which
elections are won, not on their terms: a voter may have been overruled by the winner of a still later term. -/
theorem State.Sound.complete (sound : s.Sound term members) (committed : s.Committed term members t i)
    (won : s.ballot.won[j]? = some e) (later : t < e.term) :
    (s.base e.term).take (i + 1) = (s.lead t).take (i + 1) := by
  induction j using Nat.strongRecOn generalizing e with
  | ind j ih =>
    obtain ⟨⟨a, here, own⟩, voters, majority, vouch⟩ := committed
    have inside : i < (s.lead t).length := (List.getElem?_eq_some_iff.mp here).1
    have member := List.mem_of_getElem? won
    obtain ⟨v, first, second⟩ := majority.meet (sound.ballot.majority e member)
    obtain ⟨m, reaches, acked⟩ := vouch v (Finset.mem_inter.mp first).1
    have weighed := sound.elected j e won v (Finset.mem_inter.mp second).1 t m (.inr acked) later i reaches
    rcases weighed with ahead | ⟨k, before, e', won', later', parts⟩
    · have ahead := ahead a here
      rw [own] at ahead
      have some_ : s.base e.term ≠ [] := by
        intro none
        rw [none] at ahead
        simp [endTerm] at ahead
      obtain ⟨z, last, top⟩ := exists_last term some_
      have size := List.length_pos_of_ne_nil some_
      have stems := (sound.grounds.stems e.term).shorten (sound.grounds.base e member)
      have whole := stems _ z last
      rw [top] at ahead
      by_cases older : i < (s.base e.term).length
      · -- the winner's log is long enough
        rcases ahead with newer | ⟨same, -⟩
        · obtain ⟨k, before, e', won', last', -⟩ := sound.grounds.earlier j e won z (List.mem_of_getElem? last)
          have held := ih k before won' (by omega)
          have held := sound.lead_of_base (List.mem_of_getElem? won') held inside
          rw [last'] at held
          rw [← held]
          exact take_of_take_eq whole (by omega)
        · rw [same] at whole
          exact take_of_take_eq whole (by omega)
      · -- a shorter log ends in a later term, but the winner of that term has the item where the log ends
        have newer := ahead.resolve_right fun short => older short.2
        obtain ⟨k, before, e', won', last', -⟩ := sound.grounds.earlier j e won z (List.mem_of_getElem? last)
        have held := ih k before won' (by omega)
        have held := sound.lead_of_base (List.mem_of_getElem? won') held inside
        rw [last'] at held
        have found := stems.lead_getElem? last
        rw [getElem?_of_take_eq held (by omega)] at found
        have bound := le_of_ordered (sound.grounds.ordered t) (by omega) found here
        omega
    · have held := ih k before won' later'
      have held := sound.lead_of_base (List.mem_of_getElem? won') held inside
      obtain ⟨p, within, b, c, first, second, differs⟩ := parts
      rw [getElem?_of_take_eq held within, first, Option.some.injEq] at second
      exact absurd second differs

theorem State.Sound.lead_complete (sound : s.Sound term members) (committed : s.Committed term members t i)
    (won : e ∈ s.ballot.won) (later : t ≤ e.term) : (s.lead e.term).take (i + 1) = (s.lead t).take (i + 1) := by
  obtain ⟨j, inside, here⟩ := List.getElem_of_mem won
  obtain ⟨a, found, own⟩ := committed.1
  rcases later.lt_or_eq with newer | same
  · have found' := List.getElem?_eq_some_iff.mpr ⟨inside, here⟩
    exact sound.lead_of_base won (sound.complete committed found' newer) (List.getElem?_eq_some_iff.mp found).1
  · rw [same]

-- What is committed is in the durable part of the log of every voter of some majority.
theorem State.Sound.committed_durable (sound : s.Sound term members) (committed : s.Committed term members t i) :
    ∃ voters, Majority members voters ∧ ∀ v ∈ voters, s.Agrees v t i ∧ i < s.durable v := by
  obtain ⟨-, voters, majority, vouch⟩ := id committed
  refine ⟨voters, majority, fun v member => ?_⟩
  obtain ⟨m, reaches, acked⟩ := vouch v member
  rcases (sound.holder v).kept t m acked i reaches with held | ⟨k, -, e, won, later, parts⟩
  · exact held
  · -- nobody overrules what is committed
    have held := sound.lead_complete committed (List.mem_of_getElem? won) later.le
    obtain ⟨p, within, b, c, first, second, differs⟩ := parts
    rw [getElem?_of_take_eq held within, first, Option.some.injEq] at second
    exact absurd second differs

-- What is settled in a term is in the log of whoever wins it or a later one.
theorem State.Sound.settled_won (sound : s.Sound term members) (settled : s.Settled term members t l)
    (won : e ∈ s.ballot.won) (later : t ≤ e.term) : l <+: s.lead e.term := by
  rcases settled with rfl | ⟨u', order, i, committed, pre⟩
  · exact List.nil_prefix
  · have held := sound.lead_complete committed won (order.trans later)
    rw [← held] at pre
    exact pre.trans (List.take_prefix _ _)

theorem State.Sound.settled_lead (sound : s.Sound term members) (settled : s.Settled term members t l)
    (later : t ≤ u) (led : s.lead u ≠ []) : l <+: s.lead u := by
  obtain ⟨e, won, rfl⟩ := sound.grounds.led u led
  exact sound.settled_won settled won later

-- One of two settled lists is a beginning of the other.
theorem State.Sound.settled_agree (sound : s.Sound term members) (settled : s.Settled term members t l)
    (settled' : s.Settled term members u l') : l <+: l' ∨ l' <+: l := by
  have ends : ∀ {t : Nat} {l : List E}, s.Settled term members t l → l = [] ∨ ∃ w, s.lead w ≠ [] ∧
      s.Settled term members w l := by
    intro t l settled
    refine settled.imp id fun ⟨w, _, i, committed, pre⟩ => ⟨w, ?_, .inr ⟨w, le_rfl, i, committed, pre⟩⟩
    obtain ⟨a, found, _⟩ := committed.1
    exact List.ne_nil_of_mem (List.mem_of_getElem? found)
  rcases ends settled with rfl | ⟨w, led, own⟩
  · exact .inl List.nil_prefix
  · rcases ends settled' with rfl | ⟨w', led', own'⟩
    · exact .inr List.nil_prefix
    · rcases le_total w w' with order | order
      · exact List.prefix_or_prefix_of_prefix (sound.settled_lead own order led')
          (sound.settled_lead own' le_rfl led')
      · exact List.prefix_or_prefix_of_prefix (sound.settled_lead own le_rfl led)
          (sound.settled_lead own' order led)

end Safety

end Succession
