import SimKv.Lib.Succession

set_option autoImplicit false

/-!
# The moves of the succession protocol

What a voter does to its log and its word, and that every invariant of the protocol is kept.
-/

namespace Succession

open Ballot Agreement

variable {N E : Type}

structure Grows (s s' : State N E) : Prop where
  won : ∃ later, s'.ballot.won = s.ballot.won ++ later
  lead : ∀ t, s.lead t <+: s'.lead t
  base : ∀ e ∈ s.ballot.won, s'.base e.term = s.base e.term
  acked : ∀ x, s.acked x ⊆ s'.acked x
  offers : s.offers ⊆ s'.offers

namespace Grows

variable {term : E → Nat} {s s' s'' : State N E} {members : Finset N} {t u i n m : Nat} {l : List E} {a : E}

theorem refl (s : State N E) : Grows s s where
  won := ⟨[], (List.append_nil _).symm⟩
  lead _ := List.prefix_rfl
  base _ _ := rfl
  acked _ := subset_rfl
  offers := subset_rfl

theorem won_getElem? (grows : Grows s s') {j : Nat} {e : Election N} (here : s.ballot.won[j]? = some e) :
    s'.ballot.won[j]? = some e := by
  obtain ⟨later, won⟩ := grows.won
  rw [won, List.getElem?_append_left (List.getElem?_eq_some_iff.mp here).1, here]

theorem won_mem (grows : Grows s s') {e : Election N} (member : e ∈ s.ballot.won) : e ∈ s'.ballot.won := by
  obtain ⟨later, won⟩ := grows.won
  rw [won]
  exact List.mem_append_left _ member

theorem length_won (grows : Grows s s') : s.ballot.won.length ≤ s'.ballot.won.length := by
  obtain ⟨later, won⟩ := grows.won
  rw [won, List.length_append]
  exact Nat.le_add_right _ _

theorem lead_getElem? (grows : Grows s s') (here : (s.lead t)[i]? = some a) : (s'.lead t)[i]? = some a := by
  have inside := (List.getElem?_eq_some_iff.mp here).1
  rw [← getElem?_of_take_eq (take_eq_of_leads (grows.lead t) inside) le_rfl, here]

theorem lead_take (grows : Grows s s') (inside : i < (s.lead t).length) :
    (s'.lead t).take (i + 1) = (s.lead t).take (i + 1) :=
  (take_eq_of_leads (grows.lead t) inside).symm

theorem trans (first : Grows s s') (second : Grows s' s'') : Grows s s'' where
  won := by
    obtain ⟨mid, won⟩ := first.won
    obtain ⟨later, won'⟩ := second.won
    exact ⟨mid ++ later, by rw [won', won, List.append_assoc]⟩
  lead t := (first.lead t).trans (second.lead t)
  base e member := (second.base e (first.won_mem member)).trans (first.base e member)
  acked x := (first.acked x).trans (second.acked x)
  offers := first.offers.trans second.offers

theorem stems (grows : Grows s s') (stems : s.Stems term l) : s'.Stems term l := by
  intro i a here
  have found := stems.lead_getElem? here
  rw [grows.lead_take (List.getElem?_eq_some_iff.mp found).1]
  exact stems i a here

theorem overruled (grows : Grows s s') (overruled : s.Overruled n t i) (longer : n ≤ m) : s'.Overruled m t i := by
  obtain ⟨j, before, e, won, later, k, within, a, b, first, second, differs⟩ := overruled
  exact ⟨j, before.trans_le longer, e, grows.won_getElem? won, later, k, within, a, b, grows.lead_getElem? first,
    grows.lead_getElem? second, differs⟩

theorem ahead (grows : Grows s s') {last length : Nat} (ahead : s.Ahead term last length t i)
    (inside : i < (s.lead t).length) : s'.Ahead term last length t i := by
  intro a here
  rw [← getElem?_of_take_eq (grows.lead_take inside).symm le_rfl] at here
  exact ahead a here

theorem agrees (grows : Grows s s') {x : N} (agrees : s.Agrees x t i) (inside : i < (s.lead t).length)
    (same : s'.log x = s.log x) : s'.Agrees x t i := by
  rw [State.Agrees, same, grows.lead_take inside]
  exact agrees

variable [DecidableEq N]

theorem committed (grows : Grows s s') (committed : s.Committed term members t i) :
    s'.Committed term members t i := by
  obtain ⟨⟨a, here, own⟩, voters, majority, vouch⟩ := committed
  refine ⟨⟨a, grows.lead_getElem? here, own⟩, voters, majority, fun v member => ?_⟩
  obtain ⟨m, reaches, acked⟩ := vouch v member
  exact ⟨m, reaches, grows.acked v acked⟩

theorem settled (grows : Grows s s') (settled : s.Settled term members t l) (later : t ≤ u) :
    s'.Settled term members u l := by
  refine settled.imp id ?_
  rintro ⟨w, order, i, committed, pre⟩
  obtain ⟨a, here, -⟩ := committed.1
  refine ⟨w, order.trans later, i, grows.committed committed, ?_⟩
  rwa [grows.lead_take (List.getElem?_eq_some_iff.mp here).1]

end Grows

variable [DecidableEq N] (term : E → Nat)

inductive Move (N E : Type) where
  | cast (move : Ballot.Move N)
  | append (x : N) (a : E)
  | take (x : N) (k : Nat) (l : List E) (durable : Nat)
  | owe (x : N) (m : Nat)
  | ack (x : N) (t m : Nat)
  | secure (x : N) (durable : Nat)
  | learn (x : N) (k : Nat)
  | restart (x : N) (h : Ballot.Hard N) (l : List E)

def Move.actor : Move N E → N
  | .cast move => move.actor
  | .append x _ | .take x _ _ _ | .owe x _ | .ack x _ _ | .secure x _ | .learn x _ | .restart x _ _ => x

namespace State

variable (s : State N E)

def Meets (x c : N) : Prop := ∃ o ∈ s.offers, o.term = s.now x ∧ o.candidate = c ∧ o.Covers term (s.log x)

def Castable : Ballot.Move N → Prop
  | .vote x c | .renew x c => s.Meets term x c
  | .restart _ _ => False
  | _ => True

def Allowed [DecidableEq E] (members : Finset N) : Move N E → Prop
  | .cast move => s.ballot.Allowed members move ∧ s.Castable term move
  | .append x a => (s.ballot.seat x).post = .leader ∧ term a = s.now x
  | .take x k l durable => (s.ballot.seat x).post = .follower ∧ TakesOver (s.lead (s.now x)) k (s.log x) l ∧
      (k ≤ agreed (s.log x) (s.lead (s.now x)) → s.durable x ≤ durable) ∧
      min (s.durable x) (agreed (s.log x) (s.lead (s.now x))) ≤ durable
  | .owe x m => m ≤ agreed (s.log x) (s.lead (s.now x))
  | .ack x t m => t ≤ s.hard x ∧ m ≤ s.durable x ∧
      ((∃ k, m ≤ k ∧ (t, k) ∈ s.owed x) ∨ t = s.now x ∧ m ≤ agreed (s.log x) (s.lead t))
  | .secure x durable => s.durable x ≤ durable
  | .learn x k => k ≤ (s.log x).length ∧ s.Settled term members (s.now x) ((s.log x).take k)
  | .restart x h l => s.ballot.Allowed members (.restart x h) ∧ s.Stems term l ∧ (∀ a ∈ l, term a ≤ h.term) ∧
      (s.log x).take (s.durable x) <+: l

def offersAfter : Ballot.Move N → Set (Offer N)
  | .announce x => insert ⟨s.now x, x, endTerm term (s.log x), (s.log x).length⟩ s.offers
  | _ => s.offers

def leadAfter (lead : Nat → List E) : Ballot.Move N → Nat → List E
  | .lead x => Function.update lead (s.now x) (s.log x)
  | _ => lead

def next : Move N E → State N E
  | .cast move =>
      { s with
        ballot := s.ballot.next move
        offers := s.offersAfter term move
        lead := s.leadAfter s.lead move
        base := s.leadAfter s.base move }
  | .append x a =>
      { s with
        log := Function.update s.log x (s.log x ++ [a])
        lead := Function.update s.lead (s.now x) (s.log x ++ [a]) }
  | .take x _ l durable =>
      { s with
        log := Function.update s.log x l
        durable := Function.update s.durable x durable }
  | .owe x m => { s with owed := Function.update s.owed x (insert (s.now x, m) (s.owed x)) }
  | .ack x t m => { s with acked := Function.update s.acked x (insert (t, m) (s.acked x)) }
  | .secure x durable => { s with durable := Function.update s.durable x durable }
  | .learn x k => { s with known := Function.update s.known x k }
  | .restart x h l =>
      { s with
        ballot := s.ballot.next (.restart x h)
        log := Function.update s.log x l
        durable := Function.update s.durable x l.length
        owed := Function.update s.owed x ∅
        known := Function.update s.known x 0 }

end State

structure SameAt (s s' : State N E) (x : N) : Prop where
  seat : s'.ballot.seat x = s.ballot.seat x
  log : s'.log x = s.log x
  durable : s'.durable x = s.durable x
  owed : s'.owed x = s.owed x
  acked : s'.acked x = s.acked x
  known : s'.known x = s.known x

omit [DecidableEq N] in
theorem SameAt.trans {s s' u : State N E} {x : N} (first : SameAt s s' x) (second : SameAt s' u x) : SameAt s u x where
  seat := second.seat.trans first.seat
  log := second.log.trans first.log
  durable := second.durable.trans first.durable
  owed := second.owed.trans first.owed
  acked := second.acked.trans first.acked
  known := second.known.trans first.known

namespace State

variable {term} {s s' : State N E} {members : Finset N} {x : N}

theorem Holder.inside (holder : s.Holder term members x) {t m i : Nat} (vouched : (t, m) ∈ s.vouched x) (short : i < m) :
    i < (s.lead t).length := short.trans_le (holder.bound t m vouched).2

theorem Holder.weighs (holder : s.Holder term members x) (grows : Grows s s') (vouched : s'.vouched x ⊆ s.vouched x)
    {o : Offer N} (weighs : s.Weighs term x o) : s'.Weighs term x o := by
  intro u m given older i short
  have before := vouched given
  rcases weighs u m before older i short with ahead | overruled
  · exact .inl (grows.ahead ahead (holder.inside before short))
  · exact .inr (grows.overruled overruled grows.length_won)

-- A voter whose log and word stay as they are.
theorem Holder.carry (holder : s.Holder term members x) (grows : Grows s s') (log : s'.log x = s.log x)
    (durable : s.durable x ≤ s'.durable x) (owed : s'.owed x = s.owed x) (acked : s'.acked x = s.acked x)
    (known : s'.known x = s.known x) (now : s.now x ≤ s'.now x) (hard : s.hard x ≤ s'.hard x)
    (leads : (s'.ballot.seat x).post = .leader → s'.lead (s'.now x) = s.log x)
    (votes : ∀ t c, (t, c) ∈ (s'.ballot.seat x).pledged ∪ (s'.ballot.seat x).granted →
      (t, c) ∈ (s.ballot.seat x).pledged ∪ (s.ballot.seat x).granted ∨
        t ≤ s'.now x ∧ ∃ o ∈ s'.offers, o.term = t ∧ o.candidate = c ∧ s.Weighs term x o) :
    s'.Holder term members x := by
  have vouched : s'.vouched x = s.vouched x := by rw [vouched, vouched, owed, acked]
  constructor
  case stems =>
    rw [log]
    exact grows.stems holder.stems
  case within =>
    rw [log]
    exact fun a member => (holder.within a member).trans now
  case leads =>
    rw [log]
    exact leads
  case bound =>
    rw [vouched]
    intro t m given
    obtain ⟨older, reaches⟩ := holder.bound t m given
    exact ⟨older.trans now, reaches.trans (grows.lead t).length_le⟩
  case durable =>
    rw [acked]
    exact fun t m given => (holder.durable t m given).trans hard
  case holds =>
    rw [vouched]
    intro t m given i short
    rcases holder.holds t m given i short with agrees | overruled
    · exact .inl (grows.agrees agrees (holder.inside given short) log)
    · exact .inr (grows.overruled overruled grows.length_won)
  case kept =>
    rw [acked]
    intro t m given i short
    rcases holder.kept t m given i short with ⟨agrees, safe⟩ | overruled
    · exact .inl ⟨grows.agrees agrees (holder.inside (.inr given) short) log, safe.trans_le durable⟩
    · exact .inr (grows.overruled overruled grows.length_won)
  case votes =>
    intro t c given
    rcases votes t c given with old | ⟨older, o, offered, same, whose, weighs⟩
    · obtain ⟨older, o, offered, same, whose, weighs⟩ := holder.votes t c old
      exact ⟨older.trans now, o, grows.offers offered, same, whose, holder.weighs grows vouched.subset weighs⟩
    · exact ⟨older, o, offered, same, whose, holder.weighs grows vouched.subset weighs⟩
  case known =>
    rw [log, known]
    exact ⟨grows.settled holder.known.1 now, holder.known.2⟩

theorem Holder.same (holder : s.Holder term members x) (grows : Grows s s') (same : SameAt s s' x)
    (reigns : (s.ballot.seat x).post = .leader → s'.lead (s.now x) = s.lead (s.now x)) :
    s'.Holder term members x := by
  have now : s'.now x = s.now x := by rw [State.now, State.now, same.seat]
  have hard : s'.hard x = s.hard x := by rw [State.hard, State.hard, same.seat]
  refine holder.carry grows same.log same.durable.ge same.owed same.acked same.known now.ge hard.ge ?_ ?_
  · intro leads
    rw [same.seat] at leads
    rw [now, reigns leads, holder.leads leads]
  · intro t c given
    rw [same.seat] at given
    exact .inl given

theorem Sound.step (sound : s.Sound term members) (x : N) (grows : Grows s s') (ballot : s'.ballot.Sound members)
    (tenure : s'.ballot.Tenure) (grounds : s'.Grounds term) (others : ∀ y, y ≠ x → SameAt s s' y)
    (reigns : ∀ y, y ≠ x → (s.ballot.seat y).post = .leader → s'.lead (s.now y) = s.lead (s.now y))
    (holder : s'.Holder term members x) (candid : s'.Candid term) (elected : s'.Elected term) :
    s'.Sound term members where
  ballot := ballot
  tenure := tenure
  grounds := grounds
  holder y := by
    by_cases same : y = x
    · rw [same]
      exact holder
    · exact (sound.holder y).same grows (others y same) (reigns y same)
  candid := candid
  elected := elected

-- A voter can only be late with its word for a term it was in before it voted.
theorem Sound.elected_mono (sound : s.Sound term members) (grows : Grows s s') (won : s'.ballot.won = s.ballot.won)
    (vouched : ∀ y u m, (u, m) ∈ s'.vouched y → (∃ k, m ≤ k ∧ (u, k) ∈ s.vouched y) ∨ s.now y ≤ u) :
    s'.Elected term := by
  intro j e here v voted u m given older i short
  rw [won] at here
  have member := List.mem_of_getElem? here
  rcases vouched v u m given with ⟨k, longer, before⟩ | late
  · rcases sound.elected j e here v voted u k before older i (short.trans_le longer) with ahead | overruled
    · rw [grows.base e member]
      exact .inl (grows.ahead ahead ((sound.holder v).inside before (short.trans_le longer)))
    · exact .inr (grows.overruled overruled le_rfl)
  · have bound := (sound.ballot.granted_le (sound.ballot.voters e member v voted)).2
    exact absurd (late.trans_lt older) (not_lt.mpr bound)

theorem Candid.carry (candid : s.Candid term) (ballot : s'.ballot = s.ballot) (offers : s'.offers = s.offers)
    (log : ∀ y, (s.ballot.seat y).post = .candidate → s'.log y = s.log y) : s'.Candid term where
  given := by
    rw [ballot, offers]
    exact candid.given
  standing := by
    rw [ballot, offers]
    intro o offered stands same
    rw [log _ stands]
    rw [now, ballot] at same
    exact candid.standing o offered stands same
  asked := by
    rw [ballot, offers]
    exact candid.asked

omit [DecidableEq N] in
theorem Grounds.congr (grounds : s.Grounds term) (ballot : s'.ballot.won = s.ballot.won) (lead : s'.lead = s.lead)
    (base : s'.base = s.base) : s'.Grounds term where
  stems := by
    unfold Stems
    rw [lead]
    exact grounds.stems
  ordered := by
    rw [lead]
    exact grounds.ordered
  top := by
    rw [lead]
    exact grounds.top
  led := by
    rw [lead, ballot]
    exact grounds.led
  base := by
    rw [lead, ballot, base]
    exact grounds.base
  earlier := by
    rw [ballot, base]
    exact grounds.earlier

-- Whoever passes the election restriction is ahead of all a voter has vouched for.
theorem Holder.weighs_of_covers (holder : s.Holder term members x) (grounds : s.Grounds term) {o : Offer N}
    (covers : o.Covers term (s.log x)) : s.Weighs term x o := by
  intro u m given _ i short
  refine (holder.holds u m given i short).imp_left fun agrees a here => ?_
  have own : (s.log x)[i]? = some a := (getElem?_of_take_eq agrees le_rfl).trans here
  have top := grounds.le_endTerm holder.stems own
  have inside := (List.getElem?_eq_some_iff.mp own).1
  rcases covers with newer | ⟨same, longer⟩
  · exact .inl (top.trans_lt newer)
  · rcases top.lt_or_eq with older | level
    · exact .inl (same ▸ older)
    · exact .inr ⟨same.trans level.symm, inside.trans_le longer⟩

omit [DecidableEq N] in
theorem leadAfter_of_plain (lead : Nat → List E) {move : Ballot.Move N} (plain : move.Plain) :
    s.leadAfter lead move = lead := by
  cases move with
  | lead => exact plain.elim
  | _ => rfl

omit [DecidableEq N] in
theorem offers_subset (move : Ballot.Move N) : s.offers ⊆ s.offersAfter term move := by
  cases move with
  | announce x => exact Set.subset_insert _ _
  | _ => exact subset_rfl

theorem grows_cast {move : Ballot.Move N} (plain : move.Plain) :
    Grows s (s.next term (.cast move)) where
  won := ⟨[], by rw [List.append_nil]; exact s.ballot.won_of_plain plain⟩
  lead t := by
    have same : (s.next term (.cast move)).lead = s.lead := leadAfter_of_plain _ plain
    rw [same]
  base e _ := congrFun (leadAfter_of_plain s.base plain) e.term
  acked _ := subset_rfl
  offers := offers_subset move

-- What a voter has pledged or given out after a move, it had before, or it has weighed it now.
theorem Sound.votes_cast (sound : s.Sound term members) {move : Ballot.Move N} (plain : move.Plain)
    (allowed : s.ballot.Allowed members move) (castable : s.Castable term move) (t : Nat) (c : N)
    (given : (t, c) ∈ ((s.ballot.next move).seat move.actor).pledged ∪ ((s.ballot.next move).seat move.actor).granted) :
    (t, c) ∈ (s.ballot.seat move.actor).pledged ∪ (s.ballot.seat move.actor).granted ∨
      t ≤ s.now move.actor ∧ ∃ o ∈ s.offersAfter term move, o.term = t ∧ o.candidate = c ∧ s.Weighs term move.actor o := by
  have meets : ∀ {x c}, s.Meets term x c → s.now x ≤ s.now x ∧
      ∃ o ∈ s.offers, o.term = s.now x ∧ o.candidate = c ∧ s.Weighs term x o := by
    rintro x c ⟨o, offered, same, whose, covers⟩
    exact ⟨le_rfl, o, offered, same, whose, (sound.holder x).weighs_of_covers sound.grounds covers⟩
  cases move with
  | vote x c' | renew x c' =>
    rw [Ballot.Move.actor, Ballot.State.next, Ballot.State.put_self] at given
    rcases given with (new | old) | old
    · cases new
      exact .inr (meets castable)
    · exact .inl (.inl old)
    · exact .inl (.inr old)
  | announce x =>
    have seat : (s.ballot.next (.announce x)).seat x = (s.ballot.seat x).give (s.ballot.seat x).now.term x :=
      s.ballot.put_self x _
    rw [Ballot.Move.actor, seat] at given
    rcases given with old | new | old
    · exact .inl (.inl old)
    · cases new
      exact .inr ⟨le_rfl, _, .inl rfl, rfl, rfl,
        (sound.holder _).weighs_of_covers sound.grounds (.inr ⟨rfl, le_rfl⟩)⟩
    · exact .inl (.inr old)
  | grant x t' c' =>
    rw [Ballot.Move.actor, Ballot.State.next, Ballot.State.put_self] at given
    rcases given with old | new | old
    · exact .inl (.inl old)
    · cases new
      exact .inl (.inl allowed.1)
    · exact .inl (.inr old)
  | lead | restart => exact plain.elim
  | _ =>
    rw [Ballot.Move.actor, Ballot.State.next, Ballot.State.put_self] at given
    exact .inl given

theorem Sound.candid_cast (sound : s.Sound term members) {move : Ballot.Move N} (plain : move.Plain)
    (allowed : s.ballot.Allowed members move) : (s.next term (.cast move)).Candid term where
  given o offered := by
    have old : o ∈ s.offers → (o.term, o.candidate) ∈ ((s.ballot.next move).seat o.candidate).granted :=
      fun offered => s.ballot.next_granted move _ (sound.candid.given o offered)
    cases move with
    | announce x =>
      rcases offered with new | before
      · cases new
        have seat : (s.ballot.next (.announce x)).seat x = (s.ballot.seat x).give (s.ballot.seat x).now.term x :=
          s.ballot.put_self x _
        rw [next, seat]
        exact .inl rfl
      · exact old before
    | _ => exact old offered
  standing o offered stands same := by
    have old : o ∈ s.offers → o.lastTerm = endTerm term (s.log o.candidate) ∧
        o.length = (s.log o.candidate).length := by
      intro before
      rcases (sound.ballot.onward plain allowed o.candidate).candidate stands with ⟨stood, term⟩ | newer
      · exact sound.candid.standing o before stood (term.symm.trans same)
      · have bound := (sound.ballot.granted_le (sound.candid.given o before)).2
        have here : ((s.ballot.next move).seat o.candidate).now.term = o.term := same
        omega
    cases move with
    | announce x =>
      rcases offered with new | before
      · cases new
        exact ⟨rfl, rfl⟩
      · exact old before
    | _ => exact old offered
  asked t c asked := by
    have old : (t, c) ∈ s.ballot.asked → ∃ o ∈ s.offersAfter term move, o.term = t ∧ o.candidate = c := by
      intro before
      obtain ⟨o, offered, same, whose⟩ := sound.candid.asked t c before
      exact ⟨o, offers_subset move offered, same, whose⟩
    cases move with
    | announce x =>
      rcases asked with new | before
      · cases new
        exact ⟨_, .inl rfl, rfl, rfl⟩
      · exact old before
    | _ => exact old asked

theorem Sound.castPlain (sound : s.Sound term members) {move : Ballot.Move N} (plain : move.Plain)
    (allowed : s.ballot.Allowed members move) (castable : s.Castable term move) :
    (s.next term (.cast move)).Sound term members := by
  have grows : Grows s (s.next term (.cast move)) := grows_cast plain
  have won : (s.next term (.cast move)).ballot.won = s.ballot.won := s.ballot.won_of_plain plain
  have lead : (s.next term (.cast move)).lead = s.lead := leadAfter_of_plain _ plain
  have onward := sound.ballot.onward plain allowed move.actor
  refine sound.step move.actor grows (sound.ballot.next allowed) (sound.tenure.next sound.ballot allowed)
    (sound.grounds.congr won lead (leadAfter_of_plain _ plain)) ?_ ?_ ?_ (sound.candid_cast plain allowed) ?_
  · intro y other
    exact ⟨s.ballot.next_others other, rfl, rfl, rfl, rfl, rfl⟩
  · intro y _ _
    rw [lead]
  · refine (sound.holder move.actor).carry grows rfl le_rfl rfl rfl rfl onward.term onward.hard ?_ ?_
    · intro leads
      obtain ⟨led, same⟩ := onward.leader leads
      have now : (s.next term (.cast move)).now move.actor = s.now move.actor := same
      rw [lead, now]
      exact (sound.holder move.actor).leads led
    · intro t c given
      refine (sound.votes_cast plain allowed castable t c given).imp id ?_
      rintro ⟨older, offer⟩
      exact ⟨older.trans onward.term, offer⟩
  · exact sound.elected_mono grows won fun y u m given => .inl ⟨m, le_rfl, given⟩

section Winning

variable (sound : s.Sound term members) (allowed : s.ballot.Allowed members (.lead x))

include sound allowed

theorem unled : s.lead (s.now x) = [] := by
  by_contra some_
  obtain ⟨e, member, same⟩ := sound.grounds.led _ some_
  exact sound.tenure.fresh sound.ballot allowed e member same

theorem grows_lead : Grows s (s.next term (.cast (.lead x))) where
  won := ⟨_, rfl⟩
  lead t := by
    by_cases same : t = s.now x
    · rw [same, unled sound allowed]
      exact List.nil_prefix
    · have still : (s.next term (.cast (.lead x))).lead t = s.lead t := Function.update_of_ne same _ _
      rw [still]
  base e member := Function.update_of_ne (sound.tenure.fresh sound.ballot allowed e member) _ _
  acked _ := subset_rfl
  offers := subset_rfl

theorem grounds_lead : (s.next term (.cast (.lead x))).Grounds term := by
  have grows := grows_lead sound allowed
  have fresh := sound.tenure.fresh sound.ballot allowed
  have holder := sound.holder x
  have won : (s.next term (.cast (.lead x))).ballot.won = s.ballot.won ++ [⟨s.now x, x, (s.ballot.seat x).votes⟩] := rfl
  have own : (s.next term (.cast (.lead x))).lead (s.now x) = s.log x := Function.update_self ..
  have ownBase : (s.next term (.cast (.lead x))).base (s.now x) = s.log x := Function.update_self ..
  have other : ∀ {t}, t ≠ s.now x → (s.next term (.cast (.lead x))).lead t = s.lead t := fun differs =>
    Function.update_of_ne differs _ _
  constructor
  case stems =>
    intro t
    by_cases same : t = s.now x
    · rw [same, own]
      exact grows.stems holder.stems
    · rw [other same]
      exact grows.stems (sound.grounds.stems t)
  case ordered =>
    intro t
    by_cases same : t = s.now x
    · rw [same, own, List.pairwise_iff_getElem]
      intro k i first second before
      rw [List.length_map] at first second
      rw [List.getElem_map, List.getElem_map]
      exact sound.grounds.ordered_of_stems holder.stems before.le (List.getElem?_eq_getElem first)
        (List.getElem?_eq_getElem second)
    · rw [other same]
      exact sound.grounds.ordered t
  case top =>
    intro t
    by_cases same : t = s.now x
    · rw [same, own]
      exact holder.within
    · rw [other same]
      exact sound.grounds.top t
  case led =>
    intro t some_
    by_cases same : t = s.now x
    · rw [same, won]
      exact ⟨_, List.mem_append_right _ (List.mem_singleton_self _), rfl⟩
    · rw [other same] at some_
      obtain ⟨e, member, term⟩ := sound.grounds.led t some_
      exact ⟨e, grows.won_mem member, term⟩
  case base =>
    intro e member
    rw [won] at member
    rcases List.mem_append.mp member with old | new
    · rw [grows.base e old, other (fresh e old)]
      exact sound.grounds.base e old
    · rw [List.mem_singleton.mp new, own, ownBase]
  case earlier =>
    intro j e here a within
    rw [won] at here
    by_cases old : j < s.ballot.won.length
    · rw [List.getElem?_append_left old] at here
      rw [grows.base e (List.mem_of_getElem? here)] at within
      obtain ⟨k, before, e', won', rest⟩ := sound.grounds.earlier j e here a within
      exact ⟨k, before, e', grows.won_getElem? won', rest⟩
    · rw [List.getElem?_append_right (not_lt.mp old)] at here
      have newest : j - s.ballot.won.length = 0 := by
        have inside := (List.getElem?_eq_some_iff.mp here).1
        rw [List.length_singleton] at inside
        omega
      rw [newest, List.getElem?_cons_zero, Option.some.injEq] at here
      subst here
      rw [ownBase] at within
      obtain ⟨i, inside, found⟩ := List.getElem_of_mem within
      have stem := holder.stems.lead_getElem? (List.getElem?_eq_some_iff.mpr ⟨inside, found⟩)
      obtain ⟨e', member, same⟩ := sound.grounds.led (term a) (List.ne_nil_of_mem (List.mem_of_getElem? stem))
      obtain ⟨k, place, found'⟩ := List.getElem_of_mem member
      have older : term a < s.now x := lt_of_le_of_ne (holder.within a within) (same ▸ fresh e' member)
      exact ⟨k, by omega, e', grows.won_getElem? (List.getElem?_eq_some_iff.mpr ⟨place, found'⟩), same, older⟩

theorem elected_lead : (s.next term (.cast (.lead x))).Elected term := by
  have grows := grows_lead sound allowed
  have won : (s.next term (.cast (.lead x))).ballot.won = s.ballot.won ++ [⟨s.now x, x, (s.ballot.seat x).votes⟩] := rfl
  intro j e here v voted u m given older i short
  rw [won] at here
  by_cases old : j < s.ballot.won.length
  · rw [List.getElem?_append_left old] at here
    rw [grows.base e (List.mem_of_getElem? here)]
    rcases sound.elected j e here v voted u m given older i short with ahead | overruled
    · exact .inl (grows.ahead ahead ((sound.holder v).inside given short))
    · exact .inr (grows.overruled overruled le_rfl)
  · rw [List.getElem?_append_right (not_lt.mp old)] at here
    have newest : j - s.ballot.won.length = 0 := by
      have inside := (List.getElem?_eq_some_iff.mp here).1
      rw [List.length_singleton] at inside
      omega
    rw [newest, List.getElem?_cons_zero, Option.some.injEq] at here
    subst here
    obtain ⟨stands, self, _⟩ := allowed
    have granted : (s.now x, x) ∈ (s.ballot.seat v).granted := by
      rcases sound.ballot.votes x stands v voted with rfl | given
      · exact self
      · exact given
    obtain ⟨_, o, offered, same, rfl, weighs⟩ := (sound.holder v).votes _ _ (.inr granted)
    obtain ⟨last, size⟩ := sound.candid.standing o offered stands same.symm
    have base : (s.next term (.cast (.lead o.candidate))).base (s.now o.candidate) = s.log o.candidate :=
      Function.update_self ..
    rw [base, ← last, ← size]
    rcases weighs u m given (same ▸ older) i short with ahead | overruled
    · exact .inl (grows.ahead ahead ((sound.holder v).inside given short))
    · exact .inr (grows.overruled overruled (by omega))

theorem Sound.castLead : (s.next term (.cast (.lead x))).Sound term members := by
  have grows := grows_lead sound allowed
  have seat : (s.next term (.cast (.lead x))).ballot.seat x = { s.ballot.seat x with post := .leader } :=
    s.ballot.put_self x _
  have now : (s.next term (.cast (.lead x))).now x = s.now x := by rw [State.now, seat, State.now]
  have hard : (s.next term (.cast (.lead x))).hard x = s.hard x := by rw [State.hard, seat, State.hard]
  refine sound.step x grows (sound.ballot.next allowed) (sound.tenure.next sound.ballot allowed)
    (grounds_lead sound allowed) ?_ ?_ ?_ ?_ (elected_lead sound allowed)
  · intro y other
    have seat : (s.ballot.next (.lead x)).seat y = s.ballot.seat y := s.ballot.next_others other
    exact ⟨seat, rfl, rfl, rfl, rfl, rfl⟩
  · intro y _ leads
    obtain ⟨e, member, same, _⟩ := sound.ballot.leader y leads
    have fresh := sound.tenure.fresh sound.ballot allowed e member
    rw [same] at fresh
    exact Function.update_of_ne fresh _ _
  · refine (sound.holder x).carry grows rfl le_rfl rfl rfl rfl now.ge hard.ge ?_ ?_
    · intro _
      rw [now]
      exact Function.update_self ..
    · intro t c given
      rw [seat] at given
      exact .inl given
  · constructor
    · exact fun o offered => s.ballot.next_granted (.lead x) _ (sound.candid.given o offered)
    · intro o offered stands same
      by_cases self : o.candidate = x
      · rw [self, seat] at stands
        cases stands
      · have still : (s.ballot.next (.lead x)).seat o.candidate = s.ballot.seat o.candidate :=
          s.ballot.next_others self
        have now : (s.next term (.cast (.lead x))).now o.candidate = s.now o.candidate :=
          congrArg (fun seat : Seat N => seat.now.term) still
        exact sound.candid.standing o offered (still ▸ stands) (now ▸ same)
    · exact sound.candid.asked

end Winning

theorem Sound.led_of_leader (sound : s.Sound term members) (leads : (s.ballot.seat x).post = .leader) :
    ∃ e ∈ s.ballot.won, e.term = s.now x ∧ e.winner = x := sound.ballot.leader x leads

-- Two voters do not lead in the same term.
theorem Sound.reigns_alone (sound : s.Sound term members) {y : N} (leads : (s.ballot.seat x).post = .leader)
    (leads' : (s.ballot.seat y).post = .leader) (same : s.now x = s.now y) : x = y := by
  obtain ⟨e, member, term, winner⟩ := sound.led_of_leader leads
  obtain ⟨e', member', term', winner'⟩ := sound.led_of_leader leads'
  rw [← winner, ← winner']
  exact sound.ballot.winner_unique member member' (term.trans (same.trans term'.symm))

-- A voter that rewrites its log and keeps to its word.
theorem Holder.edit (holder : s.Holder term members x) (grows : Grows s s')
    (seat : s'.ballot.seat x = s.ballot.seat x) (owed : s'.owed x = s.owed x) (acked : s'.acked x = s.acked x)
    (known : s'.known x = s.known x) (stems : s'.Stems term (s'.log x)) (within : ∀ a ∈ s'.log x, term a ≤ s.now x)
    (leads : (s.ballot.seat x).post = .leader → s'.lead (s.now x) = s'.log x)
    (agrees : ∀ t i, t ≤ s.now x → i < (s.lead t).length → s.Agrees x t i →
      s'.Agrees x t i ∧ (i < s.durable x → i < s'.durable x) ∨ s'.Overruled s'.ballot.won.length t i)
    (settled : (s'.log x).take (s.known x) = (s.log x).take (s.known x)) (reached : s.known x ≤ (s'.log x).length) :
    s'.Holder term members x := by
  have now : s'.now x = s.now x := by rw [State.now, State.now, seat]
  have hard : s'.hard x = s.hard x := by rw [State.hard, State.hard, seat]
  have vouched : s'.vouched x = s.vouched x := by rw [vouched, vouched, owed, acked]
  constructor
  case stems => exact stems
  case within =>
    rw [now]
    exact within
  case leads =>
    rw [seat, now]
    exact leads
  case bound =>
    rw [vouched, now]
    intro t m given
    obtain ⟨older, reaches⟩ := holder.bound t m given
    exact ⟨older, reaches.trans (grows.lead t).length_le⟩
  case durable =>
    rw [acked, hard]
    exact holder.durable
  case holds =>
    rw [vouched]
    intro t m given i short
    rcases holder.holds t m given i short with here | overruled
    · exact (agrees t i (holder.bound t m given).1 (holder.inside given short) here).imp_left And.left
    · exact .inr (grows.overruled overruled grows.length_won)
  case kept =>
    rw [acked]
    intro t m given i short
    rcases holder.kept t m given i short with ⟨here, safe⟩ | overruled
    · exact (agrees t i (holder.bound t m (.inr given)).1 (holder.inside (.inr given) short) here).imp_left
        fun still => ⟨still.1, still.2 safe⟩
    · exact .inr (grows.overruled overruled grows.length_won)
  case votes =>
    rw [seat, now]
    intro t c given
    obtain ⟨older, o, offered, same, whose, weighs⟩ := holder.votes t c given
    exact ⟨older, o, grows.offers offered, same, whose, holder.weighs grows vouched.subset weighs⟩
  case known =>
    rw [known, settled, now]
    exact ⟨grows.settled holder.known.1 le_rfl, reached⟩

theorem Sound.append (sound : s.Sound term members) (leads : (s.ballot.seat x).post = .leader) {a : E}
    (own : term a = s.now x) : (s.next term (.append x a)).Sound term members := by
  have holder := sound.holder x
  have led : s.lead (s.now x) = s.log x := holder.leads leads
  have lead : (s.next term (.append x a)).lead (s.now x) = s.log x ++ [a] := Function.update_self ..
  have log : (s.next term (.append x a)).log x = s.log x ++ [a] := Function.update_self ..
  have other : ∀ {t}, t ≠ s.now x → (s.next term (.append x a)).lead t = s.lead t := fun differs =>
    Function.update_of_ne differs _ _
  have grows : Grows s (s.next term (.append x a)) := by
    refine ⟨⟨[], (List.append_nil _).symm⟩, fun t => ?_, fun _ _ => rfl, fun _ => subset_rfl, subset_rfl⟩
    by_cases same : t = s.now x
    · rw [same, lead, led]
      exact List.prefix_append _ _
    · rw [other same]
  have newest : ∀ {i : Nat} {b : E}, (s.log x ++ [a])[i]? = some b → (s.log x)[i]? = some b ∨
      i = (s.log x).length ∧ b = a := by
    intro i b here
    by_cases old : i < (s.log x).length
    · rw [List.getElem?_append_left old] at here
      exact .inl here
    · rw [List.getElem?_append_right (not_lt.mp old), List.getElem?_singleton] at here
      split at here
      · exact .inr ⟨by omega, (Option.some.inj here).symm⟩
      · cases here
  have stems : (s.next term (.append x a)).Stems term (s.log x ++ [a]) := by
    intro i b here
    rcases newest here with old | ⟨rfl, rfl⟩
    · have inside := (List.getElem?_eq_some_iff.mp old).1
      rw [List.take_append_of_le_length inside]
      exact grows.stems holder.stems i b old
    · rw [own, lead]
  have within : ∀ b ∈ s.log x ++ [a], term b ≤ s.now x := by
    intro b member
    rcases List.mem_append.mp member with old | new
    · exact holder.within b old
    · rw [List.mem_singleton.mp new]
      exact own.le
  refine sound.step x grows sound.ballot sound.tenure ?_ ?_ ?_ ?_ ?_ ?_
  · constructor
    case stems =>
      intro t
      by_cases same : t = s.now x
      · rw [same, lead]
        exact stems
      · rw [other same]
        exact grows.stems (sound.grounds.stems t)
    case ordered =>
      intro t
      by_cases same : t = s.now x
      · rw [same, lead, List.map_append, List.pairwise_append, ← led]
        refine ⟨sound.grounds.ordered _, List.pairwise_singleton _ _, ?_⟩
        rintro _ before _ last
        obtain ⟨b, member, rfl⟩ := List.mem_map.mp before
        rw [List.map_singleton, List.mem_singleton] at last
        rw [last, own]
        exact sound.grounds.top _ b member
      · rw [other same]
        exact sound.grounds.ordered t
    case top =>
      intro t
      by_cases same : t = s.now x
      · rw [same, lead]
        exact within
      · rw [other same]
        exact sound.grounds.top t
    case led =>
      intro t some_
      by_cases same : t = s.now x
      · obtain ⟨e, member, term, _⟩ := sound.led_of_leader leads
        exact ⟨e, member, term.trans same.symm⟩
      · rw [other same] at some_
        exact sound.grounds.led t some_
    case base => exact fun e member => (sound.grounds.base e member).trans (grows.lead _)
    case earlier => exact sound.grounds.earlier
  · intro y apart
    exact ⟨rfl, Function.update_of_ne apart _ _, rfl, rfl, rfl, rfl⟩
  · intro y apart leads'
    exact other fun same => apart (sound.reigns_alone leads' leads same)
  · refine holder.edit grows rfl rfl rfl rfl ?_ ?_ ?_ ?_ ?_ ?_
    · rw [log]
      exact stems
    · rw [log]
      exact within
    · intro _
      rw [log, lead]
    · intro t i _ inside agrees
      refine .inl ⟨?_, id⟩
      rw [Agrees, log, grows.lead_take inside, List.take_append_of_le_length (length_of_take_eq agrees inside)]
      exact agrees
    · rw [log, List.take_append_of_le_length holder.known.2]
    · rw [log, List.length_append]
      exact holder.known.2.trans (Nat.le_add_right _ _)
  · refine sound.candid.carry rfl rfl fun y stands => Function.update_of_ne ?_ _ _
    rintro rfl
    rw [leads] at stands
    cases stands
  · exact sound.elected_mono grows rfl fun y u m given => .inl ⟨m, le_rfl, given⟩

theorem Sound.secure (sound : s.Sound term members) {durable : Nat} (longer : s.durable x ≤ durable) :
    (s.next term (.secure x durable)).Sound term members := by
  have grows : Grows s (s.next term (.secure x durable)) :=
    ⟨⟨[], (List.append_nil _).symm⟩, fun _ => List.prefix_rfl, fun _ _ => rfl, fun _ => subset_rfl, subset_rfl⟩
  have safe : (s.next term (.secure x durable)).durable x = durable := Function.update_self ..
  refine sound.step x grows sound.ballot sound.tenure (sound.grounds.congr rfl rfl rfl) ?_ (fun _ _ _ => rfl) ?_
    (sound.candid.carry rfl rfl fun _ _ => rfl)
    (sound.elected_mono grows rfl fun y u m given => .inl ⟨m, le_rfl, given⟩)
  · intro y apart
    exact ⟨rfl, rfl, Function.update_of_ne apart _ _, rfl, rfl, rfl⟩
  · exact (sound.holder x).carry grows rfl (longer.trans safe.ge) rfl rfl rfl le_rfl le_rfl (sound.holder x).leads
      fun t c given => .inl given

theorem Sound.learn (sound : s.Sound term members) {k : Nat} (reached : k ≤ (s.log x).length)
    (settled : s.Settled term members (s.now x) ((s.log x).take k)) :
    (s.next term (.learn x k)).Sound term members := by
  have grows : Grows s (s.next term (.learn x k)) :=
    ⟨⟨[], (List.append_nil _).symm⟩, fun _ => List.prefix_rfl, fun _ _ => rfl, fun _ => subset_rfl, subset_rfl⟩
  have known : (s.next term (.learn x k)).known x = k := Function.update_self ..
  refine sound.step x grows sound.ballot sound.tenure (sound.grounds.congr rfl rfl rfl) ?_ (fun _ _ _ => rfl) ?_
    (sound.candid.carry rfl rfl fun _ _ => rfl)
    (sound.elected_mono grows rfl fun y u m given => .inl ⟨m, le_rfl, given⟩)
  · intro y apart
    exact ⟨rfl, rfl, rfl, rfl, rfl, Function.update_of_ne apart _ _⟩
  · have holder := sound.holder x
    refine ⟨holder.stems, holder.within, holder.leads, holder.bound, holder.durable, holder.holds, holder.kept,
      holder.votes, ?_⟩
    rw [known]
    exact ⟨settled, reached⟩

theorem Sound.crash (sound : s.Sound term members) {h : Ballot.Hard N} {l : List E}
    (allowed : s.ballot.Allowed members (.restart x h)) (stems : s.Stems term l) (within : ∀ a ∈ l, term a ≤ h.term)
    (kept : (s.log x).take (s.durable x) <+: l) : (s.next term (.restart x h l)).Sound term members := by
  have holder := sound.holder x
  have seat : (s.ballot.next (.restart x h)).seat x = Seat.follow ((s.ballot.seat x).restart h) := s.ballot.put_self x _
  have seat' : (s.next term (.restart x h l)).ballot.seat x = Seat.follow ((s.ballot.seat x).restart h) := seat
  have now : (s.next term (.restart x h l)).now x = h.term := by
    rw [State.now, seat']
    rfl
  have hard : (s.next term (.restart x h l)).hard x = h.term := by
    rw [State.hard, seat']
    rfl
  have newer : s.hard x ≤ h.term :=
    ((sound.ballot.voter x).ordered _ (sound.ballot.voter x).held h allowed.1 allowed.2).term_le
  have log : (s.next term (.restart x h l)).log x = l := Function.update_self ..
  have durable : (s.next term (.restart x h l)).durable x = l.length := Function.update_self ..
  have owed : (s.next term (.restart x h l)).owed x = ∅ := Function.update_self ..
  have known : (s.next term (.restart x h l)).known x = 0 := Function.update_self ..
  have grows : Grows s (s.next term (.restart x h l)) :=
    ⟨⟨[], (List.append_nil _).symm⟩, fun _ => List.prefix_rfl, fun _ _ => rfl, fun _ => subset_rfl, subset_rfl⟩
  have vouched : (s.next term (.restart x h l)).vouched x = s.acked x := by
    rw [vouched, owed]
    exact Set.empty_union _
  have stays : ∀ t m, (t, m) ∈ s.acked x → ∀ i < m, (s.next term (.restart x h l)).Agrees x t i ∧ i < l.length ∨
      (s.next term (.restart x h l)).Overruled s.ballot.won.length t i := by
    intro t m given i short
    rcases holder.kept t m given i short with ⟨agrees, safe⟩ | overruled
    · have reaches := length_of_take_eq agrees (holder.inside (.inr given) short)
      have held := take_eq_of_leads kept (by rw [List.length_take]; omega : i < ((s.log x).take (s.durable x)).length)
      rw [List.take_take, Nat.min_eq_left (Nat.succ_le_of_lt safe)] at held
      refine .inl ⟨?_, length_of_take_eq held.symm reaches⟩
      rw [Agrees, log, ← held]
      exact agrees
    · exact .inr (grows.overruled overruled le_rfl)
  refine sound.step x grows (sound.ballot.next allowed) (sound.tenure.next sound.ballot allowed)
    (sound.grounds.congr rfl rfl rfl) ?_ (fun _ _ _ => rfl) ?_ ?_ ?_
  · intro y apart
    have still : (s.ballot.next (.restart x h)).seat y = s.ballot.seat y := s.ballot.next_others apart
    exact ⟨still, Function.update_of_ne apart _ _, Function.update_of_ne apart _ _, Function.update_of_ne apart _ _, rfl,
      Function.update_of_ne apart _ _⟩
  · constructor
    case stems =>
      rw [log]
      exact grows.stems stems
    case within =>
      rw [log, now]
      exact within
    case leads =>
      rw [seat']
      exact nofun
    case bound =>
      rw [vouched, now]
      intro t m given
      exact ⟨(holder.durable t m given).trans newer, (holder.bound t m (.inr given)).2⟩
    case durable =>
      rw [hard]
      exact fun t m given => (holder.durable t m given).trans newer
    case holds =>
      rw [vouched]
      exact fun t m given i short => (stays t m given i short).imp_left And.left
    case kept =>
      rw [durable]
      exact stays
    case votes =>
      rw [seat', now]
      intro t c given
      have granted : (t, c) ∈ (s.ballot.seat x).granted := given.resolve_left nofun
      obtain ⟨_, o, offered, same, whose, weighs⟩ := holder.votes t c (.inr granted)
      refine ⟨((sound.ballot.granted_le granted).1).trans newer, o, offered, same, whose, holder.weighs grows ?_ weighs⟩
      rw [vouched]
      exact Set.subset_union_right
    case known =>
      rw [known, List.take_zero]
      exact ⟨.inl rfl, Nat.zero_le _⟩
  · constructor
    · exact fun o offered => s.ballot.next_granted (.restart x h) _ (sound.candid.given o offered)
    · intro o offered stands same
      by_cases self : o.candidate = x
      · rw [self, seat'] at stands
        cases stands
      · have still : (s.ballot.next (.restart x h)).seat o.candidate = s.ballot.seat o.candidate :=
          s.ballot.next_others self
        have now : (s.next term (.restart x h l)).now o.candidate = s.now o.candidate :=
          congrArg (fun seat : Seat N => seat.now.term) still
        have log : (s.next term (.restart x h l)).log o.candidate = s.log o.candidate := Function.update_of_ne self _ _
        rw [log]
        exact sound.candid.standing o offered (still ▸ stands) (now ▸ same)
    · exact sound.candid.asked
  · refine sound.elected_mono grows rfl fun y u m given => .inl ⟨m, le_rfl, ?_⟩
    by_cases same : y = x
    · rw [same, vouched] at given
      rw [same]
      exact .inr given
    · have others : (s.next term (.restart x h l)).vouched y = s.vouched y := by
        rw [State.vouched, State.vouched]
        exact congrArg (· ∪ s.acked y) (Function.update_of_ne same _ _)
      exact others ▸ given

variable [DecidableEq E]

-- Where two lists part, they have different items.
theorem agreed_ne {l m : List E} (inside : agreed l m < l.length) (within : agreed l m < m.length) :
    l[agreed l m] ≠ m[agreed l m] := by
  intro same
  have longer : agreed l m + 1 ≤ agreed l m := by
    rw [le_agreed_iff]
    refine ⟨inside, within, ?_⟩
    rw [List.take_succ_eq_append_getElem inside, List.take_succ_eq_append_getElem within, same, take_eq le_rfl]
  omega

-- What is settled, a voter has in common with the winner of its own term.
theorem Sound.known_le_agreed (sound : s.Sound term members) (led : s.lead (s.now x) ≠ []) :
    s.known x ≤ agreed (s.log x) (s.lead (s.now x)) := by
  obtain ⟨settled, reached⟩ := (sound.holder x).known
  have pre := sound.settled_lead settled le_rfl led
  have size := pre.length_le
  rw [List.length_take, Nat.min_eq_left reached] at size
  rw [le_agreed_iff]
  refine ⟨reached, size, ?_⟩
  rw [List.prefix_iff_eq_take.mp pre, List.length_take, Nat.min_eq_left reached]

theorem Sound.take (sound : s.Sound term members) (follows : (s.ballot.seat x).post = .follower) {k durable : Nat}
    {l : List E} (takes : TakesOver (s.lead (s.now x)) k (s.log x) l)
    (held : k ≤ agreed (s.log x) (s.lead (s.now x)) → s.durable x ≤ durable)
    (cut : min (s.durable x) (agreed (s.log x) (s.lead (s.now x))) ≤ durable) :
    (s.next term (.take x k l durable)).Sound term members := by
  have holder := sound.holder x
  have grows : Grows s (s.next term (.take x k l durable)) :=
    ⟨⟨[], (List.append_nil _).symm⟩, fun _ => List.prefix_rfl, fun _ _ => rfl, fun _ => subset_rfl, subset_rfl⟩
  have log : (s.next term (.take x k l durable)).log x = l := Function.update_self ..
  have safe : (s.next term (.take x k l durable)).durable x = durable := Function.update_self ..
  refine sound.step x grows sound.ballot sound.tenure (sound.grounds.congr rfl rfl rfl) ?_ (fun _ _ _ => rfl) ?_ ?_ ?_
  · intro y apart
    exact ⟨rfl, Function.update_of_ne apart _ _, Function.update_of_ne apart _ _, rfl, rfl, rfl⟩
  · have follower : (s.ballot.seat x).post ≠ .leader := by
      rw [follows]
      decide
    cases takes with
    | held reached =>
      refine holder.edit grows rfl rfl rfl rfl ?_ ?_ (fun leads => absurd leads follower) ?_ ?_ ?_
      · rw [log]
        exact grows.stems holder.stems
      · rw [log]
        exact holder.within
      · intro t i _ inside agrees
        refine .inl ⟨grows.agrees agrees inside log, fun before => ?_⟩
        rw [safe]
        exact before.trans_le (held reached)
      · rw [log]
      · rw [log]
        exact holder.known.2
    | taken short within =>
      have led : s.lead (s.now x) ≠ [] := List.ne_nil_of_length_pos (by omega)
      have known := sound.known_le_agreed (x := x) led
      refine holder.edit grows rfl rfl rfl rfl ?_ ?_ (fun leads => absurd leads follower) ?_ ?_ ?_
      · rw [log]
        exact grows.stems ((sound.grounds.stems _).take k)
      · rw [log]
        exact fun a member => sound.grounds.top _ a (List.mem_of_mem_take member)
      · intro t i older inside agrees
        by_cases before : i < agreed (s.log x) (s.lead (s.now x))
        · refine .inl ⟨?_, fun stored => ?_⟩
          · rw [Agrees, log, List.take_take, Nat.min_eq_left (by omega), ← take_eq (Nat.succ_le_of_lt before)]
            exact agrees
          · rw [safe]
            omega
        · -- the winner of this term has something else where the old log goes on
          have reaches := length_of_take_eq agrees inside
          obtain ⟨e, member, term⟩ := sound.grounds.led _ led
          obtain ⟨j, place, here⟩ := List.getElem_of_mem member
          have edge : agreed (s.log x) (s.lead (s.now x)) < (s.log x).length := by omega
          have edge' : agreed (s.log x) (s.lead (s.now x)) < (s.lead (s.now x)).length := by omega
          have differs := agreed_ne edge edge'
          have mine := getElem?_of_take_eq agrees (not_lt.mp before)
          rw [List.getElem?_eq_getElem edge] at mine
          refine .inr ⟨j, place, e, List.getElem?_eq_some_iff.mpr ⟨place, here⟩, ?_, _, not_lt.mp before, _, _, mine.symm,
            ?_, differs⟩
          · rw [term]
            refine lt_of_le_of_ne older fun same => differs ?_
            rw [same, List.getElem?_eq_getElem edge', Option.some.injEq] at mine
            exact mine
          · rw [term]
            exact List.getElem?_eq_getElem edge'
      · rw [log, List.take_take, Nat.min_eq_left (by omega), take_eq known]
      · rw [log, List.length_take]
        omega
  · refine sound.candid.carry rfl rfl fun y stands => Function.update_of_ne ?_ _ _
    rintro rfl
    rw [follows] at stands
    cases stands
  · exact sound.elected_mono grows rfl fun y u m given => .inl ⟨m, le_rfl, given⟩

-- A voter that gives its word for more of what it has taken over.
theorem Sound.vouch (sound : s.Sound term members) (grows : Grows s s') (ballot : s'.ballot = s.ballot)
    (lead : s'.lead = s.lead) (base : s'.base = s.base) (offers : s'.offers = s.offers) (log : s'.log = s.log)
    (durable : s'.durable = s.durable) (known : s'.known = s.known)
    (others : ∀ y, y ≠ x → s'.owed y = s.owed y ∧ s'.acked y = s.acked y)
    (fresh : ∀ t m, (t, m) ∈ s'.vouched x → (∃ k, m ≤ k ∧ (t, k) ∈ s.vouched x) ∨
      t = s.now x ∧ m ≤ agreed (s.log x) (s.lead t))
    (safe : ∀ t m, (t, m) ∈ s'.acked x → (t, m) ∈ s.acked x ∨ t ≤ s.hard x ∧ m ≤ s.durable x) :
    s'.Sound term members := by
  have holder := sound.holder x
  have now : s'.now x = s.now x := by rw [State.now, State.now, ballot]
  have hard : s'.hard x = s.hard x := by rw [State.hard, State.hard, ballot]
  have won : s'.ballot.won = s.ballot.won := by rw [ballot]
  have agree : ∀ {t i}, i < agreed (s.log x) (s.lead t) → s'.Agrees x t i := by
    intro t i short
    rw [Agrees, log, lead]
    exact take_eq short
  have holds : ∀ t m, (t, m) ∈ s'.vouched x → ∀ i < m, s'.Agrees x t i ∨ s'.Overruled s'.ballot.won.length t i := by
    intro t m given i short
    rcases fresh t m given with ⟨k, longer, old⟩ | ⟨-, within⟩
    · rcases holder.holds t k old i (by omega) with here | overruled
      · exact .inl (grows.agrees here (holder.inside old (by omega)) (congrFun log x))
      · exact .inr (grows.overruled overruled grows.length_won)
    · exact .inl (agree (by omega))
  refine sound.step x grows (ballot ▸ sound.ballot) (ballot ▸ sound.tenure) (sound.grounds.congr won lead base) ?_ ?_ ?_
    (sound.candid.carry ballot offers fun y _ => congrFun log y) ?_
  · intro y apart
    exact ⟨by rw [ballot], congrFun log y, congrFun durable y, (others y apart).1, (others y apart).2, congrFun known y⟩
  · intro y _ _
    rw [lead]
  · constructor
    case stems =>
      rw [log]
      exact grows.stems holder.stems
    case within =>
      rw [log, now]
      exact holder.within
    case leads =>
      rw [ballot, log, now, lead]
      exact holder.leads
    case bound =>
      rw [now, lead]
      intro t m given
      rcases fresh t m given with ⟨k, longer, old⟩ | ⟨same, within⟩
      · obtain ⟨older, reaches⟩ := holder.bound t k old
        exact ⟨older, by omega⟩
      · exact ⟨same.le, within.trans agreed_le_right⟩
    case durable =>
      rw [hard]
      intro t m given
      rcases safe t m given with old | ⟨stored, -⟩
      · exact holder.durable t m old
      · exact stored
    case holds => exact holds
    case kept =>
      intro t m given i short
      rcases safe t m given with old | ⟨-, stored⟩
      · rcases holder.kept t m old i short with ⟨here, within⟩ | overruled
        · refine .inl ⟨grows.agrees here (holder.inside (.inr old) short) (congrFun log x), ?_⟩
          rwa [durable]
        · exact .inr (grows.overruled overruled grows.length_won)
      · refine (holds t m (.inr given) i short).imp_left fun here => ⟨here, ?_⟩
        rw [durable]
        omega
    case votes =>
      rw [ballot, now]
      intro t c given
      obtain ⟨older, o, offered, same, whose, weighs⟩ := holder.votes t c given
      refine ⟨older, o, grows.offers offered, same, whose, fun u m vouched newer i short => ?_⟩
      rcases fresh u m vouched with ⟨k, longer, old⟩ | ⟨here, -⟩
      · rcases weighs u k old newer i (by omega) with ahead | overruled
        · exact .inl (grows.ahead ahead (holder.inside old (by omega)))
        · exact .inr (grows.overruled overruled grows.length_won)
      · omega
    case known =>
      rw [log, known, now]
      exact ⟨grows.settled holder.known.1 le_rfl, holder.known.2⟩
  · refine sound.elected_mono grows won fun y u m given => ?_
    by_cases same : y = x
    · rw [same] at given ⊢
      exact (fresh u m given).imp id fun late => late.1.ge
    · obtain ⟨owed, acked⟩ := others y same
      rw [vouched, owed, acked] at given
      exact .inl ⟨m, le_rfl, given⟩

theorem Sound.owe (sound : s.Sound term members) {m : Nat} (within : m ≤ agreed (s.log x) (s.lead (s.now x))) :
    (s.next term (.owe x m)).Sound term members := by
  have owed : (s.next term (.owe x m)).owed x = insert (s.now x, m) (s.owed x) := Function.update_self ..
  have grows : Grows s (s.next term (.owe x m)) :=
    ⟨⟨[], (List.append_nil _).symm⟩, fun _ => List.prefix_rfl, fun _ _ => rfl, fun _ => subset_rfl, subset_rfl⟩
  refine sound.vouch (x := x) grows rfl rfl rfl rfl rfl rfl rfl ?_ ?_ fun t m given => .inl given
  · exact fun y apart => ⟨Function.update_of_ne apart _ _, rfl⟩
  · intro t k given
    rw [vouched, owed] at given
    rcases given with (new | old) | old
    · cases new
      exact .inr ⟨rfl, within⟩
    · exact .inl ⟨k, le_rfl, .inl old⟩
    · exact .inl ⟨k, le_rfl, .inr old⟩

theorem Sound.ack (sound : s.Sound term members) {t m : Nat} (stored : t ≤ s.hard x) (safe : m ≤ s.durable x)
    (source : (∃ k, m ≤ k ∧ (t, k) ∈ s.owed x) ∨ t = s.now x ∧ m ≤ agreed (s.log x) (s.lead t)) :
    (s.next term (.ack x t m)).Sound term members := by
  have acked : (s.next term (.ack x t m)).acked x = insert (t, m) (s.acked x) := Function.update_self ..
  have grows : Grows s (s.next term (.ack x t m)) := by
    refine ⟨⟨[], (List.append_nil _).symm⟩, fun _ => List.prefix_rfl, fun _ _ => rfl, fun y => ?_, subset_rfl⟩
    by_cases same : y = x
    · rw [same, acked]
      exact Set.subset_insert _ _
    · exact (Function.update_of_ne same _ _).ge
  refine sound.vouch (x := x) grows rfl rfl rfl rfl rfl rfl rfl ?_ ?_ ?_
  · exact fun y apart => ⟨rfl, Function.update_of_ne apart _ _⟩
  · intro u k given
    rw [vouched, acked] at given
    rcases given with old | new | old
    · exact .inl ⟨k, le_rfl, .inl old⟩
    · cases new
      exact source.imp_left fun ⟨k, longer, owed⟩ => ⟨k, longer, .inl owed⟩
    · exact .inl ⟨k, le_rfl, .inr old⟩
  · intro u k given
    rw [acked] at given
    rcases given with new | old
    · cases new
      exact .inr ⟨stored, safe⟩
    · exact .inl old

theorem Sound.next (sound : s.Sound term members) {move : Move N E} (allowed : s.Allowed term members move) :
    (s.next term move).Sound term members := by
  cases move with
  | cast move =>
    obtain ⟨rules, castable⟩ := allowed
    by_cases plain : move.Plain
    · exact sound.castPlain plain rules castable
    · cases move with
      | lead x => exact Sound.castLead sound rules
      | restart => exact castable.elim
      | _ => exact absurd trivial plain
  | append x a => exact sound.append allowed.1 allowed.2
  | take x k l durable => exact sound.take allowed.1 allowed.2.1 allowed.2.2.1 allowed.2.2.2
  | owe x m => exact sound.owe allowed
  | ack x t m => exact sound.ack allowed.1 allowed.2.1 allowed.2.2
  | secure x durable => exact sound.secure allowed
  | learn x k => exact sound.learn allowed.1 allowed.2
  | restart x h l => exact sound.crash allowed.1 allowed.2.1 allowed.2.2.1 allowed.2.2.2

/-- A series of moves, each allowed when it is made. -/
inductive Run (term : E → Nat) (members : Finset N) : State N E → List (Move N E) → State N E → Prop where
  | nil (s : State N E) : Run term members s [] s
  | cons {s s' : State N E} {move : Move N E} {rest : List (Move N E)} (allowed : s.Allowed term members move)
      (run : Run term members (s.next term move) rest s') : Run term members s (move :: rest) s'

theorem Run.single {move : Move N E} (allowed : s.Allowed term members move) :
    Run term members s [move] (s.next term move) := .cons allowed (.nil _)

variable {moves : List (Move N E)}

theorem Run.append {u : State N E} {more : List (Move N E)} (run : Run term members s moves s')
    (run' : Run term members s' more u) : Run term members s (moves ++ more) u := by
  induction run with
  | nil s => exact run'
  | cons allowed _ ih => exact .cons allowed (ih run')

theorem Run.sound (run : Run term members s moves s') (sound : s.Sound term members) : s'.Sound term members := by
  induction run with
  | nil s => exact sound
  | cons allowed _ ih => exact ih (sound.next allowed)

theorem Sound.grows (sound : s.Sound term members) {move : Move N E} (allowed : s.Allowed term members move) :
    Grows s (s.next term move) := by
  have quiet : ∀ {s' : State N E}, s'.ballot.won = s.ballot.won → s'.lead = s.lead → s'.base = s.base →
      (∀ y, s.acked y ⊆ s'.acked y) → s'.offers = s.offers → Grows s s' := by
    intro s' won lead base acked offers
    exact ⟨⟨[], by rw [won, List.append_nil]⟩, fun t => by rw [lead], fun _ _ => by rw [base], acked, offers.ge⟩
  cases move with
  | cast move =>
    by_cases plain : move.Plain
    · exact grows_cast plain
    · cases move with
      | lead x => exact grows_lead sound allowed.1
      | restart => exact allowed.2.elim
      | _ => exact absurd trivial plain
  | append x a =>
    refine ⟨⟨[], (List.append_nil _).symm⟩, fun t => ?_, fun _ _ => rfl, fun _ => subset_rfl, subset_rfl⟩
    by_cases same : t = s.now x
    · have lead : (s.next term (.append x a)).lead (s.now x) = s.log x ++ [a] := Function.update_self ..
      rw [same, lead, (sound.holder x).leads allowed.1]
      exact List.prefix_append _ _
    · have still : (s.next term (.append x a)).lead t = s.lead t := Function.update_of_ne same _ _
      rw [still]
  | ack x t m =>
    refine quiet rfl rfl rfl (fun y => ?_) rfl
    by_cases same : y = x
    · have acked : (s.next term (.ack x t m)).acked x = insert (t, m) (s.acked x) := Function.update_self ..
      rw [same, acked]
      exact Set.subset_insert _ _
    · exact (Function.update_of_ne same _ _).ge
  | _ => exact quiet rfl rfl rfl (fun _ => subset_rfl) rfl

theorem Run.grows (run : Run term members s moves s') (sound : s.Sound term members) : Grows s s' := by
  induction run with
  | nil s => exact .refl s
  | cons allowed _ ih => exact (sound.grows allowed).trans (ih (sound.next allowed))

omit [DecidableEq E] in
theorem next_same (s : State N E) (move : Move N E) {y : N} (apart : y ≠ move.actor) :
    SameAt s (s.next term move) y := by
  cases move with
  | cast move => exact ⟨s.ballot.next_others apart, rfl, rfl, rfl, rfl, rfl⟩
  | append x a => exact ⟨rfl, Function.update_of_ne apart _ _, rfl, rfl, rfl, rfl⟩
  | take x k l durable =>
    exact ⟨rfl, Function.update_of_ne apart _ _, Function.update_of_ne apart _ _, rfl, rfl, rfl⟩
  | owe x m => exact ⟨rfl, rfl, rfl, Function.update_of_ne apart _ _, rfl, rfl⟩
  | ack x t m => exact ⟨rfl, rfl, rfl, rfl, Function.update_of_ne apart _ _, rfl⟩
  | secure x durable => exact ⟨rfl, rfl, Function.update_of_ne apart _ _, rfl, rfl, rfl⟩
  | learn x k => exact ⟨rfl, rfl, rfl, rfl, rfl, Function.update_of_ne apart _ _⟩
  | restart x h l =>
    have still : (s.ballot.next (.restart x h)).seat y = s.ballot.seat y := s.ballot.next_others apart
    exact ⟨still, Function.update_of_ne apart _ _, Function.update_of_ne apart _ _, Function.update_of_ne apart _ _, rfl,
      Function.update_of_ne apart _ _⟩

theorem Run.same (run : Run term members s moves s') {y : N} (own : ∀ m ∈ moves, m.actor = x) (apart : y ≠ x) :
    SameAt s s' y := by
  induction run with
  | nil s => exact ⟨rfl, rfl, rfl, rfl, rfl, rfl⟩
  | cons _ _ ih =>
    have actor := own _ List.mem_cons_self
    exact (next_same _ _ (actor ▸ apart)).trans (ih fun m member => own m (List.mem_cons_of_mem _ member))

omit [DecidableEq E] in
theorem Settled.shorten {t : Nat} {l l' : List E} (settled : s.Settled term members t l) (pre : l' <+: l) :
    s.Settled term members t l' := by
  rcases settled with rfl | ⟨u, order, i, committed, within⟩
  · exact .inl (List.prefix_nil.mp pre)
  · exact .inr ⟨u, order, i, committed, pre.trans within⟩

structure Recast (s s' : State N E) : Prop where
  log : s'.log = s.log
  durable : s'.durable = s.durable
  owed : s'.owed = s.owed
  acked : s'.acked = s.acked
  known : s'.known = s.known
  lead : ∀ t, s'.lead t = s.lead t ∨ ∃ x, s'.lead t = s.log x

omit [DecidableEq N] [DecidableEq E] in
theorem Recast.refl (s : State N E) : Recast s s := ⟨rfl, rfl, rfl, rfl, rfl, fun _ => .inl rfl⟩

omit [DecidableEq E] in
theorem Recast.cast (move : Ballot.Move N) (recast : Recast (s.next term (.cast move)) s') : Recast s s' where
  log := recast.log
  durable := recast.durable
  owed := recast.owed
  acked := recast.acked
  known := recast.known
  lead t := by
    rcases recast.lead t with same | own
    · rw [same]
      cases move with
      | lead x =>
        by_cases here : t = s.now x
        · exact .inr ⟨x, here ▸ Function.update_self ..⟩
        · exact .inl (Function.update_of_ne here _ _)
      | _ => exact .inl rfl
    · exact .inr own

-- A run of the ballot protocol whose votes pass the election restriction.
theorem Run.cast {casts : List (Ballot.Move N)} {b : Ballot.State N} (run : Ballot.State.Run members s.ballot casts b)
    (sound : s.Sound term members) (castable : ∀ mv ∈ casts, s.Castable term mv)
    (steady : ∀ x c, .vote x c ∈ casts ∨ .renew x c ∈ casts → (b.seat x).now.term = s.now x) :
    ∃ s', Run term members s (casts.map .cast) s' ∧ s'.ballot = b ∧ Recast s s' := by
  induction casts generalizing s with
  | nil =>
    cases run
    exact ⟨s, .nil s, rfl, .refl s⟩
  | cons move rest ih =>
    cases run with
    | cons rules run =>
      have allowed : s.Allowed term members (.cast move) := ⟨rules, castable move List.mem_cons_self⟩
      have grows := sound.grows allowed
      have alive : ∀ mv ∈ rest, ∀ x h, mv ≠ Ballot.Move.restart x h := by
        rintro mv member x h rfl
        exact castable _ (List.mem_cons_of_mem _ member)
      have first : ∀ x h, move ≠ Ballot.Move.restart x h := by
        rintro x h rfl
        exact castable _ List.mem_cons_self
      -- the term of a voter that casts a vote stays the same from beginning to end
      have still : ∀ x c, .vote x c ∈ rest ∨ .renew x c ∈ rest → (s.next term (.cast move)).now x = s.now x := by
        intro x c votes
        have last := steady x c (votes.imp (List.mem_cons_of_mem _) (List.mem_cons_of_mem _))
        have before := sound.ballot.term_le first rules x
        have after := run.term_le (sound.ballot.next rules) alive x
        exact le_antisymm (after.trans last.le) before
      have passes : ∀ x c, s.Meets term x c → .vote x c ∈ rest ∨ .renew x c ∈ rest →
          (s.next term (.cast move)).Meets term x c := by
        rintro x c ⟨o, offered, same, rest⟩ votes
        exact ⟨o, grows.offers offered, same.trans (still x c votes).symm, rest⟩
      obtain ⟨s', moves, ballot, recast⟩ := ih (s := s.next term (.cast move)) run (sound.next allowed) (by
        intro mv member
        have old := castable mv (List.mem_cons_of_mem _ member)
        cases mv with
        | vote x c => exact passes x c old (.inl member)
        | renew x c => exact passes x c old (.inr member)
        | restart => exact old.elim
        | _ => trivial) (by
        intro x c votes
        rw [still x c votes]
        exact steady x c (votes.imp (List.mem_cons_of_mem _) (List.mem_cons_of_mem _)))
      exact ⟨s', .cons allowed moves, ballot, recast.cast move⟩

-- What a run does to the ballot.
theorem Run.ballot (run : Run term members s moves s') :
    ∃ casts, Ballot.State.Run members s.ballot casts s'.ballot ∧ ∀ mv ∈ casts, ∃ m ∈ moves, mv.actor = m.actor := by
  induction run with
  | nil s => exact ⟨[], .nil _, List.forall_mem_nil _⟩
  | cons allowed run ih =>
    rename_i s _ move rest
    obtain ⟨casts, last, own⟩ := ih
    have later : ∀ mv ∈ casts, ∃ m ∈ move :: rest, mv.actor = m.actor := by
      intro mv member
      obtain ⟨m, here, same⟩ := own mv member
      exact ⟨m, List.mem_cons_of_mem _ here, same⟩
    cases move with
    | cast mv => exact ⟨mv :: casts, .cons allowed.1 last, List.forall_mem_cons.mpr
        ⟨⟨_, List.mem_cons_self, rfl⟩, later⟩⟩
    | restart x h l => exact ⟨.restart x h :: casts, .cons allowed.1 last, List.forall_mem_cons.mpr
        ⟨⟨_, List.mem_cons_self, rfl⟩, later⟩⟩
    | _ => exact ⟨casts, last, later⟩

end State

end Succession
