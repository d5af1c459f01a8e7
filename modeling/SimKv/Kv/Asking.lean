import SimKv.Kv.Service

set_option autoImplicit false

/-!
# What is asked for

Clients ask for operations on keys, under their own numbers and from their own nodes. A request that has been sent
stays sent.
-/

namespace SimKv

namespace Harness

section Acting

variable {G : Type} {source : RandomSource G} {now : Nanos} {a b : Acting G}

structure Acting.Steady (node : NodeId) (a : Acting G) : Prop where
  node : a.client.node = node
  inflight : ∀ f ∈ a.client.inflight, f.op.key.isSome
  sent : ∀ r ∈ a.io.requests, r.op.key.isSome

variable {node : NodeId}

-- Only the node, the operation in flight and the requests matter.
theorem Acting.Steady.congr (steady : a.Steady node) (sameNode : b.client.node = a.client.node)
    (sameFlight : ∀ f ∈ b.client.inflight, ∃ f' ∈ a.client.inflight, f.op = f'.op)
    (sameRequests : b.io.requests = a.io.requests) : b.Steady node where
  node := sameNode.trans steady.node
  inflight f busy := by
    obtain ⟨f', busy', op⟩ := sameFlight f busy
    exact op ▸ steady.inflight f' busy'
  sent := sameRequests ▸ steady.sent

theorem Acting.Steady.attempt (steady : a.Steady node) : a.attempt.Steady node := by
  rw [Acting.attempt]
  split
  · exact steady
  · next f busy =>
    have keyed := steady.inflight f busy
    refine ⟨steady.node, ?_, ?_⟩
    · rintro _ ⟨⟩
      exact keyed
    · intro r sent
      rw [ClientIo.send_requests, ClientIo.setTimer_requests] at sent
      rcases List.mem_append.mp sent with before | last
      · exact steady.sent r before
      · rw [List.mem_singleton.mp last]
        exact keyed

theorem Client.pickOp_keyed (source : RandomSource G) (c : Client G) : (c.pickOp source).1.key.isSome := by
  simp only [pickOp]
  split
  · rfl
  split
  · rfl
  split <;> rfl

theorem Acting.Steady.begin (steady : a.Steady node) : (a.begin source now).Steady node := by
  rw [Acting.begin]
  split
  · exact steady
  · obtain ⟨rng, picked⟩ := Client.pickOp_snd source { a.client with backingOff := false }
    have keyed := Client.pickOp_keyed source { a.client with backingOff := false }
    generalize { a.client with backingOff := false }.pickOp source = choice at picked keyed ⊢
    obtain ⟨op, c⟩ := choice
    obtain rfl : c = { a.client with backingOff := false, rng } := picked
    refine Steady.attempt ⟨steady.node, ?_, steady.sent⟩
    rintro _ ⟨⟩
    exact keyed

theorem Acting.Steady.think (steady : a.Steady node) : (a.think source now).Steady node := by
  rw [Acting.think]
  split
  · exact steady
  · generalize source.range a.client.rng a.client.cfg.thinkTime.1 a.client.cfg.thinkTime.2 = drawn
    obtain ⟨delay, rng⟩ := drawn
    have drew : Acting.Steady node { a with client := { a.client with rng } } :=
      steady.congr rfl (fun f busy => ⟨f, busy, rfl⟩) rfl
    simp only
    split
    · exact drew.begin
    · exact drew.congr rfl (fun f busy => ⟨f, busy, rfl⟩) (ClientIo.setTimer_requests ..)

theorem Acting.disarm_requests (a : Acting G) (f : InFlight) : (a.disarm f).io.requests = a.io.requests :=
  congrArg Standing.requests (a.disarm_standing f)

theorem Acting.Steady.retry (steady : a.Steady node) (delay : Nat) : (a.retry source now delay).Steady node := by
  rw [Acting.retry]
  split
  · exact steady
  · next f busy =>
    have keyed := steady.inflight f busy
    have held : ∀ inflight : Option InFlight, (∀ f ∈ inflight, f.op.key.isSome) → ∀ backingOff,
        Acting.Steady node { a.disarm f with client := { (a.disarm f).client with inflight, backingOff } } := by
      intro inflight known backingOff
      refine ⟨?_, known, ?_⟩
      · exact (congrArg Client.node (a.disarm_client f)).trans steady.node
      · exact (a.disarm_requests f).symm ▸ steady.sent
    have waiting : ∀ g ∈ some { f with timer := none }, g.op.key.isSome := by
      rintro _ ⟨⟩
      exact keyed
    simp only
    split
    · exact (held none (by simp) _).think
    split
    · exact (held (some { f with timer := none }) waiting _).attempt
    · exact (held (some { f with timer := none }) waiting true).congr rfl (fun f busy => ⟨f, busy, rfl⟩)
        (ClientIo.setTimer_requests ..)

theorem Acting.Steady.finish (steady : a.Steady node) (outcome : Outcome) :
    (a.finish source now outcome).Steady node := by
  rw [Acting.finish]
  split
  · exact steady
  · next f busy =>
    refine Steady.think ?_
    obtain ⟨known, remembered⟩ := Client.remember_eq
      { a.client with inflight := none, backingOff := false } f.op outcome
    simp only [disarm_client, remembered]
    exact ⟨steady.node, by simp, (disarm_requests { a with client := _ } f).symm ▸ steady.sent⟩

theorem Acting.Steady.turned (steady : a.Steady node) (target : Nat) (rng : G) :
    Acting.Steady node { a with client := { a.client with target, rng } } :=
  steady.congr rfl (fun f busy => ⟨f, busy, rfl⟩) rfl

theorem Acting.Steady.onBytes (steady : a.Steady node) (bytes : Bytes) : (a.onBytes source now bytes).Steady node := by
  rw [Acting.onBytes]
  split
  · next reqId outcome reads =>
    split
    · exact steady
    split
    · exact steady
    split
    · exact steady.finish outcome
    · obtain ⟨target, rng, redirected⟩ := redirect_eq source a outcome
      rw [redirected]
      exact (steady.turned target _).retry _
  · exact steady

theorem Acting.Steady.onTimer (steady : a.Steady node) (tag : Nat) : (a.onTimer source now tag).Steady node := by
  rw [Acting.onTimer]
  split
  · split
    · obtain ⟨target, rng, rotated⟩ := Client.rotateTarget_eq source a.client
      rw [rotated]
      exact (steady.turned target rng).retry 0
    · exact steady
  split
  · split
    · exact Steady.attempt (steady.congr rfl (fun f busy => ⟨f, busy, rfl⟩) rfl)
    · exact steady
  split
  · exact steady.begin
  · exact steady

theorem Acting.Steady.handle (steady : a.Steady node) (event : ClientEvent) : (a.handle source now event).Steady node := by
  cases event with
  | bytes bytes => exact steady.onBytes bytes
  | timer tag => exact steady.onTimer tag
  | stop | resume => exact steady.congr rfl (fun f busy => ⟨f, busy, rfl⟩) rfl

end Acting

structure Standing.Numbered (s : Standing) : Prop where
  trial : ∀ t ∈ s.trial, 0 < t.seq ∧ t.seq ≤ s.seq
  sent : ∀ r ∈ s.requests, 0 < r.seq ∧ r.seq ≤ s.seq

theorem Standing.Numbered.tries {s : Standing} {t : Trial} (numbered : s.Numbered) (within : 0 < t.seq ∧ t.seq ≤ s.seq) :
    (s.tries t).Numbered where
  trial := by
    rintro _ ⟨⟩
    exact within
  sent r member := by
    rcases List.mem_append.mp member with before | last
    · exact numbered.sent r before
    · rw [List.mem_singleton.mp last]
      exact within

theorem Standing.Numbered.moves {now : Nanos} {event : ClientEvent} {s s' s'' : Standing} {h h' h'' : Recording}
    (numbered : s.Numbered) (settles : Settles now event s h s' h') (sends : Sends now s' h' s'' h'') : s''.Numbered := by
  have mid : s'.Numbered := by
    cases settles with
    | stay => exact numbered
    | abandon | complete => exact ⟨by simp, numbered.sent⟩
  cases sends with
  | silent => exact mid
  | attempt busy => exact mid.tries (mid.trial _ busy)
  | begin op idle =>
    have counted : Standing.Numbered { s' with seq := s'.seq + 1, nextHistoryId := s'.nextHistoryId + 1 } :=
      ⟨fun t busy => (mid.trial t busy).imp_right Nat.le_succ_of_le, fun r sent =>
        (mid.sent r sent).imp_right Nat.le_succ_of_le⟩
    exact counted.tries ⟨Nat.succ_pos _, Nat.le_refl _⟩

namespace System

variable {ι G : Type} [DecidableEq ι] {source : RandomSource G} {S : System ι G} {i : ι} {now : Nanos}
  {event : ClientEvent}

omit [DecidableEq ι] in
structure Manned (S : System ι G) : Prop where
  distinct : Function.Injective fun i => (S.clients i).id
  nodes : Function.Injective fun i => (S.clients i).node
  keeps : Keeps S.now S.crew S.history
  steady : ∀ i, Acting.Steady (S.clients i).node { client := S.clients i, io := S.ios i, history := S.history }
  numbered : ∀ i, (S.crew i).Numbered

omit [DecidableEq ι] in
theorem Initial.manned (initial : S.Initial source) (nodes : Function.Injective fun i => (S.clients i).node) :
    S.Manned where
  distinct := initial.distinct
  nodes := nodes
  keeps := initial.keeps
  steady i := by
    obtain ⟨id, node, servers, rng, cfg, fresh⟩ := initial.clients i
    rw [fresh, initial.ios]
    exact ⟨rfl, by simp [Client.new], List.forall_mem_nil _⟩
  numbered i := by
    obtain ⟨id, node, servers, rng, cfg, fresh⟩ := initial.clients i
    rw [crew, fresh, initial.ios]
    exact ⟨by simp [standing, Client.new], List.forall_mem_nil _⟩

theorem Manned.step_node (manned : S.Manned) (j : ι) :
    ((S.step source i now event).clients j).node = (S.clients j).node := by
  by_cases same : j = i
  · subst same
    simp only [step, Function.update_self]
    exact ((manned.steady j).handle event).node
  · simp only [step, Function.update_of_ne same]

theorem Manned.step (manned : S.Manned) (later : S.now ≤ now) (few : (S.step source i now event).Few) :
    (S.step source i now event).Manned where
  distinct := by
    intro j j' same
    simp only [← (step_seq _).1] at same
    exact manned.distinct same
  nodes := by
    intro j j' same
    simp only [manned.step_node] at same
    exact manned.nodes same
  keeps := (step_turn manned.distinct manned.keeps later few).1
  steady j := by
    by_cases same : j = i
    · subst same
      rw [manned.step_node]
      have steady := @Acting.Steady.handle _ source now _ _ (manned.steady j) event
      refine steady.congr ?_ ?_ ?_
      all_goals simp only [System.step, Function.update_self]
      exact fun f busy => ⟨f, busy, rfl⟩
    · have steady := manned.steady j
      refine Acting.Steady.congr (a := { client := S.clients j, io := S.ios j, history := S.history }) ?_ ?_ ?_ ?_
      all_goals simp only [System.step, Function.update_of_ne same]
      · exact steady
      · exact fun f busy => ⟨f, busy, rfl⟩
  numbered j := by
    by_cases same : j = i
    · subst same
      obtain ⟨s, h, settles, sends⟩ := step_moves source S j now event
      exact (manned.numbered j).moves settles sends
    · rw [crew_step, Function.update_of_ne same]
      exact manned.numbered j

theorem step_requests (j : ι) {r : Request} (sent : r ∈ (S.ios j).requests) :
    r ∈ ((S.step source i now event).ios j).requests := by
  by_cases same : j = i
  · subst same
    obtain ⟨s, h, settles, sends⟩ := step_moves source S j now event
    have before : r ∈ s.requests := by
      rw [settles.same.2.2.2.1]
      exact sent
    have after : r ∈ ((S.step source j now event).crew j).requests := by
      obtain quiet | ⟨t, -, more⟩ := sends.moves.2.2.1
      · rwa [quiet]
      · rw [more]
        exact List.mem_append_left _ before
    exact after
  · simpa only [step, Function.update_of_ne same] using sent

end System

end Harness

namespace Service

variable {ι G : Type} {S : Service ι G} {q : Request}

def Asked (S : Service ι G) (q : Request) : Prop :=
  ∃ i, (S.crew.clients i).node = q.src ∧
    { reqId := q.reqId, client := q.client, seq := q.seq, op := q.op : Harness.Request } ∈ (S.crew.ios i).requests

theorem Asks.asked {dst : NodeId} (asks : S.Asks dst q) : S.Asked q := by
  obtain ⟨i, node, sent⟩ := asks
  exact ⟨i, node, List.mem_filterMap.mpr ⟨_, sent, rfl⟩⟩

theorem Asked.keyed (asked : S.Asked q) (manned : S.crew.Manned) : q.op.key.isSome := by
  obtain ⟨i, _, sent⟩ := asked
  exact (manned.steady i).sent _ sent

-- What is asked for is one of the client's operations.
theorem Asked.listed (asked : S.Asked q) (manned : S.crew.Manned) : ∃ i, (S.crew.clients i).node = q.src ∧
    (S.crew.clients i).id = q.client ∧ 0 < q.seq ∧ q.seq ≤ (S.crew.clients i).seq ∧
    ∃ o ∈ S.crew.history.ops, o.id = Harness.operationId q.client q.seq ∧ o.client = q.client ∧ o.op = q.op := by
  obtain ⟨i, node, sent⟩ := asked
  obtain ⟨client, o, here, id, who, what⟩ := (manned.keeps.fits i).listed _ sent
  obtain ⟨positive, within⟩ := (manned.numbered i).sent _ sent
  have client : q.client = (S.crew.clients i).id := client
  refine ⟨i, node, client.symm, positive, within, o, here, ?_, who.trans client.symm, what⟩
  rw [client]
  exact id

theorem Asked.step [DecidableEq ι] {source : Harness.RandomSource G} {i : ι} {now : Nanos} {event : Harness.ClientEvent}
    (asked : S.Asked q) (manned : S.crew.Manned) : Asked { S with crew := S.crew.step source i now event } q := by
  obtain ⟨j, node, sent⟩ := asked
  exact ⟨j, (manned.step_node j).trans node, Harness.System.step_requests j sent⟩

end Service

end SimKv
