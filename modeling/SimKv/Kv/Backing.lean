import SimKv.Kv.Asking
import SimKv.Raft.Bookkeeping
import SimKv.Raft.Draws
import SimKv.Safety

set_option autoImplicit false

/-!
# The nodes under the service

While no server compacts its log and reads go through it, the nodes under the servers run as the nodes of a cluster do.
What holds of every run of a cluster holds of the logs of the service.
-/

namespace SimKv

open Succession

variable {ι G : Type} {setup : Setup} {S : Service ι G} {c : Cluster} {id : NodeId} {event : KvEvent}

/-- The host of a cluster that stands for a server. -/
structure ServiceHost.Backed (h : ServiceHost) (b : Host) : Prop where
  raft : b.raft = h.toRaft
  nextOp : b.nextOp = h.nextOp
  nextTimer : b.nextTimer = h.nextTimer
  held : ∀ log, log ∈ h.held ↔ ∃ x ∈ b.held, x.log = log
  hardWrites : ∀ hard ∈ h.hardWrites, hard ∈ b.hardWrites

/-- The hosts stand for the servers, and what the servers have sent is under way. -/
structure Service.Backed (S : Service ι G) (c : Cluster) : Prop where
  hosts : ∀ id, (S.host id).Backed (c.host id)
  net : ∀ p ∈ S.net, ∃ q ∈ c.net, q.src = p.src ∧ q.dst = p.dst ∧ q.msg = p.msg

theorem ServiceHost.Backed.wake {h : ServiceHost} {b : Host} (backed : h.Backed b) (now : Nat) :
    b.wake now = h.server.wake now := by
  simp only [Server.wake, KvServer.server, backed.raft, backed.nextOp, backed.nextTimer]

-- The host goes through a state of its own for every log and every hard state of the server.
theorem ServiceHost.Backed.settle {h : ServiceHost} {b b' : Host} {k : KvServer} (backed : h.Backed b)
    (goesOn : event.hardWrites h.hardWrites = h.hardWrites) (raft : b'.raft = k.toRaft) (nextOp : b'.nextOp = k.nextOp)
    (nextTimer : b'.nextTimer = k.nextTimer)
    (held : ∀ log, (∃ x ∈ b'.held, x.log = log) ↔ (∃ x ∈ b.held, x.log = log) ∨ log = k.log)
    (hardWrites : ∀ hard, hard ∈ b.hardWrites ∨ hard ∈ k.persister.batches.filterMap Batch.hard → hard ∈ b'.hardWrites) :
    (h.settle event k).Backed b' where
  raft := raft
  nextOp := nextOp
  nextTimer := nextTimer
  held log := by
    rw [held, ← backed.held, ServiceHost.settle, List.mem_append, List.mem_singleton]
  hardWrites hard written := by
    rw [ServiceHost.settle, goesOn] at written
    exact hardWrites hard ((List.mem_append.mp written).imp_left (backed.hardWrites hard))

theorem KvEvent.hardWrites_of_alive (alive : ∀ now wal a b, event ≠ .restart now wal a b) (before : List HardState) :
    event.hardWrites before = before := by
  cases event with
  | restart now wal a b => exact absurd rfl (alive now wal a b)
  | _ => rfl

theorem Node.drain_of_uncompacted {n : Node} (uncompacted : n.cfg.snapshotThreshold = 0) (blob : Bytes) :
    (n.drain blob).node = n.emptyQueues := by
  have same : n.emptyQueues.cfg = n.cfg := by rw [Node.emptyQueues_eq]
  have unwanted : ¬ n.emptyQueues.wantsSnapshot := by
    rintro ⟨positive, -⟩
    rw [same, uncompacted] at positive
    exact Nat.lt_irrefl _ positive
  rw [Node.drain_node, Node.takeSnapshot, if_pos unwanted]

-- What emptying the queues makes of the state depends on nothing else.
theorem Node.emptyQueues_congr {n m : Node} (same : n.toRaft = m.toRaft) :
    n.emptyQueues.toRaft = m.emptyQueues.toRaft := by
  obtain ⟨r, io⟩ := n
  obtain ⟨r', io'⟩ := m
  cases same
  rw [Node.emptyQueues_eq, Node.emptyQueues_eq]
  rfl

@[simp] theorem Node.emptyQueues_toIo (n : Node) : n.emptyQueues.toIo = n.toIo := by
  rw [Node.emptyQueues_eq]

theorem Node.emptyQueues_log (n : Node) : n.emptyQueues.log = n.log ∧ n.emptyQueues.persister = n.persister := by
  rw [Node.emptyQueues_eq]
  exact ⟨rfl, rfl⟩

-- Where reads go through the log, the node is never asked to answer one.
theorem Node.requestRead_logged {n : Node} (logged : n.cfg.readMode = .log) (read : Nat) : (n.requestRead read).2 = n := by
  refine Node.requestRead_refused ?_
  have other : n.cfg.readMode ≠ .readIndex := by
    rw [logged]
    nofun
  rw [Node.requestRead, if_pos (.inl other)]

theorem Command.members_of_key {cmd : Command} (named : cmd.op.key.isSome) : cmd.members = none := by
  rw [members]
  split
  · next installs =>
    rw [installs] at named
    cases named
  · rfl

def Service.Sourced (S : Service ι G) (e : Entry) : Prop :=
  e.cmd = .noop ∨ ∃ q, S.Asked q ∧ e.cmd = { client := q.client, seq := q.seq, op := q.op }

theorem Service.Sourced.plain {e : Entry} (sourced : S.Sourced e) (manned : S.crew.Manned) : e.cmd.members = none := by
  rcases sourced with own | ⟨q, asked, same⟩
  · rw [own]
    rfl
  · rw [same]
    exact Command.members_of_key (asked.keyed manned)

theorem Node.drain_draws {new : Entry → Prop} (n : Node) (blob : Bytes) : Node.Draws new n (n.drain blob).node := by
  obtain ⟨_, _, _, _, _, raft⟩ := n.emptyQueues.takeSnapshot_toRaft blob
  refine .still ?_
  rw [Node.drain_node, raft]
  exact n.emptyQueues_log.1

def KvEvent.Supplies (e : Entry) : KvEvent → Prop
  | .message _ _ msg => e ∈ msg.entries
  | .request _ _ _ client seq op => e.cmd = { client, seq, op }
  | _ => False

-- What is in a log after an event was there before, or the event brought it, or it opens a term.
theorem KvServer.handle_draws {who : Identity} {k : KvServer} (boots : ∀ now wal a b, event ≠ .restart now wal a b)
    (fixed : ∀ now members, event ≠ .membership now members) :
    Node.Draws (fun e => event.Supplies e ∨ e.cmd = .noop) k.toNode (k.handle who event).toNode := by
  have comes := k.handle_comes who boots
  generalize (k.handle who event).toNode = n at comes ⊢
  have awake : ∀ now, Node.Draws (fun e => event.Supplies e ∨ e.cmd = .noop) k.toNode (k.server.wake now) :=
    fun now => .still rfl
  cases comes with
  | asleep now => exact awake now
  | changed now members call =>
    cases call
    exact absurd rfl (fixed now members)
  | drained now _ blob => exact (awake now).trans (Node.drain_draws _ blob)
  | called now input call _ _ blob =>
    refine .trans ((awake now).trans ?_) (Node.drain_draws _ blob)
    cases call with
    | message now src msg => exact Node.onMessage_draws _ src msg
    | timer now tag => exact Node.onTimer_draws _ tag
    | storage now op ok => exact Node.onStorage_draws _ op ok fun _ => .inr
    | propose now src reqId client seq op =>
      exact ⟨fun e member => ((Node.propose_draws _ _).mem e member).imp_right .inl⟩
    | read => exact Node.requestRead_draws _ _
    | membership now members => exact absurd rfl (fixed now members)

def Cluster.input (c : Cluster) (id : NodeId) (now : Nat) (input : Input) : Cluster where
  host := Function.update c.host id
    ((c.host id).settle input ((c.host id).handle now input).1 ((c.host id).handle now input).2)
  net := c.net ++ (c.host id).packets id ((c.host id).handle now input).1

theorem Cluster.run_input {ok : Cluster → Event → Prop} {now : Nat} {input : Input}
    (possible : input.Possible c.net id) (calm : ((c.host id).handle now input).1.panicked = false)
    (allowed : ok c (.input id now input)) : Cluster.Run setup ok c (c.input id now input) :=
  Execution.Run.refl.step allowed (if_pos ⟨possible, calm⟩)

namespace Service.Backed

-- What one server does moves one host.
theorem settle {c' : Cluster} {k : KvServer} (backed : S.Backed c) (host : ((S.host id).settle event k).Backed (c'.host id))
    (others : ∀ j, j ≠ id → c'.host j = c.host j) (kept : ∀ q ∈ c.net, q ∈ c'.net)
    (sent : ∀ m ∈ k.sent, ∃ q ∈ c'.net, q.src = id ∧ q.dst = m.1 ∧ q.msg = m.2) : (S.settle id event k).Backed c' where
  hosts j := by
    rw [Service.settle]
    dsimp only
    by_cases here : j = id
    · subst here
      rw [Function.update_self]
      exact host
    · rw [Function.update_of_ne here, others j here]
      exact backed.hosts j
  net p member := by
    rcases List.mem_append.mp member with old | new
    · obtain ⟨q, here, same⟩ := backed.net p old
      exact ⟨q, kept q here, same⟩
    · obtain ⟨m, listed, rfl⟩ := List.mem_map.mp new
      exact sent m listed

-- A node that is not called, or whose call is refused, is as it was.
theorem asleep {now : Nat} {k : KvServer} (backed : S.Backed c) (alive : ∀ now wal a b, event ≠ .restart now wal a b)
    (logged : (c.host id).raft.cfg.readMode = .log) (node : k.toNode = (S.host id).server.wake now) :
    ∃ c', Cluster.Run setup Survives c c' ∧ (S.settle id event k).Backed c' := by
  have host := backed.hosts id
  have woken : ((c.host id).handle now .read).1 = (c.host id).wake now := Node.requestRead_logged logged _
  have here : (c.input id now .read).host id =
      (c.host id).settle .read ((c.host id).wake now) ((c.host id).handle now .read).2 := by
    rw [Cluster.input, woken]
    exact Function.update_self ..
  have raft : k.toRaft = (c.host id).raft := (congrArg Node.toRaft node).trans host.raft.symm
  refine ⟨c.input id now .read, Cluster.run_input trivial (by rw [woken]; rfl) trivial, backed.settle ?_ ?_ ?_ ?_⟩
  · rw [here]
    refine host.settle (event.hardWrites_of_alive alive _) raft.symm ?_ ?_ (fun log => ?_) fun hard written => ?_
    · exact host.nextOp.trans (congrArg (fun n : Node => n.nextOp) node).symm
    · exact host.nextTimer.trans (congrArg (fun n : Node => n.nextTimer) node).symm
    · have same : k.log = (c.host id).raft.log := congrArg Raft.log raft
      simp only [Host.settle, List.mem_append, List.mem_singleton, or_and_right, exists_or, exists_eq_left, same]
      exact or_congr_right eq_comm
    · have batches : k.persister = ((c.host id).wake now).persister := congrArg Raft.persister raft
      rw [batches] at written
      exact List.mem_append.mpr written
  · exact fun j apart => Function.update_of_ne apart ..
  · exact fun q member => List.mem_append_left _ member
  · have quiet : k.sent = [] := by
      rw [node]
      rfl
    rw [quiet]
    exact List.forall_mem_nil _

-- A call of the node and the emptying of its queues are two inputs of the host.
theorem called {now : Nat} {input : Input} {n : Node} {k : KvServer} {c₁ : Cluster} (backed : S.Backed c)
    (alive : ∀ now wal a b, event ≠ .restart now wal a b) (moved : c₁ = c.input id now input)
    (result : ((c.host id).handle now input).1 = n) (possible : input.Possible c.net id) (calm : n.panicked = false)
    (uncompacted : n.cfg.snapshotThreshold = 0) (node : k.toNode = n.emptyQueues) :
    ∃ c', Cluster.Run setup Survives c c' ∧ (S.settle id event k).Backed c' := by
  have host := backed.hosts id
  have mid : c₁.host id = (c.host id).settle input n ((c.host id).handle now input).2 := by
    rw [moved, Cluster.input, result]
    exact Function.update_self ..
  -- the host wakes again with what the call left
  have same : ((c₁.host id).wake now).toRaft = n.toRaft := by rw [mid]; rfl
  have emptied : ((c₁.host id).handle now (.drain [])).1 = ((c₁.host id).wake now).emptyQueues :=
    Node.drain_of_uncompacted (by rw [same]; exact uncompacted) []
  have raft : k.toRaft = ((c₁.host id).wake now).emptyQueues.toRaft :=
    (congrArg Node.toRaft node).trans (Node.emptyQueues_congr same).symm
  have log : k.log = n.log := (congrArg (fun n : Node => n.log) node).trans n.emptyQueues_log.1
  have persister : k.persister = n.persister := (congrArg (fun n : Node => n.persister) node).trans n.emptyQueues_log.2
  have io : k.toIo = n.toIo := (congrArg Node.toIo node).trans n.emptyQueues_toIo
  have last : (c₁.input id now (.drain [])).host id = (c₁.host id).settle (.drain [])
      ((c₁.host id).wake now).emptyQueues ((c₁.host id).handle now (.drain [])).2 := by
    rw [Cluster.input, emptied]
    exact Function.update_self ..
  refine ⟨c₁.input id now (.drain []), ?_, backed.settle ?_ ?_ ?_ ?_⟩
  · have first : Cluster.Run setup Survives c c₁ := moved ▸ Cluster.run_input possible (result ▸ calm) trivial
    refine first.trans (Cluster.run_input trivial ?_ trivial)
    rw [emptied]
    exact congrArg Io.panicked (Node.emptyQueues_toIo _)
  · rw [last]
    refine host.settle (event.hardWrites_of_alive alive _) raft.symm ?_ ?_ (fun other => ?_) fun hard written => ?_
    · change ((c₁.host id).wake now).emptyQueues.nextOp = k.nextOp
      have first : ((c₁.host id).wake now).emptyQueues.nextOp = ((c₁.host id).wake now).nextOp :=
        congrArg Io.nextOp (Node.emptyQueues_toIo _)
      rw [first, mid]
      exact (congrArg Io.nextOp io).symm
    · change ((c₁.host id).wake now).emptyQueues.nextTimer = k.nextTimer
      have first : ((c₁.host id).wake now).emptyQueues.nextTimer = ((c₁.host id).wake now).nextTimer :=
        congrArg Io.nextTimer (Node.emptyQueues_toIo _)
      rw [first, mid]
      exact (congrArg Io.nextTimer io).symm
    · have again : (((c.host id).toServer.settle input n).wake now).emptyQueues.log = n.log := (Node.emptyQueues_log _).1
      rw [mid]
      simp only [Host.settle, List.mem_append, List.mem_singleton, or_and_right, exists_or, exists_eq_left]
      rw [again, log, or_assoc, or_self]
      exact or_congr_right eq_comm
    · rw [persister] at written
      rw [mid]
      exact List.mem_append_left _ (List.mem_append.mpr written)
  · intro j apart
    rw [moved]
    exact (Function.update_of_ne apart ..).trans (Function.update_of_ne apart ..)
  · intro q member
    rw [moved]
    exact List.mem_append_left _ (List.mem_append_left _ member)
  · intro m sent
    have sent : m ∈ n.sent := by
      have effects : k.effects = n.effects := congrArg Io.effects io
      rwa [Node.sent, effects] at sent
    refine ⟨{ src := id, dst := m.1, msg := m.2, covered := (c.host id).covered }, ?_, rfl, rfl, rfl⟩
    rw [moved]
    refine List.mem_append_left _ (List.mem_append_right _ ?_)
    rw [Host.packets, result]
    exact List.mem_map_of_mem sent

-- Emptying the queues alone is one input.
theorem drained {now : Nat} {k : KvServer} (backed : S.Backed c) (alive : ∀ now wal a b, event ≠ .restart now wal a b)
    (logged : (c.host id).raft.cfg.readMode = .log) (uncompacted : (c.host id).raft.cfg.snapshotThreshold = 0)
    (node : k.toNode = ((S.host id).server.wake now).emptyQueues) :
    ∃ c', Cluster.Run setup Survives c c' ∧ (S.settle id event k).Backed c' := by
  rw [← (backed.hosts id).wake now] at node
  have refused : ((c.host id).handle now .read).1 = (c.host id).wake now := Node.requestRead_logged logged _
  exact backed.called alive rfl refused trivial rfl uncompacted node

-- Whatever a server asks of its node can happen to the host.
theorem input {now : Nat} {input : Input} (backed : S.Backed c) (manned : S.crew.Manned)
    (logged : (c.host id).raft.cfg.readMode = .log) (reaches : S.Reaches id event) (call : (S.host id).Calls event now input) :
    ∃ input' : Input, input'.Possible c.net id ∧
      ((c.host id).handle now input').1 = ((S.host id).server.handle now input).1 := by
  have awake := (backed.hosts id).wake now
  cases call with
  | message now src msg =>
    obtain ⟨q, here, rfl, dst, rfl⟩ := backed.net _ reaches
    exact ⟨.deliver q, ⟨here, dst⟩, congrArg (fun n : Node => n.onMessage q.src q.msg) awake⟩
  | timer now tag => exact ⟨.timer tag, trivial, congrArg (fun n : Node => n.onTimer tag) awake⟩
  | storage now op ok => exact ⟨.storage op ok, trivial, congrArg (fun n : Node => n.onStorage op ok) awake⟩
  | propose now src reqId client seq op fresh =>
    have keyed := (Asks.asked reaches).keyed manned
    exact ⟨.propose { client, seq, op }, Command.members_of_key keyed, congrArg (fun n : Node => (n.propose _).2) awake⟩
  | read now src reqId client seq key leads fresh =>
    refine ⟨.read, trivial, (Node.requestRead_logged logged _).trans (awake.trans ?_)⟩
    refine (Node.requestRead_logged ?_ _).symm
    rwa [(backed.hosts id).raft] at logged
  | membership now members => exact reaches.elim

-- An event that is not a restart.
theorem alive (backed : S.Backed c) (manned : S.crew.Manned) {g : State NodeId Entry} (rel : SafetyRel setup c g)
    (logged : (setup.cfg id).readMode = .log) (boots : ∀ now wal a b, event ≠ .restart now wal a b)
    (reaches : S.Reaches id event) (calm : (S.react setup id event).panicked = false) :
    ∃ c', Cluster.Run setup Survives c c' ∧ (S.settle id event (S.react setup id event)).Backed c' := by
  have log := rel.logs id
  have logged : (c.host id).raft.cfg.readMode = .log := log.cfg ▸ logged
  have comes := (S.host id).toKvServer.handle_comes (KvCluster.identity setup id) boots
  change KvServer.Comes _ _ (S.react setup id event).nextReadId (S.react setup id event).toNode at comes
  generalize S.react setup id event = k at comes calm ⊢
  generalize node : k.toNode = n at comes calm
  cases comes with
  | asleep now => exact backed.asleep boots logged node
  | changed now members call =>
    cases call
    exact reaches.elim
  | drained now _ blob =>
    have emptied : k.toNode = ((S.host id).server.wake now).emptyQueues := by
      refine node.trans (Node.drain_of_uncompacted ?_ blob)
      exact (congrArg (fun r : Raft => r.cfg.snapshotThreshold) (backed.hosts id).raft).symm.trans log.uncompacted
    exact backed.drained boots logged log.uncompacted emptied
  | called now input call _ _ blob =>
    obtain ⟨input', possible, result⟩ := backed.input manned logged reaches call
    have calm := KvServer.panicked_of_drain calm
    rw [← result] at calm
    obtain ⟨_, _, rel'⟩ := rel.input possible calm
    have kept := (rel'.logs id).uncompacted
    dsimp only at kept
    rw [Function.update_self] at kept
    refine backed.called boots rfl rfl possible calm kept (node.trans ?_)
    rw [result]
    refine Node.drain_of_uncompacted ?_ blob
    rw [← result]
    exact kept

theorem restarted {now : Nat} {wal a b : Bytes} {g : State NodeId Entry} (backed : S.Backed c) (rel : SafetyRel setup c g)
    (plain : ∀ log ∈ (S.host id).held, ∀ e ∈ log.entries, e.cmd.members = none)
    (reaches : S.Reaches id (.restart now wal a b)) :
    ∃ c', Cluster.Run setup Survives c c' ∧
      (S.settle id (.restart now wal a b) (S.react setup id (.restart now wal a b))).Backed c' := by
  obtain ⟨bare, written, recent, ⟨log, held, remnant⟩, least⟩ := reaches
  have host := backed.hosts id
  obtain ⟨origin, listed, same⟩ := (host.held log).mp held
  have whole := ((rel.held id origin listed).truncateFrom ((readDisk wal a b).log.lastIndex + 1)).2
  rw [same, ← remnant] at whole
  have possible : (readDisk wal a b).Possible setup (c.host id) := by
    refine ⟨host.hardWrites _ written, ?_, fun e member => plain log held e (whole.subset member), ?_⟩
    · rw [host.raft]
      exact recent
    · rw [bare]
      nofun
  have survives : Survives c (.restart id now (readDisk wal a b) origin) := by
    refine ⟨bare, listed, same ▸ remnant, ?_, fun e member => keptEntries_term _ _ _ _ e member⟩
    rw [host.raft]
    exact least
  -- there is no image to hand over
  have node : (S.react setup id (.restart now wal a b)).toNode = (readDisk wal a b).boot id setup.members (setup.cfg id)
      { now, nextOp := (c.host id).nextOp, nextTimer := (c.host id).nextTimer } := by
    have booted := KvServer.recover_toNode wal a b id setup.members (setup.cfg id)
      { now, nextOp := (S.host id).nextOp, nextTimer := (S.host id).nextTimer }
    obtain ⟨_, _, _, _, _, raft, _⟩ := Raft.recover_toRaft wal a b id setup.members (setup.cfg id)
      { now, nextOp := (S.host id).nextOp, nextTimer := (S.host id).nextTimer }
    have none : (Raft.recover wal a b id setup.members (setup.cfg id)
        { now, nextOp := (S.host id).nextOp, nextTimer := (S.host id).nextTimer }).pendingRestore = none := by
      rw [raft]
      simp only [Survived.raft, bare]
      rfl
    rw [host.nextOp, host.nextTimer]
    refine booted.trans ?_
    rw [Raft.recover] at none ⊢
    rw [← none]
  obtain ⟨_, _, _, _, _, raft, nextOp⟩ := Raft.recover_toRaft wal a b id setup.members (setup.cfg id)
    { now, nextOp := (c.host id).nextOp, nextTimer := (c.host id).nextTimer }
  refine ⟨_, Execution.Run.refl.step survives (if_pos possible), backed.settle ?_ ?_ (fun q member => member) ?_⟩
  · dsimp only
    rw [Function.update_self]
    refine ⟨(congrArg Node.toRaft node).symm, ?_, (congrArg (fun n : Node => n.nextTimer) node).symm, fun log => ?_, ?_⟩
    · exact nextOp.symm.trans (congrArg (fun n : Node => n.nextOp) node).symm
    · have kept : (S.react setup id (.restart now wal a b)).log = (readDisk wal a b).log :=
        (congrArg (fun n : Node => n.log) node).trans (congrArg Raft.log raft)
      simp only [ServiceHost.settle, Host.reboot, List.mem_append, List.mem_singleton, or_and_right, exists_or,
        exists_eq_left, kept, host.held log]
      exact or_congr_right eq_comm
    · have fresh : (S.react setup id (.restart now wal a b)).persister.batches = [] :=
        (congrArg (fun n : Node => n.persister.batches) node).trans (congrArg (fun r : Raft => r.persister.batches) raft)
      intro hard written
      rwa [ServiceHost.settle, fresh, List.filterMap_nil, List.append_nil] at written
  · exact fun j apart => Function.update_of_ne apart ..
  · have quiet : (S.react setup id (.restart now wal a b)).effects = [] :=
      (congrArg (fun n : Node => n.effects) node).trans (congrArg Io.effects (Node.refreshConfig_toIo _))
    rw [Node.sent, quiet]
    exact List.forall_mem_nil _

end Service.Backed

namespace Service

structure Holds (setup : Setup) (S : Service ι G) (c : Cluster) (g : State NodeId Entry) : Prop where
  safety : SafetyRel setup c g
  backed : S.Backed c
  manned : S.crew.Manned
  sourced : ∀ id, ∀ log ∈ (S.host id).held, ∀ e ∈ log.entries, S.Sourced e
  current : ∀ id, (S.host id).log ∈ (S.host id).held

variable {g : State NodeId Entry}

theorem backed_start (crew : Harness.System ι G) : (start setup crew).Backed (Cluster.init setup) where
  hosts id := by
    have node : (KvServer.init (KvCluster.identity setup id)).toNode =
        Raft.recover [] [] [] id setup.members (setup.cfg id) {} := KvServer.recover_toNode ..
    refine ⟨(congrArg Node.toRaft node).symm, ?_, (congrArg (fun n : Node => n.nextTimer) node).symm, fun log => ?_, ?_⟩
    · exact (congrArg (fun n : Node => n.nextOp) node).symm
    · simp only [start, Cluster.init, List.mem_singleton, exists_eq_left]
      exact eq_comm
    · exact fun hard written => written
  net := List.forall_mem_nil _

theorem Holds.start {source : Harness.RandomSource G} {crew : Harness.System ι G} (uncompacted : setup.Uncompacted)
    (initial : crew.Initial source) (nodes : Function.Injective fun i => (crew.clients i).node) :
    (start setup crew).Holds setup (Cluster.init setup) (.fresh initialBallot) where
  safety := .init uncompacted
  backed := backed_start crew
  manned := initial.manned nodes
  sourced id log held := by
    rw [List.mem_singleton.mp held]
    exact List.forall_mem_nil _
  current id := by
    have node := KvServer.recover_toNode [] [] [] id setup.members (setup.cfg id) {}
    have empty : (KvServer.init (KvCluster.identity setup id)).log = {} := congrArg (fun n : Node => n.log) node
    exact List.mem_singleton.mpr empty

-- What winners have in their logs has been asked for.
theorem Holds.source (holds : S.Holds setup c g) {t : Nat} {e : Entry} (member : e ∈ g.lead t) : S.Sourced e := by
  obtain ⟨id, h, held, inside⟩ := holds.safety.kept t e member
  exact holds.sourced id h.log (((holds.backed.hosts id).held h.log).mpr ⟨h, held, rfl⟩) e inside

-- What a server has in its log after an event has been asked for.
theorem Holds.react (holds : S.Holds setup c g) (reaches : S.Reaches id event) :
    ∀ e ∈ (S.react setup id event).log.entries, S.Sourced e := by
  intro e member
  by_cases boots : ∃ now wal a b, event = .restart now wal a b
  · obtain ⟨now, wal, a, b, rfl⟩ := boots
    obtain ⟨-, -, -, ⟨log, held, remnant⟩, -⟩ := reaches
    obtain ⟨_, _, _, _, _, raft, -⟩ := Raft.recover_toRaft wal a b id setup.members (setup.cfg id)
      { now, nextOp := (S.host id).nextOp, nextTimer := (S.host id).nextTimer }
    have kept : (S.react setup id (.restart now wal a b)).log = (readDisk wal a b).log :=
      (congrArg (fun n : Node => n.log) (KvServer.recover_toNode ..)).trans (congrArg Raft.log raft)
    rw [kept, remnant] at member
    exact holds.sourced id log held e (RaftLog.mem_of_mem_truncateFrom member)
  · push Not at boots
    have fixed : ∀ now members, event ≠ .membership now members := by
      rintro now members rfl
      exact reaches
    obtain old | supplies | own := (KvServer.handle_draws boots fixed).mem e member
    · exact holds.sourced id _ (holds.current id) e old
    · cases event with
      | message now src msg =>
        obtain ⟨q, here, rfl, -, rfl⟩ := holds.backed.net _ reaches
        have tells := holds.safety.net q here
        cases carried : q.msg with
        | appendEntries term leader prevIndex prevTerm entries leaderCommit =>
          rw [carried] at tells supplies
          obtain ⟨k, found⟩ := List.getElem?_of_mem supplies
          exact holds.source (List.mem_of_getElem? (tells.slices k e found))
        | _ =>
          rw [carried] at supplies
          cases supplies
      | request now src reqId client seq op => exact .inr ⟨_, Asks.asked reaches, supplies⟩
      | _ => exact supplies.elim
    · exact .inl own

-- What holds of the server an event happened to and held of the others holds of all.
theorem forall_settle (holds : ServiceHost → Prop) {k : KvServer} (own : holds ((S.host id).settle event k))
    (others : ∀ j, holds (S.host j)) (j : NodeId) : holds ((S.settle id event k).host j) := by
  rw [settle]
  dsimp only
  by_cases here : j = id
  · subst here
    rwa [Function.update_self]
  · rw [Function.update_of_ne here]
    exact others j

theorem Holds.server (holds : S.Holds setup c g) (uncompacted : setup.Uncompacted)
    (logged : ∀ id, (setup.cfg id).readMode = .log) (reaches : S.Reaches id event)
    (calm : (S.react setup id event).panicked = false) :
    ∃ c' g', Grows g g' ∧ (S.settle id event (S.react setup id event)).Holds setup c' g' := by
  have moved : ∃ c', Cluster.Run setup Survives c c' ∧ (S.settle id event (S.react setup id event)).Backed c' := by
    by_cases boots : ∃ now wal a b, event = .restart now wal a b
    · obtain ⟨now, wal, a, b, rfl⟩ := boots
      exact holds.backed.restarted holds.safety
        (fun log held e member => (holds.sourced id log held e member).plain holds.manned) reaches
    · push Not at boots
      exact holds.backed.alive holds.manned holds.safety (logged id) boots reaches calm
  obtain ⟨c', run, backed⟩ := moved
  obtain ⟨g', grows, safety⟩ := holds.safety.run uncompacted run
  refine ⟨c', g', grows, safety, backed, holds.manned,
    forall_settle (fun h => ∀ log ∈ h.held, ∀ e ∈ log.entries, S.Sourced e) ?_ holds.sourced,
    forall_settle (fun h => h.log ∈ h.held) List.mem_concat_self holds.current⟩
  intro log held e member
  rcases List.mem_append.mp held with old | new
  · exact holds.sourced id log old e member
  · rw [List.mem_singleton.mp new] at member
    exact holds.react reaches e member

theorem Holds.client [DecidableEq ι] {source : Harness.RandomSource G} {i : ι} {now : Nanos} {told : Harness.ClientEvent}
    (holds : S.Holds setup c g) (later : S.crew.now ≤ now) (few : (S.crew.step source i now told).Few) :
    Holds setup { S with crew := S.crew.step source i now told } c g where
  safety := holds.safety
  backed := ⟨holds.backed.hosts, holds.backed.net⟩
  manned := holds.manned.step later few
  sourced id log held e member := (holds.sourced id log held e member).imp_right fun ⟨q, asked, same⟩ =>
    ⟨q, asked.step holds.manned, same⟩
  current := holds.current

end Service

end SimKv
