import SimKv.Kv.Server
import SimKv.Machine

set_option autoImplicit false

/-!
# Runs of one server

Whatever reaches a server is answered by at most one call of the node, with the queues drained
afterwards. A restart may find anything on disk.
-/

namespace SimKv

/-- What reaches a server. -/
inductive KvEvent where
  | message (now : Nat) (src : NodeId) (msg : RaftMsg)
  | timer (now : Nat) (tag : TimerTag)
  | storage (now : Nat) (op : OpId) (ok : Bool)
  | request (now : Nat) (src : NodeId) (reqId client seq : Nat) (op : Op)
  | membership (now : Nat) (members : List NodeId)
  | restart (now : Nat) (wal snapshotA snapshotB : Bytes)
  deriving DecidableEq, Repr

namespace KvServer

variable (who : Identity) (k : KvServer)

def server : Server where
  raft := k.toRaft
  nextOp := k.nextOp
  nextTimer := k.nextTimer
  nextRead := k.nextReadId

def wake (now : Nat) : KvServer := { k with toNode := k.server.wake now, replies := [] }

def init : KvServer := recover [] [] [] who.id who.members who.cfg {}

def handle : KvEvent → KvServer
  | .message now src msg => (k.wake now).onRaft src msg
  | .timer now tag => (k.wake now).onTimer tag
  | .storage now op ok => (k.wake now).onStorage op ok
  | .request now src reqId client seq op => (k.wake now).onRequest src reqId client seq op
  | .membership now members => ((k.wake now).proposeMembership members).2
  | .restart now wal snapshotA snapshotB =>
    recover wal snapshotA snapshotB who.id who.members who.cfg
      { now, nextOp := k.nextOp, nextTimer := k.nextTimer }

def step (event : KvEvent) : Option KvServer :=
  let k := k.handle who event
  if k.panicked = false then some k else none

abbrev Run (ok : KvServer → KvEvent → Prop) : KvServer → KvServer → Prop := Execution.Run (step who) ok

def Reachable (ok : KvServer → KvEvent → Prop) (k : KvServer) : Prop := Run who ok (init who) k

variable {who k} in
-- What holds of a first start and is kept by every event holds of every server.
theorem Reachable.rule {ok : KvServer → KvEvent → Prop} {holds : KvServer → Prop}
    (reached : Reachable who ok k) (first : holds (init who))
    (keeps : ∀ k event, holds k → ok k event → (k.handle who event).panicked = false →
      holds (k.handle who event)) : holds k := by
  refine reached.invariant first ?_
  intro t event t' before allowed next
  simp only [step] at next
  split at next
  · next calm =>
    cases next
    exact keeps t event before allowed calm
  · cases next

@[simp] theorem reply_toNode (dst : NodeId) (reqId : Nat) (outcome : Outcome) :
    (k.reply dst reqId outcome).toNode = k.toNode := by
  unfold reply
  split <;> rfl

@[simp] theorem dropWaiting_toNode (index : Nat) : (k.dropWaiting index).toNode = k.toNode := by
  unfold dropWaiting
  split
  · rw [reply_toNode]
  · rfl

@[simp] theorem applyEntry_toNode (e : Entry) : (k.applyEntry e).toNode = k.toNode := by
  simp only [applyEntry]
  split
  · rfl
  · rw [reply_toNode]

@[simp] theorem answerRead_toNode (id : Nat) : (k.answerRead id).toNode = k.toNode := by
  unfold answerRead
  split
  · rw [reply_toNode]
  · rfl

@[simp] theorem failRead_toNode (id : Nat) : (k.failRead id).toNode = k.toNode := by
  unfold failRead
  split
  · rw [reply_toNode]
  · rfl

variable {k} in
-- What every step of a walk leaves alone, the walk does.
theorem foldl_frame {α β : Type} {f : KvServer → α → KvServer} {part : KvServer → β}
    (frame : ∀ k a, part (f k a) = part k) (items : List α) : part (items.foldl f k) = part k := by
  induction items generalizing k with
  | nil => rfl
  | cons item rest ih => rw [List.foldl_cons, ih, frame]

@[simp] theorem dropAll_toNode : k.dropAll.toNode = k.toNode := foldl_frame dropWaiting_toNode _

@[simp] theorem dropStale_toNode : k.dropStale.toNode = k.toNode := foldl_frame dropWaiting_toNode _

@[simp] theorem adoptSnapshot_toNode : k.adoptSnapshot.toNode = k.takePendingRestore.2 := by
  simp only [adoptSnapshot, Node.takePendingRestore]
  split
  · next empty =>
    obtain ⟨nothing, _⟩ := Prod.mk.inj empty
    rw [← nothing]
  · next full =>
    obtain ⟨_, taken⟩ := Prod.mk.inj full
    rw [dropAll_toNode, ← taken]
    split <;> rfl

@[simp] theorem applyCommitted_toNode : k.applyCommitted.toNode = k.takeApplied.2 :=
  foldl_frame applyEntry_toNode _

@[simp] theorem answerReads_toNode : k.answerReads.toNode = k.takeReadyReads.2 :=
  foldl_frame answerRead_toNode _

@[simp] theorem failReads_toNode : k.failReads.toNode = k.takeFailedReads.2 :=
  foldl_frame failRead_toNode _

theorem maybeSnapshot_toNode : k.maybeSnapshot.toNode = k.takeSnapshot k.sm.encode := by
  unfold maybeSnapshot
  split
  · rfl
  · next unwanted => simp only [Node.takeSnapshot, unwanted, not_false_eq_true, if_true]

def drained : KvServer := k.adoptSnapshot.applyCommitted.dropStale.answerReads.failReads

theorem drain_toNode : k.drain.toNode = (k.toNode.drain k.drained.sm.encode).node := by
  have last : k.drain.toNode = k.drained.maybeSnapshot.toNode := by
    unfold drain drained
    simp only
    split
    · rw [dropAll_toNode]
    · rfl
  rw [last, maybeSnapshot_toNode]
  simp only [drained, Node.drain, failReads_toNode, answerReads_toNode, dropStale_toNode,
    applyCommitted_toNode, adoptSnapshot_toNode]

end KvServer

def Node.emptyQueues (n : Node) : Node :=
  n.takePendingRestore.2.takeApplied.2.takeReadyReads.2.takeFailedReads.2

namespace Node

variable (n : Node)

theorem drain_node (blob : Bytes) : (n.drain blob).node = n.emptyQueues.takeSnapshot blob := rfl

variable {n} in
theorem takeReadyReads_leader (leads : n.role = .leader) : n.takeReadyReads.2 = { n with
    pendingReads := n.pendingReads.filter fun read => ¬ readReady n.toRaft read
    readEvents := n.readEvents ++
      ((n.pendingReads.filter fun read => readReady n.toRaft read).map PendingRead.id).map
        ReadEvent.served } := by
  rw [takeReadyReads, if_neg (not_not.mpr leads)]

variable {n} in
theorem takeReadyReads_other (follows : n.role ≠ .leader) : n.takeReadyReads.2 = n := by
  rw [takeReadyReads, if_pos follows]

variable {n} in
theorem takeFailedReads_leader (leads : n.role = .leader) : n.takeFailedReads.2 = n := by
  rw [takeFailedReads, if_pos leads]

variable {n} in
theorem takeFailedReads_other (follows : n.role ≠ .leader) :
    n.takeFailedReads.2 = { n with pendingReads := [] } := by
  rw [takeFailedReads, if_neg follows]

-- Reads that are neither answered nor given up stay.
theorem emptyQueues_eq : n.emptyQueues = { n with
    pendingRestore := none
    lastApplied := n.takeApplied.2.lastApplied
    pendingReads := if n.role = .leader then
      n.pendingReads.filter fun read => ¬ readReady n.takeApplied.2.toRaft read else []
    readEvents := n.readEvents ++ if n.role = .leader then
      ((n.pendingReads.filter fun read => readReady n.takeApplied.2.toRaft read).map PendingRead.id).map
        ReadEvent.served else [] } := by
  have role : n.takePendingRestore.2.takeApplied.2.role = n.role := rfl
  unfold emptyQueues
  by_cases leads : n.role = .leader
  · have ready := takeReadyReads_leader (role.trans leads)
    refine (takeFailedReads_leader ?_).trans ?_
    · rw [ready]
      exact leads
    · rw [ready, if_pos leads, if_pos leads]
      rfl
  · rw [takeReadyReads_other (role ▸ leads), takeFailedReads_other (role ▸ leads), if_neg leads,
      if_neg leads, List.append_nil]
    rfl

end Node

theorem Node.takeSnapshot_toRaft (n : Node) (blob : Bytes) :
    ∃ snapshotSeq highestSnapshot snapshotInFlight snapshotData persister,
      (n.takeSnapshot blob).toRaft =
        { n.toRaft with snapshotSeq, highestSnapshot, snapshotInFlight, snapshotData, persister } := by
  simp only [takeSnapshot]
  split
  · exact ⟨_, _, _, _, _, rfl⟩
  · split
    · exact ⟨_, _, _, _, _, rfl⟩
    · next term known =>
      obtain ⟨p, raft⟩ := { n.claimSnapshot n.lastApplied with
        snapshotData := encodeSnapshotPayload (n.configAt n.lastApplied).1 blob }.writeSnapshot_toRaft
        n.nextSnapshotFile
        { seq := n.snapshotSeq, index := n.lastApplied, term,
          data := encodeSnapshotPayload (n.configAt n.lastApplied).1 blob }
        (.snapshotTaken n.lastApplied term n.nextSnapshotFile)
      exact ⟨_, _, _, _, p, raft⟩

-- A membership change is refused, or entered and in force.
theorem Node.proposeMembership_cases (n : Node) (members : List NodeId) :
    (n.proposeMembership members).2 = n ∨ ∃ cmd persister,
      (n.proposeMembership members).2.toRaft =
        { (n.appendEntry (n.ownEntry cmd)).refreshConfig.toRaft with persister } := by
  have entered (cmd : Command) (index : Nat) : ∃ cmd' persister,
      ((n.appendEntry (n.ownEntry cmd)).refreshConfig.persistLogFrom
        index false none 0 unverified).broadcastAppend.toRaft =
        { (n.appendEntry (n.ownEntry cmd')).refreshConfig.toRaft with persister } := by
    obtain ⟨persister, raft, _⟩ := (n.appendEntry (n.ownEntry cmd)).refreshConfig.persistLogFrom_spec
      index false none 0 unverified
    rw [broadcastAppend_toRaft, raft]
    exact ⟨cmd, persister, rfl⟩
  simp only [proposeMembership]
  split
  · exact .inl rfl
  · split
    · exact .inl rfl
    · split
      · exact .inl rfl
      · split
        · exact .inl rfl
        · split
          · exact .inl rfl
          · exact .inr (entered _ _)

-- A read that is not taken leaves no trace.
theorem Node.requestRead_refused {n : Node} {id : Nat} (refused : (n.requestRead id).1 = false) :
    (n.requestRead id).2 = n := by
  simp only [Node.requestRead] at refused ⊢
  split
  · rfl
  · next ready =>
    rw [if_neg ready] at refused
    split
    · rfl
    · next known =>
      rw [if_neg known] at refused
      cases refused

namespace KvServer

variable (who : Identity) (k : KvServer)

@[simp] theorem reply_nextReadId (dst : NodeId) (reqId : Nat) (outcome : Outcome) :
    (k.reply dst reqId outcome).nextReadId = k.nextReadId := by
  unfold reply
  split <;> rfl

theorem dropWaiting_nextReadId (index : Nat) : (k.dropWaiting index).nextReadId = k.nextReadId := by
  unfold dropWaiting
  split
  · rw [reply_nextReadId]
  · rfl

theorem applyEntry_nextReadId (e : Entry) : (k.applyEntry e).nextReadId = k.nextReadId := by
  simp only [applyEntry]
  split
  · rfl
  · rw [reply_nextReadId]

theorem answerRead_nextReadId (id : Nat) : (k.answerRead id).nextReadId = k.nextReadId := by
  unfold answerRead
  split
  · rw [reply_nextReadId]
  · rfl

theorem failRead_nextReadId (id : Nat) : (k.failRead id).nextReadId = k.nextReadId := by
  unfold failRead
  split
  · rw [reply_nextReadId]
  · rfl

theorem dropAll_nextReadId : k.dropAll.nextReadId = k.nextReadId := foldl_frame dropWaiting_nextReadId _

theorem adoptSnapshot_nextReadId : k.adoptSnapshot.nextReadId = k.nextReadId := by
  simp only [adoptSnapshot]
  split
  · rfl
  · rw [dropAll_nextReadId]
    split <;> rfl

theorem applyCommitted_nextReadId : k.applyCommitted.nextReadId = k.nextReadId :=
  foldl_frame applyEntry_nextReadId _

theorem dropStale_nextReadId : k.dropStale.nextReadId = k.nextReadId := foldl_frame dropWaiting_nextReadId _

theorem answerReads_nextReadId : k.answerReads.nextReadId = k.nextReadId :=
  foldl_frame answerRead_nextReadId _

theorem failReads_nextReadId : k.failReads.nextReadId = k.nextReadId := foldl_frame failRead_nextReadId _

theorem maybeSnapshot_nextReadId : k.maybeSnapshot.nextReadId = k.nextReadId := by
  unfold maybeSnapshot
  split <;> rfl

@[simp] theorem drain_nextReadId : k.drain.nextReadId = k.nextReadId := by
  have emptied : k.drained.nextReadId = k.nextReadId := by
    rw [drained, failReads_nextReadId, answerReads_nextReadId, dropStale_nextReadId,
      applyCommitted_nextReadId, adoptSnapshot_nextReadId]
  have last : k.drain.nextReadId = k.drained.maybeSnapshot.nextReadId := by
    unfold drain drained
    simp only
    split
    · rw [dropAll_nextReadId]
    · rfl
  rw [last, maybeSnapshot_nextReadId, emptied]

def Proposes (client seq : Nat) : Prop :=
  k.role = .leader ∧ k.failed = false ∧ k.sm.cached client seq = none ∧ k.inFlight client seq = none

instance (client seq : Nat) : Decidable (k.Proposes client seq) := inferInstanceAs (Decidable (_ ∧ _))

inductive Calls : KvEvent → Nat → Input → Prop where
  | message (now : Nat) (src : NodeId) (msg : RaftMsg) :
      Calls (.message now src msg) now (.deliver { src, dst := k.id, msg })
  | timer (now : Nat) (tag : TimerTag) : Calls (.timer now tag) now (.timer tag)
  | storage (now : Nat) (op : OpId) (ok : Bool) : Calls (.storage now op ok) now (.storage op ok)
  | propose (now : Nat) (src : NodeId) (reqId client seq : Nat) (op : Op) (fresh : k.Proposes client seq) :
      Calls (.request now src reqId client seq op) now (.propose { client, seq, op })
  | read (now : Nat) (src : NodeId) (reqId client seq : Nat) (key : String) (leads : k.role = .leader)
      (fresh : k.sm.cached client seq = none) :
      Calls (.request now src reqId client seq (.get key)) now .read
  | membership (now : Nat) (members : List NodeId) :
      Calls (.membership now members) now (.reconfigure members)

variable {k} in
theorem Calls.undrained {event : KvEvent} {now : Nat} {input : Input} (call : k.Calls event now input)
    (blob : Bytes) : input ≠ .drain blob := by
  cases call <;> nofun

inductive Comes (event : KvEvent) (next : Nat) : Node → Prop where
  | asleep (now : Nat) (later : k.nextReadId ≤ next) : Comes event next (k.server.wake now)
  | changed (now : Nat) (members : List NodeId) (call : k.Calls event now (.reconfigure members))
      (later : k.nextReadId ≤ next) : Comes event next (k.server.handle now (.reconfigure members)).1
  | drained (now : Nat) (later : k.nextReadId ≤ next) (blob : Bytes) :
      Comes event next ((k.server.wake now).drain blob).node
  | called (now : Nat) (input : Input) (call : k.Calls event now input) (later : k.nextReadId ≤ next)
      (counted : input = .read → next = k.nextReadId + 1) (blob : Bytes) :
      Comes event next ((k.server.handle now input).1.drain blob).node

/-- The same for the whole server: `k'` is what the call left, before its queues are drained. The state
machine only changes while they are. -/
inductive Moves (event : KvEvent) : KvServer → Prop where
  | asleep (now : Nat) (k' : KvServer) (node : k'.toNode = k.server.wake now) (machine : k'.sm = k.sm)
      (later : k.nextReadId ≤ k'.nextReadId) : Moves event k'
  | changed (now : Nat) (members : List NodeId) (call : k.Calls event now (.reconfigure members)) (k' : KvServer)
      (node : k'.toNode = (k.server.handle now (.reconfigure members)).1) (machine : k'.sm = k.sm)
      (later : k.nextReadId ≤ k'.nextReadId) : Moves event k'
  | drained (now : Nat) (k' : KvServer) (node : k'.toNode = k.server.wake now) (machine : k'.sm = k.sm)
      (later : k.nextReadId ≤ k'.nextReadId) : Moves event k'.drain
  | called (now : Nat) (input : Input) (call : k.Calls event now input) (k' : KvServer)
      (node : k'.toNode = (k.server.handle now input).1) (machine : k'.sm = k.sm)
      (later : k.nextReadId ≤ k'.nextReadId) (counted : input = .read → k'.nextReadId = k.nextReadId + 1) :
      Moves event k'.drain

@[simp] theorem reply_sm (dst : NodeId) (reqId : Nat) (outcome : Outcome) :
    (k.reply dst reqId outcome).sm = k.sm := by
  unfold reply
  split <;> rfl

variable {k} in
theorem proposeRequest_moves {now : Nat} {src : NodeId} {reqId client seq nextReadId : Nat} {op : Op}
    (leads : k.role = .leader) (fresh : k.sm.cached client seq = none) (later : k.nextReadId ≤ nextReadId) :
    k.Moves (.request now src reqId client seq op)
      (({ k.wake now with nextReadId }).proposeRequest src reqId client seq op) := by
  unfold proposeRequest
  have awake : { k.wake now with nextReadId }.inFlight client seq = k.inFlight client seq := rfl
  have node : { k.wake now with nextReadId }.toNode = k.server.wake now := rfl
  rw [awake, node]
  split
  · exact .asleep now _ rfl rfl later
  · next alone =>
    cases failed : k.failed with
    | false =>
      have call : k.Calls (.request now src reqId client seq op) now (.propose { client, seq, op }) :=
        .propose now src reqId client seq op ⟨leads, failed, fresh, alone⟩
      split
      · next index n proposed =>
        have same : n = (k.server.handle now (.propose { client, seq, op })).1 := by
          rw [Server.handle, proposed]
        exact .called now _ call _ same rfl later (by simp)
      · next n proposed =>
        have same : n = (k.server.handle now (.propose { client, seq, op })).1 := by
          rw [Server.handle, proposed]
        refine .called now _ call _ ?_ ?_ ?_ (by simp)
        · rw [reply_toNode, same]
        · rw [reply_sm]
          rfl
        · rwa [reply_nextReadId]
    | true =>
      have dead : (k.server.wake now).propose { client, seq, op } = (none, k.server.wake now) := by
        have here : (k.server.wake now).failed = true := failed
        simp only [Node.propose, here, or_true, if_true]
      rw [dead]
      refine .drained now _ ?_ ?_ ?_
      · rw [reply_toNode]
      · rw [reply_sm]
        rfl
      · rwa [reply_nextReadId]

-- At most one call, and the queues are drained after it.
theorem handle_moves {event : KvEvent} (alive : ∀ now wal a b, event ≠ .restart now wal a b) :
    k.Moves event (k.handle who event) := by
  cases event with
  | restart now wal a b => exact absurd rfl (alive now wal a b)
  | message now src msg =>
    rw [handle, onRaft]
    exact .called now _ (.message now src msg) _ rfl rfl le_rfl nofun
  | timer now tag =>
    rw [handle, onTimer]
    exact .called now _ (.timer now tag) _ rfl rfl le_rfl nofun
  | storage now op ok =>
    rw [handle, onStorage]
    exact .called now _ (.storage now op ok) _ rfl rfl le_rfl nofun
  | membership now members => exact .changed now members (.membership now members) _ rfl rfl le_rfl
  | request now src reqId client seq op =>
    rw [handle]
    unfold onRequest
    split
    · refine .asleep now _ ?_ ?_ ?_
      · rw [reply_toNode]
        rfl
      · rw [reply_sm]
        rfl
      · rw [reply_nextReadId]
        rfl
    · next leads =>
      have leads : k.role = .leader := not_not.mp leads
      have cache : (k.wake now).sm.cached client seq = k.sm.cached client seq := rfl
      rw [cache]
      split
      · refine .asleep now _ ?_ ?_ ?_
        · rw [reply_toNode]
          rfl
        · rw [reply_sm]
          rfl
        · rw [reply_nextReadId]
          rfl
      · next fresh =>
        split
        · next key =>
          simp only
          split
          · exact .called now _ (.read now src reqId client seq key leads fresh) _ rfl rfl (Nat.le_succ _) fun _ => rfl
          · next refused =>
            rw [Node.requestRead_refused (Bool.eq_false_iff.mpr refused)]
            exact proposeRequest_moves leads fresh (Nat.le_succ _)
        · exact @proposeRequest_moves k now src reqId client seq k.nextReadId op leads fresh le_rfl

theorem handle_comes {event : KvEvent} (alive : ∀ now wal a b, event ≠ .restart now wal a b) :
    k.Comes event (k.handle who event).nextReadId (k.handle who event).toNode := by
  have moves := k.handle_moves who alive
  generalize k.handle who event = after at moves ⊢
  cases moves with
  | asleep now _ node _ later =>
    rw [node]
    exact .asleep now later
  | changed now members call _ node _ later =>
    rw [node]
    exact .changed now members call later
  | drained now k' node _ later =>
    rw [drain_toNode, drain_nextReadId, node]
    exact .drained now later _
  | called now input call k' node _ later counted =>
    rw [drain_toNode, drain_nextReadId, node]
    exact .called now input call later counted _

variable {who k} in
-- What holds where a call of the node begins, and is kept by every act and by the emptying of the queues,
-- holds when the event is over.
theorem handle_rule {holds : Cause → Raft → Node → Prop} {event : KvEvent}
    (alive : ∀ now wal a b, event ≠ .restart now wal a b)
    (calm : (k.handle who event).panicked = false)
    (asleep : ∀ now, holds .other k.toRaft (k.server.wake now))
    (begins : ∀ now input cause n, k.Calls event now input → k.server.Begins now input cause n →
      holds cause n.toRaft n)
    (acts : ∀ cause r n m, holds cause r n → Act cause r n m → holds cause r m)
    (queues : ∀ cause r n, holds cause r n → holds .other n.emptyQueues.toRaft n.emptyQueues) :
    ∃ cause r, holds cause r (k.handle who event).toNode := by
  have chained {cause : Cause} {r : Raft} {n m : Node} (start : holds cause r n) (leads : Leads cause r n m)
      (fine : m.panicked = false) : holds cause r m := by
    have chain := leads fine
    clear leads fine
    induction chain with
    | refl => exact start
    | tail _ act ih => exact acts _ _ _ _ ih act
  have emptied {cause : Cause} {r : Raft} {n : Node} (start : holds cause r n) (blob : Bytes)
      (fine : (n.drain blob).node.panicked = false) : ∃ cause r, holds cause r (n.drain blob).node :=
    ⟨_, _, chained (queues _ _ _ start) (takeSnapshot_leads rfl blob) fine⟩
  have comes := k.handle_comes who alive
  generalize (k.handle who event).nextReadId = next at comes
  generalize (k.handle who event).toNode = last at comes calm ⊢
  cases comes with
  | asleep now => exact ⟨_, _, asleep now⟩
  | drained now _ blob => exact emptied (asleep now) blob calm
  | changed now members call =>
    obtain ⟨cause, n, begun, leads⟩ := k.server.handle_leads now (.reconfigure members)
    exact ⟨_, _, chained (begins _ _ _ _ call begun) leads calm⟩
  | called now input call _ _ blob =>
    obtain ⟨cause, n, begun, leads⟩ := k.server.handle_leads now input
    have fine : (k.server.handle now input).1.panicked = false := by
      have before := calm
      rw [Node.drain_node, Node.takeSnapshot_panicked] at before
      rwa [Node.emptyQueues_eq] at before
    exact emptied (chained (begins _ _ _ _ call begun) leads fine) blob calm

-- A server that restarts is the node that restarts, with its snapshot handed over.
theorem recover_toNode (wal a b : Bytes) (id : NodeId) (members : List NodeId) (cfg : RaftConfig) (io : Io) :
    (recover wal a b id members cfg io).toNode =
      { Raft.recover wal a b id members cfg io with pendingRestore := none } := by
  rw [recover, adoptSnapshot_toNode]
  rfl

end KvServer

end SimKv
