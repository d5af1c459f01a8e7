import SimKv.Kv.Run
import SimKv.Raft.Asks
import SimKv.Raft.Becomes
import SimKv.Raft.Contiguous

set_option autoImplicit false

/-!
# The state machine and the committed prefix

Relative to one sequence of committed entries: the state machine of a server is what the entries up to
`lastApplied` make of an empty one. `lastApplied` moves when committed entries are taken, when an installed
snapshot is adopted and when a server starts; the state machine moves later, while the queues are drained.
-/

namespace SimKv

/-- The machine after the first `count` entries of a sequence that starts at index one. -/
def stateAfter (committed : Nat → Entry) (count : Nat) : StateMachine :=
  StateMachine.applyAll {} ((List.range count).map fun i => (committed (i + 1)).cmd)

section Committed

variable (committed : Nat → Entry)

def Restores (index : Nat) (data : Bytes) : Prop :=
  ∃ members blob, decodeSnapshotPayload data = some (members, blob) ∧
    StateMachine.restore blob = .ok (stateAfter committed index)

/-- The log holds no other entries than those of the sequence, up to the commit index. -/
def Raft.Agrees (r : Raft) : Prop := ∀ e ∈ r.log.entries, e.index ≤ r.commitIndex → e = committed e.index

def RaftMsg.Genuine : RaftMsg → Prop
  | .installSnapshot _ _ index _ data => Restores committed index data
  | _ => True

def KvEvent.Genuine : KvEvent → Prop
  | .message _ _ msg => msg.Genuine committed
  | .restart _ wal a b => ∀ snap ∈ (readDisk wal a b).snapshot, Restores committed snap.index snap.data
  | _ => True

/-- What is to be done once a batch is durable fits the sequence, with `applied` entries applied. -/
def Persist.Fits (applied : Nat) : Persist → Prop
  | .snapshotTaken index _ _ => index ≤ applied
  | .snapshotInstalled index _ data _ _ _ => Restores committed index data
  | _ => True

def Cause.Fits (applied : Nat) : Cause → Prop
  | .message _ msg => msg.Genuine committed
  | .durable action _ => action.Fits committed applied
  | _ => True

def Raft.InStep (r : Raft) (sm : StateMachine) : Prop :=
  match r.pendingRestore with
  | none => sm = stateAfter committed r.lastApplied
  | some blob => StateMachine.restore blob = .ok (stateAfter committed r.lastApplied)

/-- What a node keeps so that the machine can follow it. -/
structure Raft.Follows (r : Raft) (sm : StateMachine) : Prop where
  contiguous : r.log.Contiguous
  based : r.log.snapshotIndex ≤ r.lastApplied
  ordered : r.persister.Ordered
  duties : ∀ d ∈ r.persister.duties, d.action.Fits committed r.lastApplied
  synced : r.InStep committed sm

instance (index : Nat) (data : Bytes) : Decidable (Restores committed index data) :=
  decidable_of_iff (∃ payload ∈ decodeSnapshotPayload data,
      StateMachine.restore payload.2 = .ok (stateAfter committed index)) (by simp [Restores])

instance (r : Raft) : Decidable (r.Agrees committed) := inferInstanceAs (Decidable (∀ e ∈ _, _))

instance : (msg : RaftMsg) → Decidable (msg.Genuine committed)
  | .installSnapshot .. => inferInstanceAs (Decidable (Restores ..))
  | .requestVote .. | .requestVoteResp .. | .appendEntries .. | .appendEntriesResp ..
  | .installSnapshotResp .. | .readProbe .. | .readProbeResp .. | .preVote .. | .preVoteResp .. =>
    inferInstanceAs (Decidable True)

instance : (event : KvEvent) → Decidable (event.Genuine committed)
  | .message .. => inferInstanceAs (Decidable (RaftMsg.Genuine ..))
  | .restart .. => inferInstanceAs (Decidable (∀ snap ∈ _, Restores ..))
  | .timer .. | .storage .. | .request .. | .membership .. => inferInstanceAs (Decidable True)

end Committed

variable {committed : Nat → Entry}

theorem stateAfter_succ (count : Nat) :
    stateAfter committed (count + 1) = ((stateAfter committed count).apply (committed (count + 1)).cmd).2 := by
  rw [stateAfter, List.range_succ, List.map_append, StateMachine.applyAll, List.foldl_append]
  rfl

theorem stateAfter_add (count more : Nat) :
    (stateAfter committed count).applyAll (((List.range' (count + 1) more).map committed).map Entry.cmd) =
      stateAfter committed (count + more) := by
  induction more generalizing count with
  | zero => rfl
  | succ more ih =>
    rw [List.range'_succ, List.map_cons, List.map_cons, StateMachine.applyAll, List.foldl_cons,
      ← stateAfter_succ]
    refine (ih (count + 1)).trans ?_
    rw [Nat.add_right_comm, Nat.add_assoc]

theorem Persist.Fits.mono {applied later : Nat} {action : Persist} (fits : action.Fits committed applied)
    (grows : applied ≤ later) : action.Fits committed later := by
  cases action with
  | snapshotTaken index term file => exact le_trans fits grows
  | snapshotInstalled index term data file replyTo replyTerm => exact fits
  | _ => trivial

theorem Persist.Fits.clamp {applied : Nat} {action : Persist} (fits : action.Fits committed applied) (cap : Nat) :
    (action.clamp cap).Fits committed applied := by
  cases action <;> exact fits

theorem Node.Owes.fits {cause : Cause} {n : Node} {action : Persist} {hard : Option HardState}
    (owes : n.Owes cause action hard) (genuine : cause.Fits committed n.lastApplied) :
    action.Fits committed n.lastApplied := by
  cases owes with
  | taken => exact le_refl n.lastApplied
  | installed src leader index indexTerm data offered =>
    rw [offered] at genuine
    exact genuine
  | _ => trivial

-- `lastApplied` and the waiting image move together, and the log never starts above `lastApplied`.
theorem Raft.Becomes.synced {cause : Cause} {r n m : Raft} {sm : StateMachine} (becomes : Becomes cause r n m)
    (fits : cause.Fits committed n.lastApplied) (based : n.log.snapshotIndex ≤ n.lastApplied)
    (synced : n.InStep committed sm) :
    n.lastApplied ≤ m.lastApplied ∧ m.log.snapshotIndex ≤ m.lastApplied ∧ m.InStep committed sm := by
  cases becomes with
  | splice _ _ _ _ _ _ p t es i conflict =>
    refine ⟨le_rfl, ?_, synced⟩
    exact (n.log.snapshotIndex_splice p es i conflict).trans_le based
  | taken index term file hard done =>
    rw [done] at fits
    refine ⟨le_rfl, ?_, synced⟩
    exact (n.log.snapshotIndex_compactTo index term).trans (max_le based fits)
  | adopt index term data file replyTo replyTerm hard done =>
    rw [done] at fits
    obtain ⟨members, blob, decoded, restored⟩ := fits
    refine ⟨le_max_left _ _, ?_, ?_⟩
    · exact (n.log.snapshotIndex_adopt index term).trans (max_le_max_right index based)
    · unfold InStep at synced ⊢
      simp only
      by_cases ahead : n.lastApplied < index
      · rw [if_pos ahead, max_eq_right ahead.le, decoded]
        exact restored
      · rw [if_neg ahead, max_eq_left (Nat.le_of_not_lt ahead)]
        exact synced
  | _ => exact ⟨le_rfl, based, synced⟩

-- Only an installed snapshot leaves an image to be restored.
theorem Raft.Becomes.pendingRestore {cause : Cause} {r n m : Raft} (becomes : Becomes cause r n m)
    (apart : ∀ action hard, cause ≠ .durable action hard) : m.pendingRestore = n.pendingRestore := by
  cases becomes with
  | adopt index term data file replyTo replyTerm hard done => exact absurd done (apart _ _)
  | _ => rfl

theorem Raft.Becomes.lastApplied {cause : Cause} {r n m : Raft} (becomes : Becomes cause r n m)
    (settled : m.pendingRestore = none) : n.pendingRestore = none ∧ m.lastApplied = n.lastApplied := by
  cases becomes with
  | adopt index term data file replyTo replyTerm hard done =>
    simp only at settled ⊢
    by_cases ahead : n.lastApplied < index
    · rw [if_pos ahead] at settled
      cases settled
    · rw [if_neg ahead] at settled
      exact ⟨settled, max_eq_left (Nat.le_of_not_lt ahead)⟩
  | _ => exact ⟨settled, rfl⟩

theorem Cause.Fits.mono {applied later : Nat} {cause : Cause} (fits : cause.Fits committed applied)
    (grows : applied ≤ later) : cause.Fits committed later := by
  cases cause with
  | durable action hard => exact Persist.Fits.mono fits grows
  | _ => exact fits

theorem Act.follows {cause : Cause} {r : Raft} {n m : Node} {sm : StateMachine} (act : Act cause r n m)
    (fits : cause.Fits committed n.lastApplied) (follows : n.Follows committed sm) :
    cause.Fits committed m.lastApplied ∧ m.Follows committed sm := by
  obtain ⟨grows, based, synced⟩ := act.becomes.synced fits follows.based follows.synced
  have asks := act.asks follows.ordered
  refine ⟨fits.mono grows, act.edit.contiguous follows.contiguous, based, asks.ordered follows.ordered, ?_, synced⟩
  intro d member
  obtain old | ⟨before, old, cap, rfl⟩ | owes := asks.duties member
  · exact (follows.duties d old).mono grows
  · exact ((follows.duties before old).mono grows).clamp cap
  · exact (owes.fits fits).mono grows

def Node.machine (n : Node) (sm : StateMachine) : StateMachine :=
  let restored := match n.pendingRestore with
    | none => sm
    | some blob => match StateMachine.restore blob with
      | .ok image => image
      | .error _ => sm
  restored.applyAll (n.takePendingRestore.2.takeApplied.1.map Entry.cmd)

-- The log has an entry under the index it carries.
theorem RaftLog.Contiguous.next {log : RaftLog} (contiguous : log.Contiguous) {applied : Nat} {e : Entry}
    (above : log.snapshotIndex ≤ applied) (found : log.get (applied + 1) = some e) :
    e ∈ log.entries ∧ e.index = applied + 1 := by
  rw [contiguous.get_eq (by omega)] at found
  refine ⟨List.mem_of_getElem? found, ?_⟩
  rw [contiguous _ e found, RaftLog.firstIndex]
  omega

-- The entries that are taken follow each other.
theorem takeAppliedGo_index {log : RaftLog} (contiguous : log.Contiguous) (fuel applied : Nat)
    (above : log.snapshotIndex ≤ applied) :
    (Node.takeAppliedGo log fuel applied).1.map Entry.index =
      List.range' (applied + 1) ((Node.takeAppliedGo log fuel applied).2 - applied) := by
  induction fuel generalizing applied with
  | zero => simp [Node.takeAppliedGo]
  | succ fuel ih =>
    rw [Node.takeAppliedGo]
    split
    · next e found =>
      have later := Node.le_takeAppliedGo log fuel (applied + 1)
      have count : (Node.takeAppliedGo log fuel (applied + 1)).2 - applied =
          (Node.takeAppliedGo log fuel (applied + 1)).2 - (applied + 1) + 1 := by omega
      simp only
      rw [count, List.range'_succ, List.map_cons, ← ih (applied + 1) (by omega), (contiguous.next above found).2]
    · simp

theorem mem_takeAppliedGo {log : RaftLog} (contiguous : log.Contiguous) (fuel applied : Nat)
    (above : log.snapshotIndex ≤ applied) :
    ∀ e ∈ (Node.takeAppliedGo log fuel applied).1, e ∈ log.entries ∧ e.index ≤ applied + fuel := by
  induction fuel generalizing applied with
  | zero => simp [Node.takeAppliedGo]
  | succ fuel ih =>
    rw [Node.takeAppliedGo]
    split
    · next e found =>
      obtain ⟨member, index⟩ := contiguous.next above found
      refine List.forall_mem_cons.mpr ⟨⟨member, by omega⟩, fun e' later => ?_⟩
      obtain ⟨member', index'⟩ := ih (applied + 1) (by omega) e' later
      exact ⟨member', by omega⟩
    · simp

-- The entries that are taken are the next ones of the sequence.
theorem takeAppliedGo_committed {log : RaftLog} (contiguous : log.Contiguous) {commit : Nat}
    (agrees : ∀ e ∈ log.entries, e.index ≤ commit → e = committed e.index) (fuel applied : Nat)
    (above : log.snapshotIndex ≤ applied) (below : applied + fuel ≤ commit) :
    (Node.takeAppliedGo log fuel applied).1 =
      (List.range' (applied + 1) ((Node.takeAppliedGo log fuel applied).2 - applied)).map committed := by
  rw [← takeAppliedGo_index contiguous fuel applied above, List.map_map]
  refine ((List.map_congr_left fun e taken => ?_).trans (List.map_id _)).symm
  obtain ⟨member, index⟩ := mem_takeAppliedGo contiguous fuel applied above e taken
  exact (agrees e member (index.trans below)).symm

-- What draining hands to the machine.
theorem Raft.Follows.handed {n : Node} {sm : StateMachine} (follows : n.Follows committed sm)
    (agrees : n.Agrees committed) : n.lastApplied ≤ n.emptyQueues.lastApplied ∧
      n.takePendingRestore.2.takeApplied.1 =
        (List.range' (n.lastApplied + 1) (n.emptyQueues.lastApplied - n.lastApplied)).map committed := by
  have start : max n.lastApplied n.log.snapshotIndex = n.lastApplied := max_eq_left follows.based
  rw [Node.emptyQueues_eq]
  simp only [Node.takePendingRestore, Node.takeApplied, start]
  refine ⟨Node.le_takeAppliedGo _ _ _, ?_⟩
  by_cases behind : n.lastApplied ≤ n.commitIndex
  · exact takeAppliedGo_committed follows.contiguous agrees _ _ follows.based (by omega)
  · have nothing : n.commitIndex - n.lastApplied = 0 := by omega
    rw [nothing]
    simp [Node.takeAppliedGo]

-- Every entry is handed over under its own index.
theorem Raft.Follows.handed_index {n : Node} {sm : StateMachine} (follows : n.Follows committed sm) :
    n.takePendingRestore.2.takeApplied.1.map Entry.index =
      List.range' (n.lastApplied + 1) (n.emptyQueues.lastApplied - n.lastApplied) := by
  have start : max n.lastApplied n.log.snapshotIndex = n.lastApplied := max_eq_left follows.based
  rw [Node.emptyQueues_eq]
  simp only [Node.takePendingRestore, Node.takeApplied, start]
  exact takeAppliedGo_index follows.contiguous _ _ follows.based

theorem Raft.Follows.restored {r : Raft} {sm : StateMachine} (follows : r.Follows committed sm) :
    (match r.pendingRestore with
      | none => sm
      | some blob => match StateMachine.restore blob with
        | .ok image => image
        | .error _ => sm) = stateAfter committed r.lastApplied := by
  have synced := follows.synced
  unfold Raft.InStep at synced
  cases waiting : r.pendingRestore with
  | none =>
    rw [waiting] at synced
    exact synced
  | some blob =>
    rw [waiting] at synced
    simp only
    rw [synced]

theorem Raft.Follows.machine {n : Node} {sm : StateMachine} (follows : n.Follows committed sm)
    (agrees : n.Agrees committed) : n.machine sm = stateAfter committed n.emptyQueues.lastApplied := by
  obtain ⟨later, handed⟩ := follows.handed agrees
  rw [Node.machine, handed, follows.restored, stateAfter_add, Nat.add_sub_cancel' later]

theorem Raft.Follows.emptyQueues {n : Node} {sm : StateMachine} (follows : n.Follows committed sm)
    (agrees : n.Agrees committed) : n.emptyQueues.Follows committed (n.machine sm) := by
  have machine := follows.machine agrees
  have later := (follows.handed agrees).1
  rw [Node.emptyQueues_eq] at machine later ⊢
  exact ⟨follows.contiguous, follows.based.trans later, follows.ordered,
    fun d member => (follows.duties d member).mono later, machine⟩

namespace KvServer

variable {who : Identity} {k : KvServer} {event : KvEvent}

theorem dropWaiting_sm (k : KvServer) (index : Nat) : (k.dropWaiting index).sm = k.sm := by
  unfold dropWaiting
  split
  · rw [reply_sm]
  · rfl

theorem dropAll_sm (k : KvServer) : k.dropAll.sm = k.sm := foldl_frame dropWaiting_sm _

theorem applyEntry_sm (k : KvServer) (e : Entry) : (k.applyEntry e).sm = (k.sm.apply e.cmd).2 := by
  simp only [applyEntry]
  split
  · rfl
  · rw [reply_sm]

theorem foldl_applyEntry_sm (entries : List Entry) (k : KvServer) :
    (entries.foldl applyEntry k).sm = k.sm.applyAll (entries.map Entry.cmd) := by
  induction entries generalizing k with
  | nil => rfl
  | cons e rest ih =>
    rw [List.foldl_cons, ih, applyEntry_sm]
    rfl

theorem applyCommitted_sm (k : KvServer) : k.applyCommitted.sm = k.sm.applyAll (k.takeApplied.1.map Entry.cmd) :=
  foldl_applyEntry_sm _ _

theorem answerRead_sm (k : KvServer) (id : Nat) : (k.answerRead id).sm = k.sm := by
  unfold answerRead
  split
  · rw [reply_sm]
  · rfl

theorem failRead_sm (k : KvServer) (id : Nat) : (k.failRead id).sm = k.sm := by
  unfold failRead
  split
  · rw [reply_sm]
  · rfl

theorem adoptSnapshot_sm (k : KvServer) : k.adoptSnapshot.sm =
    match k.pendingRestore with
    | none => k.sm
    | some blob => match StateMachine.restore blob with
      | .ok image => image
      | .error _ => k.sm := by
  simp only [adoptSnapshot, Node.takePendingRestore]
  cases k.pendingRestore with
  | none => rfl
  | some blob =>
    simp only [dropAll_sm]
    cases StateMachine.restore blob <;> rfl

theorem dropStale_sm (k : KvServer) : k.dropStale.sm = k.sm := foldl_frame dropWaiting_sm _

theorem answerReads_sm (k : KvServer) : k.answerReads.sm = k.sm := foldl_frame answerRead_sm _

theorem failReads_sm (k : KvServer) : k.failReads.sm = k.sm := foldl_frame failRead_sm _

theorem drained_sm (k : KvServer) : k.drained.sm = k.toNode.machine k.sm := by
  rw [drained, failReads_sm, answerReads_sm, dropStale_sm, applyCommitted_sm, adoptSnapshot_toNode,
    adoptSnapshot_sm, Node.machine]

theorem maybeSnapshot_sm (k : KvServer) : k.maybeSnapshot.sm = k.sm := by
  unfold maybeSnapshot
  split <;> rfl

theorem drain_sm (k : KvServer) : k.drain.sm = k.toNode.machine k.sm := by
  have last : k.drain.sm = k.drained.maybeSnapshot.sm := by
    unfold drain drained
    simp only
    split
    · rw [dropAll_sm]
    · rfl
  rw [last, maybeSnapshot_sm, drained_sm]

theorem follows_of_leads {cause : Cause} {r : Raft} {n m : Node} {sm : StateMachine} (leads : Leads cause r n m)
    (calm : m.panicked = false) (fits : cause.Fits committed n.lastApplied) (follows : n.Follows committed sm) :
    m.Follows committed sm := by
  have chain := leads calm
  clear leads calm
  suffices cause.Fits committed m.lastApplied ∧ m.Follows committed sm from this.2
  induction chain with
  | refl => exact ⟨fits, follows⟩
  | tail _ act ih => exact act.follows ih.1 ih.2

theorem pendingRestore_of_leads {cause : Cause} {r : Raft} {n m : Node} (leads : Leads cause r n m)
    (calm : m.panicked = false) (apart : ∀ action hard, cause ≠ .durable action hard) :
    m.pendingRestore = n.pendingRestore := by
  have chain := leads calm
  clear leads calm
  induction chain with
  | refl => rfl
  | tail _ act ih => exact (act.becomes.pendingRestore apart).trans ih

-- Without an image to be restored, a call leaves `lastApplied` alone.
theorem lastApplied_of_leads {cause : Cause} {r : Raft} {n m : Node} (leads : Leads cause r n m)
    (calm : m.panicked = false) (settled : m.pendingRestore = none) : m.lastApplied = n.lastApplied := by
  have chain := leads calm
  clear leads calm
  induction chain with
  | refl => rfl
  | tail _ act ih =>
    obtain ⟨before, same⟩ := act.becomes.lastApplied settled
    exact same.trans (ih before)

theorem begins_follows {now : Nat} {input : Input} {cause : Cause} {n : Node} {sm : StateMachine}
    (follows : k.Follows committed sm) (genuine : event.Genuine committed) (call : k.Calls event now input)
    (begins : k.server.Begins now input cause n) :
    n.lastApplied = k.lastApplied ∧ n.pendingRestore = k.pendingRestore ∧
      cause.Fits committed n.lastApplied ∧ n.Follows committed sm := by
  obtain ⟨_, fewer, ended⟩ := begins.duties
  have ordered := begins.ordered follows.ordered
  obtain ⟨_, _, _, _, _, _, raft⟩ := begins.toRaft_eq call.undrained
  have applied : n.lastApplied = k.lastApplied := by
    rw [raft]
    rfl
  refine ⟨applied, ?_, ?_, ?_⟩
  · rw [raft]
    rfl
  · cases cause with
    | durable action hard =>
      obtain ⟨d, member, rfl, rfl⟩ := ended action hard rfl
      rw [applied]
      exact follows.duties d member
    | message src msg =>
      obtain ⟨p, rfl, rfl, rfl, -⟩ := begins.message_inv rfl
      cases call with
      | message now src msg => exact genuine
    | _ => trivial
  · refine ⟨?_, ?_, ordered, fun d member => applied ▸ follows.duties d (fewer d member), ?_⟩
    · rw [raft]
      exact follows.contiguous
    · rw [raft]
      exact follows.based
    · rw [raft]
      exact follows.synced

/-- A node whose queues are drained while an event is handled. -/
inductive Drains (k : KvServer) (event : KvEvent) : Node → Prop where
  | idle (now : Nat) : k.Drains event (k.server.wake now)
  | called (now : Nat) (input : Input) (call : k.Calls event now input) :
      k.Drains event (k.server.handle now input).1

-- What a call leaves follows the sequence too, and starts where the server was unless it waits for an image.
theorem Drains.follows {n : Node} (drains : k.Drains event n) (calm : n.panicked = false)
    (follows : k.Follows committed k.sm) (genuine : event.Genuine committed) :
    n.Follows committed k.sm ∧ (n.pendingRestore = none → n.lastApplied = k.lastApplied) := by
  cases drains with
  | idle now => exact ⟨follows, fun _ => rfl⟩
  | called now input call =>
    obtain ⟨cause, n, begun, leads⟩ := k.server.handle_leads now input
    obtain ⟨applied, _, fits, begun⟩ := begins_follows follows genuine call begun
    exact ⟨follows_of_leads leads calm fits begun,
      fun settled => (lastApplied_of_leads leads calm settled).trans applied⟩

theorem panicked_of_drain {n : Node} {blob : Bytes} (calm : (n.drain blob).node.panicked = false) :
    n.panicked = false := by
  rwa [Node.drain_node, Node.takeSnapshot_panicked, Node.emptyQueues_eq] at calm

theorem drain_lastApplied (n : Node) (blob : Bytes) :
    (n.drain blob).node.lastApplied = n.emptyQueues.lastApplied := by
  rw [Node.drain_node]
  obtain ⟨_, _, _, _, _, raft⟩ := n.emptyQueues.takeSnapshot_toRaft blob
  rw [raft]

theorem agrees_of_drain {n : Node} {blob : Bytes} (agrees : (n.drain blob).node.Agrees committed) :
    n.Agrees committed := by
  rw [Node.drain_node] at agrees
  obtain ⟨_, _, _, _, _, raft⟩ := n.emptyQueues.takeSnapshot_toRaft blob
  rw [raft, Node.emptyQueues_eq] at agrees
  exact agrees

-- Draining the queues brings the machine up to `lastApplied`.
theorem drained_follows {n : Node} {sm : StateMachine} {blob : Bytes} (follows : n.Follows committed sm)
    (calm : (n.drain blob).node.panicked = false) (agrees : (n.drain blob).node.Agrees committed) :
    (n.drain blob).node.Follows committed (n.machine sm) ∧ (n.drain blob).node.pendingRestore = none := by
  have agrees := agrees_of_drain agrees
  rw [Node.drain_node] at *
  have leads : Leads .other n.emptyQueues.toRaft n.emptyQueues (n.emptyQueues.takeSnapshot blob) :=
    takeSnapshot_leads rfl blob
  refine ⟨follows_of_leads leads calm trivial (follows.emptyQueues agrees), ?_⟩
  rw [pendingRestore_of_leads leads calm nofun, Node.emptyQueues_eq]

theorem drain_follows (follows : k.Follows committed k.sm) (calm : k.drain.panicked = false)
    (agrees : k.drain.Agrees committed) :
    k.drain.Follows committed k.drain.sm ∧ k.drain.pendingRestore = none := by
  have node := k.drain_toNode
  rw [drain_sm]
  generalize k.drain.toNode = after at node calm agrees ⊢
  subst node
  exact drained_follows follows calm agrees

theorem readDisk_snapshotIndex (wal a b : Bytes) : (readDisk wal a b).log.snapshotIndex =
    ((readDisk wal a b).snapshot.map Snapshot.index).getD 0 := by
  simp only [readDisk, recoveredLog, Option.map_map]
  rfl

-- A server starts with the image it found, or with nothing.
theorem recover_follows {now : Nat} {wal a b : Bytes} (io : Io)
    (genuine : (KvEvent.restart now wal a b).Genuine committed) :
    (recover wal a b who.id who.members who.cfg io).Follows committed
        (recover wal a b who.id who.members who.cfg io).sm ∧
      (recover wal a b who.id who.members who.cfg io).pendingRestore = none := by
  obtain ⟨_, _, _, _, _, raft, _⟩ := Raft.recover_toRaft wal a b who.id who.members who.cfg io
  have machine : (recover wal a b who.id who.members who.cfg io).sm =
      stateAfter committed (readDisk wal a b).log.snapshotIndex := by
    rw [recover, adoptSnapshot_sm]
    simp only [raft, Survived.raft, readDisk_snapshotIndex]
    cases found : (readDisk wal a b).snapshot with
    | none => rfl
    | some snap =>
      obtain ⟨members, blob, decoded, restored⟩ := genuine snap found
      simp only [Option.bind_some, decoded, Option.map_some, restored, Option.getD_some]
  rw [machine, recover_toNode]
  refine ⟨?_, rfl⟩
  simp only [raft]
  refine ⟨readDisk_contiguous wal a b, le_rfl, ?_, ?_, rfl⟩
  · intro b member
    cases member
  · intro d member
    cases member

theorem handle_follows (follows : k.Follows committed k.sm) (settled : k.pendingRestore = none)
    (genuine : event.Genuine committed) (calm : (k.handle who event).panicked = false)
    (agrees : (k.handle who event).Agrees committed) :
    (k.handle who event).Follows committed (k.handle who event).sm ∧
      (k.handle who event).pendingRestore = none := by
  by_cases boots : ∃ now wal a b, event = .restart now wal a b
  · obtain ⟨now, wal, a, b, rfl⟩ := boots
    exact recover_follows _ genuine
  · push Not at boots
    have moves := k.handle_moves who boots
    generalize k.handle who event = after at moves calm agrees ⊢
    cases moves with
    | asleep now _ node machine =>
      rw [node, machine]
      exact ⟨follows, settled⟩
    | changed now members call _ node machine =>
      rw [node] at calm
      rw [node, machine]
      obtain ⟨cause, n, begun, leads⟩ := k.server.handle_leads now (.reconfigure members)
      obtain ⟨_, waiting, fits, start⟩ := begins_follows follows genuine call begun
      refine ⟨follows_of_leads leads calm fits start, ?_⟩
      rw [pendingRestore_of_leads leads calm ?_, waiting, settled]
      cases begun
      nofun
    | drained now k' node machine =>
      refine drain_follows ?_ calm agrees
      rw [node, machine]
      exact follows
    | called now input call k' node machine =>
      refine drain_follows ?_ calm agrees
      have fine : k'.panicked = false := by
        rw [drain_toNode] at calm
        exact panicked_of_drain calm
      rw [machine, node]
      rw [node] at fine
      exact ((Drains.called now input call).follows fine follows genuine).1

/-- What is taken for granted of an event: the snapshots it brings are of the sequence, and so is the log it
leaves. -/
def Faithful (committed : Nat → Entry) (who : Identity) (k : KvServer) (event : KvEvent) : Prop :=
  event.Genuine committed ∧ (k.handle who event).Agrees committed

instance (committed : Nat → Entry) (who : Identity) (k : KvServer) (event : KvEvent) :
    Decidable (Faithful committed who k event) := inferInstanceAs (Decidable (_ ∧ _))

/-- What is handed to the machine after a call that left `n`: every index above the one the machine is at,
once and in order. -/
structure HandsOver (committed : Nat → Entry) (k : KvServer) (n : Node) (after : Drained) : Prop where
  start : n.pendingRestore = none → n.lastApplied = k.lastApplied
  image : ∀ blob ∈ n.pendingRestore, StateMachine.restore blob = .ok (stateAfter committed n.lastApplied)
  handed : after.handed =
    (List.range' (n.lastApplied + 1) (after.node.lastApplied - n.lastApplied)).map committed

end KvServer

/-- The machine is always the fold of the entries up to `lastApplied`, and is handed no index twice or out of
order. -/
theorem state_machine_committed {committed : Nat → Entry} {who : Identity} {k : KvServer}
    (reached : KvServer.Reachable who (KvServer.Faithful committed who) k) :
    k.sm = stateAfter committed k.lastApplied ∧
      ∀ event n blob, k.Drains event n → event.Genuine committed → (n.drain blob).node.panicked = false →
        (n.drain blob).node.Agrees committed → k.HandsOver committed n (n.drain blob) := by
  have invariant : k.Follows committed k.sm ∧ k.pendingRestore = none := by
    refine @KvServer.Reachable.rule who k _ (fun k => k.Follows committed k.sm ∧ k.pendingRestore = none)
      reached ?_ ?_
    · refine @KvServer.recover_follows committed who 0 [] [] [] {} ?_
      intro snap found
      cases found
    · intro k event ⟨follows, settled⟩ ⟨genuine, agrees⟩ calm
      exact KvServer.handle_follows follows settled genuine calm agrees
  obtain ⟨follows, settled⟩ := invariant
  have synced := follows.synced
  unfold Raft.InStep at synced
  rw [settled] at synced
  refine ⟨synced, ?_⟩
  intro event n blob drains genuine calm agrees
  obtain ⟨later, start⟩ := drains.follows (KvServer.panicked_of_drain calm) follows genuine
  refine ⟨start, ?_, ?_⟩
  · intro blob waiting
    have synced := later.synced
    unfold Raft.InStep at synced
    rwa [waiting] at synced
  · rw [KvServer.drain_lastApplied]
    exact (later.handed (KvServer.agrees_of_drain agrees)).2

def straggler : Identity where
  id := 1
  members := [0, 1]
  cfg := {}

def writes (index : Nat) : Entry := { term := 1, index, cmd := { client := 7, seq := index, op := .put "k" "v" } }

def catchingUp : List KvEvent :=
  [.message 0 0 (.appendEntries 1 0 0 0 [writes 1] 1), .storage 0 1 true, .storage 0 2 true,
    .storage 0 3 true,
    .message 0 0 (.installSnapshot 1 0 3 1 (encodeSnapshotPayload [0, 1] (stateAfter writes 3).encode)),
    .storage 0 4 true, .storage 0 5 true, .storage 0 6 true]

def fourth : KvEvent := .message 0 0 (.appendEntries 1 0 3 1 [writes 4] 4)

def KvServer.withFourth (k : KvServer) : Node :=
  (k.server.handle 0 (.deliver { src := 0, dst := k.id, msg := .appendEntries 1 0 3 1 [writes 4] 4 })).1

theorem catchingUp_applied :
    (Execution.play (KvServer.step straggler) (KvServer.Faithful writes straggler) (KvServer.init straggler)
      catchingUp).map (fun k => (k.lastApplied, decide ((k.withFourth.drain []).node.Agrees writes),
        (k.withFourth.drain []).node.panicked, (k.withFourth.drain []).handed)) =
      some (3, true, false, [writes 4]) := by decide +kernel

theorem state_machine_committed_straggler : ∃ k : KvServer,
    KvServer.Reachable straggler (KvServer.Faithful writes straggler) k ∧ k.sm = stateAfter writes 3 ∧
      (k.withFourth.drain []).handed = [writes 4] ∧
      k.HandsOver writes k.withFourth (k.withFourth.drain []) := by
  obtain ⟨k, played, known⟩ := Option.map_eq_some_iff.mp catchingUp_applied
  simp only [Prod.mk.injEq, decide_eq_true_eq] at known
  obtain ⟨applied, agrees, calm, handed⟩ := known
  have reached : KvServer.Reachable straggler (KvServer.Faithful writes straggler) k :=
    Execution.run_of_play played
  obtain ⟨machine, hands⟩ := state_machine_committed reached
  rw [applied] at machine
  exact ⟨k, reached, machine, handed,
    hands fourth k.withFourth [] (.called 0 _ (.message 0 0 _)) trivial calm agrees⟩

end SimKv
