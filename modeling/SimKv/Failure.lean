import SimKv.Solo

set_option autoImplicit false

/-!
# Storage errors

A node gives up for good when an operation fails that its persister knows of. The persister knows of every
operation but those that reset the log region once a received snapshot has replaced the log.
-/

namespace SimKv

structure Node.Inert (n : Node) : Prop where
  message : ∀ src msg, n.onMessage src msg = n
  timer : ∀ tag, n.onTimer tag = n
  storage : ∀ op ok, n.onStorage op ok = n
  propose : ∀ cmd, n.propose cmd = (none, n)
  membership : ∀ members, (n.proposeMembership members).2 = n
  read : ∀ id, (n.requestRead id).2 = n
  snapshot : ∀ data, n.takeSnapshot data = n

theorem Node.inert {n : Node} (failed : n.failed = true) : n.Inert where
  message src msg := by simp only [onMessage, failed, if_true]
  timer tag := by simp only [onTimer, failed, if_true]
  storage op ok := by simp only [onStorage, failed, if_true]
  propose cmd := by simp only [Node.propose, failed, or_true, if_true]
  membership members := by simp only [proposeMembership, failed, or_true, if_true]
  read id := by simp only [requestRead, failed, or_true, if_true]
  snapshot data := by
    unfold takeSnapshot
    rw [if_pos]
    simp [Raft.wantsSnapshot, failed]

-- A node that has given up does not come back by itself.
theorem Server.handle_stays_failed {s : Server} {now : Nat} (failed : s.raft.failed = true) (input : Input) :
    (s.handle now input).1.failed = true := by
  have inert := Node.inert (show (s.wake now).failed = true from failed)
  cases input with
  | deliver p => exact (congrArg Raft.failed (congrArg Node.toRaft (inert.message p.src p.msg))).trans failed
  | timer tag => exact (congrArg Raft.failed (congrArg Node.toRaft (inert.timer tag))).trans failed
  | storage op ok => exact (congrArg Raft.failed (congrArg Node.toRaft (inert.storage op ok))).trans failed
  | propose cmd =>
    simp only [handle, inert.propose cmd]
    exact failed
  | reconfigure members =>
    simp only [handle, inert.membership members]
    exact failed
  | read =>
    simp only [handle, inert.read s.nextRead]
    exact failed
  | drain blob =>
    obtain ⟨reads, events, same⟩ := (s.wake now).drain_spec blob
    have drained : ({ s.wake now with
        pendingRestore := none
        lastApplied := (s.wake now).takeApplied.2.lastApplied
        pendingReads := reads
        readEvents := events } : Node).failed = true := failed
    simp only [handle, same, (Node.inert drained).snapshot blob]
    exact failed

namespace Persister

def registered (p : Persister) : List OpId := p.ops.map Prod.fst

variable {p : Persister} {op : OpId}

theorem onComplete_registered (p : Persister) (op : OpId) (ok : Bool) :
    (p.onComplete op ok).2.registered = p.registered.erase op := by
  have erased : (p.ops.eraseP fun o => o.1 = op).map Prod.fst = p.registered.erase op := by
    rw [registered, List.erase_eq_eraseP', List.eraseP_map]
    congr 2
  unfold onComplete
  split
  · next unknown =>
    rw [List.erase_of_not_mem]
    intro known
    obtain ⟨o, held, same⟩ := List.mem_map.mp known
    exact List.find?_eq_none.mp unknown o held (by simpa using same)
  · dsimp only
    split
    · exact erased
    · split
      · exact erased
      · split
        · split
          · exact erased
          · exact erased
        · exact erased

-- An error is noticed exactly if the operation is entered.
theorem onComplete_failed_iff : (p.onComplete op false).1 = .failed ↔ op ∈ p.registered := by
  unfold onComplete
  split
  · next unknown =>
    refine iff_of_false nofun fun known => ?_
    obtain ⟨o, held, same⟩ := List.mem_map.mp known
    exact List.find?_eq_none.mp unknown o held (by simpa using same)
  · next op' id kind found =>
    refine iff_of_true rfl ?_
    have same : op' = op := by simpa using List.find?_some found
    exact List.mem_map.mpr ⟨_, List.mem_of_find?_eq_some found, same⟩

theorem onComplete_unknown (unknown : op ∉ p.registered) (ok : Bool) : p.onComplete op ok = (.nothing, p) := by
  unfold onComplete
  split
  · rfl
  · next op' id kind found =>
    have same : op' = op := by simpa using List.find?_some found
    exact absurd (List.mem_map.mpr ⟨_, List.mem_of_find?_eq_some found, same⟩) unknown

theorem registered_clampAll (p : Persister) (cap : Nat) : (p.clampAll cap).registered = p.registered := rfl

theorem registered_noteSync (p : Persister) (id : Nat) (op : OpId) :
    (p.noteSync id op).registered = p.registered ++ [op] := by
  simp [registered, noteSync, modifyBatch]

theorem registered_opened (p : Persister) (file : FileId) (action : Persist) (hard : Option HardState)
    (ops : List OpId) : (p.opened file action hard ops).registered = p.registered ++ ops := by
  simp only [registered, opened, List.map_append, List.map_map, Function.comp_def, List.map_id']

end Persister

def Node.asked (n : Node) : List OpId := n.effects.filterMap Effect.op

/-- In the middle of an event that began with `known` entered and `first` as the next number: what is asked for
is new, and entered too, unless a received snapshot is being installed. -/
structure Node.Entered (known : List OpId) (first : OpId) (cause : Cause) (n : Node) : Prop where
  ordered : n.persister.Ordered
  grows : first ≤ n.nextOp
  fresh : ∀ op ∈ n.asked, first ≤ op ∧ op < n.nextOp
  once : n.asked.Nodup
  entered : ¬ cause.Installs → n.persister.registered = known ++ n.asked

theorem Node.Entered.more {known : List OpId} {first : OpId} {cause : Cause} {n m : Node}
    (entered : n.Entered known first cause) (ops : List OpId) (ordered : m.persister.Ordered)
    (asked : m.asked = n.asked ++ ops) (numbered : ∃ count, ops = List.range' n.nextOp count ∧
      m.nextOp = n.nextOp + count)
    (books : ¬ cause.Installs → m.persister.registered = n.persister.registered ++ ops) :
    m.Entered known first cause := by
  obtain ⟨count, rfl, nextOp⟩ := numbered
  have new : ∀ op ∈ List.range' n.nextOp count, n.nextOp ≤ op ∧ op < m.nextOp := by
    intro op member
    rw [List.mem_range'_1] at member
    rw [nextOp]
    exact member
  refine ⟨ordered, by rw [nextOp]; exact le_trans entered.grows (Nat.le_add_right _ _), ?_, ?_, ?_⟩
  · intro op member
    rw [asked] at member
    obtain old | late := List.mem_append.mp member
    · exact ⟨(entered.fresh op old).1, by rw [nextOp]; exact lt_of_lt_of_le (entered.fresh op old).2 (Nat.le_add_right _ _)⟩
    · exact ⟨le_trans entered.grows (new op late).1, (new op late).2⟩
  · rw [asked]
    refine entered.once.append List.nodup_range' fun op old late => ?_
    exact absurd (entered.fresh op old).2 (not_lt.mpr (new op late).1)
  · intro plain
    rw [books plain, entered.entered plain, asked, List.append_assoc]

-- Every act enters what it asks for.
theorem Node.Asks.entered {known : List OpId} {first : OpId} {cause : Cause} {n m : Node} (asks : Asks cause n m)
    (entered : n.Entered known first cause) : m.Entered known first cause := by
  have ordered := asks.ordered entered.ordered
  cases asks with
  | nothing out sends persister effects nextOp =>
    have silent : out.filterMap Effect.op = [] := List.filterMap_eq_nil_iff.mpr sends
    refine entered.more [] ordered ?_ ⟨0, rfl, nextOp⟩ fun _ => by rw [persister, List.append_nil]
    rw [asked, effects, List.filterMap_append, silent]
    rfl
  | clamp cap persister effects nextOp =>
    refine entered.more [] ordered ?_ ⟨0, rfl, nextOp⟩ fun _ => ?_
    · rw [asked, effects, List.append_nil]
      rfl
    · rw [persister, Persister.registered_clampAll, List.append_nil]
  | wal action hard writes _ _ _ opened =>
    refine entered.more (writes.filterMap Effect.op) ordered ?_ ⟨_, opened.numbered, opened.nextOp⟩ fun _ => ?_
    · rw [asked, opened.effects, List.filterMap_append]
      rfl
    · rw [opened.persister, Persister.registered_opened]
  | snapshot snap action _ _ _ _ _ _ _ _ _ _ opened =>
    refine entered.more _ ordered ?_ ⟨_, opened.numbered, opened.nextOp⟩ fun _ => ?_
    · rw [asked, opened.effects, List.filterMap_append]
      rfl
    · rw [opened.persister, Persister.registered_opened]
  | clear persister effects nextOp _ installed =>
    refine entered.more [n.nextOp, n.nextOp + 1] ordered ?_ ⟨2, rfl, nextOp⟩ fun plain => absurd installed plain
    rw [asked, effects, List.filterMap_append]
    rfl

theorem Node.asked_nil {n : Node} (io : n.effects = []) : n.asked = [] := by
  rw [asked, io]
  rfl

namespace Server

variable {s : Server} {now : Nat} {input : Input}

def knownAfter (s : Server) : Input → List OpId
  | .storage op _ => if s.raft.failed then s.raft.persister.registered else s.raft.persister.registered.erase op
  | _ => s.raft.persister.registered

theorem Begins.entered {cause : Cause} {n : Node} (begins : s.Begins now input cause n)
    (ordered : s.raft.persister.Ordered) (alive : ∀ op ok, input = .storage op ok → s.raft.failed = false) :
    n.Entered (s.knownAfter input) s.nextOp cause := by
  have order := begins.ordered ordered
  have plain : ∀ {m : Node}, m.effects = [] → m.nextOp = s.nextOp → m.persister.Ordered →
      m.persister.registered = s.knownAfter input → m.Entered (s.knownAfter input) s.nextOp cause := by
    intro m effects nextOp order books
    have nothing := Node.asked_nil effects
    refine ⟨order, nextOp.ge, ?_, ?_, fun _ => by rw [nothing, List.append_nil, books]⟩
    · rw [nothing]
      exact nofun
    · rw [nothing]
      exact List.nodup_nil
  cases begins with
  | message | timer | propose | proposeMembers | reconfigure | read | drain => exact plain rfl rfl order rfl
  | dead op ok failed =>
    rw [alive op ok rfl] at failed
    cases failed
  | booked op ok p completed | failed op ok p completed =>
    refine plain rfl rfl order ?_
    have books := s.raft.persister.onComplete_registered op ok
    rw [completed] at books
    rw [knownAfter, alive op ok rfl]
    exact books
  | sync op ok id file p completed =>
    have books := s.raft.persister.onComplete_registered op ok
    rw [completed] at books
    refine ⟨order, Nat.le_succ _, ?_, List.nodup_singleton _, fun _ => ?_⟩
    · intro op' member
      rw [List.mem_singleton.mp member]
      exact ⟨le_rfl, Nat.lt_succ_self _⟩
    · rw [knownAfter, alive op ok rfl]
      exact (p.registered_noteSync id s.nextOp).trans (by rw [books]; rfl)
  | done op ok action hard p completed =>
    have books := s.raft.persister.onComplete_registered op ok
    rw [completed] at books
    have io := Node.noteDurable_toIo { s.wake now with persister := p } hard
    refine plain (congrArg Io.effects io) (congrArg Io.nextOp io) order ?_
    rw [Node.noteDurable_persister, knownAfter, alive op ok rfl]
    exact books

end Server

-- While a snapshot is being installed, nothing is entered.
theorem Node.snapshotInstalled_persister (n : Node) (index term : Nat) (data : Bytes) (file : FileId) (replyTo : NodeId)
    (replyTerm : Nat) : (n.snapshotInstalled index term data file replyTo replyTerm).persister = n.persister := by
  unfold snapshotInstalled
  dsimp only
  split
  · rw [send_toRaft]
    rfl
  · obtain ⟨_, _, _, _, _, _, _, _, raft⟩ := (n.land file).adoptSnapshot_toRaft index term data
    rw [send_toRaft, raft]
    rfl

/-- One node and the operations it has issued in this life. -/
structure Issuer extends Server where
  -- The operations whose completions are still to come.
  owed : List OpId := []
  -- The operations that were issued while a received snapshot, now durable, was being installed.
  resets : List OpId := []

def Server.resetOps (s : Server) (input : Input) (n : Node) : List OpId :=
  match input with
  | .storage op ok =>
    match (s.raft.persister.onComplete op ok).1 with
    | .done (.snapshotInstalled ..) _ => n.asked
    | _ => []
  | _ => []

namespace Issuer

variable (who : Identity) (s : Issuer)

def Possible : Input → Prop
  | .storage op _ => op ∈ s.owed
  | _ => True

instance : (input : Input) → Decidable (s.Possible input)
  | .storage .. => inferInstanceAs (Decidable (_ ∈ _))
  | .deliver _ | .timer _ | .propose _ | .reconfigure _ | .read | .drain _ => inferInstanceAs (Decidable True)

def left : Input → List OpId
  | .storage op _ => s.owed.erase op
  | _ => s.owed

def settle (input : Input) (n : Node) : Issuer where
  toServer := s.toServer.settle input n
  owed := s.left input ++ n.asked
  resets := s.resets ++ s.toServer.resetOps input n

def reboot (now : Nat) (wal snapshotA snapshotB : Bytes) : Issuer :=
  let n := Raft.recover wal snapshotA snapshotB who.id who.members who.cfg
    { now, nextOp := s.nextOp, nextTimer := s.nextTimer }
  { raft := n.toRaft, nextOp := n.nextOp, nextTimer := n.nextTimer }

def init : Issuer :=
  let n := Raft.recover [] [] [] who.id who.members who.cfg {}
  { raft := n.toRaft, nextOp := n.nextOp, nextTimer := n.nextTimer }

def step : SoloEvent → Option Issuer
  | .input now input =>
    let n := (s.toServer.handle now input).1
    if s.Possible input ∧ n.panicked = false then some (s.settle input n) else none
  | .restart now wal snapshotA snapshotB => some (s.reboot who now wal snapshotA snapshotB)

abbrev Run (ok : Issuer → SoloEvent → Prop) : Issuer → Issuer → Prop := Execution.Run (step who) ok

def Reachable (s : Issuer) : Prop := Run who (fun _ _ => True) (init who) s

def SameLife : SoloEvent → Prop
  | .input .. => True
  | .restart .. => False

/-- An error in place of the completion of `op` takes the node down: in every state from then on, whatever it is
called for, it does nothing. -/
def Fatal (now : Nat) (op : OpId) : Prop :=
  ∃ t, s.step who (.input now (.storage op false)) = some t ∧ t.raft.failed = true ∧
    ∀ u, Run who (fun _ event => SameLife event) t u → u.raft.failed = true ∧ ∀ later, (u.wake later).Inert

structure Accounted : Prop where
  ordered : s.raft.persister.Ordered
  registered : ∀ op ∈ s.raft.persister.registered, op < s.nextOp
  once : s.owed.Nodup
  issued : ∀ op ∈ s.owed, op < s.nextOp
  earlier : ∀ op ∈ s.resets, op < s.nextOp
  books : ∀ op ∈ s.owed, op ∈ s.raft.persister.registered ↔ op ∉ s.resets

end Issuer

theorem Issuer.accounted_of_empty {s : Issuer} (persister : s.raft.persister = {}) (owed : s.owed = [])
    (resets : s.resets = []) : s.Accounted where
  ordered := by
    rw [persister]
    exact nofun
  registered := by
    rw [persister]
    exact nofun
  once := by
    rw [owed]
    exact List.nodup_nil
  issued := by
    rw [owed]
    exact nofun
  earlier := by
    rw [resets]
    exact nofun
  books := by
    rw [owed]
    exact nofun

theorem Raft.recover_persister (wal a b : Bytes) (id : NodeId) (members : List NodeId) (cfg : RaftConfig)
    (io : Io) : (Raft.recover wal a b id members cfg io).persister = {} := by
  obtain ⟨_, _, _, _, _, raft, _⟩ := Raft.recover_toRaft wal a b id members cfg io
  rw [raft]
  rfl

-- What is asked for is either entered as a whole or issued on an installation as a whole.
theorem Issuer.Accounted.settled {s : Issuer} (accounted : s.Accounted) {input : Input} {n : Node}
    {left known entered reset : List OpId} (ordered : n.persister.Ordered) (grows : s.nextOp ≤ n.nextOp)
    (fresh : ∀ op ∈ n.asked, s.nextOp ≤ op ∧ op < n.nextOp) (once : n.asked.Nodup) (fewer : left.Sublist s.owed)
    (old : ∀ op ∈ known, op ∈ s.raft.persister.registered)
    (kept : ∀ op ∈ left, op ∈ s.raft.persister.registered → op ∈ known)
    (books : n.persister.registered = known ++ entered)
    (whole : entered = n.asked ∧ reset = [] ∨ entered = [] ∧ reset = n.asked) :
    Issuer.Accounted
      { toServer := s.toServer.settle input n, owed := left ++ n.asked, resets := s.resets ++ reset } where
  ordered := ordered
  registered op member := by
    change op ∈ n.persister.registered at member
    rw [books] at member
    obtain here | new := List.mem_append.mp member
    · exact lt_of_lt_of_le (accounted.registered op (old op here)) grows
    · obtain ⟨rfl, -⟩ | ⟨rfl, -⟩ := whole
      · exact (fresh op new).2
      · cases new
  once := by
    refine (accounted.once.sublist fewer).append once fun op here new => ?_
    exact absurd (accounted.issued op (fewer.subset here)) (not_lt.mpr (fresh op new).1)
  issued op member := by
    obtain here | new := List.mem_append.mp member
    · exact lt_of_lt_of_le (accounted.issued op (fewer.subset here)) grows
    · exact (fresh op new).2
  earlier op member := by
    obtain here | new := List.mem_append.mp member
    · exact lt_of_lt_of_le (accounted.earlier op here) grows
    · obtain ⟨-, rfl⟩ | ⟨-, rfl⟩ := whole
      · cases new
      · exact (fresh op new).2
  books op member := by
    change op ∈ n.persister.registered ↔ _
    rw [books]
    obtain here | new := List.mem_append.mp member
    · -- an older operation: nothing new has its number
      have older := accounted.issued op (fewer.subset here)
      have notNew : op ∉ n.asked := fun new => absurd older (not_lt.mpr (fresh op new).1)
      have notEntered : op ∉ entered := by
        obtain ⟨rfl, -⟩ | ⟨rfl, -⟩ := whole
        · exact notNew
        · exact List.not_mem_nil
      have notReset : op ∉ reset := by
        obtain ⟨-, rfl⟩ | ⟨-, rfl⟩ := whole
        · exact List.not_mem_nil
        · exact notNew
      have before := accounted.books op (fewer.subset here)
      simp only [List.mem_append, notEntered, notReset, or_false]
      exact ⟨fun known => before.mp (old op known), fun plain => kept op here (before.mpr plain)⟩
    · -- a new one: no older list has its number
      have notKnown : op ∉ known := fun known =>
        absurd (accounted.registered op (old op known)) (not_lt.mpr (fresh op new).1)
      have notReset : op ∉ s.resets := fun early => absurd (accounted.earlier op early) (not_lt.mpr (fresh op new).1)
      obtain ⟨rfl, rfl⟩ | ⟨rfl, rfl⟩ := whole
      · simp [notReset, new]
      · simp [notKnown, new]

def Server.Installing (s : Server) (input : Input) (p : Persister) : Prop :=
  ∃ op ok index term data file replyTo replyTerm hard, input = .storage op ok ∧ s.raft.failed = false ∧
    s.raft.persister.onComplete op ok = (.done (.snapshotInstalled index term data file replyTo replyTerm) hard, p)

theorem Server.Begins.installing {s : Server} {now : Nat} {input : Input} {cause : Cause} {n : Node}
    (begins : s.Begins now input cause n) (alive : ∀ op ok, input = .storage op ok → s.raft.failed = false)
    (installs : cause.Installs) : ∃ p, s.Installing input p := by
  obtain ⟨index, term, data, file, replyTo, replyTerm, hard, same⟩ := installs
  cases begins with
  | done op ok action hard' p completed =>
    cases same
    exact ⟨p, op, ok, index, term, data, file, replyTo, replyTerm, hard, rfl, alive op ok rfl, completed⟩
  | _ => cases same

theorem Server.handle_entered {s : Server} {now : Nat} {input : Input} (ordered : s.raft.persister.Ordered)
    (alive : ∀ op ok, input = .storage op ok → s.raft.failed = false)
    (calm : (s.handle now input).1.panicked = false) :
    ∃ cause, (s.handle now input).1.Entered (s.knownAfter input) s.nextOp cause ∧
      (cause.Installs → ∃ p, s.Installing input p) := by
  obtain ⟨cause, _, last, installing⟩ := @Server.handle_rule s
    (fun cause _ n => n.Entered (s.knownAfter input) s.nextOp cause ∧
      (cause.Installs → ∃ p, s.Installing input p)) now input
    (fun cause n begins => ⟨begins.entered ordered alive, begins.installing alive⟩)
    (fun cause r n m mid act => ⟨(act.asks mid.1.ordered).entered mid.1, mid.2⟩) calm
  exact ⟨cause, last, installing⟩

theorem Server.handle_installing {s : Server} {now : Nat} {input : Input} {p : Persister}
    (installing : s.Installing input p) : (s.handle now input).1.persister = p ∧
      s.resetOps input (s.handle now input).1 = (s.handle now input).1.asked ∧
      s.knownAfter input = p.registered := by
  obtain ⟨op, ok, index, term, data, file, replyTo, replyTerm, hard, rfl, alive, completed⟩ := installing
  have here : (s.wake now).persister = s.raft.persister := rfl
  have living : (s.wake now).failed = false := alive
  refine ⟨?_, ?_, ?_⟩
  · simp only [handle, Node.onStorage, living, here, completed, Bool.false_eq_true, if_false, Node.onDurable]
    rw [Node.snapshotInstalled_persister, Node.noteDurable_persister]
  · simp only [resetOps, completed]
  · have books := s.raft.persister.onComplete_registered op ok
    rw [completed] at books
    rw [knownAfter, alive]
    exact books.symm

theorem Server.resetOps_of_not_installing {s : Server} {input : Input} {n : Node}
    (alive : ∀ op ok, input = .storage op ok → s.raft.failed = false) (plain : ∀ p, ¬ s.Installing input p) :
    s.resetOps input n = [] := by
  unfold resetOps
  split
  · next op ok =>
    split
    · next index term data file replyTo replyTerm hard done =>
      refine absurd ⟨op, ok, index, term, data, file, replyTo, replyTerm, hard, rfl, alive op ok rfl, ?_⟩
        (plain (s.raft.persister.onComplete op ok).2)
      rw [← done]
    · rfl
  · rfl

theorem Server.mem_registered_of_knownAfter {s : Server} {input : Input} {op : OpId} (here : op ∈ s.knownAfter input) :
    op ∈ s.raft.persister.registered := by
  unfold knownAfter at here
  split at here
  · split at here
    · exact here
    · exact List.mem_of_mem_erase here
  · exact here

theorem Issuer.left_sublist (s : Issuer) (input : Input) : (s.left input).Sublist s.owed := by
  unfold left
  split
  · exact List.erase_sublist
  · exact List.Sublist.refl _

-- Of what is left, a completion strikes nothing off the books.
theorem Issuer.Accounted.mem_knownAfter {s : Issuer} (accounted : s.Accounted) {input : Input}
    (alive : ∀ op ok, input = .storage op ok → s.raft.failed = false) {op : OpId} (here : op ∈ s.left input)
    (known : op ∈ s.raft.persister.registered) : op ∈ s.toServer.knownAfter input := by
  cases input with
  | storage op' ok =>
    have other : op ≠ op' := fun same => accounted.once.not_mem_erase (same ▸ here)
    rw [Server.knownAfter, alive op' ok rfl]
    exact (List.mem_erase_of_ne other).mpr known
  | _ => exact known

theorem Issuer.Accounted.step {who : Identity} {s s' : Issuer} {event : SoloEvent} (accounted : s.Accounted)
    (next : s.step who event = some s') : s'.Accounted := by
  cases event with
  | restart now wal a b =>
    cases next
    exact Issuer.accounted_of_empty (Raft.recover_persister ..) rfl rfl
  | input now input =>
    simp only [Issuer.step] at next
    split at next
    · next fine =>
      cases next
      by_cases dead : s.raft.failed = true ∧ ∃ op ok, input = .storage op ok
      · -- a completion that nobody takes notice of
        obtain ⟨failed, op, ok, rfl⟩ := dead
        have still : (s.toServer.handle now (.storage op ok)).1 = s.wake now :=
          (Node.inert (show (s.wake now).failed = true from failed)).storage op ok
        have nothing : (s.wake now).asked = [] := rfl
        have none_reset : s.toServer.resetOps (.storage op ok) (s.wake now) = [] := by
          simp only [Server.resetOps]
          split
          · exact nothing
          · rfl
        rw [still, Issuer.settle, none_reset]
        exact accounted.settled (n := s.wake now) accounted.ordered le_rfl nofun List.nodup_nil (s.left_sublist _)
          (fun op here => here) (fun op _ here => here) (List.append_nil _).symm (.inl ⟨nothing.symm, rfl⟩)
      · have alive : ∀ op ok, input = .storage op ok → s.raft.failed = false := by
          intro op ok same
          by_contra failed
          exact dead ⟨by simpa using failed, op, ok, same⟩
        obtain ⟨cause, entered, installs⟩ := s.toServer.handle_entered accounted.ordered alive fine.2
        have settled := @Issuer.Accounted.settled s accounted input (s.toServer.handle now input).1 (s.left input)
          (s.toServer.knownAfter input)
        by_cases installing : ∃ p, s.toServer.Installing input p
        · obtain ⟨p, installing⟩ := installing
          obtain ⟨books, reset, known⟩ := @Server.handle_installing s.toServer now input p installing
          rw [Issuer.settle, reset]
          refine settled entered.ordered entered.grows entered.fresh entered.once (s.left_sublist _)
            (fun op => Server.mem_registered_of_knownAfter) (fun op => accounted.mem_knownAfter alive) ?_
            (.inr ⟨rfl, rfl⟩)
          rw [books, known, List.append_nil]
        · rw [Issuer.settle, Server.resetOps_of_not_installing alive fun p here => installing ⟨p, here⟩]
          exact settled entered.ordered entered.grows entered.fresh entered.once (s.left_sublist _)
            (fun op => Server.mem_registered_of_knownAfter) (fun op => accounted.mem_knownAfter alive)
            (entered.entered fun here => installing (installs here)) (.inl ⟨rfl, rfl⟩)
    · cases next

theorem Issuer.Reachable.accounted {who : Identity} {s : Issuer} (reached : Issuer.Reachable who s) : s.Accounted :=
  reached.invariant (Issuer.accounted_of_empty (Raft.recover_persister ..) rfl rfl)
    fun _ _ _ accounted _ next => accounted.step next

-- What an error makes of a node, which it is entered for or not.
theorem Server.handle_error {s : Server} {now : Nat} {op : OpId} (alive : s.raft.failed = false) :
    (s.handle now (.storage op false)).1.panicked = false ∧
      ((s.handle now (.storage op false)).1.failed = true ↔ op ∈ s.raft.persister.registered) := by
  have here : (s.wake now).persister = s.raft.persister := rfl
  have living : (s.wake now).failed = false := alive
  simp only [handle, Node.onStorage, living, here, Bool.false_eq_true, if_false]
  by_cases known : op ∈ s.raft.persister.registered
  · have failed := Persister.onComplete_failed_iff.mpr known
    rcases completed : s.raft.persister.onComplete op false with ⟨event, p⟩
    rw [completed] at failed
    subst failed
    exact ⟨rfl, iff_of_true rfl known⟩
  · rw [Persister.onComplete_unknown known]
    exact ⟨rfl, iff_of_false (by simp) known⟩

theorem Issuer.stays_failed {who : Identity} {t u : Issuer} (failed : t.raft.failed = true)
    (run : Issuer.Run who (fun _ event => SameLife event) t u) : u.raft.failed = true := by
  refine @Execution.Run.invariant _ _ _ _ t u (fun s => s.raft.failed = true) failed ?_ run
  intro s event s' failed same next
  cases event with
  | restart => exact same.elim
  | input now input =>
    simp only [Issuer.step] at next
    split at next
    · cases next
      exact Server.handle_stays_failed failed input
    · cases next

/-- In every run of one node, and whatever order its operations complete in: an error takes the node down for
good exactly if the operation was not issued on the installation of a received snapshot. -/
theorem storage_error_fatal_iff {who : Identity} {s : Issuer} (reached : Issuer.Reachable who s) {op : OpId}
    (owed : op ∈ s.owed) (alive : s.raft.failed = false) (now : Nat) : s.Fatal who now op ↔ op ∉ s.resets := by
  have noticed := reached.accounted.books op owed
  obtain ⟨calm, failed⟩ := @Server.handle_error s.toServer now op alive
  have next : s.step who (.input now (.storage op false)) =
      some (s.settle (.storage op false) (s.toServer.handle now (.storage op false)).1) := if_pos ⟨owed, calm⟩
  rw [← noticed, ← failed]
  constructor
  · rintro ⟨t, step, down, -⟩
    rw [next] at step
    cases step
    exact down
  · intro down
    refine ⟨_, next, down, fun u run => ?_⟩
    have still := Issuer.stays_failed down run
    exact ⟨still, fun later => Node.inert still⟩

def newcomer : Identity where
  id := 1
  members := [0, 1]
  cfg := {}

def firstContact : List SoloEvent :=
  [.input 0 (.deliver { src := 0, dst := 1, msg := .appendEntries 1 0 0 0 [] 0 })]

theorem firstContact_owed :
    (Execution.play (Issuer.step newcomer) (fun _ _ => True) (Issuer.init newcomer) firstContact).map
      (fun s => (s.owed, s.resets, s.raft.failed)) = some ([1], [], false) := by decide +kernel

theorem storage_error_fatal_iff_newcomer : ∃ s : Issuer, Issuer.Reachable newcomer s ∧ s.Fatal newcomer 5 1 := by
  obtain ⟨s, played, known⟩ := Option.map_eq_some_iff.mp firstContact_owed
  simp only [Prod.mk.injEq] at known
  obtain ⟨owed, resets, alive⟩ := known
  have reached : Issuer.Reachable newcomer s := Execution.run_of_play played
  have due : 1 ∈ s.owed := by
    rw [owed]
    exact List.mem_singleton_self 1
  refine ⟨s, reached, (storage_error_fatal_iff reached due alive 5).mpr ?_⟩
  rw [resets]
  exact List.not_mem_nil

def snapshotReceived : List SoloEvent :=
  firstContact ++ [.input 0 (.storage 1 true), .input 0 (.storage 2 true),
    .input 0 (.deliver { src := 0, dst := 1, msg := .installSnapshot 1 0 1 1 [0] }),
    .input 0 (.storage 3 true), .input 0 (.storage 4 true), .input 0 (.storage 5 true)]

theorem snapshotReceived_owed :
    (Execution.play (Issuer.step newcomer) (fun _ _ => True) (Issuer.init newcomer) snapshotReceived).map
      (fun s => (s.owed, s.raft.failed, ((s.step newcomer (.input 0 (.storage 6 false))).map
        fun t => t.raft.failed))) = some ([6, 7], false, some false) := by decide +kernel

/-- The log region cannot be cut, and the node goes on. -/
theorem storage_error_ignored : ∃ s : Issuer, Issuer.Reachable newcomer s ∧ 6 ∈ s.owed ∧ s.raft.failed = false ∧
    ¬ s.Fatal newcomer 0 6 := by
  obtain ⟨s, played, known⟩ := Option.map_eq_some_iff.mp snapshotReceived_owed
  simp only [Prod.mk.injEq] at known
  obtain ⟨owed, alive, ignored⟩ := known
  refine ⟨s, Execution.run_of_play played, by rw [owed]; decide, alive, ?_⟩
  rintro ⟨t, next, down, -⟩
  rw [next] at ignored
  have still : t.raft.failed = false := Option.some.inj ignored
  rw [down] at still
  cases still

end SimKv
