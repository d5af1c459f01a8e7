import SimKv.Kv.Run
import SimKv.Raft.Contiguous

set_option autoImplicit false

/-!
# The membership in force

A server uses the latest membership in its log from the moment it is there. `members` and `configIndex`
are a cache of that, and every path that changes the log has to refresh it.
-/

namespace SimKv

/-- The cached membership is the one of the highest membership entry in the log; without one it is the
snapshot's, and without a snapshot the initial one. -/
def Raft.MembershipCurrent (r : Raft) : Prop :=
  (∃ e ∈ r.log.entries, e.cmd.members = some r.members ∧ r.configIndex = e.index ∧
    ∀ other ∈ r.log.entries, other.cmd.members ≠ none → other.index ≤ e.index) ∨
  (∀ e ∈ r.log.entries, e.cmd.members = none) ∧ r.configIndex = 0 ∧
    r.members = if r.snapshotMembers = [] then r.initialMembers else r.snapshotMembers

instance (r : Raft) : Decidable r.MembershipCurrent := inferInstanceAs (Decidable (_ ∨ _))

def latestMembers (entries : List Entry) : Option (List NodeId × Nat) :=
  entries.reverse.findSome? fun e => e.cmd.members.map fun members => (members, e.index)

theorem latestMembers_append (entries fresh : List Entry) :
    latestMembers (entries ++ fresh) = (latestMembers fresh).or (latestMembers entries) := by
  rw [latestMembers, List.reverse_append, List.findSome?_append]
  rfl

theorem latestMembers_plain {entries : List Entry} (plain : ∀ e ∈ entries, e.cmd.members = none) :
    latestMembers entries = none := by
  rw [latestMembers, List.findSome?_eq_none_iff]
  intro e member
  rw [plain e (List.mem_reverse.mp member)]
  rfl

namespace RaftLog

variable {log : RaftLog}

-- Walking down the log finds what walking down the list of entries finds.
theorem Contiguous.configScan_eq (contiguous : log.Contiguous) (count : Nat) (inside : count ≤ log.entries.length) :
    Raft.configScan log (log.snapshotIndex + count) = latestMembers (log.entries.take count) := by
  induction count with
  | zero =>
    rw [List.take_zero, Nat.add_zero]
    cases base : log.snapshotIndex with
    | zero => rfl
    | succ i =>
      rw [Raft.configScan, firstIndex, base, if_pos (Nat.lt_succ_self _)]
      rfl
  | succ count ih =>
    have here : log.entries[count]? = some log.entries[count] := List.getElem?_eq_getElem inside
    have index : log.entries[count].index = log.snapshotIndex + count + 1 := by
      rw [contiguous count _ here, firstIndex]
      omega
    have got : log.get (log.snapshotIndex + count + 1) = some log.entries[count] := by
      rw [contiguous.get_eq (by omega)]
      have place : log.snapshotIndex + count + 1 - log.firstIndex = count := by
        rw [firstIndex]
        omega
      rw [place, here]
    rw [← Nat.add_assoc, Raft.configScan, if_neg (by rw [firstIndex]; omega), got,
      List.take_succ_eq_append_getElem inside, latestMembers_append, ih (by omega)]
    simp only [Option.bind_some, latestMembers, List.reverse_singleton, List.findSome?_singleton]
    rw [index]
    cases log.entries[count].cmd.members <;> rfl

theorem Contiguous.configOver_eq (contiguous : log.Contiguous) (initial base : List NodeId) :
    Raft.configOver log initial base =
      (latestMembers log.entries).getD (if base = [] then initial else base, 0) := by
  rw [Raft.configOver, contiguous.lastIndex_eq, contiguous.configScan_eq _ le_rfl, List.take_length]

end RaftLog

structure Raft.Cached (r : Raft) : Prop where
  contiguous : r.log.Contiguous
  current : (r.members, r.configIndex) = configOver r.log r.initialMembers r.snapshotMembers

theorem Raft.Cached.membershipCurrent {r : Raft} (cached : r.Cached) : r.MembershipCurrent := by
  have current := cached.current
  rw [cached.contiguous.configOver_eq] at current
  cases latest : latestMembers r.log.entries with
  | none =>
    right
    rw [latest] at current
    obtain ⟨members, index⟩ := Prod.mk.inj current
    refine ⟨?_, index, members⟩
    intro e member
    have nothing := List.findSome?_eq_none_iff.mp latest e (List.mem_reverse.mpr member)
    exact Option.map_eq_none_iff.mp nothing
  | some found =>
    left
    rw [latest] at current
    obtain ⟨later, e, earlier, split, here, above⟩ := List.findSome?_eq_some_iff.mp latest
    obtain ⟨members, carries, pair⟩ := Option.map_eq_some_iff.mp here
    have whole : r.log.entries = earlier.reverse ++ e :: later.reverse := by
      rw [← List.reverse_reverse r.log.entries, split]
      simp
    rw [Option.getD_some, ← pair] at current
    obtain ⟨same, index⟩ := Prod.mk.inj current
    refine ⟨e, by rw [whole]; simp, by rw [carries, same], index, ?_⟩
    intro other member changes
    -- the entries above carry no membership, so `other` stands at or below `e`
    rw [whole, List.mem_append, List.mem_cons] at member
    rcases member with below | rfl | higher
    · obtain ⟨i, inside, at_⟩ := List.mem_iff_getElem.mp below
      have low := cached.contiguous i other (by
        rw [whole, List.getElem?_append_left inside, List.getElem?_eq_getElem inside, at_])
      have high := cached.contiguous earlier.reverse.length e (by
        rw [whole, List.getElem?_append_right le_rfl, Nat.sub_self]
        rfl)
      omega
    · exact le_rfl
    · exact absurd (Option.map_eq_none_iff.mp (above other (List.mem_reverse.mp higher))) changes

-- Entries without a membership change leave the latest one where it was.
theorem RaftLog.Contiguous.configOver_appendAll {log : RaftLog} (contiguous : log.Contiguous)
    {fresh : List Entry} (sound : log.AppendsOk fresh) (plain : ∀ e ∈ fresh, e.cmd.members = none)
    (initial base : List NodeId) :
    Raft.configOver (log.appendAll fresh) initial base = Raft.configOver log initial base := by
  rw [(contiguous.appendAll sound).configOver_eq, contiguous.configOver_eq, entries_appendAll,
    latestMembers_append, latestMembers_plain plain, Option.none_or]

theorem Act.cached {cause : Cause} {r : Raft} {n m : Node} (act : Act cause r n m)
    (ordinary : cause ≠ .membership) (cached : n.Cached) : m.Cached := by
  have contiguous := act.edit.contiguous cached.contiguous
  have becomes := act.becomes
  refine ⟨contiguous, ?_⟩
  have current := cached.current
  generalize m.toRaft = after at becomes ⊢
  cases becomes with
  | append e _ plain _ sound =>
    have alone : n.log.AppendsOk [e] := ⟨sound, trivial⟩
    have ordinary : ∀ e' ∈ [e], e'.cmd.members = none :=
      List.forall_mem_singleton.mpr (plain.resolve_right ordinary)
    exact current.trans (cached.contiguous.configOver_appendAll alone ordinary _ _).symm
  | reconfigure asked => exact absurd asked ordinary
  | splice _ _ _ _ _ _ p t es i conflict _ _ _ _ _ _ sound _ _ _ _ _ _ computed =>
    simp only
    rw [computed]
    split
    · rfl
    · next brought =>
      have plain : ∀ e ∈ es.drop i, e.cmd.members = none := by
        simpa using brought
      cases conflict with
      | false => exact current.trans (cached.contiguous.configOver_appendAll sound plain _ _).symm
      | true =>
        have cut := cached.contiguous.truncateFrom (p + 1 + i)
        exact (cut.configOver_appendAll sound plain _ _).symm
  | taken _ _ _ _ _ _ _ _ _ computed => exact computed
  | adopt _ _ _ _ _ _ _ _ _ _ _ _ _ _ _ _ _ _ _ computed => exact computed
  | _ => exact current

theorem Node.refreshConfig_cached {n : Node} (contiguous : n.log.Contiguous) : n.refreshConfig.Cached := by
  have current := n.refreshConfig_current
  obtain ⟨_, _, _, _, raft⟩ := n.refreshConfig_toRaft
  rw [raft] at current ⊢
  exact ⟨contiguous, current⟩

-- An accepted change is in force at once.
theorem Node.proposeMembership_cached {n : Node} (cached : n.Cached) (members : List NodeId) :
    (n.proposeMembership members).2.Cached := by
  have appended (cmd : Command) : (n.appendEntry (n.ownEntry cmd)).log.Contiguous := by
    unfold appendEntry
    split
    · exact cached.contiguous.append rfl
    · exact cached.contiguous
  rcases n.proposeMembership_cases members with same | ⟨cmd, persister, raft⟩
  · rwa [same]
  · obtain ⟨contiguous, current⟩ := refreshConfig_cached (appended cmd)
    rw [raft]
    exact ⟨contiguous, current⟩

theorem Raft.recover_cached (wal a b : Bytes) (id : NodeId) (members : List NodeId) (cfg : RaftConfig)
    (io : Io) : (Raft.recover wal a b id members cfg io).Cached := by
  obtain ⟨contiguous, current⟩ := Node.refreshConfig_cached
    (n := { toRaft := (readDisk wal a b).raft id members cfg, toIo := io }) (readDisk_contiguous wal a b)
  exact ⟨contiguous, current⟩

def KvEvent.clientChange : KvEvent → Option (Nat × Nat)
  | .request _ _ _ client seq (.setMembers _) => some (client, seq)
  | _ => none

namespace KvServer

variable {who : Identity} {k k' : KvServer} {event : KvEvent}

def NoClientChange (k : KvServer) (event : KvEvent) : Prop :=
  ∀ request ∈ event.clientChange, ¬ k.Proposes request.1 request.2

instance (k : KvServer) (event : KvEvent) : Decidable (k.NoClientChange event) :=
  inferInstanceAs (Decidable (∀ request ∈ event.clientChange, _))

theorem recover_cached (wal a b : Bytes) (id : NodeId) (members : List NodeId) (cfg : RaftConfig) (io : Io) :
    (recover wal a b id members cfg io).Cached := by
  obtain ⟨contiguous, current⟩ := Raft.recover_cached wal a b id members cfg io
  rw [recover_toNode]
  exact ⟨contiguous, current⟩

-- Where a call begins that is no membership change, the cache is right.
theorem begins_cached {now : Nat} {input : Input} {cause : Cause} {n : Node} (cached : k.Cached)
    (allowed : k.NoClientChange event) (other : ∀ now members, event ≠ .membership now members)
    (call : k.Calls event now input) (begins : k.server.Begins now input cause n) :
    cause ≠ .membership ∧ n.Cached := by
  constructor
  · rintro rfl
    cases begins with
    | reconfigure members =>
      cases call
      exact other _ _ rfl
    | proposeMembers cmd members =>
      cases call with
      | propose now src reqId client seq op fresh =>
        cases op with
        | setMembers list => exact allowed (client, seq) rfl fresh
        | _ => exact members rfl
  · obtain ⟨_, _, _, _, _, _, raft⟩ := begins.toRaft_eq call.undrained
    rw [raft]
    exact ⟨cached.contiguous, cached.current⟩

theorem handle_cached (cached : k.Cached) (allowed : k.NoClientChange event)
    (calm : (k.handle who event).panicked = false) : (k.handle who event).Cached := by
  by_cases boots : ∃ now wal a b, event = .restart now wal a b
  · obtain ⟨now, wal, a, b, rfl⟩ := boots
    exact recover_cached ..
  · by_cases changes : ∃ now members, event = .membership now members
    · obtain ⟨now, members, rfl⟩ := changes
      have awake : (k.server.wake now).Cached := cached
      exact Node.proposeMembership_cached awake members
    · push Not at boots changes
      obtain ⟨_, _, _, last⟩ := @handle_rule who k (fun cause _ n => cause ≠ .membership ∧ n.Cached) event
        boots calm (fun now => ⟨nofun, cached⟩)
        (fun now input cause n call begins => begins_cached cached allowed changes call begins)
        (fun cause r n m mid act => ⟨mid.1, act.cached mid.1 mid.2⟩)
        (fun cause r n mid => by
          rw [Node.emptyQueues_eq]
          exact ⟨nofun, mid.2.contiguous, mid.2.current⟩)
      exact last

end KvServer

/-- As long as no client's membership change is put into the log, the cached membership is the latest one
in the log. -/
theorem membership_current {who : Identity} {k : KvServer}
    (reached : KvServer.Reachable who KvServer.NoClientChange k) : k.MembershipCurrent := by
  have last : k.Cached := by
    refine reached.rule ?_ fun k event cached allowed calm => KvServer.handle_cached cached allowed calm
    exact KvServer.recover_cached ..
  exact last.membershipCurrent

def recluse : Identity where
  id := 0
  members := [0]
  cfg := {}

def recluseElected : List KvEvent := [.timer 0 .election, .storage 0 1 true, .storage 0 2 true]

def recluseJoined : List KvEvent :=
  recluseElected ++ [.storage 0 3 true, .storage 0 4 true, .membership 0 [0, 1]]

theorem recluseJoined_members :
    (Execution.play (KvServer.step recluse) KvServer.NoClientChange (KvServer.init recluse) recluseJoined).map
      (fun k => (k.members, k.configIndex)) = some ([0, 1], 2) := by decide +kernel

theorem membership_current_recluse : ∃ k : KvServer,
    KvServer.Reachable recluse KvServer.NoClientChange k ∧ (k.members, k.configIndex) = ([0, 1], 2) ∧
      k.MembershipCurrent := by
  obtain ⟨k, played, members⟩ := Option.map_eq_some_iff.mp recluseJoined_members
  have reached : KvServer.Reachable recluse KvServer.NoClientChange k := Execution.run_of_play played
  exact ⟨k, reached, members, membership_current reached⟩

def recluseAsked : List KvEvent := recluseElected ++ [.request 0 9 1 7 1 (.setMembers [0, 1])]

theorem recluseAsked_stale :
    (Execution.play (KvServer.step recluse) (fun _ _ => True) (KvServer.init recluse) recluseAsked).map
      (fun k => decide k.MembershipCurrent) = some false := by decide +kernel

/-- `propose` puts a client's membership change into the log and leaves the membership as it was. -/
theorem membership_stale : ∃ k : KvServer, KvServer.Reachable recluse (fun _ _ => True) k ∧
    ¬ k.MembershipCurrent := by
  obtain ⟨k, played, stale⟩ := Option.map_eq_some_iff.mp recluseAsked_stale
  exact ⟨k, Execution.run_of_play played, of_decide_eq_false stale⟩

end SimKv
