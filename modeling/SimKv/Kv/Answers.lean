import SimKv.Kv.Applied
import SimKv.Kv.Membership
import SimKv.Kv.Sessions

set_option autoImplicit false

/-!
# Which command an answer belongs to

A request that went through the log is answered from the remembered results, or when the entry somebody waits
for is applied. The entry may hold a copy that came too late: when a later command of its client has been
applied, the result that is remembered is the one of that later command.
-/

namespace SimKv

open AtMostOnce Std

section Committed

variable (committed : Nat → Entry)

def commands (count : Nat) : List Command := (List.range count).map fun i => (committed (i + 1)).cmd

def answerAt (index : Nat) : Outcome := ((stateAfter committed (index - 1)).apply (committed index).cmd).1

def IssuedAt (client seq index : Nat) : Prop :=
  1 ≤ index ∧ (committed index).cmd.client = client ∧ (committed index).cmd.seq = seq

/-- The first place of a command, and the one where it takes effect. Raft's own commands, which have none, only
compare with each other. -/
structure FirstEffect (client seq index : Nat) : Prop where
  issued : IssuedAt committed client seq index
  effective : (committed index).cmd.FromClient →
    Fresh Command.client Command.seq (clientCommands (commands committed (index - 1))) (committed index).cmd
  first : ∀ earlier < index, IssuedAt committed client seq earlier →
    ¬ ((committed earlier).cmd.FromClient ↔ (committed index).cmd.FromClient)

def Overtaken (client seq index : Nat) : Prop :=
  ∃ later, 1 ≤ later ∧ later < index ∧ (committed later).cmd.FromClient ∧
    (committed later).cmd.client = client ∧ seq < (committed later).cmd.seq

end Committed

variable {committed : Nat → Entry}

theorem mem_commands {count : Nat} {cmd : Command} :
    cmd ∈ commands committed count ↔ ∃ index, 1 ≤ index ∧ index ≤ count ∧ (committed index).cmd = cmd := by
  rw [commands, List.mem_map]
  constructor
  · rintro ⟨i, short, same⟩
    exact ⟨i + 1, Nat.le_add_left 1 i, List.mem_range.mp short, same⟩
  · rintro ⟨index, positive, short, same⟩
    refine ⟨index - 1, List.mem_range.mpr (by omega), ?_⟩
    rw [Nat.sub_add_cancel positive, same]

-- A client's command among the first ones has its place, with the clients' commands before it.
theorem place_of_split {count : Nat} {before after : List Command} {cmd : Command}
    (split : clientCommands (commands committed count) = before ++ cmd :: after) :
    ∃ index, 1 ≤ index ∧ index ≤ count ∧ (committed index).cmd = cmd ∧ cmd.FromClient ∧
      clientCommands (commands committed (index - 1)) = before := by
  obtain ⟨front, rest, whole, rfl, tail⟩ := List.filter_eq_append_iff.mp split
  obtain ⟨skipped, back, rfl, own, fromClient, -⟩ := List.filter_eq_cons_iff.mp tail
  have skip : clientCommands skipped = [] := List.filter_eq_nil_iff.mpr own
  rw [← List.append_assoc] at whole
  have length := congrArg List.length whole
  simp only [commands, List.length_map, List.length_range, List.length_append, List.length_cons] at length
  have here := congrArg (fun l => l[(front ++ skipped).length]?) whole
  have ahead := congrArg (List.take (front ++ skipped).length) whole
  simp only [List.getElem?_append_right le_rfl, Nat.sub_self, List.getElem?_cons_zero] at here
  rw [List.take_left, commands, ← List.map_take, List.take_range, ← commands, List.length_append,
    Nat.min_eq_left (by omega)] at ahead
  rw [commands, List.getElem?_map, List.getElem?_range (by rw [List.length_append]; omega), Option.map_some,
    Option.some.injEq] at here
  refine ⟨(front ++ skipped).length + 1, Nat.le_add_left 1 _, by rw [List.length_append]; omega, here, ?_, ?_⟩
  · simpa using fromClient
  · rw [Nat.add_sub_cancel, List.length_append, ahead, clientCommands_append, skip, List.append_nil]
    rfl

theorem stateAfter_eq (count : Nat) : stateAfter committed count = ({} : StateMachine).applyAll (commands committed count) :=
  rfl

theorem FirstEffect.of_fresh {client seq index : Nat} (issued : IssuedAt committed client seq index)
    (fresh : Fresh Command.client Command.seq (clientCommands (commands committed (index - 1))) (committed index).cmd)
    (fromClient : (committed index).cmd.FromClient) : FirstEffect committed client seq index := by
  refine ⟨issued, fun _ => fresh, ?_⟩
  rintro earlier ahead ⟨positive, same, number⟩ alike
  have member : (committed earlier).cmd ∈ clientCommands (commands committed (index - 1)) := by
    refine List.mem_filter.mpr ⟨mem_commands.mpr ⟨earlier, positive, by omega, rfl⟩, ?_⟩
    exact decide_eq_true (alike.mpr fromClient)
  have below := fresh _ member (same.trans issued.2.1.symm)
  have := issued.2.2
  omega

-- A remembered result is the one its command had when it took effect.
theorem cached_first {count client seq : Nat} {outcome : Outcome}
    (cached : (stateAfter committed count).cached client seq = some outcome) :
    ∃ index ≤ count, FirstEffect committed client seq index ∧ outcome = answerAt committed index := by
  obtain ⟨s, known, rfl⟩ := Option.map_eq_some_iff.mp cached
  obtain ⟨known, number⟩ := Option.filter_eq_some_iff.mp known
  rw [decide_eq_true_eq] at number
  obtain ⟨before, cmd, ⟨after, split, fresh, -⟩, same, rfl⟩ :=
    (StateMachine.sessions_applyAll (commands committed count) client s).mp known
  obtain ⟨index, positive, short, rfl, fromClient, rfl⟩ := place_of_split split
  refine ⟨index, short, .of_fresh ⟨positive, same, number⟩ fresh fromClient, ?_⟩
  refine Eq.trans ?_ (StateMachine.apply_of_fresh fromClient fresh).1.symm
  exact congrArg (fun map => (StateMachine.perform map (committed index).cmd.op).1) (StateMachine.kept_applyAll _).state.symm

-- In its turn a command is answered as it was when it took effect.
theorem answerAt_first {client seq index : Nat} (issued : IssuedAt committed client seq index)
    (inTurn : ¬ Overtaken committed client seq index) :
    ∃ first ≤ index, FirstEffect committed client seq first ∧ answerAt committed index = answerAt committed first := by
  have ⟨positive, same, number⟩ := issued
  by_cases fromClient : (committed index).cmd.FromClient
  · by_cases fresh : Fresh Command.client Command.seq (clientCommands (commands committed (index - 1)))
        (committed index).cmd
    · exact ⟨index, le_rfl, .of_fresh issued fresh fromClient, rfl⟩
    · -- the session answers, and it is not ahead of the command
      have kept := StateMachine.kept_applyAll (commands committed (index - 1))
      obtain ⟨n, answer, known, reached, served⟩ := kept.serve_stale fresh
      obtain ⟨s, session, pair⟩ := Option.map_eq_some_iff.mp known
      obtain ⟨rfl, rfl⟩ := Prod.mk.inj pair
      obtain ⟨before, cmd, ⟨after, split, -⟩, owner, s_eq⟩ := (StateMachine.sessions_applyAll _ _ s).mp session
      obtain ⟨later, positive', short, rfl, fromClient', -⟩ := place_of_split split
      have exact : s.seq = seq := by
        refine Nat.le_antisymm (Nat.le_of_not_lt fun ahead => inTurn ?_) (number ▸ reached)
        exact ⟨later, positive', by omega, fromClient', owner.trans same, by rwa [s_eq] at ahead⟩
      have cached : (stateAfter committed (index - 1)).cached client seq = some s.outcome := by
        rw [StateMachine.cached, stateAfter_eq, ← same, session, ← exact]
        simp
      obtain ⟨first, short, effect, outcome⟩ := cached_first cached
      refine ⟨first, by omega, effect, outcome ▸ ?_⟩
      exact (StateMachine.apply_toServer _ fromClient).1.trans (congrArg Prod.fst served)
  · -- Raft's own commands are all answered alike
    have exists_place : ∃ place, IssuedAt committed client seq place ∧ ¬ (committed place).cmd.FromClient :=
      ⟨index, issued, fromClient⟩
    classical
    obtain ⟨issued', own⟩ := Nat.find_spec exists_place
    have short := Nat.find_min' exists_place ⟨issued, fromClient⟩
    refine ⟨Nat.find exists_place, short, ⟨issued', fun ofClient => absurd ofClient own, ?_⟩, ?_⟩
    · intro earlier ahead earlierIssued alike
      exact Nat.find_min exists_place ahead ⟨earlierIssued, fun ofClient => own (alike.mp ofClient)⟩
    · rw [answerAt, answerAt, StateMachine.apply_of_not_fromClient _ fromClient,
        StateMachine.apply_of_not_fromClient _ own]

namespace KvServer

variable {who : Identity} {k p : KvServer} {event : KvEvent} {r : Reply}

structure SentApplied (p : KvServer) (front : List Entry) (e : Entry) (w : Waiting) (r : Reply) : Prop where
  handed : ∃ back, p.adoptSnapshot.takeApplied.1 = front ++ e :: back
  waits : (front.foldl applyEntry { p.adoptSnapshot with toNode := p.adoptSnapshot.takeApplied.2 }).waiting[e.index]? =
    some w
  client : w.client = e.cmd.client
  seq : w.seq = e.cmd.seq
  answer : r = { dst := w.dst, reqId := w.reqId, outcome := ((front.foldl applyEntry
    { p.adoptSnapshot with toNode := p.adoptSnapshot.takeApplied.2 }).sm.apply e.cmd).1 }

def SentRead (p : KvServer) (w : WaitingRead) (r : Reply) : Prop :=
  (∃ id : Nat, p.waitingReads[id]? = some w) ∧
    r = { dst := w.dst, reqId := w.reqId, outcome := .value p.drain.sm.state[w.key]? }

theorem mem_reply {dst : NodeId} {reqId : Nat} {outcome : Outcome} (sent : r ∈ (k.reply dst reqId outcome).replies) :
    r ∈ k.replies ∨ r = { dst, reqId, outcome } := by
  unfold reply at sent
  split at sent
  · exact .inl sent
  · exact (List.mem_append.mp sent).imp_right List.mem_singleton.mp

def Drops (k k' : KvServer) : Prop := ∀ r ∈ k'.replies, r ∈ k.replies ∨ r.outcome = .dropped

theorem Drops.refl (k : KvServer) : k.Drops k := fun _ => .inl

theorem Drops.trans {k' k'' : KvServer} (first : k.Drops k') (second : k'.Drops k'') : k.Drops k'' := fun r sent =>
  (second r sent).elim (first r) .inr

theorem Drops.mem {k' : KvServer} (drops : k.Drops k') (sent : r ∈ k'.replies) (definite : r.outcome.Definite) :
    r ∈ k.replies := by
  obtain before | dropped := drops r sent
  · exact before
  · rw [dropped] at definite
    cases definite

theorem drops_foldl {α : Type} {f : KvServer → α → KvServer} (drops : ∀ (k : KvServer) (a : α), k.Drops (f k a)) (items : List α) :
    k.Drops (items.foldl f k) := by
  induction items generalizing k with
  | nil => exact .refl k
  | cons a rest ih => exact (drops k a).trans ih

theorem drops_reply (k : KvServer) (dst : NodeId) (reqId : Nat) : k.Drops (k.reply dst reqId .dropped) := fun _ sent =>
  (mem_reply sent).imp_right fun answer => by rw [answer]

theorem drops_dropWaiting (k : KvServer) (index : Nat) : k.Drops (k.dropWaiting index) := by
  unfold dropWaiting
  split
  · exact drops_reply _ _ _
  · exact .refl k

theorem drops_dropAll (k : KvServer) : k.Drops k.dropAll := drops_foldl drops_dropWaiting _

theorem drops_dropStale (k : KvServer) : k.Drops k.dropStale := drops_foldl drops_dropWaiting _

theorem drops_failRead (k : KvServer) (id : Nat) : k.Drops (k.failRead id) := by
  unfold failRead
  split
  · exact drops_reply _ _ _
  · exact .refl k

theorem drops_failReads (k : KvServer) : k.Drops k.failReads := drops_foldl drops_failRead _

theorem drops_adoptSnapshot (k : KvServer) : k.Drops k.adoptSnapshot := by
  simp only [adoptSnapshot]
  split
  · exact .refl k
  · refine .trans ?_ (drops_dropAll _)
    split <;> exact .refl k

theorem drops_maybeSnapshot (k : KvServer) : k.Drops k.maybeSnapshot := by
  unfold maybeSnapshot
  split <;> exact .refl k

theorem mem_applyEntry {e : Entry} (sent : r ∈ (k.applyEntry e).replies) (definite : r.outcome.Definite) :
    r ∈ k.replies ∨ ∃ w, k.waiting[e.index]? = some w ∧ w.client = e.cmd.client ∧ w.seq = e.cmd.seq ∧
      r = { dst := w.dst, reqId := w.reqId, outcome := (k.sm.apply e.cmd).1 } := by
  simp only [applyEntry] at sent
  split at sent
  · exact .inl sent
  · next w waits =>
    obtain before | answer := mem_reply sent
    · exact .inl before
    · split at answer
      · next own => exact .inr ⟨w, waits, own.1, own.2, answer⟩
      · rw [answer] at definite
        cases definite

theorem mem_applyAll {entries : List Entry} (sent : r ∈ (entries.foldl applyEntry k).replies)
    (definite : r.outcome.Definite) :
    r ∈ k.replies ∨ ∃ front e back w, entries = front ++ e :: back ∧
      (front.foldl applyEntry k).waiting[e.index]? = some w ∧ w.client = e.cmd.client ∧ w.seq = e.cmd.seq ∧
      r = { dst := w.dst, reqId := w.reqId, outcome := ((front.foldl applyEntry k).sm.apply e.cmd).1 } := by
  induction entries using List.reverseRecOn with
  | nil => exact .inl sent
  | append_singleton entries e ih =>
    rw [List.foldl_append, List.foldl_cons, List.foldl_nil] at sent
    obtain before | ⟨w, now⟩ := mem_applyEntry sent definite
    · obtain old | ⟨front, e', back, w, rfl, earlier⟩ := ih before
      · exact .inl old
      · exact .inr ⟨front, e', back ++ [e], w, by simp, earlier⟩
    · exact .inr ⟨entries, e, [], w, rfl, now⟩

theorem mem_answerRead {id : Nat} (sent : r ∈ (k.answerRead id).replies) :
    r ∈ k.replies ∨ ∃ w, k.waitingReads[id]? = some w ∧
      r = { dst := w.dst, reqId := w.reqId, outcome := .value k.sm.state[w.key]? } := by
  unfold answerRead at sent
  split at sent
  · next w waits => exact (mem_reply sent).imp_right fun answer => ⟨w, waits, answer⟩
  · exact .inl sent

def Releases (k k' : KvServer) : Prop :=
  ∀ (index : Nat) (w : Waiting), k'.waiting[index]? = some w → k.waiting[index]? = some w

theorem Releases.refl (k : KvServer) : k.Releases k := fun _ _ waits => waits

theorem Releases.trans {k' k'' : KvServer} (first : k.Releases k') (second : k'.Releases k'') : k.Releases k'' :=
  fun index w waits => first index w (second index w waits)

theorem releases_foldl {α : Type} {f : KvServer → α → KvServer} (releases : ∀ (k : KvServer) (a : α), k.Releases (f k a))
    (items : List α) : k.Releases (items.foldl f k) := by
  induction items generalizing k with
  | nil => exact .refl k
  | cons a rest ih => exact (releases k a).trans ih

@[simp] theorem reply_waiting (k : KvServer) (dst : NodeId) (reqId : Nat) (outcome : Outcome) :
    (k.reply dst reqId outcome).waiting = k.waiting := by
  unfold reply
  split <;> rfl

@[simp] theorem reply_waitingReads (k : KvServer) (dst : NodeId) (reqId : Nat) (outcome : Outcome) :
    (k.reply dst reqId outcome).waitingReads = k.waitingReads := by
  unfold reply
  split <;> rfl

theorem getElem?_of_erase {V : Type} {map : ExtTreeMap Nat V} {gone index : Nat} {v : V}
    (here : (map.erase gone)[index]? = some v) : map[index]? = some v := by
  rw [ExtTreeMap.getElem?_erase] at here
  split at here
  · cases here
  · exact here

theorem releases_dropWaiting (k : KvServer) (index : Nat) : k.Releases (k.dropWaiting index) := by
  unfold dropWaiting
  split
  · intro i w waits
    rw [reply_waiting] at waits
    exact getElem?_of_erase waits
  · exact .refl k

theorem releases_dropAll (k : KvServer) : k.Releases k.dropAll := releases_foldl releases_dropWaiting _

theorem releases_dropStale (k : KvServer) : k.Releases k.dropStale := releases_foldl releases_dropWaiting _

theorem releases_applyEntry (k : KvServer) (e : Entry) : k.Releases (k.applyEntry e) := by
  simp only [applyEntry]
  split
  · exact .refl k
  · intro i w waits
    rw [reply_waiting] at waits
    exact getElem?_of_erase waits

theorem releases_applyCommitted (k : KvServer) : k.Releases k.applyCommitted :=
  @releases_foldl { k with toNode := k.takeApplied.2 } Entry applyEntry releases_applyEntry k.takeApplied.1

theorem releases_adoptSnapshot (k : KvServer) : k.Releases k.adoptSnapshot := by
  simp only [adoptSnapshot]
  split
  · exact .refl k
  · refine .trans ?_ (releases_dropAll _)
    split <;> exact .refl k

theorem answerRead_waiting (k : KvServer) (id : Nat) : (k.answerRead id).waiting = k.waiting := by
  unfold answerRead
  split
  · rw [reply_waiting]
  · rfl

theorem failRead_waiting (k : KvServer) (id : Nat) : (k.failRead id).waiting = k.waiting := by
  unfold failRead
  split
  · rw [reply_waiting]
  · rfl

theorem answerReads_waiting (k : KvServer) : k.answerReads.waiting = k.waiting := foldl_frame answerRead_waiting _

theorem failReads_waiting (k : KvServer) : k.failReads.waiting = k.waiting := foldl_frame failRead_waiting _

theorem maybeSnapshot_waiting (k : KvServer) : k.maybeSnapshot.waiting = k.waiting := by
  unfold maybeSnapshot
  split <;> rfl

theorem drained_releases (k : KvServer) : k.Releases k.drained := by
  intro index w waits
  rw [drained, failReads_waiting, answerReads_waiting] at waits
  have first := (releases_adoptSnapshot k).trans (releases_applyCommitted _)
  exact first.trans (releases_dropStale _) index w waits

theorem drain_releases (k : KvServer) : k.Releases k.drain := by
  refine k.drained_releases.trans ?_
  have last : k.drained.Releases k.drained.maybeSnapshot := fun index w waits => by
    rwa [maybeSnapshot_waiting] at waits
  unfold drain
  simp only
  split
  · exact last.trans (releases_dropAll _)
  · exact last

theorem dropWaiting_waitingReads (k : KvServer) (index : Nat) : (k.dropWaiting index).waitingReads = k.waitingReads := by
  unfold dropWaiting
  split
  · rw [reply_waitingReads]
  · rfl

theorem applyEntry_waitingReads (k : KvServer) (e : Entry) : (k.applyEntry e).waitingReads = k.waitingReads := by
  simp only [applyEntry]
  split
  · rfl
  · rw [reply_waitingReads]

theorem adoptSnapshot_waitingReads (k : KvServer) : k.adoptSnapshot.waitingReads = k.waitingReads := by
  have frame : ∀ k : KvServer, k.dropAll.waitingReads = k.waitingReads := fun _ => foldl_frame dropWaiting_waitingReads _
  simp only [adoptSnapshot]
  split
  · rfl
  · rw [frame]
    split <;> rfl

theorem applied_waitingReads (k : KvServer) : k.adoptSnapshot.applyCommitted.dropStale.waitingReads = k.waitingReads := by
  refine (foldl_frame dropWaiting_waitingReads _).trans ?_
  exact (foldl_frame applyEntry_waitingReads _).trans (adoptSnapshot_waitingReads k)

theorem mem_answerReads {ids : List Nat} (sent : r ∈ (ids.foldl answerRead k).replies) :
    r ∈ k.replies ∨ ∃ (id : Nat) (w : WaitingRead), k.waitingReads[id]? = some w ∧
      r = { dst := w.dst, reqId := w.reqId, outcome := .value k.sm.state[w.key]? } := by
  induction ids generalizing k with
  | nil => exact .inl sent
  | cons id rest ih =>
    obtain before | ⟨other, w, waits, answer⟩ := ih sent
    · exact (mem_answerRead before).imp_right fun ⟨w, facts⟩ => ⟨id, w, facts⟩
    · rw [answerRead_sm] at answer
      refine .inr ⟨other, w, ?_, answer⟩
      unfold answerRead at waits
      split at waits
      · rw [reply_waitingReads] at waits
        exact getElem?_of_erase waits
      · exact waits

-- A definite answer that goes out while the queues are drained comes with an applied entry, or with a read.
theorem mem_drain (sent : r ∈ p.drain.replies) (definite : r.outcome.Definite) :
    r ∈ p.replies ∨ (∃ front e w, p.SentApplied front e w r) ∨ ∃ w, p.SentRead w r := by
  have late : r ∈ p.adoptSnapshot.applyCommitted.dropStale.answerReads.replies := by
    have drops : p.adoptSnapshot.applyCommitted.dropStale.answerReads.Drops p.drain := by
      have tail := (drops_failReads p.adoptSnapshot.applyCommitted.dropStale.answerReads).trans (drops_maybeSnapshot _)
      unfold drain
      simp only
      split
      · exact tail.trans (drops_dropAll _)
      · exact tail
    exact drops.mem sent definite
  obtain early | ⟨id, w, waits, answer⟩ := mem_answerReads late
  · obtain old | ⟨front, e, back, w, handed, facts⟩ := mem_applyAll ((drops_dropStale _).mem early definite) definite
    · exact .inl ((drops_adoptSnapshot p).mem old definite)
    · obtain ⟨waits, client, seq, answer⟩ := facts
      exact .inr (.inl ⟨front, e, w, ⟨back, handed⟩, waits, client, seq, answer⟩)
  · refine .inr (.inr ⟨w, ⟨id, ?_⟩, ?_⟩)
    · exact p.applied_waitingReads ▸ waits
    · rw [drain_sm, ← drained_sm, drained, failReads_sm, answerReads_sm]
      exact answer

inductive Leaves (k : KvServer) : KvEvent → KvServer → Prop where
  | message (now : Nat) (src : NodeId) (msg : RaftMsg) :
      Leaves k (.message now src msg) { k.wake now with toNode := (k.wake now).onMessage src msg }
  | timer (now : Nat) (tag : TimerTag) :
      Leaves k (.timer now tag) { k.wake now with toNode := (k.wake now).toNode.onTimer tag }
  | storage (now : Nat) (op : OpId) (ok : Bool) :
      Leaves k (.storage now op ok) { k.wake now with toNode := (k.wake now).toNode.onStorage op ok }
  | read (now : Nat) (src : NodeId) (reqId client seq : Nat) (key : String) (leads : k.role = .leader)
      (fresh : k.sm.cached client seq = none) :
      Leaves k (.request now src reqId client seq (.get key))
        { k.wake now with
          toNode := ((k.wake now).requestRead k.nextReadId).2
          nextReadId := k.nextReadId + 1
          waitingReads := k.waitingReads.insert k.nextReadId { dst := src, reqId, key } }
  | proposed (now : Nat) (src : NodeId) (reqId client seq next index : Nat) (op : Op) (n : Node)
      (leads : k.role = .leader) (fresh : k.sm.cached client seq = none) (alone : k.inFlight client seq = none)
      (put : (k.server.wake now).propose { client, seq, op } = (some index, n)) :
      Leaves k (.request now src reqId client seq op)
        { k.wake now with
          toNode := n
          nextReadId := next
          waiting := k.waiting.insert index { dst := src, reqId, client, seq } }
  | refused (now : Nat) (src : NodeId) (reqId client seq next : Nat) (op : Op) (n : Node)
      (leads : k.role = .leader) (fresh : k.sm.cached client seq = none) (alone : k.inFlight client seq = none)
      (put : (k.server.wake now).propose { client, seq, op } = (none, n)) :
      Leaves k (.request now src reqId client seq op)
        ({ k.wake now with toNode := n, nextReadId := next }.reply src reqId (.notLeader n.leader))

inductive Handles (k : KvServer) : KvEvent → KvServer → Prop where
  | redirected (now : Nat) (src : NodeId) (reqId client seq : Nat) (op : Op) :
      Handles k (.request now src reqId client seq op) ((k.wake now).reply src reqId (.notLeader k.leader))
  | remembered (now : Nat) (src : NodeId) (reqId client seq : Nat) (op : Op) (outcome : Outcome)
      (cached : k.sm.cached client seq = some outcome) :
      Handles k (.request now src reqId client seq op) ((k.wake now).reply src reqId outcome)
  | retargeted (now : Nat) (src : NodeId) (reqId client seq next index : Nat) (op : Op) (w : Waiting)
      (found : k.inFlight client seq = some (index, w)) :
      Handles k (.request now src reqId client seq op)
        { k.wake now with nextReadId := next, waiting := k.waiting.insert index { w with dst := src, reqId } }
  | changed (now : Nat) (members : List NodeId) :
      Handles k (.membership now members) ((k.wake now).proposeMembership members).2
  | drained (event : KvEvent) (p : KvServer) (leaves : k.Leaves event p) : Handles k event p.drain

theorem proposeRequest_handles {now : Nat} {src : NodeId} {reqId client seq next : Nat} {op : Op}
    (leads : k.role = .leader) (fresh : k.sm.cached client seq = none) :
    k.Handles (.request now src reqId client seq op)
      (({ k.wake now with nextReadId := next }).proposeRequest src reqId client seq op) := by
  unfold proposeRequest
  have awake : { k.wake now with nextReadId := next }.inFlight client seq = k.inFlight client seq := rfl
  have node : { k.wake now with nextReadId := next }.toNode = k.server.wake now := rfl
  rw [awake, node]
  split
  · next index w found => exact .retargeted now src reqId client seq next index op w found
  · next alone =>
    split
    · next index n put => exact .drained _ _ (.proposed now src reqId client seq next index op n leads fresh alone put)
    · next n put => exact .drained _ _ (.refused now src reqId client seq next op n leads fresh alone put)

theorem handle_handles (who : Identity) (k : KvServer) {event : KvEvent}
    (alive : ∀ now wal a b, event ≠ .restart now wal a b) : k.Handles event (k.handle who event) := by
  cases event with
  | restart now wal a b => exact absurd rfl (alive now wal a b)
  | message now src msg =>
    rw [handle, onRaft]
    exact .drained _ _ (.message now src msg)
  | timer now tag =>
    rw [handle, onTimer]
    exact .drained _ _ (.timer now tag)
  | storage now op ok =>
    rw [handle, onStorage]
    exact .drained _ _ (.storage now op ok)
  | membership now members => exact .changed now members
  | request now src reqId client seq op =>
    rw [handle]
    unfold onRequest
    split
    · exact .redirected now src reqId client seq op
    · next leads =>
      have leads : k.role = .leader := not_not.mp leads
      have cache : (k.wake now).sm.cached client seq = k.sm.cached client seq := rfl
      rw [cache]
      split
      · next outcome cached => exact .remembered now src reqId client seq op outcome cached
      · next fresh =>
        split
        · next key =>
          simp only
          split
          · exact .drained _ _ (.read now src reqId client seq key leads fresh)
          · next refused =>
            rw [Node.requestRead_refused (Bool.eq_false_iff.mpr refused)]
            exact proposeRequest_handles leads fresh
        · exact @proposeRequest_handles k now src reqId client seq k.nextReadId op leads fresh

theorem drains_of_call {now : Nat} {input : Input} (call : k.Calls event now input)
    (node : p.toNode = (k.server.handle now input).1) : k.Drains event p.toNode := node ▸ .called now input call

theorem Leaves.drains (leaves : k.Leaves event p) : k.Drains event p.toNode ∧ p.sm = k.sm := by
  cases leaves with
  | message now src msg => exact ⟨drains_of_call (.message now src msg) rfl, rfl⟩
  | timer now tag => exact ⟨drains_of_call (.timer now tag) rfl, rfl⟩
  | storage now op ok => exact ⟨drains_of_call (.storage now op ok) rfl, rfl⟩
  | read now src reqId client seq key leads fresh =>
    exact ⟨drains_of_call (.read now src reqId client seq key leads fresh) rfl, rfl⟩
  | proposed now src reqId client seq next index op n leads fresh alone put =>
    refine ⟨?_, rfl⟩
    cases failed : k.failed with
    | false =>
      refine drains_of_call (.propose now src reqId client seq op ⟨leads, failed, fresh, alone⟩) ?_
      rw [Server.handle, put]
    | true =>
      have here : (k.server.wake now).failed = true := failed
      simp [Node.propose, here] at put
  | refused now src reqId client seq next op n leads fresh alone put =>
    rw [reply_sm]
    refine ⟨?_, rfl⟩
    cases failed : k.failed with
    | false =>
      refine drains_of_call (.propose now src reqId client seq op ⟨leads, failed, fresh, alone⟩) ?_
      rw [Server.handle, put, reply_toNode]
    | true =>
      have here : (k.server.wake now).failed = true := failed
      simp only [Node.propose, here, or_true, if_true, Prod.mk.injEq] at put
      rw [reply_toNode, ← put.2]
      exact .idle now

inductive Route where
  | remembered (client seq : Nat)
  | applied (client seq index : Nat)
  | read
  deriving DecidableEq, Repr

def Route.command : Route → Option (Nat × Nat)
  | .remembered client seq | .applied client seq _ => some (client, seq)
  | .read => none

/-- No later command of the client was applied before the entry that is answered. -/
def Route.InTurn (committed : Nat → Entry) : Route → Prop
  | .applied client seq index => ¬ Overtaken committed client seq index
  | _ => True

/-- The answer goes out on this route. -/
inductive Sends (who : Identity) (k : KvServer) : KvEvent → Reply → Route → Prop where
  | remembered (now : Nat) (src : NodeId) (reqId client seq : Nat) (op : Op) (outcome : Outcome)
      (cached : k.sm.cached client seq = some outcome)
      (last : k.handle who (.request now src reqId client seq op) = (k.wake now).reply src reqId outcome) :
      Sends who k (.request now src reqId client seq op) { dst := src, reqId, outcome } (.remembered client seq)
  | applied (event : KvEvent) (p : KvServer) (front : List Entry) (e : Entry) (w : Waiting) (r : Reply)
      (leaves : k.Leaves event p) (last : k.handle who event = p.drain) (sent : p.SentApplied front e w r) :
      Sends who k event r (.applied w.client w.seq e.index)
  | read (event : KvEvent) (p : KvServer) (w : WaitingRead) (r : Reply) (leaves : k.Leaves event p)
      (last : k.handle who event = p.drain) (sent : p.SentRead w r) : Sends who k event r .read

theorem Leaves.mem_replies (leaves : k.Leaves event p) (sent : r ∈ p.replies) : ¬ r.outcome.Definite := by
  cases leaves with
  | refused now src reqId client seq next op n leads fresh alone put =>
    obtain old | answer := mem_reply sent
    · cases old
    · rw [answer]
      exact not_false
  | _ => cases sent

theorem recover_replies (wal a b : Bytes) (id : NodeId) (members : List NodeId) (cfg : RaftConfig) (io : Io)
    (sent : r ∈ (recover wal a b id members cfg io).replies) : ¬ r.outcome.Definite := by
  intro definite
  have old := (drops_adoptSnapshot { toNode := Raft.recover wal a b id members cfg io }).mem sent definite
  cases old

-- Every definite answer has its route.
theorem sends_of_mem (sent : r ∈ (k.handle who event).replies) (definite : r.outcome.Definite) :
    ∃ route, k.Sends who event r route := by
  by_cases boots : ∃ now wal a b, event = .restart now wal a b
  · obtain ⟨now, wal, a, b, rfl⟩ := boots
    exact absurd definite (recover_replies wal a b who.id who.members who.cfg _ sent)
  · push Not at boots
    have handles := handle_handles who k boots
    generalize last : k.handle who event = after at handles sent
    cases handles with
    | redirected now src reqId client seq op =>
      obtain old | answer := mem_reply sent
      · cases old
      · rw [answer] at definite
        cases definite
    | remembered now src reqId client seq op outcome cached =>
      obtain old | answer := mem_reply sent
      · cases old
      · subst answer
        exact ⟨_, .remembered now src reqId client seq op outcome cached last⟩
    | retargeted => cases sent
    | changed => cases sent
    | drained _ p leaves =>
      obtain old | ⟨front, e, w, applied⟩ | ⟨w, read⟩ := mem_drain sent definite
      · exact absurd definite (leaves.mem_replies old)
      · exact ⟨_, .applied event p front e w r leaves last applied⟩
      · exact ⟨_, .read event p w r leaves last read⟩

-- The part of a row of values in front of one of them.
theorem range'_split {α : Type} {f : Nat → α} {start count : Nat} {front back : List α} {a : α}
    (row : (List.range' start count).map f = front ++ a :: back) :
    front.length < count ∧ a = f (start + front.length) ∧ front = (List.range' start front.length).map f := by
  obtain ⟨before, rest, split, rfl, tail⟩ := List.map_eq_append_iff.mp row
  obtain ⟨k, within, rfl, rfl⟩ := List.range'_eq_append_iff.mp split
  rw [List.length_map, List.length_range']
  rw [Nat.mul_one] at tail
  cases more : count - k with
  | zero =>
    rw [more] at tail
    cases tail
  | succ more' =>
    rw [more, List.range'_succ, List.map_cons] at tail
    exact ⟨by omega, (List.cons.inj tail).1.symm, rfl⟩

-- The client has waited since before the queues were drained.
theorem SentApplied.waited {front : List Entry} {e : Entry} {w : Waiting} (sent : p.SentApplied front e w r) :
    p.waiting[e.index]? = some w := by
  refine releases_adoptSnapshot p _ _ ?_
  exact @releases_foldl { p.adoptSnapshot with toNode := p.adoptSnapshot.takeApplied.2 } _ _ releases_applyEntry front
    _ _ sent.waits

-- Who waits on an applied entry is answered as the sequence has it.
theorem SentApplied.issued {front : List Entry} {e : Entry} {w : Waiting} (sent : p.SentApplied front e w r)
    (follows : p.Follows committed p.sm) (agrees : p.Agrees committed) :
    IssuedAt committed w.client w.seq e.index ∧ r.outcome = answerAt committed e.index ∧
      e.index ≤ p.emptyQueues.lastApplied := by
  obtain ⟨back, handed⟩ := sent.handed
  rw [adoptSnapshot_toNode] at handed
  obtain ⟨_, row⟩ := follows.handed agrees
  have indices := follows.handed_index
  rw [handed] at row
  rw [handed, List.map_append, List.map_cons] at indices
  obtain ⟨short, same, before⟩ := range'_split row.symm
  obtain ⟨_, index, _⟩ := range'_split ((List.map_id _).trans indices.symm)
  rw [List.length_map, id] at index
  have place : e = committed e.index := index ▸ same
  have machine : (front.foldl applyEntry { p.adoptSnapshot with toNode := p.adoptSnapshot.takeApplied.2 }).sm =
      stateAfter committed (e.index - 1) := by
    have next : e.index - 1 = p.lastApplied + front.length := by omega
    rw [foldl_applyEntry_sm, before, next, ← stateAfter_add]
    exact congrArg (StateMachine.applyAll · _) ((adoptSnapshot_sm p).trans follows.restored)
  refine ⟨⟨by omega, ?_, ?_⟩, ?_, by omega⟩
  · rw [← place, sent.client]
  · rw [← place, sent.seq]
  · rw [sent.answer, machine, answerAt, ← place]

end KvServer

structure Request where
  src : NodeId
  reqId : Nat
  client : Nat
  seq : Nat
  op : Op
  deriving DecidableEq, Repr

def KvEvent.asks : KvEvent → List Request
  | .request _ src reqId client seq op => [{ src, reqId, client, seq, op }]
  | _ => []

/-- A server, and the requests that have reached it. -/
structure RequestHistory extends KvServer where
  asked : List Request := []

namespace RequestHistory

variable (who : Identity)

def init : RequestHistory := { toKvServer := KvServer.init who }

def step (h : RequestHistory) (event : KvEvent) : Option RequestHistory :=
  (h.toKvServer.step who event).map fun k => { toKvServer := k, asked := h.asked ++ event.asks }

def Reachable (ok : RequestHistory → KvEvent → Prop) (h : RequestHistory) : Prop :=
  Execution.Run (step who) ok (init who) h

def Faithful (committed : Nat → Entry) (h : RequestHistory) (event : KvEvent) : Prop :=
  h.toKvServer.Faithful committed who event

instance (committed : Nat → Entry) (h : RequestHistory) (event : KvEvent) :
    Decidable (Faithful who committed h event) := inferInstanceAs (Decidable (KvServer.Faithful ..))

/-- This command has been asked for, by a request that `dst` sent under this number. -/
def Asks (asked : List Request) (dst : NodeId) (reqId client seq : Nat) : Prop :=
  ∃ q ∈ asked, q.src = dst ∧ q.reqId = reqId ∧ q.client = client ∧ q.seq = seq

def Vouched (k : KvServer) (asked : List Request) : Prop :=
  ∀ (index : Nat) (w : Waiting), k.waiting[index]? = some w → Asks asked w.dst w.reqId w.client w.seq

variable {who} {committed : Nat → Entry} {k k' p : KvServer} {asked : List Request} {event : KvEvent}

theorem Asks.append {dst : NodeId} {reqId client seq : Nat} (asks : Asks asked dst reqId client seq)
    (more : List Request) : Asks (asked ++ more) dst reqId client seq := by
  obtain ⟨q, here, facts⟩ := asks
  exact ⟨q, List.mem_append_left _ here, facts⟩

theorem Vouched.append (vouched : Vouched k asked) (more : List Request) : Vouched k (asked ++ more) :=
  fun index w waits => (vouched index w waits).append more

theorem Vouched.released (vouched : Vouched k asked) (releases : k.Releases k') : Vouched k' asked :=
  fun index w waits => vouched index w (releases index w waits)

theorem asks_now (asked : List Request) (now : Nat) (src : NodeId) (reqId client seq : Nat) (op : Op) :
    Asks (asked ++ (KvEvent.request now src reqId client seq op).asks) src reqId client seq :=
  ⟨{ src, reqId, client, seq, op }, List.mem_append_right _ List.mem_cons_self, rfl, rfl, rfl, rfl⟩

-- One more client waits, and it has asked.
theorem Vouched.insert {index : Nat} {w : Waiting} (vouched : Vouched k asked)
    (waiting : k'.waiting = k.waiting.insert index w) (asks : Asks asked w.dst w.reqId w.client w.seq) :
    Vouched k' asked := by
  intro other w' waits
  rw [waiting, ExtTreeMap.getElem?_insert] at waits
  split at waits
  · cases waits
    exact asks
  · exact vouched other w' waits

theorem inFlight_spec {client seq index : Nat} {w : Waiting} (found : k.inFlight client seq = some (index, w)) :
    w.client = client ∧ w.seq = seq := by
  have matched := List.find?_some found
  simpa using matched

theorem Vouched.leaves (vouched : Vouched k asked) (leaves : k.Leaves event p) :
    Vouched p (asked ++ event.asks) := by
  cases leaves with
  | proposed now src reqId client seq next index op n leads fresh alone put =>
    exact (vouched.append _).insert rfl (asks_now asked now src reqId client seq op)
  | refused now src reqId client seq next op n leads fresh alone put =>
    intro index w waits
    rw [KvServer.reply_waiting] at waits
    exact vouched.append _ index w waits
  | _ => exact vouched.append _

theorem Vouched.handle (vouched : Vouched k asked) : Vouched (k.handle who event) (asked ++ event.asks) := by
  by_cases boots : ∃ now wal a b, event = .restart now wal a b
  · obtain ⟨now, wal, a, b, rfl⟩ := boots
    intro index w waits
    have none := KvServer.releases_adoptSnapshot _ index w waits
    cases none
  · push Not at boots
    have handles := KvServer.handle_handles who k boots
    generalize k.handle who event = after at handles
    cases handles with
    | redirected | remembered =>
      intro index w waits
      rw [KvServer.reply_waiting] at waits
      exact vouched.append _ index w waits
    | retargeted now src reqId client seq next index op w found =>
      obtain ⟨client, seq⟩ := inFlight_spec found
      refine (vouched.append _).insert rfl ?_
      rw [client, seq]
      exact asks_now asked now src reqId _ _ op
    | changed => exact vouched.append _
    | drained _ p leaves => exact (vouched.leaves leaves).released p.drain_releases

theorem invariant_of_reachable {h : RequestHistory} (reached : Reachable who (Faithful who committed) h) :
    h.Follows committed h.sm ∧ h.pendingRestore = none ∧ Vouched h.toKvServer h.asked := by
  refine @Execution.Run.invariant _ _ _ _ _ _
    (fun h => h.Follows committed h.sm ∧ h.pendingRestore = none ∧ Vouched h.toKvServer h.asked) ?_ ?_ reached
  · refine and_assoc.mp ⟨@KvServer.recover_follows committed who 0 [] [] [] {} ?_, ?_⟩
    · intro snap found
      cases found
    · intro index w waits
      have none := KvServer.releases_adoptSnapshot _ index w waits
      cases none
  · intro h event h' ⟨follows, settled, vouched⟩ faithful next
    obtain ⟨k, moved, rfl⟩ := Option.map_eq_some_iff.mp next
    simp only [KvServer.step] at moved
    split at moved
    · next calm =>
      cases moved
      obtain ⟨follows, settled⟩ := KvServer.handle_follows follows settled faithful.1 calm faithful.2
      exact ⟨follows, settled, vouched.handle⟩
    · cases moved

end RequestHistory

/-- Every definite answer has a route. One that belongs to a command goes to somebody who asked for it, and as
long as no later command of the client came first, it is the result the command had when it took effect. -/
theorem definite_answers {who : Identity} {committed : Nat → Entry} {h : RequestHistory}
    (reached : RequestHistory.Reachable who (RequestHistory.Faithful who committed) h) {event : KvEvent}
    (faithful : RequestHistory.Faithful who committed h event) (calm : (h.handle who event).panicked = false) :
    (∀ r ∈ (h.handle who event).replies, r.outcome.Definite → ∃ route, h.Sends who event r route) ∧
      ∀ r route client seq, h.Sends who event r route → route.command = some (client, seq) →
        RequestHistory.Asks (h.asked ++ event.asks) r.dst r.reqId client seq ∧
        (route.InTurn committed → ∃ first ≤ (h.handle who event).lastApplied,
          FirstEffect committed client seq first ∧ r.outcome = answerAt committed first) := by
  obtain ⟨follows, settled, vouched⟩ := RequestHistory.invariant_of_reachable reached
  refine ⟨fun r sent definite => KvServer.sends_of_mem sent definite, ?_⟩
  intro r route client seq sends command
  cases sends with
  | read => cases command
  | remembered now src reqId _ _ op outcome cached last =>
    cases command
    have synced := follows.synced
    unfold Raft.InStep at synced
    rw [settled] at synced
    rw [synced] at cached
    obtain ⟨first, short, effect, outcome⟩ := cached_first cached
    refine ⟨RequestHistory.asks_now h.asked now src reqId client seq op, fun _ => ⟨first, ?_, effect, outcome⟩⟩
    rw [last, KvServer.reply_toNode]
    exact short
  | applied _ p front e w _ leaves last sent =>
    cases command
    obtain ⟨drains, machine⟩ := leaves.drains
    rw [last] at calm
    have agrees := faithful.2
    rw [last] at agrees ⊢
    rw [KvServer.drain_toNode] at calm agrees
    have later := (drains.follows (KvServer.panicked_of_drain calm) follows faithful.1).1
    rw [← machine] at later
    obtain ⟨issued, outcome, short⟩ := sent.issued later (KvServer.agrees_of_drain agrees)
    refine ⟨?_, fun inTurn => ?_⟩
    · have asks := vouched.leaves leaves e.index w sent.waited
      rw [sent.answer]
      exact asks
    · obtain ⟨first, before, effect, same⟩ := answerAt_first issued inTurn
      refine ⟨first, ?_, effect, outcome.trans same⟩
      rw [KvServer.drain_toNode, KvServer.drain_lastApplied]
      exact before.trans short
def retried : Nat → Entry
  | 1 => { term := 1, index := 1, cmd := .noop }
  | 3 => { term := 1, index := 3, cmd := { client := 7, seq := 2, op := .cas "k" (some "b") "c" } }
  | index => { term := 1, index, cmd := { client := 7, seq := 1, op := .put "k" "a" } }

def recluseWriting : List KvEvent :=
  recluseElected ++ [.storage 0 3 true, .storage 0 4 true, .request 0 9 1 7 1 (.put "k" "a"), .storage 0 5 true]

def recluseRetried : List KvEvent :=
  recluseWriting ++ [.storage 0 6 true, .request 0 9 2 7 2 (.cas "k" (some "b") "c"), .storage 0 7 true,
    .storage 0 8 true, .request 0 9 1 7 1 (.put "k" "a"), .storage 0 9 true]

def KvServer.nearAnswer (k : KvServer) (op : OpId) : List (Nat × Waiting) × Bool × List Reply :=
  (k.waiting.toList, k.waitingReads.isEmpty, (k.handle recluse (.storage 0 op true)).replies)

theorem recluseWriting_answer :
    (Execution.play (RequestHistory.step recluse) (RequestHistory.Faithful recluse retried)
      (RequestHistory.init recluse) recluseWriting).map (fun h => (h.nearAnswer 6,
        decide (RequestHistory.Faithful recluse retried h (.storage 0 6 true)),
        (h.handle recluse (.storage 0 6 true)).panicked)) =
      some (([(2, { dst := 9, reqId := 1, client := 7, seq := 1 })], true,
        [{ dst := 9, reqId := 1, outcome := .written }]), true, false) := by decide +kernel

theorem recluseRetried_answer :
    (Execution.play (RequestHistory.step recluse) (RequestHistory.Faithful recluse retried)
      (RequestHistory.init recluse) recluseRetried).map (fun h => (h.nearAnswer 10,
        decide (RequestHistory.Faithful recluse retried h (.storage 0 10 true)),
        (h.handle recluse (.storage 0 10 true)).panicked)) =
      some (([(4, { dst := 9, reqId := 1, client := 7, seq := 1 })], true,
        [{ dst := 9, reqId := 1, outcome := .cas false }]), true, false) := by decide +kernel

theorem KvServer.replies_of_near {k : KvServer} {op : OpId} {waits : List (Nat × Waiting)} {noReads : Bool}
    {replies : List Reply} (known : k.nearAnswer op = (waits, noReads, replies)) :
    (k.handle recluse (.storage 0 op true)).replies = replies := by
  simp only [nearAnswer, Prod.mk.injEq] at known
  exact known.2.2

-- With one client waiting and no read, an answer can only be meant for that client.
theorem KvServer.route_of_alone {k : KvServer} {op : OpId} {place : Nat} {w : Waiting} {replies : List Reply}
    (known : k.nearAnswer op = ([(place, w)], true, replies)) {r : Reply} {route : Route}
    (sends : k.Sends recluse (.storage 0 op true) r route) : route = .applied w.client w.seq place := by
  obtain ⟨waits, noReads, -⟩ : k.waiting.toList = [(place, w)] ∧ k.waitingReads.isEmpty = true ∧ _ := by
    simpa only [nearAnswer, Prod.mk.injEq] using known
  cases sends with
  | applied _ p front e w' _ leaves last sent =>
    cases leaves with
    | storage now op ok =>
      have listed : (e.index, w') ∈ k.waiting.toList := ExtTreeMap.mem_toList_iff_getElem?_eq_some.mpr sent.waited
      rw [waits] at listed
      obtain ⟨rfl, rfl⟩ := Prod.mk.inj (List.mem_singleton.mp listed)
      rfl
  | read _ p w' _ leaves last sent =>
    obtain ⟨⟨id, waits⟩, -⟩ := sent
    cases leaves with
    | storage now op ok =>
      have empty : k.waitingReads = ∅ := ExtTreeMap.isEmpty_iff.mp noReads
      change k.waitingReads[id]? = some w' at waits
      rw [empty] at waits
      cases waits

theorem firstEffect_retried {first : Nat} (effect : FirstEffect retried 7 1 first) : first = 2 := by
  obtain ⟨positive, client, -⟩ := effect.issued
  by_contra other
  have behind : 2 < first := by
    rcases first with _ | _ | _ | _ | first
    · omega
    · cases client
    · exact absurd rfl other
    · omega
    · omega
  refine effect.first 2 behind ⟨by decide, rfl, rfl⟩ ?_
  have number := effect.issued.2.2
  rcases first with _ | _ | _ | _ | first
  · omega
  · omega
  · omega
  · cases number
  · exact Iff.rfl

theorem definite_answers_recluse : ∃ h : RequestHistory,
    RequestHistory.Reachable recluse (RequestHistory.Faithful recluse retried) h ∧
      ∃ r ∈ (h.handle recluse (.storage 0 6 true)).replies, r = { dst := 9, reqId := 1, outcome := .written } ∧
        ∃ first ≤ (h.handle recluse (.storage 0 6 true)).lastApplied,
          FirstEffect retried 7 1 first ∧ r.outcome = answerAt retried first := by
  obtain ⟨h, played, known⟩ := Option.map_eq_some_iff.mp recluseWriting_answer
  obtain ⟨near, faithful, calm⟩ := by simpa only [Prod.mk.injEq, decide_eq_true_eq] using known
  have reached : RequestHistory.Reachable recluse (RequestHistory.Faithful recluse retried) h :=
    Execution.run_of_play played
  obtain ⟨routes, right⟩ := definite_answers reached faithful calm
  have sent : { dst := 9, reqId := 1, outcome := .written } ∈ (h.handle recluse (.storage 0 6 true)).replies := by
    rw [KvServer.replies_of_near near]
    exact List.mem_cons_self
  obtain ⟨route, sends⟩ := routes _ sent trivial
  obtain rfl := KvServer.route_of_alone near sends
  obtain ⟨-, settled⟩ := right _ _ 7 1 sends rfl
  refine ⟨h, reached, _, sent, rfl, settled ?_⟩
  rintro ⟨later, positive, ahead, -, client, -⟩
  obtain rfl : later = 1 := by omega
  cases client

/-- A copy of a write that arrives after the client has moved on is told the result of the client's later
command. -/
theorem late_copy_misled : ∃ h : RequestHistory,
    RequestHistory.Reachable recluse (RequestHistory.Faithful recluse retried) h ∧
      RequestHistory.Faithful recluse retried h (.storage 0 10 true) ∧
      ∃ r ∈ (h.handle recluse (.storage 0 10 true)).replies,
        h.Sends recluse (.storage 0 10 true) r (.applied 7 1 4) ∧ r.outcome = .cas false ∧
        ¬ ∃ first, FirstEffect retried 7 1 first ∧ r.outcome = answerAt retried first := by
  obtain ⟨h, played, known⟩ := Option.map_eq_some_iff.mp recluseRetried_answer
  obtain ⟨near, faithful, -⟩ := by simpa only [Prod.mk.injEq, decide_eq_true_eq] using known
  have reached : RequestHistory.Reachable recluse (RequestHistory.Faithful recluse retried) h :=
    Execution.run_of_play played
  have sent : { dst := 9, reqId := 1, outcome := .cas false } ∈ (h.handle recluse (.storage 0 10 true)).replies := by
    rw [KvServer.replies_of_near near]
    exact List.mem_cons_self
  obtain ⟨route, sends⟩ := KvServer.sends_of_mem sent trivial
  obtain rfl := KvServer.route_of_alone near sends
  refine ⟨h, reached, faithful, _, sent, sends, rfl, ?_⟩
  rintro ⟨first, effect, same⟩
  obtain rfl := firstEffect_retried effect
  have written : answerAt retried 2 = .written := by decide +kernel
  rw [written] at same
  cases same

end SimKv
