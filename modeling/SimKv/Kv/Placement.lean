import SimKv.Kv.Backing

set_option autoImplicit false

/-!
# Where commands take effect

What is settled has its place in one sequence for good. Every definite answer of a server is the one a command of its
client was given at its first place there, or comes too late to be read.
-/

namespace SimKv

open Agreement Succession Std

variable {ι G : Type} {setup : Setup} {S : Service ι G} {c c' : Cluster} {g g' : State NodeId Entry}
  {committed : Nat → Entry} {e e' : Entry} {id : NodeId}

def Placed (setup : Setup) (g : State NodeId Entry) (index : Nat) : Prop := ∃ e, Fixed setup g e ∧ e.index = index

def Compatible (setup : Setup) (g : State NodeId Entry) (committed : Nat → Entry) : Prop :=
  ∀ e, Fixed setup g e → committed e.index = e

theorem Placed.mono {index : Nat} (placed : Placed setup g index) (grows : Grows g g') : Placed setup g' index := by
  obtain ⟨e, fixed, same⟩ := placed
  exact ⟨e, fixed.mono grows, same⟩

theorem Compatible.before (compatible : Compatible setup g' committed) (grows : Grows g g') :
    Compatible setup g committed := fun e fixed => compatible e (fixed.mono grows)

theorem Placed.positive {index : Nat} (placed : Placed setup g index) : 1 ≤ index := by
  obtain ⟨e, ⟨_, _, _, positive, _⟩, rfl⟩ := placed
  rw [noIndex] at positive
  omega

theorem Compatible.fixed {index : Nat} (compatible : Compatible setup g committed) (placed : Placed setup g index) :
    Fixed setup g (committed index) ∧ (committed index).index = index := by
  obtain ⟨e, fixed, rfl⟩ := placed
  rw [compatible e fixed]
  exact ⟨fixed, rfl⟩

theorem Fixed.eq_of_index (sound : g.Sound Entry.term setup.members.toFinset) (fixed : Fixed setup g e)
    (fixed' : Fixed setup g e') (same : e.index = e'.index) : e = e' := by
  obtain ⟨_, _, settled, _, found⟩ := fixed
  obtain ⟨_, _, settled', _, found'⟩ := fixed'
  rw [← same] at found'
  exact settled_getElem? sound settled settled' found found'

-- What is settled fits into one sequence.
theorem exists_compatible (sound : g.Sound Entry.term setup.members.toFinset) :
    ∃ committed, Compatible setup g committed := by
  have each : ∀ index, ∃ e', ∀ e, Fixed setup g e → e.index = index → e' = e := by
    intro index
    by_cases placed : Placed setup g index
    · obtain ⟨e', fixed', here⟩ := placed
      exact ⟨e', fun e fixed same => fixed'.eq_of_index sound fixed (here.trans same.symm)⟩
    · exact ⟨opening, fun e fixed same => absurd ⟨e, fixed, same⟩ placed⟩
  choose committed here using each
  exact ⟨committed, fun e fixed => here e.index e fixed rfl⟩

-- A settled list is the beginning of what a winner had.
theorem settled_stem {t k : Nat} {l : List Entry} (settled : g.Settled Entry.term setup.members.toFinset t l)
    (found : l[k]? = some e) : ∃ u, (g.lead u)[k]? = some e := by
  rcases settled with rfl | ⟨u, -, i, -, pre⟩
  · cases found
  · obtain ⟨inside, -⟩ := List.getElem?_eq_some_iff.mp found
    obtain ⟨rest, same⟩ := pre.trans (List.take_prefix _ _)
    exact ⟨u, by rw [← same, List.getElem?_append_left inside, found]⟩

theorem Fixed.mem_lead (fixed : Fixed setup g e) : ∃ t, e ∈ g.lead t := by
  obtain ⟨_, _, settled, _, found⟩ := fixed
  obtain ⟨u, here⟩ := settled_stem settled found
  exact ⟨u, List.mem_of_getElem? here⟩

-- Places are settled from the first one on.
theorem Placed.earlier {index earlier : Nat} (formed : ∀ t, WellFormed (g.lead t)) (placed : Placed setup g index)
    (positive : 1 ≤ earlier) (before : earlier ≤ index) : Placed setup g earlier := by
  obtain ⟨e, ⟨t, l, settled, _, found⟩, rfl⟩ := placed
  obtain ⟨inside, -⟩ := List.getElem?_eq_some_iff.mp found
  have here := List.getElem?_eq_getElem (show earlier - 1 < l.length by omega)
  obtain ⟨u, inLead⟩ := settled_stem settled here
  have numbered : (l[earlier - 1]).index = earlier := by
    rw [(formed u).numbered _ _ inLead]
    omega
  refine ⟨l[earlier - 1], ⟨t, l, settled, ?_, ?_⟩, numbered⟩
  · rw [numbered, noIndex]
    omega
  · rw [numbered]
    exact here

-- A place that is settled later comes behind all that are settled now.
theorem Placed.behind {index later : Nat} (formed : ∀ t, WellFormed (g.lead t)) (placed : Placed setup g index)
    (open_ : ¬ Placed setup g later) (then_ : Placed setup g' later) : index < later := by
  by_contra before
  exact open_ (placed.earlier formed then_.positive (Nat.le_of_not_lt before))

theorem SafetyRel.agrees (rel : SafetyRel setup c g) (compatible : Compatible setup g committed) (id : NodeId) :
    (c.host id).raft.Agrees committed := fun e member within => (compatible e (rel.fixed member within)).symm

theorem SafetyRel.placed (rel : SafetyRel setup c g) {index : Nat} (positive : 1 ≤ index)
    (within : index ≤ (c.host id).raft.commitIndex) : Placed setup g index := by
  have inside := (rel.committed id).2
  have found := List.getElem?_eq_getElem (show index - 1 < (c.host id).raft.log.entries.length by omega)
  have numbered := (rel.logs id).whole.left.wellFormed.numbered _ _ found
  refine ⟨_, rel.fixed (List.mem_of_getElem? found) ?_, numbered.trans (by omega)⟩
  rw [numbered]
  omega

namespace Service.Holds

theorem source_at {index : Nat} (holds : S.Holds setup c g) (compatible : Compatible setup g committed)
    (placed : Placed setup g index) : S.Sourced (committed index) := by
  obtain ⟨t, member⟩ := (compatible.fixed placed).1.mem_lead
  exact holds.source member

theorem asked_at {index : Nat} (holds : S.Holds setup c g) (compatible : Compatible setup g committed)
    (placed : Placed setup g index) (fromClient : (committed index).cmd.FromClient) :
    ∃ q, S.Asked q ∧ (committed index).cmd = { client := q.client, seq := q.seq, op := q.op } := by
  rcases holds.source_at compatible placed with own | asked
  · rw [own] at fromClient
    exact absurd (.inl rfl) fromClient
  · exact asked

-- A command that goes by the number of a request is a client's.
theorem fromClient {index seq : Nat} (holds : S.Holds setup c g) (compatible : Compatible setup g committed)
    (placed : Placed setup g index) (numbered : (committed index).cmd.seq = seq) (positive : 0 < seq) :
    (committed index).cmd.FromClient := by
  rcases holds.source_at compatible placed with own | ⟨q, asked, same⟩
  · rw [own] at numbered
    exact absurd numbered positive.ne
  · have keyed := asked.keyed holds.manned
    rw [same]
    rintro (none | installs)
    · have none : q.op = .noop := none
      rw [none] at keyed
      cases keyed
    · have plain : Command.members { client := q.client, seq := q.seq, op := q.op } = none := Command.members_of_key keyed
      rw [plain] at installs
      cases installs

end Service.Holds

namespace KvServer

variable {who : Identity} {k p : KvServer} {event : KvEvent} {r : Reply}

theorem answerRead_unread (id : Nat) (unread : k.waitingReads = ∅) : (k.answerRead id).waitingReads = ∅ := by
  unfold answerRead
  split
  · next w waits =>
    rw [unread] at waits
    cases waits
  · exact unread

theorem failRead_unread (id : Nat) (unread : k.waitingReads = ∅) : (k.failRead id).waitingReads = ∅ := by
  unfold failRead
  split
  · next w waits =>
    rw [unread] at waits
    cases waits
  · exact unread

theorem foldl_unread {f : KvServer → Nat → KvServer}
    (keeps : ∀ (k : KvServer) (id : Nat), k.waitingReads = ∅ → (f k id).waitingReads = ∅) (ids : List Nat)
    (unread : k.waitingReads = ∅) : (ids.foldl f k).waitingReads = ∅ := by
  induction ids generalizing k with
  | nil => exact unread
  | cons id rest ih => exact ih (keeps k id unread)

theorem answerReads_unread (unread : k.waitingReads = ∅) : k.answerReads.waitingReads = ∅ := by
  rw [answerReads]
  exact foldl_unread (fun k id => answerRead_unread id) _ unread

theorem failReads_unread (unread : k.waitingReads = ∅) : k.failReads.waitingReads = ∅ := by
  rw [failReads]
  exact foldl_unread (fun k id => failRead_unread id) _ unread

theorem maybeSnapshot_unread (unread : k.waitingReads = ∅) : k.maybeSnapshot.waitingReads = ∅ := by
  unfold maybeSnapshot
  split <;> exact unread

theorem drain_unread (unread : k.waitingReads = ∅) : k.drain.waitingReads = ∅ := by
  have last : k.drained.maybeSnapshot.waitingReads = ∅ :=
    maybeSnapshot_unread (failReads_unread (answerReads_unread (k.applied_waitingReads.trans unread)))
  unfold drain
  simp only
  split
  · exact (foldl_frame dropWaiting_waitingReads _).trans last
  · exact last

variable (who k event) in
def Commanded : Prop := (k.handle who event).waitingReads = ∅ ∧
  ∀ r ∈ (k.handle who event).replies, r.outcome.Definite → ∃ route client seq,
    k.Sends who event r route ∧ route.command = some (client, seq)

theorem Leaves.commanded (leaves : k.Leaves event p) (last : k.handle who event = p.drain)
    (unread : p.waitingReads = ∅) : k.Commanded who event := by
  refine ⟨last ▸ drain_unread unread, fun r sent definite => ?_⟩
  rw [last] at sent
  obtain old | ⟨front, e, w, applied⟩ | ⟨w, ⟨id, waits⟩, -⟩ := mem_drain sent definite
  · exact absurd definite (leaves.mem_replies old)
  · exact ⟨_, w.client, w.seq, .applied event p front e w r leaves last applied, rfl⟩
  · rw [unread] at waits
    cases waits

theorem commanded_of_quiet (unread : (k.handle who event).waitingReads = ∅)
    (quiet : ∀ r ∈ (k.handle who event).replies, ¬ r.outcome.Definite) : k.Commanded who event :=
  ⟨unread, fun r sent definite => absurd definite (quiet r sent)⟩

theorem commanded_of_proposal {now : Nat} {src : NodeId} {reqId client seq next : Nat} {op : Op}
    (leads : k.role = .leader) (fresh : k.sm.cached client seq = none) (unread : k.waitingReads = ∅)
    (last : k.handle who (.request now src reqId client seq op) =
      ({ k.wake now with nextReadId := next }).proposeRequest src reqId client seq op) :
    k.Commanded who (.request now src reqId client seq op) := by
  have awake : { k.wake now with nextReadId := next }.inFlight client seq = k.inFlight client seq := rfl
  have node : { k.wake now with nextReadId := next }.toNode = k.server.wake now := rfl
  unfold proposeRequest at last
  rw [awake, node] at last
  split at last
  · next index w found =>
    refine commanded_of_quiet (last ▸ unread) fun r sent => ?_
    rw [last] at sent
    cases sent
  · next alone =>
    split at last
    · next index n put =>
      exact (Leaves.proposed now src reqId client seq next index op n leads fresh alone put).commanded last unread
    · next n put =>
      refine (Leaves.refused now src reqId client seq next op n leads fresh alone put).commanded last ?_
      rw [reply_waitingReads]
      exact unread

theorem handle_commanded (logged : k.cfg.readMode = .log) (unread : k.waitingReads = ∅) : k.Commanded who event := by
  cases event with
  | restart now wal a b =>
    refine commanded_of_quiet ?_ fun r sent => recover_replies wal a b who.id who.members who.cfg _ sent
    exact adoptSnapshot_waitingReads _
  | message now src msg => exact (Leaves.message now src msg).commanded rfl unread
  | timer now tag => exact (Leaves.timer now tag).commanded rfl unread
  | storage now op ok => exact (Leaves.storage now op ok).commanded rfl unread
  | membership now members => exact commanded_of_quiet unread (List.forall_mem_nil _)
  | request now src reqId client seq op =>
    have last : k.handle who (.request now src reqId client seq op) = (k.wake now).onRequest src reqId client seq op := rfl
    revert last
    have cache : (k.wake now).sm.cached client seq = k.sm.cached client seq := rfl
    unfold onRequest
    rw [cache]
    split
    · intro last
      refine commanded_of_quiet ?_ fun r sent => ?_
      · rw [last, reply_waitingReads]
        exact unread
      · rw [last] at sent
        obtain old | answer := mem_reply sent
        · cases old
        · rw [answer]
          exact not_false
    · next leads =>
      have leads : k.role = .leader := not_not.mp leads
      split
      · next outcome cached =>
        refine fun last => ⟨?_, fun r sent definite => ?_⟩
        · rw [last, reply_waitingReads]
          exact unread
        · rw [last] at sent
          obtain old | answer := mem_reply sent
          · cases old
          · subst answer
            exact ⟨_, client, seq, .remembered now src reqId client seq op outcome cached last, rfl⟩
      · next fresh =>
        split
        · next key =>
          -- the read is refused and goes through the log
          have refused : ((k.wake now).requestRead (k.wake now).nextReadId).1 = false := by
            have other : (k.wake now).cfg.readMode ≠ .readIndex := by
              change k.cfg.readMode ≠ .readIndex
              rw [logged]
              nofun
            rw [Node.requestRead, if_pos (.inl other)]
          have same := Node.requestRead_refused refused
          simp only [refused, same, Bool.false_eq_true, if_false]
          exact commanded_of_proposal leads fresh unread
        · exact @commanded_of_proposal who k now src reqId client seq k.nextReadId op leads fresh unread

-- A command is answered as it was at its first place, unless a later one of its client stands in front.
theorem Sends.place {route : Route} {client seq : Nat} {asked : List Request} (sends : k.Sends who event r route)
    (command : route.command = some (client, seq)) (follows : k.Follows committed k.sm)
    (settled : k.pendingRestore = none) (genuine : event.Genuine committed)
    (calm : (k.handle who event).panicked = false) (agrees : (k.handle who event).Agrees committed)
    (vouched : RequestHistory.Vouched k asked) :
    RequestHistory.Asks (asked ++ event.asks) r.dst r.reqId client seq ∧ ∃ index ≤ (k.handle who event).lastApplied,
      (FirstEffect committed client seq index ∧ r.outcome = answerAt committed index) ∨
        Overtaken committed client seq index := by
  cases sends with
  | read => cases command
  | remembered now src reqId _ _ op outcome cached last =>
    cases command
    have synced := follows.synced
    unfold Raft.InStep at synced
    rw [settled] at synced
    rw [synced] at cached
    obtain ⟨first, short, effect, outcome⟩ := cached_first cached
    refine ⟨RequestHistory.asks_now asked now src reqId client seq op, first, ?_, .inl ⟨effect, outcome⟩⟩
    rw [last, reply_toNode]
    exact short
  | applied _ p front e w _ leaves last sent =>
    cases command
    obtain ⟨drains, machine⟩ := leaves.drains
    rw [last] at calm
    rw [last] at agrees ⊢
    rw [drain_toNode] at calm agrees
    have later := (drains.follows (panicked_of_drain calm) follows genuine).1
    rw [← machine] at later
    obtain ⟨issued, outcome, short⟩ := sent.issued later (agrees_of_drain agrees)
    rw [drain_toNode, drain_lastApplied]
    refine ⟨?_, ?_⟩
    · have asks := vouched.leaves leaves e.index w sent.waited
      rw [sent.answer]
      exact asks
    · by_cases late : Overtaken committed w.client w.seq e.index
      · exact ⟨e.index, short, .inr late⟩
      · obtain ⟨first, before, effect, same⟩ := answerAt_first issued late
        exact ⟨first, before.trans short, .inl ⟨effect, outcome.trans same⟩⟩

end KvServer

namespace Service

def Resolves (setup : Setup) (g : State NodeId Entry) (committed : Nat → Entry) (S : Service ι G) (q : Request)
    (outcome : Outcome) : Prop :=
  (∃ first, Placed setup g first ∧ FirstEffect committed q.client q.seq first ∧ outcome = answerAt committed first) ∨
    ∃ later, S.Asked later ∧ later.client = q.client ∧ q.seq < later.seq

structure Serves (setup : Setup) (g : State NodeId Entry) (committed : Nat → Entry) (S : Service ι G) : Prop where
  machine : ∀ id, (S.host id).Follows committed (S.host id).sm
  settled : ∀ id, (S.host id).pendingRestore = none
  unread : ∀ id, (S.host id).waitingReads = ∅
  vouched : ∀ id, ∃ asked, RequestHistory.Vouched (S.host id).toKvServer asked ∧ ∀ q ∈ asked, S.Asked q
  replies : ∀ r ∈ S.replies, r.outcome.Definite →
    ∃ q, S.Asked q ∧ q.src = r.dst ∧ q.reqId = r.reqId ∧ Resolves setup g committed S q r.outcome

variable {event : KvEvent}

theorem Resolves.mono {q : Request} {outcome : Outcome} (resolves : Resolves setup g committed S q outcome)
    (grows : Grows g g') : Resolves setup g' committed S q outcome :=
  resolves.imp_left fun ⟨first, placed, facts⟩ => ⟨first, placed.mono grows, facts⟩

theorem Serves.start {crew : Harness.System ι G} (committed : Nat → Entry)
    (g : State NodeId Entry) : (start setup crew).Serves setup g committed := by
  have follows := fun id => @KvServer.recover_follows committed (KvCluster.identity setup id) 0 [] [] [] {} nofun
  refine ⟨fun id => (follows id).1, fun id => (follows id).2, fun id => ?_, fun id => ⟨[], ?_, List.forall_mem_nil _⟩,
    List.forall_mem_nil _⟩
  · exact KvServer.adoptSnapshot_waitingReads _
  · intro index w waits
    have none := KvServer.releases_adoptSnapshot _ index w waits
    cases none

-- No server is sent a snapshot, or finds one.
theorem Holds.genuine (holds : S.Holds setup c g) (committed : Nat → Entry) (reaches : S.Reaches id event) :
    event.Genuine committed := by
  cases event with
  | message now src msg =>
    obtain ⟨q, here, rfl, -, rfl⟩ := holds.backed.net _ reaches
    have tells := holds.safety.net q here
    cases carried : q.msg with
    | installSnapshot => rw [carried] at tells; exact tells.elim
    | _ => trivial
  | restart now wal a b =>
    intro snap found
    rw [reaches.1] at found
    cases found
  | _ => trivial

theorem Serves.server (serves : S.Serves setup g committed) (holds : S.Holds setup c g)
    (holds' : (S.settle id event (S.react setup id event)).Holds setup c' g')
    (compatible : Compatible setup g' committed) (grows : Grows g g') (logged : (setup.cfg id).readMode = .log)
    (reaches : S.Reaches id event) (calm : (S.react setup id event).panicked = false) :
    (S.settle id event (S.react setup id event)).Serves setup g' committed := by
  have genuine := holds.genuine committed reaches
  have host : (S.settle id event (S.react setup id event)).host id =
      (S.host id).settle event (S.react setup id event) := Function.update_self ..
  have raft : (c'.host id).raft = (S.react setup id event).toRaft := by
    have backed := (holds'.backed.hosts id).raft
    rwa [host] at backed
  have agrees : (S.react setup id event).Agrees committed := raft ▸ holds'.safety.agrees compatible id
  have logged : (S.host id).cfg.readMode = .log := by
    have cfg := (holds.safety.logs id).cfg
    rw [(holds.backed.hosts id).raft] at cfg
    rw [cfg, logged]
  obtain ⟨follows, settled⟩ :=
    KvServer.handle_follows (serves.machine id) (serves.settled id) genuine calm agrees
  obtain ⟨unread, sends⟩ : (S.host id).Commanded (KvCluster.identity setup id) event :=
    KvServer.handle_commanded logged (serves.unread id)
  obtain ⟨asked, vouched, known⟩ := serves.vouched id
  have known' : ∀ q ∈ asked ++ event.asks, S.Asked q := by
    intro q member
    rcases List.mem_append.mp member with old | new
    · exact known q old
    · cases event with
      | request now src reqId client seq op =>
        rw [List.mem_singleton.mp new]
        exact Asks.asked reaches
      | _ => cases new
  refine ⟨forall_settle (fun h => h.Follows committed h.sm) follows serves.machine,
    forall_settle (fun h => h.pendingRestore = none) settled serves.settled,
    forall_settle (fun h => h.waitingReads = ∅) unread serves.unread,
    forall_settle (fun h => ∃ asked, RequestHistory.Vouched h.toKvServer asked ∧ ∀ q ∈ asked, S.Asked q)
      ⟨_, vouched.handle, known'⟩ serves.vouched, ?_⟩
  intro r sent definite
  rcases List.mem_append.mp sent with old | new
  · obtain ⟨q, asked, src, reqId, resolves⟩ := serves.replies r old definite
    exact ⟨q, asked, src, reqId, resolves.mono grows⟩
  · obtain ⟨route, client, seq, sends, command⟩ := sends r new definite
    obtain ⟨⟨q, listed, src, reqId, rfl, rfl⟩, index, short, answer⟩ :=
      sends.place command (serves.machine id) (serves.settled id) genuine calm agrees vouched
    refine ⟨q, known' q listed, src, reqId, ?_⟩
    -- what is applied is committed, and has its place
    have applied : (c'.host id).raft.lastApplied ≤ (c'.host id).raft.commitIndex := (holds'.safety.keeping id).place.applied
    rw [raft] at applied
    have placed : ∀ i, 1 ≤ i → i ≤ index → Placed setup g' i := by
      intro i positive before
      have within : i ≤ (c'.host id).raft.commitIndex := raft ▸ before.trans (short.trans applied)
      exact holds'.safety.placed positive within
    rcases answer with ⟨effect, outcome⟩ | ⟨later, positive, before, fromClient, client, ahead⟩
    · exact .inl ⟨index, placed index effect.issued.1 le_rfl, effect, outcome⟩
    · obtain ⟨q', asked', same⟩ := holds'.asked_at compatible (placed later positive before.le) fromClient
      rw [same] at client ahead
      exact .inr ⟨q', asked', client, ahead⟩

theorem Serves.client [DecidableEq ι] {source : Harness.RandomSource G} {i : ι} {now : Nanos} {told : Harness.ClientEvent}
    (serves : S.Serves setup g committed) (manned : S.crew.Manned) :
    Serves setup g committed { S with crew := S.crew.step source i now told } where
  machine := serves.machine
  settled := serves.settled
  unread := serves.unread
  vouched id := by
    obtain ⟨asked, vouched, known⟩ := serves.vouched id
    exact ⟨asked, vouched, fun q member => (known q member).step manned⟩
  replies r sent definite := by
    obtain ⟨q, asked, src, reqId, resolves⟩ := serves.replies r sent definite
    exact ⟨q, asked.step manned, src, reqId, resolves.imp_right fun ⟨later, asked', facts⟩ =>
      ⟨later, asked'.step manned, facts⟩⟩

end Service

end SimKv
