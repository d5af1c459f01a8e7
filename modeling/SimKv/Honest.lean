import SimKv.Workload

set_option autoImplicit false

/-!
# Honest histories

Whatever reaches the clients and whenever it does, an event settles the operation in flight or not, and then sends
one attempt or none. What the history says about an operation follows from these two moves.
-/

namespace SimKv.Harness

open Std

structure Request where
  reqId : Nat
  client : Nat
  seq : Nat
  op : Op
  deriving DecidableEq, Repr

def ClientEffect.request? : ClientEffect → Option Request
  | .send _ (.request reqId client seq op) => some { reqId, client, seq, op }
  | _ => none

def ClientIo.requests (io : ClientIo) : List Request := io.effects.filterMap ClientEffect.request?

structure Trial where
  historyId : Nat
  seq : Nat
  reqId : Nat
  op : Op
  deriving DecidableEq, Repr

def InFlight.trial (f : InFlight) : Trial := { historyId := f.historyId, seq := f.seq, reqId := f.reqId, op := f.op }

structure Standing where
  id : Nat
  seq : Nat
  nextReqId : Nat
  nextHistoryId : Nat
  trial : Option Trial
  requests : List Request
  panicked : Bool
  deriving DecidableEq, Repr

def standing {G : Type} (c : Client G) (io : ClientIo) : Standing :=
  { id := c.id
    seq := c.seq
    nextReqId := c.nextReqId
    nextHistoryId := c.nextHistoryId
    trial := c.inflight.map InFlight.trial
    requests := io.requests
    panicked := io.panicked }

def Standing.tries (s : Standing) (t : Trial) : Standing :=
  { s with
    nextReqId := s.nextReqId + 1
    trial := some { t with reqId := s.nextReqId + 1 }
    requests := s.requests ++ [{ reqId := s.nextReqId + 1, client := s.id, seq := t.seq, op := t.op }] }

def Standing.starts (s : Standing) (op : Op) : Standing :=
  { s with seq := s.seq + 1, nextHistoryId := s.nextHistoryId + 1 }.tries
    { historyId := s.nextHistoryId, seq := s.seq + 1, reqId := 0, op }

def Standing.operation (s : Standing) (op : Op) (now : Nanos) : Operation :=
  { id := operationId s.id s.nextHistoryId, client := s.id, op, invoked := now, completed := none, outcome := none }

/-- A definite answer to the latest attempt of what is in flight. -/
structure Answers (event : ClientEvent) (t : Trial) (outcome : Outcome) : Prop where
  reads : ∃ bytes, event = .bytes bytes ∧ Message.decode bytes = .ok (.client (.reply t.reqId outcome))
  definite : outcome.Definite

/-- An event ends the operation in flight, or leaves it. -/
inductive Settles (now : Nanos) (event : ClientEvent) :
    Standing → Recording → Standing → Recording → Prop where
  | stay (s : Standing) (h : Recording) : Settles now event s h s h
  | abandon (s : Standing) (h : Recording) : Settles now event s h { s with trial := none } h
  | complete (s : Standing) (h : Recording) {t : Trial} {outcome : Outcome} (busy : s.trial = some t)
      (answers : Answers event t outcome) :
      Settles now event s h
        { s with
          trial := none
          panicked := s.panicked || !(h.complete (operationId s.id t.historyId) now outcome).1 }
        (h.complete (operationId s.id t.historyId) now outcome).2

/-- Then it sends an attempt of the same operation, or of the next one, or nothing. -/
inductive Sends (now : Nanos) : Standing → Recording → Standing → Recording → Prop where
  | silent (s : Standing) (h : Recording) : Sends now s h s h
  | attempt (s : Standing) (h : Recording) {t : Trial} (busy : s.trial = some t) : Sends now s h (s.tries t) h
  | begin (s : Standing) (h : Recording) (op : Op) (idle : s.trial = none) :
      Sends now s h (s.starts op) (h.push (s.operation op now))

section Acting

variable {G : Type} {source : RandomSource G} {now : Nanos} {a : Acting G}

def Acting.standing (a : Acting G) : Standing := Harness.standing a.client a.io

def Acting.Onward (now : Nanos) (a b : Acting G) : Prop := Sends now a.standing a.history b.standing b.history

theorem requests_append (io : ClientIo) (effects : List ClientEffect) :
    ({ io with effects := io.effects ++ effects } : ClientIo).requests =
      io.requests ++ effects.filterMap ClientEffect.request? := List.filterMap_append

@[simp] theorem ClientIo.setTimer_requests (io : ClientIo) (delay tag : Nat) :
    (io.setTimer delay tag).2.requests = io.requests :=
  (requests_append { io with nextTimer := io.nextTimer + 1 } _).trans (List.append_nil _)

@[simp] theorem ClientIo.setTimer_panicked (io : ClientIo) (delay tag : Nat) :
    (io.setTimer delay tag).2.panicked = io.panicked := rfl

@[simp] theorem ClientIo.cancelTimer_requests (io : ClientIo) (handle : Nat) :
    (io.cancelTimer handle).requests = io.requests := (requests_append io _).trans (List.append_nil _)

@[simp] theorem ClientIo.cancelTimer_panicked (io : ClientIo) (handle : Nat) :
    (io.cancelTimer handle).panicked = io.panicked := rfl

@[simp] theorem ClientIo.send_requests (io : ClientIo) (dst : NodeId) (reqId client seq : Nat) (op : Op) :
    (io.send dst (.request reqId client seq op)).requests = io.requests ++ [Request.mk reqId client seq op] :=
  requests_append io _

@[simp] theorem ClientIo.send_panicked (io : ClientIo) (dst : NodeId) (msg : ClientMsg) :
    (io.send dst msg).panicked = io.panicked := rfl

theorem Acting.attempt_standing {f : InFlight} (busy : a.client.inflight = some f) :
    a.attempt.standing = a.standing.tries f.trial := by
  simp [attempt, busy, standing, Harness.standing, Standing.tries, InFlight.trial]

theorem Acting.attempt_history (a : Acting G) : a.attempt.history = a.history := by
  rw [attempt]
  split <;> rfl

theorem Acting.attempt_onward (now : Nanos) (a : Acting G) : a.Onward now a.attempt := by
  cases busy : a.client.inflight with
  | none =>
    rw [attempt, busy]
    exact .silent _ _
  | some f =>
    rw [Onward, attempt_standing busy, attempt_history]
    exact .attempt _ _ (congrArg (Option.map InFlight.trial) busy)

theorem Client.pickOp_snd (source : RandomSource G) (c : Client G) : ∃ rng, (c.pickOp source).2 = { c with rng } := by
  refine ⟨(source.below (source.below c.rng c.cfg.keys).2
    (max (c.cfg.readWeight + c.cfg.writeWeight + c.cfg.casWeight + c.cfg.deleteWeight) 1)).2, ?_⟩
  simp only [pickOp]
  split
  · rfl
  split
  · rfl
  split <;> rfl

theorem Acting.begin_onward (source : RandomSource G) (now : Nanos) (a : Acting G) : a.Onward now (a.begin source now) := by
  rw [begin]
  split
  · exact .silent _ _
  · next free =>
    obtain ⟨-, idle⟩ := not_or.mp free
    have idle : a.client.inflight = none := Option.not_isSome_iff_eq_none.mp idle
    obtain ⟨rng, picked⟩ := Client.pickOp_snd source { a.client with backingOff := false }
    -- the operation is recorded, and then sent like any other
    generalize { a.client with backingOff := false }.pickOp source = choice at picked ⊢
    obtain ⟨op, c⟩ := choice
    obtain rfl : c = { a.client with backingOff := false, rng } := picked
    rw [Onward, attempt_history, attempt_standing rfl]
    exact .begin _ _ op (congrArg (Option.map InFlight.trial) idle)

theorem Acting.think_onward (source : RandomSource G) (now : Nanos) (a : Acting G) : a.Onward now (a.think source now) := by
  rw [think]
  split
  · exact .silent _ _
  · generalize source.range a.client.rng a.client.cfg.thinkTime.1 a.client.cfg.thinkTime.2 = drawn
    obtain ⟨delay, rng⟩ := drawn
    simp only
    split
    · exact begin_onward source now { a with client := { a.client with rng } }
    · have quiet : Acting.standing { a with
          client := { a.client with rng }
          io := (a.io.setTimer delay timerThink).2 } = a.standing := by
        simp [standing, Harness.standing]
      rw [Onward, quiet]
      exact .silent _ _

def Acting.Event (now : Nanos) (event : ClientEvent) (a b : Acting G) : Prop :=
  ∃ s h, Settles now event a.standing a.history s h ∧ Sends now s h b.standing b.history

theorem Acting.Onward.event {event : ClientEvent} {b : Acting G} (onward : a.Onward now b) : a.Event now event b :=
  ⟨_, _, .stay _ _, onward⟩

theorem Acting.disarm_standing (a : Acting G) (f : InFlight) : (a.disarm f).standing = a.standing := by
  rw [disarm]
  split
  · rfl
  · simp [standing, Harness.standing]

theorem Acting.disarm_client (a : Acting G) (f : InFlight) : (a.disarm f).client = a.client := by
  rw [disarm]
  split <;> rfl

theorem Acting.disarm_history (a : Acting G) (f : InFlight) : (a.disarm f).history = a.history := by
  rw [disarm]
  split <;> rfl

variable {event : ClientEvent}

theorem Acting.retry_event (delay : Nat) : a.Event now event (a.retry source now delay) := by
  rw [retry]
  split
  · exact Onward.event (.silent _ _)
  · next f busy =>
    have held : Acting.standing { a.disarm f with
        client := { (a.disarm f).client with inflight := some { f with timer := none } } } = a.standing := by
      rw [← disarm_standing a f, standing, standing, Harness.standing, Harness.standing, disarm_client, busy]
      rfl
    simp only
    split
    · refine ⟨_, _, .abandon _ _, ?_⟩
      rw [← disarm_standing a f, ← disarm_history a f]
      exact think_onward source now { a.disarm f with client := { (a.disarm f).client with inflight := none } }
    split
    · have onward := attempt_onward now { a.disarm f with
        client := { (a.disarm f).client with inflight := some { f with timer := none } } }
      rw [Onward, held, show Acting.history { a.disarm f with client := _ } = _ from disarm_history a f] at onward
      exact Onward.event onward
    · have quiet : Acting.standing { a.disarm f with
          client := { (a.disarm f).client with inflight := some { f with timer := none }, backingOff := true }
          io := ((a.disarm f).io.setTimer delay timerRetry).2 } = a.standing := by
        rw [← held]
        simp [standing, Harness.standing]
      refine Onward.event ?_
      rw [Onward, quiet, show Acting.history { a.disarm f with client := _, io := _ } = _ from disarm_history a f]
      exact .silent _ _

theorem Client.remember_eq (c : Client G) (op : Op) (outcome : Outcome) :
    ∃ known, c.remember op outcome = { c with known } := by
  unfold remember
  split <;> exact ⟨_, rfl⟩

theorem Acting.finish_event {f : InFlight} {outcome : Outcome} (busy : a.client.inflight = some f)
    (answers : Answers event f.trial outcome) : a.Event now event (a.finish source now outcome) := by
  rw [finish, busy]
  refine ⟨_, _, .complete _ _ (congrArg (Option.map InFlight.trial) busy) answers, ?_⟩
  simp only [disarm_client, disarm_history]
  obtain ⟨known, remembered⟩ := Client.remember_eq
    { a.client with inflight := none, backingOff := false } f.op outcome
  rw [remembered]
  have quiet := disarm_standing { a with client := { a.client with inflight := none, backingOff := false } } f
  generalize disarm { a with client := { a.client with inflight := none, backingOff := false } } f = b at quiet ⊢
  have requests : b.io.requests = a.io.requests := congrArg Standing.requests quiet
  have panicked : b.io.panicked = a.io.panicked := congrArg Standing.panicked quiet
  have ended : Acting.standing {
        client := { a.client with inflight := none, backingOff := false, known }
        io := { b.io with
          panicked := b.io.panicked || !(a.history.complete (operationId a.client.id f.historyId) now outcome).1 }
        history := (a.history.complete (operationId a.client.id f.historyId) now outcome).2 } =
      { a.standing with
        trial := none
        panicked := a.standing.panicked ||
          !(a.history.complete (operationId a.client.id f.historyId) now outcome).1 } := by
    rw [panicked]
    exact congrArg (fun sent => Standing.mk _ _ _ _ _ sent _) requests
  have onward := think_onward source now {
    client := { a.client with inflight := none, backingOff := false, known }
    io := { b.io with
      panicked := b.io.panicked || !(a.history.complete (operationId a.client.id f.historyId) now outcome).1 }
    history := (a.history.complete (operationId a.client.id f.historyId) now outcome).2 }
  rw [Onward, ended] at onward
  exact onward

theorem Client.rotateTarget_eq (source : RandomSource G) (c : Client G) :
    ∃ target rng, c.rotateTarget source = { c with target, rng } := by
  rw [rotateTarget]
  split
  · exact ⟨_, _, rfl⟩
  · exact ⟨c.target, c.rng, rfl⟩

theorem Acting.redirect_eq (source : RandomSource G) (a : Acting G) (outcome : Outcome) :
    ∃ target rng, a.redirect source outcome = { a with client := { a.client with target, rng } } := by
  unfold redirect
  split
  · split
    · exact ⟨_, a.client.rng, rfl⟩
    · exact ⟨a.client.target, a.client.rng, rfl⟩
  · obtain ⟨target, rng, rotated⟩ := Client.rotateTarget_eq source a.client
    exact ⟨target, rng, by rw [rotated]⟩

theorem Acting.onBytes_event {bytes : Bytes} : a.Event now (.bytes bytes) (a.onBytes source now bytes) := by
  rw [onBytes]
  split
  · next reqId outcome reads =>
    split
    · exact Onward.event (.silent _ _)
    · next f busy =>
      split
      · exact Onward.event (.silent _ _)
      · next latest =>
        split
        · next definite =>
          exact finish_event busy ⟨⟨bytes, rfl, by rw [reads, ← not_not.mp latest]; rfl⟩, definite⟩
        · obtain ⟨target, rng, redirected⟩ := redirect_eq source a outcome
          rw [redirected]
          exact retry_event (a := { a with client := { a.client with target, rng := _ } }) _
  · exact Onward.event (.silent _ _)

theorem Acting.onTimer_event {tag : Nat} : a.Event now event (a.onTimer source now tag) := by
  rw [onTimer]
  split
  · split
    · obtain ⟨target, rng, rotated⟩ := Client.rotateTarget_eq source a.client
      rw [rotated]
      exact retry_event (a := { a with client := { a.client with target, rng } }) 0
    · exact Onward.event (.silent _ _)
  split
  · split
    · exact Onward.event (attempt_onward now { a with client := { a.client with backingOff := false } })
    · exact Onward.event (.silent _ _)
  split
  · exact (begin_onward source now a).event
  · exact Onward.event (.silent _ _)

theorem Acting.handle_event (event : ClientEvent) : a.Event now event (a.handle source now event) := by
  cases event with
  | bytes bytes => exact onBytes_event
  | timer tag => exact onTimer_event
  | stop | resume => exact Onward.event (.silent _ _)

end Acting

-- They are counted in 64 bits, and do not run out: an operation is tried at most once more often than configured.

section Metered

variable {G : Type} {source : RandomSource G} {now : Nanos} {a : Acting G}

structure Client.Metered (c : Client G) : Prop where
  resting : c.backingOff = true → ∀ f ∈ c.inflight, f.attempts ≤ c.cfg.maxAttempts
  tried : ∀ f ∈ c.inflight, f.attempts ≤ c.cfg.maxAttempts + 1 ∧
    c.nextReqId + (c.cfg.maxAttempts + 1) ≤ 1 + c.seq * (c.cfg.maxAttempts + 1) + f.attempts
  within : c.nextReqId ≤ 1 + c.seq * (c.cfg.maxAttempts + 1)

def Client.Spare (c : Client G) : Prop :=
  ∀ f ∈ c.inflight, f.attempts ≤ c.cfg.maxAttempts ∧ (c.backingOff = true → f.attempts < c.cfg.maxAttempts)

theorem Client.Metered.idle {c : Client G} (metered : c.Metered) : Client.Metered { c with inflight := none } where
  resting := by simp
  tried := by simp
  within := metered.within

theorem Acting.attempt_metered (metered : a.client.Metered) (spare : a.client.Spare) : a.attempt.client.Metered := by
  rw [attempt]
  split
  · exact metered
  · next f busy =>
    obtain ⟨once, backOff⟩ := spare f busy
    obtain ⟨-, spent⟩ := metered.tried f busy
    refine ⟨?_, ?_, ?_⟩
    · rintro resting _ ⟨⟩
      exact backOff resting
    · rintro _ ⟨⟩
      simp only
      omega
    · simp only
      omega

theorem Acting.begin_metered (metered : a.client.Metered) : (a.begin source now).client.Metered := by
  rw [begin]
  split
  · exact metered
  · obtain ⟨rng, picked⟩ := Client.pickOp_snd source { a.client with backingOff := false }
    generalize { a.client with backingOff := false }.pickOp source = choice at picked ⊢
    obtain ⟨op, c⟩ := choice
    obtain rfl : c = { a.client with backingOff := false, rng } := picked
    have within := metered.within
    refine attempt_metered ⟨by simp, ?_, ?_⟩ ?_
    · rintro _ ⟨⟩
      simp only [Nat.succ_mul]
      omega
    · simp only [Nat.succ_mul]
      omega
    · rintro _ ⟨⟩
      exact ⟨Nat.zero_le _, by simp⟩

theorem Acting.think_metered (metered : a.client.Metered) : (a.think source now).client.Metered := by
  rw [think]
  split
  · exact metered
  · generalize source.range a.client.rng a.client.cfg.thinkTime.1 a.client.cfg.thinkTime.2 = drawn
    obtain ⟨delay, rng⟩ := drawn
    have metered : Client.Metered { a.client with rng } := ⟨metered.resting, metered.tried, metered.within⟩
    simp only
    split
    · exact begin_metered (a := { a with client := { a.client with rng } }) metered
    · exact metered

theorem Acting.retry_metered {delay : Nat} (metered : a.client.Metered) :
    (a.retry source now delay).client.Metered := by
  rw [retry]
  split
  · exact metered
  · next f busy =>
    have metered : Client.Metered { (a.disarm f).client with inflight := some { f with timer := none } } := by
      rw [disarm_client]
      refine ⟨?_, ?_, metered.within⟩
      · rintro resting _ ⟨⟩
        exact metered.resting resting f busy
      · rintro _ ⟨⟩
        exact metered.tried f busy
    simp only
    split
    · exact think_metered metered.idle
    · next left =>
      have less : f.attempts < (a.disarm f).client.cfg.maxAttempts := Nat.not_le.mp left
      split
      · refine attempt_metered metered ?_
        rintro _ ⟨⟩
        exact ⟨less.le, fun _ => less⟩
      · refine ⟨?_, metered.tried, metered.within⟩
        rintro - _ ⟨⟩
        exact less.le

theorem Acting.finish_metered {outcome : Outcome} (metered : a.client.Metered) :
    (a.finish source now outcome).client.Metered := by
  rw [finish]
  split
  · exact metered
  · next f busy =>
    refine think_metered ?_
    simp only [disarm_client]
    obtain ⟨known, remembered⟩ := Client.remember_eq
      { a.client with inflight := none, backingOff := false } f.op outcome
    rw [remembered]
    exact ⟨by simp, by simp, metered.within⟩

theorem Acting.handle_metered (event : ClientEvent) (metered : a.client.Metered) :
    (a.handle source now event).client.Metered := by
  cases event with
  | bytes bytes =>
    rw [handle, onBytes]
    split
    · next reqId outcome reads =>
      split
      · exact metered
      split
      · exact metered
      split
      · exact finish_metered metered
      · obtain ⟨target, rng, redirected⟩ := redirect_eq source a outcome
        rw [redirected]
        exact retry_metered ⟨metered.resting, metered.tried, metered.within⟩
    · exact metered
  | timer tag =>
    rw [handle, onTimer]
    split
    · split
      · obtain ⟨target, rng, rotated⟩ := Client.rotateTarget_eq source a.client
        rw [rotated]
        exact retry_metered ⟨metered.resting, metered.tried, metered.within⟩
      · exact metered
    split
    · split
      · next waiting =>
        refine attempt_metered ⟨by simp, metered.tried, metered.within⟩ fun f busy => ?_
        exact ⟨metered.resting waiting.1 f busy, by simp⟩
      · exact metered
    split
    · exact begin_metered metered
    · exact metered
  | stop | resume => exact ⟨metered.resting, metered.tried, metered.within⟩

end Metered

theorem operationId_inj {a b n m : Nat} (left : n < 2 ^ 32) (right : m < 2 ^ 32)
    (same : operationId a n = operationId b m) : a = b ∧ n = m := by
  rw [operationId, operationId, ← Nat.shiftLeft_add_eq_or_of_lt left, ← Nat.shiftLeft_add_eq_or_of_lt right,
    Nat.shiftLeft_eq, Nat.shiftLeft_eq] at same
  omega

/-- What a client takes itself to have done is in the history. -/
structure Standing.Fits (s : Standing) (ops : List Operation) : Prop where
  numbered : s.nextHistoryId = s.seq + 1
  latest : ∀ t ∈ s.trial, t.historyId = s.seq ∧ t.seq = s.seq ∧ t.reqId = s.nextReqId ∧
    s.requests.getLast? = some { reqId := t.reqId, client := s.id, seq := t.seq, op := t.op }
  awaited : ∀ t ∈ s.trial, ∃ o ∈ ops, o.id = operationId s.id t.historyId ∧ o.client = s.id ∧ o.op = t.op ∧
    o.outcome = none
  increasing : s.requests.Pairwise fun r r' => r.reqId < r'.reqId
  used : ∀ r ∈ s.requests, r.reqId ≤ s.nextReqId
  listed : ∀ r ∈ s.requests, r.client = s.id ∧
    ∃ o ∈ ops, o.id = operationId s.id r.seq ∧ o.client = s.id ∧ o.op = r.op
  calm : s.panicked = false

variable {ι : Type}

structure Keeps (now : Nanos) (crew : ι → Standing) (h : Recording) : Prop where
  fits : ∀ i, (crew i).Fits h.ops
  own : ∀ o ∈ h.ops, ∃ i n, o.client = (crew i).id ∧ o.id = operationId (crew i).id n ∧ n ≤ (crew i).seq
  indexed : h.Indexed
  begun : ∀ o ∈ h.ops, o.invoked ≤ now
  ordered : ∀ o ∈ h.ops, ∀ t ∈ o.completed, o.invoked ≤ t
  agree : ∀ o ∈ h.ops, o.completed.isSome = o.outcome.isSome

def Few (crew : ι → Standing) : Prop := ∀ i, (crew i).seq < 2 ^ 32

def Closed (crew : ι → Standing) (o : Operation) : Prop :=
  o.outcome ≠ none ∨ ∀ i, ∀ t ∈ (crew i).trial, o.id ≠ operationId (crew i).id t.historyId

def Changed (now : Nanos) (event : ClientEvent) (s : Standing) (o : Operation) (found : Option Operation) : Prop :=
  found = some o ∨ ∃ t ∈ s.trial, ∃ outcome, Answers event t outcome ∧ o.id = operationId s.id t.historyId ∧
    o.outcome = none ∧ found = some (o.answered now outcome)

section Crew

variable {now : Nanos} {event : ClientEvent} {crew : ι → Standing} {h h' : Recording} {s s' : Standing} {i : ι}

theorem Keeps.sane (keeps : Keeps now crew h) : h.Sane := ⟨keeps.indexed.distinct, keeps.ordered, keeps.agree⟩

theorem Keeps.later {now' : Nanos} (keeps : Keeps now crew h) (le : now ≤ now') : Keeps now' crew h :=
  { keeps with begun := fun o here => UInt64.le_trans (keeps.begun o here) le }

-- The history may grow and be answered, as long as what is waited for stays open.
theorem Standing.Fits.carry {ops ops' : List Operation} (fits : s.Fits ops)
    (carried : ∀ o ∈ ops, ∃ o' ∈ ops', o'.id = o.id ∧ o'.client = o.client ∧ o'.op = o.op)
    (open_ : ∀ t ∈ s.trial, ∀ o ∈ ops, o.id = operationId s.id t.historyId → o ∈ ops') : s.Fits ops' where
  numbered := fits.numbered
  latest := fits.latest
  awaited := by
    intro t busy
    obtain ⟨o, here, id, facts⟩ := fits.awaited t busy
    exact ⟨o, open_ t busy o here id, id, facts⟩
  increasing := fits.increasing
  used := fits.used
  listed := by
    intro r sent
    obtain ⟨client, o, here, id, who, what⟩ := fits.listed r sent
    obtain ⟨o', there, id', who', what'⟩ := carried o here
    exact ⟨client, o', there, id'.trans id, who'.trans who, what'.trans what⟩
  calm := fits.calm

theorem Standing.Fits.push {ops : List Operation} (fits : s.Fits ops) (o : Operation) : s.Fits (ops ++ [o]) :=
  fits.carry (fun p here => ⟨p, List.mem_append_left _ here, rfl, rfl, rfl⟩)
    fun _ _ _ here _ => List.mem_append_left _ here

-- Giving up.
theorem Standing.Fits.idle {ops : List Operation} (fits : s.Fits ops) : Standing.Fits { s with trial := none } ops where
  numbered := fits.numbered
  latest := by simp
  awaited := by simp
  increasing := fits.increasing
  used := fits.used
  listed := fits.listed
  calm := fits.calm

theorem Standing.Fits.tries {ops : List Operation} {t : Trial} (fits : s.Fits ops)
    (numbered : t.historyId = s.seq ∧ t.seq = s.seq)
    (awaited : ∃ o ∈ ops, o.id = operationId s.id t.historyId ∧ o.client = s.id ∧ o.op = t.op ∧ o.outcome = none) :
    (s.tries t).Fits ops where
  numbered := fits.numbered
  latest := by
    rintro _ ⟨⟩
    exact ⟨numbered.1, numbered.2, rfl, List.getLast?_concat⟩
  awaited := by
    rintro _ ⟨⟩
    exact awaited
  increasing := by
    refine List.pairwise_append.mpr ⟨fits.increasing, List.pairwise_singleton _ _, ?_⟩
    intro r sent r' last
    rw [List.mem_singleton.mp last]
    exact Nat.lt_succ_of_le (fits.used r sent)
  used := by
    intro r sent
    obtain before | last := List.mem_append.mp sent
    · exact Nat.le_succ_of_le (fits.used r before)
    · rw [List.mem_singleton.mp last]
      exact Nat.le_refl _
  listed := by
    intro r sent
    obtain before | last := List.mem_append.mp sent
    · exact fits.listed r before
    · obtain ⟨o, here, id, who, what, -⟩ := awaited
      rw [List.mem_singleton.mp last]
      exact ⟨rfl, o, here, id.trans (congrArg _ (numbered.1.trans numbered.2.symm)), who, what⟩
  calm := fits.calm

variable [DecidableEq ι]

-- One client moves on.
theorem Keeps.update (keeps : Keeps now crew h) (s' : Standing) (named : s'.id = (crew i).id) (further : (crew i).seq ≤ s'.seq)
    (fits : s'.Fits h.ops) : Keeps now (Function.update crew i s') h :=
  { keeps with
    fits := by
      intro j
      by_cases same : j = i
      · rw [same, Function.update_self]
        exact fits
      · rw [Function.update_of_ne same]
        exact keeps.fits j
    own := by
      intro o here
      obtain ⟨j, n, who, id, numbered⟩ := keeps.own o here
      refine ⟨j, n, ?_⟩
      by_cases same : j = i
      · subst same
        rw [Function.update_self, named]
        exact ⟨who, id, numbered.trans further⟩
      · rw [Function.update_of_ne same]
        exact ⟨who, id, numbered⟩ }

omit [DecidableEq ι] in
-- The history grows.
theorem Keeps.push {o : Operation} (keeps : Keeps now crew h) (fresh : ∀ p ∈ h.ops, p.id ≠ o.id)
    (own : ∃ i n, o.client = (crew i).id ∧ o.id = operationId (crew i).id n ∧ n ≤ (crew i).seq)
    (begun : o.invoked ≤ now) (pending : o.completed = none ∧ o.outcome = none) : Keeps now crew (h.push o) where
  fits := fun i => (keeps.fits i).push o
  own := List.forall_mem_append.mpr ⟨keeps.own, List.forall_mem_singleton.mpr own⟩
  indexed := keeps.indexed.push fresh
  begun := List.forall_mem_append.mpr ⟨keeps.begun, List.forall_mem_singleton.mpr begun⟩
  ordered := List.forall_mem_append.mpr ⟨keeps.ordered, List.forall_mem_singleton.mpr (by simp [pending.1])⟩
  agree := List.forall_mem_append.mpr ⟨keeps.agree, List.forall_mem_singleton.mpr (by rw [pending.1, pending.2]; rfl)⟩

omit [DecidableEq ι] in
-- An operation nobody waits for is answered.
theorem Keeps.answer {o : Operation} {k : Nat} {outcome : Outcome} (keeps : Keeps now crew h)
    (here : h.ops[k]? = some o) (closed : ∀ i, ∀ t ∈ (crew i).trial, o.id ≠ operationId (crew i).id t.historyId) :
    Keeps now crew (h.complete o.id now outcome).2 where
  fits := by
    intro i
    refine (keeps.fits i).carry (fun p found => ?_) fun t busy p found same => ?_
    all_goals
      obtain ⟨j, at_⟩ := List.getElem?_of_mem found
      have now_ := keeps.indexed.complete_ops? now outcome here j
    · split at now_
      · next position =>
        rw [← position, here] at at_
        cases at_
        exact ⟨_, List.mem_of_getElem? now_, rfl, rfl, rfl⟩
      · exact ⟨p, List.mem_of_getElem? (now_.trans at_), rfl, rfl, rfl⟩
    · rw [if_neg] at now_
      · exact List.mem_of_getElem? (now_.trans at_)
      · rintro rfl
        rw [here] at at_
        cases at_
        exact closed i t busy same
  own := by
    intro p found
    obtain before | rfl := keeps.indexed.mem_complete here found
    · exact keeps.own p before
    · exact keeps.own o (List.mem_of_getElem? here)
  indexed := keeps.indexed.complete here
  begun := by
    intro p found
    obtain before | rfl := keeps.indexed.mem_complete here found
    · exact keeps.begun p before
    · exact keeps.begun o (List.mem_of_getElem? here)
  ordered := by
    intro p found
    obtain before | rfl := keeps.indexed.mem_complete here found
    · exact keeps.ordered p before
    · rintro _ ⟨⟩
      exact keeps.begun o (List.mem_of_getElem? here)
  agree := by
    intro p found
    obtain before | rfl := keeps.indexed.mem_complete here found
    · exact keeps.agree p before
    · rfl

variable (distinct : Function.Injective fun i => (crew i).id) (few : Few crew)

include distinct few

omit [DecidableEq ι] in
-- What one client waits for, no other does.
theorem Keeps.only (keeps : Keeps now crew h) {j : ι} {t t' : Trial} (busy : t ∈ (crew i).trial)
    (busy' : t' ∈ (crew j).trial)
    (same : operationId (crew i).id t.historyId = operationId (crew j).id t'.historyId) : i = j := by
  have left := ((keeps.fits i).latest t busy).1
  have right := ((keeps.fits j).latest t' busy').1
  exact distinct (operationId_inj (left.trans_lt (few i)) (right.trans_lt (few j)) same).1

omit [DecidableEq ι] in
-- The number a client gives out next is not in use.
theorem Keeps.fresh (keeps : Keeps now crew h) (room : (crew i).nextHistoryId < 2 ^ 32) :
    ∀ o ∈ h.ops, o.id ≠ operationId (crew i).id (crew i).nextHistoryId := by
  intro o here same
  obtain ⟨j, n, -, id, numbered⟩ := keeps.own o here
  obtain ⟨who, which⟩ := operationId_inj (numbered.trans_lt (few j)) room (id.symm.trans same)
  obtain rfl := distinct who
  have := (keeps.fits j).numbered
  omega

omit [DecidableEq ι] distinct few in
theorem Settles.same (settles : Settles now event s h s' h') :
    s'.id = s.id ∧ s'.seq = s.seq ∧ s'.nextHistoryId = s.nextHistoryId ∧ s'.requests = s.requests ∧
      ∀ t ∈ s'.trial, t ∈ s.trial := by
  cases settles with
  | stay => exact ⟨rfl, rfl, rfl, rfl, fun t busy => busy⟩
  | abandon | complete => exact ⟨rfl, rfl, rfl, rfl, by simp⟩

omit [DecidableEq ι] distinct few in
-- What is sent is an attempt of what is in flight, and that is the same operation as before or a new one.
theorem Sends.moves (sends : Sends now s h s' h') :
    s'.id = s.id ∧ s.seq ≤ s'.seq ∧
      (s'.requests = s.requests ∨ ∃ t ∈ s'.trial, s'.requests =
        s.requests ++ [{ reqId := t.reqId, client := s'.id, seq := t.seq, op := t.op }]) ∧
      ∀ t' ∈ s'.trial, (∃ t ∈ s.trial, t'.historyId = t.historyId) ∨
        t'.historyId = s.nextHistoryId ∧ s'.seq = s.seq + 1 := by
  cases sends with
  | silent => exact ⟨rfl, Nat.le_refl _, .inl rfl, fun t busy => .inl ⟨t, busy, rfl⟩⟩
  | @attempt t busy =>
    refine ⟨rfl, Nat.le_refl _, .inr ⟨_, rfl, rfl⟩, ?_⟩
    rintro _ ⟨⟩
    exact .inl ⟨t, busy, rfl⟩
  | begin op idle =>
    refine ⟨rfl, Nat.le_succ _, .inr ⟨_, rfl, rfl⟩, ?_⟩
    rintro _ ⟨⟩
    exact .inr ⟨rfl, rfl⟩

theorem Settles.keeps (keeps : Keeps now crew h) (settles : Settles now event (crew i) h s' h') :
    Keeps now (Function.update crew i s') h' ∧
      ∀ (k : Nat) (o : Operation), h.ops[k]? = some o → Changed now event (crew i) o h'.ops[k]? := by
  generalize before : crew i = s at settles
  cases settles with
  | stay =>
    rw [← before, Function.update_eq_self]
    exact ⟨keeps, fun k o here => .inl here⟩
  | abandon =>
    subst before
    exact ⟨keeps.update { crew i with trial := none } rfl (Nat.le_refl _) (keeps.fits i).idle,
      fun k o here => .inl here⟩
  | @complete t outcome busy answers =>
    subst before
    obtain ⟨o, member, id, -, -, pending⟩ := (keeps.fits i).awaited t busy
    obtain ⟨k, here⟩ := List.getElem?_of_mem member
    have idle := keeps.update { crew i with trial := none } rfl (Nat.le_refl _) (keeps.fits i).idle
    have closed : ∀ j, ∀ t' ∈ (Function.update crew i { crew i with trial := none } j).trial,
        o.id ≠ operationId (Function.update crew i { crew i with trial := none } j).id t'.historyId := by
      intro j t' busy'
      by_cases other : j = i
      · rw [other, Function.update_self] at busy'
        cases busy'
      · rw [Function.update_of_ne other] at busy' ⊢
        rw [id]
        exact fun same => other (keeps.only distinct few busy busy' same).symm
    rw [← id]
    refine ⟨?_, fun j p found => ?_⟩
    · have recorded : (h.complete o.id now outcome).1 = true := by rw [keeps.indexed.complete_eq here]
      rw [recorded, Bool.not_true, Bool.or_false]
      exact idle.answer here closed
    · rw [Changed, keeps.indexed.complete_ops? now outcome here]
      split
      · next position =>
        rw [← position, here] at found
        cases found
        exact .inr ⟨t, busy, outcome, answers, id, pending, rfl⟩
      · exact .inl found

theorem Sends.keeps (keeps : Keeps now crew h) (sends : Sends now (crew i) h s' h') (room : s'.seq < 2 ^ 32) :
    Keeps now (Function.update crew i s') h' ∧
      ∀ (k : Nat) (o : Operation), h.ops[k]? = some o → h'.ops[k]? = some o := by
  generalize before : crew i = s at sends
  cases sends with
  | silent =>
    rw [← before, Function.update_eq_self]
    exact ⟨keeps, fun k o here => here⟩
  | @attempt t busy =>
    subst before
    obtain ⟨historyId, seq, -⟩ := (keeps.fits i).latest t busy
    exact ⟨keeps.update _ rfl (Nat.le_refl _) ((keeps.fits i).tries ⟨historyId, seq⟩ ((keeps.fits i).awaited t busy)),
      fun k o here => here⟩
  | begin op idle =>
    subst before
    have fits := keeps.fits i
    have counted : Keeps now (Function.update crew i { crew i with
        seq := (crew i).seq + 1, nextHistoryId := (crew i).nextHistoryId + 1 }) h := by
      refine keeps.update _ rfl (Nat.le_succ _) { fits with numbered := ?_, latest := ?_, awaited := ?_ }
      · exact congrArg Nat.succ fits.numbered
      · simp [idle]
      · simp [idle]
    have room : (crew i).nextHistoryId < 2 ^ 32 := fits.numbered.trans_lt room
    have pushed := counted.push (o := (crew i).operation op now) (keeps.fresh distinct few room)
      ⟨i, (crew i).nextHistoryId, by rw [Function.update_self]; rfl, by rw [Function.update_self]; rfl,
        by rw [Function.update_self, fits.numbered]⟩ (UInt64.le_refl _) ⟨rfl, rfl⟩
    have ready := pushed.fits i
    rw [Function.update_self] at ready
    have sent := pushed.update (i := i) ((crew i).starts op) (by rw [Function.update_self]; rfl)
      (by rw [Function.update_self]; rfl)
      (ready.tries ⟨fits.numbered, rfl⟩ ⟨_, List.mem_append_right _ List.mem_cons_self, rfl, rfl, rfl, rfl⟩)
    rw [Function.update_idem] at sent
    exact ⟨sent, fun k o here => Recording.push_ops? here _⟩

omit few in
theorem Keeps.turn {h₁ : Recording} (keeps : Keeps now crew h) (settles : Settles now event (crew i) h s h₁)
    (sends : Sends now s h₁ s' h') (few : Few (Function.update crew i s')) :
    Keeps now (Function.update crew i s') h' ∧
      ∀ (k : Nat) (o : Operation), h.ops[k]? = some o → Changed now event (crew i) o h'.ops[k]? ∧
        (Closed crew o → h'.ops[k]? = some o ∧ Closed (Function.update crew i s') o) := by
  obtain ⟨sameId, sameSeq, sameNext, -, waits⟩ := settles.same
  obtain ⟨-, further, -, waits'⟩ := sends.moves
  have fewBefore : Few crew ∧ s'.seq < 2 ^ 32 := by
    have own := few i
    rw [Function.update_self] at own
    refine ⟨fun j => ?_, own⟩
    by_cases same : j = i
    · rw [same]
      omega
    · have := few j
      rwa [Function.update_of_ne same] at this
  obtain ⟨fewBefore, room⟩ := fewBefore
  -- the client is the same between its two moves
  have distinctThen : Function.Injective fun j => (Function.update crew i s j).id := by
    have sameIds : (fun j => (Function.update crew i s j).id) = fun j => (crew j).id := by
      funext j
      by_cases same : j = i
      · rw [same, Function.update_self, sameId]
      · rw [Function.update_of_ne same]
    rw [sameIds]
    exact distinct
  have fewThen : Few (Function.update crew i s) := by
    intro j
    by_cases same : j = i
    · rw [same, Function.update_self, sameSeq]
      exact fewBefore i
    · rw [Function.update_of_ne same]
      exact fewBefore j
  obtain ⟨settled, changed⟩ := settles.keeps distinct fewBefore keeps
  have sends' : Sends now (Function.update crew i s i) h₁ s' h' := by rwa [Function.update_self]
  obtain ⟨sent, kept⟩ := sends'.keeps distinctThen fewThen settled room
  rw [Function.update_idem] at sent
  refine ⟨sent, fun k o here => ?_⟩
  have change : Changed now event (crew i) o h'.ops[k]? := by
    obtain same | ⟨t, busy, outcome, answers, id, pending, answered⟩ := changed k o here
    · exact .inl (kept k o same)
    · exact .inr ⟨t, busy, outcome, answers, id, pending, kept k _ answered⟩
  refine ⟨change, fun closed => ?_⟩
  obtain same | ⟨t, busy, -, -, id, pending, -⟩ := change
  · refine ⟨same, closed.imp_right fun unawaited j t busy => ?_⟩
    by_cases other : j = i
    · subst other
      rw [Function.update_self] at busy ⊢
      rw [sends.moves.1, sameId]
      obtain ⟨t', busy', number⟩ | ⟨number, next⟩ := waits' t busy
      · rw [number]
        exact unawaited j t' (waits t' busy')
      · rw [number, sameNext]
        refine keeps.fresh distinct fewBefore ?_ o (List.mem_of_getElem? here)
        rw [(keeps.fits j).numbered]
        omega
    · rw [Function.update_of_ne other] at busy ⊢
      exact unawaited j t busy
  · exact closed.elim (absurd pending) fun unawaited => absurd id (unawaited i t busy)

end Crew

structure System (ι G : Type) where
  clients : ι → Client G
  ios : ι → ClientIo
  history : Recording
  now : Nanos

namespace System

variable {G : Type} [DecidableEq ι] (source : RandomSource G) (S : System ι G)

def step (i : ι) (now : Nanos) (event : ClientEvent) : System ι G :=
  let a := Acting.handle source now { client := S.clients i, io := S.ios i, history := S.history } event
  { clients := Function.update S.clients i a.client, ios := Function.update S.ios i a.io, history := a.history, now }

def Later : System ι G → System ι G → Prop :=
  Relation.ReflTransGen fun S S' => ∃ i now event, S.now ≤ now ∧ S' = S.step source i now event

omit [DecidableEq ι] in
structure Initial : Prop where
  clients : ∀ i, ∃ id node servers rng cfg, S.clients i = Client.new source id node servers rng cfg
  ios : ∀ i, S.ios i = {}
  history : S.history = .new
  distinct : Function.Injective fun i => (S.clients i).id

def Few : Prop := ∀ i, (S.clients i).seq < 2 ^ 32

def Closed (o : Operation) : Prop :=
  o.outcome ≠ none ∨ ∀ i, ∀ f ∈ (S.clients i).inflight, o.id ≠ operationId (S.clients i).id f.historyId

structure Honest : Prop where
  wellFormed : S.history.wellFormed = .ok ()
  -- The operation in flight is in the history, and open there.
  inflight : ∀ i, ∀ f ∈ (S.clients i).inflight, ∃ o ∈ S.history.ops,
    o.id = operationId (S.clients i).id f.historyId ∧ o.client = (S.clients i).id ∧ o.op = f.op ∧ o.outcome = none
  -- Its latest attempt is what was sent last.
  latest : ∀ i, ∀ f ∈ (S.clients i).inflight, f.seq = f.historyId ∧ (S.ios i).requests.getLast? =
    some { reqId := f.reqId, client := (S.clients i).id, seq := f.seq, op := f.op }
  -- No request id is used twice.
  requests : ∀ i, (S.ios i).requests.Pairwise fun r r' => r.reqId < r'.reqId
  -- Every attempt goes by the number of its operation.
  attempts : ∀ i, ∀ r ∈ (S.ios i).requests, r.client = (S.clients i).id ∧ ∃ o ∈ S.history.ops,
    o.id = operationId (S.clients i).id r.seq ∧ o.client = (S.clients i).id ∧ o.op = r.op
  -- The assertion that an answer finds its operation never fails.
  recorded : ∀ i, (S.ios i).panicked = false

/-- What an event may send and answer. -/
structure Tells (S' : System ι G) (i : ι) (now : Nanos) (event : ClientEvent) : Prop where
  sends : (S'.ios i).requests = (S.ios i).requests ∨ ∃ f ∈ (S'.clients i).inflight, (S'.ios i).requests =
    (S.ios i).requests ++ [{ reqId := f.reqId, client := (S.clients i).id, seq := f.seq, op := f.op }]
  answers : ∀ (k : Nat) (o : Operation), S.history.ops[k]? = some o → S'.history.ops[k]? = some o ∨
    ∃ bytes outcome, ∃ f ∈ (S.clients i).inflight, event = .bytes bytes ∧
      Message.decode bytes = .ok (.client (.reply f.reqId outcome)) ∧ outcome.Definite ∧
      o.id = operationId (S.clients i).id f.historyId ∧ o.outcome = none ∧
      S'.history.ops[k]? = some (o.answered now outcome)

def crew (i : ι) : Standing := standing (S.clients i) (S.ios i)

variable {source} {S} {S' S₀ : System ι G} {i : ι} {now : Nanos} {event : ClientEvent}

omit [DecidableEq ι] in
theorem trial_iff {t : Trial} : t ∈ (S.crew i).trial ↔ ∃ f ∈ (S.clients i).inflight, f.trial = t := Option.mem_map

omit [DecidableEq ι] in
theorem closed_iff {o : Operation} : Harness.Closed S.crew o ↔ S.Closed o := by
  refine or_congr_right (forall_congr' fun i => ?_)
  constructor
  · exact fun unawaited f busy => unawaited f.trial (trial_iff.mpr ⟨f, busy, rfl⟩)
  · rintro unawaited t busy
    obtain ⟨f, inFlight, rfl⟩ := trial_iff.mp busy
    exact unawaited f inFlight

omit [DecidableEq ι] in
theorem Initial.keeps (initial : S.Initial source) : Keeps S.now S.crew S.history where
  fits := by
    intro i
    obtain ⟨id, node, servers, rng, cfg, fresh⟩ := initial.clients i
    rw [crew, fresh, initial.ios]
    exact {
      numbered := rfl
      latest := by simp [standing, Client.new]
      awaited := by simp [standing, Client.new]
      increasing := .nil
      used := List.forall_mem_nil _
      listed := List.forall_mem_nil _
      calm := rfl }
  own := by rw [initial.history]; exact List.forall_mem_nil _
  indexed := by rw [initial.history]; exact Recording.indexed_new
  begun := by rw [initial.history]; exact List.forall_mem_nil _
  ordered := by rw [initial.history]; exact List.forall_mem_nil _
  agree := by rw [initial.history]; exact List.forall_mem_nil _

theorem crew_step (source : RandomSource G) (S : System ι G) (i : ι) (now : Nanos) (event : ClientEvent) :
    (S.step source i now event).crew = Function.update S.crew i
    (Acting.handle source now { client := S.clients i, io := S.ios i, history := S.history } event).standing := by
  funext j
  by_cases same : j = i
  · subst same
    simp [crew, step, Acting.standing]
  · simp [crew, step, same]

-- An event is two moves of its client.
theorem step_moves (source : RandomSource G) (S : System ι G) (i : ι) (now : Nanos) (event : ClientEvent) :
    ∃ s h, Settles now event (S.crew i) S.history s h ∧
      Sends now s h ((S.step source i now event).crew i) (S.step source i now event).history := by
  rw [crew_step, Function.update_self]
  exact Acting.handle_event (a := { client := S.clients i, io := S.ios i, history := S.history }) event

theorem step_seq (j : ι) : ((S.clients j).id = ((S.step source i now event).clients j).id) ∧
    (S.clients j).seq ≤ ((S.step source i now event).clients j).seq := by
  by_cases same : j = i
  · subst same
    obtain ⟨s, h, settles, sends⟩ := step_moves source S j now event
    obtain ⟨sameId, sameSeq, -⟩ := settles.same
    obtain ⟨sameId', further, -⟩ := sends.moves
    exact ⟨(sameId'.trans sameId).symm, sameSeq.symm.trans_le further⟩
  · simp [step, same]

theorem Few.of_step (few : (S.step source i now event).Few) : S.Few := fun j => step_seq j |>.2.trans_lt (few j)

section Step

variable (distinct : Function.Injective fun i => (S.clients i).id) (keeps : Keeps S.now S.crew S.history)
  (onward : S.now ≤ now) (few : (S.step source i now event).Few)

include distinct keeps onward few

theorem step_turn : Keeps now (S.step source i now event).crew (S.step source i now event).history ∧
    ∀ (k : Nat) (o : Operation), S.history.ops[k]? = some o →
      Changed now event (S.crew i) o (S.step source i now event).history.ops[k]? ∧
        (S.Closed o → (S.step source i now event).history.ops[k]? = some o ∧ (S.step source i now event).Closed o) := by
  obtain ⟨s, h, settles, sends⟩ := step_moves source S i now event
  have others := crew_step source S i now event
  rw [others, Function.update_self] at sends
  have few' : Harness.Few (S.step source i now event).crew := few
  rw [others] at few'
  simp only [← closed_iff]
  rw [others]
  exact (keeps.later onward).turn distinct settles sends few'

theorem step_tells : S.Tells (S.step source i now event) i now event where
  sends := by
    obtain ⟨s, h, settles, sends⟩ := step_moves source S i now event
    obtain ⟨sameId, -, -, sameRequests, -⟩ := settles.same
    obtain ⟨sameId', -, sent, -⟩ := sends.moves
    rw [sameRequests] at sent
    obtain none | ⟨t, busy, sent⟩ := sent
    · exact .inl none
    · obtain ⟨f, inFlight, rfl⟩ := trial_iff.mp busy
      rw [sameId', sameId] at sent
      exact .inr ⟨f, inFlight, sent⟩
  answers := by
    intro k o here
    obtain same | ⟨t, busy, outcome, answers, id, pending, answered⟩ :=
      ((step_turn distinct keeps onward few).2 k o here).1
    · exact .inl same
    · obtain ⟨f, inFlight, rfl⟩ := trial_iff.mp busy
      obtain ⟨bytes, arrives, reads⟩ := answers.reads
      exact .inr ⟨bytes, outcome, f, inFlight, arrives, reads, answers.definite, id, pending, answered⟩

end Step

omit [DecidableEq ι] in
theorem honest_of_keeps (keeps : Keeps now S.crew S.history) : S.Honest where
  wellFormed := History.wellFormed_of_sane keeps.sane
  inflight i f busy := (keeps.fits i).awaited f.trial (trial_iff.mpr ⟨f, busy, rfl⟩)
  latest := by
    intro i f busy
    obtain ⟨historyId, seq, -, last⟩ := (keeps.fits i).latest f.trial (trial_iff.mpr ⟨f, busy, rfl⟩)
    exact ⟨seq.trans historyId.symm, last⟩
  requests i := (keeps.fits i).increasing
  attempts i := (keeps.fits i).listed
  recorded i := (keeps.fits i).calm

theorem Later.keeps (distinct : Function.Injective fun i => (S.clients i).id) (keeps : Keeps S.now S.crew S.history)
    (later : S.Later source S') (few : S'.Few) :
    (Function.Injective fun i => (S'.clients i).id) ∧ Keeps S'.now S'.crew S'.history ∧
      ∀ (k : Nat) (o : Operation), S.history.ops[k]? = some o → S.Closed o →
        S'.history.ops[k]? = some o ∧ S'.Closed o := by
  induction later with
  | refl => exact ⟨distinct, keeps, fun k o here closed => ⟨here, closed⟩⟩
  | tail before step ih =>
    obtain ⟨i, now, event, onward, rfl⟩ := step
    obtain ⟨distinct, keeps, kept⟩ := ih few.of_step
    obtain ⟨keeps', turned⟩ := step_turn distinct keeps onward few
    refine ⟨?_, keeps', fun k o here closed => ?_⟩
    · intro j j' same
      simp only [← (step_seq _).1] at same
      exact distinct same
    · obtain ⟨here, closed⟩ := kept k o here closed
      exact (turned k o here).2 closed

omit [DecidableEq ι] in
theorem Initial.metered (initial : S.Initial source) (i : ι) : (S.clients i).Metered := by
  obtain ⟨id, node, servers, rng, cfg, fresh⟩ := initial.clients i
  rw [fresh]
  exact ⟨by simp [Client.new], by simp [Client.new], Nat.le_add_right _ _⟩

theorem Later.metered (metered : ∀ i, (S.clients i).Metered) (later : S.Later source S') :
    ∀ i, (S'.clients i).Metered := by
  induction later with
  | refl => exact metered
  | tail before step ih =>
    obtain ⟨i, now, event, -, rfl⟩ := step
    intro j
    by_cases same : j = i
    · subst same
      simp only [System.step, Function.update_self]
      exact Acting.handle_metered event (ih j)
    · simp only [System.step, Function.update_of_ne same]
      exact ih j

-- The request ids stay within their 64 bits.
theorem nextReqId_lt (initial : S₀.Initial source) (run : S₀.Later source S) (few : S.Few) (i : ι)
    (word : (S.clients i).cfg.maxAttempts < 2 ^ 32) : (S.clients i).nextReqId < 2 ^ 64 := by
  have metered := run.metered initial.metered i
  have asked : (S.clients i).seq * ((S.clients i).cfg.maxAttempts + 1) ≤ (2 ^ 32 - 1) * 2 ^ 32 :=
    Nat.mul_le_mul (Nat.le_pred_of_lt (few i)) word
  have within := metered.within
  omega

theorem history_honest (initial : S₀.Initial source) (run : S₀.Later source S) (few : S.Few) :
    S.Honest ∧
    (∀ i now event, S.now ≤ now → (S.step source i now event).Few →
      S.Tells (S.step source i now event) i now event) ∧
    ∀ S', S.Later source S' → S'.Few → ∀ (k : Nat) (o : Operation), S.history.ops[k]? = some o → S.Closed o →
      S'.history.ops[k]? = some o := by
  obtain ⟨distinct, keeps, -⟩ := run.keeps initial.distinct initial.keeps few
  refine ⟨honest_of_keeps keeps, fun i now event onward few => step_tells distinct keeps onward few, ?_⟩
  intro S' later few k o here closed
  obtain ⟨-, -, kept⟩ := later.keeps distinct keeps few
  exact (kept k o here closed).1

def plays (source : RandomSource G) (S : System ι G) (events : List (ι × Nanos × ClientEvent)) : System ι G :=
  events.foldl (fun S e => S.step source e.1 e.2.1 e.2.2) S

theorem later_plays {events : List (ι × Nanos × ClientEvent)}
    (onward : (S.now :: events.map fun e => e.2.1).IsChain (· ≤ ·)) : S.Later source (S.plays source events) := by
  induction events generalizing S with
  | nil => exact .refl
  | cons e rest ih =>
    obtain ⟨le, onward⟩ := List.isChain_cons_cons.mp onward
    exact .head ⟨e.1, e.2.1, e.2.2, le, rfl⟩ (ih onward)

-- One client, which gives up after two attempts.
def impatient : System Unit Rng where
  clients _ := Client.new (rngSource 4) 7 3 [0, 1, 2] (Rng.new 1)
    { readWeight := 40, writeWeight := 40, casWeight := 15, deleteWeight := 5, keys := 6, thinkTime := (1, 20)
      requestTimeout := 500, retryBackoff := (10, 80), maxAttempts := 2 }
  ios _ := {}
  history := .new
  now := 0

-- The second attempt of the first operation is answered, after an answer to the first one has come too late. The second
-- operation is given up, and then its last attempt is answered.
def impatientEvents : List (Unit × Nanos × ClientEvent) :=
  [((), 5, .timer timerThink), ((), 505, .timer timerRequest),
    ((), 510, .bytes (Message.encode (.client (.reply 2 .written)))),
    ((), 520, .bytes (Message.encode (.client (.reply 3 .written)))), ((), 540, .timer timerThink),
    ((), 1040, .timer timerRequest), ((), 1540, .timer timerRequest),
    ((), 1550, .bytes (Message.encode (.client (.reply 5 .written))))]

theorem history_honest_impatient :
    let S := impatient.plays (rngSource 4) impatientEvents
    S.Honest ∧ S.history.ops.map (fun o => (o.completed, o.outcome)) = [(some 520, some .written), (none, none)] ∧
      (S.ios ()).requests.map (fun r => (r.reqId, r.seq)) = [(2, 1), (3, 1), (4, 2), (5, 2)] := by
  intro S
  have initial : impatient.Initial (rngSource 4) :=
    ⟨fun _ => ⟨7, 3, [0, 1, 2], Rng.new 1, _, rfl⟩, fun _ => rfl, rfl, fun _ _ _ => rfl⟩
  have run : impatient.Later (rngSource 4) S := later_plays (by decide)
  have played : (S.clients ()).seq = 2 ∧
      S.history.ops.map (fun o => (o.completed, o.outcome)) = [(some 520, some .written), (none, none)] ∧
      (S.ios ()).requests.map (fun r => (r.reqId, r.seq)) = [(2, 1), (3, 1), (4, 2), (5, 2)] := by decide +kernel
  have few : S.Few := fun i => by
    cases i
    rw [played.1]
    decide
  exact ⟨(history_honest initial run few).1, played.2⟩

end System

end SimKv.Harness
