import SimKv.Checker.Recording
import SimKv.Random
import SimKv.Wire

set_option autoImplicit false

/-!
# Clients

`harness::workload`. A client has one operation in flight, sends it again under the same number until a definite
answer comes or it gives up, and records one operation, not its attempts. Where its random numbers come from is
left open.
-/

namespace SimKv.Harness

open Std

def timerRequest : Nat := 1

def timerThink : Nat := 2

def timerRetry : Nat := 3

structure WorkloadConfig where
  readWeight : Nat
  writeWeight : Nat
  casWeight : Nat
  deleteWeight : Nat
  keys : Nat
  -- Pause between finishing one operation and starting the next.
  thinkTime : Nat × Nat
  requestTimeout : Nat
  -- Pause before retrying after a redirect.
  retryBackoff : Nat × Nat
  maxAttempts : Nat

structure RandomSource (G : Type) where
  below : G → Nat → Nat × G
  below_lt : ∀ (g : G) (n : Nat), 0 < n → (below g n).1 < n

def RandomSource.range {G : Type} (source : RandomSource G) (g : G) (lo hi : Nat) : Nat × G :=
  if hi ≤ lo then (lo, g)
  else
    let (drawn, g) := source.below g (hi - lo + 1)
    (lo + drawn, g)

theorem below_getD_lt (fuel : Nat) (r : Rng) (n : Nat) (some_ : 0 < n) :
    ((r.below fuel (UInt64.ofNat n)).getD (0, r)).1.toNat < n := by
  cases drawn : r.below fuel (UInt64.ofNat n) with
  | none => exact some_
  | some answer =>
    by_cases zero : UInt64.ofNat n = 0
    · rw [Rng.below, zero, if_pos (by decide)] at drawn
      cases drawn
      exact some_
    · have inside := Rng.below_in_range (UInt64.pos_iff_ne_zero.mpr zero) drawn
      rw [UInt64.lt_iff_toNat_lt, UInt64.toNat_ofNat'] at inside
      exact inside.trans_le (Nat.mod_le _ _)

def rngSource (fuel : Nat) : RandomSource Rng where
  below r n :=
    let (v, r) := (r.below fuel (UInt64.ofNat n)).getD (0, r)
    (v.toNat, r)
  below_lt r n some_ := below_getD_lt fuel r n some_

structure InFlight where
  -- Identifies this operation in the history.
  historyId : Nat
  -- Every retry reuses it.
  seq : Nat
  -- Tells replies to this attempt from replies to earlier ones.
  reqId : Nat
  op : Op
  attempts : Nat
  timer : Option Nat
  deriving DecidableEq, Repr

structure Client (G : Type) where
  id : Nat
  node : NodeId
  servers : List NodeId
  -- The position of the server that is believed to lead.
  target : Nat
  seq : Nat := 0
  nextReqId : Nat := 1
  nextHistoryId : Nat := 1
  inflight : Option InFlight := none
  -- Set while a retry is waited for.
  backingOff : Bool := false
  -- The last value each key is believed to hold.
  known : ExtTreeMap String (Option String) := ∅
  rng : G
  cfg : WorkloadConfig
  stopped : Bool := false

inductive ClientEffect where
  | send (dst : NodeId) (msg : ClientMsg)
  | setTimer (handle delay tag : Nat)
  | cancelTimer (handle : Nat)
  deriving DecidableEq, Repr

structure ClientIo where
  nextTimer : Nat := 0
  effects : List ClientEffect := []
  panicked : Bool := false
  deriving DecidableEq, Repr

def ClientIo.send (io : ClientIo) (dst : NodeId) (msg : ClientMsg) : ClientIo :=
  { io with effects := io.effects ++ [.send dst msg] }

def ClientIo.setTimer (io : ClientIo) (delay tag : Nat) : Nat × ClientIo :=
  (io.nextTimer, { io with nextTimer := io.nextTimer + 1, effects := io.effects ++ [.setTimer io.nextTimer delay tag] })

def ClientIo.cancelTimer (io : ClientIo) (handle : Nat) : ClientIo :=
  { io with effects := io.effects ++ [.cancelTimer handle] }

def operationId (client historyId : Nat) : Nat := client <<< 32 ||| historyId

structure Acting (G : Type) where
  client : Client G
  io : ClientIo
  history : Recording

variable {G : Type} (source : RandomSource G)

namespace Client

def new (id : Nat) (node : NodeId) (servers : List NodeId) (rng : G) (cfg : WorkloadConfig) : Client G :=
  let (target, rng) := source.below rng servers.length
  { id, node, servers, target, rng, cfg }

def rotateTarget (c : Client G) : Client G :=
  if c.servers.length > 1 then
    let (next, rng) := source.below c.rng c.servers.length
    { c with target := if next = c.target then (next + 1) % c.servers.length else next, rng }
  else c

def remember (c : Client G) (op : Op) (outcome : Outcome) : Client G :=
  match op, outcome with
  | .get key, .value v => { c with known := c.known.insert key v }
  | .put key value, .written => { c with known := c.known.insert key (some value) }
  | .delete key, .written => { c with known := c.known.insert key none }
  | .cas key _ value, .cas true => { c with known := c.known.insert key (some value) }
  | .cas key _ _, .cas false => { c with known := c.known.erase key }
  | _, _ => c

def pickOp (c : Client G) : Op × Client G :=
  let (drawn, rng) := source.below c.rng c.cfg.keys
  let key := "k" ++ toString drawn
  let value := "c" ++ toString c.id ++ "v" ++ toString (c.seq + 1)
  let total := c.cfg.readWeight + c.cfg.writeWeight + c.cfg.casWeight + c.cfg.deleteWeight
  let (pick, rng) := source.below rng (max total 1)
  let c := { c with rng }
  if pick < c.cfg.readWeight then (.get key, c)
  else if pick - c.cfg.readWeight < c.cfg.writeWeight then (.put key value, c)
  else if pick - c.cfg.readWeight - c.cfg.writeWeight < c.cfg.casWeight then
    (.cas key (c.known[key]?.getD none) value, c)
  else (.delete key, c)

end Client

namespace Acting

variable (now : Nanos)

def attempt (a : Acting G) : Acting G :=
  match a.client.inflight with
  | none => a
  | some f =>
    let reqId := a.client.nextReqId + 1
    let (handle, io) := a.io.setTimer a.client.cfg.requestTimeout timerRequest
    { a with
      client := { a.client with
        nextReqId := reqId
        inflight := some { f with attempts := f.attempts + 1, reqId, timer := some handle } }
      io := io.send a.client.servers[a.client.target]! (.request reqId a.client.id f.seq f.op) }

def begin (a : Acting G) : Acting G :=
  if a.client.stopped ∨ a.client.inflight.isSome then a
  else
    let (op, c) := { a.client with backingOff := false }.pickOp source
    let seq := c.seq + 1
    let historyId := c.nextHistoryId
    let c := { c with
      seq
      nextHistoryId := historyId + 1
      inflight := some { historyId, seq, reqId := 0, op, attempts := 0, timer := none } }
    let history := a.history.push
      { id := operationId c.id historyId, client := c.id, op, invoked := now, completed := none, outcome := none }
    attempt { a with client := c, history }

def think (a : Acting G) : Acting G :=
  if a.client.stopped then a
  else
    let (delay, rng) := source.range a.client.rng a.client.cfg.thinkTime.1 a.client.cfg.thinkTime.2
    let a := { a with client := { a.client with rng } }
    if delay = 0 then a.begin source now else { a with io := (a.io.setTimer delay timerThink).2 }

def disarm (a : Acting G) (f : InFlight) : Acting G :=
  match f.timer with
  | none => a
  | some handle => { a with io := a.io.cancelTimer handle }

def retry (a : Acting G) (delay : Nat) : Acting G :=
  match a.client.inflight with
  | none => a
  | some f =>
    let a := a.disarm f
    let a := { a with client := { a.client with inflight := some { f with timer := none } } }
    if f.attempts ≥ a.client.cfg.maxAttempts then
      { a with client := { a.client with inflight := none } }.think source now
    else if delay = 0 then a.attempt
    else { a with client := { a.client with backingOff := true }, io := (a.io.setTimer delay timerRetry).2 }

def finish (a : Acting G) (outcome : Outcome) : Acting G :=
  match a.client.inflight with
  | none => a
  | some f =>
    let a := disarm { a with client := { a.client with inflight := none, backingOff := false } } f
    let c := a.client.remember f.op outcome
    let (recorded, history) := a.history.complete (operationId c.id f.historyId) now outcome
    let io := { a.io with panicked := a.io.panicked || !recorded }
    think source now { client := c, io, history }

def redirect (a : Acting G) (outcome : Outcome) : Acting G :=
  match outcome with
  | .notLeader (some n) =>
    match a.client.servers.findIdx? (· = n) with
    | some i => { a with client := { a.client with target := i } }
    | none => a
  | _ => { a with client := a.client.rotateTarget source }

def onBytes (a : Acting G) (bytes : Bytes) : Acting G :=
  match Message.decode bytes with
  | .ok (.client (.reply reqId outcome)) =>
    match a.client.inflight with
    | none => a
    | some f =>
      -- a reply to an attempt that was given up on
      if f.reqId ≠ reqId then a
      else if outcome.Definite then a.finish source now outcome
      else
        let a := a.redirect source outcome
        let (backoff, rng) := source.range a.client.rng a.client.cfg.retryBackoff.1 a.client.cfg.retryBackoff.2
        { a with client := { a.client with rng } }.retry source now backoff
  | _ => a

def onTimer (a : Acting G) (tag : Nat) : Acting G :=
  if tag = timerRequest then
    if a.client.inflight.isSome ∧ a.client.backingOff = false then
      { a with client := a.client.rotateTarget source }.retry source now 0
    else a
  else if tag = timerRetry then
    if a.client.backingOff = true ∧ a.client.inflight.isSome then
      { a with client := { a.client with backingOff := false } }.attempt
    else a
  else if tag = timerThink then a.begin source now
  else a

end Acting

inductive ClientEvent where
  | bytes (bytes : Bytes)
  | timer (tag : Nat)
  | stop
  | resume
  deriving DecidableEq, Repr

def Acting.handle (now : Nanos) (a : Acting G) : ClientEvent → Acting G
  | .bytes bytes => a.onBytes source now bytes
  | .timer tag => a.onTimer source now tag
  | .stop => { a with client := { a.client with stopped := true } }
  | .resume => { a with client := { a.client with stopped := false } }

end SimKv.Harness
