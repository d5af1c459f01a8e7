import SimKv.Raft.State
import SimKv.Scheduler

set_option autoImplicit false

/-!
# Timers

`sim_io::Deadline` on the scheduler. A deadline does not compare handles when a timer arrives: that the timer is
the one it waits for is a matter of the tombstones it left for the timers before.
-/

namespace SimKv

namespace Timers

/-- What can happen in the world. What the fault injector wants is left out. -/
inductive Event where
  | timer (node : NodeId) (timer : Nat)
  | deliver (src dst : NodeId) (payload : Bytes) (msg : Nat)
  | storage (node : NodeId) (op : OpId) (ok : Bool)
  | fault
  | app (tag arg : Nat)
  deriving DecidableEq, Repr

def survivesCrash (node : NodeId) : Event → Bool
  | .timer n _ => n ≠ node
  | .storage n _ _ => n ≠ node
  | _ => true

structure Deadline extends SimKv.Deadline where
  firesAt : Nat := 0

namespace Deadline

def disarm (d : Deadline) (s : Scheduler Event) : Deadline × Scheduler Event :=
  match d.handle with
  | some h => ({ d with handle := none }, s.cancel h)
  | none => (d, s)

def reset (d : Deadline) (s : Scheduler Event) (node : NodeId) (clock delay tag : Nat) :
    Option (Deadline × Scheduler Event) :=
  let (_, s) := d.disarm s
  (s.after delay (.timer node tag)).map fun (id, s) =>
    ({ handle := some id, firesAt := min (clock + delay) maxU64 }, s)

def fired (d : Deadline) : Bool × Deadline := (d.handle.isSome, { d with handle := none })

end Deadline

structure Reset where
  id : Nat
  now : Nat
  delay : Nat
  deriving DecidableEq, Repr

/-- A scheduler with one deadline on it. `latest` is kept for the record: the latest reset, unless the deadline
was disarmed or lost in a crash since. -/
structure Timed where
  sched : Scheduler Event := {}
  deadline : Deadline := {}
  latest : Option Reset := none

inductive Act where
  | reset (clock delay : Nat)
  | disarm
  | crash
  | next
  | other (op : Scheduler.Op Event)

section

variable (node : NodeId) (tag : Nat)

def Foreign : Scheduler.Op Event → Prop
  | .at _ event => event ≠ .timer node tag
  | .after _ event => event ≠ .timer node tag
  | .cancel _ => True
  | .retain _ => True
  | .next => False

def Act.Possible : Act → Prop
  | .other op => Foreign node tag op
  | _ => True

def Timed.step (w : Timed) : Act → Option (Option (Scheduler.Entry Event × Bool) × Timed)
  | .reset clock delay =>
      (w.deadline.reset w.sched node clock delay tag).map fun (deadline, sched) =>
        (none, { sched, deadline, latest := deadline.handle.map fun id => { id, now := w.sched.now, delay } })
  | .disarm =>
      let (deadline, sched) := w.deadline.disarm w.sched
      some (none, { sched, deadline, latest := none })
  | .crash => some (none, { sched := w.sched.retain (survivesCrash node), deadline := {}, latest := none })
  | .next =>
      match w.sched.next with
      | (some entry, sched) =>
          if entry.event = .timer node tag then
            let (answer, deadline) := w.deadline.fired
            some (some (entry, answer), { w with sched, deadline })
          else some (none, { w with sched })
      | (none, sched) => some (none, { w with sched })
  | .other op => (w.sched.step op).map fun (_, sched) => (none, { w with sched })

inductive Reachable : Timed → Prop where
  | start : Reachable {}
  | step {w w' : Timed} (before : Reachable w) (act : Act) (possible : act.Possible node tag)
      {told : Option (Scheduler.Entry Event × Bool)} (done : w.step node tag act = some (told, w')) : Reachable w'

structure Guarded (w : Timed) (l : Scheduler.Ledger Event) : Prop where
  run : Scheduler.Run w.sched l
  own : ∀ e, l.Live e → e.event = .timer node tag → w.deadline.handle = some e.id ∧
    ∃ r, w.latest = some r ∧ r.id = e.id ∧ e.time = min (r.now + r.delay) maxU64

end

variable {node : NodeId} {tag : Nat} {w w' : Timed} {l : Scheduler.Ledger Event}

theorem Guarded.narrow (guarded : Guarded node tag w l) {l' : Scheduler.Ledger Event} {sched : Scheduler Event}
    (run : Scheduler.Run sched l') (fewer : ∀ e, l'.Live e → e.event = .timer node tag → l.Live e) :
    Guarded node tag { w with sched } l' where
  run := run
  own e live this := guarded.own e (fewer e live this) this

-- Once disarmed, no timer is on its way.
theorem Guarded.disarm (guarded : Guarded node tag w l) {deadline : Deadline} {sched : Scheduler Event}
    (disarmed : w.deadline.disarm w.sched = (deadline, sched)) :
    deadline.handle = none ∧ sched.now = w.sched.now ∧
      ∃ l', Scheduler.Run sched l' ∧ ∀ e, l'.Live e → e.event ≠ .timer node tag := by
  rw [Deadline.disarm] at disarmed
  split at disarmed
  · next h held =>
    cases disarmed
    refine ⟨rfl, rfl, _, guarded.run.step (.cancel h) rfl, ?_⟩
    intro e live this
    have standing : e.id ∉ h :: l.cancelled := live.2.1
    have before : l.Live e := ⟨live.1, fun gone => standing (List.mem_cons_of_mem _ gone), live.2.2⟩
    have holds := (guarded.own e before this).1
    rw [held] at holds
    cases holds
    exact standing List.mem_cons_self
  · next empty =>
    cases disarmed
    refine ⟨empty, rfl, l, guarded.run, ?_⟩
    intro e live this
    have holds := (guarded.own e live this).1
    rw [empty] at holds
    cases holds

theorem Guarded.step (guarded : Guarded node tag w l) {act : Act} (possible : act.Possible node tag)
    {told : Option (Scheduler.Entry Event × Bool)} (done : w.step node tag act = some (told, w')) :
    ∃ l', Guarded node tag w' l' := by
  cases act with
  | disarm =>
    simp only [Timed.step] at done
    cases disarmed : w.deadline.disarm w.sched with
    | mk deadline sched =>
      rw [disarmed] at done
      cases done
      obtain ⟨-, -, l', run, none_⟩ := guarded.disarm disarmed
      exact ⟨l', run, fun e live this => absurd this (none_ e live)⟩
  | reset clock delay =>
    simp only [Timed.step, Deadline.reset] at done
    cases disarmed : w.deadline.disarm w.sched with
    | mk deadline sched =>
      obtain ⟨-, now, l', run, none_⟩ := guarded.disarm disarmed
      simp only [disarmed, Option.map_map] at done
      obtain ⟨⟨id, later⟩, scheduled, result⟩ := Option.map_eq_some_iff.mp done
      cases result
      have next : sched.step (.after delay (.timer node tag)) = some (.scheduled id, later) := by
        simp [Scheduler.step, scheduled]
      refine ⟨_, run.step _ next, ?_⟩
      intro e live this
      rcases List.mem_append.mp live.1 with before | new
      · exact absurd this (none_ e ⟨before, live.2⟩)
      · obtain rfl := List.mem_singleton.mp new
        rw [now]
        exact ⟨rfl, _, rfl, rfl, rfl⟩
  | crash =>
    cases done
    refine ⟨_, guarded.run.step (.retain (survivesCrash node)) rfl, ?_⟩
    intro e live this
    apply absurd (List.mem_append_right _ _) live.2.2.1
    exact List.mem_filter.mpr ⟨live.1, by simp [this, survivesCrash]⟩
  | next =>
    simp only [Timed.step] at done
    cases popped : w.sched.next with
    | mk entry sched =>
      have taken : w.sched.step .next = some (.popped entry, sched) := by simp [Scheduler.step, popped]
      have run := guarded.run.step .next taken
      have fewer (e : Scheduler.Entry Event) (live : (l.note w.sched.now .next (.popped entry)).Live e) : l.Live e :=
        (Scheduler.Ledger.live_note taken live).resolve_right (Option.some_ne_none e.event).symm
      rw [popped] at done
      cases entry with
      | none =>
        cases done
        exact ⟨_, guarded.narrow run fun e live _ => fewer e live⟩
      | some entry =>
        dsimp only at done
        split at done
        · next this =>
          cases done
          refine ⟨_, run, ?_⟩
          intro e live also
          -- a second timer would have the handle of the one that was handed out
          have before := fewer e live
          have delivered : l.Live entry := (guarded.run.sound.next_some popped).2.2.2.1
          have first := (guarded.own entry delivered this).1
          have second := (guarded.own e before also).1
          have same : e.id = entry.id := by
            rw [first] at second
            exact (Option.some.inj second).symm
          rw [guarded.run.sound.live_unique before delivered same] at live
          exact absurd (List.mem_append_right _ List.mem_cons_self) live.2.2.2
        · cases done
          exact ⟨_, guarded.narrow run fun e live _ => fewer e live⟩
  | other op =>
    obtain ⟨⟨answer, sched⟩, taken, result⟩ := Option.map_eq_some_iff.mp done
    cases result
    refine ⟨_, guarded.narrow (guarded.run.step op taken) ?_⟩
    intro e live this
    apply (Scheduler.Ledger.live_note taken live).resolve_right
    intro scheduled
    cases op with
    | «at» time event =>
      cases scheduled
      exact possible this
    | after delay event =>
      cases scheduled
      exact possible this
    | cancel | retain | next => cases scheduled

-- What a delivery finds.
theorem Guarded.delivery (guarded : Guarded node tag w l) {e : Scheduler.Entry Event} {answer : Bool}
    (done : w.step node tag .next = some (some (e, answer), w')) :
    answer = true ∧ e.event = .timer node tag ∧ w'.sched.now = e.time ∧
      ∃ r, w.latest = some r ∧ r.id = e.id ∧ e.time = min (r.now + r.delay) maxU64 := by
  simp only [Timed.step] at done
  split at done
  · next entry sched popped =>
    split at done
    · next this =>
      cases done
      obtain ⟨-, -, now, live, -⟩ := guarded.run.sound.next_some popped
      obtain ⟨held, latest⟩ := guarded.own e live this
      refine ⟨?_, this, now, latest⟩
      rw [Deadline.fired, held]
      rfl
    · cases done
  · cases done

theorem Reachable.guarded (reachable : Reachable node tag w) : ∃ l, Guarded node tag w l := by
  induction reachable with
  | start =>
    refine ⟨{}, .start, ?_⟩
    intro e live
    exact absurd live.1 List.not_mem_nil
  | step before act possible done ih =>
    obtain ⟨l, guarded⟩ := ih
    exact guarded.step possible done

def play (node : NodeId) (tag : Nat) : List Act → Timed → Option Timed
  | [], w => some w
  | act :: rest, w => (w.step node tag act).bind fun (_, w) => play node tag rest w

theorem reachable_play {acts : List Act} (possible : ∀ act ∈ acts, act.Possible node tag)
    (reachable : Reachable node tag w) (played : play node tag acts w = some w') : Reachable node tag w' := by
  induction acts generalizing w with
  | nil =>
    cases played
    exact reachable
  | cons act rest ih =>
    rw [List.forall_mem_cons] at possible
    obtain ⟨⟨told, next⟩, done, later⟩ := Option.bind_eq_some_iff.mp played
    exact ih possible.2 (reachable.step act possible.1 done) later

/-- The scheduler hands out the events that were neither cancelled nor dropped, each once, by time and then by id,
and its clock never goes back. A timer of a deadline that is delivered is the one its latest reset set, with no
disarm or crash since; then `fired` is true, and the time is the time of the reset and the whole delay, or the
last there is. -/
theorem timers_in_order :
    (∀ (E : Type) (s : Scheduler E) (l : Scheduler.Ledger E), Scheduler.Run s l →
      (l.fired.Pairwise Scheduler.Entry.Before ∧ ∀ e ∈ l.fired, e ∈ l.scheduled) ∧
      (∀ op answer s', s.step op = some (answer, s') → s.now ≤ s'.now) ∧
      (∀ e s', s.next = (some e, s') →
        l.Live e ∧ s'.now = e.time ∧ ∀ other, l.Live other → other ≠ e → e.Before other) ∧
      (∀ s', s.next = (none, s') → ∀ e, ¬ l.Live e) ∧
      (Scheduler.drain s.queue.length s).Pairwise Scheduler.Entry.Before ∧
      ∀ e, e ∈ Scheduler.drain s.queue.length s ↔ l.Live e) ∧
    ∀ (node : NodeId) (tag : Nat) (w w' : Timed), Reachable node tag w →
      ∀ (e : Scheduler.Entry Event) (answer : Bool), w.step node tag .next = some (some (e, answer), w') →
        (answer = true ↔ ∃ r, w.latest = some r ∧ r.id = e.id) ∧
        ∃ r, w.latest = some r ∧ r.id = e.id ∧ w'.sched.now = min (r.now + r.delay) maxU64 := by
  constructor
  · intro E s l run
    exact run.in_order
  · intro node tag w w' reachable e answer done
    obtain ⟨l, guarded⟩ := reachable.guarded
    obtain ⟨yes, -, now, r, latest, same, due⟩ := guarded.delivery done
    exact ⟨iff_of_true yes ⟨r, latest, same⟩, r, latest, same, now.trans due⟩

def endless : List Act := [.other (.at 1 (.app 0 0)), .next, .reset 0 maxU64]

def waiting : Timed where
  sched := { now := 1, nextId := 2, queue := [{ time := maxU64, id := 1, event := .timer 0 1 }], fired := 1 }
  deadline := { handle := some 1, firesAt := maxU64 }
  latest := some { id := 1, now := 1, delay := maxU64 }

def lapsed : Timed where
  sched := { now := maxU64, nextId := 2, fired := 2 }
  deadline := { firesAt := maxU64 }
  latest := some { id := 1, now := 1, delay := maxU64 }

theorem waiting_reachable : Reachable 0 1 waiting := by
  have played : play 0 1 endless {} = some waiting := rfl
  apply reachable_play _ .start played
  intro act member
  rcases List.mem_cons.mp member with rfl | member
  · exact Event.noConfusion
  · rcases List.mem_cons.mp member with rfl | member
    · trivial
    · rw [List.mem_singleton.mp member]
      trivial

theorem waiting_next :
    waiting.step 0 1 .next = some (some ({ time := maxU64, id := 1, event := .timer 0 1 }, true), lapsed) :=
  rfl

theorem timers_in_order_waiting : lapsed.sched.now = min (1 + maxU64) maxU64 := by
  obtain ⟨-, r, latest, -, due⟩ := timers_in_order.2 0 1 waiting lapsed waiting_reachable _ true waiting_next
  cases latest
  exact due

/-- The timer may come before the whole delay is over. -/
theorem deadline_early :
    ¬ ∀ (node : NodeId) (tag : Nat) (w w' : Timed), Reachable node tag w →
      ∀ (e : Scheduler.Entry Event) (answer : Bool), w.step node tag .next = some (some (e, answer), w') →
        answer = true → ∃ r, w.latest = some r ∧ r.id = e.id ∧ r.now + r.delay ≤ w'.sched.now := by
  intro claimed
  obtain ⟨r, latest, -, elapsed⟩ := claimed 0 1 waiting lapsed waiting_reachable _ true waiting_next rfl
  cases latest
  exact absurd elapsed (by decide)

end Timers

end SimKv
