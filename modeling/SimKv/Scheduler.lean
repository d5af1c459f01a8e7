import Mathlib.Data.Finset.Basic

set_option autoImplicit false

/-!
# The scheduler

`simcore::scheduler`. Whatever will happen is an entry of one queue, and the queue hands out its entries by time
and, at one time, in the order they were scheduled. A cancelled entry stays where it is; the tombstone its id
leaves is picked up when the entry comes to the head.
-/

namespace SimKv

def maxU64 : Nat := 18446744073709551615

structure Scheduler.Entry (E : Type) where
  time : Nat
  id : Nat
  event : E

/-- The heap is kept as the list of its entries in the order it hands them out. -/
structure Scheduler (E : Type) where
  now : Nat := 0
  nextId : Nat := 0
  queue : List (Scheduler.Entry E) := []
  cancelled : Finset Nat := ∅
  fired : Nat := 0

namespace Scheduler

variable {E : Type}

def Entry.Before (a b : Entry E) : Prop := a.time < b.time ∨ (a.time = b.time ∧ a.id < b.id)

instance (a b : Entry E) : Decidable (a.Before b) := inferInstanceAs (Decidable (_ ∨ _))

def push (entry : Entry E) : List (Entry E) → List (Entry E)
  | [] => [entry]
  | first :: rest => if entry.Before first then entry :: first :: rest else first :: push entry rest

def at_ (s : Scheduler E) (time : Nat) (event : E) : Option (Nat × Scheduler E) :=
  if s.now ≤ time ∧ time ≤ maxU64 ∧ s.nextId < maxU64 then
    some (s.nextId, { s with nextId := s.nextId + 1, queue := push { time, id := s.nextId, event } s.queue })
  else none

def after (s : Scheduler E) (delay : Nat) (event : E) : Option (Nat × Scheduler E) :=
  s.at_ (min (s.now + delay) maxU64) event

def cancel (s : Scheduler E) (id : Nat) : Scheduler E := { s with cancelled := insert id s.cancelled }

def pop : List (Entry E) → Finset Nat → Option (Entry E) × List (Entry E) × Finset Nat
  | [], cancelled => (none, [], cancelled)
  | entry :: rest, cancelled =>
      if entry.id ∈ cancelled then pop rest (cancelled.erase entry.id) else (some entry, rest, cancelled)

def next (s : Scheduler E) : Option (Entry E) × Scheduler E :=
  match pop s.queue s.cancelled with
  | (some entry, queue, cancelled) =>
      (some entry, { s with now := entry.time, queue, cancelled, fired := s.fired + 1 })
  | (none, queue, cancelled) => (none, { s with queue, cancelled })

def retain (s : Scheduler E) (keep : E → Bool) : Scheduler E :=
  { s with queue := s.queue.filter fun entry => keep entry.event }

inductive Op (E : Type) where
  | at (time : Nat) (event : E)
  | after (delay : Nat) (event : E)
  | cancel (id : Nat)
  | retain (keep : E → Bool)
  | next

inductive Answer (E : Type) where
  | scheduled (id : Nat)
  | done
  | popped (entry : Option (Entry E))

def step (s : Scheduler E) : Op E → Option (Answer E × Scheduler E)
  | .at time event => (s.at_ time event).map fun (id, s) => (.scheduled id, s)
  | .after delay event => (s.after delay event).map fun (id, s) => (.scheduled id, s)
  | .cancel id => some (.done, s.cancel id)
  | .retain keep => some (.done, s.retain keep)
  | .next => some (.popped s.next.1, s.next.2)

theorem Entry.Before.trans {a b c : Entry E} (first : a.Before b) (second : b.Before c) : a.Before c := by
  unfold Entry.Before at *
  omega

theorem Entry.before_of_not {a b : Entry E} (not : ¬ a.Before b) (differ : a.id ≠ b.id) : b.Before a := by
  unfold Entry.Before at *
  omega

theorem Entry.Before.ne {a b : Entry E} (before : a.Before b) : a ≠ b := by
  rintro rfl
  unfold Entry.Before at before
  omega

theorem push_perm (entry : Entry E) (queue : List (Entry E)) : (push entry queue).Perm (entry :: queue) := by
  induction queue with
  | nil => exact List.Perm.refl _
  | cons first rest ih =>
    rw [push]
    split
    · exact List.Perm.refl _
    · exact (ih.cons first).trans (List.Perm.swap entry first rest)

theorem mem_push {entry e : Entry E} {queue : List (Entry E)} : e ∈ push entry queue ↔ e = entry ∨ e ∈ queue :=
  (push_perm entry queue).mem_iff.trans List.mem_cons

theorem push_ordered {entry : Entry E} {queue : List (Entry E)} (ordered : queue.Pairwise Entry.Before)
    (fresh : ∀ e ∈ queue, e.id ≠ entry.id) : (push entry queue).Pairwise Entry.Before := by
  induction queue with
  | nil => exact List.pairwise_singleton _ _
  | cons first rest ih =>
    obtain ⟨least, tail⟩ := List.pairwise_cons.mp ordered
    obtain ⟨differs, fresh⟩ := List.forall_mem_cons.mp fresh
    rw [push]
    split
    · next early =>
      apply List.pairwise_cons.mpr
      refine ⟨?_, ordered⟩
      intro e member
      rcases List.mem_cons.mp member with rfl | later
      · exact early
      · exact early.trans (least e later)
    · next late =>
      apply List.pairwise_cons.mpr
      refine ⟨?_, ih tail fresh⟩
      intro e member
      rcases mem_push.mp member with rfl | later
      · exact Entry.before_of_not late differs.symm
      · exact least e later

-- The ledger keeps what was asked of the scheduler and what it handed out, and nothing of how it did so.

structure Ledger (E : Type) where
  scheduled : List (Entry E) := []
  cancelled : List Nat := []
  dropped : List (Entry E) := []
  fired : List (Entry E) := []

def Ledger.note (l : Ledger E) (now : Nat) : Op E → Answer E → Ledger E
  | .at time event, .scheduled id => { l with scheduled := l.scheduled ++ [{ time, id, event }] }
  | .after delay event, .scheduled id =>
      { l with scheduled := l.scheduled ++ [{ time := min (now + delay) maxU64, id, event }] }
  | .cancel id, _ => { l with cancelled := id :: l.cancelled }
  | .retain keep, _ => { l with dropped := l.dropped ++ l.scheduled.filter fun e => !keep e.event }
  | .next, .popped (some e) => { l with fired := l.fired ++ [e] }
  | _, _ => l

/-- Still to happen: scheduled, not cancelled at any time, not dropped and not handed out yet. -/
def Ledger.Live (l : Ledger E) (e : Entry E) : Prop :=
  e ∈ l.scheduled ∧ e.id ∉ l.cancelled ∧ e ∉ l.dropped ∧ e ∉ l.fired

def Op.schedules : Op E → Option E
  | .at _ event => some event
  | .after _ event => some event
  | _ => none

-- Only what is newly scheduled becomes live.
theorem Ledger.live_note {s s' : Scheduler E} {l : Ledger E} {op : Op E} {answer : Answer E}
    (done : s.step op = some (answer, s')) {e : Entry E} (live : (l.note s.now op answer).Live e) :
    l.Live e ∨ op.schedules = some e.event := by
  cases op with
  | «at» time event =>
    obtain ⟨⟨id, t⟩, -, result⟩ := Option.map_eq_some_iff.mp done
    cases result
    rcases List.mem_append.mp live.1 with before | new
    · exact .inl ⟨before, live.2⟩
    · rw [List.mem_singleton.mp new]
      exact .inr rfl
  | after delay event =>
    obtain ⟨⟨id, t⟩, -, result⟩ := Option.map_eq_some_iff.mp done
    cases result
    rcases List.mem_append.mp live.1 with before | new
    · exact .inl ⟨before, live.2⟩
    · rw [List.mem_singleton.mp new]
      exact .inr rfl
  | cancel id =>
    obtain ⟨scheduled, standing, others⟩ := live
    exact .inl ⟨scheduled, fun gone => standing (List.mem_cons_of_mem _ gone), others⟩
  | retain keep =>
    obtain ⟨scheduled, standing, kept, waiting⟩ := live
    exact .inl ⟨scheduled, standing, fun gone => kept (List.mem_append_left _ gone), waiting⟩
  | next =>
    cases done
    cases popped : s.next.1 with
    | none =>
      rw [popped] at live
      exact .inl live
    | some entry =>
      rw [popped] at live
      obtain ⟨scheduled, standing, kept, waiting⟩ := live
      exact .inl ⟨scheduled, standing, kept, fun gone => waiting (List.mem_append_left _ gone)⟩

/-- The scheduler and the ledger after some sequence of operations. -/
inductive Run : Scheduler E → Ledger E → Prop where
  | start : Run {} {}
  | step {s s' : Scheduler E} {l : Ledger E} (run : Run s l) (op : Op E) {answer : Answer E}
      (done : s.step op = some (answer, s')) : Run s' (l.note s.now op answer)

structure Sound (s : Scheduler E) (l : Ledger E) : Prop where
  ordered : s.queue.Pairwise Entry.Before
  ids : (s.queue.map Entry.id).Nodup
  ahead : ∀ e ∈ s.queue, s.now ≤ e.time
  recorded : ∀ e ∈ s.queue, e ∈ l.scheduled ∧ e ∉ l.dropped ∧ e ∉ l.fired
  waiting : ∀ e ∈ l.scheduled, e.id ∉ l.cancelled → e ∉ l.dropped → e ∉ l.fired → e ∈ s.queue
  -- A tombstone lies until its entry is met.
  tombstones : ∀ id, (s.nextId ≤ id ∨ ∃ e ∈ s.queue, e.id = id) → (id ∈ s.cancelled ↔ id ∈ l.cancelled)
  numbered : ∀ e ∈ l.scheduled, e.id < s.nextId
  discarded : ∀ e ∈ l.dropped, e ∈ l.scheduled
  handed : ∀ e ∈ l.fired, e ∈ l.scheduled ∧ e.time ≤ s.now
  passed : ∀ e ∈ l.fired, ∀ later ∈ s.queue, e.Before later
  inOrder : l.fired.Pairwise Entry.Before

namespace Sound

variable {s s' : Scheduler E} {l : Ledger E}

theorem live_iff (sound : Sound s l) (e : Entry E) : l.Live e ↔ e ∈ s.queue ∧ e.id ∉ s.cancelled := by
  constructor
  · rintro ⟨scheduled, standing, kept, waiting⟩
    have queued := sound.waiting e scheduled standing kept waiting
    exact ⟨queued, fun buried => standing ((sound.tombstones e.id (.inr ⟨e, queued, rfl⟩)).mp buried)⟩
  · rintro ⟨queued, standing⟩
    obtain ⟨scheduled, kept, waiting⟩ := sound.recorded e queued
    exact ⟨scheduled, fun gone => standing ((sound.tombstones e.id (.inr ⟨e, queued, rfl⟩)).mpr gone), kept, waiting⟩

-- No two live entries have the same id.
theorem live_unique (sound : Sound s l) {e other : Entry E} (live : l.Live e) (also : l.Live other)
    (same : e.id = other.id) : e = other :=
  List.inj_on_of_nodup_map sound.ids ((sound.live_iff e).mp live).1 ((sound.live_iff other).mp also).1 same

theorem start : Sound ({} : Scheduler E) {} := by
  constructor <;> simp

-- An entry with the next number, not before now.
theorem enter (sound : Sound s l) {entry : Entry E} (number : entry.id = s.nextId) (future : s.now ≤ entry.time) :
    Sound { s with nextId := s.nextId + 1, queue := push entry s.queue }
      { l with scheduled := l.scheduled ++ [entry] } := by
  have fresh : ∀ e ∈ l.scheduled, e.id ≠ entry.id := by
    intro e scheduled
    have := sound.numbered e scheduled
    omega
  have queuedFresh : ∀ e ∈ s.queue, e.id ≠ entry.id := fun e queued => fresh e (sound.recorded e queued).1
  constructor
  case ordered => exact push_ordered sound.ordered queuedFresh
  case ids =>
    have same : ((push entry s.queue).map Entry.id).Perm ((entry :: s.queue).map Entry.id) := (push_perm ..).map _
    rw [same.nodup_iff, List.map_cons, List.nodup_cons]
    refine ⟨?_, sound.ids⟩
    intro taken
    obtain ⟨e, queued, number⟩ := List.mem_map.mp taken
    exact queuedFresh e queued number
  case ahead =>
    intro e member
    rcases mem_push.mp member with rfl | queued
    · exact future
    · exact sound.ahead e queued
  case recorded =>
    intro e member
    rcases mem_push.mp member with rfl | queued
    · refine ⟨List.mem_append_right _ List.mem_cons_self, ?_, ?_⟩
      · intro dropped
        exact fresh e (sound.discarded e dropped) rfl
      · intro fired
        exact fresh e (sound.handed e fired).1 rfl
    · obtain ⟨scheduled, others⟩ := sound.recorded e queued
      exact ⟨List.mem_append_left _ scheduled, others⟩
  case waiting =>
    intro e scheduled standing kept waiting
    apply mem_push.mpr
    rcases List.mem_append.mp scheduled with before | new
    · exact .inr (sound.waiting e before standing kept waiting)
    · exact .inl (List.mem_singleton.mp new)
  case tombstones =>
    intro id known
    apply sound.tombstones
    rcases known with unused | ⟨e, member, rfl⟩
    · exact .inl (Nat.le_of_succ_le unused)
    · rcases mem_push.mp member with rfl | queued
      · exact .inl number.ge
      · exact .inr ⟨e, queued, rfl⟩
  case numbered =>
    intro e scheduled
    rcases List.mem_append.mp scheduled with before | new
    · exact Nat.lt_succ_of_lt (sound.numbered e before)
    · rw [List.mem_singleton.mp new, number]
      exact Nat.lt_succ_self _
  case handed =>
    intro e fired
    obtain ⟨scheduled, past⟩ := sound.handed e fired
    exact ⟨List.mem_append_left _ scheduled, past⟩
  case discarded => exact fun e dropped => List.mem_append_left _ (sound.discarded e dropped)
  case passed =>
    intro e fired later member
    rcases mem_push.mp member with rfl | queued
    · have past := (sound.handed e fired).2
      have older := sound.numbered e (sound.handed e fired).1
      unfold Entry.Before
      omega
    · exact sound.passed e fired later queued
  case inOrder => exact sound.inOrder

theorem cancel (sound : Sound s l) (id : Nat) : Sound (s.cancel id) { l with cancelled := id :: l.cancelled } := by
  constructor
  case waiting =>
    intro e scheduled standing kept waiting
    exact sound.waiting e scheduled (fun gone => standing (List.mem_cons_of_mem _ gone)) kept waiting
  case tombstones =>
    intro other known
    simp only [Scheduler.cancel, Finset.mem_insert, List.mem_cons, sound.tombstones other known]
  case ordered => exact sound.ordered
  case ids => exact sound.ids
  case ahead => exact sound.ahead
  case recorded => exact sound.recorded
  case numbered => exact sound.numbered
  case handed => exact sound.handed
  case discarded => exact sound.discarded
  case passed => exact sound.passed
  case inOrder => exact sound.inOrder

theorem retain (sound : Sound s l) (keep : E → Bool) :
    Sound (s.retain keep) { l with dropped := l.dropped ++ l.scheduled.filter fun e => !keep e.event } := by
  have queued {e : Entry E} (member : e ∈ (s.retain keep).queue) : e ∈ s.queue ∧ keep e.event = true :=
    List.mem_filter.mp member
  constructor
  case ordered => exact sound.ordered.sublist List.filter_sublist
  case ids => exact sound.ids.sublist (List.filter_sublist.map _)
  case ahead => exact fun e member => sound.ahead e (queued member).1
  case recorded =>
    intro e member
    obtain ⟨before, wanted⟩ := queued member
    obtain ⟨scheduled, kept, waiting⟩ := sound.recorded e before
    refine ⟨scheduled, ?_, waiting⟩
    intro dropped
    rcases List.mem_append.mp dropped with earlier | now
    · exact kept earlier
    · simp [wanted] at now
  case waiting =>
    intro e scheduled standing kept waiting
    have wanted : keep e.event = true := by
      by_contra unwanted
      apply kept
      exact List.mem_append_right _ (List.mem_filter.mpr ⟨scheduled, by simpa using unwanted⟩)
    have before := sound.waiting e scheduled standing (fun gone => kept (List.mem_append_left _ gone)) waiting
    exact List.mem_filter.mpr ⟨before, wanted⟩
  case tombstones =>
    intro id known
    apply sound.tombstones
    rcases known with unused | ⟨e, member, rfl⟩
    · exact .inl unused
    · exact .inr ⟨e, (queued member).1, rfl⟩
  case discarded =>
    intro e dropped
    rcases List.mem_append.mp dropped with earlier | now
    · exact sound.discarded e earlier
    · exact (List.mem_filter.mp now).1
  case passed => exact fun e fired later member => sound.passed e fired later (queued member).1
  case numbered => exact sound.numbered
  case handed => exact sound.handed
  case inOrder => exact sound.inOrder

-- An entry with a tombstone is thrown away, and the tombstone with it.
theorem skip {entry : Entry E} {rest : List (Entry E)} {cancelled : Finset Nat}
    (sound : Sound { s with queue := entry :: rest, cancelled } l) (buried : entry.id ∈ cancelled) :
    Sound { s with queue := rest, cancelled := cancelled.erase entry.id } l := by
  have struck := (sound.tombstones entry.id (.inr ⟨entry, List.mem_cons_self, rfl⟩)).mp buried
  have others : ∀ e ∈ rest, e.id ≠ entry.id := by
    intro e member same
    exact (List.nodup_cons.mp sound.ids).1 (List.mem_map.mpr ⟨e, member, same⟩)
  constructor
  case ordered => exact (List.pairwise_cons.mp sound.ordered).2
  case ids => exact (List.nodup_cons.mp sound.ids).2
  case ahead => exact fun e member => sound.ahead e (List.mem_cons_of_mem _ member)
  case recorded => exact fun e member => sound.recorded e (List.mem_cons_of_mem _ member)
  case waiting =>
    intro e scheduled standing kept waiting
    rcases List.mem_cons.mp (sound.waiting e scheduled standing kept waiting) with rfl | later
    · exact absurd struck standing
    · exact later
  case tombstones =>
    intro id known
    have differs : id ≠ entry.id := by
      rcases known with unused | ⟨e, member, rfl⟩
      · have older := sound.numbered entry (sound.recorded entry List.mem_cons_self).1
        exact (Nat.lt_of_lt_of_le older unused).ne'
      · exact others e member
    have before : s.nextId ≤ id ∨ ∃ e ∈ entry :: rest, e.id = id :=
      known.imp_right fun ⟨e, member, same⟩ => ⟨e, List.mem_cons_of_mem _ member, same⟩
    rw [Finset.mem_erase]
    exact (and_iff_right differs).trans (sound.tombstones id before)
  case passed => exact fun e fired later member => sound.passed e fired later (List.mem_cons_of_mem _ member)
  case numbered => exact sound.numbered
  case handed => exact sound.handed
  case discarded => exact sound.discarded
  case inOrder => exact sound.inOrder

-- The first entry that has no tombstone is handed out.
theorem hand {entry : Entry E} {rest : List (Entry E)} {cancelled : Finset Nat}
    (sound : Sound { s with queue := entry :: rest, cancelled } l) (standing : entry.id ∉ cancelled) :
    Sound { s with now := entry.time, queue := rest, cancelled, fired := s.fired + 1 }
      { l with fired := l.fired ++ [entry] } := by
  obtain ⟨least, ordered⟩ := List.pairwise_cons.mp sound.ordered
  have due := sound.ahead entry List.mem_cons_self
  constructor
  case ordered => exact ordered
  case ids => exact (List.nodup_cons.mp sound.ids).2
  case ahead =>
    intro e member
    have later := least e member
    unfold Entry.Before at later
    show entry.time ≤ e.time
    omega
  case recorded =>
    intro e member
    obtain ⟨scheduled, kept, waiting⟩ := sound.recorded e (List.mem_cons_of_mem _ member)
    refine ⟨scheduled, kept, ?_⟩
    intro fired
    rcases List.mem_append.mp fired with earlier | now
    · exact waiting earlier
    · exact (least e member).ne (List.mem_singleton.mp now).symm
  case waiting =>
    intro e scheduled remains kept waiting
    have before := sound.waiting e scheduled remains kept fun gone => waiting (List.mem_append_left _ gone)
    rcases List.mem_cons.mp before with rfl | later
    · exact absurd (List.mem_append_right _ List.mem_cons_self) waiting
    · exact later
  case tombstones =>
    intro id known
    exact sound.tombstones id (known.imp_right fun ⟨e, member, same⟩ => ⟨e, List.mem_cons_of_mem _ member, same⟩)
  case handed =>
    intro e fired
    rcases List.mem_append.mp fired with earlier | now
    · obtain ⟨scheduled, past⟩ := sound.handed e earlier
      exact ⟨scheduled, past.trans due⟩
    · rw [List.mem_singleton.mp now]
      exact ⟨(sound.recorded entry List.mem_cons_self).1, le_rfl⟩
  case passed =>
    intro e fired later member
    rcases List.mem_append.mp fired with earlier | now
    · exact sound.passed e earlier later (List.mem_cons_of_mem _ member)
    · rw [List.mem_singleton.mp now]
      exact least later member
  case inOrder =>
    rw [List.pairwise_append]
    refine ⟨sound.inOrder, List.pairwise_singleton _ _, ?_⟩
    intro e fired this member
    rw [List.mem_singleton.mp member]
    exact sound.passed e fired entry List.mem_cons_self
  case numbered => exact sound.numbered
  case discarded => exact sound.discarded

theorem pop_some {queue left : List (Entry E)} {cancelled remaining : Finset Nat} {entry : Entry E}
    (sound : Sound { s with queue, cancelled } l) (popped : pop queue cancelled = (some entry, left, remaining)) :
    Sound { s with queue := entry :: left, cancelled := remaining } l ∧ entry.id ∉ remaining ∧
      left.length < queue.length := by
  induction queue generalizing cancelled with
  | nil => simp [pop] at popped
  | cons first rest ih =>
    rw [pop] at popped
    split at popped
    · next buried =>
      obtain ⟨ready, standing, shorter⟩ := ih (sound.skip buried) popped
      exact ⟨ready, standing, Nat.lt_succ_of_lt shorter⟩
    · next standing =>
      cases popped
      exact ⟨sound, standing, Nat.lt_succ_self _⟩

theorem pop_none {queue left : List (Entry E)} {cancelled remaining : Finset Nat}
    (sound : Sound { s with queue, cancelled } l) (popped : pop queue cancelled = (none, left, remaining)) :
    left = [] ∧ Sound { s with queue := [], cancelled := remaining } l := by
  induction queue generalizing cancelled with
  | nil =>
    cases popped
    exact ⟨rfl, sound⟩
  | cons first rest ih =>
    rw [pop] at popped
    split at popped
    · next buried => exact ih (sound.skip buried) popped
    · cases popped

theorem next_some (sound : Sound s l) {entry : Entry E} (popped : s.next = (some entry, s')) :
    Sound s' { l with fired := l.fired ++ [entry] } ∧ s.now ≤ s'.now ∧ s'.now = entry.time ∧ l.Live entry ∧
      (∀ other, l.Live other → other ≠ entry → entry.Before other) ∧ s'.queue.length < s.queue.length := by
  rw [Scheduler.next] at popped
  split at popped
  · next first left remaining came =>
    cases popped
    obtain ⟨ready, standing, shorter⟩ := pop_some sound came
    refine ⟨ready.hand standing, ready.ahead entry List.mem_cons_self, rfl,
      (ready.live_iff entry).mpr ⟨List.mem_cons_self, standing⟩, ?_, shorter⟩
    intro other live differs
    rcases List.mem_cons.mp ((ready.live_iff other).mp live).1 with same | later
    · exact absurd same differs
    · exact (List.pairwise_cons.mp ready.ordered).1 other later
  · cases popped

theorem next_none (sound : Sound s l) (popped : s.next = (none, s')) :
    Sound s' l ∧ s.now ≤ s'.now ∧ ∀ entry, ¬ l.Live entry := by
  rw [Scheduler.next] at popped
  split at popped
  · cases popped
  · next left remaining came =>
    cases popped
    obtain ⟨rfl, empty⟩ := pop_none sound came
    refine ⟨empty, le_rfl, ?_⟩
    intro entry live
    exact absurd ((empty.live_iff entry).mp live).1 List.not_mem_nil

theorem at_ (sound : Sound s l) {time id : Nat} {event : E} (done : s.at_ time event = some (id, s')) :
    Sound s' { l with scheduled := l.scheduled ++ [{ time, id, event }] } ∧ s.now ≤ s'.now := by
  unfold Scheduler.at_ at done
  split at done
  · next can =>
    cases done
    exact ⟨sound.enter rfl can.1, le_rfl⟩
  · cases done

theorem step (sound : Sound s l) {op : Op E} {answer : Answer E} (done : s.step op = some (answer, s')) :
    Sound s' (l.note s.now op answer) ∧ s.now ≤ s'.now := by
  cases op with
  | «at» time event =>
    obtain ⟨⟨id, t⟩, entered, result⟩ := Option.map_eq_some_iff.mp done
    cases result
    exact sound.at_ entered
  | after delay event =>
    obtain ⟨⟨id, t⟩, entered, result⟩ := Option.map_eq_some_iff.mp done
    cases result
    exact sound.at_ entered
  | cancel id =>
    cases done
    exact ⟨sound.cancel id, le_rfl⟩
  | retain keep =>
    cases done
    exact ⟨sound.retain keep, le_rfl⟩
  | next =>
    cases done
    cases popped : s.next with
    | mk entry t =>
      cases entry with
      | some entry =>
        obtain ⟨kept, later, -⟩ := sound.next_some popped
        exact ⟨kept, later⟩
      | none =>
        obtain ⟨kept, later, -⟩ := sound.next_none popped
        exact ⟨kept, later⟩

end Sound

theorem Run.sound {s : Scheduler E} {l : Ledger E} (run : Run s l) : Sound s l := by
  induction run with
  | start => exact Sound.start
  | step run op done ih => exact (ih.step done).1

def drain : Nat → Scheduler E → List (Entry E)
  | 0, _ => []
  | fuel + 1, s =>
      match s.next with
      | (some entry, s) => entry :: drain fuel s
      | (none, _) => []

theorem Ledger.live_handed {l : Ledger E} {entry e : Entry E} :
    ({ l with fired := l.fired ++ [entry] } : Ledger E).Live e ↔ l.Live e ∧ e ≠ entry := by
  simp only [Live, List.mem_append, List.mem_singleton, not_or]
  tauto

theorem Sound.drain {s : Scheduler E} {l : Ledger E} (sound : Sound s l) {fuel : Nat}
    (enough : s.queue.length ≤ fuel) :
    (drain fuel s).Pairwise Entry.Before ∧ ∀ e, e ∈ drain fuel s ↔ l.Live e := by
  induction fuel generalizing s l with
  | zero =>
    have empty := List.eq_nil_of_length_eq_zero (Nat.le_zero.mp enough)
    refine ⟨List.Pairwise.nil, fun e => iff_of_false List.not_mem_nil ?_⟩
    intro live
    have queued := ((sound.live_iff e).mp live).1
    rw [empty] at queued
    exact List.not_mem_nil queued
  | succ fuel ih =>
    rw [Scheduler.drain]
    split
    · next entry t popped =>
      obtain ⟨later, -, -, live, least, shorter⟩ := sound.next_some popped
      obtain ⟨ordered, members⟩ := ih later (by omega)
      constructor
      · apply List.pairwise_cons.mpr
        refine ⟨?_, ordered⟩
        intro e member
        obtain ⟨still, differs⟩ := Ledger.live_handed.mp ((members e).mp member)
        exact least e still differs
      · intro e
        rw [List.mem_cons, members, Ledger.live_handed]
        constructor
        · rintro (rfl | both)
          · exact live
          · exact both.1
        · intro still
          by_cases same : e = entry
          · exact .inl same
          · exact .inr ⟨still, same⟩
    · next t popped =>
      have none_ := (sound.next_none popped).2.2
      exact ⟨List.Pairwise.nil, fun e => iff_of_false List.not_mem_nil (none_ e)⟩

-- After any operations: what was handed out is in order and was scheduled; no operation moves the clock back;
-- `next` hands out the least of the live entries, and none only if none is left; and taking `next` until then
-- hands out every live entry once, in order.
theorem Run.in_order {s : Scheduler E} {l : Ledger E} (run : Run s l) :
    (l.fired.Pairwise Entry.Before ∧ ∀ e ∈ l.fired, e ∈ l.scheduled) ∧
    (∀ op answer s', s.step op = some (answer, s') → s.now ≤ s'.now) ∧
    (∀ e s', s.next = (some e, s') →
      l.Live e ∧ s'.now = e.time ∧ ∀ other, l.Live other → other ≠ e → e.Before other) ∧
    (∀ s', s.next = (none, s') → ∀ e, ¬ l.Live e) ∧
    (drain s.queue.length s).Pairwise Entry.Before ∧ ∀ e, e ∈ drain s.queue.length s ↔ l.Live e := by
  have sound := run.sound
  refine ⟨⟨sound.inOrder, fun e fired => (sound.handed e fired).1⟩, ?_, ?_, ?_, sound.drain le_rfl⟩
  · intro op answer s' done
    exact (sound.step done).2
  · intro e s' popped
    obtain ⟨-, -, now, live, least, -⟩ := sound.next_some popped
    exact ⟨live, now, least⟩
  · intro s' popped
    exact (sound.next_none popped).2.2

end Scheduler

end SimKv
