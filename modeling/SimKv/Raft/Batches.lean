import SimKv.Raft.Ledger

set_option autoImplicit false

/-!
# When a batch is on disk

What the persister reports, told from the calls that have been made on it.
-/

namespace SimKv

def BatchEvent.asksFor (id : Nat) : BatchEvent → Nat
  | .needSync other _ => if other = id then 1 else 0
  | _ => 0

def BatchEvent.isDone : BatchEvent → Bool
  | .done .. => true
  | _ => false

namespace Persister

inductive Call where
  | start (action : Persist)
  | noteWrite (id : Nat) (op : OpId)
  | noteFile (id : Nat) (file : FileId)
  | noteHardState (id : Nat) (hs : HardState)
  | noteSync (id : Nat) (op : OpId)
  | complete (op : OpId) (ok : Bool)
  | clampAll (cap : Nat)
  deriving DecidableEq, Repr

variable (p : Persister)

def call : Call → Persister
  | .start action => p.start action
  | .noteWrite id op => p.noteWrite id op
  | .noteFile id file => p.noteFile id file
  | .noteHardState id hs => p.noteHardState id hs
  | .noteSync id op => p.noteSync id op
  | .complete op ok => (p.onComplete op ok).2
  | .clampAll cap => p.clampAll cap

def report : Call → BatchEvent
  | .complete op ok => (p.onComplete op ok).1
  | _ => .nothing

def after : List Call → Persister
  | [] => {}
  | c :: past => (after past).call c

def started : List Call → Nat
  | [] => 0
  | .start _ :: past => started past + 1
  | _ :: past => started past

def noted (op : OpId) : List Call → Option (Nat × OpKind)
  | [] => none
  | .noteWrite id other :: past => if other = op then some (id, .write) else noted op past
  | .noteSync id other :: past => if other = op then some (id, .sync) else noted op past
  | _ :: past => noted op past

def outcome (op : OpId) : List Call → Option Bool
  | [] => none
  | .complete other ok :: past =>
    (outcome op past).or (if other = op ∧ (noted op past).isSome then some ok else none)
  | _ :: past => outcome op past

def given (id : Nat) : List Call → Option Persist
  | [] => none
  | .start action :: past => if started past + 1 = id then some action else given id past
  | .clampAll cap :: past => (given id past).map (Persist.clamp cap)
  | _ :: past => given id past

def givenHard (id : Nat) : List Call → Option HardState
  | [] => none
  | .noteHardState other hs :: past => if other = id then some hs else givenHard id past
  | _ :: past => givenHard id past

def givenFile (id : Nat) : List Call → FileId
  | [] => .wal
  | .noteFile other file :: past => if other = id then file else givenFile id past
  | _ :: past => givenFile id past

def Call.subject (past : List Call) : Call → Option Nat
  | .start _ => some (started past + 1)
  | .noteWrite id _ | .noteFile id _ | .noteHardState id _ | .noteSync id _ => some id
  | .complete op _ => (noted op past).map Prod.fst
  | .clampAll _ => none

def asks (id : Nat) : List Call → Nat
  | [] => 0
  | c :: past => asks id past + ((after past).report c).asksFor id

def syncs (id : Nat) : List Call → Nat
  | [] => 0
  | .noteSync other _ :: past => syncs id past + if other = id then 1 else 0
  | _ :: past => syncs id past

def dones (id : Nat) : List Call → Nat
  | [] => 0
  | c :: past =>
    dones id past + if c.subject past = some id ∧ ((after past).report c).isDone then 1 else 0

def Known (id : Nat) (past : List Call) : Prop := 1 ≤ id ∧ id ≤ started past

/-- How the persister is meant to be used. Completions may come in any order, more than once, and for operations
that were never noted. -/
def Allowed (past : List Call) : Call → Prop
  | .start _ | .complete .. | .clampAll _ => True
  | .noteFile id _ | .noteHardState id _ => Known id past
  | .noteWrite id op => Known id past ∧ noted op past = none ∧
      ∀ w, noted w past = some (id, .write) → outcome w past = none
  | .noteSync id op => noted op past = none ∧ syncs id past < asks id past

def Orderly : List Call → Prop
  | [] => True
  | c :: past => Allowed past c ∧ Orderly past

def Confirmed (id : Nat) (past : List Call) : Prop :=
  ∀ w, noted w past = some (id, .write) → outcome w past = some true

def Ripe (id : Nat) (past : List Call) : Prop :=
  (∃ w, noted w past = some (id, .write)) ∧ Confirmed id past

def Open (id : Nat) (past : List Call) : Prop :=
  Known id past ∧ ∀ op kind, noted op past = some (id, kind) →
    outcome op past ≠ some false ∧ (kind = .sync → outcome op past = none)

section History

variable {past : List Call} {op : OpId}

theorem outcome_of_unnoted (unnoted : noted op past = none) : outcome op past = none := by
  induction past with
  | nil => rfl
  | cons c past ih => cases c <;> simp_all [noted, outcome] <;> grind

end History

def batch (id : Nat) : Option Batch := p.batches.find? fun b => b.id = id

section Lookup

variable {p} {op : OpId} {id k : Nat} {kind : OpKind} {b : Batch}

theorem batch_id (found : p.batch id = some b) : b.id = id := by
  simpa using List.find?_some found

theorem batch_modifyBatch {f : Batch → Batch} (same : ∀ b, (f b).id = b.id) :
    (p.modifyBatch id f).batch k = (p.batch k).map fun b => if b.id = id then f b else b := by
  rw [batch, modifyBatch, List.find?_map]
  congr 2
  funext b
  by_cases here : b.id = id <;> simp [here, same]

theorem batch_modifyBatch_self {f : Batch → Batch} (same : ∀ b, (f b).id = b.id) :
    (p.modifyBatch id f).batch id = (p.batch id).map f := by
  rw [batch_modifyBatch same]
  cases found : p.batch id with
  | none => rfl
  | some b => simp [batch_id found]

theorem batch_modifyBatch_other {f : Batch → Batch} (same : ∀ b, (f b).id = b.id) (other : k ≠ id) :
    (p.modifyBatch id f).batch k = p.batch k := by
  rw [batch_modifyBatch same]
  cases found : p.batch k with
  | none => rfl
  | some b => simp [batch_id found, other]

theorem batch_start {action : Persist} (below : p.Ordered) : (p.start action).batch k =
    if p.nextId + 1 = k then some { id := p.nextId + 1, action } else p.batch k := by
  rw [batch, start, List.find?_append]
  split
  · next same =>
    have none : p.batches.find? (fun b => decide (b.id = k)) = none := by
      rw [List.find?_eq_none]
      intro b member
      have := below b member
      simp only [decide_eq_true_eq]
      omega
    simp [none, same]
  · next other => simp [other, batch]

theorem batch_filter {q : Persister} (kept : q.batches = p.batches.filter fun b => b.id ≠ id) :
    q.batch k = if k = id then none else p.batch k := by
  rw [batch, kept, List.find?_filter]
  split
  · next same =>
    rw [List.find?_eq_none]
    simp [same]
  · next other =>
    rw [batch]
    congr 1
    funext b
    by_cases here : b.id = k <;> simp [here, other]

theorem onComplete_stray (absent : ∀ o ∈ p.ops, o.1 ≠ op) (ok : Bool) : p.onComplete op ok = (.nothing, p) := by
  have none : p.ops.find? (fun o => decide (o.1 = op)) = none := by
    rw [List.find?_eq_none]
    simpa using absent
  rw [onComplete, none]

theorem find_op (once : (p.ops.map Prod.fst).Nodup) (held : (op, id, kind) ∈ p.ops) :
    p.ops.find? (fun o => decide (o.1 = op)) = some (op, id, kind) := by
  cases found : p.ops.find? (fun o => decide (o.1 = op)) with
  | none => exact absurd (List.find?_eq_none.mp found _ held) (by simp)
  | some o =>
    have same : o.1 = op := by simpa using List.find?_some found
    rw [List.inj_on_of_nodup_map once (List.mem_of_find?_eq_some found) held same]

theorem onComplete_failed (once : (p.ops.map Prod.fst).Nodup) (held : (op, id, kind) ∈ p.ops) :
    p.onComplete op false = (.failed, { p.without op with batches := p.batches.filter fun b => b.id ≠ id }) := by
  rw [onComplete, find_op once held]
  simp only [eraseP_eq_filter once]
  rfl

theorem onComplete_orphan (once : (p.ops.map Prod.fst).Nodup) (held : (op, id, kind) ∈ p.ops)
    (gone : p.batch id = none) : p.onComplete op true = (.nothing, p.without op) := by
  rw [batch] at gone
  rw [onComplete, find_op once held]
  simp only [eraseP_eq_filter once, Bool.not_true, Bool.false_eq_true, if_false, gone]
  rfl

theorem onComplete_write (once : (p.ops.map Prod.fst).Nodup) (held : (op, id, .write) ∈ p.ops)
    (found : p.batch id = some b) : p.onComplete op true =
      (if b.writesOutstanding - 1 = 0 ∧ b.syncIssued = false then .needSync id b.file else .nothing,
        (p.without op).modifyBatch id Batch.wrote) := by
  rw [batch] at found
  rw [onComplete, find_op once held]
  simp only [eraseP_eq_filter once, Bool.not_true, Bool.false_eq_true, if_false, found, Bool.not_eq_true']
  split <;> rfl

theorem onComplete_sync (once : (p.ops.map Prod.fst).Nodup) (distinct : (p.batches.map Batch.id).Nodup)
    (held : (op, id, .sync) ∈ p.ops) (found : p.batch id = some b) : p.onComplete op true =
      (.done b.action b.hard, { p.without op with batches := p.batches.filter fun b => b.id ≠ id }) := by
  rw [batch] at found
  rw [onComplete, find_op once held]
  simp only [eraseP_eq_filter once, eraseP_eq_filter distinct, Bool.not_true, Bool.false_eq_true, if_false, found]
  rfl

end Lookup

structure Told (ops : List (OpId × Nat × OpKind)) (past : List Call) (b : Batch) : Prop where
  writes : b.writesOutstanding = (ops.filter fun o => o.2 = (b.id, .write)).length
  issued : b.syncIssued = true ↔ 0 < syncs b.id past
  action : given b.id past = some b.action
  hard : b.hard = givenHard b.id past
  file : b.file = givenFile b.id past

structure Booked (past : List Call) (p : Persister) : Prop where
  count : p.nextId = started past
  ordered : p.Ordered
  distinct : (p.batches.map Batch.id).Nodup
  once : (p.ops.map Prod.fst).Nodup
  pending : ∀ op id kind, (op, id, kind) ∈ p.ops ↔ noted op past = some (id, kind) ∧ outcome op past = none
  held : ∀ id, (p.batch id).isSome ↔ Open id past
  told : ∀ id b, p.batch id = some b → Told p.ops past b

structure Timely (past : List Call) : Prop where
  known : ∀ op id kind, noted op past = some (id, kind) → Known id past
  fresh : ∀ id, ¬ Known id past → givenHard id past = none ∧ givenFile id past = .wal
  asked : ∀ id, Ripe id past → asks id past = 1
  unasked : ∀ id, ¬ Ripe id past → asks id past = 0
  synced : ∀ id, syncs id past ≤ asks id past
  noted_sync : ∀ op id, noted op past = some (id, .sync) → 0 < syncs id past
  one_sync : ∀ op op' id, noted op past = some (id, .sync) → noted op' past = some (id, .sync) → op = op'
  done : ∀ id, dones id past ≤ 1
  sealed : ∀ id, 0 < dones id past → ∃ op, noted op past = some (id, .sync) ∧ outcome op past = some true

variable {p} {past : List Call} {op w : OpId} {id k : Nat} {kind : OpKind} {ok : Bool}

def Waits (op : OpId) (id : Nat) (kind : OpKind) (past : List Call) : Prop :=
  noted op past = some (id, kind) ∧ outcome op past = none

theorem outcome_same (waits : Waits op id kind past) : outcome op (.complete op ok :: past) = some ok := by
  rw [outcome, waits.2, waits.1]
  simp

theorem outcome_other (other : w ≠ op) : outcome w (.complete op ok :: past) = outcome w past := by
  rw [outcome, if_neg (by simp [other.symm]), Option.or_none]

-- A completion that nobody waits for changes nothing.
theorem outcome_stray (stray : ∀ id kind, ¬ Waits op id kind past) :
    outcome w (.complete op ok :: past) = outcome w past := by
  by_cases same : w = op
  · subst same
    rw [outcome]
    cases ended : outcome w past with
    | some ok' => rfl
    | none =>
      have unnoted : noted w past = none := by
        cases found : noted w past with
        | none => rfl
        | some entry => exact absurd ⟨found, ended⟩ (stray entry.1 entry.2)
      simp [unnoted]
  · exact outcome_other same

theorem Timely.waits_write (timely : Timely past) (waits : Waits op id .write past) :
    ¬ Ripe id past ∧ asks id past = 0 ∧ syncs id past = 0 := by
  have unripe : ¬ Ripe id past := fun ripe => by simpa [waits.2] using ripe.2 op waits.1
  have unasked := timely.unasked id unripe
  exact ⟨unripe, unasked, Nat.le_zero.mp (unasked ▸ timely.synced id)⟩

theorem Timely.sync_ripe (timely : Timely past) (noted_sync : noted op past = some (id, .sync)) : Ripe id past := by
  by_contra unripe
  have some := timely.noted_sync op id noted_sync
  have unasked := timely.unasked id unripe
  have := timely.synced id
  omega

-- A batch whose write is still to come is open, unless one of its writes has failed.
theorem Timely.open_or_failed (timely : Timely past) (waits : Waits op id .write past) :
    Open id past ∨ ∃ w, noted w past = some (id, .write) ∧ outcome w past = some false := by
  by_cases failed : ∃ w, noted w past = some (id, .write) ∧ outcome w past = some false
  · exact .inr failed
  · refine .inl ⟨timely.known _ _ _ waits.1, fun w kind found => ?_⟩
    cases kind with
    | write => exact ⟨fun ended => failed ⟨w, found, ended⟩, OpKind.noConfusion⟩
    | sync => exact absurd (timely.sync_ripe found) (timely.waits_write waits).1

-- A sync that is still to come belongs to an open batch.
theorem Timely.open_of_sync (timely : Timely past) (waits : Waits op id .sync past) : Open id past := by
  refine ⟨timely.known _ _ _ waits.1, fun w kind found => ?_⟩
  cases kind with
  | write => exact ⟨by simp [(timely.sync_ripe waits.1).2 w found], OpKind.noConfusion⟩
  | sync =>
    obtain rfl := timely.one_sync w op id found waits.1
    exact ⟨by simp [waits.2], fun _ => waits.2⟩

theorem ripe_congr {past' : List Call}
    (same : ∀ w, noted w past' = some (id, .write) ↔ noted w past = some (id, .write))
    (ended : ∀ w, noted w past = some (id, .write) → outcome w past' = outcome w past) :
    Ripe id past' ↔ Ripe id past := by
  simp only [Ripe, Confirmed, same]
  refine and_congr_right fun _ => forall_congr' fun w => ?_
  exact forall_congr' fun found => by rw [ended w found]

theorem open_congr {past' : List Call} (known : Known id past' ↔ Known id past)
    (same : ∀ w kind, noted w past' = some (id, kind) ↔ noted w past = some (id, kind))
    (ended : ∀ w kind, noted w past = some (id, kind) → outcome w past' = outcome w past) :
    Open id past' ↔ Open id past := by
  simp only [Open, known, same]
  refine and_congr_right fun _ => forall_congr' fun w => forall_congr' fun kind => ?_
  exact forall_congr' fun found => by rw [ended w kind found]

theorem Timely.unknown (timely : Timely past) (unknown : ¬ Known id past) : ¬ Ripe id past ∧ syncs id past = 0 := by
  have unripe : ¬ Ripe id past := by
    rintro ⟨⟨w, found⟩, _⟩
    exact unknown (timely.known _ _ _ found)
  exact ⟨unripe, Nat.le_zero.mp (timely.unasked id unripe ▸ timely.synced id)⟩

theorem known_start {action : Persist} (other : started past + 1 ≠ id) :
    Known id (.start action :: past) ↔ Known id past := by
  simp only [Known, started]
  omega

theorem Booked.start (booked : Booked past p) (timely : Timely past) (action : Persist) :
    Booked (.start action :: past) (p.start action) := by
  have newest : ¬ Known (p.nextId + 1) past := by
    rw [booked.count, Known]
    omega
  constructor
  case count => exact congrArg (· + 1) booked.count
  case ordered =>
    intro b member
    obtain old | rfl := List.mem_append.mp member |>.imp_right List.mem_singleton.mp
    · exact (booked.ordered b old).trans (Nat.le_succ _)
    · exact le_rfl
  case distinct =>
    rw [Persister.start, List.map_append, List.nodup_append]
    refine ⟨booked.distinct, List.nodup_singleton _, ?_⟩
    rintro old member new last rfl
    obtain ⟨b, inside, rfl⟩ := List.mem_map.mp member
    have := booked.ordered b inside
    have : b.id = p.nextId + 1 := List.mem_singleton.mp last
    omega
  case once => exact booked.once
  case pending => exact booked.pending
  case held =>
    intro id
    rw [batch_start booked.ordered]
    split
    · next new =>
      subst new
      refine iff_of_true rfl ⟨⟨Nat.succ_pos _, ?_⟩, fun op kind found => ?_⟩
      · rw [started, booked.count]
      · exact absurd (timely.known _ _ _ found) newest
    · next other =>
      rw [booked.held, open_congr (known_start (booked.count ▸ other)) (fun _ _ => .rfl) fun _ _ _ => rfl]
  case told =>
    intro id b found
    rw [batch_start booked.ordered] at found
    split at found
    · cases found
      obtain ⟨_, unsynced⟩ := timely.unknown newest
      obtain ⟨noHard, walFile⟩ := timely.fresh _ newest
      have none : p.ops.filter (fun o => decide (o.2 = (p.nextId + 1, .write))) = [] := by
        rw [List.filter_eq_nil_iff]
        rintro ⟨w, id, kind⟩ inside same
        rw [decide_eq_true_eq, Prod.mk.injEq] at same
        exact newest (same.1 ▸ timely.known _ _ _ ((booked.pending _ _ _).mp inside).1)
      constructor
      · exact (List.length_eq_zero_iff.mpr none).symm
      · simp [syncs, unsynced]
      · simp [given, booked.count]
      · exact noHard.symm
      · exact walFile.symm
    · next other =>
      have told := booked.told id b found
      have elsewhere : started past + 1 ≠ b.id := by rwa [batch_id found, ← booked.count]
      refine ⟨told.writes, told.issued, ?_, told.hard, told.file⟩
      rw [given, if_neg elsewhere]
      exact told.action

theorem asks_quiet {c : Call} (quiet : (after past).report c = .nothing) : asks id (c :: past) = asks id past := by
  rw [asks, quiet]
  rfl

theorem dones_quiet {c : Call} (quiet : ((after past).report c).isDone = false) :
    dones id (c :: past) = dones id past := by
  rw [dones, quiet]
  simp

-- A call that reports nothing and concerns no operation.
theorem Timely.quiet (timely : Timely past) {c : Call} (quiet : (after past).report c = .nothing)
    (notes : ∀ op, noted op (c :: past) = noted op past) (ends : ∀ op, outcome op (c :: past) = outcome op past)
    (same : ∀ id, syncs id (c :: past) = syncs id past) (onward : ∀ id, Known id past → Known id (c :: past))
    (fresh : ∀ id, ¬ Known id (c :: past) → givenHard id (c :: past) = none ∧ givenFile id (c :: past) = .wal) :
    Timely (c :: past) := by
  have ripe : ∀ id, Ripe id (c :: past) ↔ Ripe id past :=
    fun id => ripe_congr (fun w => by rw [notes]) fun w _ => ends w
  have unsung : ((after past).report c).isDone = false := by rw [quiet]; rfl
  constructor
  case known => exact fun op id kind found => onward id (timely.known op id kind (notes op ▸ found))
  case fresh => exact fresh
  case asked => exact fun id here => (asks_quiet quiet).trans (timely.asked id ((ripe id).mp here))
  case unasked => exact fun id here => (asks_quiet quiet).trans (timely.unasked id fun old => here ((ripe id).mpr old))
  case synced => exact fun id => by rw [same, asks_quiet quiet]; exact timely.synced id
  case noted_sync => exact fun op id found => by rw [same]; exact timely.noted_sync op id (notes op ▸ found)
  case one_sync =>
    intro op op' id found found'
    rw [notes] at found found'
    exact timely.one_sync op op' id found found'
  case done => exact fun id => (dones_quiet unsung).trans_le (timely.done id)
  case sealed =>
    intro id here
    obtain ⟨op, found, ended⟩ := timely.sealed id (dones_quiet unsung ▸ here)
    exact ⟨op, (notes op).trans found, (ends op).trans ended⟩

theorem Timely.start (timely : Timely past) (action : Persist) : Timely (.start action :: past) := by
  have onward : ∀ id, Known id past → Known id (.start action :: past) :=
    fun id known => ⟨known.1, known.2.trans (Nat.le_succ _)⟩
  exact timely.quiet rfl (fun _ => rfl) (fun _ => rfl) (fun _ => rfl) onward
    fun id unknown => timely.fresh id fun known => unknown (onward id known)

-- A batch is edited, and one of its operations noted.
theorem Booked.note (booked : Booked past p) {c : Call} {f : Batch → Batch} (same : ∀ b, (f b).id = b.id)
    (fresh : noted op past = none) (counted : started (c :: past) = started past)
    (notes : ∀ w, noted w (c :: past) = if op = w then some (id, kind) else noted w past)
    (ends : ∀ w, outcome w (c :: past) = outcome w past)
    (others : ∀ b, b.id ≠ id → Told p.ops past b → Told (p.ops ++ [(op, id, kind)]) (c :: past) b)
    (told : ∀ b, b.id = id → Told p.ops past b → Told (p.ops ++ [(op, id, kind)]) (c :: past) (f b)) :
    Booked (c :: past) { p.modifyBatch id f with ops := p.ops ++ [(op, id, kind)] } := by
  have unended := outcome_of_unnoted fresh
  have absent : ∀ o ∈ p.ops, o.1 ≠ op := by
    rintro o member rfl
    have := (booked.pending o.1 o.2.1 o.2.2).mp member
    rw [fresh] at this
    exact absurd this.1 (Option.some_ne_none _).symm
  constructor
  case count => exact booked.count.trans counted.symm
  case ordered =>
    intro b member
    obtain ⟨old, inside, rfl⟩ := List.mem_map.mp member
    split
    · exact (same old).trans_le (booked.ordered old inside)
    · exact booked.ordered old inside
  case distinct =>
    change ((p.modifyBatch id f).batches.map Batch.id).Nodup
    rw [map_id_modifyBatch same]
    exact booked.distinct
  case once =>
    change ((p.ops ++ [(op, id, kind)]).map Prod.fst).Nodup
    rw [List.map_append, List.nodup_append]
    refine ⟨booked.once, List.nodup_singleton _, ?_⟩
    rintro old member new last rfl
    obtain ⟨o, inside, rfl⟩ := List.mem_map.mp member
    exact absent o inside (List.mem_singleton.mp last)
  case pending =>
    intro w k kind'
    rw [List.mem_append, List.mem_singleton, notes, ends, booked.pending]
    split
    · next here =>
      subst here
      rw [fresh, unended]
      simp [eq_comm]
    · next elsewhere => simp [Ne.symm elsewhere]
  case held =>
    intro k
    change ((p.modifyBatch id f).batch k).isSome ↔ _
    rw [batch_modifyBatch same, Option.isSome_map, booked.held]
    simp only [Open, Known, counted, ends, notes]
    refine and_congr_right fun _ => forall_congr' fun w => forall_congr' fun kind' => ?_
    split
    · next here => simp [← here, unended, fresh]
    · rfl
  case told =>
    intro k b found
    change (p.modifyBatch id f).batch k = some b at found
    by_cases here : k = id
    · subst here
      rw [batch_modifyBatch_self same] at found
      obtain ⟨old, here, rfl⟩ := Option.map_eq_some_iff.mp found
      exact told old (batch_id here) (booked.told k old here)
    · rw [batch_modifyBatch_other same here] at found
      exact others b (by rwa [batch_id found]) (booked.told k b found)

theorem Booked.noteWrite (booked : Booked past p) (fresh : noted op past = none) (id : Nat) :
    Booked (.noteWrite id op :: past) (p.noteWrite id op) := by
  refine booked.note (f := fun b => { b with writesOutstanding := b.writesOutstanding + 1 }) (fun _ => rfl) fresh rfl
    (fun _ => rfl) (fun _ => rfl) ?others ?told
  case others =>
    intro b other told
    refine ⟨?_, told.issued, told.action, told.hard, told.file⟩
    rw [told.writes, List.filter_append]
    simp [Ne.symm other]
  case told =>
    intro b here told
    refine ⟨?_, told.issued, told.action, told.hard, told.file⟩
    rw [told.writes, List.filter_append]
    simp [here]

theorem Booked.noteSync (booked : Booked past p) (fresh : noted op past = none) (id : Nat) :
    Booked (.noteSync id op :: past) (p.noteSync id op) := by
  refine booked.note (f := fun b => { b with syncIssued := true }) (fun _ => rfl) fresh rfl (fun _ => rfl)
    (fun _ => rfl) ?others ?told
  case others =>
    intro b other told
    refine ⟨?_, ?_, told.action, told.hard, told.file⟩
    · rw [told.writes, List.filter_append]
      simp
    · rw [syncs, if_neg (Ne.symm other)]
      exact told.issued
  case told =>
    intro b here told
    refine ⟨?_, ?_, told.action, told.hard, told.file⟩
    · rw [told.writes, List.filter_append]
      simp
    · simp [syncs, here]

-- A batch is told something else about itself.
theorem Booked.amend (booked : Booked past p) {c : Call} {f : Nat → Batch → Batch}
    (same : ∀ k b, (f k b).id = b.id) (counted : started (c :: past) = started past)
    (notes : ∀ w, noted w (c :: past) = noted w past) (ends : ∀ w, outcome w (c :: past) = outcome w past)
    {q : Persister} (books : q.nextId = p.nextId) (ops : q.ops = p.ops)
    (batches : q.batches = p.batches.map fun b => f b.id b)
    (told : ∀ b, Told p.ops past b → Told p.ops (c :: past) (f b.id b)) : Booked (c :: past) q := by
  have opens : ∀ k, Open k (c :: past) ↔ Open k past :=
    fun k => open_congr (by rw [Known, counted, Known]) (fun w _ => by rw [notes]) fun w _ _ => ends w
  have lookup : ∀ k, q.batch k = (p.batch k).map fun b => f b.id b := by
    intro k
    rw [batch, batches, List.find?_map]
    congr 2
    funext b
    simp [same]
  constructor
  case count => rw [books, counted, booked.count]
  case ordered =>
    intro b member
    rw [batches] at member
    obtain ⟨old, inside, rfl⟩ := List.mem_map.mp member
    rw [same, books]
    exact booked.ordered old inside
  case distinct =>
    have ids : q.batches.map Batch.id = p.batches.map Batch.id := by
      rw [batches, List.map_map]
      exact List.map_congr_left fun b _ => same _ b
    exact ids ▸ booked.distinct
  case once => exact ops ▸ booked.once
  case pending =>
    intro w k kind'
    rw [ops, notes, ends]
    exact booked.pending w k kind'
  case held => exact fun k => by rw [lookup, Option.isSome_map, booked.held, opens]
  case told =>
    intro k b found
    rw [lookup] at found
    obtain ⟨old, here, rfl⟩ := Option.map_eq_some_iff.mp found
    exact ops ▸ told old (booked.told k old here)

theorem Booked.noteFile (booked : Booked past p) (id : Nat) (file : FileId) :
    Booked (.noteFile id file :: past) (p.noteFile id file) := by
  refine booked.amend (q := p.noteFile id file) (f := fun k b => if k = id then { b with file } else b)
    (by intro k b; split <;> rfl) rfl (fun _ => rfl) (fun _ => rfl) rfl rfl rfl fun b told => ?_
  split
  · next here => exact ⟨told.writes, told.issued, told.action, told.hard, (if_pos here.symm).symm⟩
  · next other =>
    refine ⟨told.writes, told.issued, told.action, told.hard, ?_⟩
    rw [givenFile, if_neg (Ne.symm other)]
    exact told.file

theorem Booked.noteHardState (booked : Booked past p) (id : Nat) (hs : HardState) :
    Booked (.noteHardState id hs :: past) (p.noteHardState id hs) := by
  refine booked.amend (q := p.noteHardState id hs) (f := fun k b => if k = id then { b with hard := some hs } else b)
    (by intro k b; split <;> rfl) rfl (fun _ => rfl) (fun _ => rfl) rfl rfl rfl fun b told => ?_
  split
  · next here => exact ⟨told.writes, told.issued, told.action, (if_pos here.symm).symm, told.file⟩
  · next other =>
    refine ⟨told.writes, told.issued, told.action, ?_, told.file⟩
    rw [givenHard, if_neg (Ne.symm other)]
    exact told.hard

theorem Booked.clampAll (booked : Booked past p) (cap : Nat) :
    Booked (.clampAll cap :: past) (p.clampAll cap) := by
  refine booked.amend (f := fun _ b => { b with action := b.action.clamp cap }) (fun _ _ => rfl) rfl (fun _ => rfl)
    (fun _ => rfl) rfl rfl rfl fun b told => ?_
  refine ⟨told.writes, told.issued, ?_, told.hard, told.file⟩
  rw [given, told.action]
  rfl

theorem noted_note {c : Call} (notes : ∀ w, noted w (c :: past) = if op = w then some (id, kind) else noted w past)
    (fresh : noted op past = none) (w : OpId) (k : Nat) (kind' : OpKind) :
    noted w (c :: past) = some (k, kind') ↔ noted w past = some (k, kind') ∨ w = op ∧ k = id ∧ kind' = kind := by
  rw [notes]
  split
  · next same =>
    rw [← same, fresh]
    simp [eq_comm]
  · next differs => simp [Ne.symm differs]

theorem Timely.noteWrite (timely : Timely past) (known : Known id past) (fresh : noted op past = none)
    (first : ∀ w, noted w past = some (id, .write) → outcome w past = none) :
    Timely (.noteWrite id op :: past) := by
  have unended := outcome_of_unnoted fresh
  have notes := noted_note (c := .noteWrite id op) (fun _ => rfl) fresh
  have syncsSame : ∀ w k, noted w (.noteWrite id op :: past) = some (k, .sync) ↔ noted w past = some (k, .sync) := by
    intro w k
    rw [notes]
    simp
  have unripe : ¬ Ripe id past := by
    rintro ⟨⟨w, found⟩, confirmed⟩
    simpa [confirmed w found] using first w found
  have unripeNow : ¬ Ripe id (.noteWrite id op :: past) := by
    rintro ⟨_, confirmed⟩
    have := confirmed op ((notes op id .write).mpr (.inr ⟨rfl, rfl, rfl⟩))
    change outcome op past = some true at this
    rw [unended] at this
    cases this
  have ripe : ∀ k, Ripe k (.noteWrite id op :: past) ↔ Ripe k past := by
    intro k
    by_cases same : k = id
    · subst same
      exact iff_of_false unripeNow unripe
    · refine ripe_congr (fun w => ?_) fun w _ => rfl
      rw [notes]
      simp [same]
  constructor
  case known =>
    intro w k kind found
    obtain old | ⟨_, rfl, _⟩ := (notes w k kind).mp found
    · exact timely.known w k kind old
    · exact known
  case fresh => exact timely.fresh
  case asked => exact fun k here => timely.asked k ((ripe k).mp here)
  case unasked => exact fun k here => timely.unasked k fun old => here ((ripe k).mpr old)
  case synced => exact timely.synced
  case noted_sync => exact fun w k found => timely.noted_sync w k ((syncsSame w k).mp found)
  case one_sync =>
    exact fun w w' k found found' => timely.one_sync w w' k ((syncsSame w k).mp found) ((syncsSame w' k).mp found')
  case done => exact fun k => (dones_quiet rfl).trans_le (timely.done k)
  case sealed =>
    intro k here
    obtain ⟨w, found, ended⟩ := timely.sealed k (dones_quiet (c := .noteWrite id op) rfl ▸ here)
    exact ⟨w, (syncsSame w k).mpr found, ended⟩

theorem Timely.noteSync (timely : Timely past) (fresh : noted op past = none) (owed : syncs id past < asks id past) :
    Timely (.noteSync id op :: past) := by
  have notes := noted_note (c := .noteSync id op) (fun _ => rfl) fresh
  have ready : Ripe id past := by
    by_contra unripe
    have := timely.unasked id unripe
    omega
  have asked := timely.asked id ready
  have ripe : ∀ k, Ripe k (.noteSync id op :: past) ↔ Ripe k past := by
    intro k
    refine ripe_congr (fun w => ?_) fun w _ => rfl
    rw [notes]
    simp
  have unsynced : ∀ w, noted w past ≠ some (id, .sync) := by
    intro w found
    have := timely.noted_sync w id found
    omega
  constructor
  case known =>
    intro w k kind found
    obtain old | ⟨_, rfl, _⟩ := (notes w k kind).mp found
    · exact timely.known w k kind old
    · obtain ⟨w, write⟩ := ready.1
      exact timely.known w _ _ write
  case fresh => exact timely.fresh
  case asked => exact fun k here => timely.asked k ((ripe k).mp here)
  case unasked => exact fun k here => timely.unasked k fun old => here ((ripe k).mpr old)
  case synced =>
    intro k
    change syncs k past + (if id = k then 1 else 0) ≤ asks k past
    split
    · next same =>
      subst same
      exact owed
    · exact timely.synced k
  case noted_sync =>
    intro w k found
    change 0 < syncs k past + (if id = k then 1 else 0)
    obtain old | ⟨_, rfl, _⟩ := (notes w k _).mp found
    · exact Nat.add_pos_left (timely.noted_sync w k old) _
    · rw [if_pos rfl]
      exact Nat.succ_pos _
  case one_sync =>
    intro w w' k found found'
    obtain old | ⟨rfl, rfl, _⟩ := (notes w k _).mp found
    · obtain old' | ⟨_, rfl, _⟩ := (notes w' k _).mp found'
      · exact timely.one_sync w w' k old old'
      · exact absurd old (unsynced w)
    · obtain old' | ⟨rfl, _⟩ := (notes w' k _).mp found'
      · exact absurd old' (unsynced w')
      · rfl
  case done => exact fun k => (dones_quiet rfl).trans_le (timely.done k)
  case sealed =>
    intro k here
    obtain ⟨w, found, ended⟩ := timely.sealed k (dones_quiet (c := .noteSync id op) rfl ▸ here)
    exact ⟨w, (notes w k _).mpr (.inl found), ended⟩

theorem outcome_onward {c : Call} {ended : Bool} (before : outcome w past = some ended) :
    outcome w (c :: past) = some ended := by
  cases c with
  | complete op ok => rw [outcome, before, Option.some_or]
  | _ => exact before

theorem waits_complete (waits : Waits op id kind past) {kind' : OpKind} :
    Waits w k kind' (.complete op ok :: past) ↔ Waits w k kind' past ∧ w ≠ op := by
  by_cases same : w = op
  · subst same
    simp [Waits, outcome_same waits]
  · simp [Waits, outcome_other same, same, noted]

-- What an operation that is not the batch's own leaves of its writes.
theorem writes_without (booked : Booked past p) (waits : Waits op id kind past) (other : k ≠ id) :
    (p.without op).ops.filter (fun o => decide (o.2 = (k, .write))) =
      p.ops.filter fun o => decide (o.2 = (k, .write)) := by
  rw [without, List.filter_filter]
  apply List.filter_congr
  rintro ⟨w, k', kind'⟩ member
  by_cases same : w = op
  · subst same
    obtain ⟨found, _⟩ := (booked.pending _ _ _).mp member
    rw [waits.1, Option.some.injEq, Prod.mk.injEq] at found
    simp [← found.1, other.symm]
  · simp [same]

theorem writes_left (booked : Booked past p) (waits : Waits op id .write past) :
    (p.ops.filter fun o => decide (o.2 = (id, .write))).length =
      ((p.without op).ops.filter fun o => decide (o.2 = (id, .write))).length + 1 := by
  have once : ((p.ops.filter fun o => decide (o.2 = (id, .write))).map Prod.fst).Nodup :=
    booked.once.sublist (List.filter_sublist.map _)
  have member : (op, id, OpKind.write) ∈ p.ops.filter fun o => decide (o.2 = (id, .write)) :=
    List.mem_filter.mpr ⟨(booked.pending _ _ _).mpr waits, by simp⟩
  have fewer : (p.without op).ops.filter (fun o => decide (o.2 = (id, .write))) =
      (p.ops.filter fun o => decide (o.2 = (id, .write))).eraseP fun o => o.1 = op := by
    rw [eraseP_eq_filter once, without, List.filter_filter, List.filter_filter]
    apply List.filter_congr
    intro o _
    exact Bool.and_comm _ _
  rw [fewer, List.length_eraseP_of_mem member (by simp)]
  have := List.length_pos_of_mem member
  omega

theorem pending_without (booked : Booked past p) (waits : Waits op id kind past) (w : OpId) (k : Nat)
    (kind' : OpKind) : (w, k, kind') ∈ (p.without op).ops ↔ Waits w k kind' (.complete op ok :: past) := by
  rw [waits_complete waits, without, List.mem_filter, booked.pending, Waits]
  simp

-- A batch of which an operation has failed, or the sync has completed, is struck off.
theorem Booked.close (booked : Booked past p) (waits : Waits op id kind past)
    (shut : ¬ Open id (.complete op ok :: past)) : Booked (.complete op ok :: past)
      { p.without op with batches := p.batches.filter fun b => b.id ≠ id } := by
  have fewer : (p.batches.filter fun b => b.id ≠ id).Sublist p.batches := List.filter_sublist
  have elsewhere : ∀ k ≠ id, (Open k (.complete op ok :: past) ↔ Open k past) := by
    intro k other
    refine open_congr .rfl (fun _ _ => .rfl) fun w kind' found => outcome_other ?_
    rintro rfl
    rw [waits.1, Option.some.injEq, Prod.mk.injEq] at found
    exact other found.1.symm
  constructor
  case count => exact booked.count
  case ordered => exact fun b member => booked.ordered b (fewer.subset member)
  case distinct => exact booked.distinct.sublist (fewer.map _)
  case once => exact booked.once.sublist (List.filter_sublist.map _)
  case pending => exact pending_without booked waits
  case held =>
    intro k
    rw [@batch_filter p id k _ rfl]
    split
    · next same =>
      subst same
      simp [shut]
    · next other => rw [booked.held, elsewhere k other]
  case told =>
    intro k b found
    rw [@batch_filter p id k _ rfl] at found
    split at found
    · cases found
    · next other =>
      obtain ⟨writes, issued, action, hard, file⟩ := booked.told k b found
      refine ⟨?_, issued, action, hard, file⟩
      change b.writesOutstanding = ((p.without op).ops.filter _).length
      rw [writes_without booked waits (by rwa [batch_id found])]
      exact writes

-- A write of an open batch has succeeded.
theorem Booked.wrote (booked : Booked past p) (waits : Waits op id .write past) :
    Booked (.complete op true :: past) ((p.without op).modifyBatch id Batch.wrote) := by
  have opens : ∀ k, Open k (.complete op true :: past) ↔ Open k past := by
    intro k
    refine and_congr_right fun _ => forall_congr' fun w => forall_congr' fun kind => ?_
    refine forall_congr' fun found => ?_
    by_cases same : w = op
    · subst same
      have write := waits.1
      change noted w past = some (k, kind) at found
      rw [found, Option.some.injEq, Prod.mk.injEq] at write
      simp [outcome_same waits, waits.2, write.2]
    · rw [outcome_other same]
  constructor
  case count => exact booked.count
  case ordered =>
    intro b member
    obtain ⟨old, inside, rfl⟩ := List.mem_map.mp member
    split <;> exact booked.ordered old inside
  case distinct =>
    rw [map_id_modifyBatch (f := Batch.wrote) fun _ => rfl]
    exact booked.distinct
  case once => exact booked.once.sublist (List.filter_sublist.map _)
  case pending => exact pending_without booked waits
  case held =>
    intro k
    rw [batch_modifyBatch (f := Batch.wrote) fun _ => rfl, Option.isSome_map, opens]
    exact booked.held k
  case told =>
    intro k b found
    by_cases same : k = id
    · subst same
      rw [batch_modifyBatch_self (f := Batch.wrote) fun _ => rfl] at found
      obtain ⟨old, here, rfl⟩ := Option.map_eq_some_iff.mp found
      obtain ⟨writes, issued, action, hard, file⟩ := booked.told k old here
      refine ⟨?_, issued, action, hard, file⟩
      have fewer := writes_left booked waits
      rw [batch_id here] at writes
      change old.writesOutstanding - 1 = ((p.without op).ops.filter fun o => decide (o.2 = (old.id, .write))).length
      rw [batch_id here]
      omega
    · rw [batch_modifyBatch_other (f := Batch.wrote) (fun _ => rfl) same] at found
      obtain ⟨writes, issued, action, hard, file⟩ := booked.told k b found
      refine ⟨?_, issued, action, hard, file⟩
      change b.writesOutstanding = ((p.without op).ops.filter _).length
      rw [writes_without booked waits (by rwa [batch_id found])]
      exact writes

inductive Ending (past : List Call) (p : Persister) (op : OpId) : Bool → BatchEvent × Persister → Prop where
  | stray (ok : Bool) (unknown : ∀ id kind, ¬ Waits op id kind past) : Ending past p op ok (.nothing, p)
  | failed (id : Nat) (kind : OpKind) (waits : Waits op id kind past) : Ending past p op false
      (.failed, { p.without op with batches := p.batches.filter fun b => b.id ≠ id })
  | orphan (id : Nat) (waits : Waits op id .write past) (gone : p.batch id = none) :
      Ending past p op true (.nothing, p.without op)
  | wrote (b : Batch) (id : Nat) (waits : Waits op id .write past) (found : p.batch id = some b) :
      Ending past p op true
        (if b.writesOutstanding - 1 = 0 ∧ b.syncIssued = false then .needSync id b.file else .nothing,
          (p.without op).modifyBatch id Batch.wrote)
  | synced (b : Batch) (id : Nat) (waits : Waits op id .sync past) (found : p.batch id = some b) :
      Ending past p op true
        (.done b.action b.hard, { p.without op with batches := p.batches.filter fun b => b.id ≠ id })

theorem Booked.ending (booked : Booked past p) (timely : Timely past) (op : OpId) (ok : Bool) :
    Ending past p op ok (p.onComplete op ok) := by
  by_cases waiting : ∃ id kind, Waits op id kind past
  · obtain ⟨id, kind, waits⟩ := waiting
    have held := (booked.pending op id kind).mpr waits
    cases ok with
    | false =>
      rw [onComplete_failed booked.once held]
      exact .failed id kind waits
    | true =>
      cases found : p.batch id with
      | none =>
        rw [onComplete_orphan booked.once held found]
        cases kind with
        | write => exact .orphan id waits found
        | sync =>
          have opened := (booked.held id).mpr (timely.open_of_sync waits)
          rw [found] at opened
          cases opened
      | some b =>
        cases kind with
        | write =>
          rw [onComplete_write booked.once held found]
          exact .wrote b id waits found
        | sync =>
          rw [onComplete_sync booked.once booked.distinct held found]
          exact .synced b id waits found
  · have unknown : ∀ id kind, ¬ Waits op id kind past := fun id kind waits => waiting ⟨id, kind, waits⟩
    rw [onComplete_stray]
    · exact .stray ok unknown
    · rintro ⟨w, id, kind⟩ member rfl
      exact unknown id kind ((booked.pending _ _ _).mp member)

-- What was not open before is not open after a completion.
theorem open_before (opened : Open id (.complete op ok :: past)) : Open id past := by
  refine ⟨opened.1, fun w kind found => ⟨fun failed => ?_, fun sync => ?_⟩⟩
  · exact (opened.2 w kind found).1 (outcome_onward failed)
  · cases ended : outcome w past with
    | none => rfl
    | some ok' =>
      have still := (opened.2 w kind found).2 sync
      rw [outcome_onward ended] at still
      cases still

theorem Booked.complete (booked : Booked past p) (timely : Timely past) (op : OpId) (ok : Bool) :
    Booked (.complete op ok :: past) (p.onComplete op ok).2 := by
  have ending := booked.ending timely op ok
  generalize p.onComplete op ok = result at ending ⊢
  cases ending with
  | stray ok unknown =>
    exact booked.amend (f := fun _ b => b) (fun _ _ => rfl) rfl (fun _ => rfl) (fun w => outcome_stray unknown) rfl rfl
      (List.map_id' _).symm fun b told => ⟨told.writes, told.issued, told.action, told.hard, told.file⟩
  | failed id kind waits =>
    exact booked.close waits fun opened => (opened.2 op kind waits.1).1 (outcome_same waits)
  | orphan id waits gone =>
    have none : (p.batches.filter fun b => b.id ≠ id) = p.batches := by
      rw [List.filter_eq_self]
      simpa using List.find?_eq_none.mp gone
    have shut : ¬ Open id (.complete op true :: past) := by
      intro opened
      have held := (booked.held id).mpr (open_before opened)
      rw [gone] at held
      cases held
    have closed := booked.close waits shut
    rw [none] at closed
    exact closed
  | wrote b id waits found => exact booked.wrote waits
  | synced b id waits found =>
    refine booked.close waits fun opened => ?_
    have ended := (opened.2 op .sync waits.1).2 rfl
    rw [outcome_same waits] at ended
    cases ended

-- The last write of an open batch is the one that leaves none outstanding.
theorem Booked.ripe_iff (booked : Booked past p) {b : Batch} (waits : Waits op id .write past)
    (found : p.batch id = some b) : Ripe id (.complete op true :: past) ↔ b.writesOutstanding - 1 = 0 := by
  obtain ⟨_, unfailed⟩ := (booked.held id).mp (by rw [found]; rfl)
  have fewer := writes_left booked waits
  have writes := (booked.told id b found).writes
  rw [batch_id found] at writes
  have count : b.writesOutstanding - 1 = ((p.without op).ops.filter fun o => decide (o.2 = (id, .write))).length := by
    omega
  rw [count, List.length_eq_zero_iff, List.filter_eq_nil_iff]
  constructor
  · rintro ⟨_, confirmed⟩ ⟨w, k, kind⟩ member same
    rw [decide_eq_true_eq] at same
    cases same
    have kept : Waits w id .write (.complete op true :: past) := (pending_without booked waits w id .write).mp member
    obtain ⟨write, pending⟩ := kept
    rw [confirmed w write] at pending
    cases pending
  · intro none
    refine ⟨⟨op, waits.1⟩, fun w write => ?_⟩
    by_cases same : w = op
    · subst same
      exact outcome_same waits
    · change noted w past = some (id, .write) at write
      rw [outcome_other same]
      have pending : outcome w past ≠ Option.none := by
        intro pending
        refine none (w, id, .write) ?_ (by simp)
        have kept : Waits w id .write (.complete op true :: past) := (waits_complete waits).mpr ⟨⟨write, pending⟩, same⟩
        exact (pending_without booked waits w id .write).mpr kept
      have sound := (unfailed w .write write).1
      cases ended : outcome w past with
      | none => exact absurd ended pending
      | some ok => cases ok with
        | true => rfl
        | false => exact absurd ended sound

theorem Timely.ripe_other (waits : Waits op id kind past) (other : k ≠ id ∨ kind = .sync) :
    Ripe k (.complete op ok :: past) ↔ Ripe k past := by
  refine ripe_congr (fun _ => .rfl) fun w write => outcome_other ?_
  rintro rfl
  rw [waits.1, Option.some.injEq, Prod.mk.injEq] at write
  obtain elsewhere | sync := other
  · exact elsewhere write.1.symm
  · rw [sync] at write
    exact OpKind.noConfusion write.2

-- A sync is asked for exactly when the last write of a batch is confirmed.
theorem Booked.asked (booked : Booked past (after past)) (timely : Timely past) (op : OpId) (ok : Bool) (k : Nat) :
    (Ripe k (.complete op ok :: past) → asks k (.complete op ok :: past) = 1) ∧
      (¬ Ripe k (.complete op ok :: past) → asks k (.complete op ok :: past) = 0) := by
  have ending := booked.ending timely op ok
  simp only [asks, report]
  generalize (after past).onComplete op ok = result at ending ⊢
  have settled : (Ripe k (.complete op ok :: past) ↔ Ripe k past) → result.1.asksFor k = 0 →
      (Ripe k (.complete op ok :: past) → asks k past + result.1.asksFor k = 1) ∧
        (¬ Ripe k (.complete op ok :: past) → asks k past + result.1.asksFor k = 0) := by
    intro same quiet
    rw [same, quiet]
    exact ⟨timely.asked k, timely.unasked k⟩
  cases ending with
  | stray ok unknown => exact settled (ripe_congr (fun _ => .rfl) fun w _ => outcome_stray unknown) rfl
  | synced b id waits found => exact settled (Timely.ripe_other waits (.inr rfl)) rfl
  | failed id kind waits =>
    by_cases other : k ≠ id ∨ kind = .sync
    · exact settled (Timely.ripe_other waits other) rfl
    · obtain ⟨rfl, write⟩ := not_or.mp other |>.imp_left not_ne_iff.mp
      have write : kind = .write := by cases kind <;> simp_all
      subst write
      refine settled (iff_of_false (fun ripe => ?_) (timely.waits_write waits).1) rfl
      simpa [outcome_same waits] using ripe.2 op waits.1
  | orphan id waits gone =>
    by_cases other : k ≠ id
    · exact settled (Timely.ripe_other waits (.inl other)) rfl
    · rw [not_ne_iff] at other
      subst other
      refine settled (iff_of_false (fun ripe => ?_) (timely.waits_write waits).1) rfl
      obtain opened | ⟨w, write, failed⟩ := timely.open_or_failed waits
      · have held := (booked.held k).mpr opened
        rw [gone] at held
        cases held
      · simpa [outcome_onward failed] using ripe.2 w write
  | wrote b id waits found =>
    by_cases other : k ≠ id
    · refine settled (Timely.ripe_other waits (.inl other)) ?_
      dsimp only
      split
      · exact if_neg (Ne.symm other)
      · rfl
    · rw [not_ne_iff] at other
      subst other
      obtain ⟨_, unasked, unsynced⟩ := timely.waits_write waits
      have unissued : b.syncIssued = false := by
        have issued := (booked.told k b found).issued
        rw [batch_id found, unsynced] at issued
        simpa using issued
      rw [booked.ripe_iff waits found, unasked]
      dsimp only
      by_cases last : b.writesOutstanding - 1 = 0
      · rw [if_pos ⟨last, unissued⟩]
        simp [last, BatchEvent.asksFor]
      · rw [if_neg fun both => last both.1]
        simp [last, BatchEvent.asksFor]

-- What is reported as done was waiting for its sync, and nothing of it was reported before.
theorem Booked.done_synced (booked : Booked past (after past)) (timely : Timely past)
    (done : ((after past).onComplete op ok).1.isDone = true) :
    ∃ id, Waits op id .sync past ∧ ok = true ∧ dones id past = 0 := by
  have ending := booked.ending timely op ok
  generalize (after past).onComplete op ok = result at ending done
  cases ending with
  | synced b id waits found =>
    refine ⟨id, waits, rfl, ?_⟩
    by_contra some
    obtain ⟨w, sync, ended⟩ := timely.sealed id (Nat.pos_of_ne_zero some)
    rw [timely.one_sync w op id sync waits.1, waits.2] at ended
    cases ended
  | wrote b id waits found =>
    dsimp only at done
    split at done <;> cases done
  | stray | failed | orphan => cases done

theorem Timely.complete (timely : Timely past) (booked : Booked past (after past)) (op : OpId) (ok : Bool) :
    Timely (.complete op ok :: past) := by
  have subject : ∀ k, dones k (.complete op ok :: past) = dones k past +
      if (noted op past).map Prod.fst = some k ∧ ((after past).onComplete op ok).1.isDone then 1 else 0 :=
    fun _ => rfl
  constructor
  case known => exact timely.known
  case fresh => exact timely.fresh
  case asked => exact fun k => (booked.asked timely op ok k).1
  case unasked => exact fun k => (booked.asked timely op ok k).2
  case synced => exact fun k => (timely.synced k).trans (Nat.le_add_right _ _)
  case noted_sync => exact timely.noted_sync
  case one_sync => exact timely.one_sync
  case done =>
    intro k
    rw [subject]
    split
    · next here =>
      obtain ⟨id, waits, _, first⟩ := booked.done_synced timely here.2
      rw [waits.1, Option.map_some, Option.some.injEq] at here
      rw [← here.1, first]
    · exact timely.done k
  case sealed =>
    intro k some
    rw [subject] at some
    split at some
    · next here =>
      obtain ⟨id, waits, rfl, first⟩ := booked.done_synced timely here.2
      rw [waits.1, Option.map_some, Option.some.injEq] at here
      obtain rfl : id = k := here.1
      exact ⟨op, waits.1, outcome_same waits⟩
    · obtain ⟨w, sync, ended⟩ := timely.sealed k some
      exact ⟨w, sync, outcome_onward ended⟩

theorem booked_timely (orderly : Orderly past) : Booked past (after past) ∧ Timely past := by
  induction past with
  | nil =>
    refine ⟨⟨rfl, ?_, .nil, .nil, ?_, ?_, ?_⟩, ⟨?_, ?_, ?_, ?_, ?_, ?_, ?_, ?_, ?_⟩⟩
    all_goals simp [after, Ordered, noted, batch, Open, Known, started, Ripe, givenHard, givenFile, asks, syncs, dones]
    omega
  | cons c past ih =>
    obtain ⟨allowed, earlier⟩ := orderly
    obtain ⟨booked, timely⟩ := ih earlier
    cases c with
    | start action => exact ⟨booked.start timely action, timely.start action⟩
    | noteWrite id op =>
      exact ⟨booked.noteWrite allowed.2.1 id, timely.noteWrite allowed.1 allowed.2.1 allowed.2.2⟩
    | noteSync id op => exact ⟨booked.noteSync allowed.1 id, timely.noteSync allowed.1 allowed.2⟩
    | noteFile id file =>
      refine ⟨booked.noteFile id file, timely.quiet rfl (fun _ => rfl) (fun _ => rfl) (fun _ => rfl)
        (fun _ known => known) fun k unknown => ?_⟩
      have other : id ≠ k := fun same => unknown (same ▸ allowed)
      rw [givenFile, if_neg other]
      exact timely.fresh k unknown
    | noteHardState id hs =>
      refine ⟨booked.noteHardState id hs, timely.quiet rfl (fun _ => rfl) (fun _ => rfl) (fun _ => rfl)
        (fun _ known => known) fun k unknown => ?_⟩
      have other : id ≠ k := fun same => unknown (same ▸ allowed)
      rw [givenHard, if_neg other]
      exact timely.fresh k unknown
    | clampAll cap =>
      exact ⟨booked.clampAll cap, timely.quiet rfl (fun _ => rfl) (fun _ => rfl) (fun _ => rfl)
        (fun _ known => known) timely.fresh⟩
    | complete op ok => exact ⟨booked.complete timely op ok, timely.complete booked op ok⟩

theorem Booked.needSync_iff (booked : Booked past p) (timely : Timely past) {file : FileId} :
    (p.onComplete op ok).1 = .needSync id file ↔ ok = true ∧ Waits op id .write past ∧
      (∀ w, w ≠ op → noted w past = some (id, .write) → outcome w past = some true) ∧ file = givenFile id past := by
  have ending := booked.ending timely op ok
  generalize p.onComplete op ok = result at ending ⊢
  -- all the other writes are confirmed when the batch is ripe with this one
  have last : Waits op id .write past → ((∀ w, w ≠ op → noted w past = some (id, .write) → outcome w past = some true) ↔
      Ripe id (.complete op true :: past)) := by
    intro waits
    constructor
    · intro rest
      refine ⟨⟨op, waits.1⟩, fun w write => ?_⟩
      by_cases same : w = op
      · subst same
        exact outcome_same waits
      · exact outcome_onward (rest w same write)
    · intro ripe w other write
      rw [← outcome_other other]
      exact ripe.2 w write
  have same_id : ∀ {k kind kind'}, Waits op k kind past → Waits op id kind' past → k = id ∧ kind = kind' := by
    intro k kind kind' waits waits'
    simpa [waits.1] using waits'.1
  cases ending with
  | stray ok unknown =>
    refine iff_of_false (fun same => by cases same) ?_
    rintro ⟨_, waits, _⟩
    exact unknown _ _ waits
  | failed k kind waits => exact iff_of_false (fun same => by cases same) fun here => Bool.noConfusion here.1
  | synced b k waits found =>
    refine iff_of_false (fun same => by cases same) ?_
    rintro ⟨_, waits', _⟩
    exact OpKind.noConfusion (same_id waits waits').2
  | orphan k waits gone =>
    refine iff_of_false (fun same => by cases same) ?_
    rintro ⟨_, waits', rest, _⟩
    obtain ⟨rfl, _⟩ := same_id waits waits'
    obtain opened | ⟨w, write, failed⟩ := timely.open_or_failed waits
    · have held := (booked.held k).mpr opened
      rw [gone] at held
      cases held
    · have ripe := (last waits).mp rest
      simpa [outcome_onward failed] using ripe.2 w write
  | wrote b k waits found =>
    obtain ⟨_, _, unsynced⟩ := timely.waits_write waits
    have told := booked.told k b found
    have unissued : b.syncIssued = false := by
      have issued := told.issued
      rw [batch_id found, unsynced] at issued
      simpa using issued
    have file' := told.file
    rw [batch_id found] at file'
    dsimp only
    constructor
    · split
      · next done =>
        intro same
        cases same
        exact ⟨rfl, waits, (last waits).mpr ((booked.ripe_iff waits found).mpr done.1), file'⟩
      · intro same
        cases same
    · rintro ⟨_, waits', rest, rfl⟩
      obtain ⟨rfl, _⟩ := same_id waits waits'
      rw [if_pos ⟨(booked.ripe_iff waits found).mp ((last waits).mp rest), unissued⟩, file']

theorem Booked.done_iff (booked : Booked past p) (timely : Timely past) {action : Persist} {hard : Option HardState} :
    (p.onComplete op ok).1 = .done action hard ↔ ok = true ∧ ∃ id, Waits op id .sync past ∧
      given id past = some action ∧ hard = givenHard id past := by
  have ending := booked.ending timely op ok
  generalize p.onComplete op ok = result at ending ⊢
  cases ending with
  | stray ok unknown =>
    refine iff_of_false (fun same => by cases same) ?_
    rintro ⟨_, id, waits, _⟩
    exact unknown _ _ waits
  | failed k kind waits => exact iff_of_false (fun same => by cases same) fun here => Bool.noConfusion here.1
  | orphan k waits gone =>
    refine iff_of_false (fun same => by cases same) ?_
    rintro ⟨_, id, waits', _⟩
    simpa [waits.1] using waits'.1
  | wrote b k waits found =>
    refine iff_of_false (fun same => ?_) ?_
    · dsimp only at same
      split at same <;> cases same
    · rintro ⟨_, id, waits', _⟩
      simpa [waits.1] using waits'.1
  | synced b k waits found =>
    have told := booked.told k b found
    have action' := told.action
    have hard' := told.hard
    rw [batch_id found] at action' hard'
    constructor
    · intro same
      cases same
      exact ⟨rfl, k, waits, action', hard'⟩
    · rintro ⟨_, id, waits', sameAction, sameHard⟩
      obtain ⟨rfl, _⟩ : k = id ∧ True := by simpa [waits.1] using waits'.1
      rw [action', Option.some.injEq] at sameAction
      rw [sameAction, sameHard, hard']

-- A sync is noted when every write of its batch has been confirmed, and no write is added after that.
theorem noted_sync_ripe (orderly : Orderly past) (sync : noted op past = some (id, .sync)) :
    ∃ later earlier, past = later ++ .noteSync id op :: earlier ∧ Ripe id earlier ∧
      ∀ w, noted w past = some (id, .write) → noted w earlier = some (id, .write) := by
  induction past with
  | nil => cases sync
  | cons c past ih =>
    obtain ⟨allowed, earlier⟩ := orderly
    obtain ⟨_, timely⟩ := booked_timely earlier
    have before : noted op past = some (id, .sync) → (∀ w, noted w (c :: past) = some (id, .write) →
        noted w past = some (id, .write)) → ∃ later earlier, c :: past = later ++ .noteSync id op :: earlier ∧
        Ripe id earlier ∧ ∀ w, noted w (c :: past) = some (id, .write) → noted w earlier = some (id, .write) := by
      intro old same
      obtain ⟨later, earlier, split, ripe, writes⟩ := ih earlier old
      exact ⟨c :: later, earlier, by rw [split, List.cons_append], ripe, fun w write => writes w (same w write)⟩
    cases c with
    | noteWrite k other =>
      obtain old | ⟨_, _, kinds⟩ := (noted_note (c := .noteWrite k other) (fun _ => rfl) allowed.2.1 op id .sync).mp sync
      · refine before old fun w write => ?_
        obtain same | ⟨_, rfl, _⟩ :=
          (noted_note (c := .noteWrite k other) (fun _ => rfl) allowed.2.1 w id .write).mp write
        · exact same
        · -- its batch has a sync, so its writes are confirmed and no other is let in
          have ripe := timely.sync_ripe old
          obtain ⟨v, here⟩ := ripe.1
          have unended := allowed.2.2 v here
          rw [ripe.2 v here] at unended
          cases unended
      · cases kinds
    | noteSync k other =>
      have writes : ∀ w, noted w (.noteSync k other :: past) = some (id, .write) → noted w past = some (id, .write) := by
        intro w write
        obtain same | ⟨_, _, kinds⟩ := (noted_note (c := .noteSync k other) (fun _ => rfl) allowed.1 w id .write).mp write
        · exact same
        · cases kinds
      obtain old | ⟨rfl, rfl, _⟩ := (noted_note (c := .noteSync k other) (fun _ => rfl) allowed.1 op id .sync).mp sync
      · exact before old writes
      · refine ⟨[], past, rfl, ?_, writes⟩
        by_contra unripe
        have := timely.unasked id unripe
        have := allowed.2
        omega
    | start | noteFile | noteHardState | complete | clampAll => exact before sync fun _ write => write

-- A batch of which anything has failed is never done.
theorem Timely.failed (timely : Timely past) (found : noted w past = some (id, kind)) (failed : outcome w past = some false) :
    dones id past = 0 := by
  by_contra some
  obtain ⟨op, sync, ended⟩ := timely.sealed id (Nat.pos_of_ne_zero some)
  cases kind with
  | write =>
    have confirmed := (timely.sync_ripe sync).2 w found
    rw [failed] at confirmed
    cases confirmed
  | sync =>
    rw [timely.one_sync w op id found sync, ended] at failed
    cases failed

theorem opsOf_without_other (booked : Booked past p) (waits : Waits op id kind past) (other : k ≠ id) :
    (p.without op).opsOf k = p.opsOf k := by
  rw [opsOf_without, List.filter_eq_self]
  rintro ⟨w, k', kind'⟩ member
  obtain ⟨inside, here⟩ := mem_opsOf.mp member
  have found := ((booked.pending _ _ _).mp inside).1
  rw [decide_eq_true_eq]
  rintro rfl
  rw [waits.1, Option.some.injEq, Prod.mk.injEq] at found
  exact other (here.symm.trans found.1.symm)

-- What a call does to one batch is nothing to another.
theorem Booked.frame (booked : Booked past p) (timely : Timely past) {c : Call} (elsewhere : c.subject past ≠ some id)
    (unclamped : ∀ cap, c ≠ .clampAll cap) :
    (p.call c).batch id = p.batch id ∧ (p.call c).opsOf id = p.opsOf id ∧ (p.report c).asksFor id = 0 := by
  have added : ∀ op k kind, id ≠ k → { p with ops := p.ops ++ [(op, k, kind)] }.opsOf id = p.opsOf id := by
    intro op k kind other
    simp only [opsOf, List.filter_append]
    simp [Ne.symm other]
  cases c with
  | start action =>
    refine ⟨?_, rfl, rfl⟩
    rw [call, batch_start booked.ordered, if_neg]
    rw [booked.count]
    exact fun same => elsewhere (congrArg some same)
  | noteWrite k op =>
    have other : id ≠ k := fun same => elsewhere (congrArg some same.symm)
    exact ⟨batch_modifyBatch_other (fun _ => rfl) other, added op k .write other, rfl⟩
  | noteSync k op =>
    have other : id ≠ k := fun same => elsewhere (congrArg some same.symm)
    exact ⟨batch_modifyBatch_other (fun _ => rfl) other, added op k .sync other, rfl⟩
  | noteFile k file =>
    have other : id ≠ k := fun same => elsewhere (congrArg some same.symm)
    exact ⟨batch_modifyBatch_other (fun _ => rfl) other, rfl, rfl⟩
  | noteHardState k hs =>
    have other : id ≠ k := fun same => elsewhere (congrArg some same.symm)
    exact ⟨batch_modifyBatch_other (fun _ => rfl) other, rfl, rfl⟩
  | clampAll cap => exact absurd rfl (unclamped cap)
  | complete op ok =>
    have ending := booked.ending timely op ok
    simp only [call, report]
    have other : ∀ {k kind}, Waits op k kind past → id ≠ k := by
      rintro k kind waits rfl
      exact elsewhere (by simp [Call.subject, waits.1])
    generalize p.onComplete op ok = result at ending ⊢
    cases ending with
    | stray ok unknown => exact ⟨rfl, rfl, rfl⟩
    | failed k kind waits =>
      refine ⟨?_, opsOf_without_other booked waits (other waits), rfl⟩
      rw [@batch_filter p k _ _ rfl, if_neg (other waits)]
    | synced b k waits found =>
      refine ⟨?_, opsOf_without_other booked waits (other waits), rfl⟩
      rw [@batch_filter p k _ _ rfl, if_neg (other waits)]
    | orphan k waits gone => exact ⟨rfl, opsOf_without_other booked waits (other waits), rfl⟩
    | wrote b k waits found =>
      refine ⟨batch_modifyBatch_other (f := Batch.wrote) (fun _ => rfl) (other waits),
        opsOf_without_other booked waits (other waits), ?_⟩
      dsimp only
      split
      · exact if_neg (other waits).symm
      · rfl

/-- A batch is done exactly when it is on disk: its sync, asked for once all its writes have been confirmed, has
succeeded. What happens to one batch is nothing to another. -/
theorem done_exactly_when_synced (orderly : Orderly past) :
    (∀ id, asks id past ≤ 1 ∧ dones id past ≤ 1) ∧
    (∀ op ok id file, (after past).report (.complete op ok) = .needSync id file ↔
      ok = true ∧ Waits op id .write past ∧
        (∀ w, w ≠ op → noted w past = some (id, .write) → outcome w past = some true) ∧ file = givenFile id past) ∧
    (∀ op id, noted op past = some (id, .sync) → ∃ later earlier, past = later ++ .noteSync id op :: earlier ∧
      Ripe id earlier ∧ ∀ w, noted w past = some (id, .write) → noted w earlier = some (id, .write)) ∧
    (∀ op ok action hard, (after past).report (.complete op ok) = .done action hard ↔
      ok = true ∧ ∃ id, Waits op id .sync past ∧ given id past = some action ∧ hard = givenHard id past) ∧
    (∀ w id kind, noted w past = some (id, kind) → outcome w past = some false → dones id past = 0) ∧
    ∀ c id, c.subject past ≠ some id → (∀ cap, c ≠ .clampAll cap) →
      ((after past).call c).batch id = (after past).batch id ∧
        ((after past).call c).opsOf id = (after past).opsOf id ∧ ((after past).report c).asksFor id = 0 := by
  obtain ⟨booked, timely⟩ := booked_timely orderly
  refine ⟨fun id => ⟨?_, timely.done id⟩, fun _ _ _ _ => booked.needSync_iff timely,
    fun _ _ => noted_sync_ripe orderly, fun _ _ _ _ => booked.done_iff timely, fun _ _ _ => timely.failed,
    fun _ _ => booked.frame timely⟩
  by_cases ripe : Ripe id past
  · exact (timely.asked id ripe).le
  · exact (timely.unasked id ripe).le.trans (Nat.zero_le _)

def twoBatches : List Call :=
  [.complete 2 false, .noteSync 2 4, .complete 3 true, .complete 1 true, .complete 9 true, .noteWrite 2 3,
    .start (.campaign 1), .noteWrite 1 2, .noteWrite 1 1, .start .quiet]

theorem twoBatches_done : (after twoBatches).report (.complete 4 true) = .done (.campaign 1) none ∧
    dones 1 twoBatches = 0 := by
  have orderly : Orderly twoBatches := by
    refine ⟨trivial, ⟨rfl, by decide⟩, trivial, trivial, trivial, ⟨⟨by decide, by decide⟩, rfl, fun w write => rfl⟩,
      trivial, ⟨⟨by decide, by decide⟩, rfl, fun w write => rfl⟩, ⟨⟨by decide, by decide⟩, rfl, fun w write => rfl⟩,
      trivial, trivial⟩
  obtain ⟨_, _, _, done, failed, _⟩ := done_exactly_when_synced orderly
  exact ⟨(done 4 true _ _).mpr ⟨rfl, 2, ⟨rfl, rfl⟩, rfl, rfl⟩, failed 2 1 .write rfl rfl⟩

end Persister

end SimKv
