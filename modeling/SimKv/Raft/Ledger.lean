import SimKv.Raft.Frames

set_option autoImplicit false

/-!
# The persister's books

A batch is done only after the device has taken every one of its writes and then a sync of its file.
`Ledger` is the bookkeeping that makes this so, and `Backed` the rule drawn from it: whatever holds of
a batch once its writes are issued, and survives a sync as something else, holds when it is done.
-/

namespace SimKv

def Batch.wrote (b : Batch) : Batch := { b with writesOutstanding := b.writesOutstanding - 1 }

namespace Persister

variable (p : Persister)

def opened (file : FileId) (action : Persist) (hard : Option HardState) (ops : List OpId) : Persister :=
  { nextId := p.nextId + 1
    batches := p.batches ++
      [{ id := p.nextId + 1, file, writesOutstanding := ops.length, action, hard }]
    ops := p.ops ++ ops.map fun op => (op, p.nextId + 1, .write) }

variable {p} {file : FileId} {action : Persist} {hard : Option HardState} {ops : List OpId}

theorem start_opened (action : Persist) : p.start action = p.opened .wal action none [] := by
  simp [start, opened]

-- Editing the newest batch leaves the older ones alone.
theorem modifyBatch_newest (ordered : p.Ordered) (b : Batch) (newest : b.id = p.nextId + 1)
    (f : Batch → Batch) :
    (p.batches ++ [b]).map (fun b => if b.id = p.nextId + 1 then f b else b) = p.batches ++ [f b] := by
  have older : p.batches.map (fun b => if b.id = p.nextId + 1 then f b else b) = p.batches := by
    conv_rhs => rw [← List.map_id p.batches]
    apply List.map_congr_left
    intro b member
    have := ordered b member
    rw [if_neg (by omega), id]
  rw [List.map_append, older, List.map_singleton, if_pos newest]

theorem opened_noteWrite (ordered : p.Ordered) (op : OpId) :
    (p.opened file action hard ops).noteWrite (p.nextId + 1) op =
      p.opened file action hard (ops ++ [op]) := by
  simp only [noteWrite, modifyBatch, opened, modifyBatch_newest ordered]
  simp

theorem opened_noteHardState (ordered : p.Ordered) (hs : HardState) :
    (p.opened file action hard ops).noteHardState (p.nextId + 1) hs =
      p.opened file action (some hs) ops := by
  simp only [noteHardState, modifyBatch, opened, modifyBatch_newest ordered]

theorem opened_noteFile (ordered : p.Ordered) (other : FileId) :
    (p.opened file action hard ops).noteFile (p.nextId + 1) other = p.opened other action hard ops := by
  simp only [noteFile, modifyBatch, opened, modifyBatch_newest ordered]

theorem opened_opens : p.Opens file action hard (p.opened file action hard ops) :=
  ⟨rfl, by simp [duties, opened, Batch.duty]⟩

variable (p)

def opsOf (id : Nat) : List (OpId × Nat × OpKind) := p.ops.filter fun o => o.2.1 = id

/-- The books are in order: a batch waits for its writes, and after them for one sync. -/
structure Ledger (nextOp : OpId) : Prop where
  ordered : p.Ordered
  distinct : (p.batches.map Batch.id).Nodup
  known : ∀ o ∈ p.ops, o.1 < nextOp ∧ o.2.1 ≤ p.nextId
  once : (p.ops.map Prod.fst).Nodup
  writing : ∀ b ∈ p.batches, b.syncIssued = false →
    (∀ o ∈ p.opsOf b.id, o.2.2 = .write) ∧ b.writesOutstanding = (p.opsOf b.id).length
  syncing : ∀ b ∈ p.batches, b.syncIssued = true → ∃ op, p.opsOf b.id = [(op, b.id, .sync)]

/-- The device has refused an operation of this batch, and the news is on its way. -/
def Rejected (accept : OpId → Bool) (id : Nat) : Prop := ∃ o ∈ p.opsOf id, accept o.1 = false

/-- Every batch of which nothing was refused satisfies `issued` until its sync is issued and `synced`
from then on. -/
def Backed (accept : OpId → Bool) (issued synced : Duty → Prop) : Prop :=
  ∀ b ∈ p.batches, p.Rejected accept b.id ∨
    (b.syncIssued = false ∧ issued b.duty ∨ b.syncIssued = true ∧ synced b.duty)

def without (op : OpId) : Persister := { p with ops := p.ops.filter fun o => o.1 ≠ op }

variable {p} {nextOp op : OpId} {id : Nat} {kind : OpKind} {accept : OpId → Bool}
variable {issued synced : Duty → Prop}

theorem eraseP_eq_filter {α : Type} {key : α → Nat} {items : List α} (once : (items.map key).Nodup)
    (k : Nat) : items.eraseP (fun a => key a = k) = items.filter fun a => key a ≠ k := by
  induction items with
  | nil => rfl
  | cons a rest ih =>
    rw [List.map_cons, List.nodup_cons] at once
    by_cases same : key a = k
    · have absent : ∀ a' ∈ rest, key a' ≠ k := by
        intro a' member again
        exact once.1 (List.mem_map.mpr ⟨a', member, again.trans same.symm⟩)
      rw [List.eraseP_cons_of_pos (by simpa using same), List.filter_cons_of_neg (by simpa using same),
        List.filter_eq_self.mpr (by simpa using absent)]
    · rw [List.eraseP_cons_of_neg (by simpa using same), List.filter_cons_of_pos (by simpa using same),
        ih once.2]

theorem Ledger.same_op {o o' : OpId × Nat × OpKind} (ledger : p.Ledger nextOp) (held : o ∈ p.ops)
    (held' : o' ∈ p.ops) (same : o.1 = o'.1) : o = o' :=
  List.inj_on_of_nodup_map ledger.once held held' same

theorem mem_opsOf {o : OpId × Nat × OpKind} : o ∈ p.opsOf id ↔ o ∈ p.ops ∧ o.2.1 = id := by
  simp [opsOf]

theorem opsOf_without (op : OpId) (id : Nat) :
    (p.without op).opsOf id = (p.opsOf id).filter fun o => o.1 ≠ op := by
  simp only [opsOf, without, List.filter_filter]
  congr 1
  funext o
  exact Bool.and_comm _ _

theorem Ledger.opsOf_without_other (ledger : p.Ledger nextOp) (held : (op, id, kind) ∈ p.ops)
    {other : Nat} (differs : other ≠ id) : (p.without op).opsOf other = p.opsOf other := by
  rw [opsOf_without, List.filter_eq_self]
  intro o member
  rw [mem_opsOf] at member
  simp only [ne_eq, decide_not, Bool.not_eq_eq_eq_not, Bool.not_true, decide_eq_false_iff_not]
  intro same
  rw [ledger.same_op member.1 held same] at member
  exact differs member.2.symm

theorem Ledger.length_opsOf_without (ledger : p.Ledger nextOp) (held : (op, id, kind) ∈ p.ops) :
    (p.opsOf id).length = ((p.without op).opsOf id).length + 1 := by
  have once : ((p.opsOf id).map Prod.fst).Nodup := ledger.once.sublist (List.filter_sublist.map _)
  have member : (op, id, kind) ∈ p.opsOf id := mem_opsOf.mpr ⟨held, rfl⟩
  have found : ∃ o ∈ p.opsOf id, decide (o.1 = op) = true := ⟨_, member, by simp⟩
  obtain ⟨o, inside, here⟩ := found
  rw [opsOf_without, ← eraseP_eq_filter once op, List.length_eraseP_of_mem inside here]
  have := List.length_pos_of_mem inside
  omega

-- What is refused stays refused when an operation the device took completes.
theorem Rejected.without (refused : p.Rejected accept id) (taken : accept op = true) :
    (p.without op).Rejected accept id := by
  obtain ⟨o, member, refusal⟩ := refused
  refine ⟨o, ?_, refusal⟩
  rw [opsOf_without, List.mem_filter]
  refine ⟨member, ?_⟩
  simp only [ne_eq, decide_not, Bool.not_eq_eq_eq_not, Bool.not_true, decide_eq_false_iff_not]
  intro same
  rw [same, taken] at refusal
  cases refusal

inductive Completion (p : Persister) (op : OpId) : Bool → BatchEvent → Persister → Prop where
  | unknown (ok : Bool) : Completion p op ok .nothing p
  | refused (id : Nat) (kind : OpKind) (held : (op, id, kind) ∈ p.ops) :
      Completion p op false .failed
        { p.without op with batches := p.batches.filter fun b => b.id ≠ id }
  | orphan (id : Nat) (kind : OpKind) (held : (op, id, kind) ∈ p.ops)
      (gone : ∀ b ∈ p.batches, b.id ≠ id) : Completion p op true .nothing (p.without op)
  | wrote (b : Batch) (held : (op, b.id, .write) ∈ p.ops) (member : b ∈ p.batches) :
      Completion p op true .nothing ((p.without op).modifyBatch b.id Batch.wrote)
  | last (b : Batch) (held : (op, b.id, .write) ∈ p.ops) (member : b ∈ p.batches)
      (none : b.writesOutstanding - 1 = 0) (fresh : b.syncIssued = false) :
      Completion p op true (.needSync b.id b.file) ((p.without op).modifyBatch b.id Batch.wrote)
  | synced (b : Batch) (held : (op, b.id, .sync) ∈ p.ops) (member : b ∈ p.batches) :
      Completion p op true (.done b.action b.hard)
        { p.without op with batches := p.batches.filter fun other => other.id ≠ b.id }

theorem Ledger.completion (ledger : p.Ledger nextOp) (op : OpId) (ok : Bool) :
    Completion p op ok (p.onComplete op ok).1 (p.onComplete op ok).2 := by
  unfold onComplete
  split
  · exact .unknown ok
  · next op' id kind found =>
    have same : op' = op := by simpa using List.find?_some found
    subst same
    have held := List.mem_of_find?_eq_some found
    simp only [eraseP_eq_filter ledger.once, eraseP_eq_filter ledger.distinct]
    cases ok with
    | false => exact .refused id kind held
    | true =>
      simp only [Bool.not_true, Bool.false_eq_true, if_false]
      split
      · next none =>
        refine .orphan id kind held fun b member same => ?_
        exact List.find?_eq_none.mp none b member (by simpa using same)
      · next b found =>
        have member := List.mem_of_find?_eq_some found
        have same : b.id = id := by simpa using List.find?_some found
        subst same
        cases kind with
        | write =>
          dsimp only
          split
          · next done => exact .last b held member done.1 (by simpa using done.2)
          · exact .wrote b held member
        | sync => exact .synced b held member

-- Striking off an operation of a batch that is no longer there.
theorem Ledger.strike (ledger : p.Ledger nextOp) (held : (op, id, kind) ∈ p.ops) {batches : List Batch}
    (fewer : batches.Sublist p.batches) (gone : ∀ b ∈ batches, b.id ≠ id) :
    { p.without op with batches }.Ledger nextOp where
  ordered b member := ledger.ordered b (fewer.subset member)
  distinct := ledger.distinct.sublist (fewer.map _)
  known o member := ledger.known o (List.mem_of_mem_filter member)
  once := ledger.once.sublist (List.filter_sublist.map _)
  writing b member fresh := by
    have same : { p.without op with batches }.opsOf b.id = p.opsOf b.id :=
      ledger.opsOf_without_other held (gone b member)
    rw [same]
    exact ledger.writing b (fewer.subset member) fresh
  syncing b member started := by
    have same : { p.without op with batches }.opsOf b.id = p.opsOf b.id :=
      ledger.opsOf_without_other held (gone b member)
    rw [same]
    exact ledger.syncing b (fewer.subset member) started

theorem Backed.strike (backed : p.Backed accept issued synced) (ledger : p.Ledger nextOp)
    (held : (op, id, kind) ∈ p.ops) {batches : List Batch} (fewer : batches.Sublist p.batches)
    (gone : ∀ b ∈ batches, b.id ≠ id) : { p.without op with batches }.Backed accept issued synced := by
  intro b member
  have same : { p.without op with batches }.opsOf b.id = p.opsOf b.id :=
    ledger.opsOf_without_other held (gone b member)
  rcases backed b (fewer.subset member) with refused | fine
  · refine .inl ?_
    rw [Rejected, same]
    exact refused
  · exact .inr fine

-- A batch of which a write is still to come has not issued its sync.
theorem Ledger.unsynced {b : Batch} (ledger : p.Ledger nextOp) (held : (op, b.id, .write) ∈ p.ops)
    (member : b ∈ p.batches) : b.syncIssued = false := by
  by_contra started
  obtain ⟨sync, only⟩ := ledger.syncing b member (by simpa using started)
  have listed : (op, b.id, .write) ∈ p.opsOf b.id := mem_opsOf.mpr ⟨held, rfl⟩
  rw [only, List.mem_singleton] at listed
  cases listed

theorem Ledger.batch_ext {b b' : Batch} (ledger : p.Ledger nextOp) (member : b ∈ p.batches)
    (member' : b' ∈ p.batches) (same : b.id = b'.id) : b = b' :=
  List.inj_on_of_nodup_map ledger.distinct member member' same

-- The batches after an edit of one of them.
theorem Ledger.mem_modifyBatch {b b' : Batch} {f : Batch → Batch} {q : Persister}
    (ledger : p.Ledger nextOp) (same : q.batches = p.batches) (member : b ∈ p.batches)
    (found : b' ∈ (q.modifyBatch b.id f).batches) : b' = f b ∨ b' ∈ p.batches ∧ b'.id ≠ b.id := by
  simp only [modifyBatch, same] at found
  obtain ⟨old, inside, rfl⟩ := List.mem_map.mp found
  split
  · next here => exact .inl (by rw [ledger.batch_ext inside member here])
  · next here => exact .inr ⟨inside, here⟩

theorem map_id_modifyBatch {f : Batch → Batch} (same : ∀ b, (f b).id = b.id) (q : Persister) (id : Nat) :
    (q.modifyBatch id f).batches.map Batch.id = q.batches.map Batch.id := by
  simp only [modifyBatch, List.map_map]
  apply List.map_congr_left
  intro b _
  simp only [Function.comp]
  split
  · exact same b
  · rfl

theorem Ledger.wrote {b : Batch} (ledger : p.Ledger nextOp) (held : (op, b.id, .write) ∈ p.ops)
    (member : b ∈ p.batches) : ((p.without op).modifyBatch b.id Batch.wrote).Ledger nextOp where
  ordered b' found := by
    rcases ledger.mem_modifyBatch rfl member found with rfl | ⟨old, _⟩
    · exact ledger.ordered b member
    · exact ledger.ordered b' old
  distinct := by
    rw [map_id_modifyBatch (f := Batch.wrote) fun _ => rfl]
    exact ledger.distinct
  known o found := ledger.known o (List.mem_of_mem_filter found)
  once := ledger.once.sublist (List.filter_sublist.map _)
  writing b' found fresh := by
    rcases ledger.mem_modifyBatch rfl member found with rfl | ⟨old, differs⟩
    · obtain ⟨writes, count⟩ := ledger.writing b member fresh
      have fewer := ledger.length_opsOf_without held
      refine ⟨fun o inside => writes o ?_, ?_⟩
      · have struck : o ∈ (p.without op).opsOf b.id := inside
        rw [opsOf_without] at struck
        exact List.mem_of_mem_filter struck
      · change b.writesOutstanding - 1 = ((p.without op).opsOf b.id).length
        omega
    · have same : ((p.without op).modifyBatch b.id Batch.wrote).opsOf b'.id = p.opsOf b'.id :=
        ledger.opsOf_without_other held differs
      rw [same]
      exact ledger.writing b' old fresh
  syncing b' found started := by
    rcases ledger.mem_modifyBatch rfl member found with rfl | ⟨old, differs⟩
    · rw [Batch.wrote, ledger.unsynced held member] at started
      cases started
    · have same : ((p.without op).modifyBatch b.id Batch.wrote).opsOf b'.id = p.opsOf b'.id :=
        ledger.opsOf_without_other held differs
      rw [same]
      exact ledger.syncing b' old started

theorem Backed.wrote {b : Batch} (backed : p.Backed accept issued synced) (ledger : p.Ledger nextOp)
    (member : b ∈ p.batches) (taken : accept op = true) :
    ((p.without op).modifyBatch b.id Batch.wrote).Backed accept issued synced := by
  have kept : ∀ id, p.Rejected accept id →
      ((p.without op).modifyBatch b.id Batch.wrote).Rejected accept id :=
    fun id refused => refused.without taken
  intro b' found
  rcases ledger.mem_modifyBatch rfl member found with rfl | ⟨old, _⟩
  · exact (backed b member).imp (kept b.id) id
  · exact (backed b' old).imp (kept b'.id) id

-- Once the last write of a batch is in, nothing of it is outstanding.
theorem Ledger.opsOf_last {b : Batch} (ledger : p.Ledger nextOp) (held : (op, b.id, .write) ∈ p.ops)
    (member : b ∈ p.batches) (none : b.writesOutstanding - 1 = 0) : (p.without op).opsOf b.id = [] := by
  obtain ⟨_, count⟩ := ledger.writing b member (ledger.unsynced held member)
  have fewer := ledger.length_opsOf_without held
  apply List.eq_nil_of_length_eq_zero
  omega

theorem opsOf_noteSync (q : Persister) (id other : Nat) (op : OpId) :
    (q.noteSync id op).opsOf other = q.opsOf other ++ if other = id then [(op, id, .sync)] else [] := by
  simp only [noteSync, opsOf, modifyBatch, List.filter_append]
  congr 1
  by_cases same : other = id
  · simp [same]
  · simp [same, Ne.symm same]

-- A sync is issued for a batch of which nothing is outstanding.
theorem Ledger.noteSync {b : Batch} (ledger : p.Ledger nextOp) (member : b ∈ p.batches)
    (nothing : p.opsOf b.id = []) : (p.noteSync b.id nextOp).Ledger (nextOp + 1) where
  ordered b' found := by
    rcases ledger.mem_modifyBatch rfl member found with rfl | ⟨old, _⟩
    · exact ledger.ordered b member
    · exact ledger.ordered b' old
  distinct := by
    have same := map_id_modifyBatch (f := fun b => { b with syncIssued := true }) (fun _ => rfl) p b.id
    change ((p.modifyBatch b.id fun b => { b with syncIssued := true }).batches.map Batch.id).Nodup
    rw [same]
    exact ledger.distinct
  known o found := by
    rcases List.mem_append.mp found with old | new
    · exact ⟨Nat.lt_succ_of_lt (ledger.known o old).1, (ledger.known o old).2⟩
    · rw [List.mem_singleton.mp new]
      exact ⟨Nat.lt_succ_self _, ledger.ordered b member⟩
  once := by
    change ((p.ops ++ [(nextOp, b.id, OpKind.sync)]).map Prod.fst).Nodup
    rw [List.map_append, List.nodup_append]
    refine ⟨ledger.once, List.nodup_singleton _, ?_⟩
    intro a old c new
    obtain ⟨o, found, rfl⟩ := List.mem_map.mp old
    rw [List.map_singleton, List.mem_singleton] at new
    exact Nat.ne_of_lt (new ▸ (ledger.known o found).1)
  writing b' found fresh := by
    rcases ledger.mem_modifyBatch rfl member found with rfl | ⟨old, differs⟩
    · cases fresh
    · rw [opsOf_noteSync, if_neg differs, List.append_nil]
      exact ledger.writing b' old fresh
  syncing b' found started := by
    rcases ledger.mem_modifyBatch rfl member found with rfl | ⟨old, differs⟩
    · change ∃ op, (p.noteSync b.id nextOp).opsOf b.id = [(op, b.id, .sync)]
      rw [opsOf_noteSync, if_pos rfl, nothing]
      exact ⟨nextOp, rfl⟩
    · rw [opsOf_noteSync, if_neg differs, List.append_nil]
      exact ledger.syncing b' old started

-- Issuing a sync changes what can be said of the batches; of its own batch, nothing was refused.
theorem Backed.noteSync {b : Batch} {issued' synced' : Duty → Prop}
    (backed : p.Backed accept issued synced) (ledger : p.Ledger nextOp) (member : b ∈ p.batches)
    (nothing : p.opsOf b.id = []) (fresh : b.syncIssued = false)
    (issue : ∀ d ∈ p.duties, d.id ≠ b.id → issued d → issued' d)
    (keep : ∀ d ∈ p.duties, synced d → synced' d)
    (done : accept nextOp = true → issued b.duty → synced' b.duty) :
    (p.noteSync b.id nextOp).Backed accept issued' synced' := by
  intro b' found
  rcases ledger.mem_modifyBatch rfl member found with rfl | ⟨old, differs⟩
  · by_cases accepted : accept nextOp = true
    · rcases backed b member with ⟨o, found, _⟩ | ⟨_, fine⟩ | ⟨started, _⟩
      · rw [nothing] at found
        cases found
      · exact .inr (.inr ⟨rfl, done accepted fine⟩)
      · rw [fresh] at started
        cases started
    · refine .inl ⟨(nextOp, b.id, .sync), ?_, by simpa using accepted⟩
      change _ ∈ (p.noteSync b.id nextOp).opsOf b.id
      rw [opsOf_noteSync, if_pos rfl]
      exact List.mem_append_right _ (List.mem_singleton_self _)
  · have duty : b'.duty ∈ p.duties := List.mem_map_of_mem old
    rcases backed b' old with ⟨o, found, refusal⟩ | ⟨fresh, fine⟩ | ⟨started, fine⟩
    · refine .inl ⟨o, ?_, refusal⟩
      rw [opsOf_noteSync]
      exact List.mem_append_left _ found
    · exact .inr (.inl ⟨fresh, issue _ duty differs fine⟩)
    · exact .inr (.inr ⟨started, keep _ duty fine⟩)

-- Of a batch whose sync the device took, nothing was refused.
theorem Ledger.not_rejected {b : Batch} (ledger : p.Ledger nextOp) (held : (op, b.id, .sync) ∈ p.ops)
    (member : b ∈ p.batches) (taken : accept op = true) :
    b.syncIssued = true ∧ ¬ p.Rejected accept b.id := by
  have listed : (op, b.id, .sync) ∈ p.opsOf b.id := mem_opsOf.mpr ⟨held, rfl⟩
  have started : b.syncIssued = true := by
    by_contra fresh
    have := (ledger.writing b member (by simpa using fresh)).1 _ listed
    cases this
  refine ⟨started, ?_⟩
  rintro ⟨o, found, refusal⟩
  obtain ⟨sync, only⟩ := ledger.syncing b member started
  rw [only, List.mem_singleton] at listed found
  cases listed
  rw [found, taken] at refusal
  cases refusal

-- A batch that is done was synced.
theorem Backed.done {b : Batch} (backed : p.Backed accept issued synced) (ledger : p.Ledger nextOp)
    (held : (op, b.id, .sync) ∈ p.ops) (member : b ∈ p.batches) (taken : accept op = true) :
    synced b.duty := by
  obtain ⟨started, fine⟩ := ledger.not_rejected held member taken
  rcases backed b member with refused | ⟨fresh, _⟩ | ⟨_, synced⟩
  · exact (fine refused).elim
  · rw [started] at fresh
    cases fresh
  · exact synced

theorem opsOf_opened {other : Nat} (older : other ≤ p.nextId) :
    (p.opened file action hard ops).opsOf other = p.opsOf other := by
  have none : (ops.map fun op => (op, p.nextId + 1, OpKind.write)).filter
      (fun o => decide (o.2.1 = other)) = [] := by
    rw [List.filter_eq_nil_iff]
    intro o member
    obtain ⟨op, _, rfl⟩ := List.mem_map.mp member
    simp only [decide_eq_true_eq]
    omega
  simp only [opened, opsOf, List.filter_append, none, List.append_nil]

theorem opsOf_opened_new (ledger : p.Ledger nextOp) :
    (p.opened file action hard ops).opsOf (p.nextId + 1) =
      ops.map fun op => (op, p.nextId + 1, .write) := by
  simp only [opened, opsOf, List.filter_append]
  rw [List.filter_eq_nil_iff.mpr, List.nil_append, List.filter_eq_self.mpr]
  · intro o member
    obtain ⟨op, _, rfl⟩ := List.mem_map.mp member
    simp
  · intro o member
    have := (ledger.known o member).2
    simp only [decide_eq_true_eq]
    omega

theorem Ledger.opened {later : OpId} (ledger : p.Ledger nextOp) (nodup : ops.Nodup)
    (fresh : ∀ op ∈ ops, nextOp ≤ op ∧ op < later) (grows : nextOp ≤ later) :
    (p.opened file action hard ops).Ledger later where
  ordered b member := by
    rcases List.mem_append.mp member with old | new
    · exact Nat.le_succ_of_le (ledger.ordered b old)
    · rw [List.mem_singleton.mp new]
      exact le_refl _
  distinct := by
    simp only [Persister.opened, List.map_append, List.map_singleton]
    rw [List.nodup_append]
    refine ⟨ledger.distinct, List.nodup_singleton _, ?_⟩
    intro a old c new
    obtain ⟨b, found, rfl⟩ := List.mem_map.mp old
    rw [List.mem_singleton] at new
    have := ledger.ordered b found
    omega
  known o member := by
    rcases List.mem_append.mp member with old | new
    · have := ledger.known o old
      exact ⟨this.1.trans_le grows, Nat.le_succ_of_le this.2⟩
    · obtain ⟨op, found, rfl⟩ := List.mem_map.mp new
      exact ⟨(fresh op found).2, le_refl _⟩
  once := by
    simp only [Persister.opened, List.map_append, List.map_map, Function.comp_def, List.map_id']
    rw [List.nodup_append]
    refine ⟨ledger.once, nodup, ?_⟩
    intro a old c new
    obtain ⟨o, found, rfl⟩ := List.mem_map.mp old
    exact Nat.ne_of_lt ((ledger.known o found).1.trans_le (fresh c new).1)
  writing b member unsynced := by
    rcases List.mem_append.mp member with old | new
    · rw [opsOf_opened (ledger.ordered b old)]
      exact ledger.writing b old unsynced
    · rw [List.mem_singleton.mp new, opsOf_opened_new ledger]
      refine ⟨?_, by simp⟩
      intro o listed
      obtain ⟨op, _, rfl⟩ := List.mem_map.mp listed
      rfl
  syncing b member started := by
    rcases List.mem_append.mp member with old | new
    · rw [opsOf_opened (ledger.ordered b old)]
      exact ledger.syncing b old started
    · rw [List.mem_singleton.mp new] at started
      cases started

theorem Backed.opened {issued' synced' : Duty → Prop} (backed : p.Backed accept issued synced)
    (ledger : p.Ledger nextOp) (issue : ∀ d ∈ p.duties, issued d → issued' d)
    (keep : ∀ d ∈ p.duties, synced d → synced' d)
    (begun : (∀ op ∈ ops, accept op = true) → issued' { id := p.nextId + 1, file, action, hard }) :
    (p.opened file action hard ops).Backed accept issued' synced' := by
  intro b member
  rcases List.mem_append.mp member with old | new
  · have duty : b.duty ∈ p.duties := List.mem_map_of_mem old
    rw [Rejected, opsOf_opened (ledger.ordered b old)]
    rcases backed b old with refused | ⟨fresh, fine⟩ | ⟨started, fine⟩
    · exact .inl refused
    · exact .inr (.inl ⟨fresh, issue _ duty fine⟩)
    · exact .inr (.inr ⟨started, keep _ duty fine⟩)
  · rw [List.mem_singleton.mp new]
    by_cases taken : ∀ op ∈ ops, accept op = true
    · exact .inr (.inl ⟨rfl, begun taken⟩)
    · push Not at taken
      obtain ⟨op, found, refusal⟩ := taken
      refine .inl ⟨(op, p.nextId + 1, .write), ?_, by simpa using refusal⟩
      rw [opsOf_opened_new ledger]
      exact List.mem_map_of_mem found

theorem Backed.mono {issued' synced' : Duty → Prop} (backed : p.Backed accept issued synced)
    (issue : ∀ d ∈ p.duties, issued d → issued' d) (keep : ∀ d ∈ p.duties, synced d → synced' d) :
    p.Backed accept issued' synced' := by
  intro b member
  have duty : b.duty ∈ p.duties := List.mem_map_of_mem member
  rcases backed b member with refused | ⟨fresh, fine⟩ | ⟨started, fine⟩
  · exact .inl refused
  · exact .inr (.inl ⟨fresh, issue _ duty fine⟩)
  · exact .inr (.inr ⟨started, keep _ duty fine⟩)

theorem Ledger.clampAll (ledger : p.Ledger nextOp) (cap : Nat) : (p.clampAll cap).Ledger nextOp where
  ordered := ledger.ordered.clampAll cap
  distinct := by
    simp only [Persister.clampAll, List.map_map]
    exact ledger.distinct
  known := ledger.known
  once := ledger.once
  writing b member fresh := by
    obtain ⟨old, found, rfl⟩ := List.mem_map.mp member
    exact ledger.writing old found fresh
  syncing b member started := by
    obtain ⟨old, found, rfl⟩ := List.mem_map.mp member
    exact ledger.syncing old found started

theorem Backed.clampAll (backed : p.Backed accept issued synced) (cap : Nat)
    (issue : ∀ d, issued d → issued { d with action := d.action.clamp cap })
    (keep : ∀ d, synced d → synced { d with action := d.action.clamp cap }) :
    (p.clampAll cap).Backed accept issued synced := by
  intro b member
  obtain ⟨old, found, rfl⟩ := List.mem_map.mp member
  rcases backed old found with refused | ⟨fresh, fine⟩ | ⟨started, fine⟩
  · exact .inl refused
  · exact .inr (.inl ⟨fresh, issue _ fine⟩)
  · exact .inr (.inr ⟨started, keep _ fine⟩)

theorem Ledger.later {later : OpId} (ledger : p.Ledger nextOp) (grows : nextOp ≤ later) :
    p.Ledger later :=
  { ledger with known := fun o member =>
      ⟨(ledger.known o member).1.trans_le grows, (ledger.known o member).2⟩ }

theorem Ledger.empty (nextOp : OpId) : ({} : Persister).Ledger nextOp where
  ordered b member := by cases member
  distinct := List.nodup_nil
  known o member := by cases member
  once := List.nodup_nil
  writing b member := by cases member
  syncing b member := by cases member

end Persister

end SimKv
