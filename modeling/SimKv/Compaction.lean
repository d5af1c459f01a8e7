import SimKv.Machine
import SimKv.Raft.Contiguous

set_option autoImplicit false

/-!
# The compaction base is never lost

A node writes its snapshots into two files in turn. At most one image is in flight, and it goes to
the file that does not hold the newest durable one, so whatever power loss does to it, a snapshot as
new as the log's base is still there.
-/

namespace SimKv

open Persister

/-- What the snapshot files are about: the base of the log, the file with the newest durable image,
whether an image is on its way, and the newest index claimed for one. -/
structure Base where
  index : Nat
  file : Option FileId
  busy : Bool
  highest : Nat

def Raft.base (r : Raft) : Base where
  index := r.log.snapshotIndex
  file := r.durableSnapshotFile
  busy := r.snapshotInFlight
  highest := r.highestSnapshot

inductive Base.Moves (cause : Cause) (v w : Base) : Prop where
  | kept (index : w.index = v.index) (file : w.file = v.file) (busy : v.busy = true → w.busy = true)
      (highest : v.highest ≤ w.highest)
  | landed (action : Persist) (hard : Option HardState) (index : Nat) (file : FileId)
      (done : cause = .durable action hard) (image : action.image = some (index, file))
      (here : w.file = some file) (base : w.index ≤ max v.index index) (highest : w.highest = v.highest)

theorem Act.moves {cause : Cause} {r : Raft} {n m : Node} (act : Act cause r n m) :
    n.base.Moves cause m.base := by
  have becomes := act.becomes
  generalize m.toRaft = after at becomes ⊢
  cases becomes with
  | splice _ _ _ _ _ _ p t es i conflict =>
    exact .kept (n.log.snapshotIndex_splice p es i conflict) rfl id le_rfl
  | taken index term file hard done =>
    exact .landed _ hard index file done rfl rfl (n.log.snapshotIndex_compactTo index term) rfl
  | landed index term data file replyTo replyTerm hard done =>
    exact .landed _ hard index file done rfl rfl (le_max_left _ _) rfl
  | adopt index term data file replyTo replyTerm hard done here =>
    exact .landed _ hard index file done rfl here (n.log.snapshotIndex_adopt index term) rfl
  | capture => exact .kept rfl rfl (fun _ => rfl) (le_max_left _ _)
  | receive => exact .kept rfl rfl (fun _ => rfl) (le_max_left _ _)
  | _ => exact .kept rfl rfl id le_rfl

/-- A snapshot at `index` or later can be read off the durable image of `file`, and nothing pending can
change that. -/
def Disk.Holds (d : Disk) (index : Nat) (file : FileId) : Prop :=
  (d.file file).pending = [] ∧
    ∃ snap, Snapshot.decode (d.file file).durable = some snap ∧ index ≤ snap.index

def Disk.Awaits (d : Disk) (index : Nat) (file : FileId) : Prop :=
  ∃ prior bytes snap, (d.file file).pending = prior ++ [.setLen 0, .data 0 bytes] ∧
    Snapshot.decode bytes = some snap ∧ index ≤ snap.index

def Duty.Awaits (d : Disk) (duty : Duty) : Prop :=
  ∀ index file, duty.action.image = some (index, file) → d.Awaits index file

def Duty.Landed (d : Disk) (duty : Duty) : Prop :=
  ∀ index file, duty.action.image = some (index, file) → d.Holds index file

def Duty.Flying (v : Base) (duty : Duty) : Prop :=
  ∃ index, duty.action.image = some (index, duty.file) ∧ duty.file ≠ .wal ∧ v.file ≠ some duty.file ∧
    v.busy = true ∧ v.index < index ∧ index ≤ v.highest

structure BaseHeld (accept : OpId → Bool) (v : Base) (p : Persister) (nextOp : OpId) (d : Disk) :
    Prop where
  ledger : p.Ledger nextOp
  highest : v.index ≤ v.highest
  unwritten : v.file = none → v.index = 0
  held : ∀ file ∈ v.file, file ≠ .wal ∧ d.Holds v.index file
  duties : ∀ duty ∈ p.duties, duty.file = .wal ∧ duty.action.image = none ∨ duty.Flying v
  single : ∀ duty ∈ p.duties, ∀ other ∈ p.duties, duty.file ≠ .wal → other.file ≠ .wal → duty = other
  backed : p.Backed accept (Duty.Awaits d) (Duty.Landed d)

/-- While a batch that wrote a snapshot is being acted on, that snapshot is on disk and no other is on
its way. -/
def Lands (cause : Cause) (v : Base) (p : Persister) (d : Disk) : Prop :=
  ∀ action hard index file, cause = .durable action hard → action.image = some (index, file) →
    file ≠ .wal ∧ d.Holds index file ∧ v.index ≤ index ∧ index ≤ v.highest ∧
    ∀ duty ∈ p.duties, duty.file = .wal

variable {accept : OpId → Bool} {cause : Cause} {v w : Base} {p : Persister} {nextOp : OpId} {d d' : Disk}

theorem Disk.Holds.le {index lower : Nat} {file : FileId} (holds : d.Holds index file)
    (below : lower ≤ index) : d.Holds lower file := by
  obtain ⟨settled, snap, read, reaches⟩ := holds
  exact ⟨settled, snap, read, below.trans reaches⟩

def SameSnapshots (d d' : Disk) : Prop := ∀ file, file ≠ .wal → d'.file file = d.file file

theorem Disk.sameSnapshots_performAll {effects : List Effect}
    (wal : ∀ e ∈ effects, ∀ f ∈ e.file, f = .wal) : SameSnapshots d (d.performAll accept effects) := by
  intro file other
  refine performAll_other fun e member same => other ?_
  exact wal e member file same

theorem Disk.Holds.same {index : Nat} {file : FileId} (holds : d.Holds index file)
    (same : SameSnapshots d d') (other : file ≠ .wal) : d'.Holds index file := by
  rw [Disk.Holds, same file other]
  exact holds

theorem BaseHeld.image_file (held : BaseHeld accept v p nextOp d) {duty : Duty}
    (member : duty ∈ p.duties) {index : Nat} {file : FileId}
    (image : duty.action.image = some (index, file)) : file = duty.file ∧ duty.Flying v := by
  rcases held.duties duty member with ⟨_, none⟩ | flying
  · rw [none] at image
    cases image
  · refine ⟨?_, flying⟩
    obtain ⟨_, image', _⟩ := flying
    rw [image] at image'
    cases image'
    rfl

theorem BaseHeld.disk (held : BaseHeld accept v p nextOp d) (same : SameSnapshots d d') :
    BaseHeld accept v p nextOp d' where
  ledger := held.ledger
  highest := held.highest
  unwritten := held.unwritten
  held file here := ⟨(held.held file here).1, (held.held file here).2.same same (held.held file here).1⟩
  duties := held.duties
  single := held.single
  backed := by
    refine held.backed.mono ?_ ?_
    · intro duty member awaits index file image
      obtain ⟨rfl, _, _, other, _⟩ := held.image_file member image
      rw [Disk.Awaits, same _ other]
      exact awaits index _ image
    · intro duty member landed index file image
      obtain ⟨rfl, _, _, other, _⟩ := held.image_file member image
      exact (landed index _ image).same same other

theorem BaseHeld.kept (held : BaseHeld accept v p nextOp d) (index : w.index = v.index)
    (file : w.file = v.file) (busy : v.busy = true → w.busy = true) (highest : v.highest ≤ w.highest) :
    BaseHeld accept w p nextOp d where
  ledger := held.ledger
  highest := by
    rw [index]
    exact held.highest.trans highest
  unwritten none := by
    rw [index]
    exact held.unwritten (file ▸ none)
  held f here := by
    rw [index]
    exact held.held f (file ▸ here)
  duties duty member := by
    refine (held.duties duty member).imp id ?_
    rintro ⟨i, image, other, apart, flying, newer, claimed⟩
    exact ⟨i, image, other, file ▸ apart, busy flying, index ▸ newer, claimed.trans highest⟩
  single := held.single
  backed := held.backed

-- A snapshot has landed: the newest durable image is in its file.
theorem BaseHeld.landed (held : BaseHeld accept v p nextOp d) (lands : Lands cause v p d)
    {action : Persist} {hard : Option HardState} {index : Nat} {file : FileId}
    (done : cause = .durable action hard) (image : action.image = some (index, file))
    (here : w.file = some file) (base : w.index ≤ max v.index index) (highest : w.highest = v.highest) :
    BaseHeld accept w p nextOp d := by
  obtain ⟨other, holds, below, claimed, idle⟩ := lands action hard index file done image
  have reached : w.index ≤ index := base.trans (max_le below le_rfl)
  refine ⟨held.ledger, ?_, ?_, ?_, ?_, held.single, held.backed⟩
  · rw [highest]
    exact reached.trans claimed
  · intro none
    rw [here] at none
    cases none
  · intro f found
    rw [here] at found
    cases found
    exact ⟨other, holds.le reached⟩
  · intro duty member
    rcases held.duties duty member with plain | ⟨_, _, flies, _⟩
    · exact .inl plain
    · exact (flies (idle duty member)).elim

theorem BaseHeld.moves (held : BaseHeld accept v p nextOp d) (lands : Lands cause v p d)
    (moves : v.Moves cause w) : BaseHeld accept w p nextOp d := by
  cases moves with
  | kept index file busy highest => exact held.kept index file busy highest
  | landed action hard index file done image here base highest =>
    exact held.landed lands done image here base highest

-- The books may change as long as the snapshot batches stay the same.
theorem BaseHeld.wal (held : BaseHeld accept v p nextOp d) {action : Persist} {hard : Option HardState}
    {ops : List OpId} {later : OpId} (plain : action.image = none)
    (ledger : (p.opened .wal action hard ops).Ledger later) :
    BaseHeld accept v (p.opened .wal action hard ops) later d := by
  have split : ∀ duty ∈ (p.opened .wal action hard ops).duties, duty ∈ p.duties ∨
      duty.file = .wal ∧ duty.action.image = none := by
    intro duty member
    rw [opened_opens.2] at member
    rcases List.mem_append.mp member with old | new
    · exact .inl old
    · rw [List.mem_singleton.mp new]
      exact .inr ⟨rfl, plain⟩
  refine ⟨ledger, held.highest, held.unwritten, held.held, ?_, ?_, ?_⟩
  · intro duty member
    exact (split duty member).elim (held.duties duty) .inl
  · intro duty member other member' flies flies'
    rcases split duty member with old | new
    · rcases split other member' with old' | new'
      · exact held.single duty old other old' flies flies'
      · exact (flies' new'.1).elim
    · exact (flies new.1).elim
  · refine held.backed.opened held.ledger (fun _ _ => id) (fun _ _ => id) fun _ index file image => ?_
    rw [plain] at image
    cases image

theorem image_clamp (action : Persist) (cap : Nat) : (action.clamp cap).image = action.image := by
  cases action <;> rfl

theorem BaseHeld.clamp (held : BaseHeld accept v p nextOp d) (cap : Nat) :
    BaseHeld accept v (p.clampAll cap) nextOp d := by
  have old : ∀ duty ∈ (p.clampAll cap).duties, ∃ before ∈ p.duties,
      duty = { before with action := before.action.clamp cap } := by
    intro duty member
    rw [duties_clampAll] at member
    obtain ⟨before, found, rfl⟩ := List.mem_map.mp member
    exact ⟨before, found, rfl⟩
  refine ⟨held.ledger.clampAll cap, held.highest, held.unwritten, held.held, ?_, ?_, ?_⟩
  · intro duty member
    obtain ⟨before, found, rfl⟩ := old duty member
    have known := held.duties before found
    simp only [Duty.Flying, image_clamp] at known ⊢
    exact known
  · intro duty member other member' flies flies'
    obtain ⟨before, found, rfl⟩ := old duty member
    obtain ⟨before', found', rfl⟩ := old other member'
    rw [held.single before found before' found' flies flies']
  · refine held.backed.clampAll cap ?_ ?_
    · intro duty awaits index file image
      exact awaits index file (by rwa [image_clamp] at image)
    · intro duty landed index file image
      exact landed index file (by rwa [image_clamp] at image)

theorem Lands.moves (lands : Lands cause v p d) (moves : v.Moves cause w) : Lands cause w p d := by
  intro action hard index file done image
  obtain ⟨other, holds, below, claimed, idle⟩ := lands action hard index file done image
  cases moves with
  | kept same _ _ highest => exact ⟨other, holds, same ▸ below, claimed.trans highest, idle⟩
  | landed action' hard' index' file' done' image' _ base highest =>
    rw [done] at done'
    cases done'
    rw [image] at image'
    cases image'
    exact ⟨other, holds, base.trans (max_le below le_rfl), highest ▸ claimed, idle⟩

theorem Lands.books {p' : Persister} (lands : Lands cause v p d)
    (wal : ∀ duty ∈ p'.duties, duty.file = .wal ∨ ∃ before ∈ p.duties, duty.file = before.file)
    (same : SameSnapshots d d') : Lands cause v p' d' := by
  intro action hard index file done image
  obtain ⟨other, holds, below, claimed, idle⟩ := lands action hard index file done image
  refine ⟨other, holds.same same other, below, claimed, fun duty member => ?_⟩
  rcases wal duty member with here | ⟨before, old, same⟩
  · exact here
  · rw [same]
    exact idle before old

-- The write of a snapshot image begins.
theorem BaseHeld.begins {n m : Node} {snap : Snapshot} {action : Persist}
    (held : BaseHeld accept n.base n.persister n.nextOp d) (free : n.snapshotInFlight = false)
    (image : action.image = some (snap.index, n.nextSnapshotFile))
    (newer : n.log.snapshotIndex < snap.index ∨ n.highestSnapshot < snap.index)
    (opened : n.Opened m n.nextSnapshotFile action none (snap.writes n.nextOp n.nextSnapshotFile))
    (same : m.base = { n.base with busy := true, highest := max n.highestSnapshot snap.index })
    (readable : (Snapshot.decode snap.encode).isSome) (range : snap.index < 2 ^ 64) :
    BaseHeld accept m.base m.persister m.nextOp
      (d.performAll accept (snap.writes n.nextOp n.nextSnapshotFile)) := by
  have target : n.nextSnapshotFile ≠ .wal ∧ n.base.file ≠ some n.nextSnapshotFile := by
    simp only [Raft.nextSnapshotFile, Raft.base]
    split
    · next here =>
      rw [here]
      exact ⟨by decide, by decide⟩
    · next here => exact ⟨by decide, here⟩
  have ahead : n.base.index < snap.index := newer.elim id held.highest.trans_lt
  obtain ⟨got, read⟩ := Option.isSome_iff_exists.mp readable
  have index : got.index = snap.index := by
    rw [Snapshot.index_of_decode_encode read, Nat.mod_eq_of_lt range]
  -- no other image is in flight, so every other batch is on the write-ahead file
  have plain : ∀ duty ∈ n.persister.duties, duty.file = .wal ∧ duty.action.image = none := by
    intro duty member
    rcases held.duties duty member with plain | ⟨_, _, _, _, busy, _⟩
    · exact plain
    · rw [Raft.base, free] at busy
      cases busy
  have others : ∀ file, file ≠ n.nextSnapshotFile →
      (d.performAll accept (snap.writes n.nextOp n.nextSnapshotFile)).file file = d.file file := by
    intro file differs
    refine Disk.performAll_other fun e member same => differs ?_
    have writes := (opened.file e member).file
    rw [writes] at same
    cases same
    rfl
  have split : ∀ duty ∈ m.persister.duties, duty ∈ n.persister.duties ∨
      duty = { id := n.persister.nextId + 1, file := n.nextSnapshotFile, action, hard := none } := by
    intro duty member
    rw [opened.persister, opened_opens.2] at member
    exact (List.mem_append.mp member).imp id List.mem_singleton.mp
  rw [same]
  refine ⟨opened.ledger held.ledger, le_max_of_le_left held.highest, held.unwritten, ?_, ?_, ?_, ?_⟩
  · intro file here
    obtain ⟨other, holds⟩ := held.held file here
    refine ⟨other, ?_⟩
    rw [Disk.Holds, others file fun same => target.2 (same ▸ here)]
    exact holds
  · intro duty member
    rcases split duty member with old | rfl
    · exact .inl (plain duty old)
    · exact .inr ⟨snap.index, image, target.1, target.2, rfl, ahead, le_max_right _ _⟩
  · intro duty member other member' flies flies'
    rcases split duty member with old | rfl
    · exact (flies (plain duty old).1).elim
    · rcases split other member' with old' | rfl
      · exact (flies' (plain other old').1).elim
      · rfl
  · rw [opened.persister]
    refine held.backed.opened held.ledger ?_ ?_ ?_
    · intro duty member _ index file image
      rw [(plain duty member).2] at image
      cases image
    · intro duty member _ index file image
      rw [(plain duty member).2] at image
      cases image
    · intro accepted index' file image'
      rw [image] at image'
      cases image'
      have first : accept n.nextOp = true := accepted _ (by simp [Snapshot.writes, Effect.op])
      have second : accept (n.nextOp + 1) = true := accepted _ (by simp [Snapshot.writes, Effect.op])
      refine ⟨(d.file n.nextSnapshotFile).pending, snap.encode, got, ?_, read, index.ge⟩
      simp [Disk.performAll, Snapshot.writes, Disk.perform, SimFile.issue, first, second]

structure Compacting (accept : OpId → Bool) (d : Disk) (cause : Cause) (n : Node) : Prop where
  held : BaseHeld accept n.base n.persister n.nextOp (d.performAll accept n.effects)
  lands : Lands cause n.base n.persister (d.performAll accept n.effects)

def Effect.Readable : Effect → Prop
  | .writeAt _ file _ bytes => file = .wal ∨ (Snapshot.decode bytes).isSome = true
  | _ => True

instance : (e : Effect) → Decidable e.Readable
  | .writeAt .. => inferInstanceAs (Decidable (_ ∨ _))
  | .send .. | .setLen .. | .sync .. => inferInstanceAs (Decidable True)

theorem Act.compacting {r : Raft} {n m : Node} (act : Act cause r n m)
    (readable : ∀ e ∈ m.effects, e.Readable) (range : m.highestSnapshot < 2 ^ 64)
    (mid : Compacting accept d cause n) : Compacting accept d cause m := by
  have moves := act.moves
  have held := mid.held.moves mid.lands moves
  have lands := mid.lands.moves moves
  cases act.asks mid.held.ledger.ordered with
  | nothing out sends persister effects nextOp =>
    have same : SameSnapshots (d.performAll accept n.effects) (d.performAll accept m.effects) := by
      rw [effects, Disk.performAll_append]
      refine Disk.sameSnapshots_performAll fun e member f file => ?_
      rw [Effect.file_none (sends e member)] at file
      cases file
    refine ⟨?_, ?_⟩
    · rw [persister, nextOp]
      exact held.disk same
    · rw [persister]
      exact lands.books (fun duty member => .inr ⟨duty, member, rfl⟩) same
  | clamp cap persister effects nextOp =>
    refine ⟨?_, ?_⟩
    · rw [persister, nextOp, effects]
      exact held.clamp cap
    · rw [persister, effects]
      refine lands.books (fun duty member => .inr ?_) fun _ _ => rfl
      rw [duties_clampAll] at member
      obtain ⟨before, found, rfl⟩ := List.mem_map.mp member
      exact ⟨before, found, rfl⟩
  | wal action hard writes _ plain _ opened =>
    have same : SameSnapshots (d.performAll accept n.effects) (d.performAll accept m.effects) := by
      rw [opened.effects, Disk.performAll_append]
      refine Disk.sameSnapshots_performAll fun e member f file => ?_
      rw [(opened.file e member).file] at file
      cases file
      rfl
    have ledger := opened.ledger mid.held.ledger
    refine ⟨?_, ?_⟩
    · rw [opened.persister] at ledger ⊢
      exact (held.wal plain ledger).disk same
    · rw [opened.persister]
      refine lands.books (fun duty member => ?_) same
      rw [opened_opens.2] at member
      rcases List.mem_append.mp member with old | new
      · exact .inr ⟨duty, old, rfl⟩
      · rw [List.mem_singleton.mp new]
        exact .inl rfl
  | snapshot snap action free fresh _ image newer log file busy highest _ opened =>
    refine ⟨?_, fun action hard _ _ done => (fresh action hard done).elim⟩
    have written : Effect.writeAt (n.nextOp + 1) n.nextSnapshotFile 0 snap.encode ∈ m.effects := by
      rw [opened.effects]
      exact List.mem_append_right _ (by simp [Snapshot.writes])
    have target : n.nextSnapshotFile ≠ .wal := by
      unfold Raft.nextSnapshotFile
      split <;> decide
    rw [opened.effects, Disk.performAll_append]
    refine mid.held.begins free image newer opened ?_ ((readable _ written).resolve_left target) ?_
    · simp only [Raft.base, log, file, busy, highest]
    · rw [highest] at range
      exact (le_max_right _ _).trans_lt range
  | clear persister effects nextOp =>
    have same : SameSnapshots (d.performAll accept n.effects) (d.performAll accept m.effects) := by
      rw [effects, Disk.performAll_append]
      refine Disk.sameSnapshots_performAll fun e member f file => ?_
      simp only [List.mem_cons, List.not_mem_nil, or_false] at member
      rcases member with rfl | rfl <;> cases file <;> rfl
    refine ⟨?_, ?_⟩
    · rw [persister, nextOp]
      have later := held.disk same
      exact { later with ledger := later.ledger.later (Nat.le_add_right _ _) }
    · rw [persister]
      exact lands.books (fun duty member => .inr ⟨duty, member, rfl⟩) same

theorem BaseHeld.strike {op : OpId} {id : Nat} {kind : OpKind} {batches : List Batch}
    (held : BaseHeld accept v p nextOp d) (known : (op, id, kind) ∈ p.ops)
    (fewer : batches.Sublist p.batches) (gone : ∀ b ∈ batches, b.id ≠ id) :
    BaseHeld accept v { p.without op with batches } nextOp d where
  ledger := held.ledger.strike known fewer gone
  highest := held.highest
  unwritten := held.unwritten
  held := held.held
  duties duty member := held.duties duty ((fewer.map _).subset member)
  single duty member other member' :=
    held.single duty ((fewer.map _).subset member) other ((fewer.map _).subset member')
  backed := held.backed.strike held.ledger known fewer gone

theorem duties_wrote (p : Persister) (op : OpId) (id : Nat) :
    ((p.without op).modifyBatch id Batch.wrote).duties = p.duties :=
  (p.without op).duties_modifyBatch id fun _ => rfl

theorem BaseHeld.wrote {op : OpId} {b : Batch} (held : BaseHeld accept v p nextOp d)
    (known : (op, b.id, .write) ∈ p.ops) (member : b ∈ p.batches) (taken : accept op = true) :
    BaseHeld accept v ((p.without op).modifyBatch b.id Batch.wrote) nextOp d := by
  have duties := duties_wrote p op b.id
  refine ⟨held.ledger.wrote known member, held.highest, held.unwritten, held.held, ?_, ?_, ?_⟩
  · rw [duties]
    exact held.duties
  · rw [duties]
    exact held.single
  · exact held.backed.wrote held.ledger member taken

-- A sync that the device takes lands the image that was awaited.
theorem Disk.Awaits.sync {index : Nat} {file : FileId} {op : OpId} (awaits : d.Awaits index file)
    (taken : accept op = true) : (d.perform accept (.sync op file)).Holds index file := by
  obtain ⟨prior, bytes, snap, pending, read, reaches⟩ := awaits
  have image : ((d.perform accept (.sync op file)).file file).durable = bytes := by
    simp only [Disk.perform, Disk.file_setFile, SimFile.sync, taken, if_true, pending, List.foldl_append,
      List.foldl_cons, List.foldl_nil, WriteKind.apply_rewritten]
  refine ⟨?_, snap, ?_, reaches⟩
  · simp [Disk.perform, SimFile.sync, taken]
  · rw [image]
    exact read

theorem BaseHeld.sync {op : OpId} {b : Batch} (held : BaseHeld accept v p nextOp d)
    (known : (op, b.id, .write) ∈ p.ops) (member : b ∈ p.batches) (none : b.writesOutstanding - 1 = 0)
    (fresh : b.syncIssued = false) (taken : accept op = true) :
    BaseHeld accept v (((p.without op).modifyBatch b.id Batch.wrote).noteSync b.id nextOp) (nextOp + 1)
      (d.perform accept (.sync nextOp b.file)) := by
  have wrote := held.wrote known member taken
  have inside : b.wrote ∈ ((p.without op).modifyBatch b.id Batch.wrote).batches :=
    List.mem_map.mpr ⟨b, member, if_pos rfl⟩
  have nothing : ((p.without op).modifyBatch b.id Batch.wrote).opsOf b.id = [] :=
    held.ledger.opsOf_last known member none
  generalize (p.without op).modifyBatch b.id Batch.wrote = q at wrote inside nothing ⊢
  have duty : b.duty ∈ q.duties := List.mem_map.mpr ⟨b.wrote, inside, rfl⟩
  have others : ∀ file, file ≠ b.file →
      (d.perform accept (.sync nextOp b.file)).file file = d.file file := by
    intro file differs
    exact Disk.perform_other (by simpa [Effect.file] using Ne.symm differs)
  -- a file with a durable image has nothing in flight, so its sync changes nothing there
  have holds : ∀ index file, d.Holds index file →
      (d.perform accept (.sync nextOp b.file)).Holds index file := by
    intro index file ⟨settled, snap, read, reaches⟩
    by_cases same : file = b.file
    · subst same
      have still : (d.perform accept (.sync nextOp b.file)).file b.file = d.file b.file := by
        simp only [Disk.perform, Disk.file_setFile, SimFile.sync]
        split
        · rw [settled, List.foldl_nil, ← settled]
        · rfl
      rw [Disk.Holds, still]
      exact ⟨settled, snap, read, reaches⟩
    · rw [Disk.Holds, others file same]
      exact ⟨settled, snap, read, reaches⟩
  refine ⟨wrote.ledger.noteSync (b := b.wrote) inside nothing, wrote.highest, wrote.unwritten,
    ?_, ?_, ?_, ?_⟩
  · intro file here
    exact ⟨(wrote.held file here).1, holds _ _ (wrote.held file here).2⟩
  · rw [duties_noteSync]
    exact wrote.duties
  · rw [duties_noteSync]
    exact wrote.single
  · refine wrote.backed.noteSync (b := b.wrote) wrote.ledger inside nothing fresh ?_ ?_ ?_
    · intro other found differs awaits index file image
      obtain ⟨rfl, _, _, flies, _⟩ := wrote.image_file found image
      have apart : other.file ≠ b.file := by
        intro same
        have alone := wrote.single other found b.duty duty flies
          fun here => flies (same.trans here)
        exact differs (congrArg Duty.id alone)
      rw [Disk.Awaits, others _ apart]
      exact awaits index _ image
    · intro other found landed index file image
      exact holds index file (landed index file image)
    · intro accepted awaits index file image
      obtain ⟨rfl, _⟩ := wrote.image_file duty image
      exact (awaits index _ image).sync accepted

theorem Lands.other (apart : ∀ action hard, cause ≠ .durable action hard) : Lands cause v p d :=
  fun action hard _ _ done => (apart action hard done).elim

theorem Node.noteDurable_base (n : Node) (hard : Option HardState) :
    (n.noteDurable hard).base = n.base ∧ (n.noteDurable hard).persister = n.persister := by
  cases hard with
  | none => exact ⟨rfl, rfl⟩
  | some hs =>
    obtain ⟨_, _, raft, _⟩ := n.noteDurable_spec hs
    rw [Raft.base, raft]
    exact ⟨rfl, rfl⟩

-- The snapshot a completed batch wrote is on disk.
theorem BaseHeld.lands {op : OpId} {b : Batch} {hard : Option HardState}
    (held : BaseHeld accept v p nextOp d) (known : (op, b.id, .sync) ∈ p.ops) (member : b ∈ p.batches)
    (taken : accept op = true) :
    Lands (.durable b.action hard) v
      { p.without op with batches := p.batches.filter fun other => other.id ≠ b.id } d := by
  rintro action hard' index file ⟨⟩ image
  have duty : b.duty ∈ p.duties := List.mem_map_of_mem member
  obtain ⟨rfl, i, image', flies, _, _, newer, claimed⟩ := held.image_file duty image
  have same : b.action.image = some (i, b.file) := image'
  rw [same] at image
  cases image
  refine ⟨flies, held.backed.done held.ledger known member taken _ _ image', newer.le, claimed, ?_⟩
  intro other found
  obtain ⟨b', found', rfl⟩ := List.mem_map.mp found
  obtain ⟨member', differs⟩ := List.mem_filter.mp found'
  by_contra flies'
  have alone := held.single b'.duty (List.mem_map_of_mem member') b.duty duty flies' flies
  exact (of_decide_eq_true differs) (congrArg Duty.id alone)

-- Where an input begins, the books are in order.
theorem Server.Begins.compacting {s : Server} {now : Nat} {input : Input} {n : Node}
    (begins : s.Begins now input cause n)
    (answers : ∀ op ok, input = .storage op ok → ok = accept op)
    (held : BaseHeld accept s.raft.base s.raft.persister s.nextOp d) : Compacting accept d cause n := by
  cases begins with
  | message | timer | propose | proposeMembers | reconfigure | read | drain | dead =>
    exact ⟨held, .other nofun⟩
  | booked op ok p completed =>
    refine ⟨?_, .other nofun⟩
    have answer := answers op ok rfl
    have completion := held.ledger.completion op ok
    rw [completed] at completion
    cases completion with
    | unknown => exact held
    | orphan id kind known gone => exact held.strike known (.refl _) gone
    | wrote b known member => exact held.wrote known member answer.symm
  | failed op ok p completed =>
    refine ⟨?_, .other nofun⟩
    have completion := held.ledger.completion op ok
    rw [completed] at completion
    cases completion with
    | refused id kind known =>
      exact held.strike known List.filter_sublist fun b member => of_decide_eq_true (List.mem_filter.mp member).2
  | sync op ok id file p completed =>
    refine ⟨?_, .other nofun⟩
    have answer := answers op ok rfl
    have completion := held.ledger.completion op ok
    rw [completed] at completion
    cases completion with
    | last b known member none fresh => exact held.sync known member none fresh answer.symm
  | done op ok action hard p completed =>
    have answer := answers op ok rfl
    have completion := held.ledger.completion op ok
    rw [completed] at completion
    cases completion with
    | synced b known member =>
      obtain ⟨base, persister⟩ := Node.noteDurable_base { s.wake now with
        persister := { s.raft.persister.without op with
          batches := s.raft.persister.batches.filter fun other => other.id ≠ b.id } } b.hard
      refine ⟨?_, ?_⟩
      · rw [base, persister, Node.noteDurable_toIo]
        exact held.strike known List.filter_sublist fun b member =>
          of_decide_eq_true (List.mem_filter.mp member).2
      · rw [base, persister, Node.noteDurable_toIo]
        exact held.lands known member answer.symm

theorem Base.Moves.highest_le (moves : v.Moves cause w) : v.highest ≤ w.highest := by
  cases moves with
  | kept _ _ _ highest => exact highest
  | landed _ _ _ _ _ _ _ _ highest => exact highest.ge

-- One input, as long as the snapshots it writes can be read.
theorem Server.handle_compacting {s : Server} {now : Nat} {input : Input}
    (answers : ∀ op ok, input = .storage op ok → ok = accept op)
    (held : BaseHeld accept s.raft.base s.raft.persister s.nextOp d)
    (calm : (s.handle now input).1.panicked = false)
    (readable : ∀ e ∈ (s.handle now input).1.effects, e.Readable)
    (range : (s.handle now input).1.highestSnapshot < 2 ^ 64) :
    ∃ cause, Compacting accept d cause (s.handle now input).1 := by
  -- the images are known to be readable only at the end, so the invariant waits for that
  have rule := @Server.handle_rule s (fun cause _ n => n.persister.Ledger n.nextOp ∧
    ((∀ e ∈ n.effects, e.Readable) → n.highestSnapshot < 2 ^ 64 → Compacting accept d cause n)) now input
  obtain ⟨cause, _, _, last⟩ := rule
    (by
      intro cause n begins
      have begun := begins.compacting answers held
      exact ⟨begun.held.ledger, fun _ _ => begun⟩)
    (by
      rintro cause r n m ⟨ledger, mid⟩ act
      have asks := act.asks ledger.ordered
      obtain ⟨out, grown⟩ := asks.effects
      refine ⟨asks.ledger ledger, fun readable range => ?_⟩
      refine act.compacting readable range (mid ?_ ?_)
      · intro e member
        exact readable e (grown ▸ List.mem_append_left _ member)
      · exact act.moves.highest_le.trans_lt range)
    calm
  exact ⟨cause, last readable range⟩

theorem pickSnapshot_file {a b : Bytes} {snap : Snapshot} {source : Nat}
    (picked : pickSnapshotWithSource a b = some (snap, source)) :
    source = 0 ∧ Snapshot.decode a = some snap ∨ source = 1 ∧ Snapshot.decode b = some snap := by
  unfold pickSnapshotWithSource at picked
  cases first : Snapshot.decode a with
  | none =>
    cases second : Snapshot.decode b with
    | none => simp [first, second] at picked
    | some y => simp_all
  | some x =>
    cases second : Snapshot.decode b with
    | none => simp_all
    | some y =>
      simp only [first, second, Option.some.injEq] at picked
      split at picked <;> simp_all

-- The snapshot picked is as new as the one in either file.
theorem pickSnapshot_newest {a b : Bytes} {snap : Snapshot}
    (readable : Snapshot.decode a = some snap ∨ Snapshot.decode b = some snap) :
    ∃ best source, pickSnapshotWithSource a b = some (best, source) ∧ snap.index ≤ best.index := by
  unfold pickSnapshotWithSource
  cases first : Snapshot.decode a with
  | none =>
    cases second : Snapshot.decode b with
    | none => simp_all
    | some y => simp_all
  | some x =>
    cases second : Snapshot.decode b with
    | none => simp_all
    | some y =>
      simp only [first, second, Option.some.injEq] at readable
      by_cases newer : x.newerOrSame y
      · refine ⟨x, 0, by simp [newer], ?_⟩
        rcases newer with above | ⟨level, _⟩ <;> rcases readable with rfl | rfl <;> omega
      · refine ⟨y, 1, by simp [newer], ?_⟩
        rcases readable with rfl | rfl
        · exact not_lt.mp fun above => newer (.inl above)
        · exact le_rfl

-- However a node was left, it finds a base it can go on with.
theorem Survived.raft_held (a b : Bytes) {survived : Survived}
    (snapshot : survived.snapshotFile =
      (pickSnapshotWithSource a b).map fun picked => sourceFile picked.2)
    (base : survived.log.snapshotIndex =
      ((pickSnapshotWithSource a b).map fun picked => picked.1.index).getD 0)
    (id : NodeId) (members : List NodeId) (cfg : RaftConfig) (nextOp : OpId) {d : Disk}
    (fileA : d.snapshotA = .ofImage a) (fileB : d.snapshotB = .ofImage b) :
    BaseHeld accept (survived.raft id members cfg).base {} nextOp d where
  ledger := .empty nextOp
  highest := le_rfl
  unwritten none := by
    have absent : pickSnapshotWithSource a b = .none := by
      simpa using snapshot.symm.trans none
    change survived.log.snapshotIndex = 0
    rw [base, absent]
    rfl
  held file here := by
    change file ∈ survived.snapshotFile at here
    change file ≠ .wal ∧ d.Holds survived.log.snapshotIndex file
    rw [snapshot] at here
    obtain ⟨⟨snap, source⟩, picked, rfl⟩ := Option.map_eq_some_iff.mp here
    rw [base, picked]
    rcases pickSnapshot_file picked with ⟨rfl, read⟩ | ⟨rfl, read⟩
    · refine ⟨nofun, ?_, snap, ?_, le_rfl⟩
      · simp [sourceFile, Disk.file, fileA, SimFile.ofImage]
      · simpa [sourceFile, Disk.file, fileA, SimFile.ofImage] using read
    · refine ⟨nofun, ?_, snap, ?_, le_rfl⟩
      · simp [sourceFile, Disk.file, fileB, SimFile.ofImage]
      · simpa [sourceFile, Disk.file, fileB, SimFile.ofImage] using read
  duties duty member := by cases member
  single duty member := by cases member
  backed b member := by cases member

theorem Raft.recover_base (wal a b : Bytes) (id : NodeId) (members : List NodeId) (cfg : RaftConfig)
    (io : Io) :
    (Raft.recover wal a b id members cfg io).base = ((readDisk wal a b).raft id members cfg).base ∧
      (Raft.recover wal a b id members cfg io).persister = {} ∧
      (Raft.recover wal a b id members cfg io).nextOp = io.nextOp := by
  obtain ⟨_, _, _, _, _, raft, nextOp⟩ := Raft.recover_toRaft wal a b id members cfg io
  rw [Raft.base, raft]
  exact ⟨rfl, rfl, nextOp⟩

theorem BaseHeld.recover (wal a b : Bytes) (id : NodeId) (members : List NodeId) (cfg : RaftConfig)
    (io : Io) {d : Disk} (fileA : d.snapshotA = .ofImage a) (fileB : d.snapshotB = .ofImage b) :
    BaseHeld accept (Raft.recover wal a b id members cfg io).base
      (Raft.recover wal a b id members cfg io).persister
      (Raft.recover wal a b id members cfg io).nextOp d := by
  obtain ⟨base, persister, nextOp⟩ := Raft.recover_base wal a b id members cfg io
  rw [base, persister, nextOp]
  exact Survived.raft_held a b rfl rfl id members cfg io.nextOp fileA fileB

def Machine.WritesReadable (m : Machine) : MachineEvent → Prop
  | .input now input => ∀ e ∈ (m.react now input).effects, e.Readable
  | .crash .. => True

instance (m : Machine) : (event : MachineEvent) → Decidable (m.WritesReadable event)
  | .input .. => inferInstanceAs (Decidable (∀ e ∈ _, _))
  | .crash .. => inferInstanceAs (Decidable True)

def Machine.BaseHeld (accept : OpId → Bool) (m : Machine) : Prop :=
  SimKv.BaseHeld accept m.raft.base m.raft.persister m.nextOp m.disk

theorem Machine.BaseHeld.step {who : Identity} {m m' : Machine} {event : MachineEvent}
    (held : m.BaseHeld accept) (readable : m.WritesReadable event)
    (next : m.step who accept event = some m') : m'.BaseHeld accept := by
  cases event with
  | input now input =>
    simp only [Machine.step] at next
    split at next
    · next fine =>
      obtain ⟨possible, calm, range⟩ := fine
      cases next
      have answers : ∀ op ok, input = .storage op ok → ok = accept op := by
        rintro op ok rfl
        exact possible.2
      obtain ⟨_, last⟩ := Server.handle_compacting answers held calm readable (Nat.lt_of_succ_lt range.highestSnapshot)
      exact last.held
    · cases next
  | crash now loss =>
    simp only [Machine.step] at next
    split at next
    · cases next
      exact .recover _ _ _ _ _ _ _ rfl rfl
    · cases next

-- A file with nothing pending comes through power loss as it is.
theorem Disk.Holds.image {index : Nat} {file : FileId} (holds : d.Holds index file) {loss : PowerLoss}
    (possible : loss.Possible d) :
    ∃ snap, Snapshot.decode (d.image loss file) = some snap ∧ index ≤ snap.index := by
  obtain ⟨settled, snap, read, reaches⟩ := holds
  have untouched : loss file = [] := by
    have perm := possible file
    rw [settled] at perm
    exact List.map_eq_nil_iff.mp perm.eq_nil
  refine ⟨snap, ?_, reaches⟩
  rw [Disk.image, untouched]
  exact read

/-- Whatever power loss does to the writes in flight, the snapshot that recovery picks covers all that
was compacted away; there is none only if nothing ever was. -/
theorem compaction_base_survives {who : Identity} {m : Machine} {loss : PowerLoss}
    (reached : Machine.Reachable who accept Machine.WritesReadable m) (possible : loss.Possible m.disk) :
    m.raft.log.snapshotIndex = 0 ∨
      ∃ snap source,
        pickSnapshotWithSource (m.disk.image loss .snapshotA) (m.disk.image loss .snapshotB) =
          some (snap, source) ∧ m.raft.log.snapshotIndex ≤ snap.index := by
  have first : (Machine.init who).BaseHeld accept :=
    BaseHeld.recover [] [] [] who.id who.members who.cfg {} rfl rfl
  have held : m.BaseHeld accept :=
    reached.invariant first fun _ _ _ held readable next => held.step readable next
  cases here : m.raft.durableSnapshotFile with
  | none => exact .inl (held.unwritten here)
  | some file =>
    right
    obtain ⟨other, holds⟩ := held.held file here
    obtain ⟨snap, read, reaches⟩ := holds.image possible
    have readable : Snapshot.decode (m.disk.image loss .snapshotA) = some snap ∨
        Snapshot.decode (m.disk.image loss .snapshotB) = some snap := by
      cases file with
      | wal => exact (other rfl).elim
      | snapshotA => exact .inl read
      | snapshotB => exact .inr read
    obtain ⟨best, source, picked, newest⟩ := pickSnapshot_newest readable
    exact ⟨best, source, picked, reaches.trans newest⟩

def hermit : Identity where
  id := 0
  members := [0]
  cfg := { preVote := false, snapshotThreshold := 1 }

def loneCompaction : List MachineEvent :=
  [.input 0 (.timer .election), .input 0 (.storage 1 true), .input 0 (.storage 2 true),
    .input 0 (.storage 3 true), .input 0 (.storage 4 true), .input 0 (.drain []),
    .input 0 (.storage 5 true), .input 0 (.storage 6 true), .input 0 (.storage 7 true)]

def secondCompaction : List MachineEvent :=
  loneCompaction ++ [.input 0 (.propose { client := 1, seq := 1, op := .put "k" "v" }), .input 0 (.storage 8 true),
    .input 0 (.storage 9 true), .input 0 (.drain [])]

-- The other file has been emptied, and the write of the new image is torn.
def tornSecond : PowerLoss
  | .snapshotB =>
    [(.setLen 0, .whole),
      (.data 0 (Snapshot.encode { seq := 2, index := 2, term := 1, data := encodeSnapshotPayload [0] [] }), .torn 20)]
  | _ => []

theorem secondCompaction_torn :
    (Execution.play (Machine.step hermit fun _ => true) Machine.WritesReadable (Machine.init hermit)
      secondCompaction).map
      (fun m => (m.raft.log.snapshotIndex, m.raft.lastApplied, decide (tornSecond.Possible m.disk),
        (Snapshot.decode (m.disk.image tornSecond .snapshotB)).isSome)) =
    some (1, 2, true, false) := by decide +kernel

theorem compaction_base_survives_lone : ∃ m : Machine,
    Machine.Reachable hermit (fun _ => true) Machine.WritesReadable m ∧ m.raft.log.snapshotIndex = 1 ∧
      tornSecond.Possible m.disk ∧ Snapshot.decode (m.disk.image tornSecond .snapshotB) = none ∧
      ∃ snap source,
        pickSnapshotWithSource (m.disk.image tornSecond .snapshotA) (m.disk.image tornSecond .snapshotB) =
          some (snap, source) ∧ 1 ≤ snap.index := by
  obtain ⟨m, played, known⟩ := Option.map_eq_some_iff.mp secondCompaction_torn
  simp only [Prod.mk.injEq, decide_eq_true_eq, Option.isSome_eq_false_iff, Option.isNone_iff_eq_none] at known
  obtain ⟨base, -, possible, unreadable⟩ := known
  have reached : Machine.Reachable hermit (fun _ => true) Machine.WritesReadable m :=
    Execution.run_of_play played
  refine ⟨m, reached, base, possible, unreadable, ?_⟩
  rcases compaction_base_survives reached possible with none | found
  · rw [base] at none
    cases none
  · rw [base] at found
    exact found

end SimKv
