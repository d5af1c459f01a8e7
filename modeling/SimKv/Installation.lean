import SimKv.Checker.Durability
import SimKv.Compaction
import SimKv.Kv.Image
import SimKv.Slots

set_option autoImplicit false

/-!
# A crash while a snapshot is installed

The image goes to one file, the hard state and the log region to another, each with a sync of its own, and the
region is reset only when the image is known to be durable. Recovery joins whatever the two files hold.
-/

namespace SimKv

/-- A snapshot that a leader sends. -/
structure Offer where
  src : NodeId
  dst : NodeId
  leader : NodeId
  term : Nat
  index : Nat
  indexTerm : Nat
  data : Bytes

namespace Offer

def msg (o : Offer) : RaftMsg := .installSnapshot o.term o.leader o.index o.indexTerm o.data

def packet (o : Offer) : Packet := { src := o.src, dst := o.dst, msg := o.msg }

end Offer

def Disk.survived (d : Disk) : Survived := readDisk d.wal.durable d.snapshotA.durable d.snapshotB.durable

def Disk.left (d : Disk) (loss : PowerLoss) : Survived :=
  readDisk (d.image loss .wal) (d.image loss .snapshotA) (d.image loss .snapshotB)

def keptAbove (hardTerm snapIndex : Nat) (region : Bytes) : List Entry :=
  (keptEntries hardTerm snapIndex (snapIndex + 1)
    ((recoverLogAnyStart region).entries.zip (recoverLogAnyStart region).offsets)).map Prod.fst

namespace Machine

/-- Nothing is on its way to the disk, and the disk holds the node's hard state, snapshot and log. -/
structure AtRest (m : Machine) : Prop where
  settled : ∀ file, m.disk.file file = .ofImage (m.disk.file file).durable
  batches : m.raft.persister.batches = []
  ops : m.raft.persister.ops = []
  landed : m.raft.snapshotInFlight = false
  hard : HardOnDisk m.disk.wal.durable m.disk.survived.hard
  term : m.raft.term = m.disk.survived.hard.term
  seq : m.raft.stateSeq = m.disk.survived.hard.seq + 1
  snapshotFile : m.raft.durableSnapshotFile = m.disk.survived.snapshotFile
  snapshotIndex : m.raft.log.snapshotIndex = m.disk.survived.log.snapshotIndex
  entries : m.raft.log.entries = m.disk.survived.log.entries
  highest : m.raft.log.snapshotIndex ≤ m.raft.highestSnapshot

/-- The offer is ahead of all the node has committed and claimed, and the log does not hold its last entry. -/
structure Lacks (m : Machine) (o : Offer) : Prop where
  uncommitted : m.raft.commitIndex < o.index
  newer : m.raft.highestSnapshot < o.index
  differs : m.raft.log.termAt o.index ≠ some o.indexTerm

def offered (m : Machine) (o : Offer) : Snapshot :=
  { seq := m.raft.snapshotSeq, index := o.index, term := o.indexTerm, data := o.data }

def adopting (m : Machine) (o : Offer) : HardState := { term := o.term, votedFor := none, seq := m.raft.stateSeq }

inductive Installing (who : Identity) (accept : OpId → Bool) (m : Machine) (now : Nat) (o : Offer) : Machine → Prop where
  | received {s : Machine} (next : m.step who accept (.input now (.deliver o.packet)) = some s) :
      Installing who accept m now o s
  | completed {s s' : Machine} (before : Installing who accept m now o s) (later : Nat) (op : OpId) (ok : Bool)
      (next : s.step who accept (.input later (.storage op ok)) = some s') : Installing who accept m now o s'

/-- Torn images fail their checksums: where the node writes, nothing is read, or what was written, or what was
there before. -/
structure TearsShow (m : Machine) (o : Offer) (d : Disk) (loss : PowerLoss) : Prop where
  slot : slotRead (d.image loss .wal) (m.raft.stateSeq % 2) = none ∨
    slotRead (d.image loss .wal) (m.raft.stateSeq % 2) = some (m.adopting o) ∨
    slotRead (d.image loss .wal) (m.raft.stateSeq % 2) = slotRead m.disk.wal.durable (m.raft.stateSeq % 2)
  snapshot : Snapshot.decode (d.image loss m.raft.nextSnapshotFile) = none ∨
    Snapshot.decode (d.image loss m.raft.nextSnapshotFile) = some (m.offered o) ∨
    Snapshot.decode (d.image loss m.raft.nextSnapshotFile) =
      Snapshot.decode (m.disk.file m.raft.nextSnapshotFile).durable

def OldOrNew (m : Machine) (o : Offer) (found : Survived) : Prop :=
  found.snapshot = m.disk.survived.snapshot ∧ found.log.entries = m.raft.log.entries ∨
    found.snapshot = some (m.offered o) ∧ ∀ e ∈ m.raft.log.entries, o.index < e.index → e ∉ found.log.entries

def InstallsAtomically (who : Identity) (m : Machine) (now : Nat) (o : Offer) : Prop :=
  ∀ accept s, Installing who accept m now o s → ∀ loss, loss.Possible s.disk → m.TearsShow o s.disk loss →
    m.OldOrNew o (s.disk.left loss)

def entriesUnder (m : Machine) (term : Nat) : List Entry :=
  keptAbove term m.raft.log.snapshotIndex (m.disk.wal.durable.drop logRegion)

end Machine

section Joining

variable {wal a b : Bytes}

theorem readDisk_entries : (readDisk wal a b).log.entries =
    keptAbove (recoverHardState wal).term (((readDisk wal a b).snapshot.map Snapshot.index).getD 0)
      (wal.drop logRegion) := by
  simp only [readDisk, Option.map_map]
  rfl

theorem readDisk_snapshotIndex : (readDisk wal a b).log.snapshotIndex =
    ((readDisk wal a b).snapshot.map Snapshot.index).getD 0 := by
  simp only [readDisk, Option.map_map]
  rfl

-- An entry that is kept above a snapshot is kept above any later one that does not reach it.
theorem mem_keptAbove {hardTerm snapIndex later : Nat} {region : Bytes} {e : Entry}
    (kept : e ∈ keptAbove hardTerm snapIndex region) (newer : snapIndex ≤ later) (above : later < e.index) :
    e ∈ keptAbove hardTerm later region := by
  obtain ⟨first, follows, size, -, -⟩ := recoverLogAnyStart_run region
  by_cases reaches : first ≤ snapIndex + 1
  · rw [keptAbove, keptEntries_of_reaches size follows reaches, List.mem_filter] at kept
    rw [keptAbove, keptEntries_of_reaches size follows (by omega), List.mem_filter]
    exact ⟨kept.1, decide_eq_true above⟩
  · rw [keptAbove, keptEntries_of_gap follows (by omega)] at kept
    cases kept

def spareFile (files : FileId → Bytes) : FileId :=
  if (pickSnapshotWithSource (files .snapshotA) (files .snapshotB)).map (fun s => sourceFile s.2) = some .snapshotA
  then .snapshotB else .snapshotA

variable {files after : FileId → Bytes} {new : Snapshot}

theorem spareFile_cases (files : FileId → Bytes) :
    spareFile files = .snapshotA ∧ pickSnapshot (files .snapshotA) (files .snapshotB) = Snapshot.decode (files .snapshotB) ∧
        (∀ x ∈ Snapshot.decode (files .snapshotA), ∃ y ∈ Snapshot.decode (files .snapshotB), ¬ x.newerOrSame y) ∨
      spareFile files = .snapshotB ∧ pickSnapshot (files .snapshotA) (files .snapshotB) = Snapshot.decode (files .snapshotA) ∧
        ∃ x ∈ Snapshot.decode (files .snapshotA), ∀ y ∈ Snapshot.decode (files .snapshotB), x.newerOrSame y := by
  unfold spareFile pickSnapshotWithSource pickSnapshot
  cases Snapshot.decode (files .snapshotA) with
  | none =>
    cases Snapshot.decode (files .snapshotB) with
    | none => simp
    | some y => simp [sourceFile]
  | some x =>
    cases Snapshot.decode (files .snapshotB) with
    | none => simp [sourceFile]
    | some y =>
      by_cases newer : x.newerOrSame y
      · simp [newer, sourceFile]
      · simp [newer, sourceFile]

-- As long as the spare file reads as nothing or as before, the old snapshot is picked.
theorem pick_old (others : ∀ file, file ≠ .wal → file ≠ spareFile files → after file = files file)
    (same : Snapshot.decode (after (spareFile files)) = none ∨
      Snapshot.decode (after (spareFile files)) = Snapshot.decode (files (spareFile files))) :
    pickSnapshot (after .snapshotA) (after .snapshotB) = pickSnapshot (files .snapshotA) (files .snapshotB) := by
  rcases spareFile_cases files with ⟨spare, picked, older⟩ | ⟨spare, picked, x, read, newer⟩
  · rw [spare] at others same
    rw [picked, pickSnapshot, others .snapshotB nofun nofun]
    rcases same with none_ | old
    · rw [none_]
    · rw [old]
      cases first : Snapshot.decode (files .snapshotA) with
      | none => rfl
      | some x =>
        obtain ⟨y, read, worse⟩ := older x first
        rw [read]
        exact congrArg some (if_neg worse)
  · rw [spare] at others same
    rw [picked, pickSnapshot, others .snapshotA nofun nofun, read]
    rcases same with none_ | old
    · rw [none_]
    · rw [old]
      cases second : Snapshot.decode (files .snapshotB) with
      | none => rfl
      | some y => exact congrArg some (if_pos (newer y second))

-- Once it reads as something newer, that is picked.
theorem pick_new (others : ∀ file, file ≠ .wal → file ≠ spareFile files → after file = files file)
    (read : Snapshot.decode (after (spareFile files)) = some new)
    (newer : ∀ old ∈ pickSnapshot (files .snapshotA) (files .snapshotB), old.index < new.index) :
    pickSnapshot (after .snapshotA) (after .snapshotB) = some new := by
  rcases spareFile_cases files with ⟨spare, picked, -⟩ | ⟨spare, picked, -⟩
  · rw [spare] at others read
    rw [picked] at newer
    rw [pickSnapshot, others .snapshotB nofun nofun, read]
    cases second : Snapshot.decode (files .snapshotB) with
    | none => rfl
    | some y => exact congrArg some (if_pos (.inl (newer y second)))
  · rw [spare] at others read
    rw [picked] at newer
    rw [pickSnapshot, others .snapshotA nofun nofun, read]
    cases first : Snapshot.decode (files .snapshotA) with
    | none => rfl
    | some x =>
      have later := newer x first
      refine congrArg some (if_neg ?_)
      rintro (above | ⟨level, -⟩)
      · omega
      · omega

end Joining

namespace Machine

variable {m : Machine} {o : Offer} {now : Nat}

def hardWrites (m : Machine) (o : Offer) : List Effect :=
  if m.raft.term < o.term then [(m.adopting o).write m.nextOp] else []

def installing (m : Machine) (o : Offer) : Persist :=
  .snapshotInstalled o.index o.indexTerm o.data m.raft.nextSnapshotFile o.src o.term

def Expects (m : Machine) (o : Offer) (p : Persister) : Prop :=
  ∀ duty ∈ p.duties, duty.file = .wal ∧ duty.action = .quiet ∨
    duty.file = m.raft.nextSnapshotFile ∧ duty.action = m.installing o

structure Readied (m : Machine) (o : Offer) (n : Node) : Prop where
  effects : n.effects = m.hardWrites o
  duties : ∀ duty ∈ n.persister.duties, duty.file = .wal ∧ duty.action = .quiet
  ordered : n.persister.Ordered
  term : n.term = o.term
  log : n.log = m.raft.log
  commitIndex : n.commitIndex = m.raft.commitIndex
  highest : n.highestSnapshot = m.raft.highestSnapshot
  free : n.snapshotInFlight = m.raft.snapshotInFlight
  file : n.durableSnapshotFile = m.raft.durableSnapshotFile
  seq : n.snapshotSeq = m.raft.snapshotSeq
  stateSeq : m.raft.stateSeq ≤ n.stateSeq
  calm : n.panicked = false

theorem snapshotFile_ne_wal (m : Machine) : m.raft.nextSnapshotFile ≠ .wal := by
  rw [Raft.nextSnapshotFile]
  split
  · decide
  · decide

theorem AtRest.duties (rest : m.AtRest) : m.raft.persister.duties = [] := by
  rw [Persister.duties, rest.batches, List.map_nil]

theorem AtRest.ordered (rest : m.AtRest) : m.raft.persister.Ordered := by
  intro b member
  rw [rest.batches] at member
  cases member

theorem AtRest.readied (rest : m.AtRest) (current : m.raft.term ≤ o.term) :
    m.Readied o (if m.raft.term < o.term then (m.wake now).stepDownAndPersist o.term else m.wake now) := by
  split
  · next newer =>
    have opened := Node.persistHard_opened (n := (m.wake now).stepDown o.term) rest.ordered .quiet
    refine ⟨?_, ?_, ?_, rfl, rfl, rfl, rfl, rfl, rfl, rfl, Nat.le_succ _, rfl⟩
    · rw [hardWrites, if_pos newer]
      exact opened.effects
    · have books := congrArg Persister.duties opened.persister
      rw [Persister.opened_opens.2] at books
      intro duty member
      rw [Node.stepDownAndPersist, books] at member
      rcases List.mem_append.mp member with old | new
      · have none_ : duty ∈ m.raft.persister.duties := old
        rw [rest.duties] at none_
        cases none_
      · rw [List.mem_singleton.mp new]
        exact ⟨rfl, rfl⟩
    · rw [Node.stepDownAndPersist, opened.persister]
      exact Persister.opened_opens.ordered rest.ordered
  · next same =>
    refine ⟨?_, ?_, rest.ordered, ?_, rfl, rfl, rfl, rfl, rfl, rfl, le_rfl, rfl⟩
    · rw [hardWrites, if_neg same]
      rfl
    · intro duty member
      have none_ : duty ∈ m.raft.persister.duties := member
      rw [rest.duties] at none_
      cases none_
    · exact le_antisymm current (not_lt.mp same)

theorem Readied.heard {n : Node} (readied : m.Readied o n) (leader : NodeId) :
    m.Readied o (n.concede.heardFrom leader) := by
  obtain ⟨effects, duties, ordered, term, log, commitIndex, highest, free, file, seq, stateSeq, calm⟩ := readied
  unfold Node.concede
  split <;> exact ⟨effects, duties, ordered, term, log, commitIndex, highest, free, file, seq, stateSeq, calm⟩

structure Received (m : Machine) (o : Offer) (n : Node) : Prop where
  effects : ∃ op, n.effects = m.hardWrites o ++ (m.offered o).writes op m.raft.nextSnapshotFile
  expects : m.Expects o n.persister
  log : n.log = m.raft.log
  commitIndex : n.commitIndex = m.raft.commitIndex
  seq : n.snapshotSeq = m.raft.snapshotSeq + 1
  stateSeq : m.raft.stateSeq ≤ n.stateSeq
  calm : n.panicked = false

theorem Readied.received {n : Node} (readied : m.Readied o n) (rest : m.AtRest) (lacks : m.Lacks o) :
    m.Received o (n.installInTerm o.src o.index o.indexTerm o.data) := by
  have ahead : ¬ (o.index ≤ n.highestSnapshot ∨ o.index ≤ n.commitIndex) := by
    rw [readied.highest, readied.commitIndex]
    exact not_or.mpr ⟨not_le.mpr lacks.newer, not_le.mpr lacks.uncommitted⟩
  have free : n.snapshotInFlight ≠ true := by
    rw [readied.free, rest.landed]
    exact nofun
  have target : n.nextSnapshotFile = m.raft.nextSnapshotFile := by
    rw [Raft.nextSnapshotFile, readied.file]
    rfl
  rw [Node.installInTerm, if_neg ahead, if_neg free, target, readied.seq, readied.term]
  obtain ⟨p, raft, opens, -, calm⟩ := Node.writeSnapshot_spec (n.claimSnapshot o.index) readied.ordered
    m.raft.nextSnapshotFile (m.offered o) (m.installing o)
  have opened := Node.writeSnapshot_opened (n := n.claimSnapshot o.index) readied.ordered m.raft.nextSnapshotFile
    (m.offered o) (m.installing o)
  change m.Received o ((n.claimSnapshot o.index).writeSnapshot m.raft.nextSnapshotFile (m.offered o) (m.installing o))
  generalize (n.claimSnapshot o.index).writeSnapshot m.raft.nextSnapshotFile (m.offered o) (m.installing o) = k
    at raft opened calm ⊢
  have books : k.persister = p := by rw [raft]
  have log : k.log = n.log := by rw [raft]; rfl
  have commitIndex : k.commitIndex = n.commitIndex := by rw [raft]; rfl
  have seq : k.snapshotSeq = n.snapshotSeq + 1 := by rw [raft]; rfl
  have stateSeq : k.stateSeq = n.stateSeq := by rw [raft]; rfl
  refine ⟨⟨_, opened.effects.trans (congrArg (· ++ _) readied.effects)⟩, ?_, log.trans readied.log,
    commitIndex.trans readied.commitIndex, ?_, ?_, calm.trans readied.calm⟩
  · intro duty member
    rw [books, opens.2] at member
    rcases List.mem_append.mp member with old | new
    · exact .inl (readied.duties duty old)
    · rw [List.mem_singleton.mp new]
      exact .inr ⟨rfl, rfl⟩
  · rw [seq, readied.seq]
  · rw [stateSeq]
    exact readied.stateSeq

-- An offer that is neither stale nor too late is written.
theorem AtRest.received (rest : m.AtRest) (lacks : m.Lacks o) (alive : m.raft.failed = false)
    (current : m.raft.term ≤ o.term) : m.Received o (m.react now (.deliver o.packet)) := by
  have readied : m.Readied o (if m.raft.term < o.term then (m.wake now).stepDownAndPersist o.term else m.wake now) :=
    rest.readied current
  have ran : m.react now (.deliver o.packet) =
      (((if m.raft.term < o.term then (m.wake now).stepDownAndPersist o.term else m.wake now).concede.heardFrom
        o.leader).installInTerm o.src o.index o.indexTerm o.data) := by
    have dead : (m.wake now).failed ≠ true := by
      rw [show (m.wake now).failed = m.raft.failed from rfl, alive]
      exact nofun
    have fresh : ¬ o.term < (m.wake now).term := not_lt.mpr current
    simp only [react, Server.handle, Offer.packet, Offer.msg, Node.onMessage, if_neg dead, Node.onInstallSnapshot,
      if_neg fresh]
    rfl
  rw [ran]
  exact (readied.heard o.leader).received rest lacks

-- Any other offer leaves the disk and the books as they are.
theorem react_ignored (unheard : m.raft.failed = true ∨ o.term < m.raft.term) :
    (∀ e ∈ (m.react now (.deliver o.packet)).effects, e.op = none) ∧
      (m.react now (.deliver o.packet)).persister = m.raft.persister := by
  by_cases dead : (m.wake now).failed = true
  · have same : m.react now (.deliver o.packet) = m.wake now := by
      simp only [react, Server.handle, Node.onMessage, if_pos dead]
    rw [same]
    exact ⟨List.forall_mem_nil _, rfl⟩
  · have stale : o.term < (m.wake now).term := unheard.resolve_left dead
    have ran : m.react now (.deliver o.packet) =
        (m.wake now).send o.src (.installSnapshotResp (m.wake now).term noIndex) := by
      simp only [react, Server.handle, Offer.packet, Offer.msg, Node.onMessage, if_neg dead, Node.onInstallSnapshot,
        if_pos stale]
    rw [ran, Node.send]
    split
    · exact ⟨List.forall_mem_nil _, rfl⟩
    · rw [Node.ioSend]
      split
      · exact ⟨List.forall_mem_nil _, rfl⟩
      · refine ⟨?_, rfl⟩
        intro e member
        have sent : e ∈ [Effect.send o.src (.installSnapshotResp (m.wake now).term noIndex)] := member
        rw [List.mem_singleton.mp sent]
        rfl

variable {who : Identity} {accept : OpId → Bool} {s s' : Machine}

def HardOnly (m : Machine) (o : Offer) (f : SimFile) : Prop :=
  f.durable = m.disk.wal.durable ∧ (f.pending = [] ∨ f.pending = [(m.adopting o).kind]) ∨
    f.durable = (m.adopting o).kind.apply m.disk.wal.durable ∧ f.pending = []

theorem HardOnly.sync {f : SimFile} (only : m.HardOnly o f) (accepted : Bool) : m.HardOnly o (f.sync accepted) := by
  cases accepted with
  | false => exact only
  | true =>
    rcases only with ⟨durable, none_ | one⟩ | ⟨durable, none_⟩
    · refine .inl ⟨?_, .inl rfl⟩
      rw [SimFile.sync, if_pos rfl, none_]
      exact durable
    · refine .inr ⟨?_, rfl⟩
      rw [SimFile.sync, if_pos rfl, one]
      exact congrArg (fun bytes => WriteKind.apply bytes (m.adopting o).kind) durable
    · refine .inr ⟨?_, rfl⟩
      rw [SimFile.sync, if_pos rfl, none_]
      exact durable

theorem HardOnly.image {f : SimFile} (only : m.HardOnly o f) {fates : List (WriteKind × Fate)}
    (possible : (fates.map Prod.fst).Perm f.pending) :
    ∃ fate, crashImage f.durable fates = WriteKind.resolve m.disk.wal.durable ((m.adopting o).kind, fate) := by
  have none_ : f.pending = [] → fates = [] := by
    intro empty
    rw [empty] at possible
    exact List.map_eq_nil_iff.mp possible.eq_nil
  rcases only with ⟨durable, empty | one⟩ | ⟨durable, empty⟩
  · refine ⟨.lost, ?_⟩
    rw [none_ empty]
    exact durable
  · rw [one, List.perm_singleton] at possible
    obtain ⟨⟨kind, fate⟩, rfl, here⟩ := List.map_eq_singleton_iff.mp possible
    refine ⟨fate, ?_⟩
    rw [crashImage_singleton, durable]
    exact congrArg (fun kind => WriteKind.resolve _ (kind, fate)) here
  · refine ⟨.whole, ?_⟩
    rw [none_ empty]
    exact durable

structure Midway (accept : OpId → Bool) (m : Machine) (o : Offer) (s : Machine) : Prop where
  held : s.BaseHeld accept
  expects : m.Expects o s.raft.persister
  others : ∀ file, file ≠ .wal → file ≠ m.raft.nextSnapshotFile → s.disk.file file = m.disk.file file
  stage : s.raft.log = m.raft.log ∧ s.raft.commitIndex = m.raft.commitIndex ∧ m.HardOnly o s.disk.wal ∨
    o.index ≤ s.raft.log.snapshotIndex ∧ s.raft.durableSnapshotFile = some m.raft.nextSnapshotFile

theorem AtRest.ledger (rest : m.AtRest) : m.raft.persister.Ledger m.nextOp := by
  have batches := rest.batches
  have ops := rest.ops
  generalize m.raft.persister = p at batches ops
  refine ⟨?_, ?_, ?_, ?_, ?_, ?_⟩
  · rw [Persister.Ordered, batches]
    exact List.forall_mem_nil _
  · rw [batches]
    exact List.nodup_nil
  · rw [ops]
    exact List.forall_mem_nil _
  · rw [ops]
    exact List.nodup_nil
  · rw [batches]
    exact List.forall_mem_nil _
  · rw [batches]
    exact List.forall_mem_nil _

theorem AtRest.baseHeld (rest : m.AtRest) : m.BaseHeld accept := by
  have source : m.disk.survived.snapshotFile =
      (pickSnapshotWithSource m.disk.snapshotA.durable m.disk.snapshotB.durable).map fun picked => sourceFile picked.2 :=
    rfl
  have found : SimKv.BaseHeld accept (m.disk.survived.raft m.raft.id m.raft.members m.raft.cfg).base {} m.nextOp m.disk :=
    Survived.raft_held m.disk.snapshotA.durable m.disk.snapshotB.durable source rfl m.raft.id m.raft.members m.raft.cfg
      m.nextOp (rest.settled .snapshotA) (rest.settled .snapshotB)
  have file : m.raft.base.file = (m.disk.survived.raft m.raft.id m.raft.members m.raft.cfg).base.file :=
    rest.snapshotFile
  have index : m.raft.base.index = (m.disk.survived.raft m.raft.id m.raft.members m.raft.cfg).base.index :=
    rest.snapshotIndex
  have idle := rest.duties
  refine ⟨rest.ledger, rest.highest, ?_, ?_, ?_, ?_, ?_⟩
  · rw [file, index]
    exact found.unwritten
  · rw [file, index]
    exact found.held
  · rw [idle]
    exact List.forall_mem_nil _
  · rw [idle]
    exact List.forall_mem_nil _
  · intro b member
    rw [rest.batches] at member
    cases member

theorem Received.disk {n : Node} (received : m.Received o n) (accept : OpId → Bool) :
    (∀ file, file ≠ .wal → file ≠ m.raft.nextSnapshotFile →
        (m.disk.performAll accept n.effects).file file = m.disk.file file) ∧
      (m.disk.performAll accept n.effects).wal = (m.disk.performAll accept (m.hardWrites o)).wal ∧
      ∃ op, (m.disk.performAll accept n.effects).file m.raft.nextSnapshotFile =
        ((m.disk.file m.raft.nextSnapshotFile).issue (.setLen 0) (accept op)).issue
          (.data 0 (m.offered o).encode) (accept (op + 1)) := by
  obtain ⟨op, effects⟩ := received.effects
  have target := m.snapshotFile_ne_wal
  have hard : ∀ e ∈ m.hardWrites o, e.file = some .wal := by
    rw [hardWrites]
    split
    · rintro e member
      rw [List.mem_singleton.mp member]
      rfl
    · exact nofun
  have image : ∀ e ∈ (m.offered o).writes op m.raft.nextSnapshotFile, e.file = some m.raft.nextSnapshotFile := by
    simp [Snapshot.writes, Effect.file]
  rw [effects, Disk.performAll_append]
  refine ⟨fun file other apart => ?_, ?_, op, ?_⟩
  · rw [Disk.performAll_other fun e member same => apart (Option.some.inj (same.symm.trans (image e member))),
      Disk.performAll_other fun e member same => other (Option.some.inj (same.symm.trans (hard e member)))]
  · exact Disk.performAll_other fun e member same =>
      target (Option.some.inj ((image e member).symm.trans same))
  · have still : (m.disk.performAll accept (m.hardWrites o)).file m.raft.nextSnapshotFile =
        m.disk.file m.raft.nextSnapshotFile :=
      Disk.performAll_other fun e member same => target (Option.some.inj (same.symm.trans (hard e member)))
    simp only [Snapshot.writes, Disk.performAll, List.foldl_cons, List.foldl_nil, Disk.perform, Disk.file_setFile]
    rw [← still]
    rfl

theorem AtRest.hardOnly (rest : m.AtRest) : m.HardOnly o (m.disk.performAll accept (m.hardWrites o)).wal := by
  have settled : m.disk.wal.pending = [] := congrArg SimFile.pending (rest.settled .wal)
  rw [hardWrites]
  split
  · cases taken : accept m.nextOp with
    | false =>
      refine .inl ⟨?_, .inl ?_⟩
      · simp [Disk.performAll, HardState.write, Disk.perform, taken, SimFile.issue, Disk.setFile, Disk.file]
      · simpa [Disk.performAll, HardState.write, Disk.perform, taken, SimFile.issue, Disk.setFile, Disk.file] using settled
    | true =>
      refine .inl ⟨?_, .inr ?_⟩
      · simp [Disk.performAll, HardState.write, Disk.perform, taken, SimFile.issue, Disk.setFile, Disk.file]
      · simp [Disk.performAll, HardState.write, Disk.perform, taken, SimFile.issue, Disk.setFile, Disk.file, settled,
          HardState.kind]
  · exact .inl ⟨rfl, .inl settled⟩

theorem offered_readable (bounded : o.msg.Bounded) (range : m.raft.snapshotSeq < 2 ^ 64) :
    Snapshot.decode (m.offered o).encode = some (m.offered o) := by
  obtain ⟨-, index, indexTerm, short⟩ := bounded
  refine Snapshot.decode_encode ⟨range, index, indexTerm, ?_⟩ short
  rw [Snapshot.payload_length]
  have room : 28 + Codec.maxField ≤ maxSnapshot := by decide
  exact (Nat.add_le_add_left short 28).trans room

theorem AtRest.midway (rest : m.AtRest) (lacks : m.Lacks o) (alive : m.raft.failed = false)
    (current : m.raft.term ≤ o.term) (readable : Snapshot.decode (m.offered o).encode = some (m.offered o))
    (next : m.step who accept (.input now (.deliver o.packet)) = some s) : Midway accept m o s := by
  have received : m.Received o (m.react now (.deliver o.packet)) := rest.received lacks alive current
  obtain rfl := step_input next
  obtain ⟨others, wal, -⟩ := received.disk accept
  refine ⟨?_, received.expects, others, .inl ⟨received.log, received.commitIndex, ?_⟩⟩
  · have readable : m.WritesReadable (.input now (.deliver o.packet)) := ?_
    · exact rest.baseHeld.step readable next
    obtain ⟨op, effects⟩ := received.effects
    intro e member
    rw [effects, hardWrites] at member
    rcases List.mem_append.mp member with hard | image
    · split at hard
      · rw [List.mem_singleton.mp hard]
        exact .inl rfl
      · cases hard
    · simp only [Snapshot.writes, List.mem_cons, List.not_mem_nil, or_false] at image
      rcases image with rfl | rfl
      · trivial
      · refine .inr ?_
        rw [readable]
        rfl
  · change m.HardOnly o (m.disk.performAll accept (m.react now (.deliver o.packet)).effects).wal
    rw [wal]
    exact rest.hardOnly

def OnWal (effects : List Effect) : Prop := ∀ e ∈ effects, ∀ f ∈ e.file, f = .wal

theorem OnWal.readable {effects : List Effect} (wal : OnWal effects) : ∀ e ∈ effects, e.Readable := by
  intro e member
  cases e with
  | writeAt op file offset bytes => exact .inl (wal _ member file rfl)
  | send | setLen | sync => trivial

theorem OnWal.snapshots {effects : List Effect} {d : Disk} (wal : OnWal effects) {file : FileId} (other : file ≠ .wal) :
    (d.performAll accept effects).file file = d.file file :=
  Disk.performAll_other fun e member same => other (wal e member file same)

theorem OnWal.send {n : Node} (wal : OnWal n.effects) (dst : NodeId) (msg : RaftMsg) : OnWal (n.send dst msg).effects := by
  rw [Node.send]
  split
  · exact wal
  · rw [Node.ioSend]
    split
    · exact wal
    · intro e member
      rcases List.mem_append.mp member with old | new
      · exact wal e old
      · rw [List.mem_singleton.mp new]
        exact nofun

theorem OnWal.adopt {n : Node} (wal : OnWal n.effects) (index term : Nat) (data : Bytes) :
    OnWal (n.adoptSnapshot index term data).effects := by
  have io := congrArg Io.effects (n.adoptSnapshot_toIo index term data)
  change OnWal (n.adoptSnapshot index term data).toIo.effects
  rw [io]
  unfold Node.adoptLog
  split
  · exact wal
  · intro e member
    rcases List.mem_append.mp member with before | sync
    · rcases List.mem_append.mp before with old | reset
      · exact wal e old
      · rw [List.mem_singleton.mp reset]
        rintro _ ⟨⟩
        rfl
    · rw [List.mem_singleton.mp sync]
      rintro _ ⟨⟩
      rfl

theorem le_snapshotIndex_adopt {log : RaftLog} {index term : Nat}
    (differs : log.termAt index ≠ some term ∨ index ≤ log.snapshotIndex) : index ≤ (log.adopt index term).snapshotIndex := by
  rw [RaftLog.adopt]
  split
  · next here =>
    rw [RaftLog.compactTo, if_pos (.inl (differs.resolve_left (not_not.mpr here)))]
    exact differs.resolve_left (not_not.mpr here)
  · exact le_rfl

theorem landed_of_installed {n : Node} (file : FileId) (src : NodeId) (wal : OnWal n.effects)
    (ahead : n.log.termAt o.index ≠ some o.indexTerm ∧ n.commitIndex ≤ o.index ∨ o.index ≤ n.log.snapshotIndex) :
    OnWal (n.snapshotInstalled o.index o.indexTerm o.data file src o.term).effects ∧
      (n.snapshotInstalled o.index o.indexTerm o.data file src o.term).persister = n.persister ∧
      o.index ≤ (n.snapshotInstalled o.index o.indexTerm o.data file src o.term).log.snapshotIndex ∧
      (n.snapshotInstalled o.index o.indexTerm o.data file src o.term).durableSnapshotFile = some file := by
  simp only [Node.snapshotInstalled]
  have here : OnWal (n.land file).effects := wal
  split
  · next passed =>
    have reached : o.index ≤ n.log.snapshotIndex := by
      refine ahead.resolve_left fun known => ?_
      exact absurd passed.2 (not_lt.mpr known.2)
    refine ⟨here.send _ _, ?_⟩
    rw [Node.send_toRaft]
    exact ⟨rfl, reached, rfl⟩
  · refine ⟨(here.adopt _ _ _).send _ _, ?_⟩
    obtain ⟨_, _, _, _, _, _, _, _, raft⟩ := (n.land file).adoptSnapshot_toRaft o.index o.indexTerm o.data
    rw [Node.send_toRaft, raft]
    exact ⟨rfl, le_snapshotIndex_adopt (ahead.imp And.left id), rfl⟩

inductive Completes (s : Machine) (n : Node) : Prop where
  | books (effects : n.effects = []) (fewer : ∀ duty ∈ n.persister.duties, duty ∈ s.raft.persister.duties)
      (log : n.log = s.raft.log) (commitIndex : n.commitIndex = s.raft.commitIndex)
      (file : n.durableSnapshotFile = s.raft.durableSnapshotFile)
  | syncs (duty : Duty) (member : duty ∈ s.raft.persister.duties) (op : OpId) (effects : n.effects = [.sync op duty.file])
      (fewer : ∀ duty ∈ n.persister.duties, duty ∈ s.raft.persister.duties) (log : n.log = s.raft.log)
      (commitIndex : n.commitIndex = s.raft.commitIndex) (file : n.durableSnapshotFile = s.raft.durableSnapshotFile)
  | acts (duty : Duty) (member : duty ∈ s.raft.persister.duties) (k : Node) (effects : k.effects = [])
      (fewer : ∀ duty ∈ k.persister.duties, duty ∈ s.raft.persister.duties) (log : k.log = s.raft.log)
      (commitIndex : k.commitIndex = s.raft.commitIndex) (file : k.durableSnapshotFile = s.raft.durableSnapshotFile)
      (then_ : n = k.onDurable duty.action)

theorem completes (s : Machine) (ledger : s.raft.persister.Ledger s.nextOp) (later : Nat) (op : OpId) (ok : Bool) :
    s.Completes (s.react later (.storage op ok)) := by
  obtain ⟨-, fewer, -⟩ := s.raft.persister.onComplete_spec op ok
  have completion := ledger.completion op ok
  have ran : s.react later (.storage op ok) = (s.wake later).onStorage op ok := rfl
  rw [ran, Node.onStorage]
  split
  · exact .books rfl (fun _ member => member) rfl rfl rfl
  · have here : (s.wake later).persister = s.raft.persister := rfl
    rw [here]
    rcases completed : s.raft.persister.onComplete op ok with ⟨event, p⟩
    rw [completed] at fewer completion
    cases event with
    | nothing => exact .books rfl fewer rfl rfl rfl
    | failed => exact .books rfl fewer rfl rfl rfl
    | needSync id file =>
      have duties : (p.noteSync id s.nextOp).duties = p.duties := p.duties_noteSync id _
      cases completion with
      | last b held member none_ fresh =>
        refine .syncs b.duty (List.mem_map_of_mem member) _ rfl ?_ rfl rfl rfl
        intro duty found
        exact fewer duty (duties ▸ found)
    | done action hard =>
      cases completion with
      | synced b held member =>
        have kept : ∀ n : Node, (n.noteDurable b.hard).log = n.log ∧ (n.noteDurable b.hard).commitIndex = n.commitIndex ∧
            (n.noteDurable b.hard).durableSnapshotFile = n.durableSnapshotFile := by
          intro n
          cases b.hard with
          | none => exact ⟨rfl, rfl, rfl⟩
          | some hs =>
            obtain ⟨_, _, raft, -⟩ := n.noteDurable_spec hs
            rw [raft]
            exact ⟨rfl, rfl, rfl⟩
        refine .acts b.duty (List.mem_map_of_mem member) _ ?_ ?_ (kept _).1 (kept _).2.1 (kept _).2.2 rfl
        · rw [Node.noteDurable_toIo]
          rfl
        · rw [Node.noteDurable_persister]
          exact fewer

theorem Midway.step (mid : Midway accept m o s) (lacks : m.Lacks o) {later : Nat} {op : OpId} {ok : Bool}
    (next : s.step who accept (.input later (.storage op ok)) = some s') : Midway accept m o s' := by
  have completes := s.completes mid.held.ledger later op ok
  obtain rfl := step_input next
  -- how far the node is, and what it takes to act on the image
  have ahead : s.raft.log.termAt o.index ≠ some o.indexTerm ∧ s.raft.commitIndex ≤ o.index ∨
      o.index ≤ s.raft.log.snapshotIndex := by
    refine mid.stage.imp (fun early => ?_) And.left
    rw [early.1, early.2.1]
    exact ⟨lacks.differs, lacks.uncommitted.le⟩
  have held : (∀ e ∈ (s.react later (.storage op ok)).effects, e.Readable) →
      (s.settle accept (.storage op ok) (s.react later (.storage op ok))).BaseHeld accept :=
    fun readable : s.WritesReadable (.input later (.storage op ok)) => mid.held.step readable next
  generalize s.react later (.storage op ok) = n at completes held
  have disk : (s.settle accept (.storage op ok) n).disk = s.disk.performAll accept n.effects := rfl
  cases completes with
  | books effects fewer log commitIndex file =>
    have still : (s.settle accept (.storage op ok) n).disk = s.disk := by
      rw [disk, effects]
      rfl
    refine ⟨held ?_, fun duty member => mid.expects duty (fewer duty member), ?_, ?_⟩
    · rw [effects]
      exact nofun
    · rw [still]
      exact mid.others
    · rw [still]
      change n.log = _ ∧ n.commitIndex = _ ∧ _ ∨ _ ≤ n.log.snapshotIndex ∧ n.durableSnapshotFile = _
      rw [log, commitIndex, file]
      exact mid.stage
  | syncs duty member op' effects fewer log commitIndex file =>
    have synced : (s.settle accept (.storage op ok) n).disk = s.disk.perform accept (.sync op' duty.file) := by
      rw [disk, effects]
      rfl
    refine ⟨held ?_, fun duty member => mid.expects duty (fewer duty member), ?_, ?_⟩
    · rw [effects, List.forall_mem_singleton]
      trivial
    · intro file other apart
      have elsewhere : duty.file ≠ file := by
        rcases mid.expects duty member with ⟨wal, -⟩ | ⟨target, -⟩
        · rw [wal]
          exact other.symm
        · rw [target]
          exact apart.symm
      have spared : (Effect.sync op' duty.file).file ≠ some file := fun same => elsewhere (Option.some.inj same)
      rw [synced, Disk.perform_other spared]
      exact mid.others file other apart
    · change n.log = _ ∧ n.commitIndex = _ ∧ _ ∨ _ ≤ n.log.snapshotIndex ∧ n.durableSnapshotFile = _
      rw [log, commitIndex, file, synced]
      refine mid.stage.imp (fun early => ⟨early.1, early.2.1, ?_⟩) id
      rcases mid.expects duty member with ⟨wal, -⟩ | ⟨target, -⟩
      · have here : (s.disk.perform accept (.sync op' duty.file)).wal = s.disk.wal.sync (accept op') := by
          rw [wal]
          rfl
        rw [here]
        exact early.2.2.sync _
      · have here : (s.disk.perform accept (.sync op' duty.file)).wal = s.disk.wal := by
          have spared : (Effect.sync op' duty.file).file ≠ some .wal :=
            fun same => m.snapshotFile_ne_wal (target.symm.trans (Option.some.inj same))
          exact Disk.perform_other spared
        rw [here]
        exact early.2.2
  | acts duty member k effects fewer log commitIndex file acted =>
    rcases mid.expects duty member with ⟨-, quiet⟩ | ⟨-, installing⟩
    · have same : n = k := by
        rw [acted, quiet]
        rfl
      subst same
      have still : (s.settle accept (.storage op ok) n).disk = s.disk := by
        rw [disk, effects]
        rfl
      refine ⟨held ?_, fun duty member => mid.expects duty (fewer duty member), ?_, ?_⟩
      · rw [effects]
        exact nofun
      · rw [still]
        exact mid.others
      · rw [still]
        change n.log = _ ∧ n.commitIndex = _ ∧ _ ∨ _ ≤ n.log.snapshotIndex ∧ n.durableSnapshotFile = _
        rw [log, commitIndex, file]
        exact mid.stage
    · have onWal : OnWal k.effects := by
        rw [effects]
        exact nofun
      rw [← log, ← commitIndex] at ahead
      obtain ⟨wal, persister, reached, target⟩ := landed_of_installed m.raft.nextSnapshotFile o.src onWal ahead
      have here : n = k.snapshotInstalled o.index o.indexTerm o.data m.raft.nextSnapshotFile o.src o.term := by
        rw [acted, installing]
        rfl
      rw [← here] at wal persister reached target
      refine ⟨held wal.readable, fun duty member => mid.expects duty (fewer duty ?_), ?_, .inr ⟨reached, target⟩⟩
      · have books : (s.settle accept (.storage op ok) n).raft.persister = k.persister := persister
        exact books ▸ member
      · intro file other apart
        rw [disk, wal.snapshots other]
        exact mid.others file other apart

theorem AtRest.contiguous (rest : m.AtRest) : m.raft.log.Contiguous := by
  intro k e found
  rw [rest.entries] at found
  have place := readDisk_contiguous _ _ _ k e found
  rw [RaftLog.firstIndex, rest.snapshotIndex]
  exact place

theorem AtRest.entries_eq (rest : m.AtRest) : m.raft.log.entries = m.entriesUnder m.disk.survived.hard.term := by
  rw [rest.entries, entriesUnder, rest.snapshotIndex]
  exact readDisk_entries.trans (congrArg (keptAbove _ · _) readDisk_snapshotIndex.symm)

theorem AtRest.spare (rest : m.AtRest) : spareFile (fun file => (m.disk.file file).durable) = m.raft.nextSnapshotFile := by
  rw [Raft.nextSnapshotFile, rest.snapshotFile]
  rfl

theorem survived_snapshot (d : Disk) : d.survived.snapshot = pickSnapshot d.snapshotA.durable d.snapshotB.durable :=
  pickSnapshotWithSource_fst _ _

theorem left_snapshot (d : Disk) (loss : PowerLoss) :
    (d.left loss).snapshot = pickSnapshot (d.image loss .snapshotA) (d.image loss .snapshotB) :=
  pickSnapshotWithSource_fst _ _

-- The old snapshot is behind the offer.
theorem AtRest.behind (rest : m.AtRest) (lacks : m.Lacks o) {old : Snapshot}
    (held : pickSnapshot m.disk.snapshotA.durable m.disk.snapshotB.durable = some old) : old.index < o.index := by
  have index : m.raft.log.snapshotIndex = old.index := by
    rw [rest.snapshotIndex, Disk.survived, readDisk_snapshotIndex]
    have picked := survived_snapshot m.disk
    rw [held, Disk.survived] at picked
    rw [picked]
    rfl
  have highest := rest.highest
  have newer := lacks.newer
  omega

def Untouched (m : Machine) (d : Disk) (loss : PowerLoss) : Prop :=
  ∀ file, file ≠ .wal → file ≠ m.raft.nextSnapshotFile → d.image loss file = (m.disk.file file).durable

-- With the image readable, the new snapshot is found.
theorem Untouched.new {d : Disk} {loss : PowerLoss} (untouched : m.Untouched d loss) (rest : m.AtRest)
    (lacks : m.Lacks o) (read : Snapshot.decode (d.image loss m.raft.nextSnapshotFile) = some (m.offered o)) :
    (d.left loss).snapshot = some (m.offered o) := by
  have others := untouched
  rw [Untouched, ← rest.spare] at others
  rw [← rest.spare] at read
  rw [left_snapshot]
  exact pick_new others read fun old held => rest.behind lacks held

theorem Untouched.old {d : Disk} {loss : PowerLoss} (untouched : m.Untouched d loss) (rest : m.AtRest)
    (same : Snapshot.decode (d.image loss m.raft.nextSnapshotFile) = none ∨
      Snapshot.decode (d.image loss m.raft.nextSnapshotFile) =
        Snapshot.decode (m.disk.file m.raft.nextSnapshotFile).durable) :
    (d.left loss).snapshot = m.disk.survived.snapshot := by
  have others := untouched
  rw [Untouched, ← rest.spare] at others
  rw [← rest.spare] at same
  rw [left_snapshot, survived_snapshot]
  exact pick_old others same

-- The entries above the old snapshot, by the term that is durable.
theorem left_entries {d : Disk} {loss : PowerLoss} (rest : m.AtRest)
    (snapshot : (d.left loss).snapshot = m.disk.survived.snapshot)
    (region : (d.image loss .wal).drop logRegion = m.disk.wal.durable.drop logRegion) :
    (d.left loss).log.entries = m.entriesUnder (recoverHardState (d.image loss .wal)).term := by
  have index : m.raft.log.snapshotIndex = (m.disk.survived.snapshot.map Snapshot.index).getD 0 := by
    rw [rest.snapshotIndex]
    exact readDisk_snapshotIndex
  rw [entriesUnder, index, ← snapshot, ← region]
  exact readDisk_entries

theorem storable_adopting (bounded : o.msg.Bounded) (range : m.raft.stateSeq < 2 ^ 64) : (m.adopting o).Storable :=
  ⟨bounded.1, range, nofun⟩

theorem Midway.untouched (mid : Midway accept m o s) (rest : m.AtRest) {loss : PowerLoss}
    (possible : loss.Possible s.disk) : m.Untouched s.disk loss := by
  intro file other apart
  have idle : (m.disk.file file).pending = [] := congrArg SimFile.pending (rest.settled file)
  have fates := possible file
  rw [mid.others file other apart, idle] at fates
  rw [Disk.image, mid.others file other apart, List.map_eq_nil_iff.mp fates.eq_nil]
  rfl

-- If nothing of the log lies above the offer, and no record comes back with its term, a crash cannot mix them.
theorem Midway.atomic (mid : Midway accept m o s) (rest : m.AtRest) (lacks : m.Lacks o)
    (storable : (m.adopting o).Storable) (short : m.raft.log.lastIndex ≤ o.index)
    (same : m.entriesUnder o.term = m.raft.log.entries) {loss : PowerLoss} (possible : loss.Possible s.disk)
    (tears : m.TearsShow o s.disk loss) : m.OldOrNew o (s.disk.left loss) := by
  have untouched := mid.untouched rest possible
  by_cases read : Snapshot.decode (s.disk.image loss m.raft.nextSnapshotFile) = some (m.offered o)
  · refine .inr ⟨untouched.new rest lacks read, fun e member above => ?_⟩
    exact absurd above (not_lt.mpr ((rest.contiguous.get_of_mem member).2.2.trans short))
  · have old := tears.snapshot.imp id (Or.resolve_left · read)
    have snapshot := untouched.old rest old
    rcases mid.stage with ⟨-, -, only⟩ | ⟨reached, file⟩
    · obtain ⟨fate, image⟩ := only.image (possible .wal)
      have image : s.disk.image loss .wal = WriteKind.resolve m.disk.wal.durable ((m.adopting o).kind, fate) := image
      refine .inl ⟨snapshot, ?_⟩
      have region : (s.disk.image loss .wal).drop logRegion = m.disk.wal.durable.drop logRegion := by
        rw [image]
        exact HardState.drop_resolve_kind _ _ _
      rw [left_entries rest snapshot region]
      have slot := tears.slot
      rw [image] at slot ⊢
      rcases rest.hard.written rest.seq storable slot with before | after
      · rw [before]
        exact rest.entries_eq.symm
      · rw [after]
        exact same
    · -- the image is durable, so it cannot be read as anything old
      exfalso
      have held := mid.held.held m.raft.nextSnapshotFile file
      obtain ⟨snap, found, newest⟩ := held.2.image possible
      have reached : o.index ≤ snap.index := reached.trans newest
      rcases old with none_ | before
      · rw [found] at none_
        cases none_
      · rw [found] at before
        have known : Snapshot.decode m.disk.snapshotA.durable = some snap ∨
            Snapshot.decode m.disk.snapshotB.durable = some snap := by
          rw [Raft.nextSnapshotFile] at before
          split at before
          · exact .inr before.symm
          · exact .inl before.symm
        obtain ⟨best, source, picked, newer⟩ := pickSnapshot_newest known
        have held : pickSnapshot m.disk.snapshotA.durable m.disk.snapshotB.durable = some best := by
          rw [← pickSnapshotWithSource_fst, picked]
          rfl
        have behind := rest.behind lacks held
        omega

theorem Installing.midway (installing : Installing who accept m now o s) (rest : m.AtRest) (lacks : m.Lacks o)
    (alive : m.raft.failed = false) (current : m.raft.term ≤ o.term)
    (readable : Snapshot.decode (m.offered o).encode = some (m.offered o)) : Midway accept m o s := by
  induction installing with
  | received next => exact rest.midway lacks alive current readable next
  | completed before later op ok next ih => exact ih.step lacks next

theorem Installing.still (installing : Installing who accept m now o s) (rest : m.AtRest)
    (unheard : m.raft.failed = true ∨ o.term < m.raft.term) : s.disk = m.disk ∧ s.raft.persister.ops = [] := by
  induction installing with
  | received next =>
    obtain rfl := step_input next
    obtain ⟨sends, books⟩ := react_ignored unheard
    exact ⟨Disk.performAll_sends sends, (congrArg Persister.ops books).trans rest.ops⟩
  | @completed s s' before later op ok next ih =>
    obtain rfl := step_input next
    obtain ⟨disk, ops⟩ := ih
    have quiet : (s.react later (.storage op ok)).effects = [] ∧
        (s.react later (.storage op ok)).persister = s.raft.persister := by
      have ran : s.react later (.storage op ok) = (s.wake later).onStorage op ok := rfl
      have unknown : (s.wake later).persister.onComplete op ok = (.nothing, s.raft.persister) := by
        have here : (s.wake later).persister = s.raft.persister := rfl
        rw [here, Persister.onComplete, ops]
        rfl
      rw [ran, Node.onStorage, unknown]
      split <;> exact ⟨rfl, rfl⟩
    refine ⟨?_, (congrArg Persister.ops quiet.2).trans ops⟩
    change s.disk.performAll accept (s.react later (.storage op ok)).effects = m.disk
    rw [quiet.1]
    exact disk

theorem AtRest.ignored (rest : m.AtRest) (unheard : m.raft.failed = true ∨ o.term < m.raft.term) :
    m.InstallsAtomically who now o := by
  intro accept s installing loss possible _
  obtain ⟨disk, -⟩ := installing.still rest unheard
  have images : ∀ file, s.disk.image loss file = (m.disk.file file).durable := by
    intro file
    have idle : (m.disk.file file).pending = [] := congrArg SimFile.pending (rest.settled file)
    have fates := possible file
    rw [disk, idle] at fates
    rw [Disk.image, disk, List.map_eq_nil_iff.mp fates.eq_nil]
    rfl
  have found : s.disk.left loss = m.disk.survived := by
    rw [Disk.left, images, images, images]
    rfl
  rw [found]
  exact .inl ⟨rfl, rest.entries.symm⟩

theorem crashImage_lost (durable : Bytes) (kinds : List WriteKind) :
    crashImage durable (kinds.map fun kind => (kind, .lost)) = durable := by
  induction kinds with
  | nil => rfl
  | cons kind rest ih => exact ih

def taken (m : Machine) (now : Nat) (o : Offer) : Machine :=
  m.settle (fun _ => true) (.deliver o.packet) (m.react now (.deliver o.packet))

theorem Received.installing (received : m.Received o (m.react now (.deliver o.packet)))
    (inRange : (m.react now (.deliver o.packet)).toRaft.InRange) :
    Installing who (fun _ => true) m now o (m.taken now o) := by
  refine .received ?_
  simp only [step]
  exact if_pos ⟨trivial, received.calm, inRange⟩

def losing (d : Disk) (file : FileId) (fates : List (WriteKind × Fate)) : PowerLoss :=
  Function.update (fun other => (d.file other).pending.map fun kind => (kind, .lost)) file fates

theorem losing_possible {d : Disk} {file : FileId} {fates : List (WriteKind × Fate)}
    (possible : (fates.map Prod.fst).Perm (d.file file).pending) : (losing d file fates).Possible d := by
  intro other
  by_cases same : other = file
  · subst same
    rwa [losing, Function.update_self]
  · rw [losing, Function.update_of_ne same, List.map_map, Function.comp_def, List.map_id']

theorem image_losing {d : Disk} {file other : FileId} {fates : List (WriteKind × Fate)} (differs : other ≠ file) :
    d.image (losing d file fates) other = (d.file other).durable := by
  rw [Disk.image, losing, Function.update_of_ne differs, crashImage_lost]

theorem image_losing_self {d : Disk} {file : FileId} {fates : List (WriteKind × Fate)} :
    d.image (losing d file fates) file = crashImage (d.file file).durable fates := by
  rw [Disk.image, losing, Function.update_self]

-- The image has landed, and nothing else: the records above it are found on top of it.
theorem AtRest.mixed (rest : m.AtRest) (lacks : m.Lacks o) (alive : m.raft.failed = false)
    (current : m.raft.term ≤ o.term) (readable : Snapshot.decode (m.offered o).encode = some (m.offered o))
    (above : o.index < m.raft.log.lastIndex) :
    ∃ loss, loss.Possible (m.taken now o).disk ∧ m.TearsShow o (m.taken now o).disk loss ∧
      ((m.taken now o).disk.left loss).snapshot = some (m.offered o) ∧
      ∃ e ∈ m.raft.log.entries, o.index < e.index ∧ e ∈ ((m.taken now o).disk.left loss).log.entries := by
  have received : m.Received o (m.react now (.deliver o.packet)) := rest.received lacks alive current
  obtain ⟨others, wal, op, target⟩ := received.disk fun _ => true
  have disk : (m.taken now o).disk = m.disk.performAll (fun _ => true) (m.react now (.deliver o.packet)).effects := rfl
  have settled : ∀ file, (m.disk.file file).pending = [] := fun file => congrArg SimFile.pending (rest.settled file)
  rw [← disk] at others wal target
  have durable : (m.taken now o).disk.wal.durable = m.disk.wal.durable := by
    rw [wal, hardWrites]
    split <;> rfl
  generalize (m.taken now o).disk = d at others wal target durable
  refine ⟨losing d m.raft.nextSnapshotFile [(.setLen 0, .whole), (.data 0 (m.offered o).encode, .whole)],
    losing_possible ?_, ?_⟩
  · rw [target]
    simp [SimFile.issue, settled]
  · have image : d.image (losing d m.raft.nextSnapshotFile
        [(.setLen 0, .whole), (.data 0 (m.offered o).encode, .whole)]) m.raft.nextSnapshotFile = (m.offered o).encode := by
      rw [image_losing_self]
      exact WriteKind.apply_rewritten _ _
    have log : d.image (losing d m.raft.nextSnapshotFile
        [(.setLen 0, .whole), (.data 0 (m.offered o).encode, .whole)]) .wal = m.disk.wal.durable := by
      rw [image_losing m.snapshotFile_ne_wal.symm]
      exact durable
    have untouched : m.Untouched d (losing d m.raft.nextSnapshotFile
        [(.setLen 0, .whole), (.data 0 (m.offered o).encode, .whole)]) := by
      intro file other apart
      rw [image_losing apart, others file other apart]
    generalize losing d m.raft.nextSnapshotFile [(.setLen 0, .whole), (.data 0 (m.offered o).encode, .whole)] = loss
      at image log untouched
    have read : Snapshot.decode (d.image loss m.raft.nextSnapshotFile) = some (m.offered o) := by rw [image, readable]
    have snapshot := untouched.new rest lacks read
    refine ⟨⟨.inr (.inr (by rw [log])), .inr (.inl read)⟩, snapshot, ?_⟩
    -- the last entry of the log is one of them
    have highest := rest.highest
    have newer := lacks.newer
    cases last : m.raft.log.entries.getLast? with
    | none =>
      rw [RaftLog.lastIndex, last, Option.map_none, Option.getD_none] at above
      omega
    | some e =>
      rw [RaftLog.lastIndex, last, Option.map_some, Option.getD_some] at above
      have member := List.mem_of_getLast? last
      refine ⟨e, member, above, ?_⟩
      rw [Disk.left, readDisk_entries, log]
      have index : ((d.left loss).snapshot.map Snapshot.index).getD 0 = o.index := by
        rw [snapshot]
        rfl
      rw [Disk.left, log] at index
      rw [index, rest.hard.recover]
      rw [rest.entries_eq] at member
      exact mem_keptAbove member (highest.trans newer.le) above

theorem AtRest.not_atomic (rest : m.AtRest) (lacks : m.Lacks o) (alive : m.raft.failed = false)
    (current : m.raft.term ≤ o.term) (readable : Snapshot.decode (m.offered o).encode = some (m.offered o))
    (inRange : (m.react now (.deliver o.packet)).toRaft.InRange) (above : o.index < m.raft.log.lastIndex) :
    ¬ m.InstallsAtomically who now o := by
  intro atomic
  have received : m.Received o (m.react now (.deliver o.packet)) := rest.received lacks alive current
  obtain ⟨loss, possible, tears, snapshot, e, member, behind, found⟩ :=
    rest.mixed lacks alive current readable above
  rcases atomic _ _ (received.installing inRange) loss possible tears with ⟨old, -⟩ | ⟨-, none_⟩
  · rw [snapshot, survived_snapshot] at old
    exact absurd (rest.behind lacks old.symm) (lt_irrefl _)
  · exact none_ e member behind found

-- The new term has landed, and nothing else: records that were ahead of the old one are found.
theorem AtRest.regained (rest : m.AtRest) (lacks : m.Lacks o) (alive : m.raft.failed = false)
    (newer : m.raft.term < o.term) (storable : (m.adopting o).Storable) :
    ∃ loss, loss.Possible (m.taken now o).disk ∧ m.TearsShow o (m.taken now o).disk loss ∧
      ((m.taken now o).disk.left loss).snapshot = m.disk.survived.snapshot ∧
      ((m.taken now o).disk.left loss).log.entries = m.entriesUnder o.term := by
  have received : m.Received o (m.react now (.deliver o.packet)) := rest.received lacks alive newer.le
  obtain ⟨others, wal, op, target⟩ := received.disk fun _ => true
  have disk : (m.taken now o).disk = m.disk.performAll (fun _ => true) (m.react now (.deliver o.packet)).effects := rfl
  have settled : ∀ file, (m.disk.file file).pending = [] := fun file => congrArg SimFile.pending (rest.settled file)
  rw [← disk] at others wal target
  have written : (m.taken now o).disk.wal.durable = m.disk.wal.durable ∧
      (m.taken now o).disk.wal.pending = [(m.adopting o).kind] := by
    rw [wal, hardWrites, if_pos newer]
    refine ⟨rfl, ?_⟩
    have idle : m.disk.wal.pending = [] := settled .wal
    simp [Disk.performAll, HardState.write, Disk.perform, SimFile.issue, Disk.setFile, Disk.file, idle, HardState.kind]
  generalize (m.taken now o).disk = d at others wal target written
  have log : d.image (losing d .wal [((m.adopting o).kind, .whole)]) .wal =
      (m.adopting o).kind.apply m.disk.wal.durable := by
    rw [image_losing_self]
    change crashImage d.wal.durable _ = _
    rw [written.1]
    rfl
  have still : ∀ file, file ≠ .wal →
      d.image (losing d .wal [((m.adopting o).kind, .whole)]) file = (m.disk.file file).durable := by
    intro file other
    rw [image_losing other]
    by_cases same : file = m.raft.nextSnapshotFile
    · rw [same, target]
      rfl
    · rw [others file other same]
  have possible : (losing d .wal [((m.adopting o).kind, .whole)]).Possible d := by
    refine losing_possible ?_
    change List.Perm _ d.wal.pending
    rw [written.2]
    exact .refl _
  generalize losing d .wal [((m.adopting o).kind, .whole)] = loss at log still possible
  have read : Snapshot.decode (d.image loss m.raft.nextSnapshotFile) =
      Snapshot.decode (m.disk.file m.raft.nextSnapshotFile).durable := by
    rw [still _ m.snapshotFile_ne_wal]
  have untouched : m.Untouched d loss := fun file other _ => still file other
  have snapshot := untouched.old rest (.inr read)
  have region : (d.image loss .wal).drop logRegion = m.disk.wal.durable.drop logRegion := by
    rw [log]
    exact HardState.drop_resolve_kind (m.adopting o) m.disk.wal.durable .whole
  refine ⟨loss, possible, ⟨.inr (.inl ?_), .inr (.inr read)⟩, snapshot, ?_⟩
  · rw [log]
    exact HardState.slotRead_kind storable _
  · rw [left_entries rest snapshot region, log, rest.hard.landed rest.seq storable]
    rfl

end Machine

open Machine in
/-- Whenever the power fails while a snapshot is installed, recovery finds the old one with the log as it was or
the new one with nothing of that log above it, exactly if the log ends at the snapshot or before, and no record
that was passed over for its term comes back with the term of the offer; or if the offer is ignored. -/
theorem install_atomic_iff {who : Identity} {m : Machine} {now : Nat} {o : Offer} (rest : m.AtRest)
    (lacks : m.Lacks o) (bounded : o.msg.Bounded) (inRange : (m.react now (.deliver o.packet)).toRaft.InRange) :
    m.InstallsAtomically who now o ↔
      m.raft.failed = true ∨ o.term < m.raft.term ∨
        m.raft.log.lastIndex ≤ o.index ∧ m.entriesUnder o.term = m.raft.log.entries := by
  by_cases unheard : m.raft.failed = true ∨ o.term < m.raft.term
  · exact iff_of_true (rest.ignored unheard) (or_assoc.mp (.inl unheard))
  · rw [← or_assoc, or_iff_right unheard]
    obtain ⟨alive, current⟩ := not_or.mp unheard
    have alive : m.raft.failed = false := Bool.not_eq_true _ ▸ alive
    have current : m.raft.term ≤ o.term := not_lt.mp current
    have received : m.Received o (m.react now (.deliver o.packet)) := rest.received lacks alive current
    have storable : (m.adopting o).Storable := by
      exact storable_adopting bounded (received.stateSeq.trans_lt inRange.stateSeq)
    have readable : Snapshot.decode (m.offered o).encode = some (m.offered o) := by
      refine offered_readable bounded ?_
      have range := inRange.snapshotSeq
      rw [received.seq] at range
      exact (Nat.lt_succ_self _).trans range
    constructor
    · intro atomic
      refine ⟨?_, ?_⟩
      · by_contra above
        exact rest.not_atomic lacks alive current readable inRange (not_le.mp above) atomic
      · by_contra differs
        have newer : m.raft.term < o.term := by
          refine lt_of_le_of_ne current fun same => differs ?_
          rw [← same, rest.term, ← rest.entries_eq]
        obtain ⟨loss, possible, tears, snapshot, entries⟩ := rest.regained lacks alive newer storable
        rcases atomic _ _ (received.installing inRange) loss possible tears with ⟨-, same⟩ | ⟨new, -⟩
        · exact differs (entries.symm.trans same)
        · rw [snapshot, survived_snapshot] at new
          exact absurd (rest.behind lacks new) (lt_irrefl _)
    · rintro ⟨short, same⟩ accept s installing loss possible tears
      exact (installing.midway rest lacks alive current readable).atomic rest lacks storable short same possible tears

-- A node that starts from a disk is at rest.
theorem Machine.start_atRest (m : Machine) (who : Identity) (now : Nat) {d : Disk}
    (settled : ∀ file, d.file file = .ofImage (d.file file).durable) (hard : HardOnDisk d.wal.durable d.survived.hard) :
    (m.start who now d).AtRest := by
  have files : d.wal.cache = d.wal.durable ∧ d.snapshotA.cache = d.snapshotA.durable ∧
      d.snapshotB.cache = d.snapshotB.durable :=
    ⟨congrArg SimFile.cache (settled .wal), congrArg SimFile.cache (settled .snapshotA),
      congrArg SimFile.cache (settled .snapshotB)⟩
  obtain ⟨current, config, next, matched, timer, raft, -⟩ := Raft.recover_toRaft d.wal.cache d.snapshotA.cache
    d.snapshotB.cache who.id who.members who.cfg { now, nextOp := m.nextOp, nextTimer := m.nextTimer }
  rw [files.1, files.2.1, files.2.2] at raft
  have started : (m.start who now d).raft = { d.survived.raft who.id who.members who.cfg with
      members := current, configIndex := config, nextIndex := next, matchIndex := matched, electionTimer := timer } := by
    rw [start, files.1, files.2.1, files.2.2]
    exact raft
  refine ⟨settled, ?_, ?_, ?_, hard, ?_, ?_, ?_, ?_, ?_, ?_⟩
  all_goals
    rw [started]
    rfl

def holding (term : Nat) (es : List Entry) : Disk where
  wal := .ofImage (List.replicate slotSize 0 ++ ({ term, seq := 1 : HardState }.toSlot ++ records es))

def resting (term : Nat) (es : List Entry) : Machine := (Machine.init hermit).start hermit 0 (holding term es)

def threeEntries : List Entry := [usualEntry 1, usualEntry 2, usualEntry 3]

theorem resting_atRest : (resting 1 threeEntries).AtRest := by
  refine Machine.start_atRest _ _ _ (fun file => ?_) ?_
  · cases file <;> rfl
  · have found : (holding 1 threeEntries).survived.hard = { term := 1, seq := 1 } := by decide +kernel
    have empty : slotRead (holding 1 threeEntries).wal.durable 0 = none := by decide +kernel
    rw [found]
    refine .held _ (by decide +kernel) ?_
    rw [show (({ term := 1, seq := 1 } : HardState).seq + 1) % 2 = 0 from rfl, empty]
    exact nofun

def newTerm (index : Nat) : Offer where
  src := 1
  dst := 0
  leader := 1
  term := 2
  index
  indexTerm := 2
  data := []

theorem newTerm_lacks {index : Nat} (some_ : 0 < index)
    (differs : (resting 1 threeEntries).raft.log.termAt index ≠ some 2) :
    (resting 1 threeEntries).Lacks (newTerm index) := by
  have start : (resting 1 threeEntries).raft.commitIndex = 0 ∧ (resting 1 threeEntries).raft.highestSnapshot = 0 := by
    decide +kernel
  refine ⟨?_, ?_, differs⟩
  · rw [start.1]
    exact some_
  · rw [start.2]
    exact some_

theorem newTerm_bounded {index : Nat} (small : index < 2 ^ 64) : (newTerm index).msg.Bounded :=
  ⟨(by decide : 2 < 2 ^ 64), small, (by decide : 2 < 2 ^ 64), Nat.zero_le _⟩

theorem install_mixed :
    (resting 1 threeEntries).AtRest ∧ (resting 1 threeEntries).Lacks (newTerm 2) ∧ (newTerm 2).msg.Bounded ∧
      ((resting 1 threeEntries).react 0 (.deliver (newTerm 2).packet)).toRaft.InRange ∧
      ¬ (resting 1 threeEntries).InstallsAtomically hermit 0 (newTerm 2) := by
  have lacks : (resting 1 threeEntries).Lacks (newTerm 2) := newTerm_lacks (by decide) (by decide +kernel)
  have bounded : (newTerm 2).msg.Bounded := newTerm_bounded (by decide)
  have inRange : ((resting 1 threeEntries).react 0 (.deliver (newTerm 2).packet)).toRaft.InRange := by decide +kernel
  refine ⟨resting_atRest, lacks, bounded, inRange, ?_⟩
  refine resting_atRest.not_atomic lacks (by decide +kernel) (by decide +kernel) ?_ inRange (by decide +kernel)
  exact Machine.offered_readable bounded (by decide +kernel)

theorem install_atomic_iff_beyond : (resting 1 threeEntries).InstallsAtomically hermit 0 (newTerm 3) := by
  refine (install_atomic_iff resting_atRest (newTerm_lacks (by decide) (by decide +kernel))
    (newTerm_bounded (by decide)) (by decide +kernel)).mpr (.inr (.inr ?_))
  decide +kernel

end SimKv
