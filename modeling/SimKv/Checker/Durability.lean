import SimKv.Checker.Invariants
import SimKv.Lib.Ballot
import SimKv.Raft.Contiguous
import SimKv.Recovery

set_option autoImplicit false

/-!
# The durability checker

`checker::durability` decodes the three files of a node a second time. It keeps every entry of a durable term,
where the node keeps those that follow its snapshot without a gap.
-/

namespace SimKv

structure Recovered where
  term : Nat := 0
  votedFor : Option NodeId := none
  entries : List Entry := []
  -- Last index the durable snapshot covers, if there is one.
  snapshotIndex : Nat := 0
  snapshotTerm : Nat := 0
  deriving DecidableEq, Repr

namespace Recovered

variable (r : Recovered)

def lastIndex : Nat := (r.entries.getLast?.map Entry.index).getD 0

def get (index : Nat) : Option Entry := if index = 0 then none else r.entries.find? fun e => e.index = index

/-- Whether this node would still have `index` after a power cut, as an entry or in its snapshot. -/
def holds (index : Nat) : Bool := index ≤ r.snapshotIndex || (r.get index).isSome

def highest : Nat := max r.lastIndex r.snapshotIndex

/-- Everything the checker can be asked about a disk, against the node that starts from it. -/
structure AgreesWith (n : Raft) : Prop where
  term : r.term = n.term
  votedFor : r.votedFor = n.votedFor
  snapshotIndex : r.snapshotIndex = n.log.snapshotIndex
  snapshotTerm : r.snapshotTerm = n.log.snapshotTerm
  holds : ∀ i, r.holds i = true ↔ i ≤ n.log.snapshotIndex ∨ (n.log.get i).isSome = true
  get : ∀ i, n.log.snapshotIndex < i → r.get i = n.log.get i
  highest : r.highest = n.log.lastIndex

end Recovered

def pickSnapshot (a b : Bytes) : Option Snapshot :=
  match Snapshot.decode a, Snapshot.decode b with
  | some x, some y => some (if x.newerOrSame y then x else y)
  | some x, none => some x
  | none, y => y

def recoverWithSnapshots (wal a b : Bytes) : Recovered :=
  let hs := recoverHardState wal
  let snap := pickSnapshot a b
  { term := hs.term
    votedFor := hs.votedFor
    entries := (recoverLogAnyStart (wal.drop logRegion)).entries.filter fun e => e.term ≤ hs.term
    snapshotIndex := (snap.map Snapshot.index).getD 0
    snapshotTerm := (snap.map Snapshot.term).getD 0 }

-- The scan of the log is the node's, and fails where it does.
def recoverWithSnapshotsChecked (wal a b : Bytes) : Option Recovered :=
  if scanOverflows (wal.drop logRegion) then none else some (recoverWithSnapshots wal a b)

/-- No index or counter on the disk is the last one there is, where the node goes on to the next. -/
structure NoOverflow (wal a b : Bytes) : Prop where
  scan : scanOverflows (wal.drop logRegion) = false
  stateSeq : (recoverHardState wal).seq + 1 < 2 ^ 64
  snapshot : ∀ snap ∈ pickSnapshot a b, snap.seq + 1 < 2 ^ 64 ∧ snap.index + 1 < 2 ^ 64

/-- The first record of the log, if its term is durable, is at most one past the snapshot. -/
def NoGap (wal a b : Bytes) : Prop :=
  ∀ first ∈ readRecord (wal.drop logRegion), first.1.term ≤ (recoverHardState wal).term →
    first.1.index ≤ ((pickSnapshot a b).map Snapshot.index).getD 0 + 1

theorem pickSnapshotWithSource_fst (a b : Bytes) : (pickSnapshotWithSource a b).map Prod.fst = pickSnapshot a b := by
  unfold pickSnapshotWithSource pickSnapshot
  cases Snapshot.decode a with
  | none => cases Snapshot.decode b <;> rfl
  | some x =>
    cases Snapshot.decode b with
    | none => rfl
    | some y =>
      simp only [Option.map_some]
      split <;> rfl

section Run

variable {es : List Entry} {first floor durable snapIndex : Nat}

theorem Follows.floor_le (follows : Follows first floor es) : ∀ e ∈ es, floor ≤ e.term := by
  induction es generalizing first floor with
  | nil => exact nofun
  | cons head rest ih =>
    obtain ⟨-, reaches, later⟩ := follows
    intro e member
    obtain rfl | member := List.mem_cons.mp member
    · exact reaches
    · exact reaches.trans (ih later e member)

theorem Follows.first_le (follows : Follows first floor es) : ∀ e ∈ es, first ≤ e.index := by
  induction es generalizing first floor with
  | nil => exact nofun
  | cons head rest ih =>
    obtain ⟨index, -, later⟩ := follows
    intro e member
    obtain rfl | member := List.mem_cons.mp member
    · exact index.ge
    · exact (Nat.le_succ _).trans (ih later e member)

-- Behind an entry ahead of the durable term, all are.
theorem Follows.filter_ahead (follows : Follows first floor es) (ahead : durable < floor) :
    es.filter (fun e => e.term ≤ durable) = [] := by
  rw [List.filter_eq_nil_iff]
  intro e member
  have := follows.floor_le e member
  simp only [decide_eq_true_eq]
  omega

-- What is of a durable term still follows without a gap.
theorem Follows.retained (follows : Follows first floor es) :
    Follows first floor (es.filter fun e => e.term ≤ durable) := by
  induction es generalizing first floor with
  | nil => exact follows
  | cons head rest ih =>
    obtain ⟨index, reaches, later⟩ := follows
    rw [List.filter_cons]
    split
    · exact ⟨index, reaches, ih later⟩
    · next ahead =>
      rw [later.filter_ahead (by simpa using ahead)]
      trivial

theorem keptEntries_ahead {offsets : List Nat} (follows : Follows first floor es) (ahead : durable < floor)
    (expected : Nat) : keptEntries durable snapIndex expected (es.zip offsets) = [] := by
  induction es generalizing first floor offsets with
  | nil => rfl
  | cons head rest ih =>
    obtain ⟨-, reaches, later⟩ := follows
    cases offsets with
    | nil => rfl
    | cons offset offsets =>
      rw [List.zip_cons_cons, keptEntries, if_pos (by omega)]
      exact ih later (by omega)

-- Above the snapshot, the node keeps what the checker retains.
theorem keptEntries_above {offsets : List Nat} (size : offsets.length = es.length) (follows : Follows first floor es)
    (above : snapIndex < first) :
    (keptEntries durable snapIndex first (es.zip offsets)).map Prod.fst = es.filter fun e => e.term ≤ durable := by
  induction es generalizing first floor offsets with
  | nil => rfl
  | cons head rest ih =>
    cases offsets with
    | nil => cases size
    | cons offset offsets =>
      obtain ⟨index, reaches, later⟩ := follows
      rw [List.zip_cons_cons, keptEntries, List.filter_cons]
      split
      · next ahead =>
        rw [if_neg (by simpa using ahead), keptEntries_ahead later ahead, later.filter_ahead ahead]
        rfl
      · next fits =>
        rw [if_neg (by omega), if_neg (by omega), if_pos (by simpa using fits), List.map_cons, index,
          ih (Nat.succ.inj size) later (by omega)]

-- A run that starts no higher than one past the snapshot: the node keeps what the checker retains above it.
theorem keptEntries_of_reaches {offsets : List Nat} (size : offsets.length = es.length)
    (follows : Follows first floor es) (reaches : first ≤ snapIndex + 1) :
    (keptEntries durable snapIndex (snapIndex + 1) (es.zip offsets)).map Prod.fst =
      (es.filter fun e => e.term ≤ durable).filter fun e => snapIndex < e.index := by
  induction es generalizing first floor offsets with
  | nil => rfl
  | cons head rest ih =>
    by_cases here : first = snapIndex + 1
    · subst here
      rw [keptEntries_above size follows (Nat.lt_succ_self _)]
      refine (List.filter_eq_self.mpr fun e member => ?_).symm
      exact decide_eq_true (follows.first_le e (List.mem_of_mem_filter member))
    · cases offsets with
      | nil => cases size
      | cons offset offsets =>
        obtain ⟨index, _, later⟩ := follows
        rw [List.zip_cons_cons, keptEntries, List.filter_cons]
        split
        · next ahead =>
          rw [if_neg (by simpa using ahead), keptEntries_ahead later ahead, later.filter_ahead ahead]
          rfl
        · next fits =>
          rw [if_pos (by omega), if_pos (by simpa using fits), List.filter_cons, if_neg (by simp; omega)]
          exact ih (Nat.succ.inj size) later (by omega)

-- A run that starts higher: the node keeps nothing.
theorem keptEntries_of_gap {offsets : List Nat} (follows : Follows first floor es) (gap : snapIndex + 1 < first) :
    keptEntries durable snapIndex (snapIndex + 1) (es.zip offsets) = [] := by
  cases es with
  | nil => rfl
  | cons head rest =>
    cases offsets with
    | nil => rfl
    | cons offset offsets =>
      obtain ⟨index, -, later⟩ := follows
      rw [List.zip_cons_cons, keptEntries]
      split
      · next ahead => exact keptEntries_ahead later ahead _
      · rw [if_neg (by omega), if_pos (by omega)]

theorem recordStarts_length (pos : Nat) (es : List Entry) : (recordStarts pos es).length = es.length := by
  induction es generalizing pos with
  | nil => rfl
  | cons e rest ih => rw [recordStarts, List.length_cons, List.length_cons, ih]

end Run

theorem RaftLog.Contiguous.get_eq_find {log : RaftLog} (contiguous : log.Contiguous) {i : Nat}
    (above : log.snapshotIndex < i) : log.get i = log.entries.find? fun e => e.index = i := by
  rw [contiguous.get_eq above]
  cases found : log.entries.find? fun e => e.index = i with
  | none =>
    cases held : log.entries[i - log.firstIndex]? with
    | none => rfl
    | some e =>
      have index := contiguous _ e held
      have absent := List.find?_eq_none.mp found e (List.mem_of_getElem? held)
      simp only [firstIndex, decide_eq_true_eq] at index absent
      omega
  | some e =>
    have index : e.index = i := by simpa using List.find?_some found
    obtain ⟨k, inside, here⟩ := List.getElem_of_mem (List.mem_of_find?_eq_some found)
    have place := contiguous k e (List.getElem?_eq_some_iff.mpr ⟨inside, here⟩)
    have same : i - log.firstIndex = k := by omega
    rw [same]
    exact List.getElem?_eq_some_iff.mpr ⟨inside, here⟩

theorem find?_filter_of_imp {α : Type} {wanted fits : α → Bool} (implies : ∀ a, wanted a = true → fits a = true)
    (items : List α) : (items.filter fits).find? wanted = items.find? wanted := by
  rw [List.find?_filter]
  congr 1
  funext a
  cases w : wanted a with
  | false => simp
  | true => simp [implies a w]

theorem Follows.index_eq {es : List Entry} {first floor : Nat} (follows : Follows first floor es) {i : Nat}
    (inside : i < es.length) : es[i].index = first + i := by
  induction es generalizing first floor i with
  | nil => exact absurd inside (Nat.not_lt_zero i)
  | cons head rest ih =>
    obtain ⟨index, -, later⟩ := follows
    cases i with
    | zero => exact index
    | succ i =>
      rw [List.getElem_cons_succ, ih later (Nat.lt_of_succ_lt_succ inside)]
      omega

-- The last of the entries above the snapshot, or the snapshot itself.
theorem lastIndex_filter {es : List Entry} {first floor : Nat} (follows : Follows first floor es) (snapIndex : Nat) :
    (((es.filter fun e => snapIndex < e.index).getLast?.map Entry.index).getD snapIndex) =
      max ((es.getLast?.map Entry.index).getD 0) snapIndex := by
  obtain rfl | ⟨front, last, rfl⟩ := List.eq_nil_or_concat' es
  · simp
  · obtain ⟨before, index, -⟩ := follows_append_singleton.mp follows
    rw [List.filter_append, List.getLast?_concat, Option.map_some, Option.getD_some]
    by_cases above : snapIndex < last.index
    · rw [List.filter_cons_of_pos (by simpa using above), List.filter_nil, List.getLast?_concat, Option.map_some,
        Option.getD_some, max_eq_left above.le]
    · have none_above : front.filter (fun e => snapIndex < e.index) = [] := by
        rw [List.filter_eq_nil_iff]
        intro e member
        obtain ⟨i, inside, rfl⟩ := List.getElem_of_mem member
        have place := before.index_eq inside
        simp only [decide_eq_true_eq]
        omega
      rw [none_above, List.filter_cons_of_neg (by simpa using above), max_eq_right (not_lt.mp above)]
      rfl

-- What is recovered of a log region, and what its first record has to do with it.
theorem recoverLogAnyStart_run (region : Bytes) : ∃ first,
    Follows first 0 (recoverLogAnyStart region).entries ∧
    (recoverLogAnyStart region).offsets.length = (recoverLogAnyStart region).entries.length ∧
    (∀ e rest, (recoverLogAnyStart region).entries = e :: rest → ∃ size, readRecord region = some (e, size)) ∧
    ((recoverLogAnyStart region).entries = [] → ∀ e size, readRecord region = some (e, size) → e.index = 0) := by
  obtain ⟨es, tail, shape, intact, follows, stops⟩ := exists_run region (firstIndexOf region) 0
  have run : recoverLogAnyStart region = ⟨es, recordStarts 0 es, (records es).length, !tail.isEmpty⟩ := by
    have read := recoverLogFrom_run intact follows stops
    rwa [← shape] at read
  rw [run]
  refine ⟨firstIndexOf region, follows, recordStarts_length 0 es, ?_, ?_⟩
  · rintro e rest rfl
    refine ⟨e.toRecord.length, ?_⟩
    rw [shape, records_cons, List.append_assoc]
    exact readRecord_append (intact e List.mem_cons_self) _
  · rintro rfl e size read
    obtain ⟨whole, -, rest, same⟩ := readRecord_inv read
    have start := firstIndexOf_record whole.valid.1 rest
    rw [← same] at start
    -- the peeked index is the one of this record, unless that is zero
    have other : ¬ (e.index = firstIndexOf region ∧ 0 ≤ e.term) := by
      rw [shape] at read
      exact stops e size read
    omega

theorem recoverWithSnapshots_snapshotIndex (wal a b : Bytes) :
    (recoverWithSnapshots wal a b).snapshotIndex = (readDisk wal a b).log.snapshotIndex ∧
      (recoverWithSnapshots wal a b).snapshotTerm = (readDisk wal a b).log.snapshotTerm := by
  simp only [recoverWithSnapshots, readDisk, recoveredLog, ← pickSnapshotWithSource_fst, Option.map_map]
  exact ⟨rfl, rfl⟩

-- With the entries above the snapshot the same, there is nothing to tell the two apart.
theorem Recovered.agrees_of_entries {r : Recovered} {n : Raft} {first : Nat}
    (contiguous : n.log.Contiguous) (term : r.term = n.term) (votedFor : r.votedFor = n.votedFor)
    (index : r.snapshotIndex = n.log.snapshotIndex) (indexTerm : r.snapshotTerm = n.log.snapshotTerm)
    (follows : Follows first 0 r.entries)
    (kept : n.log.entries = r.entries.filter fun e => n.log.snapshotIndex < e.index) : r.AgreesWith n := by
  have same : ∀ i, n.log.snapshotIndex < i → r.get i = n.log.get i := by
    intro i above
    rw [contiguous.get_eq_find above, kept, find?_filter_of_imp, get, if_neg (by omega)]
    intro e here
    rw [decide_eq_true_eq] at here ⊢
    omega
  refine ⟨term, votedFor, index, indexTerm, fun i => ?_, same, ?_⟩
  · rw [holds, index, Bool.or_eq_true, decide_eq_true_eq]
    by_cases above : n.log.snapshotIndex < i
    · rw [same i above]
    · simp [not_lt.mp above]
  · have last := lastIndex_filter follows n.log.snapshotIndex
    rw [← kept] at last
    rw [highest, lastIndex, index, RaftLog.lastIndex, last]

-- Where sums fit: they agree exactly if the log does not start above the snapshot.
theorem agrees_iff_noGap (wal a b : Bytes) (id : NodeId) (members : List NodeId) (cfg : RaftConfig) (io : Io) :
    (recoverWithSnapshots wal a b).AgreesWith (Raft.recover wal a b id members cfg io).toRaft ↔ NoGap wal a b := by
  obtain ⟨first, follows, size, read, unread⟩ := recoverLogAnyStart_run (wal.drop logRegion)
  obtain ⟨index, indexTerm⟩ := recoverWithSnapshots_snapshotIndex wal a b
  obtain ⟨_, _, _, _, _, raft, _⟩ := Raft.recover_toRaft wal a b id members cfg io
  have log : (Raft.recover wal a b id members cfg io).log = (readDisk wal a b).log := by rw [raft]; rfl
  have place : ((pickSnapshot a b).map Snapshot.index).getD 0 = (readDisk wal a b).log.snapshotIndex := index
  have retained : (recoverWithSnapshots wal a b).entries =
      (recoverLogAnyStart (wal.drop logRegion)).entries.filter fun e => e.term ≤ (recoverHardState wal).term := rfl
  have keeps : (readDisk wal a b).log.entries =
      (keptEntries (recoverHardState wal).term (readDisk wal a b).log.snapshotIndex
        ((readDisk wal a b).log.snapshotIndex + 1) ((recoverLogAnyStart (wal.drop logRegion)).entries.zip
          (recoverLogAnyStart (wal.drop logRegion)).offsets)).map Prod.fst := rfl
  have agrees : (readDisk wal a b).log.entries = (recoverWithSnapshots wal a b).entries.filter
      (fun e => (readDisk wal a b).log.snapshotIndex < e.index) →
      (recoverWithSnapshots wal a b).AgreesWith (Raft.recover wal a b id members cfg io).toRaft := by
    intro kept
    rw [← log] at kept index indexTerm
    refine Recovered.agrees_of_entries ?_ (by rw [raft]; rfl) (by rw [raft]; rfl) index indexTerm
      follows.retained kept
    rw [log]
    exact readDisk_contiguous wal a b
  rw [NoGap, place]
  generalize (recoverLogAnyStart (wal.drop logRegion)).entries = es at *
  cases es with
  | nil =>
    refine iff_of_true (agrees (by rw [keeps, retained]; rfl)) fun first here _ => ?_
    rw [unread rfl first.1 first.2 here]
    exact Nat.zero_le _
  | cons e rest =>
    obtain ⟨used, here⟩ := read e rest rfl
    have atFirst := follows.1
    have later := follows.2.2
    rw [here]
    simp only [Option.mem_def, Option.some.injEq, forall_eq']
    by_cases reaches : first ≤ (readDisk wal a b).log.snapshotIndex + 1
    · refine iff_of_true (agrees ?_) fun _ => atFirst.trans_le reaches
      rw [keeps, retained]
      exact keptEntries_of_reaches size follows reaches
    · have empty : (readDisk wal a b).log.entries = [] := by
        rw [keeps, keptEntries_of_gap follows (not_le.mp reaches)]
        rfl
      by_cases ahead : (recoverHardState wal).term < e.term
      · refine iff_of_true (agrees ?_) fun fits => absurd fits (not_le.mpr ahead)
        rw [empty, retained, List.filter_cons_of_neg (by simpa using ahead), later.filter_ahead ahead]
        rfl
      · -- the checker counts an entry that the node does not keep
        refine iff_of_false (fun same => ?_) fun fits => reaches (atFirst ▸ fits (not_lt.mp ahead))
        have held : (recoverWithSnapshots wal a b).get e.index = some e := by
          rw [Recovered.get, if_neg (by omega), retained,
            List.filter_cons_of_pos (by simpa using not_lt.mp ahead), List.find?_cons_of_pos (by simp)]
        have found := same.get e.index (by rw [log]; omega)
        rw [held, log, (readDisk_contiguous wal a b).get_eq (by omega), empty] at found
        cases found

theorem noOverflow_iff {wal a b : Bytes} :
    NoOverflow wal a b ↔ scanOverflows (wal.drop logRegion) = false ∧ ¬ (readDisk wal a b).Overflows := by
  have survived : (readDisk wal a b).snapshot = pickSnapshot a b := pickSnapshotWithSource_fst a b
  have hard : (readDisk wal a b).hard = recoverHardState wal := rfl
  rw [Survived.Overflows, survived, hard, not_or, not_le]
  refine ⟨fun fits => ⟨fits.scan, fits.stateSeq, ?_⟩, fun ⟨scan, stateSeq, within⟩ =>
    ⟨scan, stateSeq, fun snap picked => ?_⟩⟩
  · cases picked : pickSnapshot a b with
    | none => exact Bool.false_ne_true
    | some snap =>
      have within := fits.snapshot snap picked
      rw [Option.any_some, decide_eq_true_eq]
      omega
  · rw [Option.mem_def.mp picked, Option.any_some, decide_eq_true_eq, not_or, not_le, not_le] at within
    exact within

theorem recoverChecked_eq_some {wal a b : Bytes} {id : NodeId} {members : List NodeId} {cfg : RaftConfig} {io : Io}
    {n : Node} : Raft.recoverChecked wal a b id members cfg io = some n ↔
      (NoOverflow wal a b ∧ cfg.timeoutSpan < 2 ^ 64) ∧ n = Raft.recover wal a b id members cfg io := by
  rw [Raft.recoverChecked, noOverflow_iff]
  split
  · next overflows =>
    refine iff_of_false (by simp) ?_
    rintro ⟨⟨⟨scan, fits⟩, span⟩, -⟩
    rcases overflows with bad | bad | bad
    · exact Bool.false_ne_true (scan.symm.trans bad)
    · exact fits bad
    · exact absurd span (not_lt.mpr bad)
  · next fine =>
    rw [not_or, not_or, Bool.not_eq_true, not_le] at fine
    obtain ⟨scan, fits, span⟩ := fine
    exact ⟨fun same => ⟨⟨⟨scan, fits⟩, span⟩, (Option.some.inj same).symm⟩, fun started => congrArg some started.2.symm⟩

/-- On any three files: the durability checker and a restarting node both return, and agree, exactly if the log does
not start above the snapshot and no sum is beyond a `u64`: nothing on the disk is the last of its kind, nor does the
election timeout range over all there are. -/
theorem recovered_agrees_iff (wal a b : Bytes) (id : NodeId) (members : List NodeId) (cfg : RaftConfig) (io : Io) :
    (∃ r n, recoverWithSnapshotsChecked wal a b = some r ∧ Raft.recoverChecked wal a b id members cfg io = some n ∧
      r.AgreesWith n.toRaft) ↔ NoGap wal a b ∧ NoOverflow wal a b ∧ cfg.timeoutSpan < 2 ^ 64 := by
  rw [← agrees_iff_noGap wal a b id members cfg io]
  constructor
  · rintro ⟨r, n, decoded, started, agrees⟩
    obtain ⟨fits, rfl⟩ := recoverChecked_eq_some.mp started
    rw [recoverWithSnapshotsChecked, fits.1.scan] at decoded
    exact ⟨Option.some.inj decoded ▸ agrees, fits⟩
  · rintro ⟨agrees, fits⟩
    refine ⟨_, _, ?_, recoverChecked_eq_some.mpr ⟨fits, rfl⟩, agrees⟩
    rw [recoverWithSnapshotsChecked, fits.1.scan]
    rfl

def gappedFile : Bytes :=
  HardState.toSlot { term := 1, votedFor := none, seq := 1 } ++ (List.replicate slotSize 0 ++ (usualEntry 3).toRecord)

def lastSnapshot : Bytes := Snapshot.encode { seq := 1, index := 2 ^ 64 - 1, term := 1, data := [] }

/-- The checker finds an entry on a disk that a node starts from with an empty log. And it decodes a disk that no node
can start from. -/
theorem gap_miscounted :
    (∃ r n, recoverWithSnapshotsChecked gappedFile [] [] = some r ∧
      Raft.recoverChecked gappedFile [] [] 0 [0] {} {} = some n ∧ r.holds 3 = true ∧ n.log.lastIndex = 0 ∧
      ¬ r.AgreesWith n.toRaft) ∧
    (recoverWithSnapshotsChecked [] lastSnapshot []).isSome = true ∧
      Raft.recoverChecked [] lastSnapshot [] 0 [0] {} {} = none := by
  have fits : NoOverflow gappedFile [] [] := ⟨by decide +kernel, by decide +kernel, nofun⟩
  have started : Raft.recoverChecked gappedFile [] [] 0 [0] {} {} = some (Raft.recover gappedFile [] [] 0 [0] {} {}) :=
    recoverChecked_eq_some.mpr ⟨⟨fits, by decide⟩, rfl⟩
  refine ⟨⟨recoverWithSnapshots gappedFile [] [], _, ?_, started, ?_⟩, ?_, ?_⟩
  · rw [recoverWithSnapshotsChecked, fits.scan]
    rfl
  · refine ⟨by decide +kernel, by decide +kernel, fun same => ?_⟩
    have missing : ¬ (3 ≤ (Raft.recover gappedFile [] [] 0 [0] {} {}).log.snapshotIndex ∨
        ((Raft.recover gappedFile [] [] 0 [0] {} {}).log.get 3).isSome = true) := by decide +kernel
    exact missing ((same.holds 3).mp (by decide +kernel))
  · decide +kernel
  · exact if_pos (by decide +kernel)

/-- The durable image of one node's files. -/
structure DiskView where
  id : NodeId
  bytes : Bytes
  snapshots : Bytes × Bytes

def DiskView.recovered (d : DiskView) : Recovered := recoverWithSnapshots d.bytes d.snapshots.1 d.snapshots.2

/-- One committed entry, as the cluster believes it. -/
structure CommittedEntry where
  index : Nat
  term : Nat
  cmd : Command
  -- The membership it was committed under. Empty means every disk given.
  members : List NodeId

namespace CommittedEntry

variable (c : CommittedEntry)

def voters (clusterSize : Nat) : Nat := if c.members.isEmpty then clusterSize else c.members.length

def quorum (clusterSize : Nat) : Nat := c.voters clusterSize / 2 + 1

def heldBy (r : Recovered) : Bool :=
  c.index ≤ r.snapshotIndex || (r.get c.index).any fun e => e.term = c.term && e.cmd = c.cmd

def holders (disks : List DiskView) : Nat :=
  ((disks.filter fun d => c.members.isEmpty || c.members.contains d.id).filter fun d => c.heldBy d.recovered).length

end CommittedEntry

/-- Everything the cluster considers committed is durable on a majority. One report is enough. -/
def checkCommittedDurable (time : Nanos) (committed : List CommittedEntry) (disks : List DiskView)
    (clusterSize : Nat) : List Violation :=
  match committed.find? fun c => c.holders disks < c.quorum clusterSize with
  | none => []
  | some c =>
    [{ kind := "committed_not_durable", time, node := none
       detail := "committed index " ++ toString c.index ++ " (term " ++ toString c.term ++
         ") is on stable storage on only " ++ toString (c.holders disks) ++ " of " ++ toString (c.voters clusterSize) ++
         " members; a quorum is " ++ toString (c.quorum clusterSize) }]

/-- Every node that has applied as many entries as the first one must hold the same data. -/
def checkConvergence (debug : String → String) (time : Nanos) :
    List (NodeId × Nat × Std.ExtTreeMap String String) → List Violation
  | [] => []
  | (firstId, firstApplied, firstState) :: rest => rest.filterMap fun (id, applied, state) =>
    -- a node that is still catching up is not a disagreement
    if applied ≠ firstApplied ∨ state = firstState then none
    else
      let differing := (firstState.toList.filter fun (k, v) => state[k]? ≠ some v).map fun (k, v) =>
        k ++ "=" ++ debug v ++ " vs " ++ Operation.debugOption debug state[k]?
      some { kind := "replicas_diverged", time, node := some id
             detail := "after applying " ++ toString applied ++ " entries, n" ++ toString id ++ " disagrees with n" ++
               toString firstId ++ ": " ++ String.intercalate ", " (differing.take 4) }

theorem checkConvergence_nil {states : List (NodeId × Nat × Std.ExtTreeMap String String)}
    (same : ∀ p ∈ states, ∀ q ∈ states, p.2.1 = q.2.1 → p.2.2 = q.2.2) (debug : String → String) (time : Nanos) :
    checkConvergence debug time states = [] := by
  cases states with
  | nil => rfl
  | cons first rest =>
    rw [checkConvergence, List.filterMap_eq_nil_iff]
    intro p member
    refine if_pos ?_
    by_cases level : p.2.1 = first.2.1
    · exact .inr (same p (List.mem_cons_of_mem _ member) first List.mem_cons_self level)
    · exact .inl level

theorem checkCommittedDurable_nil {committed : List CommittedEntry} {disks : List DiskView} {clusterSize : Nat}
    (held : ∀ c ∈ committed, c.quorum clusterSize ≤ c.holders disks) (time : Nanos) :
    checkCommittedDurable time committed disks clusterSize = [] := by
  have none_ : committed.find? (fun c => c.holders disks < c.quorum clusterSize) = none := by
    refine List.find?_eq_none.mpr fun c member lacking => ?_
    exact absurd (of_decide_eq_true lacking) (not_lt.mpr (held c member))
  rw [checkCommittedDurable, none_]

-- An entry on the disks of a majority has a quorum of holders.
theorem CommittedEntry.quorum_le_holders {c : CommittedEntry} {disks : List DiskView} {voters : Finset NodeId}
    (nodup : c.members.Nodup) (majority : Ballot.Majority c.members.toFinset voters)
    (held : ∀ v ∈ voters, v ∈ c.members → ∃ d ∈ disks, d.id = v ∧ c.heldBy d.recovered = true) (clusterSize : Nat) :
    c.quorum clusterSize ≤ c.holders disks := by
  rw [holders]
  generalize kept : ((disks.filter fun d => c.members.isEmpty || c.members.contains d.id).filter
    fun d => c.heldBy d.recovered) = holding
  have inside : voters ∩ c.members.toFinset ⊆ (holding.map DiskView.id).toFinset := by
    intro v member
    obtain ⟨voter, listed⟩ := Finset.mem_inter.mp member
    have listed := List.mem_toFinset.mp listed
    obtain ⟨d, there, rfl, holds⟩ := held v voter listed
    refine List.mem_toFinset.mpr (List.mem_map_of_mem ?_)
    rw [← kept]
    refine List.mem_filter.mpr ⟨List.mem_filter.mpr ⟨there, ?_⟩, holds⟩
    rw [List.contains_iff_mem.mpr listed, Bool.or_true]
  have count := (Finset.card_le_card inside).trans (List.toFinset_card_le _)
  rw [Ballot.Majority, List.toFinset_card_of_nodup nodup] at majority
  rw [List.length_map] at count
  have some_ : ¬ c.members.isEmpty := by
    intro empty
    rw [List.isEmpty_iff.mp empty] at majority
    simp at majority
  rw [quorum, CommittedEntry.voters, if_neg some_]
  omega

theorem Follows.find?_eq {es : List Entry} {first floor : Nat} (follows : Follows first floor es) {e : Entry}
    (member : e ∈ es) : es.find? (fun x => x.index = e.index) = some e := by
  obtain ⟨k, inside, rfl⟩ := List.getElem_of_mem member
  cases found : es.find? fun x => x.index = es[k].index with
  | none => exact absurd (decide_eq_true rfl) (List.find?_eq_none.mp found _ member)
  | some x =>
    have same : x.index = es[k].index := by simpa using List.find?_some found
    obtain ⟨j, within, rfl⟩ := List.getElem_of_mem (List.mem_of_find?_eq_some found)
    rw [follows.index_eq inside, follows.index_eq within] at same
    obtain rfl := Nat.add_left_cancel same
    rfl

-- What a restart finds, the checker finds too.
theorem recoverWithSnapshots_get {wal a b : Bytes} {e : Entry} (member : e ∈ (readDisk wal a b).log.entries) :
    (recoverWithSnapshots wal a b).get e.index = some e := by
  obtain ⟨first, follows, size, -, -⟩ := recoverLogAnyStart_run (wal.drop logRegion)
  have keeps : (readDisk wal a b).log.entries =
      (keptEntries (recoverHardState wal).term (readDisk wal a b).log.snapshotIndex
        ((readDisk wal a b).log.snapshotIndex + 1) ((recoverLogAnyStart (wal.drop logRegion)).entries.zip
          (recoverLogAnyStart (wal.drop logRegion)).offsets)).map Prod.fst := rfl
  rw [keeps] at member
  by_cases reaches : first ≤ (readDisk wal a b).log.snapshotIndex + 1
  · rw [keptEntries_of_reaches size follows reaches] at member
    obtain ⟨retained, above⟩ := List.mem_filter.mp member
    have above := of_decide_eq_true above
    rw [Recovered.get, if_neg (by omega)]
    exact follows.retained.find?_eq retained
  · rw [keptEntries_of_gap follows (not_le.mp reaches)] at member
    cases member

end SimKv
