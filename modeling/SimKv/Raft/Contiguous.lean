import SimKv.Raft.Becomes
import SimKv.Raft.Recover

set_option autoImplicit false

/-!
# Logs without gaps

The entries of a log carry consecutive indices from its snapshot on. Appending asserts it, and a
restart keeps nothing behind a gap.
-/

namespace SimKv

theorem RaftLog.lastIndex_append (log : RaftLog) (e : Entry) : (log.append e).lastIndex = e.index := by
  simp [RaftLog.lastIndex, RaftLog.append]

theorem RaftLog.snapshotIndex_truncateFrom (log : RaftLog) (at_ : Nat) :
    (log.truncateFrom at_).snapshotIndex = log.snapshotIndex := by
  simp only [truncateFrom]
  split <;> rfl

theorem RaftLog.snapshotIndex_appendAll (log : RaftLog) (entries : List Entry) :
    (log.appendAll entries).snapshotIndex = log.snapshotIndex := by
  unfold appendAll
  induction entries generalizing log with
  | nil => rfl
  | cons e rest ih => exact ih (log.append e)

theorem RaftLog.entries_appendAll (log : RaftLog) (entries : List Entry) :
    (log.appendAll entries).entries = log.entries ++ entries := by
  unfold appendAll
  induction entries generalizing log with
  | nil => exact (List.append_nil _).symm
  | cons e rest ih =>
    rw [List.foldl_cons, ih, RaftLog.append, List.append_assoc]
    rfl

theorem RaftLog.snapshotIndex_splice (log : RaftLog) (p : Nat) (es : List Entry) (i : Nat)
    (conflict : Bool) : (log.splice p es i conflict).snapshotIndex = log.snapshotIndex := by
  rw [splice, snapshotIndex_appendAll]
  split
  · exact log.snapshotIndex_truncateFrom _
  · rfl

theorem RaftLog.snapshotIndex_compactTo (log : RaftLog) (index term : Nat) :
    (log.compactTo index term).snapshotIndex ≤ max log.snapshotIndex index := by
  simp only [compactTo]
  split
  · exact le_max_left _ _
  · exact le_max_right _ _

theorem RaftLog.snapshotIndex_le_compactTo (log : RaftLog) (index term : Nat) :
    log.snapshotIndex ≤ (log.compactTo index term).snapshotIndex := by
  simp only [compactTo]
  split
  · exact le_rfl
  · simp only
    omega

theorem RaftLog.snapshotIndex_adopt (log : RaftLog) (index term : Nat) :
    (log.adopt index term).snapshotIndex ≤ max log.snapshotIndex index := by
  simp only [adopt]
  split
  · exact log.snapshotIndex_compactTo index term
  · exact le_max_right _ _

theorem RaftLog.snapshotTerm_appendAll (log : RaftLog) (entries : List Entry) :
    (log.appendAll entries).snapshotTerm = log.snapshotTerm := by
  induction entries generalizing log with
  | nil => rfl
  | cons e rest ih => exact ih (log.append e)

theorem RaftLog.snapshotTerm_truncateFrom (log : RaftLog) (at_ : Nat) :
    (log.truncateFrom at_).snapshotTerm = log.snapshotTerm := by
  simp only [truncateFrom]
  split <;> rfl

theorem RaftLog.snapshotTerm_splice (log : RaftLog) (p : Nat) (es : List Entry) (i : Nat) (conflict : Bool) :
    (log.splice p es i conflict).snapshotTerm = log.snapshotTerm := by
  rw [splice, snapshotTerm_appendAll]
  split
  · exact log.snapshotTerm_truncateFrom _
  · rfl

theorem RaftLog.compactTo_base {log : RaftLog} {index : Nat} (newer : log.snapshotIndex < index)
    (within : index ≤ log.lastIndex) (term : Nat) :
    (log.compactTo index term).snapshotIndex = index ∧ (log.compactTo index term).snapshotTerm = term := by
  rw [compactTo, if_neg (by omega)]
  exact ⟨rfl, rfl⟩

theorem RaftLog.adopt_base {log : RaftLog} {index : Nat} (newer : log.snapshotIndex < index) (term : Nat) :
    (log.adopt index term).snapshotIndex = index ∧ (log.adopt index term).snapshotTerm = term := by
  rw [adopt]
  split
  · next known =>
    refine compactTo_base newer ?_ term
    by_contra beyond
    rw [termAt, if_neg (by rw [noIndex]; omega), if_neg (by omega), get, if_pos (.inr (not_le.mp beyond))] at known
    cases known
  · exact ⟨rfl, rfl⟩

namespace RaftLog

variable {log : RaftLog}

def Contiguous (log : RaftLog) : Prop :=
  ∀ k e, log.entries[k]? = some e → e.index = log.firstIndex + k

theorem Contiguous.lastIndex_eq (contiguous : log.Contiguous) :
    log.lastIndex = log.snapshotIndex + log.entries.length := by
  unfold lastIndex
  cases last : log.entries.getLast? with
  | none => simp [List.getLast?_eq_none_iff.mp last]
  | some e =>
    have nonempty : log.entries ≠ [] := by
      rintro empty
      rw [empty] at last
      cases last
    rw [List.getLast?_eq_getElem?] at last
    have size := List.length_pos_iff.mpr nonempty
    have index := contiguous _ e last
    simp only [Option.map_some, Option.getD_some, index, firstIndex]
    omega

theorem Contiguous.get_eq (contiguous : log.Contiguous) {index : Nat} (above : log.snapshotIndex < index) :
    log.get index = log.entries[index - log.firstIndex]? := by
  unfold get
  split
  · next outside =>
    rw [contiguous.lastIndex_eq] at outside
    rw [List.getElem?_eq_none]
    simp only [firstIndex] at outside ⊢
    omega
  · rfl

theorem Contiguous.get_of_mem (contiguous : log.Contiguous) {e : Entry}
    (member : e ∈ log.entries) :
    log.get e.index = some e ∧ log.snapshotIndex < e.index ∧ e.index ≤ log.lastIndex := by
  obtain ⟨k, inside, here⟩ := List.getElem_of_mem member
  have found := List.getElem?_eq_some_iff.mpr ⟨inside, here⟩
  have place := contiguous k e found
  have size := contiguous.lastIndex_eq
  rw [firstIndex] at place
  refine ⟨?_, by omega, by omega⟩
  rw [contiguous.get_eq (by omega), ← found]
  congr 1
  rw [firstIndex]
  omega

theorem Contiguous.index_of_get (contiguous : log.Contiguous) {index : Nat} {e : Entry}
    (found : log.get index = some e) : e.index = index ∧ log.snapshotIndex < index ∧ index ≤ log.lastIndex := by
  have inside : ¬ (index < log.firstIndex ∨ log.lastIndex < index) := by
    intro outside
    rw [get, if_pos outside] at found
    cases found
  rw [firstIndex] at inside
  rw [contiguous.get_eq (by omega)] at found
  have place := contiguous _ e found
  rw [firstIndex] at place
  omega

theorem Contiguous.exists_get (contiguous : log.Contiguous) {index : Nat} (above : log.snapshotIndex < index)
    (inside : index ≤ log.lastIndex) : ∃ e ∈ log.entries, e.index = index ∧ log.get index = some e := by
  have size := contiguous.lastIndex_eq
  have place : index - log.firstIndex < log.entries.length := by
    rw [firstIndex]
    omega
  have found := List.getElem?_eq_getElem place
  refine ⟨_, List.getElem_mem place, ?_, (contiguous.get_eq above).trans found⟩
  rw [contiguous _ _ found, firstIndex]
  omega

theorem Contiguous.append (contiguous : log.Contiguous) {e : Entry} (next : e.index = log.lastIndex + 1) :
    (log.append e).Contiguous := by
  intro k e' found
  simp only [RaftLog.append] at found ⊢
  rcases List.getElem?_eq_some_iff.mp found with ⟨inside, _⟩
  rw [List.length_append, List.length_singleton] at inside
  by_cases old : k < log.entries.length
  · rw [List.getElem?_append_left old] at found
    exact contiguous k e' found
  · have newest : k = log.entries.length := by omega
    rw [newest, List.getElem?_concat_length] at found
    cases found
    rw [next, contiguous.lastIndex_eq, newest]
    simp only [firstIndex]
    omega

theorem Contiguous.appendAll (contiguous : log.Contiguous) {entries : List Entry}
    (sound : log.AppendsOk entries) : (log.appendAll entries).Contiguous := by
  unfold RaftLog.appendAll
  induction entries generalizing log with
  | nil => exact contiguous
  | cons e rest ih => exact ih (contiguous.append sound.1.1) sound.2

-- A log cut short has no new gaps.
theorem Contiguous.truncateFrom (contiguous : log.Contiguous) (at_ : Nat) :
    (log.truncateFrom at_).Contiguous := by
  simp only [RaftLog.truncateFrom]
  split
  · intro k e found
    rw [List.getElem?_take] at found
    split at found
    · exact contiguous k e found
    · cases found
  · exact contiguous

theorem Contiguous.compactTo (contiguous : log.Contiguous) (index term : Nat) :
    (log.compactTo index term).Contiguous := by
  simp only [RaftLog.compactTo]
  split
  · exact contiguous
  · next inside =>
    intro k e found
    rw [List.getElem?_drop] at found
    have index := contiguous _ e found
    simp only [firstIndex] at index ⊢
    omega

theorem Contiguous.adopt (contiguous : log.Contiguous) (index term : Nat) :
    (log.adopt index term).Contiguous := by
  simp only [RaftLog.adopt]
  split
  · exact contiguous.compactTo index term
  · intro k e found
    cases found

end RaftLog

theorem RaftLog.Contiguous.splice {log : RaftLog} (contiguous : log.Contiguous) {prevIndex i : Nat}
    {entries : List Entry} {conflict : Bool}
    (sound : (if conflict then log.truncateFrom (prevIndex + 1 + i) else log).AppendsOk (entries.drop i)) :
    (log.splice prevIndex entries i conflict).Contiguous := by
  refine appendAll ?_ sound
  split
  · exact contiguous.truncateFrom _
  · exact contiguous

theorem RaftLog.AppendsOk.lastIndex_lt {log : RaftLog} {es : List Entry} (sound : log.AppendsOk es) :
    log.lastIndex ≤ (log.appendAll es).lastIndex ∧ ∀ e ∈ es, log.lastIndex < e.index := by
  induction es generalizing log with
  | nil => exact ⟨le_rfl, nofun⟩
  | cons e rest ih =>
    obtain ⟨⟨index, -⟩, later⟩ := sound
    obtain ⟨reaches, above⟩ := ih later
    rw [log.lastIndex_append] at reaches above
    refine ⟨?_, List.forall_mem_cons.mpr ⟨by omega, fun e' here => ?_⟩⟩
    · rw [RaftLog.appendAll, List.foldl_cons, ← RaftLog.appendAll]
      omega
    · have := above e' here
      omega

theorem RaftLog.Contiguous.lastIndex_compactTo {log : RaftLog} (contiguous : log.Contiguous) (index term : Nat) :
    (log.compactTo index term).lastIndex = log.lastIndex := by
  rw [(contiguous.compactTo index term).lastIndex_eq]
  have size := contiguous.lastIndex_eq
  simp only [RaftLog.compactTo]
  split
  · exact size.symm
  · simp only [List.length_drop]
    omega

inductive RaftLog.Edit (cause : Cause) (n : Node) : RaftLog → Prop where
  | same : Edit cause n n.log
  | append (e : Entry) (sound : n.log.AppendOk e) : Edit cause n (n.log.append e)
  | splice (p i : Nat) (es : List Entry) (conflict : Bool) (base : n.log.snapshotIndex ≤ p)
      (sound : (if conflict then n.log.truncateFrom (p + 1 + i) else n.log).AppendsOk (es.drop i)) :
      Edit cause n (n.log.splice p es i conflict)
  | compact (index term : Nat) (file : FileId) (hard : Option HardState)
      (done : cause = .durable (.snapshotTaken index term file) hard) :
      Edit cause n (n.log.compactTo index term)
  | adopt (index term : Nat) (data : Bytes) (file : FileId) (replyTo : NodeId) (replyTerm : Nat)
      (hard : Option HardState)
      (done : cause = .durable (.snapshotInstalled index term data file replyTo replyTerm) hard)
      (wanted : n.log.termAt index = some term ∨ n.commitIndex ≤ index) :
      Edit cause n (n.log.adopt index term)

theorem Trims.base {log : RaftLog} {prevIndex prevTerm p t : Nat} {entries es : List Entry}
    (trims : Trims log prevIndex prevTerm entries p t es) : log.snapshotIndex ≤ p := by
  cases trims with
  | whole above => exact above
  | skip => exact le_rfl

theorem Trims.subset {log : RaftLog} {prevIndex prevTerm p t : Nat} {entries es : List Entry}
    (trims : Trims log prevIndex prevTerm entries p t es) : es ⊆ entries := by
  cases trims with
  | whole => exact List.Subset.refl _
  | skip => exact List.drop_subset _ _

theorem Act.edit {cause : Cause} {r : Raft} {n m : Node} (act : Act cause r n m) :
    RaftLog.Edit cause n m.log := by
  have becomes := act.becomes
  generalize m.toRaft = after at becomes ⊢
  cases becomes with
  | append e _ _ _ sound => exact .append e sound
  | splice _ _ _ _ _ _ p t es i conflict _ trims _ _ _ _ sound => exact .splice p i es conflict trims.base sound
  | taken index term file hard done => exact .compact index term file hard done
  | adopt index term data file replyTo replyTerm hard done _ wanted =>
    exact .adopt index term data file replyTo replyTerm hard done wanted
  | _ => exact .same

theorem RaftLog.Edit.contiguous {cause : Cause} {n : Node} {log : RaftLog} (edit : Edit cause n log)
    (contiguous : n.log.Contiguous) : log.Contiguous := by
  cases edit with
  | same => exact contiguous
  | append e sound => exact contiguous.append sound.1
  | splice p i es conflict _ sound => exact contiguous.splice sound
  | compact index term => exact contiguous.compactTo index term
  | adopt index term => exact contiguous.adopt index term

theorem keptEntries_contiguous (hardTerm snapIndex expected : Nat) (recovered : List (Entry × Nat)) :
    ∀ k e, ((keptEntries hardTerm snapIndex expected recovered).map Prod.fst)[k]? = some e →
      e.index = expected + k := by
  induction recovered generalizing expected with
  | nil =>
    intro k e found
    cases found
  | cons head rest ih =>
    obtain ⟨entry, offset⟩ := head
    simp only [keptEntries]
    split
    · exact ih expected
    · split
      · exact ih expected
      · split
        · intro k e found
          cases found
        · next same =>
          intro k e found
          cases k with
          | zero =>
            cases found
            exact not_not.mp same
          | succ k =>
            have index := ih (entry.index + 1) k e found
            rw [index, not_not.mp same]
            omega

-- Whatever a disk holds, recovery keeps a log without gaps.
theorem readDisk_contiguous (wal a b : Bytes) : (readDisk wal a b).log.Contiguous := by
  intro k e found
  exact keptEntries_contiguous _ _ _ _ k e found

-- A restart computes the membership and arms a timer; the rest is what the files say.
theorem Raft.recover_toRaft (wal a b : Bytes) (id : NodeId) (members : List NodeId) (cfg : RaftConfig)
    (io : Io) : ∃ current configIndex nextIndex matchIndex electionTimer,
    (Raft.recover wal a b id members cfg io).toRaft =
        { (readDisk wal a b).raft id members cfg with
          members := current, configIndex, nextIndex, matchIndex, electionTimer } ∧
      (Raft.recover wal a b id members cfg io).nextOp = io.nextOp := by
  have io' := Node.refreshConfig_toIo { toRaft := (readDisk wal a b).raft id members cfg, toIo := io : Node }
  obtain ⟨current, config, next, matched, raft⟩ :=
    Node.refreshConfig_toRaft { toRaft := (readDisk wal a b).raft id members cfg, toIo := io : Node }
  refine ⟨current, config, next, matched, { handle := some io.nextTimer }, ?_, ?_⟩
  · simp only [recover, Survived.boot, Node.resetElectionTimer, raft, io']
  · simp only [recover, Survived.boot, Node.resetElectionTimer, io']

end SimKv
