import SimKv.Raft.Handlers

set_option autoImplicit false

/-!
# What the operations leave alone

One lemma for each operation that writes or recomputes something: which fields it may change,
which messages it sends, and what it owes to disk afterwards.
-/

namespace SimKv

def Raft.configOver (log : RaftLog) (initial base : List NodeId) : List NodeId × Nat :=
  (configScan log log.lastIndex).getD (if base = [] then initial else base, 0)

open Codec

structure Duty where
  id : Nat
  file : FileId
  action : Persist
  hard : Option HardState
  deriving DecidableEq, Repr

def Batch.duty (b : Batch) : Duty := { id := b.id, file := b.file, action := b.action, hard := b.hard }

namespace Persister

variable (p : Persister)

def duties : List Duty := p.batches.map Batch.duty

def Ordered : Prop := ∀ b ∈ p.batches, b.id ≤ p.nextId

theorem duties_modifyBatch (id : Nat) {f : Batch → Batch} (same : ∀ b, (f b).duty = b.duty) :
    (p.modifyBatch id f).duties = p.duties := by
  simp only [duties, modifyBatch, List.map_map]
  apply List.map_congr_left
  intro b _
  simp only [Function.comp]
  split
  · exact same b
  · rfl

@[simp] theorem duties_noteWrite (id : Nat) (op : OpId) : (p.noteWrite id op).duties = p.duties :=
  p.duties_modifyBatch id fun _ => rfl

@[simp] theorem duties_noteSync (id : Nat) (op : OpId) : (p.noteSync id op).duties = p.duties :=
  p.duties_modifyBatch id fun _ => rfl

@[simp] theorem duties_start (action : Persist) :
    (p.start action).duties = p.duties ++ [{ id := p.nextId + 1, file := .wal, action, hard := none }] := by
  simp [duties, start, Batch.duty]

theorem Ordered.fresh {p : Persister} (ordered : p.Ordered) : ∀ d ∈ p.duties, d.id ≤ p.nextId := by
  intro d member
  obtain ⟨b, held, rfl⟩ := List.mem_map.mp member
  exact ordered b held

theorem ordered_iff : p.Ordered ↔ ∀ d ∈ p.duties, d.id ≤ p.nextId := by
  constructor
  · exact Ordered.fresh
  · intro bound b member
    exact bound b.duty (List.mem_map_of_mem member)

def Opens (file : FileId) (action : Persist) (hard : Option HardState) (p' : Persister) : Prop :=
  p'.nextId = p.nextId + 1 ∧
    p'.duties = p.duties ++ [{ id := p.nextId + 1, file, action, hard }]

variable {p} {p' : Persister} {file : FileId} {action : Persist} {hard : Option HardState}

theorem start_opens (action : Persist) : p.Opens .wal action none (p.start action) :=
  ⟨rfl, p.duties_start action⟩

theorem Opens.noteWrite (opens : p.Opens file action hard p') (id : Nat) (op : OpId) :
    p.Opens file action hard (p'.noteWrite id op) :=
  ⟨opens.1, (p'.duties_noteWrite id op).trans opens.2⟩

theorem Opens.ordered (opens : p.Opens file action hard p') (ordered : p.Ordered) : p'.Ordered := by
  rw [ordered_iff, opens.1, opens.2]
  intro d member
  rcases List.mem_append.mp member with old | new
  · exact Nat.le_succ_of_le (ordered.fresh d old)
  · rw [List.mem_singleton.mp new]

-- Editing the newest batch leaves the older ones alone.
theorem Opens.edit (opens : p.Opens file action hard p') (ordered : p.Ordered) {f : Batch → Batch}
    {g : Duty → Duty} (commutes : ∀ b, (f b).duty = g b.duty) :
    (p'.modifyBatch (p.nextId + 1) f).duties =
      p.duties ++ [g { id := p.nextId + 1, file, action, hard }] := by
  have edited : (p'.modifyBatch (p.nextId + 1) f).duties =
      p'.duties.map fun d => if d.id = p.nextId + 1 then g d else d := by
    simp only [duties, modifyBatch, List.map_map]
    apply List.map_congr_left
    intro b _
    simp only [Function.comp]
    split
    · rw [commutes b, if_pos (by simpa [Batch.duty] using ‹b.id = _›)]
    · rw [if_neg (by simpa [Batch.duty] using ‹¬ b.id = _›)]
  have older : p.duties.map (fun d => if d.id = p.nextId + 1 then g d else d) = p.duties := by
    conv_rhs => rw [← List.map_id p.duties]
    apply List.map_congr_left
    intro d member
    have := ordered.fresh d member
    rw [if_neg (by omega), id]
  rw [edited, opens.2, List.map_append, older]
  simp

theorem Opens.noteHardState (opens : p.Opens file action hard p') (ordered : p.Ordered)
    (hs : HardState) : p.Opens file action (some hs) (p'.noteHardState (p.nextId + 1) hs) :=
  ⟨opens.1, opens.edit ordered (g := fun d => { d with hard := some hs }) fun _ => rfl⟩

theorem Opens.noteFile (opens : p.Opens file action hard p') (ordered : p.Ordered)
    (other : FileId) : p.Opens other action hard (p'.noteFile (p.nextId + 1) other) :=
  ⟨opens.1, opens.edit ordered (g := fun d => { d with file := other }) fun _ => rfl⟩

theorem duties_clampAll (cap : Nat) :
    (p.clampAll cap).duties = p.duties.map fun d => { d with action := d.action.clamp cap } := by
  simp [duties, clampAll, Batch.duty]

theorem Ordered.clampAll (ordered : p.Ordered) (cap : Nat) : (p.clampAll cap).Ordered := by
  intro b member
  obtain ⟨old, held, rfl⟩ := List.mem_map.mp member
  exact ordered old held

theorem duties_eraseP {q : Batch → Bool} {d : Duty} {batches : List Batch}
    (member : d ∈ (batches.eraseP q).map Batch.duty) : d ∈ batches.map Batch.duty :=
  List.map_subset _ (List.eraseP_subset) member

-- A completion adds no batch, and what it reports as done was a batch's duty.
theorem onComplete_spec (p : Persister) (op : OpId) (ok : Bool) :
    (p.onComplete op ok).2.nextId = p.nextId ∧
    (∀ d ∈ (p.onComplete op ok).2.duties, d ∈ p.duties) ∧
    ∀ action hard, (p.onComplete op ok).1 = .done action hard →
      ∃ d ∈ p.duties, d.action = action ∧ d.hard = hard := by
  unfold onComplete
  split
  · exact ⟨rfl, fun d member => member, nofun⟩
  · next id kind _ =>
    dsimp only
    split
    · refine ⟨rfl, fun d member => ?_, nofun⟩
      exact List.map_subset _ (List.filter_subset_self _) member
    · split
      · exact ⟨rfl, fun d member => member, nofun⟩
      · next b found =>
        split
        · have same := duties_modifyBatch { p with ops := p.ops.eraseP fun o => o.1 = op } id
            (f := fun b => { b with writesOutstanding := b.writesOutstanding - 1 }) fun _ => rfl
          split
          · exact ⟨rfl, fun d member => same ▸ member, nofun⟩
          · exact ⟨rfl, fun d member => same ▸ member, nofun⟩
        · refine ⟨rfl, fun d member => duties_eraseP member, ?_⟩
          intro action hard same
          cases same
          exact ⟨b.duty, List.mem_map_of_mem (List.mem_of_find?_eq_some found), rfl, rfl⟩

end Persister

namespace Node

variable (n : Node)

def sent : List (NodeId × RaftMsg) :=
  n.effects.filterMap fun
    | .send dst msg => some (dst, msg)
    | _ => none

theorem sent_ioSend (dst : NodeId) (msg : RaftMsg) :
    (n.ioSend dst msg).sent = n.sent ++ if dst = n.id then [] else [(dst, msg)] := by
  unfold ioSend
  split <;> simp [sent, emit]

structure Writes (m : Node) : Prop where
  raft : m.toRaft = { n.toRaft with persister := m.persister }
  nextId : m.persister.nextId = n.persister.nextId
  duties : m.persister.duties = n.persister.duties
  sent : m.sent = n.sent
  panicked : m.panicked = n.panicked

theorem Writes.refl : n.Writes n := ⟨rfl, rfl, rfl, rfl, rfl⟩

variable {n} in
theorem Writes.trans {m k : Node} (first : n.Writes m) (second : m.Writes k) : n.Writes k where
  raft := by rw [second.raft, first.raft]
  nextId := second.nextId.trans first.nextId
  duties := second.duties.trans first.duties
  sent := second.sent.trans first.sent
  panicked := second.panicked.trans first.panicked

theorem setLen_writes (file : FileId) (len batch : Nat) (op : OpId) :
    n.Writes ((n.setLen file len).noteWrite batch op) :=
  ⟨rfl, rfl, Persister.duties_noteWrite .., by simp [Node.sent, setLen, noteWrite], rfl⟩

theorem writeAt_writes (file : FileId) (offset : Nat) (bytes : Bytes) (batch : Nat) (op : OpId) :
    n.Writes ((n.writeAt file offset bytes).noteWrite batch op) :=
  ⟨rfl, rfl, Persister.duties_noteWrite .., by simp [Node.sent, writeAt, noteWrite], rfl⟩

theorem persistHard_toRaft (action : Persist) : (n.persistHard action).toRaft =
    { n.toRaft with
      stateSeq := n.stateSeq + 1
      persister := ((n.persister.start action).noteHardState (n.persister.nextId + 1)
        n.hardState).noteWrite (n.persister.nextId + 1) n.nextOp } := rfl

theorem persistHard_sent (action : Persist) : (n.persistHard action).sent = n.sent := by
  simp [persistHard, startBatch, writeHardState, writeAt, sent]

theorem persistHard_opens (ordered : n.persister.Ordered) (action : Persist) :
    n.persister.Opens .wal action (some n.hardState) (n.persistHard action).persister :=
  ((Persister.start_opens action).noteHardState ordered n.hardState).noteWrite _ _

theorem writeLogFrom_writes (batch start : Nat) (truncated : Bool) :
    n.Writes (n.writeLogFrom batch start truncated) := by
  have cut : n.Writes (if truncated then
      (n.setLen .wal (logRegion + n.log.byteOffsetOf start)).noteWrite batch n.nextOp else n) := by
    split
    · exact n.setLen_writes ..
    · exact Writes.refl n
  simp only [writeLogFrom]
  generalize (if truncated = true then
    (n.setLen .wal (logRegion + n.log.byteOffsetOf start)).noteWrite batch n.nextOp else n) = m at cut ⊢
  refine cut.trans ?_
  split
  · exact setLen_writes ..
  · exact writeAt_writes ..

theorem persistLogFrom_spec (start : Nat) (truncated : Bool) (replyTo : Option NodeId)
    (replyTerm verified : Nat) :
    ∃ p : Persister,
      (n.persistLogFrom start truncated replyTo replyTerm verified).toRaft =
        { n.toRaft with persister := p } ∧
      n.persister.Opens .wal (n.logAction start verified replyTo replyTerm) none p ∧
      (n.persistLogFrom start truncated replyTo replyTerm verified).sent = n.sent ∧
      (n.persistLogFrom start truncated replyTo replyTerm verified).panicked = n.panicked := by
  unfold persistLogFrom
  have writes := (n.startBatch (n.logAction start verified replyTo replyTerm)).writeLogFrom_writes
    (n.persister.nextId + 1) start truncated
  have opened := Persister.start_opens (p := n.persister) (n.logAction start verified replyTo replyTerm)
  refine ⟨_, writes.raft, ⟨writes.nextId.trans opened.1, writes.duties.trans opened.2⟩, ?_, ?_⟩
  · exact writes.sent
  · exact writes.panicked

theorem persistHardAndLog_spec (ordered : n.persister.Ordered) (start : Nat) (truncated : Bool)
    (replyTo : Option NodeId) (replyTerm verified : Nat) :
    ∃ p : Persister,
      (n.persistHardAndLog start truncated replyTo replyTerm verified).toRaft =
        { n.toRaft with stateSeq := n.stateSeq + 1, persister := p } ∧
      n.persister.Opens .wal (n.logAction start verified replyTo replyTerm) (some n.hardState) p ∧
      (n.persistHardAndLog start truncated replyTo replyTerm verified).sent = n.sent ∧
      (n.persistHardAndLog start truncated replyTo replyTerm verified).panicked = n.panicked := by
  have opened := n.persistHard_opens ordered (n.logAction start verified replyTo replyTerm)
  have writes := (n.persistHard (n.logAction start verified replyTo replyTerm)).writeLogFrom_writes
    (n.persister.nextId + 1) start truncated
  refine ⟨_, ?_, ⟨writes.nextId.trans opened.1, writes.duties.trans opened.2⟩, ?_, ?_⟩
  · exact writes.raft.trans (by rw [persistHard_toRaft])
  · exact writes.sent.trans (n.persistHard_sent _)
  · exact writes.panicked

theorem noteFile_sent (m : Node) (batch : Nat) (file : FileId) :
    { m with persister := m.persister.noteFile batch file }.sent = m.sent := rfl

theorem persistHardAndLog_toRaft (start : Nat) (truncated : Bool) (replyTo : Option NodeId)
    (replyTerm verified : Nat) : ∃ p : Persister,
    (n.persistHardAndLog start truncated replyTo replyTerm verified).toRaft =
      { n.toRaft with stateSeq := n.stateSeq + 1, persister := p } := by
  have writes := (n.persistHard (n.logAction start verified replyTo replyTerm)).writeLogFrom_writes
    (n.persister.nextId + 1) start truncated
  exact ⟨_, writes.raft.trans (by rw [persistHard_toRaft])⟩

theorem writeSnapshot_toRaft (file : FileId) (snap : Snapshot) (action : Persist) : ∃ p : Persister,
    (n.writeSnapshot file snap action).toRaft = { n.toRaft with persister := p } := by
  obtain ⟨m, whole, writes⟩ : ∃ m, n.writeSnapshot file snap action =
      { m with persister := m.persister.noteFile (n.persister.nextId + 1) file } ∧
      (n.startBatch action).Writes m :=
    ⟨_, rfl, (setLen_writes ..).trans (writeAt_writes ..)⟩
  rw [whole]
  exact ⟨_, congrArg (fun r : Raft =>
    { r with persister := m.persister.noteFile (n.persister.nextId + 1) file }) writes.raft⟩

theorem writeSnapshot_spec (ordered : n.persister.Ordered) (file : FileId) (snap : Snapshot)
    (action : Persist) :
    ∃ p : Persister, (n.writeSnapshot file snap action).toRaft = { n.toRaft with persister := p } ∧
      n.persister.Opens file action none p ∧
      (n.writeSnapshot file snap action).sent = n.sent ∧
      (n.writeSnapshot file snap action).panicked = n.panicked := by
  obtain ⟨m, whole, writes⟩ : ∃ m, n.writeSnapshot file snap action =
      { m with persister := m.persister.noteFile (n.persister.nextId + 1) file } ∧
      (n.startBatch action).Writes m :=
    ⟨_, rfl, (setLen_writes ..).trans (writeAt_writes ..)⟩
  have opened := Persister.start_opens (p := n.persister) action
  have opens : n.persister.Opens .wal action none m.persister :=
    ⟨writes.nextId.trans opened.1, writes.duties.trans opened.2⟩
  rw [whole]
  refine ⟨_, ?_, opens.noteFile ordered file, ?_, writes.panicked⟩
  · exact congrArg (fun r : Raft =>
      { r with persister := m.persister.noteFile (n.persister.nextId + 1) file }) writes.raft
  · exact (noteFile_sent _ _ _).trans writes.sent

theorem advanceLoop_bounds (cap fuel durable : Nat) (parked : List (Nat × Nat)) :
    durable ≤ (advanceLoop cap fuel durable parked).1 ∧
      (advanceLoop cap fuel durable parked).1 ≤ max durable cap := by
  induction fuel generalizing durable parked with
  | zero => simp [advanceLoop]
  | succ fuel ih =>
    simp only [advanceLoop]
    split
    · simp
    · split
      · simp
      · constructor
        · exact le_trans (by omega) (ih _ _).1
        · exact le_trans (ih _ _).2 (by omega)

theorem advanceDurable_spec : ∃ d parked,
    n.advanceDurable.toRaft = { n.toRaft with durableIndex := d, parked } ∧ n.durableIndex ≤ d ∧
      d ≤ max n.durableIndex (n.log.lastIndexWithTermAtMost n.durableTerm) := by
  have bounds := advanceLoop_bounds (n.log.lastIndexWithTermAtMost n.durableTerm)
    (n.parked.length + 2) n.durableIndex n.parked
  exact ⟨_, _, rfl, bounds.1, bounds.2⟩

@[simp] theorem advanceDurable_toIo : n.advanceDurable.toIo = n.toIo := rfl

theorem noteDurable_spec (hs : HardState) : ∃ d parked,
    (n.noteDurable (some hs)).toRaft =
      { n.toRaft with
        durableHardState := if n.durableHardState.seq ≤ hs.seq then hs else n.durableHardState
        durableTerm := max n.durableTerm hs.term
        durableIndex := d
        parked } ∧
    n.durableIndex ≤ d ∧
    d ≤ max n.durableIndex (n.log.lastIndexWithTermAtMost (max n.durableTerm hs.term)) := by
  by_cases later : n.durableHardState.seq ≤ hs.seq <;> by_cases newer : n.durableTerm < hs.term <;>
    simp only [noteDurable, later, newer, if_true, if_false]
  · rw [max_eq_right newer.le]
    exact advanceDurable_spec _
  · rw [max_eq_left (not_lt.mp newer)]
    exact ⟨_, _, rfl, le_refl _, le_max_left _ _⟩
  · rw [max_eq_right newer.le]
    exact advanceDurable_spec _
  · rw [max_eq_left (not_lt.mp newer)]
    exact ⟨_, _, rfl, le_refl _, le_max_left _ _⟩

@[simp] theorem noteDurable_toIo (hard : Option HardState) : (n.noteDurable hard).toIo = n.toIo := by
  cases hard with
  | none => rfl
  | some hs =>
    simp only [noteDurable]
    split <;> split <;> rfl

theorem noteDurable_persister (hard : Option HardState) :
    (n.noteDurable hard).persister = n.persister := by
  cases hard with
  | none => rfl
  | some hs =>
    obtain ⟨_, _, raft, _⟩ := n.noteDurable_spec hs
    rw [raft]

theorem claimRange_spec (start index : Nat) : ∃ d parked,
    (n.claimRange start index).toRaft = { n.toRaft with durableIndex := d, parked } ∧
      n.durableIndex ≤ d ∧
      d ≤ max n.durableIndex (n.log.lastIndexWithTermAtMost n.durableTerm) := by
  simp only [claimRange]
  split
  · exact advanceDurable_spec _
  · exact ⟨_, _, rfl, le_refl _, le_max_left _ _⟩

@[simp] theorem claimRange_toIo (start index : Nat) : (n.claimRange start index).toIo = n.toIo := by
  simp only [claimRange]
  split <;> rfl

end Node

structure Raft.Fixed (members : List NodeId) (r : Raft) : Prop where
  current : r.members = members
  initial : r.initialMembers = members
  snapshot : r.snapshotMembers = [] ∨ r.snapshotMembers = members
  entries : ∀ e ∈ r.log.entries, e.cmd.members = none

def FixedImage (members : List NodeId) (data : Bytes) : Prop :=
  ∀ image, decodeSnapshotPayload data = some image → image.1 = [] ∨ image.1 = members

theorem length_le_of_nodup {members : List NodeId} (nodup : members.Nodup) : members.length ≤ 2 ^ 32 := by
  have inj : (members.map UInt32.toNat).Nodup := nodup.map fun a b same => UInt32.toNat_inj.mp same
  have bound : ∀ m ∈ members.map UInt32.toNat, m < 2 ^ 32 := by
    intro m member
    obtain ⟨id, _, rfl⟩ := List.mem_map.mp member
    exact id.toNat_lt
  have sub : (members.map UInt32.toNat).toFinset ⊆ Finset.range (2 ^ 32) := by
    intro m member
    exact Finset.mem_range.mpr (bound m (List.mem_toFinset.mp member))
  have := Finset.card_le_card sub
  rw [List.toFinset_card_of_nodup inj, Finset.card_range, List.length_map] at this
  exact this

theorem member_encode (m : NodeId) (rest : Bytes) :
    (do return UInt32.ofNat (← Dec.u32) : Dec NodeId) (Enc.u32 m.toNat ++ rest) = .ok (m, rest) := by
  rw [Dec.run_bind_ok (Dec.u32_encode m.toNat_lt rest)]
  simp

-- Everything after the member count of a snapshot image.
theorem payloadTail_fst {members : List NodeId} {input rest : Bytes} {image : List NodeId × Bytes}
    {count : Nat}
    (read : Dec.many (do return UInt32.ofNat (← Dec.u32)) count input = .ok (members, rest))
    (got : ((do
      let members ← Dec.many (do return UInt32.ofNat (← Dec.u32)) count
      return (members, ← Dec.bytes) : Dec (List NodeId × Bytes)) input).toOption.map Prod.fst =
        some image) : image.1 = members := by
  rw [Dec.run_bind_ok read] at got
  cases tail : Dec.bytes rest with
  | error e =>
    have failed : (do return (members, ← Dec.bytes) : Dec (List NodeId × Bytes)) rest = .error e := by
      change (Dec.bytes rest >>= fun pair => _) = _
      rw [tail]
      rfl
    rw [failed] at got
    cases got
  | ok pair =>
    rw [Dec.run_bind_ok tail] at got
    cases got
    rfl

theorem fixedImage_encode {members : List NodeId} (nodup : members.Nodup) (app : Bytes) :
    FixedImage members (encodeSnapshotPayload members app) := by
  intro image decoded
  unfold decodeSnapshotPayload encodeSnapshotPayload at decoded
  dsimp only at decoded
  rw [Dec.run_bind_ok (Dec.u32_encode_mod _ _)] at decoded
  split at decoded
  · cases decoded
  · next small =>
    rcases (length_le_of_nodup nodup).lt_or_eq with fits | full
    · rw [Nat.mod_eq_of_lt fits] at decoded
      have read := Dec.many_encode members (fun m _ rest => member_encode m rest) (Enc.bytes app)
      exact .inr (payloadTail_fst read decoded)
    · rw [full, Nat.mod_self] at decoded
      exact .inl (payloadTail_fst rfl decoded)
theorem RaftLog.mem_of_mem_truncateFrom {log : RaftLog} {at_ : Nat} {e : Entry}
    (member : e ∈ (log.truncateFrom at_).entries) : e ∈ log.entries := by
  simp only [RaftLog.truncateFrom] at member
  split at member
  · exact List.mem_of_mem_take member
  · exact member

theorem RaftLog.mem_of_mem_appendAll {log : RaftLog} {entries : List Entry} {e : Entry}
    (member : e ∈ (log.appendAll entries).entries) : e ∈ log.entries ∨ e ∈ entries := by
  unfold RaftLog.appendAll at member
  induction entries generalizing log with
  | nil => exact .inl member
  | cons head rest ih =>
    rcases ih member with old | new
    · rcases List.mem_append.mp old with older | last
      · exact .inl older
      · exact .inr (List.mem_singleton.mp last ▸ List.mem_cons_self)
    · exact .inr (List.mem_cons_of_mem _ new)

theorem RaftLog.mem_of_mem_splice {log : RaftLog} {p k : Nat} {conflict : Bool} {es : List Entry} {e : Entry}
    (member : e ∈ (log.splice p es k conflict).entries) : e ∈ log.entries ∨ e ∈ es := by
  rcases mem_of_mem_appendAll member with old | new
  · split at old
    · exact .inl (mem_of_mem_truncateFrom old)
    · exact .inl old
  · exact .inr (List.mem_of_mem_drop new)

theorem RaftLog.mem_of_mem_compactTo {log : RaftLog} {index term : Nat} {e : Entry}
    (member : e ∈ (log.compactTo index term).entries) : e ∈ log.entries := by
  simp only [RaftLog.compactTo] at member
  split at member
  · exact member
  · exact List.mem_of_mem_drop member

theorem RaftLog.mem_of_mem_adopt {log : RaftLog} {index term : Nat} {e : Entry}
    (member : e ∈ (log.adopt index term).entries) : e ∈ log.entries := by
  unfold RaftLog.adopt at member
  split at member
  · exact mem_of_mem_compactTo member
  · cases member

theorem RaftLog.get_mem {log : RaftLog} {index : Nat} {e : Entry} (found : log.get index = some e) :
    e ∈ log.entries := by
  unfold RaftLog.get at found
  split at found
  · cases found
  · exact List.mem_of_getElem? found

namespace Raft

variable {members : List NodeId} {r : Raft}

theorem configScan_none {log : RaftLog} (fixed : ∀ e ∈ log.entries, e.cmd.members = none) (i : Nat) :
    configScan log i = none := by
  induction i with
  | zero => rfl
  | succ i ih =>
    simp only [configScan]
    split
    · rfl
    · split
      · next found =>
        obtain ⟨e, got, some⟩ := Option.bind_eq_some_iff.mp found
        rw [fixed e (RaftLog.get_mem got)] at some
        cases some
      · exact ih

theorem Fixed.base (fixed : r.Fixed members) : r.baseConfig = members := by
  unfold baseConfig
  split
  · exact fixed.initial
  · next differs => exact fixed.snapshot.resolve_left differs

theorem Fixed.configAt (fixed : r.Fixed members) (index : Nat) : r.configAt index = (members, 0) := by
  rw [Raft.configAt, configScan_none fixed.entries, Option.getD_none, fixed.base]

end Raft

namespace Node

variable (n : Node)

@[simp] theorem refreshConfig_toIo : n.refreshConfig.toIo = n.toIo := by
  simp only [refreshConfig]
  split <;> rfl

-- Recomputing the membership touches nothing but the membership and the peer maps.
theorem refreshConfig_toRaft : ∃ members configIndex nextIndex matchIndex,
    n.refreshConfig.toRaft = { n.toRaft with members, configIndex, nextIndex, matchIndex } := by
  simp only [refreshConfig]
  split
  · exact ⟨_, _, _, _, rfl⟩
  · exact ⟨_, _, n.nextIndex, n.matchIndex, rfl⟩

theorem configAt_lastIndex (r : Raft) :
    r.configAt r.log.lastIndex = Raft.configOver r.log r.initialMembers r.snapshotMembers := by
  rw [Raft.configAt, min_self]
  rfl

theorem refreshConfig_current : (n.refreshConfig.members, n.refreshConfig.configIndex) =
    Raft.configOver n.log n.initialMembers n.snapshotMembers := by
  rw [← configAt_lastIndex n.toRaft]
  simp only [refreshConfig]
  split <;> rfl

theorem refreshConfig_spec {members : List NodeId} (fixed : n.Fixed members) :
    ∃ nextIndex matchIndex,
      n.refreshConfig.toRaft = { n.toRaft with configIndex := 0, nextIndex, matchIndex } ∧
      (∀ p, (matchIndex p).getD noIndex ≤ (n.matchIndex p).getD noIndex) ∧
      n.refreshConfig.toIo = n.toIo := by
  have config := fixed.configAt n.log.lastIndex
  simp only [refreshConfig, config]
  rw [← fixed.current]
  split
  · refine ⟨_, _, rfl, ?_, rfl⟩
    intro p
    dsimp only [syncPeerMaps]
    split <;> simp [noIndex]
  · exact ⟨_, _, rfl, fun p => le_refl _, rfl⟩

theorem appendAll_spec {entries : List Entry} (sound : (n.appendAll entries).panicked = false) :
    n.appendAll entries = { n with log := n.log.appendAll entries } ∧ n.panicked = false ∧
      n.log.AppendsOk entries := by
  unfold appendAll at sound ⊢
  induction entries generalizing n with
  | nil => exact ⟨rfl, sound, trivial⟩
  | cons e rest ih =>
    rw [List.foldl_cons] at sound ⊢
    obtain ⟨rest, calm, follow⟩ := ih (n.appendEntry e) sound
    unfold appendEntry at rest calm follow
    split at calm
    · next ok =>
      rw [if_pos ok] at rest follow
      refine ⟨?_, calm, ok, follow⟩
      rw [appendEntry, if_pos ok]
      exact rest
    · cases calm

-- What a truncation changes, whatever the membership.
theorem truncate_toRaft (at_ : Nat) :
    ∃ members configIndex nextIndex matchIndex truncatedCommitted,
      (n.truncate at_).toRaft =
        { n.toRaft with
          log := n.log.truncateFrom at_
          durableIndex := min n.durableIndex (at_ - 1)
          persister := n.persister.clampAll (at_ - 1)
          parked := (n.parked.filter fun range => range.1 ≤ at_ - 1).map fun range =>
            (range.1, min range.2 (at_ - 1))
          members, configIndex, nextIndex, matchIndex, truncatedCommitted } := by
  obtain ⟨count, counted⟩ : ∃ count, (if at_ ≤ n.commitIndex then
      { n with truncatedCommitted := n.truncatedCommitted + 1 } else n) =
      { n with truncatedCommitted := count } := by
    split
    · exact ⟨_, rfl⟩
    · exact ⟨n.truncatedCommitted, rfl⟩
  obtain ⟨members, config, next, matched, raft⟩ :=
    { n with truncatedCommitted := count, log := n.log.truncateFrom at_ }.refreshConfig_toRaft
  simp only [truncate, counted]
  refine ⟨members, config, next, matched, count, ?_⟩
  exact congrArg (fun r : Raft =>
    { r with
      durableIndex := min r.durableIndex (at_ - 1)
      persister := r.persister.clampAll (at_ - 1)
      parked := (r.parked.filter fun range : Nat × Nat => range.1 ≤ at_ - 1).map
        fun range : Nat × Nat => (range.1, min range.2 (at_ - 1)) }) raft

theorem truncate_spec {members : List NodeId} (fixed : n.Fixed members) (at_ : Nat) :
    ∃ nextIndex matchIndex truncatedCommitted,
      (n.truncate at_).toRaft =
        { n.toRaft with
          log := n.log.truncateFrom at_
          durableIndex := min n.durableIndex (at_ - 1)
          persister := n.persister.clampAll (at_ - 1)
          parked := (n.parked.filter fun range => range.1 ≤ at_ - 1).map fun range =>
            (range.1, min range.2 (at_ - 1))
          configIndex := 0, nextIndex, matchIndex, truncatedCommitted } ∧
      (∀ p, (matchIndex p).getD noIndex ≤ (n.matchIndex p).getD noIndex) ∧
      (n.truncate at_).toIo = n.toIo := by
  obtain ⟨count, counted⟩ : ∃ count, (if at_ ≤ n.commitIndex then
      { n with truncatedCommitted := n.truncatedCommitted + 1 } else n) =
      { n with truncatedCommitted := count } := by
    split
    · exact ⟨_, rfl⟩
    · exact ⟨n.truncatedCommitted, rfl⟩
  have cut : { n with truncatedCommitted := count, log := n.log.truncateFrom at_ }.Fixed members :=
    ⟨fixed.current, fixed.initial, fixed.snapshot, fun e member =>
      fixed.entries e (RaftLog.mem_of_mem_truncateFrom member)⟩
  obtain ⟨next, matched, raft, lower, io⟩ := refreshConfig_spec _ cut
  simp only [truncate, counted]
  refine ⟨next, matched, count, ?_, lower, io⟩
  exact congrArg (fun r : Raft =>
    { r with
      durableIndex := min r.durableIndex (at_ - 1)
      persister := r.persister.clampAll (at_ - 1)
      parked := (r.parked.filter fun range : Nat × Nat => range.1 ≤ at_ - 1).map
        fun range : Nat × Nat => (range.1, min range.2 (at_ - 1)) }) raft

theorem truncate_toIo (at_ : Nat) : (n.truncate at_).toIo = n.toIo := by
  simp only [truncate, refreshConfig_toIo]
  split <;> rfl

-- What an accepted append message changes, whatever the membership.
theorem takeEntries_toRaft (prevIndex : Nat) (entries : List Entry) (i : Nat) (conflict : Bool)
    (sound : (n.takeEntries prevIndex entries i conflict).panicked = false) :
    ∃ parked members configIndex nextIndex matchIndex truncatedCommitted,
      (n.takeEntries prevIndex entries i conflict).toRaft =
        { n.toRaft with
          log := n.log.splice prevIndex entries i conflict
          durableIndex := if conflict then min n.durableIndex (prevIndex + i) else n.durableIndex
          persister := if conflict then n.persister.clampAll (prevIndex + i) else n.persister
          parked, members, configIndex, nextIndex, matchIndex, truncatedCommitted } ∧
      (n.takeEntries prevIndex entries i conflict).toIo = n.toIo := by
  have shape : ∀ m : Node, ∃ members configIndex nextIndex matchIndex,
      (if (entries.drop i).any fun e => e.cmd.members.isSome then m.refreshConfig else m).toRaft =
        { m.toRaft with members, configIndex, nextIndex, matchIndex } ∧
      (if (entries.drop i).any fun e => e.cmd.members.isSome then m.refreshConfig else m).toIo =
        m.toIo := by
    intro m
    split
    · obtain ⟨members, config, next, matched, raft⟩ := m.refreshConfig_toRaft
      exact ⟨members, config, next, matched, raft, m.refreshConfig_toIo⟩
    · exact ⟨m.members, m.configIndex, m.nextIndex, m.matchIndex, rfl, rfl⟩
  simp only [takeEntries] at sound ⊢
  obtain ⟨members, config, next, matched, raft, io⟩ :=
    shape ((if conflict then n.truncate (prevIndex + 1 + i) else n).appendAll (entries.drop i))
  rw [io] at sound ⊢
  rw [raft]
  obtain ⟨appended, _, _⟩ := appendAll_spec _ sound
  rw [appended]
  cases conflict with
  | false => exact ⟨n.parked, members, config, next, matched, n.truncatedCommitted, rfl, rfl⟩
  | true =>
    obtain ⟨_, _, _, _, count, cut⟩ := n.truncate_toRaft (prevIndex + 1 + i)
    have cap : prevIndex + 1 + i - 1 = prevIndex + i := by omega
    rw [cap] at cut
    have log : (n.truncate (prevIndex + 1 + i)).log = n.log.truncateFrom (prevIndex + 1 + i) := by rw [cut]
    simp only [if_true, log]
    refine ⟨(n.parked.filter fun range => range.1 ≤ prevIndex + i).map fun range =>
      (range.1, min range.2 (prevIndex + i)), members, config, next, matched, count, ?_,
      n.truncate_toIo _⟩
    exact congrArg (fun r : Raft => { r with
      log := n.log.splice prevIndex entries i true
      members, configIndex := config, nextIndex := next, matchIndex := matched }) cut

theorem truncate_current (at_ : Nat) : ((n.truncate at_).members, (n.truncate at_).configIndex) =
    Raft.configOver (n.log.truncateFrom at_) n.initialMembers n.snapshotMembers := by
  simp only [truncate]
  rw [refreshConfig_current]
  split <;> rfl

-- The membership is computed anew if the message brought one or took one away.
theorem takeEntries_current (prevIndex : Nat) (entries : List Entry) (i : Nat) (conflict : Bool)
    (sound : (n.takeEntries prevIndex entries i conflict).panicked = false) :
    ((n.takeEntries prevIndex entries i conflict).members,
        (n.takeEntries prevIndex entries i conflict).configIndex) =
      if (entries.drop i).any fun e => e.cmd.members.isSome then
        Raft.configOver (n.log.splice prevIndex entries i conflict) n.initialMembers n.snapshotMembers
      else if conflict then
        Raft.configOver (n.log.truncateFrom (prevIndex + 1 + i)) n.initialMembers n.snapshotMembers
      else (n.members, n.configIndex) := by
  obtain ⟨_, _, _, _, _, _, whole, _⟩ := n.takeEntries_toRaft prevIndex entries i conflict sound
  have current := ((if conflict then n.truncate (prevIndex + 1 + i) else n).appendAll
    (entries.drop i)).refreshConfig_current
  have cut := n.truncate_current (prevIndex + 1 + i)
  simp only [takeEntries] at sound whole ⊢
  split
  · next brought =>
    rw [if_pos brought] at sound whole
    rw [current]
    obtain ⟨_, _, _, _, kept⟩ := ((if conflict then n.truncate (prevIndex + 1 + i) else n).appendAll
      (entries.drop i)).refreshConfig_toRaft
    rw [kept] at whole
    have log := congrArg Raft.log whole
    have initial := congrArg Raft.initialMembers whole
    have base := congrArg Raft.snapshotMembers whole
    simp only at log initial base
    rw [log, initial, base]
  · next brought =>
    rw [if_neg brought] at sound whole
    obtain ⟨appended, _, _⟩ := appendAll_spec _ sound
    rw [appended]
    cases conflict with
    | false => rfl
    | true => exact cut

-- The fields an accepted append message changes, besides the log and the claims on it.
theorem takeEntries_spec {members : List NodeId} (fixed : n.Fixed members) {entries : List Entry}
    (plain : ∀ e ∈ entries, e.cmd.members = none) (prevIndex i : Nat) (conflict : Bool)
    (sound : (n.takeEntries prevIndex entries i conflict).panicked = false) :
    ∃ parked configIndex nextIndex matchIndex truncatedCommitted,
      (n.takeEntries prevIndex entries i conflict).toRaft =
        { n.toRaft with
          log := n.log.splice prevIndex entries i conflict
          durableIndex := if conflict then min n.durableIndex (prevIndex + i) else n.durableIndex
          persister := if conflict then n.persister.clampAll (prevIndex + i) else n.persister
          parked, configIndex, nextIndex, matchIndex, truncatedCommitted } ∧
      (∀ p, (matchIndex p).getD noIndex ≤ (n.matchIndex p).getD noIndex) ∧
      (n.takeEntries prevIndex entries i conflict).toIo = n.toIo ∧
      (if conflict then n.log.truncateFrom (prevIndex + 1 + i) else n.log).AppendsOk (entries.drop i) := by
  have quiet : ((entries.drop i).any fun e => e.cmd.members.isSome) = false := by
    rw [List.any_eq_false]
    intro e member
    simp [plain e (List.mem_of_mem_drop member)]
  have short : n.takeEntries prevIndex entries i conflict =
      (if conflict then n.truncate (prevIndex + 1 + i) else n).appendAll (entries.drop i) := by
    simp only [takeEntries]
    rw [if_neg (by simp only [quiet, Bool.false_eq_true, not_false_eq_true])]
  rw [short] at sound ⊢
  obtain ⟨appended, calm, follow⟩ := appendAll_spec _ sound
  rw [appended]
  cases conflict with
  | false =>
    exact ⟨n.parked, n.configIndex, n.nextIndex, n.matchIndex, n.truncatedCommitted, rfl,
      fun _ => le_refl _, rfl, follow⟩
  | true =>
    obtain ⟨next, matched, count, raft, lower, io⟩ := n.truncate_spec fixed (prevIndex + 1 + i)
    have log : (n.truncate (prevIndex + 1 + i)).log = n.log.truncateFrom (prevIndex + 1 + i) := by
      rw [raft]
    have cap : prevIndex + 1 + i - 1 = prevIndex + i := by omega
    rw [cap] at raft
    simp only [if_true, log] at follow ⊢
    refine ⟨(n.parked.filter fun range => range.1 ≤ prevIndex + i).map fun range =>
      (range.1, min range.2 (prevIndex + i)), 0, next, matched, count, ?_, lower, io, follow⟩
    exact congrArg (fun r : Raft => { r with log := n.log.splice prevIndex entries i true }) raft

theorem snapshotTaken_spec {members : List NodeId} (fixed : n.Fixed members) (index term : Nat)
    (file : FileId) :
    ∃ configIndex nextIndex matchIndex,
      (n.snapshotTaken index term file).toRaft =
        { n.toRaft with
          snapshotInFlight := false
          durableSnapshotFile := some file
          snapshotMembers := members
          log := n.log.compactTo index term
          configIndex, nextIndex, matchIndex } ∧
      (∀ p, (matchIndex p).getD noIndex ≤ (n.matchIndex p).getD noIndex) ∧
      (n.snapshotTaken index term file).toIo = n.toIo := by
  have compacted : { n with
      snapshotInFlight := false
      durableSnapshotFile := some file
      snapshotMembers := members
      log := n.log.compactTo index term }.Fixed members :=
    ⟨fixed.current, fixed.initial, .inr rfl, fun e member =>
      fixed.entries e (RaftLog.mem_of_mem_compactTo member)⟩
  obtain ⟨next, matched, raft, lower, io⟩ := refreshConfig_spec _ compacted
  simp only [snapshotTaken, fixed.configAt]
  exact ⟨0, next, matched, raft, lower, io⟩

theorem adoptLog_spec (index term : Nat) : ∃ parked,
    (n.adoptLog index term).toRaft = { n.toRaft with log := n.log.adopt index term, parked } ∧
    (n.adoptLog index term).sent = n.sent ∧ (n.adoptLog index term).panicked = n.panicked := by
  unfold adoptLog RaftLog.adopt
  split
  · exact ⟨_, rfl, rfl, rfl⟩
  · exact ⟨_, rfl, by simp [replaceLog, sent, setLen, sync], rfl⟩

theorem setSnapshotMembers_spec {members named : List NodeId} (fixed : n.Fixed members)
    (known : named = [] ∨ named = members) : ∃ nextIndex matchIndex,
    (n.setSnapshotMembers named).toRaft =
      { n.toRaft with snapshotMembers := named, configIndex := 0, nextIndex, matchIndex } ∧
    (∀ p, (matchIndex p).getD noIndex ≤ (n.matchIndex p).getD noIndex) ∧
    (n.setSnapshotMembers named).toIo = n.toIo :=
  refreshConfig_spec { n with snapshotMembers := named }
    ⟨fixed.current, fixed.initial, known, fixed.entries⟩

theorem claimThrough_spec (index : Nat) : ∃ d parked,
    (n.claimThrough index).toRaft = { n.toRaft with durableIndex := d, parked } ∧
      min (max n.durableIndex index) n.log.lastIndex ≤ d := by
  obtain ⟨d, parked, raft, lower, _⟩ := advanceDurable_spec
    { n with durableIndex := min (max n.durableIndex index) n.log.lastIndex }
  exact ⟨d, parked, raft, lower⟩

theorem applyThrough_toRaft (index : Nat) : (n.applyThrough index).toRaft =
    { n.toRaft with
      commitIndex := max n.commitIndex index
      lastApplied := max n.lastApplied index } := by
  have applied : (if n.lastApplied < index then index else n.lastApplied) = max n.lastApplied index := by
    split <;> omega
  rw [← applied]
  rfl

theorem adoptSnapshot_spec {members : List NodeId} (fixed : n.Fixed members) (index term : Nat)
    {data : Bytes} (image : FixedImage members data) :
    ∃ pendingRestore parked snapshotMembers configIndex nextIndex matchIndex durableIndex,
      (n.adoptSnapshot index term data).toRaft =
        { n.toRaft with
          snapshotData := data
          log := n.log.adopt index term
          commitIndex := max n.commitIndex index
          lastApplied := max n.lastApplied index
          pendingRestore, parked, snapshotMembers, configIndex, nextIndex, matchIndex, durableIndex } ∧
      (snapshotMembers = [] ∨ snapshotMembers = members) ∧
      (∀ p, (matchIndex p).getD noIndex ≤ (n.matchIndex p).getD noIndex) ∧
      min (max n.durableIndex index) (n.log.adopt index term).lastIndex ≤ durableIndex ∧
      (n.adoptSnapshot index term data).sent = n.sent ∧
      (n.adoptSnapshot index term data).panicked = n.panicked := by
  have named : ((decodeSnapshotPayload data).getD (n.baseConfig, [])).1 = [] ∨
      ((decodeSnapshotPayload data).getD (n.baseConfig, [])).1 = members := by
    cases decoded : decodeSnapshotPayload data with
    | none => exact .inr fixed.base
    | some pair => exact image pair decoded
  simp only [adoptSnapshot]
  generalize (decodeSnapshotPayload data).getD (n.baseConfig, []) = pair at named ⊢
  obtain ⟨parked, log, logSent, logCalm⟩ :=
    (n.stageImage index data pair.2).adoptLog_spec index term
  generalize (n.stageImage index data pair.2).adoptLog index term = m at log logSent logCalm ⊢
  have kept : m.Fixed members := by
    rw [log]
    exact ⟨fixed.current, fixed.initial, fixed.snapshot, fun e member =>
      fixed.entries e (RaftLog.mem_of_mem_adopt member)⟩
  obtain ⟨next, matched, membership, lower, io⟩ := m.setSnapshotMembers_spec kept named
  generalize m.setSnapshotMembers pair.1 = k at membership io ⊢
  obtain ⟨durable, claimed, claim, least⟩ := k.claimThrough_spec index
  have calm : (k.claimThrough index).toIo = m.toIo := io
  generalize k.claimThrough index = l at claim calm ⊢
  refine ⟨(n.stageImage index data pair.2).pendingRestore, claimed, pair.1, 0, next, matched, durable,
    ?_, named, ?_, ?_, ?_, ?_⟩
  · rw [applyThrough_toRaft, claim, membership, log]
    rfl
  · rw [log] at lower
    exact lower
  · rw [membership, log] at least
    exact least
  · exact (congrArg (fun io : Io => ({ l with toIo := io } : Node).sent) calm).trans logSent
  · exact (congrArg Io.panicked calm).trans logCalm

-- The same for any membership.
theorem adoptSnapshot_becomes (index term : Nat) (data : Bytes) :
    ∃ parked members snapshotMembers configIndex nextIndex matchIndex durableIndex,
      (n.adoptSnapshot index term data).toRaft =
        { n.toRaft with
          snapshotData := data
          log := n.log.adopt index term
          commitIndex := max n.commitIndex index
          lastApplied := max n.lastApplied index
          pendingRestore := if n.lastApplied < index then
            some ((decodeSnapshotPayload data).getD (n.baseConfig, [])).2 else n.pendingRestore
          parked, members, snapshotMembers, configIndex, nextIndex, matchIndex, durableIndex } ∧
      min (max n.durableIndex index) (n.log.adopt index term).lastIndex ≤ durableIndex := by
  simp only [adoptSnapshot]
  generalize (decodeSnapshotPayload data).getD (n.baseConfig, []) = pair
  obtain ⟨parked, log, _, _⟩ := (n.stageImage index data pair.2).adoptLog_spec index term
  generalize (n.stageImage index data pair.2).adoptLog index term = m at log ⊢
  obtain ⟨members, config, next, matched, membership⟩ :=
    { m with snapshotMembers := pair.1 }.refreshConfig_toRaft
  have named : (m.setSnapshotMembers pair.1).toRaft = _ := membership
  generalize m.setSnapshotMembers pair.1 = k at named ⊢
  obtain ⟨durable, claimed, claim, least⟩ := k.claimThrough_spec index
  generalize k.claimThrough index = l at claim ⊢
  refine ⟨claimed, members, pair.1, config, next, matched, durable, ?_, ?_⟩
  · rw [applyThrough_toRaft, claim, named, log]
    rfl
  · rw [named, log] at least
    exact least

-- With a snapshot comes the membership it carries.
theorem adoptSnapshot_current (index term : Nat) (data : Bytes) :
    (n.adoptSnapshot index term data).snapshotMembers =
        ((decodeSnapshotPayload data).getD (n.baseConfig, [])).1 ∧
      ((n.adoptSnapshot index term data).members, (n.adoptSnapshot index term data).configIndex) =
        Raft.configOver (n.log.adopt index term) n.initialMembers
          (n.adoptSnapshot index term data).snapshotMembers := by
  simp only [adoptSnapshot]
  generalize (decodeSnapshotPayload data).getD (n.baseConfig, []) = pair
  obtain ⟨parked, log, _, _⟩ := (n.stageImage index data pair.2).adoptLog_spec index term
  generalize (n.stageImage index data pair.2).adoptLog index term = m at log ⊢
  have current := { m with snapshotMembers := pair.1 }.refreshConfig_current
  obtain ⟨_, _, _, _, membership⟩ := { m with snapshotMembers := pair.1 }.refreshConfig_toRaft
  have same : (m.setSnapshotMembers pair.1).snapshotMembers = pair.1 := by
    rw [setSnapshotMembers, membership]
  have now : ((m.setSnapshotMembers pair.1).members, (m.setSnapshotMembers pair.1).configIndex) =
      Raft.configOver (n.log.adopt index term) n.initialMembers pair.1 := by
    rw [setSnapshotMembers, current, log]
    rfl
  generalize m.setSnapshotMembers pair.1 = k at same now ⊢
  obtain ⟨_, _, claim, _⟩ := k.claimThrough_spec index
  generalize k.claimThrough index = l at claim ⊢
  rw [applyThrough_toRaft, claim, same]
  exact ⟨rfl, now⟩

theorem adoptSnapshot_toRaft (index term : Nat) (data : Bytes) :
    ∃ pendingRestore parked members snapshotMembers configIndex nextIndex matchIndex durableIndex,
      (n.adoptSnapshot index term data).toRaft =
        { n.toRaft with
          snapshotData := data
          log := n.log.adopt index term
          commitIndex := max n.commitIndex index
          lastApplied := max n.lastApplied index
          pendingRestore, parked, members, snapshotMembers, configIndex, nextIndex, matchIndex
          durableIndex } := by
  obtain ⟨_, _, _, _, _, _, _, raft, _⟩ := n.adoptSnapshot_becomes index term data
  exact ⟨_, _, _, _, _, _, _, _, raft⟩

theorem takeSnapshot_spec (ordered : n.persister.Ordered) (data : Bytes) {term : Nat}
    (wanted : n.wantsSnapshot) (known : n.log.termAt n.lastApplied = some term) :
    ∃ p : Persister,
      (n.takeSnapshot data).toRaft =
        { n.toRaft with
          snapshotSeq := n.snapshotSeq + 1
          highestSnapshot := max n.highestSnapshot n.lastApplied
          snapshotInFlight := true
          snapshotData := encodeSnapshotPayload (n.configAt n.lastApplied).1 data
          persister := p } ∧
      n.persister.Opens n.nextSnapshotFile (.snapshotTaken n.lastApplied term n.nextSnapshotFile) none p ∧
      (n.takeSnapshot data).sent = n.sent ∧ (n.takeSnapshot data).panicked = n.panicked := by
  simp only [takeSnapshot, wanted, not_true_eq_false, if_false, known]
  exact writeSnapshot_spec { n.claimSnapshot n.lastApplied with
    snapshotData := encodeSnapshotPayload (n.configAt n.lastApplied).1 data } ordered ..

theorem receiveSnapshot_spec (ordered : n.persister.Ordered) (index : Nat) (file : FileId)
    (snap : Snapshot) (action : Persist) :
    ∃ p : Persister,
      ((n.claimSnapshot index).writeSnapshot file snap action).toRaft =
        { n.toRaft with
          snapshotSeq := n.snapshotSeq + 1
          highestSnapshot := max n.highestSnapshot index
          snapshotInFlight := true
          persister := p } ∧
      n.persister.Opens file action none p ∧
      ((n.claimSnapshot index).writeSnapshot file snap action).sent = n.sent ∧
      ((n.claimSnapshot index).writeSnapshot file snap action).panicked = n.panicked :=
  writeSnapshot_spec (n.claimSnapshot index) ordered file snap action

theorem followCommit_spec (leaderCommit lastNew : Nat) : ∃ commitIndex,
    n.followCommit leaderCommit lastNew = { n with commitIndex } ∧ n.commitIndex ≤ commitIndex ∧
      commitIndex ≤ max n.commitIndex (min (min leaderCommit lastNew) n.log.lastIndex) := by
  simp only [followCommit]
  split
  · exact ⟨_, rfl, by omega, le_max_right _ _⟩
  · exact ⟨n.commitIndex, rfl, le_refl _, le_max_left _ _⟩

theorem le_takeAppliedGo (log : RaftLog) (fuel applied : Nat) : applied ≤ (takeAppliedGo log fuel applied).2 := by
  induction fuel generalizing applied with
  | zero => exact le_rfl
  | succ fuel ih =>
    rw [takeAppliedGo]
    split
    · exact (Nat.le_succ applied).trans (ih (applied + 1))
    · exact le_rfl

theorem takeAppliedGo_le (log : RaftLog) (fuel applied : Nat) :
    (takeAppliedGo log fuel applied).2 ≤ applied + fuel := by
  induction fuel generalizing applied with
  | zero => exact le_rfl
  | succ fuel ih =>
    simp only [takeAppliedGo]
    split
    · exact (ih (applied + 1)).trans (by omega)
    · exact Nat.le_add_right _ _

theorem takeApplied_bounds : n.lastApplied ≤ n.takeApplied.2.lastApplied ∧
    n.takeApplied.2.lastApplied ≤ max n.commitIndex (max n.lastApplied n.log.snapshotIndex) := by
  have lower := le_takeAppliedGo n.log (n.commitIndex - max n.lastApplied n.log.snapshotIndex)
    (max n.lastApplied n.log.snapshotIndex)
  have upper := takeAppliedGo_le n.log (n.commitIndex - max n.lastApplied n.log.snapshotIndex)
    (max n.lastApplied n.log.snapshotIndex)
  change n.lastApplied ≤ (takeAppliedGo n.log _ _).2 ∧ (takeAppliedGo n.log _ _).2 ≤ _
  omega

end Node

end SimKv
