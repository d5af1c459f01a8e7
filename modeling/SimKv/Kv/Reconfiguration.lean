import Mathlib.Data.Finset.SymmDiff
import Mathlib.Data.List.Chain
import SimKv.Acknowledgement
import SimKv.Kv.Cluster
import SimKv.Kv.Membership
import SimKv.Lib.Ballot
import SimKv.Lib.Lineage

set_option autoImplicit false

/-!
# One server at a time

A leader may add or remove one server, and only when nothing else is under way. Whether that makes every two
memberships that follow each other in a log one server apart is a question about all logs of the cluster: a leader
goes by the membership its log begins with, and that comes out of a snapshot.
-/

namespace SimKv

open Lineage

def quorumOf (members : List NodeId) : Nat := members.length / 2 + 1

/-- The memberships differ by one server, and a quorum of one meets every quorum of the other. -/
structure Overlapping (old new : List NodeId) : Prop where
  one : (symmDiff old.toFinset new.toFinset).card = 1
  quorums : ∀ votes ⊆ old.toFinset, ∀ votes' ⊆ new.toFinset,
    quorumOf old ≤ votes.card → quorumOf new ≤ votes'.card → (votes ∩ votes').Nonempty

theorem majority_of_quorumOf {members : List NodeId} {votes : Finset NodeId} (sub : votes ⊆ members.toFinset)
    (enough : quorumOf members ≤ votes.card) : Ballot.Majority members.toFinset votes := by
  have size := members.toFinset_card_le
  rw [Ballot.Majority, Finset.inter_eq_left.mpr sub]
  rw [quorumOf] at enough
  omega

theorem Overlapping.of_one {old new : List NodeId} (one : (symmDiff old.toFinset new.toFinset).card = 1) :
    Overlapping old new := by
  refine ⟨one, fun votes sub votes' sub' enough enough' => ?_⟩
  obtain ⟨v, left, right⟩ :=
    Ballot.Majority.meet_near one.le (majority_of_quorumOf sub enough) (majority_of_quorumOf sub' enough')
  exact ⟨v, Finset.mem_inter.mpr ⟨(Finset.mem_inter.mp left).1, (Finset.mem_inter.mp right).1⟩⟩

-- What the source counts as one change.
theorem Overlapping.of_count {old new : List NodeId}
    (one : (new.filter fun m => m ∉ old).length + (old.filter fun m => m ∉ new).length = 1) : Overlapping old new := by
  apply of_one
  have added : (new.toFinset \ old.toFinset).card ≤ (new.filter fun m => m ∉ old).length := by
    refine le_trans (Finset.card_le_card fun m member => ?_) (List.toFinset_card_le _)
    simpa using member
  have removed : (old.toFinset \ new.toFinset).card ≤ (old.filter fun m => m ∉ new).length := by
    refine le_trans (Finset.card_le_card fun m member => ?_) (List.toFinset_card_le _)
    simpa using member
  have size : (symmDiff old.toFinset new.toFinset).card =
      (old.toFinset \ new.toFinset).card + (new.toFinset \ old.toFinset).card := by
    rw [symmDiff_def, Finset.sup_eq_union, Finset.card_union_of_disjoint disjoint_sdiff_sdiff]
  have some_ : 0 < (symmDiff old.toFinset new.toFinset).card := by
    rw [Finset.card_pos]
    obtain one | one : 0 < (new.filter fun m => m ∉ old).length ∨ 0 < (old.filter fun m => m ∉ new).length := by omega
    all_goals
      obtain ⟨m, member⟩ := List.exists_mem_of_length_pos one
      refine ⟨m, ?_⟩
      simp only [List.mem_filter, decide_eq_true_eq] at member
      simp [Finset.mem_symmDiff, member.1, member.2]
  omega

structure Change (old new : List NodeId) : Prop extends Overlapping old new where
  some_ : new ≠ []

def enact (members : List NodeId) (e : Option Entry) : List NodeId :=
  (e.bind fun e => e.cmd.members).getD members

def Steps (members : List NodeId) (e : Option Entry) : Prop :=
  ∀ new, (e.bind fun e => e.cmd.members) = some new → Change members new

namespace Chart

variable {chart chart' : Chart}

def window (chart : Chart) : Window (Option Entry) (Option Nat) (List NodeId) where
  base := chart.log.snapshotIndex
  last := chart.log.lastIndex
  item := chart.log.get
  tag := chart.log.termAt
  value := chart.configAt

theorem configAt_le {i : Nat} (below : i ≤ chart.log.snapshotIndex) : chart.configAt i = chart.base := by
  cases i with
  | zero => rfl
  | succ i =>
    rw [configAt, Raft.configScan, if_pos (show i + 1 < chart.log.firstIndex from Nat.lt_succ_of_le below)]
    rfl

theorem configAt_succ {i : Nat} (above : chart.log.snapshotIndex ≤ i) :
    chart.configAt (i + 1) = enact (chart.configAt i) (chart.log.get (i + 1)) := by
  rw [configAt, Raft.configScan, if_neg (by rw [RaftLog.firstIndex]; omega), enact]
  cases (chart.log.get (i + 1)).bind fun e => e.cmd.members <;> rfl

theorem window_folds (chart : Chart) : chart.window.Folds enact := fun _ covers _ => configAt_succ covers.1

theorem window_holds (contiguous : chart.log.Contiguous) {i : Nat} (holds : chart.window.Holds i) :
    ∃ e ∈ chart.log.entries, e.index = i ∧ chart.log.get i = some e :=
  contiguous.exists_get holds.1 holds.2

theorem termAt_of_get {log : RaftLog} {e : Entry} {i : Nat} (found : log.get i = some e) : log.termAt i = some e.term := by
  have inside : ¬ (i < log.firstIndex ∨ log.lastIndex < i) := by
    intro outside
    rw [RaftLog.get, if_pos outside] at found
    cases found
  rw [RaftLog.firstIndex] at inside
  rw [RaftLog.termAt, noIndex, if_neg (by omega), if_neg (by omega), found]
  rfl

theorem window_covers (contiguous : chart.log.Contiguous) {i : Nat} (covers : chart.window.Covers i) :
    ∃ term, chart.log.termAt i = some term := by
  obtain base | above := Nat.eq_or_lt_of_le covers.1
  · rw [RaftLog.termAt]
    split
    · exact ⟨_, rfl⟩
    · exact ⟨_, if_pos base.symm⟩
  · obtain ⟨e, -, -, found⟩ := window_holds contiguous ⟨above, covers.2⟩
    exact ⟨e.term, termAt_of_get found⟩

theorem window_matches (contiguous : chart.log.Contiguous) (contiguous' : chart'.log.Contiguous)
    (matches_ : chart.log.Matches chart'.log) : chart.window.Matches chart'.window := by
  intro i covers covers' tag j below
  obtain ⟨term, here⟩ := window_covers contiguous covers
  have agree := matches_ i term here (tag.symm.trans here) j below
  constructor
  · intro shows shows'
    obtain ⟨t, known⟩ := window_covers contiguous shows
    obtain ⟨t', known'⟩ := window_covers contiguous' shows'
    change chart.log.termAt j = chart'.log.termAt j
    rw [known, known', agree.1 t known t' known']
  · intro holds holds'
    obtain ⟨e, -, -, known⟩ := window_holds contiguous holds
    obtain ⟨e', -, -, known'⟩ := window_holds contiguous' holds'
    change chart.log.get j = chart'.log.get j
    rw [known, known', agree.2 e known e' known']

-- The memberships of a list of entries, one after another, if each changes the one before.
theorem chain_of_changes {base : List NodeId} {entries : List Entry}
    (each : ∀ k e new, entries[k]? = some e → e.cmd.members = some new →
      Change (((latestMembers (entries.take k)).map Prod.fst).getD base) new) :
    (base :: entries.filterMap fun e => e.cmd.members).IsChain Overlapping ∧
      (base :: entries.filterMap fun e => e.cmd.members).getLast? =
        some (((latestMembers entries).map Prod.fst).getD base) := by
  induction entries using List.reverseRecOn with
  | nil => exact ⟨.singleton _, rfl⟩
  | append_singleton entries e ih =>
    obtain ⟨chain, last⟩ := ih fun k e' new found changes => by
      have inside := (List.getElem?_eq_some_iff.mp found).1
      have step := each k e' new (by rw [List.getElem?_append_left inside, found]) changes
      rwa [List.take_append_of_le_length inside.le] at step
    have newest := each entries.length e
    rw [List.take_left] at newest
    rw [latestMembers_append, List.filterMap_append]
    cases changes : e.cmd.members with
    | none =>
      simp only [latestMembers, List.reverse_singleton, List.findSome?_singleton, changes, Option.map_none,
        Option.none_or, List.filterMap_cons_none, List.filterMap_nil, List.append_nil]
      exact ⟨chain, last⟩
    | some new =>
      have change := newest new (by simp) changes
      have alone : [e].filterMap (fun e => e.cmd.members) = [new] := List.filterMap_cons_some changes
      simp only [latestMembers, List.reverse_singleton, List.findSome?_singleton, changes, Option.map_some,
        Option.some_or, Option.getD_some]
      rw [alone, ← List.cons_append, List.isChain_append, List.getLast?_concat]
      refine ⟨⟨chain, .singleton _, fun old isLast new' isNew => ?_⟩, rfl⟩
      rw [last] at isLast
      obtain rfl := Option.some.inj isLast
      obtain rfl := Option.some.inj isNew
      exact change.toOverlapping

-- A log without gaps whose memberships each change the one before shows memberships that overlap.
theorem configs_chain {chart : Chart} (contiguous : chart.log.Contiguous)
    (each : ∀ i, chart.window.Holds (i + 1) → Steps (chart.configAt i) (chart.log.get (i + 1))) :
    chart.configs.IsChain Overlapping := by
  refine (chain_of_changes fun k e new found changes => ?_).1
  have inside := (List.getElem?_eq_some_iff.mp found).1
  have size := contiguous.lastIndex_eq
  have got : chart.log.get (chart.log.snapshotIndex + k + 1) = some e := by
    rw [contiguous.get_eq (by omega), ← found, RaftLog.firstIndex]
    congr 1
    omega
  have holds : chart.window.Holds (chart.log.snapshotIndex + k + 1) := by
    refine ⟨?_, ?_⟩
    · change chart.log.snapshotIndex < _
      omega
    · change _ ≤ chart.log.lastIndex
      omega
  have step := each _ holds new (by rw [got]; exact changes)
  rwa [configAt, contiguous.configScan_eq k inside.le] at step

end Chart

def windows (charts : List Chart) : Set (Window (Option Entry) (Option Nat) (List NodeId)) :=
  {w | ∃ chart ∈ charts, chart.window = w}

theorem windows_concat (charts : List Chart) (chart : Chart) :
    windows (charts ++ [chart]) = insert chart.window (windows charts) := by
  ext w
  simp only [windows, List.mem_append, List.mem_singleton, Set.mem_ofPred_eq, Set.mem_insert_iff]
  constructor
  · rintro ⟨other, known | rfl, rfl⟩
    · exact .inr ⟨other, known, rfl⟩
    · exact .inl rfl
  · rintro (rfl | ⟨other, known, rfl⟩)
    · exact ⟨chart, .inr rfl, rfl⟩
    · exact ⟨other, .inl known, rfl⟩

/-- What holds of all logs: where one has a term, the membership in force there is the same in all of them, and
every membership an entry sets is a change. -/
structure Consistent (initial : List NodeId) (charts : List Chart) : Prop where
  contiguous : ∀ chart ∈ charts, chart.log.Contiguous
  uniform : Uniform (windows charts)
  grounded : Grounded (windows charts)
  stepwise : Stepwise (windows charts) Steps
  populated : ∀ chart ∈ charts, chart.base = [] → initial = []

def Chart.Begins (charts : List Chart) (chart : Chart) : Prop :=
  ∃ known ∈ charts, ∃ term, known.Shows chart.log.snapshotIndex term ∧
    chart.log.termAt chart.log.snapshotIndex = some term ∧ known.configAt chart.log.snapshotIndex = chart.base

structure Chart.Traced (initial : List NodeId) (charts : List Chart) (chart : Chart) : Prop where
  contiguous : chart.log.Contiguous
  begins : chart.Begins charts
  populated : chart.base = [] → initial = []
  entries : ∀ e ∈ chart.log.entries,
    (∃ known ∈ charts, e ∈ known.log.entries) ∨ Steps (chart.configAt (e.index - 1)) (some e)

theorem Chart.Begins.mono {charts more : List Chart} {chart : Chart} (begins : chart.Begins charts)
    (sub : charts ⊆ more) : chart.Begins more := by
  obtain ⟨known, member, begins⟩ := begins
  exact ⟨known, sub member, begins⟩

theorem Chart.Traced.mono {initial : List NodeId} {charts more : List Chart} {chart : Chart}
    (traced : chart.Traced initial charts) (sub : charts ⊆ more) : chart.Traced initial more where
  contiguous := traced.contiguous
  begins := traced.begins.mono sub
  populated := traced.populated
  entries e member := (traced.entries e member).imp_left fun known => by
    obtain ⟨other, here, held⟩ := known
    exact ⟨other, sub here, held⟩

theorem mem_windows {charts : List Chart} {chart : Chart} (member : chart ∈ charts) : chart.window ∈ windows charts :=
  ⟨chart, member, rfl⟩

theorem RaftLog.Contiguous.termAt_le {log : RaftLog} (contiguous : log.Contiguous) {i term : Nat}
    (here : log.termAt i = some term) : i ≤ log.lastIndex := by
  have bound := RaftLog.termAt_le here
  have size := contiguous.lastIndex_eq
  omega

theorem Chart.Begins.rooted {initial : List NodeId} {charts : List Chart} {chart : Chart}
    (consistent : Consistent initial charts) (begins : chart.Begins charts) : Rooted (windows charts) chart.window := by
  obtain ⟨known, member, term, ⟨above, here⟩, tag, value⟩ := begins
  refine ⟨known.window, mem_windows member, ⟨above, ?_⟩, here.trans tag.symm, value.trans (Chart.configAt_le le_rfl).symm⟩
  exact (consistent.contiguous known member).termAt_le here

namespace Consistent

variable {initial : List NodeId} {charts : List Chart} {chart : Chart}

theorem folds : ∀ w ∈ windows charts, w.Folds enact := by
  rintro _ ⟨known, -, rfl⟩
  exact known.window_folds

theorem extend (consistent : Consistent initial charts) (traced : chart.Traced initial charts)
    (match_ : ∀ known ∈ charts, chart.log.Matches known.log) : Consistent initial (charts ++ [chart]) := by
  have rooted := traced.begins.rooted consistent
  have windows_match : ∀ w ∈ windows charts, chart.window.Matches w := by
    rintro _ ⟨known, member, rfl⟩
    exact Chart.window_matches traced.contiguous (consistent.contiguous known member) (match_ known member)
  refine ⟨?_, ?_, ?_, ?_, ?_⟩
  · rw [List.forall_mem_append, List.forall_mem_singleton]
    exact ⟨consistent.contiguous, traced.contiguous⟩
  · rw [windows_concat]
    exact consistent.uniform.insert consistent.grounded folds rooted chart.window_folds windows_match
  · rw [windows_concat]
    exact consistent.grounded.insert rooted
  · rw [windows_concat]
    refine consistent.stepwise.insert consistent.uniform consistent.grounded folds rooted chart.window_folds
      windows_match fun i holds => ?_
    obtain ⟨e, member, index, found⟩ := Chart.window_holds traced.contiguous holds
    obtain ⟨known, here, held⟩ | change := traced.entries e member
    · -- the entry is held under its own term
      obtain ⟨found', above, inside⟩ := (consistent.contiguous known here).get_of_mem held
      rw [index] at found' above inside
      refine .inl ⟨known.window, mem_windows here, ⟨above, inside⟩, ?_⟩
      exact (Chart.termAt_of_get found').trans (Chart.termAt_of_get found).symm
    · rw [index] at change
      have same : chart.window.item (i + 1) = some e := found
      rw [same]
      exact .inr change
  · rw [List.forall_mem_append, List.forall_mem_singleton]
    exact ⟨consistent.populated, traced.populated⟩

theorem extend_all (consistent : Consistent initial charts) {more : List Chart}
    (traced : ∀ chart ∈ more, chart.Traced initial charts)
    (match_ : ∀ chart ∈ charts ++ more, ∀ known ∈ charts ++ more, chart.log.Matches known.log) :
    Consistent initial (charts ++ more) := by
  induction more using List.reverseRecOn with
  | nil => rwa [List.append_nil]
  | append_singleton more chart ih =>
    rw [List.forall_mem_append, List.forall_mem_singleton] at traced
    rw [← List.append_assoc] at match_ ⊢
    have before := ih traced.1 fun chart here known there =>
      match_ chart (List.mem_append_left _ here) known (List.mem_append_left _ there)
    refine before.extend (traced.2.mono (List.subset_append_left _ _)) fun known here => ?_
    exact match_ chart (by simp) known (List.mem_append_left _ here)

theorem congr (consistent : Consistent initial charts) {more : List Chart} (same : ∀ chart, chart ∈ charts ↔ chart ∈ more) :
    Consistent initial more := by
  have shown : windows charts = windows more := by
    ext w
    simp only [windows, same]
  obtain ⟨contiguous, uniform, grounded, stepwise, populated⟩ := consistent
  rw [shown] at uniform grounded stepwise
  simp only [same] at contiguous populated
  exact ⟨contiguous, uniform, grounded, stepwise, populated⟩

-- Nobody is in force only where a cluster starts with nobody.
theorem configAt_ne_nil (consistent : Consistent initial charts) (here : chart ∈ charts) {i : Nat}
    (inside : i ≤ chart.log.lastIndex) (empty : chart.configAt i = []) : initial = [] := by
  induction i with
  | zero => exact consistent.populated chart here empty
  | succ i ih =>
    obtain covered | above := Nat.lt_or_ge i chart.log.snapshotIndex
    · rw [Chart.configAt_le covered] at empty
      exact consistent.populated chart here empty
    · have step := consistent.stepwise _ (mem_windows here) i ⟨Nat.lt_succ_of_le above, inside⟩
      rw [Chart.configAt_succ above, enact] at empty
      cases changes : (chart.log.get (i + 1)).bind fun e => e.cmd.members with
      | none =>
        rw [changes] at empty
        exact ih (by omega) empty
      | some new =>
        rw [changes] at empty
        exact absurd empty (step new changes).some_

theorem chain (consistent : Consistent initial charts) (here : chart ∈ charts) : chart.configs.IsChain Overlapping :=
  Chart.configs_chain (consistent.contiguous chart here) fun i holds =>
    consistent.stepwise _ (mem_windows here) i holds

end Consistent

def Pictures (charts : List Chart) (index term : Nat) (data : Bytes) : Prop :=
  ∃ known ∈ charts, known.Shows index term ∧ (decodeSnapshotPayload data).map Prod.fst = some (known.configAt index)

def RaftMsg.Founded (charts : List Chart) : RaftMsg → Prop
  | .appendEntries _ _ _ _ entries _ => ∀ e ∈ entries, ∃ known ∈ charts, e ∈ known.log.entries
  | .installSnapshot _ _ index term data => 0 < index → Pictures charts index term data
  | _ => True

def Persist.Founded (charts : List Chart) : Persist → Prop
  | .snapshotInstalled index term data .. => 0 < index ∧ Pictures charts index term data
  | _ => True

def RaftMsg.Copies (r : Raft) : RaftMsg → Prop
  | .appendEntries _ _ _ _ entries _ => ∀ e ∈ entries, e ∈ r.log.entries
  | .installSnapshot _ _ index term data =>
    index = r.log.snapshotIndex ∧ term = r.log.snapshotTerm ∧ data = r.snapshotData
  | _ => True

theorem Says.copies {cause : Cause} {r n : Raft} {dst : NodeId} {msg : RaftMsg} (allowed : Says cause r n dst msg) :
    msg.Copies n := by
  cases msg with
  | appendEntries term leader prevIndex prevTerm entries leaderCommit =>
    obtain ⟨_, _, _, _, rfl, _⟩ := allowed
    intro e member
    unfold RaftLog.sliceFrom at member
    split at member
    · cases member
    · exact List.mem_of_mem_drop (List.mem_of_mem_take member)
  | installSnapshot term leader index indexTerm data =>
    obtain ⟨_, _, _, index, term, data, _⟩ := allowed
    exact ⟨index, term, data⟩
  | _ => trivial

section Founded

variable {charts more : List Chart}

theorem Pictures.mono {index term : Nat} {data : Bytes} (pictures : Pictures charts index term data)
    (sub : charts ⊆ more) : Pictures more index term data := by
  obtain ⟨known, member, rest⟩ := pictures
  exact ⟨known, sub member, rest⟩

theorem RaftMsg.Founded.mono {msg : RaftMsg} (founded : msg.Founded charts) (sub : charts ⊆ more) :
    msg.Founded more := by
  cases msg with
  | appendEntries =>
    intro e member
    obtain ⟨known, here, held⟩ := founded e member
    exact ⟨known, sub here, held⟩
  | installSnapshot => exact fun some_ => (founded some_).mono sub
  | _ => trivial

theorem Persist.Founded.mono {action : Persist} (founded : action.Founded charts) (sub : charts ⊆ more) :
    action.Founded more := by
  cases action with
  | snapshotInstalled => exact ⟨founded.1, founded.2.mono sub⟩
  | _ => trivial

end Founded

theorem Persist.Founded.clamp {charts : List Chart} {action : Persist} (founded : action.Founded charts) (cap : Nat) :
    (action.clamp cap).Founded charts := by
  cases action <;> exact founded

theorem Node.Owes.founded {charts : List Chart} {cause : Cause} {n : Node} {action : Persist} {hard : Option HardState}
    (owes : n.Owes cause action hard) (heard : ∀ src msg, cause = .message src msg → msg.Founded charts) :
    action.Founded charts := by
  cases owes with
  | installed src leader index indexTerm data offered ahead =>
    have some_ : 0 < index := (Nat.zero_le _).trans_lt ahead
    exact ⟨some_, heard _ _ offered some_⟩
  | _ => trivial

theorem Raft.baseConfig_nil {r : Raft} (empty : r.baseConfig = []) : r.initialMembers = [] := by
  rw [baseConfig] at empty
  split at empty
  · exact empty
  · next some_ => exact absurd empty some_

theorem Raft.baseConfig_self {r r' : Raft} (members : r'.snapshotMembers = r.baseConfig)
    (start : r'.initialMembers = r.initialMembers) : r'.baseConfig = r.baseConfig := by
  rw [baseConfig, members, start]
  split
  · next empty => rw [empty, baseConfig_nil empty]
  · rfl

theorem Raft.configAt_chart (r : Raft) {index : Nat} (inside : index ≤ r.log.lastIndex) :
    (r.configAt index).1 = r.chart.configAt index := by
  rw [configAt, min_eq_left inside]
  change _ = ((configScan r.log index).map Prod.fst).getD r.baseConfig
  cases configScan r.log index <;> rfl

structure Tracing (charts : List Chart) (initial : List NodeId) (cause : Cause) (n : Node) : Prop where
  keeping : n.Keeping
  ordered : n.persister.Ordered
  batch : ∀ action hard, cause = .durable action hard → action.Keeps n.toRaft ∧ action.Founded charts
  start : n.initialMembers = initial
  ordinary : cause ≠ .membership
  heard : ∀ src msg, cause = .message src msg → msg.Founded charts
  -- The snapshot that is done is one of this log.
  taken : ∀ index term file hard, cause = .durable (.snapshotTaken index term file) hard →
    n.log.termAt index = some term ∧ (n.log.snapshotIndex < index →
      ∃ known ∈ charts, known.Shows index term ∧ known.configAt index = n.chart.configAt index)
  pending : ∀ d ∈ n.persister.duties, d.action.Founded charts
  begins : n.chart.Begins charts
  entries : ∀ e ∈ n.log.entries, (∃ known ∈ charts, e ∈ known.log.entries) ∨ e.cmd.members = none
  said : ∀ moment ∈ n.moments, moment.raft.chart.Traced initial charts ∧ moment.msg.Copies moment.raft

theorem Tracing.traced {charts : List Chart} {initial : List NodeId} {cause : Cause} {n : Node}
    (tracing : Tracing charts initial cause n) : n.chart.Traced initial charts where
  contiguous := tracing.keeping.place.contiguous
  begins := tracing.begins
  populated empty := tracing.start ▸ Raft.baseConfig_nil empty
  entries e member := (tracing.entries e member).imp_right fun plain new changes => by
    rw [Option.bind_some, plain] at changes
    cases changes

namespace RaftLog

variable {log : RaftLog}

theorem termAt_base (log : RaftLog) :
    log.termAt log.snapshotIndex = some (if log.snapshotIndex = noIndex then 0 else log.snapshotTerm) := by
  rw [termAt]
  split
  · rfl
  · exact if_pos rfl

theorem Contiguous.get_append (contiguous : log.Contiguous) {e : Entry} (next : e.index = log.lastIndex + 1)
    {i : Nat} (inside : i ≤ log.lastIndex) : (log.append e).get i = log.get i := by
  rw [get, get, lastIndex_append]
  change (if i < log.firstIndex ∨ e.index < i then none else (log.entries ++ [e])[i - log.firstIndex]?) = _
  by_cases above : i < log.firstIndex
  · rw [if_pos (.inl above), if_pos (.inl above)]
  · have size := contiguous.lastIndex_eq
    rw [if_neg (by omega), if_neg (by omega), List.getElem?_append_left]
    rw [firstIndex] at above ⊢
    omega

theorem Contiguous.termAt_append (contiguous : log.Contiguous) {e : Entry} (next : e.index = log.lastIndex + 1)
    {i : Nat} (inside : i ≤ log.lastIndex) : (log.append e).termAt i = log.termAt i := by
  rw [termAt, termAt, contiguous.get_append next inside]
  rfl

theorem Contiguous.configScan_append (contiguous : log.Contiguous) {e : Entry} (next : e.index = log.lastIndex + 1)
    {i : Nat} (inside : i ≤ log.lastIndex) : Raft.configScan (log.append e) i = Raft.configScan log i := by
  induction i with
  | zero => rfl
  | succ i ih =>
    rw [Raft.configScan, Raft.configScan, contiguous.get_append next inside, ih (by omega)]
    rfl

-- An adopted log begins at the snapshot it was adopted for.
theorem adopt_begins {index : Nat} (some_ : 0 < index) (log : RaftLog) (term : Nat) :
    (log.adopt index term).snapshotIndex = index ∧ (log.adopt index term).termAt index = some term := by
  have named : index ≠ noIndex := some_.ne'
  obtain newer | covered := Nat.lt_or_ge log.snapshotIndex index
  · obtain ⟨here, labelled⟩ := adopt_base newer term
    refine ⟨here, ?_⟩
    rw [termAt, if_neg named, if_pos here.symm, labelled]
  · rw [adopt]
    split
    · next known =>
      rw [compactTo, if_pos (.inl covered)]
      refine ⟨?_, known⟩
      by_contra below
      rw [termAt, if_neg named, if_neg (Ne.symm below), get, if_pos (.inl (by rw [firstIndex]; omega))] at known
      cases known
    · refine ⟨rfl, ?_⟩
      rw [termAt, if_neg named]
      exact if_pos rfl

end RaftLog

namespace Chart

variable {charts : List Chart} {chart chart' : Chart}

theorem Begins.of_shows {known : Chart} (member : known ∈ charts) {index term : Nat} (shows : known.Shows index term)
    (base : chart.log.snapshotIndex = index) (tag : chart.log.termAt index = some term)
    (value : known.configAt index = chart.base) : chart.Begins charts := by
  subst base
  exact ⟨known, member, term, shows, tag, value⟩

-- Where a log begins does not depend on its entries.
theorem Begins.congr (begins : chart.Begins charts) (index : chart'.log.snapshotIndex = chart.log.snapshotIndex)
    (term : chart'.log.snapshotTerm = chart.log.snapshotTerm) (base : chart'.base = chart.base) :
    chart'.Begins charts := by
  obtain ⟨known, member, tag, shows, here, value⟩ := begins
  rw [RaftLog.termAt_base] at here
  refine ⟨known, member, tag, index ▸ shows, ?_, ?_⟩
  · rw [RaftLog.termAt_base, index, term, here]
  · rw [index, base, value]

end Chart

variable {charts : List Chart} {initial : List NodeId} {cause : Cause} {r : Raft} {n m : Node}

-- Whoever starts from the membership that a known log comes to computes with it.
theorem Consistent.baseConfig (consistent : Consistent initial charts) {known : Chart} (here : known ∈ charts)
    {index term : Nat} (shows : known.Shows index term) {r : Raft} (start : r.initialMembers = initial)
    (members : r.snapshotMembers = known.configAt index) : r.baseConfig = known.configAt index := by
  rw [Raft.baseConfig, members, start]
  split
  · next empty =>
    rw [empty, consistent.configAt_ne_nil here ((consistent.contiguous known here).termAt_le shows.2) empty]
  · rfl

theorem Act.initialMembers (act : Act cause r n m) : m.initialMembers = n.initialMembers := by
  have becomes := act.becomes
  generalize m.toRaft = after at becomes ⊢
  cases becomes <;> rfl

-- The log begins where it did, or at a snapshot that is done and is one of a known log.
theorem Act.chart_begins (act : Act cause r n m) (consistent : Consistent initial charts)
    (tracing : Tracing charts initial cause n) : m.chart.Begins charts := by
  have becomes := act.becomes
  generalize m.toRaft = after at becomes ⊢
  cases becomes with
  | append e => exact tracing.begins.congr rfl rfl rfl
  | splice _ _ _ _ _ _ p t es i conflict =>
    exact tracing.begins.congr (n.log.snapshotIndex_splice p es i conflict)
      (n.log.snapshotTerm_splice p es i conflict) rfl
  | taken index term file hard done =>
    obtain ⟨here, known⟩ := tracing.taken index term file hard done
    have inside := tracing.keeping.place.contiguous.termAt_le here
    have config := n.configAt_chart inside
    obtain covered | newer := le_or_gt index n.log.snapshotIndex
    · -- the log begins there already
      rw [Chart.configAt_le covered] at config
      have same : n.log.compactTo index term = n.log := if_pos (.inl covered)
      refine tracing.begins.congr (congrArg RaftLog.snapshotIndex same) (congrArg RaftLog.snapshotTerm same) ?_
      exact Raft.baseConfig_self config rfl
    · obtain ⟨other, member, shows, value⟩ := known newer
      obtain ⟨base, labelled⟩ := RaftLog.compactTo_base newer inside term
      have tag := (n.log.compactTo index term).termAt_base
      have named : index ≠ noIndex := Nat.ne_zero_of_lt newer
      rw [base, labelled, if_neg named] at tag
      refine .of_shows member shows base tag (consistent.baseConfig member shows ?_ ?_).symm
      · exact tracing.start
      · exact config.trans value.symm
  | adopt index term data file replyTo replyTerm hard done _ _ _ _ _ _ _ _ _ _ image =>
    obtain ⟨some_, known, member, shows, decoded⟩ := (tracing.batch _ _ done).2
    obtain ⟨base, labelled⟩ := RaftLog.adopt_begins some_ n.log term
    obtain ⟨payload, whole, members⟩ := Option.map_eq_some_iff.mp decoded
    rw [whole, Option.getD_some, members] at image
    refine .of_shows member shows base labelled (consistent.baseConfig member shows ?_ ?_).symm
    · exact tracing.start
    · exact image
  | _ => exact tracing.begins

-- Entries were in the log, came with a message, or are new and change no membership.
theorem Act.log_entries {origin : Entry → Prop} (act : Act cause r n m) (ordinary : cause ≠ .membership)
    (heard : ∀ src term leader prevIndex prevTerm entries leaderCommit, cause = .message src
      (.appendEntries term leader prevIndex prevTerm entries leaderCommit) → ∀ e ∈ entries, origin e)
    (held : ∀ e ∈ n.log.entries, origin e ∨ e.cmd.members = none) :
    ∀ e ∈ m.log.entries, origin e ∨ e.cmd.members = none := by
  have becomes := act.becomes
  generalize m.toRaft = after at becomes ⊢
  cases becomes with
  | append e _ plain =>
    intro e' member
    obtain old | new := List.mem_append.mp member
    · exact held e' old
    · rw [List.mem_singleton.mp new]
      exact .inr (plain.resolve_right ordinary)
  | splice src leader prevIndex prevTerm entries leaderCommit p t es i conflict offered trims =>
    intro e member
    obtain old | new := RaftLog.mem_of_mem_splice member
    · exact held e old
    · exact .inl (heard _ _ _ _ _ _ _ offered e (trims.subset new))
  | taken => exact fun e member => held e (RaftLog.mem_of_mem_compactTo member)
  | adopt => exact fun e member => held e (RaftLog.mem_of_mem_adopt member)
  | _ => exact held

-- A snapshot that is done stays one of the log while the event goes on.
theorem Act.chart_taken (act : Act cause r n m) (tracing : Tracing charts initial cause n) :
    ∀ index term file hard, cause = .durable (.snapshotTaken index term file) hard →
      m.log.termAt index = some term ∧ (m.log.snapshotIndex < index →
        ∃ known ∈ charts, known.Shows index term ∧ known.configAt index = m.chart.configAt index) := by
  intro index term file hard done
  obtain ⟨here, known⟩ := tracing.taken index term file hard done
  have contiguous := tracing.keeping.place.contiguous
  have inside := contiguous.termAt_le here
  have becomes := act.becomes
  generalize m.toRaft = after at becomes ⊢
  cases becomes with
  | append e _ _ _ sound =>
    refine ⟨(contiguous.termAt_append sound.1 inside).trans here, fun newer => ?_⟩
    obtain ⟨other, member, shows, value⟩ := known newer
    refine ⟨other, member, shows, value.trans ?_⟩
    exact congrArg (fun found => (found.map Prod.fst).getD n.baseConfig)
      (contiguous.configScan_append sound.1 inside).symm
  | splice _ _ _ _ _ _ _ _ _ _ _ offered =>
    rw [done] at offered
    cases offered
  | taken _ _ _ _ again =>
    rw [done] at again
    cases again
    obtain covered | newer := le_or_gt index n.log.snapshotIndex
    · have same : n.log.compactTo index term = n.log := if_pos (.inl covered)
      dsimp only
      rw [same]
      exact ⟨here, fun newer => absurd newer covered.not_gt⟩
    · obtain ⟨base, labelled⟩ := RaftLog.compactTo_base newer inside term
      have tag := (n.log.compactTo index term).termAt_base
      have named : index ≠ noIndex := Nat.ne_zero_of_lt newer
      rw [base, labelled, if_neg named] at tag
      exact ⟨tag, fun above => absurd (base ▸ above) (lt_irrefl _)⟩
  | adopt _ _ _ _ _ _ _ again =>
    rw [done] at again
    cases again
  | _ => exact ⟨here, known⟩

theorem Act.tracing (act : Act cause r n m) (consistent : Consistent initial charts)
    (tracing : Tracing charts initial cause n) : Tracing charts initial cause m := by
  obtain ⟨keeping, batch⟩ := act.keeping tracing.keeping tracing.ordered fun action hard done =>
    (tracing.batch action hard done).1
  have asks := act.asks tracing.ordered
  refine
    { keeping
      ordered := asks.ordered tracing.ordered
      batch := fun action hard done => ⟨batch action hard done, (tracing.batch action hard done).2⟩
      start := act.initialMembers.trans tracing.start
      ordinary := tracing.ordinary
      heard := tracing.heard
      taken := act.chart_taken tracing
      pending := ?_
      begins := act.chart_begins consistent tracing
      entries := act.log_entries tracing.ordinary
        (fun src _ _ _ _ _ _ offered => tracing.heard src _ offered) tracing.entries
      said := ?_ }
  · intro d member
    rcases asks.duties member with old | ⟨before, found, cap, rfl⟩ | owes
    · exact tracing.pending d old
    · exact (tracing.pending before found).clamp cap
    · exact owes.founded tracing.heard
  · cases act.speaks with
    | nothing same =>
      rw [same]
      exact tracing.said
    | message dst msg _ allowed sent =>
      rw [sent, List.forall_mem_append, List.forall_mem_singleton]
      refine ⟨tracing.said, tracing.traced, ?_⟩
      rcases allowed with allowed | ⟨hard, done⟩
      · exact allowed.copies
      · -- what waits for a batch is an answer
        have keeps := (tracing.batch _ _ done).1
        cases msg with
        | appendEntriesResp => trivial
        | _ => exact keeps.elim

end SimKv
