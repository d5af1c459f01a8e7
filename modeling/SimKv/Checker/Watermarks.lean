import SimKv.Acknowledgement
import SimKv.Checker.Invariants

set_option autoImplicit false

/-!
# Checking from a watermark on

What lies below the watermark of a node is not looked at again as long as the node reports neither a truncation
nor a new incarnation. Appending, compacting and cutting a conflict all leave nothing unseen behind. A snapshot
that replaces a log reaching beyond it does: the log starts over below the watermark, and nobody is told.
-/

namespace SimKv

open Std

structure LogState where
  log : RaftLog
  commitIndex : Nat
  truncations : Nat

/-- One change to a log. A snapshot replaces it unless it holds the snapshot's last entry; with `cuts` it may do
so even if the log reaches beyond the snapshot. -/
inductive LogStep (cuts : Bool) : LogState → LogState → Prop where
  | commit (s : LogState) (commitIndex : Nat) (grows : s.commitIndex ≤ commitIndex) :
      LogStep cuts s { s with commitIndex }
  | append (s : LogState) (e : Entry) (sound : s.log.AppendOk e) : LogStep cuts s { s with log := s.log.append e }
  | splice (s : LogState) (p i : Nat) (es : List Entry) (conflict : Bool) (base : s.log.snapshotIndex ≤ p)
      (sound : (if conflict then s.log.truncateFrom (p + 1 + i) else s.log).AppendsOk (es.drop i)) :
      LogStep cuts s
        { s with
          log := s.log.splice p es i conflict
          truncations := if conflict then s.truncations + 1 else s.truncations }
  | compact (s : LogState) (index term : Nat) : LogStep cuts s { s with log := s.log.compactTo index term }
  | adopt (s : LogState) (index term : Nat)
      (wanted : s.log.termAt index = some term ∨ max s.commitIndex s.log.snapshotIndex ≤ index)
      (fits : cuts = true ∨ s.log.termAt index = some term ∨ s.log.lastIndex ≤ index) :
      LogStep cuts s { s with log := s.log.adopt index term, commitIndex := max s.commitIndex index }

def Raft.logState (r : Raft) (truncations : Nat) : LogState :=
  { log := r.log, commitIndex := r.commitIndex, truncations }

theorem Act.logSteps {cause : Cause} {r : Raft} {n m : Node} (act : Act cause r n m) (place : n.Place)
    (truncations : Nat) :
    ∃ truncations', Relation.ReflTransGen (LogStep true) (n.logState truncations) (m.logState truncations') := by
  have becomes := act.becomes
  generalize m.toRaft = after at becomes ⊢
  cases becomes with
  | append e _ _ _ sound => exact ⟨_, .single (.append (n.logState truncations) e sound)⟩
  | splice _ _ _ _ _ _ p t es i conflict _ trims _ _ _ _ sound =>
    exact ⟨_, .single (.splice (n.logState truncations) p i es conflict trims.base sound)⟩
  | follow _ _ _ _ commitIndex grows => exact ⟨_, .single (.commit (n.logState truncations) commitIndex grows)⟩
  | commit candidate _ _ newer => exact ⟨_, .single (.commit (n.logState truncations) candidate newer.le)⟩
  | taken index term => exact ⟨_, .single (.compact (n.logState truncations) index term)⟩
  | adopt index term data file replyTo replyTerm hard done _ wanted =>
    refine ⟨_, .single (.adopt (n.logState truncations) index term ?_ (.inl rfl))⟩
    exact wanted.imp_right fun reached => max_le reached (place.base.trans reached)
  | _ => exact ⟨truncations, .refl⟩

theorem Server.Begins.logState {s : Server} {now : Nat} {input : Input} {cause : Cause} {n : Node}
    (begins : s.Begins now input cause n) (truncations : Nat) :
    n.logState truncations = s.raft.logState truncations := by
  cases begins with
  | done op ok action hard p =>
    cases hard with
    | none => rfl
    | some hs =>
      obtain ⟨_, _, raft, _⟩ := Node.noteDurable_spec { s.wake now with persister := p } hs
      rw [raft]
      rfl
  | _ => rfl

-- The log of a node goes through such steps in every event, until it crashes.
theorem Server.handle_logSteps {s : Server} (keeping : s.raft.Keeping) (ordered : s.raft.persister.Ordered)
    {now : Nat} {input : Input} (calm : (s.handle now input).1.panicked = false) (truncations : Nat) :
    ∃ truncations', Relation.ReflTransGen (LogStep true) (s.raft.logState truncations)
      ((s.handle now input).1.logState truncations') := by
  let holds (cause : Cause) (_ : Raft) (n : Node) : Prop :=
    (n.Keeping ∧ n.persister.Ordered ∧ ∀ action hard, cause = .durable action hard → action.Keeps n.toRaft) ∧
      ∃ truncations', Relation.ReflTransGen (LogStep true) (s.raft.logState truncations) (n.logState truncations')
  obtain ⟨_, _, -, steps⟩ := @Server.handle_rule s holds now input
    (fun cause n begins => by
      obtain ⟨kept, batch⟩ := begins.keeping keeping
      exact ⟨⟨kept, begins.ordered ordered, batch⟩, truncations, begins.logState truncations ▸ .refl⟩)
    (fun cause r n m mid act => by
      obtain ⟨⟨kept, inOrder, batch⟩, before, steps⟩ := mid
      obtain ⟨kept', batch'⟩ := act.keeping kept inOrder batch
      obtain ⟨after, more⟩ := act.logSteps kept.place before
      exact ⟨⟨kept', (act.asks inOrder).ordered inOrder, batch'⟩, after, steps.trans more⟩) calm
  exact steps

namespace NodeView

variable (v : NodeView)

def logState : LogState := { log := v.log, commitIndex := v.commitIndex, truncations := v.truncations }

structure Sound : Prop where
  contiguous : v.log.Contiguous
  snapshot : v.snapshotIndex = v.log.snapshotIndex

/-- From one event to the next the log of a node that stays up changes step by step. A node that was down, or is
in another incarnation, comes with any log. -/
structure Evolves (cuts : Bool) (v v' : NodeView) : Prop where
  id : v'.id = v.id
  sound : v'.up = true → v'.Sound
  steps : v.up = true → v'.up = true → v'.incarnation = v.incarnation →
    Relation.ReflTransGen (LogStep cuts) v.logState v'.logState

end NodeView

structure Keeps (mark : Nat) (log log' : RaftLog) : Prop where
  contiguous : log'.Contiguous
  reaches : mark ≤ log'.lastIndex
  old : ∀ e ∈ log'.entries, e.index ≤ mark → e ∈ log.entries

theorem Keeps.appendAll {mark : Nat} {log : RaftLog} {es : List Entry} (contiguous : log.Contiguous)
    (below : mark ≤ log.lastIndex) (sound : log.AppendsOk es) : Keeps mark log (log.appendAll es) := by
  obtain ⟨reaches, above⟩ := sound.lastIndex_lt
  refine ⟨contiguous.appendAll sound, below.trans reaches, fun e member looked => ?_⟩
  rw [log.entries_appendAll] at member
  obtain old | new := List.mem_append.mp member
  · exact old
  · have := above e new
    omega

theorem Keeps.compactTo {mark : Nat} {log : RaftLog} (contiguous : log.Contiguous) (below : mark ≤ log.lastIndex)
    (index term : Nat) : Keeps mark log (log.compactTo index term) :=
  ⟨contiguous.compactTo index term, (contiguous.lastIndex_compactTo index term).symm ▸ below,
    fun _ member _ => RaftLog.mem_of_mem_compactTo member⟩

theorem LogStep.truncations_le {cuts : Bool} {s s' : LogState} (step : LogStep cuts s s') :
    s.truncations ≤ s'.truncations := by
  cases step with
  | splice p i es conflict =>
    simp only
    split
    · exact Nat.le_succ _
    · exact le_rfl
  | _ => exact le_rfl

def LogState.settled (s : LogState) : Nat := max s.commitIndex s.log.snapshotIndex

theorem LogStep.settled_le {cuts : Bool} {s s' : LogState} (step : LogStep cuts s s') : s.settled ≤ s'.settled := by
  simp only [LogState.settled]
  cases step with
  | commit commitIndex grows => exact max_le_max grows le_rfl
  | append => exact le_rfl
  | splice p i es conflict => exact max_le_max le_rfl (s.log.snapshotIndex_splice p es i conflict).ge
  | compact index term => exact max_le_max le_rfl (s.log.snapshotIndex_le_compactTo index term)
  | adopt index term wanted =>
    by_cases keeps : s.log.termAt index = some term
    · have kept : s.log.adopt index term = s.log.compactTo index term := if_pos keeps
      rw [kept]
      exact max_le_max (le_max_left _ _) (s.log.snapshotIndex_le_compactTo index term)
    · exact ((wanted.resolve_left keeps).trans (le_max_right _ _)).trans (le_max_left _ _)

-- A step that is not counted keeps what lies below the mark, if the mark is not above what is settled or no
-- log is cut short.
theorem LogStep.keeps {cuts : Bool} {s s' : LogState} {mark : Nat} (step : LogStep cuts s s')
    (same : s'.truncations = s.truncations) (contiguous : s.log.Contiguous) (below : mark ≤ s.log.lastIndex)
    (safe : cuts = false ∨ mark ≤ s.settled) : Keeps mark s.log s'.log := by
  cases step with
  | commit => exact ⟨contiguous, below, fun _ member _ => member⟩
  | append e sound => exact @Keeps.appendAll _ _ [e] contiguous below ⟨sound, trivial⟩
  | splice p i es conflict base sound =>
    cases conflict with
    | true => exact absurd same (Nat.succ_ne_self _)
    | false => exact .appendAll contiguous below sound
  | compact index term => exact .compactTo contiguous below index term
  | adopt index term wanted fits =>
    by_cases keeps : s.log.termAt index = some term
    · have kept : s.log.adopt index term = s.log.compactTo index term := if_pos keeps
      simp only [kept]
      exact .compactTo contiguous below index term
    · have replaced : s.log.adopt index term = RaftLog.fromSnapshot index term [] := if_neg keeps
      simp only [replaced]
      refine ⟨nofun, ?_, nofun⟩
      change mark ≤ index
      obtain whole | settled := safe
      · obtain cut | known | short := fits
        · rw [whole] at cut
          cases cut
        · exact absurd known keeps
        · exact below.trans short
      · exact settled.trans (wanted.resolve_left keeps)

theorem keeps_of_steps {cuts : Bool} {s s' : LogState} {mark : Nat}
    (steps : Relation.ReflTransGen (LogStep cuts) s s') (same : s'.truncations = s.truncations)
    (contiguous : s.log.Contiguous) (below : mark ≤ s.log.lastIndex) (safe : cuts = false ∨ mark ≤ s.settled) :
    Keeps mark s.log s'.log ∧ s.settled ≤ s'.settled := by
  have counted : ∀ {t}, Relation.ReflTransGen (LogStep cuts) s t → s.truncations ≤ t.truncations := by
    intro t run
    induction run with
    | refl => exact le_rfl
    | tail _ step ih => exact ih.trans step.truncations_le
  induction steps with
  | refl => exact ⟨⟨contiguous, below, fun _ member _ => member⟩, le_rfl⟩
  | tail run step ih =>
    have first := counted run
    have last := step.truncations_le
    obtain ⟨before, grown⟩ := ih (by omega)
    have after := step.keeps (by omega) before.contiguous before.reaches (safe.imp_right fun low => low.trans grown)
    refine ⟨⟨after.contiguous, after.reaches, fun e member looked => ?_⟩, grown.trans step.settled_le⟩
    exact before.old e (after.old e member looked) looked

def Reported (kind : String) (found : List Violation) : Prop := ∃ x ∈ found, x.kind = kind

theorem Reported.mono {kind : String} {found found' : List Violation} (reported : Reported kind found)
    (more : found ⊆ found') : Reported kind found' := by
  obtain ⟨x, here, same⟩ := reported
  exact ⟨x, more here, same⟩

namespace Invariants

def Matched (inv : Invariants) (found : List Violation) (e : Entry) : Prop :=
  Reported "log_matching" found ∨ inv.entries (e.index, e.term) = some e.cmd

/-- The entry is known as the one committed at its index, or a change has been reported. -/
def Settled (inv : Invariants) (found : List Violation) (e : Entry) : Prop :=
  Reported "committed_entry_changed" found ∨
    ∃ rec, inv.committed[e.index]? = some rec ∧ rec.term = e.term ∧ rec.cmd = e.cmd

structure Extends (s s' : Invariants × List Violation) : Prop where
  entries : ∀ pair cmd, s.1.entries pair = some cmd → s'.1.entries pair = some cmd
  committed : ∀ (index : Nat) (rec : CommittedRec),
    s.1.committed[index]? = some rec → s'.1.committed[index]? = some rec
  found : s.2 ⊆ s'.2

variable {s s' s'' : Invariants × List Violation}

theorem Extends.refl (s : Invariants × List Violation) : Extends s s :=
  ⟨fun _ _ known => known, fun _ _ known => known, List.Subset.refl _⟩

theorem Extends.trans (first : Extends s s') (second : Extends s' s'') : Extends s s'' :=
  ⟨fun pair cmd known => second.entries pair cmd (first.entries pair cmd known),
    fun index rec known => second.committed index rec (first.committed index rec known),
    List.Subset.trans first.found second.found⟩

-- Complaints found before do not matter to what a check adds.
theorem Extends.after {inv : Invariants} (grows : Extends (inv, []) s') (found : List Violation) :
    Extends (inv, found) (s'.1, found ++ s'.2) :=
  ⟨grows.entries, grows.committed, List.subset_append_left _ _⟩

theorem Extends.behind (s : Invariants × List Violation) (found : List Violation) : Extends s (s.1, found ++ s.2) :=
  ⟨fun _ _ known => known, fun _ _ known => known, List.subset_append_right _ _⟩

theorem Matched.mono {e : Entry} (matched : s.1.Matched s.2 e) (grows : Extends s s') : s'.1.Matched s'.2 e :=
  matched.imp (fun reported => reported.mono grows.found) (grows.entries _ _)

theorem Settled.mono {e : Entry} (settled : s.1.Settled s.2 e) (grows : Extends s s') : s'.1.Settled s'.2 e := by
  refine settled.imp (fun reported => reported.mono grows.found) fun known => ?_
  obtain ⟨rec, known, same⟩ := known
  exact ⟨rec, grows.committed _ _ known, same⟩

structure SameBooks (inv inv' : Invariants) : Prop where
  entries : inv'.entries = inv.entries
  committed : inv'.committed = inv.committed
  nodes : inv'.nodes = inv.nodes

section Checks

variable (debug : Command → String) (time : Nanos) (v : NodeView)

theorem electionSafety_books (inv : Invariants) : inv.SameBooks (inv.electionSafety time v).1 := by
  unfold electionSafety
  split
  · split <;> exact ⟨rfl, rfl, rfl⟩
  · exact ⟨rfl, rfl, rfl⟩

theorem checkLeader_books (inv : Invariants) : inv.SameBooks (inv.checkLeader time v).1 := by
  have election := electionSafety_books time v (inv.membershipRules time v).1
  exact ⟨election.entries, election.committed, election.nodes⟩

theorem matchEntry_spec (s : Invariants × List Violation) (e : Entry) :
    let after := matchEntry debug time v s e
    Extends s after ∧ after.1.nodes = s.1.nodes ∧ after.1.Matched after.2 e := by
  simp only [matchEntry]
  split
  · next known named =>
    split
    · refine ⟨⟨fun _ _ known => known, fun _ _ known => known, List.subset_append_left _ _⟩, rfl, ?_⟩
      exact .inl ⟨_, List.mem_append_right _ List.mem_cons_self, rfl⟩
    · next same => exact ⟨.refl s, rfl, .inr (named.trans (congrArg some (not_not.mp same)))⟩
  · next unnamed =>
    refine ⟨⟨fun pair cmd known => ?_, fun _ _ known => known, List.Subset.refl _⟩, rfl,
      .inr (Function.update_self ..)⟩
    have apart : pair ≠ (e.index, e.term) := by
      rintro rfl
      rw [known] at unnamed
      cases unnamed
    exact (Function.update_of_ne apart _ _).trans known

theorem matchEntries_spec (entries : List Entry) (s : Invariants × List Violation) :
    let after := entries.foldl (matchEntry debug time v) s
    Extends s after ∧ after.1.nodes = s.1.nodes ∧ ∀ e ∈ entries, after.1.Matched after.2 e := by
  induction entries generalizing s with
  | nil => exact ⟨.refl s, rfl, nofun⟩
  | cons e rest ih =>
    obtain ⟨grows, nodes, matched⟩ := matchEntry_spec debug time v s e
    obtain ⟨later, nodes', all⟩ := ih (matchEntry debug time v s e)
    exact ⟨grows.trans later, nodes'.trans nodes, List.forall_mem_cons.mpr ⟨matched.mono later, all⟩⟩

-- Every entry behind the watermark is looked at.
theorem logMatching_spec (inv : Invariants) (checkedUpto : Nat) (contiguous : v.log.Contiguous) :
    let after := inv.logMatching debug time v checkedUpto
    Extends (inv, []) after.1 ∧ after.1.1.nodes = inv.nodes ∧
      (checkedUpto ≤ v.log.lastIndex → after.2 ≤ v.log.lastIndex) ∧
      ∀ e ∈ v.log.entries, checkedUpto < e.index → after.1.1.Matched after.1.2 e := by
  obtain ⟨grows, nodes, all⟩ :=
    matchEntries_spec debug time v (v.log.entries.filter fun e => checkedUpto < e.index) (inv, [])
  refine ⟨grows, nodes, ?_, fun e member fresh => all e (List.mem_filter.mpr ⟨member, decide_eq_true fresh⟩)⟩
  simp only [logMatching]
  cases last : (v.log.entries.filter fun e => checkedUpto < e.index).getLast? with
  | none => exact fun below => below
  | some e => exact fun _ => (contiguous.get_of_mem (List.mem_filter.mp (List.mem_of_getLast? last)).1).2.2

theorem commitEntry_spec (s : Invariants × List Violation) (e : Entry) :
    let after := commitEntry debug time v s e.index e
    Extends s after ∧ after.1.nodes = s.1.nodes ∧ after.1.Settled after.2 e := by
  simp only [commitEntry]
  split
  · next rec known =>
    split
    · refine ⟨⟨fun _ _ known => known, fun _ _ known => known, List.subset_append_left _ _⟩, rfl, ?_⟩
      exact .inl ⟨_, List.mem_append_right _ List.mem_cons_self, rfl⟩
    · next same =>
      rw [not_or, not_not, not_not] at same
      exact ⟨.refl s, rfl, .inr ⟨rec, known, same⟩⟩
  · next unknown =>
    refine ⟨⟨fun _ _ known => known, fun index rec known => ?_, List.Subset.refl _⟩, rfl,
      .inr ⟨_, ExtTreeMap.getElem?_insert_self, rfl, rfl⟩⟩
    have apart : e.index ≠ index := by
      rintro rfl
      rw [known] at unknown
      cases unknown
    rwa [ExtTreeMap.getElem?_insert, if_neg fun same => apart (Nat.compare_eq_eq.mp same)]

-- What the visits preserve holds at the end of a walk, which ends at its goal or where there is no entry.
theorem walk_rule {σ : Type} {log : RaftLog} {visit : σ → Nat → Entry → σ} (P : Nat → σ → Prop) (count index : Nat)
    (goal : Nat) (reach : index + count = goal)
    (step : ∀ i s e, i < goal → log.get i = some e → P i s → P (i + 1) (visit s i e)) (positive : 0 < index) (s : σ)
    (start : P index s) :
    let after := walk log visit count index s
    P (after.2 + 1) after.1 ∧ index ≤ after.2 + 1 ∧ (after.2 + 1 = goal ∨ log.get (after.2 + 1) = none) := by
  induction count generalizing index s with
  | zero =>
    simp only [walk, Nat.sub_add_cancel positive]
    exact ⟨start, le_rfl, .inl reach⟩
  | succ count ih =>
    rw [walk]
    cases found : log.get index with
    | none =>
      simp only [Nat.sub_add_cancel positive]
      exact ⟨start, le_rfl, .inr found⟩
    | some e =>
      obtain ⟨done, reached, stop⟩ :=
        ih (index + 1) (by omega) (Nat.succ_pos _) _ (step index s e (by omega) found start)
      exact ⟨done, (Nat.le_succ _).trans reached, stop⟩

-- The committed entries behind the watermark are looked at, too.
theorem committedEntries_spec (inv : Invariants) (committedChecked : Nat) (contiguous : v.log.Contiguous)
    (base : v.snapshotIndex = v.log.snapshotIndex) (below : committedChecked ≤ v.log.lastIndex)
    (settled : committedChecked ≤ max v.commitIndex v.snapshotIndex) :
    let after := inv.committedEntries debug time v committedChecked
    Extends (inv, []) after.1 ∧ after.1.1.nodes = inv.nodes ∧
      (after.2 ≤ v.log.lastIndex ∧ after.2 ≤ max v.commitIndex v.snapshotIndex) ∧
      ∀ e ∈ v.log.entries, committedChecked < e.index → e.index ≤ v.commitIndex → after.1.1.Settled after.1.2 e := by
  let first := max (committedChecked + 1) (v.snapshotIndex + 1)
  let P (i : Nat) (s : Invariants × List Violation) : Prop :=
    Extends (inv, []) s ∧ s.1.nodes = inv.nodes ∧
      (i ≤ v.log.lastIndex + 1 ∧ i ≤ max v.commitIndex v.snapshotIndex + 1) ∧
      ∀ e ∈ v.log.entries, first ≤ e.index → e.index < i → s.1.Settled s.2 e
  have size := contiguous.lastIndex_eq
  obtain ⟨⟨grows, nodes, bounds, all⟩, reached, stop⟩ :=
    @walk_rule _ v.log (commitEntry debug time v) P (v.commitIndex + 1 - first) first (max first (v.commitIndex + 1))
      (by omega) (by
        rintro i s e goal found ⟨grows, nodes, bounds, all⟩
        obtain ⟨rfl, -, inside⟩ := contiguous.index_of_get found
        obtain ⟨more, nodes', here⟩ := commitEntry_spec debug time v s e
        refine ⟨grows.trans more, nodes'.trans nodes, ⟨by omega, by omega⟩, fun e' member fresh visited => ?_⟩
        obtain earlier | last := Nat.lt_succ_iff_lt_or_eq.mp visited
        · exact (all e' member fresh earlier).mono more
        · obtain rfl : e' = e := by
            have found' := (contiguous.get_of_mem member).1
            rw [last, found] at found'
            exact (Option.some.inj found').symm
          exact here)
      (by omega) (inv, []) ⟨.refl _, rfl, ⟨by omega, by omega⟩, fun e _ fresh visited => absurd visited (by omega)⟩
  refine ⟨grows, nodes, bounds.imp Nat.le_of_succ_le_succ Nat.le_of_succ_le_succ,
    fun e member fresh low => all e member ?_ ?_⟩
  all_goals
    obtain ⟨-, above, inside⟩ := contiguous.get_of_mem member
  · omega
  · obtain goal | none := stop
    · omega
    · -- the walk stopped short, at the end of the log
      by_contra beyond
      rw [RaftLog.get, if_neg (by rw [RaftLog.firstIndex]; omega)] at none
      have := List.getElem?_eq_none_iff.mp none
      rw [RaftLog.firstIndex] at this
      omega

theorem applyEntry_spec (s : Invariants × List Violation) (index : Nat) (e : Entry) :
    let after := applyEntry debug time v s index e
    Extends s after ∧ after.1.nodes = s.1.nodes := by
  simp only [applyEntry]
  split
  · split
    · exact ⟨⟨fun _ _ known => known, fun _ _ known => known, List.subset_append_left _ _⟩, rfl⟩
    · exact ⟨.refl s, rfl⟩
  · exact ⟨⟨fun _ _ known => known, fun _ _ known => known, List.Subset.refl _⟩, rfl⟩

theorem appliedEntries_spec (inv : Invariants) (appliedChecked : Nat) :
    let after := inv.appliedEntries debug time v appliedChecked
    Extends (inv, []) after.1 ∧ after.1.1.nodes = inv.nodes := by
  let P (_ : Nat) (s : Invariants × List Violation) : Prop := Extends (inv, []) s ∧ s.1.nodes = inv.nodes
  refine (@walk_rule _ v.log (applyEntry debug time v) P _ _ _ rfl (fun i s e _ _ held => ?_) (by omega) _
    ⟨.refl _, rfl⟩).1
  obtain ⟨more, nodes⟩ := applyEntry_spec debug time v s i e
  exact ⟨held.1.trans more, nodes.trans held.2⟩

structure Covers (cuts : Bool) (s : Invariants × List Violation) (t : NodeTrack) (v : NodeView) : Prop where
  matched : cuts = false →
    t.checkedUpto ≤ v.log.lastIndex ∧ ∀ e ∈ v.log.entries, e.index ≤ t.checkedUpto → s.1.Matched s.2 e
  bounds : t.committedChecked ≤ v.log.lastIndex ∧ t.committedChecked ≤ max v.commitIndex v.snapshotIndex
  settled : ∀ e ∈ v.log.entries, e.index ≤ t.committedChecked → s.1.Settled s.2 e

structure Current (cuts : Bool) (s : Invariants × List Violation) (v : NodeView) : Prop where
  same : (s.1.track v.id).truncations = v.truncations ∧ (s.1.track v.id).incarnation = v.incarnation
  up : v.up = true → v.Sound ∧ Covers cuts s (s.1.track v.id) v
  down : v.up = false → (s.1.track v.id).checkedUpto = 0 ∧ (s.1.track v.id).committedChecked = 0

def Seen (cuts : Bool) (s : Invariants × List Violation) (v : NodeView) : Prop :=
  v.up = true → ∀ e ∈ v.log.entries,
    (cuts = false → s.1.Matched s.2 e) ∧ (e.index ≤ v.commitIndex → s.1.Settled s.2 e)

variable {cuts : Bool} {t : NodeTrack} {v}

theorem Covers.mono (covers : Covers cuts s t v) (grows : Extends s s') : Covers cuts s' t v where
  matched whole :=
    ⟨(covers.matched whole).1, fun e member low => ((covers.matched whole).2 e member low).mono grows⟩
  bounds := covers.bounds
  settled e member low := (covers.settled e member low).mono grows

theorem Seen.mono (seen : Seen cuts s v) (grows : Extends s s') : Seen cuts s' v := fun up e member =>
  ⟨fun whole => ((seen up e member).1 whole).mono grows, fun low => ((seen up e member).2 low).mono grows⟩

-- With the watermarks at zero nothing is claimed.
theorem Covers.zero (sound : v.Sound) (marks : t.checkedUpto = 0 ∧ t.committedChecked = 0) : Covers cuts s t v := by
  have above : ∀ e ∈ v.log.entries, 0 < e.index := fun e member =>
    (Nat.zero_le _).trans_lt (sound.contiguous.get_of_mem member).2.1
  refine ⟨fun _ => ⟨marks.1 ▸ Nat.zero_le _, fun e member low => ?_⟩, marks.2 ▸ ⟨Nat.zero_le _, Nat.zero_le _⟩,
    fun e member low => ?_⟩
  all_goals
    have := above e member
    omega

theorem refresh_same (t : NodeTrack) (v : NodeView) :
    (t.refresh v).truncations = v.truncations ∧ (t.refresh v).incarnation = v.incarnation := by
  simp only [NodeTrack.refresh]
  split
  · exact ⟨rfl, trivial⟩
  · next steady =>
    rw [not_or, not_not, not_not] at steady
    exact ⟨steady.1, trivial⟩

theorem setTrack_spec (s : Invariants × List Violation) (id : NodeId) (t : NodeTrack) :
    let after := (s.1.setTrack id t, s.2)
    Extends s after ∧ after.1.track id = t ∧ ∀ other ≠ id, after.1.track other = s.1.track other := by
  refine ⟨⟨fun _ _ known => known, fun _ _ known => known, List.Subset.refl _⟩, ?_, fun other apart => ?_⟩
  · simp [track, setTrack]
  · simp [track, setTrack, Function.update_of_ne apart]

theorem track_eq {inv inv' : Invariants} (nodes : inv'.nodes = inv.nodes) (id : NodeId) :
    inv'.track id = inv.track id := by
  rw [track, nodes, track]

theorem checkNode_spec (inv : Invariants) (found : List Violation) (sound : v.up = true → v.Sound)
    (covers : v.up = true → Covers cuts (inv, found) ((inv.track v.id).refresh v) v) :
    let node := inv.checkNode debug time v
    let after := (node.1, found ++ node.2)
    Extends (inv, found) after ∧ (∀ id ≠ v.id, after.1.track id = inv.track id) ∧ Current cuts after v ∧
      Seen cuts after v := by
  have same := refresh_same (inv.track v.id) v
  unfold checkNode
  dsimp only
  by_cases up : v.up = true
  · rw [if_neg (not_not.mpr up)]
    have books : SameBooks inv (if v.role = .leader then inv.checkLeader time v else (inv, [])).1 := by
      split
      · exact checkLeader_books time v inv
      · exact ⟨rfl, rfl, rfl⟩
    generalize (if v.role = .leader then inv.checkLeader time v else (inv, [])) = leading at books ⊢
    have known := covers up
    generalize (inv.track v.id).refresh v = t at known same ⊢
    obtain ⟨base, nodes₁, mark, matched⟩ :=
      logMatching_spec debug time v leading.1 t.checkedUpto (sound up).contiguous
    generalize leading.1.logMatching debug time v t.checkedUpto = matching at base nodes₁ mark matched ⊢
    obtain ⟨grows₂, nodes₂, bounds, settled⟩ :=
      committedEntries_spec debug time v matching.1.1 t.committedChecked (sound up).contiguous (sound up).snapshot
        known.bounds.1 known.bounds.2
    generalize matching.1.1.committedEntries debug time v t.committedChecked = committed
      at grows₂ nodes₂ bounds settled ⊢
    obtain ⟨grows₃, nodes₃⟩ := appliedEntries_spec debug time v committed.1.1 t.appliedChecked
    generalize committed.1.1.appliedEntries debug time v t.appliedChecked = applied at grows₃ nodes₃ ⊢
    generalize termDurability time v t.actedTerm ++ structuralSanity time v ++
      commitMonotonicity time v _ t.commitIndex ++ commitRule time v _ t.commitIndex = volatile
    have inOrder : found ++ (volatile ++ leading.2 ++ matching.1.2 ++ committed.1.2 ++ applied.1.2) =
        found ++ (volatile ++ leading.2) ++ matching.1.2 ++ committed.1.2 ++ applied.1.2 := by
      simp only [List.append_assoc]
    rw [inOrder]
    have led : Extends (inv, found) (leading.1, found ++ (volatile ++ leading.2)) := by
      refine ⟨fun pair cmd known => ?_, fun index rec known => ?_, List.subset_append_left _ _⟩
      · rwa [books.entries]
      · rwa [books.committed]
    generalize found ++ (volatile ++ leading.2) = before at led
    obtain ⟨last, mine, others⟩ :=
      setTrack_spec (applied.1.1, before ++ matching.1.2 ++ committed.1.2 ++ applied.1.2) v.id
        { t with
          checkedUpto := matching.2
          committedChecked := committed.2
          appliedChecked := applied.2
          commitIndex := v.commitIndex }
    dsimp only at last mine others
    generalize applied.1.1.setTrack v.id _ = final at last mine others ⊢
    have late := (grows₃.after (before ++ matching.1.2 ++ committed.1.2)).trans last
    have later := (grows₂.after (before ++ matching.1.2)).trans late
    have grows := (led.trans (base.after before)).trans later
    generalize before ++ matching.1.2 ++ committed.1.2 ++ applied.1.2 = all at late later grows ⊢
    have allMatched (whole : cuts = false) (e : Entry) (member : e ∈ v.log.entries) : final.Matched all e := by
      obtain fresh | low := Nat.lt_or_ge t.checkedUpto e.index
      · exact ((matched e member fresh).mono (.behind _ before)).mono later
      · exact ((known.matched whole).2 e member low).mono grows
    have allSettled (e : Entry) (member : e ∈ v.log.entries) (low : e.index ≤ v.commitIndex) :
        final.Settled all e := by
      obtain fresh | old := Nat.lt_or_ge t.committedChecked e.index
      · exact ((settled e member fresh low).mono (.behind _ _)).mono late
      · exact (known.settled e member old).mono grows
    refine ⟨grows, fun id apart => ?_, ⟨?_, fun _ => ⟨sound up, ?_⟩, fun off => absurd up (by simp [off])⟩,
      fun _ e member => ⟨fun whole => allMatched whole e member, allSettled e member⟩⟩
    · exact (others id apart).trans (track_eq (nodes₃.trans (nodes₂.trans (nodes₁.trans books.nodes))) id)
    · rw [mine]
      exact same
    · rw [mine]
      refine ⟨fun whole => ⟨mark (known.matched whole).1, fun e member _ => allMatched whole e member⟩, bounds,
        fun e member low => allSettled e member ?_⟩
      -- what is left of the log lies above the snapshot
      have above := ((sound up).contiguous.get_of_mem member).2.1
      have := (sound up).snapshot
      have := bounds.2
      dsimp only at low
      omega
  · rw [if_pos up]
    rw [List.append_nil]
    obtain ⟨grows, mine, others⟩ := setTrack_spec (inv, found) v.id ((inv.track v.id).refresh v).forget
    refine ⟨grows, others, ⟨?_, ?_, ?_⟩, ?_⟩
    · rwa [mine]
    · exact fun on => absurd on up
    · intro _
      rw [mine]
      exact ⟨rfl, rfl⟩
    · exact fun on => absurd on up

end Checks

variable {cuts : Bool} {v v' : NodeView}

-- Nothing below the watermarks has changed, unless they are reset.
theorem Current.covers (current : Current cuts s v) (evolves : v.Evolves cuts v') (up' : v'.up = true) :
    Covers cuts s ((s.1.track v'.id).refresh v') v' := by
  have sound' := evolves.sound up'
  rw [evolves.id]
  have same := current.same
  simp only [NodeTrack.refresh]
  split
  · exact .zero sound' ⟨rfl, rfl⟩
  · next steady =>
    rw [not_or, not_not, not_not] at steady
    cases up : v.up with
    | false => exact .zero sound' (current.down up)
    | true =>
      obtain ⟨sound, known⟩ := current.up up
      have steps := evolves.steps up up' (steady.2.symm.trans same.2)
      have counted : v'.truncations = v.truncations := steady.1.symm.trans same.1
      have settled : (s.1.track v.id).committedChecked ≤ v.logState.settled := by
        have bound := known.bounds.2
        rwa [sound.snapshot] at bound
      obtain ⟨keeps, grown⟩ := keeps_of_steps steps counted sound.contiguous known.bounds.1 (.inr settled)
      refine ⟨fun whole => ?_, ⟨keeps.reaches, ?_⟩, fun e member low => known.settled e (keeps.old e member low) low⟩
      · obtain ⟨below, matched⟩ := known.matched whole
        obtain ⟨keeps, -⟩ := keeps_of_steps steps counted sound.contiguous below (.inl whole)
        exact ⟨keeps.reaches, fun e member low => matched e (keeps.old e member low) low⟩
      · rw [sound'.snapshot]
        exact settled.trans grown

structure SameMarks (t t' : NodeTrack) : Prop where
  checked : t'.checkedUpto = t.checkedUpto
  committed : t'.committedChecked = t.committedChecked
  truncations : t'.truncations = t.truncations
  incarnation : t'.incarnation = t.incarnation

theorem Current.mono (current : Current cuts s v) (grows : Extends s s')
    (same : SameMarks (s.1.track v.id) (s'.1.track v.id)) : Current cuts s' v where
  same := ⟨same.truncations.trans current.same.1, same.incarnation.trans current.same.2⟩
  up on := by
    obtain ⟨sound, known⟩ := current.up on
    obtain ⟨matched, bounds, settled⟩ := known.mono grows
    rw [← same.checked] at matched
    rw [← same.committed] at bounds settled
    exact ⟨sound, matched, bounds, settled⟩
  down off := ⟨same.checked.trans (current.down off).1, same.committed.trans (current.down off).2⟩

theorem noteSent_spec (s : Invariants × List Violation) (src : NodeId) (term : Nat) :
    let after := (s.1.noteSent src term, s.2)
    Extends s after ∧ ∀ id, SameMarks (s.1.track id) (after.1.track id) := by
  obtain ⟨grows, mine, others⟩ :=
    setTrack_spec s src { s.1.track src with actedTerm := max (s.1.track src).actedTerm term }
  refine ⟨grows, fun id => ?_⟩
  by_cases same : id = src
  · rw [same, noteSent]
    dsimp only at mine ⊢
    rw [mine]
    exact ⟨rfl, rfl, rfl, rfl⟩
  · have untouched := others id same
    rw [noteSent]
    dsimp only at untouched ⊢
    rw [untouched]
    exact ⟨rfl, rfl, rfl, rfl⟩

-- What has been found before does not matter to what a look at the nodes finds.
theorem observe_found (debug : Command → String) (time : Nanos) (views : List NodeView) (inv : Invariants)
    (before found : List Violation) :
    let look (s : Invariants × List Violation) (v : NodeView) :=
      ((s.1.checkNode debug time v).1, s.2 ++ (s.1.checkNode debug time v).2)
    views.foldl look (inv, before ++ found) =
      ((views.foldl look (inv, found)).1, before ++ (views.foldl look (inv, found)).2) := by
  induction views generalizing inv found with
  | nil => rfl
  | cons v rest ih =>
    simp only [List.foldl_cons]
    rw [List.append_assoc]
    exact ih _ _

-- A look at every node.
theorem observe_spec (debug : Command → String) (time : Nanos) (views : List NodeView)
    (s : Invariants × List Violation) (ids : (views.map NodeView.id).Nodup)
    (sound : ∀ v ∈ views, v.up = true → v.Sound)
    (covers : ∀ v ∈ views, v.up = true → Covers cuts s ((s.1.track v.id).refresh v) v) :
    let after := views.foldl (fun s v =>
      let node := s.1.checkNode debug time v
      (node.1, s.2 ++ node.2)) s
    Extends s after ∧ (∀ id, (∀ v ∈ views, id ≠ v.id) → after.1.track id = s.1.track id) ∧
      ∀ v ∈ views, Current cuts after v ∧ Seen cuts after v := by
  induction views generalizing s with
  | nil => exact ⟨.refl s, fun _ _ => rfl, nofun⟩
  | cons v rest ih =>
    obtain ⟨fresh, ids⟩ := List.nodup_cons.mp ids
    have apart : ∀ w ∈ rest, w.id ≠ v.id := fun w here same => fresh (List.mem_map.mpr ⟨w, here, same⟩)
    obtain ⟨grows, others, current, seen⟩ := checkNode_spec debug time s.1 s.2 (sound v List.mem_cons_self)
      (covers v List.mem_cons_self)
    obtain ⟨later, untouched, all⟩ := ih ((s.1.checkNode debug time v).1, s.2 ++ (s.1.checkNode debug time v).2) ids
      (fun w here => sound w (List.mem_cons_of_mem _ here)) (fun w here up => by
        rw [others w.id (apart w here)]
        exact (covers w (List.mem_cons_of_mem _ here) up).mono grows)
    refine ⟨grows.trans later, fun id elsewhere => ?_, List.forall_mem_cons.mpr ⟨⟨?_, seen.mono later⟩, all⟩⟩
    · rw [List.forall_mem_cons] at elsewhere
      exact (untouched id elsewhere.2).trans (others id elsewhere.1)
    · have kept := untouched v.id fun w here => (apart w here).symm
      exact current.mono later (kept ▸ ⟨rfl, rfl, rfl, rfl⟩)

def Follows (cuts : Bool) : Option (List NodeView) → List NodeView → Prop
  | none, views => (views.map NodeView.id).Nodup ∧ ∀ v ∈ views, v.up = true → v.Sound
  | some before, views => List.Forall₂ (NodeView.Evolves cuts) before views

/-- Everything the driver has seen, the newest first, and what the checker knows and has found by then. -/
inductive Observed (debug : Command → String) (cuts : Bool) :
    List (List NodeView) → Invariants × List Violation → Prop where
  | new : Observed debug cuts [] ({}, [])
  | noteSent {history : List (List NodeView)} {s : Invariants × List Violation} (run : Observed debug cuts history s)
      (src : NodeId) (term : Nat) : Observed debug cuts history (s.1.noteSent src term, s.2)
  | observe {history : List (List NodeView)} {s : Invariants × List Violation} (run : Observed debug cuts history s)
      (time : Nanos) (views : List NodeView) (follows : Follows cuts history.head? views) :
      Observed debug cuts (views :: history)
        ((s.1.observe debug time views).1, s.2 ++ (s.1.observe debug time views).2)

theorem evolves_each {before views : List NodeView} (evolves : List.Forall₂ (NodeView.Evolves cuts) before views) :
    views.map NodeView.id = before.map NodeView.id ∧ ∀ v ∈ views, ∃ w ∈ before, w.Evolves cuts v := by
  induction evolves with
  | nil => exact ⟨rfl, nofun⟩
  | cons step _ ih =>
    obtain ⟨ids, each⟩ := ih
    refine ⟨congrArg₂ List.cons step.id ids,
      List.forall_mem_cons.mpr ⟨⟨_, List.mem_cons_self, step⟩, fun v here => ?_⟩⟩
    obtain ⟨w, here', step'⟩ := each v here
    exact ⟨w, List.mem_cons_of_mem _ here', step'⟩

structure Complete (cuts : Bool) (history : List (List NodeView)) (s : Invariants × List Violation) : Prop where
  fresh : history = [] → ∀ id, (s.1.track id).checkedUpto = 0 ∧ (s.1.track id).committedChecked = 0
  ids : ∀ views ∈ history.head?, (views.map NodeView.id).Nodup
  current : ∀ views ∈ history.head?, ∀ v ∈ views, Current cuts s v
  seen : ∀ views ∈ history, ∀ v ∈ views, Seen cuts s v

variable {history : List (List NodeView)}

theorem Complete.ready (complete : Complete cuts history s) {views : List NodeView}
    (follows : Follows cuts history.head? views) :
    (views.map NodeView.id).Nodup ∧ (∀ v ∈ views, v.up = true → v.Sound) ∧
      ∀ v ∈ views, v.up = true → Covers cuts s ((s.1.track v.id).refresh v) v := by
  cases history with
  | nil =>
    obtain ⟨ids, sound⟩ := follows
    refine ⟨ids, sound, fun v here up => .zero (sound v here up) ?_⟩
    have marks := complete.fresh rfl v.id
    simp only [NodeTrack.refresh]
    split
    · exact ⟨rfl, rfl⟩
    · exact marks
  | cons before rest =>
    have evolves : List.Forall₂ (NodeView.Evolves cuts) before views := follows
    obtain ⟨ids, each⟩ := evolves_each evolves
    refine ⟨ids ▸ complete.ids before rfl, fun v here => ?_, fun v here up => ?_⟩
    · obtain ⟨w, -, step⟩ := each v here
      exact step.sound
    · obtain ⟨w, here', step⟩ := each v here
      exact (complete.current before rfl w here').covers step up

theorem Observed.complete {debug : Command → String} (run : Observed debug cuts history s) :
    Complete cuts history s := by
  induction run with
  | new => exact ⟨fun _ _ => ⟨rfl, rfl⟩, nofun, nofun, nofun⟩
  | noteSent run src term ih =>
    next history s =>
    obtain ⟨grows, marks⟩ := noteSent_spec s src term
    refine ⟨fun none id => ?_, ih.ids, fun views here v member => ?_, fun views here v member => ?_⟩
    · obtain ⟨checked, committed⟩ := ih.fresh none id
      exact ⟨(marks id).checked.trans checked, (marks id).committed.trans committed⟩
    · exact (ih.current views here v member).mono grows (marks v.id)
    · exact (ih.seen views here v member).mono grows
  | observe run time views follows ih =>
    next history s =>
    obtain ⟨ids, sound, covers⟩ := ih.ready follows
    have counted : Extends s ({ s.1 with checks := s.1.checks + 1 }, s.2) :=
      ⟨fun _ _ known => known, fun _ _ known => known, List.Subset.refl _⟩
    have looked := observe_spec debug time views ({ s.1 with checks := s.1.checks + 1 }, s.2) ids sound
      fun v here up => (covers v here up).mono counted
    have found := observe_found debug time views { s.1 with checks := s.1.checks + 1 } s.2 []
    rw [List.append_nil] at found
    dsimp only at looked found
    rw [found, ← Invariants.observe] at looked
    obtain ⟨grows, -, each⟩ := looked
    refine ⟨nofun, fun views' here => ?_, fun views' here v member => ?_, List.forall_mem_cons.mpr ⟨?_, ?_⟩⟩
    · obtain rfl := Option.some.inj here
      exact ids
    · obtain rfl := Option.some.inj here
      exact (each v member).1
    · exact fun v member => (each v member).2
    · exact fun views' here v member => (ih.seen views' here v member).mono (counted.trans grows)

/-- A live log and one seen by now, of any live node, give one index and term different commands. -/
def Mismatch (now : List NodeView) (history : List (List NodeView)) : Prop :=
  ∃ v ∈ now, ∃ views ∈ now :: history, ∃ w ∈ views, v.up = true ∧ w.up = true ∧
    ∃ e ∈ v.log.entries, ∃ e' ∈ w.log.entries, e.index = e'.index ∧ e.term = e'.term ∧ e.cmd ≠ e'.cmd

/-- A committed entry of a live log is not the one that has been seen committed there. -/
def CommittedChanged (now : List NodeView) (history : List (List NodeView)) : Prop :=
  ∃ v ∈ now, ∃ views ∈ now :: history, ∃ w ∈ views, v.up = true ∧ w.up = true ∧
    ∃ e ∈ v.log.entries, ∃ e' ∈ w.log.entries, e.index = e'.index ∧
      (e.index ≤ v.commitIndex ∧ e'.index ≤ w.commitIndex) ∧ (e.term ≠ e'.term ∨ e.cmd ≠ e'.cmd)

/-- As long as no snapshot replaces a log that reaches beyond it, both are reported. A changed committed entry
is reported even then. -/
theorem observe_misses_nothing {debug : Command → String} {now : List NodeView}
    (run : Observed debug cuts (now :: history) s) :
    (cuts = false → Mismatch now history → Reported "log_matching" s.2) ∧
      (CommittedChanged now history → Reported "committed_entry_changed" s.2) := by
  have seen := run.complete.seen
  constructor
  · rintro whole ⟨v, here, views, past, w, there, up, up', e, member, e', member', index, term, differ⟩
    obtain reported | known := (seen now List.mem_cons_self v here up e member).1 whole
    · exact reported
    obtain reported | known' := (seen views past w there up' e' member').1 whole
    · exact reported
    rw [index, term, known'] at known
    exact absurd (Option.some.inj known).symm differ
  · rintro ⟨v, here, views, past, w, there, up, up', e, member, e', member', index, ⟨low, low'⟩, differ⟩
    obtain reported | ⟨rec, known, same⟩ := (seen now List.mem_cons_self v here up e member).2 low
    · exact reported
    obtain reported | ⟨rec', known', same'⟩ := (seen views past w there up' e' member').2 low'
    · exact reported
    rw [index, known'] at known
    obtain rfl := Option.some.inj known
    obtain term | cmd := differ
    · exact absurd (same.1.symm.trans same'.1) term
    · exact absurd (same.2.symm.trans same'.2) cmd

def viewOf (id : NodeId) (log : RaftLog) (commitIndex : Nat) : NodeView :=
  { id, up := true, role := .follower, term := 2, log, commitIndex, lastApplied := commitIndex,
    durableIndex := log.snapshotIndex, incarnation := 1, truncations := 0, snapshotIndex := log.snapshotIndex,
    members := [0, 1] }

def filler (term index : Nat) : Entry := { term, index, cmd := .noop }

def leaderLog : RaftLog :=
  .fromSnapshot 0 0
    [filler 1 1, filler 2 2, { term := 2, index := 3, cmd := { client := 7, seq := 1, op := .put "k" "v" } }]

theorem viewOf_sound {id : NodeId} {log : RaftLog} {commitIndex : Nat} (contiguous : log.Contiguous) :
    (viewOf id log commitIndex).Sound :=
  ⟨contiguous, rfl⟩

theorem viewOf_evolves {cuts : Bool} {id : NodeId} {log log' : RaftLog} {commitIndex commitIndex' : Nat}
    (contiguous : log'.Contiguous)
    (steps : Relation.ReflTransGen (LogStep cuts) (viewOf id log commitIndex).logState
      (viewOf id log' commitIndex').logState) :
    (viewOf id log commitIndex).Evolves cuts (viewOf id log' commitIndex') :=
  ⟨rfl, fun _ => viewOf_sound contiguous, fun _ _ _ => steps⟩

theorem fromSnapshot_contiguous {index term : Nat} {entries : List Entry}
    (sound : RaftLog.AppendsOk { snapshotIndex := index, snapshotTerm := term } entries) :
    (RaftLog.fromSnapshot index term entries).Contiguous := by
  refine RaftLog.Contiguous.appendAll (fun k e found => ?_) sound
  cases found

theorem leaderLog_contiguous : leaderLog.Contiguous :=
  fromSnapshot_contiguous ⟨by decide, by decide, by decide, trivial⟩

theorem observe_misses_nothing_appended :
    let shortLog := RaftLog.fromSnapshot 0 0 [filler 1 1, filler 2 2]
    let looks := ({} : Invariants).observe (fun _ => "") 0 [viewOf 0 leaderLog 3, viewOf 1 shortLog 0]
    let found := looks.2 ++
      (looks.1.observe (fun _ => "") 1 [viewOf 0 leaderLog 3, viewOf 1 (shortLog.append (filler 2 3)) 3]).2
    Reported "log_matching" found ∧ Reported "committed_entry_changed" found := by
  intro shortLog looks found
  have contiguous : shortLog.Contiguous := fromSnapshot_contiguous ⟨by decide, by decide, trivial⟩
  have first := @Observed.observe (fun _ => "") false _ _ .new 0 [viewOf 0 leaderLog 3, viewOf 1 shortLog 0] <| by
    refine ⟨by decide, fun v here _ => ?_⟩
    obtain rfl | rfl := List.mem_pair.mp here
    · exact viewOf_sound leaderLog_contiguous
    · exact viewOf_sound contiguous
  have second := Observed.observe first 1 [viewOf 0 leaderLog 3, viewOf 1 (shortLog.append (filler 2 3)) 3] <| by
    refine .cons (viewOf_evolves leaderLog_contiguous .refl) (.cons (viewOf_evolves ?_ ?_) .nil)
    · exact contiguous.append (by decide)
    · exact (Relation.ReflTransGen.single (.append _ (filler 2 3) (by decide))).tail (.commit _ 3 (by decide))
  have complete := observe_misses_nothing second
  constructor
  · exact complete.1 rfl ⟨_, List.mem_cons_self, _, List.mem_cons_self, _, List.mem_cons_of_mem _ List.mem_cons_self,
      rfl, rfl, _, List.mem_cons_of_mem _ (List.mem_cons_of_mem _ List.mem_cons_self), filler 2 3,
      List.mem_cons_of_mem _ (List.mem_cons_of_mem _ List.mem_cons_self), rfl, rfl, by decide⟩
  · exact complete.2 ⟨_, List.mem_cons_self, _, List.mem_cons_self, _, List.mem_cons_of_mem _ List.mem_cons_self,
      rfl, rfl, _, List.mem_cons_of_mem _ (List.mem_cons_of_mem _ List.mem_cons_self), filler 2 3,
      List.mem_cons_of_mem _ (List.mem_cons_of_mem _ List.mem_cons_self), rfl, ⟨by decide, by decide⟩,
      .inr (by decide)⟩

def staleLog : RaftLog := .fromSnapshot 0 0 [filler 1 1, filler 1 2, filler 1 3]

def startedOver : RaftLog := (staleLog.adopt 2 2).append (filler 2 3)

theorem staleLog_contiguous : staleLog.Contiguous :=
  fromSnapshot_contiguous ⟨by decide, by decide, by decide, trivial⟩

theorem startedOver_contiguous : startedOver.Contiguous :=
  (staleLog_contiguous.adopt 2 2).append (by decide)

/-- What is overlooked: by the third event the two nodes disagree about entry 3 of term 2. -/
theorem startedOver_overlooked :
    ¬ ∀ (debug : Command → String) (now : List NodeView) (history : List (List NodeView))
        (s : Invariants × List Violation),
      Observed debug true (now :: history) s →
        (Mismatch now history → Reported "log_matching" s.2) ∧
          (CommittedChanged now history → Reported "committed_entry_changed" s.2) := by
  intro promised
  have first := @Observed.observe (fun _ => "") true _ _ .new 0 [viewOf 0 leaderLog 0, viewOf 1 staleLog 0] <| by
    refine ⟨by decide, fun v here _ => ?_⟩
    obtain rfl | rfl := List.mem_pair.mp here
    · exact viewOf_sound leaderLog_contiguous
    · exact viewOf_sound staleLog_contiguous
  have second := Observed.observe first 1 [viewOf 0 leaderLog 0, viewOf 1 (staleLog.adopt 2 2) 2] <| by
    refine .cons (viewOf_evolves leaderLog_contiguous .refl) (.cons (viewOf_evolves ?_ (.single ?_)) .nil)
    · exact staleLog_contiguous.adopt 2 2
    · exact .adopt (viewOf 1 staleLog 0).logState 2 2 (.inr (by decide)) (.inl rfl)
  have third := Observed.observe second 2 [viewOf 0 leaderLog 0, viewOf 1 startedOver 2] <| by
    refine .cons (viewOf_evolves leaderLog_contiguous .refl)
      (.cons (viewOf_evolves startedOver_contiguous (.single ?_)) .nil)
    exact .append (viewOf 1 (staleLog.adopt 2 2) 2).logState (filler 2 3) (by decide)
  -- the entries of the two logs that disagree are 3 of term 2
  have reported := (promised _ _ _ _ third).1
    ⟨_, List.mem_cons_self, _, List.mem_cons_self, _, List.mem_cons_of_mem _ List.mem_cons_self, rfl, rfl,
      _, List.mem_cons_of_mem _ (List.mem_cons_of_mem _ List.mem_cons_self), filler 2 3, List.mem_cons_self, rfl, rfl,
      by decide⟩
  obtain ⟨x, here, -⟩ := reported
  revert here
  exact List.not_mem_nil

end Invariants

end SimKv
