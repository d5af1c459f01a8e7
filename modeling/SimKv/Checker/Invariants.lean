import Mathlib.Logic.Function.Basic
import SimKv.Checker.Linearizability
import SimKv.Raft.State

set_option autoImplicit false

/-!
# The invariants checker

`checker::invariants`: after every event, what the driver sees of the nodes is compared with what was seen
before. Each log is looked at from a watermark on; a truncation or a new incarnation resets it.
-/

namespace SimKv

open Std

/-- Something that must never happen, having happened. -/
structure Violation where
  kind : String
  time : Nanos
  node : Option NodeId
  detail : String
  deriving DecidableEq, Repr

/-- A read-only look at one node, as the driver sees it. -/
structure NodeView where
  id : NodeId
  up : Bool
  role : Role
  term : Nat
  log : RaftLog
  commitIndex : Nat
  lastApplied : Nat
  durableIndex : Nat
  -- Bumped on every restart.
  incarnation : Nat
  -- Count of log truncations this node has performed.
  truncations : Nat
  snapshotIndex : Nat
  members : List NodeId
  deriving DecidableEq, Repr

structure NodeTrack where
  checkedUpto : Nat := 0
  committedChecked : Nat := 0
  appliedChecked : Nat := 0
  truncations : Nat := 0
  incarnation : Nat := 0
  commitIndex : Nat := 0
  actedTerm : Nat := 0
  deriving DecidableEq, Repr

structure CommittedRec where
  term : Nat
  cmd : Command
  -- The term of the first node observed reporting this index committed.
  committedInTerm : Nat
  members : List NodeId
  deriving DecidableEq, Repr

/-- The maps that are never walked in order are functions. -/
structure Invariants where
  leaderByTerm : Nat → Option NodeId := fun _ => none
  -- By index and term: the command that this pair must always name.
  entries : Nat × Nat → Option Command := fun _ => none
  committed : ExtTreeMap Nat CommittedRec := ∅
  leaderVerified : NodeId × Nat → Option Nat := fun _ => none
  maxCommitted : Nat := 0
  applied : Nat → Option (Nat × Command) := fun _ => none
  nodes : NodeId → Option NodeTrack := fun _ => none
  leaderLogLen : NodeId × Nat → Option Nat := fun _ => none
  configChecked : NodeId × Nat → Option Nat := fun _ => none
  checks : Nat := 0

namespace NodeTrack

variable (t : NodeTrack)

def refresh (v : NodeView) : NodeTrack :=
  let t := if t.truncations ≠ v.truncations ∨ t.incarnation ≠ v.incarnation then
      { t with truncations := v.truncations, checkedUpto := 0, committedChecked := 0, appliedChecked := 0 }
    else t
  { t with incarnation := v.incarnation }

def forget : NodeTrack := { t with commitIndex := 0, checkedUpto := 0, committedChecked := 0, appliedChecked := 0 }

end NodeTrack

namespace Invariants

variable (inv : Invariants)

def track (id : NodeId) : NodeTrack := (inv.nodes id).getD {}

def setTrack (id : NodeId) (t : NodeTrack) : Invariants := { inv with nodes := Function.update inv.nodes id (some t) }

def noteSent (src : NodeId) (term : Nat) : Invariants :=
  let t := inv.track src
  inv.setTrack src { t with actedTerm := max t.actedTerm term }

/-- Visit the entries from `index` on, at most `count` of them, as far as there are any. Also the last index
that was visited. -/
def walk {σ : Type} (log : RaftLog) (visit : σ → Nat → Entry → σ) : (count index : Nat) → σ → σ × Nat
  | 0, index, s => (s, index - 1)
  | count + 1, index, s =>
    match log.get index with
    | some e => walk log visit count (index + 1) (visit s index e)
    | none => (s, index - 1)

section Checks

/-! How the standard library prints a command with `{:?}` is a parameter of the texts. -/

variable (debug : Command → String) (time : Nanos) (v : NodeView)

def violation (kind detail : String) : Violation := { kind, time, node := some v.id, detail }

def complain (violated : Bool) (kind detail : String) : List Violation :=
  if violated then [violation time v kind detail] else []

def termDurability (actedTerm : Nat) : List Violation :=
  complain time v (v.term < actedTerm) "term_regression"
    ("node is at term " ++ toString v.term ++ " but has already sent messages in term " ++ toString actedTerm)

def structuralSanity : List Violation :=
  complain time v (v.log.lastIndex < v.commitIndex) "commit_beyond_log"
    ("commit index " ++ toString v.commitIndex ++ " exceeds last log index " ++ toString v.log.lastIndex) ++
  complain time v (v.commitIndex < v.lastApplied) "applied_beyond_commit"
    ("applied " ++ toString v.lastApplied ++ " but only committed " ++ toString v.commitIndex) ++
  complain time v (v.log.lastIndex < v.durableIndex) "durable_beyond_log"
    ("claims " ++ toString v.durableIndex ++ " durable with a log of " ++ toString v.log.lastIndex)

def commitMonotonicity (restarted : Bool) (prevCommit : Nat) : List Violation :=
  complain time v (!restarted && v.commitIndex < prevCommit) "commit_regression"
    ("commit index went from " ++ toString prevCommit ++ " to " ++ toString v.commitIndex)

def commitRule (restarted : Bool) (prevCommit : Nat) : List Violation :=
  if v.role = .leader ∧ prevCommit < v.commitIndex ∧ ¬ restarted then
    match v.log.termAt v.commitIndex with
    | some t =>
      complain time v (t ≠ v.term) "commit_of_foreign_term"
        ("leader of term " ++ toString v.term ++ " advanced commit to index " ++ toString v.commitIndex ++
          ", whose entry is from                              term " ++ toString t)
    | none => []
  else []

def changesMembers (index : Nat) : Bool := (v.log.get index).any fun e => e.cmd.members.isSome

def configChange (index : Nat) : List Violation :=
  complain time v (v.log.termAt v.commitIndex ≠ some v.term) "config_before_term_commit"
    ("leader of term " ++ toString v.term ++ " proposed a membership change at index " ++ toString index ++
      " before committing any entry of its term (commit index " ++ toString v.commitIndex ++ ")") ++
  complain time v ((List.range' (v.commitIndex + 1) (index - (v.commitIndex + 1))).any (changesMembers v))
    "concurrent_config_change"
    ("membership change at index " ++ toString index ++ " proposed while an earlier one was still uncommitted")

def membershipRules : Invariants × List Violation :=
  let seen := (inv.configChecked (v.id, v.term)).getD 0
  let first := max (seen + 1) v.log.firstIndex
  let changes := (List.range' first (v.log.lastIndex + 1 - first)).filter fun index =>
    (v.log.get index).any fun e => e.term = v.term && e.cmd.members.isSome
  ({ inv with configChecked := Function.update inv.configChecked (v.id, v.term) (some (changes.getLast?.getD seen)) },
    changes.flatMap (configChange time v))

def electionSafety : Invariants × List Violation :=
  match inv.leaderByTerm v.term with
  | some other =>
    if other ≠ v.id then
      (inv, [violation time v "election_safety"
        ("term " ++ toString v.term ++ " already had leader n" ++ toString other)])
    else (inv, [])
  | none => ({ inv with leaderByTerm := Function.update inv.leaderByTerm v.term (some v.id) }, [])

def leaderAppendOnly : Invariants × List Violation :=
  let seen := (inv.leaderLogLen (v.id, v.term)).getD 0
  ({ inv with
      leaderLogLen := Function.update inv.leaderLogLen (v.id, v.term) (some (max seen v.log.lastIndex)) },
    complain time v (v.log.lastIndex < seen) "leader_append_only"
      ("leader log shrank from " ++ toString seen ++ " to " ++ toString v.log.lastIndex ++ " in term " ++
        toString v.term))

def completenessGo : List (Nat × CommittedRec) → Nat → Nat × List Violation
  | [], checked => (checked, [])
  | (index, rec) :: rest, checked =>
    if v.term ≤ rec.committedInTerm ∨ index ≤ v.snapshotIndex then completenessGo rest index
    else if v.log.lastIndex < index then
      (checked, [violation time v "leader_completeness"
        ("leader of term " ++ toString v.term ++ " is missing index " ++ toString index ++ ", committed in term " ++
          toString rec.committedInTerm ++ " (log ends at " ++ toString v.log.lastIndex ++ ")")])
    else
      match v.log.get index with
      | some e =>
        if e.term ≠ rec.term ∨ e.cmd ≠ rec.cmd then
          (checked, [violation time v "leader_completeness"
            ("leader of term " ++ toString v.term ++ " has a different entry at index " ++ toString index ++
              ", committed in term " ++ toString rec.committedInTerm ++ ": term " ++ toString e.term ++ " vs " ++
              toString rec.term)])
        else completenessGo rest index
      -- the source asserts that an index within the log has an entry
      | none => (checked, [])

def leaderCompleteness : Invariants × List Violation :=
  let verified := (inv.leaderVerified (v.id, v.term)).getD 0
  let result := completenessGo time v (inv.committed.toList.filter fun entry => verified + 1 ≤ entry.1) verified
  ({ inv with leaderVerified := Function.update inv.leaderVerified (v.id, v.term) (some result.1) }, result.2)

def checkLeader : Invariants × List Violation :=
  let rules := inv.membershipRules time v
  let election := rules.1.electionSafety time v
  let append := election.1.leaderAppendOnly time v
  let complete := append.1.leaderCompleteness time v
  (complete.1, rules.2 ++ election.2 ++ append.2 ++ complete.2)

def matchEntry (s : Invariants × List Violation) (e : Entry) : Invariants × List Violation :=
  match s.1.entries (e.index, e.term) with
  | some known =>
    if known ≠ e.cmd then
      (s.1, s.2 ++ [violation time v "log_matching"
        ("index " ++ toString e.index ++ " term " ++ toString e.term ++ " holds two different commands: " ++
          debug known ++ " vs " ++ debug e.cmd)])
    else s
  | none => ({ s.1 with entries := Function.update s.1.entries (e.index, e.term) (some e.cmd) }, s.2)

def logMatching (checkedUpto : Nat) : (Invariants × List Violation) × Nat :=
  let fresh := v.log.entries.filter fun e => checkedUpto < e.index
  (fresh.foldl (matchEntry debug time v) (inv, []), (fresh.getLast?.map Entry.index).getD checkedUpto)

def commitEntry (s : Invariants × List Violation) (index : Nat) (e : Entry) : Invariants × List Violation :=
  match s.1.committed[index]? with
  | some rec =>
    if rec.term ≠ e.term ∨ rec.cmd ≠ e.cmd then
      (s.1, s.2 ++ [violation time v "committed_entry_changed"
        ("committed index " ++ toString index ++ " was term " ++ toString rec.term ++ " " ++ debug rec.cmd ++
          ", now term " ++ toString e.term ++ " " ++ debug e.cmd)])
    else s
  | none =>
    ({ s.1 with
        committed := s.1.committed.insert index
          { term := e.term, cmd := e.cmd, committedInTerm := v.term, members := v.members }
        maxCommitted := max s.1.maxCommitted index }, s.2)

def committedEntries (committedChecked : Nat) : (Invariants × List Violation) × Nat :=
  let first := max (committedChecked + 1) (v.snapshotIndex + 1)
  walk v.log (commitEntry debug time v) (v.commitIndex + 1 - first) first (inv, [])

def applyEntry (s : Invariants × List Violation) (index : Nat) (e : Entry) : Invariants × List Violation :=
  match s.1.applied index with
  | some (term, cmd) =>
    if term ≠ e.term ∨ cmd ≠ e.cmd then
      (s.1, s.2 ++ [violation time v "state_machine_safety"
        ("index " ++ toString index ++ " applied as term " ++ toString term ++ " " ++ debug cmd ++
          " elsewhere, but as term " ++ toString e.term ++ " " ++ debug e.cmd ++ " here")])
    else s
  | none => ({ s.1 with applied := Function.update s.1.applied index (some (e.term, e.cmd)) }, s.2)

def appliedEntries (appliedChecked : Nat) : (Invariants × List Violation) × Nat :=
  let first := max (appliedChecked + 1) (v.snapshotIndex + 1)
  walk v.log (applyEntry debug time v) (v.lastApplied + 1 - first) first (inv, [])

def checkNode : Invariants × List Violation :=
  let before := inv.track v.id
  let restarted := before.incarnation ≠ v.incarnation
  let track := before.refresh v
  if ¬ v.up then (inv.setTrack v.id track.forget, [])
  else
    let volatile := termDurability time v track.actedTerm ++ structuralSanity time v ++
      commitMonotonicity time v restarted track.commitIndex ++ commitRule time v restarted track.commitIndex
    let leading := if v.role = .leader then inv.checkLeader time v else (inv, [])
    let matching := leading.1.logMatching debug time v track.checkedUpto
    let committed := matching.1.1.committedEntries debug time v track.committedChecked
    let applied := committed.1.1.appliedEntries debug time v track.appliedChecked
    (applied.1.1.setTrack v.id { track with
        checkedUpto := matching.2
        committedChecked := committed.2
        appliedChecked := applied.2
        commitIndex := v.commitIndex },
      volatile ++ leading.2 ++ matching.1.2 ++ committed.1.2 ++ applied.1.2)

end Checks

def observe (debug : Command → String) (time : Nanos) (views : List NodeView) : Invariants × List Violation :=
  views.foldl (fun s v =>
    let node := s.1.checkNode debug time v
    (node.1, s.2 ++ node.2)) ({ inv with checks := inv.checks + 1 }, [])

end Invariants

end SimKv
