import Mathlib.Data.List.TakeDrop
import SimKv.Codec

set_option autoImplicit false

/-!
# The replicated log

`kvstore::log`: commands, entries and the in-memory log. Terms, indices and
sequence numbers are `u64` in the source and `Nat` here; the encoders wrap them.
-/

namespace SimKv

open Codec

abbrev NodeId := UInt32

def noIndex : Nat := 0

inductive Op where
  | noop
  | get (key : String)
  | put (key value : String)
  | delete (key : String)
  | cas (key : String) (expect : Option String) (value : String)
  | setMembers (members : List NodeId)
  deriving DecidableEq, Repr

namespace Op

def encode : Op → Bytes
  | .noop => Enc.u8 0
  | .get key => Enc.u8 1 ++ Enc.str key
  | .put key value => Enc.u8 2 ++ (Enc.str key ++ Enc.str value)
  | .delete key => Enc.u8 3 ++ Enc.str key
  | .cas key expect value => Enc.u8 4 ++ (Enc.str key ++ (Enc.optStr expect ++ Enc.str value))
  | .setMembers members =>
      Enc.u8 5 ++ (Enc.u32 members.length ++ members.flatMap fun m => Enc.u32 m.toNat)

def decode : Dec Op := do
  match ← Dec.u8 with
  | 0 => return .noop
  | 1 => return .get (← Dec.string)
  | 2 => return .put (← Dec.string) (← Dec.string)
  | 3 => return .delete (← Dec.string)
  | 4 => return .cas (← Dec.string) (← Dec.optString) (← Dec.string)
  | 5 => do
    let count ← Dec.u32
    if count = 0 ∨ 256 < count then throw .tooLong
    return .setMembers (← Dec.many (do return UInt32.ofNat (← Dec.u32)) count)
  | tag => throw (.badTag tag)

def key : Op → Option String
  | .noop | .setMembers _ => none
  | .get key | .put key _ | .delete key | .cas key _ _ => some key

end Op

/-- A client operation with the identity that makes retries idempotent. -/
structure Command where
  client : Nat
  seq : Nat
  op : Op
  deriving DecidableEq, Repr

namespace Command

def noop : Command := { client := 2 ^ 32 - 1, seq := 0, op := .noop }

def members (cmd : Command) : Option (List NodeId) :=
  match cmd.op with
  | .setMembers members => some members
  | _ => none

def encode (cmd : Command) : Bytes := Enc.u32 cmd.client ++ (Enc.u64 cmd.seq ++ cmd.op.encode)

def decode : Dec Command := do
  return { client := ← Dec.u32, seq := ← Dec.u64, op := ← Op.decode }

end Command

structure Entry where
  term : Nat
  index : Nat
  cmd : Command
  deriving DecidableEq, Repr

namespace Entry

def encode (e : Entry) : Bytes := Enc.u64 e.term ++ (Enc.u64 e.index ++ e.cmd.encode)

def decode : Dec Entry := do
  return { term := ← Dec.u64, index := ← Dec.u64, cmd := ← Command.decode }

def toRecord (e : Entry) : Bytes :=
  Enc.u32 e.encode.length ++ (crcBytes e.encode ++ e.encode)

end Entry

/-- The in-memory log. `offsets` and `finish` (the source's `end`) place each record
within the log region; they are absolute and survive compaction. -/
structure RaftLog where
  entries : List Entry := []
  offsets : List Nat := []
  finish : Nat := 0
  snapshotIndex : Nat := 0
  snapshotTerm : Nat := 0
  deriving DecidableEq, Repr

namespace RaftLog

variable (log : RaftLog)

def firstIndex : Nat := log.snapshotIndex + 1

def lastIndex : Nat := (log.entries.getLast?.map Entry.index).getD log.snapshotIndex

def lastTerm : Nat := (log.entries.getLast?.map Entry.term).getD log.snapshotTerm

def get (index : Nat) : Option Entry :=
  if index < log.firstIndex ∨ log.lastIndex < index then none
  else log.entries[index - log.firstIndex]?

def termAt (index : Nat) : Option Nat :=
  if index = noIndex then some 0
  else if index = log.snapshotIndex then some log.snapshotTerm
  else (log.get index).map Entry.term

def matchesAt (index term : Nat) : Prop := log.termAt index = some term

instance (index term : Nat) : Decidable (log.matchesAt index term) :=
  inferInstanceAs (Decidable (_ = _))

/-- The two assertions of `append`: contiguous indices, terms that never decrease. -/
def AppendOk (e : Entry) : Prop := e.index = log.lastIndex + 1 ∧ log.lastTerm ≤ e.term

instance (e : Entry) : Decidable (log.AppendOk e) := inferInstanceAs (Decidable (_ ∧ _))

def append (e : Entry) : RaftLog :=
  { log with
    entries := log.entries ++ [e]
    offsets := log.offsets ++ [log.finish]
    finish := log.finish + e.toRecord.length }

def appendAll (entries : List Entry) : RaftLog := entries.foldl append log

def AppendsOk : RaftLog → List Entry → Prop
  | _, [] => True
  | log, e :: rest => log.AppendOk e ∧ AppendsOk (log.append e) rest

def truncateFrom (index : Nat) : RaftLog :=
  let index := max index log.firstIndex
  if index ≤ log.lastIndex then
    let i := index - log.firstIndex
    { log with
      entries := log.entries.take i
      offsets := log.offsets.take i
      finish := log.offsets[i]?.getD log.finish }
  else log

def compactTo (index term : Nat) : RaftLog :=
  if index ≤ log.snapshotIndex ∨ log.lastIndex < index then log
  else
    let dropCount := index - log.snapshotIndex
    { log with
      entries := log.entries.drop dropCount
      offsets := log.offsets.drop dropCount
      snapshotIndex := index
      snapshotTerm := term }

def sliceFrom (index max : Nat) : List Entry :=
  if index < log.firstIndex ∨ log.lastIndex < index then []
  else (log.entries.drop (index - log.firstIndex)).take max

def isUpToDate (candLastIndex candLastTerm : Nat) : Prop :=
  log.lastTerm < candLastTerm ∨ candLastTerm = log.lastTerm ∧ log.lastIndex ≤ candLastIndex

instance (i t : Nat) : Decidable (log.isUpToDate i t) := inferInstanceAs (Decidable (_ ∨ _))

def lastIndexWithTermAtMost (term : Nat) : Nat :=
  log.snapshotIndex + (log.entries.takeWhile fun e => e.term ≤ term).length

def byteOffsetOf (index : Nat) : Nat :=
  if index < log.firstIndex then 0
  else log.offsets[index - log.firstIndex]?.getD log.finish

def splice (prevIndex : Nat) (entries : List Entry) (i : Nat) (conflict : Bool) : RaftLog :=
  (if conflict then log.truncateFrom (prevIndex + 1 + i) else log).appendAll (entries.drop i)

end RaftLog

/-- A log that begins after a snapshot at `(index, term)`, laid out from the start of
the log region. The only caller in the store passes no entries. -/
def RaftLog.fromSnapshot (index term : Nat) (entries : List Entry) : RaftLog :=
  RaftLog.appendAll { snapshotIndex := index, snapshotTerm := term } entries

def RaftLog.adopt (log : RaftLog) (index term : Nat) : RaftLog :=
  if log.termAt index = some term then log.compactTo index term else RaftLog.fromSnapshot index term []

end SimKv
