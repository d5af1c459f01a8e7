import Mathlib.Data.List.Perm.Basic
import SimKv.Codec

set_option autoImplicit false

/-!
# The simulated disk

`simcore::disk`. A file has a durable image and a list of pending writes; the page
cache is the durable image with the pending writes applied in order, and is what a
running node reads back. Randomness becomes choice: an operation is issued with the
answer the device will give, and a crash with the fate of every pending write.
-/

namespace SimKv

inductive FileId where
  | wal
  | snapshotA
  | snapshotB
  deriving DecidableEq, Repr

abbrev OpId := Nat

inductive WriteKind where
  | data (offset : Nat) (bytes : Bytes)
  | setLen (len : Nat)
  deriving DecidableEq, Repr

def resize (buf : Bytes) (len : Nat) : Bytes :=
  buf.take len ++ List.replicate (len - buf.length) 0

def WriteKind.apply (buf : Bytes) : WriteKind → Bytes
  | .data offset bytes =>
      let stop := offset + bytes.length
      let wide := if buf.length < stop then resize buf stop else buf
      wide.take offset ++ (bytes ++ wide.drop stop)
  | .setLen len => resize buf len

-- A file that is truncated and written holds what was written.
theorem WriteKind.apply_rewritten (buf bytes : Bytes) :
    WriteKind.apply (WriteKind.apply buf (.setLen 0)) (.data 0 bytes) = bytes := by
  simp only [apply, resize, List.take_zero, List.nil_append, Nat.zero_sub, List.replicate_zero, List.length_nil,
    Nat.zero_add, List.append_nil]
  split
  · simp
  · next long =>
    simp only [not_lt, Nat.le_zero] at long
    simp [long]

structure SimFile where
  durable : Bytes := []
  cache : Bytes := []
  pending : List WriteKind := []
  deriving DecidableEq, Repr

namespace SimFile

def issue (f : SimFile) (kind : WriteKind) (accepted : Bool) : SimFile :=
  if accepted then { f with cache := kind.apply f.cache, pending := f.pending ++ [kind] }
  else f

/-- A sync takes effect when it is issued; its completion is only the news of it. -/
def sync (f : SimFile) (accepted : Bool) : SimFile :=
  if accepted then { f with durable := f.pending.foldl WriteKind.apply f.durable, pending := [] }
  else f

end SimFile

/-- What a crash does with one pending write. -/
inductive Fate where
  | lost
  | torn (keep : Nat)
  | whole
  deriving DecidableEq, Repr

def WriteKind.resolve (buf : Bytes) : WriteKind × Fate → Bytes
  | (_, .lost) => buf
  | (.data offset bytes, .torn keep) =>
      -- a tear that keeps nothing counts as a lost write
      if keep = 0 then buf else WriteKind.apply buf (.data offset (bytes.take keep))
  | (kind, _) => WriteKind.apply buf kind

def crashImage (durable : Bytes) (fates : List (WriteKind × Fate)) : Bytes :=
  fates.foldl WriteKind.resolve durable

/-- `image` is a possible outcome of power loss on `f`: every pending write is lost, torn
or applied, in any order. -/
def SimFile.CrashesTo (f : SimFile) (image : Bytes) : Prop :=
  ∃ fates : List (WriteKind × Fate),
    (fates.map Prod.fst).Perm f.pending ∧ image = crashImage f.durable fates

def SimFile.ofImage (image : Bytes) : SimFile := { durable := image, cache := image, pending := [] }

structure Disk where
  wal : SimFile := {}
  snapshotA : SimFile := {}
  snapshotB : SimFile := {}
  deriving DecidableEq, Repr

namespace Disk

def file (d : Disk) : FileId → SimFile
  | .wal => d.wal
  | .snapshotA => d.snapshotA
  | .snapshotB => d.snapshotB

def setFile (d : Disk) (id : FileId) (f : SimFile) : Disk :=
  match id with
  | .wal => { d with wal := f }
  | .snapshotA => { d with snapshotA := f }
  | .snapshotB => { d with snapshotB := f }

@[simp] theorem file_setFile (d : Disk) (id : FileId) (f : SimFile) : (d.setFile id f).file id = f := by
  cases id <;> rfl

theorem file_setFile_ne (d : Disk) {id other : FileId} (f : SimFile) (differs : other ≠ id) :
    (d.setFile id f).file other = d.file other := by
  cases id <;> cases other <;> first | rfl | exact absurd rfl differs

end Disk

end SimKv
