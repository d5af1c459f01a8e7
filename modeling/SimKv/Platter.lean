import SimKv.Machine

set_option autoImplicit false

/-!
# What the disk promises

Every run of one file: writes, appends, changes of length, syncs and power losses, each with any answer and any
outcome. The cache is always what the pending writes make of the durable image; and power loss, whatever it
loses, tears or reorders, changes nothing that no pending write reaches.
-/

namespace SimKv

def WriteKind.Misses (k : Nat) : WriteKind → Prop
  | .data offset bytes => k < offset ∨ offset + bytes.length ≤ k
  | .setLen len => k < len

theorem resize_keeps {buf : Bytes} {len k : Nat} {b : UInt8} (held : buf[k]? = some b) (inside : k < len) :
    (resize buf len)[k]? = some b := by
  have here := (List.getElem?_eq_some_iff.mp held).1
  have early : k < (buf.take len).length := by
    rw [List.length_take]
    omega
  rw [resize, List.getElem?_append_left early, List.getElem?_take_of_lt inside, held]

theorem length_resize (buf : Bytes) (len : Nat) : (resize buf len).length = len := by
  rw [resize, List.length_append, List.length_take, List.length_replicate]
  omega

theorem WriteKind.apply_keeps {buf : Bytes} {kind : WriteKind} {k : Nat} {b : UInt8} (held : buf[k]? = some b)
    (misses : kind.Misses k) : (kind.apply buf)[k]? = some b := by
  cases kind with
  | setLen len => exact resize_keeps held misses
  | data offset bytes =>
    have here := (List.getElem?_eq_some_iff.mp held).1
    simp only [apply]
    generalize widened : (if buf.length < offset + bytes.length then resize buf (offset + bytes.length) else buf) = wide
    have still : wide[k]? = some b := by
      subst widened
      split
      · next short => exact resize_keeps held (by omega)
      · exact held
    have reaches : offset + bytes.length ≤ wide.length := by
      subst widened
      split
      · rw [length_resize]
      · omega
    have left : (wide.take offset).length = offset := by
      rw [List.length_take]
      omega
    rcases misses with before | after
    · rw [List.getElem?_append_left (by omega), List.getElem?_take_of_lt before, still]
    · rw [List.getElem?_append_right (by omega), List.getElem?_append_right (by omega), left, List.getElem?_drop,
        show offset + bytes.length + (k - offset - bytes.length) = k by omega, still]

-- However a pending write ends, it changes nothing but what it reaches.
theorem WriteKind.resolve_keeps {buf : Bytes} {kind : WriteKind} {fate : Fate} {k : Nat} {b : UInt8}
    (held : buf[k]? = some b) (misses : kind.Misses k) : (WriteKind.resolve buf (kind, fate))[k]? = some b := by
  cases fate with
  | lost => exact held
  | whole => cases kind <;> exact apply_keeps held misses
  | torn keep =>
    cases kind with
    | setLen len => exact apply_keeps held misses
    | data offset bytes =>
      simp only [resolve]
      split
      · exact held
      · -- the bytes that landed lie within those that were written
        apply apply_keeps held
        rw [Misses, List.length_take]
        rw [Misses] at misses
        omega

theorem crashImage_keeps {durable : Bytes} {fates : List (WriteKind × Fate)} {k : Nat} {b : UInt8}
    (held : durable[k]? = some b) (misses : ∀ w ∈ fates.map Prod.fst, w.Misses k) :
    (crashImage durable fates)[k]? = some b := by
  induction fates generalizing durable with
  | nil => exact held
  | cons first rest ih =>
    rw [List.map_cons, List.forall_mem_cons] at misses
    exact ih (WriteKind.resolve_keeps held misses.1) misses.2

namespace SimFile

def writeAt (f : SimFile) (offset : Nat) (bytes : Bytes) (accepted : Bool) : SimFile :=
  f.issue (.data offset bytes) accepted

def append (f : SimFile) (bytes : Bytes) (accepted : Bool) : SimFile :=
  f.writeAt f.cache.length bytes accepted

def setLen (f : SimFile) (len : Nat) (accepted : Bool) : SimFile := f.issue (.setLen len) accepted

def crash (f : SimFile) (fates : List (WriteKind × Fate)) : SimFile := .ofImage (crashImage f.durable fates)

def Layered (f : SimFile) : Prop := f.cache = f.pending.foldl WriteKind.apply f.durable

theorem Layered.issue {f : SimFile} (layered : f.Layered) (kind : WriteKind) (accepted : Bool) :
    (f.issue kind accepted).Layered := by
  cases accepted with
  | false => exact layered
  | true =>
    have next : kind.apply f.cache = (f.pending ++ [kind]).foldl WriteKind.apply f.durable := by
      rw [List.foldl_append, ← layered]
      rfl
    exact next

theorem Layered.sync {f : SimFile} (layered : f.Layered) (accepted : Bool) : (f.sync accepted).Layered := by
  cases accepted with
  | false => exact layered
  | true => exact layered

theorem layered_crash (f : SimFile) (fates : List (WriteKind × Fate)) : (f.crash fates).Layered := rfl

end SimFile

/-- What happens to a file, with the answer of the device or the outcome of the power loss. -/
inductive FileEvent where
  | writeAt (offset : Nat) (bytes : Bytes) (accepted : Bool)
  | append (bytes : Bytes) (accepted : Bool)
  | setLen (len : Nat) (accepted : Bool)
  | sync (accepted : Bool)
  | crash (fates : List (WriteKind × Fate))

namespace FileEvent

/-- Power loss decides about the pending writes and no others, in whatever order. -/
def Possible (f : SimFile) : FileEvent → Prop
  | .crash fates => (fates.map Prod.fst).Perm f.pending
  | _ => True

def Rejected : FileEvent → Prop
  | .writeAt _ _ accepted => accepted = false
  | .append _ accepted => accepted = false
  | .setLen _ accepted => accepted = false
  | .sync accepted => accepted = false
  | .crash _ => False

end FileEvent

namespace SimFile

def next (f : SimFile) : FileEvent → SimFile
  | .writeAt offset bytes accepted => f.writeAt offset bytes accepted
  | .append bytes accepted => f.append bytes accepted
  | .setLen len accepted => f.setLen len accepted
  | .sync accepted => f.sync accepted
  | .crash fates => f.crash fates

/-- The files that some run from an empty one leads to. -/
inductive Reachable : SimFile → Prop where
  | empty : Reachable {}
  | next {f : SimFile} (before : Reachable f) (e : FileEvent) (possible : e.Possible f) : Reachable (f.next e)

theorem Layered.next {f : SimFile} (layered : f.Layered) (e : FileEvent) : (f.next e).Layered := by
  cases e with
  | writeAt offset bytes accepted => exact layered.issue _ accepted
  | append bytes accepted => exact layered.issue _ accepted
  | setLen len accepted => exact layered.issue _ accepted
  | sync accepted => exact layered.sync accepted
  | crash fates => exact f.layered_crash fates

theorem Reachable.layered {f : SimFile} (reachable : f.Reachable) : f.Layered := by
  induction reachable with
  | empty => rfl
  | next before e possible ih => exact ih.next e

theorem next_rejected {f : SimFile} {e : FileEvent} (rejected : e.Rejected) : f.next e = f := by
  cases e with
  | crash fates => exact rejected.elim
  | writeAt | append | setLen | sync =>
    cases rejected
    rfl

theorem Layered.synced {f : SimFile} (layered : f.Layered) :
    (f.sync true).durable = (f.sync true).cache ∧ (f.sync true).cache = f.cache ∧ (f.sync true).pending = [] :=
  ⟨layered.symm, rfl, rfl⟩

theorem crash_keeps {f : SimFile} {fates : List (WriteKind × Fate)} (possible : (fates.map Prod.fst).Perm f.pending)
    {k : Nat} {b : UInt8} (held : f.durable[k]? = some b) (misses : ∀ w ∈ f.pending, w.Misses k) :
    (f.crash fates).durable[k]? = some b :=
  crashImage_keeps held fun w member => misses w (possible.mem_iff.mp member)

/-- In every state of every run the cache is what the pending writes make of the durable image; a successful sync
makes the cache durable and leaves nothing pending; a rejected operation changes nothing; and power loss leaves
alone every durable byte that no pending write reaches, and a cache that is the durable image. -/
theorem disk_keeps_promises {f : SimFile} (reachable : f.Reachable) :
    f.cache = f.pending.foldl WriteKind.apply f.durable ∧
    ((f.sync true).durable = (f.sync true).cache ∧ (f.sync true).cache = f.cache ∧ (f.sync true).pending = []) ∧
    (∀ e : FileEvent, e.Rejected → f.next e = f) ∧
    ∀ fates : List (WriteKind × Fate), (fates.map Prod.fst).Perm f.pending →
      (∀ k < f.durable.length, (∀ w ∈ f.pending, w.Misses k) → (f.crash fates).durable[k]? = f.durable[k]?) ∧
      (f.crash fates).cache = (f.crash fates).durable ∧ (f.crash fates).pending = [] := by
  have layered := reachable.layered
  refine ⟨layered, layered.synced, ?_, ?_⟩
  · intro e rejected
    exact next_rejected rejected
  · intro fates possible
    refine ⟨?_, rfl, rfl⟩
    intro k inside misses
    rw [List.getElem?_eq_getElem inside]
    exact crash_keeps possible (List.getElem?_eq_getElem inside) misses

def overwritten : SimFile :=
  (((({} : SimFile).next (.append [1, 2, 3] true)).next (.sync true)).next (.setLen 5 true)).next
    (.writeAt 2 [9, 9] true)

theorem disk_keeps_promises_overwritten :
    overwritten.cache = overwritten.pending.foldl WriteKind.apply overwritten.durable ∧
    (overwritten.crash [(.data 2 [9, 9], .torn 1), (.setLen 5, .whole)]).durable[1]? = some 2 := by
  have reachable : overwritten.Reachable :=
    (((Reachable.empty.next (.append [1, 2, 3] true) trivial).next (.sync true) trivial).next
      (.setLen 5 true) trivial).next (.writeAt 2 [9, 9] true) trivial
  obtain ⟨layered, -, -, power⟩ := disk_keeps_promises reachable
  obtain ⟨kept, -, -⟩ := power [(.data 2 [9, 9], .torn 1), (.setLen 5, .whole)] (by decide)
  have misses : ∀ w ∈ overwritten.pending, w.Misses 1 := by
    intro w pending
    rcases List.mem_cons.mp pending with rfl | pending
    · exact (by decide : 1 < 5)
    · obtain rfl := List.mem_singleton.mp pending
      exact Or.inl (by decide)
  exact ⟨layered, kept 1 (by decide) misses⟩

theorem Reachable.issue {f : SimFile} (reachable : f.Reachable) (kind : WriteKind) (accepted : Bool) :
    (f.issue kind accepted).Reachable := by
  cases kind with
  | data offset bytes => exact reachable.next (.writeAt offset bytes accepted) trivial
  | setLen len => exact reachable.next (.setLen len accepted) trivial

end SimFile

namespace Disk

def FilesReachable (d : Disk) : Prop := ∀ file, (d.file file).Reachable

variable {accept : OpId → Bool} {d : Disk}

theorem FilesReachable.setFile (reachable : d.FilesReachable) {id : FileId} {f : SimFile} (this : f.Reachable) :
    (d.setFile id f).FilesReachable := by
  intro file
  by_cases same : file = id
  · rw [same, d.file_setFile]
    exact this
  · rw [d.file_setFile_ne f same]
    exact reachable file

theorem FilesReachable.performAll (reachable : d.FilesReachable) (effects : List Effect) :
    (d.performAll accept effects).FilesReachable := by
  induction effects generalizing d with
  | nil => exact reachable
  | cons e rest ih =>
    apply ih
    cases e with
    | send => exact reachable
    | writeAt op file offset bytes => exact reachable.setFile ((reachable file).issue _ _)
    | setLen op file len => exact reachable.setFile ((reachable file).issue _ _)
    | sync op file => exact reachable.setFile ((reachable file).next (.sync (accept op)) trivial)

theorem FilesReachable.crash (reachable : d.FilesReachable) {loss : PowerLoss} (possible : loss.Possible d) :
    (d.crash loss).FilesReachable := by
  intro file
  have this := (reachable file).next (.crash (loss file)) (possible file)
  cases file <;> exact this

end Disk

-- Whatever a node and its crashes do, each file of its disk runs as above.
theorem Machine.Reachable.files {who : Identity} {accept : OpId → Bool} {ok : Machine → MachineEvent → Prop}
    {m : Machine} (reachable : Machine.Reachable who accept ok m) : m.disk.FilesReachable := by
  apply Execution.Run.invariant _ _ reachable
  · intro file
    cases file <;> exact .empty
  · intro t e t' before allowed step
    cases e with
    | input now input =>
      simp only [Machine.step] at step
      split at step
      · cases step
        exact before.performAll _
      · cases step
    | crash now loss =>
      simp only [Machine.step] at step
      split at step
      · next possible =>
        cases step
        exact before.crash possible
      · cases step

end SimKv
