import SimKv.Checker.Choices
import SimKv.Lib.Links

set_option autoImplicit false

/-!
# The loop of the checker

The loop is the depth-first search over configurations. At every level the linked list holds what is
not linearized there, and undoing a choice restores the list of the level below link by link.
-/

namespace SimKv.Checker

open Links Backtrack
open scoped List

variable {ops : List Operation}

def Nodes.loop (nodes : Nodes) : Loop Nat := { prev := fun i => (nodes.node i).prev, next := fun i => (nodes.node i).next }

def Nodes.labels (nodes : Nodes) : List (Bool × Nat × Nat) := nodes.map fun node => (node.isCall, node.op, node.matching)

theorem Nodes.node_setNext (nodes : Nodes) {i : Nat} (within : i < nodes.length) (target j : Nat) :
    (nodes.setNext i target).node j =
      if j = i then { nodes.node j with next := target } else nodes.node j := by
  rw [node, node, setNext, List.getD_eq_getElem?_getD, List.getD_eq_getElem?_getD, List.getElem?_modify]
  by_cases same : j = i
  · subst same
    simp [within]
  · simp [same, Ne.symm same]

theorem Nodes.node_setPrev (nodes : Nodes) {i : Nat} (within : i < nodes.length) (target j : Nat) :
    (nodes.setPrev i target).node j =
      if j = i then { nodes.node j with prev := target } else nodes.node j := by
  rw [node, node, setPrev, List.getD_eq_getElem?_getD, List.getD_eq_getElem?_getD, List.getElem?_modify]
  by_cases same : j = i
  · subst same
    simp [within]
  · simp [same, Ne.symm same]

theorem Nodes.labels_modify (nodes : Nodes) (f : Node → Node)
    (same : ∀ node, ((f node).isCall, (f node).op, (f node).matching) = (node.isCall, node.op, node.matching))
    (i : Nat) : Nodes.labels (nodes.modify i f) = nodes.labels := by
  refine List.ext_getElem? fun j => ?_
  rw [labels, labels, List.getElem?_map, List.getElem?_map, List.getElem?_modify]
  cases nodes[j]? with
  | none => rfl
  | some node =>
    simp only [Option.map_eq_map, Option.map_some]
    split
    · exact congrArg some (same node)
    · rfl

theorem Nodes.labels_setPrev (nodes : Nodes) (i target : Nat) : (nodes.setPrev i target).labels = nodes.labels :=
  labels_modify nodes (fun node => { node with prev := target }) (fun _ => rfl) i

theorem Nodes.labels_setNext (nodes : Nodes) (i target : Nat) : (nodes.setNext i target).labels = nodes.labels :=
  labels_modify nodes (fun node => { node with next := target }) (fun _ => rfl) i

theorem labels_unlink (nodes : Nodes) (i : Nat) : (unlink nodes i).labels = nodes.labels := by
  rw [unlink, Nodes.labels_setPrev, Nodes.labels_setNext]

theorem labels_relink (nodes : Nodes) (i : Nat) : (relink nodes i).labels = nodes.labels := by
  rw [relink, Nodes.labels_setPrev, Nodes.labels_setNext]

theorem length_eq_of_labels {nodes nodes' : Nodes} (same : nodes.labels = nodes'.labels) :
    nodes.length = nodes'.length := by
  simpa [Nodes.labels] using congrArg List.length same

theorem loop_unlink {nodes : Nodes} {i : Nat} (prevWithin : (nodes.node i).prev < nodes.length)
    (nextWithin : (nodes.node i).next < nodes.length) : (unlink nodes i).loop = nodes.loop.unlink i := by
  have length : (nodes.setNext (nodes.node i).prev (nodes.node i).next).length = nodes.length := List.length_modify ..
  simp only [Nodes.loop, Loop.unlink, Loop.mk.injEq]
  constructor
  · funext j
    rw [unlink, Nodes.node_setPrev _ (length ▸ nextWithin), Function.update_apply]
    split
    · rfl
    · rw [Nodes.node_setNext _ prevWithin]
      split <;> rfl
  · funext j
    rw [unlink, Nodes.node_setPrev _ (length ▸ nextWithin), Function.update_apply, Nodes.node_setNext _ prevWithin]
    split <;> split <;> rfl

theorem loop_relink {nodes : Nodes} {i : Nat} (prevWithin : (nodes.node i).prev < nodes.length)
    (nextWithin : (nodes.node i).next < nodes.length) : (relink nodes i).loop = nodes.loop.relink i := by
  have length : (nodes.setNext (nodes.node i).prev i).length = nodes.length := List.length_modify ..
  simp only [Nodes.loop, Loop.relink, Loop.mk.injEq]
  constructor
  · funext j
    rw [relink, Nodes.node_setPrev _ (length ▸ nextWithin), Function.update_apply]
    split
    · rfl
    · rw [Nodes.node_setNext _ prevWithin]
      split <;> rfl
  · funext j
    rw [relink, Nodes.node_setPrev _ (length ▸ nextWithin), Function.update_apply, Nodes.node_setNext _ prevWithin]
    split <;> split <;> rfl

theorem nodes_ext {nodes nodes' : Nodes} (labels : nodes.labels = nodes'.labels) (loop : nodes.loop = nodes'.loop) :
    nodes = nodes' := by
  refine List.ext_getElem (length_eq_of_labels labels) fun i here there => ?_
  have label := congrArg (·[i]?) labels
  have prev := congrFun (congrArg Loop.prev loop) i
  have next := congrFun (congrArg Loop.next loop) i
  simp only [Nodes.labels, List.getElem?_map, List.getElem?_eq_getElem here, List.getElem?_eq_getElem there,
    Option.map_some, Option.some.injEq, Prod.mk.injEq] at label
  simp only [Nodes.loop, Nodes.node, List.getD_eq_getElem?_getD, List.getElem?_eq_getElem here,
    List.getElem?_eq_getElem there, Option.getD_some] at prev next
  obtain ⟨isCall, op, matching⟩ := label
  generalize nodes[i] = a at *
  generalize nodes'[i] = b at *
  cases a
  cases b
  simp only at isCall op matching prev next
  rw [isCall, op, matching, prev, next]

-- Undoing what was done last restores every node.
theorem relink_unlink {nodes : Nodes} {i : Nat} (prevWithin : (nodes.node i).prev < nodes.length)
    (nextWithin : (nodes.node i).next < nodes.length) (linked : nodes.loop.Linked i) :
    relink (unlink nodes i) i = nodes := by
  refine nodes_ext ((labels_relink _ i).trans (labels_unlink _ i)) ?_
  have loop := loop_unlink prevWithin nextWithin
  have own : (nodes.loop.unlink i).prev i = nodes.loop.prev i ∧ (nodes.loop.unlink i).next i = nodes.loop.next i :=
    Loop.unlink_own nodes.loop i
  have length := length_eq_of_labels (labels_unlink nodes i)
  rw [← loop] at own
  rw [loop_relink, loop, Loop.relink_unlink linked]
  · rw [length]
    exact own.1.trans_lt prevWithin
  · rw [length]
    exact own.2.trans_lt nextWithin

theorem around_unlink {nodes : Nodes} {guard i : Nat} {front back : List Nat} (length : nodes.length = guard + 1)
    (around : nodes.loop.Around guard (front ++ i :: back)) (below : ∀ q ∈ front ++ i :: back, q < guard)
    (nodup : (front ++ i :: back).Nodup) :
    (unlink nodes i).loop.Around guard (front ++ back) ∧ relink (unlink nodes i) i = nodes := by
  obtain ⟨lead, trail, leadEq, trailEq⟩ := around.neighbours
  have prevWithin : (nodes.node i).prev < nodes.length := by
    have member : nodes.loop.prev i ∈ guard :: front := leadEq ▸ List.mem_append_right _ List.mem_cons_self
    obtain same | member := List.mem_cons.mp member
    · change nodes.loop.prev i < _
      omega
    · have := below _ (List.mem_append_left _ member)
      change nodes.loop.prev i < _
      omega
  have nextWithin : (nodes.node i).next < nodes.length := by
    have member : nodes.loop.next i ∈ back ++ [guard] := trailEq ▸ List.mem_cons_self
    obtain member | same := List.mem_append.mp member
    · have := below _ (List.mem_append_right _ (List.mem_cons_of_mem _ member))
      change nodes.loop.next i < _
      omega
    · have := List.mem_singleton.mp same
      change nodes.loop.next i < _
      omega
  refine ⟨?_, relink_unlink prevWithin nextWithin around.linked⟩
  rw [loop_unlink prevWithin nextWithin]
  obtain ⟨-, tail, apart⟩ := List.nodup_append.mp nodup
  refine around.unlink ?_ ?_ (List.nodup_cons.mp tail).1
  · exact (below i (List.mem_append_right _ List.mem_cons_self)).ne
  · exact fun member => apart i member i List.mem_cons_self rfl

structure Level (ops : List Operation) (nodes : Nodes) (bits : Words) : Prop where
  labels : nodes.labels = (threaded ops).labels
  around : nodes.loop.Around (sentinel ops) (live ops bits)
  wide : Wide ops bits

section Level

variable {nodes : Nodes} {bits : Words} {p : Nat} {front back : List Nat}

theorem length_threaded : (threaded ops).length = sentinel ops + 1 := by
  simp [threaded, length_order]

theorem Level.length (level : Level ops nodes bits) : nodes.length = sentinel ops + 1 :=
  (length_eq_of_labels level.labels).trans length_threaded

theorem Level.label (level : Level ops nodes bits) (short : p < sentinel ops) :
    (nodes.node p).isCall = callAt ops p ∧ (nodes.node p).op = opAt ops p ∧
      (nodes.node p).matching = if callAt ops p then retOf ops (opAt ops p) else callOf ops (opAt ops p) := by
  have within : p < nodes.length := level.length ▸ Nat.lt_succ_of_lt short
  have inOrder : p < (order ops).length := length_order ▸ short
  have label := congrArg (·[p]?) level.labels
  simp only [Nodes.labels, List.getElem?_map, List.getElem?_eq_getElem within, Option.map_some] at label
  rw [threaded, List.getElem?_append_left (by simpa using inOrder), List.getElem?_map, List.getElem?_zipIdx,
    List.getElem?_eq_getElem inOrder] at label
  simp only [Option.map_some, Option.some.injEq, Prod.mk.injEq, ← markAt_eq inOrder] at label
  simp only [Nodes.node, List.getD_eq_getElem?_getD, List.getElem?_eq_getElem within, Option.getD_some]
  exact label

theorem Level.next_eq (level : Level ops nodes bits) (split : live ops bits = front ++ p :: back) :
    (nodes.node p).next = back.headD (sentinel ops) := by
  have around := level.around
  rw [split] at around
  exact around.next_eq

theorem live_lt (bits : Words) : ∀ q ∈ live ops bits, q < sentinel ops := fun _ here => (mem_live.mp here).1

theorem live_nodup (bits : Words) : (live ops bits).Nodup := (live_sorted bits).imp Nat.ne_of_lt

-- Lifting an operation out of the list, and what undoes it.
theorem Level.lift (level : Level ops nodes bits) (here : p ∈ live ops bits) (call : callAt ops p = true) :
    Level ops (unlink (unlink nodes p) (retOf ops (opAt ops p))) (bits.mark (opAt ops p)) ∧
      relink (relink (unlink (unlink nodes p) (retOf ops (opAt ops p))) (retOf ops (opAt ops p))) p = nodes := by
  obtain ⟨short, absent⟩ := mem_live.mp here
  have within := opAt_lt short
  obtain ⟨front, back, split⟩ := List.append_of_mem here
  have nodup : (front ++ p :: back).Nodup := split ▸ live_nodup bits
  have below : ∀ q ∈ front ++ p :: back, q < sentinel ops := split ▸ live_lt bits
  obtain ⟨once, undoOnce⟩ := around_unlink level.length (split ▸ level.around) below nodup
  -- the return is still there
  have shorter : front ++ back <+ front ++ p :: back := (List.sublist_cons_self ..).append_left _
  have apart : retOf ops (opAt ops p) ≠ p := by
    intro same
    have kind := callAt_retOf within
    rw [same, call] at kind
    cases kind
  have there : retOf ops (opAt ops p) ∈ front ++ back := by
    have left : retOf ops (opAt ops p) ∈ front ++ p :: back :=
      split ▸ mem_live.mpr ⟨(retOf_spec within).1, by rwa [opAt_retOf within]⟩
    simpa [apart] using left
  have length : (unlink nodes p).length = sentinel ops + 1 :=
    (length_eq_of_labels (labels_unlink nodes p)).trans level.length
  obtain ⟨front', back', split'⟩ := List.append_of_mem there
  rw [split'] at once shorter
  obtain ⟨twice, undoTwice⟩ := around_unlink length once (fun q member => below q (shorter.subset member))
    (nodup.sublist shorter)
  have remains : live ops (bits.mark (opAt ops p)) = front' ++ back' := by
    have dropFirst : (front ++ p :: back).filter (fun q => opAt ops q ≠ opAt ops p) =
        (front ++ back).filter fun q => opAt ops q ≠ opAt ops p := by simp
    have dropSecond : (front' ++ retOf ops (opAt ops p) :: back').filter (fun q => opAt ops q ≠ opAt ops p) =
        (front' ++ back').filter fun q => opAt ops q ≠ opAt ops p := by simp [opAt_retOf within]
    rw [live_mark level.wide within, split, dropFirst, split', dropSecond, List.filter_eq_self]
    intro q member
    have kept : q ∈ front ++ back := by
      rw [split']
      exact ((List.sublist_cons_self ..).append_left _).subset member
    have shortQ := below q (((List.sublist_cons_self ..).append_left _).subset kept)
    refine decide_eq_true fun same => ?_
    cases kind : callAt ops q with
    | true =>
      have isCall : q = p := by rw [← callOf_opAt shortQ kind, same, callOf_opAt short call]
      exact (List.nodup_cons.mp (List.nodup_middle.mp nodup)).1 (isCall ▸ kept)
    | false =>
      have isRet : q = retOf ops (opAt ops p) := by rw [← retOf_opAt shortQ kind, same]
      exact (List.nodup_cons.mp (List.nodup_middle.mp (nodup.sublist shorter))).1 (isRet ▸ member)
  refine ⟨⟨?_, remains ▸ twice, level.wide.mark _⟩, ?_⟩
  · rw [labels_unlink, labels_unlink, level.labels]
  · rw [undoTwice, undoOnce]

theorem node_threaded {p : Nat} (short : p < sentinel ops) :
    ((threaded ops).node p).prev = (if p = 0 then sentinel ops else p - 1) ∧ ((threaded ops).node p).next = p + 1 := by
  have inOrder : p < (order ops).length := length_order ▸ short
  simp only [Nodes.node, List.getD_eq_getElem?_getD]
  rw [threaded, List.getElem?_append_left (by simpa using inOrder), List.getElem?_map, List.getElem?_zipIdx,
    List.getElem?_eq_getElem inOrder]
  simp only [Option.map_some, Option.getD_some, Nat.zero_add, and_self]

theorem node_threaded_sentinel :
    ((threaded ops).node (sentinel ops)).prev = sentinel ops - 1 ∧ ((threaded ops).node (sentinel ops)).next = 0 := by
  simp only [Nodes.node, List.getD_eq_getElem?_getD]
  rw [threaded, List.getElem?_append_right (by simp [length_order])]
  simp [length_order]

theorem loop_threaded : (threaded ops).loop.Around (sentinel ops) (List.range (sentinel ops)) := by
  unfold Loop.Around Loop.Threads
  rw [List.cons_append, ← List.range_succ, List.isChain_cons_range_succ]
  obtain ⟨last, first⟩ := @node_threaded_sentinel ops
  have prevOf : ∀ p ≤ sentinel ops, (threaded ops).loop.prev p = if p = 0 then sentinel ops else p - 1 := by
    intro p le
    obtain rfl | short := Nat.eq_or_lt_of_le le
    · refine last.trans ?_
      split <;> omega
    · exact (node_threaded short).1
  refine ⟨⟨first, by rw [prevOf 0 (Nat.zero_le _), if_pos rfl]⟩, fun p short => ⟨(node_threaded short).2, ?_⟩⟩
  rw [prevOf _ short, if_neg (Nat.succ_ne_zero p), Nat.succ_sub_one]

theorem level_threaded : Level ops (threaded ops) (List.replicate ((ops.length + 63) / 64) 0#64) := by
  refine ⟨rfl, ?_, List.length_replicate ..⟩
  have all : live ops (List.replicate ((ops.length + 63) / 64) 0#64) = List.range (sentinel ops) := by
    refine List.filter_eq_self.mpr fun p _ => ?_
    rw [Words.test, List.getD_eq_getElem?_getD, List.getElem?_replicate]
    split <;> simp
  rw [all]
  exact loop_threaded

end Level

def Config.rest (ops : List Operation) (c : Config) (back : List Nat) : List (Option Config) :=
  (back.takeWhile (callAt ops)).map (child ops c)

inductive Levels (ops : List Operation) :
    Nodes → Config → List (Nat × Reg) → List (Frame Config) → Prop where
  | root : Levels ops (threaded ops) (List.replicate ((ops.length + 63) / 64) 0#64, .absent) [] []
  | lift {nodes : Nodes} {c : Config} {calls : List (Nat × Reg)} {below : List (Frame Config)} {p : Nat}
      {front back : List Nat} {next : Reg} (lower : Levels ops nodes c calls below)
      (split : live ops c.1 = front ++ p :: back) (passed : ∀ q ∈ front ++ [p], callAt ops q = true) :
      Levels ops (unlink (unlink nodes p) (retOf ops (opAt ops p))) (c.1.mark (opAt ops p), next)
        ((p, c.2) :: calls) (⟨c, c.rest ops back⟩ :: below)

theorem Levels.level {nodes : Nodes} {c : Config} {calls : List (Nat × Reg)} {below : List (Frame Config)}
    (levels : Levels ops nodes c calls below) : Level ops nodes c.1 := by
  induction levels with
  | root => exact level_threaded
  | lift lower split passed ih =>
    exact (ih.lift (split ▸ List.mem_append_right _ List.mem_cons_self) (passed _ (by simp))).1

theorem Levels.below_nil {nodes : Nodes} {c : Config} {below : List (Frame Config)}
    (levels : Levels ops nodes c [] below) : below = [] := by
  cases levels
  rfl

theorem Levels.lifted {nodes : Nodes} {c : Config} {p : Nat} {prior : Reg} {calls : List (Nat × Reg)}
    {below : List (Frame Config)} (levels : Levels ops nodes c ((p, prior) :: calls) below) :
    ∃ nodes' bits front back below',
      nodes = unlink (unlink nodes' p) (retOf ops (opAt ops p)) ∧ c.1 = bits.mark (opAt ops p) ∧
      below = ⟨(bits, prior), Config.rest ops (bits, prior) back⟩ :: below' ∧
      Levels ops nodes' (bits, prior) calls below' ∧ live ops bits = front ++ p :: back ∧
      ∀ q ∈ front ++ [p], callAt ops q = true := by
  cases levels with
  | lift lower split passed => exact ⟨_, _, _, _, _, rfl, rfl, rfl, lower, split, passed⟩

/-- The loop stands where the search stands: at `back` in the list of the newest level. -/
structure Follows (ops : List Operation) (s : Search) (a : State Config) (front back : List Nat)
    (below : List (Frame Config)) : Prop where
  levels : Levels ops s.nodes (s.linearized, s.state) s.calls below
  split : live ops s.linearized = front ++ back
  passed : ∀ q ∈ front, callAt ops q = true
  entry : s.entry = back.headD (sentinel ops)
  frames : a.frames = ⟨(s.linearized, s.state), Config.rest ops (s.linearized, s.state) back⟩ :: below
  cache : a.cache = s.cache

variable (ops) in
def root : Config := (List.replicate ((ops.length + 63) / 64) 0#64, .absent)

theorem Level.choices_eq {nodes : Nodes} {c : Config} (level : Level ops nodes c.1) :
    choices ops c = c.rest ops (live ops c.1) := if_pos level.wide

theorem follows_init : Follows ops (.init ops) (start (choices ops) (root ops)) []
    (live ops (root ops).1) [] where
  levels := .root
  split := rfl
  passed := nofun
  entry := level_threaded.around.next_guard
  frames := congrArg (fun rest => [Frame.mk (root ops) rest]) (Levels.level .root).choices_eq
  cache := rfl

-- The list of a level ends with a return, unless it is empty.
theorem live_eq_nil {bits : Words} (calls : ∀ q ∈ live ops bits, callAt ops q = true) : live ops bits = [] := by
  refine List.eq_nil_iff_forall_not_mem.mpr fun p here => ?_
  obtain ⟨short, absent⟩ := mem_live.mp here
  have within := opAt_lt short
  have there : retOf ops (opAt ops p) ∈ live ops bits :=
    mem_live.mpr ⟨(retOf_spec within).1, by rwa [opAt_retOf within]⟩
  have kind := calls _ there
  rw [callAt_retOf within] at kind
  cases kind

section Follows

variable {s : Search} {a : State Config} {front back : List Nat} {below : List (Frame Config)}

theorem Follows.back_cons (follows : Follows ops s a front back below) (inside : s.entry ≠ sentinel ops) :
    ∃ rest, back = s.entry :: rest := by
  cases back with
  | nil => exact absurd follows.entry inside
  | cons p rest => exact ⟨rest, by rw [follows.entry, List.headD_cons]⟩

theorem Follows.complete (follows : Follows ops s a front back below) (outside : s.entry = sentinel ops) :
    Complete ops (s.linearized, s.state) := by
  have ended : back = [] := by
    cases back with
    | nil => rfl
    | cons p rest =>
      have short : p < sentinel ops :=
        live_lt s.linearized p (follows.split ▸ List.mem_append_right _ List.mem_cons_self)
      have entry := follows.entry
      rw [List.headD_cons] at entry
      omega
  refine live_eq_nil fun q here => follows.passed q ?_
  rwa [follows.split, ended, List.append_nil] at here

-- Going on past the call at the entry.
theorem Follows.pass {rest : List Nat} (follows : Follows ops s a front (s.entry :: rest) below)
    (call : callAt ops s.entry = true) :
    Follows ops { s with entry := (s.nodes.node s.entry).next }
      ⟨⟨(s.linearized, s.state), Config.rest ops (s.linearized, s.state) rest⟩ :: below, s.cache⟩
      (front ++ [s.entry]) rest below where
  levels := follows.levels
  split := by rw [follows.split, List.append_assoc]; rfl
  passed := by
    intro q member
    obtain earlier | same := List.mem_append.mp member
    · exact follows.passed q earlier
    · exact List.mem_singleton.mp same ▸ call
  entry := follows.levels.level.next_eq follows.split
  frames := rfl
  cache := rfl

-- The entry is the first mark that is left.
theorem Follows.entry_lt {rest : List Nat} (follows : Follows ops s a front (s.entry :: rest) below) :
    s.entry < sentinel ops :=
  live_lt s.linearized _ (follows.split ▸ List.mem_append_right _ List.mem_cons_self)

theorem Follows.lift {rest : List Nat} {next : Reg} (follows : Follows ops s a front (s.entry :: rest) below)
    (call : callAt ops s.entry = true) :
    Follows ops (s.lift ops next)
      ⟨⟨(s.linearized.mark (opAt ops s.entry), next), choices ops (s.linearized.mark (opAt ops s.entry), next)⟩ ::
        ⟨(s.linearized, s.state), Config.rest ops (s.linearized, s.state) rest⟩ :: below,
        (s.linearized.mark (opAt ops s.entry), next) :: s.cache⟩
      [] (live ops (s.linearized.mark (opAt ops s.entry)))
      (⟨(s.linearized, s.state), Config.rest ops (s.linearized, s.state) rest⟩ :: below) := by
  obtain ⟨-, opEq, matchingEq⟩ := follows.levels.level.label follows.entry_lt
  rw [if_pos call] at matchingEq
  have levels : Levels ops (s.lift ops next).nodes ((s.lift ops next).linearized, (s.lift ops next).state)
      (s.lift ops next).calls (⟨(s.linearized, s.state), Config.rest ops (s.linearized, s.state) rest⟩ :: below) := by
    simp only [Search.lift, opEq, matchingEq]
    exact .lift follows.levels follows.split (follows.pass call).passed
  have bits : (s.lift ops next).linearized = s.linearized.mark (opAt ops s.entry) := by
    simp only [Search.lift, opEq]
  have level := levels.level
  rw [bits] at level
  exact {
    levels
    split := by rw [bits]; rfl
    passed := nofun
    entry := level.around.next_guard
    frames := by
      have all : choices ops (s.linearized.mark (opAt ops s.entry), next) = _ := Level.choices_eq level
      rw [bits, all]
      rfl
    cache := by simp only [Search.lift, opEq] }

theorem Follows.undo {p : Nat} {prior : Reg} {calls : List (Nat × Reg)} {rest : List Nat}
    (follows : Follows ops s a front (s.entry :: rest) below) (stack : s.calls = (p, prior) :: calls) :
    ∃ front' back' below', Follows ops (s.undo p prior calls) ⟨below, s.cache⟩ front' back' below' := by
  obtain ⟨nodes, bits, before, after, below', nodesEq, bitsEq, rfl, lower, split, passed⟩ :=
    (stack ▸ follows.levels).lifted
  have here : p ∈ live ops bits := split ▸ List.mem_append_right _ List.mem_cons_self
  have call := passed p (by simp)
  obtain ⟨short, absent⟩ := mem_live.mp here
  obtain ⟨-, opEq, matchingEq⟩ := follows.levels.level.label short
  rw [if_pos call] at matchingEq
  have restored := (lower.level.lift here call).2
  rw [← nodesEq] at restored
  have undone : s.undo p prior calls = { s with
      nodes
      linearized := bits
      calls
      state := prior
      entry := (nodes.node p).next } := by
    simp only [Search.undo, opEq, matchingEq, restored]
    rw [show s.linearized = bits.mark (opAt ops p) from bitsEq, Words.unmark_mark absent]
  rw [undone]
  exact ⟨before ++ [p], after, below',
    { levels := lower
      split := by rw [split, List.append_assoc]; rfl
      passed
      entry := lower.level.next_eq split
      frames := rfl
      cache := rfl }⟩

theorem Follows.turn (follows : Follows ops s a front back below) (inside : s.entry ≠ sentinel ops) :
    (∃ s', s.turn ops = some s' ∧ ∃ a', Turn (choices ops) (Complete ops) a a' ∧
      ∃ front' back' below', Follows ops s' a' front' back' below') ∨
    (s.turn ops = none ∧ ∃ c cache, a = ⟨[⟨c, []⟩], cache⟩ ∧ ¬ Complete ops c) := by
  obtain ⟨rest, rfl⟩ := follows.back_cons inside
  have short := follows.entry_lt
  have within := opAt_lt short
  obtain ⟨isCallEq, opEq, -⟩ := follows.levels.level.label short
  have state : a = ⟨⟨(s.linearized, s.state), Config.rest ops (s.linearized, s.state) (s.entry :: rest)⟩ :: below,
      s.cache⟩ := by
    rw [← follows.frames, ← follows.cache]
  rw [Search.turn]
  simp only [isCallEq, opEq, getElem!_pos ops (opAt ops s.entry) within]
  by_cases call : callAt ops s.entry = true
  · have choice := child_eq (s.linearized, s.state) within
    rw [Config.rest, List.takeWhile_cons_of_pos call, List.map_cons, choice] at state
    rw [if_pos call]
    left
    by_cases fits : (step s.state ops[opAt ops s.entry]).1 = true
    · rw [if_pos fits] at state
      by_cases seen : (s.linearized.mark (opAt ops s.entry), (step s.state ops[opAt ops s.entry]).2) ∈ s.cache
      · refine ⟨_, if_neg fun fresh => fresh.2 seen, _, state ▸ .known _ _ _ _ _ seen, _, _, _, follows.pass call⟩
      · refine ⟨_, if_pos ⟨fits, seen⟩, _, state ▸ .enter _ _ _ _ _ seen, _, _, _, follows.lift call⟩
    · rw [if_neg fits] at state
      refine ⟨_, if_neg fun fresh => fits fresh.1, _, state ▸ .refuse _ _ _ _, _, _, _, follows.pass call⟩
  · have incomplete : ¬ Complete ops (s.linearized, s.state) := by
      intro complete
      rw [Complete, follows.split] at complete
      simp at complete
    rw [Config.rest, List.takeWhile_cons_of_neg call, List.map_nil] at state
    rw [if_neg call]
    cases stack : s.calls with
    | nil =>
      right
      have bottom : below = [] := (stack ▸ follows.levels).below_nil
      exact ⟨rfl, _, _, bottom ▸ state, incomplete⟩
    | cons choice calls =>
      obtain ⟨p, prior⟩ := choice
      left
      exact ⟨_, rfl, _, state ▸ .leave _ _ _ incomplete, follows.undo stack⟩

end Follows

variable (ops) in
def Explored : Prop := ∃ c, Relation.ReflTransGen (Choice (choices ops)) (root ops) c ∧ Complete ops c

def Means (ops : List Operation) (key : String) (left : Nat) (a : State Config) : Verdict → Prop
  | .linearizable => Explored ops
  | .violation found _ => found = key ∧ ¬ Explored ops
  | .unknown _ _ => left < cost (depth ops) ops.length (sentinel ops) a

theorem search_means {debug : String → String} {key : String} {budget : Nat} (left : Nat) {s : Search}
    {a : State Config} {front back : List Nat} {below : List (Frame Config)}
    (follows : Follows ops s a front back below)
    (inv : Inv (choices ops) (Complete ops) (depth ops) (root ops) a) :
    Means ops key left a (search ops debug key budget left s).1 := by
  induction left generalizing s a front back below with
  | zero =>
    rw [search]
    split
    · next outside =>
      exact ⟨_, inv.leads ⟨_, _⟩ (follows.frames ▸ List.mem_cons_self), follows.complete outside⟩
    · exact cost_pos follows.frames
  | succ left ih =>
    rw [search]
    split
    · next outside =>
      exact ⟨_, inv.leads ⟨_, _⟩ (follows.frames ▸ List.mem_cons_self), follows.complete outside⟩
    · next inside =>
      obtain ⟨s', moved, a', turn, _, _, _, follows'⟩ | ⟨stuck, c, cache, rfl, incomplete⟩ := follows.turn inside
      · rw [moved]
        have means := ih follows' (turn.inv choice_climbs inv)
        have cheaper := turn.cost_lt choice_climbs depth_le length_choices_le inv
        revert means
        cases (search ops debug key budget left s').1 with
        | linearizable => exact id
        | violation found detail => exact id
        | unknown found reason =>
          intro means
          simp only [Means] at *
          omega
      · rw [stuck]
        refine ⟨rfl, ?_⟩
        rintro ⟨d, leads, complete⟩
        exact (inv.leave incomplete).passed d leads complete

def enough (ops : List Operation) : Nat :=
  cost (depth ops) ops.length (sentinel ops) (start (choices ops) (root ops))

theorem checkPartition_means (debug : String → String) (c : Checker) (key : String) :
    Means ops key c.budget (start (choices ops) (root ops)) (checkPartition ops debug c key).1 := by
  rw [checkPartition]
  split
  · next empty =>
    refine ⟨root ops, .refl, ?_⟩
    simp [Complete, live, sentinel, empty]
  · exact search_means c.budget follows_init inv_start

theorem checkPartition_budget (debug : String → String) (c : Checker) (key : String) :
    (checkPartition ops debug c key).2.budget = c.budget := by
  rw [checkPartition]
  split <;> rfl

end SimKv.Checker
