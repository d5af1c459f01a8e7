import SimKv.Journal

set_option autoImplicit false

/-!
# Snapshot images

A state machine inside the envelope with the membership, inside a snapshot file or a message: four
formats, each with limits of its own.
-/

namespace SimKv

open Codec Std

def Op.Small : Op → Prop
  | .noop | .setMembers _ => True
  | .get key | .delete key => Fits key
  | .put key value | .cas key _ value => Fits key ∧ Fits value

theorem Op.Valid.small {op : Op} (valid : op.Valid) : op.Small := by
  cases op with
  | noop | setMembers => trivial
  | get | delete | put => exact valid
  | cas => exact ⟨valid.1, valid.2.2⟩

def Command.Small (cmd : Command) : Prop := cmd.client < 2 ^ 32 ∧ cmd.seq < 2 ^ 64 ∧ cmd.op.Small

theorem Command.Valid.small {cmd : Command} (valid : cmd.Valid) : cmd.Small :=
  ⟨valid.1, valid.2.1, valid.2.2.small⟩

namespace Outcome

def Storable : Outcome → Prop
  | .value seen => ∀ text ∈ seen, Fits text
  | .written | .cas _ => True
  | .notLeader _ | .dropped => False

theorem Storable.bounded {outcome : Outcome} (storable : outcome.Storable) : outcome.Bounded := by
  cases outcome with
  | value seen => exact storable
  | written | cas matched => trivial
  | notLeader | dropped => exact absurd storable nofun

end Outcome

namespace StateMachine

-- The decoder's insertions, in the order of the map, build the map.
theorem filled_toList {K V : Type} [DecidableEq K] [Ord K] [TransOrd K] [LawfulEqOrd K] (map : ExtTreeMap K V) :
    filled map.toList = map := by
  have same : filled map.toList = ExtTreeMap.ofList map.toList compare := ExtTreeMap.ofList_eq_foldl.symm
  rw [same]
  refine ExtTreeMap.ext_getElem? fun key => ?_
  cases found : map[key]? with
  | some value =>
    exact ExtTreeMap.getElem?_ofList_of_mem ReflCmp.compare_self ExtTreeMap.distinct_keys_toList
      (ExtTreeMap.mem_toList_iff_getElem?_eq_some.mpr found)
  | none =>
    refine ExtTreeMap.getElem?_ofList_of_contains_eq_false ?_
    rw [Bool.eq_false_iff, ne_eq, List.contains_iff_mem]
    intro member
    obtain ⟨⟨_, value⟩, listed, rfl⟩ := List.mem_map.mp member
    have here := ExtTreeMap.mem_toList_iff_getElem?_eq_some.mp listed
    rw [found] at here
    cases here

variable {sm : StateMachine}

structure Storable (sm : StateMachine) : Prop where
  state : ∀ key value, sm.state[key]? = some value → Fits key ∧ Fits value
  sessions : ∀ client s, sm.sessions[client]? = some s → client < 2 ^ 32 ∧ s.seq < 2 ^ 64 ∧ s.outcome.Storable

-- A map after an insertion holds the new pair and old ones.
theorem getElem?_insert_cases {K V : Type} [Ord K] [TransOrd K] [LawfulEqOrd K] {map : ExtTreeMap K V}
    {key key' : K} {value value' : V} (found : (map.insert key value)[key']? = some value') :
    key' = key ∧ value' = value ∨ map[key']? = some value' := by
  rw [ExtTreeMap.getElem?_insert] at found
  split at found
  · next same =>
    cases found
    exact .inl ⟨(LawfulEqCmp.eq_of_compare same).symm, rfl⟩
  · exact .inr found

-- An operation leaves a storable map and answers something storable.
theorem perform_storable {state : ExtTreeMap String String} {op : Op} (small : op.Small)
    (fits : ∀ key value, state[key]? = some value → Fits key ∧ Fits value) :
    (perform state op).1.Storable ∧
      ∀ key value, (perform state op).2[key]? = some value → Fits key ∧ Fits value := by
  have inserted {key value : String} (both : Fits key ∧ Fits value) (key' value' : String)
      (found : (state.insert key value)[key']? = some value') : Fits key' ∧ Fits value' := by
    rcases getElem?_insert_cases found with ⟨rfl, rfl⟩ | old
    · exact both
    · exact fits key' value' old
  cases op with
  | noop | setMembers => exact ⟨trivial, fits⟩
  | get key => exact ⟨fun text seen => (fits key text seen).2, fits⟩
  | put key value => exact ⟨trivial, inserted small⟩
  | delete key =>
    refine ⟨trivial, fun key' value found => ?_⟩
    rw [perform, ExtTreeMap.getElem?_erase] at found
    split at found
    · cases found
    · exact fits key' value found
  | cas key expect value =>
    rw [perform]
    split
    · exact ⟨trivial, inserted small⟩
    · exact ⟨trivial, fits⟩

theorem Storable.execute (storable : sm.Storable) {cmd : Command} (small : cmd.Small) :
    (sm.execute cmd).2.Storable := by
  obtain ⟨answer, state⟩ := perform_storable small.2.2 storable.state
  refine ⟨state, fun client s found => ?_⟩
  rcases getElem?_insert_cases found with ⟨rfl, rfl⟩ | old
  · exact ⟨small.1, small.2.1, answer⟩
  · exact storable.sessions client s old

theorem Storable.apply (storable : sm.Storable) {cmd : Command} (small : cmd.Small) :
    (sm.apply cmd).2.Storable := by
  unfold StateMachine.apply
  split
  · exact storable
  · split
    · split
      · exact storable
      · exact storable.execute small
    · exact storable.execute small

theorem Storable.applyAll (storable : sm.Storable) {cmds : List Command} (small : ∀ cmd ∈ cmds, cmd.Small) :
    (sm.applyAll cmds).Storable := by
  unfold StateMachine.applyAll
  induction cmds generalizing sm with
  | nil => exact storable
  | cons cmd rest ih =>
    exact ih (storable.apply (small cmd List.mem_cons_self))
      fun later member => small later (List.mem_cons_of_mem _ member)

theorem storable_empty : Storable {} := ⟨nofun, nofun⟩

theorem decodePair_encode {pair : String × String} (key : Fits pair.1) (value : Fits pair.2) (rest : Bytes) :
    decodePair (encodePair pair ++ rest) = .ok (pair, rest) := by
  simp only [decodePair, encodePair, List.append_assoc]
  rw [Dec.run_bind_ok (Dec.string_encode key _), Dec.run_bind_ok (Dec.string_encode value rest)]
  rfl

theorem decodeSession_encode {entry : Nat × Session} (client : entry.1 < 2 ^ 32) (seq : entry.2.seq < 2 ^ 64)
    (outcome : entry.2.outcome.Bounded) (rest : Bytes) :
    decodeSession (encodeSession entry ++ rest) = .ok (entry, rest) := by
  simp only [decodeSession, encodeSession, List.append_assoc]
  rw [Dec.run_bind_ok (Dec.u32_encode client _), Dec.run_bind_ok (Dec.u64_encode seq _),
    Dec.run_bind_ok (Outcome.decode_encode outcome rest)]
  rfl

/-- Everything in the machine can be written, and there is not too much of it. -/
structure Bounded (sm : StateMachine) : Prop where
  state : ∀ key value, sm.state[key]? = some value → Fits key ∧ Fits value
  sessions : ∀ client s, sm.sessions[client]? = some s → client < 2 ^ 32 ∧ s.seq < 2 ^ 64 ∧ s.outcome.Bounded
  keys : sm.state.size ≤ maxEntries
  clients : sm.sessions.size ≤ maxEntries

theorem Storable.bounded (storable : sm.Storable) (keys : sm.state.size ≤ maxEntries)
    (clients : sm.sessions.size ≤ maxEntries) : sm.Bounded where
  state := storable.state
  sessions := fun client s found =>
    (storable.sessions client s found).imp_right fun rest => rest.imp_right Outcome.Storable.bounded
  keys
  clients

theorem Bounded.restore_encode (bounded : sm.Bounded) : restore sm.encode = .ok sm := by
  have room : maxEntries < 2 ^ 32 := by decide
  have keys := bounded.keys
  have clients := bounded.clients
  have pairs : ∀ rest, Dec.many decodePair sm.state.size (sm.state.toList.flatMap encodePair ++ rest) =
      .ok (sm.state.toList, rest) := by
    rw [← ExtTreeMap.length_toList]
    refine Dec.many_encode sm.state.toList fun pair member rest => ?_
    obtain ⟨key, value⟩ := bounded.state _ _ (ExtTreeMap.mem_toList_iff_getElem?_eq_some.mp member)
    exact decodePair_encode key value rest
  have sessions : Dec.many decodeSession sm.sessions.size (sm.sessions.toList.flatMap encodeSession ++ []) =
      .ok (sm.sessions.toList, []) := by
    rw [← ExtTreeMap.length_toList]
    refine Dec.many_encode sm.sessions.toList (fun entry member rest => ?_) []
    obtain ⟨client, seq, outcome⟩ :=
      bounded.sessions _ _ (ExtTreeMap.mem_toList_iff_getElem?_eq_some.mp member)
    exact decodeSession_encode client seq outcome rest
  rw [List.append_nil] at sessions
  have whole : decode sm.encode = .ok (sm, []) := by
    rw [decode, encode, Dec.run_bind_ok (Dec.u32_encode (by omega) _), if_neg (by omega)]
    dsimp only
    rw [Dec.run_bind_ok (pairs _), Dec.run_bind_ok (Dec.u32_encode (by omega) _), if_neg (by omega),
      Dec.run_bind_ok sessions, filled_toList, filled_toList]
    rfl
  rw [restore, whole]
  rfl

def answers : StateMachine → List Command → List Outcome
  | _, [] => []
  | sm, cmd :: rest => (sm.apply cmd).1 :: answers (sm.apply cmd).2 rest

/-- A snapshot between two runs of commands makes no difference, and different machines have different images. -/
theorem snapshot_invisible {xs : List Command} (small : ∀ cmd ∈ xs, cmd.Small)
    (keys : (applyAll {} xs).state.size ≤ maxEntries) (clients : (applyAll {} xs).sessions.size ≤ maxEntries) :
    (applyAll {} xs).Bounded ∧
      (∃ restored, restore (applyAll {} xs).encode = .ok restored ∧ ∀ ys : List Command,
        restored.answers ys = (applyAll {} xs).answers ys ∧
        (restored.applyAll ys).state = ((applyAll {} xs).applyAll ys).state ∧
        (restored.applyAll ys).sessions = ((applyAll {} xs).applyAll ys).sessions) ∧
      ∀ a b : StateMachine, a.Bounded → b.Bounded →
        (a.encode = b.encode ↔ a.state = b.state ∧ a.sessions = b.sessions) := by
  have bounded := (storable_empty.applyAll small).bounded keys clients
  refine ⟨bounded, ⟨_, bounded.restore_encode, fun ys => ⟨rfl, rfl, rfl⟩⟩, fun a b left right => ?_⟩
  constructor
  · intro same
    -- both images are read back, and as the same machine
    have read := left.restore_encode
    rw [same, right.restore_encode] at read
    cases read
    exact ⟨rfl, rfl⟩
  · rintro ⟨state, sessions⟩
    rw [encode, encode, state, sessions]

def visits : List Command :=
  [{ client := 7, seq := 1, op := .put "k" "v" }, { client := 8, seq := 1, op := .cas "k" none "w" },
    { client := 9, seq := 4, op := .get "k" }]

theorem snapshot_invisible_visits :
    ∃ restored, restore (applyAll {} visits).encode = .ok restored ∧
      restored.answers visits.reverse = [.value (some "v"), .cas false, .written] := by
  have fits : Fits "k" ∧ Fits "v" ∧ Fits "w" := by decide +kernel
  have small : ∀ cmd ∈ visits, cmd.Small := by
    simp [visits, Command.Small, Op.Small, fits]
  obtain ⟨-, ⟨restored, read, after⟩, -⟩ := snapshot_invisible small (by decide +kernel) (by decide +kernel)
  refine ⟨restored, read, ?_⟩
  rw [(after visits.reverse).1]
  decide +kernel

end StateMachine

theorem Codec.Dec.bytes_tooLong {data : Bytes} (long : maxField < data.length) (small : data.length < 2 ^ 32)
    (rest : Bytes) : Dec.bytes (Enc.bytes data ++ rest) = .error .tooLong := by
  rw [Dec.bytes, Enc.bytes, List.append_assoc, run_bind_ok (u32_encode small _), if_pos long]
  rfl

theorem Codec.Dec.run_bind_error {α β : Type} {item : Dec α} {next : α → Dec β} {input : Bytes}
    {e : DecodeError} (first : item input = .error e) : (item >>= next) input = .error e := by
  change (item input >>= fun pair => next pair.1 pair.2) = _
  rw [first]
  rfl

theorem decodeSnapshotPayload_encode {members : List NodeId} {app : Bytes} (few : members.length ≤ 256)
    (short : app.length ≤ maxField) :
    decodeSnapshotPayload (encodeSnapshotPayload members app) = some (members, app) := by
  have last := Dec.bytes_encode short []
  rw [List.append_nil] at last
  simp only [decodeSnapshotPayload, encodeSnapshotPayload]
  rw [Dec.run_bind_ok (Dec.u32_encode (by omega) _), if_neg (by omega),
    Dec.run_bind_ok (Dec.nodes_encode members _), Dec.run_bind_ok last]
  rfl

namespace Snapshot

/-- Numbers of a snapshot are `u64`s, and the file is not too long to be one. -/
structure Writable (s : Snapshot) : Prop where
  seq : s.seq < 2 ^ 64
  index : s.index < 2 ^ 64
  term : s.term < 2 ^ 64
  size : s.payload.length ≤ maxSnapshot

theorem payload_length (s : Snapshot) : s.payload.length = 28 + s.data.length := by
  simp only [payload, Enc.bytes, Enc.u64, Enc.u32, List.length_append, LittleEndian.length_encode]
  omega

theorem payload_le {s : Snapshot} {size : Nat} (data : s.data.length = size) (room : 28 + size ≤ maxSnapshot) :
    s.payload.length ≤ maxSnapshot := by
  rwa [payload_length, data]

-- The frame of a snapshot file is sound; what counts is the payload.
theorem decode_encode_payload {s : Snapshot} (writable : s.Writable) :
    decode s.encode = (decodePayload s.payload).toOption.map Prod.fst := by
  have small : maxSnapshot < 2 ^ 32 := by decide
  have size := writable.size
  obtain ⟨len, crc, payload, whole⟩ := frame_split s.payload [] (by omega)
  simp only [List.append_nil, List.length_nil, Nat.add_zero] at len crc payload whole
  have some_ := s.payload_length
  unfold decode encode
  rw [if_neg (by rw [whole]; omega)]
  simp only [len, crc, payload, whole]
  rw [if_neg (by omega), if_neg (by simp)]

theorem decode_encode {s : Snapshot} (writable : s.Writable) (short : s.data.length ≤ maxField) :
    decode s.encode = some s := by
  have last := Dec.bytes_encode short []
  rw [List.append_nil] at last
  have read : decodePayload s.payload = .ok (s, []) := by
    rw [decodePayload, payload, Dec.run_bind_ok (Dec.u64_encode writable.seq _),
      Dec.run_bind_ok (Dec.u64_encode writable.index _), Dec.run_bind_ok (Dec.u64_encode writable.term _),
      Dec.run_bind_ok last]
    rfl
  rw [decode_encode_payload writable, read]
  rfl

theorem decode_encode_long {s : Snapshot} (writable : s.Writable) (long : maxField < s.data.length) :
    decode s.encode = none := by
  have small : maxSnapshot < 2 ^ 32 := by decide
  have size := writable.size
  rw [payload_length] at size
  have last := Dec.bytes_tooLong long (by omega) []
  rw [List.append_nil] at last
  have read : decodePayload s.payload = .error .tooLong := by
    rw [decodePayload, payload, Dec.run_bind_ok (Dec.u64_encode writable.seq _),
      Dec.run_bind_ok (Dec.u64_encode writable.index _), Dec.run_bind_ok (Dec.u64_encode writable.term _)]
    exact Dec.run_bind_error last
  rw [decode_encode_payload writable, read]
  rfl

end Snapshot

def StateMachine.Reachable (sm : StateMachine) : Prop :=
  ∃ cmds : List Command, (∀ cmd ∈ cmds, cmd.Delivered) ∧ sm = StateMachine.applyAll {} cmds

/-- What is written for a machine is read back as it was: from a snapshot file, and from the message that
transfers it. -/
def ReadsBack (members : List NodeId) (sm : StateMachine) (seq index term : Nat) : Prop :=
  (∃ snap app, Snapshot.decode
      (Snapshot.encode { seq, index, term, data := encodeSnapshotPayload members sm.encode }) = some snap ∧
    snap.seq = seq ∧ snap.index = index ∧ snap.term = term ∧
    decodeSnapshotPayload snap.data = some (members, app) ∧ StateMachine.restore app = .ok sm) ∧
  ∀ leaderTerm < 2 ^ 64, ∀ leader,
    Message.decode (Message.encode (.raft
      (.installSnapshot leaderTerm leader index term (encodeSnapshotPayload members sm.encode)))) =
    .ok (.raft (.installSnapshot leaderTerm leader index term (encodeSnapshotPayload members sm.encode)))

theorem encodeSnapshotPayload_length (members : List NodeId) (app : Bytes) :
    (encodeSnapshotPayload members app).length = 8 + 4 * members.length + app.length := by
  simp only [encodeSnapshotPayload, List.length_append, Enc.nodes_length]
  simp only [Enc.bytes, Enc.u32, List.length_append, LittleEndian.length_encode]
  omega

-- A short image has few entries.
theorem StateMachine.sizes_le (sm : StateMachine) :
    sm.state.size ≤ sm.encode.length ∧ sm.sessions.size ≤ sm.encode.length := by
  have pair (p : String × String) : 1 ≤ (encodePair p).length := by
    rw [encodePair, List.length_append, Enc.str_length]
    omega
  have session (entry : Nat × Session) : 1 ≤ (encodeSession entry).length := by
    rw [encodeSession, List.length_append, Enc.u32, LittleEndian.length_encode]
    omega
  have pairs := length_le_flatMap pair sm.state.toList
  have sessions := length_le_flatMap session sm.sessions.toList
  rw [ExtTreeMap.length_toList] at pairs sessions
  simp only [encode, List.length_append]
  omega

theorem readsBack_iff {members : List NodeId} {sm : StateMachine} {seq index term : Nat}
    (few : members.length ≤ 256) (storable : sm.Storable)
    (writable : Snapshot.Writable { seq, index, term, data := encodeSnapshotPayload members sm.encode }) :
    ReadsBack members sm seq index term ↔ (encodeSnapshotPayload members sm.encode).length ≤ maxField := by
  constructor
  · rintro ⟨⟨snap, _, read, _⟩, _⟩
    by_contra long
    rw [Snapshot.decode_encode_long writable (Nat.lt_of_not_le long)] at read
    cases read
  · intro short
    have app : sm.encode.length ≤ maxField := by
      rw [encodeSnapshotPayload_length] at short
      omega
    obtain ⟨keys, count⟩ := sm.sizes_le
    have entries : maxField ≤ StateMachine.maxEntries := by decide
    refine ⟨⟨_, _, Snapshot.decode_encode writable short, rfl, rfl, rfl,
      decodeSnapshotPayload_encode few app, (storable.bounded (by omega) (by omega)).restore_encode⟩, ?_⟩
    intro leaderTerm terms leader
    exact @Message.decode_encode (.raft _) ⟨terms, writable.index, writable.term, short⟩

/-- A snapshot of a machine that can be reached, with any membership, is read back exactly if the payload
fits one field. -/
theorem snapshot_readsBack_iff {members : List NodeId} {sm : StateMachine} {seq index term : Nat}
    (reachable : sm.Reachable) (few : members.length ≤ 256)
    (writable : Snapshot.Writable { seq, index, term, data := encodeSnapshotPayload members sm.encode }) :
    ReadsBack members sm seq index term ↔ (encodeSnapshotPayload members sm.encode).length ≤ maxField := by
  obtain ⟨cmds, delivered, rfl⟩ := reachable
  exact readsBack_iff few (StateMachine.storable_empty.applyAll fun cmd member => (delivered cmd member).valid.small)
    writable

def usualMachine : StateMachine := StateMachine.applyAll {} [(usualEntry 2).cmd]

theorem snapshot_readsBack_iff_usual :
    usualMachine.Reachable ∧ (encodeSnapshotPayload [0, 1, 2] usualMachine.encode).length ≤ maxField ∧
      ReadsBack [0, 1, 2] usualMachine 1 2 1 := by
  have delivered : (usualEntry 2).cmd.Delivered :=
    .inl ⟨_, 1, @Message.decode_encode (.client _) ⟨by decide, usualEntry_valid⟩⟩
  have reachable : usualMachine.Reachable := ⟨_, List.forall_mem_singleton.mpr delivered, rfl⟩
  have short : (encodeSnapshotPayload [0, 1, 2] usualMachine.encode).length ≤ maxField := by decide +kernel
  refine ⟨reachable, short, (snapshot_readsBack_iff reachable (by decide) ⟨by decide, by decide, by decide, ?_⟩).mpr
    short⟩
  decide +kernel

theorem toList_insert_empty {K V : Type} [Ord K] [TransOrd K] [LawfulEqOrd K] (key : K) (value : V) :
    ((∅ : ExtTreeMap K V).insert key value).toList = [(key, value)] := by
  have size : ((∅ : ExtTreeMap K V).insert key value).toList.length = 1 := by
    rw [ExtTreeMap.length_toList, ExtTreeMap.size_insert]
    rfl
  obtain ⟨pair, whole⟩ := List.length_eq_one_iff.mp size
  have member : (key, value) ∈ ((∅ : ExtTreeMap K V).insert key value).toList :=
    ExtTreeMap.mem_toList_iff_getElem?_eq_some.mpr ExtTreeMap.getElem?_insert_self
  rw [whole, List.mem_singleton] at member
  rw [whole, member]

def keyMachine (key : String) : StateMachine := StateMachine.applyAll {} [(keyEntry key).cmd]

-- One pair and one session.
theorem keyMachine_eq (key : String) : keyMachine key =
    { state := (∅ : ExtTreeMap String String).insert key "v"
      sessions := (∅ : ExtTreeMap Nat Session).insert 7 { seq := 1, outcome := .written } } := by
  simp [keyMachine, keyEntry, StateMachine.applyAll, StateMachine.apply, Command.members, StateMachine.execute,
    StateMachine.perform]

theorem keyMachine_length (key : String) : (keyMachine key).encode.length = 30 + (Enc.utf8 key).length := by
  have pair : (StateMachine.encodePair (key, "v")).length = 9 + (Enc.utf8 key).length := by
    have value : (Enc.str "v").length = 5 := rfl
    simp only [StateMachine.encodePair, List.length_append, Enc.str_length key, value]
    omega
  have session : (StateMachine.encodeSession (7, { seq := 1, outcome := .written })).length = 13 := rfl
  rw [keyMachine_eq, StateMachine.encode]
  simp only [toList_insert_empty, List.flatMap_singleton, List.length_append, pair, session, Enc.u32,
    LittleEndian.length_encode]
  omega

/-- One long key is too much for the field that holds the image, though far from too much for the file. -/
theorem snapshot_lost : (keyMachine longKey).Reachable ∧
    Snapshot.Writable
      { seq := 1, index := 1, term := 1, data := encodeSnapshotPayload [0] (keyMachine longKey).encode } ∧
    ¬ ReadsBack [0] (keyMachine longKey) 1 1 1 := by
  have image : (encodeSnapshotPayload [0] (keyMachine longKey).encode).length = 42 + maxField := by
    rw [encodeSnapshotPayload_length, keyMachine_length, longKey_length, List.length_singleton]
    omega
  have writable : Snapshot.Writable
      { seq := 1, index := 1, term := 1, data := encodeSnapshotPayload [0] (keyMachine longKey).encode } := by
    have room : 28 + (42 + maxField) ≤ maxSnapshot := by decide
    exact ⟨(by decide : 1 < 2 ^ 64), (by decide : 1 < 2 ^ 64), (by decide : 1 < 2 ^ 64),
      Snapshot.payload_le image room⟩
  have delivered := keyEntry_delivered longKey_fits
  have storable : (keyMachine longKey).Storable :=
    StateMachine.storable_empty.applyAll (List.forall_mem_singleton.mpr delivered.2.2.valid.small)
  refine ⟨⟨_, List.forall_mem_singleton.mpr delivered.2.2, rfl⟩, writable, ?_⟩
  rw [readsBack_iff (by decide) storable writable, image]
  omega

end SimKv
