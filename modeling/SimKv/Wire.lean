import SimKv.Kv.StateMachine
import SimKv.Raft.State

set_option autoImplicit false

/-!
# Everything that travels

`kvstore::Message`: Raft's messages and the clients', in one checksummed frame. Limits apply field by
field; a message that passes them all can still be longer than any one of them.
-/

namespace SimKv

open Codec

namespace Codec

def frame (payload : Bytes) : Bytes := crcBytes payload ++ payload

def unframe (bytes : Bytes) : Except DecodeError Bytes :=
  if bytes.length < 4 then .error .truncated
  else
    let payload := bytes.drop 4
    if (crc32 payload).toNat ≠ LittleEndian.decode (bytes.take 4) then .error .badChecksum
    else .ok payload

theorem unframe_frame (payload : Bytes) : unframe (frame payload) = .ok payload := by
  have crc : (crcBytes payload).length = 4 := by simp [crcBytes, Enc.u32]
  have tail : (frame payload).drop 4 = payload := List.drop_left' crc
  have head : LittleEndian.decode ((frame payload).take 4) = (crc32 payload).toNat := by
    rw [frame, List.take_left' crc, crcBytes, Enc.u32,
      LittleEndian.decode_encode_of_lt 4 (crc32 payload).toNat_lt]
  have long : ¬ (frame payload).length < 4 := by
    rw [frame, List.length_append, crc]
    omega
  rw [unframe, if_neg long]
  simp only [tail, head, ne_eq, not_true_eq_false, if_false]

def Enc.node (id : NodeId) : Bytes := Enc.u32 id.toNat

def Dec.node : Dec NodeId := do return UInt32.ofNat (← Dec.u32)

def Enc.flag (value : Bool) : Bytes := Enc.u8 value.toNat

def Dec.flag : Dec Bool := do return (← Dec.u8) ≠ 0

theorem Dec.node_encode (id : NodeId) (rest : Bytes) : Dec.node (Enc.node id ++ rest) = .ok (id, rest) := by
  rw [node, Enc.node, run_bind_ok (u32_encode id.toNat_lt rest)]
  simp

theorem Dec.nodes_encode (members : List NodeId) (rest : Bytes) :
    Dec.many (do return UInt32.ofNat (← Dec.u32)) members.length
      ((members.flatMap fun m => Enc.u32 m.toNat) ++ rest) = .ok (members, rest) :=
  many_encode members (fun m _ rest => node_encode m rest) rest

def Fits (text : String) : Prop := (Enc.utf8 text).length ≤ maxField

end Codec

-- What a decoder can deliver, and that all of it is read back.

namespace Op

def Valid : Op → Prop
  | .noop => True
  | .get key | .delete key => Fits key
  | .put key value => Fits key ∧ Fits value
  | .cas key expect value => Fits key ∧ (∀ text ∈ expect, Fits text) ∧ Fits value
  | .setMembers members => 1 ≤ members.length ∧ members.length ≤ 256

theorem decode_yields : Op.decode.Yields Op.Valid := by
  refine Dec.u8_yields.bind fun tag _ => ?_
  split
  · exact .pure trivial
  · exact Dec.string_yields.bind fun key fits => .pure fits
  · exact Dec.string_yields.bind fun key fits => Dec.string_yields.bind fun value small => .pure ⟨fits, small⟩
  · exact Dec.string_yields.bind fun key fits => .pure fits
  · exact Dec.string_yields.bind fun key fits => Dec.optString_yields.bind fun expect expected =>
      Dec.string_yields.bind fun value small => .pure ⟨fits, expected, small⟩
  · refine Dec.u32_yields.bind fun count _ => ?_
    split
    · exact .throw
    · next inside =>
      have each : (do return UInt32.ofNat (← Dec.u32) : Dec NodeId).Yields fun _ => True :=
        Dec.u32_yields.bind fun _ _ => .pure trivial
      refine each.many.bind fun members size => .pure ?_
      simp only [Valid, size.1]
      omega
  · exact .throw

theorem decode_encode {op : Op} (valid : op.Valid) (rest : Bytes) :
    Op.decode (op.encode ++ rest) = .ok (op, rest) := by
  unfold decode
  cases op with
  | noop =>
    rw [encode, Dec.run_bind_ok (Dec.u8_encode (by decide) _)]
    rfl
  | get key | delete key =>
    rw [encode, List.append_assoc, Dec.run_bind_ok (Dec.u8_encode (by decide) _)]
    simp only
    rw [Dec.run_bind_ok (Dec.string_encode valid rest)]
    rfl
  | put key value =>
    simp only [encode, List.append_assoc]
    rw [Dec.run_bind_ok (Dec.u8_encode (by decide) _)]
    simp only
    rw [Dec.run_bind_ok (Dec.string_encode valid.1 _), Dec.run_bind_ok (Dec.string_encode valid.2 rest)]
    rfl
  | cas key expect value =>
    simp only [encode, List.append_assoc]
    rw [Dec.run_bind_ok (Dec.u8_encode (by decide) _)]
    simp only
    rw [Dec.run_bind_ok (Dec.string_encode valid.1 _), Dec.run_bind_ok (Dec.optString_encode valid.2.1 _),
      Dec.run_bind_ok (Dec.string_encode valid.2.2 rest)]
    rfl
  | setMembers members =>
    obtain ⟨some_, few⟩ := valid
    simp only [encode, List.append_assoc]
    rw [Dec.run_bind_ok (Dec.u8_encode (by decide) _)]
    simp only
    rw [Dec.run_bind_ok (Dec.u32_encode (by omega) _), if_neg (by omega),
      Dec.run_bind_ok (Dec.nodes_encode members rest)]
    rfl

end Op

namespace Command

def Valid (cmd : Command) : Prop := cmd.client < 2 ^ 32 ∧ cmd.seq < 2 ^ 64 ∧ cmd.op.Valid

theorem decode_yields : Command.decode.Yields Command.Valid :=
  Dec.u32_yields.bind fun _ client => Dec.u64_yields.bind fun _ seq => Op.decode_yields.bind fun _ op =>
    .pure ⟨client, seq, op⟩

theorem decode_encode {cmd : Command} (valid : cmd.Valid) (rest : Bytes) :
    Command.decode (cmd.encode ++ rest) = .ok (cmd, rest) := by
  simp only [decode, encode, List.append_assoc]
  rw [Dec.run_bind_ok (Dec.u32_encode valid.1 _), Dec.run_bind_ok (Dec.u64_encode valid.2.1 _),
    Dec.run_bind_ok (Op.decode_encode valid.2.2 rest)]
  rfl

end Command

namespace Entry

def Valid (e : Entry) : Prop := e.term < 2 ^ 64 ∧ e.index < 2 ^ 64 ∧ e.cmd.Valid

theorem decode_yields : Entry.decode.Yields Entry.Valid :=
  Dec.u64_yields.bind fun _ term => Dec.u64_yields.bind fun _ index => Command.decode_yields.bind fun _ cmd =>
    .pure ⟨term, index, cmd⟩

theorem decode_encode {e : Entry} (valid : e.Valid) (rest : Bytes) :
    Entry.decode (e.encode ++ rest) = .ok (e, rest) := by
  simp only [decode, encode, List.append_assoc]
  rw [Dec.run_bind_ok (Dec.u64_encode valid.1 _), Dec.run_bind_ok (Dec.u64_encode valid.2.1 _),
    Dec.run_bind_ok (Command.decode_encode valid.2.2 rest)]
  rfl

end Entry

namespace RaftMsg

def maxEntries : Nat := 4096

def encode : RaftMsg → Bytes
  | .requestVote term candidate lastIndex lastTerm =>
      Enc.u8 1 ++ (Enc.u64 term ++ (Enc.node candidate ++ (Enc.u64 lastIndex ++ Enc.u64 lastTerm)))
  | .requestVoteResp term granted => Enc.u8 2 ++ (Enc.u64 term ++ Enc.flag granted)
  | .appendEntries term leader prevIndex prevTerm entries leaderCommit =>
      Enc.u8 3 ++ (Enc.u64 term ++ (Enc.node leader ++ (Enc.u64 prevIndex ++ (Enc.u64 prevTerm ++
        (Enc.u64 leaderCommit ++ (Enc.u32 entries.length ++ entries.flatMap Entry.encode))))))
  | .appendEntriesResp term success matchIndex conflictIndex =>
      Enc.u8 4 ++ (Enc.u64 term ++ (Enc.flag success ++ (Enc.u64 matchIndex ++ Enc.u64 conflictIndex)))
  | .installSnapshot term leader index indexTerm data =>
      Enc.u8 5 ++ (Enc.u64 term ++ (Enc.node leader ++ (Enc.u64 index ++ (Enc.u64 indexTerm ++
        Enc.bytes data))))
  | .installSnapshotResp term index => Enc.u8 6 ++ (Enc.u64 term ++ Enc.u64 index)
  | .readProbe term leader seq => Enc.u8 7 ++ (Enc.u64 term ++ (Enc.node leader ++ Enc.u64 seq))
  | .readProbeResp term seq => Enc.u8 8 ++ (Enc.u64 term ++ Enc.u64 seq)
  | .preVote term candidate lastIndex lastTerm =>
      Enc.u8 9 ++ (Enc.u64 term ++ (Enc.node candidate ++ (Enc.u64 lastIndex ++ Enc.u64 lastTerm)))
  | .preVoteResp term round granted => Enc.u8 10 ++ (Enc.u64 term ++ (Enc.u64 round ++ Enc.flag granted))

def decode : Dec RaftMsg := do
  match ← Dec.u8 with
  | 1 => return .requestVote (← Dec.u64) (← Dec.node) (← Dec.u64) (← Dec.u64)
  | 2 => return .requestVoteResp (← Dec.u64) (← Dec.flag)
  | 3 => do
    let term ← Dec.u64
    let leader ← Dec.node
    let prevIndex ← Dec.u64
    let prevTerm ← Dec.u64
    let leaderCommit ← Dec.u64
    let count ← Dec.u32
    if maxEntries < count then throw .tooLong
    let entries ← Dec.many Entry.decode count
    return .appendEntries term leader prevIndex prevTerm entries leaderCommit
  | 4 => return .appendEntriesResp (← Dec.u64) (← Dec.flag) (← Dec.u64) (← Dec.u64)
  | 5 => return .installSnapshot (← Dec.u64) (← Dec.node) (← Dec.u64) (← Dec.u64) (← Dec.bytes)
  | 6 => return .installSnapshotResp (← Dec.u64) (← Dec.u64)
  | 7 => return .readProbe (← Dec.u64) (← Dec.node) (← Dec.u64)
  | 8 => return .readProbeResp (← Dec.u64) (← Dec.u64)
  | 9 => return .preVote (← Dec.u64) (← Dec.node) (← Dec.u64) (← Dec.u64)
  | 10 => return .preVoteResp (← Dec.u64) (← Dec.u64) (← Dec.flag)
  | tag => throw (.badTag tag)

end RaftMsg

inductive ClientMsg where
  | request (reqId client seq : Nat) (op : Op)
  | reply (reqId : Nat) (outcome : Outcome)
  deriving DecidableEq, Repr

namespace ClientMsg

def encode : ClientMsg → Bytes
  | .request reqId client seq op =>
      Enc.u8 1 ++ (Enc.u64 reqId ++ (Enc.u32 client ++ (Enc.u64 seq ++ Command.encode { client, seq, op })))
  | .reply reqId outcome => Enc.u8 2 ++ (Enc.u64 reqId ++ outcome.encode)

/-- The identity on the outside counts; of the command only the operation is kept. -/
def decode : Dec ClientMsg := do
  match ← Dec.u8 with
  | 1 => do
    let reqId ← Dec.u64
    let client ← Dec.u32
    let seq ← Dec.u64
    let cmd ← Command.decode
    return .request reqId client seq cmd.op
  | 2 => return .reply (← Dec.u64) (← Outcome.decode)
  | tag => throw (.badTag tag)

end ClientMsg

inductive Message where
  | raft (msg : RaftMsg)
  | client (msg : ClientMsg)
  deriving DecidableEq, Repr

namespace Message

def encode : Message → Bytes
  | .raft msg => frame (Enc.u8 1 ++ msg.encode)
  | .client msg => frame (Enc.u8 2 ++ msg.encode)

def decodeBody : Dec Message := do
  match ← Dec.u8 with
  | 1 => return .raft (← RaftMsg.decode)
  | 2 => return .client (← ClientMsg.decode)
  | tag => throw (.badTag tag)

def decodePayload : Dec Message := do
  let msg ← decodeBody
  Dec.finish
  return msg

def decode (bytes : Bytes) : Except DecodeError Message := do
  let payload ← unframe bytes
  return (← decodePayload payload).1

end Message

theorem Message.decode_frame {payload : Bytes} {msg : Message}
    (read : Message.decodeBody payload = .ok (msg, [])) : Message.decode (frame payload) = .ok msg := by
  have whole : Message.decodePayload payload = .ok (msg, []) := by
    rw [decodePayload, Dec.run_bind_ok read]
    rfl
  simp only [Message.decode, unframe_frame, bind, Except.bind, whole]
  rfl

/-- What can be counted on in a message that was decoded: a request carries a valid command, an append
valid entries. -/
def RaftMsg.Valid : RaftMsg → Prop
  | .appendEntries _ _ _ _ entries _ => ∀ e ∈ entries, e.Valid
  | _ => True

def ClientMsg.Valid : ClientMsg → Prop
  | .request _ client seq op => Command.Valid { client, seq, op }
  | .reply .. => True

def Message.Valid : Message → Prop
  | .raft msg => msg.Valid
  | .client msg => msg.Valid

theorem RaftMsg.decode_yields : RaftMsg.decode.Yields RaftMsg.Valid := by
  have two {α β : Type} (first : Dec α) (second : Dec β) {make : α → β → RaftMsg}
      (fine : ∀ a b, (make a b).Valid) : (do return make (← first) (← second) : Dec RaftMsg).Yields Valid :=
    (Dec.Yields.any first).bind fun a _ => (Dec.Yields.any second).bind fun b _ => .pure (fine a b)
  refine Dec.u8_yields.bind fun tag _ => ?_
  split
  · exact (Dec.Yields.any _).bind fun _ _ => (Dec.Yields.any _).bind fun _ _ => two _ _ fun _ _ => trivial
  · exact two _ _ fun _ _ => trivial
  · refine (Dec.Yields.any _).bind fun _ _ => (Dec.Yields.any _).bind fun _ _ =>
      (Dec.Yields.any _).bind fun _ _ => (Dec.Yields.any _).bind fun _ _ =>
      (Dec.Yields.any _).bind fun _ _ => (Dec.Yields.any _).bind fun count _ => ?_
    split
    · exact .throw
    · exact Entry.decode_yields.many.bind fun entries valid => .pure valid.2
  · exact (Dec.Yields.any _).bind fun _ _ => (Dec.Yields.any _).bind fun _ _ => two _ _ fun _ _ => trivial
  · exact (Dec.Yields.any _).bind fun _ _ => (Dec.Yields.any _).bind fun _ _ =>
      (Dec.Yields.any _).bind fun _ _ => two _ _ fun _ _ => trivial
  · exact two _ _ fun _ _ => trivial
  · exact (Dec.Yields.any _).bind fun _ _ => two _ _ fun _ _ => trivial
  · exact two _ _ fun _ _ => trivial
  · exact (Dec.Yields.any _).bind fun _ _ => (Dec.Yields.any _).bind fun _ _ => two _ _ fun _ _ => trivial
  · exact (Dec.Yields.any _).bind fun _ _ => two _ _ fun _ _ => trivial
  · exact .throw

theorem ClientMsg.decode_yields : ClientMsg.decode.Yields ClientMsg.Valid := by
  refine Dec.u8_yields.bind fun tag _ => ?_
  split
  · exact (Dec.Yields.any _).bind fun _ _ => Dec.u32_yields.bind fun _ client =>
      Dec.u64_yields.bind fun _ seq => Command.decode_yields.bind fun _ cmd => .pure ⟨client, seq, cmd.2.2⟩
  · exact (Dec.Yields.any _).bind fun _ _ => (Dec.Yields.any _).bind fun _ _ => .pure trivial
  · exact .throw

theorem Message.decodePayload_yields : Message.decodePayload.Yields Message.Valid := by
  have body : Message.decodeBody.Yields Message.Valid := by
    refine Dec.u8_yields.bind fun tag _ => ?_
    split
    · exact RaftMsg.decode_yields.bind fun _ valid => .pure valid
    · exact ClientMsg.decode_yields.bind fun _ valid => .pure valid
    · exact .throw
  exact body.bind fun _ valid => (Dec.Yields.any _).bind fun _ _ => .pure valid

-- A message that was decoded is one that a payload gave up.
theorem Message.decode_inv {bytes : Bytes} {msg : Message} (decoded : Message.decode bytes = .ok msg) :
    ∃ payload rest, unframe bytes = .ok payload ∧ decodePayload payload = .ok (msg, rest) := by
  unfold Message.decode at decoded
  cases framed : unframe bytes with
  | error e =>
    rw [framed] at decoded
    cases decoded
  | ok payload =>
    rw [framed] at decoded
    cases run : decodePayload payload with
    | error e =>
      simp only [bind, Except.bind, run] at decoded
      cases decoded
    | ok pair =>
      simp only [bind, Except.bind, run] at decoded
      cases decoded
      exact ⟨payload, pair.2, rfl, run⟩

theorem Message.valid_of_decode {bytes : Bytes} {msg : Message} (decoded : Message.decode bytes = .ok msg) :
    msg.Valid := by
  obtain ⟨payload, rest, -, run⟩ := decode_inv decoded
  exact decodePayload_yields payload msg rest run

end SimKv
