import SimKv.Wire

set_option autoImplicit false

/-!
# The wire format round-trips

What may travel is bounded field by field, and the decoder accepts nothing else. Bytes that decode need not
be the encoder's own: a flag may be any byte, and a request names its client twice.
-/

namespace SimKv

open Codec

def Word32 (n : Nat) : Prop := n < 2 ^ 32

def Word64 (n : Nat) : Prop := n < 2 ^ 64

instance (n : Nat) : Decidable (Word32 n) := inferInstanceAs (Decidable (n < 2 ^ 32))

instance (n : Nat) : Decidable (Word64 n) := inferInstanceAs (Decidable (n < 2 ^ 64))

instance (text : String) : Decidable (Fits text) := inferInstanceAs (Decidable (_ ≤ maxField))

namespace Codec.Dec

theorem flag_encode (value : Bool) (rest : Bytes) : flag (Enc.flag value ++ rest) = .ok (value, rest) := by
  cases value
  · rw [flag, Enc.flag, run_bind_ok (u8_encode (by decide) rest)]
    rfl
  · rw [flag, Enc.flag, run_bind_ok (u8_encode (by decide) rest)]
    rfl

section Bind

variable {α : Type} (rest : Bytes)

theorem bind_u8 {value : Nat} (bound : value < 256) (next : Nat → Dec α) :
    (u8 >>= next) (Enc.u8 value ++ rest) = next value rest := run_bind_ok (u8_encode bound rest)

theorem bind_u32 {value : Nat} (bound : Word32 value) (next : Nat → Dec α) :
    (u32 >>= next) (Enc.u32 value ++ rest) = next value rest := run_bind_ok (u32_encode bound rest)

theorem bind_u64 {value : Nat} (bound : Word64 value) (next : Nat → Dec α) :
    (u64 >>= next) (Enc.u64 value ++ rest) = next value rest := run_bind_ok (u64_encode bound rest)

theorem bind_node (id : NodeId) (next : NodeId → Dec α) :
    (node >>= next) (Enc.node id ++ rest) = next id rest := run_bind_ok (node_encode id rest)

theorem bind_flag (value : Bool) (next : Bool → Dec α) :
    (flag >>= next) (Enc.flag value ++ rest) = next value rest := run_bind_ok (flag_encode value rest)

theorem bind_bytes {data : Bytes} (bound : data.length ≤ maxField) (next : Bytes → Dec α) :
    (bytes >>= next) (Enc.bytes data ++ rest) = next data rest := run_bind_ok (bytes_encode bound rest)

end Bind

end Codec.Dec

def Outcome.Bounded : Outcome → Prop
  | .value seen => ∀ text ∈ seen, Fits text
  | .notLeader hint => ∀ id ∈ hint, id.toNat ≠ noHint
  | .written | .cas _ | .dropped => True

/-- Numbers are words of the source, entries are valid and not too many, and snapshot data fits a field. -/
def RaftMsg.Bounded : RaftMsg → Prop
  | .requestVote term _ lastIndex lastTerm | .preVote term _ lastIndex lastTerm =>
    Word64 term ∧ Word64 lastIndex ∧ Word64 lastTerm
  | .requestVoteResp term _ => Word64 term
  | .appendEntries term _ prevIndex prevTerm entries leaderCommit =>
    Word64 term ∧ Word64 prevIndex ∧ Word64 prevTerm ∧ Word64 leaderCommit ∧ entries.length ≤ maxEntries ∧
      ∀ e ∈ entries, e.Valid
  | .appendEntriesResp term _ matchIndex conflictIndex => Word64 term ∧ Word64 matchIndex ∧ Word64 conflictIndex
  | .installSnapshot term _ index indexTerm data =>
    Word64 term ∧ Word64 index ∧ Word64 indexTerm ∧ data.length ≤ maxField
  | .installSnapshotResp term index => Word64 term ∧ Word64 index
  | .readProbe term _ seq | .readProbeResp term seq => Word64 term ∧ Word64 seq
  | .preVoteResp term round _ => Word64 term ∧ Word64 round

def ClientMsg.Bounded : ClientMsg → Prop
  | .request reqId client seq op => Word64 reqId ∧ Command.Valid { client, seq, op }
  | .reply reqId outcome => Word64 reqId ∧ outcome.Bounded

def Message.Bounded : Message → Prop
  | .raft msg => msg.Bounded
  | .client msg => msg.Bounded

theorem Outcome.decode_encode {outcome : Outcome} (bounded : outcome.Bounded) (rest : Bytes) :
    Outcome.decode (outcome.encode ++ rest) = .ok (outcome, rest) := by
  unfold decode
  cases outcome with
  | value seen =>
    rw [encode, List.append_assoc, Dec.bind_u8 _ (by decide)]
    simp only
    rw [Dec.run_bind_ok (Dec.optString_encode bounded rest)]
    rfl
  | written | dropped =>
    rw [encode, Dec.bind_u8 _ (by decide)]
    rfl
  | cas matched =>
    rw [encode, List.append_assoc, Dec.bind_u8 _ (by decide)]
    simp only
    rw [Dec.bind_u8 _ (lt_of_le_of_lt matched.toNat_le (by decide))]
    cases matched <;> rfl
  | notLeader hint =>
    rw [encode, List.append_assoc, Dec.bind_u8 _ (by decide)]
    simp only
    cases hint with
    | none =>
      rw [Option.map_none, Option.getD_none, Dec.bind_u32 _ (by decide), if_pos rfl]
      rfl
    | some id =>
      rw [Option.map_some, Option.getD_some, Dec.bind_u32 _ id.toNat_lt, if_neg (bounded id rfl), UInt32.ofNat_toNat]
      rfl

theorem RaftMsg.decode_encode {msg : RaftMsg} (bounded : msg.Bounded) (rest : Bytes) :
    RaftMsg.decode (msg.encode ++ rest) = .ok (msg, rest) := by
  unfold decode
  cases msg with
  | requestVote term candidate lastIndex lastTerm | preVote term candidate lastIndex lastTerm =>
    obtain ⟨termWord, indexWord, lastWord⟩ := bounded
    simp only [encode, List.append_assoc]
    rw [Dec.bind_u8 _ (by decide)]
    simp only [Dec.bind_u64 _ termWord, Dec.bind_node, Dec.bind_u64 _ indexWord, Dec.bind_u64 _ lastWord]
    rfl
  | requestVoteResp term granted =>
    simp only [encode, List.append_assoc]
    rw [Dec.bind_u8 _ (by decide)]
    simp only [Dec.bind_u64 _ bounded, Dec.bind_flag]
    rfl
  | appendEntries term leader prevIndex prevTerm entries leaderCommit =>
    obtain ⟨termWord, prevWord, prevTermWord, commitWord, few, valid⟩ := bounded
    have countWord : Word32 entries.length := lt_of_le_of_lt few (by decide)
    simp only [encode, List.append_assoc]
    rw [Dec.bind_u8 _ (by decide)]
    simp only [Dec.bind_u64 _ termWord, Dec.bind_node, Dec.bind_u64 _ prevWord, Dec.bind_u64 _ prevTermWord,
      Dec.bind_u64 _ commitWord, Dec.bind_u32 _ countWord]
    rw [if_neg (not_lt.mpr few),
      Dec.run_bind_ok (Dec.many_encode entries (fun e here => Entry.decode_encode (valid e here)) rest)]
    rfl
  | appendEntriesResp term success matchIndex conflictIndex =>
    obtain ⟨termWord, matchWord, conflictWord⟩ := bounded
    simp only [encode, List.append_assoc]
    rw [Dec.bind_u8 _ (by decide)]
    simp only [Dec.bind_u64 _ termWord, Dec.bind_flag, Dec.bind_u64 _ matchWord, Dec.bind_u64 _ conflictWord]
    rfl
  | installSnapshot term leader index indexTerm data =>
    obtain ⟨termWord, indexWord, indexTermWord, fits⟩ := bounded
    simp only [encode, List.append_assoc]
    rw [Dec.bind_u8 _ (by decide)]
    simp only [Dec.bind_u64 _ termWord, Dec.bind_node, Dec.bind_u64 _ indexWord, Dec.bind_u64 _ indexTermWord,
      Dec.bind_bytes _ fits]
    rfl
  | installSnapshotResp term number | readProbeResp term number =>
    obtain ⟨termWord, numberWord⟩ := bounded
    simp only [encode, List.append_assoc]
    rw [Dec.bind_u8 _ (by decide)]
    simp only [Dec.bind_u64 _ termWord, Dec.bind_u64 _ numberWord]
    rfl
  | readProbe term leader seq =>
    obtain ⟨termWord, seqWord⟩ := bounded
    simp only [encode, List.append_assoc]
    rw [Dec.bind_u8 _ (by decide)]
    simp only [Dec.bind_u64 _ termWord, Dec.bind_node, Dec.bind_u64 _ seqWord]
    rfl
  | preVoteResp term round granted =>
    obtain ⟨termWord, roundWord⟩ := bounded
    simp only [encode, List.append_assoc]
    rw [Dec.bind_u8 _ (by decide)]
    simp only [Dec.bind_u64 _ termWord, Dec.bind_u64 _ roundWord, Dec.bind_flag]
    rfl

theorem ClientMsg.decode_encode {msg : ClientMsg} (bounded : msg.Bounded) (rest : Bytes) :
    ClientMsg.decode (msg.encode ++ rest) = .ok (msg, rest) := by
  unfold decode
  cases msg with
  | request reqId client seq op =>
    obtain ⟨idWord, valid⟩ := bounded
    simp only [encode, List.append_assoc]
    rw [Dec.bind_u8 _ (by decide)]
    simp only [Dec.bind_u64 _ idWord, Dec.bind_u32 _ valid.1, Dec.bind_u64 _ valid.2.1]
    rw [Dec.run_bind_ok (Command.decode_encode valid rest)]
    rfl
  | reply reqId outcome =>
    obtain ⟨idWord, fine⟩ := bounded
    simp only [encode, List.append_assoc]
    rw [Dec.bind_u8 _ (by decide)]
    simp only [Dec.bind_u64 _ idWord]
    rw [Dec.run_bind_ok (Outcome.decode_encode fine rest)]
    rfl

theorem Message.decode_encode {msg : Message} (bounded : msg.Bounded) :
    Message.decode (Message.encode msg) = .ok msg := by
  cases msg with
  | raft msg =>
    have body := RaftMsg.decode_encode bounded []
    rw [List.append_nil] at body
    refine decode_frame ?_
    rw [decodeBody, Dec.bind_u8 _ (by decide)]
    simp only
    rw [Dec.run_bind_ok body]
    rfl
  | client msg =>
    have body := ClientMsg.decode_encode bounded []
    rw [List.append_nil] at body
    refine decode_frame ?_
    rw [decodeBody, Dec.bind_u8 _ (by decide)]
    simp only
    rw [Dec.run_bind_ok body]
    rfl

theorem Outcome.decode_bounded : Outcome.decode.Yields Outcome.Bounded := by
  refine Dec.u8_yields.bind fun tag _ => ?_
  split
  · exact Dec.optString_yields.bind fun seen fits => .pure fits
  · exact .pure trivial
  · exact (Dec.Yields.any _).bind fun _ _ => .pure trivial
  · refine Dec.u32_yields.bind fun id small => .pure ?_
    split
    · exact nofun
    · next named =>
      rintro _ ⟨⟩
      rwa [UInt32.toNat_ofNat_of_lt' small]
  · exact .pure trivial
  · exact .throw

theorem RaftMsg.decode_bounded : RaftMsg.decode.Yields RaftMsg.Bounded := by
  have word : Dec.u64.Yields Word64 := Dec.u64_yields
  have node : Dec.node.Yields fun _ => True := Dec.Yields.any _
  have flag : Dec.flag.Yields fun _ => True := Dec.Yields.any _
  refine Dec.u8_yields.bind fun tag _ => ?_
  split
  · exact word.bind fun _ term => node.bind fun _ _ => word.bind fun _ index => word.bind fun _ last =>
      .pure ⟨term, index, last⟩
  · exact word.bind fun _ term => flag.bind fun _ _ => .pure term
  · refine word.bind fun _ term => node.bind fun _ _ => word.bind fun _ prev => word.bind fun _ prevTerm =>
      word.bind fun _ commit => Dec.u32_yields.bind fun count _ => ?_
    split
    · exact .throw
    · next few =>
      refine Entry.decode_yields.many.bind fun entries valid =>
        .pure ⟨term, prev, prevTerm, commit, ?_, valid.2⟩
      rw [valid.1]
      exact not_lt.mp few
  · exact word.bind fun _ term => flag.bind fun _ _ => word.bind fun _ index => word.bind fun _ conflict =>
      .pure ⟨term, index, conflict⟩
  · exact word.bind fun _ term => node.bind fun _ _ => word.bind fun _ index => word.bind fun _ indexTerm =>
      Dec.bytes_yields.bind fun _ fits => .pure ⟨term, index, indexTerm, fits⟩
  · exact word.bind fun _ term => word.bind fun _ index => .pure ⟨term, index⟩
  · exact word.bind fun _ term => node.bind fun _ _ => word.bind fun _ seq => .pure ⟨term, seq⟩
  · exact word.bind fun _ term => word.bind fun _ seq => .pure ⟨term, seq⟩
  · exact word.bind fun _ term => node.bind fun _ _ => word.bind fun _ index => word.bind fun _ last =>
      .pure ⟨term, index, last⟩
  · exact word.bind fun _ term => word.bind fun _ round => flag.bind fun _ _ => .pure ⟨term, round⟩
  · exact .throw

theorem ClientMsg.decode_bounded : ClientMsg.decode.Yields ClientMsg.Bounded := by
  refine Dec.u8_yields.bind fun tag _ => ?_
  split
  · exact Dec.u64_yields.bind fun _ id => Dec.u32_yields.bind fun _ client => Dec.u64_yields.bind fun _ seq =>
      Command.decode_yields.bind fun _ cmd => .pure ⟨id, client, seq, cmd.2.2⟩
  · exact Dec.u64_yields.bind fun _ id => Outcome.decode_bounded.bind fun _ fine => .pure ⟨id, fine⟩
  · exact .throw

theorem Message.decodePayload_bounded : Message.decodePayload.Yields Message.Bounded := by
  have body : Message.decodeBody.Yields Message.Bounded := by
    refine Dec.u8_yields.bind fun tag _ => ?_
    split
    · exact RaftMsg.decode_bounded.bind fun _ fine => .pure fine
    · exact ClientMsg.decode_bounded.bind fun _ fine => .pure fine
    · exact .throw
  exact body.bind fun _ fine => (Dec.Yields.any _).bind fun _ _ => .pure fine

theorem Message.bounded_of_decode {bytes : Bytes} {msg : Message} (decoded : Message.decode bytes = .ok msg) :
    msg.Bounded := by
  obtain ⟨payload, rest, -, run⟩ := decode_inv decoded
  exact decodePayload_bounded payload msg rest run

/-- Messages within the bounds are read back as they were; whatever is decoded, from any bytes, is within the
bounds and is read back from its own encoding; and no two messages within the bounds look the same. -/
theorem Message.wire_round_trip :
    (∀ msg : Message, msg.Bounded → Message.decode msg.encode = .ok msg) ∧
    (∀ (bytes : Bytes) (msg : Message), Message.decode bytes = .ok msg →
      msg.Bounded ∧ Message.decode msg.encode = .ok msg) ∧
    ∀ msg other : Message, msg.Bounded → other.Bounded → msg.encode = other.encode → msg = other := by
  refine ⟨fun msg bounded => decode_encode bounded, fun bytes msg decoded => ?_, fun msg other one two same => ?_⟩
  · have bounded := bounded_of_decode decoded
    exact ⟨bounded, decode_encode bounded⟩
  · have read := decode_encode one
    rw [same, decode_encode two] at read
    cases read
    rfl

theorem Message.wire_round_trip_request :
    Message.decode (Message.encode (.client (.request 1 7 1 (.put "k" "v")))) =
      .ok (.client (.request 1 7 1 (.put "k" "v"))) :=
  wire_round_trip.1 _ ⟨by decide, by decide, by decide, by decide, by decide⟩

end SimKv
