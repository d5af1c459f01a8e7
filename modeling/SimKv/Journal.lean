import SimKv.RoundTrip

set_option autoImplicit false

/-!
# The log region, read back

Entries come in through messages, whose limits are per field, and come back from records, whose limit is
on the whole.
-/

namespace SimKv

open Codec

theorem Enc.str_length (text : String) : (Enc.str text).length = 4 + (Enc.utf8 text).length := by
  simp [Enc.str, Enc.bytes, Enc.u32]

theorem Enc.nodes_length (members : List NodeId) :
    (members.flatMap fun m => Enc.u32 m.toNat).length = 4 * members.length := by
  induction members with
  | nil => rfl
  | cons m rest ih =>
    rw [List.flatMap_cons, List.length_append, ih, Enc.u32, LittleEndian.length_encode, List.length_cons]
    omega

theorem Op.encode_length_le {op : Op} (valid : op.Valid) : op.encode.length ≤ 3 * (4 + maxField) + 2 := by
  cases op with
  | noop => simp [encode, Enc.u8]
  | get key | delete key =>
    have small : (Enc.utf8 key).length ≤ maxField := valid
    simp only [encode, List.length_append, Enc.str_length, Enc.u8, LittleEndian.length_encode]
    omega
  | put key value =>
    obtain ⟨small, fits⟩ := valid
    unfold Fits at small fits
    simp only [encode, List.length_append, Enc.str_length, Enc.u8, LittleEndian.length_encode]
    omega
  | cas key expect value =>
    obtain ⟨small, expected, fits⟩ := valid
    unfold Fits at small fits
    have option : (Enc.optStr expect).length ≤ 1 + (4 + maxField) := by
      cases expect with
      | none => simp [Enc.optStr, Enc.u8]
      | some text =>
        have fits := expected text rfl
        unfold Fits at fits
        simp only [Enc.optStr, List.length_append, Enc.str_length, Enc.u8, LittleEndian.length_encode]
        omega
    simp only [encode, List.length_append, Enc.str_length, Enc.u8, LittleEndian.length_encode]
    omega
  | setMembers members =>
    obtain ⟨_, few⟩ := valid
    simp only [encode, List.length_append, Enc.nodes_length]
    simp only [Enc.u8, Enc.u32, LittleEndian.length_encode]
    have room : 1024 ≤ maxField := by decide
    omega

theorem Entry.encode_length (e : Entry) : e.encode.length = 28 + e.cmd.op.encode.length := by
  simp only [encode, Command.encode, List.length_append, Enc.u32, Enc.u64, LittleEndian.length_encode]
  omega

-- Whatever a message can carry, the length of a record is a `u32`.
theorem Entry.encode_length_lt {e : Entry} (valid : e.Valid) : e.encode.length < 2 ^ 32 := by
  have op := Op.encode_length_le valid.2.2.2.2
  have room : maxField = 2 ^ 20 := by decide
  rw [encode_length]
  omega

def Entry.Intact (e : Entry) : Prop := readRecord e.toRecord = some (e, e.toRecord.length)

instance (e : Entry) : Decidable e.Intact := inferInstanceAs (Decidable (_ = _))

-- A record is read the same whatever follows it.
theorem readRecord_append {bytes : Bytes} {e : Entry} (read : readRecord bytes = some (e, bytes.length))
    (rest : Bytes) : readRecord (bytes ++ rest) = some (e, bytes.length) := by
  unfold readRecord at read ⊢
  split at read
  · cases read
  · next long =>
    have long : 8 ≤ bytes.length := not_lt.mp long
    have first : (bytes ++ rest).take 4 = bytes.take 4 := List.take_append_of_le_length (by omega)
    have second : ((bytes ++ rest).drop 4).take 4 = (bytes.drop 4).take 4 := by
      rw [List.drop_append_of_le_length (by omega), List.take_append_of_le_length (by simp; omega)]
    rw [if_neg (by simp; omega)]
    simp only [first, second] at read ⊢
    split at read
    · cases read
    · next fits =>
      push Not at fits
      obtain ⟨some_, small, enough⟩ := fits
      rw [if_neg (by simp only [List.length_append]; omega)]
      have third : ((bytes ++ rest).drop 8).take (LittleEndian.decode (bytes.take 4)) =
          (bytes.drop 8).take (LittleEndian.decode (bytes.take 4)) := by
        rw [List.drop_append_of_le_length (by omega), List.take_append_of_le_length (by simp; omega)]
      rw [third]
      exact read

theorem Entry.toRecord_length (e : Entry) : e.toRecord.length = 8 + e.encode.length := by
  simp only [toRecord, List.length_append, crcBytes, Enc.u32, LittleEndian.length_encode]
  omega

-- What came in through a message is read back exactly if it is short enough.
theorem Entry.intact_of_length_le {e : Entry} (valid : e.Valid) (short : e.encode.length ≤ maxRecord) :
    e.Intact := by
  obtain ⟨len, crc, payload, size⟩ := frame_split e.encode [] (encode_length_lt valid)
  simp only [List.append_nil, List.length_nil, Nat.add_zero] at len crc payload size
  have some_ : e.encode.length ≠ 0 := by
    rw [encode_length]
    omega
  have read := decode_encode valid []
  rw [List.append_nil] at read
  have whole : (do let e ← Entry.decode; Dec.finish; return e : Dec Entry) e.encode = .ok (e, []) := by
    rw [Dec.run_bind_ok read]
    rfl
  unfold Intact readRecord toRecord
  rw [if_neg (by rw [size]; omega)]
  simp only [len, crc, payload, size]
  rw [if_neg (by omega), if_neg (by simp), whole]

theorem Entry.unreadable {e : Entry} (valid : e.Valid) (long : maxRecord < e.encode.length) (rest : Bytes) :
    readRecord (e.toRecord ++ rest) = none := by
  obtain ⟨len, _, _, size⟩ := frame_split e.encode rest (encode_length_lt valid)
  have head : LittleEndian.decode ((e.toRecord ++ rest).take 4) = e.encode.length := len
  unfold readRecord
  split
  · rfl
  · simp only [head]
    rw [if_pos (.inr (.inl long))]

-- An intact record holds what a message could have carried.
theorem Entry.Intact.valid {e : Entry} (intact : e.Intact) : e.Valid ∧ e.encode.length ≤ maxRecord := by
  have read := intact
  unfold Intact readRecord at read
  split at read
  · cases read
  · simp only at read
    split at read
    · cases read
    · next fits =>
      split at read
      · cases read
      · split at read
        · next got rest run =>
          obtain ⟨same, size⟩ := Prod.mk.inj (Option.some.inj read)
          subst same
          rw [toRecord_length] at size
          constructor
          · obtain ⟨head, middle, first, run⟩ := Dec.run_bind_inv run
            obtain ⟨_, _, _, run⟩ := Dec.run_bind_inv run
            cases run
            exact decode_yields _ _ _ first
          · omega
        · cases read

/-- Entries that follow each other: consecutive indices from `expected`, terms from `floor` up. -/
def Follows : Nat → Nat → List Entry → Prop
  | _, _, [] => True
  | expected, floor, e :: rest => e.index = expected ∧ floor ≤ e.term ∧ Follows (expected + 1) e.term rest

theorem Follows.left {expected floor : Nat} {es later : List Entry}
    (follows : Follows expected floor (es ++ later)) : Follows expected floor es := by
  induction es generalizing expected floor with
  | nil => trivial
  | cons e rest ih => exact ⟨follows.1, follows.2.1, ih follows.2.2⟩

def recordStarts : Nat → List Entry → List Nat
  | _, [] => []
  | pos, e :: rest => pos :: recordStarts (pos + e.toRecord.length) rest

def records (es : List Entry) : Bytes := es.flatMap Entry.toRecord

def floorAfter (floor : Nat) (es : List Entry) : Nat := (es.getLast?.map Entry.term).getD floor

def Stops (expected floor : Nat) (rest : Bytes) : Prop :=
  ∀ e size, readRecord rest = some (e, size) → ¬ (e.index = expected ∧ floor ≤ e.term)

theorem floorAfter_cons (floor : Nat) (e : Entry) (rest : List Entry) :
    floorAfter floor (e :: rest) = floorAfter e.term rest := by
  rw [floorAfter, floorAfter, List.getLast?_cons]
  cases rest.getLast? <;> rfl

theorem records_cons (e : Entry) (rest : List Entry) : records (e :: rest) = e.toRecord ++ records rest :=
  List.flatMap_cons

theorem records_append (front back : List Entry) : records (front ++ back) = records front ++ records back :=
  List.flatMap_append

theorem readRecord_nil : readRecord [] = none := rfl

theorem Stops.of_unread {rest : Bytes} (unread : readRecord rest = none) (expected floor : Nat) :
    Stops expected floor rest := by
  intro e size read
  rw [unread] at read
  cases read

theorem recoverLogGo_stops {expected floor : Nat} {rest : Bytes} (stops : Stops expected floor rest)
    (fuel pos : Nat) : recoverLogGo fuel rest pos expected floor = ⟨[], [], pos, !rest.isEmpty⟩ := by
  cases fuel with
  | zero => rfl
  | succ fuel =>
    rw [recoverLogGo]
    split
    · next empty => rw [empty]; rfl
    · next some_ =>
      rw [Bool.not_eq_true] at some_
      rw [some_, Bool.not_false]
      split
      · rfl
      · next e size read => rw [if_pos (by have := stops e size read; omega)]

-- The loop reads a run of records, and stops where no record can come next.
theorem recoverLogGo_run {es : List Entry} (intact : ∀ e ∈ es, e.Intact) {expected floor : Nat}
    (follows : Follows expected floor es) {tail : Bytes}
    (stops : Stops (expected + es.length) (floorAfter floor es) tail) (fuel pos : Nat) :
    recoverLogGo (es.length + fuel) (records es ++ tail) pos expected floor =
      ⟨es, recordStarts pos es, pos + (records es).length, !tail.isEmpty⟩ := by
  induction es generalizing expected floor pos with
  | nil => exact recoverLogGo_stops stops _ pos
  | cons e rest ih =>
    obtain ⟨index, term, later⟩ := follows
    rw [List.length_cons, floorAfter_cons, ← Nat.add_assoc, Nat.add_right_comm] at stops
    have read := ih (fun e' member => intact e' (List.mem_cons_of_mem _ member)) later stops
      (pos + e.toRecord.length)
    have record := readRecord_append (intact e List.mem_cons_self) (records rest ++ tail)
    have some_ : (e.toRecord ++ (records rest ++ tail)).isEmpty = false := by
      rw [List.isEmpty_eq_false_iff, ← List.length_pos_iff, List.length_append, e.toRecord_length]
      omega
    rw [records_cons, List.append_assoc, List.length_cons, Nat.add_right_comm, recoverLogGo, some_]
    simp only [Bool.false_eq_true, if_false, record]
    rw [if_neg (by omega), List.drop_left, index, read, List.length_append, Nat.add_assoc]
    rfl

-- Encodings that are not empty are at least as long as there are values.
theorem length_le_flatMap {α : Type} {encode : α → Bytes} (some_ : ∀ a, 1 ≤ (encode a).length) (values : List α) :
    values.length ≤ (values.flatMap encode).length := by
  induction values with
  | nil => exact le_rfl
  | cons head rest ih =>
    have here := some_ head
    rw [List.flatMap_cons, List.length_append, List.length_cons]
    omega

theorem recoverLogFrom_run {es : List Entry} (intact : ∀ e ∈ es, e.Intact) {first : Nat}
    (follows : Follows first 0 es) {tail : Bytes} (stops : Stops (first + es.length) (floorAfter 0 es) tail) :
    recoverLogFrom (records es ++ tail) first =
      ⟨es, recordStarts 0 es, (records es).length, !tail.isEmpty⟩ := by
  have size := length_le_flatMap (fun e => (by rw [Entry.toRecord_length]; omega : 1 ≤ e.toRecord.length)) es
  have fuel : (records es ++ tail).length = es.length + ((records es ++ tail).length - es.length) := by
    rw [List.length_append, records]
    omega
  rw [recoverLogFrom, fuel, recoverLogGo_run intact follows stops, Nat.zero_add]

-- The first record says where the file begins.
theorem firstIndexOf_record {e : Entry} (valid : e.Valid) (rest : Bytes) :
    firstIndexOf (e.toRecord ++ rest) = max e.index 1 := by
  obtain ⟨len, _, _, size⟩ := frame_split e.encode rest (Entry.encode_length_lt valid)
  have head : LittleEndian.decode ((e.toRecord ++ rest).take 4) = e.encode.length := len
  have long : (e.toRecord ++ rest).length = 8 + e.encode.length + rest.length := size
  have index : ((e.toRecord ++ rest).drop 16).take 8 = Enc.u64 e.index := by
    have header : (Enc.u32 e.encode.length ++ (crcBytes e.encode ++ Enc.u64 e.term)).length = 16 := by
      simp [crcBytes, Enc.u32, Enc.u64]
    have shape : e.toRecord ++ rest = (Enc.u32 e.encode.length ++ (crcBytes e.encode ++ Enc.u64 e.term)) ++
        (Enc.u64 e.index ++ (e.cmd.encode ++ rest)) := by
      simp only [Entry.toRecord, Entry.encode, List.append_assoc]
    rw [shape, List.drop_left' header, List.take_left' (by simp [Enc.u64])]
  rw [firstIndexOf, if_neg (by rw [long]; omega)]
  simp only [head, index]
  rw [if_pos (by rw [long, Entry.encode_length]; omega), Enc.u64, LittleEndian.decode_encode_of_lt 8 valid.2.1]

-- Among intact records that follow each other, an entry is recovered, and with it everything behind it,
-- exactly if its record is not too long.
theorem Entry.Valid.recovered_iff {e : Entry} (valid : e.Valid) {before after : List Entry} {first : Nat}
    (starts : 1 ≤ first) (follows : Follows first 0 (before ++ e :: after))
    (intactBefore : ∀ r ∈ before, r.Intact) (intactAfter : ∀ r ∈ after, r.Intact) :
    (recoverLogAnyStart ((before ++ e :: after).flatMap Entry.toRecord)).entries = before ++ e :: after ↔
      e.encode.length ≤ maxRecord := by
  have start : firstIndexOf ((before ++ e :: after).flatMap Entry.toRecord) = first := by
    cases before with
    | nil =>
      rw [List.nil_append, List.flatMap_cons, firstIndexOf_record valid, follows.1]
      exact max_eq_left starts
    | cons head rest =>
      rw [List.cons_append, List.flatMap_cons, firstIndexOf_record (intactBefore head List.mem_cons_self).valid.1,
        follows.1]
      exact max_eq_left starts
  constructor
  · intro recovered
    by_contra long
    have shape : (before ++ e :: after).flatMap Entry.toRecord =
        records before ++ (e.toRecord ++ after.flatMap Entry.toRecord) := by
      rw [List.flatMap_append, List.flatMap_cons]
      rfl
    have stops := Stops.of_unread (Entry.unreadable valid (not_le.mp long) (after.flatMap Entry.toRecord))
      (first + before.length) (floorAfter 0 before)
    rw [recoverLogAnyStart, start, shape, recoverLogFrom_run intactBefore follows.left stops] at recovered
    have sizes : before.length = (before ++ e :: after).length := congrArg List.length recovered
    rw [List.length_append, List.length_cons] at sizes
    omega
  · intro short
    have intact : ∀ r ∈ before ++ e :: after, r.Intact := by
      intro r member
      rcases List.mem_append.mp member with old | later
      · exact intactBefore r old
      · rcases List.mem_cons.mp later with rfl | new
        · exact Entry.intact_of_length_le valid short
        · exact intactAfter r new
    have run := recoverLogFrom_run intact follows (Stops.of_unread readRecord_nil _ _)
    rw [List.append_nil] at run
    rw [recoverLogAnyStart, start]
    exact congrArg RecoveredLog.entries run

/-- A command that can arrive: in a client's request, or in an entry of an append message. -/
def Command.Delivered (cmd : Command) : Prop :=
  (∃ bytes reqId, Message.decode bytes = .ok (.client (.request reqId cmd.client cmd.seq cmd.op))) ∨
    ∃ bytes term leader prevIndex prevTerm entries leaderCommit, ∃ e ∈ entries, e.cmd = cmd ∧
      Message.decode bytes =
        .ok (.raft (.appendEntries term leader prevIndex prevTerm entries leaderCommit))

theorem Command.Delivered.valid {cmd : Command} (delivered : cmd.Delivered) : cmd.Valid := by
  obtain ⟨bytes, reqId, decoded⟩ | ⟨bytes, _, _, _, _, entries, _, e, member, rfl, decoded⟩ := delivered
  · exact Message.valid_of_decode decoded
  · exact (Message.valid_of_decode decoded e member).2.2

def Entry.Delivered (e : Entry) : Prop := e.term < 2 ^ 64 ∧ e.index < 2 ^ 64 ∧ e.cmd.Delivered

theorem Entry.Delivered.valid {e : Entry} (delivered : e.Delivered) : e.Valid :=
  ⟨delivered.1, delivered.2.1, delivered.2.2.valid⟩

/-- Among intact records that follow each other, an entry that can enter a log is recovered, and with it
everything behind it, exactly if its record is not too long. -/
theorem entry_recovered_iff {e : Entry} (delivered : e.Delivered) {before after : List Entry} {first : Nat}
    (starts : 1 ≤ first) (follows : Follows first 0 (before ++ e :: after))
    (intactBefore : ∀ r ∈ before, r.Intact) (intactAfter : ∀ r ∈ after, r.Intact) :
    (recoverLogAnyStart ((before ++ e :: after).flatMap Entry.toRecord)).entries = before ++ e :: after ↔
      e.encode.length ≤ maxRecord :=
  delivered.valid.recovered_iff starts follows intactBefore intactAfter

def usualEntry (index : Nat) : Entry := { term := 1, index, cmd := { client := 7, seq := index, op := .put "k" "v" } }

theorem usualEntry_valid : (usualEntry 2).cmd.Valid := by
  refine ⟨by decide, by decide, ?_⟩
  unfold usualEntry Op.Valid Fits
  decide +kernel

theorem entry_recovered_iff_usual :
    (usualEntry 2).Delivered ∧ (usualEntry 2).encode.length ≤ maxRecord ∧
      (recoverLogAnyStart (([usualEntry 1] ++ usualEntry 2 :: [usualEntry 3]).flatMap Entry.toRecord)).entries =
        [usualEntry 1] ++ usualEntry 2 :: [usualEntry 3] := by
  have delivered : (usualEntry 2).Delivered :=
    ⟨by decide, by decide, .inl ⟨_, 1, @Message.decode_encode (.client _) ⟨by decide, usualEntry_valid⟩⟩⟩
  have short : (usualEntry 2).encode.length ≤ maxRecord := by decide +kernel
  have follows : Follows 1 0 ([usualEntry 1] ++ usualEntry 2 :: [usualEntry 3]) :=
    ⟨rfl, Nat.zero_le _, rfl, le_rfl, rfl, le_rfl, trivial⟩
  exact ⟨delivered, short, (entry_recovered_iff delivered (le_refl 1) follows
    (List.forall_mem_singleton.mpr (by decide +kernel))
    (List.forall_mem_singleton.mpr (by decide +kernel))).mpr short⟩

def letters : Nat → String
  | 0 => ""
  | count + 1 => letters count ++ "a"

theorem letters_length (count : Nat) : (Enc.utf8 (letters count)).length = count := by
  induction count with
  | zero => rfl
  | succ count ih =>
    have size : (Enc.utf8 (letters count ++ "a")).length = (Enc.utf8 (letters count)).length + 1 := by
      simp only [Enc.utf8, Array.length_toList, ByteArray.size_data, String.size_toByteArray,
        String.utf8ByteSize_append]
      rfl
    rw [letters, size, ih]

def keyEntry (key : String) : Entry :=
  { term := 1, index := 1, cmd := { client := 7, seq := 1, op := .put key "v" } }

theorem keyEntry_valid {key : String} (fits : Fits key) : (keyEntry key).Valid := by
  refine ⟨(by decide : 1 < 2 ^ 64), (by decide : 1 < 2 ^ 64), (by decide : 7 < 2 ^ 32), (by decide : 1 < 2 ^ 64),
    fits, ?_⟩
  unfold Fits
  decide +kernel

theorem keyEntry_delivered {key : String} (fits : Fits key) : (keyEntry key).Delivered := by
  have valid := keyEntry_valid fits
  exact ⟨valid.1, valid.2.1, .inl ⟨_, 1, @Message.decode_encode (.client _) ⟨by decide, valid.2.2⟩⟩⟩

theorem keyEntry_length (key : String) : (keyEntry key).encode.length = 38 + (Enc.utf8 key).length := by
  have value : (Enc.str "v").length = 5 := rfl
  rw [Entry.encode_length]
  simp only [keyEntry, Op.encode, List.length_append, Enc.str_length key, value, Enc.u8, LittleEndian.length_encode]
  omega

def longKey : String := letters maxField

theorem longKey_length : (Enc.utf8 longKey).length = maxField := letters_length maxField

theorem longKey_fits : Fits longKey := longKey_length.le

/-- Such a key makes a record that recovery refuses. -/
theorem long_entry_lost : (keyEntry longKey).Delivered ∧ Follows 1 0 [keyEntry longKey] ∧
    (recoverLogAnyStart ([keyEntry longKey].flatMap Entry.toRecord)).entries ≠ [keyEntry longKey] := by
  have long : ¬ (keyEntry longKey).encode.length ≤ maxRecord := by
    have same : maxRecord = maxField := rfl
    rw [keyEntry_length, longKey_length, same]
    omega
  have follows : Follows 1 0 ([] ++ keyEntry longKey :: []) := ⟨rfl, Nat.zero_le _, trivial⟩
  refine ⟨keyEntry_delivered longKey_fits, follows, fun recovered => long ?_⟩
  exact ((keyEntry_valid longKey_fits).recovered_iff (le_refl 1) follows nofun nofun).mp recovered

end SimKv
