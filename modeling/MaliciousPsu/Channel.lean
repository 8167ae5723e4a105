import MaliciousPsu.Aok.Adapted
import MaliciousPsu.Aok.Ddh
import MaliciousPsu.Lib.Serial
import MaliciousPsu.Lib.Session
import MaliciousPsu.Montgomery

/-!
# Messages on a channel

`channel.rs`.  A message is serialized by bincode, which is not in the repository: `Bincode` is any
serializer with a round trip, with the documented lengths, and whose decoder misses the end of a
message that is cut short; `bincode` is one.  `write_msg` puts the length in front as a `u32`, so
that a payload of `2^32` bytes or more is announced as a shorter one.

* `Dialogue.process`: what a party writes and reads, message by message, as bytes.
* `write_read`, `read_write`: what a written message makes of its reader.
* `transmit_of_lt`, `transmit_of_le`: a message shorter than `2^32` bytes arrives, a longer one
  makes its reader panic.
-/

namespace MaliciousPsu

/-- `Message`. -/
inductive Message
  | round1 (sigma : Bytes32)
  | round2 (pk : EdwardsPoint) (points : List CompressedEdwardsY)
  | round3 (proof : AdaptedShuffleProof) (points : List CompressedEdwardsY)
  | round4 (proof : BatchedDDHProof) (unblinded : List CompressedEdwardsY) (ind : List UInt32)
  | hashDH (points : List MontgomeryPoint)
  | hashDH2 (points : List CompressedEdwardsY)

namespace Message

/-- The bytes of a message: four for its variant, eight for the length of each `Vec`, 32 for each
point and scalar, four for each index. -/
def size : Message → ℕ
  | round1 _ => 36
  | round2 _ points => 44 + 32 * points.length
  | round3 proof points => 452 + 32 * (proof.x.length + proof.psi.f.length + proof.psi.fDelta.length
      + points.length)
  | round4 _ unblinded ind => 84 + 32 * unblinded.length + 4 * ind.length
  | hashDH points => 12 + 32 * points.length
  | hashDH2 points => 12 + 32 * points.length

/-- The length of every `Vec` is a `usize`. -/
def Encodable : Message → Prop
  | round1 _ => True
  | round2 _ points => points.length < 2 ^ 64
  | round3 proof points => proof.x.length < 2 ^ 64 ∧ proof.psi.f.length < 2 ^ 64 ∧
      proof.psi.fDelta.length < 2 ^ 64 ∧ points.length < 2 ^ 64
  | round4 _ unblinded ind => unblinded.length < 2 ^ 64 ∧ ind.length < 2 ^ 64
  | hashDH points => points.length < 2 ^ 64
  | hashDH2 points => points.length < 2 ^ 64

end Message

/-- `bincode::serialize` and `bincode::deserialize`. -/
structure Bincode where
  serialize : Message → List UInt8
  deserialize : List UInt8 → Option Message
  length_serialize : ∀ m, (serialize m).length = m.size
  deserialize_serialize : ∀ {m : Message}, m.Encodable → deserialize (serialize m) = some m
  deserialize_take : ∀ {m : Message} {k : ℕ}, m.Encodable → k < m.size →
    deserialize ((serialize m).take k) = none

/-! ### Dialogues -/

/-- What a party writes and reads, message by message. -/
inductive Dialogue (β : Type)
  | done (b : β)
  | write (msg : Message) (k : Dialogue β)
  | read (k : Message → Dialogue β)

variable {α β : Type} (C : Bincode)

/-- `write_msg`. -/
def writeMsg (msg : Message) (k : Process UInt8 β) : Process UInt8 β :=
  let payload := C.serialize msg
  .write (leBytes 4 payload.length) (.write payload k)

/-- `bincode::deserialize(..).unwrap()`. -/
def decodeMsg (buf : List UInt8) : Run Message :=
  match C.deserialize buf with
  | none => .error .unwrapErr
  | some msg => .ok msg

/-- A party goes on with the message it has read, if it could read one. -/
def resume (k : Message → Process UInt8 (Run β)) : Run Message → Process UInt8 (Run β)
  | .ok msg => k msg
  | .error e => .done (.error e)

/-- `read_msg(..).unwrap()`. -/
def readMsg (k : Message → Process UInt8 (Run β)) : Process UInt8 (Run β) :=
  .read 4 fun
  | none => .done (.error .unwrapErr)
  | some len => .read (leNat len) fun
    | none => .done (.error .unwrapErr)
    | some buf => resume k (decodeMsg C buf)

/-- The bytes of a dialogue. -/
def Dialogue.process : Dialogue (Run β) → Process UInt8 (Run β)
  | done b => .done b
  | write msg k => writeMsg C msg k.process
  | read k => readMsg C fun msg => (k msg).process

/-- What `read_msg` gives of a message that `write_msg` has put on the channel. -/
def transmit (msg : Message) : Run Message :=
  decodeMsg C ((C.serialize msg).take (msg.size % 2 ^ 32))

variable {C} {msg : Message}

/-- A message shorter than `2^32` bytes arrives. -/
theorem transmit_of_lt (hm : msg.Encodable) (h : msg.size < 2 ^ 32) : transmit C msg = .ok msg := by
  rw [transmit, decodeMsg, Nat.mod_eq_of_lt h, ← C.length_serialize, List.take_length,
    C.deserialize_serialize hm]

/-- A longer one is cut short and cannot be read. -/
theorem transmit_of_le (hm : msg.Encodable) (h : 2 ^ 32 ≤ msg.size) :
    transmit C msg = .error .unwrapErr := by
  have hlt : msg.size % 2 ^ 32 < msg.size := (Nat.mod_lt _ (by decide)).trans_le h
  rw [transmit, decodeMsg, C.deserialize_take hm hlt]

/-! ### One message between two parties -/

theorem leNat_header : leNat (leBytes 4 (C.serialize msg).length) = msg.size % 2 ^ 32 := by
  rw [leNat_leBytes_mod, C.length_serialize]
  rfl

variable (C msg) in
theorem length_announced :
    ((C.serialize msg).take (msg.size % 2 ^ 32)).length = msg.size % 2 ^ 32 := by
  rw [List.length_take, C.length_serialize]
  exact min_eq_left (Nat.mod_le _ _)

variable (C msg) in
/-- **A message from left to right**: the writer is done with it, the reader goes on with what it
could read, and the bytes past the announced length stay in the stream. -/
theorem write_read (p : Process UInt8 (Run α)) (k : Message → Process UInt8 (Run β)) :
    Session.Reaches ⟨writeMsg C msg p, readMsg C k, [], []⟩
      ⟨p, resume k (transmit C msg), (C.serialize msg).drop (msg.size % 2 ^ 32), []⟩ := by
  refine .trans .left_write (.trans .left_write (.trans (.right_read (length_leBytes 4 _)) ?_))
  dsimp only
  rw [List.nil_append, leNat_header]
  have hread := Session.Reaches.right_read (p := p) (o := ([] : List UInt8))
    (i := (C.serialize msg).drop (msg.size % 2 ^ 32)) (length_announced C msg)
    (k := fun
      | none => .done (.error .unwrapErr)
      | some buf => resume k (decodeMsg C buf))
  rw [List.take_append_drop] at hread
  exact hread

variable (C msg) in
/-- **A message from right to left.** -/
theorem read_write (k : Message → Process UInt8 (Run α)) (q : Process UInt8 (Run β)) :
    Session.Reaches ⟨readMsg C k, writeMsg C msg q, [], []⟩
      ⟨resume k (transmit C msg), q, [], (C.serialize msg).drop (msg.size % 2 ^ 32)⟩ := by
  refine .trans .right_write (.trans .right_write (.trans (.left_read (length_leBytes 4 _)) ?_))
  dsimp only
  rw [List.nil_append, leNat_header]
  have hread := Session.Reaches.left_read (q := q) (o := ([] : List UInt8))
    (i := (C.serialize msg).drop (msg.size % 2 ^ 32)) (length_announced C msg)
    (k := fun
      | none => .done (.error .unwrapErr)
      | some buf => resume k (decodeMsg C buf))
  rw [List.take_append_drop] at hread
  exact hread

/-- A message shorter than `2^32` bytes arrives from left to right. -/
theorem write_read_of_lt (hm : msg.Encodable) (h : msg.size < 2 ^ 32)
    (p : Process UInt8 (Run α)) (k : Message → Process UInt8 (Run β)) :
    Session.Reaches ⟨writeMsg C msg p, readMsg C k, [], []⟩ ⟨p, k msg, [], []⟩ := by
  have hreach := write_read C msg p k
  rw [transmit_of_lt hm h, Nat.mod_eq_of_lt h, ← C.length_serialize, List.drop_length] at hreach
  exact hreach

/-- A message shorter than `2^32` bytes arrives from right to left. -/
theorem read_write_of_lt (hm : msg.Encodable) (h : msg.size < 2 ^ 32)
    (k : Message → Process UInt8 (Run α)) (q : Process UInt8 (Run β)) :
    Session.Reaches ⟨readMsg C k, writeMsg C msg q, [], []⟩ ⟨k msg, q, [], []⟩ := by
  have hreach := read_write C msg k q
  rw [transmit_of_lt hm h, Nat.mod_eq_of_lt h, ← C.length_serialize, List.drop_length] at hreach
  exact hreach

end MaliciousPsu
