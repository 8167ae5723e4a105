import MaliciousPsu.Bincode

/-!
# Sequences of messages

A sequence of messages is written on an empty channel, and as many are read at the other end.  The
messages arrive one by one, in order, as long as their payloads are shorter than `2^32` bytes.  The
first that is not is announced as a shorter one, and its reader panics on the part it is given.

* `exists_run_sendAll`: one run to the end, by induction on the messages.
* `faithful_iff`: what every run returns.
-/

namespace MaliciousPsu

/-- `write_msg(..)?` for each message. -/
def sendAll : List Message → Dialogue (Run Unit)
  | [] => .done (.ok ())
  | msg :: msgs => .write msg (sendAll msgs)

/-- `read_msg(..)`, this many times; the messages read are pushed. -/
def receiveAll (msgs : List Message) : ℕ → Dialogue (Run (List Message))
  | 0 => .done (.ok msgs)
  | n + 1 => .read fun msg => receiveAll (msgs ++ [msg]) n

variable {C : Bincode} {β : Type}

/-- A writer whose reader has ended gets to its end. -/
theorem reaches_sendAll (b : β) : ∀ (msgs : List Message) (o : List UInt8),
    ∃ o', Session.Reaches ⟨(sendAll msgs).process C, .done b, o, []⟩
      ⟨.done (.ok ()), .done b, o', []⟩
  | [], o => ⟨o, .refl _⟩
  | msg :: msgs, o => by
      obtain ⟨o', h⟩ := reaches_sendAll b msgs
        (o ++ leBytes 4 (C.serialize msg).length ++ C.serialize msg)
      exact ⟨o', .trans .left_write (.trans .left_write h)⟩

/-- **One run to the end**, from any messages read so far on. -/
theorem exists_run_sendAll : ∀ {msgs : List Message} (read : List Message),
    (∀ msg ∈ msgs, msg.Encodable) → ∃ o b, Session.Reaches
      ⟨(sendAll msgs).process C, (receiveAll read msgs.length).process C, [], []⟩
      ⟨.done (.ok ()), .done b, o, []⟩ ∧
      (b = .ok (read ++ msgs) ↔ ∀ msg ∈ msgs, msg.size < 2 ^ 32)
  | [], read, _ => by
      refine ⟨[], .ok read, .refl _, iff_of_true ?_ ?_⟩
      · rw [List.append_nil]
      · exact fun _ hm => absurd hm List.not_mem_nil
  | msg :: msgs, read, h => by
      obtain ⟨hmsg, hmsgs⟩ := List.forall_mem_cons.mp h
      by_cases hlt : msg.size < 2 ^ 32
      · -- the message arrives, and the others are written on an empty channel again
        obtain ⟨o, b, hrun, hb⟩ := exists_run_sendAll (read ++ [msg]) hmsgs
        have harrives := write_read_of_lt (C := C) hmsg hlt ((sendAll msgs).process C)
          fun msg => (receiveAll (read ++ [msg]) msgs.length).process C
        refine ⟨o, b, harrives.trans hrun, ?_⟩
        rw [List.append_assoc, List.singleton_append] at hb
        rw [hb, List.forall_mem_cons]
        exact ⟨fun hrest => ⟨hlt, hrest⟩, fun hall => hall.2⟩
      · -- the reader ends here, and the writer goes on alone
        have hcut := write_read C msg ((sendAll msgs).process C)
          fun msg => (receiveAll (read ++ [msg]) msgs.length).process C
        rw [transmit_of_le hmsg (not_lt.mp hlt)] at hcut
        obtain ⟨o, hrest⟩ := reaches_sendAll (C := C) (Except.error Panic.unwrapErr) msgs
          ((C.serialize msg).drop (msg.size % 2 ^ 32))
        refine ⟨o, _, hcut.trans hrest, iff_of_false ?_ fun hall => hlt ?_⟩
        · rintro ⟨⟩
        · exact (List.forall_mem_cons.mp hall).1

/-- The messages that were written have been read, or a call to write one has failed. -/
def Faithful (C : Bincode) (msgs : List Message) : Prop :=
  (Session.init ((sendAll msgs).process C) ((receiveAll [] msgs.length).process C)).EveryRun
    fun sent received => (∃ e, sent = .error e) ∨ received = .ok msgs

theorem size_lt_of_faithful {msgs : List Message} (h : ∀ msg ∈ msgs, msg.Encodable)
    (hfaithful : Faithful C msgs) : ∀ msg ∈ msgs, msg.size < 2 ^ 32 := by
  obtain ⟨o, b, hrun, hb⟩ := exists_run_sendAll (C := C) [] h
  rcases hfaithful.of_run hrun with ⟨e, he⟩ | hreceived
  · cases he
  · exact hb.mp hreceived

/-- **When a sequence of messages arrives**: exactly when every payload is shorter than `2^32`
bytes. -/
theorem faithful_iff (C : Bincode) (msgs : List Message) (h : ∀ msg ∈ msgs, msg.Encodable) :
    Faithful C msgs ↔ ∀ msg ∈ msgs, msg.size < 2 ^ 32 := by
  constructor
  · exact size_lt_of_faithful h
  · intro hsize
    obtain ⟨o, b, hrun, hb⟩ := exists_run_sendAll (C := C) [] h
    exact Session.everyRun_of_run hrun (Or.inr (hb.mpr hsize))

/-- A commitment and two points. -/
theorem faithful_iff_two :
    Faithful bincode [.round1 1, .hashDH2 [2, 3]] ↔
      ∀ msg ∈ [Message.round1 1, .hashDH2 [2, 3]], msg.size < 2 ^ 32 := by
  refine faithful_iff bincode [.round1 1, .hashDH2 [2, 3]] ?_
  rw [List.forall_mem_cons, List.forall_mem_singleton, Message.Encodable, Message.Encodable]
  decide

/-- **`2^27` points are announced as 12 bytes.** -/
theorem faithful_cuts_long :
    let msgs : List Message := [.hashDH2 (List.replicate (2 ^ 27) 0)]
    (∀ msg ∈ msgs, msg.Encodable) ∧ ¬ Faithful bincode msgs := by
  intro msgs
  have hencodable : ∀ msg ∈ msgs, msg.Encodable := by
    refine List.forall_mem_singleton.mpr ?_
    rw [Message.Encodable, List.length_replicate]
    decide
  refine ⟨hencodable, fun hfaithful => ?_⟩
  have hsize := size_lt_of_faithful hencodable hfaithful
  have hlong := List.forall_mem_singleton.mp hsize
  rw [Message.size, List.length_replicate] at hlong
  exact absurd hlong (by decide)

end MaliciousPsu
