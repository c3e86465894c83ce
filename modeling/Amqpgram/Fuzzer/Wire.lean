import Amqpgram.Library.Delimited
import Amqpgram.Fuzzer.Conversation
import Amqpgram.Fuzzer.Counter

/-! The bytes that the thread of channel 0 puts on the wire at RULE_CHAOS = 0, at any level
of packet chaos and with `send` writing as many bytes as it likes. -/
namespace Amqpgram
open Delimited

/-! ### What a peer reads -/

/-- The length of the first header or frame of a stream, once it is all there. -/
def frameLength (stream : List UInt8) : Option Nat :=
  let n := if stream.take 4 = amqpLiteral then 8 else Words.value ((stream.drop 3).take 4) + 8
  if 7 ≤ stream.length ∧ n ≤ stream.length then some n else none

def Message.layout : Message → List Field
  | .amqpHeader => []
  | .startOk => MethodCall.startOk.layout
  | .tuneOk => [.short, .long, .short]
  | .connectionOpen => MethodCall.connectionOpen.layout
  | .close => MethodCall.close.layout
  | .closeOk => MethodCall.closeOk.layout

/-- The protocol header, or one frame of the method with arguments of its layout. -/
def Message.Spells (m : Message) (w : List UInt8) : Prop :=
  match m.methodId with
  | none => w = headerPacket.bytes
  | some methodId => ∃ arguments, arguments.length < 4096 ∧
      consumesExactly m.layout arguments = true ∧
      w = encodeFrame 1 0 (encodeMethod 10 methodId arguments)

def spoken : Set (List UInt8) := {w | ∃ m : Message, m.Spells w}

theorem spoken_cases {w : List UInt8} (coded : w ∈ spoken) : w = headerPacket.bytes ∨
    ∃ methodId arguments, arguments.length < 4096 ∧
      w = encodeFrame 1 0 (encodeMethod 10 methodId arguments) := by
  obtain ⟨m, spells⟩ := coded
  unfold Message.Spells at spells
  split at spells
  · exact .inl spells
  · obtain ⟨arguments, short, _, rfl⟩ := spells
    exact .inr ⟨_, arguments, short, rfl⟩

theorem frameLength_short {stream : List UInt8} (short : stream.length < 7) :
    frameLength stream = none := by
  unfold frameLength
  dsimp only
  rw [if_neg]
  omega

/-- In front of a frame the size field decides. -/
theorem frameLength_frame {type : UInt8} {channel : Nat} {payload stream : List UInt8}
    (rest : List UInt8) (other : type ≠ 0x41) (small : payload.length < 4294967296)
    (long : 7 ≤ stream.length) (front : stream <+: encodeFrame type channel payload ++ rest) :
    frameLength stream =
      if payload.length + 8 ≤ stream.length then some (payload.length + 8) else none := by
  have parts : encodeFrame type channel payload ++ rest =
      (type :: (Words.bytes 2 channel ++ Words.bytes 4 payload.length)) ++
        (payload ++ [0xCE] ++ rest) := by simp [encodeFrame]
  have head : stream.take 7 = type :: (Words.bytes 2 channel ++ Words.bytes 4 payload.length) := by
    obtain ⟨behind, whole⟩ := front
    have seven := congrArg (List.take 7) (whole.trans parts)
    rwa [List.take_append_of_le_length long, List.take_left' (by simp)] at seven
  have literal : stream.take 4 ≠ amqpLiteral := by
    intro same
    have first := congrArg List.head? same
    have four : stream.take 4 = (stream.take 7).take 4 := by rw [List.take_take]; rfl
    rw [four, head] at first
    exact other (Option.some.inj first)
  have size : (stream.drop 3).take 4 = Words.bytes 4 payload.length := by
    have field : (stream.drop 3).take 4 = (stream.take 7).drop 3 := by rw [List.drop_take]
    rw [field, head]
    rfl
  rw [frameLength, if_neg literal, size, Words.value_bytes_of_lt (by simpa using small)]
  simp [long]

theorem frameLength_header {stream : List UInt8} (rest : List UInt8) (long : 7 ≤ stream.length)
    (front : stream <+: headerPacket.bytes ++ rest) :
    frameLength stream = if 8 ≤ stream.length then some 8 else none := by
  have literal : stream.take 4 = amqpLiteral := by
    obtain ⟨behind, whole⟩ := front
    have four := congrArg (List.take 4) whole
    rwa [List.take_append_of_le_length (by omega)] at four
  rw [frameLength, if_pos literal]
  simp [long]

theorem frame_delimits : Delimits frameLength spoken := by
  constructor
  · rfl
  · intro w coded
    rcases spoken_cases coded with rfl | ⟨methodId, arguments, _, rfl⟩
    · simp [headerPacket]
    · simp [encodeFrame]
  · intro w coded rest
    rcases spoken_cases coded with rfl | ⟨methodId, arguments, short, rfl⟩
    · rw [frameLength_header rest (by simp [headerPacket, amqpLiteral]) (List.prefix_refl _)]
      simp [headerPacket, amqpLiteral]
    · have size : (encodeMethod 10 methodId arguments).length = arguments.length + 4 := by
        simp [encodeMethod]
      rw [frameLength_frame rest (by decide) (by omega)
        (by simp [length_encodeFrame]; omega) (List.prefix_refl _)]
      simp [length_encodeFrame]
  · intro w coded p front apart
    have less : p.length < w.length := by
      rcases Nat.lt_or_ge p.length w.length with less | ge
      · exact less
      · exact (apart (front.eq_of_length (Nat.le_antisymm front.length_le ge))).elim
    by_cases long : 7 ≤ p.length
    · rcases spoken_cases coded with rfl | ⟨methodId, arguments, short, rfl⟩
      · rw [frameLength_header [] long (by simpa using front), if_neg]
        exact Nat.not_le_of_lt less
      · have size : (encodeMethod 10 methodId arguments).length = arguments.length + 4 := by
          simp [encodeMethod]
        rw [length_encodeFrame] at less
        have behind : p <+: encodeFrame 1 0 (encodeMethod 10 methodId arguments) ++ [] := by
          rwa [List.append_nil]
        rw [frameLength_frame [] (by decide) (by omega) long behind, if_neg (by omega)]
    · exact frameLength_short (by omega)

/-! ### The thread and its connection -/

/-- What a turn finds outside the program, with the value that `send` returns. -/
structure Sending where
  heap : Memory
  junk : Bool
  isRunning : Bool
  sent : Int

def Sending.sends (c : Sending) (packet : Decoded) : Bool × List CounterCall :=
  sendPacket (some packet.bytes) packet.length c.sent

def Sending.circumstances (c : Sending) (decision : Decision) : Circumstances :=
  ⟨c.heap, c.junk, c.isRunning,
    decision.sentPacket.pointer.all fun packet => !(c.sends packet).1⟩

/-- `send` takes no more than it is given. -/
def Sending.Possible (c : Sending) (decision : Decision) : Prop :=
  ∀ packet ∈ decision.sentPacket.pointer, -1 ≤ c.sent ∧ c.sent ≤ packet.length

/-- The thread, the bytes of the client on the wire, and the calls on the packet count. -/
structure Line where
  thread : Thread
  wire : List UInt8
  calls : List CounterCall

def Line.start : Line := ⟨Thread.start, [], []⟩

/-- The packet that is handed to `send`. -/
def Sending.packet (c : Sending) (decision : Decision) : Option Decoded :=
  if c.isRunning then decision.sentPacket.pointer else none

def Line.speak (s : Line) (c : Sending) (decision : Decision) (outcome : Outcome) : Line where
  thread := s.thread.after outcome
  wire := s.wire ++ (c.packet decision).elim [] fun packet => packet.bytes.take c.sent.toNat
  calls := s.calls ++ (c.packet decision).elim [] fun packet => (c.sends packet).2

inductive Line.Step (f : Fuzzer) (packetChaos : Int) : Line → Line → Prop where
  | turn (s : Line) (c : Sending) (packet : Option PacketStruct) (decision : Decision)
      (outcome : Outcome) (decides : Decides f packetChaos c.heap packet s.thread decision)
      (possible : c.Possible decision)
      (delivered : deliver (c.circumstances decision) decision = .ok outcome) :
      Line.Step f packetChaos s (s.speak c decision outcome)

/-- Runs of the thread on one connection. -/
def line (f : Fuzzer) (packetChaos : Int) : TransitionSystem Line :=
  ⟨Line.start, Line.Step f packetChaos⟩

section
variable {f : Fuzzer} {fuel : Nat} {packetChaos : Int} {c : Sending} {packet : Option PacketStruct}
variable {decision : Decision} {outcome : Outcome} {t : Thread} {s s' : Line}

/-- The connection takes nothing from what is known of the thread. -/
theorem line_thread (reach : (line f packetChaos).Reachable s) :
    (channelThread f packetChaos).Reachable s.thread := by
  apply reach.view Line.thread rfl
  rintro s s' _ ⟨c, packet, decision, outcome, decides, possible, delivered⟩
  have turn := turn_iff.mpr ⟨decision, decides, delivered⟩
  exact .inr ⟨c.circumstances decision, packet, outcome, turn, rfl⟩

theorem generate_spells {m : Message} {heap : Memory} {methodData : Option MethodStruct}
    {reply : Reply} (y : (m.generate (shipped fuel) heap methodData).Yields reply) :
    ∃ w, m.Spells w ∧ reply.sentPacket = some (.of w) := by
  have frame : ∀ call : MethodCall, (call.run (shipped fuel)).Yields reply →
      ∃ arguments : List UInt8, arguments.length < 4096 ∧
        consumesExactly call.layout arguments = true ∧
        reply.sentPacket = some (methodPacket call.methodId arguments) := by
    intro call made
    obtain ⟨arguments, sent, short, consumed⟩ := MethodCall.arguments made
    exact ⟨arguments, short, consumed, sent⟩
  cases m with
  | amqpHeader => exact ⟨headerPacket.bytes, rfl, by rw [amqpHeader_reply y]; rfl⟩
  | startOk =>
    obtain ⟨arguments, short, consumed, sent⟩ := frame .startOk y
    exact ⟨_, ⟨arguments, short, consumed, rfl⟩, sent⟩
  | tuneOk =>
    obtain ⟨arguments, short, consumed, sent⟩ := frame (.tuneOk heap methodData) y
    exact ⟨_, ⟨arguments, short, consumed, rfl⟩, sent⟩
  | connectionOpen =>
    obtain ⟨arguments, short, consumed, sent⟩ := frame .connectionOpen y
    exact ⟨_, ⟨arguments, short, consumed, rfl⟩, sent⟩
  | close =>
    obtain ⟨arguments, short, consumed, sent⟩ := frame .close y
    exact ⟨_, ⟨arguments, short, consumed, rfl⟩, sent⟩
  | closeOk =>
    obtain ⟨arguments, short, consumed, sent⟩ := frame .closeOk y
    exact ⟨_, ⟨arguments, short, consumed, rfl⟩, sent⟩

theorem Decides.spells (decides : Decides (shipped fuel) packetChaos c.heap packet t decision)
    {d : Decoded} (pointer : decision.sentPacket.pointer = some d) :
    ∃ m : Message, ∃ w, m.Spells w ∧ d = .of w := by
  have spelled : ∀ {m : Message} {methodData : Option MethodStruct} {d' : Decoded},
      (m.generate (shipped fuel) c.heap methodData).Yields ⟨some d', m.next, m.expects⟩ →
        decision = ⟨.buffer d', m.next, m.expects⟩ →
          ∃ m : Message, ∃ w, m.Spells w ∧ d = .of w := by
    rintro m methodData d' made rfl
    obtain rfl : d' = d := Option.some.inj pointer
    obtain ⟨w, spells, sent⟩ := generate_spells made
    exact ⟨m, w, spells, Option.some.inj sent⟩
  rcases decides.answer with ordered | ⟨_, m, d', made, same⟩
  · cases answer : orderedAnswer packet t.currentState t.waitingResponse with
    | message m =>
      rw [answer] at ordered
      obtain ⟨reply, made, rfl⟩ := (Sampler.yields_map ..).mp ordered
      have generated := (Sampler.yields_mapError ..).mp made
      obtain ⟨d', rfl⟩ := generate_reply generated
      exact spelled generated rfl
    | null state flag =>
      rw [answer] at ordered
      obtain rfl : (⟨.null, state, flag⟩ : Decision) = decision := ordered
      cases pointer
    | unassigned state flag =>
      rw [answer] at ordered
      obtain rfl : (⟨.unassigned, state, flag⟩ : Decision) = decision := ordered
      cases pointer
    | crash =>
      rw [answer] at ordered
      exact ordered.elim
  · exact spelled made same

theorem packet_cases (decides : Decides (shipped fuel) packetChaos c.heap packet t decision) :
    c.packet decision = none ∨
    ∃ m : Message, ∃ w, m.Spells w ∧ c.packet decision = some (.of w) ∧
      decision.sentPacket.pointer = some (.of w) := by
  unfold Sending.packet
  split
  · cases pointer : decision.sentPacket.pointer with
    | none => exact .inl rfl
    | some d =>
      obtain ⟨m, w, spells, rfl⟩ := decides.spells pointer
      exact .inr ⟨m, w, spells, rfl, rfl⟩
  · exact .inl rfl

theorem length_spelled {m : Message} {w : List UInt8} (spells : m.Spells w) :
    w.length < 2147483648 := by
  rcases spoken_cases ⟨m, spells⟩ with rfl | ⟨methodId, arguments, short, rfl⟩
  · decide
  · simp only [length_encodeFrame, encodeMethod, List.length_append, Words.length_bytes]
    omega

theorem sends_of {w : List UInt8} (short : w.length < 2147483648) (lower : -1 ≤ c.sent)
    (upper : c.sent ≤ w.length) :
    c.sends (.of w) = if c.sent = w.length then (false, [.add 1]) else (true, []) := by
  have same : wrapSigned 32 c.sent = c.sent := wrapSigned_of_range (by omega) (by omega)
  rw [Sending.sends, sendPacket, same]
  rfl

/-- A message that is not sent as a whole is the last. -/
theorem speak_torn {w : List UInt8} (pointer : decision.sentPacket.pointer = some (.of w))
    (failed : (c.sends (.of w)).1 = true)
    (delivered : deliver (c.circumstances decision) decision = .ok outcome) :
    (s.speak c decision outcome).thread.currentState = .connectionClosed := by
  have undelivered : (c.circumstances decision).delivered = false := by
    simp [Sending.circumstances, pointer, failed]
  obtain ⟨_, rfl⟩ := deliver_eq_ok.mp delivered
  change (s.thread.after (decision.outcome (c.circumstances decision))).currentState = _
  rw [Decision.outcome, pointer]
  simp [undelivered, Thread.after]

/-- What the wire and the count are after any number of turns. -/
structure Line.Reads (s : Line) (kinds : List Message) (words : List (List UInt8))
    (torn : List UInt8) : Prop where
  spelled : List.Forall₂ Message.Spells kinds words
  reading : Reading spoken s.wire words torn
  last : torn ≠ [] → s.thread.currentState = .connectionClosed
  counted : s.calls.count (.add 1) = words.length

theorem Line.Reads.turn {kinds : List Message} {words : List (List UInt8)} {torn : List UInt8}
    (reads : s.Reads kinds words torn)
    (decides : Decides (shipped fuel) packetChaos c.heap packet s.thread decision)
    (possible : c.Possible decision)
    (delivered : deliver (c.circumstances decision) decision = .ok outcome) :
    ∃ kinds words torn, (s.speak c decision outcome).Reads kinds words torn := by
  obtain rfl : torn = [] := by
    by_contra started
    exact decides.ready.1 (reads.last started)
  rcases packet_cases decides with nothing | ⟨m, w, spells, packet, pointer⟩
  · refine ⟨kinds, words, [], reads.spelled, ?_, fun torn => (torn rfl).elim, ?_⟩
    · simpa [Line.speak, nothing] using reads.reading
    · simpa [Line.speak, nothing] using reads.counted
  · obtain ⟨lower, upper⟩ := possible _ pointer
    have sends := sends_of (length_spelled spells) lower upper
    by_cases whole : c.sent = w.length
    · rw [if_pos whole] at sends
      refine ⟨kinds ++ [m], words ++ [w], [], List.rel_append reads.spelled (.cons spells .nil), ?_,
        fun torn => (torn rfl).elim, ?_⟩
      · have written := reads.reading.word (w := w) ⟨m, spells⟩
        simpa [Line.speak, packet, whole, Decoded.of] using written
      · simp [Line.speak, packet, sends, reads.counted]
    · rw [if_neg whole] at sends
      have short : c.sent.toNat < w.length := by
        have filled := List.length_pos_iff.mpr (frame_delimits.nonempty w ⟨m, spells⟩)
        change c.sent ≤ (w.length : Int) at upper
        omega
      refine ⟨kinds, words, w.take c.sent.toNat, reads.spelled, ?_,
        fun _ => speak_torn pointer (by rw [sends]) delivered, ?_⟩
      · have written := reads.reading.tear (w := w) ⟨m, spells⟩ short
        simpa [Line.speak, packet, Decoded.of] using written
      · simp [Line.speak, packet, sends, reads.counted]

theorem line_reading (reach : (line (shipped fuel) packetChaos).Reachable s) :
    ∃ kinds words torn, s.Reads kinds words torn := by
  apply reach.invariant
  · exact ⟨[], [], [], .nil, Reading.start, fun torn => (torn rfl).elim, rfl⟩
  · rintro s _ _ ⟨kinds, words, torn, reads⟩
      ⟨c, packet, decision, outcome, decides, possible, delivered⟩
    exact reads.turn decides possible delivered

end

/-- The wire carries whole messages one behind the other, which a peer that goes by the size
fields reads as they were sent, and at most the beginning of one more, behind which the
thread is closed. The packet count is the number of messages. -/
theorem line_splits (fuel : Nat) (packetChaos : Int) (s : Line)
    (reach : (line (shipped fuel) packetChaos).Reachable s) :
    (∃ kinds words torn, List.Forall₂ Message.Spells kinds words ∧
      s.wire = words.flatten ++ torn ∧ split frameLength s.wire = (words, torn) ∧
      (torn ≠ [] → s.thread.currentState = .connectionClosed ∧
        ∃ m : Message, ∃ w, m.Spells w ∧ torn <+: w ∧ torn ≠ w) ∧
      s.calls.count (.add 1) = words.length) ∧
    (channelThread (shipped fuel) packetChaos).Reachable s.thread := by
  refine ⟨?_, line_thread reach⟩
  obtain ⟨kinds, words, torn, reads⟩ := line_reading reach
  refine ⟨kinds, words, torn, reads.spelled, reads.reading.parts,
    reads.reading.split frame_delimits, ?_, reads.counted⟩
  intro started
  refine ⟨reads.last started, ?_⟩
  rcases reads.reading.proper with nothing | ⟨w, ⟨m, spells⟩, front, apart⟩
  · exact (started nothing).elim
  · exact ⟨m, w, spells, front, apart⟩

theorem line_torn : ∃ s, (line (shipped 20) 0).Reachable s ∧ s.wire = [0x41, 0x4D, 0x51] ∧
    s.thread.currentState = .connectionClosed := by
  have greets := TransitionSystem.Reachable.start.next (A := line (shipped 20) 0)
    (Line.Step.turn Line.start ⟨fun _ => none, false, true, 3⟩ none
      ⟨.buffer headerPacket, .connectionStart, true⟩ ⟨.connectionClosed, false, none⟩
      ⟨⟨by decide, fun _ => rfl⟩, Stream'.const 0, Sampler.run_of_map_fst (by decide +kernel)⟩
      (by rintro _ ⟨⟩; decide) (by decide))
  exact ⟨_, greets, by decide, by decide⟩

theorem line_splits_torn : ∃ s : Line, s.wire = [0x41, 0x4D, 0x51] ∧ ∃ kinds words torn,
    List.Forall₂ Message.Spells kinds words ∧ s.wire = words.flatten ++ torn ∧
      split frameLength s.wire = (words, torn) := by
  obtain ⟨s, reach, wire, _⟩ := line_torn
  obtain ⟨kinds, words, torn, spelled, parts, reads, _⟩ := (line_splits 20 0 s reach).1
  exact ⟨s, wire, kinds, words, torn, spelled, parts, reads⟩

end Amqpgram
