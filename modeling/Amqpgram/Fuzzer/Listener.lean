import Amqpgram.Fuzzer.Packet

/-! AMQP.c: what the listener makes of one `recv`. The buffer is never moved on, so
every turn of the inner loop takes the same bytes apart. -/
namespace Amqpgram

def maxLine : Nat := 4096

/-- `fuzz` creates the thread of channel 0 only, and the arrays have that length. -/
def createdThreads : Nat := 1

/-- `n = recv(...) > 0` stores the comparison, which binds first. -/
def recvN (received : Int) : Int := if received > 0 then 1 else 0

inductive Stop where
  | parsed (parsedN : Int)
  | noFrame
  | crashed (fault : Fault)
  | running
  deriving DecidableEq, Repr

/-- What the inner loop stores in the slots of the channels, and how it ends. -/
structure Split where
  published : List PacketStruct
  stop : Stop
  deriving DecidableEq

/-- `while (parsed_n < n)`; a packet for a channel without a slot is stored outside
of the array. -/
def splitLoop (recvline : Memory) (n : Int) : Nat → Int → Split
  | 0, _ => ⟨[], .running⟩
  | turns + 1, parsedN =>
    if parsedN < n then
      match breakPacket recvline with
      | .error fault => ⟨[], .crashed fault⟩
      | .ok readPacket =>
        if readPacket.type = .none then ⟨[], .noFrame⟩
        else if readPacket.channel < createdThreads then
          let rest := splitLoop recvline n turns (wrapSigned 32 (readPacket.size + 7))
          ⟨readPacket :: rest.published, rest.stop⟩
        else ⟨[], .crashed .outOfBounds⟩
    else ⟨[], .parsed parsedN⟩

def listenerLoop (turns : Nat) (recvline : List UInt8) (received : Nat) : Split :=
  splitLoop (bufferMemory recvline) (recvN received) turns 0

theorem recvN_pos {received : Nat} (some : 0 < received) : recvN received = 1 := by
  unfold recvN
  rw [if_pos (by omega)]

/-- A packet published from the head of the buffer ends the loop, unless its size
wraps around to no bytes at all. -/
theorem listenerLoop_publish {recvline : List UInt8} {received turns : Nat}
    {packet : PacketStruct} (some : 0 < received)
    (broken : breakPacket (bufferMemory recvline) = .ok packet) (typed : packet.type ≠ .none)
    (channel : packet.channel = 0) (short : packet.size < 32768) :
    listenerLoop (turns + 2) recvline received = ⟨[packet], .parsed (packet.size + 7)⟩ := by
  have parsed : wrapSigned 32 ((packet.size : Int) + 7) = packet.size + 7 :=
    wrapSigned_of_range (by omega) (by omega)
  have open_ : packet.channel < createdThreads := by
    rw [channel]
    decide
  rw [listenerLoop, recvN_pos some, splitLoop, if_pos (by decide), broken]
  dsimp only
  rw [if_neg typed, if_pos open_, parsed, splitLoop, if_neg (by omega)]

/-! ### Bundles -/

/-- A well-formed frame of channel 0: a method with its two ids, a content header
or a body. -/
structure Frame where
  type : UInt8
  payload : List UInt8
  typed : type = 1 ∨ type = 2 ∨ type = 3
  ids : type = 1 → 4 ≤ payload.length

def Frame.bytes (frame : Frame) : List UInt8 := encodeFrame frame.type 0 frame.payload

theorem Frame.content {frame : Frame} (other : frame.type ≠ 1) :
    FrameType.ofOctet frame.type ≠ .method := by
  rcases frame.typed with method | header | body
  · exact (other method).elim
  · rw [header]
    decide
  · rw [body]
    decide

def Frame.packet (frame : Frame) : PacketStruct :=
  if method : frame.type = 1 then
    .method 0 frame.payload.length ⟨Words.value (frame.payload.take 2),
      Words.value ((frame.payload.drop 2).take 2), frame.payload.drop 4, frame.payload.length - 4⟩
  else
    .plain (.ofOctet frame.type) (Frame.content method) 0 frame.payload.length
      (List.replicate 8 0)

def bundle (frames : List Frame) : List UInt8 := frames.flatMap Frame.bytes

theorem Frame.length_bytes (frame : Frame) : frame.bytes.length = frame.payload.length + 8 :=
  length_encodeFrame ..

theorem Frame.packet_head (frame : Frame) :
    frame.packet.type ≠ .none ∧ frame.packet.channel = 0 ∧
      frame.packet.size = frame.payload.length := by
  unfold Frame.packet
  split
  · exact ⟨by simp [PacketStruct.method], rfl, rfl⟩
  · refine ⟨?_, rfl, rfl⟩
    rcases frame.typed with method | header | body
    · contradiction
    · simp [PacketStruct.plain, header, FrameType.ofOctet]
    · simp [PacketStruct.plain, body, FrameType.ofOctet]

theorem exists_encodeMethod {payload : List UInt8} (ids : 4 ≤ payload.length) :
    payload = encodeMethod (Words.value (payload.take 2)) (Words.value ((payload.drop 2).take 2))
      (payload.drop 4) := by
  match payload, ids with
  | k0 :: k1 :: m0 :: m1 :: arguments, _ =>
    have classId : Words.bytes 2 (Words.value [k0, k1]) = [k0, k1] := Words.bytes_value [k0, k1]
    have methodId : Words.bytes 2 (Words.value [m0, m1]) = [m0, m1] := Words.bytes_value [m0, m1]
    simp only [List.take_succ_cons, List.take_zero, List.drop_succ_cons, List.drop_zero,
      encodeMethod, classId, methodId]
    rfl

theorem Frame.broken (frame : Frame) (short : frame.payload.length < 32768) (rest : List UInt8) :
    breakPacket (bufferMemory (frame.bytes ++ rest)) = .ok frame.packet := by
  unfold Frame.packet Frame.bytes
  split
  · rename_i method
    have ids := frame.ids method
    have length : (frame.payload.drop 4).length + 4 = frame.payload.length := by
      rw [List.length_drop]
      omega
    have arguments : ((frame.payload.drop 4).length : Int) = frame.payload.length - 4 := by
      omega
    have classId := Words.value_lt (frame.payload.take 2)
    have methodId := Words.value_lt ((frame.payload.drop 2).take 2)
    rw [List.length_take_of_le (by omega)] at classId
    rw [List.length_take_of_le (by rw [List.length_drop]; omega)] at methodId
    have clear : ((frame.payload.drop 4).length + 4) % 65536 < 32768 := by omega
    have small : (frame.payload.drop 4).length + 4 < 2147483648 := by omega
    have broken : breakPacket (bufferMemory (encodeFrame 1 0 (encodeMethod _ _ _) ++ rest)) = _ :=
      breakPacket_method (by decide) classId methodId clear small
    rw [← exists_encodeMethod ids, length, arguments] at broken
    rw [method]
    exact broken
  · rename_i other
    have plain : frame.type ≠ 0x41 := by
      rcases frame.typed with method | header | body
      · contradiction
      · rw [header]
        decide
      · rw [body]
        decide
    exact breakPacket_content plain (Frame.content other) (by decide) short

/-- The loop publishes the first frame of what it received and stops one octet
short of its end. -/
theorem listenerLoop_bundle (first : Frame) (others : List Frame) (stale : List UInt8)
    (turns : Nat) (fits : (bundle (first :: others)).length ≤ maxLine) :
    listenerLoop (turns + 2) (bundle (first :: others) ++ stale)
        (bundle (first :: others)).length =
      ⟨[first.packet], .parsed (first.payload.length + 7)⟩ := by
  have head : bundle (first :: others) = first.bytes ++ bundle others := List.flatMap_cons ..
  have length := first.length_bytes
  have bound : first.bytes.length ≤ maxLine := by
    rw [head, List.length_append] at fits
    omega
  unfold maxLine at bound
  have broken := first.broken (by omega) (bundle others ++ stale)
  obtain ⟨typed, channel, size⟩ := first.packet_head
  have received : 0 < (bundle (first :: others)).length := by
    rw [head, List.length_append]
    omega
  rw [← List.append_assoc, ← head] at broken
  rw [listenerLoop_publish received broken typed channel (by omega), size]

/-- The loop publishes the frames, each once and in order, and has parsed what was
received. -/
def SplitsCompletely (frames : List Frame) (split : Split) : Prop :=
  split.published = frames.map Frame.packet ∧ split.stop = .parsed (bundle frames).length

/-- No bundle is split completely: one frame leaves its end octet unparsed, and of
several only the first is published. -/
theorem bundle_never_split (frames : List Frame) (nonempty : frames ≠ []) (stale : List UInt8)
    (turns : Nat) (fits : (bundle frames).length ≤ maxLine) :
    ¬ SplitsCompletely frames
        (listenerLoop (turns + 2) (bundle frames ++ stale) (bundle frames).length) ∧
      ((listenerLoop (turns + 2) (bundle frames ++ stale) (bundle frames).length).published =
        frames.map Frame.packet ↔ frames.length = 1) := by
  cases frames with
  | nil => exact (nonempty rfl).elim
  | cons first others =>
    rw [listenerLoop_bundle first others stale turns fits]
    constructor
    · rintro ⟨_, stop⟩
      have parsed := Stop.parsed.inj stop
      have head : bundle (first :: others) = first.bytes ++ bundle others := List.flatMap_cons ..
      have length := first.length_bytes
      rw [head, List.length_append] at parsed
      omega
    · simp

def bodyPair : List Frame := [⟨3, [], by decide, by decide⟩, ⟨3, [7], by decide, by decide⟩]

theorem bundle_never_split_pair : ¬ SplitsCompletely bodyPair
    (listenerLoop 2 (bundle bodyPair ++ []) (bundle bodyPair).length) :=
  (bundle_never_split bodyPair (by decide) [] 0 (by decide)).1

theorem bodyPair_first_only :
    listenerLoop 4 (bundle bodyPair) (bundle bodyPair).length =
      ⟨[.plain .body (by decide) 0 0 (List.replicate 8 0)], .parsed 7⟩ ∧
    ¬ SplitsCompletely bodyPair (listenerLoop 4 (bundle bodyPair) (bundle bodyPair).length) := by
  have first : listenerLoop 4 (bundle bodyPair) (bundle bodyPair).length =
      ⟨[.plain .body (by decide) 0 0 (List.replicate 8 0)], .parsed 7⟩ := by decide +kernel
  refine ⟨first, ?_⟩
  rw [first]
  rintro ⟨published, _⟩
  have count := congrArg List.length published
  rw [List.length_map] at count
  exact absurd count (by decide)

end Amqpgram
