import Mathlib.Data.List.GetD
import Mathlib.Tactic.IntervalCases
import Amqpgram.Fuzzer.Listener

/-! What the listener publishes against what it received. Two runs on buffers that
agree on the received octets are compared; `break_packet` is not told their number,
so a declared end beyond them is looked for among octets of earlier receives, and one
beyond the buffer in the memory behind it. -/
namespace Amqpgram

/-- What one turn of the inner loop makes of the buffer. -/
inductive Attempt where
  | crash (fault : Fault)
  | noFrame
  | publish (packet : PacketStruct)
  deriving DecidableEq

def attempt (recvline : Memory) : Attempt :=
  match breakPacket recvline with
  | .error fault => .crash fault
  | .ok readPacket =>
    if readPacket.type = .none then .noFrame
    else if readPacket.channel < createdThreads then .publish readPacket
    else .crash .outOfBounds

/-- The loop uses the buffer through `attempt` only. -/
theorem splitLoop_succ (recvline : Memory) (n parsedN : Int) (turns : Nat) :
    splitLoop recvline n (turns + 1) parsedN =
      if parsedN < n then
        match attempt recvline with
        | .crash fault => ⟨[], .crashed fault⟩
        | .noFrame => ⟨[], .noFrame⟩
        | .publish packet =>
          let rest := splitLoop recvline n turns (wrapSigned 32 (packet.size + 7))
          ⟨packet :: rest.published, rest.stop⟩
      else ⟨[], .parsed parsedN⟩ := by
  unfold attempt
  rw [splitLoop]
  split
  · cases breakPacket recvline with
    | error fault => rfl
    | ok packet =>
      dsimp only
      split
      · rfl
      · split <;> rfl
  · rfl

theorem attempt_of_splitLoop {a b : Memory} {n parsedN : Int} (entered : parsedN < n)
    (same : splitLoop a n 1 parsedN = splitLoop b n 1 parsedN) : attempt a = attempt b := by
  rw [splitLoop_succ, splitLoop_succ, if_pos entered, if_pos entered] at same
  cases first : attempt a <;> cases second : attempt b <;> rw [first, second] at same <;>
    simp_all [splitLoop]

theorem readBytes_total {m : Memory} (readable : ∀ i, (m i).isSome) (i n : Nat) :
    ∃ octets, readBytes m i n = .ok octets ∧ ∀ j < n, octets[j]? = m (i + j) := by
  induction n generalizing i with
  | zero => exact ⟨[], rfl, fun j below => absurd below (by omega)⟩
  | succ n ih =>
    obtain ⟨octet, there⟩ := Option.isSome_iff_exists.mp (readable i)
    obtain ⟨octets, read, same⟩ := ih (i + 1)
    refine ⟨octet :: octets, by rw [readBytes, readByte, there, ok_bind, read]; rfl, ?_⟩
    intro j below
    cases j with
    | zero => exact there.symm
    | succ j =>
      rw [List.getElem?_cons_succ, same j (by omega)]
      congr 1
      omega

theorem breakMethod_total {m : Memory} (readable : ∀ i, (m i).isSome) (size : Nat) :
    ∃ payload, breakMethod m size = .ok payload ∧ ∀ j < argumentsSize size,
      payload.argumentsByteArray[j]? = m (11 + j) := by
  have short : ∀ i, ∃ value, charInShort m i = .ok value := by
    intro i
    obtain ⟨high, first⟩ := Option.isSome_iff_exists.mp (readable i)
    obtain ⟨low, second⟩ := Option.isSome_iff_exists.mp (readable (i + 1))
    exact ⟨_, by rw [charInShort, readByte, first, ok_bind, readByte, second, ok_bind]; rfl⟩
  obtain ⟨classId, first⟩ := short 7
  obtain ⟨methodId, second⟩ := short 9
  obtain ⟨octets, read, same⟩ := readBytes_total readable 11 (argumentsSize size)
  exact ⟨_, by rw [breakMethod, first, ok_bind, second, ok_bind, read]; rfl, same⟩

/-! ### One turn on a buffer -/

/-- The fields of the frame at the head of the octets. -/
def frameType (octets : List UInt8) : FrameType := .ofOctet (octets.getD 0 0)

def frameChannel (octets : List UInt8) : Nat :=
  (octets.getD 1 0).toNat * 256 + (octets.getD 2 0).toNat

def frameSize (octets : List UInt8) : Nat :=
  sizeField (octets.getD 3 0) (octets.getD 4 0) (octets.getD 5 0) (octets.getD 6 0)

def frameEnd (octets : List UInt8) : Nat := declaredEnd (frameSize octets)

section
variable {head octets : List UInt8}

theorem frameSize_head (within : head <+: octets) (long : 7 ≤ head.length) :
    frameSize octets = frameSize head := by
  obtain ⟨rest, rfl⟩ := within
  unfold frameSize
  rw [List.getD_append _ _ _ _ (by omega), List.getD_append _ _ _ _ (by omega),
    List.getD_append _ _ _ _ (by omega), List.getD_append _ _ _ _ (by omega)]

theorem frameEnd_head (within : head <+: octets) (long : 7 ≤ head.length) :
    frameEnd octets = frameEnd head := by
  rw [frameEnd, frameEnd, frameSize_head within long]

theorem frameChannel_head (within : head <+: octets) (long : 7 ≤ head.length) :
    frameChannel octets = frameChannel head := by
  obtain ⟨rest, rfl⟩ := within
  unfold frameChannel
  rw [List.getD_append _ _ _ _ (by omega), List.getD_append _ _ _ _ (by omega)]

theorem frameType_head (within : head <+: octets) (long : 7 ≤ head.length) :
    frameType octets = frameType head := by
  obtain ⟨rest, rfl⟩ := within
  unfold frameType
  rw [List.getD_append _ _ _ _ (by omega)]

end

/-- The memory starts with the octets. -/
def Shows (recvline : List UInt8) (m : Memory) : Prop :=
  ∀ i < recvline.length, m i = recvline[i]?

theorem shows_buffer (recvline : List UInt8) : Shows recvline (bufferMemory recvline) :=
  fun _ _ => rfl

theorem attempt_of_ok {m : Memory} {packet : PacketStruct} (broken : breakPacket m = .ok packet) :
    attempt m = if packet.type = .none then .noFrame
      else if packet.channel < createdThreads then .publish packet else .crash .outOfBounds := by
  rw [attempt, broken]

theorem attempt_of_error {m : Memory} {fault : Fault} (broken : breakPacket m = .error fault) :
    attempt m = .crash fault := by
  rw [attempt, broken]

theorem readByte_found {m : Memory} {i : Nat} {octet : UInt8} (there : m i = some octet) :
    readByte m i = .ok octet := by
  rw [readByte, there]

section
variable {recvline : List UInt8} {m : Memory}

theorem Shows.readBytes (shows : Shows recvline m) {i n : Nat} (inside : i + n ≤ recvline.length) :
    readBytes m i n = .ok ((recvline.drop i).take n) := by
  rw [readBytes_congr (b := bufferMemory recvline) fun j _ upper => shows j (by omega)]
  exact readBytes_inside recvline i n inside

theorem Shows.header (shows : Shows recvline m) (header : amqpLiteral <+: recvline)
    (long : 8 ≤ recvline.length) :
    breakPacket m = .ok (.plain .protocolHeader (by decide) 0 0 (recvline.take 8)) := by
  have start := shows.readBytes (show 0 + 4 ≤ recvline.length by omega)
  have whole := shows.readBytes (show 0 + 8 ≤ recvline.length by omega)
  have literal : recvline.take 4 = amqpLiteral := (List.prefix_iff_eq_take.mp header).symm
  rw [List.drop_zero] at start whole
  rw [breakPacket, start, ok_bind, if_pos literal, whole, ok_bind]
  rfl

theorem header_broken (header : amqpLiteral <+: recvline) (long : 8 ≤ recvline.length) :
    breakPacket (bufferMemory recvline) =
      .ok (.plain .protocolHeader (by decide) 0 0 (recvline.take 8)) :=
  (shows_buffer recvline).header header long

theorem Shows.attempt_header (shows : Shows recvline m) (header : amqpLiteral <+: recvline)
    (long : 8 ≤ recvline.length) :
    attempt m = .publish (.plain .protocolHeader (by decide) 0 0 (recvline.take 8)) := by
  rw [attempt, shows.header header long]
  rfl

theorem Shows.frame (shows : Shows recvline m) (other : ¬ amqpLiteral <+: recvline)
    (long : 7 ≤ recvline.length) :
    breakPacket m = breakFrame m (frameType recvline) (frameChannel recvline)
      (frameSize recvline) := by
  match recvline, long with
  | t :: c0 :: c1 :: s0 :: s1 :: s2 :: s3 :: rest, _ =>
    apply breakPacket_shown
    · intro i inside
      rw [shows i (by simp only [List.length_cons]; omega)]
      have front : ([t, c0, c1, s0, s1, s2, s3] ++ rest)[i]? = [t, c0, c1, s0, s1, s2, s3][i]? :=
        List.getElem?_append_left inside
      exact front
    · intro same
      apply other
      rw [← same]
      exact ⟨s1 :: s2 :: s3 :: rest, rfl⟩

theorem breakPacket_other (other : ¬ amqpLiteral <+: recvline) (long : 7 ≤ recvline.length) :
    breakPacket (bufferMemory recvline) = breakFrame (bufferMemory recvline) (frameType recvline)
      (frameChannel recvline) (frameSize recvline) :=
  (shows_buffer recvline).frame other long

theorem breakPacket_beyond (other : ¬ amqpLiteral <+: recvline) (long : 7 ≤ recvline.length)
    (beyond : recvline.length ≤ frameEnd recvline) :
    breakPacket (bufferMemory recvline) = .error .outOfBounds := by
  have none := readByte_outside beyond
  unfold frameEnd at none
  rw [breakPacket_other other long, breakFrame, none, error_bind]

/-! What the declared end decides. -/

section
variable (shows : Shows recvline m) (other : ¬ amqpLiteral <+: recvline)
variable (long : 7 ≤ recvline.length)
include shows other long

theorem Shows.unread (out : m (frameEnd recvline) = none) :
    attempt m = .crash .outOfBounds := by
  have read : readByte m (frameEnd recvline) = .error .outOfBounds := by rw [readByte, out]
  unfold frameEnd at read
  rw [attempt, shows.frame other long, breakFrame, read, error_bind]

theorem Shows.miss {last : UInt8} (at_end : m (frameEnd recvline) = some last)
    (miss : last ≠ 0xCE) : attempt m = .noFrame := by
  have read := readByte_found at_end
  unfold frameEnd at read
  rw [attempt, shows.frame other long, breakFrame, read, ok_bind, if_pos miss]
  rfl

theorem Shows.ended (at_end : m (frameEnd recvline) = some 0xCE) :
    breakPacket m = if h : frameType recvline = .method then do
        let methodPayload ← breakMethod m (frameSize recvline)
        pure (.method (frameChannel recvline) (frameSize recvline) methodPayload)
      else .ok (.plain (frameType recvline) h (frameChannel recvline) (frameSize recvline)
        (List.replicate 8 0)) := by
  have read := readByte_found at_end
  unfold frameEnd at read
  rw [shows.frame other long, breakFrame, read, ok_bind, if_neg (by decide)]
  rfl

/-- Type 0 is the mark of no frame, also where a frame with its end octet stands. -/
theorem Shows.untyped {last : UInt8} (at_end : m (frameEnd recvline) = some last)
    (untyped : frameType recvline = .none) : attempt m = .noFrame := by
  by_cases miss : last = 0xCE
  · subst miss
    rw [attempt, shows.ended other long at_end, dif_neg (by rw [untyped]; decide)]
    exact if_pos untyped
  · exact shows.miss other long at_end miss

theorem Shows.hit (at_end : m (frameEnd recvline) = some 0xCE)
    (typed : frameType recvline ≠ .none) : attempt m ≠ .noFrame := by
  cases broken : breakPacket m with
  | error fault =>
    rw [attempt_of_error broken]
    simp
  | ok packet =>
    have kept : packet.type = frameType recvline := by
      rw [shows.ended other long at_end] at broken
      split at broken
      · rename_i method
        obtain ⟨payload, _, done⟩ := bind_eq_ok.mp broken
        obtain rfl := Except.ok.inj done
        exact method.symm
      · obtain rfl := Except.ok.inj broken
        rfl
    rw [attempt_of_ok broken, if_neg (by rw [kept]; exact typed)]
    split <;> simp

/-- Where everything can be read a frame of channel 0 is stored with the bytes that its size
takes for the arguments. -/
theorem Shows.stored (readable : ∀ i, (m i).isSome) (at_end : m (frameEnd recvline) = some 0xCE)
    (typed : frameType recvline ≠ .none) (channel : frameChannel recvline = 0) :
    ∃ packet, attempt m = .publish packet ∧ (frameType recvline = .method →
      ∃ payload ∈ packet.methodPayload, ∀ j < argumentsSize (frameSize recvline),
        payload.argumentsByteArray[j]? = m (11 + j)) := by
  have slotted : frameChannel recvline < createdThreads := by
    rw [channel]
    decide
  have broken := shows.ended other long at_end
  by_cases method : frameType recvline = .method
  · obtain ⟨payload, taken, arguments⟩ := breakMethod_total readable (frameSize recvline)
    rw [dif_pos method, taken, ok_bind] at broken
    rw [attempt_of_ok broken, if_neg (by simp [PacketStruct.method])]
    exact ⟨_, if_pos slotted, fun _ => ⟨payload, rfl, arguments⟩⟩
  · rw [dif_neg method] at broken
    rw [attempt_of_ok broken]
    exact ⟨_, (if_neg typed).trans (if_pos slotted), fun same => (method same).elim⟩

theorem Shows.publish_size {packet : PacketStruct} (published : attempt m = .publish packet) :
    packet.size = frameSize recvline := by
  cases at_end : m (frameEnd recvline) with
  | none =>
    rw [shows.unread other long at_end] at published
    cases published
  | some last =>
    by_cases miss : last = 0xCE
    · subst miss
      cases broken : breakPacket m with
      | error fault =>
        rw [attempt_of_error broken] at published
        cases published
      | ok found =>
        have size : found.size = frameSize recvline := by
          rw [shows.ended other long at_end] at broken
          split at broken
          · obtain ⟨payload, _, done⟩ := bind_eq_ok.mp broken
            obtain rfl := Except.ok.inj done
            exact PacketStruct.method_size ..
          · obtain rfl := Except.ok.inj broken
            exact PacketStruct.plain_size ..
        rw [attempt_of_ok broken] at published
        split at published
        · cases published
        · split at published
          · rw [← Attempt.publish.inj published]
            exact size
          · cases published
    · rw [shows.miss other long at_end miss] at published
      cases published

end

end

/-! ### Two buffers with the same received octets -/

/-- A content of `recvline` after a receive of the chunk. -/
structure Holds (chunk recvline : List UInt8) : Prop where
  received : chunk <+: recvline
  length : recvline.length = maxLine + 1

theorem breakMethod_out {buffer : List UInt8} {size : Nat} (long : 11 ≤ buffer.length)
    (out : buffer.length < 11 + argumentsSize size) :
    breakMethod (bufferMemory buffer) size = .error .outOfBounds := by
  obtain ⟨classId, first⟩ := charInShort_inside (show 7 + 1 < buffer.length by omega)
  obtain ⟨methodId, second⟩ := charInShort_inside (show 9 + 1 < buffer.length by omega)
  rw [breakMethod, first, ok_bind, second, ok_bind, readBytes_out long out, error_bind]

theorem sizeField_lt (a b c d : UInt8) : sizeField a b c d < 4294967296 := wrapUnsigned_lt 32 _

/-- `recvline` and what lies behind it. -/
def recvlineMemory (recvline : List UInt8) (behind : Memory) : Memory := fun i =>
  if i < recvline.length then recvline[i]? else behind (i - recvline.length)

/-- The inner loop on a buffer that is not all of the memory. -/
def receivedLoop (behind : Memory) (turns : Nat) (recvline : List UInt8) (received : Nat) : Split :=
  splitLoop (recvlineMemory recvline behind) (recvN received) turns 0

theorem recvlineMemory_shows (recvline : List UInt8) (behind : Memory) :
    Shows recvline (recvlineMemory recvline behind) := fun _ inside => if_pos inside

theorem recvlineMemory_none (recvline : List UInt8) :
    recvlineMemory recvline (fun _ => none) = bufferMemory recvline := by
  funext i
  unfold recvlineMemory bufferMemory
  split
  · rfl
  · exact (List.getElem?_eq_none (by omega)).symm

section
variable {chunk a b : List UInt8} {behind : Memory}

theorem Holds.long (holds : Holds chunk a) : 7 ≤ a.length := by
  rw [holds.length]
  decide

theorem Holds.inside (holds : Holds chunk a) (behind : Memory) {i : Nat} (inside : i ≤ maxLine) :
    recvlineMemory a behind i = a[i]? := by
  apply recvlineMemory_shows a behind
  rw [holds.length]
  omega

theorem Holds.outside (holds : Holds chunk a) (behind : Memory) {i : Nat} (outside : maxLine < i) :
    recvlineMemory a behind i = behind (i - (maxLine + 1)) := by
  unfold recvlineMemory
  rw [if_neg (by rw [holds.length]; omega), holds.length]

theorem Holds.front (holds : Holds chunk a) (behind : Memory) {i : Nat}
    (inside : i < chunk.length) : recvlineMemory a behind i = chunk[i]? := by
  obtain ⟨stale, rfl⟩ := holds.received
  rw [recvlineMemory_shows _ behind i (by rw [List.length_append]; omega)]
  exact List.getElem?_append_left inside

theorem Holds.readable (holds : Holds chunk a) (readable : ∀ i, (behind i).isSome) (i : Nat) :
    (recvlineMemory a behind i).isSome := by
  by_cases inside : i < a.length
  · rw [recvlineMemory_shows a behind i inside, List.getElem?_eq_getElem inside]
    rfl
  · rw [holds.outside behind (by have := holds.length; omega)]
    exact readable _

/-! ### When the result depends on the received octets only -/

end

/-- Whatever lies behind the chunk and whatever behind the buffer, the loop publishes the
same and stops the same way, and publishes no frame that is declared to end behind the
chunk. -/
structure DependsOnReceived (chunk : List UInt8) : Prop where
  same : ∀ behind a b, Holds chunk a → Holds chunk b → ∀ turns,
    receivedLoop behind turns a chunk.length = receivedLoop behind turns b chunk.length
  within : ∀ behind a, Holds chunk a → ¬ amqpLiteral <+: a → ∀ turns,
    ∀ packet ∈ (receivedLoop behind turns a chunk.length).published,
      declaredEnd packet.size < chunk.length

/-- The octets that the head of a frame starting with the chunk can have. -/
structure Completes (chunk head : List UInt8) : Prop where
  length : head.length = 7
  starts : chunk.take 7 <+: head

/-- A frame that the listener stores if it finds its end. -/
def Stored (chunk : List UInt8) : Prop := frameType chunk ≠ .none ∧ frameChannel chunk = 0

/-- A stored method whose size leaves no room for its two ids. -/
def Idless (chunk : List UInt8) : Prop :=
  chunk[frameEnd chunk]? = some 0xCE ∧ frameType chunk = .method ∧ frameChannel chunk = 0 ∧
    frameSize chunk < 4

section
variable {chunk a b : List UInt8} {behind : Memory}

theorem Holds.completes (holds : Holds chunk a) : Completes chunk (a.take 7) := by
  refine ⟨List.length_take_of_le holds.long, ?_⟩
  obtain ⟨stale, rfl⟩ := holds.received
  rw [List.take_append]
  exact List.prefix_append _ _

theorem frameEnd_take (long : 7 ≤ a.length) : frameEnd (a.take 7) = frameEnd a :=
  (frameEnd_head (List.take_prefix 7 a) (List.length_take_of_le long).ge).symm

theorem Holds.frameType (holds : Holds chunk a) {t : UInt8} (first : chunk.head? = some t) :
    frameType a = .ofOctet t := by
  obtain ⟨stale, rfl⟩ := holds.received
  cases chunk with
  | nil => cases first
  | cons c rest =>
    obtain rfl := Option.some.inj first
    rfl

theorem DependsOnReceived.attempt (depends : DependsOnReceived chunk) (received : 0 < chunk.length)
    (behind : Memory) (holdsA : Holds chunk a) (holdsB : Holds chunk b) :
    attempt (recvlineMemory a behind) = Amqpgram.attempt (recvlineMemory b behind) := by
  have same := depends.same behind a b holdsA holdsB 1
  rw [receivedLoop, receivedLoop, recvN_pos received] at same
  exact attempt_of_splitLoop (by decide) same

theorem DependsOnReceived.published (depends : DependsOnReceived chunk)
    (received : 0 < chunk.length) (holds : Holds chunk a) (other : ¬ amqpLiteral <+: a)
    {packet : PacketStruct}
    (published : Amqpgram.attempt (recvlineMemory a behind) = .publish packet) :
    declaredEnd packet.size < chunk.length := by
  apply depends.within behind a holds other 1
  rw [receivedLoop, recvN_pos received, splitLoop_succ, if_pos (by decide), published]
  exact List.mem_singleton_self _

theorem wrapSigned_short {v : Nat} (word : v < 65536) :
    wrapSigned 16 v = v ∧ v < 32768 ∨ wrapSigned 16 v = v - 65536 ∧ 32768 ≤ v := by
  rw [wrapSigned, Int.bmod_def]
  norm_num
  omega

/-- Only a size that wraps around ends within the head, and it has these octets. -/
theorem sizeField_wrapped {s0 s1 s2 s3 : UInt8}
    (wrapped : declaredEnd (sizeField s0 s1 s2 s3) < 7) : s0 = 0 ∧ s1 = 0 ∧ s2 = 255 := by
  have h0 := s0.toNat_lt
  have h1 := s1.toNat_lt
  have h2 := s2.toNat_lt
  have h3 := s3.toNat_lt
  have high := wrapSigned_short (show s0.toNat * 256 + s1.toNat < 65536 by omega)
  have low := wrapSigned_short (show s2.toNat * 256 + s3.toNat < 65536 by omega)
  have whole := wrapSigned_emod 32 (wrapSigned 16 (s0.toNat * 256 + s1.toNat) * 65536 +
    wrapSigned 16 (s2.toNat * 256 + s3.toNat))
  push_cast at high low
  have values : s0.toNat = 0 ∧ s1.toNat = 0 ∧ s2.toNat = 255 := by
    unfold declaredEnd sizeField wrapUnsigned at wrapped
    rw [whole] at wrapped
    generalize wrapSigned 16 (s0.toNat * 256 + s1.toNat) = h at high wrapped
    generalize wrapSigned 16 (s2.toNat * 256 + s3.toNat) = l at low wrapped
    norm_num at wrapped
    omega
  exact ⟨UInt8.toNat_inj.mp values.1, UInt8.toNat_inj.mp values.2.1,
    UInt8.toNat_inj.mp values.2.2⟩

theorem exists_head {head : List UInt8} (length : head.length = 7) :
    ∃ t c0 c1 s0 s1 s2 s3, head = [t, c0, c1, s0, s1, s2, s3] := by
  match head, length with
  | [t, c0, c1, s0, s1, s2, s3], _ => exact ⟨t, c0, c1, s0, s1, s2, s3, rfl⟩

/-- A buffer that starts with the chunk, or with a completion of it, and goes on with
zeros. -/
def fill (octets : List UInt8) : List UInt8 :=
  octets ++ List.replicate (maxLine + 1 - octets.length) 0

theorem fill_holds (received : chunk <+: a) (fits : a.length ≤ maxLine) :
    Holds chunk (fill a) := by
  refine ⟨received.trans (List.prefix_append _ _), ?_⟩
  rw [fill, List.length_append, List.length_replicate]
  omega

theorem fill_zero {i : Nat} (behind : a.length ≤ i) (inside : i ≤ maxLine) :
    (fill a)[i]? = some 0 := by
  rw [fill, List.getElem?_append_right behind, List.getElem?_replicate, if_pos (by omega)]

theorem Holds.set (holds : Holds chunk a) {i : Nat} (behind : chunk.length ≤ i) (b : UInt8) :
    Holds chunk (a.set i b) := by
  obtain ⟨stale, rfl⟩ := holds.received
  have length := holds.length
  refine ⟨?_, by rw [List.length_set, length]⟩
  rw [List.set_append_right _ _ behind]
  exact List.prefix_append _ _

/-- The chunk with a completion of its head in place of the head. -/
def complete (chunk head : List UInt8) : List UInt8 := head ++ chunk.drop 7

theorem Completes.received {head : List UInt8} (completes : Completes chunk head) :
    chunk <+: complete chunk head := by
  by_cases long : 7 ≤ chunk.length
  · have whole : chunk.take 7 = head := by
      apply completes.starts.eq_of_length
      rw [completes.length, List.length_take_of_le long]
    rw [complete, ← whole, List.take_append_drop]
  · have starts := completes.starts
    rw [List.take_of_length_le (by omega)] at starts
    exact starts.trans (List.prefix_append _ _)

theorem Completes.length_complete {head : List UInt8} (completes : Completes chunk head) :
    (complete chunk head).length = max 7 chunk.length := by
  rw [complete, List.length_append, completes.length, List.length_drop]
  omega

theorem Completes.frameEnd {head : List UInt8} (completes : Completes chunk head) :
    frameEnd (fill (complete chunk head)) = Amqpgram.frameEnd head := by
  apply frameEnd_head _ completes.length.ge
  exact (List.prefix_append head _).trans (List.prefix_append _ _)

theorem Completes.frameType {head : List UInt8} (completes : Completes chunk head) {t : UInt8}
    (first : chunk.head? = some t) : frameType head = .ofOctet t := by
  cases chunk with
  | nil => cases first
  | cons c rest =>
    obtain rfl := Option.some.inj first
    obtain ⟨more, rfl⟩ := completes.starts
    rfl

theorem ofOctet_none {t : UInt8} (none : FrameType.ofOctet t = .none) : t = 0 := by
  unfold FrameType.ofOctet at none
  split at none
  · rename_i zero
    exact UInt8.toNat_inj.mp zero
  all_goals cases none

/-- With the last octet of the head not received every value of it is a completion. -/
theorem Completes.last {head : List UInt8} (completes : Completes chunk head)
    (short : chunk.length < 7) (b : UInt8) : Completes chunk (head.set 6 b) := by
  refine ⟨by rw [List.length_set, completes.length], ?_⟩
  have starts := completes.starts
  rw [List.take_of_length_le (by omega)] at starts ⊢
  obtain ⟨rest, rfl⟩ := starts
  rw [List.set_append_right _ _ (by omega)]
  exact List.prefix_append _ _

/-- A declared end within the head moves far behind the buffer with the last octet. -/
theorem exists_far {head : List UInt8} (length : head.length = 7) (near : frameEnd head < 7) :
    maxLine < frameEnd (head.set 6 0) := by
  obtain ⟨t, c0, c1, s0, s1, s2, s3, rfl⟩ := exists_head length
  obtain ⟨rfl, rfl, rfl⟩ := sizeField_wrapped near
  change maxLine < declaredEnd (sizeField 0 0 255 0)
  decide +kernel

theorem declaredEnd_last (s0 s1 s2 : UInt8) : ∃ h : Int, ∀ b : UInt8,
    (declaredEnd (sizeField s0 s1 s2 b) : Int) = (7 + h * 256 + b.toNat) % 4294967296 := by
  have h0 := s0.toNat_lt
  have h1 := s1.toNat_lt
  have h2 := s2.toNat_lt
  refine ⟨wrapSigned 16 (s0.toNat * 256 + s1.toNat) * 256 +
    if s2.toNat < 128 then (s2.toNat : Int) else (s2.toNat : Int) - 256, fun b => ?_⟩
  have last := b.toNat_lt
  have low := wrapSigned_short (show s2.toNat * 256 + b.toNat < 65536 by omega)
  have whole := wrapSigned_emod 32 (wrapSigned 16 (s0.toNat * 256 + s1.toNat) * 65536 +
    wrapSigned 16 (s2.toNat * 256 + b.toNat))
  push_cast at low
  unfold declaredEnd sizeField wrapUnsigned
  rw [whole]
  generalize wrapSigned 16 (s0.toNat * 256 + s1.toNat) = h
  generalize wrapSigned 16 (s2.toNat * 256 + b.toNat) = l at low
  norm_num
  split <;> omega

/-- A declared end behind the buffer is next to that of another last octet. -/
theorem exists_neighbour {head : List UInt8} (length : head.length = 7)
    (beyond : maxLine < frameEnd head) :
    ∃ b, maxLine ≤ frameEnd (head.set 6 b) ∧ frameEnd (head.set 6 b) ≠ frameEnd head := by
  obtain ⟨t, c0, c1, s0, s1, s2, s3, rfl⟩ := exists_head length
  have ends : ∀ b, frameEnd [t, c0, c1, s0, s1, s2, b] = declaredEnd (sizeField s0 s1 s2 b) :=
    fun _ => rfl
  obtain ⟨h, place⟩ := declaredEnd_last s0 s1 s2
  have there := place s3
  obtain ⟨b, apart⟩ : ∃ b : UInt8, b.toNat + 1 = s3.toNat ∨ s3.toNat = 0 ∧ b.toNat = 1 := by
    by_cases zero : s3.toNat = 0
    · exact ⟨1, .inr ⟨zero, rfl⟩⟩
    · have last := s3.toNat_lt
      refine ⟨.ofNat (s3.toNat - 1), .inl ?_⟩
      rw [UInt8.toNat_ofNat', Nat.mod_eq_of_lt (by omega)]
      omega
  have next := place b
  rw [← ends] at there next
  have bounds : maxLine ≤ frameEnd [t, c0, c1, s0, s1, s2, b] ∧
      frameEnd [t, c0, c1, s0, s1, s2, b] ≠ frameEnd [t, c0, c1, s0, s1, s2, s3] := by
    unfold maxLine at beyond ⊢
    generalize frameEnd [t, c0, c1, s0, s1, s2, b] = e at next
    generalize frameEnd [t, c0, c1, s0, s1, s2, s3] = e' at there beyond
    omega
  exact ⟨b, bounds⟩

section
variable {head : List UInt8} (fits : chunk.length ≤ maxLine)
variable (other : ∀ a, Holds chunk a → ¬ amqpLiteral <+: a)
variable (completes : Completes chunk head)
include fits completes

theorem Completes.holds : Holds chunk (fill (complete chunk head)) := by
  apply fill_holds completes.received
  rw [completes.length_complete]
  exact max_le (by decide) fits

theorem Completes.zero (behind : Memory) (after : max 7 chunk.length ≤ Amqpgram.frameEnd head)
    (inside : Amqpgram.frameEnd head ≤ maxLine) :
    recvlineMemory (fill (complete chunk head)) behind
      (Amqpgram.frameEnd (fill (complete chunk head))) = some 0 := by
  rw [(completes.holds fits).inside behind (completes.frameEnd.trans_le inside), completes.frameEnd]
  exact fill_zero (by rw [completes.length_complete]; exact after) inside

theorem Completes.beyond (behind : Memory) (beyond : maxLine < Amqpgram.frameEnd head) :
    recvlineMemory (fill (complete chunk head)) behind
      (Amqpgram.frameEnd (fill (complete chunk head))) =
        behind (Amqpgram.frameEnd head - (maxLine + 1)) := by
  rw [(completes.holds fits).outside behind (by rw [completes.frameEnd]; exact beyond),
    completes.frameEnd]

include other

theorem Completes.hit (behind : Memory) (after : max 7 chunk.length ≤ Amqpgram.frameEnd head)
    (inside : Amqpgram.frameEnd head ≤ maxLine) (typed : Amqpgram.frameType head ≠ .none) :
    Amqpgram.attempt (recvlineMemory ((fill (complete chunk head)).set
      (Amqpgram.frameEnd head) 0xCE) behind) ≠ .noFrame := by
  have filled : Holds (complete chunk head) (fill (complete chunk head)) := by
    apply fill_holds (List.prefix_refl _)
    rw [completes.length_complete]
    exact max_le (by decide) fits
  have staled := filled.set (i := Amqpgram.frameEnd head)
    (by rw [completes.length_complete]; exact after) 0xCE
  have holds : Holds chunk _ := ⟨completes.received.trans staled.received, staled.length⟩
  have headed := (List.prefix_append head (chunk.drop 7)).trans staled.received
  have ends := frameEnd_head headed completes.length.ge
  apply (recvlineMemory_shows _ behind).hit (other _ holds) holds.long
  · rw [holds.inside behind (ends.trans_le inside), ends]
    apply List.getElem?_set_self
    rw [filled.length]
    omega
  · rw [frameType_head headed completes.length.ge]
    exact typed

end

/-- A part of the literal before zeros is no header and no frame. -/
theorem part_of_header : ∀ n < 4, 0 < n →
    Amqpgram.attempt (bufferMemory (fill (amqpLiteral.take n))) = .noFrame := by
  decide +kernel

section
variable (depends : DependsOnReceived chunk) (received : 0 < chunk.length)
variable (fits : chunk.length ≤ maxLine)
include depends received fits

theorem DependsOnReceived.header (may : chunk <+: amqpLiteral ∨ amqpLiteral <+: chunk) :
    amqpLiteral <+: chunk ∧ 8 ≤ chunk.length := by
  have zeros := fill_holds (List.prefix_refl chunk) fits
  by_cases header : amqpLiteral <+: chunk
  · refine ⟨header, ?_⟩
    by_contra short
    have stale := zeros.set (Nat.le_refl chunk.length) 1
    have same := depends.attempt received (fun _ => none) zeros stale
    have zerosLong : 8 ≤ (fill chunk).length := by rw [zeros.length]; decide
    have staleLong : 8 ≤ ((fill chunk).set chunk.length 1).length := by rw [stale.length]; decide
    rw [(recvlineMemory_shows _ _).attempt_header (header.trans zeros.received) zerosLong,
      (recvlineMemory_shows _ _).attempt_header (header.trans stale.received) staleLong] at same
    have headers := congrArg PacketStruct.amqpHeader (Attempt.publish.inj same)
    have octet := congrArg (fun octets => octets[chunk.length]?) headers
    simp only [PacketStruct.plain] at octet
    rw [List.getElem?_take_of_lt (by omega), List.getElem?_take_of_lt (by omega),
      fill_zero (Nat.le_refl _) fits, List.getElem?_set_self (by rw [zeros.length]; omega)] at octet
    cases octet
  · have starts := may.resolve_right header
    have whole : Holds chunk (fill amqpLiteral) := by
      refine ⟨starts.trans (List.prefix_append _ _), ?_⟩
      decide +kernel
    have same := depends.attempt received (fun _ => none) whole zeros
    have headed : amqpLiteral <+: fill amqpLiteral := List.prefix_append _ _
    have wholeLong : 8 ≤ (fill amqpLiteral).length := by rw [whole.length]; decide
    rw [(recvlineMemory_shows _ _).attempt_header headed wholeLong, recvlineMemory_none] at same
    have proper : chunk.length < 4 := by
      have le : chunk.length ≤ 4 := starts.length_le
      have ne : chunk.length ≠ 4 := by
        intro equal
        exact header ((starts.eq_of_length equal).symm ▸ List.prefix_refl _)
      omega
    have missed := part_of_header _ proper received
    rw [← List.prefix_iff_eq_take.mp starts] at missed
    rw [missed] at same
    cases same

variable (other : ∀ a, Holds chunk a → ¬ amqpLiteral <+: a)
include other

/-- A stale end octet is found where zeros have none, unless the type is no type. -/
theorem DependsOnReceived.untyped {head : List UInt8} (completes : Completes chunk head)
    (after : max 7 chunk.length ≤ frameEnd head) (inside : frameEnd head ≤ maxLine) :
    chunk.head? = some 0 := by
  obtain ⟨t, first⟩ : ∃ t, chunk.head? = some t := by
    cases chunk with
    | nil => cases received
    | cons t rest => exact ⟨t, rfl⟩
  by_contra typed
  have kept : frameType head ≠ .none := by
    rw [completes.frameType first]
    intro none
    exact typed (ofOctet_none none ▸ first)
  have holds := completes.holds fits
  have missed := (recvlineMemory_shows _ (fun _ => none)).miss (other _ holds) holds.long
    (completes.zero fits (fun _ => none) after inside) (by decide)
  have staled := holds.set (i := frameEnd head) (by omega) 0xCE
  exact completes.hit fits other (fun _ => none) after inside kept
    ((depends.attempt received _ staled holds).trans missed)

/-- Of two declared ends one can be readable and the other not. -/
theorem DependsOnReceived.inside (short : chunk.length < 7) {head : List UInt8}
    (completes : Completes chunk head) : frameEnd head ≤ maxLine := by
  by_contra beyond
  have beyond : maxLine < frameEnd head := Nat.lt_of_not_le beyond
  obtain ⟨b, next, apart⟩ := exists_neighbour completes.length beyond
  have completes' := completes.last short b
  have holds := completes.holds fits
  have holds' := completes'.holds fits
  let behind : Memory := fun i => if i = frameEnd head - (maxLine + 1) then none else some 0
  have crashed := (recvlineMemory_shows _ behind).unread (other _ holds) holds.long
    ((completes.beyond fits behind beyond).trans (if_pos rfl))
  have zero : recvlineMemory (fill (complete chunk (head.set 6 b))) behind
      (frameEnd (fill (complete chunk (head.set 6 b)))) = some 0 := by
    by_cases inside : frameEnd (head.set 6 b) ≤ maxLine
    · refine completes'.zero fits behind ?_ inside
      have seven : 7 ≤ maxLine := by decide
      omega
    · rw [completes'.beyond fits behind (Nat.lt_of_not_le inside)]
      exact if_neg (by omega)
  have missed := (recvlineMemory_shows _ behind).miss (other _ holds') holds'.long zero (by decide)
  rw [depends.attempt received behind holds holds', missed] at crashed
  cases crashed

/-- The memory behind the buffer can end a frame that is stored. -/
theorem DependsOnReceived.unstored (long : 7 ≤ chunk.length) (beyond : maxLine < frameEnd chunk) :
    ¬ Stored chunk := by
  rintro ⟨typed, channel⟩
  have holds := fill_holds (List.prefix_refl chunk) fits
  have shows := recvlineMemory_shows (fill chunk) fun _ => some 0xCE
  have ends := frameEnd_head holds.received long
  have there : recvlineMemory (fill chunk) (fun _ => some 0xCE) (frameEnd (fill chunk)) =
      some 0xCE := holds.outside _ (by rw [ends]; exact beyond)
  have type := frameType_head holds.received long
  obtain ⟨packet, published, _⟩ := shows.stored (other _ holds) holds.long
    (holds.readable fun _ => rfl) there (fun none => typed (type.symm.trans none))
    ((frameChannel_head holds.received long).trans channel)
  have early := depends.published received holds (other _ holds) published
  rw [shows.publish_size (other _ holds) holds.long published] at early
  have place : declaredEnd (frameSize (fill chunk)) = frameEnd chunk := ends
  omega

/-- Arguments that go on through the whole memory take in a stale octet of the buffer. -/
theorem DependsOnReceived.room (long : 7 ≤ chunk.length) (within : frameEnd chunk < chunk.length) :
    ¬ Idless chunk := by
  rintro ⟨hit, method, channel, few⟩
  have zeros := fill_holds (List.prefix_refl chunk) fits
  have stale := zeros.set (i := maxLine) fits 1
  have stored : ∀ a, Holds chunk a → ∃ packet,
      Amqpgram.attempt (recvlineMemory a fun _ => some 0) = .publish packet ∧
      ∃ payload ∈ packet.methodPayload,
        payload.argumentsByteArray[maxLine - 11]? = a[maxLine]? := by
    intro a holds
    have shows := recvlineMemory_shows a fun _ => some 0
    have there : recvlineMemory a (fun _ => some 0) (frameEnd a) = some 0xCE := by
      rw [frameEnd_head holds.received long, holds.front _ within, hit]
    have type := (frameType_head holds.received long).trans method
    obtain ⟨packet, published, arguments⟩ := shows.stored (other _ holds) holds.long
      (holds.readable fun _ => rfl) there (by rw [type]; decide)
      ((frameChannel_head holds.received long).trans channel)
    obtain ⟨payload, member, bytes⟩ := arguments type
    refine ⟨packet, published, payload, member, ?_⟩
    have many : maxLine - 11 < argumentsSize (frameSize a) := by
      rw [frameSize_head holds.received long]
      unfold argumentsSize wrapUnsigned maxLine
      omega
    rw [bytes _ many, holds.inside _ (by decide)]
    rfl
  obtain ⟨packet, published, payload, member, last⟩ := stored _ zeros
  obtain ⟨packet', published', payload', member', last'⟩ := stored _ stale
  have same := depends.attempt received (fun _ => some 0) zeros stale
  rw [published, published'] at same
  obtain rfl := Attempt.publish.inj same
  obtain rfl := Option.mem_unique member member'
  rw [fill_zero fits (Nat.le_refl _)] at last
  rw [List.getElem?_set_self (by rw [zeros.length]; exact Nat.lt_succ_self _)] at last'
  cases last.symm.trans last'

theorem DependsOnReceived.frame :
    chunk.head? = some 0 ∧ (∀ head, Completes chunk head → frameEnd head ≤ maxLine) ∨
      7 ≤ chunk.length ∧ (frameEnd chunk < chunk.length ∧ ¬ Idless chunk ∨
        maxLine < frameEnd chunk ∧ ¬ Stored chunk) := by
  by_cases long : 7 ≤ chunk.length
  · have only : ∀ head, Completes chunk head → chunk.take 7 = head := by
      intro head completes
      apply completes.starts.eq_of_length
      rw [completes.length, List.length_take_of_le long]
    by_cases within : frameEnd chunk < chunk.length
    · exact .inr ⟨long, .inl ⟨within, depends.room received fits other long within⟩⟩
    by_cases inside : frameEnd chunk ≤ maxLine
    · left
      have completes : Completes chunk (chunk.take 7) :=
        ⟨List.length_take_of_le long, List.prefix_refl _⟩
      refine ⟨depends.untyped received fits other completes ?_ ?_, ?_⟩
      · rw [frameEnd_take long]
        omega
      · rw [frameEnd_take long]
        exact inside
      · intro head completes'
        rw [← only head completes', frameEnd_take long]
        exact inside
    · have beyond := Nat.lt_of_not_le inside
      exact .inr ⟨long, .inr ⟨beyond, depends.unstored received fits other long beyond⟩⟩
  · left
    have short := Nat.lt_of_not_le long
    have inside : ∀ head, Completes chunk head → frameEnd head ≤ maxLine :=
      fun _ completes => depends.inside received fits other short completes
    have completes := (fill_holds (List.prefix_refl chunk) fits).completes
    refine ⟨depends.untyped received fits other completes ?_ (inside _ completes), inside⟩
    by_contra near
    have far := exists_far completes.length (by omega)
    exact absurd (inside _ (completes.last short 0)) (Nat.not_le_of_lt far)

end

end

end Amqpgram
