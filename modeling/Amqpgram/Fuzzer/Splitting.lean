import Amqpgram.Fuzzer.Bounds
import Amqpgram.Fuzzer.Codecs

/-! The inner loop of the listener with the arrays of the channels, for any number of
threads created. Every turn takes the same bytes apart, so the first turn settles which
slot is written and whether the loop goes on. -/
namespace Amqpgram

/-- The slots of `channel_packets`, one for each thread created, and the channels whose
condition was signalled. -/
structure Channels where
  slots : List (Option PacketStruct)
  signalled : List Nat

/-- The lock, the store, the unlock and the signal of one packet, all at its channel. -/
def Channels.store (channels : Channels) (packet : PacketStruct) : Except Fault Channels :=
  if packet.channel < channels.slots.length then
    .ok ⟨channels.slots.set packet.channel (some packet), channels.signalled ++ [packet.channel]⟩
  else .error .outOfBounds

/-- The indices into the arrays, the values stored in `parsed_n` and the end of the loop. -/
structure Splitting where
  indexed : List Nat
  parsed : List Int
  channels : Channels
  stop : Stop

def splitChannels (recvline : Memory) (n : Int) : Nat → Int → Channels → Splitting
  | 0, _, channels => ⟨[], [], channels, .running⟩
  | turns + 1, parsedN, channels =>
    if parsedN < n then
      match breakPacket recvline with
      | .error fault => ⟨[], [], channels, .crashed fault⟩
      | .ok readPacket =>
        if readPacket.type = .none then ⟨[], [], channels, .noFrame⟩
        else
          match channels.store readPacket with
          | .error fault => ⟨[readPacket.channel], [], channels, .crashed fault⟩
          | .ok stored =>
            let parsedN := wrapSigned 32 (readPacket.size + 7)
            let rest := splitChannels recvline n turns parsedN stored
            ⟨readPacket.channel :: rest.indexed, parsedN :: rest.parsed, rest.channels, rest.stop⟩
    else ⟨[], [], channels, .parsed parsedN⟩

theorem Channels.store_inside {channels : Channels} {packet : PacketStruct}
    (inside : packet.channel < channels.slots.length) : channels.store packet =
      .ok ⟨channels.slots.set packet.channel (some packet),
        channels.signalled ++ [packet.channel]⟩ := if_pos inside

theorem Channels.store_outside {channels : Channels} {packet : PacketStruct}
    (outside : ¬ packet.channel < channels.slots.length) :
    channels.store packet = .error .outOfBounds := if_neg outside

/-- With one thread created this is the loop of `fuzz`. -/
theorem splitChannels_stop (recvline : Memory) (n parsedN : Int) (turns : Nat) {channels : Channels}
    (one : channels.slots.length = createdThreads) :
    (splitChannels recvline n turns parsedN channels).stop =
      (splitLoop recvline n turns parsedN).stop := by
  induction turns generalizing parsedN channels with
  | zero => rfl
  | succ turns ih =>
    unfold splitChannels splitLoop
    split
    · cases breakPacket recvline with
      | error fault => rfl
      | ok packet =>
        dsimp only
        split
        · rfl
        · by_cases inside : packet.channel < channels.slots.length
          · rw [Channels.store_inside inside, if_pos (one ▸ inside)]
            apply ih
            rw [List.length_set, one]
          · rw [Channels.store_outside inside, if_neg (one ▸ inside)]
    · rfl

/-! ### The frame at the head -/

/-- `break_packet` takes the frame at the head: its end octet stands at the declared end,
its type is not that of no packet, and the arguments of a method can be read. -/
structure Accepted (octets : List UInt8) : Prop where
  hit : octets[frameEnd octets]? = some 0xCE
  typed : frameType octets ≠ .none
  arguments : frameType octets = .method → 11 + argumentsSize (frameSize octets) ≤ octets.length

section
variable {octets : List UInt8} {packet : PacketStruct}

theorem breakMethod_read {size : Nat} (inside : 11 + argumentsSize size ≤ octets.length) :
    ∃ methodData, breakMethod (bufferMemory octets) size = .ok methodData := by
  obtain ⟨classId, first⟩ := charInShort_inside (show 7 + 1 < octets.length by omega)
  obtain ⟨methodId, second⟩ := charInShort_inside (show 9 + 1 < octets.length by omega)
  have arguments := readBytes_inside octets 11 (argumentsSize size) inside
  have read : breakMethod (bufferMemory octets) size = .ok ⟨wrapUnsigned 16 classId,
      wrapUnsigned 16 methodId, (octets.drop 11).take (argumentsSize size),
      wrapSigned 32 (argumentsSize size)⟩ := by
    rw [breakMethod, first, ok_bind, second, ok_bind, arguments, ok_bind]
    rfl
  exact ⟨_, read⟩

theorem Accepted.broken (accepted : Accepted octets) (other : ¬ amqpLiteral <+: octets)
    (long : 7 ≤ octets.length) : ∃ packet, breakPacket (bufferMemory octets) = .ok packet ∧
      packet.type = frameType octets ∧ packet.channel = frameChannel octets ∧
      packet.size = frameSize octets := by
  have broken := breakPacket_checked other long accepted.hit
  rw [if_neg (by decide)] at broken
  by_cases method : frameType octets = .method
  · obtain ⟨methodData, read⟩ := breakMethod_read (accepted.arguments method)
    rw [dif_pos method, read, ok_bind] at broken
    refine ⟨.method (frameChannel octets) (frameSize octets) methodData, broken, ?_, ?_, ?_⟩
    · rw [method]
      rfl
    · rfl
    · exact PacketStruct.method_size ..
  · rw [dif_neg method] at broken
    refine ⟨.plain (frameType octets) method (frameChannel octets) (frameSize octets)
      (List.replicate 8 0), broken, rfl, rfl, ?_⟩
    exact PacketStruct.plain_size ..

theorem accepted_of_broken (other : ¬ amqpLiteral <+: octets) (long : 11 ≤ octets.length)
    (broken : breakPacket (bufferMemory octets) = .ok packet) (typed : packet.type ≠ .none) :
    Accepted octets ∧ packet.channel = frameChannel octets ∧ packet.size = frameSize octets := by
  have accepted : Accepted octets := by
    cases at_end : octets[frameEnd octets]? with
    | none =>
      have beyond := breakPacket_beyond other (by omega) (List.getElem?_eq_none_iff.mp at_end)
      rw [beyond] at broken
      cases broken
    | some last =>
      have checked := breakPacket_checked other (by omega) at_end
      rw [broken] at checked
      split at checked
      · obtain rfl := Except.ok.inj checked
        exact (typed rfl).elim
      · rename_i hit
        obtain rfl : last = 0xCE := not_not.mp hit
        split at checked
        · rename_i method
          refine ⟨at_end, by rw [method]; decide, fun _ => ?_⟩
          by_contra out
          rw [breakMethod_out long (by omega)] at checked
          cases checked
        · rename_i content
          obtain rfl := Except.ok.inj checked
          exact ⟨at_end, typed, fun method => (content method).elim⟩
  obtain ⟨packet', broken', _, channel, size⟩ := accepted.broken other (by omega)
  obtain rfl := Except.ok.inj (broken.symm.trans broken')
  exact ⟨accepted, channel, size⟩

end

/-! ### Turns of the loop -/

/-- The loop comes to an end, and each turn that does not leave it stores more in
`parsed_n` than it found there. -/
structure SplitAdvances (octets : List UInt8) (received : Int) : Prop where
  terminates : ∀ channels, ∃ turns,
    (splitChannels (bufferMemory octets) (recvN received) turns 0 channels).stop ≠ .running
  advances : ∀ channels turns, List.IsChain (· < ·)
    (0 :: (splitChannels (bufferMemory octets) (recvN received) turns 0 channels).parsed)

section
variable {recvline : Memory} {packet : PacketStruct} {channels : Channels} {turns : Nat}
variable {n parsedN : Int}

theorem splitChannels_store (turns : Nat) (entered : parsedN < n)
    (broken : breakPacket recvline = .ok packet) (typed : packet.type ≠ .none)
    (inside : packet.channel < channels.slots.length) :
    ∃ stored : Channels, stored.slots.length = channels.slots.length ∧
      splitChannels recvline n (turns + 1) parsedN channels =
        let rest := splitChannels recvline n turns (wrapSigned 32 (packet.size + 7)) stored
        ⟨packet.channel :: rest.indexed, wrapSigned 32 (packet.size + 7) :: rest.parsed,
          rest.channels, rest.stop⟩ := by
  refine ⟨⟨channels.slots.set packet.channel (some packet),
    channels.signalled ++ [packet.channel]⟩, List.length_set, ?_⟩
  rw [splitChannels, if_pos entered, broken]
  dsimp only
  rw [if_neg typed, Channels.store_inside inside]

/-- A packet that does not bring `parsed_n` forward is taken apart again and again. -/
theorem splitChannels_stuck (broken : breakPacket recvline = .ok packet)
    (typed : packet.type ≠ .none) (inside : packet.channel < channels.slots.length)
    (back : wrapSigned 32 (packet.size + 7) < n) (entered : parsedN < n) :
    (splitChannels recvline n turns parsedN channels).stop = .running := by
  induction turns generalizing parsedN channels with
  | zero => rfl
  | succ turns ih =>
    obtain ⟨stored, length, turn⟩ := splitChannels_store turns entered broken typed inside
    rw [turn]
    exact ih (length ▸ inside) back

theorem splitChannels_done (recvline : Memory) (channels : Channels) (turns : Nat)
    (past : n ≤ parsedN) :
    (splitChannels recvline n turns parsedN channels).parsed = [] ∧
      (splitChannels recvline n (turns + 1) parsedN channels).stop = .parsed parsedN := by
  constructor
  · cases turns with
    | zero => rfl
    | succ turns => rw [splitChannels, if_neg (by omega)]
  · rw [splitChannels, if_neg (by omega)]

/-- When every packet brings `parsed_n` to the received count, the first turn is the last
that takes anything apart. -/
theorem splitChannels_ends (turns : Nat) (entered : parsedN < n) (forward : ∀ packet,
    breakPacket recvline = .ok packet → packet.type ≠ .none →
      n ≤ wrapSigned 32 (packet.size + 7)) :
    List.IsChain (· < ·)
        (parsedN :: (splitChannels recvline n (turns + 1) parsedN channels).parsed) ∧
      (splitChannels recvline n (turns + 2) parsedN channels).stop ≠ .running := by
  cases broken : breakPacket recvline with
  | error fault => simp [splitChannels, entered, broken]
  | ok packet =>
    by_cases typed : packet.type = .none
    · simp [splitChannels, entered, broken, typed]
    by_cases inside : packet.channel < channels.slots.length
    · have ahead := forward packet broken typed
      constructor
      · obtain ⟨stored, _, turn⟩ :=
          splitChannels_store turns entered broken typed inside
        have done := (splitChannels_done recvline stored turns ahead).1
        rw [turn]
        simp only [done, List.isChain_pair]
        omega
      · obtain ⟨stored, _, turn⟩ :=
          splitChannels_store (turns + 1) entered broken typed inside
        rw [turn]
        dsimp only
        rw [(splitChannels_done recvline stored turns ahead).2]
        simp
    · simp [splitChannels, entered, broken, typed, Channels.store_outside inside]

end

section
variable {octets : List UInt8} {received : Int}

theorem advances_iff_packet (some_octets : 0 < received) : SplitAdvances octets received ↔
    ∀ packet, breakPacket (bufferMemory octets) = .ok packet → packet.type ≠ .none →
      1 ≤ wrapSigned 32 (packet.size + 7) := by
  have one : recvN received = 1 := if_pos some_octets
  constructor
  · intro advances packet broken typed
    by_contra back
    obtain ⟨turns, stopped⟩ := advances.terminates ⟨List.replicate (packet.channel + 1) none, []⟩
    apply stopped
    rw [one]
    exact splitChannels_stuck broken typed (by simp) (by omega) (by decide)
  · intro forward
    constructor
    · intro channels
      refine ⟨2, ?_⟩
      rw [one]
      exact (splitChannels_ends 0 (by decide) forward).2
    · intro channels turns
      cases turns with
      | zero => exact List.isChain_singleton _
      | succ turns =>
        rw [one]
        exact (splitChannels_ends turns (by decide) forward).1

theorem wrapSigned_end (size : Nat) :
    1 ≤ wrapSigned 32 (size + 7) ↔ 0 < declaredEnd size ∧ declaredEnd size < 2147483648 := by
  rw [wrapSigned_thirtyTwo, declaredEnd]
  split <;> omega

/-- The buffer and whatever can be read behind it. The loop ends on every content but
an accepted frame whose declared end is the first octet or negative as an `int`. -/
theorem advances_iff (octets : List UInt8) (full : maxLine + 1 ≤ octets.length) (received : Int)
    (some_octets : 0 < received) : SplitAdvances octets received ↔ amqpLiteral <+: octets ∨
      (Accepted octets → 0 < frameEnd octets ∧ frameEnd octets < 2147483648) := by
  have maximum : maxLine = 4096 := rfl
  rw [advances_iff_packet some_octets]
  by_cases header : amqpLiteral <+: octets
  · refine iff_of_true ?_ (.inl header)
    intro packet broken _
    rw [header_broken header (by omega)] at broken
    obtain rfl := Except.ok.inj broken
    rw [PacketStruct.plain_size]
    decide
  · rw [or_iff_right header]
    constructor
    · intro forward accepted
      obtain ⟨packet, broken, typed, _, size⟩ := accepted.broken header (by omega)
      have ahead := forward packet broken (typed ▸ accepted.typed)
      rw [size, wrapSigned_end] at ahead
      exact ahead
    · intro ahead packet broken typed
      obtain ⟨accepted, _, size⟩ := accepted_of_broken header (by omega) broken typed
      rw [size, wrapSigned_end]
      exact ahead accepted

end

theorem advances_iff_heartbeat : SplitAdvances (zeroed [4, 0, 0, 0, 0, 0, 0, 0xCE]) 8 :=
  (advances_iff _ (length_zeroed (by decide)).ge 8 (by decide)).mpr
    (.inr fun _ => by decide +kernel)

/-- The frame end is looked for in the type octet: 7 plus a size of -7. -/
def endlessHeader : List UInt8 := [0xCE, 0, 0, 0, 0, 0xFF, 0xF9]

theorem endlessHeader_broken : breakPacket (bufferMemory (zeroed endlessHeader)) =
    .ok (.plain (.other 0xCE) (by decide) 0 4294967289 (List.replicate 8 0)) := by
  decide +kernel

theorem endless_header_splits_forever :
    (∀ turns, (splitChannels (bufferMemory (zeroed endlessHeader)) (recvN 7) turns 0
      ⟨[none], []⟩).stop = .running) ∧ ¬ SplitAdvances (zeroed endlessHeader) 7 := by
  constructor
  · intro turns
    exact splitChannels_stuck endlessHeader_broken (by decide) (by decide) (by decide) (by decide)
  · intro advances
    have forward := (advances_iff_packet (by decide)).mp advances _ endlessHeader_broken (by decide)
    exact absurd forward (by decide)

/-! ### Indices -/

/-- Every index is that of a slot, and a frame for a channel without one changes nothing. -/
structure IndexesCreated (octets : List UInt8) (received : Int) (channels : Channels) : Prop where
  indexed : ∀ turns, ∀ i ∈ (splitChannels (bufferMemory octets) (recvN received) turns 0
    channels).indexed, i < channels.slots.length
  others : ∀ packet, breakPacket (bufferMemory octets) = .ok packet →
    channels.slots.length ≤ packet.channel → ∀ turns,
      (splitChannels (bufferMemory octets) (recvN received) turns 0 channels).channels = channels ∧
      (splitChannels (bufferMemory octets) (recvN received) turns 0 channels).stop ≠
        .crashed .outOfBounds

/-- A protocol header, which counts as channel 0, or an accepted frame names a channel
that has been created. -/
def NamesCreated (created : Nat) (octets : List UInt8) : Prop :=
  (amqpLiteral <+: octets → 0 < created) ∧
  (¬ amqpLiteral <+: octets → Accepted octets → frameChannel octets < created)

section
variable {recvline : Memory} {octets : List UInt8} {received : Int} {channels : Channels}

theorem splitChannels_indexed {n parsedN : Int} {turns i : Nat}
    (member : i ∈ (splitChannels recvline n turns parsedN channels).indexed) :
    ∃ packet, breakPacket recvline = .ok packet ∧ packet.type ≠ .none ∧ i = packet.channel := by
  induction turns generalizing parsedN channels with
  | zero => cases member
  | succ turns ih =>
    unfold splitChannels at member
    split at member
    · split at member
      · cases member
      · rename_i packet broken
        split at member
        · cases member
        · rename_i typed
          split at member
          · exact ⟨packet, broken, typed, List.mem_singleton.mp member⟩
          · rcases List.mem_cons.mp member with here | later
            · exact ⟨packet, broken, typed, here⟩
            · exact ih later
    · cases member

theorem splitChannels_index {n parsedN : Int} {packet : PacketStruct} (entered : parsedN < n)
    (broken : breakPacket recvline = .ok packet) (typed : packet.type ≠ .none) :
    packet.channel ∈ (splitChannels recvline n 1 parsedN channels).indexed := by
  by_cases inside : packet.channel < channels.slots.length
  · obtain ⟨stored, _, turn⟩ := splitChannels_store 0 entered broken typed inside
    rw [turn]
    exact List.mem_cons_self ..
  · simp [splitChannels, entered, broken, typed, Channels.store_outside inside]

theorem indexesCreated_iff_packet (some_octets : 0 < received) :
    IndexesCreated octets received channels ↔
      ∀ packet, breakPacket (bufferMemory octets) = .ok packet → packet.type ≠ .none →
        packet.channel < channels.slots.length := by
  have one : recvN received = 1 := if_pos some_octets
  constructor
  · intro indexes packet broken typed
    apply indexes.indexed 1
    rw [one]
    exact splitChannels_index (by decide) broken typed
  · intro named
    constructor
    · intro turns i member
      obtain ⟨packet, broken, typed, rfl⟩ := splitChannels_indexed member
      exact named packet broken typed
    · intro packet broken other turns
      have untyped : packet.type = .none := by
        by_contra typed
        have inside := named packet broken typed
        omega
      cases turns with
      | zero => exact ⟨rfl, nofun⟩
      | succ turns =>
        have left : splitChannels (bufferMemory octets) (recvN received) (turns + 1) 0 channels =
            ⟨[], [], channels, .noFrame⟩ := by
          simp [splitChannels, one, broken, untyped]
        rw [left]
        exact ⟨rfl, nofun⟩

/-- For any number of channels created, the indices are in bounds exactly when the frame
at the head names one of them. -/
theorem indexesCreated_iff (octets : List UInt8) (full : maxLine + 1 ≤ octets.length)
    (received : Int) (some_octets : 0 < received) (channels : Channels) :
    IndexesCreated octets received channels ↔ NamesCreated channels.slots.length octets := by
  have maximum : maxLine = 4096 := rfl
  rw [indexesCreated_iff_packet some_octets]
  unfold NamesCreated
  by_cases header : amqpLiteral <+: octets
  · have broken := header_broken header (by omega)
    rw [broken]
    constructor
    · intro named
      exact ⟨fun _ => named _ rfl nofun, fun other => (other header).elim⟩
    · rintro ⟨created, _⟩ packet same _
      obtain rfl := Except.ok.inj same
      exact created header
  · constructor
    · intro named
      refine ⟨fun start => (header start).elim, ?_⟩
      intro _ accepted
      obtain ⟨packet, broken, typed, channel, _⟩ := accepted.broken header (by omega)
      rw [← channel]
      exact named packet broken (typed ▸ accepted.typed)
    · rintro ⟨_, named⟩ packet broken typed
      obtain ⟨accepted, channel, _⟩ := accepted_of_broken header (by omega) broken typed
      rw [channel]
      exact named header accepted

end

theorem indexesCreated_iff_heartbeat :
    IndexesCreated (zeroed [4, 0, 0, 0, 0, 0, 0, 0xCE]) 8 ⟨[none], []⟩ :=
  (indexesCreated_iff _ (length_zeroed (by decide)).ge 8 (by decide) _).mpr
    ⟨fun _ => by decide, fun _ _ => by decide +kernel⟩

/-- A heartbeat for channel 1 where only channel 0 has been created. -/
theorem second_channel_indexed : 1 ∈ (splitChannels
      (bufferMemory (zeroed [4, 0, 1, 0, 0, 0, 0, 0xCE])) (recvN 8) 1 0 ⟨[none], []⟩).indexed ∧
    ¬ IndexesCreated (zeroed [4, 0, 1, 0, 0, 0, 0, 0xCE]) 8 ⟨[none], []⟩ := by
  have broken : breakPacket (bufferMemory (zeroed [4, 0, 1, 0, 0, 0, 0, 0xCE])) =
      .ok (.plain .heartbeat (by decide) 1 0 (List.replicate 8 0)) := by
    decide +kernel
  have indexed : 1 ∈ (splitChannels (bufferMemory (zeroed [4, 0, 1, 0, 0, 0, 0, 0xCE]))
      (recvN 8) 1 0 ⟨[none], []⟩).indexed :=
    splitChannels_index (by decide) broken (by decide)
  refine ⟨indexed, ?_⟩
  intro indexes
  exact absurd (indexes.indexed 1 1 indexed) (by decide)

end Amqpgram
