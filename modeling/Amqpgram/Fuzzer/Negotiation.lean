import Amqpgram.Fuzzer.Bounds
import Amqpgram.Fuzzer.Codecs
import Amqpgram.Fuzzer.Messages

/-! What `connection_tune_ok` makes of the limits a Tune offers. It reads them through
the signed readers, adds one and takes remainders, so it is the value -1, which the
offer 65535 reads as in either field, that stops it. -/
namespace Amqpgram

/-- The two offers at the head of the arguments, read as unsigned. -/
def offeredChannelMax (arguments : List UInt8) : Nat := Words.value (arguments.take 2)

def offeredFrameMax (arguments : List UInt8) : Nat := Words.value ((arguments.drop 2).take 4)

/-! ### Reading the offers -/

section
variable {methodData : MethodStruct} {heap : Memory}

theorem argumentsMemory_bare (methodData : MethodStruct) :
    argumentsMemory methodData (fun _ => none) =
      bufferMemory methodData.argumentsByteArray := by
  funext i
  unfold argumentsMemory bufferMemory
  split
  · rfl
  · rename_i out
    exact (List.getElem?_eq_none (by omega)).symm

theorem argumentsMemory_inside {i : Nat} (inside : i < methodData.argumentsByteArray.length) :
    argumentsMemory methodData heap i = bufferMemory methodData.argumentsByteArray i :=
  if_pos inside

theorem read_channelMax (long : 6 ≤ methodData.argumentsByteArray.length) :
    charInShort (argumentsMemory methodData heap) 0 =
      .ok (wrapSigned 16 (offeredChannelMax methodData.argumentsByteArray)) := by
  have same : charInShort (argumentsMemory methodData heap) 0 =
      charInShort (bufferMemory methodData.argumentsByteArray) 0 :=
    charInShort_congr (argumentsMemory_inside (by omega)) (argumentsMemory_inside (by omega))
  have window := charInShort_window [] (methodData.argumentsByteArray.drop 2)
    (List.length_take_of_le (by omega : 2 ≤ methodData.argumentsByteArray.length))
  rw [List.nil_append, List.take_append_drop] at window
  rw [same]
  exact window

theorem read_frameMax (long : 6 ≤ methodData.argumentsByteArray.length) :
    charInInt (argumentsMemory methodData heap) 2 =
      .ok (intField (offeredFrameMax methodData.argumentsByteArray)) := by
  have high : charInShort (argumentsMemory methodData heap) 2 =
      charInShort (bufferMemory methodData.argumentsByteArray) 2 :=
    charInShort_congr (argumentsMemory_inside (by omega)) (argumentsMemory_inside (by omega))
  have low : charInShort (argumentsMemory methodData heap) (2 + 2) =
      charInShort (bufferMemory methodData.argumentsByteArray) (2 + 2) :=
    charInShort_congr (argumentsMemory_inside (by omega)) (argumentsMemory_inside (by omega))
  have four : ((methodData.argumentsByteArray.drop 2).take 4).length = 4 := by
    rw [List.length_take, List.length_drop]
    omega
  have window := charInInt_window (methodData.argumentsByteArray.take 2)
    ((methodData.argumentsByteArray.drop 2).drop 4) four
  rw [List.append_assoc, List.take_append_drop, List.take_append_drop,
    List.length_take_of_le (by omega)] at window
  rw [charInInt] at window
  rw [charInInt, high, low]
  exact window

theorem tuneParameters_eq (long : 6 ≤ methodData.argumentsByteArray.length) (fuel : Nat) :
    tuneParameters fuel heap (some methodData) = (do
      let channelMax ← randMod
        (wrapSigned 16 (offeredChannelMax methodData.argumentsByteArray) + 1)
      let frameMax ←
        frameMaxLoop (intField (offeredFrameMax methodData.argumentsByteArray)) fuel (-1)
      pure (channelMax, frameMax)) := by
  rw [tuneParameters, read_channelMax long, read_frameMax long]
  rfl

end

/-! ### Which offers can be drawn from -/

theorem offeredChannelMax_lt (arguments : List UInt8) : offeredChannelMax arguments < 65536 :=
  calc offeredChannelMax arguments < 256 ^ (arguments.take 2).length := Words.value_lt _
    _ ≤ 256 ^ 2 := Nat.pow_le_pow_right (by decide) (List.length_take_le 2 arguments)
    _ = 65536 := by decide

theorem offeredFrameMax_lt (arguments : List UInt8) : offeredFrameMax arguments < 4294967296 :=
  calc offeredFrameMax arguments < 256 ^ ((arguments.drop 2).take 4).length := Words.value_lt _
    _ ≤ 256 ^ 4 := Nat.pow_le_pow_right (by decide) (List.length_take_le 4 _)
    _ = 4294967296 := by decide

/-- In a 16-bit field only 65535 is read as -1. -/
theorem shortField_stops {u : Nat} (word : u < 65536) : wrapSigned 16 u + 1 = 0 ↔ u = 65535 := by
  rw [wrapSigned_sixteen]
  split <;> omega

/-- In a 32-bit field it is 65535 too, whose high half is no more than a borrow. -/
theorem intField_stops {u : Nat} (word : u < 4294967296) : intField u + 1 = 0 ↔ u = 65535 := by
  have field := intField_mod u
  have range := intField_range u
  generalize intField u = v at field range ⊢
  split at field <;> omega

/-- The divisor of the draws of a frame-max is 0 for 65535 alone. -/
theorem frameDivisor_stops {u : Nat} (word : u < 4294967296) :
    wrapSigned 32 (intField u + 1) = 0 ↔ u = 65535 := by
  have stops := intField_stops word
  have range := intField_range u
  rw [wrapSigned_thirtyTwo]
  split <;> omega

theorem frameDivisor_small (u : Nat) : (wrapSigned 32 (intField u + 1)).natAbs ≤ 2147483648 := by
  rw [wrapSigned_thirtyTwo]
  split <;> omega

theorem frameMaxLoop_error {receivedFrameMax frameMax : Int} {fuel : Nat} {draws : RandStream}
    {fault : Fault} (nonzero : wrapSigned 32 (receivedFrameMax + 1) ≠ 0)
    (stopped : (frameMaxLoop receivedFrameMax fuel frameMax).run draws = .error fault) :
    fault = .outOfFuel := by
  induction fuel generalizing frameMax draws with
  | zero => exact (Except.error.inj stopped).symm
  | succ fuel ih =>
    rw [frameMaxLoop] at stopped
    split at stopped
    · rcases Sampler.run_bind_error stopped with drawing | ⟨x, rest, _, later⟩
      · rw [run_randMod nonzero] at drawing
        cases drawing
      · exact ih later
    · cases stopped

/-- Up to its draws `connection_tune_ok` reads argument bytes only and takes no
remainder by zero. -/
structure DrawsSafely (methodData : MethodStruct) : Prop where
  reads : ∀ fuel draws,
    (tuneParameters fuel (fun _ => none) (some methodData)).run draws ≠ .error .outOfBounds
  divides : ∀ fuel heap draws,
    (tuneParameters fuel heap (some methodData)).run draws ≠ .error .divisionByZero

/-- Both limits are there and neither is 65535. -/
structure OffersUsable (arguments : List UInt8) : Prop where
  present : 6 ≤ arguments.length
  channelMax : offeredChannelMax arguments ≠ 65535
  frameMax : offeredFrameMax arguments ≠ 65535

section
variable {methodData : MethodStruct}

theorem OffersUsable.faults (usable : OffersUsable methodData.argumentsByteArray) {fuel : Nat}
    {heap : Memory} {draws : RandStream} {fault : Fault}
    (stopped : (tuneParameters fuel heap (some methodData)).run draws = .error fault) :
    fault = .outOfFuel := by
  have channel : wrapSigned 16 (offeredChannelMax methodData.argumentsByteArray) + 1 ≠ 0 := by
    rw [ne_eq, shortField_stops (offeredChannelMax_lt _)]
    exact usable.channelMax
  have frame :
      wrapSigned 32 (intField (offeredFrameMax methodData.argumentsByteArray) + 1) ≠ 0 := by
    rw [ne_eq, frameDivisor_stops (offeredFrameMax_lt _)]
    exact usable.frameMax
  rw [tuneParameters_eq usable.present] at stopped
  rcases Sampler.run_bind_error stopped with drawing | ⟨channelMax, rest, _, stopped⟩
  · rw [run_randMod channel] at drawing
    cases drawing
  rcases Sampler.run_bind_error stopped with looping | ⟨frameMax, rest, _, returned⟩
  · exact frameMaxLoop_error frame looping
  · cases returned

theorem DrawsSafely.of_usable (usable : OffersUsable methodData.argumentsByteArray) :
    DrawsSafely methodData := by
  constructor
  · intro fuel draws stopped
    cases usable.faults stopped
  · intro fuel heap draws stopped
    cases usable.faults stopped

theorem tuneParameters_short (short : methodData.argumentsByteArray.length < 6) (fuel : Nat)
    (draws : RandStream) : (tuneParameters fuel (fun _ => none) (some methodData)).run draws =
      .error .outOfBounds := by
  rw [tuneParameters, argumentsMemory_bare]
  rw [charInInt_outside (by omega)]
  by_cases two : methodData.argumentsByteArray.length < 2
  · rw [charInShort_outside (by omega)]
    rfl
  · obtain ⟨channelMax, read⟩ := charInShort_inside
      (show 0 + 1 < methodData.argumentsByteArray.length by omega)
    rw [read]
    rfl

theorem OffersUsable.of_drawsSafely (safe : DrawsSafely methodData) :
    OffersUsable methodData.argumentsByteArray := by
  have present : 6 ≤ methodData.argumentsByteArray.length := by
    by_contra short
    exact safe.reads 0 (Stream'.const 0) (tuneParameters_short (by omega) 0 _)
  have channelMax : offeredChannelMax methodData.argumentsByteArray ≠ 65535 := by
    intro stops
    apply safe.divides 1 (fun _ => none) (Stream'.const 0)
    rw [tuneParameters_eq present, (shortField_stops (offeredChannelMax_lt _)).mpr stops]
    rfl
  refine ⟨present, channelMax, ?_⟩
  intro stops
  have nonzero : wrapSigned 16 (offeredChannelMax methodData.argumentsByteArray) + 1 ≠ 0 := by
    rw [ne_eq, shortField_stops (offeredChannelMax_lt _)]
    exact channelMax
  apply safe.divides 1 (fun _ => none) (Stream'.const 0)
  have minusOne : intField (offeredFrameMax methodData.argumentsByteArray) = -1 := by
    have stop := (intField_stops (offeredFrameMax_lt _)).mpr stops
    omega
  rw [tuneParameters_eq present, Sampler.run_bind, run_randMod nonzero, minusOne]
  rfl

/-- The draws are safe exactly when both limits are there and neither is 65535. -/
theorem drawsSafely_iff (methodData : MethodStruct) :
    DrawsSafely methodData ↔ OffersUsable methodData.argumentsByteArray :=
  ⟨OffersUsable.of_drawsSafely, DrawsSafely.of_usable⟩

end

/-- A Tune with channel-max 65535, the largest the protocol has, and frame-max 131072. -/
theorem largest_channelMax_divides : ¬ DrawsSafely
    ⟨10, 30, [0xFF, 0xFF, 0, 2, 0, 0, 0, 60], 8⟩ := by
  intro safe
  exact (OffersUsable.of_drawsSafely safe).channelMax (by decide)

/-! ### What the answer encodes -/

/-- The two limits in a Tune-Ok frame, read as unsigned. -/
def encodedChannelMax (packet : Decoded) : Nat := Words.value ((packet.bytes.drop 11).take 2)

def encodedFrameMax (packet : Decoded) : Nat := Words.value ((packet.bytes.drop 13).take 4)

theorem encodedChannelMax_tunePacket (channelMax frameMax : Int) (heartbeat : List UInt8) :
    encodedChannelMax (tunePacket channelMax frameMax heartbeat) = wrapUnsigned 16 channelMax := by
  have field : ((tunePacket channelMax frameMax heartbeat).bytes.drop 11).take 2 =
      Words.bytes 2 (wrapUnsigned 16 channelMax) := rfl
  rw [encodedChannelMax, field, Words.value_bytes_of_lt (wrapUnsigned_lt 16 channelMax)]

theorem encodedFrameMax_tunePacket (channelMax frameMax : Int) (heartbeat : List UInt8) :
    encodedFrameMax (tunePacket channelMax frameMax heartbeat) = wrapUnsigned 32 frameMax := by
  have field : ((tunePacket channelMax frameMax heartbeat).bytes.drop 13).take 4 =
      Words.bytes 4 (wrapUnsigned 32 frameMax) := rfl
  rw [encodedFrameMax, field, Words.value_bytes_of_lt (wrapUnsigned_lt 32 frameMax)]

/-- A limit is within the offer, where 0 offers no limit; a frame has room for 4096
octets or, at 0, for any number. -/
structure Respects (channelMax frameMax : Nat) (packet : Decoded) : Prop where
  channel : channelMax ≠ 0 → encodedChannelMax packet ≤ channelMax
  frame : encodedFrameMax packet = 0 ∨ 4096 ≤ encodedFrameMax packet ∧
    (frameMax ≠ 0 → encodedFrameMax packet ≤ frameMax)

/-- Every answer that `connection_tune_ok` returns at RULE_CHAOS = 0. -/
def Negotiates (methodData : MethodStruct) : Prop :=
  ∀ fuel heap draws rest reply,
    (connectionTuneOk (shipped fuel) heap (some methodData)).run draws = .ok (reply, rest) →
    ∃ packet ∈ reply.sentPacket, Respects (offeredChannelMax methodData.argumentsByteArray)
      (offeredFrameMax methodData.argumentsByteArray) packet

/-- No remainder can be 4095: there is no answer, or the only frame-max drawn is 0. -/
def NoShortFrame (arguments : List UInt8) : Prop :=
  offeredChannelMax arguments = 65535 ∨ offeredFrameMax arguments = 0 ∨
    (61440 ≤ offeredFrameMax arguments ∧ offeredFrameMax arguments ≤ 65535)

theorem frameMaxLoop_yields {receivedFrameMax frameMax drawn : Int} {fuel : Nat}
    (y : (frameMaxLoop receivedFrameMax fuel frameMax).Yields drawn) :
    (drawn = 0 ∨ 4095 ≤ drawn) ∧ (drawn = frameMax ∨
      0 ≤ drawn ∧ drawn < (wrapSigned 32 (receivedFrameMax + 1)).natAbs) := by
  induction fuel generalizing frameMax with
  | zero => exact y.elim
  | succ fuel ih =>
    rw [frameMaxLoop] at y
    split at y
    · obtain ⟨next, remainder, y⟩ := (Sampler.yields_bind ..).mp y
      have nonzero := (yields_randMod.mp remainder).1
      have small : (wrapSigned 32 (receivedFrameMax + 1)).natAbs ≤ 2147483648 := by
        rw [wrapSigned_thirtyTwo]
        split <;> omega
      have range := (yields_randMod_abs nonzero small).mp remainder
      obtain ⟨kept, rfl | later⟩ := ih y
      · exact ⟨kept, .inr range⟩
      · exact ⟨kept, .inr later⟩
    · rename_i left
      obtain rfl : frameMax = drawn := y
      exact ⟨by omega, .inl rfl⟩

section
variable {methodData : MethodStruct} {heap : Memory} {fuel : Nat}

theorem tuneParameters_yields (long : 6 ≤ methodData.argumentsByteArray.length)
    {channelMax frameMax : Int}
    (y : (tuneParameters fuel heap (some methodData)).Yields (channelMax, frameMax)) :
    (0 ≤ channelMax ∧ channelMax <
      (wrapSigned 16 (offeredChannelMax methodData.argumentsByteArray) + 1).natAbs) ∧
    (frameMax = 0 ∨ 4095 ≤ frameMax) ∧ frameMax <
      (wrapSigned 32 (intField (offeredFrameMax methodData.argumentsByteArray) + 1)).natAbs := by
  rw [tuneParameters_eq long] at y
  obtain ⟨first, remainder, y⟩ := (Sampler.yields_bind ..).mp y
  obtain ⟨second, looped, y⟩ := (Sampler.yields_bind ..).mp y
  obtain ⟨rfl, rfl⟩ := Prod.mk.inj y
  have nonzero := (yields_randMod.mp remainder).1
  have field := wrapSigned_sixteen (offeredChannelMax methodData.argumentsByteArray)
  have small : (wrapSigned 16 (offeredChannelMax methodData.argumentsByteArray) + 1).natAbs ≤
      2147483648 := by
    split at field <;> omega
  obtain ⟨kept, rest⟩ := frameMaxLoop_yields looped
  refine ⟨(yields_randMod_abs nonzero small).mp remainder, kept, ?_⟩
  rcases rest with entered | ⟨_, below⟩
  · omega
  · exact below

theorem wrapUnsigned_natCast {n : Nat} {x : Int} (lower : 0 ≤ x) (upper : x < 2 ^ n) :
    wrapUnsigned n x = x.toNat := by
  rw [wrapUnsigned, Int.emod_eq_of_lt lower upper]

theorem channelMax_within {offer : Nat} {channelMax : Int} (word : offer < 65536)
    (lower : 0 ≤ channelMax) (upper : channelMax < (wrapSigned 16 offer + 1).natAbs) :
    offer ≠ 65535 ∧ wrapUnsigned 16 channelMax ≤ offer := by
  have field := wrapSigned_sixteen offer
  generalize wrapSigned 16 offer = limit at field upper
  have small : channelMax < 65536 := by split at field <;> omega
  rw [wrapUnsigned_natCast lower small]
  split at field <;> omega

theorem frameMax_room {offer : Nat} (word : offer < 4294967296)
    (offered : offer = 0 ∨ 4096 ≤ offer) : offer = 0 ∨ (61440 ≤ offer ∧ offer ≤ 65535) ↔
      (wrapSigned 32 (intField offer + 1)).natAbs ≤ 4095 := by
  have field := intField_mod offer
  have range := intField_range offer
  generalize intField offer = limit at field range
  rw [wrapSigned_thirtyTwo]
  split at field <;> split <;> omega

/-- Where no short frame can be drawn the only frame-max left is 0. -/
theorem drawn_respects (long : 6 ≤ methodData.argumentsByteArray.length)
    (offered : offeredFrameMax methodData.argumentsByteArray = 0 ∨
      4096 ≤ offeredFrameMax methodData.argumentsByteArray)
    (no_short : NoShortFrame methodData.argumentsByteArray) {channelMax frameMax : Int}
    {heartbeat : List UInt8}
    (y : (tuneParameters fuel heap (some methodData)).Yields (channelMax, frameMax)) :
    Respects (offeredChannelMax methodData.argumentsByteArray)
      (offeredFrameMax methodData.argumentsByteArray)
      (tunePacket channelMax frameMax heartbeat) := by
  obtain ⟨⟨lower, upper⟩, kept, below⟩ := tuneParameters_yields long y
  obtain ⟨open_, within⟩ := channelMax_within (offeredChannelMax_lt _) lower upper
  have zero : frameMax = 0 := by
    rcases no_short with closed | room
    · exact (open_ closed).elim
    · have small := (frameMax_room (offeredFrameMax_lt _) offered).mp room
      omega
  constructor
  · intro _
    rw [encodedChannelMax_tunePacket]
    exact within
  · left
    rw [encodedFrameMax_tunePacket, zero]
    rfl

/-! ### A frame-max of 4095 -/

theorem tuneParameters_short_frame (long : 6 ≤ methodData.argumentsByteArray.length)
    (offered : offeredFrameMax methodData.argumentsByteArray = 0 ∨
      4096 ≤ offeredFrameMax methodData.argumentsByteArray)
    (room : ¬ NoShortFrame methodData.argumentsByteArray) :
    (tuneParameters (fuel + 2) heap (some methodData)).Yields (0, 4095) := by
  obtain ⟨open_, large⟩ := not_or.mp room
  rw [frameMax_room (offeredFrameMax_lt _) offered] at large
  have channel : wrapSigned 16 (offeredChannelMax methodData.argumentsByteArray) + 1 ≠ 0 := by
    rw [ne_eq, shortField_stops (offeredChannelMax_lt _)]
    exact open_
  have divisor := frameDivisor_small (offeredFrameMax methodData.argumentsByteArray)
  have drawn : (randMod
      (wrapSigned 32 (intField (offeredFrameMax methodData.argumentsByteArray) + 1))).Yields 4095 :=
    (yields_randMod_abs (by omega) divisor).mpr (by omega)
  have first :
      (randMod (wrapSigned 16 (offeredChannelMax methodData.argumentsByteArray) + 1)).Yields 0 :=
    yields_randMod.mpr ⟨channel, 0, by simp⟩
  rw [tuneParameters_eq long, Sampler.yields_bind]
  refine ⟨0, first, ?_⟩
  rw [Sampler.yields_bind]
  refine ⟨4095, ?_, rfl⟩
  rw [frameMaxLoop, if_pos (by decide)]
  refine (Sampler.yields_bind ..).mpr ⟨4095, drawn, ?_⟩
  rw [frameMaxLoop, if_neg (by decide)]
  rfl

end

theorem short_frame_decoded :
    ((shipped 20).decodeMethod (tuneGrammar [0, 0] [0, 0, 0x0F, 0xFF])).Yields
      (tunePacket 0 4095 [0, 0]) := by
  obtain ⟨rest, returns⟩ := Sampler.run_of_map_fst (show (((shipped 20).decodeMethod
    (tuneGrammar [0, 0] [0, 0, 0x0F, 0xFF])).run (Stream'.const 0)).map Prod.fst =
      .ok (tunePacket 0 4095 [0, 0]) by decide +kernel)
  exact Sampler.yields_of_run returns

theorem not_respects_short_frame (channelMax frameMax : Nat) (heartbeat : List UInt8) :
    ¬ Respects channelMax frameMax (tunePacket 0 4095 heartbeat) := by
  intro respects
  have encoded : encodedFrameMax (tunePacket 0 4095 heartbeat) = 4095 := by
    rw [encodedFrameMax_tunePacket]
    rfl
  rcases respects.frame with zero | ⟨least, _⟩ <;> omega

section
variable {methodData : MethodStruct}

theorem NoShortFrame.of_negotiates (long : 6 ≤ methodData.argumentsByteArray.length)
    (offered : offeredFrameMax methodData.argumentsByteArray = 0 ∨
      4096 ≤ offeredFrameMax methodData.argumentsByteArray)
    (negotiates : Negotiates methodData) : NoShortFrame methodData.argumentsByteArray := by
  by_contra room
  have drawn : (tuneParameters 20 (fun _ => none) (some methodData)).Yields (0, 4095) :=
    tuneParameters_short_frame long offered room
  have returned : (connectionTuneOk (shipped 20) (fun _ => none) (some methodData)).Yields
      ⟨some (tunePacket 0 4095 [0, 0]), .connectionTuned, false⟩ := by
    refine (Sampler.yields_bind ..).mpr ⟨(0, 4095), drawn, ?_⟩
    exact (Sampler.yields_bind ..).mpr ⟨_, short_frame_decoded, rfl⟩
  obtain ⟨draws, run⟩ := Sampler.run_of_yields returned (Stream'.const 0)
  obtain ⟨packet, sent, respects⟩ := negotiates _ _ _ _ _ run
  obtain rfl := Option.some.inj sent
  exact not_respects_short_frame _ _ _ respects

/-- The answers respect the offers exactly where no frame-max of 4095 can be drawn. -/
theorem negotiates_iff (methodData : MethodStruct)
    (long : 6 ≤ methodData.argumentsByteArray.length)
    (offered : offeredFrameMax methodData.argumentsByteArray = 0 ∨
      4096 ≤ offeredFrameMax methodData.argumentsByteArray) :
    Negotiates methodData ↔ NoShortFrame methodData.argumentsByteArray := by
  constructor
  · exact NoShortFrame.of_negotiates long offered
  · intro no_short fuel heap draws rest reply run
    obtain ⟨channelMax, frameMax, heartbeat, _, drawn, rfl⟩ :=
      tuneOk_drawn (Sampler.yields_of_run run)
    exact ⟨_, rfl, drawn_respects long offered no_short drawn⟩

theorem negotiates_iff_unlimited : Negotiates ⟨10, 30, [0, 0, 0, 0, 0, 0, 0, 60], 8⟩ :=
  (negotiates_iff ⟨10, 30, [0, 0, 0, 0, 0, 0, 0, 60], 8⟩ (by decide) (.inl (by decide))).mpr
    (.inr (.inl (by decide)))

end

/-- A Tune with channel-max 2047 and frame-max 131072 can be answered with frame-max 4095. -/
theorem short_frame_answered : ¬ Negotiates ⟨10, 30, [7, 0xFF, 0, 2, 0, 0, 0, 60], 8⟩ := by
  intro negotiates
  have no_short := NoShortFrame.of_negotiates (by decide) (.inr (by decide)) negotiates
  revert no_short
  unfold NoShortFrame
  decide

end Amqpgram
