import Amqpgram.Fuzzer.Codecs
import Amqpgram.Fuzzer.Packet

/-! Packet.c: the two encoders of a method frame, with the buffers they allocate and
the memory they copy from. -/
namespace Amqpgram

/-- `malloc`; the octets are what the memory held before. -/
def malloc (held : Nat → UInt8) (size : Int) : List UInt8 := (List.range size.toNat).map held

def storeByte (dst : List UInt8) (index : Nat) (b : UInt8) : Except Fault (List UInt8) :=
  if index < dst.length then .ok (dst.set index b) else .error .outOfBounds

/-- `memcpy(dst + index, src, n)`, which reads and writes all of the `n` octets. -/
def memcpy (dst : List UInt8) (index : Nat) (src : Memory) (n : Int) :
    Except Fault (List UInt8) := do
  let copied ← readBytes src 0 n.toNat
  if index + n.toNat ≤ dst.length then .ok (memcpyAt dst index copied) else .error .outOfBounds

def amqpFrame (held : Nat → UInt8) (type : UInt8) (channel size : Int) (payload : Memory) :
    Except Fault (List UInt8) := do
  let totalSize ← cint (size + 4 + 4)
  let packet ← storeByte (malloc held totalSize) 0 type
  let packet := shortInChar packet channel 1 totalSize.toNat
  let packet := intInChar packet size 3 totalSize.toNat
  let packet ← memcpy packet 7 payload size
  storeByte packet (totalSize - 1).toNat 0xCE

/-- The pointer to the arguments may be NULL. -/
def amqpMethodFrame (held held' : Nat → UInt8) (channel size classId methodId : Int)
    (payload : Option Memory) : Except Fault (List UInt8) := do
  let fullSize ← cint (size + 4)
  let fullPayload := malloc held fullSize
  let fullPayload := shortInChar fullPayload classId 0 fullSize.toNat
  let fullPayload := shortInChar fullPayload methodId 2 fullSize.toNat
  let fullPayload ← match payload with
    | some payload => memcpy fullPayload 4 payload fullSize
    | none => .ok fullPayload
  amqpFrame held' 1 channel fullSize (bufferMemory fullPayload)

theorem length_malloc (held : Nat → UInt8) (size : Int) :
    (malloc held size).length = size.toNat := by simp [malloc]

/-! ### Writing one field behind the other -/

section Writing
variable (written rest : List UInt8) {n : Nat}

theorem inChar_next (width : Nat) (src : Int) (total : n = written.length + rest.length)
    (fits : width ≤ rest.length) :
    inChar width (written ++ rest) src written.length n =
      written ++ Words.bytes width (wrapUnsigned (8 * width) src) ++ rest.drop width := by
  rw [inChar_eq width (written ++ rest) src written.length n (by omega) (by simp [total])]
  simp

theorem memcpy_next (src : List UInt8) (fits : src.length ≤ rest.length) :
    memcpy (written ++ rest) written.length (bufferMemory src) src.length =
      .ok (written ++ src ++ rest.drop src.length) := by
  have read := readBytes_inside src 0 src.length (by omega)
  have room : written.length + src.length ≤ (written ++ rest).length := by
    rw [List.length_append]
    omega
  rw [List.drop_zero, List.take_length] at read
  rw [memcpy, Int.toNat_natCast, read, ok_bind, if_pos room, memcpyAt]
  simp

theorem storeByte_last (z b : UInt8) :
    storeByte (written ++ [z]) written.length b = .ok (written ++ [b]) := by
  simp [storeByte]

theorem memcpy_beyond {dst src : List UInt8} {index : Nat} (beyond : src.length < n) :
    memcpy dst index (bufferMemory src) n = .error .outOfBounds := by
  rw [memcpy, Int.toNat_natCast, readBytes_out (by omega) (by omega), error_bind]

end Writing

theorem header_written (type : UInt8) {room : List UInt8} (channel : Int) {length : Nat}
    (fits : length + 8 ≤ 2147483647) (behind : room.length = length + 7) :
    intInChar (shortInChar ([type] ++ room) channel 1 (length + 8)) length 3 (length + 8) =
      [type] ++ Words.bytes 2 (wrapUnsigned 16 channel) ++ Words.bytes 4 length ++ room.drop 6 := by
  have second : shortInChar ([type] ++ room) channel 1 (length + 8) =
      [type] ++ Words.bytes 2 (wrapUnsigned 16 channel) ++ room.drop 2 :=
    inChar_next [type] room 2 channel (by rw [behind, List.length_singleton]; omega) (by omega)
  have next := @inChar_next ([type] ++ Words.bytes 2 (wrapUnsigned 16 channel)) (room.drop 2)
    (length + 8) 4 length
  have word : wrapUnsigned (8 * 4) length = length := by
    unfold wrapUnsigned
    omega
  simp only [List.length_append, List.length_singleton, Words.length_bytes, List.length_drop,
    List.drop_drop, word] at next
  rw [second]
  exact next (by omega) (by omega)

/-- Every octet of the allocated frame is written, whatever it held. -/
theorem amqpFrame_eq (held : Nat → UInt8) (type : UInt8) (channel : Int) (payload : List UInt8)
    (fits : payload.length + 8 ≤ 2147483647) :
    amqpFrame held type channel payload.length (bufferMemory payload) =
      .ok (encodeFrame type (wrapUnsigned 16 channel) payload) := by
  have total : cint ((payload.length : Int) + 4 + 4) = .ok ((payload.length + 8 : Nat) : Int) := by
    have sum : (payload.length : Int) + 4 + 4 = ((payload.length + 8 : Nat) : Int) := by omega
    rw [sum]
    exact cint_of_range (by omega) (by omega)
  have allocated := length_malloc held (payload.length + 8 : Nat)
  rw [amqpFrame, total, ok_bind]
  generalize malloc held (payload.length + 8 : Nat) = packet at allocated ⊢
  rw [Int.toNat_natCast] at allocated ⊢
  obtain ⟨z, room, rfl⟩ : ∃ z room, packet = z :: room :=
    List.exists_cons_of_length_eq_add_one allocated
  have behind : room.length = payload.length + 7 := by simpa using allocated
  have first : storeByte (z :: room) 0 type = .ok ([type] ++ room) := rfl
  have copied : memcpy ([type] ++ Words.bytes 2 (wrapUnsigned 16 channel) ++
      Words.bytes 4 payload.length ++ room.drop 6) 7 (bufferMemory payload) payload.length =
        .ok ([type] ++ Words.bytes 2 (wrapUnsigned 16 channel) ++ Words.bytes 4 payload.length ++
          payload ++ room.drop (6 + payload.length)) := by
    have next := memcpy_next ([type] ++ Words.bytes 2 (wrapUnsigned 16 channel) ++
      Words.bytes 4 payload.length) (room.drop 6) payload
    simp only [List.length_append, List.length_singleton, Words.length_bytes, List.length_drop,
      List.drop_drop] at next
    exact next (by omega)
  obtain ⟨last, single⟩ : ∃ last, room.drop (6 + payload.length) = [last] :=
    List.length_eq_one_iff.mp (by rw [List.length_drop]; omega)
  have place : (((payload.length + 8 : Nat) : Int) - 1).toNat = ([type] ++
      Words.bytes 2 (wrapUnsigned 16 channel) ++ Words.bytes 4 payload.length ++
        payload).length := by
    simp only [List.length_append, List.length_singleton, Words.length_bytes]
    omega
  rw [first, ok_bind]
  dsimp only
  rw [header_written type channel fits behind, copied, ok_bind, single, place, storeByte_last]
  simp [encodeFrame]

theorem amqpMethodFrame_null (held held' : Nat → UInt8) (channel classId methodId : Int) :
    amqpMethodFrame held held' channel 0 classId methodId none =
      .ok (encodeFrame 1 (wrapUnsigned 16 channel)
        (encodeMethod (wrapUnsigned 16 classId) (wrapUnsigned 16 methodId) [])) := by
  have size : cint (0 + 4) = .ok ((4 : Nat) : Int) := rfl
  have allocated := length_malloc held (4 : Nat)
  rw [amqpMethodFrame, size, ok_bind]
  generalize malloc held (4 : Nat) = room at allocated ⊢
  rw [Int.toNat_natCast] at allocated ⊢
  have first : shortInChar room classId 0 4 =
      Words.bytes 2 (wrapUnsigned 16 classId) ++ room.drop 2 :=
    inChar_next [] room 2 classId (by simp [allocated]) (by omega)
  have second : shortInChar (Words.bytes 2 (wrapUnsigned 16 classId) ++ room.drop 2) methodId 2 4 =
      encodeMethod (wrapUnsigned 16 classId) (wrapUnsigned 16 methodId) [] := by
    have next := @inChar_next (Words.bytes 2 (wrapUnsigned 16 classId)) (room.drop 2) 4 2 methodId
    have none : room.drop 4 = [] := List.drop_eq_nil_of_le (by omega)
    simp only [Words.length_bytes, List.length_drop, List.drop_drop, none] at next
    exact next (by omega) (by omega)
  have length : (encodeMethod (wrapUnsigned 16 classId) (wrapUnsigned 16 methodId) []).length = 4 :=
    rfl
  have frame := amqpFrame_eq held' 1 channel
    (encodeMethod (wrapUnsigned 16 classId) (wrapUnsigned 16 methodId) []) (by rw [length]; decide)
  rw [length] at frame
  dsimp only
  rw [first, second, ok_bind]
  exact frame

/-- With a pointer to its arguments the call copies four octets too many. -/
theorem amqpMethodFrame_arguments (held held' : Nat → UInt8) (channel classId methodId : Int)
    (arguments : List UInt8) (fits : arguments.length + 4 ≤ 2147483647) :
    amqpMethodFrame held held' channel arguments.length classId methodId
      (some (bufferMemory arguments)) = .error .outOfBounds := by
  have size : cint ((arguments.length : Int) + 4) = .ok ((arguments.length + 4 : Nat) : Int) := by
    rw [← Nat.cast_ofNat, ← Nat.cast_add]
    exact cint_of_range (by omega) (by omega)
  rw [amqpMethodFrame, size, ok_bind]
  dsimp only
  rw [memcpy_beyond (by omega), error_bind]

/-! ### What the encoded frame is taken apart into -/

def framedPacket (channel classId methodId : Int) (arguments : List UInt8) : PacketStruct :=
  .method (wrapUnsigned 16 channel) (arguments.length + 4)
    ⟨wrapUnsigned 16 classId, wrapUnsigned 16 methodId, arguments, arguments.length⟩

/-- The encoder stays in its buffers and in those it is given, and `break_packet` takes
the frame apart into what it was called with. No pointer is needed for no arguments. -/
def MethodFrameAgrees (channel classId methodId : Int) (arguments : Option (List UInt8)) : Prop :=
  ∀ held held', ∃ packet,
    amqpMethodFrame held held' channel (arguments.getD []).length classId methodId
      (arguments.map bufferMemory) = .ok packet ∧
    breakPacket (bufferMemory packet) =
      .ok (framedPacket channel classId methodId (arguments.getD []))

theorem breakFrame_size {memory : Memory} {type : FrameType} {channel size channel' size' : Nat}
    {payload : MethodStruct}
    (broken : breakFrame memory type channel size = .ok (.method channel' size' payload)) :
    size' = size := by
  obtain ⟨last, _, checked⟩ := bind_eq_ok.mp broken
  split at checked
  · cases congrArg PacketStruct.type (Except.ok.inj checked)
  split at checked
  · obtain ⟨methodPayload, _, packed⟩ := bind_eq_ok.mp checked
    exact (congrArg PacketStruct.size (Except.ok.inj packed)).symm
  · rename_i other
    exact (other (congrArg PacketStruct.type (Except.ok.inj checked))).elim

theorem sizeField_intField (a b c d : UInt8) :
    sizeField a b c d = wrapUnsigned 32 (intField (Words.value [a, b, c, d])) := by
  have third := c.toNat_lt
  have fourth := d.toNat_lt
  have high : Words.value [a, b, c, d] / 65536 = a.toNat * 256 + b.toNat := by
    rw [value_four]
    omega
  have low : Words.value [a, b, c, d] % 65536 = c.toNat * 256 + d.toNat := by
    rw [value_four]
    omega
  rw [intField, high, low, sizeField]
  push_cast
  rfl

/-- A size is read back exactly when the top bit of its low half is clear. -/
theorem sizeField_back {v : Nat} {a b c d : UInt8} (word : v < 4294967296)
    (field : Words.bytes 4 v = [a, b, c, d]) : sizeField a b c d = v ↔ v % 65536 < 32768 := by
  have value := Words.value_bytes_of_lt (w := 4) word
  rw [field] at value
  have read := intField_mod v
  rw [sizeField_intField, value, wrapUnsigned]
  norm_num
  split at read <;> omega

theorem breakPacket_encoded (channel classId methodId : Int) {arguments : List UInt8}
    (clear : (arguments.length + 4) % 65536 < 32768) (fits : arguments.length + 4 < 2147483648) :
    breakPacket (bufferMemory (encodeFrame 1 (wrapUnsigned 16 channel) (encodeMethod
      (wrapUnsigned 16 classId) (wrapUnsigned 16 methodId) arguments))) =
        .ok (framedPacket channel classId methodId arguments) := by
  have broken :
      breakPacket (bufferMemory (encodeFrame 1 _ (encodeMethod _ _ arguments) ++ [])) = _ :=
    breakPacket_method (wrapUnsigned_lt 16 channel) (wrapUnsigned_lt 16 classId)
      (wrapUnsigned_lt 16 methodId) clear fits
  rw [List.append_nil] at broken
  exact broken

/-- The layout itself is taken apart into its values exactly when its size field is
read back. -/
theorem breakPacket_encoded_iff (channel classId methodId : Int) (arguments : List UInt8)
    (fits : arguments.length < 2147483636) :
    breakPacket (bufferMemory (encodeFrame 1 (wrapUnsigned 16 channel) (encodeMethod
      (wrapUnsigned 16 classId) (wrapUnsigned 16 methodId) arguments))) =
        .ok (framedPacket channel classId methodId arguments) ↔
      (arguments.length + 4) % 65536 < 32768 := by
  have size : (encodeMethod (wrapUnsigned 16 classId) (wrapUnsigned 16 methodId) arguments).length =
      arguments.length + 4 := by simp [encodeMethod]
  constructor
  · intro broken
    obtain ⟨c0, c1, channelBytes⟩ := bytes_two (wrapUnsigned 16 channel)
    obtain ⟨s0, s1, s2, s3, sizeBytes⟩ := bytes_four (arguments.length + 4)
    rw [encodeFrame, size, channelBytes, sizeBytes] at broken
    simp only [List.cons_append, List.nil_append] at broken
    have other : [1, c0, c1, s0] ≠ amqpLiteral := fun same =>
      absurd (List.cons.inj same).1 (by decide)
    rw [breakPacket_head other] at broken
    exact (sizeField_back (by omega) sizeBytes).mp (breakFrame_size broken).symm
  · intro clear
    exact breakPacket_encoded channel classId methodId clear (by omega)

/-- The encoder and the decoder agree on a call exactly if it passes no pointer. -/
theorem methodFrame_agrees_iff (channel classId methodId : Int) (arguments : Option (List UInt8))
    (fits : (arguments.getD []).length < 2147483636) :
    MethodFrameAgrees channel classId methodId arguments ↔ arguments = none := by
  constructor
  · intro agrees
    obtain ⟨packet, encoded, _⟩ := agrees (fun _ => 0) (fun _ => 0)
    cases arguments with
    | none => rfl
    | some arguments =>
      have beyond := amqpMethodFrame_arguments (fun _ => 0) (fun _ => 0) channel classId methodId
        arguments (by simp at fits; omega)
      cases beyond.symm.trans encoded
  · rintro rfl held held'
    refine ⟨_, amqpMethodFrame_null held held' channel classId methodId, ?_⟩
    exact breakPacket_encoded channel classId methodId (by decide) (by decide)

theorem methodFrame_agrees_iff_closeOk : MethodFrameAgrees 1 20 41 none :=
  (methodFrame_agrees_iff 1 20 41 none (by decide)).mpr rfl

theorem one_argument_overruns :
    amqpMethodFrame (fun _ => 0) (fun _ => 0) 1 1 20 40 (some (bufferMemory [0])) =
        .error .outOfBounds ∧ ¬ MethodFrameAgrees 1 20 40 (some [0]) := by
  have overrun : amqpMethodFrame (fun _ => 0) (fun _ => 0) 1 1 20 40
      (some (bufferMemory [0])) = .error .outOfBounds := by decide +kernel
  refine ⟨overrun, ?_⟩
  intro agrees
  obtain ⟨packet, encoded, _⟩ := agrees (fun _ => 0) (fun _ => 0)
  cases overrun.symm.trans encoded

end Amqpgram
