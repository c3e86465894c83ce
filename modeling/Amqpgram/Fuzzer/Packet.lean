import Amqpgram.Fuzzer.Utils

/-! Packet.c: the layout of a frame and `break_packet`, which takes one apart
without being told how many of the bytes before it are valid. -/
namespace Amqpgram

/-- `frame_type`, as a variable of it can hold any octet: 5 doubles as the type of
the protocol header, and no other octet above 4 has a name. -/
inductive FrameType where
  | none
  | method
  | header
  | body
  | heartbeat
  | protocolHeader
  | other (octet : UInt8)
  deriving DecidableEq, Repr

def FrameType.ofOctet (octet : UInt8) : FrameType :=
  match octet.toNat with
  | 0 => .none
  | 1 => .method
  | 2 => .header
  | 3 => .body
  | 4 => .heartbeat
  | 5 => .protocolHeader
  | _ => .other octet

structure MethodStruct where
  classId : Nat
  methodId : Nat
  argumentsByteArray : List UInt8
  argumentsLength : Int
  deriving DecidableEq, Repr

/-- A METHOD packet is the only one with a method payload. -/
structure PacketStruct where
  type : FrameType
  channel : Nat
  size : Nat
  amqpHeader : List UInt8
  methodPayload : Option MethodStruct
  method_iff : methodPayload.isSome ↔ type = .method
  deriving DecidableEq

def PacketStruct.method (channel size : Nat) (payload : MethodStruct) : PacketStruct :=
  ⟨.method, channel, size, List.replicate 8 0, some payload, by simp⟩

def PacketStruct.plain (type : FrameType) (h : type ≠ .method) (channel size : Nat)
    (amqpHeader : List UInt8) : PacketStruct :=
  ⟨type, channel, size, amqpHeader, none, by simp [h]⟩

@[simp] theorem PacketStruct.method_size (channel size : Nat) (payload : MethodStruct) :
    (PacketStruct.method channel size payload).size = size := rfl

@[simp] theorem PacketStruct.plain_size (type : FrameType) (h : type ≠ .method)
    (channel size : Nat) (amqpHeader : List UInt8) :
    (PacketStruct.plain type h channel size amqpHeader).size = size := rfl

/-- The calloc'ed packet with its type set to NONE. -/
def PacketStruct.none : PacketStruct := .plain .none (by decide) 0 0 (List.replicate 8 0)

def readBytes (src : Memory) (index : Nat) : Nat → Except Fault (List UInt8)
  | 0 => .ok []
  | n + 1 => do
    let b ← readByte src index
    let bs ← readBytes src (index + 1) n
    pure (b :: bs)

def amqpLiteral : List UInt8 := [0x41, 0x4D, 0x51, 0x50]

/-- Where a frame is expected to end: `7 + size` in unsigned arithmetic. -/
def declaredEnd (size : Nat) : Nat := (7 + size) % 4294967296

/-- `size - 4` in unsigned arithmetic. -/
def argumentsSize (size : Nat) : Nat := wrapUnsigned 32 ((size : Int) - 4)

def breakMethod (packet : Memory) (size : Nat) : Except Fault MethodStruct := do
  let classId ← charInShort packet 7
  let methodId ← charInShort packet 9
  let arguments ← readBytes packet 11 (argumentsSize size)
  pure ⟨wrapUnsigned 16 classId, wrapUnsigned 16 methodId, arguments,
    wrapSigned 32 (argumentsSize size)⟩

def breakFrame (packet : Memory) (type : FrameType) (channel size : Nat) :
    Except Fault PacketStruct := do
  let last ← readByte packet (declaredEnd size)
  if last ≠ 0xCE then pure .none
  else if h : type = .method then
    let methodPayload ← breakMethod packet size
    pure (.method channel size methodPayload)
  else pure (.plain type h channel size (List.replicate 8 0))

def breakPacket (packet : Memory) : Except Fault PacketStruct := do
  let start ← readBytes packet 0 4
  if start = amqpLiteral then
    let header ← readBytes packet 0 8
    pure (.plain .protocolHeader (by decide) 0 0 header)
  else
    let type ← readByte packet 0
    let channel ← charInShort packet 1
    let size ← charInInt packet 3
    breakFrame packet (.ofOctet type) (wrapUnsigned 16 channel) (wrapUnsigned 32 size)

/-- The layout that `AMQP_frame` writes and `break_packet` reads. -/
def encodeFrame (type : UInt8) (channel : Nat) (payload : List UInt8) : List UInt8 :=
  type :: (Words.bytes 2 channel ++ Words.bytes 4 payload.length ++ payload ++ [0xCE])

def encodeMethod (classId methodId : Nat) (arguments : List UInt8) : List UInt8 :=
  Words.bytes 2 classId ++ Words.bytes 2 methodId ++ arguments

theorem length_encodeFrame (type : UInt8) (channel : Nat) (payload : List UInt8) :
    (encodeFrame type channel payload).length = payload.length + 8 := by
  simp [encodeFrame]

theorem readBytes_window (pre bs post : List UInt8) :
    readBytes (bufferMemory (pre ++ bs ++ post)) pre.length bs.length = .ok bs := by
  induction bs generalizing pre with
  | nil => rfl
  | cons b bs ih =>
    have first : readByte (bufferMemory (pre ++ b :: bs ++ post)) pre.length = .ok b := by
      simp [readByte, bufferMemory]
    have rest : readBytes (bufferMemory (pre ++ b :: (bs ++ post))) (pre.length + 1) bs.length =
        .ok bs := by simpa using ih (pre ++ [b])
    simp only [List.append_assoc, List.cons_append] at first ⊢
    rw [List.length_cons, readBytes, first]
    simp only [bind, Except.bind, rest]
    rfl

theorem readBytes_inside (buffer : List UInt8) (i m : Nat) (inside : i + m ≤ buffer.length) :
    readBytes (bufferMemory buffer) i m = .ok ((buffer.drop i).take m) := by
  have window := readBytes_window (buffer.take i) ((buffer.drop i).take m)
    ((buffer.drop i).drop m)
  have count : ((buffer.drop i).take m).length = m := by
    rw [List.length_take, List.length_drop]
    omega
  rwa [List.append_assoc, List.take_append_drop, List.take_append_drop, count,
    List.length_take_of_le (by omega)] at window

theorem readBytes_out {buffer : List UInt8} {i m : Nat} (inside : i ≤ buffer.length)
    (out : buffer.length < i + m) : readBytes (bufferMemory buffer) i m = .error .outOfBounds := by
  induction m generalizing i with
  | zero => omega
  | succ m ih =>
    rw [readBytes]
    by_cases last : i = buffer.length
    · rw [readByte_outside last.ge, error_bind]
    · rw [readByte_buffer (by omega), ok_bind, ih (by omega) (by omega), error_bind]

theorem readBytes_congr {a b : Memory} {i m : Nat} (same : ∀ j, i ≤ j → j < i + m → a j = b j) :
    readBytes a i m = readBytes b i m := by
  induction m generalizing i with
  | zero => rfl
  | succ m ih =>
    have first : readByte a i = readByte b i := by
      rw [readByte, readByte, same i (by omega) (by omega)]
    rw [readBytes, readBytes, first, ih fun j lower upper => same j (by omega) (by omega)]

/-- The `size` that the two signed halves of the field add up to. -/
def sizeField (a b c d : UInt8) : Nat :=
  wrapUnsigned 32 (wrapSigned 32 (wrapSigned 16 (a.toNat * 256 + b.toNat) * 65536 +
    wrapSigned 16 (c.toNat * 256 + d.toNat)))

theorem value_four (a b c d : UInt8) : Words.value [a, b, c, d] =
    (a.toNat * 256 + b.toNat) * 65536 + (c.toNat * 256 + d.toNat) := by
  simp only [Words.value_cons, Words.value_nil, List.length_cons, List.length_nil]
  ring

/-- With the top bit of the low half clear the field reads as written. -/
theorem sizeField_eq (a b c d : UInt8) (clear : c < 128) :
    sizeField a b c d = Words.value [a, b, c, d] := by
  have ha := a.toNat_lt
  have hb := b.toNat_lt
  have hc : c.toNat < 128 := clear
  have hd := d.toNat_lt
  have low := wrapSigned_of_range (n := 16) (x := c.toNat * 256 + d.toNat) (by omega) (by omega)
  have high := wrapSigned_emod 16 (a.toNat * 256 + b.toNat)
  have whole := wrapSigned_emod 32 (wrapSigned 16 (a.toNat * 256 + b.toNat) * 65536 +
    (c.toNat * 256 + d.toNat))
  rw [sizeField, low, value_four, wrapUnsigned, whole]
  generalize wrapSigned 16 (a.toNat * 256 + b.toNat) = h at high
  norm_num at high ⊢
  omega

section Frame
variable {t c0 c1 s0 s1 s2 s3 : UInt8} {rest : List UInt8}

theorem breakPacket_shown {m : Memory} (shows : ∀ i < 7, m i = [t, c0, c1, s0, s1, s2, s3][i]?)
    (other : [t, c0, c1, s0] ≠ amqpLiteral) :
    breakPacket m = breakFrame m (.ofOctet t) (c0.toNat * 256 + c1.toNat)
      (sizeField s0 s1 s2 s3) := by
  have channel : wrapUnsigned 16 (wrapSigned 16 (c0.toNat * 256 + c1.toNat)) =
      c0.toNat * 256 + c1.toNat := by
    have high := c0.toNat_lt
    have low := c1.toNat_lt
    have same := wrapUnsigned_wrapSigned (n := 16) (c0.toNat * 256 + c1.toNat) (by omega)
    push_cast at same
    exact same
  have octet : ∀ i < 7, ∀ b, [t, c0, c1, s0, s1, s2, s3][i]? = some b → readByte m i = .ok b := by
    intro i inside b there
    rw [readByte, shows i inside, there]
  have start : readBytes m 0 4 = .ok [t, c0, c1, s0] := by
    rw [readBytes, octet 0 (by decide) t rfl, ok_bind, readBytes, octet 1 (by decide) c0 rfl,
      ok_bind, readBytes, octet 2 (by decide) c1 rfl, ok_bind, readBytes,
      octet 3 (by decide) s0 rfl, ok_bind]
    rfl
  have second : charInShort m 1 = .ok (wrapSigned 16 (c0.toNat * 256 + c1.toNat)) := by
    rw [charInShort, octet 1 (by decide) c0 rfl, ok_bind, octet 2 (by decide) c1 rfl, ok_bind]
    rfl
  have third : charInInt m 3 =
      .ok (wrapSigned 32 (wrapSigned 16 (s0.toNat * 256 + s1.toNat) * 65536 +
        wrapSigned 16 (s2.toNat * 256 + s3.toNat))) := by
    rw [charInInt, charInShort, octet 3 (by decide) s0 rfl, ok_bind, octet 4 (by decide) s1 rfl,
      ok_bind, charInShort, octet 5 (by decide) s2 rfl, ok_bind, octet 6 (by decide) s3 rfl,
      ok_bind]
    rfl
  rw [breakPacket, start, ok_bind, if_neg other, octet 0 (by decide) t rfl, ok_bind, second,
    ok_bind, third, ok_bind, channel, sizeField]

theorem breakPacket_head (other : [t, c0, c1, s0] ≠ amqpLiteral) :
    breakPacket (bufferMemory (t :: c0 :: c1 :: s0 :: s1 :: s2 :: s3 :: rest)) =
      breakFrame (bufferMemory (t :: c0 :: c1 :: s0 :: s1 :: s2 :: s3 :: rest))
        (.ofOctet t) (c0.toNat * 256 + c1.toNat) (sizeField s0 s1 s2 s3) := by
  refine breakPacket_shown (fun i inside => ?_) other
  have cut : t :: c0 :: c1 :: s0 :: s1 :: s2 :: s3 :: rest =
      [t, c0, c1, s0, s1, s2, s3] ++ rest := rfl
  rw [bufferMemory, cut, List.getElem?_append_left inside]

end Frame

theorem readByte_window (pre : List UInt8) (b : UInt8) (post : List UInt8) :
    readByte (bufferMemory (pre ++ b :: post)) pre.length = .ok b := by
  simp [readByte, bufferMemory]

theorem bytes_two (v : Nat) : ∃ a b, Words.bytes 2 v = [a, b] := ⟨_, _, rfl⟩

theorem bytes_four (v : Nat) : ∃ a b c d, Words.bytes 4 v = [a, b, c, d] := ⟨_, _, _, _, rfl⟩

theorem shortField_eq {v : Nat} {a b : UInt8} (known : v < 65536)
    (field : Words.bytes 2 v = [a, b]) : a.toNat * 256 + b.toNat = v := by
  have value := Words.value_bytes_of_lt (w := 2) known
  rw [field] at value
  simpa using value

theorem shortField_read {v : Nat} {a b : UInt8} (known : v < 65536)
    (field : Words.bytes 2 v = [a, b]) :
    wrapUnsigned 16 (wrapSigned 16 (a.toNat * 256 + b.toNat)) = v := by
  have same := wrapUnsigned_wrapSigned (n := 16) v known
  rw [← shortField_eq known field] at same ⊢
  push_cast at same
  exact same

theorem sizeField_written {v : Nat} {a b c d : UInt8} (clear : v % 65536 < 32768)
    (word : v < 4294967296) (field : Words.bytes 4 v = [a, b, c, d]) : sizeField a b c d = v := by
  have value := Words.value_bytes_of_lt (w := 4) word
  rw [field] at value
  have low : c < 128 := by
    rw [← value, value_four] at clear
    rw [UInt8.lt_iff_toNat_lt]
    have top : (128 : UInt8).toNat = 128 := rfl
    have third := c.toNat_lt
    have fourth := d.toNat_lt
    omega
  rw [sizeField_eq _ _ _ _ low, value]

section Frames
variable {t : UInt8} {channel : Nat} {payload rest : List UInt8}

theorem breakPacket_frame (plain : t ≠ 0x41) (known : channel < 65536)
    (clear : payload.length % 65536 < 32768) (fits : payload.length < 2147483648) :
    breakPacket (bufferMemory (encodeFrame t channel payload ++ rest)) =
      if h : FrameType.ofOctet t = .method then do
        let methodPayload ← breakMethod (bufferMemory (encodeFrame t channel payload ++ rest))
          payload.length
        pure (.method channel payload.length methodPayload)
      else pure (.plain (.ofOctet t) h channel payload.length (List.replicate 8 0)) := by
  obtain ⟨c0, c1, channelBytes⟩ := bytes_two channel
  obtain ⟨s0, s1, s2, s3, sizeBytes⟩ := bytes_four payload.length
  have channelValue := shortField_eq known channelBytes
  have sizeValue := sizeField_written clear (by omega) sizeBytes
  have shape : encodeFrame t channel payload ++ rest =
      t :: c0 :: c1 :: s0 :: s1 :: s2 :: s3 :: (payload ++ 0xCE :: rest) := by
    simp only [encodeFrame, channelBytes, sizeBytes, List.cons_append, List.nil_append,
      List.append_assoc]
  have other : [t, c0, c1, s0] ≠ amqpLiteral := fun same => plain (List.cons.inj same).1
  have last : readByte (bufferMemory (encodeFrame t channel payload ++ rest))
      (declaredEnd payload.length) = .ok 0xCE := by
    have window := readByte_window (t :: c0 :: c1 :: s0 :: s1 :: s2 :: s3 :: payload) 0xCE rest
    have place : declaredEnd payload.length =
        (t :: c0 :: c1 :: s0 :: s1 :: s2 :: s3 :: payload).length := by
      simp only [declaredEnd, List.length_cons]
      omega
    rw [shape, place]
    exact window
  rw [shape, breakPacket_head other, channelValue, sizeValue, breakFrame, ← shape, last, ok_bind,
    if_neg (by decide)]

theorem breakPacket_method {classId methodId : Nat} {arguments : List UInt8}
    (known : channel < 65536) (knownClass : classId < 65536) (knownMethod : methodId < 65536)
    (clear : (arguments.length + 4) % 65536 < 32768) (fits : arguments.length + 4 < 2147483648) :
    breakPacket (bufferMemory
        (encodeFrame 1 channel (encodeMethod classId methodId arguments) ++ rest)) =
      .ok (.method channel (arguments.length + 4)
        ⟨classId, methodId, arguments, arguments.length⟩) := by
  have size : (encodeMethod classId methodId arguments).length = arguments.length + 4 := by
    simp [encodeMethod]
  obtain ⟨c0, c1, channelBytes⟩ := bytes_two channel
  obtain ⟨k0, k1, classBytes⟩ := bytes_two classId
  obtain ⟨m0, m1, methodBytes⟩ := bytes_two methodId
  obtain ⟨s0, s1, s2, s3, sizeBytes⟩ := bytes_four (arguments.length + 4)
  have shape : encodeFrame 1 channel (encodeMethod classId methodId arguments) ++ rest =
      [1, c0, c1, s0, s1, s2, s3, k0, k1, m0, m1] ++ arguments ++ (0xCE :: rest) := by
    rw [encodeFrame, size]
    simp only [encodeMethod, channelBytes, sizeBytes, classBytes, methodBytes, List.cons_append,
      List.nil_append, List.append_assoc]
  have classField : charInShort (bufferMemory
      ([1, c0, c1, s0, s1, s2, s3, k0, k1, m0, m1] ++ arguments ++ (0xCE :: rest))) 7 =
      .ok (wrapSigned 16 (k0.toNat * 256 + k1.toNat)) := rfl
  have methodField : charInShort (bufferMemory
      ([1, c0, c1, s0, s1, s2, s3, k0, k1, m0, m1] ++ arguments ++ (0xCE :: rest))) 9 =
      .ok (wrapSigned 16 (m0.toNat * 256 + m1.toNat)) := rfl
  have window : readBytes (bufferMemory
      ([1, c0, c1, s0, s1, s2, s3, k0, k1, m0, m1] ++ arguments ++ (0xCE :: rest))) 11
      arguments.length = .ok arguments := readBytes_window ..
  have classValue := shortField_read knownClass classBytes
  have methodValue := shortField_read knownMethod methodBytes
  have count : argumentsSize (arguments.length + 4) = arguments.length := by
    unfold argumentsSize wrapUnsigned
    omega
  have field : wrapSigned 32 arguments.length = arguments.length :=
    wrapSigned_of_range (by omega) (by omega)
  rw [breakPacket_frame (by decide) known (by omega) (by omega), dif_pos (by decide), size,
    breakMethod, shape, classField, ok_bind, methodField, ok_bind, count, window, ok_bind,
    classValue, methodValue, field]
  rfl

theorem breakPacket_content (plain : t ≠ 0x41) (content : FrameType.ofOctet t ≠ .method)
    (known : channel < 65536) (short : payload.length < 32768) :
    breakPacket (bufferMemory (encodeFrame t channel payload ++ rest)) =
      .ok (.plain (.ofOctet t) content channel payload.length (List.replicate 8 0)) := by
  rw [breakPacket_frame plain known (by omega) (by omega), dif_neg content]
  rfl

end Frames

end Amqpgram
