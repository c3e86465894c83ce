import Amqpgram.Fuzzer.Encoder
import Amqpgram.Fuzzer.Listener

/-! Packet.c: the encoders of a content header and of a body, and `packet_append`, which
puts two packets into one buffer and goes by the size field of each. -/
namespace Amqpgram

/-- The payload is allocated for its properties, and `size` octets are copied from it. -/
def amqpHeaderFrame (held held' : Nat → UInt8) (channel size bodySize classId weight
    propertyFlags : Int) (properties : Memory) (sizeOfProperties : Int) :
    Except Fault (List UInt8) := do
  let totalSize := wrapSigned 32 (8 + 2 + 2 + 2 + sizeOfProperties)
  if totalSize < 0 then throw .nullPointer
  let payload := malloc held totalSize
  let payload := shortInChar payload classId 0 totalSize.toNat
  let payload := shortInChar payload weight 2 totalSize.toNat
  let payload := longInChar payload bodySize 4 totalSize.toNat
  let payload := shortInChar payload propertyFlags 12 totalSize.toNat
  let payload ← memcpy payload 14 properties (wrapUnsigned 64 sizeOfProperties)
  amqpFrame held' 2 channel size (bufferMemory payload)

def amqpBodyFrame (held : Nat → UInt8) (channel size : Int) (payload : Memory) :
    Except Fault (List UInt8) := amqpFrame held 3 channel size payload

def packetAppend (packet1 packet2 : Memory) : Except Fault (List UInt8) := do
  let size1 ← charInInt packet1 3
  let length1 ← cint (size1 + 8)
  let size2 ← charInInt packet2 3
  let length2 ← cint (size2 + 8)
  let totalLength ← cint (length1 + length2)
  let appended := List.replicate totalLength.toNat 0
  let appended ← memcpy appended 0 packet1 (wrapUnsigned 64 length1)
  memcpy appended length1.toNat packet2 (wrapUnsigned 64 length2)

/-- The layout of the payload of a content header. -/
def contentHeader (classId weight bodySize propertyFlags : Nat) (properties : List UInt8) :
    List UInt8 :=
  Words.bytes 2 classId ++ Words.bytes 2 weight ++ Words.bytes 8 bodySize ++
    Words.bytes 2 propertyFlags ++ properties

/-! ### The content header -/

theorem length_contentHeader (classId weight bodySize propertyFlags : Nat)
    (properties : List UInt8) :
    (contentHeader classId weight bodySize propertyFlags properties).length =
      14 + properties.length := by
  simp [contentHeader]
  omega

theorem memcpy_take (dst src : List UInt8) (index n : Nat) :
    memcpy dst index (bufferMemory src) n = memcpy dst index (bufferMemory (src.take n)) n := by
  have same : readBytes (bufferMemory src) 0 n = readBytes (bufferMemory (src.take n)) 0 n := by
    apply readBytes_congr
    intro j _ below
    simp only [bufferMemory]
    rw [List.getElem?_take_of_lt (by omega)]
  rw [memcpy, memcpy, Int.toNat_natCast, same]

/-- `AMQP_frame` with a size of its own: what is copied has to be in the buffer. -/
theorem amqpFrame_size (held : Nat → UInt8) (type : UInt8) (channel : Int) (payload : List UInt8)
    {size : Nat} (fits : size + 8 ≤ 2147483647) :
    amqpFrame held type channel size (bufferMemory payload) =
      if size ≤ payload.length then
        .ok (encodeFrame type (wrapUnsigned 16 channel) (payload.take size))
      else .error .outOfBounds := by
  split
  · rename_i inside
    have length : (payload.take size).length = size := List.length_take_of_le inside
    have frame := amqpFrame_eq held type channel (payload.take size) (by omega)
    rw [length] at frame
    rw [← frame, amqpFrame, amqpFrame]
    simp only [fun dst => memcpy_take dst payload 7 size]
  · rename_i beyond
    have total : cint ((size : Int) + 4 + 4) = .ok ((size + 8 : Nat) : Int) := by
      have sum : (size : Int) + 4 + 4 = ((size + 8 : Nat) : Int) := by omega
      rw [sum]
      exact cint_of_range (by omega) (by omega)
    have room : 0 < (malloc held ((size + 8 : Nat) : Int)).length := by
      rw [length_malloc, Int.toNat_natCast]
      omega
    rw [amqpFrame, total, ok_bind, storeByte, if_pos room, ok_bind]
    dsimp only
    rw [memcpy_beyond (by omega), error_bind]

theorem inChar_field {written room : List UInt8} {index n : Nat} (width : Nat) (src : Int)
    (place : written.length = index) (length : room.length = n) (fits : index + width ≤ n) :
    inChar width (written ++ room.drop index) src index n =
      written ++ Words.bytes width (wrapUnsigned (8 * width) src) ++ room.drop (index + width) := by
  subst place
  rw [inChar_next written (room.drop written.length) width src
    (by rw [List.length_drop]; omega) (by rw [List.length_drop]; omega), List.drop_drop]

theorem contentHeader_written {room properties : List UInt8} {n : Nat}
    (classId weight bodySize propertyFlags : Int) (length : room.length = n)
    (total : n = 14 + properties.length) :
    memcpy (shortInChar (longInChar (shortInChar (shortInChar room classId 0 n) weight 2 n)
        bodySize 4 n) propertyFlags 12 n) 14 (bufferMemory properties) properties.length =
      .ok (contentHeader (wrapUnsigned 16 classId) (wrapUnsigned 16 weight)
        (wrapUnsigned 64 bodySize) (wrapUnsigned 16 propertyFlags) properties) := by
  have first : shortInChar room classId 0 n =
      Words.bytes 2 (wrapUnsigned 16 classId) ++ room.drop 2 :=
    @inChar_field [] room 0 n 2 classId rfl length (by omega)
  have second : shortInChar (Words.bytes 2 (wrapUnsigned 16 classId) ++ room.drop 2) weight 2 n =
      Words.bytes 2 (wrapUnsigned 16 classId) ++ Words.bytes 2 (wrapUnsigned 16 weight) ++
        room.drop 4 :=
    inChar_field 2 weight (by simp) length (by omega)
  have third : longInChar (Words.bytes 2 (wrapUnsigned 16 classId) ++
      Words.bytes 2 (wrapUnsigned 16 weight) ++ room.drop 4) bodySize 4 n =
      Words.bytes 2 (wrapUnsigned 16 classId) ++ Words.bytes 2 (wrapUnsigned 16 weight) ++
        Words.bytes 8 (wrapUnsigned 64 bodySize) ++ room.drop 12 :=
    inChar_field 8 bodySize (by simp) length (by omega)
  have fourth : shortInChar (Words.bytes 2 (wrapUnsigned 16 classId) ++
      Words.bytes 2 (wrapUnsigned 16 weight) ++ Words.bytes 8 (wrapUnsigned 64 bodySize) ++
      room.drop 12) propertyFlags 12 n =
      Words.bytes 2 (wrapUnsigned 16 classId) ++ Words.bytes 2 (wrapUnsigned 16 weight) ++
        Words.bytes 8 (wrapUnsigned 64 bodySize) ++
        Words.bytes 2 (wrapUnsigned 16 propertyFlags) ++ room.drop 14 :=
    inChar_field 2 propertyFlags (by simp) length (by omega)
  have copied := memcpy_next (Words.bytes 2 (wrapUnsigned 16 classId) ++
    Words.bytes 2 (wrapUnsigned 16 weight) ++ Words.bytes 8 (wrapUnsigned 64 bodySize) ++
    Words.bytes 2 (wrapUnsigned 16 propertyFlags)) (room.drop 14) properties
    (by rw [List.length_drop]; omega)
  have nothing : room.drop (14 + properties.length) = [] := List.drop_eq_nil_of_le (by omega)
  simp only [List.length_append, Words.length_bytes, List.drop_drop, nothing, List.append_nil]
    at copied
  rw [first, second, third, fourth]
  exact copied

theorem amqpHeaderFrame_eq (held held' : Nat → UInt8) (channel bodySize classId weight
    propertyFlags : Int) {size : Nat} (properties : List UInt8) (fits : size + 8 ≤ 2147483647)
    (small : properties.length + 14 ≤ 2147483647) :
    amqpHeaderFrame held held' channel size bodySize classId weight propertyFlags
        (bufferMemory properties) properties.length =
      if size ≤ 14 + properties.length then
        .ok (encodeFrame 2 (wrapUnsigned 16 channel) ((contentHeader (wrapUnsigned 16 classId)
          (wrapUnsigned 16 weight) (wrapUnsigned 64 bodySize) (wrapUnsigned 16 propertyFlags)
          properties).take size))
      else .error .outOfBounds := by
  have total : wrapSigned 32 (8 + 2 + 2 + 2 + (properties.length : Int)) =
      ((14 + properties.length : Nat) : Int) := by
    rw [wrapSigned_of_range (by omega) (by omega)]
    omega
  have copied : (wrapUnsigned 64 (properties.length : Int) : Int) = properties.length := by
    unfold wrapUnsigned
    omega
  have allocated := length_malloc held ((14 + properties.length : Nat) : Int)
  have written := contentHeader_written classId weight bodySize propertyFlags allocated
    (Int.toNat_natCast _)
  unfold amqpHeaderFrame
  dsimp only
  rw [total, copied, if_neg (by omega), written, ok_bind, amqpFrame_size held' 2 channel _ fits,
    length_contentHeader]

/-- A content header is written inside its buffers exactly when the size is at most that of
the fourteen octets and the properties; what is taken apart again is the frame, and nothing
of the header in it. -/
theorem headerFrame_content (held held' : Nat → UInt8) (channel bodySize classId weight
    propertyFlags : Int) (size : Nat) (properties : List UInt8) (fits : size + 8 ≤ 2147483647)
    (small : properties.length + 14 ≤ 2147483647) :
    let content := contentHeader (wrapUnsigned 16 classId) (wrapUnsigned 16 weight)
      (wrapUnsigned 64 bodySize) (wrapUnsigned 16 propertyFlags) properties
    let packet := encodeFrame 2 (wrapUnsigned 16 channel) (content.take size)
    amqpHeaderFrame held held' channel size bodySize classId weight propertyFlags
        (bufferMemory properties) properties.length =
      (if size ≤ 14 + properties.length then .ok packet else .error .outOfBounds) ∧
    (size ≤ 14 + properties.length → size % 65536 < 32768 → breakPacket (bufferMemory packet) =
      .ok (.plain .header (by decide) (wrapUnsigned 16 channel) size (List.replicate 8 0))) := by
  intro content packet
  refine ⟨amqpHeaderFrame_eq held held' channel bodySize classId weight propertyFlags properties
    fits small, ?_⟩
  intro inside clear
  have length : (content.take size).length = size :=
    List.length_take_of_le (by rw [length_contentHeader]; exact inside)
  have broken : breakPacket (bufferMemory (encodeFrame 2 (wrapUnsigned 16 channel)
      (content.take size) ++ [])) = _ :=
    breakPacket_frame (by decide) (wrapUnsigned_lt 16 channel) (by omega) (by omega)
  rw [List.append_nil, dif_neg (by decide), length] at broken
  exact broken

/-- A size one too large for two octets of properties. -/
theorem headerFrame_content_beyond : amqpHeaderFrame (fun _ => 0) (fun _ => 0) 1 17 5 60 0 0
    (bufferMemory [0, 0]) 2 = .error .outOfBounds :=
  (headerFrame_content (fun _ => 0) (fun _ => 0) 1 5 60 0 0 17 [0, 0] (by decide) (by decide)).1

/-! ### Appending -/

theorem readBytes_length {src : Memory} {index n : Nat} {bs : List UInt8}
    (read : readBytes src index n = .ok bs) : bs.length = n := by
  induction n generalizing index bs with
  | zero =>
    cases read
    rfl
  | succ n ih =>
    obtain ⟨b, _, later⟩ := bind_eq_ok.mp read
    obtain ⟨others, readOthers, rest⟩ := bind_eq_ok.mp later
    cases rest
    rw [List.length_cons, ih readOthers]

theorem memcpy_length {dst a : List UInt8} {src : Memory} {index n : Nat}
    (copied : memcpy dst index src n = .ok a) : a.length = dst.length := by
  obtain ⟨bs, read, rest⟩ := bind_eq_ok.mp copied
  have count : bs.length = n := readBytes_length read
  rw [Int.toNat_natCast] at rest
  split at rest
  · rename_i room
    obtain rfl := Except.ok.inj rest
    simp [memcpyAt]
    omega
  · cases rest

/-- What `char_in_int` makes of the size field of a frame. -/
theorem charInInt_frame (type : UInt8) (channel : Nat) {payload : List UInt8}
    (rest : List UInt8) (word : payload.length < 4294967296) :
    charInInt (bufferMemory (encodeFrame type channel payload ++ rest)) 3 =
      .ok (intField payload.length) := by
  have window := charInInt_window (type :: Words.bytes 2 channel) (payload ++ [0xCE] ++ rest)
    (Words.length_bytes 4 payload.length)
  have value := Words.value_bytes_of_lt (w := 4) word
  rw [value] at window
  simpa [encodeFrame] using window

theorem intField_le {v : Nat} (fits : v < 2147483648) :
    intField v ≤ v ∧ (intField v = v ↔ v % 65536 < 32768) := by
  have same := intField_mod v
  have range := intField_range v
  split at same <;> omega

theorem memcpy_front {written room src : List UInt8} {index n : Nat} (rest : List UInt8)
    (place : written.length = index) (count : src.length = n) (fits : n ≤ room.length) :
    memcpy (written ++ room) index (bufferMemory (src ++ rest)) n =
      .ok (written ++ src ++ room.drop n) := by
  subst place count
  rw [memcpy_take, List.take_left, memcpy_next written room src fits]

section
variable {t t' : UInt8} {channel channel' : Nat} {payload payload' : List UInt8}

/-- Only the frame at the head of each packet is copied. -/
theorem packetAppend_heads (rest rest' : List UInt8) (clear : payload.length % 65536 < 32768)
    (clear' : payload'.length % 65536 < 32768)
    (fits : payload.length + payload'.length + 16 ≤ 2147483647) :
    packetAppend (bufferMemory (encodeFrame t channel payload ++ rest))
        (bufferMemory (encodeFrame t' channel' payload' ++ rest')) =
      .ok (encodeFrame t channel payload ++ encodeFrame t' channel' payload') := by
  have size := (intField_le (v := payload.length) (by omega)).2.mpr clear
  have size' := (intField_le (v := payload'.length) (by omega)).2.mpr clear'
  have length := length_encodeFrame t channel payload
  have length' := length_encodeFrame t' channel' payload'
  have first : cint ((payload.length : Int) + 8) = .ok ((payload.length + 8 : Nat) : Int) :=
    cint_of_range (by omega) (by omega)
  have second : cint ((payload'.length : Int) + 8) = .ok ((payload'.length + 8 : Nat) : Int) :=
    cint_of_range (by omega) (by omega)
  have total : cint (((payload.length + 8 : Nat) : Int) + ((payload'.length + 8 : Nat) : Int)) =
      .ok ((payload.length + 8 + (payload'.length + 8) : Nat) : Int) :=
    cint_of_range (by omega) (by omega)
  have word : ∀ n : Nat, n ≤ 2147483647 → (wrapUnsigned 64 (n : Int) : Int) = n := by
    intro n small
    unfold wrapUnsigned
    omega
  have copied := @memcpy_front []
    (List.replicate (payload.length + 8 + (payload'.length + 8)) 0) _ 0 _ rest rfl length
    (by simp)
  have copied' := @memcpy_front (encodeFrame t channel payload)
    (List.replicate (payload'.length + 8) 0) _ _ _ rest' length length' (by simp)
  simp only [List.nil_append, List.drop_replicate, Nat.add_sub_cancel_left] at copied
  simp only [List.drop_replicate, Nat.sub_self, List.replicate_zero, List.append_nil] at copied'
  rw [packetAppend, charInInt_frame t channel rest (by omega), ok_bind, size, first, ok_bind,
    charInInt_frame t' channel' rest' (by omega), ok_bind, size', second, ok_bind, total, ok_bind]
  dsimp only
  rw [word _ (by omega), word _ (by omega), Int.toNat_natCast, Int.toNat_natCast, copied, ok_bind]
  exact copied'

/-- Two frames end up behind each other exactly when both sizes are read back. -/
theorem packetAppend_iff (rest rest' : List UInt8)
    (fits : payload.length + payload'.length + 16 ≤ 2147483647) :
    packetAppend (bufferMemory (encodeFrame t channel payload ++ rest))
          (bufferMemory (encodeFrame t' channel' payload' ++ rest')) =
        .ok (encodeFrame t channel payload ++ encodeFrame t' channel' payload') ↔
      payload.length % 65536 < 32768 ∧ payload'.length % 65536 < 32768 := by
  constructor
  · intro appended
    have first := intField_le (v := payload.length) (by omega)
    have second := intField_le (v := payload'.length) (by omega)
    rw [packetAppend, charInInt_frame t channel rest (by omega), ok_bind] at appended
    obtain ⟨length1, sum1, appended⟩ := bind_eq_ok.mp appended
    rw [charInInt_frame t' channel' rest' (by omega), ok_bind] at appended
    obtain ⟨length2, sum2, appended⟩ := bind_eq_ok.mp appended
    obtain ⟨totalLength, sum, appended⟩ := bind_eq_ok.mp appended
    obtain ⟨half, copied, whole⟩ := bind_eq_ok.mp appended
    have same := (memcpy_length whole).trans (memcpy_length copied)
    obtain ⟨rfl, _, _⟩ := cint_eq_ok.mp sum1
    obtain ⟨rfl, _, _⟩ := cint_eq_ok.mp sum2
    obtain ⟨rfl, _, _⟩ := cint_eq_ok.mp sum
    rw [List.length_append, length_encodeFrame, length_encodeFrame, List.length_replicate] at same
    have exact1 : intField payload.length = payload.length := by omega
    have exact2 : intField payload'.length = payload'.length := by omega
    exact ⟨first.2.mp exact1, second.2.mp exact2⟩
  · rintro ⟨clear, clear'⟩
    exact packetAppend_heads rest rest' clear clear' fits

/-- The size of a body of 32768 octets is read as a negative one. -/
theorem packetAppend_iff_half :
    packetAppend (bufferMemory (encodeFrame 3 1 (List.replicate 32768 7) ++ []))
        (bufferMemory (encodeFrame 3 1 [7] ++ [])) ≠
      .ok (encodeFrame 3 1 (List.replicate 32768 7) ++ encodeFrame 3 1 [7]) :=
  (packetAppend_iff [] [] (by rw [List.length_replicate]; decide)).not.mpr
    (by rw [List.length_replicate]; decide)

end

/-! ### Messages of several frames -/

/-- The packets of a message, each appended to those before it. -/
def appendBehind (first : Frame) (frames : List Frame) : Except Fault (List UInt8) :=
  frames.foldlM (fun appended frame => packetAppend (bufferMemory appended)
    (bufferMemory frame.bytes)) first.bytes

/-- The packets of a message, each put in front of those behind it. -/
def appendBefore : Frame → List Frame → Except Fault (List UInt8)
  | first, [] => .ok first.bytes
  | first, next :: frames => do
    let appended ← appendBefore next frames
    packetAppend (bufferMemory first.bytes) (bufferMemory appended)

/-- The size is read back, and two of its kind are not too long for an `int`. -/
def Frame.Short (frame : Frame) : Prop :=
  frame.payload.length % 65536 < 32768 ∧ frame.payload.length + 8 ≤ 1073741823

theorem appended_frames {frame frame' : Frame} (short : frame.Short) (short' : frame'.Short)
    (rest rest' : List UInt8) :
    packetAppend (bufferMemory (frame.bytes ++ rest)) (bufferMemory (frame'.bytes ++ rest')) =
      .ok (frame.bytes ++ frame'.bytes) := by
  obtain ⟨clear, small⟩ := short
  obtain ⟨clear', small'⟩ := short'
  exact packetAppend_heads rest rest' clear clear' (by omega)

theorem appendBehind_eq {first : Frame} {frames : List Frame} (short : first.Short)
    (others : ∀ frame ∈ frames, frame.Short) :
    appendBehind first frames = .ok (first.bytes ++ frames.getLast?.elim [] Frame.bytes) := by
  induction frames using List.reverseRecOn with
  | nil => simp [appendBehind, pure, Except.pure]
  | append_singleton frames last ih =>
    have before := ih fun frame member => others frame (List.mem_append_left _ member)
    have now := appended_frames short (others last (by simp))
      (frames.getLast?.elim [] Frame.bytes) []
    rw [List.append_nil] at now
    rw [appendBehind] at before ⊢
    rw [List.foldlM_append, before]
    simp only [List.foldlM_cons, List.foldlM_nil]
    rw [ok_bind, now, List.getLast?_append]
    rfl

theorem appendBefore_eq {first : Frame} {frames : List Frame} (short : first.Short)
    (others : ∀ frame ∈ frames, frame.Short) :
    appendBefore first frames = .ok (first.bytes ++ frames.head?.elim [] Frame.bytes) := by
  induction frames generalizing first with
  | nil => simp [appendBefore]
  | cons next frames ih =>
    have behind := ih (others next (List.mem_cons_self ..)) fun frame member =>
      others frame (List.mem_cons_of_mem _ member)
    have now := appended_frames short (others next (List.mem_cons_self ..)) []
      (frames.head?.elim [] Frame.bytes)
    rw [List.append_nil] at now
    rw [appendBefore, behind, ok_bind, now]
    rfl

theorem Frame.bytes_long (frame : Frame) : 8 ≤ frame.bytes.length := by
  rw [Frame.bytes, length_encodeFrame]
  omega

theorem frames_long (frames : List Frame) :
    8 * frames.length ≤ (frames.map Frame.bytes).flatten.length := by
  induction frames with
  | nil => simp
  | cons first frames ih =>
    have long := first.bytes_long
    rw [List.map_cons, List.flatten_cons, List.length_append, List.length_cons]
    omega

theorem frame_shorter {frame : Frame} {frames : List Frame} (member : frame ∈ frames) :
    frame.bytes.length + 8 * (frames.length - 1) ≤ (frames.map Frame.bytes).flatten.length := by
  induction frames with
  | nil => cases member
  | cons first frames ih =>
    rw [List.map_cons, List.flatten_cons, List.length_append, List.length_cons]
    rcases List.mem_cons.mp member with rfl | later
    · have others := frames_long frames
      omega
    · have behind := ih later
      have long := first.bytes_long
      have some : 0 < frames.length := List.length_pos_of_mem later
      omega

/-- The first frame and one of the others are the whole message if there are no more. -/
theorem kept_iff (first : Frame) {frames : List Frame} {kept : Option Frame}
    (inside : ∀ frame ∈ kept, frame ∈ frames) (one : kept = none ↔ frames = []) :
    first.bytes ++ kept.elim [] Frame.bytes = ((first :: frames).map Frame.bytes).flatten ↔
      frames.length ≤ 1 := by
  rw [List.map_cons, List.flatten_cons, List.append_cancel_left_eq]
  constructor
  · intro same
    have lengths := congrArg List.length same
    cases kept with
    | none => simp [one.mp rfl]
    | some frame =>
      have shorter := frame_shorter (inside frame rfl)
      simp only [Option.elim_some] at lengths
      omega
  · intro few
    cases kept with
    | none => simp [one.mp rfl]
    | some frame =>
      have member := inside frame rfl
      have some := List.length_pos_of_mem member
      obtain ⟨only, rfl⟩ := List.length_eq_one_iff.mp (Nat.le_antisymm few some)
      obtain rfl := List.mem_singleton.mp member
      simp

/-- Whichever way a message is put together, its first frame and one other are left: the
last when frames are appended, the second when they are put in front. -/
theorem packetAppend_message (first : Frame) (frames : List Frame)
    (short : ∀ frame ∈ first :: frames, frame.Short) :
    let message := ((first :: frames).map Frame.bytes).flatten
    appendBehind first frames = .ok (first.bytes ++ frames.getLast?.elim [] Frame.bytes) ∧
    appendBefore first frames = .ok (first.bytes ++ frames.head?.elim [] Frame.bytes) ∧
    (appendBehind first frames = .ok message ↔ frames.length ≤ 1) ∧
    (appendBefore first frames = .ok message ↔ frames.length ≤ 1) := by
  intro message
  have behind := appendBehind_eq (short first (List.mem_cons_self ..)) fun frame member =>
    short frame (List.mem_cons_of_mem _ member)
  have before := appendBefore_eq (short first (List.mem_cons_self ..)) fun frame member =>
    short frame (List.mem_cons_of_mem _ member)
  refine ⟨behind, before, ?_, ?_⟩
  · rw [behind, Except.ok.injEq]
    exact kept_iff first (fun frame last => List.mem_of_getLast? last) List.getLast?_eq_none_iff
  · rw [before, Except.ok.injEq]
    exact kept_iff first (fun frame head => List.mem_of_mem_head? head) List.head?_eq_none_iff

def methodFrame : Frame := ⟨1, [0, 60, 0, 40], by decide, by decide⟩

def contentFrame (type : UInt8) (content : type = 2 ∨ type = 3) (payload : List UInt8) : Frame :=
  ⟨type, payload, .inr content, by rintro rfl; simp at content⟩

def headerFrame : Frame :=
  contentFrame 2 (.inl rfl) [0, 60, 0, 0, 0, 0, 0, 0, 0, 0, 0, 1, 0, 0]

def bodyFrame : Frame := contentFrame 3 (.inr rfl) [7]

/-- The header of a message is lost, or its body. -/
theorem packetAppend_message_content :
    appendBehind methodFrame [headerFrame, bodyFrame] =
        .ok (methodFrame.bytes ++ bodyFrame.bytes) ∧
      appendBefore methodFrame [headerFrame, bodyFrame] =
        .ok (methodFrame.bytes ++ headerFrame.bytes) := by
  have short : ∀ frame ∈ [methodFrame, headerFrame, bodyFrame], frame.Short := by
    simp [Frame.Short, methodFrame, headerFrame, bodyFrame, contentFrame]
  obtain ⟨behind, before, _⟩ := packetAppend_message methodFrame [headerFrame, bodyFrame] short
  exact ⟨behind, before⟩

end Amqpgram
