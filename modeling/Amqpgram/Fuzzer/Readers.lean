import Mathlib.Data.List.TakeWhile
import Amqpgram.Fuzzer.Bounds
import Amqpgram.Fuzzer.Codecs

/-! The readers of a method frame in Packet.c. `break_packet` takes the end of the
arguments from the size field; `get_arguments` and `verify_length` look for the end
octet among them. -/
namespace Amqpgram

/-- The loop of `get_arguments`; `turns` counts the arguments that are left. -/
def scanArguments (src : Memory) : Nat → Nat → Except Fault Nat
  | 0, found => .ok found
  | turns + 1, found => do
    let b ← readByte src (11 + found)
    if b ≠ 0xCE then scanArguments src turns (found + 1) else .ok found

def getArguments (src : Memory) : Except Fault (List UInt8) := do
  let declared ← charInInt src 3
  let size ← cint (declared - 4)
  let found ← scanArguments src size.toNat 0
  readBytes src 11 found

/-- The loop of `verify_length` and the test behind it. -/
def verifyLoop (packet : Memory) : Nat → Nat → Except Fault Int
  | 0, index => do
    let b ← readByte packet index
    pure (if b ≠ 0xCE then 1 else 0)
  | turns + 1, index => do
    let b ← readByte packet index
    if b = 0xCE then pure 2 else verifyLoop packet turns (index + 1)

def verifyLength (packet : Memory) (length : Int) : Except Fault Int := do
  let stop ← cint (length + 7)
  verifyLoop packet (stop - 7).toNat 7

/-- The three readers accept a frame, with one opinion on what its arguments are. -/
def ReadersAgree (packet : Memory) : Prop :=
  ∃ broken payload, breakPacket packet = .ok broken ∧ broken.methodPayload = some payload ∧
    verifyLength packet broken.size = .ok 0 ∧
    getArguments packet = .ok payload.argumentsByteArray

section Scan
variable (bs post : List UInt8)

/-- The scan stops at the first end octet, or behind the last argument. -/
theorem scanArguments_window (pre : List UInt8) (found : Nat) (start : pre.length = 11 + found) :
    scanArguments (bufferMemory (pre ++ bs ++ post)) bs.length found =
      .ok (found + (bs.takeWhile (· ≠ 0xCE)).length) := by
  induction bs generalizing pre found with
  | nil => rfl
  | cons b bs ih =>
    have first := readByte_window pre b (bs ++ post)
    have next := ih (pre ++ [b]) (found + 1) (by simp [start, Nat.add_assoc])
    simp only [List.append_assoc, List.cons_append, List.nil_append] at next
    rw [start] at first
    simp only [List.append_assoc, List.cons_append, List.length_cons, scanArguments, first,
      ok_bind, next, List.takeWhile_cons]
    by_cases last : b = 0xCE
    · simp [last]
    · simp [last, Nat.add_assoc, Nat.add_comm 1]

theorem verifyLoop_window (pre : List UInt8) :
    verifyLoop (bufferMemory (pre ++ bs ++ 0xCE :: post)) bs.length pre.length =
      .ok (if 0xCE ∈ bs then 2 else 0) := by
  induction bs generalizing pre with
  | nil =>
    have last := readByte_window pre 0xCE post
    simp only [List.append_nil, List.length_nil, verifyLoop, last, ok_bind]
    rfl
  | cons b bs ih =>
    have first := readByte_window pre b (bs ++ 0xCE :: post)
    have next := ih (pre ++ [b])
    simp only [List.append_assoc, List.cons_append, List.nil_append, List.length_append,
      List.length_singleton] at next
    simp only [List.append_assoc, List.cons_append, List.length_cons, verifyLoop, first,
      ok_bind, next]
    by_cases last : b = 0xCE
    · simp only [last, if_true, List.mem_cons, true_or]
      rfl
    · simp [last, Ne.symm last]

theorem intField_small {u : Nat} (small : u < 32768) : intField u = u := by
  have same := intField_mod u
  have range := intField_range u
  rw [if_pos (by omega)] at same
  omega

end Scan

section MethodFrame
variable {channel classId methodId : Nat} {arguments rest : List UInt8}

theorem methodFrame_head (channel classId methodId : Nat) (arguments rest : List UInt8) :
    ∃ head, head.length = 11 ∧
      encodeFrame 1 channel (encodeMethod classId methodId arguments) ++ rest =
        head ++ arguments ++ (0xCE :: rest) := by
  refine ⟨1 :: (Words.bytes 2 channel ++
    Words.bytes 4 (encodeMethod classId methodId arguments).length ++
    (Words.bytes 2 classId ++ Words.bytes 2 methodId)), by simp, ?_⟩
  simp [encodeFrame, encodeMethod]

theorem verifyLength_method (fits : arguments.length + 12 ≤ maxLine + 1) :
    verifyLength (bufferMemory
        (encodeFrame 1 channel (encodeMethod classId methodId arguments) ++ rest))
        (arguments.length + 4 : Nat) =
      .ok (if 0xCE ∈ encodeMethod classId methodId arguments then 2 else 0) := by
  have room : maxLine = 4096 := rfl
  have payload : (encodeMethod classId methodId arguments).length = arguments.length + 4 := by
    simp [encodeMethod]
  have stop : cint (((arguments.length + 4 : Nat) : Int) + 7) =
      .ok (((arguments.length + 4 : Nat) : Int) + 7) := cint_of_range (by omega) (by omega)
  have turns : (((arguments.length + 4 : Nat) : Int) + 7 - 7).toNat = arguments.length + 4 := by
    omega
  have window := verifyLoop_window (encodeMethod classId methodId arguments) rest
    (1 :: (Words.bytes 2 channel ++ Words.bytes 4 (arguments.length + 4)))
  simp only [List.length_cons, List.length_append, Words.length_bytes, payload] at window
  simp only [verifyLength, stop, ok_bind, turns, encodeFrame, payload]
  simpa using window

theorem getArguments_method (fits : arguments.length + 12 ≤ maxLine + 1) :
    getArguments (bufferMemory
        (encodeFrame 1 channel (encodeMethod classId methodId arguments) ++ rest)) =
      .ok (arguments.takeWhile (· ≠ 0xCE)) := by
  have room : maxLine = 4096 := rfl
  have payload : (encodeMethod classId methodId arguments).length = arguments.length + 4 := by
    simp [encodeMethod]
  have declared : charInInt (bufferMemory
      (encodeFrame 1 channel (encodeMethod classId methodId arguments) ++ rest)) 3 =
      .ok (arguments.length + 4 : Nat) := by
    have window := charInInt_window (1 :: Words.bytes 2 channel)
      (encodeMethod classId methodId arguments ++ 0xCE :: rest)
      (Words.length_bytes 4 (arguments.length + 4))
    have value : Words.value (Words.bytes 4 (arguments.length + 4)) = arguments.length + 4 :=
      Words.value_bytes_of_lt (by norm_num; omega)
    rw [value, intField_small (by omega)] at window
    simpa [encodeFrame, payload] using window
  have size : cint (((arguments.length + 4 : Nat) : Int) - 4) = .ok (arguments.length : Int) := by
    rw [show ((arguments.length + 4 : Nat) : Int) - 4 = arguments.length by omega]
    exact cint_of_range (by omega) (by omega)
  obtain ⟨head, long, shape⟩ := methodFrame_head channel classId methodId arguments rest
  have scanned := scanArguments_window arguments (0xCE :: rest) head 0 long
  have kept := arguments.takeWhile_append_dropWhile (p := (· ≠ 0xCE))
  have read := readBytes_window head (arguments.takeWhile (· ≠ 0xCE))
    (arguments.dropWhile (· ≠ 0xCE) ++ 0xCE :: rest)
  rw [← List.append_assoc, List.append_assoc head, kept, long] at read
  rw [Nat.zero_add] at scanned
  rw [getArguments, declared, ok_bind, size, ok_bind, Int.toNat_natCast, shape, scanned, ok_bind,
    read]

end MethodFrame

theorem takeWhile_eq_self {bs : List UInt8} (clear : 0xCE ∉ bs) :
    bs.takeWhile (· ≠ 0xCE) = bs := by
  rw [List.takeWhile_eq_self_iff]
  intro b member
  simpa using fun last : b = 0xCE => clear (last ▸ member)

/-- The readers agree on a frame exactly when no octet of its payload is the end octet. -/
theorem readersAgree_iff (channel classId methodId : Nat) (arguments rest : List UInt8)
    (known : channel < 65536) (knownClass : classId < 65536) (knownMethod : methodId < 65536)
    (fits : arguments.length + 12 ≤ maxLine + 1) :
    ReadersAgree (bufferMemory
        (encodeFrame 1 channel (encodeMethod classId methodId arguments) ++ rest)) ↔
      0xCE ∉ encodeMethod classId methodId arguments := by
  have room : maxLine = 4096 := rfl
  have broken : breakPacket (bufferMemory
      (encodeFrame 1 channel (encodeMethod classId methodId arguments) ++ rest)) = _ :=
    breakPacket_method known knownClass knownMethod (by omega) (by omega)
  have verified : verifyLength (bufferMemory
      (encodeFrame 1 channel (encodeMethod classId methodId arguments) ++ rest)) _ = _ :=
    verifyLength_method fits
  constructor
  · rintro ⟨packet, payload, read, -, accepted, -⟩ octet
    obtain rfl := Except.ok.inj (broken.symm.trans read)
    rw [if_pos octet] at verified
    cases verified.symm.trans accepted
  · intro clear
    have taken : getArguments (bufferMemory
        (encodeFrame 1 channel (encodeMethod classId methodId arguments) ++ rest)) = _ :=
      getArguments_method fits
    rw [if_neg clear] at verified
    rw [takeWhile_eq_self fun octet => clear (by simp [encodeMethod, octet])] at taken
    exact ⟨_, _, broken, rfl, verified, taken⟩

theorem readersAgree_iff_close :
    ReadersAgree (bufferMemory (encodeFrame 1 1 (encodeMethod 20 40 [0, 200]) ++ [0])) :=
  (readersAgree_iff 1 20 40 [0, 200] [0] (by decide) (by decide) (by decide)
    (by decide)).mpr (by decide)

/-- An argument octet 0xCE: one reader keeps it, the others stop at it. -/
theorem end_octet_inside :
    verifyLength (bufferMemory (encodeFrame 1 1 (encodeMethod 20 40 [0xCE, 7]))) 6 = .ok 2 ∧
      getArguments (bufferMemory (encodeFrame 1 1 (encodeMethod 20 40 [0xCE, 7]))) = .ok [] ∧
      ¬ ReadersAgree (bufferMemory (encodeFrame 1 1 (encodeMethod 20 40 [0xCE, 7]))) := by
  have refused : verifyLength (bufferMemory (encodeFrame 1 1 (encodeMethod 20 40 [0xCE, 7]))) 6 =
      .ok 2 := by decide +kernel
  have broken : breakPacket (bufferMemory (encodeFrame 1 1 (encodeMethod 20 40 [0xCE, 7]))) =
      .ok (.method 1 6 ⟨20, 40, [0xCE, 7], 2⟩) := by decide +kernel
  refine ⟨refused, by decide +kernel, ?_⟩
  rintro ⟨packet, payload, read, -, accepted, -⟩
  obtain rfl := Except.ok.inj (broken.symm.trans read)
  cases refused.symm.trans accepted

end Amqpgram
