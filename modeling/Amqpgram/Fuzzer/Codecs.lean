import Amqpgram.Fuzzer.Utils

/-! The readers and writers of utils.c as pairs. A field is the big-endian writing
of an unsigned number; what a reader makes of that number, and not the memory
around it, decides whether a pair is inverse. -/
namespace Amqpgram

inductive Codec where
  | short
  | int
  | long
  deriving DecidableEq, Repr

def Codec.width : Codec → Nat
  | .short => 2
  | .int => 4
  | .long => 8

def Codec.read : Codec → Memory → Nat → Except Fault Int
  | .short => charInShort
  | .int => charInInt
  | .long => charInLong

def Codec.write : Codec → List UInt8 → Int → Nat → Nat → List UInt8
  | .short => shortInChar
  | .int => intInChar
  | .long => longInChar

/-- A call of a reader. The index is an `int`, and so is the index of the last octet. -/
def Codec.readAt (c : Codec) (src : List UInt8) (index : Nat) : Except Fault Int := do
  let _ ← cint ((index : Int) + (c.width - 1))
  c.read (bufferMemory src) index

/-- A call of a writer with the length of its destination; `index + width` is an `int`. -/
def Codec.writeAt (c : Codec) (dst : List UInt8) (src : Int) (index : Nat) :
    Except Fault (List UInt8) := do
  let _ ← cint ((index : Int) + c.width)
  pure (c.write dst src index dst.length)

/-! ### What a reader makes of a field -/

/-- The two halves of a 32-bit field, read as signed, add up with a borrow. -/
def intField (u : Nat) : Int :=
  wrapSigned 32 (wrapSigned 16 (u / 65536 : Nat) * 65536 + wrapSigned 16 (u % 65536 : Nat))

def Codec.decode : Codec → Nat → Int
  | .short, u => wrapSigned 16 u
  | .int, u => intField u
  | .long, u => wrapSigned 64
      (intField (u / 4294967296) * 4294967296 + intField (u % 4294967296))

/-- No 16-bit part behind the first has its top bit set. -/
def Codec.Exact : Codec → Nat → Prop
  | .short, _ => True
  | .int, u => u % 65536 < 32768
  | .long, u => u % 65536 < 32768 ∧ u / 65536 % 65536 < 32768 ∧ u / 4294967296 % 65536 < 32768

instance (c : Codec) (u : Nat) : Decidable (c.Exact u) := by
  cases c <;> unfold Codec.Exact <;> infer_instance

theorem wrapSigned_sixteen (x : Int) :
    wrapSigned 16 x = if x % 65536 < 32768 then x % 65536 else x % 65536 - 65536 := by
  simp [wrapSigned, Int.bmod]

theorem wrapSigned_thirtyTwo (x : Int) : wrapSigned 32 x =
    if x % 4294967296 < 2147483648 then x % 4294967296 else x % 4294967296 - 4294967296 := by
  simp [wrapSigned, Int.bmod]

theorem intField_mod (u : Nat) : intField u % 4294967296 =
    ((u : Int) - if u % 65536 < 32768 then 0 else 65536) % 4294967296 := by
  have whole := wrapSigned_emod 32
    (wrapSigned 16 (u / 65536 : Nat) * 65536 + wrapSigned 16 (u % 65536 : Nat))
  have high := wrapSigned_emod 16 (u / 65536 : Nat)
  have low := wrapSigned_sixteen (u % 65536 : Nat)
  unfold intField
  generalize wrapSigned 16 (u / 65536 : Nat) = h at whole high ⊢
  generalize wrapSigned 16 (u % 65536 : Nat) = l at whole low ⊢
  norm_num at whole high
  rw [whole]
  split at low <;> split <;> omega

theorem intField_range (u : Nat) : -2147483648 ≤ intField u ∧ intField u < 2147483648 := by
  unfold intField
  rw [wrapSigned_thirtyTwo]
  split <;> omega

/-- The borrows of the two halves never cancel. -/
theorem longField_exact {hi lo : Nat} (low : lo < 4294967296) (high : hi < 4294967296) :
    (intField hi * 4294967296 + intField lo) % 18446744073709551616 =
        (hi : Int) * 4294967296 + lo ↔
      lo % 65536 < 32768 ∧ lo / 65536 % 65536 < 32768 ∧ hi % 65536 < 32768 := by
  have highField := intField_mod hi
  have lowField := intField_mod lo
  have range := intField_range lo
  generalize intField hi = h at highField ⊢
  generalize intField lo = l at lowField range ⊢
  split at highField <;> split at lowField <;> omega

theorem decode_mod {c : Codec} {u : Nat} (word : u < 2 ^ (8 * c.width)) :
    c.decode u % 2 ^ (8 * c.width) = u ↔ c.Exact u := by
  cases c with
  | short =>
    have same := wrapSigned_emod 16 u
    simp only [Codec.decode, Codec.width, Codec.Exact, iff_true]
    norm_num [Codec.width] at same word ⊢
    omega
  | int =>
    have same := intField_mod u
    simp only [Codec.decode, Codec.width, Codec.Exact]
    norm_num [Codec.width] at word ⊢
    split at same <;> omega
  | long =>
    have whole := wrapSigned_emod 64
      (intField (u / 4294967296) * 4294967296 + intField (u % 4294967296))
    have lowest : u % 4294967296 % 65536 = u % 65536 := Nat.mod_mod_of_dvd u (by decide)
    have middle : u % 4294967296 / 65536 = u / 65536 % 65536 :=
      Nat.mod_mul_right_div_self u 65536 65536
    have cut : ((u / 4294967296 : Nat) : Int) * 4294967296 + (u % 4294967296 : Nat) = u := by
      exact_mod_cast Nat.div_add_mod' u 4294967296
    have high : u / 4294967296 < 4294967296 := Nat.div_lt_of_lt_mul word
    have exact := longField_exact (Nat.mod_lt u (by decide : 0 < 4294967296)) high
    rw [cut, lowest, middle, Nat.mod_mod] at exact
    norm_num at whole
    simp only [Codec.decode, Codec.width, Codec.Exact]
    norm_num
    rw [whole, exact]

/-! ### Reading a field in a buffer -/

section
variable (pre post : List UInt8) {field : List UInt8}

theorem charInShort_window (two : field.length = 2) :
    charInShort (bufferMemory (pre ++ field ++ post)) pre.length =
      .ok (wrapSigned 16 (Words.value field)) := by
  match field, two with
  | [a, b], _ =>
    simp [charInShort, readByte, bufferMemory, bind, Except.bind, pure, Except.pure]

theorem halves {w : Nat} (double : field.length = 2 * w) :
    ∃ high low, field = high ++ low ∧ high.length = w ∧ low.length = w ∧
      Words.value field / 256 ^ w = Words.value high ∧
      Words.value field % 256 ^ w = Words.value low := by
  have low := Words.value_lt (field.drop w)
  have cut := Words.value_append (field.take w) (field.drop w)
  rw [List.length_drop, double] at low
  rw [List.take_append_drop, List.length_drop, double] at cut
  have rest : 2 * w - w = w := by omega
  rw [rest] at low cut
  refine ⟨field.take w, field.drop w, (List.take_append_drop w field).symm, ?_, ?_, ?_, ?_⟩
  · rw [List.length_take]
    omega
  · rw [List.length_drop]
    omega
  · rw [cut, Nat.add_comm, Nat.add_mul_div_right _ _ (by positivity), Nat.div_eq_of_lt low,
      Nat.zero_add]
  · rw [cut, Nat.mul_add_mod_self_right, Nat.mod_eq_of_lt low]

theorem charInInt_window (four : field.length = 4) :
    charInInt (bufferMemory (pre ++ field ++ post)) pre.length =
      .ok (intField (Words.value field)) := by
  obtain ⟨high, low, rfl, first, second, quotient, remainder⟩ := halves (w := 2) four
  have readHigh := charInShort_window pre (low ++ post) first
  have readLow := charInShort_window (pre ++ high) post second
  simp only [List.append_assoc, List.length_append, first] at readHigh readLow ⊢
  norm_num at quotient remainder
  rw [charInInt, readHigh, ok_bind, readLow, ok_bind, intField, quotient, remainder]
  rfl

theorem charInLong_window (eight : field.length = 8) :
    charInLong (bufferMemory (pre ++ field ++ post)) pre.length =
      .ok (Codec.long.decode (Words.value field)) := by
  obtain ⟨high, low, rfl, first, second, quotient, remainder⟩ := halves (w := 4) eight
  have readHigh := charInInt_window pre (low ++ post) first
  have readLow := charInInt_window (pre ++ high) post second
  simp only [List.append_assoc, List.length_append, first] at readHigh readLow ⊢
  norm_num at quotient remainder
  rw [charInLong, readHigh, ok_bind, readLow, ok_bind, Codec.decode, quotient, remainder]
  rfl

/-- A reader depends on the field at its index and on nothing else. -/
theorem Codec.read_window (c : Codec) (long : field.length = c.width) :
    c.read (bufferMemory (pre ++ field ++ post)) pre.length =
      .ok (c.decode (Words.value field)) := by
  cases c with
  | short => exact charInShort_window pre post long
  | int => exact charInInt_window pre post long
  | long => exact charInLong_window pre post long

end

/-! ### Reading back and writing back -/

/-- The values of the signed type of a codec. -/
def Codec.Signed (c : Codec) (v : Int) : Prop :=
  -(2 : Int) ^ (8 * c.width) ≤ 2 * v ∧ 2 * v < (2 : Int) ^ (8 * c.width)

/-- What the writer stored at the index is read as the value it was given. -/
def Codec.ReadsBack (c : Codec) (buffer : List UInt8) (index : Nat) (v : Int) : Prop :=
  (c.writeAt buffer v index >>= fun written => c.readAt written index) = .ok v

/-- Storing what was read at the index changes nothing. -/
def Codec.WritesBack (c : Codec) (buffer : List UInt8) (index : Nat) : Prop :=
  (c.readAt buffer index >>= fun v => c.writeAt buffer v index) = .ok buffer

theorem Codec.write_eq (c : Codec) {buffer : List UInt8} {index : Nat} (v : Int)
    (fits : index + c.width ≤ buffer.length) :
    c.write buffer v index buffer.length = buffer.take index ++
      Words.bytes c.width (wrapUnsigned (8 * c.width) v) ++ buffer.drop (index + c.width) := by
  cases c <;> exact inChar_eq _ _ _ _ _ fits rfl

theorem wrapSigned_wrapSigned (n : Nat) (x : Int) :
    wrapSigned n (wrapSigned n x) = wrapSigned n x := Int.bmod_bmod

theorem Codec.decode_wrapped (c : Codec) (u : Nat) :
    wrapSigned (8 * c.width) (c.decode u) = c.decode u := by
  cases c <;> simp only [Codec.width, Codec.decode, intField, Nat.reduceMul,
    wrapSigned_wrapSigned]

theorem decode_signed {c : Codec} {v : Int} (signed : c.Signed v) :
    c.decode (wrapUnsigned (8 * c.width) v) = v ↔ c.Exact (wrapUnsigned (8 * c.width) v) := by
  rw [← decode_mod (wrapUnsigned_lt _ v), wrapUnsigned_emod]
  constructor
  · exact congrArg fun x => x % 2 ^ (8 * c.width)
  · intro same
    calc c.decode (wrapUnsigned (8 * c.width) v)
        = wrapSigned (8 * c.width) (c.decode (wrapUnsigned (8 * c.width) v)) :=
          (c.decode_wrapped _).symm
      _ = wrapSigned (8 * c.width) v := wrapSigned_congr same
      _ = v := wrapSigned_of_range signed.1 signed.2

section
variable {buffer : List UInt8} {index : Nat}

theorem Codec.index_fits (c : Codec) (room : (index : Int) + c.width ≤ intMax) :
    cint ((index : Int) + c.width) = .ok ((index : Int) + c.width) ∧
      cint ((index : Int) + (c.width - 1)) = .ok ((index : Int) + (c.width - 1)) := by
  have wide : 1 ≤ c.width := by cases c <;> decide
  unfold intMax at room
  exact ⟨cint_of_range (by omega) room, cint_of_range (by omega) (by omega)⟩

theorem Codec.stored_lt (c : Codec) (v : Int) : wrapUnsigned (8 * c.width) v < 256 ^ c.width := by
  have small := wrapUnsigned_lt (8 * c.width) v
  rwa [Nat.pow_mul] at small

theorem Codec.readsBack_iff (c : Codec) (fits : index + c.width ≤ buffer.length) {v : Int}
    (signed : c.Signed v) : c.ReadsBack buffer index v ↔
      (index : Int) + c.width ≤ intMax ∧ c.Exact (wrapUnsigned (8 * c.width) v) := by
  unfold ReadsBack writeAt
  by_cases room : (index : Int) + c.width ≤ intMax
  · obtain ⟨sum, last⟩ := c.index_fits room
    have read := c.read_window (buffer.take index) (buffer.drop (index + c.width))
      (Words.length_bytes c.width (wrapUnsigned (8 * c.width) v))
    rw [List.length_take_of_le (by omega), Words.value_bytes_of_lt (c.stored_lt v)] at read
    rw [sum, ok_bind, c.write_eq v fits]
    simp only [pure, Except.pure, ok_bind, readAt, last, read, Except.ok.injEq, room, true_and]
    exact decode_signed signed
  · rw [cint_overflow (Int.not_le.mp room), error_bind, error_bind]
    simp [room]

def fieldAt (buffer : List UInt8) (index width : Nat) : List UInt8 :=
  (buffer.drop index).take width

theorem cut_fieldAt (buffer : List UInt8) (index width : Nat) :
    buffer.take index ++ fieldAt buffer index width ++ buffer.drop (index + width) = buffer := by
  rw [fieldAt, List.append_assoc, ← List.drop_drop, List.take_append_drop, List.take_append_drop]

section
variable {c : Codec} (fits : index + c.width ≤ buffer.length)
include fits

theorem length_fieldAt : (fieldAt buffer index c.width).length = c.width := by
  rw [fieldAt, List.length_take, List.length_drop]
  omega

theorem stored_iff (v : Int) : c.write buffer v index buffer.length = buffer ↔
    wrapUnsigned (8 * c.width) v = Words.value (fieldAt buffer index c.width) := by
  have back := Words.bytes_value (fieldAt buffer index c.width)
  rw [length_fieldAt fits] at back
  rw [c.write_eq v fits]
  constructor
  · intro same
    have cut := (cut_fieldAt buffer index c.width).symm
    have stored : Words.bytes c.width (wrapUnsigned (8 * c.width) v) =
        fieldAt buffer index c.width :=
      List.append_cancel_left (List.append_cancel_right (same.trans cut))
    rw [← stored, Words.value_bytes_of_lt (c.stored_lt v)]
  · intro same
    rw [same, back, cut_fieldAt]

end

theorem Codec.writesBack_iff (c : Codec) (fits : index + c.width ≤ buffer.length) :
    c.WritesBack buffer index ↔
      (index : Int) + c.width ≤ intMax ∧ c.Exact (Words.value (fieldAt buffer index c.width)) := by
  have read := c.read_window (buffer.take index) (buffer.drop (index + c.width))
    (length_fieldAt fits)
  rw [cut_fieldAt, List.length_take_of_le (by omega)] at read
  have word := Words.value_lt (fieldAt buffer index c.width)
  rw [length_fieldAt fits, show (256 : Nat) = 2 ^ 8 from rfl, ← Nat.pow_mul] at word
  unfold WritesBack readAt writeAt
  by_cases room : (index : Int) + c.width ≤ intMax
  · obtain ⟨sum, last⟩ := c.index_fits room
    rw [last, ok_bind, read, ok_bind, sum, ok_bind]
    simp only [pure, Except.pure, Except.ok.injEq, room, true_and]
    rw [stored_iff fits, ← decode_mod word, ← wrapUnsigned_emod]
    exact Int.natCast_inj.symm
  · have exceeds := cint_overflow (Int.not_le.mp room)
    simp only [exceeds, room, false_and, iff_false]
    intro written
    obtain ⟨_, _, written⟩ := bind_eq_ok.mp written
    cases written

/-- Each pair is inverse, in both directions, exactly on the fields without a borrow
and the indices whose sum with the width is an `int`. -/
theorem codecs_inverse_iff (c : Codec) (buffer : List UInt8) (index : Nat)
    (fits : index + c.width ≤ buffer.length) :
    (∀ v, c.Signed v → (c.ReadsBack buffer index v ↔ (index : Int) + c.width ≤ intMax ∧
      c.Exact (wrapUnsigned (8 * c.width) v))) ∧
    (c.WritesBack buffer index ↔ (index : Int) + c.width ≤ intMax ∧
      c.Exact (Words.value (fieldAt buffer index c.width))) :=
  ⟨fun _ signed => c.readsBack_iff fits signed, c.writesBack_iff fits⟩

theorem codecs_inverse_iff_half : Codec.int.ReadsBack [9, 0, 0, 0, 0] 1 32767 :=
  ((codecs_inverse_iff .int [9, 0, 0, 0, 0] 1 (by decide)).1 32767
    ⟨by decide, by decide⟩).mpr ⟨by decide, by decide⟩

end

/-- A value whose low half has its top bit set comes back less 65536. -/
theorem int_borrows :
    (Codec.int.writeAt [0, 0, 0, 0] 40000 0 >>= fun written => Codec.int.readAt written 0) =
      .ok (-25536) ∧ ¬ Codec.int.ReadsBack [0, 0, 0, 0] 0 40000 := by
  have read : (Codec.int.writeAt [0, 0, 0, 0] 40000 0 >>=
      fun written => Codec.int.readAt written 0) = .ok (-25536) := by decide +kernel
  refine ⟨read, ?_⟩
  unfold Codec.ReadsBack
  rw [read]
  decide

end Amqpgram
