import Amqpgram.Fuzzer.Codecs

/-! The writers of utils.c octet by octet. The bound that they test first is the sum of
two values of type `int`. -/

namespace Words

theorem getElem?_bytes {w k : Nat} (inside : k < w) (v : Nat) :
    (bytes w v)[k]? = some (UInt8.ofNat (v / 256 ^ (w - 1 - k))) := by
  induction w generalizing k with
  | zero => cases inside
  | succ w ih =>
    cases k with
    | zero => rfl
    | succ k =>
      rw [bytes_succ, List.getElem?_cons_succ, ih (by omega)]
      congr 4
      omega

end Words

namespace Amqpgram

/-- The octet of weight `256 ^ k` of a value in two's complement. -/
def twosOctet (v : Int) (k : Nat) : UInt8 := UInt8.ofNat (v / 256 ^ k % 256).toNat

/-- Where the field fits, its octets are those of the value, the most significant first,
and the others are what they were; elsewhere the writer changes nothing. -/
def Codec.Stores (c : Codec) (dst : List UInt8) (v : Int) (index : Nat) : Prop :=
  ∃ out, c.writeAt dst v index = .ok out ∧
    if index + c.width ≤ dst.length then
      (∀ k < c.width, out[index + k]? = some (twosOctet v (c.width - 1 - k))) ∧
      (∀ i, i < index ∨ index + c.width ≤ i → out[i]? = dst[i]?) ∧ out.length = dst.length
    else out = dst

/-- An octet of the value as it is stored, an unsigned number of the width. -/
theorem stored_octet (v : Int) {j w : Nat} (inside : j < w) :
    UInt8.ofNat (wrapUnsigned (8 * w) v / 256 ^ j) = twosOctet v j := by
  obtain ⟨l, rfl⟩ : ∃ l, w = j + (l + 1) := ⟨w - j - 1, by omega⟩
  have word : ((2 : Int) ^ (8 * (j + (l + 1)))) = 256 ^ j * (256 * 256 ^ l) := by
    rw [pow_mul, pow_add, pow_succ' _ l]
    norm_num
  have stored := wrapUnsigned_emod (8 * (j + (l + 1))) v
  generalize wrapUnsigned (8 * (j + (l + 1))) v = u at stored ⊢
  have whole : v = 256 ^ j * (256 * 256 ^ l * (v / 2 ^ (8 * (j + (l + 1))))) + u := by
    rw [stored, word, ← mul_assoc, Int.mul_ediv_add_emod]
  have shifted : v / 256 ^ j = 256 * (256 ^ l * (v / 2 ^ (8 * (j + (l + 1))))) +
      ((u / 256 ^ j : Nat) : Int) := by
    conv_lhs => rw [whole]
    rw [Int.mul_add_ediv_left _ _ (by positivity)]
    push_cast
    ring
  rw [twosOctet, shifted]
  apply UInt8.toNat_inj.mp
  rw [UInt8.toNat_ofNat', UInt8.toNat_ofNat']
  omega

section
variable (c : Codec) {dst : List UInt8} {index : Nat} (v : Int)

theorem Codec.write_fits (fits : index + c.width ≤ dst.length) :
    (∀ k < c.width, (c.write dst v index dst.length)[index + k]? =
      some (twosOctet v (c.width - 1 - k))) ∧
    (∀ i, i < index ∨ index + c.width ≤ i → (c.write dst v index dst.length)[i]? = dst[i]?) ∧
    (c.write dst v index dst.length).length = dst.length := by
  have before : (dst.take index).length = index := List.length_take_of_le (by omega)
  have field := Words.length_bytes c.width (wrapUnsigned (8 * c.width) v)
  rw [c.write_eq v fits, List.append_assoc]
  refine ⟨?_, ?_, ?_⟩
  · intro k inside
    rw [List.getElem?_append_right (by omega), before, Nat.add_sub_cancel_left,
      List.getElem?_append_left (by omega), Words.getElem?_bytes inside,
      stored_octet v (by omega)]
  · rintro i (left | right)
    · rw [List.getElem?_append_left (by omega), List.getElem?_take_of_lt left]
    · rw [List.getElem?_append_right (by omega), List.getElem?_append_right (by omega),
        List.getElem?_drop, before, field]
      congr 1
      omega
  · simp only [List.length_append, before, field, List.length_drop]
    omega

theorem Codec.write_outside (outside : dst.length < index + c.width) :
    c.write dst v index dst.length = dst := by
  cases c <;> exact if_pos outside

end

/-- The field is stored, or left alone, wherever the bound is an `int`. -/
theorem stores_iff (c : Codec) (dst : List UInt8) (v : Int) (index : Nat) :
    c.Stores dst v index ↔ (index : Int) + c.width ≤ intMax := by
  constructor
  · rintro ⟨out, written, _⟩
    obtain ⟨_, sum, _⟩ := bind_eq_ok.mp written
    exact (cint_eq_ok.mp sum).2.2
  · intro room
    obtain ⟨sum, _⟩ := c.index_fits room
    refine ⟨c.write dst v index dst.length, by rw [Codec.writeAt, sum]; rfl, ?_⟩
    split
    · rename_i fits
      exact c.write_fits v fits
    · exact c.write_outside v (by omega)

/-- Eight octets at the end of a destination of two gigabytes: `index + 8` is 2147483648. -/
theorem last_octets_not_stored :
    Codec.long.writeAt (List.replicate 2147483648 0) 1 2147483640 = .error .overflow ∧
      ¬ Codec.long.Stores (List.replicate 2147483648 0) 1 2147483640 := by
  have overflow : cint (((2147483640 : Nat) : Int) + Codec.long.width) = .error .overflow :=
    cint_overflow (by decide)
  have failed : Codec.long.writeAt (List.replicate 2147483648 0) 1 2147483640 =
      .error .overflow := by
    rw [Codec.writeAt, overflow]
    rfl
  refine ⟨failed, ?_⟩
  rintro ⟨out, written, _⟩
  cases failed.symm.trans written

end Amqpgram
