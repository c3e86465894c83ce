import Mathlib.Data.Char
import Mathlib.Data.List.Flatten

/-! Well-formed UTF-8, as the encodings of Unicode scalar values one behind the other.
Overlong forms, surrogates and values above U+10FFFF are the encoding of no character;
the lemmas below say which sequences of two to four octets are one. -/

namespace Utf8

def WellFormed (w : List UInt8) : Prop := ∃ cs : List Char, w = cs.flatMap String.utf8EncodeChar

theorem wellFormed_nil : WellFormed [] := ⟨[], rfl⟩

theorem wellFormed_char (c : Char) : WellFormed (String.utf8EncodeChar c) := ⟨[c], by simp⟩

theorem WellFormed.append {u v : List UInt8} (first : WellFormed u) (second : WellFormed v) :
    WellFormed (u ++ v) := by
  obtain ⟨cs, rfl⟩ := first
  obtain ⟨ds, rfl⟩ := second
  exact ⟨cs ++ ds, by simp⟩

theorem exists_char {v : Nat} (valid : v.isValidChar) : ∃ c : Char, c.val.toNat = v :=
  ⟨Char.ofNatAux v valid, rfl⟩

theorem octet_eq {n : Nat} {b : UInt8} (same : n = b.toNat) : UInt8.ofNat n = b := by
  rw [same, UInt8.ofNat_toNat]

section
variable {a b c d : UInt8}

/-- A continuation octet. -/
def Tail (b : UInt8) : Prop := 0x80 ≤ b.toNat ∧ b.toNat ≤ 0xBF

theorem encode_one (ascii : a.toNat ≤ 0x7F) :
    ∃ ch : Char, ch.val.toNat = a.toNat ∧ String.utf8EncodeChar ch = [a] := by
  obtain ⟨ch, value⟩ := exists_char (v := a.toNat) (.inl (by omega))
  refine ⟨ch, value, ?_⟩
  simp only [String.utf8EncodeChar, value, ascii, if_true]
  rw [octet_eq rfl]

theorem encode_two (first : 0xC2 ≤ a.toNat ∧ a.toNat ≤ 0xDF) (tail : Tail b) :
    ∃ ch : Char, 0x80 ≤ ch.val.toNat ∧ String.utf8EncodeChar ch = [a, b] := by
  obtain ⟨lower, upper⟩ := tail
  obtain ⟨v, number⟩ : ∃ v, v = (a.toNat - 0xC0) * 64 + (b.toNat - 0x80) := ⟨_, rfl⟩
  obtain ⟨ch, value⟩ := exists_char (v := v) (.inl (by omega))
  refine ⟨ch, by omega, ?_⟩
  simp only [String.utf8EncodeChar, value]
  rw [if_neg (by omega), if_pos (by omega), octet_eq (b := a) (by omega),
    octet_eq (b := b) (by omega)]

theorem encode_three (first : 0xE0 ≤ a.toNat ∧ a.toNat ≤ 0xEF) (second : Tail b) (third : Tail c)
    (least : 0x800 ≤ (a.toNat - 0xE0) * 4096 + (b.toNat - 0x80) * 64)
    (scalar : (a.toNat - 0xE0) * 4096 + (b.toNat - 0x80) * 64 < 0xD800 ∨
      0xE000 ≤ (a.toNat - 0xE0) * 4096 + (b.toNat - 0x80) * 64) :
    ∃ ch : Char, 0x80 ≤ ch.val.toNat ∧ String.utf8EncodeChar ch = [a, b, c] := by
  obtain ⟨lower2, upper2⟩ := second
  obtain ⟨lower3, upper3⟩ := third
  obtain ⟨v, number⟩ : ∃ v, v = (a.toNat - 0xE0) * 4096 + (b.toNat - 0x80) * 64 +
    (c.toNat - 0x80) := ⟨_, rfl⟩
  have valid : v.isValidChar := by
    rcases scalar with small | large
    · exact .inl (by omega)
    · exact .inr ⟨by omega, by omega⟩
  obtain ⟨ch, value⟩ := exists_char valid
  refine ⟨ch, by omega, ?_⟩
  simp only [String.utf8EncodeChar, value]
  rw [if_neg (by omega), if_neg (by omega), if_pos (by omega), octet_eq (b := a) (by omega),
    octet_eq (b := b) (by omega), octet_eq (b := c) (by omega)]

theorem encode_four (first : 0xF0 ≤ a.toNat ∧ a.toNat ≤ 0xF4) (second : Tail b) (third : Tail c)
    (fourth : Tail d)
    (least : 0x10000 ≤ (a.toNat - 0xF0) * 262144 + (b.toNat - 0x80) * 4096)
    (most : (a.toNat - 0xF0) * 262144 + (b.toNat - 0x80) * 4096 < 0x110000) :
    ∃ ch : Char, 0x80 ≤ ch.val.toNat ∧ String.utf8EncodeChar ch = [a, b, c, d] := by
  obtain ⟨lower2, upper2⟩ := second
  obtain ⟨lower3, upper3⟩ := third
  obtain ⟨lower4, upper4⟩ := fourth
  obtain ⟨v, number⟩ : ∃ v, v = (a.toNat - 0xF0) * 262144 + (b.toNat - 0x80) * 4096 +
    (c.toNat - 0x80) * 64 + (d.toNat - 0x80) := ⟨_, rfl⟩
  have valid : v.isValidChar := .inr ⟨by omega, by omega⟩
  obtain ⟨ch, value⟩ := exists_char valid
  refine ⟨ch, by omega, ?_⟩
  simp only [String.utf8EncodeChar, value]
  rw [if_neg (by omega), if_neg (by omega), if_neg (by omega), octet_eq (b := a) (by omega),
    octet_eq (b := b) (by omega), octet_eq (b := c) (by omega), octet_eq (b := d) (by omega)]

end

theorem octet_ne_zero {n : Nat} (other : n % 256 ≠ 0) : 0 ≠ UInt8.ofNat n := by
  intro zero
  have number := congrArg UInt8.toNat zero
  simp only [UInt8.toNat_ofNat'] at number
  exact other number.symm

/-- Only NUL has an octet 0 in its encoding. -/
theorem zero_not_mem {ch : Char} (other : ch.val.toNat ≠ 0) : 0 ∉ String.utf8EncodeChar ch := by
  simp only [String.utf8EncodeChar]
  split
  · simpa using octet_ne_zero (n := ch.val.toNat) (by omega)
  split
  · simp only [List.mem_cons, List.not_mem_nil, or_false, not_or]
    exact ⟨octet_ne_zero (by omega), octet_ne_zero (by omega)⟩
  split
  · simp only [List.mem_cons, List.not_mem_nil, or_false, not_or]
    exact ⟨octet_ne_zero (by omega), octet_ne_zero (by omega), octet_ne_zero (by omega)⟩
  · simp only [List.mem_cons, List.not_mem_nil, or_false, not_or]
    exact ⟨octet_ne_zero (by omega), octet_ne_zero (by omega), octet_ne_zero (by omega),
      octet_ne_zero (by omega)⟩

end Utf8
