import Mathlib.Data.List.DropRight
import Amqpgram.Library.Buffers
import Amqpgram.Grammar.Loading

/-! trim_string on the memory that holds its string: the terminator it writes and the
part it moves, whatever stands behind the string. -/
namespace Amqpgram
open Buffers (Overrun poke move cstring)

def nul : Char := Char.ofNat 0

/-- `behind` is `end + 1`, so that the count `end - start + 2` is `behind + 1 - start`. -/
def trimBuffer (str : List Char) : Except Overrun (List Char) := do
  let start := (str.takeWhile isBlank).length
  let behind := trimEnd str start (cstring nul str).length
  let str ← poke str behind nul
  if 0 < start then move str 0 start (behind + 1 - start) else pure str

/-- A text without its longest prefix and its longest suffix of blanks. -/
def stripped (s : CString) : CString := (s.dropWhile isBlank).rdropWhile isBlank

/-- A text cut into blanks, what `trim_string` keeps and blanks. -/
structure Padded (left kept right : CString) : Prop where
  left_blank : ∀ c ∈ left, isBlank c = true
  right_blank : ∀ c ∈ right, isBlank c = true
  kept_trimmed : Trimmed kept ∨ kept = [] ∧ right = []

theorem stripped_trimmed {s : CString} (nonempty : stripped s ≠ []) : Trimmed (stripped s) where
  nonempty := nonempty
  first := by
    intro c first
    have cut : stripped s ++ (s.dropWhile isBlank).rtakeWhile isBlank = s.dropWhile isBlank :=
      List.rdropWhile_append_rtakeWhile
    have head : (s.dropWhile isBlank).head? = some c := by
      rw [← cut, List.head?_append_of_ne_nil _ nonempty]
      exact first
    have stop := List.head?_dropWhile_not isBlank s
    rw [head] at stop
    simpa using stop
  last := by
    intro c last
    have stop := List.rdropWhile_last_not isBlank (s.dropWhile isBlank) nonempty
    have same : (stripped s).getLast nonempty = c := by
      rw [List.getLast?_eq_some_getLast nonempty] at last
      exact Option.some.inj last
    simpa [← same, stripped] using stop

theorem exists_padded (s : CString) : ∃ left right, Padded left (stripped s) right ∧
    s = left ++ stripped s ++ right := by
  have cut : stripped s ++ (s.dropWhile isBlank).rtakeWhile isBlank = s.dropWhile isBlank :=
    List.rdropWhile_append_rtakeWhile
  refine ⟨s.takeWhile isBlank, (s.dropWhile isBlank).rtakeWhile isBlank, ⟨?_, ?_, ?_⟩, ?_⟩
  · exact fun c => List.mem_takeWhile_imp
  · exact fun c => List.mem_rtakeWhile_imp
  · by_cases empty : stripped s = []
    · have blank := List.rdropWhile_eq_nil_iff.mp empty
      have all : s.dropWhile isBlank = [] := by
        rw [List.dropWhile_eq_nil_iff]
        intro c member
        rw [← List.takeWhile_append_dropWhile (p := isBlank) (l := s)] at member
        rcases List.mem_append.mp member with front | back
        · exact List.mem_takeWhile_imp front
        · exact blank c back
      exact .inr ⟨empty, by simp [all]⟩
    · exact .inl (stripped_trimmed empty)
  · rw [List.append_assoc, cut, List.takeWhile_append_dropWhile]

namespace Padded
variable {left kept right : CString}

theorem trimString_eq (h : Padded left kept right) : trimString (left ++ kept ++ right) = kept := by
  rcases h.kept_trimmed with trimmed | ⟨rfl, rfl⟩
  · exact trimString_padded left right trimmed h.left_blank h.right_blank
  · have whole := List.takeWhile_eq_self_iff.mpr h.left_blank
    simp [trimString, whole]

section
variable (h : Padded left kept right) (rest : List Char)
include h

theorem start_eq : (left ++ kept ++ right ++ nul :: rest).takeWhile isBlank = left := by
  rcases h.kept_trimmed with trimmed | ⟨rfl, rfl⟩
  · rw [List.append_assoc _ right]
    exact takeWhile_blank left _ h.left_blank trimmed
  · have stop : isBlank nul = false := by decide
    simp [List.takeWhile_append_of_pos h.left_blank, stop]

theorem end_eq : trimEnd (left ++ kept ++ right ++ nul :: rest) left.length
    (left ++ kept ++ right).length = (left ++ kept).length := by
  rcases h.kept_trimmed with trimmed | ⟨rfl, rfl⟩
  · exact trimEnd_padded left right trimmed h.right_blank _
  · cases left <;> simp [trimEnd]

/-- The terminator stands behind what is kept before anything is moved. -/
theorem trimBuffer_poke (text : nul ∉ left ++ kept ++ right) :
    trimBuffer (left ++ kept ++ right ++ nul :: rest) =
      let str := left ++ kept ++ nul :: (right ++ nul :: rest).drop 1
      if 0 < left.length then move str 0 left.length (kept.length + 1) else .ok str := by
  have scanned := h.end_eq rest
  have inside : (left ++ kept).length < (left ++ kept ++ right ++ nul :: rest).length := by
    simp only [List.length_append, List.length_cons]
    omega
  have count : (left ++ kept).length + 1 - left.length = kept.length + 1 := by
    rw [List.length_append]
    omega
  have poked : (left ++ kept ++ right ++ nul :: rest).set (left ++ kept).length nul =
      left ++ kept ++ nul :: (right ++ nul :: rest).drop 1 := by
    rw [List.append_assoc _ right, List.set_append_right _ _ (Nat.le_refl _), Nat.sub_self]
    cases right <;> rfl
  simp only [trimBuffer, h.start_eq, Buffers.cstring_append text, scanned, poke, if_pos inside,
    poked, count]
  rfl

end

theorem trimBuffer_eq (h : Padded left kept right) (text : nul ∉ left ++ kept ++ right)
    (rest : List Char) : ∃ tail,
      trimBuffer (left ++ kept ++ right ++ nul :: rest) = .ok (kept ++ nul :: tail) ∧
      (kept ++ nul :: tail).length = (left ++ kept ++ right ++ nul :: rest).length := by
  rw [h.trimBuffer_poke rest text]
  have length : (left ++ kept ++ nul :: (right ++ nul :: rest).drop 1).length =
      (left ++ kept ++ right ++ nul :: rest).length := by
    simp only [List.length_append, List.length_cons, List.length_drop]
    omega
  by_cases moved : 0 < left.length
  · generalize (right ++ nul :: rest).drop 1 = tail at length ⊢
    have room : left.length + (kept.length + 1) ≤ (left ++ kept ++ nul :: tail).length := by
      simp only [List.length_append, List.length_cons]
      omega
    have source : ((left ++ kept ++ nul :: tail).drop left.length).take (kept.length + 1) =
        kept ++ [nul] := by
      simp [List.append_assoc, List.take_append]
    refine ⟨(left ++ kept ++ nul :: tail).drop (kept.length + 1), ?_, ?_⟩
    · dsimp only
      rw [if_pos moved, Buffers.move_ok room (by omega), source]
      simp [Blocks.splice]
    · rw [← length]
      simp only [List.length_append, List.length_cons, List.length_drop]
      omega
  · obtain rfl : left = [] := List.length_eq_zero_iff.mp (by omega)
    exact ⟨_, if_neg moved, length⟩

theorem trimBuffer_kept (h : Padded left kept right) (text : nul ∉ kept) (rest : List Char) :
    trimBuffer (kept ++ nul :: rest) = .ok (kept ++ nul :: rest) := by
  have bare : Padded [] kept [] :=
    ⟨by simp, by simp, h.kept_trimmed.imp_right fun empty => ⟨empty.1, rfl⟩⟩
  have poked := bare.trimBuffer_poke rest (by simpa using text)
  simpa using poked

end Padded

/-- trim_string leaves the stripped text, and leaves that alone the next time. -/
theorem trim_string {s : CString} (text : nul ∉ s) (rest : List Char) : ∃ out,
    trimBuffer (s ++ nul :: rest) = .ok out ∧ cstring nul out = stripped s ∧
      out.length = (s ++ nul :: rest).length ∧ trimBuffer out = .ok out ∧
      trimString s = stripped s := by
  obtain ⟨left, right, padded, cut⟩ := exists_padded s
  have inner : nul ∉ stripped s := by
    intro member
    rw [cut] at text
    simp [member] at text
  generalize stripped s = kept at padded cut inner ⊢
  subst cut
  obtain ⟨tail, trimmed, length⟩ := padded.trimBuffer_eq text rest
  exact ⟨kept ++ nul :: tail, trimmed, Buffers.cstring_append inner tail, length,
    padded.trimBuffer_kept inner tail, padded.trimString_eq⟩

theorem trim_string_blanks : ∃ out,
    trimBuffer (cstr " \t key \r\n" ++ nul :: cstr "=") = .ok out ∧
      cstring nul out = stripped (cstr " \t key \r\n") ∧
      out.length = (cstr " \t key \r\n" ++ nul :: cstr "=").length ∧
      trimBuffer out = .ok out ∧
      trimString (cstr " \t key \r\n") = stripped (cstr " \t key \r\n") :=
  trim_string (by decide) (cstr "=")

example : stripped (cstr " \t key \r\n") = cstr "key" ∧ stripped (cstr " \n\t ") = [] := by decide

end Amqpgram
