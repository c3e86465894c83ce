import Mathlib.Data.List.Infix
import Mathlib.Data.Set.Basic

/-! Words that say where they end. A measure finds the length of the first word of a
stream once all of it is there; a reader that cuts words off by the measure then finds the
words a stream was put together from, and the beginning of a word that is left. -/
namespace Delimited
variable {α : Type}

/-- The measure finds each word of the code in front of anything, and nothing in front of
a word that is not complete. -/
structure Delimits (measure : List α → Option Nat) (code : Set (List α)) : Prop where
  empty : measure [] = none
  nonempty : ∀ w ∈ code, w ≠ []
  complete : ∀ w ∈ code, ∀ rest, measure (w ++ rest) = some w.length
  torn : ∀ w ∈ code, ∀ p, p <+: w → p ≠ w → measure p = none

/-- Words are cut off as long as the measure finds one. -/
def cut (measure : List α → Option Nat) : Nat → List α → List (List α) × List α
  | 0, stream => ([], stream)
  | turns + 1, stream =>
    match measure stream with
    | none => ([], stream)
    | some n =>
      let later := cut measure turns (stream.drop n)
      (stream.take n :: later.1, later.2)

/-- No word is empty, so there are no more turns than there are items. -/
def split (measure : List α → Option Nat) (stream : List α) : List (List α) × List α :=
  cut measure stream.length stream

/-- A stream of words of the code, the last of which need not be complete. -/
structure Reading (code : Set (List α)) (stream : List α) (words : List (List α))
    (torn : List α) : Prop where
  coded : ∀ w ∈ words, w ∈ code
  parts : stream = words.flatten ++ torn
  proper : torn = [] ∨ ∃ w ∈ code, torn <+: w ∧ torn ≠ w

section
variable {measure : List α → Option Nat} {code : Set (List α)} {stream torn w : List α}
variable {words : List (List α)}

theorem Reading.start : Reading code [] [] [] := ⟨by simp, rfl, .inl rfl⟩

theorem Reading.word (reading : Reading code stream words []) (coded : w ∈ code) :
    Reading code (stream ++ w) (words ++ [w]) [] := by
  refine ⟨?_, ?_, .inl rfl⟩
  · intro u member
    rcases List.mem_append.mp member with old | new
    · exact reading.coded u old
    · exact List.mem_singleton.mp new ▸ coded
  · simp [reading.parts]

theorem Reading.tear (reading : Reading code stream words []) (coded : w ∈ code) {n : Nat}
    (short : n < w.length) : Reading code (stream ++ w.take n) words (w.take n) := by
  refine ⟨reading.coded, by simp [reading.parts], .inr ⟨w, coded, List.take_prefix n w, ?_⟩⟩
  intro whole
  have lengths := congrArg List.length whole
  rw [List.length_take] at lengths
  omega

theorem Delimits.measure_torn (delimits : Delimits measure code)
    (proper : torn = [] ∨ ∃ w ∈ code, torn <+: w ∧ torn ≠ w) : measure torn = none := by
  rcases proper with rfl | ⟨w, coded, front, apart⟩
  · exact delimits.empty
  · exact delimits.torn w coded torn front apart

/-- The induction is on the words, each of which takes a turn. -/
theorem Delimits.cut (delimits : Delimits measure code) (coded : ∀ w ∈ words, w ∈ code)
    (proper : torn = [] ∨ ∃ w ∈ code, torn <+: w ∧ torn ≠ w)
    (turns : Nat) (enough : words.length ≤ turns) :
    cut measure turns (words.flatten ++ torn) = (words, torn) := by
  have ends := delimits.measure_torn proper
  induction words generalizing turns with
  | nil =>
    cases turns with
    | zero => rfl
    | succ turns => simp [Delimited.cut, ends]
  | cons w words ih =>
    obtain ⟨turns, rfl⟩ : ∃ less, turns = less + 1 := ⟨turns - 1, by simp at enough; omega⟩
    have first := delimits.complete w (coded w (List.mem_cons_self ..)) (words.flatten ++ torn)
    have later := ih (fun u member => coded u (List.mem_cons_of_mem _ member)) turns
      (by simpa using enough)
    rw [List.flatten_cons, List.append_assoc, Delimited.cut, first]
    simp [later]

theorem length_le_flatten (nonempty : ∀ w ∈ words, w ≠ []) :
    words.length ≤ words.flatten.length := by
  induction words with
  | nil => simp
  | cons w words ih =>
    have first := List.length_pos_iff.mpr (nonempty w (List.mem_cons_self ..))
    have rest := ih fun u member => nonempty u (List.mem_cons_of_mem _ member)
    rw [List.length_cons, List.flatten_cons, List.length_append]
    omega

/-- The reader finds what the stream was put together from, so it cannot have been put
together from anything else. -/
theorem Reading.split (reading : Reading code stream words torn)
    (delimits : Delimits measure code) : split measure stream = (words, torn) := by
  have count := length_le_flatten fun w member => delimits.nonempty w (reading.coded w member)
  rw [Delimited.split]
  have cuts := delimits.cut reading.coded reading.proper stream.length
    (by rw [reading.parts, List.length_append]; omega)
  rwa [← reading.parts] at cuts

end
end Delimited
