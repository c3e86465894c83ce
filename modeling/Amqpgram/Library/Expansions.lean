import Mathlib.Data.List.Basic
import Mathlib.Data.List.Flatten
import Mathlib.Tactic.Common

/-! Texts that are divided by a separator, with each piece written out as copies of a word
no longer than itself. What is written falls behind the text at the first separator and
never catches up: where it agreed with the text beyond the separator before a piece, its
period would put a separator into the piece. -/

namespace Expansions
variable {A B : Type}

def copies (q : Nat) (word : List B) : List B := (List.replicate q word).flatten

@[simp] theorem copies_zero (word : List B) : copies 0 word = [] := rfl

theorem copies_succ (q : Nat) (word : List B) : copies (q + 1) word = word ++ copies q word := rfl

@[simp] theorem copies_nil (q : Nat) : copies q ([] : List B) = [] := by
  induction q with
  | zero => rfl
  | succ q ih => rw [copies_succ, ih, List.append_nil]

theorem copies_comm (q : Nat) (word : List B) : word ++ copies q word = copies q word ++ word := by
  induction q with
  | zero => simp
  | succ q ih => rw [copies_succ, List.append_assoc, ← ih]

theorem copies_add (q r : Nat) (word : List B) :
    copies (q + r) word = copies q word ++ copies r word := by
  rw [copies, List.replicate_add, List.flatten_append]
  rfl

theorem copies_mul (q r : Nat) (word : List B) :
    copies q (copies r word) = copies (q * r) word := by
  induction q with
  | zero => simp
  | succ q ih => rw [copies_succ, ih, ← copies_add, Nat.succ_mul, Nat.add_comm]

theorem copies_map {C : Type} (f : B → C) (q : Nat) (word : List B) :
    (copies q word).map f = copies q (word.map f) := by
  simp [copies, List.map_flatten]

theorem copies_period {q i : Nat} {word : List B}
    (inside : i + word.length < (copies q word).length) :
    (copies q word)[i + word.length]? = (copies q word)[i]? := by
  cases q with
  | zero => simp at inside
  | succ q =>
    have short : i < (copies q word).length := by
      rw [copies_succ, List.length_append] at inside
      omega
    calc (copies (q + 1) word)[i + word.length]?
        = (copies q word)[i]? := by
          rw [copies_succ, List.getElem?_append_right (by omega), Nat.add_sub_cancel]
      _ = (copies (q + 1) word)[i]? := by
          rw [copies_succ, copies_comm, List.getElem?_append_left short]

/-- The copies of a word that is shorter than the piece, if there is a piece at all. -/
def Expansion (piece : List A) (out : List B) : Prop :=
  ∃ q word, out = copies q word ∧ word.length ≤ piece.length - 1

theorem Expansion.nil : Expansion ([] : List A) ([] : List B) := ⟨0, [], rfl, Nat.le_refl _⟩

theorem expansions_of_filter {pieces : List (List A)} {outs : List (List B)}
    (each : List.Forall₂ Expansion (pieces.filter fun p => !p.isEmpty) outs) :
    ∃ outs', List.Forall₂ Expansion pieces outs' ∧ outs'.flatten = outs.flatten := by
  induction pieces generalizing outs with
  | nil => exact ⟨outs, each, rfl⟩
  | cons piece pieces ih =>
    cases piece with
    | nil =>
      obtain ⟨outs', others, same⟩ := ih (by simpa using each)
      exact ⟨[] :: outs', .cons .nil others, by simpa using same⟩
    | cons a piece =>
      rw [List.filter_cons_of_pos (by simp)] at each
      cases each with
      | cons first others =>
        obtain ⟨outs', others, same⟩ := ih others
        exact ⟨_ :: outs', .cons first others, by simp [same]⟩

section
variable {separator : A} {letter : A → B} {pieces : List (List A)} {outs : List (List B)}

/-- What is written for one piece ends at most one word behind the separator before it. -/
theorem expansion_behind {piece : List A} (apart : ∀ a ∈ piece, letter a ≠ letter separator)
    {q : Nat} {word : List B} (short : word.length ≤ piece.length) {before rest behind : List B}
    (agrees : copies q word ++ rest = before ++ letter separator :: (piece.map letter ++ behind)) :
    (copies q word).length ≤ before.length + word.length := by
  by_contra ahead
  have some_ : 0 < word.length := by
    by_contra none
    have empty : word = [] := List.length_eq_zero_iff.mp (by omega)
    rw [empty, copies_nil] at ahead
    simp at ahead
  have inside : before.length + word.length < (copies q word).length := by omega
  have first := congrArg (fun text => text[before.length]?) agrees
  have second := congrArg (fun text => text[before.length + word.length]?) agrees
  obtain ⟨n, succ⟩ : ∃ n, word.length = n + 1 := ⟨word.length - 1, by omega⟩
  have letters : n < (piece.map letter).length := by
    rw [List.length_map]
    omega
  rw [List.getElem?_append_left (by omega), List.getElem?_append_right (Nat.le_refl _),
    Nat.sub_self, List.getElem?_cons_zero] at first
  rw [List.getElem?_append_left inside, copies_period inside, first,
    List.getElem?_append_right (by omega), Nat.add_sub_cancel_left, succ, List.getElem?_cons_succ,
    List.getElem?_append_left letters, List.getElem?_map] at second
  obtain ⟨a, found, same⟩ := Option.map_eq_some_iff.mp second.symm
  exact apart a (List.mem_of_getElem? found) same

theorem ends_tail {piece text front : List A} {z : A}
    (ends : piece ++ [separator] ++ text = front ++ [z]) (other : z ≠ separator) :
    ∃ front', text = front' ++ [z] := by
  rcases List.eq_nil_or_concat text with rfl | ⟨l, y, rfl⟩
  · rw [List.append_nil] at ends
    obtain ⟨_, same⟩ := List.append_inj' ends rfl
    exact (other (List.singleton_inj.mp same).symm).elim
  · rw [List.concat_eq_append, ← List.append_assoc] at ends
    obtain ⟨_, same⟩ := List.append_inj' ends rfl
    exact ⟨l, by rw [List.concat_eq_append, same]⟩

/-- All that is written is shorter than the text, as far as the two agree. -/
theorem expansions_behind (each : List.Forall₂ Expansion pieces outs)
    (apart : ∀ piece ∈ pieces, ∀ a ∈ piece, letter a ≠ letter separator) {front : List A} {z : A}
    (ends : [separator].intercalate pieces = front ++ [z]) (other : z ≠ separator)
    {before rest behind : List B}
    (agrees : outs.flatten ++ rest =
      before ++ letter separator :: (([separator].intercalate pieces).map letter ++ behind)) :
    outs.flatten.length < before.length + ([separator].intercalate pieces).length := by
  induction each generalizing before front with
  | nil =>
    rw [List.intercalate_nil] at ends
    simp at ends
  | @cons piece out pieces outs expansion others ih =>
    obtain ⟨q, word, rfl, short⟩ := expansion
    have here := apart piece (by simp)
    rw [List.flatten_cons, List.append_assoc] at agrees
    rw [List.flatten_cons, List.length_append]
    cases others with
    | nil =>
      rw [List.intercalate_singleton] at agrees ends ⊢
      have first := expansion_behind here (by omega) agrees
      have some_ := congrArg List.length ends
      simp only [List.flatten_nil, List.length_nil, List.length_append, List.length_cons] at some_ ⊢
      omega
    | @cons next _ pieces _ _ _ =>
      rw [List.intercalate_cons_cons, List.map_append, List.map_append, List.append_assoc,
        List.append_assoc] at agrees
      rw [List.intercalate_cons_cons] at ends ⊢
      have first := expansion_behind here (by omega) agrees
      have reached : (copies q word).length ≤
          (before ++ letter separator :: piece.map letter).length := by
        simp only [List.length_append, List.length_cons, List.length_map]
        omega
      have shifted := congrArg (List.drop (copies q word).length) agrees
      have text : before ++ letter separator :: (piece.map letter ++
          ([separator].map letter ++ (([separator].intercalate (next :: pieces)).map letter ++
            behind))) = (before ++ letter separator :: piece.map letter) ++ letter separator ::
              (([separator].intercalate (next :: pieces)).map letter ++ behind) := by
        simp
      rw [text, List.drop_left, List.drop_append_of_le_length reached] at shifted
      obtain ⟨front', ends'⟩ := ends_tail ends other
      have later := ih (fun p hp => apart p (by simp [hp])) ends' shifted
      simp only [List.length_drop, List.length_append, List.length_cons, List.length_map,
        List.length_nil] at later ⊢
      omega

end

end Expansions
