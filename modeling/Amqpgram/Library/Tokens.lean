import Mathlib.Data.List.Basic
import Mathlib.Data.List.Count
import Mathlib.Data.List.TakeWhile
import Mathlib.Algebra.BigOperators.Group.List.Basic
import Mathlib.Algebra.GroupWithZero.Nat

/-! Cutting a list at a separator the way `strtok` does: runs of separators
count as one and no token is empty. -/

namespace Tokens
variable {A : Type} [DecidableEq A]

def tokens (d : A) (s : List A) : List (List A) :=
  (s.splitOn d).filter fun t => !t.isEmpty

/-- The first token and what a later call continues with: the rest behind the
separator that ended it. -/
def firstToken (d : A) (s : List A) : Option (List A × List A) :=
  let rest := s.dropWhile (· == d)
  if rest.isEmpty then none
  else some (rest.takeWhile (· != d), (rest.dropWhile (· != d)).drop 1)

@[simp] theorem tokens_nil (d : A) : tokens d [] = [] := rfl

theorem tokens_of_not_mem {d : A} {s : List A} (h : d ∉ s) (nonempty : s ≠ []) :
    tokens d s = [s] := by
  simp [tokens, List.splitOn_eq_singleton h, nonempty]

theorem tokens_append_cons (d : A) (xs ys : List A) :
    tokens d (xs ++ d :: ys) = tokens d xs ++ tokens d ys := by
  simp [tokens, List.splitOn_append_cons_self]

theorem mem_splitOn {d a : A} {s t : List A} (h : t ∈ s.splitOn d) (member : a ∈ t) :
    a ∈ s ∧ a ≠ d := by
  induction s generalizing t with
  | nil =>
    have empty : t = [] := by simpa using h
    simp [empty] at member
  | cons c s ih =>
    rw [List.splitOn_cons_eq_if_modifyHead] at h
    split at h
    · rcases List.mem_cons.mp h with rfl | tail
      · cases member
      · have later := ih tail member
        exact ⟨List.mem_cons_of_mem c later.1, later.2⟩
    · rename_i different
      obtain ⟨first, others, cut⟩ := List.exists_cons_of_ne_nil (List.splitOn_ne_nil d s)
      rw [cut] at h
      rcases List.mem_cons.mp h with rfl | tail
      · rcases List.mem_cons.mp member with rfl | inside
        · exact ⟨by simp, fun same => different (by simp [same])⟩
        · have later := ih (cut ▸ List.mem_cons_self) inside
          exact ⟨List.mem_cons_of_mem c later.1, later.2⟩
      · have later := ih (cut ▸ List.mem_cons_of_mem _ tail) member
        exact ⟨List.mem_cons_of_mem c later.1, later.2⟩

theorem mem_tokens {d : A} {s t : List A} (h : t ∈ tokens d s) : d ∉ t ∧ t ≠ [] := by
  obtain ⟨member, nonempty⟩ := List.mem_filter.mp h
  exact ⟨fun inside => (mem_splitOn member inside).2 rfl, by simpa using nonempty⟩

theorem sum_length_tokens (d : A) (s : List A) :
    ((tokens d s).map List.length).sum + (tokens d s).length ≤ s.length + 1 := by
  induction length : s.length using Nat.strong_induction_on generalizing s with
  | _ n ih =>
    subst length
    by_cases separated : d ∈ s
    · obtain ⟨xs, ys, rfl⟩ := List.append_of_mem separated
      have left := ih xs.length (by simp) xs rfl
      have right := ih ys.length (by simp; omega) ys rfl
      rw [tokens_append_cons, List.map_append, List.sum_append]
      simp only [List.length_append, List.length_cons]
      omega
    · by_cases empty : s = []
      · simp [empty]
      · simp [tokens_of_not_mem separated empty]

theorem length_tokens_le_length (d : A) (s : List A) : (tokens d s).length ≤ s.length := by
  have spaced := sum_length_tokens d s
  have each : (tokens d s).length ≤ ((tokens d s).map List.length).sum := by
    have positive : ∀ n ∈ (tokens d s).map List.length, 1 ≤ n := by
      intro n hn
      obtain ⟨t, ht, rfl⟩ := List.mem_map.mp hn
      exact List.length_pos_of_ne_nil (mem_tokens ht).2
    simpa using List.length_le_sum_of_one_le _ positive
  omega

theorem length_splitOn (d : A) (s : List A) : (s.splitOn d).length = s.count d + 1 := by
  induction s with
  | nil => rfl
  | cons c s ih =>
    rw [List.splitOn_cons_eq_if_modifyHead]
    by_cases same : c = d
    · simp [same, ih]
    · simp [same, ih]

theorem length_tokens_le (d : A) (s : List A) : (tokens d s).length ≤ s.count d + 1 := by
  rw [← length_splitOn]
  exact List.length_filter_le _ _

theorem tokens_intercalate {d : A} {pieces : List (List A)}
    (apart : ∀ p ∈ pieces, d ∉ p) (nonempty : ∀ p ∈ pieces, p ≠ []) :
    tokens d ([d].intercalate pieces) = pieces := by
  cases pieces with
  | nil => rfl
  | cons p ps =>
    rw [tokens, List.splitOn_intercalate d apart (by simp)]
    apply List.filter_eq_self.mpr
    intro q hq
    simpa using nonempty q hq

theorem count_intercalate {d : A} {pieces : List (List A)} (some_piece : pieces ≠ [])
    (apart : ∀ p ∈ pieces, d ∉ p) : ([d].intercalate pieces).count d + 1 = pieces.length := by
  rw [← length_splitOn, List.splitOn_intercalate d apart some_piece]

theorem dropWhile_of_not_mem {d : A} {t : List A} (rest : List A) (apart : d ∉ t)
    (nonempty : t ≠ []) :
    (t ++ rest).dropWhile (· == d) = t ++ rest := by
  obtain ⟨c, t, rfl⟩ := List.exists_cons_of_ne_nil nonempty
  have other : (c == d) = false := beq_eq_false_iff_ne.mpr fun same => apart (by simp [same])
  rw [List.cons_append, List.dropWhile_cons_of_neg (by simp [other])]

theorem ne_of_mem {d : A} {t : List A} (apart : d ∉ t) : ∀ c ∈ t, (c != d) = true := by
  intro c hc
  exact bne_iff_ne.mpr fun same => apart (same ▸ hc)

theorem firstToken_append {d : A} {t : List A} (rest : List A) (apart : d ∉ t)
    (nonempty : t ≠ []) : firstToken d (t ++ d :: rest) = some (t, rest) := by
  have start := dropWhile_of_not_mem (d :: rest) apart nonempty
  have front : (t ++ d :: rest).takeWhile (· != d) = t := by
    rw [List.takeWhile_append_of_pos (ne_of_mem apart)]
    simp
  have back : (t ++ d :: rest).dropWhile (· != d) = d :: rest := by
    rw [List.dropWhile_append_of_pos (ne_of_mem apart)]
    simp
  simp only [firstToken, start, front, back]
  simp

theorem firstToken_whole {d : A} {t : List A} (apart : d ∉ t) (nonempty : t ≠ []) :
    firstToken d t = some (t, []) := by
  have start := dropWhile_of_not_mem [] apart nonempty
  have front : t.takeWhile (· != d) = t := List.takeWhile_eq_self_iff.mpr (ne_of_mem apart)
  have back : t.dropWhile (· != d) = [] := List.dropWhile_eq_nil_iff.mpr (ne_of_mem apart)
  rw [List.append_nil] at start
  simp only [firstToken, start, front, back]
  simp [nonempty]

end Tokens
