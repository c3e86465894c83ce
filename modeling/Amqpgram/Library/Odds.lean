import Mathlib.Algebra.Module.BigOperators
import Mathlib.Algebra.BigOperators.Pi

/-! Choices that depend on one draw each, counted over all sequences of draws. -/
namespace Odds
open Finset
variable {A : Type} [Fintype A]

/-- How often `n` draws choose, over all the sequences they can be. -/
def total (chooses : A → Bool) (n : Nat) : Nat :=
  ∑ w : Fin n → A, (univ.filter fun i => chooses (w i) = true).card

theorem total_eq [DecidableEq A] (chooses : A → Bool) (n : Nat) :
    total chooses n =
      n * Fintype.card A ^ (n - 1) * (univ.filter fun a => chooses a = true).card := by
  have position : ∀ i : Fin n, ∑ w : Fin n → A, (if chooses (w i) = true then 1 else 0) =
      Fintype.card A ^ (n - 1) * (univ.filter fun a => chooses a = true).card := by
    intro i
    have spread := Fintype.sum_piFinset_apply (fun a => if chooses a = true then 1 else 0)
      (univ : Finset A) i
    rw [Fintype.piFinset_univ, Fintype.card_fin, smul_eq_mul, card_univ] at spread
    rw [spread, card_filter]
  calc total chooses n
      = ∑ w : Fin n → A, ∑ i, (if chooses (w i) = true then 1 else 0) := by
        simp only [total, card_filter]
    _ = ∑ i : Fin n, ∑ w : Fin n → A, (if chooses (w i) = true then 1 else 0) := sum_comm
    _ = ∑ _i : Fin n, Fintype.card A ^ (n - 1) *
          (univ.filter fun a => chooses a = true).card := sum_congr rfl fun i _ => position i
    _ = n * Fintype.card A ^ (n - 1) * (univ.filter fun a => chooses a = true).card := by
        rw [sum_const, card_univ, Fintype.card_fin, smul_eq_mul, Nat.mul_assoc]

/-- Two choices are made equally often when as many draws choose either. -/
theorem total_eq_iff [DecidableEq A] [Nonempty A] (p q : A → Bool) (n : Nat) :
    total p n = total q n ↔ n = 0 ∨ (univ.filter fun a => p a = true).card =
      (univ.filter fun a => q a = true).card := by
  have positive : 0 < Fintype.card A ^ (n - 1) := Nat.pow_pos Fintype.card_pos
  rw [total_eq, total_eq]
  constructor
  · intro same
    rcases Nat.eq_zero_or_pos n with zero | some_draw
    · exact .inl zero
    · exact .inr (Nat.eq_of_mul_eq_mul_left (Nat.mul_pos some_draw positive) same)
  · rintro (rfl | same)
    · simp
    · rw [same]

end Odds
