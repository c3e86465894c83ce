import Mathlib.Algebra.Order.Group.Nat
import Mathlib.Data.Nat.ModEq
import Mathlib.Tactic.Positivity
import Mathlib.Tactic.Ring

/-! Big-endian words over byte lists. `value` reads a list of any length as a
number and `bytes w` writes the low `w` bytes of one; they are inverse at every
width. The order on words of one width is the order of their values. -/

namespace Words

def value : List UInt8 → Nat
  | [] => 0
  | b :: bs => b.toNat * 256 ^ bs.length + value bs

def bytes : Nat → Nat → List UInt8
  | 0, _ => []
  | w + 1, v => UInt8.ofNat (v / 256 ^ w) :: bytes w v

@[simp] theorem value_nil : value [] = 0 := rfl
@[simp] theorem value_cons (b : UInt8) (bs : List UInt8) :
    value (b :: bs) = b.toNat * 256 ^ bs.length + value bs := rfl
@[simp] theorem bytes_zero (v : Nat) : bytes 0 v = [] := rfl
@[simp] theorem bytes_succ (w v : Nat) :
    bytes (w + 1) v = UInt8.ofNat (v / 256 ^ w) :: bytes w v := rfl

@[simp] theorem length_bytes (w v : Nat) : (bytes w v).length = w := by
  induction w with
  | zero => rfl
  | succ w ih => simp [ih]

theorem value_lt (bs : List UInt8) : value bs < 256 ^ bs.length := by
  induction bs with
  | nil => simp
  | cons b bs ih =>
    have hb : b.toNat + 1 ≤ 256 := b.toNat_lt
    have scaled : (b.toNat + 1) * 256 ^ bs.length ≤ 256 * 256 ^ bs.length :=
      Nat.mul_le_mul_right _ hb
    simp only [value_cons, List.length_cons, Nat.pow_succ]
    calc b.toNat * 256 ^ bs.length + value bs
        < b.toNat * 256 ^ bs.length + 256 ^ bs.length := Nat.add_lt_add_left ih _
      _ = (b.toNat + 1) * 256 ^ bs.length := by ring
      _ ≤ 256 * 256 ^ bs.length := scaled
      _ = 256 ^ bs.length * 256 := Nat.mul_comm _ _

theorem value_append (as bs : List UInt8) :
    value (as ++ bs) = value as * 256 ^ bs.length + value bs := by
  induction as with
  | nil => simp
  | cons a as ih =>
    simp only [List.cons_append, value_cons, List.length_append, ih, Nat.pow_add]
    ring

theorem value_bytes (w v : Nat) : value (bytes w v) = v % 256 ^ w := by
  induction w with
  | zero => simp [Nat.mod_one]
  | succ w ih =>
    have byte : (UInt8.ofNat (v / 256 ^ w)).toNat = v / 256 ^ w % 256 := UInt8.toNat_ofNat'
    rw [bytes_succ, value_cons, length_bytes, ih, byte, Nat.mod_pow_succ]
    ring

theorem value_bytes_of_lt {w v : Nat} (h : v < 256 ^ w) : value (bytes w v) = v := by
  rw [value_bytes, Nat.mod_eq_of_lt h]

theorem bytes_add_mul (w v k : Nat) : bytes w (k * 256 ^ w + v) = bytes w v := by
  induction w generalizing k with
  | zero => rfl
  | succ w ih =>
    have shift : k * 256 ^ (w + 1) + v = (k * 256) * 256 ^ w + v := by ring
    have head : (k * 256 * 256 ^ w + v) / 256 ^ w = k * 256 + v / 256 ^ w := by
      rw [Nat.add_comm, Nat.add_mul_div_right _ _ (by positivity), Nat.add_comm]
    have low : UInt8.ofNat (k * 256 + v / 256 ^ w) = UInt8.ofNat (v / 256 ^ w) := by
      apply UInt8.toNat_inj.mp
      rw [UInt8.toNat_ofNat', UInt8.toNat_ofNat']
      omega
    rw [bytes_succ, bytes_succ, shift, ih, head, low]

theorem bytes_value (bs : List UInt8) : bytes bs.length (value bs) = bs := by
  induction bs with
  | nil => rfl
  | cons b bs ih =>
    have small := value_lt bs
    have head : (b.toNat * 256 ^ bs.length + value bs) / 256 ^ bs.length = b.toNat := by
      rw [Nat.add_comm, Nat.add_mul_div_right _ _ (by positivity), Nat.div_eq_of_lt small,
        Nat.zero_add]
    rw [List.length_cons, bytes_succ, value_cons, bytes_add_mul, ih, head]
    simp

theorem bytes_succ_last (w v : Nat) :
    bytes (w + 1) v = bytes w (v / 256) ++ [UInt8.ofNat (v % 256)] := by
  induction w generalizing v with
  | zero =>
    have same : UInt8.ofNat v = UInt8.ofNat (v % 256) := by
      apply UInt8.toNat_inj.mp
      simp
    simp [same]
  | succ w ih =>
    have head : v / 256 ^ (w + 1) = v / 256 / 256 ^ w := by
      rw [Nat.div_div_eq_div_mul, Nat.pow_succ']
    rw [bytes_succ, ih, bytes_succ, head]
    rfl

theorem bytes_of_zero (w : Nat) : bytes w 0 = List.replicate w 0 := by
  induction w with
  | zero => rfl
  | succ w ih => simp [ih, List.replicate_succ]

theorem value_concat (bs : List UInt8) (b : UInt8) :
    value (bs ++ [b]) = value bs * 256 + b.toNat := by simp [value_append]

theorem value_inj {as bs : List UInt8} (len : as.length = bs.length)
    (h : value as = value bs) : as = bs := by
  rw [← bytes_value as, ← bytes_value bs, len, h]

end Words
