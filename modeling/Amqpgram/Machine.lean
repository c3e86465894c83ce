import Mathlib.Data.Int.Basic
import Mathlib.Tactic.NormNum
import Amqpgram.Library.Sampler
import Amqpgram.Library.Buffers

/-! What the C code takes from its language and its machine: strings, the ways a
call can fail to return, 32-bit arithmetic, reads of memory and `rand()`. -/
namespace Amqpgram

/-- A C string is the list of its characters, without the terminator. -/
abbrev CString := List Char

/-- The C string a literal spells. Carrying the characters beside the literal
lets a definition that mentions it be evaluated. -/
def cstr (literal : String) {chars : CString}
    (_spelled : literal = String.ofList chars := by exact rfl) : CString := chars

theorem cstr_eq (literal : String) {chars : CString} (spelled : literal = String.ofList chars) :
    cstr literal spelled = literal.toList := by
  subst spelled
  exact String.toList_ofList.symm

/-- How a call can end other than by returning. A call that needs more nested
calls or turns of a loop than its fuel allows has not returned either. -/
inductive Fault where
  | outOfFuel
  | divisionByZero
  | nullPointer
  | outOfBounds
  | overflow
  deriving DecidableEq, Repr

def intMax : Int := 2147483647

/-- A result of `int` arithmetic; the language gives it no meaning out of range. -/
def cint (x : Int) : Except Fault Int :=
  if -intMax - 1 ≤ x ∧ x ≤ intMax then .ok x else .error .overflow

/-- The value an `n`-bit two's complement variable holds after `x` is stored in it. -/
def wrapSigned (n : Nat) (x : Int) : Int := Int.bmod x (2 ^ n)

/-- The value an `n`-bit unsigned variable holds after `x` is stored in it. -/
def wrapUnsigned (n : Nat) (x : Int) : Nat := (x % 2 ^ n).toNat

/-- How a call ends that does not return, with the writes that leave their buffer told
from the other faults. -/
inductive Trap where
  | overrun (o : Buffers.Overrun)
  | fault (f : Fault)
  deriving DecidableEq, Repr

def orFault {A : Type} (x : Except Fault A) : Except Trap A := x.mapError .fault

def orOverrun {A : Type} (x : Except Buffers.Overrun A) : Except Trap A := x.mapError .overrun

/-- A block of a new size, with `fill` where nothing was written to it yet. -/
def resized (size : Nat) (fill : Nat → UInt8) (xs : List UInt8) : List UInt8 :=
  (List.range size).map fun k => xs.getD k (fill k)

/-- What a read at an offset from a pointer finds, if the offset is readable. -/
abbrev Memory := Nat → Option UInt8

def bufferMemory (buffer : List UInt8) : Memory := fun i => buffer[i]?

def readByte (src : Memory) (index : Nat) : Except Fault UInt8 :=
  match src index with
  | some b => .ok b
  | none => .error .outOfBounds

/-- The values of `rand()` with RAND_MAX = 2^31 - 1. -/
abbrev Draw := Fin 2147483648

/-- A call that draws from the stream of `rand()` values and may fail to return. -/
abbrev Gen := Sampler Fault Draw

abbrev RandStream := Stream' Draw

def rand : Gen Int := .draw fun d => .done d.val

/-- `rand() % divisor`; the remainder has the sign of the dividend. -/
def randMod (divisor : Int) : Gen Int := do
  let r ← rand
  if divisor = 0 then .fail .divisionByZero else pure (r.tmod divisor)

@[simp] theorem ok_bind {E A B : Type} (a : A) (f : A → Except E B) :
    (Except.ok a >>= f) = f a := rfl

@[simp] theorem error_bind {E A B : Type} (e : E) (f : A → Except E B) :
    ((Except.error e : Except E A) >>= f) = .error e := rfl

theorem bind_eq_ok {E A B : Type} {x : Except E A} {f : A → Except E B} {b : B} :
    (x >>= f) = .ok b ↔ ∃ a, x = .ok a ∧ f a = .ok b := by
  cases x <;> simp

@[simp] theorem orFault_ok {A : Type} (a : A) : orFault (.ok a) = .ok a := rfl

@[simp] theorem orFault_error {A : Type} (f : Fault) :
    orFault (.error f : Except Fault A) = .error (.fault f) := rfl

@[simp] theorem orOverrun_ok {A : Type} (a : A) : orOverrun (.ok a) = .ok a := rfl

@[simp] theorem orOverrun_error {A : Type} (o : Buffers.Overrun) :
    orOverrun (.error o : Except Buffers.Overrun A) = .error (.overrun o) := rfl

theorem cint_eq_ok {x y : Int} : cint x = .ok y ↔ x = y ∧ -intMax - 1 ≤ x ∧ x ≤ intMax := by
  unfold cint
  split
  · rename_i inside
    constructor
    · intro h; exact ⟨Except.ok.inj h, inside⟩
    · rintro ⟨rfl, _⟩; rfl
  · rename_i outside
    constructor
    · intro h; cases h
    · rintro ⟨_, inside⟩; exact (outside inside).elim

theorem cint_of_range {x : Int} (lo : 0 ≤ x) (hi : x ≤ 2147483647) : cint x = .ok x := by
  refine cint_eq_ok.mpr ⟨rfl, ?_, hi⟩
  unfold intMax
  omega

theorem cint_overflow {x : Int} (large : intMax < x) : cint x = .error .overflow :=
  if_neg fun inside => by omega

theorem cint_error {x : Int} {e : Fault} (failed : cint x = .error e) : e = .overflow := by
  rw [cint] at failed
  split at failed
  · cases failed
  · exact (Except.error.inj failed).symm

theorem wrapSigned_of_range {n : Nat} {x : Int} (lo : -(2 : Int) ^ n ≤ 2 * x)
    (hi : 2 * x < (2 : Int) ^ n) : wrapSigned n x = x := by
  unfold wrapSigned
  apply Int.bmod_eq_of_le_mul_two
  · push_cast; omega
  · push_cast; omega

theorem wrapSigned_emod (n : Nat) (x : Int) : wrapSigned n x % 2 ^ n = x % 2 ^ n := by
  have same : Int.bmod x (2 ^ n) % ((2 ^ n : Nat) : Int) = x % ((2 ^ n : Nat) : Int) :=
    Int.bmod_emod
  push_cast at same
  exact same

/-- A field read as signed and stored in an unsigned variable of its width. -/
theorem wrapUnsigned_wrapSigned {n : Nat} (v : Nat) (fits : v < 2 ^ n) :
    wrapUnsigned n (wrapSigned n v) = v := by
  have small : (v : Int) < 2 ^ n := by exact_mod_cast fits
  rw [wrapUnsigned, wrapSigned_emod, Int.emod_eq_of_lt (Int.natCast_nonneg v) small]
  exact Int.toNat_natCast v

theorem wrapSigned_congr {n : Nat} {x y : Int} (same : x % 2 ^ n = y % 2 ^ n) :
    wrapSigned n x = wrapSigned n y := by
  have cast : ((2 ^ n : Nat) : Int) = 2 ^ n := by push_cast; rfl
  rw [wrapSigned, wrapSigned, ← Int.emod_bmod, cast, same, ← cast, Int.emod_bmod]

theorem wrapUnsigned_emod (n : Nat) (v : Int) : (wrapUnsigned n v : Int) = v % 2 ^ n :=
  Int.toNat_of_nonneg (Int.emod_nonneg v (Int.pow_pos (by decide)).ne')

theorem wrapUnsigned_lt (n : Nat) (v : Int) : wrapUnsigned n v < 2 ^ n := by
  have upper := Int.emod_lt_of_pos v (Int.pow_pos (by decide) : (0 : Int) < 2 ^ n)
  rw [← wrapUnsigned_emod] at upper
  exact_mod_cast upper

theorem yields_randMod {m x : Int} :
    (randMod m).Yields x ↔ m ≠ 0 ∧ ∃ d : Draw, x = Int.tmod d.val m := by
  by_cases zero : m = 0
  · simp [randMod, rand, zero]
  · simp [randMod, rand, zero, eq_comm]

theorem run_randMod {m : Int} (nonzero : m ≠ 0) (draws : RandStream) :
    (randMod m).run draws = .ok (Int.tmod draws.head.val m, draws.tail) := by
  simp [randMod, rand, nonzero, Sampler.run]

theorem yields_randMod_abs {m x : Int} (nonzero : m ≠ 0) (small : m.natAbs ≤ 2147483648) :
    (randMod m).Yields x ↔ 0 ≤ x ∧ x < m.natAbs := by
  have abs : ∀ a : Int, Int.tmod a m = Int.tmod a m.natAbs := by
    intro a
    rcases Int.natAbs_eq m with h | h
    · rw [← h]
    · rw [h, Int.natAbs_neg, Int.natAbs_natCast, Int.tmod_neg]
  have pos : (0 : Int) < m.natAbs := by omega
  rw [yields_randMod]
  constructor
  · rintro ⟨_, d, rfl⟩
    rw [abs]
    exact ⟨Int.tmod_nonneg _ (Int.natCast_nonneg _), Int.tmod_lt_of_pos _ pos⟩
  · rintro ⟨lo, hi⟩
    have fits : x.toNat < 2147483648 := by omega
    refine ⟨nonzero, ⟨x.toNat, fits⟩, ?_⟩
    have back : ((x.toNat : Nat) : Int) = x := Int.toNat_of_nonneg lo
    rw [abs, back, Int.tmod_eq_of_lt lo hi]

@[simp] theorem length_resized {size : Nat} (fill : Nat → UInt8) (xs : List UInt8) :
    (resized size fill xs).length = size := by simp [resized]

theorem held_resized {held xs : List UInt8} {size : Nat} (front : held <+: xs)
    (room : held.length ≤ size) (fill : Nat → UInt8) : held <+: resized size fill xs := by
  obtain ⟨rest, rfl⟩ := front
  rw [List.prefix_iff_getElem?]
  intro i inside
  have size_inside : i < size := by omega
  simp [resized, size_inside, List.getElem?_append_left inside, List.getElem?_eq_getElem inside]

theorem resized_length {held xs : List UInt8} (front : held <+: xs) (fill : Nat → UInt8) :
    resized held.length fill xs = held :=
  ((held_resized front (Nat.le_refl _) fill).eq_of_length (length_resized fill xs).symm).symm

theorem readByte_buffer {buffer : List UInt8} {i : Nat} (h : i < buffer.length) :
    readByte (bufferMemory buffer) i = .ok buffer[i] := by
  simp [readByte, bufferMemory, List.getElem?_eq_getElem h]

theorem readByte_outside {buffer : List UInt8} {i : Nat} (out : buffer.length ≤ i) :
    readByte (bufferMemory buffer) i = .error .outOfBounds := by
  simp [readByte, bufferMemory, out]

end Amqpgram
