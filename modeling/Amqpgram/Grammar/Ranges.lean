import Amqpgram.Grammar.Sampling

/-! Range terminals. The bounds are added up in an `int`, whose range the weight of a
fourth byte leaves, and the width of the output is counted from the upper bound and
not from its text. -/
namespace Amqpgram

theorem keptWidth_le (bs : List UInt8) : keptWidth bs ≤ bs.length := by
  induction bs with
  | nil => exact Nat.le_refl 0
  | cons b bs ih =>
    by_cases zero : b = 0
    · have skip : keptWidth (b :: bs) = keptWidth bs := by simp [keptWidth, zero]
      rw [skip, List.length_cons]
      omega
    · by_cases one : b = 1 <;> simp [keptWidth, zero, one]

theorem keptWidth_eq_length {hi : List UInt8} (nonempty : hi ≠ []) :
    keptWidth hi = hi.length ↔ ∀ b ∈ hi.head?, 2 ≤ b := by
  obtain ⟨b, bs, rfl⟩ := List.exists_cons_of_ne_nil nonempty
  have kept := keptWidth_le bs
  by_cases zero : b = 0
  · have skip : keptWidth (b :: bs) = keptWidth bs := by simp [keptWidth, zero]
    rw [skip, zero]
    simp only [List.length_cons, List.head?_cons, Option.mem_some_iff, forall_eq']
    constructor
    · intro same
      omega
    · intro two
      exact absurd two (by decide)
  · by_cases one : b = 1
    · simp [keptWidth, one]
    · have two : 2 ≤ b := by
        have hz : b.toNat ≠ 0 := fun h => zero (UInt8.toNat_inj.mp h)
        have ho : b.toNat ≠ 1 := fun h => one (UInt8.toNat_inj.mp h)
        rw [UInt8.le_iff_toNat_le]
        change 2 ≤ b.toNat
        omega
      simp [keptWidth, zero, one, two]

/-- Whatever is drawn, the terminal returns a value of its range in its own width. -/
def RangeExact (text : CString) (lo hi : List UInt8) : Prop :=
  ∀ draws, ∃ d rest, (decodeTerminalRange text).run draws = .ok (d, rest) ∧
    d.length = hi.length ∧ d.bytes.length = hi.length ∧
    Words.value lo ≤ Words.value d.bytes ∧ Words.value d.bytes ≤ Words.value hi

section
variable {b : Char} {base : Nat} {ls hs : List CString} {lo hi : List UInt8}

/-- The result is the drawn value in the width that the upper bound keeps. -/
theorem run_decodeTerminalRange (hb : TerminalBase b base) (hl : Dotted base ls lo)
    (hh : Dotted base hs hi) (same : lo.length = hi.length) (short : hi.length ≤ 3)
    (order : Words.value lo < Words.value hi) (draws : RandStream) :
    (decodeTerminalRange ('%' :: b :: (dots ls ++ '-' :: dots hs))).run draws =
      .ok (⟨Words.bytes (keptWidth hi)
        (Words.value lo + draws.head.val % (Words.value hi - Words.value lo)), keptWidth hi⟩,
        draws.tail) := by
  have small := value_lt_of_length short
  have width := stringLength_eq 4 hi (by omega)
  have difference : (Words.value hi : Int) - Words.value lo =
      (Words.value hi - Words.value lo : Nat) := by omega
  have spread : cint ((Words.value hi : Int) - Words.value lo) =
      .ok ((Words.value hi : Int) - Words.value lo) := cint_of_range (by omega) (by omega)
  have drawn := run_randMod (show (Words.value hi : Int) - Words.value lo ≠ 0 by omega) draws
  have remainder : Int.tmod draws.head.val ((Words.value hi : Int) - Words.value lo) =
      (draws.head.val % (Words.value hi - Words.value lo) : Nat) := by
    rw [difference]
    exact (Int.ofNat_tmod _ _).symm
  have below := Nat.mod_lt draws.head.val
    (show 0 < Words.value hi - Words.value lo by omega)
  rw [remainder] at drawn
  generalize draws.head.val % (Words.value hi - Words.value lo) = x at drawn below ⊢
  have sum : cint ((x : Int) + Words.value lo) = .ok (x + Words.value lo) :=
    cint_of_range (by omega) (by omega)
  have wrapped : wrapUnsigned 32 ((x : Int) + Words.value lo) = Words.value lo + x := by
    unfold wrapUnsigned
    omega
  rw [decodeTerminalRange, range_tokens hb hl hh, getTerminalBase_eq hb]
  simp only [patchedTerminal_eq hb, decode_bound hb hl (same ▸ short), decode_bound hb hh short,
    Sampler.ofExcept_ok, Sampler.bind_done, spread, Sampler.run_bind, drawn, width]
  simp only [Except.bind, sum, Sampler.ofExcept_ok, Sampler.run, Sampler.pure_eq, wrapped,
    fillBytes_eq]

/-- A range of four bytes or more has no result at all. -/
theorem decodeTerminalRange_long (hb : TerminalBase b base) (hl : Dotted base ls lo)
    (hh : Dotted base hs hi) (long : 4 ≤ lo.length) :
    ∃ fault, decodeTerminalRange ('%' :: b :: (dots ls ++ '-' :: dots hs)) = .fail fault := by
  obtain ⟨fault, exceeds⟩ := bound_overflow lo long
  have first : (decodeTerminalSymbol ('%' :: b :: dots ls) >>= bound) = .error fault := by
    rw [decodeTerminalSymbol_dotted hb hl]
    exact exceeds
  refine ⟨fault, ?_⟩
  rw [decodeTerminalRange, range_tokens hb hl hh]
  simp only [first, Sampler.ofExcept_error, Sampler.bind_fail]

/-- A range is exact when it has at most three bytes and its upper end begins with 2 or more. -/
theorem rangeExact_iff (hb : TerminalBase b base) (hl : Dotted base ls lo)
    (hh : Dotted base hs hi) (same : lo.length = hi.length)
    (order : Words.value lo < Words.value hi) :
    RangeExact ('%' :: b :: (dots ls ++ '-' :: dots hs)) lo hi ↔
      hi.length ≤ 3 ∧ ∀ b ∈ hi.head?, 2 ≤ b := by
  have nonempty : hi ≠ [] := by
    rintro rfl
    simp at order
  rw [← keptWidth_eq_length nonempty]
  constructor
  · intro exact_
    obtain ⟨d, rest, run, number, _⟩ := exact_ (Stream'.const 0)
    have short : hi.length ≤ 3 := by
      by_contra long
      obtain ⟨fault, failed⟩ := decodeTerminalRange_long hb hl hh (by omega)
      rw [failed] at run
      cases run
    rw [run_decodeTerminalRange hb hl hh same short order (Stream'.const 0)] at run
    obtain ⟨rfl, _⟩ := Sampler.run_done_ok run
    exact ⟨short, number⟩
  · rintro ⟨short, kept⟩ draws
    have returned := run_decodeTerminalRange hb hl hh same short order draws
    have below := Nat.mod_lt draws.head.val
      (show 0 < Words.value hi - Words.value lo by omega)
    generalize draws.head.val % (Words.value hi - Words.value lo) = x at returned below
    obtain ⟨v, total⟩ : ∃ v, v = Words.value lo + x := ⟨_, rfl⟩
    rw [← total] at returned
    have upper : v < Words.value hi := by omega
    have value : Words.value (Words.bytes (keptWidth hi) v) = v := by
      apply Words.value_bytes_of_lt
      rw [kept]
      exact upper.trans (Words.value_lt hi)
    refine ⟨_, _, returned, kept, ?_, ?_, ?_⟩
    · rw [Words.length_bytes, kept]
    · rw [value]
      omega
    · rw [value]
      omega

end

section
variable {t : CString} {base : Nat} {v : UInt8}

theorem dotted_single (n : Numeral base t v.toNat) : Dotted base [t] [v] :=
  ⟨by simp, .cons n .nil⟩

theorem numeral_zero : Numeral 16 (cstr "00") 0 :=
  ⟨by simp [cstr], by simp [cstr, digitValue, isDigit], rfl⟩

theorem numeral_last : Numeral 16 (cstr "FF") 255 :=
  ⟨by simp [cstr], by simp [cstr, digitValue, isDigit], rfl⟩

end

theorem rangeExact_iff_octet : RangeExact (cstr "%x00-FF") [0] [255] :=
  (rangeExact_iff .x (dotted_single (v := 0) numeral_zero) (dotted_single (v := 255) numeral_last)
    rfl (by decide)).mpr ⟨by decide, by simp⟩

theorem bit_range_empty :
    ((decodeTerminalRange (cstr "%x00-01")).run (Stream'.const 0)).map Prod.fst = .ok ⟨[], 0⟩ ∧
      ¬ RangeExact (cstr "%x00-01") [0] [1] := by
  have empty : ((decodeTerminalRange (cstr "%x00-01")).run (Stream'.const 0)).map Prod.fst =
      .ok ⟨[], 0⟩ := by decide +kernel
  refine ⟨empty, ?_⟩
  intro exact_
  obtain ⟨d, rest, run, number, _⟩ := exact_ (Stream'.const 0)
  rw [run] at empty
  obtain rfl := Except.ok.inj empty
  cases number

end Amqpgram
