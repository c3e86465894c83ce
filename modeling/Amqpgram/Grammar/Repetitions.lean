import Mathlib.Data.Nat.Log
import Amqpgram.Grammar.Sampling

/-! Repetitions with the `int` sizes of their buffer. The buffer starts at one byte for
each expansion and is doubled, so what it can hold in the end depends on the count. -/
namespace Amqpgram

/-- `while (position + temp_length >= real_length)`; the buffer is doubled at most 31
times before its size leaves the range of an `int`. -/
def growBuffer : Nat → Int → Int → Except Fault Int
  | 0, _, _ => .error .outOfFuel
  | turns + 1, needed, realLength =>
    if needed ≥ realLength then do
      let realLength ← cint (2 * realLength)
      growBuffer turns needed realLength
    else .ok realLength

/-- The loop that copies the expansions behind each other. -/
def copyLoop (realLength : Int) (endResult : Decoded) : List (Gen Decoded) → Gen Decoded
  | [] => pure endResult
  | part :: parts => do
    let tempResult ← part
    let endLength ← .ofExcept (cint (endResult.length + tempResult.length))
    let realLength ← .ofExcept (growBuffer 32 endLength realLength)
    let endResult ← .ofExcept (endResult.append tempResult)
    copyLoop realLength endResult parts

/-- `parse_repetition` with these sizes; `parseRepetition` puts no bound on them. -/
def parseRepetitionInt (fuel : Nat) (elementStr : CString) (env : Environment) : Gen Decoded := do
  let ⟨min, max, elementToRepeat⟩ ← .ofExcept (scanRepetition elementStr)
  let drawn ← randMod (← .ofExcept (cint (max - min + 1)))
  let quantity ← .ofExcept (cint (drawn + min))
  let parts := List.replicate quantity.toNat (parseElement fuel elementToRepeat env)
  if quantity = 0 then pure .none else copyLoop quantity .none parts

/-! ### What the buffer can hold -/

/-- The largest size that doubling from `r` reaches. -/
def bufferRoom (r : Nat) : Nat := r * 2 ^ Nat.log 2 (2147483647 / r)

section Room
variable {r : Nat}

theorem le_bufferRoom (r : Nat) : r ≤ bufferRoom r :=
  Nat.le_mul_of_pos_right r (by positivity)

theorem bufferRoom_le (positive : 0 < r) (fits : r ≤ 2147483647) : bufferRoom r ≤ 2147483647 := by
  have some : 2147483647 / r ≠ 0 := (Nat.div_pos fits positive).ne'
  calc bufferRoom r ≤ r * (2147483647 / r) := Nat.mul_le_mul_left r (Nat.pow_log_le_self 2 some)
    _ ≤ 2147483647 := Nat.mul_div_le 2147483647 r

theorem bufferRoom_double (positive : 0 < r) (room : 2 * r ≤ 2147483647) :
    bufferRoom (2 * r) = bufferRoom r := by
  have two : 2 ≤ 2147483647 / r := (Nat.le_div_iff_mul_le positive).mpr room
  have half : 2147483647 / (2 * r) = 2147483647 / r / 2 := by
    rw [Nat.mul_comm, Nat.div_div_eq_div_mul]
  rw [bufferRoom, bufferRoom, half, Nat.log_of_one_lt_of_le (by decide) two, Nat.pow_succ]
  ring

theorem bufferRoom_last (fits : r ≤ 2147483647) (last : 2147483647 < 2 * r) :
    bufferRoom r = r := by
  have one : 2147483647 / r = 1 :=
    Nat.div_eq_of_lt_le (by omega) (by omega)
  simp [bufferRoom, one]

theorem cint_double (double : 2 * r ≤ 2147483647) :
    cint (2 * (r : Int)) = .ok ((2 * r : Nat) : Int) := by
  push_cast
  exact cint_of_range (by omega) (by omega)

theorem double_enough {turns : Nat} (enough : 2147483647 < r * 2 ^ (turns + 1)) :
    2147483647 < 2 * r * 2 ^ turns := by
  rw [Nat.pow_succ] at enough
  calc 2147483647 < r * (2 ^ turns * 2) := enough
    _ = 2 * r * 2 ^ turns := by ring

/-- A size that has to be exceeded is doubled past, as long as there is room. -/
theorem growBuffer_room {turns needed : Nat} (positive : 0 < r) (fits : r ≤ 2147483647)
    (enough : 2147483647 < r * 2 ^ turns) (room : needed < bufferRoom r) :
    ∃ grown : Nat, growBuffer (turns + 1) needed r = .ok grown ∧ 0 < grown ∧
      grown ≤ 2147483647 ∧ bufferRoom grown = bufferRoom r := by
  induction turns generalizing r with
  | zero => omega
  | succ turns ih =>
    rw [growBuffer]
    by_cases full : r ≤ needed
    · have double : 2 * r ≤ 2147483647 := by
        by_contra last
        rw [bufferRoom_last fits (by omega)] at room
        omega
      have same := bufferRoom_double positive double
      obtain ⟨grown, done, least, most, kept⟩ :=
        ih (by omega) double (double_enough enough) (same ▸ room)
      refine ⟨grown, ?_, least, most, kept.trans same⟩
      rw [if_pos (by omega), cint_double double, ok_bind]
      exact done
    · refine ⟨r, ?_, positive, fits, rfl⟩
      rw [if_neg (by omega)]

theorem growBuffer_full {turns needed : Nat} (positive : 0 < r) (fits : r ≤ 2147483647)
    (enough : 2147483647 < r * 2 ^ turns) (full : bufferRoom r ≤ needed) :
    growBuffer (turns + 1) needed r = .error .overflow := by
  induction turns generalizing r with
  | zero => omega
  | succ turns ih =>
    have reached := (le_bufferRoom r).trans full
    rw [growBuffer, if_pos (by omega)]
    by_cases double : 2 * r ≤ 2147483647
    · have same := bufferRoom_double positive double
      rw [cint_double double, ok_bind]
      exact ih (by omega) double (double_enough enough) (same ▸ full)
    · have large : intMax < 2 * (r : Int) := by
        unfold intMax
        omega
      rw [cint_overflow large, error_bind]

end Room

/-! ### Copying -/

theorem append_length {result part joined : Decoded} (appended : result.append part = .ok joined) :
    joined.length = result.length + part.length := by
  unfold Decoded.append at appended
  split at appended
  · obtain rfl := Except.ok.inj appended
    rfl
  · cases appended

theorem concatenate_grows {parts : List (Gen Decoded)} {result d : Decoded}
    (y : (concatenate result parts).Yields d) : result.length ≤ d.length := by
  induction parts generalizing result with
  | nil =>
    obtain rfl : result = d := y
    exact Nat.le_refl _
  | cons part parts ih =>
    obtain ⟨p, _, y⟩ := (Sampler.yields_bind ..).mp y
    obtain ⟨joined, append, y⟩ := (Sampler.yields_bind ..).mp y
    have length := append_length ((Sampler.yields_ofExcept ..).mp append)
    have later := ih y
    omega

/-- The loop copies what fits in the room of its buffer, and overflows otherwise. -/
theorem copyLoop_run {parts : List (Gen Decoded)} {r : Nat} {result d : Decoded}
    {draws rest : RandStream} (positive : 0 < r) (fits : r ≤ 2147483647)
    (start : result.length < bufferRoom r)
    (run : (concatenate result parts).run draws = .ok (d, rest)) :
    (copyLoop r result parts).run draws =
      if d.length < bufferRoom r then .ok (d, rest) else .error .overflow := by
  induction parts generalizing r result draws with
  | nil =>
    obtain ⟨rfl, rfl⟩ := Sampler.run_done_ok run
    rw [if_pos start]
    rfl
  | cons part parts ih =>
    obtain ⟨p, mid, first, run⟩ := Sampler.run_bind_ok run
    obtain ⟨joined, append, run⟩ := Sampler.run_ofExcept_bind_ok run
    have length := append_length append
    have grows := concatenate_grows (Sampler.yields_of_run run)
    have most := bufferRoom_le positive fits
    have enough : 2147483647 < r * 2 ^ 31 := by omega
    have sum : joined.length ≤ 2147483647 →
        cint ((result.length : Int) + p.length) = .ok (joined.length : Int) := by
      intro int
      rw [length]
      push_cast
      exact cint_of_range (by omega) (by omega)
    rw [copyLoop, Sampler.run_bind_of_run first]
    by_cases room : joined.length < bufferRoom r
    · obtain ⟨grown, grow, least, upper, kept⟩ := growBuffer_room positive fits enough room
      rw [sum (by omega), Sampler.ofExcept_ok, Sampler.bind_done, grow, Sampler.ofExcept_ok,
        Sampler.bind_done, append, Sampler.ofExcept_ok, Sampler.bind_done,
        ih least upper (kept ▸ room) run, kept]
    · have over_ : ¬ d.length < bufferRoom r := by omega
      rw [if_neg over_]
      by_cases int : joined.length ≤ 2147483647
      · have full := growBuffer_full positive fits enough (Nat.le_of_not_lt room)
        rw [sum int, Sampler.ofExcept_ok, Sampler.bind_done, full]
        rfl
      · have large : intMax < (result.length : Int) + p.length := by
          unfold intMax
          omega
        rw [cint_overflow large]
        rfl

theorem concatenate_of_copyLoop {parts : List (Gen Decoded)} {r : Int} {result d : Decoded}
    {draws rest : RandStream} (run : (copyLoop r result parts).run draws = .ok (d, rest)) :
    (concatenate result parts).run draws = .ok (d, rest) := by
  induction parts generalizing r result draws with
  | nil => exact run
  | cons part parts ih =>
    obtain ⟨p, mid, first, sizing⟩ := Sampler.run_bind_ok run
    obtain ⟨_, _, growing⟩ := Sampler.run_ofExcept_bind_ok sizing
    obtain ⟨_, _, appending⟩ := Sampler.run_ofExcept_bind_ok growing
    obtain ⟨joined, _, append, copying⟩ := Sampler.run_bind_ok appending
    rw [concatenate, Sampler.run_bind_of_run first, Sampler.run_bind_of_run append]
    exact ih copying

/-- The sizes only add ways to fail. -/
theorem parseRepetition_of_int {fuel : Nat} {text : CString} {env : Environment} {d : Decoded}
    {draws rest : RandStream}
    (run : (parseRepetitionInt fuel text env).run draws = .ok (d, rest)) :
    (parseRepetition (fuel + 1) text env).run draws = .ok (d, rest) := by
  obtain ⟨counts, _, scanned, run⟩ := Sampler.run_bind_ok run
  obtain ⟨spread, _, range, run⟩ := Sampler.run_bind_ok run
  obtain ⟨drawn, _, draw, run⟩ := Sampler.run_bind_ok run
  obtain ⟨quantity, _, counted, run⟩ := Sampler.run_bind_ok run
  rw [parseRepetition, Sampler.run_bind_of_run scanned, Sampler.run_bind_of_run range,
    Sampler.run_bind_of_run draw, Sampler.run_bind_of_run counted]
  dsimp only at run ⊢
  by_cases zero : quantity = 0
  · rw [if_pos zero] at run ⊢
    exact run
  · rw [if_neg zero] at run ⊢
    exact concatenate_of_copyLoop run

/-! ### Counting -/

/-- The texts `nX`, `*X`, `n*X`, `*mX` and `n*mX` of an element `X`, with their counts. -/
inductive RepetitionText (element : CString) : CString → Nat → Option Nat → Prop where
  | exactly {n v} : Numeral 10 n v → RepetitionText element (n ++ element) v (some v)
  | between {n m v w} : LowerCount n v → UpperCount m w → (∀ u ∈ w, v ≤ u) →
      RepetitionText element (n ++ '*' :: (m ++ element)) v w

section
variable {element text : CString} {v : Nat} {w : Option Nat} {fuel : Nat} {env : Environment}
variable {draws : RandStream}

theorem RepetitionText.scan (apart : Unrepeated element) (form : RepetitionText element text v w)
    (lower : v < 2147483647) (upper : ∀ u ∈ w, u < 2147483647) :
    scanRepetition text = .ok ⟨v, w.getD 16, element⟩ := by
  have least : (v : Int) ≤ intMax := by
    unfold intMax
    omega
  cases form with
  | exactly hn =>
    rw [scanRepetition_exactly hn apart, if_pos least]
    rfl
  | between hn hm order =>
    have most : (w.getD 16 : Int) ≤ intMax := by
      unfold intMax
      cases w with
      | none => decide
      | some u =>
        have bound := upper u rfl
        simp only [Option.getD_some]
        omega
    rw [scanRepetition_between hn hm apart, if_pos ⟨least, most⟩]

theorem RepetitionText.order (form : RepetitionText element text v w) : ∀ u ∈ w, v ≤ u := by
  cases form with
  | exactly hn =>
    intro u hu
    exact (Option.some.inj hu).le
  | between hn hm order => exact order

theorem run_parseRepetitionInt (fuel : Nat) (env : Environment) (draws : RandStream) {h : Nat}
    (scan : scanRepetition text = .ok ⟨v, h, element⟩) (nonzero : (h : Int) - v + 1 ≠ 0)
    (fits : (h : Int) - v + 1 ≤ intMax) (lower : (v : Int) ≤ intMax) :
    (parseRepetitionInt fuel text env).run draws = (do
      let quantity ← .ofExcept (cint (Int.tmod draws.head.val ((h : Int) - v + 1) + v))
      let parts := List.replicate quantity.toNat (parseElement fuel element env)
      if quantity = 0 then pure .none else copyLoop quantity .none parts : Gen Decoded).run
        draws.tail := by
  have spread : cint ((h : Int) - v + 1) = .ok ((h : Int) - v + 1) := by
    unfold intMax at lower
    refine cint_eq_ok.mpr ⟨rfl, ?_, fits⟩
    unfold intMax
    omega
  rw [parseRepetitionInt, scan, Sampler.ofExcept_ok, Sampler.bind_done]
  dsimp only
  rw [spread, Sampler.ofExcept_ok, Sampler.bind_done,
    Sampler.run_bind_of_run (run_randMod nonzero draws)]

/-- One draw decides on a count `q` within the bounds, and the result is that of `q`
expansions one after the other, if they fit in the room of a buffer that starts at `q`. -/
structure Repeated (element text : CString) (v : Nat) (w : Option Nat) (fuel : Nat)
    (env : Environment) (draws : RandStream) (q : Nat) : Prop where
  least : v ≤ q
  most : ∀ u ∈ w, q ≤ u
  copied : (parseRepetitionInt fuel text env).run draws =
    (copyLoop q .none (List.replicate q (parseElement fuel element env))).run draws.tail
  concatenated : ∀ d rest,
    (concatenate .none (List.replicate q (parseElement fuel element env))).run draws.tail =
      .ok (d, rest) → (parseRepetitionInt fuel text env).run draws =
        if d.length < bufferRoom (max q 1) then .ok (d, rest) else .error .overflow

theorem repeated_of_quantity {h q : Nat} (scan : scanRepetition text = .ok ⟨v, h, element⟩)
    (nonzero : (h : Int) - v + 1 ≠ 0) (fits : (h : Int) - v + 1 ≤ intMax)
    (quantity : Int.tmod draws.head.val ((h : Int) - v + 1) + v = q) (int : (q : Int) ≤ intMax)
    (least : v ≤ q) (most : ∀ u ∈ w, q ≤ u) : Repeated element text v w fuel env draws q := by
  have run := run_parseRepetitionInt fuel env draws scan nonzero fits (by omega)
  unfold intMax at int
  rw [quantity, cint_of_range (Int.natCast_nonneg q) int, Sampler.ofExcept_ok,
    Sampler.bind_done] at run
  dsimp only at run
  rw [Int.toNat_natCast] at run
  by_cases zero : q = 0
  · subst zero
    refine ⟨least, most, run, ?_⟩
    intro d rest done
    obtain ⟨rfl, rfl⟩ := Sampler.run_done_ok done
    have room : 0 < bufferRoom (max 0 1) := le_bufferRoom 1
    rw [run, if_pos (by decide : ((0 : Nat) : Int) = 0)]
    exact (if_pos room).symm
  · rw [if_neg (by omega)] at run
    refine ⟨least, most, run, ?_⟩
    intro d rest done
    have start : max q 1 = q := by omega
    have positive : Decoded.none.length < bufferRoom q := lt_of_lt_of_le (by
      change 0 < q
      omega) (le_bufferRoom q)
    rw [run, start]
    exact copyLoop_run (by omega) (by omega) positive done

/-- Every call repeats the element within its counts. -/
def Repeats (element text : CString) (v : Nat) (w : Option Nat) : Prop :=
  ∀ fuel env draws, ∃ q, Repeated element text v w fuel env draws q

/-- With a missing maximum the divisor is not zero and no drawn quantity leaves the
range of an `int`. -/
def CountsDrawn (v : Nat) (w : Option Nat) : Prop := w = none → v ≠ 17 ∧ v ≤ 1073741832

theorem repeats_of_counts {h : Nat} (scan : scanRepetition text = .ok ⟨v, h, element⟩)
    (bounded : ∀ u ∈ w, h = u) (open_ : w = none → h = 16) (order : ∀ u ∈ w, v ≤ u)
    (lower : v < 2147483647) (upper : ∀ u ∈ w, u < 2147483647) (counts : CountsDrawn v w) :
    Repeats element text v w := by
  intro fuel env draws
  have range : (h : Int) - v + 1 ≠ 0 ∧ (h : Int) - v + 1 ≤ intMax ∧
      ((h : Int) - v + 1).natAbs + v ≤ 2147483648 ∧
      ∀ u ∈ w, ((h : Int) - v + 1).natAbs + v = u + 1 := by
    unfold intMax
    cases w with
    | none =>
      obtain ⟨apart, small⟩ := counts rfl
      have infinite := open_ rfl
      refine ⟨by omega, by omega, by omega, ?_⟩
      intro u none
      cases none
    | some m =>
      have same := bounded m rfl
      have below := order m rfl
      have small := upper m rfl
      refine ⟨by omega, by omega, by omega, ?_⟩
      intro u some
      obtain rfl := Option.some.inj some
      omega
  obtain ⟨nonzero, fits, int, most⟩ := range
  obtain ⟨least, below⟩ := (yields_randMod_abs nonzero (by omega)).mp
    (Sampler.yields_of_run (run_randMod nonzero draws))
  refine ⟨(Int.tmod draws.head.val ((h : Int) - v + 1)).toNat + v,
    repeated_of_quantity scan nonzero fits (by omega) (by unfold intMax; omega) (by omega) ?_⟩
  intro u hu
  have last := most u hu
  omega

theorem copyLoop_noFuel {q : Nat} (positive : 0 < q) (r : Int) (draws : RandStream) :
    (copyLoop r .none (List.replicate q (parseElement 0 element env))).run draws =
      .error .outOfFuel := by
  obtain ⟨q, rfl⟩ : ∃ l, q = l + 1 := ⟨q - 1, by omega⟩
  rw [List.replicate_succ, copyLoop, parseElement]
  rfl

theorem countsDrawn_of_repeats (scan : scanRepetition text = .ok ⟨v, (16 : Nat), element⟩)
    (lower : v < 2147483647) (repeats : Repeats element text v none) :
    v ≠ 17 ∧ v ≤ 1073741832 := by
  constructor
  · rintro rfl
    obtain ⟨q, repeated⟩ := repeats 0 [] (Stream'.const 0)
    have copied := repeated.copied
    have least := repeated.least
    rw [copyLoop_noFuel (by omega), parseRepetitionInt, scan] at copied
    cases copied
  · by_contra large
    -- the draw one below the divisor's absolute value is the largest remainder
    have small : v - 18 < 2147483648 := by omega
    obtain ⟨q, repeated⟩ := repeats 0 [] (Stream'.const ⟨v - 18, small⟩)
    have copied := repeated.copied
    have least := repeated.least
    have divisor : ((16 : Nat) : Int) - v + 1 = -((v - 17 : Nat) : Int) := by
      push_cast [Nat.cast_sub (show 17 ≤ v by omega)]
      ring
    have counted := run_parseRepetitionInt 0 [] (Stream'.const ⟨v - 18, small⟩) scan
      (by rw [divisor]; omega) (by rw [divisor]; unfold intMax; omega) (by unfold intMax; omega)
    have drawn : Int.tmod ((v - 18 : Nat) : Int) (-((v - 17 : Nat) : Int)) = (v - 18 : Nat) := by
      rw [Int.tmod_neg, ← Int.ofNat_tmod, Nat.mod_eq_of_lt (by omega)]
    have exceeds : cint (((v - 18 : Nat) : Int) + v) = .error .overflow :=
      cint_overflow (by unfold intMax; omega)
    have head : (Stream'.const ⟨v - 18, small⟩ : RandStream).head.val = v - 18 := rfl
    rw [copyLoop_noFuel (by omega), counted, head, divisor, drawn, exceeds] at copied
    cases copied

/-- Every call repeats the element within its counts exactly if the missing maximum, read as
16, leaves a divisor and no quantity beyond an `int`. -/
theorem repeats_iff (apart : Unrepeated element) (form : RepetitionText element text v w)
    (lower : v < 2147483647) (upper : ∀ u ∈ w, u < 2147483647) :
    Repeats element text v w ↔ CountsDrawn v w := by
  have scan := form.scan apart lower upper
  constructor
  · rintro repeats rfl
    exact countsDrawn_of_repeats scan lower repeats
  · intro counts
    refine repeats_of_counts (h := w.getD 16) ?_ ?_ ?_ form.order lower upper counts
    · exact scan
    · rintro u some
      rw [some]
      rfl
    · rintro rfl
      rfl

end

theorem repeats_iff_two :
    Repeats (cstr "OCTET") (cstr "*2OCTET") 0 (some 2) ↔ CountsDrawn 0 (some 2) :=
  have two : Numeral 10 ['2'] 2 := ⟨by simp, by simp [digitValue, isDigit], rfl⟩
  have apart : Unrepeated (cstr "OCTET") := by simp [Unrepeated, cstr, isDigit]
  have form : RepetitionText (cstr "OCTET") ([] ++ '*' :: (['2'] ++ cstr "OCTET")) 0 (some 2) :=
    .between .absent (.given two) (by simp)
  repeats_iff apart form (by decide) (by simp)

/-- Seventeen octets or more: the divisor is 16 - 17 + 1. -/
theorem seventeen_divides :
    (parseRepetitionInt 2 (cstr "17*OCTET") []).run (Stream'.const 0) = .error .divisionByZero ∧
      ¬ Repeats (cstr "OCTET") (cstr "17*OCTET") 17 none := by
  refine ⟨rfl, ?_⟩
  intro repeats
  obtain ⟨q, repeated⟩ := repeats 0 [] (Stream'.const 0)
  have copied := repeated.copied
  have least := repeated.least
  rw [copyLoop_noFuel (by omega)] at copied
  cases copied

end Amqpgram
