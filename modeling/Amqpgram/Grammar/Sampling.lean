import Amqpgram.Grammar.Spelling

/-! What the sampling sites of packet-generator.c can produce, exactly: the
values of a range terminal, the bytes of a quoted literal and the counts of a
repetition. Together they are a reading of ABNF of their own. -/
namespace Amqpgram
open Abnf (Element)

/-- The width of a range's output: the bytes of the upper end behind its leading
zeros, less one when the first of them is 1. -/
def keptWidth (hi : List UInt8) : Nat :=
  match hi.dropWhile (· == 0) with
  | [] => 0
  | b :: bs => if b = 1 then bs.length else bs.length + 1

/-- `quotedByte` on the bytes of the literal. -/
def shiftedByte (b : UInt8) : UInt8 := if 65 ≤ b ∧ b ≤ 90 then b + 20 else b

/-- The choices the generator takes: a range stops below its upper end and its
bounds have at most three bytes; the counts and their difference fit an `int`;
an optional part is left out. -/
def sampled : Abnf.Reading where
  range lo hi := {w | hi.length ≤ 3 ∧ ∃ v, Words.value lo ≤ v ∧ v < Words.value hi ∧
    w = Words.bytes (keptWidth hi) v}
  literal t := {t.map shiftedByte}
  count min max := {q | (min : Int) ≤ intMax ∧ (max.getD 16 : Int) ≤ intMax ∧
    (max.getD 16 : Int) - min + 1 ≤ intMax ∧ min ≤ q ∧
    (q : Int) - min < ((max.getD 16 : Int) - min + 1).natAbs ∧ (q : Int) ≤ intMax}
  option := False

/-! ### Ranges -/

theorem fillBytes_eq (n gen : Nat) : fillBytes n gen = Words.bytes n gen := by
  induction n generalizing gen with
  | zero => rfl
  | succ n ih =>
    unfold fillBytes
    split
    · rw [ih, Words.bytes_succ_last]
    · have zero : gen = 0 := by omega
      rw [zero, Words.bytes_of_zero]

theorem keptWidth_concat (bs : List UInt8) (b : UInt8) :
    keptWidth (bs ++ [b]) = if 1 < Words.value (bs ++ [b]) then keptWidth bs + 1 else 0 := by
  induction bs with
  | nil =>
    by_cases zero : b = 0
    · simp [keptWidth, zero]
    · by_cases one : b = 1
      · simp [keptWidth, one]
      · have big : 1 < b.toNat := by
          have hz : b.toNat ≠ 0 := fun h => zero (UInt8.toNat_inj.mp h)
          have ho : b.toNat ≠ 1 := fun h => one (UInt8.toNat_inj.mp h)
          omega
        simp [keptWidth, zero, one, big]
  | cons a bs ih =>
    by_cases zero : a = 0
    · simpa [keptWidth, zero] using ih
    · have big : 1 < Words.value (a :: bs ++ [b]) := by
        have pos : 1 ≤ a.toNat := by
          have hz : a.toNat ≠ 0 := fun h => zero (UInt8.toNat_inj.mp h)
          omega
        have weight : 256 ≤ 256 ^ (bs ++ [b]).length := by
          rw [List.length_append]
          exact Nat.le_self_pow (by simp) 256
        have scaled := Nat.mul_le_mul pos weight
        simp only [List.cons_append, Words.value_cons]
        omega
      rw [if_pos big]
      by_cases one : a = 1
      · simp [keptWidth, one]
      · simp [keptWidth, zero, one]

theorem stringLength_eq (turns : Nat) (bs : List UInt8) (enough : bs.length ≤ turns) :
    stringLength turns (Words.value bs) = keptWidth bs := by
  induction bs using List.reverseRecOn generalizing turns with
  | nil => cases turns <;> simp [stringLength, keptWidth]
  | append_singleton bs b ih =>
    cases turns with
    | zero => simp at enough
    | succ turns =>
      have shorter : bs.length ≤ turns := by simpa using enough
      have quotient : (Words.value (bs ++ [b]) : Int).tdiv 256 = Words.value bs := by
        have last := b.toNat_lt
        rw [Words.value_concat, Int.tdiv_eq_ediv_of_nonneg (Int.natCast_nonneg _)]
        omega
      rw [keptWidth_concat, stringLength, quotient, ih turns shorter]
      by_cases big : 1 < Words.value (bs ++ [b])
      · rw [if_pos big, if_pos (by omega)]
      · rw [if_neg big, if_neg (by omega)]

/-- At most three bytes add up without leaving the range of an `int`. -/
theorem boundLoop_eq (bs : List UInt8) (j acc : Nat) (short : j + bs.length ≤ 3)
    (small : acc < 256 ^ j) :
    boundLoop bs (256 ^ j) acc = .ok (acc + 256 ^ j * Words.value bs.reverse) := by
  induction bs generalizing j acc with
  | nil => simp [boundLoop]
  | cons b bs ih =>
    have room : j + 1 ≤ 3 := by simp only [List.length_cons] at short; omega
    have weight : 256 ^ (j + 1) ≤ 256 ^ 3 := Nat.pow_le_pow_right (by norm_num) room
    have pow : 256 ^ (j + 1) = 256 ^ j * 256 := Nat.pow_succ ..
    have byte := b.toNat_lt
    have scaled : b.toNat * 256 ^ j ≤ 255 * 256 ^ j := Nat.mul_le_mul_right _ (by omega)
    have term : cint ((b.toNat : Int) * 256 ^ j) = .ok ((b.toNat * 256 ^ j : Nat) : Int) := by
      have cast : (b.toNat : Int) * 256 ^ j = ((b.toNat * 256 ^ j : Nat) : Int) := by
        push_cast
        ring
      rw [cast]
      exact cint_of_range (by omega) (by omega)
    have sum : cint ((acc : Int) + ((b.toNat * 256 ^ j : Nat) : Int)) =
        .ok ((acc + b.toNat * 256 ^ j : Nat) : Int) := by
      have cast : (acc : Int) + ((b.toNat * 256 ^ j : Nat) : Int) =
        ((acc + b.toNat * 256 ^ j : Nat) : Int) := by push_cast; ring
      rw [cast]
      exact cint_of_range (by omega) (by omega)
    have base : cint ((256 : Int) ^ j * 256) = .ok ((256 : Int) ^ (j + 1)) := by
      have cast : (256 : Int) ^ j * 256 = ((256 ^ (j + 1) : Nat) : Int) := by push_cast; ring
      rw [cast, cint_of_range (by omega) (by omega)]
      push_cast
      rfl
    have tail := ih (j + 1) (acc + b.toNat * 256 ^ j)
      (by simp only [List.length_cons] at short; omega) (by omega)
    rw [boundLoop, term]
    simp only [bind, Except.bind, sum, base, tail, List.reverse_cons, Words.value_concat]
    congr 1
    push_cast
    ring

/-- With a fourth byte the weight of the next one no longer fits. -/
theorem boundLoop_overflow (bs : List UInt8) (j : Nat) (acc : Int) (room : j ≤ 3)
    (long : 4 ≤ j + bs.length) : ∃ e, boundLoop bs (256 ^ j) acc = .error e := by
  induction bs generalizing j acc with
  | nil => simp at long; omega
  | cons b bs ih =>
    rw [boundLoop]
    cases cint ((b.toNat : Int) * 256 ^ j) with
    | error e => exact ⟨e, rfl⟩
    | ok term =>
      simp only [bind, Except.bind]
      cases cint (acc + term) with
      | error e => exact ⟨e, rfl⟩
      | ok sum =>
        dsimp only
        by_cases last : j = 3
        · have exceeds : cint ((256 : Int) ^ j * 256) = .error .overflow := by rw [last]; decide
          exact ⟨_, by rw [exceeds]⟩
        · have fits : (256 : Int) ^ j * 256 = 256 ^ (j + 1) := (Int.pow_succ ..).symm
          cases next : cint ((256 : Int) ^ j * 256) with
          | error e => exact ⟨e, rfl⟩
          | ok base =>
            obtain ⟨rfl, _⟩ := cint_eq_ok.mp next
            rw [fits]
            exact ih (j + 1) sum (by omega) (by simp only [List.length_cons] at long; omega)

theorem bound_eq (bs : List UInt8) (short : bs.length ≤ 3) :
    bound ⟨bs, bs.length⟩ = .ok (Words.value bs : Int) := by
  have loop := boundLoop_eq bs.reverse 0 0 (by simpa using short) (by simp)
  simpa [bound] using loop

theorem bound_overflow (bs : List UInt8) (long : 4 ≤ bs.length) :
    ∃ e, bound ⟨bs, bs.length⟩ = .error e := by
  have loop := boundLoop_overflow bs.reverse 0 0 (by omega) (by simpa using long)
  simpa [bound] using loop

section Range
variable {b : Char} {base : Nat} {ls hs : List CString} {lo hi : List UInt8}

theorem range_tokens (hb : TerminalBase b base) (hl : Dotted base ls lo) (hh : Dotted base hs hi) :
    Tokens.tokens '-' ('%' :: b :: (dots ls ++ '-' :: dots hs)) =
      ['%' :: b :: dots ls, dots hs] := by
  have dash : b ≠ '-' := by cases hb <;> decide
  have lower : '-' ∉ '%' :: b :: dots ls := by
    simp only [List.mem_cons, not_or]
    exact ⟨by decide, dash.symm, not_mem_dots (hl.not_mem (by decide)) (by decide)⟩
  have upper : '-' ∉ dots hs := not_mem_dots (hh.not_mem (by decide)) (by decide)
  have nonempty : dots hs ≠ [] := by
    obtain ⟨n, ns, rfl⟩ := List.exists_cons_of_ne_nil hh.nonempty
    have first := hh.pieces_nonempty n (by simp)
    simp [dots_cons, first]
  have cut := Tokens.tokens_append_cons '-' ('%' :: b :: dots ls) (dots hs)
  rw [Tokens.tokens_of_not_mem lower (by simp), Tokens.tokens_of_not_mem upper nonempty] at cut
  exact cut

theorem range_count (hb : TerminalBase b base) (hl : Dotted base ls lo) (hh : Dotted base hs hi) :
    ('%' :: b :: (dots ls ++ '-' :: dots hs)).count '-' = 1 := by
  have dash : b ≠ '-' := by cases hb <;> decide
  have lower : '-' ∉ dots ls := not_mem_dots (hl.not_mem (by decide)) (by decide)
  have upper : '-' ∉ dots hs := not_mem_dots (hh.not_mem (by decide)) (by decide)
  rw [List.count_cons_of_ne (by decide), List.count_cons_of_ne dash, List.count_append,
    List.count_cons_self, List.count_eq_zero.mpr lower, List.count_eq_zero.mpr upper]

theorem patchedTerminal_eq (hb : TerminalBase b base) (t : CString) :
    patchedTerminal base t = '%' :: b :: t := by
  cases hb <;> rfl

theorem value_lt_of_length {bs : List UInt8} (short : bs.length ≤ 3) :
    Words.value bs < 16777216 :=
  calc Words.value bs < 256 ^ bs.length := Words.value_lt bs
    _ ≤ 256 ^ 3 := Nat.pow_le_pow_right (by norm_num) short
    _ = 16777216 := by norm_num

theorem decode_bound (hb : TerminalBase b base) (hl : Dotted base ls lo) (short : lo.length ≤ 3) :
    (decodeTerminalSymbol ('%' :: b :: dots ls) >>= bound) = .ok (Words.value lo : Int) := by
  rw [decodeTerminalSymbol_dotted hb hl]
  exact bound_eq lo short

theorem yields_drawn {l h : Nat} (order : l ≤ h) (small : h < 16777216) (n : Nat) (d : Decoded) :
    (do let spread ← .ofExcept (cint ((h : Int) - l))
        let drawn ← randMod spread
        let gen ← .ofExcept (cint (drawn + l))
        pure ⟨fillBytes n (wrapUnsigned 32 gen), n⟩ : Gen Decoded).Yields d ↔
      ∃ v, l ≤ v ∧ v < h ∧ d = ⟨Words.bytes n v, n⟩ := by
  have spread := cint_of_range (x := (h : Int) - l) (by omega) (by omega)
  rw [spread, Sampler.ofExcept_ok, Sampler.bind_done, Sampler.yields_bind]
  by_cases empty : h = l
  · subst empty
    constructor
    · rintro ⟨x, hx, -⟩
      exact ((yields_randMod.mp hx).1 (by omega)).elim
    · rintro ⟨v, lo, hi, -⟩
      omega
  · constructor
    · rintro ⟨x, hx, rest⟩
      obtain ⟨lo, hi⟩ := (yields_randMod_abs (by omega) (by omega)).mp hx
      have back : (x + l : Int) = ((x.toNat + l : Nat) : Int) := by omega
      have wrapped : wrapUnsigned 32 ((x.toNat + l : Nat) : Int) = x.toNat + l := by
        unfold wrapUnsigned
        omega
      rw [back, cint_of_range (by omega) (by omega)] at rest
      simp only [Sampler.ofExcept_ok, Sampler.bind_done, Sampler.pure_eq, Sampler.yields_done,
        wrapped, fillBytes_eq] at rest
      exact ⟨x.toNat + l, by omega, by omega, rest.symm⟩
    · rintro ⟨v, lo, hi, rfl⟩
      refine ⟨((v - l : Nat) : Int), (yields_randMod_abs (by omega) (by omega)).mpr (by omega), ?_⟩
      have back : ((v - l : Nat) : Int) + l = (v : Int) := by omega
      have wrapped : wrapUnsigned 32 (v : Int) = v := by
        unfold wrapUnsigned
        omega
      rw [back, cint_of_range (by omega) (by omega)]
      simp only [Sampler.ofExcept_ok, Sampler.bind_done, Sampler.pure_eq, Sampler.yields_done,
        wrapped, fillBytes_eq]

/-- A range terminal yields exactly the sampled values, each with its own length. -/
theorem yields_decodeTerminalRange (hb : TerminalBase b base) (hl : Dotted base ls lo)
    (hh : Dotted base hs hi) (same : lo.length = hi.length)
    (order : Words.value lo ≤ Words.value hi) (d : Decoded) :
    (decodeTerminalRange ('%' :: b :: (dots ls ++ '-' :: dots hs))).Yields d ↔
      d.bytes ∈ sampled.range lo hi ∧ d.length = d.bytes.length := by
  rw [decodeTerminalRange, range_tokens hb hl hh, getTerminalBase_eq hb]
  by_cases short : hi.length ≤ 3
  · have width := stringLength_eq 4 hi (by omega)
    simp only [patchedTerminal_eq hb, decode_bound hb hl (same ▸ short), decode_bound hb hh short,
      Sampler.ofExcept_ok, Sampler.bind_done, width]
    rw [yields_drawn order (value_lt_of_length short)]
    constructor
    · rintro ⟨v, lo, hi, rfl⟩
      exact ⟨⟨short, v, lo, hi, rfl⟩, (Words.length_bytes ..).symm⟩
    · rintro ⟨⟨-, v, lo, hi, content⟩, number⟩
      refine ⟨v, lo, hi, ?_⟩
      rw [content, Words.length_bytes] at number
      cases d
      simp_all
  · obtain ⟨e, exceeds⟩ := bound_overflow lo (by omega)
    have first : (decodeTerminalSymbol ('%' :: b :: dots ls) >>= bound) = .error e := by
      rw [decodeTerminalSymbol_dotted hb hl]
      exact exceeds
    simp only [first, Sampler.ofExcept_error, Sampler.bind_fail, Sampler.yields_fail, false_iff]
    rintro ⟨⟨bounds, -⟩, -⟩
    exact short bounds

end Range

/-! ### Quoted literals -/

theorem quotedByte_eq {c : Char} (small : c.toNat < 256) :
    quotedByte c = shiftedByte (charByte c) := by
  have code : (charByte c).toNat = c.toNat := by
    simp [charByte, Nat.mod_eq_of_lt small]
  simp only [quotedByte, shiftedByte, UInt8.le_iff_toNat_le, code]
  rfl

theorem decodeQuoted_literal {t : CString} (inside : ∀ c ∈ t, c ≠ '"' ∧ c.toNat < 256) :
    decodeQuoted ('"' :: (t ++ ['"'])) =
      ⟨(t.map charByte).map shiftedByte, ((t.map charByte).map shiftedByte).length⟩ := by
  have content : (t ++ ['"']).takeWhile (· ≠ '"') = t := by
    rw [List.takeWhile_append_of_pos (by simpa using fun c hc => (inside c hc).1)]
    simp
  have bytes : t.map quotedByte = (t.map charByte).map shiftedByte := by
    rw [List.map_map]
    exact List.map_congr_left fun c hc => quotedByte_eq (inside c hc).2
  simp only [decodeQuoted, List.drop_succ_cons, List.drop_zero, content, bytes]

/-! ### Repetition counts -/

theorem digitValue_ten {c : Char} {d : Nat} (value : digitValue c = some d) (small : d < 10) :
    isDigit c = true ∧ ((c.toNat : Int) - 48) = d := by
  unfold isDigit
  simp only [Bool.and_eq_true, decide_eq_true_eq]
  rcases digitValue_range value with r | r | r <;> omega

theorem le_digitsValue (acc : Nat) (t : CString) : acc ≤ digitsValue 10 acc t := by
  induction t generalizing acc with
  | nil => exact Nat.le_refl acc
  | cons c t ih =>
    have tail := ih (acc * 10 + (digitValue c).getD 0)
    have step : acc ≤ acc * 10 + (digitValue c).getD 0 := by omega
    exact step.trans tail

theorem scanNumber_digits {t rest : CString}
    (digits : ∀ c ∈ t, ∃ d, digitValue c = some d ∧ d < 10)
    (stop : ∀ c ∈ rest.head?, isDigit c = false) (acc : Nat) (start : (acc : Int) ≤ intMax) :
    scanNumber acc (t ++ rest) =
      if (digitsValue 10 acc t : Int) ≤ intMax then .ok ((digitsValue 10 acc t : Int), rest)
      else .error .overflow := by
  induction t generalizing acc with
  | nil =>
    rw [if_pos (by simpa [digitsValue] using start)]
    cases rest with
    | nil => rfl
    | cons c rest => simp [scanNumber, stop c (by simp), digitsValue]
  | cons c t ih =>
    obtain ⟨d, value, small⟩ := digits c (by simp)
    obtain ⟨digit, code⟩ := digitValue_ten value small
    have next : digitsValue 10 acc (c :: t) = digitsValue 10 (acc * 10 + d) t := by
      simp [digitsValue, value]
    have cast : (acc : Int) * 10 + (c.toNat - 48) = ((acc * 10 + d : Nat) : Int) := by
      rw [code]
      push_cast
      ring
    rw [List.cons_append, scanNumber, if_pos digit, cast, next]
    by_cases fits : ((acc * 10 + d : Nat) : Int) ≤ intMax
    · rw [cint_of_range (Int.natCast_nonneg _) fits]
      exact ih (fun x hx => digits x (by simp [hx])) _ fits
    · have grows := le_digitsValue (acc * 10 + d) t
      rw [cint_overflow (Int.not_le.mp fits), if_neg (by omega)]
      rfl

theorem LowerCount.digits {t : CString} {v : Nat} (h : LowerCount t v) :
    (∀ c ∈ t, ∃ d, digitValue c = some d ∧ d < 10) ∧ digitsValue 10 0 t = v := by
  cases h with
  | absent => exact ⟨by simp, rfl⟩
  | given n => exact ⟨n.digits, n.value⟩

section Counts
variable {text t n m : CString} {e : Element CString} {v : Nat} {w : Option Nat}

theorem scanRepetition_exactly (hn : Numeral 10 n v) (ht : Unrepeated t) :
    scanRepetition (n ++ t) =
      if (v : Int) ≤ intMax then .ok ⟨v, v, t⟩ else .error .overflow := by
  have number := scanNumber_digits hn.digits (fun c hc => (ht c hc).1) 0 (by decide)
  rw [hn.value] at number
  rw [scanRepetition, show (0 : Int) = ((0 : Nat) : Int) from rfl, number]
  split
  · cases t with
    | nil => rfl
    | cons c t =>
      have star : c ≠ '*' := (ht c (by simp)).2
      simp only [bind, Except.bind]
      split
      · rename_i same
        exact (star (List.cons.inj same).1).elim
      · rfl
  · rfl

theorem scanRepetition_between (hn : LowerCount n v) (hm : UpperCount m w) (ht : Unrepeated t) :
    scanRepetition (n ++ '*' :: (m ++ t)) =
      if (v : Int) ≤ intMax ∧ (w.getD 16 : Int) ≤ intMax then .ok ⟨v, w.getD 16, t⟩
      else .error .overflow := by
  obtain ⟨digits, value⟩ := hn.digits
  have stop : ∀ c ∈ ('*' :: (m ++ t)).head?, isDigit c = false := by simp [isDigit]
  have number := scanNumber_digits digits stop 0 (by decide)
  rw [value] at number
  rw [scanRepetition, show (0 : Int) = ((0 : Nat) : Int) from rfl, number]
  by_cases lower : (v : Int) ≤ intMax
  · simp only [bind, Except.bind, lower, true_and]
    cases hm with
    | absent =>
      have none : (t.head?.any isDigit) = false := by
        cases t with
        | nil => rfl
        | cons c t => exact (ht c (by simp)).1
      simp [none, ruleRepetitionInfty, intMax, pure, Except.pure]
    | @given m w hm =>
      obtain ⟨c, s, rfl⟩ := List.exists_cons_of_ne_nil hm.nonempty
      obtain ⟨d, cv, small⟩ := hm.digits c (by simp)
      have some : ((c :: s) ++ t).head?.any isDigit = true := (digitValue_ten cv small).1
      have number := scanNumber_digits hm.digits (fun c hc => (ht c hc).1) 0 (by decide)
      rw [hm.value] at number
      simp only [some, if_true, Option.getD_some, number]
      by_cases upper : (w : Int) ≤ intMax
      · simp only [if_pos upper]
        rfl
      · simp only [if_neg upper]
  · simp only [lower, false_and]
    rfl

theorem Spells.scan (s : Spells text (.repetition v w e)) :
    ∃ t, Spells t e ∧ (∃ c ∈ text.head?, isDigit c = true ∨ c = '*') ∧
      scanRepetition text =
        if (v : Int) ≤ intMax ∧ (w.getD 16 : Int) ≤ intMax then .ok ⟨v, w.getD 16, t⟩
        else .error .overflow := by
  cases s with
  | @exactly n t v e hn ht he =>
    refine ⟨t, he, ?_, by simpa using scanRepetition_exactly hn ht⟩
    obtain ⟨c, s, rfl⟩ := List.exists_cons_of_ne_nil hn.nonempty
    obtain ⟨d, value, small⟩ := hn.digits c (by simp)
    exact ⟨c, by simp, .inl (digitValue_ten value small).1⟩
  | @between n m t v w e hn hm order ht he =>
    refine ⟨t, he, ?_, scanRepetition_between hn hm ht⟩
    cases hn with
    | absent => exact ⟨'*', by simp, .inr rfl⟩
    | given hn =>
      obtain ⟨c, s, rfl⟩ := List.exists_cons_of_ne_nil hn.nonempty
      obtain ⟨d, value, small⟩ := hn.digits c (by simp)
      exact ⟨c, by simp, .inl (digitValue_ten value small).1⟩

theorem yields_quantity {l h : Nat} (lower : (l : Int) ≤ intMax) (upper : (h : Int) ≤ intMax)
    (rest : Int → Gen Decoded) (d : Decoded) :
    (do let drawn ← randMod (← Sampler.ofExcept (cint ((h : Int) - l + 1)))
        let quantity ← Sampler.ofExcept (cint (drawn + l))
        rest quantity).Yields d ↔
      ∃ q : Nat, (h : Int) - l + 1 ≤ intMax ∧ l ≤ q ∧
        (q : Int) - l < ((h : Int) - l + 1).natAbs ∧ (q : Int) ≤ intMax ∧ (rest q).Yields d := by
  unfold intMax at *
  by_cases fits : (h : Int) - l + 1 ≤ 2147483647
  · have spread : cint ((h : Int) - l + 1) = .ok ((h : Int) - l + 1) :=
      cint_eq_ok.mpr ⟨rfl, by unfold intMax; omega, fits⟩
    rw [spread, Sampler.ofExcept_ok, Sampler.bind_done, Sampler.yields_bind]
    constructor
    · rintro ⟨x, hx, done⟩
      have nonzero := (yields_randMod.mp hx).1
      obtain ⟨lo, hi⟩ := (yields_randMod_abs nonzero (by omega)).mp hx
      simp only [Sampler.yields_bind, Sampler.yields_ofExcept] at done
      obtain ⟨y, sum, done⟩ := done
      obtain ⟨rfl, -, small⟩ := cint_eq_ok.mp sum
      unfold intMax at small
      have back : x + l = ((x.toNat + l : Nat) : Int) := by omega
      refine ⟨x.toNat + l, fits, by omega, by omega, by omega, ?_⟩
      rw [← back]
      exact done
    · rintro ⟨q, -, lo, hi, small, done⟩
      refine ⟨(q : Int) - l, (yields_randMod_abs (by omega) (by omega)).mpr (by omega), ?_⟩
      rw [show (q : Int) - l + l = (q : Int) by omega, cint_of_range (by omega) small]
      exact done
  · simp [cint_overflow (Int.not_le.mp fits), fits]

end Counts
end Amqpgram
