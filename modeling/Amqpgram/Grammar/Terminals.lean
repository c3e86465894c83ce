import Amqpgram.Grammar.Spelling

/-! Byte values written as a terminal: any number of zeros in front of the digits
of each value, in the base that the letter behind `%` names. -/
namespace Amqpgram

def writeByte (base zeros : Nat) (b : UInt8) : CString :=
  List.replicate zeros '0' ++ Nat.toDigits base b.toNat

/-- One count of leading zeros for each of the bytes. -/
def writeBytes (base : Nat) (zeros : List Nat) (bs : List UInt8) : List CString :=
  List.zipWith (writeByte base) zeros bs

def writeTerminal (letter : Char) (numerals : List CString) : CString :=
  '%' :: letter :: dots numerals

theorem numeral_padded {base : Nat} (pos : base ≠ 0) {t : CString} {v : Nat}
    (n : Numeral base t v) : Numeral base ('0' :: t) v where
  nonempty := by simp
  digits := by
    intro c member
    rcases List.mem_cons.mp member with rfl | tail
    · exact ⟨0, rfl, Nat.pos_of_ne_zero pos⟩
    · exact n.digits c tail
  value := by
    have digit : (digitValue '0').getD 0 = 0 := rfl
    simpa [digitsValue, digit] using n.value

theorem numeral_zeros {base : Nat} (pos : base ≠ 0) {t : CString} {v : Nat}
    (n : Numeral base t v) (zeros : Nat) : Numeral base (List.replicate zeros '0' ++ t) v := by
  induction zeros with
  | zero => exact n
  | succ zeros ih => exact numeral_padded pos ih

/-- What `Numeral` asks of the digits of a value, as a computation. -/
def readsBack (base : Nat) (v : Nat) : Bool :=
  let t := Nat.toDigits base v
  !t.isEmpty && t.all (fun c => (digitValue c).any (· < base)) && digitsValue base 0 t == v

theorem numeral_of_readsBack {base v : Nat} (h : readsBack base v = true) :
    Numeral base (Nat.toDigits base v) v := by
  simp only [readsBack, Bool.and_eq_true, Bool.not_eq_true', List.isEmpty_eq_false_iff,
    List.all_eq_true, Option.any_eq_true, decide_eq_true_eq, beq_iff_eq] at h
  exact ⟨h.1.1, h.1.2, h.2⟩

theorem byte_readsBack {letter : Char} {base : Nat} (h : TerminalBase letter base) :
    ∀ v : Fin 256, readsBack base v = true := by
  cases h <;> decide +kernel

section Written
variable {letter : Char} {base : Nat}

theorem numeral_writeByte (h : TerminalBase letter base) (zeros : Nat) (b : UInt8) :
    Numeral base (writeByte base zeros b) b.toNat :=
  numeral_zeros (terminalBase_pos h)
    (numeral_of_readsBack (byte_readsBack h ⟨b.toNat, b.toNat_lt⟩)) zeros

theorem dotted_writeBytes (h : TerminalBase letter base) {zeros : List Nat} {bs : List UInt8}
    (nonempty : bs ≠ []) (each : zeros.length = bs.length) :
    Dotted base (writeBytes base zeros bs) bs where
  nonempty := by
    intro empty
    have count := congrArg List.length empty
    simp only [writeBytes, List.length_zipWith, each, Nat.min_self, List.length_nil] at count
    exact nonempty (List.length_eq_zero_iff.mp count)
  values := by
    clear nonempty
    induction bs generalizing zeros with
    | nil => cases zeros <;> simp_all [writeBytes]
    | cons b bs ih =>
      cases zeros with
      | nil => simp at each
      | cons z zeros => exact .cons (numeral_writeByte h z b) (ih (by simpa using each))

/-- The bytes come back from every spelling of them, so from the written one. -/
theorem decodeTerminalSymbol_written (h : TerminalBase letter base) {bs : List UInt8}
    (nonempty : bs ≠ []) :
    (∀ numerals, List.Forall₂ (fun t (b : UInt8) => Numeral base t b.toNat) numerals bs →
      decodeTerminalSymbol (writeTerminal letter numerals) = .ok ⟨bs, bs.length⟩) ∧
    (∀ zeros : List Nat, zeros.length = bs.length →
      decodeTerminalSymbol (writeTerminal letter (writeBytes base zeros bs)) =
        .ok ⟨bs, bs.length⟩) := by
  constructor
  · intro numerals values
    have spelled : numerals ≠ [] := by
      rintro rfl
      cases values
      exact nonempty rfl
    exact decodeTerminalSymbol_dotted h ⟨spelled, values⟩
  · intro zeros each
    exact decodeTerminalSymbol_dotted h (dotted_writeBytes h nonempty each)

end Written

theorem decodeTerminalSymbol_written_hex :
    decodeTerminalSymbol (cstr "%x00ff.000.7") = .ok ⟨[255, 0, 7], 3⟩ :=
  (decodeTerminalSymbol_written .x (show ([255, 0, 7] : List UInt8) ≠ [] by decide)).2 [2, 2, 0] rfl

end Amqpgram
