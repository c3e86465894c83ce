import Mathlib.Data.List.Forall2
import Amqpgram.Grammar.Generator
import Amqpgram.Library.Abnf

/-! The concrete syntax of the rules: which text spells which ABNF element, and
what the terminal decoders make of a text that spells one. The relation is
stated without the decoders; the rest of the module connects the two. -/
namespace Amqpgram
open Abnf (Element Body)

def digitsValue (base acc : Nat) (t : CString) : Nat :=
  t.foldl (fun acc c => acc * base + (digitValue c).getD 0) acc

structure Numeral (base : Nat) (t : CString) (v : Nat) : Prop where
  nonempty : t ≠ []
  digits : ∀ c ∈ t, ∃ d, digitValue c = some d ∧ d < base
  value : digitsValue base 0 t = v

inductive TerminalBase : Char → Nat → Prop where
  | b : TerminalBase 'b' 2
  | d : TerminalBase 'd' 10
  | x : TerminalBase 'x' 16

/-- Byte values written as numerals of a base and joined by dots. -/
structure Dotted (base : Nat) (numerals : List CString) (bs : List UInt8) : Prop where
  nonempty : numerals ≠ []
  values : List.Forall₂ (fun t (b : UInt8) => Numeral base t b.toNat) numerals bs

def dots (numerals : List CString) : CString := ['.'].intercalate numerals

def special (c : Char) : Bool :=
  isDigit c || c = '*' || c = '%' || c = '"' || c = '[' || c = ']'

/-- An absent count stands for none at the bottom and for no bound at the top. -/
inductive LowerCount : CString → Nat → Prop where
  | absent : LowerCount [] 0
  | given {t v} : Numeral 10 t v → LowerCount t v

inductive UpperCount : CString → Option Nat → Prop where
  | absent : UpperCount [] none
  | given {t v} : Numeral 10 t v → UpperCount t (some v)

def Unrepeated (t : CString) : Prop := ∀ c ∈ t.head?, isDigit c = false ∧ c ≠ '*'

inductive Spells : CString → Element CString → Prop where
  | rule {c t} : special c = false → Spells (c :: t) (.rule (c :: t))
  | bytes {b base ns bs} : TerminalBase b base → Dotted base ns bs →
      Spells ('%' :: b :: dots ns) (.bytes bs)
  | range {b base ls hs lo hi} : TerminalBase b base → Dotted base ls lo → Dotted base hs hi →
      lo.length = hi.length → Words.value lo ≤ Words.value hi →
      Spells ('%' :: b :: (dots ls ++ '-' :: dots hs)) (.range lo hi)
  | literal {t} : (∀ c ∈ t, c ≠ '"' ∧ c.toNat < 256) →
      Spells ('"' :: (t ++ ['"'])) (.literal (t.map charByte))
  | option {t e} : Spells t e → Spells ('[' :: (t ++ [']'])) (.option e)
  | exactly {n t v e} : Numeral 10 n v → Unrepeated t → Spells t e →
      Spells (n ++ t) (.repetition v (some v) e)
  | between {n m t v w e} : LowerCount n v → UpperCount m w → (∀ u ∈ w, v ≤ u) →
      Unrepeated t → Spells t e → Spells (n ++ '*' :: (m ++ t)) (.repetition v w e)

/-- An alternative is its elements separated by spaces. -/
def AlternativeReads (text : CString) (es : List (Element CString)) : Prop :=
  List.Forall₂ Spells (Tokens.tokens ' ' text) es

/-- `array_size` is an `int`. A byte array stands for its own bytes. -/
inductive EntryReads : GrammarEntry → Body CString → Prop where
  | string {text es} : AlternativeReads text es → EntryReads (.string text) [es]
  | stringArray {texts alts} : List.Forall₂ AlternativeReads texts alts →
      texts.length ≤ 2147483647 → EntryReads (.stringArray texts) alts
  | byteArray {bs} : EntryReads (.byteArray bs) [[.bytes bs]]

/-- The rules an environment defines, read as ABNF. -/
def rulesOf (env : Environment) (name : CString) (body : Body CString) : Prop :=
  ∃ entry, environmentLookup env name = some entry ∧ EntryReads entry body

/-! ### Digits -/

theorem digitValue_range {c : Char} {d : Nat} (h : digitValue c = some d) :
    (48 ≤ c.toNat ∧ c.toNat ≤ 57 ∧ d = c.toNat - 48) ∨
    (97 ≤ c.toNat ∧ c.toNat ≤ 122 ∧ d = c.toNat - 87) ∨
    (65 ≤ c.toNat ∧ c.toNat ≤ 90 ∧ d = c.toNat - 55) := by
  unfold digitValue isDigit at h
  simp only [Bool.and_eq_true, decide_eq_true_eq] at h
  split at h
  · rename_i range
    exact .inl ⟨range.1, range.2, (Option.some.inj h).symm⟩
  · split at h
    · rename_i range
      exact .inr (.inl ⟨range.1, range.2, (Option.some.inj h).symm⟩)
    · split at h
      · rename_i range
        exact .inr (.inr ⟨range.1, range.2, (Option.some.inj h).symm⟩)
      · cases h

theorem digit_ne {c x : Char} {d : Nat} (h : digitValue c = some d)
    (hx : x.toNat < 48 ∨ (90 < x.toNat ∧ x.toNat < 97)) : c ≠ x := by
  rintro rfl
  rcases digitValue_range h with r | r | r <;> omega

theorem Numeral.not_mem {base : Nat} {t : CString} {v : Nat} (n : Numeral base t v) {x : Char}
    (hx : x.toNat < 48 ∨ (90 < x.toNat ∧ x.toNat < 97)) : x ∉ t := by
  intro member
  obtain ⟨d, value, _⟩ := n.digits x member
  exact digit_ne value hx rfl

theorem strtolDigits_eq {base : Nat} {t : CString}
    (digits : ∀ c ∈ t, ∃ d, digitValue c = some d ∧ d < base) (acc : Nat) :
    strtolDigits base acc t = digitsValue base acc t := by
  induction t generalizing acc with
  | nil => rfl
  | cons c t ih =>
    obtain ⟨d, value, small⟩ := digits c (by simp)
    have tail := ih (fun x hx => digits x (by simp [hx])) (acc * base + d)
    simp only [strtolDigits, value, small, if_true, tail, digitsValue, List.foldl_cons,
      Option.getD_some]

theorem strtolBase_numeral {base : Nat} (pos : base ≠ 0) {t : CString}
    (digits : base = 16 → ∀ c ∈ t, ∃ d, digitValue c = some d ∧ d < 16) :
    strtolBase base t = (base, t) := by
  unfold strtolBase
  split
  · rename_i x d s
    by_cases hex : base = 16
    · have prefixed : ¬ (x = 'x' ∨ x = 'X') := by
        obtain ⟨v, value, small⟩ := digits hex x (by simp)
        rintro (rfl | rfl)
        · have code : v = 33 := (Option.some.inj value).symm
          omega
        · have code : v = 33 := (Option.some.inj value).symm
          omega
      simp [prefixed, pos]
    · simp [hex, pos]
  · simp [pos]
  · simp [pos]

theorem strtol_numeral {base : Nat} (pos : base ≠ 0) {t : CString} {v : Nat}
    (n : Numeral base t v) (small : v < 256) : strtol t base = v := by
  obtain ⟨c, s, rfl⟩ := List.exists_cons_of_ne_nil n.nonempty
  obtain ⟨d, value, _⟩ := n.digits c (by simp)
  have space : isSpace c = false := by
    rcases digitValue_range value with r | r | r <;>
      · have blank : c ≠ ' ' := digit_ne value (by decide)
        simp only [isSpace, blank, decide_false, Bool.false_or, Bool.and_eq_false_iff,
          decide_eq_false_iff_not]
        omega
  have minus : c ≠ '-' := digit_ne value (by decide)
  have plus : c ≠ '+' := digit_ne value (by decide)
  have digits := strtolDigits_eq n.digits 0
  have readBase := strtolBase_numeral pos (t := c :: s)
    (fun hex => by simpa [hex] using n.digits)
  simp only [strtol, List.dropWhile_cons, space, List.head?_cons, Option.some.injEq, minus,
    plus, or_self, if_false, Bool.false_eq_true, readBase, digits, n.value]
  omega

theorem terminalBase_pos {b : Char} {base : Nat} (h : TerminalBase b base) : base ≠ 0 := by
  cases h <;> decide

theorem getTerminalBase_eq {b : Char} {base : Nat} (h : TerminalBase b base) (t : CString) :
    getTerminalBase ('%' :: b :: t) = base := by
  cases h <;> rfl

/-! ### Dotted terminals -/

section Dotted
variable {b : Char} {base : Nat} {ns : List CString} {bs : List UInt8}

theorem Dotted.numeral (h : Dotted base ns bs) {n : CString} (member : n ∈ ns) :
    ∃ v, Numeral base n v := by
  have values := h.values
  clear h
  induction values with
  | nil => cases member
  | cons first _ ih =>
    rcases List.mem_cons.mp member with rfl | tail
    · exact ⟨_, first⟩
    · exact ih tail

theorem Dotted.not_mem (h : Dotted base ns bs) {x : Char}
    (hx : x.toNat < 48 ∨ (90 < x.toNat ∧ x.toNat < 97)) : ∀ n ∈ ns, x ∉ n := by
  intro n member
  obtain ⟨v, numeral⟩ := h.numeral member
  exact numeral.not_mem hx

theorem Dotted.pieces_nonempty (h : Dotted base ns bs) : ∀ n ∈ ns, n ≠ [] := by
  intro n member
  obtain ⟨v, numeral⟩ := h.numeral member
  exact numeral.nonempty

theorem Dotted.length (h : Dotted base ns bs) : bs.length = ns.length := h.values.length_eq.symm

theorem dots_cons (n : CString) (ns : List CString) :
    dots (n :: ns) = n ++ ns.flatMap fun m => '.' :: m := by
  induction ns generalizing n with
  | nil => simp [dots]
  | cons m ns ih =>
    have tail := ih m
    simp only [dots] at tail ⊢
    rw [List.intercalate_cons_cons, tail]
    simp

theorem not_mem_dots {ns : List CString} {x : Char} (apart : ∀ n ∈ ns, x ∉ n) (hx : x ≠ '.') :
    x ∉ dots ns := by
  cases ns with
  | nil => simp [dots]
  | cons n ns =>
    rw [dots_cons]
    simp only [List.mem_append, List.mem_flatMap, List.mem_cons, not_or, not_exists, not_and]
    exact ⟨apart n (by simp), fun m hm => ⟨hx, apart m (by simp [hm])⟩⟩

theorem decodeTerminalSymbol_dotted (hb : TerminalBase b base) (h : Dotted base ns bs) :
    decodeTerminalSymbol ('%' :: b :: dots ns) = .ok ⟨bs, bs.length⟩ := by
  have apart : ∀ n ∈ ns, '.' ∉ n := h.not_mem (by decide)
  have dot : b ≠ '.' := by cases hb <;> decide
  have count : ('%' :: b :: dots ns).count '.' + 1 = ns.length := by
    rw [List.count_cons_of_ne (by decide), List.count_cons_of_ne dot, dots,
      Tokens.count_intercalate h.nonempty apart]
  have cut : Tokens.tokens '.' (dots ns) = ns := Tokens.tokens_intercalate apart h.pieces_nonempty
  have read : ns.map (fun t => UInt8.ofNat (wrapUnsigned 8 (strtol t base))) = bs := by
    have values := h.values
    clear h apart count cut
    induction values with
    | nil => rfl
    | @cons n v ns bs numeral _ ih =>
      have value := strtol_numeral (terminalBase_pos hb) numeral v.toNat_lt
      have wrapped : wrapUnsigned 8 (v.toNat : Int) = v.toNat := by
        have small := v.toNat_lt
        unfold wrapUnsigned
        omega
      rw [List.map_cons, value, wrapped, ih, UInt8.ofNat_toNat]
  have long : ¬ ('%' :: b :: dots ns).length < 2 := by simp
  simp only [decodeTerminalSymbol, getTerminalBase_eq hb, List.drop_succ_cons, List.drop_zero]
  rw [if_neg long, count, cut, if_neg (Nat.lt_irrefl _), List.take_length, read, ← h.length]

end Dotted
end Amqpgram
