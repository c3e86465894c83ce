import Amqpgram.Grammar.Generator
import Amqpgram.Grammar.Trimming

/-! The decoders of literals on the memory that holds their text, with the buffers that
they allocate. The memory goes on behind the terminator of the text. Sums and products of
`int` wrap here, as they do on the machine, so that what is written after them is seen. -/
namespace Amqpgram
open Buffers (Overrun poke copy cstring)

/-- What stands behind the readable memory is not known, and reading it is a fault. -/
def strcpy (dst src : List Char) : Except Trap (List Char) :=
  if nul ∈ src then orOverrun (copy dst 0 (cstring nul src ++ [nul]))
  else do
    let _ ← orOverrun (copy dst 0 src)
    .error (.fault .outOfBounds)

structure Token where
  start : Nat
  memory : List Char
  savepoint : Nat

/-- `strtok_r` from `savepoint` on, which writes a terminator over the delimiter. -/
def strtokR (delimiter : Char) (memory : List Char) (savepoint : Nat) : Option Token :=
  let start := savepoint + ((memory.drop savepoint).takeWhile (· = delimiter)).length
  let token := (cstring nul (memory.drop start)).takeWhile (· ≠ delimiter)
  let behind := start + token.length
  if token = [] then none
  else if memory[behind]? = some delimiter then
    some ⟨start, memory.set behind nul, behind + 1⟩
  else some ⟨start, memory, behind⟩

/-- `ret_val[i] = strtol(temp, NULL, base)` for `characters` tokens; none left is NULL. -/
def decodeDigits (base : Nat) : Nat → Nat → List CString → List UInt8 → Except Trap (List UInt8)
  | _, 0, _, retVal => .ok retVal
  | _, _ + 1, [], _ => .error (.fault .nullPointer)
  | i, characters + 1, temp :: tokens, retVal => do
    let retVal ← orOverrun (poke retVal i (UInt8.ofNat (wrapUnsigned 8 (strtol temp base))))
    decodeDigits base (i + 1) characters tokens retVal

def decodeTerminalSymbolBuffer (terminalSymbol : List Char) : Except Trap Decoded := do
  let text := cstring nul terminalSymbol
  let characters := text.count '.' + 1
  let base := getTerminalBase terminalSymbol
  let modVal ← strcpy (List.replicate text.length nul) (terminalSymbol.drop 2)
  let retVal ← decodeDigits base 0 characters (Tokens.tokens '.' (cstring nul modVal))
    (List.replicate characters 0)
  pure ⟨retVal, characters⟩

def boundInt : List UInt8 → Int → Int → Int
  | [], _, acc => acc
  | b :: bs, multipliedBase, acc =>
    boundInt bs (wrapSigned 32 (multipliedBase * 256))
      (wrapSigned 32 (acc + wrapSigned 32 (b.toNat * multipliedBase)))

def boundBuffer (temp : Decoded) : Int := boundInt (temp.bytes.take temp.length).reverse 1 0

/-- The base is written over the two characters before the second bound. -/
def patchTerminal (base : Nat) (memory : List Char) (temp : Nat) : Except Trap (List Char) :=
  if temp < 2 then .error (.fault .outOfBounds)
  else do
    let memory ← orOverrun (poke memory (temp - 2) '%')
    match base with
    | 2 => orOverrun (poke memory (temp - 1) 'b')
    | 10 => orOverrun (poke memory (temp - 1) 'd')
    | 16 => orOverrun (poke memory (temp - 1) 'x')
    | _ => pure memory

/-- The argument is `string_length - i`, so that one less is the index written. -/
def fillBuffer : Nat → Nat → List UInt8 → Except Overrun (List UInt8)
  | 0, _, retVal => .ok retVal
  | n + 1, gen, retVal =>
    if gen > 0 then do
      let retVal ← poke retVal n (UInt8.ofNat (gen % 256))
      fillBuffer n (gen / 256) retVal
    else .ok retVal

def rangeBytes (min max : Int) (r : Draw) : Except Trap Decoded :=
  let spread := wrapSigned 32 (max - min)
  if spread = 0 then .error (.fault .divisionByZero)
  else do
    let gen := wrapUnsigned 32 ((r.val : Int).tmod spread + min)
    let length := stringLength 4 max
    let retVal ← orOverrun (fillBuffer length gen (List.replicate length 0))
    pure ⟨retVal, length⟩

def decodeTerminalRangeBuffer (terminalRange : List Char) (r : Draw) : Except Trap Decoded := do
  let base := getTerminalBase terminalRange
  let text := cstring nul terminalRange
  let memory ← strcpy (List.replicate (text.length + 1) nul) terminalRange
  match strtokR '-' memory 0 with
  | none => .error (.fault .nullPointer)
  | some first =>
    let temp ← decodeTerminalSymbolBuffer (first.memory.drop first.start)
    let min := boundBuffer temp
    match strtokR '-' first.memory first.savepoint with
    | none => .error (.fault .nullPointer)
    | some second =>
      let memory ← patchTerminal base second.memory second.start
      let temp ← decodeTerminalSymbolBuffer (memory.drop (second.start - 2))
      rangeBytes min (boundBuffer temp) r

/-- The letters are changed where the copy has been written. -/
def decodeQuotedBuffer (quotedString : List Char) : Except Trap Decoded := do
  let text := cstring nul quotedString
  let _ ← strcpy (List.replicate (text.length - 1) nul) (quotedString.drop 1)
  pure (decodeQuoted text)

/-- The literals of `parse_element`. -/
def decodeLiteral (elementStr : List Char) (r : Draw) : Except Trap Decoded :=
  match elementStr.head? with
  | some '"' => decodeQuotedBuffer elementStr
  | some '%' =>
    if (cstring nul elementStr).count '-' = 1 then decodeTerminalRangeBuffer elementStr r
    else decodeTerminalSymbolBuffer elementStr
  | _ => .ok .none

/-! ### Writes -/

def Overruns {A : Type} (x : Except Trap A) : Prop := ∃ o, x = .error (.overrun o)

section
variable {A B : Type}

@[simp] theorem not_overruns_ok (a : A) : ¬ Overruns (.ok a) := by simp [Overruns]

@[simp] theorem not_overruns_fault (f : Fault) :
    ¬ Overruns (.error (.fault f) : Except Trap A) := by
  simp [Overruns]

@[simp] theorem overruns_error (o : Overrun) : Overruns (.error (.overrun o) : Except Trap A) :=
  ⟨o, rfl⟩

@[simp] theorem not_overruns_orFault (x : Except Fault A) : ¬ Overruns (orFault x) := by
  cases x <;> simp

theorem overruns_bind {x : Except Trap A} {f : A → Except Trap B} :
    Overruns (x >>= f) ↔ Overruns x ∨ ∃ a, x = .ok a ∧ Overruns (f a) := by
  cases x with
  | ok a => simp
  | error t => cases t <;> simp

end

section
variable {s : CString} (plain : nul ∉ s) (rest : List Char) {n : Nat}
include plain

theorem strcpy_inside (room : s.length + 1 ≤ n) :
    strcpy (List.replicate n nul) (s ++ nul :: rest) =
      .ok (s ++ nul :: List.replicate (n - (s.length + 1)) nul) := by
  have length : (s ++ [nul]).length = s.length + 1 := by simp
  rw [strcpy, if_pos (by simp), Buffers.cstring_append plain,
    Buffers.copy_ok (by simpa using room)]
  simp [Blocks.splice, length]

theorem strcpy_outside (full : n < s.length + 1) :
    strcpy (List.replicate n nul) (s ++ nul :: rest) = .error (.overrun ⟨n, n⟩) := by
  rw [strcpy, if_pos (by simp), Buffers.cstring_append plain,
    Buffers.copy_overrun (by simp) (by simpa using full)]
  simp

end

theorem decodeDigits_eq (base : Nat) {i characters : Nat} {tokens : List CString}
    {retVal : List UInt8} (room : i + characters ≤ retVal.length) :
    decodeDigits base i characters tokens retVal =
      if tokens.length < characters then .error (.fault .nullPointer)
      else .ok (Blocks.splice retVal i ((tokens.take characters).map fun t =>
        UInt8.ofNat (wrapUnsigned 8 (strtol t base)))) := by
  induction characters generalizing i tokens retVal with
  | zero => simp [decodeDigits, Blocks.splice]
  | succ characters ih =>
    cases tokens with
    | nil => simp [decodeDigits]
    | cons temp tokens =>
      have inside : i < retVal.length := by omega
      rw [decodeDigits, poke, if_pos inside, orOverrun_ok, ok_bind,
        ih (by rw [List.length_set]; omega), Buffers.splice_set _ inside]
      simp only [List.length_cons, Nat.add_lt_add_iff_right, List.take_succ_cons, List.map_cons]

/-! ### Symbols -/

/-- A symbol with anything behind its first character is decoded inside its buffers. -/
theorem decodeTerminalSymbolBuffer_eq {t : CString} (plain : nul ∉ t) (long : 2 ≤ t.length)
    (rest : List Char) :
    decodeTerminalSymbolBuffer (t ++ nul :: rest) = orFault (decodeTerminalSymbol t) := by
  have base : getTerminalBase (t ++ nul :: rest) = getTerminalBase t := by
    rw [getTerminalBase, getTerminalBase, List.getElem?_append_left (by omega)]
  have source : (t ++ nul :: rest).drop 2 = t.drop 2 ++ nul :: rest :=
    List.drop_append_of_le_length long
  have plain_tail : nul ∉ t.drop 2 := fun member => plain (List.mem_of_mem_drop member)
  have room : (t.drop 2).length + 1 ≤ t.length := by
    rw [List.length_drop]
    omega
  have short : ¬ t.length < 2 := by omega
  simp only [decodeTerminalSymbolBuffer, Buffers.cstring_append plain, base, source,
    strcpy_inside plain_tail rest room, ok_bind, Buffers.cstring_append plain_tail,
    decodeTerminalSymbol, if_neg short]
  rw [decodeDigits_eq _ (by simp)]
  by_cases few : (Tokens.tokens '.' (t.drop 2)).length < t.count '.' + 1
  · rw [if_pos few, if_pos few]
    rfl
  · rw [if_neg few, if_neg few, Buffers.splice_whole (by simp; omega)]
    rfl

/-- Nothing fits behind a character that stands alone, where a text follows. -/
theorem decodeTerminalSymbolBuffer_single {c : Char} (other : c ≠ nul) {s : CString}
    (plain : nul ∉ s) (nonempty : s ≠ []) (rest : List Char) :
    decodeTerminalSymbolBuffer (c :: nul :: (s ++ nul :: rest)) =
      .error (.overrun ⟨1, 1⟩) := by
  have positive := List.length_pos_of_ne_nil nonempty
  have single : cstring nul (c :: nul :: (s ++ nul :: rest)) = [c] :=
    Buffers.cstring_append (s := [c]) (by simpa using other.symm) _
  simp only [decodeTerminalSymbolBuffer, single, List.drop_succ_cons, List.drop_zero,
    List.length_singleton]
  rw [strcpy_outside plain rest (by omega)]
  rfl

/-! ### Ranges -/

section
variable {d : Char} (ends : d ≠ nul) (front : List Char) {token : CString} (rest : List Char)
include ends

theorem strtokR_none : strtokR d (front ++ nul :: rest) front.length = none := by
  have start : (nul :: rest).takeWhile (· = d) = [] := by simp [ends.symm]
  have token : cstring nul (nul :: rest) = [] := by simp [cstring]
  simp only [strtokR, List.drop_left, start, List.length_nil, Nat.add_zero, token]
  simp

variable (apart : d ∉ token) (plain : nul ∉ token) (nonempty : token ≠ [])
include apart plain nonempty

theorem strtokR_scan {e : Char} (stop : e = d ∨ e = nul) :
    strtokR d (front ++ token ++ e :: rest) front.length =
      if e = d then some ⟨front.length, front ++ token ++ nul :: rest,
        front.length + token.length + 1⟩
      else some ⟨front.length, front ++ token ++ e :: rest, front.length + token.length⟩ := by
  have tail : (front ++ token ++ e :: rest).drop front.length = token ++ e :: rest := by simp
  have start : (token ++ e :: rest).takeWhile (· = d) = [] := by
    obtain ⟨c, token, rfl⟩ := List.exists_cons_of_ne_nil nonempty
    have other : c ≠ d := fun same => apart (by simp [same])
    simp [other]
  have kept := Buffers.ne_stop apart
  have scanned : (cstring nul (token ++ e :: rest)).takeWhile (· ≠ d) = token := by
    rcases stop with rfl | rfl
    · rw [cstring, List.takeWhile_append_of_pos (Buffers.ne_stop plain),
        List.takeWhile_append_of_pos kept]
      simp [ends]
    · rw [Buffers.cstring_append plain]
      exact List.takeWhile_eq_self_iff.mpr kept
  have here : (front ++ token ++ e :: rest)[front.length + token.length]? = some e := by
    rw [← List.length_append]
    simp
  have written : (front ++ token ++ e :: rest).set (front.length + token.length) nul =
      front ++ token ++ nul :: rest := by
    rw [← List.length_append]
    simp
  simp only [strtokR, tail, start, List.length_nil, Nat.add_zero, scanned, if_neg nonempty, here,
    written, Option.some.injEq]

end

/-- What `patchTerminal` leaves behind `%`; an unknown base leaves the terminator. -/
def patchedLetter (base : Nat) : Char :=
  match base with
  | 2 => 'b'
  | 10 => 'd'
  | 16 => 'x'
  | _ => nul

theorem patchTerminal_eq (base : Nat) (front : List Char) (c : Char) (rest : List Char) :
    patchTerminal base (front ++ c :: nul :: rest) (front.length + 2) =
      .ok (front ++ '%' :: patchedLetter base :: rest) := by
  have first : poke (front ++ c :: nul :: rest) (front.length + 2 - 2) '%' =
      .ok (front ++ '%' :: nul :: rest) := by
    simp [poke]
  have second : ∀ x : Char, poke (front ++ '%' :: nul :: rest) (front.length + 2 - 1) x =
      .ok (front ++ '%' :: x :: rest) := by
    intro x
    simp [poke]
  rw [patchTerminal, if_neg (by omega), first, orOverrun_ok, ok_bind]
  unfold patchedLetter
  split
  · rw [second, orOverrun_ok]
  · rw [second, orOverrun_ok]
  · rw [second, orOverrun_ok]
  · rfl

/-- A range cut at its only dash. -/
structure RangeText (first second : CString) : Prop where
  head : first.head? = some '%'
  first_apart : '-' ∉ first
  second_apart : '-' ∉ second
  first_plain : nul ∉ first
  second_plain : nul ∉ second

namespace RangeText
variable {first second : CString} (h : RangeText first second)
include h

theorem nonempty : first ≠ [] := by
  rintro rfl
  cases h.head

theorem plain : nul ∉ first ++ '-' :: second := by
  have dash : nul ≠ '-' := by decide
  simp [h.first_plain, h.second_plain, dash]

theorem firstToken : strtokR '-' (first ++ '-' :: second ++ [nul]) 0 =
    some ⟨0, first ++ nul :: (second ++ [nul]), first.length + 1⟩ := by
  have scanned := strtokR_scan (by decide) [] (second ++ [nul]) h.first_apart h.first_plain
    h.nonempty (.inl rfl)
  simpa using scanned

theorem secondToken : strtokR '-' (first ++ nul :: (second ++ [nul])) (first.length + 1) =
    if second = [] then none
    else some ⟨first.length + 1, first ++ nul :: (second ++ [nul]),
      first.length + 1 + second.length⟩ := by
  have dash : '-' ≠ nul := by decide
  by_cases empty : second = []
  · subst empty
    have none := strtokR_none dash (first ++ [nul]) []
    simpa using none
  · have scanned := strtokR_scan dash (first ++ [nul]) [] h.second_apart h.second_plain empty
      (.inr rfl)
    rw [if_neg dash.symm] at scanned
    rw [if_neg empty]
    simpa using scanned

theorem patched (base : Nat) : ∃ front : List Char, front.length + 2 = first.length + 1 ∧
    patchTerminal base (first ++ nul :: (second ++ [nul])) (first.length + 1) =
      .ok (front ++ '%' :: patchedLetter base :: (second ++ [nul])) := by
  have cut := List.dropLast_append_getLast h.nonempty
  have length : first.dropLast.length + 2 = first.length + 1 := by
    have positive := List.length_pos_of_ne_nil h.nonempty
    rw [List.length_dropLast]
    omega
  have whole : first.dropLast ++ first.getLast h.nonempty :: nul :: (second ++ [nul]) =
      first ++ nul :: (second ++ [nul]) := by
    conv_rhs => rw [← cut]
    simp
  have written := patchTerminal_eq base first.dropLast (first.getLast h.nonempty) (second ++ [nul])
  rw [whole, length] at written
  exact ⟨first.dropLast, length, written⟩

/-- A range is decoded bound by bound, the second one behind the base of the first. -/
theorem decode_eq (behind : List Char) (r : Draw) :
    decodeTerminalRangeBuffer (first ++ '-' :: second ++ nul :: behind) r = (do
      let temp ← decodeTerminalSymbolBuffer (first ++ nul :: (second ++ [nul]))
      let min := boundBuffer temp
      if second = [] then .error (.fault .nullPointer)
      else do
        let temp ← decodeTerminalSymbolBuffer
          ('%' :: patchedLetter (getTerminalBase (first ++ '-' :: second)) :: (second ++ [nul]))
        rangeBytes min (boundBuffer temp) r) := by
  have base : getTerminalBase (first ++ '-' :: second ++ nul :: behind) =
      getTerminalBase (first ++ '-' :: second) := by
    have positive := List.length_pos_of_ne_nil h.nonempty
    rw [getTerminalBase, getTerminalBase, List.getElem?_append_left (by simp; omega)]
  have copied := strcpy_inside h.plain behind (Nat.le_refl _)
  rw [Nat.sub_self, List.replicate_zero] at copied
  obtain ⟨front, start, written⟩ := h.patched (getTerminalBase (first ++ '-' :: second))
  have offset : first.length + 1 - 2 = front.length := by omega
  simp only [decodeTerminalRangeBuffer, base, Buffers.cstring_append h.plain, copied, ok_bind,
    h.firstToken, List.drop_zero, h.secondToken]
  congr 1
  funext temp
  by_cases empty : second = []
  · simp only [if_pos empty]
  · simp only [if_neg empty, written, ok_bind, offset, List.drop_left]

end RangeText

/-! ### The end of a range -/

theorem fillBuffer_eq (n gen : Nat) (back : List UInt8) :
    fillBuffer n gen (List.replicate n 0 ++ back) = .ok (fillBytes n gen ++ back) := by
  induction n generalizing gen back with
  | zero => rfl
  | succ n ih =>
    rw [fillBuffer, fillBytes]
    by_cases left : gen > 0
    · have written : poke (List.replicate (n + 1) 0 ++ back) n (UInt8.ofNat (gen % 256)) =
          .ok (List.replicate n 0 ++ UInt8.ofNat (gen % 256) :: back) := by
        simp [poke, List.replicate_succ']
      rw [if_pos left, if_pos left, written, ok_bind, ih]
      simp
    · rw [if_neg left, if_neg left]

theorem rangeBytes_eq (min max : Int) (r : Draw) : rangeBytes min max r =
    if wrapSigned 32 (max - min) = 0 then .error (.fault .divisionByZero)
    else .ok ⟨fillBytes (stringLength 4 max)
      (wrapUnsigned 32 ((r.val : Int).tmod (wrapSigned 32 (max - min)) + min)),
      stringLength 4 max⟩ := by
  have filled := fillBuffer_eq (stringLength 4 max)
    (wrapUnsigned 32 ((r.val : Int).tmod (wrapSigned 32 (max - min)) + min)) []
  rw [List.append_nil, List.append_nil] at filled
  simp only [rangeBytes, filled]
  rfl

theorem rangeBytes_inside (min max : Int) (r : Draw) : ¬ Overruns (rangeBytes min max r) := by
  rw [rangeBytes_eq]
  split <;> simp

/-! ### Which literals are copied inside -/

def CopiesInside (text : CString) : Prop :=
  ∀ behind r, ¬ Overruns (decodeLiteral (text ++ nul :: behind) r)

/-- The second bound is missing or gets a base, or a fault stops the first one. -/
def RangeFits (text : CString) : Prop :=
  let first := text.takeWhile (· ≠ '-')
  let second := (text.dropWhile (· ≠ '-')).drop 1
  second = [] ∨ getTerminalBase text ≠ 0 ∨
    2 ≤ first.length ∧ (Tokens.tokens '.' (first.drop 2)).length < first.count '.' + 1

instance : DecidablePred RangeFits := fun _ => inferInstanceAs (Decidable (_ ∨ _ ∨ _))

def LiteralFits (text : CString) : Prop :=
  text.head? = some '%' ∧ if text.count '-' = 1 then RangeFits text else 2 ≤ text.length

instance : DecidablePred LiteralFits := fun _ => inferInstanceAs (Decidable (_ ∧ ite _ _ _))

theorem decodeQuotedBuffer_overruns {text : CString} (plain : nul ∉ text) (nonempty : text ≠ [])
    (behind : List Char) : decodeQuotedBuffer (text ++ nul :: behind) =
      .error (.overrun ⟨text.length - 1, text.length - 1⟩) := by
  obtain ⟨c, s, rfl⟩ := List.exists_cons_of_ne_nil nonempty
  have plain_tail : nul ∉ s := fun member => plain (List.mem_cons_of_mem c member)
  rw [decodeQuotedBuffer, Buffers.cstring_append plain, List.cons_append, List.drop_one,
    List.tail_cons, List.length_cons, Nat.add_sub_cancel,
    strcpy_outside plain_tail behind (Nat.lt_succ_self _)]
  rfl

theorem symbol_inside {t : CString} (plain : nul ∉ t) (long : 2 ≤ t.length) (rest : List Char) :
    ¬ Overruns (decodeTerminalSymbolBuffer (t ++ nul :: rest)) := by
  rw [decodeTerminalSymbolBuffer_eq plain long]
  exact not_overruns_orFault _

namespace RangeText
variable {first second : CString} (h : RangeText first second)
include h

theorem fits_iff : RangeFits (first ++ '-' :: second) ↔ second = [] ∨
    getTerminalBase (first ++ '-' :: second) ≠ 0 ∨
    2 ≤ first.length ∧ (Tokens.tokens '.' (first.drop 2)).length < first.count '.' + 1 := by
  have kept := Buffers.ne_stop h.first_apart
  have front : (first ++ '-' :: second).takeWhile (· ≠ '-') = first := by
    rw [List.takeWhile_append_of_pos kept]
    simp
  have back : ((first ++ '-' :: second).dropWhile (· ≠ '-')).drop 1 = second := by
    rw [List.dropWhile_append_of_pos kept]
    simp
  simp only [RangeFits, front, back]

omit h in
theorem patchedLetter_base (t : CString) :
    getTerminalBase t = 0 ∧ patchedLetter (getTerminalBase t) = nul ∨
      getTerminalBase t ≠ 0 ∧ patchedLetter (getTerminalBase t) ≠ nul := by
  unfold getTerminalBase
  split <;> decide

theorem second_overruns (some_second : second ≠ []) (t : CString) (min : Int) (r : Draw) :
    Overruns (do
      let temp ← decodeTerminalSymbolBuffer
        ('%' :: patchedLetter (getTerminalBase t) :: (second ++ [nul]))
      rangeBytes min (boundBuffer temp) r) ↔ getTerminalBase t = 0 := by
  have percent : '%' ≠ nul := by decide
  rcases patchedLetter_base t with ⟨zero, letter⟩ | ⟨known, letter⟩
  · rw [letter, decodeTerminalSymbolBuffer_single percent h.second_plain some_second []]
    simp [zero]
  · have plain : nul ∉ '%' :: patchedLetter (getTerminalBase t) :: second := by
      simp [percent.symm, letter.symm, h.second_plain]
    have inside := symbol_inside plain (by simp) []
    simp only [overruns_bind, rangeBytes_inside, and_false, exists_false, or_false, known,
      iff_false]
    exact inside

theorem first_returns (long : 2 ≤ first.length) :
    (∃ temp, decodeTerminalSymbolBuffer (first ++ nul :: (second ++ [nul])) = .ok temp) ↔
      ¬ (Tokens.tokens '.' (first.drop 2)).length < first.count '.' + 1 := by
  have short : ¬ first.length < 2 := by omega
  rw [decodeTerminalSymbolBuffer_eq h.first_plain long, decodeTerminalSymbol, if_neg short]
  by_cases few : (Tokens.tokens '.' (first.drop 2)).length < first.count '.' + 1
  · simp [few]
  · simp [few]

theorem rest_overruns (min : Int) (r : Draw) :
    Overruns (if second = [] then .error (.fault .nullPointer) else do
      let temp ← decodeTerminalSymbolBuffer
        ('%' :: patchedLetter (getTerminalBase (first ++ '-' :: second)) :: (second ++ [nul]))
      rangeBytes min (boundBuffer temp) r) ↔
    second ≠ [] ∧ getTerminalBase (first ++ '-' :: second) = 0 := by
  by_cases empty : second = []
  · simp [empty]
  · rw [if_neg empty, h.second_overruns empty]
    simp [empty]

/-- A first bound of one character is a symbol with the second bound behind it. -/
theorem lone_overruns (short : ¬ 2 ≤ first.length) :
    getTerminalBase (first ++ '-' :: second) = 0 ∧
      (Overruns (decodeTerminalSymbolBuffer (first ++ nul :: (second ++ [nul]))) ↔ second ≠ []) ∧
      ¬ ∃ temp, decodeTerminalSymbolBuffer (first ++ nul :: (second ++ [nul])) = .ok temp := by
  obtain ⟨tail, rfl⟩ := List.head?_eq_some_iff.mp h.head
  obtain rfl : tail = [] := by
    rw [List.length_cons] at short
    exact List.length_eq_zero_iff.mp (by omega)
  refine ⟨rfl, ?_⟩
  by_cases empty : second = []
  · subst empty
    have stopped : decodeTerminalSymbolBuffer (['%'] ++ nul :: ([] ++ [nul])) =
        .error (.fault .nullPointer) := by decide
    rw [stopped]
    simp
  · have single := decodeTerminalSymbolBuffer_single (show '%' ≠ nul by decide)
      h.second_plain empty []
    rw [List.singleton_append, single]
    simp [empty]

theorem overruns_iff (behind : List Char) (r : Draw) :
    Overruns (decodeTerminalRangeBuffer (first ++ '-' :: second ++ nul :: behind) r) ↔
      ¬ RangeFits (first ++ '-' :: second) := by
  rw [h.decode_eq, h.fits_iff, overruns_bind]
  simp only [h.rest_overruns, exists_and_right]
  by_cases long : 2 ≤ first.length
  · have inside := symbol_inside h.first_plain long (second ++ [nul])
    rw [h.first_returns long]
    tauto
  · obtain ⟨base, overruns, stopped⟩ := h.lone_overruns long
    rw [overruns]
    tauto

end RangeText

theorem rangeText_of_count {text : CString} (plain : nul ∉ text) (head : text.head? = some '%')
    (one : text.count '-' = 1) :
    ∃ first second, RangeText first second ∧ text = first ++ '-' :: second := by
  have member : '-' ∈ text := List.count_pos_iff.mp (by omega)
  obtain ⟨first, second, rfl⟩ := List.append_of_mem member
  rw [List.count_append, List.count_cons_self] at one
  simp only [List.mem_append, List.mem_cons, not_or] at plain
  refine ⟨first, second, ⟨?_, ?_, ?_, plain.1, plain.2.2⟩, rfl⟩
  · cases first with
    | nil => simp at head
    | cons c first => simpa using head
  · exact List.count_eq_zero.mp (by omega)
  · exact List.count_eq_zero.mp (by omega)

theorem decodeLiteral_percent {s : CString} (plain : nul ∉ '%' :: s) (behind : List Char)
    (r : Draw) :
    decodeLiteral ('%' :: s ++ nul :: behind) r =
      if ('%' :: s).count '-' = 1 then decodeTerminalRangeBuffer ('%' :: s ++ nul :: behind) r
      else decodeTerminalSymbolBuffer ('%' :: s ++ nul :: behind) := by
  conv_rhs => enter [1]; rw [← Buffers.cstring_append plain behind]
  rfl

theorem percent_copiesInside_iff {s : CString} (plain : nul ∉ '%' :: s) :
    CopiesInside ('%' :: s) ↔ LiteralFits ('%' :: s) := by
  have head : ('%' :: s).head? = some '%' := rfl
  simp only [CopiesInside, decodeLiteral_percent plain, LiteralFits, head, true_and]
  by_cases range : ('%' :: s).count '-' = 1
  · obtain ⟨first, second, shape, cut⟩ := rangeText_of_count plain head range
    simp only [if_pos range]
    rw [cut]
    simp only [shape.overruns_iff, not_not, forall_const]
  · simp only [if_neg range]
    constructor
    · intro inside
      by_contra short
      obtain rfl : s = [] := by
        rw [List.length_cons] at short
        exact List.length_eq_zero_iff.mp (by omega)
      have single := decodeTerminalSymbolBuffer_single (show '%' ≠ nul by decide)
        (show nul ∉ ['1'] by decide) (by simp) []
      exact inside ['1', nul] 0 ⟨_, single⟩
    · intro long behind _
      exact symbol_inside plain long behind

/-- No quoted literal is copied inside its buffer. A symbol is when something follows the
`%`, and a range unless its second bound is read without a base. -/
theorem copiesInside_iff {text : CString} (plain : nul ∉ text)
    (literal : text.head? = some '"' ∨ text.head? = some '%') :
    CopiesInside text ↔ LiteralFits text := by
  rcases literal with quote | percent
  · obtain ⟨s, rfl⟩ := List.head?_eq_some_iff.mp quote
    have quoted : ¬ LiteralFits ('"' :: s) := by simp [LiteralFits]
    refine iff_of_false ?_ quoted
    intro inside
    exact inside [] 0 ⟨_, decodeQuotedBuffer_overruns plain (by simp) []⟩
  · obtain ⟨s, rfl⟩ := List.head?_eq_some_iff.mp percent
    exact percent_copiesInside_iff plain

theorem copiesInside_hex : CopiesInside (cstr "%x00.0-ff.7") :=
  (copiesInside_iff (by decide) (by decide)).mpr (by decide)

/-- The terminator of `ab"` is written behind the three bytes of its buffer; the second bound
of a range without a base takes the place of one byte. -/
theorem literals_overrun :
    decodeLiteral (cstr "\"ab\"" ++ [nul]) 0 = .error (.overrun ⟨3, 3⟩) ∧
    decodeLiteral (cstr "%o7-12" ++ [nul]) 0 = .error (.overrun ⟨1, 1⟩) ∧
    ¬ CopiesInside (cstr "\"ab\"") ∧ ¬ CopiesInside (cstr "%o7-12") := by
  have quoted : decodeLiteral (cstr "\"ab\"" ++ [nul]) 0 = .error (.overrun ⟨3, 3⟩) := by decide
  have range : decodeLiteral (cstr "%o7-12" ++ [nul]) 0 = .error (.overrun ⟨1, 1⟩) := by decide
  exact ⟨quoted, range, fun inside => inside [] 0 ⟨_, quoted⟩, fun inside => inside [] 0 ⟨_, range⟩⟩

/-! ### What the generator returns -/

theorem wrapSigned_of_cint {x y : Int} (h : cint x = .ok y) : wrapSigned 32 x = y := by
  obtain ⟨rfl, lo, hi⟩ := cint_eq_ok.mp h
  unfold intMax at lo hi
  exact wrapSigned_of_range (by omega) (by omega)

theorem boundInt_of_loop {bs : List UInt8} {multipliedBase acc v : Int}
    (h : boundLoop bs multipliedBase acc = .ok v) : boundInt bs multipliedBase acc = v := by
  induction bs generalizing multipliedBase acc with
  | nil => exact Except.ok.inj h
  | cons b bs ih =>
    obtain ⟨term, product, h⟩ := bind_eq_ok.mp h
    obtain ⟨sum, added, h⟩ := bind_eq_ok.mp h
    obtain ⟨next, multiplied, h⟩ := bind_eq_ok.mp h
    rw [boundInt, wrapSigned_of_cint product, wrapSigned_of_cint added,
      wrapSigned_of_cint multiplied]
    exact ih h

theorem symbol_long {t : CString} {d : Decoded} (h : decodeTerminalSymbol t = .ok d) :
    2 ≤ t.length := by
  by_contra short
  rw [decodeTerminalSymbol, if_pos (by omega)] at h
  cases h

theorem symbol_returns {t : CString} (plain : nul ∉ t) {d : Decoded}
    (h : decodeTerminalSymbol t = .ok d) (rest : List Char) :
    decodeTerminalSymbolBuffer (t ++ nul :: rest) = .ok d := by
  rw [decodeTerminalSymbolBuffer_eq plain (symbol_long h), h, orFault_ok]

theorem patchedTerminal_letter {base : Nat} {second : CString} {d : Decoded}
    (h : decodeTerminalSymbol (patchedTerminal base second) = .ok d) :
    patchedTerminal base second = '%' :: patchedLetter base :: second ∧
      patchedLetter base ≠ nul := by
  have long := symbol_long h
  unfold patchedTerminal patchedLetter at *
  split at long
  · exact ⟨rfl, by decide⟩
  · exact ⟨rfl, by decide⟩
  · exact ⟨rfl, by decide⟩
  · simp at long

theorem rangeBytes_returns {min max : Int} {d : Decoded} {draws rest : RandStream}
    (run : (do
      let spread ← .ofExcept (cint (max - min))
      let drawn ← randMod spread
      let gen ← .ofExcept (cint (drawn + min))
      let length := stringLength 4 max
      pure ⟨fillBytes length (wrapUnsigned 32 gen), length⟩ : Gen Decoded).run draws =
        .ok (d, rest)) : rangeBytes min max draws.head = .ok d := by
  obtain ⟨spread, difference, run⟩ := Sampler.run_ofExcept_bind_ok run
  obtain ⟨drawn, _, draw, run⟩ := Sampler.run_bind_ok run
  obtain ⟨nonzero, _⟩ := yields_randMod.mp (Sampler.yields_of_run draw)
  rw [run_randMod nonzero] at draw
  obtain ⟨rfl, rfl⟩ := Prod.mk.inj (Except.ok.inj draw)
  obtain ⟨gen, sum, run⟩ := Sampler.run_ofExcept_bind_ok run
  obtain ⟨rfl, _⟩ := Sampler.run_done_ok run
  obtain ⟨rfl, _⟩ := cint_eq_ok.mp sum
  rw [rangeBytes_eq, wrapSigned_of_cint difference, if_neg nonzero]

theorem RangeText.returns {first second : CString} (h : RangeText first second) {d : Decoded}
    {draws rest : RandStream}
    (run : (decodeTerminalRange (first ++ '-' :: second)).run draws = .ok (d, rest))
    (behind : List Char) :
    decodeTerminalRangeBuffer (first ++ '-' :: second ++ nul :: behind) draws.head = .ok d := by
  rw [decodeTerminalRange, Tokens.tokens_append_cons,
    Tokens.tokens_of_not_mem h.first_apart h.nonempty] at run
  by_cases empty : second = []
  · subst empty
    cases run
  · rw [Tokens.tokens_of_not_mem h.second_apart empty] at run
    obtain ⟨min, lower, run⟩ := Sampler.run_ofExcept_bind_ok run
    obtain ⟨max, upper, run⟩ := Sampler.run_ofExcept_bind_ok run
    obtain ⟨a, first_ok, min_eq⟩ := bind_eq_ok.mp lower
    obtain ⟨b, second_ok, max_eq⟩ := bind_eq_ok.mp upper
    obtain ⟨patched, letter⟩ := patchedTerminal_letter second_ok
    rw [patched] at second_ok
    have least : boundBuffer a = min := boundInt_of_loop min_eq
    have most : boundBuffer b = max := boundInt_of_loop max_eq
    rw [h.decode_eq, symbol_returns h.first_plain first_ok, ok_bind]
    generalize patchedLetter (getTerminalBase (first ++ '-' :: second)) = x at letter second_ok ⊢
    have percent : nul ≠ '%' := by decide
    have plain : nul ∉ '%' :: x :: second := by simp [percent, letter.symm, h.second_plain]
    have decoded : decodeTerminalSymbolBuffer ('%' :: x :: (second ++ [nul])) = .ok b :=
      symbol_returns plain second_ok []
    dsimp only
    rw [if_neg empty, decoded, ok_bind, least, most]
    exact rangeBytes_returns run

/-- What `decodeTerminal` returns is what is left in the buffers. -/
theorem decodeTerminal_returns {text : CString} (plain : nul ∉ text)
    (percent : text.head? = some '%') {d : Decoded} {draws rest : RandStream}
    (run : (decodeTerminal text).run draws = .ok (d, rest)) (behind : List Char) :
    decodeLiteral (text ++ nul :: behind) draws.head = .ok d := by
  obtain ⟨s, rfl⟩ := List.head?_eq_some_iff.mp percent
  rw [decodeLiteral_percent plain]
  rw [decodeTerminal, if_neg (not_not.mpr percent)] at run
  by_cases range : ('%' :: s).count '-' = 1
  · rw [if_pos range] at run ⊢
    obtain ⟨first, second, shape, cut⟩ := rangeText_of_count plain percent range
    rw [cut] at run ⊢
    exact shape.returns run behind
  · rw [if_neg range] at run ⊢
    exact symbol_returns plain (Sampler.run_ofExcept_ok run).1 behind

end Amqpgram
