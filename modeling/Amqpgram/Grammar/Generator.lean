import Amqpgram.Fuzzer.Utils
import Amqpgram.Grammar.Parser

/-! packet-generator.c: the expansion of a rule into bytes. Every expansion
reports a length beside the buffer it fills, as the C functions do through
`decode_length`. The fuel of the mutually recursive functions bounds the depth of
the C call stack; the two generators of Connection.c that a FUNCTION entry can
name take the decoding of a rule as an argument. -/
namespace Amqpgram

def ruleRepetitionInfty : Int := 16

structure Decoded where
  bytes : List UInt8
  length : Nat
  deriving DecidableEq, Repr

/-- A NULL result whose length is left at 0. -/
def Decoded.none : Decoded := ⟨[], 0⟩

/-- The buffer grows by the reported length of the part copied behind it. -/
def Decoded.append (result part : Decoded) : Except Fault Decoded :=
  if part.length ≤ part.bytes.length then
    .ok ⟨result.bytes ++ part.bytes.take part.length, result.length + part.length⟩
  else .error .outOfBounds

def charByte (c : Char) : UInt8 := UInt8.ofNat c.toNat

def isDigit (c : Char) : Bool := 48 ≤ c.toNat && c.toNat ≤ 57

def isSpace (c : Char) : Bool := c = ' ' || (9 ≤ c.toNat && c.toNat ≤ 13)

def digitValue (c : Char) : Option Nat :=
  if isDigit c then some (c.toNat - 48)
  else if 97 ≤ c.toNat ∧ c.toNat ≤ 122 then some (c.toNat - 87)
  else if 65 ≤ c.toNat ∧ c.toNat ≤ 90 then some (c.toNat - 55)
  else none

def strtolDigits (base acc : Nat) : CString → Nat
  | [] => acc
  | c :: s =>
    match digitValue c with
    | some d => if d < base then strtolDigits base (acc * base + d) s else acc
    | none => acc

/-- The base `strtol` reads with and the digits behind the prefix that selects it. -/
def strtolBase (base : Nat) (s : CString) : Nat × CString :=
  match s with
  | '0' :: x :: d :: s' =>
    if (base = 16 ∨ base = 0) ∧ (x = 'x' ∨ x = 'X') ∧ (digitValue d).any (· < 16) then
      (16, d :: s')
    else if base = 0 then (8, s) else (base, s)
  | '0' :: _ => if base = 0 then (8, s) else (base, s)
  | _ => if base = 0 then (10, s) else (base, s)

/-- `strtol` of the C library, with its clamping to `long`. -/
def strtol (s : CString) (base : Nat) : Int :=
  let s := s.dropWhile isSpace
  let negative := s.head? = some '-'
  let s := if s.head? = some '-' ∨ s.head? = some '+' then s.tail else s
  let (base, s) := strtolBase base s
  let magnitude := strtolDigits base 0 s
  if negative then max (-(magnitude : Int)) (-9223372036854775808)
  else min (magnitude : Int) 9223372036854775807

def getTerminalBase (terminal : CString) : Nat :=
  match terminal[1]? with
  | some 'd' => 10
  | some 'x' => 16
  | some 'b' => 2
  | _ => 0

def selectAlternativeRule : GrammarEntry → Gen (Option CString)
  | .stringArray [] => pure none
  | .stringArray alternatives => do
    let gen ← randMod alternatives.length
    pure alternatives[gen.toNat]?
  | _ => pure none

/-- A token for every dot and one more is expected; `strtol(NULL)` otherwise. -/
def decodeTerminalSymbol (terminalSymbol : CString) : Except Fault Decoded :=
  let characters := terminalSymbol.count '.' + 1
  let base := getTerminalBase terminalSymbol
  if terminalSymbol.length < 2 then .error .outOfBounds
  else
    let temp := Tokens.tokens '.' (terminalSymbol.drop 2)
    if temp.length < characters then .error .nullPointer
    else .ok ⟨(temp.take characters).map fun t =>
      UInt8.ofNat (wrapUnsigned 8 (strtol t base)), characters⟩

/-- The loop that adds up a bound, over its bytes from the last one on. -/
def boundLoop : List UInt8 → Int → Int → Except Fault Int
  | [], _, acc => .ok acc
  | b :: bs, multipliedBase, acc => do
    let term ← cint (b.toNat * multipliedBase)
    let acc ← cint (acc + term)
    let multipliedBase ← cint (multipliedBase * 256)
    boundLoop bs multipliedBase acc

def bound (temp : Decoded) : Except Fault Int :=
  boundLoop (temp.bytes.take temp.length).reverse 1 0

/-- `for (int i = max; i > 1; i /= 256)`: an `int` is at most 1 after four turns. -/
def stringLength : Nat → Int → Nat
  | 0, _ => 0
  | turns + 1, i => if i > 1 then stringLength turns (i.tdiv 256) + 1 else 0

/-- The bytes written from the back while any of `gen` is left, in a zeroed buffer. -/
def fillBytes : Nat → Nat → List UInt8
  | 0, _ => []
  | n + 1, gen =>
    if gen > 0 then fillBytes n (gen / 256) ++ [UInt8.ofNat (gen % 256)]
    else List.replicate (n + 1) 0

/-- The second bound, with the base written over the two characters before it.
An unknown base is not written, and the string read there is then only `%`. -/
def patchedTerminal (base : Nat) (temp : CString) : CString :=
  match base with
  | 2 => '%' :: 'b' :: temp
  | 10 => '%' :: 'd' :: temp
  | 16 => '%' :: 'x' :: temp
  | _ => ['%']

def decodeTerminalRange (terminalRange : CString) : Gen Decoded :=
  let base := getTerminalBase terminalRange
  match Tokens.tokens '-' terminalRange with
  | first :: second :: _ => do
    let min ← .ofExcept (decodeTerminalSymbol first >>= bound)
    let max ← .ofExcept (decodeTerminalSymbol (patchedTerminal base second) >>= bound)
    let spread ← .ofExcept (cint (max - min))
    let drawn ← randMod spread
    let gen ← .ofExcept (cint (drawn + min))
    let length := stringLength 4 max
    pure ⟨fillBytes length (wrapUnsigned 32 gen), length⟩
  | _ => .fail .nullPointer

def decodeTerminal (grammarValue : CString) : Gen Decoded :=
  if grammarValue.head? ≠ some '%' then pure .none
  else if grammarValue.count '-' = 1 then decodeTerminalRange grammarValue
  else .ofExcept (decodeTerminalSymbol grammarValue)

/-- Upper-case letters are moved by 20, not by 0x20. -/
def quotedByte (c : Char) : UInt8 :=
  if 0x41 ≤ c.toNat ∧ c.toNat ≤ 0x5A then charByte c + 20 else charByte c

/-- The closing quote becomes the terminator. -/
def decodeQuoted (quotedString : CString) : Decoded :=
  let quoted := ((quotedString.drop 1).takeWhile (· ≠ '"')).map quotedByte
  ⟨quoted, quoted.length⟩

def scanNumber (acc : Int) : CString → Except Fault (Int × CString)
  | [] => .ok (acc, [])
  | c :: s =>
    if isDigit c then do
      let acc ← cint (acc * 10 + (c.toNat - 48))
      scanNumber acc s
    else .ok (acc, c :: s)

structure Repetition where
  min : Int
  max : Int
  elementToRepeat : CString
  deriving DecidableEq, Repr

def scanRepetition (elementStr : CString) : Except Fault Repetition := do
  let (min, rest) ← scanNumber 0 elementStr
  match rest with
  | '*' :: rest =>
    if rest.head?.any isDigit then do
      let (max, rest) ← scanNumber 0 rest
      pure ⟨min, max, rest⟩
    else pure ⟨min, ruleRepetitionInfty, rest⟩
  | rest => pure ⟨min, min, rest⟩

/-- The copying loop of `parse_elements` and `parse_repetition` over the
expansions it asks for one after the other. -/
def concatenate (result : Decoded) : List (Gen Decoded) → Gen Decoded
  | [] => pure result
  | part :: parts => do
    let part ← part
    let result ← .ofExcept (result.append part)
    concatenate result parts

/-- `decode_rule("OCTET", ...)[0]`. -/
def octet (decodeRule : CString → Gen Decoded) : Gen UInt8 := do
  let decoded ← decodeRule (cstr "OCTET")
  match decoded.bytes with
  | b :: _ => pure b
  | [] => .fail .outOfBounds

def octets (decodeRule : CString → Gen Decoded) : Nat → Gen (List UInt8)
  | 0 => pure []
  | n + 1 => do
    let b ← octet decodeRule
    let bs ← octets decodeRule n
    pure (b :: bs)

def shortstringGenerator (decodeRule : CString → Gen Decoded) : Gen Decoded := do
  let r ← randMod ruleRepetitionInfty
  let shortstringLength := r.toNat % 256
  let content ← octets decodeRule shortstringLength
  pure ⟨UInt8.ofNat shortstringLength :: content, shortstringLength + 1⟩

def longstringGenerator (decodeRule : CString → Gen Decoded) : Gen Decoded := do
  let r ← randMod ruleRepetitionInfty
  let stringLength := r.toNat
  let content ← octets decodeRule stringLength
  pure ⟨intInChar (List.replicate 4 0) stringLength 0 4 ++ content, stringLength + 4⟩

def GenFunction.call : GenFunction → (CString → Gen Decoded) → Gen Decoded
  | .shortstringGenerator => Amqpgram.shortstringGenerator
  | .longstringGenerator => Amqpgram.longstringGenerator

mutual

/-- Tokens are asked for at most once for each space and once more. -/
def parseElements : Nat → CString → Environment → Gen Decoded
  | 0, _, _ => .fail .outOfFuel
  | fuel + 1, elementStr, env =>
    let fields := elementStr.count ' ' + 1
    concatenate .none
      (((Tokens.tokens ' ' elementStr).take fields).map fun t => parseElement fuel t env)

def parseRepetition : Nat → CString → Environment → Gen Decoded
  | 0, _, _ => .fail .outOfFuel
  | fuel + 1, elementStr, env => do
    let ⟨min, max, elementToRepeat⟩ ← .ofExcept (scanRepetition elementStr)
    let drawn ← randMod (← .ofExcept (cint (max - min + 1)))
    let quantity ← .ofExcept (cint (drawn + min))
    let parts := List.replicate quantity.toNat (parseElement fuel elementToRepeat env)
    if quantity = 0 then pure .none else concatenate .none parts

def parseElement : Nat → CString → Environment → Gen Decoded
  | 0, _, _ => .fail .outOfFuel
  | fuel + 1, elementStr, env =>
    match elementStr with
    | [] => decodeRule fuel elementStr env
    | c :: _ =>
      if isDigit c || c = '*' then parseRepetition fuel elementStr env
      else if c = '%' then decodeTerminal elementStr
      else if c = '"' then pure (decodeQuoted elementStr)
      else if c = '[' || c = ']' then pure .none
      else decodeRule fuel elementStr env

def decodeRule : Nat → CString → Environment → Gen Decoded
  | 0, _, _ => .fail .outOfFuel
  | fuel + 1, rule, env =>
    match environmentLookup env rule with
    | none => pure .none
    | some (.string strEntry) => parseElements fuel strEntry env
    | some (.stringArray alternatives) => do
      match ← selectAlternativeRule (.stringArray alternatives) with
      | none => .fail .nullPointer
      | some ruleToDecode => parseElements fuel ruleToDecode env
    | some (.byteArray strEntry) => pure ⟨strEntry, strEntry.length⟩
    | some (.function generatorFunction) =>
      generatorFunction.call fun name => decodeRule fuel name env

end

end Amqpgram
