import Amqpgram.Grammar.Fuel
import Amqpgram.Grammar.Generation
import Amqpgram.Grammar.Repetitions

/-! The generator with the `int` sizes of its buffers. It goes the way of the one without
sizes until a size overflows, and a result below 2^30 bytes has room in every buffer. -/
namespace Amqpgram
open Abnf (Element Body Reaches Reachable)

/-- The loop of `parse_elements`, which grows to twice the bytes it has so far. -/
def elementsLoop (realLength : Int) (result : Decoded) : List (Gen Decoded) → Gen Decoded
  | [] => pure result
  | part :: parts => do
    let partialResult ← part
    let totalLength ← .ofExcept (cint (result.length + partialResult.length))
    let realLength ← .ofExcept
      (if totalLength ≥ realLength then cint (totalLength * 2) else .ok realLength)
    let result ← .ofExcept (result.append partialResult)
    elementsLoop realLength result parts

namespace Sized

mutual

def parseElements : Nat → CString → Environment → Gen Decoded
  | 0, _, _ => .fail .outOfFuel
  | fuel + 1, elementStr, env =>
    let fields := elementStr.count ' ' + 1
    elementsLoop 1 .none
      (((Tokens.tokens ' ' elementStr).take fields).map fun t => parseElement fuel t env)

def parseRepetition : Nat → CString → Environment → Gen Decoded
  | 0, _, _ => .fail .outOfFuel
  | fuel + 1, elementStr, env => do
    let ⟨min, max, elementToRepeat⟩ ← .ofExcept (scanRepetition elementStr)
    let drawn ← randMod (← .ofExcept (cint (max - min + 1)))
    let quantity ← .ofExcept (cint (drawn + min))
    let parts := List.replicate quantity.toNat (parseElement fuel elementToRepeat env)
    if quantity = 0 then pure .none else copyLoop quantity .none parts

def parseElement : Nat → CString → Environment → Gen Decoded
  | 0, _, _ => .fail .outOfFuel
  | fuel + 1, elementStr, env =>
    match elementStr with
    | [] => decodeRule fuel elementStr env
    | c :: _ =>
      if isDigit c || c = '*' then parseRepetition fuel elementStr env
      else if c = '%' then decodeTerminal elementStr
      else if c = '"' then pure (decodeQuoted elementStr)
      else if c = '[' || c = ']' then pure .none
      else decodeRule fuel elementStr env

def decodeRule : Nat → CString → Environment → Gen Decoded
  | 0, _, _ => .fail .outOfFuel
  | fuel + 1, rule, env =>
    match environmentLookup env rule with
    | none => pure .none
    | some (.string strEntry) => parseElements fuel strEntry env
    | some (.stringArray alternatives) => do
      match ← selectAlternativeRule (.stringArray alternatives) with
      | none => .fail .nullPointer
      | some ruleToDecode => parseElements fuel ruleToDecode env
    | some (.byteArray strEntry) => pure ⟨strEntry, strEntry.length⟩
    | some (.function generatorFunction) =>
      generatorFunction.call fun name => decodeRule fuel name env

end

end Sized

/-! ### Overflow is all the sizes add -/

/-- The call with sizes goes the way of the one without. -/
abbrev Overflows (g h : Gen Decoded) : Prop := g.Refines .overflow h

section
variable {env : Environment} {fuel : Nat}

theorem elementsLoop_overflows {A : Type} {f h : A → Gen Decoded} {ts : List A}
    (each : ∀ t ∈ ts, Overflows (f t) (h t)) (r : Int) (result : Decoded) :
    Overflows (elementsLoop r result (ts.map f)) (concatenate result (ts.map h)) := by
  induction ts generalizing r result with
  | nil => exact .refl _ _
  | cons t ts ih =>
    apply Sampler.Refines.bind (each t (List.mem_cons_self ..))
    intro part
    apply Sampler.Refines.check fun _ => cint_error
    intro total sum
    apply Sampler.Refines.check
    · intro e failed
      split at failed
      · exact cint_error failed
      · cases failed
    · intro size grown
      apply Sampler.Refines.bind (.refl _ _)
      intro result
      exact ih (fun t ht => each t (List.mem_cons_of_mem _ ht)) size result

theorem growBuffer_bounds {r : Nat} (needed : Nat) (positive : 0 < r)
    (fits : r ≤ 2147483647) :
    (∃ grown : Nat, growBuffer 32 needed r = .ok (grown : Int) ∧ 0 < grown ∧ grown ≤ 2147483647) ∨
      growBuffer 32 needed r = .error .overflow := by
  have enough : 2147483647 < r * 2 ^ 31 := by omega
  by_cases room : needed < bufferRoom r
  · obtain ⟨grown, grow, least, upper, _⟩ := growBuffer_room positive fits enough room
    exact .inl ⟨grown, grow, least, upper⟩
  · exact .inr (growBuffer_full positive fits enough (Nat.le_of_not_lt room))

theorem copyLoop_overflows {A : Type} {f h : A → Gen Decoded} (ts : List A)
    (each : ∀ t ∈ ts, Overflows (f t) (h t)) {r : Nat} (positive : 0 < r)
    (fits : r ≤ 2147483647) (result : Decoded) :
    Overflows (copyLoop r result (ts.map f)) (concatenate result (ts.map h)) := by
  induction ts generalizing r result with
  | nil => exact .refl _ _
  | cons t ts ih =>
    apply Sampler.Refines.bind (each t (List.mem_cons_self ..))
    intro part
    apply Sampler.Refines.check fun _ => cint_error
    intro total sum
    obtain ⟨rfl, -, -⟩ := cint_eq_ok.mp sum
    rcases growBuffer_bounds (result.length + part.length) positive fits with
      ⟨grown, grow, least, upper⟩ | full
    · push_cast at grow
      rw [grow, Sampler.ofExcept_ok, Sampler.bind_done]
      apply Sampler.Refines.bind (.refl _ _)
      intro result
      exact ih (fun t ht => each t (List.mem_cons_of_mem _ ht)) least upper result
    · push_cast at full
      rw [full]
      exact .inl rfl

theorem parseRepetition_overflows
    (elements : ∀ t, Overflows (Sized.parseElement fuel t env) (parseElement fuel t env))
    (text : CString) :
    Overflows (Sized.parseRepetition (fuel + 1) text env)
      (parseRepetition (fuel + 1) text env) := by
  apply Sampler.Refines.bind (.refl _ _)
  rintro ⟨min, max, element⟩
  apply Sampler.Refines.bind (.refl _ _)
  intro spread
  apply Sampler.Refines.bind (.refl _ _)
  intro drawn
  apply Sampler.Refines.check fun _ => cint_error
  intro quantity sum
  obtain ⟨rfl, -, fits⟩ := cint_eq_ok.mp sum
  rw [sum, Sampler.ofExcept_ok, Sampler.bind_done]
  unfold intMax at fits
  dsimp only
  split
  · exact .refl _ _
  by_cases positive : 0 < drawn + min
  · rw [← List.map_replicate (f := fun t => Sized.parseElement fuel t env),
      ← List.map_replicate (f := fun t => parseElement fuel t env)]
    have start := copyLoop_overflows (List.replicate (drawn + min).toNat element)
      (fun t _ => elements t) (r := (drawn + min).toNat) (by omega) (by omega) .none
    rwa [Int.toNat_of_nonneg positive.le] at start
  · rw [Int.toNat_of_nonpos (by omega)]
    exact .refl _ _

theorem parseElement_overflows
    (repetitions : ∀ t, Overflows (Sized.parseRepetition fuel t env) (parseRepetition fuel t env))
    (rules : ∀ name, Overflows (Sized.decodeRule fuel name env) (decodeRule fuel name env))
    (text : CString) :
    Overflows (Sized.parseElement (fuel + 1) text env) (parseElement (fuel + 1) text env) := by
  cases text with
  | nil => exact rules []
  | cons c s =>
    rw [Sized.parseElement, parseElement]
    split
    · exact repetitions (c :: s)
    split
    · exact .refl _ _
    split
    · exact .refl _ _
    split
    · exact .refl _ _
    · exact rules (c :: s)

theorem decodeRule_overflows_step
    (texts : ∀ t, Overflows (Sized.parseElements fuel t env) (parseElements fuel t env))
    (rules : ∀ name, Overflows (Sized.decodeRule fuel name env) (decodeRule fuel name env))
    (rule : CString) :
    Overflows (Sized.decodeRule (fuel + 1) rule env) (decodeRule (fuel + 1) rule env) := by
  rw [Sized.decodeRule, decodeRule]
  cases environmentLookup env rule with
  | none => exact .refl _ _
  | some entry =>
    cases entry with
    | string text => exact texts text
    | stringArray alternatives =>
      apply Sampler.Refines.bind (.refl _ _)
      intro choice
      cases choice with
      | none => exact .refl _ _
      | some text => exact texts text
    | byteArray bs => exact .refl _ _
    | function f => exact call_extends rules f

/-- The four functions at once. The induction is on the fuel. -/
theorem sized_overflows (fuel : Nat) : ∀ text,
    Overflows (Sized.parseElements fuel text env) (parseElements fuel text env) ∧
    Overflows (Sized.parseRepetition fuel text env) (parseRepetition fuel text env) ∧
    Overflows (Sized.parseElement fuel text env) (parseElement fuel text env) ∧
    Overflows (Sized.decodeRule fuel text env) (decodeRule fuel text env) := by
  induction fuel with
  | zero => exact fun text => ⟨.inr rfl, .inr rfl, .inr rfl, .inr rfl⟩
  | succ fuel ih =>
    have texts := fun t => (ih t).1
    have repetitions := fun t => (ih t).2.1
    have elements := fun t => (ih t).2.2.1
    have rules := fun t => (ih t).2.2.2
    intro text
    refine ⟨?_, ?_, ?_, ?_⟩
    · exact elementsLoop_overflows (fun t _ => elements t) 1 .none
    · exact parseRepetition_overflows elements text
    · exact parseElement_overflows repetitions rules text
    · exact decodeRule_overflows_step texts rules text

theorem decodeRule_overflows (fuel : Nat) (rule : CString) (env : Environment) :
    Overflows (Sized.decodeRule fuel rule env) (decodeRule fuel rule env) :=
  (sized_overflows fuel rule).2.2.2

end

/-! ### Small results have room -/

/-- What the call without sizes can return below 2^30 bytes, the one with sizes can. -/
def Keeps (g h : Gen Decoded) : Prop := ∀ d, h.Yields d → d.length < 2 ^ 30 → g.Yields d

theorem Keeps.refl (g : Gen Decoded) : Keeps g g := fun _ y _ => y

section
variable {A : Type} {f h : A → Gen Decoded} {ts : List A} {result d : Decoded}

end

section
variable {env : Environment} {r : CString} {t : CString} {e : Element CString} {fuel : Nat}

end
end Amqpgram
