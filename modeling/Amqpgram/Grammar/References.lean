import Amqpgram.Grammar.Entries

/-! The rules that an entry refers to. An element calls at most one rule, whatever
counts stand before it, and an expansion sees of the environment only what the
entry refers to. -/
namespace Amqpgram

/-- The part of an element behind its counts. -/
def uncounted (elementStr : CString) : CString :=
  elementStr.dropWhile fun c => isDigit c || c = '*'

/-- The rule that an element calls, unless it is a terminal, a literal or an option. -/
def calledRule (elementStr : CString) : Option CString :=
  match uncounted elementStr with
  | [] => some []
  | c :: s => if special c then none else some (c :: s)

def GrammarEntry.texts : GrammarEntry → List CString
  | .string strEntry => [strEntry]
  | .stringArray alternatives => alternatives
  | _ => []

/-- The generators of FUNCTION entries call the rule OCTET. -/
def GrammarEntry.references : GrammarEntry → List CString
  | .function _ => [cstr "OCTET"]
  | entry => entry.texts.flatMap fun text => (Tokens.tokens ' ' text).filterMap calledRule

theorem mem_references {entry : GrammarEntry} {text t n : CString}
    (alternative : text ∈ entry.texts) (element : t ∈ Tokens.tokens ' ' text)
    (called : calledRule t = some n) : n ∈ entry.references := by
  cases entry with
  | function _ => cases alternative
  | byteArray _ => cases alternative
  | string strEntry =>
    exact List.mem_flatMap.mpr ⟨text, alternative, List.mem_filterMap.mpr ⟨t, element, called⟩⟩
  | stringArray alternatives =>
    exact List.mem_flatMap.mpr ⟨text, alternative, List.mem_filterMap.mpr ⟨t, element, called⟩⟩

theorem references_name {name : CString} (space : ' ' ∉ name)
    (plain : ∃ c ∈ name.head?, special c = false) :
    (Tokens.tokens ' ' name).filterMap calledRule = [name] := by
  obtain ⟨c, rest, rfl, ordinary⟩ := plain_cons plain
  have bare : uncounted (c :: rest) = c :: rest := by
    have letter := ordinary
    simp only [special, Bool.or_eq_false_iff] at letter
    obtain ⟨⟨⟨⟨⟨digit, star⟩, _⟩, _⟩, _⟩, _⟩ := letter
    rw [uncounted, List.dropWhile_cons_of_neg (by simp [digit, star])]
  rw [Tokens.tokens_of_not_mem space (by simp), List.filterMap_cons_some (b := c :: rest)]
  · rfl
  · rw [calledRule, bare]
    simp [ordinary]

/-! ### What an expansion sees -/

theorem dropWhile_dropWhile {p q : Char → Bool} (wider : ∀ c, q c = true → p c = true)
    (s : CString) : (s.dropWhile q).dropWhile p = s.dropWhile p := by
  induction s with
  | nil => rfl
  | cons c s ih =>
    by_cases inner : q c = true
    · rw [List.dropWhile_cons_of_pos inner, List.dropWhile_cons_of_pos (wider c inner), ih]
    · rw [List.dropWhile_cons_of_neg inner]

theorem scanNumber_rest {acc n : Int} {s rest : CString} (scan : scanNumber acc s = .ok (n, rest)) :
    rest = s.dropWhile isDigit := by
  induction s generalizing acc with
  | nil =>
    obtain ⟨_, rfl⟩ := Prod.mk.inj (Except.ok.inj scan)
    rfl
  | cons c s ih =>
    unfold scanNumber at scan
    split at scan
    · rename_i digit
      obtain ⟨acc, _, scan⟩ := bind_eq_ok.mp scan
      rw [List.dropWhile_cons_of_pos digit]
      exact ih scan
    · rename_i other
      obtain ⟨_, rfl⟩ := Prod.mk.inj (Except.ok.inj scan)
      rw [List.dropWhile_cons_of_neg other]

theorem uncounted_number {acc n : Int} {s rest : CString}
    (scan : scanNumber acc s = .ok (n, rest)) : uncounted rest = uncounted s := by
  rw [scanNumber_rest scan]
  exact dropWhile_dropWhile (by simp +contextual) s

theorem uncounted_repetition {s : CString} {repetition : Repetition}
    (scan : scanRepetition s = .ok repetition) :
    uncounted repetition.elementToRepeat = uncounted s := by
  obtain ⟨⟨min, rest⟩, lower, scan⟩ := bind_eq_ok.mp scan
  rw [← uncounted_number lower]
  dsimp only at scan
  split at scan
  · rename_i tail
    have star : uncounted ('*' :: tail) = uncounted tail := List.dropWhile_cons_of_pos (by decide)
    rw [star]
    split at scan
    · obtain ⟨⟨max, rest'⟩, upper, scan⟩ := bind_eq_ok.mp scan
      obtain rfl := Except.ok.inj scan
      exact uncounted_number upper
    · obtain rfl := Except.ok.inj scan
      rfl
  · obtain rfl := Except.ok.inj scan
    rfl

section
variable {env env' : Environment}

/-- An element sees the rule it calls and nothing else. The induction is on the fuel,
through the counts before the rule. -/
theorem parseElement_sees (fuel : Nat) {t : CString} (same : ∀ n ∈ calledRule t, ∀ less,
    decodeRule less n env = decodeRule less n env') :
    parseElement fuel t env = parseElement fuel t env' := by
  induction fuel using Nat.strong_induction_on generalizing t with
  | _ fuel ih =>
  cases fuel with
  | zero => rfl
  | succ fuel =>
    cases t with
    | nil => exact same [] rfl fuel
    | cons c s =>
      rw [parseElement, parseElement]
      split
      · rename_i counted
        cases fuel with
        | zero => rfl
        | succ fuel =>
          rw [parseRepetition, parseRepetition]
          cases scan : scanRepetition (c :: s) with
          | error fault => rfl
          | ok repetition =>
            have element : parseElement fuel repetition.elementToRepeat env =
                parseElement fuel repetition.elementToRepeat env' := by
              apply ih fuel (by omega)
              rw [calledRule, uncounted_repetition scan]
              exact same
            simp only [Sampler.ofExcept_ok, Sampler.bind_done, element]
      split
      · rfl
      split
      · rfl
      split
      · rfl
      · rename_i counted percent quote bracket
        have ordinary : special c = false := by
          simp only [Bool.or_eq_true, decide_eq_true_eq, not_or] at counted percent quote bracket
          simp [special, counted, percent, quote, bracket]
        apply same (c :: s)
        have bare : uncounted (c :: s) = c :: s :=
          List.dropWhile_cons_of_neg (by simpa using counted)
        rw [calledRule, bare]
        simp [ordinary]

theorem call_sees {f g : CString → Gen Decoded} (same : f (cstr "OCTET") = g (cstr "OCTET"))
    (generator : GenFunction) : generator.call f = generator.call g := by
  have one : octet f = octet g := by rw [octet, octet, same]
  have all : ∀ n, octets f n = octets g n := by
    intro n
    induction n with
    | zero => rfl
    | succ n ih => rw [octets, octets, one, ih]
  cases generator with
  | shortstringGenerator => simp only [GenFunction.call, shortstringGenerator, all]
  | longstringGenerator => simp only [GenFunction.call, longstringGenerator, all]

theorem select_bind (a : CString) (alternatives : List CString) (f : Option CString → Gen Decoded) :
    (selectAlternativeRule (.stringArray (a :: alternatives)) >>= f) =
      randMod (a :: alternatives).length >>= fun gen => f (a :: alternatives)[gen.toNat]? := rfl

theorem decodeEntry_sees {entry : GrammarEntry} (same : ∀ n ∈ entry.references, ∀ less,
    decodeRule less n env = decodeRule less n env') (fuel : Nat) :
    decodeEntry fuel (some entry) env = decodeEntry fuel (some entry) env' := by
  have elements : ∀ text ∈ entry.texts, parseElements fuel text env =
      parseElements fuel text env' := by
    intro text alternative
    cases fuel with
    | zero => rfl
    | succ fuel =>
      rw [parseElements_eq, parseElements_eq]
      congr 1
      apply List.map_congr_left
      intro t element
      apply parseElement_sees fuel
      intro n called
      exact same n (mem_references alternative element called)
  cases entry with
  | string strEntry => exact elements strEntry (List.mem_singleton_self _)
  | stringArray alternatives =>
    cases alternatives with
    | nil => rfl
    | cons a alternatives =>
      simp only [decodeEntry, select_bind]
      congr 1
      funext gen
      cases chosen : (a :: alternatives)[gen.toNat]? with
      | none => rfl
      | some text => exact elements text (List.mem_of_getElem? chosen)
  | byteArray strEntry => rfl
  | function generator => exact call_sees (same _ (List.mem_singleton_self _) fuel) generator

end

end Amqpgram
