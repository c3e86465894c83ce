import Amqpgram.Grammar.Generation

/-! The entry behind a name. `decode_rule` looks a name up and then goes by the entry
alone; a text that is one rule name is decoded as that rule, since the buffer an
element fills is as long as it says. -/
namespace Amqpgram

/-- What `decode_rule` does with the entry it has looked up. -/
def decodeEntry (fuel : Nat) (entry : Option GrammarEntry) (env : Environment) : Gen Decoded :=
  match entry with
  | none => pure .none
  | some (.string strEntry) => parseElements fuel strEntry env
  | some (.stringArray alternatives) => do
    match ← selectAlternativeRule (.stringArray alternatives) with
    | none => .fail .nullPointer
    | some ruleToDecode => parseElements fuel ruleToDecode env
  | some (.byteArray strEntry) => pure ⟨strEntry, strEntry.length⟩
  | some (.function generatorFunction) =>
    generatorFunction.call fun name => decodeRule fuel name env

theorem decodeRule_entry (fuel : Nat) (rule : CString) (env : Environment) :
    decodeRule (fuel + 1) rule env = decodeEntry fuel (environmentLookup env rule) env := by
  rw [decodeRule]
  rfl

/-! ### Reported lengths -/

/-- Every result reports the number of its bytes. -/
def Exact (g : Gen Decoded) : Prop := ∀ d, g.Yields d → d.length = d.bytes.length

theorem Exact.done (w : List UInt8) : Exact (.done (.of w)) := by
  rintro _ rfl
  rfl

theorem Exact.fail (fault : Fault) : Exact (.fail fault) := fun _ y => y.elim

theorem Exact.bind {A : Type} {g : Gen A} {f : A → Gen Decoded} (each : ∀ a, Exact (f a)) :
    Exact (g >>= f) := by
  intro d y
  obtain ⟨a, _, y⟩ := (Sampler.yields_bind ..).mp y
  exact each a d y

theorem Exact.ofExcept {x : Except Fault Decoded} (exact_ok : ∀ d, x = .ok d →
    d.length = d.bytes.length) : Exact (.ofExcept x) := by
  intro d y
  exact exact_ok d ((Sampler.yields_ofExcept ..).mp y)

/-- Whatever the parts report, no more is copied of them than they have. -/
theorem exact_concatenate {result : Decoded} (start : result.length = result.bytes.length)
    (parts : List (Gen Decoded)) : Exact (concatenate result parts) := by
  induction parts generalizing result with
  | nil =>
    rintro _ rfl
    exact start
  | cons part parts ih =>
    intro d y
    obtain ⟨p, _, rest⟩ := (Sampler.yields_bind ..).mp y
    obtain ⟨joined, append, rest⟩ := (Sampler.yields_bind ..).mp rest
    refine ih ?_ d rest
    rw [Sampler.yields_ofExcept, Decoded.append] at append
    split at append
    · rename_i inside
      obtain rfl := Except.ok.inj append
      simp [start, inside]
    · cases append

theorem exact_octets {f : CString → Gen Decoded} (n : Nat) {bs : List UInt8}
    (y : (octets f n).Yields bs) : bs.length = n := by
  induction n generalizing bs with
  | zero =>
    obtain rfl : [] = bs := y
    rfl
  | succ n ih =>
    obtain ⟨b, _, rest⟩ := (Sampler.yields_bind ..).mp y
    obtain ⟨bs', others, rfl⟩ := (Sampler.yields_bind ..).mp rest
    rw [List.length_cons, ih others]

theorem exact_call (generator : GenFunction) (f : CString → Gen Decoded) :
    Exact (generator.call f) := by
  cases generator with
  | shortstringGenerator =>
    apply Exact.bind
    intro r d y
    obtain ⟨content, octets, rfl⟩ := (Sampler.yields_bind ..).mp y
    simp [exact_octets _ octets]
  | longstringGenerator =>
    apply Exact.bind
    intro r d y
    obtain ⟨content, octets, rfl⟩ := (Sampler.yields_bind ..).mp y
    have size : (intInChar (List.replicate 4 0) r.toNat 0 4).length = 4 := by
      rw [intInChar, inChar_whole 4 _ _ rfl, Words.length_bytes]
    rw [List.length_append, size, exact_octets _ octets, Nat.add_comm]

theorem exact_decodeTerminal (text : CString) : Exact (decodeTerminal text) := by
  unfold decodeTerminal
  split
  · exact Exact.done []
  split
  · unfold decodeTerminalRange
    dsimp only
    split
    · refine .bind fun min => .bind fun max => .bind fun spread => .bind fun drawn => .bind ?_
      rintro gen _ rfl
      simp [fillBytes_eq]
    · exact Exact.fail _
  · apply Exact.ofExcept
    intro d decoded
    unfold decodeTerminalSymbol at decoded
    dsimp only at decoded
    split at decoded
    · cases decoded
    split at decoded
    · cases decoded
    · rename_i enough
      obtain rfl := Except.ok.inj decoded
      simp only [List.length_map, List.length_take]
      omega

section
variable {env : Environment}

theorem exact_parseElements (fuel : Nat) (text : CString) :
    Exact (parseElements fuel text env) := by
  cases fuel with
  | zero => exact Exact.fail _
  | succ fuel => exact exact_concatenate rfl _

theorem exact_decodeEntry (fuel : Nat) (entry : Option GrammarEntry) :
    Exact (decodeEntry fuel entry env) := by
  unfold decodeEntry
  split
  · exact Exact.done []
  · exact exact_parseElements fuel _
  · apply Exact.bind
    intro choice
    cases choice with
    | none => exact Exact.fail _
    | some text => exact exact_parseElements fuel text
  · exact Exact.done _
  · exact exact_call _ _

theorem exact_decodeRule (fuel : Nat) (rule : CString) : Exact (decodeRule fuel rule env) := by
  cases fuel with
  | zero => exact Exact.fail _
  | succ fuel =>
    rw [decodeRule_entry]
    exact exact_decodeEntry fuel _

theorem exact_parseRepetition (fuel : Nat) (text : CString) :
    Exact (parseRepetition fuel text env) := by
  cases fuel with
  | zero => exact Exact.fail _
  | succ fuel =>
    refine .bind fun repetition => .bind fun spread => .bind fun drawn => .bind fun quantity => ?_
    dsimp only
    split
    · exact Exact.done []
    · exact exact_concatenate rfl _

theorem exact_parseElement (fuel : Nat) (text : CString) : Exact (parseElement fuel text env) := by
  cases fuel with
  | zero => exact Exact.fail _
  | succ fuel =>
    cases text with
    | nil => exact exact_decodeRule fuel []
    | cons c s =>
      rw [parseElement]
      split
      · exact exact_parseRepetition fuel _
      split
      · exact exact_decodeTerminal _
      split
      · exact Exact.done _
      split
      · exact Exact.done []
      · exact exact_decodeRule fuel _

theorem concatenate_parts {A : Type} {f : A → Gen Decoded} {ts : List A} {u : List UInt8}
    {d : Decoded} (exact_part : ∀ t, Exact (f t))
    (y : (concatenate (.of u) (ts.map f)).Yields d) :
    ∃ parts, List.Forall₂ (fun t part => (f t).Yields (.of part)) ts parts ∧
      d = .of (u ++ parts.flatten) := by
  induction ts generalizing u with
  | nil =>
    obtain rfl : .of u = d := y
    exact ⟨[], .nil, by simp⟩
  | cons t ts ih =>
    obtain ⟨part, first, rest⟩ := (Sampler.yields_bind ..).mp y
    have whole := eq_of_exact (exact_part t part first)
    rw [whole] at first rest
    rw [append_of, Sampler.ofExcept_ok, Sampler.bind_done] at rest
    obtain ⟨parts, others, rfl⟩ := ih rest
    exact ⟨part.bytes :: parts, .cons first others, by simp⟩

theorem parseElements_parts {fuel : Nat} {text : CString} {d : Decoded}
    (y : (parseElements (fuel + 1) text env).Yields d) :
    ∃ parts, List.Forall₂ (fun t part => (parseElement fuel t env).Yields (.of part))
      (Tokens.tokens ' ' text) parts ∧ d = .of parts.flatten := by
  rw [parseElements_eq] at y
  exact concatenate_parts (fun t => exact_parseElement fuel t) y

theorem concatenate_one {g : Gen Decoded} (exact_part : Exact g) :
    concatenate (.of []) [g] = g := by
  induction g with
  | done d =>
    have number : d.length = d.bytes.length := exact_part d rfl
    rw [concatenate, Sampler.bind_done, eq_of_exact number, append_of]
    rfl
  | fail e => rfl
  | draw next ih =>
    have each : ∀ x, concatenate (.of []) [next x] = next x :=
      fun x => ih x fun d y => exact_part d ⟨x, y⟩
    exact congrArg Sampler.draw (funext each)

theorem plain_cons {name : CString} (plain : ∃ c ∈ name.head?, special c = false) :
    ∃ c rest, name = c :: rest ∧ special c = false := by
  obtain ⟨c, first, ordinary⟩ := plain
  cases name with
  | nil => cases first
  | cons a rest =>
    obtain rfl := Option.some.inj first
    exact ⟨a, rest, rfl, ordinary⟩

theorem parseElements_rule {name : CString} (space : ' ' ∉ name)
    (plain : ∃ c ∈ name.head?, special c = false) (fuel : Nat) :
    parseElements (fuel + 2) name env = decodeRule fuel name env := by
  obtain ⟨c, rest, rfl, ordinary⟩ := plain_cons plain
  rw [parseElements_eq, Tokens.tokens_of_not_mem space (by simp), List.map_singleton,
    parseElement_rule (.rule ordinary)]
  exact concatenate_one (exact_decodeRule fuel _)

theorem parseElements_terminal {text : CString} (space : ' ' ∉ text)
    (terminal : text.head? = some '%') (fuel : Nat) :
    parseElements (fuel + 2) text env = decodeTerminal text := by
  obtain ⟨rest, rfl⟩ : ∃ rest, text = '%' :: rest := List.head?_eq_some_iff.mp terminal
  have element : parseElement (fuel + 1) ('%' :: rest) env = decodeTerminal ('%' :: rest) := by
    simp [parseElement, isDigit]
  rw [parseElements_eq, Tokens.tokens_of_not_mem space (by simp), List.map_singleton, element]
  exact concatenate_one (exact_decodeTerminal _)

end

end Amqpgram
