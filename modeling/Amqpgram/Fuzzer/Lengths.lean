import Amqpgram.Fuzzer.GrammarInterface
import Amqpgram.Grammar.Entries

/-! `overwrite_rule_set_length` at RULE_CHAOS = 0. A rule and its length rule become
byte strings in the first grammar of the chain, so whatever is decoded there from then
on finds the two in agreement, and later calls on other rules leave them so. -/
namespace Amqpgram

/-- The calls that one generator makes after another on its own grammar. -/
def overwriteLengths (fuel : Nat) (next : Environment) :
    List (CString × CString) → Grammar → Gen Grammar
  | [], grammar => pure grammar
  | (ruleToDecode, lengthRule) :: calls, grammar => do
    let grammar ← overwriteRuleSetLength fuel 0 ruleToDecode lengthRule 4 grammar next
    overwriteLengths fuel next calls grammar

/-- A rule and its length rule are byte strings, the second giving the length of the first. -/
structure Frozen (env : Environment) (rule lengthRule : CString) (bs : List UInt8) : Prop where
  rule : environmentLookup env rule = some (.byteArray bs)
  length : environmentLookup env lengthRule = some (.byteArray (Words.bytes 4 bs.length))

section
variable {fuel : Nat} {rule lengthRule : CString} {grammar grammar' : Grammar}
variable {env next : Environment} {draws rest : RandStream} {bs : List UInt8}

theorem decodeRule_byteArray (found : environmentLookup env rule = some (.byteArray bs))
    (fuel : Nat) : decodeRule (fuel + 1) rule env = .done (.of bs) := by
  rw [decodeRule_entry, found]
  rfl

theorem length_octets (bs : List UInt8) :
    intInChar (List.replicate 4 0) bs.length 0 4 = Words.bytes 4 bs.length := by
  have size : wrapUnsigned 32 (bs.length : Int) = bs.length % 256 ^ 4 := by
    unfold wrapUnsigned
    omega
  have parts := Nat.div_add_mod' bs.length (256 ^ 4)
  rw [intInChar, inChar_whole 4 _ _ rfl, size]
  conv_rhs => rw [← parts, Words.bytes_add_mul]

theorem setLength_run (returns : (overwriteRuleSetLength fuel 0 rule lengthRule 4 grammar next).run
    draws = .ok (grammar', rest)) :
    ∃ bs, (decodeRule fuel rule (newEnvironment grammar next)).run draws = .ok (.of bs, rest) ∧
      grammar' = grammarInsert (grammarInsert grammar rule (some (.byteArray bs))) lengthRule
        (some (.byteArray (Words.bytes 4 bs.length))) := by
  obtain ⟨decoded, rest', decoding, freezing⟩ := Sampler.run_bind_ok returns
  have whole := eq_of_exact (exact_decodeRule fuel rule decoded (Sampler.yields_of_run decoding))
  rw [whole] at decoding freezing
  obtain ⟨entry, copied, done⟩ := Sampler.run_ofExcept_bind_ok freezing
  obtain rfl : .byteArray decoded.bytes = entry := by
    simpa [byteArrayEntry, Decoded.of] using copied
  obtain ⟨written, rfl⟩ := Sampler.run_done_ok done
  refine ⟨decoded.bytes, decoding, ?_⟩
  rw [← written, ← length_octets]
  rfl

theorem setLength_frozen (distinct : rule ≠ lengthRule) :
    Frozen (newEnvironment (grammarInsert (grammarInsert grammar rule (some (.byteArray bs)))
      lengthRule (some (.byteArray (Words.bytes 4 bs.length)))) next) rule lengthRule bs := by
  constructor
  · rw [newEnvironment, environmentLookup_cons, grammarLookup_insert_of_ne _ _ distinct,
      grammarLookup_insert_self]
    rfl
  · rw [newEnvironment, environmentLookup_cons, grammarLookup_insert_self]
    rfl

theorem setLength_other (returns : (overwriteRuleSetLength fuel 0 rule lengthRule 4 grammar
    next).run draws = .ok (grammar', rest)) {key : CString} (own : key ≠ rule)
    (length : key ≠ lengthRule) : grammarLookup grammar' key = grammarLookup grammar key := by
  obtain ⟨bs, _, rfl⟩ := setLength_run returns
  rw [grammarLookup_insert_of_ne _ _ length, grammarLookup_insert_of_ne _ _ own]

theorem overwriteLengths_other {calls : List (CString × CString)} {key : CString}
    (apart : ∀ call ∈ calls, key ≠ call.1 ∧ key ≠ call.2)
    (returns : (overwriteLengths fuel next calls grammar).run draws = .ok (grammar', rest)) :
    grammarLookup grammar' key = grammarLookup grammar key := by
  induction calls generalizing grammar draws with
  | nil =>
    obtain ⟨rfl, _⟩ := Sampler.run_done_ok returns
    rfl
  | cons call calls ih =>
    obtain ⟨between, draws', first, others⟩ := Sampler.run_bind_ok returns
    have here := apart call (List.mem_cons_self ..)
    rw [ih (fun c member => apart c (List.mem_cons_of_mem _ member)) others]
    exact setLength_other first here.1 here.2

theorem Frozen.later {calls : List (CString × CString)}
    (frozen : Frozen (newEnvironment grammar next) rule lengthRule bs)
    (apart : ∀ call ∈ calls, ∀ key ∈ [call.1, call.2], rule ≠ key ∧ lengthRule ≠ key)
    (returns : (overwriteLengths fuel next calls grammar).run draws = .ok (grammar', rest)) :
    Frozen (newEnvironment grammar' next) rule lengthRule bs := by
  have keeps : ∀ key, (∀ call ∈ calls, key ≠ call.1 ∧ key ≠ call.2) →
      environmentLookup (newEnvironment grammar' next) key =
        environmentLookup (newEnvironment grammar next) key := by
    intro key other
    rw [newEnvironment, newEnvironment, environmentLookup_cons, environmentLookup_cons,
      overwriteLengths_other other returns]
  constructor
  · rw [keeps rule fun call member => ⟨(apart call member _ (by simp)).1,
      (apart call member _ (by simp)).1⟩]
    exact frozen.rule
  · rw [keeps lengthRule fun call member => ⟨(apart call member _ (by simp)).2,
      (apart call member _ (by simp)).2⟩]
    exact frozen.length

/-- The expansion of a text in which each mention of the rule is its bytes and each
mention of the length rule their number. -/
def CarriesLength (rule lengthRule : CString) (bs : List UInt8) (text : CString) (d : Decoded) :
    Prop :=
  ∃ parts : List (List UInt8), List.Forall₂ (fun t part => (t = rule → part = bs) ∧
    (t = lengthRule → part = Words.bytes 4 bs.length)) (Tokens.tokens ' ' text) parts ∧
      d = .of parts.flatten

theorem element_byteArray {name : CString} {part : List UInt8}
    (plain : ∃ c ∈ name.head?, special c = false)
    (found : environmentLookup env name = some (.byteArray bs))
    (y : (parseElement fuel name env).Yields (.of part)) : part = bs := by
  obtain ⟨c, rest, rfl, ordinary⟩ := plain_cons plain
  cases fuel with
  | zero => exact y.elim
  | succ fuel =>
    rw [parseElement_rule (.rule ordinary)] at y
    cases fuel with
    | zero => exact y.elim
    | succ fuel =>
      rw [decodeRule_byteArray found] at y
      exact (congrArg Decoded.bytes y).symm

theorem Frozen.carries (frozen : Frozen env rule lengthRule bs)
    (plain : ∀ name ∈ [rule, lengthRule], ∃ c ∈ name.head?, special c = false) {text : CString}
    {d : Decoded} (y : (parseElements fuel text env).Yields d) :
    CarriesLength rule lengthRule bs text d := by
  cases fuel with
  | zero => exact y.elim
  | succ fuel =>
    obtain ⟨parts, each, rfl⟩ := parseElements_parts y
    refine ⟨parts, each.imp ?_, rfl⟩
    intro t part expanded
    constructor
    · rintro rfl
      exact element_byteArray (plain _ (by simp)) frozen.rule expanded
    · rintro rfl
      exact element_byteArray (plain _ (by simp)) frozen.length expanded

/-- A call freezes one expansion of the rule with its length, and they stay together in
everything decoded afterwards, whatever other rules are given lengths in between. -/
theorem setLength_freezes (fuel : Nat) (rule lengthRule : CString) (distinct : rule ≠ lengthRule)
    (grammar grammar' : Grammar) (next : Environment) (draws rest : RandStream)
    (returns : (overwriteRuleSetLength fuel 0 rule lengthRule 4 grammar next).run draws =
      .ok (grammar', rest)) :
    (∀ key, key ≠ rule → key ≠ lengthRule →
      environmentLookup (newEnvironment grammar' next) key =
        environmentLookup (newEnvironment grammar next) key) ∧
    ∃ bs, (decodeRule fuel rule (newEnvironment grammar next)).Yields (.of bs) ∧
      ∀ calls more later draws' rest',
        (∀ call ∈ calls, ∀ key ∈ [call.1, call.2], rule ≠ key ∧ lengthRule ≠ key) →
        (overwriteLengths more next calls grammar').run draws' = .ok (later, rest') →
        (∀ fuel, decodeRule (fuel + 1) rule (newEnvironment later next) = .done (.of bs)) ∧
        (∀ fuel, decodeRule (fuel + 1) lengthRule (newEnvironment later next) =
          .done (.of (Words.bytes 4 bs.length))) ∧
        ((∀ name ∈ [rule, lengthRule], ∃ c ∈ name.head?, special c = false) →
          ∀ fuel text d, (parseElements fuel text (newEnvironment later next)).Yields d →
            CarriesLength rule lengthRule bs text d) := by
  obtain ⟨bs, decoding, written⟩ := setLength_run returns
  constructor
  · intro key own length
    rw [newEnvironment, newEnvironment, environmentLookup_cons, environmentLookup_cons,
      setLength_other returns own length]
  · refine ⟨bs, Sampler.yields_of_run decoding, ?_⟩
    intro calls more later draws' rest' apart calling
    have frozen : Frozen (newEnvironment grammar' next) rule lengthRule bs := by
      rw [written]
      exact setLength_frozen distinct
    have kept := frozen.later apart calling
    refine ⟨decodeRule_byteArray kept.rule, decodeRule_byteArray kept.length, ?_⟩
    intro plain fuel text d y
    exact kept.carries plain y

end

theorem setLength_freezes_pair : ∃ g, decodeRule 1 (cstr "n") (newEnvironment g []) =
    .done (.of [0, 0, 0, 2]) := by
  obtain ⟨g, rest, returns⟩ : ∃ g rest, (overwriteRuleSetLength 1 0 (cstr "r") (cstr "n") 4
      (grammarInsert createGrammar (cstr "r") (some (.byteArray [5, 6]))) []).run
        (Stream'.const 0) = .ok (g, rest) := ⟨_, _, rfl⟩
  obtain ⟨_, bs, expansion, later⟩ := setLength_freezes 1 (cstr "r") (cstr "n") (by decide)
    (grammarInsert createGrammar (cstr "r") (some (.byteArray [5, 6]))) g [] (Stream'.const 0) rest
    returns
  obtain rfl : [5, 6] = bs := congrArg Decoded.bytes expansion
  exact ⟨g, (later [] 1 g rest rest (by simp) rfl).2.1 0⟩

end Amqpgram
