import Amqpgram.Grammar.Files
import Amqpgram.Grammar.Generation
import Amqpgram.Grammar.Reading

/-! Soundness of generation: on rules whose terminals the generator handles, what
`decode_rule` returns is in the ABNF language of the rule. -/
namespace Amqpgram
open Abnf (Element Body Derives Reaches Reachable)

/-- The elements whose sampled choices all belong to ABNF: a range keeps its
width only when its upper end does not begin with 0 or 1, and upper-case letters
do not survive quoting. -/
def Plain : Element CString → Prop
  | .rule _ => True
  | .bytes _ => True
  | .range lo hi => lo.length = hi.length ∧ hi.length ≤ 3 ∧ Words.value lo < Words.value hi ∧
      ∀ b ∈ hi.head?, 2 ≤ b
  | .literal t => ∀ b ∈ t, ¬ (65 ≤ b ∧ b ≤ 90)
  | .option e => Plain e
  | .repetition min max e => (∀ m ∈ max, min ≤ m) ∧ (max = none → min ≤ 16) ∧ Plain e

instance decidablePlain : ∀ e, Decidable (Plain e)
  | .rule _ => isTrue trivial
  | .bytes _ => isTrue trivial
  | .range lo hi => inferInstanceAs (Decidable (lo.length = hi.length ∧ hi.length ≤ 3 ∧
      Words.value lo < Words.value hi ∧ ∀ b ∈ hi.head?, 2 ≤ b))
  | .literal t => inferInstanceAs (Decidable (∀ b ∈ t, ¬ (65 ≤ b ∧ b ≤ 90)))
  | .option e => decidablePlain e
  | .repetition min max e =>
    have := decidablePlain e
    inferInstanceAs (Decidable ((∀ m ∈ max, min ≤ m) ∧ (max = none → min ≤ 16) ∧ Plain e))

/-- Every rule in reach of `r` has a body, of plain elements. -/
def PlainFrom (env : Environment) (r : CString) : Prop :=
  ∀ n, Reaches (rulesOf env) r n →
    ∃ body, rulesOf env n body ∧ ∀ alt ∈ body, ∀ e ∈ alt, Plain e

theorem keptWidth_of_head {hi : List UInt8} (big : ∀ b ∈ hi.head?, 2 ≤ b) :
    keptWidth hi = hi.length := by
  cases hi with
  | nil => rfl
  | cons b bs =>
    have large : 2 ≤ b := big b (by simp)
    have zero : b ≠ 0 := by rintro rfl; exact absurd large (by decide)
    have one : b ≠ 1 := by rintro rfl; exact absurd large (by decide)
    simp [keptWidth, zero, one]

theorem shiftedByte_of_plain {b : UInt8} (h : ¬ (65 ≤ b ∧ b ≤ 90)) : shiftedByte b = b := if_neg h

theorem sampled_le_full : Abnf.Reading.LeOn Plain sampled Abnf.full := by
  refine ⟨?_, ?_, ?_, False.elim⟩
  · intro lo hi plain w sampled
    obtain ⟨same, _, _, big⟩ := plain
    obtain ⟨_, v, lower, upper, rfl⟩ := sampled
    have fits := Words.value_lt hi
    rw [keptWidth_of_head big]
    refine ⟨by rw [Words.length_bytes, same], ?_⟩
    rw [Words.value_bytes_of_lt (upper.trans fits)]
    exact ⟨lower, upper.le⟩
  · intro t plain w sampled
    have same : t.map shiftedByte = t := by
      conv_rhs => rw [← List.map_id t]
      exact List.map_congr_left fun b hb => shiftedByte_of_plain (plain b hb)
    obtain rfl : w = t.map shiftedByte := sampled
    rw [same]
    rfl
  · intro min max e plain q sampled
    obtain ⟨_, _, _, lower, upper, _⟩ := sampled
    refine ⟨lower, ?_⟩
    intro m hm
    have order := plain.1 m hm
    rw [Option.mem_def.mp hm, Option.getD_some] at upper
    omega

section PlainFrom
variable {env : Environment} {r : CString}

theorem PlainFrom.expansions_eq (plain : PlainFrom env r) {n : CString} {body : Body CString}
    (reach : Reaches (rulesOf env) r n) (rule : expansions env n body) : rulesOf env n body := by
  rcases rule with rule | ⟨missing, _⟩
  · exact rule
  · obtain ⟨_, ⟨_, lookup, _⟩, _⟩ := plain n reach
    rw [lookup] at missing
    cases missing

theorem PlainFrom.spelled (plain : PlainFrom env r) : Spelled env r := by
  intro n reach
  have known := reach.mono fun m alts reach rule => plain.expansions_eq reach rule
  obtain ⟨body, rule, _⟩ := plain n known
  exact ⟨body, .inl rule⟩

theorem PlainFrom.inherited (plain : PlainFrom env r) :
    Abnf.Inherited (expansions env) fun e => Reachable (rulesOf env) r e ∧ Plain e := by
  refine ⟨?_, ?_, ?_⟩
  · intro n alts ⟨reach, _⟩ rule alt member e he
    have inReach := Abnf.reachable_rule.mp reach
    have known := plain.expansions_eq inReach rule
    obtain ⟨body, own, elements⟩ := plain n inReach
    obtain rfl := rulesOf_unique own known
    exact ⟨inReach.body known member e he, elements alt member e he⟩
  · intro e h
    exact h
  · intro min max e h
    exact ⟨h.1, h.2.2.2⟩

theorem PlainFrom.derives_full (plain : PlainFrom env r) {w : List UInt8}
    (d : Derives sampled (expansions env) [.rule r] w) :
    Derives Abnf.full (rulesOf env) [.rule r] w := by
  refine d.mono plain.inherited ?_ ?_ ?_
  · obtain ⟨range, literal, count, option⟩ := sampled_le_full
    exact ⟨fun p => range p.2, fun p => literal p.2, fun p => count p.2, option⟩
  · intro n alts ⟨reach, _⟩ rule
    exact plain.expansions_eq (Abnf.reachable_rule.mp reach) rule
  · intro e he
    obtain rfl := List.mem_singleton.mp he
    exact ⟨Abnf.reachable_rule.mpr .start, trivial⟩

/-- What `decode_rule` returns is in the ABNF language of the rule, with its own length. -/
theorem decodeRule_sound (plain : PlainFrom env r) (fuel : Nat) (draws rest : RandStream)
    (d : Decoded) (returns : (decodeRule fuel r env).run draws = .ok (d, rest)) :
    d.bytes ∈ Abnf.language Abnf.full (rulesOf env) (.rule r) ∧ d.length = d.bytes.length := by
  have y := Sampler.yields_of_run returns
  obtain ⟨w, rfl, derived⟩ := decodeRule_derived plain.spelled fuel d y
  exact ⟨plain.derives_full derived, rfl⟩

end PlainFrom

/-! ### The shipped grammar -/

theorem rulesOf_iff {env : Environment} {name : CString} {body : Body CString}
    (read : readRule env name = some body) (bodies : Body CString) :
    rulesOf env name bodies ↔ bodies = body := by
  constructor
  · exact fun rule => (rulesOf_unique (readRule_rulesOf read) rule).symm
  · rintro rfl
    exact readRule_rulesOf read

/-- The rules read from these names are plain and mention no other name. -/
def PlainOn (env : Environment) (names : List CString) : Prop :=
  ∀ n ∈ names, ∃ body ∈ readRule env n, ∀ alt ∈ body, ∀ e ∈ alt,
    Plain e ∧ ∀ m ∈ e.names, m ∈ names

theorem PlainOn.plainFrom {env : Environment} {names : List CString} (h : PlainOn env names)
    {r : CString} (member : r ∈ names) : PlainFrom env r := by
  have inside : ∀ n, Reaches (rulesOf env) r n → n ∈ names := by
    intro n reach
    induction reach with
    | start => exact member
    | @mention n alts alt e m _ rule inAlts inAlt hm ih =>
      obtain ⟨body, read, elements⟩ := h n ih
      obtain rfl := rulesOf_unique (readRule_rulesOf read) rule
      exact (elements alt inAlts e inAlt).2 m hm
  intro n reach
  obtain ⟨body, read, elements⟩ := h n (inside n reach)
  exact ⟨body, readRule_rulesOf read, fun alt ha e he => (elements alt ha e he).1⟩

def protocolRules : List CString :=
  ((specRules ++ abnfRules).map Prod.fst).filter (· ≠ cstr "HEXDIG")

instance (env : Environment) (names : List CString) : Decidable (PlainOn env names) :=
  inferInstanceAs (Decidable (∀ n ∈ names, ∃ body ∈ readRule env n, ∀ alt ∈ body, ∀ e ∈ alt,
    Plain e ∧ ∀ m ∈ e.names, m ∈ names))

/-- All rules of grammar-spec and grammar-abnf but HEXDIG. -/
theorem protocol_plainOn : PlainOn (newEnvironment protocolGrammar []) protocolRules := by
  decide +kernel

theorem decodeRule_sound_octet :
    [65] ∈ Abnf.language Abnf.full (rulesOf (newEnvironment protocolGrammar []))
      (.rule (cstr "OCTET")) ∧ 1 = [(65 : UInt8)].length := by
  obtain ⟨rest, returns⟩ := Sampler.run_of_map_fst
    (show ((decodeRule 6 (cstr "OCTET") (newEnvironment protocolGrammar [])).run
      (Stream'.const 65)).map Prod.fst = .ok ⟨[65], 1⟩ by decide +kernel)
  have plain := protocol_plainOn.plainFrom (r := cstr "OCTET") (by decide +kernel)
  exact decodeRule_sound plain 6 (Stream'.const 65) rest ⟨[65], 1⟩ returns

end Amqpgram
