import Amqpgram.Fuzzer.Connection
import Amqpgram.Grammar.Returning
import Amqpgram.Grammar.Soundness
import Amqpgram.Library.Utf8

/-! The SASL strings of grammar-connection. SAFE is the table of well-formed UTF-8
sequences without NUL; that its ranges, alternatives and counts are sampled exactly is
what the generator owes it. -/
namespace Amqpgram
open Abnf (Body Derives)

def saslRules : List CString := [cstr "authcid", cstr "authzid", cstr "passwd"]

def utf0 : Body CString := [[.range [0x80] [0xBF]]]

def utf1 : Body CString := [[.range [0x01] [0x7F]]]

def utf2 : Body CString := [[.range [0xC2] [0xDF], .rule (cstr "UTF0")]]

def utf3 : Body CString := [
  [.bytes [0xE0], .range [0xA0] [0xBF], .rule (cstr "UTF0")],
  [.range [0xE1] [0xEC], .repetition 2 (some 2) (.rule (cstr "UTF0"))],
  [.bytes [0xED], .range [0x80] [0x9F], .rule (cstr "UTF0")],
  [.range [0xEE] [0xEF], .repetition 2 (some 2) (.rule (cstr "UTF0"))]]

def utf4 : Body CString := [
  [.bytes [0xF0], .range [0x90] [0xBF], .repetition 2 (some 2) (.rule (cstr "UTF0"))],
  [.range [0xF1] [0xF3], .repetition 3 (some 3) (.rule (cstr "UTF0"))],
  [.bytes [0xF4], .range [0x80] [0x8F], .repetition 2 (some 2) (.rule (cstr "UTF0"))]]

def safe : Body CString := [[.rule (cstr "UTF1")], [.rule (cstr "UTF2")], [.rule (cstr "UTF3")],
  [.rule (cstr "UTF4")]]

def sasl : Body CString := [[.repetition 1 none (.rule (cstr "SAFE"))]]

/-- The SASL rules and what they mention, each in front of the rules it mentions. -/
def safeGrammar : List (CString × Body CString) :=
  saslRules.map (·, sasl) ++ [(cstr "SAFE", safe), (cstr "UTF1", utf1), (cstr "UTF2", utf2),
    (cstr "UTF3", utf3), (cstr "UTF4", utf4), (cstr "UTF0", utf0)]

/-- These names have the entries of grammar-connection. -/
def SafeShipped (env : Environment) : Prop :=
  ∀ rule ∈ safeGrammar, environmentLookup env rule.1 = environmentLookup shippedConnectionEnv rule.1

theorem safeGrammar_read :
    ∀ rule ∈ safeGrammar, readRule shippedConnectionEnv rule.1 = some rule.2 := by decide +kernel

theorem safeGrammar_ordered : Ordered safeGrammar := by decide +kernel

theorem safeGrammar_plain : ∀ rule ∈ safeGrammar, ∀ alt ∈ rule.2, ∀ e ∈ alt,
    Plain e ∧ ∀ m ∈ e.names, m ∈ safeGrammar.map Prod.fst := by decide +kernel

section
variable {env : Environment} {w : List UInt8}

theorem SafeShipped.read (shipped : SafeShipped env) :
    ∀ rule ∈ safeGrammar, readRule env rule.1 = some rule.2 := by
  intro rule member
  rw [readRule, shipped rule member]
  exact safeGrammar_read rule member

theorem SafeShipped.plainFrom (shipped : SafeShipped env) {rule : CString}
    (member : rule ∈ safeGrammar.map Prod.fst) : PlainFrom env rule := by
  have plain : PlainOn env (safeGrammar.map Prod.fst) := by
    intro n inside
    obtain ⟨r, known, rfl⟩ := List.mem_map.mp inside
    exact ⟨r.2, shipped.read r known, safeGrammar_plain r known⟩
  exact plain.plainFrom member

/-- The language of a rule in an environment, as the RFC reads it. -/
abbrev words (env : Environment) (e : Abnf.Element CString) : Language UInt8 :=
  Abnf.language Abnf.full (rulesOf env) e

theorem SafeShipped.mem_words (shipped : SafeShipped env) {n : CString} (body : Body CString)
    (member : (n, body) ∈ safeGrammar) : w ∈ words env (.rule n) ↔
      ∃ alt ∈ body, ∃ parts, List.Forall₂ (fun e u => u ∈ words env e) alt parts ∧
        w = parts.flatten := by
  have only := rulesOf_iff (shipped.read _ member)
  rw [Abnf.language_only only]
  simp only [Abnf.derives_flatten]

/-- The encoding of a character other than NUL. -/
def Encoded (w : List UInt8) : Prop :=
  ∃ ch : Char, ch.val.toNat ≠ 0 ∧ w = String.utf8EncodeChar ch

theorem mem_octetRange {lo hi : UInt8} {u : List UInt8} : u ∈ words env (.range [lo] [hi]) ↔
    ∃ b, (lo.toNat ≤ b.toNat ∧ b.toNat ≤ hi.toNat) ∧ u = [b] := Abnf.language_octetRange

theorem mem_tail (shipped : SafeShipped env) (u : List UInt8) :
    u ∈ words env (.rule (cstr "UTF0")) ↔ ∃ b, Utf8.Tail b ∧ u = [b] := by
  have only := rulesOf_iff (shipped.read (cstr "UTF0", utf0) (by simp [safeGrammar]))
  rw [words, Abnf.language_only only]
  simp only [utf0, List.mem_singleton, exists_eq_left, ← Abnf.mem_language]
  exact mem_octetRange

theorem mem_tails (shipped : SafeShipped env) (q : Nat) (u : List UInt8) :
    u ∈ words env (.repetition q (some q) (.rule (cstr "UTF0"))) ↔
      u.length = q ∧ ∀ b ∈ u, Utf8.Tail b := by
  have count : ∀ k, k ∈ Abnf.full.count q (some q) ↔ k = q := by
    intro k
    constructor
    · rintro ⟨lower, upper⟩
      exact le_antisymm (upper q rfl) lower
    · rintro rfl
      exact ⟨le_rfl, by simp⟩
  simp only [words, Abnf.language_repetition, count, exists_eq_left,
    Abnf.derives_replicate_octets (mem_tail shipped)]

theorem mem_two_tails (shipped : SafeShipped env) {u : List UInt8}
    (word : u ∈ words env (.repetition 2 (some 2) (.rule (cstr "UTF0")))) :
    ∃ b c, Utf8.Tail b ∧ Utf8.Tail c ∧ u = [b, c] := by
  obtain ⟨length, tails⟩ := (mem_tails shipped 2 u).mp word
  obtain ⟨b, c, rfl⟩ := List.length_eq_two.mp length
  exact ⟨b, c, tails b (by simp), tails c (by simp), rfl⟩

theorem mem_three_tails (shipped : SafeShipped env) {u : List UInt8}
    (word : u ∈ words env (.repetition 3 (some 3) (.rule (cstr "UTF0")))) :
    ∃ b c d, Utf8.Tail b ∧ Utf8.Tail c ∧ Utf8.Tail d ∧ u = [b, c, d] := by
  obtain ⟨length, tails⟩ := (mem_tails shipped 3 u).mp word
  obtain ⟨b, c, d, rfl⟩ := List.length_eq_three.mp length
  exact ⟨b, c, d, tails b (by simp), tails c (by simp), tails d (by simp), rfl⟩

theorem encoded_utf1 (shipped : SafeShipped env) (word : w ∈ words env (.rule (cstr "UTF1"))) :
    Encoded w := by
  obtain ⟨alt, member, parts, pieces, rfl⟩ :=
    (shipped.mem_words utf1 (by simp [safeGrammar])).mp word
  obtain rfl := List.mem_singleton.mp member
  obtain _ | ⟨first, ⟨⟩⟩ := pieces
  obtain ⟨a, ⟨lower, upper⟩, rfl⟩ := mem_octetRange.mp first
  obtain ⟨ch, value, encoded⟩ := Utf8.encode_one upper
  have positive : 1 ≤ a.toNat := lower
  exact ⟨ch, by omega, encoded.symm⟩

theorem encoded_utf2 (shipped : SafeShipped env) (word : w ∈ words env (.rule (cstr "UTF2"))) :
    Encoded w := by
  obtain ⟨alt, member, parts, pieces, rfl⟩ :=
    (shipped.mem_words utf2 (by simp [safeGrammar])).mp word
  obtain rfl := List.mem_singleton.mp member
  obtain _ | ⟨first, _ | ⟨second, ⟨⟩⟩⟩ := pieces
  obtain ⟨a, leading, rfl⟩ := mem_octetRange.mp first
  obtain ⟨b, tail, rfl⟩ := (mem_tail shipped _).mp second
  obtain ⟨ch, value, encoded⟩ := Utf8.encode_two leading tail
  exact ⟨ch, by omega, encoded.symm⟩

/-- Three octets, of which the first two decide whether they encode a character. -/
theorem encoded_three {a b c : UInt8} (first : 0xE0 ≤ a.toNat ∧ a.toNat ≤ 0xEF)
    (second : Utf8.Tail b) (third : Utf8.Tail c)
    (least : a.toNat = 0xE0 → 0xA0 ≤ b.toNat) (surrogate : a.toNat = 0xED → b.toNat ≤ 0x9F) :
    Encoded [a, b, c] := by
  obtain ⟨lower, upper⟩ := second
  obtain ⟨ch, value, encoded⟩ := Utf8.encode_three first ⟨lower, upper⟩ third (by omega) (by omega)
  exact ⟨ch, by omega, encoded.symm⟩

theorem encoded_four {a b c d : UInt8} (first : 0xF0 ≤ a.toNat ∧ a.toNat ≤ 0xF4)
    (second : Utf8.Tail b) (third : Utf8.Tail c) (fourth : Utf8.Tail d)
    (least : a.toNat = 0xF0 → 0x90 ≤ b.toNat) (most : a.toNat = 0xF4 → b.toNat ≤ 0x8F) :
    Encoded [a, b, c, d] := by
  obtain ⟨lower, upper⟩ := second
  obtain ⟨ch, value, encoded⟩ := Utf8.encode_four first ⟨lower, upper⟩ third fourth (by omega)
    (by omega)
  exact ⟨ch, by omega, encoded.symm⟩

section
variable {x lo hi : UInt8} {parts : List (List UInt8)}

theorem lead_range_tail (shipped : SafeShipped env)
    (pieces : List.Forall₂ (fun e u => u ∈ words env e)
      [.bytes [x], .range [lo] [hi], .rule (cstr "UTF0")] parts) :
    ∃ b c, (lo.toNat ≤ b.toNat ∧ b.toNat ≤ hi.toNat) ∧ Utf8.Tail c ∧
      parts.flatten = [x, b, c] := by
  obtain _ | ⟨first, _ | ⟨second, _ | ⟨third, ⟨⟩⟩⟩⟩ := pieces
  obtain rfl := Abnf.language_bytes.mp first
  obtain ⟨b, bounds, rfl⟩ := mem_octetRange.mp second
  obtain ⟨c, tail, rfl⟩ := (mem_tail shipped _).mp third
  exact ⟨b, c, bounds, tail, rfl⟩

theorem lead_range_tails (shipped : SafeShipped env)
    (pieces : List.Forall₂ (fun e u => u ∈ words env e)
      [.bytes [x], .range [lo] [hi], .repetition 2 (some 2) (.rule (cstr "UTF0"))] parts) :
    ∃ b c d, (lo.toNat ≤ b.toNat ∧ b.toNat ≤ hi.toNat) ∧ Utf8.Tail c ∧ Utf8.Tail d ∧
      parts.flatten = [x, b, c, d] := by
  obtain _ | ⟨first, _ | ⟨second, _ | ⟨third, ⟨⟩⟩⟩⟩ := pieces
  obtain rfl := Abnf.language_bytes.mp first
  obtain ⟨b, bounds, rfl⟩ := mem_octetRange.mp second
  obtain ⟨c, d, tail, last, rfl⟩ := mem_two_tails shipped third
  exact ⟨b, c, d, bounds, tail, last, rfl⟩

theorem range_tails (shipped : SafeShipped env)
    (pieces : List.Forall₂ (fun e u => u ∈ words env e)
      [.range [lo] [hi], .repetition 2 (some 2) (.rule (cstr "UTF0"))] parts) :
    ∃ a b c, (lo.toNat ≤ a.toNat ∧ a.toNat ≤ hi.toNat) ∧ Utf8.Tail b ∧ Utf8.Tail c ∧
      parts.flatten = [a, b, c] := by
  obtain _ | ⟨first, _ | ⟨second, ⟨⟩⟩⟩ := pieces
  obtain ⟨a, bounds, rfl⟩ := mem_octetRange.mp first
  obtain ⟨b, c, tail, last, rfl⟩ := mem_two_tails shipped second
  exact ⟨a, b, c, bounds, tail, last, rfl⟩

end

theorem encoded_utf3 (shipped : SafeShipped env) (word : w ∈ words env (.rule (cstr "UTF3"))) :
    Encoded w := by
  obtain ⟨alt, member, parts, pieces, rfl⟩ :=
    (shipped.mem_words utf3 (by simp [safeGrammar])).mp word
  simp only [utf3, List.mem_cons, List.not_mem_nil, or_false] at member
  rcases member with rfl | rfl | rfl | rfl
  · obtain ⟨b, c, ⟨lower, upper⟩, tail, octets⟩ := lead_range_tail shipped pieces
    have least : 0xA0 ≤ b.toNat := lower
    rw [octets]
    exact encoded_three (by decide) ⟨by omega, upper⟩ tail (fun _ => lower)
      (fun same => absurd same (by decide))
  · obtain ⟨a, b, c, ⟨lower, upper⟩, tail, last, octets⟩ := range_tails shipped pieces
    have least : 0xE1 ≤ a.toNat := lower
    have most : a.toNat ≤ 0xEC := upper
    rw [octets]
    exact encoded_three ⟨by omega, by omega⟩ tail last (by omega) (by omega)
  · obtain ⟨b, c, ⟨lower, upper⟩, tail, octets⟩ := lead_range_tail shipped pieces
    have most : b.toNat ≤ 0x9F := upper
    rw [octets]
    exact encoded_three (by decide) ⟨lower, by omega⟩ tail
      (fun same => absurd same (by decide)) (fun _ => upper)
  · obtain ⟨a, b, c, ⟨lower, upper⟩, tail, last, octets⟩ := range_tails shipped pieces
    have least : 0xEE ≤ a.toNat := lower
    rw [octets]
    exact encoded_three ⟨by omega, upper⟩ tail last (by omega) (by omega)

theorem encoded_utf4 (shipped : SafeShipped env) (word : w ∈ words env (.rule (cstr "UTF4"))) :
    Encoded w := by
  obtain ⟨alt, member, parts, pieces, rfl⟩ :=
    (shipped.mem_words utf4 (by simp [safeGrammar])).mp word
  simp only [utf4, List.mem_cons, List.not_mem_nil, or_false] at member
  rcases member with rfl | rfl | rfl
  · obtain ⟨b, c, d, ⟨lower, upper⟩, tail, last, octets⟩ := lead_range_tails shipped pieces
    have least : 0x90 ≤ b.toNat := lower
    rw [octets]
    exact encoded_four (by decide) ⟨by omega, upper⟩ tail last (fun _ => lower)
      (fun same => absurd same (by decide))
  · obtain _ | ⟨first, _ | ⟨second, ⟨⟩⟩⟩ := pieces
    obtain ⟨a, ⟨lower, upper⟩, rfl⟩ := mem_octetRange.mp first
    obtain ⟨b, c, d, tail, third, last, rfl⟩ := mem_three_tails shipped second
    have least : 0xF1 ≤ a.toNat := lower
    have most : a.toNat ≤ 0xF3 := upper
    exact encoded_four ⟨by omega, by omega⟩ tail third last (by omega) (by omega)
  · obtain ⟨b, c, d, ⟨lower, upper⟩, tail, last, octets⟩ := lead_range_tails shipped pieces
    have most : b.toNat ≤ 0x8F := upper
    rw [octets]
    exact encoded_four (by decide) ⟨lower, by omega⟩ tail last
      (fun same => absurd same (by decide)) (fun _ => upper)

theorem encoded_safe (shipped : SafeShipped env) (word : w ∈ words env (.rule (cstr "SAFE"))) :
    Encoded w := by
  obtain ⟨alt, member, parts, pieces, rfl⟩ :=
    (shipped.mem_words safe (by simp [safeGrammar])).mp word
  simp only [safe, List.mem_cons, List.not_mem_nil, or_false] at member
  rcases member with rfl | rfl | rfl | rfl <;>
    · obtain _ | ⟨first, ⟨⟩⟩ := pieces
      rw [List.flatten_cons, List.flatten_nil, List.append_nil]
      first
        | exact encoded_utf1 shipped first
        | exact encoded_utf2 shipped first
        | exact encoded_utf3 shipped first
        | exact encoded_utf4 shipped first

theorem encoded_flatten {chars : List (List UInt8)} (each : ∀ u ∈ chars, Encoded u) :
    Utf8.WellFormed chars.flatten ∧ 0 ∉ chars.flatten := by
  induction chars with
  | nil => exact ⟨Utf8.wellFormed_nil, by simp⟩
  | cons u chars ih =>
    obtain ⟨⟨ch, other, rfl⟩, others⟩ := List.forall_mem_cons.mp each
    obtain ⟨formed, clear⟩ := ih others
    rw [List.flatten_cons, List.mem_append, not_or]
    exact ⟨(Utf8.wellFormed_char ch).append formed, Utf8.zero_not_mem other, clear⟩

/-- Well-formed UTF-8 that is not empty and has no NUL. -/
structure SafeText (w : List UInt8) : Prop where
  nonempty : w ≠ []
  wellFormed : Utf8.WellFormed w
  clear : 0 ∉ w

theorem safeText_sasl (shipped : SafeShipped env) {rule : CString} (member : rule ∈ saslRules)
    (word : w ∈ words env (.rule rule)) : SafeText w := by
  have listed : (rule, sasl) ∈ safeGrammar :=
    List.mem_append_left _ (List.mem_map.mpr ⟨rule, member, rfl⟩)
  obtain ⟨alt, inside, parts, pieces, rfl⟩ := (shipped.mem_words sasl listed).mp word
  obtain rfl := List.mem_singleton.mp inside
  obtain _ | ⟨first, ⟨⟩⟩ := pieces
  obtain ⟨q, ⟨least, -⟩, repeated⟩ := Abnf.language_repetition.mp first
  obtain ⟨chars, each, rfl⟩ := Abnf.derives_flatten.mp repeated
  have encoded : ∀ u ∈ chars, Encoded u := by
    intro u inside
    obtain ⟨e, repeats, known⟩ := forall₂_mem_left each.flip inside
    rw [List.eq_of_mem_replicate repeats] at known
    exact encoded_safe shipped known
  obtain ⟨formed, clear⟩ := encoded_flatten encoded
  have count := each.length_eq
  rw [List.length_replicate] at count
  obtain ⟨u, others, rfl⟩ : ∃ u others, chars = u :: others :=
    List.exists_cons_of_length_pos (by omega)
  obtain ⟨ch, -, rfl⟩ := encoded u List.mem_cons_self
  rw [List.flatten_cons, List.flatten_nil, List.append_nil]
  exact ⟨by simp [String.utf8EncodeChar_ne_nil], formed, clear⟩

/-- The SASL rules are decoded on every stream, and each result is a safe text. -/
theorem sasl_safeText (shipped : SafeShipped env) {rule : CString} (member : rule ∈ saslRules)
    (draws : RandStream) :
    (∃ enough, ∀ fuel ≥ enough, ∃ d rest, (decodeRule fuel rule env).run draws = .ok (d, rest)) ∧
      ∀ fuel d rest, (decodeRule fuel rule env).run draws = .ok (d, rest) →
        SafeText d.bytes ∧ d.length = d.bytes.length := by
  have listed : (rule, sasl) ∈ safeGrammar :=
    List.mem_append_left _ (List.mem_map.mpr ⟨rule, member, rfl⟩)
  constructor
  · obtain ⟨enough, total⟩ := returning_ordered safeGrammar_ordered shipped.read _ listed
    refine ⟨enough, fun fuel le => ?_⟩
    obtain ⟨⟨d, rest⟩, returned⟩ := Sampler.total_iff_run.mp (total fuel le) draws
    exact ⟨d, rest, returned⟩
  · intro fuel d rest returned
    have plain := shipped.plainFrom (List.mem_map_of_mem listed)
    obtain ⟨word, length⟩ := decodeRule_sound plain fuel draws rest d returned
    exact ⟨safeText_sasl shipped member word, length⟩

end

theorem sasl_safeText_authcid :
    (∃ enough, ∀ fuel ≥ enough, ∃ d rest, (decodeRule fuel (cstr "authcid")
      shippedConnectionEnv).run (Stream'.const 0) = .ok (d, rest)) ∧
      ∀ fuel d rest, (decodeRule fuel (cstr "authcid") shippedConnectionEnv).run
        (Stream'.const 0) = .ok (d, rest) → SafeText d.bytes ∧ d.length = d.bytes.length :=
  sasl_safeText (fun _ _ => rfl) List.mem_cons_self (Stream'.const 0)

end Amqpgram
