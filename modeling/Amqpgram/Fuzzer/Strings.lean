import Amqpgram.Fuzzer.Readers
import Amqpgram.Fuzzer.Connection
import Amqpgram.Grammar.Entries
import Amqpgram.Grammar.Fuel
import Amqpgram.Grammar.Ranges
import Amqpgram.Grammar.Soundness

/-! The string generators of Connection.c. What they write is a length and as many
octets; what the rules of grammar-spec allow in their place is a question of which
octets these are. -/
namespace Amqpgram

/-- The octets of the length in front of a string. -/
def GenFunction.width : GenFunction → Nat
  | .shortstringGenerator => 1
  | .longstringGenerator => 4

/-- `src[index]` or `char_in_int(src, index)`. -/
def GenFunction.readLength (f : GenFunction) (src : Memory) (index : Nat) : Except Fault Int :=
  match f with
  | .shortstringGenerator => do
    let b ← readByte src index
    pure b.toNat
  | .longstringGenerator => charInInt src index

/-- The string at an index and the index behind it. -/
def GenFunction.readString (f : GenFunction) (src : Memory) (index : Nat) :
    Except Fault (List UInt8 × Nat) := do
  let length ← f.readLength src index
  let content ← readBytes src (index + f.width) length.toNat
  pure (content, index + f.width + length.toNat)

/-- `decode_rule("OCTET", ...)` returns on every stream, with an octet to take. -/
def OctetDecodes (env : Environment) : Prop :=
  ∀ draws, ∃ fuel d rest, (decodeRule fuel (cstr "OCTET") env).run draws = .ok (d, rest) ∧
    d.bytes ≠ []

/-- The generator called from a rule of the environment. -/
def GenFunction.generate (f : GenFunction) (fuel : Nat) (env : Environment) : Gen Decoded :=
  f.call fun name => decodeRule fuel name env

/-- The output is a length and as many octets, all of it is reported, a rule that mentions
the generator gets all of it, and the reader is behind it after reading the string. -/
structure LengthPrefixed (f : GenFunction) (out : Decoded) : Prop where
  bytes : ∃ content, out.bytes = Words.bytes f.width content.length ++ content ∧
    content.length < 16 ∧ ∀ pre post,
      f.readString (bufferMemory (pre ++ out.bytes ++ post)) pre.length =
        .ok (content, (pre ++ out.bytes).length)
  reported : out.length = out.bytes.length
  spliced : ∀ before : Decoded, before.append out =
    .ok ⟨before.bytes ++ out.bytes, before.length + out.bytes.length⟩

theorem decodeRule_function {env : Environment} {rule : CString} {f : GenFunction}
    (bound : environmentLookup env rule = some (.function f)) (fuel : Nat) :
    decodeRule (fuel + 1) rule env = f.generate fuel env := by
  rw [decodeRule_entry, bound]
  rfl

/-! ### The shipped OCTET -/

/-- OCTET as in grammar-abnf. -/
def OctetShipped (env : Environment) : Prop :=
  environmentLookup env (cstr "OCTET") = some (.string (cstr "%x00-FF"))

def drawnOctet (d : Draw) : UInt8 := UInt8.ofNat (d.val % 255)

section Shipped
variable {env : Environment}

theorem decodeRule_octet (shipped : OctetShipped env) (fuel : Nat) (draws : RandStream) :
    (decodeRule (fuel + 3) (cstr "OCTET") env).run draws =
      .ok (.of [drawnOctet draws.head], draws.tail) := by
  have range := run_decodeTerminalRange .x (dotted_single (v := 0) numeral_zero)
    (dotted_single (v := 255) numeral_last) rfl (by decide) (by decide) draws
  have terminal : decodeTerminal (cstr "%x00-FF") = decodeTerminalRange (cstr "%x00-FF") := rfl
  rw [decodeRule_entry, shipped, decodeEntry,
    parseElements_terminal (by decide) (by decide), terminal]
  refine range.trans ?_
  simp [keptWidth, drawnOctet, Decoded.of]

theorem octetDecodes_shipped (shipped : OctetShipped env) : OctetDecodes env :=
  fun draws => ⟨3, _, _, decodeRule_octet shipped 0 draws, by simp [Decoded.of]⟩

end Shipped

theorem octetShipped_connection : OctetShipped shippedConnectionEnv := by
  unfold OctetShipped
  decide +kernel

/-! ### What a generator draws -/

section Draws
variable {env : Environment} {f : GenFunction}

/-- The number of octets that the first draw asks for. -/
def drawnLength (draws : RandStream) : Nat := draws.head.val % 16

def GenFunction.output (f : GenFunction) (content : List UInt8) : Decoded :=
  .of (Words.bytes f.width content.length ++ content)

theorem run_generate (f : GenFunction) (fuel : Nat) (env : Environment) (draws : RandStream) :
    (f.generate fuel env).run draws =
      ((octets (fun name => decodeRule fuel name env) (drawnLength draws)).run draws.tail).map
        fun p => (f.output p.1, p.2) := by
  have first := run_randMod (show ruleRepetitionInfty ≠ 0 by decide) draws
  have small : drawnLength draws < 16 := Nat.mod_lt _ (by decide)
  have remainder : (Int.tmod draws.head.val ruleRepetitionInfty).toNat = drawnLength draws := by
    change (Int.tmod (draws.head.val : Nat) (16 : Nat)).toNat = _
    rw [← Int.ofNat_tmod, Int.toNat_natCast, drawnLength]
  have octet : drawnLength draws % 256 = drawnLength draws := Nat.mod_eq_of_lt (by omega)
  have field : intInChar (List.replicate 4 0) (drawnLength draws) 0 4 =
      Words.bytes 4 (drawnLength draws) := by
    rw [intInChar, inChar_whole 4 _ _ rfl, wrapUnsigned]
    congr 1
    omega
  cases drawn : (octets (fun name => decodeRule fuel name env) (drawnLength draws)).run
      draws.tail with
  | error fault =>
    cases f with
    | shortstringGenerator =>
      rw [GenFunction.generate, GenFunction.call, shortstringGenerator,
        Sampler.run_bind_of_run first, remainder, octet, Sampler.run_bind, drawn]
      rfl
    | longstringGenerator =>
      rw [GenFunction.generate, GenFunction.call, longstringGenerator,
        Sampler.run_bind_of_run first, remainder, Sampler.run_bind, drawn]
      rfl
  | ok p =>
    have length : p.1.length = drawnLength draws := exact_octets _ (Sampler.yields_of_run drawn)
    cases f with
    | shortstringGenerator =>
      rw [GenFunction.generate, GenFunction.call, shortstringGenerator,
        Sampler.run_bind_of_run first, remainder, octet, Sampler.run_bind_of_run drawn]
      simp [Sampler.run, Except.map, GenFunction.output, GenFunction.width, Decoded.of, length,
        Words.bytes]
    | longstringGenerator =>
      rw [GenFunction.generate, GenFunction.call, longstringGenerator,
        Sampler.run_bind_of_run first, remainder, Sampler.run_bind_of_run drawn, field]
      simp [Sampler.run, Except.map, GenFunction.output, GenFunction.width, Decoded.of, length]

theorem readString_output {content : List UInt8} (small : content.length < 16)
    (pre post : List UInt8) :
    f.readString (bufferMemory (pre ++ (f.output content).bytes ++ post)) pre.length =
      .ok (content, (pre ++ (f.output content).bytes).length) := by
  have field : f.readLength (bufferMemory (pre ++ (f.output content).bytes ++ post)) pre.length =
      .ok content.length := by
    cases f with
    | shortstringGenerator =>
      have octet : (UInt8.ofNat content.length).toNat = content.length := by
        simp only [UInt8.toNat_ofNat']
        omega
      have first := readByte_window pre (UInt8.ofNat content.length) (content ++ post)
      have shape : pre ++ (GenFunction.shortstringGenerator.output content).bytes ++ post =
          pre ++ UInt8.ofNat content.length :: (content ++ post) := by
        simp [GenFunction.output, GenFunction.width, Decoded.of]
      rw [shape, GenFunction.readLength, first, ok_bind, octet]
      rfl
    | longstringGenerator =>
      have window := charInInt_window pre (content ++ post) (Words.length_bytes 4 content.length)
      have value : Words.value (Words.bytes 4 content.length) = content.length :=
        Words.value_bytes_of_lt (by norm_num; omega)
      rw [value, intField_small (by omega)] at window
      simpa [GenFunction.readLength, GenFunction.output, GenFunction.width, Decoded.of] using window
  have window := readBytes_window (pre ++ Words.bytes f.width content.length) content post
  rw [List.length_append, Words.length_bytes] at window
  have shape : pre ++ (f.output content).bytes ++ post =
      pre ++ Words.bytes f.width content.length ++ content ++ post := by
    simp [GenFunction.output, Decoded.of]
  have behind : (pre ++ (f.output content).bytes).length =
      pre.length + f.width + content.length := by
    simp [GenFunction.output, Decoded.of, Nat.add_assoc]
  rw [GenFunction.readString, field, ok_bind, Int.toNat_natCast, shape, window, ok_bind, behind]
  rfl

theorem lengthPrefixed_output {content : List UInt8} (small : content.length < 16) :
    LengthPrefixed f (f.output content) where
  bytes := ⟨content, rfl, small, readString_output small⟩
  reported := rfl
  spliced before := by
    have inside : (f.output content).length ≤ (f.output content).bytes.length := Nat.le_refl _
    rw [Decoded.append, if_pos inside]
    simp [GenFunction.output, Decoded.of]

theorem octets_run (decodes : OctetDecodes env) (n : Nat) (draws : RandStream) :
    ∃ fuel result, (octets (fun name => decodeRule fuel name env) n).run draws = .ok result := by
  induction n generalizing draws with
  | zero => exact ⟨0, _, rfl⟩
  | succ n ih =>
    obtain ⟨less, d, between, first, nonempty⟩ := decodes draws
    obtain ⟨more, ⟨content, rest⟩, others⟩ := ih between
    obtain ⟨b, bs, bytes⟩ := List.exists_cons_of_ne_nil nonempty
    refine ⟨max less more, (b :: content, rest), ?_⟩
    have decoded := (decodeRule_extends (le_max_left less more) _).run first
    have one : (octet fun name => decodeRule (max less more) name env).run draws =
        .ok (b, between) := by
      rw [octet, Sampler.run_bind_of_run decoded, bytes]
      rfl
    have tail := (octets_extends
      (fun name => decodeRule_extends (le_max_right less more) name) n).run others
    rw [octets, Sampler.run_bind_of_run one, Sampler.run_bind_of_run tail]
    rfl

end Draws

/-- Each generator returns on every stream, what it returns is length-prefixed, and a rule
bound to it is decoded to what it returns. -/
theorem generate_lengthPrefixed (f : GenFunction) {env : Environment} (decodes : OctetDecodes env)
    (draws : RandStream) :
    (∃ fuel result, (f.generate fuel env).run draws = .ok result) ∧
      (∀ fuel out rest, (f.generate fuel env).run draws = .ok (out, rest) →
        LengthPrefixed f out) ∧
      ∀ rule, environmentLookup env rule = some (.function f) →
        ∀ fuel, decodeRule (fuel + 1) rule env = f.generate fuel env := by
  refine ⟨?_, ?_, fun rule bound fuel => decodeRule_function bound fuel⟩
  · obtain ⟨fuel, result, drawn⟩ := octets_run decodes (drawnLength draws) draws.tail
    exact ⟨fuel, (f.output result.1, result.2), by rw [run_generate, drawn]; rfl⟩
  · intro fuel out rest returned
    rw [run_generate] at returned
    cases drawn : (octets (fun name => decodeRule fuel name env) (drawnLength draws)).run
        draws.tail with
    | error fault =>
      rw [drawn] at returned
      cases returned
    | ok p =>
      rw [drawn] at returned
      obtain ⟨rfl, rfl⟩ := Prod.mk.inj (Except.ok.inj returned)
      have length := exact_octets _ (Sampler.yields_of_run drawn)
      have small : drawnLength draws < 16 := Nat.mod_lt _ (by decide)
      exact lengthPrefixed_output (by omega)

theorem generate_lengthPrefixed_shipped :
    (∃ fuel result, (GenFunction.longstringGenerator.generate fuel shippedConnectionEnv).run
        (Stream'.const 65) = .ok result) ∧
      (∀ fuel out rest, (GenFunction.longstringGenerator.generate fuel shippedConnectionEnv).run
        (Stream'.const 65) = .ok (out, rest) → LengthPrefixed .longstringGenerator out) ∧
      ∀ rule, environmentLookup shippedConnectionEnv rule =
          some (.function .longstringGenerator) →
        ∀ fuel, decodeRule (fuel + 1) rule shippedConnectionEnv =
          GenFunction.longstringGenerator.generate fuel shippedConnectionEnv :=
  generate_lengthPrefixed .longstringGenerator (octetDecodes_shipped octetShipped_connection)
    (Stream'.const 65)

/-! ### The rules that the generators replace -/

def GenFunction.rule : GenFunction → CString
  | .shortstringGenerator => cstr "short-string"
  | .longstringGenerator => cstr "long-string"

/-- The ABNF language that grammar-spec gives the rule which the generator replaces. -/
def GenFunction.specLanguage (f : GenFunction) : Language UInt8 :=
  Abnf.language Abnf.full (rulesOf shippedProtocolEnv) (.rule f.rule)

section Languages
variable {w : List UInt8}

theorem language_octetRule : w ∈ Abnf.language Abnf.full (rulesOf shippedProtocolEnv)
    (.rule (cstr "OCTET")) ↔ ∃ b, True ∧ w = [b] := by
  have read : readRule shippedProtocolEnv (cstr "OCTET") = some [[.range [0] [255]]] := by
    decide +kernel
  rw [Abnf.language_only (rulesOf_iff read)]
  simp only [List.mem_singleton, exists_eq_left, ← Abnf.mem_language, Abnf.language_octetRange]
  have all : ∀ b : UInt8, 0 ≤ b ∧ b ≤ 255 := fun b => ⟨Nat.zero_le _, Nat.le_of_lt_succ b.toNat_lt⟩
  simp only [all, and_self]

theorem language_stringChar : w ∈ Abnf.language Abnf.full (rulesOf shippedProtocolEnv)
    (.rule (cstr "string-char")) ↔ ∃ b, b ≠ 0 ∧ w = [b] := by
  have read : readRule shippedProtocolEnv (cstr "string-char") = some [[.range [1] [255]]] := by
    decide +kernel
  rw [Abnf.language_only (rulesOf_iff read)]
  simp only [List.mem_singleton, exists_eq_left, ← Abnf.mem_language, Abnf.language_octetRange]
  have all : ∀ b : UInt8, 1 ≤ b ∧ b ≤ 255 ↔ b ≠ 0 := by
    intro b
    have upper : b ≤ 255 := Nat.le_of_lt_succ b.toNat_lt
    have lower : 1 ≤ b ↔ 1 ≤ b.toNat := UInt8.le_iff_toNat_le
    have zero : b = 0 ↔ b.toNat = 0 := UInt8.toNat_inj.symm
    simp only [upper, and_true, lower, ne_eq, zero]
    omega
  simp only [all]

theorem language_longUint : w ∈ Abnf.language Abnf.full (rulesOf shippedProtocolEnv)
    (.rule (cstr "long-uint")) ↔ w.length = 4 := by
  have read : readRule shippedProtocolEnv (cstr "long-uint") =
      some [[.repetition 4 (some 4) (.rule (cstr "OCTET"))]] := by decide +kernel
  have count : ∀ q, q ∈ Abnf.full.count 4 (some 4) ↔ q = 4 := by
    intro q
    simp [Abnf.full]
    omega
  rw [Abnf.language_only (rulesOf_iff read)]
  simp only [List.mem_singleton, exists_eq_left, ← Abnf.mem_language, Abnf.language_repetition,
    count, Abnf.derives_replicate_octets fun u => language_octetRule]
  simp

theorem derives_word_octets {first second : Abnf.Element CString} {P : UInt8 → Prop}
    (octets : ∀ u, u ∈ Abnf.language Abnf.full (rulesOf shippedProtocolEnv) second ↔
      ∃ b, P b ∧ u = [b]) :
    Abnf.Derives Abnf.full (rulesOf shippedProtocolEnv) [first, .repetition 0 none second] w ↔
      ∃ u v, w = u ++ v ∧ u ∈ Abnf.language Abnf.full (rulesOf shippedProtocolEnv) first ∧
        ∀ b ∈ v, P b := by
  have any : ∀ q, q ∈ Abnf.full.count 0 none := by simp [Abnf.full]
  rw [Abnf.derives_cons]
  simp only [← Abnf.mem_language, Abnf.language_repetition, any, true_and,
    Abnf.derives_replicate_octets octets, exists_and_right, exists_eq']

theorem mem_shortString : w ∈ GenFunction.shortstringGenerator.specLanguage ↔
    ∃ b content, w = b :: content ∧ 0 ∉ content := by
  have read : readRule shippedProtocolEnv (cstr "short-string") =
      some [[.rule (cstr "OCTET"), .repetition 0 none (.rule (cstr "string-char"))]] := by
    decide +kernel
  rw [GenFunction.specLanguage, GenFunction.rule, Abnf.language_only (rulesOf_iff read)]
  simp only [List.mem_singleton, exists_eq_left,
    derives_word_octets fun u => language_stringChar, language_octetRule, true_and]
  constructor
  · rintro ⟨u, v, rfl, ⟨b, rfl⟩, clear⟩
    exact ⟨b, v, rfl, fun zero => clear 0 zero rfl⟩
  · rintro ⟨b, v, rfl, clear⟩
    exact ⟨[b], v, rfl, ⟨b, rfl⟩, fun c member zero => clear (zero ▸ member)⟩

theorem mem_longString : w ∈ GenFunction.longstringGenerator.specLanguage ↔ 4 ≤ w.length := by
  have read : readRule shippedProtocolEnv (cstr "long-string") =
      some [[.rule (cstr "long-uint"), .repetition 0 none (.rule (cstr "OCTET"))]] := by
    decide +kernel
  rw [GenFunction.specLanguage, GenFunction.rule, Abnf.language_only (rulesOf_iff read)]
  simp only [List.mem_singleton, exists_eq_left,
    derives_word_octets fun u => language_octetRule, language_longUint]
  constructor
  · rintro ⟨u, v, rfl, four, -⟩
    simp [four]
  · intro long
    exact ⟨w.take 4, w.drop 4, by simp, by simpa using long, by simp⟩

end Languages

/-- The generator returns on the stream, with a word of the rule that it replaces. -/
def RefinesRule (f : GenFunction) (env : Environment) (draws : RandStream) : Prop :=
  ∃ fuel out rest, (f.generate fuel env).run draws = .ok (out, rest) ∧
    out.bytes ∈ f.specLanguage

theorem generate_unique {f : GenFunction} {env : Environment} {draws : RandStream}
    {less more : Nat} {p q : Decoded × RandStream}
    (first : (f.generate less env).run draws = .ok p)
    (second : (f.generate more env).run draws = .ok q) : p = q := by
  have lift : ∀ fuel ≤ max less more, Extends (f.generate fuel env)
      (f.generate (max less more) env) :=
    fun fuel le => call_extends (fun name => decodeRule_extends le name) f
  have both := (lift less (le_max_left ..)).run first
  exact Except.ok.inj (both.symm.trans ((lift more (le_max_right ..)).run second))

/-- The content that a generator draws where OCTET is the shipped one. -/
def drawnContent (draws : RandStream) : List UInt8 :=
  (draws.tail.take (drawnLength draws)).map drawnOctet

theorem octets_shipped {env : Environment} (shipped : OctetShipped env) (n : Nat)
    (draws : RandStream) :
    (octets (fun name => decodeRule 3 name env) n).run draws =
      .ok ((draws.take n).map drawnOctet, draws.drop n) := by
  induction n generalizing draws with
  | zero => rfl
  | succ n ih =>
    have one : (octet fun name => decodeRule 3 name env).run draws =
        .ok (drawnOctet draws.head, draws.tail) := by
      rw [octet, Sampler.run_bind_of_run (decodeRule_octet shipped 0 draws)]
      rfl
    rw [octets, Sampler.run_bind_of_run one, Sampler.run_bind_of_run (ih draws.tail)]
    rfl

theorem generate_shipped (f : GenFunction) {env : Environment} (shipped : OctetShipped env)
    (draws : RandStream) : (f.generate 3 env).run draws =
      .ok (f.output (drawnContent draws), draws.tail.drop (drawnLength draws)) := by
  rw [run_generate, octets_shipped shipped]
  rfl

theorem refines_iff_output (f : GenFunction) {env : Environment} (shipped : OctetShipped env)
    (draws : RandStream) : RefinesRule f env draws ↔
      (f.output (drawnContent draws)).bytes ∈ f.specLanguage := by
  constructor
  · rintro ⟨fuel, out, rest, returned, word⟩
    obtain ⟨rfl, -⟩ := Prod.mk.inj (generate_unique returned (generate_shipped f shipped draws))
    exact word
  · intro word
    exact ⟨3, _, _, generate_shipped f shipped draws, word⟩

theorem drawnOctet_eq_zero (d : Draw) : drawnOctet d = 0 ↔ d.val % 255 = 0 := by
  have small := Nat.mod_lt d.val (show 0 < 255 by decide)
  have value : (drawnOctet d).toNat = d.val % 255 := by
    simp only [drawnOctet, UInt8.toNat_ofNat']
    omega
  rw [← value]
  exact UInt8.toNat_inj.symm

theorem clear_iff_draws (n : Nat) (draws : RandStream) : 0 ∉ (draws.take n).map drawnOctet ↔
    ∀ i < n, (draws.get i).val % 255 ≠ 0 := by
  induction n generalizing draws with
  | zero => simp
  | succ n ih =>
    have first : 0 ≠ drawnOctet draws.head ↔ (draws.get 0).val % 255 ≠ 0 :=
      ne_comm.trans (drawnOctet_eq_zero _).not
    rw [Stream'.take_succ, List.map_cons, List.mem_cons, not_or, ih, ← ne_eq, first,
      Nat.forall_lt_succ_left]
    rfl

/-- The words of a long string are all there are of four octets or more; those of a short
string have no NUL behind the first octet, and the generator draws it like any other. -/
theorem refines_iff (f : GenFunction) {env : Environment} (shipped : OctetShipped env)
    (draws : RandStream) : RefinesRule f env draws ↔ (f = .shortstringGenerator →
      ∀ i < draws.head.val % 16, (draws.get (i + 1)).val % 255 ≠ 0) := by
  rw [refines_iff_output f shipped]
  cases f with
  | shortstringGenerator =>
    have bytes : (GenFunction.shortstringGenerator.output (drawnContent draws)).bytes =
        UInt8.ofNat (drawnContent draws).length :: drawnContent draws := by
      simp [GenFunction.output, GenFunction.width, Decoded.of]
    have clear := clear_iff_draws (drawnLength draws) draws.tail
    rw [mem_shortString, bytes]
    constructor
    · rintro ⟨b, content, same, apart⟩ -
      obtain ⟨-, rfl⟩ := List.cons.inj same
      exact clear.mp apart
    · intro apart
      exact ⟨_, _, rfl, clear.mpr (apart rfl)⟩
  | longstringGenerator =>
    have long : 4 ≤ (GenFunction.longstringGenerator.output (drawnContent draws)).bytes.length := by
      simp [GenFunction.output, GenFunction.width, Decoded.of]
    constructor
    · intro _ short
      cases short
    · intro _
      exact mem_longString.mpr long

theorem refines_iff_ones :
    RefinesRule .shortstringGenerator shippedConnectionEnv (Stream'.const 1) :=
  (refines_iff .shortstringGenerator octetShipped_connection (Stream'.const 1)).mpr
    fun _ => by decide

/-- The second draw is the NUL that string-char leaves out. -/
theorem short_string_nul :
    ((GenFunction.shortstringGenerator.generate 3 shippedConnectionEnv).run
      (Stream'.cons 1 (Stream'.const 0))).map Prod.fst = .ok ⟨[1, 0], 2⟩ ∧
    ¬ RefinesRule .shortstringGenerator shippedConnectionEnv
      (Stream'.cons 1 (Stream'.const 0)) := by
  refine ⟨by decide +kernel, ?_⟩
  rw [refines_iff_output _ octetShipped_connection, mem_shortString]
  rintro ⟨b, content, same, clear⟩
  obtain ⟨-, rfl⟩ := List.cons.inj same
  exact clear (by decide)

end Amqpgram
