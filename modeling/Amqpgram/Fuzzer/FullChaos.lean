import Amqpgram.Fuzzer.Levels
import Amqpgram.Grammar.Completeness

/-! RULE_CHAOS = 4: no rule is put over any other, so a generator only decodes what the
files say of a method frame. The five generators cannot be told apart by what they send. -/
namespace Amqpgram
open Abnf (Element Body Derives)

/-- What the generators decode their method in. -/
def chaosEnv : Environment := newEnvironment createGrammar (connectionEnvAt 4)

/-- Any octets but those that the upper end of a range keeps out. -/
def sizeWords : Language UInt8 := {w | w.length = 4 ∧ ∀ b ∈ w, b ≠ 0xFF}

def methodIdWords : Language UInt8 := {w | w.length = 2 ∧ w ≠ [0, 0] ∧ w ≠ [0xFF, 0xFF]}

/-- The method frames of the files; there are no arguments. -/
def fullChaosFrame : Language UInt8 :=
  {w | ∃ size ∈ sizeWords, ∃ methodId ∈ methodIdWords,
    w = [1, 0, 0] ++ size ++ [0, 10] ++ methodId ++ [0xCE]}

/-! ### The rule `method` -/

section
variable {w : List UInt8} {n : CString} {es : List (Element CString)}

def chaosLanguage (n : CString) : Language UInt8 :=
  Abnf.language sampled (expansions chaosEnv) (.rule n)

theorem chaosLanguage_single (expansion : expansionOf chaosEnv n = some [es]) :
    w ∈ chaosLanguage n ↔ Derives sampled (expansions chaosEnv) es w := by
  have rule := expansionOf_expansions expansion
  have only : ∀ bodies, expansions chaosEnv n bodies ↔ bodies = [es] := by
    intro bodies
    constructor
    · exact fun other => expansions_unique other rule
    · rintro rfl
      exact rule
  rw [chaosLanguage, Abnf.language_only only]
  simp

theorem chaosLanguage_octet (u : List UInt8) :
    u ∈ chaosLanguage (cstr "OCTET") ↔ ∃ b : UInt8, b ≠ 0xFF ∧ u = [b] := by
  have expansion : expansionOf chaosEnv (cstr "OCTET") = some [[.range [0] [0xFF]]] := by
    decide +kernel
  rw [chaosLanguage_single expansion, ← Abnf.mem_language, Abnf.language_range,
    mem_sampled_range (by decide +kernel)]
  constructor
  · rintro ⟨⟨length, _⟩, apart⟩
    obtain ⟨b, rfl⟩ := List.length_eq_one_iff.mp length
    exact ⟨b, by simpa using apart, rfl⟩
  · rintro ⟨b, apart, rfl⟩
    have below := b.toNat_lt
    refine ⟨⟨rfl, Nat.zero_le _, ?_⟩, by simpa using apart⟩
    have top : (0xFF : UInt8).toNat = 255 := rfl
    rw [Abnf.value_octet, Abnf.value_octet]
    omega

theorem chaosLanguage_size : w ∈ chaosLanguage (cstr "payload-size") ↔ w ∈ sizeWords := by
  have size : expansionOf chaosEnv (cstr "payload-size") = some [[.rule (cstr "long-uint")]] := by
    decide +kernel
  have long : expansionOf chaosEnv (cstr "long-uint") =
      some [[.repetition 4 (some 4) (.rule (cstr "OCTET"))]] := by decide +kernel
  have four : ∀ q, q ∈ sampled.count 4 (some 4) ↔ q = 4 := by
    intro q
    constructor
    · exact sampled_measured.count 4 q
    · rintro rfl
      exact ⟨by decide, by decide, by decide, le_rfl, by decide, by decide⟩
  rw [chaosLanguage_single size]
  change w ∈ chaosLanguage (cstr "long-uint") ↔ _
  rw [chaosLanguage_single long, ← Abnf.mem_language, Abnf.language_repetition]
  simp only [four, exists_eq_left, Abnf.derives_replicate_octets chaosLanguage_octet]
  rfl

theorem chaosLanguage_methodId : w ∈ chaosLanguage (cstr "method-id") ↔ w ∈ methodIdWords := by
  have expansion : expansionOf chaosEnv (cstr "method-id") =
      some [[.range [0, 1] [0xFF, 0xFF]]] := by decide +kernel
  rw [chaosLanguage_single expansion, ← Abnf.mem_language, Abnf.language_range,
    mem_sampled_range (by decide +kernel)]
  constructor
  · rintro ⟨⟨length, lower, _⟩, apart⟩
    refine ⟨length, ?_, apart⟩
    rintro rfl
    exact absurd lower (by decide)
  · rintro ⟨length, nonzero, apart⟩
    refine ⟨⟨length, ?_, ?_⟩, apart⟩
    · apply Nat.succ_le_of_lt
      apply Nat.pos_of_ne_zero
      intro zero
      apply nonzero
      rw [← Words.bytes_value w, length, zero]
      rfl
    · have below := Words.value_lt w
      rw [length] at below
      exact Nat.le_of_lt_succ below

theorem chaosLanguage_properties {u : List UInt8} :
    u ∈ chaosLanguage (cstr "frame-properties") ↔ ∃ size ∈ sizeWords, u = [0, 0] ++ size := by
  have expansion : expansionOf chaosEnv (cstr "frame-properties") =
      some [[.rule (cstr "channel"), .rule (cstr "payload-size")]] := by decide +kernel
  have channel : expansionOf chaosEnv (cstr "channel") = some [[.bytes [0, 0]]] := by
    decide +kernel
  have first : ∀ u, u ∈ chaosLanguage (cstr "channel") ↔ u = [0, 0] := by
    intro u
    rw [chaosLanguage_single channel]
    exact Abnf.language_bytes
  rw [chaosLanguage_single expansion, Abnf.derives_cons]
  constructor
  · rintro ⟨u, v, rfl, zeros, size⟩
    obtain rfl := (first u).mp zeros
    exact ⟨v, chaosLanguage_size.mp size, rfl⟩
  · rintro ⟨size, word, rfl⟩
    exact ⟨[0, 0], size, rfl, (first _).mpr rfl, chaosLanguage_size.mpr word⟩

theorem chaosLanguage_payload {u : List UInt8} :
    u ∈ chaosLanguage (cstr "method-payload") ↔ ∃ methodId ∈ methodIdWords,
      u = [0, 10] ++ methodId := by
  have expansion : expansionOf chaosEnv (cstr "method-payload") = some [[.rule (cstr "class-id"),
      .rule (cstr "method-id"), .rule (cstr "method-properties")]] := by decide +kernel
  have classId : expansionOf chaosEnv (cstr "class-id") = some [[.bytes [0, 10]]] := by
    decide +kernel
  have arguments : expansionOf chaosEnv (cstr "method-properties") = some [[]] := by
    decide +kernel
  have first : ∀ u, u ∈ chaosLanguage (cstr "class-id") ↔ u = [0, 10] := by
    intro u
    rw [chaosLanguage_single classId]
    exact Abnf.language_bytes
  have last : ∀ u, u ∈ chaosLanguage (cstr "method-properties") ↔ u = [] := by
    intro u
    rw [chaosLanguage_single arguments, Abnf.derives_nil]
  rw [chaosLanguage_single expansion, Abnf.derives_cons]
  constructor
  · rintro ⟨u, _, rfl, connection, behind⟩
    obtain ⟨v, x, rfl, methodId, nothing⟩ := Abnf.derives_cons.mp behind
    obtain rfl := (first u).mp connection
    obtain rfl := (last x).mp nothing
    exact ⟨v, chaosLanguage_methodId.mp methodId, by simp⟩
  · rintro ⟨methodId, word, rfl⟩
    exact ⟨[0, 10], methodId, rfl, (first _).mpr rfl, Abnf.derives_cons.mpr
      ⟨methodId, [], by simp, chaosLanguage_methodId.mpr word, (last _).mpr rfl⟩⟩

theorem chaosLanguage_method : w ∈ chaosLanguage (cstr "method") ↔ w ∈ fullChaosFrame := by
  have method : expansionOf chaosEnv (cstr "method") = some [[.rule (cstr "method-frame")]] := by
    decide +kernel
  have frame : expansionOf chaosEnv (cstr "method-frame") =
      some [[.bytes [1], .rule (cstr "frame-properties"), .rule (cstr "method-payload"),
        .rule (cstr "frame-end")]] := by
    decide +kernel
  have frameEnd : expansionOf chaosEnv (cstr "frame-end") = some [[.bytes [0xCE]]] := by
    decide +kernel
  have last : ∀ u, u ∈ chaosLanguage (cstr "frame-end") ↔ u = [0xCE] := by
    intro u
    rw [chaosLanguage_single frameEnd]
    exact Abnf.language_bytes
  rw [chaosLanguage_single method]
  change w ∈ chaosLanguage (cstr "method-frame") ↔ _
  rw [chaosLanguage_single frame, Abnf.derives_cons]
  constructor
  · rintro ⟨u, _, rfl, type, behind⟩
    obtain ⟨v, _, rfl, properties, behind⟩ := Abnf.derives_cons.mp behind
    obtain ⟨x, y, rfl, payload, octet⟩ := Abnf.derives_cons.mp behind
    obtain rfl := Abnf.language_bytes.mp type
    obtain ⟨size, word, rfl⟩ := chaosLanguage_properties.mp properties
    obtain ⟨methodId, word', rfl⟩ := chaosLanguage_payload.mp payload
    obtain rfl := (last y).mp octet
    exact ⟨size, word, methodId, word', by simp⟩
  · rintro ⟨size, word, methodId, word', rfl⟩
    have properties := chaosLanguage_properties.mpr ⟨size, word, rfl⟩
    have payload := chaosLanguage_payload.mpr ⟨methodId, word', rfl⟩
    refine ⟨[1], [0, 0] ++ size ++ ([0, 10] ++ methodId ++ [0xCE]), by simp,
      Abnf.language_bytes.mpr rfl, Abnf.derives_cons.mpr ⟨_, _, rfl, properties,
        Abnf.derives_cons.mpr ⟨_, _, rfl, payload, (last _).mpr rfl⟩⟩⟩

theorem decode_fullChaos {fuel : Nat} (enough : 510 ≤ fuel) {d : Decoded} :
    (decodeRule fuel (cstr "method") chaosEnv).Yields d ↔ ∃ w ∈ fullChaosFrame, d = .of w := by
  have known : Versioned messageRules [] (cstr "method") := .inl (by decide)
  have ranked := (tidy_start (c := 4)).ranked
  have spelled : Spelled chaosEnv (cstr "method") := ranked.spelled known
  constructor
  · intro y
    obtain ⟨w, derived, rfl⟩ := (decodeRule_language spelled).mp ⟨fuel, y⟩
    exact ⟨w, chaosLanguage_method.mp derived, rfl⟩
  · rintro ⟨w, word, rfl⟩
    have derived := chaosLanguage_method.mpr word
    obtain ⟨other, y⟩ := (decodeRule_language spelled).mpr ⟨w, derived, rfl⟩
    have total : (decodeRule fuel (cstr "method") chaosEnv).Total :=
      (Sampler.always_iff.mp (prepared_start.decode (c := 4) (by decide) enough)).1
    exact decodeRule_yields_at total y

end

/-! ### Generators -/

section
variable {fuel : Nat} {heap : Memory} {d : Decoded} {reply : Reply}

theorem overwrite_fullChaos (g : Grammar) (rules : List (CString × GrammarEntry)) :
    (shippedAt fuel 4).overwrite g rules = g := by
  induction rules with
  | nil => rfl
  | cons rule rules ih => exact ih

theorem setLength_fullChaos (enough : 510 ≤ fuel) {n lengthRule : CString}
    (known : n ∈ messageRules) {g : Grammar} :
    ((shippedAt fuel 4).setLength n lengthRule createGrammar).Yields g ↔ g = createGrammar := by
  have always := prepared_start.decode (c := 4) known enough
  constructor
  · intro y
    obtain ⟨d, _, rest⟩ := (Sampler.yields_bind ..).mp y
    obtain ⟨_, _, done⟩ := (Sampler.yields_bind ..).mp rest
    exact done.symm
  · rintro rfl
    obtain ⟨_, decoded, w, _, rfl⟩ := always.yields
    refine (Sampler.yields_bind ..).mpr ⟨_, decoded, (Sampler.yields_bind ..).mpr ?_⟩
    have entry : byteArrayEntry (.of w) = .ok (.byteArray w) := by simp [byteArrayEntry, Decoded.of]
    exact ⟨.byteArray w, (Sampler.yields_ofExcept ..).mpr entry, rfl⟩

theorem decodeMethod_fullChaos (enough : 510 ≤ fuel) :
    ((shippedAt fuel 4).decodeMethod createGrammar).Yields d ↔
      ∃ w ∈ fullChaosFrame, d = .of w := by
  rw [Fuzzer.decodeMethod, Sampler.yields_bind]
  simp only [setLength_fullChaos (n := cstr "method-payload") enough (by decide), exists_eq_left]
  exact decode_fullChaos enough

theorem reply_fullChaos (enough : 510 ≤ fuel) (s : State) (b : Bool) :
    ((shippedAt fuel 4).decodeMethod createGrammar >>= fun d => pure ⟨some d, s, b⟩).Yields reply ↔
      ∃ w ∈ fullChaosFrame, reply = ⟨some (.of w), s, b⟩ := by
  rw [Sampler.yields_bind]
  constructor
  · rintro ⟨d, y, done⟩
    obtain ⟨w, word, rfl⟩ := (decodeMethod_fullChaos enough).mp y
    exact ⟨w, word, done.symm⟩
  · rintro ⟨w, word, rfl⟩
    exact ⟨.of w, (decodeMethod_fullChaos enough).mpr ⟨w, word, rfl⟩, rfl⟩

theorem startOk_fullChaos (enough : 510 ≤ fuel) :
    (connectionStartOk (shippedAt fuel 4)).Yields reply ↔
      ∃ w ∈ fullChaosFrame, reply = ⟨some (.of w), .connectionStart, true⟩ := by
  rw [connectionStartOk, overwrite_fullChaos, Sampler.yields_bind]
  simp only [setLength_fullChaos (n := cstr "client-properties-payload") enough (by decide),
    exists_eq_left, overwrite_fullChaos]
  rw [Sampler.yields_bind]
  simp only [setLength_fullChaos (n := cstr "message") enough (by decide), exists_eq_left]
  exact reply_fullChaos enough ..

theorem generate_fullChaos (enough : 510 ≤ fuel) {m : Message} (frame : m ≠ .amqpHeader) :
    (m.generate (shippedAt fuel 4) heap none).Yields reply ↔
      ∃ w ∈ fullChaosFrame, reply = ⟨some (.of w), m.next, m.expects⟩ := by
  cases m with
  | amqpHeader => exact (frame rfl).elim
  | startOk => exact startOk_fullChaos enough
  | tuneOk | connectionOpen | close | closeOk => exact reply_fullChaos enough ..

end

/-- At RULE_CHAOS = 4 the bytes that a generator can send are the same for all five. -/
theorem fullChaos_packets (fuel : Nat) (enough : 510 ≤ fuel) (m : Message)
    (frame : m ≠ .amqpHeader) (heap : Memory) (packet : Decoded) :
    (∃ draws rest, (m.generate (shippedAt fuel 4) heap none).run draws =
      .ok (⟨some packet, m.next, m.expects⟩, rest)) ↔ ∃ w ∈ fullChaosFrame, packet = .of w := by
  rw [← Sampler.yields_iff_run, generate_fullChaos enough frame]
  constructor
  · rintro ⟨w, word, same⟩
    have packets := congrArg Reply.sentPacket same
    exact ⟨w, word, Option.some.inj packets⟩
  · rintro ⟨w, word, rfl⟩
    exact ⟨w, word, rfl⟩

/-- Open may send what no Open is: a method of number 65534 without arguments. -/
theorem fullChaos_packets_open : ∃ draws rest, (connectionOpen (shippedAt 510 4)).run draws =
    .ok (⟨some (.of [1, 0, 0, 0, 0, 0, 0, 0, 10, 0xFF, 0xFE, 0xCE]), .connectionOpen, true⟩,
      rest) :=
  (fullChaos_packets 510 le_rfl .connectionOpen (by decide) (fun _ => none) _).mpr
    ⟨_, ⟨[0, 0, 0, 0], ⟨rfl, by simp⟩, [0xFF, 0xFE], ⟨rfl, by simp, by simp⟩, rfl⟩, rfl⟩

end Amqpgram
