import Amqpgram.Fuzzer.Versions
import Amqpgram.Fuzzer.Conversation

/-! The messages of channel 0 at every level of rule chaos. Chaos exchanges the rules of a
message for those of the grammar files, and none of either recurses; the rules of the frame
itself are never put over. -/
namespace Amqpgram
open Abnf (Element Body Derives Piece shaped Agrees)

/-- `connection_env` at a level of chaos. -/
def connectionEnvAt (c : Nat) : Environment :=
  newEnvironment (overwriteRuleWithChaos c (overwriteRuleWithChaos c connectionGrammar
    shippedProtocolEnv (cstr "short-string") (.function .shortstringGenerator))
    shippedProtocolEnv (cstr "long-string") (.function .longstringGenerator)) shippedProtocolEnv

theorem setupConnectionEnv_at (c : Nat) :
    setupConnectionEnv c shippedProtocolEnv = .ok (connectionEnvAt c) := by
  rw [setupConnectionEnv, generateGrammar_connection]
  rfl

/-- The fuzzer as shipped, at any level of rule chaos. -/
def shippedAt (fuel c : Nat) : Fuzzer := ⟨fuel, c, shippedProtocolEnv, connectionEnvAt c⟩

/-- The rules that a message of the connection can come to, each behind those it mentions. -/
def messageRules : List CString := [
  cstr "OCTET", cstr "long-uint", cstr "short-int", cstr "long-int",
  cstr "channel", cstr "payload-size", cstr "frame-properties", cstr "frame-end",
  cstr "class-id", cstr "m11-method-id", cstr "m31-method-id", cstr "m40-method-id",
  cstr "m50-method-id", cstr "m51-method-id", cstr "method-id",
  cstr "UTF0", cstr "UTF1", cstr "UTF2", cstr "UTF3", cstr "UTF4", cstr "SAFE", cstr "UTF8NUL",
  cstr "authcid", cstr "authzid", cstr "passwd", cstr "message", cstr "message-length",
  cstr "response", cstr "mechanism", cstr "locale",
  cstr "client-properties-length", cstr "client-properties-payload", cstr "client-properties",
  cstr "m11-method-properties",
  cstr "channel-max", cstr "frame-max", cstr "heartbeat-time", cstr "m31-method-properties",
  cstr "virtual-host", cstr "m40-method-properties",
  cstr "reply-code", cstr "shortstr", cstr "reply-text", cstr "m50-class-id-val",
  cstr "m50-method-id-val", cstr "m50-method-properties", cstr "m51-method-properties",
  cstr "method-properties", cstr "method-payload", cstr "method-frame", cstr "method"]

/-! ### What is known of the words of a rule whatever the level -/

/-- The class, two octets of a method id and arguments. -/
def payloadShape : List Piece := [.byte 0, .byte 10, .any, .any, .rest]

/-- A method frame on channel 0 whose size field need not be its size. -/
def frameShape : List Piece :=
  [.byte 1, .byte 0, .byte 0, .any, .any, .any, .any] ++ payloadShape ++ [.byte 0xCE]

def messageShape (n : CString) : List Piece :=
  if n = cstr "OCTET" then [.any]
  else if n = cstr "long-uint" ∨ n = cstr "payload-size" then List.replicate 4 .any
  else if n = cstr "channel" then [.byte 0, .byte 0]
  else if n = cstr "frame-properties" then [.byte 0, .byte 0, .any, .any, .any, .any]
  else if n = cstr "frame-end" then [.byte 0xCE]
  else if n = cstr "class-id" then [.byte 0, .byte 10]
  else if n = cstr "m11-method-id" ∨ n = cstr "m31-method-id" ∨ n = cstr "m40-method-id" ∨
    n = cstr "m50-method-id" ∨ n = cstr "m51-method-id" ∨ n = cstr "method-id" then [.any, .any]
  else if n = cstr "method-payload" then payloadShape
  else if n = cstr "method-frame" ∨ n = cstr "method" then frameShape
  else [.rest]

def messageWords (n : CString) : Language UInt8 := shaped (messageShape n)

/-- A body for a rule that mentions rules before it and keeps to the shape of the rule. -/
def Proper (r : CString) (body : Body CString) : Prop :=
  body ≠ [] ∧ (∀ alt ∈ body, ∀ e ∈ alt,
    Sure (fun m => m ∈ messageRules ∧ messageRules.idxOf m < messageRules.idxOf r) e ∧
      nesting e ≤ 1 ∧ ∀ m ∈ e.names, m ∈ messageRules) ∧
  Agrees (fun _ hi => keptWidth hi) messageShape r body

instance (r : CString) (body : Body CString) : Decidable (Proper r body) :=
  inferInstanceAs (Decidable (_ ∧ _ ∧ _))

/-- The rules of the files before any is put over them. -/
def fileEnv : Environment := newEnvironment connectionGrammar shippedProtocolEnv

theorem messageRules_plain : ∀ r ∈ messageRules, base r = r := by
  have other : ∀ r ∈ messageRules, ¬ (13 ≤ r.length ∧
      (r.take 13 = cstr "fuzzer-chaos-" ∨ r.take 13 = cstr "fuzzer-order-")) := by decide
  intro r member
  rw [base, if_neg (other r member)]

theorem messageRules_space : ∀ r ∈ messageRules, ' ' ∉ r := by decide

theorem fileEnv_proper : ∀ n ∈ messageRules, ∃ body ∈ expansionOf fileEnv n, Proper n body := by
  decide +kernel

theorem fileEnv_unmade : ∀ r ∈ messageRules, environmentLookup fileEnv (chaosRule r) = none := by
  decide +kernel

theorem sampled_measured : sampled.Measured fun _ hi => keptWidth hi := by
  constructor
  · rintro lo hi w ⟨_, v, _, _, rfl⟩
    exact Words.length_bytes _ _
  · rintro min q ⟨_, _, _, lower, upper, _⟩
    rw [Option.getD_some] at upper
    omega

section
variable {c : Nat} {made done : List CString} {g : Grammar} {r n : CString} {e : GrammarEntry}
variable {body : Body CString}

theorem versionWords_rule (member : n ∈ messageRules) :
    versionWords messageWords n = messageWords n := words_rule (messageRules_plain n member)

/-- A proper body has its place below the rule, whatever versions were made. -/
theorem Proper.fits (proper : Proper r body) :
    Fits (Versioned messageRules made) (versionRank messageRules) (versionWords messageWords)
      (2 * messageRules.idxOf r) (messageWords r) body := by
  obtain ⟨nonempty, elements, agrees⟩ := proper
  refine ⟨nonempty, ?_, ?_⟩
  · intro alt ha e he
    obtain ⟨sure, shallow, names⟩ := elements alt ha e he
    refine ⟨sure.mono ?_, shallow, fun m hm => .inl (names m hm)⟩
    rintro m ⟨inside, before⟩
    refine ⟨.inl inside, ?_⟩
    rw [rank_rule (messageRules_plain m inside)]
    omega
  · intro alt ha w d
    have plain : ∀ e ∈ alt, ∀ m ∈ e.names, m ∈ messageRules :=
      fun e he => (elements alt ha e he).2.2
    exact agrees.words sampled_measured alt ha w
      (d.spelled plain fun m inside => (versionWords_rule inside).le)

theorem fits_bytes {bs : List UInt8} (word : bs ∈ messageWords r) :
    Fits (Versioned messageRules made) (versionRank messageRules) (versionWords messageWords)
      (2 * messageRules.idxOf r) (messageWords r) [[.bytes bs]] := by
  refine ⟨List.cons_ne_nil _ _, ?_, ?_⟩
  · intro alt ha e he
    obtain rfl := List.mem_singleton.mp ha
    obtain rfl := List.mem_singleton.mp he
    exact ⟨trivial, by simp [nesting], nofun⟩
  · intro alt ha w d
    obtain rfl := List.mem_singleton.mp ha
    obtain rfl := Abnf.language_bytes.mp d
    exact word

theorem connectionEnvAt_lookup (known : base n ∈ messageRules) :
    environmentLookup (connectionEnvAt c) n = environmentLookup fileEnv n := by
  have apart : ∀ key ∈ [cstr "short-string", cstr "long-string"],
      n ≠ key ∧ n ≠ chaosRule key ∧ n ≠ orderRule key := by
    intro key member
    have other : base key ∉ messageRules := by
      have plain : ∀ key ∈ [cstr "short-string", cstr "long-string"], base key = key := by
        intro key member
        rw [base, if_neg]
        revert key
        decide
      rw [plain key member]
      revert key
      decide
    refine ⟨?_, ?_, ?_⟩
    · rintro rfl
      exact other known
    · rintro rfl
      exact other (base_chaosRule key ▸ known)
    · rintro rfl
      exact other (base_orderRule key ▸ known)
  obtain ⟨own, chaos, order⟩ := apart (cstr "short-string") (by simp)
  obtain ⟨own', chaos', order'⟩ := apart (cstr "long-string") (by simp)
  rw [connectionEnvAt, fileEnv, newEnvironment, newEnvironment, environmentLookup_cons,
    environmentLookup_cons, overwrite_other c _ own' chaos' order',
    overwrite_other c _ own chaos order]

theorem tidy_start : Tidy messageRules messageWords [] (createGrammar :: connectionEnvAt c) := by
  have same : ∀ n, base n ∈ messageRules →
      environmentLookup (createGrammar :: connectionEnvAt c) n = environmentLookup fileEnv n :=
    fun n known => connectionEnvAt_lookup known
  refine ⟨nofun, ?_, ?_⟩
  · intro n inside
    have member : n ∈ messageRules := by
      rcases inside with rule | ⟨r, nothing, _⟩
      · exact rule
      · cases nothing
    obtain ⟨body, expansion, proper⟩ := fileEnv_proper n member
    have plain := messageRules_plain n member
    refine ⟨body, ?_, ?_⟩
    · rw [expansionOf, same n (plain.symm ▸ member)]
      exact expansion
    · rw [rank_rule plain, words_rule plain]
      exact proper.fits.mono (fun _ => id) fun m _ lower => Nat.lt_succ_of_lt lower
  · intro r member _
    rw [same _ (by rwa [base_chaosRule, messageRules_plain r member])]
    exact fileEnv_unmade r member

/-! ### Generators -/

/-- The grammar of a generator after overwrites of rules among these. -/
def Prepared (c : Nat) (done : List CString) (g : Grammar) : Prop :=
  ∃ made, Tidy messageRules messageWords made (g :: connectionEnvAt c) ∧ ∀ m ∈ made, m ∈ done

/-- An entry that may be put over a rule of a message. -/
structure Admitted (r : CString) (e : GrammarEntry) : Prop where
  known : r ∈ messageRules
  read : ∃ body ∈ readEntry e, ∀ made, Fits (Versioned messageRules made)
    (versionRank messageRules) (versionWords messageWords) (2 * messageRules.idxOf r)
    (messageWords r) body

theorem prepared_start : Prepared c [] createGrammar := ⟨[], tidy_start, nofun⟩

theorem admitted_proper (known : r ∈ messageRules) (proper : ∃ body ∈ readEntry e, Proper r body) :
    Admitted r e := by
  obtain ⟨body, read, proper⟩ := proper
  exact ⟨known, body, read, fun _ => proper.fits⟩

theorem admitted_bytes {bs : List UInt8} (known : r ∈ messageRules) (word : bs ∈ messageWords r) :
    Admitted r (.byteArray bs) := ⟨known, _, rfl, fun _ => fits_bytes word⟩

theorem Prepared.overwrite (prepared : Prepared c done g) (level : c ≤ 4) (admitted : Admitted r e)
    (fresh : r ∉ done) : Prepared c (done ++ [r])
      (overwriteRuleWithChaos c g (newEnvironment g (connectionEnvAt c)) r e) := by
  obtain ⟨made, tidy, within⟩ := prepared
  obtain ⟨body, read, fits⟩ := admitted.read
  obtain ⟨made', tidy', origin⟩ := tidy.overwrite messageRules_plain level admitted.known
    (fun member => fresh (within r member)) (messageRules_space r admitted.known) read (fits made)
  refine ⟨made', tidy', ?_⟩
  intro m member
  rcases origin m member with rfl | old
  · simp
  · exact List.mem_append_left _ (within m old)

theorem Prepared.overwrites (fuel : Nat) {rules : List (CString × GrammarEntry)}
    (prepared : Prepared c done g) (level : c ≤ 4)
    (admitted : ∀ rule ∈ rules, Admitted rule.1 rule.2)
    (fresh : (done ++ rules.map Prod.fst).Nodup) :
    Prepared c (done ++ rules.map Prod.fst) ((shippedAt fuel c).overwrite g rules) := by
  induction rules generalizing g done with
  | nil => simpa [Fuzzer.overwrite] using prepared
  | cons rule rules ih =>
    have own : rule.1 ∉ done := by
      intro member
      exact (List.nodup_append.mp fresh).2.2 _ member _ (List.mem_cons_self ..) rfl
    have one := prepared.overwrite level (admitted rule (List.mem_cons_self ..)) own
    have rest := ih one (fun other member => admitted other (List.mem_cons_of_mem _ member))
      (by simpa using fresh)
    simpa [Fuzzer.overwrite, shippedAt] using rest

/-- A rule of a prepared grammar is decoded on every stream, into a word of its own. -/
theorem Prepared.decode {fuel : Nat} (prepared : Prepared c done g) (known : n ∈ messageRules)
    (enough : 510 ≤ fuel) : (decodeRule fuel n (newEnvironment g (connectionEnvAt c))).Always
      fun d => ∃ w ∈ messageWords n, d = .of w := by
  obtain ⟨made, tidy, _⟩ := prepared
  have inside : Versioned messageRules made n := .inl known
  have rank : versionRank messageRules n ≤ 101 := by
    have place := List.idxOf_lt_length_of_mem known
    rw [rank_rule (messageRules_plain n known)]
    change _ < 51 at place
    omega
  rw [Sampler.always_iff]
  refine ⟨tidy.ranked.returns inside fuel (by omega), ?_⟩
  intro d y
  rw [← versionWords_rule known]
  exact tidy.ranked.word inside y

theorem decodeRule_yields_at {fuel other : Nat} {env : Environment}
    (total : (decodeRule fuel n env).Total) {d : Decoded} (y : (decodeRule other n env).Yields d) :
    (decodeRule fuel n env).Yields d := by
  rw [← (decodeRule_extends (le_max_left fuel other) n).eq_of_total total]
  exact (decodeRule_extends (le_max_right fuel other) n).yields y

theorem fresh_pair {lengthRule : CString} (fresh : (done ++ [n, lengthRule]).Nodup) :
    n ∉ done ∧ lengthRule ∉ done ∧ lengthRule ≠ n := by
  obtain ⟨_, pair, apart⟩ := List.nodup_append.mp fresh
  refine ⟨fun member => apart n member n (by simp) rfl,
    fun member => apart lengthRule member lengthRule (by simp) rfl, ?_⟩
  rintro rfl
  exact (List.nodup_cons.mp pair).1 (List.mem_cons_self ..)

theorem Prepared.setLength {fuel : Nat} {lengthRule : CString} (prepared : Prepared c done g)
    (level : c ≤ 4) (enough : 510 ≤ fuel) (known : n ∈ messageRules)
    (length : lengthRule ∈ messageRules)
    (words : ∀ bs : List UInt8, bs.length = 4 → bs ∈ messageWords lengthRule)
    (fresh : (done ++ [n, lengthRule]).Nodup) :
    ((shippedAt fuel c).setLength n lengthRule g).Always
      (Prepared c (done ++ [n, lengthRule])) := by
  obtain ⟨own, own', apart⟩ := fresh_pair fresh
  refine (prepared.decode known enough).bind ?_
  rintro _ ⟨w, word, rfl⟩
  have entry : byteArrayEntry (.of w) = .ok (.byteArray w) := by simp [byteArrayEntry, Decoded.of]
  rw [entry, Sampler.ofExcept_ok, Sampler.bind_done]
  have frozen := prepared.overwrite level (admitted_bytes known word) own
  have size : intInChar (List.replicate 4 0) (Decoded.of w).length 0 4 ∈
      messageWords lengthRule := by
    apply words
    rw [intInChar, inChar_whole 4 _ _ rfl, Words.length_bytes]
  have sized := frozen.overwrite level (admitted_bytes length size) (by simp [own', apart])
  rw [List.append_assoc] at sized
  exact sized

theorem messageWords_size {bs : List UInt8} (length : bs.length = 4) :
    bs ∈ messageWords (cstr "payload-size") := Abnf.shaped_any.mpr length

theorem messageWords_free (free : messageShape n = [.rest]) (bs : List UInt8) :
    bs ∈ messageWords n := by
  rw [messageWords, free]
  exact Abnf.shaped_rest bs

theorem Prepared.decodeMethod {fuel : Nat} (prepared : Prepared c done g) (level : c ≤ 4)
    (enough : 510 ≤ fuel) (fresh : (done ++ [cstr "method-payload", cstr "payload-size"]).Nodup) :
    ((shippedAt fuel c).decodeMethod g).Always fun d => ∃ w ∈ shaped frameShape, d = .of w := by
  refine (prepared.setLength level enough (by decide) (by decide) (fun _ => messageWords_size)
    fresh).bind ?_
  intro g sized
  exact sized.decode (n := cstr "method") (by decide) enough

end

/-! ### Messages -/

/-- What a message is, whatever the level. -/
def Message.words : Message → Language UInt8
  | .amqpHeader => {[0x41, 0x4D, 0x51, 0x50, 0, 0, 9, 1]}
  | _ => shaped frameShape

section
variable {c fuel : Nat} {heap : Memory}

theorem amqpHeader_always (enough : 510 ≤ fuel) :
    (amqpHeader (shippedAt fuel c)).Always fun reply =>
      reply = ⟨some (.of [0x41, 0x4D, 0x51, 0x50, 0, 0, 9, 1]), .connectionStart, true⟩ := by
  have more : Extends (amqpHeader (shipped 20)) (amqpHeader (shippedAt fuel c)) :=
    amqpHeader_extends (by omega)
  exact Sampler.Refines.always (a := ⟨some headerPacket, .connectionStart, true⟩) more
    (by decide +kernel) rfl

/-- A reply with a packet of the message. -/
def Message.Replies (m : Message) (reply : Reply) : Prop :=
  ∃ w ∈ m.words, reply = ⟨some (.of w), m.next, m.expects⟩

theorem replies_of_frame {m : Message} {packets : Gen Decoded} (other : m.words = shaped frameShape)
    (always : packets.Always fun d => ∃ w ∈ shaped frameShape, d = .of w) :
    (packets >>= fun d => pure ⟨some d, m.next, m.expects⟩).Always m.Replies := by
  apply always.bind
  rintro _ ⟨w, word, rfl⟩
  exact ⟨w, other ▸ word, rfl⟩

theorem admitted_of_proper {rules : List (CString × GrammarEntry)}
    (proper : ∀ rule ∈ rules, rule.1 ∈ messageRules ∧ ∃ body ∈ readEntry rule.2,
      Proper rule.1 body) : ∀ rule ∈ rules, Admitted rule.1 rule.2 :=
  fun rule member => admitted_proper (proper rule member).1 (proper rule member).2

/-- The generators that only put rules over before the payload is frozen. -/
theorem overwritten_always {rules : List (CString × GrammarEntry)} (level : c ≤ 4)
    (enough : 510 ≤ fuel) (admitted : ∀ rule ∈ rules, Admitted rule.1 rule.2)
    (fresh : (rules.map Prod.fst ++ [cstr "method-payload", cstr "payload-size"]).Nodup) :
    ((shippedAt fuel c).decodeMethod ((shippedAt fuel c).overwrite createGrammar rules)).Always
      fun d => ∃ w ∈ shaped frameShape, d = .of w := by
  have put := prepared_start.overwrites fuel level admitted fresh.of_append_left
  exact put.decodeMethod level enough fresh

theorem open_admitted : ∀ rule ∈ [
    (cstr "method-id", GrammarEntry.string (cstr "m40-method-id")),
    (cstr "method-properties", .string (cstr "m40-method-properties")),
    (cstr "virtual-host", .string (cstr "%x01.2F"))], Admitted rule.1 rule.2 :=
  admitted_of_proper (by decide +kernel)

theorem close_admitted : ∀ rule ∈ [
    (cstr "method-id", GrammarEntry.string (cstr "m50-method-id")),
    (cstr "method-properties", .string (cstr "m50-method-properties")),
    (cstr "reply-code", .string (cstr "%x00.C8")),
    (cstr "reply-text", .string (cstr "%x03.32.30.30")),
    (cstr "m50-class-id-val", .string (cstr "%x00.00")),
    (cstr "m50-method-id-val", .string (cstr "%x00.00"))], Admitted rule.1 rule.2 :=
  admitted_of_proper (by decide +kernel)

theorem closeOk_admitted : ∀ rule ∈ [
    (cstr "method-id", GrammarEntry.string (cstr "m51-method-id")),
    (cstr "method-properties", .string (cstr "m51-method-properties"))], Admitted rule.1 rule.2 :=
  admitted_of_proper (by decide +kernel)

theorem tuneOk_admitted (frameMax channelMax : List UInt8) : ∀ rule ∈ [
    (cstr "method-id", GrammarEntry.string (cstr "m31-method-id")),
    (cstr "method-properties", .string (cstr "m31-method-properties")),
    (cstr "frame-max", .byteArray frameMax),
    (cstr "channel-max", .byteArray channelMax)], Admitted rule.1 rule.2 := by
  have named : ∀ rule ∈ [
      (cstr "method-id", GrammarEntry.string (cstr "m31-method-id")),
      (cstr "method-properties", .string (cstr "m31-method-properties"))], Admitted rule.1 rule.2 :=
    admitted_of_proper (by decide +kernel)
  have free : ∀ n ∈ [cstr "frame-max", cstr "channel-max"],
      n ∈ messageRules ∧ messageShape n = [.rest] := by decide
  have bytes : ∀ n ∈ [cstr "frame-max", cstr "channel-max"], ∀ bs, Admitted n (.byteArray bs) :=
    fun n member bs => admitted_bytes (free n member).1 (messageWords_free (free n member).2 bs)
  exact List.forall_mem_cons.mpr ⟨named _ (by simp), List.forall_mem_cons.mpr ⟨named _ (by simp),
    List.forall_mem_cons.mpr ⟨bytes _ (by simp) _, List.forall_mem_singleton.mpr
      (bytes _ (by simp) _)⟩⟩⟩

theorem startOk_methods : ∀ rule ∈ [
    (cstr "method-id", GrammarEntry.string (cstr "m11-method-id")),
    (cstr "method-properties", .string (cstr "m11-method-properties"))], Admitted rule.1 rule.2 :=
  admitted_of_proper (by decide +kernel)

theorem startOk_response : ∀ rule ∈ [
    (cstr "authcid", GrammarEntry.string (cstr "\"username\"")),
    (cstr "passwd", .string (cstr "\"password\""))], Admitted rule.1 rule.2 :=
  admitted_of_proper (by decide +kernel)

theorem connectionStartOk_always (level : c ≤ 4) (enough : 510 ≤ fuel) :
    (connectionStartOk (shippedAt fuel c)).Always Message.startOk.Replies := by
  have start := prepared_start.overwrites fuel level startOk_methods (by decide)
  refine (start.setLength level enough (by decide) (by decide)
    (fun bs _ => messageWords_free (by decide) bs) (by decide)).bind ?_
  intro g properties
  have named := properties.overwrites fuel level startOk_response (by decide)
  refine (named.setLength level enough (by decide) (by decide)
    (fun bs _ => messageWords_free (by decide) bs) (by decide)).bind ?_
  intro g response
  exact replies_of_frame (m := .startOk) rfl (response.decodeMethod level enough (by decide))

theorem generate_always (level : c ≤ 4) (enough : 510 ≤ fuel) (m : Message) :
    (m.generate (shippedAt fuel c) heap none).Always m.Replies := by
  cases m with
  | amqpHeader =>
    apply (amqpHeader_always enough).mono
    rintro _ rfl
    exact ⟨_, rfl, rfl⟩
  | startOk => exact connectionStartOk_always level enough
  | tuneOk =>
    exact replies_of_frame (m := .tuneOk) rfl
      (overwritten_always level enough (tuneOk_admitted _ _) (by decide))
  | connectionOpen =>
    exact replies_of_frame (m := .connectionOpen) rfl
      (overwritten_always level enough open_admitted (by decide))
  | close =>
    exact replies_of_frame (m := .close) rfl
      (overwritten_always level enough close_admitted (by decide))
  | closeOk =>
    exact replies_of_frame (m := .closeOk) rfl
      (overwritten_always level enough closeOk_admitted (by decide))

theorem chaoticMessage_generate (f : Fuzzer) (heap : Memory) (roll : Int) :
    ∃ m : Message, chaoticMessage f heap roll = m.generate f heap none := by
  unfold chaoticMessage
  split
  · exact ⟨.amqpHeader, rfl⟩
  · exact ⟨.startOk, rfl⟩
  · exact ⟨.tuneOk, rfl⟩
  · exact ⟨.connectionOpen, rfl⟩
  · exact ⟨.close, rfl⟩
  · exact ⟨.closeOk, rfl⟩

/-- A decision to send a packet of some message, and to go where it leads. -/
def Decision.Sends (decision : Decision) : Prop :=
  ∃ m : Message, ∃ w ∈ m.words, decision = ⟨.buffer (.of w), m.next, m.expects⟩

theorem chaoticPacketDecider_always (level : c ≤ 4) (enough : 510 ≤ fuel) :
    (chaoticPacketDecider (shippedAt fuel c) heap).Always Decision.Sends := by
  have rolled : (randMod 6).Always fun _ => True :=
    Sampler.always_iff.mpr ⟨total_randMod (by decide), fun _ _ => trivial⟩
  refine rolled.bind fun roll _ => ?_
  obtain ⟨m, same⟩ := chaoticMessage_generate (shippedAt fuel c) heap roll
  rw [same]
  refine (generate_always level enough m).bind ?_
  rintro _ ⟨w, word, rfl⟩
  exact ⟨m, w, word, rfl⟩

/-- At every level of rule chaos each generator, called as `chaotic_packet_decider` calls
it, returns on every stream, and so does the decider. What comes out is the protocol
header or a frame of the Connection class with a size field that may be wrong. -/
theorem chaotic_messages (c fuel : Nat) (level : c ≤ 4) (enough : 510 ≤ fuel) (heap : Memory)
    (draws : RandStream) :
    (∀ m : Message, ∃ w ∈ m.words, ∃ rest, (m.generate (shippedAt fuel c) heap none).run draws =
      .ok (⟨some (.of w), m.next, m.expects⟩, rest)) ∧
    ∃ m : Message, ∃ w ∈ m.words, ∃ rest, (chaoticPacketDecider (shippedAt fuel c) heap).run draws =
      .ok (⟨.buffer (.of w), m.next, m.expects⟩, rest) := by
  constructor
  · intro m
    obtain ⟨_, rest, returned, w, word, rfl⟩ := (generate_always level enough m).run draws
    exact ⟨w, word, rest, returned⟩
  · obtain ⟨_, rest, returned, m, w, word, rfl⟩ :=
      (chaoticPacketDecider_always level enough).run draws
    exact ⟨m, w, word, rest, returned⟩

end

theorem chaotic_messages_half : ∃ w ∈ Message.closeOk.words, ∃ rest,
    (connectionCloseOk (shippedAt 510 2)).run (Stream'.const 0) =
      .ok (⟨some (.of w), .connectionCloseOK, true⟩, rest) :=
  (chaotic_messages 2 510 (by decide) le_rfl (fun _ => none) (Stream'.const 0)).1 .closeOk

/-! ### The thread -/

/-- What a turn puts on the wire is a message. -/
def Outcome.Speaks (outcome : Outcome) : Prop :=
  ∀ d ∈ outcome.sent, ∃ m : Message, ∃ w ∈ m.words, d = .of w

/-- The packet of a decision, if it has one, is a message. -/
def Decision.Spoken (decision : Decision) : Prop :=
  ∀ d ∈ decision.sentPacket.pointer, ∃ m : Message, ∃ w ∈ m.words, d = .of w

theorem Decision.Sends.spoken {decision : Decision} (sends : decision.Sends) : decision.Spoken := by
  obtain ⟨m, w, word, rfl⟩ := sends
  rintro _ ⟨⟩
  exact ⟨m, w, word, rfl⟩

theorem outcome_speaks {circumstances : Circumstances} {decision : Decision}
    (spoken : decision.Spoken) : (decision.outcome circumstances).Speaks := by
  intro d sent
  unfold Decision.outcome at sent
  split at sent
  · cases sent
  · rename_i packet named
    split at sent
    · obtain rfl : packet = d := Option.some.inj sent
      exact spoken packet named
    · cases sent

theorem generate_methodData (f : Fuzzer) (heap : Memory) (methodData : Option MethodStruct)
    {m : Message} (other : m ≠ .tuneOk) :
    m.generate f heap methodData = m.generate f heap none := by
  cases m with
  | tuneOk => exact (other rfl).elim
  | _ => rfl

theorem orderedAnswer_tune {packet : Option PacketStruct} {state : State} {flag : Bool}
    (answer : orderedAnswer packet state flag = .message .tuneOk) : ∃ p ∈ packet,
      ∃ methodData ∈ p.methodPayload, methodData.classId = classConnection ∧
        methodData.methodId = 30 := by
  unfold orderedAnswer at answer
  split at answer
  · cases answer
  split at answer
  · cases answer
  cases packet with
  | none => cases state <;> cases answer
  | some p =>
    refine ⟨p, rfl, ?_⟩
    dsimp only [packetAnswer] at answer
    split at answer
    · cases answer
    cases payload : p.methodPayload with
    | none =>
      rw [payload] at answer
      cases answer
    | some methodData =>
      rw [payload] at answer
      dsimp only at answer
      split at answer
      · rename_i known
        refine ⟨methodData, rfl, known, ?_⟩
        unfold methodAnswer at answer
        split at answer <;> first | assumption | cases answer
      · cases answer

section
variable {c fuel : Nat} {heap : Memory}

theorem act_always (level : c ≤ 4) (enough : 510 ≤ fuel) {methodData : Option MethodStruct}
    {answer : Answer} (returns : answer ≠ .crash) (other : answer ≠ .message .tuneOk) :
    (answer.act (shippedAt fuel c) heap methodData).Always Decision.Spoken := by
  cases answer with
  | message m =>
    have untuned : m ≠ .tuneOk := fun same => other (congrArg Answer.message same)
    rw [Answer.act, generate_methodData _ _ _ untuned]
    apply ((generate_always level enough m).mapError Crash.fault).bind
    rintro _ ⟨w, word, rfl⟩
    exact Decision.Sends.spoken ⟨m, w, word, rfl⟩
  | null s b => exact fun d pointer => nomatch pointer
  | unassigned s b => exact fun d pointer => nomatch pointer
  | crash => exact (returns rfl).elim

theorem decidePacket_always (level : c ≤ 4) (enough : 510 ≤ fuel) (packetChaos : Int)
    {packet : Option PacketStruct} {state : State} {flag : Bool}
    (returns : orderedAnswer packet state flag ≠ .crash)
    (other : orderedAnswer packet state flag ≠ .message .tuneOk) :
    (decidePacket (shippedAt fuel c) packetChaos heap packet state flag).Always
      Decision.Spoken := by
  have rolled : (randMod 4).Always fun _ => True :=
    Sampler.always_iff.mpr ⟨total_randMod (by decide), fun _ _ => trivial⟩
  refine (rolled.mapError Crash.fault).bind fun drawn _ => ?_
  unfold rolledDecider
  split
  · rw [orderedPacketDecider_eq]
    exact act_always level enough returns other
  · exact ((chaoticPacketDecider_always level enough).mapError Crash.fault).mono
      fun decision sends => sends.spoken

/-- The decision of a turn that is due is made unless it answers a Tune. -/
theorem Thread.Sound.decides {t : Thread} {packet : Option PacketStruct} (sound : t.Sound)
    (ready : t.Ready packet) (level : c ≤ 4) (enough : 510 ≤ fuel)
    (untuned : ∀ p ∈ packet, ∀ methodData ∈ p.methodPayload,
      ¬ (methodData.classId = classConnection ∧ methodData.methodId = 30))
    (packetChaos : Int) (heap : Memory) (draws : RandStream) :
    ∃ decision rest, (decidePacket (shippedAt fuel c) packetChaos heap packet
        t.currentState t.waitingResponse).run draws = .ok (decision, rest) ∧ decision.Spoken := by
  have other : orderedAnswer packet t.currentState t.waitingResponse ≠ .message .tuneOk := by
    intro tuned
    obtain ⟨p, member, methodData, payload, tune⟩ := orderedAnswer_tune tuned
    exact untuned p member methodData payload tune
  exact (decidePacket_always level enough packetChaos (sound.returns ready) other).run draws

end

/-- At every level of rule chaos and of packet chaos, every turn of a thread in any state it
can come to returns on every stream and speaks AMQP frames, unless it answers a Tune or
frees a pointer that was never assigned. -/
theorem channelThread_progress (c fuel : Nat) (level : c ≤ 4) (enough : 510 ≤ fuel)
    (packetChaos : Int) (t : Thread)
    (reach : (channelThread (shippedAt fuel c) packetChaos).Reachable t)
    (packet : Option PacketStruct) (ready : t.Ready packet)
    (untuned : ∀ p ∈ packet, ∀ methodData ∈ p.methodPayload,
      ¬ (methodData.classId = classConnection ∧ methodData.methodId = 30))
    (circumstances : Circumstances)
    (assigned : circumstances.junk = true → ∀ p ∈ packet, AssignedWhen (some p) t.currentState)
    (draws : RandStream) :
    ∃ outcome rest, (packetDecider (shippedAt fuel c) packetChaos circumstances packet
        t.currentState t.waitingResponse).run draws = .ok (outcome, rest) ∧ outcome.Speaks ∧
      Turn (shippedAt fuel c) packetChaos circumstances packet t outcome := by
  have sound := channelThread_sound reach
  obtain ⟨decision, rest, decided, spoken⟩ :=
    sound.decides ready level enough untuned packetChaos circumstances.heap draws
  have clean : decision.sentPacket = .unassigned → circumstances.junk = false := by
    intro stray
    by_contra junk
    exact sound.assigns (assigned (Bool.of_not_eq_false junk)) ⟨ready, _, _, decided⟩ stray
  have delivered : deliver circumstances decision = .ok (decision.outcome circumstances) :=
    deliver_eq_ok.mpr ⟨clean, rfl⟩
  have returned : (packetDecider (shippedAt fuel c) packetChaos circumstances packet
      t.currentState t.waitingResponse).run draws = .ok (decision.outcome circumstances, rest) := by
    rw [packetDecider, Sampler.run_bind_of_run decided, delivered]
    rfl
  exact ⟨_, rest, returned, outcome_speaks spoken, ready, draws, rest, returned⟩

/-- A Start is consumed behind the header, at half the rule chaos; an unassigned pointer
would not be NULL. -/
theorem channelThread_progress_started : ∃ outcome rest, (packetDecider (shippedAt 510 2) 3
    ⟨fun _ => none, true, true, true⟩ (some startPacket) .connectionStart true).run
      (Stream'.const 0) = .ok (outcome, rest) ∧ outcome.Speaks := by
  have greets : Turn (shippedAt 510 2) 3 ⟨fun _ => none, true, true, true⟩ none Thread.start
      ⟨.connectionStart, true, some ⟨[65, 77, 81, 80, 0, 0, 9, 1], 8⟩⟩ := by
    refine ⟨⟨by decide, fun _ => rfl⟩, Stream'.const 0, ?_⟩
    apply Sampler.run_of_map_fst
    decide +kernel
  have start : (channelThread (shippedAt 510 2) 3).Reachable Thread.start :=
    TransitionSystem.Reachable.start
  have greeted := start.next ⟨_, _, _, greets, rfl⟩
  have assigned : ∀ p ∈ some startPacket, AssignedWhen (some p) .connectionStart := by
    intro p member
    obtain rfl := Option.some.inj member
    exact .inr (.inr (.inr ⟨_, rfl, rfl⟩))
  have untuned : ∀ p ∈ some startPacket, ∀ methodData ∈ p.methodPayload,
      ¬ (methodData.classId = classConnection ∧ methodData.methodId = 30) := by
    intro p member methodData payload
    obtain rfl := Option.some.inj member
    obtain rfl := Option.some.inj payload
    decide
  obtain ⟨outcome, rest, returned, speaks, _⟩ := channelThread_progress 2 510 (by decide) le_rfl 3
    _ greeted (some startPacket) ⟨by decide, fun empty => nomatch empty⟩ untuned
    ⟨fun _ => none, true, true, true⟩ (fun _ => assigned) (Stream'.const 0)
  exact ⟨outcome, rest, returned, speaks⟩

end Amqpgram
