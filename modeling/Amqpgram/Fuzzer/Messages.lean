import Amqpgram.Fuzzer.Connection
import Amqpgram.Grammar.Soundness

/-! The messages that Connection.c generates from the shipped grammars at
RULE_CHAOS = 0: each is one method frame whose arguments have the layout of its
method. All but Tune-Ok need no draw, so one evaluation settles them; Tune-Ok has
eight free bytes. -/
namespace Amqpgram

/-! ### Layouts -/

/-- The argument types of the Connection methods; a lone bit takes an octet. -/
inductive Field where
  | bit
  | short
  | long
  | shortstr
  | longstr
  | table
  deriving DecidableEq, Repr

/-- What is left behind `n` octets, if there are so many. -/
def skip (n : Nat) (arguments : List UInt8) : Option (List UInt8) :=
  if n ≤ arguments.length then some (arguments.drop n) else none

def Field.consume : Field → List UInt8 → Option (List UInt8)
  | .bit, arguments => skip 1 arguments
  | .short, arguments => skip 2 arguments
  | .long, arguments => skip 4 arguments
  | .shortstr, arguments => skip (1 + Words.value (arguments.take 1)) arguments
  | .longstr, arguments => skip (4 + Words.value (arguments.take 4)) arguments
  | .table, arguments => skip (4 + Words.value (arguments.take 4)) arguments

def consumesExactly : List Field → List UInt8 → Bool
  | [], arguments => arguments.isEmpty
  | field :: layout, arguments => (field.consume arguments).any (consumesExactly layout)

inductive MethodCall where
  | startOk
  | tuneOk (heap : Memory) (methodData : Option MethodStruct)
  | connectionOpen
  | close
  | closeOk

def MethodCall.run (f : Fuzzer) : MethodCall → Gen Reply
  | .startOk => connectionStartOk f
  | .tuneOk heap methodData => connectionTuneOk f heap methodData
  | .connectionOpen => Amqpgram.connectionOpen f
  | .close => connectionClose f
  | .closeOk => connectionCloseOk f

def MethodCall.methodId : MethodCall → Nat
  | .startOk => 11
  | .tuneOk _ _ => 31
  | .connectionOpen => 40
  | .close => 50
  | .closeOk => 51

def MethodCall.layout : MethodCall → List Field
  | .startOk => [.table, .shortstr, .longstr, .shortstr]
  | .tuneOk _ _ => [.short, .long, .short]
  | .connectionOpen => [.shortstr, .shortstr, .bit]
  | .close => [.short, .shortstr, .short, .short]
  | .closeOk => []

/-! ### More fuel -/

section Fuel
variable {less more : Nat}

theorem decodeMethod_extends (le : less ≤ more) (g : Grammar) :
    Extends ((shipped less).decodeMethod g) ((shipped more).decodeMethod g) :=
  .bind (overwriteRuleSetLength_extends le ..) fun _ => decodeRule_extends le _

theorem startOk_extends (le : less ≤ more) :
    Extends (connectionStartOk (shipped less)) (connectionStartOk (shipped more)) := by
  apply Sampler.Refines.bind (overwriteRuleSetLength_extends le ..)
  intro g
  apply Sampler.Refines.bind (overwriteRuleSetLength_extends le ..)
  intro g
  exact .bind (decodeMethod_extends le g) fun _ => .refl _ _

theorem open_extends (le : less ≤ more) :
    Extends (connectionOpen (shipped less)) (connectionOpen (shipped more)) :=
  .bind (decodeMethod_extends le _) fun _ => .refl _ _

theorem close_extends (le : less ≤ more) :
    Extends (connectionClose (shipped less)) (connectionClose (shipped more)) :=
  .bind (decodeMethod_extends le _) fun _ => .refl _ _

theorem closeOk_extends (le : less ≤ more) :
    Extends (connectionCloseOk (shipped less)) (connectionCloseOk (shipped more)) :=
  .bind (decodeMethod_extends le _) fun _ => .refl _ _

theorem yields_unique {A : Type} {g : Nat → Gen A}
    (extend : ∀ {less more}, less ≤ more → Extends (g less) (g more)) (fuel : Nat) {a : A}
    (result : (g fuel).result? = some a) {other : Nat} {b : A} (y : (g other).Yields b) :
    b = a := by
  rcases le_total other fuel with le | le
  · exact ((Sampler.yields_of_result? result).mp ((extend le).yields y)).symm
  · exact ((extend le).result_unique result y).symm

end Fuel

/-! ### The messages without a draw -/

def methodPacket (methodId : Nat) (arguments : List UInt8) : Decoded :=
  .of (encodeFrame 1 0 (encodeMethod 10 methodId arguments))

/-- An empty table but for one octet pair, PLAIN, the response and en_US. -/
def startOkArguments : List UInt8 :=
  [0, 0, 0, 2, 0, 0x56] ++ [5, 0x50, 0x4C, 0x41, 0x49, 0x4E] ++
  [0, 0, 0, 18, 0, 0x75, 0x73, 0x65, 0x72, 0x6E, 0x61, 0x6D, 0x65, 0, 0x70, 0x61, 0x73, 0x73, 0x77,
    0x6F, 0x72, 0x64] ++ [5, 0x65, 0x6E, 0x5F, 0x55, 0x53]

/-- The virtual host `/`. -/
def openArguments : List UInt8 := [1, 0x2F, 0, 0]

/-- Reply code 200 with its text and no offending method. -/
def closeArguments : List UInt8 := [0, 0xC8, 3, 0x32, 0x30, 0x30, 0, 0, 0, 0]

section
variable {fuel : Nat} {reply : Reply}

theorem startOk_reply (y : (connectionStartOk (shipped fuel)).Yields reply) :
    reply = ⟨some (methodPacket 11 startOkArguments), .connectionStart, true⟩ :=
  yields_unique startOk_extends 20 (by decide +kernel) y

theorem open_reply (y : (connectionOpen (shipped fuel)).Yields reply) :
    reply = ⟨some (methodPacket 40 openArguments), .connectionOpen, true⟩ :=
  yields_unique open_extends 20 (by decide +kernel) y

theorem close_reply (y : (connectionClose (shipped fuel)).Yields reply) :
    reply = ⟨some (methodPacket 50 closeArguments), .connectionCloseOK, true⟩ :=
  yields_unique close_extends 20 (by decide +kernel) y

theorem closeOk_reply (y : (connectionCloseOk (shipped fuel)).Yields reply) :
    reply = ⟨some (methodPacket 51 []), .connectionCloseOK, true⟩ :=
  yields_unique closeOk_extends 20 (by decide +kernel) y

end

/-! ### Tune-Ok -/

theorem plainOn_cons {g : Grammar} {env : Environment} {names : List CString}
    (own : ∀ n ∈ names, ∀ entry ∈ grammarLookup g n, ∃ body ∈ readEntry entry, ∀ alt ∈ body,
      ∀ e ∈ alt, Plain e ∧ ∀ m ∈ e.names, m ∈ names)
    (rest : ∀ n ∈ names, grammarLookup g n = none → ∃ body ∈ readRule env n, ∀ alt ∈ body,
      ∀ e ∈ alt, Plain e ∧ ∀ m ∈ e.names, m ∈ names) :
    PlainOn (newEnvironment g env) names := by
  intro n member
  cases found : grammarLookup g n with
  | none =>
    obtain ⟨body, read, elements⟩ := rest n member found
    refine ⟨body, ?_, elements⟩
    simpa [readRule, newEnvironment, found] using read
  | some entry =>
    obtain ⟨body, read, elements⟩ := own n member entry found
    refine ⟨body, ?_, elements⟩
    simpa [readRule, newEnvironment, found] using read

section Derives
variable {R : Abnf.Reading} {env : Environment} {n : CString} {w : List UInt8}

theorem derives_single {es : List (Abnf.Element CString)} (read : readRule env n = some [es]) :
    Abnf.Derives R (rulesOf env) [.rule n] w ↔ Abnf.Derives R (rulesOf env) es w := by
  rw [← Abnf.mem_language, Abnf.language_rule]
  constructor
  · rintro ⟨other, rule, alt, member, derived⟩
    obtain rfl := rulesOf_unique (readRule_rulesOf read) rule
    obtain rfl := List.mem_singleton.mp member
    exact derived
  · intro derived
    exact ⟨[es], readRule_rulesOf read, es, List.mem_singleton_self es, derived⟩

theorem derives_bytes {bs : List UInt8} :
    Abnf.Derives R (rulesOf env) [.bytes bs] w ↔ w = bs := Abnf.language_bytes

end Derives

def frameRules : List CString :=
  [cstr "method", cstr "method-frame", cstr "frame-properties", cstr "channel", cstr "frame-end"]

def frozen (g : Grammar) (payload size : List UInt8) : Grammar :=
  grammarInsert (grammarInsert g (cstr "method-payload") (some (.byteArray payload)))
    (cstr "payload-size") (some (.byteArray size))

def frozenEnv (g : Grammar) (payload size : List UInt8) : Environment :=
  newEnvironment (frozen g payload size) shippedConnectionEnv

section Frozen
variable {g : Grammar} {payload size : List UInt8}

theorem frozen_lookup (n : CString) : grammarLookup (frozen g payload size) n =
    if n = cstr "payload-size" then some (.byteArray size)
    else if n = cstr "method-payload" then some (.byteArray payload)
    else grammarLookup g n := by
  rw [frozen, grammarLookup_insert, grammarLookup_insert]

def frozenRules : List CString := cstr "payload-size" :: cstr "method-payload" :: frameRules

theorem frameRules_plain : ∀ n ∈ frameRules, ∃ body ∈ readRule shippedConnectionEnv n,
    ∀ alt ∈ body, ∀ e ∈ alt, Plain e ∧ ∀ m ∈ e.names, m ∈ frozenRules := by
  decide +kernel

theorem frozen_plainOn (fresh : ∀ n ∈ frameRules, grammarLookup g n = none) :
    PlainOn (frozenEnv g payload size) frozenRules := by
  apply plainOn_cons
  · intro n member entry found
    have own : ∃ bs, entry = .byteArray bs := by
      rw [Option.mem_def, frozen_lookup] at found
      split at found
      · exact ⟨_, (Option.some.inj found).symm⟩
      split at found
      · exact ⟨_, (Option.some.inj found).symm⟩
      · rename_i size payload
        simp only [frozenRules, List.mem_cons, size, payload, false_or] at member
        rw [fresh n (by simpa [frameRules] using member)] at found
        cases found
    obtain ⟨bs, rfl⟩ := own
    exact ⟨[[.bytes bs]], rfl, by simp [Plain, Abnf.Element.names]⟩
  · intro n member missing
    apply frameRules_plain
    simp only [frozenRules, List.mem_cons] at member
    rcases member with rfl | rfl | member
    · simp [frozen_lookup] at missing
    · rw [frozen_lookup, if_neg (by decide), if_pos rfl] at missing
      cases missing
    · exact member

theorem frozen_read (fresh : ∀ n ∈ frameRules, grammarLookup g n = none) {n : CString}
    (member : n ∈ frameRules) {body : Abnf.Body CString}
    (read : readRule shippedConnectionEnv n = some body) :
    readRule (frozenEnv g payload size) n = some body := by
  have apart : ∀ n ∈ frameRules, n ≠ cstr "payload-size" ∧ n ≠ cstr "method-payload" := by decide
  have missing : grammarLookup (frozen g payload size) n = none := by
    rw [frozen_lookup, if_neg (apart n member).1, if_neg (apart n member).2, fresh n member]
  simpa [readRule, frozenEnv, newEnvironment, missing] using read

theorem frozen_read_own {n : CString} {bs : List UInt8}
    (own : grammarLookup (frozen g payload size) n = some (.byteArray bs)) :
    readRule (frozenEnv g payload size) n =
      some [[.bytes bs]] := by
  simp [readRule, frozenEnv, newEnvironment, own, readEntry]

/-- Around a frozen payload the rule `method` derives its frame and nothing else. -/
theorem frozen_derives (fresh : ∀ n ∈ frameRules, grammarLookup g n = none) {R : Abnf.Reading}
    {w : List UInt8}
    (d : Abnf.Derives R (rulesOf (frozenEnv g payload size)) [.rule (cstr "method")] w) :
    w = 1 :: 0 :: 0 :: (size ++ (payload ++ [0xCE])) := by
  have method : readRule (frozenEnv g payload size) (cstr "method") =
      some [[.rule (cstr "method-frame")]] := frozen_read fresh (by decide) (by decide +kernel)
  have methodFrame : readRule (frozenEnv g payload size) (cstr "method-frame") =
      some [[.bytes [1], .rule (cstr "frame-properties"), .rule (cstr "method-payload"),
        .rule (cstr "frame-end")]] := frozen_read fresh (by decide) (by decide +kernel)
  have properties : readRule (frozenEnv g payload size) (cstr "frame-properties") =
      some [[.rule (cstr "channel"), .rule (cstr "payload-size")]] :=
    frozen_read fresh (by decide) (by decide +kernel)
  have channel : readRule (frozenEnv g payload size) (cstr "channel") = some [[.bytes [0, 0]]] :=
    frozen_read fresh (by decide) (by decide +kernel)
  have frameEnd : readRule (frozenEnv g payload size) (cstr "frame-end") = some [[.bytes [0xCE]]] :=
    frozen_read fresh (by decide) (by decide +kernel)
  have methodPayload : readRule (frozenEnv g payload size) (cstr "method-payload") =
      some [[.bytes payload]] :=
    frozen_read_own (by rw [frozen_lookup, if_neg (by decide), if_pos rfl])
  have payloadSize : readRule (frozenEnv g payload size) (cstr "payload-size") =
      some [[.bytes size]] := frozen_read_own (by rw [frozen_lookup, if_pos rfl])
  rw [derives_single method, derives_single methodFrame, Abnf.derives_cons] at d
  obtain ⟨_, _, rfl, first, d⟩ := d
  rw [Abnf.derives_cons] at d
  obtain ⟨_, _, rfl, second, d⟩ := d
  rw [Abnf.derives_cons] at d
  obtain ⟨_, _, rfl, third, fourth⟩ := d
  rw [derives_single properties, Abnf.derives_cons] at second
  obtain ⟨_, _, rfl, fifth, sixth⟩ := second
  rw [derives_bytes.mp first, derives_bytes.mp ((derives_single channel).mp fifth),
    derives_bytes.mp ((derives_single payloadSize).mp sixth),
    derives_bytes.mp ((derives_single methodPayload).mp third),
    derives_bytes.mp ((derives_single frameEnd).mp fourth)]
  simp

theorem decodeMethod_frame (fresh : ∀ n ∈ frameRules, grammarLookup g n = none) {fuel : Nat}
    {d : Decoded} (y : ((shipped fuel).decodeMethod g).Yields d) {P : List UInt8 → Prop}
    (payloads : ∀ p, (decodeRule fuel (cstr "method-payload")
      (newEnvironment g shippedConnectionEnv)).Yields p → ∃ w, p = .of w ∧ P w)
    (small : ∀ w, P w → w.length < 32768) : ∃ w, P w ∧ d = .of (encodeFrame 1 0 w) := by
  obtain ⟨target, setting, decoded⟩ := (Sampler.yields_bind ..).mp y
  obtain ⟨p, first, rest⟩ := (Sampler.yields_bind ..).mp setting
  obtain ⟨w, rfl, valid⟩ := payloads p first
  have short := small w valid
  have size : intInChar (List.replicate 4 0) (w.length : Int) 0 4 = Words.bytes 4 w.length := by
    have fits : wrapUnsigned (8 * 4) (w.length : Int) = w.length := by
      unfold wrapUnsigned
      omega
    rw [intInChar, inChar_whole 4 _ _ rfl, fits]
  have entry : byteArrayEntry (.of w) = .ok (.byteArray w) := by simp [byteArrayEntry, Decoded.of]
  rw [entry, Sampler.ofExcept_ok, Sampler.bind_done] at rest
  obtain rfl : frozen g w (Words.bytes 4 w.length) = target := by
    rw [← size]
    exact rest
  have plain : PlainFrom (frozenEnv g w (Words.bytes 4 w.length)) (cstr "method") :=
    (frozen_plainOn fresh).plainFrom (by decide)
  obtain ⟨v, rfl, derived⟩ := decodeRule_derived plain.spelled fuel d decoded
  refine ⟨w, valid, ?_⟩
  rw [frozen_derives fresh (plain.derives_full derived), encodeFrame]
  simp

end Frozen

/-- The grammar of `connection_tune_ok` before its payload is frozen. -/
def tuneGrammar (channelMax frameMax : List UInt8) : Grammar :=
  (shipped 0).overwrite createGrammar [
    (cstr "method-id", .string (cstr "m31-method-id")),
    (cstr "method-properties", .string (cstr "m31-method-properties")),
    (cstr "frame-max", .byteArray frameMax),
    (cstr "channel-max", .byteArray channelMax)]

def tuneEnv (channelMax frameMax : List UInt8) : Environment :=
  newEnvironment (tuneGrammar channelMax frameMax) shippedConnectionEnv

def tuneOwnRules : List CString :=
  [cstr "channel-max", cstr "frame-max", cstr "method-properties", cstr "method-id"]

def tuneRules : List CString := tuneOwnRules ++
  [cstr "method-payload", cstr "class-id", cstr "m31-method-id", cstr "m31-method-properties",
    cstr "heartbeat-time", cstr "short-int", cstr "OCTET"]

section Tune
variable {cm fm : List UInt8}

theorem tuneGrammar_lookup (n : CString) : grammarLookup (tuneGrammar cm fm) n =
    if n = cstr "channel-max" then some (.byteArray cm)
    else if n = cstr "frame-max" then some (.byteArray fm)
    else if n = cstr "method-properties" then some (.string (cstr "m31-method-properties"))
    else if n = cstr "method-id" then some (.string (cstr "m31-method-id"))
    else none := by
  have inserted : tuneGrammar cm fm = grammarInsert (grammarInsert (grammarInsert (grammarInsert
      createGrammar (cstr "method-id") (some (.string (cstr "m31-method-id"))))
      (cstr "method-properties") (some (.string (cstr "m31-method-properties"))))
      (cstr "frame-max") (some (.byteArray fm))) (cstr "channel-max") (some (.byteArray cm)) := rfl
  simp only [inserted, grammarLookup_insert]
  rfl

theorem tuneGrammar_fresh : ∀ n ∈ frameRules, grammarLookup (tuneGrammar cm fm) n = none := by
  have apart : ∀ n ∈ frameRules, n ∉ tuneOwnRules := by decide
  intro n member
  have other := apart n member
  simp only [tuneOwnRules, List.mem_cons, List.not_mem_nil, or_false, not_or] at other
  rw [tuneGrammar_lookup, if_neg other.1, if_neg other.2.1, if_neg other.2.2.1, if_neg other.2.2.2]

theorem tuneRules_plain : ∀ n ∈ tuneRules, n ∉ tuneOwnRules →
    ∃ body ∈ readRule shippedConnectionEnv n, ∀ alt ∈ body, ∀ e ∈ alt,
      Plain e ∧ ∀ m ∈ e.names, m ∈ tuneRules := by
  decide +kernel

theorem tune_plainOn : PlainOn (tuneEnv cm fm) tuneRules := by
  apply plainOn_cons
  · intro n _ entry found
    rw [Option.mem_def, tuneGrammar_lookup] at found
    split at found
    · obtain rfl := Option.some.inj found
      exact ⟨[[.bytes cm]], rfl, by simp [Plain, Abnf.Element.names]⟩
    split at found
    · obtain rfl := Option.some.inj found
      exact ⟨[[.bytes fm]], rfl, by simp [Plain, Abnf.Element.names]⟩
    split at found
    · obtain rfl := Option.some.inj found
      exact ⟨[[.rule (cstr "m31-method-properties")]], by decide +kernel, by decide⟩
    split at found
    · obtain rfl := Option.some.inj found
      exact ⟨[[.rule (cstr "m31-method-id")]], by decide +kernel, by decide⟩
    · cases found
  · intro n member missing
    apply tuneRules_plain n member
    intro own
    rw [tuneGrammar_lookup] at missing
    simp only [tuneOwnRules, List.mem_cons, List.not_mem_nil, or_false] at own
    rcases own with rfl | rfl | rfl | rfl
    · cases missing
    · cases missing
    · cases missing
    · cases missing

theorem tune_read {n : CString} (other : n ∉ tuneOwnRules) {body : Abnf.Body CString}
    (read : readRule shippedConnectionEnv n = some body) :
    readRule (tuneEnv cm fm) n = some body := by
  simp only [tuneOwnRules, List.mem_cons, List.not_mem_nil, or_false, not_or] at other
  have missing : grammarLookup (tuneGrammar cm fm) n = none := by
    rw [tuneGrammar_lookup, if_neg other.1, if_neg other.2.1, if_neg other.2.2.1,
      if_neg other.2.2.2]
  simpa [readRule, tuneEnv, newEnvironment, missing] using read

theorem tune_read_own {n : CString} {entry : GrammarEntry} {body : Abnf.Body CString}
    (own : grammarLookup (tuneGrammar cm fm) n = some entry) (read : readEntry entry = some body) :
    readRule (tuneEnv cm fm) n = some body := by
  simpa [readRule, tuneEnv, newEnvironment, own] using read

theorem octet_derives {env : Environment} (read : readRule env (cstr "OCTET") =
    some [[.range [0] [255]]]) {n : Nat} {w : List UInt8}
    (d : Abnf.Derives Abnf.full (rulesOf env) (List.replicate n (.rule (cstr "OCTET"))) w) :
    w.length = n := by
  induction n generalizing w with
  | zero => rw [Abnf.derives_nil.mp d, List.length_nil]
  | succ n ih =>
    rw [List.replicate_succ, Abnf.derives_cons] at d
    obtain ⟨u, v, rfl, first, rest⟩ := d
    have one := (Abnf.language_range.mp ((derives_single read).mp first)).1
    rw [List.length_append, ih rest, one, List.length_singleton, Nat.add_comm]

/-- The payload of Tune-Ok: the ids, the negotiated values and two free octets. -/
theorem tune_heartbeat {w : List UInt8} (d : Abnf.Derives Abnf.full (rulesOf (tuneEnv cm fm))
    [.rule (cstr "heartbeat-time")] w) : w.length = 2 := by
  have heartbeat : readRule (tuneEnv cm fm) (cstr "heartbeat-time") =
      some [[.rule (cstr "short-int")]] := tune_read (by decide) (by decide +kernel)
  have shortInt : readRule (tuneEnv cm fm) (cstr "short-int") =
      some [[.repetition 2 (some 2) (.rule (cstr "OCTET"))]] :=
    tune_read (by decide) (by decide +kernel)
  have octet : readRule (tuneEnv cm fm) (cstr "OCTET") = some [[.range [0] [255]]] :=
    tune_read (by decide) (by decide +kernel)
  rw [derives_single heartbeat, derives_single shortInt, ← Abnf.mem_language,
    Abnf.language_repetition] at d
  obtain ⟨q, ⟨least, most⟩, free⟩ := d
  have two : q = 2 := Nat.le_antisymm (most 2 rfl) least
  rw [octet_derives octet free, two]

theorem tune_properties {w : List UInt8} (d : Abnf.Derives Abnf.full (rulesOf (tuneEnv cm fm))
    [.rule (cstr "method-properties")] w) :
    ∃ heartbeat : List UInt8, heartbeat.length = 2 ∧ w = cm ++ fm ++ heartbeat := by
  have properties : readRule (tuneEnv cm fm) (cstr "method-properties") =
      some [[.rule (cstr "m31-method-properties")]] :=
    tune_read_own (by rw [tuneGrammar_lookup]; rfl) (by decide +kernel)
  have ownProperties : readRule (tuneEnv cm fm) (cstr "m31-method-properties") =
      some [[.rule (cstr "channel-max"), .rule (cstr "frame-max"),
        .rule (cstr "heartbeat-time")]] := tune_read (by decide) (by decide +kernel)
  have channelMax : readRule (tuneEnv cm fm) (cstr "channel-max") = some [[.bytes cm]] :=
    tune_read_own (by rw [tuneGrammar_lookup]; rfl) rfl
  have frameMax : readRule (tuneEnv cm fm) (cstr "frame-max") = some [[.bytes fm]] :=
    tune_read_own (by rw [tuneGrammar_lookup]; rfl) rfl
  rw [derives_single properties, derives_single ownProperties, Abnf.derives_cons] at d
  obtain ⟨_, _, rfl, first, d⟩ := d
  rw [Abnf.derives_cons] at d
  obtain ⟨_, last, rfl, second, third⟩ := d
  refine ⟨last, tune_heartbeat third, ?_⟩
  rw [derives_bytes.mp ((derives_single channelMax).mp first),
    derives_bytes.mp ((derives_single frameMax).mp second), List.append_assoc]

theorem tune_derives {w : List UInt8}
    (d : Abnf.Derives Abnf.full (rulesOf (tuneEnv cm fm)) [.rule (cstr "method-payload")] w) :
    ∃ heartbeat : List UInt8, heartbeat.length = 2 ∧
      w = encodeMethod 10 31 (cm ++ fm ++ heartbeat) := by
  have payload : readRule (tuneEnv cm fm) (cstr "method-payload") = some [[.rule (cstr "class-id"),
      .rule (cstr "method-id"), .rule (cstr "method-properties")]] :=
    tune_read (by decide) (by decide +kernel)
  have classId : readRule (tuneEnv cm fm) (cstr "class-id") = some [[.bytes [0, 10]]] :=
    tune_read (by decide) (by decide +kernel)
  have methodId : readRule (tuneEnv cm fm) (cstr "method-id") =
      some [[.rule (cstr "m31-method-id")]] :=
    tune_read_own (by rw [tuneGrammar_lookup]; rfl) (by decide +kernel)
  have ownId : readRule (tuneEnv cm fm) (cstr "m31-method-id") = some [[.bytes [0, 31]]] :=
    tune_read (by decide) (by decide +kernel)
  rw [derives_single payload, Abnf.derives_cons] at d
  obtain ⟨_, _, rfl, first, d⟩ := d
  rw [Abnf.derives_cons] at d
  obtain ⟨_, _, rfl, second, d⟩ := d
  obtain ⟨heartbeat, free, rfl⟩ := tune_properties d
  refine ⟨heartbeat, free, ?_⟩
  rw [derives_bytes.mp ((derives_single classId).mp first),
    derives_bytes.mp ((derives_single ownId).mp ((derives_single methodId).mp second)),
    encodeMethod]
  simp

theorem tune_payload {fuel : Nat} {p : Decoded}
    (y : (decodeRule fuel (cstr "method-payload") (tuneEnv cm fm)).Yields p) :
    ∃ w, p = .of w ∧ ∃ heartbeat : List UInt8, heartbeat.length = 2 ∧
      w = encodeMethod 10 31 (cm ++ fm ++ heartbeat) := by
  have plain : PlainFrom (tuneEnv cm fm) (cstr "method-payload") :=
    tune_plainOn.plainFrom (by decide)
  obtain ⟨w, rfl, derived⟩ := decodeRule_derived plain.spelled fuel p y
  exact ⟨w, rfl, tune_derives (plain.derives_full derived)⟩

end Tune

def tunePacket (channelMax frameMax : Int) (heartbeat : List UInt8) : Decoded :=
  methodPacket 31 (Words.bytes 2 (wrapUnsigned 16 channelMax) ++
    Words.bytes 4 (wrapUnsigned 32 frameMax) ++ heartbeat)

theorem tuneOk_drawn {fuel : Nat} {heap : Memory} {methodData : Option MethodStruct} {reply : Reply}
    (y : (connectionTuneOk (shipped fuel) heap methodData).Yields reply) :
    ∃ channelMax frameMax heartbeat, heartbeat.length = 2 ∧
      (tuneParameters fuel heap methodData).Yields (channelMax, frameMax) ∧
      reply = ⟨some (tunePacket channelMax frameMax heartbeat), .connectionTuned, false⟩ := by
  obtain ⟨⟨channelMax, frameMax⟩, drawn, rest⟩ := (Sampler.yields_bind ..).mp y
  obtain ⟨d, decoded, done⟩ := (Sampler.yields_bind ..).mp rest
  have channelBytes : shortInChar (List.replicate 2 0) channelMax 0 2 =
      Words.bytes 2 (wrapUnsigned 16 channelMax) := inChar_whole 2 _ _ rfl
  have frameBytes : intInChar (List.replicate 4 0) frameMax 0 4 =
      Words.bytes 4 (wrapUnsigned 32 frameMax) := inChar_whole 4 _ _ rfl
  rw [channelBytes, frameBytes] at decoded
  have small : ∀ w : List UInt8, (∃ heartbeat : List UInt8, heartbeat.length = 2 ∧
      w = encodeMethod 10 31 (Words.bytes 2 (wrapUnsigned 16 channelMax) ++
        Words.bytes 4 (wrapUnsigned 32 frameMax) ++ heartbeat)) → w.length < 32768 := by
    rintro w ⟨heartbeat, two, rfl⟩
    simp [encodeMethod, two]
  obtain ⟨w, ⟨heartbeat, two, rfl⟩, rfl⟩ :=
    decodeMethod_frame tuneGrammar_fresh decoded (fun p first => tune_payload first) small
  exact ⟨channelMax, frameMax, heartbeat, two, drawn, done.symm⟩

theorem tuneOk_reply {fuel : Nat} {heap : Memory} {methodData : Option MethodStruct} {reply : Reply}
    (y : (connectionTuneOk (shipped fuel) heap methodData).Yields reply) :
    ∃ channelMax frameMax heartbeat, heartbeat.length = 2 ∧
      reply = ⟨some (tunePacket channelMax frameMax heartbeat), .connectionTuned, false⟩ := by
  obtain ⟨channelMax, frameMax, heartbeat, two, _, returned⟩ := tuneOk_drawn y
  exact ⟨channelMax, frameMax, heartbeat, two, returned⟩

/-! ### Every message is one frame -/

theorem MethodCall.arguments {call : MethodCall} {fuel : Nat} {reply : Reply}
    (y : (call.run (shipped fuel)).Yields reply) : ∃ arguments,
      reply.sentPacket = some (methodPacket call.methodId arguments) ∧
      arguments.length < 4096 ∧ consumesExactly call.layout arguments = true := by
  cases call with
  | startOk => exact ⟨startOkArguments, by rw [startOk_reply y]; rfl, by decide, by decide⟩
  | tuneOk heap methodData =>
    obtain ⟨channelMax, frameMax, heartbeat, two, rfl⟩ := tuneOk_reply y
    refine ⟨_, rfl, ?_, ?_⟩
    · simp [two]
    · simp [MethodCall.layout, consumesExactly, Field.consume, skip, two]
  | connectionOpen => exact ⟨openArguments, by rw [open_reply y]; rfl, by decide, by decide⟩
  | close => exact ⟨closeArguments, by rw [close_reply y]; rfl, by decide, by decide⟩
  | closeOk => exact ⟨[], by rw [closeOk_reply y]; rfl, by decide, by decide⟩

/-- The bytes and the size of the packet are one frame of the method on channel 0,
and reading it back gives what it was built from. -/
structure OneMethodFrame (methodId : Nat) (layout : List Field) (packet : Decoded) : Prop where
  size : packet.length = packet.bytes.length
  frame : ∃ arguments, packet.bytes = 1 :: (Words.bytes 2 0 ++ Words.bytes 4 (packet.length - 8) ++
      (Words.bytes 2 10 ++ Words.bytes 2 methodId ++ arguments) ++ [0xCE]) ∧
    consumesExactly layout arguments = true ∧
    breakPacket (bufferMemory packet.bytes) = .ok (.method 0 (packet.length - 8)
      ⟨10, methodId, arguments, arguments.length⟩)

theorem methodPacket_oneFrame {methodId : Nat} {layout : List Field} {arguments : List UInt8}
    (known : methodId < 65536) (short : arguments.length < 4096)
    (consumed : consumesExactly layout arguments = true) :
    OneMethodFrame methodId layout (methodPacket methodId arguments) := by
  have bytes : (methodPacket methodId arguments).bytes =
      encodeFrame 1 0 (encodeMethod 10 methodId arguments) := rfl
  have payload : (encodeMethod 10 methodId arguments).length = arguments.length + 4 := by
    simp [encodeMethod]
  have length : (methodPacket methodId arguments).length - 8 = arguments.length + 4 := by
    simp [methodPacket, Decoded.of, length_encodeFrame, payload]
  refine ⟨rfl, arguments, ?_, consumed, ?_⟩
  · rw [length, bytes, encodeFrame, payload]
    rfl
  · have broken : breakPacket (bufferMemory
        (encodeFrame 1 0 (encodeMethod 10 methodId arguments) ++ [])) = _ :=
      breakPacket_method (by decide) (by decide) known (by omega) (by omega)
    rw [List.append_nil] at broken
    rw [length, bytes]
    exact broken

/-- Every message of Connection.c is exactly one well-formed method frame. -/
theorem generators_one_frame (call : MethodCall) (fuel : Nat) (draws rest : RandStream)
    (reply : Reply) (returns : (call.run (shipped fuel)).run draws = .ok (reply, rest)) :
    ∃ packet, reply.sentPacket = some packet ∧ OneMethodFrame call.methodId call.layout packet := by
  obtain ⟨arguments, sent, short, consumed⟩ :=
    MethodCall.arguments (Sampler.yields_of_run returns)
  have known : call.methodId < 65536 := by cases call <;> simp [MethodCall.methodId]
  exact ⟨_, sent, methodPacket_oneFrame known short consumed⟩

/-- A Tune with channel-max 0, frame-max 8192 and heartbeat 60, answered on a constant stream. -/
theorem generators_one_frame_tuneOk : ∃ packet,
    (⟨some (tunePacket 0 5000 [155, 155]), .connectionTuned, false⟩ : Reply).sentPacket =
      some packet ∧ OneMethodFrame 31 [.short, .long, .short] packet := by
  obtain ⟨rest, returns⟩ := Sampler.run_of_map_fst (show (((MethodCall.tuneOk (fun _ => none)
    (some ⟨10, 30, [0, 0, 0, 0, 0x20, 0, 0, 60], 8⟩)).run (shipped 20)).run
    (Stream'.const 5000)).map Prod.fst =
      .ok ⟨some (tunePacket 0 5000 [155, 155]), .connectionTuned, false⟩ by decide +kernel)
  exact generators_one_frame _ 20 _ _ _ returns

end Amqpgram
