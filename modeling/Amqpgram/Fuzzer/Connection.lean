import Amqpgram.Fuzzer.GrammarInterface
import Amqpgram.Fuzzer.Packet
import Amqpgram.Grammar.Files

/-! Connection.c: the messages of the Connection class. Each generator puts a
grammar of its own in front of the connection grammar, freezes the rules whose
lengths it needs and decodes the rule `method`. -/
namespace Amqpgram

/-- The states of AMQP.c; Connection.c writes them as numbers. -/
inductive State where
  | noop
  | none
  | connectionStart
  | connectionTune
  | connectionTuned
  | connectionOpen
  | connected
  | connectionClose
  | connectionCloseOK
  | connectionClosed
  deriving DecidableEq, Repr

/-- What a call leaves in `next_state` and `response_expected`, and the packet it
returns with its size; `none` is NULL. -/
structure Reply where
  sentPacket : Option Decoded
  nextState : State
  responseExpected : Bool
  deriving DecidableEq, Repr

/-- RULE_CHAOS and the global environments. The fuel bounds the calls and loops
of the generators. -/
structure Fuzzer where
  fuel : Nat
  ruleChaos : Int
  protocolEnv : Environment
  connectionEnv : Environment

def setupConnectionEnv (ruleChaos : Int) (initialEnv : Environment) :
    Except Fault Environment := do
  let connectionGrammar ← generateGrammar grammarConnection
  let connectionGrammar := overwriteRuleWithChaos ruleChaos connectionGrammar initialEnv
    (cstr "short-string") (.function .shortstringGenerator)
  let connectionGrammar := overwriteRuleWithChaos ruleChaos connectionGrammar initialEnv
    (cstr "long-string") (.function .longstringGenerator)
  pure (newEnvironment connectionGrammar initialEnv)

/-- Several rules put over the environment one after the other. -/
def Fuzzer.overwrite (f : Fuzzer) (mutableGrammar : Grammar)
    (rules : List (CString × GrammarEntry)) : Grammar :=
  rules.foldl (fun g rule => overwriteRuleWithChaos f.ruleChaos g
    (newEnvironment g f.connectionEnv) rule.1 rule.2) mutableGrammar

def Fuzzer.setLength (f : Fuzzer) (ruleToDecode lengthRule : CString) (mutableGrammar : Grammar) :
    Gen Grammar :=
  overwriteRuleSetLength f.fuel f.ruleChaos ruleToDecode lengthRule 4 mutableGrammar f.connectionEnv

/-- The end of every generator: the payload is frozen with its size and the
method decoded around it. -/
def Fuzzer.decodeMethod (f : Fuzzer) (mutableGrammar : Grammar) : Gen Decoded := do
  let mutableGrammar ← f.setLength (cstr "method-payload") (cstr "payload-size") mutableGrammar
  decodeRule f.fuel (cstr "method") (newEnvironment mutableGrammar f.connectionEnv)

def connectionStartOk (f : Fuzzer) : Gen Reply := do
  let mutableGrammar := f.overwrite createGrammar [
    (cstr "method-id", .string (cstr "m11-method-id")),
    (cstr "method-properties", .string (cstr "m11-method-properties"))]
  let mutableGrammar ← f.setLength (cstr "client-properties-payload")
    (cstr "client-properties-length") mutableGrammar
  let mutableGrammar := f.overwrite mutableGrammar [
    (cstr "authcid", .string (cstr "\"username\"")),
    (cstr "passwd", .string (cstr "\"password\""))]
  let mutableGrammar ← f.setLength (cstr "message") (cstr "message-length") mutableGrammar
  let result ← f.decodeMethod mutableGrammar
  pure ⟨some result, .connectionStart, true⟩

/-- `while (frame_max != 0 && frame_max < 4095)`, entered with -1. The sum wraps. -/
def frameMaxLoop (receivedFrameMax : Int) : Nat → Int → Gen Int
  | 0, _ => .fail .outOfFuel
  | turns + 1, frameMax =>
    if frameMax ≠ 0 ∧ frameMax < 4095 then do
      let drawn ← randMod (wrapSigned 32 (receivedFrameMax + 1))
      frameMaxLoop receivedFrameMax turns drawn
    else pure frameMax

/-- The argument array with what the heap holds behind it. -/
def argumentsMemory (methodData : MethodStruct) (heap : Memory) : Memory := fun i =>
  if i < methodData.argumentsByteArray.length then methodData.argumentsByteArray[i]? else heap i

def tuneParameters (fuel : Nat) (heap : Memory) : Option MethodStruct → Gen (Int × Int)
  | none => pure (0xFFFF, -1)
  | some methodData => do
    let arguments := argumentsMemory methodData heap
    let receivedChannelMax ← .ofExcept (charInShort arguments 0)
    let receivedFrameMax ← .ofExcept (charInInt arguments 2)
    let channelMax ← randMod (receivedChannelMax + 1)
    let frameMax ← frameMaxLoop receivedFrameMax fuel (-1)
    pure (channelMax, frameMax)

def connectionTuneOk (f : Fuzzer) (heap : Memory) (methodData : Option MethodStruct) :
    Gen Reply := do
  let (channelMax, frameMax) ← tuneParameters f.fuel heap methodData
  let mutableGrammar := f.overwrite createGrammar [
    (cstr "method-id", .string (cstr "m31-method-id")),
    (cstr "method-properties", .string (cstr "m31-method-properties")),
    (cstr "frame-max", .byteArray (intInChar (List.replicate 4 0) frameMax 0 4)),
    (cstr "channel-max", .byteArray (shortInChar (List.replicate 2 0) channelMax 0 2))]
  let result ← f.decodeMethod mutableGrammar
  pure ⟨some result, .connectionTuned, false⟩

def connectionOpen (f : Fuzzer) : Gen Reply := do
  let mutableGrammar := f.overwrite createGrammar [
    (cstr "method-id", .string (cstr "m40-method-id")),
    (cstr "method-properties", .string (cstr "m40-method-properties")),
    (cstr "virtual-host", .string (cstr "%x01.2F"))]
  let result ← f.decodeMethod mutableGrammar
  pure ⟨some result, .connectionOpen, true⟩

def connectionClose (f : Fuzzer) : Gen Reply := do
  let mutableGrammar := f.overwrite createGrammar [
    (cstr "method-id", .string (cstr "m50-method-id")),
    (cstr "method-properties", .string (cstr "m50-method-properties")),
    (cstr "reply-code", .string (cstr "%x00.C8")),
    (cstr "reply-text", .string (cstr "%x03.32.30.30")),
    (cstr "m50-class-id-val", .string (cstr "%x00.00")),
    (cstr "m50-method-id-val", .string (cstr "%x00.00"))]
  let result ← f.decodeMethod mutableGrammar
  pure ⟨some result, .connectionCloseOK, true⟩

def connectionCloseOk (f : Fuzzer) : Gen Reply := do
  let mutableGrammar := f.overwrite createGrammar [
    (cstr "method-id", .string (cstr "m51-method-id")),
    (cstr "method-properties", .string (cstr "m51-method-properties"))]
  let result ← f.decodeMethod mutableGrammar
  pure ⟨some result, .connectionCloseOK, true⟩

def classConnection : Nat := 10

/-- The methods that Connection.c names; SECURE falls through to OPEN_OK. -/
def connectionMethodDecider (f : Fuzzer) (heap : Memory) (methodData : MethodStruct)
    (responseExpected : Bool) : Gen Reply :=
  if methodData.classId ≠ classConnection then
    pure ⟨none, .connectionCloseOK, responseExpected⟩
  else
    match methodData.methodId with
    | 10 => connectionStartOk f
    | 30 => connectionTuneOk f heap (some methodData)
    | 20 => pure ⟨none, .connected, false⟩
    | 41 => pure ⟨none, .connected, false⟩
    | 50 => connectionCloseOk f
    | 51 => pure ⟨none, .connectionClosed, false⟩
    | _ => pure ⟨none, .none, responseExpected⟩

/-- How a decider can end other than by returning: a generator it called did not
return, it dereferenced a NULL `method_data`, or it freed a pointer that was never
assigned. -/
inductive Crash where
  | fault (fault : Fault)
  | nullMethodData
  | strayPointer
  deriving DecidableEq, Repr

abbrev Act := Sampler Crash Draw

/-- Without method data only the states Tuned and Connected return before it is
dereferenced. -/
def connectionPacketDecider (f : Fuzzer) (heap : Memory) (methodData : Option MethodStruct)
    (nextState : State) (responseExpected : Bool) : Act Reply :=
  match methodData with
  | some methodData =>
    (connectionMethodDecider f heap methodData responseExpected).mapError .fault
  | none =>
    match nextState with
    | .connectionTuned => (connectionOpen f).mapError .fault
    | .connected => (connectionClose f).mapError .fault
    | _ => .fail .nullMethodData

/-! ### The shipped environments -/

/-- `protocol_env` after `setup_protocol_env`. -/
def shippedProtocolEnv : Environment := newEnvironment protocolGrammar []

/-- `connection_env` after `setup_connection_env` with RULE_CHAOS = 0. -/
def shippedConnectionEnv : Environment :=
  newEnvironment (grammarInsert (grammarInsert connectionGrammar (cstr "short-string")
    (some (.function .shortstringGenerator))) (cstr "long-string")
    (some (.function .longstringGenerator))) shippedProtocolEnv

theorem setupConnectionEnv_shipped :
    setupConnectionEnv 0 shippedProtocolEnv = .ok shippedConnectionEnv := by
  rw [setupConnectionEnv, generateGrammar_connection]
  rfl

/-- The fuzzer as shipped, at RULE_CHAOS = 0. -/
def shipped (fuel : Nat) : Fuzzer := ⟨fuel, 0, shippedProtocolEnv, shippedConnectionEnv⟩

end Amqpgram
