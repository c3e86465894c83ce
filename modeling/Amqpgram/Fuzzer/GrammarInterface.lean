import Amqpgram.Grammar.Fuel

/-! Grammar_Interface.c: rules put over those of the environment. A grammar that
is being changed is the first of its environment, so each change is seen by the
decoding after it. -/
namespace Amqpgram

def chaosRule (rule : CString) : CString := cstr "fuzzer-chaos-" ++ rule

def orderRule (rule : CString) : CString := cstr "fuzzer-order-" ++ rule

/-- The rule over an array of references to its two versions. -/
def insertVersions (targetGrammar : Grammar) (environment : Environment) (rule : CString)
    (orderedRule : GrammarEntry) (ruleArray : List CString) : Grammar :=
  let target := grammarInsert targetGrammar (chaosRule rule) (environmentLookup environment rule)
  let target := grammarInsert target (orderRule rule) (some orderedRule)
  grammarInsert target rule (some (.stringArray ruleArray))

def overwriteRuleWithChaos (ruleChaos : Int) (targetGrammar : Grammar) (environment : Environment)
    (rule : CString) (orderedRule : GrammarEntry) : Grammar :=
  let order := orderRule rule
  let chaos := chaosRule rule
  match ruleChaos with
  | 0 => grammarInsert targetGrammar rule (some orderedRule)
  | 1 => insertVersions targetGrammar environment rule orderedRule [chaos, order, order, order]
  | 2 => insertVersions targetGrammar environment rule orderedRule [order, chaos]
  | 3 => insertVersions targetGrammar environment rule orderedRule [chaos, chaos, chaos, order]
  | _ => targetGrammar

/-- `array_size` bytes are copied out of the entry on every lookup. -/
def byteArrayEntry (decoded : Decoded) : Except Fault GrammarEntry :=
  if decoded.length ≤ decoded.bytes.length then .ok (.byteArray (decoded.bytes.take decoded.length))
  else .error .outOfBounds

/-- A rule is decoded, frozen as the bytes it was decoded to, and their number
written over the length rule. -/
def overwriteRuleSetLength (fuel : Nat) (ruleChaos : Int) (ruleToDecode lengthRule : CString)
    (lengthSize : Nat) (grammar : Grammar) (next : Environment) : Gen Grammar := do
  let decodedRule ← decodeRule fuel ruleToDecode (newEnvironment grammar next)
  let entry ← .ofExcept (byteArrayEntry decodedRule)
  let grammar := overwriteRuleWithChaos ruleChaos grammar (newEnvironment grammar next)
    ruleToDecode entry
  let decodedLengthLiteral :=
    intInChar (List.replicate lengthSize 0) decodedRule.length 0 lengthSize
  pure (overwriteRuleWithChaos ruleChaos grammar (newEnvironment grammar next) lengthRule
    (.byteArray decodedLengthLiteral))

theorem overwriteRuleSetLength_extends {less more : Nat} (le : less ≤ more) (ruleChaos : Int)
    (ruleToDecode lengthRule : CString) (lengthSize : Nat) (grammar : Grammar)
    (next : Environment) :
    Extends (overwriteRuleSetLength less ruleChaos ruleToDecode lengthRule lengthSize grammar next)
      (overwriteRuleSetLength more ruleChaos ruleToDecode lengthRule lengthSize grammar next) := by
  apply Sampler.Refines.bind (decodeRule_extends le ruleToDecode)
  intro decodedRule
  exact .bind (.refl _ _) fun _ => .refl _ _

end Amqpgram
