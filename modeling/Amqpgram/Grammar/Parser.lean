import Mathlib.Data.List.Induction
import Mathlib.Logic.Function.Basic
import Amqpgram.Library.Tokens
import Amqpgram.Machine

/-! grammar-parser.c: the rule table, its environments and the reader of the
ABNF files. A hash table is the function from a key to the entry stored under
it, `none` being NULL. -/
namespace Amqpgram

/-- The functions of Connection.c that a FUNCTION entry can hold. -/
inductive GenFunction where
  | shortstringGenerator
  | longstringGenerator
  deriving DecidableEq, Repr

inductive GrammarEntry where
  | string (strEntry : CString)
  | stringArray (strArrayEntry : List CString)
  | byteArray (strEntry : List UInt8)
  | function (generatorFunction : GenFunction)
  deriving DecidableEq, Repr

abbrev Grammar := CString → Option GrammarEntry
abbrev Environment := List Grammar

def createGrammar : Grammar := fun _ => none

def grammarLookup (grammar : Grammar) (key : CString) : Option GrammarEntry := grammar key

/-- Inserting NULL leaves a key that is looked up as if it were absent. -/
def grammarInsert (grammar : Grammar) (key : CString) (value : Option GrammarEntry) : Grammar :=
  Function.update grammar key value

def environmentLookup (environment : Environment) (key : CString) : Option GrammarEntry :=
  environment.findSome? fun grammar => grammarLookup grammar key

def newEnvironment (grammar : Grammar) (next : Environment) : Environment := grammar :: next

theorem grammarLookup_insert (g : Grammar) (k l : CString) (v : Option GrammarEntry) :
    grammarLookup (grammarInsert g k v) l = if l = k then v else grammarLookup g l :=
  Function.update_apply ..

@[simp] theorem grammarLookup_insert_self (g : Grammar) (k : CString) (v : Option GrammarEntry) :
    grammarLookup (grammarInsert g k v) k = v := Function.update_self ..

theorem grammarLookup_insert_of_ne (g : Grammar) {k l : CString} (v : Option GrammarEntry)
    (h : l ≠ k) : grammarLookup (grammarInsert g k v) l = grammarLookup g l :=
  Function.update_of_ne h ..

@[simp] theorem environmentLookup_nil (k : CString) : environmentLookup [] k = none := rfl

@[simp] theorem environmentLookup_cons (g : Grammar) (env : Environment) (k : CString) :
    environmentLookup (g :: env) k = (grammarLookup g k).or (environmentLookup env k) := by
  cases h : grammarLookup g k <;> simp [environmentLookup, h]

def isBlank (c : Char) : Bool := c == ' ' || c == '\t' || c == '\n' || c == '\r'

/-- The backward scan of `trim_string`. The argument is `end + 1`, which is 0
for the empty string. -/
def trimEnd (str : CString) (start : Nat) : Nat → Nat
  | 0 => 0
  | last + 1 =>
    if start < last ∧ str[last]?.any isBlank then trimEnd str start last else last + 1

def trimString (str : CString) : CString :=
  let start := (str.takeWhile isBlank).length
  (str.take (trimEnd str start str.length)).drop start

def parseValue (readValue : CString) : Except Fault GrammarEntry :=
  match Tokens.tokens '/' readValue with
  | [] => .error .nullPointer
  | entry :: others =>
    if entry = readValue then .ok (.string readValue)
    else .ok (.stringArray ((entry :: others).map trimString))

/-- The lines `fgets(line, 2048, ...)` returns: each up to its newline, and no
longer than the room in the buffer. -/
def fgetsLines (room : Nat) (line : CString) : CString → List CString
  | [] => if line.isEmpty then [] else [line.reverse]
  | c :: text =>
    if c = '\n' ∨ room ≤ 1 then (c :: line).reverse :: fgetsLines 2047 [] text
    else fgetsLines (room - 1) (c :: line) text

/-- One turn of the loop of `populate_grammar`: the key and entry to insert, if any. -/
def parseLine (line : CString) : Except Fault (Option (CString × GrammarEntry)) :=
  match Tokens.firstToken '=' line with
  | none => .error .nullPointer
  | some (key, rest) =>
    match Tokens.firstToken ';' rest with
    | none => .ok none
    | some (value, _) => do
      let entry ← parseValue (trimString value)
      pure (some (trimString key, entry))

def insertRule (grammar : Grammar) : Option (CString × GrammarEntry) → Grammar
  | none => grammar
  | some (key, entry) => grammarInsert grammar key (some entry)

def populateGrammar (grammar : Grammar) (file : CString) : Except Fault Grammar :=
  (fgetsLines 2047 [] file).foldlM (fun g line => insertRule g <$> parseLine line) grammar

def generateGrammar (file : CString) : Except Fault Grammar :=
  populateGrammar createGrammar file

def grammarInit (file abnfFile : CString) : Except Fault Grammar := do
  let grammar ← generateGrammar file
  populateGrammar grammar abnfFile

/-- The rules of a file in the order they are inserted. -/
def fileRules (file : CString) : Except Fault (List (CString × GrammarEntry)) := do
  let rules ← (fgetsLines 2047 [] file).mapM parseLine
  pure (rules.filterMap id)

/-- The grammar that holds the last entry of each key. -/
def insertRules (grammar : Grammar) (rules : List (CString × GrammarEntry)) : Grammar :=
  rules.foldl (fun g r => grammarInsert g r.1 (some r.2)) grammar

theorem foldlM_insertRule (lines : List CString) (g : Grammar)
    (rules : List (Option (CString × GrammarEntry))) (read : lines.mapM parseLine = .ok rules) :
    lines.foldlM (fun g line => insertRule g <$> parseLine line) g =
      .ok (insertRules g (rules.filterMap id)) := by
  induction lines generalizing g rules with
  | nil => cases Except.ok.inj read; rfl
  | cons line lines ih =>
    rw [List.mapM_cons] at read
    cases hp : parseLine line with
    | error e => rw [hp] at read; cases read
    | ok r =>
      cases hm : lines.mapM parseLine with
      | error e => rw [hp, hm] at read; cases read
      | ok rs =>
        rw [hp, hm] at read
        cases Except.ok.inj read
        rw [List.foldlM_cons, hp]
        have tail := ih (insertRule g r) rs hm
        cases r with
        | none => exact tail
        | some r => exact tail

theorem populateGrammar_eq {file : CString} {rules : List (CString × GrammarEntry)}
    (read : fileRules file = .ok rules) (g : Grammar) :
    populateGrammar g file = .ok (insertRules g rules) := by
  cases hm : (fgetsLines 2047 [] file).mapM parseLine with
  | error e => rw [fileRules, hm] at read; cases read
  | ok rs =>
    rw [fileRules, hm] at read
    cases Except.ok.inj read
    exact foldlM_insertRule _ g rs hm

theorem insertRules_append (g : Grammar) (rs ss : List (CString × GrammarEntry)) :
    insertRules g (rs ++ ss) = insertRules (insertRules g rs) ss := List.foldl_append

theorem grammarInit_eq {file abnfFile : CString} {rs ss : List (CString × GrammarEntry)}
    (read : fileRules file = .ok rs) (readAbnf : fileRules abnfFile = .ok ss) :
    grammarInit file abnfFile = .ok (insertRules createGrammar (rs ++ ss)) := by
  rw [grammarInit, generateGrammar, populateGrammar_eq read, insertRules_append]
  exact populateGrammar_eq readAbnf _

theorem grammarLookup_insertRules (g : Grammar) (rules : List (CString × GrammarEntry))
    (key : CString) :
    grammarLookup (insertRules g rules) key =
      (rules.reverse.lookup key).or (grammarLookup g key) := by
  induction rules using List.reverseRecOn with
  | nil => rfl
  | append_singleton rules r ih =>
    rw [insertRules_append, List.reverse_concat, List.lookup_cons]
    change grammarLookup (grammarInsert _ r.1 (some r.2)) key = _
    by_cases same : key = r.1
    · simp [same]
    · have miss : (key == r.1) = false := beq_eq_false_iff_ne.mpr same
      rw [grammarLookup_insert_of_ne _ _ same, ih, miss]

end Amqpgram
