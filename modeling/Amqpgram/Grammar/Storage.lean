import Amqpgram.Grammar.Parser
import Amqpgram.Library.Ownership

/-! grammar-parser.c: entries, tables and environments as the blocks they are kept in. The
hash table of glib is a block of rows. It destroys the values it lets go of with
`free_grammar_entry_t`; its keys are pointers into blocks of the caller's, and it frees
none of them. -/
namespace Amqpgram.Storage
open Heap

inductive ValueType where
  | string
  | stringArray
  | byteArray
  | function
  deriving DecidableEq, Repr

/-- `grammar_entry_t`; `none` is NULL. -/
structure EntryStruct where
  entryType : ValueType
  strEntry : Option Nat
  strArrayEntry : Option Nat
  arraySize : Nat
  generatorFunction : Option GenFunction
  deriving DecidableEq, Repr

/-- What `calloc` makes of it. -/
def EntryStruct.zeroed : EntryStruct := ⟨.string, none, none, 0, none⟩

/-- The pointers to a key and to its value. -/
structure Row where
  key : Nat
  value : Option Nat
  deriving DecidableEq, Repr

inductive Block where
  | text (s : CString)
  | bytes (bs : List UInt8)
  | pointers (ps : List (Option Nat))
  | entry (e : EntryStruct)
  | table (rows : List Row)
  | node (grammar next : Option Nat)

def Block.text? : Block → Option CString
  | .text s => some s
  | _ => none

def Block.bytes? : Block → Option (List UInt8)
  | .bytes bs => some bs
  | _ => none

def Block.pointers? : Block → Option (List (Option Nat))
  | .pointers ps => some ps
  | _ => none

def Block.entry? : Block → Option EntryStruct
  | .entry e => some e
  | _ => none

def Block.table? : Block → Option (List Row)
  | .table rows => some rows
  | _ => none

def Block.node? : Block → Option (Option Nat × Option Nat)
  | .node grammar next => some (grammar, next)
  | _ => none

abbrev Run := Prog Block

/-- The blocks of a heap with their contents. -/
abbrev Memory := Multiset (Nat × Block)

/-! ### Entries -/

def getPointer (array i : Nat) : Run (Option Nat) := do
  let ps ← readAs Block.pointers? array
  match ps[i]? with
  | some p => pure p
  | none => throw .dangling

def setPointer (array i : Nat) (p : Nat) : Run Unit := do
  let ps ← readAs Block.pointers? array
  if i < ps.length then assign array (.pointers (ps.set i (some p))) else throw .dangling

/-- The loop over an array of strings, in `new_grammar_entry_t` and `copy_grammar_entry_t`. -/
def copyStrings (array source : Nat) : Nat → Nat → Run Unit
  | _, 0 => pure ()
  | i, left + 1 => do
    let s ← readAs Block.text? (← deref (← getPointer source i))
    let text ← alloc (.text s)
    setPointer array i text
    copyStrings array source (i + 1) left

/-- The arguments that the type of an entry selects: a text by its content, an array by its
pointer and size. -/
inductive NewEntry where
  | string (strEntry : CString)
  | stringArray (strArrayEntry arraySize : Nat)
  | byteArray (strEntry : List UInt8)
  | function (generatorFunction : GenFunction)

def newGrammarEntryT (value : NewEntry) : Run Nat := do
  let new ← alloc (.entry .zeroed)
  match value with
  | .string strEntry =>
    let text ← alloc (.text strEntry)
    assign new (.entry { EntryStruct.zeroed with entryType := .string, strEntry := some text })
  | .stringArray strArrayEntry arraySize =>
    let array ← alloc (.pointers (List.replicate arraySize none))
    copyStrings array strArrayEntry 0 arraySize
    assign new (.entry { EntryStruct.zeroed with
      entryType := .stringArray
      strArrayEntry := some array
      arraySize := arraySize })
  | .byteArray strEntry =>
    let bytes ← alloc (.bytes strEntry)
    assign new (.entry { EntryStruct.zeroed with
      entryType := .byteArray
      strEntry := some bytes
      arraySize := strEntry.length })
  | .function generatorFunction =>
    assign new (.entry { EntryStruct.zeroed with
      entryType := .function
      generatorFunction := some generatorFunction })
  pure new

def freePointer : Option Nat → Run Unit
  | none => pure ()
  | some p => free p

def freeStrings (array : Nat) : Nat → Nat → Run Unit
  | _, 0 => pure ()
  | i, left + 1 => do
    freePointer (← getPointer array i)
    freeStrings array (i + 1) left

def freeArray (size : Nat) : Option Nat → Run Unit
  | none => pure ()
  | some array => do
    freeStrings array 0 size
    free array

def freeGrammarEntryT : Option Nat → Run Unit
  | none => pure ()
  | some entry => do
    let e ← readAs Block.entry? entry
    freePointer e.strEntry
    freeArray e.arraySize e.strArrayEntry
    free entry

def copyStrEntry (e : EntryStruct) (held : Option Nat) : Run (Option Nat) :=
  match e.strEntry, e.entryType with
  | some strEntry, .string => do
    let s ← readAs Block.text? strEntry
    let text ← alloc (.text s)
    pure (some text)
  | some strEntry, .byteArray => do
    let bs ← readAs Block.bytes? strEntry
    if e.arraySize ≤ bs.length then
      let bytes ← alloc (.bytes (bs.take e.arraySize))
      pure (some bytes)
    else throw .dangling
  | _, _ => pure held

def copyStrArrayEntry (e : EntryStruct) (held : Option Nat) : Run (Option Nat) :=
  match e.strArrayEntry with
  | some source => do
    let array ← alloc (.pointers (List.replicate e.arraySize none))
    copyStrings array source 0 e.arraySize
    pure (some array)
  | none => pure held

def copyGrammarEntryT (dest src : Option Nat) : Run (Option Nat) :=
  match src with
  | none => pure none
  | some src => do
    let e ← readAs Block.entry? src
    let dest ← match dest with
      | some dest => pure dest
      | none => alloc (.entry .zeroed)
    let d ← readAs Block.entry? dest
    let strEntry ← copyStrEntry e d.strEntry
    let strArrayEntry ← copyStrArrayEntry e d.strArrayEntry
    assign dest (.entry ⟨e.entryType, strEntry, strArrayEntry, e.arraySize, e.generatorFunction⟩)
    pure (some dest)

/-! ### Tables -/

/-- `g_hash_table_lookup`, which compares what the pointers to the keys lead to. -/
def findRow (key : CString) : List Row → Run (Option Nat)
  | [] => pure none
  | row :: rows => do
    let name ← readAs Block.text? row.key
    if name = key then pure row.value else findRow key rows

/-- The rows with the value under the key, and the value it replaces. A row that is there
keeps its pointer to the key. -/
def putRow (key : Nat) (text : CString) (value : Option Nat) :
    List Row → Run (List Row × Option (Option Nat))
  | [] => pure ([⟨key, value⟩], none)
  | row :: rows => do
    let name ← readAs Block.text? row.key
    if name = text then pure (⟨row.key, value⟩ :: rows, some row.value)
    else
      let (rows, replaced) ← putRow key text value rows
      pure (row :: rows, replaced)

def createGrammar : Run Nat := alloc (.table [])

def grammarLookup (grammar : Nat) (key : CString) : Run (Option Nat) := do
  let rows ← readAs Block.table? grammar
  copyGrammarEntryT none (← findRow key rows)

/-- `g_hash_table_insert`: the value replaced is destroyed; true when the key is new. -/
def grammarInsert (grammar key : Nat) (value : Option Nat) : Run Bool := do
  let rows ← readAs Block.table? grammar
  let text ← readAs Block.text? key
  let (rows, replaced) ← putRow key text value rows
  assign grammar (.table rows)
  freeGrammarEntryT replaced.join
  pure replaced.isNone

def freeRows : List Row → Run Unit
  | [] => pure ()
  | row :: rows => do
    freeGrammarEntryT row.value
    freeRows rows

def freeGrammar : Option Nat → Run Unit
  | none => pure ()
  | some grammar => do
    let rows ← readAs Block.table? grammar
    freeRows rows
    free grammar

def copyRows (copied toCopy keys : Nat) : Nat → Nat → Run Unit
  | _, 0 => pure ()
  | i, left + 1 => do
    let key ← deref (← getPointer keys i)
    let value ← grammarLookup toCopy (← readAs Block.text? key)
    let _ ← grammarInsert copied key value
    copyRows copied toCopy keys (i + 1) left

/-- The array of keys is the caller's to free, not the keys in it. -/
def copyGrammar (toCopy : Nat) : Run Nat := do
  let copied ← alloc (.table [])
  let rows ← readAs Block.table? toCopy
  let keys ← alloc (.pointers (rows.map fun row => some row.key))
  copyRows copied toCopy keys 0 rows.length
  free keys
  pure copied

/-! ### Files -/

/-- The tokens behind the first; `realloc` is a new block and a free of the old one. -/
def growStrings (array : Nat) : List CString → Run Nat
  | [] => pure array
  | entry :: entries => do
    let ps ← readAs Block.pointers? array
    let moved ← alloc (.pointers (ps ++ [none]))
    free array
    let text ← alloc (.text (trimString entry))
    setPointer moved ps.length text
    growStrings moved entries

/-- The array is not freed after `new_grammar_entry_t` has copied it. -/
def parseTokens (readValue entry : CString) (entries : List CString) : Run Nat :=
  if entry = readValue then newGrammarEntryT (.string readValue)
  else do
    let array ← alloc (.pointers [none])
    let text ← alloc (.text (trimString entry))
    setPointer array 0 text
    let array ← growStrings array entries
    newGrammarEntryT (.stringArray array (entries.length + 1))

def parseValue (readValue : CString) : Run Nat := do
  let moddedValue ← alloc (.text readValue)
  match Tokens.tokens '/' readValue with
  | [] => throw .null
  | entry :: entries =>
    let retVal ← parseTokens readValue entry entries
    free moddedValue
    pure retVal

/-- One turn of the loop of `populate_grammar`. The block of the line goes on as that of the
key cut off from it; it is freed where there is no rule. -/
def populateLine (grammar : Nat) (line : CString) : Run Unit := do
  let toParse ← alloc (.text line)
  match Tokens.firstToken '=' line with
  | none => throw .null
  | some (key, rest) =>
    assign toParse (.text (trimString key))
    match Tokens.firstToken ';' rest with
    | none => free toParse
    | some (value, _) =>
      let entry ← parseValue (trimString value)
      let _ ← grammarInsert grammar toParse (some entry)
      pure ()

def populateLines (grammar buffer : Nat) : List CString → Run Unit
  | [] => pure ()
  | line :: lines => do
    assign buffer (.text line)
    populateLine grammar line
    populateLines grammar buffer lines

def populateGrammar (grammar : Nat) (file : CString) : Run Unit := do
  let line ← alloc (.text [])
  populateLines grammar line (fgetsLines 2047 [] file)
  free line

def generateGrammar (file : CString) : Run Nat := do
  let grammar ← createGrammar
  populateGrammar grammar file
  pure grammar

/-! ### Environments -/

def newEnvironment (grammar next : Option Nat) : Run Nat := alloc (.node grammar next)

def freeEnvironment : Option Nat → Run Unit
  | none => pure ()
  | some node => do
    let (grammar, _) ← readAs Block.node? node
    freeGrammar grammar
    assign node (.node none none)
    free node

/-- The loop over the chain, with the turns it is given. -/
def environmentLookup : Nat → Option Nat → CString → Run (Option Nat)
  | _, none, _ => pure none
  | 0, some _, _ => throw .endless
  | turns + 1, some node, key => do
    let (grammar, next) ← readAs Block.node? node
    match ← grammarLookup (← deref grammar) key with
    | some result => pure (some result)
    | none => environmentLookup turns next key

end Amqpgram.Storage
