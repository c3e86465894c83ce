import Amqpgram.Grammar.Storage

/-! Who owns which block. An entry owns its struct, its text or its array with the strings
in it; a table owns its values and borrows its keys. Every operation of grammar-parser.c
is described by the blocks it adds or takes away, whatever else the heap holds. -/
namespace Amqpgram.Storage
open Heap

/-- One block for each string. -/
def texts (ps : List Nat) (strings : List CString) : Memory :=
  ↑(List.zipWith (fun p s => (p, Block.text s)) ps strings)

/-- The blocks of an entry, none of them shared. -/
inductive EntryAt (p : Nat) : GrammarEntry → Memory → Prop where
  | string (s : CString) (q : Nat) :
      EntryAt p (.string s) ({(p, .entry ⟨.string, some q, none, 0, none⟩)} + {(q, .text s)})
  | stringArray (strings : List CString) (a : Nat) (qs : List Nat)
      (length : qs.length = strings.length) :
      EntryAt p (.stringArray strings)
        ({(p, .entry ⟨.stringArray, none, some a, strings.length, none⟩)} +
          ({(a, .pointers (qs.map some))} + texts qs strings))
  | byteArray (bs : List UInt8) (q : Nat) :
      EntryAt p (.byteArray bs)
        ({(p, .entry ⟨.byteArray, some q, none, bs.length, none⟩)} + {(q, .bytes bs)})
  | function (f : GenFunction) :
      EntryAt p (.function f) {(p, .entry ⟨.function, none, none, 0, some f⟩)}

/-- NULL owns nothing. -/
inductive ValueAt : Option Nat → Option GrammarEntry → Memory → Prop where
  | null : ValueAt none none 0
  | entry {p : Nat} {e : GrammarEntry} {m : Memory} (at_ : EntryAt p e m) :
      ValueAt (some p) (some e) m

section
variable {before rest : Memory} {array i : Nat}

@[simp] theorem texts_cons (p : Nat) (ps : List Nat) (s : CString) (strings : List CString) :
    texts (p :: ps) (s :: strings) = {(p, .text s)} + texts ps strings := rfl

@[simp] theorem texts_nil : texts [] [] = 0 := rfl

theorem mem_of_part {x : Nat × Block} {m : Memory} (held : m ≤ before) (member : x ∈ m) :
    x ∈ before := Multiset.mem_of_le held member

theorem mem_new {d : Nat} {b : Block} {m : Memory} : (d, b) ∈ {(d, b)} + m := by simp

theorem getPointer_does {ps : List (Option Nat)} {p : Option Nat}
    (block : (array, .pointers ps) ∈ before) (inside : ps[i]? = some p) :
    Does (getPointer array i) before fun q after => q = p ∧ after = before := by
  apply (readAs_does Block.pointers? block rfl).step
  rw [inside]
  exact .pure ⟨rfl, rfl⟩

theorem setPointer_does {ps : List (Option Nat)} {p : Nat}
    (split : before = {(array, .pointers ps)} + rest) (inside : i < ps.length) :
    Does (setPointer array i p) before fun _ after =>
      after = {(array, .pointers (ps.set i (some p)))} + rest := by
  have block : (array, Block.pointers ps) ∈ before := by simp [split]
  apply (readAs_does Block.pointers? block rfl).step
  rw [if_pos inside]
  exact assign_does rest split

/-- The next pointer of an array that is filled from the front. -/
theorem set_next (filled : List Nat) (p : Nat) (left : Nat) :
    (filled.map some ++ List.replicate (left + 1) none).set filled.length (some p) =
      (filled ++ [p]).map some ++ List.replicate left none := by
  rw [List.set_append_right _ _ (by simp), List.replicate_succ]
  simp

theorem getElem?_of_drop {ps : List (Option Nat)} {q : Nat} {qs : List Nat}
    (left : ps.drop i = (q :: qs).map some) :
    ps[i]? = some (some q) ∧ ps.drop (i + 1) = qs.map some := by
  constructor
  · have first := congrArg (fun l => l[0]?) left
    simpa using first
  · have behind := congrArg (List.drop 1) left
    simpa [Nat.add_comm] using behind

theorem copyStrings_does {source : Nat} {ps : List (Option Nat)} (rest : Memory) {qs : List Nat}
    {strings : List CString} (filled : List Nat) (block : (source, .pointers ps) ∈ rest)
    (left : ps.drop filled.length = qs.map some) (length : qs.length = strings.length)
    (held : texts qs strings ≤ rest) (split : before =
      {(array, .pointers (filled.map some ++ List.replicate strings.length none))} + rest) :
    Does (copyStrings array source filled.length strings.length) before fun _ after =>
      ∃ copies : List Nat, copies.length = strings.length ∧
        after = {(array, .pointers ((filled ++ copies).map some))} +
          (texts copies strings + rest) := by
  induction strings generalizing before rest filled qs with
  | nil =>
    subst split
    exact .pure ⟨[], rfl, by simp⟩
  | cons s strings ih =>
    obtain ⟨q, qs, rfl⟩ := List.exists_cons_of_length_eq_add_one length
    obtain ⟨inside, behind⟩ := getElem?_of_drop left
    rw [texts_cons] at held
    have still : (source, Block.pointers ps) ∈ before := by simp [split, block]
    have text : (q, Block.text s) ∈ before := by
      rw [split]
      exact Multiset.mem_add.mpr (.inr (Multiset.mem_of_le held (by simp)))
    apply (getPointer_does still inside).step
    apply deref_does.step
    apply (readAs_does Block.text? text rfl).step
    apply alloc_does.bind
    rintro copy _ rfl
    have later : {(copy, Block.text s)} + before =
        {(array, .pointers (filled.map some ++ List.replicate (strings.length + 1) none))} +
          ({(copy, .text s)} + rest) := by
      rw [split, List.length_cons]
      abel
    apply (setPointer_does later (by simp)).seq
    intro _
    rw [set_next]
    have fewer : texts qs strings ≤ {(copy, Block.text s)} + rest :=
      ((Multiset.le_add_left _ _).trans held).trans (Multiset.le_add_left _ _)
    have next := ih ({(copy, .text s)} + rest) (filled ++ [copy]) (by simp [block])
      (by simpa using behind) (by simpa using length) fewer rfl
    rw [List.length_append, List.length_singleton] at next
    apply next.mono
    rintro _ _ ⟨copies, count, rfl⟩
    refine ⟨copy :: copies, by simp [count], ?_⟩
    simp only [List.append_assoc, List.singleton_append, texts_cons]
    abel

/-- The entry that the arguments make, read from the heap. -/
inductive NewEntry.Means (before : Memory) : NewEntry → GrammarEntry → Prop where
  | string (s : CString) : Means before (.string s) (.string s)
  | stringArray (strings : List CString) {a : Nat} {qs : List Nat}
      (length : qs.length = strings.length) (array : (a, Block.pointers (qs.map some)) ∈ before)
      (held : texts qs strings ≤ before) :
      Means before (.stringArray a strings.length) (.stringArray strings)
  | byteArray (bs : List UInt8) : Means before (.byteArray bs) (.byteArray bs)
  | function (f : GenFunction) : Means before (.function f) (.function f)

theorem newGrammarEntryT_does {value : NewEntry} {e : GrammarEntry}
    (means : value.Means before e) : Does (newGrammarEntryT value) before fun p after =>
      ∃ m, EntryAt p e m ∧ after = m + before := by
  apply alloc_does.bind
  rintro p _ rfl
  cases means with
  | string s =>
    apply alloc_does.bind
    rintro q _ rfl
    apply (assign_does (v := .entry .zeroed) ({(q, .text s)} + before) (by abel)).seq
    intro _
    exact .pure ⟨_, .string s q, by rw [add_assoc]; rfl⟩
  | @stringArray strings source qs length array held =>
    apply alloc_does.bind
    rintro a _ rfl
    have whole : texts qs strings ≤ {(p, Block.entry .zeroed)} + before :=
      held.trans (Multiset.le_add_left _ _)
    have still : (source, Block.pointers (qs.map some)) ∈ {(p, Block.entry .zeroed)} + before :=
      mem_of_part (Multiset.le_add_left _ _) array
    apply (copyStrings_does _ [] still rfl length whole rfl).bind
    rintro _ _ ⟨copies, count, rfl⟩
    apply (assign_does (v := .entry .zeroed)
      ({(a, .pointers (copies.map some))} + (texts copies strings + before)) (by
        simp only [List.nil_append]
        abel)).seq
    intro _
    refine .pure ⟨_, .stringArray strings a copies count, ?_⟩
    rw [add_assoc, add_assoc]
    rfl
  | byteArray bs =>
    apply alloc_does.bind
    rintro q _ rfl
    apply (assign_does (v := .entry .zeroed) ({(q, .bytes bs)} + before) (by abel)).seq
    intro _
    exact .pure ⟨_, .byteArray bs q, by rw [add_assoc]; rfl⟩
  | function f =>
    apply (assign_does before rfl).seq
    intro _
    exact .pure ⟨_, .function f, rfl⟩

theorem freePointer_does {p : Nat} {b : Block} (rest : Memory) (split : before = {(p, b)} + rest) :
    Does (freePointer (some p)) before fun _ after => after = rest := free_does rest split

theorem freeStrings_does (ps : List (Option Nat)) {qs : List Nat} {strings : List CString}
    (block : (array, .pointers ps) ∈ rest) (left : ps.drop i = qs.map some)
    (length : qs.length = strings.length) (split : before = texts qs strings + rest) :
    Does (freeStrings array i strings.length) before fun _ after => after = rest := by
  induction strings generalizing before i qs with
  | nil =>
    obtain rfl := List.eq_nil_of_length_eq_zero length
    subst split
    exact .pure (by simp)
  | cons s strings ih =>
    obtain ⟨q, qs, rfl⟩ := List.exists_cons_of_length_eq_add_one length
    obtain ⟨inside, behind⟩ := getElem?_of_drop left
    have still : (array, Block.pointers ps) ∈ before := by simp [split, block]
    apply (getPointer_does still inside).step
    rw [texts_cons, add_assoc] at split
    apply (freePointer_does _ split).seq
    intro _
    exact ih behind (by simpa using length) rfl

theorem freeArray_does {a : Nat} {qs : List Nat} {strings : List CString}
    (length : qs.length = strings.length)
    (split : before = {(a, .pointers (qs.map some))} + texts qs strings + rest) :
    Does (freeArray strings.length (some a)) before fun _ after => after = rest := by
  have parts : before = texts qs strings + ({(a, .pointers (qs.map some))} + rest) := by
    rw [split]
    abel
  apply (freeStrings_does (qs.map some) (by simp) (by simp) length parts).seq
  intro _
  exact free_does rest rfl

theorem freeGrammarEntryT_does (rest : Memory) {p : Option Nat} {e : Option GrammarEntry}
    {m : Memory} (owned : ValueAt p e m) (split : before = m + rest) :
    Does (freeGrammarEntryT p) before fun _ after => after = rest := by
  cases owned with
  | null =>
    subst split
    exact .pure (by simp)
  | @entry p e m at_ =>
    cases at_ with
    | string s q =>
      have struct : (p, Block.entry ⟨.string, some q, none, 0, none⟩) ∈ before := by simp [split]
      have parts : before = {(q, .text s)} +
          ({(p, .entry ⟨.string, some q, none, 0, none⟩)} + rest) := by
        rw [split]
        abel
      apply (readAs_does Block.entry? struct rfl).step
      apply (freePointer_does _ parts).seq
      intro _
      exact free_does rest rfl
    | stringArray strings a qs length =>
      have struct :
          (p, Block.entry ⟨.stringArray, none, some a, strings.length, none⟩) ∈ before := by
        simp [split]
      have parts : before = {(a, .pointers (qs.map some))} + texts qs strings +
          ({(p, .entry ⟨.stringArray, none, some a, strings.length, none⟩)} + rest) := by
        rw [split]
        abel
      apply (readAs_does Block.entry? struct rfl).step
      apply Does.skip
      apply (freeArray_does length parts).seq
      intro _
      exact free_does rest rfl
    | byteArray bs q =>
      have struct : (p, Block.entry ⟨.byteArray, some q, none, bs.length, none⟩) ∈ before := by
        simp [split]
      have parts : before = {(q, .bytes bs)} +
          ({(p, .entry ⟨.byteArray, some q, none, bs.length, none⟩)} + rest) := by
        rw [split]
        abel
      apply (readAs_does Block.entry? struct rfl).step
      apply (freePointer_does _ parts).seq
      intro _
      exact free_does rest rfl
    | function f =>
      have struct : (p, Block.entry ⟨.function, none, none, 0, some f⟩) ∈ before := by
        simp [split]
      apply (readAs_does Block.entry? struct rfl).step
      apply Does.skip
      apply Does.skip
      exact free_does rest split

/-! ### Copies of entries -/

theorem copyStrEntry_text {q size : Nat} {s : CString} {a : Option Nat} {f : Option GenFunction}
    (text : (q, Block.text s) ∈ before) (held : Option Nat) :
    Does (copyStrEntry ⟨.string, some q, a, size, f⟩ held) before fun p after =>
      ∃ d, p = some d ∧ after = {(d, .text s)} + before := by
  apply (readAs_does Block.text? text rfl).step
  apply alloc_does.bind
  rintro d _ rfl
  exact .pure ⟨d, rfl, rfl⟩

theorem copyStrEntry_bytes {q : Nat} {bs : List UInt8} {a : Option Nat} {f : Option GenFunction}
    (bytes : (q, Block.bytes bs) ∈ before) (held : Option Nat) :
    Does (copyStrEntry ⟨.byteArray, some q, a, bs.length, f⟩ held) before fun p after =>
      ∃ d, p = some d ∧ after = {(d, .bytes bs)} + before := by
  apply (readAs_does Block.bytes? bytes rfl).step
  rw [if_pos (Nat.le_refl _), List.take_length]
  apply alloc_does.bind
  rintro d _ rfl
  exact .pure ⟨d, rfl, rfl⟩

theorem copyStrArrayEntry_does {a : Nat} {qs : List Nat} {strings : List CString}
    {q : Option Nat} {f : Option GenFunction} (length : qs.length = strings.length)
    (array : (a, Block.pointers (qs.map some)) ∈ before) (owned : texts qs strings ≤ before)
    (held : Option Nat) :
    Does (copyStrArrayEntry ⟨.stringArray, q, some a, strings.length, f⟩ held) before
      fun p after => ∃ d copies, copies.length = strings.length ∧ p = some d ∧
        after = {(d, .pointers (copies.map some))} + (texts copies strings + before) := by
  apply alloc_does.bind
  rintro d _ rfl
  apply (copyStrings_does before [] array rfl length owned rfl).bind
  rintro _ _ ⟨copies, count, rfl⟩
  exact .pure ⟨d, copies, count, rfl, rfl⟩

theorem copyGrammarEntryT_begins {p : Nat} {e : EntryStruct}
    {post : Option Nat → Memory → Prop} (struct : (p, Block.entry e) ∈ before)
    (fields : ∀ d, Does (do
      let strEntry ← copyStrEntry e none
      let strArrayEntry ← copyStrArrayEntry e none
      assign d (.entry ⟨e.entryType, strEntry, strArrayEntry, e.arraySize, e.generatorFunction⟩)
      pure (some d)) ({(d, Block.entry .zeroed)} + before) post) :
    Does (copyGrammarEntryT none (some p)) before post := by
  apply (readAs_does Block.entry? struct rfl).step
  apply alloc_does.bind
  rintro d _ rfl
  apply (readAs_does Block.entry? mem_new rfl).step
  exact fields d

theorem copyGrammarEntryT_does {p : Nat} {e : GrammarEntry} {m : Memory} (at_ : EntryAt p e m)
    (held : m ≤ before) :
    Does (copyGrammarEntryT none (some p)) before fun q after =>
      ∃ copy, ValueAt q (some e) copy ∧ after = copy + before := by
  have kept : ∀ d, m ≤ {(d, Block.entry .zeroed)} + before :=
    fun d => held.trans (Multiset.le_add_left _ _)
  cases at_ with
  | string s q =>
    have struct : (p, Block.entry ⟨.string, some q, none, 0, none⟩) ∈ before :=
      mem_of_part held (by simp)
    apply copyGrammarEntryT_begins struct
    intro d
    apply (copyStrEntry_text (s := s) (mem_of_part (kept d) (by simp)) none).bind
    rintro _ _ ⟨c, rfl, rfl⟩
    apply Does.skip
    apply (assign_does (v := .entry .zeroed) ({(c, .text s)} + before) (by abel)).seq
    intro _
    exact .pure ⟨_, .entry (.string s c), (add_assoc ..).symm⟩
  | stringArray strings a qs length =>
    have struct : (p, Block.entry ⟨.stringArray, none, some a, strings.length, none⟩) ∈ before :=
      mem_of_part held (by simp)
    apply copyGrammarEntryT_begins struct
    intro d
    apply Does.skip
    have array : (a, Block.pointers (qs.map some)) ∈ {(d, Block.entry .zeroed)} + before :=
      mem_of_part (kept d) (by simp)
    have owned : texts qs strings ≤ {(d, Block.entry .zeroed)} + before :=
      (Multiset.le_add_left _ _).trans ((Multiset.le_add_left _ _).trans (kept d))
    apply (copyStrArrayEntry_does length array owned none).bind
    rintro _ _ ⟨c, copies, count, rfl, rfl⟩
    apply (assign_does (v := .entry .zeroed)
      ({(c, .pointers (copies.map some))} + (texts copies strings + before)) (by abel)).seq
    intro _
    refine .pure ⟨_, .entry (.stringArray strings c copies count), ?_⟩
    rw [add_assoc, add_assoc]
  | byteArray bs q =>
    have struct : (p, Block.entry ⟨.byteArray, some q, none, bs.length, none⟩) ∈ before :=
      mem_of_part held (by simp)
    apply copyGrammarEntryT_begins struct
    intro d
    apply (copyStrEntry_bytes (mem_of_part (kept d) (by simp)) none).bind
    rintro _ _ ⟨c, rfl, rfl⟩
    apply Does.skip
    apply (assign_does (v := .entry .zeroed) ({(c, .bytes bs)} + before) (by abel)).seq
    intro _
    exact .pure ⟨_, .entry (.byteArray bs c), (add_assoc ..).symm⟩
  | function f =>
    have struct : (p, Block.entry ⟨.function, none, none, 0, some f⟩) ∈ before :=
      mem_of_part held (by simp)
    apply copyGrammarEntryT_begins struct
    intro d
    apply Does.skip
    apply Does.skip
    apply (assign_does before rfl).seq
    intro _
    exact .pure ⟨_, .entry (.function f), rfl⟩

end

/-! ### Tables -/

/-- The keys of a table, by the pointers that lead to them. -/
abbrev Keys := List (Nat × CString)

def Keys.names (ks : Keys) : List CString := ks.map Prod.snd

/-- The blocks that a table reads its keys in. -/
def Keys.lines (ks : Keys) : Memory := ↑(ks.map fun k => (k.1, Block.text k.2))

def Keys.has (ks : Keys) (key : CString) : Bool := ks.names.any (· = key)

def Keys.insert (ks : Keys) (p : Nat) (key : CString) : Keys :=
  if ks.has key then ks else ks ++ [(p, key)]

/-- The rows of a table with the values that a grammar has for their keys. The keys are not
among the blocks of the rows. -/
inductive RowsAt (grammar : Grammar) : Keys → List Row → Memory → Prop
  | nil : RowsAt grammar [] [] 0
  | cons {p : Nat} {key : CString} {value : Option Nat} {ks : Keys} {rows : List Row}
      {m m' : Memory} (first : ValueAt value (grammar key) m) (others : RowsAt grammar ks rows m') :
      RowsAt grammar ((p, key) :: ks) (⟨p, value⟩ :: rows) (m + m')

/-- The blocks of a table that holds a grammar under these keys. -/
inductive TableAt (g : Nat) (grammar : Grammar) (ks : Keys) : Memory → Prop
  | table {rows : List Row} {m : Memory} (owned : RowsAt grammar ks rows m)
      (distinct : ks.names.Nodup) (absent : ∀ key, key ∉ ks.names → grammar key = none) :
      TableAt g grammar ks ({(g, .table rows)} + m)

section
variable {before rest m : Memory} {grammar : Grammar} {g p : Nat} {key : CString} {ks : Keys}
variable {rows : List Row}

@[simp] theorem Keys.names_cons (k : Nat × CString) (ks : Keys) :
    Keys.names (k :: ks) = k.2 :: ks.names := rfl

@[simp] theorem Keys.has_iff : ks.has key = true ↔ key ∈ ks.names := by simp [Keys.has]

@[simp] theorem Keys.names_append (ks ls : Keys) :
    Keys.names (ks ++ ls) = ks.names ++ ls.names := List.map_append

theorem Keys.mem_lines_cons {b : Nat × Block} {k : Nat × CString} :
    b ∈ Keys.lines (k :: ks) ↔ b = (k.1, .text k.2) ∨ b ∈ ks.lines := by
  simp [Keys.lines]

theorem Keys.insert_cons (k : Nat × CString) (other : k.2 ≠ key) :
    Keys.insert (k :: ks) p key = k :: ks.insert p key := by
  simp only [Keys.insert, Keys.has_iff, Keys.names_cons, List.mem_cons, Ne.symm other, false_or]
  split <;> rfl

theorem Keys.lines_insert {b : Nat × Block} (member : b ∈ (ks.insert p key).lines) :
    b ∈ ks.lines ∨ b = (p, .text key) := by
  unfold Keys.insert at member
  split at member
  · exact .inl member
  · simpa [Keys.lines] using member

theorem Keys.mem_names_insert {k : CString} :
    k ∈ (ks.insert p key).names ↔ k ∈ ks.names ∨ k = key := by
  unfold Keys.insert
  split
  · rename_i there
    rw [Keys.has_iff] at there
    exact ⟨.inl, fun either => either.elim id fun same => same ▸ there⟩
  · simp [Keys.names]

theorem Keys.nodup_insert (distinct : ks.names.Nodup) : (ks.insert p key).names.Nodup := by
  unfold Keys.insert
  split
  · exact distinct
  · rename_i new
    rw [Keys.has_iff] at new
    rw [Keys.names, List.map_append, List.nodup_append]
    refine ⟨distinct, by simp, ?_⟩
    rintro k there _ last rfl
    obtain rfl : k = key := by simpa using last
    exact new there

theorem RowsAt.congr {other : Grammar} (rowsAt : RowsAt grammar ks rows m)
    (same : ∀ key ∈ ks.names, other key = grammar key) : RowsAt other ks rows m := by
  induction rowsAt with
  | nil => exact .nil
  | @cons p key value ks rows own m' first others ih =>
    refine .cons ?_ (ih fun k member => same k (List.mem_cons_of_mem _ member))
    rw [same key (List.mem_cons_self ..)]
    exact first

theorem RowsAt.keys (rowsAt : RowsAt grammar ks rows m) : rows.map Row.key = ks.map Prod.fst := by
  induction rowsAt with
  | nil => rfl
  | cons first others ih => rw [List.map_cons, List.map_cons, ih]

/-- The row of a key is found by reading the keys, and its value is one of the table's. -/
theorem findRow_does (owned : RowsAt grammar ks rows m) (lent : ks.lines ⊆ before)
    (absent : key ∉ ks.names → grammar key = none) :
    Does (findRow key rows) before fun value after => after = before ∧
      ∃ own ≤ m, ValueAt value (grammar key) own := by
  induction owned with
  | nil =>
    refine .pure ⟨rfl, 0, Multiset.zero_le _, ?_⟩
    rw [absent List.not_mem_nil]
    exact .null
  | @cons p k value ks rows own m' first others ih =>
    have name : (p, Block.text k) ∈ before := lent (Keys.mem_lines_cons.mpr (.inl rfl))
    apply (readAs_does Block.text? name rfl).step
    by_cases same : k = key
    · rw [if_pos same]
      subst same
      exact .pure ⟨rfl, own, Multiset.le_add_right _ _, first⟩
    · rw [if_neg same]
      have others := ih (fun b member => lent (Keys.mem_lines_cons.mpr (.inr member)))
        fun out => absent (by simp [Ne.symm same, out])
      apply others.mono
      rintro value after ⟨unchanged, own', part, held⟩
      exact ⟨unchanged, own', part.trans (Multiset.le_add_left _ _), held⟩

/-- A value is put under its key; what it replaces is no longer in the table. -/
theorem putRow_does {value : Option Nat} {e : Option GrammarEntry} {own : Memory}
    (owned : RowsAt grammar ks rows m) (lent : ks.lines ⊆ before) (distinct : ks.names.Nodup)
    (held : ValueAt value e own) :
    Does (putRow p key value rows) before fun put after => after = before ∧
      ∃ kept gone e', RowsAt (Amqpgram.grammarInsert grammar key e) (ks.insert p key) put.1
        (own + kept) ∧ ValueAt put.2.join e' gone ∧ m = gone + kept := by
  have own_value : ValueAt value (Amqpgram.grammarInsert grammar key e key) own := by
    rwa [Amqpgram.grammarInsert, Function.update_self]
  induction owned with
  | nil => exact .pure ⟨rfl, 0, 0, none, .cons own_value .nil, .null, rfl⟩
  | @cons q k old ks rows mine m' first others ih =>
    have name : (q, Block.text k) ∈ before := lent (Keys.mem_lines_cons.mpr (.inl rfl))
    obtain ⟨apart, distinct⟩ := List.nodup_cons.mp distinct
    apply (readAs_does Block.text? name rfl).step
    by_cases same : k = key
    · rw [if_pos same]
      subst same
      have there : Keys.insert ((q, k) :: ks) p k = (q, k) :: ks :=
        if_pos (Keys.has_iff.mpr (List.mem_cons_self ..))
      have updated : RowsAt (Amqpgram.grammarInsert grammar k e) ks rows m' := by
        apply others.congr
        intro key member
        have other : key ≠ k := fun same => apart (same ▸ member)
        rw [Amqpgram.grammarInsert, Function.update_of_ne other]
      refine .pure ⟨rfl, m', mine, grammar k, ?_, first, rfl⟩
      rw [there]
      exact .cons own_value updated
    · rw [if_neg same]
      have later := ih (fun b member => lent (Keys.mem_lines_cons.mpr (.inr member))) distinct
      apply later.bind
      rintro ⟨rows', replaced⟩ _ ⟨rfl, kept, gone, e', put, value', rfl⟩
      refine .pure ⟨rfl, mine + kept, gone, e', ?_, value', by abel⟩
      rw [Keys.insert_cons (k := (q, k)) same]
      have mine_value : ValueAt old (Amqpgram.grammarInsert grammar key e k) mine := by
        rwa [Amqpgram.grammarInsert, Function.update_of_ne same]
      have whole := RowsAt.cons (p := q) mine_value put
      have order : mine + (own + kept) = own + (mine + kept) := by abel
      rwa [order] at whole

/-- A lookup returns a copy that shares nothing with the table. -/
theorem grammarLookup_does (key : CString) (at_ : TableAt g grammar ks m) (held : m ≤ before)
    (lent : ks.lines ⊆ before) :
    Does (grammarLookup g key) before fun p after =>
      ∃ copy, ValueAt p (grammar key) copy ∧ after = copy + before := by
  cases at_ with
  | @table rows m owned distinct absent =>
    have block : (g, Block.table rows) ∈ before := mem_of_part held (by simp)
    apply (readAs_does Block.table? block rfl).step
    apply (findRow_does owned lent (absent key)).bind
    rintro p _ ⟨rfl, own, inside, value⟩
    generalize grammar key = e at value ⊢
    cases value with
    | null => exact .pure ⟨0, .null, by simp⟩
    | entry at_ =>
      exact copyGrammarEntryT_does at_ ((inside.trans (Multiset.le_add_left _ _)).trans held)

/-- An insertion takes over the new value and destroys the one it replaces. It borrows the
key, unless there is a row that has one already. -/
theorem grammarInsert_does (rest : Memory) {value : Option Nat} {e : Option GrammarEntry}
    {own : Memory} (at_ : TableAt g grammar ks m) (held : ValueAt value e own)
    (split : before = m + (own + rest)) (lent : ks.lines ⊆ rest) (text : (p, .text key) ∈ rest) :
    Does (grammarInsert g p value) before fun _ after =>
      ∃ m', TableAt g (Amqpgram.grammarInsert grammar key e) (ks.insert p key) m' ∧
        after = m' + rest := by
  have inside : rest ≤ before := by
    rw [split]
    exact (Multiset.le_add_left _ _).trans (Multiset.le_add_left _ _)
  cases at_ with
  | @table rows m owned distinct absent =>
    have block : (g, Block.table rows) ∈ before := by simp [split]
    apply (readAs_does Block.table? block rfl).step
    apply (readAs_does Block.text? (mem_of_part inside text) rfl).step
    apply (putRow_does owned (fun b member => mem_of_part inside (lent member)) distinct held).bind
    rintro ⟨rows', replaced⟩ _ ⟨rfl, kept, gone, e', put, value', rfl⟩
    rw [add_assoc] at split
    apply (assign_does _ split).seq
    intro _
    apply (freeGrammarEntryT_does ({(g, .table rows')} + (own + kept + rest)) value' (by abel)).seq
    intro _
    refine .pure ⟨_, .table put (Keys.nodup_insert distinct) ?_, by abel⟩
    intro k out
    rw [Keys.mem_names_insert, not_or] at out
    rw [Amqpgram.grammarInsert, Function.update_of_ne out.2]
    exact absent k out.1

theorem createGrammar_does : Does createGrammar before fun g after =>
    ∃ m, TableAt g Amqpgram.createGrammar [] m ∧ after = m + before := by
  apply alloc_does.mono
  rintro g _ rfl
  exact ⟨_, .table .nil .nil fun _ _ => rfl, by simp⟩

theorem freeRows_does (owned : RowsAt grammar ks rows m) (split : before = m + rest) :
    Does (freeRows rows) before fun _ after => after = rest := by
  induction owned generalizing before with
  | nil =>
    subst split
    exact .pure (by simp)
  | cons first others ih =>
    rw [add_assoc] at split
    apply (freeGrammarEntryT_does _ first split).seq
    intro _
    exact ih rfl

/-- A table that is destroyed takes its values with it and none of its keys. -/
theorem freeGrammar_does (rest : Memory) (at_ : TableAt g grammar ks m)
    (split : before = m + rest) :
    Does (freeGrammar (some g)) before fun _ after => after = rest := by
  cases at_ with
  | @table rows m owned =>
    have block : (g, Block.table rows) ∈ before := by simp [split]
    have parts : before = m + ({(g, .table rows)} + rest) := by
      rw [split]
      abel
    apply (readAs_does Block.table? block rfl).step
    apply (freeRows_does owned parts).seq
    intro _
    exact free_does rest rfl

end

/-! ### Copies of tables -/

/-- The part of a grammar that has these keys. -/
def Keys.part (ks : Keys) (grammar : Grammar) : Grammar :=
  fun key => if ks.has key then grammar key else none

section
variable {before rest m : Memory} {grammar : Grammar} {g : Nat} {ks : Keys}

theorem TableAt.distinct (at_ : TableAt g grammar ks m) : ks.names.Nodup := by
  cases at_ with
  | table _ distinct _ => exact distinct

theorem TableAt.part (at_ : TableAt g grammar ks m) : ks.part grammar = grammar := by
  cases at_ with
  | table _ _ absent =>
    funext key
    unfold Keys.part
    split
    · rfl
    · rename_i out
      rw [Keys.has_iff] at out
      exact (absent key out).symm

theorem Keys.part_insert (k : Nat × CString) :
    Amqpgram.grammarInsert (ks.part grammar) k.2 (grammar k.2) =
      Keys.part (ks ++ [k]) grammar := by
  have names : Keys.names [k] = [k.2] := rfl
  funext key
  by_cases same : key = k.2
  · subst same
    simp [Amqpgram.grammarInsert, Keys.part, names]
  · simp [Amqpgram.grammarInsert, Keys.part, names, same]

theorem copyRows_does {copied keys : Nat} {own : Memory} (left done : Keys)
    (source : TableAt g grammar (done ++ left) m) (kept : m ≤ rest)
    (lent : Keys.lines (done ++ left) ⊆ rest)
    (array : (keys, Block.pointers ((done ++ left).map fun k => some k.1)) ∈ rest)
    (target : TableAt copied (done.part grammar) done own) (split : before = own + rest) :
    Does (copyRows copied g keys done.length left.length) before fun _ after =>
      ∃ own', TableAt copied (Keys.part (done ++ left) grammar) (done ++ left) own' ∧
        after = own' + rest := by
  induction left generalizing before done own with
  | nil =>
    subst split
    rw [List.append_nil]
    exact .pure ⟨own, target, rfl⟩
  | cons k left ih =>
    have inside : rest ≤ before := split ▸ Multiset.le_add_left _ _
    have member : k ∈ done ++ k :: left := by simp
    have name : (k.1, Block.text k.2) ∈ rest := lent (by
      rw [Keys.lines, Multiset.mem_coe]
      exact List.mem_map_of_mem member)
    have earlier : done.lines ⊆ rest := by
      intro b there
      refine lent ?_
      rw [Keys.lines, List.map_append, Multiset.mem_coe, List.mem_append]
      exact .inl there
    apply (getPointer_does (mem_of_part inside array) (p := some k.1) (by simp)).step
    apply deref_does.step
    apply (readAs_does Block.text? (mem_of_part inside name) rfl).step
    apply (grammarLookup_does k.2 source (kept.trans inside)
      fun b there => mem_of_part inside (lent there)).bind
    rintro value _ ⟨copy, copies, rfl⟩
    have parts : copy + before = own + (copy + rest) := by
      rw [split]
      abel
    apply (grammarInsert_does rest target copies parts earlier name).bind
    rintro _ _ ⟨own', inserted, rfl⟩
    have new : k.2 ∉ done.names := by
      intro there
      have distinct := source.distinct
      rw [Keys.names_append, List.nodup_append] at distinct
      exact distinct.2.2 _ there _ (List.mem_cons_self ..) rfl
    have appended : done.insert k.1 k.2 = done ++ [k] := if_neg (Keys.has_iff.not.mpr new)
    have next : done ++ k :: left = (done ++ [k]) ++ left := by simp
    rw [appended, Keys.part_insert] at inserted
    rw [next] at source lent array ⊢
    have later := ih (done ++ [k]) source lent array inserted rfl
    rwa [List.length_append] at later

/-- A copy holds the same grammar under the same pointers to keys, and in blocks of its own
for the values. The original is as it was. -/
theorem copyGrammar_does (source : TableAt g grammar ks m) (kept : m ≤ before)
    (lent : ks.lines ⊆ before) :
    Does (copyGrammar g) before fun copied after => ∃ own,
      TableAt copied grammar ks own ∧ after = own + before := by
  apply alloc_does.bind
  rintro copied _ rfl
  have at_ := source
  cases at_ with
  | @table rows m owned distinct absent =>
    have block : (g, Block.table rows) ∈ before := mem_of_part kept (by simp)
    apply (readAs_does Block.table? (mem_of_part (Multiset.le_add_left _ _) block) rfl).step
    apply alloc_does.bind
    rintro keys _ rfl
    have pointers : rows.map (fun row => some row.key) = ks.map fun k => some k.1 := by
      have named := congrArg (List.map some) owned.keys
      rw [List.map_map, List.map_map] at named
      exact named
    have length : rows.length = ks.length := by
      have named := congrArg List.length owned.keys
      simpa using named
    have target : TableAt copied (Keys.part [] grammar) [] ({(copied, .table [])} + 0) :=
      .table .nil .nil fun _ _ => rfl
    rw [pointers, length]
    have whole : before ≤ {(keys, Block.pointers (ks.map fun k => some k.1))} + before :=
      Multiset.le_add_left _ _
    apply (copyRows_does ks [] source (kept.trans whole)
      (fun b there => mem_of_part whole (lent there)) mem_new target (by
        rw [add_zero]
        abel)).bind
    rintro _ _ ⟨own, filled, rfl⟩
    rw [List.nil_append, source.part] at filled
    apply (free_does (v := .pointers (ks.map fun k => some k.1)) (own + before) (by abel)).seq
    intro _
    exact .pure ⟨own, filled, rfl⟩

end

end Amqpgram.Storage
