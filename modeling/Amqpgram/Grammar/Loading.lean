import Amqpgram.Grammar.Parser

/-! Grammar files read back. A rendered rule passes through the line reader, the cuts
at `=`, `;` and `/` and the trimming, and is inserted as the entry it was made from. -/
namespace Amqpgram

/-- A text that `trim_string` leaves as it is. -/
structure Trimmed (s : CString) : Prop where
  nonempty : s ≠ []
  first : ∀ c ∈ s.head?, isBlank c = false
  last : ∀ c ∈ s.getLast?, isBlank c = false

instance : DecidablePred Trimmed := fun s =>
  decidable_of_iff (s ≠ [] ∧ s.head?.all (!isBlank ·) = true ∧ s.getLast?.all (!isBlank ·) = true)
    (by
      simp only [Option.all_eq_true, Bool.not_eq_true']
      exact ⟨fun h => ⟨h.1, h.2.1, h.2.2⟩, fun h => ⟨h.nonempty, h.first, h.last⟩⟩)

/-! ### Trimming -/

section Trim
variable (left right : CString) {s : CString}

theorem takeWhile_blank (blank : ∀ c ∈ left, isBlank c = true) (trimmed : Trimmed s) :
    (left ++ s ++ right).takeWhile isBlank = left := by
  obtain ⟨c, s, rfl⟩ := List.exists_cons_of_ne_nil trimmed.nonempty
  have first := trimmed.first c rfl
  rw [List.append_assoc, List.takeWhile_append_of_pos blank]
  simp [first]

theorem trimEnd_blank {str : CString} {start m k : Nat} (inside : start < m)
    (blank : ∀ i, m ≤ i → i < m + k → str[i]?.any isBlank = true) :
    trimEnd str start (m + k) = trimEnd str start m := by
  induction k with
  | zero => rfl
  | succ k ih =>
    have last := blank (m + k) (by omega) (by omega)
    rw [← Nat.add_assoc, trimEnd, if_pos ⟨by omega, last⟩]
    exact ih fun i lower upper => blank i lower (by omega)

theorem trimEnd_stop {str : CString} {start m : Nat} (positive : 0 < m)
    (stop : str[m - 1]?.any isBlank = false) : trimEnd str start m = m := by
  obtain ⟨m, rfl⟩ : ∃ l, m = l + 1 := ⟨m - 1, by omega⟩
  rw [Nat.add_sub_cancel] at stop
  rw [trimEnd, if_neg (by simp [stop])]

theorem trimEnd_padded (trimmed : Trimmed s) (blankRight : ∀ c ∈ right, isBlank c = true)
    (rest : CString) : trimEnd (left ++ s ++ right ++ rest) left.length
      (left ++ s ++ right).length = (left ++ s).length := by
  have positive := List.length_pos_of_ne_nil trimmed.nonempty
  have length : (left ++ s).length = left.length + s.length := List.length_append
  have total : (left ++ s ++ right).length = (left ++ s).length + right.length :=
    List.length_append
  have stop : (left ++ s ++ right ++ rest)[(left ++ s).length - 1]?.any isBlank = false := by
    rw [List.append_assoc, List.getElem?_append_left (by omega), ← List.getLast?_eq_getElem?,
      List.getLast?_append_of_ne_nil _ trimmed.nonempty,
      List.getLast?_eq_some_getLast trimmed.nonempty]
    exact trimmed.last _ (List.getLast?_eq_some_getLast trimmed.nonempty)
  have blank : ∀ i, (left ++ s).length ≤ i → i < (left ++ s).length + right.length →
      (left ++ s ++ right ++ rest)[i]?.any isBlank = true := by
    intro i lower upper
    have inside : i - (left ++ s).length < right.length := by omega
    rw [List.getElem?_append_left (by omega), List.getElem?_append_right lower,
      List.getElem?_eq_getElem inside]
    exact blankRight _ (List.getElem_mem inside)
  rw [total, trimEnd_blank (by omega) blank, trimEnd_stop (by omega) stop]

theorem trimString_padded (trimmed : Trimmed s) (blankLeft : ∀ c ∈ left, isBlank c = true)
    (blankRight : ∀ c ∈ right, isBlank c = true) : trimString (left ++ s ++ right) = s := by
  have start := takeWhile_blank left right blankLeft trimmed
  have scanned := trimEnd_padded left right trimmed blankRight []
  rw [List.append_nil] at scanned
  simp only [trimString, start, scanned]
  rw [List.take_left, List.drop_left]

end Trim

/-! ### Alternatives -/

/-- A text that `parse_value` keeps in one piece. -/
structure Alternative (s : CString) : Prop where
  trimmed : Trimmed s
  slash : '/' ∉ s
  semicolon : ';' ∉ s
  newline : '\n' ∉ s

instance : DecidablePred Alternative := fun s =>
  decidable_of_iff (Trimmed s ∧ '/' ∉ s ∧ ';' ∉ s ∧ '\n' ∉ s)
    ⟨fun h => ⟨h.1, h.2.1, h.2.2.1, h.2.2.2⟩,
      fun h => ⟨h.trimmed, h.slash, h.semicolon, h.newline⟩⟩

def joinAlternatives (alternatives : List CString) : CString :=
  [' ', '/', ' '].intercalate alternatives

def alternativesEntry : List CString → GrammarEntry
  | [a] => .string a
  | alternatives => .stringArray alternatives

section Alternatives
variable {a b : CString} {alternatives : List CString}

@[simp] theorem joinAlternatives_single (a : CString) : joinAlternatives [a] = a := by
  simp [joinAlternatives]

theorem joinAlternatives_cons (a b : CString) (alternatives : List CString) :
    joinAlternatives (a :: b :: alternatives) =
      (a ++ [' ']) ++ '/' :: ([' '] ++ joinAlternatives (b :: alternatives)) := by
  simp [joinAlternatives, List.intercalate_cons_cons]

theorem tokens_joined (front : CString) (blank : ∀ c ∈ front, c = ' ') (some_ : alternatives ≠ [])
    (each : ∀ a ∈ alternatives, Alternative a) :
    (Tokens.tokens '/' (front ++ joinAlternatives alternatives)).map trimString = alternatives := by
  have slash : '/' ∉ front := fun member => absurd (blank _ member) (by decide)
  have blanks : ∀ c ∈ front, isBlank c = true := by
    intro c hc
    rw [blank c hc]
    rfl
  induction alternatives generalizing front with
  | nil => exact (some_ rfl).elim
  | cons a alternatives ih =>
    have first := each a (by simp)
    cases alternatives with
    | nil =>
      have apart : '/' ∉ front ++ a := by simp [slash, first.slash]
      have trim := trimString_padded front [] first.trimmed blanks (by simp)
      rw [List.append_nil] at trim
      rw [joinAlternatives_single,
        Tokens.tokens_of_not_mem apart (by simp [first.trimmed.nonempty]), List.map_singleton, trim]
    | cons b alternatives =>
      have apart : '/' ∉ front ++ a ++ [' '] := by simp [slash, first.slash]
      have trim := trimString_padded front [' '] first.trimmed blanks (by simp [isBlank])
      have rest := ih [' '] (by simp) (by simp) (fun a ha => each a (by simp [ha])) (by simp)
        (by simp [isBlank])
      rw [joinAlternatives_cons, ← List.append_assoc, ← List.append_assoc,
        Tokens.tokens_append_cons, List.map_append, rest,
        Tokens.tokens_of_not_mem apart (by simp), List.map_singleton, trim]
      rfl

theorem parseValue_joined (some_ : alternatives ≠ []) (each : ∀ a ∈ alternatives, Alternative a) :
    parseValue (joinAlternatives alternatives) = .ok (alternativesEntry alternatives) := by
  obtain ⟨a, alternatives, rfl⟩ := List.exists_cons_of_ne_nil some_
  have first := each a (by simp)
  cases alternatives with
  | nil =>
    rw [parseValue, joinAlternatives_single,
      Tokens.tokens_of_not_mem first.slash first.trimmed.nonempty]
    exact if_pos rfl
  | cons b alternatives =>
    have cut := tokens_joined [] (by simp) some_ each
    rw [List.nil_append] at cut
    have shape : Tokens.tokens '/' (joinAlternatives (a :: b :: alternatives)) =
        (a ++ [' ']) :: Tokens.tokens '/' ([' '] ++ joinAlternatives (b :: alternatives)) := by
      have apart : '/' ∉ a ++ [' '] := by simp [first.slash]
      rw [joinAlternatives_cons, Tokens.tokens_append_cons,
        Tokens.tokens_of_not_mem apart (by simp)]
      rfl
    have whole : a ++ [' '] ≠ joinAlternatives (a :: b :: alternatives) := by
      rw [joinAlternatives_cons]
      simp
    rw [shape] at cut
    rw [parseValue, shape]
    dsimp only
    rw [if_neg whole, cut]
    rfl

theorem Trimmed.enclose (first : Trimmed a) (last : Trimmed b) (middle : CString) :
    Trimmed (a ++ middle ++ b) := by
  constructor
  · simp [first.nonempty]
  · rw [List.append_assoc, List.head?_append_of_ne_nil _ first.nonempty]
    exact first.first
  · rw [List.getLast?_append_of_ne_nil _ last.nonempty]
    exact last.last

theorem joined_trimmed (some_ : alternatives ≠ []) (each : ∀ a ∈ alternatives, Alternative a) :
    Trimmed (joinAlternatives alternatives) := by
  induction alternatives with
  | nil => exact (some_ rfl).elim
  | cons a alternatives ih =>
    have first := (each a (by simp)).trimmed
    cases alternatives with
    | nil => rwa [joinAlternatives_single]
    | cons b alternatives =>
      have rest := ih (by simp) fun a ha => each a (by simp [ha])
      have enclosed := first.enclose rest [' ', '/', ' ']
      rw [joinAlternatives_cons]
      simpa using enclosed

theorem not_mem_joined {x : Char} (blank : x ≠ ' ') (slash : x ≠ '/')
    (each : ∀ a ∈ alternatives, x ∉ a) : x ∉ joinAlternatives alternatives := by
  induction alternatives with
  | nil => simp [joinAlternatives]
  | cons a alternatives ih =>
    have first := each a (by simp)
    cases alternatives with
    | nil => rwa [joinAlternatives_single]
    | cons b alternatives =>
      have rest := ih fun a ha => each a (by simp [ha])
      rw [joinAlternatives_cons]
      simp [first, rest, blank, slash]

end Alternatives

/-! ### Lines -/

/-- A rule of a grammar file with what follows it on its line. -/
structure RuleLine where
  key : CString
  alternatives : List CString
  trailing : CString
  key_trimmed : Trimmed key
  key_equals : '=' ∉ key
  key_newline : '\n' ∉ key
  nonempty : alternatives ≠ []
  each : ∀ a ∈ alternatives, Alternative a
  comment : trailing = [] ∨ ∃ gap text, (∀ c ∈ gap, c = ' ' ∨ c = '\t') ∧ '\n' ∉ text ∧
    trailing = gap ++ ';' :: text
  short : (key ++ [' '] ++ '=' :: ([' '] ++ joinAlternatives alternatives ++ trailing)).length + 1 ≤
    2047

namespace RuleLine
variable (rule : RuleLine)

def text : CString :=
  rule.key ++ [' '] ++ '=' :: ([' '] ++ joinAlternatives rule.alternatives ++ rule.trailing)

def line : CString := rule.text ++ ['\n']

def entry : GrammarEntry := alternativesEntry rule.alternatives

theorem newline_trailing : '\n' ∉ rule.trailing := by
  rcases rule.comment with none | ⟨gap, text, blank, newline, some⟩
  · simp [none]
  · have gapped : '\n' ∉ gap := fun member => by
      rcases blank _ member with space | tab <;> contradiction
    simp [some, gapped, newline]

theorem newline_text : '\n' ∉ rule.text := by
  have joined := not_mem_joined (by decide) (by decide) fun a ha => (rule.each a ha).newline
  simp [text, rule.key_newline, joined, rule.newline_trailing]

theorem value_cut : ∃ right rest, (∀ c ∈ right, isBlank c = true) ∧
    Tokens.firstToken ';' ([' '] ++ joinAlternatives rule.alternatives ++ rule.trailing ++ ['\n']) =
      some ([' '] ++ joinAlternatives rule.alternatives ++ right, rest) := by
  have joined := not_mem_joined (by decide) (by decide) fun a ha => (rule.each a ha).semicolon
  rcases rule.comment with none | ⟨gap, text, blank, newline, some⟩
  · refine ⟨['\n'], [], by simp [isBlank], ?_⟩
    rw [none, List.append_nil]
    exact Tokens.firstToken_whole (by simp [joined]) (by simp)
  · have apart : ';' ∉ gap := fun member => by
      rcases blank _ member with space | tab <;> contradiction
    refine ⟨gap, text ++ ['\n'], ?_, ?_⟩
    · intro c hc
      rcases blank c hc with rfl | rfl <;> rfl
    · have cut := Tokens.firstToken_append (text ++ ['\n'])
        (show ';' ∉ [' '] ++ joinAlternatives rule.alternatives ++ gap by simp [joined, apart])
        (by simp)
      rw [some]
      simpa using cut

theorem parsed : parseLine rule.line = .ok (some (rule.key, rule.entry)) := by
  obtain ⟨right, rest, blank, cut⟩ := rule.value_cut
  have shape : rule.line = (rule.key ++ [' ']) ++ '=' ::
      ([' '] ++ joinAlternatives rule.alternatives ++ rule.trailing ++ ['\n']) := by
    simp [line, text]
  have keyCut := Tokens.firstToken_append
    ([' '] ++ joinAlternatives rule.alternatives ++ rule.trailing ++ ['\n'])
    (show '=' ∉ rule.key ++ [' '] by simp [rule.key_equals]) (by simp)
  have key := trimString_padded [] [' '] rule.key_trimmed (by simp) (by simp [isBlank])
  have value := trimString_padded [' '] right (joined_trimmed rule.nonempty rule.each)
    (by simp [isBlank]) blank
  rw [List.nil_append] at key
  rw [parseLine, shape, keyCut]
  dsimp only
  rw [cut]
  dsimp only
  rw [value, parseValue_joined rule.nonempty rule.each, key]
  rfl

end RuleLine

example : parseLine (cstr "b = \"0\" / x ; = no rule\n") =
    .ok (some (cstr "b", .stringArray [cstr "\"0\"", cstr "x"])) := by decide

/-! ### Files -/

theorem fgetsLines_newline {room : Nat} {text : CString} (read rest : CString)
    (newline : '\n' ∉ text) (fits : text.length + 1 ≤ room) :
    fgetsLines room read (text ++ '\n' :: rest) =
      (read.reverse ++ text ++ ['\n']) :: fgetsLines 2047 [] rest := by
  induction text generalizing room read with
  | nil => simp [fgetsLines]
  | cons c text ih =>
    simp only [List.mem_cons, not_or] at newline
    simp only [List.length_cons] at fits
    have inside : ¬ (c = '\n' ∨ room ≤ 1) := by
      rintro (same | full)
      · exact newline.1 same.symm
      · omega
    rw [List.cons_append, fgetsLines, if_neg inside, ih _ newline.2 (by omega)]
    simp

def renderFile (rules : List RuleLine) : CString := rules.flatMap RuleLine.line

theorem fgetsLines_render (rules : List RuleLine) :
    fgetsLines 2047 [] (renderFile rules) = rules.map RuleLine.line := by
  induction rules with
  | nil => rfl
  | cons rule rules ih =>
    have first := fgetsLines_newline [] (renderFile rules) rule.newline_text rule.short
    have shape : renderFile (rule :: rules) = rule.text ++ '\n' :: renderFile rules := by
      simp [renderFile, RuleLine.line]
    rw [shape, first, ih]
    rfl

theorem fileRules_render (rules : List RuleLine) :
    fileRules (renderFile rules) = .ok (rules.map fun rule => (rule.key, rule.entry)) := by
  have parsed : (rules.map RuleLine.line).mapM parseLine =
      .ok (rules.map fun rule => some (rule.key, rule.entry)) := by
    induction rules with
    | nil => rfl
    | cons rule rules ih =>
      rw [List.map_cons, List.mapM_cons, rule.parsed, ok_bind, ih]
      rfl
  rw [fileRules, fgetsLines_render, parsed, ok_bind]
  simp [pure, Except.pure]

theorem populateGrammar_render (files : List (List RuleLine)) (g : Grammar) :
    files.foldlM (fun g rules => populateGrammar g (renderFile rules)) g =
      .ok (insertRules g (files.flatten.map fun rule => (rule.key, rule.entry))) := by
  induction files generalizing g with
  | nil => rfl
  | cons rules files ih =>
    rw [List.foldlM_cons, populateGrammar_eq (fileRules_render rules), ok_bind, ih,
      List.flatten_cons, List.map_append, insertRules_append]

/-- The rule that a lookup of the key stands for: the last of its definitions. -/
def lastDefinition (key : CString) (rules : List RuleLine) : Option RuleLine :=
  rules.reverse.find? fun rule => rule.key = key

theorem lookup_lastDefinition (rules : List RuleLine) (key : CString) :
    (rules.map fun rule => (rule.key, rule.entry)).reverse.lookup key =
      (lastDefinition key rules).map RuleLine.entry := by
  rw [lastDefinition, ← List.map_reverse]
  induction rules.reverse with
  | nil => rfl
  | cons rule rules ih =>
    by_cases same : rule.key = key
    · simp [same]
    · have miss : (key == rule.key) = false := beq_eq_false_iff_ne.mpr fun h => same h.symm
      simp [List.lookup_cons, same, miss, ih]

/-- Rendered rules are found again under their keys, and nothing else is. -/
theorem grammar_roundTrip (files : List (List RuleLine)) :
    ∃ grammar, files.foldlM (fun g rules => populateGrammar g (renderFile rules)) createGrammar =
        .ok grammar ∧
      ∀ key, grammarLookup grammar key =
        (lastDefinition key files.flatten).map RuleLine.entry := by
  refine ⟨_, populateGrammar_render files createGrammar, ?_⟩
  intro key
  rw [grammarLookup_insertRules, lookup_lastDefinition]
  exact Option.or_none

/-- `c = "0" / a ; c = no rule` -/
def commentedLine : RuleLine where
  key := cstr "c"
  alternatives := [cstr "\"0\"", cstr "a"]
  trailing := cstr " ; c = no rule"
  key_trimmed := by decide
  key_equals := by decide
  key_newline := by decide
  nonempty := by decide
  each := by decide
  comment := .inr ⟨[' '], cstr " c = no rule", by simp, by decide, by decide⟩
  short := by decide

/-- A rule of one alternative, with nothing behind it. -/
def shortLine (key alternative : CString)
    (wellFormed : Trimmed key ∧ '=' ∉ key ∧ '\n' ∉ key ∧ Alternative alternative ∧
      key.length + alternative.length ≤ 2000) : RuleLine where
  key := key
  alternatives := [alternative]
  trailing := []
  key_trimmed := wellFormed.1
  key_equals := wellFormed.2.1
  key_newline := wellFormed.2.2.1
  nonempty := by simp
  each := by simpa using wellFormed.2.2.2.1
  comment := .inl rfl
  short := by
    have lengths := wellFormed.2.2.2.2
    simp only [joinAlternatives_single, List.length_append, List.length_cons, List.length_nil]
    omega

/-- Two files, the second of which defines `a` again. -/
theorem grammar_roundTrip_again : ∃ grammar,
    [cstr "a = b\n", cstr "c = \"0\" / a ; c = no rule\na = %x00-FF\n"].foldlM populateGrammar
      createGrammar = .ok grammar ∧
    grammarLookup grammar (cstr "a") = some (.string (cstr "%x00-FF")) ∧
    grammarLookup grammar (cstr "c") = some (.stringArray [cstr "\"0\"", cstr "a"]) ∧
    grammarLookup grammar (cstr "b") = none := by
  obtain ⟨grammar, loads, lookups⟩ := grammar_roundTrip
    [[shortLine (cstr "a") (cstr "b") (by decide)],
      [commentedLine, shortLine (cstr "a") (cstr "%x00-FF") (by decide)]]
  refine ⟨grammar, loads, ?_, ?_, ?_⟩
  · exact lookups (cstr "a")
  · exact lookups (cstr "c")
  · exact lookups (cstr "b")

end Amqpgram
