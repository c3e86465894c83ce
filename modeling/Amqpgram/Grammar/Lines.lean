import Amqpgram.Grammar.Comments

/-! Lines without a rule. Of the three results of `strtok` that a line depends on,
`populate_grammar` and `parse_value` test only the second one for NULL. -/

namespace Tokens
variable {A : Type} [DecidableEq A]

theorem tokens_eq_nil {d : A} {s : List A} : tokens d s = [] ↔ ∀ c ∈ s, c = d := by
  induction s with
  | nil => simp
  | cons c s ih =>
    by_cases same : c = d
    · have skipped : tokens d (c :: s) = tokens d s := by
        simpa [same] using tokens_append_cons (d := d) [] s
      rw [skipped, ih, List.forall_mem_cons]
      exact ⟨fun rest => ⟨same, rest⟩, And.right⟩
    · obtain ⟨first, others, cut⟩ := List.exists_cons_of_ne_nil (List.splitOn_ne_nil d s)
      have token : tokens d (c :: s) ≠ [] := by
        simp [tokens, List.splitOn_cons_eq_if_modifyHead, same, cut]
      exact ⟨fun empty => (token empty).elim,
        fun all => (same (all c List.mem_cons_self)).elim⟩

theorem firstToken_at_once {d c : A} (s : List A) (other : c ≠ d) :
    ∃ rest, firstToken d (c :: s) = some ((c :: s).takeWhile (· != d), rest) := by
  have start : (c :: s).dropWhile (· == d) = c :: s := by simp [other]
  exact ⟨_, by rw [firstToken, start]; rfl⟩

end Tokens

namespace Amqpgram

/-- The body ends at the first `;`. Trimmed, it has a token to cut off at `/`. -/
def HasBody (rest : CString) : Prop := ∃ c ∈ trimString (rest.takeWhile (· != ';')), c ≠ '/'

/-- A name that is not blank and does not begin a comment. -/
def HasName (key : CString) : Prop := ∃ c ∈ (trimString key).head?, c ≠ ';'

/-- The line names a rule in front of a `=` and gives it a body. -/
def Usable (line : CString) : Prop :=
  ∃ key rest, Tokens.firstToken '=' line = some (key, rest) ∧ HasName key ∧ HasBody rest

/-- The file is read to its end from every grammar, and the lines without a usable rule
leave the grammar as it was. A line is what one `fgets` returns. -/
def Processes (file : CString) : Prop :=
  ∀ grammar, (∃ result, populateGrammar grammar file = .ok result) ∧
    ∀ line ∈ fgetsLines 2047 [] file, ¬ Usable line →
      insertRule grammar <$> parseLine line = .ok grammar

theorem parseValue_token {value : CString} (token : ∃ c ∈ value, c ≠ '/') :
    ∃ entry, parseValue value = .ok entry := by
  obtain ⟨c, member, other⟩ := token
  have some_token : Tokens.tokens '/' value ≠ [] :=
    fun none_left => other (Tokens.tokens_eq_nil.mp none_left c member)
  obtain ⟨first, others, cut⟩ := List.exists_cons_of_ne_nil some_token
  by_cases whole : first = value
  · exact ⟨.string value, by simp [parseValue, cut, whole]⟩
  · exact ⟨.stringArray ((first :: others).map trimString), by simp [parseValue, cut, whole]⟩

theorem parseLine_usable {line : CString} (usable : Usable line) :
    ∃ rule, parseLine line = .ok (some rule) := by
  obtain ⟨key, rest, named, -, body⟩ := usable
  cases rest with
  | nil =>
    obtain ⟨c, member, -⟩ := body
    cases member
  | cons c rest =>
    have started : c ≠ ';' := by
      rintro rfl
      obtain ⟨c, member, -⟩ := body
      cases member
    obtain ⟨comment, cut⟩ := Tokens.firstToken_at_once rest started
    obtain ⟨entry, parsed⟩ := parseValue_token body
    exact ⟨(trimString key, entry), by simp only [parseLine, named, cut, parsed]; rfl⟩

theorem noRule_of_unchanged {line : CString}
    (unchanged : insertRule createGrammar <$> parseLine line = .ok createGrammar) :
    NoRule line := by
  have single : populateLines [line] createGrammar = .ok createGrammar := by
    simpa [populateLines] using unchanged
  exact noRule_of_populateLines single line List.mem_cons_self

theorem populateLines_of_parsed {lines : List CString} (grammar : Grammar)
    (parsed : ∀ line ∈ lines, ∃ rule, parseLine line = .ok rule) :
    ∃ result, populateLines lines grammar = .ok result := by
  induction lines generalizing grammar with
  | nil => exact ⟨grammar, rfl⟩
  | cons line lines ih =>
    obtain ⟨rule, first⟩ := parsed line List.mem_cons_self
    rw [populateLines, List.foldlM_cons, first]
    exact ih (insertRule grammar rule) fun l member => parsed l (List.mem_cons_of_mem _ member)

/-- A file is processed exactly when each of its lines has a token to cut off at `=`, and
this is a name with a body behind it or there is nothing but `;` behind it. -/
theorem processes_iff (file : CString) :
    Processes file ↔ ∀ line ∈ fgetsLines 2047 [] file,
      ∃ key rest, Tokens.firstToken '=' line = some (key, rest) ∧
        (HasName key ∧ HasBody rest ∨ ∀ c ∈ rest, c = ';') := by
  constructor
  · intro processes line member
    by_cases usable : Usable line
    · obtain ⟨key, rest, named, rule⟩ := usable
      exact ⟨key, rest, named, .inl rule⟩
    · have unchanged := (processes createGrammar).2 line member usable
      obtain ⟨key, rest, named, separators⟩ := noRule_of_unchanged unchanged
      exact ⟨key, rest, named, .inr separators⟩
  · intro shaped grammar
    constructor
    · rw [populateGrammar_lines]
      apply populateLines_of_parsed
      intro line member
      obtain ⟨key, rest, named, usable | separators⟩ := shaped line member
      · obtain ⟨rule, parsed⟩ := parseLine_usable ⟨key, rest, named, usable⟩
        exact ⟨some rule, parsed⟩
      · exact ⟨none, parseLine_noRule.mpr ⟨key, rest, named, separators⟩⟩
    · intro line member unusable
      obtain ⟨key, rest, named, usable | separators⟩ := shaped line member
      · exact (unusable ⟨key, rest, named, usable⟩).elim
      · rw [parseLine_noRule.mpr ⟨key, rest, named, separators⟩]
        rfl

/-- A rule without a body hands NULL to `strcmp`, a line of `=` hands it to `trim_string`,
a rule that has only a comment takes the comment for its body, and a blank name is a key. -/
theorem empty_body_faults :
    (populateGrammar createGrammar (cstr "x =\n")).isOk = false ∧
      (populateGrammar createGrammar (cstr "==\n==")).isOk = false ∧
      (populateGrammar createGrammar (cstr "x=;y\n")).map (grammarLookup · (cstr "x")) =
        .ok (some (.string (cstr "y"))) ∧
      (populateGrammar createGrammar (cstr " = x\n")).map (grammarLookup · []) =
        .ok (some (.string (cstr "x"))) ∧
      ¬ Processes (cstr "x =\n") := by
  have faulted : (populateGrammar createGrammar (cstr "x =\n")).isOk = false := by decide
  refine ⟨faulted, by decide, by decide, by decide, ?_⟩
  intro processes
  obtain ⟨result, populated⟩ := (processes createGrammar).1
  rw [populated] at faulted
  cases faulted

end Amqpgram
