import Amqpgram.Grammar.Loading

/-! Comments and blank lines. `populate_grammar` cuts at the first `=` before it looks for
a `;`, so the text of a comment can hold a rule. -/

namespace Tokens
variable {A : Type} [DecidableEq A]

theorem firstToken_eq_none {d : A} {s : List A} : firstToken d s = none ↔ ∀ c ∈ s, c = d := by
  have separators : s.dropWhile (· == d) = [] ↔ ∀ c ∈ s, c = d := by
    simp [List.dropWhile_eq_nil_iff]
  rw [← separators]
  simp [firstToken]

end Tokens

namespace Amqpgram

/-- A line that is blank, or whose first character that is not blank is `;`. -/
structure CommentLine where
  text : CString
  newline : '\n' ∉ text
  shape : (∀ c ∈ text, isBlank c = true) ∨
    ∃ gap rest, (∀ c ∈ gap, isBlank c = true) ∧ text = gap ++ ';' :: rest

/-- Between any two lines of any file, the line changes nothing. -/
def Inert (text : CString) : Prop :=
  ∀ (grammar : Grammar) (before after : CString), after ≠ [] →
    populateGrammar grammar (before ++ '\n' :: (text ++ '\n' :: after)) =
      populateGrammar grammar (before ++ '\n' :: after)

/-- The piece has a token to cut off at `=`, and nothing but `;` behind it. -/
def NoRule (piece : CString) : Prop :=
  ∃ key rest, Tokens.firstToken '=' piece = some (key, rest) ∧ ∀ c ∈ rest, c = ';'

theorem parseLine_noRule {piece : CString} : parseLine piece = .ok none ↔ NoRule piece := by
  constructor
  · intro parsed
    unfold parseLine at parsed
    split at parsed
    · cases parsed
    · rename_i key rest first
      split at parsed
      · rename_i no_value
        exact ⟨key, rest, first, Tokens.firstToken_eq_none.mp no_value⟩
      · obtain ⟨entry, _, inserted⟩ := bind_eq_ok.mp parsed
        cases inserted
  · rintro ⟨key, rest, first, separators⟩
    rw [parseLine, first]
    dsimp only
    rw [Tokens.firstToken_eq_none.mpr separators]

/-! ### Pieces -/

section
variable {room : Nat} {read before after : CString} {grammar : Grammar}

theorem fgetsLines_append : fgetsLines room read (before ++ '\n' :: after) =
    fgetsLines room read (before ++ ['\n']) ++ fgetsLines 2047 [] after := by
  induction before generalizing room read with
  | nil => simp [fgetsLines]
  | cons c before ih =>
    rw [List.cons_append, List.cons_append, fgetsLines, fgetsLines]
    split
    · rw [ih]
      rfl
    · exact ih

def populateLines (lines : List CString) (grammar : Grammar) : Except Fault Grammar :=
  lines.foldlM (fun g line => insertRule g <$> parseLine line) grammar

theorem populateGrammar_lines (file : CString) :
    populateGrammar grammar file = populateLines (fgetsLines 2047 [] file) grammar := rfl

theorem populateLines_append (lines others : List CString) (grammar : Grammar) :
    populateLines (lines ++ others) grammar =
      populateLines lines grammar >>= populateLines others := List.foldlM_append

theorem populateLines_noRule {lines : List CString} (none_read : ∀ line ∈ lines, NoRule line)
    (grammar : Grammar) : populateLines lines grammar = .ok grammar := by
  induction lines with
  | nil => rfl
  | cons line lines ih =>
    have first := parseLine_noRule.mpr (none_read line List.mem_cons_self)
    rw [populateLines, List.foldlM_cons, first]
    exact ih fun l member => none_read l (List.mem_cons_of_mem _ member)

theorem populateLines_inserts {lines : List CString} {result : Grammar}
    (populated : populateLines lines grammar = .ok result) :
    ∃ rules, result = insertRules grammar rules ∧
      (rules = [] → ∀ line ∈ lines, parseLine line = .ok none) := by
  induction lines generalizing grammar with
  | nil => exact ⟨[], (Except.ok.inj populated).symm, by simp⟩
  | cons line lines ih =>
    rw [populateLines, List.foldlM_cons] at populated
    cases parsed : parseLine line with
    | error fault =>
      rw [parsed] at populated
      cases populated
    | ok rule =>
      rw [parsed] at populated
      obtain ⟨rules, same, none_read⟩ := ih populated
      cases rule with
      | none =>
        refine ⟨rules, same, ?_⟩
        intro empty
        exact List.forall_mem_cons.mpr ⟨parsed, none_read empty⟩
      | some rule => exact ⟨rule :: rules, same, nofun⟩

theorem insertRules_ne_empty {rules : List (CString × GrammarEntry)} (some_rule : rules ≠ []) :
    insertRules createGrammar rules ≠ createGrammar := by
  intro same
  rcases List.eq_nil_or_concat rules with rfl | ⟨others, ⟨key, entry⟩, rfl⟩
  · exact some_rule rfl
  · have found := grammarLookup_insertRules createGrammar (others.concat (key, entry)) key
    rw [same] at found
    simp [grammarLookup, createGrammar] at found

theorem noRule_of_populateLines {lines : List CString}
    (unchanged : populateLines lines createGrammar = .ok createGrammar) :
    ∀ line ∈ lines, NoRule line := by
  obtain ⟨rules, same, none_read⟩ := populateLines_inserts unchanged
  have empty : rules = [] := by
    by_contra some_rule
    exact insertRules_ne_empty some_rule same.symm
  intro line member
  exact parseLine_noRule.mp (none_read empty line member)

theorem populateGrammar_append (before after : CString) (grammar : Grammar) :
    populateGrammar grammar (before ++ '\n' :: after) =
      populateGrammar grammar (before ++ ['\n']) >>= (populateGrammar · after) := by
  rw [populateGrammar_lines, fgetsLines_append, populateLines_append]
  rfl

end

/-! ### Inert lines -/

theorem inert_iff_pieces (text : CString) :
    Inert text ↔ ∀ piece ∈ fgetsLines 2047 [] (text ++ ['\n']), NoRule piece := by
  constructor
  · intro inert
    have newline : ∀ grammar, populateGrammar grammar ['\n'] = .ok grammar := fun _ => rfl
    have same := inert createGrammar [] ['\n'] (by simp)
    rw [populateGrammar_append [] (text ++ _), populateGrammar_append [] ['\n'],
      List.nil_append, newline, ok_bind, ok_bind, populateGrammar_append text, newline] at same
    cases populated : populateGrammar createGrammar (text ++ ['\n']) with
    | error fault => rw [populated] at same; cases same
    | ok result =>
      rw [populated, ok_bind, newline] at same
      exact noRule_of_populateLines (same ▸ populated)
  · intro none_read grammar before after _
    have skipped : (populateGrammar · (text ++ '\n' :: after)) = (populateGrammar · after) := by
      funext g
      rw [populateGrammar_append, populateGrammar_lines, populateLines_noRule none_read, ok_bind]
    rw [populateGrammar_append, skipped, ← populateGrammar_append]

theorem CommentLine.head_ne (line : CommentLine) : ∀ c ∈ line.text.head?, c ≠ '=' := by
  intro c first
  rintro rfl
  rcases line.shape with blank | ⟨gap, rest, blank, shape⟩
  · exact absurd (blank _ (List.mem_of_mem_head? first)) (by decide)
  · rw [shape] at first
    cases gap with
    | nil => cases first
    | cons d gap =>
      cases first
      exact absurd (blank _ List.mem_cons_self) (by decide)

/-- A line that fits in the buffer is one piece, which holds no rule when it has no `=`. -/
theorem CommentLine.noRule_iff (line : CommentLine) :
    NoRule (line.text ++ ['\n']) ↔ '=' ∉ line.text := by
  constructor
  · rintro ⟨key, rest, first, separators⟩ equals
    obtain ⟨front, behind, shape, apart⟩ := List.eq_append_cons_of_mem equals
    have nonempty : front ≠ [] := by
      rintro rfl
      exact line.head_ne '=' (by simp [shape]) rfl
    have cut := Tokens.firstToken_append (behind ++ ['\n']) apart nonempty
    rw [shape, List.append_assoc, List.cons_append, cut] at first
    obtain ⟨rfl, rfl⟩ := Prod.mk.inj (Option.some.inj first)
    exact absurd (separators '\n' (by simp)) (by decide)
  · intro apart
    have whole := Tokens.firstToken_whole (d := '=') (t := line.text ++ ['\n'])
      (by simp [apart]) (by simp)
    exact ⟨_, _, whole, by simp⟩

/-- Comments and blank lines are inert exactly when no piece that `fgets` makes of them
holds a rule, which for a line that fits in the buffer is that it has no `=`. -/
theorem inert_iff (line : CommentLine) :
    (Inert line.text ↔ ∀ piece ∈ fgetsLines 2047 [] (line.text ++ ['\n']), NoRule piece) ∧
      (line.text.length ≤ 2046 → (Inert line.text ↔ '=' ∉ line.text)) := by
  refine ⟨inert_iff_pieces line.text, ?_⟩
  intro short
  have single := fgetsLines_newline [] [] line.newline (show line.text.length + 1 ≤ 2047 by omega)
  have pieces : fgetsLines 2047 [] (line.text ++ ['\n']) = [line.text ++ ['\n']] := single
  rw [inert_iff_pieces, pieces, List.forall_mem_singleton]
  exact line.noRule_iff

/-- A rule that has been commented out. -/
def commentedRule : CommentLine where
  text := ";x=y".toList
  newline := by decide
  shape := .inr ⟨[], "x=y".toList, by simp, rfl⟩

/-- The comment defines `;x`, and without its right side the file cannot be read. -/
theorem commented_rule_read : ¬ Inert commentedRule.text ∧
    (populateGrammar createGrammar (cstr "\n;x=y\n\n")).map (grammarLookup · (cstr ";x")) =
      .ok (some (.string (cstr "y"))) ∧
    (populateGrammar createGrammar (cstr "\n;x=\n\n")).isOk = false := by
  refine ⟨?_, by decide, by decide⟩
  intro inert
  exact ((inert_iff commentedRule).2 (by decide)).mp inert (by decide)

end Amqpgram
