import Mathlib.Data.List.DropRight
import Amqpgram.Grammar.Loading
import Amqpgram.Grammar.SingleRule

/-! Quoted literals, from the line that defines them to the bytes they stand for. The
line is cut at `;`, `/` and ` ` wherever these stand, also between the quotes. -/
namespace Amqpgram
open Expansions (Expansion)

def literalLine (key s : CString) : CString := key ++ [' ', '=', ' ', '"'] ++ s ++ ['"', '\n']

def Printable (c : Char) : Prop := 0x20 ≤ c.toNat ∧ c.toNat ≤ 0x7E

/-- A character that neither the cuts nor the conversion of letters change. -/
structure Kept (c : Char) : Prop where
  letter : ¬ (0x41 ≤ c.toNat ∧ c.toNat ≤ 0x5A)
  space : c ≠ ' '
  slash : c ≠ '/'
  semicolon : c ≠ ';'

/-! ### Loading -/

/-- The alternative that a draw of zero selects. -/
def firstAlternative : GrammarEntry → Option CString
  | .string text => text
  | .stringArray alternatives => alternatives.head?
  | _ => none

/-- What the line of a literal is loaded as: the literal, or no more of it than stands
before one of the cuts. -/
inductive LoadedAs (s : CString) : GrammarEntry → Prop where
  | whole : ';' ∉ s → '/' ∉ s → LoadedAs s (.string ('"' :: (s ++ ['"'])))
  | cut {entry u e c} : firstAlternative entry = some ('"' :: u) → Trimmed ('"' :: u) →
      c = ';' ∨ c = '/' → c ∈ e → s = u ++ e → LoadedAs s entry

theorem trimString_quote (left : CString) (blank : ∀ c ∈ left, isBlank c = true) (w : CString) :
    ∃ u blanks, w = u ++ blanks ∧ Trimmed ('"' :: u) ∧
      trimString (left ++ '"' :: w) = '"' :: u := by
  have trimmed : Trimmed ('"' :: w.rdropWhile isBlank) := by
    constructor
    · exact List.cons_ne_nil _ _
    · simp [isBlank]
    · intro c last
      by_cases none : w.rdropWhile isBlank = []
      · rw [none] at last
        obtain rfl : '"' = c := by simpa using last
        rfl
      · have kept := List.rdropWhile_last_not isBlank w none
        rw [List.getLast?_cons_of_ne_nil none, List.getLast?_eq_some_getLast none] at last
        obtain rfl := Option.mem_some_iff.mp last
        simpa using kept
  have parts := (List.rdropWhile_append_rtakeWhile (p := isBlank) (l := w)).symm
  refine ⟨_, _, parts, trimmed, ?_⟩
  have padded := trimString_padded left (w.rtakeWhile isBlank) trimmed blank
    fun c hc => List.mem_rtakeWhile_imp hc
  rw [← padded, List.append_assoc, List.cons_append, ← parts]

section
variable {key s : CString}

theorem value_cut (s : CString) : ∃ value rest,
    Tokens.firstToken ';' ([' ', '"'] ++ s ++ ['"', '\n']) = some (value, rest) ∧
    ((trimString value = '"' :: (s ++ ['"']) ∧ ';' ∉ s) ∨
      ∃ u e, trimString value = '"' :: u ∧ Trimmed ('"' :: u) ∧ ';' ∈ e ∧ s = u ++ e) := by
  by_cases semicolon : ';' ∈ s
  · obtain ⟨a, b, rfl, apart⟩ := List.eq_append_cons_of_mem semicolon
    obtain ⟨u, blanks, rfl, trimmed, trim⟩ := trimString_quote [' '] (by simp [isBlank]) a
    have cut := Tokens.firstToken_append (b ++ ['"', '\n'])
      (show ';' ∉ [' ', '"'] ++ (u ++ blanks) by simpa using apart) (by simp)
    exact ⟨[' ', '"'] ++ (u ++ blanks), b ++ ['"', '\n'], by simpa using cut,
      .inr ⟨u, blanks ++ ';' :: b, trim, trimmed, by simp, by simp⟩⟩
  · have trimmed : Trimmed ('"' :: (s ++ ['"'])) := by
      have quote : Trimmed ['"'] := ⟨by simp, by simp [isBlank], by simp [isBlank]⟩
      exact quote.enclose quote s
    have padded := trimString_padded [' '] ['\n'] trimmed (by simp [isBlank]) (by simp [isBlank])
    exact ⟨_, [], Tokens.firstToken_whole (by simp [semicolon]) (by simp),
      .inl ⟨by simpa using padded, semicolon⟩⟩

theorem parseValue_quote (v : CString) :
    ∃ entry, parseValue ('"' :: v) = .ok entry ∧ ((entry = .string ('"' :: v) ∧ '/' ∉ v) ∨
      ∃ u e, firstAlternative entry = some ('"' :: u) ∧ Trimmed ('"' :: u) ∧ '/' ∈ e ∧
        v = u ++ e) := by
  by_cases slash : '/' ∈ v
  · obtain ⟨a, b, rfl, apart⟩ := List.eq_append_cons_of_mem slash
    obtain ⟨u, blanks, rfl, trimmed, trim⟩ := trimString_quote [] (by simp) a
    have tokens : Tokens.tokens '/' ('"' :: (u ++ blanks ++ '/' :: b)) =
        ('"' :: (u ++ blanks)) :: Tokens.tokens '/' b := by
      rw [← List.cons_append, Tokens.tokens_append_cons,
        Tokens.tokens_of_not_mem (by simpa using apart) (by simp)]
      rfl
    have cut : '"' :: (u ++ blanks) ≠ '"' :: (u ++ blanks ++ '/' :: b) := by simp
    refine ⟨.stringArray ((('"' :: (u ++ blanks)) :: Tokens.tokens '/' b).map trimString), ?_,
      .inr ⟨u, blanks ++ '/' :: b, congrArg some trim, trimmed, by simp, by simp⟩⟩
    rw [parseValue, tokens]
    exact if_neg cut
  · refine ⟨.string ('"' :: v), ?_, .inl ⟨rfl, slash⟩⟩
    rw [parseValue, Tokens.tokens_of_not_mem (by simp [slash]) (by simp)]
    exact if_pos rfl

theorem value_loaded {value : CString}
    (cut : (trimString value = '"' :: (s ++ ['"']) ∧ ';' ∉ s) ∨
      ∃ u e, trimString value = '"' :: u ∧ Trimmed ('"' :: u) ∧ ';' ∈ e ∧ s = u ++ e) :
    ∃ entry, parseValue (trimString value) = .ok entry ∧ LoadedAs s entry := by
  rcases cut with ⟨trim, semicolon⟩ | ⟨u, e, trim, trimmed, inside, rfl⟩
  · obtain ⟨entry, parsed, ⟨rfl, slash⟩ | ⟨u, e, first, trimmed, slash, parts⟩⟩ :=
      parseValue_quote (s ++ ['"'])
    · exact ⟨_, trim ▸ parsed, .whole semicolon fun inside => slash (by simp [inside])⟩
    · -- the closing quote stands behind the slash
      rcases List.eq_nil_or_concat e with rfl | ⟨e, z, rfl⟩
      · simp at slash
      · rw [List.concat_eq_append, ← List.append_assoc] at parts
        obtain ⟨text, quote⟩ := List.append_inj' parts rfl
        have inside : '/' ∈ e := by
          rw [List.concat_eq_append, ← quote] at slash
          simpa using slash
        exact ⟨entry, trim ▸ parsed, .cut first trimmed (.inr rfl) inside text⟩
  · obtain ⟨entry, parsed, ⟨rfl, _⟩ | ⟨u, e', first, trimmed', _, rfl⟩⟩ := parseValue_quote u
    · exact ⟨.string ('"' :: u), trim ▸ parsed, .cut rfl trimmed (.inl rfl) inside rfl⟩
    · exact ⟨entry, trim ▸ parsed,
        .cut first trimmed' (.inl rfl) (by simp [inside]) (List.append_assoc ..)⟩

theorem parseLine_literal (trimmed : Trimmed key) (equals : '=' ∉ key) :
    ∃ entry, parseLine (literalLine key s) = .ok (some (key, entry)) ∧ LoadedAs s entry := by
  have keyCut := Tokens.firstToken_append ([' ', '"'] ++ s ++ ['"', '\n'])
    (show '=' ∉ key ++ [' '] by simp [equals]) (by simp)
  have shape : literalLine key s = (key ++ [' ']) ++ '=' :: ([' ', '"'] ++ s ++ ['"', '\n']) := by
    simp [literalLine]
  have keyTrim := trimString_padded [] [' '] trimmed (by simp) (by simp [isBlank])
  rw [List.nil_append] at keyTrim
  obtain ⟨value, rest, cut, shortened⟩ := value_cut s
  obtain ⟨entry, parsed, loaded⟩ := value_loaded shortened
  refine ⟨entry, ?_, loaded⟩
  rw [parseLine, shape, keyCut]
  dsimp only
  rw [cut]
  dsimp only
  rw [parsed, keyTrim]
  rfl

theorem populateGrammar_literal (trimmed : Trimmed key) (equals : '=' ∉ key) (newline : '\n' ∉ key)
    (printable : ∀ c ∈ s, Printable c) (fits : (literalLine key s).length ≤ 2047) :
    ∃ entry, (∀ g after, populateGrammar g (literalLine key s ++ after) =
      populateGrammar (grammarInsert g key (some entry)) after) ∧ LoadedAs s entry := by
  obtain ⟨entry, parsed, loaded⟩ := parseLine_literal (s := s) trimmed equals
  refine ⟨entry, fun g after => ?_, loaded⟩
  have text : literalLine key s = (key ++ [' ', '=', ' ', '"'] ++ s ++ ['"']) ++ ['\n'] := by
    simp [literalLine]
  have apart : '\n' ∉ key ++ [' ', '=', ' ', '"'] ++ s ++ ['"'] := by
    have inside : '\n' ∉ s := fun member => absurd (printable _ member).1 (by decide)
    simp [newline, inside]
  rw [text, List.length_append] at fits
  have lines := fgetsLines_newline [] after apart fits
  rw [List.reverse_nil, List.nil_append, ← text] at lines
  rw [populateGrammar, text, List.append_assoc, List.singleton_append, lines, List.foldlM_cons,
    parsed]
  rfl

end

/-! ### Letters -/

/-- The byte of a character up to letter case. -/
def letter (c : Char) : UInt8 := Abnf.foldCase (charByte c)

theorem foldCase_shiftedByte (b : UInt8) :
    Abnf.foldCase (shiftedByte b) = Abnf.foldCase b ↔ ¬ (65 ≤ b ∧ b ≤ 90) := by
  unfold Abnf.foldCase shiftedByte
  simp only [UInt8.le_iff_toNat_le, ← UInt8.toNat_inj]
  split_ifs <;> simp_all [UInt8.toNat_add] <;> omega

theorem charByte_toNat {c : Char} (printable : Printable c) : (charByte c).toNat = c.toNat := by
  have small := printable.2
  simp [charByte, Nat.mod_eq_of_lt (by omega : c.toNat < 256)]

theorem letter_quotedByte {c : Char} (printable : Printable c) :
    Abnf.foldCase (quotedByte c) = letter c ↔ ¬ (0x41 ≤ c.toNat ∧ c.toNat ≤ 0x5A) := by
  have small := printable.2
  have code := charByte_toNat printable
  rw [quotedByte_eq (by omega), letter, foldCase_shiftedByte, UInt8.le_iff_toNat_le,
    UInt8.le_iff_toNat_le, code]
  rfl

theorem letter_ne_space {c : Char} (printable : Printable c) (other : c ≠ ' ') :
    letter c ≠ letter ' ' := by
  have code := charByte_toNat printable
  have apart : c.toNat ≠ 0x20 := fun same => other (Char.toNat_inj.mp same)
  have space : letter ' ' = 32 := by decide
  rw [space, letter, Abnf.foldCase]
  simp only [UInt8.le_iff_toNat_le, ← UInt8.toNat_inj, ne_eq]
  split_ifs with upper
  · rw [UInt8.toNat_add]
    have small := printable.2
    simp only [UInt8.reduceToNat] at upper ⊢
    omega
  · rw [code]
    exact apart

/-! ### Decoding -/

section
variable {env : Environment} {key : CString} {entry : GrammarEntry}

theorem decodeRule_first {t : CString} (found : environmentLookup env key = some entry)
    (first : firstAlternative entry = some t) (fuel : Nat) :
    (decodeRule (fuel + 1) key env).run (Stream'.const 0) =
      (parseElements fuel t env).run (Stream'.const 0) := by
  rw [decodeRule, found]
  cases entry with
  | string text =>
    obtain rfl := Option.some.inj first
    rfl
  | stringArray alternatives =>
    cases alternatives with
    | nil => cases first
    | cons a alternatives =>
      obtain rfl := Option.some.inj first
      have nonzero : (((a :: alternatives).length : Nat) : Int) ≠ 0 := by
        rw [List.length_cons]
        omega
      have drawn := run_randMod nonzero (Stream'.const 0)
      have zero : Int.tmod (Stream'.const (0 : Draw)).head.val
          ((a :: alternatives).length : Int) = 0 := Int.zero_tmod _
      have selected : (selectAlternativeRule (.stringArray (a :: alternatives))).run
          (Stream'.const 0) = .ok (some a, Stream'.const 0) := by
        change (randMod _ >>= _).run _ = _
        rw [Sampler.run_bind_of_run drawn, zero]
        rfl
      exact Sampler.run_bind_of_run selected
  | byteArray _ => cases first
  | function _ => cases first

/-- The first piece is a literal up to its closing quote; the others are elements. -/
theorem quote_elements {fuel : Nat} {u a : CString} {others : List CString} {d : Decoded}
    {rest : RandStream} (cut : Tokens.tokens ' ' ('"' :: u) = ('"' :: a) :: others)
    (run : (parseElements fuel ('"' :: u) env).run (Stream'.const 0) = .ok (d, rest)) :
    ∃ less ps, less < fuel ∧
      List.Forall₂ (fun t p => (parseElement less t env).run (Stream'.const 0) =
        .ok (p, Stream'.const 0)) others ps ∧
      d = .of ((a.takeWhile (· ≠ '"')).map quotedByte ++ (ps.map Decoded.content).flatten) := by
  cases fuel with
  | zero => cases run
  | succ fuel =>
    rw [parseElements_eq, cut] at run
    obtain ⟨ps, each, rfl⟩ := concatenate_const run
    rw [List.forall₂_map_left_iff] at each
    cases each with
    | @cons _ p _ ps first elements =>
      refine ⟨fuel, ps, Nat.lt_succ_self fuel, elements, ?_⟩
      cases fuel with
      | zero => cases first
      | succ fuel =>
        have quoted : parseElement (fuel + 1) ('"' :: a) env = pure (decodeQuoted ('"' :: a)) := by
          simp [parseElement, isDigit]
        rw [quoted] at first
        obtain ⟨rfl, _⟩ := Sampler.run_done_ok first
        simp [decodeQuoted, Decoded.content, List.take_of_length_le]

end

/-! ### What a literal means -/

/-- In every file of which this is the last line that defines the rule, and whatever is
drawn, the rule is decoded into the text up to letter case. -/
def LiteralMeans (key s : CString) : Prop :=
  ∀ g after rules, fileRules after = .ok rules → (∀ rule ∈ rules, rule.1 ≠ key) →
    ∃ g', populateGrammar g (literalLine key s ++ after) = .ok g' ∧
      ∀ env (draws : RandStream), ∃ enough, ∀ fuel ≥ enough, ∃ d rest,
        (decodeRule fuel key (newEnvironment g' env)).run draws = .ok (d, rest) ∧
          d.length = s.length ∧ d.bytes ∈ Abnf.full.literal (s.map charByte)

section
variable {key s : CString}

theorem decodeRule_whole {env : Environment}
    (found : environmentLookup env key = some (.string ('"' :: (s ++ ['"'])))) (space : ' ' ∉ s)
    (inside : ∀ c ∈ s, c ≠ '"' ∧ c.toNat < 256) (fuel : Nat) :
    decodeRule (fuel + 3) key env = .done (.of ((s.map charByte).map shiftedByte)) := by
  have one : Tokens.tokens ' ' ('"' :: (s ++ ['"'])) = ['"' :: (s ++ ['"'])] :=
    Tokens.tokens_of_not_mem (by simp [space]) (by simp)
  have literal := @parseElement_literal env fuel _ _ (.literal inside)
  rw [decodeRule, found]
  dsimp only
  rw [parseElements_eq, one, List.map_singleton, literal, concatenate, Sampler.bind_done, append_of]
  rfl

theorem literalMeans_of_kept (trimmed : Trimmed key) (equals : '=' ∉ key) (newline : '\n' ∉ key)
    (printable : ∀ c ∈ s, Printable c) (quote : '"' ∉ s)
    (fits : (literalLine key s).length ≤ 2047) (kept : ∀ c ∈ s, Kept c) : LiteralMeans key s := by
  obtain ⟨entry, loading, loaded⟩ := populateGrammar_literal trimmed equals newline printable fits
  cases loaded with
  | whole =>
    intro g after rules read others
    refine ⟨_, (loading g after).trans (populateGrammar_eq read _), ?_⟩
    intro env draws
    refine ⟨3, fun fuel enough => ?_⟩
    obtain ⟨fuel, rfl⟩ : ∃ less, fuel = less + 3 := ⟨fuel - 3, by omega⟩
    have later : rules.reverse.lookup key = none := by
      rw [List.lookup_eq_none_iff]
      intro rule member
      have other := others rule (List.mem_reverse.mp member)
      exact bne_iff_ne.mpr other.symm
    have found : environmentLookup (newEnvironment
        (insertRules (grammarInsert g key (some (.string ('"' :: (s ++ ['"']))))) rules) env) key =
          some (.string ('"' :: (s ++ ['"']))) := by
      rw [newEnvironment, environmentLookup_cons, grammarLookup_insertRules, later,
        grammarLookup_insert_self]
      rfl
    have inside : ∀ c ∈ s, c ≠ '"' ∧ c.toNat < 256 := by
      intro c hc
      have small := (printable c hc).2
      exact ⟨fun same => quote (same ▸ hc), by omega⟩
    have decoded := decodeRule_whole found (fun member => (kept _ member).space rfl) inside fuel
    refine ⟨_, draws, by rw [decoded]; rfl, by simp [Decoded.of], ?_⟩
    change ((s.map charByte).map shiftedByte).map Abnf.foldCase = (s.map charByte).map Abnf.foldCase
    simp only [List.map_map]
    apply List.map_congr_left
    intro c hc
    have same := (letter_quotedByte (printable c hc)).mpr (kept c hc).letter
    rwa [quotedByte_eq (inside c hc).2] at same
  | cut _ _ which member text =>
    have other := kept _ (text ▸ List.mem_append_right _ member)
    rcases which with rfl | rfl
    · exact (other.semicolon rfl).elim
    · exact (other.slash rfl).elim

theorem LoadedAs.first {entry : GrammarEntry} (loaded : LoadedAs s entry) :
    ∃ u behind tail, firstAlternative entry = some ('"' :: u) ∧ Trimmed ('"' :: u) ∧
      u ++ behind = s ++ tail ∧ (behind = [] ∧ tail = ['"'] ∧ ';' ∉ s ∧ '/' ∉ s ∨
        behind ≠ [] ∧ tail = []) := by
  cases loaded with
  | whole semicolon slash =>
    have quote : Trimmed ['"'] := ⟨by simp, by simp [isBlank], by simp [isBlank]⟩
    exact ⟨s ++ ['"'], [], ['"'], rfl, quote.enclose quote s, by simp,
      .inl ⟨rfl, rfl, semicolon, slash⟩⟩
  | @cut _ u e _ first trimmed _ member text =>
    exact ⟨u, e, [], first, trimmed, by simp [text], .inr ⟨List.ne_nil_of_mem member, rfl⟩⟩

/-- What stands behind a blank of a trimmed text ends with another character. -/
theorem last_behind_blank {u v : CString} (trimmed : Trimmed (u ++ ' ' :: v)) :
    ∃ front z, v = front ++ [z] ∧ z ≠ ' ' := by
  rcases List.eq_nil_or_concat v with rfl | ⟨front, z, rfl⟩
  · have kept := trimmed.last ' ' List.getLast?_concat
    cases kept
  · have shape : u ++ ' ' :: front.concat z = (u ++ ' ' :: front) ++ [z] := by simp
    have kept := trimmed.last z (by rw [shape]; exact List.getLast?_concat)
    refine ⟨front, z, List.concat_eq_append, ?_⟩
    rintro rfl
    cases kept

/-- The pieces behind a blank never make up for it. -/
theorem pieces_behind {a v behind tail : CString} {outs : List (List UInt8)}
    (trimmed : Trimmed ('"' :: (a ++ ' ' :: v))) (text : a ++ ' ' :: v ++ behind = s ++ tail)
    (few : tail.length ≤ 1) (printable : ∀ c ∈ v, Printable c)
    (each : List.Forall₂ Expansion (Tokens.tokens ' ' v) outs) :
    (a.map quotedByte ++ outs.flatten).map Abnf.foldCase ≠ s.map letter := by
  intro same
  obtain ⟨front, z, ends, other⟩ := last_behind_blank (u := '"' :: a) trimmed
  obtain ⟨outs', pieces, flat⟩ := Expansions.expansions_of_filter each
  have folded : List.Forall₂ Expansion (v.splitOn ' ') (outs'.map (List.map Abnf.foldCase)) := by
    rw [List.forall₂_map_right_iff]
    apply pieces.imp
    rintro piece _ ⟨q, word, rfl, short⟩
    exact ⟨q, word.map Abnf.foldCase, Expansions.copies_map .., by rwa [List.length_map]⟩
  have apart : ∀ piece ∈ v.splitOn ' ', ∀ c ∈ piece, letter c ≠ letter ' ' := by
    intro piece member c hc
    obtain ⟨inside, different⟩ := Tokens.mem_splitOn member hc
    exact letter_ne_space (printable c inside) different
  have agrees : (outs'.map (List.map Abnf.foldCase)).flatten ++ tail.map letter =
      [] ++ letter ' ' ::
        (([' '].intercalate (v.splitOn ' ')).map letter ++ behind.map letter) := by
    have parts : (a.map letter) ++ (letter ' ' :: (v.map letter ++ behind.map letter)) =
        (a.map quotedByte).map Abnf.foldCase ++
          (outs.flatten.map Abnf.foldCase ++ tail.map letter) := by
      rw [List.map_append] at same
      rw [← List.append_assoc, same, ← List.map_append, ← List.map_append, ← text]
      simp
    have back := (List.append_inj parts (by simp)).2
    rw [List.intercalate_splitOn, ← List.map_flatten, flat]
    simpa using back.symm
  have behind_ := Expansions.expansions_behind folded apart
    ((List.intercalate_splitOn ' ').trans ends) other agrees
  have lengths := congrArg List.length agrees
  rw [List.intercalate_splitOn] at behind_ lengths
  simp only [List.length_append, List.length_cons, List.length_map, List.length_nil]
    at behind_ lengths
  omega

theorem takeWhile_quote {t : CString} (quote : '"' ∉ t) (rest : CString) :
    (t ++ rest).takeWhile (· ≠ '"') = t ++ rest.takeWhile (· ≠ '"') :=
  List.takeWhile_append_of_pos fun _ hc => decide_eq_true fun same => quote (same ▸ hc)

section
variable {u behind tail : CString} (text : u ++ behind = s ++ tail)
  (departs : behind = [] ∧ tail = ['"'] ∧ ';' ∉ s ∧ '/' ∉ s ∨ behind ≠ [] ∧ tail = [])
include text departs

theorem blank_departs {a v : CString} {outs : List (List UInt8)} (trimmed : Trimmed ('"' :: u))
    (printable : ∀ c ∈ s, Printable c) (quote : '"' ∉ s) (shape : u = a ++ ' ' :: v)
    (each : List.Forall₂ Expansion (Tokens.tokens ' ' v) outs) :
    ((a.takeWhile (· ≠ '"')).map quotedByte ++ outs.flatten).map Abnf.foldCase ≠ s.map letter := by
  subst shape
  have few : tail.length ≤ 1 := by
    rcases departs with ⟨_, rfl, _⟩ | ⟨_, rfl⟩ <;> simp
  have printed : ∀ c ∈ v, Printable c := by
    intro c hc
    have inside : c ∈ s ++ tail := text ▸ (by simp [hc])
    rcases List.mem_append.mp inside with member | closing
    · exact printable c member
    · rcases departs with ⟨_, rfl, _⟩ | ⟨_, rfl⟩
      · obtain rfl := List.mem_singleton.mp closing
        exact ⟨by decide, by decide⟩
      · cases closing
  have unquoted : '"' ∉ a := by
    have front : a <+: s ++ tail := ⟨' ' :: v ++ behind, by rw [← text]; simp⟩
    have lengths := congrArg List.length text
    simp only [List.length_append, List.length_cons] at lengths
    have inside := List.prefix_of_prefix_length_le front (List.prefix_append s tail) (by omega)
    exact fun member => quote (inside.subset member)
  have whole := takeWhile_quote unquoted []
  rw [List.takeWhile_nil, List.append_nil] at whole
  rw [whole]
  exact pieces_behind trimmed text few printed each

theorem kept_of_decoded (printable : ∀ c ∈ s, Printable c) (quote : '"' ∉ s) (space : ' ' ∉ u)
    (same : ((u.takeWhile (· ≠ '"')).map quotedByte).map Abnf.foldCase = s.map letter) :
    ∀ c ∈ s, Kept c := by
  rcases departs with ⟨rfl, rfl, semicolon, slash⟩ | ⟨more, rfl⟩
  · rw [List.append_nil] at text
    have closing := takeWhile_quote quote ['"']
    rw [List.takeWhile_cons_of_neg (by simp), List.append_nil] at closing
    rw [text, closing, List.map_map] at same
    intro c hc
    have folded : Abnf.foldCase (quotedByte c) = letter c := List.map_inj_left.mp same c hc
    have inside : c ∈ u := text ▸ List.mem_append_left _ hc
    exact ⟨(letter_quotedByte (printable c hc)).mp folded, fun blank => space (blank ▸ inside),
      fun other => slash (other ▸ hc), fun other => semicolon (other ▸ hc)⟩
  · -- the text goes on behind the cut
    have short := (u.takeWhile_sublist (· ≠ '"')).length_le
    have lengths := congrArg List.length same
    have total := congrArg List.length text
    have positive := List.length_pos_of_ne_nil more
    simp only [List.length_map, List.length_append, List.length_nil] at lengths total
    omega

end

/-- The first call that returns on draws of zero has decoded the first alternative without
calling the rule again. -/
theorem first_return {env : Environment} {enough : Nat} (returns : Returns env key enough) :
    ∃ fuel d rest, (decodeRule fuel key env).run (Stream'.const 0) = .ok (d, rest) ∧
      ∀ less < fuel, ¬ Returns env key less := by
  classical
  have some_ : ∃ fuel, Returns env key fuel := ⟨enough, returns⟩
  obtain ⟨⟨d, rest⟩, run⟩ := Nat.find_spec some_
  exact ⟨Nat.find some_, d, rest, run, fun _ => Nat.find_min some_⟩

theorem kept_of_literalMeans (trimmed : Trimmed key) (equals : '=' ∉ key) (newline : '\n' ∉ key)
    (printable : ∀ c ∈ s, Printable c) (quote : '"' ∉ s)
    (fits : (literalLine key s).length ≤ 2047) (means : LiteralMeans key s) : ∀ c ∈ s, Kept c := by
  obtain ⟨entry, loading, loaded⟩ := populateGrammar_literal trimmed equals newline printable fits
  obtain ⟨u, behind, tail, first, trimmed', text, departs⟩ := loaded.first
  obtain ⟨g', load, decodes⟩ := means createGrammar [] [] rfl (by simp)
  obtain rfl : grammarInsert createGrammar key (some entry) = g' :=
    Except.ok.inj ((loading createGrammar []).symm.trans load)
  obtain ⟨enough, decodes⟩ := decodes [] (Stream'.const 0)
  have found := lookup_single key entry
  have only : ∀ name, name ≠ key →
      environmentLookup [grammarInsert createGrammar key (some entry)] name = none :=
    fun name => lookup_single_of_ne entry
  simp only [newEnvironment] at decodes
  generalize [grammarInsert createGrammar key (some entry)] = env at decodes found only
  obtain ⟨_, _, returned, _⟩ := decodes enough (Nat.le_refl _)
  obtain ⟨fuel, d, rest, run, never⟩ := first_return ⟨_, returned⟩
  obtain ⟨d', rest', run', _, member⟩ := decodes (max enough fuel) (Nat.le_max_left ..)
  have extended := (decodeRule_extends (Nat.le_max_right enough fuel) key).run run
  obtain rfl := Sampler.run_unique extended run'
  have same : d.bytes.map Abnf.foldCase = s.map letter := by
    calc d.bytes.map Abnf.foldCase = (s.map charByte).map Abnf.foldCase := member
      _ = s.map letter := List.map_map
  cases fuel with
  | zero => cases run
  | succ fuel =>
    rw [decodeRule_first found first] at run
    by_cases space : ' ' ∈ u
    · obtain ⟨a, v, shape, apart⟩ := List.eq_append_cons_of_mem space
      have cut : Tokens.tokens ' ' ('"' :: u) = ('"' :: a) :: Tokens.tokens ' ' v := by
        rw [shape, ← List.cons_append, Tokens.tokens_append_cons,
          Tokens.tokens_of_not_mem (by simp [apart]) (by simp)]
        rfl
      obtain ⟨less, ps, fewer, each, rfl⟩ := quote_elements cut run
      have expansions := elements_expansion only (fun l below => never l (by omega)) each
      exact (blank_departs text departs trimmed' printable quote shape expansions same).elim
    · have cut : Tokens.tokens ' ' ('"' :: u) = [('"' :: u)] :=
        Tokens.tokens_of_not_mem (by simp [space]) (by simp)
      obtain ⟨_, ps, _, each, rfl⟩ := quote_elements cut run
      cases each
      rw [List.map_nil, List.flatten_nil, List.append_nil] at same
      exact kept_of_decoded text departs printable quote space same

/-- A printable text without quotes that stands in one line is decoded into itself up to
letter case exactly if none of its characters is an upper-case letter, a blank, `/` or `;`. -/
theorem literalMeans_iff (trimmed : Trimmed key) (equals : '=' ∉ key) (newline : '\n' ∉ key)
    (printable : ∀ c ∈ s, Printable c) (quote : '"' ∉ s)
    (fits : (literalLine key s).length ≤ 2047) : LiteralMeans key s ↔ ∀ c ∈ s, Kept c :=
  ⟨kept_of_literalMeans trimmed equals newline printable quote fits,
    literalMeans_of_kept trimmed equals newline printable quote fits⟩

end

theorem trimmed_rule : Trimmed (cstr "rule") :=
  ⟨by simp [cstr], by simp [cstr, isBlank], by simp [cstr, isBlank]⟩

theorem literalMeans_iff_equals :
    LiteralMeans (cstr "rule") (cstr "a=1") ↔ ∀ c ∈ cstr "a=1", Kept c :=
  literalMeans_iff trimmed_rule (by decide) (by decide)
    (by simp [cstr, Printable]) (by simp [cstr]) (by simp [cstr, literalLine])

/-- An upper-case letter is moved by 20: the literal `A` stands for the byte of `U`. -/
theorem letter_moved : (do
      let g ← generateGrammar (literalLine (cstr "rule") (cstr "A"))
      let decoded ← (decodeRule 3 (cstr "rule") [g]).run (Stream'.const 0)
      pure decoded.1) = .ok ⟨[85], 1⟩ ∧ ¬ LiteralMeans (cstr "rule") (cstr "A") := by
  refine ⟨rfl, fun means => ?_⟩
  have kept := kept_of_literalMeans trimmed_rule (by decide) (by decide)
    (by simp [cstr, Printable]) (by simp [cstr]) (by simp [cstr, literalLine]) means 'A' (by decide)
  exact kept.letter ⟨by decide, by decide⟩

end Amqpgram
