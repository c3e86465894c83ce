import Amqpgram.Grammar.Fuel
import Amqpgram.Grammar.Generation
import Amqpgram.Library.Expansions

/-! A grammar of one rule on the constant stream of zeros. A count is then its lower bound
and no name but that of the rule has an entry: an element expands to copies of a word
shorter than its own text, or the rule is called again. -/
namespace Amqpgram
open Expansions (Expansion)

/-- What is copied of an expansion. -/
def Decoded.content (d : Decoded) : List UInt8 := d.bytes.take d.length

theorem content_of (w : List UInt8) : (Decoded.of w).content = w := List.take_length

theorem append_content {u : List UInt8} {p joined : Decoded}
    (appended : (Decoded.of u).append p = .ok joined) : joined = .of (u ++ p.content) := by
  unfold Decoded.append at appended
  split at appended
  · rename_i inside
    obtain rfl := Except.ok.inj appended
    simp [Decoded.of, Decoded.content, inside]
  · cases appended

theorem concatenate_const {parts : List (Gen Decoded)} {u : List UInt8} {d : Decoded} {x : Draw}
    {rest : RandStream} (run : (concatenate (.of u) parts).run (Stream'.const x) = .ok (d, rest)) :
    ∃ ps, List.Forall₂ (fun part p => part.run (Stream'.const x) = .ok (p, Stream'.const x))
      parts ps ∧ d = .of (u ++ (ps.map Decoded.content).flatten) := by
  induction parts generalizing u with
  | nil =>
    obtain ⟨rfl, _⟩ := Sampler.run_done_ok run
    exact ⟨[], .nil, by simp⟩
  | cons part parts ih =>
    obtain ⟨p, mid, first, appending⟩ := Sampler.run_bind_ok run
    obtain rfl := Sampler.run_const first
    obtain ⟨joined, append, copying⟩ := Sampler.run_ofExcept_bind_ok appending
    obtain rfl := append_content append
    obtain ⟨ps, others, rfl⟩ := ih copying
    exact ⟨p :: ps, .cons first others, by simp⟩

/-! ### How long a terminal is -/

section
variable {t : CString} {d : Decoded} {draws rest : RandStream}

theorem decodeTerminalSymbol_length (decoded : decodeTerminalSymbol t = .ok d) :
    1 ≤ d.length ∧ d.length + 2 ≤ t.length := by
  unfold decodeTerminalSymbol at decoded
  dsimp only at decoded
  split at decoded
  · cases decoded
  · split at decoded
    · cases decoded
    · obtain rfl := Except.ok.inj decoded
      have tokens := Tokens.length_tokens_le_length '.' (t.drop 2)
      rw [List.length_drop] at tokens
      dsimp only
      omega

theorem stringLength_le (turns : Nat) (i : Int) : stringLength turns i ≤ turns := by
  induction turns generalizing i with
  | zero => exact Nat.le_refl 0
  | succ turns ih =>
    have rest := ih (i.tdiv 256)
    rw [stringLength]
    split <;> omega

theorem decodeTerminalRange_length (run : (decodeTerminalRange t).run draws = .ok (d, rest)) :
    d.length + 1 ≤ t.length := by
  unfold decodeTerminalRange at run
  dsimp only at run
  split at run
  · rename_i first second others cut
    obtain ⟨min, lower, run⟩ := Sampler.run_ofExcept_bind_ok run
    obtain ⟨symbol, decoded, _⟩ := bind_eq_ok.mp lower
    obtain ⟨max, _, _, run⟩ := Sampler.run_bind_ok run
    obtain ⟨spread, _, _, run⟩ := Sampler.run_bind_ok run
    obtain ⟨drawn, _, _, run⟩ := Sampler.run_bind_ok run
    obtain ⟨gen, _, _, run⟩ := Sampler.run_bind_ok run
    obtain ⟨rfl, _⟩ := Sampler.run_done_ok run
    have short := stringLength_le 4 max
    have long := decodeTerminalSymbol_length decoded
    have spaced := Tokens.sum_length_tokens '-' t
    have nonempty := List.length_pos_of_ne_nil
      (Tokens.mem_tokens (show second ∈ Tokens.tokens '-' t by simp [cut])).2
    rw [cut] at spaced
    simp only [List.map_cons, List.sum_cons, List.length_cons] at spaced
    dsimp only
    omega
  · cases run

theorem decodeTerminal_length (run : (decodeTerminal t).run draws = .ok (d, rest)) :
    d.length ≤ t.length - 1 := by
  unfold decodeTerminal at run
  split at run
  · obtain ⟨rfl, _⟩ := Sampler.run_done_ok run
    exact Nat.zero_le _
  · split at run
    · have range := decodeTerminalRange_length run
      omega
    · have symbol := decodeTerminalSymbol_length (Sampler.run_ofExcept_ok run).1
      omega

end

/-! ### Counts -/

theorem scanNumber_length {acc n : Int} {s rest : CString}
    (scan : scanNumber acc s = .ok (n, rest)) :
    rest.length ≤ s.length ∧ (s.head?.any isDigit = true → rest.length < s.length) := by
  induction s generalizing acc with
  | nil =>
    obtain ⟨_, rfl⟩ := Prod.mk.inj (Except.ok.inj scan)
    simp
  | cons c s ih =>
    unfold scanNumber at scan
    split at scan
    · obtain ⟨acc, _, scan⟩ := bind_eq_ok.mp scan
      have later := (ih scan).1
      simp only [List.length_cons]
      omega
    · rename_i other
      obtain ⟨_, rfl⟩ := Prod.mk.inj (Except.ok.inj scan)
      simp [other]

theorem scanRepetition_length {c : Char} {s : CString} {repetition : Repetition}
    (counted : isDigit c = true ∨ c = '*') (scan : scanRepetition (c :: s) = .ok repetition) :
    repetition.elementToRepeat.length ≤ s.length := by
  obtain ⟨⟨min, rest⟩, lower, scan⟩ := bind_eq_ok.mp scan
  obtain ⟨shorter, strict⟩ := scanNumber_length lower
  dsimp only at scan
  split at scan
  · rename_i tail
    simp only [List.length_cons] at shorter
    split at scan
    · obtain ⟨⟨max, rest'⟩, upper, scan⟩ := bind_eq_ok.mp scan
      obtain rfl := Except.ok.inj scan
      have later := (scanNumber_length upper).1
      dsimp only
      omega
    · obtain rfl := Except.ok.inj scan
      dsimp only
      omega
  · rename_i other
    obtain rfl := Except.ok.inj scan
    rcases counted with digit | rfl
    · have fewer := strict (by simp [digit])
      simp only [List.length_cons] at fewer
      exact Nat.le_of_lt_succ fewer
    · obtain ⟨_, rfl⟩ := Prod.mk.inj (Except.ok.inj lower)
      exact (other s rfl).elim

/-! ### Elements -/

theorem lookup_single (key : CString) (entry : GrammarEntry) :
    environmentLookup [grammarInsert createGrammar key (some entry)] key = some entry := by
  rw [environmentLookup_cons, grammarLookup_insert_self]
  rfl

theorem lookup_single_of_ne {key name : CString} (entry : GrammarEntry) (other : name ≠ key) :
    environmentLookup [grammarInsert createGrammar key (some entry)] name = none := by
  rw [environmentLookup_cons, grammarLookup_insert_of_ne _ _ other]
  rfl

/-- The rule returns on the constant stream. -/
def Returns (env : Environment) (key : CString) (fuel : Nat) : Prop :=
  ∃ result, (decodeRule fuel key env).run (Stream'.const 0) = .ok result

section
variable {env : Environment} {key : CString}

theorem expansion_of_length {t : CString} {d : Decoded} (short : d.length ≤ t.length - 1) :
    Expansion t d.content := by
  refine ⟨1, d.content, (List.append_nil _).symm, ?_⟩
  have taken : d.content.length ≤ d.length := List.length_take_le _ _
  omega

theorem replicate_const {part : Gen Decoded} {q : Nat} {ps : List Decoded} {x : Draw}
    (each : List.Forall₂ (fun part p => part.run (Stream'.const x) = .ok (p, Stream'.const x))
      (List.replicate q part) ps) :
    ps = [] ∨ ∃ p, part.run (Stream'.const x) = .ok (p, Stream'.const x) ∧
      ps = List.replicate q p := by
  induction q generalizing ps with
  | zero =>
    cases each
    exact .inl rfl
  | succ q ih =>
    rw [List.replicate_succ] at each
    cases each with
    | @cons _ p _ ps first others =>
      right
      rcases ih others with rfl | ⟨p', again, rfl⟩
      · have last : q = 0 := by simpa using List.forall₂_nil_right_iff.mp others
        subst last
        exact ⟨p, first, rfl⟩
      · obtain rfl := Sampler.run_unique first again
        exact ⟨p, first, rfl⟩

theorem repetition_expansion {fuel : Nat} {c : Char} {s : CString} {d : Decoded} {rest : RandStream}
    (counted : isDigit c = true ∨ c = '*')
    (run : (parseRepetition (fuel + 1) (c :: s) env).run (Stream'.const 0) = .ok (d, rest))
    {P : Prop} (element : ∀ {t d rest},
      (parseElement fuel t env).run (Stream'.const 0) = .ok (d, rest) → Expansion t d.content ∨ P) :
    Expansion (c :: s) d.content ∨ P := by
  rw [parseRepetition] at run
  obtain ⟨repetition, scan, run⟩ := Sampler.run_ofExcept_bind_ok run
  obtain ⟨spread, _, run⟩ := Sampler.run_ofExcept_bind_ok run
  obtain ⟨drawn, _, drawing, run⟩ := Sampler.run_bind_ok run
  obtain rfl := Sampler.run_const drawing
  obtain ⟨quantity, _, run⟩ := Sampler.run_ofExcept_bind_ok run
  have shorter := scanRepetition_length counted scan
  dsimp only at run
  split at run
  · obtain ⟨rfl, _⟩ := Sampler.run_done_ok run
    exact .inl ⟨0, [], rfl, Nat.zero_le _⟩
  · obtain ⟨ps, each, rfl⟩ := concatenate_const (u := []) run
    rcases replicate_const each with rfl | ⟨p, once, rfl⟩
    · exact .inl ⟨0, [], rfl, Nat.zero_le _⟩
    · rcases element once with ⟨q, word, copied, short⟩ | other
      · left
        refine ⟨quantity.toNat * q, word, ?_, ?_⟩
        · rw [content_of, List.nil_append, List.map_replicate, copied]
          exact Expansions.copies_mul _ q word
        · rw [List.length_cons]
          omega
      · exact .inr other

theorem name_expansion (only : ∀ name, name ≠ key → environmentLookup env name = none)
    {fuel : Nat} {name : CString} {d : Decoded} {rest : RandStream}
    (run : (decodeRule fuel name env).run (Stream'.const 0) = .ok (d, rest)) :
    Expansion name d.content ∨ Returns env key fuel := by
  cases fuel with
  | zero => cases run
  | succ fuel =>
    by_cases same : name = key
    · exact .inr ⟨_, same ▸ run⟩
    · rw [decodeRule, only name same] at run
      obtain ⟨rfl, _⟩ := Sampler.run_done_ok run
      exact .inl ⟨0, [], rfl, Nat.zero_le _⟩

theorem element_expansion (only : ∀ name, name ≠ key → environmentLookup env name = none)
    {fuel : Nat} {t : CString} {d : Decoded} {rest : RandStream}
    (run : (parseElement fuel t env).run (Stream'.const 0) = .ok (d, rest)) :
    Expansion t d.content ∨ ∃ less, less < fuel ∧ Returns env key less := by
  induction fuel using Nat.strong_induction_on generalizing t d rest with
  | _ fuel ih =>
    cases fuel with
    | zero => cases run
    | succ fuel =>
      cases t with
      | nil =>
        exact (name_expansion only run).imp_right fun returns =>
          ⟨fuel, Nat.lt_succ_self _, returns⟩
      | cons c s =>
        rw [parseElement] at run
        split at run
        · rename_i counted
          simp only [Bool.or_eq_true, decide_eq_true_eq] at counted
          cases fuel with
          | zero => cases run
          | succ fuel =>
            refine repetition_expansion counted run fun once => ?_
            refine (ih fuel (by omega) once).imp_right ?_
            rintro ⟨less, fewer, returns⟩
            exact ⟨less, by omega, returns⟩
        split at run
        · exact .inl (expansion_of_length (decodeTerminal_length run))
        split at run
        · obtain ⟨rfl, _⟩ := Sampler.run_done_ok run
          refine .inl (expansion_of_length ?_)
          have cut := (s.takeWhile_sublist (· ≠ '"')).length_le
          simpa [decodeQuoted] using cut
        split at run
        · obtain ⟨rfl, _⟩ := Sampler.run_done_ok run
          exact .inl ⟨0, [], rfl, Nat.zero_le _⟩
        · exact (name_expansion only run).imp_right fun returns =>
            ⟨fuel, Nat.lt_succ_self _, returns⟩

theorem elements_expansion (only : ∀ name, name ≠ key → environmentLookup env name = none)
    {fuel : Nat} (never : ∀ less < fuel, ¬ Returns env key less) {texts : List CString}
    {ps : List Decoded}
    (each : List.Forall₂ (fun t p => (parseElement fuel t env).run (Stream'.const 0) =
      .ok (p, Stream'.const 0)) texts ps) :
    List.Forall₂ Expansion texts (ps.map Decoded.content) := by
  rw [List.forall₂_map_right_iff]
  apply each.imp
  intro t p run
  rcases element_expansion only run with expansion | ⟨less, fewer, returns⟩
  · exact expansion
  · exact (never less fewer returns).elim

end

end Amqpgram
