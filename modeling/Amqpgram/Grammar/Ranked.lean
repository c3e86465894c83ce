import Amqpgram.Grammar.Returning
import Amqpgram.Library.Interpretations

/-! Environments with a rank for each rule and words given for it beforehand. When rules
mention only rules of a lower rank and keep to the given words, all of them are decoded on
every stream, with fuel that depends on the rank alone, and into words that were given. -/
namespace Amqpgram
open Abnf (Element Body Derives Reaches)

/-- The counts around an element. -/
def nesting : Element CString → Nat
  | .repetition _ _ e => nesting e + 1
  | _ => 0

/-- The rule is decoded on every stream from some fuel on. -/
def ReturnsFrom (env : Environment) (enough : Nat) (n : CString) : Prop :=
  ∀ fuel ≥ enough, (decodeRule fuel n env).Total

/-- What a name is expanded by; nothing, without an entry. -/
def expansionOf (env : Environment) (n : CString) : Option (Body CString) :=
  (environmentLookup env n).elim (some [[]]) readEntry

section
variable {env : Environment} {t n : CString} {e : Element CString} {k : Nat}
variable {body : Body CString}

theorem pred_of_le {fuel : Nat} (le : k + 1 ≤ fuel) : ∃ less, fuel = less + 1 ∧ k ≤ less :=
  ⟨fuel - 1, by omega, by omega⟩

/-- The induction is on the element, through the counts before it. -/
theorem total_element (s : Spells t e) (sure : Sure (ReturnsFrom env k) e) :
    ∀ fuel ≥ k + 2 * nesting e + 1, (parseElement fuel t env).Total := by
  induction e generalizing t with
  | rule n =>
    intro fuel le
    obtain ⟨fuel, rfl, less⟩ := pred_of_le le
    exact parseElement_rule s ▸ sure fuel less
  | bytes bs =>
    intro fuel le
    obtain ⟨fuel, rfl, _⟩ := pred_of_le le
    exact parseElement_bytes s ▸ Sampler.total_done _
  | literal bs =>
    intro fuel le
    obtain ⟨fuel, rfl, _⟩ := pred_of_le le
    exact parseElement_literal s ▸ Sampler.total_done _
  | option e _ =>
    intro fuel le
    obtain ⟨fuel, rfl, _⟩ := pred_of_le le
    exact parseElement_option s ▸ Sampler.total_done _
  | range lo hi =>
    intro fuel le
    obtain ⟨fuel, rfl, _⟩ := pred_of_le le
    cases s with
    | @range b base ls hs lo hi hb hl hh same order =>
      have one := range_count hb hl hh
      have terminal : parseElement (fuel + 1) ('%' :: b :: (dots ls ++ '-' :: dots hs)) env =
          decodeTerminalRange ('%' :: b :: (dots ls ++ '-' :: dots hs)) := by
        simp [parseElement, isDigit, decodeTerminal, one]
      rw [terminal]
      exact Sampler.total_iff_run.mpr fun draws =>
        ⟨_, run_decodeTerminalRange hb hl hh same sure.1 sure.2 draws⟩
  | repetition min max e ih =>
    intro fuel le
    obtain ⟨order, fits, element⟩ := sure
    obtain ⟨t', spelled, -, scan⟩ := s.scan
    rw [if_pos ⟨by omega, fits.le⟩] at scan
    rw [nesting] at le
    obtain ⟨fuel, rfl, less⟩ := pred_of_le le
    obtain ⟨fuel, rfl, enough⟩ := pred_of_le (k := k + 2 * nesting e + 1) (by omega)
    rw [(parseElement_repetition env s).1]
    exact total_parseRepetition order fits scan (ih spelled element fuel enough)

theorem total_elements {es : List (Element CString)} (reads : AlternativeReads t es)
    (sure : ∀ e ∈ es, Sure (ReturnsFrom env k) e ∧ nesting e ≤ 1) :
    ∀ fuel ≥ k + 4, (parseElements fuel t env).Total := by
  intro fuel le
  obtain ⟨fuel, rfl, less⟩ := pred_of_le le
  rw [parseElements_eq]
  apply total_concatenate
  intro part member
  obtain ⟨u, token, rfl⟩ := List.mem_map.mp member
  obtain ⟨e, inside, spelled⟩ := forall₂_mem_left reads token
  obtain ⟨element, shallow⟩ := sure e inside
  exact ⟨total_element spelled element fuel (by omega), exact_parseElement fuel u⟩

theorem total_rule (expansion : expansionOf env n = some body) (nonempty : body ≠ [])
    (sure : ∀ alt ∈ body, ∀ e ∈ alt, Sure (ReturnsFrom env k) e ∧ nesting e ≤ 1) :
    ReturnsFrom env (k + 5) n := by
  intro fuel le
  obtain ⟨fuel, rfl, less⟩ := pred_of_le le
  rw [decodeRule_entry]
  cases found : environmentLookup env n with
  | none => exact Sampler.total_done _
  | some entry =>
    rw [expansionOf, found] at expansion
    have reads : EntryReads entry body := readEntry_reads expansion
    cases reads with
    | @string text es reads => exact total_elements reads (sure es List.mem_cons_self) fuel less
    | @stringArray texts alts reads fits =>
      have some_text : texts ≠ [] := by
        rintro rfl
        cases reads
        exact nonempty rfl
      refine (total_selectAlternativeRule some_text).bind fun choice y => ?_
      obtain ⟨text, member, rfl⟩ := (yields_selectAlternativeRule fits some_text).mp y
      obtain ⟨es, inside, reads⟩ := forall₂_mem_left reads member
      exact total_elements reads (sure es inside) fuel less
    | @byteArray bs => exact Sampler.total_done _

theorem expansionOf_expansions (expansion : expansionOf env n = some body) :
    expansions env n body := by
  cases found : environmentLookup env n with
  | none =>
    rw [expansionOf, found] at expansion
    exact .inr ⟨found, (Option.some.inj expansion).symm⟩
  | some entry =>
    rw [expansionOf, found] at expansion
    exact .inl ⟨entry, found, readEntry_reads expansion⟩

theorem expansions_unique {body' : Body CString} (rule : expansions env n body)
    (rule' : expansions env n body') : body = body' := by
  rcases rule, rule' with ⟨⟨entry, found, reads⟩ | ⟨missing, rfl⟩, rule' | ⟨missing', rfl⟩⟩
  · exact rulesOf_unique ⟨entry, found, reads⟩ rule'
  · cases found.symm.trans missing'
  · obtain ⟨_, found, _⟩ := rule'
    cases found.symm.trans missing
  · rfl

end

/-! ### Ranked environments -/

/-- A body of names of `P` below a rank, for words that are given. -/
structure Fits (P : CString → Prop) (rank : CString → Nat) (S : CString → Language UInt8)
    (bound : Nat) (words : Language UInt8) (body : Body CString) : Prop where
  nonempty : body ≠ []
  elements : ∀ alt ∈ body, ∀ e ∈ alt,
    Sure (fun m => P m ∧ rank m < bound) e ∧ nesting e ≤ 1 ∧ ∀ m ∈ e.names, P m
  words : ∀ alt ∈ body, ∀ w, Derives sampled (Abnf.spelling S) alt w → w ∈ words

def Ranked (env : Environment) (P : CString → Prop) (rank : CString → Nat)
    (S : CString → Language UInt8) : Prop :=
  ∀ n, P n → ∃ body, expansionOf env n = some body ∧ Fits P rank S (rank n) (S n) body

section
variable {env : Environment} {P : CString → Prop} {rank : CString → Nat}
variable {S : CString → Language UInt8} {n : CString}

/-- The induction is on the rank. -/
theorem Ranked.returns (ranked : Ranked env P rank S) (known : P n) :
    ReturnsFrom env (5 * rank n + 5) n := by
  obtain ⟨r, below⟩ : ∃ r, rank n = r := ⟨_, rfl⟩
  induction r using Nat.strong_induction_on generalizing n with
  | _ r ih =>
    subst below
    obtain ⟨body, expansion, fits⟩ := ranked n known
    apply total_rule expansion fits.nonempty
    intro alt ha e he
    obtain ⟨sure, shallow, _⟩ := fits.elements alt ha e he
    refine ⟨sure.mono ?_, shallow⟩
    rintro m ⟨inside, lower⟩ fuel le
    exact ih (rank m) lower inside rfl fuel (by omega)

theorem Ranked.keepsTo (ranked : Ranked env P rank S) :
    Abnf.KeepsTo sampled (expansions env) P S := by
  have same : ∀ n alts, P n → expansions env n alts → Fits P rank S (rank n) (S n) alts := by
    intro n alts known rule
    obtain ⟨body, expansion, fits⟩ := ranked n known
    rwa [expansions_unique rule (expansionOf_expansions expansion)]
  constructor
  · intro n alts known rule alt ha e he
    exact ((same n alts known rule).elements alt ha e he).2.2
  · intro n alts known rule
    exact (same n alts known rule).words

theorem Ranked.spelled (ranked : Ranked env P rank S) (known : P n) : Spelled env n := by
  intro m reach
  have inside : P m := by
    induction reach with
    | start => exact known
    | mention _ rule ha he hm ih => exact ranked.keepsTo.names _ _ ih rule _ ha _ he _ hm
  obtain ⟨body, expansion, _⟩ := ranked m inside
  exact ⟨body, expansionOf_expansions expansion⟩

theorem Ranked.word (ranked : Ranked env P rank S) (known : P n) {fuel : Nat} {d : Decoded}
    (y : (decodeRule fuel n env).Yields d) : ∃ w ∈ S n, d = .of w := by
  obtain ⟨w, rfl, derived⟩ := decodeRule_derived (ranked.spelled known) fuel d y
  exact ⟨w, ranked.keepsTo.language known derived, rfl⟩

theorem Fits.mono {Q : CString → Prop} {bound bound' : Nat} {words : Language UInt8}
    {body : Body CString} (fits : Fits P rank S bound words body)
    (wider : ∀ m, P m → Q m) (higher : ∀ m, P m → rank m < bound → rank m < bound') :
    Fits Q rank S bound' words body := by
  refine ⟨fits.nonempty, ?_, fits.words⟩
  intro alt ha e he
  obtain ⟨sure, shallow, names⟩ := fits.elements alt ha e he
  refine ⟨sure.mono ?_, shallow, fun m hm => wider m (names m hm)⟩
  rintro m ⟨inside, lower⟩
  exact ⟨wider m inside, higher m inside lower⟩

end
end Amqpgram
