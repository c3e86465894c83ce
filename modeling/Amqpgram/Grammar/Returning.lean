import Amqpgram.Grammar.Entries
import Amqpgram.Grammar.Ranges
import Amqpgram.Grammar.Reading

/-! Rules whose decoding returns whatever is drawn. An element can be decoded on every
stream if its bounds are in order and the rules it mentions can be; what a rule needs of
fuel is more than what its elements need. -/
namespace Amqpgram
open Abnf (Element Body)

/-- With enough fuel the rule is decoded on every stream. -/
def Returning (env : Environment) (rule : CString) : Prop :=
  ∃ enough, ∀ fuel ≥ enough, (decodeRule fuel rule env).Total

/-- The elements that can be decoded once the rules they mention can be. -/
def Sure (rule : CString → Prop) : Element CString → Prop
  | .rule n => rule n
  | .bytes _ => True
  | .range lo hi => hi.length ≤ 3 ∧ Words.value lo < Words.value hi
  | .literal _ => True
  | .option _ => True
  | .repetition min max e => min ≤ max.getD 16 ∧ (max.getD 16 : Int) < intMax ∧ Sure rule e

instance decidableSure (rule : CString → Prop) [DecidablePred rule] : ∀ e, Decidable (Sure rule e)
  | .rule n => inferInstanceAs (Decidable (rule n))
  | .bytes _ => isTrue trivial
  | .range lo hi => inferInstanceAs (Decidable (hi.length ≤ 3 ∧ Words.value lo < Words.value hi))
  | .literal _ => isTrue trivial
  | .option _ => isTrue trivial
  | .repetition min max e =>
    have := decidableSure rule e
    inferInstanceAs (Decidable (min ≤ max.getD 16 ∧ (max.getD 16 : Int) < intMax ∧ Sure rule e))

/-- Rules of which each mentions only later ones. -/
def Ordered : List (CString × Body CString) → Prop
  | [] => True
  | rule :: later => rule.2 ≠ [] ∧
      (∀ alt ∈ rule.2, ∀ e ∈ alt, Sure (· ∈ later.map Prod.fst) e) ∧ Ordered later

instance decidableOrdered : ∀ rules, Decidable (Ordered rules)
  | [] => isTrue trivial
  | rule :: later =>
    have := decidableOrdered later
    inferInstanceAs (Decidable (rule.2 ≠ [] ∧
      (∀ alt ∈ rule.2, ∀ e ∈ alt, Sure (· ∈ later.map Prod.fst) e) ∧ Ordered later))

theorem Sure.mono {P Q : CString → Prop} (le : ∀ n, P n → Q n) {e : Element CString}
    (sure : Sure P e) : Sure Q e := by
  induction e with
  | rule n => exact le n sure
  | repetition min max e ih => exact ⟨sure.1, sure.2.1, ih sure.2.2⟩
  | bytes _ => trivial
  | range _ _ => exact sure
  | literal _ => trivial
  | option _ _ => trivial

theorem enough_for_all {A : Type} {P : A → Nat → Prop} {as : List A}
    (each : ∀ a ∈ as, ∃ enough, ∀ fuel ≥ enough, P a fuel) :
    ∃ enough, ∀ fuel ≥ enough, ∀ a ∈ as, P a fuel := by
  induction as with
  | nil => exact ⟨0, by simp⟩
  | cons a as ih =>
    obtain ⟨first, here⟩ := each a List.mem_cons_self
    obtain ⟨others, there⟩ := ih fun b member => each b (List.mem_cons_of_mem _ member)
    refine ⟨max first others, fun fuel le => List.forall_mem_cons.mpr ⟨here fuel ?_, there fuel ?_⟩⟩
    · exact (le_max_left ..).trans le
    · exact (le_max_right ..).trans le

theorem enough_succ {P : Nat → Prop} (later : ∃ enough, ∀ fuel ≥ enough, P (fuel + 1)) :
    ∃ enough, ∀ fuel ≥ enough, P fuel := by
  obtain ⟨enough, all⟩ := later
  refine ⟨enough + 1, fun fuel le => ?_⟩
  obtain ⟨less, rfl⟩ : ∃ less, fuel = less + 1 := ⟨fuel - 1, by omega⟩
  exact all less (by omega)

theorem total_randMod {m : Int} (nonzero : m ≠ 0) : (randMod m).Total :=
  Sampler.total_iff_run.mpr fun draws => ⟨_, run_randMod nonzero draws⟩

theorem total_concatenate {parts : List (Gen Decoded)}
    (each : ∀ part ∈ parts, part.Total ∧ Exact part) (u : List UInt8) :
    (concatenate (.of u) parts).Total := by
  induction parts generalizing u with
  | nil => trivial
  | cons part parts ih =>
    obtain ⟨total, exact_part⟩ := each part List.mem_cons_self
    refine total.bind fun d y => ?_
    rw [eq_of_exact (exact_part d y), append_of]
    exact ih (fun p member => each p (List.mem_cons_of_mem _ member)) _

section
variable {env : Environment} {t e' : CString} {e : Element CString}

theorem total_parseRepetition {fuel min max : Nat} (order : min ≤ max)
    (fits : (max : Int) < intMax) (scan : scanRepetition t = .ok ⟨min, max, e'⟩)
    (element : (parseElement fuel e' env).Total) :
    (parseRepetition (fuel + 1) t env).Total := by
  have spread : cint ((max : Int) - min + 1) = .ok ((max : Int) - min + 1) := by
    unfold intMax at fits
    exact cint_of_range (by omega) (by omega)
  rw [parseRepetition, scan, Sampler.ofExcept_ok, Sampler.bind_done]
  dsimp only
  rw [spread, Sampler.ofExcept_ok, Sampler.bind_done]
  refine (total_randMod (by omega)).bind fun drawn y => ?_
  unfold intMax at fits
  obtain ⟨lower, upper⟩ := (yields_randMod_abs (by omega) (by omega)).mp y
  rw [cint_of_range (by omega) (by omega), Sampler.ofExcept_ok, Sampler.bind_done]
  split
  · trivial
  · apply total_concatenate
    intro part member
    rw [List.eq_of_mem_replicate member]
    exact ⟨element, exact_parseElement fuel e'⟩

/-- The induction is on the element, through the counts before it. -/
theorem total_parseElement (s : Spells t e) (sure : Sure (Returning env) e) :
    ∃ enough, ∀ fuel ≥ enough, (parseElement fuel t env).Total := by
  induction e generalizing t with
  | rule n =>
    obtain ⟨enough, total⟩ := sure
    exact enough_succ ⟨enough, fun fuel le => parseElement_rule s ▸ total fuel le⟩
  | bytes bs => exact enough_succ ⟨0, fun _ _ => parseElement_bytes s ▸ Sampler.total_done _⟩
  | literal bs => exact enough_succ ⟨0, fun _ _ => parseElement_literal s ▸ Sampler.total_done _⟩
  | option e _ => exact enough_succ ⟨0, fun _ _ => parseElement_option s ▸ Sampler.total_done _⟩
  | range lo hi =>
    cases s with
    | @range b base ls hs lo hi hb hl hh same order =>
      have one := range_count hb hl hh
      have terminal : ∀ fuel, parseElement (fuel + 1) ('%' :: b :: (dots ls ++ '-' :: dots hs))
          env = decodeTerminalRange ('%' :: b :: (dots ls ++ '-' :: dots hs)) := by
        simp [parseElement, isDigit, decodeTerminal, one]
      have total := Sampler.total_iff_run.mpr fun draws =>
        ⟨_, run_decodeTerminalRange hb hl hh same sure.1 sure.2 draws⟩
      exact enough_succ ⟨0, fun fuel _ => terminal fuel ▸ total⟩
  | repetition min max e ih =>
    obtain ⟨order, fits, element⟩ := sure
    obtain ⟨t', spelled, -, scan⟩ := s.scan
    rw [if_pos ⟨by omega, fits.le⟩] at scan
    obtain ⟨enough, total⟩ := ih spelled element
    have unfolded := (parseElement_repetition env s).1
    refine enough_succ (enough_succ ⟨enough, fun fuel le => ?_⟩)
    rw [unfolded]
    exact total_parseRepetition order fits scan (total fuel le)

theorem total_parseElements {es : List (Element CString)} (reads : AlternativeReads t es)
    (sure : ∀ e ∈ es, Sure (Returning env) e) :
    ∃ enough, ∀ fuel ≥ enough, (parseElements fuel t env).Total := by
  have each : ∀ u ∈ Tokens.tokens ' ' t, ∃ enough, ∀ fuel ≥ enough,
      (parseElement fuel u env).Total := by
    intro u member
    obtain ⟨e, inside, spelled⟩ := forall₂_mem_left reads member
    exact total_parseElement spelled (sure e inside)
  obtain ⟨enough, total⟩ := enough_for_all each
  refine enough_succ ⟨enough, fun fuel le => ?_⟩
  rw [parseElements_eq]
  apply total_concatenate
  intro part member
  obtain ⟨u, token, rfl⟩ := List.mem_map.mp member
  exact ⟨total fuel le u token, exact_parseElement fuel u⟩

theorem total_selectAlternativeRule {texts : List CString} (nonempty : texts ≠ []) :
    (selectAlternativeRule (.stringArray texts)).Total := by
  obtain ⟨text, texts, rfl⟩ := List.exists_cons_of_ne_nil nonempty
  exact (total_randMod (by simp; omega)).bind fun _ _ => Sampler.total_done _

theorem returning_rule {n : CString} {body : Body CString} (read : readRule env n = some body)
    (nonempty : body ≠ []) (sure : ∀ alt ∈ body, ∀ e ∈ alt, Sure (Returning env) e) :
    Returning env n := by
  obtain ⟨entry, found, reads⟩ := readRule_rulesOf read
  have unfolded : ∀ fuel, decodeRule (fuel + 1) n env = decodeEntry fuel (some entry) env :=
    fun fuel => found ▸ decodeRule_entry fuel n env
  cases reads with
  | @string text es reads =>
    obtain ⟨enough, total⟩ := total_parseElements reads (sure es List.mem_cons_self)
    exact enough_succ ⟨enough, fun fuel le => unfolded fuel ▸ total fuel le⟩
  | @stringArray texts alts reads fits =>
    have each : ∀ text ∈ texts, ∃ enough, ∀ fuel ≥ enough, (parseElements fuel text env).Total := by
      intro text member
      obtain ⟨es, inside, reads⟩ := forall₂_mem_left reads member
      exact total_parseElements reads (sure es inside)
    obtain ⟨enough, total⟩ := enough_for_all each
    have some_text : texts ≠ [] := by
      rintro rfl
      cases reads
      exact nonempty rfl
    refine enough_succ ⟨enough, fun fuel le => ?_⟩
    rw [unfolded, decodeEntry]
    refine (total_selectAlternativeRule some_text).bind fun choice y => ?_
    obtain ⟨text, member, rfl⟩ := (yields_selectAlternativeRule fits some_text).mp y
    exact total fuel le text member
  | @byteArray bs => exact enough_succ ⟨0, fun fuel _ => unfolded fuel ▸ Sampler.total_done _⟩

theorem returning_ordered {rules : List (CString × Body CString)} (ordered : Ordered rules)
    (read : ∀ rule ∈ rules, readRule env rule.1 = some rule.2) :
    ∀ rule ∈ rules, Returning env rule.1 := by
  induction rules with
  | nil => simp
  | cons rule later ih =>
    obtain ⟨nonempty, sure, rest⟩ := ordered
    have others := ih rest fun r member => read r (List.mem_cons_of_mem _ member)
    have known : ∀ n ∈ later.map Prod.fst, Returning env n := by
      intro n member
      obtain ⟨r, inside, rfl⟩ := List.mem_map.mp member
      exact others r inside
    refine List.forall_mem_cons.mpr ⟨?_, others⟩
    exact returning_rule (read rule List.mem_cons_self) nonempty
      fun alt ha e he => (sure alt ha e he).mono known

end

end Amqpgram
