import Mathlib.Data.Fintype.Card
import Mathlib.Data.Fintype.Fin
import Amqpgram.Fuzzer.GrammarInterface
import Amqpgram.Grammar.Entries

/-! One call of `overwrite_rule_with_chaos`: which definition an expansion of the rule
takes afterwards, by the residue of the draw it begins with. -/
namespace Amqpgram

def residue (draws : RandStream) : Fin 4 := ⟨draws.head.val % 4, Nat.mod_lt _ (by decide)⟩

/-- The residues at which the array of a level refers to the former definition. At
levels 0 and 4 there is no array: the rule is replaced or left alone. -/
def picksFormer (ruleChaos : Nat) (k : Fin 4) : Bool :=
  match ruleChaos with
  | 0 => false
  | 1 => k = 0
  | 2 => k = 1 ∨ k = 3
  | 3 => k ≠ 3
  | _ => true

theorem card_picksFormer {c : Nat} (level : c ≤ 4) :
    (Finset.univ.filter fun k => picksFormer c k = true).card = c := by
  have each : ∀ c : Fin 5, (Finset.univ.filter fun k => picksFormer c k = true).card = c := by
    decide
  exact each ⟨c, by omega⟩

/-- The levels at which an expansion begins with a draw. -/
abbrev Choosing (ruleChaos : Nat) : Prop := 0 < ruleChaos ∧ ruleChaos < 4

/-! ### The three keys -/

theorem length_chaosRule (rule : CString) : (chaosRule rule).length = rule.length + 13 := by
  rw [chaosRule, List.length_append, Nat.add_comm]
  rfl

theorem length_orderRule (rule : CString) : (orderRule rule).length = rule.length + 13 := by
  rw [orderRule, List.length_append, Nat.add_comm]
  rfl

theorem chaosRule_ne (rule : CString) : chaosRule rule ≠ rule := by
  intro same
  have lengths := congrArg List.length same
  rw [length_chaosRule] at lengths
  omega

theorem orderRule_ne (rule : CString) : orderRule rule ≠ rule := by
  intro same
  have lengths := congrArg List.length same
  rw [length_orderRule] at lengths
  omega

theorem chaosRule_ne_orderRule (r s : CString) : chaosRule r ≠ orderRule s := by
  simp [chaosRule, orderRule, cstr]

theorem chaosRule_inj {r s : CString} : chaosRule r = chaosRule s ↔ r = s := by
  simp [chaosRule]

theorem orderRule_inj {r s : CString} : orderRule r = orderRule s ↔ r = s := by
  simp [orderRule]

section
variable {target : Grammar} {next : Environment} {rule : CString} {e : GrammarEntry}
variable {versions : List CString}

theorem versions_rule (environment : Environment) :
    grammarLookup (insertVersions target environment rule e versions) rule =
      some (.stringArray versions) := grammarLookup_insert_self ..

theorem versions_order (environment : Environment) :
    grammarLookup (insertVersions target environment rule e versions) (orderRule rule) =
      some e := by
  rw [insertVersions, grammarLookup_insert_of_ne _ _ (orderRule_ne rule), grammarLookup_insert_self]

theorem versions_chaos (environment : Environment) :
    grammarLookup (insertVersions target environment rule e versions) (chaosRule rule) =
      environmentLookup environment rule := by
  rw [insertVersions, grammarLookup_insert_of_ne _ _ (chaosRule_ne rule),
    grammarLookup_insert_of_ne _ _ (chaosRule_ne_orderRule rule rule), grammarLookup_insert_self]

theorem versions_other (environment : Environment) {key : CString} (own : key ≠ rule)
    (chaos : key ≠ chaosRule rule) (order : key ≠ orderRule rule) :
    grammarLookup (insertVersions target environment rule e versions) key =
      grammarLookup target key := by
  rw [insertVersions, grammarLookup_insert_of_ne _ _ own, grammarLookup_insert_of_ne _ _ order,
    grammarLookup_insert_of_ne _ _ chaos]

theorem overwrite_other (ruleChaos : Int) (environment : Environment) {key : CString}
    (own : key ≠ rule) (chaos : key ≠ chaosRule rule) (order : key ≠ orderRule rule) :
    grammarLookup (overwriteRuleWithChaos ruleChaos target environment rule e) key =
      grammarLookup target key := by
  unfold overwriteRuleWithChaos
  dsimp only
  split
  · exact grammarLookup_insert_of_ne _ _ own
  · exact versions_other environment own chaos order
  · exact versions_other environment own chaos order
  · exact versions_other environment own chaos order
  · rfl

/-- The array of a level that chooses. -/
def levelVersions (ruleChaos : Nat) (rule : CString) : List CString :=
  match ruleChaos with
  | 1 => [chaosRule rule, orderRule rule, orderRule rule, orderRule rule]
  | 2 => [orderRule rule, chaosRule rule]
  | _ => [chaosRule rule, chaosRule rule, chaosRule rule, orderRule rule]

theorem mem_levelVersions {c : Nat} {version : CString} (member : version ∈ levelVersions c rule) :
    version = chaosRule rule ∨ version = orderRule rule := by
  unfold levelVersions at member
  split at member <;> simp at member <;> tauto

theorem overwrite_choosing {c : Nat} (choosing : Choosing c) (environment : Environment) :
    overwriteRuleWithChaos c target environment rule e =
      insertVersions target environment rule e (levelVersions c rule) := by
  obtain rfl | rfl | rfl : c = 1 ∨ c = 2 ∨ c = 3 := by omega
  all_goals rfl

theorem levelVersions_picks {c : Nat} (choosing : Choosing c) (k : Fin 4) :
    (levelVersions c rule)[k.val % (levelVersions c rule).length]? =
      some (if picksFormer c k then chaosRule rule else orderRule rule) := by
  obtain rfl | rfl | rfl : c = 1 ∨ c = 2 ∨ c = 3 := by omega
  all_goals
    match k with
    | 0 | 1 | 2 | 3 => simp [levelVersions, picksFormer]

theorem length_levelVersions {c : Nat} (choosing : Choosing c) :
    (levelVersions c rule).length ∣ 4 := by
  obtain rfl | rfl | rfl : c = 1 ∨ c = 2 ∨ c = 3 := by omega
  all_goals
    simp only [levelVersions, List.length_cons, List.length_nil]
    decide

/-! ### Expansions of the rule -/

theorem select_run {alternatives : List CString} (nonempty : alternatives ≠ [])
    (draws : RandStream) : (selectAlternativeRule (.stringArray alternatives)).run draws =
      .ok (alternatives[draws.head.val % alternatives.length]?, draws.tail) := by
  cases alternatives with
  | nil => exact (nonempty rfl).elim
  | cons a alternatives =>
    have nonzero : (((a :: alternatives).length : Nat) : Int) ≠ 0 := by
      rw [List.length_cons]
      omega
    have drawn := run_randMod nonzero draws
    have remainder : Int.tmod (draws.head.val : Int) ((a :: alternatives).length : Int) =
        ((draws.head.val % (a :: alternatives).length : Nat) : Int) := (Int.ofNat_tmod ..).symm
    change (randMod _ >>= _).run _ = _
    rw [Sampler.run_bind_of_run drawn, remainder]
    rfl

/-- An expansion over an array of references goes on as the definition referred to. -/
theorem decode_reference {env : Environment} {name : CString}
    (found : environmentLookup env rule = some (.stringArray versions)) (space : ' ' ∉ name)
    (plain : ∃ c ∈ name.head?, special c = false) {draws : RandStream}
    (chosen : versions[draws.head.val % versions.length]? = some name) (fuel : Nat) :
    (decodeRule (fuel + 4) rule env).run draws =
      (decodeEntry fuel (environmentLookup env name) env).run draws.tail := by
  have nonempty : versions ≠ [] := by
    rintro rfl
    cases chosen
  have selected := select_run nonempty draws
  rw [chosen] at selected
  rw [decodeRule_entry, found, decodeEntry, Sampler.run_bind_of_run selected]
  dsimp only
  rw [parseElements_rule space plain, decodeRule_entry]

theorem space_chaosRule (space : ' ' ∉ rule) : ' ' ∉ chaosRule rule := by
  simp [chaosRule, cstr, space]

theorem space_orderRule (space : ' ' ∉ rule) : ' ' ∉ orderRule rule := by
  simp [orderRule, cstr, space]

/-- What an expansion of the rule does after the call, and what the call leaves alone. -/
structure Overwrites (c : Nat) (target : Grammar) (next : Environment) (rule : CString)
    (e : GrammarEntry) : Prop where
  expands : ∀ fuel draws,
    let overwritten := newEnvironment
      (overwriteRuleWithChaos c target (newEnvironment target next) rule e) next
    (decodeRule (fuel + if Choosing c then 4 else 1) rule overwritten).run draws =
      (decodeEntry fuel (if picksFormer c (residue draws) then
        environmentLookup (newEnvironment target next) rule else some e) overwritten).run
          (if Choosing c then draws.tail else draws)
  others : ∀ key, key ≠ rule → key ≠ chaosRule rule → key ≠ orderRule rule →
    environmentLookup (newEnvironment
      (overwriteRuleWithChaos c target (newEnvironment target next) rule e) next) key =
        environmentLookup (newEnvironment target next) key
  noop : c = 4 → overwriteRuleWithChaos c target (newEnvironment target next) rule e = target

theorem decode_versions (space : ' ' ∉ rule)
    (fresh : environmentLookup next (chaosRule rule) = none) {draws : RandStream} {former : Bool}
    (chosen : versions[draws.head.val % versions.length]? =
      some (if former then chaosRule rule else orderRule rule)) (fuel : Nat) :
    (decodeRule (fuel + 4) rule (newEnvironment
      (insertVersions target (newEnvironment target next) rule e versions) next)).run draws =
      (decodeEntry fuel (if former then environmentLookup (newEnvironment target next) rule
        else some e) (newEnvironment
          (insertVersions target (newEnvironment target next) rule e versions) next)).run
            draws.tail := by
  have found : environmentLookup (newEnvironment
      (insertVersions target (newEnvironment target next) rule e versions) next) rule =
        some (.stringArray versions) := by
    rw [newEnvironment, environmentLookup_cons, versions_rule]
    rfl
  cases former with
  | true =>
    rw [decode_reference found (space_chaosRule space) ⟨'f', rfl, rfl⟩ chosen fuel]
    rw [newEnvironment, environmentLookup_cons, versions_chaos, fresh, Option.or_none]
    rfl
  | false =>
    rw [decode_reference found (space_orderRule space) ⟨'f', rfl, rfl⟩ chosen fuel]
    rw [newEnvironment, environmentLookup_cons, versions_order]
    rfl

/-- After one overwrite the definition before it is expanded on exactly as many of the
four residues as the level says, and the ordered one on the others. -/
theorem overwrite_expands (c : Nat) (level : c ≤ 4) (target : Grammar) (next : Environment)
    (rule : CString) (e : GrammarEntry) (space : ¬ Choosing c ∨ ' ' ∉ rule)
    (fresh : environmentLookup next (chaosRule rule) = none) :
    (Finset.univ.filter fun k => picksFormer c k = true).card = c ∧
      Overwrites c target next rule e := by
  refine ⟨card_picksFormer level, ?_, ?_, ?_⟩
  · intro fuel draws
    by_cases choosing : Choosing c
    · have named := space.resolve_left (not_not.mpr choosing)
      simp only [if_pos choosing]
      rw [overwrite_choosing choosing]
      apply decode_versions named fresh
      rw [← levelVersions_picks choosing, residue,
        Nat.mod_mod_of_dvd _ (length_levelVersions choosing)]
    · simp only [if_neg choosing, decodeRule_entry]
      obtain rfl | rfl : c = 0 ∨ c = 4 := by
        unfold Choosing at choosing
        omega
      · have found : environmentLookup (newEnvironment (overwriteRuleWithChaos (0 : Nat) target
            (newEnvironment target next) rule e) next) rule = some e := by
          simp [newEnvironment, overwriteRuleWithChaos]
        rw [found]
        rfl
      · rfl
  · intro key own chaos order
    rw [newEnvironment, newEnvironment, environmentLookup_cons, environmentLookup_cons,
      overwrite_other c _ own chaos order]
  · rintro rfl
    rfl

end

theorem overwrite_expands_first : (decodeRule 4 (cstr "r") (newEnvironment (overwriteRuleWithChaos 1
    (grammarInsert createGrammar (cstr "r") (some (.byteArray [1])))
    (newEnvironment (grammarInsert createGrammar (cstr "r") (some (.byteArray [1]))) [])
    (cstr "r") (.byteArray [2])) [])).run (Stream'.const 0) =
      .ok (.of [1], (Stream'.const 0).tail) :=
  ((overwrite_expands 1 (by decide) (grammarInsert createGrammar (cstr "r") (some (.byteArray [1])))
    [] (cstr "r") (.byteArray [2]) (.inr (by decide)) rfl).2.expands 0 (Stream'.const 0)).trans rfl

/-- A reference is read as a text, so behind a name with a blank neither definition is
found, whatever is drawn. -/
theorem blank_name_loses_both : ¬ Overwrites 2 createGrammar [] (cstr "a b") (.byteArray [7]) ∧
    ∀ k : Fin 4, ((decodeRule 4 (cstr "a b") (newEnvironment (overwriteRuleWithChaos 2 createGrammar
      (newEnvironment createGrammar []) (cstr "a b") (.byteArray [7])) [])).run
        (Stream'.const ⟨k.val, by omega⟩)).map Prod.fst = .ok .none := by
  have lost : ∀ k : Fin 4, ((decodeRule 4 (cstr "a b") (newEnvironment (overwriteRuleWithChaos 2
      createGrammar (newEnvironment createGrammar []) (cstr "a b") (.byteArray [7])) [])).run
        (Stream'.const ⟨k.val, by omega⟩)).map Prod.fst = .ok .none := by
    decide +kernel
  refine ⟨?_, lost⟩
  intro overwrites
  have expanded := overwrites.expands 0 (Stream'.const 0)
  have nothing := lost 0
  have same := (congrArg (Except.map Prod.fst) expanded).symm.trans nothing
  exact absurd same (by decide +kernel)

end Amqpgram
