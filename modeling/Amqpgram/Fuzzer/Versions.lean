import Amqpgram.Fuzzer.Overwrites
import Amqpgram.Grammar.Ranked

/-! Overwrites keep an environment ranked at every level of chaos: the two versions of a
rule rank right below it and stand for the words of the rule. -/
namespace Amqpgram
open Abnf (Element Body Derives)

/-- The rule that a stored name is made of, through any number of calls. -/
def base (name : CString) : CString :=
  if 13 ≤ name.length ∧
      (name.take 13 = cstr "fuzzer-chaos-" ∨ name.take 13 = cstr "fuzzer-order-") then
    base (name.drop 13)
  else name
termination_by name.length
decreasing_by
  rw [List.length_drop]
  omega

theorem base_chaosRule (rule : CString) : base (chaosRule rule) = base rule := by
  rw [base, if_pos ⟨by rw [length_chaosRule]; omega, .inl rfl⟩]
  rfl

theorem base_orderRule (rule : CString) : base (orderRule rule) = base rule := by
  rw [base, if_pos ⟨by rw [length_orderRule]; omega, .inr rfl⟩]
  rfl

/-- The names in use: rules, and the two versions of the rules made so far. -/
def Versioned (rules made : List CString) (n : CString) : Prop :=
  n ∈ rules ∨ ∃ r ∈ made, n = chaosRule r ∨ n = orderRule r

/-- Rules rank by their place, with room for the versions in between. -/
def versionRank (rules : List CString) (n : CString) : Nat :=
  if base n = n then 2 * rules.idxOf n + 1 else 2 * rules.idxOf (base n)

def versionWords (S : CString → Language UInt8) (n : CString) : Language UInt8 := S (base n)

/-- An environment of these rules in which the versions of the rules made are in place. -/
structure Tidy (rules : List CString) (S : CString → Language UInt8) (made : List CString)
    (env : Environment) : Prop where
  within : ∀ r ∈ made, r ∈ rules
  ranked : Ranked env (Versioned rules made) (versionRank rules) (versionWords S)
  unmade : ∀ r ∈ rules, r ∉ made → environmentLookup env (chaosRule r) = none

theorem readAlternative_name {name : CString} (space : ' ' ∉ name)
    (plain : ∃ c ∈ name.head?, special c = false) :
    readAlternative name = some [.rule name] := by
  obtain ⟨c, rest, rfl, ordinary⟩ := plain_cons plain
  have letter := ordinary
  simp only [special, Bool.or_eq_false_iff, decide_eq_false_iff_not] at letter
  obtain ⟨⟨⟨⟨⟨_, _⟩, percent⟩, quote⟩, opening⟩, _⟩ := letter
  rw [readAlternative, Tokens.tokens_of_not_mem space (by simp)]
  simp [readElement, percent, quote, opening, ordinary]

theorem readEntry_versions {rule : CString} (space : ' ' ∉ rule) (c : Nat) :
    readEntry (.stringArray (levelVersions c rule)) =
      some ((levelVersions c rule).map fun version => [.rule version]) := by
  have chaos := readAlternative_name (space_chaosRule space) ⟨'f', rfl, rfl⟩
  have order := readAlternative_name (space_orderRule space) ⟨'f', rfl, rfl⟩
  unfold levelVersions
  split <;> simp [readEntry, chaos, order]

section
variable {rules made : List CString} {S : CString → Language UInt8} {r n : CString}
variable {g : Grammar} {next : Environment} {e : GrammarEntry} {body : Body CString} {c : Nat}

theorem rank_rule (plain : base r = r) : versionRank rules r = 2 * rules.idxOf r + 1 := if_pos plain

theorem rank_chaos (plain : base r = r) :
    versionRank rules (chaosRule r) = 2 * rules.idxOf r := by
  rw [versionRank, base_chaosRule, plain, if_neg (chaosRule_ne r).symm]

theorem rank_order (plain : base r = r) :
    versionRank rules (orderRule r) = 2 * rules.idxOf r := by
  rw [versionRank, base_orderRule, plain, if_neg (orderRule_ne r).symm]

theorem words_rule (plain : base r = r) : versionWords S r = S r := by rw [versionWords, plain]

theorem words_chaos (plain : base r = r) : versionWords S (chaosRule r) = S r := by
  rw [versionWords, base_chaosRule, plain]

theorem words_order (plain : base r = r) : versionWords S (orderRule r) = S r := by
  rw [versionWords, base_orderRule, plain]

/-- No name in use but the versions of a rule ranks right below it. -/
theorem Tidy.below {env : Environment} (tidy : Tidy rules S made env)
    (plain : ∀ r ∈ rules, base r = r) (fresh : r ∉ made)
    (inside : Versioned rules made n) (lower : versionRank rules n < 2 * rules.idxOf r + 1) :
    versionRank rules n < 2 * rules.idxOf r := by
  rcases inside with rule | ⟨m, member, version⟩
  · rw [rank_rule (plain n rule)] at lower ⊢
    omega
  · have inside := tidy.within m member
    have place : versionRank rules n = 2 * rules.idxOf m := by
      rcases version with rfl | rfl
      · exact rank_chaos (plain m inside)
      · exact rank_order (plain m inside)
    have apart : rules.idxOf m ≠ rules.idxOf r := by
      intro same
      have one := (List.idxOf_inj inside).mp same
      exact fresh (one ▸ member)
    omega

theorem fits_versions (plain : base r = r) :
    Fits (Versioned rules (r :: made)) (versionRank rules) (versionWords S) (versionRank rules r)
      (versionWords S r) ((levelVersions c r).map fun version => [.rule version]) := by
  have known : ∀ version ∈ levelVersions c r, Versioned rules (r :: made) version :=
    fun version member => .inr ⟨r, List.mem_cons_self .., mem_levelVersions member⟩
  have lower : ∀ version ∈ levelVersions c r, versionRank rules version < versionRank rules r := by
    intro version member
    rw [rank_rule plain]
    rcases mem_levelVersions member with rfl | rfl
    · rw [rank_chaos plain]
      omega
    · rw [rank_order plain]
      omega
  have same : ∀ version ∈ levelVersions c r, versionWords S version = versionWords S r := by
    intro version member
    rw [words_rule plain]
    rcases mem_levelVersions member with rfl | rfl
    · exact words_chaos plain
    · exact words_order plain
  refine ⟨?_, ?_, ?_⟩
  · unfold levelVersions
    split <;> simp
  · intro alt ha e he
    obtain ⟨version, member, rfl⟩ := List.mem_map.mp ha
    obtain rfl := List.mem_singleton.mp he
    refine ⟨⟨known version member, lower version member⟩, by simp [nesting], ?_⟩
    intro m hm
    obtain rfl := List.mem_singleton.mp hm
    exact known m member
  · intro alt ha w d
    obtain ⟨version, member, rfl⟩ := List.mem_map.mp ha
    rw [← same version member]
    exact Abnf.language_spelling.mp d

theorem expansionOf_congr {env env' : Environment}
    (same : environmentLookup env' n = environmentLookup env r) :
    expansionOf env' n = expansionOf env r := by
  rw [expansionOf, expansionOf, same]

/-- The environment of a grammar after a rule is put over in it. -/
abbrev putOver (c : Nat) (g : Grammar) (next : Environment) (r : CString) (e : GrammarEntry) :
    Environment := overwriteRuleWithChaos c g (g :: next) r e :: next

theorem putOver_other (own : n ≠ r) (chaos : n ≠ chaosRule r) (order : n ≠ orderRule r) :
    environmentLookup (putOver c g next r e) n = environmentLookup (g :: next) n := by
  rw [environmentLookup_cons, environmentLookup_cons, overwrite_other c _ own chaos order]

theorem putOver_rule (choosing : Choosing c) (space : ' ' ∉ r) :
    expansionOf (putOver c g next r e) r =
      some ((levelVersions c r).map fun version => [.rule version]) := by
  rw [expansionOf, environmentLookup_cons, overwrite_choosing choosing, versions_rule]
  exact readEntry_versions space c

theorem putOver_chaos (choosing : Choosing c)
    (absent : environmentLookup (g :: next) (chaosRule r) = none) :
    expansionOf (putOver c g next r e) (chaosRule r) = expansionOf (g :: next) r := by
  rw [environmentLookup_cons, Option.or_eq_none_iff] at absent
  apply expansionOf_congr
  rw [environmentLookup_cons, overwrite_choosing choosing, versions_chaos, absent.2, Option.or_none]

theorem putOver_order (choosing : Choosing c) (read : readEntry e = some body) :
    expansionOf (putOver c g next r e) (orderRule r) = some body := by
  rw [expansionOf, environmentLookup_cons, overwrite_choosing choosing, versions_order]
  exact read

theorem putOver_replaced (read : readEntry e = some body) :
    expansionOf (putOver 0 g next r e) r = some body := by
  rw [expansionOf, environmentLookup_cons]
  have inserted : grammarLookup (overwriteRuleWithChaos (0 : Nat) g (g :: next) r e) r = some e :=
    grammarLookup_insert_self ..
  rw [inserted]
  exact read

theorem length_base_le (n : CString) : (base n).length ≤ n.length := by
  fun_induction base n with
  | case1 n _ ih =>
    rw [List.length_drop] at ih
    omega
  | case2 n _ => exact le_rfl

/-- A rule that is made of itself is no version of another. -/
theorem plain_ne (plain : base r = r) (n : CString) : r ≠ chaosRule n ∧ r ≠ orderRule n := by
  have short := length_base_le n
  constructor
  · rintro rfl
    rw [base_chaosRule] at plain
    have long := length_chaosRule n
    rw [← plain] at long
    omega
  · rintro rfl
    rw [base_orderRule] at plain
    have long := length_orderRule n
    rw [← plain] at long
    omega

theorem Versioned.wider (inside : Versioned rules made n) : Versioned rules (r :: made) n := by
  rcases inside with rule | ⟨m, member, version⟩
  · exact .inl rule
  · exact .inr ⟨m, List.mem_cons_of_mem _ member, version⟩

theorem Versioned.before (inside : Versioned rules (r :: made) n) (chaos : n ≠ chaosRule r)
    (order : n ≠ orderRule r) : Versioned rules made n := by
  rcases inside with rule | ⟨m, member, version⟩
  · exact .inl rule
  · rcases List.mem_cons.mp member with rfl | member
    · exact (version.elim chaos order).elim
    · exact .inr ⟨m, member, version⟩

theorem Tidy.choosing (tidy : Tidy rules S made (g :: next)) (plain : ∀ r ∈ rules, base r = r)
    (choosing : Choosing c) (known : r ∈ rules) (fresh : r ∉ made) (space : ' ' ∉ r)
    (read : readEntry e = some body) (fits : Fits (Versioned rules made) (versionRank rules)
      (versionWords S) (2 * rules.idxOf r) (S r) body) :
    Tidy rules S (r :: made) (putOver c g next r e) := by
  refine ⟨List.forall_mem_cons.mpr ⟨known, tidy.within⟩, ?_, ?_⟩
  · intro n inside
    by_cases own : n = r
    · subst own
      exact ⟨_, putOver_rule choosing space, fits_versions (plain n known)⟩
    by_cases chaos : n = chaosRule r
    · subst chaos
      obtain ⟨former, expansion, fitted⟩ := tidy.ranked r (.inl known)
      refine ⟨former, ?_, ?_⟩
      · rw [putOver_chaos choosing (tidy.unmade r known fresh), expansion]
      · rw [rank_rule (plain r known), words_rule (plain r known)] at fitted
        rw [words_chaos (plain r known), rank_chaos (plain r known)]
        exact fitted.mono (fun _ => Versioned.wider) fun m => tidy.below plain fresh
    by_cases order : n = orderRule r
    · subst order
      refine ⟨body, putOver_order choosing read, ?_⟩
      rw [words_order (plain r known), rank_order (plain r known)]
      exact fits.mono (fun _ => Versioned.wider) fun m _ => id
    · obtain ⟨former, expansion, fitted⟩ := tidy.ranked n (inside.before chaos order)
      refine ⟨former, ?_, fitted.mono (fun _ => Versioned.wider) fun m _ => id⟩
      rw [← expansion]
      exact expansionOf_congr (putOver_other own chaos order)
  · intro m member unmade
    simp only [List.mem_cons, not_or] at unmade
    rw [putOver_other (plain_ne (plain r known) m).1.symm (chaosRule_inj.not.mpr unmade.1)
      (chaosRule_ne_orderRule m r)]
    exact tidy.unmade m member unmade.2

theorem Tidy.replaced (tidy : Tidy rules S made (g :: next)) (plain : ∀ r ∈ rules, base r = r)
    (known : r ∈ rules) (fresh : r ∉ made) (read : readEntry e = some body)
    (fits : Fits (Versioned rules made) (versionRank rules)
      (versionWords S) (2 * rules.idxOf r) (S r) body) :
    Tidy rules S made (putOver 0 g next r e) := by
  have others : ∀ n, n ≠ r → environmentLookup (putOver 0 g next r e) n =
      environmentLookup (g :: next) n := by
    intro n own
    rw [environmentLookup_cons, environmentLookup_cons]
    have kept : grammarLookup (overwriteRuleWithChaos (0 : Nat) g (g :: next) r e) n =
        grammarLookup g n := grammarLookup_insert_of_ne _ _ own
    rw [kept]
  refine ⟨tidy.within, ?_, ?_⟩
  · intro n inside
    by_cases own : n = r
    · subst own
      refine ⟨body, putOver_replaced read, ?_⟩
      rw [words_rule (plain n known), rank_rule (plain n known)]
      exact fits.mono (fun _ => id) fun m _ lower => Nat.lt_succ_of_lt lower
    · obtain ⟨former, expansion, fitted⟩ := tidy.ranked n inside
      refine ⟨former, ?_, fitted⟩
      rw [← expansion]
      exact expansionOf_congr (others n own)
  · intro m member unmade
    rw [others _ (plain_ne (plain r known) m).1.symm]
    exact tidy.unmade m member unmade

theorem Tidy.overwrite (tidy : Tidy rules S made (g :: next)) (plain : ∀ r ∈ rules, base r = r)
    (level : c ≤ 4) (known : r ∈ rules) (fresh : r ∉ made) (space : ' ' ∉ r)
    (read : readEntry e = some body) (fits : Fits (Versioned rules made) (versionRank rules)
      (versionWords S) (2 * rules.idxOf r) (S r) body) :
    ∃ made', Tidy rules S made' (putOver c g next r e) ∧ ∀ m ∈ made', m = r ∨ m ∈ made := by
  by_cases choosing : Choosing c
  · exact ⟨r :: made, tidy.choosing plain choosing known fresh space read fits, by simp⟩
  · obtain rfl | rfl : c = 0 ∨ c = 4 := by
      unfold Choosing at choosing
      omega
    · exact ⟨made, tidy.replaced plain known fresh read fits, fun m => .inr⟩
    · exact ⟨made, tidy, fun m => .inr⟩

end
end Amqpgram
