import Amqpgram.Fuzzer.Overwrites
import Amqpgram.Grammar.References
import Amqpgram.Library.Transitions

/-! Overwrites on a chain of grammars, one after another. Each stores the definition it
finds under a name made of the rule's own, so what it finds must not already be an
array that refers to that name, and nothing else may use the name. -/
namespace Amqpgram

/-- A call on the grammar at a depth of the chain, which looks the rule up from a scope
on: the grammar itself, or the one behind it. -/
structure OverwriteCall where
  depth : Nat
  scope : Nat
  rule : CString
  orderedRule : GrammarEntry

/-- A call that was made, with the definition it found in force. -/
structure Overwritten where
  depth : Nat
  rule : CString
  former : Option GrammarEntry
  orderedRule : GrammarEntry

structure Chain where
  grammars : Environment
  made : List Overwritten

def Chain.inForce (s : Chain) (call : OverwriteCall) : Option GrammarEntry :=
  environmentLookup (s.grammars.drop call.scope) call.rule

def Chain.record (s : Chain) (call : OverwriteCall) : Overwritten :=
  ⟨call.depth, call.rule, s.inForce call, call.orderedRule⟩

def Chain.after (ruleChaos : Nat) (s : Chain) (call : OverwriteCall) : Chain :=
  ⟨s.grammars.modify call.depth fun target =>
      overwriteRuleWithChaos ruleChaos target (s.grammars.drop call.scope) call.rule
        call.orderedRule,
    s.made ++ [s.record call]⟩

/-- The key is one under which a call on the rule stores a definition. -/
def StoredKey (rule key : CString) : Prop := key = chaosRule rule ∨ key = orderRule rule

instance (rule key : CString) : Decidable (StoredKey rule key) :=
  inferInstanceAs (Decidable (_ ∨ _))

/-- The grammars of the chain or the calls use the name: they define it or refer to it. -/
inductive Used (chain : Environment) (made : List Overwritten) (name : CString) : Prop where
  | defined {g entry} : g ∈ chain → grammarLookup g name = some entry → Used chain made name
  | referred {g n entry} : g ∈ chain → grammarLookup g n = some entry →
      name ∈ entry.references → Used chain made name
  | overwritten {o} : o ∈ made → o.rule = name → Used chain made name
  | ordered {o} : o ∈ made → name ∈ o.orderedRule.references → Used chain made name

/-- The keys under which the calls store are used for nothing else. -/
def Apart (chain : Environment) (made : List Overwritten) : Prop :=
  ∀ o ∈ made, ∀ key, StoredKey o.rule key → ¬ Used chain made key

/-- The rule is a name, the definition that the call finds is the one in force at its grammar
and is not the array of an earlier call, and the keys it stores under are its own. -/
structure Composable (chain : Environment) (s : Chain) (call : OverwriteCall) : Prop where
  name : ' ' ∉ call.rule
  agrees : environmentLookup (s.grammars.drop call.depth) call.rule = s.inForce call
  unsaved : ∀ entry ∈ s.inForce call, chaosRule call.rule ∉ entry.references
  apart : Apart chain (s.made ++ [s.record call])

/-- One name refers to another through the entry it has in an environment. -/
def Refers (env : Environment) (n m : CString) : Prop :=
  ∃ entry ∈ environmentLookup env n, m ∈ entry.references

/-- A lookup from this depth on finds the rule in the grammar of the call. -/
def Overwritten.Seen (o : Overwritten) (grammars : Environment) (depth : Nat) : Prop :=
  depth ≤ o.depth ∧ environmentLookup ((grammars.take o.depth).drop depth) o.rule = none

/-- The references in the chain before any call, and those of the ordered definitions that
are seen. -/
def Originally (chain : Environment) (s : Chain) (depth : Nat) (n m : CString) : Prop :=
  Refers (chain.drop depth) n m ∨
    ∃ o ∈ s.made, o.Seen s.grammars depth ∧ o.rule = n ∧ m ∈ o.orderedRule.references

/-- The rule that a stored key belongs to. -/
def origin (made : List Overwritten) (name : CString) : CString :=
  match made.find? fun o => StoredKey o.rule name with
  | some o => o.rule
  | none => name

def entryAt (env : Environment) (i : Nat) (n : CString) : Option GrammarEntry :=
  env[i]?.bind fun g => grammarLookup g n

section Lookups
variable {env : Environment} {depth : Nat} {n : CString} {entry : GrammarEntry}

theorem entryAt_mem {i : Nat} (found : entryAt env i n = some entry) :
    ∃ g ∈ env, grammarLookup g n = some entry := by
  obtain ⟨g, there, own⟩ := Option.bind_eq_some_iff.mp found
  exact ⟨g, List.mem_of_getElem? there, own⟩

theorem environmentLookup_none :
    environmentLookup env n = none ↔ ∀ i, entryAt env i n = none := by
  rw [environmentLookup, List.findSome?_eq_none_iff]
  constructor
  · intro none_left i
    rw [entryAt, Option.bind_eq_none_iff]
    exact fun g there => none_left g (List.mem_of_getElem? there)
  · intro each g member
    obtain ⟨i, there⟩ := List.mem_iff_getElem?.mp member
    have own := each i
    rwa [entryAt, there] at own

theorem environmentLookup_some : environmentLookup env n = some entry ↔
    ∃ i, entryAt env i n = some entry ∧ ∀ j < i, entryAt env j n = none := by
  induction env with
  | nil => simp [entryAt]
  | cons g env ih =>
    rw [environmentLookup_cons]
    cases first : grammarLookup g n with
    | some e =>
      rw [Option.some_or]
      constructor
      · rintro found
        exact ⟨0, by simpa [entryAt, first] using found, by simp⟩
      · rintro ⟨i, found, none_before⟩
        cases i with
        | zero => simpa [entryAt, first] using found
        | succ i => simpa [entryAt, first] using none_before 0 (by omega)
    | none =>
      rw [Option.none_or, ih]
      constructor
      · rintro ⟨i, found, none_before⟩
        refine ⟨i + 1, by simpa [entryAt] using found, ?_⟩
        rintro (_ | j) before
        · simpa [entryAt] using first
        · simpa [entryAt] using none_before j (by omega)
      · rintro ⟨i, found, none_before⟩
        cases i with
        | zero => simp [entryAt, first] at found
        | succ i =>
          refine ⟨i, by simpa [entryAt] using found, ?_⟩
          intro j before
          simpa [entryAt] using none_before (j + 1) (by omega)

theorem entryAt_drop (i : Nat) : entryAt (env.drop depth) i n = entryAt env (depth + i) n := by
  rw [entryAt, entryAt, List.getElem?_drop]

theorem lookup_from_none : environmentLookup (env.drop depth) n = none ↔
    ∀ i, depth ≤ i → entryAt env i n = none := by
  simp only [environmentLookup_none, entryAt_drop]
  constructor
  · intro each i behind
    have own := each (i - depth)
    rwa [Nat.add_sub_cancel' behind] at own
  · exact fun each i => each (depth + i) (Nat.le_add_right ..)

theorem lookup_from_some : environmentLookup (env.drop depth) n = some entry ↔
    ∃ i, depth ≤ i ∧ entryAt env i n = some entry ∧
      ∀ j, depth ≤ j → j < i → entryAt env j n = none := by
  simp only [environmentLookup_some, entryAt_drop]
  constructor
  · rintro ⟨i, found, none_before⟩
    refine ⟨depth + i, Nat.le_add_right .., found, ?_⟩
    intro j behind before
    have own := none_before (j - depth) (by omega)
    rwa [Nat.add_sub_cancel' behind] at own
  · rintro ⟨i, behind, found, none_before⟩
    refine ⟨i - depth, by rwa [Nat.add_sub_cancel' behind], ?_⟩
    exact fun j before => none_before (depth + j) (Nat.le_add_right ..) (by omega)

theorem seen_iff {o : Overwritten} : o.Seen env depth ↔
    depth ≤ o.depth ∧ ∀ j, depth ≤ j → j < o.depth → entryAt env j o.rule = none := by
  have inside : ∀ j, entryAt (env.take o.depth) j o.rule =
      if j < o.depth then entryAt env j o.rule else none := by
    intro j
    by_cases before : j < o.depth
    · rw [entryAt, entryAt, List.getElem?_take_of_lt before, if_pos before]
    · rw [entryAt, List.getElem?_take_eq_none (by omega), if_neg before]
      rfl
  rw [Overwritten.Seen, lookup_from_none]
  simp only [inside]
  refine and_congr_right fun _ => forall_congr' fun j => forall_congr' fun _ => ?_
  split
  · rename_i before
    exact ⟨fun own _ => own, fun own => own before⟩
  · rename_i behind
    exact ⟨fun _ before => (behind before).elim, fun _ => rfl⟩

end Lookups

/-! ### StoredKey keys -/

section Keys
variable {made : List Overwritten} {rule rule' key n : CString} {o : Overwritten}

theorem StoredKey.rule_eq (stored : StoredKey rule key) (stored' : StoredKey rule' key) :
    rule = rule' := by
  rcases stored with rfl | rfl <;> rcases stored' with same | same
  · exact chaosRule_inj.mp same
  · exact (chaosRule_ne_orderRule _ _ same).elim
  · exact (chaosRule_ne_orderRule _ _ same.symm).elim
  · exact orderRule_inj.mp same

theorem origin_own (own : ∀ o ∈ made, ¬ StoredKey o.rule n) : origin made n = n := by
  have none_found : made.find? (fun o => StoredKey o.rule n) = none := by
    simpa [List.find?_eq_none] using own
  rw [origin, none_found]

theorem origin_stored (member : o ∈ made) (stored : StoredKey o.rule n) :
    origin made n = o.rule := by
  rw [origin]
  cases found : made.find? fun o => StoredKey o.rule n with
  | none => exact absurd stored (by simpa using List.find?_eq_none.mp found o member)
  | some o' => exact StoredKey.rule_eq (by simpa using List.find?_some found) stored

theorem Apart.own {chain : Environment} (apart : Apart chain made) (used : Used chain made n) :
    ∀ o ∈ made, ¬ StoredKey o.rule n :=
  fun o member stored => apart o member n stored used

theorem references_levelVersions {c : Nat} (space : ' ' ∉ rule)
    (member : key ∈ (GrammarEntry.stringArray (levelVersions c rule)).references) :
    StoredKey rule key := by
  obtain ⟨text, version, named⟩ := List.mem_flatMap.mp member
  rcases mem_levelVersions version with rfl | rfl
  · rw [references_name (space_chaosRule space) ⟨'f', rfl, rfl⟩] at named
    exact .inl (List.mem_singleton.mp named)
  · rw [references_name (space_orderRule space) ⟨'f', rfl, rfl⟩] at named
    exact .inr (List.mem_singleton.mp named)

theorem levelVersions_refers {c : Nat} (space : ' ' ∉ rule) :
    chaosRule rule ∈ (GrammarEntry.stringArray (levelVersions c rule)).references := by
  refine List.mem_flatMap.mpr ⟨chaosRule rule, ?_, ?_⟩
  · change chaosRule rule ∈ levelVersions c rule
    unfold levelVersions
    split <;> simp
  · rw [references_name (space_chaosRule space) ⟨'f', rfl, rfl⟩]
    exact List.mem_singleton_self _

end Keys

/-! ### What every call keeps -/

/-- Each grammar holds what the calls on it stored, and under any other key what it held
before them; the definition that a call found is the one of the chain before any call. -/
structure Chain.Kept (c : Nat) (chain : Environment) (s : Chain) : Prop where
  name : ∀ o ∈ s.made, ' ' ∉ o.rule
  apart : Apart chain s.made
  array : ∀ o ∈ s.made, entryAt s.grammars o.depth o.rule =
    some (.stringArray (levelVersions c o.rule))
  chaos : ∀ o ∈ s.made, entryAt s.grammars o.depth (chaosRule o.rule) = o.former
  order : ∀ o ∈ s.made, entryAt s.grammars o.depth (orderRule o.rule) = some o.orderedRule
  rest : ∀ i n, (∀ o ∈ s.made, o.depth = i → n ≠ o.rule ∧ ¬ StoredKey o.rule n) →
    entryAt s.grammars i n = entryAt chain i n
  former : ∀ o ∈ s.made, o.former = environmentLookup (chain.drop o.depth) o.rule

section
variable {c : Nat} {chain : Environment} {s : Chain} {call : OverwriteCall} {o : Overwritten}
  {n m key : CString} {i depth : Nat} {entry : GrammarEntry}

theorem entryAt_used {made : List Overwritten} (found : entryAt chain i n = some entry) :
    Used chain made n := by
  obtain ⟨g, inside, own⟩ := entryAt_mem found
  exact .defined inside own

theorem entryAt_refers {made : List Overwritten} (found : entryAt chain i n = some entry)
    (reference : m ∈ entry.references) : Used chain made m := by
  obtain ⟨g, inside, own⟩ := entryAt_mem found
  exact .referred inside own reference

theorem Chain.Kept.entry_own (kept : s.Kept c chain) (own : ∀ o ∈ s.made, ¬ StoredKey o.rule n)
    (i : Nat) : entryAt s.grammars i n = entryAt chain i n ∨
      ∃ o ∈ s.made, o.depth = i ∧ o.rule = n := by
  by_cases called : ∃ o ∈ s.made, o.depth = i ∧ o.rule = n
  · exact .inr called
  · refine .inl (kept.rest i n ?_)
    intro o member at_depth
    exact ⟨fun same => called ⟨o, member, at_depth, same.symm⟩, own o member⟩

/-- A stored key has an entry only where a call on its rule was made. -/
theorem Chain.Kept.entry_stored (kept : s.Kept c chain) (member : o ∈ s.made)
    (stored : StoredKey o.rule key) (found : entryAt s.grammars i key = some entry) :
    ∃ o' ∈ s.made, o'.depth = i ∧ o'.rule = o.rule := by
  by_contra none_made
  have original := kept.rest i key ?_
  · rw [original] at found
    exact kept.apart o member key stored (entryAt_used found)
  · intro o' there at_depth
    constructor
    · exact fun same => kept.apart o member key stored (.overwritten there same.symm)
    · intro stored'
      exact none_made ⟨o', there, at_depth, StoredKey.rule_eq stored' stored⟩

theorem Chain.Kept.none_own (kept : s.Kept c chain) (own : ∀ o ∈ s.made, ¬ StoredKey o.rule n)
    (none_left : entryAt s.grammars i n = none) : entryAt chain i n = none := by
  rcases kept.entry_own own i with same | ⟨o, member, rfl, rfl⟩
  · rwa [← same]
  · rw [kept.array o member] at none_left
    cases none_left

theorem Chain.Kept.lookup_own (kept : s.Kept c chain) (own : ∀ o ∈ s.made, ¬ StoredKey o.rule n)
    (found : environmentLookup (s.grammars.drop depth) n = some entry) :
    environmentLookup (chain.drop depth) n = some entry ∨
      ∃ o ∈ s.made, o.rule = n ∧ o.Seen s.grammars depth ∧
        entry = .stringArray (levelVersions c n) := by
  obtain ⟨i, behind, there, none_before⟩ := lookup_from_some.mp found
  rcases kept.entry_own own i with same | ⟨o, member, rfl, rfl⟩
  · refine .inl (lookup_from_some.mpr ⟨i, behind, same ▸ there, ?_⟩)
    exact fun j after before => kept.none_own own (none_before j after before)
  · refine .inr ⟨o, member, rfl, seen_iff.mpr ⟨behind, none_before⟩, ?_⟩
    rw [kept.array o member] at there
    exact (Option.some.inj there).symm

/-- The array of an earlier call refers to the chaos name, so a definition that does not is
the one of the chain. -/
theorem Chain.Kept.lookup_unsaved (kept : s.Kept c chain) (space : ' ' ∉ n)
    (own : ∀ o ∈ s.made, ¬ StoredKey o.rule n)
    (unsaved : ∀ entry ∈ environmentLookup (s.grammars.drop depth) n,
      chaosRule n ∉ entry.references) :
    environmentLookup (s.grammars.drop depth) n = environmentLookup (chain.drop depth) n := by
  cases found : environmentLookup (s.grammars.drop depth) n with
  | none =>
    have none_left := lookup_from_none.mp found
    exact (lookup_from_none.mpr fun i behind => kept.none_own own (none_left i behind)).symm
  | some entry =>
    rcases kept.lookup_own own found with original | ⟨o, member, rfl, _, rfl⟩
    · exact original.symm
    · exact (unsaved _ found (levelVersions_refers space)).elim

theorem entryAt_after_other (other : i ≠ call.depth) :
    entryAt (s.after c call).grammars i n = entryAt s.grammars i n := by
  rw [entryAt, entryAt, Chain.after, List.getElem?_modify_ne _ _ (Ne.symm other)]

theorem entryAt_after (inside : call.depth < s.grammars.length) :
    entryAt (s.after c call).grammars call.depth n =
      grammarLookup (overwriteRuleWithChaos c s.grammars[call.depth]
        (s.grammars.drop call.scope) call.rule call.orderedRule) n := by
  rw [entryAt, Chain.after, List.getElem?_modify_eq, List.getElem?_eq_getElem inside]
  rfl

theorem entryAt_after_apart (apart : n ≠ call.rule ∧ ¬ StoredKey call.rule n) :
    entryAt (s.after c call).grammars i n = entryAt s.grammars i n := by
  obtain ⟨own, stored⟩ := apart
  rw [StoredKey, not_or] at stored
  by_cases here : i = call.depth
  · subst here
    by_cases inside : call.depth < s.grammars.length
    · rw [entryAt_after inside, overwrite_other c _ own stored.1 stored.2, entryAt,
        List.getElem?_eq_getElem inside]
      rfl
    · rw [entryAt, entryAt, Chain.after, List.getElem?_modify_eq,
        List.getElem?_eq_none (Nat.le_of_not_lt inside)]
      rfl
  · exact entryAt_after_other here

theorem Composable.own (composable : Composable chain s call) :
    ∀ o ∈ s.made, ¬ StoredKey o.rule call.rule := by
  intro o member stored
  exact composable.apart o (List.mem_append_left _ member) call.rule stored
    (.overwritten (List.mem_append_right _ (List.mem_singleton_self _)) rfl)

section
variable (kept : s.Kept c chain) (composable : Composable chain s call)
include kept composable

/-- An earlier call on the same grammar was on another rule, so all of its keys are others. -/
theorem keys_apart (member : o ∈ s.made) (same : o.depth = call.depth)
    (stored : key = o.rule ∨ StoredKey o.rule key) :
    key ≠ call.rule ∧ ¬ StoredKey call.rule key := by
  have other : o.rule ≠ call.rule := by
    intro rule
    have found : environmentLookup (s.grammars.drop call.depth) call.rule =
        some (.stringArray (levelVersions c call.rule)) := by
      refine lookup_from_some.mpr ⟨call.depth, Nat.le_refl _, ?_, fun j _ _ => by omega⟩
      rw [← rule, ← same]
      exact kept.array o member
    exact composable.unsaved _ (composable.agrees ▸ found) (levelVersions_refers composable.name)
  rcases stored with rfl | stored
  · refine ⟨other, ?_⟩
    intro stored
    exact composable.apart _ (List.mem_append_right _ (List.mem_singleton_self _)) _ stored
      (.overwritten (List.mem_append_left _ member) rfl)
  · constructor
    · rintro rfl
      exact composable.own o member stored
    · exact fun stored' => other (stored.rule_eq stored')

theorem former_call : s.inForce call = environmentLookup (chain.drop call.depth) call.rule := by
  rw [← composable.agrees]
  apply kept.lookup_unsaved composable.name composable.own
  rw [composable.agrees]
  exact composable.unsaved

theorem Chain.Kept.after (choosing : Choosing c) (inside : call.depth < s.grammars.length) :
    (s.after c call).Kept c chain := by
  have old : ∀ o ∈ s.made, ∀ key, key = o.rule ∨ StoredKey o.rule key →
      entryAt (s.after c call).grammars o.depth key = entryAt s.grammars o.depth key := by
    intro o member key stored
    by_cases same : o.depth = call.depth
    · exact entryAt_after_apart (keys_apart kept composable member same stored)
    · exact entryAt_after_other same
  refine ⟨?_, composable.apart, ?_, ?_, ?_, ?_, ?_⟩
  · intro o member
    rcases List.mem_append.mp member with before | new
    · exact kept.name o before
    · obtain rfl := List.mem_singleton.mp new
      exact composable.name
  · intro o member
    rcases List.mem_append.mp member with before | new
    · rw [old o before _ (.inl rfl), kept.array o before]
    · obtain rfl := List.mem_singleton.mp new
      change entryAt _ call.depth call.rule = _
      rw [entryAt_after inside, overwrite_choosing choosing, versions_rule]
      rfl
  · intro o member
    rcases List.mem_append.mp member with before | new
    · rw [old o before _ (.inr (.inl rfl)), kept.chaos o before]
    · obtain rfl := List.mem_singleton.mp new
      change entryAt _ call.depth (chaosRule call.rule) = _
      rw [entryAt_after inside, overwrite_choosing choosing, versions_chaos]
      rfl
  · intro o member
    rcases List.mem_append.mp member with before | new
    · rw [old o before _ (.inr (.inr rfl)), kept.order o before]
    · obtain rfl := List.mem_singleton.mp new
      change entryAt _ call.depth (orderRule call.rule) = _
      rw [entryAt_after inside, overwrite_choosing choosing, versions_order]
      rfl
  · intro i n apart
    have others : ∀ o ∈ s.made, o.depth = i → n ≠ o.rule ∧ ¬ StoredKey o.rule n :=
      fun o member => apart o (List.mem_append_left _ member)
    rw [← kept.rest i n others]
    by_cases here : call.depth = i
    · exact entryAt_after_apart
        (apart (s.record call) (List.mem_append_right _ (List.mem_singleton_self _)) here)
    · exact entryAt_after_other (Ne.symm here)
  · intro o member
    rcases List.mem_append.mp member with before | new
    · exact kept.former o before
    · obtain rfl := List.mem_singleton.mp new
      exact former_call kept composable

end

theorem Chain.Kept.selectable (kept : s.Kept c chain) (member : o ∈ s.made)
    (seen : o.Seen s.grammars depth) :
    environmentLookup (s.grammars.drop depth) o.rule =
      some (.stringArray (levelVersions c o.rule)) ∧
    environmentLookup (s.grammars.drop depth) (chaosRule o.rule) = o.former ∧
    environmentLookup (s.grammars.drop depth) (orderRule o.rule) = some o.orderedRule := by
  obtain ⟨behind, none_before⟩ := seen_iff.mp seen
  -- in front of the call there is none on the rule, and so nothing under its keys
  have nothing : ∀ key, StoredKey o.rule key → ∀ j, depth ≤ j → j < o.depth →
      entryAt s.grammars j key = none := by
    intro key stored j after before
    cases found : entryAt s.grammars j key with
    | none => rfl
    | some entry =>
      obtain ⟨o', there, rfl, same⟩ := kept.entry_stored member stored found
      have array := kept.array o' there
      rw [same, none_before _ after before] at array
      cases array
  refine ⟨?_, ?_, ?_⟩
  · exact lookup_from_some.mpr ⟨o.depth, behind, kept.array o member, none_before⟩
  · cases former : o.former with
    | some entry =>
      refine lookup_from_some.mpr ⟨o.depth, behind, ?_, nothing _ (.inl rfl)⟩
      rw [kept.chaos o member, former]
    | none =>
      refine lookup_from_none.mpr fun i after => ?_
      cases found : entryAt s.grammars i (chaosRule o.rule) with
      | none => rfl
      | some entry =>
        obtain ⟨o', there, rfl, same⟩ := kept.entry_stored member (.inl rfl) found
        have later : o.depth ≤ o'.depth := by
          by_contra before
          rw [nothing _ (.inl rfl) _ after (Nat.lt_of_not_le before)] at found
          cases found
        have undefined := lookup_from_none.mp ((kept.former o member).symm.trans former)
        have own := kept.chaos o' there
        rw [same, found, kept.former o' there, same,
          lookup_from_none.mpr fun j beyond => undefined j (later.trans beyond)] at own
        cases own
  · exact lookup_from_some.mpr ⟨o.depth, behind, kept.order o member, nothing _ (.inr rfl)⟩

theorem Chain.Kept.referrer (kept : s.Kept c chain) (member : o ∈ s.made)
    (stored : StoredKey o.rule key) (refers : Refers (s.grammars.drop depth) n key) :
    ∃ o' ∈ s.made, o'.rule = o.rule ∧ o'.Seen s.grammars depth := by
  have unused := kept.apart o member key stored
  obtain ⟨entry, found, reference⟩ := refers
  by_cases own : ∀ o ∈ s.made, ¬ StoredKey o.rule n
  · rcases kept.lookup_own own found with original | ⟨o', there, rfl, seen, rfl⟩
    · obtain ⟨i, _, at_depth, _⟩ := lookup_from_some.mp original
      exact (unused (entryAt_refers at_depth reference)).elim
    · have array := references_levelVersions (kept.name o' there) reference
      exact ⟨o', there, array.rule_eq stored, seen⟩
  · obtain ⟨o', there, stored'⟩ : ∃ o ∈ s.made, StoredKey o.rule n := by simpa using own
    obtain ⟨i, _, at_depth, _⟩ := lookup_from_some.mp found
    obtain ⟨o'', inside, rfl, same⟩ := kept.entry_stored there stored' at_depth
    rw [← same] at stored'
    rcases stored' with rfl | rfl
    · rw [kept.chaos o'' inside, kept.former o'' inside] at at_depth
      obtain ⟨j, _, original, _⟩ := lookup_from_some.mp at_depth
      exact (unused (entryAt_refers original reference)).elim
    · rw [kept.order o'' inside] at at_depth
      obtain rfl := Option.some.inj at_depth
      exact (unused (.ordered inside reference)).elim

theorem Chain.Kept.original (kept : s.Kept c chain) (member : o ∈ s.made)
    (seen : o.Seen s.grammars depth) (defined : o.former = some entry) :
    environmentLookup (chain.drop depth) o.rule = some entry := by
  obtain ⟨behind, none_before⟩ := seen_iff.mp seen
  rw [kept.former o member] at defined
  obtain ⟨i, after, found, none_between⟩ := lookup_from_some.mp defined
  refine lookup_from_some.mpr ⟨i, behind.trans after, found, ?_⟩
  have own : ∀ o' ∈ s.made, ¬ StoredKey o'.rule o.rule :=
    kept.apart.own (.overwritten member rfl)
  intro j beyond before
  by_cases front : j < o.depth
  · exact kept.none_own own (none_before j beyond front)
  · exact none_between j (Nat.le_of_not_lt front) before

theorem Chain.Kept.projects (kept : s.Kept c chain) (depth : Nat) :
    Loops.Projects (Loops.Entered (Refers (s.grammars.drop depth))) (Originally chain s depth)
      (origin s.made) List.length := by
  rintro n m ⟨⟨entry, found, reference⟩, before, entered⟩
  by_cases own : ∀ o ∈ s.made, ¬ StoredKey o.rule n
  · rw [origin_own own]
    rcases kept.lookup_own own found with original | ⟨o, member, rfl, _, rfl⟩
    · obtain ⟨i, _, at_depth, _⟩ := lookup_from_some.mp original
      rw [origin_own (kept.apart.own (entryAt_refers at_depth reference))]
      exact .inr (.inl ⟨entry, original, reference⟩)
    · have stored := references_levelVersions (kept.name o member) reference
      rw [origin_stored member stored]
      refine .inl ⟨rfl, ?_⟩
      rcases stored with rfl | rfl
      · rw [length_chaosRule]
        omega
      · rw [length_orderRule]
        omega
  · obtain ⟨o, member, stored⟩ : ∃ o ∈ s.made, StoredKey o.rule n := by simpa using own
    -- only the array of the rule leads to its stored key
    obtain ⟨o', there, same, seen⟩ := kept.referrer member stored entered
    obtain ⟨_, chaos, order⟩ := kept.selectable there seen
    rw [← same] at stored
    rw [origin_stored there stored]
    refine .inr ?_
    rcases stored with rfl | rfl
    · have original := kept.original there seen (chaos.symm.trans found)
      obtain ⟨i, _, at_depth, _⟩ := lookup_from_some.mp original
      rw [origin_own (kept.apart.own (entryAt_refers at_depth reference))]
      exact .inl ⟨entry, original, reference⟩
    · obtain rfl := Option.some.inj (order.symm.trans found)
      rw [origin_own (kept.apart.own (.ordered there reference))]
      exact .inr ⟨o', there, seen, rfl, reference⟩

theorem Chain.Kept.direct (kept : s.Kept c chain) (member : o ∈ s.made) :
    ∀ entry ∈ o.former, chaosRule o.rule ∉ entry.references := by
  intro entry former reference
  rw [kept.former o member] at former
  obtain ⟨i, _, found, _⟩ := lookup_from_some.mp former
  exact kept.apart o member _ (.inl rfl) (entryAt_refers found reference)

end

/-! ### Grammars that are given as tables -/

end Amqpgram
