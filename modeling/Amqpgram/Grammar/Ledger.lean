import Amqpgram.Grammar.Ownership

/-! What the grammars cost. Each operation takes blocks and gives them back; what remains
of a file that was read are the lines of its rules, to which the keys lead, and the arrays
that `parse_value` copied from. -/
namespace Amqpgram.Storage
open Heap

/-! ### Files -/

/-- What `parse_value` leaves behind an entry: the array that it was copied from. -/
inductive LostArray : GrammarEntry → Memory → Prop where
  | string (s : CString) : LostArray (.string s) 0
  | stringArray (strings : List CString) (a : Nat) (qs : List Nat)
      (length : qs.length = strings.length) :
      LostArray (.stringArray strings) ({(a, .pointers (qs.map some))} + texts qs strings)

/-- What `populate_grammar` leaves behind rules: a line for each, for its key, and the array. -/
inductive LostRules : List (CString × GrammarEntry) → Memory → Prop where
  | nil : LostRules [] 0
  | cons {key : CString} {e : GrammarEntry} {rules : List (CString × GrammarEntry)}
      {m m' : Memory} (p : Nat) (array : LostArray e m) (others : LostRules rules m') :
      LostRules ((key, e) :: rules) ({(p, .text key)} + m + m')

/-- The blocks that a rule costs for good. -/
def lostBlocks : GrammarEntry → Nat
  | .stringArray strings => strings.length + 2
  | _ => 1

section
variable {before rest m m' : Memory} {grammar : Grammar} {g : Nat} {ks : Keys}
variable {rules rules' : List (CString × GrammarEntry)}

theorem card_texts {ps : List Nat} {strings : List CString} (length : ps.length = strings.length) :
    (texts ps strings).card = strings.length := by
  rw [texts, Multiset.coe_card, List.length_zipWith, length, Nat.min_self]

theorem LostRules.card (lost : LostRules rules m) :
    m.card = (rules.map fun rule => lostBlocks rule.2).sum := by
  induction lost with
  | nil => rfl
  | @cons key e rules array others p held later ih =>
    rw [Multiset.card_add, Multiset.card_add, Multiset.card_singleton, ih, List.map_cons,
      List.sum_cons]
    cases held with
    | string s => rfl
    | stringArray strings a qs length =>
      rw [Multiset.card_add, Multiset.card_singleton, card_texts length]
      simp only [lostBlocks]
      omega

theorem LostRules.append (lost : LostRules rules m) (lost' : LostRules rules' m') :
    LostRules (rules ++ rules') (m + m') := by
  induction lost with
  | nil => simpa using lost'
  | cons p array others ih =>
    rw [add_assoc]
    exact .cons p array ih

theorem growStrings_does {array : Nat} (entries : List CString) (filled : List Nat)
    (split : before = {(array, .pointers (filled.map some))} + rest) :
    Does (growStrings array entries) before fun a after => ∃ qs : List Nat,
      qs.length = entries.length ∧ after = {(a, .pointers ((filled ++ qs).map some))} +
        (texts qs (entries.map trimString) + rest) := by
  induction entries generalizing before rest array filled with
  | nil =>
    subst split
    exact .pure ⟨[], rfl, by simp⟩
  | cons entry entries ih =>
    have block : (array, Block.pointers (filled.map some)) ∈ before := by simp [split]
    apply (readAs_does Block.pointers? block rfl).step
    apply alloc_does.bind
    rintro moved _ rfl
    apply (free_does (v := .pointers (filled.map some))
      ({(moved, .pointers (filled.map some ++ [none]))} + rest) (by
        rw [split]
        abel)).seq
    intro _
    apply alloc_does.bind
    rintro q _ rfl
    have later : {(q, Block.text (trimString entry))} +
        ({(moved, .pointers (filled.map some ++ [none]))} + rest) =
        {(moved, .pointers (filled.map some ++ [none]))} +
          ({(q, .text (trimString entry))} + rest) := by abel
    apply (setPointer_does later (by simp)).seq
    intro _
    have next := set_next filled q 0
    rw [List.replicate_zero, List.append_nil, Nat.zero_add, List.replicate_one] at next
    rw [List.length_map, next]
    apply (ih (filled ++ [q]) rfl).mono
    rintro a _ ⟨qs, length, rfl⟩
    refine ⟨q :: qs, by simp [length], ?_⟩
    simp only [List.append_assoc, List.singleton_append, List.map_cons, texts_cons]
    abel

theorem parseTokens_does {readValue entry : CString} {entries : List CString} {e : GrammarEntry}
    (parsed : e = if entry = readValue then .string readValue
      else .stringArray ((entry :: entries).map trimString)) :
    Does (parseTokens readValue entry entries) before fun p after => ∃ own lost,
      EntryAt p e own ∧ LostArray e lost ∧ after = own + (lost + before) := by
  unfold parseTokens
  by_cases whole : entry = readValue
  · rw [if_pos whole] at parsed ⊢
    subst parsed
    apply (newGrammarEntryT_does (.string readValue)).mono
    rintro p _ ⟨own, built, rfl⟩
    exact ⟨own, 0, built, .string readValue, by rw [zero_add]⟩
  · rw [if_neg whole] at parsed ⊢
    subst parsed
    apply alloc_does.bind
    rintro array _ rfl
    apply alloc_does.bind
    rintro q _ rfl
    have first : {(q, Block.text (trimString entry))} + ({(array, .pointers [none])} + before) =
        {(array, .pointers [none])} + ({(q, .text (trimString entry))} + before) := by abel
    apply (setPointer_does first (by simp)).seq
    intro _
    apply (growStrings_does entries [q] rfl).bind
    rintro array _ ⟨qs, length, rfl⟩
    have count : (q :: qs).length = ((entry :: entries).map trimString).length := by simp [length]
    have lost : {(array, Block.pointers (([q] ++ qs).map some))} +
        (texts qs (entries.map trimString) + ({(q, .text (trimString entry))} + before)) =
        {(array, .pointers ((q :: qs).map some))} +
          texts (q :: qs) ((entry :: entries).map trimString) + before := by
      simp only [List.singleton_append, List.map_cons, texts_cons]
      abel
    rw [lost]
    have means : NewEntry.Means ({(array, .pointers ((q :: qs).map some))} +
        texts (q :: qs) ((entry :: entries).map trimString) + before)
        (.stringArray array ((entry :: entries).map trimString).length)
        (.stringArray ((entry :: entries).map trimString)) :=
      .stringArray _ count (by simp)
        ((Multiset.le_add_left _ _).trans (Multiset.le_add_right _ _))
    rw [List.length_map] at means
    apply (newGrammarEntryT_does means).mono
    rintro p _ ⟨own, built, rfl⟩
    exact ⟨own, _, built, .stringArray _ array (q :: qs) count, rfl⟩

theorem parseValue_does {readValue : CString} {e : GrammarEntry}
    (parsed : Amqpgram.parseValue readValue = .ok e) :
    Does (parseValue readValue) before fun p after => ∃ own lost,
      EntryAt p e own ∧ LostArray e lost ∧ after = own + (lost + before) := by
  apply alloc_does.bind
  rintro modded _ rfl
  rw [Amqpgram.parseValue] at parsed
  cases tokens : Tokens.tokens '/' readValue with
  | nil =>
    rw [tokens] at parsed
    cases parsed
  | cons entry entries =>
    have value : e = if entry = readValue then .string readValue
        else .stringArray ((entry :: entries).map trimString) := by
      rw [tokens] at parsed
      dsimp only at parsed
      split at parsed
      · rename_i whole
        rw [if_pos whole, Except.ok.inj parsed]
      · rename_i cut
        rw [if_neg cut, ← Except.ok.inj parsed]
    apply (parseTokens_does value).bind
    rintro p _ ⟨own, lost, built, array, rfl⟩
    apply (free_does (v := .text readValue) (own + (lost + before)) (by abel)).seq
    intro _
    exact .pure ⟨own, lost, built, array, rfl⟩

theorem populateLine_does (rest : Memory) {line : CString}
    {rule : Option (CString × GrammarEntry)} (parsed : parseLine line = .ok rule)
    (at_ : TableAt g grammar ks m) (lent : ks.lines ⊆ rest) (split : before = m + rest) :
    Does (populateLine g line) before fun _ after => ∃ ks' m' lost,
      TableAt g (insertRule grammar rule) ks' m' ∧ LostRules rule.toList lost ∧
        (∀ b ∈ ks'.lines, b ∈ ks.lines ∨ b ∈ lost) ∧ after = m' + (lost + rest) := by
  apply alloc_does.bind
  rintro p _ rfl
  rw [parseLine] at parsed
  cases keyed : Tokens.firstToken '=' line with
  | none =>
    rw [keyed] at parsed
    cases parsed
  | some cut =>
    obtain ⟨key, behind⟩ := cut
    rw [keyed] at parsed
    dsimp only at parsed ⊢
    apply (assign_does before rfl).seq
    intro _
    cases valued : Tokens.firstToken ';' behind with
    | none =>
      rw [valued] at parsed
      obtain rfl := Except.ok.inj parsed
      apply (free_does (m + rest) (by rw [split])).mono
      rintro _ _ rfl
      exact ⟨ks, m, 0, at_, .nil, fun b there => .inl there, by rw [zero_add]⟩
    | some cut =>
      obtain ⟨value, comment⟩ := cut
      rw [valued] at parsed
      obtain ⟨e, valid, inserted⟩ := bind_eq_ok.mp parsed
      obtain rfl := Except.ok.inj inserted
      apply (parseValue_does valid).bind
      rintro entry _ ⟨own, lost, built, array, rfl⟩
      have name : (p, Block.text (trimString key)) ∈
          {(p, .text (trimString key))} + lost + rest := by simp
      have still : ks.lines ⊆ {(p, Block.text (trimString key))} + lost + rest :=
        fun b there => Multiset.mem_add.mpr (.inr (lent there))
      apply (grammarInsert_does ({(p, .text (trimString key))} + lost + rest) at_ (.entry built)
        (by
          rw [split]
          abel) still name).bind
      rintro _ _ ⟨m', whole, rfl⟩
      have cost : LostRules [(trimString key, e)] ({(p, .text (trimString key))} + lost + 0) :=
        .cons p array .nil
      refine .pure ⟨_, m', _, whole, cost, ?_, by rw [add_zero]⟩
      intro b there
      rcases Keys.lines_insert there with old | rfl
      · exact .inl old
      · exact .inr (by simp)

theorem insertRules_cons (rule : Option (CString × GrammarEntry))
    (rules : List (Option (CString × GrammarEntry))) :
    insertRules grammar ((rule :: rules).filterMap id) =
      insertRules (insertRule grammar rule) (rules.filterMap id) := by
  cases rule <;> rfl

theorem populateLines_does {buffer : Nat} {s : CString} (rest : Memory) (lines : List CString)
    {rules : List (Option (CString × GrammarEntry))} (parsed : lines.mapM parseLine = .ok rules)
    (at_ : TableAt g grammar ks m) (lent : ks.lines ⊆ rest)
    (split : before = {(buffer, .text s)} + (m + rest)) :
    Does (populateLines g buffer lines) before fun _ after => ∃ s' ks' m' lost,
      TableAt g (insertRules grammar (rules.filterMap id)) ks' m' ∧
        LostRules (rules.filterMap id) lost ∧ (∀ b ∈ ks'.lines, b ∈ ks.lines ∨ b ∈ lost) ∧
          after = {(buffer, .text s')} + (m' + (lost + rest)) := by
  induction lines generalizing grammar ks m before s rest rules with
  | nil =>
    cases parsed
    subst split
    exact .pure ⟨s, ks, m, 0, at_, .nil, fun b there => .inl there, by rw [zero_add]⟩
  | cons line lines ih =>
    rw [List.mapM_cons] at parsed
    obtain ⟨rule, first, parsed⟩ := bind_eq_ok.mp parsed
    obtain ⟨others, later, parsed⟩ := bind_eq_ok.mp parsed
    obtain rfl := Except.ok.inj parsed
    apply (assign_does _ split).seq
    intro _
    have whole : {(buffer, Block.text line)} + (m + rest) =
        m + ({(buffer, .text line)} + rest) := by abel
    have wider : ks.lines ⊆ {(buffer, Block.text line)} + rest :=
      fun b there => Multiset.mem_add.mpr (.inr (lent there))
    apply (populateLine_does _ first at_ wider whole).bind
    rintro _ _ ⟨ks', m', lost, inserted, cost, keys, rfl⟩
    have still : ks'.lines ⊆ lost + rest := by
      intro b there
      rcases keys b there with old | new
      · exact Multiset.mem_add.mpr (.inr (lent old))
      · exact Multiset.mem_add.mpr (.inl new)
    have next : m' + (lost + ({(buffer, Block.text line)} + rest)) =
        {(buffer, .text line)} + (m' + (lost + rest)) := by abel
    apply (ih (lost + rest) later inserted still next).mono
    rintro _ _ ⟨s', ks'', m'', lost', filled, cost', keys', rfl⟩
    have rules : (rule :: others).filterMap id = rule.toList ++ others.filterMap id := by
      cases rule <;> rfl
    refine ⟨s', ks'', m'', lost + lost', ?_, ?_, ?_, by abel⟩
    · rwa [insertRules_cons]
    · rw [rules]
      exact cost.append cost'
    · intro b there
      rcases keys' b there with old | new
      · exact (keys b old).imp_right fun inside => Multiset.mem_add.mpr (.inl inside)
      · exact .inr (Multiset.mem_add.mpr (.inr new))

theorem populateGrammar_does (rest : Memory) {file : CString} (read : fileRules file = .ok rules)
    (at_ : TableAt g grammar ks m) (lent : ks.lines ⊆ rest) (split : before = m + rest) :
    Does (populateGrammar g file) before fun _ after => ∃ ks' m' lost,
      TableAt g (insertRules grammar rules) ks' m' ∧ LostRules rules lost ∧
        (∀ b ∈ ks'.lines, b ∈ ks.lines ∨ b ∈ lost) ∧ after = m' + (lost + rest) := by
  obtain ⟨read, parsed, done⟩ := bind_eq_ok.mp read
  obtain rfl := Except.ok.inj done
  apply alloc_does.bind
  rintro buffer _ rfl
  apply (populateLines_does rest _ parsed at_ lent (by rw [split])).bind
  rintro _ _ ⟨s, ks', m', lost, filled, cost, keys, rfl⟩
  apply (free_does (v := .text s) (m' + (lost + rest)) rfl).mono
  rintro _ _ rfl
  exact ⟨ks', m', lost, filled, cost, keys, rfl⟩

end

/-- A grammar that is read from a file and freed has cost these blocks. -/
theorem generateGrammar_costs (before : Memory) (file : CString)
    (rules : List (CString × GrammarEntry)) (read : fileRules file = .ok rules) :
    Does (generateGrammar file) before (fun g after => ∃ ks m lost,
      TableAt g (insertRules Amqpgram.createGrammar rules) ks m ∧ LostRules rules lost ∧
        ks.lines ⊆ lost ∧ after = m + (lost + before)) ∧
    Does (do
      let grammar ← generateGrammar file
      freeGrammar (some grammar)) before fun _ after => ∃ lost, LostRules rules lost ∧
        lost.card = (rules.map fun rule => lostBlocks rule.2).sum ∧ after = lost + before := by
  have generated : Does (generateGrammar file) before fun g after => ∃ ks m lost,
      TableAt g (insertRules Amqpgram.createGrammar rules) ks m ∧ LostRules rules lost ∧
        ks.lines ⊆ lost ∧ after = m + (lost + before) := by
    apply createGrammar_does.bind
    rintro g _ ⟨m, empty, rfl⟩
    apply (populateGrammar_does before read empty (Multiset.zero_subset _) rfl).bind
    rintro _ _ ⟨ks, m', lost, filled, cost, keys, rfl⟩
    refine .pure ⟨ks, m', lost, filled, cost, fun b there => ?_, rfl⟩
    exact (keys b there).resolve_left (Multiset.notMem_zero b)
  refine ⟨generated, generated.bind ?_⟩
  rintro g _ ⟨ks, m, lost, filled, cost, _, rfl⟩
  apply (freeGrammar_does (lost + before) filled rfl).mono
  rintro _ _ rfl
  exact ⟨lost, cost, cost.card, rfl⟩

/-- Two alternatives are lost with the array and the line. -/
theorem generateGrammar_costs_four : Does (do
    let grammar ← generateGrammar (cstr "a = b / c\n")
    freeGrammar (some grammar)) 0 fun _ after => after.card = 4 := by
  apply (generateGrammar_costs 0 (cstr "a = b / c\n")
    [(cstr "a", .stringArray [cstr "b", cstr "c"])] rfl).2.mono
  rintro _ _ ⟨lost, _, count, rfl⟩
  rw [add_zero, count]
  rfl

/-! ### Copies -/

section
variable {m rest : Memory} {grammar : Grammar} {g : Nat} {ks : Keys}

/-- A copy has the pointers to the keys in common with its original, and nothing else.
Whatever is then read into one of them, freeing it leaves the other whole. -/
theorem copyGrammar_shares_keys (source : TableAt g grammar ks m) (lent : ks.lines ⊆ rest)
    (file : CString) (rules : List (CString × GrammarEntry))
    (read : fileRules file = .ok rules) :
    Does (copyGrammar g) (m + rest) (fun copied after => ∃ own,
      TableAt copied grammar ks own ∧ after = own + (m + rest)) ∧
    Does (do
      let copied ← copyGrammar g
      populateGrammar copied file
      freeGrammar (some copied)) (m + rest) (fun _ after => ∃ lost,
        LostRules rules lost ∧ after = m + (lost + rest)) ∧
    Does (do
      let copied ← copyGrammar g
      populateGrammar g file
      freeGrammar (some g)
      pure copied) (m + rest) fun copied after => ∃ own lost,
        TableAt copied grammar ks own ∧ LostRules rules lost ∧ after = own + (lost + rest) := by
  have inside : ks.lines ⊆ m + rest := fun b there => Multiset.mem_add.mpr (.inr (lent there))
  have copies := copyGrammar_does source (Multiset.le_add_right m rest) inside
  refine ⟨copies, copies.bind ?_, copies.bind ?_⟩
  · rintro copied _ ⟨own, copy, rfl⟩
    apply (populateGrammar_does (m + rest) read copy inside rfl).bind
    rintro _ _ ⟨ks', own', lost, filled, cost, _, rfl⟩
    apply (freeGrammar_does (lost + (m + rest)) filled rfl).mono
    rintro _ _ rfl
    exact ⟨lost, cost, by abel⟩
  · rintro copied _ ⟨own, copy, rfl⟩
    have wider : ks.lines ⊆ own + rest := fun b there => Multiset.mem_add.mpr (.inr (lent there))
    apply (populateGrammar_does (own + rest) read source wider (by abel)).bind
    rintro _ _ ⟨ks', m', lost, filled, cost, _, rfl⟩
    apply (freeGrammar_does (lost + (own + rest)) filled rfl).seq
    intro _
    exact .pure ⟨own, lost, copy, cost, by abel⟩

theorem tableAt_singleton (g p q k : Nat) (key s : CString) :
    TableAt g (Amqpgram.grammarInsert Amqpgram.createGrammar key (some (.string s))) [(k, key)]
      ({(g, .table [⟨k, some p⟩])} +
        (({(p, .entry ⟨.string, some q, none, 0, none⟩)} + {(q, .text s)}) + 0)) := by
  refine .table (.cons ?_ .nil) (List.nodup_singleton _) ?_
  · rw [Amqpgram.grammarInsert, Function.update_self]
    exact .entry (.string s q)
  · intro k out
    have other : k ≠ key := fun same => out (by simp [Keys.names, same])
    rw [Amqpgram.grammarInsert, Function.update_of_ne other]
    rfl

/-- The original is given another rule of the same name and freed; the copy still leads to
its key in block 3. -/
theorem copyGrammar_shares_keys_rule : Does (do
      let copied ← copyGrammar 0
      populateGrammar 0 (cstr "a = %x01\n")
      freeGrammar (some 0)
      pure copied)
    (({(0, .table [⟨3, some 1⟩])} +
      (({(1, .entry ⟨.string, some 2, none, 0, none⟩)} + {(2, .text (cstr "b"))}) + 0)) +
        {(3, .text (cstr "a"))})
    fun copied after => ∃ own lost, TableAt copied (Amqpgram.grammarInsert
      Amqpgram.createGrammar (cstr "a") (some (.string (cstr "b")))) [(3, cstr "a")] own ∧
        LostRules [(cstr "a", .string (cstr "%x01"))] lost ∧
          after = own + (lost + {(3, .text (cstr "a"))}) :=
  (copyGrammar_shares_keys (tableAt_singleton 0 1 2 3 (cstr "a") (cstr "b"))
    (List.Subset.refl _) (cstr "a = %x01\n") [(cstr "a", .string (cstr "%x01"))] rfl).2.2

end

/-! ### Environments -/

/-- The blocks of a chain of environments, and the keys of all its tables. -/
inductive EnvAt : Option Nat → Environment → Keys → Memory → Prop
  | nil : EnvAt none [] [] 0
  | cons {n g : Nat} {next : Option Nat} {grammar : Grammar} {env : Environment} {ks ks' : Keys}
      {m m' : Memory} (first : TableAt g grammar ks m) (others : EnvAt next env ks' m') :
      EnvAt (some n) (grammar :: env) (ks ++ ks') ({(n, .node (some g) next)} + m + m')

section
variable {before rest m m' : Memory} {grammar : Grammar} {env : Environment} {g : Nat}
variable {node next : Option Nat} {ks ks' : Keys} {key : CString} {turns : Nat}

theorem Keys.lines_append : Keys.lines (ks ++ ks') = ks.lines + ks'.lines := by
  rw [Keys.lines, List.map_append, ← Multiset.coe_add]
  rfl

theorem environmentLookup_does (chain : EnvAt node env ks m) (kept : m ≤ before)
    (lent : ks.lines ⊆ before) (enough : env.length ≤ turns) :
    Does (environmentLookup turns node key) before fun p after =>
      ∃ copy, ValueAt p (Amqpgram.environmentLookup env key) copy ∧ after = copy + before := by
  induction chain generalizing turns with
  | nil =>
    cases turns with
    | zero => exact .pure ⟨0, .null, by simp⟩
    | succ turns => exact .pure ⟨0, .null, by simp⟩
  | @cons n g next grammar env ks ks' m m' first others ih =>
    cases turns with
    | zero => cases enough
    | succ turns =>
      have block : (n, Block.node (some g) next) ∈ before := mem_of_part kept (by simp)
      have table : m ≤ before := (Multiset.le_add_left _ _).trans
        ((Multiset.le_add_right _ _).trans kept)
      rw [Keys.lines_append] at lent
      apply (readAs_does Block.node? block rfl).step
      apply deref_does.step
      apply (grammarLookup_does key first table
        fun b there => lent (Multiset.mem_add.mpr (.inl there))).bind
      rintro p _ ⟨copy, value, rfl⟩
      rw [environmentLookup_cons, Amqpgram.grammarLookup]
      generalize grammar key = e at value ⊢
      cases value with
      | null =>
        rw [Option.none_or, zero_add]
        exact ih ((Multiset.le_add_left _ _).trans kept)
          (fun b there => lent (Multiset.mem_add.mpr (.inr there)))
          (Nat.le_of_succ_le_succ enough)
      | entry at_ => exact .pure ⟨copy, .entry at_, rfl⟩

theorem freeEnvironment_does (rest : Memory) {n : Nat} (at_ : TableAt g grammar ks m)
    (split : before = {(n, .node (some g) next)} + m + rest) :
    Does (freeEnvironment (some n)) before fun _ after => after = rest := by
  have block : (n, Block.node (some g) next) ∈ before := by simp [split]
  have parts : before = m + ({(n, .node (some g) next)} + rest) := by
    rw [split]
    abel
  apply (readAs_does Block.node? block rfl).step
  apply (freeGrammar_does _ at_ parts).seq
  intro _
  apply (assign_does rest rfl).seq
  intro _
  exact free_does rest rfl

/-- A table that is put before a chain for a while: what is looked up there is a copy of the
entry in force, and when it is freed and the new environment is, only the chain is left. -/
theorem environment_costs (table : TableAt g grammar ks m) (chain : EnvAt next env ks' m')
    (kept : m' ≤ rest) (lent : ks.lines + ks'.lines ⊆ rest) (key : CString) (turns : Nat)
    (enough : env.length < turns) :
    Does (do
      let node ← newEnvironment (some g) next
      environmentLookup turns (some node) key) (m + rest) (fun p after => ∃ node copy,
        ValueAt p (Amqpgram.environmentLookup (grammar :: env) key) copy ∧
          after = copy + ({(node, .node (some g) next)} + m + rest)) ∧
    Does (do
      let node ← newEnvironment (some g) next
      let p ← environmentLookup turns (some node) key
      freeGrammarEntryT p
      freeEnvironment (some node)) (m + rest) fun _ after => after = rest := by
  have looks : ∀ node, Does (environmentLookup turns (some node) key)
      ({(node, .node (some g) next)} + (m + rest)) fun p after => ∃ copy,
        ValueAt p (Amqpgram.environmentLookup (grammar :: env) key) copy ∧
          after = copy + ({(node, .node (some g) next)} + m + rest) := by
    intro node
    rw [← add_assoc]
    apply environmentLookup_does (.cons table chain)
    · exact Multiset.add_le_add_left kept
    · rw [Keys.lines_append]
      exact fun b there => Multiset.mem_add.mpr (.inr (lent there))
    · exact enough
  constructor
  · apply alloc_does.bind
    rintro node _ rfl
    apply (looks node).mono
    rintro p _ ⟨copy, value, rfl⟩
    exact ⟨node, copy, value, rfl⟩
  · apply alloc_does.bind
    rintro node _ rfl
    apply (looks node).bind
    rintro p _ ⟨copy, value, rfl⟩
    apply (freeGrammarEntryT_does _ value rfl).seq
    intro _
    exact freeEnvironment_does rest table rfl

/-- A rule of one table is looked up from another in front of it. -/
theorem environment_costs_behind : Does (do
      let node ← newEnvironment (some 0) (some 4)
      let p ← environmentLookup 2 (some node) (cstr "c")
      freeGrammarEntryT p
      freeEnvironment (some node))
    ((({(0, .table [⟨3, some 1⟩])} +
      (({(1, .entry ⟨.string, some 2, none, 0, none⟩)} + {(2, .text (cstr "b"))}) + 0)) : Memory) +
        (({(4, .node (some 5) none)} + ({(5, .table [⟨8, some 6⟩])} +
          (({(6, .entry ⟨.string, some 7, none, 0, none⟩)} + {(7, .text (cstr "d"))}) + 0)) + 0) +
            ({(3, .text (cstr "a"))} + {(8, .text (cstr "c"))})))
    fun _ after => after = ({(4, .node (some 5) none)} + ({(5, .table [⟨8, some 6⟩])} +
      (({(6, .entry ⟨.string, some 7, none, 0, none⟩)} + {(7, .text (cstr "d"))}) + 0)) + 0) +
        ({(3, .text (cstr "a"))} + {(8, .text (cstr "c"))}) :=
  (environment_costs (tableAt_singleton 0 1 2 3 (cstr "a") (cstr "b"))
    (.cons (tableAt_singleton 5 6 7 8 (cstr "c") (cstr "d")) .nil)
    (Multiset.le_add_right _ _) (Multiset.subset_of_le (Multiset.le_add_left _ _)) (cstr "c") 2
    (by decide)).2

end
end Amqpgram.Storage
