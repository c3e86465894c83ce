import Amqpgram.Grammar.Fuel
import Amqpgram.Grammar.Returning

/-! Optional groups. `parse_element` goes by the first character of a token: the token
that opens a group expands to nothing, those between the brackets are expanded as if no
group were open, and the last one is looked up with the bracket that closes the group. -/
namespace Amqpgram

/-- `p [e1 ... en] s`. -/
def groupText (p : CString) (es : List CString) (s : CString) : CString :=
  p ++ ' ' :: '[' :: ([' '].intercalate es ++ ']' :: ' ' :: s)

structure RuleName (t : CString) : Prop where
  space : ' ' ∉ t
  bracket : ']' ∉ t
  plain : ∃ c ∈ t.head?, special c = false

theorem RuleName.ne_nil {t : CString} (name : RuleName t) : t ≠ [] := by
  rintro rfl
  obtain ⟨c, first, _⟩ := name.plain
  cases first

theorem RuleName.plain_append {t : CString} (name : RuleName t) (u : CString) :
    ∃ c ∈ (t ++ u).head?, special c = false := by
  obtain ⟨c, rest, rfl, ordinary⟩ := plain_cons name.plain
  exact ⟨c, by simp, ordinary⟩

theorem ruleName_iff {t : CString} : RuleName t ↔
    ' ' ∉ t ∧ ']' ∉ t ∧ t.head?.any (fun c => !special c) = true := by
  have plain : t.head?.any (fun c => !special c) = true ↔ ∃ c ∈ t.head?, special c = false := by
    cases t <;> simp
  rw [plain]
  exact ⟨fun name => ⟨name.space, name.bracket, name.plain⟩,
    fun ⟨space, bracket, plain⟩ => ⟨space, bracket, plain⟩⟩

instance (t : CString) : Decidable (RuleName t) := decidable_of_iff _ ruleName_iff.symm

/-- What the element can be expanded to. -/
def Expands (env : Environment) (t : CString) (w : List UInt8) : Prop :=
  ∃ fuel, (parseElement fuel t env).Yields (.of w)

/-- With enough fuel the element is expanded on every stream. -/
def Expandable (env : Environment) (t : CString) : Prop :=
  ∃ enough, ∀ fuel ≥ enough, (parseElement fuel t env).Total

/-- The group is left out or expanded whole, whatever is drawn. -/
structure AllOrNothing (env : Environment) (p : CString) (es : List CString) (s : CString) :
    Prop where
  returns : (∀ t ∈ p :: s :: es, Expandable env t) →
    ∃ enough, ∀ fuel ≥ enough, (parseElements fuel (groupText p es s) env).Total
  result : ∀ fuel draws d rest, (parseElements fuel (groupText p es s) env).run draws =
    .ok (d, rest) → ∃ u v w, d = .of (u ++ v ++ w) ∧ Expands env p u ∧
      (v = [] ∨ ∃ parts, List.Forall₂ (Expands env) es parts ∧ v = parts.flatten) ∧
      Expands env s w

abbrev Defined (env : Environment) (t : CString) : Prop := (environmentLookup env t).isSome

/-- What is looked up for the last element of a group. -/
def closing (es : List CString) : CString := es.getLastD [] ++ [']']

/-! ### The tokens of a group -/

/-- The tokens from `e` to the closing bracket. -/
def closed : CString → List CString → List CString
  | e, [] => [e ++ [']']]
  | e, f :: es => e :: closed f es

theorem closed_ne_nil (e : CString) (es : List CString) : closed e es ≠ [] := by
  cases es <;> simp [closed]

theorem intercalate_closed (e : CString) (es : List CString) :
    [' '].intercalate (closed e es) = [' '].intercalate (e :: es) ++ [']'] := by
  induction es generalizing e with
  | nil => simp [closed]
  | cons f es ih => simp [closed, List.intercalate_cons_of_ne_nil (closed_ne_nil f es), ih]

theorem mem_closed {e t : CString} {es : List CString} (member : t ∈ closed e es) :
    ∃ u ∈ e :: es, t = u ∨ t = u ++ [']'] := by
  induction es generalizing e with
  | nil =>
    obtain rfl := List.mem_singleton.mp member
    exact ⟨e, List.mem_singleton_self e, .inr rfl⟩
  | cons f es ih =>
    rcases List.mem_cons.mp member with rfl | later
    · exact ⟨t, List.mem_cons_self, .inl rfl⟩
    · obtain ⟨u, inside, shape⟩ := ih later
      exact ⟨u, List.mem_cons_of_mem e inside, shape⟩

section
variable {p e s : CString} {es : List CString} {env : Environment}

theorem tokens_group (space : ∀ t ∈ p :: s :: e :: es, ' ' ∉ t)
    (nonempty : ∀ t ∈ p :: s :: es, t ≠ []) :
    Tokens.tokens ' ' (groupText p (e :: es) s) = p :: (closed ('[' :: e) es ++ [s]) := by
  simp only [List.forall_mem_cons] at space nonempty
  obtain ⟨front, back, first, others⟩ := space
  have text : groupText p (e :: es) s =
      p ++ ' ' :: ([' '].intercalate (closed ('[' :: e) es) ++ ' ' :: s) := by
    simp [groupText, intercalate_closed]
  have each : ∀ u ∈ ('[' :: e) :: es, ' ' ∉ u ∧ u ≠ [] := by
    intro u inside
    rcases List.mem_cons.mp inside with rfl | later
    · simp [first]
    · exact ⟨others u later, nonempty.2.2 u later⟩
  have group : Tokens.tokens ' ' ([' '].intercalate (closed ('[' :: e) es)) =
      closed ('[' :: e) es := by
    apply Tokens.tokens_intercalate
    · intro t member
      obtain ⟨u, inside, rfl | rfl⟩ := mem_closed member
      · exact (each t inside).1
      · simp [(each u inside).1]
    · intro t member
      obtain ⟨u, inside, rfl | rfl⟩ := mem_closed member
      · exact (each t inside).2
      · simp
  rw [text, Tokens.tokens_append_cons, Tokens.tokens_append_cons, group,
    Tokens.tokens_of_not_mem front nonempty.1, Tokens.tokens_of_not_mem back nonempty.2.1,
    List.singleton_append]

/-! ### Groups that are left out -/

/-- The token returns nothing, on every stream. -/
structure Silent (env : Environment) (t : CString) : Prop where
  expandable : Expandable env t
  nothing : ∀ w, Expands env t w → w = []

theorem silent_bracket (c : Char) (t : CString) (bracket : c = '[' ∨ c = ']') :
    Silent env (c :: t) := by
  have skipped : ∀ fuel, parseElement (fuel + 1) (c :: t) env = .done .none := by
    rcases bracket with rfl | rfl <;> simp [parseElement, isDigit]
  constructor
  · exact enough_succ ⟨0, fun fuel _ => skipped fuel ▸ Sampler.total_done _⟩
  · rintro w ⟨fuel, y⟩
    cases fuel with
    | zero => exact y.elim
    | succ fuel =>
      rw [skipped] at y
      exact (congrArg Decoded.bytes y).symm

theorem parseElement_plain {t : CString} (plain : ∃ c ∈ t.head?, special c = false) (fuel : Nat) :
    parseElement (fuel + 1) t env = decodeRule fuel t env := by
  obtain ⟨c, rest, rfl, ordinary⟩ := plain_cons plain
  exact parseElement_rule (.rule ordinary)

theorem silent_absent {t : CString} (plain : ∃ c ∈ t.head?, special c = false)
    (absent : environmentLookup env t = none) : Silent env t := by
  have unknown : ∀ fuel, parseElement (fuel + 2) t env = .done .none := by
    intro fuel
    rw [parseElement_plain plain, decodeRule_entry, absent]
    rfl
  constructor
  · exact enough_succ (enough_succ ⟨0, fun fuel _ => unknown fuel ▸ Sampler.total_done _⟩)
  · rintro w ⟨fuel, y⟩
    match fuel with
    | 0 => exact y.elim
    | 1 =>
      rw [parseElement_plain plain] at y
      exact y.elim
    | fuel + 2 =>
      rw [unknown] at y
      exact (congrArg Decoded.bytes y).symm

theorem flatten_silent {fuel : Nat} {ts : List CString} {parts : List (List UInt8)}
    (silent : ∀ t ∈ ts, Silent env t)
    (expanded : List.Forall₂ (fun t part => (parseElement fuel t env).Yields (.of part))
      (ts ++ [s]) parts) : Expands env s parts.flatten := by
  induction ts generalizing parts with
  | nil =>
    obtain ⟨w, _, back, none, rfl⟩ := List.forall₂_cons_left_iff.mp expanded
    obtain rfl := List.forall₂_nil_left_iff.mp none
    exact ⟨fuel, by simpa using back⟩
  | cons t ts ih =>
    obtain ⟨v, parts, head, later, rfl⟩ := List.forall₂_cons_left_iff.mp expanded
    obtain ⟨quiet, others⟩ := List.forall_mem_cons.mp silent
    obtain rfl := quiet.nothing v ⟨fuel, head⟩
    simpa using ih others later

/-- A group whose tokens all return nothing is left out. -/
theorem allOrNothing_silent (space : ∀ t ∈ p :: s :: e :: es, ' ' ∉ t)
    (nonempty : ∀ t ∈ p :: s :: es, t ≠ []) (silent : ∀ t ∈ closed ('[' :: e) es, Silent env t) :
    AllOrNothing env p (e :: es) s := by
  have cut := tokens_group space nonempty
  constructor
  · intro known
    simp only [List.forall_mem_cons] at known
    have each : ∀ t ∈ p :: (closed ('[' :: e) es ++ [s]), Expandable env t := by
      intro t member
      simp only [List.mem_cons, List.mem_append, List.not_mem_nil, or_false] at member
      rcases member with rfl | inside | rfl
      · exact known.1
      · exact (silent t inside).expandable
      · exact known.2.1
    obtain ⟨enough, total⟩ := enough_for_all each
    refine enough_succ ⟨enough, fun fuel le => ?_⟩
    rw [parseElements_eq, cut]
    apply total_concatenate
    intro part member
    obtain ⟨t, inside, rfl⟩ := List.mem_map.mp member
    exact ⟨total fuel le t inside, exact_parseElement fuel t⟩
  · intro fuel draws d rest run
    cases fuel with
    | zero => cases run
    | succ fuel =>
      obtain ⟨parts, expanded, rfl⟩ := parseElements_parts (Sampler.yields_of_run run)
      rw [cut] at expanded
      obtain ⟨u, others, front, later, rfl⟩ := List.forall₂_cons_left_iff.mp expanded
      exact ⟨u, [], others.flatten, by simp, ⟨fuel, front⟩, .inl rfl, flatten_silent silent later⟩

/-- A group of one element is left out, whatever the element is. -/
theorem allOrNothing_one (space : ∀ t ∈ [p, s, e], ' ' ∉ t) (before : p ≠ []) (behind : s ≠ []) :
    AllOrNothing env p [e] s := by
  apply allOrNothing_silent space (by simp [before, behind])
  intro t member
  obtain rfl := List.mem_singleton.mp member
  exact silent_bracket '[' _ (.inl rfl)

/-- So is a group of two, where the second is the name of a rule and it is none together
with the bracket. -/
theorem allOrNothing_two {f : CString} (space : ∀ t ∈ [p, s, e, f], ' ' ∉ t)
    (nonempty : ∀ t ∈ [p, s, f], t ≠ []) (name : RuleName f)
    (absent : environmentLookup env (f ++ [']']) = none) : AllOrNothing env p [e, f] s := by
  apply allOrNothing_silent space nonempty
  intro t member
  simp only [closed, List.mem_cons, List.not_mem_nil, or_false] at member
  rcases member with rfl | rfl
  · exact silent_bracket '[' e (.inl rfl)
  · exact silent_absent (name.plain_append _) absent

end

/-! ### Longer groups -/

/-- Every one of these rules is a single octet. -/
def octetRules (names : List CString) : Environment :=
  [fun rule => if rule ∈ names then some (.byteArray [1]) else none]

/-- What an element is expanded to there. -/
def oneOctet (names : List CString) (t : CString) : List UInt8 := if t ∈ names then [1] else []

section
variable {p e s t : CString} {es names : List CString}

theorem environmentLookup_octetRules : environmentLookup (octetRules names) t =
    if t ∈ names then some (.byteArray [1]) else none := by
  by_cases member : t ∈ names <;> simp [octetRules, grammarLookup, member]

theorem decodeRule_octetRules (fuel : Nat) :
    decodeRule (fuel + 1) t (octetRules names) = .done (.of (oneOctet names t)) := by
  rw [decodeRule_entry, environmentLookup_octetRules]
  by_cases member : t ∈ names <;> simp [member, oneOctet] <;> rfl

theorem oneOctet_bracket (plain : ∀ n ∈ names, ∃ c ∈ n.head?, special c = false) (u : CString) :
    oneOctet names ('[' :: u) = [] := by
  have unknown : '[' :: u ∉ names := by
    intro member
    obtain ⟨c, head, ordinary⟩ := plain _ member
    obtain rfl := Option.some.inj head
    cases ordinary
  exact if_neg unknown

theorem parseElement_octetRules (plain : ∀ n ∈ names, ∃ c ∈ n.head?, special c = false)
    (first : (∃ c ∈ t.head?, special c = false) ∨ ∃ u, t = '[' :: u) (fuel : Nat) :
    parseElement (fuel + 2) t (octetRules names) = .done (.of (oneOctet names t)) := by
  rcases first with ordinary | ⟨u, rfl⟩
  · rw [parseElement_plain ordinary, decodeRule_octetRules]
  · rw [oneOctet_bracket plain]
    simp [parseElement, isDigit, Decoded.none, Decoded.of]

theorem expands_octetRules (name : RuleName t) (member : t ∈ names) {w : List UInt8}
    (expanded : Expands (octetRules names) t w) : w = [1] := by
  obtain ⟨fuel, y⟩ := expanded
  match fuel with
  | 0 => exact y.elim
  | 1 =>
    rw [parseElement_plain name.plain] at y
    exact y.elim
  | fuel + 2 =>
    rw [parseElement_plain name.plain, decodeRule_octetRules, oneOctet, if_pos member] at y
    exact (congrArg Decoded.bytes y).symm

theorem concatenate_octetRules {ts : List CString}
    (plain : ∀ n ∈ names, ∃ c ∈ n.head?, special c = false)
    (first : ∀ t ∈ ts, (∃ c ∈ t.head?, special c = false) ∨ ∃ u, t = '[' :: u) (u : List UInt8) :
    concatenate (.of u) (ts.map fun t => parseElement 2 t (octetRules names)) =
      .done (.of (u ++ ts.flatMap (oneOctet names))) := by
  induction ts generalizing u with
  | nil => simp [concatenate]
  | cons t ts ih =>
    obtain ⟨here, others⟩ := List.forall_mem_cons.mp first
    rw [List.map_cons, concatenate, parseElement_octetRules plain here, Sampler.bind_done,
      append_of, Sampler.ofExcept_ok, Sampler.bind_done, ih others]
    simp

theorem length_closed_octets (known : ∀ t ∈ e :: es, t ∈ names) :
    ((closed e es).flatMap (oneOctet names)).length =
      es.length + (oneOctet names (closing (e :: es))).length := by
  induction es generalizing e with
  | nil => simp [closed, closing]
  | cons f es ih =>
    have rest := ih fun t member => known t (List.mem_cons_of_mem e member)
    have last : closing (e :: f :: es) = closing (f :: es) := by simp [closing]
    have here : (oneOctet names e).length = 1 := by simp [oneOctet, known e List.mem_cons_self]
    rw [closed, List.flatMap_cons, List.length_append, rest, here, last, List.length_cons]
    omega

theorem length_expansions {env : Environment} {parts : List (List UInt8)}
    (single : ∀ t ∈ es, ∀ w, Expands env t w → w.length = 1)
    (expanded : List.Forall₂ (Expands env) es parts) : parts.flatten.length = es.length := by
  induction expanded with
  | nil => rfl
  | cons head _ ih =>
    obtain ⟨here, others⟩ := List.forall_mem_cons.mp single
    simp [ih others, here _ head, Nat.add_comm]

section
variable {f : CString} (name : ∀ t ∈ p :: s :: e :: f :: es, RuleName t)
variable (plain : ∀ n ∈ names, ∃ c ∈ n.head?, special c = false)
include name plain

theorem parseElements_octetRules :
    parseElements 3 (groupText p (e :: f :: es) s) (octetRules names) =
      .done (.of ((p :: ('[' :: e) :: (closed f es ++ [s])).flatMap (oneOctet names))) := by
  have cut := tokens_group (fun t member => (name t member).space)
    fun t member => (name t (by simp at member ⊢; tauto)).ne_nil
  simp only [List.forall_mem_cons] at name
  obtain ⟨front, back, opening, second, others⟩ := name
  have first : ∀ t ∈ p :: ('[' :: e) :: (closed f es ++ [s]),
      (∃ c ∈ t.head?, special c = false) ∨ ∃ u, t = '[' :: u := by
    intro t member
    simp only [List.mem_cons, List.mem_append, List.not_mem_nil, or_false] at member
    rcases member with rfl | rfl | inside | rfl
    · exact .inl front.plain
    · exact .inr ⟨e, rfl⟩
    · obtain ⟨u, member, shape⟩ := mem_closed inside
      have ordinary : RuleName u := List.forall_mem_cons.mpr ⟨second, others⟩ u member
      rcases shape with rfl | rfl
      · exact .inl ordinary.plain
      · exact .inl (ordinary.plain_append _)
    · exact .inl back.plain
  rw [parseElements_eq, cut]
  exact concatenate_octetRules plain first []

/-- The first element is never expanded, the others are in any case. -/
theorem length_of_allOrNothing (known : ∀ t ∈ p :: s :: e :: f :: es, t ∈ names)
    (whole : AllOrNothing (octetRules names) p (e :: f :: es) s) :
    es.length + (oneOctet names (closing (f :: es))).length = 0 ∨
      es.length + (oneOctet names (closing (f :: es))).length = es.length + 2 := by
  have run := parseElements_octetRules name plain
  obtain ⟨u, v, w, shape, before, group, behind⟩ :=
    whole.result 3 (Stream'.const 0) _ (Stream'.const 0) (by rw [run]; rfl)
  have front : p ∈ names := known p (by simp)
  have back : s ∈ names := known s (by simp)
  have inner : ∀ t ∈ e :: f :: es, RuleName t ∧ t ∈ names := by
    intro t member
    have inside := List.mem_cons_of_mem p (List.mem_cons_of_mem s member)
    exact ⟨name t inside, known t inside⟩
  obtain rfl := expands_octetRules (name p (by simp)) front before
  obtain rfl := expands_octetRules (name s (by simp)) back behind
  have ends : oneOctet names p = [1] ∧ oneOctet names s = [1] := ⟨if_pos front, if_pos back⟩
  have last := length_closed_octets fun t member => (inner t (List.mem_cons_of_mem e member)).2
  have size := congrArg (List.length ∘ Decoded.bytes) shape
  simp only [Function.comp_apply, Decoded.of, List.flatMap_cons, List.flatMap_append,
    List.flatMap_nil, List.length_append, List.length_cons, List.length_nil,
    oneOctet_bracket plain, ends, last] at size
  rcases group with rfl | ⟨parts, expanded, rfl⟩
  · left
    rw [List.length_nil] at size
    omega
  · right
    have single : ∀ t ∈ e :: f :: es, ∀ w, Expands (octetRules names) t w → w.length = 1 := by
      intro t member w expanded
      rw [expands_octetRules (inner t member).1 (inner t member).2 expanded, List.length_singleton]
    rw [length_expansions single expanded, List.length_cons, List.length_cons] at size
    omega

end

end

/-! ### The groups that are all or nothing -/

/-- Five rules, the text of each and the octet it stands for. -/
def letters : List (CString × CString × UInt8) :=
  [(cstr "p", cstr "%x70", 0x70), (cstr "s", cstr "%x73", 0x73), (cstr "a", cstr "%x61", 0x61),
    (cstr "b", cstr "%x62", 0x62), (cstr "c", cstr "%x63", 0x63)]

def letterRules : Environment :=
  [insertRules createGrammar (letters.map fun (name, text, _) => (name, .string text))]

section
variable {p e f s : CString} {es : List CString}

theorem closing_unnamed {names : List CString} (name : ∀ t ∈ names, RuleName t)
    (es : List CString) : closing es ∉ names := by
  intro member
  exact (name _ member).bracket (by simp [closing])

theorem defined_octetRules {names : List CString} {t : CString} (member : t ∈ names) :
    Defined (octetRules names) t := by
  simp [Defined, environmentLookup_octetRules, member]

/-- A third element is expanded where each rule is an octet. -/
theorem allOrNothing_octetRules (name : ∀ t ∈ p :: s :: e :: f :: es, RuleName t)
    (whole : AllOrNothing (octetRules (p :: s :: e :: f :: es)) p (e :: f :: es) s) : es = [] := by
  have unknown : closing (f :: es) ∉ p :: s :: e :: f :: es := closing_unnamed name (f :: es)
  have written := length_of_allOrNothing name (fun t member => (name t member).plain)
    (fun t member => member) whole
  rw [oneOctet, if_neg unknown, List.length_nil] at written
  exact List.length_eq_zero_iff.mp (by omega)

/-- So is the second one where it is a rule together with the bracket. -/
theorem not_allOrNothing_closing (name : ∀ t ∈ p :: s :: e :: f :: es, RuleName t) :
    ¬ AllOrNothing (octetRules (closing (f :: es) :: p :: s :: e :: f :: es)) p (e :: f :: es)
      s := by
  intro whole
  have last : RuleName ((f :: es).getLastD []) := by
    have inside : (f :: es).getLastD [] ∈ f :: es := by
      rw [List.getLastD_cons]
      exact List.getLastD_mem_cons
    exact name _ (by simp at inside ⊢; tauto)
  have plain : ∀ n ∈ closing (f :: es) :: p :: s :: e :: f :: es,
      ∃ c ∈ n.head?, special c = false := by
    intro n member
    rcases List.mem_cons.mp member with rfl | inside
    · exact last.plain_append _
    · exact (name n inside).plain
  have written := length_of_allOrNothing name plain (fun t => List.mem_cons_of_mem _) whole
  rw [oneOctet, if_pos List.mem_cons_self, List.length_singleton] at written
  omega

/-- A group of one element is left out, and so is a group of two whose second element is the
name of a rule and with the bracket is none. Of rule names, longer groups are expanded from the
second element on. -/
theorem optional_groups {es : List CString} (group : es ≠ [])
    (space : ∀ t ∈ p :: s :: es, ' ' ∉ t) (nonempty : ∀ t ∈ p :: s :: es, t ≠ []) :
    (es.length = 1 → ∀ env, AllOrNothing env p es s) ∧
    (es.length = 2 → RuleName (es.getLastD []) → ∀ env,
      environmentLookup env (closing es) = none → AllOrNothing env p es s) ∧
    ((∀ t ∈ p :: s :: es, RuleName t) →
      ((∀ env, (∀ t ∈ p :: s :: es, Defined env t) → environmentLookup env (closing es) = none →
        AllOrNothing env p es s) ↔ es.length ≤ 2) ∧
      ((∀ env, (∀ t ∈ p :: s :: es, Defined env t) → AllOrNothing env p es s) ↔
        es.length = 1)) := by
  have one : es.length = 1 → ∀ env, AllOrNothing env p es s := by
    intro single env
    obtain ⟨e, rfl⟩ := List.length_eq_one_iff.mp single
    exact allOrNothing_one space (nonempty p (by simp)) (nonempty s (by simp))
  have two : es.length = 2 → RuleName (es.getLastD []) → ∀ env,
      environmentLookup env (closing es) = none → AllOrNothing env p es s := by
    intro double name env absent
    obtain ⟨e, f, rfl⟩ := List.length_eq_two.mp double
    refine allOrNothing_two space ?_ name absent
    intro t member
    exact nonempty t (by simp at member ⊢; tauto)
  refine ⟨one, two, fun name => ⟨⟨fun all => ?_, fun short env _ absent => ?_⟩,
    fun all => ?_, fun single env _ => one single env⟩⟩
  · match es with
    | [] => simp
    | [e] => simp
    | e :: f :: es =>
      have whole := all (octetRules (p :: s :: e :: f :: es)) (fun t => defined_octetRules) ?_
      · simp [allOrNothing_octetRules name whole]
      · rw [environmentLookup_octetRules, if_neg (closing_unnamed name _)]
  · match es with
    | [] => exact (group rfl).elim
    | [e] => exact one rfl env
    | [e, f] => exact two rfl (name f (by simp)) env absent
  · match es with
    | [] => exact (group rfl).elim
    | [e] => rfl
    | e :: f :: es =>
      refine (not_allOrNothing_closing name (all _ fun t member => ?_)).elim
      exact defined_octetRules (List.mem_cons_of_mem _ member)

theorem optional_groups_two :
    AllOrNothing letterRules (cstr "p") [cstr "a", cstr "b"] (cstr "s") :=
  ((optional_groups (by decide) (by decide) (by decide)).2.2 (by decide)).1.mpr (by decide)
    letterRules (by decide) (by decide)

end

theorem expands_terminal {env : Environment} {t text : CString} {w : List UInt8} {d : Decoded}
    (plain : ∃ c ∈ t.head?, special c = false)
    (entry : environmentLookup env t = some (.string text)) (space : ' ' ∉ text)
    (terminal : text.head? = some '%') (decoded : decodeTerminal text = .done d)
    (expanded : Expands env t w) : d = .of w := by
  obtain ⟨fuel, y⟩ := expanded
  cases fuel with
  | zero => exact y.elim
  | succ fuel =>
    rw [parseElement_plain plain] at y
    have more := (decodeRule_extends (Nat.le_add_right fuel 3) t).yields y
    rw [decodeRule_entry, entry, decodeEntry, parseElements_terminal space terminal,
      decoded] at more
    exact more

theorem expands_letter : ∀ l ∈ letters, ∀ w, Expands letterRules l.1 w → [l.2.2] = w := by
  have known : ∀ l ∈ letters, RuleName l.1 ∧
      environmentLookup letterRules l.1 = some (.string l.2.1) ∧ ' ' ∉ l.2.1 ∧
      l.2.1.head? = some '%' ∧ (decodeTerminal l.2.1).result? = some (.of [l.2.2]) := by
    decide +kernel
  intro l member w expanded
  obtain ⟨name, entry, space, terminal, decoded⟩ := known l member
  have whole := Sampler.result?_eq_some decoded
  have same := expands_terminal name.plain entry space terminal whole expanded
  exact congrArg Decoded.bytes same

/-- `p [a b c] s` becomes `pbs`. -/
theorem group_of_three :
    (∀ t ∈ [cstr "p", cstr "s", cstr "a", cstr "b", cstr "c"], Defined letterRules t) ∧
    ¬ AllOrNothing letterRules (cstr "p") [cstr "a", cstr "b", cstr "c"] (cstr "s") := by
  constructor
  · decide
  · intro whole
    have text : parseElements 6 (groupText (cstr "p") [cstr "a", cstr "b", cstr "c"] (cstr "s"))
        letterRules = .done (.of [0x70, 0x62, 0x73]) :=
      Sampler.result?_eq_some (by decide +kernel)
    obtain ⟨u, v, w, shape, front, group, back⟩ :=
      whole.result 6 (Stream'.const 0) _ (Stream'.const 0) (by rw [text]; rfl)
    have each := expands_letter
    simp only [letters, List.forall_mem_cons] at each
    obtain ⟨p, s, a, b, c, -⟩ := each
    obtain rfl := p u front
    obtain rfl := s w back
    rcases group with rfl | ⟨parts, expanded, rfl⟩
    · cases congrArg Decoded.length shape
    · have single : ∀ t ∈ [cstr "a", cstr "b", cstr "c"], ∀ w, Expands letterRules t w →
          w.length = 1 := by
        intro t member w expanded
        simp only [List.mem_cons, List.not_mem_nil, or_false] at member
        rcases member with rfl | rfl | rfl
        · rw [← a w expanded, List.length_singleton]
        · rw [← b w expanded, List.length_singleton]
        · rw [← c w expanded, List.length_singleton]
      have group := length_expansions single expanded
      have size := congrArg Decoded.length shape
      simp [Decoded.of, group] at size

end Amqpgram
