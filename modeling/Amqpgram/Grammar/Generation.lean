import Amqpgram.Grammar.Sampling

/-! What a rule generates: the byte strings its ABNF reading derives when every
choice is taken the way the generator samples it, no more and no less. -/
namespace Amqpgram
open Abnf (Element Body Derives Reaches Reachable)

/-- The rules of an environment as the generator expands them: a name without an
entry expands to nothing. -/
def expansions (env : Environment) (name : CString) (body : Body CString) : Prop :=
  rulesOf env name body ∨ environmentLookup env name = none ∧ body = [[]]

/-- Every rule in reach of `r` is well formed. -/
def Spelled (env : Environment) (r : CString) : Prop :=
  ∀ n, Reaches (expansions env) r n → ∃ body, expansions env n body

/-- A result whose length is that of its bytes. -/
def Decoded.of (w : List UInt8) : Decoded := ⟨w, w.length⟩

theorem append_of (u v : List UInt8) : (Decoded.of u).append (.of v) = .ok (.of (u ++ v)) := by
  simp [Decoded.append, Decoded.of]

theorem eq_of_exact {d : Decoded} (exact_length : d.length = d.bytes.length) :
    d = .of d.bytes := by
  cases d
  simp_all [Decoded.of]

/-! ### One element -/

section Element
variable {env : Environment} {fuel : Nat} {t : CString} {e : Element CString} {d : Decoded}

theorem parseElement_rule {n : CString} (s : Spells t (.rule n)) :
    parseElement (fuel + 1) t env = decodeRule fuel n env := by
  cases s with
  | @rule c t plain =>
    simp only [special, Bool.or_eq_false_iff, decide_eq_false_iff_not] at plain
    obtain ⟨⟨⟨⟨⟨digit, star⟩, percent⟩, quote⟩, opening⟩, closing⟩ := plain
    simp [parseElement, digit, star, percent, quote, opening, closing]

theorem parseElement_bytes {bs : List UInt8} (s : Spells t (.bytes bs)) :
    parseElement (fuel + 1) t env = .done (.of bs) := by
  cases s with
  | @bytes b base ns bs hb hd =>
    have dash : b ≠ '-' := by cases hb <;> decide
    have none : ('%' :: b :: dots ns).count '-' = 0 := by
      have apart := not_mem_dots (hd.not_mem (x := '-') (by decide)) (by decide)
      rw [List.count_cons_of_ne (by decide), List.count_cons_of_ne dash,
        List.count_eq_zero.mpr apart]
    have symbol := decodeTerminalSymbol_dotted hb hd
    simp [parseElement, isDigit, decodeTerminal, none, symbol, Decoded.of]

theorem parseElement_range {lo hi : List UInt8} (s : Spells t (.range lo hi)) :
    (parseElement (fuel + 1) t env).Yields d ↔ ∃ w ∈ sampled.range lo hi, d = .of w := by
  cases s with
  | @range b base ls hs lo hi hb hl hh same order =>
    have one := range_count hb hl hh
    have terminal : parseElement (fuel + 1) ('%' :: b :: (dots ls ++ '-' :: dots hs)) env =
        decodeTerminalRange ('%' :: b :: (dots ls ++ '-' :: dots hs)) := by
      simp [parseElement, isDigit, decodeTerminal, one]
    rw [terminal, yields_decodeTerminalRange hb hl hh same order]
    constructor
    · rintro ⟨member, number⟩
      exact ⟨d.bytes, member, eq_of_exact number⟩
    · rintro ⟨w, member, rfl⟩
      exact ⟨member, rfl⟩

theorem parseElement_literal {bs : List UInt8} (s : Spells t (.literal bs)) :
    parseElement (fuel + 1) t env = .done (.of (bs.map shiftedByte)) := by
  cases s with
  | @literal t inside =>
    have quoted := decodeQuoted_literal inside
    simp [parseElement, isDigit, quoted, Decoded.of]

theorem parseElement_option (s : Spells t (.option e)) :
    parseElement (fuel + 1) t env = .done (.of []) := by
  cases s with
  | option _ => simp [parseElement, isDigit, Decoded.none, Decoded.of]

theorem Spells.counted {v : Nat} {m : Option Nat} (s : Spells t (.repetition v m e)) :
    (∃ c ∈ t.head?, isDigit c = true ∨ c = '*') ∧
    ∃ t', Spells t' e ∧ ∀ (next : CString → Int → Gen Decoded) d,
      (do let ⟨min, max, elementToRepeat⟩ ← .ofExcept (scanRepetition t)
          let drawn ← randMod (← .ofExcept (cint (max - min + 1)))
          let quantity ← .ofExcept (cint (drawn + min))
          next elementToRepeat quantity : Gen Decoded).Yields d ↔
        ∃ q ∈ sampled.count v m, (next t' (q : Nat)).Yields d := by
  obtain ⟨t', he, first, scan⟩ := s.scan
  refine ⟨first, t', he, ?_⟩
  intro next d
  rw [scan]
  by_cases small : (v : Int) ≤ intMax ∧ ((m.getD 16 : Nat) : Int) ≤ intMax
  · rw [if_pos small, Sampler.ofExcept_ok, Sampler.bind_done]
    rw [yields_quantity small.1 small.2 (next t')]
    constructor
    · rintro ⟨q, spread, lo, hi, fits, y⟩
      exact ⟨q, ⟨small.1, small.2, spread, lo, hi, fits⟩, y⟩
    · rintro ⟨q, ⟨-, -, spread, lo, hi, fits⟩, y⟩
      exact ⟨q, spread, lo, hi, fits, y⟩
  · rw [if_neg small]
    simp only [Sampler.ofExcept_error, Sampler.bind_fail, Sampler.yields_fail, false_iff]
    rintro ⟨q, ⟨lower, upper, -⟩, -⟩
    exact small ⟨lower, upper⟩

theorem parseElement_repetition (env : Environment) {v : Nat} {m : Option Nat}
    (s : Spells t (.repetition v m e)) :
    (∀ fuel, parseElement (fuel + 1) t env = parseRepetition fuel t env) ∧
    ∃ t', Spells t' e ∧ ∀ fuel d, (parseRepetition (fuel + 1) t env).Yields d ↔
      ∃ q ∈ sampled.count v m,
        (concatenate (.of []) (List.replicate q (parseElement fuel t' env))).Yields d := by
  obtain ⟨⟨c, hc, first⟩, t', he, counted⟩ := s.counted
  refine ⟨?_, t', he, ?_⟩
  · intro fuel
    cases t with
    | nil => simp at hc
    | cons a t =>
      obtain rfl : a = c := by simpa using hc
      rcases first with digit | star
      · simp [parseElement, digit]
      · simp [parseElement, star]
  intro fuel d
  have parts : ∀ q : Nat, (if (q : Int) = 0 then pure .none else concatenate .none
      (List.replicate (q : Int).toNat (parseElement fuel t' env)) : Gen Decoded) =
      concatenate (.of []) (List.replicate q (parseElement fuel t' env)) := by
    intro q
    cases q <;> rfl
  have repeats := counted (fun t quantity => if quantity = 0 then pure .none
    else concatenate .none (List.replicate quantity.toNat (parseElement fuel t env))) d
  simp only [parts] at repeats
  rw [parseRepetition]
  exact repeats

theorem parseElements_eq : parseElements (fuel + 1) t env =
    concatenate (.of []) ((Tokens.tokens ' ' t).map fun t => parseElement fuel t env) := by
  have all : (Tokens.tokens ' ' t).take (t.count ' ' + 1) = Tokens.tokens ' ' t :=
    List.take_of_length_le (Tokens.length_tokens_le ' ' t)
  simp only [parseElements, all]
  rfl

end Element

/-! ### Rules -/

section Rules
variable {env : Environment} {r name : CString} {fuel : Nat} {d : Decoded}

theorem forall₂_mem_left {A B : Type} {R : A → B → Prop} {as : List A} {bs : List B}
    (h : List.Forall₂ R as bs) {a : A} (ha : a ∈ as) : ∃ b ∈ bs, R a b := by
  induction h with
  | nil => cases ha
  | cons head _ ih =>
    rcases List.mem_cons.mp ha with rfl | tail
    · exact ⟨_, List.mem_cons_self .., head⟩
    · obtain ⟨b, hb, related⟩ := ih tail
      exact ⟨b, List.mem_cons_of_mem _ hb, related⟩

theorem yields_selectAlternativeRule {texts : List CString} (fits : texts.length ≤ 2147483647)
    {choice : Option CString} (nonempty : texts ≠ []) :
    (selectAlternativeRule (.stringArray texts)).Yields choice ↔
      ∃ text ∈ texts, choice = some text := by
  have pos : 0 < texts.length := List.length_pos_iff.mpr nonempty
  have unfolded : selectAlternativeRule (.stringArray texts) =
      (do let gen ← randMod texts.length; pure texts[gen.toNat]?) := by
    cases texts with
    | nil => exact (nonempty rfl).elim
    | cons t ts => rfl
  rw [unfolded, Sampler.yields_bind]
  constructor
  · rintro ⟨x, hx, found⟩
    obtain ⟨lo, hi⟩ := (yields_randMod_abs (by omega) (by omega)).mp hx
    have inside : x.toNat < texts.length := by omega
    refine ⟨texts[x.toNat], List.getElem_mem inside, ?_⟩
    rw [← List.getElem?_eq_getElem inside]
    exact found.symm
  · rintro ⟨text, member, rfl⟩
    obtain ⟨i, inside, rfl⟩ := List.mem_iff_getElem.mp member
    refine ⟨i, (yields_randMod_abs (by omega) (by omega)).mpr (by omega), ?_⟩
    exact List.getElem?_eq_getElem inside

theorem decodeRule_chooses {body : Body CString} (rule : expansions env name body)
    (y : (decodeRule (fuel + 1) name env).Yields d) :
    ∃ alt ∈ body, (∃ text, AlternativeReads text alt ∧ (parseElements fuel text env).Yields d) ∨
      ∃ w, d = .of w ∧ Derives sampled (expansions env) alt w := by
  rw [decodeRule] at y
  rcases rule with ⟨entry, lookup, reads⟩ | ⟨lookup, rfl⟩
  · rw [lookup] at y
    cases reads with
    | @string text es reads =>
      exact ⟨es, List.mem_singleton_self es, .inl ⟨text, reads, y⟩⟩
    | @stringArray texts body reads fits =>
      cases texts with
      | nil => simp [selectAlternativeRule] at y
      | cons t ts =>
        obtain ⟨choice, chosen, expanded⟩ := (Sampler.yields_bind ..).mp y
        obtain ⟨text, member, rfl⟩ := (yields_selectAlternativeRule fits (by simp)).mp chosen
        obtain ⟨alt, inside, reads⟩ := forall₂_mem_left reads member
        exact ⟨alt, inside, .inl ⟨text, reads, expanded⟩⟩
    | @byteArray bs =>
      have own : bs ∈ Abnf.language sampled (expansions env) (.bytes bs) :=
        Abnf.language_bytes.mpr rfl
      exact ⟨[.bytes bs], List.mem_singleton_self _, .inr ⟨bs, y.symm, own⟩⟩
  · rw [lookup] at y
    exact ⟨[], List.mem_singleton_self _, .inr ⟨[], y.symm, .nil⟩⟩

theorem decodeRule_reaches {body : Body CString} (rule : expansions env name body)
    {alt : List (Element CString)} (member : alt ∈ body) :
    (∃ text, AlternativeReads text alt ∧ ∀ fuel d, (parseElements fuel text env).Yields d →
      (decodeRule (fuel + 1) name env).Yields d) ∨
    ∀ w, Derives sampled (expansions env) alt w →
      ∀ fuel, (decodeRule (fuel + 1) name env).Yields (.of w) := by
  rcases rule with ⟨entry, lookup, reads⟩ | ⟨lookup, rfl⟩
  · cases reads with
    | @string text es reads =>
      obtain rfl := List.mem_singleton.mp member
      refine .inl ⟨text, reads, ?_⟩
      intro fuel d y
      rw [decodeRule, lookup]
      exact y
    | @stringArray texts body reads fits =>
      obtain ⟨text, inside, reads⟩ := forall₂_mem_left reads.flip member
      refine .inl ⟨text, reads, ?_⟩
      intro fuel d y
      rw [decodeRule, lookup]
      have chosen := (yields_selectAlternativeRule fits (List.ne_nil_of_mem inside)).mpr
        ⟨text, inside, rfl⟩
      exact (Sampler.yields_bind ..).mpr ⟨some text, chosen, y⟩
    | @byteArray bs =>
      obtain rfl := List.mem_singleton.mp member
      refine .inr ?_
      intro w derived fuel
      obtain rfl := Abnf.language_bytes.mp derived
      rw [decodeRule, lookup]
      rfl
  · obtain rfl := List.mem_singleton.mp member
    refine .inr ?_
    intro w derived fuel
    obtain rfl := Abnf.derives_nil.mp derived
    rw [decodeRule, lookup]
    rfl

end Rules

/-! ### Every result is derived -/

section Sound
variable {env : Environment} {r : CString} {t : CString} {e : Element CString}
  {es : List (Element CString)} {d : Decoded}

/-- All the call can return is derived from these elements. -/
def Derived (env : Environment) (g : Gen Decoded) (es : List (Element CString)) : Prop :=
  ∀ d, g.Yields d → ∃ w, d = .of w ∧ Derives sampled (expansions env) es w

theorem concatenate_derived {parts : List (Gen Decoded)}
    (each : List.Forall₂ (fun g e => Derived env g [e]) parts es) {u : List UInt8}
    (y : (concatenate (.of u) parts).Yields d) :
    ∃ w, d = .of (u ++ w) ∧ Derives sampled (expansions env) es w := by
  induction each generalizing u with
  | nil => exact ⟨[], by simpa using y.symm, .nil⟩
  | @cons g e parts es head _ ih =>
    obtain ⟨part, first, rest⟩ := (Sampler.yields_bind ..).mp y
    obtain ⟨v, rfl, derived⟩ := head part first
    rw [append_of, Sampler.ofExcept_ok, Sampler.bind_done] at rest
    obtain ⟨w, rfl, others⟩ := ih rest
    exact ⟨v ++ w, by rw [List.append_assoc], Abnf.derives_cons.mpr ⟨v, w, rfl, derived, others⟩⟩

theorem parts_derived {f : CString → Gen Decoded} {texts : List CString}
    (spelled : List.Forall₂ Spells texts es)
    (each : ∀ t, ∀ e ∈ es, Spells t e → Derived env (f t) [e]) :
    List.Forall₂ (fun g e => Derived env g [e]) (texts.map f) es := by
  induction spelled with
  | nil => exact .nil
  | cons head _ ih =>
    have tail := ih fun t e he => each t e (List.mem_cons_of_mem _ he)
    exact .cons (each _ _ (List.mem_cons_self ..) head) tail

theorem replicate_derived {g : Gen Decoded} (each : Derived env g [e]) (q : Nat) :
    List.Forall₂ (fun g e => Derived env g [e]) (List.replicate q g) (List.replicate q e) := by
  induction q with
  | zero => exact .nil
  | succ q ih => exact .cons each ih

/-- A rule in reach of `r` hands on what its elements do with less fuel. -/
theorem decodeRule_step (spelled : Spelled env r) {n : CString}
    (inReach : Reaches (expansions env) r n) (fuel : Nat)
    (below : ∀ less < fuel, ∀ t e, Spells t e → Reachable (expansions env) r e →
      Derived env (parseElement less t env) [e]) :
    Derived env (decodeRule fuel n env) [.rule n] := by
  intro d y
  obtain ⟨body, rule⟩ := spelled n inReach
  cases fuel with
  | zero => simp [decodeRule] at y
  | succ fuel =>
    obtain ⟨alt, member, chosen⟩ := decodeRule_chooses rule y
    have derived : ∃ w, d = .of w ∧ Derives sampled (expansions env) alt w := by
      rcases chosen with ⟨text, reads, expanded⟩ | fixed
      · cases fuel with
        | zero => simp [parseElements] at expanded
        | succ fuel =>
          rw [parseElements_eq] at expanded
          have reach := inReach.body rule member
          have each := parts_derived reads fun t e he s => below fuel (by omega) t e s (reach e he)
          exact concatenate_derived each expanded
      · exact fixed
    obtain ⟨w, rfl, inside⟩ := derived
    exact ⟨w, rfl, by simpa using Derives.rule rule member inside .nil⟩

/-- What an element generates is derived from it. The induction is on the fuel,
and the rules in reach of `r` all have a body to continue with. -/
theorem parseElement_derived (spelled : Spelled env r) (fuel : Nat) (s : Spells t e)
    (reach : Reachable (expansions env) r e) : Derived env (parseElement fuel t env) [e] := by
  induction fuel using Nat.strong_induction_on generalizing t e with
  | _ fuel ih =>
  intro d y
  cases fuel with
  | zero => simp [parseElement] at y
  | succ fuel =>
    cases e with
    | rule n =>
      rw [parseElement_rule s] at y
      have inReach := Abnf.reachable_rule.mp reach
      exact decodeRule_step spelled inReach fuel
        (fun less small t e s reach => ih less (by omega) s reach) d y
    | bytes bs =>
      rw [parseElement_bytes s] at y
      exact ⟨bs, y.symm, Abnf.language_bytes.mpr rfl⟩
    | range lo hi =>
      obtain ⟨w, member, rfl⟩ := (parseElement_range s).mp y
      exact ⟨w, rfl, Abnf.language_range.mpr member⟩
    | literal bs =>
      rw [parseElement_literal s] at y
      exact ⟨_, y.symm, Abnf.language_literal.mpr rfl⟩
    | option e =>
      rw [parseElement_option s] at y
      exact ⟨[], y.symm, .omitted .nil⟩
    | repetition v m e =>
      obtain ⟨dispatch, t', he, counted⟩ := parseElement_repetition env s
      rw [dispatch] at y
      cases fuel with
      | zero => simp [parseRepetition] at y
      | succ fuel =>
        obtain ⟨q, count, parts⟩ := (counted fuel d).mp y
        have each := ih fuel (by omega) he reach
        obtain ⟨w, rfl, derived⟩ := concatenate_derived (replicate_derived each q) parts
        exact ⟨w, rfl, Abnf.language_repetition.mpr ⟨q, count, derived⟩⟩

theorem decodeRule_derived (spelled : Spelled env r) (fuel : Nat) :
    Derived env (decodeRule fuel r env) [.rule r] :=
  decodeRule_step spelled .start fuel fun less _ _ _ s reach =>
    parseElement_derived spelled less s reach

end Sound

/-! ### Every derivation is generated -/

section Complete
variable {env : Environment} {t : CString} {e : Element CString} {es : List (Element CString)}

/-- With enough fuel the call can return these bytes behind those it has. -/
def Generated (env : Environment) (texts : List CString) (w : List UInt8) : Prop :=
  ∃ enough, ∀ fuel ≥ enough, ∀ u,
    (concatenate (.of u) (texts.map fun t => parseElement fuel t env)).Yields (.of (u ++ w))

theorem generated_cons {texts : List CString} {u v : List UInt8}
    (head : ∃ enough, ∀ fuel ≥ enough, (parseElement fuel t env).Yields (.of u))
    (tail : Generated env texts v) : Generated env (t :: texts) (u ++ v) := by
  obtain ⟨m, head⟩ := head
  obtain ⟨n, tail⟩ := tail
  refine ⟨max m n, ?_⟩
  intro fuel enough front
  rw [List.map_cons, concatenate]
  refine (Sampler.yields_bind ..).mpr ⟨.of u, head fuel (by omega), ?_⟩
  rw [append_of, Sampler.ofExcept_ok, Sampler.bind_done, ← List.append_assoc]
  exact tail fuel (by omega) (front ++ u)

theorem eventually_succ {P : Nat → Prop} (h : ∃ enough, ∀ fuel ≥ enough, P (fuel + 1)) :
    ∃ enough, ∀ fuel ≥ enough, P fuel := by
  obtain ⟨n, h⟩ := h
  refine ⟨n + 1, ?_⟩
  intro fuel enough
  obtain ⟨m, rfl⟩ : ∃ m, fuel = m + 1 := ⟨fuel - 1, by omega⟩
  exact h m (by omega)

theorem generated_at_once {texts : List CString} {u v : List UInt8}
    (yields : ∀ fuel, (parseElement (fuel + 1) t env).Yields (.of u))
    (tail : Generated env texts v) : Generated env (t :: texts) (u ++ v) :=
  generated_cons (eventually_succ ⟨0, fun fuel _ => yields fuel⟩) tail

theorem spells_replicate {q : Nat} (s : Spells t e) :
    List.Forall₂ Spells (List.replicate q t) (List.replicate q e) := by
  induction q with
  | zero => exact .nil
  | succ q ih => exact .cons s ih

theorem decodeRule_generated {n : CString} {body : Body CString} {u : List UInt8}
    (rule : expansions env n body) (member : es ∈ body)
    (derived : Derives sampled (expansions env) es u)
    (below : ∀ texts, List.Forall₂ Spells texts es → Generated env texts u) :
    ∃ enough, ∀ fuel ≥ enough, (decodeRule fuel n env).Yields (.of u) := by
  apply eventually_succ
  rcases decodeRule_reaches rule member with ⟨text, reads, expands⟩ | fixed
  · suffices elements : ∃ enough, ∀ fuel ≥ enough, (parseElements fuel text env).Yields (.of u) by
      obtain ⟨n, elements⟩ := elements
      exact ⟨n, fun fuel enough => expands fuel _ (elements fuel enough)⟩
    apply eventually_succ
    simp only [parseElements_eq]
    obtain ⟨n, generated⟩ := below _ reads
    exact ⟨n, fun fuel enough => generated fuel enough []⟩
  · exact ⟨0, fun fuel _ => fixed u derived fuel⟩

/-- Every derivation in the sampled reading is the trace of a call. The induction
is on the derivation; the texts are those that spell its elements. -/
theorem derives_generated {w : List UInt8} (d : Derives sampled (expansions env) es w)
    {texts : List CString} (spelled : List.Forall₂ Spells texts es) : Generated env texts w := by
  induction d generalizing texts with
  | nil =>
    cases spelled
    refine ⟨0, ?_⟩
    intro fuel _ u
    simp [concatenate]
  | @rule n body alt es u v rule member below _ ihu ihv =>
    cases spelled with
    | cons s spelled =>
    refine generated_cons ?_ (ihv spelled)
    apply eventually_succ
    simp only [parseElement_rule s]
    exact decodeRule_generated rule member below fun texts reads => ihu reads
  | @bytes bs es v _ ih =>
    cases spelled with
    | cons s spelled =>
    refine generated_at_once ?_ (ih spelled)
    intro fuel
    rw [parseElement_bytes s]
    rfl
  | @range lo hi u es v member _ ih =>
    cases spelled with
    | cons s spelled =>
    exact generated_at_once (fun fuel => (parseElement_range s).mpr ⟨u, member, rfl⟩) (ih spelled)
  | @literal bs u es v member _ ih =>
    cases spelled with
    | cons s spelled =>
    obtain rfl : u = bs.map shiftedByte := member
    refine generated_at_once ?_ (ih spelled)
    intro fuel
    rw [parseElement_literal s]
    rfl
  | @omitted e es v _ ih =>
    cases spelled with
    | cons s spelled =>
    refine generated_at_once (u := []) ?_ (ih spelled)
    intro fuel
    rw [parseElement_option s]
    rfl
  | present impossible => exact impossible.elim
  | @repetition v m e q es u w count below _ ihu ihw =>
    cases spelled with
    | cons s spelled =>
    obtain ⟨dispatch, t', he, counted⟩ := parseElement_repetition env s
    refine generated_cons ?_ (ihw spelled)
    apply eventually_succ
    simp only [dispatch]
    apply eventually_succ
    obtain ⟨n, generated⟩ := ihu (spells_replicate he)
    refine ⟨n, ?_⟩
    intro fuel enough
    have parts := generated fuel enough []
    rw [List.map_replicate] at parts
    exact (counted fuel _).mpr ⟨q, count, parts⟩

end Complete

/-- The results of `decode_rule` are the strings its rule derives in the sampled reading. -/
theorem decodeRule_language {env : Environment} {r : CString} (spelled : Spelled env r)
    {d : Decoded} : (∃ fuel, (decodeRule fuel r env).Yields d) ↔
      ∃ w ∈ Abnf.language sampled (expansions env) (.rule r), d = .of w := by
  constructor
  · rintro ⟨fuel, y⟩
    obtain ⟨w, rfl, derived⟩ := decodeRule_derived spelled fuel d y
    exact ⟨w, derived, rfl⟩
  · rintro ⟨w, derived, rfl⟩
    obtain ⟨body, rule, alt, member, inside⟩ := Abnf.language_rule.mp derived
    obtain ⟨n, generated⟩ := decodeRule_generated rule member inside
      fun texts reads => derives_generated inside reads
    exact ⟨n, generated n (Nat.le_refl n)⟩

end Amqpgram
