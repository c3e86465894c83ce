import Amqpgram.Grammar.Sampling

/-! Reading the text of a rule: a text spells at most one element, so that an
environment defines at most one body for a name, and a reader that finds it. -/
namespace Amqpgram
open Abnf (Element Body)

/-! ### A text spells at most one element -/

theorem Numeral.decimal {t : CString} {v : Nat} (n : Numeral 10 t v) :
    ∀ c ∈ t, isDigit c = true := by
  intro c hc
  obtain ⟨d, value, small⟩ := n.digits c hc
  exact (digitValue_ten value small).1

theorem LowerCount.decimal {t : CString} {v : Nat} (n : LowerCount t v) :
    ∀ c ∈ t, isDigit c = true := by
  cases n with
  | absent => simp
  | given n => exact n.decimal

theorem UpperCount.decimal {t : CString} {w : Option Nat} (n : UpperCount t w) :
    ∀ c ∈ t, isDigit c = true := by
  cases n with
  | absent => simp
  | given n => exact n.decimal

theorem LowerCount.unique {t : CString} {v v' : Nat} (h : LowerCount t v) (h' : LowerCount t v') :
    v = v' := h.digits.2.symm.trans h'.digits.2

theorem UpperCount.unique {t : CString} {w w' : Option Nat} (h : UpperCount t w)
    (h' : UpperCount t w') : w = w' := by
  cases h with
  | absent =>
    cases h' with
    | absent => rfl
    | given n => exact (n.nonempty rfl).elim
  | given n =>
    cases h' with
    | absent => exact (n.nonempty rfl).elim
    | given n' => exact congrArg some (n.value.symm.trans n'.value)

theorem digits_prefix {n n' s s' : CString} (hn : ∀ c ∈ n, isDigit c = true)
    (hn' : ∀ c ∈ n', isDigit c = true) (stop : ∀ c ∈ s.head?, isDigit c = false)
    (stop' : ∀ c ∈ s'.head?, isDigit c = false) (same : n ++ s = n' ++ s') : n = n' ∧ s = s' := by
  have cut : ∀ {n s : CString}, (∀ c ∈ n, isDigit c = true) → (∀ c ∈ s.head?, isDigit c = false) →
      (n ++ s).takeWhile isDigit = n := by
    intro n s hn stop
    rw [List.takeWhile_append_of_pos hn]
    cases s with
    | nil => simp
    | cons c s => simp [stop c (by simp)]
  have equal : n = n' := by
    rw [← cut hn stop, same, cut hn' stop']
  subst equal
  exact ⟨rfl, List.append_cancel_left same⟩

inductive Kind where
  | rule
  | terminal
  | literal
  | option
  | repetition

def kindOf : Element CString → Kind
  | .rule _ => .rule
  | .bytes _ => .terminal
  | .range _ _ => .terminal
  | .literal _ => .literal
  | .option _ => .option
  | .repetition _ _ _ => .repetition

/-- What the first character of a text makes it an element of. -/
def opens (c : Char) : Kind :=
  if isDigit c || c = '*' then .repetition
  else if c = '%' then .terminal
  else if c = '"' then .literal
  else if c = '[' then .option
  else .rule

theorem Spells.kind {t : CString} {e : Element CString} (s : Spells t e) :
    t.head?.map opens = some (kindOf e) := by
  cases e with
  | rule n =>
    cases s with
    | @rule c t plain =>
      simp only [special, Bool.or_eq_false_iff, decide_eq_false_iff_not] at plain
      obtain ⟨⟨⟨⟨⟨digit, star⟩, percent⟩, quote⟩, opening⟩, _⟩ := plain
      simp [opens, kindOf, digit, star, percent, quote, opening]
  | bytes bs => cases s with | bytes _ _ => rfl
  | range lo hi => cases s with | range _ _ _ _ _ => rfl
  | literal t => cases s with | literal _ => rfl
  | option e => cases s with | option _ => rfl
  | repetition v w e =>
    obtain ⟨_, _, ⟨c, hc, first⟩, _⟩ := s.scan
    rw [Option.mem_def.mp hc]
    rcases first with digit | rfl
    · simp [opens, kindOf, digit]
    · rfl

theorem terminalBase_inj {b : Char} {base base' : Nat} (h : TerminalBase b base)
    (h' : TerminalBase b base') : base = base' :=
  (getTerminalBase_eq h []).symm.trans (getTerminalBase_eq h' [])

theorem Dotted.unique {b : Char} {base : Nat} {ns ns' : List CString} {bs bs' : List UInt8}
    (hb : TerminalBase b base) (h : Dotted base ns bs) (h' : Dotted base ns' bs')
    (same : dots ns = dots ns') : bs = bs' := by
  have decoded := decodeTerminalSymbol_dotted hb h
  rw [same, decodeTerminalSymbol_dotted hb h'] at decoded
  exact (congrArg Decoded.bytes (Except.ok.inj decoded)).symm

theorem bytes_not_range {b b' : Char} {base base' : Nat} {ns ls hs : List CString}
    {bs lo hi : List UInt8} (hb : TerminalBase b base) (h : Dotted base ns bs)
    (hb' : TerminalBase b' base') (hl : Dotted base' ls lo) (hh : Dotted base' hs hi) :
    '%' :: b :: dots ns ≠ '%' :: b' :: (dots ls ++ '-' :: dots hs) := by
  intro same
  have one := range_count hb' hl hh
  have dash : b ≠ '-' := by cases hb <;> decide
  have apart := not_mem_dots (h.not_mem (x := '-') (by decide)) (by decide)
  rw [← same, List.count_cons_of_ne (by decide), List.count_cons_of_ne dash,
    List.count_eq_zero.mpr apart] at one
  exact absurd one (by decide)

/-- The count or the counts in front of a text, and the text behind them. -/
def CountsFor (text : CString) (v : Nat) (w : Option Nat) (t : CString) : Prop :=
  ∃ n, (Numeral 10 n v ∧ w = some v ∧ text = n ++ t) ∨
    ∃ m, LowerCount n v ∧ UpperCount m w ∧ text = n ++ '*' :: (m ++ t)

theorem Spells.inversion {text : CString} {e : Element CString} (s : Spells text e) :
    match e with
    | .rule n => text = n
    | .bytes bs => ∃ b base ns, TerminalBase b base ∧ Dotted base ns bs ∧ text = '%' :: b :: dots ns
    | .range lo hi => ∃ b base ls hs, TerminalBase b base ∧ Dotted base ls lo ∧ Dotted base hs hi ∧
        text = '%' :: b :: (dots ls ++ '-' :: dots hs)
    | .literal bs => ∃ t : CString, bs = t.map charByte ∧ text = '"' :: (t ++ ['"'])
    | .option e => ∃ t, Spells t e ∧ text = '[' :: (t ++ [']'])
    | .repetition v w e => ∃ t, Unrepeated t ∧ Spells t e ∧ CountsFor text v w t := by
  cases s with
  | rule _ => rfl
  | bytes hb h => exact ⟨_, _, _, hb, h, rfl⟩
  | range hb hl hh _ _ => exact ⟨_, _, _, _, hb, hl, hh, rfl⟩
  | literal _ => exact ⟨_, rfl, rfl⟩
  | option s => exact ⟨_, s, rfl⟩
  | exactly hn ht s => exact ⟨_, ht, s, _, .inl ⟨hn, rfl, rfl⟩⟩
  | between hn hm _ ht s => exact ⟨_, ht, s, _, .inr ⟨_, hn, hm, rfl⟩⟩

/-- The element behind a star cannot be mistaken for one behind a plain count. -/
theorem star_or_not {n n' t t' : CString} (hn : ∀ c ∈ n, isDigit c = true)
    (hn' : ∀ c ∈ n', isDigit c = true) (ht : Unrepeated t) : n ++ t ≠ n' ++ '*' :: t' := by
  intro same
  have stop : ∀ c ∈ ('*' :: t').head?, isDigit c = false := by simp [isDigit]
  obtain ⟨_, rfl⟩ := digits_prefix hn hn' (fun c hc => (ht c hc).1) stop same
  exact (ht '*' (by simp)).2 rfl

theorem ranges_unique {b b' : Char} {base base' : Nat} {ls hs ls' hs' : List CString}
    {lo hi lo' hi' : List UInt8} (hb : TerminalBase b base) (hl : Dotted base ls lo)
    (hh : Dotted base hs hi) (hb' : TerminalBase b' base') (hl' : Dotted base' ls' lo')
    (hh' : Dotted base' hs' hi')
    (same : '%' :: b :: (dots ls ++ '-' :: dots hs) = '%' :: b' :: (dots ls' ++ '-' :: dots hs')) :
    lo = lo' ∧ hi = hi' := by
  have halves := range_tokens hb hl hh
  rw [same, range_tokens hb' hl' hh'] at halves
  obtain ⟨lower, upper⟩ := List.cons.inj halves
  obtain ⟨rfl, tail⟩ := List.cons.inj (List.cons.inj lower).2
  obtain rfl := terminalBase_inj hb hb'
  exact ⟨hl.unique hb hl' tail.symm, hh.unique hb hh' (List.cons.inj upper).1.symm⟩

theorem CountsFor.unique {text t t' : CString} {v v' : Nat} {w w' : Option Nat}
    (form : CountsFor text v w t) (form' : CountsFor text v' w' t') (ht : Unrepeated t)
    (ht' : Unrepeated t') : v = v' ∧ w = w' ∧ t = t' := by
  have stop := fun c hc => (ht c hc).1
  have stop' := fun c hc => (ht' c hc).1
  have star : ∀ t : CString, ∀ c ∈ ('*' :: t).head?, isDigit c = false := by simp [isDigit]
  rcases form with ⟨n, ⟨hn, rfl, rfl⟩ | ⟨m, hn, hm, rfl⟩⟩
  · rcases form' with ⟨n', ⟨hn', rfl, same⟩ | ⟨m', hn', hm', same⟩⟩
    · obtain ⟨rfl, rfl⟩ := digits_prefix hn.decimal hn'.decimal stop stop' same
      obtain rfl := hn.value.symm.trans hn'.value
      exact ⟨rfl, rfl, rfl⟩
    · exact (star_or_not hn.decimal hn'.decimal ht same).elim
  · rcases form' with ⟨n', ⟨hn', rfl, same⟩ | ⟨m', hn', hm', same⟩⟩
    · exact (star_or_not hn'.decimal hn.decimal ht' same.symm).elim
    · obtain ⟨rfl, rest⟩ := digits_prefix hn.decimal hn'.decimal (star _) (star _) same
      obtain ⟨rfl, rfl⟩ := digits_prefix hm.decimal hm'.decimal stop stop' (List.cons.inj rest).2
      exact ⟨hn.unique hn', hm.unique hm', rfl⟩

theorem Spells.unique {text : CString} {e e' : Element CString} (s : Spells text e)
    (s' : Spells text e') : e = e' := by
  have kinds : kindOf e = kindOf e' := Option.some.inj (s.kind.symm.trans s'.kind)
  induction e generalizing text e' with
  | rule n =>
    cases e' with
    | rule n' => exact congrArg Element.rule (s.inversion.symm.trans s'.inversion)
    | bytes | range | literal | option | repetition => cases kinds
  | bytes bs =>
    obtain ⟨b, base, ns, hb, h, rfl⟩ := s.inversion
    cases e' with
    | bytes bs' =>
      obtain ⟨b', base', ns', hb', h', same⟩ := s'.inversion
      obtain ⟨rfl, tail⟩ := List.cons.inj (List.cons.inj same).2
      obtain rfl := terminalBase_inj hb hb'
      exact congrArg Element.bytes (h.unique hb h' tail)
    | range lo hi =>
      obtain ⟨_, _, _, _, hb', hl, hh, same⟩ := s'.inversion
      exact (bytes_not_range hb h hb' hl hh same).elim
    | rule | literal | option | repetition => cases kinds
  | range lo hi =>
    obtain ⟨b, base, ls, hs, hb, hl, hh, rfl⟩ := s.inversion
    cases e' with
    | bytes bs' =>
      obtain ⟨_, _, _, hb', h', same⟩ := s'.inversion
      exact (bytes_not_range hb' h' hb hl hh same.symm).elim
    | range lo' hi' =>
      obtain ⟨b', base', ls', hs', hb', hl', hh', same⟩ := s'.inversion
      obtain ⟨rfl, rfl⟩ := ranges_unique hb hl hh hb' hl' hh' same
      rfl
    | rule | literal | option | repetition => cases kinds
  | literal bs =>
    obtain ⟨t, rfl, rfl⟩ := s.inversion
    cases e' with
    | literal bs' =>
      obtain ⟨t', rfl, same⟩ := s'.inversion
      rw [List.append_cancel_right (List.cons.inj same).2]
    | rule | bytes | range | option | repetition => cases kinds
  | option e ih =>
    obtain ⟨t, inner, rfl⟩ := s.inversion
    cases e' with
    | option e' =>
      obtain ⟨t', inner', same⟩ := s'.inversion
      obtain rfl := List.append_cancel_right (List.cons.inj same).2
      rw [ih inner inner' (Option.some.inj (inner.kind.symm.trans inner'.kind))]
    | rule | bytes | range | literal | repetition => cases kinds
  | repetition v w e ih =>
    obtain ⟨t, ht, inner, form⟩ := s.inversion
    cases e' with
    | repetition v' w' e' =>
      obtain ⟨t', ht', inner', form'⟩ := s'.inversion
      obtain ⟨rfl, rfl, rfl⟩ := form.unique form' ht ht'
      rw [ih inner inner' (Option.some.inj (inner.kind.symm.trans inner'.kind))]
    | rule | bytes | range | literal | option => cases kinds

theorem rulesOf_unique {env : Environment} {n : CString} {body body' : Body CString}
    (h : rulesOf env n body) (h' : rulesOf env n body') : body = body' := by
  obtain ⟨entry, lookup, reads⟩ := h
  obtain ⟨entry', lookup', reads'⟩ := h'
  obtain rfl := Option.some.inj (lookup.symm.trans lookup')
  have elements : Relator.RightUnique Spells := fun _ _ _ s s' => s.unique s'
  have alternatives : Relator.RightUnique AlternativeReads := fun _ _ _ s s' =>
    elements.forall₂ s s'
  cases reads with
  | string reads => cases reads' with | string reads' => rw [alternatives reads reads']
  | stringArray reads _ =>
    cases reads' with | stringArray reads' _ => exact alternatives.forall₂ reads reads'
  | byteArray => cases reads' with | byteArray => rfl

/-! ### A reader -/

def readNumeral (base : Nat) (t : CString) : Option Nat :=
  if t ≠ [] ∧ t.all fun c => (digitValue c).any (· < base) then some (digitsValue base 0 t)
  else none

def readByteValue (base : Nat) (t : CString) : Option UInt8 :=
  (readNumeral base t).bind fun v => if v < 256 then some (UInt8.ofNat v) else none

def readDotted (base : Nat) (t : CString) : Option (List UInt8) :=
  (t.splitOn '.').mapM (readByteValue base)

def readBase : Char → Option Nat
  | 'b' => some 2
  | 'd' => some 10
  | 'x' => some 16
  | _ => none

def readTerminal (b : Char) (s : CString) : Option (Element CString) :=
  (readBase b).bind fun base =>
    match s.splitOn '-' with
    | [t] => (readDotted base t).map .bytes
    | [l, h] => (readDotted base l).bind fun lo => (readDotted base h).bind fun hi =>
      if lo.length = hi.length ∧ Words.value lo ≤ Words.value hi then some (.range lo hi) else none
    | _ => none

def readLower (n : CString) : Option Nat := if n = [] then some 0 else readNumeral 10 n

def readUpper (n : CString) : Option (Option Nat) :=
  if n = [] then some none else (readNumeral 10 n).map some

/-- The bound is on the nesting of brackets and counts. -/
def readElement : Nat → CString → Option (Element CString)
  | 0, _ => none
  | depth + 1, t =>
    match t with
    | [] => none
    | c :: s =>
      if c = '%' then s.head?.bind fun b => readTerminal b s.tail
      else if c = '"' then
        if s.getLast? = some '"' ∧ s.dropLast.all fun c => c ≠ '"' ∧ c.toNat < 256 then
          some (.literal (s.dropLast.map charByte)) else none
      else if c = '[' then
        if s.getLast? = some ']' then (readElement depth s.dropLast).map .option else none
      else if special c = false then some (.rule (c :: s))
      else
        let n := t.takeWhile isDigit
        match t.dropWhile isDigit with
        | '*' :: rest =>
          (readLower n).bind fun v => (readUpper (rest.takeWhile isDigit)).bind fun w =>
            (readElement depth (rest.dropWhile isDigit)).bind fun e =>
              if (∀ u ∈ w, v ≤ u) ∧ (rest.dropWhile isDigit).head? ≠ some '*' then
                some (.repetition v w e) else none
        | rest =>
          (readNumeral 10 n).bind fun v => (readElement depth rest).map fun e =>
            .repetition v (some v) e

theorem readNumeral_spells {base : Nat} {t : CString} {v : Nat} (h : readNumeral base t = some v) :
    Numeral base t v := by
  unfold readNumeral at h
  split at h
  · rename_i digits
    refine ⟨digits.1, ?_, Option.some.inj h⟩
    intro c hc
    have digit := List.all_eq_true.mp digits.2 c hc
    obtain ⟨d, value, small⟩ := (Option.any_eq_true ..).mp digit
    exact ⟨d, value, of_decide_eq_true small⟩
  · cases h

theorem forall₂_of_mapM {A B : Type} {f : A → Option B} {as : List A} {bs : List B}
    (h : as.mapM f = some bs) : List.Forall₂ (fun a b => f a = some b) as bs := by
  induction as generalizing bs with
  | nil =>
    obtain rfl : bs = [] := (Option.some.inj h).symm
    exact .nil
  | cons a as ih =>
    simp only [List.mapM_cons, Option.bind_eq_bind, Option.bind_eq_some_iff] at h
    obtain ⟨b, head, rest, tail, same⟩ := h
    obtain rfl := Option.some.inj same
    exact .cons head (ih tail)

theorem readByteValue_spells {base : Nat} {t : CString} {b : UInt8}
    (h : readByteValue base t = some b) : Numeral base t b.toNat := by
  obtain ⟨v, number, small⟩ := Option.bind_eq_some_iff.mp h
  split at small
  · rename_i fits
    obtain rfl := Option.some.inj small
    rw [UInt8.toNat_ofNat_of_lt' fits]
    exact readNumeral_spells number
  · cases small

theorem readDotted_spells {base : Nat} {t : CString} {bs : List UInt8}
    (h : readDotted base t = some bs) : ∃ ns, Dotted base ns bs ∧ t = dots ns := by
  have values := (forall₂_of_mapM h).imp fun _ _ => readByteValue_spells
  exact ⟨t.splitOn '.', ⟨List.splitOn_ne_nil _ _, values⟩, (List.intercalate_splitOn '.').symm⟩

theorem readBase_spells {b : Char} {base : Nat} (h : readBase b = some base) :
    TerminalBase b base := by
  unfold readBase at h
  split at h
  · obtain rfl := Option.some.inj h; exact .b
  · obtain rfl := Option.some.inj h; exact .d
  · obtain rfl := Option.some.inj h; exact .x
  · cases h

theorem readTerminal_spells {b : Char} {s : CString} {e : Element CString}
    (h : readTerminal b s = some e) : Spells ('%' :: b :: s) e := by
  obtain ⟨base, known, cut⟩ := Option.bind_eq_some_iff.mp h
  have hb := readBase_spells known
  have whole : s = ['-'].intercalate (s.splitOn '-') := (List.intercalate_splitOn '-').symm
  split at cut
  · rename_i t pieces
    obtain ⟨bs, dotted, rfl⟩ := Option.map_eq_some_iff.mp cut
    obtain ⟨ns, spelled, rfl⟩ := readDotted_spells dotted
    obtain rfl : s = dots ns := by simpa [pieces] using whole
    exact .bytes hb spelled
  · rename_i l h pieces
    obtain ⟨lo, lower, cut⟩ := Option.bind_eq_some_iff.mp cut
    obtain ⟨hi, upper, cut⟩ := Option.bind_eq_some_iff.mp cut
    split at cut
    · rename_i order
      obtain rfl := Option.some.inj cut
      obtain ⟨ls, hl, rfl⟩ := readDotted_spells lower
      obtain ⟨hs, hh, rfl⟩ := readDotted_spells upper
      obtain rfl : s = dots ls ++ '-' :: dots hs := by
        rw [pieces] at whole
        simpa using whole
      exact .range hb hl hh order.1 order.2
    · cases cut
  · cases cut

theorem readLower_spells {n : CString} {v : Nat} (h : readLower n = some v) : LowerCount n v := by
  unfold readLower at h
  split at h
  · rename_i empty
    obtain rfl := Option.some.inj h
    exact empty ▸ .absent
  · exact .given (readNumeral_spells h)

theorem readUpper_spells {n : CString} {w : Option Nat} (h : readUpper n = some w) :
    UpperCount n w := by
  unfold readUpper at h
  split at h
  · rename_i empty
    obtain rfl := Option.some.inj h
    exact empty ▸ .absent
  · obtain ⟨v, number, rfl⟩ := Option.map_eq_some_iff.mp h
    exact .given (readNumeral_spells number)

theorem unrepeated_dropWhile {t : CString} (h : (t.dropWhile isDigit).head? ≠ some '*') :
    Unrepeated (t.dropWhile isDigit) := by
  intro c hc
  have stopped := List.head?_dropWhile_not isDigit t
  rw [Option.mem_def.mp hc] at stopped
  refine ⟨by simpa using stopped, ?_⟩
  rintro rfl
  exact h hc

theorem readLiteral_spells {s : CString}
    (closed : s.getLast? = some '"' ∧ s.dropLast.all fun c => c ≠ '"' ∧ c.toNat < 256) :
    Spells ('"' :: s) (.literal (s.dropLast.map charByte)) := by
  obtain ⟨t, rfl⟩ := List.getLast?_eq_some_iff.mp closed.1
  rw [List.dropLast_concat] at closed ⊢
  refine .literal ?_
  intro c hc
  have allowed := List.all_eq_true.mp closed.2 c (by simpa using hc)
  simpa using allowed

theorem readCount_spells {t : CString} {v : Nat} {e : Element CString}
    (other : ∀ rest, t.dropWhile isDigit ≠ '*' :: rest)
    (number : readNumeral 10 (t.takeWhile isDigit) = some v)
    (inner : Spells (t.dropWhile isDigit) e) : Spells t (.repetition v (some v) e) := by
  have plain : (t.dropWhile isDigit).head? ≠ some '*' := by
    intro star
    obtain ⟨rest, starred⟩ := List.head?_eq_some_iff.mp star
    exact other rest starred
  have counted := Spells.exactly (readNumeral_spells number) (unrepeated_dropWhile plain) inner
  rwa [List.takeWhile_append_dropWhile] at counted

theorem readCounts_spells {t rest : CString} {v : Nat} {w : Option Nat} {e : Element CString}
    (star : t.dropWhile isDigit = '*' :: rest) (lower : readLower (t.takeWhile isDigit) = some v)
    (upper : readUpper (rest.takeWhile isDigit) = some w)
    (order : (∀ u ∈ w, v ≤ u) ∧ (rest.dropWhile isDigit).head? ≠ some '*')
    (inner : Spells (rest.dropWhile isDigit) e) : Spells t (.repetition v w e) := by
  have counted := Spells.between (readLower_spells lower) (readUpper_spells upper) order.1
    (unrepeated_dropWhile order.2) inner
  rwa [List.takeWhile_append_dropWhile, ← star, List.takeWhile_append_dropWhile] at counted

theorem readElement_spells {depth : Nat} {t : CString} {e : Element CString}
    (h : readElement depth t = some e) : Spells t e := by
  induction depth generalizing t e with
  | zero => cases h
  | succ depth ih =>
  unfold readElement at h
  split at h
  · cases h
  rename_i c s
  split at h
  · rename_i percent
    subst percent
    obtain ⟨b, head, terminal⟩ := Option.bind_eq_some_iff.mp h
    cases s with
    | nil => cases head
    | cons b' s =>
      obtain rfl : b' = b := Option.some.inj head
      exact readTerminal_spells terminal
  split at h
  · rename_i quote
    subst quote
    split at h
    · rename_i closed
      obtain rfl := Option.some.inj h
      exact readLiteral_spells closed
    · cases h
  split at h
  · rename_i opening
    subst opening
    split at h
    · rename_i closed
      obtain ⟨inner, read, rfl⟩ := Option.map_eq_some_iff.mp h
      rw [← List.dropLast_append_getLast? _ closed]
      exact .option (ih read)
    · cases h
  split at h
  · rename_i plain
    obtain rfl := Option.some.inj h
    exact .rule plain
  dsimp only at h
  split at h
  · rename_i rest star
    obtain ⟨v, lower, h⟩ := Option.bind_eq_some_iff.mp h
    obtain ⟨w, upper, h⟩ := Option.bind_eq_some_iff.mp h
    obtain ⟨inner, read, h⟩ := Option.bind_eq_some_iff.mp h
    split at h
    · rename_i order
      obtain rfl := Option.some.inj h
      exact readCounts_spells star lower upper order (ih read)
    · cases h
  · rename_i other
    obtain ⟨v, number, h⟩ := Option.bind_eq_some_iff.mp h
    obtain ⟨inner, read, rfl⟩ := Option.map_eq_some_iff.mp h
    exact readCount_spells other number (ih read)

def readAlternative (text : CString) : Option (List (Element CString)) :=
  (Tokens.tokens ' ' text).mapM (readElement text.length)

def readEntry : GrammarEntry → Option (Body CString)
  | .string text => (readAlternative text).map fun es => [es]
  | .stringArray texts =>
    if texts.length ≤ 2147483647 then texts.mapM readAlternative else none
  | .byteArray bs => some [[.bytes bs]]
  | .function _ => none

def readRule (env : Environment) (name : CString) : Option (Body CString) :=
  (environmentLookup env name).bind readEntry

theorem readAlternative_reads {text : CString} {es : List (Element CString)}
    (h : readAlternative text = some es) : AlternativeReads text es :=
  (forall₂_of_mapM h).imp fun _ _ => readElement_spells

theorem readEntry_reads {entry : GrammarEntry} {body : Body CString}
    (h : readEntry entry = some body) : EntryReads entry body := by
  cases entry with
  | string text =>
    obtain ⟨es, read, rfl⟩ := Option.map_eq_some_iff.mp h
    exact .string (readAlternative_reads read)
  | stringArray texts =>
    simp only [readEntry] at h
    split at h
    · rename_i fits
      exact .stringArray ((forall₂_of_mapM h).imp fun _ _ => readAlternative_reads) fits
    · cases h
  | byteArray bs =>
    obtain rfl := Option.some.inj h
    exact .byteArray
  | function f => cases h

theorem readRule_rulesOf {env : Environment} {n : CString} {body : Body CString}
    (h : readRule env n = some body) : rulesOf env n body := by
  obtain ⟨entry, lookup, read⟩ := Option.bind_eq_some_iff.mp h
  exact ⟨entry, lookup, readEntry_reads read⟩

end Amqpgram
