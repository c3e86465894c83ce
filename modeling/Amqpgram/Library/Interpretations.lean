import Amqpgram.Library.Abnf
import Mathlib.Algebra.BigOperators.Group.List.Basic
import Mathlib.Order.CompletePartialOrder

/-! One rule set inside another, and words given for the names of a grammar beforehand. A
rule set keeps to given words when the words of each alternative, with the given words for
the names in it, are among those given for the rule; then all that is derived from a name
is among them too. -/
namespace Abnf
variable {N : Type}

/-- The names of `P` have rules of names of `P`, and what the other rules make of their
alternatives they make of the name. -/
structure Within (R : Reading) (P : N → Prop) (G H : N → Body N → Prop) : Prop where
  names : ∀ n alts, P n → G n alts → ∀ alt ∈ alts, ∀ e ∈ alt, ∀ m ∈ e.names, P m
  words : ∀ n alts, P n → G n alts → ∀ alt ∈ alts, ∀ w, Derives R H alt w →
    w ∈ language R H (.rule n)

variable {R : Reading} {G H : N → Body N → Prop} {P : N → Prop} {S : N → Language UInt8}

/-- A derivation is one of the other rules: the names in it are exchanged from the
innermost on. -/
theorem Within.derives (within : Within R P G H) {es : List (Element N)} {w : List UInt8}
    (d : Derives R G es w) (inside : ∀ e ∈ es, ∀ m ∈ e.names, P m) : Derives R H es w := by
  induction d with
  | nil => exact .nil
  | @rule n alts alt es u v rule member _ _ first others =>
    have known : P n := inside _ (List.mem_cons_self ..) n (by simp [Element.names])
    have word := within.words n alts known rule alt member u
      (first (within.names n alts known rule alt member))
    rw [derives_cons]
    exact ⟨u, v, rfl, word, others fun e he => inside e (List.mem_cons_of_mem _ he)⟩
  | bytes _ ih => exact .bytes (ih fun e he => inside e (List.mem_cons_of_mem _ he))
  | range hu _ ih => exact .range hu (ih fun e he => inside e (List.mem_cons_of_mem _ he))
  | literal hu _ ih => exact .literal hu (ih fun e he => inside e (List.mem_cons_of_mem _ he))
  | omitted _ ih => exact .omitted (ih fun e he => inside e (List.mem_cons_of_mem _ he))
  | @present e es u v ho _ _ ihu ihv =>
    refine .present ho (ihu ?_) (ihv fun e he => inside e (List.mem_cons_of_mem _ he))
    intro e' he
    obtain rfl := List.mem_singleton.mp he
    exact inside (.option e') (List.mem_cons_self ..)
  | @repetition min max e q es u v hq _ _ ihu ihv =>
    refine .repetition hq (ihu ?_) (ihv fun e he => inside e (List.mem_cons_of_mem _ he))
    intro e' he
    obtain rfl := List.eq_of_mem_replicate he
    exact inside (.repetition min max e') (List.mem_cons_self ..)

theorem Within.language (within : Within R P G H) {n : N} (known : P n) :
    language R G (.rule n) ≤ language R H (.rule n) := by
  intro w d
  apply within.derives d
  intro e he m hm
  obtain rfl := List.mem_singleton.mp he
  obtain rfl := List.mem_singleton.mp hm
  exact known

/-! ### Given words -/

/-- The rules under which a name stands for its given words and nothing else. -/
def spelling (S : N → Language UInt8) (n : N) (body : Body N) : Prop :=
  ∃ w ∈ S n, body = [[.bytes w]]

theorem language_spelling {n : N} {w : List UInt8} :
    w ∈ language R (spelling S) (.rule n) ↔ w ∈ S n := by
  rw [language_rule]
  constructor
  · rintro ⟨_, ⟨u, given, rfl⟩, alt, member, d⟩
    obtain rfl := List.mem_singleton.mp member
    obtain rfl := language_bytes.mp d
    exact given
  · intro given
    exact ⟨[[.bytes w]], ⟨w, given, rfl⟩, _, List.mem_cons_self .., language_bytes.mpr rfl⟩

theorem Derives.spelled {T : N → Language UInt8} {es : List (Element N)} {w : List UInt8}
    (d : Derives R (spelling S) es w) (inside : ∀ e ∈ es, ∀ m ∈ e.names, P m)
    (more : ∀ m, P m → S m ≤ T m) : Derives R (spelling T) es w := by
  have within : Within R P (spelling S) (spelling T) := by
    constructor
    · rintro n _ _ ⟨u, _, rfl⟩ alt ha e he m hm
      obtain rfl := List.mem_singleton.mp ha
      obtain rfl := List.mem_singleton.mp he
      cases hm
    · rintro n _ known ⟨u, given, rfl⟩ alt ha v d
      obtain rfl := List.mem_singleton.mp ha
      obtain rfl := language_bytes.mp d
      exact language_spelling.mpr (more n known given)
  exact within.derives d inside

/-- The names of `P` have rules of names of `P` that keep to the given words. -/
structure KeepsTo (R : Reading) (G : N → Body N → Prop) (P : N → Prop)
    (S : N → Language UInt8) : Prop where
  names : ∀ n alts, P n → G n alts → ∀ alt ∈ alts, ∀ e ∈ alt, ∀ m ∈ e.names, P m
  words : ∀ n alts, P n → G n alts → ∀ alt ∈ alts, ∀ w, Derives R (spelling S) alt w → w ∈ S n

theorem KeepsTo.language (keeps : KeepsTo R G P S) {n : N} (known : P n) :
    language R G (.rule n) ≤ S n := by
  have within : Within R P G (spelling S) :=
    ⟨keeps.names, fun n alts known rule alt ha w d =>
      language_spelling.mpr (keeps.words n alts known rule alt ha w d)⟩
  exact fun w d => language_spelling.mp (within.language known d)

/-! ### Shapes -/

/-- A piece of a shape: one byte that is named, one that is not, or any number of them. -/
inductive Piece where
  | byte (b : UInt8)
  | any
  | rest
  deriving DecidableEq, Repr

def Piece.words : Piece → Language UInt8
  | .byte b => {[b]}
  | .any => {w | w.length = 1}
  | .rest => ⊤

/-- The words of a shape, one piece behind the other. -/
def shaped (pieces : List Piece) : Language UInt8 := (pieces.map Piece.words).prod

/-- The shape of an element, with given shapes for the names in it. -/
def Element.shape (width : List UInt8 → List UInt8 → Nat) (S : N → List Piece) :
    Element N → List Piece
  | .rule n => S n
  | .bytes bs => bs.map .byte
  | .range lo hi => List.replicate (width lo hi) .any
  | .repetition min max e =>
    if max = some min then (List.replicate min (e.shape width S)).flatten else [.rest]
  | .literal _ | .option _ => [.rest]

/-- The first shape is the second with some of its pieces left open. -/
def covers : List Piece → List Piece → Bool
  | [.rest], _ => true
  | [], [] => true
  | .any :: pieces, .byte _ :: others => covers pieces others
  | piece :: pieces, other :: others => piece = other && covers pieces others
  | _, _ => false

/-- A reading in which ranges have a width and exact counts are exact. -/
structure Reading.Measured (R : Reading) (width : List UInt8 → List UInt8 → Nat) : Prop where
  range : ∀ lo hi, ∀ w ∈ R.range lo hi, w.length = width lo hi
  count : ∀ min, ∀ q ∈ R.count min (some min), q = min

theorem shaped_cons (piece : Piece) (pieces : List Piece) :
    shaped (piece :: pieces) = piece.words * shaped pieces := by
  rw [shaped, List.map_cons, List.prod_cons]
  rfl

theorem shaped_append (pieces others : List Piece) :
    shaped (pieces ++ others) = shaped pieces * shaped others := by
  rw [shaped, List.map_append, List.prod_append]
  rfl

theorem shaped_single (piece : Piece) : shaped [piece] = piece.words := by
  simp [shaped]

theorem shaped_rest (w : List UInt8) : w ∈ shaped [.rest] := by
  rw [shaped_single]
  trivial

theorem shaped_bytes {bs w : List UInt8} : w ∈ shaped (bs.map .byte) ↔ w = bs := by
  induction bs generalizing w with
  | nil => exact Language.mem_one w
  | cons b bs ih =>
    rw [List.map_cons, shaped_cons, Language.mem_mul]
    constructor
    · rintro ⟨_, rfl, v, tail, rfl⟩
      rw [ih.mp tail]
      rfl
    · rintro rfl
      exact ⟨[b], rfl, bs, ih.mpr rfl, rfl⟩

theorem shaped_any {n : Nat} {w : List UInt8} :
    w ∈ shaped (List.replicate n .any) ↔ w.length = n := by
  induction n generalizing w with
  | zero => exact List.length_eq_zero_iff.symm
  | succ n ih =>
    rw [List.replicate_succ, shaped_cons, Language.mem_mul]
    constructor
    · rintro ⟨u, one, v, many, rfl⟩
      have length : u.length = 1 := one
      rw [List.length_append, length, ih.mp many, Nat.add_comm]
    · intro length
      obtain ⟨b, v, rfl⟩ := List.exists_cons_of_length_eq_add_one length
      exact ⟨[b], rfl, v, ih.mpr (by simpa using length), rfl⟩

theorem covers_words {pieces others : List Piece} (cover : covers pieces others) :
    shaped others ≤ shaped pieces := by
  induction pieces, others using covers.induct with
  | case1 others => exact fun w _ => shaped_rest w
  | case2 => exact le_rfl
  | case3 pieces b others ih =>
    rw [covers] at cover
    rw [shaped_cons, shaped_cons]
    rintro _ ⟨u, rfl, v, tail, rfl⟩
    exact Language.append_mem_mul rfl (ih cover tail)
  | case4 piece pieces other others apart named ih =>
    rw [covers.eq_4 _ _ _ _ apart named, Bool.and_eq_true, decide_eq_true_iff] at cover
    obtain ⟨rfl, tail⟩ := cover
    rw [shaped_cons, shaped_cons]
    exact mul_le_mul_right (ih tail) _
  | case5 pieces others apart empty named cons =>
    rw [covers.eq_5 _ _ apart empty named cons] at cover
    cases cover

section
variable {width : List UInt8 → List UInt8 → Nat} {T : N → List Piece}

theorem derives_shaped {es : List (Element N)} {shape : Element N → List Piece} {w : List UInt8}
    (each : ∀ e ∈ es, ∀ u ∈ language R G e, u ∈ shaped (shape e)) (d : Derives R G es w) :
    w ∈ shaped (es.map shape).flatten := by
  induction es generalizing w with
  | nil => exact derives_nil.mp d
  | cons e es ih =>
    obtain ⟨u, v, rfl, first, others⟩ := derives_cons.mp d
    rw [List.map_cons, List.flatten_cons, shaped_append]
    exact Language.append_mem_mul (each e (List.mem_cons_self ..) u first)
      (ih (fun e he => each e (List.mem_cons_of_mem _ he)) others)

theorem Reading.Measured.element (measured : R.Measured width) (e : Element N) :
    ∀ w ∈ language R (spelling fun n => shaped (T n)) e, w ∈ shaped (e.shape width T) := by
  induction e with
  | rule n =>
    intro w d
    exact (language_spelling (S := fun n => shaped (T n))).mp d
  | bytes bs =>
    intro w d
    obtain rfl := language_bytes.mp d
    exact shaped_bytes.mpr rfl
  | range lo hi =>
    intro w d
    exact shaped_any.mpr (measured.range lo hi w (language_range.mp d))
  | literal text => exact fun w _ => shaped_rest w
  | option e _ => exact fun w _ => shaped_rest w
  | repetition min max e ih =>
    intro w d
    rw [Element.shape]
    split
    · rename_i fixed
      obtain ⟨q, count, repeated⟩ := language_repetition.mp d
      obtain rfl : q = min := measured.count min q (fixed ▸ count)
      have each : ∀ e' ∈ List.replicate q e, ∀ u ∈ language R (spelling fun n => shaped (T n)) e',
          u ∈ shaped (e'.shape width T) := by
        intro e' he
        obtain rfl := List.eq_of_mem_replicate he
        exact ih
      have words := derives_shaped each repeated
      rwa [List.map_replicate] at words
    · exact shaped_rest w

/-- The alternatives of a rule have shapes that the shape of the rule covers. -/
def Agrees (width : List UInt8 → List UInt8 → Nat) (T : N → List Piece) (n : N)
    (body : Body N) : Prop :=
  ∀ alt ∈ body, covers (T n) (alt.map (Element.shape width T)).flatten

instance (width : List UInt8 → List UInt8 → Nat) (T : N → List Piece) (n : N) (body : Body N) :
    Decidable (Agrees width T n body) :=
  inferInstanceAs (Decidable (∀ alt ∈ body, _))

theorem Agrees.words (measured : R.Measured width) {n : N} {body : Body N}
    (agrees : Agrees width T n body) : ∀ alt ∈ body, ∀ w,
      Derives R (spelling fun n => shaped (T n)) alt w → w ∈ shaped (T n) := by
  intro alt ha w d
  exact covers_words (agrees alt ha) (derives_shaped (fun e _ => measured.element e) d)

end

end Abnf
