import Mathlib.Computability.Language
import Amqpgram.Library.Words

/-! The languages of ABNF rules, as RFC 5234 reads them. Concatenation,
alternation and repetition are the same for every reader; what a byte range, a
quoted literal, a repetition count and an optional part may stand for is a
parameter, so that a generator which takes only some of the choices has a
language of the same kind. Rules are a relation between names and bodies. -/

namespace Abnf
variable {N : Type}

inductive Element (N : Type) where
  | rule (name : N)
  | bytes (bs : List UInt8)
  | range (lo hi : List UInt8)
  | literal (text : List UInt8)
  | option (element : Element N)
  | repetition (min : Nat) (max : Option Nat) (element : Element N)
  deriving DecidableEq

abbrev Body (N : Type) := List (List (Element N))

/-- What the elements other than rule names may stand for. -/
structure Reading where
  range : List UInt8 → List UInt8 → Set (List UInt8)
  literal : List UInt8 → Set (List UInt8)
  count : Nat → Option Nat → Set Nat
  option : Prop

inductive Derives (R : Reading) (G : N → Body N → Prop) :
    List (Element N) → List UInt8 → Prop where
  | nil : Derives R G [] []
  | rule {n alts alt es u v} : G n alts → alt ∈ alts → Derives R G alt u →
      Derives R G es v → Derives R G (.rule n :: es) (u ++ v)
  | bytes {bs es v} : Derives R G es v → Derives R G (.bytes bs :: es) (bs ++ v)
  | range {lo hi u es v} : u ∈ R.range lo hi → Derives R G es v →
      Derives R G (.range lo hi :: es) (u ++ v)
  | literal {t u es v} : u ∈ R.literal t → Derives R G es v →
      Derives R G (.literal t :: es) (u ++ v)
  | omitted {e es v} : Derives R G es v → Derives R G (.option e :: es) v
  | present {e es u v} : R.option → Derives R G [e] u → Derives R G es v →
      Derives R G (.option e :: es) (u ++ v)
  | repetition {min max e q es u v} : q ∈ R.count min max →
      Derives R G (List.replicate q e) u → Derives R G es v →
      Derives R G (.repetition min max e :: es) (u ++ v)

def language (R : Reading) (G : N → Body N → Prop) (e : Element N) : Language UInt8 :=
  {w | Derives R G [e] w}

def foldCase (b : UInt8) : UInt8 := if 65 ≤ b ∧ b ≤ 90 then b + 32 else b

/-- The reading of the RFC: both ends of a range belong to it, literals ignore
letter case, counts lie within their bounds. -/
def full : Reading where
  range lo hi := {w | w.length = lo.length ∧
    Words.value lo ≤ Words.value w ∧ Words.value w ≤ Words.value hi}
  literal t := {w | w.map foldCase = t.map foldCase}
  count min max := {q | min ≤ q ∧ ∀ m ∈ max, q ≤ m}
  option := True

/-- The full reading without optional parts, where a repetition without an upper
bound is used at most `infinity` times. -/
def bounded (infinity : Nat) : Reading where
  range := full.range
  literal := full.literal
  count min max := {q | min ≤ q ∧ q ≤ max.getD infinity}
  option := False

def Element.names : Element N → List N
  | .rule name => [name]
  | .option element => element.names
  | .repetition _ _ element => element.names
  | _ => []

variable {R S : Reading} {G H : N → Body N → Prop}

/-- The rules an expansion of `r` can come to. -/
inductive Reaches (G : N → Body N → Prop) (r : N) : N → Prop where
  | start : Reaches G r r
  | mention {n alts alt e m} : Reaches G r n → G n alts → alt ∈ alts → e ∈ alt →
      m ∈ e.names → Reaches G r m

def Reachable (G : N → Body N → Prop) (r : N) (e : Element N) : Prop :=
  ∀ m ∈ e.names, Reaches G r m

theorem reachable_rule {r n : N} : Reachable G r (.rule n) ↔ Reaches G r n := by
  simp [Reachable, Element.names]

theorem Reaches.body {r n : N} {alts : Body N} {alt : List (Element N)} (h : Reaches G r n)
    (rule : G n alts) (member : alt ∈ alts) : ∀ e ∈ alt, Reachable G r e :=
  fun _ he _ hm => .mention h rule member he hm

theorem Reaches.mono {r n : N} (sub : ∀ m alts, Reaches H r m → G m alts → H m alts)
    (h : Reaches G r n) : Reaches H r n := by
  induction h with
  | start => exact .start
  | mention _ rule member he hm ih => exact .mention ih (sub _ _ ih rule) member he hm

/-- A property of elements that the bodies of the rules hand on. -/
structure Inherited (G : N → Body N → Prop) (P : Element N → Prop) : Prop where
  rule : ∀ {n alts}, P (.rule n) → G n alts → ∀ alt ∈ alts, ∀ e ∈ alt, P e
  option : ∀ {e}, P (.option e) → P e
  repetition : ∀ {min max e}, P (.repetition min max e) → P e

/-- Every choice of the first reading is one of the second, on these elements. -/
structure Reading.LeOn (P : Element N → Prop) (R S : Reading) : Prop where
  range : ∀ {lo hi}, P (.range lo hi) → R.range lo hi ⊆ S.range lo hi
  literal : ∀ {t}, P (.literal t) → R.literal t ⊆ S.literal t
  count : ∀ {min max e}, P (.repetition min max e) → R.count min max ⊆ S.count min max
  option : R.option → S.option

theorem Derives.mono {P : Element N → Prop} (inherited : Inherited G P) (le : R.LeOn P S)
    (sub : ∀ n alts, P (.rule n) → G n alts → H n alts) {es : List (Element N)}
    {w : List UInt8} (d : Derives R G es w) (all : ∀ e ∈ es, P e) : Derives S H es w := by
  induction d with
  | nil => exact .nil
  | rule hg ha _ _ ihu ihv =>
    have head := all _ (List.mem_cons_self ..)
    have tail := ihv fun e he => all e (List.mem_cons_of_mem _ he)
    exact .rule (sub _ _ head hg) ha (ihu (inherited.rule head hg _ ha)) tail
  | bytes _ ih => exact .bytes (ih fun e he => all e (List.mem_cons_of_mem _ he))
  | range hu _ ih =>
    have head := all _ (List.mem_cons_self ..)
    exact .range (le.range head hu) (ih fun e he => all e (List.mem_cons_of_mem _ he))
  | literal hu _ ih =>
    have head := all _ (List.mem_cons_self ..)
    exact .literal (le.literal head hu) (ih fun e he => all e (List.mem_cons_of_mem _ he))
  | omitted _ ih => exact .omitted (ih fun e he => all e (List.mem_cons_of_mem _ he))
  | present ho _ _ ihu ihv =>
    have head := inherited.option (all _ (List.mem_cons_self ..))
    have tail := ihv fun e he => all e (List.mem_cons_of_mem _ he)
    exact .present (le.option ho) (ihu (by simpa using head)) tail
  | repetition hq _ _ ihu ihv =>
    have head := all _ (List.mem_cons_self ..)
    have tail := ihv fun e he => all e (List.mem_cons_of_mem _ he)
    refine .repetition (le.count head hq) (ihu ?_) tail
    intro e he
    rw [List.eq_of_mem_replicate he]
    exact inherited.repetition head

theorem derives_nil {w : List UInt8} : Derives R G [] w ↔ w = [] := by
  constructor
  · intro d; cases d; rfl
  · rintro rfl; exact .nil

theorem derives_cons {e : Element N} {es : List (Element N)} {w : List UInt8} :
    Derives R G (e :: es) w ↔
      ∃ u v, w = u ++ v ∧ Derives R G [e] u ∧ Derives R G es v := by
  constructor
  · intro d
    have close : ∀ {u : List UInt8}, Derives R G [e] (u ++ []) → Derives R G [e] u :=
      fun h => by simpa using h
    cases d with
    | rule hg ha hu hv => exact ⟨_, _, rfl, close (.rule hg ha hu .nil), hv⟩
    | bytes hv => exact ⟨_, _, rfl, close (.bytes .nil), hv⟩
    | range hu hv => exact ⟨_, _, rfl, close (.range hu .nil), hv⟩
    | literal hu hv => exact ⟨_, _, rfl, close (.literal hu .nil), hv⟩
    | omitted hv => exact ⟨[], _, rfl, .omitted .nil, hv⟩
    | present ho hu hv => exact ⟨_, _, rfl, close (.present ho hu .nil), hv⟩
    | repetition hq hu hv => exact ⟨_, _, rfl, close (.repetition hq hu .nil), hv⟩
  · rintro ⟨u, v, rfl, du, dv⟩
    cases du with
    | rule hg ha hu hn => cases hn; simpa using Derives.rule hg ha hu dv
    | bytes hn => cases hn; simpa using Derives.bytes dv
    | range hu hn => cases hn; simpa using Derives.range hu dv
    | literal hu hn => cases hn; simpa using Derives.literal hu dv
    | omitted hn => cases hn; exact .omitted dv
    | present ho hu hn => cases hn; simpa using Derives.present ho hu dv
    | repetition hq hu hn => cases hn; simpa using Derives.repetition hq hu dv

theorem mem_language {e : Element N} {w : List UInt8} :
    w ∈ language R G e ↔ Derives R G [e] w := Iff.rfl

theorem language_rule {n : N} {w : List UInt8} :
    w ∈ language R G (.rule n) ↔ ∃ alts, G n alts ∧ ∃ alt ∈ alts, Derives R G alt w := by
  constructor
  · intro d
    cases d with
    | rule hg ha hu hn => cases hn; exact ⟨_, hg, _, ha, by simpa using hu⟩
  · rintro ⟨alts, hg, alt, ha, hu⟩
    have d := Derives.rule hg ha hu .nil
    simpa [mem_language] using d

theorem language_bytes {bs w : List UInt8} :
    w ∈ language R G (.bytes bs) ↔ w = bs := by
  constructor
  · intro d; cases d with | bytes hn => cases hn; simp
  · rintro rfl
    have d : Derives R G [.bytes w] (w ++ []) := .bytes .nil
    simpa [mem_language] using d

theorem language_range {lo hi w : List UInt8} :
    w ∈ language R G (.range lo hi) ↔ w ∈ R.range lo hi := by
  constructor
  · intro d; cases d with | range hu hn => cases hn; simpa using hu
  · intro hu; simpa [mem_language] using Derives.range hu .nil

theorem language_literal {t w : List UInt8} :
    w ∈ language R G (.literal t) ↔ w ∈ R.literal t := by
  constructor
  · intro d; cases d with | literal hu hn => cases hn; simpa using hu
  · intro hu; simpa [mem_language] using Derives.literal hu .nil

theorem language_repetition {min : Nat} {max : Option Nat} {e : Element N} {w : List UInt8} :
    w ∈ language R G (.repetition min max e) ↔
      ∃ q ∈ R.count min max, Derives R G (List.replicate q e) w := by
  constructor
  · intro d
    cases d with
    | repetition hq hu hn => cases hn; exact ⟨_, hq, by simpa using hu⟩
  · rintro ⟨q, hq, hu⟩
    simpa [mem_language] using Derives.repetition hq hu Derives.nil

theorem derives_flatten {es : List (Element N)} {w : List UInt8} :
    Derives R G es w ↔
      ∃ parts, List.Forall₂ (fun e u => u ∈ language R G e) es parts ∧ w = parts.flatten := by
  induction es generalizing w with
  | nil =>
    rw [derives_nil]
    constructor
    · rintro rfl
      exact ⟨[], .nil, rfl⟩
    · rintro ⟨parts, pieces, rfl⟩
      cases pieces
      rfl
  | cons e es ih =>
    rw [derives_cons]
    constructor
    · rintro ⟨u, v, rfl, first, others⟩
      obtain ⟨parts, pieces, rfl⟩ := ih.mp others
      exact ⟨u :: parts, .cons first pieces, rfl⟩
    · rintro ⟨parts, pieces, rfl⟩
      cases pieces with
      | @cons _ u _ parts first pieces =>
        exact ⟨u, parts.flatten, rfl, first, ih.mpr ⟨parts, pieces, rfl⟩⟩

theorem language_only {n : N} {alts : Body N} (only : ∀ bodies, G n bodies ↔ bodies = alts)
    {w : List UInt8} : w ∈ language R G (.rule n) ↔ ∃ alt ∈ alts, Derives R G alt w := by
  simp only [language_rule, only, exists_eq_left]

theorem value_octet (b : UInt8) : Words.value [b] = b.toNat := by simp

theorem language_octetRange {lo hi : UInt8} {w : List UInt8} :
    w ∈ language full G (.range [lo] [hi]) ↔ ∃ b, (lo ≤ b ∧ b ≤ hi) ∧ w = [b] := by
  rw [language_range]
  constructor
  · rintro ⟨single, lower, upper⟩
    obtain ⟨b, rfl⟩ := List.length_eq_one_iff.mp single
    rw [value_octet, value_octet] at lower upper
    exact ⟨b, ⟨lower, upper⟩, rfl⟩
  · rintro ⟨b, ⟨lower, upper⟩, rfl⟩
    have bounds : Words.value [lo] ≤ Words.value [b] ∧ Words.value [b] ≤ Words.value [hi] := by
      simp only [value_octet]
      exact ⟨lower, upper⟩
    exact ⟨rfl, bounds⟩

theorem derives_replicate_octets {e : Element N} {P : UInt8 → Prop}
    (octets : ∀ u, u ∈ language R G e ↔ ∃ b, P b ∧ u = [b]) {q : Nat} {w : List UInt8} :
    Derives R G (List.replicate q e) w ↔ w.length = q ∧ ∀ b ∈ w, P b := by
  induction q generalizing w with
  | zero =>
    rw [List.replicate_zero, derives_nil]
    constructor
    · rintro rfl
      simp
    · rintro ⟨empty, -⟩
      exact List.length_eq_zero_iff.mp empty
  | succ q ih =>
    rw [List.replicate_succ, derives_cons]
    constructor
    · rintro ⟨u, v, rfl, first, others⟩
      obtain ⟨b, hb, rfl⟩ := (octets u).mp first
      obtain ⟨length, each⟩ := ih.mp others
      exact ⟨by simp [length], List.forall_mem_cons.mpr ⟨hb, each⟩⟩
    · rintro ⟨length, each⟩
      obtain ⟨b, v, rfl⟩ := List.exists_cons_of_length_eq_add_one length
      obtain ⟨hb, others⟩ := List.forall_mem_cons.mp each
      exact ⟨[b], v, rfl, (octets [b]).mpr ⟨b, hb, rfl⟩,
        ih.mpr ⟨by simpa using length, others⟩⟩

end Abnf
