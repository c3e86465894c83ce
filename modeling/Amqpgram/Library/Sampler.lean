import Mathlib.Data.Stream.Init
import Mathlib.Tactic.Common

/-! Programs that draw random values. A sampler is the finite tree of a
computation's requests for a draw; its leaves are results or failures. What one
stream of draws makes of it is `run`; what some stream can make of it is
`Yields`. The two agree, and `Yields` composes without naming a stream. -/

inductive Sampler (E D : Type) (A : Type) : Type where
  | done (a : A) : Sampler E D A
  | fail (e : E) : Sampler E D A
  | draw (next : D → Sampler E D A) : Sampler E D A

namespace Sampler
variable {E D A B : Type}

protected def bind : Sampler E D A → (A → Sampler E D B) → Sampler E D B
  | done a, f => f a
  | fail e, _ => fail e
  | draw next, f => draw fun d => (next d).bind f

instance : Monad (Sampler E D) where
  pure := done
  bind := Sampler.bind

def ofExcept : Except E A → Sampler E D A
  | .ok a => done a
  | .error e => fail e

def mapError {E' : Type} (k : E → E') : Sampler E D A → Sampler E' D A
  | done a => done a
  | fail e => fail (k e)
  | draw next => draw fun d => (next d).mapError k

/-- The result a sampler has without any draw, when it has one. -/
def result? : Sampler E D A → Option A
  | done a => some a
  | fail _ => none
  | draw _ => none

/-- The run on one stream, with what is left of the stream. -/
def run : Sampler E D A → Stream' D → Except E (A × Stream' D)
  | done a, s => .ok (a, s)
  | fail e, _ => .error e
  | draw next, s => (next s.head).run s.tail

/-- Some draws end in this result. -/
def Yields : Sampler E D A → A → Prop
  | done a, b => a = b
  | fail _, _ => False
  | draw next, b => ∃ d, (next d).Yields b

@[simp] theorem pure_eq (a : A) : (pure a : Sampler E D A) = done a := rfl
@[simp] theorem bind_done (a : A) (f : A → Sampler E D B) : (done a >>= f) = f a := rfl
@[simp] theorem bind_fail (e : E) (f : A → Sampler E D B) :
    ((fail e : Sampler E D A) >>= f) = fail e := rfl
@[simp] theorem bind_draw (next : D → Sampler E D A) (f : A → Sampler E D B) :
    (draw next >>= f) = draw fun d => next d >>= f := rfl
@[simp] theorem ofExcept_ok (a : A) : (ofExcept (.ok a) : Sampler E D A) = done a := rfl
@[simp] theorem ofExcept_error (e : E) :
    (ofExcept (.error e) : Sampler E D A) = fail e := rfl

@[simp] theorem yields_done (a b : A) : (done a : Sampler E D A).Yields b ↔ a = b := Iff.rfl
@[simp] theorem yields_fail (e : E) (b : A) : ¬ (fail e : Sampler E D A).Yields b := id
@[simp] theorem yields_draw (next : D → Sampler E D A) (b : A) :
    (draw next).Yields b ↔ ∃ d, (next d).Yields b := Iff.rfl

@[simp] theorem yields_bind (g : Sampler E D A) (f : A → Sampler E D B) (b : B) :
    (g >>= f).Yields b ↔ ∃ a, g.Yields a ∧ (f a).Yields b := by
  induction g with
  | done a => simp
  | fail e => simp
  | draw next ih =>
    simp only [bind_draw, yields_draw, ih]
    constructor
    · rintro ⟨d, a, ha, hb⟩
      exact ⟨a, ⟨d, ha⟩, hb⟩
    · rintro ⟨a, ⟨d, ha⟩, hb⟩
      exact ⟨d, a, ha, hb⟩

@[simp] theorem yields_map (g : Sampler E D A) (f : A → B) (b : B) :
    (f <$> g).Yields b ↔ ∃ a, g.Yields a ∧ f a = b :=
  yields_bind g (fun a => done (f a)) b

@[simp] theorem yields_ofExcept (x : Except E A) (a : A) :
    (ofExcept x : Sampler E D A).Yields a ↔ x = .ok a := by
  cases x <;> simp

@[simp] theorem yields_mapError {E' : Type} (k : E → E') (g : Sampler E D A) (a : A) :
    (g.mapError k).Yields a ↔ g.Yields a := by
  induction g with
  | done b => rfl
  | fail e => rfl
  | draw next ih => simp only [mapError, yields_draw, ih]

theorem result?_eq_some {g : Sampler E D A} {a : A} (h : g.result? = some a) : g = done a := by
  cases g with
  | done b => exact congrArg done (Option.some.inj h)
  | fail e => cases h
  | draw next => cases h

theorem yields_of_result? {g : Sampler E D A} {a b : A} (h : g.result? = some a) :
    g.Yields b ↔ a = b := by
  rw [result?_eq_some h, yields_done]

theorem yields_of_run {g : Sampler E D A} {s s' : Stream' D} {a : A}
    (h : g.run s = .ok (a, s')) : g.Yields a := by
  induction g generalizing s with
  | done b =>
    have same := Except.ok.inj h
    exact congrArg Prod.fst same
  | fail e => cases h
  | draw next ih => exact ⟨s.head, ih s.head h⟩

theorem run_mapError {E' : Type} {k : E → E'} {g : Sampler E D A} {s : Stream' D} {e' : E'}
    (h : (g.mapError k).run s = .error e') : ∃ e, e' = k e := by
  induction g generalizing s with
  | done a => cases h
  | fail e => exact ⟨e, (Except.error.inj h).symm⟩
  | draw next ih => exact ih s.head h

theorem run_of_map_fst {g : Sampler E D A} {s : Stream' D} {a : A}
    (h : (g.run s).map Prod.fst = .ok a) : ∃ rest, g.run s = .ok (a, rest) := by
  cases run : g.run s with
  | error e => rw [run] at h; cases h
  | ok p =>
    rw [run] at h
    obtain rfl := Except.ok.inj h
    exact ⟨p.2, rfl⟩

theorem run_of_yields {g : Sampler E D A} {a : A} (h : g.Yields a) (rest : Stream' D) :
    ∃ ds : List D, g.run (ds ++ₛ rest) = .ok (a, rest) := by
  induction g with
  | done b =>
    obtain rfl : b = a := h
    exact ⟨[], rfl⟩
  | fail e => exact h.elim
  | draw next ih =>
    obtain ⟨d, hd⟩ := h
    obtain ⟨ds, hds⟩ := ih d hd
    exact ⟨d :: ds, hds⟩

theorem yields_iff_run [Nonempty D] (g : Sampler E D A) (a : A) :
    g.Yields a ↔ ∃ s s', g.run s = .ok (a, s') := by
  constructor
  · intro h
    obtain ⟨d⟩ := ‹Nonempty D›
    obtain ⟨ds, hds⟩ := run_of_yields h (Stream'.const d)
    exact ⟨_, _, hds⟩
  · rintro ⟨s, s', h⟩
    exact yields_of_run h

/-- The second sampler is the first with some of the leaves that fail with `bot`
carried on. A call with more fuel refines the one with less. -/
def Refines (bot : E) : Sampler E D A → Sampler E D A → Prop
  | done a, h => h = done a
  | fail e, h => e = bot ∨ h = fail e
  | draw next, h => ∃ next', h = draw next' ∧ ∀ d, (next d).Refines bot (next' d)

theorem Refines.refl (bot : E) (g : Sampler E D A) : g.Refines bot g := by
  induction g with
  | done a => rfl
  | fail e => exact .inr rfl
  | draw next ih => exact ⟨next, rfl, ih⟩

theorem Refines.bind {bot : E} {g h : Sampler E D A} {f k : A → Sampler E D B}
    (first : g.Refines bot h) (rest : ∀ a, (f a).Refines bot (k a)) :
    (g >>= f).Refines bot (h >>= k) := by
  induction g generalizing h with
  | done a =>
    obtain rfl : h = done a := first
    exact rest a
  | fail e =>
    rcases first with rfl | rfl
    · exact .inl rfl
    · exact .inr rfl
  | draw next ih =>
    obtain ⟨next', rfl, each⟩ := first
    exact ⟨_, rfl, fun d => ih d (each d)⟩

theorem Refines.check {bot : E} {x : Except E A} {f : A → Sampler E D B} {h : Sampler E D B}
    (only : ∀ e, x = .error e → e = bot) (rest : ∀ a, x = .ok a → (f a).Refines bot h) :
    (ofExcept x >>= f).Refines bot h := by
  cases x with
  | error e => exact .inl (only e rfl)
  | ok a => exact rest a rfl

theorem Refines.trans {bot : E} {f g h : Sampler E D A} (first : f.Refines bot g)
    (second : g.Refines bot h) : f.Refines bot h := by
  induction f generalizing g h with
  | done a =>
    obtain rfl : g = done a := first
    exact second
  | fail e =>
    rcases first with rfl | rfl
    · exact .inl rfl
    · exact second
  | draw next ih =>
    obtain ⟨next', rfl, each⟩ := first
    obtain ⟨next'', rfl, each'⟩ := second
    exact ⟨next'', rfl, fun d => ih d (each d) (each' d)⟩

theorem Refines.yields {bot : E} {g h : Sampler E D A} (refines : g.Refines bot h) {a : A}
    (y : g.Yields a) : h.Yields a := by
  induction g generalizing h with
  | done b =>
    obtain rfl : h = done b := refines
    exact y
  | fail e => exact y.elim
  | draw next ih =>
    obtain ⟨next', rfl, each⟩ := refines
    obtain ⟨d, hd⟩ := y
    exact ⟨d, ih d (each d) hd⟩

theorem Refines.result_unique {bot : E} {g h : Sampler E D A} (refines : g.Refines bot h)
    {a b : A} (result : g.result? = some a) (y : h.Yields b) : a = b := by
  rw [result?_eq_some result] at refines
  obtain rfl : h = done a := refines
  exact y

theorem Refines.run {bot : E} {g h : Sampler E D A} (refines : g.Refines bot h) {s : Stream' D}
    {p : A × Stream' D} (returned : g.run s = .ok p) : h.run s = .ok p := by
  induction g generalizing h s with
  | done a =>
    obtain rfl : h = done a := refines
    exact returned
  | fail e => cases returned
  | draw next ih =>
    obtain ⟨next', rfl, each⟩ := refines
    exact ih s.head (each s.head) returned

theorem run_bind (g : Sampler E D A) (f : A → Sampler E D B) (s : Stream' D) :
    (g >>= f).run s = (g.run s).bind fun p => (f p.1).run p.2 := by
  induction g generalizing s with
  | done a => rfl
  | fail e => rfl
  | draw next ih => exact ih s.head s.tail

theorem run_bind_of_run {g : Sampler E D A} {f : A → Sampler E D B} {s s' : Stream' D} {a : A}
    (first : g.run s = .ok (a, s')) : (g >>= f).run s = (f a).run s' := by
  rw [run_bind, first]
  rfl

theorem run_bind_ok {g : Sampler E D A} {f : A → Sampler E D B} {s s' : Stream' D} {b : B}
    (h : (g >>= f).run s = .ok (b, s')) :
    ∃ a rest, g.run s = .ok (a, rest) ∧ (f a).run rest = .ok (b, s') := by
  rw [run_bind] at h
  cases first : g.run s with
  | error e =>
    rw [first] at h
    cases h
  | ok p =>
    rw [first] at h
    exact ⟨p.1, p.2, rfl, h⟩

theorem run_done_ok {a b : A} {s s' : Stream' D}
    (h : (done a : Sampler E D A).run s = .ok (b, s')) : a = b ∧ s = s' :=
  Prod.mk.inj (Except.ok.inj h)

theorem run_const {g : Sampler E D A} {d : D} {rest : Stream' D} {a : A}
    (h : g.run (Stream'.const d) = .ok (a, rest)) : rest = Stream'.const d := by
  induction g with
  | done b => exact (run_done_ok h).2.symm
  | fail e => cases h
  | draw next ih => exact ih d h

theorem run_unique {g : Sampler E D A} {s s' s'' : Stream' D} {a b : A}
    (first : g.run s = .ok (a, s')) (second : g.run s = .ok (b, s'')) : a = b :=
  congrArg Prod.fst (Except.ok.inj (first.symm.trans second))

theorem run_ofExcept_ok {x : Except E A} {s s' : Stream' D} {a : A}
    (h : (ofExcept x).run s = .ok (a, s')) : x = .ok a ∧ s = s' := by
  cases x with
  | error e => cases h
  | ok b =>
    obtain ⟨rfl, rfl⟩ := run_done_ok h
    exact ⟨rfl, rfl⟩

theorem run_ofExcept_bind_ok {x : Except E A} {f : A → Sampler E D B} {s s' : Stream' D} {b : B}
    (h : (ofExcept x >>= f).run s = .ok (b, s')) : ∃ a, x = .ok a ∧ (f a).run s = .ok (b, s') := by
  obtain ⟨a, _, first, rest⟩ := run_bind_ok h
  obtain ⟨same, rfl⟩ := run_ofExcept_ok first
  exact ⟨a, same, rest⟩

theorem run_bind_error {g : Sampler E D A} {f : A → Sampler E D B} {s : Stream' D} {e : E}
    (h : (g >>= f).run s = .error e) :
    g.run s = .error e ∨ ∃ a s', g.run s = .ok (a, s') ∧ (f a).run s' = .error e := by
  rw [run_bind] at h
  cases first : g.run s with
  | error e' =>
    rw [first] at h
    exact .inl (congrArg Except.error (Except.error.inj h))
  | ok p =>
    rw [first] at h
    exact .inr ⟨p.1, p.2, rfl, h⟩

/-- No leaf is a failure. -/
def Total : Sampler E D A → Prop
  | done _ => True
  | fail _ => False
  | draw next => ∀ d, (next d).Total

theorem total_done (a : A) : (done a : Sampler E D A).Total := trivial

theorem Total.bind {g : Sampler E D A} {f : A → Sampler E D B} (first : g.Total)
    (rest : ∀ a, g.Yields a → (f a).Total) : (g >>= f).Total := by
  induction g with
  | done a => exact rest a rfl
  | fail e => exact first.elim
  | draw next ih => exact fun d => ih d (first d) fun a y => rest a ⟨d, y⟩

theorem total_iff_run [Nonempty D] {g : Sampler E D A} : g.Total ↔ ∀ s, ∃ p, g.run s = .ok p := by
  induction g with
  | done a => exact ⟨fun _ s => ⟨(a, s), rfl⟩, fun _ => trivial⟩
  | fail e =>
    constructor
    · exact False.elim
    · intro returns
      obtain ⟨d⟩ := ‹Nonempty D›
      obtain ⟨p, returned⟩ := returns (Stream'.const d)
      cases returned
  | draw next ih =>
    constructor
    · intro total s
      exact (ih s.head).mp (total s.head) s.tail
    · intro returns d
      exact (ih d).mpr fun s => returns (Stream'.cons d s)

/-- A sampler without failures has nothing left to be carried on. -/
theorem Refines.eq_of_total {bot : E} {g h : Sampler E D A} (refines : g.Refines bot h)
    (total : g.Total) : h = g := by
  induction g generalizing h with
  | done a => exact refines
  | fail e => exact total.elim
  | draw next ih =>
    obtain ⟨next', rfl, each⟩ := refines
    congr 1
    funext d
    exact ih d (each d) (total d)

/-- No leaf is a failure, and every value has the property. -/
def Always (P : A → Prop) : Sampler E D A → Prop
  | done a => P a
  | fail _ => False
  | draw next => ∀ d, (next d).Always P

theorem always_iff {P : A → Prop} {g : Sampler E D A} :
    g.Always P ↔ g.Total ∧ ∀ a, g.Yields a → P a := by
  induction g with
  | done a => simp [Always, Total]
  | fail e => simp [Always, Total]
  | draw next ih => simp [Always, Total, ih, forall_and, forall_comm (α := A)]

theorem Always.mono {P Q : A → Prop} {g : Sampler E D A} (always : g.Always P)
    (weaker : ∀ a, P a → Q a) : g.Always Q := by
  rw [always_iff] at always ⊢
  exact ⟨always.1, fun a y => weaker a (always.2 a y)⟩

theorem Always.bind {P : A → Prop} {Q : B → Prop} {g : Sampler E D A} {f : A → Sampler E D B}
    (first : g.Always P) (rest : ∀ a, P a → (f a).Always Q) : (g >>= f).Always Q := by
  induction g with
  | done a => exact rest a first
  | fail e => exact first.elim
  | draw next ih => exact fun d => ih d (first d)

theorem Always.mapError {E' : Type} {P : A → Prop} {g : Sampler E D A} (k : E → E')
    (always : g.Always P) : (g.mapError k).Always P := by
  induction g with
  | done a => exact always
  | fail e => exact always.elim
  | draw next ih => exact fun d => ih d (always d)

theorem Always.run {P : A → Prop} {g : Sampler E D A} (always : g.Always P) (s : Stream' D) :
    ∃ a s', g.run s = .ok (a, s') ∧ P a := by
  induction g generalizing s with
  | done a => exact ⟨a, s, rfl, always⟩
  | fail e => exact always.elim
  | draw next ih => exact ih s.head (always s.head) s.tail

theorem Always.yields [Nonempty D] {P : A → Prop} {g : Sampler E D A} (always : g.Always P) :
    ∃ a, g.Yields a ∧ P a := by
  obtain ⟨d⟩ := ‹Nonempty D›
  obtain ⟨a, _, returned, holds⟩ := always.run (Stream'.const d)
  exact ⟨a, yields_of_run returned, holds⟩

theorem Refines.always {bot : E} {P : A → Prop} {g h : Sampler E D A} {a : A}
    (refines : g.Refines bot h) (result : g.result? = some a) (holds : P a) : h.Always P := by
  rw [result?_eq_some result] at refines
  obtain rfl : h = done a := refines
  exact holds

/-- Each value of the first is matched by one of the second. -/
def Includes (R : A → B → Prop) (g : Sampler E D A) (h : Sampler E D B) : Prop :=
  ∀ a, g.Yields a → ∃ b, h.Yields b ∧ R a b

theorem Includes.bind {A' B' : Type} {R : A → A' → Prop} {S : B → B' → Prop} {g : Sampler E D A}
    {g' : Sampler E D A'} {f : A → Sampler E D B} {f' : A' → Sampler E D B'}
    (first : g.Includes R g') (rest : ∀ a a', R a a' → (f a).Includes S (f' a')) :
    (g >>= f).Includes S (g' >>= f') := by
  intro b y
  obtain ⟨a, ya, yb⟩ := (yields_bind ..).mp y
  obtain ⟨a', ya', related⟩ := first a ya
  obtain ⟨b', yb', matched⟩ := rest a a' related b yb
  exact ⟨b', (yields_bind ..).mpr ⟨a', ya', yb'⟩, matched⟩

theorem Includes.refl (g : Sampler E D A) : g.Includes (· = ·) g := fun a y => ⟨a, y, rfl⟩

end Sampler
