import Mathlib.Logic.Relation
import Mathlib.Data.List.Induction

/-! Systems that move in steps: what holds of every reachable state, the steps
that meet a condition, and the view of one system as another. -/

structure TransitionSystem (S : Type) where
  start : S
  step : S → S → Prop

namespace TransitionSystem
variable {S T : Type} {A : TransitionSystem S} {B : TransitionSystem T}

def Reachable (A : TransitionSystem S) (s : S) : Prop :=
  Relation.ReflTransGen A.step A.start s

theorem Reachable.start : A.Reachable A.start := Relation.ReflTransGen.refl

theorem Reachable.next {s s' : S} (reach : A.Reachable s) (step : A.step s s') :
    A.Reachable s' := Relation.ReflTransGen.tail reach step

theorem Reachable.invariant {p : S → Prop} {s : S} (reach : A.Reachable s) (start : p A.start)
    (kept : ∀ s s', A.Reachable s → p s → A.step s s' → p s') : p s := by
  unfold Reachable at reach
  induction reach with
  | refl => exact start
  | tail before step ih => exact kept _ _ before ih step

/-- The system that takes only the steps that meet a condition. -/
def restrict (A : TransitionSystem S) (condition : S → S → Prop) : TransitionSystem S :=
  ⟨A.start, fun s s' => A.step s s' ∧ condition s s'⟩

theorem Reachable.of_restrict {condition : S → S → Prop} {s : S}
    (reach : (A.restrict condition).Reachable s) : A.Reachable s := by
  apply reach.invariant
  · exact Reachable.start
  · intro s s' _ before step
    exact before.next step.1

/-- A view takes reachable states to reachable states when each step looks like a
step of the other system or like nothing at all. -/
theorem Reachable.view (view : S → T) {s : S} (reach : A.Reachable s)
    (start : view A.start = B.start)
    (seen : ∀ s s', A.Reachable s → A.step s s' → view s' = view s ∨ B.step (view s) (view s')) :
    B.Reachable (view s) := by
  apply reach.invariant (p := fun s => B.Reachable (view s))
  · rw [start]
    exact Reachable.start
  · intro s s' before viewed step
    rcases seen s s' before step with same | moved
    · rw [same]
      exact viewed
    · exact viewed.next moved

end TransitionSystem

/-! ### Loops -/

namespace Loops
variable {A B : Type} {r : A → A → Prop} {s : B → B → Prop} {f : A → B} {rank : A → Nat}

/-- Each step of the first relation is one of the second or stays on the spot and climbs. -/
def Projects (r : A → A → Prop) (s : B → B → Prop) (f : A → B) (rank : A → Nat) : Prop :=
  ∀ a b, r a b → f a = f b ∧ rank a < rank b ∨ s (f a) (f b)

theorem Projects.path (projects : Projects r s f rank) {a b : A} (path : Relation.TransGen r a b) :
    f a = f b ∧ rank a < rank b ∨ Relation.TransGen s (f a) (f b) := by
  induction path with
  | single step => exact (projects _ _ step).imp_right .single
  | tail _ step ih =>
    rcases ih, projects _ _ step with ⟨⟨still, climbed⟩ | moved, ⟨here, higher⟩ | there⟩
    · exact .inl ⟨still.trans here, Nat.lt_trans climbed higher⟩
    · exact .inr (still ▸ .single there)
    · exact .inr (here ▸ moved)
    · exact .inr (moved.tail there)

/-- The steps out of a place that some step leads to. -/
def Entered (r : A → A → Prop) (a b : A) : Prop := r a b ∧ ∃ c, r c a

theorem entered_of_back {a b : A} (there : Relation.TransGen r a b)
    (back : Relation.TransGen r b a) : Relation.TransGen (Entered r) a b := by
  have into : ∀ {x y}, Relation.TransGen r x y → ∃ c, r c y := by
    intro x y path
    cases path with
    | single step => exact ⟨_, step⟩
    | tail _ step => exact ⟨_, step⟩
  induction there with
  | single step => exact .single ⟨step, into back⟩
  | tail path step ih => exact (ih (.head step back)).tail ⟨step, into path⟩

/-- No loop climbs, so two places on a loop of the first relation are on one of the second. -/
theorem Projects.loop (projects : Projects (Entered r) s f rank) {a b : A}
    (there : Relation.TransGen r a b) (back : Relation.TransGen r b a) :
    Relation.TransGen s (f a) (f b) := by
  rcases projects.path (entered_of_back there back) with ⟨same, climbed⟩ | moved
  · rcases projects.path (entered_of_back back there) with ⟨_, higher⟩ | returned
    · exact (Nat.lt_asymm climbed higher).elim
    · rwa [same] at returned ⊢
  · exact moved

end Loops

/-! ### Runs over a list -/

namespace Runs

theorem foldlM_run {E S X : Type} {f : S → X → Except E S} {Inv : S → List X → Prop} {start : S}
    {all : List X} (first : Inv start [])
    (turn : ∀ s before x, before ++ [x] <+: all → Inv s before →
      ∃ t, f s x = .ok t ∧ Inv t (before ++ [x])) :
    ∀ before, before <+: all → ∃ s, before.foldlM f start = .ok s ∧ Inv s before := by
  intro before inside
  induction before using List.reverseRecOn with
  | nil => exact ⟨start, rfl, first⟩
  | append_singleton before x ih =>
    obtain ⟨s, run, inv⟩ := ih ((List.prefix_append before [x]).trans inside)
    obtain ⟨t, next, kept⟩ := turn s before x inside inv
    refine ⟨t, ?_, kept⟩
    rw [List.foldlM_append, run]
    simp [bind, Except.bind, next, pure, Except.pure]

end Runs

/-! ### Where runs lead -/

namespace Runs
variable {S : Type} {step : S → S → Prop} {p : S → Prop}

/-- Every run that goes on while it can comes to a state with the property. -/
inductive Inevitable (step : S → S → Prop) (p : S → Prop) : S → Prop
  | here {s : S} (now : p s) : Inevitable step p s
  | later {s : S} (moves : ∃ t, step s t) (leads : ∀ t, step s t → Inevitable step p t) :
      Inevitable step p s

/-- The property cannot be missed if there is a step and all of them come closer. -/
theorem inevitable_of_closer (inv : S → Prop) (distance : S → Nat)
    (moves : ∀ s, inv s → ¬ p s → ∃ t, step s t)
    (closer : ∀ s t, inv s → ¬ p s → step s t → inv t ∧ distance t < distance s) {s : S}
    (start : inv s) : Inevitable step p s := by
  induction far : distance s using Nat.strongRecOn generalizing s with
  | _ n ih =>
    by_cases now : p s
    · exact .here now
    · refine .later (moves s start now) ?_
      intro t first
      obtain ⟨kept, nearer⟩ := closer s t start now first
      exact ih _ (far ▸ nearer) kept rfl

end Runs
