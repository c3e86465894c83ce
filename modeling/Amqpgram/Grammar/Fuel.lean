import Amqpgram.Grammar.Generator

/-! More fuel only lets more calls return: it never changes what a call that
returned has drawn or returned. -/
namespace Amqpgram

/-- The call with more fuel goes the way of the one with less. -/
abbrev Extends {A : Type} (g h : Gen A) : Prop := g.Refines .outOfFuel h

section
variable {env : Environment} {bot : Fault}

theorem concatenate_extends {A : Type} {f h : A → Gen Decoded} {ts : List A}
    (each : ∀ t ∈ ts, (f t).Refines bot (h t)) (result : Decoded) :
    (concatenate result (ts.map f)).Refines bot (concatenate result (ts.map h)) := by
  induction ts generalizing result with
  | nil => exact .refl _ _
  | cons t ts ih =>
    apply Sampler.Refines.bind (each t (List.mem_cons_self ..))
    intro part
    apply Sampler.Refines.bind (.refl _ _)
    intro result
    exact ih (fun t ht => each t (List.mem_cons_of_mem _ ht)) result

theorem octets_extends {f h : CString → Gen Decoded} (each : ∀ name, (f name).Refines bot (h name))
    (n : Nat) : (octets f n).Refines bot (octets h n) := by
  induction n with
  | zero => exact .refl _ _
  | succ n ih =>
    apply Sampler.Refines.bind
    · exact .bind (each _) fun _ => .refl _ _
    · intro b
      exact .bind ih fun _ => .refl _ _

theorem call_extends {f h : CString → Gen Decoded} (each : ∀ name, (f name).Refines bot (h name))
    (generator : GenFunction) : (generator.call f).Refines bot (generator.call h) := by
  cases generator with
  | shortstringGenerator =>
    exact .bind (.refl _ _) fun _ => .bind (octets_extends each _) fun _ => .refl _ _
  | longstringGenerator =>
    exact .bind (.refl _ _) fun _ => .bind (octets_extends each _) fun _ => .refl _ _

section
variable {less more : Nat}

theorem parseRepetition_extends
    (elements : ∀ t, Extends (parseElement less t env) (parseElement more t env)) (text : CString) :
    Extends (parseRepetition (less + 1) text env) (parseRepetition (more + 1) text env) := by
  apply Sampler.Refines.bind (.refl _ _)
  rintro ⟨min, max, element⟩
  apply Sampler.Refines.bind (.refl _ _)
  intro spread
  apply Sampler.Refines.bind (.refl _ _)
  intro drawn
  apply Sampler.Refines.bind (.refl _ _)
  intro quantity
  dsimp only
  split
  · exact .refl _ _
  · rw [← List.map_replicate (f := fun t => parseElement less t env),
      ← List.map_replicate (f := fun t => parseElement more t env)]
    exact concatenate_extends (fun t _ => elements t) .none

theorem parseElement_extends
    (repetitions : ∀ t, Extends (parseRepetition less t env) (parseRepetition more t env))
    (rules : ∀ name, Extends (decodeRule less name env) (decodeRule more name env))
    (text : CString) :
    Extends (parseElement (less + 1) text env) (parseElement (more + 1) text env) := by
  cases text with
  | nil => exact rules []
  | cons c s =>
    rw [parseElement, parseElement]
    split
    · exact repetitions (c :: s)
    split
    · exact .refl _ _
    split
    · exact .refl _ _
    split
    · exact .refl _ _
    · exact rules (c :: s)

theorem decodeRule_extends_step
    (texts : ∀ t, Extends (parseElements less t env) (parseElements more t env))
    (rules : ∀ name, Extends (decodeRule less name env) (decodeRule more name env))
    (rule : CString) :
    Extends (decodeRule (less + 1) rule env) (decodeRule (more + 1) rule env) := by
  rw [decodeRule, decodeRule]
  cases environmentLookup env rule with
  | none => exact .refl _ _
  | some entry =>
    cases entry with
    | string text => exact texts text
    | stringArray alternatives =>
      apply Sampler.Refines.bind (.refl _ _)
      intro choice
      cases choice with
      | none => exact .refl _ _
      | some text => exact texts text
    | byteArray bs => exact .refl _ _
    | function f => exact call_extends rules f

end

/-- One more nested call, for the four functions at once. The induction is on the fuel. -/
theorem generator_extends_succ (fuel : Nat) : ∀ text,
    Extends (parseElements fuel text env) (parseElements (fuel + 1) text env) ∧
    Extends (parseRepetition fuel text env) (parseRepetition (fuel + 1) text env) ∧
    Extends (parseElement fuel text env) (parseElement (fuel + 1) text env) ∧
    Extends (decodeRule fuel text env) (decodeRule (fuel + 1) text env) := by
  induction fuel with
  | zero => exact fun text => ⟨.inl rfl, .inl rfl, .inl rfl, .inl rfl⟩
  | succ fuel ih =>
    have texts := fun t => (ih t).1
    have repetitions := fun t => (ih t).2.1
    have elements := fun t => (ih t).2.2.1
    have rules := fun t => (ih t).2.2.2
    intro text
    refine ⟨?_, ?_, ?_, ?_⟩
    · exact concatenate_extends (fun t _ => elements t) _
    · exact parseRepetition_extends elements text
    · exact parseElement_extends repetitions rules text
    · exact decodeRule_extends_step texts rules text

theorem decodeRule_extends {less more : Nat} (le : less ≤ more) (name : CString) :
    Extends (decodeRule less name env) (decodeRule more name env) := by
  induction more, le using Nat.le_induction with
  | base => exact .refl _ _
  | succ more _ ih => exact ih.trans (generator_extends_succ more name).2.2.2

end
end Amqpgram
