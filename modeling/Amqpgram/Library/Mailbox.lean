import Mathlib.Data.List.Basic
import Amqpgram.Library.Transitions

/-! A mailbox of one slot between a producer that overwrites and a consumer that
clears. Two histories record what went in and what came out, and a third what
each publish found in the slot. -/

structure Mailbox (P : Type) where
  slot : Option P
  published : List P
  handed : List P
  found : List (Option P)

namespace Mailbox
variable {P : Type}

def publish (m : Mailbox P) (p : P) : Mailbox P :=
  ⟨some p, m.published ++ [p], m.handed, m.found ++ [m.slot]⟩

def take (m : Mailbox P) : Mailbox P :=
  ⟨none, m.published, m.handed ++ m.slot.toList, m.found⟩

/-- Every interleaving of publishes and takes. -/
def system (P : Type) : TransitionSystem (Mailbox P) :=
  ⟨⟨none, [], [], []⟩, fun m m' => (∃ p, m' = m.publish p) ∨ m' = m.take⟩

/-- What was published has come out in order, or waits in the slot. -/
def Lossless (m : Mailbox P) : Prop := m.handed ++ m.slot.toList = m.published

/-- Nothing comes out twice or out of order, whatever is lost. -/
theorem handed_sublist {m : Mailbox P} (reach : (system P).Reachable m) :
    (m.handed ++ m.slot.toList).Sublist m.published := by
  apply reach.invariant (p := fun m => (m.handed ++ m.slot.toList).Sublist m.published)
  · exact List.Sublist.slnil
  · rintro m m' _ before (⟨p, rfl⟩ | rfl)
    · have handed := (List.sublist_append_left m.handed m.slot.toList).trans before
      exact handed.append (List.Sublist.refl [p])
    · simpa [take] using before

theorem length_published {m : Mailbox P} (reach : (system P).Reachable m) :
    m.published.length =
      m.handed.length + m.slot.toList.length + (m.found.filterMap id).length := by
  apply reach.invariant (p := fun m => m.published.length =
    m.handed.length + m.slot.toList.length + (m.found.filterMap id).length)
  · rfl
  · rintro m m' _ before (⟨p, rfl⟩ | rfl)
    · cases slot : m.slot with
      | none => simp [publish, slot, before]; omega
      | some q => simp [publish, slot, before]; omega
    · simpa [take] using before

theorem filterMap_id_eq_nil {found : List (Option P)} :
    found.filterMap id = [] ↔ ∀ x ∈ found, x = none := by
  simp [List.filterMap_eq_nil_iff]

/-- Nothing is lost exactly when every publish has found the slot empty. -/
theorem lossless_iff {m : Mailbox P} (reach : (system P).Reachable m) :
    m.Lossless ↔ ∀ x ∈ m.found, x = none := by
  have length := length_published reach
  have sublist := handed_sublist reach
  rw [← filterMap_id_eq_nil, ← List.length_eq_zero_iff]
  constructor
  · intro lossless
    have same := congrArg List.length lossless
    rw [List.length_append] at same
    omega
  · intro empty
    apply sublist.eq_of_length
    rw [List.length_append]
    omega

end Mailbox
