import Mathlib.Algebra.Order.Group.Multiset
import Mathlib.Tactic.Abel
import Mathlib.Logic.Function.Basic

/-! A heap of values and programs over it. What a program does is said of a heap whose
blocks are exactly the ones listed, so that a block that is in no list is leaked and a
list without blocks is an empty heap. -/

structure Heap (V : Type) where
  content : Nat → Option V
  next : Nat
  unused : ∀ b, next ≤ b → content b = none

namespace Heap
variable {V A B : Type}

/-- A block that does not exist (any more), a NULL that is followed, a block of another
kind than the one expected, or a loop that has not ended. -/
inductive Misuse where
  | dangling
  | null
  | kind
  | endless
  deriving DecidableEq, Repr

/-- A program over the heap. -/
abbrev Prog (V A : Type) := StateT (Heap V) (Except Misuse) A

def empty : Heap V := ⟨fun _ => none, 0, fun _ _ => rfl⟩

def add (h : Heap V) (v : V) : Heap V where
  content := Function.update h.content h.next (some v)
  next := h.next + 1
  unused := by
    intro b above
    rw [Function.update_of_ne (by omega)]
    exact h.unused b (by omega)

def put (h : Heap V) (b : Nat) (v : Option V) (live : (h.content b).isSome) : Heap V where
  content := Function.update h.content b v
  next := h.next
  unused := by
    intro c above
    have other : c ≠ b := by
      rintro rfl
      simp [h.unused c above] at live
    rw [Function.update_of_ne other]
    exact h.unused c above

def alloc (v : V) : Prog V Nat := fun h => .ok (h.next, h.add v)

def read (b : Nat) : Prog V V := fun h =>
  match h.content b with
  | some v => .ok (v, h)
  | none => .error .dangling

def assign (b : Nat) (v : V) : Prog V Unit := fun h =>
  if live : (h.content b).isSome then .ok ((), h.put b (some v) live) else .error .dangling

def free (b : Nat) : Prog V Unit := fun h =>
  if live : (h.content b).isSome then .ok ((), h.put b none live) else .error .dangling

/-- What stands behind a pointer that must not be NULL. -/
def deref (p : Option Nat) : Prog V Nat := fun h =>
  match p with
  | some b => .ok (b, h)
  | none => .error .null

/-- A block of the expected kind. -/
def readAs (kind : V → Option A) (b : Nat) : Prog V A := do
  let v ← read b
  match kind v with
  | some a => pure a
  | none => throw .kind

/-- The blocks of the heap are the ones listed. -/
structure Holds (h : Heap V) (owned : Multiset (Nat × V)) : Prop where
  nodup : (owned.map Prod.fst).Nodup
  content : ∀ b v, h.content b = some v ↔ (b, v) ∈ owned

/-- From a heap of the blocks listed first the program returns. -/
def Does (x : Prog V A) (before : Multiset (Nat × V))
    (after : A → Multiset (Nat × V) → Prop) : Prop :=
  ∀ h, h.Holds before → ∃ a h' owned, x h = .ok (a, h') ∧ h'.Holds owned ∧ after a owned

theorem empty_holds : (empty : Heap V).Holds 0 := ⟨by simp, by simp [empty]⟩

section
variable {x : Prog V A} {f : A → Prog V B} {before rest owned : Multiset (Nat × V)}
variable {mid post : A → Multiset (Nat × V) → Prop} {after : B → Multiset (Nat × V) → Prop}
variable {h : Heap V} {b : Nat} {v w : V}

theorem Does.pure {a : A} (holds : post a before) : Does (pure a : Prog V A) before post :=
  fun h held => ⟨a, h, before, rfl, held, holds⟩

theorem Does.bind (first : Does x before mid)
    (next : ∀ a owned, mid a owned → Does (f a) owned after) : Does (x >>= f) before after := by
  intro h held
  obtain ⟨a, h', owned, ran, holds, middle⟩ := first h held
  obtain ⟨c, h'', owned', ran', holds', done⟩ := next a owned middle h' holds
  refine ⟨c, h'', owned', ?_, holds', done⟩
  change (x h).bind (fun p => f p.1 p.2) = _
  rw [ran]
  exact ran'

theorem Does.mono (first : Does x before mid) (weaker : ∀ a owned, mid a owned → post a owned) :
    Does x before post := by
  intro h held
  obtain ⟨a, h', owned, ran, holds, middle⟩ := first h held
  exact ⟨a, h', owned, ran, holds, weaker a owned middle⟩

theorem Does.skip {a : A} (next : Does (f a) before after) :
    Does ((Pure.pure a : Prog V A) >>= f) before after := next

theorem Does.ran {a : A} {h' : Heap V} (does : Does x before post) (held : h.Holds before)
    (ran : x h = .ok (a, h')) : ∃ owned, h'.Holds owned ∧ post a owned := by
  obtain ⟨a', h'', owned, ran', holds, done⟩ := does h held
  rw [ran] at ran'
  obtain ⟨rfl, rfl⟩ := Prod.mk.inj (Except.ok.inj ran')
  exact ⟨owned, holds, done⟩

theorem Does.step {a : A} (first : Does x before fun c held => c = a ∧ held = owned)
    (next : Does (f a) owned after) : Does (x >>= f) before after := by
  apply first.bind
  rintro c held ⟨same, whole⟩
  rw [same, whole]
  exact next

theorem Does.seq (first : Does x before fun _ held => held = owned)
    (next : ∀ a, Does (f a) owned after) : Does (x >>= f) before after := by
  apply first.bind
  intro a held whole
  rw [whole]
  exact next a

theorem Holds.fresh (held : h.Holds owned) : ∀ v, (h.next, v) ∉ owned := by
  intro v member
  have found := (held.content h.next v).mpr member
  rw [h.unused h.next (Nat.le_refl _)] at found
  cases found

theorem Holds.live (held : h.Holds ({(b, v)} + rest)) : h.content b = some v :=
  (held.content b v).mpr (by simp)

theorem Holds.others (held : h.Holds ({(b, v)} + rest)) (w : V) : (b, w) ∉ rest := by
  have nodup := held.nodup
  rw [Multiset.map_add, Multiset.map_singleton, Multiset.singleton_add,
    Multiset.nodup_cons] at nodup
  intro member
  exact nodup.1 (Multiset.mem_map.mpr ⟨(b, w), member, rfl⟩)

theorem alloc_does : Does (alloc v) before fun b after => after = {(b, v)} + before := by
  intro h held
  refine ⟨h.next, h.add v, _, rfl, ⟨?_, ?_⟩, rfl⟩
  · rw [Multiset.map_add, Multiset.map_singleton, Multiset.singleton_add, Multiset.nodup_cons]
    refine ⟨?_, held.nodup⟩
    intro member
    obtain ⟨⟨b, w⟩, inside, same⟩ := Multiset.mem_map.mp member
    obtain rfl : b = h.next := same
    exact held.fresh w inside
  · intro b w
    by_cases new : b = h.next
    · subst new
      simp [add, held.fresh w, eq_comm]
    · simp [add, new, held.content]

theorem read_does (member : (b, v) ∈ before) :
    Does (read b) before fun a after => a = v ∧ after = before := by
  intro h held
  refine ⟨v, h, before, ?_, held, rfl, rfl⟩
  rw [read, (held.content b v).mpr member]

theorem Holds.put (held : h.Holds ({(b, v)} + rest)) (live : (h.content b).isSome) :
    (h.put b (some w) live).Holds ({(b, w)} + rest) ∧ (h.put b none live).Holds rest := by
  have nodup := held.nodup
  simp only [Multiset.map_add, Multiset.map_singleton] at nodup
  have whole : ∀ c u, c ≠ b → (h.content c = some u ↔ (c, u) ∈ rest) := by
    intro c u other
    simp [held.content, other]
  constructor
  · refine ⟨by simpa using nodup, ?_⟩
    intro c u
    by_cases same : c = b
    · subst same
      simp [Heap.put, held.others u, eq_comm]
    · simp [Heap.put, same, whole c u same]
  · refine ⟨(Multiset.nodup_cons.mp nodup).2, ?_⟩
    intro c u
    by_cases same : c = b
    · subst same
      simp [Heap.put, held.others u]
    · simp [Heap.put, same, whole c u same]

theorem assign_does (rest : Multiset (Nat × V)) (split : before = {(b, v)} + rest) :
    Does (assign b w) before fun _ after => after = {(b, w)} + rest := by
  subst split
  intro h held
  have live : (h.content b).isSome := by simp [held.live]
  exact ⟨(), h.put b (some w) live, _, dif_pos live, (held.put live).1, rfl⟩

theorem free_does (rest : Multiset (Nat × V)) (split : before = {(b, v)} + rest) :
    Does (free b) before fun _ after => after = rest := by
  subst split
  intro h held
  have live : (h.content b).isSome := by simp [held.live]
  exact ⟨(), h.put b none live, _, dif_pos live, (held.put (w := v) live).2, rfl⟩

theorem deref_does : Does (deref (some b)) before fun a after => a = b ∧ after = before :=
  fun h held => ⟨b, h, before, rfl, held, rfl, rfl⟩

theorem readAs_does (kind : V → Option A) {a : A} (member : (b, v) ∈ before)
    (known : kind v = some a) : Does (readAs kind b) before fun c after =>
      c = a ∧ after = before := by
  apply (read_does member).step
  rw [known]
  exact .pure ⟨rfl, rfl⟩

end
end Heap
