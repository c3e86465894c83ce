import Mathlib.Data.List.Basic
import Mathlib.Logic.Function.Basic

/-! A heap of blocks. The number of a block is given to no later one, so that a pointer to
a block that was freed never leads to another block. -/

structure Blocks (A : Type) where
  content : Nat → Option (List A)
  next : Nat
  unused : ∀ b, next ≤ b → content b = none

namespace Blocks
variable {A : Type}

/-- NULL, or the start of a block. -/
abbrev Pointer := Option Nat

def empty : Blocks A := ⟨fun _ => none, 0, fun _ _ => rfl⟩

def alloc (h : Blocks A) (xs : List A) : Blocks A where
  content := Function.update h.content h.next (some xs)
  next := h.next + 1
  unused := by
    intro b above
    rw [Function.update_of_ne (by omega)]
    exact h.unused b (by omega)

def modify (h : Blocks A) (b : Nat) (f : List A → Option (List A)) : Blocks A where
  content := Function.update h.content b (h.content b >>= f)
  next := h.next
  unused := by
    intro c above
    by_cases same : c = b
    · subst same
      simp [h.unused c above]
    · simp [same, h.unused c above]

def free (h : Blocks A) (b : Nat) : Blocks A := h.modify b fun _ => none

/-- The length of the block, 0 for NULL and for a block that was freed. -/
def size (h : Blocks A) (p : Pointer) : Nat := ((p >>= h.content).map List.length).getD 0

def read (h : Blocks A) (p : Pointer) (offset length : Nat) : Option (List A) := do
  let xs ← p >>= h.content
  if offset + length ≤ xs.length then some ((xs.drop offset).take length) else none

/-- `ys` in the place of as many elements behind the first `offset`. -/
def splice (xs : List A) (offset : Nat) (ys : List A) : List A :=
  xs.take offset ++ ys ++ xs.drop (offset + ys.length)

def write (h : Blocks A) (b offset : Nat) (ys : List A) : Option (Blocks A) := do
  let xs ← h.content b
  if offset + ys.length ≤ xs.length then
    some (h.modify b fun xs => some (splice xs offset ys))
  else none

theorem length_splice {xs ys : List A} {offset : Nat} (inside : offset + ys.length ≤ xs.length) :
    (splice xs offset ys).length = xs.length := by
  simp [splice]
  omega

section
variable {h h' : Blocks A}

@[simp] theorem size_none : h.size none = 0 := rfl

theorem size_alloc (xs : List A) (b : Nat) : (h.alloc xs).size (some b) =
    if b = h.next then xs.length else h.size (some b) := by
  by_cases new : b = h.next <;> simp [size, alloc, new]

@[simp] theorem next_alloc (xs : List A) : (h.alloc xs).next = h.next + 1 := rfl

theorem lt_next {b : Nat} (live : h.content b ≠ none) : b < h.next := by
  by_contra above
  exact live (h.unused b (by omega))

theorem content_free_alloc {b : Nat} (live : h.content b ≠ none) (xs : List A) :
    ((h.free b).alloc xs).content b = none := by
  have other : b ≠ h.next := Nat.ne_of_lt (lt_next live)
  simp [alloc, free, modify, other]

theorem write_isSome {b offset : Nat} {ys : List A} (room : offset + ys.length ≤ h.size (some b))
    (nonempty : ys ≠ []) : ∃ h', h.write b offset ys = some h' := by
  have length := List.length_pos_iff.mpr nonempty
  cases content : h.content b with
  | none =>
    simp only [size, Option.bind_eq_bind, Option.bind_some, content, Option.map_none,
      Option.getD_none] at room
    omega
  | some xs =>
    have inside : offset + ys.length ≤ xs.length := by simpa [size, content] using room
    simp [write, content, inside]

theorem size_write {b offset : Nat} {ys : List A} (written : h.write b offset ys = some h')
    (p : Pointer) : h'.size p = h.size p := by
  cases content : h.content b with
  | none => simp [write, content] at written
  | some xs =>
    by_cases inside : offset + ys.length ≤ xs.length
    · obtain rfl : h.modify b (fun xs => some (splice xs offset ys)) = h' := by
        simpa [write, content, inside] using written
      cases p with
      | none => rfl
      | some c =>
        by_cases same : c = b
        · subst same
          simp [size, modify, content, length_splice inside]
        · simp [size, modify, same]
    · simp [write, content, inside] at written

end

end Blocks
