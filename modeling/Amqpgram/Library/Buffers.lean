import Amqpgram.Library.Blocks

/-! Writes into a buffer. A write beyond the end of its buffer does not happen: what
happens then is not known, so the run ends with the size and the index. -/
namespace Buffers
open Blocks (splice length_splice)
variable {A : Type}

structure Overrun where
  size : Nat
  index : Nat
  deriving DecidableEq, Repr

def poke (buf : List A) (i : Nat) (a : A) : Except Overrun (List A) :=
  if i < buf.length then .ok (buf.set i a) else .error ⟨buf.length, i⟩

/-- One element after the other, from `offset` on. -/
def copy (buf : List A) (offset : Nat) : List A → Except Overrun (List A)
  | [] => .ok buf
  | a :: xs => do
    let buf ← poke buf offset a
    copy buf (offset + 1) xs

def read (buf : List A) (offset length : Nat) : Except Overrun (List A) :=
  if offset + length ≤ buf.length then .ok ((buf.drop offset).take length)
  else .error ⟨buf.length, offset + length⟩

/-- Everything is read before the first element is written. -/
def move (buf : List A) (target source length : Nat) : Except Overrun (List A) := do
  let xs ← read buf source length
  copy buf target xs

/-- What stands before the first `stop`. -/
def cstring [DecidableEq A] (stop : A) (memory : List A) : List A := memory.takeWhile (· ≠ stop)

section
variable {buf xs : List A} {offset : Nat}

theorem splice_set (a : A) (inside : offset < buf.length) (xs : List A) :
    splice (buf.set offset a) (offset + 1) xs = splice buf offset (a :: xs) := by
  have front : (buf.set offset a).take (offset + 1) = buf.take offset ++ [a] := by
    rw [List.take_add_one, List.getElem?_set_self inside, List.take_set_of_le (Nat.le_refl _)]
    rfl
  have back : (buf.set offset a).drop (offset + 1 + xs.length) =
      buf.drop (offset + (xs.length + 1)) := by
    rw [List.drop_set_of_lt (by omega), Nat.add_right_comm, Nat.add_assoc]
  simp only [splice, front, back, List.append_assoc, List.length_cons, List.singleton_append]

theorem splice_whole (length : xs.length = buf.length) : splice buf 0 xs = xs := by
  simp [splice, length]

theorem copy_ok (room : offset + xs.length ≤ buf.length) :
    copy buf offset xs = .ok (splice buf offset xs) := by
  induction xs generalizing buf offset with
  | nil => simp [copy, splice]
  | cons a xs ih =>
    rw [List.length_cons] at room
    rw [copy, poke, if_pos (by omega)]
    refine (ih (by rw [List.length_set]; omega)).trans ?_
    rw [splice_set a (by omega)]

theorem copy_behind {held : List A} (front : held <+: buf)
    (room : held.length + xs.length ≤ buf.length) :
    ∃ buf', copy buf held.length xs = .ok buf' ∧ buf'.length = buf.length ∧
      held ++ xs <+: buf' := by
  refine ⟨_, copy_ok room, length_splice room, ?_⟩
  rw [splice, ← List.prefix_iff_eq_take.mp front]
  exact List.prefix_append ..

theorem copy_overrun (start : offset ≤ buf.length) (full : buf.length < offset + xs.length) :
    copy buf offset xs = .error ⟨buf.length, buf.length⟩ := by
  induction xs generalizing buf offset with
  | nil => simp at full; omega
  | cons a xs ih =>
    rw [List.length_cons] at full
    rw [copy, poke]
    by_cases inside : offset < buf.length
    · rw [if_pos inside]
      refine (ih (by rw [List.length_set]; omega) (by rw [List.length_set]; omega)).trans ?_
      rw [List.length_set]
    · have full : offset = buf.length := by omega
      rw [if_neg inside, full]
      rfl

theorem move_ok {target source length : Nat} (readable : source + length ≤ buf.length)
    (room : target + length ≤ buf.length) :
    move buf target source length = .ok (splice buf target ((buf.drop source).take length)) := by
  have count : ((buf.drop source).take length).length = length := by
    simp only [List.length_take, List.length_drop]
    omega
  rw [move, read, if_pos readable]
  exact copy_ok (by rwa [count])

theorem ne_stop [DecidableEq A] {stop : A} {s : List A} (apart : stop ∉ s) :
    ∀ a ∈ s, decide (a ≠ stop) = true := by
  intro a member
  exact decide_eq_true fun same => apart (same ▸ member)

theorem cstring_append [DecidableEq A] {stop : A} {s : List A} (apart : stop ∉ s) (rest : List A) :
    cstring stop (s ++ stop :: rest) = s := by
  rw [cstring, List.takeWhile_append_of_pos (ne_stop apart)]
  simp

end

end Buffers
