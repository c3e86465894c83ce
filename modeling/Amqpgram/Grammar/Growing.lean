import Amqpgram.Library.Transitions
import Amqpgram.Grammar.Entries

/-! The buffers of `parse_elements` and `parse_repetition` while the expansions are copied
into them. Each function keeps the size of its buffer in a variable of its own and grows
by its own rule; that a copy stays inside is asked of the buffer itself. What `realloc`
leaves behind the old content is `fill`, which may depend on the size. -/
namespace Amqpgram
open Buffers (copy)

/-- The variables of `parse_elements`; there is no buffer at first, and `realLength` is 1. -/
structure ElementsBuffer where
  result : List UInt8
  totalLength : Int
  realLength : Int

def growElements (fill : Nat → Nat → UInt8) (s : ElementsBuffer) (partialLength : Nat) :
    Except Fault ElementsBuffer := do
  let totalLength ← cint (s.totalLength + partialLength)
  if totalLength ≥ s.realLength then
    let realLength ← cint (totalLength * 2)
    pure ⟨resized realLength.toNat (fill realLength.toNat) s.result, totalLength, realLength⟩
  else pure { s with totalLength := totalLength }

def addElement (fill : Nat → Nat → UInt8) (s : ElementsBuffer) (partialResult : List UInt8) :
    Except Trap ElementsBuffer := do
  let s ← orFault (growElements fill s partialResult.length)
  let result ← orOverrun
    (copy s.result (s.totalLength - partialResult.length).toNat partialResult)
  pure { s with result := result }

def elementsBuffer (fill : Nat → Nat → UInt8) (parts : List (List UInt8)) :
    Except Trap (List UInt8) := do
  let s ← parts.foldlM (addElement fill) ⟨[], 0, 1⟩
  pure (resized s.totalLength.toNat (fill s.totalLength.toNat) s.result)

/-- The variables of `parse_repetition`, whose buffer starts at a zero for each turn. -/
structure RepetitionBuffer where
  endResult : List UInt8
  endLength : Int
  position : Int
  realLength : Int

/-- `while (position + temp_length >= real_length)`. -/
def growRepetition (fill : Nat → Nat → UInt8) :
    Nat → RepetitionBuffer → Nat → Except Fault RepetitionBuffer
  | 0, _, _ => .error .outOfFuel
  | turns + 1, s, tempLength => do
    let needed ← cint (s.position + tempLength)
    if needed ≥ s.realLength then
      let size ← cint (2 * s.realLength)
      let endResult := resized size.toNat (fill size.toNat) s.endResult
      growRepetition fill turns { s with endResult := endResult, realLength := size } tempLength
    else pure s

def addRepetition (fill : Nat → Nat → UInt8) (turns : Nat) (s : RepetitionBuffer)
    (tempResult : List UInt8) : Except Trap RepetitionBuffer := do
  let endLength ← orFault (cint (s.endLength + tempResult.length))
  let s ← orFault (growRepetition fill turns { s with endLength := endLength } tempResult.length)
  let endResult ← orOverrun (copy s.endResult s.position.toNat tempResult)
  let position ← orFault (cint (s.position + tempResult.length))
  pure { s with endResult := endResult, position := position }

/-- The buffer for no repetition at all is NULL. -/
def repetitionBuffer (fill : Nat → Nat → UInt8) (turns : Nat) (parts : List (List UInt8)) :
    Except Trap (List UInt8) :=
  let quantity := parts.length
  if quantity = 0 then .ok []
  else do
    let s ← parts.foldlM (addRepetition fill turns) ⟨List.replicate quantity 0, 0, 0, quantity⟩
    pure (resized s.endLength.toNat (fill s.endLength.toNat) s.endResult)

/-- Nothing is allocated before the first byte; from then on `realLength` is the size. -/
structure ElementsBuffer.Holds (s : ElementsBuffer) (written : List UInt8) : Prop where
  total : s.totalLength = written.length
  front : written <+: s.result
  capacity : s.realLength = s.result.length ∨ written = [] ∧ s.realLength = 1

structure RepetitionBuffer.Holds (s : RepetitionBuffer) (written : List UInt8) : Prop where
  position : s.position = written.length
  front : written <+: s.endResult
  capacity : s.realLength = s.endResult.length
  positive : 0 < s.endResult.length

section
variable {written part : List UInt8} (fill : Nat → Nat → UInt8)

theorem room_of_parts {parts before : List (List UInt8)} (small : parts.flatten.length < 2 ^ 30)
    (inside : before ++ [part] <+: parts) :
    before.flatten.length + part.length < 2 ^ 30 := by
  obtain ⟨rest, rfl⟩ := inside
  simp only [List.flatten_append, List.flatten_singleton, List.length_append] at small
  omega

theorem cint_length {n : Nat} (small : n < 2 ^ 30) : cint n = .ok (n : Int) :=
  cint_of_range (by omega) (by omega)

/-! ### parse_elements -/

theorem growElements_room {s : ElementsBuffer} (h : s.Holds written) {n : Nat}
    (small : written.length + n < 2 ^ 30) : ∃ grown, growElements fill s n = .ok grown ∧
      grown.totalLength = ((written.length + n : Nat) : Int) ∧
      written.length + n ≤ grown.result.length ∧ written <+: grown.result ∧
      (grown.realLength = grown.result.length ∨
        written.length + n = 0 ∧ grown.realLength = 1) := by
  have sum : cint (s.totalLength + n) = .ok ((written.length + n : Nat) : Int) := by
    rw [h.total, ← Int.natCast_add]
    exact cint_length small
  have held := h.front.length_le
  rw [growElements, sum, ok_bind]
  by_cases full : ((written.length + n : Nat) : Int) ≥ s.realLength
  · have double : cint (((written.length + n : Nat) : Int) * 2) =
        .ok (((written.length + n) * 2 : Nat) : Int) :=
      cint_of_range (by omega) (by omega)
    rw [if_pos full, double, ok_bind, Int.toNat_natCast]
    refine ⟨_, rfl, rfl, ?_, held_resized h.front (by omega) _, .inl ?_⟩
    · rw [length_resized]
      omega
    · rw [length_resized]
  · rw [if_neg full]
    refine ⟨_, rfl, rfl, ?_, h.front, ?_⟩
    · rcases h.capacity with size | ⟨empty, one⟩ <;> dsimp only <;> omega
    · refine h.capacity.imp_right ?_
      rintro ⟨empty, one⟩
      exact ⟨by omega, one⟩

theorem addElement_holds {s : ElementsBuffer} (h : s.Holds written)
    (small : written.length + part.length < 2 ^ 30) :
    ∃ t, addElement fill s part = .ok t ∧ t.Holds (written ++ part) := by
  obtain ⟨grown, grow, total, room, front, capacity⟩ := growElements_room fill h small
  obtain ⟨result, copied, length, held⟩ := Buffers.copy_behind front room
  have offset : (grown.totalLength - part.length).toNat = written.length := by omega
  refine ⟨{ grown with result := result }, ?_, ?_, held, ?_⟩
  · rw [addElement, grow, orFault_ok, ok_bind, offset, copied]
    rfl
  · rw [total, List.length_append]
  · rw [length]
    refine capacity.imp_right ?_
    rintro ⟨empty, one⟩
    exact ⟨List.length_eq_zero_iff.mp (by rw [List.length_append]; exact empty), one⟩

theorem elements_run {parts : List (List UInt8)} (small : parts.flatten.length < 2 ^ 30) :
    ∀ before, before <+: parts → ∃ s, before.foldlM (addElement fill) ⟨[], 0, 1⟩ = .ok s ∧
      s.Holds before.flatten := by
  refine Runs.foldlM_run ⟨rfl, List.prefix_rfl, .inr ⟨rfl, rfl⟩⟩ ?_
  intro s before part inside h
  have bound := room_of_parts small inside
  rw [List.flatten_append, List.flatten_singleton]
  exact addElement_holds fill h bound

theorem elementsBuffer_eq {parts : List (List UInt8)} (small : parts.flatten.length < 2 ^ 30) :
    elementsBuffer fill parts = .ok parts.flatten := by
  obtain ⟨s, run, h⟩ := elements_run fill small parts List.prefix_rfl
  rw [elementsBuffer, run, ok_bind, h.total, Int.toNat_natCast]
  exact congrArg Except.ok (resized_length h.front _)

/-! ### parse_repetition -/

theorem growRepetition_room {turns n : Nat} {s : RepetitionBuffer} (h : s.Holds written)
    (small : written.length + n < 2 ^ 30) (enough : 2 ^ 30 ≤ s.endResult.length * 2 ^ turns) :
    ∃ grown, growRepetition fill (turns + 1) s n = .ok grown ∧ grown.Holds written ∧
      written.length + n ≤ grown.endResult.length ∧ grown.endLength = s.endLength := by
  have sum : cint (s.position + n) = .ok ((written.length + n : Nat) : Int) := by
    rw [h.position, ← Int.natCast_add]
    exact cint_length small
  induction turns generalizing s with
  | zero =>
    have room : ¬ ((written.length + n : Nat) : Int) ≥ s.realLength := by
      rw [h.capacity]
      omega
    rw [growRepetition, sum, ok_bind, if_neg room]
    exact ⟨s, rfl, h, by omega, rfl⟩
  | succ turns ih =>
    rw [growRepetition, sum, ok_bind]
    by_cases full : ((written.length + n : Nat) : Int) ≥ s.realLength
    · have size := h.capacity
      have double : cint (2 * s.realLength) = .ok ((2 * s.endResult.length : Nat) : Int) := by
        rw [size]
        exact cint_of_range (by omega) (by omega)
      have held := h.front.length_le
      have positive := h.positive
      rw [if_pos full, double, ok_bind, Int.toNat_natCast]
      refine ih ⟨h.position, held_resized h.front (by omega) _, ?_, ?_⟩ ?_ sum
      · rw [length_resized]
      · rw [length_resized]
        omega
      · rw [length_resized]
        calc 2 ^ 30 ≤ s.endResult.length * 2 ^ (turns + 1) := enough
          _ = 2 * s.endResult.length * 2 ^ turns := by ring
    · rw [if_neg full]
      refine ⟨s, rfl, h, ?_, rfl⟩
      have size := h.capacity
      omega

theorem doublings_enough {size turns : Nat} (positive : 0 < size) (most : 30 ≤ turns) :
    2 ^ 30 ≤ size * 2 ^ turns :=
  calc 2 ^ 30 ≤ 2 ^ turns := Nat.pow_le_pow_right (by decide) most
    _ ≤ size * 2 ^ turns := Nat.le_mul_of_pos_left _ positive

theorem addRepetition_holds {turns : Nat} (most : 30 ≤ turns) {s : RepetitionBuffer}
    (h : s.Holds written) (total : s.endLength = written.length)
    (small : written.length + part.length < 2 ^ 30) :
    ∃ t, addRepetition fill (turns + 1) s part = .ok t ∧ t.Holds (written ++ part) ∧
      t.endLength = (written ++ part).length := by
  have sum : ∀ a : Int, a = written.length →
      cint (a + part.length) = .ok ((written.length + part.length : Nat) : Int) := by
    rintro a rfl
    rw [← Int.natCast_add]
    exact cint_length small
  have longer : RepetitionBuffer.Holds
      { s with endLength := ((written.length + part.length : Nat) : Int) } written :=
    ⟨h.position, h.front, h.capacity, h.positive⟩
  obtain ⟨grown, grow, held, room, length⟩ :=
    growRepetition_room fill longer small (doublings_enough h.positive most)
  obtain ⟨endResult, copied, size, front⟩ := Buffers.copy_behind held.front room
  refine ⟨⟨endResult, grown.endLength, ((written.length + part.length : Nat) : Int),
    grown.realLength⟩, ?_, ⟨?_, front, ?_, ?_⟩, ?_⟩
  · rw [addRepetition, sum _ total, orFault_ok, ok_bind, grow, orFault_ok, ok_bind,
      held.position, Int.toNat_natCast, copied, orOverrun_ok, ok_bind, sum _ rfl, orFault_ok,
      ok_bind]
    rfl
  · rw [List.length_append]
  · rw [size]
    exact held.capacity
  · rw [size]
    exact held.positive
  · rw [length, List.length_append]

theorem repetition_run {turns : Nat} (most : 30 ≤ turns) {parts : List (List UInt8)}
    (some_part : parts ≠ []) (small : parts.flatten.length < 2 ^ 30) :
    ∀ before, before <+: parts → ∃ s, before.foldlM (addRepetition fill (turns + 1))
        ⟨List.replicate parts.length 0, 0, 0, parts.length⟩ = .ok s ∧
      s.Holds before.flatten ∧ s.endLength = before.flatten.length := by
  have positive := List.length_pos_of_ne_nil some_part
  refine Runs.foldlM_run ⟨⟨rfl, List.nil_prefix, ?_, ?_⟩, rfl⟩ ?_
  · rw [List.length_replicate]
  · rwa [List.length_replicate]
  · rintro s before part inside ⟨h, total⟩
    have bound := room_of_parts small inside
    rw [List.flatten_append, List.flatten_singleton]
    exact addRepetition_holds fill most h total bound

theorem repetitionBuffer_eq {turns : Nat} (most : 30 ≤ turns) {parts : List (List UInt8)}
    (small : parts.flatten.length < 2 ^ 30) :
    repetitionBuffer fill (turns + 1) parts = .ok parts.flatten := by
  by_cases empty : parts = []
  · subst empty
    rfl
  · obtain ⟨s, run, h, total⟩ := repetition_run fill most empty small parts List.prefix_rfl
    have some_turn : ¬ parts.length = 0 := by simpa using empty
    rw [repetitionBuffer, if_neg some_turn, run, ok_bind, total, Int.toNat_natCast]
    exact congrArg Except.ok (resized_length h.front _)

end

/-! ### Both buffers -/

/-- A buffer that holds the pieces copied so far, and room for the next one as the tracked
size has it. -/
structure HasRoom (buffer : List UInt8) (realLength : Int) (written part : List UInt8) : Prop where
  front : written <+: buffer
  size : written.length + part.length ≤ buffer.length
  tracked : (written.length : Int) + part.length ≤ realLength

def ElementsRoom (fill : Nat → Nat → UInt8) (before : List (List UInt8)) (part : List UInt8) :
    Prop :=
  ∃ s grown, before.foldlM (addElement fill) ⟨[], 0, 1⟩ = .ok s ∧
    growElements fill s part.length = .ok grown ∧
    grown.totalLength - part.length = before.flatten.length ∧
    HasRoom grown.result grown.realLength before.flatten part

def RepetitionRoom (fill : Nat → Nat → UInt8) (turns quantity : Nat)
    (before : List (List UInt8)) (part : List UInt8) : Prop :=
  ∃ s grown, before.foldlM (addRepetition fill turns)
      ⟨List.replicate quantity 0, 0, 0, quantity⟩ = .ok s ∧
    growRepetition fill turns { s with endLength := s.endLength + part.length } part.length =
      .ok grown ∧
    grown.position = before.flatten.length ∧
    HasRoom grown.endResult grown.realLength before.flatten part

section
variable {parts before : List (List UInt8)} {part : List UInt8}
variable (small : parts.flatten.length < 2 ^ 30) (fill : Nat → Nat → UInt8)
variable (inside : before ++ [part] <+: parts)
include small inside

theorem elements_room : ElementsRoom fill before part := by
  obtain ⟨s, run, h⟩ := elements_run fill small before ((List.prefix_append ..).trans inside)
  obtain ⟨grown, grow, total, room, front, capacity⟩ :=
    growElements_room fill h (room_of_parts small inside)
  refine ⟨s, grown, run, grow, by omega, front, room, ?_⟩
  rcases capacity with size | ⟨empty, one⟩ <;> omega

theorem repetition_room {turns : Nat} (most : 30 ≤ turns) :
    RepetitionRoom fill (turns + 1) parts.length before part := by
  have some_part : parts ≠ [] := by
    rintro rfl
    simpa using inside.length_le
  obtain ⟨s, run, h, _⟩ :=
    repetition_run fill most some_part small before ((List.prefix_append ..).trans inside)
  have longer : RepetitionBuffer.Holds
      { s with endLength := s.endLength + part.length } before.flatten :=
    ⟨h.position, h.front, h.capacity, h.positive⟩
  obtain ⟨grown, grow, held, room, _⟩ := growRepetition_room fill longer
    (room_of_parts small inside) (doublings_enough h.positive most)
  have size := held.capacity
  exact ⟨s, grown, run, grow, held.position, held.front, room, by omega⟩

end

/-- The buffers have room for each piece before it is copied, the doubling ends after at
most 30 turns, and what is left in the end are the pieces one behind the other. -/
theorem growing_buffers {parts : List (List UInt8)} (small : parts.flatten.length < 2 ^ 30)
    (fill : Nat → Nat → UInt8) {turns : Nat} (most : 31 ≤ turns) :
    elementsBuffer fill parts = .ok parts.flatten ∧
    repetitionBuffer fill turns parts = .ok parts.flatten ∧
    ∀ before part, before ++ [part] <+: parts → ElementsRoom fill before part ∧
      RepetitionRoom fill turns parts.length before part := by
  obtain ⟨turns, rfl⟩ : ∃ l, turns = l + 1 := ⟨turns - 1, by omega⟩
  refine ⟨elementsBuffer_eq fill small, repetitionBuffer_eq fill (by omega) small, ?_⟩
  intro before part inside
  exact ⟨elements_room small fill inside, repetition_room small fill inside (by omega)⟩

theorem growing_buffers_mixed :
    elementsBuffer (fun _ _ => 9) [[], [1, 2, 3], [], [4]] = .ok [1, 2, 3, 4] ∧
    repetitionBuffer (fun _ _ => 9) 31 [[], [1, 2, 3], [], [4]] = .ok [1, 2, 3, 4] ∧
    ElementsRoom (fun _ _ => 9) [[], [1, 2, 3]] [] ∧
    RepetitionRoom (fun _ _ => 9) 31 4 [[], [1, 2, 3]] [] := by
  have small : ([[], [1, 2, 3], [], [4]] : List (List UInt8)).flatten.length < 2 ^ 30 := by decide
  have all := growing_buffers small (fun _ _ => 9) (show 31 ≤ 31 by decide)
  exact ⟨all.1, all.2.1, all.2.2 [[], [1, 2, 3]] [] (by decide)⟩

/-! ### What the generator returns -/

section
variable {env : Environment} {fuel : Nat} {text : CString} {d : Decoded}
variable (small : d.length < 2 ^ 30) (fill : Nat → Nat → UInt8)
include small

theorem parseElements_buffer (y : (parseElements (fuel + 1) text env).Yields d) :
    ∃ parts, List.Forall₂ (fun t part => (parseElement fuel t env).Yields (.of part))
      (Tokens.tokens ' ' text) parts ∧ elementsBuffer fill parts = .ok d.bytes := by
  obtain ⟨parts, expanded, rfl⟩ := parseElements_parts y
  exact ⟨parts, expanded, elementsBuffer_eq fill small⟩

theorem parseRepetition_buffer (y : (parseRepetition (fuel + 1) text env).Yields d) :
    ∃ counts parts, scanRepetition text = .ok counts ∧
      (∀ part ∈ parts, (parseElement fuel counts.elementToRepeat env).Yields (.of part)) ∧
      repetitionBuffer fill 31 parts = .ok d.bytes := by
  rw [parseRepetition] at y
  obtain ⟨counts, scanned, y⟩ := (Sampler.yields_bind ..).mp y
  obtain ⟨_, _, y⟩ := (Sampler.yields_bind ..).mp y
  obtain ⟨_, _, y⟩ := (Sampler.yields_bind ..).mp y
  obtain ⟨quantity, _, y⟩ := (Sampler.yields_bind ..).mp y
  refine ⟨counts, ?_⟩
  dsimp only at y
  by_cases zero : quantity = 0
  · rw [if_pos zero] at y
    obtain rfl : Decoded.none = d := y
    exact ⟨[], (Sampler.yields_ofExcept ..).mp scanned, by simp, rfl⟩
  · rw [if_neg zero, ← List.map_replicate (f := fun t => parseElement fuel t env)] at y
    obtain ⟨parts, expanded, rfl⟩ :=
      concatenate_parts (u := []) (fun t => exact_parseElement fuel t) y
    refine ⟨parts, (Sampler.yields_ofExcept ..).mp scanned, ?_,
      repetitionBuffer_eq fill (by decide) small⟩
    intro part member
    obtain ⟨t, repeated, yields⟩ := forall₂_mem_left expanded.flip member
    rwa [List.eq_of_mem_replicate repeated] at yields

end

end Amqpgram
