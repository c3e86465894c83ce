import Amqpgram.Fuzzer.Encoder

/-! The short strings of a field table: `add_string_entry` writes one behind a length
octet and `extract_string_entry` takes it out again. The writer is given its size as
a `char`, and the reader compares the position of the field with the field's size. -/
namespace Amqpgram

def addStringEntry (dest : List UInt8) (fieldSize : Int) (fieldContents : Memory)
    (extraInfo : Int) (index : Nat) : Except Fault (List UInt8 × Int) := do
  let fieldSize := wrapSigned 8 fieldSize
  let fullSize ← cint (fieldSize + extraInfo)
  let dest ← storeByte dest index (UInt8.ofNat (wrapUnsigned 8 fieldSize))
  -- A negative size is converted to `size_t`.
  let dest ← memcpy dest (index + 1) fieldContents (wrapUnsigned 64 fullSize)
  pure (dest, fullSize)

/-- The pointer may be NULL. -/
def extractCharArrayEntry (held : Nat → UInt8) (src : Memory) (index : Nat) :
    Except Fault (Option (List UInt8)) := do
  let size := (← readByte src index).toNat
  if size = 0 then pure none
  else if index > size then pure none
  else
    let result ← memcpy (malloc held size) 0 (fun i => src (1 + index + i)) size
    pure (some result)

def extractStringEntry (held : Nat → UInt8) (src : Memory) (index : Nat) :
    Except Fault (Option (List UInt8)) := do
  let size := (← readByte src index).toNat
  match ← extractCharArrayEntry held src index with
  | none => pure none
  | some preResult =>
    let result ← memcpy (List.replicate (size + 1) 0) 0 (bufferMemory preResult) size
    pure (some result)

/-- The field is read back with a NUL behind it, and the rest of the buffer is as before. -/
def EntryRoundTrips (dest : List UInt8) (index : Nat) (contents : List UInt8) : Prop :=
  ∃ written full, addStringEntry dest contents.length (bufferMemory contents) 0 index =
      .ok (written, full) ∧
    (∀ held, extractStringEntry held (bufferMemory written) index =
      .ok (some (contents ++ [0]))) ∧
    ∀ i, i < index ∨ index + contents.length < i → written[i]? = dest[i]?

section Field
variable (pre behind contents post : List UInt8)

theorem addStringEntry_short (z : UInt8) (short : contents.length ≤ 127)
    (fits : contents.length ≤ behind.length) :
    addStringEntry (pre ++ z :: behind) contents.length (bufferMemory contents) 0 pre.length =
      .ok (pre ++ [UInt8.ofNat contents.length] ++ contents ++ behind.drop contents.length,
        contents.length) := by
  have size : wrapSigned 8 contents.length = contents.length :=
    wrapSigned_of_range (by omega) (by omega)
  have full : cint ((contents.length : Int) + 0) = .ok contents.length := by
    simpa using cint_of_range (x := (contents.length : Int)) (by omega) (by omega)
  have octet : wrapUnsigned 8 (contents.length : Int) = contents.length := by
    unfold wrapUnsigned
    omega
  have count : wrapUnsigned 64 (contents.length : Int) = contents.length := by
    unfold wrapUnsigned
    omega
  have stored : storeByte (pre ++ z :: behind) pre.length (UInt8.ofNat contents.length) =
      .ok (pre ++ [UInt8.ofNat contents.length] ++ behind) := by simp [storeByte]
  have copied := memcpy_next (pre ++ [UInt8.ofNat contents.length]) behind contents fits
  rw [List.length_append, List.length_singleton] at copied
  simp only [addStringEntry, size, full, octet, count, stored, copied, ok_bind]
  rfl

theorem addStringEntry_long (dest : List UInt8) (index : Nat) (long : 128 ≤ contents.length)
    (octet : contents.length ≤ 255) (inside : index < dest.length) :
    addStringEntry dest contents.length (bufferMemory contents) 0 index =
      .error .outOfBounds := by
  have size : wrapSigned 8 contents.length = (contents.length : Int) - 256 := by
    rw [wrapSigned_congr (y := (contents.length : Int) - 256) (by omega)]
    exact wrapSigned_of_range (by omega) (by omega)
  have full : cint ((contents.length : Int) - 256 + 0) = .ok ((contents.length : Int) - 256) := by
    refine cint_eq_ok.mpr ⟨by omega, ?_, ?_⟩ <;>
      · unfold intMax
        omega
  have beyond : contents.length < wrapUnsigned 64 ((contents.length : Int) - 256) := by
    unfold wrapUnsigned
    omega
  simp only [addStringEntry, size, full, storeByte, inside, if_true, memcpy_beyond beyond,
    ok_bind, error_bind]

theorem extractCharArrayEntry_field (held : Nat → UInt8) (nonempty : contents ≠ [])
    (octet : contents.length ≤ 255) :
    extractCharArrayEntry held
        (bufferMemory (pre ++ [UInt8.ofNat contents.length] ++ contents ++ post)) pre.length =
      .ok (if pre.length > contents.length then none else some contents) := by
  have head : readByte (bufferMemory (pre ++ [UInt8.ofNat contents.length] ++ contents ++ post))
      pre.length = .ok (UInt8.ofNat contents.length) := by
    simp [readByte, bufferMemory]
  have size : (UInt8.ofNat contents.length).toNat = contents.length := by
    simp only [UInt8.toNat_ofNat']
    omega
  have filled : contents.length ≠ 0 := by simpa using nonempty
  have shifted : (fun i => bufferMemory (pre ++ [UInt8.ofNat contents.length] ++ contents ++ post)
      (1 + pre.length + i)) = bufferMemory (contents ++ post) := by
    funext i
    have place : 1 + pre.length + i = (pre ++ [UInt8.ofNat contents.length]).length + i := by
      simp [Nat.add_comm]
    rw [bufferMemory, List.append_assoc, place, List.getElem?_append_right (by omega),
      Nat.add_sub_cancel_left, bufferMemory]
  have copied : memcpy (malloc held contents.length) 0 (bufferMemory (contents ++ post))
      contents.length = .ok contents := by
    have read := readBytes_window [] contents post
    have room := length_malloc held contents.length
    simp only [List.nil_append, List.length_nil] at read
    rw [Int.toNat_natCast] at room
    simp [memcpy, read, room, memcpyAt]
  simp only [extractCharArrayEntry, head, ok_bind, size, filled, if_false, shifted, copied]
  split <;> rfl

theorem extractStringEntry_field (held : Nat → UInt8) (nonempty : contents ≠ [])
    (octet : contents.length ≤ 255) :
    extractStringEntry held
        (bufferMemory (pre ++ [UInt8.ofNat contents.length] ++ contents ++ post)) pre.length =
      .ok (if pre.length > contents.length then none else some (contents ++ [0])) := by
  have head : readByte (bufferMemory (pre ++ [UInt8.ofNat contents.length] ++ contents ++ post))
      pre.length = .ok (UInt8.ofNat contents.length) := by
    simp [readByte, bufferMemory]
  have size : (UInt8.ofNat contents.length).toNat = contents.length := by
    simp only [UInt8.toNat_ofNat']
    omega
  have entry := extractCharArrayEntry_field pre contents post held nonempty octet
  have copied : memcpy (List.replicate (contents.length + 1) 0) 0 (bufferMemory contents)
      contents.length = .ok (contents ++ [0]) := by
    have next := memcpy_next [] (List.replicate (contents.length + 1) 0) contents (by simp)
    simpa using next
  by_cases late : pre.length > contents.length
  · simp only [extractStringEntry, head, ok_bind, entry, late, if_true]
    rfl
  · simp only [extractStringEntry, head, ok_bind, size, entry, late, if_false, copied]
    rfl

end Field

theorem exists_split {dest : List UInt8} {index : Nat} (inside : index < dest.length) :
    ∃ pre z behind, dest = pre ++ z :: behind ∧ pre.length = index := by
  refine ⟨dest.take index, dest[index], dest.drop (index + 1), ?_, ?_⟩
  · rw [List.cons_getElem_drop_succ, List.take_append_drop]
  · exact List.length_take_of_le (by omega)

/-- Before the field and behind it the buffer is what it was. -/
theorem field_outside (pre behind contents : List UInt8) (z n : UInt8) {i : Nat}
    (outside : i < pre.length ∨ pre.length + contents.length < i) :
    (pre ++ [n] ++ contents ++ behind.drop contents.length)[i]? = (pre ++ z :: behind)[i]? := by
  rcases outside with before | after
  · simp [List.getElem?_append_left before]
  · obtain ⟨j, rfl⟩ : ∃ j, i = pre.length + (contents.length + j + 1) :=
      ⟨i - pre.length - contents.length - 1, by omega⟩
    simp only [List.append_assoc, List.getElem?_append_right, Nat.le_add_right,
      Nat.add_sub_cancel_left, List.nil_append, List.cons_append,
      List.getElem?_cons_succ, List.getElem?_drop]

/-- A field makes the round trip exactly when its size is positive as a `char` and its
position is no larger than its size. -/
theorem entryRoundTrips_iff (dest : List UInt8) (index : Nat) (contents : List UInt8)
    (nonempty : contents ≠ []) (octet : contents.length ≤ 255)
    (fits : index + 1 + contents.length ≤ dest.length) :
    EntryRoundTrips dest index contents ↔ contents.length ≤ 127 ∧ index ≤ contents.length := by
  obtain ⟨pre, z, behind, rfl, rfl⟩ := exists_split (show index < dest.length by omega)
  have room : contents.length ≤ behind.length := by
    simp only [List.length_append, List.length_cons] at fits
    omega
  by_cases short : contents.length ≤ 127
  · have added := addStringEntry_short pre behind contents z short room
    have taken := fun held => extractStringEntry_field pre contents
      (behind.drop contents.length) held nonempty octet
    constructor
    · rintro ⟨written, full, stored, read, _⟩
      obtain ⟨rfl, rfl⟩ := Prod.mk.inj (Except.ok.inj (added.symm.trans stored))
      have both := (taken fun _ => 0).symm.trans (read fun _ => 0)
      refine ⟨short, ?_⟩
      by_contra late
      rw [if_pos (by omega)] at both
      cases both
    · rintro ⟨_, near⟩
      refine ⟨_, _, added, ?_, ?_⟩
      · intro held
        rw [taken held, if_neg (by omega)]
      · intro i outside
        exact field_outside pre behind contents z _ outside
  · constructor
    · rintro ⟨written, full, stored, _⟩
      have faulted := addStringEntry_long contents (pre ++ z :: behind) pre.length (by omega)
        octet (by simp)
      cases faulted.symm.trans stored
    · rintro ⟨small, _⟩
      exact (short small).elim

theorem entryRoundTrips_iff_front : EntryRoundTrips [0, 0, 0] 1 [7] :=
  (entryRoundTrips_iff [0, 0, 0] 1 [7] (by decide) (by decide) (by decide)).mpr (by decide)

/-- A string of one octet behind two others is written, and read back as NULL. -/
theorem late_entry_lost :
    (addStringEntry [0, 0, 0, 0] 1 (bufferMemory [7]) 0 2).toOption = some ([0, 0, 1, 7], 1) ∧
      extractStringEntry (fun _ => 0) (bufferMemory [0, 0, 1, 7]) 2 = .ok none ∧
      ¬ EntryRoundTrips [0, 0, 0, 0] 2 [7] := by
  have added : addStringEntry [0, 0, 0, 0] 1 (bufferMemory [7]) 0 2 = .ok ([0, 0, 1, 7], 1) := by
    decide +kernel
  have lost : extractStringEntry (fun _ => 0) (bufferMemory [0, 0, 1, 7]) 2 = .ok none := by
    decide +kernel
  refine ⟨congrArg Except.toOption added, lost, ?_⟩
  rintro ⟨written, full, stored, read, _⟩
  obtain ⟨rfl, rfl⟩ := Prod.mk.inj (Except.ok.inj (added.symm.trans stored))
  cases lost.symm.trans (read fun _ => 0)

end Amqpgram
